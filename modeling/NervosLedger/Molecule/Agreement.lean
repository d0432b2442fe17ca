import NervosLedger.Molecule.Simulation

/-!
# Two sets of callbacks in lockstep

Where each event takes related states to related states, and refuses or throws under one handler
just when it does under the other, a call of the parser ends the same way under both, also when
it is rejected.
-/
namespace NervosLedger.Molecule

section Agrees
variable {E σ₁ σ₂ ε : Type} {h₁ : Handler E σ₁ ε} {h₂ : Handler E σ₂ ε} {R : σ₁ → σ₂ → Prop}

/-- Event `e` does the same under both handlers, up to `R`. -/
structure SameAt (h₁ : Handler E σ₁ ε) (h₂ : Handler E σ₂ ε) (R : σ₁ → σ₂ → Prop) (e : E) :
    Prop where
  run : ∀ {g₁ g₂}, R g₁ g₂ → R (h₁.run e g₁) (h₂.run e g₂)
  ask : ∀ {g₁ g₂}, R g₁ g₂ →
    (h₁.ask e g₁).2 = (h₂.ask e g₂).2 ∧ R (h₁.ask e g₁).1 (h₂.ask e g₂).1
  finish : ∀ {g₁ g₂}, R g₁ g₂ →
    (h₁.finish e g₁).2 = (h₂.finish e g₂).2 ∧ R (h₁.finish e g₁).1 (h₂.finish e g₂).1

/-- Two outcomes that differ in the owner's state only. -/
inductive Res.Agrees (R : σ₁ → σ₂ → Prop) : Res σ₁ ε → Res σ₂ ε → Prop
  | same {rv st rest g₁ g₂ direct} (h : R g₁ g₂) :
    Res.Agrees R ⟨rv, st, rest, g₁, direct⟩ ⟨rv, st, rest, g₂, direct⟩

inductive Next.Agrees (R : σ₁ → σ₂ → Prop) : Next σ₁ → Next σ₂ → Prop
  | go {s u g₁ g₂} (h : R g₁ g₂) : Next.Agrees R (.go s u g₁) (.go s u g₂)
  | accept {s u g₁ g₂} (h : R g₁ g₂) : Next.Agrees R (.accept s u g₁) (.accept s u g₂)
  | refuse {s u g₁ g₂} (h : R g₁ g₂) : Next.Agrees R (.refuse s u g₁) (.refuse s u g₂)

structure Stage.Agrees (R : σ₁ → σ₂ → Prop) (p₁ : Stage σ₁ ε) (p₂ : Stage σ₂ ε) : Prop where
  parse : ∀ u inp {g₁ g₂}, R g₁ g₂ → (p₁.parse u inp g₁).Agrees R (p₂.parse u inp g₂)
  next : ∀ u {g₁ g₂}, R g₁ g₂ → (p₁.next u g₁).Agrees R (p₂.next u g₂)

structure Part.Agrees (R : σ₁ → σ₂ → Prop) (p₁ : Part σ₁ ε) (p₂ : Part σ₂ ε) : Prop where
  initState : p₁.initState = p₂.initState
  start : ∀ {g₁ g₂}, R g₁ g₂ → R (p₁.start g₁) (p₂.start g₂)
  parse : ∀ st size inp {g₁ g₂}, R g₁ g₂ →
    (p₁.parse st size inp g₁).Agrees R (p₂.parse st size inp g₂)

theorem fire_agrees {o : Option E} (ho : ∀ e ∈ o, SameAt h₁ h₂ R e) {g₁ : σ₁} {g₂ : σ₂}
    (hg : R g₁ g₂) : R (h₁.fire o g₁) (h₂.fire o g₂) := by
  cases o with
  | none => exact hg
  | some e => exact (ho e rfl).run hg

theorem fire_map_agrees {α : Type} {o : Option (α → E)} (ho : ∀ f ∈ o, ∀ a, SameAt h₁ h₂ R (f a))
    (a : α) {g₁ : σ₁} {g₂ : σ₂} (hg : R g₁ g₂) :
    R (h₁.fire (o.map fun f => f a) g₁) (h₂.fire (o.map fun f => f a) g₂) := by
  cases o with
  | none => exact hg
  | some f => exact (ho f rfl a).run hg

theorem allow_agrees {o : Option (ℕ → E)} (ho : ∀ f ∈ o, ∀ n, SameAt h₁ h₂ R (f n)) (n : ℕ)
    {g₁ : σ₁} {g₂ : σ₂} (hg : R g₁ g₂) :
    ∃ b a₁ a₂, h₁.allow (o.map fun f => f n) g₁ = (a₁, b) ∧
      h₂.allow (o.map fun f => f n) g₂ = (a₂, b) ∧ R a₁ a₂ := by
  cases o with
  | none => exact ⟨true, g₁, g₂, rfl, rfl, hg⟩
  | some f =>
    obtain ⟨hb, hR⟩ := (ho f rfl n).ask hg
    exact ⟨_, _, _, rfl, Prod.ext rfl hb.symm, hR⟩

theorem Next.allowed_agrees {o : Option (ℕ → E)} (ho : ∀ f ∈ o, ∀ n, SameAt h₁ h₂ R (f n)) (n : ℕ)
    {g₁ : σ₁} {g₂ : σ₂} (hg : R g₁ g₂) (s : Frame) (u : ReaderState)
    {next₁ : σ₁ → Next σ₁} {next₂ : σ₂ → Next σ₂}
    (hnext : ∀ {g₁ g₂}, R g₁ g₂ → (next₁ g₁).Agrees R (next₂ g₂)) :
    (Next.allowed s u next₁ (h₁.allow (o.map fun f => f n) g₁)).Agrees R
      (Next.allowed s u next₂ (h₂.allow (o.map fun f => f n) g₂)) := by
  obtain ⟨b, a₁, a₂, e₁, e₂, hR⟩ := allow_agrees ho n hg
  rw [e₁, e₂]
  cases b with
  | false => exact .refuse hR
  | true => exact hnext hR

theorem molParseBytes_agrees {width : ℕ} {done : Option (FixedBytes width → E)}
    (hd : ∀ f ∈ done, ∀ b, SameAt h₁ h₂ R (f b)) (st : ReaderState) (size : ℕ) (inp : List UInt8)
    {g₁ : σ₁} {g₂ : σ₂} (hg : R g₁ g₂) :
    (molParseBytes h₁ width done st size inp g₁).Agrees R
      (molParseBytes h₂ width done st size inp g₂) := by
  unfold molParseBytes
  dsimp only
  split
  · exact .same (fire_map_agrees hd _ hg)
  · exact .same hg

theorem molParseNum_agrees (st : ReaderState) (inp : List UInt8) {g₁ : σ₁} {g₂ : σ₂}
    (hg : R g₁ g₂) : (molParseNum h₁ st inp g₁).Agrees R (molParseNum h₂ st inp g₂) :=
  molParseBytes_agrees (by simp) st 4 inp hg

theorem parseByte_agrees {done : Option (UInt8 → E)} (hd : ∀ f ∈ done, ∀ b, SameAt h₁ h₂ R (f b))
    (st : ReaderState) (size : ℕ) (inp : List UInt8) {g₁ : σ₁} {g₂ : σ₂} (hg : R g₁ g₂) :
    (parseByte h₁ done st size inp g₁).Agrees R (parseByte h₂ done st size inp g₂) := by
  unfold parseByte
  split
  · exact .same hg
  · cases inp with
    | nil => exact .same hg
    | cons b rest => exact .same (fire_map_agrees hd b hg)

theorem runStages_agrees {stage₁ : Frame → Option (Stage σ₁ ε)}
    {stage₂ : Frame → Option (Stage σ₂ ε)}
    (hs : ∀ s, Option.Rel (Stage.Agrees R) (stage₁ s) (stage₂ s)) (fuel : ℕ) (s : Frame)
    (u : ReaderState) (inp : List UInt8) {g₁ : σ₁} {g₂ : σ₂} (hg : R g₁ g₂) :
    (runStages stage₁ fuel s u inp g₁).Agrees R (runStages stage₂ fuel s u inp g₂) := by
  induction fuel generalizing s u inp g₁ g₂ with
  | zero => exact .same hg
  | succ fuel ih =>
    unfold runStages
    have hstage := hs s
    generalize stage₁ s = o₁ at hstage ⊢
    generalize stage₂ s = o₂ at hstage ⊢
    cases hstage with
    | none => exact .same hg
    | @some p₁ p₂ hp =>
      have hparse := hp.parse u inp hg
      dsimp only
      generalize p₁.parse u inp g₁ = r₁ at hparse ⊢
      generalize p₂.parse u inp g₂ = r₂ at hparse ⊢
      obtain ⟨hg'⟩ := hparse
      rename_i rv st rest g₁' g₂' direct
      cases rv with
      | complete =>
        have hnext := hp.next st hg'
        dsimp only
        generalize p₁.next st g₁' = n₁ at hnext ⊢
        generalize p₂.next st g₂' = n₂ at hnext ⊢
        cases hnext with
        | go hn => exact ih _ _ _ hn
        | accept hn => exact .same hn
        | refuse hn => exact .same hn
      | incomplete => exact .same hg'
      | reject => exact .same hg'
      | throw e => exact .same hg'

theorem close_agrees {o : Option E} (ho : ∀ e ∈ o, SameAt h₁ h₂ R e) {g₁ : σ₁} {g₂ : σ₂}
    (hg : R g₁ g₂) (rv : Rv ε) (st : ReaderState) (rest : List UInt8) (g₁' : σ₁) (g₂' : σ₂)
    (direct : Bool) :
    (Res.closed ⟨rv, st, rest, g₁', direct⟩ (h₁.close o g₁)).Agrees R
      (Res.closed ⟨rv, st, rest, g₂', direct⟩ (h₂.close o g₂)) := by
  cases o with
  | none => exact .same hg
  | some e =>
    simp only [Handler.close_some]
    have hf := (ho e rfl).finish hg
    generalize h₁.finish e g₁ = x₁ at hf ⊢
    generalize h₂.finish e g₂ = x₂ at hf ⊢
    obtain ⟨a₁, b⟩ := x₁
    obtain ⟨a₂, b'⟩ := x₂
    obtain ⟨rfl, hR⟩ := hf
    cases b with
    | none => exact .same hR
    | some e => exact .same hR

theorem leave_agrees {cb : Callbacks E} (hcb : cb.Every (SameAt h₁ h₂ R)) (inp : List UInt8)
    {r₁ : Res σ₁ ε} {r₂ : Res σ₂ ε} (hr : r₁.Agrees R r₂) :
    (leave h₁ cb inp r₁).Agrees R (leave h₂ cb inp r₂) := by
  obtain ⟨hg⟩ := hr
  rename_i rv st rest g₁ g₂ direct
  have hchunk : ∀ bs, R (h₁.fire (cb.chunk.map fun c => c bs) g₁)
      (h₂.fire (cb.chunk.map fun c => c bs) g₂) := fun bs => fire_map_agrees hcb.chunk bs hg
  cases rv with
  | complete => exact close_agrees hcb.finish (hchunk _) _ _ _ _ _ _
  | incomplete => exact .same (hchunk _)
  | reject =>
    cases direct with
    | false => exact .same (hchunk _)
    | true => exact .same hg
  | throw e => exact .same hg

section Stages
variable {cb : Callbacks E} {p₁ : Part σ₁ ε} {p₂ : Part σ₂ ε}

theorem optionStage_agrees (hp : p₁.Agrees R p₂) (size : ℕ) (s : Frame) :
    Option.Rel (Stage.Agrees R) (optionStage p₁ size s) (optionStage p₂ size s) := by
  unfold optionStage
  split
  · exact .none
  · exact .some ⟨fun u inp _ _ hg => hp.parse u size inp hg, fun u _ _ hg => .accept hg⟩

theorem fixVecStage_agrees (hcb : cb.Every (SameAt h₁ h₂ R)) (hp : p₁.Agrees R p₂)
    (width size : ℕ) (s : Frame) :
    Option.Rel (Stage.Agrees R) (fixVecStage h₁ cb width p₁ size s)
      (fixVecStage h₂ cb width p₂ size s) := by
  unfold fixVecStage
  rw [hp.initState]
  split
  · refine .some ⟨fun u inp _ _ hg => molParseNum_agrees u inp hg, fun u g₁ g₂ hg => ?_⟩
    dsimp only
    split
    · exact .refuse hg
    · exact Next.allowed_agrees hcb.size _ hg _ _
        fun hg => .go (fire_map_agrees hcb.index 0 (hp.start hg))
  · split
    · exact .some ⟨fun u inp _ _ hg => hp.parse u width inp hg,
        fun u _ _ hg => .go (fire_map_agrees hcb.index _ (hp.start hg))⟩
    · exact .none

theorem dynVecItems_agrees (hcb : cb.Every (SameAt h₁ h₂ R)) (hp : p₁.Agrees R p₂) (s : Frame)
    {g₁ : σ₁} {g₂ : σ₂} (hg : R g₁ g₂) :
    (dynVecItems h₁ cb p₁ s g₁).Agrees R (dynVecItems h₂ cb p₂ s g₂) := by
  unfold dynVecItems
  rw [hp.initState]
  exact .go (fire_map_agrees hcb.index 0 (fire_map_agrees hcb.length _ (hp.start hg)))

theorem dynVecStage_agrees (hcb : cb.Every (SameAt h₁ h₂ R)) (hp : p₁.Agrees R p₂)
    (size : ℕ) (s : Frame) :
    Option.Rel (Stage.Agrees R) (dynVecStage h₁ cb p₁ size s) (dynVecStage h₂ cb p₂ size s) := by
  unfold dynVecStage
  split
  · refine .some ⟨fun u inp _ _ hg => molParseNum_agrees u inp hg, fun u g₁ g₂ hg => ?_⟩
    refine Next.allowed_agrees hcb.size _ hg _ _ fun hg => ?_
    split
    · exact .accept hg
    · split
      · exact .refuse hg
      · exact .go hg
  · refine .some ⟨fun u inp _ _ hg => molParseNum_agrees u inp hg, fun u g₁ g₂ hg => ?_⟩
    dsimp only
    split
    · exact .go hg
    · exact dynVecItems_agrees hcb hp _ hg
  · refine .some ⟨fun u inp _ _ hg => molParseNum_agrees u inp hg, fun u g₁ g₂ hg => ?_⟩
    dsimp only
    split
    · exact .go hg
    · exact dynVecItems_agrees hcb hp _ hg
  · rw [hp.initState]
    split
    · exact .some ⟨fun u inp _ _ hg => hp.parse u _ inp hg,
        fun u _ _ hg => .go (fire_map_agrees hcb.index _ (hp.start hg))⟩
    · exact .none

theorem structStage_agrees {q₁ : Part σ₁ ε} {q₂ : Part σ₂ ε} (hp : p₁.Agrees R p₂)
    (hq : q₁.Agrees R q₂) (w₁ w₂ : ℕ) (s : Frame) :
    Option.Rel (Stage.Agrees R) (structStage w₁ w₂ p₁ q₁ s) (structStage w₁ w₂ p₂ q₂ s) := by
  unfold structStage
  rw [hq.initState]
  split
  · exact .some ⟨fun u inp _ _ hg => hp.parse u w₁ inp hg, fun u _ _ hg => .go (hq.start hg)⟩
  · exact .some ⟨fun u inp _ _ hg => hq.parse u w₂ inp hg, fun u _ _ hg => .accept hg⟩
  · exact .none

theorem tableStage_agrees (hcb : cb.Every (SameAt h₁ h₂ R)) {ps₁ : List (Part σ₁ ε)}
    {ps₂ : List (Part σ₂ ε)} (hp : List.Forall₂ (Part.Agrees R) ps₁ ps₂) (size : ℕ) (s : Frame) :
    Option.Rel (Stage.Agrees R) (tableStage h₁ cb ps₁ size s) (tableStage h₂ cb ps₂ size s) := by
  have hget : ∀ i : ℕ, Option.Rel (Part.Agrees R) ps₁[i]? ps₂[i]? := by
    intro i
    induction hp generalizing i with
    | nil => exact .none
    | cons h _ ih =>
      cases i with
      | zero => exact .some h
      | succ i => exact ih i
  unfold tableStage
  split
  · refine .some ⟨fun u inp _ _ hg => molParseNum_agrees u inp hg, fun u g₁ g₂ hg => ?_⟩
    dsimp only
    split
    · exact .refuse hg
    · exact .go hg
  · refine .some ⟨fun u inp _ _ hg => molParseNum_agrees u inp hg, fun u g₁ g₂ hg => ?_⟩
    cases hp with
    | nil => exact .accept hg
    | cons h hrest =>
      dsimp only
      rw [hrest.length_eq, h.initState]
      split
      · exact .go hg
      · refine .go ?_
        cases ho : cb.offsets with
        | none => exact h.start hg
        | some f => exact (hcb.offsets f ho _ _).run (h.start hg)
  · have h₀ := hget s.fieldIdx
    have h₁ := hget (s.fieldIdx + 1)
    generalize ps₁[s.fieldIdx]? = a₁, ps₂[s.fieldIdx]? = a₂ at h₀ ⊢
    generalize ps₁[s.fieldIdx + 1]? = b₁, ps₂[s.fieldIdx + 1]? = b₂ at h₁ ⊢
    cases h₀ with
    | none => exact .none
    | some hp =>
      refine .some ⟨fun u inp _ _ hg => hp.parse u _ inp hg, fun u g₁ g₂ hg => ?_⟩
      cases h₁ with
      | none => exact .go hg
      | some hq =>
        dsimp only
        rw [hq.initState]
        exact .go (hq.start hg)
  · exact .none

end Stages

theorem parseStages_agrees {cb : Callbacks E} (hcb : cb.Every (SameAt h₁ h₂ R))
    {stage₁ : Frame → Option (Stage σ₁ ε)} {stage₂ : Frame → Option (Stage σ₂ ε)}
    (hs : ∀ s, Option.Rel (Stage.Agrees R) (stage₁ s) (stage₂ s)) (rank : Frame → ℕ)
    (st : ReaderState) (inp : List UInt8) {g₁ : σ₁} {g₂ : σ₂} (hg : R g₁ g₂) :
    (parseStages h₁ cb rank stage₁ st inp g₁).Agrees R
      (parseStages h₂ cb rank stage₂ st inp g₂) :=
  leave_agrees hcb inp (runStages_agrees hs _ _ _ _ hg)

theorem parseBody_agrees {cb : Callbacks E} (hcb : cb.Every (SameAt h₁ h₂ R)) (s : Frame)
    (u : ReaderState) (inp : List UInt8) {g₁ : σ₁} {g₂ : σ₂} (hg : R g₁ g₂) :
    (parseBody h₁ cb s u inp g₁).Agrees R (parseBody h₂ cb s u inp g₂) := by
  have hb : ∀ n, R (if n = 0 then g₁ else
      h₁.fire (cb.bodyChunk.map fun f => f (inp.take n) (inp.drop n)) g₁)
      (if n = 0 then g₂ else
        h₂.fire (cb.bodyChunk.map fun f => f (inp.take n) (inp.drop n)) g₂) := by
    intro n
    split
    · exact hg
    · cases ho : cb.bodyChunk with
      | none => exact hg
      | some f => exact (hcb.bodyChunk f ho _ _).run hg
  unfold parseBody
  dsimp only
  split
  · exact close_agrees hcb.finish (hb _) _ _ _ _ _ _
  · exact .same (hb _)

theorem parseBytes_agrees {cb : Callbacks E} (hcb : cb.Every (SameAt h₁ h₂ R))
    (st : ReaderState) (size : ℕ) (inp : List UInt8) {g₁ : σ₁} {g₂ : σ₂} (hg : R g₁ g₂) :
    (parseBytes h₁ cb st size inp g₁).Agrees R (parseBytes h₂ cb st size inp g₂) := by
  unfold parseBytes
  dsimp only
  split
  · have hnum : (molParseNum h₁ st.u inp g₁).Agrees R (molParseNum h₂ st.u inp g₂) :=
      molParseNum_agrees st.u inp hg
    generalize molParseNum h₁ st.u inp g₁ = r₁ at hnum ⊢
    generalize molParseNum h₂ st.u inp g₂ = r₂ at hnum ⊢
    obtain ⟨hg'⟩ := hnum
    rename_i rv u rest g₁' g₂' direct
    cases rv with
    | complete =>
      dsimp only
      split
      · exact .same hg'
      · obtain ⟨b, a₁, a₂, e₁, e₂, hR⟩ := allow_agrees hcb.size (u.num + 4) hg'
        rw [e₁, e₂]
        cases b with
        | false => exact .same hR
        | true => exact parseBody_agrees hcb _ _ _ hR
    | incomplete => exact .same hg'
    | reject => exact .same hg'
    | throw e => exact .same hg'
  · exact parseBody_agrees hcb _ _ inp hg

theorem Reader.start_agrees {r : Reader E} (hr : r.Every (SameAt h₁ h₂ R)) {g₁ : σ₁} {g₂ : σ₂}
    (hg : R g₁ g₂) : R (r.start h₁ g₁) (r.start h₂ g₂) := by
  induction r generalizing g₁ g₂ with
  | byte done => exact hg
  | array width done => exact hg
  | bytes cb => exact fire_agrees hr.start hg
  | option cb item ih => exact ih hr.2 (fire_agrees hr.1.start hg)
  | fixVec cb width item ih => exact fire_agrees hr.1.start hg
  | dynVec cb item ih => exact fire_agrees hr.1.start hg
  | struct cb w₁ w₂ fst snd ih₁ ih₂ => exact ih₁ hr.2.1 (fire_agrees hr.1.start hg)
  | table cb last fields ih => exact fire_agrees hr.1.start hg

/-- A call of the parser ends the same way under both handlers. -/
theorem Reader.parse_agrees {r : Reader E} (hr : r.Every (SameAt h₁ h₂ R)) (st : ReaderState)
    (size : ℕ) (inp : List UInt8) {g₁ : σ₁} {g₂ : σ₂} (hg : R g₁ g₂) :
    (r.parse h₁ st size inp g₁).Agrees R (r.parse h₂ st size inp g₂) := by
  induction r generalizing st size inp g₁ g₂ with
  | byte done => exact parseByte_agrees hr st size inp hg
  | array width done => exact molParseBytes_agrees hr st size inp hg
  | bytes cb => exact parseBytes_agrees hr st size inp hg
  | option cb item ih =>
    have hitem : (item.part h₁).Agrees R (item.part h₂) :=
      ⟨rfl, start_agrees hr.2, fun st size inp _ _ => ih hr.2 st size inp⟩
    rw [parse_option, parse_option]
    exact parseStages_agrees hr.1 (optionStage_agrees hitem size) _ st inp hg
  | fixVec cb width item ih =>
    have hitem : (item.part h₁).Agrees R (item.part h₂) :=
      ⟨rfl, start_agrees hr.2, fun st size inp _ _ => ih hr.2 st size inp⟩
    rw [parse_fixVec, parse_fixVec]
    exact parseStages_agrees hr.1 (fixVecStage_agrees hr.1 hitem width size) _ st inp hg
  | dynVec cb item ih =>
    have hitem : (item.part h₁).Agrees R (item.part h₂) :=
      ⟨rfl, start_agrees hr.2, fun st size inp _ _ => ih hr.2 st size inp⟩
    rw [parse_dynVec, parse_dynVec]
    exact parseStages_agrees hr.1 (dynVecStage_agrees hr.1 hitem size) _ st inp hg
  | struct cb w₁ w₂ fst snd ih₁ ih₂ =>
    have hfst : (fst.part h₁).Agrees R (fst.part h₂) :=
      ⟨rfl, start_agrees hr.2.1, fun st size inp _ _ => ih₁ hr.2.1 st size inp⟩
    have hsnd : (snd.part h₁).Agrees R (snd.part h₂) :=
      ⟨rfl, start_agrees hr.2.2, fun st size inp _ _ => ih₂ hr.2.2 st size inp⟩
    by_cases hs : size = w₁ + w₂ ∨ size = molNumMax
    · rw [parse_struct _ _ _ _ _ _ _ _ hs, parse_struct _ _ _ _ _ _ _ _ hs]
      exact parseStages_agrees hr.1 (structStage_agrees hfst hsnd w₁ w₂) _ st inp hg
    · have hreject : ∀ {σ : Type} (h : Handler E σ ε) (g : σ),
          (struct cb w₁ w₂ fst snd).parse h st size inp g = ⟨.reject, st, inp, g, false⟩ :=
        fun _ _ => if_pos (by omega)
      rw [hreject, hreject]
      exact .same hg
  | table cb last fields ih =>
    have hfield : ∀ i, ((fields i).part h₁).Agrees R ((fields i).part h₂) := fun i =>
      ⟨rfl, start_agrees (hr.2 i), fun st size inp _ _ => ih i (hr.2 i) st size inp⟩
    rw [parse_table, parse_table]
    refine parseStages_agrees hr.1 (tableStage_agrees hr.1 ?_ size) _ st inp hg
    rw [List.forall₂_iff_get]
    refine ⟨by simp only [List.length_ofFn], fun i hi _ => ?_⟩
    simp only [List.get_eq_getElem, List.getElem_ofFn]
    exact hfield _

end Agrees

section Keeps
variable {E σ ε : Type} {h : Handler E σ ε} {P : σ → Prop}

/-- Event `e` keeps `P`, however it ends. -/
structure KeepsAt (h : Handler E σ ε) (P : σ → Prop) (e : E) : Prop where
  run : ∀ {g}, P g → P (h.run e g)
  ask : ∀ {g}, P g → P (h.ask e g).1
  finish : ∀ {g}, P g → P (h.finish e g).1

theorem KeepsAt.same {e : E} (he : KeepsAt h P e) :
    SameAt h h (fun g₁ g₂ => g₁ = g₂ ∧ P g₁) e where
  run := by
    rintro g _ ⟨rfl, hg⟩
    exact ⟨rfl, he.run hg⟩
  ask := by
    rintro g _ ⟨rfl, hg⟩
    exact ⟨rfl, rfl, he.ask hg⟩
  finish := by
    rintro g _ ⟨rfl, hg⟩
    exact ⟨rfl, rfl, he.finish hg⟩

/-- What every event keeps, a call keeps, also one that is rejected or ends with a throw. -/
theorem Reader.parse_keeps {r : Reader E} (hr : r.Every (KeepsAt h P)) (st : ReaderState)
    (size : ℕ) (inp : List UInt8) {g : σ} (hg : P g) : P (r.parse h st size inp g).g := by
  have ha := parse_agrees (hr.mono fun _ => KeepsAt.same) st size inp ⟨rfl, hg⟩
  generalize r.parse h st size inp g = x at ha ⊢
  obtain ⟨h⟩ := ha
  exact h.2

end Keeps
end NervosLedger.Molecule
