import NervosLedger.Molecule.Chunks

/-!
# Cutting an input that is read to its end

What a reader takes in one call it takes in several: where one call on `a ++ b` goes well, the call
on `a` goes well, and so does the one on `b` that resumes it. What the calls come to is then known
from the one call.
-/
namespace NervosLedger.Molecule
variable {E σ ε : Type} {h : Handler E σ ε}

/-- A call that goes well is not spoilt by a cut. -/
structure Resumes (parse : ReaderState → List UInt8 → σ → Res σ ε) : Prop where
  first : ∀ {st a b g}, (parse st (a ++ b) g).Live → (parse st a g).Live
  second : ∀ {st a b g st' rest g'}, parse st a g = ⟨.incomplete, st', rest, g', false⟩ →
    (parse st (a ++ b) g).Live → (parse st' b g').Live

theorem molParseBytes_live (width : ℕ) (done : Option (FixedBytes width → E)) (st : ReaderState)
    (size : ℕ) (inp : List UInt8) (g : σ) : (molParseBytes h width done st size inp g).Live := by
  unfold molParseBytes
  dsimp only
  split
  · exact .inl rfl
  · exact .inr rfl

theorem molParseNum_live (st : ReaderState) (inp : List UInt8) (g : σ) :
    (molParseNum h st inp g).Live := molParseBytes_live 4 none st 4 inp g

theorem molParseBytes_resumes (width : ℕ) (done : Option (FixedBytes width → E)) (size : ℕ) :
    Resumes fun st inp g => molParseBytes h width done st size inp g where
  first _ := molParseBytes_live width done _ size _ _
  second _ _ := molParseBytes_live width done _ size _ _

theorem molParseNum_resumes : Resumes (molParseNum h) := molParseBytes_resumes 4 none 4

theorem parseByte_live (done : Option (UInt8 → E)) {st : ReaderState} {size : ℕ} {inp : List UInt8}
    {g : σ} : (parseByte h done st size inp g).Live ↔ size = 1 := by
  unfold parseByte
  by_cases hs : size = 1
  · rw [if_neg (not_not.mpr hs)]
    cases inp <;> simp [Res.Live, hs]
  · rw [if_pos hs]
    simp [Res.Live, hs]

theorem parseByte_resumes (done : Option (UInt8 → E)) (size : ℕ) :
    Resumes fun st inp g => parseByte h done st size inp g where
  first hl := (parseByte_live done).mpr ((parseByte_live done).mp hl)
  second _ hl := (parseByte_live done).mpr ((parseByte_live done).mp hl)

/-! ### Stages -/

section Run
variable {rank : Frame → ℕ} {stage : Frame → Option (Stage σ ε)}

/-- Where the stages go well, the first of them does. -/
theorem Ranked.part_live (hrank : Ranked rank stage) {st : ReaderState} {p : Stage σ ε}
    (hs : stage st.frame = some p) {inp : List UInt8} {g : σ}
    (hl : (runAll rank stage st inp g).Live) : (p.parse st.u inp g).Live := by
  rw [hrank.runAll_some hs] at hl
  generalize p.parse st.u inp g = r at hl ⊢
  obtain ⟨rv, u, rest, g', d⟩ := r
  cases rv with
  | complete => exact .inl rfl
  | incomplete => exact .inr rfl
  | reject => exact hl
  | throw e => simp [Res.Live] at hl

variable (hrank : Ranked rank stage) (hp : ∀ s p, stage s = some p → Splits p.parse)
  (hr : ∀ s p, stage s = some p → Resumes p.parse)
include hrank hp hr

theorem Ranked.runAll_first {st : ReaderState} {a b : List UInt8} {g : σ}
    (hl : (runAll rank stage st (a ++ b) g).Live) : (runAll rank stage st a g).Live := by
  induction hn : rank st.frame using Nat.strong_induction_on generalizing st a g with
  | _ n ih =>
    cases hs : stage st.frame with
    | none =>
      rw [runAll_none hs]
      exact .inl rfl
    | some p =>
      have hpart := (hr _ p hs).first (hrank.part_live hs hl)
      rw [hrank.runAll_some hs] at hl ⊢
      rcases hx : p.parse st.u a g with ⟨rv, u₁, rest₁, g₁, d⟩
      have hd : d = false := by simpa [hx] using (hp _ p hs).direct st.u a g hpart
      subst hd
      rw [hx] at hpart
      dsimp only
      cases rv with
      | complete =>
        rw [(hp _ p hs).complete b hx] at hl
        dsimp only at hl ⊢
        cases hq : p.next u₁ g₁ with
        | go s' u' g' =>
          rw [hq] at hl
          exact ih (rank s') (hn ▸ hrank.lt _ p _ _ _ _ _ hs hq) hl rfl
        | accept s' u' g' => exact .inl rfl
        | refuse s' u' g' =>
          rw [hq] at hl
          exact hl
      | incomplete => exact .inr rfl
      | reject => exact hpart
      | throw e => simp [Res.Live] at hpart

theorem Ranked.runAll_second {st : ReaderState} {a b : List UInt8} {g : σ} {st' : ReaderState}
    {rest : List UInt8} {g' : σ}
    (ha : runAll rank stage st a g = ⟨.incomplete, st', rest, g', false⟩)
    (hl : (runAll rank stage st (a ++ b) g).Live) : (runAll rank stage st' b g').Live := by
  induction hn : rank st.frame using Nat.strong_induction_on generalizing st a g with
  | _ n ih =>
    cases hs : stage st.frame with
    | none =>
      rw [runAll_none hs] at ha
      cases ha
    | some p =>
      have hwhole := hrank.part_live hs hl
      have hpart := (hr _ p hs).first hwhole
      rw [hrank.runAll_some hs] at ha hl
      rcases hx : p.parse st.u a g with ⟨rv, u₁, rest₁, g₁, d⟩
      have hd : d = false := by simpa [hx] using (hp _ p hs).direct st.u a g hpart
      subst hd
      rw [hx] at ha
      dsimp only at ha
      cases rv with
      | complete =>
        rw [(hp _ p hs).complete b hx] at hl
        dsimp only at ha hl
        cases hq : p.next u₁ g₁ with
        | go s' u' g' =>
          rw [hq] at ha hl
          exact ih (rank s') (hn ▸ hrank.lt _ p _ _ _ _ _ hs hq) ha hl rfl
        | accept s' u' g' =>
          rw [hq] at ha
          cases ha
        | refuse s' u' g' =>
          rw [hq] at ha
          cases ha
      | incomplete =>
        cases ha
        -- the second call is at the same stage, in the middle of its part
        have hs' : stage (ReaderState.node st.frame u₁).frame = some p := hs
        have hrest := (hr _ p hs).second hx hwhole
        rw [((hp _ p hs).incomplete hx).2 b hrest] at hl
        rw [hrank.runAll_some hs']
        dsimp only [ReaderState.u_node]
        generalize p.parse u₁ b g' = r at hl ⊢
        obtain ⟨rv, u₂, rest₂, g₂, d⟩ := r
        cases rv with
        | complete => exact hl
        | incomplete => exact .inr rfl
        | reject => exact hl
        | throw e => simp [Res.Live] at hl
      | reject => cases ha
      | throw e => cases ha

theorem Ranked.resumes : Resumes (runAll rank stage) where
  first hl := hrank.runAll_first hp hr hl
  second ha hl := hrank.runAll_second hp hr ha hl

end Run

/-! ### Leaving a parser -/

section Leave
variable {cb : Callbacks E}

/-- Leaving goes well unless the `end` callback throws. -/
theorem leave_live_iff {inp : List UInt8} {r : Res σ ε} : (leave h cb inp r).Live ↔
    r.Live ∧ (r.rv = .complete → (h.close cb.finish
      (h.fire (cb.chunk.map fun c => c (inp.take (inp.length - r.rest.length))) r.g)).2 = none) := by
  obtain ⟨rv, st, rest, g, d⟩ := r
  cases rv with
  | complete =>
    dsimp only [leave]
    generalize h.close cb.finish
      (h.fire (cb.chunk.map fun c => c (inp.take (inp.length - rest.length))) g) = z
    obtain ⟨g', _ | e⟩ := z <;> simp [Res.closed, Res.Live]
  | incomplete => simp [leave, Res.Live]
  | reject =>
    simp only [leave, Res.Live]
    split <;> simp
  | throw e => simp [leave, Res.Live]

theorem leave_resumes {core : ReaderState → List UInt8 → σ → Res σ ε} (hs : Splits core)
    (hr : Resumes core) (hadd : ∀ c ∈ cb.chunk, Collects h c)
    (hcomm : ∀ c ∈ cb.chunk, ∀ bs st inp g,
      (core st inp (h.run (c bs) g)).Agrees (After h c bs) (core st inp g)) :
    Resumes fun st inp g => leave h cb inp (core st inp g) where
  first {st a b g} hl := by
    rw [leave_live_iff] at hl ⊢
    have hcore := hr.first hl.1
    refine ⟨hcore, fun hc => ?_⟩
    rcases hx : core st a g with ⟨rv, st', rest, g', d⟩
    have hd : d = false := by simpa [hx] using hs.direct st a g hcore
    subst hd
    rw [hx] at hc
    obtain rfl : rv = .complete := hc
    have hle : rest.length ≤ a.length := by simpa [hx] using hs.le st a g
    have htake : (a ++ b).take ((a ++ b).length - (rest ++ b).length) =
        a.take (a.length - rest.length) := by
      have hlen : (a ++ b).length - (rest ++ b).length = a.length - rest.length := by
        simp only [List.length_append]
        omega
      rw [hlen, List.take_append_of_le_length (by omega)]
    have hclose := hl.2
    rw [hs.complete b hx] at hclose
    dsimp only at hclose ⊢
    rw [htake] at hclose
    exact hclose rfl
  second {st a b g st' rest g'} ha hl := by
    obtain ⟨g₀, hcore, rfl⟩ := leave_eq_incomplete ha
    obtain ⟨rfl, hrun⟩ := hs.incomplete hcore
    rw [leave_live_iff] at hl ⊢
    have hrest := hr.second hcore hl.1
    rw [hrun b hrest] at hl
    cases hc : cb.chunk with
    | none =>
      simp only [hc, Option.map_none, Handler.fire_none] at hl ⊢
      exact hl
    | some c =>
      simp only [hc, Option.map_some, Handler.fire_some, List.length_nil, Nat.sub_zero,
        List.take_length] at hl ⊢
      have hle := hs.le st' b g₀
      have hagrees := hcomm c hc a st' b g₀
      generalize core st' b (h.run (c a) g₀) = r₁ at hagrees ⊢
      generalize core st' b g₀ = r₂ at hagrees hl hle hrest
      obtain ⟨hg⟩ := hagrees
      rename_i rv st₁ rest₁ g₁ g₂ d
      refine ⟨hrest, fun hcomplete => ?_⟩
      have hclose := hl.2 hcomplete
      dsimp only at hclose hle ⊢
      -- the bytes of the two calls are collected as those of the one call
      have hlen : (a ++ b).length - rest₁.length = a.length + (b.length - rest₁.length) := by
        simp only [List.length_append]
        omega
      rw [hlen, List.take_length_add_append] at hclose
      rw [hg, hadd c hc]
      exact hclose

end Leave

/-! ### Byte strings -/

section Body
variable {cb : Callbacks E} (hbody : ∀ f ∈ cb.bodyChunk, BodyCollects h f)
include hbody

theorem parseBody_first {s : Frame} {u : ReaderState} {a b : List UInt8} {g : σ}
    (hl : (parseBody h cb s u (a ++ b) g).Live) : (parseBody h cb s u a g).Live := by
  rcases parseBody_cases s a with h0 | hlt | ⟨x, y, rfl, hx, hne⟩
  · rw [parseBody_empty h h0] at hl ⊢
    generalize h.close cb.finish g = z at hl ⊢
    obtain ⟨g', _ | e⟩ := z
    · exact .inl rfl
    · simp [Res.closed, Res.Live] at hl
  · rw [parseBody_of_lt h hlt]
    exact .inr rfl
  · rw [List.append_assoc, parseBody_append h hx hne, fire_body_blind hbody x (y ++ b) y] at hl
    rw [parseBody_append h hx hne]
    generalize h.close cb.finish (h.fire (cb.bodyChunk.map fun f => f x y) g) = z at hl ⊢
    obtain ⟨g', _ | e⟩ := z
    · exact .inl rfl
    · simp [Res.closed, Res.Live] at hl

theorem parseBytes_resumes (size : ℕ) : Resumes fun st inp g => parseBytes h cb st size inp g where
  first {st a b g} hl := by
    unfold parseBytes at hl ⊢
    dsimp only at hl ⊢
    split at hl
    · rename_i hs
      rw [if_pos hs]
      rcases molParseNum_cases (h := h) st.u a g with ⟨u, rest, hx⟩ | ⟨u, hx⟩
      · simp only [hx, molParseNum_splits.complete b hx] at hl ⊢
        split at hl
        · simp [Res.Live] at hl
        · rename_i hsize
          rw [if_neg hsize]
          split at hl
          · simp [Res.Live] at hl
          · exact parseBody_first hbody hl
      · simp only [hx]
        exact .inr rfl
    · rename_i hs
      rw [if_neg hs]
      exact parseBody_first hbody hl
  second {st a b g st' rest g'} ha hl := by
    -- a byte string goes on with its body, or with its length
    have hbodyState : ∀ {s : Frame} {u : ReaderState} {a : List UInt8} {g : σ},
        parseBody h cb s u a g = ⟨.incomplete, st', rest, g', false⟩ → 0 < s.stateNum →
        parseBody h cb s u (a ++ b) g = parseBytes h cb st' size b g' := by
      intro s u a g hb hpos
      obtain ⟨-, hnum, hrun⟩ := parseBody_incomplete hbody hb
      have hne : st'.frame.stateNum ≠ 0 := by omega
      rw [hrun b, parseBytes, if_neg hne]
    unfold parseBytes at ha
    dsimp only at ha
    split at ha
    · rename_i hs
      rcases molParseNum_cases (h := h) st.u a g with ⟨u, rest₁, hx⟩ | ⟨u, hx⟩
      · simp only [hx] at ha
        split at ha
        · cases ha
        · rename_i hsize
          split at ha
          · cases ha
          · rename_i g₁ hallow
            have hrun := hbodyState ha Nat.one_pos
            rw [parseBytes] at hl
            simp only [if_pos hs, molParseNum_splits.complete b hx, if_neg hsize, hallow] at hl
            rwa [← hrun]
      · simp only [hx] at ha
        cases ha
        have hrun := (molParseNum_splits.incomplete hx).2 b (molParseNum_live u b g)
        rw [parseBytes] at hl ⊢
        simp only [hs, hrun, ReaderState.frame_node, ReaderState.u_node, if_true] at hl ⊢
        exact hl
    · rename_i hs
      have hrun := hbodyState ha (Nat.pos_of_ne_zero hs)
      rw [parseBytes, if_neg hs] at hl
      rwa [← hrun]

end Body

theorem parseStages_resumes {cb : Callbacks E} {rank : Frame → ℕ}
    {stage : Frame → Option (Stage σ ε)} {inner : (E → Prop) → Prop} (hrank : Ranked rank stage)
    (hp : ∀ s p, stage s = some p → Splits p.parse ∧ Resumes p.parse)
    (hchunk : ChunkCommutes h cb inner)
    (hstage : ∀ {R : σ → σ → Prop}, cb.inner.Every (SameAt h h R) → inner (SameAt h h R) →
      ∀ s, Option.Rel (Stage.Agrees R) (stage s) (stage s)) :
    Resumes (parseStages h cb rank stage) := by
  have hs := fun s p h => (hp s p h).1
  have hr := fun s p h => (hp s p h).2
  refine leave_resumes (hrank.splits hs) (hrank.resumes hs hr) (fun c hc => (hchunk c hc).1) ?_
  intro c hc bs _ _ _
  exact runStages_agrees (hstage ((hchunk c hc).2 bs).1 ((hchunk c hc).2 bs).2) _ _ _ _ rfl

theorem Reader.part_agrees {R : σ → σ → Prop} {r : Reader E} (hr : r.Every (SameAt h h R)) :
    (r.part h).Agrees R (r.part h) :=
  ⟨rfl, start_agrees hr, fun st size inp _ _ => parse_agrees hr st size inp⟩

/-- A call of a reader that goes well is not spoilt by a cut. -/
theorem Reader.parse_resumes {r : Reader E} (hr : r.Collecting h) (size : ℕ) :
    Resumes fun st inp g => r.parse h st size inp g := by
  have hnum : Splits (molParseNum h) ∧ Resumes (molParseNum h) :=
    ⟨molParseNum_splits, molParseNum_resumes⟩
  induction r generalizing size with
  | byte done => exact parseByte_resumes done size
  | array width done => exact molParseBytes_resumes width done size
  | bytes cb => exact parseBytes_resumes hr size
  | option cb item ih =>
    have hitem := fun size => And.intro (parse_splits hr.2.fluid size) (ih hr.2 size)
    refine parseStages_resumes (optionStage_ranked _ size) ?_ hr.1
      fun _ hi => optionStage_agrees (part_agrees hi) size
    intro s p hs
    unfold optionStage at hs
    split at hs
    · cases hs
    · cases hs
      exact hitem size
  | fixVec cb width item ih =>
    have hitem := fun size => And.intro (parse_splits hr.2.fluid size) (ih hr.2 size)
    refine parseStages_resumes (fixVecStage_ranked cb _ size width) ?_ hr.1
      fun hcb hi => fixVecStage_agrees hcb (part_agrees hi) width size
    intro s p hs
    unfold fixVecStage at hs
    split at hs
    · cases hs
      exact hnum
    · split at hs
      · cases hs
        exact hitem width
      · cases hs
  | dynVec cb item ih =>
    have hitem := fun size => And.intro (parse_splits hr.2.fluid size) (ih hr.2 size)
    refine parseStages_resumes (dynVecStage_ranked cb _ size) ?_ hr.1
      fun hcb hi => dynVecStage_agrees hcb (part_agrees hi) size
    intro s p hs
    unfold dynVecStage at hs
    split at hs
    · cases hs
      exact hnum
    · cases hs
      exact hnum
    · cases hs
      exact hnum
    · split at hs
      · cases hs
        exact hitem molNumMax
      · cases hs
  | struct cb w₁ w₂ fst snd ih₁ ih₂ =>
    have hfst := fun size => And.intro (parse_splits hr.2.1.fluid size) (ih₁ hr.2.1 size)
    have hsnd := fun size => And.intro (parse_splits hr.2.2.fluid size) (ih₂ hr.2.2 size)
    by_cases hs : size = w₁ + w₂ ∨ size = molNumMax
    · simp only [parse_struct _ _ _ _ _ _ _ _ hs]
      refine parseStages_resumes (structStage_ranked _ _ w₁ w₂) ?_ hr.1
        fun _ hi => structStage_agrees (part_agrees hi.1) (part_agrees hi.2) w₁ w₂
      intro s p hs
      unfold structStage at hs
      split at hs
      · cases hs
        exact hfst w₁
      · cases hs
        exact hsnd w₂
      · cases hs
    · have hreject : ∀ st inp g, (struct cb w₁ w₂ fst snd).parse h st size inp g =
          ⟨.reject, st, inp, g, false⟩ := fun _ _ _ => if_pos (by omega)
      constructor <;> simp [hreject, Res.Live]
  | table cb last fields ih =>
    have hfield := fun i size => And.intro (parse_splits (hr.2 i).fluid size) (ih i (hr.2 i) size)
    have hrank := tableStage_ranked (h := h) cb size (List.ofFn fun i => (fields i).part h)
    rw [List.length_ofFn] at hrank
    refine parseStages_resumes hrank ?_ hr.1 fun hcb hfields => tableStage_agrees hcb ?_ size
    · intro s p hs
      unfold tableStage at hs
      split at hs
      · cases hs
        exact hnum
      · cases hs
        exact hnum
      · split at hs
        · cases hs
        · rename_i hget
          cases hs
          obtain ⟨i, rfl⟩ := List.mem_ofFn.mp (List.mem_of_getElem? hget)
          exact hfield i _
      · cases hs
    · rw [List.forall₂_same]
      intro p hp
      obtain ⟨i, rfl⟩ := List.mem_ofFn.mp hp
      exact part_agrees (hfields i)

/-- The call on the first of two pieces, and the call on the other one, if the call on both of them
completes and leaves nothing over. -/
theorem Reader.cut {r : Reader E} (hr : r.Collecting h) {size : ℕ} {st : ReaderState}
    {a b : List UInt8} {g : σ} {st' : ReaderState} {g' : σ}
    (hwhole : r.parse h st size (a ++ b) g = ⟨.complete, st', [], g', false⟩) :
    (b = [] ∧ r.parse h st size a g = ⟨.complete, st', [], g', false⟩) ∨
      ∃ st₁ g₁, r.parse h st size a g = ⟨.incomplete, st₁, [], g₁, false⟩ ∧
        r.parse h st₁ size b g₁ = ⟨.complete, st', [], g', false⟩ := by
  have hs := parse_splits hr.fluid size
  have hlive : (r.parse h st size (a ++ b) g).Live := by
    rw [hwhole]
    exact .inl rfl
  have hfirst := (parse_resumes hr size).first hlive
  rcases hx : r.parse h st size a g with ⟨rv, st₁, rest, g₁, d⟩
  have hd : d = false := by simpa [hx] using hs.direct st a g hfirst
  subst hd
  rw [hx] at hfirst
  rcases hfirst with rfl | rfl
  · have happ := (hs.complete b hx).symm.trans hwhole
    simp only [Res.mk.injEq, List.append_eq_nil_iff] at happ
    obtain ⟨-, rfl, ⟨rfl, rfl⟩, rfl, -⟩ := happ
    exact .inl ⟨rfl, rfl⟩
  · obtain ⟨rfl, hrun⟩ := hs.incomplete hx
    have hsecond := (parse_resumes hr size).second hx hlive
    exact .inr ⟨st₁, g₁, rfl, (hrun b hsecond).symm.trans hwhole⟩

/-- Where the calls on the bytes `a`, of which the last one wanted more, have led from `g₀`. -/
inductive Reader.Reached (h : Handler E σ ε) (r : Reader E) (size : ℕ) (g₀ : σ) :
    List UInt8 → ReaderState → σ → Prop
  | start : Reader.Reached h r size g₀ [] r.initState g₀
  | call {a st g} (hp : r.parse h r.initState size a g₀ = ⟨.incomplete, st, [], g, false⟩) :
    Reader.Reached h r size g₀ a st g

/-- One more call does what one call on all the bytes does. -/
theorem Reader.Reached.next {r : Reader E} (hr : r.Collecting h) {size : ℕ} {g₀ : σ}
    {a b : List UInt8} {st : ReaderState} {g : σ} (hx : r.Reached h size g₀ a st g)
    (hl : (r.parse h r.initState size (a ++ b) g₀).Live) :
    r.parse h st size b g = r.parse h r.initState size (a ++ b) g₀ := by
  cases hx with
  | start => rfl
  | call hp =>
    exact (((parse_splits hr.fluid size).incomplete hp).2 b
      ((parse_resumes hr size).second hp hl)).symm

/-! ### Beginnings and ends -/

/-- A handler that refuses nothing and throws nothing. -/
structure Obliging (h : Handler E σ ε) : Prop where
  ask : ∀ e g, (h.ask e g).2 = true
  finish : ∀ e g, (h.finish e g).2 = none

theorem Obliging.effects (ho : Obliging h) (g₀ : σ) (e : E) :
    SimAt (Handler.tally ε (effects h)) h (fun l g => Made g₀ g l) (fun _ => True) e where
  run hg := made_concat hg (h.apply (.void, e))
  ask hg _ := ⟨ho.ask e _, made_concat hg (h.apply (.size, e))⟩
  finish hg _ := ⟨ho.finish e _, made_concat hg (h.apply (.close, e))⟩
  throws _ _ := trivial

/-- What the scanner reads, the parser reads from its beginning, unless it is refused. -/
theorem Reader.parse_scan {r : Reader E} (hr : r.Blind h) (ho : Obliging h) {size : ℕ}
    {inp : List UInt8} {es : List (Note E)} {rest : List UInt8}
    (hscan : r.scan size inp = some (es, rest)) (g : σ) :
    ∃ st, r.parse h r.initState size inp g = ⟨.complete, st, rest, h.replay es g, false⟩ := by
  have htally := parse_scanned (effects_blind hr) size inp ([] : List (σ → σ))
  rw [hscan] at htally
  obtain ⟨st, htally⟩ := htally
  have hf := parse_follows (r.every_of_forall fun e => ho.effects g e) r.initState size inp
    (show Made g g [] from rfl)
  rw [htally] at hf
  rcases hf with ⟨e₁, e₂, -⟩ | ⟨e₁, -, -⟩ | hrej | ⟨⟨e, he⟩, -⟩
  · cases e₁
    obtain ⟨es', hscan', hreplay⟩ := parse_replay hr e₂
    rw [hscan] at hscan'
    cases hscan'
    exact ⟨st, hreplay ▸ e₂⟩
  · cases e₁
  · cases hrej
  · cases he

/-- Stages that do not stop early stop where no stage follows. -/
theorem Ranked.runAll_ended {rank : Frame → ℕ} {stage : Frame → Option (Stage σ ε)}
    (hrank : Ranked rank stage) (hgo : ∀ s p, stage s = some p → ∀ u g s' u' g',
      p.next u g ≠ .accept s' u' g') {st : ReaderState} {inp : List UInt8} {g : σ}
    {st' : ReaderState} {rest : List UInt8} {g' : σ}
    (hr : runAll rank stage st inp g = ⟨.complete, st', rest, g', false⟩) :
    ∃ s u, st' = .node s u ∧ stage s = none := by
  induction hn : rank st.frame using Nat.strong_induction_on generalizing st inp g with
  | _ n ih =>
    cases hs : stage st.frame with
    | none =>
      rw [runAll_none hs] at hr
      cases hr
      exact ⟨_, _, rfl, hs⟩
    | some p =>
      rw [hrank.runAll_some hs] at hr
      rcases hx : p.parse st.u inp g with ⟨rv, u₁, rest₁, g₁, d⟩
      rw [hx] at hr
      dsimp only at hr
      cases rv with
      | complete =>
        dsimp only at hr
        cases hq : p.next u₁ g₁ with
        | go s' u' g' =>
          rw [hq] at hr
          exact ih (rank s') (hn ▸ hrank.lt _ p _ _ _ _ _ hs hq) hr rfl
        | accept s' u' g' => exact absurd hq (hgo _ p hs _ _ _ _ _)
        | refuse s' u' g' =>
          rw [hq] at hr
          cases hr
      | incomplete => cases hr
      | reject => cases hr
      | throw e => cases hr

theorem tableStage_goes {cb : Callbacks E} {fields : List (Part σ ε)} (hne : fields ≠ []) (size : ℕ)
    {s : Frame} {p : Stage σ ε} (hs : tableStage h cb fields size s = some p) (u : ReaderState)
    (g : σ) (s' : Frame) (u' : ReaderState) (g' : σ) : p.next u g ≠ .accept s' u' g' := by
  unfold tableStage at hs
  split at hs
  · cases hs
    dsimp only
    split <;> simp
  · cases hs
    dsimp only
    split
    · exact absurd rfl hne
    · split <;> simp
  · split at hs
    · cases hs
    · cases hs
      dsimp only
      split <;> simp
  · cases hs

/-- A table that is complete takes nothing more. -/
theorem Reader.table_ended {cb : Callbacks E} (hchunk : cb.chunk = none) (hfinish : cb.finish = none)
    {last : ℕ} {fields : Fin (last + 1) → Reader E} {size : ℕ} {st : ReaderState} {inp : List UInt8}
    {g : σ} {st' : ReaderState} {rest : List UInt8} {g' : σ}
    (hp : (table cb last fields).parse h st size inp g = ⟨.complete, st', rest, g', false⟩)
    (inp' : List UInt8) (g'' : σ) :
    (table cb last fields).parse h st' size inp' g'' = ⟨.complete, st', inp', g'', false⟩ := by
  have hrank := tableStage_ranked (h := h) cb size (List.ofFn fun i => (fields i).part h)
  rw [List.length_ofFn] at hrank
  have hne : (List.ofFn fun i => (fields i).part h) ≠ [] := by simp
  rw [parse_table, parseStages] at hp ⊢
  obtain ⟨g₀, hcore, -⟩ := leave_eq_complete hp
  obtain ⟨s, u, rfl, hs⟩ := hrank.runAll_ended (fun _ _ h => tableStage_goes hne size h) hcore
  rw [runAll_none hs]
  simp [leave, hchunk, hfinish, Res.closed]

end NervosLedger.Molecule
