import NervosLedger.Molecule.Reader
import Mathlib.Data.List.Forall2

/-!
# Simulation of one set of callbacks by another

Two handlers run under the same reader. If each event of the reader takes related states to
related states, a call of the parser does: as long as the first run neither rejects nor
throws, the second one reads the same bytes and stops in the same place.
-/
namespace NervosLedger.Molecule

/-- Every event a callback table can make satisfies `P`. -/
structure Callbacks.Every {E : Type} (P : E → Prop) (cb : Callbacks E) : Prop where
  start : ∀ e ∈ cb.start, P e
  chunk : ∀ f ∈ cb.chunk, ∀ bs, P (f bs)
  finish : ∀ e ∈ cb.finish, P e
  offsets : ∀ f ∈ cb.offsets, ∀ n os, P (f n os)
  size : ∀ f ∈ cb.size, ∀ n, P (f n)
  length : ∀ f ∈ cb.length, ∀ n, P (f n)
  index : ∀ f ∈ cb.index, ∀ n, P (f n)
  bodyChunk : ∀ f ∈ cb.bodyChunk, ∀ bs following, P (f bs following)

/-- Every event a reader can make satisfies `P`. -/
def Reader.Every {E : Type} (P : E → Prop) : Reader E → Prop
  | .byte done => ∀ f ∈ done, ∀ b, P (f b)
  | .array _ done => ∀ f ∈ done, ∀ b, P (f b)
  | .bytes cb => cb.Every P
  | .option cb item | .fixVec cb _ item | .dynVec cb item => cb.Every P ∧ item.Every P
  | .struct cb _ _ fst snd => cb.Every P ∧ fst.Every P ∧ snd.Every P
  | .table cb _ fields => cb.Every P ∧ ∀ i, (fields i).Every P

theorem Callbacks.every_mk {E : Type} {P : E → Prop} {start chunk finish offsets size length index}
    {bodyChunk : Option (List UInt8 → List UInt8 → E)} :
    (Callbacks.mk start chunk finish offsets size length index bodyChunk).Every P ↔
      (∀ e ∈ start, P e) ∧ (∀ f ∈ chunk, ∀ bs, P (f bs)) ∧ (∀ e ∈ finish, P e) ∧
      (∀ f ∈ offsets, ∀ n os, P (f n os)) ∧ (∀ f ∈ size, ∀ n, P (f n)) ∧
      (∀ f ∈ length, ∀ n, P (f n)) ∧ (∀ f ∈ index, ∀ n, P (f n)) ∧
      ∀ f ∈ bodyChunk, ∀ bs following, P (f bs following) :=
  ⟨fun ⟨a, b, c, d, e, f, g, h⟩ => ⟨a, b, c, d, e, f, g, h⟩,
    fun ⟨a, b, c, d, e, f, g, h⟩ => ⟨a, b, c, d, e, f, g, h⟩⟩

/-- What holds of all events a reader makes holds if it is weakened. -/
theorem Callbacks.Every.mono {E : Type} {P Q : E → Prop} {cb : Callbacks E} (h : cb.Every P)
    (hPQ : ∀ e, P e → Q e) : cb.Every Q where
  start e he := hPQ _ (h.start e he)
  chunk f hf bs := hPQ _ (h.chunk f hf bs)
  finish e he := hPQ _ (h.finish e he)
  offsets f hf n os := hPQ _ (h.offsets f hf n os)
  size f hf n := hPQ _ (h.size f hf n)
  length f hf n := hPQ _ (h.length f hf n)
  index f hf n := hPQ _ (h.index f hf n)
  bodyChunk f hf bs following := hPQ _ (h.bodyChunk f hf bs following)

theorem Reader.Every.mono {E : Type} {P Q : E → Prop} {r : Reader E} (h : r.Every P)
    (hPQ : ∀ e, P e → Q e) : r.Every Q := by
  induction r with
  | byte done => exact fun f hf b => hPQ _ (h f hf b)
  | array width done => exact fun f hf b => hPQ _ (h f hf b)
  | bytes cb => exact Callbacks.Every.mono h hPQ
  | option cb item ih => exact ⟨h.1.mono hPQ, ih h.2⟩
  | fixVec cb width item ih => exact ⟨h.1.mono hPQ, ih h.2⟩
  | dynVec cb item ih => exact ⟨h.1.mono hPQ, ih h.2⟩
  | struct cb w₁ w₂ fst snd ih₁ ih₂ => exact ⟨h.1.mono hPQ, ih₁ h.2.1, ih₂ h.2.2⟩
  | table cb last fields ih => exact ⟨h.1.mono hPQ, fun i => ih i (h.2 i)⟩

theorem Callbacks.every_of_forall {E : Type} {P : E → Prop} (h : ∀ e, P e) (cb : Callbacks E) :
    cb.Every P where
  start _ _ := h _
  chunk _ _ _ := h _
  finish _ _ := h _
  offsets _ _ _ _ := h _
  size _ _ _ := h _
  length _ _ _ := h _
  index _ _ _ := h _
  bodyChunk _ _ _ _ := h _

theorem Reader.every_of_forall {E : Type} {P : E → Prop} (h : ∀ e, P e) (r : Reader E) :
    r.Every P := by
  induction r with
  | byte done => exact fun _ _ _ => h _
  | array width done => exact fun _ _ _ => h _
  | bytes cb => exact cb.every_of_forall h
  | option cb item ih => exact ⟨cb.every_of_forall h, ih⟩
  | fixVec cb width item ih => exact ⟨cb.every_of_forall h, ih⟩
  | dynVec cb item ih => exact ⟨cb.every_of_forall h, ih⟩
  | struct cb w₁ w₂ fst snd ih₁ ih₂ => exact ⟨cb.every_of_forall h, ih₁, ih₂⟩
  | table cb last fields ih => exact ⟨cb.every_of_forall h, ih⟩

section Follows
variable {E σ₁ σ₂ ε₁ ε₂ : Type} {h₁ : Handler E σ₁ ε₁} {h₂ : Handler E σ₂ ε₂}
  {R : σ₁ → σ₂ → Prop} {T : σ₁ → Prop}

/-- What event `e` does under `h₁`, it does up to `R` under `h₂`, unless it ends the call; if it
does so with a throw, it leaves a state with `T`. -/
structure SimAt (h₁ : Handler E σ₁ ε₁) (h₂ : Handler E σ₂ ε₂) (R : σ₁ → σ₂ → Prop)
    (T : σ₁ → Prop) (e : E) : Prop where
  run : ∀ {g₁ g₂}, R g₁ g₂ → R (h₁.run e g₁) (h₂.run e g₂)
  ask : ∀ {g₁ g₂}, R g₁ g₂ → (h₁.ask e g₁).2 = true →
    (h₂.ask e g₂).2 = true ∧ R (h₁.ask e g₁).1 (h₂.ask e g₂).1
  finish : ∀ {g₁ g₂}, R g₁ g₂ → (h₁.finish e g₁).2 = none →
    (h₂.finish e g₂).2 = none ∧ R (h₁.finish e g₁).1 (h₂.finish e g₂).1
  throws : ∀ {g₁ g₂}, R g₁ g₂ → (h₁.finish e g₁).2 ≠ none → T (h₁.finish e g₁).1

/-- The second outcome is that of the first, unless the first is a rejection or a throw. -/
inductive Res.Follows (R : σ₁ → σ₂ → Prop) (T : σ₁ → Prop) (r₁ : Res σ₁ ε₁) (r₂ : Res σ₂ ε₂) :
    Prop
  | complete {st rest g₁ g₂} (e₁ : r₁ = ⟨.complete, st, rest, g₁, false⟩)
      (e₂ : r₂ = ⟨.complete, st, rest, g₂, false⟩) (h : R g₁ g₂)
  | incomplete {st rest g₁ g₂} (e₁ : r₁ = ⟨.incomplete, st, rest, g₁, false⟩)
      (e₂ : r₂ = ⟨.incomplete, st, rest, g₂, false⟩) (h : R g₁ g₂)
  | reject (h : r₁.rv = .reject)
  | throw (h : ∃ e, r₁.rv = .throw e) (hT : T r₁.g)

inductive Next.Follows (R : σ₁ → σ₂ → Prop) (n₁ : Next σ₁) (n₂ : Next σ₂) : Prop
  | go {s u g₁ g₂} (e₁ : n₁ = .go s u g₁) (e₂ : n₂ = .go s u g₂) (h : R g₁ g₂)
  | accept {s u g₁ g₂} (e₁ : n₁ = .accept s u g₁) (e₂ : n₂ = .accept s u g₂) (h : R g₁ g₂)
  | refuse {s u g₁} (e₁ : n₁ = .refuse s u g₁)

structure Stage.Follows (R : σ₁ → σ₂ → Prop) (T : σ₁ → Prop) (p₁ : Stage σ₁ ε₁)
    (p₂ : Stage σ₂ ε₂) : Prop where
  parse : ∀ u inp {g₁ g₂}, R g₁ g₂ → (p₁.parse u inp g₁).Follows R T (p₂.parse u inp g₂)
  next : ∀ u {g₁ g₂}, R g₁ g₂ → (p₁.next u g₁).Follows R (p₂.next u g₂)

structure Part.Follows (R : σ₁ → σ₂ → Prop) (T : σ₁ → Prop) (p₁ : Part σ₁ ε₁)
    (p₂ : Part σ₂ ε₂) : Prop where
  initState : p₁.initState = p₂.initState
  start : ∀ {g₁ g₂}, R g₁ g₂ → R (p₁.start g₁) (p₂.start g₂)
  parse : ∀ st size inp {g₁ g₂}, R g₁ g₂ →
    (p₁.parse st size inp g₁).Follows R T (p₂.parse st size inp g₂)

theorem fire_follows {o : Option E} (ho : ∀ e ∈ o, SimAt h₁ h₂ R T e) {g₁ : σ₁} {g₂ : σ₂}
    (hg : R g₁ g₂) : R (h₁.fire o g₁) (h₂.fire o g₂) := by
  cases o with
  | none => exact hg
  | some e => exact (ho e rfl).run hg

theorem fire_map_follows {α : Type} {o : Option (α → E)} (ho : ∀ f ∈ o, ∀ a, SimAt h₁ h₂ R T (f a))
    (a : α) {g₁ : σ₁} {g₂ : σ₂} (hg : R g₁ g₂) :
    R (h₁.fire (o.map fun f => f a) g₁) (h₂.fire (o.map fun f => f a) g₂) := by
  cases o with
  | none => exact hg
  | some f => exact (ho f rfl a).run hg

/-- A refusal on the left is the only way in which two `size` callbacks part. -/
theorem allow_follows {o : Option (ℕ → E)} (ho : ∀ f ∈ o, ∀ n, SimAt h₁ h₂ R T (f n)) (n : ℕ)
    {g₁ : σ₁} {g₂ : σ₂} (hg : R g₁ g₂) :
    (∃ a₁, h₁.allow (o.map fun f => f n) g₁ = (a₁, false)) ∨
      ∃ a₁ a₂, h₁.allow (o.map fun f => f n) g₁ = (a₁, true) ∧
        h₂.allow (o.map fun f => f n) g₂ = (a₂, true) ∧ R a₁ a₂ := by
  cases o with
  | none => exact .inr ⟨g₁, g₂, rfl, rfl, hg⟩
  | some f =>
    simp only [Option.map_some, Handler.allow_some]
    have ha := (ho f rfl n).ask hg
    generalize h₁.ask (f n) g₁ = x₁ at ha ⊢
    generalize h₂.ask (f n) g₂ = x₂ at ha ⊢
    obtain ⟨a₁, b₁⟩ := x₁
    obtain ⟨a₂, b₂⟩ := x₂
    cases b₁ with
    | false => exact .inl ⟨a₁, rfl⟩
    | true =>
      obtain ⟨rfl, hR⟩ := ha rfl
      exact .inr ⟨a₁, a₂, rfl, rfl, hR⟩

theorem Next.allowed_follows {o : Option (ℕ → E)} (ho : ∀ f ∈ o, ∀ n, SimAt h₁ h₂ R T (f n)) (n : ℕ)
    {g₁ : σ₁} {g₂ : σ₂} (hg : R g₁ g₂) (s : Frame) (u : ReaderState)
    {next₁ : σ₁ → Next σ₁} {next₂ : σ₂ → Next σ₂}
    (hnext : ∀ {g₁ g₂}, R g₁ g₂ → (next₁ g₁).Follows R (next₂ g₂)) :
    (Next.allowed s u next₁ (h₁.allow (o.map fun f => f n) g₁)).Follows R
      (Next.allowed s u next₂ (h₂.allow (o.map fun f => f n) g₂)) := by
  rcases allow_follows ho n hg with ⟨a₁, e₁⟩ | ⟨a₁, a₂, e₁, e₂, hR⟩
  · rw [e₁]
    exact .refuse rfl
  · rw [e₁, e₂]
    exact hnext hR

theorem molParseBytes_follows {width : ℕ} {done : Option (FixedBytes width → E)}
    (hd : ∀ f ∈ done, ∀ b, SimAt h₁ h₂ R T (f b)) (st : ReaderState) (size : ℕ) (inp : List UInt8)
    {g₁ : σ₁} {g₂ : σ₂} (hg : R g₁ g₂) :
    (molParseBytes h₁ width done st size inp g₁).Follows R T
      (molParseBytes h₂ width done st size inp g₂) := by
  by_cases h : width - st.buf.length ≤ inp.length
  · simp only [molParseBytes, h, if_true]
    exact .complete rfl rfl (fire_map_follows hd _ hg)
  · simp only [molParseBytes, h, if_false]
    exact .incomplete rfl rfl hg

theorem molParseNum_follows (st : ReaderState) (inp : List UInt8) {g₁ : σ₁} {g₂ : σ₂}
    (hg : R g₁ g₂) : (molParseNum h₁ st inp g₁).Follows R T (molParseNum h₂ st inp g₂) :=
  molParseBytes_follows (by simp) st 4 inp hg

theorem parseByte_follows {done : Option (UInt8 → E)} (hd : ∀ f ∈ done, ∀ b, SimAt h₁ h₂ R T (f b))
    (st : ReaderState) (size : ℕ) (inp : List UInt8) {g₁ : σ₁} {g₂ : σ₂} (hg : R g₁ g₂) :
    (parseByte h₁ done st size inp g₁).Follows R T (parseByte h₂ done st size inp g₂) := by
  by_cases h : size = 1
  · cases inp with
    | nil => simpa [parseByte, h] using .incomplete rfl rfl hg
    | cons b rest => simpa [parseByte, h] using .complete rfl rfl (fire_map_follows hd b hg)
  · exact .reject (by simp [parseByte, h])

theorem runStages_follows {stage₁ : Frame → Option (Stage σ₁ ε₁)}
    {stage₂ : Frame → Option (Stage σ₂ ε₂)}
    (hs : ∀ s, Option.Rel (Stage.Follows R T) (stage₁ s) (stage₂ s)) (fuel : ℕ) (s : Frame)
    (u : ReaderState) (inp : List UInt8) {g₁ : σ₁} {g₂ : σ₂} (hg : R g₁ g₂) :
    (runStages stage₁ fuel s u inp g₁).Follows R T (runStages stage₂ fuel s u inp g₂) := by
  induction fuel generalizing s u inp g₁ g₂ with
  | zero => exact .complete rfl rfl hg
  | succ fuel ih =>
    unfold runStages
    have hstage := hs s
    generalize stage₁ s = o₁ at hstage ⊢
    generalize stage₂ s = o₂ at hstage ⊢
    cases hstage with
    | none => exact .complete rfl rfl hg
    | @some p₁ p₂ hp =>
      rcases hp.parse u inp hg with ⟨e₁, e₂, hg'⟩ | ⟨e₁, e₂, hg'⟩ | hr | ⟨⟨e, he⟩, hT⟩
      · rename_i st rest g₁' g₂'
        simp only [e₁, e₂]
        rcases hp.next st hg' with ⟨n₁, n₂, hn⟩ | ⟨n₁, n₂, hn⟩ | n₁
        · simp only [n₁, n₂]
          exact ih _ _ _ hn
        · simp only [n₁, n₂]
          exact .complete rfl rfl hn
        · simp only [n₁]
          exact .reject rfl
      · simp only [e₁, e₂]
        exact .incomplete rfl rfl hg'
      · exact .reject (by simp [hr])
      · simp only [he]
        exact .throw ⟨e, rfl⟩ hT

theorem close_follows {o : Option E} (ho : ∀ e ∈ o, SimAt h₁ h₂ R T e) {g₁ : σ₁} {g₂ : σ₂}
    (hg : R g₁ g₂) (st : ReaderState) (rest : List UInt8) (g₁' : σ₁) (g₂' : σ₂) :
    (Res.closed ⟨.complete, st, rest, g₁', false⟩ (h₁.close o g₁)).Follows R T
      (Res.closed ⟨.complete, st, rest, g₂', false⟩ (h₂.close o g₂)) := by
  cases o with
  | none => exact .complete rfl rfl hg
  | some e =>
    simp only [Handler.close_some]
    have ha := (ho e rfl).finish hg
    have hT := (ho e rfl).throws hg
    generalize h₁.finish e g₁ = x₁ at ha hT ⊢
    generalize h₂.finish e g₂ = x₂ at ha ⊢
    obtain ⟨a, b⟩ := x₁
    obtain ⟨a', b'⟩ := x₂
    cases b with
    | some x => exact .throw ⟨x, rfl⟩ (hT nofun)
    | none =>
      obtain ⟨rfl, hR⟩ := ha rfl
      exact .complete rfl rfl hR

theorem leave_follows {cb : Callbacks E} (hcb : cb.Every (SimAt h₁ h₂ R T)) (inp : List UInt8)
    {r₁ : Res σ₁ ε₁} {r₂ : Res σ₂ ε₂} (hr : r₁.Follows R T r₂) :
    (leave h₁ cb inp r₁).Follows R T (leave h₂ cb inp r₂) := by
  rcases hr with ⟨rfl, rfl, hg⟩ | ⟨rfl, rfl, hg⟩ | hr | ⟨⟨e, he⟩, hT⟩
  · exact close_follows hcb.finish (fire_map_follows hcb.chunk _ hg) _ _ _ _
  · exact .incomplete rfl rfl (fire_map_follows hcb.chunk _ hg)
  · refine .reject ?_
    simp only [leave, hr]
    split <;> rfl
  · simp only [leave, he]
    exact .throw ⟨e, he⟩ hT

section Stages
variable {cb : Callbacks E} {p₁ : Part σ₁ ε₁} {p₂ : Part σ₂ ε₂}

theorem optionStage_follows (hp : p₁.Follows R T p₂) (size : ℕ) (s : Frame) :
    Option.Rel (Stage.Follows R T) (optionStage p₁ size s) (optionStage p₂ size s) := by
  unfold optionStage
  split
  · exact .none
  · exact .some ⟨fun u inp _ _ hg => hp.parse u size inp hg, fun u _ _ hg => .accept rfl rfl hg⟩

theorem fixVecStage_follows (hcb : cb.Every (SimAt h₁ h₂ R T)) (hp : p₁.Follows R T p₂)
    (width size : ℕ) (s : Frame) :
    Option.Rel (Stage.Follows R T) (fixVecStage h₁ cb width p₁ size s)
      (fixVecStage h₂ cb width p₂ size s) := by
  unfold fixVecStage
  rw [hp.initState]
  split
  · refine .some ⟨fun u inp _ _ hg => molParseNum_follows u inp hg, fun u g₁ g₂ hg => ?_⟩
    dsimp only
    split
    · exact .refuse rfl
    · exact Next.allowed_follows hcb.size _ hg _ _
        fun hg => .go rfl rfl (fire_map_follows hcb.index 0 (hp.start hg))
  · split
    · exact .some ⟨fun u inp _ _ hg => hp.parse u width inp hg,
        fun u _ _ hg => .go rfl rfl (fire_map_follows hcb.index _ (hp.start hg))⟩
    · exact .none

theorem dynVecItems_follows (hcb : cb.Every (SimAt h₁ h₂ R T)) (hp : p₁.Follows R T p₂) (s : Frame)
    {g₁ : σ₁} {g₂ : σ₂} (hg : R g₁ g₂) :
    (dynVecItems h₁ cb p₁ s g₁).Follows R (dynVecItems h₂ cb p₂ s g₂) := by
  unfold dynVecItems
  rw [hp.initState]
  exact .go rfl rfl (fire_map_follows hcb.index 0 (fire_map_follows hcb.length _ (hp.start hg)))

theorem dynVecStage_follows (hcb : cb.Every (SimAt h₁ h₂ R T)) (hp : p₁.Follows R T p₂)
    (size : ℕ) (s : Frame) :
    Option.Rel (Stage.Follows R T) (dynVecStage h₁ cb p₁ size s) (dynVecStage h₂ cb p₂ size s) := by
  unfold dynVecStage
  split
  · refine .some ⟨fun u inp _ _ hg => molParseNum_follows u inp hg, fun u g₁ g₂ hg => ?_⟩
    refine Next.allowed_follows hcb.size _ hg _ _ fun hg => ?_
    split
    · exact .accept rfl rfl hg
    · split
      · exact .refuse rfl
      · exact .go rfl rfl hg
  · refine .some ⟨fun u inp _ _ hg => molParseNum_follows u inp hg, fun u g₁ g₂ hg => ?_⟩
    dsimp only
    split
    · exact .go rfl rfl hg
    · exact dynVecItems_follows hcb hp _ hg
  · refine .some ⟨fun u inp _ _ hg => molParseNum_follows u inp hg, fun u g₁ g₂ hg => ?_⟩
    dsimp only
    split
    · exact .go rfl rfl hg
    · exact dynVecItems_follows hcb hp _ hg
  · rw [hp.initState]
    split
    · exact .some ⟨fun u inp _ _ hg => hp.parse u _ inp hg,
        fun u _ _ hg => .go rfl rfl (fire_map_follows hcb.index _ (hp.start hg))⟩
    · exact .none

theorem structStage_follows {q₁ : Part σ₁ ε₁} {q₂ : Part σ₂ ε₂} (hp : p₁.Follows R T p₂)
    (hq : q₁.Follows R T q₂) (w₁ w₂ : ℕ) (s : Frame) :
    Option.Rel (Stage.Follows R T) (structStage w₁ w₂ p₁ q₁ s) (structStage w₁ w₂ p₂ q₂ s) := by
  unfold structStage
  rw [hq.initState]
  split
  · exact .some ⟨fun u inp _ _ hg => hp.parse u w₁ inp hg,
      fun u _ _ hg => .go rfl rfl (hq.start hg)⟩
  · exact .some ⟨fun u inp _ _ hg => hq.parse u w₂ inp hg, fun u _ _ hg => .accept rfl rfl hg⟩
  · exact .none

theorem tableStage_follows (hcb : cb.Every (SimAt h₁ h₂ R T)) {ps₁ : List (Part σ₁ ε₁)}
    {ps₂ : List (Part σ₂ ε₂)} (hp : List.Forall₂ (Part.Follows R T) ps₁ ps₂) (size : ℕ) (s : Frame) :
    Option.Rel (Stage.Follows R T) (tableStage h₁ cb ps₁ size s) (tableStage h₂ cb ps₂ size s) := by
  have hget : ∀ i : ℕ, Option.Rel (Part.Follows R T) ps₁[i]? ps₂[i]? := by
    intro i
    induction hp generalizing i with
    | nil => exact .none
    | cons h _ ih =>
      cases i with
      | zero => exact .some h
      | succ i => exact ih i
  unfold tableStage
  split
  · refine .some ⟨fun u inp _ _ hg => molParseNum_follows u inp hg, fun u g₁ g₂ hg => ?_⟩
    dsimp only
    split
    · exact .refuse rfl
    · exact .go rfl rfl hg
  · refine .some ⟨fun u inp _ _ hg => molParseNum_follows u inp hg, fun u g₁ g₂ hg => ?_⟩
    cases hp with
    | nil => exact .accept rfl rfl hg
    | cons h hrest =>
      dsimp only
      rw [hrest.length_eq, h.initState]
      split
      · exact .go rfl rfl hg
      · refine .go rfl rfl ?_
        cases ho : cb.offsets with
        | none => exact h.start hg
        | some f => exact (hcb.offsets f ho _ _).run (h.start hg)
  · have h₀ := hget s.fieldIdx
    have h₁ := hget (s.fieldIdx + 1)
    generalize ps₁[s.fieldIdx]? = a₁, ps₂[s.fieldIdx]? = a₂ at h₀ ⊢
    generalize ps₁[s.fieldIdx + 1]? = b₁, ps₂[s.fieldIdx + 1]? = b₂ at h₁ ⊢
    cases h₀ with
    | none => exact .none
    | some hp =>
      refine .some ⟨fun u inp _ _ hg => hp.parse u _ inp hg, fun u g₁ g₂ hg => ?_⟩
      cases h₁ with
      | none => exact .go rfl rfl hg
      | some hq =>
        dsimp only
        rw [hq.initState]
        exact .go rfl rfl (hq.start hg)
  · exact .none

end Stages

theorem parseStages_follows {cb : Callbacks E} (hcb : cb.Every (SimAt h₁ h₂ R T))
    {stage₁ : Frame → Option (Stage σ₁ ε₁)} {stage₂ : Frame → Option (Stage σ₂ ε₂)}
    (hs : ∀ s, Option.Rel (Stage.Follows R T) (stage₁ s) (stage₂ s)) (rank : Frame → ℕ)
    (st : ReaderState) (inp : List UInt8) {g₁ : σ₁} {g₂ : σ₂} (hg : R g₁ g₂) :
    (parseStages h₁ cb rank stage₁ st inp g₁).Follows R T
      (parseStages h₂ cb rank stage₂ st inp g₂) :=
  leave_follows hcb inp (runStages_follows hs _ _ _ _ hg)

theorem parseBody_follows {cb : Callbacks E} (hcb : cb.Every (SimAt h₁ h₂ R T)) (s : Frame)
    (u : ReaderState) (inp : List UInt8) {g₁ : σ₁} {g₂ : σ₂} (hg : R g₁ g₂) :
    (parseBody h₁ cb s u inp g₁).Follows R T (parseBody h₂ cb s u inp g₂) := by
  have hb : ∀ n, R (if n = 0 then g₁ else
      h₁.fire (cb.bodyChunk.map fun f => f (inp.take n) (inp.drop n)) g₁)
      (if n = 0 then g₂ else
        h₂.fire (cb.bodyChunk.map fun f => f (inp.take n) (inp.drop n)) g₂) := by
    intro n
    split
    · exact hg
    · cases ho : cb.bodyChunk with
      | none => exact hg
      | some f => exact (hcb.bodyChunk f ho _ _).run hg
  unfold parseBody
  dsimp only
  split
  · exact close_follows hcb.finish (hb _) _ _ _ _
  · exact .incomplete rfl rfl (hb _)

theorem parseBytes_follows {cb : Callbacks E} (hcb : cb.Every (SimAt h₁ h₂ R T))
    (st : ReaderState) (size : ℕ) (inp : List UInt8) {g₁ : σ₁} {g₂ : σ₂} (hg : R g₁ g₂) :
    (parseBytes h₁ cb st size inp g₁).Follows R T (parseBytes h₂ cb st size inp g₂) := by
  unfold parseBytes
  dsimp only
  split
  · have hnum : (molParseNum h₁ st.u inp g₁).Follows R T (molParseNum h₂ st.u inp g₂) :=
      molParseNum_follows st.u inp hg
    rcases hnum with
      ⟨e₁, e₂, hg'⟩ | ⟨e₁, e₂, hg'⟩ | hr | ⟨⟨e, he⟩, hT⟩
    · rename_i u rest g₁' g₂'
      simp only [e₁, e₂]
      split
      · exact .reject rfl
      · rcases allow_follows hcb.size (u.num + 4) hg' with ⟨a₁, e₁⟩ | ⟨a₁, a₂, e₁, e₂, hR⟩
        · simp only [e₁]
          exact .reject rfl
        · simp only [e₁, e₂]
          exact parseBody_follows hcb _ _ _ hR
    · simp only [e₁, e₂]
      exact .incomplete rfl rfl hg'
    · exact .reject (by simp [hr])
    · simp only [he]
      exact .throw ⟨e, rfl⟩ hT
  · exact parseBody_follows hcb _ _ inp hg

theorem Reader.start_follows {r : Reader E} (hr : r.Every (SimAt h₁ h₂ R T)) {g₁ : σ₁} {g₂ : σ₂}
    (hg : R g₁ g₂) : R (r.start h₁ g₁) (r.start h₂ g₂) := by
  induction r generalizing g₁ g₂ with
  | byte done => exact hg
  | array width done => exact hg
  | bytes cb => exact fire_follows hr.start hg
  | option cb item ih => exact ih hr.2 (fire_follows hr.1.start hg)
  | fixVec cb width item ih => exact fire_follows hr.1.start hg
  | dynVec cb item ih => exact fire_follows hr.1.start hg
  | struct cb w₁ w₂ fst snd ih₁ ih₂ => exact ih₁ hr.2.1 (fire_follows hr.1.start hg)
  | table cb last fields ih => exact fire_follows hr.1.start hg

/-- A call of the parser under `h₁` is followed by one under `h₂`. -/
theorem Reader.parse_follows {r : Reader E} (hr : r.Every (SimAt h₁ h₂ R T)) (st : ReaderState)
    (size : ℕ) (inp : List UInt8) {g₁ : σ₁} {g₂ : σ₂} (hg : R g₁ g₂) :
    (r.parse h₁ st size inp g₁).Follows R T (r.parse h₂ st size inp g₂) := by
  induction r generalizing st size inp g₁ g₂ with
  | byte done => exact parseByte_follows hr st size inp hg
  | array width done => exact molParseBytes_follows hr st size inp hg
  | bytes cb => exact parseBytes_follows hr st size inp hg
  | option cb item ih =>
    have hitem : (item.part h₁).Follows R T (item.part h₂) :=
      ⟨rfl, start_follows hr.2, fun st size inp _ _ => ih hr.2 st size inp⟩
    rw [parse_option, parse_option]
    exact parseStages_follows hr.1 (optionStage_follows hitem size) _ st inp hg
  | fixVec cb width item ih =>
    have hitem : (item.part h₁).Follows R T (item.part h₂) :=
      ⟨rfl, start_follows hr.2, fun st size inp _ _ => ih hr.2 st size inp⟩
    rw [parse_fixVec, parse_fixVec]
    exact parseStages_follows hr.1 (fixVecStage_follows hr.1 hitem width size) _ st inp hg
  | dynVec cb item ih =>
    have hitem : (item.part h₁).Follows R T (item.part h₂) :=
      ⟨rfl, start_follows hr.2, fun st size inp _ _ => ih hr.2 st size inp⟩
    rw [parse_dynVec, parse_dynVec]
    exact parseStages_follows hr.1 (dynVecStage_follows hr.1 hitem size) _ st inp hg
  | struct cb w₁ w₂ fst snd ih₁ ih₂ =>
    have hfst : (fst.part h₁).Follows R T (fst.part h₂) :=
      ⟨rfl, start_follows hr.2.1, fun st size inp _ _ => ih₁ hr.2.1 st size inp⟩
    have hsnd : (snd.part h₁).Follows R T (snd.part h₂) :=
      ⟨rfl, start_follows hr.2.2, fun st size inp _ _ => ih₂ hr.2.2 st size inp⟩
    by_cases hs : size = w₁ + w₂ ∨ size = molNumMax
    · rw [parse_struct _ _ _ _ _ _ _ _ hs, parse_struct _ _ _ _ _ _ _ _ hs]
      exact parseStages_follows hr.1 (structStage_follows hfst hsnd w₁ w₂) _ st inp hg
    · have hreject : (struct cb w₁ w₂ fst snd).parse h₁ st size inp g₁ =
          ⟨.reject, st, inp, g₁, false⟩ := if_pos (by omega)
      exact .reject (by rw [hreject])
  | table cb last fields ih =>
    have hfield : ∀ i, ((fields i).part h₁).Follows R T ((fields i).part h₂) := fun i =>
      ⟨rfl, start_follows (hr.2 i), fun st size inp _ _ => ih i (hr.2 i) st size inp⟩
    rw [parse_table, parse_table]
    refine parseStages_follows hr.1 (tableStage_follows hr.1 ?_ size) _ st inp hg
    rw [List.forall₂_iff_get]
    refine ⟨by simp only [List.length_ofFn], fun i hi _ => ?_⟩
    simp only [List.get_eq_getElem, List.getElem_ofFn]
    exact hfield _

end Follows
end NervosLedger.Molecule
