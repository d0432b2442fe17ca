import NervosLedger.Molecule.Simulation

/-!
# Cutting the input into chunks

A reader is called on whatever bytes have arrived. When its `chunk` callbacks only collect
bytes, and do so independently of what happens inside the part they cover, the cuts between
calls cannot be seen: the calls on `a` and then on `b` do what one call on `a ++ b` does.
-/
namespace NervosLedger.Molecule

section Splits
variable {E σ ε : Type}

/-- The call did not end the exchange. -/
def Res.Live (r : Res σ ε) : Prop := r.rv = .complete ∨ r.rv = .incomplete

/-- One call on `a ++ b` is a call on `a` and, if that wants more, one on `b`. -/
structure Splits (parse : ReaderState → List UInt8 → σ → Res σ ε) : Prop where
  le : ∀ st a g, (parse st a g).rest.length ≤ a.length
  complete : ∀ {st a g st' rest g'} (b), parse st a g = ⟨.complete, st', rest, g', false⟩ →
    parse st (a ++ b) g = ⟨.complete, st', rest ++ b, g', false⟩
  incomplete : ∀ {st a g st' rest g'}, parse st a g = ⟨.incomplete, st', rest, g', false⟩ →
    rest = [] ∧ ∀ b, (parse st' b g').Live → parse st (a ++ b) g = parse st' b g'
  direct : ∀ st a g, (parse st a g).Live → (parse st a g).direct = false

variable {h : Handler E σ ε}

theorem molParseBytes_splits (width : ℕ) (done : Option (FixedBytes width → E)) (size : ℕ) :
    Splits fun st inp g => molParseBytes h width done st size inp g where
  le st a g := by
    simp only [molParseBytes]
    split <;> simp
  complete {st a g st' rest g'} b hr := by
    rcases le_or_gt (width - st.buf.length) a.length with hn | hn
    · have hx : (a.take (width - st.buf.length)).length = width - st.buf.length := by simp [hn]
      have ha := molParseBytes_append h done hx size
        (a.drop (width - st.buf.length)) g
      rw [List.take_append_drop] at ha
      rw [ha] at hr
      cases hr
      rw [← molParseBytes_append h done hx size _ g, ← List.append_assoc, List.take_append_drop]
    · simp [molParseBytes_of_lt h hn] at hr
  incomplete {st a g st' rest g'} hr := by
    rcases le_or_gt (width - st.buf.length) a.length with hn | hn
    · simp [molParseBytes, hn] at hr
    · rw [molParseBytes_of_lt h hn] at hr
      cases hr
      refine ⟨rfl, fun b _ => ?_⟩
      rcases le_or_gt (width - (st.buf ++ a).length) b.length with hb | hb
      · obtain ⟨n, hn'⟩ : ∃ n, n = width - (st.buf ++ a).length := ⟨_, rfl⟩
        have hle : n ≤ b.length := hn' ▸ hb
        have hx : (b.take n).length = width - (ReaderState.leaf (st.buf ++ a)).buf.length := by
          rw [ReaderState.buf_leaf, List.length_take, ← hn', Nat.min_eq_left hle]
        have hax : (a ++ b.take n).length = width - st.buf.length := by
          rw [List.length_append] at hn' ⊢
          rw [List.length_take]
          omega
        have hb' := molParseBytes_append h done hx size (b.drop n) g
        have hab := molParseBytes_append h done hax size (b.drop n) g
        rw [List.append_assoc, List.take_append_drop] at hab
        rw [List.take_append_drop] at hb'
        simp only [hab, hb', ReaderState.buf_leaf, List.append_assoc]
      · have hab : (a ++ b).length < width - st.buf.length := by
          rw [List.length_append] at hb ⊢
          omega
        have hb' : b.length < width - (ReaderState.leaf (st.buf ++ a)).buf.length := hb
        simp only [molParseBytes_of_lt h hab, ReaderState.buf_leaf, List.append_assoc,
          molParseBytes_of_lt h hb']
  direct st a g _ := by
    simp only [molParseBytes]
    split <;> rfl

theorem molParseNum_splits : Splits (molParseNum h) := molParseBytes_splits 4 none 4

theorem molParseNum_cases (st : ReaderState) (inp : List UInt8) (g : σ) :
    (∃ u rest, molParseNum h st inp g = ⟨.complete, u, rest, g, false⟩) ∨
      ∃ u, molParseNum h st inp g = ⟨.incomplete, u, [], g, false⟩ := by
  rcases le_or_gt (4 - st.buf.length) inp.length with hn | hn
  · exact .inl ⟨_, _, by simp only [molParseNum, molParseBytes, if_pos hn]; rfl⟩
  · exact .inr ⟨_, molParseBytes_of_lt h hn 4 g⟩

theorem parseByte_splits (done : Option (UInt8 → E)) (size : ℕ) :
    Splits fun st inp g => parseByte h done st size inp g where
  le st a g := by
    unfold parseByte
    split
    · rfl
    · cases a <;> simp
  complete {st a g st' rest g'} b hr := by
    unfold parseByte at hr ⊢
    split at hr
    · cases hr
    · rename_i hs
      cases a with
      | nil => cases hr
      | cons x xs =>
        rw [if_neg hs]
        cases hr
        rfl
  incomplete {st a g st' rest g'} hr := by
    unfold parseByte at hr
    split at hr
    · cases hr
    · cases a with
      | nil => cases hr; exact ⟨rfl, fun b _ => rfl⟩
      | cons x xs => cases hr
  direct st a g hl := by
    unfold parseByte at hl ⊢
    split
    · rename_i hs
      simp [hs, Res.Live] at hl
    · cases a <;> rfl

/-- The rank counts the stages that are still to come. -/
structure Ranked (rank : Frame → ℕ) (stage : Frame → Option (Stage σ ε)) : Prop where
  pos : ∀ s p, stage s = some p → 0 < rank s
  lt : ∀ s p u g s' u' g', stage s = some p → p.next u g = .go s' u' g' → rank s' < rank s

section Run
variable {rank : Frame → ℕ} {stage : Frame → Option (Stage σ ε)}

theorem Ranked.runStages_eq (hrank : Ranked rank stage) {fuel : ℕ} {s : Frame}
    (hf : rank s ≤ fuel) (u : ReaderState) (inp : List UInt8) (g : σ) :
    runStages stage fuel s u inp g = runStages stage (rank s) s u inp g := by
  induction fuel using Nat.strong_induction_on generalizing s u inp g with
  | _ fuel ih =>
    cases hs : stage s with
    | none =>
      have hnone : ∀ n, runStages stage n s u inp g = ⟨.complete, .node s u, inp, g, false⟩ := by
        intro n
        cases n with
        | zero => rfl
        | succ n => simp [runStages, hs]
      rw [hnone, hnone]
    | some p =>
      obtain ⟨n, hn⟩ : ∃ n, rank s = n + 1 := ⟨rank s - 1, by have := hrank.pos s p hs; omega⟩
      obtain ⟨m, rfl⟩ : ∃ m, fuel = m + 1 := ⟨fuel - 1, by omega⟩
      rw [hn, runStages, runStages]
      simp only [hs]
      cases (p.parse u inp g).rv with
      | complete =>
        dsimp only
        cases hx : p.next (p.parse u inp g).st (p.parse u inp g).g with
        | go s' u' g' =>
          have hlt := hrank.lt s p _ _ _ _ _ hs hx
          dsimp only
          rw [ih m (by omega) (by omega), ih n (by omega) (by omega)]
        | accept s' u' g' => rfl
        | refuse s' u' g' => rfl
      | incomplete => rfl
      | reject => rfl
      | throw e => rfl

theorem runAll_none {st : ReaderState} (hs : stage st.frame = none) (inp : List UInt8) (g : σ) :
    runAll rank stage st inp g = ⟨.complete, .node st.frame st.u, inp, g, false⟩ := by
  unfold runAll
  cases rank st.frame with
  | zero => rfl
  | succ n => simp [runStages, hs]

theorem Ranked.runAll_some (hrank : Ranked rank stage) {st : ReaderState} {p : Stage σ ε}
    (hs : stage st.frame = some p) (inp : List UInt8) (g : σ) :
    runAll rank stage st inp g =
      match (p.parse st.u inp g).rv with
      | .complete => match p.next (p.parse st.u inp g).st (p.parse st.u inp g).g with
        | .go s u g' => runAll rank stage (.node s u) (p.parse st.u inp g).rest g'
        | .accept s u g' => ⟨.complete, .node s u, (p.parse st.u inp g).rest, g', false⟩
        | .refuse s u g' => ⟨.reject, .node s u, (p.parse st.u inp g).rest, g', true⟩
      | rv => ⟨rv, .node st.frame (p.parse st.u inp g).st, (p.parse st.u inp g).rest,
          (p.parse st.u inp g).g, false⟩ := by
  obtain ⟨n, hn⟩ : ∃ n, rank st.frame = n + 1 :=
    ⟨rank st.frame - 1, by have := hrank.pos _ p hs; omega⟩
  rw [runAll, hn, runStages]
  simp only [hs]
  cases (p.parse st.u inp g).rv with
  | complete =>
    dsimp only
    cases hx : p.next (p.parse st.u inp g).st (p.parse st.u inp g).g with
    | go s' u' g' =>
      have hlt := hrank.lt _ p _ _ _ _ _ hs hx
      exact hrank.runStages_eq (by omega) _ _ _
    | accept s' u' g' => rfl
    | refuse s' u' g' => rfl
  | incomplete => rfl
  | reject => rfl
  | throw e => rfl

theorem runAll_le (hp : ∀ s p, stage s = some p → Splits p.parse) (fuel : ℕ) (s : Frame)
    (u : ReaderState) (inp : List UInt8) (g : σ) :
    (runStages stage fuel s u inp g).rest.length ≤ inp.length := by
  induction fuel generalizing s u inp g with
  | zero => exact le_rfl
  | succ fuel ih =>
    unfold runStages
    cases hs : stage s with
    | none => exact le_rfl
    | some p =>
      have hle := (hp s p hs).le u inp g
      dsimp only
      split
      · split
        · exact (ih _ _ _ _).trans hle
        · exact hle
        · exact hle
      · exact hle

theorem runAll_direct (fuel : ℕ) (s : Frame) (u : ReaderState) (inp : List UInt8) (g : σ)
    (hl : (runStages stage fuel s u inp g).Live) :
    (runStages stage fuel s u inp g).direct = false := by
  induction fuel generalizing s u inp g with
  | zero => rfl
  | succ fuel ih =>
    unfold runStages at hl ⊢
    cases hs : stage s with
    | none => rfl
    | some p =>
      simp only [hs] at hl ⊢
      split
      · rename_i hc
        simp only [hc] at hl
        split
        · rename_i hx
          simp only [hx] at hl
          exact ih _ _ _ _ hl
        · rfl
        · rename_i hx
          simp [hx, Res.Live] at hl
      · rfl

variable (hrank : Ranked rank stage) (hp : ∀ s p, stage s = some p → Splits p.parse)
include hrank hp

theorem Ranked.runAll_complete {st : ReaderState} {a : List UInt8} {g : σ} {st' : ReaderState}
    {rest : List UInt8} {g' : σ} (b : List UInt8)
    (hr : runAll rank stage st a g = ⟨.complete, st', rest, g', false⟩) :
    runAll rank stage st (a ++ b) g = ⟨.complete, st', rest ++ b, g', false⟩ := by
  induction hn : rank st.frame using Nat.strong_induction_on generalizing st a g with
  | _ n ih =>
    cases hs : stage st.frame with
    | none =>
      rw [runAll_none hs] at hr ⊢
      cases hr
      rfl
    | some p =>
      rw [hrank.runAll_some hs] at hr ⊢
      rcases hx : p.parse st.u a g with ⟨rv, u₁, rest₁, g₁, d⟩
      simp only [hx] at hr
      cases rv with
      | complete =>
        have hd : d = false := by simpa [hx, Res.Live] using (hp _ p hs).direct st.u a g
        subst hd
        simp only [(hp _ p hs).complete b hx]
        cases hq : p.next u₁ g₁ with
        | go s' u' g' =>
          simp only [hq] at hr ⊢
          have hlt := hrank.lt _ p _ _ _ _ _ hs hq
          exact ih (rank s') (hn ▸ hlt) hr rfl
        | accept s' u' g' =>
          simp only [hq] at hr ⊢
          cases hr
          rfl
        | refuse s' u' g' => simp [hq] at hr
      | incomplete => cases hr
      | reject => cases hr
      | throw e => cases hr

theorem Ranked.runAll_incomplete {st : ReaderState} {a : List UInt8} {g : σ} {st' : ReaderState}
    {rest : List UInt8} {g' : σ}
    (hr : runAll rank stage st a g = ⟨.incomplete, st', rest, g', false⟩) :
    rest = [] ∧ ∀ b, (runAll rank stage st' b g').Live →
      runAll rank stage st (a ++ b) g = runAll rank stage st' b g' := by
  induction hn : rank st.frame using Nat.strong_induction_on generalizing st a g with
  | _ n ih =>
    cases hs : stage st.frame with
    | none =>
      rw [runAll_none hs] at hr
      cases hr
    | some p =>
      rw [hrank.runAll_some hs] at hr
      rcases hx : p.parse st.u a g with ⟨rv, u₁, rest₁, g₁, d⟩
      simp only [hx] at hr
      have hd : rv = .complete ∨ rv = .incomplete → d = false := by
        intro hl
        simpa [hx, Res.Live, hl] using (hp _ p hs).direct st.u a g
      cases rv with
      | complete =>
        obtain rfl := hd (.inl rfl)
        cases hq : p.next u₁ g₁ with
        | go s' u' g' =>
          simp only [hq] at hr
          have hlt := hrank.lt _ p _ _ _ _ _ hs hq
          obtain ⟨hrest, hrun⟩ := ih (rank s') (hn ▸ hlt) hr rfl
          refine ⟨hrest, fun b hl => ?_⟩
          rw [hrank.runAll_some hs]
          simp only [(hp _ p hs).complete b hx, hq]
          exact hrun b hl
        | accept s' u' g' => simp [hq] at hr
        | refuse s' u' g' => simp [hq] at hr
      | incomplete =>
        obtain rfl := hd (.inr rfl)
        obtain ⟨hrest, hrun⟩ := (hp _ p hs).incomplete hx
        cases hr
        refine ⟨hrest, fun b hl => ?_⟩
        -- both runs are at the same stage, so they agree as soon as its part does
        have hs₁ : stage (ReaderState.node st.frame u₁).frame = some p := hs
        rw [hrank.runAll_some hs₁] at hl ⊢
        have hpart : (p.parse u₁ b g').Live := by
          rcases hy : p.parse u₁ b g' with ⟨rv, u₂, rest₂, g₂, d⟩
          simp only [ReaderState.u_node, hy] at hl
          cases rv with
          | complete => exact .inl rfl
          | incomplete => exact .inr rfl
          | reject => exact hl
          | throw e => simp [Res.Live] at hl
        rw [hrank.runAll_some hs]
        simp only [hrun b hpart, ReaderState.u_node, ReaderState.frame_node]
      | reject => cases hr
      | throw e => cases hr

theorem Ranked.splits : Splits (runAll rank stage) where
  le _ _ _ := runAll_le hp _ _ _ _ _
  complete b hr := hrank.runAll_complete hp b hr
  incomplete hr := hrank.runAll_incomplete hp hr
  direct _ _ _ := runAll_direct _ _ _ _ _

end Run

section Ranks
variable (cb : Callbacks E) (part fst snd : Part σ ε) (size : ℕ)

theorem optionStage_ranked : Ranked (fun _ => optionRank) (optionStage part size) where
  pos _ _ _ := Nat.one_pos
  lt s p u g s' u' g' hs hn := by
    unfold optionStage at hs
    split at hs
    · cases hs
    · cases hs
      cases hn

theorem fixVecStage_ranked (width : ℕ) :
    Ranked fixVecRank (fixVecStage h cb width part size) where
  pos s p _ := by
    unfold fixVecRank
    split <;> omega
  lt s p u g s' u' g' hs hn := by
    unfold fixVecStage at hs
    split at hs
    · rename_i h0
      cases hs
      dsimp only at hn
      split at hn
      · cases hn
      · rcases hx : h.allow (cb.size.map fun f => f (u.num * width + 4)) g with ⟨g₁, _ | _⟩
        · simp [hx, Next.allowed] at hn
        · simp only [hx, Next.allowed, Next.go.injEq] at hn
          obtain ⟨rfl, -, -⟩ := hn
          have := u.num_lt
          simp only [fixVecRank, h0]
          omega
    · rename_i k hk
      split at hs
      · rename_i hlt
        cases hs
        cases hn
        simp only [fixVecRank, hk]
        omega
      · cases hs

theorem Frame.items_lt (s : Frame) : s.items < 2 ^ 32 := Nat.mod_lt _ (by norm_num)

theorem dynVecItems_rank {s : Frame} {g : σ} {s' : Frame} {u' : ReaderState} {g' : σ}
    (hn : dynVecItems h cb part s g = .go s' u' g') : dynVecRank s' = s.items + 1 := by
  cases hn
  simp [dynVecRank, Frame.items]

theorem dynVecStage_ranked : Ranked dynVecRank (dynVecStage h cb part size) where
  pos s p _ := by
    unfold dynVecRank
    split <;> omega
  lt s p u g s' u' g' hs hn := by
    unfold dynVecStage at hs
    split at hs
    · rename_i h0
      cases hs
      dsimp only at hn
      rcases hx : h.allow (cb.size.map fun f => f u.num) g with ⟨g₁, _ | _⟩
      · simp [hx, Next.allowed] at hn
      · simp only [hx, Next.allowed] at hn
        split at hn
        · cases hn
        · split at hn
          · cases hn
          · cases hn
            simp [dynVecRank, h0]
    · rename_i h1
      cases hs
      dsimp only at hn
      have hitems := Frame.items_lt { s with offsets := [u.num], fieldIdx := 1, stateNum := 2 }
      split at hn
      · cases hn
        simp only [dynVecRank, h1]
        omega
      · rw [dynVecItems_rank cb part hn]
        simp only [dynVecRank, h1]
        omega
    · rename_i h2
      cases hs
      dsimp only at hn
      split at hn
      · rename_i hlt
        cases hn
        simp only [Frame.items] at hlt
        simp only [dynVecRank, h2, Frame.items]
        omega
      · rw [dynVecItems_rank cb part hn]
        simp only [dynVecRank, h2, Frame.items]
        omega
    · rename_i h0 h1 h2
      split at hs
      · rename_i hlt
        cases hs
        cases hn
        simp only [Frame.items] at hlt
        simp only [dynVecRank, Frame.items]
        omega
      · cases hs

theorem structStage_ranked (w₁ w₂ : ℕ) : Ranked structRank (structStage w₁ w₂ fst snd) where
  pos s p hs := by
    unfold structStage at hs
    unfold structRank
    split at hs
    · omega
    · omega
    · cases hs
  lt s p u g s' u' g' hs hn := by
    unfold structStage at hs
    split at hs
    · rename_i h0
      cases hs
      cases hn
      simp [structRank, h0]
    · cases hs
      cases hn
    · cases hs

theorem tableStage_ranked (fields : List (Part σ ε)) :
    Ranked (tableRank fields.length) (tableStage h cb fields size) where
  pos s p hs := by
    unfold tableStage at hs
    unfold tableRank
    split at hs
    · omega
    · omega
    · omega
    · cases hs
  lt s p u g s' u' g' hs hn := by
    unfold tableStage at hs
    split at hs
    · rename_i h0
      cases hs
      dsimp only at hn
      split at hn
      · cases hn
      · cases hn
        simp only [tableRank, h0]
        omega
    · rename_i h1
      cases hs
      dsimp only at hn
      split at hn
      · cases hn
      · split at hn
        · cases hn
          simp only [tableRank, h1, List.length_cons]
          omega
        · cases hn
          simp only [tableRank, h1, List.length_cons]
          omega
    · rename_i h2
      split at hs
      · cases hs
      · cases hs
        dsimp only at hn
        split at hn
        · cases hn
          simp [tableRank, h2]
        · rename_i hget
          have hlt := (List.getElem?_eq_some_iff.mp hget).1
          cases hn
          simp only [tableRank, h2]
          omega
    · cases hs

end Ranks

/-- The callbacks a parser makes between its entry and its `chunk` callback. -/
def Callbacks.inner (cb : Callbacks E) : Callbacks E :=
  { cb with start := none, chunk := none, finish := none }

section Leave
variable {cb : Callbacks E}

@[simp] theorem leave_rest (inp : List UInt8) (r : Res σ ε) : (leave h cb inp r).rest = r.rest := by
  unfold leave
  split
  · rfl
  · split <;> rfl
  · rfl
  · dsimp only [Res.closed]
    split <;> rfl

theorem leave_live {inp : List UInt8} {r : Res σ ε} (hl : (leave h cb inp r).Live) : r.Live := by
  rcases r with ⟨rv, st, rest, g, d⟩
  cases rv with
  | complete => exact .inl rfl
  | incomplete => exact .inr rfl
  | reject =>
    simp only [leave] at hl
    split at hl
    · exact hl
    · exact hl
  | throw e => exact hl

theorem leave_eq_complete {inp : List UInt8} {r : Res σ ε} {st : ReaderState} {rest : List UInt8}
    {g : σ} (hr : leave h cb inp r = ⟨.complete, st, rest, g, false⟩) :
    ∃ g₀, r = ⟨.complete, st, rest, g₀, false⟩ ∧
      h.close cb.finish (h.fire (cb.chunk.map fun c => c (inp.take (inp.length - rest.length))) g₀)
        = (g, none) := by
  rcases r with ⟨rv, st₀, rest₀, g₀, d⟩
  cases rv with
  | complete =>
    simp only [leave] at hr
    rcases hc : h.close cb.finish
      (h.fire (cb.chunk.map fun c => c (inp.take (inp.length - rest₀.length))) g₀) with ⟨g₁, _ | e⟩
    · rw [hc] at hr
      cases hr
      exact ⟨g₀, rfl, hc⟩
    · rw [hc] at hr
      cases hr
  | incomplete => cases hr
  | reject =>
    simp only [leave] at hr
    split at hr <;> cases hr
  | throw e => cases hr

theorem leave_eq_incomplete {inp : List UInt8} {r : Res σ ε} {st : ReaderState}
    {rest : List UInt8} {g : σ} (hr : leave h cb inp r = ⟨.incomplete, st, rest, g, false⟩) :
    ∃ g₀, r = ⟨.incomplete, st, rest, g₀, false⟩ ∧
      g = h.fire (cb.chunk.map fun c => c (inp.take (inp.length - rest.length))) g₀ := by
  rcases r with ⟨rv, st₀, rest₀, g₀, d⟩
  cases rv with
  | complete =>
    simp only [leave] at hr
    rcases hc : h.close cb.finish
      (h.fire (cb.chunk.map fun c => c (inp.take (inp.length - rest₀.length))) g₀) with ⟨g₁, _ | e⟩
    · rw [hc] at hr
      cases hr
    · rw [hc] at hr
      cases hr
  | incomplete =>
    cases hr
    exact ⟨g₀, rfl, rfl⟩
  | reject =>
    simp only [leave] at hr
    split at hr <;> cases hr
  | throw e => cases hr

/-- A `chunk` callback that collects: two calls in a row are one call. -/
def Collects (h : Handler E σ ε) (c : List UInt8 → E) : Prop :=
  ∀ a b g, h.run (c b) (h.run (c a) g) = h.run (c (a ++ b)) g

/-- The state once `chunk` callback `c` was given `bs`. -/
def After (h : Handler E σ ε) (c : List UInt8 → E) (bs : List UInt8) (g₁ g₂ : σ) : Prop :=
  g₁ = h.run (c bs) g₂

theorem leave_splits {core : ReaderState → List UInt8 → σ → Res σ ε} (hs : Splits core)
    (hadd : ∀ c ∈ cb.chunk, Collects h c)
    (hcomm : ∀ c ∈ cb.chunk, ∀ bs st inp g,
      (core st inp (h.run (c bs) g)).Follows (After h c bs) (fun _ => True) (core st inp g)) :
    Splits fun st inp g => leave h cb inp (core st inp g) where
  le st a g := by simpa using hs.le st a g
  complete {st a g st' rest g'} b hr := by
    obtain ⟨g₀, hcore, hclose⟩ := leave_eq_complete hr
    have hle : rest.length ≤ a.length := by simpa [hcore] using hs.le st a g
    have htake : (a ++ b).take ((a ++ b).length - (rest ++ b).length) =
        a.take (a.length - rest.length) := by
      have hlen : (a ++ b).length - (rest ++ b).length = a.length - rest.length := by
        simp only [List.length_append]
        omega
      rw [hlen, List.take_append_of_le_length (by omega)]
    simp only [hs.complete b hcore, leave, htake, hclose, Res.closed]
  incomplete {st a g st' rest g'} hr := by
    obtain ⟨g₀, hcore, rfl⟩ := leave_eq_incomplete hr
    obtain ⟨rfl, hrun⟩ := hs.incomplete hcore
    refine ⟨rfl, fun b hl => ?_⟩
    cases hc : cb.chunk with
    | none =>
      simp only [hc, Option.map_none, Handler.fire_none] at hl ⊢
      rw [hrun b (leave_live hl)]
      simp only [leave, hc, Option.map_none, Handler.fire_none]
    | some c =>
      simp only [hc, Option.map_some, Handler.fire_some, List.length_nil, Nat.sub_zero,
        List.take_length] at hl ⊢
      have hle := hs.le st' b g₀
      -- the bytes of the first call commute past the second call and join its own
      have hjoin : ∀ (rest : List UInt8) (g₂ : σ), rest.length ≤ b.length →
          h.fire (cb.chunk.map fun c => c (b.take (b.length - rest.length))) (h.run (c a) g₂) =
            h.fire (cb.chunk.map fun c =>
              c ((a ++ b).take ((a ++ b).length - rest.length))) g₂ := by
        intro rest g₂ hrest
        have hlen : (a ++ b).length - rest.length = a.length + (b.length - rest.length) := by
          simp only [List.length_append]
          omega
        simp only [hc, Option.map_some, Handler.fire_some, hlen, List.take_length_add_append]
        exact hadd c hc _ _ _
      rcases hcomm c hc a st' b g₀ with ⟨e₁, e₂, hg⟩ | ⟨e₁, e₂, hg⟩ | hj | ⟨⟨e, he⟩, -⟩
      · rw [e₂] at hle
        rw [hrun b (by rw [e₂]; exact .inl rfl), e₁, e₂, hg]
        simp only [leave, hjoin _ _ hle]
        rfl
      · rw [e₂] at hle
        rw [hrun b (by rw [e₂]; exact .inr rfl), e₁, e₂, hg]
        simp only [leave, hjoin _ _ hle]
      · exact absurd (leave_live hl) (by simp [Res.Live, hj])
      · exact absurd (leave_live hl) (by simp [Res.Live, he])
  direct st a g hl := by
    have hd := hs.direct st a g (leave_live hl)
    rcases hx : core st a g with ⟨rv, st', rest, g', d⟩
    rw [hx] at hd hl
    cases hd
    cases rv with
    | complete =>
      simp only [leave, Res.closed]
      split <;> rfl
    | incomplete => rfl
    | reject => rfl
    | throw e => rfl

end Leave

section Body
variable {cb : Callbacks E}

/-- A `body_chunk` callback that collects: it does not look past its piece, and two pieces in
a row are one piece. -/
def BodyCollects (h : Handler E σ ε) (f : List UInt8 → List UInt8 → E) : Prop :=
  ∀ a b x y z g, h.run (f b y) (h.run (f a x) g) = h.run (f (a ++ b) z) g

theorem BodyCollects.blind {f : List UInt8 → List UInt8 → E} (hf : BodyCollects h f)
    (a x y : List UInt8) (g : σ) : h.run (f a x) g = h.run (f a y) g := by
  have hx := hf [] a [] [] x
  have hy := hf [] a [] [] y
  rw [List.nil_append] at hx hy
  rw [← hx, ← hy]

variable (hbody : ∀ f ∈ cb.bodyChunk, BodyCollects h f)
include hbody

theorem fire_body_blind (a x y : List UInt8) (g : σ) :
    h.fire (cb.bodyChunk.map fun f => f a x) g = h.fire (cb.bodyChunk.map fun f => f a y) g := by
  cases hc : cb.bodyChunk with
  | none => rfl
  | some f => exact (hbody f hc).blind a x y g

theorem fire_body_append (a b x y z : List UInt8) (g : σ) :
    h.fire (cb.bodyChunk.map fun f => f b y) (h.fire (cb.bodyChunk.map fun f => f a x) g) =
      h.fire (cb.bodyChunk.map fun f => f (a ++ b) z) g := by
  cases hc : cb.bodyChunk with
  | none => rfl
  | some f => exact hbody f hc a b x y z g

omit hbody in
/-- A body call has all it needs, or takes all it is given. -/
theorem parseBody_cases (s : Frame) (inp : List UInt8) :
    s.totalSize + 1 - s.stateNum = 0 ∨ inp.length < s.totalSize + 1 - s.stateNum ∨
      ∃ x y, inp = x ++ y ∧ x.length = s.totalSize + 1 - s.stateNum ∧ x ≠ [] := by
  rcases Nat.eq_zero_or_pos (s.totalSize + 1 - s.stateNum) with h0 | hpos
  · exact .inl h0
  · rcases lt_or_ge inp.length (s.totalSize + 1 - s.stateNum) with hlt | hge
    · exact .inr (.inl hlt)
    · refine .inr (.inr ⟨_, _, (List.take_append_drop (s.totalSize + 1 - s.stateNum) inp).symm,
        ?_, ?_⟩)
      · simp [hge]
      · intro hnil
        have hlen := congrArg List.length hnil
        simp only [List.length_take, List.length_nil] at hlen
        omega

omit hbody in
theorem closed_eq_complete {st st' : ReaderState} {rest rest' : List UInt8} {g g' : σ}
    {x : σ × Option ε}
    (hr : Res.closed ⟨.complete, st, rest, g, false⟩ x = ⟨.complete, st', rest', g', false⟩) :
    st = st' ∧ rest = rest' ∧ x = (g', none) := by
  obtain ⟨g₁, _ | e⟩ := x
  · cases hr
    exact ⟨rfl, rfl, rfl⟩
  · cases hr

omit hbody in
theorem closed_ne_incomplete {st st' : ReaderState} {rest rest' : List UInt8} {g g' : σ}
    {x : σ × Option ε} :
    Res.closed ⟨.complete, st, rest, g, false⟩ x ≠ ⟨.incomplete, st', rest', g', false⟩ := by
  obtain ⟨g₁, _ | e⟩ := x <;> exact fun hr => nomatch hr

theorem parseBody_complete {s : Frame} {u : ReaderState} {a : List UInt8} {g : σ}
    {st' : ReaderState} {rest : List UInt8} {g' : σ} (b : List UInt8)
    (hr : parseBody h cb s u a g = ⟨.complete, st', rest, g', false⟩) :
    parseBody h cb s u (a ++ b) g = ⟨.complete, st', rest ++ b, g', false⟩ := by
  rcases parseBody_cases s a with h0 | hlt | ⟨x, y, rfl, hx, hne⟩
  · rw [parseBody_empty h h0] at hr ⊢
    obtain ⟨rfl, rfl, hc⟩ := closed_eq_complete hr
    rw [hc]
    rfl
  · rw [parseBody_of_lt h hlt] at hr
    cases hr
  · rw [parseBody_append h hx hne] at hr
    obtain ⟨rfl, rfl, hc⟩ := closed_eq_complete hr
    rw [List.append_assoc, parseBody_append h hx hne, fire_body_blind hbody x (y ++ b) y, hc]
    rfl

theorem parseBody_incomplete {s : Frame} {u : ReaderState} {a : List UInt8} {g : σ}
    {st' : ReaderState} {rest : List UInt8} {g' : σ}
    (hr : parseBody h cb s u a g = ⟨.incomplete, st', rest, g', false⟩) :
    rest = [] ∧ st'.frame.stateNum = s.stateNum + a.length ∧
      ∀ b, parseBody h cb s u (a ++ b) g = parseBody h cb st'.frame st'.u b g' := by
  rcases parseBody_cases s a with h0 | hlt | ⟨x, y, rfl, hx, hne⟩
  · rw [parseBody_empty h h0] at hr
    exact absurd hr closed_ne_incomplete
  · rw [parseBody_of_lt h hlt] at hr
    cases hr
    refine ⟨rfl, rfl, fun b => ?_⟩
    rcases parseBody_cases { s with stateNum := s.stateNum + a.length } b with
      h0 | hb | ⟨x, y, rfl, hx, hne⟩
    · dsimp only at h0
      omega
    · have hab : (a ++ b).length < s.totalSize + 1 - s.stateNum := by
        rw [List.length_append]
        dsimp only at hb
        omega
      rw [parseBody_of_lt h hab, ReaderState.frame_node, parseBody_of_lt h hb,
        fire_body_append hbody a b [] [] []]
      simp [Nat.add_assoc]
    · have hax : (a ++ x).length = s.totalSize + 1 - s.stateNum := by
        rw [List.length_append]
        dsimp only at hx
        omega
      rw [← List.append_assoc, parseBody_append h hax (by simp [hne]), ReaderState.frame_node,
        parseBody_append h hx hne, fire_body_append hbody a x [] y y]
      simp [Nat.add_assoc]
  · rw [parseBody_append h hx hne] at hr
    exact absurd hr closed_ne_incomplete

omit hbody in
theorem parseBody_le (s : Frame) (u : ReaderState) (inp : List UInt8) (g : σ) :
    (parseBody h cb s u inp g).rest.length ≤ inp.length := by
  have hclosed : ∀ (r : Res σ ε) x, (r.closed x).rest = r.rest := by
    rintro r ⟨g, _ | e⟩ <;> rfl
  rcases parseBody_cases s inp with h0 | hlt | ⟨x, y, rfl, hx, hne⟩
  · rw [parseBody_empty h h0, hclosed]
  · rw [parseBody_of_lt h hlt]
    simp
  · rw [parseBody_append h hx hne, hclosed]
    simp

omit hbody in
theorem parseBody_direct (s : Frame) (u : ReaderState) (inp : List UInt8) (g : σ) :
    (parseBody h cb s u inp g).direct = false := by
  have hclosed : ∀ (r : Res σ ε) x, (r.closed x).direct = r.direct := by
    rintro r ⟨g, _ | e⟩ <;> rfl
  rcases parseBody_cases s inp with h0 | hlt | ⟨x, y, rfl, hx, hne⟩
  · rw [parseBody_empty h h0, hclosed]
  · rw [parseBody_of_lt h hlt]
  · rw [parseBody_append h hx hne, hclosed]

theorem parseBytes_splits (size : ℕ) :
    Splits fun st inp g => parseBytes h cb st size inp g where
  le st a g := by
    unfold parseBytes
    dsimp only
    split
    · have hle := (molParseNum_splits (h := h)).le st.u a g
      split
      · split
        · exact hle
        · split
          · exact hle
          · exact (parseBody_le _ _ _ _).trans hle
      · exact hle
    · exact parseBody_le _ _ _ _
  complete {st a g st' rest g'} b hr := by
    unfold parseBytes at hr ⊢
    dsimp only at hr ⊢
    split at hr
    · rename_i hs
      rw [if_pos hs]
      rcases molParseNum_cases (h := h) st.u a g with ⟨u, rest₁, hx⟩ | ⟨u, hx⟩
      · simp only [hx, molParseNum_splits.complete b hx] at hr ⊢
        split at hr
        · cases hr
        · rename_i hsize
          rw [if_neg hsize]
          split at hr
          · cases hr
          · exact parseBody_complete hbody b hr
      · simp only [hx] at hr
        cases hr
    · rename_i hs
      rw [if_neg hs]
      exact parseBody_complete hbody b hr
  incomplete {st a g st' rest g'} hr := by
    have hbodyState : ∀ {s : Frame} {u : ReaderState} {a : List UInt8} {g : σ},
        parseBody h cb s u a g = ⟨.incomplete, st', rest, g', false⟩ → 0 < s.stateNum →
        rest = [] ∧ ∀ b, parseBody h cb s u (a ++ b) g = parseBytes h cb st' size b g' := by
      intro s u a g hb hpos
      obtain ⟨hrest, hnum, hrun⟩ := parseBody_incomplete hbody hb
      refine ⟨hrest, fun b => ?_⟩
      have hne : st'.frame.stateNum ≠ 0 := by omega
      rw [hrun b, parseBytes, if_neg hne]
    unfold parseBytes at hr
    dsimp only at hr
    split at hr
    · rename_i hs
      rcases molParseNum_cases (h := h) st.u a g with ⟨u, rest₁, hx⟩ | ⟨u, hx⟩
      · simp only [hx] at hr
        split at hr
        · cases hr
        · rename_i hsize
          split at hr
          · cases hr
          · rename_i g₁ hallow
            obtain ⟨hrest, hrun⟩ := hbodyState hr Nat.one_pos
            refine ⟨hrest, fun b _ => ?_⟩
            rw [← hrun b, parseBytes]
            simp only [if_pos hs, molParseNum_splits.complete b hx, if_neg hsize, hallow]
      · obtain ⟨-, hrun⟩ := molParseNum_splits.incomplete hx
        simp only [hx] at hr
        cases hr
        refine ⟨rfl, fun b _ => ?_⟩
        have hlive : (molParseNum h u b g).Live := by
          rcases molParseNum_cases (h := h) u b g with ⟨u', rest', hy⟩ | ⟨u', hy⟩
          · exact .inl (by rw [hy])
          · exact .inr (by rw [hy])
        simp only [parseBytes, hs, hrun b hlive, ReaderState.frame_node, ReaderState.u_node,
          if_true]
        rfl
    · rename_i hs
      obtain ⟨hrest, hrun⟩ := hbodyState hr (Nat.pos_of_ne_zero hs)
      refine ⟨hrest, fun b _ => ?_⟩
      rw [← hrun b, parseBytes, if_neg hs]
  direct st a g _ := by
    unfold parseBytes
    dsimp only
    split
    · rcases molParseNum_cases (h := h) st.u a g with ⟨u, rest₁, hx⟩ | ⟨u, hx⟩
      · simp only [hx]
        split
        · rfl
        · split
          · rfl
          · exact parseBody_direct _ _ _ _
      · simp only [hx]
    · exact parseBody_direct _ _ _ _

end Body

/-- The `chunk` callback of a reader collects, whatever happens inside it, and so do those of
its parts. -/
def ChunkFluid (h : Handler E σ ε) (cb : Callbacks E) (inner : (E → Prop) → Prop) : Prop :=
  ∀ c ∈ cb.chunk, Collects h c ∧ ∀ bs, cb.inner.Every (SimAt h h (After h c bs) fun _ => True) ∧
    inner (SimAt h h (After h c bs) fun _ => True)

/-- The callbacks of a reader do not show how its input was cut. -/
def Reader.Fluid (h : Handler E σ ε) : Reader E → Prop
  | .byte _ | .array _ _ => True
  | .bytes cb => ∀ f ∈ cb.bodyChunk, BodyCollects h f
  | .option cb item | .fixVec cb _ item | .dynVec cb item =>
    ChunkFluid h cb (fun P => item.Every P) ∧ item.Fluid h
  | .struct cb _ _ fst snd =>
    ChunkFluid h cb (fun P => fst.Every P ∧ snd.Every P) ∧ fst.Fluid h ∧ snd.Fluid h
  | .table cb _ fields =>
    ChunkFluid h cb (fun P => ∀ i, (fields i).Every P) ∧ ∀ i, (fields i).Fluid h

theorem parseStages_splits {cb : Callbacks E} {rank : Frame → ℕ}
    {stage : Frame → Option (Stage σ ε)} {inner : (E → Prop) → Prop} (hrank : Ranked rank stage)
    (hp : ∀ s p, stage s = some p → Splits p.parse) (hchunk : ChunkFluid h cb inner)
    (hstage : ∀ {R : σ → σ → Prop} {T : σ → Prop}, cb.inner.Every (SimAt h h R T) →
      inner (SimAt h h R T) → ∀ s, Option.Rel (Stage.Follows R T) (stage s) (stage s)) :
    Splits (parseStages h cb rank stage) :=
  leave_splits (hrank.splits hp) (fun c hc => (hchunk c hc).1) fun c hc bs _ _ _ =>
    runStages_follows (hstage ((hchunk c hc).2 bs).1 ((hchunk c hc).2 bs).2) _ _ _ _ rfl

theorem Reader.part_follows {R : σ → σ → Prop} {T : σ → Prop} {r : Reader E}
    (hr : r.Every (SimAt h h R T)) : (r.part h).Follows R T (r.part h) :=
  ⟨rfl, start_follows hr, fun st size inp _ _ => parse_follows hr st size inp⟩

/-- Two calls of a fluid reader are one call on what they were given together. -/
theorem Reader.parse_splits {r : Reader E} (hr : r.Fluid h) (size : ℕ) :
    Splits fun st inp g => r.parse h st size inp g := by
  induction r generalizing size with
  | byte done => exact parseByte_splits done size
  | array width done => exact molParseBytes_splits width done size
  | bytes cb => exact parseBytes_splits hr size
  | option cb item ih =>
    refine parseStages_splits (optionStage_ranked _ size) ?_ hr.1
      fun _ hitem => optionStage_follows (part_follows hitem) size
    intro s p hs
    unfold optionStage at hs
    split at hs
    · cases hs
    · cases hs
      exact ih hr.2 size
  | fixVec cb width item ih =>
    refine parseStages_splits (fixVecStage_ranked cb _ size width) ?_ hr.1
      fun hcb hitem => fixVecStage_follows hcb (part_follows hitem) width size
    intro s p hs
    unfold fixVecStage at hs
    split at hs
    · cases hs
      exact molParseNum_splits
    · split at hs
      · cases hs
        exact ih hr.2 width
      · cases hs
  | dynVec cb item ih =>
    refine parseStages_splits (dynVecStage_ranked cb _ size) ?_ hr.1
      fun hcb hitem => dynVecStage_follows hcb (part_follows hitem) size
    intro s p hs
    unfold dynVecStage at hs
    split at hs
    · cases hs
      exact molParseNum_splits
    · cases hs
      exact molParseNum_splits
    · cases hs
      exact molParseNum_splits
    · split at hs
      · cases hs
        exact ih hr.2 molNumMax
      · cases hs
  | struct cb w₁ w₂ fst snd ih₁ ih₂ =>
    by_cases hs : size = w₁ + w₂ ∨ size = molNumMax
    · simp only [parse_struct _ _ _ _ _ _ _ _ hs]
      refine parseStages_splits (structStage_ranked _ _ w₁ w₂) ?_ hr.1
        fun _ hparts => structStage_follows (part_follows hparts.1) (part_follows hparts.2) w₁ w₂
      intro s p hs
      unfold structStage at hs
      split at hs
      · cases hs
        exact ih₁ hr.2.1 w₁
      · cases hs
        exact ih₂ hr.2.2 w₂
      · cases hs
    · have hreject : ∀ st inp g, (struct cb w₁ w₂ fst snd).parse h st size inp g =
          ⟨.reject, st, inp, g, false⟩ := fun _ _ _ => if_pos (by omega)
      constructor <;> simp [hreject]
  | table cb last fields ih =>
    have hrank := tableStage_ranked (h := h) cb size (List.ofFn fun i => (fields i).part h)
    rw [List.length_ofFn] at hrank
    refine parseStages_splits hrank ?_ hr.1 fun hcb hfields => tableStage_follows hcb ?_ size
    · intro s p hs
      unfold tableStage at hs
      split at hs
      · cases hs
        exact molParseNum_splits
      · cases hs
        exact molParseNum_splits
      · split at hs
        · cases hs
        · rename_i hget
          cases hs
          obtain ⟨i, rfl⟩ := List.mem_ofFn.mp (List.mem_of_getElem? hget)
          exact ih i (hr.2 i) _
      · cases hs
    · rw [List.forall₂_same]
      intro p hp
      obtain ⟨i, rfl⟩ := List.mem_ofFn.mp hp
      exact part_follows (hfields i)

/-- The calls of a parser on one chunk after another, for as long as it wants more. Chunks it
did not want are left over. -/
def session (parse : ReaderState → List UInt8 → σ → Res σ ε) :
    ReaderState → List (List UInt8) → σ → Res σ ε
  | st, [], g => ⟨.incomplete, st, [], g, false⟩
  | st, c :: cs, g =>
    let r := parse st c g
    match r.rv with
    | .incomplete => session parse r.st cs r.g
    | _ => { r with rest := r.rest ++ cs.flatten }

/-- A session that completes is one call on all the bytes. -/
theorem Splits.session_complete {parse : ReaderState → List UInt8 → σ → Res σ ε}
    (hp : Splits parse) {st : ReaderState} {cs : List (List UInt8)} {g : σ} {st' : ReaderState}
    {rest : List UInt8} {g' : σ} (hs : session parse st cs g = ⟨.complete, st', rest, g', false⟩) :
    parse st cs.flatten g = ⟨.complete, st', rest, g', false⟩ := by
  induction cs generalizing st g with
  | nil => cases hs
  | cons c cs ih =>
    rw [session] at hs
    rcases hx : parse st c g with ⟨rv, st₁, rest₁, g₁, d⟩
    have hd : rv = .complete ∨ rv = .incomplete → d = false := by
      intro hl
      simpa [hx, Res.Live, hl] using hp.direct st c g
    simp only [hx] at hs
    cases rv with
    | complete =>
      obtain rfl := hd (.inl rfl)
      cases hs
      exact hp.complete cs.flatten hx
    | incomplete =>
      obtain rfl := hd (.inr rfl)
      obtain ⟨-, hrun⟩ := hp.incomplete hx
      rw [List.flatten_cons, hrun _ (by rw [ih hs]; exact .inl rfl), ih hs]
    | reject => cases hs
    | throw e => cases hs

end Splits
end NervosLedger.Molecule
