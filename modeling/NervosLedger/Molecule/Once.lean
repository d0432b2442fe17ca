import NervosLedger.Molecule.Scan

/-!
# What a call does once

A parser goes on behind a part that it has read, so it makes the calls of that part once, however
long its input is. What else is called comes to the same before these calls and after them.
-/
namespace NervosLedger.Molecule
variable {E σ ε : Type} {h : Handler E σ ε} {P Q : σ → Prop}

/-- A call of the parser takes the states of one kind to states of the other. -/
def Reader.Turns (h : Handler E σ ε) (r : Reader E) (P Q : σ → Prop) : Prop :=
  ∀ st size inp g, P g → Q (r.parse h st size inp g).g

/-- An event for which it makes no difference. -/
structure KeepsBoth (h : Handler E σ ε) (P Q : σ → Prop) (e : E) : Prop where
  before : KeepsAt h P e
  after : KeepsAt h Q e

theorem fire_map_keeps {α : Type} {o : Option (α → E)} (ho : ∀ f ∈ o, ∀ a, KeepsAt h P (f a)) (a : α)
    {g : σ} (hg : P g) : P (h.fire (o.map fun f => f a) g) := by
  cases o with
  | none => exact hg
  | some f => exact (ho f rfl a).run hg

theorem allow_keeps {o : Option (ℕ → E)} (ho : ∀ f ∈ o, ∀ n, KeepsAt h P (f n)) (n : ℕ) {g : σ}
    (hg : P g) : P (h.allow (o.map fun f => f n) g).1 := by
  cases o with
  | none => exact hg
  | some f => exact (ho f rfl n).ask hg

theorem closed_keeps {o : Option E} (ho : ∀ e ∈ o, KeepsAt h P e) {g : σ} (hg : P g) (r : Res σ ε) :
    P (r.closed (h.close o g)).g := by
  have hclose : P (h.close o g).1 := by
    cases o with
    | none => exact hg
    | some e => exact (ho e rfl).finish hg
  generalize h.close o g = x at hclose ⊢
  obtain ⟨g', _ | e⟩ := x <;> exact hclose

theorem molParseNum_g (st : ReaderState) (inp : List UInt8) (g : σ) :
    (molParseNum h st inp g).g = g := by
  unfold molParseNum molParseBytes
  dsimp only
  split <;> rfl

/-! ### Stages -/

/-- The parser goes on with a frame, or it is done. -/
inductive Next.Turns (Inv : Frame → σ → Prop) (Q : σ → Prop) : Next σ → Prop
  | go {s u g} (h : Inv s g) : Next.Turns Inv Q (.go s u g)
  | accept {s u g} (h : Q g) : Next.Turns Inv Q (.accept s u g)
  | refuse {s u g} (h : Q g) : Next.Turns Inv Q (.refuse s u g)

/-- A stage at frame `s`: in between, its part is read. -/
def Stage.Turns (Inv : Frame → σ → Prop) (Q : σ → Prop) (s : Frame) (p : Stage σ ε) : Prop :=
  ∃ between : σ → Prop, (∀ g, between g → Q g) ∧
    (∀ u inp g, Inv s g → between (p.parse u inp g).g) ∧
      ∀ u g, between g → (p.next u g).Turns Inv Q

theorem runStages_turns {stage : Frame → Option (Stage σ ε)} {I : Frame → σ → Prop}
    (hend : ∀ s g, I s g → Q g) (hstage : ∀ s p, stage s = some p → p.Turns I Q s) (fuel : ℕ)
    {s : Frame} (u : ReaderState) (inp : List UInt8) {g : σ} (hg : I s g) :
    Q (runStages stage fuel s u inp g).g := by
  induction fuel generalizing s u inp g with
  | zero => exact hend s g hg
  | succ fuel ih =>
    unfold runStages
    cases hs : stage s with
    | none => exact hend s g hg
    | some p =>
      obtain ⟨between, hQ, hparse, hnext⟩ := hstage s p hs
      have hb := hparse u inp g hg
      dsimp only
      generalize p.parse u inp g = r at hb ⊢
      obtain ⟨rv, st, rest, g', d⟩ := r
      cases rv with
      | complete =>
        have hn := hnext st g' hb
        dsimp only
        generalize p.next st g' = n at hn ⊢
        cases hn with
        | go hn => exact ih _ rest hn
        | accept hn => exact hn
        | refuse hn => exact hn
      | incomplete => exact hQ _ hb
      | reject => exact hQ _ hb
      | throw e => exact hQ _ hb

theorem leave_keeps {cb : Callbacks E} (hcb : cb.Every (KeepsAt h Q)) (inp : List UInt8)
    {r : Res σ ε} (hr : Q r.g) : Q (leave h cb inp r).g := by
  have hchunk := fire_map_keeps hcb.chunk (inp.take (inp.length - r.rest.length)) hr
  obtain ⟨rv, st, rest, g, d⟩ := r
  cases rv with
  | complete => exact closed_keeps hcb.finish hchunk _
  | incomplete => exact hchunk
  | reject =>
    cases d with
    | false => exact hchunk
    | true => exact hr
  | throw e => exact hr

/-! ### Readers -/

namespace Reader

theorem start_keeps {r : Reader E} (hr : r.Every (KeepsAt h P)) {g : σ} (hg : P g) :
    P (r.start h g) :=
  (start_agrees (hr.mono fun _ => KeepsAt.same) ⟨rfl, hg⟩).2

theorem Turns.bytes (hPQ : ∀ g, P g → Q g) {cb : Callbacks E}
    (hsize : ∀ f ∈ cb.size, ∀ n, KeepsAt h P (f n))
    (hbody : ∀ f ∈ cb.bodyChunk, ∀ a x g, P g → Q (h.run (f a x) g))
    (hfinish : ∀ e ∈ cb.finish, KeepsAt h Q e) : (Reader.bytes cb).Turns h P Q := by
  have hparseBody : ∀ s u inp g, P g → Q (parseBody h cb s u inp g).g := by
    intro s u inp g hg
    have hb : ∀ n, Q (if n = 0 then g else
        h.fire (cb.bodyChunk.map fun f => f (inp.take n) (inp.drop n)) g) := by
      intro n
      split
      · exact hPQ g hg
      · cases ho : cb.bodyChunk with
        | none => exact hPQ g hg
        | some f => exact hbody f ho _ _ g hg
    unfold parseBody
    dsimp only
    split
    · exact closed_keeps hfinish (hb _) _
    · exact hb _
  intro st size inp g hg
  change Q (parseBytes h cb st size inp g).g
  unfold parseBytes
  dsimp only
  split
  · have hnum := molParseNum_g (h := h) st.u inp g
    generalize molParseNum h st.u inp g = r at hnum ⊢
    obtain ⟨rv, u, rest, g', d⟩ := r
    obtain rfl : g' = g := hnum
    cases rv with
    | complete =>
      dsimp only
      split
      · exact hPQ _ hg
      · have hallow := allow_keeps hsize (u.num + 4) hg
        generalize h.allow (cb.size.map fun f => f (u.num + 4)) g' = x at hallow ⊢
        obtain ⟨g₁, _ | _⟩ := x
        · exact hPQ _ hallow
        · exact hparseBody _ _ _ _ hallow
    | incomplete => exact hPQ _ hg
    | reject => exact hPQ _ hg
    | throw e => exact hPQ _ hg
  · exact hparseBody _ _ _ _ hg

theorem Turns.option (hPQ : ∀ g, P g → Q g) {cb : Callbacks E} (hcb : cb.Every (KeepsAt h Q))
    {item : Reader E} (hitem : item.Turns h P Q) : (Reader.option cb item).Turns h P Q := by
  intro st size inp g hg
  rw [parse_option, parseStages]
  refine leave_keeps hcb inp (runStages_turns (I := fun _ => P) (fun _ => hPQ) ?_ _ _ _ hg)
  intro s p hs
  unfold optionStage at hs
  split at hs
  · cases hs
  · cases hs
    exact ⟨Q, fun _ hq => hq, fun u inp g hg => hitem u size inp g hg, fun _ _ hq => .accept hq⟩

/-- In a vector each item may turn the state, as its `index` callback turns it back. -/
theorem Turns.dynVec (hPQ : ∀ g, P g → Q g) {cb : Callbacks E} (hcb : cb.Every (KeepsAt h Q))
    (hsize : ∀ f ∈ cb.size, ∀ n, KeepsAt h P (f n))
    (hlength : ∀ f ∈ cb.length, ∀ n, KeepsAt h P (f n)) {index : ℕ → E}
    (hindex : cb.index = some index) (hback : ∀ k g, Q g → P (h.run (index k) g)) {item : Reader E}
    (hstart : ∀ g, item.start h g = g) (hitem : item.Turns h P Q) :
    (Reader.dynVec cb item).Turns h P Q := by
  have hitems : ∀ s g, P g → (dynVecItems h cb (item.part h) s g).Turns (fun _ => P) Q := by
    intro s g hg
    simp only [dynVecItems, hindex, Option.map_some, Handler.fire_some, Reader.part, hstart]
    exact .go <| hback 0 _ (hPQ _ (fire_map_keeps hlength _ hg))
  intro st size inp g hg
  rw [parse_dynVec, parseStages]
  refine leave_keeps hcb inp (runStages_turns (I := fun _ => P) (fun _ => hPQ) ?_ _ _ _ hg)
  intro s p hs
  have hnum : ∀ u inp g, P g → P (molParseNum h u inp g).g := fun u inp g hg => by
    rwa [molParseNum_g]
  unfold dynVecStage at hs
  split at hs
  · cases hs
    refine ⟨P, hPQ, hnum, fun u g hg => ?_⟩
    dsimp only
    have hallow := allow_keeps hsize u.num hg
    generalize h.allow (cb.size.map fun f => f u.num) g = x at hallow ⊢
    obtain ⟨g₁, _ | _⟩ := x
    · exact .refuse (hPQ _ hallow)
    · dsimp only [Next.allowed]
      split_ifs
      · exact .accept (hPQ _ hallow)
      · exact .refuse (hPQ _ hallow)
      · exact .go hallow
  · cases hs
    refine ⟨P, hPQ, hnum, fun u g hg => ?_⟩
    dsimp only
    split
    · exact .go hg
    · exact hitems _ _ hg
  · cases hs
    refine ⟨P, hPQ, hnum, fun u g hg => ?_⟩
    dsimp only
    split
    · exact .go hg
    · exact hitems _ _ hg
  · split at hs
    · cases hs
      refine ⟨Q, fun _ hq => hq, fun u inp g hg => hitem u molNumMax inp g hg, fun u g hq => ?_⟩
      simp only [hindex, Option.map_some, Handler.fire_some, Reader.part, hstart]
      exact .go (hback _ _ hq)
    · cases hs

/-- In a table one field may turn the state. -/
theorem Turns.table (hPQ : ∀ g, P g → Q g) {cb : Callbacks E} (hcb : cb.Every (KeepsBoth h P Q))
    {last : ℕ} {fields : Fin (last + 1) → Reader E} (i : Fin (last + 1))
    (hothers : ∀ j ≠ i, (fields j).Every (KeepsBoth h P Q)) (hstart : ∀ g, (fields i).start h g = g)
    (hfield : (fields i).Turns h P Q) : (Reader.table cb last fields).Turns h P Q := by
  have hstartBefore : ∀ j g, P g → P ((fields j).start h g) := by
    intro j g hg
    rcases eq_or_ne j i with rfl | hj
    · rwa [hstart]
    · exact start_keeps ((hothers j hj).mono fun _ he => he.before) hg
  have hstartAfter : ∀ j g, Q g → Q ((fields j).start h g) := by
    intro j g hg
    rcases eq_or_ne j i with rfl | hj
    · rwa [hstart]
    · exact start_keeps ((hothers j hj).mono fun _ he => he.after) hg
  have hnum : ∀ u inp g, P g → P (molParseNum h u inp g).g := fun u inp g hg => by
    rwa [molParseNum_g]
  intro st size inp g hg
  rw [parse_table, parseStages]
  refine leave_keeps (hcb.mono fun _ he => he.after) inp (runStages_turns
    (I := fun s g => P g ∨ Q g ∧ s.AtEnd (i + 1)) ?_ ?_ _ _ _ (.inl hg))
  · rintro s g (hg | ⟨hg, -⟩)
    · exact hPQ g hg
    · exact hg
  intro s p hs
  unfold tableStage at hs
  split at hs
  · rename_i h0
    cases hs
    refine ⟨P, hPQ, fun u inp g hg => ?_, fun u g hg => ?_⟩
    · rcases hg with hg | ⟨-, hend⟩
      · exact hnum u inp g hg
      · simp [Frame.AtEnd, h0] at hend
    · dsimp only
      split
      · exact .refuse (hPQ _ hg)
      · exact .go (.inl hg)
  · rename_i h1
    cases hs
    refine ⟨P, hPQ, fun u inp g hg => ?_, fun u g hg => ?_⟩
    · rcases hg with hg | ⟨-, hend⟩
      · exact hnum u inp g hg
      · simp [Frame.AtEnd, h1] at hend
    · rw [List.ofFn_succ]
      dsimp only
      split
      · exact .go (.inl hg)
      · refine .go (.inl ?_)
        cases ho : cb.offsets with
        | none => exact hstartBefore 0 g hg
        | some f => exact (hcb.offsets f ho _ _).before.run (hstartBefore 0 g hg)
  · rename_i h2
    split at hs
    · cases hs
    · rename_i hget
      have hlt := (List.getElem?_eq_some_iff.mp hget).1
      rw [List.length_ofFn] at hlt
      rw [(tableParts_get hlt : (tableParts h fields)[s.fieldIdx]? = _)] at hget
      cases hget
      cases hs
      -- behind the field that turns the state no stage goes back to it
      refine ⟨fun g => P g ∨ Q g ∧ s.AtEnd i, ?_, fun u inp g hg => ?_, fun u g hg => ?_⟩
      · rintro g (hg | ⟨hg, -⟩)
        · exact hPQ g hg
        · exact hg
      · rcases eq_or_ne (⟨s.fieldIdx, hlt⟩ : Fin (last + 1)) i with hi | hi
        · have hidx : s.fieldIdx = i := congrArg Fin.val hi
          rcases hg with hg | ⟨-, hend⟩
          · rw [hi]
            exact .inr ⟨hfield _ _ _ _ hg, .inr ⟨h2, hidx.ge⟩⟩
          · rcases hend with h3 | ⟨-, hle⟩
            · have h2' : s.stateNum = 2 := h2
              omega
            · omega
        · have hothers := hothers _ hi
          rcases hg with hg | ⟨hg, hend⟩
          · exact .inl (parse_keeps (hothers.mono fun _ he => he.before) _ _ _ hg)
          · refine .inr ⟨parse_keeps (hothers.mono fun _ he => he.after) _ _ _ hg, ?_⟩
            exact hend.imp id fun h => ⟨h.1, Nat.le_of_succ_le h.2⟩
      · have hnext : Q g ∧ s.AtEnd i → i.val + 1 ≤ s.fieldIdx + 1 := by
          rintro ⟨-, h3 | ⟨-, hle⟩⟩
          · have h2' : s.stateNum = 2 := h2
            omega
          · omega
        dsimp only
        split
        · exact .go (hg.imp id fun hq => ⟨hq.1, .inl le_rfl⟩)
        · rename_i hget
          have hlt := (List.getElem?_eq_some_iff.mp hget).1
          rw [List.length_ofFn] at hlt
          rw [(tableParts_get hlt : (tableParts h fields)[s.fieldIdx + 1]? = _)] at hget
          cases hget
          exact .go (hg.imp (hstartBefore _ g) fun hq =>
            ⟨hstartAfter _ g hq.1, .inr ⟨h2, hnext hq⟩⟩)
  · cases hs

end Reader
end NervosLedger.Molecule
