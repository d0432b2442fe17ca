import Mathlib.Data.List.Basic

/-!
# Steps on items

A state that is changed by one item after another, each by a relation.
-/
namespace NervosLedger.Machine

section Steps
variable {α σ : Type}

/-- The items take the first state to the second one. -/
inductive Steps (R : α → σ → σ → Prop) : List α → σ → σ → Prop
  | nil {s} : Steps R [] s s
  | cons {x xs s s' s''} (h : R x s s') (hs : Steps R xs s' s'') : Steps R (x :: xs) s s''

namespace Steps
variable {R R' : α → σ → σ → Prop} {xs ys : List α} {s s' s'' : σ}

theorem mono (h : Steps R xs s s') (hR : ∀ x s s', R x s s' → R' x s s') : Steps R' xs s s' := by
  induction h with
  | nil => exact .nil
  | cons h _ ih => exact .cons (hR _ _ _ h) ih

/-- The same steps, seen through a view of the states. -/
theorem map {τ : Type} {Q : α → τ → τ → Prop} (f : σ → τ) (h : Steps R xs s s')
    (hR : ∀ x s s', R x s s' → Q x (f s) (f s')) : Steps Q xs (f s) (f s') := by
  induction h with
  | nil => exact .nil
  | cons h _ ih => exact .cons (hR _ _ _ h) ih

/-- Steps that only look at a part of the items. -/
theorem items {β : Type} (f : β → α) {xs : List β} (h : Steps (fun x => R (f x)) xs s s') :
    Steps R (xs.map f) s s' := by
  induction h with
  | nil => exact .nil
  | cons h _ ih => exact .cons h ih

theorem split (h : Steps R (xs ++ ys) s s'') : ∃ s', Steps R xs s s' ∧ Steps R ys s' s'' := by
  induction xs generalizing s with
  | nil => exact ⟨s, .nil, h⟩
  | cons x xs ih =>
    cases h with
    | cons h hs =>
      obtain ⟨s', h₁, h₂⟩ := ih hs
      exact ⟨s', .cons h h₁, h₂⟩

/-- A property that no step establishes held before every step, if it holds at the end. -/
theorem back {P : σ → Prop} (hP : ∀ x s s', R x s s' → P s' → P s) (h : Steps R xs s s')
    (hs : P s') : P s ∧ Steps (fun x s s' => R x s s' ∧ P s ∧ P s') xs s s' := by
  induction h with
  | nil => exact ⟨hs, .nil⟩
  | cons h _ ih =>
    obtain ⟨hp, hsteps⟩ := ih hs
    have hbefore := hP _ _ _ h hp
    exact ⟨hbefore, .cons ⟨h, hbefore, hp⟩ hsteps⟩

/-- Two runs over items that correspond, each step of which keeps a relation. -/
theorem related {β τ : Type} {Q : β → τ → τ → Prop} {P : α → β → Prop} {I : σ → τ → Prop}
    (hI : ∀ {x y s s' t t'}, P x y → I s t → R x s s' → Q y t t' → I s' t') {ys : List β}
    (hP : List.Forall₂ P xs ys) {t t' : τ} (h : Steps R xs s s') (h' : Steps Q ys t t')
    (h0 : I s t) : I s' t' := by
  induction hP generalizing s t with
  | nil =>
    cases h
    cases h'
    exact h0
  | cons hxy _ ih =>
    cases h with
    | cons h hs =>
      cases h' with
      | cons h' hs' => exact ih hs hs' (hI hxy h0 h h')

/-- Items that are all passed over. -/
theorem passes {pass : σ → σ → Prop} (hrefl : ∀ s, pass s s)
    (htrans : ∀ {s s' s''}, pass s s' → pass s' s'' → pass s s'')
    (h : Steps R xs s s') (hpass : ∀ x ∈ xs, ∀ s s', R x s s' → pass s s') : pass s s' := by
  induction h with
  | nil => exact hrefl _
  | cons h _ ih =>
    exact htrans (hpass _ List.mem_cons_self _ _ h)
      (ih fun x hx => hpass x (List.mem_cons_of_mem _ hx))

/-- Items of which all are passed over but the one at an index. -/
theorem lookup {R : α × ℕ → σ → σ → Prop} {pass : σ → σ → Prop} (hrefl : ∀ s, pass s s)
    (htrans : ∀ {s s' s''}, pass s s' → pass s' s'' → pass s s'') {idx : ℕ}
    (hpass : ∀ x k s s', k ≠ idx → R (x, k) s s' → pass s s') {xs : List α}
    (h : Steps R xs.zipIdx s s') : xs[idx]? = none ∧ pass s s' ∨
      ∃ x s₁ s₂, xs[idx]? = some x ∧ pass s s₁ ∧ R (x, idx) s₁ s₂ ∧ pass s₂ s' := by
  have hothers : ∀ {ys : List α} {k s s'}, Steps R (ys.zipIdx k) s s' →
      (∀ j < ys.length, k + j ≠ idx) → pass s s' := by
    intro ys k s s' hs hne
    refine hs.passes hrefl htrans fun x hx s s' hR => hpass x.1 x.2 s s' ?_ hR
    have hbounds := List.mem_zipIdx hx
    have hj := hne (x.2 - k) (by omega)
    omega
  rcases Nat.lt_or_ge idx xs.length with hlt | hge
  · right
    have hsplit : xs = xs.take idx ++ xs[idx] :: xs.drop (idx + 1) := by
      rw [← List.drop_eq_getElem_cons hlt, List.take_append_drop]
    rw [hsplit, List.zipIdx_append, List.zipIdx_cons, List.length_take,
      Nat.min_eq_left (Nat.le_of_lt hlt), Nat.zero_add] at h
    obtain ⟨s₁, hpre, hrest⟩ := h.split
    cases hrest with
    | @cons _ _ _ s₂ _ hitem hpost =>
      refine ⟨xs[idx], s₁, s₂, List.getElem?_eq_getElem hlt, hothers hpre ?_, hitem,
        hothers hpost ?_⟩
      · intro j hj
        rw [List.length_take] at hj
        omega
      · intro j hj
        omega
  · left
    refine ⟨List.getElem?_eq_none hge, hothers h fun j hj => ?_⟩
    omega

end Steps
end Steps
end NervosLedger.Machine
