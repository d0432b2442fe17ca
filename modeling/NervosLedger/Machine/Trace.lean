import Mathlib.Data.List.Basic

/-!
# Runs of an event-driven machine

A machine takes one input after another. What it did is a list of events, and a property of a
run speaks of each event together with those before it.
-/
namespace NervosLedger.Machine

/-- A step on an input: what it did, and the state after it, unless control is lost. -/
abbrev Step (σ ι ρ : Type) := σ → ι → ρ × Option σ

/-- A step that was taken. -/
structure Event (σ ι ρ : Type) where
  before : σ
  input : ι
  report : ρ
  after : Option σ

section Trace
variable {σ ι ρ : Type} (step : Step σ ι ρ)

/-- The step of `step` in state `s` on input `i`. -/
def event (s : σ) (i : ι) : Event σ ι ρ := ⟨s, i, (step s i).1, (step s i).2⟩

@[simp] theorem event_before (s : σ) (i : ι) : (event step s i).before = s := rfl
@[simp] theorem event_input (s : σ) (i : ι) : (event step s i).input = i := rfl
@[simp] theorem event_report (s : σ) (i : ι) : (event step s i).report = (step s i).1 := rfl
@[simp] theorem event_after (s : σ) (i : ι) : (event step s i).after = (step s i).2 := rfl

/-- The events of a run, up to the one in which control is lost. -/
def trace : σ → List ι → List (Event σ ι ρ)
  | _, [] => []
  | s, i :: is => event step s i :: match (step s i).2 with
    | none => []
    | some s' => trace s' is

@[simp] theorem trace_nil (s : σ) : trace step s [] = [] := rfl

/-- `P` holds of each event of a run and the events before it. -/
def Always (s : σ) (is : List ι) (P : List (Event σ ι ρ) → Event σ ι ρ → Prop) : Prop :=
  ∀ pre e post, trace step s is = pre ++ e :: post → P pre e

/-- A property that can be decided of each event can be decided of a run. -/
instance (s : σ) (is : List ι) (P : List (Event σ ι ρ) → Event σ ι ρ → Prop)
    [∀ pre e, Decidable (P pre e)] : Decidable (Always step s is P) :=
  decidable_of_iff (∀ k, ∀ h : k < (trace step s is).length,
      P ((trace step s is).take k) (trace step s is)[k]) <| by
    constructor
    · intro h pre e post ht
      have hk : pre.length < (trace step s is).length := by simp [ht]
      simpa [ht] using h pre.length hk
    · intro h k hk
      refine h _ _ ((trace step s is).drop (k + 1)) ?_
      rw [← List.drop_eq_getElem_cons hk, List.take_append_drop]

variable {step}

theorem Always.mono {s : σ} {is : List ι} {P Q : List (Event σ ι ρ) → Event σ ι ρ → Prop}
    (h : Always step s is P) (hPQ : ∀ pre e, P pre e → Q pre e) : Always step s is Q :=
  fun pre e post ht => hPQ pre e (h pre e post ht)

theorem Always.and {s : σ} {is : List ι} {P Q : List (Event σ ι ρ) → Event σ ι ρ → Prop}
    (hP : Always step s is P) (hQ : Always step s is Q) :
    Always step s is fun pre e => P pre e ∧ Q pre e :=
  fun pre e post ht => ⟨hP pre e post ht, hQ pre e post ht⟩

/-- A run takes no inputs but those it is given. -/
theorem always_mem (s : σ) (is : List ι) : Always step s is fun _ e => e.input ∈ is := by
  induction is generalizing s with
  | nil =>
    intro pre e post ht
    simp at ht
  | cons i is ih =>
    intro pre e post ht
    rw [trace] at ht
    cases pre with
    | nil =>
      rw [List.nil_append, List.cons.injEq] at ht
      simp [← ht.1]
    | cons e₀ pre =>
      rw [List.cons_append, List.cons.injEq] at ht
      cases hs : (step s i).2 with
      | none => simp [hs] at ht
      | some s' =>
        rw [hs] at ht
        exact List.mem_cons_of_mem i (ih s' pre e post ht.2)

private theorem always_from {I : List (Event σ ι ρ) → σ → Prop}
    {C : List (Event σ ι ρ) → Event σ ι ρ → Prop}
    (hstep : ∀ pre s i s', C pre (event step s i) → I pre s → (step s i).2 = some s' →
      I (pre ++ [event step s i]) s')
    (is : List ι) (past : List (Event σ ι ρ)) (s : σ) (h₀ : I past s)
    (hC : ∀ pre e post, trace step s is = pre ++ e :: post → C (past ++ pre) e) :
    ∀ pre e post, trace step s is = pre ++ e :: post →
      e = event step e.before e.input ∧ I (past ++ pre) e.before := by
  induction is generalizing past s with
  | nil => simp
  | cons i is ih =>
    intro pre e post ht
    rw [trace] at ht
    cases pre with
    | nil =>
      rw [List.nil_append, List.cons.injEq] at ht
      obtain ⟨rfl, -⟩ := ht
      exact ⟨rfl, by simpa using h₀⟩
    | cons e₀ pre =>
      rw [List.cons_append, List.cons.injEq] at ht
      obtain ⟨rfl, ht⟩ := ht
      cases hs : (step s i).2 with
      | none => simp [hs] at ht
      | some s' =>
        rw [hs] at ht
        have h₁ : I (past ++ [event step s i]) s' := by
          refine hstep past s i s' ?_ h₀ hs
          have hfirst := hC [] (event step s i) (trace step s' is) (by simp [trace, hs])
          rwa [List.append_nil] at hfirst
        have hrest := ih (past ++ [event step s i]) s' h₁
          (fun pre' e' post' ht' => by
            have hlater := hC (event step s i :: pre') e' post' (by simp [trace, hs, ht'])
            rwa [List.append_cons] at hlater)
          pre e post ht
        rwa [List.append_cons]

/-- The invariant rule: what holds at first, and is kept by each step that meets `C`, holds
before each event of a run whose events all meet `C`. -/
theorem always_of_invariant {I : List (Event σ ι ρ) → σ → Prop}
    {C : List (Event σ ι ρ) → Event σ ι ρ → Prop} {s : σ} {is : List ι} (h₀ : I [] s)
    (hstep : ∀ pre s i s', C pre (event step s i) → I pre s → (step s i).2 = some s' →
      I (pre ++ [event step s i]) s')
    (hC : Always step s is C) :
    Always step s is fun pre e =>
      e = event step e.before e.input ∧ I pre e.before ∧ C pre e := by
  intro pre e post ht
  obtain ⟨he, hI⟩ := always_from hstep is [] s h₀ (by simpa [Always] using hC) pre e post ht
  exact ⟨he, by simpa using hI, hC pre e post ht⟩

end Trace
end NervosLedger.Machine
