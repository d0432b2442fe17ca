import NervosLedger.Molecule.Outline
import NervosLedger.Molecule.Agreement

/-!
# The log of a parser's callbacks

A handler may keep a log of the calls that are made of it, each with the state it found. The log
changes nothing else, so a run with the log is a run without it.
-/
namespace NervosLedger.Molecule

/-- The kinds of slots: those that return nothing, `size` slots and `end` slots. -/
inductive Slot where
  | void | size | close
  deriving DecidableEq, Repr

/-- A call of a callback, with the owner's state it found. -/
structure Call (E σ : Type) where
  slot : Slot
  event : E
  state : σ
  deriving DecidableEq, Repr

abbrev Log (E σ : Type) := List (Call E σ)

section Traced
variable {E σ ε : Type}

namespace Handler

/-- A handler that logs its calls. -/
def traced (h : Handler E σ ε) : Handler E (σ × Log E σ) ε where
  run e x := (h.run e x.1, x.2 ++ [⟨.void, e, x.1⟩])
  ask e x := (((h.ask e x.1).1, x.2 ++ [⟨.size, e, x.1⟩]), (h.ask e x.1).2)
  finish e x := (((h.finish e x.1).1, x.2 ++ [⟨.close, e, x.1⟩]), (h.finish e x.1).2)

variable (h : Handler E σ ε) (e : E) (x : σ × Log E σ)

@[simp] theorem run_traced :
    h.traced.run e x = (h.run e x.1, x.2 ++ [⟨.void, e, x.1⟩]) := rfl

@[simp] theorem ask_traced :
    h.traced.ask e x = (((h.ask e x.1).1, x.2 ++ [⟨.size, e, x.1⟩]), (h.ask e x.1).2) := rfl

@[simp] theorem finish_traced :
    h.traced.finish e x = (((h.finish e x.1).1, x.2 ++ [⟨.close, e, x.1⟩]), (h.finish e x.1).2) :=
  rfl

end Handler

variable {h : Handler E σ ε}

theorem sameAt_traced (e : E) : SameAt h h.traced (fun g x => x.1 = g) e where
  run := by
    rintro g x rfl
    rfl
  ask := by
    rintro g x rfl
    exact ⟨rfl, rfl⟩
  finish := by
    rintro g x rfl
    exact ⟨rfl, rfl⟩

/-- A call of a parser is the call of the parser that logs, but for the log. -/
theorem Reader.parse_traced (r : Reader E) (st : ReaderState) (size : ℕ) (inp : List UInt8)
    (x : σ × Log E σ) :
    (r.parse h st size inp x.1).Agrees (fun g x => x.1 = g) (r.parse h.traced st size inp x) :=
  parse_agrees (r.every_of_forall fun e => sameAt_traced e) st size inp rfl

/-- A property of each call in a log and the calls before it. -/
def Log.Each (P : Log E σ → Call E σ → Prop) (l : Log E σ) : Prop :=
  ∀ pre c post, l = pre ++ c :: post → P pre c

@[simp] theorem Log.each_nil (P : Log E σ → Call E σ → Prop) : Log.Each P [] := by
  intro pre c post h
  simp at h

theorem Log.each_concat {P : Log E σ → Call E σ → Prop} {l : Log E σ} {c : Call E σ} :
    Log.Each P (l ++ [c]) ↔ Log.Each P l ∧ P l c := by
  constructor
  · intro h
    refine ⟨fun pre c' post hl => h pre c' (post ++ [c]) (by simp [hl]), h l c [] rfl⟩
  · rintro ⟨h, hc⟩ pre c' post hl
    rcases List.eq_nil_or_concat post with rfl | ⟨post', c'', rfl⟩
    · obtain ⟨rfl, rfl⟩ := List.append_inj' hl rfl |>.imp id List.singleton_inj.mp
      exact hc
    · refine h pre c' post' ?_
      rw [List.concat_eq_append, ← List.cons_append, ← List.append_assoc] at hl
      exact (List.append_inj' hl rfl).1

end Traced
end NervosLedger.Molecule
