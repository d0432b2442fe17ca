import Mathlib.Data.List.Basic
import Mathlib.Data.Nat.Notation

/-!
# A window on pieces

Bytes arrive in pieces, and those of a window are handed on, at most one piece for each that
arrives. Where a piece of the window ends then follows from where the pieces end.
-/
namespace NervosLedger.Molecule

/-- How the pieces that are read are put together. -/
structure Joining (α : Type) where
  none : α
  add : α → List UInt8 → α

namespace Joining

/-- The bytes of the pieces. -/
def bytes : Joining (List UInt8) := ⟨[], fun bs p => bs ++ p⟩

/-- The pieces one by one. -/
def pieces : Joining (List (List UInt8)) := ⟨[], fun ps p => ps ++ [p]⟩

end Joining

/-- Where the piece ends with which the pieces come to `n` bytes, or where they end. -/
def pieceEnd : List (List UInt8) → ℕ → ℕ
  | [], _ => 0
  | p :: ps, n => if n ≤ p.length then p.length else p.length + pieceEnd ps (n - p.length)

theorem pieceEnd_concat_of_le {ps : List (List UInt8)} {n : ℕ} (hpos : 0 < n)
    (hn : n ≤ ps.flatten.length) (p : List UInt8) : pieceEnd (ps ++ [p]) n = pieceEnd ps n := by
  induction ps generalizing n with
  | nil =>
    rw [List.flatten_nil, List.length_nil] at hn
    omega
  | cons q ps ih =>
    rw [List.flatten_cons, List.length_append] at hn
    rw [List.cons_append, pieceEnd, pieceEnd]
    split_ifs with hq
    · rfl
    · rw [ih (by omega) (by omega)]

theorem pieceEnd_concat_of_lt {ps : List (List UInt8)} {n : ℕ} (hn : ps.flatten.length < n)
    (p : List UInt8) : pieceEnd (ps ++ [p]) n = (ps ++ [p]).flatten.length := by
  induction ps generalizing n with
  | nil =>
    rw [List.nil_append, pieceEnd, pieceEnd, List.flatten_singleton]
    split_ifs <;> rfl
  | cons q ps ih =>
    rw [List.flatten_cons, List.length_append] at hn
    rw [List.cons_append, pieceEnd, if_neg (by omega), ih (by omega), List.flatten_cons,
      List.length_append]

theorem pieceEnd_le (ps : List (List UInt8)) (n : ℕ) : pieceEnd ps n ≤ ps.flatten.length := by
  induction ps generalizing n with
  | nil => exact Nat.le_refl _
  | cons p ps ih =>
    rw [pieceEnd, List.flatten_cons, List.length_append]
    split_ifs
    · exact Nat.le_add_right _ _
    · exact Nat.add_le_add_left (ih _) _

/-- `qs` are the pieces `ps`, and one more at most. -/
def OneMore (ps qs : List (List UInt8)) : Prop := qs = ps ∨ ∃ p, qs = ps ++ [p]

/-- `qs` are the pieces in which the `size` bytes from `start` on are handed on, where `ps` arrive. -/
inductive Window (start size : ℕ) : List (List UInt8) → List (List UInt8) → Prop
  | nil : Window start size [] []
  | piece {ps qs qs'} (h : Window start size ps qs) (p : List UInt8) (hmore : OneMore qs qs')
      (hlen : qs'.flatten.length = min size ((ps ++ [p]).flatten.length - start)) :
      Window start size (ps ++ [p]) qs'

namespace Window
variable {start size : ℕ} {ps qs : List (List UInt8)}

theorem length_eq (h : Window start size ps qs) :
    qs.flatten.length = min size (ps.flatten.length - start) := by
  cases h with
  | nil => simp
  | piece _ _ _ hlen => exact hlen

/-- A piece of the window ends where the piece that it came with ends, or with the window. -/
theorem pieceEnd_eq (h : Window start size ps qs) {n : ℕ} (hpos : 0 < n) (hsize : n ≤ size)
    (hn : start + n ≤ ps.flatten.length) :
    pieceEnd qs n = min size (pieceEnd ps (start + n) - start) := by
  induction h with
  | nil =>
    rw [List.flatten_nil, List.length_nil] at hn
    omega
  | @piece ps qs _ h p hmore hlen ih =>
    have hqs := h.length_eq
    rcases Nat.lt_or_ge ps.flatten.length (start + n) with hlt | hle
    · rw [pieceEnd_concat_of_lt hlt]
      rcases hmore with rfl | ⟨q, rfl⟩
      · omega
      · rw [pieceEnd_concat_of_lt (by omega), hlen]
    · rw [pieceEnd_concat_of_le (by omega) hle, ← ih hle]
      rcases hmore with rfl | ⟨q, rfl⟩
      · rfl
      · exact pieceEnd_concat_of_le hpos (by omega) q

end Window

/-! ### What was read so far -/

section Read
variable {σ α : Type} (lost : σ) (read : σ → α)

/-- `P` holds of what was read, unless that was lost. -/
def Known (P : α → Prop) (s : σ) : Prop := s = lost ∨ P (read s)

/-- A step that adds nothing to what was read. -/
def Kept (s s' : σ) : Prop := s' = lost ∨ s ≠ lost ∧ read s' = read s

variable {lost read} {s s' : σ}

theorem Known.kept {P : α → Prop} (h : Known lost read P s) (hk : Kept lost read s s') :
    Known lost read P s' :=
  hk.imp id fun ⟨hne, hread⟩ => hread ▸ h.resolve_left hne

theorem Known.mono {P Q : α → Prop} (h : Known lost read P s) (hPQ : ∀ x, P x → Q x) :
    Known lost read Q s :=
  h.imp id (hPQ _)

/-- What was read has `n` bytes if it is known to have as many as `n` allows. -/
theorem length_of_known {read : σ → List UInt8} {n : ℕ}
    (h : ∀ m, Known lost read (m ≤ ·.length) s ↔ m ≤ n) : s ≠ lost ∧ (read s).length = n := by
  have hne : s ≠ lost := fun hlost =>
    absurd ((h (n + 1)).mp (.inl hlost)) (Nat.not_succ_le_self n)
  have hread : ∀ m, m ≤ (read s).length ↔ m ≤ n := by
    intro m
    rw [← h, Known, or_iff_right hne]
  exact ⟨hne, Nat.le_antisymm ((hread _).mp (Nat.le_refl _)) ((hread _).mpr (Nat.le_refl _))⟩

end Read
end NervosLedger.Molecule
