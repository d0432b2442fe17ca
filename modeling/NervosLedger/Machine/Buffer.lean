import Mathlib.Data.Set.Insert
import Mathlib.Tactic.SplitIfs

/-!
# Buffers written through a pointer

A buffer is what its cells hold, beside the indices that were stored to: a store is never
refused, so what was written where is for the caller to prove.
-/
namespace NervosLedger.Machine

structure Buffer (α : Type) where
  cell : ℕ → α
  written : Set ℕ := ∅

namespace Buffer
variable {α : Type}

@[ext] theorem ext {a b : Buffer α} (hc : ∀ i, a.cell i = b.cell i)
    (hw : ∀ i, i ∈ a.written ↔ i ∈ b.written) : a = b := by
  obtain ⟨ca, wa⟩ := a
  obtain ⟨cb, wb⟩ := b
  have hcell : ca = cb := funext hc
  have hwritten : wa = wb := Set.ext hw
  rw [hcell, hwritten]

def store (b : Buffer α) (i : ℕ) (c : α) : Buffer α where
  cell k := if k = i then c else b.cell k
  written := insert i b.written

/-- `memcpy` to `off`. -/
def copy (b : Buffer α) (off : ℕ) : List α → Buffer α
  | [] => b
  | c :: cs => (b.store off c).copy (off + 1) cs

/-- The `n` cells from `off` on. -/
def read (b : Buffer α) (off n : ℕ) : List α := (List.range n).map fun i => b.cell (off + i)

/-- Every store was below `size`. -/
def Below (b : Buffer α) (size : ℕ) : Prop := ∀ i ∈ b.written, i < size

variable (b : Buffer α) (off : ℕ)

@[simp] theorem copy_nil : b.copy off [] = b := rfl

theorem store_eq_copy (c : α) : b.store off c = b.copy off [c] := rfl

theorem copy_append (as bs : List α) :
    b.copy off (as ++ bs) = (b.copy off as).copy (off + as.length) bs := by
  induction as generalizing b off with
  | nil => rfl
  | cons a as ih =>
    have h := ih (b.store off a) (off + 1)
    rw [Nat.add_assoc, Nat.add_comm 1] at h
    exact h

theorem cell_copy (cs : List α) (i : ℕ) :
    (b.copy off cs).cell i = if off ≤ i then (cs[i - off]?).getD (b.cell i) else b.cell i := by
  induction cs generalizing b off with
  | nil => simp
  | cons c cs ih =>
    have h : (b.copy off (c :: cs)).cell i = ((b.store off c).copy (off + 1) cs).cell i := rfl
    rw [h, ih]
    rcases Nat.lt_trichotomy i off with hi | rfl | hi
    · rw [if_neg (by omega), if_neg (by omega)]
      exact if_neg hi.ne
    · rw [if_neg (by omega), if_pos le_rfl]
      simp [store]
    · obtain ⟨d, rfl⟩ := Nat.exists_eq_add_of_lt hi
      have hd : off + d + 1 - off = (off + d + 1 - (off + 1)) + 1 := by omega
      have hne : off + d + 1 ≠ off := by omega
      rw [if_pos (by omega), if_pos (by omega), hd, List.getElem?_cons_succ]
      simp [store, hne]

theorem mem_written_copy (cs : List α) (i : ℕ) :
    i ∈ (b.copy off cs).written ↔ i ∈ b.written ∨ (off ≤ i ∧ i < off + cs.length) := by
  induction cs generalizing b off with
  | nil =>
    have hno : ¬ (off ≤ i ∧ i < off + 0) := by omega
    exact (or_iff_left hno).symm
  | cons c cs ih =>
    have h : (b.copy off (c :: cs)).written = ((b.store off c).copy (off + 1) cs).written := rfl
    rw [h, ih]
    have hi : off ≤ i ∧ i < off + (cs.length + 1) ↔
        i = off ∨ (off + 1 ≤ i ∧ i < off + 1 + cs.length) := by omega
    simp only [store, Set.mem_insert_iff, List.length_cons, hi, or_assoc]
    exact or_left_comm

/-- What is copied over a part of a text takes its place. -/
theorem copy_over {as : List α} {k : ℕ} (hk : k ≤ as.length) (cs : List α) :
    (b.copy off as).copy (off + k) cs =
      b.copy off (as.take k ++ (cs ++ as.drop (k + cs.length))) := by
  have htake : (as.take k).length = k := List.length_take_of_le hk
  ext i
  · simp only [cell_copy]
    rcases Nat.lt_or_ge i off with hi | hi
    · rw [if_neg (by omega), if_neg (by omega), if_neg (by omega)]
    · rw [if_pos hi, if_pos hi]
      rcases Nat.lt_or_ge (i - off) k with ha | ha
      · rw [if_neg (by omega), List.getElem?_append_left (by omega), List.getElem?_take_of_lt ha]
      · have hsub : i - (off + k) = i - off - k := by omega
        rw [if_pos (by omega), hsub, List.getElem?_append_right (by omega), htake]
        rcases Nat.lt_or_ge (i - off - k) cs.length with hc | hc
        · rw [List.getElem?_append_left hc, List.getElem?_eq_getElem hc]
          rfl
        · have hrest : k + cs.length + (i - off - k - cs.length) = i - off := by omega
          rw [List.getElem?_append_right hc, List.getElem?_drop, hrest,
            List.getElem?_eq_none hc]
          rfl
  · have hi : (off ≤ i ∧ i < off + (k + (cs.length + (as.length - (k + cs.length))))) ↔
        (off ≤ i ∧ i < off + as.length) ∨ (off + k ≤ i ∧ i < off + k + cs.length) := by omega
    simp only [mem_written_copy, List.length_append, List.length_drop, htake, hi, or_assoc]

/-- What is copied over the end of a text takes its place. -/
theorem copy_copy (as : List α) {bs cs : List α} (h : bs.length ≤ cs.length) :
    (b.copy off (as ++ bs)).copy (off + as.length) cs = b.copy off (as ++ cs) := by
  have hdrop : (as ++ bs).drop (as.length + cs.length) = [] := by
    rw [List.drop_eq_nil_iff, List.length_append]
    omega
  rw [copy_over _ _ (by simp), hdrop, List.take_left, List.append_nil]

/-- What is copied over the middle of a text takes its place. -/
theorem copy_inside (as : List α) {bs cs : List α} (ds : List α) (h : bs.length = cs.length) :
    (b.copy off (as ++ (bs ++ ds))).copy (off + as.length) cs = b.copy off (as ++ (cs ++ ds)) := by
  have hdrop : (as ++ (bs ++ ds)).drop (as.length + cs.length) = ds := by
    rw [← List.drop_drop, List.drop_left, ← h, List.drop_left]
  rw [copy_over _ _ (by simp), hdrop, List.take_left]

theorem length_read (n : ℕ) : (b.read off n).length = n := by
  simp [read]

theorem read_copy (cs : List α) : (b.copy off cs).read off cs.length = cs := by
  apply List.ext_getElem (length_read _ _ _)
  intro i h _
  have hi : i < cs.length := by simpa [read] using h
  simp [read, cell_copy, hi]

theorem read_append (m n : ℕ) : b.read off (m + n) = b.read off m ++ b.read (off + m) n := by
  simp [read, List.range_add, Nat.add_assoc]

/-- What is before a copy is as it was. -/
theorem read_copy_before {off' n : ℕ} (cs : List α) (h : off' + n ≤ off) :
    (b.copy off cs).read off' n = b.read off' n := by
  apply List.map_congr_left
  intro i hi
  have hlt := List.mem_range.mp hi
  rw [cell_copy, if_neg (by omega)]

theorem read_copy_prefix (as bs : List α) : (b.copy off (as ++ bs)).read off as.length = as := by
  rw [copy_append, read_copy_before _ _ _ le_rfl, read_copy]

theorem below_copy_iff {b : Buffer α} {off : ℕ} {cs : List α} {size : ℕ} (h : 0 < cs.length) :
    (b.copy off cs).Below size ↔ b.Below size ∧ off + cs.length ≤ size := by
  unfold Below
  constructor
  · intro hall
    have hlast := hall (off + cs.length - 1) ((mem_written_copy _ _ _ _).mpr (.inr (by omega)))
    exact ⟨fun i hi => hall i ((mem_written_copy _ _ _ _).mpr (.inl hi)), by omega⟩
  · rintro ⟨hb, hle⟩ i hi
    rcases (mem_written_copy _ _ _ _).mp hi with hi | hi
    · exact hb i hi
    · omega

/-- `strlen` of the text at `off`, when there is a NUL among the next `n` cells. -/
def strlen (b : Buffer UInt8) (off : ℕ) : ℕ → ℕ
  | 0 => 0
  | n + 1 => if b.cell off = 0 then 0 else b.strlen (off + 1) n + 1

theorem strlen_eq {b : Buffer UInt8} {off n : ℕ} {text : List UInt8} (h0 : 0 ∉ text)
    (h : b.read off (text.length + 1) = text ++ [0]) (hn : text.length < n) :
    b.strlen off n = text.length := by
  induction text generalizing off n with
  | nil =>
    obtain ⟨n, rfl⟩ := Nat.exists_eq_succ_of_ne_zero (Nat.pos_iff_ne_zero.mp hn)
    have hcell : b.cell off = 0 := by simpa [read] using h
    simp [strlen, hcell]
  | cons c text ih =>
    obtain ⟨n, rfl⟩ := Nat.exists_eq_succ_of_ne_zero (Nat.ne_zero_of_lt hn)
    rw [List.length_cons, Nat.add_right_comm, Nat.add_comm _ 1, read_append] at h
    have hcell : b.cell off = c := by simpa [read] using congrArg List.head? h
    have hrest : b.read (off + 1) (text.length + 1) = text ++ [0] := by
      simpa [read] using congrArg List.tail h
    have hc : c ≠ 0 := fun hc => h0 (by simp [hc])
    have hlen := ih (fun hm => h0 (List.mem_cons_of_mem _ hm)) hrest (Nat.lt_of_succ_lt_succ hn)
    simp [strlen, hcell, hc, hlen]

end Buffer
end NervosLedger.Machine
