import Mathlib.Data.List.Basic
import Mathlib.Tactic.Ring

/-!
# Bits, most significant first

The bits of a number to a fixed width, and cutting a string of bits into bytes.
-/
namespace NervosLedger.Machine

theorem forall_byte {P : UInt8 → Prop} (h : ∀ n : Fin 256, P (UInt8.ofFin n)) (b : UInt8) : P b :=
  h b.toFin

/-- The last `w` bits of `n`. -/
def bitsOf : ℕ → ℕ → List Bool
  | 0, _ => []
  | w + 1, n => bitsOf w (n / 2) ++ [decide (n % 2 = 1)]

/-- The number that bits stand for. -/
def ofBits (bits : List Bool) : ℕ := bits.foldl (fun v b => 2 * v + b.toNat) 0

/-- The bytes of a string of bits, and what is left over. -/
def toBytes : List Bool → List UInt8 × List Bool
  | a :: b :: c :: d :: e :: f :: g :: h :: bits =>
    (UInt8.ofNat (ofBits [a, b, c, d, e, f, g, h]) :: (toBytes bits).1, (toBytes bits).2)
  | bits => ([], bits)

/-- The bits of numbers of `w` bits each. -/
def bitsOfAll (w : ℕ) (ns : List UInt8) : List Bool := ns.flatMap fun n => bitsOf w n.toNat

@[simp] theorem length_bitsOf (w n : ℕ) : (bitsOf w n).length = w := by
  induction w generalizing n with
  | zero => rfl
  | succ w ih => simp [bitsOf, ih]

theorem bitsOf_add (v w n : ℕ) : bitsOf (v + w) n = bitsOf v (n / 2 ^ w) ++ bitsOf w n := by
  induction w generalizing n with
  | zero => simp [bitsOf]
  | succ w ih =>
    rw [← Nat.add_assoc, bitsOf, bitsOf, ih, Nat.div_div_eq_div_mul, ← Nat.pow_succ',
      List.append_assoc]

theorem bitsOf_mod (w n : ℕ) : bitsOf w (n % 2 ^ w) = bitsOf w n := by
  induction w generalizing n with
  | zero => rfl
  | succ w ih =>
    have hdiv : n % 2 ^ (w + 1) / 2 = n / 2 % 2 ^ w := by
      rw [Nat.pow_succ', Nat.mod_mul_right_div_self]
    have hmod : n % 2 ^ (w + 1) % 2 = n % 2 :=
      Nat.mod_mod_of_dvd n ⟨2 ^ w, Nat.pow_succ'⟩
    rw [bitsOf, bitsOf, hdiv, hmod, ih]

theorem bitsOf_congr {w m n : ℕ} (h : m % 2 ^ w = n % 2 ^ w) : bitsOf w m = bitsOf w n := by
  rw [← bitsOf_mod w m, h, bitsOf_mod]

theorem bitsOf_zero (w : ℕ) : bitsOf w 0 = List.replicate w false := by
  induction w with
  | zero => rfl
  | succ w ih => simp [bitsOf, ih, List.replicate_succ']

/-- A shift to the left appends zeros. -/
theorem bitsOf_mul (w k n : ℕ) :
    bitsOf (w + k) (n * 2 ^ k) = bitsOf w n ++ List.replicate k false := by
  have hk : bitsOf k (n * 2 ^ k) = bitsOf k 0 := bitsOf_congr (by simp)
  rw [bitsOf_add, Nat.mul_div_cancel _ (Nat.two_pow_pos k), hk, bitsOf_zero]

theorem ofBits_append_singleton (bits : List Bool) (b : Bool) :
    ofBits (bits ++ [b]) = 2 * ofBits bits + b.toNat := by
  simp [ofBits]

theorem ofBits_bitsOf (w n : ℕ) : ofBits (bitsOf w n) = n % 2 ^ w := by
  induction w generalizing n with
  | zero => simp [bitsOf, ofBits, Nat.mod_one]
  | succ w ih =>
    rw [bitsOf, ofBits_append_singleton, ih, Nat.pow_succ', Nat.mod_mul]
    rcases Nat.mod_two_eq_zero_or_one n with h | h
    · simp [h]
    · simp [h, Nat.add_comm]

theorem toBytes_byte (n : UInt8) (bits : List Bool) :
    toBytes (bitsOf 8 n.toNat ++ bits) = (n :: (toBytes bits).1, (toBytes bits).2) := by
  have hn : UInt8.ofNat (ofBits (bitsOf 8 n.toNat)) = n := by
    rw [ofBits_bitsOf, Nat.mod_eq_of_lt n.toNat_lt]
    exact UInt8.ofNat_toNat
  conv_rhs => rw [← hn]
  rfl

theorem toBytes_short {bits : List Bool} (h : bits.length < 8) : toBytes bits = ([], bits) := by
  unfold toBytes
  split
  · simp at h
    omega
  · rfl

/-- Bytes are got back from their bits, whatever is left over. -/
theorem toBytes_bitsOfAll (ns : List UInt8) {bits : List Bool} (h : bits.length < 8) :
    toBytes (bitsOfAll 8 ns ++ bits) = (ns, bits) := by
  induction ns with
  | nil => exact toBytes_short h
  | cons n ns ih =>
    have hcons : bitsOfAll 8 (n :: ns) = bitsOf 8 n.toNat ++ bitsOfAll 8 ns := List.flatMap_cons
    rw [hcons, List.append_assoc, toBytes_byte, ih]

@[simp] theorem length_bitsOfAll (w : ℕ) (ns : List UInt8) :
    (bitsOfAll w ns).length = w * ns.length := by
  induction ns with
  | nil => rfl
  | cons n ns ih =>
    have hcons : bitsOfAll w (n :: ns) = bitsOf w n.toNat ++ bitsOfAll w ns := List.flatMap_cons
    rw [hcons, List.length_append, length_bitsOf, ih, List.length_cons]
    ring

theorem bitsOfAll_append (w : ℕ) (ms ns : List UInt8) :
    bitsOfAll w (ms ++ ns) = bitsOfAll w ms ++ bitsOfAll w ns := List.flatMap_append

end NervosLedger.Machine
