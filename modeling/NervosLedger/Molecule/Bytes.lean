import Mathlib.Data.List.Basic
import Mathlib.Tactic.Ring

/-!
# Fixed-width byte arrays and little-endian numbers

A fixed array carries the proof of its own length, so a reader of it never has to
check the length again. Numbers on the wire are little endian.
-/
namespace NervosLedger.Molecule

/-- `[byte; n]`: exactly `n` bytes. -/
structure FixedBytes (n : ℕ) where
  toList : List UInt8
  length_eq : toList.length = n
  deriving DecidableEq, Repr

namespace FixedBytes
variable {n : ℕ}

@[simp] theorem length_toList (b : FixedBytes n) : b.toList.length = n := b.length_eq

@[ext] theorem ext {a b : FixedBytes n} (h : a.toList = b.toList) : a = b := by
  cases a; cases b; cases h; rfl

theorem toList_inj {a b : FixedBytes n} : a.toList = b.toList ↔ a = b :=
  ⟨ext, fun h => h ▸ rfl⟩

/-- The first `n` bytes of a zeroed buffer into which `xs` was copied. -/
def ofList (n : ℕ) (xs : List UInt8) : FixedBytes n where
  toList := xs.take n ++ List.replicate (n - xs.length) 0
  length_eq := by simp; omega

/-- What `memset(.., 0, n)` leaves. -/
def zero (n : ℕ) : FixedBytes n := ⟨List.replicate n 0, by simp⟩

instance : Inhabited (FixedBytes n) := ⟨zero n⟩

@[simp] theorem toList_ofList (xs : List UInt8) :
    (ofList n xs).toList = xs.take n ++ List.replicate (n - xs.length) 0 := rfl

theorem ofList_of_length {xs : List UInt8} (h : xs.length = n) : ofList n xs = ⟨xs, h⟩ := by
  ext1
  simp [← h]

@[simp] theorem ofList_toList (b : FixedBytes n) : ofList n b.toList = b :=
  ofList_of_length b.length_eq

/-- `memcpy` of `buf` at offset `off`, for a destination of `n` bytes; a copy that does not
fit is not made. -/
def write (b : FixedBytes n) (off : ℕ) (buf : List UInt8) : FixedBytes n :=
  if h : off + buf.length ≤ n then
    ⟨b.toList.take off ++ buf ++ b.toList.drop (off + buf.length), by simp; omega⟩
  else b

theorem toList_write (b : FixedBytes n) {off : ℕ} {buf : List UInt8} (h : off + buf.length ≤ n) :
    (b.write off buf).toList =
      b.toList.take off ++ buf ++ b.toList.drop (off + buf.length) := by
  simp [write, h]

end FixedBytes

/-- The little-endian reading of a byte string. -/
def leNat : List UInt8 → ℕ
  | [] => 0
  | b :: bs => b.toNat + 256 * leNat bs

/-- The `k` low bytes of `n`, least significant first. -/
def leBytes : ℕ → ℕ → List UInt8
  | 0, _ => []
  | k + 1, n => UInt8.ofNat n :: leBytes k (n / 256)

@[simp] theorem leNat_nil : leNat [] = 0 := rfl

@[simp] theorem length_leBytes (k n : ℕ) : (leBytes k n).length = k := by
  induction k generalizing n with
  | zero => rfl
  | succ k ih => simp [leBytes, ih]

theorem leNat_lt (bs : List UInt8) : leNat bs < 256 ^ bs.length := by
  induction bs with
  | nil => simp
  | cons b bs ih =>
    have hb := b.toNat_lt
    simp only [leNat, List.length_cons, Nat.pow_succ]
    omega

theorem leNat_leBytes {k n : ℕ} (h : n < 256 ^ k) : leNat (leBytes k n) = n := by
  induction k generalizing n with
  | zero =>
    have hn : n = 0 := by simpa using h
    simp [hn, leBytes]
  | succ k ih =>
    have hd : n / 256 < 256 ^ k := by
      rw [Nat.pow_succ] at h
      omega
    simp only [leBytes, leNat, UInt8.toNat_ofNat', ih hd]
    omega

theorem leBytes_leNat (bs : List UInt8) : leBytes bs.length (leNat bs) = bs := by
  induction bs with
  | nil => rfl
  | cons b bs ih =>
    have hb := b.toNat_lt
    have hq : (b.toNat + 256 * leNat bs) / 256 = leNat bs := by omega
    have hr : UInt8.ofNat (b.toNat + 256 * leNat bs) = b := by
      apply UInt8.toNat_inj.mp
      simp only [UInt8.toNat_ofNat']
      omega
    simp only [List.length_cons, leNat, leBytes, hq, hr, ih]

/-- A Molecule number: four little-endian bytes. -/
def le32 (n : ℕ) : List UInt8 := leBytes 4 n

@[simp] theorem length_le32 (n : ℕ) : (le32 n).length = 4 := length_leBytes 4 n

theorem leNat_le32 {n : ℕ} (h : n < 2 ^ 32) : leNat (le32 n) = n :=
  leNat_leBytes (by norm_num at h ⊢; exact h)

/-- `mol_num_t` subtraction. -/
def sub32 (a b : ℕ) : ℕ := (a + 2 ^ 32 - b) % 2 ^ 32

theorem sub32_of_le {a b : ℕ} (h : b ≤ a) (ha : a < 2 ^ 32) : sub32 a b = a - b := by
  unfold sub32
  omega

end NervosLedger.Molecule
