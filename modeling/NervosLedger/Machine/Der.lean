import NervosLedger.Molecule.Bytes

/-!
# Integers in DER

Big-endian numbers, and the contents of a non-negative INTEGER: as short as two's complement
allows.
-/
namespace NervosLedger.Machine
open Molecule

/-- The big-endian reading of a byte string. -/
def beNat (bs : List UInt8) : ℕ := leNat bs.reverse

/-- The `k` low bytes of `n`, most significant first. -/
def beBytes (k n : ℕ) : List UInt8 := (leBytes k n).reverse

theorem leNat_concat (bs : List UInt8) (b : UInt8) :
    leNat (bs ++ [b]) = leNat bs + 256 ^ bs.length * b.toNat := by
  induction bs with
  | nil => simp [leNat]
  | cons c bs ih =>
    rw [List.cons_append, leNat, ih, leNat, List.length_cons, Nat.pow_succ', Nat.mul_add,
      Nat.mul_assoc, Nat.add_assoc]

theorem beNat_cons (b : UInt8) (bs : List UInt8) :
    beNat (b :: bs) = beNat bs + 256 ^ bs.length * b.toNat := by
  rw [beNat, List.reverse_cons, leNat_concat, List.length_reverse]
  rfl

theorem beNat_zeros (k : ℕ) (bs : List UInt8) : beNat (List.replicate k 0 ++ bs) = beNat bs := by
  induction k with
  | zero => rfl
  | succ k ih =>
    rw [List.replicate_succ, List.cons_append, beNat_cons, ih]
    exact Nat.add_zero _

/-- The bytes of a number of a given width. -/
theorem eq_beBytes {bs : List UInt8} {k : ℕ} (h : bs.length = k) : bs = beBytes k (beNat bs) := by
  have hlen : bs.reverse.length = k := by rw [List.length_reverse, h]
  rw [beBytes, beNat, ← hlen, leBytes_leNat, List.reverse_reverse]

theorem pow_le_beNat {b : UInt8} {bs : List UInt8} (h : b ≠ 0) :
    256 ^ bs.length ≤ beNat (b :: bs) := by
  have hb : b.toNat ≠ 0 := fun h0 => h (UInt8.toNat_inj.mp h0)
  rw [beNat_cons]
  exact (Nat.le_mul_of_pos_right _ (Nat.pos_of_ne_zero hb)).trans (Nat.le_add_left _ _)

/-- `content` is what an INTEGER `n` contains: no sign bit, and no zero in front but to keep the
sign bit clear. -/
structure DerInteger (content : List UInt8) (n : ℕ) : Prop where
  value : beNat content = n
  ne_nil : content ≠ []
  unsigned : ∀ b ∈ content.head?, b < 128
  minimal : ∀ b bs, content = 0 :: b :: bs → 128 ≤ b

/-- SEQUENCE{INTEGER, INTEGER}, with lengths in the short form. -/
def derSequence (r s : List UInt8) : List UInt8 :=
  0x30 :: UInt8.ofNat (r.length + s.length + 4) :: 0x02 :: UInt8.ofNat r.length ::
    (r ++ 0x02 :: UInt8.ofNat s.length :: s)

/-- The contents without the zero that keeps the sign bit of `k` bytes clear. -/
def significant (k : ℕ) (content : List UInt8) : List UInt8 :=
  content.drop (if content.length > k then 1 else 0)

/-- A number below `256 ^ k` takes at most one byte more than `k`, which is zero. -/
theorem DerInteger.length_le {content : List UInt8} {n k : ℕ} (h : DerInteger content n)
    (hn : n < 256 ^ k) : content.length ≤ k + 1 ∧
      (significant k content).length = min k content.length ∧
        beNat (significant k content) = n := by
  obtain ⟨b, bs, rfl⟩ := List.exists_cons_of_ne_nil h.ne_nil
  have hvalue := h.value
  unfold significant
  rw [List.length_cons]
  rcases Nat.lt_or_ge bs.length k with hk | hk
  · rw [if_neg (by omega), List.drop_zero, List.length_cons]
    exact ⟨by omega, by omega, hvalue⟩
  · have hpow : 256 ^ k ≤ 256 ^ bs.length := Nat.pow_le_pow_right (by decide) hk
    have hzero : b = 0 := by
      by_contra hb
      have hle : 256 ^ bs.length ≤ beNat (b :: bs) := pow_le_beNat hb
      omega
    have hrest : beNat bs = n := by
      rw [← hvalue, beNat_cons, hzero]
      exact (Nat.add_zero _).symm
    have hle : bs.length ≤ k := by
      by_contra hlt
      obtain ⟨c, cs, rfl⟩ := List.exists_cons_of_length_pos (by omega : 0 < bs.length)
      have hc : c ≠ 0 := by
        rintro rfl
        exact absurd (h.minimal 0 cs (by rw [hzero])) (by decide)
      have hlow : 256 ^ cs.length ≤ beNat (c :: cs) := pow_le_beNat hc
      have hpow' : 256 ^ k ≤ 256 ^ cs.length := by
        apply Nat.pow_le_pow_right (by decide)
        rw [List.length_cons] at hlt
        omega
      omega
    rw [if_pos (by omega), List.drop_one, List.tail_cons]
    exact ⟨by omega, by omega, hrest⟩

/-- Written at the end of `k` zeros, it is the number in `k` bytes. -/
theorem DerInteger.right_aligned {content : List UInt8} {n k : ℕ} (h : DerInteger content n)
    (hn : n < 256 ^ k) : List.replicate (k - min k content.length) 0 ++
      significant k content = beBytes k n := by
  obtain ⟨-, hlen, hvalue⟩ := h.length_le hn
  have hk : (List.replicate (k - min k content.length) 0 ++
      significant k content).length = k := by
    rw [List.length_append, List.length_replicate, hlen]
    omega
  rw [eq_beBytes hk, beNat_zeros, hvalue]

end NervosLedger.Machine
