import NervosLedger.Address
import NervosLedger.PathToString

/-!
# Formatters and the sizes they are given

Each formatter of a screen is given the size of its buffer. Whether it writes below that size,
whatever it is, is a matter of the guard it makes.
-/
namespace NervosLedger
open Molecule Machine

/-- A formatter and the value it is called on. -/
inductive Format where
  | number64 (n : UInt64)
  | number32 (n : UInt32)
  | fracCkb (n : UInt64)
  | fracCkbTuple (tuple : UInt64 × UInt64)
  | uint64Tuple (tuple : UInt64 × UInt64)
  | sighashAddress (addressType : AddressType) (lockArg : LockArg)
  | multisigAddress (addressType : AddressType) (lockArg : LockArg)
  | bip32Path (key : Bip32Path)

/-- What the formatter does to a buffer of the size it is told. -/
def Format.write (size : UInt32) (b : Buffer UInt8) : Format → Formatted
  | .number64 n => numberToStringIndirect64 0 size n b
  | .number32 n => numberToStringIndirect32 0 size n b
  | .fracCkb n => fracCkbToStringIndirect 0 size n b
  | .fracCkbTuple tuple => fracCkbTupleToStringIndirect 0 size tuple b
  | .uint64Tuple tuple => uint64TupleToString 0 size tuple b
  | .sighashAddress t a => lockArgToSighashAddress t 0 size a b
  | .multisigAddress t a => lockArgToMultisigAddress t 0 size a b
  | .bip32Path key => bip32PathToString 0 size key b

/-- The formatter throws, or every store is below the size. -/
def Format.Honours (f : Format) (size : UInt32) : Prop :=
  ∀ cell : ℕ → UInt8, (f.write size ⟨cell, ∅⟩).2 ≠ none ∨
    (f.write size ⟨cell, ∅⟩).1.Below size.toNat

/-- The sizes that a formatter honours on a value. -/
def Format.Fits (size : ℕ) : Format → Prop
  | .number64 _ | .number32 _ | .bip32Path _ => True
  | .fracCkb n => size = 21 → n.toNat < 10 ^ 19 ∨ n.toNat % 10 = 0
  | .fracCkbTuple tuple =>
    45 ≤ size → (amount tuple.1.toNat).length + 4 + (amount tuple.2.toNat).length < size
  | .uint64Tuple tuple =>
    (decimal tuple.1.toNat).length + 4 + (decimal tuple.2.toNat).length < size
  | .sighashAddress _ _ => size ≠ 97
  | .multisigAddress _ a => size ≠ if a.lockPeriod = .zero 8 then 97 else 110

theorem below_empty (cell : ℕ → UInt8) (size : ℕ) : (⟨cell, ∅⟩ : Buffer UInt8).Below size :=
  fun _ hi => hi.elim

theorem below_text_iff (cell : ℕ → UInt8) (text : List UInt8) (size : ℕ) :
    ((⟨cell, ∅⟩ : Buffer UInt8).copy 0 (text ++ [0])).Below size ↔ text.length < size := by
  rw [Buffer.below_copy_iff (by simp), and_iff_right (below_empty cell size), List.length_append,
    List.length_singleton]
  omega

/-! ### Numbers and amounts -/

theorem honours_number64 (n : UInt64) (size : UInt32) : (Format.number64 n).Honours size := by
  intro cell
  have hle := length_decimal_le_maxIntDigits n
  by_cases hguard : size.toNat < maxIntDigits + 1
  · left
    rw [Format.write, numberToStringIndirect64, if_pos hguard]
    nofun
  · right
    rw [Format.write, numberToStringIndirect64, if_neg hguard, numberToString_eq, below_text_iff]
    omega

theorem honours_number32 (n : UInt32) (size : UInt32) : (Format.number32 n).Honours size := by
  intro cell
  have hle := length_decimal_le_maxIntDigits n.toUInt64
  by_cases hguard : size.toNat < maxIntDigits + 1
  · left
    rw [Format.write, numberToStringIndirect32, if_pos hguard]
    simp
  · right
    rw [Format.write, numberToStringIndirect32, if_neg hguard, numberToString_eq, below_text_iff]
    omega

/-- The longest amounts have 21 characters. -/
theorem length_amount_lt_iff (n : UInt64) :
    (amount n.toNat).length < 21 ↔ n.toNat < 10 ^ 19 ∨ n.toNat % 10 = 0 := by
  have hlt := n.toNat_lt
  have hpow : 10 ^ decimalDigits = 10 ^ 8 := rfl
  have hfrac : (fraction decimalDigits n.toNat).length ≤ 8 := length_fraction_le _ _
  have hwhole : (decimal (n.toNat / 10 ^ 8)).length ≤ 12 :=
    length_decimal_le (by decide) (by omega)
  unfold amount fixedPoint
  rw [List.length_append, hpow]
  constructor
  · intro h
    by_contra hno
    obtain ⟨hbig, hlast⟩ := not_or.mp hno
    have hmod : n.toNat % 10 ^ 8 ≠ 0 := by omega
    have hlong : 11 < (decimal (n.toNat / 10 ^ 8)).length := lt_length_decimal (by omega)
    have hfull : (fraction decimalDigits n.toNat).length = 8 := length_fraction_of_last hlast
    rw [if_neg hmod, List.length_cons, hfull] at h
    omega
  · rintro (hsmall | hlast)
    · have hshort : (decimal (n.toNat / 10 ^ 8)).length ≤ 11 :=
        length_decimal_le (by decide) (by omega)
      split
      · rw [List.length_nil]
        omega
      · rw [List.length_cons]
        omega
    · have hshort : (fraction decimalDigits n.toNat).length ≤ 7 :=
        length_fraction_lt_of_last hlast
      split
      · rw [List.length_nil]
        omega
      · rw [List.length_cons]
        omega

theorem honours_fracCkb_iff (n : UInt64) (size : UInt32) :
    (Format.fracCkb n).Honours size ↔ (Format.fracCkb n).Fits size.toNat := by
  have hle := length_amount_le n
  have hiff := length_amount_lt_iff n
  unfold Format.Honours Format.Fits
  simp only [Format.write, fracCkbToStringIndirect]
  by_cases hguard : size.toNat < maxIntDigits + 1
  · have hsize : size.toNat ≠ 21 := hguard.ne
    simp only [if_pos hguard]
    exact iff_of_true (fun _ => .inl nofun) fun h => absurd h hsize
  · simp only [if_neg hguard, fracCkbToString_eq, ne_eq, not_true, false_or, below_text_iff,
      forall_const, ← hiff]
    rw [maxIntDigits] at hguard
    omega

/-! ### Pairs -/

theorem below_copyPair_iff (cell : ℕ → UInt8) (fst snd : List UInt8) (size : UInt32) :
    (copyPair 0 fst snd (sizeSub size fst.length) ⟨cell, ∅⟩).Below size.toNat ↔
      fst.length + 4 + snd.length < size.toNat := by
  have hof : ofStr.length = 4 := rfl
  unfold copyPair
  rw [Buffer.below_copy_iff (by simp), List.length_append, List.length_singleton, hof]
  constructor
  · rintro ⟨-, h⟩
    omega
  · intro h
    refine ⟨?_, by omega⟩
    have hsub : sizeSub size fst.length = _ := sizeSub_of_le (by omega)
    unfold strncpy
    rw [hsub, Buffer.below_copy_iff, below_text_iff]
    · rw [List.length_append, List.length_take, List.length_replicate, hof]
      omega
    · rw [List.length_append, List.length_take, List.length_replicate, hof]
      omega

theorem honours_fracCkbTuple_iff (tuple : UInt64 × UInt64) (size : UInt32) :
    (Format.fracCkbTuple tuple).Honours size ↔ (Format.fracCkbTuple tuple).Fits size.toNat := by
  unfold Format.Honours Format.Fits
  simp only [Format.write]
  by_cases hsize : 45 ≤ size.toNat
  · simp only [fracCkbTupleToStringIndirect_eq hsize, ne_eq, not_true, false_or,
      below_copyPair_iff, forall_const, hsize]
  · have hguard : size.toNat < 2 * maxIntDigits + ofStr.length + 1 := Nat.not_le.mp hsize
    simp only [fracCkbTupleToStringIndirect, if_pos hguard]
    exact iff_of_true (fun _ => .inl (by simp)) fun h => absurd h hsize

theorem honours_uint64Tuple_iff (tuple : UInt64 × UInt64) (size : UInt32) :
    (Format.uint64Tuple tuple).Honours size ↔ (Format.uint64Tuple tuple).Fits size.toNat := by
  unfold Format.Honours Format.Fits
  simp only [Format.write, uint64TupleToString_eq, ne_eq, not_true, false_or, below_copyPair_iff,
    forall_const]

/-! ### Addresses -/

/-- The NUL behind an address that fills the buffer is one too far. -/
theorem renderPkh_honours_iff (t : AddressType) {payload : List UInt8}
    (hlen : payload.length ≤ 100) (size : UInt32) :
    (∀ cell : ℕ → UInt8, (renderPkh t 0 size payload ⟨cell, ∅⟩).2 ≠ none ∨
      (renderPkh t 0 size payload ⟨cell, ∅⟩).1.Below size.toNat) ↔
        size.toNat ≠ (8 * payload.length + 4) / 5 + 10 := by
  obtain ⟨symbols, pad, hpad, hcount, -, -, hrender⟩ := renderPkh_eq t hlen
  have htext := length_address t hpad hcount
  rw [← htext]
  generalize bech32mText (hrpOf t) symbols = text at hrender
  constructor
  · intro h heq
    have hcell := h fun _ => 0
    rw [((hrender 0 size ⟨fun _ => 0, ∅⟩).1 heq.ge), below_text_iff] at hcell
    rcases hcell with hcell | hcell
    · exact hcell rfl
    · omega
  · intro hne cell
    rcases Nat.lt_or_ge size.toNat text.length with hlt | hge
    · left
      rw [(hrender 0 size ⟨cell, ∅⟩).2 hlt]
      nofun
    · right
      rw [(hrender 0 size ⟨cell, ∅⟩).1 hge, below_text_iff]
      omega

theorem honours_sighashAddress_iff (t : AddressType) (a : LockArg) (size : UInt32) :
    (Format.sighashAddress t a).Honours size ↔ size.toNat ≠ 97 := by
  have hlen : (sighashPayload a).length = 54 := by
    rw [sighashPayload, length_fullPayload, a.hash.length_eq]
  have hiff := renderPkh_honours_iff t (by omega : (sighashPayload a).length ≤ 100) size
  rw [hlen] at hiff
  exact hiff

theorem length_multisigPayload (a : LockArg) :
    (multisigPayload a).length = if a.lockPeriod = .zero 8 then 54 else 62 := by
  rw [multisigPayload_eq, multisigLock]
  split <;> simp

theorem honours_multisigAddress_iff (t : AddressType) (a : LockArg) (size : UInt32) :
    (Format.multisigAddress t a).Honours size ↔
      (Format.multisigAddress t a).Fits size.toNat := by
  have hle := length_multisigPayload_le a
  have hiff := renderPkh_honours_iff t (by omega : (multisigPayload a).length ≤ 100) size
  have hsize : (8 * (multisigPayload a).length + 4) / 5 + 10 =
      if a.lockPeriod = .zero 8 then 97 else 110 := by
    rw [length_multisigPayload]
    split <;> rfl
  rw [hsize] at hiff
  exact hiff

/-! ### All formatters -/

/-- A formatter honours a size exactly when what it writes fits or its guard refuses it. -/
theorem honours_iff_fits (f : Format) (size : UInt32) : f.Honours size ↔ f.Fits size.toNat := by
  cases f with
  | number64 n => exact iff_of_true (honours_number64 n size) trivial
  | number32 n => exact iff_of_true (honours_number32 n size) trivial
  | fracCkb n => exact honours_fracCkb_iff n size
  | fracCkbTuple tuple => exact honours_fracCkbTuple_iff tuple size
  | uint64Tuple tuple => exact honours_uint64Tuple_iff tuple size
  | sighashAddress t a => exact honours_sighashAddress_iff t a size
  | multisigAddress t a => exact honours_multisigAddress_iff t a size
  | bip32Path key =>
    exact iff_of_true (fun cell => bip32PathToString_below size key (below_empty cell _)) trivial

/-- An address of 97 characters in a buffer of 97. -/
theorem address_not_honoured : ¬ ∀ (f : Format) (size : UInt32), f.Honours size := by
  intro h
  exact (honours_sighashAddress_iff .mainnet (.zero 28) 97).mp (h _ 97) rfl

end NervosLedger
