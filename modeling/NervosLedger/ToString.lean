import NervosLedger.Types
import NervosLedger.Machine.Buffer
import NervosLedger.Machine.Decimal

/-!
# Numbers on the screen

The formatters of numbers and amounts. A formatter writes to a buffer at an index that stands
for the pointer it is given, and does not know how long the buffer is unless it is told.
-/
namespace NervosLedger
open Molecule Machine

def promptWidth : ℕ := 16
def valueWidth : UInt32 := 128

/-- What a formatter that may throw leaves. -/
abbrev Formatted := Buffer UInt8 × Option Exc

/-- `size - n`, for a `size_t`. -/
def sizeSub (size : UInt32) (n : ℕ) : ℕ := (size - UInt32.ofNat n).toNat

/-- `strncpy` of a string without its NUL. -/
def strncpy (b : Buffer UInt8) (dest : ℕ) (src : List UInt8) (n : ℕ) : Buffer UInt8 :=
  b.copy dest (src.take n ++ List.replicate (n - src.length) 0)

/-- The text at `dest`, up to its NUL, is `text`. -/
def Prints (b : Buffer UInt8) (dest : ℕ) (text : List UInt8) : Prop :=
  0 ∉ text ∧ b.read dest (text.length + 1) = text ++ [0]

theorem prints_copy {text : List UInt8} (h : 0 ∉ text) (dest : ℕ) (b : Buffer UInt8) :
    Prints (b.copy dest (text ++ [0])) dest text := by
  refine ⟨h, ?_⟩
  have hlen : text.length + 1 = (text ++ [0]).length := by simp
  rw [hlen, Buffer.read_copy]

/-! ### Whole numbers -/

def maxIntDigits : ℕ := 20

/-- The loop of `convert_number` below the `i` cells that are left: where it stopped, and the
digits from there on. -/
def convertNumberLoop (leadingZeroes : Bool) : ℕ → UInt64 → List UInt8 → ℕ × List UInt8
  | 0, _, digits => (0, digits)
  | i + 1, number, digits =>
    let digits := (48 + (number % 10).toUInt8) :: digits
    let number := number / 10
    if !leadingZeroes && number = 0 then (i, digits)
    else convertNumberLoop leadingZeroes i number digits

def convertNumber (number : UInt64) (leadingZeroes : Bool) : ℕ × List UInt8 :=
  convertNumberLoop leadingZeroes maxIntDigits number []

/-- `number_to_string`: the buffer and the length. -/
def numberToString (dest : ℕ) (number : UInt64) (b : Buffer UInt8) : Buffer UInt8 × ℕ :=
  let (off, digits) := convertNumber number false
  let length := maxIntDigits - off
  ((b.copy dest (digits.take length)).store (dest + length) 0, length)

def numberToStringIndirect64 (dest : ℕ) (buffSize : UInt32) (number : UInt64)
    (b : Buffer UInt8) : Formatted :=
  if buffSize.toNat < maxIntDigits + 1 then (b, some .wrongLength)
  else ((numberToString dest number b).1, none)

def numberToStringIndirect32 (dest : ℕ) (buffSize : UInt32) (number : UInt32)
    (b : Buffer UInt8) : Formatted :=
  if buffSize.toNat < maxIntDigits + 1 then (b, some .wrongLength)
  else ((numberToString dest number.toUInt64 b).1, none)

/-! ### Amounts -/

def ckbScale : UInt64 := 100000000
def decimalDigits : ℕ := 8

/-- The loop of `frac_ckb_to_string` that drops zeros: `end - start`, once the `k` characters
before `end` are left. -/
def trimZeros (digits : List UInt8) : ℕ → ℕ
  | 0 => sub32 0 1
  | k + 1 => if digits.getD k 0 ≠ 48 then k + 1 else trimZeros digits k

/-- `frac_ckb_to_string`. -/
def fracCkbToString (dest : ℕ) (number : UInt64) (b : Buffer UInt8) : Buffer UInt8 × ℕ :=
  let whole := number / ckbScale
  let fractional := number % ckbScale
  let (b, off) := numberToString dest whole b
  if fractional = 0 then (b, off)
  else
    let b := b.store (dest + off) 46
    let off := off + 1
    let tmp := (convertNumber number true).2
    let start := tmp.drop (maxIntDigits - decimalDigits)
    let length := trimZeros start decimalDigits
    ((b.copy (dest + off) (start.take length)).store (dest + off + length) 0, off + length)

def fracCkbToStringIndirect (dest : ℕ) (buffSize : UInt32) (number : UInt64)
    (b : Buffer UInt8) : Formatted :=
  if buffSize.toNat < maxIntDigits + 1 then (b, some .wrongLength)
  else ((fracCkbToString dest number b).1, none)

/-! ### Pairs -/

/-- " of ". -/
def ofStr : List UInt8 := [32, 111, 102, 32]

def fracCkbTupleToStringIndirect (dest : ℕ) (buffSize : UInt32) (tuple : UInt64 × UInt64)
    (b : Buffer UInt8) : Formatted :=
  if buffSize.toNat < 2 * maxIntDigits + ofStr.length + 1 then (b, some .wrongLength)
  else
    let (b, outLen) := fracCkbToString dest tuple.1 b
    let b := strncpy b (dest + outLen) ofStr (sizeSub buffSize outLen)
    let outLen := outLen + ofStr.length
    ((fracCkbToString (dest + outLen) tuple.2 b).1, none)

/-- `uint64_tuple_to_string`, which does not look at the size. -/
def uint64TupleToString (dest : ℕ) (buffSize : UInt32) (tuple : UInt64 × UInt64)
    (b : Buffer UInt8) : Formatted :=
  let (b, outLen) := numberToString dest tuple.1 b
  let b := strncpy b (dest + outLen) ofStr (sizeSub buffSize outLen)
  let outLen := outLen + ofStr.length
  ((numberToString (dest + outLen) tuple.2 b).1, none)

/-! ### The contract type -/

/-- "Present". -/
def contractTypePresent : List UInt8 := [80, 114, 101, 115, 101, 110, 116]

/-- "Not Present". -/
def contractTypeNotPresent : List UInt8 := [78, 111, 116, 32] ++ contractTypePresent

/-- `contract_type_to_string_indirect`, on whether the type is `CONTRACT_UNKNOWN`. -/
def contractTypeToStringIndirect (dest : ℕ) (buffSize : UInt32) (unknown : Bool)
    (b : Buffer UInt8) : Formatted :=
  let text := if unknown then contractTypePresent else contractTypeNotPresent
  if text.length + 1 ≥ buffSize.toNat then (b, some .wrongLength)
  else (b.copy dest (text ++ [0]), none)

/-! ### Whole numbers are in decimal -/

theorem digit_eq (number : UInt64) :
    48 + (number % 10).toUInt8 = digitChar (number.toNat % 10) := by
  have hlt := Nat.mod_lt number.toNat (by omega : 10 > 0)
  apply UInt8.toNat_inj.mp
  have h48 : UInt8.toNat 48 = 48 := rfl
  have h10 : UInt64.toNat 10 = 10 := rfl
  rw [digitChar_toNat hlt, UInt8.toNat_add, UInt64.toNat_toUInt8, UInt64.toNat_mod, h48, h10]
  omega

theorem convertNumberLoop_true (i : ℕ) (number : UInt64) (digits : List UInt8) :
    convertNumberLoop true i number digits = (0, padded i number.toNat ++ digits) := by
  induction i generalizing number digits with
  | zero => rfl
  | succ i ih =>
    have hdiv : (number / 10).toNat = number.toNat / 10 := UInt64.toNat_div _ _
    simp only [convertNumberLoop, digit_eq, Bool.not_true, Bool.false_and, Bool.false_eq_true,
      if_false, ih, hdiv, padded, List.append_assoc, List.singleton_append]

theorem convertNumberLoop_false {i : ℕ} {number : UInt64} (h : number.toNat < 10 ^ i) (hi : 0 < i)
    (digits : List UInt8) : convertNumberLoop false i number digits =
      (i - (decimal number.toNat).length, decimal number.toNat ++ digits) := by
  induction i generalizing number digits with
  | zero => omega
  | succ i ih =>
    have hdiv : (number / 10).toNat = number.toNat / 10 := UInt64.toNat_div _ _
    have hzero : number / 10 = 0 ↔ number.toNat < 10 := by
      rw [← UInt64.toNat_inj, hdiv, UInt64.toNat_zero]
      omega
    simp only [convertNumberLoop, digit_eq, Bool.not_false, Bool.true_and, decide_eq_true_eq,
      hzero]
    rcases Nat.lt_or_ge number.toNat 10 with hn | hn
    · rw [if_pos hn, decimal_of_lt hn, Nat.mod_eq_of_lt hn]
      rfl
    · have hlt : (number / 10).toNat < 10 ^ i := by
        rw [hdiv]
        rw [Nat.pow_succ] at h
        omega
      have hpos : 0 < i := by
        rcases Nat.eq_zero_or_pos i with rfl | hpos
        · simp at hlt
          omega
        · exact hpos
      rw [if_neg (by omega), ih hlt hpos, hdiv, decimal_of_le hn, List.length_append,
        List.append_assoc, List.length_singleton, Nat.add_sub_add_right]
      rfl

theorem toNat_lt_pow (number : UInt64) : number.toNat < 10 ^ maxIntDigits :=
  number.toNat_lt.trans (by decide)

theorem length_decimal_le_maxIntDigits (number : UInt64) :
    (decimal number.toNat).length ≤ maxIntDigits :=
  length_decimal_le (by decide) (toNat_lt_pow number)

/-- The digits and the NUL are put at `dest`. -/
theorem numberToString_eq (dest : ℕ) (number : UInt64) (b : Buffer UInt8) :
    numberToString dest number b =
      (b.copy dest (decimal number.toNat ++ [0]), (decimal number.toNat).length) := by
  have hle := length_decimal_le_maxIntDigits number
  have hsub : maxIntDigits - (maxIntDigits - (decimal number.toNat).length) =
      (decimal number.toNat).length := by omega
  simp only [numberToString, convertNumber,
    convertNumberLoop_false (toNat_lt_pow number) (by decide : 0 < maxIntDigits), List.append_nil,
    hsub, List.take_length, Buffer.store_eq_copy, Buffer.copy_append]

/-! ### Amounts are in decimal -/

/-- The text of an amount: a hundred millionth is the unit. -/
def amount (n : ℕ) : List UInt8 := fixedPoint decimalDigits n

theorem trimZeros_eq {digits : List UInt8} {k : ℕ} (hk : k ≤ digits.length)
    (h : (digits.take k).rdropWhile (· = 48) ≠ []) :
    trimZeros digits k = ((digits.take k).rdropWhile (· = 48)).length := by
  induction k with
  | zero => exact absurd (by simp) h
  | succ k ih =>
    have hget : digits.getD k 0 = digits[k] := by
      rw [List.getD_eq_getElem?_getD, List.getElem?_eq_getElem hk, Option.getD_some]
    have htake : digits.take (k + 1) = digits.take k ++ [digits[k]] :=
      (List.take_concat_get' _ _ _).symm
    rw [htake] at h ⊢
    rw [trimZeros, hget]
    by_cases h48 : digits[k] = 48
    · rw [List.rdropWhile_concat_pos _ _ _ (by simpa using h48)] at h ⊢
      rw [if_neg (not_not.mpr h48)]
      exact ih (Nat.le_of_succ_le hk) h
    · rw [List.rdropWhile_concat_neg _ _ _ (by simpa using h48), if_pos h48, List.length_append,
        List.length_take_of_le (Nat.le_of_succ_le hk), List.length_singleton]

theorem trimZeros_padded {n k : ℕ} (h : n % 10 ^ k ≠ 0) :
    trimZeros (padded k n) k = (fraction k n).length ∧
      (padded k n).take (fraction k n).length = fraction k n := by
  have htake : (padded k n).take k = padded k n := List.take_of_length_le (by simp)
  have hne := fraction_eq_nil h
  constructor
  · rw [trimZeros_eq (by simp) (by rwa [htake]), htake]
    rfl
  · exact (List.prefix_iff_eq_take.mp (List.rdropWhile_prefix _ _)).symm

/-- Where the whole part is short of its largest, so is the text. -/
theorem length_amount_le (number : UInt64) : (amount number.toNat).length ≤ 21 := by
  have hfrac := length_fraction_le decimalDigits number.toNat
  have hlt := number.toNat_lt
  have hwhole : (decimal (number.toNat / 10 ^ decimalDigits)).length ≤ 12 := by
    apply length_decimal_le (by decide)
    unfold decimalDigits
    omega
  unfold amount fixedPoint
  rw [List.length_append]
  unfold decimalDigits at *
  split
  · rw [List.length_nil]
    omega
  · rw [List.length_cons]
    omega

/-- The amount and a NUL are put at `dest`. -/
theorem fracCkbToString_eq (dest : ℕ) (number : UInt64) (b : Buffer UInt8) :
    fracCkbToString dest number b =
      (b.copy dest (amount number.toNat ++ [0]), (amount number.toNat).length) := by
  have hscale : ckbScale.toNat = 10 ^ decimalDigits := rfl
  have hwhole : (number / ckbScale).toNat = number.toNat / 10 ^ decimalDigits :=
    UInt64.toNat_div _ _
  have hfractional : number % ckbScale = 0 ↔ number.toNat % 10 ^ decimalDigits = 0 := by
    rw [← UInt64.toNat_inj, UInt64.toNat_mod, hscale]
    rfl
  unfold fracCkbToString amount fixedPoint
  simp only [numberToString_eq, hwhole, hfractional]
  split
  · simp
  · rename_i h
    obtain ⟨hlen, htake⟩ := trimZeros_padded h
    have hdrop : (padded maxIntDigits number.toNat).drop (maxIntDigits - decimalDigits) =
        padded decimalDigits number.toNat := drop_padded 12 8 _
    simp only [convertNumber, convertNumberLoop_true, List.append_nil, hdrop, hlen, htake,
      Buffer.store_eq_copy]
    generalize decimal (number.toNat / 10 ^ decimalDigits) = whole
    generalize fraction decimalDigits number.toNat = digits
    have hover : (b.copy dest (whole ++ [0])).copy (dest + whole.length) (46 :: (digits ++ [0])) =
        b.copy dest (whole ++ 46 :: (digits ++ [0])) := b.copy_copy dest whole (by simp)
    have hsteps : (((b.copy dest (whole ++ [0])).copy (dest + whole.length) [46]).copy
        (dest + whole.length + 1) digits).copy (dest + whole.length + 1 + digits.length) [0] =
          (b.copy dest (whole ++ [0])).copy (dest + whole.length) (46 :: (digits ++ [0])) := by
      rw [← Buffer.copy_append]
      rfl
    rw [List.append_assoc, List.cons_append, ← hover, ← hsteps, List.length_append,
      List.length_cons]
    exact Prod.ext rfl (by dsimp only; omega)

/-! ### Pairs -/

/-- What the forms "x of y" do: the second text goes over what `strncpy` padded with zeros. -/
def copyPair (dest : ℕ) (fst snd : List UInt8) (n : ℕ) (b : Buffer UInt8) : Buffer UInt8 :=
  (strncpy (b.copy dest (fst ++ [0])) (dest + fst.length) ofStr n).copy
    (dest + (fst.length + ofStr.length)) (snd ++ [0])

theorem fracCkbTupleToStringIndirect_eq {buffSize : UInt32} (h : 45 ≤ buffSize.toNat) (dest : ℕ)
    (tuple : UInt64 × UInt64) (b : Buffer UInt8) :
    fracCkbTupleToStringIndirect dest buffSize tuple b =
      (copyPair dest (amount tuple.1.toNat) (amount tuple.2.toNat)
        (sizeSub buffSize (amount tuple.1.toNat).length) b, none) := by
  have hguard : ¬ buffSize.toNat < 2 * maxIntDigits + ofStr.length + 1 := by
    simp only [maxIntDigits, ofStr, List.length_cons, List.length_nil]
    omega
  rw [fracCkbTupleToStringIndirect, if_neg hguard, fracCkbToString_eq]
  dsimp only
  rw [fracCkbToString_eq]
  rfl

theorem uint64TupleToString_eq (dest : ℕ) (buffSize : UInt32) (tuple : UInt64 × UInt64)
    (b : Buffer UInt8) : uint64TupleToString dest buffSize tuple b =
      (copyPair dest (decimal tuple.1.toNat) (decimal tuple.2.toNat)
        (sizeSub buffSize (decimal tuple.1.toNat).length) b, none) := by
  rw [uint64TupleToString, numberToString_eq]
  dsimp only
  rw [numberToString_eq]
  rfl

theorem sizeSub_of_le {size : UInt32} {n : ℕ} (h : n ≤ size.toNat) :
    sizeSub size n = size.toNat - n := by
  have hn : n < 2 ^ 32 := h.trans_lt size.toNat_lt
  have hnat : (UInt32.ofNat n).toNat = n := UInt32.toNat_ofNat_of_lt' hn
  have hle : UInt32.ofNat n ≤ size := by
    rw [UInt32.le_iff_toNat_le, hnat]
    exact h
  rw [sizeSub, UInt32.toNat_sub_of_le _ _ hle, hnat]

/-- With room for " of ", both texts are there. -/
theorem prints_copyPair {fst snd : List UInt8} {n : ℕ} (hf : 0 ∉ fst) (hs : 0 ∉ snd) (hn : 4 ≤ n)
    (dest : ℕ) (b : Buffer UInt8) :
    Prints (copyPair dest fst snd n b) dest (fst ++ ofStr ++ snd) := by
  have htake : ofStr.take n = ofStr := List.take_of_length_le hn
  have hpad : (b.copy dest (fst ++ [0])).copy (dest + fst.length)
      (ofStr ++ List.replicate (n - ofStr.length) 0) =
        b.copy dest ((fst ++ ofStr) ++ List.replicate (n - ofStr.length) 0) := by
    rw [List.append_assoc]
    exact b.copy_copy dest fst (by simp [ofStr])
  constructor
  · simp [hf, hs, ofStr]
  · unfold copyPair strncpy
    rw [htake, hpad, List.length_append, Nat.add_assoc, Buffer.read_append, List.length_append,
      Buffer.read_copy_before _ _ _ le_rfl, ← List.length_append, Buffer.read_copy_prefix,
      List.append_assoc (fst ++ ofStr)]
    congr 1
    have hlen : snd.length + 1 = (snd ++ [0]).length := by simp
    rw [hlen, Buffer.read_copy]

theorem Prints.unique {b : Buffer UInt8} {dest : ℕ} {s t : List UInt8} (hs : Prints b dest s)
    (ht : Prints b dest t) : s = t := by
  wlog h : s.length ≤ t.length generalizing s t
  · exact (this ht hs (Nat.le_of_not_le h)).symm
  · obtain ⟨d, hd⟩ := Nat.exists_eq_add_of_le h
    have hread := ht.2
    rw [hd, Nat.add_right_comm, Buffer.read_append, hs.2] at hread
    cases d with
    | zero => simpa [Buffer.read] using hread
    | succ d =>
      have hmem : (0 : UInt8) ∈ t := by
        have hget := congrArg (fun l => l[s.length]?) hread
        have hlt : s.length < t.length := by omega
        simp only [List.append_assoc, List.getElem?_append_right le_rfl, Nat.sub_self,
          List.getElem?_append_left hlt] at hget
        exact List.mem_of_getElem? hget.symm
      exact absurd hmem ht.1

/-! ### Amounts and pairs print exactly -/

/-- The text is the canonical decimal of an amount in hundred millionths. -/
structure ShowsAmount (text : List UInt8) (n : ℕ) : Prop where
  value : decimalValue text = (n : ℚ) / 10 ^ decimalDigits
  canonical : ∃ whole fraction, CanonicalDecimal text whole fraction
  point : 46 ∈ text ↔ n % 10 ^ decimalDigits ≠ 0

/-- The text is the canonical decimal of a count. -/
structure ShowsCount (text : List UInt8) (n : ℕ) : Prop where
  value : digitsValue text = n
  canonical : CanonicalDecimal text text []

theorem not_mem_decimal {n : ℕ} {c : UInt8} (hc : ¬ IsDigit c) : c ∉ decimal n :=
  fun h => hc (isDigit_of_mem_decimal h)

theorem not_mem_amount {n : ℕ} {c : UInt8} (hc : ¬ IsDigit c) (hp : c ≠ 46) : c ∉ amount n := by
  intro h
  rcases mem_fixedPoint h with h | h
  · exact hc h
  · exact hp h

theorem showsAmount_amount (n : ℕ) : ShowsAmount (amount n) n := by
  refine ⟨decimalValue_fixedPoint _ n, ⟨_, _, canonical_fixedPoint _ n⟩, ?_⟩
  have hwhole : 46 ∉ decimal (n / 10 ^ decimalDigits) := not_mem_decimal (by decide)
  unfold amount fixedPoint
  by_cases h : n % 10 ^ decimalDigits = 0 <;> simp [h, hwhole]

theorem showsCount_decimal (n : ℕ) : ShowsCount (decimal n) n := by
  refine ⟨digitsValue_decimal n, ?_⟩
  have hcanonical := canonical_fixedPoint 0 n
  simpa [fixedPoint, Nat.mod_one] using hcanonical

theorem prints_fracCkbToString (dest : ℕ) (number : UInt64) (b : Buffer UInt8) :
    Prints (fracCkbToString dest number b).1 dest (amount number.toNat) := by
  rw [fracCkbToString_eq]
  exact prints_copy (not_mem_amount (by decide) (by decide)) dest b

/-- The pair of amounts is refused where it might not fit. -/
theorem fracCkbTuple_returns_iff (dest : ℕ) {buffSize : UInt32} (tuple : UInt64 × UInt64)
    (b : Buffer UInt8) :
    (fracCkbTupleToStringIndirect dest buffSize tuple b).2 = none ↔ 45 ≤ buffSize.toNat := by
  constructor
  · intro h
    by_contra hlt
    have hguard : buffSize.toNat < 2 * maxIntDigits + ofStr.length + 1 := Nat.not_le.mp hlt
    rw [fracCkbTupleToStringIndirect, if_pos hguard] at h
    cases h
  · intro h
    rw [fracCkbTupleToStringIndirect_eq h]

theorem prints_fracCkbTuple {buffSize : UInt32} (h : 45 ≤ buffSize.toNat) (dest : ℕ)
    (tuple : UInt64 × UInt64) (b : Buffer UInt8) :
    Prints (fracCkbTupleToStringIndirect dest buffSize tuple b).1 dest
      (amount tuple.1.toNat ++ ofStr ++ amount tuple.2.toNat) := by
  have hle := length_amount_le tuple.1
  rw [fracCkbTupleToStringIndirect_eq h]
  apply prints_copyPair
  · exact not_mem_amount (by decide) (by decide)
  · exact not_mem_amount (by decide) (by decide)
  · rw [sizeSub_of_le (by omega)]
    omega

theorem prints_uint64Tuple {buffSize : UInt32} (h : 24 ≤ buffSize.toNat) (dest : ℕ)
    (tuple : UInt64 × UInt64) (b : Buffer UInt8) :
    Prints (uint64TupleToString dest buffSize tuple b).1 dest
      (decimal tuple.1.toNat ++ ofStr ++ decimal tuple.2.toNat) := by
  have hle := length_decimal_le_maxIntDigits tuple.1
  unfold maxIntDigits at hle
  rw [uint64TupleToString_eq]
  apply prints_copyPair
  · exact not_mem_decimal (by decide)
  · exact not_mem_decimal (by decide)
  · rw [sizeSub_of_le (by omega)]
    omega

/-- Where the first text has no blank, a pair is read back. -/
theorem pair_inj {s s' t t' : List UInt8} (hs : 32 ∉ s) (hs' : 32 ∉ s')
    (h : s ++ ofStr ++ t = s' ++ ofStr ++ t') : s = s' ∧ t = t' := by
  have htake : ∀ {r u : List UInt8}, 32 ∉ r → (r ++ ofStr ++ u).takeWhile (· ≠ 32) = r := by
    intro r u hr
    have hne : ∀ c ∈ r, decide (c ≠ 32) = true := by
      intro c hc
      have hc32 : c ≠ 32 := by
        rintro rfl
        exact hr hc
      simpa using hc32
    rw [List.append_assoc, List.takeWhile_append_of_pos hne]
    simp [ofStr]
  have hst : s = s' := by rw [← @htake s t hs, h, htake hs']
  subst hst
  exact ⟨rfl, List.append_cancel_left h⟩

/-- Amounts are printed exactly, alone and in pairs, and so are counts; what is printed says
which they were. -/
theorem amounts_printed_exactly :
    (∀ (dest : ℕ) (number : UInt64) (b : Buffer UInt8), ∃ text, ShowsAmount text number.toNat ∧
      (fracCkbToString dest number b).2 = text.length ∧
        Prints (fracCkbToString dest number b).1 dest text) ∧
    (∀ dest buffSize tuple b,
      ((fracCkbTupleToStringIndirect dest buffSize tuple b).2 = none ↔ 45 ≤ buffSize.toNat) ∧
      (45 ≤ buffSize.toNat → ∃ x y, ShowsAmount x tuple.1.toNat ∧ ShowsAmount y tuple.2.toNat ∧
        Prints (fracCkbTupleToStringIndirect dest buffSize tuple b).1 dest (x ++ ofStr ++ y))) ∧
    (∀ dest buffSize tuple b, (uint64TupleToString dest buffSize tuple b).2 = none ∧
      (24 ≤ buffSize.toNat → ∃ x y, ShowsCount x tuple.1.toNat ∧ ShowsCount y tuple.2.toNat ∧
        Prints (uint64TupleToString dest buffSize tuple b).1 dest (x ++ ofStr ++ y))) ∧
    (∀ dest m n b b' text, Prints (fracCkbToString dest m b).1 dest text →
      Prints (fracCkbToString dest n b').1 dest text → m = n) ∧
    (∀ (dest : ℕ) (buffSize : UInt32) s t b b' text, 45 ≤ buffSize.toNat →
      Prints (fracCkbTupleToStringIndirect dest buffSize s b).1 dest text →
        Prints (fracCkbTupleToStringIndirect dest buffSize t b').1 dest text → s = t) ∧
    (∀ (dest : ℕ) (buffSize : UInt32) s t b b' text, 24 ≤ buffSize.toNat →
      Prints (uint64TupleToString dest buffSize s b).1 dest text →
        Prints (uint64TupleToString dest buffSize t b').1 dest text → s = t) := by
  refine ⟨?_, ?_, ?_, ?_, ?_, ?_⟩
  · intro dest number b
    refine ⟨_, showsAmount_amount _, ?_, prints_fracCkbToString dest number b⟩
    rw [fracCkbToString_eq]
  · intro dest buffSize tuple b
    refine ⟨fracCkbTuple_returns_iff dest tuple b, fun h => ?_⟩
    exact ⟨_, _, showsAmount_amount _, showsAmount_amount _, prints_fracCkbTuple h dest tuple b⟩
  · intro dest buffSize tuple b
    refine ⟨by rw [uint64TupleToString_eq], fun h => ?_⟩
    exact ⟨_, _, showsCount_decimal _, showsCount_decimal _, prints_uint64Tuple h dest tuple b⟩
  · intro dest m n b b' text hm hn
    have heq := (hm.unique (prints_fracCkbToString dest m b)).symm.trans
      (hn.unique (prints_fracCkbToString dest n b'))
    exact UInt64.toNat_inj.mp (fixedPoint_inj heq)
  · intro dest buffSize s t b b' text h hs ht
    have heq := (hs.unique (prints_fracCkbTuple h dest s b)).symm.trans
      (ht.unique (prints_fracCkbTuple h dest t b'))
    obtain ⟨h1, h2⟩ := pair_inj (not_mem_amount (by decide) (by decide))
      (not_mem_amount (by decide) (by decide)) heq
    apply Prod.ext
    · exact UInt64.toNat_inj.mp (fixedPoint_inj h1)
    · exact UInt64.toNat_inj.mp (fixedPoint_inj h2)
  · intro dest buffSize s t b b' text h hs ht
    have heq := (hs.unique (prints_uint64Tuple h dest s b)).symm.trans
      (ht.unique (prints_uint64Tuple h dest t b'))
    obtain ⟨h1, h2⟩ := pair_inj (not_mem_decimal (by decide)) (not_mem_decimal (by decide)) heq
    exact Prod.ext (UInt64.toNat_inj.mp (decimal_inj h1)) (UInt64.toNat_inj.mp (decimal_inj h2))

/-- Zeroed memory. -/
def zeroBuffer : Buffer UInt8 := ⟨fun _ => 0, ∅⟩

/-- The largest amount of 1.5 CKB, and input 2 of 12, in the value buffer; the texts of 1.5 CKB, of
1.5 CKB of 2 CKB and of input 2 of 12 are not those of other numbers. -/
theorem largestPair_printed :
    (fracCkbTupleToStringIndirect 0 (valueWidth + 1) (18446744073709551615, 150000000)
      zeroBuffer).2 = none ∧
    (∃ x y, ShowsAmount x 18446744073709551615 ∧ ShowsAmount y 150000000 ∧
      Prints (fracCkbTupleToStringIndirect 0 (valueWidth + 1) (18446744073709551615, 150000000)
        zeroBuffer).1 0 (x ++ ofStr ++ y)) ∧
    (∃ x y, ShowsCount x 2 ∧ ShowsCount y 12 ∧
      Prints (uint64TupleToString 0 (valueWidth + 1) (2, 12) zeroBuffer).1 0 (x ++ ofStr ++ y)) ∧
    ¬ Prints (fracCkbToString 0 15 zeroBuffer).1 0 [49, 46, 53] ∧
    ¬ Prints (fracCkbTupleToStringIndirect 0 (valueWidth + 1) (15, 2) zeroBuffer).1 0
      [49, 46, 53, 32, 111, 102, 32, 50] ∧
    ¬ Prints (uint64TupleToString 0 (valueWidth + 1) (12, 2) zeroBuffer).1 0
      [50, 32, 111, 102, 32, 49, 50] := by
  obtain ⟨-, hpair, hcounts, hamount, hpairs, hinputs⟩ := amounts_printed_exactly
  obtain ⟨hreturns, hshows⟩ := hpair 0 (valueWidth + 1) (18446744073709551615, 150000000) zeroBuffer
  refine ⟨hreturns.mpr (by decide), hshows (by decide), ?_, ?_, ?_, ?_⟩
  · exact (hcounts 0 (valueWidth + 1) (2, 12) zeroBuffer).2 (by decide)
  · intro h
    have heq := hamount 0 15 150000000 zeroBuffer zeroBuffer _ h ⟨by decide, by decide⟩
    exact absurd heq (by decide)
  · intro h
    have heq := hpairs 0 (valueWidth + 1) (15, 2) (150000000, 200000000) zeroBuffer zeroBuffer _
      (by decide) h ⟨by decide, by decide⟩
    exact absurd heq (by decide)
  · intro h
    have heq := hinputs 0 (valueWidth + 1) (12, 2) (2, 12) zeroBuffer zeroBuffer _ (by decide) h
      ⟨by decide, by decide⟩
    exact absurd heq (by decide)

end NervosLedger
