import NervosLedger.Machine.Bits
import Mathlib.Logic.Function.Iterate

/-!
# Bech32m

The checksum of a bech32m string, which is linear over exclusive or, and a decoder.
-/
namespace NervosLedger.Machine

/-! ### The checksum -/

/-- A generator, where bit `i` is set. -/
def tap (c : UInt32) (i : ℕ) (g : UInt32) : UInt32 := if c.toNat.testBit i then g else 0

/-- Multiplication by `x` modulo the generator polynomial. -/
def polymodStep (c : UInt32) : UInt32 :=
  ((c &&& 0x1FFFFFF) <<< 5) ^^^ tap c 25 0x3b6a57b2 ^^^ tap c 26 0x26508e6d ^^^
    tap c 27 0x1ea119fa ^^^ tap c 28 0x3d4233dd ^^^ tap c 29 0x2a1462b3

def polymodFrom (c : UInt32) (values : List UInt8) : UInt32 :=
  values.foldl (fun c v => polymodStep c ^^^ v.toUInt32) c

def polymod (values : List UInt8) : UInt32 := polymodFrom 1 values

def bech32mConst : UInt32 := 0x2bc830a3

/-- The values that stand for a human-readable part. -/
def expandHrp (hrp : List UInt8) : List UInt8 := 
  hrp.map (fun c : UInt8 => c >>> (5 : UInt8)) ++ 0 :: hrp.map fun c : UInt8 => c &&& 31

/-- The six symbols of a checksum. -/
def checksumSymbols (x : UInt32) : List UInt8 :=
  (List.range 6).map fun i => ((x >>> UInt32.ofNat ((5 - i) * 5)) &&& 31).toUInt8

theorem tap_xor (a b : UInt32) (i : ℕ) (g : UInt32) :
    tap (a ^^^ b) i g = tap a i g ^^^ tap b i g := by
  unfold tap
  rw [UInt32.toNat_xor, Nat.testBit_xor]
  cases a.toNat.testBit i <;> cases b.toNat.testBit i <;> simp

theorem shift_xor (a b : UInt32) : ((a ^^^ b) &&& 0x1FFFFFF) <<< 5 =
    ((a &&& 0x1FFFFFF) <<< 5) ^^^ ((b &&& 0x1FFFFFF) <<< 5) := by
  apply UInt32.toBitVec_inj.mp
  apply BitVec.eq_of_getLsbD_eq
  intro i hi
  simp only [UInt32.toBitVec_shiftLeft, UInt32.toBitVec_and, UInt32.toBitVec_xor,
    BitVec.getLsbD_xor]
  simp
  generalize a.toBitVec.getLsbD (i - 5) = x
  generalize b.toBitVec.getLsbD (i - 5) = y
  cases x <;> cases y <;> simp

theorem polymodStep_xor (a b : UInt32) :
    polymodStep (a ^^^ b) = polymodStep a ^^^ polymodStep b := by
  unfold polymodStep
  rw [shift_xor, tap_xor, tap_xor, tap_xor, tap_xor, tap_xor]
  ac_rfl

/-- A checksum goes on as that of zeros, changed by that of the values alone. -/
theorem polymodFrom_xor (a b : UInt32) (values : List UInt8) :
    polymodFrom (a ^^^ b) values =
      polymodStep^[values.length] a ^^^ polymodFrom b values := by
  induction values generalizing a b with
  | nil => rfl
  | cons v values ih =>
    have hcons : polymodFrom (a ^^^ b) (v :: values) =
        polymodFrom (polymodStep (a ^^^ b) ^^^ v.toUInt32) values := rfl
    rw [hcons, polymodStep_xor, UInt32.xor_assoc, ih]
    rfl

theorem polymodFrom_append (c : UInt32) (us vs : List UInt8) :
    polymodFrom c (us ++ vs) = polymodFrom (polymodFrom c us) vs := List.foldl_append

/-! ### Small values -/

theorem tap_of_lt {c : UInt32} {i : ℕ} (h : c.toNat < 2 ^ i) (g : UInt32) : tap c i g = 0 := by
  rw [tap, Nat.testBit_lt_two_pow h]
  rfl

theorem toNat_polymodStep_lt (c : UInt32) : (polymodStep c).toNat < 2 ^ 30 := by
  have htap : ∀ i (g : UInt32), g.toNat < 2 ^ 30 → (tap c i g).toNat < 2 ^ 30 := by
    intro i g hg
    unfold tap
    split
    · exact hg
    · decide
  have hshift : ((c &&& 0x1FFFFFF) <<< 5).toNat < 2 ^ 30 := by
    have hmask : (c &&& 0x1FFFFFF).toNat < 2 ^ 25 := by
      rw [UInt32.toNat_and]
      exact Nat.and_lt_two_pow _ (by decide)
    rw [UInt32.toNat_shiftLeft, Nat.shiftLeft_eq]
    refine (Nat.mod_le _ _).trans_lt ?_
    have h5 : 2 ^ (UInt32.toNat 5 % 32) = 32 := rfl
    rw [h5]
    omega
  unfold polymodStep
  simp only [UInt32.toNat_xor]
  repeat' apply Nat.xor_lt_two_pow
  · exact hshift
  all_goals exact htap _ _ (by decide)

/-- Below its degree the polynomial is only shifted. -/
theorem polymodStep_of_lt {c : UInt32} (h : c.toNat < 2 ^ 25) : polymodStep c = c <<< 5 := by
  have hmask : c &&& 0x1FFFFFF = c := by
    apply UInt32.toNat_inj.mp
    have h25 : UInt32.toNat 0x1FFFFFF = 2 ^ 25 - 1 := rfl
    rw [UInt32.toNat_and, h25, Nat.and_two_pow_sub_one_eq_mod, Nat.mod_eq_of_lt h]
  have htap : ∀ i (g : UInt32), 25 ≤ i → tap c i g = 0 := fun i g hi =>
    tap_of_lt (h.trans_le (Nat.pow_le_pow_right (by decide) hi)) g
  simp [polymodStep, hmask, htap]

theorem toNat_shift_xor {c : UInt32} {v : UInt8} (hc : c.toNat < 2 ^ 25) (hv : v.toNat < 32) :
    (c <<< 5 ^^^ v.toUInt32).toNat = 32 * c.toNat + v.toNat := by
  have hshift : (c <<< 5).toNat = 2 ^ 5 * c.toNat := by
    have h5 : UInt32.toNat 5 % 32 = 5 := rfl
    rw [UInt32.toNat_shiftLeft, Nat.shiftLeft_eq, h5]
    omega
  rw [UInt32.toNat_xor, hshift, UInt8.toNat_toUInt32]
  apply Nat.eq_of_testBit_eq
  intro i
  have hv5 : v.toNat < 2 ^ 5 := hv
  have hzero : (2 ^ 5 * c.toNat).testBit i = if i < 5 then false else c.toNat.testBit (i - 5) := by
    simpa using Nat.testBit_two_pow_mul_add c.toNat (by decide : 0 < 2 ^ 5) i
  have hsum : (32 * c.toNat + v.toNat).testBit i =
      if i < 5 then v.toNat.testBit i else c.toNat.testBit (i - 5) :=
    Nat.testBit_two_pow_mul_add c.toNat hv5 i
  rw [Nat.testBit_xor, hzero, hsum]
  split
  · simp
  · rename_i hi
    have hlt : v.toNat < 2 ^ i :=
      hv5.trans_le (Nat.pow_le_pow_right (by decide) (Nat.not_lt.mp hi))
    simp [Nat.testBit_lt_two_pow hlt]

/-- Up to six symbols are only put together. -/
theorem toNat_polymodFrom {values : List UInt8} {c : UInt32} (hv : ∀ v ∈ values, v.toNat < 32)
    (hlen : values.length ≤ 6) (hc : c.toNat < 32 ^ (6 - values.length)) :
    (polymodFrom c values).toNat = values.foldl (fun n v => 32 * n + v.toNat) c.toNat := by
  induction values generalizing c with
  | nil => rfl
  | cons v values ih =>
    rw [List.length_cons] at hlen hc
    have hc25 : c.toNat < 2 ^ 25 := by
      refine hc.trans_le ?_
      have hpow : 32 ^ (6 - (values.length + 1)) ≤ 32 ^ 5 :=
        Nat.pow_le_pow_right (by decide) (by omega)
      exact hpow
    have hstep := toNat_shift_xor hc25 (hv v (by simp))
    have hcons : polymodFrom c (v :: values) =
        polymodFrom (polymodStep c ^^^ v.toUInt32) values := rfl
    have hnext : 32 ^ (6 - values.length) = 32 * 32 ^ (6 - (values.length + 1)) := by
      rw [← Nat.pow_succ']
      congr 1
      omega
    rw [hcons, polymodStep_of_lt hc25, ih (fun u hu => hv u (List.mem_cons_of_mem _ hu)) (by omega)
      (by have := hv v (by simp); omega), List.foldl_cons, hstep]

/-! ### The six symbols close the checksum -/

theorem toNat_symbol (x : UInt32) {k : ℕ} (hk : k < 32) :
    ((x >>> UInt32.ofNat k) &&& 31).toUInt8.toNat = x.toNat / 2 ^ k % 32 := by
  have h31 : UInt32.toNat 31 = 2 ^ 5 - 1 := rfl
  have hofNat : (UInt32.ofNat k).toNat = k := UInt32.toNat_ofNat_of_lt' (hk.trans (by decide))
  rw [UInt32.toNat_toUInt8, UInt32.toNat_and, UInt32.toNat_shiftRight, h31,
    Nat.and_two_pow_sub_one_eq_mod, hofNat, Nat.mod_eq_of_lt hk, Nat.shiftRight_eq_div_pow]
  omega

@[simp] theorem length_checksumSymbols (x : UInt32) : (checksumSymbols x).length = 6 := by
  simp [checksumSymbols]

theorem checksumSymbols_lt {x : UInt32} {v : UInt8} (h : v ∈ checksumSymbols x) :
    v.toNat < 32 := by
  obtain ⟨i, hi, rfl⟩ := List.mem_map.mp h
  rw [toNat_symbol x (by omega)]
  exact Nat.mod_lt _ (by decide)

theorem polymodFrom_zero_checksumSymbols {x : UInt32} (hx : x.toNat < 2 ^ 30) :
    polymodFrom 0 (checksumSymbols x) = x := by
  apply UInt32.toNat_inj.mp
  rw [toNat_polymodFrom (fun v => checksumSymbols_lt) (by simp) (by simp)]
  have hrange : List.range 6 = [0, 1, 2, 3, 4, 5] := rfl
  simp only [checksumSymbols, hrange, List.map_cons, List.map_nil, List.foldl_cons, List.foldl_nil,
    UInt32.toNat_zero]
  rw [toNat_symbol x (by decide), toNat_symbol x (by decide), toNat_symbol x (by decide),
    toNat_symbol x (by decide), toNat_symbol x (by decide), toNat_symbol x (by decide)]
  omega

theorem polymodFrom_checksum (c : UInt32) :
    polymodFrom c (checksumSymbols (polymodStep^[6] c ^^^ bech32mConst)) = bech32mConst := by
  have hx : (polymodStep^[6] c ^^^ bech32mConst).toNat < 2 ^ 30 := by
    rw [UInt32.toNat_xor, Function.iterate_succ_apply']
    exact Nat.xor_lt_two_pow (toNat_polymodStep_lt _) (by decide)
  have hsplit := polymodFrom_xor c 0 (checksumSymbols (polymodStep^[6] c ^^^ bech32mConst))
  rw [UInt32.xor_zero, length_checksumSymbols, polymodFrom_zero_checksumSymbols hx,
    ← UInt32.xor_assoc, UInt32.xor_self, UInt32.zero_xor] at hsplit
  exact hsplit

/-- The checksum of data under a human-readable part. -/
def checksum (hrp data : List UInt8) : List UInt8 :=
  checksumSymbols (polymodStep^[6] (polymod (expandHrp hrp ++ data)) ^^^ bech32mConst)

theorem polymod_checksum (hrp data : List UInt8) :
    polymod (expandHrp hrp ++ (data ++ checksum hrp data)) = bech32mConst := by
  rw [← List.append_assoc, polymod, polymodFrom_append]
  exact polymodFrom_checksum _

/-! ### Decoding -/

/-- "qpzry9x8gf2tvdw0s3jn54khce6mua7l". -/
def bech32Charset : List UInt8 :=
  [113, 112, 122, 114, 121, 57, 120, 56, 103, 102, 50, 116, 118, 100, 119, 48,
    115, 51, 106, 110, 53, 52, 107, 104, 99, 101, 54, 109, 117, 97, 55, 108]

def symbolChar (v : UInt8) : UInt8 := bech32Charset.getD v.toNat 0

def symbolOf (c : UInt8) : Option UInt8 := (bech32Charset.idxOf? c).map UInt8.ofNat

/-- The human-readable part and the data of a bech32m string, in small letters. -/
def bech32mDecode (text : List UInt8) : Option (List UInt8 × List UInt8) :=
  let tail := (text.reverse.takeWhile (· ≠ 49)).reverse
  let hrp := text.take (text.length - (tail.length + 1))
  if text.all fun c => 33 ≤ c && c ≤ 126 && !(65 ≤ c && c ≤ 90) then
    match tail.mapM symbolOf with
    | none => none
    | some values =>
      if 1 ≤ hrp.length ∧ hrp.length + 1 + tail.length = text.length ∧ 6 ≤ values.length ∧
          polymod (expandHrp hrp ++ values) = bech32mConst then
        some (hrp, values.take (values.length - 6))
      else none
  else none

/-- A character that may stand in a string in small letters. -/
def IsBech32Char (c : UInt8) : Prop := (33 ≤ c && c ≤ 126 && !(65 ≤ c && c ≤ 90)) = true

/-- The string of a human-readable part and data. -/
def bech32mText (hrp data : List UInt8) : List UInt8 :=
  hrp ++ 49 :: (data ++ checksum hrp data).map symbolChar

theorem symbolChar_spec (v : UInt8) : v.toNat < 32 → symbolOf (symbolChar v) = some v ∧
    symbolChar v ≠ 49 ∧ symbolChar v ≠ 0 ∧ IsBech32Char (symbolChar v) := by
  unfold IsBech32Char
  revert v
  apply forall_byte
  decide +kernel

theorem mapM_symbolOf {values : List UInt8} (h : ∀ v ∈ values, v.toNat < 32) :
    (values.map symbolChar).mapM symbolOf = some values := by
  induction values with
  | nil => rfl
  | cons v values ih =>
    have hv := (symbolChar_spec v (h v (by simp))).1
    have hrest := ih fun u hu => h u (List.mem_cons_of_mem _ hu)
    simp [List.mapM_cons, hv, hrest]

/-- A string that is put together so is decoded. -/
theorem bech32mDecode_bech32mText {hrp data : List UInt8} (hne : hrp ≠ [])
    (hhrp : ∀ c ∈ hrp, IsBech32Char c) (hdata : ∀ v ∈ data, v.toNat < 32) :
    bech32mDecode (bech32mText hrp data) = some (hrp, data) := by
  have hvalues : ∀ v ∈ data ++ checksum hrp data, v.toNat < 32 := by
    intro v hv
    rcases List.mem_append.mp hv with hv | hv
    · exact hdata v hv
    · exact checksumSymbols_lt hv
  have hsum := polymod_checksum hrp data
  have hlen : (data ++ checksum hrp data).length = data.length + 6 := by simp [checksum]
  have htake : (data ++ checksum hrp data).take data.length = data := List.take_left
  have hmap := mapM_symbolOf hvalues
  unfold bech32mText
  generalize data ++ checksum hrp data = values at *
  have hchars : ∀ c ∈ (values.map symbolChar).reverse, decide (c ≠ 49) = true := by
    intro c hc
    obtain ⟨v, hv, rfl⟩ := List.mem_map.mp (List.mem_reverse.mp hc)
    simpa using (symbolChar_spec v (hvalues v hv)).2.1
  have htail : ((hrp ++ 49 :: values.map symbolChar).reverse.takeWhile (· ≠ 49)).reverse =
      values.map symbolChar := by
    rw [List.reverse_append, List.reverse_cons, List.append_assoc,
      List.takeWhile_append_of_pos hchars]
    simp
  have hall : (hrp ++ 49 :: values.map symbolChar).all
      (fun c => 33 ≤ c && c ≤ 126 && !(65 ≤ c && c ≤ 90)) = true := by
    apply List.all_eq_true.mpr
    intro c hc
    rcases List.mem_append.mp hc with hc | hc
    · exact hhrp c hc
    · rcases List.mem_cons.mp hc with rfl | hc
      · decide
      · obtain ⟨v, hv, rfl⟩ := List.mem_map.mp hc
        exact (symbolChar_spec v (hvalues v hv)).2.2.2
  have hhrp' : (hrp ++ 49 :: values.map symbolChar).take
      ((hrp ++ 49 :: values.map symbolChar).length - ((values.map symbolChar).length + 1)) = hrp := by
    rw [List.length_append, List.length_cons, Nat.add_sub_cancel, List.take_left]
  have hpos : 1 ≤ hrp.length := List.length_pos_iff.mpr hne
  have hconds : 1 ≤ hrp.length ∧ hrp.length + 1 + (values.map symbolChar).length =
      (hrp ++ 49 :: values.map symbolChar).length ∧ 6 ≤ values.length ∧
        polymod (expandHrp hrp ++ values) = bech32mConst := by
    refine ⟨hpos, ?_, by omega, hsum⟩
    rw [List.length_append, List.length_cons]
    omega
  simp only [bech32mDecode, htail, hhrp', if_pos hall, hmap, if_pos hconds]
  rw [hlen, Nat.add_sub_cancel, htake]

/-- The bytes that 5-bit symbols stand for, when what is left over is padding. -/
def regroup (symbols : List UInt8) : Option (List UInt8) :=
  let (bytes, rest) := toBytes (bitsOfAll 5 symbols)
  if rest.length < 5 ∧ rest.all (!·) then some bytes else none

theorem regroup_eq {symbols bytes : List UInt8} {pad : ℕ} (hpad : pad < 5)
    (h : bitsOfAll 5 symbols = bitsOfAll 8 bytes ++ List.replicate pad false) :
    regroup symbols = some bytes := by
  have hshort : (List.replicate pad false).length < 8 := by
    rw [List.length_replicate]
    omega
  simp [regroup, h, toBytes_bitsOfAll bytes hshort, hpad]

end NervosLedger.Machine
