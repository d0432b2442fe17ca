import NervosLedger.Message
import NervosLedger.ToString
import Mathlib.Data.Nat.Bitwise

/-!
# Derivation paths on the screen

`bip32_path_to_string` appends one component after the other, and finds the end of what it wrote
with `strlen`.
-/
namespace NervosLedger
open Molecule Machine

def bip32HardenedPathBit : UInt32 := 0x80000000

/-- `bound_check_buffer`. -/
def boundCheckBuffer (counter : ℕ) (size : UInt32) : Bool := counter < size.toNat

/-- `out[offset] = c`, where `offset` is checked. -/
def putChecked (out : ℕ) (outSize : UInt32) (offset : ℕ) (c : UInt8) (b : Buffer UInt8) :
    Buffer UInt8 × Option Exc :=
  if boundCheckBuffer offset outSize then (b.store (out + offset) c, none)
  else (b, some .memoryError)

/-- The loop of `bip32_path_to_string` from component `i` on. -/
def bip32PathLoop (out : ℕ) (outSize : UInt32) (length : ℕ) :
    ℕ → List UInt32 → ℕ → Buffer UInt8 → Formatted
  | _, [], _, b => (b, none)
  | i, c :: components, offset, b =>
    if i < length then
      let isHardened := c &&& bip32HardenedPathBit ≠ 0
      let component := c &&& ~~~bip32HardenedPathBit
      match numberToStringIndirect32 (out + offset) (outSize - UInt32.ofNat offset) component b with
      | (b, some e) => (b, some e)
      | (b, none) =>
        let offset := b.strlen out outSize.toNat
        match (if isHardened then putChecked out outSize offset 39 b else (b, none)) with
        | (b, some e) => (b, some e)
        | (b, none) =>
          let offset := if isHardened then offset + 1 else offset
          match (if i + 1 < length then putChecked out outSize offset 47 b else (b, none)) with
          | (b, some e) => (b, some e)
          | (b, none) =>
            let offset := if i + 1 < length then offset + 1 else offset
            match putChecked out outSize offset 0 b with
            | (b, some e) => (b, some e)
            | (b, none) => bip32PathLoop out outSize length (i + 1) components offset b
    else (b, none)

/-- `bip32_path_to_string` of a path with its length. -/
def bip32PathToString (out : ℕ) (outSize : UInt32) (key : Bip32Path) (b : Buffer UInt8) :
    Formatted :=
  bip32PathLoop out outSize key.length 0 key.components.toList 0 b

/-! ### The text of a path -/

def componentText (c : UInt32) : List UInt8 :=
  decimal (c.toNat % 2 ^ 31) ++ if 2 ^ 31 ≤ c.toNat then [39] else []

def pathText (components : List UInt32) : List UInt8 :=
  List.intercalate [47] (components.map componentText)

/-- Reading a component back. -/
def readComponentText (text : List UInt8) : UInt32 :=
  UInt32.ofNat (digitsValue (text.filter (· ≠ 39)) + if 39 ∈ text then 2 ^ 31 else 0)

def readPathText (text : List UInt8) : List UInt32 := (text.splitOn 47).map readComponentText

theorem readComponentText_componentText (c : UInt32) :
    readComponentText (componentText c) = c := by
  have hno : 39 ∉ decimal (c.toNat % 2 ^ 31) := not_mem_decimal (by decide)
  have hfilter : (decimal (c.toNat % 2 ^ 31)).filter (· ≠ 39) = decimal (c.toNat % 2 ^ 31) := by
    apply List.filter_eq_self.mpr
    intro d hd
    have hne : d ≠ 39 := by
      rintro rfl
      exact hno hd
    simpa using hne
  have hlt := c.toNat_lt
  apply UInt32.toNat_inj.mp
  unfold readComponentText componentText
  split
  · rw [List.filter_append, hfilter]
    simp
    omega
  · rw [List.append_nil, hfilter, if_neg hno, digitsValue_decimal, Nat.add_zero,
      UInt32.toNat_ofNat']
    omega

theorem not_mem_componentText {c : UInt32} {d : UInt8} (hd : ¬ IsDigit d) (h39 : d ≠ 39) :
    d ∉ componentText c := by
  intro h
  rcases List.mem_append.mp h with h | h
  · exact not_mem_decimal hd h
  · split at h
    · exact h39 (List.mem_singleton.mp h)
    · cases h

/-- What is shown of a path is read back. -/
theorem readPathText_pathText {components : List UInt32} (h : components ≠ []) :
    readPathText (pathText components) = components := by
  have hsplit : (pathText components).splitOn 47 = components.map componentText := by
    apply List.splitOn_intercalate
    · intro text ht
      obtain ⟨c, -, rfl⟩ := List.mem_map.mp ht
      exact not_mem_componentText (by decide) (by decide)
    · simpa using h
  rw [readPathText, hsplit, List.map_map]
  conv_rhs => rw [← List.map_id components]
  apply List.map_congr_left
  intro c _
  exact readComponentText_componentText c

/-! ### Appending a component -/

theorem toNat_and_not (c : UInt32) :
    (c &&& ~~~bip32HardenedPathBit).toNat = c.toNat % 2 ^ 31 := by
  have hmask : (~~~bip32HardenedPathBit).toNat = 2 ^ 31 - 1 := rfl
  rw [UInt32.toNat_and, hmask, Nat.and_two_pow_sub_one_eq_mod]

theorem hardened_iff (c : UInt32) : c &&& bip32HardenedPathBit ≠ 0 ↔ 2 ^ 31 ≤ c.toNat := by
  have hbit : bip32HardenedPathBit.toNat = 2 ^ 31 := rfl
  have hlt := c.toNat_lt
  rw [ne_eq, ← UInt32.toNat_inj, UInt32.toNat_and, hbit, Nat.and_two_pow,
    Nat.testBit_eq_decide_div_mod_eq]
  rcases Nat.lt_or_ge c.toNat (2 ^ 31) with h | h
  · have hdiv : c.toNat / 2 ^ 31 % 2 = 0 := by omega
    rw [hdiv]
    exact iff_of_false (fun hne => hne rfl) (Nat.not_le.mpr h)
  · have hdiv : c.toNat / 2 ^ 31 % 2 = 1 := by omega
    rw [hdiv]
    exact iff_of_true (by decide) h

theorem length_componentText_le (c : UInt32) : (componentText c).length ≤ 11 := by
  have hle : (decimal (c.toNat % 2 ^ 31)).length ≤ 10 := length_decimal_le (by decide) (by omega)
  unfold componentText
  rw [List.length_append]
  split
  · rw [List.length_singleton]
    omega
  · rw [List.length_nil]
    omega

/-- The separator after component `i`. -/
def separator (length i : ℕ) : List UInt8 := if i + 1 < length then [47] else []

section Step
variable {out length i : ℕ} {outSize : UInt32} {c : UInt32} {text : List UInt8}
  {b : Buffer UInt8}

theorem putChecked_of_lt {offset : ℕ} (h : offset < outSize.toNat) (d : UInt8) :
    putChecked out outSize offset d b = (b.copy (out + offset) [d], none) := by
  have hcheck : boundCheckBuffer offset outSize = true := by
    simpa [boundCheckBuffer] using h
  rw [putChecked, if_pos hcheck]
  rfl

theorem copy_over_nul (off : ℕ) (xs : List UInt8) (d : UInt8) :
    (b.copy (out + off) (xs ++ [0])).copy (out + (off + xs.length)) [d] =
      b.copy (out + off) (xs ++ [d]) := by
  rw [← Nat.add_assoc]
  exact b.copy_copy _ xs le_rfl

/-- With less than 21 bytes left the formatter throws. -/
theorem bip32PathLoop_full (hi : i < length) (h : outSize.toNat < text.length + 21)
    (hfit : text.length ≤ outSize.toNat) (components : List UInt32) :
    bip32PathLoop out outSize length i (c :: components) text.length b =
      (b, some .wrongLength) := by
  have hsize : (outSize - UInt32.ofNat text.length).toNat < maxIntDigits + 1 := by
    have hsub := sizeSub_of_le hfit
    unfold sizeSub at hsub
    rw [hsub, maxIntDigits]
    omega
  rw [bip32PathLoop, if_pos hi]
  simp only [numberToStringIndirect32, if_pos hsize]

/-- With 21 bytes left a component is appended. -/
theorem bip32PathLoop_step (hi : i < length) (h : text.length + 21 ≤ outSize.toNat)
    (h0 : 0 ∉ text) (hb : b.read out text.length = text) (components : List UInt32) :
    bip32PathLoop out outSize length i (c :: components) text.length b =
      bip32PathLoop out outSize length (i + 1) components
        (text ++ componentText c ++ separator length i).length
        (b.copy (out + text.length) (componentText c ++ separator length i ++ [0])) := by
  have hsub : sizeSub outSize text.length = _ := sizeSub_of_le (by omega)
  unfold sizeSub at hsub
  have hguard : ¬ (outSize - UInt32.ofNat text.length).toNat < maxIntDigits + 1 := by
    rw [hsub, maxIntDigits]
    omega
  have hdigits : ((c &&& ~~~bip32HardenedPathBit).toUInt64).toNat = c.toNat % 2 ^ 31 := by
    rw [UInt32.toNat_toUInt64, toNat_and_not]
  have hle : (decimal (c.toNat % 2 ^ 31)).length ≤ 10 := length_decimal_le (by decide) (by omega)
  have hno : 0 ∉ decimal (c.toNat % 2 ^ 31) := not_mem_decimal (by decide)
  rw [bip32PathLoop, if_pos hi]
  simp only [numberToStringIndirect32, if_neg hguard, numberToString_eq, hdigits, hardened_iff]
  unfold componentText separator
  generalize decimal (c.toNat % 2 ^ 31) = digits at hle hno ⊢
  have hstrlen : (b.copy (out + text.length) (digits ++ [0])).strlen out outSize.toNat =
      text.length + digits.length := by
    rw [← List.length_append]
    apply Buffer.strlen_eq
    · rw [List.mem_append]
      exact fun hmem => hmem.elim h0 hno
    · rw [List.length_append, Nat.add_assoc, Buffer.read_append,
        Buffer.read_copy_before _ _ _ le_rfl, hb, List.append_assoc]
      congr 1
      have hl : digits.length + 1 = (digits ++ [0]).length := by simp
      rw [hl, Buffer.read_copy]
    · rw [List.length_append]
      omega
  have h1 : text.length + digits.length < outSize.toNat := by omega
  have h2 : text.length + digits.length + 1 < outSize.toNat := by omega
  have h3 : text.length + digits.length + 1 + 1 < outSize.toNat := by omega
  rw [hstrlen]
  by_cases hh : 2 ^ 31 ≤ c.toNat
  · by_cases hs : i + 1 < length
    · simp only [hh, hs, if_true, putChecked_of_lt h1, putChecked_of_lt h2, putChecked_of_lt h3,
        copy_over_nul]
      rw [Buffer.copy_append _ _ (digits ++ [39] ++ [47]), Buffer.copy_append _ _ (digits ++ [39])]
      simp [Nat.add_assoc]
    · simp only [hh, hs, if_true, if_false, putChecked_of_lt h1, putChecked_of_lt h2,
        copy_over_nul, List.append_nil]
      rw [Buffer.copy_append _ _ (digits ++ [39])]
      simp [Nat.add_assoc]
  · by_cases hs : i + 1 < length
    · simp only [hh, hs, if_true, if_false, putChecked_of_lt h1, putChecked_of_lt h2,
        copy_over_nul, List.append_nil]
      rw [Buffer.copy_append _ _ (digits ++ [47])]
      simp [Nat.add_assoc]
    · simp only [hh, hs, if_false, putChecked_of_lt h1, copy_over_nul, List.append_nil]
      simp

end Step

/-! ### All components -/

/-- What the loop writes from component `i` on. -/
def shownFrom (length : ℕ) : ℕ → List UInt32 → List UInt8
  | _, [] => []
  | i, c :: components =>
    if i < length then
      componentText c ++ separator length i ++ shownFrom length (i + 1) components
    else []

theorem length_piece_le (c : UInt32) (length i : ℕ) :
    (componentText c ++ separator length i).length ≤ 12 := by
  have hlen := length_componentText_le c
  rw [List.length_append]
  unfold separator
  split
  · rw [List.length_singleton]
    omega
  · rw [List.length_nil]
    omega

theorem not_mem_piece (c : UInt32) (length i : ℕ) :
    0 ∉ componentText c ++ separator length i := by
  intro h
  rcases List.mem_append.mp h with h | h
  · exact not_mem_componentText (by decide) (by decide) h
  · unfold separator at h
    split at h
    · exact absurd (List.mem_singleton.mp h) (by decide)
    · cases h

theorem read_after_piece {out : ℕ} {text piece : List UInt8} {b : Buffer UInt8}
    (hb : b.read out text.length = text) :
    (b.copy (out + text.length) (piece ++ [0])).read out (text ++ piece).length =
      text ++ piece := by
  rw [List.length_append, Buffer.read_append, Buffer.read_copy_before _ _ _ le_rfl, hb,
    Buffer.read_copy_prefix]

/-- The loop throws or stays below the size. -/
theorem bip32PathLoop_below {length : ℕ} {outSize : UInt32} (components : List UInt32) {i : ℕ}
    {text : List UInt8} {b : Buffer UInt8} (hfit : text.length ≤ outSize.toNat) (h0 : 0 ∉ text)
    (hb : b.read 0 text.length = text) (hbelow : b.Below outSize.toNat) :
    (bip32PathLoop 0 outSize length i components text.length b).2 ≠ none ∨
      (bip32PathLoop 0 outSize length i components text.length b).1.Below outSize.toNat := by
  induction components generalizing i text b with
  | nil => exact .inr hbelow
  | cons c components ih =>
    rcases Nat.lt_or_ge i length with hi | hi
    · rcases Nat.lt_or_ge outSize.toNat (text.length + 21) with hfull | hroom
      · rw [bip32PathLoop_full hi hfull hfit]
        exact .inl nofun
      · rw [bip32PathLoop_step hi hroom h0 hb]
        have hpiece := length_piece_le c length i
        simp only [List.append_assoc text]
        apply ih
        · rw [List.length_append]
          omega
        · rw [List.mem_append]
          exact fun hmem => hmem.elim h0 (not_mem_piece c length i)
        · exact read_after_piece hb
        · rw [Buffer.below_copy_iff (by simp)]
          refine ⟨hbelow, ?_⟩
          rw [List.length_append, List.length_singleton]
          omega
    · rw [bip32PathLoop, if_neg (Nat.not_lt.mpr hi)]
      exact .inr hbelow

theorem bip32PathLoop_done {length i : ℕ} {components : List UInt32}
    (h : ¬ (i < length ∧ components ≠ [])) (out : ℕ) (outSize : UInt32) (offset : ℕ)
    (b : Buffer UInt8) : bip32PathLoop out outSize length i components offset b = (b, none) := by
  cases components with
  | nil => rfl
  | cons c components => exact if_neg fun hi => h ⟨hi, by simp⟩

theorem shownFrom_done {length i : ℕ} {components : List UInt32}
    (h : ¬ (i < length ∧ components ≠ [])) : shownFrom length i components = [] := by
  cases components with
  | nil => rfl
  | cons c components => exact if_neg fun hi => h ⟨hi, by simp⟩

theorem bip32PathToString_below (outSize : UInt32) (key : Bip32Path) {b : Buffer UInt8}
    (hb : b.Below outSize.toNat) :
    (bip32PathToString 0 outSize key b).2 ≠ none ∨
      (bip32PathToString 0 outSize key b).1.Below outSize.toNat := by
  have hread : b.read 0 ([] : List UInt8).length = [] := rfl
  exact bip32PathLoop_below key.components.toList (Nat.zero_le _) List.not_mem_nil hread hb

/-- With room for what is left the loop writes it all. -/
theorem bip32PathLoop_eq {out length : ℕ} {outSize : UInt32} (components : List UInt32) {i : ℕ}
    {text : List UInt8} {b : Buffer UInt8} (hi : i < length) (hne : components ≠ [])
    (hroom : text.length + 12 * components.length + 9 ≤ outSize.toNat) (h0 : 0 ∉ text)
    (hb : b.read out text.length = text) :
    bip32PathLoop out outSize length i components text.length b =
      (b.copy (out + text.length) (shownFrom length i components ++ [0]), none) := by
  induction components generalizing i text b with
  | nil => exact absurd rfl hne
  | cons c components ih =>
    rw [List.length_cons] at hroom
    have hpiece := length_piece_le c length i
    rw [bip32PathLoop_step hi (by omega) h0 hb, shownFrom, if_pos hi, List.append_assoc text]
    have hread := @read_after_piece out text (componentText c ++ separator length i) b hb
    have hmem : 0 ∉ text ++ (componentText c ++ separator length i) := by
      rw [List.mem_append]
      exact fun hmem => hmem.elim h0 (not_mem_piece c length i)
    generalize componentText c ++ separator length i = piece at *
    by_cases hmore : i + 1 < length ∧ components ≠ []
    · have hlen : (text ++ piece).length + 12 * components.length + 9 ≤ outSize.toNat := by
        rw [List.length_append]
        omega
      rw [ih hmore.1 hmore.2 hlen hmem hread, List.length_append, ← Nat.add_assoc,
        b.copy_copy _ piece (by simp), List.append_assoc]
    · rw [bip32PathLoop_done hmore, shownFrom_done hmore, List.append_nil]

/-- The components of a path. -/
def Bip32Path.used (key : Bip32Path) : List UInt32 := key.components.toList.take key.length

theorem shownFrom_eq {length i : ℕ} (components : List UInt32) (hi : i < length)
    (hlen : length - i ≤ components.length) :
    shownFrom length i components = pathText (components.take (length - i)) := by
  induction components generalizing i with
  | nil =>
    rw [List.length_nil] at hlen
    omega
  | cons c components ih =>
    have hsucc : length - i = (length - (i + 1)) + 1 := by omega
    rw [shownFrom, if_pos hi, hsucc, List.take_succ_cons]
    rcases Nat.lt_or_ge (i + 1) length with hmore | hlast
    · rw [List.length_cons] at hlen
      have hne : (components.take (length - (i + 1))).map componentText ≠ [] := by
        intro hnil
        have hl := congrArg List.length hnil
        rw [List.length_map, List.length_take, List.length_nil] at hl
        omega
      rw [ih hmore (by omega), separator, if_pos hmore]
      unfold pathText
      rw [List.map_cons, List.intercalate_cons_of_ne_nil hne]
    · have hzero : length - (i + 1) = 0 := by omega
      rw [shownFrom_done fun h => Nat.not_lt.mpr hlast h.1, hzero, separator,
        if_neg (Nat.not_lt.mpr hlast), List.take_zero]
      simp [pathText]

/-- The path on the prompt buffer. -/
theorem bip32PathToString_eq {key : Bip32Path} (h1 : 1 ≤ key.length)
    (h5 : key.length ≤ maxBip32Path) (out : ℕ) (b : Buffer UInt8) :
    bip32PathToString out (valueWidth + 1) key b =
      (b.copy out (pathText key.used ++ [0]), none) := by
  have hlen : key.components.toList.length = 5 := Vector.length_toList
  have hne : key.components.toList ≠ [] := by
    intro hnil
    rw [hnil] at hlen
    cases hlen
  have hroom : ([] : List UInt8).length + 12 * key.components.toList.length + 9 ≤
      (valueWidth + 1).toNat := by
    rw [hlen]
    decide
  have hread : b.read out ([] : List UInt8).length = [] := rfl
  have hloop := bip32PathLoop_eq key.components.toList h1 hne hroom (by simp) hread
  rw [shownFrom_eq _ h1 (by rw [hlen]; exact h5)] at hloop
  exact hloop

theorem not_mem_pathText (components : List UInt32) : 0 ∉ pathText components := by
  induction components with
  | nil => exact List.not_mem_nil
  | cons c components ih =>
    have hc : 0 ∉ componentText c := not_mem_componentText (by decide) (by decide)
    unfold pathText at ih ⊢
    rw [List.map_cons]
    by_cases hne : components.map componentText = []
    · rw [hne, List.intercalate_singleton]
      exact hc
    · rw [List.intercalate_cons_of_ne_nil hne]
      simp only [List.mem_append, List.mem_singleton, not_or]
      exact ⟨⟨hc, by decide⟩, ih⟩

theorem used_ne_nil {key : Bip32Path} (h1 : 1 ≤ key.length) : key.used ≠ [] := by
  intro hnil
  have hlen := congrArg List.length hnil
  rw [Bip32Path.used, List.length_take, Vector.length_toList, List.length_nil] at hlen
  omega

theorem prints_pathText {key : Bip32Path} (h1 : 1 ≤ key.length) (h5 : key.length ≤ maxBip32Path)
    (b : Buffer UInt8) :
    Prints (bip32PathToString 0 (valueWidth + 1) key b).1 0 (pathText key.used) := by
  rw [bip32PathToString_eq h1 h5]
  exact prints_copy (not_mem_pathText _) 0 b

/-- A path that was read is shown with nothing lost: the prompt buffer is large enough, what is
written is read back, and only the same path is written so. -/
theorem path_shown {out key : Bip32Path} {data : List UInt8}
    (h : readBip32Path out data = (key, none)) (b : Buffer UInt8) :
    (bip32PathToString 0 (valueWidth + 1) key b).2 = none ∧
    (b.Below 129 → (bip32PathToString 0 (valueWidth + 1) key b).1.Below 129) ∧
    Prints (bip32PathToString 0 (valueWidth + 1) key b).1 0 (pathText key.used) ∧
    readPathText (pathText key.used) = key.used ∧
    ∀ (out' key' : Bip32Path) (data' : List UInt8) (b' : Buffer UInt8) (text : List UInt8),
      readBip32Path out' data' = (key', none) →
      Prints (bip32PathToString 0 (valueWidth + 1) key b).1 0 text →
      Prints (bip32PathToString 0 (valueWidth + 1) key' b').1 0 text → key.used = key'.used := by
  have hlength : ∀ {out key : Bip32Path} {data : List UInt8},
      readBip32Path out data = (key, none) → 1 ≤ key.length ∧ key.length ≤ maxBip32Path := by
    intro out key data h
    have hread := readBip32Path_length (congrArg Prod.snd h)
    rwa [h] at hread
  obtain ⟨h1, h5⟩ := hlength h
  have hprints := prints_pathText h1 h5 b
  refine ⟨?_, ?_, hprints, readPathText_pathText (used_ne_nil h1), ?_⟩
  · rw [bip32PathToString_eq h1 h5]
  · intro hb
    rcases bip32PathToString_below (valueWidth + 1) key hb with hthrows | hbelow
    · exact absurd (congrArg Prod.snd (bip32PathToString_eq h1 h5 0 b)) hthrows
    · exact hbelow
  · intro out' key' data' b' text h' ht ht'
    obtain ⟨h1', h5'⟩ := hlength h'
    have htext := (ht.unique hprints).symm.trans (ht'.unique (prints_pathText h1' h5' b'))
    rw [← readPathText_pathText (used_ne_nil h1), htext,
      readPathText_pathText (used_ne_nil h1')]

/-- m/44'/309'/0' on a zeroed buffer. -/
theorem samplePath_shown :
    let key : Bip32Path := ⟨3, #v[0x8000002C, 0x80000135, 0x80000000, 0, 0]⟩
    readBip32Path {} samplePath = (key, none) ∧
      Prints (bip32PathToString 0 (valueWidth + 1) key ⟨fun _ => 0, ∅⟩).1 0
        (pathText [0x8000002C, 0x80000135, 0x80000000]) := by
  intro key
  have hread : readBip32Path {} samplePath = (key, none) := by decide
  exact ⟨hread, (path_shown hread ⟨fun _ => 0, ∅⟩).2.2.1⟩

end NervosLedger
