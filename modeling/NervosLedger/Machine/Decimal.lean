import Mathlib.Data.List.DropRight
import Mathlib.Algebra.Order.Field.Rat
import Mathlib.Tactic.FieldSimp
import Mathlib.Tactic.Ring

/-!
# Decimal notation

The digits of a number in ASCII, canonical or to a fixed width, and reading them back.
-/
namespace NervosLedger.Machine

/-- The character of a digit. -/
def digitChar (d : ℕ) : UInt8 := UInt8.ofNat (48 + d)

def IsDigit (c : UInt8) : Prop := 48 ≤ c ∧ c ≤ 57

instance (c : UInt8) : Decidable (IsDigit c) := inferInstanceAs (Decidable (_ ∧ _))

/-- The decimal digits of `n`, with no leading zero. -/
def decimal (n : ℕ) : List UInt8 :=
  if n < 10 then [digitChar n] else decimal (n / 10) ++ [digitChar (n % 10)]

/-- The last `k` decimal digits of `n`. -/
def padded : ℕ → ℕ → List UInt8
  | 0, _ => []
  | k + 1, n => padded k (n / 10) ++ [digitChar (n % 10)]

/-- The number that digits stand for. -/
def digitsValue (ds : List UInt8) : ℕ := ds.foldl (fun v d => 10 * v + (d.toNat - 48)) 0

theorem digitChar_toNat {d : ℕ} (h : d < 10) : (digitChar d).toNat = 48 + d := by
  simp only [digitChar, UInt8.toNat_ofNat']
  omega

theorem isDigit_digitChar {d : ℕ} (h : d < 10) : IsDigit (digitChar d) := by
  have ht := digitChar_toNat h
  have hlo : UInt8.toNat 48 = 48 := rfl
  have hhi : UInt8.toNat 57 = 57 := rfl
  constructor
  · apply UInt8.le_iff_toNat_le.mpr
    omega
  · apply UInt8.le_iff_toNat_le.mpr
    omega

theorem digitsValue_append_singleton (ds : List UInt8) (d : UInt8) :
    digitsValue (ds ++ [d]) = 10 * digitsValue ds + (d.toNat - 48) := by
  simp [digitsValue]

theorem digitsValue_append (as bs : List UInt8) :
    digitsValue (as ++ bs) = digitsValue as * 10 ^ bs.length + digitsValue bs := by
  induction bs using List.reverseRecOn with
  | nil => simp [digitsValue]
  | append_singleton bs b ih =>
    rw [← List.append_assoc, digitsValue_append_singleton, ih, digitsValue_append_singleton,
      List.length_append, List.length_singleton, Nat.pow_succ]
    ring

theorem digitsValue_zeros {ds : List UInt8} (h : ∀ d ∈ ds, d = 48) : digitsValue ds = 0 := by
  induction ds using List.reverseRecOn with
  | nil => rfl
  | append_singleton ds d ih =>
    rw [digitsValue_append_singleton, ih fun c hc => h c (List.mem_append_left _ hc),
      h d (by simp)]
    rfl

/-! ### Fixed width -/

@[simp] theorem length_padded (k n : ℕ) : (padded k n).length = k := by
  induction k generalizing n with
  | zero => rfl
  | succ k ih => simp [padded, ih]

theorem isDigit_of_mem_padded {k n : ℕ} {c : UInt8} (h : c ∈ padded k n) : IsDigit c := by
  induction k generalizing n with
  | zero => cases h
  | succ k ih =>
    rcases List.mem_append.mp h with h | h
    · exact ih h
    · exact List.mem_singleton.mp h ▸ isDigit_digitChar (Nat.mod_lt _ (by omega))

theorem digitsValue_padded (k n : ℕ) : digitsValue (padded k n) = n % 10 ^ k := by
  induction k generalizing n with
  | zero => simp [padded, digitsValue, Nat.mod_one]
  | succ k ih =>
    have hd := digitChar_toNat (Nat.mod_lt n (by omega : 10 > 0))
    rw [padded, digitsValue_append_singleton, ih, hd, Nat.pow_succ', Nat.mod_mul]
    omega

theorem padded_add (j k n : ℕ) : padded (j + k) n = padded j (n / 10 ^ k) ++ padded k n := by
  induction k generalizing n with
  | zero => simp [padded]
  | succ k ih =>
    rw [← Nat.add_assoc, padded, padded, ih, Nat.div_div_eq_div_mul, ← Nat.pow_succ',
      List.append_assoc]

theorem drop_padded (j k n : ℕ) : (padded (j + k) n).drop j = padded k n := by
  rw [padded_add, List.drop_left' (length_padded _ _)]

/-! ### Canonical digits -/

theorem decimal_of_lt {n : ℕ} (h : n < 10) : decimal n = [digitChar n] := by
  rw [decimal, if_pos h]

theorem decimal_of_le {n : ℕ} (h : 10 ≤ n) :
    decimal n = decimal (n / 10) ++ [digitChar (n % 10)] := by
  rw [decimal, if_neg (by omega)]

theorem decimal_ne_nil (n : ℕ) : decimal n ≠ [] := by
  rw [decimal]
  split <;> simp

theorem length_decimal_pos (n : ℕ) : 0 < (decimal n).length :=
  List.length_pos_iff.mpr (decimal_ne_nil n)

theorem isDigit_of_mem_decimal {n : ℕ} {c : UInt8} (h : c ∈ decimal n) : IsDigit c := by
  induction n using Nat.strongRecOn with
  | _ n ih =>
    rcases Nat.lt_or_ge n 10 with hn | hn
    · rw [decimal_of_lt hn, List.mem_singleton] at h
      exact h ▸ isDigit_digitChar hn
    · rw [decimal_of_le hn] at h
      rcases List.mem_append.mp h with h | h
      · exact ih _ (by omega) h
      · exact List.mem_singleton.mp h ▸ isDigit_digitChar (Nat.mod_lt _ (by omega))

@[simp] theorem digitsValue_decimal (n : ℕ) : digitsValue (decimal n) = n := by
  induction n using Nat.strongRecOn with
  | _ n ih =>
    rcases Nat.lt_or_ge n 10 with hn | hn
    · simp [decimal_of_lt hn, digitsValue, digitChar_toNat hn]
    · have hd := digitChar_toNat (Nat.mod_lt n (by omega : 10 > 0))
      rw [decimal_of_le hn, digitsValue_append_singleton, ih _ (by omega), hd]
      omega

theorem decimal_inj {m n : ℕ} (h : decimal m = decimal n) : m = n := by
  rw [← digitsValue_decimal m, h, digitsValue_decimal]

/-- A number of two digits or more does not begin with `0`. -/
theorem head_decimal {n : ℕ} (h : (decimal n).head? = some 48) : n = 0 := by
  induction n using Nat.strongRecOn with
  | _ n ih =>
    rcases Nat.lt_or_ge n 10 with hn | hn
    · rw [decimal_of_lt hn, List.head?_cons, Option.some.injEq] at h
      have hd := congrArg UInt8.toNat h
      have h48 : UInt8.toNat 48 = 48 := rfl
      rw [digitChar_toNat hn, h48] at hd
      omega
    · rw [decimal_of_le hn, List.head?_append_of_ne_nil _ (decimal_ne_nil _)] at h
      have h0 := ih _ (by omega) h
      omega

theorem length_decimal_le {n k : ℕ} (hk : 0 < k) (h : n < 10 ^ k) : (decimal n).length ≤ k := by
  induction k generalizing n with
  | zero => omega
  | succ k ih =>
    rcases Nat.lt_or_ge n 10 with hn | hn
    · rw [decimal_of_lt hn, List.length_singleton]
      omega
    · have hk' : 0 < k := by
        rcases Nat.eq_zero_or_pos k with rfl | hk'
        · omega
        · exact hk'
      have hdiv : n / 10 < 10 ^ k := by
        rw [Nat.pow_succ] at h
        omega
      rw [decimal_of_le hn, List.length_append, List.length_singleton]
      have := ih hk' hdiv
      omega

theorem lt_length_decimal {n k : ℕ} (h : 10 ^ k ≤ n) : k < (decimal n).length := by
  induction k generalizing n with
  | zero => exact length_decimal_pos n
  | succ k ih =>
    rw [Nat.pow_succ] at h
    have hpos : 0 < 10 ^ k := Nat.pow_pos (by omega)
    have hdiv : 10 ^ k ≤ n / 10 := by omega
    rw [decimal_of_le (by omega), List.length_append, List.length_singleton]
    have := ih hdiv
    omega

/-- A fixed width that a number needs in full shows its digits. -/
theorem length_decimal_le_iff {n k : ℕ} (hk : 0 < k) : (decimal n).length ≤ k ↔ n < 10 ^ k := by
  refine ⟨fun h => ?_, length_decimal_le hk⟩
  by_contra hge
  exact absurd (lt_length_decimal (Nat.not_lt.mp hge)) (Nat.not_lt.mpr h)

/-! ### Fixed point -/

/-- The digits of `n` after the point, when `k` of them are kept, with no zero at the end. -/
def fraction (k n : ℕ) : List UInt8 := (padded k n).rdropWhile (· = 48)

/-- `n` scaled down by `10 ^ k`. -/
def fixedPoint (k n : ℕ) : List UInt8 :=
  decimal (n / 10 ^ k) ++ if n % 10 ^ k = 0 then [] else 46 :: fraction k n

/-- The number that a text with at most one point stands for. -/
def decimalValue (text : List UInt8) : ℚ :=
  let whole := text.takeWhile (· ≠ 46)
  let fraction := (text.dropWhile (· ≠ 46)).tail
  digitsValue whole + digitsValue fraction / 10 ^ fraction.length

/-- Digits with a point only before a fraction, no needless zero in front and none at the end. -/
structure CanonicalDecimal (text whole fraction : List UInt8) : Prop where
  text_eq : text = whole ++ if fraction = [] then [] else 46 :: fraction
  whole_digits : ∀ c ∈ whole, IsDigit c
  fraction_digits : ∀ c ∈ fraction, IsDigit c
  whole_ne_nil : whole ≠ []
  leading : whole.head? = some 48 → whole = [48]
  trailing : fraction.getLast? ≠ some 48

theorem isDigit_of_mem_fraction {k n : ℕ} {c : UInt8} (h : c ∈ fraction k n) : IsDigit c :=
  isDigit_of_mem_padded ((List.rdropWhile_prefix _ _).mem h)

/-- The zeros that were dropped are made up for by the scale. -/
theorem digitsValue_fraction (k n : ℕ) : ∃ d, (fraction k n).length + d = k ∧
    digitsValue (fraction k n) * 10 ^ d = n % 10 ^ k := by
  have hsplit : fraction k n ++ (padded k n).rtakeWhile (· = 48) = padded k n :=
    List.rdropWhile_append_rtakeWhile
  have hzeros : digitsValue ((padded k n).rtakeWhile (· = 48)) = 0 := by
    apply digitsValue_zeros
    intro d hd
    simpa using List.mem_rtakeWhile_imp hd
  refine ⟨((padded k n).rtakeWhile (· = 48)).length, ?_, ?_⟩
  · rw [← List.length_append, hsplit, length_padded]
  · rw [← digitsValue_padded, ← hsplit, digitsValue_append, hzeros, hsplit, Nat.add_zero]

theorem fraction_eq_nil {k n : ℕ} (h : n % 10 ^ k ≠ 0) : fraction k n ≠ [] := by
  intro hnil
  obtain ⟨d, -, hv⟩ := digitsValue_fraction k n
  rw [hnil] at hv
  exact h (by simpa [digitsValue] using hv.symm)

theorem canonical_fixedPoint (k n : ℕ) : CanonicalDecimal (fixedPoint k n) (decimal (n / 10 ^ k))
    (if n % 10 ^ k = 0 then [] else fraction k n) := by
  constructor
  · unfold fixedPoint
    split
    · simp
    · rename_i h
      simp [fraction_eq_nil h]
  · exact fun c => isDigit_of_mem_decimal
  · intro c hc
    split at hc
    · cases hc
    · exact isDigit_of_mem_fraction hc
  · exact decimal_ne_nil _
  · intro h
    rw [head_decimal h, decimal_of_lt (by omega)]
    rfl
  · split
    · simp
    · rename_i h
      have hne := fraction_eq_nil h
      have hlast : decide ((fraction k n).getLast hne = 48) ≠ true :=
        List.rdropWhile_last_not _ _ hne
      rw [List.getLast?_eq_some_getLast hne]
      simpa using hlast

theorem takeWhile_fixedPoint (k n : ℕ) :
    (fixedPoint k n).takeWhile (· ≠ 46) = decimal (n / 10 ^ k) ∧
      ((fixedPoint k n).dropWhile (· ≠ 46)).tail =
        if n % 10 ^ k = 0 then [] else fraction k n := by
  have hdigits : ∀ c ∈ decimal (n / 10 ^ k), decide (c ≠ 46) = true := by
    intro c hc
    have hd := (isDigit_of_mem_decimal hc).1
    have hne : c ≠ 46 := by
      rintro rfl
      exact absurd hd (by decide)
    simpa using hne
  unfold fixedPoint
  rw [List.takeWhile_append_of_pos hdigits, List.dropWhile_append_of_pos hdigits]
  split <;> simp

theorem decimalValue_fixedPoint (k n : ℕ) :
    decimalValue (fixedPoint k n) = (n : ℚ) / 10 ^ k := by
  obtain ⟨htake, hdrop⟩ := takeWhile_fixedPoint k n
  have hpos : (10 : ℚ) ^ k ≠ 0 := pow_ne_zero _ (by norm_num)
  have hdiv : ((n / 10 ^ k : ℕ) : ℚ) * 10 ^ k + ((n % 10 ^ k : ℕ) : ℚ) = n := by
    exact_mod_cast Nat.div_add_mod' n (10 ^ k)
  simp only [decimalValue, htake, hdrop, digitsValue_decimal]
  rw [eq_div_iff hpos, add_mul]
  split
  · rename_i h0
    rw [h0] at hdiv
    simpa [digitsValue] using hdiv
  · obtain ⟨d, hlen, hval⟩ := digitsValue_fraction k n
    have hd : (10 : ℚ) ^ k = 10 ^ (fraction k n).length * 10 ^ d := by rw [← pow_add, hlen]
    have hval' : (digitsValue (fraction k n) : ℚ) * 10 ^ d = ((n % 10 ^ k : ℕ) : ℚ) := by
      exact_mod_cast hval
    have hscale : (digitsValue (fraction k n) : ℚ) / 10 ^ (fraction k n).length * 10 ^ k =
        digitsValue (fraction k n) * 10 ^ d := by
      rw [hd]
      field_simp
    rw [hscale, hval']
    exact hdiv

theorem fixedPoint_inj {k m n : ℕ} (h : fixedPoint k m = fixedPoint k n) : m = n := by
  have hm := decimalValue_fixedPoint k m
  rw [h, decimalValue_fixedPoint] at hm
  have hpos : (10 : ℚ) ^ k ≠ 0 := pow_ne_zero _ (by norm_num)
  have hq : (n : ℚ) = m := (div_left_inj' hpos).mp hm
  exact_mod_cast hq.symm

/-- A text of digits and a point. -/
theorem mem_fixedPoint {k n : ℕ} {c : UInt8} (h : c ∈ fixedPoint k n) : IsDigit c ∨ c = 46 := by
  rcases List.mem_append.mp h with h | h
  · exact .inl (isDigit_of_mem_decimal h)
  · split at h
    · cases h
    · rcases List.mem_cons.mp h with h | h
      · exact .inr h
      · exact .inl (isDigit_of_mem_fraction h)

theorem length_fraction_le (k n : ℕ) : (fraction k n).length ≤ k := by
  obtain ⟨d, hd, -⟩ := digitsValue_fraction k n
  omega

/-- All `k` digits are needed when the last one is not zero. -/
theorem length_fraction_of_last {k n : ℕ} (h : n % 10 ≠ 0) :
    (fraction (k + 1) n).length = k + 1 := by
  obtain ⟨d, hlen, hval⟩ := digitsValue_fraction (k + 1) n
  cases d with
  | zero => exact hlen
  | succ d =>
    have hdvd : 10 ∣ n % 10 ^ (k + 1) := by
      rw [← hval, Nat.pow_succ, ← Nat.mul_assoc]
      exact Nat.dvd_mul_left _ _
    have hmod : n % 10 ^ (k + 1) % 10 = n % 10 :=
      Nat.mod_mod_of_dvd n ⟨10 ^ k, Nat.pow_succ'⟩
    omega

/-- Each factor of ten is a zero that is dropped. -/
theorem length_fraction_le_iff {j m n : ℕ} : (fraction (m + j) n).length ≤ m ↔ 10 ^ j ∣ n := by
  constructor
  · intro h
    obtain ⟨d, hlen, hval⟩ := digitsValue_fraction (m + j) n
    have hdvd : 10 ^ j ∣ n % 10 ^ (m + j) := by
      rw [← hval]
      exact (Nat.pow_dvd_pow 10 (by omega)).mul_left _
    exact (Nat.dvd_mod_iff (Nat.pow_dvd_pow 10 (by omega))).mp hdvd
  · intro h
    induction j generalizing n with
    | zero => exact length_fraction_le _ _
    | succ j ih =>
      obtain ⟨c, rfl⟩ := h
      have hten : 10 ^ (j + 1) * c = 10 * (10 ^ j * c) := by
        rw [Nat.pow_succ']
        exact Nat.mul_assoc _ _ _
      have hchar : digitChar (10 ^ (j + 1) * c % 10) = 48 := by
        rw [hten, Nat.mul_mod_right]
        rfl
      have hstep : fraction (m + (j + 1)) (10 ^ (j + 1) * c) = fraction (m + j) (10 ^ j * c) := by
        rw [← Nat.add_assoc, fraction, padded, List.rdropWhile_concat, hchar, hten,
          Nat.mul_div_cancel_left _ (by decide)]
        rfl
      rw [hstep]
      exact ih (Nat.dvd_mul_right _ _)

theorem length_fraction_lt_of_last {k n : ℕ} (h : n % 10 = 0) :
    (fraction (k + 1) n).length ≤ k :=
  length_fraction_le_iff.mpr (Nat.dvd_of_mod_eq_zero h)

end NervosLedger.Machine
