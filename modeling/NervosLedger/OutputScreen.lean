import NervosLedger.Formatters
import NervosLedger.Exchange
import NervosLedger.Transaction

/-!
# The screens of the outputs

`multi_output_prompts_cb` writes the screens of a transaction with several outputs itself. The
address is told the size of the whole value buffer, although it starts behind the amount.
-/
namespace NervosLedger
open Molecule Machine

/-- `active_prompt` and `active_value`. -/
structure ActiveScreen where
  activePrompt : Buffer UInt8
  activeValue : Buffer UInt8

/-- "Confirm", "Transaction", "Amount", "Fee" and "Output ". -/
def confirmText : List UInt8 := [67, 111, 110, 102, 105, 114, 109]
def transactionText : List UInt8 := [84, 114, 97, 110, 115, 97, 99, 116, 105, 111, 110]
def amountText : List UInt8 := [65, 109, 111, 117, 110, 116]
def feeText : List UInt8 := [70, 101, 101]
def outputText : List UInt8 := [79, 117, 116, 112, 117, 116, 32]

/-- " CKB -> ". -/
def outputSeparator : List UInt8 := [32, 67, 75, 66, 32, 45, 62, 32]

/-- The label of the screen of an output. -/
def writeOutputLabel (which outputCount : ℕ) (b : Buffer UInt8) : Buffer UInt8 :=
  let b := b.copy 0 (outputText ++ [0])
  let promptFill := outputText.length
  let (b, promptFill) :=
    if which < 100 then
      let (b, n) := numberToString promptFill (UInt64.ofNat (which - 2)) b
      (b, promptFill + n)
    else (b, promptFill)
  if outputCount < 100 then
    (numberToString (promptFill + 1) (UInt64.ofNat outputCount) (b.store promptFill 47)).1
  else b

/-- The `lock_arg_to_destination_address` that is chosen for an output. -/
def Output.writeAddress (t : AddressType) (o : Output) (dest : ℕ) (buffSize : UInt32)
    (b : Buffer UInt8) : Formatted :=
  if o.isMultisig then lockArgToMultisigAddress t dest buffSize o.destination b
  else lockArgToSighashAddress t dest buffSize o.destination b

/-- The value of the screen of an output. -/
def Output.writeValue (t : AddressType) (o : Output) (b : Buffer UInt8) : Formatted :=
  match fracCkbToStringIndirect 0 (valueWidth + 1) o.capacity b with
  | (b, some e) => (b, some e)
  | (b, none) =>
    let valueFill := b.strlen 0 (valueWidth + 1).toNat
    o.writeAddress t (valueFill + outputSeparator.length) (valueWidth + 1)
      (b.copy valueFill (outputSeparator ++ [0]))

/-- `multi_output_prompts_cb`. -/
def multiOutputPromptsCb (t : AddressType) (g : SignState) (which : ℕ) (s : ActiveScreen) :
    ActiveScreen × Option Exc :=
  match which with
  | 0 => (⟨s.activePrompt.copy 0 (confirmText ++ [0]),
      s.activeValue.copy 0 (transactionText ++ [0])⟩, none)
  | 1 =>
    let (value, e) := fracCkbToStringIndirect 0 (valueWidth + 1) g.v.amountSnd s.activeValue
    (⟨s.activePrompt.copy 0 (amountText ++ [0]), value⟩, e)
  | 2 =>
    let (value, e) := fracCkbToStringIndirect 0 (valueWidth + 1) g.v.totalFee s.activeValue
    (⟨s.activePrompt.copy 0 (feeText ++ [0]), value⟩, e)
  | i + 3 =>
    if promptWidth + 1 < 13 then (s, some .wrongLength)
    else if (valueWidth + 1).toNat < 29 then (s, some .wrongLength)
    else
      let (value, e) := (g.tx.outputs.getD i {}).writeValue t s.activeValue
      (⟨writeOutputLabel which g.tx.outputs.length s.activePrompt, value⟩, e)

/-! ### What is written -/

theorem length_decimal_of_lt_100 {n : ℕ} (h : n < 100) :
    (decimal (UInt64.ofNat n).toNat).length ≤ 2 := by
  rw [UInt64.toNat_ofNat_of_lt' (h.trans (by decide))]
  exact length_decimal_le (by decide) h

/-- A label has at most a name, two numbers below 100 and what separates them. -/
theorem writeOutputLabel_below (which outputCount : ℕ) {b : Buffer UInt8}
    (hb : b.Below (promptWidth + 1)) :
    (writeOutputLabel which outputCount b).Below (promptWidth + 1) := by
  have hname : (b.copy 0 (outputText ++ [0])).Below (promptWidth + 1) :=
    (Buffer.below_copy_iff (by decide)).mpr ⟨hb, by decide⟩
  have htail : ∀ {fill : ℕ} {b : Buffer UInt8}, fill ≤ 9 → b.Below (promptWidth + 1) →
      (if outputCount < 100 then
        (numberToString (fill + 1) (UInt64.ofNat outputCount) (b.store fill 47)).1
      else b).Below (promptWidth + 1) := by
    intro fill b hfill hb
    split
    · rename_i hcount
      have hlen := length_decimal_of_lt_100 hcount
      rw [numberToString_eq, Buffer.store_eq_copy, Buffer.below_copy_iff (by simp),
        Buffer.below_copy_iff (by simp)]
      simp only [promptWidth, List.length_append, List.length_singleton]
      exact ⟨⟨hb, by omega⟩, by omega⟩
    · exact hb
  unfold writeOutputLabel
  by_cases hwhich : which < 100
  · have hlen := length_decimal_of_lt_100 (show which - 2 < 100 by omega)
    have hseven : outputText.length = 7 := rfl
    simp only [if_pos hwhich]
    apply htail
    · rw [numberToString_eq]
      dsimp only
      omega
    rw [numberToString_eq]
    rw [Buffer.below_copy_iff (by simp)]
    simp only [promptWidth, List.length_append, List.length_singleton]
    exact ⟨hname, by omega⟩
  · simp only [if_neg hwhich]
    exact htail (by decide) hname

/-- The length of the address of an output. -/
def Output.addressLength (o : Output) : ℕ :=
  if o.isMultisig ∧ o.destination.lockPeriod ≠ .zero 8 then 110 else 97

theorem length_sighashPayload (a : LockArg) : (sighashPayload a).length = 54 := by
  rw [sighashPayload, length_fullPayload, a.hash.length_eq]

/-- An address fits the size it is told, so it is written. -/
theorem renderPkh_writes (t : AddressType) {payload : List UInt8} (hlen : payload.length ≤ 62) :
    ∃ text, text.length = (8 * payload.length + 4) / 5 + 10 ∧ 0 ∉ text ∧
      DecodesTo t text payload ∧ ∀ dest b,
        renderPkh t dest (valueWidth + 1) payload b = (b.copy dest (text ++ [0]), none) := by
  obtain ⟨symbols, pad, hpad, hcount, hsymbols, hregroup, hrender⟩ :=
    renderPkh_eq t (by omega : payload.length ≤ 100)
  have htext := length_address t hpad hcount
  refine ⟨bech32mText (hrpOf t) symbols, htext, not_mem_bech32mText hsymbols,
    decodesTo_bech32mText t hsymbols hregroup, fun dest b => (hrender dest _ b).1 ?_⟩
  have hsize : (valueWidth + 1).toNat = 129 := rfl
  omega

/-- What the address of an entry stands for. -/
def Output.payload (o : Output) : List UInt8 :=
  if o.isMultisig then multisigPayload o.destination else sighashPayload o.destination

theorem Output.writeAddress_eq (t : AddressType) (o : Output) :
    ∃ text, text.length = o.addressLength ∧ 0 ∉ text ∧ DecodesTo t text o.payload ∧ ∀ dest b,
      o.writeAddress t dest (valueWidth + 1) b = (b.copy dest (text ++ [0]), none) := by
  cases hm : o.isMultisig with
  | false =>
    have hlen := length_sighashPayload o.destination
    obtain ⟨text, htext, hno, hdecodes, hwrite⟩ := renderPkh_writes t (by omega :
      (sighashPayload o.destination).length ≤ 62)
    refine ⟨text, by simp [addressLength, htext, hlen, hm], hno, ?_, fun dest b => ?_⟩
    · rwa [payload, hm, if_neg Bool.false_ne_true]
    · simp only [writeAddress, hm, lockArgToSighashAddress]
      exact hwrite dest b
  | true =>
    obtain ⟨text, htext, hno, hdecodes, hwrite⟩ :=
      renderPkh_writes t (length_multisigPayload_le o.destination)
    refine ⟨text, ?_, hno, ?_, fun dest b => ?_⟩
    · rw [htext, length_multisigPayload]
      by_cases hp : o.destination.lockPeriod = .zero 8 <;> simp [addressLength, hm, hp]
    · rwa [payload, hm, if_pos rfl]
    · simp only [writeAddress, hm, lockArgToMultisigAddress]
      exact hwrite dest b

/-- Texts that are written one behind the other, each over the NUL of the one before. -/
theorem copy_behind (b : Buffer UInt8) (off : ℕ) (text : List UInt8) {more : List UInt8}
    (h : 0 < more.length) :
    (b.copy off (text ++ [0])).copy (off + text.length) more = b.copy off (text ++ more) :=
  b.copy_copy off text h

/-- The amount, the separator and the address. -/
theorem Output.writeValue_eq {t : AddressType} {o : Output} {text : List UInt8}
    (hwrite : ∀ dest b, o.writeAddress t dest (valueWidth + 1) b =
      (b.copy dest (text ++ [0]), none)) (b : Buffer UInt8) :
    o.writeValue t b =
      (b.copy 0 (amount o.capacity.toNat ++ outputSeparator ++ (text ++ [0])), none) := by
  have hle := length_amount_le o.capacity
  have hguard : ¬ (valueWidth + 1).toNat < maxIntDigits + 1 := by decide
  have hprints := prints_fracCkbToString 0 o.capacity b
  have hlen : (fracCkbToString 0 o.capacity b).1.strlen 0 (valueWidth + 1).toNat =
      (amount o.capacity.toNat).length := by
    have hsize : (valueWidth + 1).toNat = 129 := rfl
    exact Buffer.strlen_eq hprints.1 hprints.2 (by omega)
  have hseparator := copy_behind b 0 (amount o.capacity.toNat) (by decide :
    0 < (outputSeparator ++ [0]).length)
  have haddress := copy_behind b 0 (amount o.capacity.toNat ++ outputSeparator) (by simp :
    0 < (text ++ [0]).length)
  rw [Nat.zero_add, ← List.append_assoc] at hseparator
  rw [Nat.zero_add, List.length_append] at haddress
  simp only [writeValue, fracCkbToStringIndirect, if_neg hguard, hlen, hwrite]
  rw [fracCkbToString_eq, hseparator, haddress]

/-! ### What fits -/

/-- Written with at most ten characters: what is left of ten, after the point and `8 - j` decimals,
is for the whole. -/
def ShortAmount (n : ℕ) : Prop :=
  10 ^ 8 ∣ n ∧ n < 10 ^ 18 ∨ ∃ j < 8, 10 ^ j ∣ n ∧ n < 10 ^ (9 + j)

instance (n : ℕ) : Decidable (ShortAmount n) :=
  inferInstanceAs (Decidable (_ ∧ _ ∨ ∃ j, j < 8 ∧ _))

theorem length_amount_le_ten_iff (n : ℕ) : (amount n).length ≤ 10 ↔ ShortAmount n := by
  have hscale : 10 ^ decimalDigits = 10 ^ 8 := rfl
  unfold amount fixedPoint ShortAmount
  rw [List.length_append, hscale]
  by_cases hmod : n % 10 ^ 8 = 0
  · have hdvd : 10 ^ 8 ∣ n := Nat.dvd_of_mod_eq_zero hmod
    have hwhole : (decimal (n / 10 ^ 8)).length ≤ 10 ↔ n / 10 ^ 8 < 10 ^ 10 :=
      length_decimal_le_iff (by decide)
    rw [if_pos hmod, List.length_nil, Nat.add_zero, hwhole]
    constructor
    · intro h
      exact .inl ⟨hdvd, by omega⟩
    · rintro (⟨-, h⟩ | ⟨j, hj, -, h⟩)
      · omega
      · have hpow : 10 ^ (9 + j) ≤ 10 ^ 16 := Nat.pow_le_pow_right (by decide) (by omega)
        omega
  · have hndvd : ¬ 10 ^ 8 ∣ n := fun h => hmod (Nat.mod_eq_zero_of_dvd h)
    have hwhole : ∀ j, (decimal (n / 10 ^ 8)).length ≤ 1 + j ↔ n < 10 ^ (9 + j) := by
      intro j
      have hsplit : 10 ^ (9 + j) = 10 ^ (1 + j) * 10 ^ 8 := by
        rw [← Nat.pow_add]
        congr 1
        omega
      rw [length_decimal_le_iff (by omega), hsplit, Nat.div_lt_iff_lt_mul (by decide)]
    have hfraction : ∀ j ≤ 8, (fraction decimalDigits n).length ≤ 8 - j ↔ 10 ^ j ∣ n := by
      intro j hj
      have hsplit : decimalDigits = 8 - j + j := (Nat.sub_add_cancel hj).symm
      rw [hsplit]
      exact length_fraction_le_iff
    have hpos : 0 < (fraction decimalDigits n).length :=
      List.length_pos_iff.mpr (fraction_eq_nil hmod)
    have hle : (fraction decimalDigits n).length ≤ 8 := length_fraction_le _ _
    rw [if_neg hmod, List.length_cons]
    constructor
    · intro h
      refine .inr ⟨8 - (fraction decimalDigits n).length, by omega,
        (hfraction _ (by omega)).mp (by omega), (hwhole _).mp (by omega)⟩
    · rintro (⟨h, -⟩ | ⟨j, hj, hdvd, h⟩)
      · exact absurd h hndvd
      · have h1 := (hfraction j hj.le).mpr hdvd
        have h2 := (hwhole j).mpr h
        omega

/-- The value of an output fits the buffer: a time lock leaves ten characters for the amount. -/
def Output.HasRoom (o : Output) : Prop :=
  o.isMultisig = false ∨ o.destination.lockPeriod = .zero 8 ∨ ShortAmount o.capacity.toNat

instance (o : Output) : Decidable o.HasRoom :=
  inferInstanceAs (Decidable (_ ∨ _ ∨ _))

theorem Output.hasRoom_iff (o : Output) :
    o.HasRoom ↔ (amount o.capacity.toNat).length + 8 + o.addressLength < 129 := by
  have hle := length_amount_le o.capacity
  have hten := length_amount_le_ten_iff o.capacity.toNat
  unfold HasRoom addressLength
  rw [← hten]
  by_cases hm : o.isMultisig = false
  · simp only [hm, Bool.false_eq_true, false_and, if_false, true_or, true_iff]
    omega
  · by_cases hp : o.destination.lockPeriod = .zero 8
    · simp only [hp, ne_eq, not_true, and_false, if_false, true_or, or_true, true_iff]
      omega
    · simp only [hm, hp, ne_eq, not_false_iff, and_self, if_true, Bool.true_eq_false, false_or]
      omega

/-- A screen is written within the buffers of the label and the value. -/
def FitsScreen (t : AddressType) (g : SignState) (which : ℕ) : Prop :=
  ∀ label value : ℕ → UInt8,
    let r := multiOutputPromptsCb t g which ⟨⟨label, ∅⟩, ⟨value, ∅⟩⟩
    r.2 = none ∧ r.1.activePrompt.Below (promptWidth + 1) ∧
      r.1.activeValue.Below (valueWidth + 1).toNat

/-- The screen of an output fits exactly when the output has room, whatever the network and the
state. -/
theorem outputScreen_fits_iff (t : AddressType) (g : SignState) (i : ℕ) :
    FitsScreen t g (i + 3) ↔ (g.tx.outputs.getD i {}).HasRoom := by
  obtain ⟨text, htext, -, -, hwrite⟩ := (g.tx.outputs.getD i {}).writeAddress_eq t
  have hseparator : outputSeparator.length = 8 := rfl
  have hprompt : ¬ promptWidth + 1 < 13 := by decide
  have hvalue : ¬ (valueWidth + 1).toNat < 29 := by decide
  have hlabel : ∀ cell : ℕ → UInt8, (writeOutputLabel (i + 3) g.tx.outputs.length
      ⟨cell, ∅⟩).Below (promptWidth + 1) :=
    fun cell => writeOutputLabel_below _ _ (below_empty cell _)
  rw [Output.hasRoom_iff, ← htext]
  unfold FitsScreen
  simp only [multiOutputPromptsCb, if_neg hprompt, if_neg hvalue, Output.writeValue_eq hwrite,
    hlabel, true_and,
    ← List.append_assoc, below_text_iff, forall_const, List.length_append, hseparator]
  rfl

/-- 100 CKB to someone, and 100.00000001 CKB to keys that cannot spend them for a time. -/
def timelockedTransaction : AnnotatedTransaction :=
  sampleTransaction [sampleInput [sampleCell sampleLock 20000001001] [[]]]
    [sampleCell (sighashLock (List.replicate 20 0x11)) 10000000000,
      sampleCell (multisigLockOf (List.replicate 20 0x22 ++ [0x10, 0, 0, 0, 0, 0, 0, 0x20]))
        10000000001] [[], []] [selfWitness.drop 8]

/-- The address starts behind twenty characters, and its last bytes are beyond the buffer. -/
theorem timelockedOutput_exceeds : ¬ ∀ (t : AddressType) (sdk : Sdk) (sent : List Sent) (env : Env)
    (ins : UInt8) (q : Prompt), SignState.Accepts sdk sent →
      (SignState.accepted sdk sent).v.tag = .multiOutputTransfer →
        (SignState.accepted sdk sent).signComplete env ins = .ok q →
          ∀ i, i + 3 < q.screens.length → FitsScreen t (SignState.accepted sdk sent) (i + 3) := by
  intro h
  obtain ⟨ha, hp⟩ := @SignState.accepts_of_run (keySdk [])
    (samplePackets {} timelockedTransaction.encode) (fun g =>
      decide (g.v.tag = .multiOutputTransfer) && !decide (g.tx.outputs.getD 1 {}).HasRoom &&
        (g.signComplete ⟨keySdk [], {}, []⟩ insSign).toOption.any (·.screens.length = 5))
    (by decide +kernel) (by decide +kernel)
  simp only [Bool.and_eq_true, Bool.not_eq_true', decide_eq_true_eq, decide_eq_false_iff_not] at hp
  obtain ⟨⟨htag, hroom⟩, hq⟩ := hp
  cases hs : (SignState.accepted (keySdk []) (samplePackets {}
      timelockedTransaction.encode)).signComplete ⟨keySdk [], {}, []⟩ insSign with
  | error e =>
    rw [hs] at hq
    cases hq
  | ok q =>
    rw [hs] at hq
    have hlen : q.screens.length = 5 := by simpa [Except.toOption] using hq
    have hfit := h .mainnet (keySdk []) _ _ _ q ha htag hs 1 (by omega)
    exact hroom ((outputScreen_fits_iff _ _ _).mp hfit)

end NervosLedger
