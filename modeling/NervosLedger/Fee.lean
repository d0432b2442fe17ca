import NervosLedger.ContractData

/-!
# The fee and the compensation

The amounts of a transaction are added up modulo 2^64, and what is left of the inputs is shown
without a look at its sign. An input counts if its source has the data of its cell.
-/
namespace NervosLedger
open Molecule Machine

/-! ### Sums -/

def CellOutput.shannons (c : CellOutput) : ℕ := leNat c.capacity.toList

def AnnotatedCellInput.shannons (i : AnnotatedCellInput) : ℕ :=
  (i.cell.map CellOutput.shannons).getD 0

namespace AnnotatedTransaction
variable (t : AnnotatedTransaction)

def inputSum : ℕ := (t.raw.inputs.map AnnotatedCellInput.shannons).sum

def outputSum : ℕ := (t.raw.outputs.map CellOutput.shannons).sum

/-- Some input withdraws from the DAO. -/
def Withdraws : Prop := ∃ i ∈ t.raw.inputs, i.daoTag = some .daoWithdraw

instance : Decidable t.Withdraws := inferInstanceAs (Decidable (∃ i ∈ _, _))

/-- The sources of the inputs have the data of all cells that are worth something. -/
def Sourced : Prop := ∀ i ∈ t.raw.inputs, i.data = none → i.shannons = 0

instance : Decidable t.Sourced := inferInstanceAs (Decidable (∀ i ∈ _, _))

/-- The difference of the sums has the sign that its screen stands for. -/
def Balances : Prop :=
  if t.Withdraws then t.inputSum ≤ t.outputSum else t.outputSum ≤ t.inputSum

end AnnotatedTransaction

section Sums

theorem sum_ofNat {α : Type} (f : α → ℕ) (xs : List α) :
    (xs.map fun x => UInt64.ofNat (f x)).sum = UInt64.ofNat (xs.map f).sum := by
  induction xs with
  | nil => rfl
  | cons x xs ih => rw [List.map_cons, List.map_cons, List.sum_cons, List.sum_cons, ih,
      UInt64.ofNat_add]

theorem sum_eq_sum_iff {α : Type} {f g : α → ℕ} (hle : ∀ x, f x ≤ g x) (xs : List α) :
    (xs.map f).sum ≤ (xs.map g).sum ∧
      ((xs.map f).sum = (xs.map g).sum ↔ ∀ x ∈ xs, f x = g x) := by
  induction xs with
  | nil => simp
  | cons x xs ih =>
    have hx := hle x
    simp only [List.map_cons, List.sum_cons, List.forall_mem_cons, ← ih.2]
    omega

/-- The capacity of an input that counts. -/
def AnnotatedCellInput.countedShannons (i : AnnotatedCellInput) : ℕ :=
  if i.data = none then 0 else i.shannons

theorem AnnotatedCellInput.counted_eq (i : AnnotatedCellInput) :
    i.counted = UInt64.ofNat i.countedShannons := by
  unfold counted countedShannons
  split
  · rfl
  · unfold capacity shannons
    cases i.cell <;> rfl

theorem AnnotatedTransaction.sourced_iff (t : AnnotatedTransaction) :
    (t.raw.inputs.map AnnotatedCellInput.countedShannons).sum ≤ t.inputSum ∧
      ((t.raw.inputs.map AnnotatedCellInput.countedShannons).sum = t.inputSum ↔ t.Sourced) := by
  have hle : ∀ i : AnnotatedCellInput, i.countedShannons ≤ i.shannons := by
    intro i
    unfold AnnotatedCellInput.countedShannons
    split
    · exact Nat.zero_le _
    · exact le_rfl
  obtain ⟨hsum, hiff⟩ := sum_eq_sum_iff hle t.raw.inputs
  refine ⟨hsum, hiff.trans (forall₂_congr fun i _ => ?_)⟩
  unfold AnnotatedCellInput.countedShannons
  split
  · rename_i hnone
    simp [hnone, eq_comm]
  · rename_i hsome
    simp [hsome]

end Sums

namespace SignState

theorem inputs_sum {is : List AnnotatedCellInput} {g g' : SignState}
    (h : Steps InputCounted is g g') : g'.inputAmountSnd + g'.daoInputAmount =
      g.inputAmountSnd + g.daoInputAmount + (is.map AnnotatedCellInput.counted).sum := by
  induction h with
  | nil => simp
  | @cons i is g g₁ g' h _ ih =>
    rw [ih, h.inputAmountSnd, h.daoInputAmount, List.map_cons, List.sum_cons]
    split
    · simp only [UInt64.add_zero]
      ac_rfl
    · simp only [UInt64.add_zero]
      ac_rfl

/-- All that the outputs are worth. -/
def outputTotal (g : SignState) : UInt64 :=
  g.tx.plainOutputAmount + g.tx.daoOutputAmount + g.tx.changeAmount

theorem OutputAdds.total {env : Env} {r g : SignState} (h : OutputAdds env r g) :
    g.outputTotal = r.outputTotal + r.cell.capacity := by
  cases h <;> simp only [outputTotal] <;> ac_rfl

theorem OutputFound.total {c : CellOutput} {k : ℕ} {g r : SignState} (h : OutputFound c k g r) :
    r.outputTotal = g.outputTotal := by
  rw [outputTotal, h.tx]
  rfl

theorem outputs_sum {env : Env} {xs : List (CellOutput × ℕ)} {y y' : Ended}
    (h : Steps (OutputDone env) xs y y') : y'.1.outputTotal =
      y.1.outputTotal + (xs.map fun x => UInt64.ofNat x.1.shannons).sum := by
  induction h with
  | nil => simp
  | @cons x xs y y₁ y' h _ ih =>
    obtain ⟨r, g, -, hr, hg, rfl⟩ := h
    have hstep : (outputStart (x.2 + 1) g).outputTotal = r.outputTotal + r.cell.capacity := hg.total
    rw [ih, List.map_cons, List.sum_cons, hstep, hr.total, hr.capacity]
    exact UInt64.add_assoc _ _ _

theorem OutputsEnded.total {g g' : SignState} (h : OutputsEnded g g') (he : Entries g) :
    g'.outputTotal = g.outputTotal := by
  cases h with
  | dao _ => rfl
  | sent _ _ => rfl
  | self _ ho =>
    have hzero : g.tx.plainOutputAmount = 0 := by
      rw [← he.total, ho]
      rfl
    simp only [outputTotal, hzero]
    simp [UInt64.add_comm]

/-- All that the inputs are worth. -/
def inputTotal (g : SignState) : UInt64 := g.inputAmountSnd + g.daoInputAmount

theorem outputs_inputTotal {env : Env} {xs : List (CellOutput × ℕ)} {y y' : Ended}
    (h : Steps (OutputDone env) xs y y') : y'.1.inputTotal = y.1.inputTotal := by
  induction h with
  | nil => rfl
  | @cons x xs y y₁ y' h _ ih =>
    obtain ⟨r, g, -, hr, hg, rfl⟩ := h
    have hadds : g.inputTotal = r.inputTotal := by cases hg <;> rfl
    refine ih.trans (hadds.trans ?_)
    rw [inputTotal, hr.amounts.1, hr.amounts.2.1]
    rfl

theorem OutputsEnded.inputTotal {g g' : SignState} (h : OutputsEnded g g') :
    g'.inputTotal = g.inputTotal := by
  cases h <;> rfl

theorem data_totals {env : Env} {xs : List (List UInt8 × ℕ)} {y y' : Ended}
    (h : Steps (DataDone env) xs y y') :
    y'.1.inputTotal = y.1.inputTotal ∧ y'.1.outputTotal = y.1.outputTotal := by
  induction h with
  | nil => exact ⟨rfl, rfl⟩
  | @cons x xs y y₁ y' h _ ih =>
    obtain ⟨r, g, hr, hg, rfl⟩ := h
    have hadds : g.inputTotal = r.inputTotal ∧ g.outputTotal = r.outputTotal := by
      cases hg <;> exact ⟨rfl, rfl⟩
    have hfound : r.inputTotal = y.1.inputTotal ∧ r.outputTotal = y.1.outputTotal := by
      rw [hr.rest]
      exact ⟨rfl, rfl⟩
    exact ⟨ih.1.trans (hadds.1.trans hfound.1), ih.2.trans (hadds.2.trans hfound.2)⟩

/-! ### Withdrawals -/

/-- The first input that withdraws sets the tag, and nothing changes it afterwards. -/
theorem inputs_withdraw {is : List AnnotatedCellInput} {g g' : SignState}
    (h : Steps InputCounted is g g') : g'.v.tag = .daoWithdraw ↔
      g.v.tag = .daoWithdraw ∨ ∃ i ∈ is, i.daoTag = some .daoWithdraw := by
  induction h with
  | nil => simp
  | @cons i is g g₁ g' h _ ih =>
    rw [ih, h.tag, List.exists_mem_cons_iff]
    cases htag : i.daoTag with
    | none => simp
    | some tag =>
      have hphase := h.phase tag htag
      simp only [Option.getD_some, Option.some.injEq]
      constructor
      · rintro (h | h)
        · exact .inr (.inl h)
        · exact .inr (.inr h)
      · rintro (hg | h | h)
        · rw [hg] at hphase
          exact .inl (hphase.resolve_right nofun).symm
        · exact .inl h
        · exact .inr h

theorem Entered.withdraw {g : SignState} {tag : OperationTag} {os : List Output}
    (h : Entered g tag os) : tag = .daoWithdraw ↔ g.v.tag = .daoWithdraw := by
  cases h with
  | last _ _ => exact Iff.rfl
  | first _ => exact Iff.rfl
  | next _ _ ht _ => rcases ht with ht | ht <;> simp [ht]

theorem outputs_withdraw {env : Env} {xs : List (CellOutput × ℕ)} {y y' : Ended}
    (h : Steps (OutputDone env) xs y y') :
    y'.1.v.tag = .daoWithdraw ↔ y.1.v.tag = .daoWithdraw := by
  induction h with
  | nil => exact Iff.rfl
  | @cons x xs y y₁ y' h _ ih =>
    obtain ⟨r, g, -, hr, hg, rfl⟩ := h
    have hadds : g.v.tag = .daoWithdraw ↔ r.v.tag = .daoWithdraw := by
      cases hg with
      | dao _ _ => exact Iff.rfl
      | change _ _ => exact Iff.rfl
      | away _ he => exact he.withdraw
    rw [← hr.v]
    exact ih.trans hadds

theorem data_withdraw {env : Env} {xs : List (List UInt8 × ℕ)} {y y' : Ended}
    (h : Steps (DataDone env) xs y y') :
    y'.1.v.tag = .daoWithdraw ↔ y.1.v.tag = .daoWithdraw := by
  induction h with
  | nil => exact Iff.rfl
  | @cons x xs y y₁ y' h _ ih =>
    obtain ⟨r, g, hr, hg, rfl⟩ := h
    have hv : r.v = y.1.v := by rw [hr.rest]
    have hadds : g.v.tag = .daoWithdraw ↔ r.v.tag = .daoWithdraw := by
      cases hg with
      | plain _ => exact Iff.rfl
      | dao _ _ ht =>
        have hne : outputTag r.cell.daoDataIsNonzero ≠ .daoWithdraw := by
          unfold outputTag
          split <;> exact nofun
        constructor
        · exact fun h => absurd h hne
        · intro h
          rw [h] at ht
          exact absurd (ht.resolve_right nofun).symm hne
    rw [← hv]
    exact ih.trans hadds

theorem TaggedAs.withdraw {g : SignState} {tag : OperationTag} (h : TaggedAs g tag) :
    tag = .daoWithdraw ↔ g.v.tag = .daoWithdraw := by
  unfold TaggedAs at h
  cases ht : g.v.tag <;> rw [ht] at h
  case notSet | plainTransfer => split_ifs at h <;> simp [h]
  all_goals simp_all

variable {sdk : Sdk} {t : AnnotatedTransaction} {s : Stages sdk t}

theorem Stages.Passed.withdraw (h : s.Passed) : s.final.v.tag = .daoWithdraw ↔ t.Withdraws := by
  have hstart : s.begun.v.tag = .notSet := by rw [s.nothing.v]
  rw [h.finalized.tag.withdraw, data_withdraw h.outputsData, h.ended.v.1,
    outputs_withdraw h.outputs]
  change s.read.v.tag = _ ↔ _
  rw [inputs_withdraw h.inputs, hstart]
  simp [AnnotatedTransaction.Withdraws]

theorem Stages.Passed.totals (h : s.Passed) :
    s.checked.1.inputTotal = UInt64.ofNat
      (t.raw.inputs.map AnnotatedCellInput.countedShannons).sum ∧
      s.checked.1.outputTotal = UInt64.ofNat t.outputSum := by
  obtain ⟨hin, hout⟩ := data_totals h.outputsData
  constructor
  · have hzero : s.begun.inputTotal = 0 := by
      rw [SignState.inputTotal, s.nothing.inputAmountSnd, s.nothing.daoInputAmount]
      rfl
    rw [hin, h.ended.inputTotal, outputs_inputTotal h.outputs]
    refine (inputs_sum h.inputs).trans ?_
    have hcounted : t.raw.inputs.map AnnotatedCellInput.counted =
        t.raw.inputs.map fun i => UInt64.ofNat i.countedShannons :=
      List.map_congr_left fun i _ => i.counted_eq
    rw [hcounted, sum_ofNat]
    change s.begun.inputTotal + _ = _
    rw [hzero, UInt64.zero_add]
  · have hzero : s.read.finishInputs.outputTotal = 0 := rfl
    rw [hout, h.ended.total h.entries, outputs_sum h.outputs, hzero, UInt64.zero_add]
    have hmap : (t.raw.outputs.zipIdx.map fun x => UInt64.ofNat x.1.shannons) =
        t.raw.outputs.map fun c => UInt64.ofNat c.shannons := by
      have hfst := congrArg (List.map fun c : CellOutput => UInt64.ofNat c.shannons)
        (List.zipIdx_map_fst 0 t.raw.outputs)
      rwa [List.map_map] at hfst
    rw [hmap, sum_ofNat]
    rfl

/-! ### What is shown -/

theorem feeScreen_iff {env : Env} {g : SignState} {screens : List Screen}
    (h : g.signScreens env = .ok screens) (fee : UInt64) :
    (⟨"Fee", .ckb fee⟩ ∈ screens ↔ g.v.tag ≠ .daoWithdraw ∧ fee = g.v.totalFee) ∧
      (⟨"Compensation", .ckb fee⟩ ∈ screens ↔ g.v.tag = .daoWithdraw ∧ fee = g.v.totalFee) := by
  unfold signScreens at h
  cases ht : g.v.tag <;> rw [ht] at h <;> cases h
  case plainTransfer => split <;> simp
  all_goals simp [outputScreens]

/-- The screens show the difference of the sums, as integers. -/
def ShowsDifference (t : AnnotatedTransaction) (g : SignState) (q : Prompt) : Prop :=
  (g.v.tag = .daoWithdraw → ∃ compensation, ⟨"Compensation", .ckb compensation⟩ ∈ q.screens ∧
    t.inputSum ≤ t.outputSum ∧ compensation.toNat = t.outputSum - t.inputSum) ∧
  (g.v.tag ≠ .daoWithdraw → ∃ fee, ⟨"Fee", .ckb fee⟩ ∈ q.screens ∧
    t.outputSum ≤ t.inputSum ∧ fee.toNat = t.inputSum - t.outputSum)

/-- The fee or compensation is the difference exactly if that has the right sign, and all inputs
count. -/
theorem difference_shown_iff {sent : List Sent} (ha : Accepts sdk sent) (hfit : t.Fits)
    (hp : payload sent = t.encode) {env : Env} {ins : UInt8} {q : Prompt}
    (hq : (accepted sdk sent).signComplete env ins = .ok q) (hin : t.inputSum < 2 ^ 64)
    (hout : t.outputSum < 2 ^ 64) :
    ShowsDifference t (accepted sdk sent) q ↔ t.Balances ∧ t.Sourced := by
  obtain ⟨s, hpassed, hcore, -, -⟩ := ha.passed hfit hp
  have hv : (feedAll sdk sent).1.core.v = s.final.core.v := by rw [hcore]
  have hv : (accepted sdk sent).v = s.final.v := hv
  obtain ⟨hinput, houtput⟩ := hpassed.totals
  have hfee := hpassed.finalized.totalFee
  have hscreens := feeScreen_iff (signComplete_screens hq)
  obtain ⟨hle, hiff⟩ := t.sourced_iff
  rw [← hiff]
  have htag := hpassed.withdraw
  rw [← hv] at htag
  change s.final.v.totalFee = if s.final.v.tag = .daoWithdraw then
    -(s.checked.1.inputTotal - s.checked.1.outputTotal)
    else s.checked.1.inputTotal - s.checked.1.outputTotal at hfee
  rw [← hv, hinput, houtput] at hfee
  generalize (t.raw.inputs.map AnnotatedCellInput.countedShannons).sum = counted at *
  have hnat : ∀ a b : ℕ, a < 2 ^ 64 → b < 2 ^ 64 →
      (UInt64.ofNat a - UInt64.ofNat b).toNat = (2 ^ 64 - b + a) % 2 ^ 64 := by
    intro a b ha hb
    rw [UInt64.toNat_sub, UInt64.toNat_ofNat_of_lt' ha, UInt64.toNat_ofNat_of_lt' hb]
  unfold ShowsDifference AnnotatedTransaction.Balances
  by_cases hw : (accepted sdk sent).v.tag = .daoWithdraw
  · rw [if_pos (htag.mp hw)]
    rw [if_pos hw] at hfee
    simp only [(hscreens _).2, hw, true_and, exists_eq_left, ne_eq, not_true, false_implies,
      and_true, true_implies]
    rw [hfee, UInt64.toNat_neg, hnat _ _ (by omega) hout]
    simp only [UInt64.size]
    omega
  · rw [if_neg (mt htag.mpr hw)]
    rw [if_neg hw] at hfee
    simp only [(hscreens _).1, ne_eq, hw, not_false_eq_true, true_and, exists_eq_left,
      false_implies, true_implies]
    rw [hfee, hnat _ _ (by omega) hout]
    omega

/-- A cell of the sample key that pays another key. -/
def paymentTransaction (spent paid : ℕ) : AnnotatedTransaction :=
  sampleTransaction [sampleInput [sampleCell sampleLock spent] [[]]]
    [sampleCell (sighashLock (List.replicate 20 0x11)) paid] [[]] [selfWitness.drop 8]

def paymentPackets (spent paid : ℕ) : List Sent :=
  samplePackets {} (paymentTransaction spent paid).encode

/-- 200 CKB are paid out of 100, and the fee is 184467440637.09551616 CKB. -/
theorem overpayment_wraps : ¬ ∀ (sdk : Sdk) (sent : List Sent) (t : AnnotatedTransaction)
    (env : Env) (ins : UInt8) (q : Prompt), Accepts sdk sent → t.Fits → payload sent = t.encode →
      (accepted sdk sent).signComplete env ins = .ok q → t.inputSum < 2 ^ 64 →
        t.outputSum < 2 ^ 64 → ShowsDifference t (accepted sdk sent) q := by
  intro h
  obtain ⟨ha, q, hq, hfee⟩ := @prompts_of_run (keySdk [])
    (paymentPackets 10000000000 20000000000) ⟨keySdk [], {}, []⟩ insSign
    (fun g _ => decide (g.v.tag ≠ .daoWithdraw ∧ g.v.totalFee = 18446744063709551616))
    (by decide +kernel) (by decide +kernel)
  simp only [decide_eq_true_eq] at hfee
  obtain ⟨fee, -, hle, -⟩ := (h _ _ (paymentTransaction 10000000000 20000000000) _ _ q ha
    (by decide +kernel) (by decide +kernel) hq (by decide +kernel) (by decide +kernel)).2 hfee.1
  exact absurd hle (by decide +kernel)

theorem payment_shown : ∃ q,
    (accepted (keySdk []) (paymentPackets 10000000001 10000000000)).signComplete
      ⟨keySdk [], {}, []⟩ insSign = .ok q ∧ ShowsDifference (paymentTransaction 10000000001 10000000000)
      (accepted (keySdk []) (paymentPackets 10000000001 10000000000)) q := by
  obtain ⟨ha, q, hq, -⟩ := @prompts_of_run (keySdk []) (paymentPackets 10000000001 10000000000)
    ⟨keySdk [], {}, []⟩ insSign (fun _ _ => true) (by decide +kernel) (by decide +kernel)
  have hbalances : (paymentTransaction 10000000001 10000000000).Balances := by
    unfold AnnotatedTransaction.Balances
    decide +kernel
  exact ⟨q, hq, (@difference_shown_iff _ (paymentTransaction 10000000001 10000000000) _ ha
    (by decide +kernel) (by decide +kernel) _ _ q hq (by decide +kernel) (by decide +kernel)).mpr
      ⟨hbalances, by decide +kernel⟩⟩

end SignState
end NervosLedger
