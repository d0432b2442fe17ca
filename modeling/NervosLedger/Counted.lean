import NervosLedger.Stages
import NervosLedger.Accounting

/-!
# What is counted

What an input, an output or an item of data adds to the amounts, the tag and the flags of a
transaction that no callback rejects.
-/
namespace NervosLedger
open Molecule Machine

/-! ### Inputs -/

/-- The operation that the data of a DAO cell stand for when it is spent. -/
def inputTag (nonzero : Bool) : OperationTag := if nonzero then .daoWithdraw else .daoPrepare

namespace AnnotatedCellInput
variable (i : AnnotatedCellInput)

/-- The input spends a cell of the DAO. -/
def isDao : Bool := i.cell.any CellOutput.isDao

def isMultisig : Bool := i.cell.any CellOutput.isMultisig

def capacity : UInt64 := (i.cell.map fun c => readUInt64 c.capacity).getD 0

/-- The lock arguments begin otherwise than the window. -/
def differs (window : List UInt8) : Bool := i.cell.any fun c => !c.lock.args.isPrefixOf window

/-- The operation that the input is a part of, if it spends a cell of the DAO. -/
def daoTag : Option OperationTag :=
  if i.isDao then i.data.map fun d => inputTag (d.any (· ≠ 0)) else none

/-- The input spends a cell with data that are not the DAO's. -/
def hasContractData : Bool := !i.isDao && i.data.any (· ≠ [])

/-- The capacity of the input, if the data of its cell are there. -/
def counted : UInt64 := if i.data = none then 0 else i.capacity

end AnnotatedCellInput

namespace SignState

/-- The input was counted. -/
structure InputCounted (i : AnnotatedCellInput) (g g' : SignState) : Prop where
  currentLockArg : g'.currentLockArg = g.currentLockArg
  changeLockArg : g'.changeLockArg = g.changeLockArg
  tag : g'.v.tag = i.daoTag.getD g.v.tag
  phase : ∀ tag, i.daoTag = some tag → g.v.tag = tag ∨ g.v.tag = .notSet
  eight : i.isDao = true → ∀ d, i.data = some d → d.length = 8
  contractUnknown : g'.v.contractUnknown = (g.v.contractUnknown || i.hasContractData)
  daoInputAmount : g'.daoInputAmount = g.daoInputAmount + if i.isDao then i.counted else 0
  inputAmountSnd : g'.inputAmountSnd = g.inputAmountSnd + if i.isDao then 0 else i.counted
  inputAmountFst : g'.inputAmountFst = g.inputAmountFst +
    if i.isDao || i.differs g.currentWindow then 0 else i.counted
  signingMultisigInput : g'.signingMultisigInput = (g.signingMultisigInput ||
    !i.isDao && i.data.isSome && i.isMultisig)
  flags : g'.v.hasDestinationAddress = g.v.hasDestinationAddress ∧
    g'.v.hasChangeAddress = g.v.hasChangeAddress

/-- The cell of an input was read, and nothing was counted. -/
structure SourceRead (i : AnnotatedCellInput) (g g' : SignState) : Prop where
  capacity : g'.cell.capacity = i.capacity
  isDao : g'.cell.isDao = i.isDao
  isMultisig : g'.cell.isMultisig = i.isMultisig
  nonequal : g'.cell.lockArgNonequal = i.differs g.currentWindow
  currentLockArg : g'.currentLockArg = g.currentLockArg
  changeLockArg : g'.changeLockArg = g.changeLockArg
  tag : g'.v.tag = g.v.tag
  contractUnknown : g'.v.contractUnknown = g.v.contractUnknown
  daoInputAmount : g'.daoInputAmount = g.daoInputAmount
  inputAmountSnd : g'.inputAmountSnd = g.inputAmountSnd
  inputAmountFst : g'.inputAmountFst = g.inputAmountFst
  signingMultisigInput : g'.signingMultisigInput = g.signingMultisigInput
  flags : g'.v.hasDestinationAddress = g.v.hasDestinationAddress ∧
    g'.v.hasChangeAddress = g.v.hasChangeAddress

section Input
variable {sdk : Sdk}

theorem readSource_read (env : Env) (i : AnnotatedCellInput) (tmp : LockArg) (index : ℕ)
    {g : SignState} (hg : g.cell = {}) : SourceRead i g (readSource env tmp index g i.cell) := by
  have hend : ∀ g : SignState, ∃ isUnsafe distinct first last, g.inputLockArgEnd = { g with
      isUnsafe := isUnsafe
      distinctInputSources := distinct
      v.inputCountFst := first
      inp.lastInputLockArg := last } := by
    intro g
    simp only [inputLockArgEnd]
    split_ifs <;> exact ⟨_, _, _, _, rfl⟩
  cases hc : i.cell with
  | none =>
    constructor <;> simp [readSource, AnnotatedCellInput.capacity, AnnotatedCellInput.isDao,
      AnnotatedCellInput.isMultisig, AnnotatedCellInput.differs, hc, hg]
  | some c =>
    obtain ⟨isUnsafe, distinct, first, last, heq⟩ := hend
      (readLock env .currentLockArg c tmp index (!c.lock.args.isPrefixOf g.currentWindow) g)
    have hread : readSource env tmp index g (some c) = readType env c _ :=
      congrArg (readType env c) heq
    rw [hread]
    constructor <;> simp [readType, readLock, AnnotatedCellInput.capacity, AnnotatedCellInput.isDao,
      AnnotatedCellInput.isMultisig, AnnotatedCellInput.differs, hc]

theorem readSource_nonzero (env : Env) (tmp : LockArg) (index : ℕ) {g : SignState} (hg : g.cell = {})
    (c : Option CellOutput) : (readSource env tmp index g c).cell.daoDataIsNonzero = false := by
  cases c with
  | none =>
    rw [readSource, hg]
  | some c =>
    change (readLock env .currentLockArg c tmp index _ g).inputLockArgEnd.cell.daoDataIsNonzero = _
    rw [inputLockArgEnd_cell]
    rfl

theorem finishInputCellData_dao (env : Env) {g : SignState} (hactive : g.cell.active = true)
    (hdao : g.cell.isDao = true) : g.finishInputCellData env =
      if g.cell.dataSize ≠ 8 then { g with daoCellOwner := g.lockArgTmp.hash }.reject
      else if g.v.tag ≠ inputTag g.cell.daoDataIsNonzero ∧ g.v.tag ≠ .notSet then
        { g with
          daoCellOwner := g.lockArgTmp.hash
          daoInputAmount := g.daoInputAmount + g.cell.capacity }.reject
      else { g with
        daoCellOwner := g.lockArgTmp.hash
        daoInputAmount := g.daoInputAmount + g.cell.capacity
        v.tag := inputTag g.cell.daoDataIsNonzero } := by
  unfold finishInputCellData
  rw [if_neg (by simp [hactive]), if_pos hdao]
  rfl

theorem finishInputCellData_plain {g : SignState} (hactive : g.cell.active = true)
    (hdao : g.cell.isDao = false) : g.finishInputCellData (openEnv sdk) = { g with
      v.contractUnknown := g.v.contractUnknown || g.cell.dataSize > 0
      inputAmountSnd := g.inputAmountSnd + g.cell.capacity
      inputAmountFst :=
        if g.cell.lockArgNonequal then g.inputAmountFst else g.inputAmountFst + g.cell.capacity
      signingMultisigInput := g.signingMultisigInput || g.cell.isMultisig } := by
  unfold finishInputCellData
  rw [if_neg (by simp [hactive]), if_neg (by simp [hdao]), if_neg (by simp [openEnv])]

/-- What is counted once the data were read. -/
theorem SourceRead.finish {i : AnnotatedCellInput} {g x : SignState} (h : SourceRead i g x)
    {d : List UInt8} (hd : i.data = some d) (hactive : x.cell.active = true)
    (hsize : x.cell.dataSize = min 15 d.length)
    (hnonzero : x.cell.daoDataIsNonzero = d.any (· ≠ 0))
    (hu : (x.finishInputCellData (openEnv sdk)).isUnsafe = false) :
    InputCounted i g (x.finishInputCellData (openEnv sdk)) := by
  have hcounted : i.counted = i.capacity := if_neg (by simp [hd])
  cases hdao : i.isDao with
  | true =>
    have htag : i.daoTag = some (inputTag x.cell.daoDataIsNonzero) := by
      simp [AnnotatedCellInput.daoTag, hd, hdao, hnonzero]
    have hcontract : i.hasContractData = false := by
      simp [AnnotatedCellInput.hasContractData, hdao]
    rw [finishInputCellData_dao (openEnv sdk) hactive (h.isDao.trans hdao)] at hu ⊢
    by_cases height : x.cell.dataSize ≠ 8
    · rw [if_pos height] at hu
      cases hu
    · rw [if_neg height] at hu ⊢
      by_cases hmix : x.v.tag ≠ inputTag x.cell.daoDataIsNonzero ∧ x.v.tag ≠ .notSet
      · rw [if_pos hmix] at hu
        cases hu
      · rw [if_neg hmix]
        refine ⟨h.currentLockArg, h.changeLockArg, ?_, ?_, ?_, ?_, ?_, ?_, ?_, ?_, h.flags⟩
        · rw [htag]
          rfl
        · intro tag ht
          rw [htag, Option.some.injEq] at ht
          rw [← ht, ← h.tag]
          exact not_and_or.mp hmix |>.imp not_not.mp not_not.mp
        · intro _ d' hd'
          rw [hd, Option.some.injEq] at hd'
          rw [← hd']
          omega
        · simp [hcontract, h.contractUnknown]
        · simp [hdao, hcounted, h.daoInputAmount, h.capacity]
        · simp [hdao, h.inputAmountSnd]
        · simp [hdao, h.inputAmountFst]
        · simp [hdao, h.signingMultisigInput]
  | false =>
    have htag : i.daoTag = none := by simp [AnnotatedCellInput.daoTag, hdao]
    rw [finishInputCellData_plain hactive (h.isDao.trans hdao)]
    refine ⟨h.currentLockArg, h.changeLockArg, ?_, ?_, ?_, ?_, ?_, ?_, ?_, ?_, h.flags⟩
    · simp [htag, h.tag]
    · simp [htag]
    · simp [hdao]
    · have hlen : decide (0 < d.length) = !decide (d = []) := by
        cases d <;> simp
      simp [h.contractUnknown, hsize, AnnotatedCellInput.hasContractData, hdao, hd, hlen]
    · simp [hdao, h.daoInputAmount]
    · simp [hdao, hcounted, h.inputAmountSnd, h.capacity]
    · simp only [hdao, Bool.false_or, h.nonequal, hcounted, h.inputAmountFst, h.capacity]
      split <;> simp
    · simp [hdao, hd, h.signingMultisigInput, h.isMultisig]

theorem SourceRead.counted {i : AnnotatedCellInput} {g x : SignState} (h : SourceRead i g x)
    (hnonzero : x.cell.daoDataIsNonzero = false)
    (hu : (readSourceData (openEnv sdk) x i.data).isUnsafe = false) :
    InputCounted i g (readSourceData (openEnv sdk) x i.data) := by
  cases hd : i.data with
  | none =>
    have htag : i.daoTag = none := by simp [AnnotatedCellInput.daoTag, hd]
    have hcounted : i.counted = 0 := if_pos hd
    have hcontract : i.hasContractData = false := by simp [AnnotatedCellInput.hasContractData, hd]
    refine ⟨h.currentLockArg, h.changeLockArg, ?_, ?_, ?_, ?_, ?_, ?_, ?_, ?_, h.flags⟩ <;>
      simp [htag, hcounted, hcontract, hd, readSourceData, h.tag, h.contractUnknown,
        h.daoInputAmount, h.inputAmountSnd, h.inputAmountFst, h.signingMultisigInput]
  | some d =>
    have hread : SourceRead i g (readData d { x with cell.active := true }) :=
      ⟨h.1, h.2, h.3, h.4, h.5, h.6, h.7, h.8, h.9, h.10, h.11, h.12, h.13⟩
    rw [hd] at hu
    exact hread.finish hd rfl rfl (by simp [readData, hnonzero]) hu

/-- A step of the inputs counts its input, if it is not rejected. -/
theorem InputStep.counted {i : AnnotatedCellInput} {g g' : SignState}
    (h : InputStep (openEnv sdk) i g g') (hu : g'.isUnsafe = false) : InputCounted i g g' := by
  obtain ⟨tmp, index, -, rfl⟩ := h
  have hread := readSource_read (openEnv sdk) i tmp index
    (g := inputSaveIndex i.input.previousOutput.index (inputStart g)) rfl
  have hcounted := hread.counted (readSource_nonzero (openEnv sdk) tmp index rfl i.cell) hu
  exact ⟨hcounted.1, hcounted.2, hcounted.3, hcounted.4, hcounted.5, hcounted.6, hcounted.7,
    hcounted.8, hcounted.9, hcounted.10, hcounted.11⟩

end Input
/-! ### Outputs -/

section Output
variable {env : Env} {g : SignState}

/-- The lock of the output is taken for the change lock. -/
def Own (g : SignState) : Prop := g.cell.lockArgNonequal = false ∧ g.cell.isMultisig = false

/-- `output_end` counts the output as one that is sent to someone else. -/
def SentAway (g : SignState) : Prop := g.cell.isDao = false ∧ ¬ Own g

instance : Decidable (Own g) := inferInstanceAs (Decidable (_ ∧ _))

instance : Decidable (SentAway g) := inferInstanceAs (Decidable (_ ∧ _))

theorem own_iff : Own g ↔ (g.cell.lockArgNonequal || g.cell.isMultisig) = false := by
  simp [Own]

theorem not_own_iff : ¬ Own g ↔ (g.cell.lockArgNonequal || g.cell.isMultisig) = true := by
  rw [own_iff, Bool.not_eq_false]

/-- An entry of `outputs` is taken for the one of the current cell. -/
def EntryFor (o : Output) (g : SignState) : Prop :=
  o.destination.hash = g.lockArgTmp.hash ∧ o.isMultisig = g.cell.isMultisig

/-- The entry of an output that is sent to someone else is the last one, old or new. -/
inductive Entered (g : SignState) : OperationTag → List Output → Prop
  | last {pre o} (ho : g.tx.outputs = pre ++ [o]) (h : EntryFor o g) :
    Entered g g.v.tag (pre ++ [{ o with capacity := o.capacity + g.cell.capacity }])
  | first (ho : g.tx.outputs = []) :
    Entered g g.v.tag [⟨g.cell.capacity, g.lockArgTmp, g.cell.isMultisig⟩]
  | next {pre o} (ho : g.tx.outputs = pre ++ [o]) (h : ¬ EntryFor o g)
    (ht : g.v.tag = .notSet ∨ g.v.tag = .multiOutputTransfer)
    (hlen : g.tx.outputs.length < maxOutputs) : Entered g .multiOutputTransfer
      (g.tx.outputs ++ [⟨g.cell.capacity, g.lockArgTmp, g.cell.isMultisig⟩])

theorem modify_concat (pre : List Output) (o : Output) (f : Output → Output) :
    (pre ++ [o]).modify pre.length f = pre ++ [f o] := by
  induction pre with
  | nil => rfl
  | cons a pre ih => rw [List.cons_append, List.length_cons, List.modify_succ_cons, ih]; rfl

/-- The flag is set with the first entry. -/
def Flagged (g : SignState) : Prop := g.v.hasDestinationAddress = true ↔ g.tx.outputs ≠ []

theorem plainOutputEnd_entered (hf : Flagged g) (hu : g.plainOutputEnd.1.isUnsafe = false) :
    ∃ tag os, Entered g tag os ∧ g.plainOutputEnd.1 = { g with
      tx.plainOutputAmount := g.tx.plainOutputAmount + g.cell.capacity
      tx.outputs := os
      v.tag := tag
      v.hasDestinationAddress := true } := by
  cases hd : g.v.hasDestinationAddress with
  | false =>
    have hnil : g.tx.outputs = [] := by
      by_contra hne
      rw [hf.mpr hne] at hd
      cases hd
    have hstep : g.plainOutputEnd.1 = g.pushOutput.addToLastOutput := by
      unfold plainOutputEnd
      rw [if_pos (by simp [hd]), if_neg (by simp [hnil])]
    refine ⟨_, _, .first hnil, ?_⟩
    rw [hstep]
    simp [addToLastOutput, pushOutput, hnil]
  | true =>
    obtain ⟨pre, o, ho⟩ : ∃ pre o, g.tx.outputs = pre ++ [o] :=
      (List.eq_nil_or_concat' g.tx.outputs).resolve_left (hf.mp hd)
    have hlast : g.tx.outputs.getLast?.getD default = o := by rw [ho, List.getLast?_concat]; rfl
    unfold plainOutputEnd at hu ⊢
    rw [if_neg (by simp [hd])] at hu ⊢
    rw [hlast] at hu ⊢
    dsimp only at hu ⊢
    by_cases hsame : EntryFor o g
    · rw [if_neg (by simpa [EntryFor] using hsame)]
      refine ⟨_, _, .last ho hsame, ?_⟩
      simp only [addToLastOutput, ho, List.length_append, List.length_singleton,
        Nat.add_sub_cancel, modify_concat]
    · have hdiffer : o.destination.hash ≠ g.lockArgTmp.hash ∨ o.isMultisig ≠ g.cell.isMultisig :=
        not_and_or.mp hsame
      rw [if_pos hdiffer] at hu ⊢
      by_cases htag : g.v.tag ≠ .notSet ∧ g.v.tag ≠ .multiOutputTransfer
      · rw [if_pos htag] at hu
        cases hu
      · rw [if_neg htag] at hu ⊢
        by_cases hlen : g.tx.outputs.length ≥ maxOutputs
        · rw [if_pos hlen] at hu
          cases hu
        · rw [if_neg hlen]
          refine ⟨_, _, .next ho hsame (not_and_or.mp htag |>.imp not_not.mp not_not.mp)
            (not_le.mp hlen), ?_⟩
          simp [addToLastOutput, pushOutput, modify_concat]

/-- What an output that is not rejected adds. -/
inductive OutputAdds (env : Env) (g : SignState) : SignState → Prop
  | dao (hd : g.cell.isDao = true) (ho : Own g) : OutputAdds env g { g with
      daoCellOwner := g.lockArgTmp.hash
      tx.daoOutputAmount := g.tx.daoOutputAmount + g.cell.capacity
      tx.daoBitmask := g.tx.daoBitmask ||| intShl env.sdk g.tx.currentOutputIndex
      v.hasChangeAddress := true }
  | away {tag os} (ha : SentAway g) (he : Entered g tag os) : OutputAdds env g { g with
      tx.plainOutputAmount := g.tx.plainOutputAmount + g.cell.capacity
      tx.outputs := os
      v.tag := tag
      v.hasDestinationAddress := true }
  | change (hd : g.cell.isDao = false) (ho : Own g) : OutputAdds env g { g with
      tx.changeAmount := g.tx.changeAmount + g.cell.capacity
      v.hasChangeAddress := true }

theorem outputEnd_adds (hf : Flagged g) (hu : (g.outputEnd env).1.isUnsafe = false) :
    OutputAdds env g (g.outputEnd env).1 := by
  unfold outputEnd at hu ⊢
  cases hd : g.cell.isDao with
  | true =>
    rw [hd, if_pos rfl] at hu
    rw [if_pos rfl]
    unfold daoOutputEnd at hu ⊢
    dsimp only at hu ⊢
    by_cases ho : Own g
    · rw [if_neg (by rw [own_iff.mp ho]; exact Bool.false_ne_true)]
      exact .dao hd ho
    · rw [if_pos (not_own_iff.mp ho)] at hu
      cases hu
  | false =>
    rw [hd, if_neg Bool.false_ne_true] at hu
    rw [if_neg Bool.false_ne_true]
    by_cases ho : Own g
    · rw [if_neg (by rw [own_iff.mp ho]; exact Bool.false_ne_true)]
      exact .change hd ho
    · rw [if_pos (not_own_iff.mp ho)] at hu ⊢
      obtain ⟨tag, os, he, heq⟩ := plainOutputEnd_entered hf hu
      rw [heq]
      exact .away ⟨hd, ho⟩ he

/-- What `output_end` finds of an output. -/
structure OutputFound (c : CellOutput) (k : ℕ) (g r : SignState) : Prop where
  capacity : r.cell.capacity = readUInt64 c.capacity
  isDao : r.cell.isDao = c.isDao
  isMultisig : r.cell.isMultisig = c.isMultisig
  nonequal : r.cell.lockArgNonequal = !c.lock.args.isPrefixOf g.changeWindow
  lockArgTmp : c.lock.args.length ≤ 28 → r.lockArgTmp = .ofList 28 c.lock.args
  v : r.v = g.v
  tx : r.tx = { g.tx with currentOutputIndex := k }
  daoCellOwner : r.daoCellOwner = g.daoCellOwner
  changeLockArg : r.changeLockArg = g.changeLockArg
  amounts : r.daoInputAmount = g.daoInputAmount ∧ r.inputAmountSnd = g.inputAmountSnd ∧
    r.inputAmountFst = g.inputAmountFst
  sources : r.distinctInputSources = g.distinctInputSources ∧
    r.signingMultisigInput = g.signingMultisigInput ∧ r.currentLockArg = g.currentLockArg

/-- A step of the outputs, if it is not rejected. -/
theorem OutputStep.adds {x : CellOutput × ℕ} {y y' : Ended} (h : OutputStep env x y y')
    (hf : Flagged y.1) (hu : y'.1.isUnsafe = false) : ∃ r g, OutputFound x.1 x.2 y.1 r ∧
      OutputAdds env r g ∧ y' = (outputStart (x.2 + 1) g, y.2 ++ [r]) := by
  obtain ⟨tmp, index, htmp, rfl⟩ := h
  refine ⟨_, _, ?_, outputEnd_adds (g := outputRead env x.1 x.2 tmp index y.1) hf hu, rfl⟩
  constructor
  case lockArgTmp => exact htmp
  all_goals simp [outputRead, readType, readLock, changeWindow]

end Output
/-- What the end of the outputs changes. -/
inductive OutputsEnded (g : SignState) : SignState → Prop
  | dao (h : g.tx.daoBitmask ≠ 0 ∨ g.v.tag = .daoPrepare ∨ g.v.tag = .daoWithdraw) :
    OutputsEnded g g
  | sent (h : ¬ (g.tx.daoBitmask ≠ 0 ∨ g.v.tag = .daoPrepare ∨ g.v.tag = .daoWithdraw))
    (hs : g.v.hasDestinationAddress = true ∨ g.v.hasChangeAddress = false) :
    OutputsEnded g { g with tx.isSelfTransfer := false }
  | self (h : ¬ (g.tx.daoBitmask ≠ 0 ∨ g.v.tag = .daoPrepare ∨ g.v.tag = .daoWithdraw))
    (ho : g.tx.outputs = []) : OutputsEnded g { g with
      tx.isSelfTransfer := true
      tx.plainOutputAmount := g.tx.changeAmount
      tx.changeAmount := 0
      tx.outputs := [⟨0, .ofList 28 g.changeLockArg.toList, false⟩]
      v.hasDestinationAddress := false
      v.hasChangeAddress := false }

theorem outputsEnd_ended {g : SignState} (he : Entries g) : OutputsEnded g g.outputsEnd.1 := by
  unfold outputsEnd
  by_cases hdao : g.tx.daoBitmask ≠ 0 ∨ g.v.tag = .daoPrepare ∨ g.v.tag = .daoWithdraw
  · rw [if_pos hdao]
    exact .dao hdao
  · rw [if_neg hdao]
    dsimp only
    cases hd : g.v.hasDestinationAddress with
    | true => exact .sent hdao (.inl hd)
    | false =>
      cases hc : g.v.hasChangeAddress with
      | false => exact .sent hdao (.inr hc)
      | true =>
        have hnil : g.tx.outputs = [] := by
          have hnot := mt he.flag.mpr (by simp [hd])
          exact List.length_eq_zero_iff.mp (by omega)
        have hzero : g.tx.plainOutputAmount = 0 := by
          rw [← he.total, hnil]
          rfl
        simp only [Bool.not_false, Bool.and_self, Bool.not_true, Bool.false_eq_true, if_false,
          hzero, hnil, ne_eq, not_true, List.length_nil]
        exact .self hdao hnil

/-! ### The data of the outputs -/

/-- The operation that the data of a DAO output stand for. -/
def outputTag (nonzero : Bool) : OperationTag := if nonzero then .daoPrepare else .daoDeposit

/-- What the data of an output add, if they are not rejected. -/
inductive DataAdds (g : SignState) : SignState → Prop
  | dao (hd : g.cell.isDao = true) (hsize : g.cell.dataSize = 8)
    (ht : g.v.tag = outputTag g.cell.daoDataIsNonzero ∨ g.v.tag = .notSet) :
    DataAdds g { g with v.tag := outputTag g.cell.daoDataIsNonzero }
  | plain (hd : g.cell.isDao = false) :
    DataAdds g { g with v.contractUnknown := g.v.contractUnknown || g.cell.dataSize > 0 }

theorem finishOutputCellData_adds {sdk : Sdk} {g : SignState}
    (hu : (g.finishOutputCellData (openEnv sdk)).isUnsafe = false) :
    DataAdds g (g.finishOutputCellData (openEnv sdk)) := by
  cases hd : g.cell.isDao with
  | true =>
    have hfinish : g.finishOutputCellData (openEnv sdk) =
        if g.cell.dataSize ≠ 8 then g.reject
        else if g.v.tag ≠ outputTag g.cell.daoDataIsNonzero ∧ g.v.tag ≠ .notSet then g.reject
        else { g with v.tag := outputTag g.cell.daoDataIsNonzero } := if_pos hd
    rw [hfinish] at hu ⊢
    by_cases hsize : g.cell.dataSize ≠ 8
    · rw [if_pos hsize] at hu
      cases hu
    · rw [if_neg hsize] at hu ⊢
      by_cases htag : g.v.tag ≠ outputTag g.cell.daoDataIsNonzero ∧ g.v.tag ≠ .notSet
      · rw [if_pos htag] at hu
        cases hu
      · rw [if_neg htag]
        exact .dao hd (not_not.mp hsize) (not_and_or.mp htag |>.imp not_not.mp not_not.mp)
  | false =>
    unfold finishOutputCellData
    rw [if_neg (by simp [hd]), if_neg (by simp [openEnv])]
    exact .plain hd

/-- What `finish_output_cell_data` finds of the data of an output. -/
structure DataFound (env : Env) (d : List UInt8) (k : ℕ) (g r : SignState) : Prop where
  isDao : r.cell.isDao = decide ((g.tx.daoBitmask &&& longShl env.sdk k) ≠ 0)
  dataSize : r.cell.dataSize = min 15 d.length
  nonzero : r.cell.daoDataIsNonzero =
    (g.cell.daoDataIsNonzero || g.cell.active && d.any (· ≠ 0))
  active : r.cell.active = g.cell.active
  rest : r = { g with cell := r.cell }

/-- A step of the data, if it is not rejected. -/
theorem OutputDataStep.adds {sdk : Sdk} {x : List UInt8 × ℕ} {y y' : Ended}
    (h : OutputDataStep (openEnv sdk) x y y') (hu : y'.1.isUnsafe = false) : ∃ r g,
      DataFound (openEnv sdk) x.1 x.2 y.1 r ∧ DataAdds r g ∧
        y' = (validateOutputDataStart (openEnv sdk) (x.2 + 1) g, y.2 ++ [r]) := by
  subst h
  exact ⟨outputDataRead (openEnv sdk) x.1 x.2 y.1, _, ⟨rfl, rfl, rfl, rfl, rfl⟩,
    @finishOutputCellData_adds sdk (outputDataRead (openEnv sdk) x.1 x.2 y.1) hu, rfl⟩

/-! ### The end of the raw transaction -/

/-- The transaction gets a tag at the end. -/
def TaggedAs (g : SignState) (tag : OperationTag) : Prop :=
  match g.v.tag with
  | .notSet | .plainTransfer =>
    if g.distinctInputSources > 1 then
      tag = .multiInputTransfer ∧ g.signingMultisigInput = false ∧ g.v.inputCountFst ≠ 0
    else tag = if g.tx.isSelfTransfer then .selfTransfer else .plainTransfer
  | .multiInputTransfer => False
  | .multiOutputTransfer => tag = .multiOutputTransfer ∧ ¬ g.distinctInputSources > 1
  | .daoPrepare => tag = .daoPrepare ∧ g.tx.daoOutputAmount = g.daoInputAmount
  | .daoWithdraw => tag = .daoWithdraw ∧ g.tx.daoOutputAmount = 0 ∧ g.tx.plainOutputAmount = 0
  | tag' => tag = tag'

/-- What is shown for a tag besides the fee. -/
structure TagAmounts (g g' : SignState) : Prop where
  tx : g'.tx = g.tx
  contractUnknown : g'.v.contractUnknown = g.v.contractUnknown
  flags : g'.v.hasDestinationAddress = g.v.hasDestinationAddress ∧
    g'.v.hasChangeAddress = g.v.hasChangeAddress
  inputCountFst : g'.v.inputCountFst = g.v.inputCountFst
  sources : g'.v.tag = .multiInputTransfer →
    g'.v.inputCountSnd = g.distinctInputSources.toUInt64 ∧ g'.v.amountFst = g.inputAmountFst
  amountSnd : g'.v.tag = .plainTransfer ∨ g'.v.tag = .selfTransfer ∨
    g'.v.tag = .multiOutputTransfer ∨ g'.v.tag = .multiInputTransfer →
      g'.v.amountSnd = g.tx.plainOutputAmount
  amounts : g'.inputAmountSnd = g.inputAmountSnd ∧ g'.daoInputAmount = g.daoInputAmount

theorem finalizeTag_tagged {g : SignState} (hu : g.finalizeTag.1.isUnsafe = false) :
    g.finalizeTag.2 = true ∧ TaggedAs g g.finalizeTag.1.v.tag ∧ TagAmounts g g.finalizeTag.1 := by
  unfold finalizeTag at hu ⊢
  unfold TaggedAs
  cases ht : g.v.tag <;> rw [ht] at hu <;> dsimp only at hu ⊢
  case notSet | plainTransfer =>
    split_ifs at hu ⊢ with h₁ h₂ h₃
    · cases hu
    · cases hu
    · exact ⟨rfl, ⟨rfl, by simpa using h₂, h₃⟩, rfl, rfl, ⟨rfl, rfl⟩, rfl, fun _ => ⟨rfl, rfl⟩,
        fun _ => rfl, rfl, rfl⟩
    · exact ⟨rfl, rfl, rfl, rfl, ⟨rfl, rfl⟩, rfl, nofun, fun _ => rfl, rfl, rfl⟩
    · exact ⟨rfl, rfl, rfl, rfl, ⟨rfl, rfl⟩, rfl, nofun, fun _ => rfl, rfl, rfl⟩
  case multiInputTransfer => cases hu
  case multiOutputTransfer =>
    split_ifs at hu ⊢ with h
    · cases hu
    · exact ⟨rfl, ⟨ht, h⟩, rfl, rfl, ⟨rfl, rfl⟩, rfl, fun hm => (nomatch ht.symm.trans hm),
        fun _ => rfl, rfl, rfl⟩
  case selfTransfer =>
    exact ⟨rfl, ht, rfl, rfl, ⟨rfl, rfl⟩, rfl, fun hm => (nomatch ht.symm.trans hm), fun _ => rfl,
      rfl, rfl⟩
  case daoPrepare =>
    split_ifs at hu ⊢ with h
    · cases hu
    · exact ⟨rfl, ⟨ht, not_not.mp h⟩, rfl, rfl, ⟨rfl, rfl⟩, rfl,
        fun hm => (nomatch ht.symm.trans hm), fun hm => by simp [ht] at hm, rfl, rfl⟩
  case daoWithdraw =>
    split_ifs at hu ⊢ with h₁ h₂
    · cases hu
    · cases hu
    · exact ⟨rfl, ⟨ht, not_not.mp h₁, not_not.mp h₂⟩, rfl, rfl, ⟨rfl, rfl⟩, rfl,
        fun hm => (nomatch ht.symm.trans hm), fun hm => by simp [ht] at hm, rfl, rfl⟩
  case daoDeposit | none =>
    exact ⟨rfl, ht, rfl, rfl, ⟨rfl, rfl⟩, rfl, fun hm => (nomatch ht.symm.trans hm),
      fun hm => by simp [ht] at hm, rfl, rfl⟩

/-- The state at the end of a raw transaction that is not rejected. -/
structure Finalized (g g' : SignState) : Prop where
  tag : TaggedAs g g'.v.tag
  tx : ∃ h, g'.tx = { g.tx with transactionHash := h }
  contractUnknown : g'.v.contractUnknown = g.v.contractUnknown
  flags : g'.v.hasDestinationAddress = g.v.hasDestinationAddress ∧
    g'.v.hasChangeAddress = g.v.hasChangeAddress
  inputCountFst : g'.v.inputCountFst = g.v.inputCountFst
  sources : g'.v.tag = .multiInputTransfer →
    g'.v.inputCountSnd = g.distinctInputSources.toUInt64 ∧ g'.v.amountFst = g.inputAmountFst
  amountSnd : g'.v.tag = .plainTransfer ∨ g'.v.tag = .selfTransfer ∨
    g'.v.tag = .multiOutputTransfer ∨ g'.v.tag = .multiInputTransfer →
      g'.v.amountSnd = g.tx.plainOutputAmount
  totalFee : g'.v.totalFee = if g'.v.tag = .daoWithdraw then
      -(g.inputAmountSnd + g.daoInputAmount -
        (g.tx.plainOutputAmount + g.tx.daoOutputAmount + g.tx.changeAmount))
    else g.inputAmountSnd + g.daoInputAmount -
      (g.tx.plainOutputAmount + g.tx.daoOutputAmount + g.tx.changeAmount)

theorem finalizeRawTransaction_finalized {env : Env} {g : SignState}
    (hu : (g.finalizeRawTransaction env).isUnsafe = false) :
    Finalized g (g.finalizeRawTransaction env) := by
  have hsafe : g.finalizeTag.1.isUnsafe = false := by
    unfold finalizeRawTransaction at hu
    generalize g.finalizeTag = x at hu ⊢
    obtain ⟨g', _ | _⟩ := x <;> exact hu
  obtain ⟨hgo, htag, hamounts⟩ := finalizeTag_tagged hsafe
  have hfinal : g.finalizeRawTransaction env = g.finalizeTag.1.finalizeAmounts env := by
    unfold finalizeRawTransaction
    generalize g.finalizeTag = x at hgo ⊢
    obtain ⟨g', _ | _⟩ := x
    · cases hgo
    · rfl
  rw [hfinal]
  refine ⟨htag, ⟨g.finalizeTag.1.hashState.digest env.sdk, ?_⟩, hamounts.contractUnknown,
    hamounts.flags, hamounts.inputCountFst, hamounts.sources, hamounts.amountSnd, ?_⟩
  · rw [← hamounts.tx]
    rfl
  · simp only [finalizeAmounts, hamounts.tx, hamounts.amounts]

/-! ### Stages that are not rejected -/

theorem Entries.flagged {g : SignState} (he : Entries g) : Flagged g := by
  rw [Flagged, he.flag, List.length_pos_iff]

theorem Entered.sum {g : SignState} {tag : OperationTag} {os : List Output}
    (h : Entered g tag os) :
    (os.map Output.capacity).sum = (g.tx.outputs.map Output.capacity).sum + g.cell.capacity := by
  cases h with
  | last ho _ =>
    rw [ho, List.map_append, List.map_append, List.sum_append, List.sum_append]
    simp only [List.map_cons, List.map_nil, List.sum_cons, List.sum_nil]
    ac_rfl
  | first ho =>
    rw [ho]
    simp
  | next ho _ _ _ =>
    rw [List.map_append, List.sum_append]
    simp

theorem Entered.bounds {g : SignState} {tag : OperationTag} {os : List Output}
    (h : Entered g tag os) (hlen : g.tx.outputs.length ≤ maxOutputs) :
    0 < os.length ∧ os.length ≤ maxOutputs := by
  cases h with
  | last ho _ =>
    rw [ho, List.length_append, List.length_singleton] at hlen
    rw [List.length_append, List.length_singleton]
    exact ⟨Nat.succ_pos _, hlen⟩
  | first ho => exact ⟨Nat.one_pos, show 1 ≤ maxOutputs by decide⟩
  | next ho _ _ hlt =>
    rw [List.length_append, List.length_singleton]
    exact ⟨Nat.succ_pos _, hlt⟩

theorem OutputAdds.entries {env : Env} {r g : SignState} (h : OutputAdds env r g)
    (he : Entries r) : Entries g := by
  cases h with
  | dao _ _ => exact ⟨he.total, he.count, he.flag⟩
  | change _ _ => exact ⟨he.total, he.count, he.flag⟩
  | away _ hentered =>
    obtain ⟨hpos, hle⟩ := hentered.bounds he.count
    exact ⟨hentered.sum.trans (by rw [he.total]), hle, fun _ => hpos, fun _ => rfl⟩

theorem OutputFound.entries {c : CellOutput} {k : ℕ} {g r : SignState} (h : OutputFound c k g r)
    (he : Entries g) : Entries r := by
  refine ⟨?_, ?_, ?_⟩
  · rw [h.tx]
    exact he.total
  · rw [h.tx]
    exact he.count
  · rw [h.tx, h.v]
    exact he.flag

/-- An output that is not rejected, and the start of the next one. -/
def OutputDone (env : Env) (x : CellOutput × ℕ) (y y' : Ended) : Prop :=
  ∃ r g, Entries r ∧ OutputFound x.1 x.2 y.1 r ∧ OutputAdds env r g ∧
    y' = (outputStart (x.2 + 1) g, y.2 ++ [r])

/-- The data of an output that are not rejected, and the start of the next ones. -/
def DataDone (env : Env) (x : List UInt8 × ℕ) (y y' : Ended) : Prop :=
  ∃ r g, DataFound env x.1 x.2 y.1 r ∧ DataAdds r g ∧
    y' = (validateOutputDataStart env (x.2 + 1) g, y.2 ++ [r])

section Passed
variable {sdk : Sdk} {t : AnnotatedTransaction} {s : Stages sdk t}

/-- The stages of a transaction that is not rejected. -/
structure Stages.Passed (s : Stages sdk t) : Prop where
  inputs : Steps InputCounted t.raw.inputs s.begun s.read
  outputs : Steps (OutputDone (openEnv sdk)) t.raw.outputs.zipIdx (s.read.finishInputs, []) s.sent
  entries : Entries s.sent.1
  ended : OutputsEnded s.sent.1 s.sent.1.outputsEnd.1
  outputsData : Steps (DataDone (openEnv sdk)) t.raw.outputsData.zipIdx
    (s.sent.1.outputsEnd.1, []) s.checked
  finalized : Finalized s.checked.1 s.final

theorem safe_of_onward {g g' : SignState} (h : Onward g g') (hu : g'.isUnsafe = false) :
    g.isUnsafe = false := by
  cases hg : g.isUnsafe with
  | false => rfl
  | true =>
    rw [h.isUnsafe hg] at hu
    cases hu

theorem counted_flags {is : List AnnotatedCellInput} {g g' : SignState}
    (h : Steps InputCounted is g g') : g'.v.hasDestinationAddress = g.v.hasDestinationAddress := by
  induction h with
  | nil => rfl
  | cons h _ ih => exact ih.trans h.flags.1

theorem outputs_done {env : Env} {xs : List (CellOutput × ℕ)} {y y' : Ended}
    (h : Steps (OutputStep env) xs y y') (he : Entries y.1) (hu : y'.1.isUnsafe = false) :
    Steps (OutputDone env) xs y y' ∧ Entries y'.1 := by
  induction h with
  | nil => exact ⟨.nil, he⟩
  | @cons x xs y y₁ y' h hs ih =>
    have hsafe : y₁.1.isUnsafe = false :=
      (hs.back (fun _ _ _ h => safe_of_onward h.onward) hu).1
    obtain ⟨r, g, hr, hg, rfl⟩ := h.adds he.flagged hsafe
    have her := hr.entries he
    have heg := hg.entries her
    have hnext : Entries (outputStart (x.2 + 1) g) := ⟨heg.total, heg.count, heg.flag⟩
    obtain ⟨hsteps, hlast⟩ := ih hnext hu
    exact ⟨.cons ⟨r, g, her, hr, hg, rfl⟩ hsteps, hlast⟩

theorem Stages.passed (hu : s.final.isUnsafe = false) : s.Passed := by
  have hchecked : s.checked.1.isUnsafe = false :=
    safe_of_onward (finalizeRawTransaction_onward (openEnv sdk) s.checked.1) hu
  obtain ⟨hended, hdata⟩ := s.outputsData.back
    (P := fun y => y.1.isUnsafe = false) (fun _ _ _ h => safe_of_onward h.onward) hchecked
  have hsent : s.sent.1.isUnsafe = false := safe_of_onward (outputsEnd_onward s.sent.1) hended
  have hread : s.read.isUnsafe = false := (s.outputs.back
    (P := fun y => y.1.isUnsafe = false) (fun _ _ _ h => safe_of_onward h.onward) hsent).1
  have hinputs := (s.inputs.back (P := fun g => g.isUnsafe = false)
    (fun _ _ _ h => safe_of_onward h.onward) hread).2.mono fun _ _ _ h => h.1.counted h.2.2
  have hflag : s.read.v.hasDestinationAddress = false := by
    rw [counted_flags hinputs, s.nothing.v]
  have hentries : Entries s.read.finishInputs :=
    ⟨rfl, Nat.zero_le _, by simp [finishInputs, hflag]⟩
  obtain ⟨houtputs, hlast⟩ := outputs_done s.outputs hentries hsent
  exact ⟨hinputs, houtputs, hlast, outputsEnd_ended hlast, hdata.mono fun _ _ _ h => h.1.adds h.2.2,
    finalizeRawTransaction_finalized hu⟩

/-- An accepted transaction goes through its stages without a rejection. -/
theorem Accepts.passed {sent : List Sent} (ha : Accepts sdk sent) (hfit : t.Fits)
    (hp : payload sent = t.encode) : ∃ s : Stages sdk t, s.Passed ∧
      (feedAll sdk sent).1.core = s.final.core ∧
      (found .outputEnd (logOf sdk sent)).map core = s.sent.2.map core ∧
      (found .dataEnd (logOf sdk sent)).map core = s.checked.2.map core := by
  obtain ⟨s, hcore, houtputs, hdata⟩ := ha.stages hfit hp
  have hsafe : s.final.isUnsafe = false := by
    have hu : s.final.core.isUnsafe = (feedAll sdk sent).1.core.isUnsafe := by rw [hcore]
    exact hu.trans ha.isUnsafe
  exact ⟨s, s.passed hsafe, hcore, houtputs, hdata⟩

end Passed

end SignState
end NervosLedger
