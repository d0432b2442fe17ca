import NervosLedger.SignState

/-!
# The parser callbacks of a transaction

The callbacks of `apdu_sign.c` in the order of the source, up to the witnesses.
-/
namespace NervosLedger
open Molecule

def defaultLockScript : FixedBytes 32 := ⟨[
  0x9b, 0xd7, 0xe0, 0x6f, 0x3e, 0xcf, 0x4b, 0xe0, 0xf2, 0xfc, 0xd2,
  0x18, 0x8b, 0x23, 0xf1, 0xb9, 0xfc, 0xc8, 0x8e, 0x5d, 0x4b, 0x65,
  0xa8, 0x63, 0x7b, 0x17, 0x72, 0x3b, 0xbd, 0xa3, 0xcc, 0xe8], rfl⟩

def multisigLockScript : FixedBytes 32 := ⟨[
  0x5c, 0x50, 0x69, 0xeb, 0x08, 0x57, 0xef, 0xc6, 0x5e, 0x1b, 0xca,
  0x0c, 0x07, 0xdf, 0x34, 0xc3, 0x16, 0x63, 0xb3, 0x62, 0x2f, 0xd3,
  0x87, 0x6c, 0x87, 0x63, 0x20, 0xfc, 0x96, 0x34, 0xe2, 0xa8], rfl⟩

def daoTypeScriptHash : FixedBytes 32 := ⟨[
  0x82, 0xd7, 0x6d, 0x1b, 0x75, 0xfe, 0x2f, 0xd9, 0xa2, 0x7d, 0xfb,
  0xaa, 0x65, 0xa0, 0x39, 0x22, 0x1a, 0x38, 0x0d, 0x76, 0xc9, 0x26,
  0xf3, 0x78, 0xd3, 0xf8, 0x1c, 0xf3, 0xe7, 0xe1, 0x3f, 0x2e], rfl⟩

/-- A little-endian `uint64_t` read through a pointer. -/
def readUInt64 (buf : FixedBytes 8) : UInt64 := UInt64.ofNat (leNat buf.toList)

namespace SignState
variable (env : Env)

/-! ### The derivation paths -/

def initBip32 (size : ℕ) (g : SignState) : SignState × Bool :=
  if size < 4 then (g.rejectHard, false)
  else if size - 4 > 4 * maxBip32Path then (g.rejectHard, false)
  else ({ g with tempKey.length := 0 }, true)

def bip32Component (buf : FixedBytes 4) (g : SignState) : SignState :=
  { g with
    tempKey.components :=
      g.tempKey.components.setIfInBounds g.tempKey.length (UInt32.ofNat (leNat buf.toList))
    tempKey.length := g.tempKey.length + 1 }

def setSignPath (g : SignState) : SignState × Option Exc :=
  match prepLockArg env.sdk g.tempKey with
  | .error e => (g, some e)
  | .ok lockArg =>
    ({ g with
      currentLockArg := lockArg
      keyPathComponents := #v[g.tempKey.components[2], g.tempKey.components[3],
        g.tempKey.components[4]]
      keyLength := g.tempKey.length
      changeLockArg := lockArg }, none)

def setChangePath (g : SignState) : SignState × Option Exc :=
  match prepLockArg env.sdk g.tempKey with
  | .error e => (g, some e)
  | .ok lockArg => ({ g with changeLockArg := lockArg }, none)

def setInputCount (buf : FixedBytes 4) (g : SignState) : SignState :=
  { g with inputCount := leNat buf.toList }

/-! ### The inputs -/

def inputsStart (g : SignState) : SignState := { g with inp.lastInputLockArg := .zero 20 }

def inputStart (g : SignState) : SignState :=
  { g with cell := {}, lockArgTmp := .zero 28, inp.index := 0, inp.hashState := {} }

def inputSaveIndex (index : FixedBytes 4) (g : SignState) : SignState :=
  { g with inp.index := leNat index.toList }

def contextBlake2bChunk (chunk : List UInt8) (g : SignState) : SignState :=
  { g with inp.hashState := g.inp.hashState.absorb chunk }

def finishContextTxn (g : SignState) : SignState :=
  let txHash := g.inp.hashState.digest env.sdk
  let g := (g.blake2bChunk txHash.toList).blake2bChunk (le32 g.inp.index)
  { g with inp.index := 0, inp.hashState := {} }

def finishInputs (g : SignState) : SignState := { g with tempKey := {}, inp := {}, tx := {} }

/-- Only the referenced output of the source transaction is looked at. -/
def inputContextStartIdx (idx : ℕ) (g : SignState) : SignState :=
  { g with cell.active := idx = g.inp.index }

def blake2bInputCount (length : ℕ) (g : SignState) : SignState :=
  if length ≠ g.inputCount then g.rejectHard else g.blake2bChunk (le32 g.inputCount)

/-- The header of the transaction without the sources of its inputs: what lies between the
inputs and the outputs shrinks to a vector of 44 byte inputs. -/
def computeNewOffsetsToHash (totalSize : ℕ) (offsets : List ℕ) (g : SignState) : SignState :=
  let offset := fun i => offsets.getD i 0
  let toSubtract :=
    sub32 (sub32 (offset 4) (offset 3)) ((44 * g.inputCount + 4) % 2 ^ 32)
  g.blake2bChunk <|
    le32 (sub32 totalSize toSubtract) ++ le32 (offset 0) ++ le32 (offset 1) ++ le32 (offset 2) ++
      le32 (offset 3) ++ le32 (sub32 (offset 4) toSubtract) ++ le32 (sub32 (offset 5) toSubtract)

/-! ### The cells -/

def cellCapacity (capacity : FixedBytes 8) (g : SignState) : SignState :=
  if !g.cell.active then g else { g with cell.capacity := readUInt64 capacity }

def cellLockCodeHash (buf : FixedBytes 32) (g : SignState) : SignState :=
  if !g.cell.active then g
  else if buf = defaultLockScript then { g with cell.isMultisig := false }
  else if buf = multisigLockScript then { g with cell.isMultisig := true }
  else if !env.settings.allowContractData then g.reject
  else g

def cellScriptHashType (hashType : UInt8) (g : SignState) : SignState :=
  if !g.cell.active then g
  else if hashType ≠ 1 && !env.settings.allowContractData then g.reject
  else g

def scriptArgStartInput (g : SignState) : SignState :=
  if !g.cell.active then g
  else { g with
    cell.lockArgIndex := 0
    cell.lockArgNonequal := false
    lockArgCmp := .currentLockArg }

/-- The 28 bytes from where `lock_arg_cmp` points: a lock argument has 20, the rest belongs to
the field that follows it in `apdu_sign_state_t`. -/
def lockArgWindow (g : SignState) : Option (List UInt8) :=
  match g.lockArgCmp with
  | .null => none
  | .currentLockArg => some (g.currentLockArg.toList ++ g.changeLockArg.toList.take 8)
  | .changeLockArg => some (g.changeLockArg.toList ++ g.daoCellOwner.toList.take 8)

def scriptArgChunk (buf : List UInt8) (g : SignState) : SignState :=
  if !g.cell.active then g
  else if g.cell.lockArgIndex + buf.length > 28 then { g with cell.lockArgNonequal := true }
  else
    let offset := g.cell.lockArgIndex
    let nonequal := match g.lockArgWindow with
      | none => true
      | some window => g.cell.lockArgNonequal || (window.drop offset).take buf.length != buf
    { g with
      lockArgTmp := g.lockArgTmp.write offset buf
      cell.lockArgIndex := offset + buf.length
      cell.lockArgNonequal := nonequal }

def inputLockArgEnd (g : SignState) : SignState :=
  if !g.cell.active then g
  else if g.inp.lastInputLockArg ≠ g.lockArgTmp.hash then
    let g : SignState := { g with distinctInputSources := g.distinctInputSources + 1 }
    if g.cell.lockArgNonequal then { g with inp.lastInputLockArg := g.lockArgTmp.hash }
    -- the early return leaves `last_input_lock_arg` as it was
    else if g.v.inputCountFst ≠ 0 then g.reject
    else { g with
      v.inputCountFst := g.distinctInputSources.toUInt64
      inp.lastInputLockArg := g.lockArgTmp.hash }
  else { g with inp.lastInputLockArg := g.lockArgTmp.hash }

def cellTypeCodeHash (buf : FixedBytes 32) (g : SignState) : SignState :=
  if !g.cell.active then g
  else if buf = daoTypeScriptHash then { g with cell.isDao := true }
  else if !env.settings.allowContractData then g.reject
  else g

def cellTypeArgLength (length : ℕ) (g : SignState) : SignState × Bool :=
  if !g.cell.active then (g, true)
  else if length ≠ 4 && g.cell.isDao then (g.reject, true)
  else if length ≠ 4 && !env.settings.allowContractData then (g.reject, true)
  else (g, true)

/-- The `if` on `active` has no `return`, so inactive cells set the size as well. -/
def setCellDataSize (size : ℕ) (g : SignState) : SignState × Bool :=
  if size < 4 then (g.rejectHard, false)
  else ({ g with cell.dataSize := min 15 (size - 4) }, true)

def checkCellDataDataChunk (buf : List UInt8) (g : SignState) : SignState :=
  if !g.cell.active then g
  else { g with cell.daoDataIsNonzero := g.cell.daoDataIsNonzero || buf.any (· ≠ 0) }

def finishInputCellData (g : SignState) : SignState :=
  if !g.cell.active then g
  else if g.cell.isDao then
    let g : SignState := { g with daoCellOwner := g.lockArgTmp.hash }
    if g.cell.dataSize ≠ 8 then g.reject
    else
      let g : SignState := { g with daoInputAmount := g.daoInputAmount + g.cell.capacity }
      let tag := if g.cell.daoDataIsNonzero then .daoWithdraw else .daoPrepare
      if g.v.tag ≠ tag ∧ g.v.tag ≠ .notSet then g.reject else { g with v.tag := tag }
  else if g.cell.dataSize ≠ 0 && !env.settings.allowContractData then g.reject
  else
    { g with
      v.contractUnknown := g.v.contractUnknown || g.cell.dataSize > 0
      inputAmountSnd := g.inputAmountSnd + g.cell.capacity
      inputAmountFst :=
        if g.cell.lockArgNonequal then g.inputAmountFst else g.inputAmountFst + g.cell.capacity
      signingMultisigInput := g.signingMultisigInput || g.cell.isMultisig }

/-! ### The outputs -/

def outputStart (index : ℕ) (g : SignState) : SignState :=
  { g with
    tx.currentOutputIndex := index
    cell := { active := true }
    lockArgTmp := .zero 28
    lockArgCmp := .changeLockArg }

/-- `1<<n`, converted to `uint64_t`. -/
def intShl (sdk : Sdk) (n : ℕ) : UInt64 := if n < 31 then UInt64.ofNat (2 ^ n) else sdk.intShift n

/-- `((uint64_t)1)<<n`. -/
def longShl (sdk : Sdk) (n : ℕ) : UInt64 := if n < 64 then UInt64.ofNat (2 ^ n) else sdk.longShift n

/-- `output_end` on a DAO cell. -/
def daoOutputEnd (g : SignState) : SignState :=
  let g : SignState := { g with
    daoCellOwner := g.lockArgTmp.hash
    tx.daoOutputAmount := g.tx.daoOutputAmount + g.cell.capacity
    tx.daoBitmask := g.tx.daoBitmask ||| intShl env.sdk g.tx.currentOutputIndex }
  if g.cell.lockArgNonequal || g.cell.isMultisig then g.reject
  else { g with v.hasChangeAddress := true }

/-- The amounts that a cell sent to someone else adds to, once it has its entry. -/
def addToLastOutput (g : SignState) : SignState :=
  { g with
    tx.plainOutputAmount := g.tx.plainOutputAmount + g.cell.capacity
    tx.outputs := g.tx.outputs.modify (g.tx.outputs.length - 1) fun o =>
      { o with capacity := o.capacity + g.cell.capacity }
    v.hasDestinationAddress := true }

/-- A new entry of `outputs` for the current cell. -/
def pushOutput (g : SignState) : SignState :=
  { g with tx.outputs := g.tx.outputs ++ [⟨0, g.lockArgTmp, g.cell.isMultisig⟩] }

/-- `output_end` on a cell that is sent to someone else. -/
def plainOutputEnd (g : SignState) : SignState × Option Exc :=
  if !g.v.hasDestinationAddress then
    if g.tx.outputs.length ≠ 0 then (g, some .memoryError)
    else (g.pushOutput.addToLastOutput, none)
  else
    let last := g.tx.outputs.getLast?.getD default
    if last.destination.hash ≠ g.lockArgTmp.hash ∨ last.isMultisig ≠ g.cell.isMultisig then
      if g.v.tag ≠ .notSet ∧ g.v.tag ≠ .multiOutputTransfer then (g.reject, none)
      else
        let g : SignState := { g with v.tag := .multiOutputTransfer }
        if g.tx.outputs.length ≥ maxOutputs then (g.reject, none)
        else (g.pushOutput.addToLastOutput, none)
    else (g.addToLastOutput, none)

def outputEnd (g : SignState) : SignState × Option Exc :=
  if g.cell.isDao then (g.daoOutputEnd env, none)
  else if g.cell.lockArgNonequal || g.cell.isMultisig then g.plainOutputEnd
  else
    ({ g with
      tx.changeAmount := g.tx.changeAmount + g.cell.capacity
      v.hasChangeAddress := true }, none)

def outputsEnd (g : SignState) : SignState × Option Exc :=
  if g.tx.daoBitmask ≠ 0 ∨ g.v.tag = .daoPrepare ∨ g.v.tag = .daoWithdraw then (g, none)
  else
    let g : SignState := { g with
      tx.isSelfTransfer := !g.v.hasDestinationAddress && g.v.hasChangeAddress }
    if !g.tx.isSelfTransfer then (g, none)
    else if g.tx.plainOutputAmount ≠ 0 then (g, some .wrongParam)
    else if g.tx.outputs.length ≠ 0 then (g, some .memoryError)
    else
      ({ g with
        tx.plainOutputAmount := g.tx.changeAmount
        tx.changeAmount := 0
        -- `!HAS_CHANGE_ADDRESS` is 0, so `flags &= !HAS_CHANGE_ADDRESS` clears both flags
        v.hasDestinationAddress := false
        v.hasChangeAddress := false
        tx.outputs := [⟨0, .ofList 28 g.changeLockArg.toList, false⟩] }, none)

def validateOutputDataStart (idx : ℕ) (g : SignState) : SignState :=
  { g with cell.isDao := (g.tx.daoBitmask &&& longShl env.sdk idx) ≠ 0 }

def finishOutputCellData (g : SignState) : SignState :=
  if g.cell.isDao then
    if g.cell.dataSize ≠ 8 then g.reject
    else
      let tag := if g.cell.daoDataIsNonzero then .daoPrepare else .daoDeposit
      if g.v.tag ≠ tag ∧ g.v.tag ≠ .notSet then g.reject else { g with v.tag := tag }
  else if g.cell.dataSize ≠ 0 && !env.settings.allowContractData then g.reject
  else { g with v.contractUnknown := g.v.contractUnknown || g.cell.dataSize > 0 }

/-! ### The end of the raw transaction -/

/-- The `switch` of `finalize_raw_transaction`; a `REJECT` in it returns at once. -/
def finalizeTag (g : SignState) : SignState × Bool :=
  match g.v.tag with
  | .none => (g, true)
  | .multiInputTransfer => (g.reject, false)
  | .notSet | .plainTransfer =>
    if g.distinctInputSources > 1 then
      if g.signingMultisigInput then (g.reject, false)
      else
        let g : SignState := { g with v.tag := .multiInputTransfer }
        if g.v.inputCountFst = 0 then (g.reject, false)
        else
          ({ g with
            v.inputCountSnd := g.distinctInputSources.toUInt64
            v.amountFst := g.inputAmountFst
            v.amountSnd := g.tx.plainOutputAmount }, true)
    else
      ({ g with
        v.tag := if g.tx.isSelfTransfer then .selfTransfer else .plainTransfer
        v.amountSnd := g.tx.plainOutputAmount }, true)
  | .selfTransfer => ({ g with v.amountSnd := g.tx.plainOutputAmount }, true)
  | .multiOutputTransfer =>
    if g.distinctInputSources > 1 then (g.reject, false)
    else ({ g with v.amountSnd := g.tx.plainOutputAmount }, true)
  | .daoDeposit => ({ g with v.daoAmount := g.tx.daoOutputAmount }, true)
  | .daoPrepare =>
    let g : SignState := { g with v.daoAmount := g.tx.daoOutputAmount }
    if g.tx.daoOutputAmount ≠ g.daoInputAmount then (g.reject, false) else (g, true)
  | .daoWithdraw =>
    let g : SignState := { g with v.daoAmount := g.daoInputAmount }
    if g.tx.daoOutputAmount ≠ 0 then (g.reject, false)
    else if g.tx.plainOutputAmount ≠ 0 then (g.reject, false)
    else (g, true)

/-- The fee, or the compensation of a withdrawal, and the transaction hash. -/
def finalizeAmounts (g : SignState) : SignState :=
  let fee := (g.inputAmountSnd + g.daoInputAmount) -
    (g.tx.plainOutputAmount + g.tx.daoOutputAmount + g.tx.changeAmount)
  { g with
    v.totalFee := if g.v.tag = .daoWithdraw then -fee else fee
    tx.transactionHash := g.hashState.digest env.sdk
    hashState := g.hashState.finish }

def finalizeRawTransaction (g : SignState) : SignState :=
  match g.finalizeTag with
  | (g, true) => g.finalizeAmounts env
  | (g, false) => g

end SignState
end NervosLedger
