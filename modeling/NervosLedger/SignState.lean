import NervosLedger.Types
import NervosLedger.Molecule.Reader

/-!
# The state of a transaction exchange

`apdu_sign_state_t`. The members of its union `u` are live one after the other, and
`finish_inputs` zeroes them all, so each has a record of its own here.
-/
namespace NervosLedger
open Molecule

/-- `enum operation_tag`. -/
inductive OperationTag where
  | none | notSet | plainTransfer | multiOutputTransfer | selfTransfer | multiInputTransfer
  | daoDeposit | daoPrepare | daoWithdraw
  deriving DecidableEq, Repr

/-- `output_t`. -/
structure Output where
  capacity : UInt64 := 0
  destination : LockArg := .zero 28
  isMultisig : Bool := false
  deriving DecidableEq, Repr

instance : Inhabited Output := ⟨{}⟩

def maxOutputs : ℕ := 5

/-- `struct parsed_transaction`; the two bits of `flags` are kept apart. -/
structure ParsedTransaction where
  totalFee : UInt64 := 0
  amountFst : UInt64 := 0
  amountSnd : UInt64 := 0
  daoAmount : UInt64 := 0
  inputCountFst : UInt64 := 0
  inputCountSnd : UInt64 := 0
  tag : OperationTag := .notSet
  hasDestinationAddress : Bool := false
  hasChangeAddress : Bool := false
  contractUnknown : Bool := false
  deriving DecidableEq, Repr

/-- `cell_state_t`. -/
structure CellState where
  capacity : UInt64 := 0
  daoDataIsNonzero : Bool := false
  lockArgIndex : ℕ := 0
  dataSize : ℕ := 0
  active : Bool := false
  isDao : Bool := false
  isMultisig : Bool := false
  lockArgNonequal : Bool := false
  deriving DecidableEq, Repr

/-- `u.inp`. -/
structure InputView where
  index : ℕ := 0
  hashState : HashState := {}
  lastInputLockArg : StandardLockArg := .zero 20
  deriving DecidableEq, Repr

/-- `u.tx`: the entries of `outputs` below `output_count`; those above it are zero. -/
structure TxView where
  witnessMultisigLockArgConsumed : ℕ := 0
  witnessStack : ReaderState := .zero
  currentOutputIndex : ℕ := 0
  transactionHash : Digest := .zero 32
  finalHash : Digest := .zero 32
  outputs : List Output := []
  daoBitmask : UInt64 := 0
  changeAmount : UInt64 := 0
  plainOutputAmount : UInt64 := 0
  daoOutputAmount : UInt64 := 0
  witnessMultisigThreshold : ℕ := 0
  witnessMultisigPubkeysCnt : ℕ := 0
  isFirstWitness : Bool := false
  hashOnly : Bool := false
  firstWitnessDone : Bool := false
  isSelfTransfer : Bool := false
  deriving DecidableEq, Repr

/-- Where `lock_arg_cmp` points. -/
inductive LockArgCmp where
  | null | currentLockArg | changeLockArg
  deriving DecidableEq, Repr

/-- `apdu_sign_state_t`. -/
structure SignState where
  tempKey : Bip32Path := {}
  inp : InputView := {}
  tx : TxView := {}
  currentLockArg : StandardLockArg := .zero 20
  changeLockArg : StandardLockArg := .zero 20
  daoCellOwner : StandardLockArg := .zero 20
  isValid : Bool := false
  isUnsafe : Bool := false
  hardReject : Bool := false
  v : ParsedTransaction := {}
  hashState : HashState := {}
  inputCount : ℕ := 0
  distinctInputSources : UInt32 := 0
  cell : CellState := {}
  transactionStack : ReaderState := .zero
  daoInputAmount : UInt64 := 0
  inputAmountFst : UInt64 := 0
  inputAmountSnd : UInt64 := 0
  lockArgCmp : LockArgCmp := .null
  lockArgTmp : LockArg := .zero 28
  keyPathComponents : Vector UInt32 3 := Vector.replicate 3 0
  keyLength : ℕ := 0
  signingMultisigInput : Bool := false
  deriving DecidableEq, Repr

instance : Inhabited SignState := ⟨{}⟩

/-- What a callback reads besides the state: the SDK, the settings, and the bytes that
`G_io_apdu_buffer` holds after the payload. -/
structure Env where
  sdk : Sdk
  settings : Settings := {}
  beyond : List UInt8 := []

namespace SignState

/-- `REJECT`. -/
def reject (g : SignState) : SignState := { g with isUnsafe := true }

/-- `REJECT_HARD`. -/
def rejectHard (g : SignState) : SignState := { g with hardReject := true }

/-- `blake2b_chunk`. -/
def blake2bChunk (buf : List UInt8) (g : SignState) : SignState :=
  { g with hashState := g.hashState.absorb buf }

end SignState
end NervosLedger
