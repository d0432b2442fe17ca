import NervosLedger.Callbacks
import NervosLedger.Blockchain

/-!
# The witnesses

The first witness is read by a parser of its own as it arrives, and goes into the hash with
its lock replaced; the others go in as they are.
-/
namespace NervosLedger
open Molecule

/-- The callbacks of `WitnessArgs_rewrite_callbacks`. -/
inductive WitnessEvent where
  | offsets (totalSize : ℕ) (offsets : List ℕ)
  | lockSize (size : ℕ)
  | lockBody (buf following : List UInt8)
  | inputTypeChunk (buf : List UInt8)
  | outputTypeChunk (buf : List UInt8)
  deriving DecidableEq, Repr

/-- `WitnessArgs_rewrite_callbacks`. -/
def witnessArgsRewriteCallbacks : Reader WitnessEvent :=
  .witnessArgs { offsets := some .offsets }
    (.bytesOpt {} { size := some .lockSize, bodyChunk := some .lockBody })
    (.bytesOpt { chunk := some .inputTypeChunk } {})
    (.bytesOpt { chunk := some .outputTypeChunk } {})

/-- `zero_witness`: a lock of 65 zero bytes. -/
def zeroWitness : List UInt8 := le32 65 ++ List.replicate 65 0

/-- `self_witness`: the length of a `WitnessArgs` that has only such a lock, and that
`WitnessArgs`. -/
def selfWitness : List UInt8 :=
  leBytes 8 0x55 ++ le32 0x55 ++ le32 0x10 ++ le32 0x55 ++ le32 0x55 ++ zeroWitness

namespace SignState

def witnessOffsets (totalSize : ℕ) (offsets : List ℕ) (g : SignState) : SignState :=
  let lockOffset := offsets.getD 0 0
  let inputTypeOffset := offsets.getD 1 0
  let outputTypeOffset := offsets.getD 2 0
  if g.signingMultisigInput then
    (g.blake2bChunk (leBytes 8 totalSize)).blake2bChunk <|
      le32 totalSize ++ le32 lockOffset ++ le32 inputTypeOffset ++ le32 outputTypeOffset
  else
    let lockWitLen := sub32 inputTypeOffset lockOffset
    let shift := sub32 69 lockWitLen
    let newSize := (totalSize + shift) % 2 ^ 32
    ((g.blake2bChunk (leBytes 8 newSize)).blake2bChunk <|
      le32 newSize ++ le32 lockOffset ++ le32 (inputTypeOffset + shift) ++
        le32 (outputTypeOffset + shift)).blake2bChunk zeroWitness

def witnessLockArgSize (size : ℕ) (g : SignState) : SignState × Bool :=
  if !g.signingMultisigInput then (g, true)
  else if size < 4 then (g.rejectHard, false)
  else (g.blake2bChunk (le32 (size - 4)), true)

/-- `following` are the bytes of the buffer after this piece: the threshold and the number of
keys are read from there when the piece is too short to hold them. -/
def witnessLockArgBodyChunk (buf following : List UInt8) (g : SignState) : SignState :=
  if !g.signingMultisigInput then g
  else
    let consumed := g.tx.witnessMultisigLockArgConsumed
    let byteAt := fun i => (((buf ++ following).getD i 0).toNat : ℕ)
    if consumed = 0 ∧ byteAt 0 ≠ 0 then g.reject
    else
      let threshold := if consumed < 3 then byteAt (2 - consumed)
        else g.tx.witnessMultisigThreshold
      let pubkeysCnt := if consumed < 4 then byteAt (3 - consumed)
        else g.tx.witnessMultisigPubkeysCnt
      let signaturesStart := sub32 (4 + 20 * pubkeysCnt) consumed
      let zeroed :=
        if pubkeysCnt > 0 ∧ signaturesStart > 0 ∧ buf.length > signaturesStart then
          buf.take signaturesStart ++ List.replicate (buf.length - signaturesStart) 0
        else buf
      { g.blake2bChunk zeroed with
        tx.witnessMultisigThreshold := threshold
        tx.witnessMultisigPubkeysCnt := pubkeysCnt
        tx.witnessMultisigLockArgConsumed := (consumed + buf.length) % 2 ^ 32 }

/-- The callbacks of the first witness; `beyond` are the bytes after the piece of it that is
being read. -/
def witnessHandler (beyond : List UInt8) : Handler WitnessEvent SignState Exc where
  run
    | .offsets totalSize offsets => witnessOffsets totalSize offsets
    | .lockBody buf following => witnessLockArgBodyChunk buf (following ++ beyond)
    | .inputTypeChunk buf | .outputTypeChunk buf => blake2bChunk buf
    | .lockSize _ => id
  ask
    | .lockSize size => witnessLockArgSize size
    | _ => fun g => (g, true)
  finish _ g := (g, none)

/-- The hash starts over with the transaction hash. -/
def restartHash (g : SignState) : SignState :=
  ({ g with hashState := {} } : SignState).blake2bChunk g.tx.transactionHash.toList

def beginWitness (index : ℕ) (g : SignState) : SignState :=
  let g : SignState := { g with tx.isFirstWitness := index = 0 }
  if !g.tx.isFirstWitness then g
  else
    { g.restartHash with
      tx.witnessMultisigThreshold := 0
      tx.witnessMultisigPubkeysCnt := 0
      tx.witnessMultisigLockArgConsumed := 0
      tx.witnessStack := witnessArgsRewriteCallbacks.initState }

def hashWitnessLength (size : ℕ) (g : SignState) : SignState × Bool :=
  if size < 4 then (g, false)
  else if g.tx.isFirstWitness then (g, true)
  else (g.blake2bChunk (leBytes 8 (size - 4)), true)

def processWitness (env : Env) (buf following : List UInt8) (g : SignState) : SignState :=
  if !g.tx.isFirstWitness then g.blake2bChunk buf
  else
    let r := witnessArgsRewriteCallbacks.parse (witnessHandler (following ++ env.beyond))
      g.tx.witnessStack molNumMax buf g
    let g : SignState := { r.g with tx.witnessStack := r.st }
    if r.rv = .complete then { g with tx.firstWitnessDone := true } else g

/-- If the first witness was no `WitnessArgs`, it counts as one with only the lock. -/
def processWitnessEnd (g : SignState) : SignState :=
  if g.tx.isFirstWitness && !g.tx.firstWitnessDone then
    ({ g with tx.firstWitnessDone := true } : SignState).restartHash.blake2bChunk selfWitness
  else g

def finalizeWitnesses (env : Env) (g : SignState) : SignState :=
  { g with tx.finalHash := g.hashState.digest env.sdk, hashState := g.hashState.finish }

end SignState
end NervosLedger
