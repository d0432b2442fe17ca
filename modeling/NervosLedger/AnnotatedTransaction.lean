import NervosLedger.Witness

/-!
# The callback table of an annotated transaction

An event names a slot of `annotatedTransaction_callbacks`; `signHandler` says which function
the slot points to.
-/
namespace NervosLedger
open Molecule

/-- The slots below a `CellOutput_cb`. -/
inductive CellEvent where
  | capacity (buf : FixedBytes 8)
  | lockCodeHash (buf : FixedBytes 32)
  | lockHashType (hashType : UInt8)
  | lockArgsStart
  | lockArgs (buf following : List UInt8)
  | lockEnd
  | typeCodeHash (buf : FixedBytes 32)
  | typeHashType (hashType : UInt8)
  | typeArgsSize (size : ℕ)
  deriving DecidableEq, Repr

/-- The slots of `annotatedTransaction_callbacks`. -/
inductive SignEvent where
  | signPathSize (size : ℕ) | signPathItem (buf : FixedBytes 4) | signPathEnd
  | changePathSize (size : ℕ) | changePathItem (buf : FixedBytes 4) | changePathEnd
  | inputCount (buf : FixedBytes 4)
  | offsets (totalSize : ℕ) (offsets : List ℕ)
  | version (buf : FixedBytes 4)
  | cellDepsChunk (buf : List UInt8)
  | headerDepsChunk (buf : List UInt8)
  | inputsStart | inputsLength (length : ℕ) | inputsEnd
  | inputStart | inputSince (buf : FixedBytes 8) | inputIndex (buf : FixedBytes 4)
  | sourceChunk (buf : List UInt8) | sourceEnd
  | sourceOutputsIndex (index : ℕ) | sourceCell (e : CellEvent)
  | sourceDataIndex (index : ℕ) | sourceDataSize (size : ℕ)
  | sourceDataChunk (buf following : List UInt8) | sourceDataEnd
  | outputsChunk (buf : List UInt8) | outputsIndex (index : ℕ) | outputsEnd
  | outputCell (e : CellEvent) | outputEnd
  | dataVecChunk (buf : List UInt8) | dataIndex (index : ℕ) | dataSize (size : ℕ)
  | dataChunk (buf following : List UInt8) | dataEnd
  | rawEnd
  | witnessesIndex (index : ℕ) | witnessSize (size : ℕ)
  | witnessChunk (buf following : List UInt8) | witnessEnd | witnessesEnd
  deriving DecidableEq, Repr

section Tables

/-- The `ScriptOpt_cb` that both kinds of cells have for their type script. -/
def typeScriptCallbacks (cell : CellEvent → SignEvent) : Reader SignEvent :=
  .scriptOpt {} (.script {} (some fun b => cell (.typeCodeHash b))
    (some fun b => cell (.typeHashType b)) { size := some fun n => cell (.typeArgsSize n) })

/-- The `CellOutput_cb` of the referenced cells in `annotatedCellInput_callbacks`. -/
def sourceCellCallbacks : Reader SignEvent :=
  .cellOutput {} (some fun b => .sourceCell (.capacity b))
    (.script { finish := some (.sourceCell .lockEnd) }
      (some fun b => .sourceCell (.lockCodeHash b)) (some fun b => .sourceCell (.lockHashType b))
      { start := some (.sourceCell .lockArgsStart)
        bodyChunk := some fun b f => .sourceCell (.lockArgs b f) })
    (typeScriptCallbacks .sourceCell)

/-- The `RawTransaction_cb` of the source of an input. -/
def sourceCallbacks : Reader SignEvent :=
  .rawTransaction { chunk := some .sourceChunk, finish := some .sourceEnd } none {} {} {}
    (.cellOutputVec { index := some .sourceOutputsIndex } sourceCellCallbacks)
    (.bytesVec { index := some .sourceDataIndex }
      { size := some .sourceDataSize, bodyChunk := some .sourceDataChunk
        finish := some .sourceDataEnd })

/-- `annotatedCellInput_callbacks`. -/
def annotatedCellInputCallbacks : Reader SignEvent :=
  .annotatedCellInput { start := some .inputStart }
    (.cellInput {} (some .inputSince) (.outPoint {} none (some .inputIndex)))
    sourceCallbacks

/-- The `CellOutput_cb` of the outputs. -/
def outputCallbacks : Reader SignEvent :=
  .cellOutput { finish := some .outputEnd } (some fun b => .outputCell (.capacity b))
    (.script {} (some fun b => .outputCell (.lockCodeHash b))
      (some fun b => .outputCell (.lockHashType b))
      { bodyChunk := some fun b f => .outputCell (.lockArgs b f) })
    (typeScriptCallbacks .outputCell)

def inputsCallbacks : Reader SignEvent :=
  .annotatedCellInputVec
    { start := some .inputsStart, length := some .inputsLength, finish := some .inputsEnd }
    annotatedCellInputCallbacks

def outputsCallbacks : Reader SignEvent :=
  .cellOutputVec
    { chunk := some .outputsChunk, index := some .outputsIndex, finish := some .outputsEnd }
    outputCallbacks

def outputsDataCallbacks : Reader SignEvent :=
  .bytesVec { chunk := some .dataVecChunk, index := some .dataIndex }
    { size := some .dataSize, bodyChunk := some .dataChunk, finish := some .dataEnd }

/-- `AnnotatedRawTransaction_callbacks`. -/
def annotatedRawTransactionCallbacks : Reader SignEvent :=
  .annotatedRawTransaction { offsets := some .offsets, finish := some .rawEnd }
    (some .version) { chunk := some .cellDepsChunk } { chunk := some .headerDepsChunk }
    inputsCallbacks outputsCallbacks outputsDataCallbacks

def witnessesCallbacks : Reader SignEvent :=
  .bytesVec { index := some .witnessesIndex, finish := some .witnessesEnd }
    { size := some .witnessSize, bodyChunk := some .witnessChunk, finish := some .witnessEnd }

/-- `annotatedTransaction_callbacks`. -/
def annotatedTransactionCallbacks : Reader SignEvent :=
  .annotatedTransaction {}
    (.bip32 { size := some .signPathSize, finish := some .signPathEnd } (some .signPathItem))
    (.bip32 { size := some .changePathSize, finish := some .changePathEnd } (some .changePathItem))
    (some .inputCount) annotatedRawTransactionCallbacks witnessesCallbacks

end Tables

namespace SignState
variable (env : Env)

/-- The `void` callbacks of a cell. -/
def runCell : CellEvent → SignState → SignState
  | .capacity buf => cellCapacity buf
  | .lockCodeHash buf => cellLockCodeHash env buf
  | .lockHashType hashType | .typeHashType hashType => cellScriptHashType env hashType
  | .lockArgsStart => scriptArgStartInput
  | .lockArgs buf _ => scriptArgChunk buf
  | .typeCodeHash buf => cellTypeCodeHash env buf
  | .lockEnd | .typeArgsSize _ => id

/-- The functions in the slots that return nothing. -/
def runCallback : SignEvent → SignState → SignState
  | .signPathItem buf | .changePathItem buf => bip32Component buf
  | .inputCount buf => setInputCount buf
  | .offsets totalSize offsets => computeNewOffsetsToHash totalSize offsets
  | .version buf => blake2bChunk buf.toList
  | .cellDepsChunk buf | .headerDepsChunk buf | .outputsChunk buf | .dataVecChunk buf =>
    blake2bChunk buf
  | .inputsStart => inputsStart
  | .inputsLength length => blake2bInputCount length
  | .inputStart => inputStart
  | .inputSince buf => blake2bChunk buf.toList
  | .inputIndex buf => inputSaveIndex buf
  | .sourceChunk buf => contextBlake2bChunk buf
  | .sourceOutputsIndex index | .sourceDataIndex index => inputContextStartIdx index
  | .sourceCell e | .outputCell e => runCell env e
  | .sourceDataChunk buf _ | .dataChunk buf _ => checkCellDataDataChunk buf
  | .outputsIndex index => outputStart index
  | .dataIndex index => validateOutputDataStart env index
  | .witnessesIndex index => beginWitness index
  | .witnessChunk buf following => processWitness env buf following
  | _ => id

/-- The functions in the `size` slots. -/
def askCallback : SignEvent → SignState → SignState × Bool
  | .signPathSize size | .changePathSize size => initBip32 size
  | .sourceCell (.typeArgsSize size) | .outputCell (.typeArgsSize size) =>
    cellTypeArgLength env size
  | .sourceDataSize size | .dataSize size => setCellDataSize size
  | .witnessSize size => hashWitnessLength size
  | _ => fun g => (g, true)

/-- The functions in the `end` slots. -/
def endCallback : SignEvent → SignState → SignState × Option Exc
  | .signPathEnd => setSignPath env
  | .changePathEnd => setChangePath env
  | .sourceCell .lockEnd => fun g => (g.inputLockArgEnd, none)
  | .sourceDataEnd => fun g => (g.finishInputCellData env, none)
  | .sourceEnd => fun g => (g.finishContextTxn env, none)
  | .inputsEnd => fun g => (g.finishInputs, none)
  | .outputEnd => outputEnd env
  | .outputsEnd => outputsEnd
  | .dataEnd => fun g => (g.finishOutputCellData env, none)
  | .rawEnd => fun g => (g.finalizeRawTransaction env, none)
  | .witnessEnd => fun g => (g.processWitnessEnd, none)
  | .witnessesEnd => fun g => (g.finalizeWitnesses env, none)
  | _ => fun g => (g, none)

/-- The callbacks of a transaction exchange. -/
def signHandler : Handler SignEvent SignState Exc :=
  ⟨runCallback env, askCallback env, endCallback env⟩

end SignState
end NervosLedger
