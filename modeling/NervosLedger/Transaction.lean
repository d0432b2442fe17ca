import NervosLedger.AnnotatedTransaction
import NervosLedger.Molecule.Encoding

/-!
# Transactions and their encodings

The values of the schema types of `blockchain.mol` and `annotated.mol`, how they are serialised, and
the callbacks that are made for an annotated transaction.
-/
namespace NervosLedger
open Molecule

structure Script where
  codeHash : FixedBytes 32
  hashType : UInt8
  args : List UInt8
  deriving DecidableEq, Repr

structure CellOutput where
  capacity : FixedBytes 8
  lock : Script
  type : Option Script
  deriving DecidableEq, Repr

structure OutPoint where
  txHash : FixedBytes 32
  index : FixedBytes 4
  deriving DecidableEq, Repr

structure CellInput where
  since : FixedBytes 8
  previousOutput : OutPoint
  deriving DecidableEq, Repr

structure CellDep where
  outPoint : OutPoint
  depType : UInt8
  deriving DecidableEq, Repr

structure RawTransaction where
  version : FixedBytes 4
  cellDeps : List CellDep
  headerDeps : List (FixedBytes 32)
  inputs : List CellInput
  outputs : List CellOutput
  outputsData : List (List UInt8)
  deriving DecidableEq, Repr

structure AnnotatedCellInput where
  input : CellInput
  source : RawTransaction
  deriving DecidableEq, Repr

structure AnnotatedRawTransaction where
  version : FixedBytes 4
  cellDeps : List CellDep
  headerDeps : List (FixedBytes 32)
  inputs : List AnnotatedCellInput
  outputs : List CellOutput
  outputsData : List (List UInt8)
  deriving DecidableEq, Repr

structure AnnotatedTransaction where
  signPath : List (FixedBytes 4)
  changePath : List (FixedBytes 4)
  inputCount : FixedBytes 4
  raw : AnnotatedRawTransaction
  witnesses : List (List UInt8)
  deriving DecidableEq, Repr

section Encode

def Script.encode (s : Script) : List UInt8 :=
  encodeParts [s.codeHash.toList, [s.hashType], encodeBytes s.args]

/-- A `ScriptOpt`. -/
def encodeScriptOpt : Option Script → List UInt8
  | none => []
  | some s => s.encode

def CellOutput.encode (c : CellOutput) : List UInt8 :=
  encodeParts [c.capacity.toList, c.lock.encode, encodeScriptOpt c.type]

def OutPoint.encode (p : OutPoint) : List UInt8 := p.txHash.toList ++ p.index.toList

def CellInput.encode (i : CellInput) : List UInt8 := i.since.toList ++ i.previousOutput.encode

def CellDep.encode (d : CellDep) : List UInt8 := d.outPoint.encode ++ [d.depType]

/-- A `CellDepVec`. -/
def encodeCellDeps (ds : List CellDep) : List UInt8 := encodeItems (ds.map CellDep.encode)

/-- A `Byte32Vec`. -/
def encodeHashes (hs : List (FixedBytes 32)) : List UInt8 := encodeItems (hs.map FixedBytes.toList)

/-- A `CellInputVec`. -/
def encodeInputs (is : List CellInput) : List UInt8 := encodeItems (is.map CellInput.encode)

/-- A `CellOutputVec`. -/
def encodeOutputs (cs : List CellOutput) : List UInt8 := encodeParts (cs.map CellOutput.encode)

/-- A `BytesVec`. -/
def encodeBytesVec (ds : List (List UInt8)) : List UInt8 := encodeParts (ds.map encodeBytes)

/-- A `Bip32`. -/
def encodePath (cs : List (FixedBytes 4)) : List UInt8 := encodeItems (cs.map FixedBytes.toList)

def RawTransaction.encode (t : RawTransaction) : List UInt8 :=
  encodeParts [t.version.toList, encodeCellDeps t.cellDeps, encodeHashes t.headerDeps,
    encodeInputs t.inputs, encodeOutputs t.outputs, encodeBytesVec t.outputsData]

def AnnotatedCellInput.encode (i : AnnotatedCellInput) : List UInt8 :=
  encodeParts [i.input.encode, i.source.encode]

/-- An `AnnotatedCellInputVec`. -/
def encodeAnnotatedInputs (is : List AnnotatedCellInput) : List UInt8 :=
  encodeParts (is.map AnnotatedCellInput.encode)

def AnnotatedRawTransaction.encode (t : AnnotatedRawTransaction) : List UInt8 :=
  encodeParts [t.version.toList, encodeCellDeps t.cellDeps, encodeHashes t.headerDeps,
    encodeAnnotatedInputs t.inputs, encodeOutputs t.outputs, encodeBytesVec t.outputsData]

def AnnotatedTransaction.encode (t : AnnotatedTransaction) : List UInt8 :=
  encodeParts [encodePath t.signPath, encodePath t.changePath, t.inputCount.toList, t.raw.encode,
    encodeBytesVec t.witnesses]

end Encode

/-- The size of an encoding fits the four bytes that it is declared in. -/
def AnnotatedTransaction.Fits (t : AnnotatedTransaction) : Prop := t.encode.length < 2 ^ 32

instance (t : AnnotatedTransaction) : Decidable t.Fits := inferInstanceAs (Decidable (_ < _))

/-! ### The callbacks -/

section Notes

/-- The callbacks of a type script. -/
def typeNotes (cell : CellEvent → SignEvent) : Option Script → List (Note SignEvent)
  | none => []
  | some s => [(.void, cell (.typeCodeHash s.codeHash)), (.void, cell (.typeHashType s.hashType)),
      (.size, cell (.typeArgsSize (s.args.length + 4)))]

/-- The callbacks of a lock argument. -/
def argsNotes (cell : CellEvent → SignEvent) (args : List UInt8) : List (Note SignEvent) :=
  if args = [] then [] else [(.void, cell (.lockArgs args []))]

/-- The callbacks of an output of the source of an input. -/
def CellOutput.sourceNotes (c : CellOutput) : List (Note SignEvent) :=
  [(.void, .sourceCell (.capacity c.capacity)), (.void, .sourceCell (.lockCodeHash c.lock.codeHash)),
    (.void, .sourceCell (.lockHashType c.lock.hashType)), (.void, .sourceCell .lockArgsStart)] ++
    argsNotes .sourceCell c.lock.args ++ [(.close, .sourceCell .lockEnd)] ++
    typeNotes .sourceCell c.type

/-- The callbacks of an output. -/
def CellOutput.notes (c : CellOutput) : List (Note SignEvent) :=
  [(.void, .outputCell (.capacity c.capacity)), (.void, .outputCell (.lockCodeHash c.lock.codeHash)),
    (.void, .outputCell (.lockHashType c.lock.hashType))] ++ argsNotes .outputCell c.lock.args ++
    typeNotes .outputCell c.type ++ [(.close, .outputEnd)]

/-- The callbacks of a byte string of a `BytesVec`. -/
def itemDataNotes (size : ℕ → SignEvent) (body : List UInt8 → List UInt8 → SignEvent)
    (finish : SignEvent) (d : List UInt8) : List (Note SignEvent) :=
  [(.size, size (d.length + 4))] ++ (if d = [] then [] else [(.void, body d [])]) ++
    [(.close, finish)]

def sourceDataNotes : List UInt8 → List (Note SignEvent) :=
  itemDataNotes .sourceDataSize .sourceDataChunk .sourceDataEnd

def outputDataNotes : List UInt8 → List (Note SignEvent) :=
  itemDataNotes .dataSize .dataChunk .dataEnd

def witnessNotes : List UInt8 → List (Note SignEvent) :=
  itemDataNotes .witnessSize .witnessChunk .witnessEnd

/-- The callbacks of a dynamic vector that tells the number of each item beforehand. -/
def indexedNotes (index : ℕ → SignEvent) (items : List (List (Note SignEvent))) :
    List (Note SignEvent) :=
  if items = [] then []
  else (.void, index 0) :: itemNotes (fun k => [(.void, index k)]) 0 items

/-- The callbacks of the source of an input. -/
def RawTransaction.sourceNotes (t : RawTransaction) : List (Note SignEvent) :=
  indexedNotes .sourceOutputsIndex (t.outputs.map CellOutput.sourceNotes) ++
    indexedNotes .sourceDataIndex (t.outputsData.map sourceDataNotes) ++
    [(.void, .sourceChunk t.encode), (.close, .sourceEnd)]

/-- The callbacks of an input, but for `input_start`. -/
def AnnotatedCellInput.notes (i : AnnotatedCellInput) : List (Note SignEvent) :=
  [(.void, .inputSince i.input.since), (.void, .inputIndex i.input.previousOutput.index)] ++
    i.source.sourceNotes

def inputsNotes (is : List AnnotatedCellInput) : List (Note SignEvent) :=
  (.void, .inputsStart) :: ((if is = [] then [] else [(.void, .inputStart),
    (.void, .inputsLength is.length)] ++ itemNotes (fun _ => [(.void, .inputStart)]) 0
      (is.map AnnotatedCellInput.notes)) ++ [(.close, .inputsEnd)])

def outputsNotes (cs : List CellOutput) : List (Note SignEvent) :=
  indexedNotes .outputsIndex (cs.map CellOutput.notes) ++
    [(.void, .outputsChunk (encodeOutputs cs)), (.close, .outputsEnd)]

def outputsDataNotes (ds : List (List UInt8)) : List (Note SignEvent) :=
  indexedNotes .dataIndex (ds.map outputDataNotes) ++ [(.void, .dataVecChunk (encodeBytesVec ds))]

/-- The fields of a transaction. -/
def AnnotatedRawTransaction.fields (t : AnnotatedRawTransaction) : List (List UInt8) :=
  [t.version.toList, encodeCellDeps t.cellDeps, encodeHashes t.headerDeps,
    encodeAnnotatedInputs t.inputs, encodeOutputs t.outputs, encodeBytesVec t.outputsData]

def AnnotatedRawTransaction.notes (t : AnnotatedRawTransaction) : List (Note SignEvent) :=
  [(.void, .offsets t.encode.length (offsetsFrom (headerSize 6) t.fields)),
    (.void, .version t.version), (.void, .cellDepsChunk (encodeCellDeps t.cellDeps)),
    (.void, .headerDepsChunk (encodeHashes t.headerDeps))] ++ inputsNotes t.inputs ++
    outputsNotes t.outputs ++ outputsDataNotes t.outputsData ++ [(.close, .rawEnd)]

/-- The callbacks of a derivation path. -/
def pathNotes (size : ℕ → SignEvent) (item : FixedBytes 4 → SignEvent) (finish : SignEvent)
    (cs : List (FixedBytes 4)) : List (Note SignEvent) :=
  (.size, size (cs.length * 4 + 4)) :: (cs.map fun c => (.void, item c)) ++ [(.close, finish)]

def witnessesNotes (ws : List (List UInt8)) : List (Note SignEvent) :=
  indexedNotes .witnessesIndex (ws.map witnessNotes) ++ [(.close, .witnessesEnd)]

/-- The callbacks of an annotated transaction. -/
def AnnotatedTransaction.notes (t : AnnotatedTransaction) : List (Note SignEvent) :=
  pathNotes .signPathSize .signPathItem .signPathEnd t.signPath ++
    pathNotes .changePathSize .changePathItem .changePathEnd t.changePath ++
    [(.void, .inputCount t.inputCount)] ++ t.raw.notes ++ witnessesNotes t.witnesses

end Notes

/-! ### Samples -/

section Samples

/-- `m/44'/309'/0'/0/0`. -/
def sampleComponents : List (FixedBytes 4) :=
  [0x8000002c, 0x80000135, 0x80000000, 0, 0].map fun n => .ofList 4 (le32 n)

/-- A transaction that is signed with the sample path, which is its change path as well. -/
def sampleTransaction (inputs : List AnnotatedCellInput) (outputs : List CellOutput)
    (outputsData witnesses : List (List UInt8)) : AnnotatedTransaction where
  signPath := sampleComponents
  changePath := sampleComponents
  inputCount := .ofList 4 (le32 inputs.length)
  raw := ⟨.zero 4, [], [], inputs, outputs, outputsData⟩
  witnesses := witnesses

/-- The hash of the sample key, which begins with its lock argument. -/
def sampleKeyHash : Digest := ⟨[
  0x75, 0x17, 0x8f, 0x34, 0x54, 0x9c, 0x5f, 0xe9, 0xcd, 0x1a, 0x0c, 0x57, 0xae, 0xbd, 0x01, 0xe7,
  0xdd, 0xf9, 0x24, 0x9e, 0x6f, 0xd9, 0xe0, 0x1b, 0x25, 0xd6, 0xfe, 0x91, 0x08, 0x53, 0x4d, 0xae],
  rfl⟩

/-- An SDK that knows the sample key and, besides its hash, those of some byte strings. -/
def keySdk (hashes : List (List UInt8 × Digest)) : Sdk :=
  .ofTable ((2 :: (samplePublicKey.toList.drop 1).take 32, sampleKeyHash) :: hashes) samplePublicKey

def sighashLock (args : List UInt8) : Script := ⟨defaultLockScript, 1, args⟩

def multisigLockOf (args : List UInt8) : Script := ⟨multisigLockScript, 1, args⟩

/-- The lock of the sample key. -/
def sampleLock : Script := sighashLock (sampleKeyHash.toList.take 20)

def sampleCell (lock : Script) (capacity : ℕ) : CellOutput :=
  ⟨.ofList 8 (leBytes 8 capacity), lock, none⟩

/-- The first output of a transaction that has the cells and their data, and no inputs. Its hash is
the one of byte strings that the SDK does not know. -/
def sampleInput (cells : List CellOutput) (data : List (List UInt8)) : AnnotatedCellInput :=
  ⟨⟨.zero 8, ⟨.zero 32, .zero 4⟩⟩, ⟨.zero 4, [], [], [], cells, data⟩⟩

end Samples
end NervosLedger
