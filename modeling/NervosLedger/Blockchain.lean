import NervosLedger.Molecule.Reader
import Mathlib.Data.Fin.VecNotation

/-!
# The schema types of `blockchain.h` and `annotated.h`

Each is the reader that `moleculec` printed for it, as a function of its callback table.
-/
namespace NervosLedger.Molecule.Reader
variable {E : Type}

def uint32 (done : Option (FixedBytes 4 → E) := none) : Reader E := .array 4 done

def uint64 (done : Option (FixedBytes 8 → E) := none) : Reader E := .array 8 done

def byte32 (done : Option (FixedBytes 32 → E) := none) : Reader E := .array 32 done

def bytesOpt (cb item : Callbacks E) : Reader E := .option cb (.bytes item)

def bytesVec (cb item : Callbacks E) : Reader E := .dynVec cb (.bytes item)

def byte32Vec (cb : Callbacks E) : Reader E := .fixVec cb 32 byte32

def script (cb : Callbacks E) (codeHash : Option (FixedBytes 32 → E))
    (hashType : Option (UInt8 → E)) (args : Callbacks E) : Reader E :=
  .table cb 2 ![byte32 codeHash, .byte hashType, .bytes args]

def scriptOpt (cb : Callbacks E) (item : Reader E) : Reader E := .option cb item

def outPoint (cb : Callbacks E) (txHash : Option (FixedBytes 32 → E))
    (index : Option (FixedBytes 4 → E)) : Reader E :=
  .struct cb 32 4 (byte32 txHash) (uint32 index)

def cellInput (cb : Callbacks E) (since : Option (FixedBytes 8 → E)) (previousOutput : Reader E) :
    Reader E :=
  .struct cb 8 36 (uint64 since) previousOutput

def cellInputVec (cb : Callbacks E) : Reader E :=
  .fixVec cb 44 (cellInput {} none (outPoint {} none none))

def cellOutput (cb : Callbacks E) (capacity : Option (FixedBytes 8 → E)) (lock type : Reader E) :
    Reader E :=
  .table cb 2 ![uint64 capacity, lock, type]

def cellOutputVec (cb : Callbacks E) (item : Reader E) : Reader E := .dynVec cb item

def cellDep (cb : Callbacks E) : Reader E :=
  .struct cb 36 1 (outPoint {} none none) (.byte none)

def cellDepVec (cb : Callbacks E) : Reader E := .fixVec cb 37 (cellDep {})

def rawTransaction (cb : Callbacks E) (version : Option (FixedBytes 4 → E))
    (cellDeps headerDeps inputs : Callbacks E) (outputs outputsData : Reader E) : Reader E :=
  .table cb 5 ![uint32 version, cellDepVec cellDeps, byte32Vec headerDeps, cellInputVec inputs,
    outputs, outputsData]

def witnessArgs (cb : Callbacks E) (lock inputType outputType : Reader E) : Reader E :=
  .table cb 2 ![lock, inputType, outputType]

def annotatedCellInput (cb : Callbacks E) (input source : Reader E) : Reader E :=
  .table cb 1 ![input, source]

def annotatedCellInputVec (cb : Callbacks E) (item : Reader E) : Reader E := .dynVec cb item

def annotatedRawTransaction (cb : Callbacks E) (version : Option (FixedBytes 4 → E))
    (cellDeps headerDeps : Callbacks E) (inputs outputs outputsData : Reader E) : Reader E :=
  .table cb 5 ![uint32 version, cellDepVec cellDeps, byte32Vec headerDeps, inputs, outputs,
    outputsData]

def bip32 (cb : Callbacks E) (item : Option (FixedBytes 4 → E)) : Reader E :=
  .fixVec cb 4 (uint32 item)

def annotatedTransaction (cb : Callbacks E) (signPath changePath : Reader E)
    (inputCount : Option (FixedBytes 4 → E)) (raw witnesses : Reader E) : Reader E :=
  .table cb 4 ![signPath, changePath, uint32 inputCount, raw, witnesses]

end NervosLedger.Molecule.Reader
