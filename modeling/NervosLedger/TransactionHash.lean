import NervosLedger.Fee
import NervosLedger.Molecule.Chunks

/-!
# The transaction hash

The device is given the sources of the inputs along with a transaction, and hashes the transaction
without them as it reads. What has gone into the hash contexts does not depend on how the bytes were
cut, and for a transaction that has inputs it is the encoding of that transaction.
-/
namespace NervosLedger
open Molecule

/-- What the transaction hash is made from. -/
structure HashView where
  main : HashState := {}
  source : HashState := {}
  index : ℕ := 0
  inputCount : ℕ := 0

namespace HashView

/-- `blake2b_chunk`. -/
def absorb (v : HashView) (buf : List UInt8) : HashView := { v with main := v.main.absorb buf }

/-- The header of the transaction whose inputs have no sources. -/
def header (inputCount totalSize : ℕ) (offsets : List ℕ) : List UInt8 :=
  let offset := fun i => offsets.getD i 0
  let toSubtract := sub32 (sub32 (offset 4) (offset 3)) ((44 * inputCount + 4) % 2 ^ 32)
  le32 (sub32 totalSize toSubtract) ++ le32 (offset 0) ++ le32 (offset 1) ++ le32 (offset 2) ++
    le32 (offset 3) ++ le32 (sub32 (offset 4) toSubtract) ++ le32 (sub32 (offset 5) toSubtract)

/-- The callbacks that return nothing. -/
def run : SignEvent → HashView → HashView
  | .inputCount buf, v => { v with inputCount := leNat buf.toList }
  | .offsets totalSize offsets, v => v.absorb (header v.inputCount totalSize offsets)
  | .version buf, v => v.absorb buf.toList
  | .inputSince buf, v => v.absorb buf.toList
  | .cellDepsChunk buf, v | .headerDepsChunk buf, v | .outputsChunk buf, v | .dataVecChunk buf, v =>
    v.absorb buf
  | .inputsLength _, v => v.absorb (le32 v.inputCount)
  | .inputStart, v => { v with source := {}, index := 0 }
  | .inputIndex buf, v => { v with index := leNat buf.toList }
  | .sourceChunk buf, v => { v with source := v.source.absorb buf }
  | _, v => v

/-- The callbacks at an end. -/
def finish (sdk : Sdk) : SignEvent → HashView → HashView
  | .sourceEnd, v =>
    { (v.absorb (v.source.digest sdk).toList).absorb (le32 v.index) with source := {}, index := 0 }
  | .inputsEnd, v => { v with source := {}, index := 0 }
  | _, v => v

end HashView

/-- A callback for the witnesses. -/
def SignEvent.isWitness : SignEvent → Bool
  | .witnessesIndex _ | .witnessSize _ | .witnessChunk _ _ | .witnessEnd | .witnessesEnd => true
  | _ => false

/-- How far the hash of a transaction is. -/
inductive Hashing where
  | raw (v : HashView)
  | miscounted
  | hashed (hash : Digest)
  | lost

/-- The number of inputs is not the one that was announced. -/
def HashView.miscounts (v : HashView) : SignEvent → Bool
  | .inputsLength length => length ≠ v.inputCount
  | _ => false

namespace Hashing

def run (e : SignEvent) : Hashing → Hashing
  | .raw v => if e.isWitness then .lost else if v.miscounts e then .miscounted else .raw (v.run e)
  | s => s

def ask (e : SignEvent) : Hashing → Hashing
  | .raw v => if e.isWitness then .lost else .raw v
  | s => s

def finish (sdk : Sdk) (e : SignEvent) : Hashing → Hashing
  | .raw v =>
    if e.isWitness then .lost
    else if e = .rawEnd then .hashed (v.main.digest sdk) else .raw (v.finish sdk e)
  | .hashed hash => if e = .rawEnd ∨ e = .inputsEnd then .lost else .hashed hash
  | s => s

end Hashing

/-- The callbacks of a transaction, as far as its hash goes. -/
def hashing (sdk : Sdk) : Handler SignEvent Hashing Exc :=
  ⟨Hashing.run, fun e s => (Hashing.ask e s, true), fun e s => (Hashing.finish sdk e s, none)⟩

/-! ### Chunks -/

section Chunks

/-- What the parser of a source calls. -/
def SignEvent.IsInSource : SignEvent → Prop
  | .sourceOutputsIndex _ | .sourceCell _ | .sourceDataIndex _ | .sourceDataSize _
  | .sourceDataChunk _ _ | .sourceDataEnd => True
  | _ => False

/-- What the parser of the outputs calls. -/
def SignEvent.IsInOutputs : SignEvent → Prop
  | .outputsIndex _ | .outputCell _ | .outputEnd => True
  | _ => False

/-- What the parser of the data of the outputs calls. -/
def SignEvent.IsInData : SignEvent → Prop
  | .dataIndex _ | .dataSize _ | .dataChunk _ _ | .dataEnd => True
  | _ => False

theorem sourceCellCallbacks_every : sourceCellCallbacks.Every SignEvent.IsInSource := by
  simp [sourceCellCallbacks, typeScriptCallbacks, Reader.cellOutput, Reader.script, Reader.scriptOpt,
    Reader.uint64, Reader.byte32, Reader.Every, Callbacks.every_mk, Fin.forall_fin_succ,
    SignEvent.IsInSource]

theorem outputCallbacks_every : outputCallbacks.Every SignEvent.IsInOutputs := by
  simp [outputCallbacks, typeScriptCallbacks, Reader.cellOutput, Reader.script, Reader.scriptOpt,
    Reader.uint64, Reader.byte32, Reader.Every, Callbacks.every_mk, Fin.forall_fin_succ,
    SignEvent.IsInOutputs]

/-- The chunks of a transaction are collected. -/
structure Gathers {σ ε : Type} (h : Handler SignEvent σ ε) : Prop where
  cellDeps : Collects h .cellDepsChunk
  headerDeps : Collects h .headerDepsChunk
  source : Collects h .sourceChunk
  outputs : Collects h .outputsChunk
  dataVec : Collects h .dataVecChunk
  inSource : ∀ {e : SignEvent}, e.IsInSource → ∀ bs, SameAt h h (After h .sourceChunk bs) e
  inOutputs : ∀ {e : SignEvent}, e.IsInOutputs → ∀ bs, SameAt h h (After h .outputsChunk bs) e
  inData : ∀ {e : SignEvent}, e.IsInData → ∀ bs, SameAt h h (After h .dataVecChunk bs) e
  sourceArgs : BodyCollects h fun b f => .sourceCell (.lockArgs b f)
  outputArgs : BodyCollects h fun b f => .outputCell (.lockArgs b f)
  sourceData : BodyCollects h .sourceDataChunk
  outputData : BodyCollects h .dataChunk
  witness : BodyCollects h .witnessChunk

variable {σ ε : Type} {h : Handler SignEvent σ ε}

theorem Gathers.sourceCells (hg : Gathers h) : sourceCellCallbacks.Collecting h := by
  simp [sourceCellCallbacks, typeScriptCallbacks, Reader.cellOutput, Reader.script, Reader.scriptOpt,
    Reader.uint64, Reader.byte32, Reader.Collecting, chunkCommutes_none, Fin.forall_fin_succ,
    hg.sourceArgs]

theorem Gathers.outputCells (hg : Gathers h) : outputCallbacks.Collecting h := by
  simp [outputCallbacks, typeScriptCallbacks, Reader.cellOutput, Reader.script, Reader.scriptOpt,
    Reader.uint64, Reader.byte32, Reader.Collecting, chunkCommutes_none, Fin.forall_fin_succ,
    hg.outputArgs]

theorem Gathers.sources (hg : Gathers h) : sourceCallbacks.Collecting h := by
  constructor
  · rintro c ⟨rfl⟩
    refine ⟨hg.source, fun bs => ⟨?_, ?_⟩⟩
    · simp [Callbacks.inner, Callbacks.every_mk]
    · have hcells := sourceCellCallbacks_every.mono fun _ he => hg.inSource he bs
      have hindex : ∀ n, SameAt h h (After h .sourceChunk bs) (.sourceOutputsIndex n) :=
        fun _ => hg.inSource (by trivial) bs
      have hdata : ∀ n, SameAt h h (After h .sourceChunk bs) (.sourceDataIndex n) :=
        fun _ => hg.inSource (by trivial) bs
      have hsize : ∀ n, SameAt h h (After h .sourceChunk bs) (.sourceDataSize n) :=
        fun _ => hg.inSource (by trivial) bs
      have hbody : ∀ b f, SameAt h h (After h .sourceChunk bs) (.sourceDataChunk b f) :=
        fun _ _ => hg.inSource (by trivial) bs
      have hend : SameAt h h (After h .sourceChunk bs) .sourceDataEnd := hg.inSource (by trivial) bs
      simp [Reader.cellOutputVec, Reader.bytesVec, Reader.cellInputVec, Reader.cellInput,
        Reader.cellDepVec, Reader.cellDep, Reader.byte32Vec, Reader.outPoint, Reader.uint32,
        Reader.uint64, Reader.byte32, Reader.Every, Callbacks.every_mk, Fin.forall_fin_succ, hcells,
        hindex, hdata, hsize, hbody, hend]
  · simp [Reader.cellOutputVec, Reader.bytesVec, Reader.cellInputVec, Reader.cellInput,
      Reader.cellDepVec, Reader.cellDep, Reader.byte32Vec, Reader.outPoint, Reader.uint32,
      Reader.uint64, Reader.byte32, Reader.Collecting, chunkCommutes_none, Fin.forall_fin_succ,
      hg.sourceCells, hg.sourceData]

theorem Gathers.inputs (hg : Gathers h) : inputsCallbacks.Collecting h := by
  simp [inputsCallbacks, annotatedCellInputCallbacks, Reader.annotatedCellInputVec,
    Reader.annotatedCellInput, Reader.cellInput, Reader.outPoint, Reader.uint32, Reader.uint64,
    Reader.byte32, Reader.Collecting, chunkCommutes_none, Fin.forall_fin_succ, hg.sources]

theorem Gathers.outputsVec (hg : Gathers h) : outputsCallbacks.Collecting h := by
  refine ⟨?_, hg.outputCells⟩
  rintro c ⟨rfl⟩
  refine ⟨hg.outputs, fun bs => ⟨?_, outputCallbacks_every.mono fun _ he => hg.inOutputs he bs⟩⟩
  have hindex : ∀ n, SameAt h h (After h .outputsChunk bs) (.outputsIndex n) :=
    fun _ => hg.inOutputs (by trivial) bs
  simp [Callbacks.inner, Callbacks.every_mk, hindex]

theorem Gathers.dataItems (hg : Gathers h) : outputsDataCallbacks.Collecting h := by
  refine ⟨?_, ?_⟩
  · rintro c ⟨rfl⟩
    refine ⟨hg.dataVec, fun bs => ⟨?_, ?_⟩⟩
    · have hindex : ∀ n, SameAt h h (After h .dataVecChunk bs) (.dataIndex n) :=
        fun _ => hg.inData (by trivial) bs
      simp [Callbacks.inner, Callbacks.every_mk, hindex]
    · have hsize : ∀ n, SameAt h h (After h .dataVecChunk bs) (.dataSize n) :=
        fun _ => hg.inData (by trivial) bs
      have hbody : ∀ b f, SameAt h h (After h .dataVecChunk bs) (.dataChunk b f) :=
        fun _ _ => hg.inData (by trivial) bs
      have hend : SameAt h h (After h .dataVecChunk bs) .dataEnd := hg.inData (by trivial) bs
      simp [Reader.Every, Callbacks.every_mk, hsize, hbody, hend]
  · simp [Reader.Collecting, hg.outputData]

theorem Gathers.collecting (hg : Gathers h) : annotatedTransactionCallbacks.Collecting h := by
  have hchunk : ∀ {c : List UInt8 → SignEvent}, Collects h c → ∀ {inner : (SignEvent → Prop) → Prop},
      (∀ P, inner P) → ChunkCommutes h { chunk := some c } inner := by
    rintro c hc inner hinner _ ⟨rfl⟩
    exact ⟨hc, fun bs => ⟨by simp [Callbacks.inner, Callbacks.every_mk], hinner _⟩⟩
  have hcellDeps : (Reader.cellDepVec { chunk := some .cellDepsChunk }).Collecting h := by
    refine ⟨hchunk hg.cellDeps fun P => ?_, ?_⟩
    · simp [Reader.cellDep, Reader.outPoint, Reader.uint32, Reader.byte32, Reader.Every,
        Callbacks.every_mk]
    · simp [Reader.cellDep, Reader.outPoint, Reader.uint32, Reader.byte32, Reader.Collecting,
        chunkCommutes_none]
  have hheaderDeps : (Reader.byte32Vec { chunk := some .headerDepsChunk }).Collecting h := by
    refine ⟨hchunk hg.headerDeps fun P => ?_, ?_⟩
    · simp [Reader.byte32, Reader.Every]
    · simp [Reader.byte32, Reader.Collecting]
  simp [annotatedTransactionCallbacks, annotatedRawTransactionCallbacks, witnessesCallbacks,
    Reader.annotatedTransaction, Reader.annotatedRawTransaction, Reader.bytesVec, Reader.bip32,
    Reader.uint32, Reader.Collecting, chunkCommutes_none, Fin.forall_fin_succ, hcellDeps,
    hheaderDeps, hg.inputs, hg.outputsVec, hg.dataItems, hg.witness]

end Chunks

section Unhashed
variable (sdk : Sdk)

/-- An event that the hash is not made from. -/
def SignEvent.IsUnhashed : SignEvent → Prop
  | .signPathSize _ | .signPathItem _ | .signPathEnd | .changePathSize _ | .changePathItem _
  | .changePathEnd | .inputsStart | .outputsEnd
  | .sourceOutputsIndex _ | .sourceCell _ | .sourceDataIndex _ | .sourceDataSize _
  | .sourceDataChunk _ _ | .sourceDataEnd | .outputsIndex _ | .outputCell _ | .outputEnd
  | .dataIndex _ | .dataSize _ | .dataChunk _ _ | .dataEnd => True
  | _ => False

theorem SignEvent.IsUnhashed.quiet {e : SignEvent} (he : e.IsUnhashed) : Quiet (hashing sdk) e := by
  constructor <;> intro s <;> cases e <;> first | exact he.elim | (cases s <;> rfl)

theorem hashing_collects {c : List UInt8 → SignEvent} (hw : ∀ bs, (c bs).isWitness = false)
    (hm : ∀ v bs, HashView.miscounts v (c bs) = false)
    (hc : ∀ a b v, HashView.run (c b) (HashView.run (c a) v) = HashView.run (c (a ++ b)) v) :
    Collects (hashing sdk) c := by
  intro a b s
  cases s with
  | raw v => simp [hashing, Hashing.run, hw, hm, hc]
  | _ => rfl

theorem unhashed_bodyCollects {c : List UInt8 → List UInt8 → SignEvent}
    (hc : ∀ a x, (c a x).IsUnhashed) : BodyCollects (hashing sdk) c := by
  intro a b x y z s
  rw [((hc _ _).quiet sdk).run, ((hc _ _).quiet sdk).run, ((hc _ _).quiet sdk).run]

theorem hashing_gathers : Gathers (hashing sdk) := by
  have hmain : ∀ {c : List UInt8 → SignEvent}, (∀ bs, (c bs).isWitness = false) →
      (∀ v bs, HashView.miscounts v (c bs) = false) → (∀ bs v, HashView.run (c bs) v = v.absorb bs) →
      Collects (hashing sdk) c := by
    intro c hw hm hc
    refine hashing_collects sdk hw hm fun a b v => ?_
    simp [hc, HashView.absorb]
  have hsame : ∀ {e : SignEvent}, e.IsUnhashed → ∀ c bs,
      SameAt (hashing sdk) (hashing sdk) (After (hashing sdk) c bs) e :=
    fun he c bs => (he.quiet sdk).sameAt c bs
  refine ⟨?_, ?_, ?_, ?_, ?_, ?_, ?_, ?_, ?_, ?_, ?_, ?_, ?_⟩
  · exact hmain (fun _ => rfl) (fun _ _ => rfl) fun _ _ => rfl
  · exact hmain (fun _ => rfl) (fun _ _ => rfl) fun _ _ => rfl
  · refine hashing_collects sdk (fun _ => rfl) (fun _ _ => rfl) fun a b v => ?_
    simp [HashView.run]
  · exact hmain (fun _ => rfl) (fun _ _ => rfl) fun _ _ => rfl
  · exact hmain (fun _ => rfl) (fun _ _ => rfl) fun _ _ => rfl
  · intro e he
    exact hsame (by cases e <;> trivial) _
  · intro e he
    exact hsame (by cases e <;> trivial) _
  · intro e he
    exact hsame (by cases e <;> trivial) _
  · exact unhashed_bodyCollects sdk fun _ _ => trivial
  · exact unhashed_bodyCollects sdk fun _ _ => trivial
  · exact unhashed_bodyCollects sdk (c := .sourceDataChunk) fun _ _ => trivial
  · exact unhashed_bodyCollects sdk (c := .dataChunk) fun _ _ => trivial
  · intro a b x y z s
    cases s <;> rfl

end Unhashed

namespace SignState

/-- What the transaction hash is made from, in a state. -/
def hashView (g : SignState) : HashView := ⟨g.hashState, g.inp.hashState, g.inp.index, g.inputCount⟩

/-! ### Callbacks and the hash -/

section Frames
variable (env : Env) (g : SignState)

/-- What the witnesses find in the state. -/
def handed (g : SignState) : Digest × Bool := (g.tx.transactionHash, g.tx.firstWitnessDone)

theorem runCell_frame (e : CellEvent) :
    (runCell env e g).hashView = g.hashView ∧ (runCell env e g).handed = g.handed := by
  cases e with
  | capacity buf =>
    dsimp only [runCell, cellCapacity]
    split <;> exact ⟨rfl, rfl⟩
  | lockCodeHash buf =>
    dsimp only [runCell, cellLockCodeHash]
    split_ifs <;> exact ⟨rfl, rfl⟩
  | lockHashType hashType =>
    dsimp only [runCell, cellScriptHashType]
    split_ifs <;> exact ⟨rfl, rfl⟩
  | typeHashType hashType =>
    dsimp only [runCell, cellScriptHashType]
    split_ifs <;> exact ⟨rfl, rfl⟩
  | lockArgsStart =>
    dsimp only [runCell, scriptArgStartInput]
    split <;> exact ⟨rfl, rfl⟩
  | lockArgs buf following =>
    dsimp only [runCell, scriptArgChunk]
    split_ifs <;> exact ⟨rfl, rfl⟩
  | typeCodeHash buf =>
    dsimp only [runCell, cellTypeCodeHash]
    split_ifs <;> exact ⟨rfl, rfl⟩
  | lockEnd => exact ⟨rfl, rfl⟩
  | typeArgsSize size => exact ⟨rfl, rfl⟩

theorem checkCellDataDataChunk_frame (buf : List UInt8) :
    (checkCellDataDataChunk buf g).hashView = g.hashView ∧
      (checkCellDataDataChunk buf g).handed = g.handed := by
  unfold checkCellDataDataChunk
  split <;> exact ⟨rfl, rfl⟩

theorem runCallback_hashView {e : SignEvent} (hw : ¬ e.isWitness) (hc : ¬ g.hashView.miscounts e) :
    (runCallback env e g).hashView = g.hashView.run e := by
  cases e with
  | sourceCell e => exact (runCell_frame env g e).1
  | outputCell e => exact (runCell_frame env g e).1
  | sourceDataChunk buf following => exact (checkCellDataDataChunk_frame g buf).1
  | dataChunk buf following => exact (checkCellDataDataChunk_frame g buf).1
  | inputsLength length =>
    have hlen : ¬ length ≠ g.inputCount := fun hne => hc (decide_eq_true hne)
    dsimp only [runCallback, blake2bInputCount]
    rw [if_neg hlen]
    rfl
  | witnessesIndex index => exact absurd rfl hw
  | witnessChunk buf following => exact absurd rfl hw
  | _ => rfl

theorem runCallback_miscounts {e : SignEvent} (hc : g.hashView.miscounts e) :
    (runCallback env e g).Refused := by
  cases e with
  | inputsLength length =>
    have hlen : length ≠ g.inputCount := of_decide_eq_true hc
    dsimp only [runCallback, blake2bInputCount]
    rw [if_pos hlen]
    exact .inr rfl
  | _ => cases hc

theorem runCallback_handed {e : SignEvent} (hw : ¬ e.isWitness) :
    (runCallback env e g).handed = g.handed := by
  cases e with
  | sourceCell e => exact (runCell_frame env g e).2
  | outputCell e => exact (runCell_frame env g e).2
  | sourceDataChunk buf following => exact (checkCellDataDataChunk_frame g buf).2
  | dataChunk buf following => exact (checkCellDataDataChunk_frame g buf).2
  | inputsLength length =>
    dsimp only [runCallback, blake2bInputCount]
    split <;> rfl
  | witnessesIndex index => exact absurd rfl hw
  | witnessChunk buf following => exact absurd rfl hw
  | _ => rfl

theorem askCallback_frame {e : SignEvent} (hw : ¬ e.isWitness) :
    (askCallback env e g).1.hashView = g.hashView ∧ (askCallback env e g).1.handed = g.handed := by
  have hpath : ∀ n, (initBip32 n g).1.hashView = g.hashView ∧ (initBip32 n g).1.handed = g.handed := by
    intro n
    unfold initBip32
    split_ifs <;> exact ⟨rfl, rfl⟩
  have hargs : ∀ n, (cellTypeArgLength env n g).1.hashView = g.hashView ∧
      (cellTypeArgLength env n g).1.handed = g.handed := by
    intro n
    unfold cellTypeArgLength
    split_ifs <;> exact ⟨rfl, rfl⟩
  have hdata : ∀ n, (setCellDataSize n g).1.hashView = g.hashView ∧
      (setCellDataSize n g).1.handed = g.handed := by
    intro n
    unfold setCellDataSize
    split <;> exact ⟨rfl, rfl⟩
  cases e with
  | signPathSize size => exact hpath size
  | changePathSize size => exact hpath size
  | sourceCell e => cases e <;> first | exact hargs _ | exact ⟨rfl, rfl⟩
  | outputCell e => cases e <;> first | exact hargs _ | exact ⟨rfl, rfl⟩
  | sourceDataSize size => exact hdata size
  | dataSize size => exact hdata size
  | witnessSize size => exact absurd rfl hw
  | _ => exact ⟨rfl, rfl⟩

/-- What is no end of a source, of the inputs or of the raw transaction leaves the hashes alone. -/
theorem endCallback_frame {e : SignEvent} (hw : ¬ e.isWitness) (hs : e ≠ .sourceEnd)
    (hi : e ≠ .inputsEnd) (hr : e ≠ .rawEnd) :
    (endCallback env e g).1.hashView = g.hashView ∧ (endCallback env e g).1.handed = g.handed := by
  cases e with
  | signPathEnd =>
    dsimp only [endCallback, setSignPath]
    cases prepLockArg env.sdk g.tempKey <;> exact ⟨rfl, rfl⟩
  | changePathEnd =>
    dsimp only [endCallback, setChangePath]
    cases prepLockArg env.sdk g.tempKey <;> exact ⟨rfl, rfl⟩
  | sourceCell e =>
    cases e with
    | lockEnd =>
      dsimp only [endCallback, inputLockArgEnd]
      split_ifs <;> exact ⟨rfl, rfl⟩
    | _ => exact ⟨rfl, rfl⟩
  | sourceDataEnd =>
    dsimp only [endCallback, finishInputCellData]
    split_ifs <;> exact ⟨rfl, rfl⟩
  | sourceEnd => exact absurd rfl hs
  | inputsEnd => exact absurd rfl hi
  | outputEnd =>
    dsimp only [endCallback, outputEnd, daoOutputEnd, plainOutputEnd]
    split_ifs <;> exact ⟨rfl, rfl⟩
  | outputsEnd =>
    dsimp only [endCallback, outputsEnd]
    split_ifs <;> exact ⟨rfl, rfl⟩
  | dataEnd =>
    dsimp only [endCallback, finishOutputCellData]
    split_ifs <;> exact ⟨rfl, rfl⟩
  | rawEnd => exact absurd rfl hr
  | witnessEnd => exact absurd rfl hw
  | witnessesEnd => exact absurd rfl hw
  | _ => exact ⟨rfl, rfl⟩

theorem endCallback_hashView {e : SignEvent} (hw : ¬ e.isWitness) (hr : e ≠ .rawEnd) :
    (endCallback env e g).1.hashView = g.hashView.finish env.sdk e := by
  by_cases hs : e = .sourceEnd
  · subst hs
    rfl
  by_cases hi : e = .inputsEnd
  · subst hi
    rfl
  rw [(endCallback_frame env g hw hs hi hr).1]
  cases e <;> first | rfl | exact absurd rfl hs | exact absurd rfl hi

theorem finalizeTag_frame : g.finalizeTag.1.hashState = g.hashState ∧ g.finalizeTag.1.tx = g.tx := by
  unfold finalizeTag
  cases g.v.tag <;> first | exact ⟨rfl, rfl⟩ | (dsimp only; split_ifs <;> exact ⟨rfl, rfl⟩)

theorem finalizeTag_refused (hr : g.finalizeTag.2 = false) : g.finalizeTag.1.Refused := by
  unfold finalizeTag at hr ⊢
  cases ht : g.v.tag <;> simp only [ht] at hr ⊢ <;> first
    | exact .inl rfl
    | cases hr
    | (split_ifs at hr ⊢ <;> exact .inl rfl)

/-- The hash is that of what was absorbed, unless the transaction is rejected. -/
theorem finalizeRawTransaction_hash : (g.finalizeRawTransaction env).Refused ∨
    (g.finalizeRawTransaction env).tx.transactionHash = g.hashView.main.digest env.sdk := by
  have hstate := (finalizeTag_frame g).1
  have href := finalizeTag_refused g
  unfold finalizeRawTransaction
  generalize g.finalizeTag = x at hstate href ⊢
  obtain ⟨a, b⟩ := x
  cases b with
  | false => exact .inl (href rfl)
  | true => exact .inr (congrArg (HashState.digest env.sdk) hstate)

theorem finalizeRawTransaction_done :
    (g.finalizeRawTransaction env).tx.firstWitnessDone = g.tx.firstWitnessDone := by
  have htx := congrArg TxView.firstWitnessDone (finalizeTag_frame g).2
  unfold finalizeRawTransaction
  generalize g.finalizeTag = x at htx ⊢
  obtain ⟨a, b⟩ := x
  cases b with
  | false => exact htx
  | true => exact htx

theorem witnessHandler_transactionHash (beyond : List UInt8) (e : WitnessEvent) :
    KeepsAt (witnessHandler beyond)
      (fun g' => g'.tx.transactionHash = g.tx.transactionHash) e where
  run {g'} hg := by
    refine Eq.trans ?_ hg
    cases e with
    | offsets totalSize offsets =>
      simp only [witnessHandler, witnessOffsets]
      split <;> rfl
    | lockBody buf following =>
      simp only [witnessHandler, witnessLockArgBodyChunk]
      split_ifs <;> rfl
    | _ => rfl
  ask {g'} hg := by
    refine Eq.trans ?_ hg
    cases e with
    | lockSize size =>
      simp only [witnessHandler, witnessLockArgSize]
      split_ifs <;> rfl
    | _ => rfl
  finish hg := hg

theorem processWitness_transactionHash (buf following : List UInt8) :
    (processWitness env buf following g).tx.transactionHash = g.tx.transactionHash := by
  unfold processWitness
  split
  · rfl
  · have hparse := Reader.parse_keeps (witnessArgsRewriteCallbacks.every_of_forall
      (witnessHandler_transactionHash g (following ++ env.beyond))) g.tx.witnessStack molNumMax
      buf rfl
    dsimp only
    split <;> exact hparse

theorem runCallback_transactionHash (e : SignEvent) :
    (runCallback env e g).tx.transactionHash = g.tx.transactionHash := by
  by_cases hw : e.isWitness
  · cases e with
    | witnessesIndex index =>
      dsimp only [runCallback, beginWitness]
      split <;> rfl
    | witnessChunk buf following => exact processWitness_transactionHash env g buf following
    | _ => first | rfl | cases hw
  · exact congrArg Prod.fst (runCallback_handed env g hw)

theorem askCallback_transactionHash (e : SignEvent) :
    (askCallback env e g).1.tx.transactionHash = g.tx.transactionHash := by
  by_cases hw : e.isWitness
  · cases e with
    | witnessSize size =>
      dsimp only [askCallback, hashWitnessLength]
      split_ifs <;> rfl
    | _ => first | rfl | cases hw
  · exact congrArg Prod.fst (askCallback_frame env g hw).2

theorem endCallback_transactionHash {e : SignEvent} (hr : e ≠ .rawEnd) (hi : e ≠ .inputsEnd) :
    (endCallback env e g).1.tx.transactionHash = g.tx.transactionHash := by
  by_cases hw : e.isWitness
  · cases e with
    | witnessEnd =>
      dsimp only [endCallback, processWitnessEnd]
      split <;> rfl
    | _ => first | rfl | cases hw
  by_cases hs : e = .sourceEnd
  · subst hs
    rfl
  exact congrArg Prod.fst (endCallback_frame env g hw hs hi hr).2

end Frames

/-! ### The hash of a session -/

section Session
variable {sdk : Sdk}

/-- A state agrees with how far the hash is. -/
def HashesAs (g : SignState) : Hashing → Prop
  | .raw v => g.hashView = v
  | .miscounted => False
  | .hashed hash => g.tx.transactionHash = hash
  | .lost => True

theorem hashesAs_run {g : SignState} {s : Hashing} (h : g.Refused ∨ g.HashesAs s) (env : Env)
    (e : SignEvent) : (runCallback env e g).Refused ∨ (runCallback env e g).HashesAs (s.run e) := by
  rcases h with hr | h
  · exact .inl ((runCallback_onward env g e).refused hr)
  cases s with
  | raw v =>
    obtain rfl : g.hashView = v := h
    dsimp only [Hashing.run]
    split_ifs with hw hc
    · exact .inr trivial
    · exact .inl (runCallback_miscounts env g hc)
    · exact .inr (runCallback_hashView env g hw hc)
  | miscounted => exact h.elim
  | hashed hash => exact .inr ((runCallback_transactionHash env g e).trans h)
  | lost => exact .inr trivial

theorem hashesAs_ask {g : SignState} {s : Hashing} (h : g.Refused ∨ g.HashesAs s) (env : Env)
    (e : SignEvent) :
    (askCallback env e g).1.Refused ∨ (askCallback env e g).1.HashesAs (s.ask e) := by
  rcases h with hr | h
  · exact .inl ((askCallback_onward env g e).refused hr)
  cases s with
  | raw v =>
    obtain rfl : g.hashView = v := h
    dsimp only [Hashing.ask]
    split_ifs with hw
    · exact .inr trivial
    · exact .inr (askCallback_frame env g hw).1
  | miscounted => exact h.elim
  | hashed hash => exact .inr ((askCallback_transactionHash env g e).trans h)
  | lost => exact .inr trivial

theorem hashesAs_finish {g : SignState} {s : Hashing} (h : g.Refused ∨ g.HashesAs s) (env : Env)
    (e : SignEvent) :
    (endCallback env e g).1.Refused ∨ (endCallback env e g).1.HashesAs (s.finish env.sdk e) := by
  rcases h with hr | h
  · exact .inl ((endCallback_onward env g e).refused hr)
  cases s with
  | raw v =>
    obtain rfl : g.hashView = v := h
    dsimp only [Hashing.finish]
    split_ifs with hw hraw
    · exact .inr trivial
    · subst hraw
      exact finalizeRawTransaction_hash env g
    · exact .inr (endCallback_hashView env g hw hraw)
  | miscounted => exact h.elim
  | hashed hash =>
    dsimp only [Hashing.finish]
    split_ifs with he
    · exact .inr trivial
    · push Not at he
      exact .inr ((endCallback_transactionHash env g he.1 he.2).trans h)
  | lost => exact .inr trivial

/-- The hash is made as `hashing` says, unless the transaction is rejected. -/
theorem hashing_mirrors (sdk : Sdk) : Mirrors sdk (hashing sdk)
    (fun y s => y.1.Refused ∨ y.1.HashesAs s) (.raw {}) where
  sim x := Reader.every_of_forall (fun e => ⟨fun h => hashesAs_run h (x.env sdk) e,
    fun h _ => ⟨rfl, hashesAs_ask h (x.env sdk) e⟩,
    fun h _ => ⟨rfl, hashesAs_finish h (x.env sdk) e⟩, fun _ _ => trivial⟩) _
  restack _ h := h
  fresh := .inr rfl

end Session
end SignState

/-! ### The hash of a transaction -/

/-- The input that an annotated input stands for. -/
def AnnotatedCellInput.unannotated (sdk : Sdk) (i : AnnotatedCellInput) : CellInput :=
  ⟨i.input.since, ⟨sdk.blake2b [] i.source.encode, i.input.previousOutput.index⟩⟩

/-- The transaction that an annotated transaction stands for. -/
def AnnotatedRawTransaction.unannotated (sdk : Sdk) (t : AnnotatedRawTransaction) :
    RawTransaction :=
  ⟨t.version, t.cellDeps, t.headerDeps, t.inputs.map (·.unannotated sdk), t.outputs, t.outputsData⟩

section Replayed
variable {sdk : Sdk}

/-- Notes that the hash is not made from. -/
def Unhashed (es : List (Note SignEvent)) : Prop := ∀ n ∈ es, n.2.IsUnhashed

theorem Unhashed.append {es es' : List (Note SignEvent)} (h : Unhashed es) (h' : Unhashed es') :
    Unhashed (es ++ es') := by
  intro n hn
  exact (List.mem_append.mp hn).elim (h n) (h' n)

theorem Unhashed.replay {es : List (Note SignEvent)} (h : Unhashed es) (s : Hashing) :
    (hashing sdk).replay es s = s :=
  replay_quiet (fun n hn => (h n hn).quiet sdk) s

theorem unhashed_indexedNotes (index : ℕ → SignEvent) (hindex : ∀ k, (index k).IsUnhashed)
    {ess : List (List (Note SignEvent))} (h : ∀ es ∈ ess, Unhashed es) :
    Unhashed (indexedNotes index ess) := by
  intro n hn
  rcases SignState.mem_indexedNotes hn with ⟨es, he, hmem⟩ | ⟨j, hj⟩
  · exact h es he n hmem
  · rw [hj]
    exact hindex j

theorem unhashed_path (size : ℕ → SignEvent) (item : FixedBytes 4 → SignEvent)
    (finish : SignEvent) (hsize : ∀ n, (size n).IsUnhashed) (hitem : ∀ c, (item c).IsUnhashed)
    (hfinish : finish.IsUnhashed) (cs : List (FixedBytes 4)) :
    Unhashed (pathNotes size item finish cs) := by
  intro n hn
  rw [pathNotes, List.mem_append, List.mem_cons, List.mem_map, List.mem_singleton] at hn
  rcases hn with (rfl | ⟨c, -, rfl⟩) | rfl
  · exact hsize _
  · exact hitem c
  · exact hfinish

theorem unhashed_sourceCell (c : CellOutput) : Unhashed c.sourceNotes := by
  have hcell : ∀ n ∈ c.sourceNotes, ∃ e, n.2 = .sourceCell e := by
    unfold CellOutput.sourceNotes argsNotes typeNotes
    cases c.type <;> split_ifs <;> simp
  intro n hn
  obtain ⟨e, he⟩ := hcell n hn
  rw [he]
  trivial

theorem unhashed_output (c : CellOutput) : Unhashed c.notes := by
  have hcell : ∀ n ∈ c.notes, (∃ e, n.2 = .outputCell e) ∨ n.2 = .outputEnd := by
    unfold CellOutput.notes argsNotes typeNotes
    cases c.type <;> split_ifs <;> simp
  intro n hn
  rcases hcell n hn with ⟨e, he⟩ | he
  · rw [he]
    trivial
  · rw [he]
    trivial

theorem unhashed_sourceData (d : List UInt8) : Unhashed (sourceDataNotes d) := by
  unfold sourceDataNotes itemDataNotes Unhashed
  split_ifs <;> simp [SignEvent.IsUnhashed]

theorem unhashed_outputData (d : List UInt8) : Unhashed (outputDataNotes d) := by
  unfold outputDataNotes itemDataNotes Unhashed
  split_ifs <;> simp [SignEvent.IsUnhashed]

theorem HashView.absorb_absorb (v : HashView) (a b : List UInt8) :
    (v.absorb a).absorb b = v.absorb (a ++ b) := by
  simp [HashView.absorb]

theorem replay_void {e : SignEvent} {v : HashView} (hw : e.isWitness = false)
    (hm : v.miscounts e = false) :
    (hashing sdk).apply (.void, e) (.raw v) = .raw (v.run e) := by
  simp [Handler.apply, hashing, Hashing.run, hw, hm]

theorem replay_close {e : SignEvent} {v : HashView} (hw : e.isWitness = false) (hr : e ≠ .rawEnd) :
    (hashing sdk).apply (.close, e) (.raw v) = .raw (v.finish sdk e) := by
  simp [Handler.apply, hashing, Hashing.finish, hw, hr]

/-- The source of an input is hashed on its own, with the index of the output that is spent. -/
theorem replay_source (t : RawTransaction) (m : HashState) (index n : ℕ) :
    (hashing sdk).replay t.sourceNotes (.raw ⟨m, {}, index, n⟩) =
      .raw ⟨m.absorb ((sdk.blake2b [] t.encode).toList ++ le32 index), {}, 0, n⟩ := by
  have hcells : Unhashed (indexedNotes .sourceOutputsIndex (t.outputs.map CellOutput.sourceNotes)) :=
    unhashed_indexedNotes .sourceOutputsIndex (fun _ => trivial)
      (forall_mem_map unhashed_sourceCell _)
  have hdata : Unhashed (indexedNotes .sourceDataIndex (t.outputsData.map sourceDataNotes)) :=
    unhashed_indexedNotes .sourceDataIndex (fun _ => trivial)
      (forall_mem_map unhashed_sourceData _)
  rw [RawTransaction.sourceNotes, Handler.replay_append, (hcells.append hdata).replay]
  simp only [Handler.replay_cons, Handler.replay_nil]
  rw [replay_void rfl rfl, replay_close (e := .sourceEnd) rfl (by decide)]
  simp [HashView.run, HashView.finish, HashView.absorb, HashState.digest, HashState.absorb]

theorem le32_leNat (b : FixedBytes 4) : le32 (leNat b.toList) = b.toList := by
  have h := leBytes_leNat b.toList
  rwa [FixedBytes.length_toList] at h

/-- An input goes into the hash as the 44 bytes of the input that it stands for. -/
theorem replay_input (i : AnnotatedCellInput) (m : HashState) (n : ℕ) :
    (hashing sdk).replay (i.notes ++ ([(.void, .inputStart)] : List (Note SignEvent)))
      (.raw ⟨m, {}, 0, n⟩) = .raw ⟨m.absorb (i.unannotated sdk).encode, {}, 0, n⟩ := by
  rw [AnnotatedCellInput.notes]
  simp only [List.append_assoc, Handler.replay_append, Handler.replay_cons, Handler.replay_nil]
  rw [replay_void rfl rfl, replay_void rfl rfl]
  dsimp only [HashView.run, HashView.absorb]
  rw [replay_source, replay_void rfl rfl, HashState.absorb_absorb, le32_leNat]
  rfl

theorem replay_inputItems (is : List AnnotatedCellInput) (m : HashState) (bs : List UInt8)
    (n k : ℕ) :
    (hashing sdk).replay (itemNotes (fun _ => [(.void, .inputStart)]) k
      (is.map AnnotatedCellInput.notes)) (.raw ⟨m.absorb bs, {}, 0, n⟩) =
        .raw ⟨m.absorb (bs ++ (is.map fun i => (i.unannotated sdk).encode).flatten), {}, 0, n⟩ := by
  induction is generalizing bs k with
  | nil => simp [itemNotes]
  | cons i is ih =>
    rw [List.map_cons, itemNotes, Handler.replay_append, replay_input, HashState.absorb_absorb, ih,
      List.map_cons, List.flatten_cons, List.append_assoc]

/-- The inputs, if their number is the one that was announced. -/
theorem replay_inputs {is : List AnnotatedCellInput} (hne : is ≠ []) (m : HashState) (bs : List UInt8)
    (n : ℕ) (hn : is.length = n) :
    (hashing sdk).replay (inputsNotes is) (.raw ⟨m.absorb bs, {}, 0, n⟩) =
      .raw ⟨m.absorb (bs ++ encodeInputs (is.map (·.unannotated sdk))), {}, 0, n⟩ := by
  have hstart : (hashing sdk).apply (.void, .inputsStart) (.raw ⟨m.absorb bs, {}, 0, n⟩) =
      .raw ⟨m.absorb bs, {}, 0, n⟩ := replay_void rfl rfl
  have hfirst : (hashing sdk).apply (.void, .inputStart) (.raw ⟨m.absorb bs, {}, 0, n⟩) =
      .raw ⟨m.absorb bs, {}, 0, n⟩ := replay_void rfl rfl
  have hlength : (hashing sdk).apply (.void, .inputsLength is.length)
      (.raw ⟨m.absorb bs, {}, 0, n⟩) = .raw ⟨m.absorb (bs ++ le32 n), {}, 0, n⟩ := by
    rw [replay_void (e := .inputsLength is.length) rfl (decide_eq_false (not_not.mpr hn))]
    simp [HashView.run, HashView.absorb]
  rw [inputsNotes, Handler.replay_cons, hstart, if_neg hne]
  simp only [List.append_assoc, Handler.replay_append, Handler.replay_cons, Handler.replay_nil]
  rw [hfirst, hlength, replay_inputItems, replay_close (e := .inputsEnd) rfl (by decide)]
  simp [HashView.finish, encodeInputs, encodeItems, hn, Function.comp_def]

theorem replay_stopped (es : List (Note SignEvent)) :
    (hashing sdk).replay es .miscounted = .miscounted := by
  induction es with
  | nil => rfl
  | cons n es ih =>
    obtain ⟨s, e⟩ := n
    cases s <;> exact ih

/-- A number of inputs that was not announced stops the hash. -/
theorem replay_miscounted {is : List AnnotatedCellInput} (hne : is ≠ []) (m : HashState) (n : ℕ)
    (hn : is.length ≠ n) :
    (hashing sdk).replay (inputsNotes is) (.raw ⟨m, {}, 0, n⟩) = .miscounted := by
  have hlength : (hashing sdk).apply (.void, .inputsLength is.length) (.raw ⟨m, {}, 0, n⟩) =
      .miscounted := by
    have hm : HashView.miscounts ⟨m, {}, 0, n⟩ (.inputsLength is.length) = true := decide_eq_true hn
    simp [Handler.apply, hashing, Hashing.run, hm, SignEvent.isWitness]
  rw [inputsNotes, Handler.replay_cons, replay_void rfl rfl, if_neg hne]
  simp only [List.append_assoc, List.cons_append, Handler.replay_cons]
  rw [replay_void rfl rfl]
  dsimp only [HashView.run]
  rw [hlength, replay_stopped]

/-! ### The header -/

theorem length_input (i : CellInput) : i.encode.length = 44 := by
  simp [CellInput.encode, OutPoint.encode]

theorem length_inputs (is : List CellInput) : (encodeInputs is).length = 4 + 44 * is.length := by
  rw [encodeInputs, length_encodeItems, List.length_flatten, List.map_map]
  have hlen : (List.length ∘ CellInput.encode) = fun _ => 44 := by
    funext i
    exact length_input i
  rw [hlen, List.map_const', List.sum_replicate, smul_eq_mul, Nat.mul_comm]

/-- The sources make the inputs longer. -/
theorem length_annotatedInputs (is : List AnnotatedCellInput) :
    4 + 44 * is.length ≤ (encodeAnnotatedInputs is).length := by
  rw [encodeAnnotatedInputs, length_encodeParts, List.length_map, headerSize]
  have hsum : 44 * is.length ≤ (is.map AnnotatedCellInput.encode).flatten.length := by
    induction is with
    | nil => simp
    | cons i is ih =>
      have hi : 44 ≤ i.encode.length := by
        rw [AnnotatedCellInput.encode, length_encodeParts]
        simp only [List.flatten_cons, List.length_append, length_input]
        omega
      rw [List.map_cons, List.flatten_cons, List.length_append, List.length_cons]
      omega
  omega

/-- The fields of the transaction that an annotated transaction stands for. -/
def AnnotatedRawTransaction.unannotatedFields (sdk : Sdk) (t : AnnotatedRawTransaction) :
    List (List UInt8) :=
  [t.version.toList, encodeCellDeps t.cellDeps, encodeHashes t.headerDeps,
    encodeInputs (t.inputs.map (·.unannotated sdk)), encodeOutputs t.outputs,
    encodeBytesVec t.outputsData]

/-- The header shrinks by what the inputs shrink. -/
theorem header_shrunk {n o₁ o₂ o₃ d e f : ℕ} (hd : 4 + 44 * n ≤ d) (hlt : o₃ + d + e + f < 2 ^ 32) :
    HashView.header n (o₃ + d + e + f) [28, o₁, o₂, o₃, o₃ + d, o₃ + d + e] =
      le32 (o₃ + (4 + 44 * n) + e + f) ++
        [28, o₁, o₂, o₃, o₃ + (4 + 44 * n), o₃ + (4 + 44 * n) + e].flatMap le32 := by
  have hmod : (44 * n + 4) % 2 ^ 32 = 4 + 44 * n := by
    rw [Nat.mod_eq_of_lt (by omega), Nat.add_comm]
  have hsub : sub32 (sub32 (o₃ + d) o₃) ((44 * n + 4) % 2 ^ 32) = d - (4 + 44 * n) := by
    have hinputs : sub32 (o₃ + d) o₃ = d := by
      rw [sub32_of_le (by omega) (by omega), Nat.add_sub_cancel_left]
    rw [hmod, hinputs, sub32_of_le hd (by omega)]
  have hshrink : ∀ x, o₃ + d + x < 2 ^ 32 →
      sub32 (o₃ + d + x) (d - (4 + 44 * n)) = o₃ + (4 + 44 * n) + x := by
    intro x hx
    rw [sub32_of_le (by omega) hx]
    omega
  have htotal := hshrink (e + f) (by omega)
  have hend := hshrink 0 (by omega)
  have hlast := hshrink e (by omega)
  rw [← Nat.add_assoc, ← Nat.add_assoc] at htotal
  rw [Nat.add_zero, Nat.add_zero] at hend
  simp only [HashView.header, List.getD_cons_zero, List.getD_cons_succ, hsub, htotal, hend, hlast,
    List.flatMap_cons, List.flatMap_nil, List.append_nil, List.append_assoc]

/-- The rewritten header is that of the transaction without the sources. -/
theorem header_unannotated (t : AnnotatedRawTransaction) (hlt : t.encode.length < 2 ^ 32) :
    HashView.header t.inputs.length t.encode.length (offsetsFrom (headerSize 6) t.fields) ++
      (t.unannotatedFields sdk).flatten = (t.unannotated sdk).encode := by
  have hle := length_annotatedInputs t.inputs
  have hreduced : (encodeInputs (t.inputs.map (·.unannotated sdk))).length =
      4 + 44 * t.inputs.length := by
    rw [length_inputs, List.length_map]
  have htotal : t.encode.length = 32 + (encodeCellDeps t.cellDeps).length +
      (encodeHashes t.headerDeps).length + (encodeAnnotatedInputs t.inputs).length +
      (encodeOutputs t.outputs).length + (encodeBytesVec t.outputsData).length := by
    rw [AnnotatedRawTransaction.encode, length_encodeParts]
    simp [headerSize]
    omega
  have hfields : offsetsFrom (headerSize 6) t.fields = [28, 32,
      32 + (encodeCellDeps t.cellDeps).length,
      32 + (encodeCellDeps t.cellDeps).length + (encodeHashes t.headerDeps).length,
      32 + (encodeCellDeps t.cellDeps).length + (encodeHashes t.headerDeps).length +
        (encodeAnnotatedInputs t.inputs).length,
      32 + (encodeCellDeps t.cellDeps).length + (encodeHashes t.headerDeps).length +
        (encodeAnnotatedInputs t.inputs).length + (encodeOutputs t.outputs).length] := by
    simp [AnnotatedRawTransaction.fields, offsetsFrom, headerSize]
  rw [htotal] at hlt ⊢
  rw [hfields, header_shrunk hle hlt, ← hreduced]
  change _ = encodeParts (t.unannotatedFields sdk)
  rw [encodeParts]
  simp only [AnnotatedRawTransaction.unannotatedFields, offsetsFrom, headerSize, List.length_cons,
    List.length_nil, List.flatten_cons, List.flatten_nil, List.length_append, List.append_nil,
    FixedBytes.length_toList, List.append_assoc]
  refine congrArg₂ _ (congrArg le32 ?_) rfl
  omega

/-! ### The notes of a transaction -/

/-- Witnesses leave the hash as it is. -/
theorem replay_hashed {es : List (Note SignEvent)} (hes : ∀ n ∈ es, n.2.isWitness) (hash : Digest) :
    (hashing sdk).replay es (.hashed hash) = .hashed hash := by
  induction es with
  | nil => rfl
  | cons n es ih =>
    have hn := hes n List.mem_cons_self
    have happ : (hashing sdk).apply n (.hashed hash) = .hashed hash := by
      obtain ⟨s, e⟩ := n
      cases s with
      | void => rfl
      | size => rfl
      | close =>
        refine if_neg ?_
        rintro (rfl | rfl) <;> cases hn
    rw [Handler.replay_cons, happ]
    exact ih fun m hm => hes m (List.mem_cons_of_mem n hm)

theorem witnessesNotes_isWitness (ws : List (List UInt8)) :
    ∀ n ∈ witnessesNotes ws, n.2.isWitness := by
  intro n hn
  rcases List.mem_append.mp hn with hn | hn
  · rcases SignState.mem_indexedNotes hn with ⟨es, he, hmem⟩ | ⟨j, hj⟩
    · obtain ⟨w, -, rfl⟩ := List.mem_map.mp he
      have hitem : ∀ n ∈ witnessNotes w, n.2.isWitness := by
        unfold witnessNotes itemDataNotes
        split_ifs <;> simp [SignEvent.isWitness]
      exact hitem n hmem
    · rw [hj]
      trivial
  · rw [List.mem_singleton.mp hn]
    trivial

/-- What is hashed before the inputs. -/
def AnnotatedRawTransaction.hashedStart (t : AnnotatedRawTransaction) (n : ℕ) : List UInt8 :=
  HashView.header n t.encode.length (offsetsFrom (headerSize 6) t.fields) ++ t.version.toList ++
    encodeCellDeps t.cellDeps ++ encodeHashes t.headerDeps

/-- The notes before those of the inputs. -/
def AnnotatedTransaction.startNotes (t : AnnotatedTransaction) : List (Note SignEvent) :=
  pathNotes .signPathSize .signPathItem .signPathEnd t.signPath ++
    pathNotes .changePathSize .changePathItem .changePathEnd t.changePath ++
    [(.void, .inputCount t.inputCount),
      (.void, .offsets t.raw.encode.length (offsetsFrom (headerSize 6) t.raw.fields)),
      (.void, .version t.raw.version), (.void, .cellDepsChunk (encodeCellDeps t.raw.cellDeps)),
      (.void, .headerDepsChunk (encodeHashes t.raw.headerDeps))]

/-- The notes after those of the inputs, up to the witnesses. -/
def AnnotatedRawTransaction.endNotes (t : AnnotatedRawTransaction) : List (Note SignEvent) :=
  outputsNotes t.outputs ++ outputsDataNotes t.outputsData ++ [(.close, .rawEnd)]

theorem notes_start (t : AnnotatedTransaction) : t.notes =
    t.startNotes ++ (inputsNotes t.raw.inputs ++ (t.raw.endNotes ++ witnessesNotes t.witnesses)) := by
  simp [AnnotatedTransaction.notes, AnnotatedRawTransaction.notes, AnnotatedTransaction.startNotes,
    AnnotatedRawTransaction.endNotes]

theorem replay_start (t : AnnotatedTransaction) :
    (hashing sdk).replay t.startNotes (.raw {}) =
      .raw ⟨({} : HashState).absorb (t.raw.hashedStart (leNat t.inputCount.toList)), {}, 0,
        leNat t.inputCount.toList⟩ := by
  have hsign : Unhashed (pathNotes .signPathSize .signPathItem .signPathEnd t.signPath) :=
    unhashed_path .signPathSize .signPathItem .signPathEnd (fun _ => trivial) (fun _ => trivial)
      trivial _
  have hchange : Unhashed (pathNotes .changePathSize .changePathItem .changePathEnd t.changePath) :=
    unhashed_path .changePathSize .changePathItem .changePathEnd (fun _ => trivial)
      (fun _ => trivial) trivial _
  simp only [AnnotatedTransaction.startNotes, Handler.replay_append, Handler.replay_cons,
    Handler.replay_nil, (hsign.append hchange).replay]
  rw [replay_void rfl rfl, replay_void rfl rfl, replay_void rfl rfl, replay_void rfl rfl,
    replay_void rfl rfl]
  simp [HashView.run, HashView.absorb, AnnotatedRawTransaction.hashedStart]

/-- The outputs and their data are hashed as they are. -/
theorem replay_end (t : AnnotatedRawTransaction) (v : HashView) :
    (hashing sdk).replay t.endNotes (.raw v) = .hashed
      ((v.main.absorb (encodeOutputs t.outputs ++ encodeBytesVec t.outputsData)).digest sdk) := by
  have houtputs : Unhashed (indexedNotes .outputsIndex (t.outputs.map CellOutput.notes)) :=
    unhashed_indexedNotes .outputsIndex (fun _ => trivial)
      (forall_mem_map unhashed_output _)
  have hdata : Unhashed (indexedNotes .dataIndex (t.outputsData.map outputDataNotes)) :=
    unhashed_indexedNotes .dataIndex (fun _ => trivial)
      (forall_mem_map unhashed_outputData _)
  simp only [AnnotatedRawTransaction.endNotes, outputsNotes, outputsDataNotes, List.append_assoc,
    Handler.replay_append, houtputs.replay, hdata.replay, Handler.replay_cons, Handler.replay_nil]
  rw [replay_void rfl rfl, replay_close (e := .outputsEnd) rfl (by decide), replay_void rfl rfl]
  dsimp only [HashView.run, HashView.finish, HashView.absorb]
  rw [HashState.absorb_absorb]
  rfl

/-- What is hashed is the encoding of the transaction. -/
theorem replay_notes {t : AnnotatedTransaction} (hfit : t.Fits) (hne : t.raw.inputs ≠ [])
    (hn : t.raw.inputs.length = leNat t.inputCount.toList) :
    (hashing sdk).replay t.notes (.raw {}) =
      .hashed (sdk.blake2b [] (t.raw.unannotated sdk).encode) := by
  have hraw : t.raw.encode.length + 4 < 2 ^ 32 := length_lt_of_mem hfit (by simp)
  have hpreimage : t.raw.hashedStart (leNat t.inputCount.toList) ++
      encodeInputs (t.raw.inputs.map (·.unannotated sdk)) ++ (encodeOutputs t.raw.outputs ++
        encodeBytesVec t.raw.outputsData) = (t.raw.unannotated sdk).encode := by
    rw [← header_unannotated t.raw (by omega), ← hn]
    simp [AnnotatedRawTransaction.hashedStart, AnnotatedRawTransaction.unannotatedFields]
  rw [notes_start, Handler.replay_append, replay_start, Handler.replay_append,
    replay_inputs hne _ _ _ hn, Handler.replay_append, replay_end,
    replay_hashed (witnessesNotes_isWitness _), HashState.absorb_absorb, hpreimage]
  rfl

theorem replay_notes_miscounted {t : AnnotatedTransaction} (hne : t.raw.inputs ≠ [])
    (hn : t.raw.inputs.length ≠ leNat t.inputCount.toList) :
    (hashing sdk).replay t.notes (.raw {}) = .miscounted := by
  rw [notes_start, Handler.replay_append, replay_start, Handler.replay_append,
    replay_miscounted hne _ _ hn, replay_stopped]

end Replayed

namespace SignState
variable {sdk : Sdk}

/-- The transaction hash is that of the transaction, however the bytes are cut. -/
theorem transactionHash_exact {sent : List Sent} (ha : Accepts sdk sent) {t : AnnotatedTransaction}
    (hfit : t.Fits) (hp : payload sent = t.encode) (hne : t.raw.inputs ≠ []) :
    t.raw.inputs.length = leNat t.inputCount.toList ∧
      (accepted sdk sent).tx.transactionHash = sdk.blake2b [] (t.raw.unannotated sdk).encode := by
  obtain ⟨es, rest, hscan, hR⟩ := (hashing_mirrors sdk).completes
    (hashing_gathers sdk).collecting.fluid ha.completes
  have hreads := annotatedTransaction_reads hfit []
  rw [List.append_nil, ← hp, hscan, Option.some.injEq, Prod.mk.injEq] at hreads
  obtain ⟨rfl, -⟩ := hreads
  have hsafe : ¬ (feedAll sdk sent).1.Refused := by
    rintro (hu | hh)
    · exact absurd (ha.isUnsafe.symm.trans hu) Bool.false_ne_true
    · exact absurd (ha.hardReject.symm.trans hh) Bool.false_ne_true
  have hagrees := hR.resolve_left hsafe
  by_cases hn : t.raw.inputs.length = leNat t.inputCount.toList
  · rw [replay_notes hfit hne hn] at hagrees
    exact ⟨hn, hagrees⟩
  · rw [replay_notes_miscounted hne hn] at hagrees
    exact hagrees.elim

/-- A payment of 100 CKB. -/
theorem payment_hashed :
    (accepted (keySdk []) (paymentPackets 10000000001 10000000000)).tx.transactionHash =
      (keySdk []).blake2b []
        ((paymentTransaction 10000000001 10000000000).raw.unannotated (keySdk [])).encode := by
  obtain ⟨ha, -⟩ := @accepts_of_run (keySdk []) (paymentPackets 10000000001 10000000000)
    (fun _ => true) (by decide +kernel) (by decide +kernel)
  exact (transactionHash_exact ha (t := paymentTransaction 10000000001 10000000000)
    (by decide +kernel) (by decide +kernel) (by simp [paymentTransaction, sampleTransaction])).2

end SignState
end NervosLedger
