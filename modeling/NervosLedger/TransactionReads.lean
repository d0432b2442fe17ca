import NervosLedger.Transaction

/-!
# The parser reads a transaction

The callback tables read the encoding of a transaction with the callbacks that are listed for it.
-/
namespace NervosLedger
open Molecule
open Reader (Reads)

section Size
variable {parts : List (List UInt8)} {p : List UInt8}

/-- What is part of an encoding that fits, fits. -/
theorem length_lt_of_mem (h : (encodeParts parts).length < 2 ^ 32) (hp : p ∈ parts) :
    p.length + 4 < 2 ^ 32 := by
  have hle : p.length ≤ parts.flatten.length := (List.sublist_flatten_of_mem hp).length_le
  have hpos : 0 < parts.length := List.length_pos_of_mem hp
  rw [length_encodeParts, headerSize] at h
  omega

end Size

theorem script_reads {cb : Callbacks SignEvent} (ho : cb.offsets = none)
    {codeHash : Option (FixedBytes 32 → SignEvent)}
    {hashType : Option (UInt8 → SignEvent)} {args : Callbacks SignEvent} {s : Script} {size : ℕ}
    (hlt : s.encode.length < 2 ^ 32) (hsize : size = molNumMax ∨ size = s.encode.length) :
    (Reader.script cb codeHash hashType args).Reads size s.encode
      (note .void (codeHash.map fun f => f s.codeHash) ++
        note .void (hashType.map fun f => f s.hashType) ++ note .void args.start ++
        note .size (args.size.map fun f => f (s.args.length + 4)) ++
        Reader.bodyNotes args.bodyChunk s.args ++ note .close args.finish ++
        cb.leaving s.encode) := by
  have hargs := length_lt_of_mem hlt (p := encodeBytes s.args) (by simp)
  rw [length_encodeBytes] at hargs
  refine (Reads.table cb ![s.codeHash.toList, [s.hashType], encodeBytes s.args]
    ![note .void (codeHash.map fun f => f s.codeHash),
      note .void (hashType.map fun f => f s.hashType),
      note .size (args.size.map fun f => f (s.args.length + 4)) ++
        Reader.bodyNotes args.bodyChunk s.args ++ note .close args.finish] (fun i => ?_) hlt
    hsize).congr ?_
  · match i with
    | 0 => exact Reads.array codeHash s.codeHash _
    | 1 => exact Reads.byte hashType s.hashType
    | 2 => exact Reads.bytes args (by omega) (.inr (by simp [Nat.add_comm]))
  · simp [Reader.tableNotes, Reader.starts, Reader.byte32, List.ofFn_succ, Script.encode, ho]

theorem scriptOpt_reads (cell : CellEvent → SignEvent) {s : Option Script}
    (hlt : (encodeScriptOpt s).length < 2 ^ 32) :
    (typeScriptCallbacks cell).Reads (encodeScriptOpt s).length (encodeScriptOpt s)
      (typeNotes cell s) := by
  cases s with
  | none => exact Reads.absent _ _
  | some s =>
    have hne : s.encode.length ≠ 0 := by
      rw [Script.encode, length_encodeParts, headerSize]
      omega
    refine (Reads.present {} (script_reads rfl hlt (.inr rfl)) hne).congr ?_
    simp [typeNotes, Reader.bodyNotes, Callbacks.leaving]

theorem sourceCell_reads {c : CellOutput} (hlt : c.encode.length < 2 ^ 32) :
    sourceCellCallbacks.Reads molNumMax c.encode c.sourceNotes := by
  have hlock := length_lt_of_mem hlt (p := c.lock.encode) (by simp)
  have htype := length_lt_of_mem hlt (p := encodeScriptOpt c.type) (by simp)
  refine (Reads.table {} ![c.capacity.toList, c.lock.encode, encodeScriptOpt c.type]
    ![[(.void, .sourceCell (.capacity c.capacity))],
      [(.void, .sourceCell (.lockCodeHash c.lock.codeHash)),
        (.void, .sourceCell (.lockHashType c.lock.hashType)), (.void, .sourceCell .lockArgsStart)] ++
        argsNotes .sourceCell c.lock.args ++ [(.close, .sourceCell .lockEnd)],
      typeNotes .sourceCell c.type] (fun i => ?_) hlt (.inl rfl)).congr ?_
  · match i with
    | 0 => exact Reads.array _ c.capacity _
    | 1 =>
      refine (script_reads rfl (by omega) (.inr rfl)).congr ?_
      simp [argsNotes, Reader.bodyNotes, Callbacks.leaving]
    | 2 => exact scriptOpt_reads .sourceCell (by omega)
  · simp [Reader.tableNotes, Reader.starts, Reader.uint64, Reader.script, typeScriptCallbacks,
      Reader.scriptOpt, List.ofFn_succ, Callbacks.leaving, CellOutput.sourceNotes]

theorem output_reads {c : CellOutput} (hlt : c.encode.length < 2 ^ 32) :
    outputCallbacks.Reads molNumMax c.encode c.notes := by
  have hlock := length_lt_of_mem hlt (p := c.lock.encode) (by simp)
  have htype := length_lt_of_mem hlt (p := encodeScriptOpt c.type) (by simp)
  refine (Reads.table { finish := some .outputEnd }
    ![c.capacity.toList, c.lock.encode, encodeScriptOpt c.type]
    ![[(.void, .outputCell (.capacity c.capacity))],
      [(.void, .outputCell (.lockCodeHash c.lock.codeHash)),
        (.void, .outputCell (.lockHashType c.lock.hashType))] ++
        argsNotes .outputCell c.lock.args,
      typeNotes .outputCell c.type] (fun i => ?_) hlt (.inl rfl)).congr ?_
  · match i with
    | 0 => exact Reads.array _ c.capacity _
    | 1 =>
      refine (script_reads rfl (by omega) (.inr rfl)).congr ?_
      simp [argsNotes, Reader.bodyNotes, Callbacks.leaving]
    | 2 => exact scriptOpt_reads .outputCell (by omega)
  · simp [Reader.tableNotes, Reader.starts, Reader.uint64, Reader.script, typeScriptCallbacks,
      Reader.scriptOpt, List.ofFn_succ, Callbacks.leaving, CellOutput.notes]

/-- The notes of a vector that tells the number of each item beforehand. -/
theorem vectorNotes_index {cb : Callbacks SignEvent} {item : Reader SignEvent}
    (hitem : item.starts = []) (hlength : cb.length = none) {index : ℕ → SignEvent}
    (hindex : cb.index = some index) (ess : List (List (Note SignEvent))) :
    Reader.vectorNotes cb item ess = indexedNotes index ess := by
  have hnext : Reader.nextItem cb item = fun k => [(.void, index k)] := by
    funext k
    simp [Reader.nextItem, hitem, hindex]
  simp [Reader.vectorNotes, indexedNotes, Reader.firstItem, hitem, hlength, hindex, hnext]

section Vectors
variable {size : ℕ}

theorem cellOutputVec_reads {cb : Callbacks SignEvent} {item : Reader SignEvent}
    {notes : CellOutput → List (Note SignEvent)}
    (hitem : ∀ {c : CellOutput}, c.encode.length < 2 ^ 32 → item.Reads molNumMax c.encode (notes c))
    {cs : List CellOutput} (hlt : (encodeOutputs cs).length < 2 ^ 32)
    (hsize : size = molNumMax ∨ size = (encodeOutputs cs).length) :
    (Reader.cellOutputVec cb item).Reads size (encodeOutputs cs)
      (note .size (cb.size.map fun f => f (encodeOutputs cs).length) ++
        Reader.vectorNotes cb item (cs.map notes) ++ cb.leaving (encodeOutputs cs)) := by
  refine Reads.dynVec cb (fun c hc => hitem ?_) hlt hsize
  have := length_lt_of_mem hlt (List.mem_map_of_mem hc)
  omega

/-- The callback table of the byte strings of a `BytesVec`. -/
def itemCallbacks (sizeOf : ℕ → SignEvent) (body : List UInt8 → List UInt8 → SignEvent)
    (finish : SignEvent) : Callbacks SignEvent :=
  { size := some sizeOf, bodyChunk := some body, finish := some finish }

theorem bytesVec_reads {cb : Callbacks SignEvent} {sizeOf : ℕ → SignEvent}
    {body : List UInt8 → List UInt8 → SignEvent} {finish : SignEvent} {ds : List (List UInt8)}
    (hlt : (encodeBytesVec ds).length < 2 ^ 32)
    (hsize : size = molNumMax ∨ size = (encodeBytesVec ds).length) :
    (Reader.bytesVec cb (itemCallbacks sizeOf body finish)).Reads size (encodeBytesVec ds)
      (note .size (cb.size.map fun f => f (encodeBytesVec ds).length) ++
        Reader.vectorNotes cb (.bytes (itemCallbacks sizeOf body finish))
          (ds.map (itemDataNotes sizeOf body finish)) ++ cb.leaving (encodeBytesVec ds)) := by
  refine Reads.dynVec cb (fun d hd => ?_) hlt hsize
  have hlen := length_lt_of_mem hlt (List.mem_map_of_mem hd)
  rw [length_encodeBytes] at hlen
  exact Reads.bytes _ (by omega) (.inl rfl)

theorem path_reads {sizeOf : ℕ → SignEvent} {item : FixedBytes 4 → SignEvent} {finish : SignEvent}
    {cs : List (FixedBytes 4)} (hlt : (encodePath cs).length < 2 ^ 32)
    (hsize : size = molNumMax ∨ size = (encodePath cs).length) :
    (Reader.bip32 { size := some sizeOf, finish := some finish } (some item)).Reads size
      (encodePath cs) (pathNotes sizeOf item finish cs) := by
  refine (Reads.fixVec _ (by decide) (fun c _ => Reads.array _ c 4) (fun c _ => c.length_eq) hlt
    hsize).congr ?_
  have hnext : Reader.nextItem ({ size := some sizeOf, finish := some finish } : Callbacks SignEvent)
      (Reader.uint32 (some item)) = fun _ => [] := rfl
  have hitems : (cs.map fun c => [((.void, item c) : Note SignEvent)]).flatten =
      cs.map fun c => (.void, item c) := by
    rw [← List.flatMap_def, ← List.map_eq_flatMap]
  rw [show Reader.array 4 (some item) = Reader.uint32 (some item) from rfl, hnext, itemNotes_nil]
  simp [pathNotes, Callbacks.leaving, hitems]

/-- The notes of a fixed vector whose items have none. -/
theorem silent_reads {α : Type} (cb : Callbacks SignEvent) (hindex : cb.index = none)
    {item : Reader SignEvent} (hitem : item.starts = []) {width : ℕ} (hpos : 0 < width)
    {xs : List α} {encode : α → List UInt8} (h : ∀ x ∈ xs, item.Reads width (encode x) [])
    (hwidth : ∀ x ∈ xs, (encode x).length = width)
    (hlt : (encodeItems (xs.map encode)).length < 2 ^ 32)
    (hsize : size = molNumMax ∨ size = (encodeItems (xs.map encode)).length) :
    (Reader.fixVec cb width item).Reads size (encodeItems (xs.map encode))
      (note .size (cb.size.map fun f => f (xs.length * width + 4)) ++
        cb.leaving (encodeItems (xs.map encode))) := by
  refine (Reads.fixVec cb hpos h hwidth hlt hsize).congr ?_
  have hnext : Reader.nextItem cb item = fun _ => [] := by
    funext k
    simp [Reader.nextItem, hindex, hitem]
  have hflat : (xs.map fun _ => ([] : List (Note SignEvent))).flatten = [] := by simp
  rw [hnext, itemNotes_nil, hflat, List.append_nil, List.append_nil]

theorem outPoint_reads (p : OutPoint) {index : Option (FixedBytes 4 → SignEvent)} :
    (Reader.outPoint {} none index).Reads 36 p.encode
      (note .void (index.map fun f => f p.index)) := by
  refine (Reads.struct {} (Reads.array none p.txHash 32) (Reads.array index p.index 4)
    (.inl rfl)).congr ?_
  simp [Reader.starts, Callbacks.leaving]

theorem cellInput_reads (i : CellInput) {since : Option (FixedBytes 8 → SignEvent)}
    {index : Option (FixedBytes 4 → SignEvent)} :
    (Reader.cellInput {} since (.outPoint {} none index)).Reads 44 i.encode
      (note .void (since.map fun f => f i.since) ++
        note .void (index.map fun f => f i.previousOutput.index)) := by
  refine (Reads.struct {} (Reads.array since i.since 8) (outPoint_reads i.previousOutput)
    (.inl rfl)).congr ?_
  simp [Reader.starts, Reader.outPoint, Reader.byte32, Callbacks.leaving]

@[simp] theorem length_outPoint (p : OutPoint) : p.encode.length = 36 := by simp [OutPoint.encode]

@[simp] theorem length_cellInput (i : CellInput) : i.encode.length = 44 := by
  simp [CellInput.encode]

@[simp] theorem length_cellDep (d : CellDep) : d.encode.length = 37 := by simp [CellDep.encode]

theorem cellDeps_reads {cb : Callbacks SignEvent} (hindex : cb.index = none)
    {ds : List CellDep} (hlt : (encodeCellDeps ds).length < 2 ^ 32)
    (hsize : size = molNumMax ∨ size = (encodeCellDeps ds).length) :
    (Reader.cellDepVec cb).Reads size (encodeCellDeps ds)
      (note .size (cb.size.map fun f => f (ds.length * 37 + 4)) ++
        cb.leaving (encodeCellDeps ds)) := by
  refine silent_reads cb hindex rfl (by decide) (fun d _ => ?_) (fun d _ => length_cellDep d) hlt hsize
  exact (Reads.struct {} (outPoint_reads d.outPoint) (Reads.byte none d.depType) (.inl rfl)).congr
    (by simp [Reader.starts, Callbacks.leaving])

theorem hashes_reads {cb : Callbacks SignEvent} (hindex : cb.index = none)
    {hs : List (FixedBytes 32)} (hlt : (encodeHashes hs).length < 2 ^ 32)
    (hsize : size = molNumMax ∨ size = (encodeHashes hs).length) :
    (Reader.byte32Vec cb).Reads size (encodeHashes hs)
      (note .size (cb.size.map fun f => f (hs.length * 32 + 4)) ++
        cb.leaving (encodeHashes hs)) :=
  silent_reads cb hindex rfl (by decide) (fun b _ => Reads.array none b 32)
    (fun b _ => b.length_eq) hlt hsize

theorem inputs_reads {is : List CellInput} (hlt : (encodeInputs is).length < 2 ^ 32)
    (hsize : size = molNumMax ∨ size = (encodeInputs is).length) :
    (Reader.cellInputVec {}).Reads size (encodeInputs is) ([] : List (Note SignEvent)) :=
  (silent_reads {} rfl rfl (by decide) (fun i _ => cellInput_reads i)
    (fun i _ => length_cellInput i) hlt hsize).congr (by simp [Callbacks.leaving])

end Vectors

/-- The source of an input. -/
theorem source_reads {t : RawTransaction} (hlt : t.encode.length < 2 ^ 32) :
    sourceCallbacks.Reads t.encode.length t.encode t.sourceNotes := by
  have hcell := length_lt_of_mem hlt (p := encodeCellDeps t.cellDeps) (by simp)
  have hhash := length_lt_of_mem hlt (p := encodeHashes t.headerDeps) (by simp)
  have hinputs := length_lt_of_mem hlt (p := encodeInputs t.inputs) (by simp)
  have houtputs := length_lt_of_mem hlt (p := encodeOutputs t.outputs) (by simp)
  have hdata := length_lt_of_mem hlt (p := encodeBytesVec t.outputsData) (by simp)
  refine (Reads.table _ ![t.version.toList, encodeCellDeps t.cellDeps,
      encodeHashes t.headerDeps, encodeInputs t.inputs, encodeOutputs t.outputs,
      encodeBytesVec t.outputsData]
    ![[], [], [], [], indexedNotes .sourceOutputsIndex
      (t.outputs.map CellOutput.sourceNotes), indexedNotes .sourceDataIndex
      (t.outputsData.map sourceDataNotes)] (fun i => ?_) hlt (.inr rfl)).congr ?_
  · match i with
    | 0 => exact Reads.array none t.version _
    | 1 => exact (cellDeps_reads rfl (by omega) (.inr rfl)).congr (by simp [Callbacks.leaving])
    | 2 => exact (hashes_reads rfl (by omega) (.inr rfl)).congr (by simp [Callbacks.leaving])
    | 3 => exact inputs_reads (by omega) (.inr rfl)
    | 4 =>
      refine (cellOutputVec_reads sourceCell_reads (by omega) (.inr rfl)).congr ?_
      rw [vectorNotes_index rfl rfl rfl]
      simp [Callbacks.leaving]
    | 5 =>
      refine (bytesVec_reads (by omega) (.inr rfl)).congr ?_
      rw [vectorNotes_index rfl rfl (rfl : _ = some SignEvent.sourceDataIndex)]
      simp [Callbacks.leaving, sourceDataNotes]
  · simp [Reader.tableNotes, Reader.starts, Reader.uint32, Reader.cellDepVec, Reader.byte32Vec,
      Reader.cellInputVec, Reader.cellOutputVec, Reader.bytesVec, List.ofFn_succ,
      Callbacks.leaving, RawTransaction.sourceNotes, RawTransaction.encode]

theorem input_reads {i : AnnotatedCellInput} (hlt : i.encode.length < 2 ^ 32) :
    annotatedCellInputCallbacks.Reads molNumMax i.encode i.notes := by
  have hsource := length_lt_of_mem hlt (p := i.source.encode) (by simp)
  refine (Reads.table _ ![i.input.encode, i.source.encode]
    ![[(.void, .inputSince i.input.since),
      (.void, .inputIndex i.input.previousOutput.index)], i.source.sourceNotes] (fun k => ?_) hlt
    (.inl rfl)).congr ?_
  · match k with
    | 0 =>
      change Reads _ i.input.encode.length _ _
      rw [length_cellInput]
      exact cellInput_reads i.input
    | 1 => exact source_reads (by omega)
  · simp [Reader.tableNotes, Reader.starts, Reader.cellInput, Reader.uint64, sourceCallbacks,
      Reader.rawTransaction, List.ofFn_succ, Callbacks.leaving, AnnotatedCellInput.notes]

theorem annotatedInputs_reads {is : List AnnotatedCellInput}
    (hlt : (encodeAnnotatedInputs is).length < 2 ^ 32) :
    inputsCallbacks.Reads (encodeAnnotatedInputs is).length (encodeAnnotatedInputs is)
      ((if is = [] then [] else [(.void, .inputStart), (.void, .inputsLength is.length)] ++
        itemNotes (fun _ => [(.void, .inputStart)]) 0 (is.map AnnotatedCellInput.notes)) ++
        [(.close, .inputsEnd)]) := by
  refine (Reads.dynVec _ (fun i hi => input_reads ?_) hlt (.inr rfl)).congr ?_
  · have hlen := length_lt_of_mem hlt (List.mem_map_of_mem hi)
    omega
  · rw [Reader.vectorNotes, show Reader.nextItem _ annotatedCellInputCallbacks =
      fun _ => [(.void, .inputStart)] from rfl]
    simp [Reader.firstItem, annotatedCellInputCallbacks, Reader.annotatedCellInput, Reader.starts,
      Callbacks.leaving]

theorem raw_reads {t : AnnotatedRawTransaction} (hlt : t.encode.length < 2 ^ 32) :
    annotatedRawTransactionCallbacks.Reads t.encode.length t.encode t.notes := by
  have hcell := length_lt_of_mem hlt (p := encodeCellDeps t.cellDeps) (by simp)
  have hhash := length_lt_of_mem hlt (p := encodeHashes t.headerDeps) (by simp)
  have hinputs := length_lt_of_mem hlt (p := encodeAnnotatedInputs t.inputs) (by simp)
  have houtputs := length_lt_of_mem hlt (p := encodeOutputs t.outputs) (by simp)
  have hdata := length_lt_of_mem hlt (p := encodeBytesVec t.outputsData) (by simp)
  refine (Reads.table _ ![t.version.toList, encodeCellDeps t.cellDeps,
      encodeHashes t.headerDeps, encodeAnnotatedInputs t.inputs, encodeOutputs t.outputs,
      encodeBytesVec t.outputsData]
    ![[(.void, .version t.version)],
      [(.void, .cellDepsChunk (encodeCellDeps t.cellDeps))],
      [(.void, .headerDepsChunk (encodeHashes t.headerDeps))],
      (if t.inputs = [] then [] else [(.void, .inputStart), (.void, .inputsLength t.inputs.length)] ++
        itemNotes (fun _ => [(.void, .inputStart)]) 0 (t.inputs.map AnnotatedCellInput.notes)) ++
        [(.close, .inputsEnd)], outputsNotes t.outputs, outputsDataNotes t.outputsData]
    (fun i => ?_) hlt (.inr rfl)).congr ?_
  · match i with
    | 0 => exact Reads.array _ t.version _
    | 1 => exact (cellDeps_reads rfl (by omega) (.inr rfl)).congr (by simp [Callbacks.leaving])
    | 2 => exact (hashes_reads rfl (by omega) (.inr rfl)).congr (by simp [Callbacks.leaving])
    | 3 => exact annotatedInputs_reads (by omega)
    | 4 =>
      refine (cellOutputVec_reads output_reads (by omega) (.inr rfl)).congr ?_
      rw [vectorNotes_index rfl rfl rfl]
      simp [Callbacks.leaving, outputsNotes]
    | 5 =>
      refine (bytesVec_reads (by omega) (.inr rfl)).congr ?_
      rw [vectorNotes_index rfl rfl (rfl : _ = some SignEvent.dataIndex)]
      simp [Callbacks.leaving, outputsDataNotes, outputDataNotes]
  · simp [Reader.tableNotes, Reader.starts, Reader.uint32, Reader.cellDepVec, Reader.byte32Vec,
      inputsCallbacks, Reader.annotatedCellInputVec, outputsCallbacks, Reader.cellOutputVec,
      outputsDataCallbacks, Reader.bytesVec, List.ofFn_succ, Callbacks.leaving,
      AnnotatedRawTransaction.notes, AnnotatedRawTransaction.encode, AnnotatedRawTransaction.fields,
      inputsNotes]

/-- The parser reads the encoding of a transaction with its callbacks. -/
theorem annotatedTransaction_reads {t : AnnotatedTransaction} (hlt : t.Fits) :
    annotatedTransactionCallbacks.Reads molNumMax t.encode t.notes := by
  have hsign := length_lt_of_mem hlt (p := encodePath t.signPath) (by simp)
  have hchange := length_lt_of_mem hlt (p := encodePath t.changePath) (by simp)
  have hraw := length_lt_of_mem hlt (p := t.raw.encode) (by simp)
  have hwitness := length_lt_of_mem hlt (p := encodeBytesVec t.witnesses) (by simp)
  refine (Reads.table _ ![encodePath t.signPath, encodePath t.changePath,
      t.inputCount.toList, t.raw.encode, encodeBytesVec t.witnesses]
    ![pathNotes .signPathSize .signPathItem .signPathEnd t.signPath,
      pathNotes .changePathSize .changePathItem .changePathEnd t.changePath,
      [(.void, .inputCount t.inputCount)], t.raw.notes, witnessesNotes t.witnesses]
    (fun i => ?_) hlt (.inl rfl)).congr ?_
  · match i with
    | 0 => exact path_reads (by omega) (.inr rfl)
    | 1 => exact path_reads (by omega) (.inr rfl)
    | 2 => exact Reads.array _ t.inputCount _
    | 3 => exact raw_reads (by omega)
    | 4 =>
      refine (bytesVec_reads (by omega) (.inr rfl)).congr ?_
      rw [vectorNotes_index rfl rfl (rfl : _ = some SignEvent.witnessesIndex)]
      simp [Callbacks.leaving, witnessesNotes, witnessNotes]
  · simp [Reader.tableNotes, Reader.starts, Reader.bip32, Reader.uint32,
      annotatedRawTransactionCallbacks, Reader.annotatedRawTransaction, witnessesCallbacks,
      Reader.bytesVec, List.ofFn_succ, Callbacks.leaving, AnnotatedTransaction.notes]

end NervosLedger
