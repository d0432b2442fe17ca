import NervosLedger.Transcript
import NervosLedger.TransactionReads
import NervosLedger.Molecule.Pieces

/-!
# The calls of a transaction

Most callbacks of a transaction touch more than a hash. Of those that do, an exchange makes the
calls that are listed for its transaction, with the lock arguments and cell data in pieces.
-/
namespace NervosLedger
open Molecule

/-- The byte strings whose bodies are looked at, besides the witnesses. -/
inductive BodyKind where
  | sourceArgs | outputArgs | sourceData | outputData
  deriving DecidableEq, Repr

/-- The call for a piece of a body. -/
def BodyKind.event : BodyKind → List UInt8 → SignEvent
  | .sourceArgs, bs => .sourceCell (.lockArgs bs [])
  | .outputArgs, bs => .outputCell (.lockArgs bs [])
  | .sourceData, bs => .sourceDataChunk bs []
  | .outputData, bs => .dataChunk bs []

/-- The bodies of lock arguments and cell data. -/
def signBodies : Bodies (Note SignEvent) BodyKind where
  body
    | (.void, .sourceCell (.lockArgs bs [])) => some (.sourceArgs, bs)
    | (.void, .outputCell (.lockArgs bs [])) => some (.outputArgs, bs)
    | (.void, .sourceDataChunk bs []) => some (.sourceData, bs)
    | (.void, .dataChunk bs []) => some (.outputData, bs)
    | _ => none
  piece k bs := (.void, k.event bs)
  body_piece k bs := by cases k <;> rfl
  piece_body {n k bs} h := by
    split at h
    · cases h
      rfl
    · cases h
      rfl
    · cases h
      rfl
    · cases h
      rfl
    · cases h

/-- A piece that has bytes. -/
def pieceNote (k : BodyKind) (bs : List UInt8) : List (Note SignEvent) :=
  if bs = [] then [] else [signBodies.piece k bs]

/-- What is left of a call without what only the hashes and the witnesses need. -/
def plain : Slot → SignEvent → List (Note SignEvent)
  | .void, .sourceCell (.lockArgs bs _) => pieceNote .sourceArgs bs
  | .void, .outputCell (.lockArgs bs _) => pieceNote .outputArgs bs
  | .void, .sourceDataChunk bs _ => pieceNote .sourceData bs
  | .void, .dataChunk bs _ => pieceNote .outputData bs
  | _, .offsets _ _ | _, .version _ | _, .cellDepsChunk _ | _, .headerDepsChunk _
  | _, .inputSince _ | _, .sourceChunk _ | _, .outputsChunk _ | _, .dataVecChunk _
  | _, .witnessesIndex _ | _, .witnessSize _ | _, .witnessChunk _ _ | _, .witnessEnd
  | _, .witnessesEnd => []
  | s, e => [(s, e)]

/-- A call, byte by byte. -/
def plainBytes (s : Slot) (e : SignEvent) : List (Note SignEvent) :=
  (plain s e).flatMap signBodies.bytewise

theorem pieceNote_bytewise (k : BodyKind) (bs : List UInt8) :
    (pieceNote k bs).flatMap signBodies.bytewise = bs.map fun x => signBodies.piece k [x] := by
  unfold pieceNote
  split
  · rename_i h
    rw [h]
    rfl
  · rw [List.flatMap_singleton, Bodies.bytewise_piece]

/-- What a handler must do for the parser of a transaction to be silent under it. -/
structure Deaf {σ ε : Type} (h : Handler SignEvent σ ε) : Prop where
  cellDeps : ∀ bs g, h.run (.cellDepsChunk bs) g = g
  headerDeps : ∀ bs g, h.run (.headerDepsChunk bs) g = g
  source : ∀ bs g, h.run (.sourceChunk bs) g = g
  outputs : ∀ bs g, h.run (.outputsChunk bs) g = g
  dataVec : ∀ bs g, h.run (.dataVecChunk bs) g = g
  sourceArgs : BodyCollects h fun b f => .sourceCell (.lockArgs b f)
  outputArgs : BodyCollects h fun b f => .outputCell (.lockArgs b f)
  sourceData : BodyCollects h .sourceDataChunk
  outputData : BodyCollects h .dataChunk
  witness : BodyCollects h .witnessChunk

theorem Deaf.silent {σ ε : Type} {h : Handler SignEvent σ ε} (hd : Deaf h) :
    annotatedTransactionCallbacks.Silent h := by
  simp [annotatedTransactionCallbacks, annotatedRawTransactionCallbacks, inputsCallbacks,
    annotatedCellInputCallbacks, sourceCallbacks, sourceCellCallbacks, outputsCallbacks,
    outputCallbacks, outputsDataCallbacks, witnessesCallbacks, typeScriptCallbacks,
    Reader.annotatedTransaction, Reader.annotatedRawTransaction, Reader.annotatedCellInputVec,
    Reader.annotatedCellInput, Reader.rawTransaction, Reader.cellOutputVec, Reader.cellOutput,
    Reader.bytesVec, Reader.bip32, Reader.cellInputVec, Reader.cellInput, Reader.cellDepVec,
    Reader.cellDep, Reader.byte32Vec, Reader.outPoint, Reader.script, Reader.scriptOpt,
    Reader.uint32, Reader.uint64, Reader.byte32, Reader.Silent, Fin.forall_fin_succ, hd.cellDeps,
    hd.headerDeps, hd.source, hd.outputs, hd.dataVec, hd.sourceArgs, hd.outputArgs, hd.sourceData,
    hd.outputData, hd.witness]

theorem tally_deaf : Deaf (Handler.tally Exc plainBytes) := by
  have hchunk : ∀ {e : SignEvent} (l : List (Note SignEvent)), plain .void e = [] →
      (Handler.tally Exc plainBytes).run e l = l := by
    intro e l he
    rw [run_tally, plainBytes, he, List.flatMap_nil, List.append_nil]
  have hbody : ∀ {k : BodyKind} {c : List UInt8 → List UInt8 → SignEvent},
      (∀ bs f, plain .void (c bs f) = pieceNote k bs) →
      BodyCollects (Handler.tally Exc plainBytes) c := by
    intro k c hc a b x y z l
    have hrun : ∀ bs f l, (Handler.tally Exc plainBytes).run (c bs f) l =
        l ++ bs.map fun x => signBodies.piece k [x] := by
      intro bs f l
      rw [← pieceNote_bytewise, ← hc bs f]
      rfl
    rw [hrun, hrun, hrun, List.append_assoc, List.map_append]
  constructor
  · exact fun _ l => hchunk l rfl
  · exact fun _ l => hchunk l rfl
  · exact fun _ l => hchunk l rfl
  · exact fun _ l => hchunk l rfl
  · exact fun _ l => hchunk l rfl
  · exact hbody (k := .sourceArgs) fun _ _ => rfl
  · exact hbody (k := .outputArgs) fun _ _ => rfl
  · exact hbody (k := .sourceData) fun _ _ => rfl
  · exact hbody (k := .outputData) fun _ _ => rfl
  · intro a b x y z l
    rw [hchunk _ rfl, hchunk _ rfl, hchunk _ rfl]

/-! ### The calls of a transaction -/

section Calls

/-- The calls for the source of an input. -/
def RawTransaction.sourceCalls (t : RawTransaction) : List (Note SignEvent) :=
  indexedNotes .sourceOutputsIndex (t.outputs.map CellOutput.sourceNotes) ++
    indexedNotes .sourceDataIndex (t.outputsData.map sourceDataNotes) ++ [(.close, .sourceEnd)]

/-- The calls for an input, but for `input_start`. -/
def AnnotatedCellInput.calls (i : AnnotatedCellInput) : List (Note SignEvent) :=
  (.void, .inputIndex i.input.previousOutput.index) :: i.source.sourceCalls

/-- The calls for the inputs. -/
def inputsCalls (is : List AnnotatedCellInput) : List (Note SignEvent) :=
  (.void, .inputsStart) :: ((if is = [] then [] else [(.void, .inputStart),
    (.void, .inputsLength is.length)] ++ itemNotes (fun _ => [(.void, .inputStart)]) 0
      (is.map AnnotatedCellInput.calls)) ++ [(.close, .inputsEnd)])

/-- The calls for the outputs. -/
def outputsCalls (cs : List CellOutput) : List (Note SignEvent) :=
  indexedNotes .outputsIndex (cs.map CellOutput.notes) ++ [(.close, .outputsEnd)]

/-- The calls for the data of the outputs. -/
def outputsDataCalls (ds : List (List UInt8)) : List (Note SignEvent) :=
  indexedNotes .dataIndex (ds.map outputDataNotes)

def AnnotatedTransaction.calls (t : AnnotatedTransaction) : List (Note SignEvent) :=
  pathNotes .signPathSize .signPathItem .signPathEnd t.signPath ++
    pathNotes .changePathSize .changePathItem .changePathEnd t.changePath ++
    [(.void, .inputCount t.inputCount)] ++ inputsCalls t.raw.inputs ++
    outputsCalls t.raw.outputs ++ outputsDataCalls t.raw.outputsData ++ [(.close, .rawEnd)]

variable {N : Type} {f : Slot → SignEvent → List N}

theorem tallyAll_itemNotes {α : Type} (after after' : ℕ → List (Note SignEvent))
    (hafter : ∀ k, tallyAll plain (after k) = after' k) {notes calls : α → List (Note SignEvent)}
    (h : ∀ x, tallyAll plain (notes x) = calls x) (k : ℕ) (xs : List α) :
    tallyAll plain (itemNotes after k (xs.map notes)) = itemNotes after' k (xs.map calls) := by
  induction xs generalizing k with
  | nil => rfl
  | cons x xs ih =>
    simp only [List.map_cons, itemNotes, tallyAll_append, hafter, h, ih]

theorem tallyAll_indexedNotes {α : Type} (index : ℕ → SignEvent)
    (hindex : ∀ k, plain .void (index k) = [(.void, index k)])
    {notes calls : α → List (Note SignEvent)} (h : ∀ x, tallyAll plain (notes x) = calls x)
    (xs : List α) :
    tallyAll plain (indexedNotes index (xs.map notes)) = indexedNotes index (xs.map calls) := by
  unfold indexedNotes
  cases xs with
  | nil => rfl
  | cons x xs =>
    have hitems := tallyAll_itemNotes (fun k => [(.void, index k)]) (fun k => [(.void, index k)])
      (fun k => by simp [tallyAll, hindex]) h 0 (x :: xs)
    rw [if_neg (by simp), if_neg (by simp), ← hitems]
    simp [tallyAll, hindex]

theorem tallyAll_indexedNotes_nil {α : Type} (index : ℕ → SignEvent)
    (hindex : ∀ k, plain .void (index k) = []) {notes : α → List (Note SignEvent)}
    (h : ∀ x, tallyAll plain (notes x) = []) (xs : List α) :
    tallyAll plain (indexedNotes index (xs.map notes)) = [] := by
  unfold indexedNotes
  have hitems := tallyAll_itemNotes (fun k => [(.void, index k)]) (fun _ => [])
    (fun k => by simp [tallyAll, hindex]) h 0 xs
  rw [itemNotes_nil] at hitems
  split
  · rfl
  · simp only [tallyAll, List.flatMap_cons, hindex, List.nil_append] at hitems ⊢
    rw [hitems]
    simp

theorem tallyAll_argsNotes (args : List UInt8) :
    tallyAll plain (argsNotes .sourceCell args) = argsNotes .sourceCell args ∧
      tallyAll plain (argsNotes .outputCell args) = argsNotes .outputCell args := by
  by_cases h : args = [] <;> simp [argsNotes, tallyAll, plain, pieceNote, h, signBodies,
    BodyKind.event]

theorem tallyAll_typeNotes (s : Option Script) :
    tallyAll plain (typeNotes .sourceCell s) = typeNotes .sourceCell s ∧
      tallyAll plain (typeNotes .outputCell s) = typeNotes .outputCell s := by
  cases s <;> simp [typeNotes, tallyAll, plain]

theorem tallyAll_sourceCell (c : CellOutput) : tallyAll plain c.sourceNotes = c.sourceNotes := by
  simp only [CellOutput.sourceNotes, tallyAll_append, (tallyAll_argsNotes _).1,
    (tallyAll_typeNotes _).1]
  rfl

theorem tallyAll_output (c : CellOutput) : tallyAll plain c.notes = c.notes := by
  simp only [CellOutput.notes, tallyAll_append, (tallyAll_argsNotes _).2, (tallyAll_typeNotes _).2]
  rfl

theorem tallyAll_data (d : List UInt8) :
    tallyAll plain (sourceDataNotes d) = sourceDataNotes d ∧
      tallyAll plain (outputDataNotes d) = outputDataNotes d ∧
        tallyAll plain (witnessNotes d) = [] := by
  by_cases h : d = [] <;> simp [sourceDataNotes, outputDataNotes, witnessNotes, itemDataNotes,
    tallyAll, plain, pieceNote, h, signBodies, BodyKind.event]

theorem tallyAll_source (t : RawTransaction) : tallyAll plain t.sourceNotes = t.sourceCalls := by
  rw [RawTransaction.sourceNotes, tallyAll_append, tallyAll_append,
    tallyAll_indexedNotes .sourceOutputsIndex (fun _ => rfl) tallyAll_sourceCell,
    tallyAll_indexedNotes .sourceDataIndex (fun _ => rfl) fun d => (tallyAll_data d).1]
  rfl

theorem tallyAll_input (i : AnnotatedCellInput) : tallyAll plain i.notes = i.calls := by
  rw [AnnotatedCellInput.notes, tallyAll_append, tallyAll_source]
  rfl

theorem tallyAll_inputs (is : List AnnotatedCellInput) :
    tallyAll plain (inputsNotes is) = inputsCalls is := by
  have hitems := tallyAll_itemNotes (fun _ => [(.void, .inputStart)]) (fun _ => [(.void, .inputStart)])
    (fun _ => rfl) tallyAll_input 0 is
  by_cases h : is = []
  · simp [inputsNotes, inputsCalls, tallyAll, plain, h]
  · simp only [inputsNotes, inputsCalls, h, if_false, ← hitems]
    simp [tallyAll, plain]

theorem tallyAll_path (size : ℕ → SignEvent) (item : FixedBytes 4 → SignEvent) (finish : SignEvent)
    (hsize : ∀ n, plain .size (size n) = [(.size, size n)])
    (hitem : ∀ c, plain .void (item c) = [(.void, item c)])
    (hfinish : plain .close finish = [(.close, finish)]) (cs : List (FixedBytes 4)) :
    tallyAll plain (pathNotes size item finish cs) = pathNotes size item finish cs := by
  have hitems : tallyAll plain (cs.map fun c => (.void, item c)) =
      cs.map fun c => (.void, item c) := by
    induction cs with
    | nil => rfl
    | cons c cs ih =>
      rw [List.map_cons, tallyAll, List.flatMap_cons, hitem]
      exact congrArg _ ih
  rw [pathNotes, List.cons_append, tallyAll, List.flatMap_cons, List.flatMap_append, hsize]
  change _ ++ (tallyAll plain _ ++ _) = _
  rw [hitems]
  simp [hfinish]

/-- What is left of the callbacks of a transaction. -/
theorem tallyAll_notes (t : AnnotatedTransaction) : tallyAll plain t.notes = t.calls := by
  have hsign := tallyAll_path .signPathSize .signPathItem .signPathEnd (fun _ => rfl) (fun _ => rfl)
    rfl t.signPath
  have hchange := tallyAll_path .changePathSize .changePathItem .changePathEnd
    (fun _ => rfl) (fun _ => rfl) rfl t.changePath
  have houtputs := tallyAll_indexedNotes .outputsIndex (fun _ => rfl) tallyAll_output
    t.raw.outputs
  have hdata := tallyAll_indexedNotes .dataIndex (fun _ => rfl)
    (fun d => (tallyAll_data d).2.1) t.raw.outputsData
  have hwitnesses := tallyAll_indexedNotes_nil .witnessesIndex (fun _ => rfl)
    (fun d => (tallyAll_data d).2.2) t.witnesses
  simp only [AnnotatedTransaction.notes, AnnotatedRawTransaction.notes, witnessesNotes,
    outputsNotes, outputsDataNotes, tallyAll_append, tallyAll_inputs, hsign, hchange, houtputs,
    hdata, hwitnesses, AnnotatedTransaction.calls, outputsCalls, outputsDataCalls]
  simp [tallyAll, plain]

end Calls
/-! ### The calls of an exchange -/

/-- The calls in a log. -/
def calls (l : SignLog) : List (Note SignEvent) := l.flatMap fun c => plain c.slot c.event

@[simp] theorem calls_append (l l' : SignLog) : calls (l ++ l') = calls l ++ calls l' :=
  List.flatMap_append

theorem calls_singleton (c : Call SignEvent SignState) : calls [c] = plain c.slot c.event := by
  simp [calls]

section Cut
open Bodies

theorem pieceNote_solid (k : BodyKind) (bs : List UInt8) : signBodies.Solid (pieceNote k bs) := by
  unfold pieceNote
  split
  · intro n hn
    cases hn
  · rename_i hne
    intro n hn t hb
    rw [List.mem_singleton.mp hn, body_piece] at hb
    cases hb
    exact hne rfl

theorem plain_solid (s : Slot) (e : SignEvent) : signBodies.Solid (plain s e) := by
  unfold plain
  split
  case h_18 h₁ h₂ h₃ h₄ =>
    intro n hn t hb
    rw [List.mem_singleton.mp hn] at hb
    obtain ⟨rfl, rfl⟩ := Prod.mk.inj (signBodies.piece_body hb)
    cases t with
    | sourceArgs => exact h₁ _ _ rfl rfl
    | outputArgs => exact h₂ _ _ rfl rfl
    | sourceData => exact h₃ _ _ rfl rfl
    | outputData => exact h₄ _ _ rfl rfl
  all_goals first
    | exact pieceNote_solid _ _
    | (intro n hn; cases hn)

theorem calls_solid (l : SignLog) : signBodies.Solid (calls l) := by
  intro n hn
  obtain ⟨c, -, hc⟩ := List.mem_flatMap.mp hn
  exact plain_solid _ _ n hc

theorem closed_itemNotes {after : ℕ → List (Note SignEvent)}
    (hafter : ∀ k, signBodies.Closed (after k)) {ess : List (List (Note SignEvent))}
    (h : ∀ es ∈ ess, signBodies.Closed es) (k : ℕ) : signBodies.Closed (itemNotes after k ess) := by
  induction ess generalizing k with
  | nil => exact .nil
  | cons es ess ih =>
    exact ((h es List.mem_cons_self).append (hafter _)).append
      (ih (fun es' he => h es' (List.mem_cons_of_mem es he)) _)

theorem closed_indexedNotes {index : ℕ → SignEvent}
    (hindex : ∀ k, signBodies.body (.void, index k) = none) {ess : List (List (Note SignEvent))}
    (h : ∀ es ∈ ess, signBodies.Closed es) : signBodies.Closed (indexedNotes index ess) := by
  unfold indexedNotes
  split
  · exact .nil
  · exact .call (hindex 0) (closed_itemNotes (fun k => .call (hindex k) .nil) h 0)

theorem closed_piece (k : BodyKind) {bs : List UInt8} {n : Note SignEvent}
    {es : List (Note SignEvent)} (hn : signBodies.body n = none) (h : signBodies.Closed es) :
    signBodies.Closed ((.void, k.event bs) :: n :: es) := .body (t := k) hn h

theorem closed_sourceCell (c : CellOutput) : signBodies.Closed c.sourceNotes := by
  have htype : signBodies.Closed (typeNotes .sourceCell c.type) := by
    refine Closed.notes fun n hn => ?_
    cases ht : c.type with
    | none => simp [typeNotes, ht] at hn
    | some s =>
      simp only [typeNotes, ht, List.mem_cons, List.not_mem_nil, or_false] at hn
      rcases hn with rfl | rfl | rfl <;> rfl
  have hend : signBodies.Closed ((.close, .sourceCell .lockEnd) :: typeNotes .sourceCell c.type) :=
    .call rfl htype
  have hargs : signBodies.Closed (argsNotes .sourceCell c.lock.args ++
      ((.close, .sourceCell .lockEnd) :: typeNotes .sourceCell c.type)) := by
    unfold argsNotes
    split
    · exact hend
    · exact closed_piece .sourceArgs rfl htype
  rw [CellOutput.sourceNotes, List.append_assoc, List.append_assoc]
  exact .call rfl (.call rfl (.call rfl (.call rfl hargs)))

theorem closed_output (c : CellOutput) : signBodies.Closed c.notes := by
  have hend : signBodies.Closed [((.close, .outputEnd) : Note SignEvent)] := .call rfl .nil
  have hargs : signBodies.Closed (argsNotes .outputCell c.lock.args ++
      (typeNotes .outputCell c.type ++ [(.close, .outputEnd)])) := by
    unfold argsNotes
    cases c.type with
    | none =>
      split
      · exact hend
      · exact closed_piece .outputArgs rfl .nil
    | some s =>
      have htype : signBodies.Closed ((.void, .outputCell (.typeHashType s.hashType)) ::
          (.size, .outputCell (.typeArgsSize (s.args.length + 4))) ::
          [((.close, .outputEnd) : Note SignEvent)]) := .call rfl (.call rfl hend)
      split
      · exact .call rfl htype
      · exact closed_piece .outputArgs rfl htype
  rw [CellOutput.notes, List.append_assoc, List.append_assoc]
  exact .call rfl (.call rfl (.call rfl hargs))

theorem closed_sourceData (d : List UInt8) : signBodies.Closed (sourceDataNotes d) := by
  unfold sourceDataNotes itemDataNotes
  split
  · exact .call rfl (.call rfl .nil)
  · exact .call rfl (closed_piece .sourceData rfl .nil)

theorem closed_outputData (d : List UInt8) : signBodies.Closed (outputDataNotes d) := by
  unfold outputDataNotes itemDataNotes
  split
  · exact .call rfl (.call rfl .nil)
  · exact .call rfl (closed_piece .outputData rfl .nil)

/-- What is true of the notes of each item, of a list of such notes. -/
theorem forall_mem_map {α β : Type} {f : α → β} {P : β → Prop} (h : ∀ a, P (f a)) (as : List α) :
    ∀ b ∈ as.map f, P b := by
  intro b hb
  obtain ⟨a, -, rfl⟩ := List.mem_map.mp hb
  exact h a

theorem closed_input (i : AnnotatedCellInput) : signBodies.Closed i.calls := by
  refine .call rfl (((closed_indexedNotes (fun _ => rfl) ?_).append
    (closed_indexedNotes (fun _ => rfl) ?_)).append (.call rfl .nil))
  · exact forall_mem_map closed_sourceCell _
  · exact forall_mem_map closed_sourceData _

theorem closed_inputs (is : List AnnotatedCellInput) : signBodies.Closed (inputsCalls is) := by
  refine .call rfl (Closed.append ?_ (.call rfl .nil))
  split
  · exact .nil
  · exact .call rfl (.call rfl (closed_itemNotes (fun _ => .call rfl .nil)
      (forall_mem_map closed_input _) 0))

theorem closed_path {size : ℕ → SignEvent} {item : FixedBytes 4 → SignEvent} {finish : SignEvent}
    (hsize : ∀ n, signBodies.body (.size, size n) = none)
    (hitem : ∀ c, signBodies.body (.void, item c) = none)
    (hfinish : signBodies.body (.close, finish) = none) (cs : List (FixedBytes 4)) :
    signBodies.Closed (pathNotes size item finish cs) := by
  refine .call (hsize _) (Closed.append (.notes ?_) (.call hfinish .nil))
  exact forall_mem_map hitem cs

theorem closed_calls (t : AnnotatedTransaction) : signBodies.Closed t.calls := by
  have hsign : signBodies.Closed
      (pathNotes .signPathSize .signPathItem .signPathEnd t.signPath) :=
    closed_path (fun _ => rfl) (fun _ => rfl) rfl _
  have hchange : signBodies.Closed
      (pathNotes .changePathSize .changePathItem .changePathEnd t.changePath) :=
    closed_path (fun _ => rfl) (fun _ => rfl) rfl _
  have houtputs : signBodies.Closed (outputsCalls t.raw.outputs) :=
    (closed_indexedNotes (fun _ => rfl) (forall_mem_map closed_output _)).append (.call rfl .nil)
  have hdata : signBodies.Closed (outputsDataCalls t.raw.outputsData) :=
    closed_indexedNotes (fun _ => rfl) (forall_mem_map closed_outputData _)
  exact (((((hsign.append hchange).append (.call rfl .nil)).append (closed_inputs _)).append
    houtputs).append hdata).append (.call rfl .nil)

end Cut

namespace SignState
variable {sdk : Sdk}

/-- The calls in the log, byte by byte. -/
theorem plainBytes_mirrors (sdk : Sdk) : Mirrors sdk (Handler.tally Exc plainBytes)
    (fun y l => l = (calls y.2).flatMap signBodies.bytewise) [] where
  sim x := by
    refine Reader.every_of_forall (fun e => ?_) _
    have happend : ∀ {y : SignState × SignLog} {l : List (Note SignEvent)} (s : Slot),
        l = (calls y.2).flatMap signBodies.bytewise →
        l ++ plainBytes s e = (calls (y.2 ++ [⟨s, e, y.1⟩])).flatMap signBodies.bytewise := by
      rintro y l s rfl
      rw [calls_append, List.flatMap_append, calls_singleton]
      rfl
    exact ⟨fun h => happend .void h, fun h _ => ⟨rfl, happend .size h⟩,
      fun h _ => ⟨rfl, happend .close h⟩, fun _ _ => trivial⟩
  restack _ h := h
  fresh := rfl

/-- The calls of a complete exchange of a transaction are those of the transaction, in pieces. -/
theorem Completes.cut {sent : List Sent} (hc : Completes sdk sent) {t : AnnotatedTransaction}
    (hfit : t.Fits) (hp : payload sent = t.encode) :
    signBodies.Cut t.calls (calls (logOf sdk sent)) := by
  obtain ⟨es, rest, hscan, hcalls⟩ := (plainBytes_mirrors sdk).completes tally_deaf.silent.fluid hc
  have hreads := annotatedTransaction_reads hfit []
  rw [List.append_nil, ← hp, hscan, Option.some.injEq, Prod.mk.injEq] at hreads
  obtain ⟨rfl, -⟩ := hreads
  refine (closed_calls t).cut (calls_solid _) ?_
  rw [logOf, ← hcalls, Handler.replay_tally, List.nil_append, ← tallyAll_notes]
  simp only [tallyAll, List.flatMap_assoc]
  rfl

end SignState
end NervosLedger
