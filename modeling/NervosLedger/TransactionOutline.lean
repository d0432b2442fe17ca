import NervosLedger.AnnotatedTransaction
import NervosLedger.Molecule.Outline

/-!
# The parser of a transaction and exceptions

Of the callbacks that can throw, only those at the ends of the two derivation paths ever do:
those of the outputs throw where an address is missing, and it never is. A path that threw is
still complete, and throws again in the next packet.
-/
namespace NervosLedger
open Molecule

namespace SignState

/-- An entry of `outputs`, or an amount, comes with `HAS_DESTINATION_ADDRESS`. -/
def Addressed (g : SignState) : Prop :=
  g.v.hasDestinationAddress = true ∨ g.tx.outputs = [] ∧ g.tx.plainOutputAmount = 0

/-- The derivation path that was read has no key. -/
def KeyError (sdk : Sdk) (g : SignState) : Prop := ∃ e, prepLockArg sdk g.tempKey = .error e

/-- The callbacks before the outputs are complete, but those that end a path. -/
def Calm : SignEvent → Prop
  | .signPathEnd | .changePathEnd | .outputsEnd | .dataVecChunk _ | .dataIndex _ | .dataSize _
  | .dataChunk _ _ | .dataEnd | .rawEnd | .witnessesIndex _ | .witnessSize _ | .witnessChunk _ _
  | .witnessEnd | .witnessesEnd => False
  | _ => True

/-- The callbacks that never throw. -/
def Quiet : SignEvent → Prop
  | .signPathEnd | .changePathEnd | .outputEnd | .outputsEnd => False
  | _ => True

section Addressed
variable (env : Env) {g : SignState}

/-- What `Addressed` speaks of is as it was. -/
def SameOutputs (g g' : SignState) : Prop :=
  g'.v.hasDestinationAddress = g.v.hasDestinationAddress ∧ g'.tx.outputs = g.tx.outputs ∧
    g'.tx.plainOutputAmount = g.tx.plainOutputAmount

theorem Addressed.congr (h : g.Addressed) {g' : SignState} (hs : SameOutputs g g') :
    g'.Addressed := by
  unfold Addressed
  rwa [hs.1, hs.2.1, hs.2.2]

theorem runCell_sameOutputs (e : CellEvent) : SameOutputs g (runCell env e g) := by
  cases e with
  | capacity buf =>
    simp only [runCell, cellCapacity]
    split <;> exact ⟨rfl, rfl, rfl⟩
  | lockCodeHash buf =>
    simp only [runCell, cellLockCodeHash, reject]
    split_ifs <;> exact ⟨rfl, rfl, rfl⟩
  | lockHashType hashType =>
    simp only [runCell, cellScriptHashType, reject]
    split_ifs <;> exact ⟨rfl, rfl, rfl⟩
  | typeHashType hashType =>
    simp only [runCell, cellScriptHashType, reject]
    split_ifs <;> exact ⟨rfl, rfl, rfl⟩
  | lockArgsStart =>
    simp only [runCell, scriptArgStartInput]
    split <;> exact ⟨rfl, rfl, rfl⟩
  | lockArgs buf following =>
    simp only [runCell, scriptArgChunk]
    split_ifs <;> exact ⟨rfl, rfl, rfl⟩
  | typeCodeHash buf =>
    simp only [runCell, cellTypeCodeHash, reject]
    split_ifs <;> exact ⟨rfl, rfl, rfl⟩
  | lockEnd => exact ⟨rfl, rfl, rfl⟩
  | typeArgsSize size => exact ⟨rfl, rfl, rfl⟩

theorem runCallback_sameOutputs {e : SignEvent} (he : Calm e) :
    SameOutputs g (runCallback env e g) := by
  cases e with
  | inputsLength length =>
    simp only [runCallback, blake2bInputCount, rejectHard, blake2bChunk]
    split <;> exact ⟨rfl, rfl, rfl⟩
  | sourceCell e => exact runCell_sameOutputs env e
  | outputCell e => exact runCell_sameOutputs env e
  | sourceDataChunk buf following =>
    simp only [runCallback, checkCellDataDataChunk]
    split <;> exact ⟨rfl, rfl, rfl⟩
  | _ => first | exact he.elim | exact ⟨rfl, rfl, rfl⟩

theorem askCallback_sameOutputs {e : SignEvent} (he : Calm e) :
    SameOutputs g (askCallback env e g).1 := by
  have hsize : ∀ n, SameOutputs g (cellTypeArgLength env n g).1 := by
    intro n
    simp only [cellTypeArgLength, reject]
    split_ifs <;> exact ⟨rfl, rfl, rfl⟩
  have hpath : ∀ n, SameOutputs g (initBip32 n g).1 := by
    intro n
    simp only [initBip32, rejectHard]
    split_ifs <;> exact ⟨rfl, rfl, rfl⟩
  cases e with
  | sourceCell e => cases e <;> first | exact hsize _ | exact ⟨rfl, rfl, rfl⟩
  | outputCell e => cases e <;> first | exact hsize _ | exact ⟨rfl, rfl, rfl⟩
  | signPathSize size => exact hpath size
  | changePathSize size => exact hpath size
  | sourceDataSize size =>
    simp only [askCallback, setCellDataSize, rejectHard]
    split <;> exact ⟨rfl, rfl, rfl⟩
  | _ => first | exact he.elim | exact ⟨rfl, rfl, rfl⟩

theorem inputLockArgEnd_sameOutputs : SameOutputs g g.inputLockArgEnd := by
  simp only [inputLockArgEnd, reject]
  split_ifs <;> exact ⟨rfl, rfl, rfl⟩

theorem finishInputCellData_sameOutputs : SameOutputs g (g.finishInputCellData env) := by
  simp only [finishInputCellData, reject]
  split_ifs <;> exact ⟨rfl, rfl, rfl⟩

/-- A new or old entry comes with the flag. -/
theorem addToLastOutput_addressed : g.addToLastOutput.Addressed := .inl rfl

theorem plainOutputEnd_addressed (h : g.Addressed) :
    g.plainOutputEnd.2 = none ∧ g.plainOutputEnd.1.Addressed := by
  unfold plainOutputEnd
  split
  · rename_i hd
    have hd' : g.v.hasDestinationAddress = false := by simpa using hd
    obtain ⟨ho, -⟩ := h.resolve_left (by simp [hd'])
    rw [if_neg (by simp [ho])]
    exact ⟨rfl, addToLastOutput_addressed⟩
  · dsimp only
    split
    · split
      · exact ⟨rfl, h.congr ⟨rfl, rfl, rfl⟩⟩
      · split
        · exact ⟨rfl, h.congr ⟨rfl, rfl, rfl⟩⟩
        · exact ⟨rfl, addToLastOutput_addressed⟩
    · exact ⟨rfl, addToLastOutput_addressed⟩

theorem outputEnd_addressed (h : g.Addressed) :
    (g.outputEnd env).2 = none ∧ (g.outputEnd env).1.Addressed := by
  unfold outputEnd
  split
  · refine ⟨rfl, h.congr ?_⟩
    simp only [daoOutputEnd, reject]
    split <;> exact ⟨rfl, rfl, rfl⟩
  · split
    · exact plainOutputEnd_addressed h
    · exact ⟨rfl, h.congr ⟨rfl, rfl, rfl⟩⟩

theorem outputsEnd_of_addressed (h : g.Addressed) : g.outputsEnd.2 = none := by
  unfold outputsEnd
  split
  · rfl
  · dsimp only
    split
    · rfl
    · rename_i hs
      simp only [Bool.not_eq_true, Bool.not_eq_false', Bool.and_eq_true] at hs
      have hd : g.v.hasDestinationAddress = false := by simpa using (by simpa using hs : _ ∧ _).1
      obtain ⟨ho, hp⟩ := h.resolve_left (by simp [hd])
      rw [if_neg (by simp [hp]), if_neg (by simp [ho])]

theorem calm_keepAt {e : SignEvent} (he : Calm e) : KeepAt (signHandler env) Addressed e := by
  refine keepAt (fun g hg => hg.congr (runCallback_sameOutputs env he))
    (fun g hg _ => hg.congr (askCallback_sameOutputs env he)) fun g hg => ?_
  cases e with
  | sourceCell e =>
    cases e <;> first
      | exact ⟨rfl, hg.congr inputLockArgEnd_sameOutputs⟩
      | exact ⟨rfl, hg⟩
  | sourceDataEnd => exact ⟨rfl, hg.congr (finishInputCellData_sameOutputs env)⟩
  | inputsEnd => exact ⟨rfl, hg.imp id fun _ => ⟨rfl, rfl⟩⟩
  | outputEnd => exact outputEnd_addressed env hg
  | _ => first | exact he.elim | exact ⟨rfl, hg⟩

theorem quiet_keepAt {e : SignEvent} (he : Quiet e) : KeepAt (signHandler env) (fun _ => True) e := by
  refine keepAt (fun _ _ => trivial) (fun _ _ _ => trivial) fun g _ => ⟨?_, trivial⟩
  cases e with
  | sourceCell e => cases e <;> rfl
  | _ => first | exact he.elim | rfl

end Addressed

/-! ### The outline -/

/-- A path is being read, or it is complete and without a key. -/
def pathOutline (sdk : Sdk) : Outline SignState where
  pre := Addressed
  mid _ := Addressed
  post := Addressed
  thrown st g := KeyError sdk g ∧ ∃ k, st.frame.stateNum = k + 1 ∧ st.frame.totalSize ≤ k

def outputsOutline : Outline SignState :=
  ⟨Addressed, fun _ => Addressed, fun _ => True, fun _ _ => False⟩

def rawOutline : Outline SignState :=
  .table [.constant Addressed, .constant Addressed, .constant Addressed, .constant Addressed,
    outputsOutline, .constant fun _ => True] fun _ => True

/-- What holds between the packets of a transaction. -/
def signOutline (sdk : Sdk) : Outline SignState :=
  .table [pathOutline sdk, pathOutline sdk, .constant Addressed, rawOutline,
    .constant fun _ => True] fun _ => True

section Meets
variable (env : Env)

theorem bip32_meets {size : ℕ → SignEvent} {finish : SignEvent} {item : FixedBytes 4 → SignEvent}
    (hsize : ∀ n, Calm (size n)) (hitem : ∀ b, Calm (item b))
    (hpost : ∀ g, Addressed g → ((signHandler env).finish finish g).1.Addressed)
    (hthrown : ∀ g, ((signHandler env).finish finish g).2 ≠ none →
      KeyError env.sdk ((signHandler env).finish finish g).1) :
    ((Reader.bip32 { size := some size, finish := some finish } (some item)).part
      (signHandler env)).Meets (pathOutline env.sdk) where
  start hg := hg
  parse {st g} n inp hg := by
    have hcalm : (Reader.fixVec (Callbacks.unfinished { size := some size, finish := some finish }) 4
        (Reader.uint32 (some item))).Every Calm := by
      simp [Reader.Every, Reader.uint32, Callbacks.unfinished, Callbacks.every_mk, hsize, hitem]
    have hconst := Reader.parse_meets_constant (hcalm.mono fun e he => calm_keepAt env he)
      st n inp hg
    change ((Reader.fixVec { size := some size, finish := some finish } 4
      (Reader.uint32 (some item))).parse (signHandler env) st n inp g).Meets _
    rw [Reader.parse_fixVec_eq_finished]
    refine Res.finished_meets hconst id (fun {g} hg _ => hpost g hg) fun {g} hc _ hn => ?_
    exact ⟨hthrown g hn, Reader.parse_fixVec_done hc⟩

theorem setSignPath_addressed {g : SignState} (hg : g.Addressed) :
    (g.setSignPath env).1.Addressed := by
  unfold setSignPath
  split <;> exact hg.congr ⟨rfl, rfl, rfl⟩

theorem setChangePath_addressed {g : SignState} (hg : g.Addressed) :
    (g.setChangePath env).1.Addressed := by
  unfold setChangePath
  split <;> exact hg.congr ⟨rfl, rfl, rfl⟩

theorem setSignPath_keyError {g : SignState} (h : (g.setSignPath env).2 ≠ none) :
    KeyError env.sdk (g.setSignPath env).1 := by
  unfold setSignPath at h ⊢
  split at h
  · rename_i e he
    exact ⟨e, he⟩
  · exact absurd rfl h

theorem setChangePath_keyError {g : SignState} (h : (g.setChangePath env).2 ≠ none) :
    KeyError env.sdk (g.setChangePath env).1 := by
  unfold setChangePath at h ⊢
  split at h
  · rename_i e he
    exact ⟨e, he⟩
  · exact absurd rfl h

/-- The callback table of the outputs. -/
def outputsTable : Callbacks SignEvent where
  chunk := some .outputsChunk
  index := some .outputsIndex
  finish := some .outputsEnd

theorem outputs_meets : (outputsCallbacks.part (signHandler env)).Meets outputsOutline where
  start hg := hg
  parse {st g} n inp hg := by
    have hcalm : (Reader.dynVec outputsTable.unfinished outputCallbacks).Every Calm := by
      simp [Reader.Every, Callbacks.unfinished, outputsTable, outputCallbacks,
        typeScriptCallbacks, Reader.cellOutput, Reader.script, Reader.scriptOpt, Reader.uint64,
        Reader.byte32, Callbacks.every_mk, Fin.forall_fin_succ, Calm]
    have hconst := Reader.parse_meets_constant (hcalm.mono fun e he => calm_keepAt env he)
      st n inp hg
    change ((Reader.dynVec outputsTable outputCallbacks).parse (signHandler env) st n inp g).Meets _
    rw [Reader.parse_dynVec_eq_finished]
    exact Res.finished_meets hconst id (fun _ _ => trivial)
      fun _ hg hn => absurd (outputsEnd_of_addressed hg) hn

theorem inputs_calm : inputsCallbacks.Every Calm := by
  simp [inputsCallbacks, annotatedCellInputCallbacks, sourceCallbacks, sourceCellCallbacks,
    typeScriptCallbacks, Reader.annotatedCellInputVec, Reader.annotatedCellInput,
    Reader.cellInput, Reader.outPoint, Reader.rawTransaction, Reader.cellOutputVec,
    Reader.cellOutput, Reader.script, Reader.scriptOpt, Reader.bytesVec, Reader.uint32,
    Reader.uint64, Reader.byte32, Reader.cellDepVec, Reader.cellDep, Reader.byte32Vec,
    Reader.cellInputVec, Reader.Every, Callbacks.every_mk, Fin.forall_fin_succ, Calm]

theorem outputsData_quiet : outputsDataCallbacks.Every Quiet := by
  simp [outputsDataCallbacks, Reader.bytesVec, Reader.Every, Callbacks.every_mk, Quiet]

theorem witnesses_quiet : witnessesCallbacks.Every Quiet := by
  simp [witnessesCallbacks, Reader.bytesVec, Reader.Every, Callbacks.every_mk, Quiet]

theorem calm_meets {r : Reader SignEvent} (hr : r.Every Calm) :
    (r.part (signHandler env)).Meets (.constant Addressed) :=
  Reader.meets_constant (hr.mono fun _ => calm_keepAt env)

theorem quiet_meets {r : Reader SignEvent} (hr : r.Every Quiet) :
    (r.part (signHandler env)).Meets (.constant fun _ => True) :=
  Reader.meets_constant (hr.mono fun _ => quiet_keepAt env)

theorem raw_linked : Linked (signHandler env)
    { offsets := some .offsets, finish := some .rawEnd } [.constant Addressed,
      .constant Addressed, .constant Addressed, .constant Addressed, outputsOutline,
      .constant fun _ => True] fun _ => True where
  link {i o o'} ho ho' g hg := by
    match i with
    | 0 | 1 | 2 | 3 => cases ho; cases ho'; exact hg
    | 4 => cases ho; cases ho'; trivial
    | i + 5 => cases ho'
  start := rfl
  chunk := rfl
  offsets {o} ho f hf n ns st g hg := by
    cases ho
    cases hf
    exact Addressed.congr hg (runCallback_sameOutputs env (e := .offsets n ns) trivial)
  close _ g _ := ⟨rfl, trivial⟩

theorem raw_meets : (annotatedRawTransactionCallbacks.part (signHandler env)).Meets rawOutline where
  start hg := hg
  parse {st g} n inp hg := by
    refine Reader.parse_table_meets (raw_linked env) (.cons ?_ (.cons ?_ (.cons ?_ (.cons ?_
      (.cons ?_ (.cons ?_ .nil)))))) n inp hg
    · exact calm_meets env (by simp [Reader.uint32, Reader.Every, Calm])
    · exact calm_meets env (by simp [Reader.cellDepVec, Reader.cellDep, Reader.outPoint,
        Reader.byte32, Reader.uint32, Reader.Every, Callbacks.every_mk, Calm])
    · exact calm_meets env (by simp [Reader.byte32Vec, Reader.byte32, Reader.Every,
        Callbacks.every_mk, Calm])
    · exact calm_meets env inputs_calm
    · exact outputs_meets env
    · exact quiet_meets env outputsData_quiet

theorem sign_linked : Linked (signHandler env) {} [pathOutline env.sdk, pathOutline env.sdk,
    .constant Addressed, rawOutline, .constant fun _ => True] fun _ => True where
  link {i o o'} ho ho' g hg := by
    match i with
    | 0 | 1 => cases ho; cases ho'; exact hg
    | 2 =>
      cases ho
      cases ho'
      intro o ho
      cases ho
      exact hg
    | 3 => cases ho; cases ho'; trivial
    | i + 4 => cases ho'
  start := rfl
  chunk := rfl
  offsets _ f hf := nomatch hf
  close _ g _ := ⟨rfl, trivial⟩

/-- The parser of a transaction keeps its outline from packet to packet. -/
theorem annotatedTransaction_meets {st : ReaderState} {g : SignState} (n : ℕ) (inp : List UInt8)
    (hg : (signOutline env.sdk).mid st g) :
    (annotatedTransactionCallbacks.parse (signHandler env) st n inp g).Meets
      (signOutline env.sdk) := by
  refine Reader.parse_table_meets (sign_linked env) (.cons ?_ (.cons ?_ (.cons ?_ (.cons ?_
    (.cons ?_ .nil))))) n inp hg
  · exact bip32_meets env (fun _ => trivial) (fun _ => trivial)
      (fun _ hg => setSignPath_addressed env hg) fun _ hn => setSignPath_keyError env hn
  · exact bip32_meets env (fun _ => trivial) (fun _ => trivial)
      (fun _ hg => setChangePath_addressed env hg) fun _ hn => setChangePath_keyError env hn
  · exact calm_meets env (by simp [Reader.uint32, Reader.Every, Calm])
  · exact raw_meets env
  · exact quiet_meets env witnesses_quiet

end Meets
end SignState
end NervosLedger
