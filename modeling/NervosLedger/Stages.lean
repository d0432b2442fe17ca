import NervosLedger.StageSteps
import NervosLedger.LooseArgs

/-!
# The stages of a transaction

The core of an accepted transaction is reached in stages: the paths, the inputs, the outputs, their
data and the end of the raw transaction. No step of them was rejected.
-/
namespace NervosLedger
open Molecule Machine
namespace SignState

/-! ### Rejections -/

section Onward
variable (env : Env)

theorem readLock_onward (cmp : LockArgCmp) (c : CellOutput) (tmp : LockArg) (index : ℕ)
    (nonequal : Bool) (g : SignState) : Onward g (readLock env cmp c tmp index nonequal g) :=
  ⟨rfl, fun hu => by simp [readLock, hu], id⟩

theorem readType_onward (c : CellOutput) (g : SignState) : Onward g (readType env c g) :=
  ⟨rfl, fun hu => by simp [readType, hu], id⟩

theorem readSource_onward (tmp : LockArg) (index : ℕ) (g : SignState) (c : Option CellOutput) :
    Onward g (readSource env tmp index g c) := by
  cases c with
  | none => exact .refl g
  | some c =>
    exact ((readLock_onward env _ c tmp index _ g).trans (inputLockArgEnd_onward _)).trans
      (readType_onward env c _)

theorem readSourceData_onward (g : SignState) (d : Option (List UInt8)) :
    Onward g (readSourceData env g d) := by
  cases d with
  | none => exact .refl g
  | some d =>
    have hread : Onward g (readData d { g with cell.active := true }) := ⟨rfl, id, id⟩
    exact hread.trans (finishInputCellData_onward env _)

theorem InputStep.onward {i : AnnotatedCellInput} {g g' : SignState} (h : InputStep env i g g') :
    Onward g g' := by
  obtain ⟨tmp, index, -, rfl⟩ := h
  have hstart : Onward g (inputSaveIndex i.input.previousOutput.index (inputStart g)) :=
    ⟨rfl, id, id⟩
  exact ((hstart.trans (readSource_onward env tmp index _ i.cell)).trans
    (readSourceData_onward env _ i.data)).trans ⟨rfl, id, id⟩

theorem outputRead_onward (c : CellOutput) (k : ℕ) (tmp : LockArg) (index : ℕ) (g : SignState) :
    Onward g (outputRead env c k tmp index g) := by
  have hindex : Onward g { g with tx.currentOutputIndex := k } := ⟨rfl, id, id⟩
  exact hindex.trans ((readLock_onward env _ c tmp index _ _).trans (readType_onward env c _))

theorem OutputStep.onward {x : CellOutput × ℕ} {y y' : Ended} (h : OutputStep env x y y') :
    Onward y.1 y'.1 := by
  obtain ⟨tmp, index, -, rfl⟩ := h
  exact ((outputRead_onward env x.1 x.2 tmp index y.1).trans (outputEnd_onward env _)).trans
    ⟨rfl, id, id⟩

theorem OutputDataStep.onward {x : List UInt8 × ℕ} {y y' : Ended}
    (h : OutputDataStep env x y y') : Onward y.1 y'.1 := by
  subst h
  have hread : Onward y.1 (outputDataRead env x.1 x.2 y.1) := ⟨rfl, id, id⟩
  exact (hread.trans (finishOutputCellData_onward env _)).trans ⟨rfl, id, id⟩

end Onward

/-! ### The stages -/

/-- Nothing was counted yet. -/
structure Begun (g : SignState) : Prop where
  v : g.v = {}
  daoCellOwner : g.daoCellOwner = .zero 20
  lastInputLockArg : g.inp.lastInputLockArg = .zero 20
  distinctInputSources : g.distinctInputSources = 0
  daoInputAmount : g.daoInputAmount = 0
  inputAmountFst : g.inputAmountFst = 0
  inputAmountSnd : g.inputAmountSnd = 0
  signingMultisigInput : g.signingMultisigInput = false

variable (sdk : Sdk) (t : AnnotatedTransaction)

/-- The states between the stages of a transaction, with the states in which `output_end` and
`finish_output_cell_data` were called. -/
structure Stages where
  begun : SignState
  read : SignState
  sent : Ended
  checked : Ended
  nothing : Begun begun
  inputs : Steps (InputStep (openEnv sdk)) t.raw.inputs begun read
  outputs : Steps (OutputStep (openEnv sdk)) t.raw.outputs.zipIdx (read.finishInputs, []) sent
  outputsData : Steps (OutputDataStep (openEnv sdk)) t.raw.outputsData.zipIdx
    (sent.1.outputsEnd.1, []) checked

variable {sdk t}

/-- The state at the end of the raw transaction. -/
def Stages.final (s : Stages sdk t) : SignState := s.checked.1.finalizeRawTransaction (openEnv sdk)

/-! ### The calls of a transaction -/

/-- The callbacks before the first input. -/
def Opening : SignEvent → Prop
  | .signPathSize _ | .signPathItem _ | .signPathEnd | .changePathSize _ | .changePathItem _
  | .changePathEnd | .inputCount _ | .inputsStart | .inputsLength _ => True
  | _ => False

theorem Begun.apply {g : SignState} (h : Begun g) (env : Env) {n : Note SignEvent}
    (hn : Opening n.2) : Begun ((signHandler env).apply n g) := by
  have hcongr : ∀ g' : SignState, g'.v = g.v → g'.daoCellOwner = g.daoCellOwner →
      g'.inp.lastInputLockArg = .zero 20 → g'.distinctInputSources = g.distinctInputSources →
      g'.daoInputAmount = g.daoInputAmount → g'.inputAmountFst = g.inputAmountFst →
      g'.inputAmountSnd = g.inputAmountSnd → g'.signingMultisigInput = g.signingMultisigInput →
      Begun g' := by
    intro g' h₁ h₂ h₃ h₄ h₅ h₆ h₇ h₈
    exact ⟨h₁.trans h.v, h₂.trans h.daoCellOwner, h₃, h₄.trans h.distinctInputSources,
      h₅.trans h.daoInputAmount, h₆.trans h.inputAmountFst, h₇.trans h.inputAmountSnd,
      h₈.trans h.signingMultisigInput⟩
  have hlast := h.lastInputLockArg
  have hsize : ∀ size, Begun (initBip32 size g).1 := by
    intro size
    unfold initBip32
    split_ifs <;> exact hcongr _ rfl rfl hlast rfl rfl rfl rfl rfl
  have hpaths : Begun (g.setSignPath env).1 ∧ Begun (g.setChangePath env).1 := by
    unfold setSignPath setChangePath
    cases prepLockArg env.sdk g.tempKey with
    | error e => exact ⟨h, h⟩
    | ok lockArg =>
      exact ⟨hcongr _ rfl rfl hlast rfl rfl rfl rfl rfl, hcongr _ rfl rfl hlast rfl rfl rfl rfl rfl⟩
  obtain ⟨s, e⟩ := n
  cases s with
  | void =>
    cases e with
    | inputsStart => exact hcongr _ rfl rfl rfl rfl rfl rfl rfl rfl
    | inputsLength length =>
      change Begun (blake2bInputCount length g)
      unfold blake2bInputCount
      split <;> exact hcongr _ rfl rfl hlast rfl rfl rfl rfl rfl
    | _ => first | exact hn.elim | exact hcongr _ rfl rfl hlast rfl rfl rfl rfl rfl
  | size =>
    cases e with
    | signPathSize size => exact hsize size
    | changePathSize size => exact hsize size
    | _ => first | exact hn.elim | exact h
  | close =>
    cases e with
    | signPathEnd => exact hpaths.1
    | changePathEnd => exact hpaths.2
    | _ => first | exact hn.elim | exact h

theorem Begun.replay {g : SignState} (h : Begun g) (env : Env) {es : List (Note SignEvent)}
    (hes : ∀ n ∈ es, Opening n.2) : Begun ((signHandler env).replay es g) := by
  induction es generalizing g with
  | nil => exact h
  | cons n es ih =>
    rw [Handler.replay_cons]
    exact ih (h.apply env (hes n List.mem_cons_self)) fun m hm => hes m (List.mem_cons_of_mem n hm)

theorem begun_fresh : Begun fresh := ⟨rfl, rfl, rfl, rfl, rfl, rfl, rfl, rfl⟩

/-- The calls before the inputs. -/
def pathCalls (t : AnnotatedTransaction) : List (Note SignEvent) :=
  pathNotes .signPathSize .signPathItem .signPathEnd t.signPath ++
    pathNotes .changePathSize .changePathItem .changePathEnd t.changePath ++
    [(.void, .inputCount t.inputCount)]

theorem opening_pathCalls (t : AnnotatedTransaction) : ∀ n ∈ pathCalls t, Opening n.2 ∧
    signBodies.body n = none := by
  intro n hn
  simp only [pathCalls, pathNotes, List.cons_append, List.mem_append,
    List.mem_cons, List.mem_map, List.not_mem_nil, or_false, or_assoc] at hn
  rcases hn with rfl | ⟨c, -, rfl⟩ | rfl | rfl | ⟨c, -, rfl⟩ | rfl | rfl <;>
    exact ⟨trivial, rfl⟩

theorem mem_itemNotes {after : ℕ → List (Note SignEvent)} {ess : List (List (Note SignEvent))}
    {k : ℕ} {n : Note SignEvent} (h : n ∈ itemNotes after k ess) :
    (∃ es ∈ ess, n ∈ es) ∨ ∃ j, n ∈ after j := by
  induction ess generalizing k with
  | nil => cases h
  | cons es ess ih =>
    rw [itemNotes, List.append_assoc, List.mem_append, List.mem_append] at h
    rcases h with h | h | h
    · exact .inl ⟨es, List.mem_cons_self, h⟩
    · exact .inr ⟨_, h⟩
    · obtain ⟨es', he, hn⟩ | ⟨j, hj⟩ := ih h
      · exact .inl ⟨es', List.mem_cons_of_mem es he, hn⟩
      · exact .inr ⟨j, hj⟩

theorem mem_indexedNotes {index : ℕ → SignEvent} {ess : List (List (Note SignEvent))}
    {n : Note SignEvent} (h : n ∈ indexedNotes index ess) :
    (∃ es ∈ ess, n ∈ es) ∨ ∃ j, n = (.void, index j) := by
  unfold indexedNotes at h
  split at h
  · cases h
  · rcases List.mem_cons.mp h with rfl | h
    · exact .inr ⟨0, rfl⟩
    · exact (mem_itemNotes h).imp id fun ⟨j, hj⟩ => ⟨j, List.mem_singleton.mp hj⟩

theorem close_typeNotes {cell : CellEvent → SignEvent} {s : Option Script} {e : SignEvent} :
    (.close, e) ∉ typeNotes cell s := by
  cases s <;> simp [typeNotes]

theorem close_argsNotes {cell : CellEvent → SignEvent} {args : List UInt8} {e : SignEvent} :
    (.close, e) ∉ argsNotes cell args := by
  unfold argsNotes
  split <;> simp

theorem close_itemDataNotes {size : ℕ → SignEvent} {body : List UInt8 → List UInt8 → SignEvent}
    {finish e : SignEvent} {d : List UInt8} (h : (.close, e) ∈ itemDataNotes size body finish d) :
    e = finish := by
  unfold itemDataNotes at h
  split at h <;> simpa using h

theorem close_sourceNotes {c : CellOutput} {e : SignEvent} (h : (.close, e) ∈ c.sourceNotes) :
    e = .sourceCell .lockEnd := by
  simpa [CellOutput.sourceNotes, close_argsNotes, close_typeNotes] using h

/-- The `end` slots called for the inputs. -/
theorem close_inputsCalls {is : List AnnotatedCellInput} {e : SignEvent}
    (h : (.close, e) ∈ inputsCalls is) : e = .sourceCell .lockEnd ∨ e = .sourceDataEnd ∨
      e = .sourceEnd ∨ e = .inputsEnd := by
  have hitem : ∀ i : AnnotatedCellInput, (.close, e) ∈ i.calls → e = .sourceCell .lockEnd ∨
      e = .sourceDataEnd ∨ e = .sourceEnd ∨ e = .inputsEnd := by
    intro i hi
    simp only [AnnotatedCellInput.calls, RawTransaction.sourceCalls, List.mem_cons, List.mem_append,
      List.not_mem_nil, or_false, Prod.mk.injEq, reduceCtorEq, false_and, false_or, true_and] at hi
    rcases hi with (hi | hi) | rfl
    · rcases mem_indexedNotes hi with ⟨es, hes, hmem⟩ | ⟨j, hj⟩
      · obtain ⟨c, -, rfl⟩ := List.mem_map.mp hes
        exact .inl (close_sourceNotes hmem)
      · cases hj
    · rcases mem_indexedNotes hi with ⟨es, hes, hmem⟩ | ⟨j, hj⟩
      · obtain ⟨d, -, rfl⟩ := List.mem_map.mp hes
        exact .inr (.inl (close_itemDataNotes hmem))
      · cases hj
    · exact .inr (.inr (.inl rfl))
  rcases List.mem_append.mp (List.mem_of_ne_of_mem (by simp) h) with h | h
  · split at h
    · cases h
    · rcases List.mem_append.mp h with h | h
      · simp at h
      · rcases mem_itemNotes h with ⟨es, hes, hmem⟩ | ⟨j, hj⟩
        · obtain ⟨i, -, rfl⟩ := List.mem_map.mp hes
          exact hitem i hmem
        · simp at hj
  · simp only [List.mem_singleton, Prod.mk.injEq, true_and] at h
    exact .inr (.inr (.inr h))

/-- The `end` slots called for the outputs. -/
theorem close_outputsCalls {cs : List CellOutput} {e : SignEvent}
    (h : (.close, e) ∈ outputsCalls cs) : e = .outputEnd ∨ e = .outputsEnd := by
  rcases List.mem_append.mp h with h | h
  · rcases mem_indexedNotes h with ⟨es, hes, hmem⟩ | ⟨j, hj⟩
    · obtain ⟨c, -, rfl⟩ := List.mem_map.mp hes
      left
      simpa [CellOutput.notes, close_argsNotes, close_typeNotes] using hmem
    · cases hj
  · right
    simpa using h

/-- The `end` slots called for their data. -/
theorem close_outputsDataCalls {ds : List (List UInt8)} {e : SignEvent}
    (h : (.close, e) ∈ outputsDataCalls ds) : e = .dataEnd := by
  rcases mem_indexedNotes h with ⟨es, hes, hmem⟩ | ⟨j, hj⟩
  · obtain ⟨d, -, rfl⟩ := List.mem_map.mp hes
    exact close_itemDataNotes hmem
  · cases hj

theorem close_pathCalls {t : AnnotatedTransaction} {e : SignEvent} (h : (.close, e) ∈ pathCalls t) :
    e = .signPathEnd ∨ e = .changePathEnd := by
  simpa [pathCalls, pathNotes] using h

/-- The state in which the first input is read. -/
def readyInputs (is : List AnnotatedCellInput) (g : SignState) : SignState :=
  if is = [] then inputsStart g else inputStart (blake2bInputCount is.length (inputsStart g))

theorem Begun.readyInputs {g : SignState} (h : Begun g) (env : Env) (is : List AnnotatedCellInput) :
    Begun (readyInputs is g) := by
  have hstart : Begun (inputsStart g) := h.apply env (n := (.void, .inputsStart)) trivial
  unfold SignState.readyInputs
  split_ifs
  · exact hstart
  · have hlength : Begun (blake2bInputCount is.length (inputsStart g)) :=
      hstart.apply env (n := (.void, .inputsLength is.length)) trivial
    exact ⟨hlength.v, hlength.daoCellOwner, hlength.lastInputLockArg, hlength.distinctInputSources,
      hlength.daoInputAmount, hlength.inputAmountFst, hlength.inputAmountSnd,
      hlength.signingMultisigInput⟩

open Bodies in
theorem inputsCalls_read (env : Env) {is : List AnnotatedCellInput} {c : List (Note SignEvent)}
    (hcut : signBodies.Cut (inputsCalls is) c) (g : SignState) :
    ∃ read, Steps (InputStep env) is (readyInputs is g) read ∧
      (signHandler env).replay c g = read.finishInputs := by
  obtain ⟨c, rfl, hcut'⟩ := (cut_call rfl).mp hcut
  obtain ⟨c₁, c₂, rfl, h₁, h₂⟩ := cut_append.mp hcut'
  obtain rfl := cut_notes (by simp [signBodies]) h₂
  unfold readyInputs
  split at h₁
  · rename_i hnil
    obtain rfl := cut_nil.mp h₁
    subst hnil
    exact ⟨_, .nil, rfl⟩
  · rename_i hne
    obtain ⟨c, rfl, h₁'⟩ := (cut_call rfl).mp h₁
    obtain ⟨c, rfl, hitems⟩ := (cut_call rfl).mp h₁'
    have hcomm : ∀ g : SignState, blake2bInputCount is.length (inputStart g) =
        inputStart (blake2bInputCount is.length g) := by
      intro g
      by_cases hne : is.length ≠ g.inputCount
      · rw [blake2bInputCount, blake2bInputCount, if_pos hne, if_pos]
        · rfl
        · exact hne
      · rw [blake2bInputCount, blake2bInputCount, if_neg hne, if_neg]
        · rfl
        · exact hne
    rw [if_neg hne]
    refine ⟨_, inputs_steps env is hitems _, ?_⟩
    rw [← hcomm, Handler.replay_cons, Handler.replay_append]
    rfl

theorem found_replay {e : SignEvent} {c : List (Note SignEvent)} (hc : (.close, e) ∉ c) (env : Env)
    (y : SignState × SignLog) :
    found e ((signHandler env).traced.replay c y).2 = found e y.2 := by
  rw [replay_traced, found_append, found_trail _ _ hc, List.append_nil]

/-- The state once the paths were read. -/
def opened (sdk : Sdk) (t : AnnotatedTransaction) : SignState :=
  (signHandler (openEnv sdk)).replay (pathCalls t) fresh

open Bodies in
/-- The replayed calls of a transaction go through its stages. -/
theorem replayed_opened {c : List (Note SignEvent)} (hcut : signBodies.Cut t.calls c) :
    ∃ s : Stages sdk t, s.begun = readyInputs t.raw.inputs (opened sdk t) ∧
      (replayed sdk c).1 = s.final ∧ found .outputEnd (replayed sdk c).2 = s.sent.2 ∧
      found .dataEnd (replayed sdk c).2 = s.checked.2 := by
  have hcalls : t.calls = pathCalls t ++ inputsCalls t.raw.inputs ++ outputsCalls t.raw.outputs ++
      outputsDataCalls t.raw.outputsData ++ [(.close, .rawEnd)] := rfl
  rw [hcalls] at hcut
  obtain ⟨c', c₅, rfl, hcut, h₅⟩ := cut_append.mp hcut
  obtain ⟨c', c₄, rfl, hcut, h₄⟩ := cut_append.mp hcut
  obtain ⟨c', c₃, rfl, hcut, h₃⟩ := cut_append.mp hcut
  obtain ⟨c₁, c₂, rfl, h₁, h₂⟩ := cut_append.mp hcut
  obtain ⟨c₃', c, rfl, h₃', h⟩ := cut_append.mp h₃
  obtain rfl := cut_notes (fun n hn => (opening_pathCalls t n hn).2) h₁
  obtain rfl := cut_notes (by simp [signBodies]) h₅
  obtain rfl := cut_notes (by simp [signBodies]) h
  have hbegun : Begun (opened sdk t) :=
    begun_fresh.replay (openEnv sdk) fun n hn => (opening_pathCalls t n hn).1
  obtain ⟨read, hinputs, hread⟩ := inputsCalls_read (openEnv sdk) h₂ (opened sdk t)
  have hpath : ∀ e, e = .outputEnd ∨ e = .dataEnd → ((Slot.close, e) : Note SignEvent) ∉
      pathCalls t := by
    rintro e (rfl | rfl) hmem <;> rcases close_pathCalls hmem with h | h <;> cases h
  have hinput : ∀ e, e = .outputEnd ∨ e = .dataEnd → ((Slot.close, e) : Note SignEvent) ∉ c₂ := by
    rintro e (rfl | rfl) hmem <;>
      rcases close_inputsCalls (mem_of_cut h₂ rfl hmem) with h | h | h | h <;> cases h
  have houtput : ((Slot.close, .dataEnd) : Note SignEvent) ∉ c₃' ++ [(.close, .outputsEnd)] := by
    intro hmem
    rcases close_outputsCalls (mem_of_cut h₃ rfl hmem) with h | h <;> cases h
  have hdata : ((Slot.close, .outputEnd) : Note SignEvent) ∉ c₄ := by
    intro hmem
    cases close_outputsDataCalls (mem_of_cut h₄ rfl hmem)
  obtain ⟨y₂, hy₂⟩ : ∃ y, y = (signHandler (openEnv sdk)).traced.replay (pathCalls t ++ c₂)
    (fresh, []) := ⟨_, rfl⟩
  have hstate : y₂.1 = read.finishInputs := by
    rw [hy₂, replay_traced, Handler.replay_append]
    exact hread
  have hnone : ∀ e, e = .outputEnd ∨ e = .dataEnd → found e y₂.2 = [] := by
    intro e he
    rw [hy₂, found_replay]
    · rfl
    · rw [List.mem_append, not_or]
      exact ⟨hpath e he, hinput e he⟩
  have houtputs := outputs_steps (openEnv sdk) _ h₃' y₂
  have hstart : ended .outputEnd y₂ = (read.finishInputs, []) := by
    rw [ended, hstate, hnone _ (.inl rfl)]
  rw [hstart] at houtputs
  have hchecked := outputsData_steps (openEnv sdk) _ h₄
    ((signHandler (openEnv sdk)).traced.replay (c₃' ++ [(.close, .outputsEnd)]) y₂)
  have hnext : ended .dataEnd ((signHandler (openEnv sdk)).traced.replay
      (c₃' ++ [(.close, .outputsEnd)]) y₂) = ((ended .outputEnd
        ((signHandler (openEnv sdk)).traced.replay c₃' y₂)).1.outputsEnd.1, []) := by
    rw [ended, found_replay houtput, hnone _ (.inr rfl), Handler.replay_append]
    rfl
  rw [hnext] at hchecked
  have hend : found .outputEnd ((signHandler (openEnv sdk)).traced.replay
      (c₃' ++ [(.close, .outputsEnd)]) y₂).2 = found .outputEnd
        ((signHandler (openEnv sdk)).traced.replay c₃' y₂).2 := by
    rw [Handler.replay_append, found_replay (by simp)]
  have hall : replayed sdk (pathCalls t ++ c₂ ++ (c₃' ++ [(.close, .outputsEnd)]) ++ c₄ ++
      [(.close, .rawEnd)]) = (signHandler (openEnv sdk)).traced.replay [(.close, .rawEnd)]
        ((signHandler (openEnv sdk)).traced.replay c₄ ((signHandler (openEnv sdk)).traced.replay
          (c₃' ++ [(.close, .outputsEnd)]) y₂)) := by
    rw [replayed, Handler.replay_append, Handler.replay_append, Handler.replay_append, hy₂]
  rw [hall]
  refine ⟨⟨_, read, _, _, hbegun.readyInputs (openEnv sdk) _, hinputs, houtputs, hchecked⟩, rfl,
    ?_, ?_, ?_⟩
  · rw [replay_traced]
    rfl
  · exact (found_replay (by simp) _ _).trans ((found_replay hdata _ _).trans hend)
  · exact found_replay (by simp) _ _

/-! ### Accepted transactions -/

theorem eq_of_mem_plain {s : Slot} {e : SignEvent} {n : Note SignEvent} (h : n ∈ plain s e) :
    n.1 = .void ∨ n = (s, e) := by
  have hpiece : ∀ {k bs}, n ∈ pieceNote k bs → n.1 = .void := by
    intro k bs hn
    unfold pieceNote at hn
    split at hn
    · cases hn
    · rw [List.mem_singleton.mp hn]
      rfl
  unfold plain at h
  split at h
  all_goals first
    | exact .inl (hpiece h)
    | cases h; done
    | exact .inr (List.mem_singleton.mp h)

/-- What the log says of a call with the core of the state it found. -/
theorem found_coreLog {e : SignEvent} (he : plain .close e = [(.close, e)]) (l : SignLog) :
    found e (coreLog l) = (found e l).map core := by
  induction l with
  | nil => rfl
  | cons c l ih =>
    have hcons : coreLog (c :: l) = ((plain c.slot c.event).map fun n => ⟨n.1, n.2, c.state.core⟩) ++
        coreLog l := rfl
    rw [hcons, found_append, ih]
    by_cases hc : c.slot = .close ∧ c.event = e
    · obtain ⟨s, e', g⟩ := c
      obtain ⟨rfl, rfl⟩ := hc
      rw [he]
      simp [found]
    · have hnil : found e ((plain c.slot c.event).map fun n => (⟨n.1, n.2, c.state.core⟩ :
          Call SignEvent SignState)) = [] := by
        rw [found, List.map_eq_nil_iff, List.filter_eq_nil_iff]
        intro d hd
        obtain ⟨n, hn, rfl⟩ := List.mem_map.mp hd
        rcases eq_of_mem_plain hn with hvoid | rfl
        · simp [hvoid]
        · simpa using hc
      rw [hnil, List.nil_append, found, found, List.filter_cons, if_neg (by simpa using hc)]

/-- The stages of an accepted transaction, up to what only the hashes and the witnesses need. -/
theorem Accepts.opened {sent : List Sent} (ha : Accepts sdk sent) (hfit : t.Fits)
    (hp : payload sent = t.encode) : ∃ s : Stages sdk t,
      s.begun = readyInputs t.raw.inputs (SignState.opened sdk t) ∧
      (feedAll sdk sent).1.core = s.final.core ∧
      (found .outputEnd (logOf sdk sent)).map core = s.sent.2.map core ∧
      (found .dataEnd (logOf sdk sent)).map core = s.checked.2.map core := by
  obtain ⟨s, hbegun, hstate, houtputs, hdata⟩ := @replayed_opened sdk t _ (ha.completes.cut hfit hp)
  have hm := ha.matches hfit hp
  have hfound : ∀ e, plain .close e = [(.close, e)] → (found e (logOf sdk sent)).map core =
      (found e (replayed sdk (NervosLedger.calls (logOf sdk sent))).2).map core := by
    intro e he
    rw [← found_coreLog he, logOf, hm.log]
    simp only [found, List.filter_map, List.map_map]
    rfl
  refine ⟨s, hbegun, ?_, ?_, ?_⟩
  · rw [hm.state, ← hstate]
    rfl
  · rw [hfound _ rfl, houtputs]
  · rw [hfound _ rfl, hdata]

theorem Accepts.stages {sent : List Sent} (ha : Accepts sdk sent) (hfit : t.Fits)
    (hp : payload sent = t.encode) : ∃ s : Stages sdk t,
      (feedAll sdk sent).1.core = s.final.core ∧
      (found .outputEnd (logOf sdk sent)).map core = s.sent.2.map core ∧
      (found .dataEnd (logOf sdk sent)).map core = s.checked.2.map core := by
  obtain ⟨s, -, h⟩ := ha.opened hfit hp
  exact ⟨s, h⟩

end SignState
end NervosLedger
