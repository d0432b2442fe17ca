import NervosLedger.CellReads
import NervosLedger.LooseArgs
import NervosLedger.Machine.Steps

/-!
# Inputs, outputs and data as steps

The calls for an input, an output or an item of data are a step of the state, however the lock
arguments and data are cut into pieces.
-/
namespace NervosLedger
open Molecule Machine

/-! ### Calls and their log -/

section Found
variable {E σ ε : Type} (h : Handler E σ ε)

/-- The log of some calls. -/
def Molecule.Handler.trail : List (Note E) → σ → Log E σ
  | [], _ => []
  | n :: c, g => ⟨n.1, n.2, g⟩ :: Handler.trail c (h.apply n g)

theorem replay_traced (c : List (Note E)) (y : σ × Log E σ) :
    h.traced.replay c y = (h.replay c y.1, y.2 ++ h.trail c y.1) := by
  induction c generalizing y with
  | nil => simp [Handler.trail]
  | cons n c ih =>
    rw [Handler.replay_cons, SignState.apply_traced, ih, Handler.replay_cons, Handler.trail,
      List.append_assoc]
    rfl

variable [DecidableEq E]

/-- The states in which the `end` slot of `e` was called. -/
def found (e : E) (l : Log E σ) : List σ :=
  (l.filter fun c => c.slot = .close ∧ c.event = e).map fun c => c.state

@[simp] theorem found_nil (e : E) : found e ([] : Log E σ) = [] := rfl

@[simp] theorem found_append (e : E) (l l' : Log E σ) :
    found e (l ++ l') = found e l ++ found e l' := by
  simp [found]

theorem found_trail (e : E) {c : List (Note E)} (hc : (.close, e) ∉ c) (g : σ) :
    found e (h.trail c g) = [] := by
  induction c generalizing g with
  | nil => rfl
  | cons n c ih =>
    rw [List.mem_cons, not_or] at hc
    have hrest := ih hc.2 (h.apply n g)
    have hn : ¬ (n.1 = .close ∧ n.2 = e) := fun hn => hc.1 (Prod.ext hn.1.symm hn.2.symm)
    simp only [found, Handler.trail] at hrest ⊢
    rw [List.filter_cons, if_neg (by simpa using hn), hrest]

theorem found_trail_last (e : E) {c : List (Note E)} (hc : (.close, e) ∉ c) (g : σ) :
    found e (h.trail (c ++ [(.close, e)]) g) = [h.replay c g] := by
  induction c generalizing g with
  | nil => simp [found, Handler.trail]
  | cons n c ih =>
    rw [List.mem_cons, not_or] at hc
    have hrest := ih hc.2 (h.apply n g)
    have hn : ¬ (n.1 = .close ∧ n.2 = e) := fun hn => hc.1 (Prod.ext hn.1.symm hn.2.symm)
    simp only [found, Handler.trail, List.cons_append] at hrest ⊢
    rw [List.filter_cons, if_neg (by simpa using hn), hrest, Handler.replay_cons]

end Found

/-! ### Items -/

section Items
variable {E σ ε T α : Type} {b : Bodies (Note E) T} (h : Handler E σ ε)
open Bodies

/-- The calls of the items of a vector are steps, from states that are ready for the next one. -/
theorem items_steps {R : α × ℕ → σ → σ → Prop} {P : ℕ → σ → Prop} {after : ℕ → List (Note E)}
    {notes : α → List (Note E)}
    (hR : ∀ {x k c a g}, P k g → b.Cut (notes x) c → b.Cut (after (k + 1)) a →
      R (x, k) g (h.replay a (h.replay c g)) ∧ P (k + 1) (h.replay a (h.replay c g)))
    {xs : List α} {k : ℕ} {c : List (Note E)} (hcut : b.Cut (itemNotes after k (xs.map notes)) c)
    {g : σ} (hP : P k g) :
    Steps R (xs.zipIdx k) g (h.replay c g) ∧ P (k + xs.length) (h.replay c g) := by
  induction xs generalizing k c g with
  | nil =>
    rw [cut_nil.mp hcut]
    exact ⟨.nil, hP⟩
  | cons x xs ih =>
    rw [List.map_cons, itemNotes, List.append_assoc] at hcut
    obtain ⟨c₁, c', rfl, h₁, hcut⟩ := cut_append.mp hcut
    obtain ⟨c₂, c₃, rfl, h₂, h₃⟩ := cut_append.mp hcut
    obtain ⟨hstep, hnext⟩ := hR hP h₁ h₂
    obtain ⟨hsteps, hlast⟩ := ih h₃ hnext
    rw [Handler.replay_append, Handler.replay_append, List.zipIdx_cons, List.length_cons,
      ← Nat.add_assoc, Nat.add_right_comm]
    exact ⟨.cons hstep hsteps, hlast⟩

/-- The calls of a vector that tells the number of each item beforehand. -/
theorem cut_indexedNotes {index : ℕ → SignEvent} (hindex : ∀ k, signBodies.body (.void, index k) = none)
    {x : α} {xs : List α} {notes : α → List (Note SignEvent)} {c : List (Note SignEvent)}
    (h : signBodies.Cut (indexedNotes index ((x :: xs).map notes)) c) :
    ∃ c', c = (.void, index 0) :: c' ∧ signBodies.Cut (itemNotes (fun k => [(.void, index k)]) 0
      ((x :: xs).map notes)) c' := by
  rw [indexedNotes, if_neg (by simp)] at h
  obtain ⟨c₁, c', rfl, h₁, hitems⟩ := (@cut_append _ _ _ [_] _ _).mp h
  obtain rfl := cut_notes (by simpa using hindex 0) h₁
  exact ⟨c', rfl, hitems⟩

end Items

/-! ### Inputs -/

/-- The number of the output that the input spends. -/
def AnnotatedCellInput.index (i : AnnotatedCellInput) : ℕ :=
  leNat i.input.previousOutput.index.toList

/-- The cell that the input spends, if its source has one at the index. -/
def AnnotatedCellInput.cell (i : AnnotatedCellInput) : Option CellOutput := i.source.outputs[i.index]?

/-- The data of that cell, if the source has any. -/
def AnnotatedCellInput.data (i : AnnotatedCellInput) : Option (List UInt8) :=
  i.source.outputsData[i.index]?

namespace SignState
variable (env : Env)

/-- The state once the cell that an input spends was read. -/
def readSource (tmp : LockArg) (index : ℕ) (g : SignState) : Option CellOutput → SignState
  | none => g
  | some c => readType env c
    (readLock env .currentLockArg c tmp index
      (!c.lock.args.isPrefixOf g.currentWindow) g).inputLockArgEnd

/-- The state once its data were read as well. -/
def readSourceData (g : SignState) : Option (List UInt8) → SignState
  | none => g
  | some d => finishInputCellData env (readData d { g with cell.active := true })

/-- An input, and the start of the next one. -/
def InputStep (i : AnnotatedCellInput) (g g' : SignState) : Prop :=
  ∃ tmp index, (∀ c, i.cell = some c → c.lock.args.length ≤ 28 → tmp = .ofList 28 c.lock.args) ∧
    g' = inputStart (finishContextTxn env (readSourceData env
      (readSource env tmp index (inputSaveIndex i.input.previousOutput.index (inputStart g)) i.cell)
      i.data))

/-- What a cell that is not the one of the index leaves of the state. -/
def PassesOver (g g' : SignState) : Prop :=
  ∃ active dataSize, g' = { g with cell.active := active, cell.dataSize := dataSize }

theorem PassesOver.refl (g : SignState) : PassesOver g g := ⟨_, _, rfl⟩

theorem PassesOver.trans {g g' g'' : SignState} (h : PassesOver g g') (h' : PassesOver g' g'') :
    PassesOver g g'' := by
  obtain ⟨active, dataSize, rfl⟩ := h
  obtain ⟨active', dataSize', rfl⟩ := h'
  exact ⟨active', dataSize', rfl⟩

theorem passesOver_index (k : ℕ) (g : SignState) : PassesOver g (inputContextStartIdx k g) :=
  ⟨_, _, rfl⟩

/-- A cell of a source, and the index of the next one. -/
def SourceStep (idx : ℕ) (x : CellOutput × ℕ) (g g' : SignState) : Prop :=
  if x.2 = idx then ∃ tmp index, (x.1.lock.args.length ≤ 28 → tmp = .ofList 28 x.1.lock.args) ∧
    g' = inputContextStartIdx (x.2 + 1) (readSource env tmp index g x.1)
  else PassesOver g g'

/-- The state is ready for cell `k` of the source. -/
structure AtSource (idx k : ℕ) (g : SignState) : Prop where
  index : g.inp.index = idx
  active : g.cell.active = decide (k = idx)
  fresh : k ≤ idx → g.cell = { active := decide (k = idx) } ∧ g.lockArgTmp = .zero 28

theorem readSource_inp (tmp : LockArg) (index : ℕ) (g : SignState) (c : CellOutput) :
    (readSource env tmp index g c).inp.index = g.inp.index := by
  have hend : ∀ g : SignState, g.inputLockArgEnd.inp.index = g.inp.index := by
    intro g
    simp only [inputLockArgEnd]
    split_ifs <;> rfl
  exact hend _

open Bodies in
theorem source_step {x : CellOutput} {idx k : ℕ} {c a : List (Note SignEvent)} {g : SignState}
    (hg : AtSource idx k g) (hc : signBodies.Cut x.sourceNotes c)
    (ha : signBodies.Cut [(.void, .sourceOutputsIndex (k + 1))] a) :
    SourceStep env idx (x, k) g ((signHandler env).replay a ((signHandler env).replay c g)) ∧
      AtSource idx (k + 1) ((signHandler env).replay a ((signHandler env).replay c g)) := by
  obtain rfl := cut_notes (by simp [signBodies]) ha
  have hindex : ∀ g, (signHandler env).replay [(.void, .sourceOutputsIndex (k + 1))] g =
      inputContextStartIdx (k + 1) g := fun _ => rfl
  rw [hindex, SourceStep]
  by_cases hk : k = idx
  · obtain ⟨hcell, htmp⟩ := hg.fresh hk.le
    rw [decide_eq_true hk] at hcell
    obtain ⟨tmp, index, hfits, hread⟩ := sourceCell_eq env x hc hcell htmp
    have hsource : (signHandler env).replay c g = readSource env tmp index g x := hread
    rw [hsource, if_pos hk]
    refine ⟨⟨tmp, index, hfits, rfl⟩, ?_, ?_, fun hle => ?_⟩
    · exact (readSource_inp env tmp index g x).trans hg.index
    · change decide (k + 1 = (readSource env tmp index g x).inp.index) = _
      rw [readSource_inp, hg.index]
    · omega
  · have hactive : g.cell.active = false := hg.active.trans (decide_eq_false hk)
    rw [sourceCell_inactive env x hc hactive, if_neg hk]
    refine ⟨passesOver_index _ _, hg.index, ?_, fun hle => ?_⟩
    · change decide (k + 1 = g.inp.index) = _
      rw [hg.index]
    · obtain ⟨hcell, htmp⟩ := hg.fresh (by omega)
      refine ⟨?_, htmp⟩
      change { g.cell with active := decide (k + 1 = g.inp.index) } = _
      rw [hcell, hg.index]

/-- The cells of the source of an input. -/
theorem sources_eq (cs : List CellOutput) {c : List (Note SignEvent)}
    (hcut : signBodies.Cut (indexedNotes .sourceOutputsIndex (cs.map CellOutput.sourceNotes)) c)
    {g : SignState} (hcell : g.cell = {}) (htmp : g.lockArgTmp = .zero 28) :
    ∃ tmp index, (∀ x, cs[g.inp.index]? = some x → x.lock.args.length ≤ 28 →
      tmp = .ofList 28 x.lock.args) ∧
        PassesOver (readSource env tmp index g cs[g.inp.index]?) ((signHandler env).replay c g) := by
  cases cs with
  | nil =>
    obtain rfl := Bodies.cut_nil.mp hcut
    exact ⟨.zero 28, 0, by simp, .refl g⟩
  | cons x xs =>
    obtain ⟨c, rfl, hitems⟩ := cut_indexedNotes (fun _ => by simp [signBodies]) hcut
    have hready : AtSource g.inp.index 0 (inputContextStartIdx 0 g) :=
      ⟨rfl, rfl, fun _ => ⟨by simp [inputContextStartIdx, hcell], htmp⟩⟩
    have hsteps := (items_steps (signHandler env) (fun hP hc ha => source_step env hP hc ha) hitems
      hready).1
    rw [Handler.replay_cons]
    rcases hsteps.lookup PassesOver.refl PassesOver.trans fun x k s s' hk h => by
        rwa [SourceStep, if_neg hk] at h with ⟨hnone, hpass⟩ | ⟨x, s₁, s₂, hx, h₁, h₂, h₃⟩
    · rw [hnone]
      exact ⟨.zero 28, 0, by simp, (passesOver_index 0 g).trans hpass⟩
    · rw [SourceStep, if_pos rfl] at h₂
      obtain ⟨tmp, index, hfits, rfl⟩ := h₂
      obtain ⟨active, dataSize, rfl⟩ := (passesOver_index 0 g).trans h₁
      rw [hx]
      refine ⟨tmp, index, ?_, (passesOver_index _ _).trans h₃⟩
      rintro _ ⟨rfl⟩
      exact hfits

/-- The data of a cell of a source, and the index of the next one. -/
def SourceDataStep (idx : ℕ) (x : List UInt8 × ℕ) (g g' : SignState) : Prop :=
  if x.2 = idx then g.cell.active = true ∧
    g' = inputContextStartIdx (x.2 + 1) (finishInputCellData env (readData x.1 g))
  else PassesOver g g'

/-- The state is ready for the data of cell `k` of the source. -/
structure AtSourceData (idx k : ℕ) (g : SignState) : Prop where
  index : g.inp.index = idx
  active : g.cell.active = decide (k = idx)

theorem finishInputCellData_inp (g : SignState) : (g.finishInputCellData env).inp = g.inp := by
  simp only [finishInputCellData, reject]
  split_ifs <;> rfl

open Bodies in
theorem sourceData_step {x : List UInt8} {idx k : ℕ} {c a : List (Note SignEvent)} {g : SignState}
    (hg : AtSourceData idx k g) (hc : signBodies.Cut (sourceDataNotes x) c)
    (ha : signBodies.Cut [(.void, .sourceDataIndex (k + 1))] a) :
    SourceDataStep env idx (x, k) g ((signHandler env).replay a ((signHandler env).replay c g)) ∧
      AtSourceData idx (k + 1) ((signHandler env).replay a ((signHandler env).replay c g)) := by
  obtain rfl := cut_notes (by simp [signBodies]) ha
  obtain ⟨front, rfl, -, hread⟩ := itemData_eq (k := .sourceData) (h := signHandler env)
    (fun _ => rfl) (fun _ => rfl) (fun _ => rfl) (fun _ => rfl) rfl hc g
  have hreplay : (signHandler env).replay [(.void, .sourceDataIndex (k + 1))]
      ((signHandler env).replay (front ++ [(.close, .sourceDataEnd)]) g) =
        inputContextStartIdx (k + 1) (finishInputCellData env (readData x g)) := by
    rw [Handler.replay_append, hread]
    rfl
  have hindex : (inputContextStartIdx (k + 1) (finishInputCellData env (readData x g))).inp.index =
      idx := by
    rw [← hg.index]
    exact congrArg InputView.index (finishInputCellData_inp env _)
  have hactive : (inputContextStartIdx (k + 1)
      (finishInputCellData env (readData x g))).cell.active = decide (k + 1 = idx) := by
    rw [← hindex]
    rfl
  rw [hreplay, SourceDataStep]
  refine ⟨?_, hindex, hactive⟩
  by_cases hk : k = idx
  · rw [if_pos hk]
    exact ⟨hg.active.trans (decide_eq_true hk), rfl⟩
  · have hinactive : g.cell.active = false := hg.active.trans (decide_eq_false hk)
    have hend : finishInputCellData env (readData x g) = readData x g := by
      rw [finishInputCellData, readData, if_pos (by simp [hinactive])]
    rw [if_neg hk, hend]
    refine ⟨k + 1 = g.inp.index, min 15 x.length, ?_⟩
    simp [readData, hinactive, inputContextStartIdx]

/-- The data of the cells of the source of an input. -/
theorem sourcesData_eq (ds : List (List UInt8)) {c : List (Note SignEvent)}
    (hcut : signBodies.Cut (indexedNotes .sourceDataIndex (ds.map sourceDataNotes)) c)
    (g : SignState) : ∃ cell, (signHandler env).replay c g =
      { readSourceData env g ds[g.inp.index]? with cell := cell } := by
  cases ds with
  | nil =>
    obtain rfl := Bodies.cut_nil.mp hcut
    exact ⟨g.cell, rfl⟩
  | cons x xs =>
    obtain ⟨c, rfl, hitems⟩ := cut_indexedNotes (fun _ => by simp [signBodies]) hcut
    have hready : AtSourceData g.inp.index 0 (inputContextStartIdx 0 g) := ⟨rfl, rfl⟩
    have hsteps := (items_steps (signHandler env) (fun hP hc ha => sourceData_step env hP hc ha)
      hitems hready).1
    rw [Handler.replay_cons]
    rcases hsteps.lookup PassesOver.refl PassesOver.trans fun x k s s' hk h => by
        rwa [SourceDataStep, if_neg hk] at h with ⟨hnone, hpass⟩ | ⟨x, s₁, s₂, hx, h₁, h₂, h₃⟩
    · obtain ⟨active, dataSize, heq⟩ := (passesOver_index 0 g).trans hpass
      rw [hnone]
      exact ⟨_, heq⟩
    · rw [SourceDataStep, if_pos rfl] at h₂
      obtain ⟨hactive, rfl⟩ := h₂
      obtain ⟨active, dataSize, rfl⟩ := (passesOver_index 0 g).trans h₁
      obtain rfl : active = true := hactive
      obtain ⟨active, dataSize, heq⟩ := (passesOver_index _ _).trans h₃
      rw [hx]
      exact ⟨_, heq⟩

theorem readSource_index (tmp : LockArg) (index : ℕ) (g : SignState) (c : Option CellOutput) :
    (readSource env tmp index g c).inp.index = g.inp.index := by
  cases c with
  | none => rfl
  | some c => exact readSource_inp env tmp index g c

/-- The cell is the one of `g` but for what is set before the data of a cell are read. -/
theorem readSourceData_passes {g g' : SignState} (h : PassesOver g g') (d : Option (List UInt8)) :
    ∃ cell, readSourceData env g' d = { readSourceData env g d with cell := cell } := by
  obtain ⟨active, dataSize, rfl⟩ := h
  cases d with
  | none => exact ⟨_, rfl⟩
  | some d => exact ⟨_, rfl⟩

open Bodies in
theorem input_step {i : AnnotatedCellInput} {c a : List (Note SignEvent)} {g : SignState}
    (hg : inputStart g = g) (hc : signBodies.Cut i.calls c)
    (ha : signBodies.Cut [(.void, .inputStart)] a) :
    InputStep env i g ((signHandler env).replay a ((signHandler env).replay c g)) ∧
      inputStart ((signHandler env).replay a ((signHandler env).replay c g)) =
        (signHandler env).replay a ((signHandler env).replay c g) := by
  obtain rfl := cut_notes (by simp [signBodies]) ha
  rw [AnnotatedCellInput.calls, RawTransaction.sourceCalls] at hc
  obtain ⟨c₁, c', rfl, h₁, hc'⟩ := (@cut_append _ _ _ [_] _ _).mp hc
  obtain ⟨c', c₄, rfl, hc', h₄⟩ := cut_append.mp hc'
  obtain ⟨c₂, c₃, rfl, h₂, h₃⟩ := cut_append.mp hc'
  obtain rfl := cut_notes (by simp [signBodies]) h₁
  obtain rfl := cut_notes (by simp [signBodies]) h₄
  have hcell : g.cell = {} := by rw [← hg]; rfl
  have htmp : g.lockArgTmp = .zero 28 := by rw [← hg]; rfl
  obtain ⟨tmp, index, hfits, hsource⟩ := sources_eq env _ h₂
    (g := inputSaveIndex i.input.previousOutput.index g) hcell htmp
  have hinp : ((signHandler env).replay c₂ (inputSaveIndex i.input.previousOutput.index g)).inp.index =
      i.index := by
    obtain ⟨active, dataSize, heq⟩ := hsource
    rw [heq]
    exact readSource_index env tmp index _ _
  obtain ⟨cell, hdata⟩ := sourcesData_eq env _ h₃
    ((signHandler env).replay c₂ (inputSaveIndex i.input.previousOutput.index g))
  obtain ⟨cell', hpass⟩ := readSourceData_passes env hsource i.data
  have hread : (signHandler env).replay c₃ ((signHandler env).replay c₂
      (inputSaveIndex i.input.previousOutput.index g)) =
        { readSourceData env (readSource env tmp index
            (inputSaveIndex i.input.previousOutput.index g) i.cell) i.data with cell := cell } := by
    rw [hdata, hinp]
    change { readSourceData env _ i.data with cell := cell } = _
    rw [hpass]
    rfl
  rw [Handler.replay_append, Handler.replay_append, Handler.replay_append]
  have hfirst : (signHandler env).replay [(.void, .inputIndex i.input.previousOutput.index)] g =
      inputSaveIndex i.input.previousOutput.index g := rfl
  rw [hfirst, hread]
  refine ⟨⟨tmp, index, hfits, ?_⟩, rfl⟩
  rw [hg]
  rfl

/-- The inputs, once the first one was started. -/
theorem inputs_steps (is : List AnnotatedCellInput) {c : List (Note SignEvent)}
    (hcut : signBodies.Cut (itemNotes (fun _ => [(.void, .inputStart)]) 0
      (is.map AnnotatedCellInput.calls)) c) (g : SignState) :
    Steps (InputStep env) is (inputStart g) ((signHandler env).replay c (inputStart g)) := by
  have hsteps := (items_steps (signHandler env) (R := fun x => InputStep env x.1)
    (P := fun _ g => inputStart g = g) (fun hP hc ha => input_step env hP hc ha) hcut
    (g := inputStart g) rfl).1
  have hitems := hsteps.items Prod.fst
  rwa [List.zipIdx_map_fst] at hitems

end SignState

/-! ### Outputs -/

namespace SignState
variable (env : Env)

/-- The states in which `output_end` is called, beside the state. -/
abbrev Ended := SignState × List SignState

/-- The view of the log that a stage adds to. -/
def ended (e : SignEvent) (y : SignState × SignLog) : Ended := (y.1, found e y.2)

open Bodies in
/-- The items of a vector are steps, of which the first one begins with the call for its number. -/
theorem indexed_steps {α : Type} {index : ℕ → SignEvent} {e : SignEvent}
    {notes : α → List (Note SignEvent)} {R : α × ℕ → Ended → Ended → Prop}
    {P : ℕ → SignState → Prop} (hindex : ∀ k, signBodies.body (.void, index k) = none)
    (hR : ∀ {x k c a} {y : SignState × SignLog}, P k y.1 → signBodies.Cut (notes x) c →
      signBodies.Cut [(.void, index (k + 1))] a →
      R (x, k) (ended e y) (ended e ((signHandler env).traced.replay a
        ((signHandler env).traced.replay c y))) ∧
          P (k + 1) ((signHandler env).traced.replay a ((signHandler env).traced.replay c y)).1)
    (hP : ∀ g, P 0 (runCallback env (index 0) g))
    (hfirst : ∀ x g l y', R (x, 0) (runCallback env (index 0) g, l) y' → R (x, 0) (g, l) y')
    {xs : List α} {c : List (Note SignEvent)}
    (hcut : signBodies.Cut (indexedNotes index (xs.map notes)) c) (y : SignState × SignLog) :
    Steps R xs.zipIdx (ended e y) (ended e ((signHandler env).traced.replay c y)) := by
  cases xs with
  | nil =>
    obtain rfl := cut_nil.mp hcut
    exact .nil
  | cons x xs =>
    obtain ⟨c, rfl, hitems⟩ := cut_indexedNotes hindex hcut
    have hsteps := (items_steps (signHandler env).traced
      (R := fun x y y' => R x (ended e y) (ended e y')) (P := fun k y => P k y.1) hR hitems
      (g := (signHandler env).traced.apply (.void, index 0) y) (hP y.1)).1
    rw [Handler.replay_cons]
    have hstart : ended e ((signHandler env).traced.apply (.void, index 0) y) =
        (runCallback env (index 0) y.1, found e y.2) := by
      rw [SignState.apply_traced, ended, found_append]
      exact Prod.ext rfl (List.append_nil _)
    have hmapped := hsteps.map (ended e) fun _ _ _ h => h
    rw [hstart] at hmapped
    cases hmapped with
    | cons h hs => exact .cons (hfirst _ _ _ _ h) hs

/-- What `output_end` finds of an output. -/
def outputRead (c : CellOutput) (k : ℕ) (tmp : LockArg) (index : ℕ) (g : SignState) : SignState :=
  readType env c (readLock env .changeLockArg c tmp index (!c.lock.args.isPrefixOf g.changeWindow)
    { g with tx.currentOutputIndex := k })

/-- The output at an index, and the start of the next one. -/
def OutputStep (x : CellOutput × ℕ) (y y' : Ended) : Prop :=
  ∃ tmp index, (x.1.lock.args.length ≤ 28 → tmp = .ofList 28 x.1.lock.args) ∧
    y' = (outputStart (x.2 + 1) ((outputRead env x.1 x.2 tmp index y.1).outputEnd env).1,
      y.2 ++ [outputRead env x.1 x.2 tmp index y.1])

/-- The state is the one that `output_start` leaves. -/
structure AtOutput (k : ℕ) (g : SignState) : Prop where
  cell : g.cell = { active := true }
  lockArgTmp : g.lockArgTmp = .zero 28
  lockArgCmp : g.lockArgCmp = .changeLockArg
  index : g.tx.currentOutputIndex = k

theorem atOutput_outputStart (k : ℕ) (g : SignState) : AtOutput k (outputStart k g) :=
  ⟨rfl, rfl, rfl, rfl⟩

open Bodies in
theorem output_step {x : CellOutput} {k : ℕ} {c a : List (Note SignEvent)} {y : SignState × SignLog}
    (hy : AtOutput k y.1) (hc : signBodies.Cut x.notes c)
    (ha : signBodies.Cut [(.void, .outputsIndex (k + 1))] a) :
    OutputStep env (x, k) (ended .outputEnd y) (ended .outputEnd ((signHandler env).traced.replay a
      ((signHandler env).traced.replay c y))) ∧ AtOutput (k + 1)
        ((signHandler env).traced.replay a ((signHandler env).traced.replay c y)).1 := by
  obtain ⟨front, rfl, hfront, tmp, index, htmp, hread⟩ :=
    outputCell_eq env x hc hy.cell hy.lockArgTmp hy.lockArgCmp
  obtain rfl := cut_notes (by simp [signBodies]) ha
  have hindex : { y.1 with tx.currentOutputIndex := k } = y.1 := by rw [← hy.index]
  have hfound : (signHandler env).replay front y.1 = outputRead env x k tmp index y.1 := by
    rw [hread, outputRead, hindex]
  have hstate : (signHandler env).replay [(.void, .outputsIndex (k + 1))]
      ((signHandler env).replay (front ++ [(.close, .outputEnd)]) y.1) =
        outputStart (k + 1) ((outputRead env x k tmp index y.1).outputEnd env).1 := by
    rw [Handler.replay_append, hfound]
    rfl
  simp only [replay_traced]
  refine ⟨⟨tmp, index, htmp, ?_⟩, ?_⟩
  · rw [ended, found_append, found_append, found_trail_last _ _ hfront,
      found_trail _ _ (by simp), List.append_nil, hstate, hfound]
    rfl
  · rw [hstate]
    exact atOutput_outputStart _ _

theorem outputs_steps (cs : List CellOutput) {c : List (Note SignEvent)}
    (hcut : signBodies.Cut (indexedNotes .outputsIndex (cs.map CellOutput.notes)) c)
    (y : SignState × SignLog) : Steps (OutputStep env) cs.zipIdx (ended .outputEnd y)
      (ended .outputEnd ((signHandler env).traced.replay c y)) :=
  indexed_steps env (fun _ => by simp [signBodies]) (fun hP hc ha => output_step env hP hc ha)
    (atOutput_outputStart 0) (fun _ _ _ _ h => h) hcut y

/-! ### The data of the outputs -/

/-- What `finish_output_cell_data` finds of the data of an output. -/
def outputDataRead (d : List UInt8) (k : ℕ) (g : SignState) : SignState :=
  readData d (validateOutputDataStart env k g)

/-- The data of the output at an index, and the start of the next ones. -/
def OutputDataStep (x : List UInt8 × ℕ) (y y' : Ended) : Prop :=
  y' = (validateOutputDataStart env (x.2 + 1)
      (finishOutputCellData env (outputDataRead env x.1 x.2 y.1)),
    y.2 ++ [outputDataRead env x.1 x.2 y.1])

open Bodies in
theorem outputData_step {x : List UInt8} {k : ℕ} {c a : List (Note SignEvent)}
    {y : SignState × SignLog} (hy : validateOutputDataStart env k y.1 = y.1)
    (hc : signBodies.Cut (outputDataNotes x) c)
    (ha : signBodies.Cut [(.void, .dataIndex (k + 1))] a) :
    OutputDataStep env (x, k) (ended .dataEnd y) (ended .dataEnd ((signHandler env).traced.replay a
      ((signHandler env).traced.replay c y))) ∧ validateOutputDataStart env (k + 1)
        ((signHandler env).traced.replay a ((signHandler env).traced.replay c y)).1 =
          ((signHandler env).traced.replay a ((signHandler env).traced.replay c y)).1 := by
  obtain rfl := cut_notes (by simp [signBodies]) ha
  obtain ⟨front, rfl, hfront, hread⟩ := itemData_eq (k := .outputData) (h := signHandler env)
    (fun _ => rfl) (fun _ => rfl) (fun _ => rfl) (fun _ => rfl) rfl hc y.1
  have hfound : (signHandler env).replay front y.1 = outputDataRead env x k y.1 := by
    rw [hread, outputDataRead, hy]
  have hstate : (signHandler env).replay [(.void, .dataIndex (k + 1))]
      ((signHandler env).replay (front ++ [(.close, .dataEnd)]) y.1) = validateOutputDataStart env
        (k + 1) (finishOutputCellData env (outputDataRead env x k y.1)) := by
    rw [Handler.replay_append, hfound]
    rfl
  have hclose : ((Slot.close, SignEvent.dataEnd) : Note SignEvent) ∉ front :=
    fun hmem => hfront _ hmem rfl
  simp only [replay_traced]
  refine ⟨?_, ?_⟩
  · rw [OutputDataStep, ended, found_append, found_append, found_trail_last _ _ hclose,
      found_trail _ _ (by simp), List.append_nil, hstate, hfound]
    rfl
  · rw [hstate]
    rfl

theorem outputsData_steps (ds : List (List UInt8)) {c : List (Note SignEvent)}
    (hcut : signBodies.Cut (outputsDataCalls ds) c) (y : SignState × SignLog) :
    Steps (OutputDataStep env) ds.zipIdx (ended .dataEnd y)
      (ended .dataEnd ((signHandler env).traced.replay c y)) :=
  indexed_steps env (P := fun k g => validateOutputDataStart env k g = g)
    (fun _ => by simp [signBodies]) (fun hP hc ha => outputData_step env hP hc ha)
    (fun _ => rfl) (fun _ _ _ _ h => h) hcut y

end SignState
end NervosLedger
