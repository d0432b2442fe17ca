import NervosLedger.Stages
import NervosLedger.Fee

/-!
# The cells that are spent

Inputs come with the transactions whose outputs they spend. What is shown of a transaction depends
on the outputs that are spent and on their data, but on nothing else of these transactions, nor on
the witnesses, nor on how the bytes are cut.
-/
namespace NervosLedger
open Molecule Machine

/-- The same cell with the same data is spent. -/
def AnnotatedCellInput.Alike (i i' : AnnotatedCellInput) : Prop := i.cell = i'.cell ∧ i.data = i'.data

/-- The lock arguments of the cell that is spent fit the buffer they are copied to. -/
def AnnotatedCellInput.Short (i : AnnotatedCellInput) : Prop :=
  ∀ c, i.cell = some c → c.lock.args.length ≤ 28

namespace AnnotatedTransaction

/-- The paths, the cells that are spent, the outputs and their data are the same. -/
structure Alike (t t' : AnnotatedTransaction) : Prop where
  signPath : t.signPath = t'.signPath
  changePath : t.changePath = t'.changePath
  inputCount : t.inputCount = t'.inputCount
  inputs : List.Forall₂ AnnotatedCellInput.Alike t.raw.inputs t'.raw.inputs
  outputs : t.raw.outputs = t'.raw.outputs
  outputsData : t.raw.outputsData = t'.raw.outputsData

/-- All lock arguments that are read fit the buffer they are copied to. -/
structure Short (t : AnnotatedTransaction) : Prop where
  inputs : ∀ i ∈ t.raw.inputs, i.Short
  outputs : ∀ c ∈ t.raw.outputs, c.lock.args.length ≤ 28

end AnnotatedTransaction

namespace SignState

/-! ### Steps on cores -/

/-- What a callback does to the core is a function of the core. -/
def OnCore (f : SignState → SignState) : Prop := ∀ g : SignState, (f g.core).core = (f g).core

theorem OnCore.congr {f : SignState → SignState} (hf : OnCore f) {g g' : SignState}
    (h : g.core = g'.core) : (f g).core = (f g').core := by
  rw [← hf g, h, hf g']

theorem OnCore.comp {f f' : SignState → SignState} (hf' : OnCore f') (hf : OnCore f) :
    OnCore fun g => f' (f g) := by
  intro g
  exact hf'.congr (hf g)

section Input
variable (env : Env)

/-- The arguments of the lock of a cell, as they are copied. -/
def copiedArgs : Option CellOutput → LockArg
  | none => .zero 28
  | some c => .ofList 28 c.lock.args

/-- A cell is spent, and the next input starts. -/
def spend (c : Option CellOutput) (d : Option (List UInt8)) (g : SignState) : SignState :=
  inputStart (readSourceData env (readSource env (copiedArgs c) 0 (inputStart g) c) d)

theorem onCore_readSource (tmp : LockArg) (index : ℕ) (c : Option CellOutput) :
    OnCore fun g => readSource env tmp index g c := by
  intro g
  cases c with
  | none => rfl
  | some c =>
    have hend := core_inputLockArgEnd
      (readLock env .currentLockArg c tmp index (!c.lock.args.isPrefixOf g.currentWindow) g)
    exact OnCore.congr (f := readType env c) (fun _ => rfl) hend

theorem onCore_readSourceData (d : Option (List UInt8)) : OnCore fun g => readSourceData env g d := by
  intro g
  cases d with
  | none => rfl
  | some d => exact core_finishInputCellData (readData d { g with cell.active := true }) env

theorem onCore_spend (c : Option CellOutput) (d : Option (List UInt8)) : OnCore (spend env c d) := by
  have hstart : OnCore inputStart := fun _ => rfl
  exact hstart.comp ((onCore_readSourceData env d).comp
    ((onCore_readSource env (copiedArgs c) 0 c).comp hstart))

/-- Other positions, of the output in its transaction and in its lock arguments. -/
def mark (k n : ℕ) (g : SignState) : SignState := { g with inp.index := k, cell.lockArgIndex := n }

theorem inputLockArgEnd_mark (k n : ℕ) (g : SignState) :
    (mark k n g).inputLockArgEnd = mark k n g.inputLockArgEnd := by
  dsimp only [inputLockArgEnd, mark]
  split_ifs <;> rfl

theorem finishInputCellData_mark (k n : ℕ) (g : SignState) :
    finishInputCellData env (mark k n g) = mark k n (finishInputCellData env g) := by
  dsimp only [finishInputCellData, mark]
  split_ifs <;> rfl

theorem readSource_mark (tmp : LockArg) (index : ℕ) (buf : FixedBytes 4) (g : SignState) :
    ∀ c, ∃ n, readSource env tmp index (inputSaveIndex buf g) c =
      mark (leNat buf.toList) n (readSource env tmp 0 g c)
  | none => ⟨g.cell.lockArgIndex, rfl⟩
  | some c => by
    have hread : readLock env .currentLockArg c tmp index (!c.lock.args.isPrefixOf g.currentWindow)
        (inputSaveIndex buf g) = mark (leNat buf.toList) index
          (readLock env .currentLockArg c tmp 0 (!c.lock.args.isPrefixOf g.currentWindow) g) := rfl
    refine ⟨index, ?_⟩
    change readType env c (inputLockArgEnd (readLock env .currentLockArg c tmp index
      (!c.lock.args.isPrefixOf g.currentWindow) (inputSaveIndex buf g))) = _
    rw [hread, inputLockArgEnd_mark]
    rfl

theorem readSourceData_mark (k n : ℕ) (g : SignState) :
    ∀ d, readSourceData env (mark k n g) d = mark k n (readSourceData env g d)
  | none => rfl
  | some d => finishInputCellData_mark env k n (readData d { g with cell.active := true })

/-- What an input changes in the core is a function of the cell that it spends. -/
theorem InputStep.spends {i : AnnotatedCellInput} {g g' : SignState} (h : InputStep env i g g')
    (hs : i.Short) : g'.core = (spend env i.cell i.data g).core := by
  obtain ⟨tmp, index, htmp, rfl⟩ := h
  have hcopied : readSource env tmp 0 (inputStart g) i.cell =
      readSource env (copiedArgs i.cell) 0 (inputStart g) i.cell := by
    cases hc : i.cell with
    | none => rfl
    | some c => rw [htmp c hc (hs c hc), copiedArgs]
  obtain ⟨n, hread⟩ := readSource_mark env tmp index i.input.previousOutput.index (inputStart g) i.cell
  rw [hread, readSourceData_mark, hcopied]
  rfl

theorem outputEnd_mark (k n : ℕ) (g : SignState) :
    ((mark k n g).outputEnd env).1 = mark k n (g.outputEnd env).1 := by
  dsimp only [outputEnd, daoOutputEnd, plainOutputEnd, mark]
  split_ifs <;> rfl

theorem outputEnd_inp (g : SignState) : (g.outputEnd env).1.inp = g.inp := by
  dsimp only [outputEnd, daoOutputEnd, plainOutputEnd]
  split_ifs <;> rfl

/-- Something is given to a lock, and the next output starts. -/
def give (c : CellOutput) (k : ℕ) (g : SignState) : SignState :=
  outputStart (k + 1) ((outputRead env c k (copiedArgs (some c)) 0 g).outputEnd env).1

theorem onCore_give (c : CellOutput) (k : ℕ) : OnCore (give env c k) := by
  intro g
  have hend := core_outputEnd (outputRead env c k (copiedArgs (some c)) 0 g) env
  exact OnCore.congr (f := outputStart (k + 1)) (fun _ => rfl) hend

theorem OutputStep.gives {x : CellOutput × ℕ} {y y' : Ended} (h : OutputStep env x y y')
    (hs : x.1.lock.args.length ≤ 28) : y'.1.core = (give env x.1 x.2 y.1).core := by
  obtain ⟨tmp, index, htmp, rfl⟩ := h
  have hread : outputRead env x.1 x.2 tmp index y.1 = mark y.1.inp.index index
      (outputRead env x.1 x.2 (copiedArgs (some x.1)) 0 y.1) := by
    rw [htmp hs]
    rfl
  have hinp := outputEnd_inp env (outputRead env x.1 x.2 (copiedArgs (some x.1)) 0 y.1)
  have hindex : y.1.inp.index =
      ((outputRead env x.1 x.2 (copiedArgs (some x.1)) 0 y.1).outputEnd env).1.inp.index := by
    rw [hinp]
    rfl
  rw [hread]
  dsimp only
  rw [outputEnd_mark, hindex]
  rfl

theorem onCore_outputsEnd : OnCore fun g => g.outputsEnd.1 := core_outputsEnd

/-- The data of an output are checked, and the next ones start. -/
def check (d : List UInt8) (k : ℕ) (g : SignState) : SignState :=
  validateOutputDataStart env (k + 1) (finishOutputCellData env (outputDataRead env d k g))

theorem onCore_check (d : List UInt8) (k : ℕ) : OnCore (check env d k) := by
  intro g
  have hend := core_finishOutputCellData (outputDataRead env d k g) env
  exact OnCore.congr (f := validateOutputDataStart env (k + 1)) (fun _ => rfl) hend

end Input

/-! ### Transactions -/

section Transactions
variable {sdk : Sdk} {t t' : AnnotatedTransaction}

theorem core_opened (ha : t.Alike t') :
    (readyInputs t.raw.inputs (opened sdk t)).core =
      (readyInputs t'.raw.inputs (opened sdk t')).core := by
  have hlength := ha.inputs.length_eq
  have hopened : opened sdk t = opened sdk t' := by
    rw [opened, opened, pathCalls, pathCalls, ha.signPath, ha.changePath, ha.inputCount]
  have hnil : t.raw.inputs = [] ↔ t'.raw.inputs = [] := by
    rw [← List.length_eq_zero_iff, ← List.length_eq_zero_iff, hlength]
  unfold readyInputs
  rw [hopened, hlength]
  split_ifs with h h'
  · rfl
  · exact absurd (hnil.mp h) h'
  · exact absurd (hnil.mpr ‹_›) h
  · rfl

theorem Stages.final_core (s : Stages sdk t) (s' : Stages sdk t') (ha : t.Alike t') (hs : t.Short)
    (hbegun : s.begun.core = s'.begun.core) : s.final.core = s'.final.core := by
  have hinputs : List.Forall₂ (fun i i' : AnnotatedCellInput => i.Short ∧ i.Alike i')
      t.raw.inputs t'.raw.inputs :=
    (List.forall₂_and_left _ _).mpr ⟨hs.inputs, ha.inputs⟩
  have hread : s.read.core = s'.read.core := by
    refine Steps.related (I := fun g g' => g.core = g'.core) ?_ hinputs s.inputs s'.inputs hbegun
    rintro i i' g g₁ g' g₁' ⟨hshort, hcell, hdata⟩ hg h h'
    have hshort' : i'.Short := fun c hc => hshort c (hcell.trans hc)
    rw [h.spends (openEnv sdk) hshort, h'.spends (openEnv sdk) hshort', ← hcell, ← hdata]
    exact (onCore_spend (openEnv sdk) i.cell i.data).congr hg
  have houtputs : List.Forall₂ (fun x x' : CellOutput × ℕ => x.1.lock.args.length ≤ 28 ∧ x = x')
      t.raw.outputs.zipIdx t'.raw.outputs.zipIdx := by
    rw [← ha.outputs]
    refine (List.forall₂_and_left _ _).mpr ⟨fun x hx => hs.outputs x.1 ?_, List.forall₂_refl _⟩
    exact List.fst_mem_of_mem_zipIdx hx
  have hsent : s.sent.1.core = s'.sent.1.core := by
    refine Steps.related (I := fun y y' : Ended => y.1.core = y'.1.core) ?_ houtputs s.outputs
      s'.outputs (OnCore.congr (f := finishInputs) (fun _ => rfl) hread)
    rintro x _ y y₁ y' y₁' ⟨hshort, rfl⟩ hy h h'
    rw [h.gives (openEnv sdk) hshort, h'.gives (openEnv sdk) hshort]
    exact (onCore_give (openEnv sdk) x.1 x.2).congr hy
  have hchecked : s.checked.1.core = s'.checked.1.core := by
    have hdata := s'.outputsData
    rw [← ha.outputsData] at hdata
    refine Steps.related (I := fun y y' : Ended => y.1.core = y'.1.core) ?_
      (List.forall₂_same.mpr fun x _ => rfl) s.outputsData hdata (onCore_outputsEnd.congr hsent)
    rintro x _ y y₁ y' y₁' rfl hy rfl rfl
    exact (onCore_check (openEnv sdk) x.1 x.2).congr hy
  exact OnCore.congr (fun g => core_finalizeRawTransaction g (openEnv sdk)) hchecked

/-- However they are cut, two transactions that spend the same cells show the same, if no lock
arguments are cut off. -/
theorem shown_alike {sent sent' : List Sent} (hacc : Accepts sdk sent) (hacc' : Accepts sdk sent')
    (hfit : t.Fits) (hfit' : t'.Fits) (hp : payload sent = t.encode) (hp' : payload sent' = t'.encode)
    (ha : t.Alike t') (hs : t.Short) :
    (accepted sdk sent).core = (accepted sdk sent').core ∧
      ∀ env ins, (accepted sdk sent).signComplete env ins =
        (accepted sdk sent').signComplete env ins := by
  obtain ⟨s, hbegun, hstate, -⟩ := hacc.opened hfit hp
  obtain ⟨s', hbegun', hstate', -⟩ := hacc'.opened hfit' hp'
  have hfinal : (feedAll sdk sent).1.core = (feedAll sdk sent').1.core := by
    rw [hstate, hstate']
    refine s.final_core s' ha hs ?_
    rw [hbegun, hbegun']
    exact core_opened ha
  have hcore : (accepted sdk sent).core = (accepted sdk sent').core :=
    OnCore.congr (f := fun g => { g with isValid := true }) (fun _ => rfl) hfinal
  have hsign : ∀ (env : Env) (ins : UInt8) (g : SignState),
      g.signComplete env ins = g.core.signComplete env ins := fun _ _ _ => rfl
  refine ⟨hcore, fun env ins => ?_⟩
  rw [hsign, hcore, ← hsign]

/-- The payment out of a cell that comes with another one in its transaction. -/
def relatedTransaction : AnnotatedTransaction :=
  sampleTransaction
    [sampleInput [sampleCell sampleLock 10000000001, sampleCell (multisigLockOf []) 7] [[], [1]]]
    [sampleCell (sighashLock (List.replicate 20 0x11)) 10000000000] [[]] [[]]

def relatedPackets : List Sent :=
  ⟨{ p1 := p1First, data := relatedTransaction.encode.take 99 }, {}⟩ ::
    packetsFrom {} p1Next 2 (relatedTransaction.encode.drop 99)

theorem payment_shown_alike :
    (accepted (keySdk []) (paymentPackets 10000000001 10000000000)).core =
      (accepted (keySdk []) relatedPackets).core := by
  obtain ⟨ha, -⟩ := @accepts_of_run (keySdk []) (paymentPackets 10000000001 10000000000)
    (fun _ => true) (by decide +kernel) (by decide +kernel)
  obtain ⟨ha', -⟩ := @accepts_of_run (keySdk []) relatedPackets (fun _ => true)
    (by decide +kernel) (by decide +kernel)
  refine (@shown_alike (keySdk []) (paymentTransaction 10000000001 10000000000) relatedTransaction
    _ _ ha ha' (by decide +kernel) (by decide +kernel) (by decide +kernel) (by decide +kernel)
    ⟨rfl, rfl, rfl, .cons ⟨rfl, rfl⟩ .nil, rfl, rfl⟩ ⟨?_, ?_⟩).1
  · intro i hi c hc
    obtain rfl := List.mem_singleton.mp hi
    cases hc
    decide
  · intro c hc
    obtain rfl := List.mem_singleton.mp hc
    decide

end Transactions
end SignState
end NervosLedger
