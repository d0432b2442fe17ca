import NervosLedger.Calls
import NervosLedger.SigningGate

/-!
# The core of a transaction exchange

Without the hash contexts and the witnesses, the state of an exchange that no callback rejects is a
function of the calls that are listed for its transaction. The settings only matter for what is
rejected.
-/
namespace NervosLedger
open Molecule
namespace SignState

/-- The state without what only the hashes and the witnesses need. -/
def core (g : SignState) : SignState :=
  { g with
    transactionStack := .zero
    hashState := {}
    inp.hashState := {}
    tx.witnessMultisigLockArgConsumed := 0
    tx.witnessStack := .zero
    tx.transactionHash := .zero 32
    tx.finalHash := .zero 32
    tx.witnessMultisigThreshold := 0
    tx.witnessMultisigPubkeysCnt := 0
    tx.isFirstWitness := false
    tx.firstWitnessDone := false }

/-- The settings under which the least is rejected. -/
def openEnv (sdk : Sdk) : Env := ⟨sdk, { allowContractData := true }, []⟩

/-- A callback has rejected the transaction. -/
def Refused (g : SignState) : Prop := g.isUnsafe = true ∨ g.hardReject = true

theorem Onward.refused {g g' : SignState} (h : Onward g g') (hr : g.Refused) : g'.Refused :=
  hr.imp h.isUnsafe h.hardReject

/-! ### The settings -/

section Open
variable (env : Env) (g : SignState)

theorem runCell_open {e : CellEvent} (hu : (runCell env e g).isUnsafe = false) :
    runCell env e g = runCell (openEnv env.sdk) e g := by
  cases e with
  | lockCodeHash buf =>
    simp only [runCell, cellLockCodeHash, openEnv] at hu ⊢
    split_ifs at hu ⊢ <;> first | rfl | cases hu
  | lockHashType hashType =>
    simp only [runCell, cellScriptHashType, openEnv] at hu ⊢
    split_ifs at hu ⊢ <;> first | rfl | simp_all [reject]
  | typeHashType hashType =>
    simp only [runCell, cellScriptHashType, openEnv] at hu ⊢
    split_ifs at hu ⊢ <;> first | rfl | simp_all [reject]
  | typeCodeHash buf =>
    simp only [runCell, cellTypeCodeHash, openEnv] at hu ⊢
    split_ifs at hu ⊢ <;> first | rfl | cases hu
  | _ => rfl

theorem cellTypeArgLength_open {length : ℕ}
    (hu : (cellTypeArgLength env length g).1.isUnsafe = false) :
    (cellTypeArgLength env length g).1 = (cellTypeArgLength (openEnv env.sdk) length g).1 := by
  simp only [cellTypeArgLength, openEnv] at hu ⊢
  split_ifs at hu ⊢ <;> first | rfl | cases hu | simp_all

theorem finishInputCellData_open (hu : (g.finishInputCellData env).isUnsafe = false) :
    g.finishInputCellData env = g.finishInputCellData (openEnv env.sdk) := by
  unfold finishInputCellData at hu ⊢
  split_ifs at hu ⊢ <;> first | rfl | cases hu | simp_all [openEnv]

theorem finishOutputCellData_open (hu : (g.finishOutputCellData env).isUnsafe = false) :
    g.finishOutputCellData env = g.finishOutputCellData (openEnv env.sdk) := by
  unfold finishOutputCellData at hu ⊢
  split_ifs at hu ⊢ <;> first | rfl | cases hu | simp_all [openEnv]

/-- A call that rejects nothing does what it does under the open settings. -/
theorem apply_open {s : Slot} {e : SignEvent} {n : Note SignEvent} (hn : n ∈ plain s e)
    (hu : ((signHandler env).apply (s, e) g).isUnsafe = false) :
    (signHandler env).apply (s, e) g = (signHandler (openEnv env.sdk)).apply n g := by
  have hkind : ∀ {k : BodyKind} {bs : List UInt8}, n ∈ pieceNote k bs → n = (.void, k.event bs) := by
    intro k bs h
    unfold pieceNote at h
    split at h
    · cases h
    · exact List.mem_singleton.mp h
  cases s with
  | void =>
    cases e with
    | sourceCell e =>
      have hopen : runCell env e g = _ := runCell_open env g hu
      cases e with
      | lockArgs bs f =>
        obtain rfl := hkind (k := .sourceArgs) hn
        rfl
      | _ =>
        obtain rfl := List.mem_singleton.mp hn
        exact hopen
    | outputCell e =>
      have hopen : runCell env e g = _ := runCell_open env g hu
      cases e with
      | lockArgs bs f =>
        obtain rfl := hkind (k := .outputArgs) hn
        rfl
      | _ =>
        obtain rfl := List.mem_singleton.mp hn
        exact hopen
    | sourceDataChunk bs f =>
      obtain rfl := hkind (k := .sourceData) hn
      rfl
    | dataChunk bs f =>
      obtain rfl := hkind (k := .outputData) hn
      rfl
    | _ =>
      first
        | (cases hn; done)
        | (obtain rfl := List.mem_singleton.mp hn; rfl)
  | size =>
    cases e with
    | sourceCell e =>
      obtain rfl := List.mem_singleton.mp hn
      cases e <;> first | rfl | exact cellTypeArgLength_open env g hu
    | outputCell e =>
      obtain rfl := List.mem_singleton.mp hn
      cases e <;> first | rfl | exact cellTypeArgLength_open env g hu
    | _ =>
      first
        | (cases hn; done)
        | (obtain rfl := List.mem_singleton.mp hn; rfl)
  | close =>
    cases e with
    | sourceCell e =>
      obtain rfl := List.mem_singleton.mp hn
      cases e <;> rfl
    | sourceDataEnd =>
      obtain rfl := List.mem_singleton.mp hn
      exact finishInputCellData_open env g hu
    | dataEnd =>
      obtain rfl := List.mem_singleton.mp hn
      exact finishOutputCellData_open env g hu
    | _ =>
      first
        | (cases hn; done)
        | (obtain rfl := List.mem_singleton.mp hn; rfl)

end Open

/-! ### Calls and the core -/

section Core
variable (sdk : Sdk) (g : SignState)

@[simp] theorem core_core : g.core.core = g.core := rfl

theorem core_runCell (env : Env) (e : CellEvent) :
    (runCell env e g.core).core = (runCell env e g).core := by
  cases e with
  | capacity buf =>
    dsimp only [runCell, cellCapacity, core]
    split <;> rfl
  | lockCodeHash buf =>
    dsimp only [runCell, cellLockCodeHash, core]
    split_ifs <;> rfl
  | lockHashType hashType =>
    dsimp only [runCell, cellScriptHashType, core]
    split_ifs <;> rfl
  | typeHashType hashType =>
    dsimp only [runCell, cellScriptHashType, core]
    split_ifs <;> rfl
  | lockArgsStart =>
    dsimp only [runCell, scriptArgStartInput, core]
    split <;> rfl
  | lockArgs buf following =>
    dsimp only [runCell, scriptArgChunk, core]
    split_ifs <;> rfl
  | typeCodeHash buf =>
    dsimp only [runCell, cellTypeCodeHash, core]
    split_ifs <;> rfl
  | lockEnd => rfl
  | typeArgsSize size => rfl

theorem core_cellTypeArgLength (env : Env) (length : ℕ) :
    (cellTypeArgLength env length g.core).1.core = (cellTypeArgLength env length g).1.core := by
  dsimp only [cellTypeArgLength, core]
  split_ifs <;> rfl

theorem core_initBip32 (size : ℕ) : (initBip32 size g.core).1.core = (initBip32 size g).1.core := by
  dsimp only [initBip32]
  split_ifs <;> rfl

theorem core_setPath (env : Env) :
    (g.core.setSignPath env).1.core = (g.setSignPath env).1.core ∧
      (g.core.setChangePath env).1.core = (g.setChangePath env).1.core := by
  dsimp only [setSignPath, setChangePath, core]
  cases prepLockArg env.sdk g.tempKey <;> exact ⟨rfl, rfl⟩

theorem core_inputLockArgEnd : g.core.inputLockArgEnd.core = g.inputLockArgEnd.core := by
  dsimp only [inputLockArgEnd, core]
  split_ifs <;> rfl

theorem core_finishInputCellData (env : Env) :
    (g.core.finishInputCellData env).core = (g.finishInputCellData env).core := by
  dsimp only [finishInputCellData, core]
  split_ifs <;> rfl

theorem core_setCellDataSize (size : ℕ) :
    (setCellDataSize size g.core).1.core = (setCellDataSize size g).1.core := by
  dsimp only [setCellDataSize]
  split <;> rfl

theorem core_checkCellDataDataChunk (buf : List UInt8) :
    (checkCellDataDataChunk buf g.core).core = (checkCellDataDataChunk buf g).core := by
  dsimp only [checkCellDataDataChunk, core]
  split <;> rfl

theorem core_outputEnd (env : Env) : (g.core.outputEnd env).1.core = (g.outputEnd env).1.core := by
  dsimp only [outputEnd, daoOutputEnd, plainOutputEnd, core]
  split_ifs <;> rfl

theorem core_outputsEnd : g.core.outputsEnd.1.core = g.outputsEnd.1.core := by
  dsimp only [outputsEnd, core]
  split_ifs <;> rfl

theorem core_finishOutputCellData (env : Env) :
    (g.core.finishOutputCellData env).core = (g.finishOutputCellData env).core := by
  dsimp only [finishOutputCellData, core]
  split_ifs <;> rfl

theorem core_finalizeTag :
    g.core.finalizeTag.1.core = g.finalizeTag.1.core ∧ g.core.finalizeTag.2 = g.finalizeTag.2 := by
  dsimp only [finalizeTag, core]
  cases g.v.tag <;> first | exact ⟨rfl, rfl⟩ | (dsimp only; split_ifs <;> exact ⟨rfl, rfl⟩)

theorem core_finalizeAmounts (env : Env) :
    (g.core.finalizeAmounts env).core = (g.finalizeAmounts env).core := rfl

theorem core_finalizeRawTransaction (env : Env) :
    (g.core.finalizeRawTransaction env).core = (g.finalizeRawTransaction env).core := by
  obtain ⟨hcore, hgo⟩ := core_finalizeTag g
  unfold finalizeRawTransaction
  generalize g.core.finalizeTag = x at hcore hgo ⊢
  generalize g.finalizeTag = y at hcore hgo ⊢
  obtain ⟨a, b⟩ := x
  obtain ⟨a', b'⟩ := y
  dsimp only at hcore hgo
  obtain rfl := hgo
  cases b with
  | false => exact hcore
  | true =>
    dsimp only
    rw [← core_finalizeAmounts, hcore, core_finalizeAmounts]

/-- What a call does to the core is a function of the core. -/
theorem core_apply (env : Env) {s : Slot} {e : SignEvent} {n : Note SignEvent}
    (hn : n ∈ plain s e) :
    ((signHandler env).apply n g.core).core = ((signHandler env).apply n g).core := by
  have hkind : ∀ {k : BodyKind} {bs : List UInt8}, n ∈ pieceNote k bs → n = (.void, k.event bs) := by
    intro k bs h
    unfold pieceNote at h
    split at h
    · cases h
    · exact List.mem_singleton.mp h
  cases s with
  | void =>
    cases e with
    | sourceCell e =>
      have hcell := core_runCell g env e
      cases e with
      | lockArgs bs f =>
        obtain rfl := hkind (k := .sourceArgs) hn
        exact hcell
      | _ =>
        obtain rfl := List.mem_singleton.mp hn
        exact hcell
    | outputCell e =>
      have hcell := core_runCell g env e
      cases e with
      | lockArgs bs f =>
        obtain rfl := hkind (k := .outputArgs) hn
        exact hcell
      | _ =>
        obtain rfl := List.mem_singleton.mp hn
        exact hcell
    | sourceDataChunk bs f =>
      obtain rfl := hkind (k := .sourceData) hn
      exact core_checkCellDataDataChunk g bs
    | dataChunk bs f =>
      obtain rfl := hkind (k := .outputData) hn
      exact core_checkCellDataDataChunk g bs
    | inputsLength length =>
      obtain rfl := List.mem_singleton.mp hn
      dsimp only [Handler.apply, signHandler, runCallback, blake2bInputCount, core]
      split <;> rfl
    | _ =>
      first
        | (cases hn; done)
        | (obtain rfl := List.mem_singleton.mp hn; rfl)
  | size =>
    cases e with
    | sourceCell e =>
      obtain rfl := List.mem_singleton.mp hn
      cases e <;> first | rfl | exact core_cellTypeArgLength g env _
    | outputCell e =>
      obtain rfl := List.mem_singleton.mp hn
      cases e <;> first | rfl | exact core_cellTypeArgLength g env _
    | signPathSize size =>
      obtain rfl := List.mem_singleton.mp hn
      exact core_initBip32 g size
    | changePathSize size =>
      obtain rfl := List.mem_singleton.mp hn
      exact core_initBip32 g size
    | sourceDataSize size =>
      obtain rfl := List.mem_singleton.mp hn
      exact core_setCellDataSize g size
    | dataSize size =>
      obtain rfl := List.mem_singleton.mp hn
      exact core_setCellDataSize g size
    | _ =>
      first
        | (cases hn; done)
        | (obtain rfl := List.mem_singleton.mp hn; rfl)
  | close =>
    cases e with
    | sourceCell e =>
      obtain rfl := List.mem_singleton.mp hn
      cases e <;> first | rfl | exact core_inputLockArgEnd g
    | signPathEnd =>
      obtain rfl := List.mem_singleton.mp hn
      exact (core_setPath g env).1
    | changePathEnd =>
      obtain rfl := List.mem_singleton.mp hn
      exact (core_setPath g env).2
    | sourceDataEnd =>
      obtain rfl := List.mem_singleton.mp hn
      exact core_finishInputCellData g env
    | outputEnd =>
      obtain rfl := List.mem_singleton.mp hn
      exact core_outputEnd g env
    | outputsEnd =>
      obtain rfl := List.mem_singleton.mp hn
      exact core_outputsEnd g
    | dataEnd =>
      obtain rfl := List.mem_singleton.mp hn
      exact core_finishOutputCellData g env
    | rawEnd =>
      obtain rfl := List.mem_singleton.mp hn
      exact core_finalizeRawTransaction g env
    | _ =>
      first
        | (cases hn; done)
        | (obtain rfl := List.mem_singleton.mp hn; rfl)

end Core
/-! ### The first witness -/

section Alike
variable (env : Env) (g : SignState)

/-- The core without the flags of a rejection. -/
def flagless (g : SignState) : SignState := { g.core with isUnsafe := false, hardReject := false }

theorem witnessHandler_alike (beyond : List UInt8) (e : WitnessEvent) :
    KeepsAt (witnessHandler beyond) (fun g' => g'.flagless = g.flagless) e where
  run {g'} hg := by
    refine Eq.trans ?_ hg
    cases e with
    | offsets totalSize offsets =>
      simp only [witnessHandler, witnessOffsets]
      split <;> rfl
    | lockBody buf following =>
      simp only [witnessHandler, witnessLockArgBodyChunk]
      split_ifs <;> rfl
    | _ => rfl
  ask {g'} hg := by
    refine Eq.trans ?_ hg
    cases e with
    | lockSize size =>
      simp only [witnessHandler, witnessLockArgSize]
      split_ifs <;> rfl
    | _ => rfl
  finish hg := hg

theorem processWitness_alike (buf following : List UInt8) :
    (processWitness env buf following g).flagless = g.flagless := by
  unfold processWitness
  split
  · rfl
  · have hparse := Reader.parse_keeps (witnessArgsRewriteCallbacks.every_of_forall
      (witnessHandler_alike g (following ++ env.beyond))) g.tx.witnessStack molNumMax buf rfl
    dsimp only
    split <;> exact hparse

end Alike

/-! ### The position in a lock argument -/

/-- The position is within the buffer. -/
def Indexed (g : SignState) : Prop := g.cell.lockArgIndex ≤ 28

section Indexed
variable (env : Env) {g : SignState}

theorem runCell_indexed (e : CellEvent) (h : g.Indexed) : (runCell env e g).Indexed := by
  cases e with
  | capacity buf =>
    simp only [runCell, cellCapacity]
    split <;> exact h
  | lockCodeHash buf =>
    simp only [runCell, cellLockCodeHash]
    split_ifs <;> exact h
  | lockHashType hashType =>
    simp only [runCell, cellScriptHashType]
    split_ifs <;> exact h
  | typeHashType hashType =>
    simp only [runCell, cellScriptHashType]
    split_ifs <;> exact h
  | lockArgsStart =>
    simp only [runCell, scriptArgStartInput]
    split
    · exact h
    · exact Nat.zero_le _
  | lockArgs buf following =>
    simp only [runCell, scriptArgChunk]
    split_ifs with h₁ h₂
    · exact h
    · exact h
    · exact Nat.le_of_not_lt h₂
  | typeCodeHash buf =>
    simp only [runCell, cellTypeCodeHash]
    split_ifs <;> exact h
  | lockEnd => exact h
  | typeArgsSize size => exact h

theorem runCallback_indexed (e : SignEvent) (h : g.Indexed) : (runCallback env e g).Indexed := by
  cases e with
  | inputsLength length =>
    simp only [runCallback, blake2bInputCount]
    split <;> exact h
  | sourceCell e => exact runCell_indexed env e h
  | outputCell e => exact runCell_indexed env e h
  | sourceDataChunk buf following =>
    simp only [runCallback, checkCellDataDataChunk]
    split <;> exact h
  | dataChunk buf following =>
    simp only [runCallback, checkCellDataDataChunk]
    split <;> exact h
  | inputStart => exact Nat.zero_le _
  | outputsIndex index => exact Nat.zero_le _
  | witnessesIndex index =>
    simp only [runCallback, beginWitness]
    split <;> exact h
  | witnessChunk buf following =>
    have hcell := congrArg (fun g : SignState => g.cell) (processWitness_alike env g buf following)
    exact (congrArg (fun c : CellState => c.lockArgIndex ≤ 28) hcell).mpr h
  | _ => exact h

theorem askCallback_indexed (e : SignEvent) (h : g.Indexed) : (askCallback env e g).1.Indexed := by
  have hargs : ∀ n, (cellTypeArgLength env n g).1.Indexed := by
    intro n
    simp only [cellTypeArgLength]
    split_ifs <;> exact h
  have hpath : ∀ n, (initBip32 n g).1.Indexed := by
    intro n
    simp only [initBip32]
    split_ifs <;> exact h
  have hdata : ∀ n, (setCellDataSize n g).1.Indexed := by
    intro n
    simp only [setCellDataSize]
    split <;> exact h
  cases e with
  | signPathSize size => exact hpath size
  | changePathSize size => exact hpath size
  | sourceCell e => cases e <;> first | exact hargs _ | exact h
  | outputCell e => cases e <;> first | exact hargs _ | exact h
  | sourceDataSize size => exact hdata size
  | dataSize size => exact hdata size
  | witnessSize size =>
    simp only [askCallback, hashWitnessLength]
    split_ifs <;> exact h
  | _ => exact h

theorem finalizeTag_cell (g : SignState) : g.finalizeTag.1.cell = g.cell := by
  unfold finalizeTag
  cases g.v.tag <;> first | rfl | (dsimp only; split_ifs <;> rfl)

theorem endCallback_indexed (e : SignEvent) (h : g.Indexed) : (endCallback env e g).1.Indexed := by
  cases e with
  | signPathEnd =>
    simp only [endCallback, setSignPath]
    split <;> exact h
  | changePathEnd =>
    simp only [endCallback, setChangePath]
    split <;> exact h
  | sourceCell e =>
    cases e with
    | lockEnd =>
      simp only [endCallback, inputLockArgEnd]
      split_ifs <;> exact h
    | _ => exact h
  | sourceDataEnd =>
    simp only [endCallback, finishInputCellData]
    split_ifs <;> exact h
  | outputEnd =>
    simp only [endCallback, outputEnd, daoOutputEnd, plainOutputEnd]
    split_ifs <;> exact h
  | outputsEnd =>
    simp only [endCallback, outputsEnd]
    split_ifs <;> exact h
  | dataEnd =>
    simp only [endCallback, finishOutputCellData]
    split_ifs <;> exact h
  | rawEnd =>
    have hcell := finalizeTag_cell g
    simp only [endCallback, finalizeRawTransaction]
    generalize g.finalizeTag = x at hcell ⊢
    obtain ⟨g', _ | _⟩ := x
    · exact (congrArg (fun c : CellState => c.lockArgIndex ≤ 28) hcell).mpr h
    · exact (congrArg (fun c : CellState => c.lockArgIndex ≤ 28) hcell).mpr h
  | witnessEnd =>
    simp only [endCallback, processWitnessEnd]
    split <;> exact h
  | _ => exact h

end Indexed

/-! ### Calls that leave the core -/

section Dropped
variable (env : Env) {g : SignState}

/-- The core of `g` is that of `g₀`, unless a callback has rejected the transaction. -/
def Keeps (g₀ g : SignState) : Prop := g.Refused ∨ g.core = g₀.core

theorem Keeps.refl (g : SignState) : Keeps g g := .inr rfl

theorem Keeps.of_flagless {g' : SignState} (ho : Onward g g') (h : g'.flagless = g.flagless) :
    Keeps g g' := by
  have hback : ∀ x : SignState, x.core =
      { x.flagless with isUnsafe := x.isUnsafe, hardReject := x.hardReject } := fun _ => rfl
  by_cases hr : g'.Refused
  · exact .inl hr
  · have hg : ¬ g.Refused := fun hg => hr (ho.refused hg)
    simp only [Refused, not_or, Bool.not_eq_true] at hr hg
    exact .inr (by rw [hback, hback, h, hr.1, hr.2, hg.1, hg.2])

/-- An empty piece of a lock argument is compared with what it should be. -/
def Steady (g : SignState) : Prop :=
  g.cell.lockArgIndex ≤ 28 ∧ (g.cell.active = true → g.lockArgCmp ≠ .null)

theorem write_nil (b : FixedBytes 28) (off : ℕ) : b.write off [] = b := by
  unfold FixedBytes.write
  split
  · rename_i h
    ext1
    simp
  · rfl

theorem scriptArgChunk_nil (hs : g.Steady) : scriptArgChunk [] g = g := by
  unfold scriptArgChunk
  split
  · rfl
  · rename_i ha
    rw [if_neg (by simpa using hs.1)]
    have hcmp := hs.2 (by simpa using ha)
    dsimp only
    have hw : g.lockArgWindow ≠ none := by
      unfold lockArgWindow
      cases hc : g.lockArgCmp with
      | null => exact absurd hc hcmp
      | currentLockArg => exact nofun
      | changeLockArg => exact nofun
    cases hwin : g.lockArgWindow with
    | none => exact absurd hwin hw
    | some window => simp [write_nil]

theorem checkCellDataDataChunk_nil : checkCellDataDataChunk [] g = g := by
  unfold checkCellDataDataChunk
  split
  · rfl
  · simp

theorem pieceNote_eq_nil {k : BodyKind} {bs : List UInt8} (h : pieceNote k bs = []) : bs = [] := by
  unfold pieceNote at h
  split at h
  · assumption
  · cases h

theorem run_dropped {e : SignEvent} (hn : plain .void e = [])
    (hs : ∀ bs f, e = .sourceCell (.lockArgs bs f) ∨ e = .outputCell (.lockArgs bs f) → g.Steady) :
    Keeps g (runCallback env e g) := by
  cases e with
  | sourceCell e =>
    cases e with
    | lockArgs bs f =>
      obtain rfl := pieceNote_eq_nil hn
      rw [runCallback, runCell, scriptArgChunk_nil (hs [] f (.inl rfl))]
      exact .refl g
    | _ => cases hn
  | outputCell e =>
    cases e with
    | lockArgs bs f =>
      obtain rfl := pieceNote_eq_nil hn
      rw [runCallback, runCell, scriptArgChunk_nil (hs [] f (.inr rfl))]
      exact .refl g
    | _ => cases hn
  | sourceDataChunk bs f =>
    obtain rfl := pieceNote_eq_nil hn
    rw [runCallback, checkCellDataDataChunk_nil]
    exact .refl g
  | dataChunk bs f =>
    obtain rfl := pieceNote_eq_nil hn
    rw [runCallback, checkCellDataDataChunk_nil]
    exact .refl g
  | witnessesIndex index =>
    simp only [runCallback, beginWitness]
    split <;> exact .inr rfl
  | witnessChunk buf following =>
    exact .of_flagless (processWitness_onward env g buf following)
      (processWitness_alike env g buf following)
  | _ => first | exact .inr rfl | cases hn

theorem ask_dropped {e : SignEvent} (hn : plain .size e = []) :
    Keeps g (askCallback env e g).1 := by
  cases e with
  | witnessSize size =>
    simp only [askCallback, hashWitnessLength]
    split_ifs <;> exact .inr rfl
  | _ => first | exact .inr rfl | cases hn

theorem end_dropped {e : SignEvent} (hn : plain .close e = []) :
    Keeps g (endCallback env e g).1 := by
  cases e with
  | witnessEnd =>
    simp only [endCallback, processWitnessEnd]
    split <;> exact .inr rfl
  | _ => first | exact .inr rfl | cases hn

end Dropped
/-! ### Replaying the calls -/

section Replayed
variable {sdk : Sdk}

theorem apply_traced {E σ ε : Type} (h : Handler E σ ε) (n : Note E) (y : σ × Log E σ) :
    h.traced.apply n y = (h.apply n y.1, y.2 ++ [⟨n.1, n.2, y.1⟩]) := by
  obtain ⟨s, e⟩ := n
  cases s <;> rfl

variable (sdk) in
/-- The state and the log once the calls were made under the open settings. -/
def replayed (c : List (Note SignEvent)) : SignState × SignLog :=
  (signHandler (openEnv sdk)).traced.replay c (fresh, [])

theorem replayed_concat (c : List (Note SignEvent)) (n : Note SignEvent) :
    replayed sdk (c ++ [n]) = ((signHandler (openEnv sdk)).apply n (replayed sdk c).1,
      (replayed sdk c).2 ++ [⟨n.1, n.2, (replayed sdk c).1⟩]) := by
  rw [replayed, Handler.replay_append, Handler.replay_cons, Handler.replay_nil, apply_traced]
  rfl

/-- A call with the core of the state it found. -/
def coreCall (c : Call SignEvent SignState) : Call SignEvent SignState :=
  { c with state := c.state.core }

/-- The log of what is left of the calls. -/
def coreLog (l : SignLog) : SignLog :=
  l.flatMap fun c => (plain c.slot c.event).map fun n => ⟨n.1, n.2, c.state.core⟩

theorem coreLog_concat (l : SignLog) (s : Slot) (e : SignEvent) (g : SignState) :
    coreLog (l ++ [⟨s, e, g⟩]) = coreLog l ++ (plain s e).map fun n => ⟨n.1, n.2, g.core⟩ := by
  simp [coreLog]

/-- The call is for a piece of a lock argument. -/
def IsArgs (e : SignEvent) : Prop :=
  ∃ bs f, e = .sourceCell (.lockArgs bs f) ∨ e = .outputCell (.lockArgs bs f)

/-- A piece of a lock argument came when there was nothing to compare it with. -/
def Loose (l : SignLog) : Prop :=
  ∃ c ∈ l, c.slot = .void ∧ IsArgs c.event ∧ c.state.cell.active = true ∧
    c.state.lockArgCmp = .null

theorem Loose.append {l : SignLog} (h : Loose l) (l' : SignLog) : Loose (l ++ l') := by
  obtain ⟨c, hc, h⟩ := h
  exact ⟨c, List.mem_append_left l' hc, h⟩

variable (sdk) in
/-- The core is that of the replayed calls, and so is the core of what each of them found. -/
structure Matches (y : SignState × SignLog) : Prop where
  state : y.1.core = (replayed sdk (calls y.2)).1.core
  log : coreLog y.2 = (replayed sdk (calls y.2)).2.map coreCall

variable (sdk) in
/-- What the log says of the state, unless a callback has rejected the transaction. -/
structure Followed (y : SignState × SignLog) : Prop where
  indexed : y.1.Indexed
  cases : y.1.Refused ∨ Loose y.2 ∨ Matches sdk y

theorem apply_indexed (env : Env) {g : SignState} (s : Slot) (e : SignEvent) (h : g.Indexed) :
    ((signHandler env).apply (s, e) g).Indexed := by
  cases s with
  | void => exact runCallback_indexed env e h
  | size => exact askCallback_indexed env e h
  | close => exact endCallback_indexed env e h

theorem apply_onward (env : Env) (g : SignState) (s : Slot) (e : SignEvent) :
    Onward g ((signHandler env).apply (s, e) g) := by
  cases s with
  | void => exact runCallback_onward env g e
  | size => exact askCallback_onward env g e
  | close => exact endCallback_onward env g e

theorem apply_dropped (env : Env) {g : SignState} {s : Slot} {e : SignEvent} (hn : plain s e = [])
    (hs : s = .void → IsArgs e → g.Steady) : Keeps g ((signHandler env).apply (s, e) g) := by
  cases s with
  | void => exact run_dropped env hn fun bs f h => hs rfl ⟨bs, f, h⟩
  | size => exact ask_dropped env hn
  | close => exact end_dropped env hn

theorem pieceNote_cases (k : BodyKind) (bs : List UInt8) :
    pieceNote k bs = [] ∨ ∃ n, pieceNote k bs = [n] := by
  unfold pieceNote
  split
  · exact .inl rfl
  · exact .inr ⟨_, rfl⟩

theorem plain_cases (s : Slot) (e : SignEvent) : plain s e = [] ∨ ∃ n, plain s e = [n] := by
  unfold plain
  split
  · exact pieceNote_cases _ _
  · exact pieceNote_cases _ _
  · exact pieceNote_cases _ _
  · exact pieceNote_cases _ _
  all_goals first | exact .inl rfl | exact .inr ⟨_, rfl⟩

theorem Followed.call {y : SignState × SignLog} (h : Followed sdk y) (x : Sent) (s : Slot)
    (e : SignEvent) :
    Followed sdk ((signHandler (x.env sdk)).apply (s, e) y.1, y.2 ++ [⟨s, e, y.1⟩]) := by
  refine ⟨apply_indexed _ s e h.indexed, ?_⟩
  rcases h.cases with hr | hl | hm
  · exact .inl ((apply_onward _ _ s e).refused hr)
  · exact .inr (.inl (hl.append _))
  · by_cases hr : ((signHandler (x.env sdk)).apply (s, e) y.1).Refused
    · exact .inl hr
    · rcases plain_cases s e with hn | ⟨n, hn⟩
      · by_cases hloose : Loose (y.2 ++ [⟨s, e, y.1⟩])
        · exact .inr (.inl hloose)
        · have hcore := (apply_dropped (x.env sdk) hn fun hs ha => ⟨h.indexed,
            fun hactive hnull => hloose ⟨_, List.mem_append_right _ (List.mem_singleton_self _), hs,
              ha, hactive, hnull⟩⟩)
            |>.resolve_left hr
          refine .inr (.inr ⟨?_, ?_⟩)
          · rw [calls_append, calls_singleton, hn, List.append_nil, hcore]
            exact hm.state
          · rw [calls_append, calls_singleton, coreLog_concat, hn, List.append_nil, List.map_nil,
              List.append_nil]
            exact hm.log
      · have hmem : n ∈ plain s e := by rw [hn]; exact List.mem_singleton_self n
        have hu : ((signHandler (x.env sdk)).apply (s, e) y.1).isUnsafe = false := by
          simp only [Refused, not_or, Bool.not_eq_true] at hr
          exact hr.1
        refine .inr (.inr ⟨?_, ?_⟩)
        · rw [calls_append, calls_singleton, hn, replayed_concat]
          calc ((signHandler (x.env sdk)).apply (s, e) y.1).core
              = ((signHandler (openEnv sdk)).apply n y.1).core := by
                rw [apply_open (x.env sdk) y.1 hmem hu, Sent.sdk_env]
            _ = ((signHandler (openEnv sdk)).apply n y.1.core).core := (core_apply _ _ hmem).symm
            _ = ((signHandler (openEnv sdk)).apply n (replayed sdk (calls y.2)).1.core).core := by
                rw [hm.state]
            _ = _ := core_apply _ _ hmem
        · rw [calls_append, calls_singleton, coreLog_concat, hn, replayed_concat, List.map_append,
            hm.log]
          simp [coreCall, hm.state]

theorem followed_keepsAt (x : Sent) (e : SignEvent) :
    KeepsAt (signHandler (x.env sdk)).traced (Followed sdk) e where
  run h := h.call x .void e
  ask h := h.call x .size e
  finish h := h.call x .close e

variable (sdk) in
theorem feedAll_followed (sent : List Sent) : Followed sdk (feedAll sdk sent) := by
  induction sent using List.reverseRecOn with
  | nil => exact ⟨Nat.zero_le _, .inr (.inr ⟨rfl, rfl⟩)⟩
  | append_singleton sent x ih =>
    rw [feedAll_concat]
    have hp := Reader.parse_keeps (annotatedTransactionCallbacks.every_of_forall
      (followed_keepsAt x)) (feedAll sdk sent).1.transactionStack molNumMax x.packet.data ih
    exact ⟨hp.indexed, hp.cases.imp id (Or.imp id fun hm => ⟨hm.state, hm.log⟩)⟩

end Replayed
end SignState
end NervosLedger
