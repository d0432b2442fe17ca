import NervosLedger.Core

/-!
# What is read of a cell

The calls for a cell, however its lock arguments are cut into pieces, come to the same state, but for
lock arguments that are too long for the buffer they are copied to.
-/
namespace NervosLedger
open Molecule
namespace SignState

/-! ### Lock arguments -/

/-- What the lock arguments of the cells that inputs refer to are compared with. -/
def currentWindow (g : SignState) : List UInt8 :=
  g.currentLockArg.toList ++ g.changeLockArg.toList.take 8

/-- What the lock arguments of the outputs are compared with. -/
def changeWindow (g : SignState) : List UInt8 :=
  g.changeLockArg.toList ++ g.daoCellOwner.toList.take 8

theorem length_currentWindow (g : SignState) : g.currentWindow.length = 28 := by
  simp [currentWindow]

theorem length_changeWindow (g : SignState) : g.changeWindow.length = 28 := by
  simp [changeWindow]

/-- Where the comparison stands once `args` were read. Arguments that fit the buffer are in it. -/
structure ArgsAt (window args : List UInt8) (tmp : LockArg) (index : ℕ) (nonequal : Bool) :
    Prop where
  nonequal : nonequal = !args.isPrefixOf window
  fits : args.length ≤ 28 → index = args.length ∧ tmp = .ofList 28 args

theorem argsAt_nil (window : List UInt8) : ArgsAt window [] (.zero 28) 0 false :=
  ⟨by simp, fun _ => ⟨rfl, by ext1; simp [FixedBytes.zero]⟩⟩

theorem not_isPrefixOf_of_length {as bs : List UInt8} (h : bs.length < as.length) :
    as.isPrefixOf bs = false := by
  rw [Bool.eq_false_iff]
  intro hp
  have hle := (List.isPrefixOf_iff_prefix.mp hp).length_le
  omega

theorem isPrefixOf_append (as bs cs : List UInt8) : (as ++ bs).isPrefixOf cs =
    (as.isPrefixOf cs && (cs.drop as.length).take bs.length == bs) := by
  rw [Bool.eq_iff_iff, Bool.and_eq_true, List.isPrefixOf_iff_prefix, List.isPrefixOf_iff_prefix,
    beq_iff_eq]
  constructor
  · rintro ⟨ds, rfl⟩
    rw [List.append_assoc, List.drop_left, List.take_left]
    exact ⟨List.prefix_append _ _, rfl⟩
  · rintro ⟨⟨ds, rfl⟩, h⟩
    rw [List.drop_left] at h
    rw [List.prefix_append_right_inj, ← h]
    exact List.take_prefix _ _

theorem toList_ofList_of_le {n : ℕ} {as : List UInt8} (h : as.length ≤ n) :
    (FixedBytes.ofList n as).toList = as ++ List.replicate (n - as.length) 0 := by
  rw [FixedBytes.toList_ofList, List.take_of_length_le h]

theorem write_ofList {as bs : List UInt8} (h : as.length + bs.length ≤ 28) :
    (FixedBytes.ofList 28 as).write as.length bs = .ofList 28 (as ++ bs) := by
  ext1
  rw [FixedBytes.toList_write _ h, toList_ofList_of_le (by omega),
    toList_ofList_of_le (by rw [List.length_append]; exact h), List.take_left, ← List.drop_drop,
    List.drop_left, List.drop_replicate, List.length_append, Nat.sub_sub]

theorem ArgsAt.piece {g : SignState} {window args : List UInt8} (hactive : g.cell.active = true)
    (hwindow : g.lockArgWindow = some window) (hlen : window.length = 28)
    (h : ArgsAt window args g.lockArgTmp g.cell.lockArgIndex g.cell.lockArgNonequal)
    (p : List UInt8) : ∃ tmp index nonequal, ArgsAt window (args ++ p) tmp index nonequal ∧
      scriptArgChunk p g = { g with
        lockArgTmp := tmp
        cell.lockArgIndex := index
        cell.lockArgNonequal := nonequal } := by
  have hact : (!g.cell.active) = false := by rw [hactive]; rfl
  unfold scriptArgChunk
  rw [hact, if_neg Bool.false_ne_true]
  by_cases hfull : g.cell.lockArgIndex + p.length > 28
  · rw [if_pos hfull]
    refine ⟨_, _, true, ⟨?_, fun hle => ?_⟩, rfl⟩
    · have hlong : 28 < (args ++ p).length := by
        by_contra hle
        rw [List.length_append] at hle
        rw [(h.fits (by omega)).1] at hfull
        omega
      rw [not_isPrefixOf_of_length (by omega)]
      rfl
    · rw [List.length_append] at hle
      rw [(h.fits (by omega)).1] at hfull
      omega
  · rw [if_neg hfull, hwindow]
    refine ⟨_, _, _, ⟨?_, fun hle => ?_⟩, rfl⟩
    · rcases Nat.lt_or_ge 28 args.length with hlong | hshort
      · rw [h.nonequal, not_isPrefixOf_of_length (by omega),
          not_isPrefixOf_of_length (by rw [List.length_append]; omega)]
        rfl
      · rw [h.nonequal, (h.fits hshort).1, isPrefixOf_append, Bool.not_and]
        rfl
    · rw [List.length_append] at hle ⊢
      obtain ⟨hi, ht⟩ := h.fits (by omega)
      rw [hi, ht]
      exact ⟨rfl, write_ofList hle⟩

theorem ArgsAt.pieces {g : SignState} {window args : List UInt8} (hactive : g.cell.active = true)
    (hwindow : g.lockArgWindow = some window) (hlen : window.length = 28)
    (h : ArgsAt window args g.lockArgTmp g.cell.lockArgIndex g.cell.lockArgNonequal)
    (ps : List (List UInt8)) : ∃ tmp index nonequal,
      ArgsAt window (args ++ ps.flatten) tmp index nonequal ∧
        ps.foldl (fun g p => scriptArgChunk p g) g = { g with
          lockArgTmp := tmp
          cell.lockArgIndex := index
          cell.lockArgNonequal := nonequal } := by
  induction ps generalizing g args with
  | nil => exact ⟨_, _, _, by rwa [List.flatten_nil, List.append_nil], rfl⟩
  | cons p ps ih =>
    obtain ⟨tmp, index, nonequal, hp, hstep⟩ := h.piece hactive hwindow hlen p
    rw [List.foldl_cons, hstep, List.flatten_cons, ← List.append_assoc]
    exact @ih { g with
      lockArgTmp := tmp
      cell.lockArgIndex := index
      cell.lockArgNonequal := nonequal } (args ++ p) hactive hwindow hp

/-! ### Scripts -/

end SignState

def CellOutput.isMultisig (c : CellOutput) : Bool := c.lock.codeHash = multisigLockScript

/-- The cell has the type script of the DAO. -/
def CellOutput.isDao (c : CellOutput) : Bool :=
  c.type.any fun s => s.codeHash = daoTypeScriptHash

/-- Whether a lock is rejected under some settings. -/
def Script.lockRejected (settings : Settings) (s : Script) : Bool :=
  !settings.allowContractData &&
    (s.codeHash ≠ defaultLockScript && s.codeHash ≠ multisigLockScript || s.hashType ≠ 1)

/-- Whether a type script is. -/
def Script.typeRejected (settings : Settings) (s : Script) : Bool :=
  !settings.allowContractData && (s.codeHash ≠ daoTypeScriptHash || s.hashType ≠ 1) ||
    s.args ≠ [] && (s.codeHash = daoTypeScriptHash || !settings.allowContractData)

def CellOutput.typeRejected (settings : Settings) (c : CellOutput) : Bool :=
  c.type.any fun s => s.typeRejected settings

namespace SignState
variable (env : Env)

/-- The state of a fresh cell once its lock was read. -/
def readLock (cmp : LockArgCmp) (c : CellOutput) (tmp : LockArg) (index : ℕ) (nonequal : Bool)
    (g : SignState) : SignState :=
  { g with
    isUnsafe := g.isUnsafe || c.lock.lockRejected env.settings
    lockArgTmp := tmp
    lockArgCmp := cmp
    cell := {
      capacity := readUInt64 c.capacity
      lockArgIndex := index
      active := true
      isMultisig := c.isMultisig
      lockArgNonequal := nonequal } }

/-- What the type script adds. -/
def readType (c : CellOutput) (g : SignState) : SignState :=
  { g with
    isUnsafe := g.isUnsafe || c.typeRejected env.settings
    cell.isDao := g.cell.isDao || c.isDao }

theorem rejected_eq (g : SignState) (b : Bool) :
    (if b then g.reject else g) = { g with isUnsafe := g.isUnsafe || b } := by
  cases b
  · simp
  · simp [reject]

theorem cellScriptHashType_eq (hashType : UInt8) {g : SignState} (h : g.cell.active = true) :
    cellScriptHashType env hashType g =
      { g with isUnsafe := g.isUnsafe || !env.settings.allowContractData && hashType ≠ 1 } := by
  have hif := rejected_eq g (!env.settings.allowContractData && hashType ≠ 1)
  rw [← hif, Bool.and_comm, cellScriptHashType, h]
  rfl

theorem cellLockCodeHash_eq (buf : FixedBytes 32) {g : SignState} (h : g.cell.active = true)
    (hm : g.cell.isMultisig = false) :
    cellLockCodeHash env buf g = { g with
      isUnsafe := g.isUnsafe || !env.settings.allowContractData &&
        (buf ≠ defaultLockScript && buf ≠ multisigLockScript)
      cell.isMultisig := buf = multisigLockScript } := by
  have hne : defaultLockScript ≠ multisigLockScript := by decide
  unfold cellLockCodeHash
  rw [h, Bool.not_true, if_neg Bool.false_ne_true]
  by_cases hd : buf = defaultLockScript
  · rw [if_pos hd]
    simp [hd, hne]
  · rw [if_neg hd]
    by_cases hmulti : buf = multisigLockScript
    · rw [if_pos hmulti]
      simp [hmulti]
    · rw [if_neg hmulti]
      have hsame : decide (buf = multisigLockScript) = g.cell.isMultisig := by simp [hm, hmulti]
      rw [rejected_eq, hsame]
      simp [hd, hmulti]

/-- The calls before the lock arguments. -/
theorem front_eq (c : CellOutput) {g : SignState} (hcell : g.cell = { active := true }) :
    cellScriptHashType env c.lock.hashType (cellLockCodeHash env c.lock.codeHash
      (cellCapacity c.capacity g)) = { g with
        isUnsafe := g.isUnsafe || c.lock.lockRejected env.settings
        cell := {
          capacity := readUInt64 c.capacity
          active := true
          isMultisig := c.isMultisig } } := by
  have hcap : cellCapacity c.capacity g =
      { g with cell := { capacity := readUInt64 c.capacity, active := true } } := by
    simp [cellCapacity, hcell]
  rw [hcap, cellLockCodeHash_eq env _ rfl rfl, cellScriptHashType_eq env _ rfl]
  simp [Script.lockRejected, CellOutput.isMultisig, Bool.or_assoc, Bool.and_or_distrib_left]

theorem cellTypeCodeHash_eq (buf : FixedBytes 32) {g : SignState} (h : g.cell.active = true)
    (hd : g.cell.isDao = false) :
    cellTypeCodeHash env buf g = { g with
      isUnsafe := g.isUnsafe || !env.settings.allowContractData && buf ≠ daoTypeScriptHash
      cell.isDao := buf = daoTypeScriptHash } := by
  unfold cellTypeCodeHash
  rw [h, Bool.not_true, if_neg Bool.false_ne_true]
  by_cases hdao : buf = daoTypeScriptHash
  · rw [if_pos hdao]
    simp [hdao]
  · rw [if_neg hdao]
    have hsame : decide (buf = daoTypeScriptHash) = g.cell.isDao := by simp [hd, hdao]
    rw [rejected_eq, hsame]
    simp [hdao]

theorem cellTypeArgLength_eq (n : ℕ) {g : SignState} (h : g.cell.active = true) :
    (cellTypeArgLength env (n + 4) g).1 = { g with
      isUnsafe := g.isUnsafe || n ≠ 0 && (g.cell.isDao || !env.settings.allowContractData) } := by
  unfold cellTypeArgLength
  rw [h, Bool.not_true, if_neg Bool.false_ne_true]
  by_cases hn : n = 0
  · simp [hn]
  · cases hd : g.cell.isDao <;> cases ha : env.settings.allowContractData <;>
      simp [hn, reject]

/-- The calls for a type script. -/
theorem typeCalls_eq {cell : CellEvent → SignEvent} {h : Handler SignEvent SignState Exc}
    (hrun : ∀ e, h.run (cell e) = runCell env e)
    (hask : ∀ n, h.ask (cell (.typeArgsSize n)) = cellTypeArgLength env n) (c : CellOutput)
    {g : SignState} (hactive : g.cell.active = true) (hdao : g.cell.isDao = false) :
    h.replay (typeNotes cell c.type) g = readType env c g := by
  cases ht : c.type with
  | none => simp [typeNotes, readType, CellOutput.typeRejected, CellOutput.isDao, ht]
  | some s =>
    simp only [typeNotes, Handler.replay_cons, Handler.replay_nil, Handler.apply, hrun, hask,
      runCell]
    rw [cellTypeCodeHash_eq env _ hactive hdao, cellScriptHashType_eq, cellTypeArgLength_eq]
    · simp [readType, CellOutput.typeRejected, Script.typeRejected, CellOutput.isDao, ht, hdao,
        Bool.or_assoc, Bool.and_or_distrib_left]
    · exact hactive
    · exact hactive

/-! ### The cell of an input -/

section Calls
open Bodies

theorem cut_argsNotes {k : BodyKind} {cell : CellEvent → SignEvent}
    (hk : ∀ bs, k.event bs = cell (.lockArgs bs [])) {args : List UInt8} {c : List (Note SignEvent)}
    (h : signBodies.Cut (argsNotes cell args) c) :
    ∃ ps : List (List UInt8), ps.flatten = args ∧ c = ps.map (signBodies.piece k) := by
  unfold argsNotes at h
  split at h
  · rename_i hargs
    exact ⟨[], hargs.symm, cut_nil.mp h⟩
  · have hpiece : ((.void, cell (.lockArgs args [])) : Note SignEvent) = signBodies.piece k args := by
      rw [← hk]
      rfl
    rw [hpiece] at h
    obtain ⟨ps, cs, rfl, hps, -, hcs⟩ := cut_body.mp h
    rw [cut_nil.mp hcs, List.append_nil]
    exact ⟨ps, hps, rfl⟩

/-- Pieces of lock arguments, once the cell is ready for them. -/
theorem args_eq {k : BodyKind} {cell : CellEvent → SignEvent}
    (hk : ∀ bs, k.event bs = cell (.lockArgs bs [])) {h : Handler SignEvent SignState Exc}
    (hrun : ∀ e, h.run (cell e) = runCell env e) {args : List UInt8} {calls : List (Note SignEvent)}
    (hcut : signBodies.Cut (argsNotes cell args) calls) {g : SignState} {window : List UInt8}
    (hactive : g.cell.active = true) (hwindow : g.lockArgWindow = some window)
    (hlen : window.length = 28) (htmp : g.lockArgTmp = .zero 28) (hindex : g.cell.lockArgIndex = 0)
    (hequal : g.cell.lockArgNonequal = false) : ∃ tmp index,
      (args.length ≤ 28 → tmp = .ofList 28 args) ∧ h.replay calls g = { g with
        lockArgTmp := tmp
        cell.lockArgIndex := index
        cell.lockArgNonequal := !args.isPrefixOf window } := by
  obtain ⟨ps, rfl, rfl⟩ := cut_argsNotes hk hcut
  have hstart := argsAt_nil window
  rw [← htmp, ← hindex, ← hequal] at hstart
  obtain ⟨tmp, index, nonequal, hargs, hfold⟩ := hstart.pieces hactive hwindow hlen ps
  rw [List.nil_append] at hargs
  refine ⟨tmp, index, fun hle => (hargs.fits hle).2, ?_⟩
  rw [← hargs.nonequal, ← hfold, Handler.replay, List.foldl_map]
  congr 1
  funext g p
  change h.run (k.event p) g = _
  rw [hk, hrun]
  rfl

theorem typeNotes_none {cell : CellEvent → SignEvent} (hcell : ∀ s e, signBodies.body (s, cell e) =
    none ∨ ∃ bs f, e = .lockArgs bs f) (s : Option Script) :
    ∀ n ∈ typeNotes cell s, signBodies.body n = none := by
  cases s with
  | none => exact nofun
  | some s =>
    intro n hn
    simp only [typeNotes, List.mem_cons, List.not_mem_nil, or_false] at hn
    rcases hn with rfl | rfl | rfl
    all_goals
      rcases hcell _ _ with h | ⟨bs, f, h⟩
      · exact h
      · cases h

theorem inputLockArgEnd_cell (g : SignState) : g.inputLockArgEnd.cell = g.cell := by
  simp only [inputLockArgEnd]
  split_ifs <;> rfl

/-- The cell that an input refers to. -/
theorem sourceCell_eq (c : CellOutput) {calls : List (Note SignEvent)}
    (hcut : signBodies.Cut c.sourceNotes calls) {g : SignState}
    (hcell : g.cell = { active := true }) (htmp : g.lockArgTmp = .zero 28) : ∃ tmp index,
      (c.lock.args.length ≤ 28 → tmp = .ofList 28 c.lock.args) ∧
        (signHandler env).replay calls g = readType env c (readLock env .currentLockArg c tmp index
          (!c.lock.args.isPrefixOf g.currentWindow) g).inputLockArgEnd := by
  simp only [CellOutput.sourceNotes, List.append_assoc] at hcut
  obtain ⟨c₁, c', rfl, h₁, hcut⟩ := cut_append.mp hcut
  obtain ⟨c₂, c', rfl, h₂, hcut⟩ := cut_append.mp hcut
  obtain ⟨c₃, c₄, rfl, h₃, h₄⟩ := cut_append.mp hcut
  rw [cut_notes (by simp [signBodies]) h₁, cut_notes (by simp [signBodies]) h₃,
    cut_notes (typeNotes_none (fun s e => by cases s <;> cases e <;> simp [signBodies]) _) h₄]
  have hfront : (signHandler env).replay [(.void, .sourceCell (.capacity c.capacity)),
      (.void, .sourceCell (.lockCodeHash c.lock.codeHash)),
      (.void, .sourceCell (.lockHashType c.lock.hashType)),
      (.void, .sourceCell .lockArgsStart)] g =
        readLock env .currentLockArg c (.zero 28) 0 false g := by
    have hcalls := front_eq env c hcell
    simp only [Handler.replay_cons, Handler.replay_nil, Handler.apply, signHandler, runCallback,
      runCell, hcalls, scriptArgStartInput, readLock, Bool.not_true, if_neg Bool.false_ne_true]
    rw [← htmp]
  obtain ⟨tmp, index, hfits, hargs⟩ := args_eq env (k := .sourceArgs) (h := signHandler env)
    (fun _ => rfl) (fun _ => rfl) h₂ (g := readLock env .currentLockArg c (.zero 28) 0 false g)
    rfl rfl g.length_currentWindow rfl rfl rfl
  refine ⟨tmp, index, hfits, ?_⟩
  have hread : (signHandler env).replay c₂ (readLock env .currentLockArg c (.zero 28) 0 false g) =
      readLock env .currentLockArg c tmp index (!c.lock.args.isPrefixOf g.currentWindow) g := hargs
  have hend : ∀ g', (signHandler env).replay [(.close, .sourceCell .lockEnd)] g' =
      g'.inputLockArgEnd := fun _ => rfl
  rw [Handler.replay_append, Handler.replay_append, Handler.replay_append, hfront, hread, hend,
    typeCalls_eq env (fun _ => rfl) fun _ => rfl]
  · rw [inputLockArgEnd_cell]
    rfl
  · rw [inputLockArgEnd_cell]
    rfl

/-- The other cells are passed over. -/
theorem sourceCell_inactive (c : CellOutput) {calls : List (Note SignEvent)}
    (hcut : signBodies.Cut c.sourceNotes calls) {g : SignState} (h : g.cell.active = false) :
    (signHandler env).replay calls g = g := by
  have hinactive : (!g.cell.active) = true := by rw [h]; rfl
  have hcalls : ∀ {calls : List (Note SignEvent)},
      (∀ n ∈ calls, (signHandler env).apply n g = g) → (signHandler env).replay calls g = g := by
    intro calls hc
    induction calls with
    | nil => rfl
    | cons n calls ih =>
      rw [Handler.replay_cons, hc n List.mem_cons_self]
      exact ih fun m hm => hc m (List.mem_cons_of_mem n hm)
  simp only [CellOutput.sourceNotes, List.append_assoc] at hcut
  obtain ⟨c₁, c', rfl, h₁, hcut⟩ := cut_append.mp hcut
  obtain ⟨c₂, c', rfl, h₂, hcut⟩ := cut_append.mp hcut
  obtain ⟨c₃, c₄, rfl, h₃, h₄⟩ := cut_append.mp hcut
  rw [cut_notes (by simp [signBodies]) h₁, cut_notes (by simp [signBodies]) h₃,
    cut_notes (typeNotes_none (fun s e => by cases s <;> cases e <;> simp [signBodies]) _) h₄]
  obtain ⟨ps, -, rfl⟩ := cut_argsNotes (k := .sourceArgs) (fun _ => rfl) h₂
  apply hcalls
  intro n hn
  have hrun : ∀ e, (signHandler env).apply (.void, .sourceCell e) g = g := by
    intro e
    change runCell env e g = g
    cases e <;> simp [runCell, cellCapacity, cellLockCodeHash, cellScriptHashType,
      scriptArgStartInput, scriptArgChunk, cellTypeCodeHash, hinactive]
  have hask : ∀ n, (signHandler env).apply (.size, .sourceCell (.typeArgsSize n)) g = g := by
    intro n
    change (cellTypeArgLength env n g).1 = g
    simp [cellTypeArgLength, hinactive]
  have hend : g.inputLockArgEnd = g := by simp [inputLockArgEnd, hinactive]
  simp only [List.mem_append, List.mem_cons, List.not_mem_nil, or_false, List.mem_map] at hn
  rcases hn with (rfl | rfl | rfl | rfl) | ⟨p, -, rfl⟩ | rfl | hn
  · exact hrun _
  · exact hrun _
  · exact hrun _
  · exact hrun _
  · exact hrun _
  · exact hend
  · cases ht : c.type with
    | none =>
      rw [ht] at hn
      cases hn
    | some s =>
      rw [ht] at hn
      simp only [typeNotes, List.mem_cons, List.not_mem_nil, or_false] at hn
      rcases hn with rfl | rfl | rfl
      · exact hrun _
      · exact hrun _
      · exact hask _

/-- An output, up to `output_end`. -/
theorem outputCell_eq (c : CellOutput) {calls : List (Note SignEvent)}
    (hcut : signBodies.Cut c.notes calls) {g : SignState} (hcell : g.cell = { active := true })
    (htmp : g.lockArgTmp = .zero 28) (hcmp : g.lockArgCmp = .changeLockArg) :
    ∃ front, calls = front ++ [(.close, .outputEnd)] ∧ (.close, .outputEnd) ∉ front ∧
      ∃ tmp index, (c.lock.args.length ≤ 28 → tmp = .ofList 28 c.lock.args) ∧
        (signHandler env).replay front g = readType env c (readLock env .changeLockArg c tmp index
          (!c.lock.args.isPrefixOf g.changeWindow) g) := by
  simp only [CellOutput.notes, List.append_assoc] at hcut
  obtain ⟨c₁, c', rfl, h₁, hcut⟩ := cut_append.mp hcut
  obtain ⟨c₂, c', rfl, h₂, hcut⟩ := cut_append.mp hcut
  obtain ⟨c₃, c₄, rfl, h₃, h₄⟩ := cut_append.mp hcut
  rw [cut_notes (by simp [signBodies]) h₁, cut_notes (by simp [signBodies]) h₄,
    cut_notes (typeNotes_none (fun s e => by cases s <;> cases e <;> simp [signBodies]) _) h₃]
  have hfront : (signHandler env).replay [(.void, .outputCell (.capacity c.capacity)),
      (.void, .outputCell (.lockCodeHash c.lock.codeHash)),
      (.void, .outputCell (.lockHashType c.lock.hashType))] g =
        readLock env .changeLockArg c (.zero 28) 0 false g := by
    have hcalls := front_eq env c hcell
    simp only [Handler.replay_cons, Handler.replay_nil, Handler.apply, signHandler, runCallback,
      runCell, hcalls, readLock]
    rw [← htmp, ← hcmp]
  obtain ⟨tmp, index, hfits, hargs⟩ := args_eq env (k := .outputArgs) (h := signHandler env)
    (fun _ => rfl) (fun _ => rfl) h₂ (g := readLock env .changeLockArg c (.zero 28) 0 false g)
    rfl rfl g.length_changeWindow rfl rfl rfl
  have hread : (signHandler env).replay c₂ (readLock env .changeLockArg c (.zero 28) 0 false g) =
      readLock env .changeLockArg c tmp index (!c.lock.args.isPrefixOf g.changeWindow) g := hargs
  have hassoc : ∀ front last : List (Note SignEvent),
      front ++ (c₂ ++ (typeNotes .outputCell c.type ++ last)) =
        front ++ (c₂ ++ typeNotes .outputCell c.type) ++ last := by
    intro front last
    rw [List.append_assoc, List.append_assoc]
  refine ⟨_, hassoc _ _, ?_, tmp, index, hfits, ?_⟩
  · obtain ⟨ps, -, rfl⟩ := cut_argsNotes (k := .outputArgs) (fun _ => rfl) h₂
    cases c.type <;> simp [typeNotes, signBodies]
  · rw [Handler.replay_append, Handler.replay_append, hfront, hread,
      typeCalls_eq env (fun _ => rfl) fun _ => rfl]
    · rfl
    · rfl

/-! ### Cell data -/

theorem setCellDataSize_eq (n : ℕ) (g : SignState) :
    (setCellDataSize (n + 4) g).1 = { g with cell.dataSize := min 15 n } := by
  rw [setCellDataSize, if_neg (by omega), Nat.add_sub_cancel]

theorem dataPieces_eq (ps : List (List UInt8)) (g : SignState) :
    ps.foldl (fun g p => checkCellDataDataChunk p g) g = { g with
      cell.daoDataIsNonzero :=
        g.cell.daoDataIsNonzero || g.cell.active && ps.flatten.any (· ≠ 0) } := by
  induction ps generalizing g with
  | nil => simp
  | cons p ps ih =>
    rw [List.foldl_cons, ih, List.flatten_cons, List.any_append]
    cases hactive : g.cell.active <;>
      simp [checkCellDataDataChunk, hactive, Bool.or_assoc]

/-- The state once the data of a cell were read. -/
def readData (d : List UInt8) (g : SignState) : SignState :=
  { g with
    cell.dataSize := min 15 d.length
    cell.daoDataIsNonzero := g.cell.daoDataIsNonzero || g.cell.active && d.any (· ≠ 0) }

theorem itemData_eq {k : BodyKind} {size : ℕ → SignEvent} {body : List UInt8 → List UInt8 → SignEvent}
    {finish : SignEvent} {h : Handler SignEvent SignState Exc} (hk : ∀ bs, k.event bs = body bs [])
    (hsize : ∀ n, h.ask (size n) = setCellDataSize n)
    (hbody : ∀ bs, h.run (k.event bs) = checkCellDataDataChunk bs)
    (hnone : ∀ n, signBodies.body (.size, size n) = none)
    (hfinish : signBodies.body (.close, finish) = none) {d : List UInt8}
    {calls : List (Note SignEvent)} (hcut : signBodies.Cut (itemDataNotes size body finish d) calls)
    (g : SignState) : ∃ front, calls = front ++ [(.close, finish)] ∧
      (∀ n ∈ front, n.1 ≠ .close) ∧ h.replay front g = readData d g := by
  unfold itemDataNotes at hcut
  rw [List.append_assoc] at hcut
  obtain ⟨c₁, c', rfl, h₁, hcut⟩ := cut_append.mp hcut
  obtain ⟨c₂, c₃, rfl, h₂, h₃⟩ := cut_append.mp hcut
  rw [cut_notes (by simpa using hnone _) h₁, cut_notes (by simpa using hfinish) h₃]
  obtain ⟨ps, hps, rfl⟩ : ∃ ps : List (List UInt8), ps.flatten = d ∧
      c₂ = ps.map (signBodies.piece k) := by
    split at h₂
    · rename_i hd
      exact ⟨[], hd.symm, cut_nil.mp h₂⟩
    · have hpiece : ((.void, body d []) : Note SignEvent) = signBodies.piece k d := by
        rw [← hk]
        rfl
      rw [hpiece] at h₂
      obtain ⟨ps, cs, rfl, hps, -, hcs⟩ := cut_body.mp h₂
      rw [cut_nil.mp hcs, List.append_nil]
      exact ⟨ps, hps, rfl⟩
  refine ⟨_, (List.append_assoc _ _ _).symm, ?_, ?_⟩
  · intro n hn
    simp only [List.mem_append, List.mem_singleton, List.mem_map] at hn
    rcases hn with rfl | ⟨p, -, rfl⟩
    · exact nofun
    · exact nofun
  · have hfold : ∀ g, h.replay (ps.map (signBodies.piece k)) g =
        ps.foldl (fun g p => checkCellDataDataChunk p g) g := by
      intro g
      rw [Handler.replay, List.foldl_map]
      congr 1
      funext g p
      change h.run (k.event p) g = _
      rw [hbody]
    rw [Handler.replay_append, hfold, dataPieces_eq, hps, Handler.replay_cons, Handler.replay_nil,
      Handler.apply, hsize, setCellDataSize_eq]
    rfl

end Calls
end SignState
end NervosLedger
