import NervosLedger.Core
import NervosLedger.Molecule.Refusals

/-!
# The accounts of the outputs

While the outputs of a transaction are read, the amounts in the state add up to the capacities that
were read, and the entries of `outputs` to what is sent to someone else. So the exceptions that
guard these accounts are never thrown, and there are never too many screens.
-/
namespace NervosLedger
open Molecule Machine
namespace SignState

/-- What the calls say of the outputs: whether they are being read, the capacity of the one that
is, and the capacities of those that were. -/
structure Books where
  reading : Bool := false
  capacity : UInt64 := 0
  capacities : List UInt64 := []

def Books.note (b : Books) : Slot → SignEvent → Books
  | .close, .inputsEnd => { reading := true }
  | .void, .outputsIndex _ => { b with capacity := 0 }
  | .void, .outputCell (.capacity buf) => { b with capacity := readUInt64 buf }
  | .close, .outputEnd => { b with capacities := b.capacities ++ [b.capacity] }
  | .close, .outputsEnd => { b with reading := false }
  | _, _ => b

def books (l : SignLog) : Books := l.foldl (fun b c => b.note c.slot c.event) {}

@[simp] theorem books_nil : books [] = {} := rfl

@[simp] theorem books_concat (l : SignLog) (c : Call SignEvent SignState) :
    books (l ++ [c]) = (books l).note c.slot c.event := by
  simp [books]

/-- The entries of `outputs` and the amount they share. -/
structure Entries (g : SignState) : Prop where
  total : (g.tx.outputs.map Output.capacity).sum = g.tx.plainOutputAmount
  count : g.tx.outputs.length ≤ maxOutputs
  flag : g.v.hasDestinationAddress = true ↔ 0 < g.tx.outputs.length

/-- All outputs so far are accounted for. -/
structure Accounts (capacities : List UInt64) (g : SignState) : Prop extends Entries g where
  sum : g.tx.plainOutputAmount + g.tx.daoOutputAmount + g.tx.changeAmount = capacities.sum

/-- The indices into `outputs` that `output_end` uses. -/
def outputEndIndices (g : SignState) : List ℤ :=
  let count := g.tx.outputs.length
  if g.cell.isDao ∨ !(g.cell.lockArgNonequal || g.cell.isMultisig) then []
  else if !g.v.hasDestinationAddress then if count ≠ 0 then [] else [0]
  else
    let last := g.tx.outputs.getLast?.getD default
    let added := if last.destination.hash ≠ g.lockArgTmp.hash ∨
      last.isMultisig ≠ g.cell.isMultisig then [(count : ℤ)] else []
    (count - 1) :: if count ≥ maxOutputs then [] else added

/-- The state with another entry at an index. -/
def setOutput (i : ℕ) (o : Output) (g : SignState) : SignState :=
  { g with tx.outputs := g.tx.outputs.set i o }

section Indices
variable {g : SignState} {i : ℕ} (o : Output)

theorem getLast_setOutput (hi : (i : ℤ) ≠ g.tx.outputs.length - 1) :
    (g.setOutput i o).tx.outputs.getLast? = g.tx.outputs.getLast? := by
  rw [List.getLast?_eq_getElem?, List.getLast?_eq_getElem?, setOutput, List.length_set]
  rcases Nat.eq_zero_or_pos g.tx.outputs.length with h0 | hpos
  · rw [List.length_eq_zero_iff.mp h0]
    rfl
  · exact List.getElem?_set_ne (by omega)

theorem addToLastOutput_setOutput (hi : (i : ℤ) ≠ g.tx.outputs.length - 1) :
    (g.setOutput i o).addToLastOutput = g.addToLastOutput.setOutput i o := by
  have hmodify : (g.tx.outputs.set i o).modify (g.tx.outputs.length - 1)
      (fun o => { o with capacity := o.capacity + g.cell.capacity }) =
        (g.tx.outputs.modify (g.tx.outputs.length - 1)
          fun o => { o with capacity := o.capacity + g.cell.capacity }).set i o := by
    apply List.ext_getElem?
    intro j
    rw [List.getElem?_modify, List.getElem?_set, List.getElem?_set, List.getElem?_modify]
    by_cases hj : i = j
    · subst hj
      rcases Nat.lt_or_ge i g.tx.outputs.length with hlt | hge
      · have hne : g.tx.outputs.length - 1 ≠ i := by omega
        simp [hne]
      · simp [Nat.not_lt.mpr hge]
    · simp [hj]
  simp only [addToLastOutput, setOutput, List.length_set, hmodify]

theorem pushOutput_setOutput (hi : i ≠ g.tx.outputs.length) :
    (g.setOutput i o).pushOutput = g.pushOutput.setOutput i o := by
  have happend : ∀ e : Output, g.tx.outputs.set i o ++ [e] = (g.tx.outputs ++ [e]).set i o := by
    intro e
    rcases Nat.lt_or_ge i g.tx.outputs.length with hlt | hge
    · rw [List.set_append_left _ _ hlt]
    · rw [List.set_append_right _ _ hge, List.set_eq_of_length_le hge,
        List.set_eq_of_length_le (by simp only [List.length_singleton]; omega)]
  simp only [pushOutput, setOutput, happend]

/-- A new entry, with the capacity that is added to it. -/
theorem pushed_setOutput (hi : i ≠ g.tx.outputs.length) :
    (g.setOutput i o).pushOutput.addToLastOutput =
      g.pushOutput.addToLastOutput.setOutput i o := by
  rw [pushOutput_setOutput o hi, addToLastOutput_setOutput]
  simpa [pushOutput] using hi

theorem plainOutputEnd_setOutput (hi : (i : ℤ) ∉ g.outputEndIndices)
    (haway : (g.cell.lockArgNonequal || g.cell.isMultisig) = true) (hd : g.cell.isDao = false) :
    (g.setOutput i o).plainOutputEnd =
      (g.plainOutputEnd.1.setOutput i o, g.plainOutputEnd.2) := by
  have hcount : (g.setOutput i o).tx.outputs.length = g.tx.outputs.length := List.length_set
  have hv : (g.setOutput i o).v = g.v := rfl
  have htmp : (g.setOutput i o).lockArgTmp = g.lockArgTmp := rfl
  have hcell : (g.setOutput i o).cell = g.cell := rfl
  unfold outputEndIndices at hi
  rw [if_neg (by simp [haway, hd])] at hi
  cases hf : g.v.hasDestinationAddress with
  | true =>
    rw [if_neg (by simp [hf]), List.mem_cons, not_or] at hi
    obtain ⟨hlast, hnew⟩ := hi
    simp only [plainOutputEnd, hv, hf, htmp, hcell, hcount, getLast_setOutput o hlast,
      Bool.not_true, Bool.false_eq_true, if_false]
    split_ifs with hdiff hmixed hfull
    · rfl
    · rfl
    · rw [if_neg hfull, if_pos hdiff, List.mem_singleton] at hnew
      exact Prod.ext (pushed_setOutput (g := { g with v.tag := .multiOutputTransfer }) o
        (by exact_mod_cast hnew)) rfl
    · exact Prod.ext (addToLastOutput_setOutput o hlast) rfl
  | false =>
    rw [if_pos (by simp [hf])] at hi
    simp only [plainOutputEnd, hv, hf, hcount, Bool.not_false, if_true]
    split_ifs with hnone
    · rfl
    · rw [if_neg hnone, List.mem_singleton] at hi
      exact Prod.ext (pushed_setOutput o (by omega)) rfl

/-- `output_end` neither reads nor writes an entry at another index. -/
theorem outputEnd_setOutput (env : Env) (hi : (i : ℤ) ∉ g.outputEndIndices) :
    (g.setOutput i o).outputEnd env =
      ((g.outputEnd env).1.setOutput i o, (g.outputEnd env).2) := by
  unfold outputEnd
  cases hd : g.cell.isDao with
  | true =>
    have hd' : (g.setOutput i o).cell.isDao = true := hd
    rw [if_pos hd', if_pos rfl]
    cases ho : (g.cell.lockArgNonequal || g.cell.isMultisig) <;>
      simp [daoOutputEnd, setOutput, reject, ho]
  | false =>
    have hd' : (g.setOutput i o).cell.isDao = false := hd
    rw [if_neg (by simp [hd']), if_neg Bool.false_ne_true]
    cases haway : (g.cell.lockArgNonequal || g.cell.isMultisig) with
    | true =>
      have haway' : ((g.setOutput i o).cell.lockArgNonequal ||
        (g.setOutput i o).cell.isMultisig) = true := haway
      rw [if_pos haway', if_pos rfl]
      exact plainOutputEnd_setOutput o hi haway hd
    | false =>
      have haway' : ((g.setOutput i o).cell.lockArgNonequal ||
        (g.setOutput i o).cell.isMultisig) = false := haway
      rw [if_neg (by simp [haway']), if_neg Bool.false_ne_true]
      rfl

end Indices

/-- The accounts at a call, and what follows for the call itself. -/
structure Accounted (pre : SignLog) (c : Call SignEvent SignState) : Prop where
  accounts : (books pre).reading = true → c.state.isUnsafe = false →
    Accounts (books pre).capacities c.state
  indices : c.slot = .close → c.event = .outputEnd →
    ∀ i ∈ c.state.outputEndIndices, 0 ≤ i ∧ i < maxOutputs
  throws : c.slot = .close → c.event = .outputEnd ∨ c.event = .outputsEnd →
    ∀ env, (endCallback env c.event c.state).2 = none

/-! ### An output -/

/-- Where the accounts stand, whether or not the transaction was rejected. -/
structure Settled (b : Books) (g : SignState) : Prop extends Entries g where
  sum : g.isUnsafe = false →
    g.tx.plainOutputAmount + g.tx.daoOutputAmount + g.tx.changeAmount = b.capacities.sum

theorem Settled.accounts {b : Books} {g : SignState} (h : Settled b g) (hu : g.isUnsafe = false) :
    Accounts b.capacities g := ⟨h.toEntries, h.sum hu⟩

/-- What the accounts speak of is as it was. -/
structure SameAmounts (g g' : SignState) : Prop where
  flag : g'.v.hasDestinationAddress = g.v.hasDestinationAddress
  tx : g'.tx = g.tx
  isUnsafe : g.isUnsafe = true → g'.isUnsafe = true

theorem Settled.congr {b : Books} {g g' : SignState} (h : Settled b g) (hs : SameAmounts g g') :
    Settled b g' := by
  refine ⟨⟨?_, ?_, ?_⟩, fun hu => ?_⟩
  · rw [hs.tx]
    exact h.total
  · rw [hs.tx]
    exact h.count
  · rw [hs.tx, hs.flag]
    exact h.flag
  · rw [hs.tx]
    refine h.sum ?_
    cases hg : g.isUnsafe with
    | false => rfl
    | true =>
      rw [hs.isUnsafe hg] at hu
      cases hu

theorem Entries.addressed {g : SignState} (h : Entries g) : g.Addressed := by
  cases hd : g.v.hasDestinationAddress with
  | true => exact .inl hd
  | false =>
    have hnil : g.tx.outputs = [] := by
      have hlen := mt h.flag.mpr (by simp [hd])
      exact List.length_eq_zero_iff.mp (by omega)
    refine .inr ⟨hnil, ?_⟩
    rw [← h.total, hnil]
    rfl

/-- Adding to the capacity of the last entry. -/
theorem sum_modify_last {os : List Output} (hne : os ≠ []) (c : UInt64) :
    ((os.modify (os.length - 1) fun o => { o with capacity := o.capacity + c }).map
      Output.capacity).sum = (os.map Output.capacity).sum + c := by
  induction os with
  | nil => exact absurd rfl hne
  | cons o os ih =>
    cases os with
    | nil => simp
    | cons o' os =>
      have hmod := ih (by simp)
      simp only [List.length_cons, Nat.add_sub_cancel, List.modify_succ_cons, List.map_cons,
        List.sum_cons] at hmod ⊢
      rw [hmod]
      ac_rfl

variable {b : Books} {g : SignState}

/-- The entry that a capacity is added to is there, and the flag is set with it. -/
theorem addToLastOutput_settled (h : Settled b { g with v.hasDestinationAddress := true })
    (hc : g.cell.capacity = b.capacity) :
    Settled (b.note .close .outputEnd) g.addToLastOutput where
  total := by
    have hne : g.tx.outputs ≠ [] := List.length_pos_iff.mp (h.flag.mp rfl)
    have htotal : (g.tx.outputs.map Output.capacity).sum = g.tx.plainOutputAmount := h.total
    exact (sum_modify_last hne _).trans (by rw [htotal]; rfl)
  count := by
    simp only [addToLastOutput, List.length_modify]
    exact h.count
  flag := by
    simp only [addToLastOutput, List.length_modify, true_iff]
    exact h.flag.mp rfl
  sum hu := by
    have hsum := h.sum hu
    simp only at hsum
    simp only [addToLastOutput, Books.note, List.sum_append, List.sum_singleton, ← hsum, hc]
    ac_rfl

/-- A new entry is empty. -/
theorem pushOutput_settled (h : Settled b g) (hlen : g.tx.outputs.length < maxOutputs) :
    Settled b { g.pushOutput with v.hasDestinationAddress := true } where
  total := by
    simp only [pushOutput, List.map_append, List.sum_append, List.map_singleton, List.sum_singleton]
    rw [h.total]
    exact UInt64.add_zero _
  count := by
    simp only [pushOutput, List.length_append, List.length_singleton]
    omega
  flag := by simp [pushOutput]
  sum := h.sum

theorem Settled.rejected (h : Settled b g) : Settled (b.note .close .outputEnd) g.reject :=
  ⟨⟨h.total, h.count, h.flag⟩, nofun⟩

theorem plainOutputEnd_settled (h : Settled b g) (hc : g.cell.capacity = b.capacity) :
    Settled (b.note .close .outputEnd) g.plainOutputEnd.1 := by
  unfold plainOutputEnd
  split
  · rename_i hd
    have hd' : g.v.hasDestinationAddress = false := by simpa using hd
    have hlen : g.tx.outputs.length = 0 := by
      have hnot := mt h.flag.mpr (by simp [hd'])
      omega
    rw [if_neg (by simp [hlen])]
    exact addToLastOutput_settled (pushOutput_settled h (by rw [hlen]; decide)) hc
  · rename_i hd
    have hd' : g.v.hasDestinationAddress = true := by simpa using hd
    dsimp only
    split
    · split
      · exact h.rejected
      · split
        · exact ⟨⟨h.total, h.count, h.flag⟩, nofun⟩
        · rename_i hlen
          have hpush := pushOutput_settled h (not_le.mp hlen)
          exact addToLastOutput_settled (hpush.congr ⟨rfl, rfl, id⟩) hc
    · exact addToLastOutput_settled (h.congr ⟨hd'.symm, rfl, id⟩) hc

theorem outputEnd_settled (env : Env) (h : Settled b g) (hc : g.cell.capacity = b.capacity) :
    Settled (b.note .close .outputEnd) (g.outputEnd env).1 := by
  unfold outputEnd
  split
  · simp only [daoOutputEnd]
    split
    · exact ⟨⟨h.total, h.count, h.flag⟩, fun hu => by cases hu⟩
    · refine ⟨⟨h.total, h.count, h.flag⟩, fun hu => ?_⟩
      have hsum := h.sum hu
      simp only [Books.note, List.sum_append, List.sum_singleton, ← hsum, hc]
      ac_rfl
  · split
    · exact plainOutputEnd_settled h hc
    · refine ⟨⟨h.total, h.count, h.flag⟩, fun hu => ?_⟩
      have hsum := h.sum hu
      simp only [Books.note, List.sum_append, List.sum_singleton, ← hsum, hc]
      ac_rfl

theorem outputEndIndices_bound (h : Entries g) :
    ∀ i ∈ g.outputEndIndices, 0 ≤ i ∧ i < maxOutputs := by
  have hcount := h.count
  intro i hi
  unfold outputEndIndices at hi
  dsimp only at hi
  split at hi
  · cases hi
  · split at hi
    · split at hi
      · cases hi
      · rw [List.mem_singleton.mp hi]
        decide
    · rename_i hd
      have hpos := h.flag.mp (by simpa using hd)
      rcases List.mem_cons.mp hi with rfl | hi
      · omega
      · split at hi
        · cases hi
        · split at hi
          · rw [List.mem_singleton.mp hi]
            omega
          · cases hi

/-! ### The state and the log -/

/-- What holds of the outputs whatever the parser has come to. -/
structure Sound (y : SignState × SignLog) : Prop where
  log : Log.Each Accounted y.2
  count : y.1.tx.outputs.length ≤ maxOutputs
  accounts : (books y.2).reading = true → y.1.isUnsafe = false →
    Accounts (books y.2).capacities y.1

/-- Before the outputs are read. -/
structure Before (y : SignState × SignLog) : Prop extends Sound y where
  reading : (books y.2).reading = false
  flag : y.1.v.hasDestinationAddress = false

/-- At the beginning of the outputs. -/
structure Opened (y : SignState × SignLog) : Prop extends Sound y where
  reading : (books y.2).reading = true
  settled : Settled (books y.2) y.1

/-- Once an output was begun. -/
structure Reading (y : SignState × SignLog) : Prop extends Opened y where
  active : y.1.cell.active = true
  capacity : y.1.cell.capacity = (books y.2).capacity

/-- After the outputs. -/
structure After (y : SignState × SignLog) : Prop extends Sound y where
  reading : (books y.2).reading = false

/-- A call that is not the end of an output, or of all of them. -/
def Plain (s : Slot) (e : SignEvent) : Prop :=
  s = .close → e ≠ .outputEnd ∧ e ≠ .outputsEnd

theorem Sound.accounted {y : SignState × SignLog} (h : Sound y) {s : Slot} {e : SignEvent}
    (hp : Plain s e) : Accounted y.2 ⟨s, e, y.1⟩ where
  accounts := h.accounts
  indices hs he := absurd he (hp hs).1
  throws hs he := by
    rcases he with he | he
    · exact absurd he (hp hs).1
    · exact absurd he (hp hs).2

theorem Opened.accounted {y : SignState × SignLog} (h : Opened y) (s : Slot) (e : SignEvent) :
    Accounted y.2 ⟨s, e, y.1⟩ where
  accounts := h.accounts
  indices _ _ := outputEndIndices_bound h.settled.toEntries
  throws _ he env := by
    have ha := h.settled.addressed
    rcases he with rfl | rfl
    · exact (outputEnd_addressed env ha).1
    · exact outputsEnd_of_addressed ha

theorem Opened.of_settled {l : SignLog} {g : SignState} (hl : Log.Each Accounted l)
    (hr : (books l).reading = true) (hs : Settled (books l) g) : Opened (g, l) :=
  ⟨⟨hl, hs.count, fun _ hu => hs.accounts hu⟩, hr, hs⟩

theorem Before.call {y : SignState × SignLog} (h : Before y) {s : Slot} {e : SignEvent}
    (hp : Plain s e) (hn : ((books y.2).note s e).reading = false) {g' : SignState}
    (hs : SameOutputs y.1 g') : Before (g', y.2 ++ [⟨s, e, y.1⟩]) where
  log := Log.each_concat.mpr ⟨h.log, h.accounted hp⟩
  count := by
    rw [hs.2.1]
    exact h.count
  accounts hr := by
    rw [books_concat, hn] at hr
    cases hr
  reading := by rw [books_concat, hn]
  flag := hs.1.trans h.flag

theorem After.call {y : SignState × SignLog} (h : After y) {s : Slot} {e : SignEvent}
    (hp : Plain s e) (hn : ((books y.2).note s e).reading = false) {g' : SignState}
    (hs : g'.tx.outputs = y.1.tx.outputs) : After (g', y.2 ++ [⟨s, e, y.1⟩]) where
  log := Log.each_concat.mpr ⟨h.log, h.accounted hp⟩
  count := by
    rw [hs]
    exact h.count
  accounts hr := by
    rw [books_concat, hn] at hr
    cases hr
  reading := by rw [books_concat, hn]

theorem Opened.call {y : SignState × SignLog} (h : Opened y) {s : Slot} {e : SignEvent}
    (hn : ((books y.2).note s e).reading = true) {g' : SignState}
    (hs : Settled ((books y.2).note s e) g') : Opened (g', y.2 ++ [⟨s, e, y.1⟩]) := by
  refine .of_settled (Log.each_concat.mpr ⟨h.log, h.accounted s e⟩) ?_ ?_
  · rw [books_concat, hn]
  · rw [books_concat]
    exact hs

/-! ### The callbacks -/

section Callbacks
variable (env : Env)

/-- The callbacks up to the end of the inputs, but for that one. -/
def Early : SignEvent → Prop
  | .signPathEnd | .changePathEnd => True
  | .inputsEnd | .outputsChunk _ | .outputsIndex _ | .outputCell _ | .outputEnd => False
  | e => Calm e

/-- The callbacks after the outputs. -/
def Late : SignEvent → Prop
  | .dataVecChunk _ | .dataIndex _ | .dataSize _ | .dataChunk _ _ | .dataEnd | .rawEnd
  | .witnessesIndex _ | .witnessSize _ | .witnessChunk _ _ | .witnessEnd | .witnessesEnd => True
  | _ => False

theorem Early.cases {e : SignEvent} (he : Early e) :
    e = .signPathEnd ∨ e = .changePathEnd ∨ Calm e := by
  cases e with
  | signPathEnd => exact .inl rfl
  | changePathEnd => exact .inr (.inl rfl)
  | _ => first | exact he.elim | exact .inr (.inr he)

theorem setPath_sameOutputs (g : SignState) :
    SameOutputs g (g.setSignPath env).1 ∧ SameOutputs g (g.setChangePath env).1 := by
  constructor
  · unfold setSignPath
    split <;> exact ⟨rfl, rfl, rfl⟩
  · unfold setChangePath
    split <;> exact ⟨rfl, rfl, rfl⟩

theorem apply_early {e : SignEvent} (he : Early e) (s : Slot) (g : SignState) :
    SameOutputs g ((signHandler env).apply (s, e) g) := by
  cases s with
  | void =>
    rcases he.cases with rfl | rfl | hc
    · exact ⟨rfl, rfl, rfl⟩
    · exact ⟨rfl, rfl, rfl⟩
    · exact runCallback_sameOutputs env hc
  | size =>
    rcases he.cases with rfl | rfl | hc
    · exact ⟨rfl, rfl, rfl⟩
    · exact ⟨rfl, rfl, rfl⟩
    · exact askCallback_sameOutputs env hc
  | close =>
    cases e with
    | signPathEnd => exact (setPath_sameOutputs env g).1
    | changePathEnd => exact (setPath_sameOutputs env g).2
    | sourceCell e =>
      cases e <;> first | exact inputLockArgEnd_sameOutputs | exact ⟨rfl, rfl, rfl⟩
    | sourceDataEnd => exact finishInputCellData_sameOutputs env
    | _ => first | exact ⟨rfl, rfl, rfl⟩ | exact he.elim

theorem note_early {e : SignEvent} (he : Early e) (s : Slot) (b : Books) : b.note s e = b := by
  cases s <;> cases e <;> first | rfl | exact he.elim

theorem early_plain {e : SignEvent} (he : Early e) (s : Slot) : Plain s e := by
  rintro -
  constructor <;> rintro rfl <;> exact he

theorem early_keepsAt {e : SignEvent} (he : Early e) :
    KeepsAt (signHandler env).traced Before e where
  run {y} h := h.call (early_plain he .void) (by rw [note_early he, h.reading])
    (apply_early env he .void y.1)
  ask {y} h := h.call (early_plain he .size) (by rw [note_early he, h.reading])
    (apply_early env he .size y.1)
  finish {y} h := h.call (early_plain he .close) (by rw [note_early he, h.reading])
    (apply_early env he .close y.1)

theorem finalizeTag_outputs (g : SignState) : g.finalizeTag.1.tx = g.tx := by
  unfold finalizeTag
  cases g.v.tag <;> first | rfl | (dsimp only; split_ifs <;> rfl)

theorem apply_late {e : SignEvent} (he : Late e) (s : Slot) (g : SignState) :
    ((signHandler env).apply (s, e) g).tx.outputs = g.tx.outputs := by
  cases s with
  | void =>
    cases e with
    | dataChunk buf following =>
      simp only [Handler.apply, signHandler, runCallback, checkCellDataDataChunk]
      split <;> rfl
    | witnessesIndex index =>
      simp only [Handler.apply, signHandler, runCallback, beginWitness]
      split <;> rfl
    | witnessChunk buf following =>
      have halike : (processWitness env buf following g).flagless.tx.outputs =
          g.flagless.tx.outputs := by rw [processWitness_alike]
      exact halike
    | _ => first | rfl | exact he.elim
  | size =>
    cases e with
    | dataSize size =>
      simp only [Handler.apply, signHandler, askCallback, setCellDataSize]
      split <;> rfl
    | witnessSize size =>
      simp only [Handler.apply, signHandler, askCallback, hashWitnessLength]
      split_ifs <;> rfl
    | _ => first | rfl | exact he.elim
  | close =>
    cases e with
    | dataEnd =>
      simp only [Handler.apply, signHandler, endCallback, finishOutputCellData]
      split_ifs <;> rfl
    | rawEnd =>
      have ht := congrArg TxView.outputs (finalizeTag_outputs g)
      simp only [Handler.apply, signHandler, endCallback, finalizeRawTransaction]
      generalize g.finalizeTag = x at ht ⊢
      obtain ⟨g', _ | _⟩ := x <;> exact ht
    | witnessEnd =>
      simp only [Handler.apply, signHandler, endCallback, processWitnessEnd]
      split <;> rfl
    | _ => first | rfl | exact he.elim

theorem note_late {e : SignEvent} (he : Late e) (s : Slot) (b : Books) : b.note s e = b := by
  cases s <;> cases e <;> first | rfl | exact he.elim

theorem late_plain {e : SignEvent} (he : Late e) (s : Slot) : Plain s e := by
  rintro -
  constructor <;> rintro rfl <;> exact he

theorem late_keepsAt {e : SignEvent} (he : Late e) :
    KeepsAt (signHandler env).traced After e where
  run {y} h := h.call (late_plain he .void) (by rw [note_late he, h.reading])
    (apply_late env he .void y.1)
  ask {y} h := h.call (late_plain he .size) (by rw [note_late he, h.reading])
    (apply_late env he .size y.1)
  finish {y} h := h.call (late_plain he .close) (by rw [note_late he, h.reading])
    (apply_late env he .close y.1)

/-- The callbacks of an output. -/
def OfOutput : SignEvent → Prop
  | .outputCell _ | .outputEnd => True
  | _ => False

theorem runCell_amounts (g : SignState) (e : CellEvent) : SameAmounts g (runCell env e g) := by
  have ho := runCell_onward env g e
  refine ⟨(runCell_sameOutputs env e).1, ?_, ho.isUnsafe⟩
  cases e with
  | capacity buf =>
    simp only [runCell, cellCapacity]
    split <;> rfl
  | lockCodeHash buf =>
    simp only [runCell, cellLockCodeHash]
    split_ifs <;> rfl
  | lockHashType hashType =>
    simp only [runCell, cellScriptHashType]
    split_ifs <;> rfl
  | typeHashType hashType =>
    simp only [runCell, cellScriptHashType]
    split_ifs <;> rfl
  | lockArgsStart =>
    simp only [runCell, scriptArgStartInput]
    split <;> rfl
  | lockArgs buf following =>
    simp only [runCell, scriptArgChunk]
    split_ifs <;> rfl
  | typeCodeHash buf =>
    simp only [runCell, cellTypeCodeHash]
    split_ifs <;> rfl
  | lockEnd => rfl
  | typeArgsSize size => rfl

/-- An active cell takes its capacity, and nothing else changes it. -/
theorem runCell_capacity {g : SignState} (ha : g.cell.active = true) (b : Books)
    (hc : g.cell.capacity = b.capacity) (e : CellEvent) :
    (runCell env e g).cell.active = true ∧
      (runCell env e g).cell.capacity = (b.note .void (.outputCell e)).capacity := by
  cases e with
  | capacity buf =>
    have hrun : runCell env (.capacity buf) g = { g with cell.capacity := readUInt64 buf } := by
      simp only [runCell, cellCapacity, ha, Bool.not_true, Bool.false_eq_true, if_false]
    rw [hrun]
    exact ⟨ha, rfl⟩
  | lockCodeHash buf =>
    simp only [runCell, cellLockCodeHash]
    split_ifs <;> exact ⟨ha, hc⟩
  | lockHashType hashType =>
    simp only [runCell, cellScriptHashType]
    split_ifs <;> exact ⟨ha, hc⟩
  | typeHashType hashType =>
    simp only [runCell, cellScriptHashType]
    split_ifs <;> exact ⟨ha, hc⟩
  | lockArgsStart =>
    simp only [runCell, scriptArgStartInput]
    split_ifs <;> exact ⟨ha, hc⟩
  | lockArgs buf following =>
    simp only [runCell, scriptArgChunk]
    split_ifs <;> exact ⟨ha, hc⟩
  | typeCodeHash buf =>
    simp only [runCell, cellTypeCodeHash]
    split_ifs <;> exact ⟨ha, hc⟩
  | lockEnd => exact ⟨ha, hc⟩
  | typeArgsSize size => exact ⟨ha, hc⟩

theorem outputEnd_cell (g : SignState) : (g.outputEnd env).1.cell = g.cell := by
  simp only [outputEnd, daoOutputEnd, plainOutputEnd]
  split_ifs <;> rfl

theorem Settled.note {b : Books} {g : SignState} (h : Settled b g) {s : Slot} {e : SignEvent}
    (he : (b.note s e).capacities = b.capacities) : Settled (b.note s e) g :=
  ⟨h.toEntries, fun hu => by rw [he]; exact h.sum hu⟩

theorem Reading.call {y : SignState × SignLog} (h : Reading y) {s : Slot} {e : SignEvent}
    (hr : ((books y.2).note s e).reading = (books y.2).reading) {g' : SignState}
    (hs : Settled ((books y.2).note s e) g') (ha : g'.cell.active = true)
    (hc : g'.cell.capacity = ((books y.2).note s e).capacity) :
    Reading (g', y.2 ++ [⟨s, e, y.1⟩]) :=
  ⟨h.toOpened.call (hr.trans h.reading) hs, ha, by rw [books_concat]; exact hc⟩

theorem ofOutput_keepsAt {e : SignEvent} (he : OfOutput e) :
    KeepsAt (signHandler env).traced Reading e where
  run {y} h := by
    cases e with
    | outputCell e =>
      obtain ⟨ha, hc⟩ := runCell_capacity env h.active (books y.2) h.capacity e
      refine h.call ?_ ((h.settled.congr (runCell_amounts env y.1 e)).note ?_) ha hc
      · cases e <;> rfl
      · cases e <;> rfl
    | outputEnd => exact h.call rfl h.settled h.active h.capacity
    | _ => exact he.elim
  ask {y} h := by
    cases e with
    | outputCell e =>
      have ho := askCallback_onward env y.1 (.outputCell e)
      have hsame : (askCallback env (.outputCell e) y.1).1.v = y.1.v ∧
          (askCallback env (.outputCell e) y.1).1.tx = y.1.tx ∧
          (askCallback env (.outputCell e) y.1).1.cell = y.1.cell := by
        cases e with
        | typeArgsSize size =>
          simp only [askCallback, cellTypeArgLength]
          split_ifs <;> exact ⟨rfl, rfl, rfl⟩
        | _ => exact ⟨rfl, rfl, rfl⟩
      obtain ⟨hv, htx, hcell⟩ := hsame
      refine h.call rfl (h.settled.congr ⟨congrArg _ hv, htx, ho.isUnsafe⟩) ?_ ?_
      · exact (congrArg CellState.active hcell).trans h.active
      · exact (congrArg CellState.capacity hcell).trans h.capacity
    | outputEnd => exact h.call rfl h.settled h.active h.capacity
    | _ => exact he.elim
  finish {y} h := by
    cases e with
    | outputCell e => exact h.call rfl h.settled h.active h.capacity
    | outputEnd =>
      refine h.call rfl (outputEnd_settled env h.settled h.capacity) ?_ ?_
      · exact (congrArg CellState.active (outputEnd_cell env y.1)).trans h.active
      · exact (congrArg CellState.capacity (outputEnd_cell env y.1)).trans h.capacity
    | _ => exact he.elim

theorem outputCallbacks_ofOutput : outputCallbacks.Every OfOutput := by
  simp [Reader.Every, outputCallbacks, typeScriptCallbacks, Reader.cellOutput, Reader.script,
    Reader.scriptOpt, Reader.uint64, Reader.byte32, Callbacks.every_mk, Fin.forall_fin_succ,
    OfOutput]

theorem outputStart_reading {y : SignState × SignLog} (h : Opened y) (k : ℕ) :
    Reading ((signHandler env).traced.run (.outputsIndex k) y) := by
  have hs : Settled (books y.2) (outputStart k y.1) :=
    ⟨⟨h.settled.total, h.settled.count, h.settled.flag⟩, h.settled.sum⟩
  have ho : Opened ((signHandler env).traced.run (.outputsIndex k) y) :=
    h.call (s := .void) (e := .outputsIndex k) h.reading (hs.note rfl)
  refine ⟨ho, rfl, ?_⟩
  rw [Handler.run_traced, books_concat]
  rfl

/-- The outputs begin with `output_start`. -/
theorem outputs_opens : Opens (signHandler env).traced outputsTable.unfinished outputCallbacks
    Opened Reading where
  finish := rfl
  size := rfl
  chunk := by
    rintro f hf bs y
    cases hf
    constructor
    · intro h
      exact h.call (s := .void) (e := .outputsChunk bs) h.reading (h.settled.congr ⟨rfl, rfl, id⟩)
    · intro h
      exact h.call (s := .void) (e := .outputsChunk bs) rfl (h.settled.congr ⟨rfl, rfl, id⟩)
        h.active h.capacity
  first y h _ := outputStart_reading env h 0
  next y h k := outputStart_reading env h.toOpened k
  items := outputCallbacks_ofOutput.mono fun _ he => ofOutput_keepsAt env he

theorem inputsEnd_opened {y : SignState × SignLog} (h : Before y) :
    Opened ((signHandler env).traced.finish .inputsEnd y).1 := by
  refine .of_settled (Log.each_concat.mpr ⟨h.log, ?_⟩) ?_ ?_
  · exact h.accounted fun _ => ⟨nofun, nofun⟩
  · rw [books_concat]
    rfl
  · rw [books_concat]
    refine ⟨⟨rfl, Nat.zero_le _, ?_⟩, fun _ => rfl⟩
    simp [endCallback, signHandler, finishInputs, h.flag]

theorem outputsEnd_after {y : SignState × SignLog} (h : Opened y) :
    After ((signHandler env).traced.finish .outputsEnd y).1 := by
  have hcount : y.1.outputsEnd.1.tx.outputs.length ≤ maxOutputs := by
    have hlen := h.count
    simp only [outputsEnd]
    split_ifs
    all_goals first | exact hlen | exact (show 1 ≤ maxOutputs by decide)
  have hclosed : (books (y.2 ++ [⟨.close, .outputsEnd, y.1⟩])).reading = false := by
    rw [books_concat]
    rfl
  refine ⟨⟨Log.each_concat.mpr ⟨h.log, h.accounted _ _⟩, hcount, fun hr => ?_⟩, hclosed⟩
  cases hclosed.symm.trans hr

end Callbacks

/-! ### The outline -/

def openedOutline : Outline (SignState × SignLog) :=
  ⟨Opened, (Outline.vector Opened Reading).mid, After, fun _ => Reading⟩

def accountRawOutline : Outline (SignState × SignLog) :=
  .table [.throughout Before, .throughout Before, .throughout Before,
    ⟨Before, fun _ => Before, Opened, fun _ => Before⟩, openedOutline, .throughout After] After

/-- What holds between the packets of a transaction. -/
def accountOutline : Outline (SignState × SignLog) :=
  .table [.throughout Before, .throughout Before, .throughout Before, accountRawOutline,
    .throughout After] After

section Leaves
variable (env : Env)

theorem early_leaves {r : Reader SignEvent} (hr : r.Every Early) :
    (r.part (signHandler env).traced).Leaves Sound (.throughout Before) :=
  (Reader.leaves_throughout (hr.mono fun _ => early_keepsAt env)).mono fun _ h => h.toSound

theorem late_leaves {r : Reader SignEvent} (hr : r.Every Late) :
    (r.part (signHandler env).traced).Leaves Sound (.throughout After) :=
  (Reader.leaves_throughout (hr.mono fun _ => late_keepsAt env)).mono fun _ h => h.toSound

/-- The callback table of the inputs. -/
def inputsTable : Callbacks SignEvent where
  start := some .inputsStart
  length := some .inputsLength
  finish := some .inputsEnd

theorem inputs_leave : (inputsCallbacks.part (signHandler env).traced).Leaves Sound
    ⟨Before, fun _ => Before, Opened, fun _ => Before⟩ := by
  have hearly : (Reader.dynVec inputsTable.unfinished annotatedCellInputCallbacks).Every Early := by
    simp [Callbacks.unfinished, inputsTable, annotatedCellInputCallbacks, sourceCallbacks,
      sourceCellCallbacks, typeScriptCallbacks, Reader.annotatedCellInput, Reader.cellInput,
      Reader.outPoint, Reader.rawTransaction, Reader.cellOutputVec, Reader.cellOutput,
      Reader.script, Reader.scriptOpt, Reader.bytesVec, Reader.uint32, Reader.uint64,
      Reader.byte32, Reader.cellDepVec, Reader.cellDep, Reader.byte32Vec, Reader.cellInputVec,
      Reader.Every, Callbacks.every_mk, Fin.forall_fin_succ, Early, Calm]
  have hl : ((Reader.dynVec inputsTable annotatedCellInputCallbacks).part
      (signHandler env).traced).Leaves Before
        ⟨Before, fun _ => Before, Opened, fun _ => Before⟩ := by
    apply Reader.dynVec_leaves_throughout (hearly.mono fun _ => early_keepsAt env)
    exact fun y h => ⟨rfl, inputsEnd_opened env h⟩
  exact hl.mono fun _ h => h.toSound

theorem outputs_leave :
    (outputsCallbacks.part (signHandler env).traced).Leaves Sound openedOutline := by
  have hl : ((Reader.dynVec outputsTable outputCallbacks).part
      (signHandler env).traced).Leaves (fun y => Opened y ∨ Reading y) openedOutline := by
    apply Reader.dynVec_leaves_vector (outputs_opens env) (fun _ h => h)
    intro y h
    have ho : Opened y := h.elim id Reading.toOpened
    exact ⟨outputsEnd_of_addressed ho.settled.addressed, outputsEnd_after env ho⟩
  exact hl.mono fun y h => h.elim (fun h => h.toSound) fun h => h.toSound

theorem outputsData_late : outputsDataCallbacks.Every Late := by
  simp [outputsDataCallbacks, Reader.bytesVec, Reader.Every, Callbacks.every_mk, Late]

theorem witnesses_late : witnessesCallbacks.Every Late := by
  simp [witnessesCallbacks, Reader.bytesVec, Reader.Every, Callbacks.every_mk, Late]

theorem accountRaw_linked : Linked (signHandler env).traced
    { offsets := some .offsets, finish := some .rawEnd }
    [.throughout Before, .throughout Before, .throughout Before,
      ⟨Before, fun _ => Before, Opened, fun _ => Before⟩, openedOutline, .throughout After]
    After where
  link {i o o'} ho ho' g hg := by
    match i with
    | 0 | 1 | 2 | 3 | 4 => cases ho; cases ho'; exact hg
    | i + 5 => cases ho'
  start := rfl
  chunk := rfl
  offsets {o} ho f hf n ns st g hg := by
    cases ho
    cases hf
    exact (early_keepsAt env (e := .offsets n ns) trivial).run hg
  close {o} ho g hg := by
    cases ho
    exact ⟨rfl, (late_keepsAt env (e := .rawEnd) trivial).finish hg⟩

theorem accountRaw_leaves :
    (annotatedRawTransactionCallbacks.part (signHandler env).traced).Leaves Sound
      accountRawOutline where
  start hg := hg
  parse size inp hg := by
    refine Reader.parse_table_leaves (accountRaw_linked env) (.cons ?_ (.cons ?_ (.cons ?_
      (.cons ?_ (.cons ?_ (.cons ?_ .nil)))))) (fun g hg => (hg _ rfl).toSound) size inp hg
    · exact early_leaves env (by simp [Reader.uint32, Reader.Every, Early, Calm])
    · exact early_leaves env (by simp [Reader.cellDepVec, Reader.cellDep, Reader.outPoint,
        Reader.byte32, Reader.uint32, Reader.Every, Callbacks.every_mk, Early, Calm])
    · exact early_leaves env (by simp [Reader.byte32Vec, Reader.byte32, Reader.Every,
        Callbacks.every_mk, Early, Calm])
    · exact inputs_leave env
    · exact outputs_leave env
    · exact late_leaves env outputsData_late

theorem account_linked : Linked (signHandler env).traced {}
    [.throughout Before, .throughout Before, .throughout Before, accountRawOutline,
      .throughout After] After where
  link {i o o'} ho ho' g hg := by
    match i with
    | 0 | 1 | 3 => cases ho; cases ho'; exact hg
    | 2 =>
      cases ho
      cases ho'
      intro o ho
      cases ho
      exact hg
    | i + 4 => cases ho'
  start := rfl
  chunk := rfl
  offsets _ f hf := nomatch hf
  close {o} ho g hg := by
    cases ho
    exact ⟨rfl, hg⟩

/-- The parser of a transaction keeps the accounts from packet to packet. -/
theorem annotatedTransaction_leaves {st : ReaderState} {y : SignState × SignLog} (n : ℕ)
    (inp : List UInt8) (hg : accountOutline.mid st y) :
    (annotatedTransactionCallbacks.parse (signHandler env).traced st n inp y).Leaves Sound
      accountOutline := by
  refine Reader.parse_table_leaves (account_linked env) (.cons ?_ (.cons ?_ (.cons ?_
    (.cons ?_ (.cons ?_ .nil))))) (fun g hg => (hg _ rfl).toSound) n inp hg
  · exact early_leaves env (by simp [Reader.bip32, Reader.uint32, Reader.Every,
      Callbacks.every_mk, Early, Calm])
  · exact early_leaves env (by simp [Reader.bip32, Reader.uint32, Reader.Every,
      Callbacks.every_mk, Early, Calm])
  · exact early_leaves env (by simp [Reader.uint32, Reader.Every, Early, Calm])
  · exact accountRaw_leaves env
  · exact late_leaves env witnesses_late

end Leaves

/-! ### What the outline says -/

section Frame
variable {y : SignState × SignLog} {g' : SignState}

theorem Accounts.congr {capacities : List UInt64} {g g' : SignState} (h : Accounts capacities g)
    (hs : SameAmounts g g') : Accounts capacities g' := by
  refine ⟨⟨?_, ?_, ?_⟩, ?_⟩
  · rw [hs.tx]
    exact h.total
  · rw [hs.tx]
    exact h.count
  · rw [hs.tx, hs.flag]
    exact h.flag
  · rw [hs.tx]
    exact h.sum

theorem Sound.congr (h : Sound y) (hs : SameAmounts y.1 g') : Sound (g', y.2) where
  log := h.log
  count := by
    rw [hs.tx]
    exact h.count
  accounts hr hu := by
    refine (h.accounts hr ?_).congr hs
    cases hg : y.1.isUnsafe with
    | false => rfl
    | true => cases (hs.isUnsafe hg).symm.trans hu

theorem Before.congr (h : Before y) (hs : SameAmounts y.1 g') : Before (g', y.2) :=
  ⟨h.toSound.congr hs, h.reading, hs.flag.trans h.flag⟩

theorem Opened.congr (h : Opened y) (hs : SameAmounts y.1 g') : Opened (g', y.2) :=
  ⟨h.toSound.congr hs, h.reading, h.settled.congr hs⟩

theorem Reading.congr (h : Reading y) (hs : SameAmounts y.1 g') (hc : g'.cell = y.1.cell) :
    Reading (g', y.2) :=
  ⟨h.toOpened.congr hs, by rw [hc]; exact h.active, by rw [hc]; exact h.capacity⟩

theorem After.congr (h : After y) (hs : SameAmounts y.1 g') : After (g', y.2) :=
  ⟨h.toSound.congr hs, h.reading⟩

theorem openedOutline_restack (st' : ReaderState) {st : ReaderState} (h : openedOutline.mid st y) :
    openedOutline.mid st ({ y.1 with transactionStack := st' }, y.2) := by
  unfold openedOutline Outline.vector at h ⊢
  dsimp only at h ⊢
  split
  · rename_i hs
    rw [if_pos hs] at h
    exact h.congr ⟨rfl, rfl, id⟩
  · rename_i hs
    rw [if_neg hs] at h
    exact h.congr ⟨rfl, rfl, id⟩ rfl

theorem rawOutline_restack (st' : ReaderState) {st : ReaderState} (h : accountRawOutline.mid st y) :
    accountRawOutline.mid st ({ y.1 with transactionStack := st' }, y.2) := by
  refine Outline.mid_table (f := fun y => ({ y.1 with transactionStack := st' }, y.2))
    ?_ ?_ ?_ h <;>
    simp only [List.forall_mem_cons, List.not_mem_nil, false_implies, implies_true, and_true]
  · exact ⟨fun _ h => h.congr ⟨rfl, rfl, id⟩, fun _ h => h.congr ⟨rfl, rfl, id⟩,
      fun _ h => h.congr ⟨rfl, rfl, id⟩, fun _ h => h.congr ⟨rfl, rfl, id⟩,
      fun _ h => h.congr ⟨rfl, rfl, id⟩, fun _ h => h.congr ⟨rfl, rfl, id⟩⟩
  · exact ⟨fun _ _ h => h.congr ⟨rfl, rfl, id⟩, fun _ _ h => h.congr ⟨rfl, rfl, id⟩,
      fun _ _ h => h.congr ⟨rfl, rfl, id⟩, fun _ _ h => h.congr ⟨rfl, rfl, id⟩,
      fun _ _ h => openedOutline_restack st' h, fun _ _ h => h.congr ⟨rfl, rfl, id⟩⟩
  · exact ⟨fun _ h => h.congr ⟨rfl, rfl, id⟩, fun _ h => h.congr ⟨rfl, rfl, id⟩,
      fun _ h => h.congr ⟨rfl, rfl, id⟩, fun _ h => h.congr ⟨rfl, rfl, id⟩,
      fun _ h => h.congr ⟨rfl, rfl, id⟩, fun _ h => h.congr ⟨rfl, rfl, id⟩⟩

/-- The outline does not speak of the parser's memory in the state. -/
theorem accountOutline_restack (st' : ReaderState) {st : ReaderState}
    (h : accountOutline.mid st y) :
    accountOutline.mid st ({ y.1 with transactionStack := st' }, y.2) := by
  refine Outline.mid_table (f := fun y => ({ y.1 with transactionStack := st' }, y.2))
    ?_ ?_ ?_ h <;>
    simp only [List.forall_mem_cons, List.not_mem_nil, false_implies, implies_true, and_true]
  · refine ⟨fun _ h => h.congr ⟨rfl, rfl, id⟩, fun _ h => h.congr ⟨rfl, rfl, id⟩,
      fun _ h => h.congr ⟨rfl, rfl, id⟩, fun _ hg => ?_, fun _ h => h.congr ⟨rfl, rfl, id⟩⟩
    intro o ho
    cases ho
    exact (hg _ rfl : Before _).congr ⟨rfl, rfl, id⟩
  · exact ⟨fun _ _ h => h.congr ⟨rfl, rfl, id⟩, fun _ _ h => h.congr ⟨rfl, rfl, id⟩,
      fun _ _ h => h.congr ⟨rfl, rfl, id⟩, fun _ _ h => rawOutline_restack st' h,
      fun _ _ h => h.congr ⟨rfl, rfl, id⟩⟩
  · exact ⟨fun _ h => h.congr ⟨rfl, rfl, id⟩, fun _ h => h.congr ⟨rfl, rfl, id⟩,
      fun _ h => h.congr ⟨rfl, rfl, id⟩, fun _ h => h.congr ⟨rfl, rfl, id⟩,
      fun _ h => h.congr ⟨rfl, rfl, id⟩⟩

theorem openedOutline_sound {st : ReaderState} (h : openedOutline.mid st y) : Sound y := by
  unfold openedOutline Outline.vector at h
  dsimp only at h
  split at h
  · exact h.toSound
  · exact h.toSound

theorem rawOutline_sound {st : ReaderState} (h : accountRawOutline.mid st y) : Sound y := by
  refine Outline.table_mid_imp (by simp) ?_ ?_ ?_ h <;>
    simp only [List.forall_mem_cons, List.not_mem_nil, false_implies, implies_true, and_true]
  · exact ⟨fun _ h => h.toSound, fun _ h => h.toSound, fun _ h => h.toSound,
      fun _ h => h.toSound, fun _ h => h.toSound, fun _ h => h.toSound⟩
  · exact ⟨fun _ _ h => h.toSound, fun _ _ h => h.toSound, fun _ _ h => h.toSound,
      fun _ _ h => h.toSound, fun _ _ h => openedOutline_sound h, fun _ _ h => h.toSound⟩
  · exact ⟨fun _ h => h.toSound, fun _ h => h.toSound, fun _ h => h.toSound,
      fun _ h => h.toSound, fun _ h => h.toSound, fun _ h => h.toSound⟩

theorem accountOutline_sound {st : ReaderState} (h : accountOutline.mid st y) : Sound y := by
  refine Outline.table_mid_imp (by simp) ?_ ?_ ?_ h <;>
    simp only [List.forall_mem_cons, List.not_mem_nil, false_implies, implies_true, and_true]
  · exact ⟨fun _ h => h.toSound, fun _ h => h.toSound, fun _ h => h.toSound,
      fun _ h => (h _ rfl : Before _).toSound, fun _ h => h.toSound⟩
  · exact ⟨fun _ _ h => h.toSound, fun _ _ h => h.toSound, fun _ _ h => h.toSound,
      fun _ _ h => rawOutline_sound h, fun _ _ h => h.toSound⟩
  · exact ⟨fun _ h => h.toSound, fun _ h => h.toSound, fun _ h => h.toSound,
      fun _ h => h.toSound, fun _ h => h.toSound⟩

theorem accountOutline_thrown {st : ReaderState} (h : accountOutline.thrown st y) :
    accountOutline.mid st y := by
  refine Outline.table_thrown_mid ?_ h
  simp only [List.forall_mem_cons, List.not_mem_nil, false_implies, implies_true, and_true]
  refine ⟨fun _ _ => id, fun _ _ => id, fun _ _ => id, fun _ _ h => ?_, fun _ _ => id⟩
  refine Outline.table_thrown_mid ?_ h
  simp only [List.forall_mem_cons, List.not_mem_nil, false_implies, implies_true, and_true]
  refine ⟨fun _ _ => id, fun _ _ => id, fun _ _ => id, fun _ _ => id, fun st y h => ?_,
    fun _ _ => id⟩
  have hr : Reading y := h
  change if st.frame.stateNum < 3 then Opened y else Reading y
  split
  · exact hr.toOpened
  · exact hr

end Frame

/-! ### Runs of packets -/

section Runs
variable (sdk : Sdk)

/-- `handle_apdu` on a packet, and the callbacks since the last `P1_FIRST`. -/
def logStep (y : SignState × SignLog) (x : Sent) : SignState × SignLog :=
  ((y.1.handleApdu sdk x.settings insSign x.packet).1,
    if First x.packet then (feed sdk x (fresh, [])).1.2
    else if Next x.packet ∧ y.1.hardReject = false then (feed sdk x y).1.2 else y.2)

/-- The state after some packets of `INS_SIGN`, and the callbacks since the last `P1_FIRST`. -/
def signRun (xs : List Sent) : SignState × SignLog := xs.foldl (logStep sdk) ({}, [])

@[simp] theorem signRun_concat (xs : List Sent) (x : Sent) :
    signRun sdk (xs ++ [x]) = logStep sdk (signRun sdk xs) x := by
  simp [signRun]

variable {sdk}

/-- Where the parser stands between the packets. -/
structure Kept (y : SignState × SignLog) : Prop where
  sound : Sound y
  parser : y.1.hardReject = true ∨ y.1.Finished ∨ accountOutline.mid y.1.transactionStack y

theorem Finished.feed {y : SignState × SignLog} (h : y.1.Finished) (x : Sent) :
    (feed sdk x y).1 = y := by
  have hparse : annotatedTransactionCallbacks.parse (signHandler (x.env sdk)).traced
      y.1.transactionStack molNumMax x.packet.data y =
        ⟨.complete, .node y.1.transactionStack.frame y.1.transactionStack.u, x.packet.data, y,
          false⟩ := by
    unfold annotatedTransactionCallbacks Reader.annotatedTransaction
    rw [Reader.parse_table, parseStages, runAll_none]
    · rfl
    · rw [tableStage_eq_none, List.length_ofFn]
      exact h
  simp only [SignState.feed, hparse, h.transactionStack_eq]

/-- What a packet leaves that the parser was given. -/
structure Fed (y : SignState × SignLog) (rv : Rv Exc) : Prop where
  sound : Sound y
  complete : rv = .complete → y.1.Finished
  reading : rv = .incomplete ∨ (∃ e, rv = .throw e) →
    y.1.Finished ∨ accountOutline.mid y.1.transactionStack y

theorem feed_fed {y : SignState × SignLog} (hs : Sound y)
    (h : y.1.Finished ∨ accountOutline.mid y.1.transactionStack y) (x : Sent) :
    Fed (feed sdk x y).1 (feed sdk x y).2 := by
  rcases h with hf | hm
  · rw [hf.feed]
    exact ⟨hs, fun _ => hf, fun _ => .inl hf⟩
  · have hl := annotatedTransaction_leaves (x.env sdk) molNumMax x.packet.data hm
    have hfin := parse_complete_finished (x.env sdk) y.1 x.packet.data
    rw [← (feed_eq sdk x y).1, ← (feed_eq sdk x y).2] at hfin
    refine ⟨?_, hfin, ?_⟩
    · cases hrv : (feed sdk x y).2 with
      | complete => exact (hl.meets.complete hrv).toSound.congr ⟨rfl, rfl, id⟩
      | reject => exact (hl.refused hrv).congr ⟨rfl, rfl, id⟩
      | incomplete => exact (accountOutline_sound (hl.meets.incomplete hrv)).congr ⟨rfl, rfl, id⟩
      | throw e => exact (accountOutline_sound (accountOutline_thrown
          (hl.meets.thrown e hrv))).congr ⟨rfl, rfl, id⟩
    · rintro (hrv | ⟨e, hrv⟩)
      · exact .inr (accountOutline_restack _ (hl.meets.incomplete hrv))
      · exact .inr (accountOutline_restack _ (accountOutline_thrown (hl.meets.thrown e hrv)))

/-- The state that a packet leaves, and the log of the parser. -/
theorem Fed.concluded {y : SignState × SignLog} {rv : Rv Exc} (h : Fed y rv) (env : Env)
    (ins : UInt8) (p : Packet) : Kept ((y.1.afterPacket env ins p rv).1, y.2) := by
  have hc := SignState.concluded env ins p rv y.1
  have hraise : ∀ (g : SignState) r, (g.raise r).1 = g := by
    intro g r
    cases r <;> rfl
  generalize y.1.afterPacket env ins p rv = z at hc ⊢
  cases hc with
  | thrown hrv => exact ⟨h.sound, .inr (h.reading (.inr ⟨_, hrv⟩))⟩
  | error hrv => exact ⟨h.sound.congr ⟨rfl, rfl, id⟩, .inl rfl⟩
  | more hrv => exact ⟨h.sound, .inr (h.reading (.inl hrv))⟩
  | insecure hrv hu => exact ⟨h.sound, .inr (.inl (h.complete hrv))⟩
  | hidden hrv hu => exact ⟨h.sound.congr ⟨rfl, rfl, id⟩, .inr (.inl (h.complete hrv))⟩
  | shown hrv hl hu hr =>
    rw [hraise]
    exact ⟨h.sound.congr ⟨rfl, rfl, id⟩, .inr (.inl (h.complete hrv))⟩

theorem handleNext_kept {y : SignState × SignLog} (hs : Sound y)
    (h : y.1.Finished ∨ accountOutline.mid y.1.transactionStack y) (hr : y.1.hardReject = false)
    (x : Sent) (ins : UInt8) :
    Kept ((y.1.handleNext (x.env sdk) ins x.packet).1, (feed sdk x y).1.2) := by
  have hf := (@feed_fed sdk y hs h x).concluded (x.env sdk) ins x.packet
  rw [(feed_eq sdk x y).1, (feed_eq sdk x y).2] at hf
  rw [handleNext_eq hr]
  exact hf

theorem fresh_before : Before (fresh, []) := ⟨⟨Log.each_nil _, Nat.zero_le _, nofun⟩, rfl, rfl⟩

theorem fresh_accountOutline : accountOutline.mid fresh.transactionStack (fresh, []) := by
  intro o ho
  cases ho
  exact fresh_before

theorem logStep_kept {y : SignState × SignLog} (h : Kept y) (x : Sent) :
    Kept (logStep sdk y x) := by
  have hh := handled sdk x.settings insSign x.packet y.1
  unfold logStep
  generalize y.1.handleApdu sdk x.settings insSign x.packet = z at hh ⊢
  cases hh with
  | refused hf hn =>
    rw [if_neg hf, if_neg fun hx => hn hx.1]
    exact h
  | first hf =>
    rw [if_pos hf]
    exact handleNext_kept fresh_before.toSound (.inr fresh_accountOutline) rfl x insSign
  | next hn =>
    rw [if_neg fun hf => First.not_next hf hn]
    cases hr : y.1.hardReject with
    | true =>
      rw [if_neg (by simp), handleNext, if_pos hr]
      exact h
    | false =>
      rw [if_pos ⟨hn, rfl⟩]
      exact handleNext_kept h.sound (h.parser.resolve_left (by simp [hr])) hr x insSign
  | other hlen hf hn =>
    rw [if_neg hf, if_neg fun hx => hn hx.1]
    have hconclude : (y.1.conclude ⟨sdk, x.settings, x.packet.beyond⟩ insSign x.packet).1 = y.1 := by
      unfold conclude
      split
      · cases y.1.signComplete _ _ <;> rfl
      · rfl
    rw [hconclude]
    exact h

variable (sdk) in
theorem signRun_kept (xs : List Sent) : Kept (signRun sdk xs) := by
  induction xs using List.reverseRecOn with
  | nil => exact ⟨fresh_before.toSound, .inr (.inr fresh_accountOutline)⟩
  | append_singleton xs x ih =>
    rw [signRun_concat]
    exact logStep_kept ih x

theorem signScreens_length (env : Env) {g : SignState} (hcount : g.tx.outputs.length ≤ maxOutputs)
    {screens : List Screen} (hs : g.signScreens env = .ok screens) :
    screens.length ≤ maxScreenCount := by
  unfold signScreens at hs
  cases htag : g.v.tag <;> rw [htag] at hs <;> dsimp only at hs <;> cases hs
  case multiOutputTransfer =>
    simp only [maxOutputs, maxScreenCount, outputScreens, List.cons_append, List.nil_append,
      List.length_cons, List.length_mapIdx] at hcount ⊢
    omega
  case plainTransfer => cases env.settings.allowContractData <;> simp [maxScreenCount]
  all_goals simp [maxScreenCount]

variable (sdk) in
/-- In every run of packets, at every callback and after every packet: while the outputs are read
their accounts are in order, the callbacks that guard them do not throw and stay within `outputs`,
and there are never too many screens. -/
theorem signRun_accounted (xs : List Sent) :
    Log.Each Accounted (signRun sdk xs).2 ∧
      ((books (signRun sdk xs).2).reading = true → (signRun sdk xs).1.isUnsafe = false →
        Accounts (books (signRun sdk xs).2).capacities (signRun sdk xs).1) ∧
      ∀ env screens, (signRun sdk xs).1.signScreens env = .ok screens →
        screens.length ≤ maxScreenCount := by
  have hk := signRun_kept sdk xs
  refine ⟨hk.sound.log, hk.sound.accounts, fun env screens hs => ?_⟩
  exact signScreens_length env hk.sound.count hs

end Runs
end SignState
end NervosLedger
