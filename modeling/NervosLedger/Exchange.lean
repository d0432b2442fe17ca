import NervosLedger.FailedFirst
import NervosLedger.Molecule.Traced

/-!
# A transaction in packets

The host cuts a transaction into packets as it likes, and may send packets that are none of it.
Those of an exchange that raises a prompt are one run of the parser, of which the log keeps the
callbacks.
-/
namespace NervosLedger
open Molecule Machine

/-- A packet of `INS_SIGN`, and the settings it finds. -/
structure Sent where
  packet : Packet
  settings : Settings := {}
  deriving DecidableEq, Repr

def Sent.env (sdk : Sdk) (x : Sent) : Env := ⟨sdk, x.settings, x.packet.beyond⟩

@[simp] theorem Sent.sdk_env (sdk : Sdk) (x : Sent) : (x.env sdk).sdk = sdk := rfl

abbrev SignLog := Log SignEvent SignState

/-- The bytes that the packets carry. -/
def payload (sent : List Sent) : List UInt8 := (sent.map fun x => x.packet.data).flatten

@[simp] theorem payload_concat (sent : List Sent) (x : Sent) :
    payload (sent ++ [x]) = payload sent ++ x.packet.data := by
  simp [payload]

namespace SignState

/-! ### Flags -/

/-- The flags of a rejection stay, and `is_valid` is not touched. -/
structure Onward (g g' : SignState) : Prop where
  isValid : g'.isValid = g.isValid
  isUnsafe : g.isUnsafe = true → g'.isUnsafe = true
  hardReject : g.hardReject = true → g'.hardReject = true

theorem Onward.refl (g : SignState) : Onward g g := ⟨rfl, id, id⟩

theorem Onward.trans {g₁ g₂ g₃ : SignState} (h : Onward g₁ g₂) (h' : Onward g₂ g₃) :
    Onward g₁ g₃ :=
  ⟨h'.isValid.trans h.isValid, h'.isUnsafe ∘ h.isUnsafe, h'.hardReject ∘ h.hardReject⟩

theorem Onward.reject {g g' : SignState} (h : Onward g g') : Onward g g'.reject :=
  ⟨h.isValid, fun _ => rfl, h.hardReject⟩

theorem Onward.rejectHard {g g' : SignState} (h : Onward g g') : Onward g g'.rejectHard :=
  ⟨h.isValid, h.isUnsafe, fun _ => rfl⟩

section Onward
variable (env : Env) (g : SignState)

theorem witnessHandler_onward (beyond : List UInt8) (e : WitnessEvent) :
    KeepsAt (witnessHandler beyond) (Onward g) e where
  run {g'} hg := by
    cases e with
    | offsets totalSize offsets =>
      refine hg.trans ?_
      simp only [witnessHandler, witnessOffsets]
      split <;> exact ⟨rfl, id, id⟩
    | lockBody buf following =>
      simp only [witnessHandler, witnessLockArgBodyChunk]
      split
      · exact hg
      · split
        · exact hg.reject
        · exact hg.trans ⟨rfl, id, id⟩
    | _ => exact hg.trans ⟨rfl, id, id⟩
  ask {g'} hg := by
    cases e with
    | lockSize size =>
      simp only [witnessHandler, witnessLockArgSize]
      split
      · exact hg
      · split
        · exact hg.rejectHard
        · exact hg.trans ⟨rfl, id, id⟩
    | _ => exact hg
  finish hg := hg

theorem processWitness_onward (buf following : List UInt8) :
    Onward g (processWitness env buf following g) := by
  unfold processWitness
  split
  · exact ⟨rfl, id, id⟩
  · have hparse := Reader.parse_keeps (witnessArgsRewriteCallbacks.every_of_forall
      (witnessHandler_onward g (following ++ env.beyond))) g.tx.witnessStack molNumMax buf (.refl g)
    dsimp only
    split <;> exact hparse.trans ⟨rfl, id, id⟩

theorem runCell_onward (e : CellEvent) : Onward g (runCell env e g) := by
  cases e with
  | capacity buf =>
    simp only [runCell, cellCapacity]
    split <;> exact ⟨rfl, id, id⟩
  | lockCodeHash buf =>
    simp only [runCell, cellLockCodeHash]
    split_ifs <;> first | exact (Onward.refl g).reject | exact ⟨rfl, id, id⟩
  | lockHashType hashType =>
    simp only [runCell, cellScriptHashType]
    split_ifs <;> first | exact (Onward.refl g).reject | exact ⟨rfl, id, id⟩
  | typeHashType hashType =>
    simp only [runCell, cellScriptHashType]
    split_ifs <;> first | exact (Onward.refl g).reject | exact ⟨rfl, id, id⟩
  | lockArgsStart =>
    simp only [runCell, scriptArgStartInput]
    split <;> exact ⟨rfl, id, id⟩
  | lockArgs buf following =>
    simp only [runCell, scriptArgChunk]
    split_ifs <;> exact ⟨rfl, id, id⟩
  | typeCodeHash buf =>
    simp only [runCell, cellTypeCodeHash]
    split_ifs <;> first | exact (Onward.refl g).reject | exact ⟨rfl, id, id⟩
  | lockEnd => exact .refl g
  | typeArgsSize size => exact .refl g

theorem runCallback_onward (e : SignEvent) : Onward g (runCallback env e g) := by
  cases e with
  | inputsLength length =>
    simp only [runCallback, blake2bInputCount]
    split
    · exact (Onward.refl g).rejectHard
    · exact ⟨rfl, id, id⟩
  | sourceCell e => exact runCell_onward env g e
  | outputCell e => exact runCell_onward env g e
  | sourceDataChunk buf following =>
    simp only [runCallback, checkCellDataDataChunk]
    split <;> exact ⟨rfl, id, id⟩
  | dataChunk buf following =>
    simp only [runCallback, checkCellDataDataChunk]
    split <;> exact ⟨rfl, id, id⟩
  | witnessesIndex index =>
    simp only [runCallback, beginWitness]
    split <;> exact ⟨rfl, id, id⟩
  | witnessChunk buf following => exact processWitness_onward env g buf following
  | _ => exact ⟨rfl, id, id⟩

theorem cellTypeArgLength_onward (length : ℕ) : Onward g (cellTypeArgLength env length g).1 := by
  simp only [cellTypeArgLength]
  split_ifs <;> first | exact (Onward.refl g).reject | exact .refl g

theorem initBip32_onward (size : ℕ) : Onward g (initBip32 size g).1 := by
  simp only [initBip32]
  split_ifs <;> first | exact (Onward.refl g).rejectHard | exact ⟨rfl, id, id⟩

theorem setCellDataSize_onward (size : ℕ) : Onward g (setCellDataSize size g).1 := by
  simp only [setCellDataSize]
  split_ifs <;> first | exact (Onward.refl g).rejectHard | exact ⟨rfl, id, id⟩

theorem askCallback_onward (e : SignEvent) : Onward g (askCallback env e g).1 := by
  cases e with
  | signPathSize size => exact initBip32_onward g size
  | changePathSize size => exact initBip32_onward g size
  | sourceCell e => cases e <;> first | exact cellTypeArgLength_onward env g _ | exact .refl g
  | outputCell e => cases e <;> first | exact cellTypeArgLength_onward env g _ | exact .refl g
  | sourceDataSize size => exact setCellDataSize_onward g size
  | dataSize size => exact setCellDataSize_onward g size
  | witnessSize size =>
    simp only [askCallback, hashWitnessLength]
    split_ifs <;> exact ⟨rfl, id, id⟩
  | _ => exact .refl g

theorem setPath_onward : Onward g (g.setSignPath env).1 ∧ Onward g (g.setChangePath env).1 := by
  constructor
  · unfold setSignPath
    split <;> exact ⟨rfl, id, id⟩
  · unfold setChangePath
    split <;> exact ⟨rfl, id, id⟩

theorem inputLockArgEnd_onward : Onward g g.inputLockArgEnd := by
  simp only [inputLockArgEnd]
  split_ifs <;> first | exact ⟨rfl, id, id⟩ | exact ⟨rfl, fun _ => rfl, id⟩

theorem finishInputCellData_onward : Onward g (g.finishInputCellData env) := by
  simp only [finishInputCellData]
  split_ifs <;> first | exact ⟨rfl, id, id⟩ | exact ⟨rfl, fun _ => rfl, id⟩

theorem outputEnd_onward : Onward g (g.outputEnd env).1 := by
  simp only [outputEnd, daoOutputEnd, plainOutputEnd]
  split_ifs <;> first | exact ⟨rfl, id, id⟩ | exact ⟨rfl, fun _ => rfl, id⟩

theorem outputsEnd_onward : Onward g g.outputsEnd.1 := by
  simp only [outputsEnd]
  split_ifs <;> exact ⟨rfl, id, id⟩

theorem finishOutputCellData_onward : Onward g (g.finishOutputCellData env) := by
  simp only [finishOutputCellData]
  split_ifs <;> first | exact ⟨rfl, id, id⟩ | exact ⟨rfl, fun _ => rfl, id⟩

theorem finalizeTag_onward : Onward g g.finalizeTag.1 := by
  unfold finalizeTag
  cases g.v.tag <;> dsimp only <;> repeat' split
  all_goals first | exact ⟨rfl, id, id⟩ | exact ⟨rfl, fun _ => rfl, id⟩

theorem finalizeRawTransaction_onward : Onward g (g.finalizeRawTransaction env) := by
  have ht := finalizeTag_onward g
  unfold finalizeRawTransaction
  generalize g.finalizeTag = x at ht ⊢
  obtain ⟨g', _ | _⟩ := x
  · exact ht
  · exact ht.trans ⟨rfl, id, id⟩

theorem processWitnessEnd_onward : Onward g g.processWitnessEnd := by
  unfold processWitnessEnd
  split <;> exact ⟨rfl, id, id⟩

theorem endCallback_onward (e : SignEvent) : Onward g (endCallback env e g).1 := by
  cases e with
  | signPathEnd => exact (setPath_onward env g).1
  | changePathEnd => exact (setPath_onward env g).2
  | sourceCell e => cases e <;> first | exact inputLockArgEnd_onward g | exact .refl g
  | sourceDataEnd => exact finishInputCellData_onward env g
  | outputEnd => exact outputEnd_onward env g
  | outputsEnd => exact outputsEnd_onward g
  | dataEnd => exact finishOutputCellData_onward env g
  | rawEnd => exact finalizeRawTransaction_onward env g
  | witnessEnd => exact processWitnessEnd_onward g
  | _ => exact ⟨rfl, id, id⟩

end Onward

theorem signHandler_onward (env : Env) (g : SignState) (e : SignEvent) :
    KeepsAt (signHandler env) (Onward g) e where
  run {g'} hg := hg.trans (runCallback_onward env g' e)
  ask {g'} hg := hg.trans (askCallback_onward env g' e)
  finish {g'} hg := hg.trans (endCallback_onward env g' e)

/-- A call of the parser leaves the flags of a rejection. -/
theorem parseChunk_onward (env : Env) (chunk : List UInt8) (g : SignState) :
    Onward g (g.parseChunk env chunk).1 := by
  have hparse := Reader.parse_keeps (annotatedTransactionCallbacks.every_of_forall
    (signHandler_onward env g)) g.transactionStack molNumMax chunk (.refl g)
  exact hparse.trans ⟨rfl, id, id⟩

variable (sdk : Sdk)

/-! ### The parser and its log -/

/-- `MolReader_AnnotatedTransaction_parse` on the payload of a packet, with the log. -/
def feed (x : Sent) (y : SignState × SignLog) : (SignState × SignLog) × Rv Exc :=
  let r := annotatedTransactionCallbacks.parse (signHandler (x.env sdk)).traced
    y.1.transactionStack molNumMax x.packet.data y
  (({ r.g.1 with transactionStack := r.st }, r.g.2), r.rv)

/-- The state and the log once the packets were parsed. -/
def feedAll (sent : List Sent) : SignState × SignLog :=
  sent.foldl (fun y x => (feed sdk x y).1) (fresh, [])

/-- The log of a transaction. -/
def logOf (sent : List Sent) : SignLog := (feedAll sdk sent).2

@[simp] theorem feedAll_nil : feedAll sdk [] = (fresh, []) := rfl

@[simp] theorem feedAll_concat (sent : List Sent) (x : Sent) :
    feedAll sdk (sent ++ [x]) = (feed sdk x (feedAll sdk sent)).1 := by
  simp [feedAll]

/-- The log does not change what the parser does. -/
theorem feed_eq (x : Sent) (y : SignState × SignLog) :
    (feed sdk x y).1.1 = (y.1.parseChunk (x.env sdk) x.packet.data).1 ∧
      (feed sdk x y).2 = (y.1.parseChunk (x.env sdk) x.packet.data).2 := by
  have ha := annotatedTransactionCallbacks.parse_traced (h := signHandler (x.env sdk))
    y.1.transactionStack molNumMax x.packet.data y
  unfold feed parseChunk
  generalize annotatedTransactionCallbacks.parse (signHandler (x.env sdk)) _ _ _ _ = r₁ at ha ⊢
  generalize annotatedTransactionCallbacks.parse (signHandler (x.env sdk)).traced _ _ _ _ = r₂
    at ha ⊢
  obtain ⟨rfl⟩ := ha
  exact ⟨rfl, rfl⟩

/-- The parser wants more after each of the packets. -/
inductive Wanting : List Sent → Prop
  | nil : Wanting []
  | snoc {sent x} (h : Wanting sent) (hx : (feed sdk x (feedAll sdk sent)).2 = .incomplete) :
    Wanting (sent ++ [x])

/-- The parser is complete with the last of the packets, and not before. -/
def Completes (sent : List Sent) : Prop :=
  ∃ pre x, sent = pre ++ [x] ∧ Wanting sdk pre ∧ (feed sdk x (feedAll sdk pre)).2 = .complete

/-- The packets are a transaction that no callback rejects, and the last one is flagged. -/
structure Accepts (sent : List Sent) : Prop where
  completes : Completes sdk sent
  last : ∃ pre x, sent = pre ++ [x] ∧ x.packet.last = true
  isUnsafe : (feedAll sdk sent).1.isUnsafe = false
  hardReject : (feedAll sdk sent).1.hardReject = false

/-- The state in which `sign_complete` is called for a transaction. -/
def accepted (sent : List Sent) : SignState := { (feedAll sdk sent).1 with isValid := true }

/-! ### Transactions that are run -/

/-- The parser on packets of which the last one completes it, and no other. -/
def runPackets (y : SignState × SignLog) : List Sent → Option (SignState × SignLog)
  | [] => none
  | x :: sent =>
    match feed sdk x y with
    | (y, .complete) => if sent = [] then some y else none
    | (y, .incomplete) => runPackets y sent
    | _ => none

variable {sdk}

theorem completes_of_run {pre sent : List Sent} (h : Wanting sdk pre) {y : SignState × SignLog}
    (hrun : runPackets sdk (feedAll sdk pre) sent = some y) :
    Completes sdk (pre ++ sent) ∧ feedAll sdk (pre ++ sent) = y := by
  induction sent generalizing pre with
  | nil => cases hrun
  | cons x sent ih =>
    rw [runPackets] at hrun
    split at hrun
    · rename_i y' hfeed
      split at hrun
      · rename_i hnil
        obtain rfl := Option.some.inj hrun
        rw [hnil, feedAll_concat, hfeed]
        exact ⟨⟨pre, x, rfl, h, by rw [hfeed]⟩, rfl⟩
      · cases hrun
    · rename_i y' hfeed
      have hstep : feedAll sdk (pre ++ [x]) = y' := by rw [feedAll_concat, hfeed]
      rw [← hstep] at hrun
      have hall := ih (.snoc h (by rw [hfeed])) hrun
      rwa [List.append_assoc] at hall
    · cases hrun

/-- What can be computed of packets that are accepted. -/
theorem accepts_of_run {sent : List Sent} {p : SignState → Bool}
    (hlast : sent.getLast?.any (·.packet.last) = true)
    (hrun : (runPackets sdk (fresh, []) sent).any (fun y =>
      !y.1.isUnsafe && !y.1.hardReject && p { y.1 with isValid := true }) = true) :
    Accepts sdk sent ∧ p (accepted sdk sent) = true := by
  cases hy : runPackets sdk (fresh, []) sent with
  | none =>
    rw [hy] at hrun
    cases hrun
  | some y =>
    obtain ⟨hc, hall⟩ := @completes_of_run sdk [] sent .nil y hy
    rw [List.nil_append] at hc hall
    rw [hy] at hrun
    simp only [Option.any_some, Bool.and_eq_true, Bool.not_eq_true'] at hrun
    obtain ⟨⟨hu, hr⟩, hp⟩ := hrun
    rw [← hall] at hu hr hp
    obtain ⟨pre, x, rfl, -⟩ := id hc
    rw [List.getLast?_concat] at hlast
    exact ⟨⟨hc, ⟨pre, x, rfl, hlast⟩, hu, hr⟩, hp⟩

/-- The same of the prompt that is raised for them. -/
theorem prompts_of_run {sent : List Sent} {env : Env} {ins : UInt8} {p : SignState → Prompt → Bool}
    (hlast : sent.getLast?.any (·.packet.last) = true)
    (hrun : (runPackets sdk (fresh, []) sent).any (fun y => !y.1.isUnsafe && !y.1.hardReject &&
      (signComplete env { y.1 with isValid := true } ins).toOption.any
        (p { y.1 with isValid := true })) = true) :
    Accepts sdk sent ∧ ∃ q, (accepted sdk sent).signComplete env ins = .ok q ∧
      p (accepted sdk sent) q = true := by
  obtain ⟨ha, hp⟩ := @accepts_of_run sdk sent
    (fun g => (signComplete env g ins).toOption.any (p g)) hlast hrun
  refine ⟨ha, ?_⟩
  cases hq : (accepted sdk sent).signComplete env ins with
  | error e =>
    rw [hq] at hp
    cases hp
  | ok q =>
    rw [hq] at hp
    exact ⟨q, rfl, by simpa [Except.toOption] using hp⟩

end SignState

section Samples

/-- A transaction in packets of the greatest size, the last one flagged; `n` come before it. -/
def packetsFrom (settings : Settings) (p1 : UInt8) : ℕ → List UInt8 → List Sent
  | 0, bytes => [⟨{ p1 := p1 ||| p1LastMarker, data := bytes }, settings⟩]
  | n + 1, bytes => ⟨{ p1 := p1, data := bytes.take maxApduSize }, settings⟩ ::
    packetsFrom settings p1Next n (bytes.drop maxApduSize)

def samplePackets (settings : Settings) (bytes : List UInt8) : List Sent :=
  packetsFrom settings p1First ((bytes.length - 1) / maxApduSize) bytes

end Samples
end NervosLedger
