import NervosLedger.Dispatch
import NervosLedger.FailedFirst

/-!
# Sessions of packets

The exchanges of the three signing instructions share one memory, and nothing records which of
them is open. A continuation packet is taken up by its handler whatever stands there, so it
belongs to a session only where the commands before it made it so.
-/
namespace NervosLedger
open Molecule Machine

variable {M : Type} {o : Overlay M} {sdk : Sdk}

/-- The instructions that take more than one packet. -/
inductive Instruction where
  | transaction | message | messageHash
  deriving DecidableEq, Repr

namespace Instruction

def code : Instruction → UInt8
  | .transaction => insSign
  | .message => insSignMessage
  | .messageHash => insSignMessageHash

/-- `P1` says that a packet is the first one. -/
def IsFirst (p : Packet) : Instruction → Prop
  | .transaction => p.p1 &&& p1Mask = p1First
  | .message => p.p1 &&& ~~~p1LastMarker = p1First
  | .messageHash => p.p1 = p1First

/-- `P1` says that a packet is a further one. -/
def IsNext (p : Packet) : Instruction → Prop
  | .transaction => p.p1 &&& p1Mask = p1Next
  | .message => p.p1 &&& ~~~p1LastMarker = p1Next
  | .messageHash => p.p1 = p1LastMarker

instance (p : Packet) (i : Instruction) : Decidable (i.IsFirst p) := by
  cases i <;> unfold IsFirst <;> infer_instance

/-- The path that `read_bip32_path` makes of a first packet. -/
def pathOf (p : Packet) : Instruction → Bip32Path × Option Exc
  | .transaction => ({}, none)
  | .message => SignMessageState.pathOf p
  | .messageHash => SignMessageHashState.pathOf p

end Instruction

/-! ### The packets behind a prompt -/

/-- The event is a command of the instruction with this packet. -/
def Commands (e : Event (Globals M) Input Report) (i : Instruction) (p : Packet) : Prop :=
  ∃ stack, e.input = .apdu 0x80 i.code p stack

/-- The event leaves the union as it is. -/
def Idle (e : Event (Globals M) Input Report) : Prop := ∃ g, e.after = some g ∧ g.u = e.before.u

/-- `f` is the last first packet of the instruction, and no other has written the union since. -/
def LastFirst (events : List (Event (Globals M) Input Report)) (i : Instruction) (p : Packet)
    (f : Event (Globals M) Input Report) : Prop :=
  Commands f i p ∧ i.IsFirst p ∧ ∃ pre post, events = pre ++ f :: post ∧
    ∀ e ∈ post, (∀ p', Commands e i p' → ¬ i.IsFirst p') ∧ ((∃ p', Commands e i p') ∨ Idle e)

/-- The key that a prompt of the instruction is for. -/
def Instruction.key (o : Overlay M) (m : M) : Instruction → Bip32Path
  | .transaction => (o.sign.get m).signingPath
  | .message => (o.signMsg.get m).key
  | .messageHash => (o.signMsgHash.get m).key

/-- A continuation packet that raises a prompt belongs to a session. -/
def BelongsToSession (o : Overlay M) (pre : List (Event (Globals M) Input Report))
    (e : Event (Globals M) Input Report) : Prop :=
  ∀ i p, Commands e i p → i.IsNext p → ∀ q, e.report.outcome = some (.prompted q) →
    ∃ f p₀, LastFirst pre i p₀ f ∧ f.report.outcome.any Outcome.returned = true ∧
      (i ≠ .transaction → ∀ g ∈ e.after, (i.pathOf p₀).2 = none ∧ i.key o g.u = (i.pathOf p₀).1 ∧
        1 ≤ (i.key o g.u).length ∧ (i.key o g.u).length ≤ maxBip32Path)

/-! ### Which exchange is open -/

/-- What an input does to the exchange that is open. -/
inductive Move where
  | idle | writes
  | opens (i : Instruction)
  | refuses (i : Instruction)
  | continues (i : Instruction)
  deriving DecidableEq

/-- The instruction whose exchange a move concerns. -/
def Move.instruction : Move → Option Instruction
  | .idle | .writes => none
  | .opens i | .refuses i | .continues i => some i

/-- A handler on a packet: a first packet opens an exchange unless it is refused, and other
packets that are not refused write the union. -/
def ApduHandler.move (o : Overlay M) (g : Globals M) (p : Packet) : ApduHandler → Move
  | .handleApduError | .handleApduVersion | .handleApduGit | .handleApduGetWalletId => .idle
  | .handleApduGetPublicKey => if PubkeyState.Stores p then .writes else .idle
  | .handleApduAccountImport => if PubkeyState.Imports p then .writes else .idle
  | .handleApduSign =>
    if SignState.First p then .opens .transaction
    else if Instruction.transaction.IsFirst p then .refuses .transaction
    else if SignState.Next p ∧ (o.sign.get g.u).hardReject = false then .continues .transaction
    else .idle
  | .handleApduSignMessage =>
    if SignMessageState.First p then
      if (SignMessageState.pathOf p).2 = none then .opens .message else .writes
    else if Instruction.message.IsFirst p then .refuses .message
    else if SignMessageState.Next p ∧ (o.signMsg.get g.u).packetIndex < 255 then
      .continues .message
    else .idle
  | .handleApduSignMessageHash =>
    if SignMessageHashState.First g.settings p then
      if (SignMessageHashState.pathOf p).2 = none then .opens .messageHash else .writes
    else if Instruction.messageHash.IsFirst p then .refuses .messageHash
    else if SignMessageHashState.Last g.settings p then .continues .messageHash
    else .idle

/-- The callback of a prompt: to sign or to reject a signature clears the memory. -/
def UiCallback.move (o : Overlay M) (sdk : Sdk) (m : M) (c : UiCallback) : Move :=
  match c with
  | .pubkeyOk | .extPubkeyOk | .accountImportOk | .delayReject => .idle
  | .signReject => .writes
  | .signWithoutHashOk | .signWithHashOk | .signMessageOk | .signMessageHashOk =>
    match (c.run o sdk m).2 with
    | some (.threw _) => .idle
    | _ => .writes

def Callee.move (o : Overlay M) (sdk : Sdk) (g : Globals M) (p : Packet) : Callee → Move
  | .handler f => f.move o g p
  | .callback c => c.move o sdk g.u
  | .wild => .writes

def moveOf (o : Overlay M) (sdk : Sdk) (g : Globals M) : Input → Move
  | .apdu cla ins p _ =>
    if cla ≠ 0x80 ∨ sizeofHandlers ≤ ins.toNat then .idle else (g.fetch ins).move o sdk g p
  | .promptResponse accepted =>
    match g.displayed, if accepted then g.okCallback else g.cxlCallback with
    | some _, some c => c.move o sdk g.u
    | _, _ => .idle
  | .badLength | .configure _ => .idle

/-- The exchange that is open after a move. -/
def Move.after (x : Option Instruction) : Move → Option Instruction
  | .idle => x
  | .writes => none
  | .opens i => some i
  | .refuses i => if x = some i then none else x
  | .continues i => if x = some i then x else none

def openAfter (o : Overlay M) (sdk : Sdk) (x : Option Instruction)
    (e : Event (Globals M) Input Report) : Option Instruction :=
  (moveOf o sdk e.before e.input).after x

/-- The exchange that is open after some events. -/
def openOf (o : Overlay M) (sdk : Sdk) (events : List (Event (Globals M) Input Report)) :
    Option Instruction :=
  events.foldl (openAfter o sdk) none

@[simp] theorem openOf_concat (pre : List (Event (Globals M) Input Report))
    (e : Event (Globals M) Input Report) :
    openOf o sdk (pre ++ [e]) = (moveOf o sdk e.before e.input).after (openOf o sdk pre) := by
  simp [openOf, openAfter]

/-- A further packet is the last one, and not refused for its magic bytes. -/
def Instruction.Closes (o : Overlay M) (m : M) (p : Packet) : Instruction → Prop
  | .transaction => p.last = true
  | .message => p.last = true ∧
      ((o.signMsg.get m).packetIndex = 0 → checkMagicBytes p.data = true)
  | .messageHash => True

instance (m : M) (p : Packet) (i : Instruction) : Decidable (i.Closes o m p) := by
  cases i <;> unfold Instruction.Closes <;> infer_instance

/-- The last packet of an exchange comes while that exchange is open. -/
def Orderly (o : Overlay M) (sdk : Sdk) (pre : List (Event (Globals M) Input Report))
    (e : Event (Globals M) Input Report) : Prop :=
  match e.input, moveOf o sdk e.before e.input with
  | .apdu _ _ p _, .continues i => i.Closes o e.before.u p → openOf o sdk pre = some i
  | _, _ => True

instance (pre : List (Event (Globals M) Input Report)) (e : Event (Globals M) Input Report) :
    Decidable (Orderly o sdk pre e) := by
  unfold Orderly
  split <;> infer_instance

/-! ### The handlers and their moves -/

def Instruction.handler : Instruction → ApduHandler
  | .transaction => .handleApduSign
  | .message => .handleApduSignMessage
  | .messageHash => .handleApduSignMessageHash

theorem fetch_code (g : Globals M) (i : Instruction) : g.fetch i.code = .handler i.handler := by
  cases i <;> rfl

private theorem eq_code_of_handler : ∀ (i : Instruction) (n : Fin (insMax + 1)),
    handlers[n] = i.handler → UInt8.ofNat n = i.code := by
  rintro (_ | _ | _) <;> decide

theorem eq_code_of_fetch {g : Globals M} {ins : UInt8} {i : Instruction}
    (h : g.fetch ins = .handler i.handler) : ins = i.code := by
  rcases lt_or_ge ins.toNat (insMax + 1) with hlt | hge
  · rw [Globals.fetch_of_lt hlt, Callee.handler.injEq] at h
    simpa using eq_code_of_handler i ⟨ins.toNat, hlt⟩ h
  · rcases Globals.fetch_of_ge (g := g) hge with hw | ⟨f, hw, -⟩ <;> simp [hw] at h

theorem moveOf_code (g : Globals M) (i : Instruction) (p : Packet) (stack : List UInt8) :
    moveOf o sdk g (.apdu 0x80 i.code p stack) = i.handler.move o g p := by
  have hsmall : ¬ ((0x80 : UInt8) ≠ 0x80 ∨ sizeofHandlers ≤ i.code.toNat) := by
    cases i <;> decide
  rw [moveOf, if_neg hsmall, fetch_code, Callee.move]

theorem ApduHandler.move_instruction {f : ApduHandler} {g : Globals M} {p : Packet}
    {i : Instruction} (h : (f.move o g p).instruction = some i) : f = i.handler := by
  cases f <;> dsimp only [move] at h <;> (repeat' split at h) <;> cases h <;> rfl

theorem UiCallback.move_instruction (c : UiCallback) (m : M) :
    (c.move o sdk m).instruction = none := by
  cases c <;> dsimp only [move] <;> (try split) <;> rfl

/-- Only a command of an instruction concerns its exchange. -/
theorem moveOf_instruction {g : Globals M} {x : Input} {i : Instruction}
    (h : (moveOf o sdk g x).instruction = some i) : ∃ p stack, x = .apdu 0x80 i.code p stack := by
  cases x with
  | badLength => cases h
  | configure => cases h
  | promptResponse accepted =>
    simp only [moveOf] at h
    split at h
    · simp [UiCallback.move_instruction] at h
    · cases h
  | apdu cla ins p stack =>
    rw [moveOf] at h
    split at h
    · cases h
    · rename_i hc
      obtain ⟨rfl, -⟩ : cla = 0x80 ∧ _ := by simpa using hc
      cases hf : g.fetch ins with
      | handler f =>
        rw [hf] at h
        obtain rfl := ApduHandler.move_instruction h
        exact ⟨p, stack, by rw [eq_code_of_fetch hf]⟩
      | callback c =>
        rw [hf, Callee.move, UiCallback.move_instruction] at h
        cases h
      | wild =>
        rw [hf] at h
        cases h

/-! ### What a move does to the memory -/

/-- A move that leaves the memory as it is. -/
def Move.Keeps : Move → Prop
  | .idle | .refuses _ => True
  | .writes | .opens _ | .continues _ => False

section Run
variable {g : Globals M} {p : Packet} {stack : List UInt8} {ins : UInt8}

theorem sign_keeps (hf : ¬ SignState.First p)
    (hn : SignState.Next p → (o.sign.get g.u).hardReject = true) :
    (ApduHandler.handleApduSign.run o sdk g.settings ins p stack g.u).1 = g.u := by
  refine o.sign.update_eq ?_
  have hx := SignState.handled sdk g.settings ins p (o.sign.get g.u)
  generalize SignState.handleApdu sdk g.settings ins p (o.sign.get g.u) = x at hx ⊢
  cases hx with
  | refused => rfl
  | first h => exact absurd h hf
  | next h => simp [SignState.handleNext, hn h]
  | other => exact SignState.conclude_fst _ _ _ _

theorem signMessage_keeps (hf : ¬ SignMessageState.First p)
    (hn : SignMessageState.Next p → 255 ≤ (o.signMsg.get g.u).packetIndex) :
    (ApduHandler.handleApduSignMessage.run o sdk g.settings ins p stack g.u).1 = g.u := by
  refine o.signMsg.update_eq ?_
  have hx := SignMessageState.handled sdk stack p (o.signMsg.get g.u)
  generalize SignMessageState.handleApdu sdk stack p (o.signMsg.get g.u) = x at hx ⊢
  cases hx with
  | refused => rfl
  | first h => exact absurd h hf
  | noMagic h hi =>
    have := hn h
    omega
  | more h hi => exact absurd (hn h) (not_le.mpr hi)
  | last h hi => exact absurd (hn h) (not_le.mpr hi)

theorem signMessageHash_keeps (hf : ¬ SignMessageHashState.First g.settings p)
    (hl : ¬ SignMessageHashState.Last g.settings p) :
    (ApduHandler.handleApduSignMessageHash.run o sdk g.settings ins p stack g.u).1 = g.u := by
  refine o.signMsgHash.update_eq ?_
  have hx := SignMessageHashState.handled g.settings p (o.signMsgHash.get g.u)
  generalize SignMessageHashState.handleApdu g.settings p (o.signMsgHash.get g.u) = x at hx ⊢
  cases hx with
  | refused => rfl
  | first h => exact absurd h hf
  | last h => exact absurd h hl

theorem ApduHandler.move_keeps {f : ApduHandler} (h : (f.move o g p).Keeps) :
    (f.run o sdk g.settings ins p stack g.u).1 = g.u := by
  cases f with
  | handleApduError => rfl
  | handleApduVersion => rfl
  | handleApduGit => rfl
  | handleApduGetWalletId => rfl
  | handleApduGetPublicKey =>
    dsimp only [move] at h
    split at h
    · exact h.elim
    · rename_i hs
      obtain ⟨e, he⟩ := PubkeyState.handleApdu_refused sdk ins hs
        (o.pubkey.get g.u)
      exact o.pubkey.update_eq (by rw [he])
  | handleApduAccountImport =>
    dsimp only [move] at h
    split at h
    · exact h.elim
    · rename_i hs
      obtain ⟨e, he⟩ := PubkeyState.handleAccountImport_refused sdk hs
        (o.pubkey.get g.u)
      exact o.pubkey.update_eq (by rw [he])
  | handleApduSign =>
    dsimp only [move] at h
    split at h
    · exact h.elim
    · rename_i hf
      refine sign_keeps hf fun hn => ?_
      rw [if_neg (fun hi => absurd (hi.symm.trans hn.2) (by decide))] at h
      split at h
      · exact h.elim
      · rename_i hn'
        simpa [hn] using hn'
  | handleApduSignMessage =>
    dsimp only [move] at h
    split at h
    · split at h <;> exact h.elim
    · rename_i hf
      refine signMessage_keeps hf fun hn => ?_
      rw [if_neg (fun hi => absurd (hi.symm.trans hn.2) (by decide))] at h
      split at h
      · exact h.elim
      · rename_i hn'
        simpa [hn] using hn'
  | handleApduSignMessageHash =>
    dsimp only [move] at h
    split at h
    · split at h <;> exact h.elim
    · rename_i hf
      refine signMessageHash_keeps hf fun hl => ?_
      rw [if_neg (fun hi => absurd (hi.symm.trans hl.2.2) (by decide)), if_pos hl] at h
      exact h.elim

theorem SignState.performSignature_threw {g : SignState} {e : Exc}
    (h : (g.performSignature sdk).2 = .threw e) : (g.performSignature sdk).1 = g := by
  unfold performSignature at h ⊢
  split
  · rename_i hh
    simp [if_pos hh] at h
  · rename_i hh
    rw [if_neg hh] at h
    cases hw : withKeyPair sdk g.signingPath g.tx.finalHash.toList <;> simp_all

theorem SignMessageState.performSignature_threw {g : SignMessageState} {e : Exc}
    (h : (g.performSignature sdk).2 = .threw e) : (g.performSignature sdk).1 = g := by
  unfold performSignature at h ⊢
  cases hw : withKeyPair sdk g.key g.finalHash.toList <;> simp_all

theorem SignMessageHashState.performSignature_threw {g : SignMessageHashState} {e : Exc}
    (h : (g.performSignature sdk).2 = .threw e) : (g.performSignature sdk).1 = g := by
  unfold performSignature at h ⊢
  cases hw : withKeyPair sdk g.key g.hashToSign <;> simp_all

theorem UiCallback.move_keeps {c : UiCallback} {m : M} (h : (c.move o sdk m).Keeps) :
    (c.run o sdk m).1 = m := by
  cases c with
  | pubkeyOk => rfl
  | extPubkeyOk => rfl
  | accountImportOk => rfl
  | delayReject => rfl
  | signReject => exact h.elim
  | signWithoutHashOk =>
    dsimp only [move] at h
    split at h
    · rename_i he
      exact o.sign.update_eq (SignState.performSignature_threw (Option.some.inj he))
    · exact h.elim
  | signWithHashOk =>
    dsimp only [move] at h
    split at h
    · rename_i he
      exact o.sign.update_eq (SignState.performSignature_threw (Option.some.inj he))
    · exact h.elim
  | signMessageOk =>
    dsimp only [move] at h
    split at h
    · rename_i he
      exact o.signMsg.update_eq (SignMessageState.performSignature_threw (Option.some.inj he))
    · exact h.elim
  | signMessageHashOk =>
    dsimp only [move] at h
    split at h
    · rename_i he
      exact o.signMsgHash.update_eq (SignMessageHashState.performSignature_threw (Option.some.inj he))
    · exact h.elim

end Run

/-- The union after a move that keeps it. -/
theorem moveOf_keeps {g g' : Globals M} {x : Input} (hm : (moveOf o sdk g x).Keeps)
    (h : (appStep o sdk g x).2 = some g') : g'.u = g.u := by
  have hs := stepped o sdk g x
  generalize appStep o sdk g x = r at hs h
  cases hs with
  | ignored =>
    cases h
    rfl
  | configured =>
    cases h
    rfl
  | unwired =>
    cases h
    rfl
  | wild => cases h
  | @handled ins p stack hlt =>
    cases h
    have hins : ¬ ((0x80 : UInt8) ≠ 0x80 ∨ sizeofHandlers ≤ ins.toNat) := by
      simp [sizeofHandlers]
      omega
    rw [moveOf, if_neg hins, Globals.fetch_of_lt hlt] at hm
    rw [Globals.u_handled]
    exact ApduHandler.move_keeps hm
  | @beyond ins p stack f hlo hhi hw hf =>
    cases h
    have hins : ¬ ((0x80 : UInt8) ≠ 0x80 ∨ sizeofHandlers ≤ ins.toNat) := by
      simp [hhi]
    rw [moveOf, if_neg hins, hw] at hm
    exact UiCallback.move_keeps hm
  | @answered accepted q f hd hf =>
    cases h
    rw [moveOf, hd, hf] at hm
    exact UiCallback.move_keeps hm

/-! ### Exchanges -/

/-- The exchange that `f` began with `p₀` is in the memory: it returned, or no prompt can follow;
the key of a message is the one it read. -/
def Instruction.Begun (o : Overlay M) (sdk : Sdk) (f : Event (Globals M) Input Report) (p₀ : Packet)
    (m : M) : Instruction → Prop
  | .transaction => f.report.outcome.any Outcome.returned = true ∨
      SignState.Dead sdk (o.sign.get m)
  | .message => f.report.outcome.any Outcome.returned = true ∧
      (SignMessageState.pathOf p₀).2 = none ∧
      (o.signMsg.get m).key = (SignMessageState.pathOf p₀).1
  | .messageHash => f.report.outcome.any Outcome.returned = true ∧
      (SignMessageHashState.pathOf p₀).2 = none ∧
      (o.signMsgHash.get m).key = (SignMessageHashState.pathOf p₀).1

theorem event_code (g : Globals M) (i : Instruction) (p : Packet) (stack : List UInt8) :
    event (appStep o sdk) g (.apdu 0x80 i.code p stack) =
      ⟨g, .apdu 0x80 i.code p stack,
        { callee := some (.handler i.handler),
          outcome := some (i.handler.run o sdk g.settings i.code p stack g.u).2 },
        some (g.handled (i.handler.run o sdk g.settings i.code p stack g.u))⟩ := by
  have hins : ¬ sizeofHandlers ≤ i.code.toNat := by cases i <;> decide
  simp [event, appStep, mainLoop, hins, fetch_code]

section Packets
variable {g : Globals M} {p p₀ : Packet} {stack : List UInt8} {i : Instruction}
  {f : Event (Globals M) Input Report}

variable (sdk stack) in
/-- A packet that opens an exchange. -/
theorem ApduHandler.move_opens (h : i.handler.move o g p = .opens i)
    (hf : f.report.outcome = some (i.handler.run o sdk g.settings i.code p stack g.u).2) :
    i.IsFirst p ∧ i.Begun o sdk f p (i.handler.run o sdk g.settings i.code p stack g.u).1 := by
  cases i with
  | transaction =>
    have hfirst : SignState.First p := by
      by_contra hn
      dsimp only [Instruction.handler, move] at h
      rw [if_neg hn] at h
      (repeat' split at h) <;> cases h
    refine ⟨hfirst.2, ?_⟩
    simp only [Instruction.Begun, Instruction.handler, run, Member.update, Member.get_set] at hf ⊢
    have hx := SignState.handled sdk g.settings Instruction.transaction.code p (o.sign.get g.u)
    generalize SignState.handleApdu sdk g.settings _ p (o.sign.get g.u) = x at hx hf ⊢
    cases hx with
    | refused hn => exact absurd hfirst hn
    | next hn => exact absurd hn hfirst.not_next
    | other _ hn => exact absurd hfirst hn
    | first =>
      rw [hf]
      by_cases ht : ∃ e, (SignState.fresh.handleNext ⟨sdk, g.settings, p.beyond⟩
          Instruction.transaction.code p).2 = .threw e
      · obtain ⟨e, he⟩ := ht
        exact .inr (SignState.first_dead he)
      · refine .inl ?_
        generalize (SignState.fresh.handleNext _ _ p).2 = oc at ht
        cases oc with
        | threw e => exact absurd ⟨e, rfl⟩ ht
        | replied => rfl
        | prompted q => rfl
  | message =>
    have hfirst : SignMessageState.First p ∧ (SignMessageState.pathOf p).2 = none := by
      by_contra hn
      dsimp only [Instruction.handler, move] at h
      (repeat' split at h) <;> first | exact hn ⟨‹_›, ‹_›⟩ | cases h
    refine ⟨hfirst.1.2, ?_⟩
    simp only [Instruction.Begun, Instruction.handler, run, Member.update, Member.get_set] at hf ⊢
    have hx := SignMessageState.handled sdk stack p (o.signMsg.get g.u)
    generalize SignMessageState.handleApdu sdk stack p (o.signMsg.get g.u) = x at hx hf ⊢
    have hnn := hfirst.1.not_next
    cases hx with
    | refused hn => exact absurd hfirst.1 hn
    | noMagic hn => exact absurd hn hnn
    | more hn => exact absurd hn hnn
    | last hn => exact absurd hn hnn
    | first =>
      have hkey := (SignMessageState.handleFirst_eq p).1
      rw [hfirst.2, Prod.mk.injEq] at hkey
      rw [hf, hkey.2]
      exact ⟨rfl, hfirst.2, hkey.1⟩
  | messageHash =>
    have hfirst : SignMessageHashState.First g.settings p ∧
        (SignMessageHashState.pathOf p).2 = none := by
      by_contra hn
      dsimp only [Instruction.handler, move] at h
      (repeat' split at h) <;> first | exact hn ⟨‹_›, ‹_›⟩ | cases h
    refine ⟨hfirst.1.2.2, ?_⟩
    simp only [Instruction.Begun, Instruction.handler, run, Member.update, Member.get_set] at hf ⊢
    have hx := SignMessageHashState.handled g.settings p (o.signMsgHash.get g.u)
    generalize SignMessageHashState.handleApdu g.settings p (o.signMsgHash.get g.u) = x at hx hf ⊢
    cases hx with
    | refused hn => exact absurd hfirst.1 hn
    | last hn => exact absurd hn hfirst.1.not_last
    | first =>
      refine ⟨?_, hfirst.2, rfl⟩
      rw [hf, hfirst.2]
      rfl

variable (stack) in
/-- A packet that continues an exchange. -/
theorem ApduHandler.move_continues (h : i.handler.move o g p = .continues i)
    (hb : i.Begun o sdk f p₀ g.u) :
    ¬ i.IsFirst p ∧ i.Begun o sdk f p₀ (i.handler.run o sdk g.settings i.code p stack g.u).1 := by
  cases i with
  | transaction =>
    obtain ⟨hnf, hn⟩ : ¬ Instruction.transaction.IsFirst p ∧ SignState.Next p := by
      dsimp only [Instruction.handler, move] at h
      (repeat' split at h) <;> first | exact ⟨‹_›, And.left ‹_›⟩ | cases h
    refine ⟨hnf, hb.imp_right fun hdead => ?_⟩
    simp only [Instruction.handler, run, Member.update, Member.get_set]
    have hx := SignState.handled sdk g.settings Instruction.transaction.code p (o.sign.get g.u)
    generalize SignState.handleApdu sdk g.settings _ p (o.sign.get g.u) = x at hx ⊢
    cases hx with
    | refused _ hn' => exact absurd hn hn'
    | first hf => exact absurd hf.2 hnf
    | other _ _ hn' => exact absurd hn hn'
    | next =>
      obtain ⟨e, g', he, hd⟩ := hdead.handleNext g.settings p.beyond
        Instruction.transaction.code p
      rwa [he]
  | message =>
    obtain ⟨hnf, hn⟩ : ¬ Instruction.message.IsFirst p ∧ SignMessageState.Next p := by
      dsimp only [Instruction.handler, move] at h
      (repeat' split at h) <;> first | exact ⟨‹_›, And.left ‹_›⟩ | cases h
    refine ⟨hnf, hb.1, hb.2.1, ?_⟩
    rw [← hb.2.2]
    simp only [Instruction.handler, run, Member.update, Member.get_set]
    have hx := SignMessageState.handled sdk stack p (o.signMsg.get g.u)
    generalize SignMessageState.handleApdu sdk stack p (o.signMsg.get g.u) = x at hx ⊢
    cases hx with
    | refused => rfl
    | first hf => exact absurd hf.2 hnf
    | noMagic => rfl
    | more => exact SignMessageState.key_accept _ _ _
    | last => exact SignMessageState.key_accept _ _ _
  | messageHash =>
    obtain ⟨hnf, hl⟩ : ¬ Instruction.messageHash.IsFirst p ∧
        SignMessageHashState.Last g.settings p := by
      dsimp only [Instruction.handler, move] at h
      (repeat' split at h) <;> first | exact ⟨‹_›, ‹_›⟩ | cases h
    refine ⟨hnf, hb.1, hb.2.1, ?_⟩
    rw [← hb.2.2]
    simp only [Instruction.handler, run, Member.update, Member.get_set]
    have hx := SignMessageHashState.handled g.settings p (o.signMsgHash.get g.u)
    generalize SignMessageHashState.handleApdu g.settings p (o.signMsgHash.get g.u) = x at hx ⊢
    cases hx with
    | refused => rfl
    | first hf => exact absurd hf.2.2 hnf
    | last => rfl

/-- A first packet neither continues an exchange nor is passed over. -/
theorem Instruction.IsFirst.move (h : i.IsFirst p) :
    i.handler.move o g p = .opens i ∨ i.handler.move o g p = .refuses i ∨
      i.handler.move o g p = .writes := by
  cases i <;> dsimp only [Instruction.handler, ApduHandler.move] <;> rw [if_pos h] <;>
    (repeat' split) <;> simp

theorem SignState.handleNext_prompted {env : Env} {g : SignState} {ins : UInt8} {q : Prompt}
    (h : (g.handleNext env ins p).2 = .prompted q) : g.hardReject = false ∧ p.last = true := by
  cases hr : g.hardReject with
  | true => simp [handleNext, hr] at h
  | false =>
    refine ⟨rfl, ?_⟩
    rw [handleNext_eq hr] at h
    unfold afterPacket at h
    split at h
    · cases h
    · exact (conclude_prompted h).2.1

/-- A continuation packet that raises a prompt is the last one of an exchange. -/
theorem Instruction.IsNext.closes (hn : i.IsNext p) {q : Prompt}
    (hq : (i.handler.run o sdk g.settings i.code p stack g.u).2 = .prompted q) :
    i.handler.move o g p = .continues i ∧ i.Closes o g.u p := by
  cases i with
  | transaction =>
    have hnf : ¬ Instruction.transaction.IsFirst p := fun hf =>
      absurd (hf.symm.trans hn) (by decide)
    simp only [Instruction.handler, ApduHandler.run, Member.update] at hq
    have hx := SignState.handled sdk g.settings Instruction.transaction.code p (o.sign.get g.u)
    generalize SignState.handleApdu sdk g.settings _ p (o.sign.get g.u) = x at hx hq
    cases hx with
    | refused => cases hq
    | first hf => exact absurd hf.2 hnf
    | other hlen _ hn' => exact absurd ⟨hlen, hn⟩ hn'
    | next hn' =>
      obtain ⟨hr, hl⟩ := SignState.handleNext_prompted hq
      refine ⟨?_, hl⟩
      dsimp only [Instruction.handler, ApduHandler.move]
      rw [if_neg fun hf => hnf hf.2, if_neg hnf, if_pos ⟨hn', hr⟩]
  | message =>
    have hnf : ¬ Instruction.message.IsFirst p := fun hf =>
      absurd (hf.symm.trans hn) (by decide)
    simp only [Instruction.handler, ApduHandler.run, Member.update] at hq
    have hx := SignMessageState.handled sdk stack p (o.signMsg.get g.u)
    generalize SignMessageState.handleApdu sdk stack p (o.signMsg.get g.u) = x at hx hq
    cases hx with
    | refused => cases hq
    | first hf => exact absurd hf.2 hnf
    | noMagic => cases hq
    | more => cases hq
    | last hn' hi hl hm =>
      refine ⟨?_, hl, hm⟩
      dsimp only [Instruction.handler, ApduHandler.move]
      rw [if_neg fun hf => hnf hf.2, if_neg hnf, if_pos ⟨hn', hi⟩]
  | messageHash =>
    have hnf : ¬ Instruction.messageHash.IsFirst p := fun hf =>
      absurd (hf.symm.trans hn) (by decide)
    simp only [Instruction.handler, ApduHandler.run, Member.update] at hq
    have hx := SignMessageHashState.handled g.settings p (o.signMsgHash.get g.u)
    generalize SignMessageHashState.handleApdu g.settings p (o.signMsgHash.get g.u) = x at hx hq
    cases hx with
    | refused => cases hq
    | first hf => exact absurd hf.2.2 hnf
    | last hl =>
      refine ⟨?_, trivial⟩
      dsimp only [Instruction.handler, ApduHandler.move]
      rw [if_neg fun hf => hnf hf.2.2, if_neg hnf, if_pos hl]

/-- A prompt comes of an exchange whose first packet did not fail. -/
theorem Instruction.Begun.returned (hb : i.Begun o sdk f p₀ g.u) (hn : i.IsNext p) {q : Prompt}
    (hq : (i.handler.run o sdk g.settings i.code p stack g.u).2 = .prompted q) :
    f.report.outcome.any Outcome.returned = true := by
  cases i with
  | message => exact hb.1
  | messageHash => exact hb.1
  | transaction =>
    refine hb.resolve_right fun hdead => ?_
    simp only [Instruction.handler, ApduHandler.run, Member.update] at hq
    have hx := SignState.handled sdk g.settings Instruction.transaction.code p (o.sign.get g.u)
    generalize SignState.handleApdu sdk g.settings _ p (o.sign.get g.u) = x at hx hq
    cases hx with
    | refused => cases hq
    | first hf => exact absurd (hf.2.symm.trans hn) (by decide)
    | other hlen _ hn' => exact absurd ⟨hlen, hn⟩ hn'
    | next =>
      obtain ⟨e, g', he, -⟩ := hdead.handleNext g.settings p.beyond
        Instruction.transaction.code p
      rw [he] at hq
      cases hq

end Packets

/-! ### Runs -/

theorem LastFirst.concat {pre : List (Event (Globals M) Input Report)} {i : Instruction}
    {p : Packet} {f e : Event (Globals M) Input Report} (h : LastFirst pre i p f)
    (hfirst : ∀ p', Commands e i p' → ¬ i.IsFirst p') (he : (∃ p', Commands e i p') ∨ Idle e) :
    LastFirst (pre ++ [e]) i p f := by
  obtain ⟨hc, hf, past, post, rfl, hpost⟩ := h
  refine ⟨hc, hf, past, post ++ [e], by simp, fun e' he' => ?_⟩
  rcases List.mem_append.mp he' with hmem | hmem
  · exact hpost e' hmem
  · rw [List.mem_singleton.mp hmem]
    exact ⟨hfirst, he⟩

variable (o sdk) in
theorem Commands.move {e : Event (Globals M) Input Report} {i : Instruction} {p : Packet}
    (h : Commands e i p) (hf : i.IsFirst p) : moveOf o sdk e.before e.input = .opens i ∨
      moveOf o sdk e.before e.input = .refuses i ∨ moveOf o sdk e.before e.input = .writes := by
  obtain ⟨stack, hi⟩ := h
  rw [hi, moveOf_code]
  exact hf.move

/-- The exchange that is open was begun by the last first packet of its instruction. -/
def InSession (o : Overlay M) (sdk : Sdk) (pre : List (Event (Globals M) Input Report))
    (g : Globals M) : Prop :=
  ∀ i, openOf o sdk pre = some i → ∃ f p, LastFirst pre i p f ∧ i.Begun o sdk f p g.u

theorem InSession.step {pre : List (Event (Globals M) Input Report)} {g g' : Globals M}
    {x : Input} (hg : InSession o sdk pre g) (h : (appStep o sdk g x).2 = some g') :
    InSession o sdk (pre ++ [event (appStep o sdk) g x]) g' := by
  intro i hi
  rw [openOf_concat, event_before, event_input] at hi
  cases hm : moveOf o sdk g x with
  | idle =>
    rw [hm] at hi
    obtain ⟨f, p, hf, hb⟩ := hg i hi
    have hu : g'.u = g.u := moveOf_keeps (by rw [hm]; trivial) h
    refine ⟨f, p, hf.concat (fun p' hc hfirst => ?_) (.inr ⟨g', h, hu⟩), hu ▸ hb⟩
    have := hc.move o sdk hfirst
    simp [hm] at this
  | writes =>
    rw [hm] at hi
    cases hi
  | refuses j =>
    rw [hm, Move.after] at hi
    split at hi
    · cases hi
    · rename_i hne
      obtain ⟨f, p, hf, hb⟩ := hg i hi
      have hu : g'.u = g.u := moveOf_keeps (by rw [hm]; trivial) h
      refine ⟨f, p, hf.concat (fun p' hc hfirst => ?_) (.inr ⟨g', h, hu⟩), hu ▸ hb⟩
      rcases hc.move o sdk hfirst with he | he | he <;>
        simp only [event_before, event_input, hm] at he
      · cases he
      · cases he
        exact hne hi
      · cases he
  | opens j =>
    rw [hm] at hi
    obtain rfl : j = i := Option.some.inj hi
    obtain ⟨p, stack, rfl⟩ := moveOf_instruction (i := j) (by rw [hm]; rfl)
    rw [moveOf_code] at hm
    obtain ⟨hfirst, hb⟩ := ApduHandler.move_opens sdk stack
      (f := event (appStep o sdk) g (.apdu 0x80 j.code p stack)) hm (by rw [event_code])
    have hu : g' = g.handled (j.handler.run o sdk g.settings j.code p stack g.u) := by
      rw [← event_after, event_code] at h
      exact (Option.some.inj h).symm
    exact ⟨_, p, ⟨⟨stack, rfl⟩, hfirst, pre, [], rfl, by simp⟩, by simpa [hu] using hb⟩
  | continues j =>
    rw [hm, Move.after] at hi
    split at hi
    · rename_i heq
      obtain rfl : j = i := Option.some.inj (heq.symm.trans hi)
      obtain ⟨f, p₀, hf, hb⟩ := hg j hi
      obtain ⟨p, stack, rfl⟩ := moveOf_instruction (i := j) (by rw [hm]; rfl)
      rw [moveOf_code] at hm
      obtain ⟨-, hb'⟩ := ApduHandler.move_continues stack hm hb
      have hu : g' = g.handled (j.handler.run o sdk g.settings j.code p stack g.u) := by
        rw [← event_after, event_code] at h
        exact (Option.some.inj h).symm
      refine ⟨f, p₀, hf.concat (fun p' hc hfirst => ?_) (.inl ⟨p, stack, rfl⟩), ?_⟩
      · rcases hc.move o sdk hfirst with he | he | he <;>
          simp [moveOf_code, hm] at he
      · simpa [hu] using hb'
    · cases hi

theorem Instruction.pathOf_length {i : Instruction} {p : Packet} (hi : i ≠ .transaction)
    (h : (i.pathOf p).2 = none) :
    1 ≤ (i.pathOf p).1.length ∧ (i.pathOf p).1.length ≤ maxBip32Path := by
  cases i with
  | transaction => exact absurd rfl hi
  | message =>
    simp only [pathOf, SignMessageState.pathOf] at h ⊢
    split at h
    · cases h
    · rename_i hlen
      rw [if_neg hlen]
      exact readBip32Path_length h
  | messageHash => exact readBip32Path_length h

/-- Each continuation packet that raises a prompt belongs to a session, in each run in which the
last packet of an exchange comes while that exchange is open. -/
theorem always_belongsToSession (o : Overlay M) (sdk : Sdk) (settings : Settings)
    (inputs : List Input)
    (h : Always (appStep o sdk) (appMain o settings) inputs (Orderly o sdk)) :
    Always (appStep o sdk) (appMain o settings) inputs (BelongsToSession o) := by
  refine (always_of_invariant (I := InSession o sdk) (fun i hi => by cases hi)
    (fun pre g x g' _ hg h => hg.step h) h).mono ?_
  rintro pre e ⟨he, hg, horder⟩ i p ⟨stack, hin⟩ hnext q hq
  rw [hin, event_code] at he
  generalize hg₀ : e.before = g at he hg horder
  subst he
  replace hq := Option.some.inj hq
  obtain ⟨hm, hcloses⟩ := hnext.closes hq
  simp only [Orderly, moveOf_code, hm] at horder
  obtain ⟨f, p₀, hf, hb⟩ := hg i (horder hcloses)
  refine ⟨f, p₀, hf, hb.returned hnext hq, fun hi g' hg' => ?_⟩
  obtain rfl := Option.some.inj hg'
  have hb' := (ApduHandler.move_continues stack hm hb).2
  have hpath : (i.pathOf p₀).2 = none ∧
      i.key o (i.handler.run o sdk g.settings i.code p stack g.u).1 = (i.pathOf p₀).1 := by
    cases i with
    | transaction => exact absurd rfl hi
    | message => exact hb'.2
    | messageHash => exact hb'.2
  rw [Globals.u_handled, hpath.2]
  exact ⟨hpath.1, rfl, Instruction.pathOf_length hi hpath.1⟩

/-- A message with a refused request in between, and then a message hash. -/
def exchangesRun : List Input :=
  [.apdu 0x80 insSignMessage ⟨p1First, 0 :: samplePath, []⟩ [],
    .apdu 0x80 insAccountImport ⟨1, sampleBytes, []⟩ [],
    .apdu 0x80 insSignMessage ⟨p1Next ||| p1LastMarker, sampleMessage, []⟩ [],
    .promptResponse false,
    .apdu 0x80 insSignMessageHash ⟨p1First, samplePath, []⟩ [],
    .apdu 0x80 insSignMessageHash ⟨p1LastMarker, sampleBytes, []⟩ []]

theorem exchangesRun_belongsToSession :
    Always (appStep .separate sampleSdk) (appMain .separate { signHashOn := true }) exchangesRun
      (BelongsToSession .separate) :=
  always_belongsToSession .separate sampleSdk { signHashOn := true } exchangesRun
    (by decide +kernel)

/-- A path of six components is refused, and then a hash is sent. -/
def refusedPathRun : List Input :=
  [.apdu 0x80 insSignMessageHash ⟨p1First, 6 :: List.replicate 24 0, []⟩ [],
    .apdu 0x80 insSignMessageHash ⟨p1LastMarker, sampleBytes, []⟩ []]

/-- The hash is prompted for, with the path that was refused. -/
theorem refusedPathRun_prompts : ¬ Always (appStep .separate sampleSdk)
    (appMain .separate { signHashOn := true }) refusedPathRun (BelongsToSession .separate) := by
  intro h
  have hlast : ∃ f e, trace (appStep .separate sampleSdk)
        (appMain .separate { signHashOn := true }) refusedPathRun = [f] ++ [e] ∧
      Commands e .messageHash ⟨p1LastMarker, sampleBytes, []⟩ ∧
      e.report.outcome = some (.prompted ⟨[⟨"Sign", .text "Message Hash"⟩,
        ⟨"Message Hash: ", .hex sampleBytes⟩], .signMessageHashOk, .signReject⟩) ∧
      f.report.outcome.any Outcome.returned = false :=
    ⟨_, _, rfl, ⟨[], rfl⟩, by decide +kernel, by decide +kernel⟩
  obtain ⟨f, e, he, hc, hq, hf⟩ := hlast
  obtain ⟨f', p₀, ⟨-, -, past, post, hpre, -⟩, hret, -⟩ := h [f] e [] he _ _ hc rfl _ hq
  obtain rfl : f' = f := by
    have hmem : f' ∈ [f] := hpre ▸ by simp
    simpa using hmem
  rw [hf] at hret
  cases hret

end NervosLedger
