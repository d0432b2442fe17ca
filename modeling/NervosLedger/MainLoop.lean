import NervosLedger.Message
import NervosLedger.Machine.Trace

/-!
# The command loop

`app_main` fills the handler table and `main_loop` calls through it, one command after another;
in between the user answers the prompt on the screen. The states of the instructions share one
union.
-/
namespace NervosLedger
open Molecule Machine

/-! ### Memory -/

/-- A member of the union: what it reads of the memory, and how it is stored there. -/
structure Member (M S : Type) where
  get : M → S
  set : S → M → M
  get_set : ∀ s m, get (set s m) = s
  set_get : ∀ m, set (get m) m = m

attribute [simp] Member.get_set Member.set_get

/-- `f` on a member of the union. -/
def Member.update {M S α : Type} (v : Member M S) (f : S → S × α) (m : M) : M × α :=
  (v.set (f (v.get m)).1 m, (f (v.get m)).2)

/-- A store of what was read before. -/
theorem Member.update_eq {M S α : Type} (v : Member M S) {f : S → S × α} {m : M}
    (h : (f (v.get m)).1 = v.get m) : (v.update f m).1 = m := by
  simp [update, h]

/-- `global.apdu.u`. What a store to one member does to the others is left open. -/
structure Overlay (M : Type) where
  zero : M
  pubkey : Member M PubkeyState
  sign : Member M SignState
  signMsg : Member M SignMessageState
  signMsgHash : Member M SignMessageHashState
  pubkey_zero : pubkey.get zero = {}
  sign_zero : sign.get zero = {}
  signMsg_zero : signMsg.get zero = {}
  signMsgHash_zero : signMsgHash.get zero = {}

/-- Four members that do not overlap. -/
def Overlay.separate :
    Overlay (PubkeyState × SignState × SignMessageState × SignMessageHashState) where
  zero := ({}, {}, {}, {})
  pubkey := ⟨fun m => m.1, fun s m => (s, m.2), fun _ _ => rfl, fun _ => rfl⟩
  sign := ⟨fun m => m.2.1, fun s m => (m.1, s, m.2.2), fun _ _ => rfl, fun _ => rfl⟩
  signMsg := ⟨fun m => m.2.2.1, fun s m => (m.1, m.2.1, s, m.2.2.2), fun _ _ => rfl, fun _ => rfl⟩
  signMsgHash := ⟨fun m => m.2.2.2, fun s m => (m.1, m.2.1, m.2.2.1, s), fun _ _ => rfl,
    fun _ => rfl⟩
  pubkey_zero := rfl
  sign_zero := rfl
  signMsg_zero := rfl
  signMsgHash_zero := rfl

/-! ### The handler table -/

def insSign : UInt8 := 0x03
def insAccountImport : UInt8 := 0x05
def insSignMessage : UInt8 := 0x06
def insSignMessageHash : UInt8 := 0x07
def insMax : ℕ := 0x09

/-- The functions of type `apdu_handler`. -/
inductive ApduHandler where
  | handleApduError | handleApduVersion | handleApduGetWalletId | handleApduGetPublicKey
  | handleApduSign | handleApduAccountImport | handleApduSignMessage | handleApduSignMessageHash
  | handleApduGit
  deriving DecidableEq, Repr

/-- `global.handlers` as `app_main` leaves it. -/
def handlers : Vector ApduHandler (insMax + 1) :=
  #v[.handleApduVersion, .handleApduGetWalletId, .handleApduGetPublicKey, .handleApduSign,
    .handleApduGetPublicKey, .handleApduAccountImport, .handleApduSignMessage,
    .handleApduSignMessageHash, .handleApduError, .handleApduGit]

/-- `sizeof(global.handlers)`: a pointer has 4 bytes. -/
def sizeofHandlers : ℕ := 4 * (insMax + 1)

/-- What `main_loop` calls: a handler, one of the callbacks of a prompt, or something else. -/
inductive Callee where
  | handler (f : ApduHandler)
  | callback (f : UiCallback)
  | wild
  deriving DecidableEq, Repr

/-- `globals_t`, with the settings, and the prompt the screen shows. -/
structure Globals (M : Type) where
  okCallback : Option UiCallback := none
  cxlCallback : Option UiCallback := none
  u : M
  settings : Settings := {}
  displayed : Option Prompt := none

namespace Globals
variable {M : Type}

/-- `handlers[ins]`, also where `ins` is beyond the table: `ui.ok_callback` and
`ui.cxl_callback` follow it in `globals_t`. -/
def fetch (g : Globals M) (ins : UInt8) : Callee :=
  if h : ins.toNat < insMax + 1 then .handler handlers[ins.toNat]
  else match ins.toNat - (insMax + 1) with
    | 0 => (g.okCallback.map Callee.callback).getD .wild
    | 1 => (g.cxlCallback.map Callee.callback).getD .wild
    | _ => .wild

end Globals

/-! ### What is called -/

section Calls
variable {M : Type} (o : Overlay M) (sdk : Sdk)

/-- `handle_apdu_get_wallet_id`, up to the identifier it sends. -/
def getWalletId : Outcome :=
  match sdk.publicKey ⟨2, #v[0x8000002C, 0x80000135, 0, 0, 0]⟩ with
  | .error e => .threw e
  | .ok _ => .replied

/-- A handler on a command; `stack` is what its local buffers held. -/
def ApduHandler.run (settings : Settings) (ins : UInt8) (p : Packet) (stack : List UInt8) :
    ApduHandler → M → M × Outcome
  | .handleApduError, m => (m, .threw .invalidIns)
  | .handleApduVersion, m | .handleApduGit, m => (m, .replied)
  | .handleApduGetWalletId, m => (m, getWalletId sdk)
  | .handleApduGetPublicKey, m => o.pubkey.update (PubkeyState.handleApdu sdk ins p) m
  | .handleApduAccountImport, m => o.pubkey.update (PubkeyState.handleAccountImport sdk p) m
  | .handleApduSign, m => o.sign.update (SignState.handleApdu sdk settings ins p) m
  | .handleApduSignMessage, m => o.signMsg.update (SignMessageState.handleApdu sdk stack p) m
  | .handleApduSignMessageHash, m =>
    o.signMsgHash.update (SignMessageHashState.handleApdu settings p) m

/-- A callback of a prompt, and the signature it makes if it is one that signs. -/
def UiCallback.run : UiCallback → M → M × Option Performed
  | .signWithoutHashOk, m | .signWithHashOk, m =>
    o.sign.update (fun g => ((g.performSignature sdk).1, some (g.performSignature sdk).2)) m
  | .signMessageOk, m =>
    o.signMsg.update (fun g => ((g.performSignature sdk).1, some (g.performSignature sdk).2)) m
  | .signMessageHashOk, m =>
    o.signMsgHash.update (fun g => ((g.performSignature sdk).1, some (g.performSignature sdk).2)) m
  -- `clear_data`
  | .signReject, m => (o.sign.set {} m, none)
  | .pubkeyOk, m | .extPubkeyOk, m | .accountImportOk, m | .delayReject, m => (m, none)

/-- What can happen to the application. -/
inductive Input where
  | apdu (cla ins : UInt8) (p : Packet) (stack : List UInt8)
  | badLength
  | promptResponse (accepted : Bool)
  | configure (settings : Settings)
  deriving DecidableEq, Repr

/-- What happened in a step: the function `main_loop` called, how the handler ended, and the
signature that was made. -/
structure Report where
  callee : Option Callee := none
  outcome : Option Outcome := none
  performed : Option Performed := none
  deriving DecidableEq, Repr

/-- The globals once a handler has ended. -/
def Globals.handled (g : Globals M) : M × Outcome → Globals M
  | (u, .prompted p) =>
    { g with
      u
      okCallback := some p.okCallback
      cxlCallback := some p.cxlCallback
      displayed := some p }
  | (u, _) => { g with u }

@[simp] theorem Globals.u_handled (g : Globals M) (x : M × Outcome) : (g.handled x).u = x.1 := by
  obtain ⟨u, _ | _ | _⟩ := x <;> rfl

theorem Globals.handled_of_ne {g : Globals M} {x : M × Outcome} (hx : ∀ q, x.2 ≠ .prompted q) :
    g.handled x = { g with u := x.1 } := by
  obtain ⟨u, _ | q | _⟩ := x
  · rfl
  · exact absurd rfl (hx q)
  · rfl

/-- A command in `main_loop`. After a call to what is no function nothing is known. -/
def mainLoop (g : Globals M) (cla ins : UInt8) (p : Packet) (stack : List UInt8) :
    Report × Option (Globals M) :=
  if cla ≠ 0x80 then ({}, some g)
  else if ins.toNat ≥ sizeofHandlers then ({}, some g)
  else match g.fetch ins with
    | .handler f =>
      let r := f.run o sdk g.settings ins p stack g.u
      ({ callee := some (.handler f), outcome := some r.2 }, some (g.handled r))
    | .callback f =>
      let r := f.run o sdk g.u
      ({ callee := some (.callback f), performed := r.2 }, some { g with u := r.1 })
    | .wild => ({ callee := some .wild }, none)

/-- `prompt_response`; without a prompt on the screen there is nothing to answer. -/
def promptResponse (g : Globals M) (accepted : Bool) : Report × Globals M :=
  match g.displayed with
  | none => ({}, g)
  | some _ =>
    let g := { g with displayed := none }
    match if accepted then g.okCallback else g.cxlCallback with
    | none => ({}, g)
    | some f =>
      let r := f.run o sdk g.u
      ({ performed := r.2 }, { g with u := r.1 })

/-- What the application does on an input. -/
def appStep : Step (Globals M) Input Report := fun g i =>
  match i with
  | .apdu cla ins p stack => mainLoop o sdk g cla ins p stack
  | .badLength => ({}, some g)
  | .promptResponse accepted =>
    ((promptResponse o sdk g accepted).1, some (promptResponse o sdk g accepted).2)
  | .configure settings => ({}, some { g with settings })

/-- The globals that `app_main` sets up. -/
def appMain (settings : Settings) : Globals M := { u := o.zero, settings }

end Calls
end NervosLedger
