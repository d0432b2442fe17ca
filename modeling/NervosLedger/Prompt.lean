import NervosLedger.AnnotatedTransaction

/-!
# The screens of a transaction

`sign_complete` chooses the screens by the operation tag. A screen is its title and what the
formatter registered for it is given.
-/
namespace NervosLedger
open Molecule

/-- What a formatter shows. -/
inductive ScreenValue where
  | text (s : String)
  | ckb (amount : UInt64)
  | ckbTuple (fst snd : UInt64)
  | tuple (fst snd : UInt64)
  | sighashAddress (hash : StandardLockArg)
  | multisigAddress (lockArg : LockArg)
  | contractType (unknown : Bool)
  | output (capacity : UInt64) (destination : ScreenValue)
  | hex (bytes : List UInt8)
  | buffer (bytes : List UInt8)
  deriving DecidableEq, Repr

structure Screen where
  title : String
  value : ScreenValue
  deriving DecidableEq, Repr

/-- The functions that `ok_callback` and `cxl_callback` are set to. -/
inductive UiCallback where
  | signWithoutHashOk | signWithHashOk | signReject
  | signMessageOk | signMessageHashOk
  | pubkeyOk | extPubkeyOk | accountImportOk | delayReject
  deriving DecidableEq, Repr

/-- What `ui_prompt_with_cb` raises. -/
structure Prompt where
  screens : List Screen
  okCallback : UiCallback
  cxlCallback : UiCallback
  deriving DecidableEq, Repr

def maxScreenCount : ℕ := 8

/-- `ui_prompt_with_cb`. -/
def uiPrompt (screens : List Screen) (ok cxl : UiCallback) : Except Exc Prompt :=
  if screens.length > maxScreenCount then .error .memoryError else .ok ⟨screens, ok, cxl⟩

def insSignWithHash : UInt8 := 0x0F

/-- `lock_arg_to_destination_address_cb` on an entry of `outputs`. -/
def Output.address (o : Output) : ScreenValue :=
  if o.isMultisig then .multisigAddress o.destination else .sighashAddress o.destination.hash

namespace SignState
variable (env : Env) (g : SignState)

def firstOutput : Output := g.tx.outputs.headD {}

/-- The title `multi_output_prompts_cb` gives to screen `which`. -/
def outputTitle (which count : ℕ) : String :=
  "Output " ++ (if which < 100 then toString (which - 2) else "") ++
    (if count < 100 then "/" ++ toString count else "")

/-- `multi_output_prompts_cb` on the screens from the third on. -/
def outputScreens : List Screen :=
  g.tx.outputs.mapIdx fun i o =>
    ⟨outputTitle (i + 3) g.tx.outputs.length, .output o.capacity o.address⟩

/-- The screens `sign_complete` shows, or the error it throws. -/
def signScreens : Except Exc (List Screen) :=
  match g.v.tag with
  | .plainTransfer =>
    .ok ([⟨"Confirm", .text "Transaction"⟩, ⟨"Amount", .ckb g.v.amountSnd⟩,
      ⟨"Fee", .ckb g.v.totalFee⟩, ⟨"Destination", g.firstOutput.address⟩] ++
      if env.settings.allowContractData then [⟨"Contract", .contractType g.v.contractUnknown⟩]
      else [])
  | .multiOutputTransfer =>
    .ok ([⟨"Confirm", .text "Transaction"⟩, ⟨"Amount", .ckb g.v.amountSnd⟩,
      ⟨"Fee", .ckb g.v.totalFee⟩] ++ g.outputScreens)
  | .selfTransfer =>
    .ok [⟨"Confirm", .text "Self-Transfer"⟩, ⟨"Amount", .ckb g.v.amountSnd⟩,
      ⟨"Fee", .ckb g.v.totalFee⟩, ⟨"Destination", g.firstOutput.address⟩]
  | .multiInputTransfer =>
    .ok [⟨"Confirm", .text "Multi-Input Transaction"⟩,
      ⟨"Input", .tuple g.v.inputCountFst g.v.inputCountSnd⟩,
      ⟨"Source", .sighashAddress g.currentLockArg⟩,
      ⟨"Amount", .ckbTuple g.v.amountFst g.v.amountSnd⟩,
      ⟨"Fee", .ckb g.v.totalFee⟩, ⟨"Destination", g.firstOutput.address⟩]
  | .daoDeposit =>
    .ok [⟨"Confirm DAO", .text "Deposit"⟩, ⟨"Deposit Amount", .ckb g.v.daoAmount⟩,
      ⟨"Fee", .ckb g.v.totalFee⟩, ⟨"Cell Owner", .sighashAddress g.daoCellOwner⟩]
  | .daoPrepare =>
    .ok [⟨"Confirm DAO", .text "Prepare"⟩, ⟨"Deposit Amount", .ckb g.v.daoAmount⟩,
      ⟨"Fee", .ckb g.v.totalFee⟩, ⟨"Cell Owner", .sighashAddress g.daoCellOwner⟩]
  | .daoWithdraw =>
    .ok [⟨"Confirm DAO", .text "Withdrawal"⟩, ⟨"Deposit Amount", .ckb g.v.daoAmount⟩,
      ⟨"Compensation", .ckb g.v.totalFee⟩, ⟨"Cell Owner", .sighashAddress g.daoCellOwner⟩]
  | .none | .notSet => .error .reject

/-- `sign_complete`. -/
def signComplete (instruction : UInt8) : Except Exc Prompt :=
  let ok := if instruction = insSignWithHash then .signWithHashOk else .signWithoutHashOk
  match g.signScreens env with
  | .error e => .error e
  | .ok screens => uiPrompt screens ok .signReject

end SignState
end NervosLedger
