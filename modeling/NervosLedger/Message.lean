import NervosLedger.HandleApdu

/-!
# Messages and message hashes

`INS_SIGN_MESSAGE` hashes a message that has to begin with the magic bytes, packet by packet;
`INS_SIGN_MESSAGE_HASH` is given the hash.
-/
namespace NervosLedger
open Molecule

/-! ### Derivation paths on the wire -/

/-- A big-endian `uint32_t`. -/
def beUInt32 (buf : List UInt8) : UInt32 := UInt32.ofNat (leNat buf.reverse)

/-- The loop of `read_bip32_path` over the components. -/
def readComponents : ℕ → ℕ → List UInt8 → Vector UInt32 5 → Vector UInt32 5
  | 0, _, _, out => out
  | n + 1, idx, buf, out =>
    readComponents n (idx + 1) (buf.drop 4) (out.setIfInBounds idx (beUInt32 (buf.take 4)))

/-- `read_bip32_path`: what is left in `out`, and the exception if the path is refused. The
length is stored before it is checked. -/
def readBip32Path (out : Bip32Path) : List UInt8 → Bip32Path × Option Exc
  | [] => (out, some .wrongLengthForIns)
  | length :: buf =>
    let out := { out with length := length.toNat }
    if buf.length < 4 * out.length then (out, some .wrongLengthForIns)
    else if out.length = 0 ∨ out.length > maxBip32Path then (out, some .wrongValues)
    else ({ out with components := readComponents out.length 0 buf out.components }, none)

theorem readBip32Path_length {out : Bip32Path} {buf : List UInt8}
    (h : (readBip32Path out buf).2 = none) :
    1 ≤ (readBip32Path out buf).1.length ∧ (readBip32Path out buf).1.length ≤ maxBip32Path := by
  cases buf with
  | nil => cases h
  | cons length buf =>
    unfold readBip32Path at h ⊢
    dsimp only at h ⊢
    split at h
    · cases h
    · split at h
      · cases h
      · rename_i hlen hval
        rw [if_neg hlen, if_neg hval]
        dsimp only
        omega

/-! ### Messages -/

/-- `apdu_sign_message_state_t`; `display_as_buffer` is the part of `display` to be shown. -/
structure SignMessageState where
  key : Bip32Path := {}
  hashState : HashState := {}
  packetIndex : ℕ := 0
  displayAsHex : Bool := false
  display : FixedBytes 64 := .zero 64
  displaySize : ℕ := 0
  finalHash : Digest := .zero 32
  deriving DecidableEq, Repr

/-- `nervos_magic`: "Nervos Message:". -/
def nervosMagic : List UInt8 :=
  [78, 101, 114, 118, 111, 115, 32, 77, 101, 115, 115, 97, 103, 101, 58]

def checkMagicBytes (message : List UInt8) : Bool :=
  15 ≤ message.length && message.take 15 = nervosMagic

/-- The loop of `replace_undisplayable`: the characters written, and how many bytes the size
loses. -/
def replaceUndisplayableLoop : List UInt8 → List UInt8 × ℕ
  | [] => ([], 0)
  | b :: bs =>
    if b > 126 ∨ b < 32 then
      let skip := if b &&& 240 = 240 then 3 else if b &&& 224 = 224 then 2
        else if b &&& 192 = 192 then 1 else 0
      let (chars, lost) := replaceUndisplayableLoop (bs.drop skip)
      (42 :: chars, skip + lost)
    else
      let (chars, lost) := replaceUndisplayableLoop bs
      (b :: chars, lost)
  termination_by bs => bs.length
  decreasing_by
    · exact Nat.lt_succ_of_le (List.length_drop ▸ Nat.sub_le _ _)
    · exact Nat.lt_succ_self _

/-- `tmp_msg_buff` and its size, a `uint8_t`. -/
abbrev TmpBuffer := List UInt8 × ℕ

/-- `slice_magic_bytes`, after `check_magic_bytes`. -/
def sliceMagicBytes : TmpBuffer → TmpBuffer
  | (buff, size) => ((buff.take size).drop 15 ++ buff.drop (size - 15), size - 15)

def replaceUndisplayable : TmpBuffer → TmpBuffer
  | (buff, size) =>
    let (chars, lost) := replaceUndisplayableLoop (buff.take size)
    (chars ++ List.replicate (size - chars.length) 0 ++ buff.drop size,
      (size + 256 * lost - lost) % 256)

def handleLongMessage : TmpBuffer → TmpBuffer
  | (buff, size) =>
    if size > 64 then (((buff.set 61 46).set 62 46).set 63 46, 64) else (buff, size)

namespace SignMessageState

/-- What the first packet leaves to be shown; `stack` is what the temporary buffer held. -/
def setDisplay (data stack : List UInt8) (g : SignMessageState) : SignMessageState :=
  let tmp : TmpBuffer := sliceMagicBytes (data ++ stack.drop data.length, data.length)
  let tmp := if g.displayAsHex then tmp else replaceUndisplayable tmp
  let (buff, size) := handleLongMessage tmp
  { g with display := g.display.write 0 (buff.take size), displaySize := size }

/-- The prompt for a message. -/
def prompt (g : SignMessageState) : Except Exc Prompt :=
  let shown := g.display.toList.take g.displaySize
  uiPrompt [⟨"Sign", .text "Message"⟩,
    ⟨"Message: ", if g.displayAsHex then .hex shown else .buffer shown⟩] .signMessageOk .signReject

/-- The case `P1_FIRST`. -/
def handleFirst (p : Packet) : SignMessageState × Outcome :=
  let g : SignMessageState := {}
  match p.data with
  | [] | [_] => (g, .threw .reject)
  | display :: path =>
    let g := { g with displayAsHex := display ≠ 0 }
    match readBip32Path g.key path with
    | (key, some e) => ({ g with key }, .threw e)
    | (key, none) => ({ g with key }, .replied)

/-- What follows the `switch`. -/
def handleData (sdk : Sdk) (stack : List UInt8) (p : Packet) (g : SignMessageState) :
    SignMessageState × Outcome :=
  if g.packetIndex = 1 ∧ !checkMagicBytes p.data then (g, .threw .parseError)
  else
    let g := if g.packetIndex = 1 then g.setDisplay p.data stack else g
    let g := { g with hashState := g.hashState.absorb p.data }
    if p.last then
      let g := { g with
        finalHash := g.hashState.digest sdk
        hashState := g.hashState.finish }
      match g.prompt with
      | .ok prompt => (g, .prompted prompt)
      | .error e => (g, .threw e)
    else (g, .replied)

/-- `handle_apdu_sign_message_impl`. -/
def handleApdu (sdk : Sdk) (stack : List UInt8) (p : Packet) (g : SignMessageState) :
    SignMessageState × Outcome :=
  if p.data.length > maxApduSize then (g, .threw .wrongLengthForIns)
  else if p.p1 &&& ~~~p1LastMarker = p1First then handleFirst p
  else if p.p1 &&& ~~~p1LastMarker = p1Next then
    if g.packetIndex ≥ 255 then (g, .threw .parseError)
    -- the counter is bumped before the magic bytes are checked
    else ({ g with packetIndex := g.packetIndex + 1 } : SignMessageState).handleData sdk stack p
  else (g, .threw .wrongParam)

/-- `perform_message_signature`. -/
def performSignature (sdk : Sdk) (g : SignMessageState) : SignMessageState × Performed :=
  match withKeyPair sdk g.key g.finalHash.toList with
  | .threw e => (g, .threw e)
  | done => ({}, done)

end SignMessageState

/-! ### Message hashes -/

/-- `apdu_sign_message_hash_state_t`; `hash_to_sign` up to its size. -/
structure SignMessageHashState where
  key : Bip32Path := {}
  hashToSign : List UInt8 := []
  deriving DecidableEq, Repr

namespace SignMessageHashState

def prompt (g : SignMessageHashState) : Except Exc Prompt :=
  uiPrompt [⟨"Sign", .text "Message Hash"⟩, ⟨"Message Hash: ", .hex g.hashToSign⟩]
    .signMessageHashOk .signReject

/-- `handle_apdu_sign_message_hash_impl`. -/
def handleApduImpl (p : Packet) (g : SignMessageHashState) : SignMessageHashState × Outcome :=
  if p.data.length > maxApduSize then (g, .threw .wrongLengthForIns)
  else if p.p1 = p1First then
    match readBip32Path {} p.data with
    | (key, some e) => ({ key }, .threw e)
    | (key, none) => ({ key }, .replied)
  else if p.p1 = p1LastMarker then
    if p.data.length > 32 then (g, .threw .parseError)
    else
      let g := { g with hashToSign := p.data }
      match g.prompt with
      | .ok prompt => (g, .prompted prompt)
      | .error e => (g, .threw e)
  else (g, .threw .wrongParam)

/-- `handle_apdu_sign_message_hash`. -/
def handleApdu (settings : Settings) (p : Packet) (g : SignMessageHashState) :
    SignMessageHashState × Outcome :=
  if settings.signHashOn then g.handleApduImpl p else (g, .threw .reject)

/-- `perform_message_hash_signature`. -/
def performSignature (sdk : Sdk) (g : SignMessageHashState) : SignMessageHashState × Performed :=
  match withKeyPair sdk g.key g.hashToSign with
  | .threw e => (g, .threw e)
  | done => ({}, done)

end SignMessageHashState

/-! ### Public keys -/

/-- `apdu_pubkey_state_t`. -/
structure PubkeyState where
  key : Bip32Path := {}
  extPublicKey : PublicKey := .zero 65
  renderAddressLockArg : StandardLockArg := .zero 20
  deriving DecidableEq, Repr

def insPromptExtPublicKey : UInt8 := 0x04

namespace PubkeyState

/-- `generate_extended_public_key` into `ext_public_key`. -/
def derive (sdk : Sdk) (g : PubkeyState) : Except Exc PubkeyState :=
  match sdk.publicKey g.key with
  | .error e => .error e
  | .ok publicKey => .ok { g with extPublicKey := publicKey }

/-- The prompt of `prompt_path` or `prompt_ext_path`. -/
def prompt (instruction : UInt8) (g : PubkeyState) : Except Exc Prompt :=
  if instruction = insPromptExtPublicKey then
    uiPrompt [⟨"Provide", .text "Extended Public Key"⟩, ⟨"Derivation Path", .text ""⟩,
      ⟨"Address", .sighashAddress g.renderAddressLockArg⟩] .extPubkeyOk .delayReject
  else uiPrompt [⟨"Address", .sighashAddress g.renderAddressLockArg⟩] .pubkeyOk .delayReject

/-- `handle_apdu_get_public_key`. -/
def handleApdu (sdk : Sdk) (instruction : UInt8) (p : Packet) (g : PubkeyState) :
    PubkeyState × Outcome :=
  if p.p1 ≠ 0 ∧ p.p1 ≠ 1 then (g, .threw .wrongParam)
  else match readBip32Path g.key p.data with
    | (key, some e) => ({ g with key }, .threw e)
    | (key, none) =>
      let g := { g with key }
      match g.derive sdk with
      | .error e => (g, .threw e)
      | .ok g =>
        let g := { g with renderAddressLockArg := generateLockArgForPubkey sdk g.extPublicKey }
        if p.p1 = 0 then (g, .replied)
        else match g.prompt instruction with
          | .ok prompt => (g, .prompted prompt)
          | .error e => (g, .threw e)

/-- `handle_apdu_account_import`. -/
def handleAccountImport (sdk : Sdk) (p : Packet) (g : PubkeyState) : PubkeyState × Outcome :=
  if p.p1 ≠ 0 then (g, .threw .wrongParam)
  else if p.data.length ≠ 4 then (g, .threw .wrongParam)
  else
    let account := beUInt32 p.data
    if account ≥ 0x80000000 then (g, .threw .wrongParam)
    else
      let g := { g with key := ⟨3, #v[0x8000002C, 0x80000135, 0x80000000 + account, 0, 0]⟩ }
      match g.derive sdk with
      | .error e => (g, .threw e)
      | .ok g =>
        match uiPrompt [⟨"Import", .text "Account"⟩] .accountImportOk .delayReject with
        | .ok prompt => (g, .prompted prompt)
        | .error e => (g, .threw e)

end PubkeyState

/-! ### A message -/

/-- The path m/44'/309'/0' on the wire. -/
def samplePath : List UInt8 := [3, 0x80, 0, 0, 0x2c, 0x80, 0, 0x01, 0x35, 0x80, 0, 0, 0]

/-- "Nervos Message:hi". -/
def sampleMessage : List UInt8 := nervosMagic ++ [104, 105]

def sampleMessageHash : Digest := ⟨[
  0x77, 0x28, 0x59, 0xf1, 0x2c, 0x67, 0x00, 0xb2, 0xee, 0x86, 0xe7, 0x6d, 0xfa, 0x4e, 0xe8, 0xca,
  0x77, 0x74, 0x2f, 0x90, 0xa3, 0x5c, 0x80, 0xfe, 0x98, 0x91, 0xb6, 0x16, 0x16, 0x8c, 0x29, 0x4a],
  rfl⟩

/-- Four bytes that are no message. -/
def sampleBytes : List UInt8 := [0xde, 0xad, 0xbe, 0xef]

def sampleBytesHash : Digest := ⟨[
  0x76, 0x1b, 0x06, 0x53, 0x6d, 0x4d, 0x95, 0x80, 0xde, 0x9b, 0x63, 0xa3, 0xd5, 0xc5, 0xa5, 0xda,
  0x0c, 0x68, 0x26, 0xc3, 0x97, 0x75, 0xa7, 0xce, 0x50, 0x39, 0xac, 0x7e, 0x0f, 0x7f, 0x5d, 0xbc],
  rfl⟩

def sampleSdk : Sdk :=
  .ofTable [(sampleMessage, sampleMessageHash), (sampleBytes, sampleBytesHash)] samplePublicKey

end NervosLedger
