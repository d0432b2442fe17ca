import NervosLedger.Prompt

/-!
# The packets of a transaction

`handle_apdu`: each packet goes to the parser; the last one raises the prompt.
-/
namespace NervosLedger
open Molecule

/-- An APDU as its handler sees it: `LC` bytes of data, and what the buffer holds after them. -/
structure Packet where
  p1 : UInt8
  data : List UInt8
  beyond : List UInt8 := []
  deriving DecidableEq, Repr

/-- How a handler ends. -/
inductive Outcome where
  | replied
  | prompted (p : Prompt)
  | threw (e : Exc)
  deriving DecidableEq, Repr

/-- Whether a handler returned. -/
def Outcome.returned : Outcome → Bool
  | .threw _ => false
  | _ => true

def maxApduSize : ℕ := 230

def p1First : UInt8 := 0x00
def p1Next : UInt8 := 0x01
def p1NoFallback : UInt8 := 0x40
def p1LastMarker : UInt8 := 0x80
def p1Mask : UInt8 := ~~~(p1LastMarker ||| p1NoFallback)

def Packet.last (p : Packet) : Bool := p.p1 &&& p1LastMarker ≠ 0

def Packet.secureOnly (p : Packet) : Bool := p.p1 &&& p1NoFallback ≠ 0

namespace SignState

/-- A prompt, or the exception thrown instead of it. -/
def raise (g : SignState) : Except Exc Prompt → SignState × Outcome
  | .ok p => (g, .prompted p)
  | .error e => (g, .threw e)

/-- A cleared state with the parser initialised. -/
def fresh : SignState := { transactionStack := annotatedTransactionCallbacks.initState }

/-- `MolReader_AnnotatedTransaction_parse` on the payload of a packet. -/
def parseChunk (env : Env) (chunk : List UInt8) (g : SignState) : SignState × Rv Exc :=
  let r := annotatedTransactionCallbacks.parse (signHandler env) g.transactionStack molNumMax
    chunk g
  ({ r.g with transactionStack := r.st }, r.rv)

/-- What follows the parser in `handle_apdu`, up to the end of the `switch`. -/
def afterParse (p : Packet) (rv : Rv Exc) (g : SignState) : Except Exc Unit × SignState :=
  match rv with
  | .throw e => (.error e, g)
  | _ =>
    if p.last then
      if rv ≠ .complete ∨ g.hardReject then (.error .parseError, g.rejectHard)
      else if g.isUnsafe ∧ p.secureOnly then (.error .security, g)
      else
        (.ok (), { g with
          v.tag := if g.isUnsafe then .none else g.v.tag
          isValid := true })
    else if rv ≠ .incomplete then (.error .parseError, g.rejectHard)
    else (.ok (), g)

/-- The end of `handle_apdu`. -/
def conclude (env : Env) (instruction : UInt8) (p : Packet) (g : SignState) :
    SignState × Outcome :=
  if p.last && g.isValid then g.raise (g.signComplete env instruction) else (g, .replied)

/-- The case `P1_NEXT` and what `P1_FIRST` falls through to. -/
def handleNext (env : Env) (instruction : UInt8) (p : Packet) (g : SignState) :
    SignState × Outcome :=
  if g.hardReject then (g, .threw .parseError)
  else
    match g.parseChunk env p.data with
    | (g, rv) => match g.afterParse p rv with
      | (.error e, g) => (g, .threw e)
      | (.ok (), g) => g.conclude env instruction p

/-- `handle_apdu`. -/
def handleApdu (sdk : Sdk) (settings : Settings) (instruction : UInt8) (p : Packet)
    (g : SignState) : SignState × Outcome :=
  let env : Env := ⟨sdk, settings, p.beyond⟩
  if p.data.length > maxApduSize then (g, .threw .wrongLengthForIns)
  else if p.p1 &&& p1Mask = p1First then fresh.handleNext env instruction p
  else if p.p1 &&& p1Mask = p1Next then g.handleNext env instruction p
  else g.conclude env instruction p

/-- The path `perform_signature` signs with. -/
def signingPath (g : SignState) : Bip32Path where
  length := g.keyLength
  components := #v[0x8000002C, 0x80000135, g.keyPathComponents[0], g.keyPathComponents[1],
    g.keyPathComponents[2]]

end SignState

/-- What a callback that was to sign did: `signed` is a signature by the key of a path over
some bytes. -/
inductive Performed where
  | signed (key : Bip32Path) (data : List UInt8)
  | sentHash (hash : Digest)
  | threw (e : Exc)
  deriving DecidableEq, Repr

/-- `WITH_KEY_PAIR` around `sign`: there is no signature if the key cannot be derived. -/
def withKeyPair (sdk : Sdk) (key : Bip32Path) (data : List UInt8) : Performed :=
  match sdk.publicKey key with
  | .error e => .threw e
  | .ok _ => .signed key data

/-- `perform_signature`; an exception leaves the state as it is. -/
def SignState.performSignature (sdk : Sdk) (g : SignState) : SignState × Performed :=
  if g.tx.hashOnly then ({}, .sentHash g.tx.finalHash)
  else match withKeyPair sdk g.signingPath g.tx.finalHash.toList with
    | .threw e => (g, .threw e)
    | done => ({}, done)

end NervosLedger
