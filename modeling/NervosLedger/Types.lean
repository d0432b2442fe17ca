import NervosLedger.Molecule.Bytes

/-!
# Exceptions, settings and small types

What `exception.h`, `types.h` and the parts of the SDK that the application calls into are
modelled by.
-/
namespace NervosLedger
open Molecule

/-- The values the application throws; `sdk` is an error code that `CX_ASSERT` passes on. -/
inductive Exc where
  | wrongParam | wrongLength | wrongLengthForIns | invalidIns | reject | parseError
  | wrongValues | security | memoryError
  | sdk (code : ℕ)
  deriving DecidableEq, Repr

inductive AddressType where
  | mainnet | testnet
  deriving DecidableEq, Repr

/-- `nvram_data`: what the user chose in the configuration menu. -/
structure Settings where
  addressType : AddressType := .mainnet
  signHashOn : Bool := false
  allowContractData : Bool := false
  deriving DecidableEq, Repr

abbrev Digest := FixedBytes 32

/-- `standard_lock_arg_t`. -/
abbrev StandardLockArg := FixedBytes 20

/-- `lock_arg_t`: a 20 byte hash and the 8 bytes of a lock period. -/
abbrev LockArg := FixedBytes 28

namespace LockArg

def hash (a : LockArg) : StandardLockArg := ⟨a.toList.take 20, by simp⟩

def lockPeriod (a : LockArg) : FixedBytes 8 := ⟨a.toList.drop 20, by simp⟩

end LockArg

def maxBip32Path : ℕ := 5

/-- `bip32_path_t`. The length is the number the host sent, which need not fit. -/
structure Bip32Path where
  length : ℕ := 0
  components : Vector UInt32 5 := Vector.replicate 5 0
  deriving DecidableEq, Repr

instance : Inhabited Bip32Path := ⟨{}⟩

/-- `blake2b_hash_state_t`, by what was put into it: the bytes since the last finalisation,
and those of each finalisation before it. -/
structure HashState where
  initialized : Bool := false
  finished : List (List UInt8) := []
  absorbed : List UInt8 := []
  deriving DecidableEq, Repr

/-- An uncompressed point, `cx_ecfp_public_key_t.W`. -/
abbrev PublicKey := FixedBytes 65

/-- The SDK and the compiler, as far as the application's results depend on them: the hash of
what a context absorbed since it was last finalised, given what it was finalised with before;
the key of a path; and the values of two shifts that the C standard leaves undefined. -/
structure Sdk where
  blake2b : List (List UInt8) → List UInt8 → Digest
  publicKey : Bip32Path → Except Exc PublicKey
  intShift : ℕ → UInt64
  longShift : ℕ → UInt64

namespace HashState

/-- `blake2b_incremental_hash`. -/
def absorb (h : HashState) (out : List UInt8) : HashState :=
  { h with initialized := true, absorbed := h.absorbed ++ out }

/-- `blake2b_finish_hash`: the context afterwards. -/
def finish (h : HashState) : HashState :=
  { initialized := true, finished := h.finished ++ [h.absorbed], absorbed := [] }

/-- `blake2b_finish_hash`: the hash. -/
def digest (sdk : Sdk) (h : HashState) : Digest := sdk.blake2b h.finished h.absorbed

@[simp] theorem absorbed_absorb (h : HashState) (out : List UInt8) :
    (h.absorb out).absorbed = h.absorbed ++ out := rfl

@[simp] theorem finished_absorb (h : HashState) (out : List UInt8) :
    (h.absorb out).finished = h.finished := rfl

@[simp] theorem absorb_absorb (h : HashState) (a b : List UInt8) :
    (h.absorb a).absorb b = h.absorb (a ++ b) := by
  simp [absorb]

end HashState

/-- An SDK that knows the hashes of some byte strings, and one key for all paths. -/
def Sdk.ofTable (hashes : List (List UInt8 × Digest)) (key : PublicKey) : Sdk where
  blake2b finished absorbed :=
    if finished = [] then (hashes.lookup absorbed).getD default else default
  publicKey _ := .ok key
  intShift _ := 0
  longShift _ := 0

/-- The generator of the curve, uncompressed. -/
def samplePublicKey : PublicKey := ⟨[
  0x04, 0x79, 0xbe, 0x66, 0x7e, 0xf9, 0xdc, 0xbb, 0xac, 0x55, 0xa0, 0x62, 0x95, 0xce, 0x87, 0x0b,
  0x07, 0x02, 0x9b, 0xfc, 0xdb, 0x2d, 0xce, 0x28, 0xd9, 0x59, 0xf2, 0x81, 0x5b, 0x16, 0xf8, 0x17,
  0x98, 0x48, 0x3a, 0xda, 0x77, 0x26, 0xa3, 0xc4, 0x65, 0x5d, 0xa4, 0xfb, 0xfc, 0x0e, 0x11, 0x08,
  0xa8, 0xfd, 0x17, 0xb4, 0x48, 0xa6, 0x85, 0x54, 0x19, 0x9c, 0x47, 0xd0, 0x8f, 0xfb, 0x10, 0xd4,
  0xb8], rfl⟩

/-- `generate_lock_arg_for_pubkey`. -/
def generateLockArgForPubkey (sdk : Sdk) (key : PublicKey) : StandardLockArg :=
  let tag : UInt8 := if (key.toList.getD 64 0) &&& 1 = 1 then 3 else 2
  let hash := sdk.blake2b [] (tag :: (key.toList.drop 1).take 32)
  ⟨hash.toList.take 20, by simp⟩

/-- `prep_lock_arg`. -/
def prepLockArg (sdk : Sdk) (key : Bip32Path) : Except Exc StandardLockArg :=
  match sdk.publicKey key with
  | .error e => .error e
  | .ok publicKey => .ok (generateLockArgForPubkey sdk publicKey)

end NervosLedger
