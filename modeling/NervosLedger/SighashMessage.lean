import NervosLedger.WitnessPieces

/-!
# The message that is signed

After the transaction hash the witnesses go into the hash, each behind its length, and the first one
with a lock that holds no signature. This is the message that the lock scripts of the chain check.
-/
namespace NervosLedger
open Molecule

/-! ### The message of a transaction -/

namespace SignState
variable {sdk : Sdk}

/-- A first witness is empty, or a `WitnessArgs`. -/
def encodeFirst : Option WitnessArgs → List UInt8
  | none => []
  | some w => w.encode

theorem length_firstWitness {t : AnnotatedTransaction} (hfit : t.Fits) {w : List UInt8}
    {ws : List (List UInt8)} (hw : t.witnesses = w :: ws) : w.length + 69 < 2 ^ 32 := by
  have hlt : t.encode.length < 2 ^ 32 := hfit
  have hraw : 28 ≤ t.raw.encode.length := by
    rw [AnnotatedRawTransaction.encode, length_encodeParts]
    simp [headerSize]
  have hpath : ∀ cs, 4 ≤ (encodePath cs).length := by
    intro cs
    rw [encodePath, length_encodeItems]
    omega
  have hsign := hpath t.signPath
  have hchange := hpath t.changePath
  have hwitnesses : w.length + 12 ≤ (encodeBytesVec t.witnesses).length := by
    rw [hw, encodeBytesVec, length_encodeParts, List.map_cons, List.flatten_cons, List.length_append,
      length_encodeBytes, headerSize, List.length_cons]
    omega
  rw [AnnotatedTransaction.encode, length_encodeParts] at hlt
  simp only [headerSize, List.length_cons, List.length_nil, List.flatten_cons, List.flatten_nil,
    List.length_append, FixedBytes.length_toList] at hlt
  omega

/-- Where the signature is for a single key, the message is that of the transaction and of its
witnesses, the first of which has an empty signature. -/
theorem sighash_exact {sent : List Sent} (ha : Accepts sdk sent) {t : AnnotatedTransaction}
    (hfit : t.Fits) (hp : payload sent = t.encode) {first : Option WitnessArgs}
    {ws : List (List UInt8)} (hw : t.witnesses = encodeFirst first :: ws)
    (hm : (accepted sdk sent).signingMultisigInput = false) :
    (accepted sdk sent).tx.finalHash = sdk.blake2b []
      ((accepted sdk sent).tx.transactionHash.toList ++
        ((first.getD {}).unsigned.encode :: ws).flatMap encodeWitness) := by
  obtain ⟨ps, hps, -, m, g₁, hh, hfinal⟩ := ha.signs hfit hw hp
  obtain rfl : m = false := hh.multisig.symm.trans hm
  have hfirst := hh.run.frame.2
  have hhash : (accepted sdk sent).tx.transactionHash = g₁.tx.transactionHash := hh.transactionHash
  have hended : g₁.processWitnessEnd.hashState = ({} : HashState).absorb
      (g₁.tx.transactionHash.toList ++ encodeWitness (first.getD {}).unsigned.encode) := by
    cases first with
    | none =>
      have hd := FirstRun.empty rewriting_tracks (w := {}) (by decide) (fun _ _ => trivial) hh.run hps
      rw [processWitnessEnd, if_pos (by simp [hfirst, hd])]
      simp [restartHash, blake2bChunk]
      rfl
    | some w =>
      have hlt := length_firstWitness hfit hw
      have hlen := w.length_encode
      have hlen' := w.unsigned.length_encode
      have hzero : (encodeBytesOpt w.unsigned.lock).length = 69 := rfl
      have hunsigned : w.unsigned.encode.length ≤ w.encode.length + 69 := by
        rw [hlen', hlen, hzero]
        simp only [WitnessArgs.unsigned]
        omega
      have hlt' : w.encode.length + 69 < 2 ^ 32 := hlt
      obtain ⟨hd, -, hhash⟩ := hh.run.complete rewriting_tracks (by omega) (fun _ _ => trivial) hps
      rw [processWitnessEnd, if_neg (by simp [hd]), hhash, rewriting_replay (by omega) (by omega)]
      rfl
  have hall : (feedAll sdk sent).1.tx.finalHash = _ := hfinal
  change (feedAll sdk sent).1.tx.finalHash = _
  rw [hall, hended, hhash]
  simp

theorem payment_signed :
    (accepted (keySdk []) (paymentPackets 10000000001 10000000000)).tx.finalHash =
      (keySdk []).blake2b [] ((accepted (keySdk [])
          (paymentPackets 10000000001 10000000000)).tx.transactionHash.toList ++
        encodeWitness (WitnessArgs.unsigned {}).encode) := by
  obtain ⟨ha, hm⟩ := @accepts_of_run (keySdk []) (paymentPackets 10000000001 10000000000)
    (fun g => !g.signingMultisigInput) (by decide +kernel) (by decide +kernel)
  have hsigned := @sighash_exact (keySdk []) _ ha (paymentTransaction 10000000001 10000000000)
    (by decide +kernel) (by decide +kernel) (some (WitnessArgs.unsigned {})) [] (by decide +kernel)
    (by simpa using hm)
  rw [hsigned]
  simp [WitnessArgs.unsigned]

end SignState
end NervosLedger
