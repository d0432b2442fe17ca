import NervosLedger.Exchange
import NervosLedger.Molecule.Replay
import Mathlib.Data.List.Induction

/-!
# What an exchange reads

The packets of a complete transaction are one reading of the bytes that they carry. What follows
from the calls in their log, but not from how the bytes were cut, follows from that reading.
-/
namespace NervosLedger
open Molecule
namespace SignState

/-- The bytes of the packets, one by one. -/
def chunks (sent : List Sent) : List (List UInt8) := sent.map fun x => x.packet.data

section Session
variable {sdk : Sdk} {σ : Type} {h : Handler SignEvent σ Exc} {R : SignState × SignLog → σ → Prop}

/-- `h` does in its own state what the callbacks do, whatever the settings. -/
structure Mirrors (sdk : Sdk) (h : Handler SignEvent σ Exc) (R : SignState × SignLog → σ → Prop)
    (g₀ : σ) : Prop where
  sim : ∀ x : Sent, annotatedTransactionCallbacks.Every
    (SimAt (signHandler (x.env sdk)).traced h R fun _ => True)
  restack : ∀ {y : SignState × SignLog} {g : σ} (st : ReaderState), R y g →
    R ({ y.1 with transactionStack := st }, y.2) g
  fresh : R (fresh, []) g₀

variable {g₀ : σ}

theorem Mirrors.wanting (hm : Mirrors sdk h R g₀) (hfl : annotatedTransactionCallbacks.Fluid h)
    {sent : List Sent} (hw : Wanting sdk sent) :
    ∃ g, R (feedAll sdk sent) g ∧
      session (fun st inp g => annotatedTransactionCallbacks.parse h st molNumMax inp g)
        annotatedTransactionCallbacks.initState (chunks sent) g₀ =
          ⟨.incomplete, (feedAll sdk sent).1.transactionStack, [], g, false⟩ := by
  induction hw with
  | nil => exact ⟨g₀, hm.fresh, rfl⟩
  | @snoc sent x hw hx ih =>
    obtain ⟨g, hR, hs⟩ := ih
    have hf := Reader.parse_follows (hm.sim x) (feedAll sdk sent).1.transactionStack molNumMax
      x.packet.data hR
    have hrv : (annotatedTransactionCallbacks.parse (signHandler (x.env sdk)).traced
      (feedAll sdk sent).1.transactionStack molNumMax x.packet.data (feedAll sdk sent)).rv =
        .incomplete := hx
    rw [feedAll_concat, feed]
    dsimp only
    rcases hf with ⟨e₁, -, -⟩ | ⟨e₁, e₂, hg⟩ | hr | ⟨⟨e, he⟩, -⟩
    · rw [e₁] at hrv
      cases hrv
    · rename_i st rest g₁ g₂
      obtain ⟨rfl, -⟩ := (Reader.parse_splits hfl molNumMax).incomplete e₂
      rw [e₁]
      refine ⟨g₂, hm.restack st hg, ?_⟩
      rw [chunks, List.map_append, List.map_singleton]
      refine (session_concat hs x.packet.data).trans ?_
      rw [session, e₂]
      rfl
    · rw [hr] at hrv
      cases hrv
    · rw [he] at hrv
      cases hrv

/-- The packets of a transaction make the calls that the scanner lists for their bytes. -/
theorem Mirrors.completes (hm : Mirrors sdk h R g₀) (hfl : annotatedTransactionCallbacks.Fluid h)
    {sent : List Sent} (hc : Completes sdk sent) :
    ∃ es rest, annotatedTransactionCallbacks.scan molNumMax (payload sent) = some (es, rest) ∧
      R (feedAll sdk sent) (h.replay es g₀) := by
  obtain ⟨pre, x, rfl, hw, hx⟩ := hc
  obtain ⟨g, hR, hs⟩ := hm.wanting hfl hw
  have hf := Reader.parse_follows (hm.sim x) (feedAll sdk pre).1.transactionStack molNumMax
    x.packet.data hR
  have hrv : (annotatedTransactionCallbacks.parse (signHandler (x.env sdk)).traced
    (feedAll sdk pre).1.transactionStack molNumMax x.packet.data (feedAll sdk pre)).rv =
      .complete := hx
  rw [feedAll_concat, feed]
  dsimp only
  rcases hf with ⟨e₁, e₂, hg⟩ | ⟨e₁, -, -⟩ | hr | ⟨⟨e, he⟩, -⟩
  · rename_i st rest g₁ g₂
    have hs' : session (fun st inp g => annotatedTransactionCallbacks.parse h st molNumMax inp g)
        annotatedTransactionCallbacks.initState (chunks (pre ++ [x])) g₀ =
          ⟨.complete, st, rest, g₂, false⟩ := by
      rw [chunks, List.map_append, List.map_singleton]
      refine (session_concat hs x.packet.data).trans ?_
      rw [session, e₂]
      simp
    obtain ⟨es, hscan, hg₂⟩ := Reader.session_replay hfl hs'
    rw [e₁]
    exact ⟨es, rest, hscan, hg₂ ▸ hm.restack st hg⟩
  · rw [e₁] at hrv
    cases hrv
  · rw [hr] at hrv
    cases hrv
  · rw [he] at hrv
    cases hrv

end Session
end SignState
end NervosLedger
