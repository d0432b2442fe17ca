import NervosLedger.FirstWitness
import NervosLedger.Molecule.Places
import NervosLedger.Molecule.Windows

/-!
# How far the message is

The witnesses are hashed one after another. What was absorbed is kept as a state of its own, with
the pieces in which the first witness was read; their bytes do not depend on how the transaction was
cut.
-/
namespace NervosLedger
open Molecule

/-- How far the message is: the first witness, as it was read, and what came after it. -/
inductive Signing (α : Type) where
  | waiting
  | first (read : α)
  | ended (read : α)
  | later (read : α) (rest : List UInt8)
  | signed (read : α) (rest : List UInt8)
  | lost

namespace Signing
variable {α β : Type} (j : Joining α)

/-- What is no witness comes before the witnesses. -/
def idle : Signing α → Signing α
  | .waiting => .waiting
  | _ => .lost

def index (index : ℕ) : Signing α → Signing α
  | .waiting => if index = 0 then .first j.none else .lost
  | .ended read => if index = 0 then .lost else .later read []
  | .later read rest => if index = 0 then .lost else .later read rest
  | _ => .lost

def size (size : ℕ) : Signing α → Signing α
  | .first read => .first read
  | .later read rest => .later read (rest ++ leBytes 8 (size - 4))
  | _ => .lost

def chunk (buf : List UInt8) : Signing α → Signing α
  | .first read => .first (j.add read buf)
  | .later read rest => .later read (rest ++ buf)
  | _ => .lost

def itemEnd : Signing α → Signing α
  | .first read => .ended read
  | .later read rest => .later read rest
  | _ => .lost

def vectorEnd : Signing α → Signing α
  | .later read rest => .signed read rest
  | _ => .lost

def run : SignEvent → Signing α → Signing α
  | .witnessesIndex k => index j k
  | .witnessChunk buf _ => chunk j buf
  | .witnessSize _ | .witnessEnd | .witnessesEnd => fun _ => .lost
  | _ => idle

def ask : SignEvent → Signing α → Signing α
  | .witnessSize n => size n
  | .witnessesIndex _ | .witnessChunk _ _ | .witnessEnd | .witnessesEnd => fun _ => .lost
  | _ => idle

def finish : SignEvent → Signing α → Signing α
  | .witnessEnd => itemEnd
  | .witnessesEnd => vectorEnd
  | .witnessesIndex _ | .witnessSize _ | .witnessChunk _ _ => fun _ => .lost
  | _ => idle

/-- The first witness, as far as it was read. -/
def read : Signing α → α
  | .waiting | .lost => j.none
  | .first read | .ended read | .later read _ | .signed read _ => read

def map (f : α → β) : Signing α → Signing β
  | .waiting => .waiting
  | .first read => .first (f read)
  | .ended read => .ended (f read)
  | .later read rest => .later (f read) rest
  | .signed read rest => .signed (f read) rest
  | .lost => .lost

@[simp] theorem idle_idle (s : Signing α) : s.idle.idle = s.idle := by cases s <;> rfl

theorem run_idle {e : SignEvent} (hw : e.isWitness = false) : run j e = idle := by
  cases e <;> first | rfl | cases hw

theorem ask_idle {e : SignEvent} (hw : e.isWitness = false) :
    (ask e : Signing α → Signing α) = idle := by
  cases e <;> first | rfl | cases hw

theorem finish_idle {e : SignEvent} (hw : e.isWitness = false) :
    (finish e : Signing α → Signing α) = idle := by
  cases e <;> first | rfl | cases hw

end Signing

/-- The callbacks of a transaction, as far as the message goes. -/
def signing {α : Type} (j : Joining α) : Handler SignEvent (Signing α) Exc :=
  ⟨Signing.run j, fun e s => (s.ask e, true), fun e s => (s.finish e, none)⟩

theorem signing_obliging {α : Type} (j : Joining α) : Obliging (signing j) :=
  ⟨fun _ _ => rfl, fun _ _ => rfl⟩

/-! ### Chunks -/

theorem signing_collects {c : List UInt8 → SignEvent} (hw : ∀ bs, (c bs).isWitness = false) :
    Collects (signing .bytes) c := by
  intro a b s
  simp [signing, Signing.run_idle _ (hw _)]

/-- What is no witness may come before or after a chunk. -/
theorem signing_sameAt {e : SignEvent} (he : e.isWitness = false) {c : List UInt8 → SignEvent}
    (hw : ∀ bs, (c bs).isWitness = false) (bs : List UInt8) :
    SameAt (signing .bytes) (signing .bytes) (After (signing .bytes) c bs) e where
  run := by
    rintro _ s rfl
    simp [After, signing, Signing.run_idle _ he, Signing.run_idle _ (hw _)]
  ask := by
    rintro _ s rfl
    simp [After, signing, Signing.ask_idle he, Signing.run_idle _ (hw _)]
  finish := by
    rintro _ s rfl
    simp [After, signing, Signing.finish_idle he, Signing.run_idle _ (hw _)]

theorem signing_bodyCollects {c : List UInt8 → List UInt8 → SignEvent}
    (hw : ∀ a x, (c a x).isWitness = false) : BodyCollects (signing .bytes) c := by
  intro a b x y z s
  simp [signing, Signing.run_idle _ (hw _ _)]

theorem signing_gathers : Gathers (signing .bytes) where
  cellDeps := signing_collects fun _ => rfl
  headerDeps := signing_collects fun _ => rfl
  source := signing_collects fun _ => rfl
  outputs := signing_collects fun _ => rfl
  dataVec := signing_collects fun _ => rfl
  inSource {e} he bs := by
    refine signing_sameAt ?_ (fun _ => rfl) bs
    cases e <;> first | rfl | cases he
  inOutputs {e} he bs := by
    refine signing_sameAt ?_ (fun _ => rfl) bs
    cases e <;> first | rfl | cases he
  inData {e} he bs := by
    refine signing_sameAt ?_ (fun _ => rfl) bs
    cases e <;> first | rfl | cases he
  sourceArgs := signing_bodyCollects fun _ _ => rfl
  outputArgs := signing_bodyCollects fun _ _ => rfl
  sourceData := signing_bodyCollects (c := .sourceDataChunk) fun _ _ => rfl
  outputData := signing_bodyCollects (c := .dataChunk) fun _ _ => rfl
  witness := by
    intro a b x y z s
    cases s <;> simp [signing, Signing.run, Signing.chunk, Joining.bytes]

/-! ### Pieces -/

/-- The pieces of the first witness make up its bytes. -/
theorem signing_pieces (e : SignEvent) :
    SameAt (signing .pieces) (signing .bytes) (fun s t => s.map List.flatten = t) e where
  run := by
    rintro s _ rfl
    by_cases hw : e.isWitness = true
    · cases e with
      | witnessesIndex k =>
        cases s <;> simp only [signing, Signing.run, Signing.index, Signing.map] <;>
          split_ifs <;> rfl
      | witnessChunk buf following =>
        cases s <;> simp [signing, Signing.run, Signing.chunk, Signing.map, Joining.pieces,
          Joining.bytes]
      | _ => first | rfl | cases hw
    · rw [Bool.not_eq_true] at hw
      simp only [signing, Signing.run_idle _ hw]
      cases s <;> rfl
  ask := by
    rintro s _ rfl
    refine ⟨rfl, ?_⟩
    cases e <;> cases s <;> rfl
  finish := by
    rintro s _ rfl
    refine ⟨rfl, ?_⟩
    cases e <;> cases s <;> rfl

/-! ### The message of a session -/

namespace SignState

/-- The witnesses are hashed from `g₁` on, in which the first one was read. -/
structure Hashes (multisig : Bool) (read : List (List UInt8)) (g₁ g : SignState) : Prop where
  run : FirstRun multisig read g₁
  transactionHash : g.tx.transactionHash = g₁.tx.transactionHash
  multisig : g.signingMultisigInput = multisig
  refused : g₁.Refused → g.Refused

/-- A state agrees with how far the message is. -/
def SignsAs (sdk : Sdk) (g : SignState) : Signing (List (List UInt8)) → Prop
  | .waiting => g.tx.firstWitnessDone = false
  | .first read => ∃ m, FirstRun m read g
  | .ended read => ∃ m g₁, Hashes m read g₁ g ∧ g.hashState = g₁.processWitnessEnd.hashState
  | .later read rest => g.tx.isFirstWitness = false ∧ ∃ m g₁, Hashes m read g₁ g ∧
      g.hashState.finished = g₁.processWitnessEnd.hashState.finished ∧
      g.hashState.absorbed = g₁.processWitnessEnd.hashState.absorbed ++ rest
  | .signed read rest => ∃ m g₁, Hashes m read g₁ g ∧
      g.tx.finalHash = sdk.blake2b g₁.processWitnessEnd.hashState.finished
        (g₁.processWitnessEnd.hashState.absorbed ++ rest)
  | .lost => True

section Session
variable {sdk : Sdk} {g : SignState} {s : Signing (List (List UInt8))} (env : Env)

theorem SignsAs.idle {g' : SignState} (h : g.SignsAs sdk s)
    (hd : g.tx.firstWitnessDone = false → g'.tx.firstWitnessDone = false) :
    g'.SignsAs sdk s.idle := by
  cases s with
  | waiting => exact hd h
  | _ => exact trivial

theorem runCallback_signs (h : g.SignsAs sdk s) (e : SignEvent) :
    (runCallback env e g).SignsAs sdk (Signing.run .pieces e s) := by
  by_cases hw : e.isWitness = true
  · cases e with
    | witnessesIndex index =>
      dsimp only [Signing.run]
      cases s with
      | waiting =>
        dsimp only [Signing.index]
        split_ifs with h0
        · subst h0
          exact ⟨_, .begin rfl h⟩
        · exact trivial
      | ended read =>
        dsimp only [Signing.index]
        split_ifs with h0
        · exact trivial
        · obtain ⟨m, g₁, hh, hs⟩ := h
          have hbegin : runCallback env (.witnessesIndex index) g =
              { g with tx.isFirstWitness := false } := by
            simp [runCallback, beginWitness, h0]
          rw [hbegin]
          refine ⟨rfl, m, g₁, ⟨hh.run, hh.transactionHash, hh.multisig, hh.refused⟩, ?_, ?_⟩
          · exact congrArg HashState.finished hs
          · rw [List.append_nil]
            exact congrArg HashState.absorbed hs
      | later read rest =>
        dsimp only [Signing.index]
        split_ifs with h0
        · exact trivial
        · obtain ⟨-, m, g₁, hh, hf, ha⟩ := h
          have hbegin : runCallback env (.witnessesIndex index) g =
              { g with tx.isFirstWitness := false } := by
            simp [runCallback, beginWitness, h0]
          rw [hbegin]
          exact ⟨rfl, m, g₁, ⟨hh.run, hh.transactionHash, hh.multisig, hh.refused⟩, hf, ha⟩
      | _ => exact trivial
    | witnessChunk buf following =>
      cases s with
      | first read =>
        obtain ⟨m, hrun⟩ := h
        exact ⟨m, hrun.piece env buf following⟩
      | later read rest =>
        obtain ⟨hfirst, m, g₁, hh, hf, ha⟩ := h
        have hchunk : runCallback env (.witnessChunk buf following) g = g.blake2bChunk buf := by
          simp [runCallback, processWitness, hfirst]
        rw [hchunk]
        refine ⟨hfirst, m, g₁, ⟨hh.run, hh.transactionHash, hh.multisig, hh.refused⟩, hf, ?_⟩
        rw [← List.append_assoc, ← ha]
        rfl
      | _ => exact trivial
    | witnessSize size => exact trivial
    | witnessEnd => exact trivial
    | witnessesEnd => exact trivial
    | _ => cases hw
  · rw [Signing.run_idle _ (by simpa using hw)]
    refine h.idle fun hd => ?_
    exact (congrArg Prod.snd (runCallback_handed env g hw)).trans hd

theorem askCallback_signs (h : g.SignsAs sdk s) (e : SignEvent)
    (hg : (askCallback env e g).2 = true) :
    (askCallback env e g).1.SignsAs sdk (s.ask e) := by
  by_cases hw : e.isWitness = true
  · cases e with
    | witnessSize size =>
      cases s with
      | first read =>
        obtain ⟨m, hrun⟩ := h
        have hsize : (askCallback env (.witnessSize size) g).1 = g := by
          dsimp only [askCallback, hashWitnessLength]
          rw [if_pos hrun.frame.2]
          split <;> rfl
        rw [hsize]
        exact ⟨m, hrun⟩
      | later read rest =>
        obtain ⟨hfirst, m, g₁, hh, hf, ha⟩ := h
        have hsize : (askCallback env (.witnessSize size) g).1 =
            g.blake2bChunk (leBytes 8 (size - 4)) := by
          dsimp only [askCallback, hashWitnessLength] at hg ⊢
          split_ifs at hg ⊢ with hs hf
          · exact absurd hf (by simp [hfirst])
          · rfl
        rw [hsize]
        refine ⟨hfirst, m, g₁, ⟨hh.run, hh.transactionHash, hh.multisig, hh.refused⟩, hf, ?_⟩
        rw [← List.append_assoc, ← ha]
        rfl
      | _ => exact trivial
    | witnessesIndex index => exact trivial
    | witnessChunk buf following => exact trivial
    | witnessEnd => exact trivial
    | witnessesEnd => exact trivial
    | _ => cases hw
  · rw [Signing.ask_idle (by simpa using hw)]
    refine h.idle fun hd => ?_
    exact (congrArg Prod.snd (askCallback_frame env g hw).2).trans hd

theorem endCallback_signs (h : g.SignsAs env.sdk s) (e : SignEvent) :
    (endCallback env e g).1.SignsAs env.sdk (s.finish e) := by
  by_cases hw : e.isWitness = true
  · cases e with
    | witnessEnd =>
      cases s with
      | first read =>
        obtain ⟨m, hrun⟩ := h
        have hkept : g.processWitnessEnd.tx.transactionHash = g.tx.transactionHash ∧
            g.processWitnessEnd.signingMultisigInput = g.signingMultisigInput := by
          unfold processWitnessEnd
          split <;> exact ⟨rfl, rfl⟩
        exact ⟨m, g, ⟨hrun, hkept.1, hkept.2.trans hrun.frame.1,
          (processWitnessEnd_onward g).refused⟩, rfl⟩
      | later read rest =>
        have hend : (endCallback env .witnessEnd g).1 = g := by
          dsimp only [endCallback, processWitnessEnd]
          rw [if_neg (by simp [h.1])]
        rw [hend]
        exact h
      | _ => exact trivial
    | witnessesEnd =>
      cases s with
      | later read rest =>
        obtain ⟨-, m, g₁, hh, hf, ha⟩ := h
        refine ⟨m, g₁, ⟨hh.run, hh.transactionHash, hh.multisig, hh.refused⟩, ?_⟩
        rw [← hf, ← ha]
        rfl
      | _ => exact trivial
    | witnessesIndex index => exact trivial
    | witnessSize size => exact trivial
    | witnessChunk buf following => exact trivial
    | _ => cases hw
  · rw [Signing.finish_idle (by simpa using hw)]
    refine h.idle fun hd => ?_
    by_cases hs : e = .sourceEnd
    · subst hs
      exact hd
    by_cases hi : e = .inputsEnd
    · subst hi
      rfl
    by_cases hr : e = .rawEnd
    · subst hr
      exact (finalizeRawTransaction_done env g).trans hd
    exact (congrArg Prod.snd (endCallback_frame env g hw hs hi hr).2).trans hd

/-- The message is made as `signing` says. -/
theorem signing_mirrors (sdk : Sdk) :
    Mirrors sdk (signing .pieces) (fun y s => y.1.SignsAs sdk s) .waiting where
  sim x := Reader.every_of_forall (fun e => ⟨fun h => runCallback_signs (x.env sdk) h e,
    fun h ha => ⟨rfl, askCallback_signs (x.env sdk) h e ha⟩,
    fun h _ => ⟨rfl, endCallback_signs (x.env sdk) h e⟩, fun _ _ => trivial⟩) _
  restack {y s} st h := by
    cases s with
    | first read =>
      obtain ⟨m, hrun⟩ := h
      exact ⟨m, hrun.restack st⟩
    | waiting => exact h
    | lost => exact trivial
    | ended read =>
      obtain ⟨m, g₁, hh, hs⟩ := h
      exact ⟨m, g₁, ⟨hh.run, hh.transactionHash, hh.multisig, hh.refused⟩, hs⟩
    | later read rest =>
      obtain ⟨hfirst, m, g₁, hh, hs⟩ := h
      exact ⟨hfirst, m, g₁, ⟨hh.run, hh.transactionHash, hh.multisig, hh.refused⟩, hs⟩
    | signed read rest =>
      obtain ⟨m, g₁, hh, hs⟩ := h
      exact ⟨m, g₁, ⟨hh.run, hh.transactionHash, hh.multisig, hh.refused⟩, hs⟩
  fresh := rfl

end Session
end SignState

end NervosLedger
