import NervosLedger.MainLoop
import NervosLedger.Molecule.Splitting

/-!
# What a handler can do

The prompts that each handler raises, and the cases of the handlers of messages, message hashes
and public keys.
-/
namespace NervosLedger
open Molecule Machine

/-! ### The callbacks of a prompt -/

theorem uiPrompt_eq_ok {screens : List Screen} {ok cxl : UiCallback} {p : Prompt}
    (h : uiPrompt screens ok cxl = .ok p) : p = ⟨screens, ok, cxl⟩ := by
  unfold uiPrompt at h
  split at h <;> cases h
  rfl

theorem uiPrompt_of_le {screens : List Screen} {ok cxl : UiCallback}
    (h : screens.length ≤ maxScreenCount) : uiPrompt screens ok cxl = .ok ⟨screens, ok, cxl⟩ :=
  if_neg (not_lt_of_ge h)

/-- The callbacks that the prompts of a handler set. -/
def ApduHandler.Sets (p : Prompt) : ApduHandler → Prop
  | .handleApduSign =>
    (p.okCallback = .signWithoutHashOk ∨ p.okCallback = .signWithHashOk) ∧
      p.cxlCallback = .signReject
  | .handleApduSignMessage => p.okCallback = .signMessageOk ∧ p.cxlCallback = .signReject
  | .handleApduSignMessageHash =>
    p.okCallback = .signMessageHashOk ∧ p.cxlCallback = .signReject
  | .handleApduGetPublicKey =>
    (p.okCallback = .pubkeyOk ∨ p.okCallback = .extPubkeyOk) ∧ p.cxlCallback = .delayReject
  | .handleApduAccountImport =>
    p.okCallback = .accountImportOk ∧ p.cxlCallback = .delayReject
  | .handleApduError | .handleApduVersion | .handleApduGetWalletId | .handleApduGit => False

theorem ApduHandler.Sets.cancels {f : ApduHandler} {p : Prompt} (h : f.Sets p) :
    p.cxlCallback = .signReject ∨ p.cxlCallback = .delayReject := by
  cases f <;> first | exact .inl h.2 | exact .inr h.2 | exact h.elim

namespace SignState

theorem signComplete_sets {env : Env} {g : SignState} {ins : UInt8} {p : Prompt}
    (h : g.signComplete env ins = .ok p) : ApduHandler.handleApduSign.Sets p := by
  unfold signComplete at h
  dsimp only at h
  split at h
  · cases h
  · cases uiPrompt_eq_ok h
    refine ⟨?_, rfl⟩
    dsimp only
    split
    · exact .inr rfl
    · exact .inl rfl

theorem conclude_prompted {env : Env} {g : SignState} {ins : UInt8} {p : Packet} {q : Prompt}
    (h : (g.conclude env ins p).2 = .prompted q) :
    (g.conclude env ins p).1 = g ∧ p.last = true ∧ g.isValid = true ∧
      g.signComplete env ins = .ok q := by
  unfold conclude at h ⊢
  split at h
  · rename_i hl
    rw [Bool.and_eq_true] at hl
    cases hs : g.signComplete env ins with
    | error e => simp [raise, hs] at h
    | ok q' =>
      have hq : q' = q := by simpa [raise, hs] using h
      simp [raise, hl, hq]
  · cases h

theorem handleNext_sets {env : Env} {g : SignState} {ins : UInt8} {p : Packet} {q : Prompt}
    (h : (g.handleNext env ins p).2 = .prompted q) : ApduHandler.handleApduSign.Sets q := by
  unfold handleNext at h
  split at h
  · cases h
  · split at h
    split at h
    · cases h
    · exact signComplete_sets (conclude_prompted h).2.2.2

theorem handleApdu_sets {sdk : Sdk} {settings : Settings} {g : SignState} {ins : UInt8}
    {p : Packet} {q : Prompt} (h : (g.handleApdu sdk settings ins p).2 = .prompted q) :
    ApduHandler.handleApduSign.Sets q := by
  unfold handleApdu at h
  dsimp only at h
  split at h
  · cases h
  · split at h
    · exact handleNext_sets h
    · split at h
      · exact handleNext_sets h
      · exact signComplete_sets (conclude_prompted h).2.2.2

end SignState

namespace SignMessageState

theorem prompt_eq (g : SignMessageState) : ∃ screens,
    g.prompt = .ok ⟨screens, .signMessageOk, .signReject⟩ :=
  ⟨_, uiPrompt_of_le (by simp [maxScreenCount])⟩

theorem handleData_sets {sdk : Sdk} {g : SignMessageState} {stack : List UInt8} {p : Packet}
    {q : Prompt} (h : (g.handleData sdk stack p).2 = .prompted q) :
    ApduHandler.handleApduSignMessage.Sets q := by
  unfold handleData at h
  dsimp only at h
  split at h
  · cases h
  · split at h
    · split at h
      · rename_i hs
        cases h
        cases uiPrompt_eq_ok hs
        exact ⟨rfl, rfl⟩
      · cases h
    · cases h

theorem handleFirst_ne_prompted (p : Packet) (q : Prompt) : (handleFirst p).2 ≠ .prompted q := by
  unfold handleFirst
  dsimp only
  split
  · nofun
  · nofun
  · split <;> nofun

theorem handleApdu_sets {sdk : Sdk} {g : SignMessageState} {stack : List UInt8} {p : Packet}
    {q : Prompt} (h : (g.handleApdu sdk stack p).2 = .prompted q) :
    ApduHandler.handleApduSignMessage.Sets q := by
  unfold handleApdu at h
  split at h
  · cases h
  · split at h
    · exact absurd h (handleFirst_ne_prompted p q)
    · split at h
      · split at h
        · cases h
        · exact handleData_sets h
      · cases h

end SignMessageState

theorem SignMessageHashState.handleApdu_sets {settings : Settings} {g : SignMessageHashState}
    {p : Packet} {q : Prompt} (h : (g.handleApdu settings p).2 = .prompted q) :
    ApduHandler.handleApduSignMessageHash.Sets q := by
  unfold handleApdu handleApduImpl at h
  split at h
  · split at h
    · cases h
    · split at h
      · split at h <;> cases h
      · split at h
        · split at h
          · cases h
          · dsimp only at h
            split at h
            · rename_i hs
              cases h
              cases uiPrompt_eq_ok hs
              exact ⟨rfl, rfl⟩
            · cases h
        · cases h
  · cases h

namespace PubkeyState

theorem handleApdu_sets {sdk : Sdk} {ins : UInt8} {g : PubkeyState} {p : Packet} {q : Prompt}
    (h : (g.handleApdu sdk ins p).2 = .prompted q) :
    ApduHandler.handleApduGetPublicKey.Sets q := by
  unfold handleApdu at h
  split at h
  · cases h
  · split at h
    · cases h
    · dsimp only at h
      split at h
      · cases h
      · split at h
        · cases h
        · split at h
          · rename_i hs
            cases h
            unfold prompt at hs
            split at hs
            · cases uiPrompt_eq_ok hs
              exact ⟨.inr rfl, rfl⟩
            · cases uiPrompt_eq_ok hs
              exact ⟨.inl rfl, rfl⟩
          · cases h

theorem handleAccountImport_sets {sdk : Sdk} {g : PubkeyState} {p : Packet} {q : Prompt}
    (h : (g.handleAccountImport sdk p).2 = .prompted q) :
    ApduHandler.handleApduAccountImport.Sets q := by
  unfold handleAccountImport at h
  dsimp only at h
  split at h
  · cases h
  · split at h
    · cases h
    · split at h
      · cases h
      · split at h
        · cases h
        · split at h
          · rename_i hs
            cases h
            cases uiPrompt_eq_ok hs
            exact ⟨rfl, rfl⟩
          · cases h

end PubkeyState

/-! ### The cases of a handler -/

namespace SignState

/-- A packet that the handler of transactions takes as the first one. -/
def First (p : Packet) : Prop := p.data.length ≤ maxApduSize ∧ p.p1 &&& p1Mask = p1First

/-- A packet that the handler of transactions takes as a further one. -/
def Next (p : Packet) : Prop := p.data.length ≤ maxApduSize ∧ p.p1 &&& p1Mask = p1Next

instance (p : Packet) : Decidable (First p) := inferInstanceAs (Decidable (_ ∧ _))

instance (p : Packet) : Decidable (Next p) := inferInstanceAs (Decidable (_ ∧ _))

/-- The parser has come to the end of the transaction. -/
def Finished (g : SignState) : Prop := g.transactionStack.frame.AtEnd 5

instance (g : SignState) : Decidable g.Finished := inferInstanceAs (Decidable (_ ∨ _))

theorem First.not_next {p : Packet} (h : First p) : ¬ Next p := by
  rintro ⟨-, hn⟩
  rw [h.2] at hn
  exact absurd hn (by decide)

/-- The ways in which a packet is handled. -/
inductive Handled (sdk : Sdk) (settings : Settings) (ins : UInt8) (p : Packet) (g : SignState) :
    SignState × Outcome → Prop
  | refused {e} (hf : ¬ First p) (hn : ¬ Next p) : Handled sdk settings ins p g (g, .threw e)
  | first (h : First p) :
    Handled sdk settings ins p g (fresh.handleNext ⟨sdk, settings, p.beyond⟩ ins p)
  | next (h : Next p) :
    Handled sdk settings ins p g (g.handleNext ⟨sdk, settings, p.beyond⟩ ins p)
  | other (hlen : p.data.length ≤ maxApduSize) (hf : ¬ First p) (hn : ¬ Next p) :
    Handled sdk settings ins p g (g.conclude ⟨sdk, settings, p.beyond⟩ ins p)

theorem handled (sdk : Sdk) (settings : Settings) (ins : UInt8) (p : Packet) (g : SignState) :
    Handled sdk settings ins p g (g.handleApdu sdk settings ins p) := by
  unfold handleApdu
  dsimp only
  split
  · rename_i hlen
    exact .refused (fun h => absurd h.1 (not_le_of_gt hlen))
      fun h => absurd h.1 (not_le_of_gt hlen)
  · rename_i hlen
    split
    · rename_i hp
      exact .first ⟨not_lt.mp hlen, hp⟩
    · rename_i hf
      split
      · rename_i hp
        exact .next ⟨not_lt.mp hlen, hp⟩
      · rename_i hn
        exact .other (not_lt.mp hlen) (fun h => hf h.2) fun h => hn h.2

theorem conclude_fst (env : Env) (ins : UInt8) (p : Packet) (g : SignState) :
    (g.conclude env ins p).1 = g := by
  unfold conclude
  split
  · cases g.signComplete env ins <;> rfl
  · rfl

/-- Once the transaction is read, the parser takes no more. -/
theorem Finished.parseChunk {g : SignState} (h : g.Finished) (env : Env) (chunk : List UInt8) :
    g.parseChunk env chunk = ({ g with
      transactionStack := .node g.transactionStack.frame g.transactionStack.u }, .complete) := by
  have hparse : annotatedTransactionCallbacks.parse (signHandler env) g.transactionStack molNumMax
      chunk g = ⟨.complete, .node g.transactionStack.frame g.transactionStack.u, chunk, g,
        false⟩ := by
    unfold annotatedTransactionCallbacks Reader.annotatedTransaction
    rw [Reader.parse_table, parseStages, runAll_none]
    · rfl
    · rw [tableStage_eq_none, List.length_ofFn]
      exact h
  simp [SignState.parseChunk, hparse]

/-- What `perform_signature` reads. -/
def signed (g : SignState) : Bip32Path × Digest := (g.signingPath, g.tx.finalHash)

theorem afterParse_signed (p : Packet) (rv : Rv Exc) (g : SignState) :
    (g.afterParse p rv).2.signed = g.signed := by
  unfold afterParse
  split
  · rfl
  · split
    · split
      · rfl
      · split <;> rfl
    · split <;> rfl

/-- A further packet changes nothing that is to be signed once the parser has come to the end,
or a packet was rejected. -/
theorem handleNext_signed {g : SignState} (h : g.hardReject = true ∨ g.Finished) (env : Env)
    (ins : UInt8) (p : Packet) : (g.handleNext env ins p).1.signed = g.signed := by
  unfold handleNext
  split
  · rfl
  · rename_i hr
    have hf := h.resolve_left hr
    rw [hf.parseChunk env p.data]
    dsimp only
    have hs := afterParse_signed p .complete
      { g with transactionStack := .node g.transactionStack.frame g.transactionStack.u }
    split
    · rename_i heq
      rw [heq] at hs
      exact hs
    · rename_i heq
      rw [heq] at hs
      rw [conclude_fst]
      exact hs

end SignState

namespace SignMessageState

/-- A packet that the handler of messages takes as the first one. -/
def First (p : Packet) : Prop :=
  p.data.length ≤ maxApduSize ∧ p.p1 &&& ~~~p1LastMarker = p1First

/-- A packet that the handler of messages takes as a further one. -/
def Next (p : Packet) : Prop :=
  p.data.length ≤ maxApduSize ∧ p.p1 &&& ~~~p1LastMarker = p1Next

instance (p : Packet) : Decidable (First p) := inferInstanceAs (Decidable (_ ∧ _))

instance (p : Packet) : Decidable (Next p) := inferInstanceAs (Decidable (_ ∧ _))

theorem First.not_next {p : Packet} (h : First p) : ¬ Next p := by
  rintro ⟨-, hn⟩
  rw [h.2] at hn
  exact absurd hn (by decide)

/-- What a further packet does to the state once it is accepted. -/
def accept (stack : List UInt8) (p : Packet) (g : SignMessageState) : SignMessageState :=
  let g : SignMessageState := { g with packetIndex := g.packetIndex + 1 }
  let g := if g.packetIndex = 1 then g.setDisplay p.data stack else g
  { g with hashState := g.hashState.absorb p.data }

/-- What the last packet does then. -/
def close (sdk : Sdk) (g : SignMessageState) : SignMessageState :=
  { g with finalHash := g.hashState.digest sdk, hashState := g.hashState.finish }

section Accept
variable (stack : List UInt8) (p : Packet) (g : SignMessageState)

@[simp] theorem key_accept : (g.accept stack p).key = g.key := by
  unfold accept
  dsimp only
  split <;> rfl

@[simp] theorem finalHash_accept : (g.accept stack p).finalHash = g.finalHash := by
  unfold accept
  dsimp only
  split <;> rfl

@[simp] theorem hashState_accept : (g.accept stack p).hashState = g.hashState.absorb p.data := by
  unfold accept
  dsimp only
  split <;> rfl

@[simp] theorem packetIndex_accept : (g.accept stack p).packetIndex = g.packetIndex + 1 := by
  unfold accept
  dsimp only
  split <;> rfl

end Accept

/-- The ways in which a packet is handled. -/
inductive Handled (sdk : Sdk) (stack : List UInt8) (p : Packet) (g : SignMessageState) :
    SignMessageState × Outcome → Prop
  | refused {e} (h : ¬ First p) (hn : Next p → 255 ≤ g.packetIndex) :
    Handled sdk stack p g (g, .threw e)
  | first (h : First p) : Handled sdk stack p g (handleFirst p)
  | noMagic (h : Next p) (hi : g.packetIndex = 0) (hm : checkMagicBytes p.data = false) :
    Handled sdk stack p g ({ g with packetIndex := 1 }, .threw .parseError)
  | more (h : Next p) (hi : g.packetIndex < 255) (hl : p.last = false)
      (hm : g.packetIndex = 0 → checkMagicBytes p.data = true) :
    Handled sdk stack p g (g.accept stack p, .replied)
  | last {q} (h : Next p) (hi : g.packetIndex < 255) (hl : p.last = true)
      (hm : g.packetIndex = 0 → checkMagicBytes p.data = true) :
    Handled sdk stack p g ((g.accept stack p).close sdk, .prompted q)

theorem handled (sdk : Sdk) (stack : List UInt8) (p : Packet) (g : SignMessageState) :
    Handled sdk stack p g (g.handleApdu sdk stack p) := by
  unfold handleApdu
  split
  · exact .refused (fun h => by have := h.1; omega) fun h => by have := h.1; omega
  · rename_i hlen
    split
    · rename_i hp
      exact .first ⟨not_lt.mp hlen, hp⟩
    · rename_i hfirst
      have hnf : ¬ First p := fun h => hfirst h.2
      split
      · rename_i hp
        have hnext : Next p := ⟨not_lt.mp hlen, hp⟩
        split
        · rename_i hi
          exact .refused hnf fun _ => hi
        · rename_i hi
          unfold handleData
          dsimp only
          split
          · rename_i hm
            have h0 : g.packetIndex = 0 := by omega
            simpa [h0] using Handled.noMagic hnext h0 (by simpa using hm.2)
          · rename_i hm
            have hmagic : g.packetIndex = 0 → checkMagicBytes p.data = true := by
              intro h0
              simpa [h0] using hm
            split
            · rename_i hl
              obtain ⟨screens, hprompt⟩ := prompt_eq ((g.accept stack p).close sdk)
              have hq := hprompt
              simp only [close, accept] at hq
              simp only [hq]
              exact .last hnext (not_le.mp hi) hl hmagic
            · rename_i hl
              exact .more hnext (not_le.mp hi) (by simpa using hl) hmagic
      · rename_i hnext
        exact .refused hnf fun h => absurd h.2 hnext

/-- The derivation path in a first packet. -/
def pathOf (p : Packet) : Bip32Path × Option Exc :=
  if p.data.length ≤ 1 then ({}, some .reject) else readBip32Path {} (p.data.drop 1)

theorem handleFirst_eq (p : Packet) :
    ((handleFirst p).1.key, (handleFirst p).2) = ((pathOf p).1,
      match (pathOf p).2 with | none => .replied | some e => .threw e) ∧
      (handleFirst p).1.packetIndex = 0 ∧ (handleFirst p).1.hashState = {} := by
  obtain ⟨p1, data, beyond⟩ := p
  match data with
  | [] => exact ⟨rfl, rfl, rfl⟩
  | [_] => exact ⟨rfl, rfl, rfl⟩
  | display :: b :: path =>
    have hpath : pathOf ⟨p1, display :: b :: path, beyond⟩ = readBip32Path {} (b :: path) := by
      simp [pathOf]
    rw [hpath]
    unfold handleFirst
    dsimp only
    split
    · rename_i heq
      rw [heq]
      exact ⟨rfl, rfl, rfl⟩
    · rename_i heq
      rw [heq]
      exact ⟨rfl, rfl, rfl⟩

end SignMessageState

namespace SignMessageHashState

/-- A packet that the handler of message hashes takes as the first one. -/
def First (settings : Settings) (p : Packet) : Prop :=
  settings.signHashOn = true ∧ p.data.length ≤ maxApduSize ∧ p.p1 = p1First

/-- A packet that the handler of message hashes takes as the one with the hash. -/
def Last (settings : Settings) (p : Packet) : Prop :=
  settings.signHashOn = true ∧ p.data.length ≤ 32 ∧ p.p1 = p1LastMarker

instance (settings : Settings) (p : Packet) : Decidable (First settings p) :=
  inferInstanceAs (Decidable (_ ∧ _))

instance (settings : Settings) (p : Packet) : Decidable (Last settings p) :=
  inferInstanceAs (Decidable (_ ∧ _))

theorem First.not_last {settings : Settings} {p : Packet} (h : First settings p) :
    ¬ Last settings p := by
  rintro ⟨-, -, hl⟩
  rw [h.2.2] at hl
  exact absurd hl (by decide)

/-- The derivation path in a first packet. -/
def pathOf (p : Packet) : Bip32Path × Option Exc := readBip32Path {} p.data

/-- The ways in which a packet is handled. -/
inductive Handled (settings : Settings) (p : Packet) (g : SignMessageHashState) :
    SignMessageHashState × Outcome → Prop
  | refused {e} (hf : ¬ First settings p) (hl : ¬ Last settings p) :
    Handled settings p g (g, .threw e)
  | first (h : First settings p) : Handled settings p g
      ({ key := (pathOf p).1 },
        match (pathOf p).2 with | none => .replied | some e => .threw e)
  | last {q} (h : Last settings p) :
    Handled settings p g ({ g with hashToSign := p.data }, .prompted q)

theorem handled (settings : Settings) (p : Packet) (g : SignMessageHashState) :
    Handled settings p g (g.handleApdu settings p) := by
  unfold handleApdu
  split
  · rename_i hon
    unfold handleApduImpl
    split
    · rename_i hlen
      refine .refused (fun h => ?_) fun h => ?_
      · have := h.2.1
        omega
      · have := h.2.1
        simp only [maxApduSize] at hlen
        omega
    · rename_i hlen
      split
      · rename_i hp
        have hfirst := Handled.first (g := g) ⟨hon, not_lt.mp hlen, hp⟩
        unfold pathOf at hfirst
        split
        · rename_i heq
          simpa only [heq] using hfirst
        · rename_i heq
          simpa only [heq] using hfirst
      · rename_i hp
        split
        · rename_i hp'
          split
          · rename_i h32
            refine .refused (fun h => hp h.2.2) fun h => ?_
            have := h.2.1
            omega
          · rename_i h32
            dsimp only
            unfold prompt
            rw [uiPrompt_of_le (by simp [maxScreenCount])]
            exact .last ⟨hon, not_lt.mp h32, hp'⟩
        · rename_i hp'
          exact .refused (fun h => hp h.2.2) fun h => hp' h.2.2
  · rename_i hon
    exact .refused (fun h => hon h.1) fun h => hon h.1

end SignMessageHashState

namespace PubkeyState

/-- A request for a public key that is not refused before anything is stored. -/
def Stores (p : Packet) : Prop := (p.p1 = 0 ∨ p.p1 = 1) ∧ p.data ≠ []

/-- An account import that is not refused before anything is stored. -/
def Imports (p : Packet) : Prop :=
  p.p1 = 0 ∧ p.data.length = 4 ∧ beUInt32 p.data < 0x80000000

instance (p : Packet) : Decidable (Stores p) := inferInstanceAs (Decidable (_ ∧ _))

instance (p : Packet) : Decidable (Imports p) := inferInstanceAs (Decidable (_ ∧ _))

theorem handleApdu_refused (sdk : Sdk) (ins : UInt8) {p : Packet} (h : ¬ Stores p)
    (g : PubkeyState) : ∃ e, g.handleApdu sdk ins p = (g, .threw e) := by
  unfold handleApdu
  split
  · exact ⟨_, rfl⟩
  · rename_i hp
    have hdata : p.data = [] := by
      by_contra hne
      exact h ⟨by tauto, hne⟩
    rw [hdata]
    exact ⟨_, rfl⟩

theorem handleAccountImport_refused (sdk : Sdk) {p : Packet} (h : ¬ Imports p)
    (g : PubkeyState) : ∃ e, g.handleAccountImport sdk p = (g, .threw e) := by
  unfold handleAccountImport
  split
  · exact ⟨_, rfl⟩
  · rename_i hp
    split
    · exact ⟨_, rfl⟩
    · rename_i hlen
      dsimp only
      split
      · exact ⟨_, rfl⟩
      · rename_i hacc
        exact absurd ⟨not_not.mp hp, not_not.mp hlen, UInt32.not_le.mp hacc⟩ h

end PubkeyState
end NervosLedger
