import NervosLedger.SighashMessage
import NervosLedger.SigningGate
import NervosLedger.WhatIsSigned

/-!
# The key that signs

The derivation path of a transaction is read before its inputs. The inputs that count as the
signer's are those with the lock of that path; what signs is the key of the path below
`m/44'/309'`.
-/
namespace NervosLedger
open Molecule Machine

/-- A component of a derivation path on the wire. -/
def pathComponent (c : FixedBytes 4) : UInt32 := UInt32.ofNat (leNat c.toList)

/-- The derivation path of some components. -/
def Bip32Path.of (cs : List (FixedBytes 4)) : Bip32Path :=
  ⟨cs.length, Vector.ofFn fun i => (cs[i.val]?.map pathComponent).getD 0⟩

/-- The path below `m/44'/309'`. -/
def Bip32Path.rooted (k : Bip32Path) : Bip32Path :=
  { k with components := #v[0x8000002C, 0x80000135, k.components.get 2, k.components.get 3,
      k.components.get 4] }

/-- The path begins with `m/44'/309'`. -/
def Bip32Path.Rooted (k : Bip32Path) : Prop :=
  k.components[0] = 0x8000002C ∧ k.components[1] = 0x80000135

theorem Bip32Path.Rooted.rooted_eq {k : Bip32Path} (h : k.Rooted) : k.rooted = k := by
  obtain ⟨n, v⟩ := k
  obtain ⟨h₀, h₁⟩ := h
  rw [rooted, Bip32Path.mk.injEq]
  refine ⟨rfl, ?_⟩
  ext i hi
  match i with
  | 0 => exact congrArg UInt32.toNat h₀.symm
  | 1 => exact congrArg UInt32.toNat h₁.symm
  | 2 => rfl
  | 3 => rfl
  | 4 => rfl

/-- One more component. -/
def Bip32Path.push (k : Bip32Path) (c : FixedBytes 4) : Bip32Path :=
  ⟨k.length + 1, k.components.setIfInBounds k.length (pathComponent c)⟩

theorem Bip32Path.of_concat (cs : List (FixedBytes 4)) (c : FixedBytes 4) :
    Bip32Path.of (cs ++ [c]) = (Bip32Path.of cs).push c := by
  rw [push, Bip32Path.of, Bip32Path.of, Bip32Path.mk.injEq]
  refine ⟨List.length_append, ?_⟩
  ext i hi
  rw [Vector.getElem_ofFn, Vector.getElem_setIfInBounds, Vector.getElem_ofFn]
  dsimp only
  split_ifs with hlast
  · subst hlast
    simp
  · rcases lt_or_ge i cs.length with hlt | hge
    · rw [List.getElem?_append_left hlt]
    · rw [List.getElem?_eq_none (by rw [List.length_append, List.length_singleton]; omega),
        List.getElem?_eq_none hge]

/-! ### The paths of a transaction -/

/-- The paths as they are read: the last one so far, and the one that signs. -/
structure Deriving where
  path : Bip32Path := {}
  signer : Option Bip32Path := none

namespace Deriving

def run : SignEvent → Deriving → Deriving
  | .signPathItem buf | .changePathItem buf => fun s => { s with path := s.path.push buf }
  | _ => id

def ask : SignEvent → Deriving → Deriving
  | .signPathSize _ | .changePathSize _ => fun s => { s with path.length := 0 }
  | _ => id

def finish : SignEvent → Deriving → Deriving
  | .signPathEnd => fun s => { s with signer := some s.path }
  | .inputsEnd => fun s => { s with path := {} }
  | _ => id

end Deriving

/-- The callbacks of a transaction, as far as its derivation paths go. -/
def derivation : Handler SignEvent Deriving Exc :=
  ⟨Deriving.run, fun e s => (s.ask e, true), fun e s => (s.finish e, none)⟩

/-- An event that the paths are not made from. -/
def SignEvent.IsUnderived : SignEvent → Prop
  | .signPathItem _ | .changePathItem _ | .signPathSize _ | .changePathSize _ | .signPathEnd
  | .inputsEnd => False
  | _ => True

theorem SignEvent.IsUnderived.quiet {e : SignEvent} (he : e.IsUnderived) : Quiet derivation e := by
  constructor <;> intro s <;> cases e <;> first | rfl | exact he.elim

theorem underived_bodyCollects {c : List UInt8 → List UInt8 → SignEvent}
    (hc : ∀ a x, (c a x).IsUnderived) : BodyCollects derivation c := by
  intro a b x y z s
  rw [(hc _ _).quiet.run, (hc _ _).quiet.run, (hc _ _).quiet.run]

theorem underived_collects {c : List UInt8 → SignEvent} (hc : ∀ a, (c a).IsUnderived) :
    Collects derivation c := by
  intro a b s
  rw [(hc _).quiet.run, (hc _).quiet.run, (hc _).quiet.run]

theorem deriving_gathers : Gathers derivation where
  cellDeps := underived_collects fun _ => trivial
  headerDeps := underived_collects fun _ => trivial
  source := underived_collects fun _ => trivial
  outputs := underived_collects fun _ => trivial
  dataVec := underived_collects fun _ => trivial
  inSource {e} he bs := by
    refine SignEvent.IsUnderived.quiet ?_ |>.sameAt _ bs
    cases e <;> trivial
  inOutputs {e} he bs := by
    refine SignEvent.IsUnderived.quiet ?_ |>.sameAt _ bs
    cases e <;> trivial
  inData {e} he bs := by
    refine SignEvent.IsUnderived.quiet ?_ |>.sameAt _ bs
    cases e <;> trivial
  sourceArgs := underived_bodyCollects fun _ _ => trivial
  outputArgs := underived_bodyCollects fun _ _ => trivial
  sourceData := underived_bodyCollects (c := .sourceDataChunk) fun _ _ => trivial
  outputData := underived_bodyCollects (c := .dataChunk) fun _ _ => trivial
  witness := underived_bodyCollects (c := .witnessChunk) fun _ _ => trivial

namespace SignState

/-! ### Callbacks and the paths -/

/-- What the derivation paths leave in the state. -/
def keyed (g : SignState) : Bip32Path × ℕ × Vector UInt32 3 × StandardLockArg :=
  (g.tempKey, g.keyLength, g.keyPathComponents, g.currentLockArg)

section Frames
variable (env : Env) (g : SignState)

theorem runCell_keyed (e : CellEvent) : (runCell env e g).keyed = g.keyed := by
  cases e with
  | capacity buf =>
    dsimp only [runCell, cellCapacity]
    split <;> rfl
  | lockCodeHash buf =>
    dsimp only [runCell, cellLockCodeHash]
    split_ifs <;> rfl
  | lockHashType hashType =>
    dsimp only [runCell, cellScriptHashType]
    split_ifs <;> rfl
  | typeHashType hashType =>
    dsimp only [runCell, cellScriptHashType]
    split_ifs <;> rfl
  | lockArgsStart =>
    dsimp only [runCell, scriptArgStartInput]
    split <;> rfl
  | lockArgs buf following =>
    dsimp only [runCell, scriptArgChunk]
    split_ifs <;> rfl
  | typeCodeHash buf =>
    dsimp only [runCell, cellTypeCodeHash]
    split_ifs <;> rfl
  | lockEnd => rfl
  | typeArgsSize size => rfl

theorem checkCellDataDataChunk_keyed (buf : List UInt8) :
    (checkCellDataDataChunk buf g).keyed = g.keyed := by
  unfold checkCellDataDataChunk
  split <;> rfl

theorem processWitness_keyed (buf following : List UInt8) :
    (processWitness env buf following g).keyed = g.keyed := by
  have halike := processWitness_alike env g buf following
  have hflagless : ∀ g : SignState, g.flagless.keyed = g.keyed := fun _ => rfl
  rw [← hflagless, halike, hflagless]

theorem runCallback_keyed {e : SignEvent} (he : e.IsUnderived) :
    (runCallback env e g).keyed = g.keyed := by
  cases e with
  | sourceCell e => exact runCell_keyed env g e
  | outputCell e => exact runCell_keyed env g e
  | sourceDataChunk buf following => exact checkCellDataDataChunk_keyed g buf
  | dataChunk buf following => exact checkCellDataDataChunk_keyed g buf
  | inputsLength length =>
    dsimp only [runCallback, blake2bInputCount]
    split <;> rfl
  | witnessesIndex index =>
    dsimp only [runCallback, beginWitness]
    split <;> rfl
  | witnessChunk buf following => exact processWitness_keyed env g buf following
  | _ => first | rfl | exact he.elim

theorem askCallback_keyed {e : SignEvent} (he : e.IsUnderived) :
    (askCallback env e g).1.keyed = g.keyed := by
  have hargs : ∀ n, (cellTypeArgLength env n g).1.keyed = g.keyed := by
    intro n
    unfold cellTypeArgLength
    split_ifs <;> rfl
  have hdata : ∀ n, (setCellDataSize n g).1.keyed = g.keyed := by
    intro n
    unfold setCellDataSize
    split <;> rfl
  cases e with
  | sourceCell e => cases e <;> first | exact hargs _ | rfl
  | outputCell e => cases e <;> first | exact hargs _ | rfl
  | sourceDataSize size => exact hdata size
  | dataSize size => exact hdata size
  | witnessSize size =>
    dsimp only [askCallback, hashWitnessLength]
    split_ifs <;> rfl
  | _ => first | rfl | exact he.elim

theorem finalizeRawTransaction_keyed : (g.finalizeRawTransaction env).keyed = g.keyed := by
  have htag : g.finalizeTag.1.keyed = g.keyed := by
    unfold finalizeTag
    cases g.v.tag <;> first | rfl | (dsimp only; split_ifs <;> rfl)
  unfold finalizeRawTransaction
  generalize g.finalizeTag = x at htag ⊢
  obtain ⟨a, b⟩ := x
  cases b with
  | false => exact htag
  | true => exact htag

theorem endCallback_keyed {e : SignEvent} (he : e.IsUnderived) :
    (endCallback env e g).1.keyed = g.keyed := by
  cases e with
  | changePathEnd =>
    dsimp only [endCallback, setChangePath]
    cases prepLockArg env.sdk g.tempKey <;> rfl
  | sourceCell e =>
    cases e with
    | lockEnd =>
      dsimp only [endCallback, inputLockArgEnd]
      split_ifs <;> rfl
    | _ => rfl
  | sourceDataEnd =>
    dsimp only [endCallback, finishInputCellData]
    split_ifs <;> rfl
  | outputEnd =>
    dsimp only [endCallback, outputEnd, daoOutputEnd, plainOutputEnd]
    split_ifs <;> rfl
  | outputsEnd =>
    dsimp only [endCallback, outputsEnd]
    split_ifs <;> rfl
  | dataEnd =>
    dsimp only [endCallback, finishOutputCellData]
    split_ifs <;> rfl
  | rawEnd => exact finalizeRawTransaction_keyed env g
  | witnessEnd =>
    dsimp only [endCallback, processWitnessEnd]
    split <;> rfl
  | _ => first | rfl | exact he.elim

end Frames

/-! ### The key of a session -/

section Session
variable {sdk : Sdk}

/-- A state agrees with the paths that were read. -/
structure DerivesAs (sdk : Sdk) (g : SignState) (s : Deriving) : Prop where
  path : g.tempKey = s.path
  signer : ∀ k ∈ s.signer, g.signingPath = k.rooted ∧ prepLockArg sdk k = .ok g.currentLockArg

theorem DerivesAs.congr {g g' : SignState} {s : Deriving} (h : DerivesAs sdk g s)
    (hk : g'.keyed = g.keyed) : DerivesAs sdk g' s := by
  obtain ⟨ht, hl, hc, ha⟩ : _ ∧ _ ∧ _ ∧ _ := by simpa [keyed] using hk
  refine ⟨ht.trans h.path, fun k hk => ?_⟩
  rw [signingPath, hl, hc, ha]
  exact h.signer k hk

theorem runCallback_derives {g : SignState} {s : Deriving} (h : DerivesAs sdk g s) (env : Env)
    (e : SignEvent) : DerivesAs sdk (runCallback env e g) (s.run e) := by
  have hpush : ∀ buf, DerivesAs sdk (bip32Component buf g) { s with path := s.path.push buf } := by
    intro buf
    refine ⟨?_, h.signer⟩
    rw [bip32Component, h.path]
    rfl
  cases e with
  | signPathItem buf => exact hpush buf
  | changePathItem buf => exact hpush buf
  | signPathSize size => exact h
  | changePathSize size => exact h
  | signPathEnd => exact h
  | inputsEnd => exact h
  | _ => exact h.congr (runCallback_keyed env g (by trivial))

theorem askCallback_derives {g : SignState} {s : Deriving} (h : DerivesAs sdk g s) (env : Env)
    (e : SignEvent) (ha : (askCallback env e g).2 = true) :
    DerivesAs sdk (askCallback env e g).1 (s.ask e) := by
  have hpath : ∀ size, (initBip32 size g).2 = true →
      DerivesAs sdk (initBip32 size g).1 { s with path.length := 0 } := by
    intro size hs
    unfold initBip32 at hs ⊢
    split_ifs at hs ⊢
    refine ⟨?_, h.signer⟩
    rw [h.path]
  cases e with
  | signPathSize size => exact hpath size ha
  | changePathSize size => exact hpath size ha
  | signPathItem buf => exact h
  | changePathItem buf => exact h
  | signPathEnd => exact h
  | inputsEnd => exact h
  | _ => exact h.congr (askCallback_keyed env g (by trivial))

theorem endCallback_derives {g : SignState} {s : Deriving} (h : DerivesAs sdk g s) {env : Env}
    (henv : env.sdk = sdk) (e : SignEvent) (hn : (endCallback env e g).2 = none) :
    DerivesAs sdk (endCallback env e g).1 (s.finish e) := by
  cases e with
  | signPathEnd =>
    dsimp only [endCallback, setSignPath] at hn ⊢
    cases hp : prepLockArg env.sdk g.tempKey with
    | error x =>
      rw [hp] at hn
      cases hn
    | ok lockArg =>
      refine ⟨h.path, ?_⟩
      rintro k ⟨rfl⟩
      rw [← h.path, ← henv]
      exact ⟨rfl, hp⟩
  | inputsEnd => exact ⟨rfl, h.signer⟩
  | signPathItem buf => exact h
  | changePathItem buf => exact h
  | signPathSize size => exact h
  | changePathSize size => exact h
  | _ => exact h.congr (endCallback_keyed env g (by trivial))

/-- The paths are read as `derivation` says. -/
theorem derivation_mirrors (sdk : Sdk) :
    Mirrors sdk derivation (fun y s => DerivesAs sdk y.1 s) {} where
  sim x := Reader.every_of_forall (fun e => ⟨fun h => runCallback_derives h (x.env sdk) e,
    fun h ha => ⟨rfl, askCallback_derives h (x.env sdk) e ha⟩,
    fun h hn => ⟨rfl, endCallback_derives h rfl e hn⟩, fun _ _ => trivial⟩) _
  restack _ h := ⟨h.path, h.signer⟩
  fresh := ⟨rfl, by simp⟩

end Session

/-! ### The key of a transaction -/

theorem replay_items (item : FixedBytes 4 → SignEvent)
    (hitem : ∀ c s, derivation.run (item c) s = { s with path := s.path.push c })
    (cs : List (FixedBytes 4)) (signer : Option Bip32Path) :
    derivation.replay (cs.map fun c => (.void, item c)) ⟨{}, signer⟩ = ⟨.of cs, signer⟩ := by
  induction cs using List.reverseRecOn with
  | nil => rfl
  | append_singleton cs c ih =>
    rw [List.map_append, Handler.replay_append, ih, Bip32Path.of_concat]
    exact hitem c _

theorem replay_signPath (cs : List (FixedBytes 4)) :
    derivation.replay (pathNotes .signPathSize .signPathItem .signPathEnd cs) {} =
      ⟨.of cs, some (.of cs)⟩ := by
  have hsize : derivation.replay ((.size, .signPathSize (cs.length * 4 + 4)) ::
      cs.map fun c => (.void, .signPathItem c)) {} = ⟨.of cs, none⟩ :=
    replay_items .signPathItem (fun _ _ => rfl) cs none
  rw [pathNotes, Handler.replay_append, hsize]
  rfl

/-- The end of the signing path alone says what signs. -/
theorem replay_signer {es : List (Note SignEvent)} (hes : ∀ n ∈ es, n.2 ≠ .signPathEnd)
    (s : Deriving) : (derivation.replay es s).signer = s.signer := by
  induction es generalizing s with
  | nil => rfl
  | cons n es ih =>
    have hn := hes n List.mem_cons_self
    have happ : (derivation.apply n s).signer = s.signer := by
      obtain ⟨slot, e⟩ := n
      cases slot <;> cases e <;> first | rfl | exact absurd rfl hn
    rw [Handler.replay_cons, ih fun m hm => hes m (List.mem_cons_of_mem n hm), happ]

theorem derivation_replay {t : AnnotatedTransaction} (hfit : t.Fits) :
    (derivation.replay t.notes {}).signer = some (.of t.signPath) := by
  have hlater : ∀ n ∈ t.rawNotes ++ witnessesNotes t.witnesses, n.2 ≠ .signPathEnd := by
    intro n hn he
    rcases List.mem_append.mp hn with hn | hn
    · rcases mem_rawNotes hfit hn with h | ⟨k, h⟩ | ⟨c, h⟩ | h | ⟨c, h⟩ <;> rw [he] at h <;> cases h
    · have hw := witnessesNotes_isWitness _ n hn
      rw [he] at hw
      cases hw
  rw [notes_raw, Handler.replay_append, replay_signer hlater, replay_signPath]

section Signer
variable {sdk : Sdk}

/-- The key that signs a transaction is that of its path below `m/44'/309'`, and the inputs that
count as the signer's are those with the lock of the path. -/
theorem Accepts.signer {sent : List Sent} (ha : Accepts sdk sent) {t : AnnotatedTransaction}
    (hfit : t.Fits) (hp : payload sent = t.encode) :
    (accepted sdk sent).signingPath = (Bip32Path.of t.signPath).rooted ∧
      prepLockArg sdk (.of t.signPath) = .ok (accepted sdk sent).currentLockArg := by
  obtain ⟨es, rest, hscan, hR⟩ := (derivation_mirrors sdk).completes
    deriving_gathers.collecting.fluid ha.completes
  have hreads := annotatedTransaction_reads hfit []
  rw [List.append_nil, ← hp, hscan, Option.some.injEq, Prod.mk.injEq] at hreads
  obtain ⟨rfl, -⟩ := hreads
  exact hR.signer _ (derivation_replay hfit)

/-! ### Runs -/

variable (sdk) in
/-- Under a prompt, what accepting it signs is the message of a transaction that the packets begin
with, by the key of its path below `m/44'/309'`; the inputs that were taken for the signer's have
the lock of the path. -/
def SignsFor (pre : List (Event SignState Sent Outcome)) (e : Event SignState Sent Outcome) : Prop :=
  ∀ q, e.report = .prompted q → ∀ g ∈ e.after,
    ∃ sent, sent <+: exchange (inputs pre ++ [e.input]) ∧ Accepts sdk sent ∧
      ∀ t : AnnotatedTransaction, t.Fits → payload sent = t.encode →
        prepLockArg sdk (.of t.signPath) = .ok g.currentLockArg ∧
        ∀ key data, (g.performSignature sdk).2 = .signed key data →
          key = (Bip32Path.of t.signPath).rooted ∧
            data = (accepted sdk sent).tx.finalHash.toList ∧
            ((Bip32Path.of t.signPath).Rooted → prepLockArg sdk key = .ok g.currentLockArg)

theorem Standing.signsFor {pre : List (Event SignState Sent Outcome)} {g : SignState}
    (h : Standing sdk (exchange (inputs pre)) g) (x : Sent) :
    SignsFor sdk pre (event (signStep sdk) g x) := by
  intro q hq g' hg'
  obtain ⟨sent, hard, hpre, ha, hst, -⟩ := (h.passes x).gated q hq
  obtain rfl : (g.handleApdu sdk x.settings insSign x.packet).1 = g' := Option.some.inj hg'
  refine ⟨sent, ?_, ha, fun t hfit hp => ?_⟩
  · rwa [event_input, exchange_concat]
  obtain ⟨hpath, hlock⟩ := ha.signer hfit hp
  rw [hst]
  refine ⟨hlock, fun key data hs => ?_⟩
  obtain ⟨rfl, rfl⟩ := performSignature_signed hs
  refine ⟨hpath, rfl, fun hroot => ?_⟩
  have hkey : prepLockArg sdk (SignState.accepted sdk sent).signingPath =
      .ok (SignState.accepted sdk sent).currentLockArg := by
    rw [hpath, hroot.rooted_eq]
    exact hlock
  exact hkey

/-- In every run of packets of `INS_SIGN`, prompts are raised over transactions, to be signed by the
key of their path. -/
theorem always_signsFor (sdk : Sdk) (xs : List Sent) :
    Always (signStep sdk) {} xs (SignsFor sdk) := by
  refine (always_standing sdk xs).mono fun pre e h => ?_
  obtain ⟨he, hs⟩ := h
  rw [he]
  exact hs.signsFor e.input

end Signer

end SignState
end NervosLedger
