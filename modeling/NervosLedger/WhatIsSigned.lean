import NervosLedger.Dispatch

/-!
# What was shown is what is signed

A prompt stays on the screen while further commands arrive, and its callback reads the shared
memory only when the user accepts. It then signs what the prompt was raised over if no command
in between disturbed that memory.
-/
namespace NervosLedger
open Molecule Machine

variable {M : Type} {o : Overlay M} {sdk : Sdk}

/-- The key and the bytes that a callback would sign. -/
def UiCallback.wouldSign (o : Overlay M) (m : M) : UiCallback → Option (Bip32Path × List UInt8)
  | .signWithoutHashOk | .signWithHashOk =>
    some ((o.sign.get m).signingPath, (o.sign.get m).tx.finalHash.toList)
  | .signMessageOk => some ((o.signMsg.get m).key, (o.signMsg.get m).finalHash.toList)
  | .signMessageHashOk => some ((o.signMsgHash.get m).key, (o.signMsgHash.get m).hashToSign)
  | _ => none

/-- What the prompt on the screen was raised over. -/
def raiseOver (o : Overlay M) (x : Option (Bip32Path × List UInt8))
    (e : Event (Globals M) Input Report) : Option (Bip32Path × List UInt8) :=
  match e.report.outcome, e.after with
  | some (.prompted p), some g => p.okCallback.wouldSign o g.u
  | _, _ => x

def raisedOver (o : Overlay M) (events : List (Event (Globals M) Input Report)) :
    Option (Bip32Path × List UInt8) :=
  events.foldl (raiseOver o) none

@[simp] theorem raisedOver_concat (pre : List (Event (Globals M) Input Report))
    (e : Event (Globals M) Input Report) :
    raisedOver o (pre ++ [e]) = raiseOver o (raisedOver o pre) e := by
  simp [raisedOver]

/-- A signature on acceptance is by the key, and over the bytes, that the prompt was raised
over. -/
def SignsWhatWasShown (o : Overlay M) (pre : List (Event (Globals M) Input Report))
    (e : Event (Globals M) Input Report) : Prop :=
  e.input = .promptResponse true → ∀ key data, e.report.performed = some (.signed key data) →
    raisedOver o pre = some (key, data)

/-- The packets that a handler can be given under a prompt with callback `c`, and leave alone
what it would sign: those that are refused before anything is stored, and further ones of the
same exchange. -/
def ApduHandler.Harmless (o : Overlay M) (g : Globals M) (c : UiCallback) (p : Packet) :
    ApduHandler → Prop
  | .handleApduError | .handleApduVersion | .handleApduGit | .handleApduGetWalletId => True
  | .handleApduGetPublicKey => ¬ PubkeyState.Stores p
  | .handleApduAccountImport => ¬ PubkeyState.Imports p
  | .handleApduSign => ¬ SignState.First p ∧ (SignState.Next p →
      (o.sign.get g.u).hardReject = true ∨
        (c = .signWithoutHashOk ∨ c = .signWithHashOk) ∧ (o.sign.get g.u).Finished)
  | .handleApduSignMessage => ¬ SignMessageState.First p ∧ (SignMessageState.Next p →
      255 ≤ (o.signMsg.get g.u).packetIndex ∨ c = .signMessageOk)
  | .handleApduSignMessageHash => ¬ SignMessageHashState.First g.settings p

instance (o : Overlay M) (g : Globals M) (c : UiCallback) (p : Packet) (f : ApduHandler) :
    Decidable (f.Harmless o g c p) := by
  cases f <;> unfold ApduHandler.Harmless <;> infer_instance

/-- An input does not touch what the prompt on the screen was raised over, if that is to be
signed. -/
def Undisturbing (o : Overlay M) (g : Globals M) : Input → Prop
  | .apdu cla ins p _ => cla = 0x80 → ∀ q ∈ g.displayed, q.okCallback.wouldSign o g.u ≠ none →
      if h : ins.toNat < insMax + 1 then handlers[ins.toNat].Harmless o g q.okCallback p
      else sizeofHandlers ≤ ins.toNat
  | _ => True

instance (o : Overlay M) (g : Globals M) : ∀ i, Decidable (Undisturbing o g i)
  | .apdu .. => inferInstanceAs (Decidable (_ → _))
  | .badLength => inferInstanceAs (Decidable True)
  | .promptResponse _ => inferInstanceAs (Decidable True)
  | .configure _ => inferInstanceAs (Decidable True)

theorem withKeyPair_signed {k key : Bip32Path} {d data : List UInt8}
    (h : withKeyPair sdk k d = .signed key data) : k = key ∧ d = data := by
  unfold withKeyPair at h
  split at h
  · cases h
  · cases h
    exact ⟨rfl, rfl⟩

theorem SignState.performSignature_signed {g : SignState} {key : Bip32Path} {data : List UInt8}
    (h : (g.performSignature sdk).2 = .signed key data) :
    g.signingPath = key ∧ g.tx.finalHash.toList = data := by
  unfold performSignature at h
  split at h
  · cases h
  · split at h
    · cases h
    · exact withKeyPair_signed h

theorem SignMessageState.performSignature_signed {g : SignMessageState} {key : Bip32Path}
    {data : List UInt8} (h : (g.performSignature sdk).2 = .signed key data) :
    g.key = key ∧ g.finalHash.toList = data := by
  unfold performSignature at h
  split at h
  · cases h
  · exact withKeyPair_signed h

theorem SignMessageHashState.performSignature_signed {g : SignMessageHashState} {key : Bip32Path}
    {data : List UInt8} (h : (g.performSignature sdk).2 = .signed key data) :
    g.key = key ∧ g.hashToSign = data := by
  unfold performSignature at h
  split at h
  · cases h
  · exact withKeyPair_signed h

/-- The signature that a callback makes is the one it would make. -/
theorem UiCallback.run_signed {c : UiCallback} {m : M} {key : Bip32Path} {data : List UInt8}
    (h : (c.run o sdk m).2 = some (.signed key data)) : c.wouldSign o m = some (key, data) := by
  cases c with
  | signWithoutHashOk =>
    obtain ⟨rfl, rfl⟩ := SignState.performSignature_signed (Option.some.inj h)
    rfl
  | signWithHashOk =>
    obtain ⟨rfl, rfl⟩ := SignState.performSignature_signed (Option.some.inj h)
    rfl
  | signMessageOk =>
    obtain ⟨rfl, rfl⟩ := SignMessageState.performSignature_signed (Option.some.inj h)
    rfl
  | signMessageHashOk =>
    obtain ⟨rfl, rfl⟩ := SignMessageHashState.performSignature_signed (Option.some.inj h)
    rfl
  | signReject => cases h
  | pubkeyOk => cases h
  | extPubkeyOk => cases h
  | accountImportOk => cases h
  | delayReject => cases h

section Harmless
variable {g : Globals M} {c : UiCallback} {p : Packet} {stack : List UInt8} {ins : UInt8}

theorem wouldSign_sign {c : UiCallback} (hc : c = .signWithoutHashOk ∨ c = .signWithHashOk)
    (m : M) : c.wouldSign o m =
      some ((o.sign.get m).signed.1, (o.sign.get m).signed.2.toList) := by
  rcases hc with rfl | rfl <;> rfl

theorem sign_harmless (h : ApduHandler.handleApduSign.Harmless o g c p)
    (hq : ∀ q, (ApduHandler.handleApduSign.run o sdk g.settings ins p stack g.u).2 ≠ .prompted q) :
    c.wouldSign o (ApduHandler.handleApduSign.run o sdk g.settings ins p stack g.u).1 =
      c.wouldSign o g.u := by
  have hx := SignState.handled sdk g.settings ins p (o.sign.get g.u)
  simp only [ApduHandler.run, Member.update] at hq ⊢
  generalize SignState.handleApdu sdk g.settings ins p (o.sign.get g.u) = x at hx hq ⊢
  cases hx with
  | refused => simp
  | first hf => exact absurd hf h.1
  | other => simp [SignState.conclude_fst]
  | next hn =>
    rcases h.2 hn with hr | ⟨hc, hf⟩
    · simp [SignState.handleNext, hr]
    · rw [wouldSign_sign hc, wouldSign_sign hc, Member.get_set,
        SignState.handleNext_signed (.inr hf)]

theorem signMessage_harmless (h : ApduHandler.handleApduSignMessage.Harmless o g c p)
    (hq : ∀ q, (ApduHandler.handleApduSignMessage.run o sdk g.settings ins p stack g.u).2 ≠
      .prompted q) :
    c.wouldSign o (ApduHandler.handleApduSignMessage.run o sdk g.settings ins p stack g.u).1 =
      c.wouldSign o g.u := by
  have hx := SignMessageState.handled sdk stack p (o.signMsg.get g.u)
  simp only [ApduHandler.run, Member.update] at hq ⊢
  generalize SignMessageState.handleApdu sdk stack p (o.signMsg.get g.u) = x at hx hq ⊢
  cases hx with
  | refused => simp
  | first hf => exact absurd hf h.1
  | noMagic hn hi =>
    obtain rfl := (h.2 hn).resolve_left (by omega)
    simp [UiCallback.wouldSign]
  | more hn hi =>
    obtain rfl := (h.2 hn).resolve_left (by omega)
    simp [UiCallback.wouldSign]
  | last => exact absurd rfl (hq _)

theorem signMessageHash_harmless (h : ApduHandler.handleApduSignMessageHash.Harmless o g c p)
    (hq : ∀ q, (ApduHandler.handleApduSignMessageHash.run o sdk g.settings ins p stack g.u).2 ≠
      .prompted q) :
    c.wouldSign o (ApduHandler.handleApduSignMessageHash.run o sdk g.settings ins p stack g.u).1 =
      c.wouldSign o g.u := by
  have hx := SignMessageHashState.handled g.settings p (o.signMsgHash.get g.u)
  simp only [ApduHandler.run, Member.update] at hq ⊢
  generalize SignMessageHashState.handleApdu g.settings p (o.signMsgHash.get g.u) = x at hx hq ⊢
  cases hx with
  | refused => simp
  | first hf => exact absurd hf h
  | last => exact absurd rfl (hq _)

variable (sdk stack ins) in
/-- A harmless packet that raises no prompt leaves alone what the callback would sign. -/
theorem ApduHandler.Harmless.keeps {f : ApduHandler} (h : f.Harmless o g c p)
    (hq : ∀ q, (f.run o sdk g.settings ins p stack g.u).2 ≠ .prompted q) :
    c.wouldSign o (f.run o sdk g.settings ins p stack g.u).1 = c.wouldSign o g.u := by
  cases f with
  | handleApduError => rfl
  | handleApduVersion => rfl
  | handleApduGit => rfl
  | handleApduGetWalletId => rfl
  | handleApduGetPublicKey =>
    obtain ⟨e, he⟩ := PubkeyState.handleApdu_refused sdk ins h (o.pubkey.get g.u)
    rw [ApduHandler.run, o.pubkey.update_eq (by rw [he])]
  | handleApduAccountImport =>
    obtain ⟨e, he⟩ := PubkeyState.handleAccountImport_refused sdk h (o.pubkey.get g.u)
    rw [ApduHandler.run, o.pubkey.update_eq (by rw [he])]
  | handleApduSign => exact sign_harmless h hq
  | handleApduSignMessage => exact signMessage_harmless h hq
  | handleApduSignMessageHash => exact signMessageHash_harmless h hq

end Harmless

/-- What the prompt on the screen would sign is what it was raised over. -/
structure Shows (o : Overlay M) (pre : List (Event (Globals M) Input Report)) (g : Globals M) :
    Prop where
  wired : g.Wired
  raised : ∀ q ∈ g.displayed, q.okCallback.wouldSign o g.u = raisedOver o pre

theorem wouldSign_eq_none {c : UiCallback} {m : M} (h : c.wouldSign o m = none) (m' : M) :
    c.wouldSign o m' = none := by
  cases c <;> first | rfl | cases h

theorem Shows.step {pre : List (Event (Globals M) Input Report)} {g g' : Globals M} {i : Input}
    (hg : Shows o pre g) (hi : Undisturbing o g i) (h : (appStep o sdk g i).2 = some g') :
    Shows o (pre ++ [event (appStep o sdk) g i]) g' := by
  refine ⟨appStep_wired hg.wired h, fun q hq => ?_⟩
  have hs := stepped o sdk g i
  simp only [raisedOver_concat, event]
  generalize appStep o sdk g i = x at hs h ⊢
  cases hs with
  | ignored =>
    cases h
    exact hg.raised q hq
  | configured =>
    cases h
    exact hg.raised q hq
  | wild => cases h
  | answered =>
    cases h
    cases hq
  | unwired =>
    cases h
    cases hq
  | @beyond ins p stack f hlo hhi =>
    cases h
    have hnone : q.okCallback.wouldSign o g.u = none := by
      by_contra hne
      have hbeyond := hi rfl q hq hne
      rw [dif_neg (not_lt_of_ge hlo)] at hbeyond
      omega
    simp only [raiseOver]
    rw [← hg.raised q hq, hnone]
    exact wouldSign_eq_none hnone _
  | @handled ins p stack hlt =>
    have hkeep := fun hharm : handlers[ins.toNat].Harmless o g q.okCallback p =>
      hharm.keeps sdk stack ins
    generalize handlers[ins.toNat].run o sdk g.settings ins p stack g.u = r at h hkeep
    cases h
    by_cases hr : ∃ p', r.2 = .prompted p'
    · obtain ⟨p', hp'⟩ := hr
      obtain ⟨u, oc⟩ := r
      cases hp'
      cases hq
      rfl
    · have hne : ∀ q, r.2 ≠ .prompted q := fun p' hp' => hr ⟨p', hp'⟩
      rw [Globals.handled_of_ne hne] at hq ⊢
      have hraise : raiseOver o (raisedOver o pre) ⟨g, .apdu 0x80 ins p stack,
          { callee := some (.handler handlers[ins.toNat]), outcome := some r.2 },
          some { g with u := r.1 }⟩ = raisedOver o pre := by
        unfold raiseOver
        split
        · rename_i hp' _
          exact absurd (Option.some.inj hp') (hne _)
        · rfl
      rw [hraise, ← hg.raised q hq]
      by_cases hsigns : q.okCallback.wouldSign o g.u = none
      · rw [hsigns]
        exact wouldSign_eq_none hsigns _
      · have hharm := hi rfl q hq hsigns
        rw [dif_pos hlt] at hharm
        exact hkeep hharm hne

/-- What the user accepts is signed as it was when its prompt was raised, in each run whose
commands do not disturb what a prompt on the screen was raised over. -/
theorem always_signsWhatWasShown (o : Overlay M) (sdk : Sdk) (settings : Settings)
    (inputs : List Input)
    (h : Always (appStep o sdk) (appMain o settings) inputs fun _ e =>
      Undisturbing o e.before e.input) :
    Always (appStep o sdk) (appMain o settings) inputs (SignsWhatWasShown o) := by
  refine (always_of_invariant (I := Shows o) ⟨appMain_wired settings, nofun⟩
    (fun pre g i g' hi hg h => hg.step hi h) h).mono ?_
  rintro pre e ⟨he, hg, -⟩ hi key data hd
  rw [he] at hd
  have hs := stepped o sdk e.before e.input
  simp only [event_report] at hd
  rw [hi] at hs hd
  generalize appStep o sdk e.before (.promptResponse true) = x at hs hd
  cases hs with
  | ignored => cases hd
  | unwired => cases hd
  | @answered _ q f hq hf =>
    obtain ⟨-, hok, -⟩ := hg.wired q hq
    obtain rfl : q.okCallback = f := by simpa [hok] using hf
    rw [← hg.raised q hq]
    exact UiCallback.run_signed hd

/-- A message, one more packet of it, and the user accepts. -/
def acceptedRun : List Input :=
  [.apdu 0x80 insSignMessage ⟨p1First, 0 :: samplePath, []⟩ [],
    .apdu 0x80 insSignMessage ⟨p1Next ||| p1LastMarker, sampleMessage, []⟩ [],
    .apdu 0x80 insSignMessage ⟨p1Next, sampleBytes, []⟩ [],
    .promptResponse true]

theorem acceptedRun_signsWhatWasShown :
    Always (appStep .separate sampleSdk) (appMain .separate {}) acceptedRun
      (SignsWhatWasShown .separate) :=
  always_signsWhatWasShown .separate sampleSdk {} acceptedRun (by decide +kernel)

/-- The path m/44'/309'/1' on the wire. -/
def otherPath : List UInt8 := [3, 0x80, 0, 0, 0x2c, 0x80, 0, 0x01, 0x35, 0x80, 0, 0, 1]

/-- Under the prompt for a message the next exchange is begun, for another key. -/
def disturbedRun : List Input :=
  [.apdu 0x80 insSignMessage ⟨p1First, 0 :: samplePath, []⟩ [],
    .apdu 0x80 insSignMessage ⟨p1Next ||| p1LastMarker, sampleMessage, []⟩ [],
    .apdu 0x80 insSignMessage ⟨p1First, 0 :: otherPath, []⟩ [],
    .promptResponse true]

/-- Accepting the prompt signs a digest of zeros by the other key. -/
theorem disturbedRun_signs : ¬ Always (appStep .separate sampleSdk) (appMain .separate {})
    disturbedRun (SignsWhatWasShown .separate) := by
  intro h
  have hlast : ∃ pre e, trace (appStep .separate sampleSdk) (appMain .separate {}) disturbedRun =
      pre ++ [e] ∧ e.input = .promptResponse true ∧
      e.report.performed = some (.signed ⟨3, #v[0x8000002C, 0x80000135, 0x80000001, 0, 0]⟩
        (List.replicate 32 0)) ∧
      raisedOver .separate pre = some (⟨3, #v[0x8000002C, 0x80000135, 0x80000000, 0, 0]⟩,
        sampleMessageHash.toList) :=
    ⟨[_, _, _], _, rfl, rfl, by decide +kernel, by decide +kernel⟩
  obtain ⟨pre, e, he, hi, hd, hr⟩ := hlast
  have hshown := h pre e [] he hi _ _ hd
  rw [hr] at hshown
  exact absurd hshown (by decide)

end NervosLedger
