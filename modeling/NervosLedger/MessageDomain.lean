import NervosLedger.Dispatch

/-!
# The domain of message signatures

A message is signed only under its magic prefix, which the first packet must bring. The packet
counter is bumped before the prefix is checked, so the packet after a refused one passes for a
later one: the prefix is sure to be there only where every further packet finds the hash
begun.
-/
namespace NervosLedger
open Molecule Machine

variable {M : Type} {o : Overlay M} {sdk : Sdk}

/-- A command of `INS_SIGN_MESSAGE`: its packet, and what the stack held. -/
def messageCommand (x : Packet × List UInt8) : Input := .apdu 0x80 insSignMessage x.1 x.2

/-- The payloads received once a packet was handled: a first packet starts over, and a refused
one does not count. -/
def receivedAfter (payloads : List (List UInt8)) (p : Packet) (oc : Outcome) :
    List (List UInt8) :=
  if SignMessageState.First p then []
  else if SignMessageState.Next p ∧ oc.returned then payloads ++ [p.data]
  else payloads

def receive (payloads : List (List UInt8)) (e : Event (Globals M) Input Report) :
    List (List UInt8) :=
  match e.input, e.report.outcome with
  | .apdu _ _ p _, some oc => receivedAfter payloads p oc
  | _, _ => payloads

/-- The payloads received since the last first packet. -/
def received (events : List (Event (Globals M) Input Report)) : List (List UInt8) :=
  events.foldl receive []

@[simp] theorem received_concat (pre : List (Event (Globals M) Input Report))
    (e : Event (Globals M) Input Report) : received (pre ++ [e]) = receive (received pre) e := by
  simp [received]

/-- The digest in a prompt is that of what was received, which is a message. -/
def DomainSeparated (o : Overlay M) (sdk : Sdk) (pre : List (Event (Globals M) Input Report))
    (e : Event (Globals M) Input Report) : Prop :=
  ∀ q, e.report.outcome = some (.prompted q) → ∀ g ∈ e.after,
    (o.signMsg.get g.u).finalHash = sdk.blake2b [] (received (pre ++ [e])).flatten ∧
      nervosMagic <+: (received (pre ++ [e])).flatten

/-- The hash was begun, and not finished. -/
def SignMessageState.Open (g : SignMessageState) : Prop :=
  g.hashState.initialized = true ∧ g.hashState.finished = []

/-- A packet that counts as a later one finds the hash open. -/
def FindsOpen (p : Packet) (g : SignMessageState) : Prop :=
  SignMessageState.Next p → 0 < g.packetIndex → g.packetIndex < 255 → g.Open

instance (g : SignMessageState) : Decidable g.Open := inferInstanceAs (Decidable (_ ∧ _))

instance (p : Packet) (g : SignMessageState) : Decidable (FindsOpen p g) :=
  inferInstanceAs (Decidable (_ → _))

/-- What the state of a message exchange says about the payloads received. -/
inductive Tracks (payloads : List (List UInt8)) (g : SignMessageState) : Prop
  | begun (hi : g.packetIndex = 0) (hh : g.hashState = {}) (hp : payloads = [])
  | hashed (hi : 0 < g.packetIndex) (hf : g.hashState.finished = [])
      (hp : g.hashState.absorbed = payloads.flatten) (hm : nervosMagic <+: payloads.flatten)
  | stuck (hi : 0 < g.packetIndex) (ho : ¬ g.Open)

theorem prefix_of_checkMagicBytes {data : List UInt8} (h : checkMagicBytes data = true) :
    nervosMagic <+: data := by
  simp only [checkMagicBytes, Bool.and_eq_true, decide_eq_true_eq] at h
  exact ⟨data.drop 15, by rw [← h.2, List.take_append_drop]⟩

section Step
variable {stack : List UInt8} {p : Packet} {payloads : List (List UInt8)} {g : SignMessageState}

/-- An accepted packet extends the message, or begins it. -/
theorem Tracks.accept (ht : Tracks payloads g) (hn : SignMessageState.Next p)
    (hi : g.packetIndex < 255) (ho : FindsOpen p g)
    (hm : g.packetIndex = 0 → checkMagicBytes p.data = true) :
    (g.hashState.absorb p.data).finished = [] ∧
      (g.hashState.absorb p.data).absorbed = (payloads ++ [p.data]).flatten ∧
        nervosMagic <+: (payloads ++ [p.data]).flatten := by
  cases ht with
  | begun hi' hh hp =>
    subst hp
    rw [hh]
    exact ⟨rfl, by simp [HashState.absorb], by simpa using prefix_of_checkMagicBytes (hm hi')⟩
  | hashed hi' hf hp hm' =>
    refine ⟨hf, by simp [HashState.absorb, hp], ?_⟩
    rw [List.flatten_append]
    exact hm'.trans (List.prefix_append _ _)
  | stuck hi' ho' => exact absurd (ho hn hi' hi) ho'

theorem Tracks.handled (ht : Tracks payloads g) (ho : FindsOpen p g)
    {x : SignMessageState × Outcome} (hx : SignMessageState.Handled sdk stack p g x) :
    Tracks (receivedAfter payloads p x.2) x.1 ∧ ∀ q, x.2 = .prompted q →
      x.1.finalHash = sdk.blake2b [] (receivedAfter payloads p x.2).flatten ∧
        nervosMagic <+: (receivedAfter payloads p x.2).flatten := by
  cases hx with
  | refused hf hn => exact ⟨by simpa [receivedAfter, hf, Outcome.returned] using ht, nofun⟩
  | first hf =>
    obtain ⟨-, hi, hh⟩ := SignMessageState.handleFirst_eq p
    exact ⟨.begun hi hh (by simp [receivedAfter, hf]),
      fun q hq => absurd hq (SignMessageState.handleFirst_ne_prompted p q)⟩
  | noMagic hn hi hm =>
    refine ⟨.stuck Nat.one_pos fun hopen => ?_, nofun⟩
    cases ht with
    | begun _ hh _ =>
      have hinit := hopen.1
      simp [hh] at hinit
    | hashed hi' => omega
    | stuck hi' => omega
  | more hn hi hl hm =>
    have hnf : ¬ SignMessageState.First p := fun hf => hf.not_next hn
    obtain ⟨hf, hp, hm'⟩ := ht.accept hn hi ho hm
    have hr : receivedAfter payloads p .replied = payloads ++ [p.data] := by
      simp [receivedAfter, hnf, hn, Outcome.returned]
    rw [hr]
    exact ⟨.hashed (by simp) (by simpa using hf) (by simpa using hp) hm', nofun⟩
  | @last q hn hi hl hm =>
    have hnf : ¬ SignMessageState.First p := fun hf => hf.not_next hn
    obtain ⟨hf, hp, hm'⟩ := ht.accept hn hi ho hm
    have hr : receivedAfter payloads p (.prompted q) = payloads ++ [p.data] := by
      simp [receivedAfter, hnf, hn, Outcome.returned]
    rw [hr]
    refine ⟨.stuck (by simp [SignMessageState.close]) fun hopen => ?_, fun q' _ => ⟨?_, hm'⟩⟩
    · have hfin := hopen.2
      simp [SignMessageState.close, HashState.finish] at hfin
    · simp only [SignMessageState.close, SignMessageState.hashState_accept, HashState.digest]
      rw [hf, hp]

end Step

section Run
variable (o sdk)

theorem appStep_messageCommand (g : Globals M) (x : Packet × List UInt8) :
    appStep o sdk g (messageCommand x) =
      let r := (o.signMsg.get g.u).handleApdu sdk x.2 x.1
      ({ callee := some (.handler .handleApduSignMessage), outcome := some r.2 },
        some (g.handled (o.signMsg.set r.1 g.u, r.2))) := rfl

variable {o sdk}

theorem received_messageCommand (pre : List (Event (Globals M) Input Report)) (g : Globals M)
    (x : Packet × List UInt8) :
    received (pre ++ [event (appStep o sdk) g (messageCommand x)]) =
      receivedAfter (received pre) x.1 ((o.signMsg.get g.u).handleApdu sdk x.2 x.1).2 := by
  rw [received_concat]
  rfl

/-- A command keeps track of the payloads, and its prompt is for them. -/
theorem Tracks.messageCommand {pre : List (Event (Globals M) Input Report)} {g g' : Globals M}
    {x : Packet × List UInt8} (ht : Tracks (received pre) (o.signMsg.get g.u))
    (hx : FindsOpen x.1 (o.signMsg.get g.u))
    (hg' : (appStep o sdk g (messageCommand x)).2 = some g') :
    Tracks (received (pre ++ [event (appStep o sdk) g (NervosLedger.messageCommand x)]))
        (o.signMsg.get g'.u) ∧
      DomainSeparated o sdk pre (event (appStep o sdk) g (NervosLedger.messageCommand x)) := by
  obtain ⟨hT, hP⟩ := ht.handled hx (SignMessageState.handled sdk x.2 x.1 _)
  rw [appStep_messageCommand] at hg'
  cases hg'
  refine ⟨?_, fun q hq g' hg' => ?_⟩
  · rw [received_messageCommand]
    simpa using hT
  · rw [received_messageCommand]
    simp only [event_report, event_after, appStep_messageCommand, Option.some.injEq] at hq hg'
    cases hg'
    simpa using hP q hq

end Run

/-- Whenever a message prompt is raised, its digest is that of the payloads received since the
first packet, and these begin with the magic bytes, in each run in which later packets find the
hash open. -/
theorem always_domainSeparated (o : Overlay M) (sdk : Sdk) (settings : Settings)
    (packets : List (Packet × List UInt8))
    (h : Always (appStep o sdk) (appMain o settings) (packets.map messageCommand) fun _ e =>
      ∀ x ∈ packets, e.input = messageCommand x → FindsOpen x.1 (o.signMsg.get e.before.u)) :
    Always (appStep o sdk) (appMain o settings) (packets.map messageCommand)
      (DomainSeparated o sdk) := by
  have h₀ : Tracks (received ([] : List (Event (Globals M) Input Report)))
      (o.signMsg.get (appMain o settings : Globals M).u) :=
    .begun (by simp [appMain, o.signMsg_zero]) (by simp [appMain, o.signMsg_zero]) rfl
  refine (always_of_invariant (I := fun pre g => Tracks (received pre) (o.signMsg.get g.u)) h₀ ?_
    (h.and (always_mem _ _))).mono ?_
  · rintro pre g i g' ⟨hopen, hmem⟩ ht hg'
    obtain ⟨x, hx, rfl⟩ := List.mem_map.mp hmem
    exact (ht.messageCommand (hopen x hx rfl) hg').1
  · rintro pre e ⟨he, ht, hopen, hmem⟩
    obtain ⟨x, hx, hxe⟩ := List.mem_map.mp hmem
    rw [he, ← hxe]
    exact (ht.messageCommand (hopen x hx hxe.symm) rfl).2

/-- A message in one packet. -/
def messagePackets : List (Packet × List UInt8) :=
  [(⟨p1First, 0 :: samplePath, []⟩, []), (⟨p1Next ||| p1LastMarker, sampleMessage, []⟩, [])]

theorem messagePackets_domainSeparated :
    Always (appStep .separate sampleSdk) (appMain .separate {})
      (messagePackets.map messageCommand) (DomainSeparated .separate sampleSdk) :=
  always_domainSeparated .separate sampleSdk {} messagePackets (by decide +kernel)

/-- A packet without the prefix is refused, and then comes any other. -/
def refusedPackets : List (Packet × List UInt8) :=
  [(⟨p1First, 0 :: samplePath, []⟩, []), (⟨p1Next, [0], []⟩, []),
    (⟨p1Next ||| p1LastMarker, sampleBytes, []⟩, [])]

/-- The third packet raises the prompt, over its own bytes. -/
theorem refusedPackets_prompt : ¬ Always (appStep .separate sampleSdk) (appMain .separate {})
    (refusedPackets.map messageCommand) (DomainSeparated .separate sampleSdk) := by
  intro h
  have hlast : ∃ pre e g,
      trace (appStep .separate sampleSdk) (appMain .separate {})
        (refusedPackets.map messageCommand) = pre ++ [e] ∧
      e.report.outcome = some (.prompted ⟨[⟨"Sign", .text "Message"⟩, ⟨"Message: ", .buffer []⟩],
        .signMessageOk, .signReject⟩) ∧
      e.after = some g ∧ received (pre ++ [e]) = [sampleBytes] :=
    ⟨[_, _], _, _, rfl, by decide +kernel, rfl, by decide +kernel⟩
  obtain ⟨pre, e, g, he, hq, hg, hr⟩ := hlast
  have hm := (h pre e [] he _ hq g hg).2
  rw [hr] at hm
  exact absurd hm (by decide)

end NervosLedger
