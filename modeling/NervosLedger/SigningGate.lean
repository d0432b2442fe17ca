import NervosLedger.Exchange
import NervosLedger.Transaction
import Mathlib.Data.List.Induction

/-!
# The signing gate

Whatever packets of `INS_SIGN` come in, a prompt is raised for a transaction that a prefix of the
packets since the last `P1_FIRST` make up, and that no callback rejected.
-/
namespace NervosLedger
open Molecule Machine
namespace SignState

variable {sdk : Sdk}

/-! ### A packet -/

/-- The ways in which a packet ends that the parser was given. -/
inductive Concluded (env : Env) (ins : UInt8) (p : Packet) (rv : Rv Exc) (g : SignState) :
    SignState × Outcome → Prop
  | thrown {e} (h : rv = .throw e) : Concluded env ins p rv g (g, .threw e)
  | error (h : ∀ e, rv ≠ .throw e) : Concluded env ins p rv g (g.rejectHard, .threw .parseError)
  | more (h : rv = .incomplete) : Concluded env ins p rv g (g, .replied)
  | insecure (h : rv = .complete) (hu : g.isUnsafe = true) :
    Concluded env ins p rv g (g, .threw .security)
  | hidden {e} (h : rv = .complete) (hu : g.isUnsafe = true) :
    Concluded env ins p rv g ({ g with v.tag := .none, isValid := true }, .threw e)
  | shown (h : rv = .complete) (hl : p.last = true) (hu : g.isUnsafe = false)
      (hr : g.hardReject = false) :
    Concluded env ins p rv g (SignState.raise { g with isValid := true }
      (SignState.signComplete env { g with isValid := true } ins))

theorem concluded (env : Env) (ins : UInt8) (p : Packet) (rv : Rv Exc) (g : SignState) :
    Concluded env ins p rv g (g.afterPacket env ins p rv) := by
  by_cases ht : ∃ e, rv = .throw e
  · obtain ⟨e, rfl⟩ := ht
    exact .thrown rfl
  · have ht' : ∀ e, rv ≠ .throw e := fun e he => ht ⟨e, he⟩
    by_cases herr : if p.last then rv ≠ .complete ∨ g.hardReject = true else rv ≠ .incomplete
    · rw [afterPacket_parseError rv ht' herr]
      exact .error ht'
    · cases hl : p.last with
      | false =>
        obtain rfl : rv = .incomplete := by simpa [hl] using herr
        simp only [afterPacket, afterParse, hl, conclude, Bool.false_and]
        exact .more rfl
      | true =>
        obtain ⟨rfl, hr⟩ : rv = .complete ∧ g.hardReject = false := by simpa [hl] using herr
        rw [afterPacket_last hl hr]
        by_cases hu : g.isUnsafe = true
        · by_cases hs : p.secureOnly = true
          · rw [if_pos ⟨hu, hs⟩]
            exact .insecure rfl hu
          · obtain ⟨e, he⟩ := (signComplete_eq_error env (g := { g with
              v.tag := .none, isValid := true }) ins).mpr (.inl rfl)
            rw [if_neg fun h => hs h.2, if_pos hu, he]
            exact .hidden rfl hu
        · rw [if_neg fun h => hu h.1, if_neg hu]
          exact .shown rfl hl (by simpa using hu) hr

theorem Finished.transactionStack_eq {g : SignState} (h : g.Finished) :
    .node g.transactionStack.frame g.transactionStack.u = g.transactionStack := by
  cases hs : g.transactionStack with
  | leaf buf =>
    simp [Finished, hs, Frame.AtEnd, ReaderState.frame] at h
  | node s u => rfl

/-- At the end of a transaction the parser does nothing. -/
theorem Finished.parseChunk_eq {g : SignState} (h : g.Finished) (env : Env) (chunk : List UInt8) :
    g.parseChunk env chunk = (g, .complete) := by
  rw [h.parseChunk, h.transactionStack_eq]

/-! ### Runs of packets -/

variable (sdk) in
/-- `handle_apdu` on a packet. -/
def signStep : Step SignState Sent Outcome := fun g x =>
  ((g.handleApdu sdk x.settings insSign x.packet).2,
    some (g.handleApdu sdk x.settings insSign x.packet).1)

/-- The packets since the last `P1_FIRST` that the parser is to be given, once `x` came. -/
def enter (ex : List Sent) (x : Sent) : List Sent :=
  if First x.packet then [x] else if Next x.packet then ex ++ [x] else ex

/-- The packets since the last `P1_FIRST`, or since the start, that the parser is to be given. -/
def exchange (xs : List Sent) : List Sent := xs.foldl enter []

@[simp] theorem exchange_concat (xs : List Sent) (x : Sent) :
    exchange (xs ++ [x]) = enter (exchange xs) x := by
  simp [exchange]

theorem enter_first {ex : List Sent} {x : Sent} (h : First x.packet) : enter ex x = [x] :=
  if_pos h

theorem enter_next {ex : List Sent} {x : Sent} (h : Next x.packet) : enter ex x = ex ++ [x] := by
  rw [enter, if_neg fun hf => First.not_next hf h, if_pos h]

theorem enter_other {ex : List Sent} {x : Sent} (hf : ¬ First x.packet) (hn : ¬ Next x.packet) :
    enter ex x = ex := by
  rw [enter, if_neg hf, if_neg hn]

/-! ### Where an exchange stands -/

theorem Wanting.isValid {ex : List Sent} (h : Wanting sdk ex) :
    (feedAll sdk ex).1.isValid = false := by
  induction h with
  | nil => rfl
  | @snoc sent x h hx ih =>
    rw [feedAll_concat, (feed_eq sdk x _).1, (parseChunk_onward _ _ _).isValid, ih]

/-- The outline does not speak of the parser's memory in the state. -/
theorem signOutline_mid_restack {st : ReaderState} {g : SignState} (st' : ReaderState)
    (h : (signOutline sdk).mid st g) :
    (signOutline sdk).mid st { g with transactionStack := st' } := by
  refine Outline.mid_table (f := fun g => { g with transactionStack := st' }) ?_ ?_ ?_ h <;>
    simp only [List.forall_mem_cons, List.not_mem_nil, false_implies, implies_true, and_true]
  · refine ⟨fun _ => id, fun _ => id, fun _ => id, fun g hg => ?_, fun _ => id⟩
    intro o ho
    cases ho
    exact hg _ rfl
  · refine ⟨fun _ _ => id, fun _ _ => id, fun _ _ => id, fun st g hg => ?_, fun _ _ => id⟩
    refine Outline.mid_table (f := fun g => { g with transactionStack := st' }) ?_ ?_ ?_ hg <;>
      simp only [List.forall_mem_cons, List.not_mem_nil, false_implies, implies_true, and_true]
    · exact ⟨fun _ => id, fun _ => id, fun _ => id, fun _ => id, fun _ => id, fun _ => id⟩
    · exact ⟨fun _ _ => id, fun _ _ => id, fun _ _ => id, fun _ _ => id, fun _ _ => id,
        fun _ _ => id⟩
    · exact ⟨fun _ => id, fun _ => id, fun _ => id, fun _ => id, fun _ => id, fun _ => id⟩
  · exact ⟨fun _ => id, fun _ => id, fun _ => id, fun _ => id, fun _ => id⟩

/-- Between its packets, the parser keeps its outline. -/
theorem Wanting.mid {ex : List Sent} (h : Wanting sdk ex) :
    (signOutline sdk).mid (feedAll sdk ex).1.transactionStack (feedAll sdk ex).1 := by
  induction h with
  | nil => exact fresh_mid sdk
  | @snoc sent x h hx ih =>
    have hm := annotatedTransaction_meets (x.env sdk) molNumMax x.packet.data ih
    rw [feedAll_concat, (feed_eq sdk x _).1]
    rw [(feed_eq sdk x _).2] at hx
    exact signOutline_mid_restack _ (hm.incomplete hx)

variable (sdk) in
/-- Where the packets of an exchange have led. -/
inductive Standing (ex : List Sent) (g : SignState) : Prop
  | reading (hw : Wanting sdk ex) (hg : g = (feedAll sdk ex).1)
  | accepted {sent hard} (hpre : sent <+: ex) (ha : Accepts sdk sent)
    (hg : g = { accepted sdk sent with hardReject := hard })
  | refused (hd : Dead sdk g) (hv : g.isValid = true → g.Unshowable ∧ g.Finished)

variable (sdk) in
/-- A prompt is raised for a transaction at the beginning of the exchange. -/
def Gated (env : Env) (ins : UInt8) (ex : List Sent) (g' : SignState) (q : Prompt) : Prop :=
  ∃ sent hard, sent <+: ex ∧ Accepts sdk sent ∧
    g' = { accepted sdk sent with hardReject := hard } ∧ g'.signComplete env ins = .ok q

/-- Where a packet leads to, and that it raises a prompt only for a transaction. -/
structure Passes (sdk : Sdk) (env : Env) (ins : UInt8) (ex : List Sent) (x : SignState × Outcome) :
    Prop where
  standing : Standing sdk ex x.1
  gated : ∀ q, x.2 = .prompted q → Gated sdk env ins ex x.1 q

theorem Passes.threw {env : Env} {ins : UInt8} {ex : List Sent} {g : SignState} {e : Exc}
    (h : Standing sdk ex g) : Passes sdk env ins ex (g, .threw e) := ⟨h, nofun⟩

theorem Passes.replied {env : Env} {ins : UInt8} {ex : List Sent} {g : SignState}
    (h : Standing sdk ex g) : Passes sdk env ins ex (g, .replied) := ⟨h, nofun⟩

/-- A prompt for an accepted transaction, or the exception instead of it. -/
theorem Passes.raise {env : Env} {ins : UInt8} {ex sent : List Sent} {g : SignState} {hard : Bool}
    (hpre : sent <+: ex) (ha : Accepts sdk sent)
    (hg : g = { accepted sdk sent with hardReject := hard }) :
    Passes sdk env ins ex (g.raise (g.signComplete env ins)) := by
  cases hs : g.signComplete env ins with
  | error e => exact .threw (.accepted hpre ha hg)
  | ok q =>
    refine ⟨.accepted hpre ha hg, fun q' hq => ?_⟩
    cases hq
    exact ⟨sent, hard, hpre, ha, hg, hs⟩

/-- While the parser wants more, a packet goes to it. -/
theorem passes_of_wanting {ex : List Sent} (hw : Wanting sdk ex) (x : Sent) (ins : UInt8) :
    Passes sdk (x.env sdk) ins (ex ++ [x])
      ((feedAll sdk ex).1.handleNext (x.env sdk) ins x.packet) := by
  cases hr : (feedAll sdk ex).1.hardReject with
  | true =>
    rw [handleNext, if_pos hr]
    exact .threw (.refused (.rejected hr) fun hv => by simp [hw.isValid] at hv)
  | false =>
    rw [handleNext_eq hr]
    obtain ⟨hst, hrv⟩ := feed_eq sdk x (feedAll sdk ex)
    have hv : ((feedAll sdk ex).1.parseChunk (x.env sdk) x.packet.data).1.isValid = false := by
      rw [(parseChunk_onward _ _ _).isValid, hw.isValid]
    have hfin := parse_complete_finished (x.env sdk) (feedAll sdk ex).1 x.packet.data
    have hmeets := annotatedTransaction_meets (x.env sdk) molNumMax x.packet.data hw.mid
    have hstuck : ∀ e, ((feedAll sdk ex).1.parseChunk (x.env sdk) x.packet.data).2 = .throw e →
        Stuck sdk ((feedAll sdk ex).1.parseChunk (x.env sdk) x.packet.data).1 :=
      fun e he => stuck_of_thrown (hmeets.thrown e he)
    have hall : (feedAll sdk (ex ++ [x])).1 =
        ((feedAll sdk ex).1.parseChunk (x.env sdk) x.packet.data).1 := by
      rw [feedAll_concat, hst]
    have hc := concluded (x.env sdk) ins x.packet
      ((feedAll sdk ex).1.parseChunk (x.env sdk) x.packet.data).2
      ((feedAll sdk ex).1.parseChunk (x.env sdk) x.packet.data).1
    generalize (feedAll sdk ex).1.parseChunk (x.env sdk) x.packet.data = r
      at hst hrv hv hfin hstuck hall hc ⊢
    obtain ⟨g, rv⟩ := r
    dsimp only at hst hrv hv hfin hstuck hall hc ⊢
    generalize g.afterPacket (x.env sdk) ins x.packet rv = y at hc ⊢
    cases hc with
    | thrown h => exact .threw (.refused (.stuck (hstuck _ h)) fun h => by simp [hv] at h)
    | error h => exact .threw (.refused (.rejected rfl) fun h => by simp [rejectHard, hv] at h)
    | more h => exact .replied (.reading (.snoc hw (hrv.trans h)) hall.symm)
    | insecure h hu =>
      exact .threw (.refused (.done (hfin h) (.inl hu)) fun h => by simp [hv] at h)
    | hidden h hu => exact .threw (.refused (.done (hfin h) (.inl hu)) fun _ => ⟨.inl rfl, hfin h⟩)
    | shown h hl hu hr =>
      have ha : Accepts sdk (ex ++ [x]) :=
        ⟨⟨ex, x, rfl, hw, hrv.trans h⟩, ⟨ex, x, rfl, hl⟩, hall ▸ hu, hall ▸ hr⟩
      have hg : ({ g with isValid := true } : SignState) =
          { accepted sdk (ex ++ [x]) with hardReject := g.hardReject } := by
        rw [accepted, hall]
      exact .raise List.prefix_rfl ha hg

/-- An accepted transaction takes no more packets. -/
theorem passes_of_accepted {ex sent : List Sent} {hard : Bool} (hpre : sent <+: ex)
    (ha : Accepts sdk sent) (x : Sent) (ins : UInt8) :
    Passes sdk (x.env sdk) ins (ex ++ [x]) (SignState.handleNext (x.env sdk) ins x.packet
      { accepted sdk sent with hardReject := hard }) := by
  have hpre' : sent <+: ex ++ [x] := hpre.trans (List.prefix_append _ _)
  cases hard with
  | true =>
    rw [handleNext, if_pos rfl]
    exact .threw (.accepted hpre' ha rfl)
  | false =>
    obtain ⟨pre, y, rfl, hw, hy⟩ := ha.completes
    have hf : Finished { accepted sdk (pre ++ [y]) with hardReject := false } := by
      have hfin := parse_complete_finished (y.env sdk) (feedAll sdk pre).1 y.packet.data
        ((feed_eq sdk y _).2 ▸ hy)
      rw [← (feed_eq sdk y _).1, ← feedAll_concat] at hfin
      exact hfin
    rw [handleNext_eq rfl, hf.parseChunk_eq]
    have hc := concluded (x.env sdk) ins x.packet .complete
      { accepted sdk (pre ++ [y]) with hardReject := false }
    generalize afterPacket _ _ _ _ _ = z at hc ⊢
    cases hc with
    | thrown h => cases h
    | error h => exact .threw (.accepted hpre' ha rfl)
    | more h => cases h
    | insecure h hu => exact .threw (.accepted hpre' ha rfl)
    | hidden h hu => exact absurd (ha.isUnsafe.symm.trans hu) Bool.false_ne_true
    | shown h hl hu hr => exact .raise hpre' ha rfl

/-- After a packet that was refused, all are. -/
theorem passes_of_refused {ex : List Sent} {g : SignState} (hd : Dead sdk g)
    (hv : g.isValid = true → g.Unshowable ∧ g.Finished) (x : Sent) (ins : UInt8) :
    Passes sdk (x.env sdk) ins ex (g.handleNext (x.env sdk) ins x.packet) := by
  cases hr : g.hardReject with
  | true =>
    rw [handleNext, if_pos hr]
    exact .threw (.refused hd hv)
  | false =>
    rw [handleNext_eq hr]
    cases hd with
    | rejected h => exact absurd h (by simp [hr])
    | stuck hs =>
      obtain ⟨e, he, hs'⟩ := hs.parseChunk x.settings x.packet.beyond x.packet.data
      have hg : g.isValid = false := by
        cases hx : g.isValid with
        | false => rfl
        | true =>
          have hend := (hv hx).2
          rcases hend with h3 | ⟨-, h5⟩
          · exact absurd hs.table (by omega)
          · exact absurd hs.path (by omega)
      rw [show (g.parseChunk (x.env sdk) x.packet.data).2 = .throw e from he, afterPacket_throw]
      refine .threw (.refused (.stuck hs') fun h => ?_)
      rw [(parseChunk_onward _ _ _).isValid, hg] at h
      cases h
    | done hf hu =>
      rw [hf.parseChunk_eq]
      have hc := concluded (x.env sdk) ins x.packet .complete g
      generalize g.afterPacket (x.env sdk) ins x.packet .complete = z at hc ⊢
      cases hc with
      | thrown h => cases h
      | error h => exact .threw (.refused (.rejected rfl) hv)
      | more h => cases h
      | insecure h hu' => exact .threw (.refused (.done hf hu) hv)
      | hidden h hu' => exact .threw (.refused (.done hf (.inl hu')) fun _ => ⟨.inl rfl, hf⟩)
      | shown h hl hu' hr' =>
        have hun : g.Unshowable := hu.resolve_left (by simp [hu'])
        obtain ⟨e, he⟩ := (signComplete_eq_error (x.env sdk) (g := { g with isValid := true })
          ins).mpr hun
        rw [he]
        exact .threw (.refused (.done hf hu) fun _ => ⟨hun, hf⟩)

/-- A packet of an exchange, whichever it is. -/
theorem Standing.passes {ex : List Sent} {g : SignState} (h : Standing sdk ex g) (x : Sent) :
    Passes sdk (x.env sdk) insSign (enter ex x)
      (g.handleApdu sdk x.settings insSign x.packet) := by
  have hh := handled sdk x.settings insSign x.packet g
  generalize g.handleApdu sdk x.settings insSign x.packet = y at hh ⊢
  cases hh with
  | refused hf hn =>
    rw [enter_other hf hn]
    exact .threw h
  | first hf =>
    rw [enter_first hf]
    exact passes_of_wanting .nil x insSign
  | next hn =>
    rw [enter_next hn]
    cases h with
    | reading hw hg =>
      subst hg
      exact passes_of_wanting hw x insSign
    | accepted hpre ha hg =>
      subst hg
      exact passes_of_accepted hpre ha x insSign
    | refused hd hv => exact passes_of_refused hd hv x insSign
  | other hlen hf hn =>
    rw [enter_other hf hn]
    unfold conclude
    split
    · rename_i hl
      have hvalid : g.isValid = true := by simp_all
      cases h with
      | reading hw hg =>
        subst hg
        simp [hw.isValid] at hvalid
      | accepted hpre ha hg =>
        exact .raise hpre ha hg
      | refused hd hv =>
        obtain ⟨e, he⟩ := (signComplete_eq_error (x.env sdk) insSign).mpr (hv hvalid).1
        have he' : g.signComplete ⟨sdk, x.settings, x.packet.beyond⟩ insSign = .error e := he
        rw [he']
        exact .threw (.refused hd hv)
    · exact .replied h

/-! ### The log of a transaction -/

/-- The calls in the log found no rejection that is not there any more. -/
def Unrejected (y : SignState × SignLog) : Prop :=
  ∀ c ∈ y.2, (c.state.isUnsafe = true → y.1.isUnsafe = true) ∧
    (c.state.hardReject = true → y.1.hardReject = true)

theorem Unrejected.call {y : SignState × SignLog} (h : Unrejected y) {g' : SignState}
    (hg : Onward y.1 g') (s : Slot) (e : SignEvent) : Unrejected (g', y.2 ++ [⟨s, e, y.1⟩]) := by
  intro c hc
  rcases List.mem_append.mp hc with hc | hc
  · exact ⟨fun hu => hg.isUnsafe ((h c hc).1 hu), fun hr => hg.hardReject ((h c hc).2 hr)⟩
  · obtain rfl := List.mem_singleton.mp hc
    exact ⟨hg.isUnsafe, hg.hardReject⟩

theorem unrejected_keepsAt (env : Env) (e : SignEvent) :
    KeepsAt (signHandler env).traced Unrejected e where
  run {y} h := h.call (runCallback_onward env y.1 e) _ _
  ask {y} h := h.call (askCallback_onward env y.1 e) _ _
  finish {y} h := h.call (endCallback_onward env y.1 e) _ _

theorem feed_unrejected (x : Sent) {y : SignState × SignLog} (h : Unrejected y) :
    Unrejected (feed sdk x y).1 :=
  Reader.parse_keeps (annotatedTransactionCallbacks.every_of_forall
    (unrejected_keepsAt (x.env sdk))) y.1.transactionStack molNumMax x.packet.data h

theorem feedAll_unrejected (sent : List Sent) : Unrejected (feedAll sdk sent) := by
  induction sent using List.reverseRecOn with
  | nil => exact fun c hc => nomatch hc
  | append_singleton sent x ih =>
    rw [feedAll_concat]
    exact feed_unrejected x ih

/-- No callback has rejected an accepted transaction. -/
theorem Accepts.unrejected {sent : List Sent} (h : Accepts sdk sent) :
    ∀ c ∈ logOf sdk sent, c.state.isUnsafe = false ∧ c.state.hardReject = false := by
  intro c hc
  obtain ⟨hu, hr⟩ := feedAll_unrejected sent c hc
  constructor
  · cases hx : c.state.isUnsafe with
    | false => rfl
    | true => exact absurd (hu hx) (by simp [h.isUnsafe])
  · cases hx : c.state.hardReject with
    | false => rfl
    | true => exact absurd (hr hx) (by simp [h.hardReject])

/-! ### Streams that were rejected -/

theorem Wanting.initial {sent ex : List Sent} (h : Wanting sdk ex) (hpre : sent <+: ex) :
    Wanting sdk sent := by
  induction h with
  | nil =>
    rw [List.prefix_nil.mp hpre]
    exact .nil
  | @snoc ex x h hx ih =>
    rcases List.prefix_concat_iff.mp hpre with rfl | hpre
    · exact .snoc h hx
    · exact ih hpre

theorem feed_onward (x : Sent) (y : SignState × SignLog) : Onward y.1 (feed sdk x y).1.1 := by
  rw [(feed_eq sdk x y).1]
  exact parseChunk_onward _ _ _

variable (sdk) in
theorem feedAll_onward {sent ex : List Sent} (hpre : sent <+: ex) :
    Onward (feedAll sdk sent).1 (feedAll sdk ex).1 := by
  obtain ⟨rest, rfl⟩ := hpre
  induction rest using List.reverseRecOn with
  | nil =>
    rw [List.append_nil]
    exact .refl _
  | append_singleton rest x ih =>
    rw [← List.append_assoc, feedAll_concat]
    exact ih.trans (feed_onward x _)

variable (sdk) in
/-- The packets were rejected: the parser or a callback has refused them, and no part at their
beginning is a transaction. -/
structure Rejected (ex : List Sent) : Prop where
  refused : ¬ Wanting sdk ex ∨ (feedAll sdk ex).1.isUnsafe = true ∨
    (feedAll sdk ex).1.hardReject = true
  accepts : ∀ sent, sent <+: ex → ¬ Accepts sdk sent

/-- What is appended to rejected packets makes no transaction of them. -/
theorem Rejected.append {ex : List Sent} (h : Rejected sdk ex) (x : Sent) :
    Rejected sdk (ex ++ [x]) where
  refused := by
    rcases h.refused with hw | hu | hr
    · exact .inl fun hx => hw (hx.initial (List.prefix_append _ _))
    · exact .inr (.inl ((feedAll_onward sdk (List.prefix_append _ _)).isUnsafe hu))
    · exact .inr (.inr ((feedAll_onward sdk (List.prefix_append _ _)).hardReject hr))
  accepts sent hpre ha := by
    rcases List.prefix_concat_iff.mp hpre with rfl | hpre
    · obtain ⟨pre, y, hs, hw, -⟩ := ha.completes
      obtain ⟨rfl, -⟩ := List.append_inj' hs rfl
      rcases h.refused with hw' | hu | hr
      · exact hw' hw
      · have hx := (feedAll_onward sdk (List.prefix_append ex [x])).isUnsafe hu
        rw [ha.isUnsafe] at hx
        cases hx
      · have hx := (feedAll_onward sdk (List.prefix_append ex [x])).hardReject hr
        rw [ha.hardReject] at hx
        cases hx
    · exact h.accepts sent hpre ha

theorem Rejected.enter {ex : List Sent} (h : Rejected sdk ex) {x : Sent}
    (hx : ¬ First x.packet) : Rejected sdk (enter ex x) := by
  by_cases hn : Next x.packet
  · rw [enter_next hn]
    exact h.append x
  · rwa [enter_other hx hn]

/-! ### Runs -/

/-- The inputs of a run so far. -/
def inputs (pre : List (Event SignState Sent Outcome)) : List Sent := pre.map fun e => e.input

/-- A prompt is raised for a transaction that the packets since the last `P1_FIRST` begin with:
the parser was complete in a packet flagged as the last one, and no callback rejected it. A
rejected stream stays rejected, whatever follows but a `P1_FIRST`. -/
structure Gate (sdk : Sdk) (pre : List (Event SignState Sent Outcome))
    (e : Event SignState Sent Outcome) : Prop where
  accepts : ∀ q, e.report = .prompted q → ∃ sent, sent <+: exchange (inputs pre ++ [e.input]) ∧
    Accepts sdk sent ∧
    ∀ c ∈ logOf sdk sent, c.state.isUnsafe = false ∧ c.state.hardReject = false
  isUnsafe : ∀ q, e.report = .prompted q → ∀ g ∈ e.after, g.isUnsafe = false
  rejected : Rejected sdk (exchange (inputs pre)) → ¬ First e.input.packet →
    Rejected sdk (exchange (inputs pre ++ [e.input])) ∧ ∀ q, e.report ≠ .prompted q

theorem Standing.gate {pre : List (Event SignState Sent Outcome)} {g : SignState}
    (h : Standing sdk (exchange (inputs pre)) g) (x : Sent) :
    Gate sdk pre (event (signStep sdk) g x) := by
  have hp := h.passes x
  have hgated : ∀ q, (event (signStep sdk) g x).report = .prompted q →
      Gated sdk (x.env sdk) insSign (exchange (inputs pre ++ [x]))
        (g.handleApdu sdk x.settings insSign x.packet).1 q := by
    intro q hq
    rw [exchange_concat]
    exact hp.gated q hq
  constructor
  · intro q hq
    obtain ⟨sent, hard, hpre, ha, -⟩ := hgated q hq
    exact ⟨sent, hpre, ha, ha.unrejected⟩
  · intro q hq g' hg'
    obtain ⟨sent, hard, -, ha, hst, -⟩ := hgated q hq
    obtain rfl : (g.handleApdu sdk x.settings insSign x.packet).1 = g' := Option.some.inj hg'
    rw [hst]
    exact ha.isUnsafe
  · intro hr hx
    have hr' : Rejected sdk (exchange (inputs pre ++ [x])) := by
      rw [exchange_concat]
      exact hr.enter hx
    refine ⟨hr', fun q hq => ?_⟩
    obtain ⟨sent, hard, hpre, ha, -⟩ := hgated q hq
    exact hr'.accepts sent hpre ha

theorem always_standing (sdk : Sdk) (xs : List Sent) :
    Always (signStep sdk) {} xs fun pre e =>
      e = event (signStep sdk) e.before e.input ∧ Standing sdk (exchange (inputs pre)) e.before := by
  refine (always_of_invariant (I := fun pre g => Standing sdk (exchange (inputs pre)) g)
    (C := fun _ _ => True) (.reading .nil rfl) ?_ fun _ _ _ _ => trivial).mono
    fun _ _ h => ⟨h.1, h.2.1⟩
  intro pre g x g' _ h hg'
  obtain rfl : (g.handleApdu sdk x.settings insSign x.packet).1 = g' := Option.some.inj hg'
  rw [inputs, List.map_append, List.map_singleton, event_input, exchange_concat]
  exact (h.passes x).standing

/-- In every run of packets of `INS_SIGN`, prompts are gated. -/
theorem always_gate (sdk : Sdk) (xs : List Sent) : Always (signStep sdk) {} xs (Gate sdk) := by
  refine (always_standing sdk xs).mono fun pre e h => ?_
  obtain ⟨he, hs⟩ := h
  rw [he]
  exact hs.gate e.input

/-! ### Runs without a first packet -/

/-- The most recent `P1_FIRST`, and the packets for the parser since then, begin with `sent`. -/
def BeginsAtFirst (xs sent : List Sent) : Prop :=
  ∃ pre x post, xs = pre ++ x :: post ∧ First x.packet ∧ (∀ y ∈ post, ¬ First y.packet) ∧
    sent <+: x :: post.filter fun y => Next y.packet

/-- A transaction without cells, in a packet that is no `P1_FIRST`. -/
def unopenedRun : List Sent :=
  [⟨{ p1 := p1Next ||| p1LastMarker, data := (sampleTransaction [] [] [] []).encode }, {}⟩]

/-- The cleared memory is that of a fresh parser, so no first packet is needed. -/
theorem unopenedRun_prompts : ¬ Always (signStep (keySdk [])) {} unopenedRun fun pre e =>
    ∀ q, e.report = .prompted q →
      ∃ sent, BeginsAtFirst (inputs pre ++ [e.input]) sent ∧ Accepts (keySdk []) sent := by
  have hprompt : ∃ e, trace (signStep (keySdk [])) {} unopenedRun = [e] ∧
      (∃ q, e.report = .prompted q) ∧ ¬ First e.input.packet := by
    refine ⟨event (signStep (keySdk [])) {} unopenedRun[0], rfl, ?_, by decide +kernel⟩
    cases hq : (event (signStep (keySdk [])) {} unopenedRun[0]).report with
    | prompted q => exact ⟨q, rfl⟩
    | replied => exact absurd hq (by decide +kernel)
    | threw x =>
      have hreturned : (event (signStep (keySdk [])) {} unopenedRun[0]).report.returned = true := by
        decide +kernel
      rw [hq] at hreturned
      cases hreturned
  intro h
  obtain ⟨e, he, ⟨q, hq⟩, hfirst⟩ := hprompt
  obtain ⟨sent, ⟨pre, x, post, hx, hf, -, -⟩, -⟩ := h [] e [] he q hq
  have hmem : x ∈ inputs [] ++ [e.input] := by
    rw [hx]
    exact List.mem_append_right _ List.mem_cons_self
  rw [List.mem_singleton.mp hmem] at hf
  exact hfirst hf

end SignState
end NervosLedger
