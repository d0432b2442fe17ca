import NervosLedger.TransactionOutline
import NervosLedger.HandlerCases

/-!
# After a first packet that failed

An exception leaves the state of a transaction as it stands. Whatever it was, no further packet
brings the exchange to a prompt.
-/
namespace NervosLedger
open Molecule
namespace SignState

variable {sdk : Sdk} {settings : Settings} {beyond : List UInt8}

/-- The parser is at the end of a path that has no key. -/
structure Stuck (sdk : Sdk) (g : SignState) : Prop where
  table : g.transactionStack.frame.stateNum = 2
  path : g.transactionStack.frame.fieldIdx = 0 ∨ g.transactionStack.frame.fieldIdx = 1
  read : ∃ k, g.transactionStack.u.frame.stateNum = k + 1 ∧
    g.transactionStack.u.frame.totalSize ≤ k
  noKey : KeyError sdk g

/-- No tag of which `sign_complete` shows the screens. -/
def Unshowable (g : SignState) : Prop :=
  g.v.tag = .none ∨ g.v.tag = .notSet ∨ g.v.tag = .multiOutputTransfer ∧ 5 < g.tx.outputs.length

/-- No further packet raises a prompt. -/
inductive Dead (sdk : Sdk) (g : SignState) : Prop
  | rejected (h : g.hardReject = true)
  | stuck (h : Stuck sdk g)
  | done (hf : g.Finished) (hu : g.isUnsafe = true ∨ g.Unshowable)

theorem signComplete_eq_error (env : Env) {g : SignState} (ins : UInt8) :
    (∃ e, g.signComplete env ins = .error e) ↔ g.Unshowable := by
  have hui : ∀ (screens : List Screen) ok cxl, (∃ e, uiPrompt screens ok cxl = .error e) ↔
      maxScreenCount < screens.length := by
    intro screens ok cxl
    unfold uiPrompt
    split
    · rename_i hlt
      simpa using hlt
    · rename_i hlt
      simpa using hlt
  unfold signComplete signScreens Unshowable
  cases htag : g.v.tag <;> dsimp only
  case multiOutputTransfer =>
    rw [hui]
    simp [maxScreenCount, outputScreens]
    omega
  case plainTransfer =>
    rw [hui]
    cases env.settings.allowContractData <;> simp [maxScreenCount]
  all_goals simp [hui, maxScreenCount]

/-! ### Stuck in a path -/

theorem stuck_of_thrown {st : ReaderState} {g : SignState} (h : (signOutline sdk).thrown st g) :
    Stuck sdk { g with transactionStack := st } := by
  obtain ⟨h2, o, ho, ht⟩ := h
  match hi : st.frame.fieldIdx, ho with
  | 0, ho =>
    cases ho
    exact ⟨h2, .inl hi, ht.2, ht.1⟩
  | 1, ho =>
    cases ho
    exact ⟨h2, .inr hi, ht.2, ht.1⟩
  | 2, ho =>
    cases ho
    exact ht.elim
  | 3, ho =>
    cases ho
    obtain ⟨-, o, ho, ht⟩ := ht
    match st.u.frame.fieldIdx, ho with
    | 0, ho | 1, ho | 2, ho | 3, ho | 4, ho | 5, ho =>
      cases ho
      exact ht.elim
    | i + 6, ho => cases ho
  | 4, ho =>
    cases ho
    exact ht.elim
  | i + 5, ho => cases ho

theorem setSignPath_of_keyError (env : Env) {g : SignState} (h : KeyError env.sdk g) :
    ∃ e, g.setSignPath env = (g, some e) ∧ g.setChangePath env = (g, some e) := by
  obtain ⟨e, he⟩ := h
  exact ⟨e, by simp [setSignPath, he], by simp [setChangePath, he]⟩

variable (settings beyond) in
/-- A path without a key throws again, and nothing changes. -/
theorem Stuck.parseChunk {g : SignState} (h : Stuck sdk g) (chunk : List UInt8) :
    ∃ e, (g.parseChunk ⟨sdk, settings, beyond⟩ chunk).2 = .throw e ∧
      Stuck sdk (g.parseChunk ⟨sdk, settings, beyond⟩ chunk).1 := by
  obtain ⟨k, hk, hle⟩ := h.read
  obtain ⟨e, hsign, hchange⟩ := setSignPath_of_keyError ⟨sdk, settings, beyond⟩ h.noKey
  refine ⟨e, ?_⟩
  have hpath : ∀ (size : Option (ℕ → SignEvent)) (finish : SignEvent) item,
      (signHandler ⟨sdk, settings, beyond⟩).finish finish g = (g, some e) → ∀ n,
        ((Reader.bip32 { size := size, finish := some finish } item).part
          (signHandler ⟨sdk, settings, beyond⟩)).parse g.transactionStack.u n chunk g =
          ⟨.throw e, .node g.transactionStack.u.frame g.transactionStack.u.u, chunk, g, false⟩ := by
    intro size finish item hfin n
    refine (Reader.parse_fixVec_past { size := size, finish := some finish } hk hle rfl n
      chunk g).trans ?_
    rw [Handler.close_some, hfin]
    rfl
  have hparse : annotatedTransactionCallbacks.parse (signHandler ⟨sdk, settings, beyond⟩)
      g.transactionStack molNumMax chunk g = ⟨.throw e, .node g.transactionStack.frame
        (.node g.transactionStack.u.frame g.transactionStack.u.u), chunk, g, false⟩ := by
    unfold annotatedTransactionCallbacks Reader.annotatedTransaction
    rcases h.path with h0 | h1
    · exact Reader.parse_table_throw h.table (by rw [h0]; rfl)
        (hpath (some .signPathSize) .signPathEnd (some .signPathItem) hsign _) rfl
    · exact Reader.parse_table_throw h.table (by rw [h1]; rfl)
        (hpath (some .changePathSize) .changePathEnd (some .changePathItem) hchange _) rfl
  simp only [SignState.parseChunk, hparse]
  exact ⟨trivial, h.table, h.path, h.read, h.noKey⟩

/-! ### The packets -/

theorem parse_complete_finished (env : Env) (g : SignState) (chunk : List UInt8)
    (h : (g.parseChunk env chunk).2 = .complete) : (g.parseChunk env chunk).1.Finished :=
  Reader.parse_table_done rfl h

/-- What `handle_apdu` does once the parser has returned. -/
def afterPacket (env : Env) (ins : UInt8) (p : Packet) (rv : Rv Exc) (g : SignState) :
    SignState × Outcome :=
  match g.afterParse p rv with
  | (.error e, g) => (g, .threw e)
  | (.ok (), g) => g.conclude env ins p

theorem handleNext_eq {env : Env} {ins : UInt8} {p : Packet} {g : SignState}
    (h : g.hardReject = false) : g.handleNext env ins p =
      (g.parseChunk env p.data).1.afterPacket env ins p (g.parseChunk env p.data).2 := by
  simp only [handleNext, h, Bool.false_eq_true, if_false]
  rfl

theorem afterPacket_throw (env : Env) (ins : UInt8) (p : Packet) (e : Exc) (g : SignState) :
    g.afterPacket env ins p (.throw e) = (g, .threw e) := rfl

/-- The parser is not where the packet says it should be. -/
theorem afterPacket_parseError {env : Env} {ins : UInt8} {p : Packet} (rv : Rv Exc)
    {g : SignState} (ht : ∀ e, rv ≠ .throw e)
    (h : if p.last then rv ≠ .complete ∨ g.hardReject = true else rv ≠ .incomplete) :
    g.afterPacket env ins p rv = (g.rejectHard, .threw .parseError) := by
  cases rv with
  | throw e => exact absurd rfl (ht e)
  | incomplete => cases hl : p.last <;> simp_all [afterPacket, afterParse]
  | complete => cases hl : p.last <;> simp_all [afterPacket, afterParse]
  | reject => cases hl : p.last <;> simp_all [afterPacket, afterParse]

/-- The last packet, with the whole transaction read. -/
theorem afterPacket_last {env : Env} {ins : UInt8} {p : Packet} {g : SignState}
    (hl : p.last = true) (hr : g.hardReject = false) :
    g.afterPacket env ins p .complete =
      if g.isUnsafe = true ∧ p.secureOnly = true then (g, .threw .security)
      else SignState.raise { g with
          v.tag := if g.isUnsafe then .none else g.v.tag, isValid := true }
        (SignState.signComplete env { g with
          v.tag := if g.isUnsafe then .none else g.v.tag, isValid := true } ins) := by
  by_cases hs : g.isUnsafe = true ∧ p.secureOnly = true
  · simp [afterPacket, afterParse, hl, hr, hs]
  · simp [afterPacket, afterParse, hl, hr, hs, conclude]

/-- A packet at the end of a transaction that cannot be shown is refused. -/
theorem afterPacket_done {g : SignState} {p : Packet} {env : Env} {ins : UInt8} (hf : g.Finished)
    (hu : g.isUnsafe = true ∨ g.Unshowable) :
    ∃ e g', g.afterPacket env ins p .complete = (g', .threw e) ∧ Dead env.sdk g' := by
  by_cases hend : p.last = true ∧ g.hardReject = false
  · rw [afterPacket_last hend.1 hend.2]
    split
    · exact ⟨_, _, rfl, .done hf hu⟩
    · have hun : Unshowable { g with
          v.tag := if g.isUnsafe then .none else g.v.tag, isValid := true } := by
        cases hs : g.isUnsafe with
        | true => exact .inl rfl
        | false => exact hu.resolve_left (by simp [hs])
      obtain ⟨e, he⟩ := (signComplete_eq_error env ins).mpr hun
      rw [he]
      exact ⟨e, _, rfl, .done hf (.inr hun)⟩
  · rw [afterPacket_parseError .complete nofun (by cases hl : p.last <;> simp_all)]
    exact ⟨_, _, rfl, .rejected rfl⟩

variable (settings beyond) in
/-- No packet leads out of a dead state. -/
theorem Dead.handleNext {g : SignState} (h : Dead sdk g) (ins : UInt8) (p : Packet) :
    ∃ e g', g.handleNext ⟨sdk, settings, beyond⟩ ins p = (g', .threw e) ∧ Dead sdk g' := by
  cases h with
  | rejected hr => exact ⟨_, _, if_pos hr, .rejected hr⟩
  | stuck hs =>
    cases hr : g.hardReject with
    | true => exact ⟨_, _, if_pos hr, .rejected hr⟩
    | false =>
      obtain ⟨e, he, hs'⟩ := hs.parseChunk settings beyond p.data
      exact ⟨e, _, by rw [handleNext_eq hr, he, afterPacket_throw], .stuck hs'⟩
  | done hf hu =>
    cases hr : g.hardReject with
    | true => exact ⟨_, _, if_pos hr, .rejected hr⟩
    | false =>
      rw [handleNext_eq hr, hf.parseChunk]
      exact afterPacket_done hf hu

theorem fresh_mid (sdk : Sdk) : (signOutline sdk).mid fresh.transactionStack fresh := by
  intro o ho
  cases ho
  exact .inr ⟨rfl, rfl⟩

/-- A first packet that is refused leaves a dead state. -/
theorem first_dead {ins : UInt8} {p : Packet} {e : Exc}
    (h : (fresh.handleNext ⟨sdk, settings, beyond⟩ ins p).2 = .threw e) :
    Dead sdk (fresh.handleNext ⟨sdk, settings, beyond⟩ ins p).1 := by
  rw [handleNext_eq rfl] at h ⊢
  have hmeets := annotatedTransaction_meets ⟨sdk, settings, beyond⟩ molNumMax p.data
    (fresh_mid sdk)
  have hfin := parse_complete_finished ⟨sdk, settings, beyond⟩ fresh p.data
  have hstuck : ∀ e, (fresh.parseChunk ⟨sdk, settings, beyond⟩ p.data).2 = .throw e →
      Stuck sdk (fresh.parseChunk ⟨sdk, settings, beyond⟩ p.data).1 :=
    fun e he => stuck_of_thrown (hmeets.thrown e he)
  generalize fresh.parseChunk ⟨sdk, settings, beyond⟩ p.data = r at h hfin hstuck ⊢
  obtain ⟨g, rv⟩ := r
  by_cases hthrow : ∃ e, rv = .throw e
  · obtain ⟨e, rfl⟩ := hthrow
    exact .stuck (hstuck e rfl)
  · by_cases herr : if p.last then rv ≠ .complete ∨ g.hardReject = true else rv ≠ .incomplete
    · rw [afterPacket_parseError rv (fun e he => hthrow ⟨e, he⟩) herr]
      exact .rejected rfl
    · cases hl : p.last with
      | false =>
        have hrv : rv = .incomplete := by simpa [hl] using herr
        subst hrv
        simp [afterPacket, afterParse, hl, conclude] at h
      | true =>
        have hrv : rv = .complete ∧ g.hardReject = false := by simpa [hl] using herr
        obtain ⟨rfl, hr⟩ := hrv
        rw [afterPacket_last hl hr] at h ⊢
        split at h
        · rename_i hs
          rw [if_pos hs]
          exact .done (hfin rfl) (.inl hs.1)
        · rename_i hs
          rw [if_neg hs]
          cases hsc : SignState.signComplete ⟨sdk, settings, beyond⟩ { g with
              v.tag := if g.isUnsafe then .none else g.v.tag, isValid := true } ins with
          | ok q =>
            rw [hsc] at h
            cases h
          | error e => exact .done (hfin rfl) (.inr ((signComplete_eq_error _ _).mp ⟨e, hsc⟩))

end SignState
end NervosLedger
