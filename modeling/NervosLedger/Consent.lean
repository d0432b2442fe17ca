import NervosLedger.Dispatch

/-!
# Consent

`main_loop` is given the size of the handler table in bytes where it compares a number of
handlers. Commands inside the table keep to it, and then nothing is signed unless the user
accepts a prompt; the others call what lies behind the table.
-/
namespace NervosLedger
open Molecule Machine

variable {M : Type} {o : Overlay M} {sdk : Sdk}

/-- In a step `main_loop` calls entries of the handler table only, and a signature is made only
by the callback of the prompt on the screen, which the user accepts. -/
structure Consented (o : Overlay M) (sdk : Sdk) (e : Event (Globals M) Input Report) : Prop where
  callee : ∀ c ∈ e.report.callee, ∃ (i : ℕ) (h : i < insMax + 1), c = .handler handlers[i]
  accepted : ∀ d ∈ e.report.performed, e.input = .promptResponse true ∧
    ∃ p ∈ e.before.displayed, (p.okCallback.run o sdk e.before.u).2 = some d

/-- The instruction of a command is an index of the handler table, or refused as too large. -/
def InTable : Input → Prop
  | .apdu cla ins _ _ => cla = 0x80 → ins.toNat < insMax + 1 ∨ sizeofHandlers ≤ ins.toNat
  | _ => True

instance : DecidablePred InTable := fun i => by
  cases i <;> unfold InTable <;> infer_instance

theorem UiCallback.run_cancels {f : UiCallback} (hf : f = .signReject ∨ f = .delayReject) (m : M) :
    (f.run o sdk m).2 = none := by
  rcases hf with rfl | rfl <;> rfl

theorem event_consented {g : Globals M} {i : Input} (hg : g.Wired) (hi : InTable i) :
    Consented o sdk (event (appStep o sdk) g i) := by
  have hs := stepped o sdk g i
  unfold event
  generalize appStep o sdk g i = x at hs ⊢
  cases hs with
  | ignored => exact ⟨by simp, by simp⟩
  | unwired => exact ⟨by simp, by simp⟩
  | configured => exact ⟨by simp, by simp⟩
  | handled h => exact ⟨fun c hc => ⟨_, h, (Option.some.inj hc).symm⟩, by simp⟩
  | beyond h hs => exact absurd (hi rfl) (by omega)
  | wild h hs => exact absurd (hi rfl) (by omega)
  | @answered accepted q f hd hf =>
    refine ⟨by simp, fun d hd' => ?_⟩
    obtain ⟨⟨c, hc⟩, hok, hcxl⟩ := hg q hd
    cases accepted with
    | true =>
      obtain rfl : q.okCallback = f := by simpa [hok] using hf
      exact ⟨rfl, q, hd, hd'⟩
    | false =>
      obtain rfl : q.cxlCallback = f := by simpa [hcxl] using hf
      rw [Option.mem_def, UiCallback.run_cancels hc.cancels] at hd'
      cases hd'

theorem inTable_of_consented {g : Globals M} {i : Input}
    (h : Consented o sdk (event (appStep o sdk) g i)) : InTable i := by
  have hs := stepped o sdk g i
  cases i with
  | badLength => trivial
  | promptResponse => trivial
  | configure => trivial
  | apdu cla ins p stack =>
    rintro rfl
    by_contra hbeyond
    have hc := h.callee
    simp only [event] at hc
    have hlt : ¬ ins.toNat ≥ sizeofHandlers := by omega
    simp only [appStep, mainLoop, if_neg hlt] at hc
    rcases g.fetch_of_ge (show insMax + 1 ≤ ins.toNat by omega) with hw | ⟨f, hw, -⟩
    · simp [hw] at hc
    · simp [hw] at hc

/-- Only handlers of the table are called, and only accepted prompts sign, in exactly those runs
whose commands are all inside the table or beyond `sizeof(global.handlers)`. -/
theorem always_consented_iff (o : Overlay M) (sdk : Sdk) (settings : Settings)
    (inputs : List Input) :
    (Always (appStep o sdk) (appMain o settings) inputs fun _ e => Consented o sdk e) ↔
      Always (appStep o sdk) (appMain o settings) inputs fun _ e => InTable e.input := by
  constructor
  · intro h
    refine (always_of_invariant (I := fun _ _ => True) trivial
      (fun _ _ _ _ _ _ _ => trivial) h).mono ?_
    rintro pre e ⟨he, -, hc⟩
    rw [he] at hc
    exact inTable_of_consented hc
  · intro h
    refine (always_of_invariant (I := fun _ g => Globals.Wired g) (appMain_wired settings)
      (fun _ _ _ _ _ hg => appStep_wired hg) h).mono ?_
    rintro pre e ⟨he, hg, hi⟩
    rw [he]
    exact event_consented hg hi

/-! ### A signature without consent -/

/-- A message is sent and its prompt raised; then comes a command with instruction 10. -/
def callbackRun : List Input :=
  [.apdu 0x80 insSignMessage ⟨p1First, 0 :: samplePath, []⟩ [],
    .apdu 0x80 insSignMessage ⟨p1Next ||| p1LastMarker, sampleMessage, []⟩ [],
    .apdu 0x80 10 ⟨0, [], []⟩ []]

/-- The command calls `sign_message_ok`, which signs: the user was not asked. -/
theorem callbackRun_signs :
    ((trace (appStep .separate sampleSdk) (appMain .separate {}) callbackRun).map (·.report))[2]? =
        some { callee := some (.callback .signMessageOk)
               performed := some (.signed ⟨3, #v[0x8000002C, 0x80000135, 0x80000000, 0, 0]⟩
                 sampleMessageHash.toList) } ∧
      ¬ Always (appStep .separate sampleSdk) (appMain .separate {}) callbackRun
        fun _ e => Consented .separate sampleSdk e := by
  refine ⟨by decide +kernel, fun h => ?_⟩
  have hlast : ∃ pre e, trace (appStep .separate sampleSdk) (appMain .separate {}) callbackRun =
      pre ++ [e] ∧ e.report.callee = some (.callback .signMessageOk) :=
    ⟨[_, _], _, rfl, by decide +kernel⟩
  obtain ⟨pre, e, he, hcallee⟩ := hlast
  obtain ⟨i, hi, hc⟩ := (h pre e [] he).callee _ hcallee
  cases hc

end NervosLedger
