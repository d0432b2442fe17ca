import NervosLedger.HandlerCases

/-!
# What a step of the application can do

The cases of a step, and the wiring of the prompt on the screen to the callbacks that the answer
runs.
-/
namespace NervosLedger
open Molecule Machine

section Loop
variable {M : Type} (o : Overlay M) (sdk : Sdk)

/-- A step from `g` on an input, with its report and the globals after it. -/
inductive Stepped (g : Globals M) : Input → Report × Option (Globals M) → Prop
  | ignored {i} : Stepped g i ({}, some g)
  | handled {ins p stack} (h : ins.toNat < insMax + 1) :
    Stepped g (.apdu 0x80 ins p stack)
      ({ callee := some (.handler handlers[ins.toNat]),
         outcome := some (handlers[ins.toNat].run o sdk g.settings ins p stack g.u).2 },
        some (g.handled (handlers[ins.toNat].run o sdk g.settings ins p stack g.u)))
  | beyond {ins p stack f} (h : insMax + 1 ≤ ins.toNat) (hs : ins.toNat < sizeofHandlers)
      (hw : g.fetch ins = .callback f)
      (hf : g.okCallback = some f ∨ g.cxlCallback = some f) :
    Stepped g (.apdu 0x80 ins p stack)
      ({ callee := some (.callback f), performed := (f.run o sdk g.u).2 },
        some { g with u := (f.run o sdk g.u).1 })
  | wild {ins p stack} (h : insMax + 1 ≤ ins.toNat) (hs : ins.toNat < sizeofHandlers) :
    Stepped g (.apdu 0x80 ins p stack) ({ callee := some .wild }, none)
  | answered {accepted q f} (hd : g.displayed = some q)
      (hf : (if accepted then g.okCallback else g.cxlCallback) = some f) :
    Stepped g (.promptResponse accepted)
      ({ performed := (f.run o sdk g.u).2 },
        some { g with displayed := none, u := (f.run o sdk g.u).1 })
  | unwired {accepted q} (hd : g.displayed = some q)
      (hf : (if accepted then g.okCallback else g.cxlCallback) = none) :
    Stepped g (.promptResponse accepted) ({}, some { g with displayed := none })
  | configured {settings} : Stepped g (.configure settings) ({}, some { g with settings })

variable {o sdk}

theorem Globals.fetch_of_lt {g : Globals M} {ins : UInt8} (h : ins.toNat < insMax + 1) :
    g.fetch ins = .handler handlers[ins.toNat] := dif_pos h

theorem Globals.fetch_of_ge {g : Globals M} {ins : UInt8} (h : insMax + 1 ≤ ins.toNat) :
    g.fetch ins = .wild ∨
      ∃ f, g.fetch ins = .callback f ∧ (g.okCallback = some f ∨ g.cxlCallback = some f) := by
  unfold fetch
  rw [dif_neg (not_lt_of_ge h)]
  split
  · cases hf : g.okCallback with
    | none => exact .inl rfl
    | some f => exact .inr ⟨f, rfl, .inl rfl⟩
  · cases hf : g.cxlCallback with
    | none => exact .inl rfl
    | some f => exact .inr ⟨f, rfl, .inr rfl⟩
  · exact .inl rfl

variable (o sdk) in
theorem stepped (g : Globals M) (i : Input) : Stepped o sdk g i (appStep o sdk g i) := by
  cases i with
  | badLength => exact .ignored
  | configure settings => exact .configured
  | promptResponse accepted =>
    cases hd : g.displayed with
    | none => simpa [appStep, promptResponse, hd] using Stepped.ignored
    | some q =>
      cases hf : (if accepted then g.okCallback else g.cxlCallback) with
      | none => simpa [appStep, promptResponse, hd, hf] using Stepped.unwired hd hf
      | some f => simpa [appStep, promptResponse, hd, hf] using Stepped.answered hd hf
  | apdu cla ins p stack =>
    simp only [appStep, mainLoop]
    split
    · exact .ignored
    · rename_i hc
      have hcla : cla = 0x80 := not_not.mp hc
      subst hcla
      split
      · exact .ignored
      · rename_i hs
        rcases lt_or_ge ins.toNat (insMax + 1) with h | h
        · rw [Globals.fetch_of_lt h]
          exact .handled h
        · rcases Globals.fetch_of_ge (g := g) h with hw | ⟨f, hw, hf⟩
          · rw [hw]
            exact .wild h (not_le.mp hs)
          · have hb : Stepped o sdk g (.apdu 0x80 ins p stack) _ :=
              .beyond h (not_le.mp hs) hw hf
            rwa [hw]

theorem ApduHandler.run_sets {settings : Settings} {ins : UInt8} {p : Packet}
    {stack : List UInt8} {f : ApduHandler} {m : M} {q : Prompt}
    (h : (f.run o sdk settings ins p stack m).2 = .prompted q) : f.Sets q := by
  cases f with
  | handleApduError => cases h
  | handleApduVersion => cases h
  | handleApduGit => cases h
  | handleApduGetWalletId =>
    unfold run getWalletId at h
    dsimp only at h
    split at h <;> cases h
  | handleApduGetPublicKey => exact PubkeyState.handleApdu_sets h
  | handleApduAccountImport => exact PubkeyState.handleAccountImport_sets h
  | handleApduSign => exact SignState.handleApdu_sets h
  | handleApduSignMessage => exact SignMessageState.handleApdu_sets h
  | handleApduSignMessageHash => exact SignMessageHashState.handleApdu_sets h

/-- The prompt on the screen is one that a handler raised, and an answer to it runs the
callbacks it set. -/
def Globals.Wired (g : Globals M) : Prop :=
  ∀ p ∈ g.displayed, (∃ f : ApduHandler, f.Sets p) ∧ g.okCallback = some p.okCallback ∧
    g.cxlCallback = some p.cxlCallback

theorem appMain_wired (settings : Settings) : (appMain o settings).Wired := nofun

theorem Globals.handled_wired {g : Globals M} {f : ApduHandler} {x : M × Outcome} (hg : g.Wired)
    (hx : ∀ q, x.2 = .prompted q → f.Sets q) : (g.handled x).Wired := by
  obtain ⟨u, oc⟩ := x
  cases oc with
  | replied => exact hg
  | threw e => exact hg
  | prompted p =>
    intro q hq
    cases hq
    exact ⟨⟨f, hx p rfl⟩, rfl, rfl⟩

theorem appStep_wired {g g' : Globals M} {i : Input} (hg : g.Wired)
    (h : (appStep o sdk g i).2 = some g') : g'.Wired := by
  have hs := stepped o sdk g i
  generalize appStep o sdk g i = x at hs h
  cases hs with
  | ignored =>
    cases h
    exact hg
  | handled =>
    cases h
    exact Globals.handled_wired hg fun q => ApduHandler.run_sets
  | beyond =>
    cases h
    exact hg
  | wild => cases h
  | answered =>
    cases h
    nofun
  | unwired =>
    cases h
    nofun
  | configured =>
    cases h
    exact hg

end Loop
end NervosLedger
