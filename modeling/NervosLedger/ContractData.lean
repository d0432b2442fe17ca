import NervosLedger.Counted
import NervosLedger.ToString

/-!
# Contract data

The data of cells that are not the DAO's are counted wherever they come, but only a plain transfer
has a screen that says so.
-/
namespace NervosLedger
open Molecule Machine

/-- A cell that is not the DAO's, and that has data. -/
def HasData (c : Option CellOutput) (d : Option (List UInt8)) : Prop :=
  (∃ cell, c = some cell ∧ cell.isDao = false) ∧ ∃ bs, d = some bs ∧ bs ≠ []

/-- An input spends a cell with contract data, or an output is one. -/
def AnnotatedTransaction.HasContractData (t : AnnotatedTransaction) : Prop :=
  (∃ i ∈ t.raw.inputs, HasData i.cell i.data) ∨
    ∃ k : ℕ, HasData t.raw.outputs[k]? t.raw.outputsData[k]?

namespace SignState

/-- The tag is not that of a transfer with one destination, so it stays. -/
def Tagged (g : SignState) : Prop := g.v.tag ≠ .notSet ∧ g.v.tag ≠ .plainTransfer

theorem inputs_contract {is : List AnnotatedCellInput} {g g' : SignState}
    (h : Steps InputCounted is g g') :
    g'.v.contractUnknown = (g.v.contractUnknown || is.any (·.hasContractData)) := by
  induction h with
  | nil => simp
  | cons h _ ih => rw [ih, h.contractUnknown, List.any_cons, Bool.or_assoc]

theorem OutputAdds.contract {env : Env} {r g : SignState} (h : OutputAdds env r g) :
    g.v.contractUnknown = r.v.contractUnknown := by
  cases h <;> rfl

theorem outputs_contract {env : Env} {xs : List (CellOutput × ℕ)} {y y' : Ended}
    (h : Steps (OutputDone env) xs y y') : y'.1.v.contractUnknown = y.1.v.contractUnknown := by
  induction h with
  | nil => rfl
  | cons h _ ih =>
    obtain ⟨r, g, -, hr, hg, rfl⟩ := h
    exact ih.trans (hg.contract.trans (by rw [hr.v]))

theorem OutputsEnded.v {g g' : SignState} (h : OutputsEnded g g') :
    g'.v.tag = g.v.tag ∧ g'.v.contractUnknown = g.v.contractUnknown := by
  cases h <;> exact ⟨rfl, rfl⟩

/-- Where no item of data was the DAO's, all were counted. -/
theorem data_contract {env : Env} {xs : List (List UInt8 × ℕ)} {y y' : Ended}
    (h : Steps (DataDone env) xs y y') (ht : ¬ Tagged y'.1) :
    y'.1.v.contractUnknown = (y.1.v.contractUnknown || xs.any (·.1 ≠ [])) ∧ ¬ Tagged y.1 := by
  induction h with
  | nil => exact ⟨by simp, ht⟩
  | @cons x xs y y₁ y' h _ ih =>
    obtain ⟨hrest, htag⟩ := ih ht
    obtain ⟨r, g, hr, hg, rfl⟩ := h
    have hv : r.v = y.1.v := by rw [hr.rest]
    cases hg with
    | dao _ _ _ =>
      refine absurd ⟨?_, ?_⟩ htag
      all_goals
        change outputTag r.cell.daoDataIsNonzero ≠ _
        unfold outputTag
        split <;> exact nofun
    | plain _ =>
      have hdata : decide (0 < r.cell.dataSize) = decide (x.1 ≠ []) := by
        rw [hr.dataSize]
        cases x.1 <;> simp
      refine ⟨?_, ?_⟩
      · rw [hrest, List.any_cons, ← hdata, ← hv, ← Bool.or_assoc]
        rfl
      · rwa [Tagged, ← hv]

theorem signComplete_screens {env : Env} {g : SignState} {ins : UInt8} {q : Prompt}
    (h : g.signComplete env ins = .ok q) : g.signScreens env = .ok q.screens := by
  simp only [signComplete] at h
  cases hs : g.signScreens env with
  | error e =>
    rw [hs] at h
    cases h
  | ok screens =>
    rw [hs] at h
    rw [uiPrompt_eq_ok h]

/-- The screen that announces contract data. -/
def contractScreen : Screen := ⟨"Contract", .contractType true⟩

/-- Of the two values of a contract screen, the one that announces contract data reads "Present". -/
theorem contractType_prints (unknown : Bool) (b : Buffer UInt8) :
    (contractTypeToStringIndirect 0 (valueWidth + 1) unknown b).2 = none ∧
      (Prints (contractTypeToStringIndirect 0 (valueWidth + 1) unknown b).1 0 contractTypePresent ↔
        (⟨"Contract", .contractType unknown⟩ : Screen) = contractScreen) := by
  cases unknown with
  | true =>
    have hpresent : 0 ∉ contractTypePresent := by decide
    exact ⟨rfl, iff_of_true (prints_copy hpresent 0 b) rfl⟩
  | false =>
    have hnot : 0 ∉ contractTypeNotPresent := by decide
    refine ⟨rfl, iff_of_false (fun h => ?_) (by simp [contractScreen])⟩
    have heq := h.unique (prints_copy hnot 0 b)
    exact absurd heq (by decide)

theorem contractScreen_iff {env : Env} {g : SignState} {screens : List Screen}
    (h : g.signScreens env = .ok screens) (hallow : env.settings.allowContractData = true) :
    contractScreen ∈ screens ↔ g.v.tag = .plainTransfer ∧ g.v.contractUnknown = true := by
  unfold signScreens at h
  cases ht : g.v.tag <;> rw [ht] at h <;> cases h
  case plainTransfer =>
    rw [hallow, if_pos rfl]
    have hother : ("Contract" : String) ≠ "Destination" := by decide
    simp only [contractScreen, List.mem_append, List.mem_cons, List.not_mem_nil, or_false,
      Screen.mk.injEq, reduceCtorEq, and_false, false_or, ScreenValue.contractType.injEq, true_and,
      hother, false_and]
    exact eq_comm
  all_goals simp [contractScreen, outputScreens]

variable {sdk : Sdk} {t : AnnotatedTransaction} {s : Stages sdk t}

theorem Finalized.tagged {g g' : SignState} (h : Finalized g g') (ht : g'.v.tag = .plainTransfer) :
    ¬ Tagged g := by
  rintro ⟨h₁, h₂⟩
  have htag := h.tag
  rw [ht] at htag
  unfold TaggedAs at htag
  cases hg : g.v.tag <;> rw [hg] at htag h₁ h₂ <;> simp at htag h₁ h₂

theorem mem_zipIdx_of_getElem {α : Type} {xs : List α} {k : ℕ} {x : α} (h : xs[k]? = some x) :
    (x, k) ∈ xs.zipIdx := List.mem_zipIdx_iff_getElem?.mpr h

/-- What a plain transfer has of contract data was counted. -/
theorem Stages.Passed.contract (h : s.Passed) (ht : s.final.v.tag = .plainTransfer)
    (hdata : t.HasContractData) : s.final.v.contractUnknown = true := by
  obtain ⟨hchecked, -⟩ := data_contract h.outputsData (h.finalized.tagged ht)
  rw [h.finalized.contractUnknown, hchecked, h.ended.v.2, outputs_contract h.outputs]
  rcases hdata with ⟨i, hi, ⟨c, hc, hdao⟩, d, hd, hne⟩ | ⟨k, -, d, hd, hne⟩
  · have hread : s.read.v.contractUnknown = true := by
      rw [inputs_contract h.inputs, Bool.or_eq_true, List.any_eq_true]
      refine .inr ⟨i, hi, ?_⟩
      simp [AnnotatedCellInput.hasContractData, AnnotatedCellInput.isDao, hc, hdao, hd, hne]
    rw [Bool.or_eq_true]
    exact .inl hread
  · rw [Bool.or_eq_true, List.any_eq_true]
    exact .inr ⟨(d, k), mem_zipIdx_of_getElem hd, by simpa using hne⟩

/-- Contract data are announced exactly in a plain transfer. -/
theorem contract_announced_iff {sent : List Sent} (ha : Accepts sdk sent) (hfit : t.Fits)
    (hp : payload sent = t.encode) {env : Env} {ins : UInt8} {q : Prompt}
    (hq : (accepted sdk sent).signComplete env ins = .ok q)
    (hallow : env.settings.allowContractData = true) :
    (t.HasContractData → contractScreen ∈ q.screens) ↔
      (t.HasContractData → (accepted sdk sent).v.tag = .plainTransfer) := by
  obtain ⟨s, hpassed, hcore, -, -⟩ := ha.passed hfit hp
  have hv : (feedAll sdk sent).1.core.v = s.final.core.v := by rw [hcore]
  have hv : (accepted sdk sent).v = s.final.v := hv
  rw [contractScreen_iff (signComplete_screens hq) hallow]
  constructor
  · exact fun h hdata => (h hdata).1
  · intro h hdata
    refine ⟨h hdata, ?_⟩
    rw [hv]
    exact hpassed.contract (hv ▸ h hdata) hdata

/-- Cells with one byte of data for some keys. -/
def dataTransaction (receivers : List UInt8) : AnnotatedTransaction :=
  sampleTransaction [sampleInput [sampleCell sampleLock 20000000001] [[]]]
    (receivers.map fun b => sampleCell (sighashLock (List.replicate 20 b)) 10000000000)
    (receivers.map fun b => [b]) [selfWitness.drop 8]

theorem dataTransaction_hasContractData (b : UInt8) (bs : List UInt8) :
    (dataTransaction (b :: bs)).HasContractData :=
  .inr ⟨0, ⟨_, rfl, rfl⟩, [b], rfl, by simp⟩

/-- The packets of the sample, with contract data allowed. -/
def dataPackets (receivers : List UInt8) : List Sent :=
  samplePackets { allowContractData := true } (dataTransaction receivers).encode

def dataEnv : Env := ⟨keySdk [], { allowContractData := true }, []⟩

/-- In a transfer to two keys, no screen says that the cells have data. -/
theorem dataTransaction_unannounced : ¬ ∀ (sdk : Sdk) (sent : List Sent) (t : AnnotatedTransaction)
    (env : Env) (ins : UInt8) (q : Prompt), Accepts sdk sent → t.Fits → payload sent = t.encode →
      (accepted sdk sent).signComplete env ins = .ok q → env.settings.allowContractData = true →
        t.HasContractData → contractScreen ∈ q.screens := by
  intro h
  obtain ⟨ha, q, hq, hshown⟩ := @prompts_of_run (keySdk []) (dataPackets [0x11, 0x22]) dataEnv
    insSign (fun _ q => decide (contractScreen ∉ q.screens)) (by decide +kernel)
    (by decide +kernel)
  exact of_decide_eq_true hshown (h _ _ (dataTransaction [0x11, 0x22]) _ _ q ha (by decide +kernel)
    (by decide +kernel) hq rfl (dataTransaction_hasContractData 0x11 [0x22]))

/-- In one to a single key, there is such a screen. -/
theorem dataTransaction_announced : ∃ q,
    (accepted (keySdk []) (dataPackets [0x11])).signComplete dataEnv insSign = .ok q ∧
      contractScreen ∈ q.screens := by
  obtain ⟨ha, q, hq, htag⟩ := @prompts_of_run (keySdk []) (dataPackets [0x11]) dataEnv insSign
    (fun g _ => decide (g.v.tag = .plainTransfer)) (by decide +kernel) (by decide +kernel)
  exact ⟨q, hq, (@contract_announced_iff _ (dataTransaction [0x11]) _ ha (by decide +kernel)
    (by decide +kernel) dataEnv insSign q hq rfl).mpr (fun _ => of_decide_eq_true htag)
      (dataTransaction_hasContractData 0x11 [])⟩

end SignState
end NervosLedger
