import NervosLedger.Core

/-!
# What lock arguments are compared with

In an exchange of a transaction, the pieces of a lock argument come when there is something to
compare them with, so an empty piece changes nothing.
-/
namespace NervosLedger
open Molecule
namespace SignState

/-- There is something to compare a lock argument with. -/
def Compared (g : SignState) : Prop := g.cell.active = true → g.lockArgCmp ≠ .null

/-- What `Compared` speaks of is as it was. -/
def SameCompared (g g' : SignState) : Prop :=
  g'.cell.active = g.cell.active ∧ g'.lockArgCmp = g.lockArgCmp

theorem Compared.congr {g g' : SignState} (h : g.Compared) (hs : SameCompared g g') :
    g'.Compared := by
  intro ha
  rw [hs.2]
  exact h (hs.1 ▸ ha)

/-- The calls that choose the cell, or what its lock argument is compared with. -/
def Chooses : SignEvent → Prop
  | .inputStart | .sourceOutputsIndex _ | .sourceDataIndex _ | .outputsIndex _
  | .sourceCell .lockArgsStart | .outputCell .lockArgsStart => True
  | _ => False

theorem runCell_compared (env : Env) (g : SignState) {e : CellEvent} (he : e ≠ .lockArgsStart) :
    SameCompared g (runCell env e g) := by
  cases e with
  | capacity buf =>
    simp only [runCell, cellCapacity]
    split <;> exact ⟨rfl, rfl⟩
  | lockCodeHash buf =>
    simp only [runCell, cellLockCodeHash]
    split_ifs <;> exact ⟨rfl, rfl⟩
  | lockHashType hashType =>
    simp only [runCell, cellScriptHashType]
    split_ifs <;> exact ⟨rfl, rfl⟩
  | typeHashType hashType =>
    simp only [runCell, cellScriptHashType]
    split_ifs <;> exact ⟨rfl, rfl⟩
  | lockArgsStart => exact absurd rfl he
  | lockArgs buf following =>
    simp only [runCell, scriptArgChunk]
    split_ifs <;> exact ⟨rfl, rfl⟩
  | typeCodeHash buf =>
    simp only [runCell, cellTypeCodeHash]
    split_ifs <;> exact ⟨rfl, rfl⟩
  | lockEnd => exact ⟨rfl, rfl⟩
  | typeArgsSize size => exact ⟨rfl, rfl⟩

theorem runCallback_compared (env : Env) (g : SignState) {e : SignEvent} (he : ¬ Chooses e) :
    SameCompared g (runCallback env e g) := by
  cases e with
  | inputsLength length =>
    simp only [runCallback, blake2bInputCount]
    split <;> exact ⟨rfl, rfl⟩
  | sourceCell e =>
    refine runCell_compared env g ?_
    rintro rfl
    exact he trivial
  | outputCell e =>
    refine runCell_compared env g ?_
    rintro rfl
    exact he trivial
  | sourceDataChunk buf following =>
    simp only [runCallback, checkCellDataDataChunk]
    split <;> exact ⟨rfl, rfl⟩
  | dataChunk buf following =>
    simp only [runCallback, checkCellDataDataChunk]
    split <;> exact ⟨rfl, rfl⟩
  | witnessesIndex index =>
    simp only [runCallback, beginWitness]
    split <;> exact ⟨rfl, rfl⟩
  | witnessChunk buf following =>
    have hw := processWitness_alike env g buf following
    have hcell : (processWitness env buf following g).flagless.cell.active =
        g.flagless.cell.active := by rw [hw]
    have hcmp : (processWitness env buf following g).flagless.lockArgCmp =
        g.flagless.lockArgCmp := by rw [hw]
    exact ⟨hcell, hcmp⟩
  | _ => first | exact ⟨rfl, rfl⟩ | exact absurd trivial he

theorem askCallback_compared (env : Env) (g : SignState) (e : SignEvent) :
    SameCompared g (askCallback env e g).1 := by
  have hargs : ∀ n, SameCompared g (cellTypeArgLength env n g).1 := by
    intro n
    simp only [cellTypeArgLength]
    split_ifs <;> exact ⟨rfl, rfl⟩
  have hpath : ∀ n, SameCompared g (initBip32 n g).1 := by
    intro n
    simp only [initBip32]
    split_ifs <;> exact ⟨rfl, rfl⟩
  have hdata : ∀ n, SameCompared g (setCellDataSize n g).1 := by
    intro n
    simp only [setCellDataSize]
    split <;> exact ⟨rfl, rfl⟩
  cases e with
  | signPathSize size => exact hpath size
  | changePathSize size => exact hpath size
  | sourceCell e => cases e <;> first | exact hargs _ | exact ⟨rfl, rfl⟩
  | outputCell e => cases e <;> first | exact hargs _ | exact ⟨rfl, rfl⟩
  | sourceDataSize size => exact hdata size
  | dataSize size => exact hdata size
  | witnessSize size =>
    simp only [askCallback, hashWitnessLength]
    split_ifs <;> exact ⟨rfl, rfl⟩
  | _ => exact ⟨rfl, rfl⟩

theorem finalizeTag_compared (g : SignState) : SameCompared g g.finalizeTag.1 := by
  unfold finalizeTag
  cases g.v.tag <;> first | exact ⟨rfl, rfl⟩ | (dsimp only; split_ifs <;> exact ⟨rfl, rfl⟩)

theorem endCallback_compared (env : Env) (g : SignState) (e : SignEvent) :
    SameCompared g (endCallback env e g).1 := by
  cases e with
  | signPathEnd =>
    simp only [endCallback, setSignPath]
    split <;> exact ⟨rfl, rfl⟩
  | changePathEnd =>
    simp only [endCallback, setChangePath]
    split <;> exact ⟨rfl, rfl⟩
  | sourceCell e =>
    cases e with
    | lockEnd =>
      simp only [endCallback, inputLockArgEnd]
      split_ifs <;> exact ⟨rfl, rfl⟩
    | _ => exact ⟨rfl, rfl⟩
  | sourceDataEnd =>
    simp only [endCallback, finishInputCellData]
    split_ifs <;> exact ⟨rfl, rfl⟩
  | outputEnd =>
    simp only [endCallback, outputEnd, daoOutputEnd, plainOutputEnd]
    split_ifs <;> exact ⟨rfl, rfl⟩
  | outputsEnd =>
    simp only [endCallback, outputsEnd]
    split_ifs <;> exact ⟨rfl, rfl⟩
  | dataEnd =>
    simp only [endCallback, finishOutputCellData]
    split_ifs <;> exact ⟨rfl, rfl⟩
  | rawEnd =>
    have hsame := finalizeTag_compared g
    simp only [endCallback, finalizeRawTransaction]
    generalize g.finalizeTag = x at hsame ⊢
    obtain ⟨g', _ | _⟩ := x <;> exact hsame
  | witnessEnd =>
    simp only [endCallback, processWitnessEnd]
    split <;> exact ⟨rfl, rfl⟩
  | _ => exact ⟨rfl, rfl⟩

/-! ### A guard beside the callbacks -/

/-- Whether there is something to compare with, and whether a piece came when there was not. -/
structure ArgsGuard where
  started : Bool := false
  loose : Bool := false

/-- The guard's own callbacks. -/
def guardRun : SignEvent → ArgsGuard → ArgsGuard
  | .sourceCell .lockArgsStart | .outputsIndex _ => fun z => { z with started := true }
  | .sourceOutputsIndex _ | .sourceDataIndex _ => fun z => { z with started := false }
  | .sourceCell (.lockArgs _ _) | .outputCell (.lockArgs _ _) =>
    fun z => { z with loose := z.loose || !z.started }
  | _ => id

def guardHandler : Handler SignEvent ArgsGuard Exc :=
  ⟨guardRun, fun _ z => (z, true), fun _ z => (z, none)⟩

/-- The guard has seen every loose piece. -/
structure Guarded (y : SignState × SignLog) (z : ArgsGuard) : Prop where
  loose : Loose y.2 → z.loose = true
  compared : z.started = true → y.1.Compared

theorem guard_deaf : Deaf guardHandler where
  cellDeps _ _ := rfl
  headerDeps _ _ := rfl
  source _ _ := rfl
  outputs _ _ := rfl
  dataVec _ _ := rfl
  sourceArgs a b x y z g := by simp [guardHandler, guardRun]
  outputArgs a b x y z g := by simp [guardHandler, guardRun]
  sourceData _ _ _ _ _ _ := rfl
  outputData _ _ _ _ _ _ := rfl
  witness _ _ _ _ _ _ := rfl

variable {sdk : Sdk}

theorem Guarded.append {y : SignState × SignLog} {z : ArgsGuard} (h : Guarded y z) {s : Slot}
    {e : SignEvent} (hs : s ≠ .void) {g' : SignState} (hg : SameCompared y.1 g') :
    Guarded (g', y.2 ++ [⟨s, e, y.1⟩]) z where
  loose := by
    rintro ⟨c, hc, hv, hrest⟩
    rcases List.mem_append.mp hc with hc | hc
    · exact h.loose ⟨c, hc, hv, hrest⟩
    · rw [List.mem_singleton.mp hc] at hv
      exact absurd hv hs
  compared hz := (h.compared hz).congr hg

theorem guardRun_other {e : SignEvent} (hc : ¬ Chooses e) (ha : ¬ IsArgs e) (z : ArgsGuard) :
    guardRun e z = z := by
  cases e with
  | sourceCell e =>
    cases e with
    | lockArgsStart => exact absurd trivial hc
    | lockArgs bs f => exact absurd ⟨bs, f, .inl rfl⟩ ha
    | _ => rfl
  | outputCell e =>
    cases e with
    | lockArgs bs f => exact absurd ⟨bs, f, .inr rfl⟩ ha
    | _ => rfl
  | _ => first | rfl | exact absurd trivial hc

theorem loose_concat {l : SignLog} {s : Slot} {e : SignEvent} {g : SignState}
    (h : Loose (l ++ [⟨s, e, g⟩])) : Loose l ∨ IsArgs e ∧ ¬ g.Compared := by
  obtain ⟨c, hc, hv, ha, hactive, hnull⟩ := h
  rcases List.mem_append.mp hc with hc | hc
  · exact .inl ⟨c, hc, hv, ha, hactive, hnull⟩
  · obtain rfl := List.mem_singleton.mp hc
    exact .inr ⟨ha, fun hcmp => hcmp hactive hnull⟩

theorem runCallback_chooses (env : Env) {g : SignState} {e : SignEvent} (hc : Chooses e)
    (z : ArgsGuard) (hz : (guardRun e z).started = true) : (runCallback env e g).Compared := by
  have hstart : (scriptArgStartInput g).Compared := by
    unfold scriptArgStartInput
    split
    · rename_i ha
      intro hactive
      rw [hactive] at ha
      cases ha
    · exact fun _ => nofun
  cases e with
  | inputStart => exact fun hactive => nomatch hactive
  | sourceOutputsIndex index => cases hz
  | sourceDataIndex index => cases hz
  | outputsIndex index => exact fun _ => nofun
  | sourceCell e =>
    cases e with
    | lockArgsStart => exact hstart
    | _ => exact hc.elim
  | outputCell e =>
    cases e with
    | lockArgsStart => exact hstart
    | _ => exact hc.elim
  | _ => exact hc.elim

theorem not_chooses_of_isArgs {e : SignEvent} (h : IsArgs e) : ¬ Chooses e := by
  obtain ⟨bs, f, rfl | rfl⟩ := h <;> exact id

theorem guardRun_loose {e : SignEvent} (h : ¬ IsArgs e) (z : ArgsGuard) :
    (guardRun e z).loose = z.loose := by
  cases e with
  | sourceCell e =>
    cases e with
    | lockArgs bs f => exact absurd ⟨bs, f, .inl rfl⟩ h
    | _ => rfl
  | outputCell e =>
    cases e with
    | lockArgs bs f => exact absurd ⟨bs, f, .inr rfl⟩ h
    | _ => rfl
  | _ => rfl

theorem guardRun_args {e : SignEvent} (h : IsArgs e) (z : ArgsGuard) :
    guardRun e z = { z with loose := z.loose || !z.started } := by
  obtain ⟨bs, f, rfl | rfl⟩ := h <;> rfl

theorem Guarded.run {y : SignState × SignLog} {z : ArgsGuard} (h : Guarded y z) (env : Env)
    (e : SignEvent) :
    Guarded (runCallback env e y.1, y.2 ++ [⟨.void, e, y.1⟩]) (guardRun e z) := by
  by_cases ha : IsArgs e
  · rw [guardRun_args ha]
    constructor
    · intro hl
      rcases loose_concat hl with hl | ⟨-, hcmp⟩
      · simp [h.loose hl]
      · cases hz : z.started with
        | false => simp
        | true => exact absurd (h.compared hz) hcmp
    · exact fun hz => (h.compared hz).congr
        (runCallback_compared env y.1 (not_chooses_of_isArgs ha))
  · constructor
    · intro hl
      rw [guardRun_loose ha]
      exact h.loose ((loose_concat hl).resolve_right fun hl => ha hl.1)
    · intro hz
      by_cases hc : Chooses e
      · exact runCallback_chooses env hc z hz
      · rw [guardRun_other hc ha] at hz
        exact (h.compared hz).congr (runCallback_compared env y.1 hc)

theorem guard_mirrors (sdk : Sdk) : Mirrors sdk guardHandler Guarded {} where
  sim x := by
    refine Reader.every_of_forall (fun e => ?_) _
    exact ⟨fun h => h.run (x.env sdk) e,
      fun {y _} h _ => ⟨rfl, h.append (by decide) (askCallback_compared (x.env sdk) y.1 e)⟩,
      fun {y _} h _ => ⟨rfl, h.append (by decide) (endCallback_compared (x.env sdk) y.1 e)⟩,
      fun _ _ => trivial⟩
  restack _ h := ⟨h.loose, h.compared⟩
  fresh := by
    refine ⟨?_, nofun⟩
    rintro ⟨c, hc, -⟩
    cases hc

/-! ### The guard of a transaction -/

/-- The calls show the guard nothing loose. -/
def Tight (es : List (Note SignEvent)) : Prop :=
  ∀ z : ArgsGuard, z.loose = false → (guardHandler.replay es z).loose = false

theorem Tight.append {es es' : List (Note SignEvent)} (h : Tight es) (h' : Tight es') :
    Tight (es ++ es') := by
  intro z hz
  rw [Handler.replay_append]
  exact h' _ (h z hz)

theorem Tight.notes {es : List (Note SignEvent)} (h : ∀ n ∈ es, ¬ IsArgs n.2) : Tight es := by
  induction es with
  | nil => exact fun z hz => hz
  | cons n es ih =>
    intro z hz
    rw [Handler.replay_cons]
    refine ih (fun m hm => h m (List.mem_cons_of_mem n hm)) _ ?_
    have hn := h n List.mem_cons_self
    obtain ⟨s, e⟩ := n
    cases s with
    | void => exact (guardRun_loose hn z).trans hz
    | size => exact hz
    | close => exact hz

theorem Tight.itemNotes {after : ℕ → List (Note SignEvent)} (hafter : ∀ k, Tight (after k))
    {ess : List (List (Note SignEvent))} (h : ∀ es ∈ ess, Tight es) (k : ℕ) :
    Tight (itemNotes after k ess) := by
  induction ess generalizing k with
  | nil => exact fun z hz => hz
  | cons es ess ih =>
    exact ((h es List.mem_cons_self).append (hafter _)).append
      (ih (fun es' he => h es' (List.mem_cons_of_mem es he)) _)

theorem not_isArgs_index {index : ℕ → SignEvent} (hindex : ∀ k, ¬ IsArgs (index k)) (k : ℕ) :
    Tight [(.void, index k)] :=
  .notes fun _ hn => List.mem_singleton.mp hn ▸ hindex k

theorem Tight.indexedNotes {index : ℕ → SignEvent} (hindex : ∀ k, ¬ IsArgs (index k))
    {ess : List (List (Note SignEvent))} (h : ∀ es ∈ ess, Tight es) :
    Tight (indexedNotes index ess) := by
  unfold NervosLedger.indexedNotes
  split
  · exact fun z hz => hz
  · exact (not_isArgs_index hindex 0).append (Tight.itemNotes (not_isArgs_index hindex) h 0)

theorem isArgs_iff {e : SignEvent} : IsArgs e ↔
    (∃ bs f, e = .sourceCell (.lockArgs bs f)) ∨ ∃ bs f, e = .outputCell (.lockArgs bs f) := by
  simp only [IsArgs, exists_or]

theorem tight_sourceCell (c : CellOutput) : Tight c.sourceNotes := by
  intro z hz
  have htype : Tight (typeNotes .sourceCell c.type) := by
    refine .notes fun n hn => ?_
    cases ht : c.type with
    | none => simp [typeNotes, ht] at hn
    | some s =>
      simp only [typeNotes, ht, List.mem_cons, List.not_mem_nil, or_false] at hn
      rcases hn with rfl | rfl | rfl <;> simp [isArgs_iff]
  rw [CellOutput.sourceNotes, Handler.replay_append]
  refine htype _ ?_
  unfold argsNotes
  split <;> simp [Handler.apply, guardHandler, guardRun, hz]

/-- The notes of an output are tight if the comparison was set up. -/
theorem tight_output (c : CellOutput) {z : ArgsGuard} (hs : z.started = true)
    (hz : z.loose = false) : (guardHandler.replay c.notes z).loose = false := by
  have htail : Tight (typeNotes .outputCell c.type ++ [(.close, .outputEnd)]) := by
    refine Tight.append (.notes fun n hn => ?_) (.notes fun n hn => ?_)
    · cases ht : c.type with
      | none => simp [typeNotes, ht] at hn
      | some s =>
        simp only [typeNotes, ht, List.mem_cons, List.not_mem_nil, or_false] at hn
        rcases hn with rfl | rfl | rfl <;> simp [isArgs_iff]
    · rw [List.mem_singleton.mp hn]
      simp [isArgs_iff]
  rw [CellOutput.notes, List.append_assoc, Handler.replay_append]
  refine htail _ ?_
  unfold argsNotes
  split <;> simp [Handler.apply, guardHandler, guardRun, hz, hs]

theorem tight_outputItems (cs : List CellOutput) (k : ℕ) {z : ArgsGuard} (hs : z.started = true)
    (hz : z.loose = false) : (guardHandler.replay
      (itemNotes (fun k => [(.void, .outputsIndex k)]) k (cs.map CellOutput.notes)) z).loose =
        false := by
  induction cs generalizing k z with
  | nil => exact hz
  | cons c cs ih =>
    rw [List.map_cons, itemNotes, Handler.replay_append, Handler.replay_append]
    exact ih (k + 1) rfl (tight_output c hs hz)

theorem tight_outputs (cs : List CellOutput) :
    Tight (indexedNotes .outputsIndex (cs.map CellOutput.notes)) := by
  intro z hz
  unfold indexedNotes
  split
  · exact hz
  · rw [Handler.replay_cons]
    exact tight_outputItems cs 0 rfl hz

theorem tight_data {size : ℕ → SignEvent} {body : List UInt8 → List UInt8 → SignEvent}
    {finish : SignEvent} (hbody : ∀ bs f, ¬ IsArgs (body bs f)) (hsize : ∀ n, ¬ IsArgs (size n))
    (hfinish : ¬ IsArgs finish) (d : List UInt8) : Tight (itemDataNotes size body finish d) := by
  refine .notes fun n hn => ?_
  unfold itemDataNotes at hn
  split at hn <;> simp only [List.cons_append, List.nil_append, List.mem_cons, List.not_mem_nil,
    or_false] at hn
  · rcases hn with rfl | rfl
    · exact hsize _
    · exact hfinish
  · rcases hn with rfl | rfl | rfl
    · exact hsize _
    · exact hbody _ _
    · exact hfinish

theorem tight_input (i : AnnotatedCellInput) : Tight i.notes := by
  refine Tight.append (.notes ?_) (Tight.append (Tight.append
    (Tight.indexedNotes ?_ (forall_mem_map tight_sourceCell _)) (Tight.indexedNotes ?_
      (forall_mem_map (tight_data ?_ ?_ ?_) _))) (.notes ?_)) <;> simp [isArgs_iff]

theorem tight_path {size : ℕ → SignEvent} {item : FixedBytes 4 → SignEvent} {finish : SignEvent}
    (hsize : ∀ n, ¬ IsArgs (size n)) (hitem : ∀ c, ¬ IsArgs (item c)) (hfinish : ¬ IsArgs finish)
    (cs : List (FixedBytes 4)) : Tight (pathNotes size item finish cs) := by
  refine .notes fun n hn => ?_
  simp only [pathNotes, List.cons_append, List.mem_cons, List.mem_append, List.mem_map,
    List.not_mem_nil, or_false] at hn
  rcases hn with rfl | ⟨c, -, rfl⟩ | rfl
  · exact hsize _
  · exact hitem c
  · exact hfinish

/-- No piece of a transaction is loose. -/
theorem tight_notes (t : AnnotatedTransaction) : Tight t.notes := by
  have hinputs : Tight (inputsNotes t.raw.inputs) := by
    have hstart : Tight [(.void, .inputsStart)] := .notes (by simp [isArgs_iff])
    refine hstart.append (Tight.append ?_ (.notes (by simp [isArgs_iff])))
    split
    · exact fun z hz => hz
    · refine Tight.append (.notes ?_) (Tight.itemNotes (fun _ => .notes ?_)
        (forall_mem_map tight_input _) 0) <;> simp [isArgs_iff]
  have houtputs : Tight (outputsNotes t.raw.outputs) :=
    (tight_outputs _).append (.notes (by simp [isArgs_iff]))
  have hdata : Tight (outputsDataNotes t.raw.outputsData) := by
    refine Tight.append (Tight.indexedNotes ?_ (forall_mem_map (tight_data ?_ ?_ ?_) _))
      (.notes ?_) <;> simp [isArgs_iff]
  have hraw : Tight t.raw.notes := by
    refine (((Tight.append (.notes ?_) hinputs).append houtputs).append hdata).append (.notes ?_) <;>
      simp [isArgs_iff]
  have hwitnesses : Tight (witnessesNotes t.witnesses) := by
    refine Tight.append (Tight.indexedNotes ?_ (forall_mem_map (tight_data ?_ ?_ ?_) _))
      (.notes ?_) <;> simp [isArgs_iff]
  have hcount : Tight [(.void, .inputCount t.inputCount)] := .notes (by simp [isArgs_iff])
  have hsign : Tight (pathNotes .signPathSize .signPathItem .signPathEnd t.signPath) := by
    refine tight_path ?_ ?_ ?_ _ <;> simp [isArgs_iff]
  have hchange : Tight (pathNotes .changePathSize .changePathItem .changePathEnd t.changePath) := by
    refine tight_path ?_ ?_ ?_ _ <;> simp [isArgs_iff]
  exact (((hsign.append hchange).append hcount).append hraw).append hwitnesses

/-! ### An accepted transaction -/

/-- In a complete exchange of a transaction, lock arguments are compared with something. -/
theorem Completes.not_loose {sent : List Sent} (hc : Completes sdk sent) {t : AnnotatedTransaction}
    (hfit : t.Fits) (hp : payload sent = t.encode) : ¬ Loose (logOf sdk sent) := by
  obtain ⟨es, rest, hscan, hguard⟩ := (guard_mirrors sdk).completes guard_deaf.silent.fluid hc
  have hreads := annotatedTransaction_reads hfit []
  rw [List.append_nil, ← hp, hscan, Option.some.injEq, Prod.mk.injEq] at hreads
  obtain ⟨rfl, -⟩ := hreads
  intro hl
  have hloose := hguard.loose hl
  rw [tight_notes t {} rfl] at hloose
  cases hloose

/-- The core of an accepted transaction is that of the calls in its log. -/
theorem Accepts.matches {sent : List Sent} (ha : Accepts sdk sent) {t : AnnotatedTransaction}
    (hfit : t.Fits) (hp : payload sent = t.encode) : Matches sdk (feedAll sdk sent) := by
  have hl := ha.completes.not_loose hfit hp
  rcases (feedAll_followed sdk sent).cases with hr | hloose | hm
  · rcases hr with hr | hr
    · rw [ha.isUnsafe] at hr
      cases hr
    · rw [ha.hardReject] at hr
      cases hr
  · exact absurd hloose hl
  · exact hm

end SignState
end NervosLedger
