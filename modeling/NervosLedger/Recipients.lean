import NervosLedger.Fee

/-!
# Who is shown to be paid

Outputs with a lock that is not the change lock get an entry, and all entries of a transfer are
shown. The screens of a DAO operation have no destination.
-/
namespace NervosLedger
open Molecule Machine

/-- The screens of an entry: its address with its capacity. -/
def ShowsPayment (screens : List Screen) (o : Output) : Prop :=
  ⟨"Destination", o.address⟩ ∈ screens ∧ (⟨"Amount", .ckb o.capacity⟩ ∈ screens ∨
    ∃ own, ⟨"Amount", .ckbTuple own o.capacity⟩ ∈ screens) ∨
  ∃ title, ⟨title, .output o.capacity o.address⟩ ∈ screens

def OperationTag.IsDao (tag : OperationTag) : Prop :=
  tag = .daoDeposit ∨ tag = .daoPrepare ∨ tag = .daoWithdraw

namespace AnnotatedTransaction
variable (sdk : Sdk) (t : AnnotatedTransaction)

/-- What is remembered of the DAO outputs. -/
def daoBitmask : UInt64 :=
  t.raw.outputs.zipIdx.foldl (fun b x => if x.1.isDao then b ||| SignState.intShl sdk x.2 else b) 0

/-- The data of the output at an index are taken for those of a DAO cell. -/
def ChecksDao (k : ℕ) : Prop := t.daoBitmask sdk &&& SignState.longShl sdk k ≠ 0

instance (k : ℕ) : Decidable (t.ChecksDao sdk k) := inferInstanceAs (Decidable (_ ≠ _))

/-- The data of some cell are read as those of the DAO. -/
def ReadsDao : Prop := (∃ i ∈ t.raw.inputs, i.daoTag ≠ none) ∨
  ∃ x ∈ t.raw.outputsData.zipIdx, t.ChecksDao sdk x.2

instance : Decidable (t.ReadsDao sdk) := inferInstanceAs (Decidable (_ ∨ _))

end AnnotatedTransaction

namespace SignState

/-! ### The tag of a DAO operation -/

theorem inputTag_isDao (nonzero : Bool) : (inputTag nonzero).IsDao := by
  cases nonzero
  · exact .inr (.inl rfl)
  · exact .inr (.inr rfl)

theorem outputTag_isDao (nonzero : Bool) : (outputTag nonzero).IsDao := by
  cases nonzero
  · exact .inl rfl
  · exact .inr (.inl rfl)

theorem not_isDao_notSet : ¬ OperationTag.notSet.IsDao := by
  rintro (h | h | h) <;> cases h

theorem not_isDao_multiOutput : ¬ OperationTag.multiOutputTransfer.IsDao := by
  rintro (h | h | h) <;> cases h

theorem daoTag_isDao {i : AnnotatedCellInput} {tag : OperationTag} (h : i.daoTag = some tag) :
    tag.IsDao := by
  unfold AnnotatedCellInput.daoTag at h
  split at h
  · obtain ⟨d, -, rfl⟩ := Option.map_eq_some_iff.mp h
    exact inputTag_isDao _
  · cases h

theorem inputs_isDao {is : List AnnotatedCellInput} {g g' : SignState}
    (h : Steps InputCounted is g g') :
    g'.v.tag.IsDao ↔ g.v.tag.IsDao ∨ ∃ i ∈ is, i.daoTag ≠ none := by
  induction h with
  | nil => simp
  | @cons i is g g₁ g' h _ ih =>
    rw [ih, h.tag, List.exists_mem_cons_iff]
    cases htag : i.daoTag with
    | none => simp
    | some tag => simp [daoTag_isDao htag]

theorem Entered.isDao {g : SignState} {tag : OperationTag} {os : List Output}
    (h : Entered g tag os) : tag.IsDao ↔ g.v.tag.IsDao := by
  cases h with
  | last _ _ => exact Iff.rfl
  | first _ => exact Iff.rfl
  | next _ _ ht _ =>
    rcases ht with ht | ht <;> simp [ht, not_isDao_notSet, not_isDao_multiOutput]

theorem outputs_isDao {env : Env} {xs : List (CellOutput × ℕ)} {y y' : Ended}
    (h : Steps (OutputDone env) xs y y') : (y'.1.v.tag.IsDao ↔ y.1.v.tag.IsDao) ∧
      y'.1.tx.daoBitmask = xs.foldl
        (fun b x => if x.1.isDao then b ||| intShl env.sdk x.2 else b) y.1.tx.daoBitmask := by
  induction h with
  | nil => exact ⟨Iff.rfl, rfl⟩
  | @cons x xs y y₁ y' h _ ih =>
    obtain ⟨r, g, -, hr, hg, rfl⟩ := h
    have hadds : (g.v.tag.IsDao ↔ r.v.tag.IsDao) ∧ g.tx.daoBitmask =
        if x.1.isDao then r.tx.daoBitmask ||| intShl env.sdk r.tx.currentOutputIndex
        else r.tx.daoBitmask := by
      rw [← hr.isDao]
      cases hg with
      | dao hd _ => exact ⟨Iff.rfl, (if_pos hd).symm⟩
      | change hd _ => exact ⟨Iff.rfl, (if_neg (by simp [hd])).symm⟩
      | away ha he => exact ⟨he.isDao, (if_neg (by simp [ha.1])).symm⟩
    rw [hr.v, hr.tx] at hadds
    refine ⟨ih.1.trans hadds.1, ?_⟩
    have hmask : (outputStart (x.2 + 1) g).tx.daoBitmask =
        if x.1.isDao then y.1.tx.daoBitmask ||| intShl env.sdk x.2 else y.1.tx.daoBitmask := hadds.2
    rw [ih.2, List.foldl_cons, hmask]

theorem data_isDao {env : Env} {xs : List (List UInt8 × ℕ)} {y y' : Ended}
    (h : Steps (DataDone env) xs y y') : y'.1.v.tag.IsDao ↔ y.1.v.tag.IsDao ∨
      ∃ x ∈ xs, y.1.tx.daoBitmask &&& longShl env.sdk x.2 ≠ 0 := by
  induction h with
  | nil => simp
  | @cons x xs y y₁ y' h _ ih =>
    obtain ⟨r, g, hr, hg, rfl⟩ := h
    have hrest : r.v = y.1.v ∧ r.tx = y.1.tx := by
      rw [hr.rest]
      exact ⟨rfl, rfl⟩
    have hadds : g.tx = r.tx ∧ (g.v.tag.IsDao ↔ r.v.tag.IsDao ∨ r.cell.isDao = true) := by
      cases hg with
      | dao hd _ _ => exact ⟨rfl, by simp [hd, outputTag_isDao]⟩
      | plain hd => exact ⟨rfl, by simp [hd]⟩
    rw [hrest.1, hr.isDao, decide_eq_true_eq, hrest.2] at hadds
    rw [ih, List.exists_mem_cons_iff]
    have htx : (validateOutputDataStart env (x.2 + 1) g).tx = y.1.tx := hadds.1
    have hv : (validateOutputDataStart env (x.2 + 1) g).v = g.v := rfl
    rw [htx, hv, hadds.2, or_assoc]

theorem TaggedAs.isDao {g : SignState} {tag : OperationTag} (h : TaggedAs g tag) :
    tag.IsDao ↔ g.v.tag.IsDao := by
  unfold TaggedAs at h
  cases ht : g.v.tag <;> rw [ht] at h
  case notSet | plainTransfer =>
    split_ifs at h <;> simp [h, OperationTag.IsDao]
  all_goals simp_all [OperationTag.IsDao]

/-! ### The entries of an exchange -/

/-- Every output that was sent away has an entry, and several entries have their own tag. -/
structure Covered (y : Ended) : Prop where
  entry : ∀ r ∈ y.2, SentAway r → ∃ o ∈ y.1.tx.outputs, EntryFor o r
  several : 1 < y.1.tx.outputs.length → y.1.v.tag = .multiOutputTransfer

theorem Entered.entry {g : SignState} {tag : OperationTag} {os : List Output}
    (h : Entered g tag os) : ∃ o ∈ os, EntryFor o g := by
  cases h with
  | @last pre o _ he => exact ⟨_, List.mem_append_right pre (List.mem_singleton_self _), he⟩
  | first _ => exact ⟨_, List.mem_singleton_self _, rfl, rfl⟩
  | next _ _ _ _ =>
    exact ⟨_, List.mem_append_right g.tx.outputs (List.mem_singleton_self _), rfl, rfl⟩

/-- An entry stays, apart from its capacity. -/
theorem Entered.stays {g : SignState} {tag : OperationTag} {os : List Output}
    (h : Entered g tag os) {o : Output} (ho : o ∈ g.tx.outputs) :
    ∃ o' ∈ os, o'.destination = o.destination ∧ o'.isMultisig = o.isMultisig := by
  cases h with
  | @last pre o₁ hos _ =>
    rw [hos, List.mem_append, List.mem_singleton] at ho
    rcases ho with ho | rfl
    · exact ⟨o, List.mem_append_left _ ho, rfl, rfl⟩
    · exact ⟨_, List.mem_append_right pre (List.mem_singleton_self _), rfl, rfl⟩
  | first hos =>
    rw [hos] at ho
    cases ho
  | next _ _ _ _ => exact ⟨o, List.mem_append_left _ ho, rfl, rfl⟩

theorem Entered.several {g : SignState} {tag : OperationTag} {os : List Output}
    (h : Entered g tag os) (hs : 1 < g.tx.outputs.length → g.v.tag = .multiOutputTransfer)
    (hlen : 1 < os.length) : tag = .multiOutputTransfer := by
  cases h with
  | last hos _ =>
    apply hs
    rw [hos]
    simpa using hlen
  | first _ => exact absurd hlen (by simp)
  | next _ _ _ _ => rfl

theorem outputs_covered {env : Env} {xs : List (CellOutput × ℕ)} {y y' : Ended}
    (h : Steps (OutputDone env) xs y y') (hc : Covered y) : Covered y' := by
  induction h with
  | nil => exact hc
  | @cons x xs y y₁ y' h _ ih =>
    obtain ⟨r, g, -, hr, hg, rfl⟩ := h
    apply ih
    have hentry : ∀ r' ∈ y.2, SentAway r' → ∃ o ∈ r.tx.outputs, EntryFor o r' := by
      rw [hr.tx]
      exact hc.entry
    have hseveral : 1 < r.tx.outputs.length → r.v.tag = .multiOutputTransfer := by
      rw [hr.tx, hr.v]
      exact hc.several
    cases hg with
    | dao hd _ =>
      refine ⟨fun r' hr' ha => ?_, hseveral⟩
      rcases List.mem_append.mp hr' with hr' | hr'
      · exact hentry r' hr' ha
      · rw [List.mem_singleton.mp hr'] at ha
        exact absurd hd (by simp [ha.1])
    | change _ ho =>
      refine ⟨fun r' hr' ha => ?_, hseveral⟩
      rcases List.mem_append.mp hr' with hr' | hr'
      · exact hentry r' hr' ha
      · rw [List.mem_singleton.mp hr'] at ha
        exact absurd ho ha.2
    | away _ he =>
      refine ⟨fun r' hr' ha => ?_, he.several hseveral⟩
      rcases List.mem_append.mp hr' with hr' | hr'
      · obtain ⟨o, ho, heq⟩ := hentry r' hr' ha
        obtain ⟨o', ho', hdest, hmulti⟩ := he.stays ho
        exact ⟨o', ho', (congrArg LockArg.hash hdest).trans heq.1, hmulti.trans heq.2⟩
      · rw [List.mem_singleton.mp hr']
        exact he.entry

/-- What is read after the outputs leaves the tag of several entries, and the entries. -/
theorem data_several {env : Env} {xs : List (List UInt8 × ℕ)} {y y' : Ended}
    (h : Steps (DataDone env) xs y y') (ht : y.1.v.tag = .multiOutputTransfer) :
    y'.1.v.tag = .multiOutputTransfer := by
  induction h with
  | nil => exact ht
  | @cons x xs y y₁ y' h _ ih =>
    obtain ⟨r, g, hr, hg, rfl⟩ := h
    have hv : r.v = y.1.v := by rw [hr.rest]
    apply ih
    cases hg with
    | dao _ _ htag =>
      rw [hv, ht] at htag
      refine absurd htag (not_or.mpr ⟨?_, nofun⟩)
      unfold outputTag
      split <;> exact nofun
    | plain _ => exact (congrArg ParsedTransaction.tag hv).trans ht

theorem data_tx {env : Env} {xs : List (List UInt8 × ℕ)} {y y' : Ended}
    (h : Steps (DataDone env) xs y y') : y'.1.tx = y.1.tx := by
  induction h with
  | nil => rfl
  | @cons x xs y y₁ y' h _ ih =>
    obtain ⟨r, g, hr, hg, rfl⟩ := h
    have hadds : g.tx = r.tx := by cases hg <;> rfl
    refine ih.trans (hadds.trans ?_)
    rw [hr.rest]

theorem TaggedAs.several {g : SignState} {tag : OperationTag} (h : TaggedAs g tag)
    (ht : g.v.tag = .multiOutputTransfer) : tag = .multiOutputTransfer := by
  unfold TaggedAs at h
  rw [ht] at h
  exact h.1

/-! ### What is shown -/

/-- Where all entries are shown. -/
theorem showsPayment {env : Env} {g : SignState} {screens : List Screen}
    (h : g.signScreens env = .ok screens) (hdao : ¬ g.v.tag.IsDao)
    (hone : g.v.tag ≠ .multiOutputTransfer → g.tx.outputs.length ≤ 1 ∧
      (g.v.tag = .plainTransfer ∨ g.v.tag = .selfTransfer ∨ g.v.tag = .multiInputTransfer →
        g.v.amountSnd = (g.tx.outputs.map Output.capacity).sum))
    {o : Output} (ho : o ∈ g.tx.outputs) : ShowsPayment screens o := by
  have hsingle : g.v.tag ≠ .multiOutputTransfer →
      g.v.tag = .plainTransfer ∨ g.v.tag = .selfTransfer ∨ g.v.tag = .multiInputTransfer →
      g.firstOutput = o ∧ g.v.amountSnd = o.capacity := by
    intro hne ht
    obtain ⟨hlen, hsum⟩ := hone hne
    have hos : g.tx.outputs = [o] := by
      obtain ⟨o', ho'⟩ := List.length_eq_one_iff.mp
        (le_antisymm hlen (List.length_pos_of_mem ho))
      rw [ho', List.mem_singleton] at ho
      rw [ho', ho]
    rw [hsum ht, firstOutput, hos]
    exact ⟨rfl, by simp⟩
  unfold signScreens at h
  cases ht : g.v.tag <;> rw [ht] at h hdao hsingle <;> cases h
  case plainTransfer =>
    obtain ⟨hfirst, hsnd⟩ := hsingle nofun (.inl rfl)
    exact .inl ⟨by simp [hfirst], .inl (by simp [hsnd])⟩
  case multiOutputTransfer =>
    obtain ⟨i, hi, rfl⟩ := List.mem_iff_getElem.mp ho
    refine .inr ⟨outputTitle (i + 3) g.tx.outputs.length, List.mem_append_right _ ?_⟩
    exact List.mem_mapIdx.mpr ⟨i, hi, rfl⟩
  case selfTransfer =>
    obtain ⟨hfirst, hsnd⟩ := hsingle nofun (.inr (.inl rfl))
    exact .inl ⟨by simp [hfirst], .inl (by simp [hsnd])⟩
  case multiInputTransfer =>
    obtain ⟨hfirst, hsnd⟩ := hsingle nofun (.inr (.inr rfl))
    exact .inl ⟨by simp [hfirst], .inr ⟨g.v.amountFst, by simp [hsnd]⟩⟩
  all_goals exact absurd (by simp [OperationTag.IsDao]) hdao

theorem not_showsPayment {env : Env} {g : SignState} {screens : List Screen}
    (h : g.signScreens env = .ok screens) (hdao : g.v.tag.IsDao) (o : Output) :
    ¬ ShowsPayment screens o := by
  unfold signScreens at h
  rcases hdao with ht | ht | ht <;> rw [ht] at h <;> cases h <;> simp [ShowsPayment]

variable {sdk : Sdk} {t : AnnotatedTransaction} {s : Stages sdk t}

theorem OutputsEnded.daoBitmask {g g' : SignState} (h : OutputsEnded g g') :
    g'.tx.daoBitmask = g.tx.daoBitmask := by
  cases h <;> rfl

/-- With an entry, the end of the outputs leaves the entries. -/
theorem OutputsEnded.outputs {g g' : SignState} (h : OutputsEnded g g') (he : g.tx.outputs ≠ []) :
    g'.tx.outputs = g.tx.outputs ∧ g'.tx.plainOutputAmount = g.tx.plainOutputAmount := by
  cases h with
  | dao _ => exact ⟨rfl, rfl⟩
  | sent _ _ => exact ⟨rfl, rfl⟩
  | self _ ho => exact absurd ho he

theorem Stages.Passed.isDao (h : s.Passed) : s.final.v.tag.IsDao ↔ t.ReadsDao sdk := by
  obtain ⟨hsent, hmask⟩ := outputs_isDao h.outputs
  have hbegun : s.begun.v.tag = .notSet := by rw [s.nothing.v]
  have hended : s.sent.1.outputsEnd.1.tx.daoBitmask = t.daoBitmask sdk := by
    exact h.ended.daoBitmask.trans hmask
  rw [h.finalized.tag.isDao, data_isDao h.outputsData, h.ended.v.1, hsent, hended]
  change s.read.v.tag.IsDao ∨ _ ↔ _
  rw [inputs_isDao h.inputs, hbegun]
  simp only [not_isDao_notSet, false_or]
  rfl

theorem Stages.Passed.covered (h : s.Passed) : Covered s.sent := by
  have hnone : s.read.finishInputs.tx.outputs = [] := rfl
  apply outputs_covered h.outputs
  constructor
  · exact fun r hr => absurd hr List.not_mem_nil
  · rw [hnone]
    exact fun hlen => absurd hlen (by decide)

/-- With an entry, the final state has one alone, or the tag of several. -/
theorem Stages.Passed.kept (h : s.Passed) (he : s.sent.1.tx.outputs ≠ []) :
    s.final.tx.outputs = s.sent.1.tx.outputs ∧ (s.final.v.tag ≠ .multiOutputTransfer →
      s.final.tx.outputs.length ≤ 1 ∧ (s.final.v.tag = .plainTransfer ∨
        s.final.v.tag = .selfTransfer ∨ s.final.v.tag = .multiInputTransfer →
          s.final.v.amountSnd = (s.final.tx.outputs.map Output.capacity).sum)) := by
  obtain ⟨hended, hamount⟩ := h.ended.outputs he
  have htx : s.checked.1.tx = s.sent.1.outputsEnd.1.tx := data_tx h.outputsData
  have houtputs : s.final.tx.outputs = s.sent.1.tx.outputs := by
    obtain ⟨digest, hfinal⟩ := h.finalized.tx
    rw [hfinal]
    change s.checked.1.tx.outputs = _
    rw [htx, hended]
  refine ⟨houtputs, fun hne => ⟨?_, fun ht => ?_⟩⟩
  · by_contra hlen
    rw [houtputs, not_le] at hlen
    have hsent : s.sent.1.outputsEnd.1.v.tag = .multiOutputTransfer :=
      h.ended.v.1.trans (h.covered.several hlen)
    exact hne (h.finalized.tag.several (data_several h.outputsData hsent))
  · have hsnd : s.final.v.amountSnd = s.checked.1.tx.plainOutputAmount := by
      apply h.finalized.amountSnd
      rcases ht with ht | ht | ht <;> simp [ht]
    rw [hsnd, htx, hamount, houtputs, h.entries.total]

/-- The screens name a recipient and an amount for everything that was sent away, and those of a
DAO operation have nothing to name. -/
def Disclosed (ended : List SignState) (g : SignState) (q : Prompt) : Prop :=
  (∀ r ∈ ended, SentAway r → ∃ o, EntryFor o r ∧ ShowsPayment q.screens o) ∧
    (g.v.tag.IsDao → ∀ r ∈ ended, ¬ SentAway r)

/-- What is sent away is disclosed exactly if no data are read as those of the DAO. -/
theorem recipients_disclosed_iff {sent : List Sent} (ha : Accepts sdk sent) (hfit : t.Fits)
    (hp : payload sent = t.encode) {env : Env} {ins : UInt8} {q : Prompt}
    (hq : (accepted sdk sent).signComplete env ins = .ok q) :
    Disclosed (found .outputEnd (logOf sdk sent)) (accepted sdk sent) q ↔
      ((∃ r ∈ found .outputEnd (logOf sdk sent), SentAway r) → ¬ t.ReadsDao sdk) := by
  obtain ⟨s, hpassed, hcore, houtputs, -⟩ := ha.passed hfit hp
  have hv : (feedAll sdk sent).1.core.v = s.final.core.v := by rw [hcore]
  have hv : (accepted sdk sent).v = s.final.v := hv
  have hos : (feedAll sdk sent).1.core.tx.outputs = s.final.core.tx.outputs := by rw [hcore]
  have hos : (accepted sdk sent).tx.outputs = s.final.tx.outputs := hos
  have hscreens := signComplete_screens hq
  constructor
  · rintro ⟨hshown, -⟩ ⟨r, hr, haway⟩ hdao
    obtain ⟨o, -, ho⟩ := hshown r hr haway
    exact not_showsPayment hscreens (hv ▸ hpassed.isDao.mpr hdao) o ho
  · intro hcond
    have hnot : ∀ r ∈ found .outputEnd (logOf sdk sent), SentAway r →
        ¬ (accepted sdk sent).v.tag.IsDao := by
      intro r hr haway hdao
      exact hcond ⟨r, hr, haway⟩ (hpassed.isDao.mp (hv ▸ hdao))
    refine ⟨fun r hr haway => ?_, fun hdao r hr haway => hnot r hr haway hdao⟩
    -- the entry of the same output in the replay of the calls
    obtain ⟨r', hr', heq⟩ : ∃ r' ∈ s.sent.2, r'.core = r.core := by
      have hmem := List.mem_map_of_mem (f := core) hr
      rw [houtputs] at hmem
      exact List.mem_map.mp hmem
    have haway' : SentAway r' := by
      have hcell : r'.core.cell = r.core.cell := by rw [heq]
      have hcell : r'.cell = r.cell := hcell
      unfold SentAway Own at haway ⊢
      rwa [hcell]
    obtain ⟨o, ho, hentry⟩ := hpassed.covered.entry r' hr' haway'
    obtain ⟨hkept, hone⟩ := hpassed.kept (List.ne_nil_of_mem ho)
    rw [← hkept, ← hos] at ho
    rw [← hv, ← hos] at hone
    refine ⟨o, ?_, showsPayment hscreens (hnot r hr haway) hone ho⟩
    have htmp : r'.core.lockArgTmp = r.core.lockArgTmp := by rw [heq]
    have hmulti : r'.core.cell.isMultisig = r.core.cell.isMultisig := by rw [heq]
    exact ⟨hentry.1.trans (congrArg LockArg.hash htmp), hentry.2.trans hmulti⟩

/-- A cell of the DAO that the sample key owns. -/
def sampleDaoCell (capacity : ℕ) : CellOutput :=
  { sampleCell sampleLock capacity with type := some ⟨daoTypeScriptHash, 1, []⟩ }

/-- A deposit of 100 CKB, with another 100 CKB for another key. -/
def depositTransaction : AnnotatedTransaction :=
  sampleTransaction [sampleInput [sampleCell sampleLock 20000000001] [[]]]
    [sampleDaoCell 10000000000, sampleCell (sighashLock (List.replicate 20 0x11)) 10000000000]
    [List.replicate 8 0, []] [selfWitness.drop 8]

def depositPackets : List Sent := samplePackets {} depositTransaction.encode

/-- The deposit is shown, and the other key is not. -/
theorem deposit_undisclosed : ¬ ∀ (sdk : Sdk) (sent : List Sent) (t : AnnotatedTransaction)
    (env : Env) (ins : UInt8) (q : Prompt), Accepts sdk sent → t.Fits → payload sent = t.encode →
      (accepted sdk sent).signComplete env ins = .ok q →
        Disclosed (found .outputEnd (logOf sdk sent)) (accepted sdk sent) q := by
  intro h
  obtain ⟨ha, q, hq, htag⟩ := @prompts_of_run (keySdk []) depositPackets ⟨keySdk [], {}, []⟩
    insSign (fun g _ => decide (g.v.tag = .daoDeposit)) (by decide +kernel) (by decide +kernel)
  have haway : (found .outputEnd (logOf (keySdk []) depositPackets)).any
      (fun r => decide (SentAway r)) = true := by decide +kernel
  obtain ⟨r, hr, haway⟩ := List.any_eq_true.mp haway
  exact (h _ _ depositTransaction _ _ q ha (by decide +kernel) (by decide +kernel) hq).2
    (.inl (of_decide_eq_true htag)) r hr (of_decide_eq_true haway)

theorem payment_disclosed : ∃ q,
    (accepted (keySdk []) (paymentPackets 10000000001 10000000000)).signComplete
      ⟨keySdk [], {}, []⟩ insSign = .ok q ∧ Disclosed
        (found .outputEnd (logOf (keySdk []) (paymentPackets 10000000001 10000000000)))
        (accepted (keySdk []) (paymentPackets 10000000001 10000000000)) q := by
  obtain ⟨ha, q, hq, -⟩ := @prompts_of_run (keySdk []) (paymentPackets 10000000001 10000000000)
    ⟨keySdk [], {}, []⟩ insSign (fun _ _ => true) (by decide +kernel) (by decide +kernel)
  exact ⟨q, hq, (@recipients_disclosed_iff _ (paymentTransaction 10000000001 10000000000) _ ha
    (by decide +kernel) (by decide +kernel) _ _ q hq).mpr fun _ => by decide +kernel⟩

end SignState
end NervosLedger
