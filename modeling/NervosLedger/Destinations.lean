import NervosLedger.Change
import NervosLedger.OutputScreen

/-!
# What is shown of a lock

The entry of an output is shown as an address, which stands for a lock of its own: the code hash is
one of two, and the arguments are those of the output that the entry was made for. On the screens of
several outputs the address comes behind the amount, and there may be too little room for both.
-/
namespace NervosLedger
open Molecule Machine

/-! ### Addresses of entries -/

/-- What the full-format address of a lock stands for. -/
def Script.payload (s : Script) : List UInt8 := 0x00 :: s.codeHash.toList ++ s.hashType :: s.args

/-- The lock that the address of an entry stands for. -/
def Output.lock (o : Output) : Script where
  codeHash := if o.isMultisig then multisigLockScript else defaultLockScript
  hashType := 1
  args := o.destination.hash.toList ++
    if o.isMultisig && o.destination.lockPeriod ≠ .zero 8 then o.destination.lockPeriod.toList else []

theorem Output.payload_eq (o : Output) : o.payload = o.lock.payload := by
  cases hm : o.isMultisig with
  | false => simp [payload, lock, Script.payload, hm, sighashPayload, fullPayload]
  | true =>
    rw [payload, if_pos hm, multisigPayload_eq]
    by_cases h : o.destination.lockPeriod = .zero 8 <;>
      simp [lock, Script.payload, hm, multisigLock, h]

theorem Script.payload_inj {s s' : Script} (h : s.payload = s'.payload) : s = s' := by
  obtain ⟨hcode, hrest⟩ := List.append_inj (List.cons.inj h).2 (by simp)
  obtain ⟨htype, hargs⟩ := List.cons.inj hrest
  cases s
  cases s'
  simp_all [FixedBytes.toList_inj]

/-- A lock that has an address of its own here. -/
def Script.HasAddress (s : Script) : Prop :=
  s.hashType = 1 ∧ (s.codeHash = defaultLockScript ∧ s.args.length = 20 ∨
    s.codeHash = multisigLockScript ∧ (s.args.length = 20 ∨
      s.args.length = 28 ∧ s.args.drop 20 ≠ List.replicate 8 0))

instance (s : Script) : Decidable s.HasAddress := inferInstanceAs (Decidable (_ ∧ _))

theorem Output.hasAddress_lock (o : Output) : o.lock.HasAddress := by
  refine ⟨rfl, ?_⟩
  cases hm : o.isMultisig with
  | false => exact .inl (by simp [lock, hm])
  | true =>
    refine .inr ⟨by simp [lock, hm], ?_⟩
    by_cases h : o.destination.lockPeriod = .zero 8
    · exact .inl (by simp [lock, h])
    · have hne : o.destination.lockPeriod.toList ≠ List.replicate 8 0 :=
        fun h' => h (FixedBytes.ext h')
      exact .inr (by simpa [lock, hm, h] using hne)

theorem Output.ofList_lock {o : Output} (h : o.isMultisig = true) :
    FixedBytes.ofList 28 o.lock.args = o.destination := by
  ext1
  have hsplit : o.destination.toList = o.destination.hash.toList ++ o.destination.lockPeriod.toList :=
    (List.take_append_drop 20 o.destination.toList).symm
  by_cases hp : o.destination.lockPeriod = .zero 8
  · have hargs : o.lock.args = o.destination.hash.toList := by simp [lock, hp]
    have hzero : o.destination.lockPeriod.toList = List.replicate 8 0 := by rw [hp]; rfl
    rw [hargs, SignState.toList_ofList_of_le (by simp), hsplit, hzero]
    simp
  · have hargs : o.lock.args = o.destination.toList := by
      rw [hsplit]
      simp [lock, h, hp]
    rw [hargs, FixedBytes.ofList_toList]

theorem Script.HasAddress.length {s : Script} (h : s.HasAddress) :
    20 ≤ s.args.length ∧ s.args.length ≤ 28 := by
  obtain ⟨-, ⟨-, hl⟩ | ⟨-, hl | ⟨hl, -⟩⟩⟩ := h <;> omega

theorem hash_ofList {args : List UInt8} (h : 20 ≤ args.length ∧ args.length ≤ 28) :
    (LockArg.hash (.ofList 28 args)).toList = args.take 20 := by
  change List.take 20 (FixedBytes.ofList 28 args).toList = _
  rw [SignState.toList_ofList_of_le h.2, List.take_append_of_le_length h.1]

/-- An entry stands for the lock exactly if that has an address, and a multisig lock is in it. -/
theorem Output.lock_eq_iff {o : Output} {s : Script} {tmp : LockArg}
    (hm : o.isMultisig = decide (s.codeHash = multisigLockScript))
    (htmp : s.args.length ≤ 28 → tmp = .ofList 28 s.args)
    (hhash : o.destination.hash = tmp.hash) : o.lock = s ↔
      s.HasAddress ∧ (s.codeHash = multisigLockScript → o.destination = tmp) := by
  constructor
  · rintro rfl
    refine ⟨o.hasAddress_lock, fun h => ?_⟩
    rw [htmp o.hasAddress_lock.length.2, Output.ofList_lock (by rw [hm, decide_eq_true h])]
  · rintro ⟨haddr, hdest⟩
    have htmp := htmp haddr.length.2
    have hfirst : o.destination.hash.toList = s.args.take 20 := by
      rw [hhash, htmp, hash_ofList haddr.length]
    obtain ⟨htype, ⟨hcode, hlen⟩ | ⟨hcode, hargs⟩⟩ := haddr
    · have hm : o.isMultisig = false := by
        rw [hm, hcode]
        decide
      rw [List.take_of_length_le hlen.le] at hfirst
      cases s
      simp_all [lock]
    · have hm : o.isMultisig = true := by rw [hm, decide_eq_true hcode]
      have hperiod : o.destination.lockPeriod.toList =
          (FixedBytes.ofList 28 s.args).toList.drop 20 := by
        rw [hdest hcode, htmp]
        rfl
      rcases hargs with hlen | ⟨hlen, hne⟩
      · have hzero : o.destination.lockPeriod = .zero 8 := by
          ext1
          rw [hperiod, SignState.toList_ofList_of_le (by omega), ← hlen, List.drop_left, hlen]
          rfl
        rw [List.take_of_length_le hlen.le] at hfirst
        cases s
        simp_all [lock]
      · have hall : o.destination.lockPeriod.toList = s.args.drop 20 := by
          rw [hperiod, FixedBytes.ofList_of_length hlen]
        have hnz : o.destination.lockPeriod ≠ .zero 8 := by
          intro h0
          rw [h0] at hall
          exact hne hall.symm
        have hargs : o.lock.args = s.args := by
          simp [lock, hm, hnz, hfirst, hall]
        cases s
        simp_all [lock]

/-- The tags of the prompts that show entries. -/
def OperationTag.HasDestinations (tag : OperationTag) : Prop :=
  tag = .plainTransfer ∨ tag = .multiOutputTransfer ∨ tag = .multiInputTransfer

namespace SignState

/-! ### The entry of an output -/

/-- The last entry is taken for the one of the current cell. -/
def joins (g : SignState) : Bool := g.tx.outputs.getLast?.any fun o =>
  o.destination.hash = g.lockArgTmp.hash && o.isMultisig = g.cell.isMultisig

/-- The entry that the current cell is added to. -/
def entryIndex (g : SignState) : ℕ :=
  if g.joins then g.tx.outputs.length - 1 else g.tx.outputs.length

/-- Its lock argument. -/
def entryDestination (g : SignState) : LockArg :=
  if g.joins then (g.tx.outputs.getLast?.getD default).destination else g.lockArgTmp

theorem entryDestination_hash (g : SignState) : g.entryDestination.hash = g.lockArgTmp.hash := by
  unfold entryDestination
  split
  · rename_i h
    unfold joins at h
    cases hlast : g.tx.outputs.getLast? with
    | none =>
      rw [hlast] at h
      cases h
    | some o =>
      rw [hlast] at h
      simp only [Option.any_some, Bool.and_eq_true, decide_eq_true_eq] at h
      exact h.1
  · rfl

/-- The cell has its entry there. -/
def InEntry (os : List Output) (g : SignState) : Prop :=
  ∃ o, os[g.entryIndex]? = some o ∧ o.destination = g.entryDestination ∧
    o.isMultisig = g.cell.isMultisig

theorem Entered.inEntry {g : SignState} {tag : OperationTag} {os : List Output}
    (h : Entered g tag os) : InEntry os g := by
  cases h with
  | @last pre o ho he =>
    have hlast : g.tx.outputs.getLast? = some o := by rw [ho, List.getLast?_concat]
    have hjoins : g.joins = true := by simp [joins, hlast, he.1, he.2]
    refine ⟨{ o with capacity := o.capacity + g.cell.capacity }, ?_, ?_, he.2⟩
    · rw [entryIndex, if_pos hjoins, ho, List.length_append, List.length_singleton,
        Nat.add_sub_cancel, List.getElem?_append_right le_rfl, Nat.sub_self]
      rfl
    · rw [entryDestination, if_pos hjoins, hlast]
      rfl
  | first ho =>
    have hjoins : ¬ g.joins = true := by simp [joins, ho]
    refine ⟨⟨g.cell.capacity, g.lockArgTmp, g.cell.isMultisig⟩, ?_, ?_, rfl⟩
    · rw [entryIndex, if_neg hjoins, ho]
      rfl
    · rw [entryDestination, if_neg hjoins]
  | @next pre o ho he _ _ =>
    have hlast : g.tx.outputs.getLast? = some o := by rw [ho, List.getLast?_concat]
    have hjoins : ¬ g.joins = true := by
      intro hj
      simp only [joins, hlast, Option.any_some, Bool.and_eq_true, decide_eq_true_eq] at hj
      exact he hj
    refine ⟨⟨g.cell.capacity, g.lockArgTmp, g.cell.isMultisig⟩, ?_, ?_, rfl⟩
    · rw [entryIndex, if_neg hjoins, List.getElem?_append_right le_rfl, Nat.sub_self]
      rfl
    · rw [entryDestination, if_neg hjoins]

/-- An entry stays where it is, apart from its capacity. -/
theorem Entered.stays_at {g : SignState} {tag : OperationTag} {os : List Output}
    (h : Entered g tag os) {i : ℕ} {o : Output} (ho : g.tx.outputs[i]? = some o) :
    ∃ o', os[i]? = some o' ∧ o'.destination = o.destination ∧ o'.isMultisig = o.isMultisig := by
  have hi : i < g.tx.outputs.length := (List.getElem?_eq_some_iff.mp ho).1
  cases h with
  | @last pre o₁ hos _ =>
    rw [hos] at ho hi
    rw [List.length_append, List.length_singleton] at hi
    rcases Nat.lt_or_ge i pre.length with hlt | hge
    · rw [List.getElem?_append_left hlt] at ho
      exact ⟨o, by rw [List.getElem?_append_left hlt, ho], rfl, rfl⟩
    · obtain rfl : i = pre.length := by omega
      rw [List.getElem?_append_right le_rfl, Nat.sub_self] at ho
      cases ho
      refine ⟨{ o with capacity := o.capacity + g.cell.capacity }, ?_, rfl, rfl⟩
      rw [List.getElem?_append_right le_rfl, Nat.sub_self]
      rfl
  | first hos =>
    rw [hos] at hi
    cases hi
  | next _ _ _ _ => exact ⟨o, by rw [List.getElem?_append_left hi, ho], rfl, rfl⟩

theorem outputs_inEntry {env : Env} {xs : List (CellOutput × ℕ)} {y y' : Ended}
    (h : Steps (OutputDone env) xs y y')
    (hin : ∀ r ∈ y.2, SentAway r → InEntry y.1.tx.outputs r) :
    ∀ r ∈ y'.2, SentAway r → InEntry y'.1.tx.outputs r := by
  induction h with
  | nil => exact hin
  | @cons x xs y y₁ y' h _ ih =>
    obtain ⟨r, g, -, hr, hg, rfl⟩ := h
    apply ih
    intro r' hr' ha
    have hold : r' ∈ y.2 → InEntry r.tx.outputs r' := by
      rw [hr.tx]
      exact fun h => hin r' h ha
    cases hg with
    | dao hd _ =>
      refine (List.mem_append.mp hr').elim hold fun hr' => ?_
      rw [List.mem_singleton.mp hr'] at ha
      exact absurd hd (by simp [ha.1])
    | change _ ho =>
      refine (List.mem_append.mp hr').elim hold fun hr' => ?_
      rw [List.mem_singleton.mp hr'] at ha
      exact absurd ho ha.2
    | away _ he =>
      rcases List.mem_append.mp hr' with hr' | hr'
      · obtain ⟨o, ho, hdest, hmulti⟩ := hold hr'
        obtain ⟨o', ho', hdest', hmulti'⟩ := he.stays_at ho
        exact ⟨o', ho', hdest'.trans hdest, hmulti'.trans hmulti⟩
      · rw [List.mem_singleton.mp hr']
        exact he.inEntry

/-! ### The screen of an entry -/

/-- The value of the screen of entry `i`: `multi_output_prompts_cb` writes it, or else the formatter
of the destination. -/
def writeEntry (t : AddressType) (g : SignState) (i : ℕ) (s : ActiveScreen) : Formatted :=
  if g.v.tag = .multiOutputTransfer then
    let (s, e) := multiOutputPromptsCb t g (i + 3) s
    (s.activeValue, e)
  else g.firstOutput.writeAddress t 0 (valueWidth + 1) s.activeValue

/-- What stands before the address of entry `i`. -/
def entryLead (g : SignState) (i : ℕ) : List UInt8 :=
  if g.v.tag = .multiOutputTransfer then
    amount (g.tx.outputs.getD i {}).capacity.toNat ++ outputSeparator
  else []

/-- The screen of entry `i` is written within its buffer, and it ends in the address of a lock. -/
def ShowsLock (g : SignState) (i : ℕ) (s : Script) : Prop :=
  ∀ (t : AddressType) (label value : ℕ → UInt8),
    let r := g.writeEntry t i ⟨⟨label, ∅⟩, ⟨value, ∅⟩⟩
    r.2 = none ∧ r.1.Below (valueWidth + 1).toNat ∧
      ∃ text, Prints r.1 0 (g.entryLead i ++ text) ∧ DecodesTo t text s.payload

/-- The entry has a screen, and its value fits the buffer. -/
def EntryFits (g : SignState) (i : ℕ) : Prop :=
  g.v.tag = .multiOutputTransfer → (g.tx.outputs.getD i {}).HasRoom

section Screen
variable {g : SignState} {i : ℕ} {o : Output}

theorem writeEntry_eq (ho : g.tx.outputs[i]? = some o)
    (hone : g.v.tag ≠ .multiOutputTransfer → g.tx.outputs.length ≤ 1) (t : AddressType) :
    ∃ text, text.length = o.addressLength ∧ 0 ∉ g.entryLead i ++ text ∧
      DecodesTo t text o.lock.payload ∧ ∀ s, g.writeEntry t i s =
        (s.activeValue.copy 0 (g.entryLead i ++ text ++ [0]), none) := by
  obtain ⟨text, htext, hno, hdecodes, hwrite⟩ := o.writeAddress_eq t
  rw [o.payload_eq] at hdecodes
  have hget : g.tx.outputs.getD i {} = o := by rw [List.getD_eq_getElem?_getD, ho, Option.getD_some]
  unfold writeEntry entryLead
  rw [hget]
  by_cases htag : g.v.tag = .multiOutputTransfer
  · have hprompt : ¬ promptWidth + 1 < 13 := by decide
    have hvalue : ¬ (valueWidth + 1).toNat < 29 := by decide
    have hamount : 0 ∉ amount o.capacity.toNat := not_mem_amount (by decide) (by decide)
    have hseparator : 0 ∉ outputSeparator := by decide
    refine ⟨text, htext, ?_, hdecodes, fun s => ?_⟩
    · simp [htag, hamount, hseparator, hno]
    · simp only [if_pos htag, multiOutputPromptsCb, if_neg hprompt, if_neg hvalue, hget,
        Output.writeValue_eq hwrite, List.append_assoc]
  · have hlt : i < g.tx.outputs.length := (List.getElem?_eq_some_iff.mp ho).1
    have hone := hone htag
    obtain rfl : i = 0 := by omega
    have hfirst : g.firstOutput = o := by
      rw [firstOutput, List.headD_eq_head?_getD, List.head?_eq_getElem?, ho, Option.getD_some]
    refine ⟨text, htext, ?_, hdecodes, fun s => ?_⟩
    · rwa [if_neg htag, List.nil_append]
    · rw [if_neg htag, if_neg htag, hfirst, hwrite, List.nil_append]

/-- The lock that the screen of an entry shows is that of the entry, if it fits. -/
theorem showsLock_iff (ho : g.tx.outputs[i]? = some o)
    (hone : g.v.tag ≠ .multiOutputTransfer → g.tx.outputs.length ≤ 1) (s : Script) :
    g.ShowsLock i s ↔ o.lock = s ∧ g.EntryFits i := by
  have hget : g.tx.outputs.getD i {} = o := by rw [List.getD_eq_getElem?_getD, ho, Option.getD_some]
  have hbelow : ∀ {text : List UInt8}, text.length = o.addressLength →
      ((g.entryLead i ++ text).length < (valueWidth + 1).toNat ↔ g.EntryFits i) := by
    intro text htext
    have hsize : (valueWidth + 1).toNat = 129 := rfl
    have hseparator : outputSeparator.length = 8 := rfl
    have haddress : o.addressLength < 129 := by
      unfold Output.addressLength
      split <;> omega
    unfold entryLead EntryFits
    rw [hget, hsize, List.length_append, htext]
    by_cases htag : g.v.tag = .multiOutputTransfer
    · rw [if_pos htag, List.length_append, hseparator, ← o.hasRoom_iff]
      exact ⟨fun h _ => h, fun h => h htag⟩
    · rw [if_neg htag, List.length_nil, Nat.zero_add]
      exact iff_of_true haddress fun h => absurd h htag
  constructor
  · intro h
    obtain ⟨text, htext, hno, hdecodes, hwrite⟩ := writeEntry_eq ho hone .mainnet
    obtain ⟨-, hfits, text', hprints, hdecodes'⟩ := h .mainnet (fun _ => 0) fun _ => 0
    rw [hwrite] at hfits hprints
    obtain rfl : text = text' :=
      List.append_cancel_left ((prints_copy hno 0 _).unique hprints)
    refine ⟨Script.payload_inj (hdecodes.unique hdecodes'), (hbelow htext).mp ?_⟩
    rwa [← below_text_iff]
  · rintro ⟨rfl, hroom⟩ t label value
    obtain ⟨text, htext, hno, hdecodes, hwrite⟩ := writeEntry_eq ho hone t
    rw [hwrite]
    refine ⟨rfl, ?_, text, prints_copy hno 0 _, hdecodes⟩
    rw [below_text_iff]
    exact (hbelow htext).mpr hroom

end Screen

variable {sdk : Sdk} {t : AnnotatedTransaction} {s : Stages sdk t}

/-! ### What is shown -/

/-- The entry of the output is shown, and its screen shows the output's own lock. -/
def ShowsOwnLock (g : SignState) (q : Prompt) (c : CellOutput) (r : SignState) : Prop :=
  SentAway r → ∃ o, g.tx.outputs[r.entryIndex]? = some o ∧ ShowsPayment q.screens o ∧
    g.ShowsLock r.entryIndex c.lock

/-- The lock has an address, a multisig lock joins an entry with its own lock period, and the
entry fits its screen. -/
def KeepsLock (g : SignState) (c : CellOutput) (r : SignState) : Prop :=
  SentAway r → c.lock.HasAddress ∧
    (c.lock.codeHash = multisigLockScript → r.entryDestination = r.lockArgTmp) ∧
    g.EntryFits r.entryIndex

instance (g : SignState) (i : ℕ) : Decidable (g.EntryFits i) := inferInstanceAs (Decidable (_ → _))

instance (g : SignState) (c : CellOutput) (r : SignState) : Decidable (KeepsLock g c r) :=
  inferInstanceAs (Decidable (_ → _))

section Accepted
variable {sent : List Sent} (ha : Accepts sdk sent) (hfit : t.Fits) (hp : payload sent = t.encode)
  {env : Env} {ins : UInt8} {q : Prompt}
  (hq : (accepted sdk sent).signComplete env ins = .ok q)
  (htag : (accepted sdk sent).v.tag.HasDestinations)
include ha hfit hp hq htag

/-- Every output that is sent away has a screen for its entry. -/
theorem entry_shown {r : SignState} (hr : r ∈ found .outputEnd (logOf sdk sent))
    (haway : SentAway r) :
    ∃ o, (accepted sdk sent).tx.outputs[r.entryIndex]? = some o ∧ ShowsPayment q.screens o ∧
      o.destination = r.entryDestination ∧ o.isMultisig = r.cell.isMultisig ∧
      ∀ l, (accepted sdk sent).ShowsLock r.entryIndex l ↔
        o.lock = l ∧ (accepted sdk sent).EntryFits r.entryIndex := by
  obtain ⟨s, hpassed, hcore, houtputs, -⟩ := ha.passed hfit hp
  have hv : (feedAll sdk sent).1.core.v = s.final.core.v := by rw [hcore]
  have hos : (feedAll sdk sent).1.core.tx.outputs = s.final.core.tx.outputs := by rw [hcore]
  change (accepted sdk sent).v = s.final.v at hv
  change (accepted sdk sent).tx.outputs = s.final.tx.outputs at hos
  have hdao : ¬ (accepted sdk sent).v.tag.IsDao := by
    rcases htag with h | h | h <;> simp [h, OperationTag.IsDao]
  obtain ⟨r', hr', heq⟩ : ∃ r' ∈ s.sent.2, r'.core = r.core := by
    have hmem := List.mem_map_of_mem (f := core) hr
    rw [houtputs] at hmem
    exact List.mem_map.mp hmem
  obtain ⟨o, ho, hdest, hmulti⟩ : InEntry s.sent.1.tx.outputs r'.core := by
    have haway' : SentAway r.core := haway
    rw [← heq] at haway'
    exact outputs_inEntry hpassed.outputs (fun r hr => absurd hr List.not_mem_nil) r' hr' haway'
  rw [heq] at ho hdest hmulti
  obtain ⟨hkept, hone⟩ := hpassed.kept (List.ne_nil_of_mem (List.mem_of_getElem? ho))
  rw [← hkept, ← hos] at ho
  rw [← hv, ← hos] at hone
  exact ⟨o, ho, showsPayment (signComplete_screens hq) hdao hone (List.mem_of_getElem? ho), hdest,
    hmulti, showsLock_iff ho fun hne => (hone hne).1⟩

end Accepted

/-- What is shown for outputs that are sent away is their own lock exactly if the lock has an
address, no multisig lock is added to the entry of one with another lock period, and the entry fits
the buffer of its screen. -/
theorem destinations_shown_iff {sent : List Sent} (ha : Accepts sdk sent) (hfit : t.Fits)
    (hp : payload sent = t.encode) {env : Env} {ins : UInt8} {q : Prompt}
    (hq : (accepted sdk sent).signComplete env ins = .ok q)
    (htag : (accepted sdk sent).v.tag.HasDestinations) :
    List.Forall₂ (ShowsOwnLock (accepted sdk sent) q) t.raw.outputs
        (found .outputEnd (logOf sdk sent)) ↔
      List.Forall₂ (KeepsLock (accepted sdk sent)) t.raw.outputs
        (found .outputEnd (logOf sdk sent)) := by
  have hentry := fun r => @entry_shown sdk t sent ha hfit hp env ins q hq htag r
  have hall := ha.foundFor hfit hp
  generalize found SignEvent.outputEnd (logOf sdk sent) = rs at hall hentry ⊢
  generalize t.raw.outputs = cs at hall ⊢
  induction hall with
  | nil => simp
  | @cons c r cs rs h _ ih =>
    have hrest := ih fun r hr => hentry r (List.mem_cons_of_mem _ hr)
    rw [List.forall₂_cons, List.forall₂_cons]
    refine and_congr ?_ hrest
    refine forall_congr' fun haway => ?_
    obtain ⟨o, ho, hshown, hdest, hmulti, hshows⟩ := hentry r List.mem_cons_self haway
    have hlock := @Output.lock_eq_iff o c.lock r.lockArgTmp (hmulti.trans h.isMultisig) h.lockArgTmp
      (by rw [hdest, entryDestination_hash])
    rw [hdest] at hlock
    rw [← and_assoc, ← hlock, ← hshows]
    constructor
    · rintro ⟨o', -, -, hlocked⟩
      exact hlocked
    · exact fun hlocked => ⟨o, ho, hshown, hlocked⟩

/-- 100 CKB to a key, and 100 CKB to keys that cannot spend them for a time. -/
def sharedTransaction : AnnotatedTransaction :=
  sampleTransaction [sampleInput [sampleCell sampleLock 20000000001] [[]]]
    [sampleCell (sighashLock (List.replicate 20 0x11)) 10000000000,
      sampleCell (multisigLockOf (List.replicate 20 0x22 ++ [0x10, 0, 0, 0, 0, 0, 0, 0x20]))
        10000000000] [[], []] [selfWitness.drop 8]

def sharedPackets : List Sent := samplePackets {} sharedTransaction.encode

/-- The locks of both are shown, one behind each amount. -/
theorem shared_locks_shown : ∃ q,
    (accepted (keySdk []) sharedPackets).signComplete ⟨keySdk [], {}, []⟩ insSign = .ok q ∧
      (accepted (keySdk []) sharedPackets).v.tag = .multiOutputTransfer ∧
      List.Forall₂ (ShowsOwnLock (accepted (keySdk []) sharedPackets) q)
        sharedTransaction.raw.outputs (found .outputEnd (logOf (keySdk []) sharedPackets)) := by
  obtain ⟨ha, q, hq, htag⟩ := @prompts_of_run (keySdk []) sharedPackets ⟨keySdk [], {}, []⟩ insSign
    (fun g _ => decide (g.v.tag = .multiOutputTransfer)) (by decide +kernel) (by decide +kernel)
  have htag := of_decide_eq_true htag
  have hfit : sharedTransaction.Fits := by decide +kernel
  have hp : payload sharedPackets = sharedTransaction.encode := by decide +kernel
  have hkept : List.Forall₂ (KeepsLock (accepted (keySdk []) sharedPackets))
      sharedTransaction.raw.outputs (found .outputEnd (logOf (keySdk []) sharedPackets)) := by
    decide +kernel
  exact ⟨q, hq, htag, (destinations_shown_iff ha hfit hp hq (.inr (.inl htag))).mpr hkept⟩

end SignState
end NervosLedger
