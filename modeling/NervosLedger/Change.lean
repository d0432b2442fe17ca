import NervosLedger.Recipients

/-!
# What is taken for change

The lock arguments of an output are compared with 28 bytes: the change lock argument, and the
beginning of what stands behind it in the state. Arguments that end early are equal so far, and the
code hash is looked at only for the multisig lock.
-/
namespace NervosLedger
open Molecule Machine
namespace SignState

/-! ### What `output_end` finds -/

/-- What was read of an output. -/
structure FoundFor (c : CellOutput) (r : SignState) : Prop where
  isDao : r.cell.isDao = c.isDao
  isMultisig : r.cell.isMultisig = c.isMultisig
  nonequal : r.cell.lockArgNonequal = !c.lock.args.isPrefixOf r.changeWindow
  lockArgTmp : c.lock.args.length ≤ 28 → r.lockArgTmp = .ofList 28 c.lock.args

theorem OutputFound.foundFor {c : CellOutput} {k : ℕ} {g r : SignState} (h : OutputFound c k g r) :
    FoundFor c r := by
  refine ⟨h.isDao, h.isMultisig, ?_, h.lockArgTmp⟩
  rw [h.nonequal, changeWindow, changeWindow, h.changeLockArg, h.daoCellOwner]

theorem outputs_foundFor {env : Env} {xs : List (CellOutput × ℕ)} {y y' : Ended}
    (h : Steps (OutputDone env) xs y y') {cs : List CellOutput} (hcs : List.Forall₂ FoundFor cs y.2) :
    List.Forall₂ FoundFor (cs ++ xs.map Prod.fst) y'.2 := by
  induction h generalizing cs with
  | nil => rwa [List.map_nil, List.append_nil]
  | @cons x xs y y₁ y' h _ ih =>
    obtain ⟨r, g, -, hr, -, rfl⟩ := h
    have hsnoc : List.Forall₂ FoundFor (cs ++ [x.1]) (y.2 ++ [r]) :=
      List.rel_append hcs (.cons hr.foundFor .nil)
    have hrest := ih hsnoc
    rwa [List.append_assoc] at hrest

variable {sdk : Sdk} {t : AnnotatedTransaction} {s : Stages sdk t}

/-- `output_end` is called once for every output, in their order. -/
theorem Accepts.foundFor {sent : List Sent} (ha : Accepts sdk sent) (hfit : t.Fits)
    (hp : payload sent = t.encode) :
    List.Forall₂ FoundFor t.raw.outputs (found .outputEnd (logOf sdk sent)) := by
  obtain ⟨s, hpassed, -, houtputs, -⟩ := ha.passed hfit hp
  have hsent := outputs_foundFor hpassed.outputs .nil
  rw [List.zipIdx_map_fst, List.nil_append] at hsent
  have hcore : ∀ rs : List SignState, List.Forall₂ FoundFor t.raw.outputs (rs.map core) ↔
      List.Forall₂ FoundFor t.raw.outputs rs := by
    intro rs
    rw [List.forall₂_map_right_iff]
    have hrel : (fun c r => FoundFor c (core r)) = FoundFor := by
      funext c r
      exact propext ⟨fun h => ⟨h.1, h.2, h.3, h.4⟩, fun h => ⟨h.1, h.2, h.3, h.4⟩⟩
    rw [hrel]
  rw [← hcore, houtputs, hcore]
  exact hsent

theorem FoundFor.own_iff {c : CellOutput} {r : SignState} (h : FoundFor c r) :
    Own r ↔ c.lock.codeHash ≠ multisigLockScript ∧ c.lock.args <+: r.changeWindow := by
  rw [Own, h.nonequal, h.isMultisig, CellOutput.isMultisig, Bool.not_eq_false',
    List.isPrefixOf_iff_prefix, decide_eq_false_iff_not]
  exact and_comm

/-! ### Locks that look like the change lock -/

/-- The lock that change is to be sent to. -/
def changeLock (g : SignState) : Script := ⟨defaultLockScript, 1, g.changeLockArg.toList⟩

/-- A lock that is taken for the change lock. -/
def Lookalike (g : SignState) (s : Script) : Prop :=
  s.args.length < 20 ∧ s.args <+: g.changeLockArg.toList ∨
  (20 < s.args.length ∧ s.args.length ≤ 28) ∧
    s.args = g.changeLockArg.toList ++ g.daoCellOwner.toList.take (s.args.length - 20) ∨
  s.args = g.changeLockArg.toList ∧ (s.codeHash ≠ defaultLockScript ∨ s.hashType ≠ 1)

instance (g : SignState) (s : Script) : Decidable (Lookalike g s) :=
  inferInstanceAs (Decidable (_ ∨ _ ∨ _))

theorem prefix_changeWindow_iff (g : SignState) (s : Script) :
    s.args <+: g.changeWindow ↔ s = changeLock g ∨ Lookalike g s := by
  have hlen : g.changeLockArg.toList.length = 20 := g.changeLockArg.length_eq
  have hlock : s = changeLock g ↔
      s.args = g.changeLockArg.toList ∧ ¬ (s.codeHash ≠ defaultLockScript ∨ s.hashType ≠ 1) := by
    cases s
    simp only [changeLock, Script.mk.injEq, not_or, not_not, ne_eq]
    tauto
  rw [hlock, Lookalike, changeWindow]
  generalize g.changeLockArg.toList = key at hlen ⊢
  generalize hown : g.daoCellOwner.toList = owner
  have howner : owner.length = 20 := by rw [← hown, g.daoCellOwner.length_eq]
  rw [List.prefix_iff_eq_take, List.take_append, hlen]
  rcases Nat.lt_trichotomy s.args.length 20 with hlt | heq | hgt
  · have hne : s.args ≠ key := by
      rintro h
      rw [h] at hlt
      omega
    have hrest : s.args.length - 20 = 0 := by omega
    rw [List.prefix_iff_eq_take, hrest]
    simp [hlt, hne, not_lt.mpr hlt.le]
  · have hkey : key.take s.args.length = key := List.take_of_length_le (by omega)
    rw [hkey, heq, Nat.sub_self, List.take_zero, List.append_nil]
    simp only [lt_irrefl, false_and, false_or]
    tauto
  · have hkey : key.take s.args.length = key := List.take_of_length_le (by omega)
    have hne : s.args ≠ key := by
      rintro h
      rw [h] at hgt
      omega
    rw [hkey, List.take_take]
    constructor
    · intro h
      have hle : s.args.length ≤ 28 := by
        have hl := congrArg List.length h
        rw [List.length_append, List.length_take] at hl
        omega
      rw [Nat.min_eq_left (by omega)] at h
      exact .inr (.inr (.inl ⟨⟨hgt, hle⟩, h⟩))
    · rintro (h | h | h | h)
      · exact absurd h.1 hne
      · exact absurd h.1 (by omega)
      · rw [Nat.min_eq_left (by omega)]
        exact h.2
      · exact absurd h.1 hne

/-- Change goes to the change lock exactly if no output has a lock that looks like it. -/
theorem change_exact_iff {sent : List Sent} (ha : Accepts sdk sent) (hfit : t.Fits)
    (hp : payload sent = t.encode) :
    List.Forall₂ (fun c r => Own r → c.lock = changeLock r) t.raw.outputs
        (found .outputEnd (logOf sdk sent)) ↔
      List.Forall₂ (fun c r => c.lock.codeHash ≠ multisigLockScript → ¬ Lookalike r c.lock)
        t.raw.outputs (found .outputEnd (logOf sdk sent)) := by
  have hiff : ∀ {c r}, FoundFor c r → ((Own r → c.lock = changeLock r) ↔
      (c.lock.codeHash ≠ multisigLockScript → ¬ Lookalike r c.lock)) := by
    intro c r h
    rw [h.own_iff, prefix_changeWindow_iff]
    have hlook : Lookalike r c.lock → c.lock ≠ changeLock r := by
      intro hlook heq
      rw [heq] at hlook
      simp [Lookalike, changeLock] at hlook
    tauto
  have hall := ha.foundFor hfit hp
  generalize found .outputEnd (logOf sdk sent) = rs at hall ⊢
  generalize t.raw.outputs = cs at hall ⊢
  induction hall with
  | nil => simp
  | cons h _ ih =>
    rw [List.forall₂_cons, List.forall₂_cons]
    exact and_congr (hiff h) ih

/-- 100 CKB of the sample key go to a lock with some arguments. -/
def shortTransaction (args : List UInt8) : AnnotatedTransaction :=
  sampleTransaction [sampleInput [sampleCell sampleLock 20000000001] [[]]]
    [sampleCell (sighashLock args) 10000000000] [[]] [selfWitness.drop 8]

theorem shortTransaction_outputs (args : List UInt8) :
    (shortTransaction args).raw.outputs = [sampleCell (sighashLock args) 10000000000] := rfl

def shortPackets (args : List UInt8) : List Sent := samplePackets {} (shortTransaction args).encode

/-- A lock without arguments is taken for the change lock. -/
theorem empty_args_change : ¬ ∀ (sdk : Sdk) (sent : List Sent) (t : AnnotatedTransaction)
    (env : Env) (ins : UInt8) (q : Prompt), Accepts sdk sent → t.Fits → payload sent = t.encode →
      (accepted sdk sent).signComplete env ins = .ok q →
        List.Forall₂ (fun c r => Own r → c.lock = changeLock r) t.raw.outputs
          (found .outputEnd (logOf sdk sent)) := by
  intro h
  obtain ⟨ha, q, hq, -⟩ := @prompts_of_run (keySdk []) (shortPackets []) ⟨keySdk [], {}, []⟩
    insSign (fun _ _ => true) (by decide +kernel) (by decide +kernel)
  have hfit : (shortTransaction []).Fits := by decide +kernel
  have hp : payload (shortPackets []) = (shortTransaction []).encode := by decide +kernel
  have hall := (change_exact_iff ha hfit hp).mp (h _ _ _ _ _ q ha hfit hp hq)
  rw [shortTransaction_outputs] at hall
  generalize found SignEvent.outputEnd (logOf (keySdk []) (shortPackets [])) = rs at hall
  cases hall with
  | cons hlook _ => exact hlook (by decide) (.inl ⟨by decide, List.nil_prefix⟩)

theorem not_lookalike {args : List UInt8} (h : args.length = 20) (g : SignState) :
    ¬ Lookalike g (sighashLock args) := by
  rintro (⟨hlt, -⟩ | ⟨⟨hgt, -⟩, -⟩ | ⟨-, hcode | htype⟩)
  · exact absurd hlt (by simp [sighashLock, h])
  · exact absurd hgt (by simp [sighashLock, h])
  · exact hcode rfl
  · exact htype rfl

/-- The lock of the sample key itself is the change lock. -/
theorem full_args_change : List.Forall₂ (fun c r => Own r → c.lock = changeLock r)
    (shortTransaction (sampleKeyHash.toList.take 20)).raw.outputs
      (found .outputEnd (logOf (keySdk []) (shortPackets (sampleKeyHash.toList.take 20)))) := by
  obtain ⟨ha, -⟩ := @prompts_of_run (keySdk []) (shortPackets (sampleKeyHash.toList.take 20))
    ⟨keySdk [], {}, []⟩ insSign (fun _ _ => true) (by decide +kernel) (by decide +kernel)
  have hfit : (shortTransaction (sampleKeyHash.toList.take 20)).Fits := by decide +kernel
  have hp : payload (shortPackets (sampleKeyHash.toList.take 20)) =
      (shortTransaction (sampleKeyHash.toList.take 20)).encode := by decide +kernel
  apply (change_exact_iff ha hfit hp).mpr
  have hall := ha.foundFor hfit hp
  rw [shortTransaction_outputs] at hall ⊢
  generalize found SignEvent.outputEnd (logOf (keySdk [])
    (shortPackets (sampleKeyHash.toList.take 20))) = rs at hall ⊢
  cases hall with
  | cons _ htail =>
    cases htail
    exact .cons (fun _ => not_lookalike (by decide) _) .nil

end SignState
end NervosLedger
