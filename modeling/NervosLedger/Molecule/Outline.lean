import NervosLedger.Molecule.Splitting

/-!
# Assertions about a parser between calls

A parser keeps its position between calls, so what holds of its owner's state may depend on
that position. An outline says what holds while a part is being read, once it is read, and when
a callback in it has thrown; the outline of a table is made of those of its fields.
-/
namespace NervosLedger.Molecule

section Outline
variable {E σ ε : Type}

/-- What holds of a part's owner. -/
structure Outline (σ : Type) where
  pre : σ → Prop
  mid : ReaderState → σ → Prop
  post : σ → Prop
  thrown : ReaderState → σ → Prop

/-- The outcome of a call meets an outline; nothing is said about a rejection. -/
structure Res.Meets (o : Outline σ) (r : Res σ ε) : Prop where
  complete : r.rv = .complete → o.post r.g
  incomplete : r.rv = .incomplete → o.mid r.st r.g
  thrown : ∀ e, r.rv = .throw e → o.thrown r.st r.g

structure Part.Meets (o : Outline σ) (p : Part σ ε) : Prop where
  start : ∀ {g}, o.pre g → o.mid p.initState (p.start g)
  parse : ∀ {st g} (size inp), o.mid st g → (p.parse st size inp g).Meets o

/-- One assertion throughout, and no throws. -/
def Outline.constant (I : σ → Prop) : Outline σ := ⟨I, fun _ => I, I, fun _ _ => False⟩

variable {h : Handler E σ ε}

/-- An event keeps `I`, and does not throw. -/
abbrev KeepAt (h : Handler E σ ε) (I : σ → Prop) (e : E) : Prop :=
  SimAt h h (fun g₁ g₂ => g₁ = g₂ ∧ I g₁) (fun _ => False) e

theorem keepAt {I : σ → Prop} {e : E} (run : ∀ g, I g → I (h.run e g))
    (ask : ∀ g, I g → (h.ask e g).2 = true → I (h.ask e g).1)
    (finish : ∀ g, I g → (h.finish e g).2 = none ∧ I (h.finish e g).1) : KeepAt h I e where
  run := by
    rintro g _ ⟨rfl, hg⟩
    exact ⟨rfl, run g hg⟩
  ask := by
    rintro g _ ⟨rfl, hg⟩ ha
    exact ⟨ha, rfl, ask g hg ha⟩
  finish := by
    rintro g _ ⟨rfl, hg⟩ hn
    exact ⟨hn, rfl, (finish g hg).2⟩
  throws := by
    rintro g _ ⟨rfl, hg⟩ hn
    exact hn (finish g hg).1

theorem Reader.parse_meets_constant {I : σ → Prop} {r : Reader E} (hr : r.Every (KeepAt h I))
    (st : ReaderState) {g : σ} (size : ℕ) (inp : List UInt8) (hg : I g) :
    (r.parse h st size inp g).Meets (.constant I) := by
  rcases parse_follows hr st size inp ⟨rfl, hg⟩ with
    ⟨e₁, -, -, hg'⟩ | ⟨e₁, -, -, hg'⟩ | hr' | ⟨-, hT⟩
  · rw [e₁]
    exact ⟨fun _ => hg', nofun, nofun⟩
  · rw [e₁]
    exact ⟨nofun, fun _ => hg', nofun⟩
  · exact ⟨by simp [hr'], by simp [hr'], by simp [hr']⟩
  · exact hT.elim

theorem Reader.meets_constant {I : σ → Prop} {r : Reader E} (hr : r.Every (KeepAt h I)) :
    (r.part h).Meets (.constant I) where
  start hg := (start_follows hr ⟨rfl, hg⟩).2
  parse size inp hg := parse_meets_constant hr _ size inp hg

/-! ### Stages -/

inductive Next.Meets (o : Outline σ) : Next σ → Prop
  | go {s u g} (h : o.mid (.node s u) g) : Next.Meets o (.go s u g)
  | accept {s u g} (h : o.post g) : Next.Meets o (.accept s u g)
  | refuse {s u g} : Next.Meets o (.refuse s u g)

structure Stage.Meets (o : Outline σ) (s : Frame) (p : Stage σ ε) : Prop where
  incomplete : ∀ {u g} (inp), o.mid (.node s u) g → (p.parse u inp g).rv = .incomplete →
    o.mid (.node s (p.parse u inp g).st) (p.parse u inp g).g
  thrown : ∀ {u g e} (inp), o.mid (.node s u) g → (p.parse u inp g).rv = .throw e →
    o.thrown (.node s (p.parse u inp g).st) (p.parse u inp g).g
  complete : ∀ {u g} (inp), o.mid (.node s u) g → (p.parse u inp g).rv = .complete →
    (p.next (p.parse u inp g).st (p.parse u inp g).g).Meets o

theorem runStages_meets {rank : Frame → ℕ} {stage : Frame → Option (Stage σ ε)}
    (hrank : Ranked rank stage) {o : Outline σ}
    (hdone : ∀ {s u g}, stage s = none → o.mid (.node s u) g → o.post g)
    (hstage : ∀ {s p}, stage s = some p → p.Meets o s) {fuel : ℕ} {s : Frame}
    (hfuel : rank s ≤ fuel) {u : ReaderState} {g : σ} (inp : List UInt8)
    (hg : o.mid (.node s u) g) : (runStages stage fuel s u inp g).Meets o := by
  induction fuel generalizing s u g inp with
  | zero =>
    cases hs : stage s with
    | none => exact ⟨fun _ => hdone hs hg, by simp [runStages], by simp [runStages]⟩
    | some p =>
      have hpos := hrank.pos s p hs
      omega
  | succ fuel ih =>
    unfold runStages
    cases hs : stage s with
    | none => exact ⟨fun _ => hdone hs hg, by simp, by simp⟩
    | some p =>
      have hp := hstage hs
      dsimp only
      cases hrv : (p.parse u inp g).rv with
      | incomplete => exact ⟨by simp, fun _ => hp.incomplete inp hg hrv, by simp⟩
      | reject => exact ⟨by simp, by simp, by simp⟩
      | throw e => exact ⟨by simp, by simp, fun _ _ => hp.thrown inp hg hrv⟩
      | complete =>
        have hn := hp.complete inp hg hrv
        dsimp only
        cases hx : p.next (p.parse u inp g).st (p.parse u inp g).g with
        | go s' u' g' =>
          have hlt := hrank.lt s p _ _ _ _ _ hs hx
          rw [hx] at hn
          cases hn with
          | go hg' => exact ih (by omega) _ hg'
        | accept s' u' g' =>
          rw [hx] at hn
          cases hn with
          | accept hg' => exact ⟨fun _ => hg', by simp, by simp⟩
        | refuse s' u' g' => exact ⟨by simp, by simp, by simp⟩

/-! ### Tables -/

/-- The outline of a table with the fields `os`. -/
def Outline.table (os : List (Outline σ)) (post : σ → Prop) : Outline σ where
  pre g := ∀ o ∈ os[0]?, o.pre g
  mid st g := match st.frame.stateNum with
    | 0 | 1 => ∀ o ∈ os[0]?, o.pre g
    | 2 => ∃ o, os[st.frame.fieldIdx]? = some o ∧ o.mid st.u g
    | _ => ∀ o ∈ os.getLast?, o.post g
  post := post
  thrown st g := st.frame.stateNum = 2 ∧ ∃ o, os[st.frame.fieldIdx]? = some o ∧ o.thrown st.u g

/-- A change of the owner's state that the fields do not see, the table does not see. -/
theorem Outline.mid_table {os : List (Outline σ)} {post : σ → Prop} {f : σ → σ}
    (hpre : ∀ o ∈ os, ∀ g, o.pre g → o.pre (f g))
    (hmid : ∀ o ∈ os, ∀ st g, o.mid st g → o.mid st (f g))
    (hpost : ∀ o ∈ os, ∀ g, o.post g → o.post (f g)) {st : ReaderState} {g : σ}
    (h : (Outline.table os post).mid st g) : (Outline.table os post).mid st (f g) := by
  unfold Outline.table at h ⊢
  dsimp only at h ⊢
  split
  · rename_i hn
    simp only [hn] at h
    exact fun o ho => hpre o (List.mem_of_getElem? ho) g (h o ho)
  · rename_i hn
    simp only [hn] at h
    exact fun o ho => hpre o (List.mem_of_getElem? ho) g (h o ho)
  · rename_i hn
    simp only [hn] at h
    obtain ⟨o, ho, hm⟩ := h
    exact ⟨o, ho, hmid o (List.mem_of_getElem? ho) _ g hm⟩
  · rename_i h0 h1 h2
    split at h
    · rename_i hn
      exact absurd hn h0
    · rename_i hn
      exact absurd hn h1
    · rename_i hn
      exact absurd hn h2
    · exact fun o ho => hpost o (List.mem_of_getLast? ho) g (h o ho)

/-- The outlines of the fields follow from one another, and the table's callbacks fit in. -/
structure Linked (h : Handler E σ ε) (cb : Callbacks E) (os : List (Outline σ))
    (post : σ → Prop) : Prop where
  link : ∀ {i o o'}, os[i]? = some o → os[i + 1]? = some o' → ∀ {g}, o.post g → o'.pre g
  start : cb.start = none
  chunk : cb.chunk = none
  offsets : ∀ {o}, os[0]? = some o → ∀ f ∈ cb.offsets, ∀ n ns {st g}, o.mid st g →
    o.mid st (h.run (f n ns) g)
  close : ∀ {o}, os.getLast? = some o → ∀ {g}, o.post g →
    (h.close cb.finish g).2 = none ∧ post (h.close cb.finish g).1

theorem Res.closed_of_none {r : Res σ ε} {x : σ × Option ε} (hx : x.2 = none) :
    r.closed x = { r with g := x.1 } := by
  obtain ⟨g, _ | e⟩ := x
  · rfl
  · cases hx

section Table
variable {cb : Callbacks E} {os : List (Outline σ)} {ps : List (Part σ ε)} {post : σ → Prop}

theorem fields_meet (hps : List.Forall₂ Part.Meets os ps) {i : ℕ} {o : Outline σ}
    (ho : os[i]? = some o) : ∃ p, ps[i]? = some p ∧ p.Meets o := by
  induction hps generalizing i with
  | nil => cases ho
  | @cons o₁ p₁ os ps hp _ ih =>
    cases i with
    | zero =>
      cases ho
      exact ⟨p₁, rfl, hp⟩
    | succ i => exact ih ho

/-- The outline of a table while its fields are read: the `end` callback is still to come. -/
abbrev Outline.fields (os : List (Outline σ)) : Outline σ :=
  .table os fun g => ∀ o ∈ os.getLast?, o.post g

theorem mid_header {s : Frame} {u : ReaderState} {g : σ} (h01 : s.stateNum = 0 ∨ s.stateNum = 1) :
    (Outline.fields os).mid (.node s u) g ↔ ∀ o ∈ os[0]?, o.pre g := by
  rcases h01 with h | h <;> simp only [Outline.fields, Outline.table, ReaderState.frame_node, h]

theorem mid_field {s : Frame} {u : ReaderState} {g : σ} (h2 : s.stateNum = 2) :
    (Outline.fields os).mid (.node s u) g ↔ ∃ o, os[s.fieldIdx]? = some o ∧ o.mid u g := by
  simp only [Outline.fields, Outline.table, ReaderState.frame_node, h2, ReaderState.u_node]

theorem headerStage_meets {s : Frame} (h01 : s.stateNum = 0 ∨ s.stateNum = 1)
    {next : ReaderState → σ → Next σ}
    (hnext : ∀ {u g}, (∀ o ∈ os[0]?, o.pre g) → (next u g).Meets (.fields os)) :
    Stage.Meets (.fields os) s ⟨molParseNum h, next⟩ := by
  constructor
  · intro u g inp hg hrv
    dsimp only at hrv ⊢
    rcases molParseNum_cases (h := h) u inp g with ⟨u', rest, hx⟩ | ⟨u', hx⟩
    · simp [hx] at hrv
    · rw [hx]
      exact (mid_header h01).mpr ((mid_header h01).mp hg)
  · intro u g e inp hg hrv
    rcases molParseNum_cases (h := h) u inp g with ⟨u', rest, hx⟩ | ⟨u', hx⟩
    · simp [hx] at hrv
    · simp [hx] at hrv
  · intro u g inp hg hrv
    dsimp only at hrv ⊢
    rcases molParseNum_cases (h := h) u inp g with ⟨u', rest, hx⟩ | ⟨u', hx⟩
    · rw [hx]
      exact hnext ((mid_header h01).mp hg)
    · simp [hx] at hrv

theorem tableStage_meets (hl : Linked h cb os post) (hps : List.Forall₂ Part.Meets os ps)
    {size : ℕ} {s : Frame} {p : Stage σ ε} (hs : tableStage h cb ps size s = some p) :
    p.Meets (.fields os) s := by
  unfold tableStage at hs
  split at hs
  · rename_i h0
    cases hs
    refine headerStage_meets (.inl h0) fun hg => ?_
    dsimp only
    split
    · exact .refuse
    · exact .go hg
  · rename_i h1
    cases hs
    refine headerStage_meets (.inr h1) fun {u g} hg => ?_
    dsimp only
    cases hps with
    | nil => exact .accept fun o ho => nomatch ho
    | @cons o first os rest hfirst hrest =>
      dsimp only
      split
      · exact .go ((mid_header
          (s := ⟨s.stateNum, s.fieldIdx + 1, s.totalSize, s.offsets ++ [u.num]⟩)
          (.inr h1)).mpr hg)
      · have hm := hfirst.start (hg o rfl)
        refine .go ⟨o, rfl, ?_⟩
        cases ho : cb.offsets with
        | none => exact hm
        | some f => exact hl.offsets rfl f ho _ _ hm
  · rename_i h2
    split at hs
    · cases hs
    · rename_i field hfield
      cases hs
      constructor
      · intro u g inp hg hrv
        obtain ⟨o, ho, hm⟩ := (mid_field h2).mp hg
        obtain ⟨p, hp, hmeets⟩ := fields_meet hps ho
        obtain rfl : field = p := Option.some.inj (hfield.symm.trans hp)
        exact (mid_field h2).mpr ⟨o, ho, (hmeets.parse _ inp hm).incomplete hrv⟩
      · intro u g e inp hg hrv
        obtain ⟨o, ho, hm⟩ := (mid_field h2).mp hg
        obtain ⟨p, hp, hmeets⟩ := fields_meet hps ho
        obtain rfl : field = p := Option.some.inj (hfield.symm.trans hp)
        exact ⟨h2, o, ho, (hmeets.parse _ inp hm).thrown e hrv⟩
      · intro u g inp hg hrv
        obtain ⟨o, ho, hm⟩ := (mid_field h2).mp hg
        obtain ⟨p, hp, hmeets⟩ := fields_meet hps ho
        obtain rfl : field = p := Option.some.inj (hfield.symm.trans hp)
        have hpost := (hmeets.parse _ inp hm).complete hrv
        dsimp only
        split
        · rename_i hnone
          refine .go fun o' ho' => ?_
          have hlen := hps.length_eq
          have hlast : os.getLast? = some o := by
            rw [List.getLast?_eq_getElem?]
            have hle := List.getElem?_eq_none_iff.mp hnone
            have hlt := (List.getElem?_eq_some_iff.mp ho).1
            rwa [show os.length - 1 = s.fieldIdx by omega]
          obtain rfl : o = o' := Option.some.inj (hlast.symm.trans ho')
          exact hpost
        · rename_i field' hfield'
          have hlt := (List.getElem?_eq_some_iff.mp hfield').1
          rw [← hps.length_eq] at hlt
          obtain ⟨p', hp', hmeets'⟩ := fields_meet hps (List.getElem?_eq_getElem hlt)
          obtain rfl : field' = p' := Option.some.inj (hfield'.symm.trans hp')
          have hpre := hl.link ho (List.getElem?_eq_getElem hlt) hpost
          exact .go ((mid_field (s := { s with fieldIdx := s.fieldIdx + 1 }) h2).mpr
            ⟨_, List.getElem?_eq_getElem hlt, hmeets'.start hpre⟩)
  · cases hs

theorem tableStage_done (hps : List.Forall₂ Part.Meets os ps) {size : ℕ} {s : Frame}
    {u : ReaderState} {g : σ} (hs : tableStage h cb ps size s = none)
    (hg : (Outline.fields os).mid (.node s u) g) : (Outline.fields os).post g := by
  unfold tableStage at hs
  split at hs
  · cases hs
  · cases hs
  · rename_i h2
    split at hs
    · rename_i hnone
      simp only [Outline.fields, Outline.table, ReaderState.frame_node, h2] at hg
      obtain ⟨o, ho, -⟩ := hg
      obtain ⟨p, hp, -⟩ := fields_meet hps ho
      rw [hnone] at hp
      cases hp
    · cases hs
  · rename_i h0 h1 h2
    obtain ⟨n, hn⟩ : ∃ n, s.stateNum = n + 3 := ⟨s.stateNum - 3, by
      have h0' : s.stateNum ≠ 0 := h0
      have h1' : s.stateNum ≠ 1 := h1
      have h2' : s.stateNum ≠ 2 := h2
      omega⟩
    simpa only [Outline.fields, Outline.table, ReaderState.frame_node, hn] using hg

/-- The outlines of the fields make up one of the table. -/
theorem Reader.parse_table_meets {last : ℕ} {fields : Fin (last + 1) → Reader E}
    (hl : Linked h cb os post)
    (hps : List.Forall₂ Part.Meets os (List.ofFn fun i => (fields i).part h)) {st : ReaderState}
    {g : σ} (size : ℕ) (inp : List UInt8) (hg : (Outline.table os post).mid st g) :
    ((Reader.table cb last fields).parse h st size inp g).Meets (.table os post) := by
  have hrank := tableStage_ranked (h := h) cb size (List.ofFn fun i => (fields i).part h)
  rw [List.length_ofFn] at hrank
  have hm := runStages_meets hrank (o := .fields os) (tableStage_done hps)
    (tableStage_meets hl hps) le_rfl inp (s := st.frame) (u := st.u) (g := g) hg
  rw [parse_table, parseStages, runAll]
  generalize runStages _ _ _ _ _ _ = r at hm ⊢
  have hne : os ≠ [] := by
    rintro rfl
    have hlen := hps.length_eq
    simp at hlen
  unfold leave
  rw [hl.chunk]
  dsimp only [Option.map_none, Handler.fire_none]
  cases hrv : r.rv with
  | throw e => exact ⟨fun hi => by simp [hrv] at hi, fun hi => by simp [hrv] at hi,
      fun e he => hm.thrown e he⟩
  | reject =>
    dsimp only
    split <;> exact ⟨by simp, by simp, by simp⟩
  | incomplete => exact ⟨by simp, fun _ => hm.incomplete hrv, by simp⟩
  | complete =>
    obtain ⟨hnone, hpost⟩ := hl.close (List.getLast?_eq_some_getLast hne)
      (hm.complete hrv _ (List.getLast?_eq_some_getLast hne))
    rw [Res.closed_of_none hnone]
    exact ⟨fun _ => hpost, fun hi => by simp [hrv] at hi, fun e hi => by simp [hrv] at hi⟩

end Table

/-! ### The end of a parser -/

theorem runStages_done {rank : Frame → ℕ} {stage : Frame → Option (Stage σ ε)}
    (hrank : Ranked rank stage)
    (hgo : ∀ {s p}, stage s = some p → ∀ u g s' u' g', p.next u g ≠ .accept s' u' g')
    {fuel : ℕ} {s : Frame} (hfuel : rank s ≤ fuel) {u : ReaderState} {inp : List UInt8} {g : σ}
    (hc : (runStages stage fuel s u inp g).rv = .complete) :
    stage (runStages stage fuel s u inp g).st.frame = none := by
  induction fuel generalizing s u g inp with
  | zero =>
    cases hs : stage s with
    | none => exact hs
    | some p =>
      have hpos := hrank.pos s p hs
      omega
  | succ fuel ih =>
    unfold runStages at hc ⊢
    cases hs : stage s with
    | none => exact hs
    | some p =>
      simp only [hs] at hc ⊢
      cases hrv : (p.parse u inp g).rv with
      | incomplete => simp [hrv] at hc
      | reject => simp [hrv] at hc
      | throw e => simp [hrv] at hc
      | complete =>
        simp only [hrv] at hc ⊢
        cases hx : p.next (p.parse u inp g).st (p.parse u inp g).g with
        | go s' u' g' =>
          have hlt := hrank.lt s p _ _ _ _ _ hs hx
          simp only [hx] at hc ⊢
          exact ih (by omega) hc
        | accept s' u' g' => exact absurd hx (hgo hs _ _ _ _ _)
        | refuse s' u' g' => simp [hx] at hc

theorem leave_complete {cb : Callbacks E} {inp : List UInt8} {r : Res σ ε} (hf : cb.finish = none)
    (hc : (leave h cb inp r).rv = .complete) :
    r.rv = .complete ∧ (leave h cb inp r).st = r.st := by
  obtain ⟨rv, st, rest, g, d⟩ := r
  cases rv with
  | complete => simp [leave, hf, Res.closed]
  | incomplete => cases hc
  | reject => cases d <;> cases hc
  | throw e => cases hc

/-- A field that throws ends the call of its table. -/
theorem Reader.parse_table_throw {cb : Callbacks E} {last : ℕ}
    {fields : Fin (last + 1) → Reader E} {st : ReaderState} {size : ℕ} {inp : List UInt8} {g : σ}
    {field : Part σ ε} {r : Res σ ε} (h2 : st.frame.stateNum = 2)
    (hf : (List.ofFn fun i => (fields i).part h)[st.frame.fieldIdx]? = some field)
    (hr : field.parse st.u (st.frame.fieldSize st.frame.fieldIdx) inp g = r) {e : ε}
    (ht : r.rv = .throw e) :
    (table cb last fields).parse h st size inp g =
      ⟨.throw e, .node st.frame r.st, r.rest, r.g, false⟩ := by
  subst hr
  have hrank := tableStage_ranked (h := h) cb size (List.ofFn fun i => (fields i).part h)
  rw [List.length_ofFn] at hrank
  obtain ⟨next, hs⟩ : ∃ next, tableStage h cb (List.ofFn fun i => (fields i).part h) size st.frame =
      some ⟨fun u => field.parse u (st.frame.fieldSize st.frame.fieldIdx), next⟩ := by
    unfold tableStage
    rw [h2]
    simp only [hf]
    exact ⟨_, rfl⟩
  rw [parse_table, parseStages, hrank.runAll_some hs]
  simp only [ht, leave]

/-- A fixed vector that is complete makes its `end` callback again. -/
theorem Reader.parse_fixVec_past (cb : Callbacks E) {width : ℕ} {item : Reader E}
    {st : ReaderState} {k : ℕ} (hk : st.frame.stateNum = k + 1) (hle : st.frame.totalSize ≤ k)
    (hc : cb.chunk = none) (size : ℕ) (inp : List UInt8) (g : σ) :
    (fixVec cb width item).parse h st size inp g =
      Res.closed ⟨.complete, .node st.frame st.u, inp, g, false⟩ (h.close cb.finish g) := by
  have hs : fixVecStage h cb width (item.part h) size st.frame = none := by
    unfold fixVecStage
    rw [hk]
    exact if_neg (not_lt.mpr hle)
  rw [parse_fixVec, parseStages, runAll_none hs]
  simp only [leave, hc, Option.map_none, Handler.fire_none]

/-- A table that is complete is past its last field. -/
theorem Reader.parse_table_done {cb : Callbacks E} {last : ℕ}
    {fields : Fin (last + 1) → Reader E} {st : ReaderState} {size : ℕ} {inp : List UInt8} {g : σ}
    (hf : cb.finish = none) (hc : ((table cb last fields).parse h st size inp g).rv = .complete) :
    ((table cb last fields).parse h st size inp g).st.frame.AtEnd (last + 1) := by
  have hrank := tableStage_ranked (h := h) cb size (List.ofFn fun i => (fields i).part h)
  rw [List.length_ofFn] at hrank
  rw [parse_table, parseStages] at hc ⊢
  obtain ⟨hr, hst⟩ := leave_complete hf hc
  have hdone := runStages_done hrank ?_ le_rfl hr
  · rw [tableStage_eq_none, List.length_ofFn] at hdone
    rw [hst]
    exact hdone
  · intro s p hs u g s' u' g'
    unfold tableStage at hs
    split at hs
    · cases hs
      dsimp only
      split <;> nofun
    · cases hs
      rw [List.ofFn_succ]
      dsimp only
      split <;> nofun
    · split at hs
      · cases hs
      · cases hs
        dsimp only
        split <;> nofun
    · cases hs

/-! ### Vectors whose `end` callback changes the assertion -/

section Vector
variable {cb : Callbacks E}

/-- The callback table without its `end` slot. -/
def Callbacks.unfinished (cb : Callbacks E) : Callbacks E := { cb with finish := none }

/-- The outcome once the `end` callback was made. -/
def Res.finished (h : Handler E σ ε) (cb : Callbacks E) (r : Res σ ε) : Res σ ε :=
  match r.rv with
  | .complete => r.closed (h.close cb.finish r.g)
  | _ => r

theorem leave_eq_finished (inp : List UInt8) (r : Res σ ε) :
    leave h cb inp r = (leave h cb.unfinished inp r).finished h cb := by
  obtain ⟨rv, st, rest, g, d⟩ := r
  cases rv with
  | complete =>
    simp only [leave, Res.finished, Callbacks.unfinished, Handler.close_none, Res.closed]
  | incomplete => rfl
  | reject => cases d <;> rfl
  | throw e => rfl

theorem Reader.parse_fixVec_eq_finished (width : ℕ) (item : Reader E) (st : ReaderState)
    (size : ℕ) (inp : List UInt8) (g : σ) : (Reader.fixVec cb width item).parse h st size inp g =
      ((Reader.fixVec cb.unfinished width item).parse h st size inp g).finished h cb :=
  leave_eq_finished inp _

theorem Reader.parse_dynVec_eq_finished (item : Reader E) (st : ReaderState)
    (size : ℕ) (inp : List UInt8) (g : σ) : (Reader.dynVec cb item).parse h st size inp g =
      ((Reader.dynVec cb.unfinished item).parse h st size inp g).finished h cb :=
  leave_eq_finished inp _

theorem Res.finished_meets {I : σ → Prop} {o : Outline σ} {r : Res σ ε}
    (hr : r.Meets (.constant I)) (hmid : ∀ {st g}, I g → o.mid st g)
    (hpost : ∀ {g}, I g → (h.close cb.finish g).2 = none → o.post (h.close cb.finish g).1)
    (hthrown : ∀ {g}, r.rv = .complete → I g → (h.close cb.finish g).2 ≠ none →
      o.thrown r.st (h.close cb.finish g).1) : (r.finished h cb).Meets o := by
  unfold Res.finished
  split
  · rename_i hrv
    have hg : I r.g := hr.complete hrv
    cases hx : (h.close cb.finish r.g).2 with
    | none =>
      rw [Res.closed_of_none hx]
      exact ⟨fun _ => hpost hg hx, fun hi => by simp [hrv] at hi, fun e hi => by simp [hrv] at hi⟩
    | some e =>
      have ht := hthrown hrv hg (by simp [hx])
      generalize h.close cb.finish r.g = x at hx ht ⊢
      obtain ⟨g', x⟩ := x
      cases hx
      exact ⟨nofun, nofun, fun _ _ => ht⟩
  · rename_i hrv
    exact ⟨fun hi => absurd hi hrv, fun hi => hmid (hr.incomplete hi),
      fun e hi => (hr.thrown e hi).elim⟩

/-- A fixed vector that is complete is past its last item. -/
theorem Reader.parse_fixVec_done {width : ℕ} {item : Reader E} {st : ReaderState}
    {size : ℕ} {inp : List UInt8} {g : σ}
    (hc : ((Reader.fixVec cb.unfinished width item).parse h st size inp g).rv = .complete) :
    ∃ k, ((Reader.fixVec cb.unfinished width item).parse h st size inp g).st.frame.stateNum = k + 1 ∧
      ((Reader.fixVec cb.unfinished width item).parse h st size inp g).st.frame.totalSize ≤ k := by
  rw [parse_fixVec, parseStages] at hc ⊢
  obtain ⟨hr, hst⟩ := leave_complete rfl hc
  have hdone := runStages_done (fixVecStage_ranked cb.unfinished (item.part h) size width) ?_
    le_rfl hr
  · rw [hst, runAll]
    unfold fixVecStage at hdone
    split at hdone
    · cases hdone
    · rename_i k hk
      split at hdone
      · cases hdone
      · rename_i hle
        exact ⟨k, hk, not_lt.mp hle⟩
  · intro s p hs u g s' u' g'
    unfold fixVecStage at hs
    split at hs
    · cases hs
      dsimp only
      split
      · simp
      · cases h.allow _ g with
        | mk g b => cases b <;> simp [Next.allowed]
    · split at hs
      · cases hs
        simp
      · cases hs

end Vector

end Outline
end NervosLedger.Molecule
