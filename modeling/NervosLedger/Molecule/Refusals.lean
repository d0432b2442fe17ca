import NervosLedger.Molecule.Traced

/-!
# What holds however a call ends

The outline of a part does not speak of a rejection. Where one assertion bears on all callbacks of
a field, it also holds when the field is rejected, and so it does for the table of these fields and
for a vector whose items begin with an `index` callback.
-/
namespace NervosLedger.Molecule

section Refusals
variable {E σ ε : Type} {h : Handler E σ ε}

/-- One assertion throughout, whatever the callbacks throw. -/
def Outline.throughout (I : σ → Prop) : Outline σ := ⟨I, fun _ => I, I, fun _ => I⟩

/-- The outcome of a call meets an outline, and `K` holds if it is a rejection. -/
structure Res.Leaves (K : σ → Prop) (o : Outline σ) (r : Res σ ε) : Prop where
  meets : r.Meets o
  refused : r.rv = .reject → K r.g

structure Part.Leaves (K : σ → Prop) (o : Outline σ) (p : Part σ ε) : Prop where
  start : ∀ {g}, o.pre g → o.mid p.initState (p.start g)
  parse : ∀ {st g} (size inp), o.mid st g → (p.parse st size inp g).Leaves K o

theorem Part.Leaves.meets {K : σ → Prop} {o : Outline σ} {p : Part σ ε} (hp : p.Leaves K o) :
    p.Meets o := ⟨hp.start, fun size inp hm => (hp.parse size inp hm).meets⟩

theorem Res.leaves_throughout {I : σ → Prop} {r : Res σ ε} (hr : I r.g) :
    r.Leaves I (.throughout I) := ⟨⟨fun _ => hr, fun _ => hr, fun _ _ => hr⟩, fun _ => hr⟩

theorem Res.Leaves.mono {K K' : σ → Prop} {o : Outline σ} {r : Res σ ε} (hr : r.Leaves K o)
    (hK : ∀ g, K g → K' g) : r.Leaves K' o := ⟨hr.meets, fun h => hK _ (hr.refused h)⟩

theorem Part.Leaves.mono {K K' : σ → Prop} {o : Outline σ} {p : Part σ ε} (hp : p.Leaves K o)
    (hK : ∀ g, K g → K' g) : p.Leaves K' o :=
  ⟨hp.start, fun size inp hm => (hp.parse size inp hm).mono hK⟩

theorem Reader.leaves_throughout {I : σ → Prop} {r : Reader E} (hr : r.Every (KeepsAt h I)) :
    (r.part h).Leaves I (.throughout I) where
  start {g} hg := by
    have hs := start_agrees (hr.mono fun _ => KeepsAt.same) ⟨rfl, hg⟩
    exact hs.2
  parse size inp hg := Res.leaves_throughout (parse_keeps hr _ size inp hg)

/-! ### Tables -/

section Table
variable {cb : Callbacks E} {os : List (Outline σ)} {ps : List (Part σ ε)} {post : σ → Prop}
  {K : σ → Prop}

/-- What a rejection leaves, after any number of stages. -/
theorem runStages_refused {rank : Frame → ℕ} {stage : Frame → Option (Stage σ ε)}
    (hrank : Ranked rank stage) {o : Outline σ}
    (hstage : ∀ {s p}, stage s = some p → p.Meets o s)
    (hrefused : ∀ {s p}, stage s = some p → ∀ {u g} (inp), o.mid (.node s u) g →
      ((p.parse u inp g).rv = .reject → K (p.parse u inp g).g) ∧
        ∀ s' u' g', (p.parse u inp g).rv = .complete →
          p.next (p.parse u inp g).st (p.parse u inp g).g = .refuse s' u' g' → K g')
    {fuel : ℕ} {s : Frame} (hfuel : rank s ≤ fuel) {u : ReaderState} {g : σ} (inp : List UInt8)
    (hg : o.mid (.node s u) g) (hr : (runStages stage fuel s u inp g).rv = .reject) :
    K (runStages stage fuel s u inp g).g := by
  induction fuel generalizing s u g inp with
  | zero =>
    cases hs : stage s with
    | none => cases hr
    | some p =>
      have hpos := hrank.pos s p hs
      omega
  | succ fuel ih =>
    unfold runStages at hr ⊢
    cases hs : stage s with
    | none => simp [hs] at hr
    | some p =>
      have hp := hstage hs
      obtain ⟨hreject, hrefuse⟩ := hrefused hs inp hg
      simp only [hs] at hr ⊢
      cases hrv : (p.parse u inp g).rv with
      | incomplete => simp [hrv] at hr
      | throw e => simp [hrv] at hr
      | reject => exact hreject hrv
      | complete =>
        have hn := hp.complete inp hg hrv
        simp only [hrv] at hr ⊢
        cases hx : p.next (p.parse u inp g).st (p.parse u inp g).g with
        | go s' u' g' =>
          have hlt := hrank.lt s p _ _ _ _ _ hs hx
          rw [hx] at hn
          cases hn with
          | go hg' =>
            simp only [hx] at hr ⊢
            exact ih (by omega) _ hg' hr
        | accept s' u' g' => simp [hx] at hr
        | refuse s' u' g' => exact hrefuse _ _ _ hrv hx

theorem fields_leave (hps : List.Forall₂ (fun o p => Part.Leaves K o p) os ps) {i : ℕ}
    {o : Outline σ} (ho : os[i]? = some o) : ∃ p, ps[i]? = some p ∧ p.Leaves K o := by
  induction hps generalizing i with
  | nil => cases ho
  | @cons o₁ p₁ os ps hp _ ih =>
    cases i with
    | zero =>
      cases ho
      exact ⟨p₁, rfl, hp⟩
    | succ i => exact ih ho

theorem tableStage_refused (hps : List.Forall₂ (fun o p => Part.Leaves K o p) os ps)
    (hpre : ∀ g, (∀ o ∈ os[0]?, o.pre g) → K g) {size : ℕ} {s : Frame} {p : Stage σ ε}
    (hs : tableStage h cb ps size s = some p) {u : ReaderState} {g : σ} (inp : List UInt8)
    (hg : (Outline.fields os).mid (.node s u) g) :
    ((p.parse u inp g).rv = .reject → K (p.parse u inp g).g) ∧
      ∀ s' u' g', (p.parse u inp g).rv = .complete →
        p.next (p.parse u inp g).st (p.parse u inp g).g = .refuse s' u' g' → K g' := by
  unfold tableStage at hs
  split at hs
  · rename_i h0
    cases hs
    rcases molParseNum_cases (h := h) u inp g with ⟨u', rest, hx⟩ | ⟨u', hx⟩
    · refine ⟨by simp [hx], fun s' u'' g' _ hnext => ?_⟩
      dsimp only at hnext
      rw [hx] at hnext
      split at hnext
      · cases hnext
        exact hpre g ((mid_header (.inl h0)).mp hg)
      · cases hnext
    · exact ⟨by simp [hx], fun _ _ _ hc => by simp [hx] at hc⟩
  · rename_i h1
    cases hs
    rcases molParseNum_cases (h := h) u inp g with ⟨u', rest, hx⟩ | ⟨u', hx⟩
    · refine ⟨by simp [hx], fun s' u'' g' _ hnext => ?_⟩
      dsimp only at hnext
      rw [hx] at hnext
      cases ps with
      | nil => cases hnext
      | cons first rest =>
        dsimp only at hnext
        split at hnext <;> cases hnext
    · exact ⟨by simp [hx], fun _ _ _ hc => by simp [hx] at hc⟩
  · rename_i h2
    split at hs
    · cases hs
    · rename_i field hfield
      cases hs
      constructor
      · intro hrv
        obtain ⟨o, ho, hm⟩ := (mid_field h2).mp hg
        obtain ⟨p, hp, hleaves⟩ := fields_leave hps ho
        obtain rfl : field = p := Option.some.inj (hfield.symm.trans hp)
        exact (hleaves.parse _ inp hm).refused hrv
      · intro s' u' g' _ hnext
        dsimp only at hnext
        split at hnext <;> cases hnext
  · cases hs

/-- The outlines of the fields make up one of the table, rejections included. -/
theorem Reader.parse_table_leaves {last : ℕ} {fields : Fin (last + 1) → Reader E}
    (hl : Linked h cb os post)
    (hps : List.Forall₂ (fun o p => Part.Leaves K o p) os (List.ofFn fun i => (fields i).part h))
    (hpre : ∀ g, (∀ o ∈ os[0]?, o.pre g) → K g) {st : ReaderState} {g : σ} (size : ℕ)
    (inp : List UInt8) (hg : (Outline.table os post).mid st g) :
    ((Reader.table cb last fields).parse h st size inp g).Leaves K (.table os post) := by
  have hmeets : List.Forall₂ Part.Meets os (List.ofFn fun i => (fields i).part h) :=
    hps.imp fun _ _ hp => hp.meets
  refine ⟨parse_table_meets hl hmeets size inp hg, ?_⟩
  have hrank := tableStage_ranked (h := h) cb size (List.ofFn fun i => (fields i).part h)
  rw [List.length_ofFn] at hrank
  have hr := runStages_refused hrank (o := .fields os) (tableStage_meets hl hmeets)
    (tableStage_refused hps hpre) le_rfl inp (s := st.frame) (u := st.u) (g := g) hg
  rw [parse_table, parseStages, runAll]
  generalize runStages _ _ _ _ _ _ = r at hr ⊢
  intro hrv
  obtain ⟨rv, st', rest, g', d⟩ := r
  unfold leave at hrv ⊢
  rw [hl.chunk] at hrv ⊢
  cases rv with
  | reject => cases d <;> exact hr rfl
  | throw e => cases hrv
  | incomplete => cases hrv
  | complete =>
    dsimp only [Option.map_none, Handler.fire_none] at hrv
    generalize h.close cb.finish g' = x at hrv
    obtain ⟨g'', _ | e⟩ := x <;> cases hrv

end Table
/-! ### Outlines of tables -/

section Bounds
variable {os : List (Outline σ)} {post : σ → Prop}

/-- What the fields of a table imply, the table implies. -/
theorem Outline.table_mid_imp {P : σ → Prop} (hne : os ≠ []) (hpre : ∀ o ∈ os, ∀ g, o.pre g → P g)
    (hmid : ∀ o ∈ os, ∀ st g, o.mid st g → P g) (hpost : ∀ o ∈ os, ∀ g, o.post g → P g)
    {st : ReaderState} {g : σ} (h : (Outline.table os post).mid st g) : P g := by
  obtain ⟨o₀, os', rfl⟩ := List.exists_cons_of_ne_nil hne
  unfold Outline.table at h
  dsimp only at h
  split at h
  · exact hpre o₀ List.mem_cons_self g (h o₀ rfl)
  · exact hpre o₀ List.mem_cons_self g (h o₀ rfl)
  · obtain ⟨o, ho, hm⟩ := h
    exact hmid o (List.mem_of_getElem? ho) _ g hm
  · have hlast := List.getLast?_eq_some_getLast (l := o₀ :: os') (List.cons_ne_nil o₀ os')
    exact hpost _ (List.mem_of_getLast? hlast) g (h _ hlast)

/-- A field that goes on after an exception goes on in its table. -/
theorem Outline.table_thrown_mid (hos : ∀ o ∈ os, ∀ st g, o.thrown st g → o.mid st g)
    {st : ReaderState} {g : σ} (h : (Outline.table os post).thrown st g) :
    (Outline.table os post).mid st g := by
  obtain ⟨h2, o, ho, ht⟩ := h
  unfold Outline.table
  dsimp only
  rw [h2]
  exact ⟨o, ho, hos o (List.mem_of_getElem? ho) _ g ht⟩

end Bounds

/-! ### Vectors with an `index` callback -/

section Vector
variable {cb : Callbacks E} {item : Reader E} {A I : σ → Prop}

/-- The outline of a vector in which `A` holds before the items, and `I` from the first one on. -/
def Outline.vector (A I : σ → Prop) : Outline σ where
  pre := A
  mid st g := if st.frame.stateNum < 3 then A g else I g
  post g := A g ∨ I g
  thrown _ := I

/-- What the callbacks of a vector do to the two assertions. -/
structure Opens (h : Handler E σ ε) (cb : Callbacks E) (item : Reader E) (A I : σ → Prop) :
    Prop where
  finish : cb.finish = none
  size : cb.size = none
  chunk : ∀ f ∈ cb.chunk, ∀ bs g, (A g → A (h.run (f bs) g)) ∧ (I g → I (h.run (f bs) g))
  first : ∀ g, A g → ∀ n, I (h.fire (cb.index.map fun f => f 0)
    (h.fire (cb.length.map fun f => f n) (item.start h g)))
  next : ∀ g, I g → ∀ k, I (h.fire (cb.index.map fun f => f k) (item.start h g))
  items : item.Every (KeepsAt h I)

theorem mid_before {s : Frame} {u : ReaderState} {g : σ} (hs : s.stateNum < 3) :
    (Outline.vector A I).mid (.node s u) g ↔ A g := by
  change (if s.stateNum < 3 then A g else I g) ↔ A g
  rw [if_pos hs]

theorem mid_after {s : Frame} {u : ReaderState} {g : σ} (hs : ¬ s.stateNum < 3) :
    (Outline.vector A I).mid (.node s u) g ↔ I g := by
  change (if s.stateNum < 3 then A g else I g) ↔ I g
  rw [if_neg hs]

theorem dynVecItems_meets (ho : Opens h cb item A I) (s : Frame) {g : σ} (hg : A g) :
    (dynVecItems h cb (item.part h) s g).Meets (.vector A I) :=
  .go ((mid_after (by simp)).mpr (ho.first g hg _))

/-- A stage that reads a number before the items. -/
theorem numStage_meets {s : Frame} (hs : s.stateNum < 3) {next : ReaderState → σ → Next σ}
    (hnext : ∀ {u g}, A g → (next u g).Meets (.vector A I)) :
    Stage.Meets (.vector A I) s ⟨molParseNum h, next⟩ := by
  constructor
  · intro u g inp hg hrv
    dsimp only at hrv ⊢
    rcases molParseNum_cases (h := h) u inp g with ⟨u', rest, hx⟩ | ⟨u', hx⟩
    · simp [hx] at hrv
    · rw [hx]
      exact (mid_before hs).mpr ((mid_before hs).mp hg)
  · intro u g e inp hg hrv
    rcases molParseNum_cases (h := h) u inp g with ⟨u', rest, hx⟩ | ⟨u', hx⟩
    · simp [hx] at hrv
    · simp [hx] at hrv
  · intro u g inp hg hrv
    dsimp only at hrv ⊢
    rcases molParseNum_cases (h := h) u inp g with ⟨u', rest, hx⟩ | ⟨u', hx⟩
    · rw [hx]
      exact hnext ((mid_before hs).mp hg)
    · simp [hx] at hrv

theorem dynVecStage_meets (ho : Opens h cb item A I) {size : ℕ} {s : Frame} {p : Stage σ ε}
    (hs : dynVecStage h cb (item.part h) size s = some p) : p.Meets (.vector A I) s := by
  unfold dynVecStage at hs
  split at hs
  · rename_i h0
    cases hs
    refine numStage_meets (by omega) fun {u g} hg => ?_
    rw [ho.size]
    simp only [Option.map_none, Handler.allow_none, Next.allowed]
    split_ifs
    · exact .accept (.inl hg)
    · exact .refuse
    · exact .go ((mid_before (by simp)).mpr hg)
  · rename_i h1
    cases hs
    refine numStage_meets (by omega) fun {u g} hg => ?_
    dsimp only
    split
    · exact .go ((mid_before (by simp)).mpr hg)
    · exact dynVecItems_meets ho _ hg
  · rename_i h2
    cases hs
    refine numStage_meets (by omega) fun {u g} hg => ?_
    dsimp only
    split
    · exact .go ((mid_before (by simp [h2])).mpr hg)
    · exact dynVecItems_meets ho _ hg
  · rename_i h0 h1 h2
    have h3 : ¬ s.stateNum < 3 := by
      have h0' : s.stateNum ≠ 0 := h0
      have h1' : s.stateNum ≠ 1 := h1
      have h2' : s.stateNum ≠ 2 := h2
      omega
    split at hs
    · cases hs
      constructor
      · intro u g inp hg _
        exact (mid_after h3).mpr (Reader.parse_keeps ho.items _ molNumMax inp ((mid_after h3).mp hg))
      · intro u g e inp hg _
        exact Reader.parse_keeps ho.items _ molNumMax inp ((mid_after h3).mp hg)
      · intro u g inp hg _
        have hitem := Reader.parse_keeps ho.items u molNumMax inp ((mid_after h3).mp hg)
        refine .go ((mid_after (s := { s with fieldIdx := s.fieldIdx + 1 }) h3).mpr ?_)
        exact ho.next _ hitem _
    · cases hs

theorem dynVecStage_refused (ho : Opens h cb item A I) {size : ℕ} {s : Frame} {p : Stage σ ε}
    (hs : dynVecStage h cb (item.part h) size s = some p) {u : ReaderState} {g : σ}
    (inp : List UInt8) (hg : (Outline.vector A I).mid (.node s u) g) :
    ((p.parse u inp g).rv = .reject → A (p.parse u inp g).g ∨ I (p.parse u inp g).g) ∧
      ∀ s' u' g', (p.parse u inp g).rv = .complete →
        p.next (p.parse u inp g).st (p.parse u inp g).g = .refuse s' u' g' → A g' ∨ I g' := by
  have hnum : (molParseNum h u inp g : Res σ ε).rv ≠ .reject := by
    rcases molParseNum_cases (h := h) u inp g with ⟨u', rest, hx⟩ | ⟨u', hx⟩ <;> simp [hx]
  unfold dynVecStage at hs
  split at hs
  · rename_i h0
    cases hs
    refine ⟨fun hr => absurd hr hnum, fun s' u' g' _ hnext => ?_⟩
    rcases molParseNum_cases (h := h) u inp g with ⟨u'', rest, hx⟩ | ⟨u'', hx⟩
    · rw [ho.size] at hnext
      simp only [hx, Option.map_none, Handler.allow_none, Next.allowed] at hnext
      split_ifs at hnext
      cases hnext
      exact .inl ((mid_before (by omega)).mp hg)
    · rename_i hc
      simp [hx] at hc
  · cases hs
    refine ⟨fun hr => absurd hr hnum, fun s' u' g' _ hnext => ?_⟩
    dsimp only [dynVecItems] at hnext
    split at hnext <;> cases hnext
  · cases hs
    refine ⟨fun hr => absurd hr hnum, fun s' u' g' _ hnext => ?_⟩
    dsimp only [dynVecItems] at hnext
    split at hnext <;> cases hnext
  · rename_i h0 h1 h2
    have h3 : ¬ s.stateNum < 3 := by
      have h0' : s.stateNum ≠ 0 := h0
      have h1' : s.stateNum ≠ 1 := h1
      have h2' : s.stateNum ≠ 2 := h2
      omega
    split at hs
    · cases hs
      refine ⟨fun _ => .inr ?_, by simp⟩
      exact Reader.parse_keeps ho.items _ molNumMax inp ((mid_after h3).mp hg)
    · cases hs

theorem vector_post {s : Frame} {u : ReaderState} {g : σ}
    (hg : (Outline.vector A I).mid (.node s u) g) : (Outline.vector A I).post g := by
  unfold Outline.vector at hg ⊢
  dsimp only at hg ⊢
  split at hg
  · exact .inl hg
  · exact .inr hg

/-- The two assertions about a vector, whatever becomes of it. -/
theorem Reader.parse_dynVec_leaves (ho : Opens h cb item A I) {st : ReaderState} {g : σ}
    (size : ℕ) (inp : List UInt8) (hg : (Outline.vector A I).mid st g) :
    ((Reader.dynVec cb item).parse h st size inp g).Leaves (fun g => A g ∨ I g) (.vector A I) := by
  have hrank := dynVecStage_ranked (h := h) cb (item.part h) size
  have hm := runStages_meets hrank (fun _ => vector_post) (dynVecStage_meets ho) le_rfl inp
    (s := st.frame) (u := st.u) (g := g) hg
  have hr := runStages_refused (K := fun g => A g ∨ I g) hrank (dynVecStage_meets ho)
    (dynVecStage_refused ho) le_rfl inp (s := st.frame) (u := st.u) (g := g) hg
  rw [parse_dynVec, parseStages, runAll]
  generalize runStages _ _ _ _ _ _ = r at hm hr ⊢
  have hchunk : ∀ bs {P : σ → Prop}, (P = A ∨ P = I) → P r.g →
      P (h.fire (cb.chunk.map fun c => c bs) r.g) := by
    intro bs P hP hpost
    cases hc : cb.chunk with
    | none => exact hpost
    | some f =>
      rcases hP with rfl | rfl
      · exact (ho.chunk f hc bs r.g).1 hpost
      · exact (ho.chunk f hc bs r.g).2 hpost
  obtain ⟨rv, st', rest, g', d⟩ := r
  unfold leave
  rw [ho.finish]
  cases rv with
  | throw e => exact ⟨⟨by simp, by simp, fun _ _ => hm.thrown e rfl⟩, by simp⟩
  | reject =>
    refine ⟨⟨?_, ?_, ?_⟩, fun _ => ?_⟩
    · cases d <;> simp
    · cases d <;> simp
    · cases d <;> simp
    · cases d with
      | true => exact hr rfl
      | false => exact (hr rfl).imp (hchunk _ (.inl rfl)) (hchunk _ (.inr rfl))
  | incomplete =>
    refine ⟨⟨by simp, fun _ => ?_, by simp⟩, by simp⟩
    have hg' := hm.incomplete rfl
    unfold Outline.vector at hg' ⊢
    dsimp only at hg' ⊢
    split at hg'
    · rename_i hs
      rw [if_pos hs]
      exact hchunk _ (.inl rfl) hg'
    · rename_i hs
      rw [if_neg hs]
      exact hchunk _ (.inr rfl) hg'
  | complete =>
    dsimp only
    rw [Res.closed_of_none rfl]
    refine ⟨⟨fun _ => ?_, by simp, by simp⟩, by simp⟩
    exact (hm.complete rfl).imp (hchunk _ (.inl rfl)) (hchunk _ (.inr rfl))

end Vector

/-! ### Vectors whose `end` callback changes the assertion -/

section Closed
variable {cb : Callbacks E} {item : Reader E} {K : σ → Prop}

theorem Res.finished_leaves {o o' : Outline σ} {r : Res σ ε} (hr : r.Leaves K o)
    (hmid : ∀ st g, o.mid st g → o'.mid st g) (hthrown : ∀ st g, o.thrown st g → o'.thrown st g)
    (hclose : ∀ g, o.post g → (h.close cb.finish g).2 = none ∧ o'.post (h.close cb.finish g).1) :
    (r.finished h cb).Leaves K o' := by
  unfold Res.finished
  split
  · rename_i hrv
    obtain ⟨hnone, hpost⟩ := hclose r.g (hr.meets.complete hrv)
    rw [Res.closed_of_none hnone]
    exact ⟨⟨fun _ => hpost, fun hi => by simp [hrv] at hi, fun e hi => by simp [hrv] at hi⟩,
      fun hi => by simp [hrv] at hi⟩
  · rename_i hrv
    exact ⟨⟨fun hi => absurd hi hrv, fun hi => hmid _ _ (hr.meets.incomplete hi),
      fun e hi => hthrown _ _ (hr.meets.thrown e hi)⟩, hr.refused⟩

/-- A vector under one assertion, up to its `end` callback. -/
theorem Reader.dynVec_leaves_throughout {I post : σ → Prop}
    (hr : (Reader.dynVec cb.unfinished item).Every (KeepsAt h I))
    (hclose : ∀ g, I g → (h.close cb.finish g).2 = none ∧ post (h.close cb.finish g).1) :
    ((Reader.dynVec cb item).part h).Leaves I ⟨I, fun _ => I, post, fun _ => I⟩ where
  start hg := (Reader.leaves_throughout hr).start hg
  parse {st g} size inp hg := by
    have hl : ((Reader.dynVec cb.unfinished item).parse h st size inp g).Leaves I
        (.throughout I) := (Reader.leaves_throughout hr).parse size inp hg
    change ((Reader.dynVec cb item).parse h st size inp g).Leaves _ _
    rw [parse_dynVec_eq_finished]
    exact Res.finished_leaves hl (fun _ _ => id) (fun _ _ => id) hclose

/-- A vector under two assertions, up to its `end` callback. -/
theorem Reader.dynVec_leaves_vector {A I post : σ → Prop} (ho : Opens h cb.unfinished item A I)
    (hstart : ∀ g, A g → A (h.fire cb.start g))
    (hclose : ∀ g, A g ∨ I g → (h.close cb.finish g).2 = none ∧ post (h.close cb.finish g).1) :
    ((Reader.dynVec cb item).part h).Leaves (fun g => A g ∨ I g)
      ⟨A, (Outline.vector A I).mid, post, fun _ => I⟩ where
  start {g} hg := by
    change (Outline.vector A I).mid (.node {} (.leaf [])) _
    exact (mid_before (by decide)).mpr (hstart g hg)
  parse {st g} size inp hg := by
    have hl := parse_dynVec_leaves ho size inp hg
    change ((Reader.dynVec cb item).parse h st size inp g).Leaves _ _
    rw [parse_dynVec_eq_finished]
    exact Res.finished_leaves hl (fun _ _ => id) (fun _ _ => id) hclose

end Closed
end Refusals
end NervosLedger.Molecule
