import NervosLedger.Molecule.Scan

/-!
# Bodies in pieces

The body of a byte string may reach its callback in pieces. Calls that come to the same bytes as a
list of whole parts are these parts, but for the pieces of the bodies.
-/
namespace NervosLedger.Molecule

/-- Which calls are pieces of a body. -/
structure Bodies (N T : Type) where
  body : N → Option (T × List UInt8)
  piece : T → List UInt8 → N
  body_piece : ∀ t bs, body (piece t bs) = some (t, bs)
  piece_body : ∀ {n t bs}, body n = some (t, bs) → n = piece t bs

section Pieces
variable {N T : Type} (b : Bodies N T)

/-- A call, byte by byte if it is a piece of a body. -/
def Bodies.bytewise (n : N) : List N :=
  match b.body n with
  | none => [n]
  | some (t, bs) => bs.map fun x => b.piece t [x]

/-- No call is an empty piece. -/
def Bodies.Solid (calls : List N) : Prop := ∀ n ∈ calls, ∀ t, b.body n ≠ some (t, [])

/-- The calls that come to the bytes of `es` are of the kind `Q`. -/
def Bodies.Peels (es : List N) (Q : List N → Prop) : Prop :=
  ∀ calls rest, b.Solid calls →
    calls.flatMap b.bytewise = es.flatMap b.bytewise ++ rest →
    ∃ c cs, calls = c ++ cs ∧ Q c ∧ cs.flatMap b.bytewise = rest

namespace Bodies
variable {b}

@[simp] theorem bytewise_piece (t : T) (bs : List UInt8) :
    b.bytewise (b.piece t bs) = bs.map fun x => b.piece t [x] := by
  simp [bytewise, b.body_piece]

theorem bytewise_of_none {n : N} (h : b.body n = none) : b.bytewise n = [n] := by
  simp [bytewise, h]

theorem Solid.tail {n : N} {calls : List N} (h : b.Solid (n :: calls)) : b.Solid calls :=
  fun m hm => h m (List.mem_cons_of_mem n hm)

theorem Solid.right {c cs : List N} (h : b.Solid (c ++ cs)) : b.Solid cs :=
  fun m hm => h m (List.mem_append_right c hm)

theorem Solid.piece_ne {t : T} {bs : List UInt8} {calls : List N}
    (h : b.Solid (b.piece t bs :: calls)) : bs ≠ [] := by
  rintro rfl
  exact h _ List.mem_cons_self t (b.body_piece t [])

/-- A piece or a whole call is at the head. -/
theorem cases_head (n : N) : b.body n = none ∨ ∃ t bs, n = b.piece t bs := by
  cases h : b.body n with
  | none => exact .inl rfl
  | some x => exact .inr ⟨x.1, x.2, b.piece_body h⟩

theorem piece_inj {t t' : T} {bs bs' : List UInt8} (h : b.piece t bs = b.piece t' bs') :
    t = t' ∧ bs = bs' := by
  have hb := b.body_piece t bs
  rw [h, b.body_piece, Option.some.injEq, Prod.mk.injEq] at hb
  exact ⟨hb.1.symm, hb.2.symm⟩

theorem Peels.nil : b.Peels [] (· = []) := fun calls _ _ h => ⟨[], calls, rfl, rfl, h⟩

theorem Peels.append {es es' : List N} {Q Q' : List N → Prop} (h : b.Peels es Q)
    (h' : b.Peels es' Q') :
    b.Peels (es ++ es') fun c => ∃ c₁ c₂, c = c₁ ++ c₂ ∧ Q c₁ ∧ Q' c₂ := by
  intro calls rest hs hc
  rw [List.flatMap_append, List.append_assoc] at hc
  obtain ⟨c₁, cs, rfl, hQ, hcs⟩ := h calls _ hs hc
  obtain ⟨c₂, cs', rfl, hQ', hcs'⟩ := h' cs rest hs.right hcs
  exact ⟨c₁ ++ c₂, cs', (List.append_assoc _ _ _).symm, ⟨c₁, c₂, rfl, hQ, hQ'⟩, hcs'⟩

theorem Peels.mono {es : List N} {Q Q' : List N → Prop} (h : b.Peels es Q)
    (hQ : ∀ c, Q c → Q' c) : b.Peels es Q' := by
  intro calls rest hs hc
  obtain ⟨c, cs, hcalls, hq, hcs⟩ := h calls rest hs hc
  exact ⟨c, cs, hcalls, hQ c hq, hcs⟩

/-- A call that is no piece is itself. -/
theorem Peels.single {n : N} (hn : b.body n = none) : b.Peels [n] (· = [n]) := by
  intro calls rest hs hc
  rw [List.flatMap_singleton, bytewise_of_none hn, List.singleton_append] at hc
  cases calls with
  | nil => cases hc
  | cons m cs =>
    rw [List.flatMap_cons] at hc
    rcases b.cases_head m with hm | ⟨t, bs, rfl⟩
    · rw [bytewise_of_none hm, List.singleton_append, List.cons.injEq] at hc
      obtain ⟨rfl, hcs⟩ := hc
      exact ⟨[m], cs, rfl, rfl, hcs⟩
    · cases bs with
      | nil => exact absurd rfl hs.piece_ne
      | cons x bs =>
        rw [bytewise_piece, List.map_cons, List.cons_append, List.cons.injEq] at hc
        rw [← hc.1, b.body_piece] at hn
        cases hn

/-- Before a call that is no piece, a piece is no longer than the body. -/
theorem piece_prefix {t : T} {n : N} (hn : b.body n = none) {tail rest : List N}
    {ps bs : List UInt8} (h : ps.map (fun x => b.piece t [x]) ++ tail =
      bs.map (fun x => b.piece t [x]) ++ n :: rest) : ps <+: bs := by
  induction ps generalizing bs with
  | nil => exact List.nil_prefix
  | cons p ps ih =>
    cases bs with
    | nil =>
      rw [List.map_cons, List.cons_append, List.map_nil, List.nil_append, List.cons.injEq] at h
      rw [← h.1, b.body_piece] at hn
      cases hn
    | cons x bs =>
      rw [List.map_cons, List.map_cons, List.cons_append, List.cons_append, List.cons.injEq] at h
      obtain ⟨-, hx⟩ := piece_inj h.1
      rw [List.cons_prefix_cons]
      exact ⟨List.singleton_inj.mp hx, ih h.2⟩

/-- A body before a call that is no piece is cut into pieces. -/
theorem Peels.body (t : T) (bs : List UInt8) {n : N} (hn : b.body n = none) :
    b.Peels [b.piece t bs, n] fun c =>
      ∃ ps : List (List UInt8), c = ps.map (b.piece t) ++ [n] ∧ ps.flatten = bs ∧
        ∀ p ∈ ps, p ≠ [] := by
  intro calls rest hs hc
  simp only [List.flatMap_cons, List.flatMap_nil, bytewise_piece, bytewise_of_none hn,
    List.append_nil, List.append_assoc, List.singleton_append] at hc
  induction calls generalizing bs with
  | nil => simp at hc
  | cons m cs ih =>
    rw [List.flatMap_cons] at hc
    rcases b.cases_head m with hm | ⟨t', ps, rfl⟩
    · rw [bytewise_of_none hm, List.singleton_append] at hc
      cases bs with
      | nil =>
        rw [List.map_nil, List.nil_append, List.cons.injEq] at hc
        obtain ⟨rfl, hcs⟩ := hc
        exact ⟨[m], cs, rfl, ⟨[], rfl, rfl, nofun⟩, hcs⟩
      | cons x bs =>
        rw [List.map_cons, List.cons_append, List.cons.injEq] at hc
        rw [hc.1, b.body_piece] at hm
        cases hm
    · have hne := hs.piece_ne
      rw [bytewise_piece] at hc
      obtain rfl : t' = t := by
        cases ps with
        | nil => exact absurd rfl hne
        | cons p ps =>
          cases bs with
          | nil =>
            rw [List.map_cons, List.cons_append, List.map_nil, List.nil_append,
              List.cons.injEq] at hc
            rw [← hc.1, b.body_piece] at hn
            cases hn
          | cons x bs =>
            rw [List.map_cons, List.map_cons, List.cons_append, List.cons_append,
              List.cons.injEq] at hc
            exact (piece_inj hc.1).1
      obtain ⟨bs', rfl⟩ := piece_prefix hn hc
      rw [List.map_append, List.append_assoc, List.append_cancel_left_eq] at hc
      obtain ⟨c, cs', hcs, ⟨qs, rfl, rfl, hq⟩, hrest⟩ := ih bs' hs.tail hc
      refine ⟨b.piece t' ps :: (qs.map (b.piece t') ++ [n]), cs', by simp [hcs], ⟨ps :: qs, rfl, rfl,
        ?_⟩, hrest⟩
      intro p hp
      rcases List.mem_cons.mp hp with rfl | hp
      · exact hne
      · exact hq p hp

/-- Calls that are those of `es`, but for the pieces of their bodies. -/
inductive Cut (b : Bodies N T) : List N → List N → Prop
  | nil : Cut b [] []
  | call {n es cs} (hn : b.body n = none) (h : Cut b es cs) : Cut b (n :: es) (n :: cs)
  | body {t} {ps : List (List UInt8)} {es cs} (hps : ∀ p ∈ ps, p ≠ []) (h : Cut b es cs) :
    Cut b (b.piece t ps.flatten :: es) (ps.map (b.piece t) ++ cs)

/-- Calls in which a call that is no piece comes after each body. -/
inductive Closed (b : Bodies N T) : List N → Prop
  | nil : Closed b []
  | call {n es} (hn : b.body n = none) (h : Closed b es) : Closed b (n :: es)
  | body {t bs n es} (hn : b.body n = none) (h : Closed b es) : Closed b (b.piece t bs :: n :: es)

theorem Closed.append {es es' : List N} (h : b.Closed es) (h' : b.Closed es') :
    b.Closed (es ++ es') := by
  induction h with
  | nil => exact h'
  | call hn _ ih => exact .call hn ih
  | body hn _ ih => exact .body hn ih

theorem Closed.notes {es : List N} (h : ∀ n ∈ es, b.body n = none) : b.Closed es := by
  induction es with
  | nil => exact .nil
  | cons n es ih =>
    exact .call (h n List.mem_cons_self) (ih fun m hm => h m (List.mem_cons_of_mem n hm))

/-- Calls that come to the bytes of `es` are cut from it. -/
theorem Closed.peels {es : List N} (h : b.Closed es) : b.Peels es (b.Cut es) := by
  induction h with
  | nil =>
    refine Peels.nil.mono ?_
    rintro c rfl
    exact .nil
  | @call n es hn _ ih =>
    refine (Peels.append (.single hn) ih).mono ?_
    rintro c ⟨c₁, c₂, rfl, rfl, hcut⟩
    exact .call hn hcut
  | @body t bs n es hn _ ih =>
    refine (Peels.append (.body t bs hn) ih).mono ?_
    rintro c ⟨c₁, c₂, rfl, ⟨ps, rfl, rfl, hps⟩, hcut⟩
    rw [List.append_assoc]
    exact .body hps (.call hn hcut)

theorem Closed.cut {es calls : List N} (h : b.Closed es) (hs : b.Solid calls)
    (hc : calls.flatMap b.bytewise = es.flatMap b.bytewise) : b.Cut es calls := by
  obtain ⟨c, cs, rfl, hcut, hcs⟩ := h.peels calls [] hs (by rw [hc, List.append_nil])
  have hnil : cs = [] := by
    cases cs with
    | nil => rfl
    | cons m cs =>
      rw [List.flatMap_cons, List.append_eq_nil_iff] at hcs
      rcases b.cases_head m with hm | ⟨t, bs, rfl⟩
      · rw [bytewise_of_none hm] at hcs
        cases hcs.1
      · rw [bytewise_piece, List.map_eq_nil_iff] at hcs
        exact absurd hcs.1 hs.right.piece_ne
  rw [hnil, List.append_nil]
  exact hcut

theorem cut_append {es es' c : List N} :
    b.Cut (es ++ es') c ↔ ∃ c₁ c₂, c = c₁ ++ c₂ ∧ b.Cut es c₁ ∧ b.Cut es' c₂ := by
  constructor
  · intro h
    induction es generalizing c with
    | nil => exact ⟨[], c, rfl, .nil, h⟩
    | cons n es ih =>
      rw [List.cons_append] at h
      cases h with
      | call hn h =>
        obtain ⟨c₁, c₂, rfl, h₁, h₂⟩ := ih h
        exact ⟨_, c₂, rfl, .call hn h₁, h₂⟩
      | body hps h =>
        obtain ⟨c₁, c₂, rfl, h₁, h₂⟩ := ih h
        exact ⟨_, c₂, (List.append_assoc _ _ _).symm, .body hps h₁, h₂⟩
  · rintro ⟨c₁, c₂, rfl, h₁, h₂⟩
    induction h₁ with
    | nil => exact h₂
    | call hn _ ih => exact .call hn ih
    | body hps _ ih =>
      rw [List.append_assoc]
      exact .body hps ih

theorem cut_nil {c : List N} : b.Cut [] c ↔ c = [] := by
  constructor
  · intro h
    cases h
    rfl
  · rintro rfl
    exact .nil

/-- Calls that are no pieces are as they were. -/
theorem cut_notes {es c : List N} (hes : ∀ n ∈ es, b.body n = none) (h : b.Cut es c) : c = es := by
  induction h with
  | nil => rfl
  | @call n es cs _ _ ih => rw [ih fun m hm => hes m (List.mem_cons_of_mem n hm)]
  | @body t ps es cs _ _ _ =>
    have hnone := hes _ List.mem_cons_self
    rw [b.body_piece] at hnone
    cases hnone

/-- What is no piece is not made by cutting. -/
theorem mem_of_cut {es c : List N} (h : b.Cut es c) {n : N} (hn : b.body n = none) (hmem : n ∈ c) :
    n ∈ es := by
  induction h with
  | nil => exact hmem
  | call _ _ ih =>
    rcases List.mem_cons.mp hmem with rfl | hmem
    · exact List.mem_cons_self
    · exact List.mem_cons_of_mem _ (ih hmem)
  | body _ _ ih =>
    rcases List.mem_append.mp hmem with hmem | hmem
    · obtain ⟨p, -, rfl⟩ := List.mem_map.mp hmem
      rw [b.body_piece] at hn
      cases hn
    · exact List.mem_cons_of_mem _ (ih hmem)

theorem cut_call {n : N} (hn : b.body n = none) {es c : List N} :
    b.Cut (n :: es) c ↔ ∃ cs, c = n :: cs ∧ b.Cut es cs := by
  constructor
  · intro h
    cases h with
    | call _ h => exact ⟨_, rfl, h⟩
    | body _ h =>
      rw [b.body_piece] at hn
      cases hn
  · rintro ⟨cs, rfl, h⟩
    exact .call hn h

theorem cut_body {t : T} {bs : List UInt8} {es c : List N} :
    b.Cut (b.piece t bs :: es) c ↔ ∃ ps : List (List UInt8), ∃ cs,
      c = ps.map (b.piece t) ++ cs ∧ ps.flatten = bs ∧ (∀ p ∈ ps, p ≠ []) ∧ b.Cut es cs := by
  constructor
  · intro h
    generalize hn : b.piece t bs = n at h
    cases h with
    | call hnone _ =>
      rw [← hn, b.body_piece] at hnone
      cases hnone
    | body hps h =>
      obtain ⟨rfl, rfl⟩ := piece_inj hn
      exact ⟨_, _, rfl, rfl, hps, h⟩
  · rintro ⟨ps, cs, rfl, rfl, hps, h⟩
    exact .body hps h

end Bodies
end Pieces
end NervosLedger.Molecule
