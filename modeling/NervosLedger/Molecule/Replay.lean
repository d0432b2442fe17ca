import NervosLedger.Molecule.Scan

/-!
# Replaying what was read

A handler that cannot tell how its input was cut ends a session as if it were given the calls that
the scanner lists, one after another.
-/
namespace NervosLedger.Molecule

section Replay
variable {E σ ε : Type} (h : Handler E σ ε)

namespace Handler

/-- The state after a call. -/
def apply : Note E → σ → σ
  | (.void, e), g => h.run e g
  | (.size, e), g => (h.ask e g).1
  | (.close, e), g => (h.finish e g).1

/-- The state after some calls. -/
def replay (es : List (Note E)) (g : σ) : σ := es.foldl (fun g n => h.apply n g) g

@[simp] theorem replay_nil (g : σ) : h.replay [] g = g := rfl

@[simp] theorem replay_cons (n : Note E) (es : List (Note E)) (g : σ) :
    h.replay (n :: es) g = h.replay es (h.apply n g) := rfl

@[simp] theorem replay_append (es es' : List (Note E)) (g : σ) :
    h.replay (es ++ es') g = h.replay es' (h.replay es g) := List.foldl_append

theorem replay_tally {N : Type} (f : Slot → E → List N) (es : List (Note E)) (l : List N) :
    (tally ε f).replay es l = l ++ tallyAll f es := by
  induction es generalizing l with
  | nil => simp
  | cons n es ih =>
    obtain ⟨s, e⟩ := n
    rw [replay_cons, ih, tallyAll, tallyAll, List.flatMap_cons, ← List.append_assoc]
    cases s <;> rfl

end Handler

/-- What each call does, as a list of functions. -/
abbrev effects (h : Handler E σ ε) (s : Slot) (e : E) : List (σ → σ) := [h.apply (s, e)]

variable {h}

theorem effects_blind {r : Reader E} (hr : r.Blind h) : r.Blind (Handler.tally ε (effects h)) := by
  induction r with
  | byte done => exact trivial
  | array width done => exact trivial
  | bytes cb =>
    intro c hc a x y l
    have hblind : h.apply (.void, c a x) = h.apply (.void, c a y) := by
      funext g
      exact hr c hc a x y g
    exact congrArg (fun k => l ++ [k]) hblind
  | option cb item ih => exact ih hr
  | fixVec cb width item ih => exact ih hr
  | dynVec cb item ih => exact ih hr
  | struct cb w₁ w₂ fst snd ih₁ ih₂ => exact ⟨ih₁ hr.1, ih₂ hr.2⟩
  | table cb last fields ih => exact fun i => ih i (hr i)

/-- The state is what the effects so far made of the first one. -/
def Made (g₀ g : σ) (l : List (σ → σ)) : Prop := g = l.foldl (fun g k => k g) g₀

theorem made_concat {g₀ g : σ} {l : List (σ → σ)} (hg : Made g₀ g l) (k : σ → σ) :
    Made g₀ (k g) (l ++ [k]) := by
  rw [Made, List.foldl_append, ← hg]
  rfl

theorem effects_simAt (g₀ : σ) (e : E) :
    SimAt h (Handler.tally ε (effects h)) (Made g₀) (fun _ => True) e where
  run hg := made_concat hg (h.apply (.void, e))
  ask hg _ := ⟨rfl, made_concat hg (h.apply (.size, e))⟩
  finish hg _ := ⟨rfl, made_concat hg (h.apply (.close, e))⟩
  throws _ _ := trivial

/-- A call that completes a part from its beginning makes the calls of the scanner. -/
theorem Reader.parse_replay {r : Reader E} (hr : r.Blind h) {size : ℕ} {inp : List UInt8} {g : σ}
    {st : ReaderState} {rest : List UInt8} {g' : σ}
    (hp : r.parse h r.initState size inp g = ⟨.complete, st, rest, g', false⟩) :
    ∃ es, r.scan size inp = some (es, rest) ∧ g' = h.replay es g := by
  have hf := parse_follows (r.every_of_forall fun e => effects_simAt (h := h) g e) r.initState size
    inp (show Made g g [] from rfl)
  have hs := parse_scanned (effects_blind hr) size inp ([] : List (σ → σ))
  rw [hp] at hf
  rcases hf with ⟨e₁, e₂, hm⟩ | ⟨e₁, -, -⟩ | hr | ⟨⟨e, he⟩, -⟩
  · cases e₁
    rw [e₂] at hs
    cases hscan : r.scan size inp with
    | none =>
      rw [hscan] at hs
      exact absurd rfl hs
    | some x =>
      obtain ⟨es, rest'⟩ := x
      rw [hscan] at hs
      obtain ⟨st', he⟩ := hs
      cases he
      refine ⟨es, rfl, hm.trans ?_⟩
      rw [List.nil_append, tallyAll, Handler.replay]
      clear * -
      induction es generalizing g with
      | nil => rfl
      | cons n es ih => exact ih
  · cases e₁
  · cases hr
  · cases he

/-- A session that completes a part makes the calls of the scanner. -/
theorem Reader.session_replay {r : Reader E} (hr : r.Fluid h) {size : ℕ} {cs : List (List UInt8)}
    {g : σ} {st : ReaderState} {rest : List UInt8} {g' : σ}
    (hs : session (fun st inp g => r.parse h st size inp g) r.initState cs g =
      ⟨.complete, st, rest, g', false⟩) :
    ∃ es, r.scan size cs.flatten = some (es, rest) ∧ g' = h.replay es g :=
  parse_replay hr.blind ((parse_splits hr size).session_complete hs)

/-- One more chunk for a session that wants more. -/
theorem session_concat {parse : ReaderState → List UInt8 → σ → Res σ ε} {st : ReaderState}
    {cs : List (List UInt8)} {g : σ} {st' : ReaderState} {rest : List UInt8} {g' : σ}
    (hs : session parse st cs g = ⟨.incomplete, st', rest, g', false⟩) (c : List UInt8) :
    session parse st (cs ++ [c]) g = session parse st' [c] g' := by
  induction cs generalizing st g with
  | nil =>
    cases hs
    rfl
  | cons c' cs ih =>
    rw [List.cons_append, session]
    rw [session] at hs
    generalize parse st c' g = r at hs ⊢
    obtain ⟨rv, st₁, rest₁, g₁, d⟩ := r
    cases rv with
    | incomplete => exact ih hs
    | complete => cases hs
    | reject => cases hs
    | throw e => cases hs

end Replay
end NervosLedger.Molecule
