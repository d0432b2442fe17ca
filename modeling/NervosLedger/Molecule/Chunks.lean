import NervosLedger.Molecule.Replay

/-!
# Chunk callbacks that collect

A part may be handed to its owner in chunks while its own parts make calls as well. If these come to
the same before and after a chunk, a chunk callback that collects does not show how the part was
cut.
-/
namespace NervosLedger.Molecule
variable {E σ ε : Type}

/-- An event that does nothing, refuses nothing and throws nothing. -/
structure Quiet (h : Handler E σ ε) (e : E) : Prop where
  run : ∀ g, h.run e g = g
  ask : ∀ g, h.ask e g = (g, true)
  finish : ∀ g, h.finish e g = (g, none)

variable {h : Handler E σ ε}

/-- What an event does, it does after a chunk as well. -/
theorem Quiet.sameAt {e : E} (he : Quiet h e) (c : List UInt8 → E) (bs : List UInt8) :
    SameAt h h (After h c bs) e where
  run hg := by rwa [he.run, he.run]
  ask hg := by
    rw [he.ask, he.ask]
    exact ⟨rfl, hg⟩
  finish hg := by
    rw [he.finish, he.finish]
    exact ⟨rfl, hg⟩

theorem SameAt.simAt {R : σ → σ → Prop} {e : E} (he : SameAt h h R e) :
    SimAt h h R (fun _ => True) e where
  run hg := he.run hg
  ask hg ht := ⟨(he.ask hg).1 ▸ ht, (he.ask hg).2⟩
  finish hg hn := ⟨(he.finish hg).1 ▸ hn, (he.finish hg).2⟩
  throws _ _ := trivial

theorem replay_quiet {es : List (Note E)} (hes : ∀ n ∈ es, Quiet h n.2) (g : σ) :
    h.replay es g = g := by
  induction es with
  | nil => rfl
  | cons n es ih =>
    have hn := hes n List.mem_cons_self
    have happ : h.apply n g = g := by
      obtain ⟨s, e⟩ := n
      cases s with
      | void => exact hn.run g
      | size => exact congrArg Prod.fst (hn.ask g)
      | close => exact congrArg Prod.fst (hn.finish g)
    rw [Handler.replay_cons, happ, ih fun m hm => hes m (List.mem_cons_of_mem n hm)]

/-- The `chunk` callback of a part collects, and what its own parts do is the same after it. -/
def ChunkCommutes (h : Handler E σ ε) (cb : Callbacks E) (inner : (E → Prop) → Prop) : Prop :=
  ∀ c ∈ cb.chunk, Collects h c ∧ ∀ bs, cb.inner.Every (SameAt h h (After h c bs)) ∧
    inner (SameAt h h (After h c bs))

theorem chunkCommutes_none {cb : Callbacks E} {inner : (E → Prop) → Prop} (hc : cb.chunk = none) :
    ChunkCommutes h cb inner := by
  intro c hmem
  rw [hc] at hmem
  cases hmem

theorem ChunkCommutes.fluid {cb : Callbacks E} {inner : (E → Prop) → Prop}
    (hc : ChunkCommutes h cb inner)
    (hmono : ∀ {P Q : E → Prop}, (∀ e, P e → Q e) → inner P → inner Q) :
    ChunkFluid h cb inner := by
  intro c hmem
  obtain ⟨hadd, hinner⟩ := hc c hmem
  refine ⟨hadd, fun bs => ⟨?_, ?_⟩⟩
  · exact (hinner bs).1.mono fun _ => SameAt.simAt
  · exact hmono (fun _ => SameAt.simAt) (hinner bs).2

/-- The chunks of a reader are collected, whatever is read inside of them. -/
def Reader.Collecting (h : Handler E σ ε) : Reader E → Prop
  | .byte _ | .array _ _ => True
  | .bytes cb => ∀ f ∈ cb.bodyChunk, BodyCollects h f
  | .option cb item | .fixVec cb _ item | .dynVec cb item =>
    ChunkCommutes h cb (fun P => item.Every P) ∧ item.Collecting h
  | .struct cb _ _ fst snd =>
    ChunkCommutes h cb (fun P => fst.Every P ∧ snd.Every P) ∧ fst.Collecting h ∧ snd.Collecting h
  | .table cb _ fields =>
    ChunkCommutes h cb (fun P => ∀ i, (fields i).Every P) ∧ ∀ i, (fields i).Collecting h

theorem Reader.Collecting.fluid {r : Reader E} (hr : r.Collecting h) : r.Fluid h := by
  induction r with
  | byte done => trivial
  | array width done => trivial
  | bytes cb => exact hr
  | option cb item ih => exact ⟨hr.1.fluid fun hPQ hi => hi.mono hPQ, ih hr.2⟩
  | fixVec cb width item ih => exact ⟨hr.1.fluid fun hPQ hi => hi.mono hPQ, ih hr.2⟩
  | dynVec cb item ih => exact ⟨hr.1.fluid fun hPQ hi => hi.mono hPQ, ih hr.2⟩
  | struct cb w₁ w₂ fst snd ih₁ ih₂ =>
    refine ⟨hr.1.fluid fun hPQ hi => ⟨?_, ?_⟩, ih₁ hr.2.1, ih₂ hr.2.2⟩
    · exact hi.1.mono hPQ
    · exact hi.2.mono hPQ
  | table cb last fields ih =>
    exact ⟨hr.1.fluid fun hPQ hi i => (hi i).mono hPQ, fun i => ih i (hr.2 i)⟩

end NervosLedger.Molecule
