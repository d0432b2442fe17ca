import NervosLedger.Molecule.Traced

/-!
# Reading a whole part at once

A scanner reads a part that lies before it as a whole, and lists the calls that are made for it.
A resumable parser whose input comes in chunks makes these calls, up to where its chunks were cut.
-/
namespace NervosLedger.Molecule

/-- A call, without the state it found. -/
abbrev Note (E : Type) := Slot × E

/-- What lies at the head of the input: the calls that are made for it, and the bytes after it. -/
abbrev Scanner (E : Type) := List UInt8 → Option (List (Note E) × List UInt8)

section Scan
variable {E : Type}

/-- The note of a slot, unless it is `NULL`. -/
def note (s : Slot) : Option E → List (Note E)
  | none => []
  | some e => [(s, e)]

@[simp] theorem note_none (s : Slot) : note s (none : Option E) = [] := rfl
@[simp] theorem note_some (s : Slot) (e : E) : note s (some e) = [(s, e)] := rfl

/-- The notes of leaving a parser that has read `bs`. -/
def Callbacks.leaving (cb : Callbacks E) (bs : List UInt8) : List (Note E) :=
  note .void (cb.chunk.map fun c => c bs) ++ note .close cb.finish

/-- What was read of `inp` when `rest` is left. -/
def consumed (inp rest : List UInt8) : List UInt8 := inp.take (inp.length - rest.length)

/-- A scanner with the notes of leaving its parser. -/
def Callbacks.left (cb : Callbacks E) (scan : Scanner E) : Scanner E := fun inp =>
  (scan inp).bind fun x => some (x.1 ++ cb.leaving (consumed inp x.2), x.2)

theorem consumed_append (x rest : List UInt8) : consumed (x ++ rest) rest = x := by
  simp [consumed]

def scanNum (inp : List UInt8) : Option (ℕ × List UInt8) :=
  if 4 ≤ inp.length then some (leNat (inp.take 4), inp.drop 4) else none

def scanNums : ℕ → List UInt8 → Option (List ℕ × List UInt8)
  | 0, inp => some ([], inp)
  | k + 1, inp => do
    let (n, inp) ← scanNum inp
    let (ns, inp) ← scanNums k inp
    some (n :: ns, inp)

/-- `n` items from number `k` on, with the notes `after` each of them. -/
def scanItems (item : Scanner E) (after : ℕ → List (Note E)) : ℕ → ℕ → Scanner E
  | 0, _, inp => some ([], inp)
  | n + 1, k, inp => do
    let (es, inp) ← item inp
    let (es', inp) ← scanItems item after n (k + 1) inp
    some (es ++ after (k + 1) ++ es', inp)

/-- The offsets after the first one, and `n` items, with the notes `before` them. -/
def scanVector (item : Scanner E) (before after : ℕ → List (Note E)) (n : ℕ) : Scanner E :=
  fun inp => do
    let (_, inp) ← scanNums (n - 1) inp
    let (es, rest) ← scanItems item after n 0 inp
    some (before n ++ es, rest)

/-- Fields, each with the notes before it. -/
def scanFields : List (List (Note E) × Scanner E) → Scanner E
  | [], inp => some ([], inp)
  | (before, field) :: fields, inp => do
    let (es, inp) ← field inp
    let (es', inp) ← scanFields fields inp
    some (before ++ es ++ es', inp)

namespace Reader

/-- The notes of `MolReader_`*T*`_init_state`. -/
def starts : Reader E → List (Note E)
  | .byte _ | .array _ _ => []
  | .option cb item => note .void cb.start ++ item.starts
  | .struct cb _ _ fst _ => note .void cb.start ++ fst.starts
  | .bytes cb | .fixVec cb _ _ | .dynVec cb _ | .table cb _ _ => note .void cb.start

/-- The notes before item `k` of a vector. -/
def nextItem (cb : Callbacks E) (item : Reader E) (k : ℕ) : List (Note E) :=
  item.starts ++ note .void (cb.index.map fun f => f k)

/-- The notes before the items of a dynamic vector. -/
def firstItem (cb : Callbacks E) (item : Reader E) (n : ℕ) : List (Note E) :=
  item.starts ++ note .void (cb.length.map fun f => f n) ++ note .void (cb.index.map fun f => f 0)

/-- The scanner of a schema type; `size` is the size its surroundings declare for it. -/
def scan : Reader E → ℕ → Scanner E
  | .byte done, size, inp =>
    if size ≠ 1 then none
    else match inp with
      | [] => none
      | b :: rest => some (note .void (done.map fun f => f b), rest)
  | .array width done, _, inp =>
    if width ≤ inp.length then
      some (note .void (done.map fun f => f (.ofList width (inp.take width))), inp.drop width)
    else none
  | .bytes cb, size, inp => do
    let (n, inp) ← scanNum inp
    if 2 ^ 32 ≤ n + 4 ∨ (size ≠ molNumMax ∧ n + 4 ≠ size) ∨ inp.length < n then none
    else some (note .size (cb.size.map fun f => f (n + 4)) ++
      (if n = 0 then [] else note .void (cb.bodyChunk.map fun f => f (inp.take n) [])) ++
      note .close cb.finish, inp.drop n)
  | .option cb item, size, inp =>
    cb.left (fun inp => if size = 0 then some ([], inp) else item.scan size inp) inp
  | .fixVec cb width item, size, inp => cb.left (fun inp => (scanNum inp).bind fun x =>
      if 2 ^ 32 ≤ x.1 * width + 4 ∨ (size ≠ molNumMax ∧ x.1 * width + 4 ≠ size) then none
      else (scanItems (item.scan width) (nextItem cb item) x.1 0 x.2).bind fun y =>
        some (note .size (cb.size.map fun f => f (x.1 * width + 4)) ++ nextItem cb item 0 ++ y.1,
          y.2)) inp
  | .dynVec cb item, size, inp => cb.left (fun inp => (scanNum inp).bind fun x =>
      if x.1 = 4 then some (note .size (cb.size.map fun f => f x.1), x.2)
      else if size ≠ molNumMax ∧ size ≠ x.1 then none
      else ((scanNum x.2).bind fun y => scanVector (item.scan molNumMax) (firstItem cb item)
        (nextItem cb item) (sub32 (y.1 / 4) 1) y.2).bind fun z =>
          some (note .size (cb.size.map fun f => f x.1) ++ z.1, z.2)) inp
  | .struct cb w₁ w₂ fst snd, size, inp =>
    if size ≠ w₁ + w₂ ∧ size ≠ molNumMax then none
    else cb.left (fun inp => (fst.scan w₁ inp).bind fun x => (snd.scan w₂ x.2).bind fun y =>
      some (x.1 ++ (snd.starts ++ y.1), y.2)) inp
  | .table cb last fields, size, inp => cb.left (fun inp => (scanNum inp).bind fun x =>
      if size ≠ molNumMax ∧ x.1 ≠ size then none
      else (scanNums (last + 1) x.2).bind fun y => (scanFields (List.ofFn fun i =>
          (if i.val = 0 then [] else (fields i).starts,
            (fields i).scan (Frame.fieldSize { totalSize := x.1, offsets := y.1 } i))) y.2).bind
        fun z => some ((fields 0).starts ++ note .void (cb.offsets.map fun f => f x.1 y.1) ++ z.1,
          z.2)) inp

end Reader
end Scan

/-! ### Bodies -/

/-- A `body_chunk` callback that does not look past its piece. -/
def BodyBlind {E σ ε : Type} (h : Handler E σ ε) (c : List UInt8 → List UInt8 → E) : Prop :=
  ∀ a x y g, h.run (c a x) g = h.run (c a y) g

/-- No `body_chunk` callback of a reader looks past its piece. -/
def Reader.Blind {E σ ε : Type} (h : Handler E σ ε) : Reader E → Prop
  | .byte _ | .array _ _ => True
  | .bytes cb => ∀ c ∈ cb.bodyChunk, BodyBlind h c
  | .option _ item | .fixVec _ _ item | .dynVec _ item => item.Blind h
  | .struct _ _ _ fst snd => fst.Blind h ∧ snd.Blind h
  | .table _ _ fields => ∀ i, (fields i).Blind h

theorem Reader.Fluid.blind {E σ ε : Type} {h : Handler E σ ε} {r : Reader E} (hr : r.Fluid h) :
    r.Blind h := by
  induction r with
  | byte done => exact trivial
  | array width done => exact trivial
  | bytes cb => exact fun c hc => (hr c hc).blind
  | option cb item ih => exact ih hr.2
  | fixVec cb width item ih => exact ih hr.2
  | dynVec cb item ih => exact ih hr.2
  | struct cb w₁ w₂ fst snd ih₁ ih₂ => exact ⟨ih₁ hr.2.1, ih₂ hr.2.2⟩
  | table cb last fields ih => exact fun i => ih i (hr.2 i)

/-- The `chunk` callbacks of a reader do nothing, and its `body_chunk` callbacks collect. -/
def Reader.Silent {E σ ε : Type} (h : Handler E σ ε) : Reader E → Prop
  | .byte _ | .array _ _ => True
  | .bytes cb => ∀ c ∈ cb.bodyChunk, BodyCollects h c
  | .option cb item | .fixVec cb _ item | .dynVec cb item =>
    (∀ c ∈ cb.chunk, ∀ bs g, h.run (c bs) g = g) ∧ item.Silent h
  | .struct cb _ _ fst snd =>
    (∀ c ∈ cb.chunk, ∀ bs g, h.run (c bs) g = g) ∧ fst.Silent h ∧ snd.Silent h
  | .table cb _ fields =>
    (∀ c ∈ cb.chunk, ∀ bs g, h.run (c bs) g = g) ∧ ∀ i, (fields i).Silent h

theorem silent_chunkFluid {E σ ε : Type} {h : Handler E σ ε} {cb : Callbacks E}
    (hc : ∀ c ∈ cb.chunk, ∀ bs g, h.run (c bs) g = g) {inner : (E → Prop) → Prop}
    (hinner : ∀ P : E → Prop, (∀ e, P e) → inner P) : ChunkFluid h cb inner := by
  intro c hcb
  have hsim : ∀ bs e, SimAt h h (After h c bs) (fun _ => True) e := by
    intro bs e
    have hafter : After h c bs = Eq := by
      funext g₁ g₂
      rw [After, hc c hcb]
    rw [hafter]
    refine ⟨?_, ?_, ?_, fun _ _ => trivial⟩
    · rintro g _ rfl
      rfl
    · rintro g _ rfl hb
      exact ⟨hb, rfl⟩
    · rintro g _ rfl hn
      exact ⟨hn, rfl⟩
  refine ⟨fun a b g => ?_, fun bs => ⟨Callbacks.every_of_forall (hsim bs) _, hinner _ (hsim bs)⟩⟩
  rw [hc c hcb, hc c hcb, hc c hcb]

theorem Reader.Silent.fluid {E σ ε : Type} {h : Handler E σ ε} {r : Reader E} (hr : r.Silent h) :
    r.Fluid h := by
  induction r with
  | byte done => exact trivial
  | array width done => exact trivial
  | bytes cb => exact hr
  | option cb item ih => exact ⟨silent_chunkFluid hr.1 fun _ hP => item.every_of_forall hP, ih hr.2⟩
  | fixVec cb width item ih =>
    exact ⟨silent_chunkFluid hr.1 fun _ hP => item.every_of_forall hP, ih hr.2⟩
  | dynVec cb item ih => exact ⟨silent_chunkFluid hr.1 fun _ hP => item.every_of_forall hP, ih hr.2⟩
  | struct cb w₁ w₂ fst snd ih₁ ih₂ =>
    exact ⟨silent_chunkFluid hr.1 fun _ hP => ⟨fst.every_of_forall hP, snd.every_of_forall hP⟩,
      ih₁ hr.2.1, ih₂ hr.2.2⟩
  | table cb last fields ih =>
    exact ⟨silent_chunkFluid hr.1 fun _ hP i => (fields i).every_of_forall hP,
      fun i => ih i (hr.2 i)⟩

/-! ### Going on -/

section Resume
variable {σ ε : Type} {rank : Frame → ℕ} {stage : Frame → Option (Stage σ ε)} {s : Frame}
  {inp : List UInt8} {g : σ}

/-- How a parser goes on after a part. -/
def Next.resume (rank : Frame → ℕ) (stage : Frame → Option (Stage σ ε))
    (rest : List UInt8) : Next σ → Res σ ε
  | .go s u g => runAll rank stage (.node s u) rest g
  | .accept s u g => ⟨.complete, .node s u, rest, g, false⟩
  | .refuse s u g => ⟨.reject, .node s u, rest, g, true⟩

theorem runAll_complete (hrank : Ranked rank stage) {p : Stage σ ε} (hs : stage s = some p)
    {u st : ReaderState} {rest : List UInt8} {g' : σ}
    (hp : p.parse u inp g = ⟨.complete, st, rest, g', false⟩) :
    runAll rank stage (.node s u) inp g = (p.next st g').resume rank stage rest := by
  have hsome := hrank.runAll_some (show stage (ReaderState.node s u).frame = some p from hs) inp g
  rw [hsome]
  simp only [ReaderState.u_node, hp]
  cases p.next st g' <;> rfl

theorem runAll_stop (hs : stage s = none) (u : ReaderState) :
    runAll rank stage (.node s u) inp g = ⟨.complete, .node s u, inp, g, false⟩ :=
  runAll_none hs inp g

end Resume

/-! ### Counting calls -/

section Tally
variable {E N : Type} (ε : Type) (f : Slot → E → List N)

/-- A handler that only writes down something about each call. -/
def Handler.tally : Handler E (List N) ε where
  run e l := l ++ f .void e
  ask e l := (l ++ f .size e, true)
  finish e l := (l ++ f .close e, none)

/-- What is written down for a list of notes. -/
def tallyAll (es : List (Note E)) : List N := es.flatMap fun n => f n.1 n.2

@[simp] theorem tallyAll_nil : tallyAll f [] = [] := rfl

@[simp] theorem tallyAll_append (es es' : List (Note E)) :
    tallyAll f (es ++ es') = tallyAll f es ++ tallyAll f es' := List.flatMap_append

variable {ε f}

theorem run_tally (e : E) (l : List N) : (Handler.tally ε f).run e l = l ++ f .void e := rfl

@[simp] theorem fire_tally (o : Option E) (l : List N) :
    (Handler.tally ε f).fire o l = l ++ tallyAll f (note .void o) := by
  cases o with
  | none => simp
  | some e => simp [Handler.tally, tallyAll]

@[simp] theorem allow_tally (o : Option E) (l : List N) :
    (Handler.tally ε f).allow o l =
      (l ++ tallyAll f (note .size o), true) := by
  cases o with
  | none => simp
  | some e => simp [Handler.tally, tallyAll]

@[simp] theorem close_tally (o : Option E) (l : List N) :
    (Handler.tally ε f).close o l =
      (l ++ tallyAll f (note .close o), none) := by
  cases o with
  | none => simp
  | some e => simp [Handler.tally, tallyAll]

@[simp] theorem start_tally (r : Reader E) (l : List N) :
    r.start (Handler.tally ε f) l = l ++ tallyAll f r.starts := by
  induction r generalizing l with
  | byte done => simp [Reader.start, Reader.starts]
  | array width done => simp [Reader.start, Reader.starts]
  | bytes cb => simp [Reader.start, Reader.starts]
  | option cb item ih => simp [Reader.start, Reader.starts, ih]
  | fixVec cb width item ih => simp [Reader.start, Reader.starts]
  | dynVec cb item ih => simp [Reader.start, Reader.starts]
  | struct cb w₁ w₂ fst snd ih₁ ih₂ => simp [Reader.start, Reader.starts, ih₁]
  | table cb last fields ih => simp [Reader.start, Reader.starts]

variable (f) in
/-- A call on the whole of a part ends as the scanner says. -/
def Res.Scanned (l : List N) (o : Option (List (Note E) × List UInt8)) (r : Res (List N) ε) : Prop :=
  match o with
  | some (es, rest) => ∃ st, r = ⟨.complete, st, rest, l ++ tallyAll f es, false⟩
  | none => r.rv ≠ .complete

variable {cb : Callbacks E}

theorem leave_scanned {l : List N} {inp : List UInt8} {o : Option (List (Note E) × List UInt8)}
    {r : Res (List N) ε} (hr : r.Scanned f l o) :
    (leave (Handler.tally ε f) cb inp r).Scanned f l
      (o.bind fun x => some (x.1 ++ cb.leaving (consumed inp x.2), x.2)) := by
  cases o with
  | none =>
    obtain ⟨rv, st, rest, g, d⟩ := r
    cases rv with
    | complete => exact absurd rfl hr
    | incomplete => exact nofun
    | reject =>
      cases d <;> exact nofun
    | throw e => exact nofun
  | some x =>
    obtain ⟨st, rfl⟩ := hr
    refine ⟨st, ?_⟩
    simp [leave, Res.closed, Callbacks.leaving, consumed]

variable (ε f) in
theorem molParseNum_scanned (l : List N) (inp : List UInt8) :
    match scanNum inp with
    | some (n, rest) => ∃ st, molParseNum (Handler.tally ε f) (.leaf []) inp l =
        ⟨.complete, st, rest, l, false⟩ ∧ st.num = n
    | none => (molParseNum (Handler.tally ε f) (.leaf []) inp l).rv =
        .incomplete := by
  unfold scanNum
  by_cases h : 4 ≤ inp.length
  · rw [if_pos h]
    refine ⟨.leaf (inp.take 4), ?_, ?_⟩
    · simp [molParseNum, molParseBytes, h]
    · simp [ReaderState.num, List.take_take]
  · rw [if_neg h]
    simp [molParseNum, molParseBytes, h]

section Stages
variable {rank : Frame → ℕ} {stage : Frame → Option (Stage (List N) ε)} {s : Frame}
  {l : List N} {inp : List UInt8}

theorem runAll_rv (hrank : Ranked rank stage) {p : Stage (List N) ε} (hs : stage s = some p)
    {u : ReaderState} (hp : (p.parse u inp l).rv ≠ .complete) :
    (runAll rank stage (.node s u) inp l).rv ≠ .complete := by
  have hsome := hrank.runAll_some (show stage (ReaderState.node s u).frame = some p from hs) inp l
  rw [hsome]
  simp only [ReaderState.u_node]
  generalize p.parse u inp l = r at hp ⊢
  obtain ⟨rv, st, rest, g, d⟩ := r
  cases rv with
  | complete => exact absurd rfl hp
  | incomplete => exact nofun
  | reject => exact nofun
  | throw e => exact nofun

variable (l inp) in
/-- The stage of a number: the parser goes on if there are four bytes. -/
theorem runAll_num (hrank : Ranked rank stage) {next : ReaderState → List N → Next (List N)}
    (hs : stage s = some ⟨molParseNum (Handler.tally ε f), next⟩)
    {o : ℕ × List UInt8 → Option (List (Note E) × List UInt8)}
    (hgo : ∀ st rest, ((next st l).resume rank stage rest).Scanned f l (o (st.num, rest))) :
    (runAll rank stage (.node s (.leaf [])) inp l).Scanned f l ((scanNum inp).bind o) := by
  have hnum := molParseNum_scanned ε f l inp
  cases hn : scanNum inp with
  | none =>
    rw [hn] at hnum
    exact runAll_rv hrank hs (by simp only [hnum]; exact nofun)
  | some x =>
    rw [hn] at hnum
    obtain ⟨st, hst, hx⟩ := hnum
    rw [runAll_complete hrank hs hst]
    have hrest := hgo st x.2
    rw [hx] at hrest
    exact hrest

/-- The stage of a part: the parser goes on with what follows the part. -/
theorem runAll_part (hrank : Ranked rank stage) {p : Stage (List N) ε} {u : ReaderState}
    (hs : stage s = some p) {o : Option (List (Note E) × List UInt8)}
    (hp : (p.parse u inp l).Scanned f l o)
    {k : List (Note E) × List UInt8 → Option (List (Note E) × List UInt8)}
    (hgo : ∀ es rest st,
      ((p.next st (l ++ tallyAll f es)).resume rank stage rest).Scanned f l (k (es, rest))) :
    (runAll rank stage (.node s u) inp l).Scanned f l (o.bind k) := by
  cases o with
  | none => exact runAll_rv hrank hs hp
  | some x =>
    obtain ⟨st, hst⟩ := hp
    rw [runAll_complete hrank hs hst]
    exact hgo x.1 x.2 st

end Stages

theorem Res.Scanned.prepend {l : List N} {before : List (Note E)}
    {o : Option (List (Note E) × List UInt8)} {r : Res (List N) ε}
    (h : r.Scanned f (l ++ tallyAll f before) o) :
    r.Scanned f l (o.bind fun x => some (before ++ x.1, x.2)) := by
  cases o with
  | none => exact h
  | some x =>
    obtain ⟨st, rfl⟩ := h
    exact ⟨st, by simp⟩

theorem Res.Scanned.of_eq {l : List N} {o o' : Option (List (Note E) × List UInt8)}
    {r : Res (List N) ε} (h : r.Scanned f l o) (ho : o = o') : r.Scanned f l o' := ho ▸ h

/-! ### One lemma for each template -/

/-- The number of items does not depend on the position. -/
theorem Frame.items_fieldIdx (s : Frame) (k : ℕ) :
    Frame.items { s with fieldIdx := k } = s.items := rfl

theorem Frame.items_position (s : Frame) (k n : ℕ) :
    Frame.items { s with fieldIdx := k, stateNum := n } = s.items := rfl

section Templates
variable {σ : Type} {h : Handler E σ ε} {width size : ℕ} {part : Part σ ε} {s : Frame}

theorem fixVecStage_item {k : ℕ} (hk : s.stateNum = k + 1) (hlt : k < s.totalSize) :
    fixVecStage h cb width part size s = some ⟨fun u => part.parse u width, fun _ g =>
      .go { s with stateNum := k + 2 } part.initState
        (h.fire (cb.index.map fun f => f (k + 1)) (part.start g))⟩ := by
  unfold fixVecStage
  rw [hk]
  exact if_pos hlt

theorem fixVecStage_end {k : ℕ} (hk : s.stateNum = k + 1) (hle : s.totalSize ≤ k) :
    fixVecStage h cb width part size s = none := by
  unfold fixVecStage
  rw [hk]
  exact if_neg (not_lt.mpr hle)

theorem dynVecStage_size {k i t : ℕ} {os : List ℕ} (h0 : k = 0) :
    dynVecStage h cb part size ⟨k, i, t, os⟩ = some ⟨molParseNum h, fun u g =>
      Next.allowed ⟨k, i, u.num, os⟩ (.leaf []) (fun g =>
        if u.num = 4 then .accept ⟨k, i, u.num, os⟩ (.leaf []) g
        else if size ≠ molNumMax ∧ size ≠ u.num then .refuse ⟨k, i, u.num, os⟩ (.leaf []) g
        else .go ⟨1, i, u.num, os⟩ (.leaf []) g)
        (h.allow (cb.size.map fun f => f u.num) g)⟩ := by
  subst h0
  rfl

theorem dynVecStage_first {k i t : ℕ} {os : List ℕ} (h1 : k = 1) :
    dynVecStage h cb part size ⟨k, i, t, os⟩ = some ⟨molParseNum h, fun u g =>
      if 1 < sub32 (u.num / 4) 1 then .go ⟨2, 1, t, [u.num]⟩ (.leaf []) g
      else dynVecItems h cb part ⟨2, 1, t, [u.num]⟩ g⟩ := by
  subst h1
  rfl

theorem dynVecStage_num (h2 : s.stateNum = 2) :
    dynVecStage h cb part size s = some ⟨molParseNum h, fun _ g =>
      if s.fieldIdx + 1 < s.items then .go { s with fieldIdx := s.fieldIdx + 1 } (.leaf []) g
      else dynVecItems h cb part { s with fieldIdx := s.fieldIdx + 1 } g⟩ := by
  simp only [dynVecStage, h2]
  rfl

theorem dynVecStage_item (h3 : s.stateNum = 3) (hlt : s.fieldIdx < s.items) :
    dynVecStage h cb part size s = some ⟨fun u => part.parse u molNumMax, fun _ g =>
      .go { s with fieldIdx := s.fieldIdx + 1 } part.initState
        (h.fire (cb.index.map fun f => f (s.fieldIdx + 1)) (part.start g))⟩ := by
  simp only [dynVecStage, h3, if_pos hlt]

theorem dynVecStage_end (h3 : s.stateNum = 3) (hle : s.items ≤ s.fieldIdx) :
    dynVecStage h cb part size s = none := by
  simp only [dynVecStage, h3, if_neg (not_lt.mpr hle)]

end Templates

section Items
variable {item : Reader E} {width size : ℕ}
  (hitem : ∀ size inp l, (item.parse (Handler.tally ε f) item.initState size inp l).Scanned f l
    (item.scan size inp))
include hitem

variable (cb size width) in
theorem fixVec_items (n : ℕ) {k : ℕ} {s : Frame} (hk : s.stateNum = k + 1)
    (hn : s.totalSize = k + n) (l : List N) (inp : List UInt8) :
    (runAll fixVecRank (fixVecStage (Handler.tally ε f) cb width (item.part (Handler.tally ε f))
      size) (.node s item.initState) inp l).Scanned f l
        (scanItems (item.scan width) (Reader.nextItem cb item) n k inp) := by
  induction n generalizing k s l inp with
  | zero =>
    rw [runAll_stop (fixVecStage_end hk (by omega))]
    exact ⟨.node s item.initState, by simp⟩
  | succ n ih =>
    refine runAll_part (fixVecStage_ranked cb _ size width) (fixVecStage_item hk (by omega))
      (hitem width inp l) fun es rest st => ?_
    have hrest := ih (s := { s with stateNum := k + 2 }) rfl (by simp only [hn]; omega)
      (l ++ tallyAll f (es ++ Reader.nextItem cb item (k + 1))) rest
    refine Res.Scanned.prepend ?_
    simpa [Reader.nextItem, Next.resume, Reader.part] using hrest

variable (cb size) in
theorem dynVec_items (n : ℕ) {k : ℕ} {s : Frame} (h3 : s.stateNum = 3) (hk : s.fieldIdx = k)
    (hn : s.items = k + n) (l : List N) (inp : List UInt8) :
    (runAll dynVecRank (dynVecStage (Handler.tally ε f) cb (item.part (Handler.tally ε f)) size)
      (.node s item.initState) inp l).Scanned f l
        (scanItems (item.scan molNumMax) (Reader.nextItem cb item) n k inp) := by
  induction n generalizing k s l inp with
  | zero =>
    rw [runAll_stop (dynVecStage_end h3 (by omega))]
    exact ⟨.node s item.initState, by simp⟩
  | succ n ih =>
    refine runAll_part (dynVecStage_ranked cb _ size) (dynVecStage_item h3 (by omega))
      (hitem molNumMax inp l) fun es rest st => ?_
    have hn' : Frame.items { s with fieldIdx := s.fieldIdx + 1 } = k + 1 + n := by
      rw [s.items_fieldIdx, hn]
      omega
    have hrest := ih (s := { s with fieldIdx := s.fieldIdx + 1 }) h3
      (congrArg (· + 1) hk) hn' (l ++ tallyAll f (es ++ Reader.nextItem cb item (k + 1))) rest
    refine Res.Scanned.prepend ?_
    simpa [Reader.nextItem, Next.resume, Reader.part, hk] using hrest

variable (cb size) in
theorem dynVec_entered {n : ℕ} {s : Frame} (hn : s.items = n) (l : List N) (rest : List UInt8) :
    ((dynVecItems (Handler.tally ε f) cb (item.part (Handler.tally ε f)) s l).resume dynVecRank
      (dynVecStage (Handler.tally ε f) cb (item.part (Handler.tally ε f)) size) rest).Scanned f l
        ((scanItems (item.scan molNumMax) (Reader.nextItem cb item) n 0 rest).bind fun x =>
          some (Reader.firstItem cb item n ++ x.1, x.2)) := by
  have hn' : Frame.items { s with fieldIdx := 0, stateNum := 3 } = 0 + n := by
    rw [s.items_position, hn, Nat.zero_add]
  have hitems := dynVec_items cb size hitem n rfl rfl hn'
    (l ++ tallyAll f (Reader.firstItem cb item n)) rest
  refine Res.Scanned.prepend ?_
  simpa [Reader.firstItem, dynVecItems, Next.resume, Reader.part, hn] using hitems

variable (cb size) in
theorem dynVec_nums (n : ℕ) {k m : ℕ} {s : Frame} (h2 : s.stateNum = 2) (hk : s.fieldIdx = k)
    (hm : s.items = m) (hn : m = k + n + 1) (l : List N) (inp : List UInt8) :
    (runAll dynVecRank (dynVecStage (Handler.tally ε f) cb (item.part (Handler.tally ε f)) size)
      (.node s (.leaf [])) inp l).Scanned f l ((scanNums (n + 1) inp).bind fun x =>
        (scanItems (item.scan molNumMax) (Reader.nextItem cb item) m 0 x.2).bind fun y =>
          some (Reader.firstItem cb item m ++ y.1, y.2)) := by
  induction n generalizing k s l inp with
  | zero =>
    have hr := runAll_num l inp (dynVecStage_ranked cb _ size)
      (dynVecStage_num h2) (o := fun x =>
        (scanItems (item.scan molNumMax) (Reader.nextItem cb item) m 0 x.2).bind fun y =>
          some (Reader.firstItem cb item m ++ y.1, y.2)) fun st rest => by
        rw [if_neg (by omega)]
        exact dynVec_entered cb size hitem (s.items_fieldIdx _ |>.trans hm) l rest
    refine hr.of_eq ?_
    simp only [scanNums]
    cases scanNum inp <;> rfl
  | succ n ih =>
    have hr := runAll_num l inp (dynVecStage_ranked cb _ size)
      (dynVecStage_num h2) (o := fun x => (scanNums (n + 1) x.2).bind fun x =>
        (scanItems (item.scan molNumMax) (Reader.nextItem cb item) m 0 x.2).bind fun y =>
          some (Reader.firstItem cb item m ++ y.1, y.2))
      fun st rest => by
        rw [if_pos (by omega), Next.resume]
        exact ih (s := { s with fieldIdx := s.fieldIdx + 1 }) h2 (congrArg (· + 1) hk)
          (s.items_fieldIdx _ |>.trans hm) (by omega) l rest
    refine hr.of_eq ?_
    rw [scanNums]
    cases scanNum inp with
    | none => rfl
    | some x =>
      simp only [Option.bind_eq_bind, Option.bind_some]
      cases scanNums (n + 1) x.2 <;> rfl

/-- The first offset of a dynamic vector, and what follows from it. -/
theorem dynVec_first {k i t : ℕ} {os : List ℕ} (h1 : k = 1) (l : List N) (inp : List UInt8) :
    (runAll dynVecRank (dynVecStage (Handler.tally ε f) cb (item.part (Handler.tally ε f)) size)
      (.node ⟨k, i, t, os⟩ (.leaf [])) inp l).Scanned f l ((scanNum inp).bind fun x =>
        scanVector (item.scan molNumMax) (Reader.firstItem cb item) (Reader.nextItem cb item)
          (sub32 (x.1 / 4) 1) x.2) := by
  refine runAll_num _ _ (dynVecStage_ranked cb _ size) (dynVecStage_first h1) fun st rest => ?_
  have hm : Frame.items ⟨2, 1, t, [st.num]⟩ = sub32 (st.num / 4) 1 := rfl
  generalize sub32 (st.num / 4) 1 = m at hm ⊢
  unfold scanVector
  split
  · rename_i hlt
    rw [Next.resume]
    have hnums := dynVec_nums cb size hitem (m - 2) (k := 1) (s := ⟨2, 1, t, [st.num]⟩) rfl rfl hm
      (by omega) l rest
    rwa [show m - 2 + 1 = m - 1 by omega] at hnums
  · rename_i hle
    rw [show m - 1 = 0 by omega, scanNums, Option.bind_eq_bind, Option.bind_some]
    exact dynVec_entered cb size hitem hm l rest

theorem dynVec_sized {k i t : ℕ} {os : List ℕ} (h0 : k = 0) (l : List N) (inp : List UInt8) :
    (runAll dynVecRank (dynVecStage (Handler.tally ε f) cb (item.part (Handler.tally ε f)) size)
      (.node ⟨k, i, t, os⟩ (.leaf [])) inp l).Scanned f l ((scanNum inp).bind fun x =>
    if x.1 = 4 then some (note .size (cb.size.map fun f => f x.1), x.2)
    else if size ≠ molNumMax ∧ size ≠ x.1 then none
    else ((scanNum x.2).bind fun y => scanVector (item.scan molNumMax) (Reader.firstItem cb item)
      (Reader.nextItem cb item) (sub32 (y.1 / 4) 1) y.2).bind fun w =>
        some (note .size (cb.size.map fun f => f x.1) ++ w.1, w.2)) := by
  refine runAll_num _ _ (dynVecStage_ranked cb _ size) (dynVecStage_size h0) fun st rest => ?_
  rw [allow_tally, Next.allowed]
  split
  · rw [Next.resume]
    exact ⟨_, rfl⟩
  · split
    · rw [Next.resume]
      simp [Res.Scanned]
    · rw [Next.resume]
      exact (dynVec_first hitem rfl _ rest).prepend

theorem dynVec_scanned (l : List N) (inp : List UInt8) :
    ((Reader.dynVec cb item).parse (Handler.tally ε f) (Reader.dynVec cb item).initState size inp
      l).Scanned f l ((Reader.dynVec cb item).scan size inp) := by
  rw [Reader.parse_dynVec, parseStages, Reader.scan]
  exact leave_scanned (dynVec_sized hitem rfl l inp)

theorem fixVec_scanned (width : ℕ) (l : List N) (inp : List UInt8) :
    ((Reader.fixVec cb width item).parse (Handler.tally ε f)
      (Reader.fixVec cb width item).initState size inp l).Scanned f l
        ((Reader.fixVec cb width item).scan size inp) := by
  rw [Reader.parse_fixVec, parseStages, Reader.scan]
  refine leave_scanned (runAll_num _ _ (fixVecStage_ranked cb _ size width) rfl fun st rest => ?_)
  dsimp only
  split
  · simp [Res.Scanned, Next.resume]
  · rw [allow_tally]
    dsimp only [Next.allowed, Next.resume]
    refine Res.Scanned.prepend ?_
    have hitems := fixVec_items cb width size hitem st.num (k := 0)
      (s := { stateNum := 1, totalSize := st.num }) rfl (Nat.zero_add _).symm
      (l ++ tallyAll f (note .size (cb.size.map fun f => f (st.num * width + 4)) ++
        Reader.nextItem cb item 0)) rest
    simpa [Reader.nextItem, Reader.part] using hitems

theorem option_scanned (l : List N) (inp : List UInt8) :
    ((Reader.option cb item).parse (Handler.tally ε f) (Reader.option cb item).initState size inp
      l).Scanned f l ((Reader.option cb item).scan size inp) := by
  rw [Reader.parse_option, parseStages, Reader.scan]
  refine leave_scanned ?_
  beta_reduce
  by_cases hs : size = 0
  · rw [Reader.initState, runAll_stop (if_pos hs), if_pos hs]
    exact ⟨.node {} item.initState, by simp⟩
  · rw [if_neg hs]
    have hr := runAll_part (optionStage_ranked (item.part (Handler.tally ε f)) size)
      (s := {}) (if_neg hs) (hitem size inp l) (k := some) fun es rest st => ⟨_, rfl⟩
    rwa [Option.bind_fun_some] at hr

end Items

section Parts
variable {size : ℕ}

theorem struct_scanned {w₁ w₂ : ℕ} {fst snd : Reader E}
    (hfst : ∀ inp l, (fst.parse (Handler.tally ε f) fst.initState w₁ inp l).Scanned f l
      (fst.scan w₁ inp))
    (hsnd : ∀ inp l, (snd.parse (Handler.tally ε f) snd.initState w₂ inp l).Scanned f l
      (snd.scan w₂ inp)) (l : List N) (inp : List UInt8) :
    ((Reader.struct cb w₁ w₂ fst snd).parse (Handler.tally ε f)
      (Reader.struct cb w₁ w₂ fst snd).initState size inp l).Scanned f l
        ((Reader.struct cb w₁ w₂ fst snd).scan size inp) := by
  rw [Reader.scan]
  by_cases hs : size = w₁ + w₂ ∨ size = molNumMax
  · rw [if_neg (by omega), Reader.parse_struct _ _ _ _ _ _ _ _ hs, parseStages]
    refine leave_scanned (runAll_part (structStage_ranked _ _ w₁ w₂) rfl (hfst inp l)
      fun es rest st => ?_)
    have hrest := runAll_part (structStage_ranked (fst.part (Handler.tally ε f)) (snd.part
      (Handler.tally ε f)) w₁ w₂) (s := { stateNum := 1 }) rfl
      (hsnd rest (l ++ tallyAll f es ++ tallyAll f snd.starts)) (k := some)
      fun es' rest' st' => ⟨_, rfl⟩
    rw [Option.bind_fun_some] at hrest
    have hpre := (hrest.prepend).prepend
    cases hx : snd.scan w₂ rest with
    | none =>
      rw [hx] at hpre
      simpa [Next.resume, Reader.part] using hpre
    | some x =>
      rw [hx] at hpre
      simpa [Next.resume, Reader.part] using hpre
  · rw [if_pos (by omega)]
    have hreject : ∀ st inp l, (Reader.struct cb w₁ w₂ fst snd).parse (Handler.tally ε f) st size
        inp l = ⟨.reject, st, inp, l, false⟩ := fun _ _ _ => if_pos (by omega)
    rw [hreject]
    simp [Res.Scanned]

theorem bytes_scanned (hb : ∀ c ∈ cb.bodyChunk, BodyBlind (Handler.tally ε f) c)
    (l : List N) (inp : List UInt8) :
    ((Reader.bytes cb).parse (Handler.tally ε f) (Reader.bytes cb).initState size inp l).Scanned f l
      ((Reader.bytes cb).scan size inp) := by
  rw [Reader.scan]
  have hnum := molParseNum_scanned ε f l inp
  change (parseBytes (Handler.tally ε f) cb .zero size inp l).Scanned f l _
  have hu : ReaderState.u .zero = .leaf [] := rfl
  have hz : (ReaderState.frame .zero).stateNum = 0 := rfl
  unfold parseBytes
  dsimp only
  rw [if_pos hz, hu]
  cases hn : scanNum inp with
  | none =>
    rw [hn] at hnum
    simp only [hnum]
    exact nofun
  | some x =>
    obtain ⟨n, rest⟩ := x
    rw [hn] at hnum
    obtain ⟨st, hst, hx⟩ := hnum
    simp only [hst, hx, Option.bind_eq_bind, Option.bind_some]
    by_cases hbad : 2 ^ 32 ≤ n + 4 ∨ (size ≠ molNumMax ∧ n + 4 ≠ size)
    · rw [if_pos hbad, if_pos (by tauto)]
      exact nofun
    · rw [if_neg hbad, allow_tally]
      dsimp only
      by_cases hlt : rest.length < n
      · rw [if_pos (.inr (.inr hlt)), parseBody_of_lt _ (by simpa using hlt)]
        exact nofun
      · rw [if_neg (by tauto)]
        rcases Nat.eq_zero_or_pos n with rfl | hpos
        · rw [parseBody_empty _ (by simp)]
          refine ⟨.node ⟨1, 0, 0, []⟩ st, ?_⟩
          simp [Res.closed, ReaderState.zero]
        · have hx : (rest.take n).length = n := by simp; omega
          have hne : rest.take n ≠ [] := by
            intro h0
            simp [h0] at hx
            omega
          have happ : parseBody (Handler.tally ε f) cb ⟨1, 0, n, []⟩ st (rest.take n ++ rest.drop n)
              (l ++ tallyAll f (note .size (cb.size.map fun f => f (n + 4)))) = _ :=
            parseBody_append _ (by simpa using hx) hne st (rest.drop n) _
          have hblind : ∀ l, (Handler.tally ε f).fire (cb.bodyChunk.map fun c =>
              c (rest.take n) (rest.drop n)) l =
              (Handler.tally ε f).fire (cb.bodyChunk.map fun c => c (rest.take n) []) l := by
            cases hc : cb.bodyChunk with
            | none => exact fun _ => rfl
            | some c => exact hb c hc _ _ _
          rw [List.take_append_drop, hblind] at happ
          refine ⟨.node ⟨1 + n, 0, n, []⟩ st, ?_⟩
          rw [if_neg (by omega)]
          simpa [Res.closed, hx, ReaderState.zero] using happ

/-! ### Tables -/

section Table
variable {last : ℕ} {fields : Fin (last + 1) → Reader E}

/-- The scanners of the fields under the offsets of a frame. -/
def fieldScans (fields : Fin (last + 1) → Reader E) (s : Frame) :
    List (List (Note E) × Scanner E) :=
  List.ofFn fun i =>
    (if i.val = 0 then [] else (fields i).starts, (fields i).scan (s.fieldSize i))

theorem Frame.fieldSize_fieldIdx (s : Frame) (k i : ℕ) :
    Frame.fieldSize { s with fieldIdx := k } i = s.fieldSize i := rfl

theorem fieldScans_congr {s s' : Frame} (ht : s.totalSize = s'.totalSize)
    (ho : s.offsets = s'.offsets) : fieldScans fields s = fieldScans fields s' := by
  simp only [fieldScans, Frame.fieldSize, ht, ho]

variable (fields) in
theorem fieldScans_drop (s : Frame) {i : ℕ} (hi : i < last + 1) :
    (fieldScans fields s).drop i =
      (if i = 0 then [] else (fields ⟨i, hi⟩).starts, (fields ⟨i, hi⟩).scan (s.fieldSize i)) ::
        (fieldScans fields s).drop (i + 1) := by
  rw [List.drop_eq_getElem_cons (by simpa only [fieldScans, List.length_ofFn] using hi)]
  simp only [fieldScans, List.getElem_ofFn]

theorem scanFields_cons (before : List (Note E)) (field : Scanner E)
    (fields : List (List (Note E) × Scanner E)) (inp : List UInt8) :
    scanFields ((before, field) :: fields) inp =
      (scanFields (([], field) :: fields) inp).bind fun x => some (before ++ x.1, x.2) := by
  simp only [scanFields, Option.bind_eq_bind]
  cases field inp with
  | none => rfl
  | some x =>
    simp only [Option.bind_some]
    cases scanFields fields x.2 with
    | none => rfl
    | some y => simp

/-- The parts of a table. -/
abbrev tableParts {σ : Type} (h : Handler E σ ε) (fields : Fin (last + 1) → Reader E) :
    List (Part σ ε) :=
  List.ofFn fun i => (fields i).part h

theorem tableParts_get {σ : Type} {h : Handler E σ ε} {i : ℕ} (hi : i < last + 1) :
    (tableParts h fields)[i]? = some ((fields ⟨i, hi⟩).part h) := by
  rw [List.getElem?_eq_getElem (by simpa only [List.length_ofFn] using hi), List.getElem_ofFn]

theorem tableParts_end {σ : Type} {h : Handler E σ ε} : (tableParts h fields)[last + 1]? = none := by
  rw [List.getElem?_eq_none_iff, List.length_ofFn]

/-- What follows a field of a table. -/
def tableNext {σ : Type} (s : Frame) (field : Option (Part σ ε)) (u : ReaderState) (g : σ) :
    Next σ :=
  match field with
  | none => .go { s with stateNum := 3 } u g
  | some field => .go { s with fieldIdx := s.fieldIdx + 1 } field.initState (field.start g)

variable (cb size) in
theorem tableStage_field {σ : Type} {h : Handler E σ ε} {parts : List (Part σ ε)} {s : Frame}
    {part : Part σ ε} (h2 : s.stateNum = 2) (hp : parts[s.fieldIdx]? = some part) :
    tableStage h cb parts size s = some ⟨fun u => part.parse u (s.fieldSize s.fieldIdx),
      tableNext s parts[s.fieldIdx + 1]?⟩ := by
  simp only [tableStage, h2, hp, Option.some.injEq, Stage.mk.injEq, true_and]
  funext u g
  unfold tableNext
  cases parts[s.fieldIdx + 1]? with
  | none => rfl
  | some field =>
    rw [h2]

theorem tableStage_end {σ : Type} {h : Handler E σ ε} {parts : List (Part σ ε)} {s : Frame}
    (h3 : s.stateNum = 3) : tableStage h cb parts size s = none := by
  simp only [tableStage, h3]

theorem tableStage_offset {σ : Type} {h : Handler E σ ε} {first : Part σ ε}
    {rest : List (Part σ ε)} {k i t : ℕ} {os : List ℕ} (h1 : k = 1) :
    tableStage h cb (first :: rest) size ⟨k, i, t, os⟩ = some ⟨molParseNum h, fun u g =>
      if i < rest.length then .go ⟨1, i + 1, t, os ++ [u.num]⟩ (.leaf []) g
      else .go ⟨2, 0, t, os ++ [u.num]⟩ first.initState
        (h.fire (cb.offsets.map fun f => f t (os ++ [u.num])) (first.start g))⟩ := by
  subst h1
  rfl

theorem tableStage_size {σ : Type} {h : Handler E σ ε} {parts : List (Part σ ε)} {k i t : ℕ}
    {os : List ℕ} (h0 : k = 0) :
    tableStage h cb parts size ⟨k, i, t, os⟩ = some ⟨molParseNum h, fun u g =>
      if size ≠ molNumMax ∧ u.num ≠ size then .refuse ⟨k, i, u.num, os⟩ (.leaf []) g
      else .go ⟨1, i, u.num, os⟩ (.leaf []) g⟩ := by
  subst h0
  rfl

theorem tableParts_offset {σ : Type} {h : Handler E σ ε} {k i t : ℕ} {os : List ℕ} (h1 : k = 1) :
    tableStage h cb (tableParts h fields) size ⟨k, i, t, os⟩ =
      some ⟨molParseNum h, fun u g =>
        if i < last then .go ⟨1, i + 1, t, os ++ [u.num]⟩ (.leaf []) g
        else .go ⟨2, 0, t, os ++ [u.num]⟩ (fields 0).initState
          (h.fire (cb.offsets.map fun f => f t (os ++ [u.num])) ((fields 0).start h g))⟩ := by
  rw [tableParts, List.ofFn_succ, tableStage_offset h1, List.length_ofFn]
  rfl

theorem tableParts_ranked {σ : Type} {h : Handler E σ ε} (size : ℕ) :
    Ranked (tableRank (last + 1)) (tableStage h cb (tableParts h fields) size) := by
  have hrank := tableStage_ranked (h := h) cb size (tableParts h fields)
  rwa [List.length_ofFn] at hrank

variable (hfields : ∀ i size inp l, ((fields i).parse (Handler.tally ε f) (fields i).initState size
  inp l).Scanned f l ((fields i).scan size inp))
include hfields

variable (cb size) in
theorem table_fields (n : ℕ) {i : ℕ} (hi : i < last + 1) {s : Frame} (h2 : s.stateNum = 2)
    (hs : s.fieldIdx = i) (hn : i + n = last) (l : List N) (inp : List UInt8) :
    (runAll (tableRank (last + 1))
      (tableStage (Handler.tally ε f) cb (tableParts (Handler.tally ε f) fields) size)
      (.node s (fields ⟨i, hi⟩).initState) inp l).Scanned f l (scanFields
        (([], (fields ⟨i, hi⟩).scan (s.fieldSize i)) :: (fieldScans fields s).drop (i + 1)) inp) := by
  subst hs
  induction n generalizing s l inp with
  | zero =>
    have hnext : (tableParts (Handler.tally ε f) fields)[s.fieldIdx + 1]? = none := by
      rw [show s.fieldIdx + 1 = last + 1 by omega, tableParts_end]
    have hend : (fieldScans fields s).drop (s.fieldIdx + 1) = [] := by
      rw [List.drop_eq_nil_iff, fieldScans, List.length_ofFn]
      omega
    rw [hend]
    have hr := runAll_part (tableParts_ranked size)
      (tableStage_field cb size h2 (tableParts_get hi)) (hfields _ _ inp l)
      (k := some) fun es rest st => by
        rw [hnext]
        dsimp only [tableNext, Next.resume]
        rw [runAll_stop (tableStage_end rfl)]
        exact ⟨_, rfl⟩
    refine hr.of_eq ?_
    simp only [scanFields]
    cases (fields ⟨s.fieldIdx, hi⟩).scan (s.fieldSize s.fieldIdx) inp with
    | none => rfl
    | some x => simp
  | succ n ih =>
    have hi' : s.fieldIdx + 1 < last + 1 := by omega
    have hr := runAll_part (tableParts_ranked size)
      (tableStage_field cb size h2 (tableParts_get hi)) (hfields _ _ inp l)
      (k := fun x => (scanFields ((fieldScans fields s).drop (s.fieldIdx + 1)) x.2).bind fun y =>
        some (x.1 ++ y.1, y.2)) fun es rest st => by
        rw [tableParts_get hi', fieldScans_drop fields s hi', if_neg (Nat.succ_ne_zero _),
          scanFields_cons]
        dsimp only [tableNext, Next.resume]
        refine Res.Scanned.prepend (Res.Scanned.prepend ?_)
        have hrest := ih (s := { s with fieldIdx := s.fieldIdx + 1 }) h2
          (l ++ tallyAll f es ++ tallyAll f (fields ⟨s.fieldIdx + 1, hi'⟩).starts) rest hi'
          (show s.fieldIdx + 1 + n = last by omega)
        have hscans : fieldScans fields { s with fieldIdx := s.fieldIdx + 1 } =
          fieldScans fields s := fieldScans_congr rfl rfl
        dsimp only at hrest
        rw [hscans, s.fieldSize_fieldIdx] at hrest
        simpa only [Reader.part, start_tally] using hrest
    refine hr.of_eq ?_
    simp only [scanFields, List.nil_append]
    rfl

/-- What follows the header of a table. -/
def scanTable (cb : Callbacks E) (fields : Fin (last + 1) → Reader E) (t : ℕ) (os : List ℕ) :
    Scanner E := fun inp => (scanFields (fieldScans fields { totalSize := t, offsets := os }) inp).bind
  fun x => some ((fields 0).starts ++ note .void (cb.offsets.map fun f => f t os) ++ x.1, x.2)

variable (cb size) in
theorem table_entered (l : List N) (t : ℕ) (os : List ℕ) (inp : List UInt8) :
    (runAll (tableRank (last + 1))
      (tableStage (Handler.tally ε f) cb (tableParts (Handler.tally ε f) fields) size)
      (.node ⟨2, 0, t, os⟩ (fields 0).initState) inp (l ++ tallyAll f ((fields 0).starts ++
        note .void (cb.offsets.map fun f => f t os)))).Scanned f l
          (scanTable cb fields t os inp) := by
  have hr := table_fields cb size hfields last (Nat.succ_pos last) (s := ⟨2, 0, t, os⟩) rfl rfl
    (Nat.zero_add last) (l ++ tallyAll f ((fields 0).starts ++
      note .void (cb.offsets.map fun f => f t os))) inp
  unfold scanTable
  refine Res.Scanned.prepend (hr.of_eq ?_)
  have hdrop := fieldScans_drop fields ⟨2, 0, t, os⟩ (Nat.succ_pos last)
  rw [List.drop_zero, if_pos rfl] at hdrop
  have hscans : fieldScans fields ⟨2, 0, t, os⟩ =
    fieldScans fields { totalSize := t, offsets := os } := fieldScans_congr rfl rfl
  rw [hscans] at hdrop
  exact congrFun (congrArg scanFields hdrop.symm) inp

variable (cb size) in
theorem table_offsets (n : ℕ) {k i t : ℕ} (os : List ℕ) (h1 : k = 1) (hn : i + n = last)
    (l : List N) (inp : List UInt8) :
    (runAll (tableRank (last + 1))
      (tableStage (Handler.tally ε f) cb (tableParts (Handler.tally ε f) fields) size)
      (.node ⟨k, i, t, os⟩ (.leaf [])) inp l).Scanned f l ((scanNums (n + 1) inp).bind fun x =>
        scanTable cb fields t (os ++ x.1) x.2) := by
  have hstage : tableStage (Handler.tally ε f) cb (tableParts (Handler.tally ε f) fields) size
      ⟨k, i, t, os⟩ = _ :=
    tableParts_offset h1
  induction n generalizing k i os l inp with
  | zero =>
    have hr := runAll_num l inp (tableParts_ranked size) hstage
      (o := fun x => scanTable cb fields t (os ++ [x.1]) x.2)
      fun st rest => by
        rw [if_neg (by omega), Next.resume]
        have he := table_entered cb size hfields l t (os ++ [st.num]) rest
        rw [fire_tally, start_tally]
        rwa [tallyAll_append, ← List.append_assoc] at he
    refine hr.of_eq ?_
    simp only [scanNums]
    cases scanNum inp <;> rfl
  | succ n ih =>
    have hr := runAll_num l inp (tableParts_ranked size) hstage
      (o := fun x => (scanNums (n + 1) x.2).bind fun y =>
        scanTable cb fields t (os ++ [x.1] ++ y.1) y.2) fun st rest => by
        rw [if_pos (by omega), Next.resume]
        exact ih _ rfl (by omega) l rest (tableParts_offset rfl)
    refine hr.of_eq ?_
    rw [scanNums]
    cases scanNum inp with
    | none => rfl
    | some x =>
      simp only [Option.bind_eq_bind, Option.bind_some]
      cases scanNums (n + 1) x.2 with
      | none => rfl
      | some y => simp

theorem table_scanned (l : List N) (inp : List UInt8) :
    ((Reader.table cb last fields).parse (Handler.tally ε f) (Reader.table cb last fields).initState
      size inp l).Scanned f l ((Reader.table cb last fields).scan size inp) := by
  rw [Reader.parse_table, parseStages, Reader.scan]
  refine leave_scanned
    (runAll_num _ _ (tableParts_ranked size) (tableStage_size rfl) fun st rest => ?_)
  dsimp only
  split
  · simp [Res.Scanned, Next.resume]
  · rw [Next.resume]
    have hr := table_offsets cb size hfields last (i := 0) (t := st.num) [] rfl
      (Nat.zero_add last) l rest
    simpa only [scanTable, fieldScans, List.nil_append] using hr

end Table
end Parts

/-- The parser, given a part from its beginning, makes the calls that the scanner lists. -/
theorem Reader.parse_scanned {r : Reader E} (hr : r.Blind (Handler.tally ε f)) (size : ℕ)
    (inp : List UInt8) (l : List N) :
    (r.parse (Handler.tally ε f) r.initState size inp l).Scanned f l (r.scan size inp) := by
  induction r generalizing size inp l with
  | byte done =>
    unfold Reader.scan Reader.parse parseByte
    split
    · exact nofun
    · cases inp with
      | nil => exact nofun
      | cons b rest => exact ⟨_, by simp; rfl⟩
  | array width done =>
    unfold Reader.scan Reader.parse molParseBytes
    dsimp only [Reader.initState]
    by_cases hle : width ≤ inp.length
    · rw [if_pos hle, if_pos (by simpa using hle)]
      exact ⟨.leaf (inp.take width), by simp⟩
    · rw [if_neg hle, if_neg (by simpa using hle)]
      exact nofun
  | bytes cb => exact bytes_scanned hr l inp
  | option cb item ih => exact option_scanned (ih hr) l inp
  | fixVec cb width item ih => exact fixVec_scanned (ih hr) width l inp
  | dynVec cb item ih => exact dynVec_scanned (ih hr) l inp
  | struct cb w₁ w₂ fst snd ih₁ ih₂ =>
    exact struct_scanned (ih₁ hr.1 w₁) (ih₂ hr.2 w₂) l inp
  | table cb last fields ih => exact table_scanned (fun i => ih i (hr i)) l inp

/-- The events of a reader, with what holds of each. -/
abbrev Handler.holding (P : E → Prop) : Handler E (List Prop) Empty := .tally Empty fun _ e => [P e]

theorem Reader.Every.blind {P : E → Prop} {r : Reader E} (hr : r.Every P) :
    r.Blind (Handler.holding P) := by
  induction r with
  | byte done => exact trivial
  | array width done => exact trivial
  | bytes cb =>
    intro c hc a x y l
    have hx : P (c a x) = P (c a y) :=
      propext ⟨fun _ => hr.bodyChunk c hc a y, fun _ => hr.bodyChunk c hc a x⟩
    rw [run_tally, run_tally, hx]
  | option cb item ih => exact ih hr.2
  | fixVec cb width item ih => exact ih hr.2
  | dynVec cb item ih => exact ih hr.2
  | struct cb w₁ w₂ fst snd ih₁ ih₂ => exact ⟨ih₁ hr.2.1, ih₂ hr.2.2⟩
  | table cb last fields ih => exact fun i => ih i (hr.2 i)

theorem Handler.holding_keepsAt {P : E → Prop} {e : E} (he : P e) :
    KeepsAt (Handler.holding P) (fun l => ∀ p ∈ l, p) e := by
  have happend : ∀ {l : List Prop}, (∀ p ∈ l, p) → ∀ p ∈ l ++ [P e], p := by
    intro l hl p hp
    rcases List.mem_append.mp hp with hp | hp
    · exact hl p hp
    · rwa [List.mem_singleton.mp hp]
  exact ⟨happend, happend, happend⟩

/-- What holds of every event of a reader holds of the calls that the scanner lists. -/
theorem Reader.Every.of_scan {P : E → Prop} {r : Reader E} (hr : r.Every P) {size : ℕ}
    {inp rest : List UInt8} {es : List (Note E)} (h : r.scan size inp = some (es, rest)) :
    ∀ n ∈ es, P n.2 := by
  have hs := r.parse_scanned hr.blind size inp []
  have hk := Reader.parse_keeps (hr.mono fun _ => Handler.holding_keepsAt) r.initState size inp
    (g := []) (by simp)
  rw [h] at hs
  obtain ⟨st, hst⟩ := hs
  rw [hst] at hk
  intro n hn
  exact hk (P n.2) (List.mem_flatMap.mpr ⟨n, hn, List.mem_singleton_self _⟩)

end Tally
end NervosLedger.Molecule
