import NervosLedger.Molecule.Encoding
import NervosLedger.Molecule.Once
import NervosLedger.Molecule.Resuming

/-!
# Where a part is read

Behind the header of a table or a vector, and the parts before it, a part is read as by its own
reader. So it is known which bytes of the input are those of a body, and how many of them were
handed over after some calls.
-/
namespace NervosLedger.Molecule
variable {E σ ε : Type} {h : Handler E σ ε}

/-! ### Calls as notes -/

theorem fire_replay (o : Option E) (g : σ) : h.fire o g = h.replay (note .void o) g := by
  cases o <;> rfl

theorem Obliging.allow_replay (ho : Obliging h) (o : Option E) (g : σ) :
    h.allow o g = (h.replay (note .size o) g, true) := by
  cases o with
  | none => rfl
  | some e => exact Prod.ext rfl (ho.ask e g)

theorem Reader.start_replay (r : Reader E) (g : σ) : r.start h g = h.replay r.starts g := by
  induction r generalizing g with
  | byte done => rfl
  | array width done => rfl
  | bytes cb => exact fire_replay _ g
  | option cb item ih => rw [Reader.start, ih, fire_replay, Reader.starts, Handler.replay_append]
  | fixVec cb width item ih => exact fire_replay _ g
  | dynVec cb item ih => exact fire_replay _ g
  | struct cb w₁ w₂ fst snd ih₁ ih₂ =>
    rw [Reader.start, ih₁, fire_replay, Reader.starts, Handler.replay_append]
  | table cb last fields ih => exact fire_replay _ g

/-! ### Going on in a part -/

section Keeps
variable {P : σ → Prop} (hP : ∀ e, KeepsAt h P e) {rank : Frame → ℕ}
  {stage : Frame → Option (Stage σ ε)}
include hP

theorem Reader.part_keeps (r : Reader E) :
    (r.part h).Agrees (fun g₁ g₂ => g₁ = g₂ ∧ P g₁) (r.part h) :=
  r.part_agrees (r.every_of_forall fun e => (hP e).same)

omit hP in
theorem Ranked.runAll_keeps (hrank : Ranked rank stage)
    (hstage : ∀ s, Option.Rel (Stage.Agrees fun g₁ g₂ => g₁ = g₂ ∧ P g₁) (stage s) (stage s))
    {s : Frame} {p : Stage σ ε} (hs : stage s = some p) {u : ReaderState} {inp : List UInt8} {g : σ}
    (hg : P (p.parse u inp g).g) : P (runAll rank stage (.node s u) inp g).g := by
  have hp : p.Agrees (fun g₁ g₂ => g₁ = g₂ ∧ P g₁) p := by
    have hrel := hstage s
    rw [hs] at hrel
    cases hrel
    assumption
  rw [hrank.runAll_some (show stage (ReaderState.node s u).frame = some p from hs)]
  simp only [ReaderState.u_node]
  generalize p.parse u inp g = r at hg ⊢
  obtain ⟨rv, st, rest, g', d⟩ := r
  cases rv with
  | complete =>
    have hnext := hp.next st ⟨rfl, hg⟩
    dsimp only at hnext ⊢
    generalize p.next st g' = n at hnext ⊢
    cases hnext with
    | @go s' u' g₁ _ hn =>
      have hrun := runStages_agrees hstage (rank s') s' u' rest hn
      dsimp only [runAll, ReaderState.frame_node, ReaderState.u_node]
      generalize runStages stage (rank s') s' u' rest g₁ = x at hrun ⊢
      obtain ⟨hx⟩ := hrun
      exact hx.2
    | accept hn => exact hn.2
    | refuse hn => exact hn.2
  | incomplete => exact hg
  | reject => exact hg
  | throw e => exact hg

end Keeps

namespace Reader

/-- Behind `pre`, for which the calls `es` are made, `r` reads `item`. -/
structure Enters (h : Handler E σ ε) (r : Reader E) (size : ℕ) (pre : List UInt8)
    (es : List (Note E)) (item : Reader E) (itemSize : ℕ) : Prop where
  incomplete : ∀ {inp g st g'}, item.parse h item.initState itemSize inp (h.replay es g) =
    ⟨.incomplete, st, [], g', false⟩ →
      ∃ st', r.parse h r.initState size (pre ++ inp) g = ⟨.incomplete, st', [], g', false⟩
  keeps : ∀ {P : σ → Prop}, (∀ e, KeepsAt h P e) → ∀ {inp g},
    P (item.parse h item.initState itemSize inp (h.replay es g)).g →
      P (r.parse h r.initState size (pre ++ inp) g).g

theorem Enters.self (r : Reader E) (size : ℕ) : r.Enters h size [] [] r size where
  incomplete hp := ⟨_, hp⟩
  keeps _ _ _ hp := hp

/-- A part of a parser, where it is entered, is read as the part itself. -/
theorem enters_of_run {cb : Callbacks E} (hchunk : cb.chunk = none) {rank : Frame → ℕ}
    {stage : Frame → Option (Stage σ ε)} (hrank : Ranked rank stage)
    (hstage : ∀ {P : σ → Prop}, (∀ e, KeepsAt h P e) → ∀ s,
      Option.Rel (Stage.Agrees fun g₁ g₂ => g₁ = g₂ ∧ P g₁) (stage s) (stage s))
    {r part item : Reader E} {size partSize itemSize : ℕ} (before : List UInt8) {pre : List UInt8}
    (es : List (Note E)) {es' : List (Note E)} {s : Frame} {next : ReaderState → σ → Next σ}
    (hparse : ∀ inp g, r.parse h r.initState size (before ++ inp) g = leave h cb (before ++ inp)
      (runAll rank stage (.node s part.initState) inp (h.replay es g)))
    (hs : stage s = some ⟨fun u => part.parse h u partSize, next⟩)
    (hpart : part.Enters h partSize pre es' item itemSize) :
    r.Enters h size (before ++ pre) (es ++ es') item itemSize where
  incomplete {inp g st g'} hp := by
    rw [Handler.replay_append] at hp
    obtain ⟨st', hpart⟩ := hpart.incomplete hp
    rw [List.append_assoc, hparse, hrank.runAll_some
      (show stage (ReaderState.node s part.initState).frame = _ from hs)]
    simp only [ReaderState.u_node, hpart]
    exact ⟨_, by simp [leave, hchunk]; rfl⟩
  keeps {P} hP {inp g} hp := by
    rw [Handler.replay_append] at hp
    rw [List.append_assoc, hparse]
    exact leave_keeps (Callbacks.every_of_forall hP cb) _
      (hrank.runAll_keeps (hstage hP) hs (hpart.keeps hP hp))

theorem Enters.option {cb : Callbacks E} (hchunk : cb.chunk = none) {part item : Reader E}
    {size itemSize : ℕ} (hsize : size ≠ 0) {pre : List UInt8} {es : List (Note E)}
    (hpart : part.Enters h size pre es item itemSize) :
    (Reader.option cb part).Enters h size pre es item itemSize :=
  enters_of_run hchunk (optionStage_ranked _ size)
    (fun hP => optionStage_agrees (part_keeps hP part) size) [] [] (s := {}) (fun _ _ => rfl)
    (if_neg hsize) hpart

end Reader

/-! ### Headers -/

/-- The header of a table or a dynamic vector. -/
def partsHeader (parts : List (List UInt8)) : List UInt8 :=
  le32 (headerSize parts.length + parts.flatten.length) ++
    (offsetsFrom (headerSize parts.length) parts).flatMap le32

theorem encodeParts_eq (parts : List (List UInt8)) :
    encodeParts parts = partsHeader parts ++ parts.flatten := rfl

@[simp] theorem length_partsHeader (parts : List (List UInt8)) :
    (partsHeader parts).length = headerSize parts.length := by
  rw [partsHeader, List.length_append, length_le32, length_flatMap_le32, length_offsetsFrom,
    headerSize]
  omega

theorem num_le32 {n : ℕ} (hn : n < 2 ^ 32) : (ReaderState.leaf (le32 n)).num = n := by
  rw [ReaderState.num, ReaderState.buf_leaf, List.take_of_length_le (length_le32 n).le, leNat_le32 hn]

section Numbers
variable {rank : Frame → ℕ} {stage : Frame → Option (Stage σ ε)}

/-- The stage of a number. -/
theorem runAll_le32 (hrank : Ranked rank stage) {s : Frame} {next : ReaderState → σ → Next σ}
    (hs : stage s = some ⟨molParseNum h, next⟩) (n : ℕ) (inp : List UInt8) (g : σ) :
    runAll rank stage (.node s (.leaf [])) (le32 n ++ inp) g =
      (next (.leaf (le32 n)) g).resume rank stage inp := by
  have hnum : molParseBytes h 4 none (.leaf []) 4 (le32 n ++ inp) g =
      ⟨.complete, .leaf (le32 n), inp, g, false⟩ :=
    molParseBytes_append h none (length_le32 n) 4 inp g
  exact runAll_complete hrank hs hnum

end Numbers

section DynVec
variable (cb : Callbacks E) (item : Reader E) (size : ℕ)

theorem resume_dynVecItems (s : Frame) {rank : Frame → ℕ} {stage : Frame → Option (Stage σ ε)}
    (inp : List UInt8) (g : σ) :
    (dynVecItems h cb (item.part h) s g).resume rank stage inp =
      runAll rank stage (.node { s with fieldIdx := 0, stateNum := 3 } item.initState) inp
        (h.replay (Reader.firstItem cb item s.items) g) := by
  simp only [dynVecItems, Next.resume, Reader.part, Reader.start_replay, fire_replay,
    Reader.firstItem, Handler.replay_append]

/-- The offsets after the first one. -/
theorem dynVec_offsets {ns : List ℕ} (hne : ns ≠ []) {s : Frame} (h2 : s.stateNum = 2)
    (hn : s.fieldIdx + ns.length = s.items) (inp : List UInt8) (g : σ) :
    runAll dynVecRank (dynVecStage h cb (item.part h) size) (.node s (.leaf []))
        (ns.flatMap le32 ++ inp) g =
      runAll dynVecRank (dynVecStage h cb (item.part h) size)
        (.node { s with fieldIdx := 0, stateNum := 3 } item.initState) inp
        (h.replay (Reader.firstItem cb item s.items) g) := by
  induction ns generalizing s g with
  | nil => exact absurd rfl hne
  | cons n ns ih =>
    rw [List.length_cons] at hn
    rw [List.flatMap_cons, List.append_assoc, runAll_le32 (dynVecStage_ranked cb _ size)
      (dynVecStage_num h2)]
    cases ns with
    | nil =>
      rw [List.length_nil] at hn
      rw [if_neg (by omega), resume_dynVecItems]
      rfl
    | cons m ns =>
      have hnext := ih (by simp) (s := { s with fieldIdx := s.fieldIdx + 1 }) h2
        (by rw [s.items_fieldIdx]; dsimp only; omega) g
      rw [s.items_fieldIdx] at hnext
      rw [List.length_cons] at hn
      rw [if_pos (by omega), Next.resume]
      exact hnext

/-- The header of a vector that has a part. -/
theorem dynVec_header (ho : Obliging h) {part : List UInt8} {parts : List (List UInt8)}
    (hlt : (encodeParts (part :: parts)).length < 2 ^ 32)
    (hsize : size = molNumMax ∨ size = (encodeParts (part :: parts)).length) (inp : List UInt8)
    (g : σ) :
    runAll dynVecRank (dynVecStage h cb (item.part h) size) .zero
        (partsHeader (part :: parts) ++ inp) g =
      runAll dynVecRank (dynVecStage h cb (item.part h) size)
        (.node ⟨3, 0, (encodeParts (part :: parts)).length, [headerSize (parts.length + 1)]⟩
          item.initState) inp
        (h.replay (note .size (cb.size.map fun f => f (encodeParts (part :: parts)).length) ++
          Reader.firstItem cb item (parts.length + 1)) g) := by
  have hlen := length_encodeParts (part :: parts)
  have hhead := length_header hlt
  rw [List.length_cons] at hlen hhead
  have hrank := dynVecStage_ranked (h := h) cb (item.part h) size
  have hitems := items_of_header hhead
  have hne : (encodeParts (part :: parts)).length ≠ 4 := by
    rw [hlen, headerSize]
    omega
  rw [partsHeader, ← length_encodeParts, offsetsFrom, List.flatMap_cons]
  simp only [List.append_assoc, List.length_cons]
  generalize (encodeParts (part :: parts)).length = t at hlt hsize hlen hne ⊢
  change runAll _ _ (.node ⟨0, 0, 0, []⟩ (.leaf [])) _ _ = _
  rw [runAll_le32 hrank (dynVecStage_size rfl), ho.allow_replay, Next.allowed, num_le32 hlt,
    if_neg hne, if_neg (by omega), Next.resume, runAll_le32 hrank (dynVecStage_first rfl),
    num_le32 hhead, hitems, Handler.replay_append]
  cases parts with
  | nil =>
    have hi : Frame.items ⟨2, 1, t, [headerSize (0 + 1)]⟩ = 0 + 1 := hitems
    rw [List.length_nil, if_neg (by omega), resume_dynVecItems, hi]
    rfl
  | cons q qs =>
    have hi : Frame.items ⟨2, 1, t, [headerSize (qs.length + 1 + 1)]⟩ = qs.length + 1 + 1 := hitems
    rw [List.length_cons, if_pos (by omega), Next.resume, dynVec_offsets cb item size
      (by simp [offsetsFrom]) rfl (by simp only [length_offsetsFrom, hi, List.length_cons]; omega), hi]

end DynVec

theorem Reader.Enters.dynVec {cb : Callbacks E} (hchunk : cb.chunk = none) (ho : Obliging h)
    {part item : Reader E} {size itemSize : ℕ} {first : List UInt8} {parts : List (List UInt8)}
    (hlt : (encodeParts (first :: parts)).length < 2 ^ 32)
    (hsize : size = molNumMax ∨ size = (encodeParts (first :: parts)).length) {pre : List UInt8}
    {es : List (Note E)} (hpart : part.Enters h molNumMax pre es item itemSize) :
    (Reader.dynVec cb part).Enters h size (partsHeader (first :: parts) ++ pre)
      (note .size (cb.size.map fun f => f (encodeParts (first :: parts)).length) ++
        Reader.firstItem cb part (parts.length + 1) ++ es) item itemSize := by
  have hitems := items_of_header (length_header hlt)
  rw [List.length_cons] at hitems
  refine Reader.enters_of_run hchunk (dynVecStage_ranked cb (part.part h) size) (fun hP =>
    dynVecStage_agrees (Callbacks.every_of_forall (fun e => (hP e).same) cb)
      (Reader.part_keeps hP part) size) _ _ (fun inp g => ?_)
    (dynVecStage_item (s := ⟨3, 0, (encodeParts (first :: parts)).length,
      [headerSize (parts.length + 1)]⟩) rfl ?_) hpart
  · rw [Reader.parse_dynVec, parseStages]
    exact congrArg (leave h cb _) (dynVec_header cb part size ho hlt hsize inp g)
  · exact (Nat.succ_pos parts.length).trans_eq hitems.symm

section Table
variable (cb : Callbacks E) {last : ℕ} (fields : Fin (last + 1) → Reader E) (size : ℕ)

/-- The offsets of a table, or the last ones of them. -/
theorem table_numbers {ns : List ℕ} (hne : ns ≠ []) (hns : ∀ n ∈ ns, n < 2 ^ 32) {i t : ℕ}
    {os : List ℕ} (hn : i + ns.length = last + 1) (inp : List UInt8) (g : σ) :
    runAll (tableRank (last + 1)) (tableStage h cb (tableParts h fields) size)
        (.node ⟨1, i, t, os⟩ (.leaf [])) (ns.flatMap le32 ++ inp) g =
      runAll (tableRank (last + 1)) (tableStage h cb (tableParts h fields) size)
        (.node ⟨2, 0, t, os ++ ns⟩ (fields 0).initState) inp
        (h.replay ((fields 0).starts ++ note .void (cb.offsets.map fun f => f t (os ++ ns))) g) := by
  induction ns generalizing i os g with
  | nil => exact absurd rfl hne
  | cons n ns ih =>
    rw [List.length_cons] at hn
    rw [List.flatMap_cons, List.append_assoc, runAll_le32 (tableParts_ranked size)
      (tableParts_offset rfl), num_le32 (hns n List.mem_cons_self)]
    cases ns with
    | nil =>
      rw [List.length_nil] at hn
      rw [if_neg (by omega), Next.resume, Reader.start_replay, fire_replay, Handler.replay_append]
      rfl
    | cons m ns =>
      have hnext := @ih (by simp) (fun k hk => hns k (List.mem_cons_of_mem n hk)) (i + 1) (os ++ [n])
        (by omega) g
      rw [List.length_cons] at hn
      rw [if_pos (by omega), Next.resume, hnext, List.append_assoc, List.singleton_append]

/-- The header of a table. -/
theorem table_header {parts : List (List UInt8)} (hcount : parts.length = last + 1)
    (hlt : (encodeParts parts).length < 2 ^ 32)
    (hsize : size = molNumMax ∨ size = (encodeParts parts).length) (inp : List UInt8) (g : σ) :
    runAll (tableRank (last + 1)) (tableStage h cb (tableParts h fields) size) .zero
        (partsHeader parts ++ inp) g =
      runAll (tableRank (last + 1)) (tableStage h cb (tableParts h fields) size)
        (.node ⟨2, 0, (encodeParts parts).length, offsetsFrom (headerSize parts.length) parts⟩
          (fields 0).initState) inp
        (h.replay ((fields 0).starts ++ note .void (cb.offsets.map fun f =>
          f (encodeParts parts).length (offsetsFrom (headerSize parts.length) parts))) g) := by
  have hoffsets := length_offsetsFrom (headerSize parts.length) parts
  have hns := fun n hn => offset_lt hlt (n := n) hn
  rw [partsHeader, ← length_encodeParts, List.append_assoc]
  generalize offsetsFrom (headerSize parts.length) parts = ns at hoffsets hns ⊢
  generalize (encodeParts parts).length = t at hlt hsize ⊢
  change runAll _ _ (.node ⟨0, 0, 0, []⟩ (.leaf [])) _ _ = _
  rw [runAll_le32 (tableParts_ranked size) (tableStage_size rfl), num_le32 hlt, if_neg (by omega),
    Next.resume, table_numbers cb fields size (List.ne_nil_of_length_pos (by omega)) hns (by omega),
    List.nil_append]

variable {cb fields size} (encoded : Fin (last + 1) → List UInt8)
  (notes : Fin (last + 1) → List (Note E))

variable (fields) in
/-- The calls for the fields before field `k`. -/
def fieldNotes (k : ℕ) : List (Note E) :=
  ((List.ofFn fun i => (if i.val = 0 then [] else (fields i).starts) ++ notes i).take k).flatten ++
    if h : 0 < k ∧ k < last + 1 then (fields ⟨k, h.2⟩).starts else []

theorem fieldNotes_zero : fieldNotes fields notes 0 = [] := by simp [fieldNotes]

theorem fieldNotes_succ {k : ℕ} (hk : k + 1 < last + 1) : fieldNotes fields notes (k + 1) =
    fieldNotes fields notes k ++ (notes ⟨k, by omega⟩ ++ (fields ⟨k + 1, hk⟩).starts) := by
  have hk' : k < (List.ofFn fun i : Fin (last + 1) =>
      (if i.val = 0 then [] else (fields i).starts) ++ notes i).length := by
    rw [List.length_ofFn]
    omega
  rw [fieldNotes, fieldNotes, List.take_succ_eq_append_getElem hk', List.getElem_ofFn,
    dif_pos ⟨Nat.succ_pos k, hk⟩, List.flatten_append, List.flatten_singleton]
  rcases Nat.eq_zero_or_pos k with rfl | hpos
  · simp
  · rw [dif_pos ⟨hpos, by omega⟩, if_neg (by dsimp only; omega)]
    simp only [List.append_assoc]

/-- The fields before field `k`. -/
theorem table_fields_before (ho : Obliging h) {t : ℕ} {os : List ℕ} {k : ℕ} (hk : k < last + 1)
    (hreads : ∀ i, i.val < k → (fields i).Blind h ∧
      (fields i).Reads (Frame.fieldSize { totalSize := t, offsets := os } i) (encoded i) (notes i))
    (inp : List UInt8) (g : σ) :
    runAll (tableRank (last + 1)) (tableStage h cb (tableParts h fields) size)
        (.node ⟨2, 0, t, os⟩ (fields 0).initState) (((List.ofFn encoded).take k).flatten ++ inp) g =
      runAll (tableRank (last + 1)) (tableStage h cb (tableParts h fields) size)
        (.node ⟨2, k, t, os⟩ (fields ⟨k, hk⟩).initState) inp
        (h.replay (fieldNotes fields notes k) g) := by
  induction k generalizing inp with
  | zero =>
    rw [fieldNotes_zero]
    rfl
  | succ k ih =>
    have hk' : k < (List.ofFn encoded).length := by
      rw [List.length_ofFn]
      omega
    obtain ⟨hblind, hread⟩ := hreads ⟨k, by omega⟩ (Nat.lt_succ_self k)
    rw [List.take_succ_eq_append_getElem hk', List.flatten_append, List.flatten_singleton,
      List.getElem_ofFn, List.append_assoc, ih (by omega) fun i hi => hreads i (by omega)]
    obtain ⟨st, hparse⟩ := Reader.parse_scan hblind ho (hread inp)
      (h.replay (fieldNotes fields notes k) g)
    have hpart : (tableParts h fields)[k]? = some ((fields ⟨k, by omega⟩).part h) :=
      tableParts_get (by omega)
    rw [runAll_complete (tableParts_ranked size)
      (tableStage_field (s := ⟨2, k, t, os⟩) cb size rfl hpart) hparse, tableParts_get hk]
    simp only [tableNext, Next.resume, Reader.part, Reader.start_replay, fieldNotes_succ notes hk,
      Handler.replay_append]

theorem Reader.Enters.table (hchunk : cb.chunk = none) (ho : Obliging h)
    (hlt : (encodeParts (List.ofFn encoded)).length < 2 ^ 32)
    (hsize : size = molNumMax ∨ size = (encodeParts (List.ofFn encoded)).length)
    (i : Fin (last + 1)) (hreads : ∀ j < i, (fields j).Blind h ∧
      (fields j).Reads (encoded j).length (encoded j) (notes j)) {item : Reader E} {itemSize : ℕ}
    {pre : List UInt8} {es : List (Note E)}
    (hfield : (fields i).Enters h (encoded i).length pre es item itemSize) :
    (Reader.table cb last fields).Enters h size
      (partsHeader (List.ofFn encoded) ++ ((List.ofFn encoded).take i).flatten ++ pre)
      ((fields 0).starts ++ note .void (cb.offsets.map fun f =>
        f (encodeParts (List.ofFn encoded)).length (offsetsFrom (headerSize (last + 1))
          (List.ofFn encoded))) ++ fieldNotes fields notes i ++ es) item itemSize := by
  have hpart : (tableParts h fields)[i.val]? = some ((fields i).part h) := tableParts_get i.isLt
  have hstage := tableStage_field (h := h) (s := ⟨2, i, (encodeParts (List.ofFn encoded)).length,
    offsetsFrom (headerSize (last + 1)) (List.ofFn encoded)⟩) cb size rfl hpart
  refine enters_of_run hchunk (tableParts_ranked size) (fun hP => tableStage_agrees
    (Callbacks.every_of_forall (fun e => (hP e).same) cb) ?_ size) _ _ (fun inp g => ?_) hstage
    ((Reader.fieldSize_ofFn hlt i).symm ▸ hfield)
  · rw [List.forall₂_same]
    intro p hp
    obtain ⟨j, rfl⟩ := List.mem_ofFn.mp hp
    exact Reader.part_keeps hP (fields j)
  · rw [Reader.parse_table, parseStages]
    refine congrArg (leave h cb _) ?_
    have hheader := table_header (h := h) cb fields size (List.length_ofFn) hlt hsize
      (((List.ofFn encoded).take i).flatten ++ inp) g
    rw [List.length_ofFn] at hheader
    rw [List.append_assoc]
    refine hheader.trans ?_
    rw [table_fields_before encoded notes ho i.isLt fun j hj => ?_, Handler.replay_append _ (_ ++ _)]
    rw [Reader.fieldSize_ofFn hlt]
    exact hreads j hj

end Table

/-! ### How much of a body was handed over -/

section Counts

/-- Nothing takes back what was handed over: `past m` says that this were `m` bytes at least. -/
structure Counts (h : Handler E σ ε) (past : ℕ → σ → Prop) : Prop where
  zero : ∀ g, past 0 g
  le : ∀ {m n g}, m ≤ n → past n g → past m g
  keeps : ∀ m e, KeepsAt h (past m) e

theorem replay_keeps {P : σ → Prop} (hP : ∀ e, KeepsAt h P e) (es : List (Note E)) {g : σ}
    (hg : P g) : P (h.replay es g) := by
  induction es generalizing g with
  | nil => exact hg
  | cons n es ih =>
    obtain ⟨s, e⟩ := n
    rw [Handler.replay_cons]
    cases s with
    | void => exact ih ((hP e).run hg)
    | size => exact ih ((hP e).ask hg)
    | close => exact ih ((hP e).finish hg)

namespace Reader

/-- The body of a byte string, of which not all has come. -/
theorem parse_bytes_short (ho : Obliging h) (cb : Callbacks E) {size n : ℕ} (hn : n + 4 < 2 ^ 32)
    (hsize : size = molNumMax ∨ size = n + 4) {bs : List UInt8} (hlt : bs.length < n) (g : σ) :
    ∃ st, (Reader.bytes cb).parse h (Reader.bytes cb).initState size (le32 n ++ bs) g =
      ⟨.incomplete, st, [], h.replay (note .size (cb.size.map fun f => f (n + 4)) ++
        note .void (cb.bodyChunk.map fun f => f bs [])) g, false⟩ := by
  have hnum : molParseNum h (.leaf []) (le32 n ++ bs) g = ⟨.complete, .leaf (le32 n), bs, g, false⟩ :=
    molParseBytes_append h none (length_le32 n) 4 bs g
  have hz : (ReaderState.frame .zero).stateNum = 0 := rfl
  have hu : ReaderState.u .zero = .leaf [] := rfl
  change ∃ st, parseBytes h cb .zero size (le32 n ++ bs) g = _
  unfold parseBytes
  dsimp only
  rw [if_pos hz, hu, hnum]
  dsimp only
  rw [num_le32 (by omega), if_neg (by omega), ho.allow_replay]
  dsimp only
  rw [parseBody_of_lt _ (by dsimp only; omega), fire_replay, Handler.replay_append]
  exact ⟨_, rfl⟩

variable {r : Reader E} (hr : r.Collecting h) {size : ℕ}
include hr

/-- What the events keep, a longer input keeps. -/
theorem parse_longer {P : σ → Prop} (hP : ∀ e, KeepsAt h P e) {st : ReaderState} {a b : List UInt8}
    {g : σ} (hl : (r.parse h st size (a ++ b) g).Live) (hg : P (r.parse h st size a g).g) :
    P (r.parse h st size (a ++ b) g).g := by
  have hs := parse_splits hr.fluid size
  have hfirst := (parse_resumes hr size).first hl
  have hd := hs.direct st a g hfirst
  rcases hx : r.parse h st size a g with ⟨rv, st₁, rest, g₁, d⟩
  rw [hx] at hd hfirst hg
  obtain rfl : d = false := hd
  rcases hfirst with hrv | hrv
  · obtain rfl : rv = .complete := hrv
    rw [hs.complete b hx]
    exact hg
  · obtain rfl : rv = .incomplete := hrv
    rw [(hs.incomplete hx).2 b ((parse_resumes hr size).second hx hl)]
    exact parse_keeps (r.every_of_forall hP) st₁ size b hg

variable (ho : Obliging h) {past : ℕ → σ → Prop} (hc : Counts h past) {cb : Callbacks E}
  {itemSize : ℕ} {pre : List UInt8} {es : List (Note E)}
  (hblind : (Reader.bytes cb).Blind h) (hE : r.Enters h size pre es (.bytes cb) itemSize)
  {w post : List UInt8}
  (hw : w.length + 4 < 2 ^ 32) (hsize : itemSize = molNumMax ∨ itemSize = w.length + 4) {g : σ}
  (hbody : ∀ bs m, past m (h.replay (es ++ (note .size (cb.size.map fun f => f (w.length + 4)) ++
    note .void (cb.bodyChunk.map fun f => f bs []))) g) ↔ m ≤ bs.length)
include ho hc hblind hE hw hsize hbody

omit hr hc hblind in
/-- What was handed over of a body when the input ends in it. -/
theorem counted_within {bs : List UInt8} (hlt : bs.length < w.length) (m : ℕ) :
    past m (r.parse h r.initState size (pre ++ (le32 w.length ++ bs)) g).g ↔ m ≤ bs.length := by
  obtain ⟨st, hshort⟩ := parse_bytes_short ho cb hw hsize hlt (h.replay es g)
  obtain ⟨st', hparse⟩ := hE.incomplete hshort
  rw [hparse, ← Handler.replay_append]
  exact hbody bs m

omit hr in
/-- When the input goes on behind a body, it was handed over. -/
theorem counted_behind (rest : List UInt8) :
    past w.length (r.parse h r.initState size (pre ++ (encodeBytes w ++ rest)) g).g := by
  refine hE.keeps (hc.keeps _) ?_
  have hreads : (Reader.bytes cb).Reads itemSize _ _ := Reads.bytes cb hw hsize
  obtain ⟨st, hparse⟩ := parse_scan hblind ho (hreads rest) (h.replay es g)
  rw [hparse, bodyNotes]
  split_ifs with hnil
  · rw [hnil]
    exact hc.zero _
  · have hpast := (hbody w w.length).mpr le_rfl
    rw [Handler.replay_append] at hpast
    rw [Handler.replay_append]
    exact replay_keeps (hc.keeps _) _ hpast

/-- What was handed over of a body follows from how many bytes have come. -/
theorem counted {st' : ReaderState} {g' : σ}
    (hwhole : r.parse h r.initState size (pre ++ (encodeBytes w ++ post)) g =
      ⟨.complete, st', [], g', false⟩) (hend : ∀ m, past m g' → m ≤ w.length)
    {a b : List UInt8} (hab : a ++ b = pre ++ (encodeBytes w ++ post)) (m : ℕ) :
    past m (r.parse h r.initState size a g).g ↔ m ≤ min w.length (a.length - (pre.length + 4)) := by
  have hlive : ∀ c, c <+: a ++ b → (r.parse h r.initState size c g).Live := by
    rintro c ⟨d, hcd⟩
    refine (parse_resumes hr size).first (b := d) ?_
    rw [hcd, hab, hwhole]
    exact .inl rfl
  have hlonger : ∀ c, a <+: c → c <+: a ++ b → past m (r.parse h r.initState size a g).g →
      past m (r.parse h r.initState size c g).g := by
    rintro _ ⟨d, rfl⟩ hcd
    exact parse_longer hr (hc.keeps m) (hlive _ hcd)
  have hle : past m (r.parse h r.initState size a g).g → m ≤ w.length := by
    intro hm
    have hall := hlonger (a ++ b) (List.prefix_append a b) (List.prefix_refl _) hm
    rw [hab, hwhole] at hall
    exact hend m hall
  have hstart : pre ++ (encodeBytes w ++ post) = (pre ++ le32 w.length) ++ (w ++ post) := by
    simp [encodeBytes]
  have hlen : (pre ++ le32 w.length).length = pre.length + 4 := by simp
  rw [hstart] at hab
  rcases Nat.eq_zero_or_pos w.length with h0 | hpos
  · rw [h0, Nat.zero_min, ← h0]
    refine ⟨hle, fun hm => ?_⟩
    obtain rfl : m = 0 := by omega
    exact hc.zero _
  rcases Nat.lt_or_ge a.length (pre.length + 4) with hlt | hge
  · -- the body has not begun: up to there nothing was handed over
    have hpre : a <+: pre ++ le32 w.length := by
      refine List.prefix_of_prefix_length_le (List.prefix_append a b) ?_ (by omega)
      rw [hab]
      exact List.prefix_append _ _
    have hcount := @counted_within _ _ _ _ _ _ ho _ _ _ _ _ hE _ hw hsize _ hbody [] hpos m
    rw [List.append_nil, List.length_nil] at hcount
    have hzero : min w.length (a.length - (pre.length + 4)) = 0 := by omega
    rw [hzero]
    refine ⟨fun hm => hcount.mp (hlonger _ hpre ?_ hm), fun hm => ?_⟩
    · rw [hab]
      exact List.prefix_append _ _
    · obtain rfl : m = 0 := by omega
      exact hc.zero _
  · obtain ⟨bs, rfl⟩ : pre ++ le32 w.length <+: a := by
      refine List.prefix_of_prefix_length_le ?_ (List.prefix_append a b) (by omega)
      rw [hab]
      exact List.prefix_append _ _
    rw [List.append_assoc, List.append_cancel_left_eq] at hab
    rw [List.length_append, hlen, Nat.add_sub_cancel_left, List.append_assoc]
    rcases Nat.lt_or_ge bs.length w.length with hlt | hge
    · rw [Nat.min_eq_right hlt.le]
      exact counted_within ho hE hw hsize hbody hlt m
    · obtain ⟨rest, rfl⟩ : w <+: bs := by
        refine List.prefix_of_prefix_length_le ?_ (List.prefix_append bs b) hge
        rw [hab]
        exact List.prefix_append _ _
      rw [Nat.min_eq_left hge]
      refine ⟨fun hm => hle ?_, fun hm => ?_⟩
      · rwa [List.append_assoc]
      · have hbehind := counted_behind ho hc hblind hE hw hsize hbody rest
        rw [encodeBytes, List.append_assoc] at hbehind
        exact hc.le hm hbehind

end Reader
end Counts
end NervosLedger.Molecule
