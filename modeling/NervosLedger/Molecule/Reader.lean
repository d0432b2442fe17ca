import NervosLedger.Molecule.Bytes
import Mathlib.Data.List.OfFn

/-!
# The resumable Molecule reader

`moleculec` prints one C parser for each schema type, all from a handful of templates: a
fixed array, a byte string, an option, a fixed vector, a dynamic vector, a struct and a
table. A parser is called once for each chunk of input, keeps its position in a small
state, and tells its caller what it reads through callbacks. Here a schema type with its
callback table is a `Reader`, and `Reader.parse` is the parser printed for it. The cases
of a template's `switch` are stages; falling through is going on to the next stage.
-/
namespace NervosLedger.Molecule

/-- `mol_rv`, with the `THROW` of a callback that ends the call. -/
inductive Rv (ε : Type) where
  | incomplete | complete | reject
  | throw (e : ε)
  deriving DecidableEq, Repr

/-- What the callbacks named by `E` do to their owner's state. Only `size` callbacks can
refuse, and only `end` callbacks can throw. -/
structure Handler (E σ ε : Type) where
  run : E → σ → σ
  ask : E → σ → σ × Bool
  finish : E → σ → σ × Option ε

/-- A callback table: the slots that are not `NULL`. `bodyChunk` sees its piece of the body
and the bytes of the chunk that follow it. -/
structure Callbacks (E : Type) where
  start : Option E := none
  chunk : Option (List UInt8 → E) := none
  finish : Option E := none
  offsets : Option (ℕ → List ℕ → E) := none
  size : Option (ℕ → E) := none
  length : Option (ℕ → E) := none
  index : Option (ℕ → E) := none
  bodyChunk : Option (List UInt8 → List UInt8 → E) := none

/-- The schema types. The byte and array readers have a single `end` callback that is given
the bytes; no table sets the `chunk` slot of a byte string. -/
inductive Reader (E : Type) where
  | byte (done : Option (UInt8 → E))
  | array (width : ℕ) (done : Option (FixedBytes width → E))
  | bytes (cb : Callbacks E)
  | option (cb : Callbacks E) (item : Reader E)
  | fixVec (cb : Callbacks E) (width : ℕ) (item : Reader E)
  | dynVec (cb : Callbacks E) (item : Reader E)
  | struct (cb : Callbacks E) (w₁ w₂ : ℕ) (fst snd : Reader E)
  | table (cb : Callbacks E) (last : ℕ) (fields : Fin (last + 1) → Reader E)

/-- The words of a parser's state that stand before its union. A fixed vector and a byte
string keep their `length` in `totalSize`; a dynamic vector has one offset. -/
structure Frame where
  stateNum : ℕ := 0
  fieldIdx : ℕ := 0
  totalSize : ℕ := 0
  offsets : List ℕ := []
  deriving DecidableEq, Repr

/-- A parser's state: a partly filled array, or a frame over the state of the part that is
being read. Each view of the other shape is that of zeroed memory. -/
inductive ReaderState where
  | leaf (buf : List UInt8)
  | node (frame : Frame) (u : ReaderState)
  deriving DecidableEq, Repr

namespace ReaderState

def zero : ReaderState := .node {} (.leaf [])

def buf : ReaderState → List UInt8
  | .leaf buf => buf
  | .node _ _ => []

def frame : ReaderState → Frame
  | .leaf _ => {}
  | .node frame _ => frame

def u : ReaderState → ReaderState
  | .leaf _ => .leaf []
  | .node _ u => u

@[simp] theorem buf_leaf (b : List UInt8) : (leaf b).buf = b := rfl
@[simp] theorem frame_node (s : Frame) (u : ReaderState) : (node s u).frame = s := rfl
@[simp] theorem u_node (s : Frame) (u : ReaderState) : (node s u).u = u := rfl

end ReaderState

/-- The outcome of a call: the state it leaves, the input it did not consume and the owner's
state. A `direct` return is one that does not pass the parser's own `chunk` callback. -/
structure Res (σ ε : Type) where
  rv : Rv ε
  st : ReaderState
  rest : List UInt8
  g : σ
  direct : Bool := false
  deriving DecidableEq, Repr

/-- The outcome once an `end` callback returned or threw. -/
def Res.closed {σ ε : Type} (r : Res σ ε) : σ × Option ε → Res σ ε
  | (g, none) => { r with g := g }
  | (g, some e) => { r with rv := .throw e, g := g }

abbrev Parser (σ ε : Type) := ReaderState → ℕ → List UInt8 → σ → Res σ ε

/-- `MOL_NUM_MAX`, the size of a part whose size is not known. -/
def molNumMax : ℕ := 2 ^ 32 - 1

/-- A parser as the parser around it uses it. -/
structure Part (σ ε : Type) where
  initState : ReaderState
  start : σ → σ
  parse : Parser σ ε

section Calls
variable {E σ ε : Type} (h : Handler E σ ε)

namespace Handler

def fire : Option E → σ → σ
  | none, g => g
  | some e, g => h.run e g

def allow : Option E → σ → σ × Bool
  | none, g => (g, true)
  | some e, g => h.ask e g

def close : Option E → σ → σ × Option ε
  | none, g => (g, none)
  | some e, g => h.finish e g

@[simp] theorem fire_none (g : σ) : h.fire none g = g := rfl
@[simp] theorem fire_some (e : E) (g : σ) : h.fire (some e) g = h.run e g := rfl
@[simp] theorem allow_none (g : σ) : h.allow none g = (g, true) := rfl
@[simp] theorem allow_some (e : E) (g : σ) : h.allow (some e) g = h.ask e g := rfl
@[simp] theorem close_none (g : σ) : h.close none g = (g, none) := rfl
@[simp] theorem close_some (e : E) (g : σ) : h.close (some e) g = h.finish e g := rfl

end Handler

/-- `mol_parse_bytes`. -/
def molParseBytes (width : ℕ) (done : Option (FixedBytes width → E)) : Parser σ ε :=
  fun st _ inp g =>
    let needed := width - st.buf.length
    let buf := st.buf ++ inp.take needed
    if needed ≤ inp.length then
      ⟨.complete, .leaf buf, inp.drop needed,
        h.fire (done.map fun f => f (.ofList width buf)) g, false⟩
    else ⟨.incomplete, .leaf buf, inp.drop needed, g, false⟩

theorem molParseBytes_append {width : ℕ} (done : Option (FixedBytes width → E))
    {st : ReaderState} {x : List UInt8} (hx : x.length = width - st.buf.length) (size : ℕ)
    (y : List UInt8) (g : σ) :
    molParseBytes h width done st size (x ++ y) g = ⟨.complete, .leaf (st.buf ++ x), y,
      h.fire (done.map fun f => f (.ofList width (st.buf ++ x))) g, false⟩ := by
  simp [molParseBytes, ← hx]

theorem molParseBytes_of_lt {width : ℕ} {done : Option (FixedBytes width → E)}
    {st : ReaderState} {inp : List UInt8} (hi : inp.length < width - st.buf.length) (size : ℕ)
    (g : σ) :
    molParseBytes h width done st size inp g = ⟨.incomplete, .leaf (st.buf ++ inp), [], g, false⟩ := by
  have hle : inp.length ≤ width - st.buf.length := hi.le
  simp only [molParseBytes, if_neg (not_le_of_gt hi), List.take_of_length_le hle,
    List.drop_eq_nil_of_le hle]

/-- `mol_parse_num`: the number itself is read back from the state it leaves. -/
def molParseNum : ReaderState → List UInt8 → σ → Res σ ε :=
  fun st inp g => molParseBytes h 4 none st 4 inp g

/-- `mol_unpack_number` on a completed `num_state`. -/
def ReaderState.num (st : ReaderState) : ℕ := leNat (st.buf.take 4)

theorem ReaderState.num_lt (st : ReaderState) : st.num < 2 ^ 32 := by
  have hlen : (st.buf.take 4).length ≤ 4 := by simp
  calc st.num < 256 ^ (st.buf.take 4).length := leNat_lt _
    _ ≤ 256 ^ 4 := Nat.pow_le_pow_right (by norm_num) hlen
    _ = 2 ^ 32 := by norm_num

/-- `MolReader_byte_parse`. -/
def parseByte (done : Option (UInt8 → E)) : Parser σ ε :=
  fun st size inp g =>
    if size ≠ 1 then ⟨.reject, st, inp, g, true⟩
    else match inp with
      | [] => ⟨.incomplete, st, [], g, false⟩
      | b :: rest => ⟨.complete, st, rest, h.fire (done.map fun f => f b) g, false⟩

/-- What happens once the current part of a parser is complete. -/
inductive Next (σ : Type) where
  | go (s : Frame) (u : ReaderState) (g : σ)
  | accept (s : Frame) (u : ReaderState) (g : σ)
  | refuse (s : Frame) (u : ReaderState) (g : σ)

/-- Going on after a `size` callback, unless it refused. -/
def Next.allowed {σ : Type} (s : Frame) (u : ReaderState) (next : σ → Next σ) : σ × Bool → Next σ
  | (g, false) => .refuse s u g
  | (g, true) => next g

/-- The part a parser is at: how to read on in it, and what follows it. -/
structure Stage (σ ε : Type) where
  parse : ReaderState → List UInt8 → σ → Res σ ε
  next : ReaderState → σ → Next σ

/-- Run the stages from frame `s`, at most `fuel` of them. -/
def runStages (stage : Frame → Option (Stage σ ε)) :
    ℕ → Frame → ReaderState → List UInt8 → σ → Res σ ε
  | 0, s, u, inp, g => ⟨.complete, .node s u, inp, g, false⟩
  | fuel + 1, s, u, inp, g =>
    match stage s with
    | none => ⟨.complete, .node s u, inp, g, false⟩
    | some part =>
      let r := part.parse u inp g
      match r.rv with
      | .complete => match part.next r.st r.g with
        | .go s u g => runStages stage fuel s u r.rest g
        | .accept s u g => ⟨.complete, .node s u, r.rest, g, false⟩
        | .refuse s u g => ⟨.reject, .node s u, r.rest, g, true⟩
      | rv => ⟨rv, .node s r.st, r.rest, r.g, false⟩

/-- Leaving a parser that was called on `inp`: its `chunk` callback is given what it
consumed, and its `end` callback follows if it is complete. -/
def leave (cb : Callbacks E) (inp : List UInt8) (r : Res σ ε) : Res σ ε :=
  let chunk := h.fire (cb.chunk.map fun c => c (inp.take (inp.length - r.rest.length))) r.g
  match r.rv with
  | .throw _ => r
  | .reject => if r.direct then { r with direct := false } else { r with g := chunk }
  | .incomplete => { r with g := chunk }
  | .complete => r.closed (h.close cb.finish chunk)

/-- The stages of `MolReader_`*Option*`_parse`: a part of size 0 is absent. -/
def optionStage (item : Part σ ε) (size : ℕ) (s : Frame) : Option (Stage σ ε) :=
  if size = 0 then none
  else some ⟨fun u => item.parse u size, fun u g => .accept s u g⟩

def optionRank : ℕ := 1

/-- The stages of a FixVec parser. -/
def fixVecStage (cb : Callbacks E) (width : ℕ) (item : Part σ ε) (size : ℕ) (s : Frame) :
    Option (Stage σ ε) :=
  match s.stateNum with
  | 0 => some ⟨molParseNum h, fun u g =>
      let s : Frame := { s with totalSize := u.num, stateNum := 1 }
      let bytes := u.num * width + 4
      if 2 ^ 32 ≤ bytes ∨ (size ≠ molNumMax ∧ bytes ≠ size) then .refuse s u g
      else (h.allow (cb.size.map fun f => f bytes) g) |> Next.allowed s u fun g =>
        .go s item.initState (h.fire (cb.index.map fun f => f 0) (item.start g))⟩
  | k + 1 =>
    if k < s.totalSize then some ⟨fun u => item.parse u width, fun _ g =>
      .go { s with stateNum := k + 2 } item.initState
        (h.fire (cb.index.map fun f => f (k + 1)) (item.start g))⟩
    else none

/-- The number of stages a FixVec parser can still go through. -/
def fixVecRank (s : Frame) : ℕ :=
  match s.stateNum with
  | 0 => 2 ^ 32 + 2
  | k + 1 => s.totalSize - k + 1

/-- The number of items of a dynamic vector: `(first_offset>>2)-1`. -/
def Frame.items (s : Frame) : ℕ := sub32 (s.offsets.headD 0 / 4) 1

/-- Entering the items of a dynamic vector. -/
def dynVecItems (cb : Callbacks E) (item : Part σ ε) (s : Frame) (g : σ) : Next σ :=
  .go { s with fieldIdx := 0, stateNum := 3 } item.initState
    (h.fire (cb.index.map fun f => f 0)
      (h.fire (cb.length.map fun f => f s.items) (item.start g)))

/-- The stages of a DynVec parser. A vector of total size 4 ends at once. -/
def dynVecStage (cb : Callbacks E) (item : Part σ ε) (size : ℕ) (s : Frame) :
    Option (Stage σ ε) :=
  match s.stateNum with
  | 0 => some ⟨molParseNum h, fun u g =>
      let s : Frame := { s with totalSize := u.num }
      (h.allow (cb.size.map fun f => f u.num) g) |> Next.allowed s (.leaf []) fun g =>
        if u.num = 4 then .accept s (.leaf []) g
        else if size ≠ molNumMax ∧ size ≠ u.num then .refuse s (.leaf []) g
        else .go { s with stateNum := 1 } (.leaf []) g⟩
  | 1 => some ⟨molParseNum h, fun u g =>
      let s : Frame := { s with offsets := [u.num], fieldIdx := 1, stateNum := 2 }
      if 1 < s.items then .go s (.leaf []) g else dynVecItems h cb item s g⟩
  | 2 => some ⟨molParseNum h, fun _ g =>
      let s : Frame := { s with fieldIdx := s.fieldIdx + 1 }
      if s.fieldIdx < s.items then .go s (.leaf []) g else dynVecItems h cb item s g⟩
  | _ =>
    if s.fieldIdx < s.items then some ⟨fun u => item.parse u molNumMax, fun _ g =>
      .go { s with fieldIdx := s.fieldIdx + 1 } item.initState
        (h.fire (cb.index.map fun f => f (s.fieldIdx + 1)) (item.start g))⟩
    else none

def dynVecRank (s : Frame) : ℕ :=
  match s.stateNum with
  | 0 => 2 ^ 33 + 3
  | 1 => 2 ^ 33 + 2
  | 2 => (s.items - s.fieldIdx) + s.items + 2
  | _ => s.items - s.fieldIdx + 1

/-- The stages of a struct parser. -/
def structStage (w₁ w₂ : ℕ) (fst snd : Part σ ε) (s : Frame) : Option (Stage σ ε) :=
  match s.stateNum with
  | 0 => some ⟨fun u => fst.parse u w₁, fun _ g =>
      .go { s with stateNum := 1 } snd.initState (snd.start g)⟩
  | 1 => some ⟨fun u => snd.parse u w₂, fun u g => .accept s u g⟩
  | _ => none

def structRank (s : Frame) : ℕ := 2 - s.stateNum

/-- The size a table declares for its field `i`. -/
def Frame.fieldSize (s : Frame) (i : ℕ) : ℕ :=
  sub32 (s.offsets.getD (i + 1) s.totalSize) (s.offsets.getD i 0)

/-- The stages of a table parser. -/
def tableStage (cb : Callbacks E) (fields : List (Part σ ε)) (size : ℕ) (s : Frame) :
    Option (Stage σ ε) :=
  match s.stateNum with
  | 0 => some ⟨molParseNum h, fun u g =>
      let s : Frame := { s with totalSize := u.num }
      if size ≠ molNumMax ∧ u.num ≠ size then .refuse s (.leaf []) g
      else .go { s with stateNum := 1 } (.leaf []) g⟩
  | 1 => some ⟨molParseNum h, fun u g =>
      let s : Frame := { s with offsets := s.offsets ++ [u.num] }
      match fields with
      | [] => .accept s u g
      | first :: rest =>
        if s.fieldIdx < rest.length then .go { s with fieldIdx := s.fieldIdx + 1 } (.leaf []) g
        else .go { s with stateNum := 2, fieldIdx := 0 } first.initState
          (h.fire (cb.offsets.map fun f => f s.totalSize s.offsets) (first.start g))⟩
  | 2 => match fields[s.fieldIdx]? with
    | none => none
    | some field => some ⟨fun u => field.parse u (s.fieldSize s.fieldIdx), fun u g =>
        match fields[s.fieldIdx + 1]? with
        | none => .go { s with stateNum := 3 } u g
        | some field =>
          .go { s with fieldIdx := s.fieldIdx + 1 } field.initState (field.start g)⟩
  | _ => none

/-- A table with `fields` fields has been read. -/
def Frame.AtEnd (fields : ℕ) (s : Frame) : Prop :=
  3 ≤ s.stateNum ∨ s.stateNum = 2 ∧ fields ≤ s.fieldIdx

instance (fields : ℕ) (s : Frame) : Decidable (s.AtEnd fields) :=
  inferInstanceAs (Decidable (_ ∨ _))

theorem tableStage_eq_none {cb : Callbacks E} {fields : List (Part σ ε)} {size : ℕ} {s : Frame} :
    tableStage h cb fields size s = none ↔ s.AtEnd fields.length := by
  unfold tableStage Frame.AtEnd
  split
  · rename_i h0
    simp [h0]
  · rename_i h1
    simp [h1]
  · rename_i h2
    split
    · rename_i hf
      simp [h2, List.getElem?_eq_none_iff.mp hf]
    · rename_i hf
      simp [h2, (List.getElem?_eq_some_iff.mp hf).1]
  · rename_i h0 h1 h2
    have hlarge : 3 ≤ s.stateNum := by
      have h0' : s.stateNum ≠ 0 := h0
      have h1' : s.stateNum ≠ 1 := h1
      have h2' : s.stateNum ≠ 2 := h2
      omega
    simp [hlarge]

def tableRank (fields : ℕ) (s : Frame) : ℕ :=
  match s.stateNum with
  | 0 => 2 * fields + 3
  | 1 => fields - s.fieldIdx + fields + 2
  | 2 => fields - s.fieldIdx + 1
  | _ => 0

/-- The body of `MolReader_Bytes_parse`, after its length. -/
def parseBody (cb : Callbacks E) (s : Frame) (u : ReaderState) (inp : List UInt8) (g : σ) :
    Res σ ε :=
  let needed := s.totalSize + 1 - s.stateNum
  let g := if needed = 0 then g
    else h.fire (cb.bodyChunk.map fun f => f (inp.take needed) (inp.drop needed)) g
  let st : ReaderState := .node { s with stateNum := s.stateNum + min needed inp.length } u
  if needed ≤ inp.length then
    Res.closed ⟨.complete, st, inp.drop needed, g, false⟩ (h.close cb.finish g)
  else ⟨.incomplete, st, inp.drop needed, g, false⟩

theorem parseBody_append {cb : Callbacks E} {s : Frame} {x : List UInt8}
    (hx : x.length = s.totalSize + 1 - s.stateNum) (hne : x ≠ []) (u : ReaderState)
    (y : List UInt8) (g : σ) :
    parseBody h cb s u (x ++ y) g =
      Res.closed ⟨.complete, .node { s with stateNum := s.stateNum + x.length } u, y,
          h.fire (cb.bodyChunk.map fun f => f x y) g, false⟩
        (h.close cb.finish (h.fire (cb.bodyChunk.map fun f => f x y) g)) := by
  have hne' : x.length ≠ 0 := by simpa using hne
  simp only [parseBody, ← hx, List.length_append, Nat.le_add_right, if_true, if_neg hne',
    List.take_left, List.drop_left, Nat.min_eq_left]

theorem parseBody_empty {cb : Callbacks E} {s : Frame} (hs : s.totalSize + 1 - s.stateNum = 0)
    (u : ReaderState) (inp : List UInt8) (g : σ) :
    parseBody h cb s u inp g =
      Res.closed ⟨.complete, .node s u, inp, g, false⟩ (h.close cb.finish g) := by
  simp only [parseBody, hs, Nat.zero_le, if_true, List.drop_zero, Nat.zero_min, Nat.add_zero]

theorem parseBody_of_lt {cb : Callbacks E} {s : Frame} {inp : List UInt8}
    (hi : inp.length < s.totalSize + 1 - s.stateNum) (u : ReaderState) (g : σ) :
    parseBody h cb s u inp g =
      ⟨.incomplete, .node { s with stateNum := s.stateNum + inp.length } u, [],
        h.fire (cb.bodyChunk.map fun f => f inp []) g, false⟩ := by
  have hne : s.totalSize + 1 - s.stateNum ≠ 0 := by omega
  simp only [parseBody, if_neg hne, if_neg (not_le_of_gt hi), List.take_of_length_le hi.le,
    List.drop_eq_nil_of_le hi.le, Nat.min_eq_right hi.le]

/-- `MolReader_Bytes_parse`. -/
def parseBytes (cb : Callbacks E) : Parser σ ε :=
  fun st size inp g =>
    let s := st.frame
    if s.stateNum = 0 then
      let r := molParseNum h st.u inp g
      match r.rv with
      | .complete =>
        let s : Frame := { s with totalSize := r.st.num, stateNum := 1 }
        let bytes := r.st.num + 4
        if 2 ^ 32 ≤ bytes ∨ (size ≠ molNumMax ∧ bytes ≠ size) then
          ⟨.reject, .node s r.st, r.rest, r.g, false⟩
        else match h.allow (cb.size.map fun f => f bytes) r.g with
          | (g, false) => ⟨.reject, .node s r.st, r.rest, g, false⟩
          | (g, true) => parseBody h cb s r.st r.rest g
      | rv => ⟨rv, .node s r.st, r.rest, r.g, false⟩
    else parseBody h cb s st.u inp g

/-- Run the stages from state `st` to the end: the rank of a frame counts those to come. -/
def runAll (rank : Frame → ℕ) (stage : Frame → Option (Stage σ ε)) (st : ReaderState)
    (inp : List UInt8) (g : σ) : Res σ ε :=
  runStages stage (rank st.frame) st.frame st.u inp g

/-- A parser that runs stages, between its entry and its `leave`. -/
def parseStages (cb : Callbacks E) (rank : Frame → ℕ) (stage : Frame → Option (Stage σ ε))
    (st : ReaderState) (inp : List UInt8) (g : σ) : Res σ ε :=
  leave h cb inp (runAll rank stage st inp g)

namespace Reader

/-- The state that `MolReader_`*T*`_init_state` sets up. -/
def initState : Reader E → ReaderState
  | .byte _ | .array _ _ => .leaf []
  | .option _ item => .node {} item.initState
  | .struct _ _ _ fst _ => .node {} fst.initState
  | .bytes _ | .fixVec _ _ _ | .dynVec _ _ | .table _ _ _ => .zero

/-- The `start` callbacks that `MolReader_`*T*`_init_state` makes. -/
def start : Reader E → σ → σ
  | .byte _, g | .array _ _, g => g
  | .option cb item, g => item.start (h.fire cb.start g)
  | .struct cb _ _ fst _, g => fst.start (h.fire cb.start g)
  | .bytes cb, g | .fixVec cb _ _, g | .dynVec cb _, g | .table cb _ _, g => h.fire cb.start g

/-- `MolReader_`*T*`_parse`. -/
def parse : Reader E → Parser σ ε
  | .byte done => parseByte h done
  | .array width done => molParseBytes h width done
  | .bytes cb => parseBytes h cb
  | .option cb item => fun st size =>
    parseStages h cb (fun _ => optionRank)
      (optionStage ⟨item.initState, item.start h, item.parse⟩ size) st
  | .fixVec cb width item => fun st size =>
    parseStages h cb fixVecRank
      (fixVecStage h cb width ⟨item.initState, item.start h, item.parse⟩ size) st
  | .dynVec cb item => fun st size =>
    parseStages h cb dynVecRank
      (dynVecStage h cb ⟨item.initState, item.start h, item.parse⟩ size) st
  | .struct cb w₁ w₂ fst snd => fun st size inp g =>
    if size ≠ w₁ + w₂ ∧ size ≠ molNumMax then ⟨.reject, st, inp, g, false⟩
    else parseStages h cb structRank (structStage w₁ w₂ ⟨fst.initState, fst.start h, fst.parse⟩
      ⟨snd.initState, snd.start h, snd.parse⟩) st inp g
  | .table cb last fields => fun st size =>
    parseStages h cb (tableRank (last + 1)) (tableStage h cb
      (List.ofFn fun i => ⟨(fields i).initState, (fields i).start h, (fields i).parse⟩) size) st

/-- A reader as a part of another one. -/
def part (r : Reader E) : Part σ ε := ⟨r.initState, r.start h, r.parse h⟩

variable (cb : Callbacks E) (item fst snd : Reader E) (st : ReaderState) (size : ℕ)

theorem parse_option : (option cb item).parse h st size =
    parseStages h cb (fun _ => optionRank) (optionStage (item.part h) size) st := rfl

theorem parse_fixVec (width : ℕ) : (fixVec cb width item).parse h st size =
    parseStages h cb fixVecRank (fixVecStage h cb width (item.part h) size) st := rfl

theorem parse_dynVec : (dynVec cb item).parse h st size =
    parseStages h cb dynVecRank (dynVecStage h cb (item.part h) size) st := rfl

theorem parse_struct (w₁ w₂ : ℕ) (hs : size = w₁ + w₂ ∨ size = molNumMax) :
    (struct cb w₁ w₂ fst snd).parse h st size =
      parseStages h cb structRank (structStage w₁ w₂ (fst.part h) (snd.part h)) st := by
  funext inp g
  exact if_neg (by omega)

theorem parse_table (last : ℕ) (fields : Fin (last + 1) → Reader E) :
    (table cb last fields).parse h st size =
      parseStages h cb (tableRank (last + 1))
        (tableStage h cb (List.ofFn fun i => (fields i).part h) size) st := rfl

end Reader
end Calls
end NervosLedger.Molecule
