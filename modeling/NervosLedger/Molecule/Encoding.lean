import Mathlib
import NervosLedger.Molecule.Scan

/-!
# Canonical encodings

How Molecule serialises a byte string, a fixed vector, a dynamic vector and a table. The scanner of
a schema type reads them back, in front of any other bytes.
-/
namespace NervosLedger.Molecule

/-- Where parts begin that follow one another from `start` on. -/
def offsetsFrom : ℕ → List (List UInt8) → List ℕ
  | _, [] => []
  | start, part :: parts => start :: offsetsFrom (start + part.length) parts

/-- The size of the header of a table or a dynamic vector. -/
def headerSize (count : ℕ) : ℕ := 4 * (count + 1)

/-- A table or a dynamic vector. -/
def encodeParts (parts : List (List UInt8)) : List UInt8 :=
  le32 (headerSize parts.length + parts.flatten.length) ++
    (offsetsFrom (headerSize parts.length) parts).flatMap le32 ++ parts.flatten

/-- A fixed vector. -/
def encodeItems (items : List (List UInt8)) : List UInt8 := le32 items.length ++ items.flatten

/-- A byte string. -/
def encodeBytes (bs : List UInt8) : List UInt8 := le32 bs.length ++ bs

@[simp] theorem length_offsetsFrom (start : ℕ) (parts : List (List UInt8)) :
    (offsetsFrom start parts).length = parts.length := by
  induction parts generalizing start with
  | nil => rfl
  | cons part parts ih => simp [offsetsFrom, ih]

theorem length_flatMap_le32 (ns : List ℕ) : (ns.flatMap le32).length = 4 * ns.length := by
  induction ns with
  | nil => rfl
  | cons n ns ih =>
    rw [List.flatMap_cons, List.length_append, length_le32, ih, List.length_cons]
    omega

theorem length_encodeParts (parts : List (List UInt8)) :
    (encodeParts parts).length = headerSize parts.length + parts.flatten.length := by
  rw [encodeParts, List.length_append, List.length_append, length_le32, length_flatMap_le32,
    length_offsetsFrom, headerSize]
  omega

@[simp] theorem length_encodeBytes (bs : List UInt8) : (encodeBytes bs).length = 4 + bs.length := by
  simp [encodeBytes]

theorem length_encodeItems (items : List (List UInt8)) :
    (encodeItems items).length = 4 + items.flatten.length := by
  rw [encodeItems, List.length_append, length_le32]

theorem getD_offsetsFrom {start i : ℕ} {parts : List (List UInt8)} (hi : i < parts.length) (d : ℕ) :
    (offsetsFrom start parts).getD i d = start + (parts.take i).flatten.length := by
  induction parts generalizing start i with
  | nil => cases hi
  | cons part parts ih =>
    cases i with
    | zero => simp [offsetsFrom]
    | succ i =>
      rw [offsetsFrom, List.getD_cons_succ, ih (Nat.lt_of_succ_lt_succ hi), List.take_succ_cons,
        List.flatten_cons, List.length_append]
      omega

theorem mem_offsetsFrom_le {start n : ℕ} {parts : List (List UInt8)}
    (hn : n ∈ offsetsFrom start parts) : n ≤ start + parts.flatten.length := by
  induction parts generalizing start with
  | nil => cases hn
  | cons part parts ih =>
    rw [List.flatten_cons, List.length_append]
    rcases List.mem_cons.mp hn with rfl | hn
    · omega
    · have := ih hn
      omega

@[simp] theorem encodeParts_nil : encodeParts [] = le32 4 := rfl

/-- The header of a table or vector that has a part. -/
theorem encodeParts_cons (part : List UInt8) (parts : List (List UInt8)) (rest : List UInt8) :
    encodeParts (part :: parts) ++ rest = le32 (encodeParts (part :: parts)).length ++
      (le32 (headerSize (parts.length + 1)) ++ ((offsetsFrom (headerSize (parts.length + 1) +
        part.length) parts).flatMap le32 ++ ((part :: parts).flatten ++ rest))) := by
  rw [length_encodeParts, encodeParts, offsetsFrom, List.flatMap_cons]
  simp only [List.append_assoc, List.length_cons]

theorem length_header {parts : List (List UInt8)} (h : (encodeParts parts).length < 2 ^ 32) :
    headerSize parts.length < 2 ^ 32 := by
  rw [length_encodeParts] at h
  omega

/-- The number of items of a dynamic vector, from its first offset. -/
theorem items_of_header {n : ℕ} (hn : headerSize n < 2 ^ 32) :
    sub32 (headerSize n / 4) 1 = n := by
  rw [headerSize] at hn ⊢
  rw [Nat.mul_div_cancel_left _ (by decide), sub32_of_le (by omega) (by omega), Nat.add_sub_cancel]

theorem offset_lt {parts : List (List UInt8)} (h : (encodeParts parts).length < 2 ^ 32) {n : ℕ}
    (hn : n ∈ offsetsFrom (headerSize parts.length) parts) : n < 2 ^ 32 := by
  rw [length_encodeParts] at h
  exact (mem_offsetsFrom_le hn).trans_lt h

section Scan
variable {E : Type}

theorem scanNum_le32 {n : ℕ} (hn : n < 2 ^ 32) (rest : List UInt8) :
    scanNum (le32 n ++ rest) = some (n, rest) := by
  have htake : (le32 n ++ rest).take 4 = le32 n := List.take_left' (length_le32 n)
  have hdrop : (le32 n ++ rest).drop 4 = rest := List.drop_left' (length_le32 n)
  rw [scanNum, if_pos (by simp), htake, hdrop, leNat_le32 hn]

theorem scanNums_le32 {ns : List ℕ} (hns : ∀ n ∈ ns, n < 2 ^ 32) (rest : List UInt8) :
    scanNums ns.length (ns.flatMap le32 ++ rest) = some (ns, rest) := by
  induction ns with
  | nil => rfl
  | cons n ns ih =>
    rw [List.length_cons, scanNums, List.flatMap_cons, List.append_assoc,
      scanNum_le32 (hns n List.mem_cons_self), Option.bind_eq_bind, Option.bind_some]
    dsimp only
    rw [ih fun m hm => hns m (List.mem_cons_of_mem n hm)]
    rfl

/-- What the scanner finds in the header of a table or vector that has a part. -/
theorem scan_header {part : List UInt8} {parts : List (List UInt8)}
    (h : (encodeParts (part :: parts)).length < 2 ^ 32) (rest : List UInt8) :
    ∃ inp inp', scanNum (encodeParts (part :: parts) ++ rest) =
        some ((encodeParts (part :: parts)).length, inp) ∧
      scanNum inp = some (headerSize (parts.length + 1), inp') ∧
      scanNums parts.length inp' = some (offsetsFrom (headerSize (parts.length + 1) +
        part.length) parts, (part :: parts).flatten ++ rest) ∧
      scanNums (parts.length + 1) inp = some (offsetsFrom (headerSize (parts.length + 1))
        (part :: parts), (part :: parts).flatten ++ rest) := by
  have hnums := scanNums_le32 (fun n hn => offset_lt h (List.mem_cons_of_mem _ hn))
    ((part :: parts).flatten ++ rest)
  have hall := scanNums_le32 (fun n hn => offset_lt h hn) ((part :: parts).flatten ++ rest)
  rw [length_offsetsFrom] at hnums hall
  refine ⟨_, _, ?_, scanNum_le32 (length_header h) _, hnums, ?_⟩
  · rw [encodeParts_cons, scanNum_le32 h]
    rfl
  · rwa [offsetsFrom, List.flatMap_cons, List.append_assoc] at hall

/-- The notes of the items of a vector, each followed by those `after` it. -/
def itemNotes (after : ℕ → List (Note E)) : ℕ → List (List (Note E)) → List (Note E)
  | _, [] => []
  | k, es :: ess => es ++ after (k + 1) ++ itemNotes after (k + 1) ess

/-- Where nothing comes between the items. -/
theorem itemNotes_nil (k : ℕ) (ess : List (List (Note E))) :
    itemNotes (fun _ => []) k ess = ess.flatten := by
  induction ess generalizing k with
  | nil => rfl
  | cons es ess ih => rw [itemNotes, ih, List.append_nil, List.flatten_cons]

theorem scanItems_encoded {α : Type} {item : Scanner E} {encode : α → List UInt8}
    {notes : α → List (Note E)} {xs : List α}
    (h : ∀ x ∈ xs, ∀ rest, item (encode x ++ rest) = some (notes x, rest))
    (after : ℕ → List (Note E)) (k : ℕ) (rest : List UInt8) :
    scanItems item after xs.length k ((xs.map encode).flatten ++ rest) =
      some (itemNotes after k (xs.map notes), rest) := by
  induction xs generalizing k with
  | nil => rfl
  | cons x xs ih =>
    rw [List.length_cons, scanItems, List.map_cons, List.flatten_cons, List.append_assoc,
      h x List.mem_cons_self, Option.bind_eq_bind, Option.bind_some]
    dsimp only
    rw [ih fun y hy => h y (List.mem_cons_of_mem x hy)]
    rfl

theorem scanFields_encoded {n : ℕ} (before : Fin n → List (Note E)) {scan : Fin n → Scanner E}
    {encoded : Fin n → List UInt8} {notes : Fin n → List (Note E)}
    (h : ∀ i rest, scan i (encoded i ++ rest) = some (notes i, rest)) (rest : List UInt8) :
    scanFields (List.ofFn fun i => (before i, scan i)) ((List.ofFn encoded).flatten ++ rest) =
      some ((List.ofFn fun i => before i ++ notes i).flatten, rest) := by
  induction n with
  | zero => rfl
  | succ n ih =>
    rw [List.ofFn_succ, List.ofFn_succ, List.ofFn_succ, scanFields, List.flatten_cons,
      List.append_assoc, h 0, Option.bind_eq_bind, Option.bind_some]
    dsimp only
    rw [ih (fun i => before i.succ) (fun i => h i.succ), Option.bind_some, List.flatten_cons]

namespace Reader

/-- The scanner reads `bs` with the notes `es`, whatever follows. -/
def Reads (r : Reader E) (size : ℕ) (bs : List UInt8) (es : List (Note E)) : Prop :=
  ∀ rest, r.scan size (bs ++ rest) = some (es, rest)

theorem Reads.congr {r : Reader E} {size : ℕ} {bs : List UInt8} {es es' : List (Note E)}
    (h : r.Reads size bs es) (hes : es = es') : r.Reads size bs es' := hes ▸ h

variable {cb : Callbacks E} {size : ℕ}

theorem Reads.byte (done : Option (UInt8 → E)) (b : UInt8) :
    (Reader.byte done).Reads 1 [b] (note .void (done.map fun f => f b)) := fun _ => rfl

theorem Reads.array {width : ℕ} (done : Option (FixedBytes width → E)) (b : FixedBytes width)
    (size : ℕ) :
    (Reader.array width done).Reads size b.toList (note .void (done.map fun f => f b)) := by
  intro rest
  have htake : (b.toList ++ rest).take width = b.toList := List.take_left' b.length_eq
  have hdrop : (b.toList ++ rest).drop width = rest := List.drop_left' b.length_eq
  rw [Reader.scan, if_pos (by simp), htake, hdrop, FixedBytes.ofList_toList]

/-- The notes of a body. -/
def bodyNotes (f : Option (List UInt8 → List UInt8 → E)) (bs : List UInt8) : List (Note E) :=
  if bs = [] then [] else note .void (f.map fun f => f bs [])

theorem Reads.bytes (cb : Callbacks E) {bs : List UInt8} (hlt : bs.length + 4 < 2 ^ 32)
    (hsize : size = molNumMax ∨ size = bs.length + 4) :
    (Reader.bytes cb).Reads size (encodeBytes bs) (note .size (cb.size.map fun f =>
      f (bs.length + 4)) ++ bodyNotes cb.bodyChunk bs ++ note .close cb.finish) := by
  intro rest
  rw [Reader.scan, encodeBytes, List.append_assoc, scanNum_le32 (by omega), Option.bind_eq_bind,
    Option.bind_some]
  dsimp only
  rw [if_neg, List.take_left, List.drop_left, bodyNotes]
  · simp only [List.length_eq_zero_iff]
  · have hlen : ¬ (bs ++ rest).length < bs.length := by simp
    omega

/-- A scanner that reads `bs` reads it as well where it leaves. -/
theorem left_eq {scan : Scanner E} {bs rest : List UInt8} {es : List (Note E)}
    (h : scan (bs ++ rest) = some (es, rest)) :
    cb.left scan (bs ++ rest) = some (es ++ cb.leaving bs, rest) := by
  rw [Callbacks.left, h, Option.bind_some, consumed_append]

theorem Reads.absent (cb : Callbacks E) (item : Reader E) :
    (Reader.option cb item).Reads 0 [] (cb.leaving []) := by
  intro rest
  rw [Reader.scan]
  exact left_eq (show _ = some (([] : List (Note E)), rest) from if_pos rfl)

theorem Reads.present {item : Reader E} {bs : List UInt8} {es : List (Note E)} (cb : Callbacks E)
    (h : item.Reads size bs es) (hsize : size ≠ 0) :
    (Reader.option cb item).Reads size bs (es ++ cb.leaving bs) := by
  intro rest
  rw [Reader.scan]
  refine left_eq ?_
  rw [if_neg hsize]
  exact h rest

theorem length_flatten_map {α : Type} {encode : α → List UInt8} {width : ℕ} {xs : List α}
    (hwidth : ∀ x ∈ xs, (encode x).length = width) :
    (xs.map encode).flatten.length = xs.length * width := by
  induction xs with
  | nil => simp
  | cons x xs ih =>
    rw [List.map_cons, List.flatten_cons, List.length_append, hwidth x List.mem_cons_self,
      ih fun y hy => hwidth y (List.mem_cons_of_mem x hy), List.length_cons, Nat.succ_mul,
      Nat.add_comm]

theorem Reads.fixVec {α : Type} (cb : Callbacks E) {item : Reader E} {width : ℕ} {xs : List α}
    {encode : α → List UInt8} {notes : α → List (Note E)} (hpos : 0 < width)
    (h : ∀ x ∈ xs, item.Reads width (encode x) (notes x))
    (hwidth : ∀ x ∈ xs, (encode x).length = width)
    (hlt : (encodeItems (xs.map encode)).length < 2 ^ 32)
    (hsize : size = molNumMax ∨ size = (encodeItems (xs.map encode)).length) :
    (Reader.fixVec cb width item).Reads size (encodeItems (xs.map encode))
      (note .size (cb.size.map fun f => f (xs.length * width + 4)) ++ nextItem cb item 0 ++
        itemNotes (nextItem cb item) 0 (xs.map notes) ++
          cb.leaving (encodeItems (xs.map encode))) := by
  have hlen : (encodeItems (xs.map encode)).length = xs.length * width + 4 := by
    rw [length_encodeItems, length_flatten_map hwidth, Nat.add_comm]
  have hcount : xs.length ≤ xs.length * width := Nat.le_mul_of_pos_right _ hpos
  intro rest
  rw [Reader.scan]
  refine left_eq ?_
  rw [encodeItems, List.append_assoc, List.length_map, scanNum_le32 (by omega), Option.bind_some,
    if_neg (by dsimp only; omega), scanItems_encoded h, Option.bind_some]

/-- The notes of the items of a dynamic vector: an empty one has none. -/
def vectorNotes (cb : Callbacks E) (item : Reader E) (ess : List (List (Note E))) :
    List (Note E) :=
  if ess = [] then [] else firstItem cb item ess.length ++ itemNotes (nextItem cb item) 0 ess

theorem Reads.dynVec {α : Type} (cb : Callbacks E) {item : Reader E} {xs : List α}
    {encode : α → List UInt8} {notes : α → List (Note E)}
    (h : ∀ x ∈ xs, item.Reads molNumMax (encode x) (notes x))
    (hlt : (encodeParts (xs.map encode)).length < 2 ^ 32)
    (hsize : size = molNumMax ∨ size = (encodeParts (xs.map encode)).length) :
    (Reader.dynVec cb item).Reads size (encodeParts (xs.map encode))
      (note .size (cb.size.map fun f => f (encodeParts (xs.map encode)).length) ++
        vectorNotes cb item (xs.map notes) ++ cb.leaving (encodeParts (xs.map encode))) := by
  intro rest
  rw [Reader.scan]
  refine left_eq ?_
  cases xs with
  | nil =>
    rw [List.map_nil, encodeParts_nil, scanNum_le32 (by decide), Option.bind_some, if_pos rfl]
    simp [vectorNotes]
  | cons x xs =>
    rw [List.map_cons] at hlt hsize ⊢
    obtain ⟨inp, inp', hsum, hfirst, hnums, -⟩ := scan_header hlt rest
    have hitems := scanItems_encoded h (nextItem cb item) 0 rest
    have hcount : sub32 (headerSize ((xs.map encode).length + 1) / 4) 1 = xs.length + 1 :=
      (items_of_header (length_header hlt)).trans (by simp)
    have hne : (encodeParts (encode x :: xs.map encode)).length ≠ 4 := by
      rw [length_encodeParts, headerSize, List.length_cons]
      omega
    rw [hsum, Option.bind_some, if_neg hne, if_neg (by dsimp only; omega), hfirst,
      Option.bind_some]
    dsimp only
    rw [hcount, scanVector, Nat.add_sub_cancel, ← List.length_map encode, hnums,
      Option.bind_eq_bind, Option.bind_some]
    dsimp only
    rw [List.length_map, ← List.length_cons (a := x), ← List.map_cons, hitems, Option.bind_eq_bind,
      Option.bind_some, Option.bind_some, vectorNotes, if_neg (by simp), List.length_map]

theorem Reads.struct {w₁ w₂ : ℕ} {fst snd : Reader E} {a b : List UInt8} {es es' : List (Note E)}
    (cb : Callbacks E) (h₁ : fst.Reads w₁ a es) (h₂ : snd.Reads w₂ b es')
    (hsize : size = w₁ + w₂ ∨ size = molNumMax) :
    (Reader.struct cb w₁ w₂ fst snd).Reads size (a ++ b)
      (es ++ (snd.starts ++ es') ++ cb.leaving (a ++ b)) := by
  intro rest
  rw [Reader.scan, if_neg (by omega)]
  refine left_eq ?_
  rw [List.append_assoc, h₁, Option.bind_some, h₂, Option.bind_some]

/-- A field of an encoded table has the size that its offsets say. -/
theorem fieldSize_encoded {parts : List (List UInt8)} (h : (encodeParts parts).length < 2 ^ 32)
    {i : ℕ} (hi : i < parts.length) :
    Frame.fieldSize { totalSize := (encodeParts parts).length
                      offsets := offsetsFrom (headerSize parts.length) parts } i =
      parts[i].length := by
  have hlen := length_encodeParts parts
  have htake : (parts.take (i + 1)).flatten.length =
      (parts.take i).flatten.length + parts[i].length := by
    rw [List.take_succ_eq_append_getElem hi, List.flatten_append, List.length_append,
      List.flatten_singleton]
  have hle : (parts.take (i + 1)).flatten.length ≤ parts.flatten.length := by
    conv_rhs => rw [← List.take_append_drop (i + 1) parts, List.flatten_append, List.length_append]
    exact Nat.le_add_right _ _
  have hnext : (offsetsFrom (headerSize parts.length) parts).getD (i + 1)
      (encodeParts parts).length = headerSize parts.length + (parts.take (i + 1)).flatten.length := by
    rcases Nat.lt_or_ge (i + 1) parts.length with hlt | hge
    · exact getD_offsetsFrom hlt _
    · rw [List.getD_eq_getElem?_getD, List.getElem?_eq_none (by rwa [length_offsetsFrom]),
        Option.getD_none, List.take_of_length_le hge, hlen]
  rw [Frame.fieldSize, hnext, getD_offsetsFrom hi, sub32_of_le (by omega) (by omega)]
  omega

theorem fieldSize_ofFn {last : ℕ} {encoded : Fin (last + 1) → List UInt8}
    (h : (encodeParts (List.ofFn encoded)).length < 2 ^ 32) (i : Fin (last + 1)) :
    Frame.fieldSize { totalSize := (encodeParts (List.ofFn encoded)).length
                      offsets := offsetsFrom (headerSize (last + 1)) (List.ofFn encoded) } i =
      (encoded i).length := by
  have hi : i.val < (List.ofFn encoded).length := by
    rw [List.length_ofFn]
    exact i.isLt
  have hfield := fieldSize_encoded h hi
  rwa [List.length_ofFn, List.getElem_ofFn] at hfield

/-- The notes of a table. -/
def tableNotes {last : ℕ} (cb : Callbacks E) (fields : Fin (last + 1) → Reader E)
    (encoded : Fin (last + 1) → List UInt8) (notes : Fin (last + 1) → List (Note E)) :
    List (Note E) :=
  (fields ⟨0, last.succ_pos⟩).starts ++ note .void (cb.offsets.map fun f =>
    f (encodeParts (List.ofFn encoded)).length
      (offsetsFrom (headerSize (last + 1)) (List.ofFn encoded))) ++
    (List.ofFn fun i => (if i.val = 0 then [] else (fields i).starts) ++ notes i).flatten ++
    cb.leaving (encodeParts (List.ofFn encoded))

theorem Reads.table {last : ℕ} (cb : Callbacks E) {fields : Fin (last + 1) → Reader E}
    (encoded : Fin (last + 1) → List UInt8) (notes : Fin (last + 1) → List (Note E))
    (h : ∀ i, (fields i).Reads (encoded i).length (encoded i) (notes i))
    (hlt : (encodeParts (List.ofFn encoded)).length < 2 ^ 32)
    (hsize : size = molNumMax ∨ size = (encodeParts (List.ofFn encoded)).length) :
    (Reader.table cb last fields).Reads size (encodeParts (List.ofFn encoded))
      (tableNotes cb fields encoded notes) := by
  have hfields : ∀ i rest, (fields i).scan (Frame.fieldSize
      { totalSize := (encodeParts (List.ofFn encoded)).length
        offsets := offsetsFrom (headerSize (last + 1)) (List.ofFn encoded) } i)
        (encoded i ++ rest) = some (notes i, rest) := by
    intro i rest
    rw [fieldSize_ofFn hlt]
    exact h i rest
  intro rest
  rw [Reader.scan]
  refine left_eq ?_
  obtain ⟨inp, -, hsum, -, -, hnums⟩ := scan_header
    (show (encodeParts (encoded 0 :: List.ofFn fun i => encoded i.succ)).length < 2 ^ 32 by
      rwa [← List.ofFn_succ]) rest
  rw [show encoded 0 :: (List.ofFn fun i => encoded i.succ) = List.ofFn encoded from
    List.ofFn_succ.symm] at hsum hnums
  rw [List.length_ofFn] at hnums
  rw [hsum, Option.bind_some, if_neg (by dsimp only; omega)]
  dsimp only
  rw [hnums, Option.bind_some]
  dsimp only
  rw [scanFields_encoded _ hfields, Option.bind_some]
  rfl

end Reader
end Scan
end NervosLedger.Molecule
