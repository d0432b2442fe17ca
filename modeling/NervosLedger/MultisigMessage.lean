import NervosLedger.LockPieces
import NervosLedger.SighashMessage

/-!
# The message for a multisig lock

The lock of the first witness of a multisig transaction names the keys, and the signatures follow.
Where they begin inside a packet, the rest of that packet goes into the hash as zeros, and every
other byte of the lock as it is.
-/
namespace NervosLedger
open Molecule

/-- The signatures of a multisig lock begin after the keys. -/
def signaturesOffset (lock : List UInt8) : ℕ := 4 + 20 * (lock.getD 3 0).toNat

/-- `z` is the lock with zeros for bytes of the signatures. -/
structure Blanked (lock z : List UInt8) : Prop where
  length : z.length = lock.length
  getElem : ∀ i, z[i]? = lock[i]? ∨ (z[i]? = some 0 ∧ signaturesOffset lock ≤ i)

/-- A lock whose signatures are zeros stays as it is. -/
theorem Blanked.eq_of_unsigned {lock z : List UInt8} (h : Blanked lock z)
    (hz : ∀ i, signaturesOffset lock ≤ i → i < lock.length → lock[i]? = some 0) : z = lock := by
  apply List.ext_getElem?
  intro i
  rcases h.getElem i with he | ⟨he, hle⟩
  · exact he
  · rcases lt_or_ge i lock.length with hi | hi
    · rw [he, hz i hle hi]
    · rw [List.getElem?_eq_none (h.length ▸ hi)] at he
      cases he

/-! ### Zeros -/

/-- The bytes with zeros from `a` up to `b`. -/
def zeroBetween (a b : ℕ) (bs : List UInt8) : List UInt8 :=
  bs.mapIdx fun i x => if a ≤ i ∧ i < b then 0 else x

section Zeros
variable {a b : ℕ} {bs : List UInt8}

@[simp] theorem length_zeroBetween : (zeroBetween a b bs).length = bs.length := List.length_mapIdx

theorem getElem_zeroBetween (i : ℕ) : (zeroBetween a b bs)[i]? =
    bs[i]?.map fun x => if a ≤ i ∧ i < b then 0 else x := List.getElem?_mapIdx

theorem zeroBetween_of_length_le (h : bs.length ≤ a) : zeroBetween a b bs = bs := by
  apply List.ext_getElem?
  intro i
  rw [getElem_zeroBetween]
  rcases lt_or_ge i bs.length with hi | hi
  · rw [List.getElem?_eq_getElem hi, Option.map_some, if_neg (by omega)]
  · rw [List.getElem?_eq_none hi, Option.map_none]

theorem zeroBetween_of_le (h : b ≤ a) : zeroBetween a b bs = bs := by
  apply List.ext_getElem?
  intro i
  have hnot : ¬ (a ≤ i ∧ i < b) := by omega
  simp [getElem_zeroBetween, hnot]

theorem zeroBetween_append (x y : List UInt8) : zeroBetween a b (x ++ y) =
    zeroBetween a b x ++ zeroBetween (a - x.length) (b - x.length) y := by
  rw [zeroBetween, List.mapIdx_append]
  refine congrArg (fun f => zeroBetween a b x ++ y.mapIdx f) ?_
  funext i byte
  exact if_congr (by omega) rfl rfl

theorem zeroBetween_min : zeroBetween a (min bs.length b) bs = zeroBetween a b bs := by
  apply List.ext_getElem?
  intro i
  rw [getElem_zeroBetween, getElem_zeroBetween]
  rcases lt_or_ge i bs.length with hi | hi
  · rw [List.getElem?_eq_getElem hi, Option.map_some, Option.map_some]
    exact congrArg some (if_congr (by omega) rfl rfl)
  · rw [List.getElem?_eq_none hi, Option.map_none, Option.map_none]

/-- Zeros up to the end. -/
theorem zeroBetween_length (h : a ≤ bs.length) : zeroBetween a bs.length bs =
    bs.take a ++ List.replicate (bs.length - a) 0 := by
  apply List.ext_getElem
  · simp
    omega
  · intro i hi hi'
    rw [length_zeroBetween] at hi
    simp only [zeroBetween, List.getElem_mapIdx, List.getElem_append, List.length_take,
      List.getElem_take, List.getElem_replicate]
    split_ifs <;> first | rfl | omega

end Zeros

/-- The lock with zeros for its signatures up to byte `stop`, if it names a key. -/
def blank (stop : ℕ) (lock : List UInt8) : List UInt8 :=
  if lock.getD 3 0 = 0 then lock else zeroBetween (signaturesOffset lock) stop lock

theorem blank_blanked (stop : ℕ) (lock : List UInt8) : Blanked lock (blank stop lock) := by
  unfold blank
  split_ifs with h0
  · exact ⟨rfl, fun _ => .inl rfl⟩
  · refine ⟨length_zeroBetween, fun i => ?_⟩
    rw [getElem_zeroBetween]
    by_cases hi : i < lock.length
    · rw [List.getElem?_eq_getElem hi, Option.map_some]
      split_ifs with hstop
      · exact .inr ⟨rfl, hstop.1⟩
      · exact .inl rfl
    · rw [List.getElem?_eq_none (by omega)]
      exact .inl rfl

theorem blank_of_length_le {lock : List UInt8} (h : lock.length ≤ signaturesOffset lock) (stop : ℕ) :
    blank stop lock = lock := by
  unfold blank
  split_ifs
  · rfl
  · exact zeroBetween_of_length_le h

/-! ### Pieces of a lock -/

/-- What a piece of the lock puts into the hash, where `count` keys are counted. -/
def lockPiece (count consumed : ℕ) (buf : List UInt8) : List UInt8 :=
  if count > 0 ∧ sub32 (4 + 20 * count) consumed > 0 ∧
      buf.length > sub32 (4 + 20 * count) consumed then
    buf.take (sub32 (4 + 20 * count) consumed) ++
      List.replicate (buf.length - sub32 (4 + 20 * count) consumed) 0
  else buf

/-- The lock with zeros from its signatures on in the piece where they begin. -/
def blankPieces (qs : List (List UInt8)) : List UInt8 :=
  blank (pieceEnd qs (signaturesOffset qs.flatten)) qs.flatten

section Pieces
variable {lock buf : List UInt8} {count : ℕ}

theorem getD_key_append (h : 3 < lock.length) : (lock ++ buf).getD 3 0 = lock.getD 3 0 :=
  List.getD_append _ _ _ _ h

theorem signaturesOffset_append (h : 3 < lock.length) :
    signaturesOffset (lock ++ buf) = signaturesOffset lock := by
  rw [signaturesOffset, getD_key_append h, signaturesOffset]

theorem four_le_signaturesOffset (lock : List UInt8) : 4 ≤ signaturesOffset lock :=
  Nat.le_add_right 4 _

/-- A piece in which the signatures do not begin. -/
theorem lockPiece_eq_self {consumed : ℕ} (hlt : consumed + buf.length < 2 ^ 32) (hsmall : count < 256)
    (h : count = 0 ∨ 4 + 20 * count ≤ consumed ∨ consumed + buf.length ≤ 4 + 20 * count) :
    lockPiece count consumed buf = buf := by
  refine if_neg ?_
  unfold sub32
  omega

/-- A piece in which the signatures begin. -/
theorem lockPiece_eq_zeroBetween {consumed : ℕ} (hpos : 0 < count) (hsmall : count < 256)
    (hstart : consumed < 4 + 20 * count) (hend : 4 + 20 * count < consumed + buf.length) :
    lockPiece count consumed buf = zeroBetween (4 + 20 * count - consumed) buf.length buf := by
  have hsub : sub32 (4 + 20 * count) consumed = 4 + 20 * count - consumed :=
    sub32_of_le hstart.le (by omega)
  rw [lockPiece, hsub, if_pos (by omega), zeroBetween_length (by omega)]

variable {qs : List (List UInt8)}

theorem blankPieces_of_length_le (h : qs.flatten.length ≤ signaturesOffset qs.flatten) :
    blankPieces qs = qs.flatten := blank_of_length_le h _

/-- Before the signatures begin. -/
theorem blankPieces_of_lt (h : qs.flatten.length < signaturesOffset (qs.flatten ++ buf)) :
    blankPieces qs = qs.flatten := by
  refine blankPieces_of_length_le ?_
  rcases Nat.lt_or_ge 3 qs.flatten.length with h3 | h3
  · rw [← signaturesOffset_append h3]
    exact h.le
  · exact h3.trans (Nat.le_of_succ_le (four_le_signaturesOffset _))

theorem flatten_concat (qs : List (List UInt8)) (buf : List UInt8) :
    (qs ++ [buf]).flatten = qs.flatten ++ buf := by
  rw [List.flatten_append, List.flatten_singleton]

/-- A piece after the one in which the signatures begin. -/
theorem blankPieces_concat_of_le (h : signaturesOffset qs.flatten ≤ qs.flatten.length)
    (buf : List UInt8) : blankPieces (qs ++ [buf]) = blankPieces qs ++ buf := by
  have hfour := four_le_signaturesOffset qs.flatten
  have h3 : 3 < qs.flatten.length := by omega
  have hend := pieceEnd_le qs (signaturesOffset qs.flatten)
  have hbuf : zeroBetween (signaturesOffset qs.flatten - qs.flatten.length)
      (pieceEnd qs (signaturesOffset qs.flatten) - qs.flatten.length) buf = buf :=
    zeroBetween_of_le (by omega)
  rw [blankPieces, blankPieces, flatten_concat, blank, blank, getD_key_append h3,
    signaturesOffset_append h3, pieceEnd_concat_of_le (by omega) h, zeroBetween_append, hbuf]
  split_ifs <;> rfl

/-- The piece in which the signatures begin, or one before it. -/
theorem blankPieces_concat_of_lt (hkey : (qs.flatten ++ buf).getD 3 0 ≠ 0)
    (h : qs.flatten.length < signaturesOffset (qs.flatten ++ buf)) :
    blankPieces (qs ++ [buf]) = qs.flatten ++
      zeroBetween (signaturesOffset (qs.flatten ++ buf) - qs.flatten.length) buf.length buf := by
  rw [blankPieces, flatten_concat, blank, if_neg hkey, zeroBetween_append,
    zeroBetween_of_length_le h.le, pieceEnd_concat_of_lt h, flatten_concat, List.length_append,
    Nat.add_sub_cancel_left]

/-- One more piece of the lock. -/
theorem blankPieces_concat (hlt : qs.flatten.length + buf.length < 2 ^ 32) (hsmall : count < 256)
    (hcount : 3 < (qs.flatten ++ buf).length → count = ((qs.flatten ++ buf).getD 3 0).toNat) :
    blankPieces (qs ++ [buf]) = blankPieces qs ++ lockPiece count qs.flatten.length buf := by
  have hlen : (qs.flatten ++ buf).length = qs.flatten.length + buf.length := List.length_append
  have hfour := four_le_signaturesOffset (qs.flatten ++ buf)
  have hwhole : (qs.flatten ++ buf).length ≤ signaturesOffset (qs.flatten ++ buf) →
      blankPieces (qs ++ [buf]) = qs.flatten ++ buf := by
    intro h
    rw [blankPieces_of_length_le (by rwa [flatten_concat]), flatten_concat]
  rcases Nat.lt_or_ge 3 (qs.flatten.length + buf.length) with h3 | h3
  · have hkeys := hcount (by omega)
    have hoffset : signaturesOffset (qs.flatten ++ buf) = 4 + 20 * count := by
      rw [signaturesOffset, ← hkeys]
    rcases Nat.lt_or_ge qs.flatten.length (4 + 20 * count) with hstart | hstart
    · rw [blankPieces_of_lt (hstart.trans_eq hoffset.symm)]
      rcases Nat.lt_or_ge (4 + 20 * count) (qs.flatten.length + buf.length) with hend | hend
      · rcases Nat.eq_zero_or_pos count with h0 | hpos
        · have hkey : (qs.flatten ++ buf).getD 3 0 = 0 := UInt8.toNat_inj.mp (hkeys.symm.trans h0)
          rw [blankPieces, flatten_concat, blank, if_pos hkey, lockPiece_eq_self hlt hsmall (.inl h0)]
        · have hkey : (qs.flatten ++ buf).getD 3 0 ≠ 0 := by
            intro h
            rw [hkeys, h] at hpos
            exact absurd hpos (lt_irrefl _)
          rw [blankPieces_concat_of_lt hkey (by omega), hoffset,
            lockPiece_eq_zeroBetween hpos hsmall hstart hend]
      · rw [hwhole (by omega), lockPiece_eq_self hlt hsmall (.inr (.inr hend))]
    · have h3' : 3 < qs.flatten.length := by omega
      rw [signaturesOffset_append h3'] at hoffset
      rw [blankPieces_concat_of_le (by omega), lockPiece_eq_self hlt hsmall (.inr (.inl hstart))]
  · have hfour' := four_le_signaturesOffset qs.flatten
    rw [hwhole (by omega), blankPieces_of_length_le (by omega),
      lockPiece_eq_self hlt hsmall (by omega)]

end Pieces

theorem blankPieces_nil : blankPieces [] = [] := rfl

/-! ### The lock copied -/

namespace SignState

/-- What was absorbed for the first witness. -/
def CopiedAs (g : SignState) : Copying (List (List UInt8)) → Prop
  | .head before => g.hashState = ({} : HashState).absorb (g.tx.transactionHash.toList ++ before) ∧
      g.tx.witnessMultisigLockArgConsumed = 0
  | .body before qs => qs.flatten.length < 2 ^ 32 →
      g.hashState = ({} : HashState).absorb
        (g.tx.transactionHash.toList ++ (before ++ blankPieces qs)) ∧
      g.tx.witnessMultisigLockArgConsumed = qs.flatten.length ∧
      (3 < qs.flatten.length → g.tx.witnessMultisigPubkeysCnt = (qs.flatten.getD 3 0).toNat)
  | .types before qs after => qs.flatten.length < 2 ^ 32 →
      g.hashState = ({} : HashState).absorb
        (g.tx.transactionHash.toList ++ (before ++ blankPieces qs ++ after))
  | .lost => True

/-- A state agrees with what goes into the hash, unless the transaction is rejected. -/
def Copies (g : SignState) (s : Copying (List (List UInt8))) : Prop :=
  g.signingMultisigInput = true ∧ (g.Refused ∨ g.CopiedAs s)

section Steps
variable {g : SignState}

/-- What is absorbed in one piece goes into the hash after the rest. -/
theorem absorb_hash {bs : List UInt8}
    (h : g.hashState = ({} : HashState).absorb (g.tx.transactionHash.toList ++ bs)) (buf : List UInt8) :
    (g.blake2bChunk buf).hashState =
      ({} : HashState).absorb (g.tx.transactionHash.toList ++ (bs ++ buf)) := by
  rw [blake2bChunk, h, HashState.absorb_absorb, List.append_assoc]

/-- The number of keys, as far as it is known where a piece of the lock is read. -/
def keysCount (g : SignState) (buf following : List UInt8) : ℕ :=
  if g.tx.witnessMultisigLockArgConsumed < 4 then
    ((buf ++ following).getD (3 - g.tx.witnessMultisigLockArgConsumed) 0).toNat
  else g.tx.witnessMultisigPubkeysCnt

/-- What a piece of the lock does, unless it is rejected. -/
theorem witnessLockArgBodyChunk_cases (hm : g.signingMultisigInput = true)
    (buf following : List UInt8) :
    (g.witnessLockArgBodyChunk buf following).Refused ∨
      ∃ threshold, g.witnessLockArgBodyChunk buf following =
        { g.blake2bChunk (lockPiece (g.keysCount buf following)
            g.tx.witnessMultisigLockArgConsumed buf) with
          tx.witnessMultisigThreshold := threshold
          tx.witnessMultisigPubkeysCnt := g.keysCount buf following
          tx.witnessMultisigLockArgConsumed :=
            (g.tx.witnessMultisigLockArgConsumed + buf.length) % 2 ^ 32 } := by
  unfold witnessLockArgBodyChunk
  rw [if_neg (by simp [hm])]
  dsimp only
  split
  · exact .inl (.inl rfl)
  · exact .inr ⟨_, rfl⟩

theorem keysCount_eq {lock : List UInt8} (buf following : List UInt8)
    (hconsumed : g.tx.witnessMultisigLockArgConsumed = lock.length)
    (hcount : 3 < lock.length → g.tx.witnessMultisigPubkeysCnt = (lock.getD 3 0).toNat) :
    g.keysCount buf following < 256 ∧
      (3 < (lock ++ buf).length → g.keysCount buf following = ((lock ++ buf).getD 3 0).toNat) := by
  unfold keysCount
  rw [hconsumed, List.length_append]
  split_ifs with h4
  · refine ⟨UInt8.toNat_lt _, fun h3 => ?_⟩
    rw [List.getD_append _ _ _ _ (by omega), List.getD_append_right _ _ _ _ (by omega)]
  · rw [hcount (by omega)]
    exact ⟨UInt8.toNat_lt _, fun _ => by rw [List.getD_append _ _ _ _ (by omega)]⟩

/-- A piece of the lock. -/
theorem CopiedAs.lockBody {before : List UInt8} {qs : List (List UInt8)}
    (h : g.CopiedAs (.body before qs)) (hm : g.signingMultisigInput = true)
    (buf following : List UInt8) : (g.witnessLockArgBodyChunk buf following).Refused ∨
      (g.witnessLockArgBodyChunk buf following).CopiedAs (.body before (qs ++ [buf])) := by
  refine (witnessLockArgBodyChunk_cases hm buf following).imp id ?_
  rintro ⟨threshold, hchunk⟩ hlt
  rw [flatten_concat, List.length_append] at hlt
  obtain ⟨hhash, hconsumed, hcount⟩ := h (by omega)
  obtain ⟨hsmall, hkeys⟩ := keysCount_eq buf following hconsumed hcount
  rw [hchunk, hconsumed, blankPieces_concat hlt hsmall hkeys, flatten_concat]
  refine ⟨?_, ?_, hkeys⟩
  · rw [← List.append_assoc before]
    exact absorb_hash hhash _
  · dsimp only
    rw [Nat.mod_eq_of_lt hlt, List.length_append]

section Events
variable {s : Copying (List (List UInt8))} (h : g.CopiedAs s)
include h

theorem CopiedAs.offsets (hm : g.signingMultisigInput = true) (totalSize : ℕ) (offsets : List ℕ) :
    (g.witnessOffsets totalSize offsets).CopiedAs (s.offsets totalSize offsets) := by
  cases s with
  | head before =>
    simp only [witnessOffsets, hm, if_true]
    refine ⟨?_, h.2⟩
    have hall := absorb_hash (absorb_hash h.1 (leBytes 8 totalSize)) (le32 totalSize ++
      le32 (offsets.getD 0 0) ++ le32 (offsets.getD 1 0) ++ le32 (offsets.getD 2 0))
    rw [List.append_assoc before] at hall
    exact hall
  | _ => exact trivial

theorem CopiedAs.lockSize (hm : g.signingMultisigInput = true) {size : ℕ} (hs : 4 ≤ size) :
    (g.witnessLockArgSize size).1.CopiedAs (s.lockSize .pieces size) := by
  unfold witnessLockArgSize
  rw [if_neg (by simp [hm]), if_neg (by omega)]
  cases s with
  | head before =>
    intro _
    refine ⟨?_, h.2, fun h3 => absurd h3 (by simp [Joining.pieces])⟩
    have hempty : blankPieces Joining.pieces.none = [] := blankPieces_nil
    rw [hempty, List.append_nil]
    exact absorb_hash h.1 _
  | _ => exact trivial

theorem CopiedAs.typeChunk (buf : List UInt8) :
    (g.blake2bChunk buf).CopiedAs (s.typeChunk .pieces buf) := by
  cases s with
  | head before =>
    intro _
    have hempty : blankPieces Joining.pieces.none = [] := blankPieces_nil
    rw [hempty, List.append_nil]
    exact absorb_hash h.1 buf
  | body before qs =>
    intro hlt
    exact absorb_hash (h hlt).1 buf
  | types before qs after =>
    intro hlt
    have hall := absorb_hash (h hlt) buf
    rw [List.append_assoc (before ++ blankPieces qs)] at hall
    exact hall
  | lost => exact trivial

end Events

/-- Events whose sizes count that of the length. -/
def Sized : WitnessEvent → Prop
  | .lockSize size => 4 ≤ size
  | _ => True

theorem sized_every : witnessArgsSizedCallbacks.Every Sized := by
  simp [witnessArgsSizedCallbacks, Reader.witnessArgs, Reader.bytesOpt, Reader.Every,
    Callbacks.every_mk, Fin.forall_fin_succ, Sized]

/-- The callbacks of the first witness copy it, unless they reject it. -/
theorem copies_sameAt (beyond : List UInt8) {e : WitnessEvent} (he : Sized e) :
    SameAt (witnessHandler beyond) (copying .pieces) Copies e where
  run {g s} hg := by
    obtain ⟨hm, hcopies⟩ := hg
    have hframe := (witnessHandler_frame beyond g.witnessFrame e).run rfl
    refine ⟨(congrArg (fun x => x.2.1) hframe).trans hm, ?_⟩
    rcases hcopies with hr | h
    · exact .inl (((witnessHandler_onward g beyond e).run (.refl g)).refused hr)
    · cases e with
      | offsets totalSize offsets => exact .inr (h.offsets hm totalSize offsets)
      | lockBody buf following =>
        cases s with
        | body before lock => exact h.lockBody hm buf _
        | _ => exact .inr trivial
      | inputTypeChunk buf => exact .inr (h.typeChunk buf)
      | outputTypeChunk buf => exact .inr (h.typeChunk buf)
      | lockSize size => exact .inr h
  ask {g s} hg := by
    cases e with
    | lockSize size =>
      obtain ⟨hm, hcopies⟩ := hg
      have hframe := (witnessHandler_frame beyond g.witnessFrame (.lockSize size)).ask rfl
      have hsize : 4 ≤ size := he
      have hallowed : (g.witnessLockArgSize size).2 = true := by
        unfold witnessLockArgSize
        rw [if_neg (by simp [hm]), if_neg (by omega)]
      refine ⟨hallowed, (congrArg (fun x => x.2.1) hframe).trans hm, ?_⟩
      rcases hcopies with hr | h
      · exact .inl (((witnessHandler_onward g beyond (.lockSize size)).ask (.refl g)).refused hr)
      · exact .inr (h.lockSize hm hsize)
    | _ => exact ⟨rfl, hg⟩
  finish hg := ⟨rfl, hg⟩

/-- How the pieces of the lock come from those of the witness. -/
def CopiesPieces (w : WitnessArgs) (ps : List (List UInt8)) (g : SignState)
    (s : Copying (List UInt8)) : Prop :=
  ∃ q, g.Copies q ∧ q.map List.flatten = s ∧
    Window 20 (w.lock.getD []).length ps (q.lock .pieces)

theorem copying_tracks (w : WitnessArgs) : Tracks true (copying .bytes) (CopiesPieces w)
    (fun a s => ∀ m, s.Past m ↔ m ≤ min (w.lock.getD []).length (a.length - 20)) (.head []) where
  collecting := copying_collecting
  obliging := copying_obliging .bytes
  call {ps g s} beyond buf hR := by
    obtain ⟨q, hcopies, rfl, hwindow⟩ := hR
    have hreal := Reader.parse_agrees (sized_every.mono fun _ => copies_sameAt beyond)
      g.tx.witnessStack molNumMax buf hcopies
    have hbytes := Reader.parse_agrees (Reader.every_of_forall copying_pieces
      witnessArgsSizedCallbacks) g.tx.witnessStack molNumMax buf
      (rfl : q.map List.flatten = q.map List.flatten)
    have hturns := copying_turns (q.lock .pieces) g.tx.witnessStack molNumMax buf q (.inr rfl)
    generalize witnessArgsSizedCallbacks.parse (witnessHandler beyond) _ _ _ _ = r₁ at hreal ⊢
    generalize witnessArgsSizedCallbacks.parse (copying .pieces) _ _ _ _ = r₂
      at hreal hbytes hturns
    generalize witnessArgsSizedCallbacks.parse (copying .bytes) _ _ _ _ = r₃ at hbytes ⊢
    obtain ⟨hmap⟩ := hbytes
    rename_i rv st rest q' s' d
    obtain ⟨hcopies'⟩ := hreal
    subst hmap
    refine .same fun hsound => ⟨q', hcopies', rfl, ?_⟩
    obtain ⟨hne, hlength⟩ := Copying.length_of_past hsound
    refine hwindow.piece buf (hturns.resolve_left hne) ?_
    rw [hlength, List.flatten_append, List.flatten_singleton]
  begins g hg := by
    refine ⟨.head [], ⟨hg, .inr ⟨?_, rfl⟩⟩, rfl, .nil⟩
    simp [beginWitness, restartHash, blake2bChunk]
  restack {ps g s} _ h := by
    obtain ⟨q, hcopies, hmap, hwindow⟩ := h
    exact ⟨q, by cases q <;> exact hcopies, hmap, hwindow⟩
  witnessStack {ps g s} _ h := by
    obtain ⟨q, hcopies, hmap, hwindow⟩ := h
    exact ⟨q, by cases q <;> exact hcopies, hmap, hwindow⟩
  done {ps g s} h := by
    obtain ⟨q, hcopies, hmap, hwindow⟩ := h
    exact ⟨q, by cases q <;> exact hcopies, hmap, hwindow⟩

end Steps
end SignState

namespace WitnessArgs
variable (w : WitnessArgs)

/-- The signature bytes of the lock are zeros. -/
def BlankSignatures : Prop :=
  ∀ lock ∈ w.lock, ∀ i, signaturesOffset lock ≤ i → i < lock.length → lock[i]? = some 0

theorem encode_eq : w.encode = w.header ++ (encodeBytesOpt w.lock ++
    (encodeBytesOpt w.inputType ++ encodeBytesOpt w.outputType)) := by
  have hlen : w.encode.length = headerSize 3 + w.fields.flatten.length := length_encodeParts w.fields
  rw [header, hlen]
  change encodeParts w.fields = _
  rw [encodeParts]
  simp [fields]

theorem header_congr {lock : Option (List UInt8)}
    (hlen : (encodeBytesOpt lock).length = (encodeBytesOpt w.lock).length) :
    ({ w with lock := lock } : WitnessArgs).header = w.header := by
  have hencode : ({ w with lock := lock } : WitnessArgs).encode.length = w.encode.length := by
    rw [length_encode, length_encode]
    simp only [hlen]
  simp only [header, hencode, fields, offsetsFrom, hlen]

end WitnessArgs

/-- The lock of the first witness as it goes into the hash: where its signatures begin inside a
packet, the rest of that packet is zeros. -/
def hashedLock (sent : List Sent) (t : AnnotatedTransaction) (lock : List UInt8) : List UInt8 :=
  let start := t.witnessStart + 20
  blank (pieceEnd (SignState.chunks sent) (start + signaturesOffset lock) - start) lock

theorem blank_congr {lock : List UInt8} {stop stop' : ℕ} (h : signaturesOffset lock < lock.length →
    min lock.length stop = min lock.length stop') : blank stop lock = blank stop' lock := by
  rcases Nat.lt_or_ge (signaturesOffset lock) lock.length with hlt | hge
  · rw [blank, blank, ← zeroBetween_min, h hlt, zeroBetween_min]
  · rw [blank_of_length_le hge, blank_of_length_le hge]

/-- The packets cut the lock as they cut the transaction. -/
theorem blankPieces_eq_hashedLock {sent : List Sent} {t : AnnotatedTransaction} {w : WitnessArgs}
    {lock : List UInt8} {ps qs : List (List UInt8)} (hw : w.lock = some lock)
    (hps : ps.flatten = w.encode) (hqs : qs.flatten = lock)
    (hwitness : Window t.witnessStart w.encode.length (SignState.chunks sent) ps)
    (hlock : Window 20 (w.lock.getD []).length ps qs) : blankPieces qs = hashedLock sent t lock := by
  subst hqs
  have hlen := w.length_encode
  rw [hw, encodeBytesOpt, length_encodeBytes] at hlen
  rw [hw, Option.getD_some] at hlock
  refine blank_congr fun hlt => ?_
  have hsent := hwitness.length_eq
  have hfour := four_le_signaturesOffset qs.flatten
  rw [hps] at hsent
  rw [hlock.pieceEnd_eq (by omega) hlt.le (by rw [hps]; omega),
    hwitness.pieceEnd_eq (by omega) (by omega) (by omega)]
  rw [Nat.add_assoc]
  omega

namespace SignState
variable {sdk : Sdk}

section Witness
variable {g : SignState} {sent : List Sent} {t : AnnotatedTransaction} {w : WitnessArgs}
  {ps : List (List UInt8)}

/-- What was absorbed for a first witness is that witness, with zeros in its lock. -/
theorem CopiedAs.witness {q : Copying (List (List UInt8))} (h : g.CopiedAs q)
    (hlt : w.encode.length < 2 ^ 32)
    (hq : q.map List.flatten = (copying .bytes).replay w.notes (.head []))
    (hps : ps.flatten = w.encode)
    (hwitness : Window t.witnessStart w.encode.length (chunks sent) ps)
    (hlock : Window 20 (w.lock.getD []).length ps (q.lock .pieces)) :
    g.hashState = ({} : HashState).absorb (g.tx.transactionHash.toList ++
      encodeWitness ({ w with lock := w.lock.map (hashedLock sent t) } : WitnessArgs).encode) := by
  have hlen := w.length_encode
  cases hw : w.lock with
  | none =>
    rw [copying_none hw] at hq
    obtain ⟨qs, rfl, hqs⟩ := Copying.eq_types hq
    have hhash := h (by simp [hqs])
    rw [blankPieces_of_length_le (by simp [hqs]), hqs] at hhash
    have hsame : ({ w with lock := none } : WitnessArgs) = w := by rw [← hw]
    rw [Option.map_none, hsame, hhash, encodeWitness, w.encode_eq, hw]
    simp [encodeBytesOpt]
  | some lock =>
    rw [copying_some hw] at hq
    rw [hw, encodeBytesOpt, length_encodeBytes] at hlen
    obtain ⟨qs, rfl, hqs⟩ := Copying.eq_types hq
    have hhash := h (by rw [hqs]; omega)
    rw [blankPieces_eq_hashedLock hw hps hqs hwitness hlock] at hhash
    have hz : (hashedLock sent t lock).length = lock.length := (blank_blanked _ lock).length
    have hsize : (encodeBytesOpt (some (hashedLock sent t lock))).length =
        (encodeBytesOpt w.lock).length := by
      rw [hw, encodeBytesOpt, encodeBytesOpt, length_encodeBytes, length_encodeBytes, hz]
    have hencode : ({ w with lock := some (hashedLock sent t lock) } : WitnessArgs).encode.length =
        w.encode.length := by
      rw [WitnessArgs.length_encode, WitnessArgs.length_encode]
      simp only [hsize]
    rw [Option.map_some, hhash, encodeWitness, hencode,
      WitnessArgs.encode_eq { w with lock := some (hashedLock sent t lock) }, w.header_congr hsize]
    simp [encodeBytesOpt, encodeBytes, hz]

end Witness

/-- Where the signatures are those of several keys, the message is that of the transaction and of
its witnesses, the first of which has zeros in its lock up to the end of a packet. -/
theorem multisigSighash_exact {sent : List Sent} (ha : Accepts sdk sent) {t : AnnotatedTransaction}
    (hfit : t.Fits) (hp : payload sent = t.encode) {w : WitnessArgs} {ws : List (List UInt8)}
    (hw : t.witnesses = w.encode :: ws) (hm : (accepted sdk sent).signingMultisigInput = true) :
    Option.Rel Blanked w.lock (w.lock.map (hashedLock sent t)) ∧
      (w.BlankSignatures → w.lock.map (hashedLock sent t) = w.lock) ∧
      (accepted sdk sent).tx.finalHash = sdk.blake2b []
        ((accepted sdk sent).tx.transactionHash.toList ++
          (({ w with lock := w.lock.map (hashedLock sent t) } : WitnessArgs).encode ::
            ws).flatMap encodeWitness) := by
  obtain ⟨ps, hps, hwitness, m, g₁, hh, hfinal⟩ := ha.signs hfit hw hp
  obtain rfl : m = true := hh.multisig.symm.trans hm
  have hlt := length_firstWitness hfit hw
  have hlt' : w.encode.length < 2 ^ 32 := by omega
  obtain ⟨hd, q, ⟨-, hcopies⟩, hq, hlock⟩ := hh.run.complete (copying_tracks w) hlt'
    (fun a ha m => copying_counted hlt' ha m) hps
  have hsafe : ¬ (feedAll sdk sent).1.Refused := by
    rintro (hu | hr)
    · exact absurd (ha.isUnsafe.symm.trans hu) Bool.false_ne_true
    · exact absurd (ha.hardReject.symm.trans hr) Bool.false_ne_true
  have hcopied := hcopies.resolve_left fun hr => hsafe (hh.refused hr)
  have hhash := hcopied.witness hlt' hq hps hwitness hlock
  have hended : g₁.processWitnessEnd = g₁ := by
    rw [processWitnessEnd, if_neg (by simp [hd])]
  have htx : (accepted sdk sent).tx.transactionHash = g₁.tx.transactionHash := hh.transactionHash
  have hall : (accepted sdk sent).tx.finalHash = _ := hfinal
  refine ⟨?_, ?_, ?_⟩
  · cases w.lock with
    | none => exact .none
    | some lock => exact .some (blank_blanked _ lock)
  · intro hblank
    cases hl : w.lock with
    | none => rfl
    | some lock =>
      exact congrArg some ((blank_blanked _ lock).eq_of_unsigned (hblank lock hl))
  · rw [hall, hended, hhash, htx]
    simp

/-- A lock for three keys of three, with three signatures. -/
def sampleMultisigLock (signatures : List UInt8) : List UInt8 :=
  [0, 0, 3, 3] ++ List.replicate 60 0x33 ++ signatures

def multisigPayment : AnnotatedTransaction :=
  sampleTransaction
    [sampleInput [sampleCell (multisigLockOf (List.replicate 20 0x22)) 10000000001] [[]]]
    [sampleCell (sighashLock (List.replicate 20 0x11)) 10000000000] [[]]
    [WitnessArgs.encode { lock := some (sampleMultisigLock (List.replicate 195 0x44)) }]

/-- The last packet begins with byte 136 of the signatures. -/
theorem multisigPayment_signed :
    (accepted (keySdk []) (samplePackets {} multisigPayment.encode)).tx.finalHash =
      (keySdk []).blake2b [] ((accepted (keySdk [])
          (samplePackets {} multisigPayment.encode)).tx.transactionHash.toList ++
        encodeWitness (WitnessArgs.encode { lock := some (sampleMultisigLock
          (List.replicate 136 0 ++ List.replicate 59 0x44)) })) := by
  obtain ⟨ha, hm⟩ := @accepts_of_run (keySdk []) (samplePackets {} multisigPayment.encode)
    (fun g => g.signingMultisigInput) (by decide +kernel) (by decide +kernel)
  have hlock : hashedLock (samplePackets {} multisigPayment.encode) multisigPayment
      (sampleMultisigLock (List.replicate 195 0x44)) =
      sampleMultisigLock (List.replicate 136 0 ++ List.replicate 59 0x44) := by decide +kernel
  obtain ⟨-, -, hsigned⟩ := @multisigSighash_exact (keySdk []) _ ha multisigPayment
    (by decide +kernel) (by decide +kernel)
    { lock := some (sampleMultisigLock (List.replicate 195 0x44)) } [] rfl hm
  rw [hsigned, Option.map_some, hlock]
  simp

end SignState
end NervosLedger
