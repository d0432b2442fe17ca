import NervosLedger.FirstWitness
import NervosLedger.Molecule.Places
import NervosLedger.Molecule.Windows

/-!
# The pieces of a lock

The lock of the first witness of a multisig transaction is copied into the hash piece by piece. A
piece of the witness holds one piece of the lock at most, and how much of the lock was copied
follows from how much of the witness was read.
-/
namespace NervosLedger
open Molecule
open Reader (Reads)

/-- What goes into the hash for the first witness of a multisig transaction, with its lock apart. -/
inductive Copying (α : Type) where
  | head (before : List UInt8)
  | body (before : List UInt8) (lock : α)
  | types (before : List UInt8) (lock : α) (after : List UInt8)
  | lost

namespace Copying
variable {α β : Type} (j : Joining α)

def offsets (totalSize : ℕ) (offsets : List ℕ) : Copying α → Copying α
  | .head before => .head (before ++ (leBytes 8 totalSize ++ (le32 totalSize ++
      le32 (offsets.getD 0 0) ++ le32 (offsets.getD 1 0) ++ le32 (offsets.getD 2 0))))
  | _ => .lost

def lockSize (size : ℕ) : Copying α → Copying α
  | .head before => .body (before ++ le32 (size - 4)) j.none
  | _ => .lost

def lockBody (buf : List UInt8) : Copying α → Copying α
  | .body before lock => .body before (j.add lock buf)
  | _ => .lost

def typeChunk (buf : List UInt8) : Copying α → Copying α
  | .head before => .types before j.none buf
  | .body before lock => .types before lock buf
  | .types before lock after => .types before lock (after ++ buf)
  | .lost => .lost

/-- The lock, as far as it was copied. -/
def lock : Copying α → α
  | .head _ | .lost => j.none
  | .body _ lock | .types _ lock _ => lock

def map (f : α → β) : Copying α → Copying β
  | .head before => .head before
  | .body before lock => .body before (f lock)
  | .types before lock after => .types before (f lock) after
  | .lost => .lost

end Copying

/-- The callbacks of the first witness, as far as its hash goes, if its lock is for several keys. -/
def copying {α : Type} (j : Joining α) : Handler WitnessEvent (Copying α) Exc where
  run
    | .offsets totalSize offsets => Copying.offsets totalSize offsets
    | .lockBody buf _ => Copying.lockBody j buf
    | .inputTypeChunk buf | .outputTypeChunk buf => Copying.typeChunk j buf
    | .lockSize _ => id
  ask
    | .lockSize size => fun s => (s.lockSize j size, true)
    | _ => fun s => (s, true)
  finish _ s := (s, none)

theorem copying_obliging {α : Type} (j : Joining α) : Obliging (copying j) := by
  constructor
  · intro e s
    cases e <;> rfl
  · exact fun _ _ => rfl

theorem copying_collecting : witnessArgsSizedCallbacks.Collecting (copying .bytes) := by
  refine witnessArgsSized_collecting ?_ ?_ ?_
  · intro a b x y z s
    cases s <;> simp [copying, Copying.lockBody, Joining.bytes]
  · intro a b s
    cases s <;> simp [copying, Copying.typeChunk]
  · intro a b s
    cases s <;> simp [copying, Copying.typeChunk]

/-- The pieces of the lock make up its bytes. -/
theorem copying_pieces (e : WitnessEvent) :
    SameAt (copying .pieces) (copying .bytes) (fun s t => s.map List.flatten = t) e where
  run := by
    rintro s _ rfl
    cases e with
    | lockBody buf following =>
      cases s <;> simp [copying, Copying.lockBody, Copying.map, Joining.pieces, Joining.bytes]
    | _ => cases s <;> rfl
  ask := by
    rintro s _ rfl
    cases e <;> cases s <;> exact ⟨rfl, rfl⟩
  finish := by
    rintro s _ rfl
    exact ⟨rfl, rfl⟩

theorem Copying.lock_flatten (s : Copying (List (List UInt8))) :
    (s.map List.flatten).lock .bytes = (s.lock .pieces).flatten := by
  cases s <;> rfl

theorem Copying.eq_types {s : Copying (List (List UInt8))} {before lock after : List UInt8}
    (h : s.map List.flatten = .types before lock after) :
    ∃ qs, s = .types before qs after ∧ qs.flatten = lock := by
  cases s with
  | types before' qs after' =>
    injection h with hbefore hlock hafter
    exact ⟨qs, by rw [hbefore, hafter], hlock⟩
  | _ => cases h

/-! ### One piece at most -/

namespace Copying

section Kept
variable {α : Type} (j : Joining α)

theorem run_kept {e : WitnessEvent} (he : ∀ buf following, e ≠ .lockBody buf following)
    (s : Copying α) : Kept .lost (lock j) s ((copying j).run e s) := by
  cases e with
  | lockBody buf following => exact absurd rfl (he buf following)
  | offsets totalSize offsets => cases s <;> simp [Kept, copying, Copying.offsets, lock]
  | lockSize size => cases s <;> simp [Kept, copying]
  | _ => cases s <;> simp [Kept, copying, typeChunk, lock]

theorem ask_kept (e : WitnessEvent) (s : Copying α) :
    Kept .lost (lock j) s ((copying j).ask e s).1 := by
  cases e with
  | lockSize size => cases s <;> simp [Kept, copying, lockSize, lock]
  | _ => cases s <;> simp [Kept, copying]

theorem finish_kept (e : WitnessEvent) (s : Copying α) :
    Kept .lost (lock j) s ((copying j).finish e s).1 := by
  cases s <;> simp [Kept, copying]

end Kept

/-- At most one piece was added to `ps`. -/
def AtMost (ps : List (List UInt8)) : Copying (List (List UInt8)) → Prop :=
  Known .lost (lock .pieces) (OneMore ps)

/-- No piece was added to `ps`. -/
def Fresh (ps : List (List UInt8)) : Copying (List (List UInt8)) → Prop :=
  Known .lost (lock .pieces) (· = ps)

section Once
variable {ps : List (List UInt8)} {s s' : Copying (List (List UInt8))}

theorem Fresh.atMost (h : Fresh ps s) : AtMost ps s := by
  refine h.mono ?_
  rintro _ rfl
  exact .inl rfl

/-- A new piece. -/
theorem Fresh.lockBody (h : Fresh ps s) (buf : List UInt8) :
    AtMost ps (s.lockBody .pieces buf) := by
  cases s with
  | body before lock =>
    obtain rfl : lock = ps := h.resolve_left (by simp)
    exact .inr (.inr ⟨buf, rfl⟩)
  | _ => exact .inl rfl

end Once
end Copying

/-- The callbacks of a lock. -/
def lockItem : Callbacks WitnessEvent :=
  { size := some fun n => .lockSize (n - 4 + 4), bodyChunk := some .lockBody }

theorem copying_keepsBoth (ps : List (List UInt8)) {e : WitnessEvent}
    (he : ∀ buf following, e ≠ .lockBody buf following) :
    KeepsBoth (copying .pieces) (Copying.Fresh ps) (Copying.AtMost ps) e where
  before := ⟨fun h => h.kept (Copying.run_kept .pieces he _),
    fun h => h.kept (Copying.ask_kept .pieces e _),
    fun h => h.kept (Copying.finish_kept .pieces e _)⟩
  after := ⟨fun h => h.kept (Copying.run_kept .pieces he _),
    fun h => h.kept (Copying.ask_kept .pieces e _),
    fun h => h.kept (Copying.finish_kept .pieces e _)⟩

/-- A piece of the witness holds one piece of the lock at most. -/
theorem copying_turns (ps : List (List UInt8)) : witnessArgsSizedCallbacks.Turns (copying .pieces)
    (Copying.Fresh ps) (Copying.AtMost ps) := by
  have hPQ : ∀ s, Copying.Fresh ps s → Copying.AtMost ps s := fun _ h => h.atMost
  have hbytes : (Reader.bytes lockItem).Turns (copying .pieces) (Copying.Fresh ps)
      (Copying.AtMost ps) := by
    refine Reader.Turns.bytes hPQ ?_ ?_ (by simp [lockItem])
    · rintro _ ⟨rfl⟩ n
      exact (copying_keepsBoth ps (by simp)).before
    · rintro _ ⟨rfl⟩ a x s h
      exact h.lockBody a
  have hoption : (Reader.bytesOpt {} lockItem).Turns (copying .pieces) (Copying.Fresh ps)
      (Copying.AtMost ps) := Reader.Turns.option hPQ (by simp [Callbacks.every_mk]) hbytes
  refine Reader.Turns.table hPQ ?_ 0 (fun j hj => ?_) (fun _ => rfl) hoption
  · simp [Callbacks.every_mk, copying_keepsBoth]
  · match j with
    | 0 => exact absurd rfl hj
    | 1 | 2 => simp [Reader.bytesOpt, Reader.Every, Callbacks.every_mk, copying_keepsBoth]

/-! ### How much was copied -/

namespace Copying

/-- At least `m` bytes of the lock were copied, if the calls are those of a witness. -/
def Past (m : ℕ) : Copying (List UInt8) → Prop := Known .lost (lock .bytes) (m ≤ ·.length)

theorem Past.run {m : ℕ} {s : Copying (List UInt8)} (h : s.Past m) (e : WitnessEvent) :
    ((copying .bytes).run e s).Past m := by
  cases e with
  | lockBody buf following =>
    cases s with
    | body before bs =>
      have hle : m ≤ bs.length := h.resolve_left (by simp)
      exact .inr (hle.trans (by simp [copying, Copying.lockBody, lock, Joining.bytes]))
    | _ => exact .inl rfl
  | _ => exact h.kept (run_kept .bytes (by simp) s)

/-- How much was copied in pieces. -/
theorem length_of_past {n : ℕ} {s : Copying (List (List UInt8))}
    (h : ∀ m, (s.map List.flatten).Past m ↔ m ≤ n) :
    s ≠ .lost ∧ (s.lock .pieces).flatten.length = n := by
  obtain ⟨hne, hlength⟩ := length_of_known h
  rw [lock_flatten] at hlength
  refine ⟨?_, hlength⟩
  rintro rfl
  exact hne rfl

end Copying

theorem copying_counts : Counts (copying .bytes) Copying.Past where
  zero _ := .inr (Nat.zero_le _)
  le hmn h := h.imp id hmn.trans
  keeps _ e := ⟨fun h => h.run e, fun h => h.kept (Copying.ask_kept .bytes e _),
    fun h => h.kept (Copying.finish_kept .bytes e _)⟩

/-- The header of a `WitnessArgs`. -/
def WitnessArgs.header (w : WitnessArgs) : List UInt8 :=
  le32 w.encode.length ++ (offsetsFrom (headerSize 3) w.fields).flatMap le32

section Places
variable {w : WitnessArgs}

/-- What a first witness puts into the hash, with its lock apart. -/
theorem copying_none (hw : w.lock = none) :
    (copying .bytes).replay w.notes (.head []) = .types (leBytes 8 w.encode.length ++ w.header) []
      (encodeBytesOpt w.inputType ++ encodeBytesOpt w.outputType) := by
  simp [WitnessArgs.notes, hw, lockNotes, Handler.apply, copying, Copying.offsets, Copying.typeChunk,
    WitnessArgs.header, WitnessArgs.fields, offsetsFrom, Joining.bytes]

theorem copying_some {lock : List UInt8} (hw : w.lock = some lock) :
    (copying .bytes).replay w.notes (.head []) =
      .types (leBytes 8 w.encode.length ++ w.header ++ le32 lock.length) lock
        (encodeBytesOpt w.inputType ++ encodeBytesOpt w.outputType) := by
  by_cases hl : lock = []
  · subst hl
    simp [WitnessArgs.notes, hw, lockNotes, Handler.apply, copying, Copying.offsets, Copying.lockSize,
      Copying.typeChunk, WitnessArgs.header, WitnessArgs.fields, offsetsFrom, Joining.bytes]
  · simp [WitnessArgs.notes, hw, lockNotes, Handler.apply, copying, Copying.offsets, Copying.lockSize,
      Copying.lockBody, Copying.typeChunk, WitnessArgs.header, WitnessArgs.fields, offsetsFrom, hl,
      Joining.bytes]

variable (hlt : w.encode.length < 2 ^ 32)
include hlt

/-- Behind the header of a witness, its lock is read. -/
theorem copying_enters {lock : List UInt8} (hw : w.lock = some lock) :
    ∃ pre es, witnessArgsSizedCallbacks.Enters (copying .bytes) molNumMax pre es (.bytes lockItem)
        (lock.length + 4) ∧ pre.length = 16 ∧
      (∃ post, w.encode = pre ++ (encodeBytes lock ++ post)) ∧ ∃ before, (copying .bytes).replay es (.head []) = .head before := by
  have hsize : (encodeBytes lock).length = lock.length + 4 := by
    rw [length_encodeBytes, Nat.add_comm]
  have hfields : w.encode = encodeParts [encodeBytes lock, encodeBytesOpt w.inputType,
      encodeBytesOpt w.outputType] := by
    rw [WitnessArgs.encode, WitnessArgs.fields, hw, encodeBytesOpt]
  have hlock : (Reader.bytesOpt {} lockItem).Enters (copying .bytes) (lock.length + 4) [] []
      (.bytes lockItem) (lock.length + 4) :=
    Reader.Enters.option rfl (Nat.succ_ne_zero _) (Reader.Enters.self _ _)
  rw [← hsize] at hlock ⊢
  have htable : witnessArgsSizedCallbacks.Enters (copying .bytes) molNumMax _ _
      (.bytes lockItem) _ := Reader.Enters.table
    ![encodeBytes lock, encodeBytesOpt w.inputType, encodeBytesOpt w.outputType] (fun _ => []) rfl
    (copying_obliging .bytes) (hfields ▸ hlt) (.inl rfl) 0
    (fun j hj => absurd hj (Fin.not_lt_zero j)) hlock
  refine ⟨_, _, htable, rfl, ⟨encodeBytesOpt w.inputType ++ encodeBytesOpt w.outputType, ?_⟩, ?_⟩
  · rw [hfields, encodeParts_eq]
    simp
  · exact ⟨_, rfl⟩

theorem copying_whole : ∃ st, witnessArgsSizedCallbacks.parse (copying .bytes)
    witnessArgsSizedCallbacks.initState molNumMax w.encode (.head []) =
      ⟨.complete, st, [], (copying .bytes).replay w.notes (.head []), false⟩ := by
  have hscan := witnessArgs_reads hlt []
  rw [List.append_nil] at hscan
  exact Reader.parse_scan copying_collecting.fluid.blind (copying_obliging .bytes) hscan _

/-- How much of the lock was copied follows from how much of the witness was read. -/
theorem copying_counted {a : List UInt8} (ha : a <+: w.encode) (m : ℕ) :
    (witnessArgsSizedCallbacks.parse (copying .bytes) witnessArgsSizedCallbacks.initState molNumMax a
      (.head [])).g.Past m ↔ m ≤ min (w.lock.getD []).length (a.length - 20) := by
  obtain ⟨st, hwhole⟩ := copying_whole hlt
  obtain ⟨b, hab⟩ := ha
  cases hw : w.lock with
  | none =>
    rw [copying_none hw] at hwhole
    rw [Option.getD_none, List.length_nil, Nat.zero_min, Nat.le_zero]
    refine ⟨fun hm => ?_, fun hm => hm ▸ copying_counts.zero _⟩
    have hend := Reader.parse_longer copying_collecting (copying_counts.keeps m) (b := b)
      (by rw [hab, hwhole]; exact .inl rfl) hm
    rw [hab, hwhole] at hend
    exact Nat.le_zero.mp (hend.resolve_left (by simp))
  | some lock =>
    obtain ⟨pre, es, hE, hpre, ⟨post, hencode⟩, before, hreplay⟩ := copying_enters hlt hw
    have hlen := w.length_encode
    rw [hw, encodeBytesOpt, length_encodeBytes] at hlen
    rw [copying_some hw] at hwhole
    rw [hencode] at hab hwhole
    have hbody : ∀ bs m, Copying.Past m ((copying .bytes).replay (es ++ (note .size
        (lockItem.size.map fun f => f (lock.length + 4)) ++
          note .void (lockItem.bodyChunk.map fun f => f bs []))) (.head [])) ↔ m ≤ bs.length := by
      intro bs m
      rw [Handler.replay_append, hreplay]
      exact or_iff_right (by
        simp [lockItem, Handler.apply, copying, Copying.lockSize, Copying.lockBody])
    have hblind : (Reader.bytes lockItem).Blind (copying .bytes) :=
      copying_collecting.fluid.blind 0
    have hcounted := Reader.counted copying_collecting (copying_obliging .bytes) copying_counts hblind
      hE (by omega) (.inr rfl) hbody hwhole (fun m hm => hm.resolve_left (by simp)) hab m
    rw [hpre] at hcounted
    exact hcounted

end Places
end NervosLedger
