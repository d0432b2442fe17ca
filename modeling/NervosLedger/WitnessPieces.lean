import NervosLedger.Signing

/-!
# The pieces of the first witness

A packet holds one piece of the first witness at most, and how much of it the packets hold together
follows from where it begins. So the pieces are those into which the ends of the packets cut it.
-/
namespace NervosLedger
open Molecule
open Reader (Reads)

/-! ### The notes of a transaction -/

/-- Notes that are not for a witness. -/
def Unwitnessed (es : List (Note SignEvent)) : Prop := ∀ n ∈ es, n.2.isWitness = false

theorem Unwitnessed.replay {es : List (Note SignEvent)} (h : Unwitnessed es) :
    (signing .bytes).replay es .waiting = .waiting := by
  induction es with
  | nil => rfl
  | cons n es ih =>
    have hn := h n List.mem_cons_self
    have happ : (signing .bytes).apply n .waiting = .waiting := by
      obtain ⟨slot, e⟩ := n
      cases slot with
      | void => exact congrFun (Signing.run_idle _ hn) .waiting
      | size => exact congrFun (Signing.ask_idle hn) .waiting
      | close => exact congrFun (Signing.finish_idle hn) .waiting
    rw [Handler.replay_cons, happ]
    exact ih fun m hm => h m (List.mem_cons_of_mem n hm)

/-- An event of the part of a transaction that is not the witnesses or the paths. -/
def SignEvent.IsRaw : SignEvent → Prop
  | .signPathSize _ | .signPathItem _ | .signPathEnd | .changePathSize _ | .changePathItem _
  | .changePathEnd | .inputCount _ | .witnessesIndex _ | .witnessSize _ | .witnessChunk _ _
  | .witnessEnd | .witnessesEnd => False
  | _ => True

theorem raw_isRaw : annotatedRawTransactionCallbacks.Every SignEvent.IsRaw := by
  simp [annotatedRawTransactionCallbacks, Reader.annotatedRawTransaction, inputsCallbacks,
    annotatedCellInputCallbacks, sourceCallbacks, sourceCellCallbacks, outputsCallbacks,
    outputCallbacks, outputsDataCallbacks, typeScriptCallbacks, Reader.annotatedCellInputVec,
    Reader.annotatedCellInput, Reader.cellInput, Reader.outPoint, Reader.rawTransaction,
    Reader.cellOutputVec, Reader.cellOutput, Reader.script, Reader.scriptOpt, Reader.bytesVec,
    Reader.uint32, Reader.uint64, Reader.byte32, Reader.cellDepVec, Reader.cellDep,
    Reader.byte32Vec, Reader.cellInputVec, Reader.Every, Callbacks.every_mk, Fin.forall_fin_succ,
    SignEvent.IsRaw]

/-- The notes before the witnesses. -/
def AnnotatedTransaction.rawNotes (t : AnnotatedTransaction) : List (Note SignEvent) :=
  pathNotes .changePathSize .changePathItem .changePathEnd t.changePath ++
    ([(.void, .inputCount t.inputCount)] ++ t.raw.notes)

theorem notes_raw (t : AnnotatedTransaction) : t.notes =
    pathNotes .signPathSize .signPathItem .signPathEnd t.signPath ++
      (t.rawNotes ++ witnessesNotes t.witnesses) := by
  simp [AnnotatedTransaction.notes, AnnotatedTransaction.rawNotes]

theorem mem_pathNotes {size : ℕ → SignEvent} {item : FixedBytes 4 → SignEvent} {finish : SignEvent}
    {cs : List (FixedBytes 4)} {n : Note SignEvent} (hn : n ∈ pathNotes size item finish cs) :
    (∃ k, n.2 = size k) ∨ (∃ c, n.2 = item c) ∨ n.2 = finish := by
  rw [pathNotes, List.mem_append, List.mem_cons, List.mem_map, List.mem_singleton] at hn
  rcases hn with (rfl | ⟨c, -, rfl⟩) | rfl
  · exact .inl ⟨_, rfl⟩
  · exact .inr (.inl ⟨c, rfl⟩)
  · exact .inr (.inr rfl)

theorem mem_rawNotes {t : AnnotatedTransaction} (hfit : t.Fits) {n : Note SignEvent}
    (hn : n ∈ t.rawNotes) : n.2.IsRaw ∨ (∃ k, n.2 = .changePathSize k) ∨
      (∃ c, n.2 = .changePathItem c) ∨ n.2 = .changePathEnd ∨ ∃ c, n.2 = .inputCount c := by
  have hraw : t.raw.encode.length + 4 < 2 ^ 32 := length_lt_of_mem hfit (by simp)
  rw [AnnotatedTransaction.rawNotes, List.mem_append, List.mem_append, List.mem_singleton] at hn
  rcases hn with hn | rfl | hn
  · rcases mem_pathNotes hn with h | h | h
    · exact .inr (.inl h)
    · exact .inr (.inr (.inl h))
    · exact .inr (.inr (.inr (.inl h)))
  · exact .inr (.inr (.inr (.inr ⟨_, rfl⟩)))
  · exact .inl (raw_isRaw.of_scan (raw_reads (by omega) []) n hn)

theorem unwitnessed_signPath (cs : List (FixedBytes 4)) :
    Unwitnessed (pathNotes .signPathSize .signPathItem .signPathEnd cs) := by
  intro n hn
  rcases mem_pathNotes hn with ⟨k, h⟩ | ⟨c, h⟩ | h <;> rw [h] <;> rfl

theorem unwitnessed_raw {t : AnnotatedTransaction} (hfit : t.Fits) : Unwitnessed t.rawNotes := by
  intro n hn
  rcases mem_rawNotes hfit hn with h | ⟨k, h⟩ | ⟨c, h⟩ | h | ⟨c, h⟩
  · obtain ⟨slot, e⟩ := n
    cases e <;> first | rfl | exact h.elim
  all_goals
    rw [h]
    rfl

/-- What a witness after the first one puts into the hash. -/
def encodeWitness (w : List UInt8) : List UInt8 := leBytes 8 w.length ++ w

theorem replay_firstWitness (w : List UInt8) :
    (signing .bytes).replay (witnessNotes w) (.first []) = .ended w := by
  unfold witnessNotes itemDataNotes
  split_ifs with hw
  · rw [hw]
    rfl
  · rfl

theorem replay_laterWitness (w read rest : List UInt8) :
    (signing .bytes).replay (witnessNotes w) (.later read rest) =
      .later read (rest ++ encodeWitness w) := by
  have hsize : w.length + 4 - 4 = w.length := Nat.add_sub_cancel _ 4
  unfold witnessNotes itemDataNotes
  split_ifs with hw
  · subst hw
    simp [Handler.apply, signing, Signing.ask, Signing.size, Signing.finish, Signing.itemEnd,
      encodeWitness]
  · simp [Handler.apply, signing, Signing.ask, Signing.size, Signing.run, Signing.chunk, Joining.bytes,
      Signing.finish, Signing.itemEnd, encodeWitness]

theorem replay_laterWitnesses (ws : List (List UInt8)) (k : ℕ) (read rest : List UInt8) :
    (signing .bytes).replay
      (itemNotes (fun k => [(.void, .witnessesIndex k)]) k (ws.map witnessNotes))
      (.later read rest) = .later read (rest ++ ws.flatMap encodeWitness) := by
  induction ws generalizing k rest with
  | nil => simp [itemNotes]
  | cons w ws ih =>
    have hindex : (signing .bytes).replay [(.void, .witnessesIndex (k + 1))] (.later read
        (rest ++ encodeWitness w)) = .later read (rest ++ encodeWitness w) := rfl
    rw [List.map_cons, itemNotes, Handler.replay_append, Handler.replay_append, replay_laterWitness,
      hindex, ih, List.flatMap_cons, List.append_assoc]

theorem replay_witnesses (w : List UInt8) (ws : List (List UInt8)) :
    (signing .bytes).replay (witnessesNotes (w :: ws)) .waiting =
      .signed w (ws.flatMap encodeWitness) := by
  have hfirst : (signing .bytes).apply (.void, .witnessesIndex 0) .waiting = .first [] := rfl
  have hnext : (signing .bytes).replay [(.void, .witnessesIndex 1)] (.ended w) = .later w [] := rfl
  have hitems : (signing .bytes).replay
      (indexedNotes .witnessesIndex ((w :: ws).map witnessNotes)) .waiting =
      .later w (ws.flatMap encodeWitness) := by
    rw [indexedNotes, if_neg (by simp), Handler.replay_cons, hfirst, List.map_cons, itemNotes,
      Handler.replay_append, Handler.replay_append, replay_firstWitness, hnext,
      replay_laterWitnesses, List.nil_append]
  rw [witnessesNotes, Handler.replay_append, hitems]
  rfl

theorem signing_replay {t : AnnotatedTransaction} (hfit : t.Fits) {w : List UInt8}
    {ws : List (List UInt8)} (hw : t.witnesses = w :: ws) :
    (signing .bytes).replay t.notes .waiting = .signed w (ws.flatMap encodeWitness) := by
  rw [notes_raw, Handler.replay_append, (unwitnessed_signPath _).replay, Handler.replay_append,
    (unwitnessed_raw hfit).replay, hw, replay_witnesses]

/-! ### How much was read -/

/-- Where the first witness begins in the encoding of a transaction. -/
def AnnotatedTransaction.witnessStart (t : AnnotatedTransaction) : ℕ :=
  headerSize 5 + (encodePath t.signPath).length + (encodePath t.changePath).length + 4 +
    t.raw.encode.length + headerSize t.witnesses.length + 4

namespace Signing

theorem idle_ne_first {α : Type} {s : Signing α} {read : α} : s.idle ≠ .first read := by
  cases s <;> simp [idle]

section Kept
variable {α : Type} (j : Joining α)

theorem idle_kept (s : Signing α) : Kept .lost (read j) s s.idle := by
  cases s with
  | waiting => exact .inr ⟨by simp, rfl⟩
  | _ => exact .inl rfl

theorem run_kept {e : SignEvent} (he : ∀ buf following, e ≠ .witnessChunk buf following)
    (s : Signing α) : Kept .lost (read j) s (run j e s) := by
  by_cases hw : e.isWitness = true
  · cases e with
    | witnessesIndex k =>
      cases s with
      | waiting | ended _ | later _ _ =>
        simp only [Kept, run, index]
        split_ifs <;> simp [read]
      | _ => exact .inl rfl
    | witnessChunk buf following => exact absurd rfl (he buf following)
    | _ => first | exact .inl rfl | cases hw
  · rw [run_idle _ (by simpa using hw)]
    exact idle_kept j s

theorem ask_kept (e : SignEvent) (s : Signing α) : Kept .lost (read j) s (ask e s) := by
  by_cases hw : e.isWitness = true
  · cases e with
    | witnessSize n => cases s <;> simp [Kept, ask, size, read]
    | _ => first | exact .inl rfl | cases hw
  · rw [ask_idle (by simpa using hw)]
    exact idle_kept j s

theorem finish_kept (e : SignEvent) (s : Signing α) : Kept .lost (read j) s (finish e s) := by
  by_cases hw : e.isWitness = true
  · cases e with
    | witnessEnd => cases s <;> simp [Kept, finish, itemEnd, read]
    | witnessesEnd => cases s <;> simp [Kept, finish, vectorEnd, read]
    | _ => first | exact .inl rfl | cases hw
  · rw [finish_idle (by simpa using hw)]
    exact idle_kept j s

end Kept

/-- The bytes of the pieces are those that were read. -/
theorem read_flatten (s : Signing (List (List UInt8))) :
    (s.map List.flatten).read .bytes = (s.read .pieces).flatten := by
  cases s <;> rfl

/-- At least `m` bytes of the first witness were read, if the calls are those of a transaction. -/
def Past (m : ℕ) : Signing (List UInt8) → Prop := Known .lost (read .bytes) (m ≤ ·.length)

theorem Past.run {m : ℕ} {s : Signing (List UInt8)} (h : s.Past m) (e : SignEvent) :
    (run .bytes e s).Past m := by
  by_cases he : ∀ buf following, e ≠ .witnessChunk buf following
  · exact h.kept (run_kept .bytes he s)
  · push Not at he
    obtain ⟨buf, following, rfl⟩ := he
    cases s with
    | first bs =>
      have hle : m ≤ bs.length := h.resolve_left (by simp)
      exact .inr (hle.trans (by simp [Signing.run, chunk, read, Joining.bytes]))
    | later read rest => exact h.imp (by simp) id
    | _ => exact .inl rfl

/-- At most one piece was added to `ps`. -/
def AtMost (ps : List (List UInt8)) : Signing (List (List UInt8)) → Prop :=
  Known .lost (read .pieces) (OneMore ps)

/-- The first witness may go on, as no piece was added to `ps`. -/
def Fresh (ps : List (List UInt8)) (s : Signing (List (List UInt8))) : Prop :=
  AtMost ps s ∧ ∀ qs, s = .first qs → qs = ps

section Once
variable {ps : List (List UInt8)} {s s' : Signing (List (List UInt8))}

theorem Fresh.kept (h : Fresh ps s) (hk : Kept .lost (read .pieces) s s')
    (hfirst : ∀ qs, s' = .first qs → s = .first qs) : Fresh ps s' :=
  ⟨h.1.kept hk, fun qs hs => h.2 qs (hfirst qs hs)⟩

/-- A new piece. -/
theorem Fresh.chunk (h : Fresh ps s) (buf : List UInt8) : AtMost ps (chunk .pieces buf s) := by
  cases s with
  | first qs =>
    obtain rfl : qs = ps := h.2 qs rfl
    exact .inr (.inr ⟨buf, rfl⟩)
  | later read rest => exact h.1.imp (by simp) id
  | _ => exact .inl rfl

/-- Where the next witness begins. -/
theorem AtMost.index (h : AtMost ps s) (k : ℕ) : Fresh ps (index .pieces k s) := by
  refine ⟨h.kept (run_kept .pieces (e := .witnessesIndex k) (by simp) s), fun qs hs => ?_⟩
  cases s with
  | waiting =>
    obtain rfl : ps = [] := by
      rcases h.resolve_left (by simp) with hread | ⟨p, hread⟩
      · exact hread.symm
      · exact absurd hread.symm (List.append_ne_nil_of_right_ne_nil ps (List.cons_ne_nil p []))
    dsimp only [Signing.index] at hs
    split_ifs at hs
    cases hs
    rfl
  | ended read | later read rest =>
    dsimp only [Signing.index] at hs
    split_ifs at hs
  | _ => cases hs

end Once
end Signing

theorem atMost_keeps (ps : List (List UInt8)) {e : SignEvent}
    (he : ∀ buf following, e ≠ .witnessChunk buf following) :
    KeepsAt (signing .pieces) (Signing.AtMost ps) e where
  run h := h.kept (Signing.run_kept .pieces he _)
  ask h := h.kept (Signing.ask_kept .pieces e _)
  finish h := h.kept (Signing.finish_kept .pieces e _)

/-- The callbacks of a witness. -/
def witnessItem : Callbacks SignEvent :=
  { size := some .witnessSize, bodyChunk := some .witnessChunk, finish := some .witnessEnd }

theorem fresh_keeps (ps : List (List UInt8)) {e : SignEvent}
    (he : ∀ buf following, e ≠ .witnessChunk buf following) (hk : ∀ k, e ≠ .witnessesIndex k) :
    KeepsAt (signing .pieces) (Signing.Fresh ps) e where
  run h := h.kept (Signing.run_kept .pieces he _) fun _ hs => by
    by_cases hw : e.isWitness = true
    · cases e with
      | witnessesIndex k => exact absurd rfl (hk k)
      | witnessChunk buf following => exact absurd rfl (he buf following)
      | witnessSize _ | witnessEnd | witnessesEnd => cases hs
      | _ => cases hw
    · exact absurd ((congrFun (Signing.run_idle .pieces (by simpa using hw)) _).symm.trans hs)
        Signing.idle_ne_first
  ask h := h.kept (Signing.ask_kept .pieces e _) fun _ hs => by
    by_cases hw : e.isWitness = true
    · cases e with
      | witnessSize n =>
        rename_i s _
        cases s <;> first | exact hs | cases hs
      | witnessesIndex _ | witnessChunk _ _ | witnessEnd | witnessesEnd => cases hs
      | _ => cases hw
    · exact absurd ((congrFun (Signing.ask_idle (by simpa using hw)) _).symm.trans hs)
        Signing.idle_ne_first
  finish h := h.kept (Signing.finish_kept .pieces e _) fun _ hs => by
    by_cases hw : e.isWitness = true
    · cases e with
      | witnessEnd | witnessesEnd =>
        rename_i s _
        cases s <;> cases hs
      | witnessesIndex _ | witnessSize _ | witnessChunk _ _ => cases hs
      | _ => cases hw
    · exact absurd ((congrFun (Signing.finish_idle (by simpa using hw)) _).symm.trans hs)
        Signing.idle_ne_first

/-- A packet holds one piece of the first witness at most. -/
theorem signing_turns (ps : List (List UInt8)) : annotatedTransactionCallbacks.Turns
    (signing .pieces) (Signing.Fresh ps) (Signing.AtMost ps) := by
  have hPQ : ∀ s, Signing.Fresh ps s → Signing.AtMost ps s := fun _ h => h.1
  have hbytes : (Reader.bytes witnessItem).Turns (signing .pieces) (Signing.Fresh ps)
      (Signing.AtMost ps) := by
    refine Reader.Turns.bytes hPQ ?_ ?_ ?_
    · rintro _ ⟨rfl⟩ n
      exact fresh_keeps ps (by simp) (by simp)
    · rintro _ ⟨rfl⟩ a x s h
      exact h.chunk a
    · rintro _ ⟨rfl⟩
      exact atMost_keeps ps (by simp)
  have hvec : witnessesCallbacks.Turns (signing .pieces) (Signing.Fresh ps) (Signing.AtMost ps) := by
    refine Reader.Turns.dynVec hPQ ?_ ?_ ?_ rfl (fun k s h => h.index k) (fun _ => rfl) hbytes
    · refine Callbacks.every_mk.mpr ?_
      simp [atMost_keeps]
    · simp
    · simp
  have hboth : ∀ e : SignEvent, e.isWitness = false →
      KeepsBoth (signing .pieces) (Signing.Fresh ps) (Signing.AtMost ps) e := by
    intro e he
    have hchunk : ∀ buf following, e ≠ .witnessChunk buf following := by
      rintro buf following rfl
      cases he
    refine ⟨fresh_keeps ps hchunk ?_, atMost_keeps ps hchunk⟩
    rintro k rfl
    cases he
  have hpath : ∀ {size : ℕ → SignEvent} {item : FixedBytes 4 → SignEvent} {finish : SignEvent},
      (∀ n, (size n).isWitness = false) → (∀ b, (item b).isWitness = false) →
      finish.isWitness = false → (Reader.bip32 { size := some size, finish := some finish }
        (some item)).Every fun e => e.isWitness = false := by
    intro size item finish hs hi hf
    simp [Reader.bip32, Reader.uint32, Reader.Every, Callbacks.every_mk, hs, hi, hf]
  refine Reader.Turns.table hPQ ?_ 4 (fun j hj => ?_) (fun _ => rfl) hvec
  · simp [Callbacks.every_mk]
  · refine Reader.Every.mono (P := fun e => e.isWitness = false) ?_ hboth
    fin_cases j
    · exact hpath (fun _ => rfl) (fun _ => rfl) rfl
    · exact hpath (fun _ => rfl) (fun _ => rfl) rfl
    · rintro _ ⟨rfl⟩ b
      rfl
    · exact raw_isRaw.mono fun e he => by cases e <;> first | rfl | exact he.elim
    · exact absurd rfl hj

theorem signing_counts : Counts (signing .bytes) Signing.Past where
  zero _ := .inr (Nat.zero_le _)
  le hmn h := h.imp id hmn.trans
  keeps _ e := ⟨fun h => h.run e, fun h => h.kept (Signing.ask_kept .bytes e _),
    fun h => h.kept (Signing.finish_kept .bytes e _)⟩

section Places
variable {t : AnnotatedTransaction} (hfit : t.Fits) {w : List UInt8} {ws : List (List UInt8)}
  (hw : t.witnesses = w :: ws)
include hfit hw

/-- Behind what comes before it, the first witness is read. -/
theorem signing_enters : ∃ pre es, annotatedTransactionCallbacks.Enters (signing .bytes) molNumMax
      pre es (.bytes witnessItem) molNumMax ∧ pre.length + 4 = t.witnessStart ∧
    t.encode = pre ++ (encodeBytes w ++ (ws.map encodeBytes).flatten) ∧
    (signing .bytes).replay es .waiting = .first [] := by
  have hsign := length_lt_of_mem hfit (p := encodePath t.signPath) (by simp)
  have hchange := length_lt_of_mem hfit (p := encodePath t.changePath) (by simp)
  have hraw := length_lt_of_mem hfit (p := t.raw.encode) (by simp)
  have hwitness := length_lt_of_mem hfit (p := encodeBytesVec t.witnesses) (by simp)
  have hblind := signing_gathers.collecting.fluid.blind
  have hvec : encodeBytesVec t.witnesses = encodeParts (encodeBytes w :: ws.map encodeBytes) := by
    rw [hw, encodeBytesVec, List.map_cons]
  have hitem : witnessesCallbacks.Enters (signing .bytes)
      (encodeParts (encodeBytes w :: ws.map encodeBytes)).length _ _ (.bytes witnessItem) molNumMax :=
    Reader.Enters.dynVec rfl (signing_obliging .bytes) (by rw [← hvec]; omega) (.inr rfl)
      (Reader.Enters.self (.bytes witnessItem) molNumMax)
  have htable : annotatedTransactionCallbacks.Enters (signing .bytes) molNumMax _ _
      (.bytes witnessItem) molNumMax := Reader.Enters.table
    ![encodePath t.signPath, encodePath t.changePath, t.inputCount.toList, t.raw.encode,
      encodeParts (encodeBytes w :: ws.map encodeBytes)]
    ![pathNotes .signPathSize .signPathItem .signPathEnd t.signPath,
      pathNotes .changePathSize .changePathItem .changePathEnd t.changePath,
      [(.void, .inputCount t.inputCount)], t.raw.notes, []] rfl
    (signing_obliging .bytes) (by rw [← hvec]; exact hfit) (.inl rfl) 4 (fun j hj => ⟨hblind j, by
      match j with
      | 0 => exact path_reads (by omega) (.inr rfl)
      | 1 => exact path_reads (by omega) (.inr rfl)
      | 2 => exact Reads.array _ t.inputCount _
      | 3 => exact raw_reads (by omega)
      | 4 => exact absurd hj (lt_irrefl _)⟩) hitem
  have hparts : List.ofFn ![encodePath t.signPath, encodePath t.changePath, t.inputCount.toList,
      t.raw.encode, encodeParts (encodeBytes w :: ws.map encodeBytes)] =
      [encodePath t.signPath, encodePath t.changePath, t.inputCount.toList, t.raw.encode,
        encodeParts (encodeBytes w :: ws.map encodeBytes)] := rfl
  refine ⟨_, _, htable, ?_, ?_, ?_⟩
  · rw [hparts]
    simp [AnnotatedTransaction.witnessStart, hw, Nat.add_assoc]
  · rw [hparts, AnnotatedTransaction.encode, encodeParts_eq, hvec]
    simp [encodeParts_eq (encodeBytes w :: ws.map encodeBytes)]
  · have hnotes : (signing .bytes).replay (pathNotes .signPathSize .signPathItem .signPathEnd
        t.signPath ++ (t.rawNotes ++ [(.void, .witnessesIndex 0)])) .waiting = .first [] := by
      rw [Handler.replay_append, (unwitnessed_signPath _).replay, Handler.replay_append,
        (unwitnessed_raw hfit).replay]
      rfl
    rw [← hnotes]
    refine congrArg (fun es => (signing .bytes).replay es .waiting) ?_
    simp [fieldNotes, List.ofFn_succ, Reader.starts, Reader.bip32, Reader.uint32, Reader.firstItem,
      AnnotatedTransaction.rawNotes, witnessesCallbacks, Reader.bytesVec,
      annotatedRawTransactionCallbacks, Reader.annotatedRawTransaction]

theorem signing_whole : ∃ st, annotatedTransactionCallbacks.parse (signing .bytes)
    annotatedTransactionCallbacks.initState molNumMax t.encode .waiting =
      ⟨.complete, st, [], .signed w (ws.flatMap encodeWitness), false⟩ := by
  have hreads := annotatedTransaction_reads hfit []
  rw [List.append_nil] at hreads
  rw [← signing_replay hfit hw]
  exact Reader.parse_scan signing_gathers.collecting.fluid.blind (signing_obliging .bytes) hreads _

/-- How much of the first witness was read follows from how much of the transaction was. -/
theorem signing_counted {a : List UInt8} (ha : a <+: t.encode) (m : ℕ) :
    (annotatedTransactionCallbacks.parse (signing .bytes) annotatedTransactionCallbacks.initState
      molNumMax a .waiting).g.Past m ↔ m ≤ min w.length (a.length - t.witnessStart) := by
  obtain ⟨pre, es, hE, hstart, hencode, hreplay⟩ := signing_enters hfit hw
  obtain ⟨st, hwhole⟩ := signing_whole hfit hw
  obtain ⟨b, hab⟩ := ha
  rw [hencode] at hab hwhole
  rw [← hstart]
  have hlen : w.length + 4 < 2 ^ 32 := by
    have hwitness := length_lt_of_mem hfit (p := encodeBytesVec t.witnesses) (by simp)
    rw [hw, encodeBytesVec, length_encodeParts, List.map_cons, List.flatten_cons,
      List.length_append, length_encodeBytes] at hwitness
    omega
  have hbody : ∀ bs m, Signing.Past m ((signing .bytes).replay (es ++ (note .size
      (witnessItem.size.map fun f => f (w.length + 4)) ++
        note .void (witnessItem.bodyChunk.map fun f => f bs []))) .waiting) ↔ m ≤ bs.length := by
    intro bs m
    rw [Handler.replay_append, hreplay]
    have hread : (signing .bytes).replay (note .size (witnessItem.size.map fun f =>
        f (w.length + 4)) ++ note .void (witnessItem.bodyChunk.map fun f => f bs [])) (.first []) =
        .first bs := rfl
    rw [hread]
    exact or_iff_right fun h => by cases h
  refine Reader.counted signing_gathers.collecting (signing_obliging .bytes) signing_counts
    (signing_gathers.collecting.fluid.blind 4) hE hlen (.inl rfl) hbody hwhole ?_ hab m
  exact fun m hm => hm.resolve_left fun h => by cases h

/-- How much was read in pieces. -/
theorem signing_length {a : List UInt8} (ha : a <+: t.encode) {s : Signing (List (List UInt8))}
    (hs : (annotatedTransactionCallbacks.parse (signing .bytes)
      annotatedTransactionCallbacks.initState molNumMax a .waiting).g = s.map List.flatten) :
    s ≠ .lost ∧ (s.read .pieces).flatten.length = min w.length (a.length - t.witnessStart) := by
  have hcounted := signing_counted hfit hw ha
  rw [hs] at hcounted
  obtain ⟨hne, hlength⟩ := length_of_known hcounted
  rw [Signing.read_flatten] at hlength
  refine ⟨?_, hlength⟩
  rintro rfl
  exact hne rfl

namespace SignState
variable {sdk : Sdk}

/-- One more packet. -/
theorem signs_packet {sent : List Sent} {x : Sent} (hp : payload (sent ++ [x]) <+: t.encode)
    {rv : Rv Exc} (hrv : rv = .complete ∨ rv = .incomplete)
    (hx : (feed sdk x (feedAll sdk sent)).2 = rv) {s : Signing (List (List UInt8))}
    (hs : (feedAll sdk sent).1.SignsAs sdk s)
    (hreached : annotatedTransactionCallbacks.Reached (signing .bytes) molNumMax .waiting
      (payload sent) (feedAll sdk sent).1.transactionStack (s.map List.flatten))
    (hwindow : Window t.witnessStart w.length (chunks sent) (s.read .pieces)) :
    ∃ s', (feedAll sdk (sent ++ [x])).1.SignsAs sdk s' ∧
      Window t.witnessStart w.length (chunks (sent ++ [x])) (s'.read .pieces) ∧
      ∃ rest, annotatedTransactionCallbacks.parse (signing .bytes)
        annotatedTransactionCallbacks.initState molNumMax (payload (sent ++ [x])) .waiting =
          ⟨rv, (feedAll sdk (sent ++ [x])).1.transactionStack, rest, s'.map List.flatten, false⟩ := by
  have hgathers := signing_gathers.collecting
  have hlive : (annotatedTransactionCallbacks.parse (signing .bytes)
      annotatedTransactionCallbacks.initState molNumMax (payload sent ++ x.packet.data)
        .waiting).Live := by
    obtain ⟨st, hwhole⟩ := signing_whole hfit hw
    obtain ⟨b, hb⟩ := hp
    refine (Reader.parse_resumes hgathers molNumMax).first (b := b) ?_
    rw [← payload_concat, hb, hwhole]
    exact .inl rfl
  have hnext := hreached.next hgathers hlive
  have hf := Reader.parse_follows ((signing_mirrors sdk).sim x)
    (feedAll sdk sent).1.transactionStack molNumMax x.packet.data hs
  have hagrees := Reader.parse_agrees (Reader.every_of_forall signing_pieces
    annotatedTransactionCallbacks) (feedAll sdk sent).1.transactionStack molNumMax x.packet.data
    (rfl : s.map List.flatten = s.map List.flatten)
  have hturns := signing_turns (s.read .pieces) (feedAll sdk sent).1.transactionStack molNumMax
    x.packet.data s ⟨.inr (.inl rfl), fun qs hs => by rw [hs]; rfl⟩
  rw [hnext, ← payload_concat] at hagrees
  have hrv' : (annotatedTransactionCallbacks.parse (signHandler (x.env sdk)).traced
      (feedAll sdk sent).1.transactionStack molNumMax x.packet.data (feedAll sdk sent)).rv = rv := hx
  rw [feedAll_concat, feed]
  dsimp only
  generalize annotatedTransactionCallbacks.parse (signHandler (x.env sdk)).traced _ _ _ _ = r₁
    at hf hrv' ⊢
  generalize annotatedTransactionCallbacks.parse (signing .pieces) _ _ _ _ = r₂ at hf hagrees hturns
  generalize hr₃ : annotatedTransactionCallbacks.parse (signing .bytes) _ _ _ _ = r₃ at hagrees ⊢
  obtain ⟨hmap⟩ := hagrees
  rename_i rv' st rest s' s'' d
  have hsame : ∃ g₁, r₁ = ⟨rv, st, rest, g₁, false⟩ ∧ rv' = rv ∧ d = false ∧ g₁.1.SignsAs sdk s' := by
    rcases hf with ⟨e₁, e₂, hg⟩ | ⟨e₁, e₂, hg⟩ | hr | ⟨⟨e, he⟩, -⟩
    · cases e₂
      rw [e₁] at hrv'
      exact ⟨_, hrv' ▸ e₁, hrv', rfl, hg⟩
    · cases e₂
      rw [e₁] at hrv'
      exact ⟨_, hrv' ▸ e₁, hrv', rfl, hg⟩
    · rw [hrv'] at hr
      rcases hrv with rfl | rfl <;> cases hr
    · rw [hrv'] at he
      rcases hrv with rfl | rfl <;> cases he
  obtain ⟨g₁, rfl, rfl, rfl, hsigns⟩ := hsame
  obtain ⟨hne, hlength⟩ := signing_length hfit hw hp (s := s') (by rw [hr₃, ← hmap])
  refine ⟨s', (signing_mirrors sdk).restack st hsigns, ?_, rest, by rw [hmap]⟩
  rw [chunks, List.map_append, List.map_singleton]
  refine hwindow.piece x.packet.data (hturns.resolve_left hne) ?_
  rw [hlength, payload_concat]
  simp [chunks, payload]

theorem Wanting.signs {sent : List Sent} (hwant : Wanting sdk sent)
    (hp : payload sent <+: t.encode) :
    ∃ s, (feedAll sdk sent).1.SignsAs sdk s ∧
      annotatedTransactionCallbacks.Reached (signing .bytes) molNumMax .waiting (payload sent)
        (feedAll sdk sent).1.transactionStack (s.map List.flatten) ∧
      Window t.witnessStart w.length (chunks sent) (s.read .pieces) := by
  induction hwant with
  | nil => exact ⟨.waiting, rfl, .start, .nil⟩
  | @snoc sent x hwant hx ih =>
    have hp' : payload sent <+: t.encode := by
      rw [payload_concat] at hp
      exact (List.prefix_append _ _).trans hp
    obtain ⟨s, hs, hreached, hwindow⟩ := ih hp'
    obtain ⟨s', hs', hwindow', rest, hparse⟩ :=
      signs_packet hfit hw hp (.inr rfl) hx hs hreached hwindow
    obtain ⟨rfl, -⟩ := (Reader.parse_splits signing_gathers.collecting.fluid molNumMax).incomplete
      hparse
    exact ⟨s', hs', .call hparse, hwindow'⟩

/-- What is hashed last, in terms of the pieces in which the first witness was read. -/
theorem Accepts.signs {sent : List Sent} (ha : Accepts sdk sent) (hp : payload sent = t.encode) :
    ∃ ps, ps.flatten = w ∧ Window t.witnessStart w.length (chunks sent) ps ∧
      (feedAll sdk sent).1.SignsAs sdk (.signed ps (ws.flatMap encodeWitness)) := by
  obtain ⟨pre, x, rfl, hwant, hx⟩ := ha.completes
  have hpre : payload pre <+: t.encode := by
    rw [← hp, payload_concat]
    exact List.prefix_append _ _
  obtain ⟨s, hs, hreached, hwindow⟩ := hwant.signs hfit hw hpre
  obtain ⟨s', hs', hwindow', rest, hparse⟩ :=
    signs_packet hfit hw (hp ▸ List.prefix_refl _) (.inl rfl) hx hs hreached hwindow
  obtain ⟨st, hwhole⟩ := signing_whole hfit hw
  rw [hp, hwhole] at hparse
  cases s' with
  | signed ps rest' =>
    injection hparse with _ _ _ hsigned _
    injection hsigned with hps hrest
    exact ⟨ps, hps.symm, hwindow', hrest ▸ hs'⟩
  | _ => simp [Signing.map] at hparse

end SignState
end Places

end NervosLedger
