import NervosLedger.TransactionHash
import NervosLedger.Molecule.Resuming

/-!
# The first witness

The first witness arrives in pieces, which are given to a parser of its own. If the pieces make up a
`WitnessArgs`, what they put into the hash is what that `WitnessArgs` says, however it was cut.
-/
namespace NervosLedger
open Molecule
open Reader (Reads)

/-- `WitnessArgs`. -/
structure WitnessArgs where
  lock : Option (List UInt8) := none
  inputType : Option (List UInt8) := none
  outputType : Option (List UInt8) := none
  deriving DecidableEq, Repr

/-- A `BytesOpt`. -/
def encodeBytesOpt : Option (List UInt8) → List UInt8
  | none => []
  | some bs => encodeBytes bs

/-- The callbacks of a lock. -/
def lockNotes : Option (List UInt8) → List (Note WitnessEvent)
  | none => []
  | some bs => (.size, .lockSize (bs.length + 4)) :: if bs = [] then [] else [(.void, .lockBody bs [])]

namespace WitnessArgs

def fields (w : WitnessArgs) : List (List UInt8) :=
  [encodeBytesOpt w.lock, encodeBytesOpt w.inputType, encodeBytesOpt w.outputType]

def encode (w : WitnessArgs) : List UInt8 := encodeParts w.fields

/-- The callbacks of a `WitnessArgs`. -/
def notes (w : WitnessArgs) : List (Note WitnessEvent) :=
  (.void, .offsets w.encode.length (offsetsFrom (headerSize 3) w.fields)) :: lockNotes w.lock ++
    [(.void, .inputTypeChunk (encodeBytesOpt w.inputType)),
      (.void, .outputTypeChunk (encodeBytesOpt w.outputType))]

theorem length_encode (w : WitnessArgs) : w.encode.length = 16 + (encodeBytesOpt w.lock).length +
    (encodeBytesOpt w.inputType).length + (encodeBytesOpt w.outputType).length := by
  rw [encode, length_encodeParts]
  simp [fields, headerSize, Nat.add_assoc]

theorem encode_ne_nil (w : WitnessArgs) : w.encode ≠ [] := by
  intro h
  have hlen := w.length_encode
  rw [h, List.length_nil] at hlen
  omega

end WitnessArgs

/-- The callbacks of the first witness, where the size of a lock counts that of its length. -/
def witnessArgsSizedCallbacks : Reader WitnessEvent :=
  .witnessArgs { offsets := some .offsets }
    (.bytesOpt {} { size := some fun n => .lockSize (n - 4 + 4), bodyChunk := some .lockBody })
    (.bytesOpt { chunk := some .inputTypeChunk } {})
    (.bytesOpt { chunk := some .outputTypeChunk } {})

section Sized
variable {σ ε : Type} (h : Handler WitnessEvent σ ε)

/-- The size of a byte string counts that of its length. -/
theorem parseBytes_sized (f : ℕ → WitnessEvent) (b : List UInt8 → List UInt8 → WitnessEvent) :
    parseBytes h { size := some f, bodyChunk := some b } =
      parseBytes h { size := some fun n => f (n - 4 + 4), bodyChunk := some b } := by
  funext st size inp g
  unfold parseBytes
  simp only [Option.map_some, Nat.add_sub_cancel]
  rfl

theorem parse_sized (st : ReaderState) (size : ℕ) :
    witnessArgsRewriteCallbacks.parse h st size = witnessArgsSizedCallbacks.parse h st size := by
  have hlock : (Reader.bytesOpt {} { size := some .lockSize, bodyChunk := some .lockBody }).part h =
      (Reader.bytesOpt {} { size := some fun n => .lockSize (n - 4 + 4),
                            bodyChunk := some .lockBody }).part h := by
    have hbytes : (Reader.bytes { size := some .lockSize, bodyChunk := some .lockBody }).part h =
        (Reader.bytes { size := some fun n => .lockSize (n - 4 + 4),
                        bodyChunk := some .lockBody }).part h :=
      congrArg (fun parse => (⟨.zero, fun g => g, parse⟩ : Part σ ε))
        (parseBytes_sized h .lockSize .lockBody)
    have hparse :
        (Reader.bytesOpt {} { size := some .lockSize, bodyChunk := some .lockBody }).parse h =
        (Reader.bytesOpt {} { size := some fun n => .lockSize (n - 4 + 4),
                              bodyChunk := some .lockBody }).parse h := by
      funext st size
      rw [Reader.bytesOpt, Reader.bytesOpt, Reader.parse_option, Reader.parse_option, hbytes]
    exact congrArg (fun parse => (⟨.node {} .zero, fun g => g, parse⟩ : Part σ ε)) hparse
  rw [witnessArgsRewriteCallbacks, witnessArgsSizedCallbacks, Reader.witnessArgs, Reader.witnessArgs,
    Reader.parse_table, Reader.parse_table]
  simp only [List.ofFn_succ, Matrix.cons_val_zero, Matrix.cons_val_succ, hlock]

end Sized

/-! ### Reading a `WitnessArgs` -/

/-- The callbacks of a `BytesOpt`, but for those of the option. -/
def bytesOptNotes (item : Callbacks WitnessEvent) : Option (List UInt8) → List (Note WitnessEvent)
  | none => []
  | some bs => note .size (item.size.map fun f => f (bs.length + 4)) ++
      Reader.bodyNotes item.bodyChunk bs ++ note .close item.finish

theorem bytesOpt_reads {cb item : Callbacks WitnessEvent} {o : Option (List UInt8)}
    (hlt : (encodeBytesOpt o).length < 2 ^ 32) :
    (Reader.bytesOpt cb item).Reads (encodeBytesOpt o).length (encodeBytesOpt o)
      (bytesOptNotes item o ++ cb.leaving (encodeBytesOpt o)) := by
  cases o with
  | none => exact Reads.absent cb _
  | some bs =>
    have hlen : (encodeBytes bs).length = 4 + bs.length := length_encodeBytes bs
    have hlt' : (encodeBytes bs).length < 2 ^ 32 := hlt
    exact Reads.present cb (Reads.bytes item (by omega) (.inr (by rw [encodeBytesOpt]; omega)))
      (by rw [encodeBytesOpt]; omega)

theorem witnessArgs_reads {w : WitnessArgs} (hlt : w.encode.length < 2 ^ 32) :
    witnessArgsSizedCallbacks.Reads molNumMax w.encode w.notes := by
  have hlen := w.length_encode
  refine (Reads.table { offsets := some .offsets }
    ![encodeBytesOpt w.lock, encodeBytesOpt w.inputType, encodeBytesOpt w.outputType]
    ![lockNotes w.lock, [(.void, .inputTypeChunk (encodeBytesOpt w.inputType))],
      [(.void, .outputTypeChunk (encodeBytesOpt w.outputType))]] (fun i => ?_) hlt
    (.inl rfl)).congr ?_
  · match i with
    | 0 =>
      refine (bytesOpt_reads (by omega)).congr ?_
      cases w.lock <;> simp [bytesOptNotes, lockNotes, Reader.bodyNotes, Callbacks.leaving]
    | 1 =>
      refine (bytesOpt_reads (by omega)).congr ?_
      cases w.inputType <;> simp [bytesOptNotes, Reader.bodyNotes, Callbacks.leaving]
    | 2 =>
      refine (bytesOpt_reads (by omega)).congr ?_
      cases w.outputType <;> simp [bytesOptNotes, Reader.bodyNotes, Callbacks.leaving]
  · simp [Reader.tableNotes, Reader.starts, Reader.bytesOpt, List.ofFn_succ, Callbacks.leaving,
      WitnessArgs.notes, WitnessArgs.encode, WitnessArgs.fields]

/-! ### Reading it in pieces -/

namespace SignState

/-- What the callbacks of the first witness leave as it is. -/
def witnessFrame (g : SignState) : Digest × Bool × Bool × Bool :=
  (g.tx.transactionHash, g.signingMultisigInput, g.tx.isFirstWitness, g.tx.firstWitnessDone)

theorem witnessHandler_frame (beyond : List UInt8) (x : Digest × Bool × Bool × Bool)
    (e : WitnessEvent) : KeepsAt (witnessHandler beyond) (fun g => g.witnessFrame = x) e where
  run {g} hg := by
    refine Eq.trans ?_ hg
    cases e with
    | offsets totalSize offsets =>
      simp only [witnessHandler, witnessOffsets]
      split <;> rfl
    | lockBody buf following =>
      simp only [witnessHandler, witnessLockArgBodyChunk]
      split_ifs <;> rfl
    | _ => rfl
  ask {g} hg := by
    refine Eq.trans ?_ hg
    cases e with
    | lockSize size =>
      simp only [witnessHandler, witnessLockArgSize]
      split_ifs <;> rfl
    | _ => rfl
  finish hg := hg

/-- The states in which the first witness is read, with the pieces that were read of it. -/
inductive FirstRun (multisig : Bool) : List (List UInt8) → SignState → Prop
  | begin {g : SignState} (hm : g.signingMultisigInput = multisig)
      (hd : g.tx.firstWitnessDone = false) : FirstRun multisig [] (beginWitness 0 g)
  | piece {ps : List (List UInt8)} {g : SignState} (env : Env) (buf following : List UInt8)
      (h : FirstRun multisig ps g) :
      FirstRun multisig (ps ++ [buf]) (processWitness env buf following g)
  | restack {ps : List (List UInt8)} {g : SignState} (st : ReaderState) (h : FirstRun multisig ps g) :
      FirstRun multisig ps { g with transactionStack := st }

theorem FirstRun.frame {multisig : Bool} {ps : List (List UInt8)} {g : SignState}
    (h : FirstRun multisig ps g) :
    g.signingMultisigInput = multisig ∧ g.tx.isFirstWitness = true := by
  induction h with
  | begin hm hd => exact ⟨hm, rfl⟩
  | @piece ps g env buf following h ih =>
    have hparse := Reader.parse_keeps (witnessArgsRewriteCallbacks.every_of_forall
      (witnessHandler_frame (following ++ env.beyond) g.witnessFrame)) g.tx.witnessStack molNumMax
      buf rfl
    obtain ⟨-, hm, hf, -⟩ : _ ∧ _ ∧ _ ∧ _ := by simpa [witnessFrame] using hparse
    unfold processWitness
    rw [if_neg (by simp [ih.2])]
    dsimp only
    split
    · exact ⟨hm.trans ih.1, hf.trans ih.2⟩
    · exact ⟨hm.trans ih.1, hf.trans ih.2⟩
  | restack st h ih => exact ih

section Tracks
variable {σ : Type} {h : Handler WitnessEvent σ Exc}
  {R : List (List UInt8) → SignState → σ → Prop} {sound : List UInt8 → σ → Prop} {s₀ : σ}
  {multisig : Bool}

/-- `h` does in its own state what the callbacks of the first witness do; `sound` is what is known
of that state when some bytes of the witness were read. -/
structure Tracks (multisig : Bool) (h : Handler WitnessEvent σ Exc)
    (R : List (List UInt8) → SignState → σ → Prop) (sound : List UInt8 → σ → Prop) (s₀ : σ) :
    Prop where
  collecting : witnessArgsSizedCallbacks.Collecting h
  obliging : Obliging h
  call : ∀ {ps g s} beyond buf, R ps g s →
    (witnessArgsSizedCallbacks.parse (witnessHandler beyond) g.tx.witnessStack molNumMax buf
      g).Agrees (fun g' s' => sound (ps.flatten ++ buf) s' → R (ps ++ [buf]) g' s')
        (witnessArgsSizedCallbacks.parse h g.tx.witnessStack molNumMax buf s)
  begins : ∀ g, g.signingMultisigInput = multisig → R [] (beginWitness 0 g) s₀
  restack : ∀ {ps g s} st, R ps g s → R ps { g with transactionStack := st } s
  witnessStack : ∀ {ps g s} st, R ps g s → R ps { g with tx.witnessStack := st } s
  done : ∀ {ps g s}, R ps g s → R ps { g with tx.firstWitnessDone := true } s

/-- Where the parser of the first witness is, when `rest` is to come. -/
def Position (h : Handler WitnessEvent σ Exc) (R : List (List UInt8) → SignState → σ → Prop)
    (st' : ReaderState) (s₀ s' : σ) (ps : List (List UInt8)) (rest : List UInt8) (g : SignState) :
    Prop :=
  ∃ s, R ps g s ∧
    ((g.tx.firstWitnessDone = false ∧ rest ≠ [] ∧
      witnessArgsSizedCallbacks.Reached h molNumMax s₀ ps.flatten g.tx.witnessStack s) ∨
      (g.tx.firstWitnessDone = true ∧ rest = [] ∧ g.tx.witnessStack = st' ∧ s = s'))

/-- A piece of the first witness. -/
theorem Position.piece (hT : Tracks multisig h R sound s₀) {st' : ReaderState} {s' : σ}
    {buf rest : List UInt8} {ps : List (List UInt8)}
    (hwhole : witnessArgsSizedCallbacks.parse h witnessArgsSizedCallbacks.initState molNumMax
      (ps.flatten ++ (buf ++ rest)) s₀ = ⟨.complete, st', [], s', false⟩)
    (hended : ∀ inp s, witnessArgsSizedCallbacks.parse h st' molNumMax inp s =
      ⟨.complete, st', inp, s, false⟩)
    (hsound : sound (ps.flatten ++ buf) (witnessArgsSizedCallbacks.parse h
      witnessArgsSizedCallbacks.initState molNumMax (ps.flatten ++ buf) s₀).g) {g : SignState}
    (hg : Position h R st' s₀ s' ps (buf ++ rest) g) (hfirst : g.tx.isFirstWitness = true) (env : Env)
    (following : List UInt8) :
    Position h R st' s₀ s' (ps ++ [buf]) rest (processWitness env buf following g) := by
  obtain ⟨s, hR, hpos⟩ := hg
  have hreal := hT.call (following ++ env.beyond) buf hR
  have hframe := Reader.parse_keeps (witnessArgsRewriteCallbacks.every_of_forall
    (witnessHandler_frame (following ++ env.beyond) g.witnessFrame)) g.tx.witnessStack molNumMax
    buf rfl
  rw [← parse_sized] at hreal
  rw [← List.append_assoc] at hwhole
  unfold processWitness
  rw [if_neg (by simp [hfirst])]
  generalize witnessArgsRewriteCallbacks.parse (witnessHandler (following ++ env.beyond))
    g.tx.witnessStack molNumMax buf g = r at hreal hframe ⊢
  rcases hpos with ⟨hd, -, hreached⟩ | ⟨hd, hnil, rfl, rfl⟩
  · have hcut := Reader.cut hT.collecting hwhole
    have hnext := hreached.next hT.collecting (b := buf) <| by
      rcases hcut with ⟨-, hx⟩ | ⟨st₁, s₁, hx, -⟩
      · exact .inl (congrArg Res.rv hx)
      · exact .inr (congrArg Res.rv hx)
    rw [hnext] at hreal
    rcases hcut with ⟨rfl, hx⟩ | ⟨st₁, s₁, hx, hlast⟩
    · rw [hx] at hreal hsound
      obtain ⟨hg⟩ := hreal
      rw [if_pos rfl]
      exact ⟨_, hT.done (hT.witnessStack _ (hg hsound)), .inr ⟨rfl, rfl, rfl, rfl⟩⟩
    · rw [hx] at hreal hsound
      obtain ⟨hg⟩ := hreal
      rw [if_neg (by simp)]
      refine ⟨_, hT.witnessStack _ (hg hsound), .inl ⟨?_, ?_, ?_⟩⟩
      · exact (congrArg (fun x => x.2.2.2) hframe).trans hd
      · rintro rfl
        rw [List.append_nil, hx] at hwhole
        cases hwhole
      · rw [List.flatten_append, List.flatten_singleton]
        exact .call hx
  · obtain ⟨rfl, rfl⟩ := List.append_eq_nil_iff.mp hnil
    rw [List.append_nil] at hwhole
    rw [hwhole] at hsound
    rw [hended] at hreal
    obtain ⟨hg⟩ := hreal
    rw [if_pos rfl]
    exact ⟨_, hT.done (hT.witnessStack _ (hg hsound)), .inr ⟨rfl, rfl, rfl, rfl⟩⟩

variable {w : WitnessArgs} (hT : Tracks multisig h R sound s₀) (hlt : w.encode.length < 2 ^ 32)
  (hsound : ∀ a, a <+: w.encode → sound a (witnessArgsSizedCallbacks.parse h
    witnessArgsSizedCallbacks.initState molNumMax a s₀).g)
include hT hlt

theorem parse_whole : ∃ st', witnessArgsSizedCallbacks.parse h witnessArgsSizedCallbacks.initState
    molNumMax w.encode s₀ = ⟨.complete, st', [], h.replay w.notes s₀, false⟩ := by
  have hscan := witnessArgs_reads hlt []
  rw [List.append_nil] at hscan
  exact Reader.parse_scan hT.collecting.fluid.blind hT.obliging hscan s₀

include hsound

theorem FirstRun.position :
    ∃ st', ∀ {ps g}, FirstRun multisig ps g → ∀ rest, ps.flatten ++ rest = w.encode →
      Position h R st' s₀ (h.replay w.notes s₀) ps rest g := by
  obtain ⟨st', hparse⟩ := parse_whole hT hlt
  have hended := Reader.table_ended rfl rfl hparse
  refine ⟨st', fun {ps g} hrun => ?_⟩
  induction hrun with
  | begin hm hd =>
    rintro rest hrest
    refine ⟨s₀, hT.begins _ hm, .inl ⟨hd, ?_, .start⟩⟩
    rintro rfl
    exact w.encode_ne_nil hrest.symm
  | @piece ps g env buf following hrun ih =>
    intro rest hrest
    rw [List.flatten_append, List.flatten_singleton, List.append_assoc] at hrest
    rw [← hrest] at hparse
    exact (ih _ hrest).piece hT hparse hended (hsound _ ⟨rest, by rw [List.append_assoc, hrest]⟩)
      hrun.frame.2 env following
  | restack st hrun ih =>
    intro rest hrest
    obtain ⟨s, hR, hpos⟩ := ih rest hrest
    exact ⟨s, hT.restack st hR, hpos⟩

/-- A first witness that is a `WitnessArgs` is read to its end. -/
theorem FirstRun.complete {ps : List (List UInt8)} {g : SignState} (hrun : FirstRun multisig ps g)
    (hps : ps.flatten = w.encode) :
    g.tx.firstWitnessDone = true ∧ R ps g (h.replay w.notes s₀) := by
  obtain ⟨st', hpos⟩ := FirstRun.position hT hlt hsound
  obtain ⟨s, hR, ⟨-, hne, -⟩ | ⟨hd, -, -, rfl⟩⟩ := hpos hrun [] (by rw [List.append_nil, hps])
  · exact absurd rfl hne
  · exact ⟨hd, hR⟩

/-- A first witness that is empty is not read at all. -/
theorem FirstRun.empty {ps : List (List UInt8)} {g : SignState} (hrun : FirstRun multisig ps g)
    (hps : ps.flatten = []) : g.tx.firstWitnessDone = false := by
  obtain ⟨st', hpos⟩ := FirstRun.position hT hlt hsound
  obtain ⟨s, -, ⟨hd, -, -⟩ | ⟨-, hnil, -, -⟩⟩ := hpos hrun w.encode (by rw [hps, List.nil_append])
  · exact hd
  · exact absurd hnil w.encode_ne_nil

end Tracks
end SignState

/-! ### The lock replaced -/

/-- The `WitnessArgs` with a lock of 65 zero bytes. -/
def WitnessArgs.unsigned (w : WitnessArgs) : WitnessArgs :=
  { w with lock := some (List.replicate 65 0) }

/-- What goes into the hash up to the types, from the header of the first witness. -/
def rewrittenHeader (totalSize : ℕ) (offsets : List ℕ) : List UInt8 :=
  let offset := fun i => offsets.getD i 0
  let shift := sub32 69 (sub32 (offset 1) (offset 0))
  let newSize := (totalSize + shift) % 2 ^ 32
  leBytes 8 newSize ++ le32 newSize ++ le32 (offset 0) ++ le32 (offset 1 + shift) ++
    le32 (offset 2 + shift) ++ zeroWitness

/-- The callbacks of the first witness, as far as its hash goes, if its lock is replaced. -/
def rewriting : Handler WitnessEvent (List UInt8) Exc where
  run
    | .offsets totalSize offsets, bs => bs ++ rewrittenHeader totalSize offsets
    | .inputTypeChunk buf, bs | .outputTypeChunk buf, bs => bs ++ buf
    | _, bs => bs
  ask _ bs := (bs, true)
  finish _ bs := (bs, none)

theorem witnessArgsSized_collecting {σ ε : Type} {h : Handler WitnessEvent σ ε}
    (hlock : BodyCollects h .lockBody) (hinput : Collects h .inputTypeChunk)
    (houtput : Collects h .outputTypeChunk) : witnessArgsSizedCallbacks.Collecting h := by
  have htype : ∀ {c : List UInt8 → WitnessEvent}, Collects h c →
      (Reader.bytesOpt { chunk := some c } {}).Collecting h := by
    intro c hc
    refine ⟨?_, by simp [Reader.Collecting]⟩
    rintro _ ⟨rfl⟩
    refine ⟨hc, fun bs => ⟨?_, ?_⟩⟩
    · simp [Callbacks.inner, Callbacks.every_mk]
    · simp [Reader.Every, Callbacks.every_mk]
  have hlock' : (Reader.bytesOpt {} { size := some fun n => .lockSize (n - 4 + 4),
                                      bodyChunk := some .lockBody }).Collecting h :=
    ⟨chunkCommutes_none rfl, by rintro _ ⟨rfl⟩; exact hlock⟩
  simp [witnessArgsSizedCallbacks, Reader.witnessArgs, Reader.Collecting, chunkCommutes_none,
    Fin.forall_fin_succ, hlock', htype hinput, htype houtput]

/-- The transaction hash and `bs` were absorbed for the first witness. -/
def Rewritten (g : SignState) (bs : List UInt8) : Prop :=
  g.signingMultisigInput = false ∧
    g.hashState = ({} : HashState).absorb (g.tx.transactionHash.toList ++ bs)

theorem Rewritten.absorb {g : SignState} {bs : List UInt8} (h : Rewritten g bs) (buf : List UInt8) :
    Rewritten (g.blake2bChunk buf) (bs ++ buf) := by
  refine ⟨h.1, ?_⟩
  rw [SignState.blake2bChunk, h.2, HashState.absorb_absorb, List.append_assoc]

theorem rewritten_sameAt (beyond : List UInt8) (e : WitnessEvent) :
    SameAt (SignState.witnessHandler beyond) rewriting Rewritten e where
  run {g bs} hg := by
    cases e with
    | offsets totalSize offsets =>
      simp only [SignState.witnessHandler, SignState.witnessOffsets, hg.1, Bool.false_eq_true,
        if_false]
      convert ((hg.absorb _).absorb _).absorb zeroWitness using 1
      simp [rewriting, rewrittenHeader]
    | lockBody buf following =>
      simp only [SignState.witnessHandler, SignState.witnessLockArgBodyChunk, hg.1, Bool.not_false,
        if_true]
      exact hg
    | inputTypeChunk buf => exact hg.absorb buf
    | outputTypeChunk buf => exact hg.absorb buf
    | lockSize size => exact hg
  ask {g bs} hg := by
    cases e with
    | lockSize size =>
      simp only [SignState.witnessHandler, SignState.witnessLockArgSize, hg.1, Bool.not_false,
        if_true]
      exact ⟨rfl, hg⟩
    | _ => exact ⟨rfl, hg⟩
  finish hg := ⟨rfl, hg⟩

theorem rewriting_tracks :
    SignState.Tracks false rewriting (fun _ => Rewritten) (fun _ _ => True) [] where
  collecting := by
    refine witnessArgsSized_collecting ?_ ?_ ?_
    · exact fun _ _ _ _ _ _ => rfl
    · exact fun _ _ _ => List.append_assoc _ _ _
    · exact fun _ _ _ => List.append_assoc _ _ _
  obliging := ⟨fun _ _ => rfl, fun _ _ => rfl⟩
  call {ps g s} beyond buf hR := by
    have hagrees := Reader.parse_agrees (Reader.every_of_forall (rewritten_sameAt beyond)
      witnessArgsSizedCallbacks) g.tx.witnessStack molNumMax buf hR
    generalize witnessArgsSizedCallbacks.parse (SignState.witnessHandler beyond) _ _ _ _ = r₁
      at hagrees ⊢
    generalize witnessArgsSizedCallbacks.parse rewriting _ _ _ _ = r₂ at hagrees ⊢
    obtain ⟨hg⟩ := hagrees
    exact .same fun _ => hg
  begins g hg := ⟨hg, by simp [SignState.beginWitness, SignState.restartHash, SignState.blake2bChunk]⟩
  restack _ h := h
  witnessStack _ h := h
  done h := h

theorem leBytes_mod (k n : ℕ) : leBytes k (n % 256 ^ k) = leBytes k n := by
  induction k generalizing n with
  | zero => rfl
  | succ k ih =>
    have hdiv : n % 256 ^ (k + 1) / 256 = n / 256 % 256 ^ k := by
      rw [Nat.pow_succ, Nat.mul_comm, Nat.mod_mul_right_div_self]
    have hmod : n % 256 ^ (k + 1) % 256 = n % 256 :=
      Nat.mod_mod_of_dvd n (Dvd.intro_left (256 ^ k) rfl)
    rw [leBytes, leBytes, hdiv, ih, ← UInt8.ofNat_mod_size, hmod, UInt8.ofNat_mod_size]

theorem le32_congr {m n : ℕ} (h : m % 2 ^ 32 = n % 2 ^ 32) : le32 m = le32 n := by
  have hm : leBytes 4 (m % 2 ^ 32) = leBytes 4 m := leBytes_mod 4 m
  have hn : leBytes 4 (n % 2 ^ 32) = leBytes 4 n := leBytes_mod 4 n
  rw [le32, le32, ← hm, ← hn, h]

/-- The header of a `WitnessArgs` is rewritten to that of the `WitnessArgs` with another lock. -/
theorem rewrittenHeader_unsigned {w : WitnessArgs} (hlt : w.encode.length < 2 ^ 32)
    (hlt' : w.unsigned.encode.length < 2 ^ 32) :
    rewrittenHeader w.encode.length (offsetsFrom (headerSize 3) w.fields) ++
        encodeBytesOpt w.inputType ++ encodeBytesOpt w.outputType =
      leBytes 8 w.unsigned.encode.length ++ w.unsigned.encode := by
  obtain ⟨lock, input, output⟩ := w
  have hlen := WitnessArgs.length_encode ⟨lock, input, output⟩
  have hlen' := (WitnessArgs.unsigned ⟨lock, input, output⟩).length_encode
  have hzero : encodeBytesOpt (WitnessArgs.unsigned ⟨lock, input, output⟩).lock = zeroWitness := rfl
  have hzlen : zeroWitness.length = 69 := rfl
  rw [hzero, hzlen] at hlen'
  dsimp only [WitnessArgs.unsigned] at hlen' hlt' ⊢
  dsimp only at hlen
  generalize hl : (encodeBytesOpt lock).length = l at hlen
  generalize hi : (encodeBytesOpt input).length = i at hlen hlen'
  generalize ho : (encodeBytesOpt output).length = o at hlen hlen'
  have hlock : sub32 (16 + l) 16 = l := by
    rw [sub32_of_le (by omega) (by omega), Nat.add_sub_cancel_left]
  have hshift : ∀ x, (16 + l + x + sub32 69 l) % 2 ^ 32 = (16 + 69 + x) % 2 ^ 32 := by
    intro x
    unfold sub32
    omega
  have hsize : (16 + l + i + o + sub32 69 l) % 2 ^ 32 = 16 + 69 + i + o := by
    have h := hshift (i + o)
    rw [← Nat.add_assoc, ← Nat.add_assoc, Nat.mod_eq_of_lt (a := 16 + 69 + i + o) (by omega)] at h
    exact h
  have hinput : le32 (16 + l + sub32 69 l) = le32 (16 + 69) := le32_congr (hshift 0)
  have houtput : le32 (16 + l + i + sub32 69 l) = le32 (16 + 69 + i) := le32_congr (hshift i)
  have hoffsets : offsetsFrom (headerSize 3) (WitnessArgs.fields ⟨lock, input, output⟩) =
      [16, 16 + l, 16 + l + i] := by
    simp [WitnessArgs.fields, offsetsFrom, headerSize, hl, hi]
  have hencode : WitnessArgs.encode ⟨some (List.replicate 65 0), input, output⟩ =
      le32 (16 + 69 + i + o) ++ (le32 16 ++ (le32 (16 + 69) ++ (le32 (16 + 69 + i) ++
        (zeroWitness ++ (encodeBytesOpt input ++ encodeBytesOpt output))))) := by
    have hfields : WitnessArgs.fields ⟨some (List.replicate 65 0), input, output⟩ =
        [zeroWitness, encodeBytesOpt input, encodeBytesOpt output] := rfl
    rw [WitnessArgs.encode, hfields, encodeParts]
    simp [offsetsFrom, headerSize, hi, ho, hzlen, Nat.add_assoc]
    exact congrArg le32 (by omega)
  rw [hoffsets, hlen, hlen', hencode]
  simp only [rewrittenHeader, List.getD_cons_zero, List.getD_cons_succ, hlock, hsize, hinput, houtput,
    List.append_assoc]

theorem rewriting_lock (o : Option (List UInt8)) (bs : List UInt8) :
    rewriting.replay (lockNotes o) bs = bs := by
  cases o with
  | none => rfl
  | some lock =>
    by_cases hb : lock = []
    · rw [lockNotes, if_pos hb]
      rfl
    · rw [lockNotes, if_neg hb]
      rfl

/-- What a first witness puts into the hash is the `WitnessArgs` that has no signature yet. -/
theorem rewriting_replay {w : WitnessArgs} (hlt : w.encode.length < 2 ^ 32)
    (hlt' : w.unsigned.encode.length < 2 ^ 32) :
    rewriting.replay w.notes [] =
      leBytes 8 w.unsigned.encode.length ++ w.unsigned.encode := by
  rw [← rewrittenHeader_unsigned hlt hlt']
  simp only [WitnessArgs.notes, List.cons_append, Handler.replay_cons, Handler.replay_append,
    rewriting_lock]
  rfl

end NervosLedger
