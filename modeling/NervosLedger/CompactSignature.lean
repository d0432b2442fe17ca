import NervosLedger.Types
import NervosLedger.Machine.Buffer
import NervosLedger.Machine.Der

/-!
# Signatures

The SDK signs in DER. `sign` takes the numbers `r` and `s` out of it and puts them, in 32 bytes
each, before the bits that recover the key.
-/
namespace NervosLedger
open Molecule Machine

/-- The bits of `info` that are looked at. -/
structure EccInfo where
  parityOdd : Bool
  xGTn : Bool
  deriving DecidableEq, Repr

/-- `n` bytes of a buffer from index `i` on, if there are as many. -/
def bytesAt (sig : List UInt8) (i n : ℕ) : Option (List UInt8) :=
  if i + n ≤ sig.length then some ((sig.drop i).take n) else none

/-- The part of `sign` that converts `sig`; there is no result if it reads beyond the end. -/
def convertSignature (sig : List UInt8) (info : EccInfo) (out : ℕ) (b : Buffer UInt8) :
    Option (Buffer UInt8) := do
  let rSize := (← sig[3]?).toNat
  let rSizeSat := if rSize > 32 then 32 else rSize
  let r := 4 + if rSize > 32 then 1 else 0
  let sSize := (← sig[3 + rSize + 2]?).toNat
  let sSizeSat := if sSize > 32 then 32 else sSize
  let s := 4 + rSize + 2 + if sSize > 32 then 1 else 0
  let b := b.copy (out + 32 - rSizeSat) (← bytesAt sig r rSizeSat)
  let b := b.copy (out + 64 - sSizeSat) (← bytesAt sig s sSizeSat)
  let b := b.store (out + 64) 0
  let b := if info.parityOdd then b.store (out + 64) (b.cell (out + 64) ||| 0x01) else b
  return if info.xGTn then b.store (out + 64) (b.cell (out + 64) ||| 0x02) else b

def outSizeOfSign : ℕ := 65

/-- `sign`, where `ecdsaSign` is `cx_ecdsa_sign_no_throw` with the private key: what it leaves at
the beginning of `sig`, and `info`. -/
def sign (ecdsaSign : List UInt8 → Except Exc (List UInt8 × EccInfo)) (out : ℕ) (outSize : UInt32)
    (input : List UInt8) (b : Buffer UInt8) : Option (Buffer UInt8 × Except Exc ℕ) :=
  if outSize.toNat < outSizeOfSign then some (b, .error .wrongLength)
  else
    let b := b.copy out (List.replicate outSizeOfSign 0)
    match ecdsaSign input with
    | .error e => some (b, .error e)
    | .ok (sig, info) =>
      let sig := sig ++ List.replicate (100 - sig.length) 0
      (convertSignature sig info out b).map fun b => (b, .ok outSizeOfSign)

/-- The two recovery bits. -/
def recoveryBits (info : EccInfo) : UInt8 :=
  (if info.parityOdd then 1 else 0) + if info.xGTn then 2 else 0

/-- The 65 bytes of a signature. -/
def compactSignature (r s : ℕ) (info : EccInfo) : List UInt8 :=
  beBytes 32 r ++ (beBytes 32 s ++ [recoveryBits info])

/-! ### What is read -/

theorem bytesAt_append (as bs cs : List UInt8) :
    bytesAt (as ++ (bs ++ cs)) as.length bs.length = some bs := by
  rw [bytesAt, if_pos (by simp), List.drop_left, List.take_left]

section Read
variable {rc sc : List UInt8} {r s : ℕ} (hr : DerInteger rc r) (hs : DerInteger sc s)
  (hr256 : r < 256 ^ 32) (hs256 : s < 256 ^ 32) (rest : List UInt8)

theorem toNat_ofNat_length {c : List UInt8} (h : c.length ≤ 33) :
    (UInt8.ofNat c.length).toNat = c.length := by
  rw [UInt8.toNat_ofNat']
  omega

theorem min_32 (n : ℕ) : (if n > 32 then 32 else n) = min 32 n := by
  split <;> omega

/-- Where a number starts, after the zero that is skipped. -/
theorem bytesAt_significant {c : List UInt8} {n : ℕ} (h : DerInteger c n) (hn : n < 256 ^ 32)
    (before after : List UInt8) {i : ℕ} (hi : before.length = i) :
    bytesAt (before ++ (c ++ after)) (i + if c.length > 32 then 1 else 0) (min 32 c.length) =
      some (significant 32 c) := by
  obtain ⟨-, hlen, -⟩ := h.length_le hn
  have hsplit : c = c.take (if c.length > 32 then 1 else 0) ++ significant 32 c :=
    (List.take_append_drop _ _).symm
  have hstart : (before ++ c.take (if c.length > 32 then 1 else 0)).length =
      i + if c.length > 32 then 1 else 0 := by
    rw [List.length_append, List.length_take, hi]
    split <;> omega
  have hread := bytesAt_append (before ++ c.take (if c.length > 32 then 1 else 0))
    (significant 32 c) after
  rw [hstart, hlen, List.append_assoc, ← List.append_assoc _ (significant 32 c), ← hsplit] at hread
  exact hread

end Read

/-! ### What is written -/

/-- Three parts of a cleared buffer, each written at its end. -/
theorem copy_zeros (b : Buffer UInt8) (out : ℕ) {x y : List UInt8} (hx : x.length ≤ 32)
    (hy : y.length ≤ 32) :
    ((b.copy out (List.replicate outSizeOfSign 0)).copy (out + 32 - x.length) x).copy
      (out + 64 - y.length) y =
      b.copy out (List.replicate (32 - x.length) 0 ++ x ++
        (List.replicate (32 - y.length) 0 ++ y) ++ [0]) := by
  have hzeros : List.replicate outSizeOfSign (0 : UInt8) = List.replicate (32 - x.length) 0 ++
      (List.replicate x.length 0 ++ List.replicate 33 0) := by
    simp only [← List.replicate_add, outSizeOfSign]
    congr 1
    omega
  have hfirst := Buffer.copy_inside b out (List.replicate (32 - x.length) 0)
    (List.replicate 33 0) (List.length_replicate : (List.replicate x.length (0 : UInt8)).length = _)
  have hmiddle : List.replicate 33 (0 : UInt8) = List.replicate (32 - y.length) 0 ++
      (List.replicate y.length 0 ++ [0]) := by
    have hone : [0] = List.replicate 1 (0 : UInt8) := rfl
    simp only [hone, ← List.replicate_add]
    congr 1
    omega
  have hsecond := Buffer.copy_inside b out
    (List.replicate (32 - x.length) 0 ++ x ++ List.replicate (32 - y.length) 0) [0]
    (List.length_replicate : (List.replicate y.length (0 : UInt8)).length = _)
  have hx' : out + (32 - x.length) = out + 32 - x.length := by omega
  have hy' : out + (32 - x.length + x.length + (32 - y.length)) = out + 64 - y.length := by omega
  simp only [List.length_append, List.length_replicate, hx', hy'] at hfirst hsecond
  rw [hzeros, hfirst, hmiddle]
  simp only [List.append_assoc] at hsecond ⊢
  exact hsecond

theorem cell_store (b : Buffer UInt8) (i : ℕ) (c : UInt8) : (b.store i c).cell i = c :=
  if_pos rfl

theorem store_store (b : Buffer UInt8) (i : ℕ) (c d : UInt8) :
    (b.store i c).store i d = b.store i d := by
  ext k
  · simp only [Buffer.store]
    split <;> rfl
  · simp [Buffer.store]

/-- The two bits are set one by one. -/
theorem recovery_stores (info : EccInfo) (i : ℕ) (b : Buffer UInt8) :
    (let b := b.store i 0
      let b := if info.parityOdd then b.store i (b.cell i ||| 0x01) else b
      if info.xGTn then b.store i (b.cell i ||| 0x02) else b) =
      b.store i (recoveryBits info) := by
  have hboth : (1 : UInt8) ||| 2 = 3 := rfl
  obtain ⟨parity, overflow⟩ := info
  cases parity <;> cases overflow <;> simp [cell_store, store_store, recoveryBits, hboth]

/-- The numbers are found wherever the first one ends, and nothing is read behind the second. -/
theorem convertSignature_eq {rc sc : List UInt8} {r s : ℕ} (hr : DerInteger rc r)
    (hs : DerInteger sc s) (hr256 : r < 256 ^ 32) (hs256 : s < 256 ^ 32) (rest : List UInt8)
    (info : EccInfo) (out : ℕ) (b : Buffer UInt8) :
    convertSignature (derSequence rc sc ++ rest) info out
      (b.copy out (List.replicate outSizeOfSign 0)) =
      some (b.copy out (compactSignature r s info)) := by
  obtain ⟨hrc, hrlen, -⟩ := hr.length_le hr256
  obtain ⟨hsc, hslen, -⟩ := hs.length_le hs256
  let total := UInt8.ofNat (rc.length + sc.length + 4)
  let tail := [0x02, UInt8.ofNat sc.length] ++ (sc ++ rest)
  have hsig : derSequence rc sc ++ rest =
      [0x30, total, 0x02, UInt8.ofNat rc.length] ++ (rc ++ tail) := by
    simp [derSequence, total, tail]
  have hsig' : derSequence rc sc ++ rest = ([0x30, total, 0x02, UInt8.ofNat rc.length] ++ rc ++
      [0x02, UInt8.ofNat sc.length]) ++ (sc ++ rest) := by
    simp [derSequence, total]
  have hrSize : (derSequence rc sc ++ rest)[3]? = some (UInt8.ofNat rc.length) := rfl
  have hsSize : (derSequence rc sc ++ rest)[3 + rc.length + 2]? =
      some (UInt8.ofNat sc.length) := by
    have hindex : 3 + rc.length + 2 = 4 + (rc.length + 1) := by omega
    rw [hsig, hindex, List.getElem?_append_right (by simp)]
    simp [tail]
  have hrBytes := bytesAt_significant hr hr256 [0x30, total, 0x02, UInt8.ofNat rc.length] tail rfl
  have hsBytes := bytesAt_significant hs hs256 ([0x30, total, 0x02, UInt8.ofNat rc.length] ++ rc ++
    [0x02, UInt8.ofNat sc.length]) rest (by simp; omega :
      ([0x30, total, 0x02, UInt8.ofNat rc.length] ++ rc ++
        [0x02, UInt8.ofNat sc.length]).length = 4 + rc.length + 2)
  rw [← hsig] at hrBytes
  rw [← hsig'] at hsBytes
  have hwritten := copy_zeros b out (hrlen.le.trans (Nat.min_le_left _ _))
    (hslen.le.trans (Nat.min_le_left _ _))
  rw [hrlen, hslen, hr.right_aligned hr256, hs.right_aligned hs256] at hwritten
  have hlast := @Buffer.copy_copy UInt8 b out (beBytes 32 r ++ beBytes 32 s) [0]
    [recoveryBits info] le_rfl
  have h64 : (beBytes 32 r ++ beBytes 32 s).length = 64 := by simp [beBytes]
  rw [h64] at hlast
  simp only [convertSignature, hrSize, hsSize, Option.bind_eq_bind, Option.bind_some,
    toNat_ofNat_length hrc, toNat_ofNat_length hsc, min_32]
  simp only [List.length_cons, List.length_nil] at hrBytes
  simp only [hrBytes, hsBytes, Option.bind_some, hwritten]
  have hbits := recovery_stores info (out + 64)
    (b.copy out (beBytes 32 r ++ beBytes 32 s ++ [0]))
  rw [Buffer.store_eq_copy _ _ (recoveryBits info), hlast] at hbits
  rw [compactSignature, ← List.append_assoc, ← hbits]
  rfl

theorem length_compactSignature (r s : ℕ) (info : EccInfo) :
    (compactSignature r s info).length = 65 := by
  simp [compactSignature, beBytes]

/-- Whatever numbers the SDK returns, `sign` writes them in 32 bytes each and the two recovery bits
behind them, over whatever was there. It would do so if the bytes behind the encoding were not
there to be read. -/
theorem sign_writes_compact {ecdsaSign : List UInt8 → Except Exc (List UInt8 × EccInfo)}
    {input rc sc : List UInt8} {info : EccInfo} {r s : ℕ}
    (hsign : ecdsaSign input = .ok (derSequence rc sc, info)) (hr : DerInteger rc r)
    (hs : DerInteger sc s) (hr256 : r < 2 ^ 256) (hs256 : s < 2 ^ 256) (out : ℕ)
    {outSize : UInt32} (hout : 65 ≤ outSize.toNat) (b : Buffer UInt8) :
    sign ecdsaSign out outSize input b =
        some (b.copy out (compactSignature r s info), .ok 65) ∧
      (b.copy out (compactSignature r s info)).read out 65 =
        beBytes 32 r ++ (beBytes 32 s ++ [recoveryBits info]) ∧
      convertSignature (derSequence rc sc) info out (b.copy out (List.replicate 65 0)) =
        some (b.copy out (compactSignature r s info)) := by
  have hpow : 2 ^ 256 = 256 ^ 32 := by norm_num
  rw [hpow] at hr256 hs256
  refine ⟨?_, ?_, ?_⟩
  · have hguard : ¬ outSize.toNat < outSizeOfSign := Nat.not_lt.mpr hout
    rw [sign, if_neg hguard, hsign]
    simp only [convertSignature_eq hr hs hr256 hs256, Option.map_some]
    rfl
  · rw [← length_compactSignature r s info, Buffer.read_copy]
    rfl
  · have hexact := convertSignature_eq hr hs hr256 hs256 [] info out b
    rwa [List.append_nil] at hexact

/-- An `s` whose first bit is set. -/
def sampleS : List UInt8 := 0x00 :: 0x80 :: List.replicate 31 0

/-- A number of one byte and one of 33. -/
theorem sampleSignature_compact : ∃ ecdsaSign : List UInt8 → Except Exc (List UInt8 × EccInfo),
    ecdsaSign [] = .ok (derSequence [0x05] sampleS, ⟨true, false⟩) ∧ ∃ b,
      sign ecdsaSign 0 65 [] ⟨fun _ => 0xff, ∅⟩ = some (b, .ok 65) ∧
        b.read 0 65 = beBytes 32 5 ++ (beBytes 32 (2 ^ 255) ++ [1]) := by
  have hr : DerInteger [0x05] 5 := ⟨rfl, by simp, by decide +kernel, by simp⟩
  have hs : DerInteger sampleS (2 ^ 255) := by
    refine ⟨by decide +kernel, by simp [sampleS], by decide +kernel, ?_⟩
    intro b bs h
    obtain ⟨rfl, -⟩ := List.cons_eq_cons.mp (List.cons_eq_cons.mp h).2
    decide
  obtain ⟨hsign, hread, -⟩ := @sign_writes_compact (fun _ => .ok (derSequence [0x05] sampleS,
    ⟨true, false⟩)) [] [0x05] sampleS ⟨true, false⟩ 5 (2 ^ 255) rfl hr hs (by decide)
    (Nat.pow_lt_pow_right (by decide) (by decide)) 0 65 (by decide) ⟨fun _ => 0xff, ∅⟩
  exact ⟨_, rfl, _, hsign, hread⟩

end NervosLedger
