import NervosLedger.Callbacks
import NervosLedger.ToString
import NervosLedger.Machine.Bech32

/-!
# Addresses

A lock is shown as the bech32m string of a payload: `convert_bits` regroups the payload into
symbols of five bits, and `bech32_encode` writes them with their checksum.
-/
namespace NervosLedger
open Molecule Machine

/-! ### `convert_bits` -/

/-- The inner loop of `convert_bits`: the bits that are left, and the output. -/
def convertBitsWhile (outlenMax outbits : ℕ) (val : UInt32) (bits : ℕ) (out : List UInt8) :
    Option (ℕ × List UInt8) :=
  if 0 < outbits ∧ outbits ≤ bits then
    if out.length ≥ outlenMax then none
    else
      let maxv : UInt32 := ((1 : UInt32) <<< UInt32.ofNat outbits) - 1
      convertBitsWhile outlenMax outbits val (bits - outbits)
        (out ++ [((val >>> UInt32.ofNat (bits - outbits)) &&& maxv).toUInt8])
  else some (bits, out)
  termination_by bits

/-- The outer loop. -/
def convertBitsLoop (outlenMax outbits inbits : ℕ) :
    List UInt8 → UInt32 → ℕ → List UInt8 → Option (UInt32 × ℕ × List UInt8)
  | [], val, bits, out => some (val, bits, out)
  | c :: input, val, bits, out =>
    let val := (val <<< UInt32.ofNat inbits) ||| c.toUInt32
    match convertBitsWhile outlenMax outbits val (bits + inbits) out with
    | none => none
    | some (bits, out) => convertBitsLoop outlenMax outbits inbits input val bits out

/-- `convert_bits`. -/
def convertBits (outlenMax outbits : ℕ) (input : List UInt8) (inbits : ℕ) (pad : Bool) :
    Option (List UInt8) :=
  let maxv : UInt32 := ((1 : UInt32) <<< UInt32.ofNat outbits) - 1
  match convertBitsLoop outlenMax outbits inbits input 0 0 [] with
  | none => none
  | some (val, bits, out) =>
    let last := (val <<< UInt32.ofNat (outbits - bits)) &&& maxv
    if pad then
      if bits ≠ 0 then
        if out.length ≥ outlenMax then none else some (out ++ [last.toUInt8])
      else some out
    else if last ≠ 0 ∨ bits ≥ inbits then none
    else some out

/-! ### `bech32_encode` -/

/-- One term of `bech32_polymod_step`. -/
def polymodTerm (b : UInt8) (i : UInt8) (g : UInt32) : UInt32 :=
  (0 - ((b >>> i) &&& 1).toUInt32) &&& g

def bech32PolymodStep (pre : UInt32) : UInt32 :=
  let b := (pre >>> 25).toUInt8
  ((pre &&& 0x1FFFFFF) <<< 5) ^^^ polymodTerm b 0 0x3b6a57b2 ^^^ polymodTerm b 1 0x26508e6d ^^^
    polymodTerm b 2 0x1ea119fa ^^^ polymodTerm b 3 0x3d4233dd ^^^ polymodTerm b 4 0x2a1462b3

/-- "qpzry9x8gf2tvdw0s3jn54khce6mua7l". -/
def charset : List UInt8 :=
  [113, 112, 122, 114, 121, 57, 120, 56, 103, 102, 50, 116, 118, 100, 119, 48,
    115, 51, 106, 110, 53, 52, 107, 104, 99, 101, 54, 109, 117, 97, 55, 108]

/-- The first loop over the human-readable part. -/
def hrpHigh : List UInt8 → UInt32 → Option UInt32
  | [], chk => some chk
  | c :: hrp, chk =>
    if 65 ≤ c ∧ c ≤ 90 then none
    else if c >>> (5 : UInt8) = 0 then none
    else hrpHigh hrp (bech32PolymodStep chk ^^^ (c >>> (5 : UInt8)).toUInt32)

section Encode
variable (output : ℕ) (outLen : UInt32)

/-- The second one. -/
def hrpLow : List UInt8 → UInt32 → ℕ → Buffer UInt8 → Buffer UInt8 × Option (UInt32 × ℕ)
  | [], chk, outOff, b => (b, some (chk, outOff))
  | c :: hrp, chk, outOff, b =>
    let chk := bech32PolymodStep chk ^^^ (c &&& (0x1f : UInt8)).toUInt32
    if outOff ≥ outLen.toNat then (b, none)
    else hrpLow hrp chk (outOff + 1) (b.store (output + outOff) c)

def dataLoop : List UInt8 → UInt32 → ℕ → Buffer UInt8 → Buffer UInt8 × Option (UInt32 × ℕ)
  | [], chk, outOff, b => (b, some (chk, outOff))
  | v :: data, chk, outOff, b =>
    if v >>> (5 : UInt8) ≠ 0 then (b, none)
    else
      let chk := bech32PolymodStep chk ^^^ v.toUInt32
      if outOff ≥ outLen.toNat then (b, none)
      else dataLoop data chk (outOff + 1) (b.store (output + outOff) (charset.getD v.toNat 0))

/-- The loop over the symbols of the checksum; `n` of them are left. -/
def checksumLoop (chk : UInt32) : ℕ → ℕ → Buffer UInt8 → Buffer UInt8 × Option ℕ
  | 0, outOff, b => (b, some outOff)
  | n + 1, outOff, b =>
    if outOff ≥ outLen.toNat then (b, none)
    else checksumLoop chk n (outOff + 1) (b.store (output + outOff)
      (charset.getD ((chk >>> UInt32.ofNat (n * 5)) &&& 0x1f).toNat 0))

/-- `bech32_encode`: the buffer, and whether it succeeded. The NUL is written without a look at
the length. -/
def bech32Encode (hrp data : List UInt8) (isBech32m : Bool) (b : Buffer UInt8) :
    Buffer UInt8 × Bool :=
  match hrpHigh hrp 1 with
  | none => (b, false)
  | some chk =>
    if hrp.length + 7 + data.length > 1023 then (b, false)
    else match hrpLow output outLen hrp (bech32PolymodStep chk) 0 b with
      | (b, none) => (b, false)
      | (b, some (chk, outOff)) =>
        if outOff ≥ outLen.toNat then (b, false)
        else match dataLoop output outLen data chk (outOff + 1) (b.store (output + outOff) 49) with
          | (b, none) => (b, false)
          | (b, some (chk, outOff)) =>
            let chk := bech32PolymodStep^[6] chk ^^^ if isBech32m then 0x2bc830a3 else 1
            match checksumLoop output outLen chk 6 outOff b with
            | (b, none) => (b, false)
            | (b, some outOff) => (b.store (output + outOff) 0, true)

end Encode

/-! ### The address of a lock -/

/-- "ckb" or "ckt". -/
def hrpOf : AddressType → List UInt8
  | .mainnet => [99, 107, 98]
  | .testnet => [99, 107, 116]

/-- `render_pkh`. -/
def renderPkh (addressType : AddressType) (out : ℕ) (outSize : UInt32) (payload : List UInt8)
    (b : Buffer UInt8) : Formatted :=
  match convertBits 256 5 payload 8 true with
  | none => (b, some .memoryError)
  | some base32 =>
    match bech32Encode out outSize (hrpOf addressType) base32 true b with
    | (b, false) => (b, some .memoryError)
    | (b, true) => (b, none)

/-- A payload with its full code hash: what `args` are to the lock. -/
def fullPayload (codeHash args : List UInt8) : List UInt8 := 0x00 :: codeHash ++ 0x01 :: args

def sighashPayload (lockArg : LockArg) : List UInt8 :=
  fullPayload defaultLockScript.toList lockArg.hash.toList

def hasTimelock (lockArg : LockArg) : Bool := lockArg.lockPeriod.toList.any (· ≠ 0)

def multisigPayload (lockArg : LockArg) : List UInt8 :=
  if hasTimelock lockArg then fullPayload multisigLockScript.toList lockArg.toList
  else fullPayload multisigLockScript.toList lockArg.hash.toList

def lockArgToSighashAddress (addressType : AddressType) (dest : ℕ) (buffSize : UInt32)
    (lockArg : LockArg) (b : Buffer UInt8) : Formatted :=
  renderPkh addressType dest buffSize (sighashPayload lockArg) b

def lockArgToMultisigAddress (addressType : AddressType) (dest : ℕ) (buffSize : UInt32)
    (lockArg : LockArg) (b : Buffer UInt8) : Formatted :=
  renderPkh addressType dest buffSize (multisigPayload lockArg) b

/-! ### What `convert_bits` computes -/

theorem toNat_lowBits (x : UInt32) {k : ℕ} (hk : k < 32) :
    ((x >>> UInt32.ofNat k) &&& (((1 : UInt32) <<< UInt32.ofNat 5) - 1)).toUInt8.toNat =
      x.toNat / 2 ^ k % 32 := toNat_symbol x hk

theorem convertBitsWhile_eq {max bits : ℕ} {val : UInt32} {out : List UInt8} (hbits : bits ≤ 31)
    (hmax : out.length + bits / 5 ≤ max) : ∃ symbols,
      convertBitsWhile max 5 val bits out = some (bits % 5, out ++ symbols) ∧
        (∀ v ∈ symbols, v.toNat < 32) ∧
        bitsOfAll 5 symbols ++ bitsOf (bits % 5) val.toNat = bitsOf bits val.toNat := by
  induction bits using Nat.strongRecOn generalizing out with
  | _ bits ih =>
    rcases Nat.lt_or_ge bits 5 with hlt | hge
    · refine ⟨[], ?_, by simp, ?_⟩
      · rw [convertBitsWhile, if_neg (by omega), Nat.mod_eq_of_lt hlt, List.append_nil]
      · rw [Nat.mod_eq_of_lt hlt]
        rfl
    · let v := ((val >>> UInt32.ofNat (bits - 5)) &&&
        (((1 : UInt32) <<< UInt32.ofNat 5) - 1)).toUInt8
      have hv : v.toNat = val.toNat / 2 ^ (bits - 5) % 32 := toNat_lowBits val (by omega)
      have hmax' : (out ++ [v]).length + (bits - 5) / 5 ≤ max := by
        rw [List.length_append, List.length_singleton]
        omega
      obtain ⟨symbols, heq, hsymbols, hrest⟩ := ih (bits - 5) (by omega) (by omega) hmax'
      have hmod : (bits - 5) % 5 = bits % 5 := by omega
      rw [hmod] at heq hrest
      refine ⟨v :: symbols, ?_, ?_, ?_⟩
      · rw [convertBitsWhile, if_pos (by omega), if_neg (by omega)]
        rw [List.append_assoc] at heq
        exact heq
      · intro u hu
        rcases List.mem_cons.mp hu with rfl | hu
        · rw [hv]
          exact Nat.mod_lt _ (by decide)
        · exact hsymbols u hu
      · have hcons : bitsOfAll 5 (v :: symbols) = bitsOf 5 v.toNat ++ bitsOfAll 5 symbols :=
          List.flatMap_cons
        have hsplit : bits = 5 + (bits - 5) := by omega
        have hlow : bitsOf 5 v.toNat = bitsOf 5 (val.toNat / 2 ^ (bits - 5)) := by
          rw [hv]
          exact bitsOf_mod 5 _
        rw [hcons, List.append_assoc, hrest, hlow]
        conv_rhs => rw [hsplit, bitsOf_add]

theorem toNat_shift_or (val : UInt32) (c : UInt8) :
    ((val <<< UInt32.ofNat 8) ||| c.toUInt32).toNat = (val.toNat * 2 ^ 8 + c.toNat) % 2 ^ 32 := by
  have hc := c.toNat_lt
  have h8 : (UInt32.ofNat 8).toNat % 32 = 8 := rfl
  have hshift : (val <<< UInt32.ofNat 8).toNat = 2 ^ 8 * (val.toNat % 2 ^ 24) := by
    rw [UInt32.toNat_shiftLeft, Nat.shiftLeft_eq, h8]
    omega
  rw [UInt32.toNat_or, hshift, UInt8.toNat_toUInt32, ← Nat.two_pow_add_eq_or_of_lt hc]
  omega

/-- The accumulator overflows, but not in the bits that are still to be put out. -/
theorem bitsOf_shift_or {bits : ℕ} (hbits : bits < 5) (val : UInt32) (c : UInt8) :
    bitsOf (bits + 8) ((val <<< UInt32.ofNat 8) ||| c.toUInt32).toNat =
      bitsOf bits val.toNat ++ bitsOf 8 c.toNat := by
  have hc := c.toNat_lt
  have hpow : 2 ^ (bits + 8) ∣ 2 ^ 32 := Nat.pow_dvd_pow 2 (by omega)
  have hmod : bitsOf (bits + 8) ((val.toNat * 2 ^ 8 + c.toNat) % 2 ^ 32) =
      bitsOf (bits + 8) (val.toNat * 2 ^ 8 + c.toNat) := bitsOf_congr (Nat.mod_mod_of_dvd _ hpow)
  have hhigh : (val.toNat * 2 ^ 8 + c.toNat) / 2 ^ 8 = val.toNat := by omega
  have hlow : bitsOf 8 (val.toNat * 2 ^ 8 + c.toNat) = bitsOf 8 c.toNat :=
    bitsOf_congr (by omega)
  rw [toNat_shift_or, hmod, bitsOf_add, hhigh, hlow]

theorem convertBitsLoop_eq {max : ℕ} (input : List UInt8) {val : UInt32} {bits : ℕ}
    {out : List UInt8} (hbits : bits < 5)
    (hmax : out.length + (bits + 8 * input.length) / 5 ≤ max) : ∃ val' bits' symbols,
      convertBitsLoop max 5 8 input val bits out = some (val', bits', out ++ symbols) ∧
        bits' < 5 ∧ (∀ v ∈ symbols, v.toNat < 32) ∧
        bitsOfAll 5 symbols ++ bitsOf bits' val'.toNat =
          bitsOf bits val.toNat ++ bitsOfAll 8 input := by
  induction input generalizing val bits out with
  | nil => exact ⟨val, bits, [], by simp [convertBitsLoop], hbits, by simp, by simp [bitsOfAll]⟩
  | cons c input ih =>
    rw [List.length_cons] at hmax
    obtain ⟨symbols, hwhile, hsymbols, hrest⟩ := @convertBitsWhile_eq max (bits + 8)
      ((val <<< UInt32.ofNat 8) ||| c.toUInt32) out (by omega) (by omega)
    have hlen := congrArg List.length hrest
    rw [List.length_append, length_bitsOfAll, length_bitsOf, length_bitsOf] at hlen
    have hmax' : (out ++ symbols).length + ((bits + 8) % 5 + 8 * input.length) / 5 ≤ max := by
      rw [List.length_append]
      omega
    obtain ⟨val', bits', symbols', hloop, hbits', hsymbols', hrest'⟩ :=
      @ih ((val <<< UInt32.ofNat 8) ||| c.toUInt32) ((bits + 8) % 5) (out ++ symbols)
        (Nat.mod_lt _ (by decide)) hmax'
    refine ⟨val', bits', symbols ++ symbols', ?_, hbits', ?_, ?_⟩
    · simp only [convertBitsLoop, hwhile, hloop, List.append_assoc]
    · intro v hv
      rcases List.mem_append.mp hv with hv | hv
      · exact hsymbols v hv
      · exact hsymbols' v hv
    · have hcons : bitsOfAll 8 (c :: input) = bitsOf 8 c.toNat ++ bitsOfAll 8 input :=
        List.flatMap_cons
      rw [bitsOfAll_append, List.append_assoc, hrest', ← List.append_assoc, hrest,
        bitsOf_shift_or hbits, hcons, List.append_assoc]

theorem toNat_lastSymbol (val : UInt32) {k : ℕ} (hk : k < 32) :
    ((val <<< UInt32.ofNat k) &&& (((1 : UInt32) <<< UInt32.ofNat 5) - 1)).toUInt8.toNat =
      val.toNat * 2 ^ k % 32 := by
  have hmask : (((1 : UInt32) <<< UInt32.ofNat 5) - 1).toNat = 2 ^ 5 - 1 := rfl
  have hofNat : (UInt32.ofNat k).toNat = k := UInt32.toNat_ofNat_of_lt' (hk.trans (by decide))
  rw [UInt32.toNat_toUInt8, UInt32.toNat_and, UInt32.toNat_shiftLeft, hmask,
    Nat.and_two_pow_sub_one_eq_mod, hofNat, Nat.mod_eq_of_lt hk, Nat.shiftLeft_eq]
  generalize val.toNat * 2 ^ k = n
  omega

/-- The symbols carry the bits of the payload, and less than a symbol of zeros. -/
theorem convertBits_eq {input : List UInt8} (hlen : input.length ≤ 100) : ∃ symbols pad,
    convertBits 256 5 input 8 true = some symbols ∧ pad < 5 ∧ (∀ v ∈ symbols, v.toNat < 32) ∧
      bitsOfAll 5 symbols = bitsOfAll 8 input ++ List.replicate pad false := by
  obtain ⟨val, bits, symbols, hloop, hbits, hsymbols, hrest⟩ :=
    @convertBitsLoop_eq 256 input 0 0 [] (by decide) (by simp; omega)
  have hlen' := congrArg List.length hrest
  simp only [List.length_append, length_bitsOfAll, length_bitsOf] at hlen'
  have hnil : bitsOf 0 (0 : UInt32).toNat = [] := rfl
  rw [hnil, List.nil_append] at hrest
  rw [List.nil_append] at hloop
  rcases Nat.eq_zero_or_pos bits with rfl | hpos
  · have hzero : bitsOf 0 val.toNat = [] := rfl
    rw [hzero, List.append_nil] at hrest
    exact ⟨symbols, 0, by simp [convertBits, hloop], by decide, hsymbols, by simp [hrest]⟩
  · let last := ((val <<< UInt32.ofNat (5 - bits)) &&&
      (((1 : UInt32) <<< UInt32.ofNat 5) - 1)).toUInt8
    have hlast : last.toNat = val.toNat * 2 ^ (5 - bits) % 32 := toNat_lastSymbol val (by omega)
    refine ⟨symbols ++ [last], 5 - bits, ?_, by omega, ?_, ?_⟩
    · have hne : bits ≠ 0 := by omega
      have hroom : ¬ symbols.length ≥ 256 := by omega
      simp only [convertBits, hloop, if_true, if_pos hne, if_neg hroom]
      rfl
    · intro v hv
      rcases List.mem_append.mp hv with hv | hv
      · exact hsymbols v hv
      · rw [List.mem_singleton.mp hv, hlast]
        exact Nat.mod_lt _ (by decide)
    · have hbitsOf : bitsOf 5 last.toNat = bitsOf bits val.toNat ++
          List.replicate (5 - bits) false := by
        have hmul := bitsOf_mul bits (5 - bits) val.toNat
        have h5 : bits + (5 - bits) = 5 := by omega
        rw [h5] at hmul
        have hmod : bitsOf 5 (val.toNat * 2 ^ (5 - bits) % 32) =
            bitsOf 5 (val.toNat * 2 ^ (5 - bits)) := bitsOf_mod 5 _
        rw [hlast, hmod, hmul]
      have hsingle : bitsOfAll 5 [last] = bitsOf 5 last.toNat := by simp [bitsOfAll]
      rw [bitsOfAll_append, hsingle, hbitsOf, ← List.append_assoc, hrest]

/-! ### What `bech32_encode` writes -/

theorem polymodTerm_eq (pre g : UInt32) {i : ℕ} (hi : i < 5) :
    polymodTerm (pre >>> 25).toUInt8 (UInt8.ofNat i) g = tap pre (25 + i) g := by
  have hb : (pre >>> 25).toUInt8.toNat = pre.toNat / 2 ^ 25 % 2 ^ 8 := by
    have h25 : UInt32.toNat 25 % 32 = 25 := rfl
    rw [UInt32.toNat_toUInt8, UInt32.toNat_shiftRight, h25, Nat.shiftRight_eq_div_pow]
  have hbit : (((pre >>> 25).toUInt8 >>> UInt8.ofNat i) &&& 1).toNat =
      pre.toNat / 2 ^ (25 + i) % 2 := by
    have h1 : UInt8.toNat 1 = 2 ^ 1 - 1 := rfl
    have hofNat : (UInt8.ofNat i).toNat % 8 = i := by
      rw [UInt8.toNat_ofNat']
      omega
    rw [UInt8.toNat_and, UInt8.toNat_shiftRight, h1, Nat.and_two_pow_sub_one_eq_mod, hofNat, hb,
      Nat.shiftRight_eq_div_pow, Nat.pow_add, ← Nat.div_div_eq_div_mul]
    generalize pre.toNat / 2 ^ 25 = n
    obtain rfl | rfl | rfl | rfl | rfl : i = 0 ∨ i = 1 ∨ i = 2 ∨ i = 3 ∨ i = 4 := by omega
    all_goals omega
  rw [tap, Nat.testBit_eq_decide_div_mod_eq, polymodTerm]
  generalize ((pre >>> 25).toUInt8 >>> UInt8.ofNat i) &&& 1 = t at hbit
  rcases Nat.mod_two_eq_zero_or_one (pre.toNat / 2 ^ (25 + i)) with h | h
  · have ht : t = 0 := UInt8.toNat_inj.mp (hbit.trans h)
    simp [h, ht]
  · have ht : t = 1 := UInt8.toNat_inj.mp (hbit.trans h)
    simp [h, ht]

theorem bech32PolymodStep_eq (pre : UInt32) : bech32PolymodStep pre = polymodStep pre := by
  unfold bech32PolymodStep polymodStep
  rw [← polymodTerm_eq pre _ (by decide : 0 < 5), ← polymodTerm_eq pre _ (by decide : 1 < 5),
    ← polymodTerm_eq pre _ (by decide : 2 < 5), ← polymodTerm_eq pre _ (by decide : 3 < 5),
    ← polymodTerm_eq pre _ (by decide : 4 < 5)]
  rfl

theorem polymodFrom_zero_cons (c : UInt32) (values : List UInt8) :
    polymodFrom c (0 :: values) = polymodFrom (polymodStep c) values := by
  have hcons : polymodFrom c (0 :: values) =
      polymodFrom (polymodStep c ^^^ (0 : UInt8).toUInt32) values := rfl
  have hzero : (0 : UInt8).toUInt32 = 0 := rfl
  rw [hcons, hzero, UInt32.xor_zero]

theorem hrpHigh_eq {hrp : List UInt8}
    (h : ∀ c ∈ hrp, ¬ (65 ≤ c ∧ c ≤ 90) ∧ c >>> (5 : UInt8) ≠ 0) (chk : UInt32) :
    hrpHigh hrp chk = some (polymodFrom chk (hrp.map fun c => c >>> (5 : UInt8))) := by
  induction hrp generalizing chk with
  | nil => rfl
  | cons c hrp ih =>
    have hc := h c (by simp)
    rw [hrpHigh, if_neg hc.1, if_neg hc.2, bech32PolymodStep_eq,
      ih fun d hd => h d (List.mem_cons_of_mem _ hd)]
    rfl

theorem shiftRight_of_lt (v : UInt8) : v.toNat < 32 → v >>> (5 : UInt8) = 0 := by
  revert v
  apply forall_byte
  decide +kernel

section Loops
variable {output outOff : ℕ} {outLen : UInt32} {b : Buffer UInt8}

theorem hrpLow_eq {hrp : List UInt8} (h : outOff + hrp.length ≤ outLen.toNat) (chk : UInt32) :
    hrpLow output outLen hrp chk outOff b = (b.copy (output + outOff) hrp,
      some (polymodFrom chk (hrp.map fun c => c &&& (31 : UInt8)), outOff + hrp.length)) := by
  induction hrp generalizing chk outOff b with
  | nil => rfl
  | cons c hrp ih =>
    rw [List.length_cons] at h
    have hlen : outOff + 1 + hrp.length = outOff + (hrp.length + 1) := by omega
    rw [hrpLow, if_neg (by omega), bech32PolymodStep_eq, ih (by omega), hlen]
    rfl

theorem hrpLow_full {hrp : List UInt8} (h : outLen.toNat < outOff + hrp.length)
    (hoff : outOff ≤ outLen.toNat) (chk : UInt32) :
    (hrpLow output outLen hrp chk outOff b).2 = none := by
  induction hrp generalizing chk outOff b with
  | nil =>
    rw [List.length_nil] at h
    omega
  | cons c hrp ih =>
    rw [List.length_cons] at h
    rw [hrpLow]
    split
    · rfl
    · exact ih (by omega) (by omega) _

theorem dataLoop_eq {data : List UInt8} (hdata : ∀ v ∈ data, v.toNat < 32)
    (h : outOff + data.length ≤ outLen.toNat) (chk : UInt32) :
    dataLoop output outLen data chk outOff b = (b.copy (output + outOff) (data.map symbolChar),
      some (polymodFrom chk data, outOff + data.length)) := by
  induction data generalizing chk outOff b with
  | nil => rfl
  | cons v data ih =>
    rw [List.length_cons] at h
    have hv := shiftRight_of_lt v (hdata v (by simp))
    have hlen : outOff + 1 + data.length = outOff + (data.length + 1) := by omega
    rw [dataLoop, if_neg (not_not.mpr hv), if_neg (by omega), bech32PolymodStep_eq,
      ih (fun u hu => hdata u (List.mem_cons_of_mem _ hu)) (by omega), hlen]
    rfl

theorem dataLoop_full {data : List UInt8} (h : outLen.toNat < outOff + data.length)
    (hoff : outOff ≤ outLen.toNat) (chk : UInt32) :
    (dataLoop output outLen data chk outOff b).2 = none := by
  induction data generalizing chk outOff b with
  | nil =>
    rw [List.length_nil] at h
    omega
  | cons v data ih =>
    rw [List.length_cons] at h
    rw [dataLoop]
    split
    · rfl
    · split
      · rfl
      · exact ih (by omega) (by omega) _

/-- The last `n` characters of a checksum. -/
def checksumChars (chk : UInt32) (n : ℕ) : List UInt8 :=
  (List.range n).reverse.map fun k =>
    charset.getD ((chk >>> UInt32.ofNat (k * 5)) &&& 0x1f).toNat 0

theorem checksumChars_succ (chk : UInt32) (n : ℕ) : checksumChars chk (n + 1) =
    charset.getD ((chk >>> UInt32.ofNat (n * 5)) &&& 0x1f).toNat 0 :: checksumChars chk n := by
  rw [checksumChars, List.range_succ, List.reverse_append]
  rfl

@[simp] theorem length_checksumChars (chk : UInt32) (n : ℕ) :
    (checksumChars chk n).length = n := by
  simp [checksumChars]

theorem checksumLoop_eq {n : ℕ} (h : outOff + n ≤ outLen.toNat) (chk : UInt32) :
    checksumLoop output outLen chk n outOff b =
      (b.copy (output + outOff) (checksumChars chk n), some (outOff + n)) := by
  induction n generalizing outOff b with
  | zero => rfl
  | succ n ih =>
    have hlen : outOff + 1 + n = outOff + (n + 1) := by omega
    rw [checksumLoop, if_neg (by omega), ih (by omega), hlen, checksumChars_succ]
    rfl

theorem checksumLoop_full {n : ℕ} (h : outLen.toNat < outOff + n) (hoff : outOff ≤ outLen.toNat)
    (chk : UInt32) : (checksumLoop output outLen chk n outOff b).2 = none := by
  induction n generalizing outOff b with
  | zero => omega
  | succ n ih =>
    rw [checksumLoop]
    split
    · rfl
    · exact ih (by omega) (by omega)

theorem checksumChars_eq (chk : UInt32) :
    checksumChars chk 6 = (checksumSymbols chk).map symbolChar := by
  have hsymbol : ∀ y : UInt32, symbolChar (y &&& 31).toUInt8 = charset.getD (y &&& 31).toNat 0 := by
    intro y
    have h31 : UInt32.toNat 31 = 2 ^ 5 - 1 := rfl
    have hlt : (y &&& 31).toNat < 256 := by
      rw [UInt32.toNat_and, h31, Nat.and_two_pow_sub_one_eq_mod]
      omega
    rw [symbolChar, UInt32.toNat_toUInt8, Nat.mod_eq_of_lt hlt]
    rfl
  simp only [checksumChars, checksumSymbols, List.map_map, Function.comp_def, hsymbol]
  rfl

end Loops

/-- A human-readable part that the encoder takes. -/
def ValidHrp (hrp : List UInt8) : Prop :=
  ∀ c ∈ hrp, ¬ (65 ≤ c ∧ c ≤ 90) ∧ c >>> (5 : UInt8) ≠ 0

section Encoding
variable {output : ℕ} {outLen : UInt32} {hrp data : List UInt8} {b : Buffer UInt8}

theorem length_bech32mText (hrp data : List UInt8) :
    (bech32mText hrp data).length = hrp.length + data.length + 7 := by
  simp only [bech32mText, checksum, List.length_append, List.length_cons, List.length_map,
    length_checksumSymbols]
  omega

/-- A string that fits is written, with a NUL behind it. -/
theorem bech32Encode_eq (hhrp : ValidHrp hrp) (hdata : ∀ v ∈ data, v.toNat < 32)
    (hlen : hrp.length + 7 + data.length ≤ 1023)
    (h : (bech32mText hrp data).length ≤ outLen.toNat) :
    bech32Encode output outLen hrp data true b =
      (b.copy output (bech32mText hrp data ++ [0]), true) := by
  rw [length_bech32mText] at h
  have hlow : 0 + hrp.length ≤ outLen.toNat := by omega
  have hdat : hrp.length + 1 + data.length ≤ outLen.toNat := by omega
  have hsum : hrp.length + 1 + data.length + 6 ≤ outLen.toNat := by omega
  have hchk : polymodFrom (polymodFrom (bech32PolymodStep
      (polymodFrom 1 (hrp.map fun c => c >>> (5 : UInt8)))) (hrp.map fun c => c &&& (31 : UInt8)))
        data = polymod (expandHrp hrp ++ data) := by
    rw [bech32PolymodStep_eq, polymod, polymodFrom_append, expandHrp, polymodFrom_append,
      polymodFrom_zero_cons]
  have hiter : bech32PolymodStep = polymodStep := funext bech32PolymodStep_eq
  have htext : bech32mText hrp data = hrp ++ [49] ++ data.map symbolChar ++
      checksumChars (polymodStep^[6] (polymod (expandHrp hrp ++ data)) ^^^ bech32mConst) 6 := by
    rw [checksumChars_eq]
    simp [bech32mText, checksum]
  simp only [bech32Encode, hrpHigh_eq hhrp, if_neg (Nat.not_lt.mpr hlen), hrpLow_eq hlow,
    Nat.zero_add, Nat.add_zero]
  rw [if_neg (by omega)]
  simp only [dataLoop_eq hdata hdat, hchk]
  simp only [hiter, if_true, checksumLoop_eq hsum]
  simp only [htext, Buffer.copy_append, Buffer.store_eq_copy, List.length_append,
    List.length_singleton, List.length_map, length_checksumChars, Nat.add_assoc]
  rfl

theorem bech32Encode_full (hhrp : ValidHrp hrp) (hdata : ∀ v ∈ data, v.toNat < 32)
    (h : outLen.toNat < (bech32mText hrp data).length) :
    (bech32Encode output outLen hrp data true b).2 = false := by
  rw [length_bech32mText] at h
  simp only [bech32Encode, hrpHigh_eq hhrp]
  split
  · rfl
  · rcases Nat.lt_or_ge outLen.toNat (0 + hrp.length) with hfull | hlow
    · split
      · rfl
      · rename_i heq
        exact absurd (congrArg Prod.snd heq) (by rw [hrpLow_full hfull (Nat.zero_le _)]; nofun)
    · rw [hrpLow_eq hlow]
      dsimp only
      split
      · rfl
      · rename_i hone
        rcases Nat.lt_or_ge outLen.toNat (0 + hrp.length + 1 + data.length) with hfull | hdat
        · split
          · rfl
          · rename_i heq
            exact absurd (congrArg Prod.snd heq) (by rw [dataLoop_full hfull (by omega)]; nofun)
        · rw [dataLoop_eq hdata hdat]
          dsimp only
          split
          · rfl
          · rename_i heq
            exact absurd (congrArg Prod.snd heq)
              (by rw [checksumLoop_full (by omega) hdat]; nofun)

end Encoding

/-! ### Addresses decode to the lock they stand for -/

theorem validHrp_hrpOf (t : AddressType) : ValidHrp (hrpOf t) := by
  unfold ValidHrp
  cases t <;> decide +kernel

theorem length_hrpOf (t : AddressType) : (hrpOf t).length = 3 := by
  cases t <;> rfl

/-- What is written for a payload: the bech32m string of its symbols, if there is room. -/
theorem renderPkh_eq (t : AddressType) {payload : List UInt8} (hlen : payload.length ≤ 100) :
    ∃ symbols pad, pad < 5 ∧ 5 * symbols.length = 8 * payload.length + pad ∧
      (∀ v ∈ symbols, v.toNat < 32) ∧ regroup symbols = some payload ∧
      ∀ (out : ℕ) (outSize : UInt32) (b : Buffer UInt8),
        ((bech32mText (hrpOf t) symbols).length ≤ outSize.toNat →
          renderPkh t out outSize payload b =
            (b.copy out (bech32mText (hrpOf t) symbols ++ [0]), none)) ∧
        (outSize.toNat < (bech32mText (hrpOf t) symbols).length →
          (renderPkh t out outSize payload b).2 = some .memoryError) := by
  obtain ⟨symbols, pad, hconvert, hpad, hsymbols, hbits⟩ := convertBits_eq hlen
  have hcount := congrArg List.length hbits
  rw [length_bitsOfAll, List.length_append, length_bitsOfAll, List.length_replicate] at hcount
  refine ⟨symbols, pad, hpad, hcount, hsymbols, regroup_eq hpad hbits, ?_⟩
  intro out outSize b
  constructor
  · intro hfit
    have hmax : (hrpOf t).length + 7 + symbols.length ≤ 1023 := by
      rw [length_hrpOf]
      omega
    simp only [renderPkh, hconvert, bech32Encode_eq (validHrp_hrpOf t) hsymbols hmax hfit]
  · intro hfull
    have hfalse : (bech32Encode out outSize (hrpOf t) symbols true b).2 = false :=
      bech32Encode_full (validHrp_hrpOf t) hsymbols hfull
    simp only [renderPkh, hconvert]
    split
    · rfl
    · rename_i heq
      exact absurd (congrArg Prod.snd heq) (by rw [hfalse]; nofun)

theorem not_mem_bech32mText {t : AddressType} {symbols : List UInt8}
    (h : ∀ v ∈ symbols, v.toNat < 32) : 0 ∉ bech32mText (hrpOf t) symbols := by
  intro hmem
  rcases List.mem_append.mp hmem with hmem | hmem
  · revert hmem
    cases t <;> decide
  · rcases List.mem_cons.mp hmem with hmem | hmem
    · exact absurd hmem (by decide)
    · obtain ⟨v, hv, h0⟩ := List.mem_map.mp hmem
      have hlt : v.toNat < 32 := by
        rcases List.mem_append.mp hv with hv | hv
        · exact h v hv
        · exact checksumSymbols_lt hv
      exact (symbolChar_spec v hlt).2.2.1 h0

/-- The string is an address of the network that decodes to the payload. -/
def DecodesTo (t : AddressType) (text payload : List UInt8) : Prop :=
  ∃ data, bech32mDecode text = some (hrpOf t, data) ∧ regroup data = some payload

theorem decodesTo_bech32mText (t : AddressType) {symbols payload : List UInt8}
    (hsymbols : ∀ v ∈ symbols, v.toNat < 32) (h : regroup symbols = some payload) :
    DecodesTo t (bech32mText (hrpOf t) symbols) payload := by
  refine ⟨symbols, bech32mDecode_bech32mText ?_ ?_ hsymbols, h⟩
  · cases t <;> decide +kernel
  · unfold IsBech32Char
    cases t <;> decide +kernel

theorem DecodesTo.unique {t : AddressType} {text p q : List UInt8} (hp : DecodesTo t text p)
    (hq : DecodesTo t text q) : p = q := by
  obtain ⟨data, hd, hr⟩ := hp
  obtain ⟨data', hd', hr'⟩ := hq
  cases hd.symm.trans hd'
  exact Option.some.inj (hr.symm.trans hr')

theorem renderPkh_decodes (t : AddressType) {payload : List UInt8} (hlen : payload.length ≤ 100)
    {out : ℕ} {outSize : UInt32} {b : Buffer UInt8}
    (h : (renderPkh t out outSize payload b).2 = none) :
    ∃ text, Prints (renderPkh t out outSize payload b).1 out text ∧ DecodesTo t text payload := by
  obtain ⟨symbols, pad, -, -, hsymbols, hregroup, hrender⟩ := renderPkh_eq t hlen
  obtain ⟨hfits, hfull⟩ := hrender out outSize b
  rcases Nat.lt_or_ge outSize.toNat (bech32mText (hrpOf t) symbols).length with hlt | hle
  · rw [hfull hlt] at h
    cases h
  · refine ⟨_, ?_, decodesTo_bech32mText t hsymbols hregroup⟩
    rw [hfits hle]
    exact prints_copy (not_mem_bech32mText hsymbols) out b

theorem length_fullPayload (codeHash : FixedBytes 32) (args : List UInt8) :
    (fullPayload codeHash.toList args).length = 34 + args.length := by
  simp [fullPayload]
  omega

theorem hasTimelock_iff (a : LockArg) : hasTimelock a = true ↔ a.lockPeriod ≠ .zero 8 := by
  rw [hasTimelock, List.any_eq_true, ne_eq, ← FixedBytes.toList_inj]
  constructor
  · rintro ⟨c, hc, hne⟩ hzero
    rw [hzero] at hc
    simp [FixedBytes.zero] at hc
    simp [hc] at hne
  · intro hne
    by_contra hall
    apply hne
    refine List.eq_replicate_iff.mpr ⟨a.lockPeriod.length_eq, fun c hc => ?_⟩
    by_contra h0
    exact hall ⟨c, hc, by simpa using h0⟩

/-- What a multisig address is to stand for. -/
def multisigLock (a : LockArg) : List UInt8 :=
  0x00 :: multisigLockScript.toList ++ 0x01 :: (a.hash.toList ++
    if a.lockPeriod = .zero 8 then [] else a.lockPeriod.toList)

theorem multisigPayload_eq (a : LockArg) : multisigPayload a = multisigLock a := by
  have hsplit : a.toList = a.hash.toList ++ a.lockPeriod.toList :=
    (List.take_append_drop 20 a.toList).symm
  unfold multisigPayload multisigLock fullPayload
  by_cases h : a.lockPeriod = .zero 8
  · have hno : ¬ hasTimelock a = true := fun ht => (hasTimelock_iff a).mp ht h
    rw [if_neg hno, if_pos h, List.append_nil]
  · rw [if_pos ((hasTimelock_iff a).mpr h), if_neg h, ← hsplit]

theorem length_multisigPayload_le (a : LockArg) : (multisigPayload a).length ≤ 62 := by
  unfold multisigPayload
  split
  · rw [length_fullPayload, a.length_eq]
  · rw [length_fullPayload, a.hash.length_eq]
    decide

theorem multisigLock_inj {a a' : LockArg} (h : multisigLock a = multisigLock a') : a = a' := by
  have hargs := List.cons.inj (List.append_cancel_left (List.cons.inj h).2)
  obtain ⟨hhash, hperiod⟩ := List.append_inj hargs.2 (by simp)
  have hall : a.lockPeriod.toList = a'.lockPeriod.toList := by
    split at hperiod
    · rename_i h0
      split at hperiod
      · rename_i h0'
        rw [h0, h0']
      · have hl := congrArg List.length hperiod
        simp at hl
    · split at hperiod
      · have hl := congrArg List.length hperiod
        simp at hl
      · exact hperiod
  apply FixedBytes.ext
  rw [← List.take_append_drop 20 a.toList, ← List.take_append_drop 20 a'.toList]
  exact congrArg₂ (· ++ ·) hhash hall

/-- The lengths at which an address is written. -/
theorem length_address {symbols payload : List UInt8} {pad : ℕ} (t : AddressType) (hpad : pad < 5)
    (h : 5 * symbols.length = 8 * payload.length + pad) :
    (bech32mText (hrpOf t) symbols).length = (8 * payload.length + 4) / 5 + 10 := by
  rw [length_bech32mText, length_hrpOf]
  omega

theorem renderPkh_returns (t : AddressType) {payload : List UInt8} (hlen : payload.length ≤ 100)
    (out : ℕ) {outSize : UInt32} (h : (8 * payload.length + 4) / 5 + 10 ≤ outSize.toNat)
    (b : Buffer UInt8) : (renderPkh t out outSize payload b).2 = none := by
  obtain ⟨symbols, pad, hpad, hcount, -, -, hrender⟩ := renderPkh_eq t hlen
  rw [← length_address t hpad hcount] at h
  rw [(hrender out outSize b).1 h]

/-- Addresses are decoded, on either network, to the lock they stand for, and two multisig locks
have two addresses. -/
theorem addresses_decode (t : AddressType) :
    (∀ dest buffSize a b, (lockArgToSighashAddress t dest buffSize a b).2 = none →
      ∃ text, Prints (lockArgToSighashAddress t dest buffSize a b).1 dest text ∧
        DecodesTo t text (0x00 :: defaultLockScript.toList ++ 0x01 :: a.hash.toList)) ∧
    (∀ dest buffSize a b, (lockArgToMultisigAddress t dest buffSize a b).2 = none →
      ∃ text, Prints (lockArgToMultisigAddress t dest buffSize a b).1 dest text ∧
        DecodesTo t text (0x00 :: multisigLockScript.toList ++ 0x01 :: (a.hash.toList ++
          if a.lockPeriod = .zero 8 then [] else a.lockPeriod.toList))) ∧
    (∀ (dest : ℕ) (buffSize : UInt32) a b, 110 ≤ buffSize.toNat →
      (lockArgToSighashAddress t dest buffSize a b).2 = none ∧
        (lockArgToMultisigAddress t dest buffSize a b).2 = none) ∧
    (∀ dest buffSize a a' b b' text, (lockArgToMultisigAddress t dest buffSize a b).2 = none →
      (lockArgToMultisigAddress t dest buffSize a' b').2 = none →
        Prints (lockArgToMultisigAddress t dest buffSize a b).1 dest text →
          Prints (lockArgToMultisigAddress t dest buffSize a' b').1 dest text → a = a') := by
  have hsighash : ∀ a, (sighashPayload a).length = 54 := by
    intro a
    rw [sighashPayload, length_fullPayload, a.hash.length_eq]
  have hmultisig := length_multisigPayload_le
  have hdecodes : ∀ dest buffSize a b, (lockArgToMultisigAddress t dest buffSize a b).2 = none →
      ∃ text, Prints (lockArgToMultisigAddress t dest buffSize a b).1 dest text ∧
        DecodesTo t text (multisigLock a) := by
    intro dest buffSize a b h
    have hlen := hmultisig a
    rw [← multisigPayload_eq]
    exact renderPkh_decodes t (by omega) h
  refine ⟨?_, hdecodes, ?_, ?_⟩
  · intro dest buffSize a b h
    have hlen := hsighash a
    exact renderPkh_decodes t (by omega) h
  · intro dest buffSize a b h
    have hlen := hsighash a
    have hlen' := hmultisig a
    exact ⟨renderPkh_returns t (by omega) dest (by omega) b,
      renderPkh_returns t (by omega) dest (by omega) b⟩
  · intro dest buffSize a a' b b' text h h' hp hp'
    obtain ⟨s, hs, hd⟩ := hdecodes dest buffSize a b h
    obtain ⟨s', hs', hd'⟩ := hdecodes dest buffSize a' b' h'
    rw [← hp.unique hs] at hd
    rw [← hp'.unique hs'] at hd'
    exact multisigLock_inj (hd.unique hd')

end NervosLedger
