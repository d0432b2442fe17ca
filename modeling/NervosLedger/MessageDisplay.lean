import NervosLedger.HandlerCases
import NervosLedger.Machine.Bits

/-!
# What is shown of a message

What `replace_undisplayable` makes of a text, and what of a message is on the screen when its
last packet raises the prompt.
-/
namespace NervosLedger
open Molecule Machine

/-! ### The characters of a text -/

/-- How many bytes the loop of `replace_undisplayable` passes over after `b`. -/
def skipOf (b : UInt8) : ℕ :=
  if b &&& 240 = 240 then 3 else if b &&& 224 = 224 then 2 else if b &&& 192 = 192 then 1 else 0

/-- What is written for a byte the loop stops on. -/
def starred (b : UInt8) : UInt8 := if b > 126 ∨ b < 32 then 42 else b

/-- The bytes the loop stops on, when it passes over the next `k`. -/
def visited : ℕ → List UInt8 → List UInt8
  | _, [] => []
  | 0, b :: bs => b :: visited (skipOf b) bs
  | k + 1, _ :: bs => visited k bs

/-- How many bytes are to be passed over where the text ends. -/
def owed : ℕ → List UInt8 → ℕ
  | k, [] => k
  | 0, b :: bs => owed (skipOf b) bs
  | k + 1, _ :: bs => owed k bs

/-- The text of some bytes: each character that cannot be displayed is one `*`. -/
def textOf (k : ℕ) (bs : List UInt8) : List UInt8 := (visited k bs).map starred

/-- The text does not end inside a character of several bytes. -/
def Whole (bs : List UInt8) : Prop := owed 0 bs = 0

instance (bs : List UInt8) : Decidable (Whole bs) := inferInstanceAs (Decidable (_ = _))

theorem skipOf_le (b : UInt8) : skipOf b ≤ 3 := by
  unfold skipOf
  split_ifs <;> omega

theorem skipOf_of_displayable (b : UInt8) : ¬ (b > 126 ∨ b < 32) → skipOf b = 0 := by
  revert b
  apply forall_byte
  decide +kernel

theorem starred_displayable (b : UInt8) : 32 ≤ starred b ∧ starred b ≤ 126 := by
  revert b
  apply forall_byte
  decide +kernel

theorem visited_append (k : ℕ) (as bs : List UInt8) :
    visited k (as ++ bs) = visited k as ++ visited (owed k as) bs := by
  induction as generalizing k with
  | nil => cases k <;> rfl
  | cons a as ih =>
    cases k with
    | zero => exact congrArg (a :: ·) (ih _)
    | succ k => exact ih k

theorem textOf_append (k : ℕ) (as bs : List UInt8) :
    textOf k (as ++ bs) = textOf k as ++ textOf (owed k as) bs := by
  simp [textOf, visited_append]

theorem visited_drop (k : ℕ) (bs : List UInt8) : visited 0 (bs.drop k) = visited k bs := by
  induction bs generalizing k with
  | nil => cases k <;> rfl
  | cons b bs ih =>
    cases k with
    | zero => rfl
    | succ k => exact ih k

theorem owed_drop (k : ℕ) (bs : List UInt8) :
    owed 0 (bs.drop k) + (k - bs.length) = owed k bs := by
  induction bs generalizing k with
  | nil => simp [owed]
  | cons b bs ih =>
    cases k with
    | zero => simp
    | succ k => simpa [owed] using ih k

theorem owed_le {k : ℕ} (hk : k ≤ 3) (bs : List UInt8) : owed k bs ≤ 3 := by
  induction bs generalizing k with
  | nil => simpa [owed] using hk
  | cons b bs ih =>
    cases k with
    | zero => exact ih (skipOf_le b)
    | succ k => exact ih (Nat.le_of_succ_le hk)

theorem length_visited_le (k : ℕ) (bs : List UInt8) : (visited k bs).length ≤ bs.length := by
  induction bs generalizing k with
  | nil => simp [visited]
  | cons b bs ih =>
    cases k with
    | zero => exact Nat.succ_le_succ (ih _)
    | succ k => exact (ih k).trans (Nat.le_succ _)

theorem visited_eq_nil {k : ℕ} {bs : List UInt8} : visited k bs = [] ↔ bs.length ≤ k := by
  induction bs generalizing k with
  | nil => simp [visited]
  | cons b bs ih =>
    cases k with
    | zero => simp [visited]
    | succ k => simpa [visited] using ih

theorem length_textOf_le (k : ℕ) (bs : List UInt8) : (textOf k bs).length ≤ bs.length := by
  simpa [textOf] using length_visited_le k bs

theorem length_le_visited {k : ℕ} (hk : k ≤ 3) (bs : List UInt8) :
    bs.length + owed k bs ≤ k + 4 * (visited k bs).length := by
  induction bs generalizing k with
  | nil => simp [owed]
  | cons b bs ih =>
    have hskip := skipOf_le b
    cases k with
    | zero =>
      have h := ih hskip
      simp only [owed, visited, List.length_cons]
      omega
    | succ k =>
      have h := ih (Nat.le_of_succ_le hk)
      simp only [owed, visited, List.length_cons]
      omega

theorem displayable_of_mem_textOf {k : ℕ} {bs : List UInt8} {b : UInt8} (h : b ∈ textOf k bs) :
    32 ≤ b ∧ b ≤ 126 := by
  obtain ⟨a, -, rfl⟩ := List.mem_map.mp h
  exact starred_displayable a

/-! ### `replace_undisplayable` -/

theorem replaceUndisplayableLoop_cons (b : UInt8) (bs : List UInt8) :
    replaceUndisplayableLoop (b :: bs) =
      (starred b :: (replaceUndisplayableLoop (bs.drop (skipOf b))).1,
        skipOf b + (replaceUndisplayableLoop (bs.drop (skipOf b))).2) := by
  rw [replaceUndisplayableLoop]
  split
  · rename_i h
    simp [starred, h, skipOf]
  · rename_i h
    simp [starred, h, skipOf_of_displayable b h]

/-- The loop writes the text, and what the size loses is what the text is shorter by, and what
is owed at the end. -/
theorem replaceUndisplayableLoop_spec (bs : List UInt8) :
    (replaceUndisplayableLoop bs).1 = textOf 0 bs ∧
      (textOf 0 bs).length + (replaceUndisplayableLoop bs).2 = bs.length + owed 0 bs := by
  induction h : bs.length using Nat.strong_induction_on generalizing bs with
  | _ n ih =>
    cases bs with
    | nil => simp [replaceUndisplayableLoop, textOf, visited, owed, ← h]
    | cons b bs =>
      have hlt : (bs.drop (skipOf b)).length < n := by
        rw [← h, List.length_drop, List.length_cons]
        omega
      obtain ⟨hchars, hlost⟩ := ih _ hlt _ rfl
      have howed := owed_drop (skipOf b) bs
      have htext : textOf 0 (bs.drop (skipOf b)) = textOf (skipOf b) bs := by
        rw [textOf, textOf, visited_drop]
      have hcons : textOf 0 (b :: bs) = starred b :: textOf (skipOf b) bs := rfl
      have howed' : owed 0 (b :: bs) = owed (skipOf b) bs := rfl
      rw [replaceUndisplayableLoop_cons, hcons, howed', hchars, htext]
      rw [htext, List.length_drop] at hlost
      refine ⟨rfl, ?_⟩
      rw [← h, List.length_cons, List.length_cons]
      omega

/-- The size that is left: it wraps when more is owed than there are characters. -/
theorem size_replaceUndisplayable {text : List UInt8} (beyond : List UInt8) (hn : text.length ≤ 255) :
    (replaceUndisplayable (text ++ beyond, text.length)).2 =
      ((textOf 0 text).length + 256 - owed 0 text) % 256 := by
  obtain ⟨hchars, hlost⟩ := replaceUndisplayableLoop_spec text
  have hle := length_textOf_le 0 text
  have howed := owed_le (Nat.zero_le 3) text
  simp only [replaceUndisplayable, List.take_left']
  omega

theorem buffer_replaceUndisplayable (text beyond : List UInt8) :
    (replaceUndisplayable (text ++ beyond, text.length)).1 =
      textOf 0 text ++ List.replicate (text.length - (textOf 0 text).length) 0 ++ beyond := by
  simp [replaceUndisplayable, (replaceUndisplayableLoop_spec text).1]

/-- `t` is what is to be made of a text: its size is that of what the loop wrote, which is
there, can be displayed and stands for the bytes that the loop stopped on. -/
structure Replaced (text : List UInt8) (t : TmpBuffer) : Prop where
  size_eq : t.2 = (replaceUndisplayableLoop text).1.length
  size_le : t.2 ≤ text.length
  displayable : ∀ b ∈ (replaceUndisplayableLoop text).1, 32 ≤ b ∧ b ≤ 126
  buffer_eq : t.1.take t.2 = (replaceUndisplayableLoop text).1
  chars_eq : (replaceUndisplayableLoop text).1 = (visited 0 text).map starred

/-- A text is replaced as it should be exactly when it does not end inside a character. -/
theorem replaced_iff_whole {text : List UInt8} (beyond : List UInt8) (hn : text.length ≤ 255) :
    Replaced text (replaceUndisplayable (text ++ beyond, text.length)) ↔ Whole text := by
  have hsize := size_replaceUndisplayable beyond hn
  have hbuffer := buffer_replaceUndisplayable text beyond
  have hchars := (replaceUndisplayableLoop_spec text).1
  have hle := length_textOf_le 0 text
  constructor
  · intro h
    have howed := owed_le (Nat.zero_le 3) text
    have heq := h.size_eq
    rw [hsize, hchars] at heq
    unfold Whole
    omega
  · intro (h : owed 0 text = 0)
    have hs : (replaceUndisplayable (text ++ beyond, text.length)).2 = (textOf 0 text).length := by
      omega
    constructor
    · rw [hs, hchars]
    · rw [hs]
      exact hle
    · rw [hchars]
      exact fun b => displayable_of_mem_textOf
    · rw [hs, hbuffer, hchars, List.append_assoc, List.take_left]
    · exact hchars

/-- "A" and two characters of two bytes. -/
theorem replaced_of_whole : [65, 0xC3, 0xA4, 0xC3, 0xB6].length ≤ 255 ∧
    Replaced [65, 0xC3, 0xA4, 0xC3, 0xB6]
      (replaceUndisplayable ([65, 0xC3, 0xA4, 0xC3, 0xB6] ++ [0], 5)) :=
  ⟨by decide, (replaced_iff_whole [0] (by decide)).mpr (by decide)⟩

/-- A text of two bytes, the second of which begins a character of four: the size becomes 255. -/
theorem cut_character_not_replaced :
    (replaceUndisplayable ([65, 0xF0], 2)).2 = 255 ∧
      ¬ ∀ text beyond : List UInt8, text.length ≤ 255 →
        Replaced text (replaceUndisplayable (text ++ beyond, text.length)) := by
  have hn : ([65, 0xF0] : List UInt8).length ≤ 255 := by decide
  constructor
  · exact size_replaceUndisplayable [] hn
  · intro h
    have hs := (h [65, 0xF0] [] (by decide)).size_le
    rw [size_replaceUndisplayable [] (by decide)] at hs
    exact absurd hs (by decide)

/-! ### The prompt of an exchange -/

/-- What a `char` array is read as. -/
def cString (bytes : List UInt8) : List UInt8 := bytes.takeWhile (· ≠ 0)

/-- What is to be shown of a message: its text, if that has 64 characters at most. -/
def shownOf (message : List UInt8) : List UInt8 :=
  let text := textOf 0 message
  if text.length ≤ 64 then text else text.take 61 ++ [46, 46, 46]

/-- The prompt shows the message as text. -/
def Prompt.ShowsMessage (q : Prompt) (message : List UInt8) : Prop :=
  ∃ bytes, q.screens = [⟨"Sign", .text "Message"⟩, ⟨"Message: ", .buffer bytes⟩] ∧
    cString bytes = shownOf message

namespace SignMessageState

/-- Further packets with the payloads `ds`, the last of which raises `q`. -/
inductive Continues (sdk : Sdk) : SignMessageState → List (List UInt8) → Prompt → Prop
  | last {g g' stack p q} (hp : Next p) (h : g.handleApdu sdk stack p = (g', .prompted q)) :
    Continues sdk g [p.data] q
  | more {g g' stack p ds q} (hp : Next p) (h : g.handleApdu sdk stack p = (g', .replied))
    (hc : Continues sdk g' ds q) : Continues sdk g (p.data :: ds) q

/-- A first packet that asks for text, and then the payloads `ds` up to the prompt `q`. -/
inductive TextExchange (sdk : Sdk) : List (List UInt8) → Prompt → Prop
  | intro {g₀ g : SignMessageState} {stack p ds q} (hp : First p)
      (h : g₀.handleApdu sdk stack p = (g, .replied))
    (ht : g.displayAsHex = false) (hc : Continues sdk g ds q) : TextExchange sdk ds q

/-- The bytes that are registered for the screen. -/
def shownBytes (g : SignMessageState) : List UInt8 := g.display.toList.take g.displaySize

theorem prompt_of_text {g : SignMessageState} {q : Prompt} (ht : g.displayAsHex = false)
    (h : g.prompt = .ok q) :
    q.screens = [⟨"Sign", .text "Message"⟩, ⟨"Message: ", .buffer g.shownBytes⟩] := by
  cases uiPrompt_eq_ok h
  simp [ht, shownBytes]

theorem handleApdu_replied {sdk : Sdk} {g g' : SignMessageState} {stack : List UInt8} {p : Packet}
    (hp : Next p) (h : g.handleApdu sdk stack p = (g', .replied)) :
    g' = g.accept stack p ∧ (g.packetIndex = 0 → checkMagicBytes p.data = true) := by
  have hh := handled sdk stack p g
  rw [h] at hh
  generalize hx : (g', Outcome.replied) = x at hh
  cases hh with
  | first hf => exact absurd hp hf.not_next
  | more hn hi hl hm => exact ⟨congrArg Prod.fst hx, hm⟩
  | _ => cases hx

theorem handleApdu_prompted {sdk : Sdk} {g g' : SignMessageState} {stack : List UInt8}
    {p : Packet} {q : Prompt} (hp : Next p) (h : g.handleApdu sdk stack p = (g', .prompted q)) :
    g' = (g.accept stack p).close sdk ∧ (g.packetIndex = 0 → checkMagicBytes p.data = true) := by
  have hh := handled sdk stack p g
  rw [h] at hh
  generalize hx : (g', Outcome.prompted q) = x at hh
  cases hh with
  | first hf => exact absurd hp hf.not_next
  | last hn hi hl hm => exact ⟨congrArg Prod.fst hx, hm⟩
  | _ => cases hx

theorem prompt_of_prompted {sdk : Sdk} {g g' : SignMessageState} {stack : List UInt8}
    {p : Packet} {q : Prompt} (h : g.handleApdu sdk stack p = (g', .prompted q)) :
    g'.prompt = .ok q := by
  unfold handleApdu at h
  split at h
  · cases h
  · split at h
    · exact absurd (congrArg Prod.snd h) (handleFirst_ne_prompted p q)
    · split at h
      · split at h
        · cases h
        · unfold handleData at h
          dsimp only at h
          split at h
          · cases h
          · split at h
            · split at h
              · rename_i hq
                cases h
                exact hq
              · cases h
            · cases h
      · cases h

/-- What is on the screen is fixed once a packet was accepted. -/
theorem accept_of_pos {g : SignMessageState} (hi : 0 < g.packetIndex) (stack : List UInt8)
    (p : Packet) : (g.accept stack p).shownBytes = g.shownBytes ∧
      (g.accept stack p).displayAsHex = g.displayAsHex := by
  have h0 : g.packetIndex ≠ 0 := by omega
  simp [accept, h0, shownBytes]

theorem accept_of_zero {g : SignMessageState} (hi : g.packetIndex = 0) (stack : List UInt8)
    (p : Packet) : (g.accept stack p).shownBytes = (g.setDisplay p.data stack).shownBytes ∧
      (g.accept stack p).displayAsHex = g.displayAsHex := by
  simp [accept, hi, shownBytes, setDisplay]

theorem Continues.screens {sdk : Sdk} {g : SignMessageState} {ds : List (List UInt8)} {q : Prompt}
    (hc : Continues sdk g ds q) (hi : 0 < g.packetIndex) (ht : g.displayAsHex = false) :
    q.screens = [⟨"Sign", .text "Message"⟩, ⟨"Message: ", .buffer g.shownBytes⟩] := by
  induction hc with
  | @last g g' stack p q hp h =>
    obtain ⟨hg, -⟩ := handleApdu_prompted hp h
    obtain ⟨hshown, hhex⟩ := accept_of_pos hi stack p
    have hq := prompt_of_prompted h
    rw [hg] at hq
    rw [prompt_of_text (g := (g.accept stack p).close sdk) (hhex.trans ht) hq, ← hshown]
    rfl
  | @more g g' stack p ds q hp h hc ih =>
    obtain ⟨rfl, -⟩ := handleApdu_replied hp h
    obtain ⟨hshown, hhex⟩ := accept_of_pos hi stack p
    rw [ih (by simp) (hhex.trans ht), hshown]

/-- The first of the payloads begins with the magic bytes and is what is shown. -/
theorem Continues.begins {sdk : Sdk} {g : SignMessageState} {ds : List (List UInt8)} {q : Prompt}
    (hc : Continues sdk g ds q) (hi : g.packetIndex = 0) (ht : g.displayAsHex = false) :
    ∃ data rest stack, ds = data :: rest ∧ data.length ≤ maxApduSize ∧
      checkMagicBytes data = true ∧ q.screens = [⟨"Sign", .text "Message"⟩,
        ⟨"Message: ", .buffer (g.setDisplay data stack).shownBytes⟩] := by
  cases hc with
  | @last _ g' stack p q hp h =>
    obtain ⟨hg, hm⟩ := handleApdu_prompted hp h
    obtain ⟨hshown, hhex⟩ := accept_of_zero hi stack p
    have hq := prompt_of_prompted h
    rw [hg] at hq
    refine ⟨p.data, [], stack, rfl, hp.1, hm hi, ?_⟩
    rw [prompt_of_text (g := (g.accept stack p).close sdk) (hhex.trans ht) hq, ← hshown]
    rfl
  | @more _ g' stack p ds q hp h hc =>
    obtain ⟨rfl, hm⟩ := handleApdu_replied hp h
    obtain ⟨hshown, hhex⟩ := accept_of_zero hi stack p
    refine ⟨p.data, ds, stack, rfl, hp.1, hm hi, ?_⟩
    rw [hc.screens (by simp) (hhex.trans ht), hshown]

end SignMessageState

/-! ### What the first payload leaves on the screen -/

theorem cString_append {as : List UInt8} (h : ∀ b ∈ as, b ≠ 0) (bs : List UInt8) :
    cString (as ++ bs) = as ++ cString bs := by
  apply List.takeWhile_append_of_pos
  simpa using h

theorem cString_of_ne {bytes : List UInt8} (h : ∀ b ∈ bytes, b ≠ 0) : cString bytes = bytes := by
  simpa [cString] using cString_append h []

theorem magic_ne_zero : ∀ b ∈ nervosMagic, b ≠ 0 := by
  decide +kernel

theorem ne_zero_of_mem_textOf {k : ℕ} {bs : List UInt8} {b : UInt8} (h : b ∈ textOf k bs) :
    b ≠ 0 := by
  rintro rfl
  exact absurd (displayable_of_mem_textOf h).1 (by decide)

theorem eq_magic_append {data : List UInt8} (h : checkMagicBytes data = true) :
    data = nervosMagic ++ data.drop 15 := by
  simp only [checkMagicBytes, Bool.and_eq_true, decide_eq_true_eq] at h
  rw [← h.2, List.take_append_drop]

theorem sliceMagicBytes_eq (text stack : List UInt8) :
    sliceMagicBytes ((nervosMagic ++ text) ++ stack, (nervosMagic ++ text).length) =
      (text ++ ((nervosMagic ++ text).drop text.length ++ stack), text.length) := by
  have hlen : (nervosMagic ++ text).length = 15 + text.length := by
    rw [List.length_append]
    rfl
  have hdrop : (nervosMagic ++ text).drop 15 = text := rfl
  simp only [sliceMagicBytes, List.take_left', hlen, Nat.add_sub_cancel_left, hdrop]
  rw [List.drop_append_of_le_length (by omega)]

theorem take_handleLongMessage {buff : List UInt8} (h : 64 ≤ buff.length) :
    (((buff.set 61 46).set 62 46).set 63 46).take 64 = buff.take 61 ++ [46, 46, 46] := by
  apply List.ext_getElem
  · simp
    omega
  · intro i h1 h2
    simp only [List.getElem_take, List.getElem_set, List.getElem_append]
    have hi : i < 64 := by simpa using (List.length_take_le 64 _).trans_lt' h1
    split_ifs <;> first | rfl | grind

/-- The temporary buffer before it is cut to the screen. -/
def textBuffer (text stack : List UInt8) : TmpBuffer :=
  replaceUndisplayable (text ++ ((nervosMagic ++ text).drop text.length ++ stack), text.length)

theorem handleLongMessage_of_le {t : TmpBuffer} (h : t.2 ≤ 64) : handleLongMessage t = t :=
  if_neg (Nat.not_lt.mpr h)

theorem handleLongMessage_of_lt {t : TmpBuffer} (h : 64 < t.2) :
    handleLongMessage t = (((t.1.set 61 46).set 62 46).set 63 46, 64) :=
  if_pos h

theorem size_handleLongMessage_le (t : TmpBuffer) : (handleLongMessage t).2 ≤ 64 := by
  rcases Nat.lt_or_ge 64 t.2 with h | h
  · rw [handleLongMessage_of_lt h]
  · rw [handleLongMessage_of_le h]
    exact h

namespace SignMessageState

/-- What the buffer holds once the text is cut to the screen. -/
theorem shownBytes_setDisplay {g : SignMessageState} (ht : g.displayAsHex = false)
    (text stack : List UInt8) : ∃ stale rest,
    let t := handleLongMessage (textBuffer text stale)
    (g.setDisplay (nervosMagic ++ text) stack).shownBytes = t.1.take t.2 ++ rest ∧
      (t.2 ≤ t.1.length → rest = []) := by
  let t := handleLongMessage (textBuffer text (stack.drop (nervosMagic ++ text).length))
  have hle : (t.1.take t.2).length ≤ 64 :=
    (List.length_take_le _ _).trans (size_handleLongMessage_le _)
  have hshown : (g.setDisplay (nervosMagic ++ text) stack).shownBytes =
      (g.display.write 0 (t.1.take t.2)).toList.take t.2 := by
    unfold setDisplay shownBytes
    rw [sliceMagicBytes_eq]
    simp only [ht]
    rfl
  rw [FixedBytes.toList_write _ (by omega), List.take_zero, List.nil_append, List.take_append,
    List.take_of_length_le (List.length_take_le _ _)] at hshown
  refine ⟨_, _, hshown, fun h => ?_⟩
  rw [List.length_take_of_le h, Nat.sub_self, List.take_zero]

end SignMessageState

section Cases
variable {text : List UInt8} (stack : List UInt8)

theorem size_textBuffer (hn : text.length ≤ 255) :
    (textBuffer text stack).2 = ((textOf 0 text).length + 256 - owed 0 text) % 256 :=
  size_replaceUndisplayable _ hn

theorem buffer_textBuffer : (textBuffer text stack).1 =
    textOf 0 text ++ List.replicate (text.length - (textOf 0 text).length) 0 ++
      ((nervosMagic ++ text).drop text.length ++ stack) :=
  buffer_replaceUndisplayable _ _

/-- A text that fits the screen loses as many characters as are owed. -/
theorem cut_of_fits (hn : text.length ≤ 255) (h : owed 0 text ≤ (textOf 0 text).length)
    (hfit : (textOf 0 text).length ≤ 64 + owed 0 text) :
    let t := handleLongMessage (textBuffer text stack)
    t.2 ≤ t.1.length ∧
      t.1.take t.2 = (textOf 0 text).take ((textOf 0 text).length - owed 0 text) := by
  have hle := length_textOf_le 0 text
  have hsize := size_textBuffer stack hn
  have hs : (textBuffer text stack).2 = (textOf 0 text).length - owed 0 text := by omega
  dsimp only
  rw [handleLongMessage_of_le (by omega), hs, buffer_textBuffer, List.append_assoc, List.length_append]
  exact ⟨by omega, List.take_append_of_le_length (Nat.sub_le _ _)⟩

/-- A text that is too long for the screen, with what is owed taken off, ends in an ellipsis. -/
theorem cut_of_long (hn : text.length ≤ 255) (h : 64 + owed 0 text < (textOf 0 text).length) :
    let t := handleLongMessage (textBuffer text stack)
    t.2 ≤ t.1.length ∧ t.1.take t.2 = (textOf 0 text).take 61 ++ [46, 46, 46] := by
  have hle := length_textOf_le 0 text
  have hsize := size_textBuffer stack hn
  have hlen : 64 ≤ (textBuffer text stack).1.length := by
    rw [buffer_textBuffer, List.append_assoc, List.length_append]
    omega
  dsimp only
  rw [handleLongMessage_of_lt (by omega)]
  refine ⟨by simpa using hlen, ?_⟩
  rw [take_handleLongMessage hlen, buffer_textBuffer, List.append_assoc,
    List.take_append_of_le_length (by omega)]

/-- Where more is owed than there are characters, the screen shows what the buffer held. -/
theorem cut_of_wrapped (hn : text.length ≤ 46) (h : (textOf 0 text).length < owed 0 text) :
    let t := handleLongMessage (textBuffer text stack)
    textOf 0 text ++ List.replicate (text.length - (textOf 0 text).length) 0 ++
      (nervosMagic ++ text).drop text.length <+: t.1.take t.2 := by
  have hle := length_textOf_le 0 text
  have howed := owed_le (Nat.zero_le 3) text
  have hsize := size_textBuffer stack (by omega : text.length ≤ 255)
  have hlen : (textOf 0 text ++ List.replicate (text.length - (textOf 0 text).length) 0 ++
      (nervosMagic ++ text).drop text.length).length ≤ 61 := by
    simp [nervosMagic]
    omega
  dsimp only
  rw [handleLongMessage_of_lt (by omega), buffer_textBuffer, ← List.append_assoc]
  apply List.IsPrefix.trans _ (List.take_prefix_take_left (by omega : 61 ≤ 64))
  rw [List.take_set_of_le (by omega), List.take_set_of_le (by omega), List.take_set_of_le le_rfl]
  exact List.prefix_take_iff.mpr ⟨List.prefix_append _ _, hlen⟩

end Cases

section Shown
variable {text rest : List UInt8}

theorem shownOf_of_le {message : List UInt8} (h : (textOf 0 message).length ≤ 64) :
    shownOf message = textOf 0 message := if_pos h

theorem shownOf_of_lt {message : List UInt8} (h : 64 < (textOf 0 message).length) :
    shownOf message = (textOf 0 message).take 61 ++ [46, 46, 46] :=
  if_neg (Nat.not_le.mpr h)

theorem textOf_eq_nil {k : ℕ} {bs : List UInt8} : textOf k bs = [] ↔ bs.length ≤ k := by
  rw [textOf, List.map_eq_nil_iff, visited_eq_nil]

theorem fits_iff (h : owed 0 text ≤ (textOf 0 text).length)
    (hfit : (textOf 0 text).length ≤ 64 + owed 0 text) :
    (textOf 0 text).take ((textOf 0 text).length - owed 0 text) = shownOf (text ++ rest) ↔
      (Whole text ∧ rest = []) ∨ ((textOf 0 text).length = 64 + owed 0 text ∧
        ((textOf 0 text).drop 61).take 3 = [46, 46, 46]) := by
  have happ := textOf_append 0 text rest
  have hnil : textOf (owed 0 text) rest = [] ↔ _ := textOf_eq_nil
  have hlen := congrArg List.length happ
  rw [List.length_append] at hlen
  unfold Whole
  generalize hc : textOf 0 text = c at *
  generalize hx : textOf (owed 0 text) rest = x at *
  generalize owed 0 text = k at *
  rcases Nat.lt_or_ge 64 (textOf 0 (text ++ rest)).length with hm | hm
  · have hsplit : c.take 64 = c.take 61 ++ (c.drop 61).take 3 := List.take_add (i := 61) (j := 3)
    rw [shownOf_of_lt hm, happ]
    constructor
    · intro heq
      have hl := congrArg List.length heq
      simp only [List.length_take, List.length_append, List.length_cons, List.length_nil] at hl
      have h64 : c.length - k = 64 := by omega
      rw [h64, hsplit, List.take_append_of_le_length (by omega)] at heq
      exact .inr ⟨by omega, List.append_cancel_left heq⟩
    · rintro (⟨hk, hr⟩ | ⟨hl, hdots⟩)
      · have hx0 : x = [] := hnil.mpr (by simp [hr])
        rw [hx0, List.length_nil] at hlen
        omega
      · have h64 : c.length - k = 64 := by omega
        rw [h64, hsplit, hdots, List.take_append_of_le_length (by omega)]
  · rw [shownOf_of_le hm, happ]
    constructor
    · intro heq
      have hl := congrArg List.length heq
      simp only [List.length_take, List.length_append] at hl
      have hx0 : x = [] := List.length_eq_zero_iff.mp (by omega)
      have hk : k = 0 := by omega
      have hr := hnil.mp hx0
      exact .inl ⟨hk, List.length_eq_zero_iff.mp (by omega)⟩
    · rintro (⟨hk, hr⟩ | ⟨hl, -⟩)
      · have hx0 : x = [] := hnil.mpr (by simp [hr])
        simp [hk, hx0]
      · have hk : k = 0 := by omega
        have hx0 : x = [] := List.length_eq_zero_iff.mp (by omega)
        simp [hk, hx0]

theorem long_eq (rest : List UInt8) (h : 64 + owed 0 text < (textOf 0 text).length) :
    (textOf 0 text).take 61 ++ [46, 46, 46] = shownOf (text ++ rest) := by
  have happ := textOf_append 0 text rest
  have hlen := congrArg List.length happ
  rw [List.length_append] at hlen
  rw [shownOf_of_lt (by omega), happ, List.take_append_of_le_length (by omega)]

/-- A text that loses a character it never had is short, and cut at its end. -/
inductive Wrapped : List UInt8 → Prop
  | gap {bs} (h : (textOf 0 bs).length < bs.length) : Wrapped bs
  | lead {b} (h : skipOf b ≠ 0) : Wrapped [b]
  | two {a b} (ha : skipOf a = 0) (h : skipOf b = 3) : Wrapped [a, b]

theorem wrapped (h : (textOf 0 text).length < owed 0 text) : Wrapped text := by
  have hle := length_textOf_le 0 text
  have h4 := length_le_visited (Nat.zero_le 3) text
  have howed := owed_le (Nat.zero_le 3) text
  have hvis : (textOf 0 text).length = (visited 0 text).length := by simp [textOf]
  rcases Nat.lt_or_ge (textOf 0 text).length text.length with hgap | hgap
  · exact .gap hgap
  · match text, hgap with
    | [], _ => simp [owed] at h
    | [b], _ =>
      refine .lead fun h0 => ?_
      simp [owed, h0] at h
    | [a, b], hgap =>
      have ha : skipOf a = 0 := by
        by_contra ha
        obtain ⟨k, hk⟩ := Nat.exists_eq_succ_of_ne_zero ha
        simp [textOf, visited, hk] at hgap
      refine .two ha ?_
      simp [owed, textOf, visited, ha] at h
      have := skipOf_le b
      omega
    | a :: b :: c :: bs, hgap =>
      simp only [List.length_cons] at hgap
      omega

theorem displayable_of_mem_shownOf {message : List UInt8} {b : UInt8} (h : b ∈ shownOf message) :
    32 ≤ b ∧ b ≤ 126 := by
  rcases Nat.lt_or_ge 64 (textOf 0 message).length with hm | hm
  · rw [shownOf_of_lt hm, List.mem_append] at h
    rcases h with h | h
    · exact displayable_of_mem_textOf (List.mem_of_mem_take h)
    · have hdot : b = 46 := by simpa using h
      exact hdot ▸ by decide
  · rw [shownOf_of_le hm] at h
    exact displayable_of_mem_textOf h

theorem not_displayable_of_skip {b : UInt8} (h : skipOf b ≠ 0) : ¬ (32 ≤ b ∧ b ≤ 126) := by
  rintro ⟨h32, h126⟩
  apply h
  apply skipOf_of_displayable
  rintro (hb | hb)
  · exact UInt8.not_lt.mpr h126 hb
  · exact UInt8.not_lt.mpr h32 hb

/-- A byte that begins a character of several bytes is on no screen that is as it should be. -/
theorem ne_shownOf_of_lead {bytes as message : List UInt8} {b : UInt8} (bs : List UInt8)
    (hb : skipOf b ≠ 0)
    (has : ∀ a ∈ as, a ≠ 0) (h : bytes = as ++ b :: bs) : cString bytes ≠ shownOf message := by
  have hb0 : b ≠ 0 := by
    rintro rfl
    exact hb rfl
  have hall : ∀ a ∈ as ++ [b], a ≠ 0 := by
    intro a ha
    rcases List.mem_append.mp ha with ha | ha
    · exact has a ha
    · exact List.mem_singleton.mp ha ▸ hb0
  intro heq
  rw [h, List.append_cons, cString_append hall] at heq
  have hmem : b ∈ shownOf message := by
    rw [← heq]
    simp
  exact not_displayable_of_skip hb (displayable_of_mem_shownOf hmem)

/-- A text with no gap that owes more than it has characters. -/
theorem not_gap_of_head {tail : List UInt8}
    (h : (textOf 0 (0 :: tail)).length < owed 0 (0 :: tail)) :
    (textOf 0 (0 :: tail)).length = (0 :: tail).length := by
  have h4 := length_le_visited (Nat.zero_le 3) tail
  have howed := owed_le (Nat.zero_le 3) tail
  have hle := length_textOf_le 0 tail
  have htext : textOf 0 (0 :: tail) = 42 :: textOf 0 tail := rfl
  have howed' : owed 0 (0 :: tail) = owed 0 tail := rfl
  have hvis : (textOf 0 tail).length = (visited 0 tail).length := by simp [textOf]
  rw [htext, howed', List.length_cons] at h
  rw [htext, List.length_cons, List.length_cons]
  omega

/-- Where the text is short, what is shown is to be text of its own. -/
theorem shown_of_short (rest shown : List UInt8) (h : (textOf 0 text).length < owed 0 text)
    (hs : shown.length < 60) : textOf 0 text ++ shown = shownOf (text ++ rest) ↔
      textOf (owed 0 text) rest = shown := by
  have happ := textOf_append 0 text rest
  have howed := owed_le (Nat.zero_le 3) text
  rcases Nat.lt_or_ge 64 (textOf 0 (text ++ rest)).length with hm | hm
  · rw [shownOf_of_lt hm]
    constructor
    · intro heq
      have hl := congrArg List.length heq
      simp only [List.length_append, List.length_take, List.length_cons, List.length_nil] at hl
      omega
    · intro heq
      rw [happ, heq, List.length_append] at hm
      omega
  · rw [shownOf_of_le hm, happ, List.append_right_inj]
    exact eq_comm

theorem wrapped_iff {bytes : List UInt8} (h : (textOf 0 text).length < owed 0 text)
    (hp : textOf 0 text ++ List.replicate (text.length - (textOf 0 text).length) 0 ++
      (nervosMagic ++ text).drop text.length <+: bytes) :
    cString bytes = shownOf (text ++ rest) ↔
      ((textOf 0 text).length < text.length ∧ rest.length ≤ owed 0 text) ∨
        (text.head? = some 0 ∧ textOf 3 rest = nervosMagic.drop 2) := by
  have hw := wrapped h
  obtain ⟨t, rfl⟩ := hp
  cases hw with
  | gap hgap =>
    obtain ⟨d, hd⟩ := Nat.exists_eq_add_of_lt hgap
    have hzeros : text.length - (textOf 0 text).length = d + 1 := by omega
    have hread : ∀ bs, cString (textOf 0 text ++ List.replicate (d + 1) 0 ++ bs) =
        textOf 0 text := by
      intro bs
      rw [List.append_assoc, cString_append fun _ => ne_zero_of_mem_textOf]
      simp [cString, List.replicate_succ]
    have hshort := shown_of_short rest [] h (by simp)
    rw [List.append_nil] at hshort
    rw [hzeros, List.append_assoc, hread, hshort]
    have hhead : text.head? ≠ some 0 := by
      intro h0
      obtain ⟨tail, rfl⟩ := List.head?_eq_some_iff.mp h0
      exact absurd (not_gap_of_head h) hgap.ne
    simp [hgap, hhead, textOf_eq_nil]
  | @lead b hb =>
    have hb0 : b ≠ 0 := by
      rintro rfl
      exact hb rfl
    have hne : ∀ a ∈ starred b :: nervosMagic.drop 1, a ≠ 0 := by
      intro a ha
      rcases List.mem_append.mp (show a ∈ textOf 0 [b] ++ nervosMagic.drop 1 by exact ha)
        with ha | ha
      · exact ne_zero_of_mem_textOf ha
      · exact magic_ne_zero a (List.mem_of_mem_drop ha)
    refine iff_of_false (ne_shownOf_of_lead t hb hne rfl) ?_
    simp [hb0, textOf, visited]
  | @two a b ha hb =>
    have hb3 : skipOf b ≠ 0 := by omega
    have htext : textOf 0 [a, b] = [starred a, starred b] := by
      simp [textOf, visited, ha]
    have hlen : (textOf 0 [a, b]).length = [a, b].length := by
      rw [htext]
      rfl
    have howed : owed 0 [a, b] = 3 := by
      simp [owed, ha, hb]
    have hne : ∀ x ∈ textOf 0 [a, b] ++ nervosMagic.drop 2, x ≠ 0 := by
      intro x hx
      rcases List.mem_append.mp hx with hx | hx
      · exact ne_zero_of_mem_textOf hx
      · exact magic_ne_zero x (List.mem_of_mem_drop hx)
    have hstale : textOf 0 [a, b] ++ List.replicate ([a, b].length - (textOf 0 [a, b]).length) 0 ++
        (nervosMagic ++ [a, b]).drop [a, b].length ++ t =
          (textOf 0 [a, b] ++ nervosMagic.drop 2) ++ a :: b :: t := by
      rw [htext]
      rfl
    rw [hstale]
    by_cases ha0 : a = 0
    · have hshort := shown_of_short rest (nervosMagic.drop 2) h (by decide)
      have hend : cString (a :: b :: t) = [] := by simp [cString, ha0]
      rw [cString_append hne, hend, List.append_nil, hshort, howed, hlen]
      simp [ha0]
    · have hne' : ∀ x ∈ (textOf 0 [a, b] ++ nervosMagic.drop 2) ++ [a], x ≠ 0 := by
        intro x hx
        rcases List.mem_append.mp hx with hx | hx
        · exact hne x hx
        · exact List.mem_singleton.mp hx ▸ ha0
      refine iff_of_false (ne_shownOf_of_lead t hb3 hne' (List.append_cons _ _ _)) ?_
      rw [hlen]
      simp [ha0]

end Shown

/-- What the first payload decides of a message `text ++ rest`. -/
def ShownWhole (text rest : List UInt8) : Prop :=
  (Whole text ∧ rest = []) ∨
  64 + owed 0 text < (textOf 0 text).length ∨
  ((textOf 0 text).length = 64 + owed 0 text ∧ ((textOf 0 text).drop 61).take 3 = [46, 46, 46]) ∨
  -- the size wraps, and what the buffer held is cut off or happens to be the text
  ((textOf 0 text).length < owed 0 text ∧
    (((textOf 0 text).length < text.length ∧ rest.length ≤ owed 0 text) ∨
      (text.head? = some 0 ∧ textOf 3 rest = nervosMagic.drop 2)))

instance (text rest : List UInt8) : Decidable (ShownWhole text rest) :=
  inferInstanceAs (Decidable (_ ∨ _ ∨ _ ∨ _))

theorem cString_shownBytes_iff {g : SignMessageState} {text : List UInt8}
    (ht : g.displayAsHex = false) (hn : text.length ≤ 255) (stack rest : List UInt8) :
    cString (g.setDisplay (nervosMagic ++ text) stack).shownBytes = shownOf (text ++ rest) ↔
      ShownWhole text rest := by
  obtain ⟨stale, after, hshown, hafter⟩ :=
    SignMessageState.shownBytes_setDisplay ht text stack
  rw [hshown]
  unfold ShownWhole
  rcases Nat.lt_or_ge (textOf 0 text).length (owed 0 text) with hwrap | hwrap
  · have howed := owed_le (Nat.zero_le 3) text
    have h4 := length_le_visited (Nat.zero_le 3) text
    have hvis : (textOf 0 text).length = (visited 0 text).length := by simp [textOf]
    have hp := (cut_of_wrapped stale (by omega) hwrap).trans (List.prefix_append _ after)
    have hwhole : ¬ Whole text := fun h => by
      unfold Whole at h
      omega
    have hlong : ¬ 64 + owed 0 text < (textOf 0 text).length := by omega
    have hdots : (textOf 0 text).length ≠ 64 + owed 0 text := by omega
    simp only [wrapped_iff hwrap hp, hwhole, hlong, hdots, hwrap, false_and, false_or, true_and]
  · rw [← or_assoc, ← or_assoc, or_iff_left (fun h => by omega)]
    rcases Nat.lt_or_ge (64 + owed 0 text) (textOf 0 text).length with hlong | hfit
    · obtain ⟨hle, hcut⟩ := cut_of_long stale hn hlong
      have hne : ∀ b ∈ (textOf 0 text).take 61 ++ [46, 46, 46], b ≠ 0 := by
        rw [long_eq rest hlong]
        rintro b hb rfl
        exact absurd (displayable_of_mem_shownOf hb).1 (by decide)
      rw [hafter hle, List.append_nil, hcut, cString_of_ne hne, long_eq rest hlong]
      simp [hlong]
    · obtain ⟨hle, hcut⟩ := cut_of_fits stale hn hwrap hfit
      have hne : ∀ b ∈ (textOf 0 text).take ((textOf 0 text).length - owed 0 text), b ≠ 0 :=
        fun b hb => ne_zero_of_mem_textOf (List.mem_of_mem_take hb)
      have hlong : ¬ 64 + owed 0 text < (textOf 0 text).length := Nat.not_lt.mpr hfit
      simp only [hafter hle, List.append_nil, hcut, cString_of_ne hne, fits_iff hwrap hfit, hlong,
        or_false]

namespace SignMessageState

theorem TextExchange.begins {sdk : Sdk} {ds : List (List UInt8)} {q : Prompt}
    (h : TextExchange sdk ds q) : ∃ data rest stack, ∃ g : SignMessageState,
      g.displayAsHex = false ∧ ds = data :: rest ∧ data.length ≤ maxApduSize ∧
        checkMagicBytes data = true ∧ q.screens = [⟨"Sign", .text "Message"⟩,
          ⟨"Message: ", .buffer (g.setDisplay data stack).shownBytes⟩] := by
  obtain @⟨g₀, g, stack, p, ds, q, hp, hr, ht, hc⟩ := h
  have hg : g = (handleFirst p).1 := by
    have hh := handled sdk stack p g₀
    rw [hr] at hh
    generalize hx : (g, Outcome.replied) = x at hh
    cases hh with
    | first _ => exact congrArg Prod.fst hx
    | more hn => exact absurd hn hp.not_next
    | _ => cases hx
  have hi : g.packetIndex = 0 := hg ▸ (handleFirst_eq p).2.1
  obtain ⟨data, rest, stack', hds, hlen, hm, hq⟩ := hc.begins hi ht
  exact ⟨data, rest, stack', g, ht, hds, hlen, hm, hq⟩

theorem flatten_drop {data : List UInt8} (hm : checkMagicBytes data = true)
    (rest : List (List UInt8)) :
    (data :: rest).flatten.drop 15 = data.drop 15 ++ rest.flatten := by
  simp only [checkMagicBytes, Bool.and_eq_true, decide_eq_true_eq] at hm
  rw [List.flatten_cons, List.drop_append_of_le_length hm.1]

theorem handleApdu_of_more (sdk : Sdk) {g : SignMessageState} (stack : List UInt8) {p : Packet}
    (hn : Next p) (hi : g.packetIndex < 255) (hl : p.last = false)
    (hm : g.packetIndex = 0 → checkMagicBytes p.data = true) :
    g.handleApdu sdk stack p = (g.accept stack p, .replied) := by
  have hh := handled sdk stack p g
  generalize g.handleApdu sdk stack p = x at hh
  cases hh with
  | refused _ hr => exact absurd hi (Nat.not_lt.mpr (hr hn))
  | first hf => exact absurd hn hf.not_next
  | noMagic _ h0 hmag => exact absurd (hm h0) (by simp [hmag])
  | more => rfl
  | last _ _ hlast => exact absurd hlast (by simp [hl])

theorem exists_prompted (sdk : Sdk) {g : SignMessageState} (stack : List UInt8) {p : Packet}
    (hn : Next p) (hi : g.packetIndex < 255) (hl : p.last = true)
    (hm : g.packetIndex = 0 → checkMagicBytes p.data = true) :
    ∃ q, g.handleApdu sdk stack p = ((g.accept stack p).close sdk, .prompted q) := by
  have hh := handled sdk stack p g
  generalize g.handleApdu sdk stack p = x at hh
  cases hh with
  | refused _ hr => exact absurd hi (Nat.not_lt.mpr (hr hn))
  | first hf => exact absurd hn hf.not_next
  | noMagic _ h0 hmag => exact absurd (hm h0) (by simp [hmag])
  | more _ _ hmore => exact absurd hmore (by simp [hl])
  | last => exact ⟨_, rfl⟩

/-- The packet that asks for text. -/
def sampleFirst : Packet := ⟨p1First, 0 :: samplePath, []⟩

def sampleLast (data : List UInt8) : Packet := ⟨p1Next ||| p1LastMarker, data, []⟩

theorem textExchange_sample {ds : List (List UInt8)} {q : Prompt}
    (h : Continues sampleSdk (handleFirst sampleFirst).1 ds q) : TextExchange sampleSdk ds q := by
  have hfirst : First sampleFirst := by decide
  have hreplied : handleApdu sampleSdk [] sampleFirst {} =
      ((handleFirst sampleFirst).1, .replied) := rfl
  exact .intro hfirst hreplied rfl h

end SignMessageState
end NervosLedger
