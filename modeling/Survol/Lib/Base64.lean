import Survol.Lib.Percent

/-!
# Base 64

Bytes are written three by three as four letters, digits, hyphens and underscores, and the last
ones are padded with equals signs. The decoder skips what is not in the alphabet, and stops at
the padding.

## Main definitions

* `Base64.encode`, `Base64.decode` — the letters of bytes, and the bytes of letters.
* `Utf8.decodeStrict` — the text of bytes, if there is one.
-/

namespace Utf8

/-- The bytes of a text. -/
def encodeText (t : List Char) : List ℕ := t.flatMap encode

/-- The text that has some bytes, if there is one. -/
def decodeStrict (bs : List ℕ) : Option (List Char) :=
  let t := decode (bs.map .inl)
  if encodeText t = bs then some t else none

theorem decode_encodeText (t : List Char) : decode ((encodeText t).map .inl) = t := by
  induction t with
  | nil => exact decode_nil
  | cons c t ih =>
    rw [encodeText, List.flatMap_cons, List.map_append, decode_encode, ← encodeText, ih]

/-- **The bytes of a text are decoded to it.** -/
theorem decodeStrict_encodeText (t : List Char) : decodeStrict (encodeText t) = some t := by
  rw [decodeStrict]
  simp only [decode_encodeText, if_true]

theorem lt_of_mem_encodeText {t : List Char} {b : ℕ} (h : b ∈ encodeText t) : b < 256 := by
  obtain ⟨c, -, hc⟩ := List.mem_flatMap.mp h
  exact lt_of_mem_encode hc

end Utf8

namespace Base64

open PyText (Text)

/-- The letter of six bits. -/
def digit (n : ℕ) : Char :=
  if n < 26 then Char.ofNat (65 + n)
  else if n < 52 then Char.ofNat (71 + n)
  else if n < 62 then Char.ofNat (n - 4)
  else if n = 62 then '-' else '_'

/-- The six bits of a letter: the two alphabets are accepted. -/
def value? (c : Char) : Option ℕ :=
  if 'A' ≤ c ∧ c ≤ 'Z' then some (c.toNat - 65)
  else if 'a' ≤ c ∧ c ≤ 'z' then some (c.toNat - 71)
  else if '0' ≤ c ∧ c ≤ '9' then some (c.toNat + 4)
  else if c = '-' ∨ c = '+' then some 62
  else if c = '_' ∨ c = '/' then some 63
  else none

/-- The letters of bytes. -/
def encode : List ℕ → Text
  | [] => []
  | [a] => [digit (a / 4), digit (a % 4 * 16), '=', '=']
  | [a, b] => [digit (a / 4), digit (a % 4 * 16 + b / 16), digit (b % 16 * 4), '=']
  | a :: b :: c :: s => digit (a / 4) :: digit (a % 4 * 16 + b / 16) ::
      digit (b % 16 * 4 + c / 64) :: digit (c % 64) :: encode s

/-- The bytes of letters, after `quadPos` letters of a group of four, of which `leftchar` holds
the bits that are left, and after `pads` equals signs; `none` when the last group is cut. -/
def decodeFrom (quadPos leftchar pads : ℕ) : Text → Option (List ℕ)
  | [] => if quadPos = 0 then some [] else none
  | c :: s =>
    if c = '=' then
      if 2 ≤ quadPos then
        if 4 ≤ quadPos + (pads + 1) then some []
        else decodeFrom quadPos leftchar (pads + 1) s
      else decodeFrom quadPos leftchar pads s
    else match value? c with
      | none => decodeFrom quadPos leftchar pads s
      | some v =>
        if quadPos = 0 then decodeFrom 1 v 0 s
        else if quadPos = 1 then (decodeFrom 2 (v % 16) 0 s).map ((leftchar * 4 + v / 16) :: ·)
        else if quadPos = 2 then (decodeFrom 3 (v % 4) 0 s).map ((leftchar * 16 + v / 4) :: ·)
        else (decodeFrom 0 0 0 s).map ((leftchar * 64 + v) :: ·)

/-- The bytes of letters. -/
def decode (s : Text) : Option (List ℕ) := decodeFrom 0 0 0 s

/-- A letter of the alphabet. -/
def isDigit (c : Char) : Bool :=
  'A' ≤ c && c ≤ 'Z' || 'a' ≤ c && c ≤ 'z' || '0' ≤ c && c ≤ '9' || c = '-' || c = '_'

theorem digit_spec : ∀ n < 64, value? (digit n) = some n ∧ digit n ≠ '=' ∧
    isDigit (digit n) = true := by
  decide

theorem decodeFrom_zero {n : ℕ} (h : n < 64) (l p : ℕ) (s : Text) :
    decodeFrom 0 l p (digit n :: s) = decodeFrom 1 n 0 s := by
  obtain ⟨hv, hne, -⟩ := digit_spec n h
  rw [decodeFrom, if_neg hne, hv]
  rfl

theorem decodeFrom_one {n : ℕ} (h : n < 64) (l p : ℕ) (s : Text) :
    decodeFrom 1 l p (digit n :: s) = (decodeFrom 2 (n % 16) 0 s).map ((l * 4 + n / 16) :: ·) := by
  obtain ⟨hv, hne, -⟩ := digit_spec n h
  rw [decodeFrom, if_neg hne, hv]
  rfl

theorem decodeFrom_two {n : ℕ} (h : n < 64) (l p : ℕ) (s : Text) :
    decodeFrom 2 l p (digit n :: s) = (decodeFrom 3 (n % 4) 0 s).map ((l * 16 + n / 4) :: ·) := by
  obtain ⟨hv, hne, -⟩ := digit_spec n h
  rw [decodeFrom, if_neg hne, hv]
  rfl

theorem decodeFrom_three {n : ℕ} (h : n < 64) (l p : ℕ) (s : Text) :
    decodeFrom 3 l p (digit n :: s) = (decodeFrom 0 0 0 s).map ((l * 64 + n) :: ·) := by
  obtain ⟨hv, hne, -⟩ := digit_spec n h
  rw [decodeFrom, if_neg hne, hv]
  rfl

theorem decodeFrom_pad_two (l : ℕ) : decodeFrom 2 l 0 ['=', '='] = some [] := rfl

theorem decodeFrom_pad_three (l : ℕ) : decodeFrom 3 l 0 ['='] = some [] := rfl

/-- **Decoding undoes encoding.** -/
theorem decode_encode {bs : List ℕ} (h : ∀ b ∈ bs, b < 256) : decode (encode bs) = some bs := by
  rw [decode]
  fun_induction encode bs with
  | case1 => rfl
  | case2 a =>
    have ha := h a (by simp)
    rw [decodeFrom_zero (by omega), decodeFrom_one (by omega), decodeFrom_pad_two, Option.map_some]
    congr 2
    omega
  | case3 a b =>
    have ha := h a (by simp)
    have hb := h b (by simp)
    rw [decodeFrom_zero (by omega), decodeFrom_one (by omega), decodeFrom_two (by omega),
      decodeFrom_pad_three, Option.map_some, Option.map_some]
    congr 2
    · omega
    · congr 1
      omega
  | case4 a b c s ih =>
    have ha := h a (by simp)
    have hb := h b (by simp)
    have hc := h c (by simp)
    have ih := ih fun d hd => h d (by simp [hd])
    rw [decodeFrom_zero (by omega), decodeFrom_one (by omega), decodeFrom_two (by omega),
      decodeFrom_three (by omega), ih, Option.map_some, Option.map_some, Option.map_some]
    congr 2
    · omega
    · congr 1
      · omega
      · congr 1
        omega

/-- The letters come by fours. -/
theorem length_encode (bs : List ℕ) : (encode bs).length % 4 = 0 := by
  fun_induction encode bs with
  | case1 => rfl
  | case2 a => simp
  | case3 a b => simp
  | case4 a b c s ih =>
    simp only [List.length_cons]
    omega

theorem mem_encode {bs : List ℕ} (h : ∀ b ∈ bs, b < 256) {c : Char} (hc : c ∈ encode bs) :
    isDigit c = true ∨ c = '=' := by
  have hdigit : ∀ n < 64, c = digit n → isDigit c = true := by
    intro n hn he
    rw [he]
    exact (digit_spec n hn).2.2
  fun_induction encode bs with
  | case1 => cases hc
  | case2 a =>
    have ha := h a (by simp)
    simp only [List.mem_cons, List.not_mem_nil, or_false] at hc
    obtain hc | hc | hc | hc := hc
    · exact Or.inl (hdigit _ (by omega) hc)
    · exact Or.inl (hdigit _ (by omega) hc)
    · exact Or.inr hc
    · exact Or.inr hc
  | case3 a b =>
    have ha := h a (by simp)
    have hb := h b (by simp)
    simp only [List.mem_cons, List.not_mem_nil, or_false] at hc
    obtain hc | hc | hc | hc := hc
    · exact Or.inl (hdigit _ (by omega) hc)
    · exact Or.inl (hdigit _ (by omega) hc)
    · exact Or.inl (hdigit _ (by omega) hc)
    · exact Or.inr hc
  | case4 a b d s ih =>
    have ha := h a (by simp)
    have hb := h b (by simp)
    have hd := h d (by simp)
    simp only [List.mem_cons] at hc
    obtain hc | hc | hc | hc | hc := hc
    · exact Or.inl (hdigit _ (by omega) hc)
    · exact Or.inl (hdigit _ (by omega) hc)
    · exact Or.inl (hdigit _ (by omega) hc)
    · exact Or.inl (hdigit _ (by omega) hc)
    · exact ih (fun e he => h e (by simp [he])) hc

end Base64
