import Survol.Lib.Text
import Mathlib.Data.Char
import Mathlib.Tactic.SplitIfs

/-!
# Percent encoding

A text is quoted through its UTF-8 bytes, and unquoted back: the escapes become bytes,
and each run of bytes is decoded, with the replacement character for what is not UTF-8.

## Main definitions

* `Utf8.encode`, `Utf8.decode` — the bytes of a character, and the characters of a
  sequence of bytes and characters.
* `Percent.quote`, `Percent.unquote`.
* `Percent.hasEscape` — whether unquoting changes a text.
-/

namespace Utf8

/-- A byte, or a character that is not decoded. -/
abbrev Item := ℕ ⊕ Char

/-- The bytes of a character. -/
def encode (c : Char) : List ℕ :=
  let n := c.toNat
  if n < 0x80 then [n]
  else if n < 0x800 then [0xC0 + n / 64, 0x80 + n % 64]
  else if n < 0x10000 then [0xE0 + n / 4096, 0x80 + n / 64 % 64, 0x80 + n % 64]
  else [0xF0 + n / 262144, 0x80 + n / 4096 % 64, 0x80 + n / 64 % 64, 0x80 + n % 64]

/-- The number of bytes that follow a first byte. -/
def trailing (b : ℕ) : Option ℕ :=
  if b < 0x80 then some 0
  else if 0xC2 ≤ b ∧ b ≤ 0xDF then some 1
  else if 0xE0 ≤ b ∧ b ≤ 0xEF then some 2
  else if 0xF0 ≤ b ∧ b ≤ 0xF4 then some 3
  else none

/-- The bits of a first byte. -/
def payload (b : ℕ) : ℕ :=
  if b < 0x80 then b else if b < 0xE0 then b - 0xC0 else if b < 0xF0 then b - 0xE0 else b - 0xF0

/-- The range of the second byte, which excludes overlong forms, surrogates, and what
is beyond the last code point. -/
def secondBounds (b : ℕ) : ℕ × ℕ :=
  if b = 0xE0 then (0xA0, 0xBF)
  else if b = 0xED then (0x80, 0x9F)
  else if b = 0xF0 then (0x90, 0xBF)
  else if b = 0xF4 then (0x80, 0x8F)
  else (0x80, 0xBF)

/-- The next byte, if it is in a range. -/
def byteIn (bounds : ℕ × ℕ) : List Item → Option (ℕ × List Item)
  | .inl b :: s => if bounds.1 ≤ b ∧ b ≤ bounds.2 then some (b, s) else none
  | _ => none

/-- The code point of a first byte with `k` more bytes, if they are there, and the rest. -/
def readTail : ℕ → ℕ × ℕ → ℕ → List Item → Option ℕ × List Item
  | 0, _, acc, s => (some acc, s)
  | k + 1, bounds, acc, s =>
    match byteIn bounds s with
    | some (b, s') => readTail k (0x80, 0xBF) (acc * 64 + (b - 0x80)) s'
    | none => (none, s)

/-- The replacement character. -/
def replacement : Char := Char.ofNat 0xFFFD

/-- The character at the start of a sequence that begins with the byte `b`, and the rest. -/
def step (b : ℕ) (s : List Item) : Char × List Item :=
  match trailing b with
  | none => (replacement, s)
  | some k =>
    match readTail k (secondBounds b) (payload b) s with
    | (some n, s') => (Char.ofNat n, s')
    | (none, s') => (replacement, s')

/-- The characters of at most `n` steps. -/
def decodeUpTo : ℕ → List Item → List Char
  | 0, _ => []
  | _ + 1, [] => []
  | n + 1, .inr c :: s => c :: decodeUpTo n s
  | n + 1, .inl b :: s => (step b s).1 :: decodeUpTo n (step b s).2

/-- The characters of a sequence. -/
def decode (s : List Item) : List Char := decodeUpTo s.length s

/-! ## Decoding step by step -/

theorem length_byteIn {bounds : ℕ × ℕ} {s s' : List Item} {b : ℕ}
    (h : byteIn bounds s = some (b, s')) : s'.length < s.length := by
  match s, h with
  | .inl x :: s, h =>
    rw [byteIn] at h
    split at h
    · cases h
      exact Nat.lt_succ_self _
    · cases h

theorem length_readTail (k : ℕ) (bounds : ℕ × ℕ) (acc : ℕ) (s : List Item) :
    (readTail k bounds acc s).2.length ≤ s.length := by
  induction k generalizing bounds acc s with
  | zero => exact le_rfl
  | succ k ih =>
    rw [readTail]
    split
    · rename_i b s' h
      exact Nat.le_of_lt (Nat.lt_of_le_of_lt (ih _ _ s') (length_byteIn h))
    · exact le_rfl

theorem length_step (b : ℕ) (s : List Item) : (step b s).2.length ≤ s.length := by
  rw [step]
  split
  · exact le_rfl
  · rename_i k _
    have hlen := length_readTail k (secondBounds b) (payload b) s
    revert hlen
    rcases readTail k (secondBounds b) (payload b) s with ⟨_ | n, s'⟩ <;> exact id

/-- The number of steps does not matter, when it is large enough. -/
theorem decodeUpTo_eq {n m : ℕ} {s : List Item} (hn : s.length ≤ n) (hm : s.length ≤ m) :
    decodeUpTo n s = decodeUpTo m s := by
  induction n generalizing m s with
  | zero =>
    obtain rfl := List.length_eq_zero_iff.mp (Nat.le_zero.mp hn)
    cases m <;> rfl
  | succ n ih =>
    match m, s with
    | 0, [] => rfl
    | _ + 1, [] => rfl
    | m + 1, .inr c :: s =>
      simp only [List.length_cons, Nat.add_le_add_iff_right] at hn hm
      rw [decodeUpTo, decodeUpTo, ih hn hm]
    | m + 1, .inl b :: s =>
      simp only [List.length_cons, Nat.add_le_add_iff_right] at hn hm
      rw [decodeUpTo, decodeUpTo,
        ih (Nat.le_trans (length_step b s) hn) (Nat.le_trans (length_step b s) hm)]

@[simp] theorem decode_nil : decode [] = [] := rfl

theorem decode_inr (c : Char) (s : List Item) : decode (.inr c :: s) = c :: decode s := rfl

theorem decode_inl (b : ℕ) (s : List Item) :
    decode (.inl b :: s) = (step b s).1 :: decode (step b s).2 := by
  rw [decode, List.length_cons, decodeUpTo, decode, decodeUpTo_eq (length_step b s) le_rfl]

theorem length_decodeUpTo (n : ℕ) (s : List Item) : (decodeUpTo n s).length ≤ n := by
  induction n generalizing s with
  | zero => exact le_rfl
  | succ n ih =>
    match s with
    | [] => exact Nat.zero_le _
    | .inr c :: s => exact Nat.succ_le_succ (ih s)
    | .inl b :: s => exact Nat.succ_le_succ (ih _)

/-- Decoding does not make a sequence longer. -/
theorem length_decode_le (s : List Item) : (decode s).length ≤ s.length := length_decodeUpTo _ _

theorem step_of_lt {b : ℕ} (h : b < 0x80) (s : List Item) : step b s = (Char.ofNat b, s) := by
  simp only [step, trailing, if_pos h, readTail, payload]

/-- The item of a character. -/
def toItem (c : Char) : Item := if c.toNat < 0x80 then .inl c.toNat else .inr c

/-- A character that is not escaped stands for itself. -/
theorem decode_toItem (c : Char) (s : List Item) : decode (toItem c :: s) = c :: decode s := by
  rw [toItem]
  split
  · rename_i h
    rw [decode_inl, step_of_lt h, Char.ofNat_toNat]
  · exact decode_inr c s

/-- An item that begins a character. -/
def IsStart : Item → Prop
  | .inl b => b < 0x80
  | .inr _ => True

theorem isStart_toItem (c : Char) : IsStart (toItem c) := by
  rw [toItem]
  split
  · rename_i h
    exact h
  · trivial

/-! ## The bytes of a character -/

theorem readTail_cons {bounds : ℕ × ℕ} {b : ℕ} (hlo : bounds.1 ≤ b) (hhi : b ≤ bounds.2)
    (k acc : ℕ) (s : List Item) : readTail (k + 1) bounds acc (.inl b :: s) =
      readTail k (0x80, 0xBF) (acc * 64 + (b - 0x80)) s := by
  rw [readTail, byteIn, if_pos ⟨hlo, hhi⟩]

theorem step_of_readTail {b k n : ℕ} {s s' : List Item} (hk : trailing b = some k)
    (h : readTail k (secondBounds b) (payload b) s = (some n, s')) :
    step b s = (Char.ofNat n, s') := by
  simp only [step, hk, h]

theorem step_two {n : ℕ} (h : 0x80 ≤ n) (h' : n < 0x800) (s : List Item) :
    step (0xC0 + n / 64) (.inl (0x80 + n % 64) :: s) = (Char.ofNat n, s) := by
  have hk : trailing (0xC0 + n / 64) = some 1 := by
    simp only [trailing]
    split_ifs <;> first | rfl | omega
  have hb : secondBounds (0xC0 + n / 64) = (0x80, 0xBF) := by
    simp only [secondBounds]
    split_ifs <;> first | rfl | omega
  have hp : payload (0xC0 + n / 64) = n / 64 := by
    simp only [payload]
    split_ifs <;> omega
  have hn : n / 64 * 64 + (0x80 + n % 64 - 0x80) = n := by omega
  apply step_of_readTail hk
  rw [hb, hp, readTail_cons (by simp) (by simp; omega), readTail, hn]

theorem step_three {n : ℕ} (h : 0x800 ≤ n) (h' : n < 0x10000) (hs : n < 0xD800 ∨ 0xDFFF < n)
    (s : List Item) :
    step (0xE0 + n / 4096) (.inl (0x80 + n / 64 % 64) :: .inl (0x80 + n % 64) :: s) =
      (Char.ofNat n, s) := by
  have hk : trailing (0xE0 + n / 4096) = some 2 := by
    simp only [trailing]
    split_ifs <;> first | rfl | omega
  have hp : payload (0xE0 + n / 4096) = n / 4096 := by
    simp only [payload]
    split_ifs <;> omega
  have hlo : (secondBounds (0xE0 + n / 4096)).1 ≤ 0x80 + n / 64 % 64 := by
    simp only [secondBounds]
    split_ifs <;> simp only <;> omega
  have hhi : 0x80 + n / 64 % 64 ≤ (secondBounds (0xE0 + n / 4096)).2 := by
    simp only [secondBounds]
    split_ifs <;> simp only <;> omega
  have hn : (n / 4096 * 64 + (0x80 + n / 64 % 64 - 0x80)) * 64 + (0x80 + n % 64 - 0x80) = n := by
    omega
  apply step_of_readTail hk
  rw [hp, readTail_cons hlo hhi, readTail_cons (by simp) (by simp; omega), readTail, hn]

theorem step_four {n : ℕ} (h : 0x10000 ≤ n) (h' : n < 0x110000) (s : List Item) :
    step (0xF0 + n / 262144) (.inl (0x80 + n / 4096 % 64) :: .inl (0x80 + n / 64 % 64) ::
      .inl (0x80 + n % 64) :: s) = (Char.ofNat n, s) := by
  have hk : trailing (0xF0 + n / 262144) = some 3 := by
    simp only [trailing]
    split_ifs <;> first | rfl | omega
  have hp : payload (0xF0 + n / 262144) = n / 262144 := by
    simp only [payload]
    split_ifs <;> omega
  have hlo : (secondBounds (0xF0 + n / 262144)).1 ≤ 0x80 + n / 4096 % 64 := by
    simp only [secondBounds]
    split_ifs <;> simp only <;> omega
  have hhi : 0x80 + n / 4096 % 64 ≤ (secondBounds (0xF0 + n / 262144)).2 := by
    simp only [secondBounds]
    split_ifs <;> simp only <;> omega
  have hn : ((n / 262144 * 64 + (0x80 + n / 4096 % 64 - 0x80)) * 64 +
      (0x80 + n / 64 % 64 - 0x80)) * 64 + (0x80 + n % 64 - 0x80) = n := by
    omega
  apply step_of_readTail hk
  rw [hp, readTail_cons hlo hhi, readTail_cons (by simp) (by simp; omega),
    readTail_cons (by simp) (by simp; omega), readTail, hn]

/-- **The bytes of a character are decoded to it.** -/
theorem decode_encode (c : Char) (s : List Item) :
    decode ((encode c).map .inl ++ s) = c :: decode s := by
  have hv : c.toNat < 0xD800 ∨ (0xDFFF < c.toNat ∧ c.toNat < 0x110000) := c.valid
  simp only [encode]
  split_ifs with h1 h2 h3
  · rw [List.map_singleton, List.singleton_append, decode_inl, step_of_lt h1, Char.ofNat_toNat]
  · simp only [List.map_cons, List.map_nil, List.cons_append, List.nil_append]
    rw [decode_inl, step_two (by omega) h2, Char.ofNat_toNat]
  · simp only [List.map_cons, List.map_nil, List.cons_append, List.nil_append]
    rw [decode_inl, step_three (by omega) h3 (by omega), Char.ofNat_toNat]
  · simp only [List.map_cons, List.map_nil, List.cons_append, List.nil_append]
    rw [decode_inl, step_four (by omega) (by omega), Char.ofNat_toNat]

theorem lt_of_mem_encode {c : Char} {b : ℕ} (h : b ∈ encode c) : b < 256 := by
  have hv : c.toNat < 0xD800 ∨ (0xDFFF < c.toNat ∧ c.toNat < 0x110000) := c.valid
  simp only [encode] at h
  split_ifs at h <;> simp only [List.mem_cons, List.not_mem_nil, or_false] at h <;> omega

/-! ## Decoding in two parts -/

theorem byteIn_append {bounds : ℕ × ℕ} (hb : 0x80 ≤ bounds.1) {i : Item} (hi : IsStart i)
    (s t : List Item) :
    byteIn bounds (s ++ i :: t) = (byteIn bounds s).map fun x => (x.1, x.2 ++ i :: t) := by
  match s with
  | [] =>
    cases i with
    | inr c => rfl
    | inl b =>
      have hlt : ¬ (bounds.1 ≤ b ∧ b ≤ bounds.2) := fun h => by
        have : b < 0x80 := hi
        omega
      rw [List.nil_append, byteIn, if_neg hlt]
      rfl
  | .inr c :: s => rfl
  | .inl b :: s =>
    rw [List.cons_append, byteIn, byteIn]
    split <;> rfl

theorem readTail_append {bounds : ℕ × ℕ} (hb : 0x80 ≤ bounds.1) {i : Item} (hi : IsStart i)
    (k acc : ℕ) (s t : List Item) : readTail k bounds acc (s ++ i :: t) =
      ((readTail k bounds acc s).1, (readTail k bounds acc s).2 ++ i :: t) := by
  induction k generalizing bounds acc s with
  | zero => rfl
  | succ k ih =>
    rw [readTail, readTail, byteIn_append hb hi]
    cases byteIn bounds s with
    | none => rfl
    | some x => exact ih (by decide) _ _

theorem le_secondBounds (b : ℕ) : 0x80 ≤ (secondBounds b).1 := by
  unfold secondBounds
  split_ifs <;> decide

theorem step_append {i : Item} (hi : IsStart i) (b : ℕ) (s t : List Item) :
    step b (s ++ i :: t) = ((step b s).1, (step b s).2 ++ i :: t) := by
  simp only [step]
  cases trailing b with
  | none => rfl
  | some k =>
    simp only [readTail_append (le_secondBounds b) hi]
    rcases readTail k (secondBounds b) (payload b) s with ⟨_ | n, s'⟩ <;> rfl

/-- **What begins a character is decoded on its own.** -/
theorem decode_append {i : Item} (hi : IsStart i) (s t : List Item) :
    decode (s ++ i :: t) = decode s ++ decode (i :: t) := by
  induction h : s.length using Nat.strong_induction_on generalizing s with
  | _ n ih =>
    match s with
    | [] => rfl
    | .inr c :: s =>
      rw [List.cons_append, decode_inr, decode_inr, List.cons_append,
        ih s.length (h ▸ Nat.lt_succ_self _) s rfl]
    | .inl b :: s =>
      rw [List.cons_append, decode_inl, decode_inl, step_append hi, List.cons_append,
        ih (step b s).2.length (h ▸ Nat.lt_succ_of_le (length_step b s)) _ rfl]

end Utf8

namespace Percent

open PyText (Text digitVal? digitVal?)
open Utf8

/-! ## Unquoting -/

/-- The byte of two hexadecimal digits. -/
def hexPair (a b : Char) : Option ℕ :=
  match digitVal? 16 a, digitVal? 16 b with
  | some x, some y => some (16 * x + y)
  | _, _ => none

/-- The byte of an escape, after its percent sign, and what follows it. -/
def escape? : Text → Option (ℕ × Text)
  | a :: b :: s => (hexPair a b).map (·, s)
  | _ => none

theorem length_escape? {s s' : Text} {n : ℕ} (h : escape? s = some (n, s')) :
    s'.length < s.length := by
  match s, h with
  | a :: b :: s, h =>
    obtain ⟨m, -, hm⟩ := Option.map_eq_some_iff.mp h
    cases hm
    simp only [List.length_cons]
    omega

/-- The items of a text: an escape is a byte, any other character is itself. -/
def items : Text → List Item
  | [] => []
  | c :: s =>
    if c = '%' then
      match _h : escape? s with
      | some (n, s') => .inl n :: items s'
      | none => toItem c :: items s
    else toItem c :: items s
termination_by s => s.length
decreasing_by all_goals first | exact Nat.lt_succ_of_lt (length_escape? _h) | exact Nat.lt_succ_self _

/-- The text that a quoted text stands for. -/
def unquote (t : Text) : Text := decode (items t)

/-- Whether an escape is in a text. -/
def hasEscape : Text → Bool
  | [] => false
  | c :: s => c = '%' && (escape? s).isSome || hasEscape s

@[simp] theorem items_nil : items [] = [] := by rw [items]

theorem items_cons {c : Char} (h : c ≠ '%') (s : Text) : items (c :: s) = toItem c :: items s := by
  rw [items, if_neg h]

theorem items_escape {s s' : Text} {n : ℕ} (h : escape? s = some (n, s')) :
    items ('%' :: s) = .inl n :: items s' := by
  rw [items, if_pos rfl]
  split
  · rename_i h'
    cases h.symm.trans h'
    rfl
  · rename_i h'
    cases h.symm.trans h'

theorem items_of_escape?_none {s : Text} (h : escape? s = none) (c : Char) :
    items (c :: s) = toItem c :: items s := by
  rw [items]
  split
  · split
    · rename_i h'
      cases h.symm.trans h'
    · rfl
  · rfl

@[simp] theorem unquote_nil : unquote [] = [] := by rw [unquote, items_nil, decode_nil]

theorem unquote_cons {c : Char} (h : c ≠ '%') (s : Text) :
    unquote (c :: s) = c :: unquote s := by
  rw [unquote, items_cons h, decode_toItem, unquote]

/-- A text without a percent sign is left as it is. -/
theorem unquote_append_of_not_mem {x : Text} (h : '%' ∉ x) (s : Text) :
    unquote (x ++ s) = x ++ unquote s := by
  induction x with
  | nil => rfl
  | cons c x ih =>
    have hc : c ≠ '%' := fun he => h (he ▸ List.mem_cons_self)
    rw [List.cons_append, unquote_cons hc, ih fun hm => h (List.mem_cons_of_mem c hm),
      List.cons_append]

theorem unquote_eq_self_of_not_mem {x : Text} (h : '%' ∉ x) : unquote x = x := by
  have := unquote_append_of_not_mem h []
  rwa [List.append_nil, unquote_nil, List.append_nil] at this

/-! ## The length of an unquoted text -/

theorem length_items_le (t : Text) : (items t).length ≤ t.length := by
  fun_induction items t with
  | case1 => exact Nat.le_refl _
  | case2 s n s' h ih =>
    have := length_escape? h
    simp only [List.length_cons]
    omega
  | case3 s h ih => exact Nat.succ_le_succ ih
  | case4 c s h ih => exact Nat.succ_le_succ ih

/-- Unquoting does not make a text longer. -/
theorem length_unquote_le (t : Text) : (unquote t).length ≤ t.length :=
  Nat.le_trans (length_decode_le _) (length_items_le t)

theorem length_items_lt {t : Text} (h : hasEscape t = true) : (items t).length < t.length := by
  induction t with
  | nil => cases h
  | cons c s ih =>
    cases he : escape? s with
    | none =>
      have hs : hasEscape s = true := by simpa [hasEscape, he] using h
      rw [items_of_escape?_none he]
      exact Nat.succ_lt_succ (ih hs)
    | some x =>
      by_cases hc : c = '%'
      · rw [hc, items_escape he]
        have := length_escape? he
        have := length_items_le x.2
        simp only [List.length_cons]
        omega
      · have hs : hasEscape s = true := by simpa [hasEscape, hc] using h
        rw [items_cons hc]
        exact Nat.succ_lt_succ (ih hs)

theorem unquote_eq_self {t : Text} (h : hasEscape t = false) : unquote t = t := by
  induction t with
  | nil => exact unquote_nil
  | cons c s ih =>
    obtain ⟨hc, hs⟩ := Bool.or_eq_false_iff.mp h
    by_cases he : c = '%'
    · have hn : escape? s = none := by simpa [he] using hc
      rw [unquote, items_of_escape?_none hn, decode_toItem, ← unquote, ih hs]
    · rw [unquote_cons he, ih hs]

/-- **Unquoting keeps the length exactly of a text without an escape.** -/
theorem length_unquote_eq_iff {t : Text} :
    (unquote t).length = t.length ↔ hasEscape t = false := by
  constructor
  · intro h
    by_contra hne
    have hlt := length_items_lt (Bool.of_not_eq_false hne)
    exact absurd h (Nat.ne_of_lt (Nat.lt_of_le_of_lt (length_decode_le _) hlt))
  · intro h
    rw [unquote_eq_self h]

/-! ## Unquoting in two parts -/

theorem hexPair_eq_none_of_left {a b : Char} (h : digitVal? 16 a = none) : hexPair a b = none := by
  rw [hexPair, h]

theorem hexPair_eq_none_of_right {a b : Char} (h : digitVal? 16 b = none) : hexPair a b = none := by
  rw [hexPair, h]
  split <;> first | rfl | contradiction

theorem escape?_append_of_some {s s' : Text} {n : ℕ} (h : escape? s = some (n, s')) (t : Text) :
    escape? (s ++ t) = some (n, s' ++ t) := by
  match s, h with
  | a :: b :: s, h =>
    obtain ⟨m, hm, he⟩ := Option.map_eq_some_iff.mp h
    cases he
    simp only [List.cons_append, escape?, hm, Option.map_some]

theorem escape?_append_of_none {c : Char} (hc : digitVal? 16 c = none) {s : Text}
    (h : escape? s = none) (t : Text) : escape? (s ++ c :: t) = none := by
  match s, t, h with
  | [], [], _ => rfl
  | [], b :: t, _ =>
    simp only [List.nil_append, escape?, hexPair_eq_none_of_left hc, Option.map_none]
  | [a], t, _ =>
    simp only [List.cons_append, List.nil_append, escape?, hexPair_eq_none_of_right hc,
      Option.map_none]
  | a :: b :: s, t, h =>
    have hn : hexPair a b = none := Option.map_eq_none_iff.mp h
    simp only [List.cons_append, escape?, hn, Option.map_none]

/-- A character that is neither a percent sign nor a hexadecimal digit separates the items. -/
theorem items_append_cons {c : Char} (hp : c ≠ '%') (hc : digitVal? 16 c = none) (x y : Text) :
    items (x ++ c :: y) = items x ++ toItem c :: items y := by
  fun_induction items x with
  | case1 => exact items_cons hp y
  | case2 s n s' h ih =>
    rw [List.cons_append, items_escape (escape?_append_of_some h _), ih, List.cons_append]
  | case3 s h ih =>
    rw [List.cons_append, items_of_escape?_none (escape?_append_of_none hc h _), ih,
      List.cons_append]
  | case4 d s hd ih => rw [List.cons_append, items_cons hd, ih, List.cons_append]

/-- **A character that is neither a percent sign nor a hexadecimal digit separates what is
unquoted.** -/
theorem unquote_append_cons {c : Char} (hp : c ≠ '%') (hc : digitVal? 16 c = none) (x y : Text) :
    unquote (x ++ c :: y) = unquote x ++ c :: unquote y := by
  rw [unquote, items_append_cons hp hc, decode_append (isStart_toItem c), decode_toItem, unquote,
    unquote]

/-! ## Quoting -/

/-- The characters that quoting leaves. -/
def isUnreserved (c : Char) : Bool :=
  'a' ≤ c && c ≤ 'z' || 'A' ≤ c && c ≤ 'Z' || '0' ≤ c && c ≤ '9' ||
    c = '_' || c = '.' || c = '-' || c = '~'

/-- A hexadecimal digit, in upper case. -/
def hexDigit (n : ℕ) : Char := if n < 10 then Char.ofNat (48 + n) else Char.ofNat (55 + n)

/-- The escape of a byte. -/
def escape (b : ℕ) : Text := ['%', hexDigit (b / 16), hexDigit (b % 16)]

/-- The quoted form of a character. -/
def quoteChar (c : Char) : Text := if isUnreserved c then [c] else (encode c).flatMap escape

/-- The quoted form of a text, where no reserved character is safe. -/
def quote (t : Text) : Text := t.flatMap quoteChar

set_option maxRecDepth 4000 in
theorem hexPair_hexDigit : ∀ b < 256, hexPair (hexDigit (b / 16)) (hexDigit (b % 16)) = some b := by
  decide

theorem items_escape_append {bs : List ℕ} (h : ∀ b ∈ bs, b < 256) (s : Text) :
    items (bs.flatMap escape ++ s) = bs.map .inl ++ items s := by
  induction bs with
  | nil => rfl
  | cons b bs ih =>
    have hb : escape? (hexDigit (b / 16) :: hexDigit (b % 16) :: (bs.flatMap escape ++ s)) =
        some (b, bs.flatMap escape ++ s) := by
      rw [escape?, hexPair_hexDigit b (h b List.mem_cons_self), Option.map_some]
    rw [List.flatMap_cons, List.append_assoc, escape]
    simp only [List.cons_append, List.nil_append]
    rw [items_escape hb, ih fun b' hb' => h b' (List.mem_cons_of_mem b hb'), List.map_cons,
      List.cons_append]

theorem ne_percent_of_isUnreserved {c : Char} (h : isUnreserved c = true) : c ≠ '%' := by
  rintro rfl
  revert h
  decide

theorem unquote_quoteChar_append (c : Char) (s : Text) :
    unquote (quoteChar c ++ s) = c :: unquote s := by
  rw [quoteChar]
  split
  · rename_i h
    exact unquote_cons (ne_percent_of_isUnreserved h) s
  · rw [unquote, items_escape_append fun b => lt_of_mem_encode, decode_encode, unquote]

theorem unquote_quote_append (t s : Text) : unquote (quote t ++ s) = t ++ unquote s := by
  induction t with
  | nil => rfl
  | cons c t ih =>
    rw [quote, List.flatMap_cons, List.append_assoc, unquote_quoteChar_append, ← quote, ih,
      List.cons_append]

/-- **Unquoting undoes quoting.** -/
theorem unquote_quote (t : Text) : unquote (quote t) = t := by
  have := unquote_quote_append t []
  rwa [List.append_nil, unquote_nil, List.append_nil] at this

/-- The characters of a quoted text are unreserved, or belong to an escape. -/
def isQuoted (c : Char) : Bool := isUnreserved c || c = '%'

theorem isUnreserved_hexDigit : ∀ n < 16, isUnreserved (hexDigit n) = true := by decide

theorem isQuoted_of_mem_quote {t : Text} {c : Char} (h : c ∈ quote t) : isQuoted c = true := by
  obtain ⟨d, -, hd⟩ := List.mem_flatMap.mp h
  rw [quoteChar] at hd
  split at hd
  · rename_i hu
    rw [List.mem_singleton.mp hd, isQuoted, hu, Bool.true_or]
  · obtain ⟨b, hb, hc⟩ := List.mem_flatMap.mp hd
    have hlt := lt_of_mem_encode hb
    simp only [escape, List.mem_cons, List.not_mem_nil, or_false] at hc
    obtain rfl | rfl | rfl := hc
    · rfl
    · rw [isQuoted, isUnreserved_hexDigit _ (by omega), Bool.true_or]
    · rw [isQuoted, isUnreserved_hexDigit _ (by omega), Bool.true_or]

end Percent
