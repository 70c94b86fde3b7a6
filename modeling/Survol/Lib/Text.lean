import Mathlib.Data.List.Basic
import Mathlib.Data.List.DropRight
import Mathlib.Data.List.Infix

/-!
# Text as a list of characters

The string operations a scripting language offers, on lists of characters:
searching a substring from the left or the right, slices, stripping, splitting,
and reading a number. Positions are natural numbers and "not found" is `none`;
where a program goes on computing with a `-1`, `posOrMinusOne` gives it back.
Texts are strings of bytes: white space, digits and letters in upper or lower case
are the ASCII ones, and every other character is left as it is.

## Main definitions

* `findIdx needle s`, `find? s needle start` — the first occurrence.
* `rfindChar s c` — the last occurrence of a character.
* `slice s i e` — the characters from `i` up to `e`, and `pySlice` with the
  signed bounds of the language.
* `skipWhile p s limit i` — the position a forward scan stops at.
* `strip`, `splitOn`, `int?`, `hexInt?`, `isFloat`.
-/

namespace PyText

/-- A text is the list of its characters. -/
abbrev Text := List Char

/-- Texts are compared character by character. -/
instance : LawfulBEq Text := List.instLawfulBEq

/-- A property of the characters of a text is decided by reading the text. -/
instance (priority := high) decidableForallMem (p : Char → Prop) [DecidablePred p] (s : Text) :
    Decidable (∀ c ∈ s, p c) := List.decidableBAll p s

/-- A property of a character that may be missing. -/
instance (priority := high) decidableForallMemOption (p : Char → Prop) [DecidablePred p]
    (o : Option Char) : Decidable (∀ c ∈ o, p c) := Option.decidableForallMem o

/-! ## Searching -/

/-- The position of the first occurrence of `needle`. -/
def findIdx (needle : Text) : Text → Option ℕ
  | [] => if needle = [] then some 0 else none
  | c :: s => if needle.isPrefixOf (c :: s) then some 0 else (findIdx needle s).map (· + 1)

/-- The position of the first occurrence of `needle` at or after `start`. -/
def find? (s needle : Text) (start : ℕ) : Option ℕ :=
  (findIdx needle (s.drop start)).map (start + ·)

/-- Whether `needle` occurs, the test `s.find(needle) >= 0`. -/
def contains (s needle : Text) : Bool := (findIdx needle s).isSome

/-- The position of the last occurrence of the character `c`. -/
def rfindChar (c : Char) : Text → Option ℕ
  | [] => none
  | d :: s => match rfindChar c s with
    | some k => some (k + 1)
    | none => if d = c then some 0 else none

/-- A position as the language returns it: `-1` when there is none. -/
def posOrMinusOne : Option ℕ → ℤ
  | some k => k
  | none => -1

/-! ## Slices and scans -/

/-- The characters from position `i` up to, and without, position `e`. -/
def slice (s : Text) (i e : ℕ) : Text := (s.take e).drop i

/-- A bound of a slice: a negative one counts from the end. -/
def pyBound {α : Type} (l : List α) (i : ℤ) : ℕ := (if i < 0 then i + l.length else i).toNat

/-- The slice `s[i:e]` with signed bounds. -/
def pySlice (s : Text) (i e : ℤ) : Text := slice s (pyBound s i) (pyBound s e)

theorem pyBound_natCast {α : Type} (l : List α) (n : ℕ) : pyBound l (n : ℤ) = n := by
  rw [pyBound, if_neg (by omega), Int.toNat_natCast]

theorem pySlice_natCast (s : Text) (i e : ℕ) : pySlice s i e = slice s i e := by
  rw [pySlice, pyBound_natCast, pyBound_natCast]

/-- The item `l[i]`, where a negative `i` counts from the end; `none` out of range. -/
def pyIndex? {α : Type} (l : List α) (i : ℤ) : Option α :=
  let j := if i < 0 then i + l.length else i
  if j < 0 then none else l[j.toNat]?

/-- The list after `del l[i:e]`. -/
def pyDel {α : Type} (l : List α) (i e : ℤ) : List α :=
  l.take (pyBound l i) ++ l.drop (max (pyBound l i) (pyBound l e))

/-- The loop `while i < limit and p(s[i]): i += 1`, by the position it ends at. -/
def skipWhile (p : Char → Bool) (s : Text) (limit i : ℕ) : ℕ :=
  i + (((s.take limit).drop i).takeWhile p).length

/-! ## Stripping and splitting -/

/-- The white space of the language's `strip`. -/
def isBlank (c : Char) : Bool :=
  c = ' ' || c = '\t' || c = '\n' || c = '\r' || c = '\x0b' || c = '\x0c'

/-- What is true of the six characters is true of white space. -/
theorem forall_isBlank {P : Char → Prop} (h : ∀ c ∈ [' ', '\t', '\n', '\r', '\x0b', '\x0c'], P c)
    {c : Char} (hc : isBlank c = true) : P c := by
  simp only [isBlank, Bool.or_eq_true, decide_eq_true_eq] at hc
  rcases hc with ((((rfl | rfl) | rfl) | rfl) | rfl) | rfl <;> exact h _ (by simp)

/-- The text without the white space at its two ends. -/
def strip (s : Text) : Text := (s.dropWhile isBlank).rdropWhile isBlank

/-- The parts between the occurrences of the character `c`. -/
def splitOn (c : Char) : Text → List Text
  | [] => [[]]
  | d :: s => if d = c then [] :: splitOn c s else
    match splitOn c s with
    | [] => [[d]]
    | p :: ps => (d :: p) :: ps

/-! ## Numbers -/

/-- The value of a digit in the base `b`. -/
def digitVal? (b : ℕ) (c : Char) : Option ℕ :=
  let v :=
    if '0' ≤ c ∧ c ≤ '9' then some (c.toNat - '0'.toNat)
    else if 'a' ≤ c ∧ c ≤ 'z' then some (c.toNat - 'a'.toNat + 10)
    else if 'A' ≤ c ∧ c ≤ 'Z' then some (c.toNat - 'A'.toNat + 10)
    else none
  v.filter (· < b)

/-- The number written by a list of digits, most significant first. -/
def natOfDigits (b : ℕ) : ℕ → Text → Option ℕ
  | acc, [] => some acc
  | acc, c :: s => match digitVal? b c with
    | some v => natOfDigits b (acc * b + v) s
    | none => none

/-- A non-empty list of digits. -/
def nat? (b : ℕ) (s : Text) : Option ℕ := if s = [] then none else natOfDigits b 0 s

/-- An optional sign, then a number. -/
def signed (f : Text → Option ℕ) : Text → Option ℤ
  | '-' :: s => (f s).map fun n => -(n : ℤ)
  | '+' :: s => (f s).map Int.ofNat
  | s => (f s).map Int.ofNat

/-- The conversion `int(s)`; `none` where it raises. -/
def int? (s : Text) : Option ℤ := signed (nat? 10) (strip s)

/-- The conversion `int(s, 16)`, which accepts a leading `0x`. -/
def hexInt? (s : Text) : Option ℤ :=
  signed (fun t => match t with
    | '0' :: 'x' :: u => nat? 16 u
    | '0' :: 'X' :: u => nat? 16 u
    | u => nat? 16 u) (strip s)

/-- Whether a character is a decimal digit. -/
def isDigit (c : Char) : Bool := (digitVal? 10 c).isSome

/-- The exponent part of a floating-point literal, or nothing. -/
def isExponent : Text → Bool
  | [] => true
  | c :: s => (c = 'e' || c = 'E') && (signed (nat? 10) s).isSome

/-- A floating-point literal without its sign: digits with at most one point
and an optional exponent, or one of the two special names. -/
def isUnsignedFloat (s : Text) : Bool :=
  let whole := s.takeWhile isDigit
  let rest := s.dropWhile isDigit
  let lower := s.map Char.toLower
  match rest with
  | '.' :: t => !(whole.isEmpty && (t.takeWhile isDigit).isEmpty) && isExponent (t.dropWhile isDigit)
  | t => (!whole.isEmpty && isExponent t)
      || lower = "inf".toList || lower = "infinity".toList || lower = "nan".toList

/-- Whether `float(s)` succeeds. -/
def isFloat (s : Text) : Bool :=
  match strip s with
  | '-' :: t => isUnsignedFloat t
  | '+' :: t => isUnsignedFloat t
  | t => isUnsignedFloat t

/-! ## Facts about searching -/

theorem findIdx_cons (m : Text) (c : Char) (t : Text) :
    findIdx m (c :: t) =
      if m.isPrefixOf (c :: t) then some 0 else (findIdx m t).map (· + 1) := rfl

theorem findIdx_nil {m : Text} (hm : m ≠ []) : findIdx m [] = none := by simp [findIdx, hm]

/-- There is no first occurrence exactly when the needle does not occur. -/
theorem findIdx_eq_none_iff {m : Text} (hm : m ≠ []) (t : Text) :
    findIdx m t = none ↔ ¬ m <:+: t := by
  induction t with
  | nil => simp [findIdx_nil hm, hm]
  | cons c t ih =>
    rw [findIdx_cons, List.infix_cons_iff, ← List.isPrefixOf_iff_prefix]
    split
    · rename_i h
      simp [h]
    · rename_i h
      simp [h, ih]

/-- Searching from a later start, before the first occurrence. -/
theorem findIdx_drop {m t : Text} {k j : ℕ} (h : findIdx m t = some k) (hj : j ≤ k) :
    findIdx m (t.drop j) = some (k - j) := by
  induction j generalizing t k with
  | zero => simpa using h
  | succ j ih =>
    cases t with
    | nil =>
      simp only [findIdx] at h
      split at h
      · simp only [Option.some.injEq] at h
        omega
      · simp at h
    | cons c t =>
      rw [findIdx_cons] at h
      split at h
      · simp only [Option.some.injEq] at h
        omega
      · rw [Option.map_eq_some_iff] at h
        obtain ⟨k', hk', rfl⟩ := h
        rw [List.drop_succ_cons, ih hk' (by omega)]
        congr 1
        omega

theorem findIdx_drop_none {m t : Text} (h : findIdx m t = none) (j : ℕ) :
    findIdx m (t.drop j) = none := by
  induction j generalizing t with
  | zero => simpa using h
  | succ j ih =>
    cases t with
    | nil => simpa using h
    | cons c t =>
      rw [findIdx_cons] at h
      split at h
      · simp at h
      · rw [List.drop_succ_cons]
        exact ih (by simpa using h)

theorem findIdx_le {m t : Text} {k : ℕ} (h : findIdx m t = some k) : k ≤ t.length := by
  induction t generalizing k with
  | nil => simp only [findIdx] at h; split at h <;> simp_all
  | cons c t ih =>
    rw [findIdx_cons] at h
    split at h
    · simp only [Option.some.injEq] at h
      omega
    · rw [Option.map_eq_some_iff] at h
      obtain ⟨k', hk', rfl⟩ := h
      simpa using ih hk'

/-- The needle stands where it is found. -/
theorem prefix_of_findIdx {m t : Text} {k : ℕ} (h : findIdx m t = some k) : m <+: t.drop k := by
  induction t generalizing k with
  | nil =>
    simp only [findIdx] at h
    split at h
    · rename_i hm
      simp [hm]
    · simp at h
  | cons c t ih =>
    rw [findIdx_cons] at h
    split at h
    · rename_i hm
      simp only [Option.some.injEq] at h
      subst h
      exact List.isPrefixOf_iff_prefix.mp hm
    · rw [Option.map_eq_some_iff] at h
      obtain ⟨k', hk', rfl⟩ := h
      exact ih hk'

/-- What follows the first occurrence does not matter. -/
theorem findIdx_append_of_some {m a : Text} {k : ℕ} (h : findIdx m a = some k) (b : Text) :
    findIdx m (a ++ b) = some k := by
  induction a generalizing k with
  | nil =>
    simp only [findIdx] at h
    split at h
    · rename_i hm
      subst hm
      cases b <;> simpa [findIdx] using h
    · simp at h
  | cons c a ih =>
    rw [findIdx_cons] at h
    rw [List.cons_append, findIdx_cons]
    split at h
    · rename_i hp
      rw [List.isPrefixOf_iff_prefix] at hp
      rw [if_pos, h]
      exact List.isPrefixOf_iff_prefix.mpr (hp.trans (List.prefix_append (c :: a) b))
    · rename_i hp
      rw [Option.map_eq_some_iff] at h
      obtain ⟨k', hk', rfl⟩ := h
      rw [if_neg, ih hk', Option.map_some]
      intro hp'
      rw [List.isPrefixOf_iff_prefix] at hp hp'
      refine hp (List.prefix_of_prefix_length_le hp' (List.prefix_append (c :: a) b) ?_)
      have := (prefix_of_findIdx hk').length_le
      simp only [List.length_drop, List.length_cons] at this ⊢
      omega

/-! ## Facts about scanning -/

theorem drop_length_takeWhile (p : Char → Bool) (t : Text) :
    t.drop (t.takeWhile p).length = t.dropWhile p := by
  conv_lhs => rw [← List.takeWhile_append_dropWhile (p := p) (l := t)]
  rw [List.drop_append_of_le_length (by simp), List.takeWhile_append_dropWhile]
  simp

theorem takeWhile_append_of_head {p : Char → Bool} {u t : Text}
    (ht : ∀ c ∈ t.head?, p c = false) : (u ++ t).takeWhile p = u.takeWhile p := by
  induction u with
  | nil => cases t with
    | nil => rfl
    | cons c t => simp [ht c rfl]
  | cons d u ih => simp only [List.cons_append, List.takeWhile_cons, ih]

end PyText
