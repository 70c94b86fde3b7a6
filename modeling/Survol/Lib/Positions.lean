import Survol.Lib.Text

/-!
# Positions of characters, and white space at the ends

Where a character or a needle is found in a text made of parts, and texts that `strip` leaves as
they are.

## Main results

* `PyText.findIdx_char`, `PyText.rfindChar_append` — a character after a text without it.
* `PyText.find?_append` — searching in the second of two texts.
* `PyText.strip_of_trimmed` — a text without white space at its ends.
-/

namespace PyText

/-! ## Positions -/

theorem findIdx_char {c : Char} {a : Text} (h : c ∉ a) (b : Text) :
    findIdx [c] (a ++ c :: b) = some a.length := by
  induction a with
  | nil => simp [findIdx]
  | cons d a ih =>
    rw [List.mem_cons, not_or] at h
    have hd : ¬ [c].isPrefixOf (d :: (a ++ c :: b)) = true := by
      simpa using h.1
    rw [List.cons_append, findIdx_cons, if_neg hd, ih h.2]
    rfl

theorem rfindChar_eq_none {c : Char} {a : Text} (h : c ∉ a) : rfindChar c a = none := by
  induction a with
  | nil => rfl
  | cons d a ih =>
    rw [List.mem_cons, not_or] at h
    rw [rfindChar, ih h.2]
    simpa using Ne.symm h.1

theorem rfindChar_append {c : Char} {b : Text} (h : c ∉ b) (a : Text) :
    rfindChar c (a ++ c :: b) = some a.length := by
  induction a with
  | nil => simp [rfindChar, rfindChar_eq_none h]
  | cons d a ih => simp [rfindChar, ih]

theorem rfindChar_lt {c : Char} {s : Text} {k : ℕ} (h : rfindChar c s = some k) : k < s.length := by
  induction s generalizing k with
  | nil => cases h
  | cons d s ih =>
    rw [rfindChar] at h
    cases hr : rfindChar c s with
    | some j =>
      rw [hr] at h
      cases h
      have := ih hr
      rw [List.length_cons]
      omega
    | none =>
      rw [hr] at h
      dsimp only at h
      split at h <;> cases h
      simp

theorem slice_append (a b : Text) (i e : ℕ) :
    slice (a ++ b) (a.length + i) (a.length + e) = slice b i e := by
  rw [slice, slice, List.take_length_add_append, List.drop_append]
  simp

/-- Searching in a text that stands after another. -/
theorem find?_append (a b needle : Text) (q : ℕ) :
    find? (a ++ b) needle (a.length + q) = (find? b needle q).map (a.length + ·) := by
  rw [find?, find?, List.drop_append]
  simp only [Nat.add_sub_cancel_left, List.drop_of_length_le (Nat.le_add_right a.length q),
    List.nil_append, Option.map_map]
  congr 1
  funext k
  simp only [Function.comp_apply]
  omega

/-- What follows the first occurrence does not matter. -/
theorem find?_append_right {a needle : Text} {q k : ℕ} (hn : needle ≠ [])
    (h : find? a needle q = some k) (b : Text) : find? (a ++ b) needle q = some k := by
  obtain ⟨j, hj, rfl⟩ := Option.map_eq_some_iff.mp h
  have hq : q ≤ a.length := by
    by_contra hlt
    rw [List.drop_of_length_le (by omega), findIdx_nil hn] at hj
    cases hj
  rw [find?, List.drop_append_of_le_length hq, findIdx_append_of_some hj]
  rfl

/-! ## A text between two characters -/

theorem pySlice_zero (a b : Text) : pySlice (a ++ b) 0 a.length = a := by
  have h := pySlice_natCast (a ++ b) 0 a.length
  rwa [slice, List.take_left, List.drop_zero] at h

/-- The last character that encloses a text. -/
theorem rfindChar_enclosed {o c : Char} {tail : Text} (h : c ∉ tail) (a b : Text) :
    rfindChar c (a ++ o :: (b ++ c :: tail)) = some (a.length + 1 + b.length) := by
  have hsplit : a ++ o :: (b ++ c :: tail) = (a ++ o :: b) ++ c :: tail := by simp
  rw [hsplit, rfindChar_append h]
  simp only [List.length_append, List.length_cons, Option.some.injEq]
  omega

/-- The text between two characters, by their positions. -/
theorem pySlice_enclosed (o c : Char) (a b tail : Text) :
    pySlice (a ++ o :: (b ++ c :: tail)) ((a.length : ℤ) + 1)
      ((a.length + 1 + b.length : ℕ) : ℤ) = b := by
  have hsplit : a ++ o :: (b ++ c :: tail) = (a ++ [o]) ++ (b ++ c :: tail) := by simp
  have hlen : ((a.length : ℤ) + 1) = (((a ++ [o]).length + 0 : ℕ) : ℤ) := by simp
  have hlen' : a.length + 1 + b.length = (a ++ [o]).length + b.length := by simp
  rw [hlen, hlen', pySlice_natCast, hsplit, slice_append, slice, List.take_left, List.drop_zero]

/-! ## White space at the ends -/

/-- Nothing is dropped when the first character is none of the class. -/
theorem dropWhile_of_head {p : Char → Bool} {s : Text} (h : ∀ c ∈ s.head?, p c = false) :
    s.dropWhile p = s := by
  cases s with
  | nil => rfl
  | cons c s => exact List.dropWhile_cons_of_neg (by simp [h c rfl])

/-- A text with no white space at its ends. -/
structure Trimmed (s : Text) : Prop where
  head : ∀ c ∈ s.head?, isBlank c = false
  last : ∀ c ∈ s.getLast?, isBlank c = false

instance (s : Text) : Decidable (Trimmed s) :=
  decidable_of_iff ((∀ c ∈ s.head?, isBlank c = false) ∧ ∀ c ∈ s.getLast?, isBlank c = false)
    ⟨fun h => ⟨h.1, h.2⟩, fun h => ⟨h.head, h.last⟩⟩

theorem strip_of_trimmed {s : Text} (h : Trimmed s) : strip s = s := by
  rw [strip, dropWhile_of_head h.head, List.rdropWhile_eq_self_iff]
  intro hne hb
  rw [h.last _ (List.getLast?_eq_some_getLast hne)] at hb
  cases hb

/-- White space in front is stripped. -/
theorem strip_cons_of_isBlank {c : Char} (h : isBlank c = true) (s : Text) :
    strip (c :: s) = strip s := by
  rw [strip, strip, List.dropWhile_cons_of_pos h]

/-- What is stripped has no white space at its ends. -/
theorem trimmed_strip (s : Text) : Trimmed (strip s) := by
  constructor
  · intro c hc
    obtain ⟨t, ht⟩ := List.rdropWhile_prefix isBlank (s.dropWhile isBlank)
    have hhead : (s.dropWhile isBlank).head? = some c := by
      rw [← ht, List.head?_append, ← strip, hc]
      rfl
    have h := List.head?_dropWhile_not isBlank s
    rwa [hhead] at h
  · intro c hc
    obtain ⟨hne, rfl⟩ := List.mem_getLast?_eq_getLast hc
    exact Bool.not_eq_true _ ▸ List.rdropWhile_last_not isBlank (s.dropWhile isBlank) hne

/-- A text that is stripped to nothing is white space. -/
theorem isBlank_of_strip {s : Text} (h : strip s = []) : ∀ c ∈ s, isBlank c = true := by
  rw [strip, List.rdropWhile_eq_nil_iff] at h
  have hdrop : s.dropWhile isBlank = [] := by
    by_contra hne
    have hhead := List.head_dropWhile_not isBlank hne
    rw [h _ (List.head_mem hne)] at hhead
    cases hhead
  exact List.dropWhile_eq_nil_iff.1 hdrop

/-- What is stripped stands between white space. -/
theorem exists_append_strip (s : Text) :
    ∃ a b, s = a ++ (strip s ++ b) ∧ ∀ c ∈ a, isBlank c = true := by
  obtain ⟨b, hb⟩ := List.rdropWhile_prefix isBlank (s.dropWhile isBlank)
  refine ⟨s.takeWhile isBlank, b, ?_, fun c hc => List.mem_takeWhile_imp hc⟩
  rw [strip, hb, List.takeWhile_append_dropWhile]

end PyText
