import Survol.Lib.Text

/-!
# Texts that are split

A text is split at a separator, and joined again. Each part is without the separator, and there is
one part more than there are separators.

## Main results

* `PyText.splitOn_eq_splitOn` — the parts are those of the list of the characters.
* `PyText.splitOn_append_cons` — the parts around a separator.
* `PyText.splitOn_intercalate`, `PyText.intercalate_splitOn` — joining and splitting.
* `PyText.length_splitOn` — the number of the parts.
-/

namespace PyText

variable {c : Char} {x : Text}

/-- The parts of a text are those of a list. -/
theorem splitOn_eq_splitOn (c : Char) (s : Text) : splitOn c s = List.splitOn c s := by
  induction s with
  | nil => exact (List.splitOn_nil c).symm
  | cons d s ih =>
    rw [List.splitOn_cons_eq_if_modifyHead, splitOn, ih]
    by_cases hd : d = c
    · rw [if_pos hd, if_pos (beq_iff_eq.mpr hd)]
    · rw [if_neg hd, if_neg (by simpa using hd)]
      cases h : List.splitOn c s with
      | nil => exact absurd h (List.splitOn_ne_nil c s)
      | cons p ps => rfl

theorem splitOn_ne_nil (c : Char) (s : Text) : splitOn c s ≠ [] := by
  rw [splitOn_eq_splitOn]
  exact List.splitOn_ne_nil c s

theorem splitOn_cons (c : Char) (s : Text) : ∃ p ps, splitOn c s = p :: ps :=
  List.exists_cons_of_ne_nil (splitOn_ne_nil c s)

theorem splitOn_of_not_mem (h : c ∉ x) : splitOn c x = [x] := by
  rw [splitOn_eq_splitOn, List.splitOn_eq_singleton h]

theorem splitOn_append_cons (c : Char) (x y : Text) :
    splitOn c (x ++ c :: y) = splitOn c x ++ splitOn c y := by
  simp only [splitOn_eq_splitOn, List.splitOn_append_cons_self]

theorem splitOn_append_cons_of_not_mem (h : c ∉ x) (y : Text) :
    splitOn c (x ++ c :: y) = x :: splitOn c y := by
  rw [splitOn_append_cons, splitOn_of_not_mem h, List.singleton_append]

/-- The first part is the text before the separator. -/
theorem splitOn_eq (c : Char) (s : Text) :
    splitOn c s = s.takeWhile (· ≠ c) :: (splitOn c s).tail := by
  induction s with
  | nil => rfl
  | cons d s ih =>
    by_cases hd : d = c
    · simp [splitOn, hd]
    · rw [splitOn, if_neg hd, ih, List.takeWhile_cons_of_pos (by simpa using hd)]
      rfl

theorem splitOn_append (h : c ∉ x) (s : Text) :
    splitOn c (x ++ s) = (x ++ s.takeWhile (· ≠ c)) :: (splitOn c s).tail := by
  induction x with
  | nil => exact splitOn_eq c s
  | cons d x ih =>
    have hd : d ≠ c := by
      rintro rfl
      exact h List.mem_cons_self
    rw [List.cons_append, splitOn, if_neg hd, ih fun hm => h (List.mem_cons_of_mem d hm)]
    rfl

/-- A part is without the separator. -/
theorem not_mem_splitOn {s p : Text} (h : p ∈ splitOn c s) : c ∉ p := by
  induction s generalizing p with
  | nil =>
    rw [splitOn, List.mem_singleton] at h
    rw [h]
    exact List.not_mem_nil
  | cons d s ih =>
    obtain ⟨q, qs, hs⟩ := splitOn_cons c s
    rw [splitOn, hs] at h
    rw [hs] at ih
    split at h
    · obtain rfl | h := List.mem_cons.mp h
      · exact List.not_mem_nil
      · exact ih h
    · rename_i hd
      obtain rfl | h := List.mem_cons.mp h
      · rw [List.mem_cons, not_or]
        exact ⟨Ne.symm hd, ih List.mem_cons_self⟩
      · exact ih (List.mem_cons_of_mem q h)

/-- The characters of a part are those of the text. -/
theorem mem_of_mem_splitOn {s p : Text} {d : Char} (h : p ∈ splitOn c s) (hd : d ∈ p) : d ∈ s := by
  induction s generalizing p with
  | nil =>
    rw [splitOn, List.mem_singleton] at h
    rw [h] at hd
    cases hd
  | cons e s ih =>
    obtain ⟨q, qs, hs⟩ := splitOn_cons c s
    rw [splitOn, hs] at h
    rw [hs] at ih
    split at h
    · obtain rfl | h := List.mem_cons.mp h
      · cases hd
      · exact List.mem_cons_of_mem e (ih h hd)
    · obtain rfl | h := List.mem_cons.mp h
      · obtain rfl | hd := List.mem_cons.mp hd
        · exact List.mem_cons_self
        · exact List.mem_cons_of_mem e (ih List.mem_cons_self hd)
      · exact List.mem_cons_of_mem e (ih (List.mem_cons_of_mem q h) hd)

/-- There is one part more than there are separators. -/
theorem length_splitOn (c : Char) (s : Text) : (splitOn c s).length = s.countP (· = c) + 1 := by
  induction s with
  | nil => rfl
  | cons d s ih =>
    obtain ⟨p, ps, hs⟩ := splitOn_cons c s
    rw [hs, List.length_cons] at ih
    rw [splitOn, hs, List.countP_cons]
    split
    · rename_i hd
      rw [hd, List.length_cons, List.length_cons, ih]
      simp
    · rename_i hd
      simp only [hd, decide_false, Bool.false_eq_true, if_false, List.length_cons]
      omega

/-- What is joined is split into its parts. -/
theorem splitOn_intercalate {parts : List Text} (hne : parts ≠ []) (h : ∀ p ∈ parts, c ∉ p) :
    splitOn c ([c].intercalate parts) = parts := by
  rw [splitOn_eq_splitOn, List.splitOn_intercalate c h hne]

/-- The parts are joined again. -/
theorem intercalate_splitOn (c : Char) (s : Text) : [c].intercalate (splitOn c s) = s := by
  rw [splitOn_eq_splitOn, List.intercalate_splitOn]

/-- One part more is joined at the end. -/
theorem intercalate_concat {sep x : Text} {xs : List Text} (h : xs ≠ []) :
    sep.intercalate (xs ++ [x]) = sep.intercalate xs ++ sep ++ x := by
  induction xs with
  | nil => exact absurd rfl h
  | cons y ys ih =>
    cases ys with
    | nil => simp
    | cons z zs =>
      rw [List.cons_append, List.cons_append, List.intercalate_cons_cons, ← List.cons_append,
        ih (List.cons_ne_nil z zs), List.intercalate_cons_cons]
      simp only [List.append_assoc]

end PyText
