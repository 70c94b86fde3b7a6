import Survol.Uris.FormXids

/-!
# Joining and splitting

What is joined with a separator is split into the pieces of its parts, and what is split is
joined back.
-/

namespace Survol.Uris

open PyText (Text splitOn splitOn_append_cons splitOn_intercalate intercalate_splitOn)

theorem join_cons_cons (sep a b : Text) (l : List Text) :
    join sep (a :: b :: l) = a ++ sep ++ join sep (b :: l) := rfl

/-- The pieces of what is joined are the pieces of the texts. -/
theorem splitOn_join {c : Char} {ws : List Text} (h : ws ≠ []) :
    splitOn c (join [c] ws) = ws.flatMap (splitOn c) := by
  induction ws with
  | nil => exact absurd rfl h
  | cons w ws ih =>
    cases ws with
    | nil => simp [join]
    | cons w' ws =>
      rw [join_cons_cons, List.append_assoc, List.singleton_append, splitOn_append_cons,
        ih (by simp)]
      rfl

theorem join_eq_intercalate (sep : Text) (ws : List Text) : join sep ws = sep.intercalate ws := by
  induction ws with
  | nil => rfl
  | cons w ws ih =>
    cases ws with
    | nil => exact (List.intercalate_singleton).symm
    | cons w' ws => rw [join_cons_cons, ih, List.intercalate_cons_cons]

theorem splitOn_join_of_not_mem {c : Char} {ws : List Text} (h : ws ≠ [])
    (hno : ∀ w ∈ ws, c ∉ w) : splitOn c (join [c] ws) = ws := by
  rw [join_eq_intercalate, splitOn_intercalate h hno]

theorem join_splitOn (c : Char) (s : Text) : join [c] (splitOn c s) = s := by
  rw [join_eq_intercalate, intercalate_splitOn]

/-- Two lists of texts are joined to one text exactly if they have the same pieces. -/
theorem join_eq_join_iff {c : Char} {ws ws' : List Text} (h : ws ≠ []) (h' : ws' ≠ []) :
    join [c] ws = join [c] ws' ↔ ws.flatMap (splitOn c) = ws'.flatMap (splitOn c) := by
  rw [← splitOn_join h, ← splitOn_join h']
  constructor
  · intro heq
    rw [heq]
  · intro heq
    rw [← join_splitOn c (join [c] ws), heq, join_splitOn]

end Survol.Uris
