import Survol.Dockit.Paths
import Survol.Lib.PosixPath

/-!
# Absolute paths

`ToAbsPath` edits the components of a path in place. Its index starts after the first component,
which two dots can remove as any other one. When two dots come first in what is left, the index
becomes negative, and the components are then read from the end.

## Main definitions

* `Leftover` — what is left once the components are read from the end.

## Main results

* `absLoop_reduce` — the loop, as long as nothing climbs.
* `absLoop_of_climb`, `absLoop_climb` — the loop, from the place where something climbs.
-/

open PyText PosixPath

namespace Survol.Dockit

/-! ## One step of the loop -/

section
variable {k : ℕ} {l : List Text} {ix : ℤ} {part : Text}

theorem absLoop_step_dotDot (h : pyIndex? l ix = some dotDot) :
    absLoop (k + 1) l ix = absLoop k (pyDel l (ix - 1) (ix + 1)) (ix - 1) := by
  rw [absLoop, h]
  exact if_pos rfl

theorem absLoop_step_blank (h : pyIndex? l ix = some part) (hp : IsBlank part) :
    absLoop (k + 1) l ix = absLoop k (pyDel l ix (ix + 1)) ix := by
  rw [absLoop, h]
  exact (if_neg (ne_dotDot_of_isBlank hp)).trans (if_pos hp)

theorem absLoop_step_name (h : pyIndex? l ix = some part) (hp : IsName part) :
    absLoop (k + 1) l ix = absLoop k l (ix + 1) := by
  rw [absLoop, h]
  exact (if_neg hp.1).trans (if_neg hp.2)

end

/-! ## The loop from the start -/

section
variable {k : ℕ} {kept rest stack parts : List Text} {part x : Text}

theorem pyIndex?_length (kept rest : List Text) (part : Text) :
    pyIndex? (kept ++ part :: rest) (kept.length : ℤ) = some part := by
  rw [pyIndex?, if_neg (by omega), if_neg (by omega), Int.toNat_natCast,
    List.getElem?_append_right le_rfl, Nat.sub_self]
  rfl

theorem pyDel_natCast {α : Type} (l : List α) (i e : ℕ) :
    pyDel l (i : ℤ) (e : ℤ) = l.take i ++ l.drop (max i e) := by
  rw [pyDel, pyBound_natCast, pyBound_natCast]

theorem absLoop_blank (h : IsBlank part) :
    absLoop (k + 1) (kept ++ part :: rest) kept.length = absLoop k (kept ++ rest) kept.length := by
  have hdel : pyDel (kept ++ part :: rest) (kept.length : ℤ) (kept.length + 1) = kept ++ rest := by
    have hcast : ((kept.length : ℤ) + 1) = ((kept.length + 1 : ℕ) : ℤ) := rfl
    rw [hcast, pyDel_natCast, List.take_left, max_eq_right (Nat.le_succ _), List.drop_append]
    simp
  rw [absLoop_step_blank (pyIndex?_length kept rest part) h, hdel]

theorem absLoop_name (h : IsName part) :
    absLoop (k + 1) (kept ++ part :: rest) kept.length =
      absLoop k (kept ++ part :: rest) (kept.length + 1 : ℕ) :=
  absLoop_step_name (pyIndex?_length kept rest part) h

theorem absLoop_dotDot :
    absLoop (k + 1) (kept ++ x :: dotDot :: rest) (kept.length + 1 : ℕ) =
      absLoop k (kept ++ rest) kept.length := by
  have hindex : pyIndex? (kept ++ x :: dotDot :: rest) ((kept.length + 1 : ℕ) : ℤ) =
      some dotDot := by
    have h := pyIndex?_length (kept ++ [x]) rest dotDot
    rw [List.length_append, List.append_assoc] at h
    exact h
  have hdel : pyDel (kept ++ x :: dotDot :: rest) (((kept.length + 1 : ℕ) : ℤ) - 1)
      (((kept.length + 1 : ℕ) : ℤ) + 1) = kept ++ rest := by
    have hfrom : (((kept.length + 1 : ℕ) : ℤ) - 1) = (kept.length : ℤ) := by omega
    have hto : (((kept.length + 1 : ℕ) : ℤ) + 1) = ((kept.length + 2 : ℕ) : ℤ) := rfl
    rw [hfrom, hto, pyDel_natCast, List.take_left, max_eq_right (Nat.le_add_right _ 2),
      List.drop_append]
    simp
  have hix : (((kept.length + 1 : ℕ) : ℤ) - 1) = (kept.length : ℤ) := by omega
  rw [absLoop_step_dotDot hindex, hdel, hix]

/-- **The loop reduces the components**, as long as nothing climbs. -/
theorem absLoop_reduce {s : List Text} (h : reduce stack parts = some s) :
    absLoop (parts.length + k) (stack.reverse ++ (parts ++ rest)) stack.length =
      absLoop k (s.reverse ++ rest) s.length := by
  induction parts generalizing stack with
  | nil =>
    cases h
    rw [List.length_nil, Nat.zero_add, List.nil_append]
  | cons part parts ih =>
    have hlen : (part :: parts).length + k = parts.length + k + 1 := by
      rw [List.length_cons]
      omega
    have hstack : (stack.length : ℤ) = (stack.reverse.length : ℤ) := by
      rw [List.length_reverse]
    rw [hlen, List.cons_append]
    rcases part_cases part with hp | rfl | hp
    · rw [reduce_blank hp] at h
      rw [hstack, absLoop_blank hp, ← hstack]
      exact ih h
    · cases stack with
      | nil =>
        rw [reduce_dotDot_nil] at h
        cases h
      | cons top stack =>
        rw [reduce_dotDot_cons] at h
        have hstep := @absLoop_dotDot (parts.length + k) stack.reverse (parts ++ rest) top
        rw [List.length_reverse] at hstep
        rw [List.reverse_cons, List.append_assoc, List.singleton_append, List.length_cons]
        exact hstep.trans (ih h)
    · rw [reduce_name hp] at h
      have hih := ih h
      rw [List.reverse_cons, List.append_assoc, List.singleton_append, List.length_cons] at hih
      rw [hstack, absLoop_name hp, List.length_reverse]
      exact hih

/-- The loop, where nothing climbs. -/
theorem absLoop_of_reduce {s : List Text} (h : reduce stack parts = some s) :
    absLoop parts.length (stack.reverse ++ parts) stack.length = some s.reverse := by
  have hrun := @absLoop_reduce 0 [] stack parts s h
  rw [Nat.add_zero, List.append_nil, List.append_nil] at hrun
  rw [hrun, absLoop]

end

/-! ## The loop from the end -/

section
variable {k : ℕ} {a b : List Text} {part : Text}

theorem pyIndex?_neg (a b : List Text) (part : Text) :
    pyIndex? (a ++ part :: b) (-(b.length : ℤ) - 1) = some part := by
  have hj : (-(b.length : ℤ) - 1) + ((a ++ part :: b).length : ℤ) = (a.length : ℤ) := by
    rw [List.length_append, List.length_cons]
    push_cast
    omega
  have hneg : -(b.length : ℤ) - 1 < 0 := by omega
  have hpos : ¬ (a.length : ℤ) < 0 := by omega
  simp only [pyIndex?, if_pos hneg, hj, if_neg hpos, Int.toNat_natCast]
  rw [List.getElem?_append_right le_rfl, Nat.sub_self]
  rfl

theorem pyIndex?_out (l : List Text) {j : ℤ} (h : j < -(l.length : ℤ)) : pyIndex? l j = none := by
  have hneg : j < 0 := by omega
  have hout : j + (l.length : ℤ) < 0 := by omega
  simp only [pyIndex?, if_pos hneg, if_pos hout]

theorem absLoop_out (l : List Text) {j : ℤ} (h : j < -(l.length : ℤ)) :
    absLoop (k + 1) l j = none := by
  rw [absLoop, pyIndex?_out l h]

theorem take_append_drop_max {α : Type} (l : List α) {i j : ℕ} (h : j ≤ i) :
    l.take i ++ l.drop (max i j) = l := by
  rw [max_eq_left h, List.take_append_drop]

/-- Two dots at a negative index that is not the last one. -/
theorem absLoop_neg_dotDot (hb : b ≠ []) :
    absLoop (k + 1) (a ++ dotDot :: b) (-(b.length : ℤ) - 1) =
      absLoop k (a.dropLast ++ b) (-(b.length : ℤ) - 2) := by
  have hpos := List.length_pos_of_ne_nil hb
  have hlen : (a ++ dotDot :: b).length = a.length + 1 + b.length := by
    rw [List.length_append, List.length_cons]
    omega
  have hfrom : pyBound (a ++ dotDot :: b) (-(b.length : ℤ) - 1 - 1) = a.length - 1 := by
    rw [pyBound, if_pos (by omega), hlen]
    omega
  have hto : pyBound (a ++ dotDot :: b) (-(b.length : ℤ) - 1 + 1) = a.length + 1 := by
    rw [pyBound, if_pos (by omega), hlen]
    omega
  have htake : (a ++ dotDot :: b).take (a.length - 1) = a.dropLast := by
    rw [List.take_append_of_le_length (Nat.sub_le _ _), List.dropLast_eq_take]
  have hdrop : (a ++ dotDot :: b).drop (a.length + 1) = b := by
    rw [List.drop_append]
    simp
  have hix : -(b.length : ℤ) - 1 - 1 = -(b.length : ℤ) - 2 := by omega
  rw [absLoop_step_dotDot (pyIndex?_neg a b dotDot), pyDel, hfrom, hto, max_eq_right (by omega),
    htake, hdrop, hix]

theorem absLoop_neg_blank (h : IsBlank part) (hb : b ≠ []) :
    absLoop (k + 1) (a ++ part :: b) (-(b.length : ℤ) - 1) =
      absLoop k (a ++ b) (-(b.length : ℤ) - 1) := by
  have hpos := List.length_pos_of_ne_nil hb
  have hlen : (a ++ part :: b).length = a.length + 1 + b.length := by
    rw [List.length_append, List.length_cons]
    omega
  have hfrom : pyBound (a ++ part :: b) (-(b.length : ℤ) - 1) = a.length := by
    rw [pyBound, if_pos (by omega), hlen]
    omega
  have hto : pyBound (a ++ part :: b) (-(b.length : ℤ) - 1 + 1) = a.length + 1 := by
    rw [pyBound, if_pos (by omega), hlen]
    omega
  have hdrop : (a ++ part :: b).drop (a.length + 1) = b := by
    rw [List.drop_append]
    simp
  rw [absLoop_step_blank (pyIndex?_neg a b part) h, pyDel, hfrom, hto, max_eq_right (Nat.le_succ _),
    List.take_left, hdrop]

theorem absLoop_neg_name (h : IsName part) :
    absLoop (k + 1) (a ++ part :: b) (-(b.length : ℤ) - 1) =
      absLoop k (a ++ part :: b) (-(b.length : ℤ)) := by
  rw [absLoop_step_name (pyIndex?_neg a b part) h, Int.sub_add_cancel]

/-- Two dots at the last index delete nothing. -/
theorem absLoop_last_dotDot :
    absLoop (k + 1) (a ++ [dotDot]) (-1) = absLoop k (a ++ [dotDot]) (-2) := by
  have hindex : pyIndex? (a ++ [dotDot]) (-1) = some dotDot := pyIndex?_neg a [] dotDot
  have hdel : pyDel (a ++ [dotDot]) (-1 - 1) (-1 + 1) = a ++ [dotDot] :=
    take_append_drop_max _ (Nat.zero_le _)
  rw [absLoop_step_dotDot hindex, hdel, show (-1 : ℤ) - 1 = -2 from rfl]

/-- A blank component at the last index stays. -/
theorem absLoop_last_blank (h : IsBlank part) (k : ℕ) :
    absLoop k (a ++ [part]) (-1) = some (a ++ [part]) := by
  induction k with
  | zero => rw [absLoop]
  | succ k ih =>
    have hindex : pyIndex? (a ++ [part]) (-1) = some part := pyIndex?_neg a [] part
    have hdel : pyDel (a ++ [part]) (-1) (-1 + 1) = a ++ [part] :=
      take_append_drop_max _ (Nat.zero_le _)
    exact (absLoop_step_blank hindex h).trans ((congrArg (absLoop k · (-1)) hdel).trans ih)

/-- Two dots at index zero, when something comes after them. -/
theorem absLoop_zero_dotDot (hb : b ≠ []) :
    absLoop (k + 1) (dotDot :: b) 0 = absLoop k (dotDot :: b) (-1) := by
  have hpos := List.length_pos_of_ne_nil hb
  have hindex : pyIndex? (dotDot :: b) 0 = some dotDot := pyIndex?_length [] b dotDot
  have hbound : pyBound (dotDot :: b) (-1) = b.length := by
    rw [pyBound, if_pos (by omega), List.length_cons]
    omega
  have hdel : pyDel (dotDot :: b) (0 - 1) (0 + 1) = dotDot :: b := by
    change (dotDot :: b).take (pyBound (dotDot :: b) (-1)) ++
      (dotDot :: b).drop (max (pyBound (dotDot :: b) (-1)) 1) = _
    rw [hbound, take_append_drop_max _ hpos]
  rw [absLoop_step_dotDot hindex, hdel, show (0 : ℤ) - 1 = -1 from rfl]

/-- A name at the end: the loop comes back to the two dots in front, until it stops. -/
theorem absLoop_last_name (h : IsName part) (k : ℕ) :
    absLoop k (dotDot :: (a ++ [part])) (-1) = some (dotDot :: (a ++ [part])) ∧
      absLoop k (dotDot :: (a ++ [part])) 0 = some (dotDot :: (a ++ [part])) := by
  induction k with
  | zero => exact ⟨by rw [absLoop], by rw [absLoop]⟩
  | succ k ih =>
    constructor
    · exact (@absLoop_neg_name k (dotDot :: a) [] part h).trans ih.2
    · rw [absLoop_zero_dotDot (by simp)]
      exact ih.1

/-- A name before the last two dots: the loop stays there, until it stops. -/
theorem absLoop_stuck (h : IsName part) (k : ℕ) :
    absLoop k (a ++ [part, dotDot]) (-1) = some (a ++ [part, dotDot]) ∧
      absLoop k (a ++ [part, dotDot]) (-2) = some (a ++ [part, dotDot]) := by
  induction k with
  | zero => exact ⟨by rw [absLoop], by rw [absLoop]⟩
  | succ k ih =>
    constructor
    · have hlast := @absLoop_last_dotDot k (a ++ [part])
      rw [List.append_assoc, List.singleton_append] at hlast
      exact hlast.trans ih.2
    · exact (@absLoop_neg_name k a [dotDot] part h).trans ih.1

end

/-! ## What is left after a climb -/

/-- What the loop leaves of `l`, which begins with two dots, once it reads it from the end. -/
structure Leftover (l r : List Text) : Prop where
  head : r.head? = some dotDot
  weight : PosixPath.weight r ≤ PosixPath.weight l
  last : r = l ∨ r.getLast? = some dotDot ∧ (r = [dotDot] → 3 ≤ PosixPath.weight l)

section
variable {k : ℕ} {mid : List Text}

/-- Some components between two dots and two dots. -/
def between (mid : List Text) : List Text := dotDot :: (mid ++ [dotDot])

theorem getLast?_between (mid : List Text) : (between mid).getLast? = some dotDot := by
  rw [between, ← List.cons_append, List.getLast?_concat]

theorem between_ne (mid : List Text) : between mid ≠ [dotDot] := by
  intro h
  have hlen := congrArg List.length h
  simp [between] at hlen

theorem weight_between (mid : List Text) : PosixPath.weight (between mid) =
    PosixPath.weight mid + 2 := by
  rw [between, weight_cons, weight_append, weight_cons, partWeight_dotDot, weight_nil]
  omega

/-- What is left of components between two dots and two dots. -/
structure BetweenLeftover (mid : List Text) (r : List Text) : Prop where
  head : r.head? = some dotDot
  last : r.getLast? = some dotDot
  weight : PosixPath.weight r ≤ PosixPath.weight (between mid)
  single : r = [dotDot] → 3 ≤ PosixPath.weight (between mid)

theorem BetweenLeftover.mono {mid mid' r : List Text} (h : BetweenLeftover mid r)
    (hw : PosixPath.weight mid ≤ PosixPath.weight mid') : BetweenLeftover mid' r := by
  have hle : PosixPath.weight (between mid) ≤ PosixPath.weight (between mid') := by
    rw [weight_between, weight_between]
    omega
  exact ⟨h.head, h.last, Int.le_trans h.weight hle, fun hr => Int.le_trans (h.single hr) hle⟩

theorem betweenLeftover_self (mid : List Text) : BetweenLeftover mid (between mid) :=
  ⟨rfl, getLast?_between mid, Int.le_refl _, fun h => absurd h (between_ne mid)⟩

/-- The component at a negative index, when it is neither the first nor the last one. -/
theorem exists_split {j : ℕ} (hj : 2 ≤ j) (hjm : j ≤ mid.length + 1) :
    ∃ a part b, mid = a ++ part :: b ∧ b.length + 2 = j := by
  have hlt : mid.length + 1 - j < mid.length := by omega
  refine ⟨mid.take (mid.length + 1 - j), mid[mid.length + 1 - j],
    mid.drop (mid.length + 1 - j + 1), ?_, ?_⟩
  · rw [List.getElem_cons_drop, List.take_append_drop]
  · rw [List.length_drop]
    omega

/-- The two dots in front are deleted, and then the index is out of range. -/
theorem absLoop_between_front (hk : 0 < k) :
    absLoop (k + 1) (between mid) (-((mid.length + 2 : ℕ) : ℤ)) = none := by
  have hstep := @absLoop_neg_dotDot k [] (mid ++ [dotDot]) (by simp)
  have hnext :
      absLoop k (mid ++ [dotDot]) (-(((mid ++ [dotDot]).length : ℕ) : ℤ) - 2) = none := by
    obtain ⟨k, rfl⟩ : ∃ k', k = k' + 1 := ⟨k - 1, by omega⟩
    exact absLoop_out _ (by omega)
  have hix : -((mid.length + 2 : ℕ) : ℤ) = -(((mid ++ [dotDot]).length : ℕ) : ℤ) - 1 := by
    rw [List.length_append, List.length_singleton]
    push_cast
    omega
  rw [hix]
  exact hstep.trans hnext

/-- **The loop on components between two dots and two dots**, from the one at `-j` on. The number of
steps that are left is kept equal to the length plus `j`, minus four. -/
theorem absLoop_between {k j : ℕ} (hj : 2 ≤ j) (hk : k + 2 = mid.length + j) :
    absLoop k (between mid) (-(j : ℤ)) = none ∨
      ∃ r, absLoop k (between mid) (-(j : ℤ)) = some r ∧ BetweenLeftover mid r := by
  induction k generalizing mid j with
  | zero => exact .inr ⟨_, by rw [absLoop], betweenLeftover_self mid⟩
  | succ k ih =>
    have hlen : (between mid).length = mid.length + 2 := by
      simp [between]
    by_cases hout : mid.length + 2 < j
    · exact .inl (absLoop_out _ (by rw [hlen]; omega))
    by_cases hfirst : j = mid.length + 2
    · subst hfirst
      exact .inl (absLoop_between_front (by omega))
    obtain ⟨a, part, b, rfl, hb⟩ := exists_split hj (by omega : j ≤ mid.length + 1)
    have hsplit : between (a ++ part :: b) = (dotDot :: a) ++ part :: (b ++ [dotDot]) := by
      simp [between]
    have hne : b ++ [dotDot] ≠ [] := by simp
    have hix : -(j : ℤ) = -((b ++ [dotDot]).length : ℤ) - 1 := by
      rw [List.length_append, List.length_singleton]
      push_cast
      omega
    have hweight : PosixPath.weight (a ++ part :: b) =
        PosixPath.weight a + partWeight part + PosixPath.weight b := by
      rw [weight_append, weight_cons]
      omega
    rw [List.length_append, List.length_cons] at hk
    rw [hsplit, hix]
    rcases part_cases part with hp | rfl | hp
    · rw [absLoop_neg_blank hp hne, ← hix]
      have hmid : (dotDot :: a) ++ (b ++ [dotDot]) = between (a ++ b) := by simp [between]
      have hw : PosixPath.weight (a ++ b) ≤ PosixPath.weight (a ++ part :: b) := by
        rw [hweight, partWeight_blank hp, weight_append]
        omega
      rw [hmid]
      refine (ih hj (by rw [List.length_append]; omega)).imp_right ?_
      rintro ⟨r, hr, hleft⟩
      exact ⟨r, hr, hleft.mono hw⟩
    · rw [absLoop_neg_dotDot hne]
      rcases List.eq_nil_or_concat a with rfl | ⟨a, x, rfl⟩
      · -- the two dots in front and these ones are deleted
        have hdrop : ([dotDot] : List Text).dropLast ++ (b ++ [dotDot]) = b ++ [dotDot] := rfl
        rw [hdrop]
        cases b with
        | nil =>
          have hzero : k = 0 := by
            simp only [List.length_nil] at hk hb
            omega
          subst hzero
          refine .inr ⟨[dotDot], by rw [absLoop]; rfl, rfl, rfl, ?_, fun _ => ?_⟩
          · decide
          · decide
        | cons y b =>
          obtain ⟨k, rfl⟩ : ∃ k', k = k' + 1 := ⟨k - 1, by simp at hk hb; omega⟩
          exact .inl (absLoop_out _ (by omega))
      · have hdrop : (dotDot :: a.concat x).dropLast ++ (b ++ [dotDot]) = between (a ++ b) := by
          rw [List.concat_eq_append, ← List.cons_append, List.dropLast_concat, between]
          simp
        have hix' : -((b ++ [dotDot]).length : ℤ) - 2 = -((j + 1 : ℕ) : ℤ) := by
          rw [List.length_append, List.length_singleton]
          push_cast
          omega
        have hx : partWeight x ≤ 1 ∧ -1 ≤ partWeight x := by
          rw [partWeight]
          split
          · omega
          · split <;> omega
        have hw : PosixPath.weight (a ++ b) ≤ PosixPath.weight (a.concat x ++ dotDot :: b) := by
          rw [hweight, List.concat_eq_append, weight_append, weight_append, weight_cons, weight_nil,
            partWeight_dotDot]
          omega
        rw [List.length_concat] at hk
        rw [hdrop, hix']
        refine (ih (by omega) (by rw [List.length_append]; omega)).imp_right ?_
        rintro ⟨r, hr, hleft⟩
        exact ⟨r, hr, hleft.mono hw⟩
    · rw [absLoop_neg_name hp, ← hsplit]
      cases b with
      | nil =>
        have hstuck := (@absLoop_stuck (dotDot :: a) part hp k).1
        have heq : between (a ++ [part]) = (dotDot :: a) ++ [part, dotDot] := by simp [between]
        refine .inr ⟨_, ?_, betweenLeftover_self _⟩
        rw [heq]
        exact hstuck
      | cons y b =>
        have hix' : -((y :: b ++ [dotDot]).length : ℤ) = -((j - 1 : ℕ) : ℤ) := by
          rw [List.length_append, List.length_singleton]
          omega
        rw [hix']
        rw [List.length_cons] at hb hk
        refine ih (by omega) ?_
        rw [List.length_append, List.length_cons, List.length_cons]
        omega

/-- **What the loop leaves after a climb.** -/
theorem absLoop_climb {rest : List Text} (hne : rest ≠ []) :
    absLoop rest.length (dotDot :: rest) (-1) = none ∨
      ∃ r, absLoop rest.length (dotDot :: rest) (-1) = some r ∧ Leftover (dotDot :: rest) r := by
  have hself : Leftover (dotDot :: rest) (dotDot :: rest) := ⟨rfl, Int.le_refl _, .inl rfl⟩
  obtain ⟨a, last, rfl⟩ := (List.eq_nil_or_concat rest).resolve_left hne
  rw [List.concat_eq_append] at hself ⊢
  rcases part_cases last with hp | rfl | hp
  · exact .inr ⟨_, @absLoop_last_blank (dotDot :: a) last hp _, hself⟩
  · rw [List.length_append, List.length_singleton]
    have hstep := @absLoop_last_dotDot a.length (dotDot :: a)
    rw [List.cons_append] at hstep
    rw [hstep]
    refine (@absLoop_between a a.length 2 le_rfl rfl).imp_right fun ⟨r, hr, hleft⟩ => ?_
    exact ⟨r, hr, hleft.head, hleft.weight, .inr ⟨hleft.last, hleft.single⟩⟩
  · exact .inr ⟨_, (absLoop_last_name hp _).1, hself⟩

/-- Names after two dots are left as they are. -/
theorem absLoop_dotDot_names {names : List Text} (hne : names ≠ []) (h : ∀ p ∈ names, IsName p) :
    absLoop names.length (dotDot :: names) (-1) = some (dotDot :: names) := by
  obtain ⟨a, last, rfl⟩ := (List.eq_nil_or_concat names).resolve_left hne
  rw [List.concat_eq_append] at h ⊢
  exact (absLoop_last_name (h last (by simp)) _).1

/-- Two dots that climb, in front of what is left. -/
theorem absLoop_of_climb {stack before after : List Text} (h : reduce stack before = some []) :
    absLoop (before ++ dotDot :: after).length (stack.reverse ++ (before ++ dotDot :: after))
        stack.length =
      if after = [] then some [] else absLoop after.length (dotDot :: after) (-1) := by
  have hlen : (before ++ dotDot :: after).length = before.length + (after.length + 1) := by
    rw [List.length_append, List.length_cons]
  rw [hlen, absLoop_reduce h]
  split
  · rename_i hnil
    rw [hnil]
    rfl
  · rename_i hne
    exact absLoop_zero_dotDot hne

/-- What the loop makes of components from the first one on. -/
theorem absLoop_fresh (parts : List Text) : absLoop parts.length parts 0 = none ∨
    ∃ r, absLoop parts.length parts 0 = some r ∧ PosixPath.weight r ≤ PosixPath.weight parts ∧
      ∀ p ∈ r.head?, p = dotDot ∨ IsName p := by
  cases h : reduce [] parts with
  | some s =>
    have hnames := names_of_reduce (List.forall_mem_nil _) h
    refine .inr ⟨s.reverse, absLoop_of_reduce h, ?_, fun p hp => ?_⟩
    · rewrite [weight_of_reduce h, weight_reverse, weight_names hnames]
      exact Int.le_refl _
    · exact .inr (hnames p (List.mem_reverse.mp (List.mem_of_mem_head? hp)))
  | none =>
    obtain ⟨before, after, rfl, hbefore⟩ := exists_climb h
    have hrun := @absLoop_of_climb [] before after hbefore
    rw [List.reverse_nil, List.nil_append, List.length_nil] at hrun
    have hzero := weight_of_reduce hbefore
    have hw :
        PosixPath.weight (before ++ dotDot :: after) = PosixPath.weight (dotDot :: after) := by
      rw [weight_append, hzero, List.length_nil]
      omega
    rw [show ((0 : ℕ) : ℤ) = 0 from rfl] at hrun
    rw [hrun, hw]
    split
    · rename_i hnil
      subst hnil
      exact .inr ⟨[], rfl, by decide, nofun⟩
    · rename_i hne
      refine (absLoop_climb hne).imp_right fun ⟨r, hr, hleft⟩ => ⟨r, hr, hleft.weight, ?_⟩
      intro p hp
      rw [hleft.head] at hp
      exact .inl (Option.some.inj hp).symm

/-- A component and names after it are left as they are. -/
theorem absLoop_first_names (first : Text) {names : List Text} (h : ∀ p ∈ names, IsName p) :
    absLoop names.length (first :: names) 1 = some (first :: names) := by
  have hrun := @absLoop_of_reduce [first] names _ (reduce_names h)
  rw [List.reverse_append, List.reverse_reverse] at hrun
  exact hrun

/-- Nothing is added to the components. -/
theorem subset_of_absLoop {l r : List Text} {ix : ℤ} (h : absLoop k l ix = some r) : r ⊆ l := by
  have hdel : ∀ (l : List Text) (i e : ℤ), pyDel l i e ⊆ l := by
    intro l i e p hp
    rw [pyDel, List.mem_append] at hp
    exact hp.elim List.mem_of_mem_take List.mem_of_mem_drop
  induction k generalizing l ix with
  | zero =>
    rw [absLoop] at h
    cases h
    exact fun p hp => hp
  | succ k ih =>
    cases hp : pyIndex? l ix with
    | none =>
      rw [absLoop, hp] at h
      cases h
    | some part =>
      rcases part_cases part with hpart | rfl | hpart
      · rw [absLoop_step_blank hp hpart] at h
        exact List.Subset.trans (ih h) (hdel _ _ _)
      · rw [absLoop_step_dotDot hp] at h
        exact List.Subset.trans (ih h) (hdel _ _ _)
      · rw [absLoop_step_name hp hpart] at h
        exact ih h

end

end Survol.Dockit
