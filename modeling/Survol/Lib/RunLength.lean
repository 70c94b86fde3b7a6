import Mathlib.Data.List.Forall2
import Mathlib.Data.List.Chain
import Mathlib.Data.List.Nodup
import Mathlib.Data.List.Induction
import Mathlib.Algebra.BigOperators.Group.List.Basic
import Mathlib.Algebra.Ring.Nat

/-!
# Counting runs with shared counters

Objects are sent one after the other. An object that is the same as the last kept one adds one to
the counter of that one, and any other object is kept. The relation "the same" is an arbitrary test
of two objects: it may be neither reflexive nor symmetric. The counters belong to the objects, not
to the places of a list.

## Main definitions

* `Counted` — the kept objects, and the counters.
* `Counted.add`, `Counted.addAll` — what becomes of one object, and of a sequence.
* `Counted.expansion` — each kept object as often as it is counted.

## Main results

* `Counts.add`, `counts_addAll` — the kept objects stand for the sent ones.
-/

namespace RunLength

/-- The kept objects, and the counters of all objects. -/
structure Counted (ι : Type) where
  kept : List ι
  count : ι → ℕ

namespace Counted

variable {ι : Type}

/-- An object is kept. -/
def keep (s : Counted ι) (i : ι) : Counted ι := { s with kept := s.kept ++ [i] }

/-- Each kept object as often as it is counted. -/
def expansion (s : Counted ι) : List ι := s.kept.flatMap fun i => List.replicate (s.count i) i

theorem expansion_keep (s : Counted ι) (b : ι) :
    (s.keep b).expansion = s.expansion ++ List.replicate (s.count b) b := by
  simp [expansion, keep, List.flatMap_append]

theorem length_expansion (s : Counted ι) : s.expansion.length = (s.kept.map s.count).sum := by
  simp [expansion, List.length_flatMap]

variable [DecidableEq ι]

/-- One is added to the counter of an object. -/
def bump (s : Counted ι) (i : ι) : Counted ι :=
  { s with count := Function.update s.count i (s.count i + 1) }

@[simp] theorem count_bump_self (s : Counted ι) (i : ι) : (s.bump i).count i = s.count i + 1 :=
  Function.update_self ..

theorem count_bump_of_ne (s : Counted ι) {i j : ι} (h : j ≠ i) :
    (s.bump i).count j = s.count j := Function.update_of_ne h ..

/-- An object is counted into the last one, or kept. -/
def add (same : ι → ι → Bool) (s : Counted ι) (b : ι) : Counted ι :=
  match s.kept.getLast? with
  | none => s.keep b
  | some lst => if same lst b then s.bump lst else s.keep b

/-- The objects of a sequence are added, from no kept object on. -/
def addAll (same : ι → ι → Bool) (count : ι → ℕ) (sent : List ι) : Counted ι :=
  sent.foldl (add same) ⟨[], count⟩

theorem addAll_append_singleton (same : ι → ι → Bool) (count : ι → ℕ) (sent : List ι) (b : ι) :
    addAll same count (sent ++ [b]) = (addAll same count sent).add same b := by
  rw [addAll, List.foldl_append]
  rfl

/-- What becomes of an object: it is counted into the last one, which it is the same as, or it is
kept after one that it is not the same as. -/
theorem add_cases (same : ι → ι → Bool) (s : Counted ι) (b : ι) :
    (∃ t lst, s.kept = t ++ [lst] ∧ same lst b = true ∧ s.add same b = s.bump lst) ∨
      ((∀ lst ∈ s.kept.getLast?, same lst b = false) ∧ s.add same b = s.keep b) := by
  rw [add]
  split
  · rename_i hnone
    right
    rw [hnone]
    exact ⟨fun _ h => absurd h (Option.not_mem_none _), rfl⟩
  · rename_i lst hlst
    split
    · rename_i hsame
      obtain ⟨t, ht⟩ := List.getLast?_eq_some_iff.mp hlst
      exact .inl ⟨t, lst, ht, hsame, rfl⟩
    · rename_i hsame
      refine .inr ⟨fun l hl => ?_, rfl⟩
      cases hlst.symm.trans hl
      exact Bool.not_eq_true _ ▸ hsame

/-- A counter is changed: only the places of its object change. -/
theorem expansion_bump {s : Counted ι} {t : List ι} {lst : ι} (hkept : s.kept = t ++ [lst])
    (hlst : lst ∉ t) : (s.bump lst).expansion = s.expansion ++ [lst] := by
  have ht : t.flatMap (fun i => List.replicate ((s.bump lst).count i) i) =
      t.flatMap fun i => List.replicate (s.count i) i := by
    refine List.flatMap_congr fun i hi => ?_
    have hne : i ≠ lst := fun h => hlst (h ▸ hi)
    rw [count_bump_of_ne s hne]
  have hkept' : (s.bump lst).kept = t ++ [lst] := hkept
  rw [expansion, expansion, hkept', hkept, List.flatMap_append, List.flatMap_append, ht,
    List.flatMap_singleton, List.flatMap_singleton, count_bump_self, List.replicate_succ',
    List.append_assoc]

end Counted

/-! ## What the kept objects stand for -/

section
variable {ι : Type} {same : ι → ι → Bool} {count : ι → ℕ}

/-- The kept objects stand for the sent ones, and an object that is not kept has its own count. -/
structure Counts (same : ι → ι → Bool) (count : ι → ℕ) (sent : List ι) (s : Counted ι) : Prop where
  expansion : List.Forall₂ (fun k b => b = k ∨ same k b = true) s.expansion sent
  sublist : s.kept.Sublist sent
  count : ∀ i ∉ s.kept, s.count i = count i

/-- The counters of the kept objects sum up to the number of sent ones. -/
theorem Counts.sum {sent : List ι} {s : Counted ι} (h : Counts same count sent s) :
    (s.kept.map s.count).sum = sent.length := by
  rw [← Counted.length_expansion, h.expansion.length_eq]

variable [DecidableEq ι]

/-- A new object, that is counted once, is added. -/
theorem Counts.add {sent : List ι} {s : Counted ι} {b : ι} (h : Counts same count sent s)
    (hnodup : sent.Nodup) (hb : b ∉ sent) (hone : count b = 1) :
    Counts same count (sent ++ [b]) (s.add same b) := by
  obtain ⟨t, lst, hkept, hsame, hadd⟩ | ⟨-, hadd⟩ := s.add_cases same b
  · have hlst : lst ∉ t := by
      have hk := h.sublist.nodup hnodup
      rw [hkept, ← List.concat_eq_append, List.nodup_concat] at hk
      exact hk.1
    rw [hadd]
    refine ⟨?_, h.sublist.trans (List.sublist_append_left sent [b]), fun i hi => ?_⟩
    · rw [Counted.expansion_bump hkept hlst]
      exact List.rel_append h.expansion (.cons (.inr hsame) .nil)
    · have hne : i ≠ lst := by
        rintro rfl
        exact hi (hkept ▸ List.mem_append_right t (List.mem_singleton_self i))
      rw [Counted.count_bump_of_ne s hne]
      exact h.count i hi
  · rw [hadd]
    refine ⟨?_, h.sublist.append (List.Sublist.refl [b]), fun i hi => ?_⟩
    · have hcount : s.count b = 1 := (h.count b fun hmem => hb (h.sublist.subset hmem)).trans hone
      rw [Counted.expansion_keep, hcount]
      exact List.rel_append h.expansion (.cons (.inl rfl) .nil)
    · exact h.count i fun hmem => hi (List.mem_append_left [b] hmem)

/-- **Distinct objects that are each counted once are counted into the kept ones.** -/
theorem counts_addAll {sent : List ι} (hnodup : sent.Nodup) (hone : ∀ b ∈ sent, count b = 1) :
    Counts same count sent (Counted.addAll same count sent) := by
  induction sent using List.reverseRecOn with
  | nil => exact ⟨.nil, .slnil, fun _ _ => rfl⟩
  | append_singleton sent b ih =>
    rw [← List.concat_eq_append, List.nodup_concat] at hnodup
    obtain ⟨hb, hsent⟩ := hnodup
    have hcounts := ih hsent fun c hc => hone c (List.mem_append_left [b] hc)
    rw [Counted.addAll_append_singleton]
    exact hcounts.add hsent hb (hone b (List.mem_append_right sent (List.mem_singleton_self b)))

/-- A kept object is not the same as the one before it. -/
theorem isChain_addAll (sent : List ι) :
    (Counted.addAll same count sent).kept.IsChain fun k b => same k b = false := by
  induction sent using List.reverseRecOn with
  | nil => exact .nil
  | append_singleton sent b ih =>
    rw [Counted.addAll_append_singleton]
    obtain ⟨t, lst, -, -, hadd⟩ | ⟨hlast, hadd⟩ := Counted.add_cases same
      (Counted.addAll same count sent) b
    · rw [hadd]
      exact ih
    · rw [hadd, Counted.keep, List.isChain_append]
      refine ⟨ih, .singleton b, fun k hk c hc => ?_⟩
      cases hc
      exact hlast k hk

end

end RunLength
