import Mathlib.Logic.Relation
import Mathlib.Data.List.Nodup

/-!
# Chains

A list is chained by linking each element to the next one. The links are one fewer than the
elements, and they connect all of them.

## Main definitions

* `Chain.links l` — the links of a list.

## Main results

* `Chain.connected` — the links connect the elements.
-/

namespace Chain

variable {κ : Type} {l : List κ} {x y : κ}

/-- Each element with the next one. -/
def links : List κ → List (κ × κ)
  | [] => []
  | [_] => []
  | x :: y :: l => (x, y) :: links (y :: l)

theorem length_links (l : List κ) : (links l).length = l.length - 1 := by
  induction l using links.induct with
  | case1 => rfl
  | case2 => rfl
  | case3 x y l ih =>
    rw [links, List.length_cons, ih]
    simp

theorem mem_of_mem_links (h : (x, y) ∈ links l) : x ∈ l ∧ y ∈ l := by
  induction l using links.induct with
  | case1 => cases h
  | case2 => cases h
  | case3 a b l ih =>
    rw [links, List.mem_cons] at h
    obtain h | h := h
    · cases h
      exact ⟨List.mem_cons_self, List.mem_cons_of_mem x List.mem_cons_self⟩
    · obtain ⟨hx, hy⟩ := ih h
      exact ⟨List.mem_cons_of_mem a hx, List.mem_cons_of_mem a hy⟩

theorem nodup_links (h : l.Nodup) : (links l).Nodup := by
  induction l using links.induct with
  | case1 => exact List.nodup_nil
  | case2 => exact List.nodup_nil
  | case3 a b l ih =>
    obtain ⟨ha, hl⟩ := List.nodup_cons.mp h
    rw [links, List.nodup_cons]
    exact ⟨fun hm => ha (mem_of_mem_links hm).1, ih hl⟩

/-- An element is not linked to itself. -/
theorem ne_of_mem_links (h : l.Nodup) (hxy : (x, y) ∈ links l) : x ≠ y := by
  induction l using links.induct with
  | case1 => cases hxy
  | case2 => cases hxy
  | case3 a b l ih =>
    obtain ⟨ha, hl⟩ := List.nodup_cons.mp h
    rw [links, List.mem_cons] at hxy
    obtain hxy | hxy := hxy
    · cases hxy
      rintro rfl
      exact ha List.mem_cons_self
    · exact ih hl hxy

/-- The first element is connected to every other. -/
theorem connected_head (h : y ∈ x :: l) :
    Relation.EqvGen (fun a b => (a, b) ∈ links (x :: l)) x y := by
  induction l generalizing x with
  | nil =>
    rw [List.mem_singleton] at h
    rw [h]
    exact .refl x
  | cons b l ih =>
    obtain rfl | h := List.mem_cons.mp h
    · exact .refl y
    · have hfirst : (x, b) ∈ links (x :: b :: l) := List.mem_cons_self
      have hrest := (ih h).mono fun _ _ hm => List.mem_cons_of_mem (x, b) hm
      exact .trans x b y (.rel x b hfirst) hrest

/-- **The links connect the elements.** -/
theorem connected (hx : x ∈ l) (hy : y ∈ l) :
    Relation.EqvGen (fun a b => (a, b) ∈ links l) x y := by
  cases l with
  | nil => cases hx
  | cons a l => exact .trans x a y (.symm a x (connected_head hx)) (connected_head hy)

end Chain
