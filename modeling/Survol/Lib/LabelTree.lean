import Mathlib.Data.List.Chain
import Mathlib.Data.List.Nodup

/-!
# Trees of labels, and the graphs of their edges

A tree whose nodes are labelled is given by the paths of labels from its root. When it is kept
as the set of its edges between labels only, it can be recovered by walking from the root exactly
if different nodes have different labels, provided that below each node there is one with a label
of its own.

## Main definitions

* `IsPaths paths` — the paths of a tree below its root.
* `Edge r paths` — the edges between the labels of the tree.

## Main results

* `IsPaths.mem_of_isChain` — with different labels, every walk is a path of the tree.
* `IsPaths.isChain_of_mem` — every path of the tree is a walk.
* `Edge.unique` — with different labels, a label is reached by one edge.
* `IsPaths.nodup_of_isChain` — if every walk is a path, then the labels are different.
-/

namespace LabelTree

variable {N : Type}

/-- An edge between the labels of a tree with the given paths below its root. -/
def Edge (r : N) (paths : List (List N)) (a b : N) : Prop :=
  ∃ c, c ++ [b] ∈ paths ∧ (r :: c).getLast? = some a

/-- The paths of a tree: the parent of a node is the root, or has its path. -/
structure IsPaths (paths : List (List N)) : Prop where
  ne_nil : [] ∉ paths
  parent : ∀ c b, c ++ [b] ∈ paths → c = [] ∨ c ∈ paths

theorem getLast?_cons_of_ne_nil {r : N} {c : List N} (h : c ≠ []) :
    (r :: c).getLast? = c.getLast? := by
  obtain ⟨b, c, rfl⟩ := List.exists_cons_of_ne_nil h
  rfl

/-! ## Edges of a part of a tree -/

theorem edge_append {r : N} {paths paths' : List (List N)} {a b : N} :
    Edge r (paths ++ paths') a b ↔ Edge r paths a b ∨ Edge r paths' a b := by
  simp only [Edge, List.mem_append, or_and_right, exists_or]

theorem edge_nil {r a b : N} : ¬ Edge r [] a b := by
  rintro ⟨c, hc, -⟩
  cases hc

/-- The edges of a node with its sub-tree. -/
theorem edge_cons_map {r t a b : N} {paths : List (List N)} (h : [] ∉ paths) :
    Edge r ([t] :: paths.map (t :: ·)) a b ↔ (a = r ∧ b = t) ∨ Edge t paths a b := by
  constructor
  · rintro ⟨c, hc, hlast⟩
    rcases List.mem_cons.mp hc with hc | hc
    · cases c with
      | nil =>
        left
        simp only [List.nil_append, List.cons.injEq, and_true] at hc
        simp only [List.getLast?_singleton, Option.some.injEq] at hlast
        exact ⟨hlast.symm, hc⟩
      | cons x c => simp at hc
    · obtain ⟨p, hp, heq⟩ := List.mem_map.mp hc
      right
      cases c with
      | nil =>
        simp only [List.nil_append, List.cons.injEq] at heq
        exact absurd (heq.2 ▸ hp) h
      | cons x c =>
        simp only [List.cons_append, List.cons.injEq] at heq
        obtain ⟨rfl, rfl⟩ := heq
        exact ⟨c, hp, by rwa [getLast?_cons_of_ne_nil (by simp)] at hlast⟩
  · rintro (⟨rfl, rfl⟩ | ⟨c, hc, hlast⟩)
    · exact ⟨[], by simp, rfl⟩
    · refine ⟨t :: c, List.mem_cons_of_mem _ (List.mem_map.mpr ⟨_, hc, rfl⟩), ?_⟩
      rwa [getLast?_cons_of_ne_nil (by simp)]

/-- The edges of a leaf. -/
theorem edge_cons_singleton {r t a b : N} {paths : List (List N)} :
    Edge r ([t] :: paths) a b ↔ (a = r ∧ b = t) ∨ Edge r paths a b := by
  have hleaf := edge_cons_map (r := r) (t := t) (a := a) (b := b) List.not_mem_nil
  rw [List.map_nil] at hleaf
  rw [← List.singleton_append, edge_append, hleaf]
  simp [edge_nil]

theorem exists_edge_iff {r : N} {paths : List (List N)} {b : N} :
    (∃ a, Edge r paths a b) ↔ ∃ c ∈ paths, c.getLast? = some b := by
  constructor
  · rintro ⟨a, c, hc, -⟩
    exact ⟨_, hc, by simp⟩
  · rintro ⟨c, hc, hlast⟩
    obtain ⟨c, rfl⟩ := List.getLast?_eq_some_iff.mp hlast
    exact ⟨_, c, hc, List.getLast?_cons⟩

/-- With different labels, a label is reached by one edge. -/
theorem Edge.unique {r : N} {paths : List (List N)} (hnodup : (paths.map List.getLast?).Nodup)
    {a a' b : N} (hab : Edge r paths a b) (hab' : Edge r paths a' b) : a = a' := by
  obtain ⟨c, hc, hlast⟩ := hab
  obtain ⟨c', hc', hlast'⟩ := hab'
  have heq := List.inj_on_of_nodup_map hnodup hc hc' (by simp)
  rw [List.append_cancel_right heq] at hlast
  exact Option.some.inj (hlast.symm.trans hlast')

theorem edge_flatMap {M : Type} {r : N} {l : List M} {f : M → List (List N)} {a b : N} :
    Edge r (l.flatMap f) a b ↔ ∃ x ∈ l, Edge r (f x) a b := by
  simp only [Edge, List.mem_flatMap]
  constructor
  · rintro ⟨c, ⟨x, hx, hc⟩, hlast⟩
    exact ⟨x, hx, c, hc, hlast⟩
  · rintro ⟨x, hx, c, hc, hlast⟩
    exact ⟨c, ⟨x, hx, hc⟩, hlast⟩

/-- Two relations have the same walks if they agree on what a walk meets. -/
theorem isChain_congr_of_meets {R E : N → N → Prop} {P : N → Prop}
    (hRE : ∀ a b, P a → (R a b ↔ E a b)) (hE : ∀ a b, E a b → P b) {a : N} (ha : P a)
    (w : List N) : List.IsChain R (a :: w) ↔ List.IsChain E (a :: w) := by
  induction w generalizing a with
  | nil => simp
  | cons b w ih =>
    rw [List.isChain_cons_cons, List.isChain_cons_cons, hRE a b ha]
    exact and_congr_right fun hab => ih (hE a b hab)

/-! ## Paths of a part of a tree -/

namespace IsPaths

theorem nil : IsPaths ([] : List (List N)) where
  ne_nil := by simp
  parent := by simp

theorem append {paths paths' : List (List N)} (h : IsPaths paths) (h' : IsPaths paths') :
    IsPaths (paths ++ paths') where
  ne_nil := by
    simp [h.ne_nil, h'.ne_nil]
  parent := by
    intro c b hc
    rw [List.mem_append]
    rcases List.mem_append.mp hc with hc | hc
    · rcases h.parent c b hc with hnil | hmem
      · exact .inl hnil
      · exact .inr (.inl hmem)
    · rcases h'.parent c b hc with hnil | hmem
      · exact .inl hnil
      · exact .inr (.inr hmem)

theorem flatMap {M : Type} {l : List M} {f : M → List (List N)} (h : ∀ x ∈ l, IsPaths (f x)) :
    IsPaths (l.flatMap f) := by
  induction l with
  | nil => exact nil
  | cons x l ih =>
    rw [List.flatMap_cons]
    exact (h x List.mem_cons_self).append (ih fun y hy => h y (List.mem_cons_of_mem _ hy))

/-- A node with its sub-tree. -/
theorem cons_map {t : N} {paths : List (List N)} (h : IsPaths paths) :
    IsPaths ([t] :: paths.map (t :: ·)) where
  ne_nil := by simp
  parent := by
    intro c b hc
    rcases List.mem_cons.mp hc with hc | hc
    · cases c with
      | nil => exact .inl rfl
      | cons x c => simp at hc
    · obtain ⟨p, hp, heq⟩ := List.mem_map.mp hc
      cases c with
      | nil => exact .inl rfl
      | cons x c =>
        simp only [List.cons_append, List.cons.injEq] at heq
        obtain ⟨rfl, rfl⟩ := heq
        rcases h.parent c b hp with rfl | hmem
        · exact .inr List.mem_cons_self
        · exact .inr (List.mem_cons_of_mem _ (List.mem_map.mpr ⟨c, hmem, rfl⟩))

end IsPaths

/-! ## Walks and paths -/

namespace IsPaths

variable {r : N} {paths : List (List N)} (h : IsPaths paths)

include h

/-- Every path of the tree is a walk. -/
theorem isChain_of_mem {c : List N} (hc : c ∈ paths) : List.IsChain (Edge r paths) (r :: c) := by
  induction c using List.reverseRecOn with
  | nil => exact absurd hc h.ne_nil
  | append_singleton c b ih =>
    rw [← List.cons_append, List.isChain_append]
    refine ⟨?_, List.isChain_singleton b, ?_⟩
    · rcases h.parent c b hc with rfl | hc'
      · exact List.isChain_singleton r
      · exact ih hc'
    · intro a ha b' hb'
      obtain rfl : b = b' := by simpa using hb'
      exact ⟨c, hc, ha⟩

theorem eq_root_or_of_edge {a b : N} (hab : Edge r paths a b) :
    a = r ∨ ∃ c ∈ paths, c.getLast? = some a := by
  obtain ⟨c, hc, hlast⟩ := hab
  rcases h.parent c b hc with rfl | hmem
  · exact .inl (Option.some.inj hlast).symm
  · right
    refine ⟨c, hmem, ?_⟩
    rwa [getLast?_cons_of_ne_nil fun hnil => h.ne_nil (hnil ▸ hmem)] at hlast

theorem exists_edge_root (hne : paths ≠ []) : ∃ b, Edge r paths r b := by
  obtain ⟨c, hc⟩ := List.exists_mem_of_ne_nil paths hne
  have hchain := h.isChain_of_mem (r := r) hc
  cases c with
  | nil => exact absurd hc h.ne_nil
  | cons b c => exact ⟨b, (List.isChain_cons_cons.mp hchain).1⟩

/-- With different labels, every walk is a path of the tree. -/
theorem mem_of_isChain (hnodup : (paths.map List.getLast?).Nodup)
    (hroot : ∀ c ∈ paths, c.getLast? ≠ some r) {w : List N} (hne : w ≠ [])
    (hw : List.IsChain (Edge r paths) (r :: w)) : w ∈ paths := by
  induction w using List.reverseRecOn with
  | nil => exact absurd rfl hne
  | append_singleton w b ih =>
    rw [← List.cons_append, List.isChain_append] at hw
    obtain ⟨hw, -, hedge⟩ := hw
    obtain ⟨a, ha⟩ : ∃ a, (r :: w).getLast? = some a := ⟨_, List.getLast?_cons⟩
    obtain ⟨c, hc, hlast⟩ := hedge a ha b (by simp)
    have hinj := List.inj_on_of_nodup_map hnodup
    by_cases hcn : c = []
    · subst hcn
      have hra : r = a := by simpa using hlast
      by_cases hwn : w = []
      · subst hwn
        exact hc
      · rw [getLast?_cons_of_ne_nil hwn, ← hra] at ha
        exact absurd ha (hroot w (ih hwn hw))
    · have hcmem := (h.parent c b hc).resolve_left hcn
      rw [getLast?_cons_of_ne_nil hcn] at hlast
      by_cases hwn : w = []
      · subst hwn
        have hra : r = a := by simpa using ha
        rw [← hra] at hlast
        exact absurd hlast (hroot c hcmem)
      · rw [getLast?_cons_of_ne_nil hwn] at ha
        obtain rfl : c = w := hinj hcmem (ih hwn hw) (hlast.trans ha.symm)
        exact hc

/-- With different labels, the walks are the paths of the tree. -/
theorem isChain_iff (hnodup : (paths.map List.getLast?).Nodup)
    (hroot : ∀ c ∈ paths, c.getLast? ≠ some r) {w : List N} (hne : w ≠ []) :
    List.IsChain (Edge r paths) (r :: w) ↔ w ∈ paths :=
  ⟨h.mem_of_isChain hnodup hroot hne, h.isChain_of_mem⟩

/-- If every walk is a path, and below each node there is one with a label of its own, then the
labels are different. -/
theorem nodup_of_isChain (hnodup : paths.Nodup)
    (hwalk : ∀ w, w ≠ [] → List.IsChain (Edge r paths) (r :: w) → w ∈ paths)
    (hleaf : ∀ c ∈ paths, ∃ l, c ++ l ∈ paths ∧
      ∀ c' ∈ paths, c'.getLast? = (c ++ l).getLast? → c' = c ++ l) :
    (paths.map List.getLast?).Nodup := by
  refine hnodup.map_on fun c hc c' hc' hlast => ?_
  obtain ⟨l, hl, hown⟩ := hleaf c hc
  have hne {x : List N} (hx : x ∈ paths) : x ≠ [] := fun hnil => h.ne_nil (hnil ▸ hx)
  have hcons {x : List N} (hx : x ∈ paths) : (r :: x).getLast? = x.getLast? :=
    getLast?_cons_of_ne_nil (hne hx)
  have hpath := h.isChain_of_mem (r := r) hl
  have hpath' := h.isChain_of_mem (r := r) hc'
  rw [← List.cons_append, List.isChain_append] at hpath
  have hchain : List.IsChain (Edge r paths) (r :: (c' ++ l)) := by
    rw [← List.cons_append, List.isChain_append]
    refine ⟨hpath', hpath.2.1, ?_⟩
    rw [hcons hc', ← hlast, ← hcons hc]
    exact hpath.2.2
  have hmem := hwalk (c' ++ l) (by simp [hne hc']) hchain
  have heq := hown _ hmem (by
    rw [List.getLast?_append, List.getLast?_append, hlast])
  exact (List.append_cancel_right heq).symm

end IsPaths

end LabelTree
