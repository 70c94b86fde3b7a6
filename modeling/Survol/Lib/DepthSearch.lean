import Mathlib.Data.List.Chain
import Mathlib.Data.List.Nodup
import Mathlib.Logic.Relation

/-!
# Searches with a bound on the depth

A search of a graph from a node goes down a bounded number of levels. It can also leave a node as
soon as it was visited. Then each node is visited once, but one that was first met at the last level
is not searched when it is met again above it. Both searches agree when the bound is never met.

## Main definitions

* `plain` — the edges below a node, in a number of levels.
* `search` — the same, where each node is visited once.
* `Bounded` — no walk without a repeated node, but maybe its last one, has more levels.

## Main results

* `mem_plain_of_mem_search` — the search meets edges of the plain one only.
* `mem_search_iff` — with the bound, it meets all the edges that are reachable.
-/

namespace DepthSearch

/-- A fold keeps what it starts with, and each of its steps. -/
theorem foldl_rule {α β : Type} {P : List α → β → Prop} {f : β → α → β} {b : β} (l : List α)
    (hnil : P [] b) (hstep : ∀ done a b, a ∈ l → P done b → P (done ++ [a]) (f b a)) :
    P l (l.foldl f b) := by
  induction l using List.reverseRecOn with
  | nil => exact hnil
  | append_singleton l a ih =>
    rw [List.foldl_append]
    exact hstep l a _ (by simp) (ih fun done a' b' ha' => hstep done a' b'
      (List.mem_append_left _ ha'))

variable {N : Type} (deps : N → List N)

/-- The edges below a node, in at most `n` levels. -/
def plain : ℕ → N → List (N × N)
  | 0, _ => []
  | n + 1, a => (deps a).flatMap fun b => plain n b ++ [(a, b)]

/-- The nodes that were visited, and the edges. -/
structure State (N : Type) where
  visited : List N
  edges : List (N × N)

/-- Search below a node, and add the edge to it. -/
def follow (f : N → State N → State N) (a : N) (s : State N) (b : N) : State N :=
  ⟨(f b s).visited, (f b s).edges ++ [(a, b)]⟩

/-- The edges below a node, in at most `n` levels, if it was not visited. -/
def search [DecidableEq N] : ℕ → N → State N → State N
  | 0, a, s => if a ∈ s.visited then s else ⟨a :: s.visited, s.edges⟩
  | n + 1, a, s =>
    if a ∈ s.visited then s
    else (deps a).foldl (follow (search n) a) ⟨a :: s.visited, s.edges⟩

/-- No walk from the root has more than `n` edges, if it does not go on after a repeated node. -/
def Bounded (root : N) (n : ℕ) : Prop :=
  ∀ w, List.IsChain (fun a b => b ∈ deps a) (root :: w) → (root :: w).dropLast.Nodup →
    w.length ≤ n

variable {deps}

/-! ## Soundness -/

/-- The plain search meets edges that are reachable. -/
theorem reachable_of_mem_plain {n : ℕ} {a x y : N} (h : (x, y) ∈ plain deps n a) :
    Relation.ReflTransGen (fun a b => b ∈ deps a) a x ∧ y ∈ deps x := by
  induction n generalizing a with
  | zero => cases h
  | succ n ih =>
    obtain ⟨b, hb, hmem⟩ := List.mem_flatMap.mp h
    rcases List.mem_append.mp hmem with hmem | hmem
    · obtain ⟨hreach, hy⟩ := ih hmem
      exact ⟨.head hb hreach, hy⟩
    · obtain ⟨rfl, rfl⟩ := Prod.mk.inj (List.mem_singleton.mp hmem)
      exact ⟨.refl, hb⟩

variable [DecidableEq N]

/-- A node that was visited is left as it is, at any level. -/
theorem search_of_visited {a : N} {s : State N} (h : a ∈ s.visited) (n : ℕ) :
    search deps n a s = s := by
  cases n <;> rw [search, if_pos h]

/-- The search meets edges of the plain one only. -/
theorem mem_plain_of_mem_search {n : ℕ} {a : N} {s : State N} {t : N × N}
    (h : t ∈ (search deps n a s).edges) : t ∈ s.edges ∨ t ∈ plain deps n a := by
  induction n generalizing a s t with
  | zero =>
    rw [search] at h
    split at h <;> exact .inl h
  | succ n ih =>
    by_cases ha : a ∈ s.visited
    · rw [search_of_visited ha] at h
      exact .inl h
    · rw [search, if_neg ha] at h
      have hfold := foldl_rule (f := follow (search deps n) a)
        (P := fun _ (s' : State N) => ∀ u ∈ s'.edges, u ∈ s.edges ∨ u ∈ plain deps (n + 1) a)
        (b := ⟨a :: s.visited, s.edges⟩) (deps a) (fun _ => .inl) fun _ b s' hb hs' u hu => by
          rcases List.mem_append.mp hu with hu | hu
          · refine (ih hu).elim (hs' u) fun hplain => .inr ?_
            exact List.mem_flatMap.mpr ⟨b, hb, List.mem_append_left _ hplain⟩
          · exact .inr (List.mem_flatMap.mpr ⟨b, hb, List.mem_append_right _ hu⟩)
      exact hfold t h

/-! ## Completeness -/

/-- What a search keeps, and what it does of the nodes that it visits. -/
structure Searched (deps : N → List N) (s s' : State N) : Prop where
  visited : ∀ x ∈ s.visited, x ∈ s'.visited
  edges : ∀ t ∈ s.edges, t ∈ s'.edges
  closed : ∀ x ∈ s'.visited, x ∈ s.visited ∨ ∀ y ∈ deps x, y ∈ s'.visited ∧ (x, y) ∈ s'.edges

omit [DecidableEq N] in
theorem Searched.refl (s : State N) : Searched deps s s where
  visited _ := id
  edges _ := id
  closed _ := .inl

/-- The search from a node, below a path from the root whose nodes were visited. -/
theorem search_searched {root : N} {m : ℕ}
    (hbound : ∀ b σ, List.IsChain (fun y x => y ∈ deps x) (b :: σ) → σ.Nodup →
      (b :: σ).getLast? = some root → σ.length ≤ m)
    {n : ℕ} {a : N} {τ : List N} {s : State N} (hn : τ.length + n = m)
    (hchain : List.IsChain (fun y x => y ∈ deps x) (a :: τ)) (hnodup : τ.Nodup)
    (hlast : (a :: τ).getLast? = some root) (hτ : ∀ x ∈ τ, x ∈ s.visited) :
    Searched deps s (search deps n a s) ∧ a ∈ (search deps n a s).visited := by
  induction n generalizing a τ s with
  | zero =>
    by_cases ha : a ∈ s.visited
    · rw [search_of_visited ha]
      exact ⟨.refl s, ha⟩
    · rw [search, if_neg ha]
      refine ⟨⟨fun _ => List.mem_cons_of_mem a, fun _ => id, fun x hx => ?_⟩, List.mem_cons_self⟩
      rcases List.mem_cons.mp hx with rfl | hx
      · -- an edge from here would make a walk that is too long
        refine .inr fun y hy => ?_
        have hlong := hbound y (x :: τ) (List.isChain_cons_cons.mpr ⟨hy, hchain⟩)
          (List.nodup_cons.mpr ⟨fun hx => ha (hτ x hx), hnodup⟩) (by simpa using hlast)
        rw [List.length_cons] at hlong
        omega
      · exact .inl hx
  | succ n ih =>
    by_cases ha : a ∈ s.visited
    · rw [search_of_visited ha]
      exact ⟨.refl s, ha⟩
    · rw [search, if_neg ha]
      have hfold := foldl_rule (P := fun done s' =>
        Searched deps ⟨a :: s.visited, s.edges⟩ s' ∧
          ∀ y ∈ done, y ∈ s'.visited ∧ (a, y) ∈ s'.edges)
        (f := follow (search deps n) a) (deps a)
        ⟨.refl _, by simp⟩ ?_
      · obtain ⟨hs, hdone⟩ := hfold
        refine ⟨⟨fun x hx => hs.visited x (List.mem_cons_of_mem a hx), hs.edges, fun x hx => ?_⟩,
          hs.visited a List.mem_cons_self⟩
        rcases hs.closed x hx with hmem | hclosed
        · rcases List.mem_cons.mp hmem with rfl | hmem
          · exact .inr hdone
          · exact .inl hmem
        · exact .inr hclosed
      · rintro done b s' hb ⟨hs, hdone⟩
        obtain ⟨hs', hb'⟩ := @ih b (a :: τ) s' (by rw [List.length_cons]; omega)
          (List.isChain_cons_cons.mpr ⟨hb, hchain⟩)
          (List.nodup_cons.mpr ⟨fun hmem => ha (hτ a hmem), hnodup⟩) (by simpa using hlast)
          fun x hx => hs.visited x <| (List.mem_cons.mp hx).elim
            (fun heq => heq ▸ List.mem_cons_self) fun hmem => List.mem_cons_of_mem a (hτ x hmem)
        refine ⟨⟨fun x hx => hs'.visited x (hs.visited x hx),
          fun t ht => List.mem_append_left _ (hs'.edges t (hs.edges t ht)), fun x hx => ?_⟩,
          fun y hy => ?_⟩
        · rcases hs'.closed x hx with hmem | hclosed
          · exact (hs.closed x hmem).imp id fun hclosed y hy =>
              ⟨hs'.visited y (hclosed y hy).1,
                List.mem_append_left _ (hs'.edges _ (hclosed y hy).2)⟩
          · exact .inr fun y hy => ⟨(hclosed y hy).1, List.mem_append_left _ (hclosed y hy).2⟩
        · rcases List.mem_append.mp hy with hy | hy
          · exact ⟨hs'.visited y (hdone y hy).1,
              List.mem_append_left _ (hs'.edges _ (hdone y hy).2)⟩
          · rw [List.mem_singleton.mp hy]
            exact ⟨hb', List.mem_append_right _ (List.mem_singleton_self _)⟩

/-- With the bound, the search meets all the edges that are reachable. -/
theorem mem_search_iff {root x y : N} {n : ℕ} (hbound : Bounded deps root n) :
    (x, y) ∈ (search deps n root ⟨[], []⟩).edges ↔
      Relation.ReflTransGen (fun a b => b ∈ deps a) root x ∧ y ∈ deps x := by
  constructor
  · intro h
    exact reachable_of_mem_plain ((mem_plain_of_mem_search h).resolve_left List.not_mem_nil)
  · rintro ⟨hreach, hy⟩
    obtain ⟨hs, hroot⟩ := @search_searched N deps _ root n (fun b σ hchain hnodup hlast => by
      obtain ⟨w, hw⟩ := List.getLast?_eq_some_iff.mp hlast
      have hrev : (b :: σ).reverse = root :: w.reverse := by rw [hw]; simp
      have hlen := congrArg List.length hrev
      rw [List.length_reverse, List.length_cons, List.length_cons] at hlen
      have hle := hbound w.reverse (by rw [← hrev, List.isChain_reverse]; exact hchain)
        (by rw [← hrev, List.dropLast_reverse, List.tail_cons, List.nodup_reverse]; exact hnodup)
      omega) n root [] ⟨[], []⟩ (Nat.zero_add n) (List.isChain_singleton root) List.nodup_nil rfl
      (by simp)
    have hclosed (x : N) (hx : x ∈ (search deps n root ⟨[], []⟩).visited) :=
      (hs.closed x hx).resolve_left List.not_mem_nil
    have hvisited : x ∈ (search deps n root ⟨[], []⟩).visited := by
      clear hy
      induction hreach with
      | refl => exact hroot
      | tail _ hbc ih => exact (hclosed _ ih _ hbc).1
    exact (hclosed x hvisited y hy).2

/-- With the bound, the plain search meets the same edges. -/
theorem mem_plain_iff {root x y : N} {n : ℕ} (hbound : Bounded deps root n) :
    (x, y) ∈ plain deps n root ↔
      Relation.ReflTransGen (fun a b => b ∈ deps a) root x ∧ y ∈ deps x :=
  ⟨reachable_of_mem_plain, fun h =>
    (mem_plain_of_mem_search ((mem_search_iff hbound).mpr h)).resolve_left List.not_mem_nil⟩

/-- A node that is first met at the last level is lost. -/
example :
    let deps : ℕ → List ℕ := fun a =>
      if a = 0 then [1, 2] else if a = 1 then [2] else if a = 2 then [3] else []
    (2, 3) ∈ plain deps 2 0 ∧ (2, 3) ∉ (search deps 2 0 ⟨[], []⟩).edges := by
  decide

end DepthSearch
