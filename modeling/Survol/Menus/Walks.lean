import Mathlib.Data.List.Chain
import Mathlib.Data.List.Nodup
import Survol.Menus.Scripts

/-!
# Walks of the menu

The menu of a graph has an item for each walk along the links, from the nodes that it is made for.

## Main definitions

* `Link` — a link of the graph.
* `nameOf` — the name of a node.

## Main results

* `addStuff_induction` — the rule of induction for menus.
* `mem_addStuff` — the paths of the items are the walks.
* `addStuff_isSome` — the menu ends when the walks are bounded.
-/

namespace Survol.Menus

open PyText (Text)

variable {grph : List Triple}

/-- A link of the graph. -/
def Link (grph : List Triple) (a b : Node) : Prop := (a, .script, b) ∈ grph

/-- The name of a node in the menu. -/
def nameOf (grph : List Triple) (node : Node) : Text :=
  (nodesToNames grph node).getD "No name".toList

theorem nodesToItems_getD (subj : Node) : (nodesToItems grph subj).getD [] =
    grph.filterMap fun t => if t.1 = subj ∧ t.2.1 = .script then some t.2.2 else none := by
  rw [nodesToItems]
  split
  · rename_i h
    rw [h]
    rfl
  · rfl

theorem mem_nodesToItems {a b : Node} : b ∈ (nodesToItems grph a).getD [] ↔ Link grph a b := by
  rw [nodesToItems_getD, List.mem_filterMap, Link]
  constructor
  · intro h
    obtain ⟨⟨s, p, o⟩, ht, heq⟩ := h
    split at heq
    · rename_i h
      simp only at h heq
      rw [← h.1, ← h.2, ← Option.some.inj heq]
      exact ht
    · cases heq
  · intro h
    exact ⟨_, h, by simp⟩

theorem nodup_nodesToItems (h : grph.Nodup) (a : Node) : ((nodesToItems grph a).getD []).Nodup := by
  rw [nodesToItems_getD]
  refine List.Nodup.filterMap ?_ h
  intro t t' b hb hb'
  obtain ⟨s, p, o⟩ := t
  obtain ⟨s', p', o'⟩ := t'
  simp only [Option.mem_def, Option.ite_none_right_eq_some, Option.some.injEq] at hb hb'
  obtain ⟨⟨rfl, rfl⟩, rfl⟩ := hb
  obtain ⟨⟨rfl, rfl⟩, rfl⟩ := hb'
  rfl

/-! ## Induction on menus -/

/-- The items of a node, with those of its own menu. -/
def nodeItems (grph : List Triple) (a : Node) (items : List (List Node × Text)) :
    List (List Node × Text) :=
  ([a], nameOf grph a) :: items.map fun p => (a :: p.1, p.2)

theorem addItems_induction {sub : List Node → Option Menu}
    {P : List Node → List (List Node × Text) → Prop} (nil : P [] [])
    (cons : ∀ a ns items rest, P ((nodesToItems grph a).getD []) items → P ns rest →
      P (a :: ns) (nodeItems grph a items ++ rest))
    (hsub : ∀ ns menu, sub ns = some menu → P ns (menuItems menu)) {ns : List Node} {menu : Menu}
    (h : addItems grph sub ns = some menu) : P ns (menuItems menu) := by
  induction ns generalizing menu with
  | nil =>
    cases h
    exact nil
  | cons a ns ih =>
    rw [addItems] at h
    obtain ⟨rest, hrest, h⟩ := Option.bind_eq_some_iff.mp h
    cases hitems : nodesToItems grph a with
    | none =>
      simp only [hitems] at h
      cases h
      refine cons a ns [] _ ?_ (ih hrest)
      rw [hitems]
      exact nil
    | some items =>
      simp only [hitems] at h
      obtain ⟨menu', hmenu, h⟩ := Option.bind_eq_some_iff.mp h
      cases h
      refine cons a ns _ _ ?_ (ih hrest)
      rw [hitems]
      exact hsub items menu' hmenu

/-- The rule of induction for menus. -/
theorem addStuff_induction {P : List Node → List (List Node × Text) → Prop} (nil : P [] [])
    (cons : ∀ a ns items rest, P ((nodesToItems grph a).getD []) items → P ns rest →
      P (a :: ns) (nodeItems grph a items ++ rest)) {depth : ℕ} {ns : List Node} {menu : Menu}
    (h : addStuff grph depth ns = some menu) : P ns (menuItems menu) := by
  induction depth generalizing ns menu with
  | zero => cases h
  | succ depth ih => exact addItems_induction nil cons (fun ns menu => ih) h

/-! ## The items of a menu -/

/-- A walk along the links from one of the nodes. -/
def Walk (grph : List Triple) (ns : List Node) (p : List Node) : Prop :=
  ∃ a ∈ ns, ∃ l, p = a :: l ∧ List.IsChain (Link grph) (a :: l)

theorem walk_nil {p : List Node} : ¬ Walk grph [] p := by
  simp [Walk]

theorem walk_cons {a : Node} {ns p : List Node} : Walk grph (a :: ns) p ↔
    p = [a] ∨ (∃ q, Walk grph ((nodesToItems grph a).getD []) q ∧ p = a :: q) ∨
      Walk grph ns p := by
  have hhead : (∃ l, p = a :: l ∧ List.IsChain (Link grph) (a :: l)) ↔
      p = [a] ∨ ∃ q, Walk grph ((nodesToItems grph a).getD []) q ∧ p = a :: q := by
    constructor
    · rintro ⟨l, rfl, hchain⟩
      cases l with
      | nil => exact .inl rfl
      | cons b l =>
        rw [List.isChain_cons_cons] at hchain
        exact .inr ⟨b :: l, ⟨b, mem_nodesToItems.mpr hchain.1, l, rfl, hchain.2⟩, rfl⟩
    · rintro (rfl | ⟨q, ⟨b, hb, l, rfl, hchain⟩, rfl⟩)
      · exact ⟨[], rfl, List.isChain_singleton a⟩
      · exact ⟨b :: l, rfl, List.isChain_cons_cons.mpr ⟨mem_nodesToItems.mp hb, hchain⟩⟩
  rw [← or_assoc, ← hhead]
  simp only [Walk, List.mem_cons, exists_eq_or_imp]

variable {depth : ℕ} {ns : List Node} {menu : Menu}

/-- The paths of the items of a menu are the walks. -/
theorem mem_addStuff (h : addStuff grph depth ns = some menu) (p : List Node) :
    p ∈ (menuItems menu).map Prod.fst ↔ Walk grph ns p := by
  revert p
  refine addStuff_induction (P := fun ns items => ∀ p, p ∈ items.map Prod.fst ↔ Walk grph ns p)
    ?_ ?_ h
  · intro p
    simp [walk_nil]
  · intro a ns items rest hitems hrest p
    rw [walk_cons, ← hrest, List.map_append, List.mem_append, nodeItems, List.map_cons,
      List.mem_cons, or_assoc]
    simp only [List.map_map, ← hitems]
    simp only [List.mem_map, Function.comp, Prod.exists]
    aesop

/-- The items of a menu have different paths. -/
theorem nodup_addStuff (hgrph : grph.Nodup) (hns : ns.Nodup)
    (h : addStuff grph depth ns = some menu) : ((menuItems menu).map Prod.fst).Nodup := by
  revert hns
  refine (addStuff_induction (P := fun ns items => (∀ p ∈ items.map Prod.fst, ∃ a ∈ ns, ∃ l,
    p = a :: l) ∧ (ns.Nodup → (items.map Prod.fst).Nodup)) ?_ ?_ h).2
  · simp
  · intro a ns items rest hitems hrest
    have hmap : (nodeItems grph a items ++ rest).map Prod.fst =
        ([a] :: (items.map Prod.fst).map (a :: ·)) ++ rest.map Prod.fst := by
      simp [nodeItems, Function.comp_def]
    rw [hmap]
    constructor
    · intro p hp
      rcases List.mem_append.mp hp with hp | hp
      · refine ⟨a, List.mem_cons_self, ?_⟩
        rcases List.mem_cons.mp hp with rfl | hp
        · exact ⟨[], rfl⟩
        · obtain ⟨q, -, rfl⟩ := List.mem_map.mp hp
          exact ⟨q, rfl⟩
      · obtain ⟨b, hb, l, rfl⟩ := hrest.1 p hp
        exact ⟨b, List.mem_cons_of_mem a hb, l, rfl⟩
    · intro hns
      obtain ⟨ha, hns⟩ := List.nodup_cons.mp hns
      have hnil : [a] ∉ (items.map Prod.fst).map (a :: ·) := by
        intro hmem
        obtain ⟨q, hq, heq⟩ := List.mem_map.mp hmem
        obtain ⟨b, -, l, rfl⟩ := hitems.1 q hq
        cases heq
      have hsub : ((items.map Prod.fst).map (a :: ·)).Nodup :=
        (hitems.2 (nodup_nodesToItems hgrph a)).map (List.cons_injective)
      refine List.nodup_append.mpr ⟨List.nodup_cons.mpr ⟨hnil, hsub⟩, hrest.2 hns, ?_⟩
      intro p hp p' hp' heq
      obtain ⟨b, hb, l, rfl⟩ := hrest.1 p' hp'
      subst heq
      have hab : a = b := by
        rcases List.mem_cons.mp hp with hp | hp
        · exact (List.cons.inj hp).1.symm
        · obtain ⟨q, -, heq⟩ := List.mem_map.mp hp
          exact (List.cons.inj heq).1
      exact ha (hab ▸ hb)

/-- The items of a menu have the name of their last node. -/
theorem name_addStuff (h : addStuff grph depth ns = some menu) :
    ∀ p ∈ menuItems menu, ∃ a, p.1.getLast? = some a ∧ p.2 = nameOf grph a := by
  refine addStuff_induction (P := fun _ items => ∀ p ∈ items, ∃ a, p.1.getLast? = some a ∧
    p.2 = nameOf grph a) ?_ ?_ h
  · simp
  · intro a ns items rest hitems hrest p hp
    rcases List.mem_append.mp hp with hp | hp
    · rcases List.mem_cons.mp hp with rfl | hp
      · exact ⟨a, rfl, rfl⟩
      · obtain ⟨q, hq, rfl⟩ := List.mem_map.mp hp
        obtain ⟨b, hb, hname⟩ := hitems q hq
        refine ⟨b, ?_, hname⟩
        rw [List.getLast?_cons, hb]
        rfl
    · exact hrest p hp

/-! ## Termination -/

theorem addItems_isSome {sub : List Node → Option Menu}
    (h : ∀ a ∈ ns, ∃ menu, sub ((nodesToItems grph a).getD []) = some menu) :
    ∃ menu, addItems grph sub ns = some menu := by
  induction ns with
  | nil => exact ⟨.nil, rfl⟩
  | cons a ns ih =>
    obtain ⟨rest, hrest⟩ := ih fun b hb => h b (List.mem_cons_of_mem a hb)
    obtain ⟨menu, hmenu⟩ := h a List.mem_cons_self
    rw [addItems, hrest]
    cases hitems : nodesToItems grph a with
    | none => exact ⟨_, rfl⟩
    | some items =>
      rw [hitems] at hmenu
      simp only [Option.getD_some] at hmenu
      simp [hmenu]

/-- The menu ends when the walks are bounded. -/
theorem addStuff_isSome (h : ∀ p, Walk grph ns p → p.length ≤ depth) :
    ∃ menu, addStuff grph (depth + 1) ns = some menu := by
  induction depth generalizing ns with
  | zero =>
    cases ns with
    | nil => exact ⟨.nil, rfl⟩
    | cons a ns => exact absurd (h [a] (walk_cons.mpr (.inl rfl))) (by simp)
  | succ depth ih =>
    rw [addStuff]
    refine addItems_isSome fun a ha => ih fun q hq => ?_
    obtain ⟨b, hb, l, rfl, hchain⟩ := hq
    have hwalk : Walk grph ns (a :: b :: l) :=
      ⟨a, ha, b :: l, rfl, List.isChain_cons_cons.mpr ⟨mem_nodesToItems.mp hb, hchain⟩⟩
    exact Nat.le_of_succ_le_succ (h _ hwalk)

end Survol.Menus
