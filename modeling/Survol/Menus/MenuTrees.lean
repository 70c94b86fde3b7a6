import Mathlib.Data.List.Dedup
import Mathlib.Data.Option.Basic
import Survol.Menus.Labels
import Survol.Menus.Walks

/-!
# The menu of a directory tree

The menu that is made of the graph of a directory tree shows this tree exactly if the shown
directories have different titles: two directories with the same title are one node of the graph,
so that each shows the scripts of both, and a menu with such a directory in itself never ends.

## Main definitions

* `IsGraphOf` — a graph with the triples of a directory tree, in any order.
* `MenuIsTree` — the menu ends, and has the shown directories and scripts, each once.

## Main results

* `menuIsTree_iff` — when the menu is the tree of the shown scripts.
-/

namespace Survol.Menus

open PyText (Text)
open LabelTree

/-! ## Names -/

theorem foldl_or_eq_some {f : Triple → Option Text} {v : Text} {l : List Triple}
    (hset : ∀ t ∈ l, f t = none ∨ f t = some v) {name : Option Text}
    (h : name = some v ∨ ∃ t ∈ l, f t = some v) :
    l.foldl (fun name t => (f t).or name) name = some v := by
  induction l generalizing name with
  | nil => simpa using h
  | cons t l ih =>
    rw [List.foldl_cons]
    apply ih fun t ht => hset t (List.mem_cons_of_mem _ ht)
    rcases hset t List.mem_cons_self with ht | ht
    · simpa [ht] using h
    · simp [ht]

theorem inj_on_of_nodup_filterMap {α β : Type} {f : α → Option β} {l : List α}
    (h : (l.filterMap f).Nodup) {p q : α} {b : β} (hp : p ∈ l) (hq : q ∈ l)
    (hpb : f p = some b) (hqb : f q = some b) : p = q := by
  induction l with
  | nil => cases hp
  | cons a l ih =>
    have hmem {x : α} (hx : x ∈ l) (hxb : f x = some b) : b ∈ l.filterMap f :=
      List.mem_filterMap.mpr ⟨x, hx, hxb⟩
    have htail : (l.filterMap f).Nodup := h.sublist ((List.sublist_cons_self a l).filterMap f)
    have hhead (ha : f a = some b) : b ∉ l.filterMap f := by
      rw [List.filterMap_cons_some ha] at h
      exact (List.nodup_cons.mp h).1
    rcases List.mem_cons.mp hp with hp | hp
    · rcases List.mem_cons.mp hq with hq | hq
      · exact hp.trans hq.symm
      · exact absurd (hmem hq hqb) (hhead (hp ▸ hpb))
    · rcases List.mem_cons.mp hq with hq | hq
      · exact absurd (hmem hp hpb) (hhead (hq ▸ hqb))
      · exact ih htail hp hq

theorem mem_lastNodes {items : List (List Node × Text)} {b : Node} :
    b ∈ lastNodes items ↔ ∃ c ∈ items.map Prod.fst, c.getLast? = some b := by
  simp [lastNodes]

namespace MenuEnv

variable (env : MenuEnv)

/-- A graph with the triples of a directory tree: each once, in any order. -/
structure IsGraphOf (root : Node) (relativeDir : Text) (d : Dir) (grph : List Triple) : Prop where
  nodup : grph.Nodup
  mem_iff : ∀ t, t ∈ grph ↔ t ∈ (env.dirToMenuAux root relativeDir d).1

/-- The menu ends, and has the directories with scripts and the scripts, each once and at its
place, with its title. -/
def MenuIsTree (relativeDir : Text) (d : Dir) (grph : List Triple) : Prop :=
  ∃ depth menu, grph2Menu grph depth = some menu ∧
    (menuItems menu).Perm (env.shownItems relativeDir d)

variable {env} {root : Node} {relativeDir : Text} {d : Dir} {grph : List Triple}

namespace IsGraphOf

variable (hg : env.IsGraphOf root relativeDir d grph)

include hg

theorem link_iff {a b : Node} :
    Link grph a b ↔ Edge root (env.shownPaths relativeDir d) a b := by
  rw [Link, hg.mem_iff, mem_dirToMenuAux_script]

theorem information_iff {a b : Node} : (a, .information, b) ∈ grph ↔
    ∃ p ∈ env.shownItems relativeDir d, ∃ address,
      p.1.getLast? = some (.url address) ∧ a = .url address ∧ b = .literal p.2 := by
  rw [hg.mem_iff, mem_dirToMenuAux_information]

/-- If the nodes are different, then each has the name of its item. -/
theorem nameOf_eq (hnodup : (lastNodes (env.shownItems relativeDir d)).Nodup)
    {p : List Node × Text} (hp : p ∈ env.shownItems relativeDir d) {a : Node}
    (ha : p.1.getLast? = some a) : nameOf grph a = p.2 := by
  have hname : nodesToNames grph a = some p.2 := by
    apply foldl_or_eq_some
    · intro t ht
      obtain ⟨s, q, o⟩ := t
      cases q with
      | script =>
        by_cases ho : o = a
        · subst ho
          cases o with
          | literal text =>
            right
            simp [givenName, Node.literal?, title_of_literal env relativeDir d p hp text ha]
          | url address => simp [givenName, Node.literal?]
        · simp [givenName, ho]
      | information =>
        obtain ⟨q, hq, address, hlast, rfl, rfl⟩ := hg.information_iff.mp ht
        by_cases hs : Node.url address = a
        · subst hs
          obtain rfl := inj_on_of_nodup_filterMap hnodup hp hq ha hlast
          simp [givenName, Node.literal?]
        · simp [givenName, hs]
      | error => simp [givenName]
    · right
      cases a with
      | literal text =>
        have hedge := exists_edge_iff (r := root).mpr ⟨p.1, List.mem_map_of_mem hp, ha⟩
        obtain ⟨s, hs⟩ := hedge
        refine ⟨_, hg.link_iff.mpr hs, ?_⟩
        simp [givenName, Node.literal?, title_of_literal env relativeDir d p hp text ha]
      | url address =>
        refine ⟨_, hg.information_iff.mpr ⟨p, hp, address, ha, rfl, rfl⟩, ?_⟩
        simp [givenName, Node.literal?]
  rw [nameOf, hname]
  rfl

/-! ## The top-level node -/

omit hg in
theorem mem_topLevelNodes {x : Node} : x ∈ topLevelNodes grph ↔
    (∃ b, Link grph x b) ∧ ¬ ∃ a, Link grph a x := by
  have hsubj : x ∈ ((grph.filter fun t => t.2.1 = .script).map (·.1)).dedup ↔
      ∃ b, Link grph x b := by
    rw [List.mem_dedup, List.mem_map]
    constructor
    · rintro ⟨⟨s, p, o⟩, ht, rfl⟩
      obtain ⟨ht, hp⟩ := List.mem_filter.mp ht
      obtain rfl : p = .script := by simpa using hp
      exact ⟨o, ht⟩
    · intro ⟨b, hb⟩
      exact ⟨_, List.mem_filter.mpr ⟨hb, by simp⟩, rfl⟩
  have hobj : (grph.any fun t => t.2.1 = .script ∧ t.2.2 = x) = true ↔ ∃ a, Link grph a x := by
    rw [List.any_eq_true]
    constructor
    · rintro ⟨⟨s, p, o⟩, ht, hp⟩
      obtain ⟨rfl, rfl⟩ : p = .script ∧ o = x := by simpa using hp
      exact ⟨s, ht⟩
    · intro ⟨a, ha⟩
      exact ⟨_, ha, by simp⟩
  rw [topLevelNodes, List.mem_filter, hsubj, ← hobj, Bool.not_eq_true', Bool.not_eq_true]

omit hg in
theorem nodup_topLevelNodes : (topLevelNodes grph).Nodup := (List.nodup_dedup _).filter _

theorem exists_link_to_iff {x : Node} :
    (∃ a, Link grph a x) ↔ x ∈ lastNodes (env.shownItems relativeDir d) := by
  rw [mem_lastNodes, ← exists_edge_iff (r := root)]
  exact exists_congr fun a => hg.link_iff

theorem eq_root_of_topLevel {x : Node} (hx : x ∈ topLevelNodes grph) :
    x = root ∧ root ∉ lastNodes (env.shownItems relativeDir d) := by
  obtain ⟨⟨b, hb⟩, hnot⟩ := mem_topLevelNodes.mp hx
  rw [hg.exists_link_to_iff] at hnot
  rcases (isPaths_shownPaths env relativeDir d).eq_root_or_of_edge (hg.link_iff.mp hb) with
    rfl | hc
  · exact ⟨rfl, hnot⟩
  · exact absurd (mem_lastNodes.mpr hc) hnot

theorem topLevelNodes_of_mem (hroot : root ∈ lastNodes (env.shownItems relativeDir d)) :
    topLevelNodes grph = [] := by
  rw [List.eq_nil_iff_forall_not_mem]
  intro x hx
  exact (hg.eq_root_of_topLevel hx).2 hroot

theorem topLevelNodes_of_notMem (hne : env.shownItems relativeDir d ≠ [])
    (hroot : root ∉ lastNodes (env.shownItems relativeDir d)) :
    topLevelNodes grph = [root] := by
  have hmem : root ∈ topLevelNodes grph := by
    rw [mem_topLevelNodes, hg.exists_link_to_iff]
    refine ⟨?_, hroot⟩
    obtain ⟨b, hb⟩ := (isPaths_shownPaths env relativeDir d).exists_edge_root (r := root)
      (by simpa [shownPaths] using hne)
    exact ⟨b, hg.link_iff.mpr hb⟩
  have hperm : (topLevelNodes grph).Perm [root] := by
    rw [List.perm_ext_iff_of_nodup nodup_topLevelNodes (List.nodup_singleton root)]
    intro x
    rw [List.mem_singleton]
    constructor
    · intro hx
      exact (hg.eq_root_of_topLevel hx).1
    · rintro rfl
      exact hmem
  exact List.perm_singleton.mp hperm

/-! ## The menu -/

theorem grph2Menu_eq (depth : ℕ) : grph2Menu grph depth =
    match addStuff grph depth (topLevelNodes grph) with
    | some (.branch _ _ items _) => some items
    | some .nil => some .nil
    | some (.leaf ..) => none
    | none => none := by
  rw [grph2Menu]
  apply if_neg
  intro h
  obtain ⟨⟨s, p, o⟩, ht, hp⟩ := List.any_eq_true.mp h
  obtain ⟨rfl, ho⟩ : p = .information ∧ o.literal? = none := by simpa using hp
  obtain ⟨q, -, address, -, -, rfl⟩ := hg.information_iff.mp ht
  cases ho

theorem grph2Menu_of_nil (h : topLevelNodes grph = []) (depth : ℕ) :
    grph2Menu grph (depth + 1) = some .nil := by
  rw [hg.grph2Menu_eq, h]
  rfl

/-- The menu is that of the items of the root. -/
theorem grph2Menu_of_root (h : topLevelNodes grph = [root]) (depth : ℕ) :
    grph2Menu grph (depth + 1) = addStuff grph depth ((nodesToItems grph root).getD []) := by
  have hroot : root ∈ topLevelNodes grph := by simp [h]
  obtain ⟨⟨b, hb⟩, -⟩ := mem_topLevelNodes.mp hroot
  have hitems := mem_nodesToItems.mpr hb
  rw [hg.grph2Menu_eq, h, addStuff, addItems, addItems]
  cases hi : nodesToItems grph root with
  | none => simp [hi] at hitems
  | some items =>
    rw [Option.getD_some]
    cases hsub : addStuff grph depth items <;> simp [hsub]

theorem walk_iff {p : List Node} : Walk grph ((nodesToItems grph root).getD []) p ↔
    p ≠ [] ∧ List.IsChain (Edge root (env.shownPaths relativeDir d)) (root :: p) := by
  have hlink : Link grph = Edge root (env.shownPaths relativeDir d) := by
    ext a b
    exact hg.link_iff
  rw [← hlink]
  constructor
  · rintro ⟨a, ha, l, rfl, hchain⟩
    exact ⟨by simp, List.isChain_cons_cons.mpr ⟨mem_nodesToItems.mp ha, hchain⟩⟩
  · rintro ⟨hne, hchain⟩
    cases p with
    | nil => exact absurd rfl hne
    | cons a l =>
      rw [List.isChain_cons_cons] at hchain
      exact ⟨a, mem_nodesToItems.mpr hchain.1, l, rfl, hchain.2⟩

/-! ## Trees and titles -/

omit hg in
theorem map_getLast?_shownPaths : (env.shownPaths relativeDir d).map List.getLast? =
    (lastNodes (env.shownItems relativeDir d)).map some := by
  have hne := @items_ne_nil env relativeDir d
  rw [shownPaths, lastNodes, List.map_map, List.map_filterMap]
  generalize env.shownItems relativeDir d = items at hne
  induction items with
  | nil => rfl
  | cons p items ih =>
    obtain ⟨b, hb⟩ := Option.ne_none_iff_exists'.mp
      (mt List.getLast?_eq_none_iff.mp (hne p List.mem_cons_self))
    rw [List.map_cons, ih fun q hq => hne q (List.mem_cons_of_mem p hq), Function.comp,
      List.filterMap_cons_some (b := some b) (by rw [hb]; rfl), hb]

omit hg in
theorem nodup_paths_iff : ((env.shownPaths relativeDir d).map List.getLast?).Nodup ↔
    (lastNodes (env.shownItems relativeDir d)).Nodup := by
  rw [map_getLast?_shownPaths, List.nodup_map_iff (Option.some_injective _)]

/-- If the menu is the tree, then the nodes are different. -/
theorem nodup_of_menu (hd : d.Ok) (hne : env.shownItems relativeDir d ≠ []) {depth : ℕ}
    {menu : Menu} (hmenu : grph2Menu grph depth = some menu)
    (hperm : (menuItems menu).Perm (env.shownItems relativeDir d)) :
    root ∉ lastNodes (env.shownItems relativeDir d) ∧
      (lastNodes (env.shownItems relativeDir d)).Nodup := by
  cases depth with
  | zero =>
    rw [hg.grph2Menu_eq] at hmenu
    cases hmenu
  | succ depth =>
    have hroot : root ∉ lastNodes (env.shownItems relativeDir d) := by
      intro hmem
      rw [hg.grph2Menu_of_nil (hg.topLevelNodes_of_mem hmem)] at hmenu
      cases hmenu
      exact hne (List.nil_perm.mp hperm)
    refine ⟨hroot, ?_⟩
    rw [hg.grph2Menu_of_root (hg.topLevelNodes_of_notMem hne hroot)] at hmenu
    have hpaths : ((menuItems menu).map Prod.fst).Perm (env.shownPaths relativeDir d) :=
      hperm.map Prod.fst
    have hnodup := nodup_addStuff hg.nodup (nodup_nodesToItems hg.nodup root) hmenu
    rw [← nodup_paths_iff]
    refine (isPaths_shownPaths env relativeDir d).nodup_of_isChain (r := root)
      (hpaths.nodup_iff.mp hnodup) ?_ ?_
    · intro w hw hchain
      exact hpaths.mem_iff.mp ((mem_addStuff hmenu w).mpr (hg.walk_iff.mpr ⟨hw, hchain⟩))
    · intro c hc
      obtain ⟨l, address, hl, hlast⟩ := exists_script_below env relativeDir d c hc
      refine ⟨l, hl, ?_⟩
      intro c' hc' heq
      obtain ⟨p, hp, rfl⟩ := List.mem_map.mp hc'
      obtain ⟨q, hq, hqc⟩ := List.mem_map.mp hl
      have haddress {x : List Node × Text} (hx : x.1.getLast? = some (.url address)) :
          (x.1.getLast?.bind Node.address?) = some address := by rw [hx]; rfl
      have hinj := (addresses_shownItems env relativeDir d hd).1
      rw [addresses, lastNodes, List.filterMap_filterMap] at hinj
      rw [inj_on_of_nodup_filterMap hinj hp hq (haddress (heq.trans hlast))
        (haddress (hqc ▸ hlast)), hqc]

/-- If the nodes are different, then the menu is the tree. -/
theorem menuIsTree_of_nodup (hne : env.shownItems relativeDir d ≠ [])
    (hroot : root ∉ lastNodes (env.shownItems relativeDir d))
    (hnodup : (lastNodes (env.shownItems relativeDir d)).Nodup) :
    env.MenuIsTree relativeDir d grph := by
  have hpaths := isPaths_shownPaths env relativeDir d
  -- the walks are the paths of the tree, so that their lengths are bounded
  have hwalk (p : List Node) : Walk grph ((nodesToItems grph root).getD []) p ↔
      p ∈ env.shownPaths relativeDir d := by
    rw [hg.walk_iff]
    constructor
    · rintro ⟨hp, hchain⟩
      refine hpaths.mem_of_isChain (nodup_paths_iff.mpr hnodup) ?_ hp hchain
      intro c hc hlast
      exact hroot (mem_lastNodes.mpr ⟨c, hc, hlast⟩)
    · intro hp
      exact ⟨fun hnil => hpaths.ne_nil (hnil ▸ hp), hpaths.isChain_of_mem hp⟩
  have hbound (p : List Node) (hp : Walk grph ((nodesToItems grph root).getD []) p) :
      p.length ≤ (env.shownPaths relativeDir d).flatten.length :=
    (List.sublist_flatten_of_mem ((hwalk p).mp hp)).length_le
  obtain ⟨menu, hmenu⟩ := addStuff_isSome hbound
  refine ⟨_, menu, (hg.grph2Menu_of_root (hg.topLevelNodes_of_notMem hne hroot) _).trans hmenu, ?_⟩
  have hmenuNodup := nodup_addStuff hg.nodup (nodup_nodesToItems hg.nodup root) hmenu
  have hshownNodup : (env.shownPaths relativeDir d).Nodup := (nodup_paths_iff.mpr hnodup).of_map _
  have hmem (c : List Node) : c ∈ (menuItems menu).map Prod.fst ↔
      c ∈ env.shownPaths relativeDir d := by
    rw [mem_addStuff hmenu, hwalk]
  rw [List.perm_ext_iff_of_nodup (hmenuNodup.of_map _) (hshownNodup.of_map _)]
  -- an item of the one and an item of the other with the same path have the same name
  have hname {p q : List Node × Text} (hp : p ∈ menuItems menu)
      (hq : q ∈ env.shownItems relativeDir d) (hpath : p.1 = q.1) : p = q := by
    obtain ⟨a, ha, hpa⟩ := name_addStuff hmenu p hp
    ext1
    · exact hpath
    · rw [hpa, hg.nameOf_eq hnodup hq (hpath ▸ ha)]
  intro p
  constructor
  · intro hp
    obtain ⟨q, hq, hpath⟩ := List.mem_map.mp ((hmem p.1).mp (List.mem_map_of_mem hp))
    rw [hname hp hq hpath.symm]
    exact hq
  · intro hq
    obtain ⟨q, hp, hpath⟩ := List.mem_map.mp ((hmem p.1).mpr (List.mem_map_of_mem hq))
    rw [← hname hp hq hpath]
    exact hp

end IsGraphOf

/-- **The menu is the tree of the shown scripts exactly if the shown directories have different
titles**, and the node of the tree is not one of them. -/
theorem menuIsTree_iff (hd : d.Ok) (hg : env.IsGraphOf root relativeDir d grph) :
    env.MenuIsTree relativeDir d grph ↔
      root ∉ lastNodes (env.shownItems relativeDir d) ∧ (env.shownTitles relativeDir d).Nodup := by
  rw [← nodup_lastNodes_iff env relativeDir hd]
  by_cases hne : env.shownItems relativeDir d = []
  · have hnil : topLevelNodes grph = [] := by
      rw [List.eq_nil_iff_forall_not_mem]
      intro x hx
      obtain ⟨b, hb⟩ := (IsGraphOf.mem_topLevelNodes.mp hx).1
      obtain ⟨c, hc, -⟩ := hg.link_iff.mp hb
      simp [shownPaths, hne] at hc
    have hlast : lastNodes (env.shownItems relativeDir d) = [] := by simp [hne, lastNodes]
    rw [hlast]
    simp only [List.not_mem_nil, not_false_eq_true, List.nodup_nil, and_self, iff_true]
    exact ⟨1, .nil, hg.grph2Menu_of_nil hnil 0, by rw [hne]; rfl⟩
  · constructor
    · rintro ⟨depth, menu, hmenu, hperm⟩
      exact hg.nodup_of_menu hd hne hmenu hperm
    · rintro ⟨hroot, hnodup⟩
      exact hg.menuIsTree_of_nodup hne hroot hnodup

/-- The triples of a directory tree, each once. -/
theorem isGraphOf_dedup (env : MenuEnv) (root : Node) (relativeDir : Text) (d : Dir) :
    env.IsGraphOf root relativeDir d (env.dirToMenuAux root relativeDir d).1.dedup where
  nodup := List.nodup_dedup _
  mem_iff _ := List.mem_dedup

/-- A menu for which only the usable scripts are shown. -/
def usableOnly : MenuEnv := ⟨"http://h/survol".toList, "?xid=".toList, false⟩

/-- A script without documentation. -/
def plainScript (name : Text) : File := ⟨name, .ok ⟨none, none⟩⟩

/-- Two directories with a documentation each, and a script in each. -/
def twoDirs (doc doc' : Text) : Dir :=
  .mk none
    (.cons "disks".toList (some (some doc)) false (.mk none .nil [plainScript "a.py".toList])
      (.cons "files".toList (some (some doc')) false (.mk none .nil [plainScript "b.py".toList])
        .nil))
    []

/-- The object of the menu. -/
def entityNode : Node := .url "http://h/survol/entity.py".toList

theorem twoDirs_ok (doc doc' : Text) : (twoDirs doc doc').Ok := by
  simp [twoDirs, Dir.Ok, Dirs.Ok, Dirs.names, plainScript]

theorem menuIsTree_iff_twoDirs :
    usableOnly.MenuIsTree [] (twoDirs "Disks".toList "Files".toList)
      (usableOnly.dirToMenuAux entityNode [] (twoDirs "Disks".toList "Files".toList)).1.dedup :=
  (menuIsTree_iff (twoDirs_ok _ _) (isGraphOf_dedup _ entityNode _ _)).mpr (by decide)

/-- Two directories with the same documentation. -/
theorem sameTitle_not_tree : ¬ ∀ (env : MenuEnv) (root : Node) (relativeDir : Text) (d : Dir)
    (grph : List Triple), d.Ok → env.IsGraphOf root relativeDir d grph →
    root ∉ lastNodes (env.shownItems relativeDir d) → env.MenuIsTree relativeDir d grph := by
  intro h
  have hg := isGraphOf_dedup usableOnly entityNode [] (twoDirs "Tools".toList "Tools".toList)
  obtain ⟨depth, menu, hmenu, hperm⟩ := h _ _ _ _ _ (twoDirs_ok _ _) hg (by decide)
  exact absurd (hg.nodup_of_menu (twoDirs_ok _ _) (by decide) hmenu hperm).2 (by decide)

end MenuEnv

end Survol.Menus
