import Survol.Lib.LabelTree
import Survol.Wbem.ClassTrees

/-!
# The page of the WBEM classes

The page draws the tree of the instrumented classes of a server, from one class or from the roots,
down to a depth.

## Main definitions

* `printClassRecu` — the links of a class and of the classes below it.
* `main` — the links of the page.
* `ClassPage` — the page shows the tree of the instrumented classes.

## Main results

* `classPage_of_forest` — it does, for every forest of classes.
-/

open PyText (Text)
open Forest (Child)

namespace Survol.Wbem

/-! ## The code -/

/-- The addresses of a class, of the page of the classes below it, of the class in general and of
its page by another program, and the texts. -/
inductive Node
  | cls (clsNam : Text)
  | tree (clsNam : Text)
  | generalised (clsNam : Text)
  | yawn (clsNam : Text)
  | literal (text : Text)
  deriving DecidableEq

inductive Property
  | cimSubclass
  | information
  | rdfDataNolist1
  | rdfDataNolist2
  | rdfDataNolist3
  deriving DecidableEq

abbrev Link := Node × Property × Node

/-- The roots have no superclass. -/
def keyOf (topclassNam : Text) : Option Text := if topclassNam = [] then none else some topclassNam

/-- `PrintClassRecu`. The address of the other program takes the machine from the text between the
first two colons of the server's: a server whose address has no colon raises an exception there, and
is left out. -/
def printClassRecu (treeClasses : ClassTree) (withYawnUrls : Bool) (maxDepth depth : ℤ)
    (rootNode : Node) (topclassNam : Text) : List Link :=
  if maxDepth < depth then []
  else
    let wbemNode : Node := .cls topclassNam
    (rootNode, .cimSubclass, wbemNode) ::
      (wbemNode, .rdfDataNolist1, .tree topclassNam) ::
      (wbemNode, .rdfDataNolist2, .generalised topclassNam) ::
      ((if withYawnUrls then [(wbemNode, .rdfDataNolist3, .yawn topclassNam)] else []) ++
        ((treeClasses.get? (keyOf topclassNam)).getD []).flatMap fun cl =>
          printClassRecu treeClasses withYawnUrls maxDepth (depth + 1) wbemNode cl.classname)
termination_by (maxDepth + 1 - depth).toNat

/-- The description of a class, or that it has none. -/
def klaDescrip (descriptionOf : Text → Text) (wbemNamespace superKlassName : Text) : Text :=
  if descriptionOf superKlassName = [] then
    "Undefined class ".toList ++ wbemNamespace ++ ' ' :: superKlassName
  else descriptionOf superKlassName

/-- The links of the page of a class to the one of its superclass. -/
def superLinks (klasses : List WbemClass) (descriptionOf : Text → Text)
    (wbemNamespace entityType : Text) : List Link :=
  if entityType = [] then []
  else
    match (klasses.find? fun c => c.classname = entityType).bind WbemClass.superclass with
    | none => []
    | some superKlassName =>
      if superKlassName = [] then []
      else [(.tree superKlassName, .cimSubclass, .tree entityType),
        (.tree superKlassName, .information,
          .literal (klaDescrip descriptionOf wbemNamespace superKlassName))]

/-- `Main`, with at most `n` levels of classes. -/
def main (klasses : List WbemClass) (instrCla : List Text) (descriptionOf : Text → Text)
    (wbemNamespace entityType : Text) (maxDepth : ℤ) (withYawnUrls : Bool) (n : ℕ) :
    Option (List Link) := do
  let treeClassesFiltered ← makeInstrumentedRecu (getClassesTree klasses) instrCla n [] none
  return printClassRecu treeClassesFiltered withYawnUrls maxDepth 0 (.tree entityType) entityType ++
    superLinks klasses descriptionOf wbemNamespace entityType

/-! ## The tree -/

/-- A class that is kept is a direct subclass of another one. -/
def KeptSubclass (F : ClassForest) (instrCla : List Text) (a b : Text) : Prop :=
  ∃ c ∈ F.keptSubclasses instrCla (keyOf a), c.classname = b

/-- The page shows the tree of the instrumented classes. -/
structure ClassPage (F : ClassForest) (instrCla : List Text) (entityType : Text) (maxDepth : ℤ)
    (grph : List Link) : Prop where
  /-- The walks along the links, from the page of a class, go to this class and down through
  subclasses that are kept, not deeper than it is asked. -/
  walks : ∀ w, w ≠ [] →
    (List.IsChain (fun a b => (a, Property.cimSubclass, b) ∈ grph) (.tree entityType :: w) ↔
      ∃ names, List.IsChain (KeptSubclass F instrCla) (entityType :: names) ∧
        (names.length : ℤ) ≤ maxDepth ∧ (entityType :: names).map .cls = w)
  /-- A class is reached by one link. -/
  parent : ∀ a a' b, (a, Property.cimSubclass, b) ∈ grph → (a', Property.cimSubclass, b) ∈ grph →
    a = a'

section

variable {F : ClassForest} {instrCla : List Text}

/-! ## The subclasses that are kept -/

/-- The output of the recursion has the subclasses that are kept. -/
theorem getD_spec (p : Option Text) :
    (F.spec instrCla p).getD [] = F.keptSubclasses instrCla p := by
  cases hspec : F.spec instrCla p with
  | some l => exact spec_eq_some hspec
  | none =>
    have hnot : ¬ F.Kept instrCla p := by
      rw [← isSome_spec, hspec]
      exact Bool.false_ne_true
    refine (List.filter_eq_nil_iff.mpr fun c hc hkept => ?_).symm
    exact hnot (kept_iff.mpr (.inr ⟨c, hc, by simpa using hkept⟩))

theorem mem_subclasses_of_kept {p : Option Text} {c : WbemClass}
    (hc : c ∈ F.keptSubclasses instrCla p) : c ∈ subclasses F.klasses p :=
  (List.mem_filter.mp hc).1

/-- The classes have names. -/
def ClassForest.Named (F : ClassForest) : Prop := ∀ c ∈ F.klasses, c.classname ≠ []

theorem keyOf_classname (hF : F.Named) {p : Option Text} {c : WbemClass}
    (hc : c ∈ subclasses F.klasses p) : keyOf c.classname = some c.classname :=
  if_neg (hF c (List.mem_filter.mp hc).1)

/-! ## The paths of the page -/

/-- The paths of the classes, from one, with at most `n` levels. -/
noncomputable def classPaths (F : ClassForest) (instrCla : List Text) :
    ℕ → Text → List (List Node)
  | 0, _ => []
  | n + 1, topclassNam =>
    [.cls topclassNam] :: ((F.keptSubclasses instrCla (keyOf topclassNam)).flatMap fun cl =>
      classPaths F instrCla n cl.classname).map (.cls topclassNam :: ·)

theorem isPaths_classPaths (n : ℕ) (t : Text) : LabelTree.IsPaths (classPaths F instrCla n t) := by
  induction n generalizing t with
  | zero => exact .nil
  | succ n ih => exact .cons_map (.flatMap fun cl _ => ih cl.classname)

theorem mem_classPaths {n : ℕ} {t : Text} {w : List Node} :
    w ∈ classPaths F instrCla n t ↔
      ∃ names, List.IsChain (KeptSubclass F instrCla) (t :: names) ∧ names.length < n ∧
        (t :: names).map .cls = w := by
  induction n generalizing t w with
  | zero => simp [classPaths]
  | succ n ih =>
    rw [classPaths, List.mem_cons, List.mem_map]
    constructor
    · rintro (rfl | ⟨w, hw, rfl⟩)
      · exact ⟨[], List.isChain_singleton t, Nat.succ_pos n, rfl⟩
      · obtain ⟨c, hc, hw⟩ := List.mem_flatMap.mp hw
        obtain ⟨names, hchain, hlen, rfl⟩ := ih.mp hw
        exact ⟨c.classname :: names, List.isChain_cons_cons.mpr ⟨⟨c, hc, rfl⟩, hchain⟩,
          Nat.succ_lt_succ hlen, rfl⟩
    · rintro ⟨names, hchain, hlen, rfl⟩
      cases names with
      | nil => exact .inl rfl
      | cons name names =>
        obtain ⟨⟨c, hc, rfl⟩, hchain⟩ := List.isChain_cons_cons.mp hchain
        exact .inr ⟨_, List.mem_flatMap.mpr ⟨c, hc, ih.mpr ⟨names, hchain,
          Nat.lt_of_succ_lt_succ hlen, rfl⟩⟩, rfl⟩

/-- A path ends below the class that it starts from. -/
theorem getLast?_classPaths (hF : F.Named) {n : ℕ} {t : Text} {w : List Node}
    (hw : w ∈ classPaths F instrCla n t) :
    ∃ name, w.getLast? = some (.cls name) ∧ F.Under (keyOf t) (keyOf name) := by
  induction n generalizing t w with
  | zero => cases hw
  | succ n ih =>
    rcases List.mem_cons.mp hw with rfl | hw
    · exact ⟨t, rfl, .refl⟩
    · obtain ⟨w', hw', rfl⟩ := List.mem_map.mp hw
      obtain ⟨c, hc, hw'⟩ := List.mem_flatMap.mp hw'
      obtain ⟨name, hlast, hunder⟩ := ih hw'
      have hsub := mem_subclasses_of_kept hc
      rw [keyOf_classname hF hsub] at hunder
      refine ⟨name, ?_, .head (mem_subnames hsub) hunder⟩
      rw [LabelTree.getLast?_cons_of_ne_nil fun hnil =>
        (isPaths_classPaths n c.classname).ne_nil (hnil ▸ hw'), hlast]

/-- Different classes are different nodes: the trees of two subclasses are apart. -/
theorem nodup_getLast?_classPaths (hF : F.Named) (n : ℕ) (t : Text) :
    ((classPaths F instrCla n t).map List.getLast?).Nodup := by
  induction n generalizing t with
  | zero => exact List.nodup_nil
  | succ n ih =>
    have hne {c : WbemClass} {w : List Node} (hw : w ∈ classPaths F instrCla n c.classname) :
        w ≠ [] := fun hnil => (isPaths_classPaths n c.classname).ne_nil (hnil ▸ hw)
    have hmap : (((F.keptSubclasses instrCla (keyOf t)).flatMap fun cl =>
        classPaths F instrCla n cl.classname).map (Node.cls t :: ·)).map List.getLast? =
          (F.keptSubclasses instrCla (keyOf t)).flatMap fun cl =>
            (classPaths F instrCla n cl.classname).map List.getLast? := by
      rw [List.map_map, List.map_flatMap]
      refine List.flatMap_congr fun c _ => List.map_congr_left fun w hw => ?_
      exact LabelTree.getLast?_cons_of_ne_nil (hne hw)
    rw [classPaths, List.map_cons, hmap]
    refine List.nodup_cons.mpr ⟨fun hmem => ?_, List.nodup_flatMap.mpr ⟨fun c _ => ih _, ?_⟩⟩
    · obtain ⟨c, hc, hmem⟩ := List.mem_flatMap.mp hmem
      obtain ⟨w, hw, hlast⟩ := List.mem_map.mp hmem
      obtain ⟨name, hname, hunder⟩ := getLast?_classPaths hF hw
      rw [hname, List.getLast?_singleton, Option.some.injEq, Node.cls.injEq] at hlast
      have hsub := mem_subclasses_of_kept hc
      rw [hlast, keyOf_classname hF hsub] at hunder
      exact not_under hsub hunder
    · have hnodup : (F.keptSubclasses instrCla (keyOf t)).Nodup :=
        ((F.nodup.of_map _).filter _).filter _
      refine hnodup.imp_of_mem fun {c d} hc hd hcd => ?_
      intro last hlast hlast'
      obtain ⟨w, hw, rfl⟩ := List.mem_map.mp hlast
      obtain ⟨w', hw', heq⟩ := List.mem_map.mp hlast'
      obtain ⟨name, hname, hunder⟩ := getLast?_classPaths hF hw
      obtain ⟨name', hname', hunder'⟩ := getLast?_classPaths hF hw'
      rw [hname, hname', Option.some.injEq, Node.cls.injEq] at heq
      have hcsub := mem_subclasses_of_kept hc
      have hdsub := mem_subclasses_of_kept hd
      rw [keyOf_classname hF hcsub] at hunder
      rw [keyOf_classname hF hdsub, heq] at hunder'
      exact hcd (eq_of_under hcsub hdsub hunder hunder')

/-! ## The links of the page -/

/-- The links of the recursion are the edges of the tree. -/
theorem mem_printClassRecu {tree : ClassTree} {withYawnUrls : Bool} {maxDepth depth : ℤ}
    (hF : F.Named) {r a b : Node} {t : Text}
    (htree : ∀ q, F.Under (keyOf t) q → (tree.get? q).getD [] = F.keptSubclasses instrCla q)
    {n : ℕ} (hn : (maxDepth + 1 - depth).toNat = n) :
    (a, Property.cimSubclass, b) ∈ printClassRecu tree withYawnUrls maxDepth depth r t ↔
      LabelTree.Edge r (classPaths F instrCla n t) a b := by
  induction n generalizing depth r t with
  | zero =>
    rw [printClassRecu, if_pos (by omega)]
    exact iff_of_false List.not_mem_nil LabelTree.edge_nil
  | succ n ih =>
    have hbelow : (a, Property.cimSubclass, b) ∈ ((tree.get? (keyOf t)).getD []).flatMap (fun cl =>
        printClassRecu tree withYawnUrls maxDepth (depth + 1) (.cls t) cl.classname) ↔
          LabelTree.Edge (.cls t) ((F.keptSubclasses instrCla (keyOf t)).flatMap fun cl =>
            classPaths F instrCla n cl.classname) a b := by
      rw [htree _ .refl, LabelTree.edge_flatMap, List.mem_flatMap]
      refine exists_congr fun c => and_congr_right fun hc => ih (fun q hq => ?_) (by omega)
      have hsub := mem_subclasses_of_kept hc
      rw [keyOf_classname hF hsub] at hq
      exact htree q (.head (mem_subnames hsub) hq)
    have hyawn : (a, Property.cimSubclass, b) ∉
        (if withYawnUrls then [(Node.cls t, Property.rdfDataNolist3, Node.yawn t)] else []) := by
      split <;> simp
    rw [classPaths, LabelTree.edge_cons_map
      (LabelTree.IsPaths.flatMap fun c _ => isPaths_classPaths n c.classname).ne_nil,
      printClassRecu, if_neg (by omega)]
    simp only [List.mem_cons, List.mem_append, hbelow, hyawn, Prod.mk.injEq, reduceCtorEq,
      false_and, and_false, false_or, true_and]

/-- The superclass that the page of a class is linked to. -/
def superclassOf (F : ClassForest) (entityType : Text) : Option Text :=
  (F.klasses.find? fun c => c.classname = entityType).bind WbemClass.superclass

/-- A class is not its own superclass. -/
theorem superclassOf_ne {t s : Text} (h : superclassOf F t = some s) : s ≠ t := by
  rintro rfl
  obtain ⟨c, hc, hsuper⟩ := Option.bind_eq_some_iff.mp h
  have hname : c.classname = s := by simpa using List.find?_some hc
  have hmem : c ∈ subclasses F.klasses (some s) :=
    List.mem_filter.mpr ⟨List.mem_of_find?_eq_some hc, by simpa using hsuper⟩
  have hchild := mem_subnames hmem
  rw [hname] at hchild
  exact F.noCycle _ (.single hchild)

theorem superclassOf_of_mem_superLinks {descriptionOf : Text → Text} {wbemNamespace t : Text}
    {a b : Node}
    (h : (a, Property.cimSubclass, b) ∈ superLinks F.klasses descriptionOf wbemNamespace t) :
    ∃ s, superclassOf F t = some s ∧ a = .tree s ∧ b = .tree t := by
  rw [superLinks] at h
  split at h
  · cases h
  · cases hsuper : superclassOf F t with
    | none =>
      rw [superclassOf] at hsuper
      rw [hsuper] at h
      cases h
    | some s =>
      rw [superclassOf] at hsuper
      rw [hsuper] at h
      simp only at h
      split at h
      · cases h
      · simp only [List.mem_cons, Prod.mk.injEq, true_and, reduceCtorEq, false_and, and_false,
          List.not_mem_nil, or_false] at h
        exact ⟨s, rfl, h⟩

/-- The page of the WBEM classes shows the tree of the instrumented classes, for every forest of
classes, from the roots or from any of its classes, with enough levels for the recursion. -/
theorem classPage_of_forest (hF : F.Named) (descriptionOf : Text → Text) (wbemNamespace : Text)
    {entityType : Text} (hunder : F.Under none (keyOf entityType)) (maxDepth : ℤ)
    (withYawnUrls : Bool) :
    ∃ N, ∀ n, N ≤ n → ∃ grph,
      main F.klasses instrCla descriptionOf wbemNamespace entityType maxDepth withYawnUrls n =
          some grph ∧
        ClassPage F instrCla entityType maxDepth grph := by
  obtain ⟨N, hN⟩ := makeInstrumentedRecu_filled F instrCla none
  refine ⟨N, fun n hn => ?_⟩
  obtain ⟨tree, htree, hfill⟩ := hN n hn [] fun q _ => rfl
  refine ⟨_, by rw [main, htree]; rfl, ?_⟩
  have hget (q : Option Text) (hq : F.Under (keyOf entityType) q) :
      (tree.get? q).getD [] = F.keptSubclasses instrCla q := by
    rw [hfill.below q (hunder.trans hq), getD_spec]
  have hlinks (a b : Node) : (a, Property.cimSubclass, b) ∈
      printClassRecu tree withYawnUrls maxDepth 0 (.tree entityType) entityType ++
        superLinks F.klasses descriptionOf wbemNamespace entityType ↔
      LabelTree.Edge (.tree entityType)
          (classPaths F instrCla (maxDepth + 1).toNat entityType) a b ∨
        (a, Property.cimSubclass, b) ∈
          superLinks F.klasses descriptionOf wbemNamespace entityType := by
    rw [List.mem_append, mem_printClassRecu hF hget (by rw [Int.sub_zero])]
  have hcls {a b : Node} (hab : LabelTree.Edge (.tree entityType)
      (classPaths F instrCla (maxDepth + 1).toNat entityType) a b) : ∃ name, b = .cls name := by
    obtain ⟨w, hw, hlast⟩ := LabelTree.exists_edge_iff.mp ⟨a, hab⟩
    obtain ⟨name, hname, -⟩ := getLast?_classPaths hF hw
    exact ⟨name, Option.some.inj (hlast.symm.trans hname)⟩
  have hroot {w : List Node}
      (hw : w ∈ classPaths F instrCla (maxDepth + 1).toNat entityType) :
      w.getLast? ≠ some (.tree entityType) := by
    obtain ⟨name, hname, -⟩ := getLast?_classPaths hF hw
    rw [hname]
    simp
  have hpaths := @isPaths_classPaths F instrCla (maxDepth + 1).toNat entityType
  have hnodup := @nodup_getLast?_classPaths F instrCla hF (maxDepth + 1).toNat entityType
  -- the link to the page of the class leaves the page of its superclass
  have hwalks (w : List Node) := LabelTree.isChain_congr_of_meets
    (P := fun a => a = .tree entityType ∨ ∃ name, a = .cls name)
    (fun a b ha => (hlinks a b).trans (or_iff_left fun hb => by
      obtain ⟨s, hs, rfl, -⟩ := superclassOf_of_mem_superLinks hb
      rcases ha with ha | ⟨name, ha⟩
      · exact superclassOf_ne hs (Node.tree.inj ha)
      · cases ha))
    (fun a b hab => .inr (hcls hab)) (.inl rfl) w
  refine ⟨fun w hw => ?_, fun a a' b hab hab' => ?_⟩
  · rw [hwalks, hpaths.isChain_iff hnodup (fun w => hroot) hw, mem_classPaths]
    refine exists_congr fun names => and_congr_right fun _ => and_congr_left fun _ => ?_
    omega
  · rcases (hlinks a b).mp hab with hedge | hsuper
    · rcases (hlinks a' b).mp hab' with hedge' | hsuper'
      · exact hedge.unique hnodup hedge'
      · obtain ⟨name, rfl⟩ := hcls hedge
        obtain ⟨s, -, -, hb⟩ := superclassOf_of_mem_superLinks hsuper'
        cases hb
    · obtain ⟨s, hs, rfl, rfl⟩ := superclassOf_of_mem_superLinks hsuper
      rcases (hlinks a' _).mp hab' with hedge' | hsuper'
      · obtain ⟨name, hb⟩ := hcls hedge'
        cases hb
      · obtain ⟨s', hs', rfl, -⟩ := superclassOf_of_mem_superLinks hsuper'
        rw [Option.some.inj (hs.symm.trans hs')]

end

/-- The class of the disks, and the one of the drives below it. -/
def diskClasses : List WbemClass :=
  [⟨"Disk".toList, none⟩, ⟨"DiskDrive".toList, some "Disk".toList⟩]

/-- The name of a class is longer than the one of its superclass. -/
theorem length_lt_of_child {p q : Option Text} (h : Child (subnames diskClasses) p q) :
    (p.getD []).length < (q.getD []).length := by
  have hall : ∀ c ∈ diskClasses, (c.superclass.getD []).length < c.classname.length := by decide
  obtain ⟨c, hc, rfl⟩ := List.mem_map.mp h
  obtain ⟨hmem, hp⟩ := List.mem_filter.mp hc
  rw [← of_decide_eq_true hp]
  exact hall c hmem

def diskForest : ClassForest where
  klasses := diskClasses
  nodup := by decide
  noCycle := by
    have hlt {p q : Option Text} (h : Relation.TransGen (Child (subnames diskClasses)) p q) :
        (p.getD []).length < (q.getD []).length := by
      induction h with
      | single h => exact length_lt_of_child h
      | tail _ h ih => exact ih.trans (length_lt_of_child h)
    exact fun p h => lt_irrefl _ (hlt h)

theorem named_diskForest : diskForest.Named := by
  show ∀ c ∈ diskClasses, c.classname ≠ []
  decide

theorem classPage_of_forest_disks :
    ∃ N, ∀ n, N ≤ n → ∃ grph,
      main diskForest.klasses ["DiskDrive".toList] id "root/cimv2".toList "Disk".toList 1 true n =
          some grph ∧
        ClassPage diskForest ["DiskDrive".toList] "Disk".toList 1 grph :=
  classPage_of_forest named_diskForest id _
    (.single (List.mem_map.mpr ⟨⟨"Disk".toList, none⟩, by decide, by decide⟩)) 1 true

end Survol.Wbem
