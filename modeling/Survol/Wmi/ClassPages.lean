import Survol.Lib.LabelTree
import Survol.Lib.Text
import Mathlib.Data.List.Dedup

/-!
# The page of the WMI classes

A WMI namespace gives its classes, and for each class the ones that it derives from. The page draws
the tree of the classes: each class is drawn with those above it, up to one that was already drawn.
What is drawn is kept by the program for all its pages.

## Main definitions

* `drawFromThisBase` — one class with those above it.
* `main` — the links of the page.
* `ClassPage` — the page shows the tree of the classes.

## Main results

* `classPage_main` — it does, whatever was drawn before.
-/

open PyText (Text)

namespace Survol.Wmi

/-! ## The code -/

/-- What WMI answers for a namespace: its classes, the classes that one derives from, from the
nearest one, and those that derive from one. -/
structure Namespace where
  classes : List Text
  derivation : Text → List Text
  subclassesOf : Text → List Text

/-- The addresses of a class, of the page of the classes below it, and of the class in general. -/
inductive Node
  | cls (clsNam : Text)
  | tree (clsNam : Text)
  | generalised (clsNam : Text)
  deriving DecidableEq

inductive Property
  | cimSubclass
  | rdfDataNolist1
  | rdfDataNolist2
  deriving DecidableEq

abbrev Link := Node × Property × Node

/-- The page, and the classes that were drawn. -/
structure State where
  doneNode : List Text
  grph : List Link

/-- The loop of `DrawFromThisBase` on the bases of a class. -/
def drawBases (previousNode : Text) : List Text → State → State
  | [], s => s
  | baseClassNam :: clsDeriv, s =>
    let grph := s.grph ++ [(.cls baseClassNam, .cimSubclass, .cls previousNode)]
    if baseClassNam ∈ s.doneNode then ⟨s.doneNode, grph⟩
    else drawBases baseClassNam clsDeriv ⟨baseClassNam :: s.doneNode, grph⟩

/-- `DrawFromThisBase` -/
def drawFromThisBase (rootNode : Node) (clsNam : Text) (clsDeriv : List Text) (s : State) :
    State :=
  let grph := s.grph ++ [(.cls clsNam, .rdfDataNolist1, .tree clsNam),
    (.cls clsNam, .rdfDataNolist2, .generalised clsNam)]
  let doneNode := clsNam :: s.doneNode
  if clsDeriv = [] then ⟨doneNode, grph ++ [(rootNode, .cimSubclass, .cls clsNam)]⟩
  else drawBases clsNam clsDeriv ⟨doneNode, grph⟩

/-- The loop of `Main` on all the classes. -/
def drawClasses (wmi : Namespace) (maxDepth : ℤ) : List Text → State → State
  | [], s => s
  | clsNam :: classes, s =>
    let clsDeriv := wmi.derivation clsNam
    drawClasses wmi maxDepth classes <|
      if clsDeriv.length < maxDepth then drawFromThisBase (.cls []) clsNam clsDeriv s else s

/-- The loop of `Main` on the classes below one. A class that is not below it raises an
exception. -/
def drawSubclasses (wmi : Namespace) (entityType : Text) (maxDepth : ℤ) :
    List Text → State → Option State
  | [], s => some s
  | clsNam :: classes, s =>
    let clsDeriv := wmi.derivation clsNam
    if entityType ∈ clsDeriv then
      let idxClass := clsDeriv.idxOf entityType
      let invertIdx : ℤ := clsDeriv.length - idxClass
      drawSubclasses wmi entityType maxDepth classes <|
        if clsDeriv.length < maxDepth + invertIdx then
          drawFromThisBase (.cls entityType) clsNam (clsDeriv.take idxClass) s
        else s
    else none

/-- `Main`, with the classes that were drawn for the pages before. -/
def main (wmi : Namespace) (entityType : Text) (maxDepth : ℤ) (doneNode : List Text) :
    Option State :=
  let s : State := ⟨doneNode, [(.cls entityType, .rdfDataNolist2, .generalised entityType)]⟩
  if entityType = [] then some (drawClasses wmi maxDepth wmi.classes s)
  else
    let topNode : Node := .tree ((wmi.derivation entityType).headD [])
    drawSubclasses wmi entityType maxDepth (wmi.subclassesOf entityType)
      { s with grph := s.grph ++ [(topNode, .cimSubclass, .cls entityType)] }

/-! ## The tree -/

/-- The classes have names, each one derives from a class and from what the latter derives from,
and the classes below the class of the page are those that derive from it. -/
structure Namespace.Derives (wmi : Namespace) (entityType : Text) : Prop where
  name : [] ∉ wmi.classes
  base : ∀ {c b : Text} {bs : List Text}, c ∈ wmi.classes → wmi.derivation c = b :: bs →
    b ∈ wmi.classes ∧ wmi.derivation b = bs
  subclasses : entityType ≠ [] → ∀ c, c ∈ wmi.subclassesOf entityType ↔
    c ∈ wmi.classes ∧ entityType ∈ wmi.derivation c

/-- The bases of a class below the class of the page. -/
def Namespace.basesBelow (wmi : Namespace) (entityType c : Text) : List Text :=
  (wmi.derivation c).take ((wmi.derivation c).idxOf entityType)

/-- The classes below the class of the page. -/
def Namespace.classesBelow (wmi : Namespace) (entityType : Text) : List Text :=
  if entityType = [] then wmi.classes else wmi.subclassesOf entityType

/-- The classes of the page: those that are not too deep. -/
def Namespace.Shown (wmi : Namespace) (entityType : Text) (maxDepth : ℤ) (c : Text) : Prop :=
  c ∈ wmi.classesBelow entityType ∧ (wmi.basesBelow entityType c).length < maxDepth

/-- The nodes on the way to a class. -/
def Namespace.path (wmi : Namespace) (entityType c : Text) : List Node :=
  (wmi.basesBelow entityType c).reverse.map .cls ++ [.cls c]

/-- The node above a class, with its bases. -/
def nodeAbove (entityType : Text) (bases : List Text) : Node := .cls (bases.headD entityType)

/-- The links of a class. -/
def linksOf (wmi : Namespace) (entityType c : Text) : List Link :=
  [(.cls c, .rdfDataNolist1, .tree c), (.cls c, .rdfDataNolist2, .generalised c),
    (nodeAbove entityType (wmi.basesBelow entityType c), .cimSubclass, .cls c)]

/-- The page shows the tree of the classes. -/
structure ClassPage (wmi : Namespace) (entityType : Text) (maxDepth : ℤ) (grph : List Link) :
    Prop where
  /-- The walks along the links, from the class of the page, go through the bases of a class that
  is shown, down to this class. -/
  walks : ∀ w, w ≠ [] →
    (List.IsChain (fun a b => (a, Property.cimSubclass, b) ∈ grph) (.cls entityType :: w) ↔
      ∃ c, wmi.Shown entityType maxDepth c ∧ wmi.path entityType c = w)
  /-- A class is reached by one link. -/
  parent : ∀ a a' b, (a, Property.cimSubclass, b) ∈ grph → (a', Property.cimSubclass, b) ∈ grph →
    a = a'
  /-- The class of the page is below the page of its nearest base, or of the namespace. -/
  above : ∀ a, (a, Property.cimSubclass, .cls entityType) ∈ grph ↔
    entityType ≠ [] ∧ a = .tree ((wmi.derivation entityType).headD [])
  /-- The classes that are shown have the page of the classes below them. -/
  trees : ∀ a b, (a, Property.rdfDataNolist1, b) ∈ grph ↔
    ∃ c, wmi.Shown entityType maxDepth c ∧ a = .cls c ∧ b = .tree c
  /-- The class of the page and those that are shown have their address in general. -/
  general : ∀ a b, (a, Property.rdfDataNolist2, b) ∈ grph ↔
    ∃ c, (c = entityType ∨ wmi.Shown entityType maxDepth c) ∧ a = .cls c ∧ b = .generalised c

section

variable {wmi : Namespace} {entityType : Text} {maxDepth : ℤ}

/-! ## The bases of a class -/

theorem mem_classes (h : wmi.Derives entityType) {c : Text}
    (hc : c ∈ wmi.classesBelow entityType) : c ∈ wmi.classes := by
  rw [Namespace.classesBelow] at hc
  split at hc
  · exact hc
  · rename_i hne
    exact ((h.subclasses hne c).mp hc).1

/-- A class does not derive from itself: its derivation would be longer than itself. -/
theorem not_mem_derivation (h : wmi.Derives entityType) {c : Text} (hc : c ∈ wmi.classes) :
    c ∉ wmi.derivation c := by
  have hbelow {c : Text} (hc : c ∈ wmi.classes) {pre post : List Text} {b : Text}
      (hd : wmi.derivation c = pre ++ b :: post) : wmi.derivation b = post := by
    induction pre generalizing c with
    | nil => exact (h.base hc hd).2
    | cons a pre ih =>
      obtain ⟨ha, hd'⟩ := h.base hc hd
      exact ih ha hd'
  intro hmem
  obtain ⟨pre, post, hd⟩ := List.append_of_mem hmem
  have hlen := congrArg List.length hd
  rw [hbelow hc hd, List.length_append, List.length_cons] at hlen
  omega

/-- The bases of a class are classes. -/
theorem mem_classes_of_mem_derivation (h : wmi.Derives entityType) {c b : Text}
    (hc : c ∈ wmi.classes) (hb : b ∈ wmi.derivation c) : b ∈ wmi.classes := by
  obtain ⟨bases, hbases⟩ : ∃ bases, wmi.derivation c = bases := ⟨_, rfl⟩
  rw [hbases] at hb
  induction bases generalizing c with
  | nil => cases hb
  | cons d bs ih =>
    obtain ⟨hd, hbs⟩ := h.base hc hbases
    rcases List.mem_cons.mp hb with rfl | hb
    · exact hd
    · exact ih hd hb hbs

/-- The class of the page is not shown below itself. -/
theorem ne_of_mem_classesBelow (h : wmi.Derives entityType) {c : Text}
    (hc : c ∈ wmi.classesBelow entityType) : c ≠ entityType := by
  rintro rfl
  rw [Namespace.classesBelow] at hc
  split at hc
  · rename_i hnil
    exact h.name (hnil ▸ hc)
  · rename_i hne
    obtain ⟨hmem, hderiv⟩ := (h.subclasses hne c).mp hc
    exact not_mem_derivation h hmem hderiv

/-- The nearest base of a class that is shown is shown too, with the other bases. -/
theorem shown_base (h : wmi.Derives entityType) {c b : Text} {bs : List Text}
    (hc : wmi.Shown entityType maxDepth c) (hbases : wmi.basesBelow entityType c = b :: bs) :
    wmi.Shown entityType maxDepth b ∧ wmi.basesBelow entityType b = bs := by
  obtain ⟨hmem, hdepth⟩ := hc
  have hcls := mem_classes h hmem
  obtain ⟨ds, hds⟩ : ∃ ds, wmi.derivation c = b :: ds := by
    rw [Namespace.basesBelow] at hbases
    cases hd : wmi.derivation c with
    | nil => simp [hd] at hbases
    | cons d ds =>
      cases hi : (d :: ds).idxOf entityType with
      | zero => simp [hd, hi] at hbases
      | succ i =>
        rw [hd, hi, List.take_succ_cons, List.cons.injEq] at hbases
        exact ⟨ds, by rw [hbases.1]⟩
  obtain ⟨hb, hbd⟩ := h.base hcls hds
  have hne : b ≠ entityType := by
    rintro rfl
    simp [Namespace.basesBelow, hds] at hbases
  have hidx : (b :: ds).idxOf entityType = ds.idxOf entityType + 1 :=
    List.idxOf_cons_ne _ hne
  have hbs : wmi.basesBelow entityType b = bs := by
    rw [Namespace.basesBelow, hds, hidx, List.take_succ_cons, List.cons.injEq] at hbases
    rw [Namespace.basesBelow, hbd, hbases.2]
  refine ⟨⟨?_, ?_⟩, hbs⟩
  · rw [Namespace.classesBelow] at hmem ⊢
    split
    · exact hb
    · rename_i hnil
      rw [if_neg hnil] at hmem
      have hderiv := ((h.subclasses hnil c).mp hmem).2
      rw [hds, List.mem_cons] at hderiv
      exact (h.subclasses hnil b).mpr ⟨hb, hbd ▸ hderiv.resolve_left hne.symm⟩
  · rw [hbases, List.length_cons] at hdepth
    rw [hbs]
    omega

/-! ## The links that are drawn -/

/-- The page keeps what it has, and gets links of classes that are shown only. -/
structure Draws (wmi : Namespace) (entityType : Text) (maxDepth : ℤ) (grph grph' : List Link) :
    Prop where
  kept : ∀ t ∈ grph, t ∈ grph'
  drawn : ∀ t ∈ grph', t ∈ grph ∨
    ∃ c, wmi.Shown entityType maxDepth c ∧ t ∈ linksOf wmi entityType c

theorem Draws.refl (grph : List Link) : Draws wmi entityType maxDepth grph grph where
  kept _ := id
  drawn _ := .inl

theorem Draws.trans {grph grph' grph'' : List Link} (h : Draws wmi entityType maxDepth grph grph')
    (h' : Draws wmi entityType maxDepth grph' grph'') :
    Draws wmi entityType maxDepth grph grph'' where
  kept t ht := h'.kept t (h.kept t ht)
  drawn t ht := (h'.drawn t ht).elim (h.drawn t) .inr

theorem Draws.append {grph links : List Link} {c : Text} (hc : wmi.Shown entityType maxDepth c)
    (h : ∀ t ∈ links, t ∈ linksOf wmi entityType c) :
    Draws wmi entityType maxDepth grph (grph ++ links) where
  kept _ := List.mem_append_left links
  drawn t ht := (List.mem_append.mp ht).imp id fun hmem => ⟨c, hc, h t hmem⟩

/-- The link from the nearest base of a class. -/
theorem link_base_mem {c b : Text} {bs : List Text}
    (hbases : wmi.basesBelow entityType c = b :: bs) :
    (.cls b, .cimSubclass, .cls c) ∈ linksOf wmi entityType c := by
  simp [linksOf, nodeAbove, hbases]

/-- The loop draws links of classes that are shown, and at least the one to the class that it
starts from, even when the base was drawn before. -/
theorem drawBases_draws (h : wmi.Derives entityType) {bases : List Text} {c : Text} (s : State)
    (hc : wmi.Shown entityType maxDepth c) (hbases : wmi.basesBelow entityType c = bases) :
    Draws wmi entityType maxDepth s.grph (drawBases c bases s).grph ∧
      ∀ b bs, bases = b :: bs → (.cls b, .cimSubclass, .cls c) ∈ (drawBases c bases s).grph := by
  induction bases generalizing c s with
  | nil => exact ⟨.refl _, by simp⟩
  | cons b bs ih =>
    have hlink : Draws wmi entityType maxDepth s.grph
        (s.grph ++ [(.cls b, .cimSubclass, .cls c)]) := by
      refine .append hc fun t ht => ?_
      rw [List.mem_singleton.mp ht]
      exact link_base_mem hbases
    have hmem : (Node.cls b, Property.cimSubclass, Node.cls c) ∈
        s.grph ++ [(.cls b, .cimSubclass, .cls c)] := by
      simp
    rw [drawBases]
    split
    · exact ⟨hlink, fun b' bs' heq => (List.cons.inj heq).1 ▸ hmem⟩
    · obtain ⟨hb, hbs⟩ := shown_base h hc hbases
      obtain ⟨hdraws, -⟩ := ih ⟨b :: s.doneNode, s.grph ++ [(.cls b, .cimSubclass, .cls c)]⟩ hb hbs
      exact ⟨hlink.trans hdraws,
        fun b' bs' heq => (List.cons.inj heq).1 ▸ hdraws.kept _ hmem⟩

/-- A class that is drawn gets all its links. -/
theorem drawFromThisBase_draws (h : wmi.Derives entityType) {c : Text} (s : State)
    (hc : wmi.Shown entityType maxDepth c) :
    Draws wmi entityType maxDepth s.grph
        (drawFromThisBase (.cls entityType) c (wmi.basesBelow entityType c) s).grph ∧
      ∀ t ∈ linksOf wmi entityType c,
        t ∈ (drawFromThisBase (.cls entityType) c (wmi.basesBelow entityType c) s).grph := by
  have hown : Draws wmi entityType maxDepth s.grph (s.grph ++
      [(.cls c, .rdfDataNolist1, .tree c), (.cls c, .rdfDataNolist2, .generalised c)]) := by
    refine .append hc fun t ht => ?_
    simp only [List.mem_cons, List.not_mem_nil, or_false] at ht
    rcases ht with rfl | rfl <;> simp [linksOf]
  rw [drawFromThisBase]
  split
  · rename_i hnil
    refine ⟨hown.trans (.append hc fun t ht => ?_), fun t ht => ?_⟩
    · rw [List.mem_singleton.mp ht]
      simp [linksOf, nodeAbove, hnil]
    · rw [linksOf, nodeAbove, hnil] at ht
      rw [List.append_assoc]
      exact List.mem_append_right _ ht
  · rename_i hne
    obtain ⟨b, bs, hbases⟩ := List.exists_cons_of_ne_nil hne
    obtain ⟨hdraws, hfirst⟩ := drawBases_draws h ⟨c :: s.doneNode, s.grph ++
      [(.cls c, .rdfDataNolist1, .tree c), (.cls c, .rdfDataNolist2, .generalised c)]⟩ hc rfl
    refine ⟨hown.trans hdraws, fun t ht => ?_⟩
    simp only [linksOf, List.mem_cons, List.not_mem_nil, or_false] at ht
    rcases ht with rfl | rfl | rfl
    · exact hdraws.kept _ (by simp)
    · exact hdraws.kept _ (by simp)
    · rw [hbases, nodeAbove, List.headD_cons, ← hbases]
      exact hfirst b bs hbases

/-- A class of one of the two loops. -/
theorem drawn_if (h : wmi.Derives entityType) {c : Text} (s : State)
    (hc : c ∈ wmi.classesBelow entityType) {P : Prop} [Decidable P]
    (hP : P ↔ (wmi.basesBelow entityType c).length < maxDepth) :
    let s' := if P then
      drawFromThisBase (.cls entityType) c (wmi.basesBelow entityType c) s else s
    Draws wmi entityType maxDepth s.grph s'.grph ∧
      (wmi.Shown entityType maxDepth c → ∀ t ∈ linksOf wmi entityType c, t ∈ s'.grph) := by
  split
  · rename_i hlt
    obtain ⟨hdraws, hlinks⟩ := drawFromThisBase_draws h s ⟨hc, hP.mp hlt⟩
    exact ⟨hdraws, fun _ => hlinks⟩
  · rename_i hlt
    exact ⟨.refl _, fun hshown => absurd (hP.mpr hshown.2) hlt⟩

/-- All the classes of the namespace. -/
theorem drawClasses_draws (h : wmi.Derives []) {classes : List Text} (s : State)
    (hsub : ∀ c ∈ classes, c ∈ wmi.classes) :
    Draws wmi [] maxDepth s.grph (drawClasses wmi maxDepth classes s).grph ∧
      ∀ c ∈ classes, wmi.Shown [] maxDepth c →
        ∀ t ∈ linksOf wmi [] c, t ∈ (drawClasses wmi maxDepth classes s).grph := by
  induction classes generalizing s with
  | nil => exact ⟨.refl _, by simp⟩
  | cons c classes ih =>
    have hc := hsub c List.mem_cons_self
    -- no class is the one without a name: all the bases are below the root
    have hnone : [] ∉ wmi.derivation c :=
      fun hmem => h.name (mem_classes_of_mem_derivation h hc hmem)
    have hbases : wmi.basesBelow [] c = wmi.derivation c := by
      rw [Namespace.basesBelow, List.idxOf_of_notMem hnone, List.take_length]
    obtain ⟨hdraws, hlinks⟩ := @drawn_if wmi [] maxDepth h c s hc
      ((wmi.derivation c).length < maxDepth) _ (by rw [hbases])
    rw [hbases] at hdraws hlinks
    obtain ⟨hrest, hlinks'⟩ := ih (if (wmi.derivation c).length < maxDepth then
      drawFromThisBase (.cls []) c (wmi.derivation c) s else s)
      fun d hd => hsub d (List.mem_cons_of_mem _ hd)
    rw [drawClasses]
    refine ⟨hdraws.trans hrest, fun d hd hshown t ht => ?_⟩
    rcases List.mem_cons.mp hd with rfl | hd
    · exact hrest.kept t (hlinks hshown t ht)
    · exact hlinks' d hd hshown t ht

/-- The classes below one. -/
theorem drawSubclasses_draws (h : wmi.Derives entityType) (hne : entityType ≠ [])
    {classes : List Text} (s : State) (hsub : ∀ c ∈ classes, c ∈ wmi.subclassesOf entityType) :
    ∃ s', drawSubclasses wmi entityType maxDepth classes s = some s' ∧
      Draws wmi entityType maxDepth s.grph s'.grph ∧
      ∀ c ∈ classes, wmi.Shown entityType maxDepth c →
        ∀ t ∈ linksOf wmi entityType c, t ∈ s'.grph := by
  induction classes generalizing s with
  | nil => exact ⟨s, rfl, .refl _, by simp⟩
  | cons c classes ih =>
    have hc := hsub c List.mem_cons_self
    have hderiv := ((h.subclasses hne c).mp hc).2
    have hlen : (wmi.basesBelow entityType c).length = (wmi.derivation c).idxOf entityType := by
      rw [Namespace.basesBelow, List.length_take_of_le List.idxOf_le_length]
    obtain ⟨hdraws, hlinks⟩ := @drawn_if wmi entityType maxDepth h c s
      (by rwa [Namespace.classesBelow, if_neg hne])
      ((wmi.derivation c).length < maxDepth +
        ((wmi.derivation c).length - (wmi.derivation c).idxOf entityType : ℤ)) _
      (by rw [hlen]; omega)
    obtain ⟨s', hs', hrest, hlinks'⟩ := ih _ fun d hd => hsub d (List.mem_cons_of_mem _ hd)
    refine ⟨s', ?_, hdraws.trans hrest, fun d hd hshown t ht => ?_⟩
    · rw [drawSubclasses, if_pos hderiv]
      exact hs'
    · rcases List.mem_cons.mp hd with rfl | hd
      · exact hrest.kept t (hlinks hshown t ht)
      · exact hlinks' d hd hshown t ht

/-- The links that the page has before the classes are drawn. -/
def firstLinks (wmi : Namespace) (entityType : Text) : List Link :=
  (.cls entityType, .rdfDataNolist2, .generalised entityType) ::
    if entityType = [] then []
    else [(.tree ((wmi.derivation entityType).headD []), .cimSubclass, .cls entityType)]

/-- The page has its first links and all those of the classes that are shown. -/
theorem main_links (h : wmi.Derives entityType) (doneNode : List Text) :
    ∃ s, main wmi entityType maxDepth doneNode = some s ∧
      ∀ t, t ∈ s.grph ↔ t ∈ firstLinks wmi entityType ∨
        ∃ c, wmi.Shown entityType maxDepth c ∧ t ∈ linksOf wmi entityType c := by
  by_cases hnil : entityType = []
  · subst hnil
    obtain ⟨hdraws, hlinks⟩ := @drawClasses_draws wmi maxDepth h wmi.classes
      ⟨doneNode, firstLinks wmi []⟩ fun c => id
    refine ⟨_, rfl, fun t => ⟨hdraws.drawn t, ?_⟩⟩
    rintro (ht | ⟨c, hc, ht⟩)
    · exact hdraws.kept t ht
    · exact hlinks c hc.1 hc t ht
  · obtain ⟨s, hs, hdraws, hlinks⟩ := @drawSubclasses_draws wmi entityType maxDepth h hnil
      (wmi.subclassesOf entityType) ⟨doneNode, firstLinks wmi entityType⟩ fun c => id
    refine ⟨s, ?_, fun t => ⟨hdraws.drawn t, ?_⟩⟩
    · rw [firstLinks, if_neg hnil] at hs
      rw [main, if_neg hnil]
      exact hs
    · rintro (ht | ⟨c, hc, ht⟩)
      · exact hdraws.kept t ht
      · refine hlinks c ?_ hc t ht
        have hmem := hc.1
        rwa [Namespace.classesBelow, if_neg hnil] at hmem

/-! ## The tree of the page -/

/-- The paths of the classes that are shown. -/
def shownPaths (wmi : Namespace) (entityType : Text) (maxDepth : ℤ) : List (List Node) :=
  ((wmi.classesBelow entityType).dedup.filter fun c =>
    (wmi.basesBelow entityType c).length < maxDepth).map (wmi.path entityType)

theorem mem_shownPaths {w : List Node} : w ∈ shownPaths wmi entityType maxDepth ↔
    ∃ c, wmi.Shown entityType maxDepth c ∧ wmi.path entityType c = w := by
  simp [shownPaths, Namespace.Shown]

theorem getLast?_path (c : Text) : (wmi.path entityType c).getLast? = some (.cls c) := by
  simp [Namespace.path]

/-- Different classes are different nodes. -/
theorem nodup_getLast?_shownPaths :
    ((shownPaths wmi entityType maxDepth).map List.getLast?).Nodup := by
  rw [shownPaths, List.map_map]
  refine ((List.nodup_dedup _).filter _).map fun c c' heq => ?_
  rw [Function.comp_apply, Function.comp_apply, getLast?_path, getLast?_path,
    Option.some.injEq, Node.cls.injEq] at heq
  exact heq

theorem getLast?_shownPaths_ne_root (h : wmi.Derives entityType) {w : List Node}
    (hw : w ∈ shownPaths wmi entityType maxDepth) : w.getLast? ≠ some (.cls entityType) := by
  obtain ⟨c, hc, rfl⟩ := mem_shownPaths.mp hw
  rw [getLast?_path, Ne, Option.some.injEq, Node.cls.injEq]
  exact ne_of_mem_classesBelow h hc.1

theorem isPaths_shownPaths (h : wmi.Derives entityType) :
    LabelTree.IsPaths (shownPaths wmi entityType maxDepth) where
  ne_nil := by
    intro hnil
    obtain ⟨c, -, hpath⟩ := mem_shownPaths.mp hnil
    simp [Namespace.path] at hpath
  parent := by
    intro w b hw
    obtain ⟨c, hc, hpath⟩ := mem_shownPaths.mp hw
    obtain ⟨rfl, -⟩ := List.append_inj' hpath rfl
    cases hbases : wmi.basesBelow entityType c with
    | nil => exact .inl rfl
    | cons b bs =>
      obtain ⟨hb, hbs⟩ := shown_base h hc hbases
      refine .inr (mem_shownPaths.mpr ⟨b, hb, ?_⟩)
      rw [Namespace.path, hbs]
      simp

theorem edge_iff {a b : Node} :
    LabelTree.Edge (.cls entityType) (shownPaths wmi entityType maxDepth) a b ↔
      ∃ c, wmi.Shown entityType maxDepth c ∧
        a = nodeAbove entityType (wmi.basesBelow entityType c) ∧ b = .cls c := by
  have hlast (bases : List Text) : (Node.cls entityType :: bases.reverse.map .cls).getLast? =
      some (nodeAbove entityType bases) := by
    cases bases with
    | nil => rfl
    | cons b bs => simp [nodeAbove, List.getLast?_cons]
  constructor
  · rintro ⟨w, hw, ha⟩
    obtain ⟨c, hc, hpath⟩ := mem_shownPaths.mp hw
    obtain ⟨rfl, hb⟩ := List.append_inj' hpath rfl
    rw [hlast, Option.some.injEq] at ha
    exact ⟨c, hc, ha.symm, (List.singleton_inj.mp hb).symm⟩
  · rintro ⟨c, hc, rfl, rfl⟩
    exact ⟨_, mem_shownPaths.mpr ⟨c, hc, rfl⟩, hlast _⟩

/-- The links between the classes are the edges of the tree, and the one above its root. -/
theorem mem_cimSubclass {grph : List Link} (hgrph : ∀ t, t ∈ grph ↔
      t ∈ firstLinks wmi entityType ∨
        ∃ c, wmi.Shown entityType maxDepth c ∧ t ∈ linksOf wmi entityType c) (a b : Node) :
    (a, Property.cimSubclass, b) ∈ grph ↔
      (entityType ≠ [] ∧ a = .tree ((wmi.derivation entityType).headD []) ∧
        b = .cls entityType) ∨
      LabelTree.Edge (.cls entityType) (shownPaths wmi entityType maxDepth) a b := by
  have hfirst : (a, Property.cimSubclass, b) ∈ firstLinks wmi entityType ↔
      entityType ≠ [] ∧ a = .tree ((wmi.derivation entityType).headD []) ∧
        b = .cls entityType := by
    rw [firstLinks]
    split <;> simp [*]
  rw [hgrph, hfirst, edge_iff]
  simp [linksOf]

/-- The page of the WMI classes shows their tree, from the class of the page and down to the depth
that is asked, whatever was drawn for the pages before it. -/
theorem classPage_main (h : wmi.Derives entityType) (doneNode : List Text) :
    ∃ s, main wmi entityType maxDepth doneNode = some s ∧
      ClassPage wmi entityType maxDepth s.grph := by
  obtain ⟨s, hs, hgrph⟩ := @main_links wmi entityType maxDepth h doneNode
  have hlinks := mem_cimSubclass hgrph
  have hroot {a b : Node}
      (hab : LabelTree.Edge (.cls entityType) (shownPaths wmi entityType maxDepth) a b) :
      b ≠ .cls entityType := by
    obtain ⟨c, hc, -, rfl⟩ := edge_iff.mp hab
    intro heq
    exact ne_of_mem_classesBelow h hc.1 (Node.cls.inj heq)
  -- the link above the class of the page leaves no class
  have hwalks (w : List Node) := LabelTree.isChain_congr_of_meets (P := fun a => ∃ c, a = .cls c)
    (fun a b ha => (hlinks a b).trans (or_iff_right fun hb => by
      obtain ⟨c, rfl⟩ := ha
      cases hb.2.1))
    (fun a b hab => (edge_iff.mp hab).imp fun c hc => hc.2.2) ⟨entityType, rfl⟩ w
  refine ⟨s, hs, fun w hw => ?_, fun a a' b hab hab' => ?_, fun a => ?_, fun a b => ?_,
    fun a b => ?_⟩
  · rw [hwalks, (isPaths_shownPaths h).isChain_iff nodup_getLast?_shownPaths
      (fun w => getLast?_shownPaths_ne_root h) hw, mem_shownPaths]
  · rcases (hlinks a b).mp hab with ⟨-, rfl, hb⟩ | hedge
    · rcases (hlinks a' b).mp hab' with ⟨-, rfl, -⟩ | hedge'
      · rfl
      · exact absurd hb (hroot hedge')
    · rcases (hlinks a' b).mp hab' with ⟨-, -, hb⟩ | hedge'
      · exact absurd hb (hroot hedge)
      · exact hedge.unique nodup_getLast?_shownPaths hedge'
  · rw [hlinks]
    constructor
    · rintro (⟨hne, ha, -⟩ | hedge)
      · exact ⟨hne, ha⟩
      · exact absurd rfl (hroot hedge)
    · rintro ⟨hne, ha⟩
      exact .inl ⟨hne, ha, rfl⟩
  · rw [hgrph]
    have hfirst : (a, Property.rdfDataNolist1, b) ∉ firstLinks wmi entityType := by
      rw [firstLinks]
      split <;> simp
    simp [hfirst, linksOf]
  · rw [hgrph]
    have hfirst : (a, Property.rdfDataNolist2, b) ∈ firstLinks wmi entityType ↔
        a = .cls entityType ∧ b = .generalised entityType := by
      rw [firstLinks]
      split <;> simp
    simp only [hfirst, linksOf, List.mem_cons, Prod.mk.injEq, List.not_mem_nil, or_false,
      reduceCtorEq, false_and, and_false, false_or, true_and, or_and_right, exists_or,
      exists_eq_left]

end

/-- What some devices derive from. -/
def deviceDerivation (c : Text) : List Text :=
  if c = "USB".toList then ["Hub".toList, "Dev".toList]
  else if c = "Hub".toList then ["Dev".toList] else []

/-- The classes of some devices. -/
def deviceClasses : Namespace where
  classes := ["Dev".toList, "Hub".toList, "USB".toList]
  derivation := deviceDerivation
  subclassesOf e := ["Dev".toList, "Hub".toList, "USB".toList].filter (e ∈ deviceDerivation ·)

theorem derives_deviceClasses (entityType : Text) : deviceClasses.Derives entityType where
  name := by decide
  base := by
    intro c b bs hc hd
    have hall : ∀ c ∈ deviceClasses.classes, ∀ b ∈ (deviceDerivation c).head?,
        b ∈ deviceClasses.classes ∧ deviceDerivation b = (deviceDerivation c).tail := by
      decide
    replace hd : deviceDerivation c = b :: bs := hd
    obtain ⟨hb, hbs⟩ := hall c hc b (by rw [hd]; rfl)
    exact ⟨hb, hbs.trans (by rw [hd]; rfl)⟩
  subclasses := fun _ c => by simp [deviceClasses]

theorem classPage_main_deviceClasses :
    ∃ s, main deviceClasses "Dev".toList 2 ["Hub".toList] = some s ∧
      ClassPage deviceClasses "Dev".toList 2 s.grph :=
  classPage_main (derives_deviceClasses _) _

end Survol.Wmi
