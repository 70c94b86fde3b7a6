import Survol.Lib.LabelTree
import Survol.Lib.Positions
import Survol.Lib.Splitting

/-!
# The tree of the classes

The classes are the directories of the sources. The page of the object types links the root to the
classes, and each class to those of its sub-directories, by the slashes of their names.

## Main definitions

* `objectTypesNoCache` — the classes, as `os.walk` finds them.
* `objtypes` — the links and the documentations of the page.
* `shownPaths` — the paths of the directories from the root.

## Main results

* `classTree_objtypes` — the page has the tree of the directories, and each class has the
  documentations of all the classes below it.
-/

open PyText (Text find? findIdx splitOn)

namespace Survol.Menus

/-! ## The code -/

/-- The name of a directory. The code takes the back-slashes of a path for slashes: no name has
any. -/
abbrev FolderName := {name : Text // name ≠ [] ∧ '/' ∉ name ∧ '\\' ∉ name}

/-- Some directories: the name of the first one, what it contains, and the other ones. -/
inductive Folders
  | nil
  | cons (name : FolderName) (content rest : Folders)

def pycache : Text := "__pycache__".toList

/-- The loop on the names that `os.walk` gives for one directory. -/
def typesOf (above : Text) : Folders → List Text
  | .nil => []
  | .cons name _ rest =>
    if name.1 ≠ pycache then (above ++ name.1) :: typesOf above rest else typesOf above rest

/-- What `os.walk` gives for the directories below one. -/
def typesBelow (above : Text) : Folders → List Text
  | .nil => []
  | .cons name content rest =>
    typesOf (above ++ name.1 ++ ['/']) content ++
      (typesBelow (above ++ name.1 ++ ['/']) content ++ typesBelow above rest)

/-- `ObjectTypesNoCache` -/
def objectTypesNoCache (dirs : Folders) : List Text := typesOf [] dirs ++ typesBelow [] dirs

/-- The root of the page, and the addresses of the classes. -/
inductive ClassNode
  | root
  | cls (entityType : Text)
  deriving DecidableEq

theorem find?_bounds {s : Text} {i j : ℕ} (h : find? s ['/'] i = some j) :
    i ≤ j ∧ j < s.length := by
  obtain ⟨k, hk, rfl⟩ := Option.map_eq_some_iff.mp h
  obtain ⟨t, ht⟩ := PyText.prefix_of_findIdx hk
  have hlen := congrArg List.length ht
  rw [List.drop_drop, List.length_append, List.length_drop, List.length_singleton] at hlen
  omega

/-- The loop of `objtypes.py` on the slashes of a class: its links. -/
def linkClasses (entityType : Text) (tmpNode : ClassNode) (idx : ℕ) :
    List (ClassNode × ClassNode) :=
  match _h : find? entityType ['/'] (idx + 1) with
  | none => [(tmpNode, .cls entityType)]
  | some nextSlash =>
    (tmpNode, .cls (entityType.take nextSlash)) ::
      linkClasses entityType (.cls (entityType.take nextSlash)) nextSlash
termination_by entityType.length - idx
decreasing_by
  have := find?_bounds _h
  omega

/-- The page: the links between the classes, and their documentations. -/
structure Page where
  links : List (ClassNode × ClassNode)
  informations : List (ClassNode × Text)

/-- The page of the object types. Each class on the way to a class gets the documentation of the
latter, if its module has one. -/
def objtypes (docOf : Text → Text) (entityTypes : List Text) : Page where
  links := entityTypes.flatMap fun entityType => linkClasses entityType .root 0
  informations := entityTypes.flatMap fun entityType =>
    if docOf entityType = [] then []
    else (linkClasses entityType .root 0).map fun link => (link.2, docOf entityType)

/-! ## The directories -/

/-- The names of the directories. -/
def Folders.names : Folders → List FolderName
  | .nil => []
  | .cons name _ rest => name :: rest.names

/-- The directories in a directory have different names. -/
def Folders.Distinct : Folders → Prop
  | .nil => True
  | .cons name content rest => name ∉ rest.names ∧ content.Distinct ∧ rest.Distinct

/-- The classes, by the names of their directories. -/
def typeParts : Folders → List (List FolderName)
  | .nil => []
  | .cons name content rest =>
    (if name.1 ≠ pycache then [[name]] else []) ++
      ((typeParts content).map (name :: ·) ++ typeParts rest)

/-- The directories that are classes, or that have classes below them. -/
def shownParts : Folders → List (List FolderName)
  | .nil => []
  | .cons name content rest =>
    (if name.1 ≠ pycache ∨ typeParts content ≠ [] then
      [name] :: (shownParts content).map (name :: ·) else []) ++ shownParts rest

/-- The name of the class of a directory. -/
def className (above : Text) (parts : List FolderName) : Text :=
  above ++ ['/'].intercalate (parts.map Subtype.val)

/-- The classes from the root to a directory. -/
def nodesOf (above : Text) : List FolderName → List ClassNode
  | [] => []
  | name :: parts => .cls (above ++ name.1) :: nodesOf (above ++ name.1 ++ ['/']) parts

/-- The paths of the directories. -/
def shownPaths (above : Text) (dirs : Folders) : List (List ClassNode) :=
  (shownParts dirs).map (nodesOf above)

/-- The links on the way to a class. -/
def linksOf (tmpNode : ClassNode) (above : Text) : List FolderName → List (ClassNode × ClassNode)
  | [] => []
  | name :: parts =>
    (tmpNode, .cls (above ++ name.1)) ::
      linksOf (.cls (above ++ name.1)) (above ++ name.1 ++ ['/']) parts

/-! ## The classes -/

theorem className_singleton (above : Text) (name : FolderName) :
    className above [name] = above ++ name.1 := by
  simp [className]

/-- The name of a class below a directory. -/
theorem className_cons {parts : List FolderName} (h : parts ≠ []) (above : Text)
    (name : FolderName) :
    className above (name :: parts) = className (above ++ name.1 ++ ['/']) parts := by
  obtain ⟨n, parts, rfl⟩ := List.exists_cons_of_ne_nil h
  simp [className, List.intercalate]

theorem typeParts_ne_nil {dirs : Folders} {parts : List FolderName} (h : parts ∈ typeParts dirs) :
    parts ≠ [] := by
  induction dirs generalizing parts with
  | nil => cases h
  | cons name content rest _ ihrest =>
    rw [typeParts, List.mem_append, List.mem_append] at h
    rcases h with h | h | h
    · split at h
      · rw [List.mem_singleton.mp h]
        exact List.cons_ne_nil _ _
      · cases h
    · obtain ⟨ps, -, rfl⟩ := List.mem_map.mp h
      exact List.cons_ne_nil _ _
    · exact ihrest h

/-- The classes that `os.walk` finds are those of the directories. -/
theorem mem_types_iff {dirs : Folders} {above t : Text} :
    t ∈ typesOf above dirs ++ typesBelow above dirs ↔
      ∃ parts ∈ typeParts dirs, className above parts = t := by
  induction dirs generalizing above t with
  | nil => simp [typesOf, typesBelow, typeParts]
  | cons name content rest ihcontent ihrest =>
    have hcontent : t ∈ typesOf (above ++ name.1 ++ ['/']) content ++
        typesBelow (above ++ name.1 ++ ['/']) content ↔
          ∃ parts ∈ (typeParts content).map (name :: ·), className above parts = t := by
      rw [ihcontent]
      constructor
      · rintro ⟨parts, hparts, rfl⟩
        exact ⟨_, List.mem_map_of_mem hparts, className_cons (typeParts_ne_nil hparts) above name⟩
      · rintro ⟨_, hmem, rfl⟩
        obtain ⟨parts, hparts, rfl⟩ := List.mem_map.mp hmem
        exact ⟨parts, hparts, (className_cons (typeParts_ne_nil hparts) above name).symm⟩
    have hname : t ∈ typesOf above (.cons name content rest) ↔
        (∃ parts ∈ (if name.1 ≠ pycache then [[name]] else []), className above parts = t) ∨
          t ∈ typesOf above rest := by
      rw [typesOf]
      split
      · simp [className_singleton, eq_comm]
      · simp
    have hrest := @ihrest above t
    rw [List.mem_append] at hcontent hrest
    rw [List.mem_append, hname, typesBelow, typeParts]
    simp only [List.mem_append, or_and_right, exists_or]
    rw [← hcontent, ← hrest]
    simp only [or_assoc, or_left_comm, or_comm]

/-! ## The links of a class -/

theorem find?_slash {n : Text} (h : '/' ∉ n) (rest : Text) {q : ℕ} (hq : q ≤ n.length) :
    find? (n ++ '/' :: rest) ['/'] q = some n.length := by
  have hdrop : '/' ∉ n.drop q := fun hmem => h (List.mem_of_mem_drop hmem)
  rw [find?, List.drop_append_of_le_length hq, PyText.findIdx_char hdrop, Option.map_some,
    List.length_drop, Nat.add_sub_cancel' hq]

theorem find?_no_slash {n : Text} (h : '/' ∉ n) (q : ℕ) : find? n ['/'] q = none := by
  rw [find?, Option.map_eq_none_iff, PyText.findIdx_eq_none_iff (by simp)]
  intro hsub
  exact h (List.mem_of_mem_drop (hsub.mem (List.mem_singleton_self '/')))

/-- The links of a class are those on the way to it. The next slash is searched from the start of
a name, or from its second character. -/
theorem linkClasses_eq {parts : List FolderName} (hne : parts ≠ []) (above : Text)
    (tmpNode : ClassNode) {idx : ℕ} (hidx : above.length ≤ idx + 1)
    (hidx' : idx ≤ above.length) :
    linkClasses (className above parts) tmpNode idx = linksOf tmpNode above parts := by
  obtain ⟨q, hq⟩ := Nat.exists_eq_add_of_le hidx
  induction parts generalizing above tmpNode idx q with
  | nil => exact absurd rfl hne
  | cons name parts ih =>
    have hlen : 0 < name.1.length := List.length_pos_iff.mpr name.2.1
    have hle : q ≤ name.1.length := by omega
    by_cases hparts : parts = []
    · subst hparts
      have hfind : find? (above ++ name.1) ['/'] (idx + 1) = none := by
        rw [hq, PyText.find?_append, find?_no_slash name.2.2.1, Option.map_none]
      rw [linkClasses, className_singleton]
      split
      · rfl
      · rename_i j hj
        rw [hfind] at hj
        cases hj
    · obtain ⟨rest, hrest⟩ : ∃ rest, className (above ++ name.1 ++ ['/']) parts =
          above ++ (name.1 ++ '/' :: rest) := ⟨['/'].intercalate (parts.map Subtype.val), by
            simp [className]⟩
      have hfind : find? (above ++ (name.1 ++ '/' :: rest)) ['/'] (idx + 1) =
          some (above.length + name.1.length) := by
        rw [hq, PyText.find?_append, find?_slash name.2.2.1 rest hle, Option.map_some]
      have htake : (above ++ (name.1 ++ '/' :: rest)).take (above.length + name.1.length) =
          above ++ name.1 := by
        rw [← List.append_assoc, ← List.length_append, List.take_left]
      have hnext := @ih hparts (above ++ name.1 ++ ['/']) (.cls (above ++ name.1))
        (above.length + name.1.length)
        (by simp [Nat.add_assoc]) (by simp) 0 (by simp [Nat.add_assoc])
      rw [hrest] at hnext
      rw [className_cons hparts, hrest, linkClasses, linksOf]
      split
      · rename_i hnone
        rw [hfind] at hnone
        cases hnone
      · rename_i j hj
        rw [hfind, Option.some.injEq] at hj
        subst hj
        rw [htake, hnext]

/-! ## The tree -/

theorem nodesOf_cons_map (above : Text) (name : FolderName) (l : List (List FolderName)) :
    (l.map (name :: ·)).map (nodesOf above) =
      (l.map (nodesOf (above ++ name.1 ++ ['/']))).map (.cls (above ++ name.1) :: ·) := by
  simp [nodesOf, Function.comp_def]

theorem shownPaths_nil (above : Text) : shownPaths above .nil = [] := rfl

theorem shownPaths_cons (above : Text) (name : FolderName) (content rest : Folders) :
    shownPaths above (.cons name content rest) =
      (if name.1 ≠ pycache ∨ typeParts content ≠ [] then
        [.cls (above ++ name.1)] ::
          (shownPaths (above ++ name.1 ++ ['/']) content).map (.cls (above ++ name.1) :: ·)
        else []) ++ shownPaths above rest := by
  rw [shownPaths, shownParts, List.map_append]
  congr 1
  split
  · rw [List.map_cons, nodesOf_cons_map]
    rfl
  · rfl

theorem isPaths_shownPaths (dirs : Folders) (above : Text) :
    LabelTree.IsPaths (shownPaths above dirs) := by
  induction dirs generalizing above with
  | nil => exact LabelTree.IsPaths.nil
  | cons name content rest ihcontent ihrest =>
    rw [shownPaths_cons]
    refine LabelTree.IsPaths.append ?_ (ihrest above)
    split
    · exact LabelTree.IsPaths.cons_map (ihcontent _)
    · exact LabelTree.IsPaths.nil

/-- The links on the ways to the classes are the edges of the tree. -/
theorem exists_linksOf_iff {dirs : Folders} {above : Text} {r a b : ClassNode} :
    (∃ parts ∈ typeParts dirs, (a, b) ∈ linksOf r above parts) ↔
      LabelTree.Edge r (shownPaths above dirs) a b := by
  induction dirs generalizing above r with
  | nil => simp [typeParts, shownPaths_nil, LabelTree.edge_nil]
  | cons name content rest ihcontent ihrest =>
    have hcontent : (∃ parts ∈ (typeParts content).map (name :: ·),
        (a, b) ∈ linksOf r above parts) ↔
          (typeParts content ≠ [] ∧ a = r ∧ b = .cls (above ++ name.1)) ∨
            LabelTree.Edge (.cls (above ++ name.1)) (shownPaths (above ++ name.1 ++ ['/']) content)
              a b := by
      rw [← ihcontent]
      constructor
      · rintro ⟨_, hmap, hmem⟩
        obtain ⟨parts, hparts, rfl⟩ := List.mem_map.mp hmap
        rcases List.mem_cons.mp hmem with heq | hmem
        · obtain ⟨rfl, rfl⟩ := Prod.mk.inj heq
          exact .inl ⟨List.ne_nil_of_mem hparts, rfl, rfl⟩
        · exact .inr ⟨parts, hparts, hmem⟩
      · rintro (⟨hne, rfl, rfl⟩ | ⟨parts, hparts, hmem⟩)
        · obtain ⟨parts, hparts⟩ := List.exists_mem_of_ne_nil _ hne
          exact ⟨_, List.mem_map_of_mem hparts, List.mem_cons_self⟩
        · exact ⟨_, List.mem_map_of_mem hparts, List.mem_cons_of_mem _ hmem⟩
    have hname : (∃ parts ∈ (if name.1 ≠ pycache then [[name]] else []),
        (a, b) ∈ linksOf r above parts) ↔
          name.1 ≠ pycache ∧ a = r ∧ b = .cls (above ++ name.1) := by
      split
      · rename_i h
        simp [linksOf, h]
      · rename_i h
        simp only [List.not_mem_nil, false_and, exists_false, false_iff]
        exact fun h' => h h'.1
    rw [typeParts, shownPaths_cons, LabelTree.edge_append, ← ihrest]
    simp only [List.mem_append, or_and_right, exists_or]
    rw [hname, hcontent, ← or_assoc]
    refine or_congr ?_ Iff.rfl
    split
    · rename_i h
      rw [LabelTree.edge_cons_map (isPaths_shownPaths _ _).ne_nil, ← or_assoc, ← or_and_right]
      refine or_congr (and_iff_right h) Iff.rfl
    · rename_i h
      obtain ⟨hpycache, hempty⟩ := not_or.mp h
      have hnone : ¬ LabelTree.Edge (.cls (above ++ name.1))
          (shownPaths (above ++ name.1 ++ ['/']) content) a b := by
        rw [← ihcontent, not_not.mp hempty]
        rintro ⟨_, hmem, -⟩
        cases hmem
      refine iff_of_false ?_ LabelTree.edge_nil
      rintro (hname' | hcontent' | hedge)
      · exact hpycache hname'.1
      · exact hempty hcontent'.1
      · exact hnone hedge

/-! ## Different names -/

theorem shownParts_head {dirs : Folders} {parts : List FolderName} (h : parts ∈ shownParts dirs) :
    ∃ name ∈ dirs.names, ∃ parts', parts = name :: parts' := by
  induction dirs generalizing parts with
  | nil => cases h
  | cons name content rest _ ihrest =>
    rw [shownParts, List.mem_append] at h
    rcases h with h | h
    · split at h
      · refine ⟨name, List.mem_cons_self, ?_⟩
        rcases List.mem_cons.mp h with rfl | h
        · exact ⟨[], rfl⟩
        · obtain ⟨parts', -, rfl⟩ := List.mem_map.mp h
          exact ⟨parts', rfl⟩
      · cases h
    · obtain ⟨name', hname', hparts⟩ := ihrest h
      exact ⟨name', List.mem_cons_of_mem _ hname', hparts⟩

theorem shownParts_ne_nil {dirs : Folders} {parts : List FolderName}
    (h : parts ∈ shownParts dirs) : parts ≠ [] := by
  obtain ⟨name, -, parts', rfl⟩ := shownParts_head h
  exact List.cons_ne_nil _ _

/-- Different directories have different names. -/
theorem nodup_shownParts {dirs : Folders} (h : dirs.Distinct) : (shownParts dirs).Nodup := by
  induction dirs with
  | nil => exact List.nodup_nil
  | cons name content rest ihcontent ihrest =>
    obtain ⟨hname, hcontent, hrest⟩ := h
    rw [shownParts]
    refine List.Nodup.append ?_ (ihrest hrest) ?_
    · split
      · refine List.nodup_cons.mpr ⟨fun hmem => ?_, ?_⟩
        · obtain ⟨parts, hparts, heq⟩ := List.mem_map.mp hmem
          exact shownParts_ne_nil hparts (List.cons.inj heq).2
        · exact (ihcontent hcontent).map fun _ _ heq => (List.cons.inj heq).2
      · exact List.nodup_nil
    · intro parts hparts hparts'
      obtain ⟨name', hname', parts', rfl⟩ := shownParts_head hparts'
      split at hparts
      · rcases List.mem_cons.mp hparts with heq | hmem
        · exact hname ((List.cons.inj heq).1 ▸ hname')
        · obtain ⟨_, -, heq⟩ := List.mem_map.mp hmem
          exact hname ((List.cons.inj heq).1 ▸ hname')
      · cases hparts

/-- The class of a directory gives its names. -/
theorem className_injective {parts parts' : List FolderName} (hne : parts ≠ [])
    (hne' : parts' ≠ []) (h : className [] parts = className [] parts') : parts = parts' := by
  have hsplit {l : List FolderName} (hl : l ≠ []) :
      splitOn '/' (className [] l) = l.map Subtype.val := by
    refine PyText.splitOn_intercalate (fun h0 => hl (List.map_eq_nil_iff.mp h0)) fun p hp => ?_
    obtain ⟨name, -, rfl⟩ := List.mem_map.mp hp
    exact name.2.2.1
  refine List.map_injective_iff.mpr Subtype.val_injective ?_
  rw [← hsplit hne, ← hsplit hne', h]

theorem getLast?_nodesOf {parts : List FolderName} (hne : parts ≠ []) (above : Text) :
    (nodesOf above parts).getLast? = some (.cls (className above parts)) := by
  induction parts generalizing above with
  | nil => exact absurd rfl hne
  | cons name parts ih =>
    by_cases hparts : parts = []
    · subst hparts
      rw [className_singleton]
      rfl
    · have hnext := ih hparts (above ++ name.1 ++ ['/'])
      rw [nodesOf, List.getLast?_cons, hnext, Option.getD_some, className_cons hparts]

/-- Different directories are different nodes. -/
theorem nodup_getLast?_shownPaths {dirs : Folders} (h : dirs.Distinct) :
    ((shownPaths [] dirs).map List.getLast?).Nodup := by
  rw [shownPaths, List.map_map]
  refine (nodup_shownParts h).map_on fun parts hparts parts' hparts' heq => ?_
  have hne := shownParts_ne_nil hparts
  have hne' := shownParts_ne_nil hparts'
  rw [Function.comp_apply, Function.comp_apply, getLast?_nodesOf hne, getLast?_nodesOf hne',
    Option.some.injEq, ClassNode.cls.injEq] at heq
  exact className_injective hne hne' heq

theorem getLast?_shownPaths_ne_root {dirs : Folders} {c : List ClassNode}
    (hc : c ∈ shownPaths [] dirs) : c.getLast? ≠ some .root := by
  obtain ⟨parts, hparts, rfl⟩ := List.mem_map.mp hc
  rw [getLast?_nodesOf (shownParts_ne_nil hparts)]
  simp

/-! ## The page -/

/-- The nodes that the links of a class lead to. -/
theorem mem_linksOf_snd {parts : List FolderName} {r c : ClassNode} {above : Text} :
    c ∈ (linksOf r above parts).map Prod.snd ↔
      ∃ ps, ps ≠ [] ∧ ps <+: parts ∧ c = .cls (className above ps) := by
  induction parts generalizing r above with
  | nil =>
    simp only [linksOf, List.map_nil, List.not_mem_nil, List.prefix_nil, false_iff]
    rintro ⟨ps, hne, rfl, -⟩
    exact hne rfl
  | cons name parts ih =>
    rw [linksOf, List.map_cons, List.mem_cons, ih]
    constructor
    · rintro (rfl | ⟨ps, hne, hps, rfl⟩)
      · exact ⟨[name], List.cons_ne_nil _ _, by simp, by rw [className_singleton]⟩
      · exact ⟨name :: ps, List.cons_ne_nil _ _, by simpa using hps,
          by rw [className_cons hne]⟩
    · rintro ⟨ps, hne, hps, rfl⟩
      obtain ⟨n, ps, rfl⟩ := List.exists_cons_of_ne_nil hne
      rw [List.cons_prefix_cons] at hps
      obtain ⟨rfl, hps⟩ := hps
      by_cases hps' : ps = []
      · subst hps'
        exact .inl (by rw [className_singleton])
      · exact .inr ⟨ps, hps', hps, by rw [className_cons hps']⟩

/-- The links of the classes that are found. -/
theorem mem_objtypes_links {docOf : Text → Text} {dirs : Folders} {a b : ClassNode} :
    (a, b) ∈ (objtypes docOf (objectTypesNoCache dirs)).links ↔
      LabelTree.Edge .root (shownPaths [] dirs) a b := by
  rw [← exists_linksOf_iff, objtypes, objectTypesNoCache]
  simp only [List.mem_flatMap, mem_types_iff]
  constructor
  · rintro ⟨_, ⟨parts, hparts, rfl⟩, hmem⟩
    refine ⟨parts, hparts, ?_⟩
    rwa [linkClasses_eq (typeParts_ne_nil hparts) [] .root (by simp) (by simp)] at hmem
  · rintro ⟨parts, hparts, hmem⟩
    refine ⟨_, ⟨parts, hparts, rfl⟩, ?_⟩
    rwa [linkClasses_eq (typeParts_ne_nil hparts) [] .root (by simp) (by simp)]

/-- The documentations of a class are its own and those of the classes below it. -/
theorem mem_objtypes_informations {docOf : Text → Text} {dirs : Folders} {c : ClassNode}
    {d : Text} :
    (c, d) ∈ (objtypes docOf (objectTypesNoCache dirs)).informations ↔
      d ≠ [] ∧ ∃ parts ∈ typeParts dirs, docOf (className [] parts) = d ∧
        ∃ ps, ps ≠ [] ∧ ps <+: parts ∧ c = .cls (className [] ps) := by
  have hone {parts : List FolderName} (hparts : parts ∈ typeParts dirs) :
      (c, d) ∈ (if docOf (className [] parts) = [] then []
        else (linkClasses (className [] parts) .root 0).map fun link =>
          (link.2, docOf (className [] parts))) ↔
      d ≠ [] ∧ docOf (className [] parts) = d ∧
        ∃ ps, ps ≠ [] ∧ ps <+: parts ∧ c = .cls (className [] ps) := by
    rw [← mem_linksOf_snd (r := .root),
      linkClasses_eq (typeParts_ne_nil hparts) [] .root (by simp) (by simp)]
    split
    · rename_i hdoc
      rw [hdoc]
      refine iff_of_false List.not_mem_nil ?_
      rintro ⟨hd, rfl, -⟩
      exact hd rfl
    · rename_i hdoc
      rw [List.mem_map, List.mem_map]
      constructor
      · rintro ⟨link, hlink, heq⟩
        obtain ⟨rfl, rfl⟩ := Prod.mk.inj heq
        exact ⟨hdoc, rfl, link, hlink, rfl⟩
      · rintro ⟨-, rfl, link, hlink, rfl⟩
        exact ⟨link, hlink, rfl⟩
  rw [objtypes, objectTypesNoCache]
  simp only [List.mem_flatMap, mem_types_iff]
  constructor
  · rintro ⟨_, ⟨parts, hparts, rfl⟩, hmem⟩
    obtain ⟨hd, hdoc, hps⟩ := (hone hparts).mp hmem
    exact ⟨hd, parts, hparts, hdoc, hps⟩
  · rintro ⟨hd, parts, hparts, hdoc, hps⟩
    exact ⟨_, ⟨parts, hparts, rfl⟩, (hone hparts).mpr ⟨hd, hdoc, hps⟩⟩

/-- The page is the tree of the directories. -/
structure ClassTree (docOf : Text → Text) (dirs : Folders) (page : Page) : Prop where
  /-- The walks along the links, from the root, are the paths of the directories. -/
  walks : ∀ w, w ≠ [] →
    (List.IsChain (fun a b => (a, b) ∈ page.links) (.root :: w) ↔ w ∈ shownPaths [] dirs)
  /-- A directory is reached by one link. -/
  parent : ∀ a a' b, (a, b) ∈ page.links → (a', b) ∈ page.links → a = a'
  /-- A class has its documentation and those of the classes below it. -/
  informations : ∀ c d, (c, d) ∈ page.informations ↔
    d ≠ [] ∧ ∃ parts ∈ typeParts dirs, docOf (className [] parts) = d ∧
      ∃ ps, ps ≠ [] ∧ ps <+: parts ∧ c = .cls (className [] ps)

/-- The page of the object types is the tree of the directories, from the root, and each class has
its documentation and those of all the classes below it. -/
theorem classTree_objtypes (docOf : Text → Text) {dirs : Folders} (h : dirs.Distinct) :
    ClassTree docOf dirs (objtypes docOf (objectTypesNoCache dirs)) := by
  have hpaths := isPaths_shownPaths dirs []
  have hlinks : (fun a b => (a, b) ∈ (objtypes docOf (objectTypesNoCache dirs)).links) =
      LabelTree.Edge .root (shownPaths [] dirs) := by
    funext a b
    exact propext mem_objtypes_links
  refine ⟨fun w hw => ?_, fun a a' b hab hab' => ?_, fun c d => mem_objtypes_informations⟩
  · rw [hlinks]
    exact hpaths.isChain_iff (nodup_getLast?_shownPaths h) (fun c => getLast?_shownPaths_ne_root) hw
  · exact LabelTree.Edge.unique (nodup_getLast?_shownPaths h) (mem_objtypes_links.mp hab)
      (mem_objtypes_links.mp hab')

/-- Two classes with another one below the first, and what Python compiles. -/
def sqlFolders : Folders :=
  .cons ⟨"sql".toList, by decide⟩
    (.cons ⟨"query".toList, by decide⟩ (.cons ⟨pycache, by decide⟩ .nil .nil)
      (.cons ⟨pycache, by decide⟩ .nil .nil))
    (.cons ⟨"odbc".toList, by decide⟩ .nil (.cons ⟨pycache, by decide⟩ .nil .nil))

theorem classTree_objtypes_sqlFolders :
    ClassTree (fun t => t ++ " class".toList) sqlFolders
      (objtypes (fun t => t ++ " class".toList) (objectTypesNoCache sqlFolders)) := by
  refine classTree_objtypes _ ?_
  simp only [sqlFolders, Folders.Distinct, Folders.names, and_true]
  decide

end Survol.Menus
