import Survol.Lib.DepthSearch
import Survol.Lib.Dict
import Survol.Lib.Effect
import Survol.Lib.Text

/-!
# The dependencies of the Windows programs

Two pages show the libraries that a program imports, and those that the latter import, down to a
level. The page of the imports searches a library again each time it meets it, the page of the
dependencies keeps the libraries that it has seen, whatever the case of their names.

## Main definitions

* `recursiveDepends` — the page of the dependencies.
* `recursiveImports` — the page of the imports.
* `drawDepends`, `drawImports` — what they draw, when nothing is raised.
* `DrawsDependencies` — the former page against the latter.

## Main results

* `recursiveDepends_draws` — for all libraries, with cycles or not, in Python 2.
* `run_forEntries_python3` — in Python 3, no library is found.
-/

open PyText (Text)

namespace Survol.PeFiles

/-! ## The code -/

/-- A library that a file imports, with the names of its symbols, or none for those that have a
number only. -/
structure Entry where
  dll : Text
  imports : List (Option Text)

/-- What the disk and its files are, which of them `pefile` can read, and the version of Python. -/
structure Disk where
  lower : Text → Text
  versionString : Text → Text
  directoryEntryImport : Text → List Entry
  dirsNorm : List Text
  join : Text → Text → Text
  pathExists : Text → Bool
  readable : Text → Bool
  python3 : Bool

/-- Files, symbols of a file, and texts. -/
inductive Node
  | file (filNam : Text)
  | symbol (name filNam : Text)
  | literal (text : Text)
  deriving DecidableEq

inductive Property
  | information
  | libraryDepends
  | symbolDeclared
  deriving DecidableEq

abbrev Link := Node × Property × Node

/-- The first directory that has a library. -/
def Disk.dllPath (disk : Disk) (entry : Entry) : Option Text :=
  (disk.dirsNorm.map (disk.join · entry.dll)).find? disk.pathExists

/-- The version of a file. -/
def Disk.information (disk : Disk) (filNam : Text) : Link :=
  (.file filNam, .information, .literal (disk.versionString filNam))

/-- The files that were seen, by their names in lower case, and the page. -/
structure State where
  cacheDllToImports : Dict Text Text
  grph : List Link

/-- A file that is seen for the first time. -/
def Disk.addFile (disk : Disk) (filNam : Text) (s : State) : State :=
  ⟨s.cacheDllToImports.set (disk.lower filNam) filNam, s.grph ++ [disk.information filNam]⟩

/-- What is raised: in Python 3 the bytes of a name have no method `encode`, and `pefile` may not
read a file. -/
inductive PeExn where
  | attributeError
  | formatError (filNam : Text)
  deriving DecidableEq

/-- `pefile.PE`, and its `DIRECTORY_ENTRY_IMPORT`. -/
def Disk.readEntries {σ : Type} (disk : Disk) (filNam : Text) : Py PeExn σ (List Entry) :=
  if disk.readable filNam then pure (disk.directoryEntryImport filNam)
  else .raise (.formatError filNam)

/-- The path of a library, from its name. -/
def Disk.findDll {σ : Type} (disk : Disk) (entry : Entry) : Py PeExn σ (Option Text) :=
  if disk.python3 then .raise .attributeError else pure (disk.dllPath entry)

/-- The loop on the libraries, which `AttributeError` ends. -/
def forEntries {σ : Type} (entries : List Entry) (f : Entry → Py PeExn σ Unit) : Py PeExn σ Unit :=
  .catching (· = .attributeError) (Py.each f entries) (pure ())

/-- One library of a file: its own libraries, then the link to it. -/
def dependsEntry (disk : Disk) (recu : Text → Py PeExn State Text) (rootNode : Text)
    (entry : Entry) : Py PeExn State Unit := do
  match ← disk.findDll entry with
  | none => pure ()
  | some dllPath =>
    let subNode ← recu dllPath
    .modify fun s =>
      { s with grph := s.grph ++ [(.file rootNode, .libraryDepends, .file subNode)] }

/-- `RecursiveDepends` of `pefile_depends.py` -/
def recursiveDepends (disk : Disk) : ℕ → Text → Py PeExn State Text
  | 0, filNam => do
    let s ← Py.get
    match s.cacheDllToImports.get? (disk.lower filNam) with
    | some rootNode => pure rootNode
    | none =>
      .modify (disk.addFile filNam)
      pure filNam
  | maxLevel + 1, filNam => do
    let s ← Py.get
    match s.cacheDllToImports.get? (disk.lower filNam) with
    | some rootNode => pure rootNode
    | none =>
      .modify (disk.addFile filNam)
      let entries ← disk.readEntries filNam
      forEntries entries (dependsEntry disk (recursiveDepends disk maxLevel) filNam)
      pure filNam

/-- The symbols of a library that have a name. -/
def Entry.symbols (entry : Entry) (dllPath : Text) : List Link :=
  entry.imports.filterMap fun name =>
    name.map fun name => (.file dllPath, .symbolDeclared, .symbol name dllPath)

/-- One library of a file: its own libraries, then the link to it, and its symbols. -/
def importsEntry (disk : Disk) (recu : Text → Py PeExn (List Link) Text) (rootNode : Text)
    (entry : Entry) : Py PeExn (List Link) Unit := do
  match ← disk.findDll entry with
  | none => pure ()
  | some dllPath =>
    let subNode ← recu dllPath
    .modify fun grph =>
      grph ++ (.file rootNode, .libraryDepends, .file subNode) :: entry.symbols dllPath

/-- `RecursiveDepends` of `pefile_imports.py` -/
def recursiveImports (disk : Disk) : ℕ → Text → Py PeExn (List Link) Text
  | 0, filNam => do
    .modify fun grph => grph ++ [disk.information filNam]
    pure filNam
  | maxLevel + 1, filNam => do
    .modify fun grph => grph ++ [disk.information filNam]
    let entries ← disk.readEntries filNam
    forEntries entries (importsEntry disk (recursiveImports disk maxLevel) filNam)
    pure filNam

/-! ## The pages, when nothing is raised -/

/-- One library of a file. -/
def drawEntry (disk : Disk) (recu : Text → State → Text × State) (rootNode : Text) (s : State)
    (entry : Entry) : State :=
  match disk.dllPath entry with
  | none => s
  | some dllPath =>
    let r := recu dllPath s
    ⟨r.2.cacheDllToImports, r.2.grph ++ [(.file rootNode, .libraryDepends, .file r.1)]⟩

/-- The page of the dependencies, when nothing is raised. -/
def drawDepends (disk : Disk) : ℕ → Text → State → Text × State
  | 0, filNam, s =>
    match s.cacheDllToImports.get? (disk.lower filNam) with
    | some rootNode => (rootNode, s)
    | none => (filNam, disk.addFile filNam s)
  | maxLevel + 1, filNam, s =>
    match s.cacheDllToImports.get? (disk.lower filNam) with
    | some rootNode => (rootNode, s)
    | none =>
      (filNam, (disk.directoryEntryImport filNam).foldl
        (drawEntry disk (drawDepends disk maxLevel) filNam) (disk.addFile filNam s))

/-- The page of the imports, when nothing is raised. -/
def drawImports (disk : Disk) : ℕ → Text → List Link
  | 0, filNam => [disk.information filNam]
  | maxLevel + 1, filNam =>
    disk.information filNam :: (disk.directoryEntryImport filNam).flatMap fun entry =>
      match disk.dllPath entry with
      | none => []
      | some dllPath =>
        drawImports disk maxLevel dllPath ++
          (.file filNam, .libraryDepends, .file dllPath) ::
            entry.symbols dllPath

/-- The files of the libraries of a file. -/
def Disk.dllPaths (disk : Disk) (filNam : Text) : List Text :=
  (disk.directoryEntryImport filNam).filterMap disk.dllPath

/-- `pefile` can read the file, and the libraries that can be reached from it. -/
def Disk.CanRead (disk : Disk) (filNam : Text) : Prop :=
  ∀ f, Relation.ReflTransGen (fun a b => b ∈ disk.dllPaths a) filNam f → disk.readable f = true

section
variable {disk : Disk} {maxLevel : ℕ}

theorem Disk.CanRead.readEntries {σ : Type} {filNam : Text} (h : disk.CanRead filNam) :
    (disk.readEntries filNam : Py PeExn σ (List Entry)) =
      pure (disk.directoryEntryImport filNam) := by
  rw [Disk.readEntries, if_pos (h filNam .refl)]

theorem Disk.CanRead.library {filNam dllPath : Text} {entry : Entry} (h : disk.CanRead filNam)
    (hentry : entry ∈ disk.directoryEntryImport filNam) (hpath : disk.dllPath entry = some dllPath) :
    disk.CanRead dllPath := fun f hf =>
  h f (.head (List.mem_filterMap.mpr ⟨entry, hentry, hpath⟩) hf)

theorem run_forEntries {σ : Type} {entries : List Entry} {f : Entry → Py PeExn σ Unit} {s s' : σ}
    (h : (Py.each f entries).run s = (.ok (), s')) :
    (forEntries entries f).run s = (.ok (), s') := by
  simp only [forEntries, Py.catching, h]

theorem run_each_dependsEntry (hpython : disk.python3 = false) {filNam : Text}
    {recu : Text → Py PeExn State Text} {draw : Text → State → Text × State}
    {entries : List Entry} (hrecu : ∀ entry ∈ entries, ∀ dllPath, disk.dllPath entry = some dllPath →
      ∀ s, (recu dllPath).run s = (.ok (draw dllPath s).1, (draw dllPath s).2)) (s : State) :
    (Py.each (dependsEntry disk recu filNam) entries).run s =
      (.ok (), entries.foldl (drawEntry disk draw filNam) s) := by
  induction entries generalizing s with
  | nil => rfl
  | cons entry entries ih =>
    have hentry : (dependsEntry disk recu filNam entry).run s =
        (.ok (), drawEntry disk draw filNam s entry) := by
      rw [dependsEntry, Disk.findDll, hpython, drawEntry]
      cases hpath : disk.dllPath entry with
      | none => rfl
      | some dllPath =>
        exact Py.run_bind_of_ok (hrecu entry (by simp) dllPath hpath s) _
    rw [Py.run_each_cons, hentry, List.foldl_cons]
    exact ih (fun e he => hrecu e (by simp [he])) _

/-- In Python 2, when the files can be read, the page of the dependencies is drawn. -/
theorem run_recursiveDepends (hpython : disk.python3 = false) {filNam : Text}
    (hread : disk.CanRead filNam) (s : State) : (recursiveDepends disk maxLevel filNam).run s =
      (.ok (drawDepends disk maxLevel filNam s).1, (drawDepends disk maxLevel filNam s).2) := by
  induction maxLevel generalizing filNam s with
  | zero =>
    rw [recursiveDepends, Py.run_get_bind, drawDepends]
    cases s.cacheDllToImports.get? (disk.lower filNam) <;> rfl
  | succ maxLevel ih =>
    rw [recursiveDepends, Py.run_get_bind, drawDepends]
    cases s.cacheDllToImports.get? (disk.lower filNam) with
    | some rootNode => rfl
    | none =>
      have hrecu : ∀ entry ∈ disk.directoryEntryImport filNam, ∀ dllPath,
          disk.dllPath entry = some dllPath → ∀ s, (recursiveDepends disk maxLevel dllPath).run s =
            (.ok (drawDepends disk maxLevel dllPath s).1,
              (drawDepends disk maxLevel dllPath s).2) :=
        fun entry he dllPath hpath s => ih (hread.library he hpath) s
      have hloop := run_forEntries
        (@run_each_dependsEntry disk hpython filNam _ _ _ hrecu (disk.addFile filNam s))
      dsimp only
      rw [Py.run_modify_bind, hread.readEntries, Py.run_pure_bind, Py.run_bind_of_ok hloop]
      rfl

theorem run_each_importsEntry (hpython : disk.python3 = false) {filNam : Text}
    {entries : List Entry} (hrecu : ∀ entry ∈ entries, ∀ dllPath, disk.dllPath entry = some dllPath →
      ∀ grph, (recursiveImports disk maxLevel dllPath).run grph =
        (.ok dllPath, grph ++ drawImports disk maxLevel dllPath)) (grph : List Link) :
    (Py.each (importsEntry disk (recursiveImports disk maxLevel) filNam) entries).run grph =
      (.ok (), grph ++ entries.flatMap fun entry =>
        match disk.dllPath entry with
        | none => []
        | some dllPath => drawImports disk maxLevel dllPath ++
            (.file filNam, .libraryDepends, .file dllPath) :: entry.symbols dllPath) := by
  induction entries generalizing grph with
  | nil => simp
  | cons entry entries ih =>
    have hentry : (importsEntry disk (recursiveImports disk maxLevel) filNam entry).run grph =
        (.ok (), grph ++ match disk.dllPath entry with
          | none => []
          | some dllPath => drawImports disk maxLevel dllPath ++
              (.file filNam, .libraryDepends, .file dllPath) :: entry.symbols dllPath) := by
      rw [importsEntry, Disk.findDll, hpython]
      cases hpath : disk.dllPath entry with
      | none => exact Prod.ext rfl (List.append_nil grph).symm
      | some dllPath =>
        refine (Py.run_bind_of_ok (hrecu entry (by simp) dllPath hpath grph) _).trans ?_
        exact Prod.ext rfl (List.append_assoc _ _ _)
    rw [Py.run_each_cons, hentry, List.flatMap_cons, ← List.append_assoc]
    exact ih (fun e he => hrecu e (by simp [he])) _

/-- In Python 2, when the files can be read, the page of the imports is drawn. -/
theorem run_recursiveImports (hpython : disk.python3 = false) {filNam : Text}
    (hread : disk.CanRead filNam) (grph : List Link) :
    (recursiveImports disk maxLevel filNam).run grph =
      (.ok filNam, grph ++ drawImports disk maxLevel filNam) := by
  induction maxLevel generalizing filNam grph with
  | zero => rfl
  | succ maxLevel ih =>
    have hrecu : ∀ entry ∈ disk.directoryEntryImport filNam, ∀ dllPath,
        disk.dllPath entry = some dllPath → ∀ grph,
          (recursiveImports disk maxLevel dllPath).run grph = (.ok dllPath, grph ++ drawImports disk maxLevel dllPath) :=
      fun entry he dllPath hpath grph => ih (hread.library he hpath) grph
    have hloop := run_forEntries
      (@run_each_importsEntry disk maxLevel hpython filNam _ hrecu
        (grph ++ [disk.information filNam]))
    rw [recursiveImports, Py.run_modify_bind, hread.readEntries, Py.run_pure_bind,
      Py.run_bind_of_ok hloop, drawImports, ← List.singleton_append]
    exact Prod.ext rfl (List.append_assoc _ _ _)

/-- In Python 3, no library is found. -/
theorem run_forEntries_python3 {σ : Type} (hpython : disk.python3 = true) (entries : List Entry)
    (f : Option Text → Py PeExn σ Unit) (s : σ) :
    (forEntries entries fun entry => disk.findDll entry >>= f).run s = (.ok (), s) := by
  cases entries with
  | nil => rfl
  | cons entry entries =>
    rw [forEntries, Py.catching]
    simp only [Py.run_each_cons, Disk.findDll, hpython]
    rfl

end

/-! ## The libraries -/

/-- The libraries of a file, by their names in lower case. -/
def Disk.deps (disk : Disk) (name : Text) : List Text := (disk.dllPaths name).map disk.lower

/-- The case of a file name does not matter. -/
def Disk.IgnoresCase (disk : Disk) : Prop :=
  ∀ filNam, disk.directoryEntryImport (disk.lower filNam) = disk.directoryEntryImport filNam

/-- The page links two files with these names in lower case. -/
def Linked (disk : Disk) (grph : List Link) (a b : Text) : Prop :=
  ∃ f g, (Node.file f, Property.libraryDepends, Node.file g) ∈ grph ∧
    disk.lower f = a ∧ disk.lower g = b

/-- The page of the dependencies of a file, against the page of its imports. -/
structure DrawsDependencies (disk : Disk) (maxLevel : ℕ) (filNam : Text)
    (grph imports : List Link) : Prop where
  /-- It has links of the page of the imports only. -/
  imported : ∀ a b, Linked disk grph a b → Linked disk imports a b
  /-- A file has one node. -/
  spelling : ∀ f g f' g', (Node.file f, Property.libraryDepends, Node.file g) ∈ grph →
    (Node.file f', Property.libraryDepends, Node.file g') ∈ grph →
    ∀ h ∈ [f, g], ∀ h' ∈ [f', g'], disk.lower h = disk.lower h' → h = h'
  /-- If no walk without a repeated file is too long, then it has all the libraries of all the files
  that can be reached. -/
  complete : DepthSearch.Bounded disk.deps (disk.lower filNam) maxLevel → ∀ a b,
    Linked disk grph a b ↔
      Relation.ReflTransGen (fun a b => b ∈ disk.deps a) (disk.lower filNam) a ∧ b ∈ disk.deps a
  /-- Then the page of the imports has the same ones. -/
  agree : DepthSearch.Bounded disk.deps (disk.lower filNam) maxLevel → ∀ a b,
    Linked disk grph a b ↔ Linked disk imports a b

section

variable {disk : Disk}

theorem deps_lower (h : disk.IgnoresCase) (filNam : Text) :
    disk.deps (disk.lower filNam) = (disk.dllPaths filNam).map disk.lower := by
  rw [Disk.deps, Disk.dllPaths, h, Disk.dllPaths]

theorem linked_append {grph grph' : List Link} {a b : Text} :
    Linked disk (grph ++ grph') a b ↔ Linked disk grph a b ∨ Linked disk grph' a b := by
  simp only [Linked, List.mem_append, or_and_right, exists_or]

theorem linked_singleton {f g a b : Text} :
    Linked disk [(.file f, .libraryDepends, .file g)] a b ↔
      (a, b) = (disk.lower f, disk.lower g) := by
  simp only [Linked, List.mem_singleton, Prod.mk.injEq, Node.file.injEq, true_and]
  constructor
  · rintro ⟨_, _, ⟨rfl, rfl⟩, rfl, rfl⟩
    exact ⟨rfl, rfl⟩
  · rintro ⟨rfl, rfl⟩
    exact ⟨f, g, ⟨rfl, rfl⟩, rfl, rfl⟩

theorem not_linked_information (filNam a b : Text) :
    ¬ Linked disk [disk.information filNam] a b := by
  simp [Linked, Disk.information]

/-! ## The page of the imports -/

/-- The page of the imports is the plain search. -/
theorem linked_drawImports (h : disk.IgnoresCase) (maxLevel : ℕ) (filNam a b : Text) :
    Linked disk (drawImports disk maxLevel filNam) a b ↔
      (a, b) ∈ DepthSearch.plain disk.deps maxLevel (disk.lower filNam) := by
  induction maxLevel generalizing filNam with
  | zero =>
    exact iff_of_false (not_linked_information filNam a b) List.not_mem_nil
  | succ maxLevel ih =>
    have hentry (entry : Entry) (dllPath : Text) :
        Linked disk (drawImports disk maxLevel dllPath ++
          (.file filNam, .libraryDepends, .file dllPath) ::
            entry.symbols dllPath) a b ↔
          (a, b) ∈ DepthSearch.plain disk.deps maxLevel (disk.lower dllPath) ++
            [(disk.lower filNam, disk.lower dllPath)] := by
      have hsymbols : ¬ Linked disk (entry.symbols dllPath) a b := by
        simp [Linked, Entry.symbols]
      rw [← List.singleton_append, linked_append, linked_append, ih, linked_singleton,
        or_iff_left hsymbols, List.mem_append, List.mem_singleton]
    rw [drawImports, ← List.singleton_append, linked_append,
      or_iff_right (not_linked_information filNam a b), DepthSearch.plain, deps_lower h,
      Disk.dllPaths, List.flatMap_map]
    induction disk.directoryEntryImport filNam with
    | nil => simp [Linked]
    | cons entry entries ihentries =>
      rw [List.flatMap_cons, linked_append]
      cases hpath : disk.dllPath entry with
      | none =>
        rw [List.filterMap_cons_none hpath]
        exact (or_iff_right (by simp [Linked])).trans ihentries
      | some dllPath =>
        rw [List.filterMap_cons_some hpath, List.flatMap_cons, List.mem_append]
        exact or_congr (hentry entry dllPath) ihentries

/-! ## The page of the dependencies -/

/-- The page is a search where each file is visited once, and the cache has the files that were
visited, as they were first spelled. -/
structure Simulates (disk : Disk) (s : State) (t : DepthSearch.State Text) : Prop where
  visited : ∀ k, k ∈ t.visited ↔ (s.cacheDllToImports.get? k).isSome
  name : ∀ k f, s.cacheDllToImports.get? k = some f → disk.lower f = k
  edges : ∀ a b, Linked disk s.grph a b ↔ (a, b) ∈ t.edges
  spelled : ∀ f g, (Node.file f, Property.libraryDepends, Node.file g) ∈ s.grph →
    s.cacheDllToImports.get? (disk.lower f) = some f ∧
      s.cacheDllToImports.get? (disk.lower g) = some g

/-- The files that were seen stay as they are. -/
def Keeps (s s' : State) : Prop :=
  ∀ k f, s.cacheDllToImports.get? k = some f → s'.cacheDllToImports.get? k = some f

theorem keeps_addFile {filNam : Text} {s : State}
    (hnone : s.cacheDllToImports.get? (disk.lower filNam) = none) :
    Keeps s (disk.addFile filNam s) := by
  intro k f hk
  rw [Disk.addFile, Dict.get?_set, if_neg, hk]
  rintro rfl
  rw [hnone] at hk
  cases hk

theorem simulates_addFile {filNam : Text} {s : State} {t : DepthSearch.State Text}
    (h : Simulates disk s t) (hnone : s.cacheDllToImports.get? (disk.lower filNam) = none) :
    Simulates disk (disk.addFile filNam s) ⟨disk.lower filNam :: t.visited, t.edges⟩ where
  visited k := by
    rw [Disk.addFile, Dict.get?_set, List.mem_cons, h.visited]
    split
    · rename_i heq
      exact iff_of_true (.inl heq.symm) rfl
    · rename_i hne
      exact or_iff_right fun heq => hne heq.symm
  name k f hk := by
    rw [Disk.addFile, Dict.get?_set] at hk
    split at hk
    · rename_i heq
      rw [← heq, Option.some.inj hk]
    · exact h.name k f hk
  edges a b := by
    rw [Disk.addFile, linked_append, or_iff_left (not_linked_information filNam a b), h.edges]
  spelled f g hfg := by
    rcases List.mem_append.mp hfg with hfg | hfg
    · obtain ⟨hf, hg⟩ := h.spelled f g hfg
      exact ⟨keeps_addFile hnone _ _ hf, keeps_addFile hnone _ _ hg⟩
    · simp [Disk.information] at hfg

/-- What is proved of the search below one file. -/
def Steps (disk : Disk) (maxLevel : ℕ) : Prop :=
  ∀ filNam s t, Simulates disk s t →
    Simulates disk (drawDepends disk maxLevel filNam s).2
        (DepthSearch.search disk.deps maxLevel (disk.lower filNam) t) ∧
      Keeps s (drawDepends disk maxLevel filNam s).2 ∧
      (drawDepends disk maxLevel filNam s).2.cacheDllToImports.get? (disk.lower filNam) =
        some (drawDepends disk maxLevel filNam s).1

/-- The libraries of a file. -/
theorem foldl_drawEntry {maxLevel : ℕ} (hsteps : Steps disk maxLevel) {filNam : Text}
    (entries : List Entry) {s : State} {t : DepthSearch.State Text} (h : Simulates disk s t)
    (hroot : s.cacheDllToImports.get? (disk.lower filNam) = some filNam) :
    Simulates disk (entries.foldl (drawEntry disk (drawDepends disk maxLevel) filNam) s)
        (((entries.filterMap disk.dllPath).map disk.lower).foldl
          (DepthSearch.follow (DepthSearch.search disk.deps maxLevel) (disk.lower filNam)) t) ∧
      Keeps s (entries.foldl (drawEntry disk (drawDepends disk maxLevel) filNam) s) := by
  induction entries generalizing s t with
  | nil => exact ⟨h, fun _ _ => id⟩
  | cons entry entries ih =>
    rw [List.foldl_cons, drawEntry]
    cases hpath : disk.dllPath entry with
    | none =>
      rw [List.filterMap_cons_none hpath]
      exact ih h hroot
    | some dllPath =>
      rw [List.filterMap_cons_some hpath, List.map_cons, List.foldl_cons]
      obtain ⟨hsim, hkeeps, hsub⟩ := hsteps dllPath s t h
      have hlower := hsim.name _ _ hsub
      have hfile := hkeeps _ _ hroot
      have hnext : Simulates disk
          ⟨(drawDepends disk maxLevel dllPath s).2.cacheDllToImports,
            (drawDepends disk maxLevel dllPath s).2.grph ++
              [(.file filNam, .libraryDepends,
                .file (drawDepends disk maxLevel dllPath s).1)]⟩
          (DepthSearch.follow (DepthSearch.search disk.deps maxLevel) (disk.lower filNam) t
            (disk.lower dllPath)) := by
        refine ⟨hsim.visited, hsim.name, fun a b => ?_, fun f g hfg => ?_⟩
        · rw [linked_append, hsim.edges, linked_singleton, hlower, DepthSearch.follow,
            List.mem_append, List.mem_singleton]
        · rcases List.mem_append.mp hfg with hfg | hfg
          · exact hsim.spelled f g hfg
          · simp only [List.mem_singleton, Prod.mk.injEq, Node.file.injEq, true_and] at hfg
            obtain ⟨rfl, rfl⟩ := hfg
            exact ⟨hfile, by rw [hlower]; exact hsub⟩
      obtain ⟨hsim', hkeeps'⟩ := ih hnext hfile
      exact ⟨hsim', fun k f hk => hkeeps' k f (hkeeps k f hk)⟩

/-- A file that was seen is not searched again. -/
theorem drawDepends_of_seen {filNam rootNode : Text} {s : State}
    (hget : s.cacheDllToImports.get? (disk.lower filNam) = some rootNode) (maxLevel : ℕ) :
    drawDepends disk maxLevel filNam s = (rootNode, s) := by
  cases maxLevel <;> rw [drawDepends, hget]

theorem steps_drawDepends (hcase : disk.IgnoresCase) (maxLevel : ℕ) :
    Steps disk maxLevel := by
  induction maxLevel with
  | zero =>
    intro filNam s t h
    have hmem := h.visited (disk.lower filNam)
    cases hget : s.cacheDllToImports.get? (disk.lower filNam) with
    | some rootNode =>
      rw [drawDepends_of_seen hget,
        DepthSearch.search_of_visited (hmem.mpr (by rw [hget]; rfl))]
      exact ⟨h, fun _ _ => id, hget⟩
    | none =>
      rw [drawDepends, hget, DepthSearch.search,
        if_neg fun hin => by simpa [hget] using hmem.mp hin]
      exact ⟨simulates_addFile h hget, keeps_addFile hget, by simp [Disk.addFile]⟩
  | succ maxLevel ih =>
    intro filNam s t h
    have hmem := h.visited (disk.lower filNam)
    cases hget : s.cacheDllToImports.get? (disk.lower filNam) with
    | some rootNode =>
      rw [drawDepends_of_seen hget,
        DepthSearch.search_of_visited (hmem.mpr (by rw [hget]; rfl))]
      exact ⟨h, fun _ _ => id, hget⟩
    | none =>
      rw [drawDepends, hget, DepthSearch.search,
        if_neg fun hin => by simpa [hget] using hmem.mp hin, deps_lower hcase, Disk.dllPaths]
      have hroot : (disk.addFile filNam s).cacheDllToImports.get? (disk.lower filNam) =
          some filNam := by simp [Disk.addFile]
      obtain ⟨hsim, hkeeps⟩ := foldl_drawEntry ih (disk.directoryEntryImport filNam)
        (simulates_addFile h hget) hroot
      exact ⟨hsim, fun k f hk => hkeeps k f (keeps_addFile hget k f hk), hkeeps _ _ hroot⟩

/-- The pages that are drawn, when nothing is raised. -/
theorem drawDepends_draws (hcase : disk.IgnoresCase) (maxLevel : ℕ) (filNam : Text) :
    DrawsDependencies disk maxLevel filNam (drawDepends disk maxLevel filNam ⟨[], []⟩).2.grph
      (drawImports disk maxLevel filNam) := by
  obtain ⟨hsim, -⟩ := steps_drawDepends hcase maxLevel filNam ⟨[], []⟩ ⟨[], []⟩
    ⟨by simp, by simp, by simp [Linked], by simp⟩
  refine ⟨fun a b hab => ?_, fun f g f' g' hfg hfg' h hmem h' hmem' heq => ?_,
    fun hbound a b => ?_, fun hbound a b => ?_⟩
  · rw [linked_drawImports hcase]
    exact (DepthSearch.mem_plain_of_mem_search ((hsim.edges a b).mp hab)).resolve_left
      List.not_mem_nil
  · have hspelled {f g h : Text}
        (hfg : (Node.file f, Property.libraryDepends, Node.file g) ∈
          (drawDepends disk maxLevel filNam ⟨[], []⟩).2.grph) (hmem : h ∈ [f, g]) :
        (drawDepends disk maxLevel filNam ⟨[], []⟩).2.cacheDllToImports.get?
          (disk.lower h) = some h := by
      simp only [List.mem_cons, List.not_mem_nil, or_false] at hmem
      rcases hmem with rfl | rfl
      · exact (hsim.spelled _ _ hfg).1
      · exact (hsim.spelled _ _ hfg).2
    have hh := hspelled hfg hmem
    rw [heq, hspelled hfg' hmem'] at hh
    exact (Option.some.inj hh).symm
  · rw [hsim.edges, DepthSearch.mem_search_iff hbound]
  · rw [hsim.edges, linked_drawImports hcase, DepthSearch.mem_search_iff hbound,
      DepthSearch.mem_plain_iff hbound]

/-- In Python 2, when the files can be read, both pages are drawn. The page of the dependencies has
libraries that the page of the imports has too, one node for each file, and all the libraries that
can be reached if no walk is too long: then both pages have the same ones. -/
theorem recursiveDepends_draws (hpython : disk.python3 = false) (hcase : disk.IgnoresCase)
    (maxLevel : ℕ) {filNam : Text} (hread : disk.CanRead filNam) :
    ∃ s imports, (recursiveDepends disk maxLevel filNam).run ⟨[], []⟩ = (.ok filNam, s) ∧
      (recursiveImports disk maxLevel filNam).run [] = (.ok filNam, imports) ∧
      DrawsDependencies disk maxLevel filNam s.grph imports := by
  refine ⟨_, _, (run_recursiveDepends hpython hread _).trans (Prod.ext ?_ rfl),
    run_recursiveImports hpython hread [], drawDepends_draws hcase maxLevel filNam⟩
  cases maxLevel <;> rfl

end

/-- A program with two libraries that import each other, and spell their names differently. -/
def cyclicImports (length : ℕ) : List Entry :=
  if length = 8 then [⟨"User.dll".toList, []⟩, ⟨"Kernel.dll".toList, []⟩]
  else if length = 11 then [⟨"kernel.dll".toList, [some "Sleep".toList]⟩]
  else if length = 13 then [⟨"USER.dll".toList, [none]⟩]
  else []

def cyclicDisk : Disk where
  lower := List.map Char.toLower
  versionString _ := "1.0".toList
  directoryEntryImport filNam := cyclicImports filNam.length
  dirsNorm := ["C:".toList]
  join aDir dll := aDir ++ '/' :: dll
  pathExists _ := true
  readable _ := true
  python3 := false

theorem recursiveDepends_draws_cyclicDisk :
    ∃ s imports,
      (recursiveDepends cyclicDisk 8 "C:/A.exe".toList).run ⟨[], []⟩ =
        (.ok "C:/A.exe".toList, s) ∧
      (recursiveImports cyclicDisk 8 "C:/A.exe".toList).run [] =
        (.ok "C:/A.exe".toList, imports) ∧
      DrawsDependencies cyclicDisk 8 "C:/A.exe".toList s.grph imports :=
  recursiveDepends_draws rfl (fun _ => congrArg cyclicImports (List.length_map _)) 8 fun _ _ => rfl

end Survol.PeFiles
