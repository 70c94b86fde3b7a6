import Survol.Lib.Triples
import Survol.Dockit.PackagesCache
import Survol.Dockit.XmlWriter

/-!
# The dependencies in a Dockerfile

A Dockerfile installs the packages, and copies the files, that the processes of a session need. A
file that comes from a package is not copied: its package is installed. Executables, code files and
data files have each their own pass, and the passes share the list of the installed packages.

## Main definitions

* `Line` — what is written.
* `Host` — the machine where the Dockerfile is generated, and the orders of its sets.
* `collect` — the files of each kind, and the data files.
* `generateDockerProcessDependencies` — the code.

## Main results

* `pckShort?_eq` — the name that is installed is that of the package.
* `mem_codeFiles`, `mem_dataFiles` — what is collected.
-/

open PyText

namespace Survol.Dockit.Packages

/-! ## The lines -/

/-- What is written to the Dockerfile. -/
inductive Line where
  | text (t : Text)
  | pip (namePyModule : Text)
  | alreadyInstalled (pckShort packageName : Text)
  | conflict (pckShort packageName : Text)
  | install (pckShort packageName : Text)
  | missing (pathName : Text)
  | cannotAdd (pathName : Text)
  | comment (filComment : Text)
  | add (pathName : Text)
  | cpanm (filNam : Text)
  deriving DecidableEq

/-- The characters of a line. -/
def Line.toText : Line → Text
  | .text t => t
  | .pip m => "RUN pip --disable-pip-version-check install ".toList ++ m ++ ['\n']
  | .alreadyInstalled s p =>
    "# Already installed ".toList ++ s ++ " -> ".toList ++ p ++ ['\n']
  | .conflict s p => "# Potential conflict with ".toList ++ s ++ " , ".toList ++ p ++ ['\n']
  | .install s p => "RUN yum -y install ".toList ++ s ++ " # ".toList ++ p ++ ['\n']
  | .missing p => "# Origin file does not exist:".toList ++ p ++ ['\n']
  | .cannotAdd p => "# Cannot add non-existent file:".toList ++ p ++ ['\n']
  | .comment c => "# ".toList ++ c ++ ['\n']
  | .add p => "ADD ".toList ++ p ++ [' '] ++ p ++ ['\n']
  | .cpanm p => "RUN cpanm ".toList ++ p ++ ['\n']

/-! ## The host -/

/-- The order in which the elements of a set are visited. -/
structure SetOrder (α : Type) where
  order : List α → List α
  perm : ∀ l, (order l).Perm l

/-- The kinds of dependencies. -/
inductive DependencyKind where
  | python
  | perl
  | binary
  deriving DecidableEq

/-- What `shutil.copy` does with a file: `IOError` is caught, and other exceptions are not. -/
inductive Copying where
  | done
  | ioError
  | raises
  deriving DecidableEq

/-- The host: its packages, its files, whether the directory of the copy of a file is there or can
be made, how the file is copied, the Python modules of its files, and the orders of the sets. -/
structure Host (δ : Type) where
  machine : Machine
  pathExists : Text → Bool
  isDir : Text → Bool
  makeDirs : Text → Bool
  copy : Text → Copying
  pythonCache : Text → List δ
  moduleName : δ → Text
  sortModules : SetOrder δ
  files : SetOrder Text
  kinds : SetOrder DependencyKind

/-- The sorted elements of a set of texts. -/
def sortedTexts (l : List Text) : List Text := l.mergeSort fun a b => decide (a ≤ b)

/-- The Dockerfile, and what its generation keeps. -/
structure Docker where
  packagesCache : FileToPackage
  installedPackages : Dict Text Text
  lines : List Line

/-- What the generation raises: there is no process, or the package of a file is not valid, or the
directory of a file cannot be made, or the file cannot be copied. -/
inductive DockerExn where
  | keyError
  | invalidPackage (filNam : Text)
  | notCopied (pathName : Text)
  deriving DecidableEq

/-- A step of the generation. -/
abbrev DockerM := Py DockerExn Docker

def write (l : Line) : DockerM Unit := .modify fun d => { d with lines := d.lines ++ [l] }

/-- A step that is made under a condition. -/
def guarded (c : Prop) [Decidable c] (m : DockerM Unit) : DockerM Unit :=
  if c then m else Pure.pure ()

/-- The part of `packageName` that the regular expression `(.*)-(.*)-(.*?)\.(.*)` gives: what is
before the last dash but one before the last dot. -/
def pckShort? (packageName : Text) : Option Text := do
  let dot ← rfindChar '.' packageName
  let dash ← rfindChar '-' (packageName.take dot)
  let dash' ← rfindChar '-' (packageName.take dash)
  return packageName.take dash'

/-- A package is named by its name, its version, its release and its platform. -/
theorem pckShort?_eq {name version release platform : Text} (hversion : '-' ∉ version)
    (hrelease : '-' ∉ release) (hplatform : '.' ∉ platform) :
    pckShort? (name ++ '-' :: version ++ '-' :: release ++ '.' :: platform) = some name := by
  have hdot := rfindChar_append hplatform (name ++ '-' :: version ++ '-' :: release)
  have hdash := rfindChar_append hrelease (name ++ '-' :: version)
  have hdash' := rfindChar_append hversion name
  have htake : (name ++ '-' :: version ++ '-' :: release ++ '.' :: platform).take
      (name ++ '-' :: version).length = name ++ '-' :: version := by
    rw [List.append_assoc, List.take_left]
  have hname : (name ++ '-' :: version ++ '-' :: release ++ '.' :: platform).take name.length
      = name := by
    rw [List.append_assoc, List.append_assoc, List.take_left]
  simp only [pckShort?, Option.bind_eq_bind, hdot, Option.bind_some, List.take_left, hdash, htake,
    hdash', hname, Option.pure_def]

example : pckShort? "mariadb-libs-10.1.30-2.fc26.x86_64".toList = some "mariadb-libs".toList := by
  decide

/-- The name under which a package is installed. -/
def pckShortOf (packageName : Text) : Text := (pckShort? packageName).getD packageName

/-- `InstallLinuxPackage` -/
def installLinuxPackage (packageName : Text) : DockerM Unit := do
  let d ← Py.get
  match d.installedPackages.get? packageName with
  | some pckShort => write (.alreadyInstalled pckShort packageName)
  | none =>
    let pckShort := pckShortOf packageName
    Py.modify fun d => { d with installedPackages := d.installedPackages.set packageName pckShort }
    if pckShort = "coreutils".toList then write (.conflict pckShort packageName)
    else write (.install pckShort packageName)

/-- `GetPackagesList`, with the cache of the generation. -/
def packagesOf (m : Machine) (files : List Text) : DockerM (List Text × List Text) :=
  ⟨fun d => ((getPackagesList m id files d.packagesCache).1.mapError .invalidPackage,
    { d with packagesCache := (getPackagesList m id files d.packagesCache).2 })⟩

section
variable {δ : Type} (H : Host δ)

/-- `AddToDockerDir` -/
def addToDockerDir (pathName : Text) (filComment : Option Text) : DockerM Unit :=
  if !H.pathExists pathName then write (.missing pathName)
  else if H.isDir pathName then Pure.pure ()
  else if !H.makeDirs pathName then .raise (.notCopied pathName)
  else match H.copy pathName with
    | .ioError => write (.cannotAdd pathName)
    | .raises => .raise (.notCopied pathName)
    | .done => do
      guarded (isSet filComment = true) (write (.comment (filComment.getD [])))
      write (.add pathName)

/-! ## The kinds of dependencies -/

/-- `IsDepType`, from the attribute `Executable` of the process, if it is known. -/
def DependencyKind.isDepType : DependencyKind → Option Text → Bool
  | .python, some e => contains e "/python".toList || "python".toList.isPrefixOf e
  | .perl, some e => contains e "/perl".toList
  | .binary, _ => true
  | _, none => false

/-- `IsCode` -/
def DependencyKind.isCode (name : Text) : DependencyKind → Bool
  | .python => ".py".toList.isSuffixOf name || ".pyc".toList.isSuffixOf name
  | .perl => ".pl".toList.isSuffixOf name
  | .binary => match findIdx ".so".toList name with
    | some k => 0 < k
    | none => false

def DependencyKind.dependencyName : DependencyKind → Text
  | .python => "Python scripts".toList
  | .perl => "Perl scripts".toList
  | .binary => "Binary programs".toList

def lstDependencies : List DependencyKind := [.python, .perl, .binary]

/-- The dependency of a process: the first one that fits. -/
def dependencyOf (executable : Option Text) : DependencyKind :=
  (lstDependencies.find? (·.isDepType executable)).getD .binary

/-- The sets that the loop on the processes fills. -/
structure Collected where
  accessedCodeFiles : DependencyKind → List Text
  accessedDataFiles : List Text
  binaryExecutables : List Text
  usefulDependencies : List DependencyKind

def Collected.empty : Collected := ⟨fun _ => [], [], [], []⟩

/-- The names of the files that a process has accessed. -/
def accessedNames (w : Objects) (o : CIMProcess) : List Text :=
  o.processFileAccesses.filterMap fun i => (w.fileAccesses[i]?).map (·.dataFile)

/-- One file of a process. -/
def Collected.addFile (oneDep : DependencyKind) (c : Collected) (oneFile : Text) : Collected :=
  if oneDep.isCode oneFile then
    let codeFiles := addToSet (c.accessedCodeFiles oneDep) oneFile
    { c with accessedCodeFiles := Function.update c.accessedCodeFiles oneDep codeFiles }
  else { c with accessedDataFiles := addToSet c.accessedDataFiles oneFile }

/-- The kind of a process is a useful one. -/
def Collected.useful (c : Collected) (oneDep : DependencyKind) : Collected :=
  { c with usefulDependencies := addToSet c.usefulDependencies oneDep }

/-- One process. -/
def Collected.addProcess (w : Objects) (c : Collected) (o : CIMProcess) : Collected :=
  let oneDep := dependencyOf o.executable
  let c := (accessedNames w o).foldl (Collected.addFile oneDep) (c.useful oneDep)
  match o.executable with
  | some anExec => { c with binaryExecutables := addToSet c.binaryExecutables anExec }
  | none => c

/-- The objects of the processes. -/
def processesOf (w : Objects) : List CIMProcess := w.processes.map Prod.snd

/-- The loop on the processes. -/
def collect (w : Objects) : Collected := (processesOf w).foldl (Collected.addProcess w) .empty

/-! ## The generation -/

/-- The Python package in the path of a file. -/
def pythonPackage? (filNam : Text) : Option Text := do
  let splitFil := splitOn '/' filNam
  let ixPack ← (splitFil.idxOf? "site-packages".toList).or
    (splitFil.idxOf? "dist-packages".toList)
  let pckNam ← splitFil[ixPack + 1]?
  if ".py".toList.isSuffixOf pckNam || ".pyc".toList.isSuffixOf pckNam then none
  else return pckNam

/-- Whether a Python file is copied: it is not in the directory of a package, nor in the standard
library. -/
def isCopied (filNam : Text) : Bool :=
  !contains filNam "packages".toList && !"/usr/lib/python2.7/".toList.isPrefixOf filNam &&
    !"/usr/lib64/python2.7".toList.isPrefixOf filNam

/-- The Python packages of some files. -/
def packagesToInstall (files : List Text) : List Text :=
  ((files.filter fun f => contains f "packages".toList).filterMap pythonPackage?).foldl addToSet []

/-- `GenerateDockerDependencies` of the Python scripts. -/
def generatePython (files : List Text) : DockerM Unit := do
  Py.each (fun filNam => addToDockerDir H filNam none) ((H.files.order files).filter isCopied)
  guarded (packagesToInstall (H.files.order files) ≠ [] ∨ files ≠ [])
    (installLinuxPackage "python".toList)
  Py.each (fun m => write (.pip m)) (sortedTexts (packagesToInstall (H.files.order files)))

/-- `GenerateDockerDependencies` of the Perl scripts. -/
def generatePerl (files : List Text) : DockerM Unit :=
  Py.each (fun filNam => write (.cpanm filNam)) (H.files.order files)

/-- `GenerateDockerDependencies` of the binary programs. -/
def generateBinary (files : List Text) : DockerM Unit := do
  let (lstAccessedPackages, unpackaged) ← packagesOf H.machine (H.files.order files)
  write (.text "# Package installations:\n".toList)
  Py.each installLinuxPackage (sortedTexts lstAccessedPackages)
  write (.text ['\n'])
  write (.text "# Non-packaged executable files copies:\n".toList)
  Py.each (fun filNam => addToDockerDir H filNam none) (sortedTexts unpackaged)

/-- `GenerateDockerDependencies` -/
def generateDockerDependencies (files : List Text) : DependencyKind → DockerM Unit
  | .python => generatePython H files
  | .perl => generatePerl H files
  | .binary => generateBinary H files

def categoriesNotInclude : List Text :=
  ["Temporary files".toList, "Pipes and terminals".toList, "Kernel file systems".toList,
    "System config files".toList, "Connected TCP sockets".toList, "Other TCP/IP sockets".toList]

/-- The data files that the last loop does not skip. -/
def isAdded (filNam : Text) : Bool :=
  !(pathCategory filNam ∈ categoriesNotInclude
    || "/usr/include/".toList.isPrefixOf filNam || "/usr/bin/".toList.isPrefixOf filNam
    || "UnknownFileDescr:".toList.isPrefixOf filNam
    || filNam ∈ ["-1".toList, "stdin".toList, "stdout".toList, "stderr".toList, ".".toList]
    || "/.".toList.isSuffixOf filNam || "/".toList.isSuffixOf filNam)

variable [DecidableEq δ]

/-- `FilesToPythonModules` -/
def filesToPythonModules (unpackagedDataFiles : List Text) : List δ × List Text :=
  unpackagedDataFiles.foldl (fun r oneFil =>
    if H.pythonCache oneFil = [] then (r.1, r.2 ++ [oneFil])
    else ((H.pythonCache oneFil).foldl addToSet r.1, r.2)) ([], [])

/-- `GenerateDockerProcessDependencies`: the table of the processes is made with the first one. -/
def generateDockerProcessDependencies (w : Objects) : DockerM Unit := do
  guarded (w.processes = []) (.raise .keyError)
  let c := collect w
  write (.text "################################# Executables:\n".toList)
  let (lstPackages, _) ← packagesOf H.machine (H.files.order c.binaryExecutables)
  Py.each installLinuxPackage (sortedTexts lstPackages)
  write (.text ['\n'])
  write (.text "################################# Dependencies by program type\n".toList)
  Py.each (fun oneDep => do
    write (.text ("# Dependencies: ".toList ++ oneDep.dependencyName ++ ['\n']))
    generateDockerDependencies H (c.accessedCodeFiles oneDep) oneDep
    write (.text ['\n'])) (H.kinds.order c.usefulDependencies)
  let (lstPackagesData, unpackagedDataFiles) ←
    packagesOf H.machine (H.files.order c.accessedDataFiles)
  let (setPythonModules, unknownDataFiles) := filesToPythonModules H unpackagedDataFiles
  guarded (setPythonModules ≠ []) do
    write (.text "# Python modules:\n".toList)
    Py.each (fun m => write (.pip (H.moduleName m))) (H.sortModules.order setPythonModules)
    write (.text ['\n'])
  write (.text "# Data packages:\n".toList)
  Py.each installLinuxPackage (sortedTexts lstPackagesData)
  write (.text ['\n'])
  guarded (unknownDataFiles ≠ []) do
    write (.text "# Data files:\n".toList)
    Py.each (fun filNam => addToDockerDir H filNam (some (pathCategory filNam)))
      ((sortedTexts unknownDataFiles).filter isAdded)
  write (.text ['\n'])

end

/-! ## What is collected -/

/-- What each element of a loop may add. -/
theorem foldl_iff {α σ : Type} {step : σ → α → σ} {P : σ → Prop} {Q : α → Prop}
    (h : ∀ c a, P (step c a) ↔ P c ∨ Q a) (l : List α) (c : σ) :
    P (l.foldl step c) ↔ P c ∨ ∃ a ∈ l, Q a := by
  induction l generalizing c with
  | nil => simp
  | cons a l ih =>
    rw [List.foldl_cons, ih, h, or_assoc]
    simp

theorem mem_foldl_addToSet {α : Type} [DecidableEq α] {l s : List α} {x : α} :
    x ∈ l.foldl addToSet s ↔ x ∈ s ∨ x ∈ l := by
  induction l generalizing s with
  | nil => simp
  | cons y l ih =>
    rw [List.foldl_cons, ih, mem_addToSet, List.mem_cons]
    exact or_assoc

variable {w : Objects} {f : Text}

theorem mem_codeFiles_addFile (dep kind : DependencyKind) (c : Collected) (g : Text) :
    f ∈ (c.addFile dep g).accessedCodeFiles kind ↔
      f ∈ c.accessedCodeFiles kind ∨ (dep = kind ∧ kind.isCode f = true ∧ g = f) := by
  rw [Collected.addFile]
  split
  · rename_i hcode
    by_cases hk : dep = kind
    · subst hk
      dsimp only
      rw [Function.update_self, mem_addToSet]
      exact or_congr_right ⟨by rintro rfl; exact ⟨rfl, hcode, rfl⟩, fun h => h.2.2.symm⟩
    · simp [Function.update_of_ne (Ne.symm hk), hk]
  · rename_i hcode
    simp only [iff_self_or]
    rintro ⟨rfl, h, rfl⟩
    exact absurd h hcode

theorem mem_dataFiles_addFile (dep : DependencyKind) (c : Collected) (g : Text) :
    f ∈ (c.addFile dep g).accessedDataFiles ↔
      f ∈ c.accessedDataFiles ∨ (dep.isCode f = false ∧ g = f) := by
  rw [Collected.addFile]
  split
  · rename_i hcode
    simp only [iff_self_or]
    rintro ⟨h, rfl⟩
    rw [hcode] at h
    cases h
  · rename_i hcode
    rw [mem_addToSet]
    exact or_congr_right ⟨by rintro rfl; exact ⟨by simpa using hcode, rfl⟩, fun h => h.2.symm⟩

theorem files_unchanged (dep : DependencyKind) (l : List Text) (c : Collected) :
    (l.foldl (Collected.addFile dep) c).binaryExecutables = c.binaryExecutables ∧
      (l.foldl (Collected.addFile dep) c).usefulDependencies = c.usefulDependencies := by
  induction l generalizing c with
  | nil => exact ⟨rfl, rfl⟩
  | cons g l ih =>
    have hone : (c.addFile dep g).binaryExecutables = c.binaryExecutables ∧
        (c.addFile dep g).usefulDependencies = c.usefulDependencies := by
      rw [Collected.addFile]
      split <;> exact ⟨rfl, rfl⟩
    exact ⟨(ih _).1.trans hone.1, (ih _).2.trans hone.2⟩

theorem mem_codeFiles_addProcess (kind : DependencyKind) (c : Collected) (o : CIMProcess) :
    f ∈ (c.addProcess w o).accessedCodeFiles kind ↔ f ∈ c.accessedCodeFiles kind ∨
      (f ∈ accessedNames w o ∧ dependencyOf o.executable = kind ∧ kind.isCode f = true) := by
  have h := foldl_iff (P := fun c : Collected => f ∈ c.accessedCodeFiles kind)
    (mem_codeFiles_addFile (dependencyOf o.executable) kind) (accessedNames w o)
    (c.useful (dependencyOf o.executable))
  have hsame : (c.addProcess w o).accessedCodeFiles = ((accessedNames w o).foldl
      (Collected.addFile (dependencyOf o.executable))
      (c.useful (dependencyOf o.executable))).accessedCodeFiles := by
    rw [Collected.addProcess]
    cases o.executable <;> rfl
  rw [hsame, h]
  simp [Collected.useful]

theorem mem_dataFiles_addProcess (c : Collected) (o : CIMProcess) :
    f ∈ (c.addProcess w o).accessedDataFiles ↔ f ∈ c.accessedDataFiles ∨
      (f ∈ accessedNames w o ∧ (dependencyOf o.executable).isCode f = false) := by
  have h := foldl_iff (P := fun c : Collected => f ∈ c.accessedDataFiles)
    (mem_dataFiles_addFile (dependencyOf o.executable)) (accessedNames w o)
    (c.useful (dependencyOf o.executable))
  have hsame : (c.addProcess w o).accessedDataFiles = ((accessedNames w o).foldl
      (Collected.addFile (dependencyOf o.executable))
      (c.useful (dependencyOf o.executable))).accessedDataFiles := by
    rw [Collected.addProcess]
    cases o.executable <;> rfl
  rw [hsame, h]
  simp [Collected.useful]

theorem mem_usefulDependencies_addProcess {kind : DependencyKind} (c : Collected)
    (o : CIMProcess) : kind ∈ (c.addProcess w o).usefulDependencies ↔
      kind ∈ c.usefulDependencies ∨ dependencyOf o.executable = kind := by
  have hsame : (c.addProcess w o).usefulDependencies =
      addToSet c.usefulDependencies (dependencyOf o.executable) := by
    refine Eq.trans ?_ (files_unchanged (dependencyOf o.executable) (accessedNames w o)
      (c.useful (dependencyOf o.executable))).2
    rw [Collected.addProcess]
    cases o.executable <;> rfl
  rw [hsame, mem_addToSet]
  exact or_congr_right eq_comm

theorem mem_binaryExecutables_addProcess (c : Collected) (o : CIMProcess) :
    f ∈ (c.addProcess w o).binaryExecutables ↔
      f ∈ c.binaryExecutables ∨ o.executable = some f := by
  have hsame := (files_unchanged (dependencyOf o.executable) (accessedNames w o)
    (c.useful (dependencyOf o.executable))).1
  rw [Collected.addProcess]
  cases hexe : o.executable with
  | none =>
    rw [hexe] at hsame
    dsimp only
    rw [hsame]
    simp [Collected.useful]
  | some e =>
    rw [hexe] at hsame
    dsimp only
    rw [mem_addToSet, hsame]
    exact or_congr_right ⟨by rintro rfl; rfl, fun h => (Option.some.inj h).symm⟩

/-- The code files of a kind. -/
theorem mem_codeFiles {kind : DependencyKind} : f ∈ (collect w).accessedCodeFiles kind ↔
    ∃ o ∈ processesOf w, f ∈ accessedNames w o ∧ dependencyOf o.executable = kind ∧
      kind.isCode f = true :=
  (foldl_iff (P := fun c : Collected => f ∈ c.accessedCodeFiles kind)
    (mem_codeFiles_addProcess kind) _ _).trans (or_iff_right List.not_mem_nil)

/-- The data files. -/
theorem mem_dataFiles : f ∈ (collect w).accessedDataFiles ↔ ∃ o ∈ processesOf w,
    f ∈ accessedNames w o ∧ (dependencyOf o.executable).isCode f = false :=
  (foldl_iff (P := fun c : Collected => f ∈ c.accessedDataFiles) mem_dataFiles_addProcess _ _).trans
    (or_iff_right List.not_mem_nil)

theorem mem_usefulDependencies {kind : DependencyKind} : kind ∈ (collect w).usefulDependencies ↔
    ∃ o ∈ processesOf w, dependencyOf o.executable = kind :=
  (foldl_iff (P := fun c : Collected => kind ∈ c.usefulDependencies)
    mem_usefulDependencies_addProcess _ _).trans (or_iff_right List.not_mem_nil)

theorem mem_binaryExecutables : f ∈ (collect w).binaryExecutables ↔
    ∃ o ∈ processesOf w, o.executable = some f :=
  (foldl_iff (P := fun c : Collected => f ∈ c.binaryExecutables)
    mem_binaryExecutables_addProcess _ _).trans (or_iff_right List.not_mem_nil)

end Survol.Dockit.Packages
