import Survol.Lib.Memo
import Survol.Lib.Positions
import Survol.Lib.Splitting
import Survol.Dockit.FileAccesses

/-!
# The packages of the files

On Linux, the package that a file comes from is asked to `rpm`, which is slow. The answers are kept
in a dictionary, that is written to a file when the program exits and is read when it starts.

## Main definitions

* `FileToPackage`, `oneFileToPackageLinux`, `getPackagesList` — the code.
* `Session`, `runSessions` — the program is run several times, and each run ends in its own way.
* `packageOf` — the package of a file, without the dictionary.

## Main results

* `runSessions_packages` — each list of files is split as without the dictionary, and nothing is
  raised, if no session changes what an earlier one was answered.
* `count_queries_le` — a file that has a package is asked to `rpm` once, and once more for each
  session that did not write the dictionary.
-/

open PyText

namespace Survol.Dockit.Packages

/-! ## The code -/

/-- The machine: its system, and what `rpm -qf` prints for a file, if it can be run and prints a
text. -/
structure Machine where
  linux : Bool
  rpm : Text → Option Text

/-- The packages of a file, or `None`. -/
abbrev Packs := Option (List Text)

/-- The list is not empty, and is not `None`. -/
def Packs.truthy : Packs → Bool
  | some (_ :: _) => true
  | _ => false

/-- `OneFileToPackageLinuxNoCache`: any exception gives no package. -/
def oneFileToPackageLinuxNoCache (m : Machine) (oneFilNam : Text) : Packs :=
  if m.linux then
    match m.rpm oneFilNam with
    | none => some []
    | some anOut =>
      let aPack := strip anOut
      if "is not owned by any package".toList <:+ aPack then some []
      else if aPack = [] then some []
      else
        let lstPacks := splitOn '\n' aPack
        if lstPacks.head? = some [] then some [] else some lstPacks
  else none

def unpackagedPrefixes : List Text :=
  ["/dev/".toList, "/home/".toList, "/proc/".toList, "/tmp/".toList, "/sys/".toList,
    "/var/cache/".toList] ++ nonFilePrefixes

/-- `CannotBePackaged` -/
def cannotBePackaged (filNam : Text) : Bool :=
  unpackagedPrefixes.any fun pfx => pfx.isPrefixOf filNam

/-- `FileToPackage`: the dictionary with the files that were asked to `rpm`, and whether it has to
be written. -/
structure FileToPackage where
  cacheFilesToPackages : Memo.Cache Text Packs
  dirtyCache : Bool

/-- What is in the file of the dictionary. -/
inductive CacheFile where
  | absent
  /-- It is not a JSON document. -/
  | unreadable
  | saved (d : Dict Text Packs)

/-- The constructor of `FileToPackage`. -/
def FileToPackage.load : CacheFile → FileToPackage
  | .absent => ⟨.ofItems [], false⟩
  | .unreadable => ⟨.ofItems [], true⟩
  | .saved d => ⟨.ofItems d, false⟩

/-- `DumpToFile` -/
def FileToPackage.dumpToFile (c : FileToPackage) (file : CacheFile) : CacheFile :=
  if c.dirtyCache then .saved c.cacheFilesToPackages.items else file

/-- `OneFileToPackageLinux` -/
def oneFileToPackageLinux (m : Machine) (oneFilNam : Text) (c : FileToPackage) :
    Packs × FileToPackage :=
  if cannotBePackaged oneFilNam then (some [], c) else
    let r := Memo.lookup (oneFileToPackageLinuxNoCache m) c.cacheFilesToPackages oneFilNam
    let found := (c.cacheFilesToPackages.items.get? oneFilNam).isSome
    (r.1, ⟨r.2, c.dirtyCache || (!found && r.1.truthy)⟩)

variable {φ α : Type} [DecidableEq α]

/-- An element is added to a set, the new ones at the end. -/
def addToSet (s : List α) (x : α) : List α := if x ∈ s then s else s ++ [x]

/-- The loop of `GetPackagesList`; `name` is the attribute `Name` of a file. A file is raised when
its first package is empty. -/
def packagesLoop (m : Machine) (name : φ → Text) (lstPackages : List Text) (unknownFiles : List φ)
    (c : FileToPackage) : List φ → Except φ (List Text × List φ) × FileToPackage
  | [] => (.ok (lstPackages, unknownFiles), c)
  | oneFil :: files =>
    let (lstPacks, c) := oneFileToPackageLinux m (name oneFil) c
    match lstPacks with
    | some (aPack :: _) =>
      if aPack = [] then (.error oneFil, c)
      else packagesLoop m name (addToSet lstPackages aPack) unknownFiles c files
    | _ => packagesLoop m name lstPackages (unknownFiles ++ [oneFil]) c files

/-- `GetPackagesList` -/
def getPackagesList (m : Machine) (name : φ → Text) (lstPackagedFiles : List φ)
    (c : FileToPackage) : Except φ (List Text × List φ) × FileToPackage :=
  packagesLoop m name [] [] c lstPackagedFiles

/-! ## Without the dictionary -/

/-- The package of a file. -/
def packageOf (m : Machine) (filNam : Text) : Option Text :=
  if cannotBePackaged filNam then none else (oneFileToPackageLinuxNoCache m filNam).bind List.head?

/-- The packages of some files, each one once, and the files without a package. -/
structure Split (m : Machine) (name : φ → Text) (files : List φ) (lstPackages : List Text)
    (unknownFiles : List φ) : Prop where
  packages : ∀ p, p ∈ lstPackages ↔ ∃ f ∈ files, packageOf m (name f) = some p
  nodup : lstPackages.Nodup
  unknown : unknownFiles = files.filter fun f => packageOf m (name f) = none

/-- No package is empty. -/
theorem head?_ne_nil (m : Machine) (filNam : Text) :
    (oneFileToPackageLinuxNoCache m filNam).bind List.head? ≠ some [] := by
  rw [oneFileToPackageLinuxNoCache]
  split
  · cases m.rpm filNam with
    | none => simp
    | some anOut =>
      dsimp only
      split
      · simp
      · split
        · simp
        · split
          · simp
          · rename_i h
            exact h
  · simp

/-- The dictionary has what `rpm` gives. -/
def Agrees (m : Machine) (c : FileToPackage) : Prop :=
  Memo.Sound (oneFileToPackageLinuxNoCache m) c.cacheFilesToPackages

variable {m : Machine} {name : φ → Text} {c : FileToPackage}

theorem agrees_oneFile (h : Agrees m c) (filNam : Text) :
    Agrees m (oneFileToPackageLinux m filNam c).2 := by
  rw [oneFileToPackageLinux]
  split
  · exact h
  · exact Memo.Sound.lookup h filNam

theorem head?_oneFile (h : Agrees m c) (filNam : Text) :
    (oneFileToPackageLinux m filNam c).1.bind List.head? = packageOf m filNam := by
  rw [oneFileToPackageLinux, packageOf]
  split
  · rfl
  · exact congrArg (Option.bind · List.head?) (Memo.Sound.value h filNam)

/-- One turn of the loop, for a file with a package. -/
theorem packagesLoop_cons_of_some (h : Agrees m c) {f : φ} {p : Text}
    (hf : packageOf m (name f) = some p) (lstPackages : List Text) (unknownFiles files : List φ) :
    packagesLoop m name lstPackages unknownFiles c (f :: files) =
      packagesLoop m name (addToSet lstPackages p) unknownFiles
        (oneFileToPackageLinux m (name f) c).2 files := by
  have hhead := head?_oneFile h (name f)
  rw [hf] at hhead
  have hne : p ≠ [] := by
    rintro rfl
    rw [packageOf] at hf
    split at hf
    · cases hf
    · exact head?_ne_nil m (name f) hf
  rw [packagesLoop]
  cases hr : (oneFileToPackageLinux m (name f) c).1 with
  | none =>
    rw [hr] at hhead
    cases hhead
  | some lst =>
    rw [hr] at hhead
    cases lst with
    | nil => cases hhead
    | cons q qs =>
      cases hhead
      dsimp only
      rw [hr]
      dsimp only
      rw [if_neg hne]

/-- One turn of the loop, for a file without a package. -/
theorem packagesLoop_cons_of_none (h : Agrees m c) {f : φ} (hf : packageOf m (name f) = none)
    (lstPackages : List Text) (unknownFiles files : List φ) :
    packagesLoop m name lstPackages unknownFiles c (f :: files) =
      packagesLoop m name lstPackages (unknownFiles ++ [f])
        (oneFileToPackageLinux m (name f) c).2 files := by
  have hhead := head?_oneFile h (name f)
  rw [hf] at hhead
  rw [packagesLoop]
  cases hr : (oneFileToPackageLinux m (name f) c).1 with
  | none =>
    dsimp only
    rw [hr]
  | some lst =>
    rw [hr] at hhead
    cases lst with
    | nil =>
      dsimp only
      rw [hr]
    | cons q qs => cases hhead

theorem mem_addToSet {s : List α} {x y : α} : y ∈ addToSet s x ↔ y ∈ s ∨ y = x := by
  rw [addToSet]
  split
  · rename_i h
    constructor
    · exact .inl
    · rintro (hy | rfl) <;> assumption
  · rw [List.mem_append, List.mem_singleton]

theorem nodup_addToSet {s : List α} (h : s.Nodup) (x : α) : (addToSet s x).Nodup := by
  rw [addToSet]
  split
  · exact h
  · rename_i hx
    exact List.nodup_append.mpr
      ⟨h, List.nodup_singleton x, fun a ha b hb => by rintro rfl; simp_all⟩

theorem Split.concat_of_some {done : List φ} {pk : List Text} {un : List φ}
    (h : Split m name done pk un) {f : φ} {p : Text} (hf : packageOf m (name f) = some p) :
    Split m name (done ++ [f]) (addToSet pk p) un where
  packages q := by
    simp only [mem_addToSet, h.packages, List.mem_append, List.mem_singleton]
    constructor
    · rintro (⟨g, hg, hq⟩ | rfl)
      · exact ⟨g, .inl hg, hq⟩
      · exact ⟨f, .inr rfl, hf⟩
    · rintro ⟨g, hg | rfl, hq⟩
      · exact .inl ⟨g, hg, hq⟩
      · exact .inr (Option.some.inj (hq.symm.trans hf))
  nodup := nodup_addToSet h.nodup p
  unknown := by simp [List.filter_append, h.unknown, hf]

theorem Split.concat_of_none {done : List φ} {pk : List Text} {un : List φ}
    (h : Split m name done pk un) {f : φ} (hf : packageOf m (name f) = none) :
    Split m name (done ++ [f]) pk (un ++ [f]) where
  packages q := by
    simp only [h.packages, List.mem_append, List.mem_singleton]
    constructor
    · rintro ⟨g, hg, hq⟩
      exact ⟨g, .inl hg, hq⟩
    · rintro ⟨g, hg | rfl, hq⟩
      · exact ⟨g, hg, hq⟩
      · rw [hf] at hq
        cases hq
  nodup := h.nodup
  unknown := by simp [List.filter_append, h.unknown, hf]

theorem split_nil : Split m name [] [] [] where
  packages p := by simp
  nodup := List.nodup_nil
  unknown := rfl

/-- The loop splits the files, after those that were split already. -/
theorem packagesLoop_split (h : Agrees m c) {done files : List φ} {lstPackages : List Text}
    {unknownFiles : List φ} (hdone : Split m name done lstPackages unknownFiles) :
    ∃ pk un, (packagesLoop m name lstPackages unknownFiles c files).1 = .ok (pk, un) ∧
      Split m name (done ++ files) pk un := by
  induction files generalizing c done lstPackages unknownFiles with
  | nil => exact ⟨lstPackages, unknownFiles, rfl, by rwa [List.append_nil]⟩
  | cons f files ih =>
    have hagrees := agrees_oneFile h (name f)
    rw [List.append_cons]
    cases hf : packageOf m (name f) with
    | some p =>
      rw [packagesLoop_cons_of_some h hf]
      exact ih hagrees (hdone.concat_of_some hf)
    | none =>
      rw [packagesLoop_cons_of_none h hf]
      exact ih hagrees (hdone.concat_of_none hf)

/-- What each question keeps is kept by a list of files. -/
theorem packagesLoop_keeps {P : FileToPackage → Prop} {files : List φ}
    (hstep : ∀ c, ∀ f ∈ files, P c → P (oneFileToPackageLinux m (name f) c).2) (hc : P c)
    (lstPackages : List Text) (unknownFiles : List φ) :
    P (packagesLoop m name lstPackages unknownFiles c files).2 := by
  induction files generalizing c lstPackages unknownFiles with
  | nil => exact hc
  | cons f files ih =>
    have hf := hstep c f (by simp) hc
    have hrest : ∀ c, ∀ g ∈ files, P c → P (oneFileToPackageLinux m (name g) c).2 :=
      fun c g hg => hstep c g (by simp [hg])
    rw [packagesLoop]
    dsimp only
    split
    · split
      · exact hf
      · exact ih hrest hf _ _
    · exact ih hrest hf _ _

/-! ## Sessions -/

/-- How a session ends: the dictionary is written where it has to be, or it is not, or its file is
cut. -/
inductive Ending where
  | exits
  | killed
  | truncated
  deriving DecidableEq

/-- One run of the program: the machine as it is then, what the program asks, and how the run
ends. -/
structure Session (φ : Type) where
  machine : Machine
  calls : List (List φ)
  ending : Ending

/-- The calls of `GetPackagesList` in one run: an exception ends it. -/
def runCalls (m : Machine) (name : φ → Text) (c : FileToPackage) :
    List (List φ) → List (Except φ (List Text × List φ)) × FileToPackage
  | [] => ([], c)
  | files :: calls =>
    match getPackagesList m name files c with
    | (.error f, c) => ([.error f], c)
    | (.ok r, c) =>
      let (rs, c) := runCalls m name c calls
      (.ok r :: rs, c)

/-- The file after a session. -/
def Ending.file (c : FileToPackage) (file : CacheFile) : Ending → CacheFile
  | .exits => c.dumpToFile file
  | .killed => file
  | .truncated => .unreadable

/-- The results of the sessions, and the files that were asked to `rpm`. -/
def runSessions (name : φ → Text) (file : CacheFile) :
    List (Session φ) → List (List (Except φ (List Text × List φ))) × List Text
  | [] => ([], [])
  | s :: sessions =>
    let (rs, c) := runCalls s.machine name (.load file) s.calls
    let (rss, queries) := runSessions name (s.ending.file c file) sessions
    (rs :: rss, c.cacheFilesToPackages.computed ++ queries)

/-- The file after some sessions. -/
def fileAfter (name : φ → Text) (file : CacheFile) : List (Session φ) → CacheFile
  | [] => file
  | s :: sessions =>
    fileAfter name (s.ending.file (runCalls s.machine name (.load file) s.calls).2 file) sessions

/-- What `rpm` answers in a session, it answers on another machine too. -/
def Session.SameAnswers (name : φ → Text) (s : Session φ) (m : Machine) : Prop :=
  ∀ files ∈ s.calls, ∀ f ∈ files, oneFileToPackageLinuxNoCache m (name f)
    = oneFileToPackageLinuxNoCache s.machine (name f)

instance (name : φ → Text) (s : Session φ) (m : Machine) : Decidable (s.SameAnswers name m) :=
  inferInstanceAs (Decidable (∀ files ∈ s.calls, ∀ f ∈ files, _ = _))

/-- The call has given the packages of the files. -/
def Answers (m : Machine) (name : φ → Text) (files : List φ)
    (r : Except φ (List Text × List φ)) : Prop :=
  ∃ pk un, r = .ok (pk, un) ∧ Split m name files pk un

/-- What the file has is what `rpm` gives. -/
def CacheFile.Agrees (m : Machine) (file : CacheFile) : Prop :=
  ∀ d, file = .saved d → ∀ k v, d.get? k = some v → v = oneFileToPackageLinuxNoCache m k

theorem agrees_load {file : CacheFile} (h : file.Agrees m) : Agrees m (.load file) := by
  cases file with
  | saved d => exact Memo.Sound.ofItems (h d rfl)
  | absent => exact Memo.Sound.ofItems (by intro k v hv; cases hv)
  | unreadable => exact Memo.Sound.ofItems (by intro k v hv; cases hv)

/-- The dictionary of a session has what `rpm` gives on another machine. -/
def Holds (m : Machine) (c : FileToPackage) : Prop :=
  ∀ k v, c.cacheFilesToPackages.items.get? k = some v → v = oneFileToPackageLinuxNoCache m k

theorem holds_load {file : CacheFile} (h : file.Agrees m) : Holds m (.load file) :=
  (agrees_load h).agrees

/-- A question whose answer is the same on another machine. -/
theorem holds_oneFile {m' : Machine} {filNam : Text}
    (hsame : oneFileToPackageLinuxNoCache m' filNam = oneFileToPackageLinuxNoCache m filNam)
    (h : Holds m' c) : Holds m' (oneFileToPackageLinux m filNam c).2 := by
  rw [oneFileToPackageLinux]
  split
  · exact h
  · cases hget : c.cacheFilesToPackages.items.get? filNam with
    | some lstPacks =>
      rw [Memo.lookup_of_some hget]
      exact h
    | none =>
      rw [Memo.lookup_of_none hget]
      intro k v hv
      rw [Dict.get?_set] at hv
      split at hv
      · rename_i hk
        rw [← Option.some.inj hv, ← hk, hsame]
      · exact h k v hv

theorem agrees_file {file : CacheFile} (hfile : file.Agrees m) (hc : Holds m c)
    (ending : Ending) : (ending.file c file).Agrees m := by
  cases ending with
  | exits =>
    rw [Ending.file, FileToPackage.dumpToFile]
    split
    · rintro d ⟨⟩
      exact hc
    · exact hfile
  | killed => exact hfile
  | truncated =>
    intro d hd
    cases hd

theorem runCalls_keeps {P : FileToPackage → Prop} {calls : List (List φ)}
    (hstep : ∀ c, ∀ files ∈ calls, ∀ f ∈ files, P c →
      P (oneFileToPackageLinux m (name f) c).2) (hc : P c) :
    P (runCalls m name c calls).2 := by
  induction calls generalizing c with
  | nil => exact hc
  | cons files calls ih =>
    have hfiles : P (getPackagesList m name files c).2 :=
      packagesLoop_keeps (fun c => hstep c files (by simp)) hc _ _
    have hrest : ∀ c, ∀ gs ∈ calls, ∀ f ∈ gs, P c → P (oneFileToPackageLinux m (name f) c).2 :=
      fun c gs hgs => hstep c gs (by simp [hgs])
    rw [runCalls]
    split
    · rename_i hr
      rwa [hr] at hfiles
    · rename_i hr
      rw [hr] at hfiles
      exact ih hrest hfiles

theorem agrees_getPackagesList (h : Agrees m c) (files : List φ) :
    Agrees m (getPackagesList m name files c).2 :=
  packagesLoop_keeps (P := Agrees m) (fun _ f _ hc => agrees_oneFile hc (name f)) h _ _

/-- A run gives the packages of each list of files. -/
theorem runCalls_answers (h : Agrees m c) (calls : List (List φ)) :
    List.Forall₂ (Answers m name) calls (runCalls m name c calls).1 := by
  induction calls generalizing c with
  | nil => exact .nil
  | cons files calls ih =>
    obtain ⟨pk, un, hr, hsplit⟩ : ∃ pk un, (getPackagesList m name files c).1 = .ok (pk, un) ∧
        Split m name files pk un := packagesLoop_split h split_nil
    have hagrees : Agrees m (getPackagesList m name files c).2 := agrees_getPackagesList h files
    have hpair : getPackagesList m name files c
        = (.ok (pk, un), (getPackagesList m name files c).2) := Prod.ext hr rfl
    rw [runCalls, hpair]
    exact .cons ⟨pk, un, rfl, hsplit⟩ (ih hagrees)

theorem agrees_absent (m : Machine) : CacheFile.absent.Agrees m := by
  intro d hd
  cases hd

/-- The file of a session agrees with a machine that has its answers. -/
theorem agrees_session {file : CacheFile} {s : Session φ} (hsame : s.SameAnswers name m)
    (hfile : file.Agrees m) :
    (s.ending.file (runCalls s.machine name (.load file) s.calls).2 file).Agrees m :=
  agrees_file hfile (runCalls_keeps (P := Holds m)
    (fun _ files hfiles f hf hc => holds_oneFile (hsame files hfiles f hf) hc)
    (holds_load hfile)) s.ending

theorem agrees_fileAfter {file : CacheFile} (hfile : file.Agrees m) {sessions : List (Session φ)}
    (hsame : ∀ s ∈ sessions, s.SameAnswers name m) : (fileAfter name file sessions).Agrees m := by
  induction sessions generalizing file with
  | nil => exact hfile
  | cons s sessions ih =>
    exact ih (agrees_session (hsame s (by simp)) hfile) fun t ht => hsame t (by simp [ht])

/-- In each session, whatever the ends of those before, each list of files is split as without the
dictionary, and nothing is raised, if `rpm` does not change what it has answered. -/
theorem runSessions_packages (name : φ → Text) (sessions : List (Session φ))
    (hsame : sessions.Pairwise fun s t => s.SameAnswers name t.machine) :
    List.Forall₂ (fun s rs => List.Forall₂ (Answers s.machine name) s.calls rs) sessions
      (runSessions name .absent sessions).1 := by
  have hfile : ∀ s ∈ sessions, CacheFile.absent.Agrees s.machine :=
    fun s _ => agrees_absent s.machine
  generalize CacheFile.absent = file at hfile ⊢
  -- on the sessions: the file agrees with the machines of all those that come
  induction sessions generalizing file with
  | nil => exact .nil
  | cons s sessions ih =>
    rw [List.pairwise_cons] at hsame
    have hs := hfile s (by simp)
    rw [runSessions]
    refine .cons (runCalls_answers (agrees_load hs) s.calls) (ih hsame.2 _ fun t ht => ?_)
    exact agrees_session (hsame.1 t ht) (hfile t (by simp [ht]))

/-- A machine with one package. -/
def oneFilePackaged : Machine where
  linux := true
  rpm filNam := some (if filNam = "/bin/ls".toList then "coreutils-8.27-5.fc26.x86_64\n".toList
    else "file is not owned by any package\n".toList)

/-- The machine, when another package is installed. -/
def twoFilesPackaged : Machine where
  linux := true
  rpm filNam :=
    if filNam = "/usr/bin/vim".toList then some "vim-enhanced-8.0.586-1.fc26.x86_64\n".toList
    else oneFilePackaged.rpm filNam

/-- The package of a file is installed before it is asked for. -/
def vimInstalled : List (Session Text) :=
  [⟨oneFilePackaged, [["/bin/ls".toList, "/etc/x".toList]], .exits⟩,
    ⟨twoFilesPackaged, [["/usr/bin/vim".toList, "/bin/ls".toList], ["/etc/x".toList]], .killed⟩,
    ⟨twoFilesPackaged, [["/bin/ls".toList]], .exits⟩]

theorem runSessions_packages_vimInstalled :
    List.Forall₂ (fun s rs => List.Forall₂ (Answers s.machine id) s.calls rs) vimInstalled
      (runSessions id .absent vimInstalled).1 :=
  runSessions_packages id vimInstalled (by decide)

/-! ## What is asked -/

/-- The files whose packages are in the file of the dictionary. -/
def CacheFile.keys : CacheFile → List Text
  | .saved d => d.keys
  | _ => []

/-- What the dictionary knows about a file that has a package, in a session that has read `file`. -/
structure Knows (filNam : Text) (file : CacheFile) (c : FileToPackage) : Prop where
  kept : filNam ∈ file.keys → filNam ∈ c.cacheFilesToPackages.items.keys
  found : filNam ∈ file.keys → filNam ∉ c.cacheFilesToPackages.computed
  asked : filNam ∈ c.cacheFilesToPackages.computed →
    c.dirtyCache = true ∧ filNam ∈ c.cacheFilesToPackages.items.keys
  once : c.cacheFilesToPackages.computed.count filNam ≤ 1

variable {filNam : Text} {file : CacheFile}

theorem knows_load (filNam : Text) (file : CacheFile) : Knows filNam file (.load file) := by
  cases file <;> constructor <;> simp [FileToPackage.load, Memo.Cache.ofItems, CacheFile.keys]

theorem knows_oneFile (hpack : (oneFileToPackageLinuxNoCache m filNam).truthy = true)
    (oneFilNam : Text) (h : Knows filNam file c) :
    Knows filNam file (oneFileToPackageLinux m oneFilNam c).2 := by
  rw [oneFileToPackageLinux]
  split
  · exact h
  · cases hget : c.cacheFilesToPackages.items.get? oneFilNam with
    | some lstPacks =>
      rw [Memo.lookup_of_some hget]
      simpa using h
    | none =>
      have hnew : oneFilNam ∉ c.cacheFilesToPackages.items.keys :=
        (Dict.get?_eq_none_iff _ _).mp hget
      rw [Memo.lookup_of_none hget]
      constructor
      · intro hkey
        exact (Dict.mem_keys_set _ _ _ _).mpr (.inr (h.kept hkey))
      · intro hkey hmem
        rcases List.mem_append.mp hmem with hmem | hmem
        · exact h.found hkey hmem
        · exact hnew (List.mem_singleton.mp hmem ▸ h.kept hkey)
      · intro hmem
        rw [Dict.mem_keys_set]
        rcases List.mem_append.mp hmem with hmem | hmem
        · exact ⟨by simp [(h.asked hmem).1], .inr (h.asked hmem).2⟩
        · rw [List.mem_singleton] at hmem
          subst hmem
          exact ⟨by simp [hpack], .inl rfl⟩
      · -- what was asked is in the dictionary
        dsimp only
        rw [List.count_append]
        by_cases heq : oneFilNam = filNam
        · subst heq
          have hzero : c.cacheFilesToPackages.computed.count oneFilNam = 0 :=
            List.count_eq_zero.mpr fun hmem => hnew (h.asked hmem).2
          simp [hzero]
        · have := h.once
          simpa [heq] using this

theorem knows_runCalls (hpack : (oneFileToPackageLinuxNoCache m filNam).truthy = true)
    (calls : List (List φ)) : Knows filNam file (runCalls m name (.load file) calls).2 :=
  runCalls_keeps (P := Knows filNam file)
    (fun _ _ _ f _ hc => knows_oneFile hpack (name f) hc) (knows_load filNam file)

/-- After a normal exit, the file has what it had and what was asked. -/
theorem Knows.mem_dumpToFile (h : Knows filNam file c)
    (hmem : filNam ∈ file.keys ∨ filNam ∈ c.cacheFilesToPackages.computed) :
    filNam ∈ (c.dumpToFile file).keys := by
  rw [FileToPackage.dumpToFile]
  split
  · exact hmem.elim h.kept fun hasked => (h.asked hasked).2
  · rename_i hdirty
    exact hmem.elim id fun hasked => absurd (h.asked hasked).1 hdirty

/-- Over some sessions, a file that has a package and is not in the first file is asked to `rpm`
once, and once more for each session that does not exit. -/
theorem count_queries_add_le (sessions : List (Session φ))
    (hpack : ∀ s ∈ sessions, (oneFileToPackageLinuxNoCache s.machine filNam).truthy = true) :
    (runSessions name file sessions).2.count filNam + (if filNam ∈ file.keys then 1 else 0)
      ≤ 1 + sessions.countP (·.ending ≠ .exits) := by
  induction sessions generalizing file with
  | nil =>
    rw [runSessions, List.count_nil]
    split <;> simp
  | cons s sessions ih =>
    have hknows : Knows filNam file (runCalls s.machine name (.load file) s.calls).2 :=
      knows_runCalls (hpack s (by simp)) s.calls
    have hrest := fun file => @ih file fun t ht => hpack t (by simp [ht])
    rw [runSessions, List.countP_cons]
    dsimp only
    rw [List.count_append]
    generalize (runCalls s.machine name (.load file) s.calls).2 = c at *
    replace hrest := hrest (s.ending.file c file)
    have honce := hknows.once
    have hfound (h : filNam ∈ file.keys) : c.cacheFilesToPackages.computed.count filNam = 0 :=
      List.count_eq_zero.mpr (hknows.found h)
    have hzero (h : filNam ∉ c.cacheFilesToPackages.computed) :
        c.cacheFilesToPackages.computed.count filNam = 0 := List.count_eq_zero.mpr h
    by_cases hexits : s.ending = .exits
    · -- what the session found or asked is written
      rw [hexits, Ending.file] at hrest
      have hmem := hknows.mem_dumpToFile
      have hgood : ¬ decide (s.ending ≠ .exits) = true := by simp [hexits]
      rw [if_neg hgood, hexits, Ending.file]
      by_cases hold : filNam ∈ file.keys
      · have := hfound hold
        rw [if_pos (hmem (.inl hold))] at hrest
        rw [if_pos hold]
        omega
      · rw [if_neg hold]
        by_cases hasked : filNam ∈ c.cacheFilesToPackages.computed
        · rw [if_pos (hmem (.inr hasked))] at hrest
          omega
        · have := hzero hasked
          omega
    · have hbad : decide (s.ending ≠ .exits) = true := by simp [hexits]
      rw [if_pos hbad]
      by_cases hold : filNam ∈ file.keys
      · have := hfound hold
        rw [if_pos hold]
        omega
      · rw [if_neg hold]
        omega

/-- A file that has a package in each session is asked to `rpm` once over all the sessions, and
once more for each session that did not exit. -/
theorem count_queries_le (name : φ → Text) (sessions : List (Session φ)) {filNam : Text}
    (hpack : ∀ s ∈ sessions, (packageOf s.machine filNam).isSome) :
    (runSessions name .absent sessions).2.count filNam
      ≤ 1 + sessions.countP (·.ending ≠ .exits) := by
  refine (Nat.le_add_right _ _).trans (count_queries_add_le sessions fun s hs => ?_)
  have := hpack s hs
  rw [packageOf] at this
  split at this
  · cases this
  · cases hlst : oneFileToPackageLinuxNoCache s.machine filNam with
    | none =>
      rw [hlst] at this
      cases this
    | some lst =>
      rw [hlst] at this
      cases lst with
      | nil => cases this
      | cons p ps => rfl

theorem count_queries_ls_le :
    (runSessions id .absent vimInstalled).2.count "/bin/ls".toList ≤ 2 :=
  count_queries_le id vimInstalled (by decide)

end Survol.Dockit.Packages
