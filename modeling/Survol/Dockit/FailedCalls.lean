import Survol.Dockit.CachedAccesses
import Survol.Dockit.Creations

/-!
# Calls that fail

A failed call prints a negative number, and `strace` also the name of the error. Each model has its
own test for it, or none: `open` looks for one error name in the returned text, which may also be a
path, `read` converts the text to a number, and the others do not look at it. What a model does is
given here by pure functions of the state before, for a process that is known.

## Main definitions

* `FallibleCall`, `IsFailure`, `IsDescriptor` — the calls and what they return.
* `Unharmed`, `Harmless`, `Recorded` — what a model should leave alone, and what it should record.
* `openPath`, `openatPath`, `acceptedFile` — the file that an opening gives.
* `TellsPath` — the path that the line of an opening tells.
* `Spared` — when a failed call is harmless.
-/

open PyText Py

namespace Survol.Dockit

/-! ## The calls -/

/-- The calls whose failures are considered. -/
inductive FallibleCall
  | opens
  | openat
  | socket
  | clone
  | vfork
  | read
  | write
  deriving DecidableEq

/-- The name of a call. -/
def FallibleCall.name : FallibleCall → Text
  | opens => "open".toList
  | openat => "openat".toList
  | socket => "socket".toList
  | clone => "clone".toList
  | vfork => "vfork".toList
  | read => "read".toList
  | write => "write".toList

/-- The model of a call. -/
def FallibleCall.build (env : Env) (core : BatchLetCore) : FallibleCall → ModelM
  | opens => batchLetSysOpen env core
  | openat => batchLetSysOpenat env core
  | socket => batchLetSysSocket env core
  | clone => batchLetSysClone env core
  | vfork => batchLetSysVfork env core
  | read => batchLetSysRead env core
  | write => batchLetSysWrite env core

/-- What a failed call prints: `-1 EXXX (message)`, or a negative number with `ltrace`. -/
def IsFailure (tracer : Tracer) (retValue : Text) : Prop :=
  match tracer with
  | .strace => ∃ error message,
      retValue = "-1 E".toList ++ error ++ " (".toList ++ message ++ ")".toList
  | .ltrace => ∃ n : ℕ, retValue = '-' :: Nat.toDigits 10 (n + 1)

/-- What a successful opening prints: a descriptor, with or without its path. -/
def IsDescriptor (retValue : Text) : Prop :=
  ∃ n : ℕ, retValue = Nat.toDigits 10 n ∨
    ∃ path, retValue = Nat.toDigits 10 n ++ '<' :: path ++ ['>']

/-! ## What a call changes -/

/-- The byte counters of an access. -/
def byteCounters (a : FileAccess) : Option ℤ × Option ℤ := (a.bytesRead, a.bytesWritten)

/-- No access is created, no counter of bytes changes, no descriptor is bound, and no process is
created but `pid`. -/
structure Unharmed (pid : ℤ) (o o' : Objects) : Prop where
  bytes : o'.fileAccesses.map byteCounters = o.fileAccesses.map byteCounters
  mapFilDes : o'.mapFilDesToPathName = o.mapFilDesToPathName
  processes : ∀ p ∈ o'.processes.keys, p ∈ o.processes.keys ∨ p = pid

/-- The computation raises nothing and harms nothing. -/
def Harmless {α : Type} (pid : ℤ) (m : ObjM α) (o : Objects) : Prop :=
  ∃ x o', m.run o = (.ok x, o') ∧ Unharmed pid o o'

/-- The file `name` is opened once more by the process `pid`. -/
def OpenedOnce (o o' : Objects) (pid : ℤ) (name : Text) : Prop :=
  ∃ i a, o'.cachedAccess pid name = some i ∧ o'.fileAccesses[i]? = some a ∧ a.process = pid ∧
    a.dataFile = name ∧ a.openTime.isSome ∧
    a.numOpen = increment (o.fileAccesses[i]?.bind (·.numOpen))

section
variable (o : Objects) (core : BatchLetCore)

/-- The directory that the names are relative to, for a process that is known. -/
def currentDir : Text := if core.pid = 0 then [] else o.processCurrentDir core.pid

/-- The file of a path, as a process sees it; `none` where the path is not accepted. -/
def acceptedFile (pathName : Text) : Option Text :=
  (toAbsPath (.path (currentDir o core)) pathName).toOption

/-- The text of an argument that is not a list. -/
def argText? : Arg → Option Text
  | .str s => some s
  | .list _ => none

/-- The path that an `open` gives. -/
def openPath (retValue : Text) : Option Text :=
  match core.tracer with
  | .strace => some (streamPathname o.mapFilDesToPathName retValue)
  | .ltrace => core.parsedArgs[0]?.bind argText?

/-- The directory of an `openat`. -/
def openatDir (dirNam : Arg) : Option DirPath :=
  if dirNam = .str atFdCwd then some (.path (o.processCurrentDir core.pid))
  else (argText? dirNam).bind fun s =>
    (acceptedFile o core (streamPathname o.mapFilDesToPathName s)).map fun _ => .object

/-- The path that an `openat` gives. -/
def openatPath (retValue : Text) : Option Text :=
  match core.tracer with
  | .strace => some (streamPathname o.mapFilDesToPathName retValue)
  | .ltrace =>
    core.parsedArgs[0]?.bind fun dirNam => (openatDir o core dirNam).bind fun dirPath =>
      (core.parsedArgs[1]?.bind argText?).bind fun filNam => (toAbsPath dirPath filNam).toOption

/-- The table of the descriptors after an opening. -/
def storedFilDes (retValue pathName : Text) : Dict Text Text :=
  match core.tracer with
  | .strace => o.mapFilDesToPathName
  | .ltrace => o.mapFilDesToPathName.set retValue pathName

/-- The access of a path is cached already. -/
def IsCached (pathName : Text) : Prop :=
  ∃ name, acceptedFile o core pathName = some name ∧ (o.cachedAccess core.pid name).isSome

/-- The path was opened before, with the same descriptor. -/
def IsReopened (retValue : Text) (path : Option Text) : Prop :=
  ∃ pathName, path = some pathName ∧
    storedFilDes o core retValue pathName = o.mapFilDesToPathName ∧ IsCached o core pathName

/-- When a failed call is harmless. -/
def Spared (retValue : Text) : FallibleCall → Prop
  | .opens => invalidReturnedFileDescriptor retValue core.tracer = true ∨
      IsReopened o core retValue (openPath o core retValue)
  | .openat => IsReopened o core retValue (openatPath o core retValue)
  | .socket => (acceptedFile o core (streamPathname o.mapFilDesToPathName retValue)).isSome
  | .clone => core.tracer = .ltrace ∧
      ∃ pid, hexInt? retValue = some pid ∧ pid ∈ o.processes.keys ∧ pid ≠ core.pid
  | .vfork => core.tracer = .ltrace ∧
      ∃ pid, hexInt? retValue = some pid ∧ pid ∈ o.processes.keys ∧ pid ≠ core.pid
  | .read => core.tracer = .strace
  | .write => core.tracer = .strace ∧ ∃ filDes, core.parsedArgs[0]? = some (.str filDes) ∧
      IsCached o core (streamPathname o.mapFilDesToPathName filDes)

end

/-! ## The returned text -/

/-- An error of `strace` is not a number. -/
theorem int?_of_isFailure_strace {retValue : Text} (h : IsFailure .strace retValue) :
    int? retValue = none := by
  obtain ⟨error, message, rfl⟩ := h
  have hstrip : strip ("-1 E".toList ++ error ++ " (".toList ++ message ++ ")".toList) =
      "-1 E".toList ++ error ++ " (".toList ++ message ++ ")".toList := by
    have hhead : ("-1 E".toList ++ error ++ " (".toList ++ message ++
        ")".toList).dropWhile isBlank =
          "-1 E".toList ++ error ++ " (".toList ++ message ++ ")".toList := rfl
    rw [strip, hhead, show ")".toList = [')'] from rfl, List.rdropWhile_concat_neg]
    decide
  rw [int?, hstrip]
  have hsigned : signed (nat? 10) ("-1 E".toList ++ error ++ " (".toList ++ message ++ ")".toList) =
      (nat? 10 ("1 E".toList ++ error ++ " (".toList ++ message ++ ")".toList)).map
        fun n => -(n : ℤ) := rfl
  have hspace : ' ' ∈ "1 E".toList ++ error ++ " (".toList ++ message ++ ")".toList := by
    simp
  rw [hsigned, nat?, if_neg (List.ne_nil_of_mem hspace),
    natOfDigits_eq_none hspace (by decide)]
  rfl

/-- A negative number of `ltrace`. -/
theorem int?_of_isFailure_ltrace {retValue : Text} (h : IsFailure .ltrace retValue) :
    ∃ n : ℤ, n < 0 ∧ int? retValue = some n := by
  obtain ⟨n, rfl⟩ := h
  have hdigits : ∀ c ∈ Nat.toDigits 10 (n + 1), c.isDigit = true := fun c hc =>
    isDigit_of_mem_toDigits hc
  have hne : Nat.toDigits 10 (n + 1) ≠ [] := Nat.toDigits_ne_nil
  have hstrip : strip ('-' :: Nat.toDigits 10 (n + 1)) = '-' :: Nat.toDigits 10 (n + 1) := by
    rw [strip]
    have hhead : ('-' :: Nat.toDigits 10 (n + 1)).dropWhile isBlank =
        '-' :: Nat.toDigits 10 (n + 1) := rfl
    rw [hhead, List.rdropWhile_eq_self_iff]
    intro hl
    rw [List.getLast_cons hne]
    exact Bool.eq_false_iff.mp (isBlank_of_isDigit (hdigits _ (List.getLast_mem hne)))
  refine ⟨-((n + 1 : ℕ) : ℤ), by omega, ?_⟩
  rw [int?, hstrip]
  have hsigned : signed (nat? 10) ('-' :: Nat.toDigits 10 (n + 1)) =
      (nat? 10 (Nat.toDigits 10 (n + 1))).map fun n => -(n : ℤ) := rfl
  rw [hsigned, nat?, if_neg hne, natOfDigits_ofDigitChars hdigits, Nat.ofDigitChars_toDigits]
  · rfl
  · decide
  · decide

/-! ## Runs -/

theorem Unharmed.refl (pid : ℤ) (o : Objects) : Unharmed pid o o := ⟨rfl, rfl, fun _ h => .inl h⟩

section
variable {env : Env} {core : BatchLetCore} {o o' : Objects}

/-- Two states that differ by the files only, and by the table of the descriptors. -/
structure SameButFiles (o o' : Objects) : Prop where
  fileAccesses : o'.fileAccesses = o.fileAccesses
  cache : o'.cacheFileAccesses = o.cacheFileAccesses
  keys : o'.processes.keys = o.processes.keys

theorem sameButFiles_toDataFile (o : Objects) (name : Text) :
    SameButFiles o (o.toDataFile name) := by
  have h := sameAccesses_toDataFile o name
  exact ⟨h.accesses, h.cache, by rw [processes_toDataFile]⟩

/-- The file of a path, for a process that is known. -/
theorem run_dataFile_of_mem (hpid : core.pid ∈ o.processes.keys) (pathName : Text) :
    (toObjectPathCIMDataFile env pathName core.pid).run o =
      match toAbsPath (.path (currentDir o core)) pathName with
      | .ok name => (.ok name, o.toDataFile name)
      | .error e => (.error e, o) := by
  have hfile : ∀ dir, (do
      let pathName ← ofExcept (toAbsPath (.path dir) pathName)
      createObjectPathCIMDataFile pathName
      return pathName : ObjM Text).run o =
        match toAbsPath (.path dir) pathName with
        | .ok name => (.ok name, o.toDataFile name)
        | .error e => (.error e, o) := by
    intro dir
    cases toAbsPath (.path dir) pathName with
    | error e => rfl
    | ok name => rfl
  rw [toObjectPathCIMDataFile, currentDir]
  split
  · exact hfile []
  · rw [toObjectPathCIMProcess, run_modify_bind, o.toProcess_of_mem hpid, getProcessCurrentDir,
      run_bind, run_get_bind]
    exact hfile _

/-- What finds a file: the path that it gives to `ToObjectPath_CIM_DataFile`, and the table of the
descriptors after it. -/
structure Finds (core : BatchLetCore) (o : Objects) (m : ObjM Text)
    (path : Option Text) (filDes : Text → Dict Text Text) : Prop where
  ok : ∀ pathName name, path = some pathName → acceptedFile o core pathName = some name →
    ∃ o', m.run o = (.ok name, o') ∧ SameButFiles o o' ∧ o'.mapFilDesToPathName = filDes pathName
  of_ok : ∀ name o', m.run o = (.ok name, o') →
    ∃ pathName, path = some pathName ∧ acceptedFile o core pathName = some name

theorem toOption_eq_some {ε α : Type} {x : Except ε α} {a : α} :
    x.toOption = some a ↔ x = .ok a := by
  cases x <;> simp [Except.toOption]

/-- A path that is known is found when it is accepted. -/
theorem finds_path (hpid : core.pid ∈ o.processes.keys) (pathName : Text) :
    Finds core o (toObjectPathCIMDataFile env pathName core.pid) (some pathName)
      fun _ => o.mapFilDesToPathName where
  ok path name hpath hname := by
    cases hpath
    rw [acceptedFile, toOption_eq_some] at hname
    refine ⟨o.toDataFile name, ?_, sameButFiles_toDataFile o name, mapFilDes_toDataFile o name⟩
    rw [run_dataFile_of_mem hpid, hname]
  of_ok name o' hrun := by
    refine ⟨pathName, rfl, ?_⟩
    rw [run_dataFile_of_mem hpid] at hrun
    rw [acceptedFile, toOption_eq_some]
    split at hrun
    · rename_i name' hname
      cases hrun
      exact hname
    · cases hrun

theorem finds_stream (hpid : core.pid ∈ o.processes.keys) (filDes : Text) :
    Finds core o (sTraceStreamToFile env filDes core.pid)
      (some (streamPathname o.mapFilDesToPathName filDes)) fun _ => o.mapFilDesToPathName := by
  have hrun : (sTraceStreamToFile env filDes core.pid).run o = (toObjectPathCIMDataFile env
      (streamPathname o.mapFilDesToPathName filDes) core.pid).run o := by
    rw [sTraceStreamToFile, sTraceStreamToPathname, run_bind, run_get_bind, run_pure]
  have hpath := @finds_path env core o hpid (streamPathname o.mapFilDesToPathName filDes)
  exact ⟨fun p name hp hname => hrun ▸ hpath.ok p name hp hname,
    fun name o' h => hpath.of_ok name o' (hrun ▸ h)⟩

/-- The path of a descriptor is stored, and then found. -/
theorem finds_stored (hpid : core.pid ∈ o.processes.keys) (retValue pathName : Text) :
    Finds core o (do
        setFilDes retValue pathName
        toObjectPathCIMDataFile env pathName core.pid)
      (some pathName) fun p => o.mapFilDesToPathName.set retValue p where
  ok path name hpath hname := by
    cases hpath
    set o₁ : Objects :=
      { o with mapFilDesToPathName := o.mapFilDesToPathName.set retValue pathName } with ho₁
    obtain ⟨o', hrun, hsame, hfds⟩ :=
      (@finds_path env core o₁ hpid pathName).ok pathName name rfl hname
    exact ⟨o', hrun, ⟨hsame.fileAccesses, hsame.cache, hsame.keys⟩, hfds⟩
  of_ok name o' hrun :=
    (@finds_path env core
      { o with mapFilDesToPathName := o.mapFilDesToPathName.set retValue pathName } hpid
        pathName).of_ok name o' hrun

/-- What comes before a path that may be missing. -/
theorem Finds.bind {α : Type} {m : ObjM α} {f : α → ObjM Text} {x : Option α}
    {path : α → Option Text} {filDes : Text → Dict Text Text}
    (hm : ∀ a, x = some a → m.run o = (.ok a, o)) (hnone : x = none → ∀ a o', m.run o ≠ (.ok a, o'))
    (hf : ∀ a, Finds core o (f a) (path a) filDes) :
    Finds core o (m >>= f) (x.bind path) filDes where
  ok pathName name hpath hname := by
    obtain ⟨a, ha, hpath⟩ := Option.bind_eq_some_iff.mp hpath
    rw [run_bind_of_ok (hm a ha)]
    exact (hf a).ok pathName name hpath hname
  of_ok name o' hrun := by
    obtain ⟨a, o₁, ha, hrun⟩ := run_bind_eq_ok.mp hrun
    cases hx : x with
    | none => exact absurd ha (hnone hx a o₁)
    | some b =>
      have hb := hm b hx
      cases hb.symm.trans ha
      rw [Option.bind_some]
      exact (hf _).of_ok name o' hrun

theorem Finds.ofOption {α : Type} {e : PyExn} {f : α → ObjM Text} {x : Option α}
    {path : α → Option Text} {filDes : Text → Dict Text Text}
    (hf : ∀ a, Finds core o (f a) (path a) filDes) :
    Finds core o (Py.ofOption e x >>= f) (x.bind path) filDes := by
  refine .bind (fun a ha => ?_) (fun hx a o' => ?_) hf
  · rw [ha, run_ofOption_some]
  · rw [hx, run_ofOption_none]
    simp

theorem Finds.argPath {f : Text → ObjM Text} {a : Arg} {path : Text → Option Text}
    {filDes : Text → Dict Text Text} (hf : ∀ s, Finds core o (f s) (path s) filDes) :
    Finds core o (Dockit.argPath a >>= f) ((argText? a).bind path) filDes := by
  refine .bind (fun s hs => ?_) (fun hs s o' => ?_) hf
  · cases a with
    | str t =>
      cases hs
      rfl
    | list l => cases hs
  · cases a with
    | str t => cases hs
    | list l => exact nofun

/-- The file that an `open` gives. -/
theorem finds_openedFile (hpid : core.pid ∈ o.processes.keys) (retValue : Text) :
    Finds core o (openedFile env core retValue) (openPath o core retValue)
      (storedFilDes o core retValue) := by
  unfold openedFile openPath storedFilDes
  cases core.tracer with
  | strace => exact finds_stream hpid retValue
  | ltrace =>
    have h : Finds core o (parsedArg core 0 >>= fun a => Dockit.argPath a >>= fun pathName =>
        (do setFilDes retValue pathName
            toObjectPathCIMDataFile env pathName core.pid))
        (core.parsedArgs[0]?.bind fun a => (argText? a).bind some)
        fun p => o.mapFilDesToPathName.set retValue p :=
      .ofOption fun a => .argPath fun s => finds_stored hpid retValue s
    have hpath : (fun a => (argText? a).bind some) = argText? := by
      funext a
      cases argText? a <;> rfl
    rwa [hpath] at h

/-- What is found after files were created. -/
theorem Finds.after {o₁ : Objects} {m : ObjM Text} {path : Option Text}
    {filDes : Text → Dict Text Text} (hsame : SameButFiles o o₁)
    (hprocesses : o₁.processes = o.processes) (h : Finds core o₁ m path filDes) :
    (∀ pathName name, path = some pathName → acceptedFile o core pathName = some name →
      ∃ o', m.run o₁ = (.ok name, o') ∧ SameButFiles o o' ∧
        o'.mapFilDesToPathName = filDes pathName) ∧
      ∀ name o', m.run o₁ = (.ok name, o') →
        ∃ pathName, path = some pathName ∧ acceptedFile o core pathName = some name := by
  have haccepted : ∀ p, acceptedFile o₁ core p = acceptedFile o core p := by
    intro p
    rw [acceptedFile, acceptedFile, currentDir, currentDir, Objects.processCurrentDir,
      Objects.processCurrentDir, hprocesses]
  constructor
  · intro pathName name hpath hname
    obtain ⟨o', hrun, hsame', hfds⟩ := h.ok pathName name hpath ((haccepted _).trans hname)
    exact ⟨o', hrun, ⟨hsame'.fileAccesses.trans hsame.fileAccesses,
      hsame'.cache.trans hsame.cache, hsame'.keys.trans hsame.keys⟩, hfds⟩
  · intro name o' hrun
    obtain ⟨pathName, hpath, hname⟩ := h.of_ok name o' hrun
    exact ⟨pathName, hpath, (haccepted _).symm.trans hname⟩

/-- The directory of an `openat`: it may create the file of a descriptor. -/
theorem run_openatDirPath_of_mem (hpid : core.pid ∈ o.processes.keys) (dirNam : Arg) :
    (∀ dir, openatDir o core dirNam = some dir →
      ∃ o', (openatDirPath env core dirNam).run o = (.ok dir, o') ∧ SameButFiles o o' ∧
        o'.processes = o.processes ∧ o'.mapFilDesToPathName = o.mapFilDesToPathName) ∧
      ∀ dir o', (openatDirPath env core dirNam).run o = (.ok dir, o') →
        openatDir o core dirNam = some dir := by
  rw [openatDir, openatDirPath]
  split
  · constructor
    · intro dir hdir
      cases hdir
      exact ⟨o, rfl, ⟨rfl, rfl, rfl⟩, rfl, rfl⟩
    · intro dir o' hrun
      cases hrun
      rfl
  · cases dirNam with
    | list l =>
      constructor
      · intro dir hdir
        cases hdir
      · intro dir o' hrun
        cases hrun
    | str s =>
      have hstream : (streamToFile env core (.str s)).run o =
          match toAbsPath (.path (currentDir o core))
            (streamPathname o.mapFilDesToPathName s) with
          | .ok name => (.ok name, o.toDataFile name)
          | .error e => (.error e, o) := by
        rw [← @run_dataFile_of_mem env core o hpid]
        rfl
      rw [run_map, hstream, argText?, Option.bind_some, acceptedFile]
      cases toAbsPath (.path (currentDir o core)) (streamPathname o.mapFilDesToPathName s) with
      | error e =>
        constructor
        · intro dir hdir
          cases hdir
        · intro dir o' hrun
          cases hrun
      | ok name =>
        constructor
        · intro dir hdir
          cases hdir
          exact ⟨_, rfl, sameButFiles_toDataFile o name, processes_toDataFile o name,
            mapFilDes_toDataFile o name⟩
        · intro dir o' hrun
          cases hrun
          rfl

/-- A path relative to a directory is stored for the descriptor, and found. -/
theorem finds_relative (hpid : core.pid ∈ o.processes.keys) (retValue : Text) (dir : DirPath) :
    Finds core o (do
        let filNam ← Dockit.argPath (← parsedArg core 1)
        let pathName ← ofExcept (toAbsPath dir filNam)
        setFilDes retValue pathName
        toObjectPathCIMDataFile env pathName core.pid)
      ((core.parsedArgs[1]?.bind argText?).bind fun filNam => (toAbsPath dir filNam).toOption)
      fun p => o.mapFilDesToPathName.set retValue p := by
  rw [Option.bind_assoc]
  refine .ofOption fun a => .argPath fun filNam => ?_
  have hpath : (toAbsPath dir filNam).toOption = (toAbsPath dir filNam).toOption.bind some := by
    cases (toAbsPath dir filNam).toOption <;> rfl
  rw [hpath]
  refine .bind (fun p hp => ?_) (fun hnone p o' => ?_) fun p => finds_stored hpid retValue p
  · rw [toOption_eq_some] at hp
    rw [hp]
    rfl
  · cases htoAbs : toAbsPath dir filNam with
    | error e => exact nofun
    | ok p =>
      rw [htoAbs] at hnone
      cases hnone

/-- The file that an `openat` gives. -/
theorem finds_openatFile (hpid : core.pid ∈ o.processes.keys) (retValue : Text) :
    Finds core o (openatFile env core retValue) (openatPath o core retValue)
      (storedFilDes o core retValue) := by
  unfold openatFile openatPath storedFilDes
  cases core.tracer with
  | strace => exact finds_stream hpid retValue
  | ltrace =>
    refine .ofOption fun dirNam => ?_
    obtain ⟨hsome, hrun⟩ := @run_openatDirPath_of_mem env core o hpid dirNam
    constructor
    · intro pathName name hpath hname
      obtain ⟨dir, hdir, hpath⟩ := Option.bind_eq_some_iff.mp hpath
      obtain ⟨o₁, hrun₁, hsame, hprocesses, hfds⟩ := hsome dir hdir
      rw [run_bind_of_ok hrun₁]
      have hfind := @finds_relative env core o₁ (hprocesses ▸ hpid) retValue dir
      rw [hfds] at hfind
      exact (hfind.after hsame hprocesses).1 pathName name hpath hname
    · intro name o' h
      obtain ⟨dir, o₁, hdir, h⟩ := run_bind_eq_ok.mp h
      have hdir' := hrun dir o₁ hdir
      obtain ⟨o₂, hrun₂, hsame, hprocesses, hfds⟩ := hsome dir hdir'
      cases hrun₂.symm.trans hdir
      have hfind := @finds_relative env core o₁ (hprocesses ▸ hpid) retValue dir
      rw [hdir', Option.bind_some]
      exact (hfind.after hsame hprocesses).2 name o' h

/-! ## The accesses -/

theorem keys_withAccess (o : Objects) (pid : ℤ) (name : Text) :
    (o.withAccess pid name).processes.keys = o.processes.keys := by
  rw [Objects.withAccess]
  split
  · rfl
  · simp [Objects.cacheAccess, Objects.newFileAccess, Objects.updateProcess,
      Objects.updateDataFile]

theorem mapFilDes_withAccess (o : Objects) (pid : ℤ) (name : Text) :
    (o.withAccess pid name).mapFilDesToPathName = o.mapFilDesToPathName := by
  rw [Objects.withAccess]
  split <;> rfl

/-- The counters after a look-up: those of a new access are not set. -/
theorem byteCounters_withAccess (o : Objects) (pid : ℤ) (name : Text) :
    (o.withAccess pid name).fileAccesses.map byteCounters =
      o.fileAccesses.map byteCounters ++
        if (o.cachedAccess pid name).isSome then [] else [(none, none)] := by
  rw [fileAccesses_withAccess]
  cases o.cachedAccess pid name <;> simp [byteCounters, FileAccess.new]

/-- `SetOpenTime` on the access that the cache gives. -/
theorem run_setOpenTime (hB : CacheBelongs o) {pid : ℤ} {name : Text} {i : ℕ}
    (hi : o.cachedAccess pid name = some i) (timeStamp : Text) :
    ∃ o', (setOpenTime env i timeStamp).run o = (.ok (), o') ∧
      o'.fileAccesses = o.fileAccesses.modify i (·.opened env timeStamp) ∧
      o'.mapFilDesToPathName = o.mapFilDesToPathName ∧ o'.processes = o.processes ∧
      o'.cachedAccess pid name = some i := by
  obtain ⟨a, ha, hprocess, hfile⟩ := hB pid name i hi
  obtain ⟨d, hd, hdi⟩ := Option.bind_eq_some_iff.mp hi
  have hopened : (a.opened env timeStamp).process = pid ∧
      (a.opened env timeStamp).dataFile = name := by
    rw [FileAccess.opened]
    dsimp only
    split <;> exact ⟨hprocess, hfile⟩
  have hget : (o.fileAccesses.modify i (·.opened env timeStamp))[i]? =
      some (a.opened env timeStamp) := by
    simp [ha]
  simp only [setOpenTime, updateAccess, run_modify_bind, run_get_bind, hget, hopened.1, hd,
    hopened.2]
  refine ⟨_, rfl, rfl, rfl, rfl, ?_⟩
  simp [Objects.cachedAccess]

/-- The opening of a file: its access is looked up, and counts one more opening. -/
theorem run_opening (hB : CacheBelongs o) (name : Text) :
    ∃ o', (opening env core name).run o = (.ok (some [.file name]), o') ∧
      o'.fileAccesses = (o.withAccess core.pid name).fileAccesses.modify
        (o.accessRank core.pid name) (·.opened env core.timeStart) ∧
      o'.mapFilDesToPathName = o.mapFilDesToPathName ∧ o'.processes.keys = o.processes.keys ∧
      o'.cachedAccess core.pid name = some (o.accessRank core.pid name) := by
  obtain ⟨o', hrun, hl, hfds, hprocesses, hcached⟩ := @run_setOpenTime env _
    (keepsCache_withAccess o core.pid name hB) _ _ _ (cachedAccess_withAccess o core.pid name)
    core.timeStart
  refine ⟨o', ?_, hl, hfds.trans (mapFilDes_withAccess _ _ _),
    (congrArg Dict.keys hprocesses).trans (keys_withAccess _ _ _), hcached⟩
  rw [opening, withFileAccess, run_bind, run_bind, run_getFileAccess]
  dsimp only
  rw [hrun]
  rfl

theorem byteCounters_opened (timeStamp : Text) (a : FileAccess) :
    byteCounters (a.opened env timeStamp) = byteCounters a := by
  rw [FileAccess.opened]
  dsimp only
  split <;> rfl

theorem map_modify_of_eq {α β : Type} (g : α → β) (f : α → α) (h : ∀ a, g (f a) = g a)
    (l : List α) (i : ℕ) : (l.modify i f).map g = l.map g := by
  refine List.ext_getElem? fun j => ?_
  rw [List.getElem?_map, List.getElem?_modify, List.getElem?_map]
  cases l[j]? with
  | none => rfl
  | some a =>
    by_cases hij : i = j
    · simp [hij, h]
    · simp [hij]

/-- What is done with an access leaves its counters, and raises nothing. -/
def LeavesBytes (core : BatchLetCore) (use : Text → ModelM) : Prop :=
  ∀ name o, CacheBelongs o → ∃ x o', (use name).run o = (.ok x, o') ∧
    o'.fileAccesses.map byteCounters =
      (o.withAccess core.pid name).fileAccesses.map byteCounters ∧
    o'.mapFilDesToPathName = o.mapFilDesToPathName ∧ o'.processes.keys = o.processes.keys

theorem leavesBytes_opening : LeavesBytes core (opening env core) := by
  intro name o hB
  obtain ⟨o', hrun, hl, hfds, hkeys, -⟩ := @run_opening env core o hB name
  refine ⟨_, o', hrun, ?_, hfds, hkeys⟩
  rw [hl, map_modify_of_eq _ _ (byteCounters_opened core.timeStart)]

/-- Such a use is harmless when its access is there and its descriptor is bound already. -/
theorem harmless_access_iff {m : ObjM Text} {path : Option Text} {use : Text → ModelM}
    {filDes : Text → Dict Text Text} (hf : Finds core o m path filDes) (hB : CacheBelongs o)
    (huse : LeavesBytes core use) :
    Harmless core.pid (m >>= use) o ↔ ∃ pathName, path = some pathName ∧
      filDes pathName = o.mapFilDesToPathName ∧ IsCached o core pathName := by
  have key : ∀ pathName name o₁, SameButFiles o o₁ → o₁.mapFilDesToPathName = filDes pathName →
      ∃ x o', (use name).run o₁ = (.ok x, o') ∧ (Unharmed core.pid o o' ↔
        filDes pathName = o.mapFilDesToPathName ∧
          (o.cachedAccess core.pid name).isSome) := by
    intro pathName name o₁ hsame hfds
    have hB₁ : CacheBelongs o₁ := keepsCache_of_eq hsame.fileAccesses hsame.cache hB
    obtain ⟨x, o', hrun, hl, hfds', hkeys⟩ := huse name o₁ hB₁
    have hcached : o₁.cachedAccess core.pid name = o.cachedAccess core.pid name := by
      rw [Objects.cachedAccess, hsame.cache, Objects.cachedAccess]
    have hbytes : o'.fileAccesses.map byteCounters = o.fileAccesses.map byteCounters ++
        if (o.cachedAccess core.pid name).isSome then [] else [(none, none)] := by
      rw [hl, byteCounters_withAccess, hsame.fileAccesses, hcached]
    refine ⟨x, o', hrun, fun h => ?_, fun h => ?_⟩
    · refine ⟨hfds.symm.trans (hfds'.symm.trans h.mapFilDes), ?_⟩
      have hb := hbytes.symm.trans h.bytes
      by_contra hno
      rw [if_neg hno] at hb
      have hlen := congrArg List.length hb
      rw [List.length_append, List.length_singleton] at hlen
      omega
    · refine ⟨?_, hfds'.trans (hfds.trans h.1), fun p hp => .inl ?_⟩
      · rw [hbytes, if_pos h.2, List.append_nil]
      · rwa [hkeys, hsame.keys] at hp
  constructor
  · rintro ⟨x, o', hrun, hharm⟩
    obtain ⟨name, o₁, hm, hrun⟩ := run_bind_eq_ok.mp hrun
    obtain ⟨pathName, hpath, hname⟩ := hf.of_ok name o₁ hm
    obtain ⟨o₂, hm', hsame, hfds⟩ := hf.ok pathName name hpath hname
    cases hm'.symm.trans hm
    obtain ⟨y, o₃, hrun', hiff⟩ := key pathName name o₁ hsame hfds
    cases hrun'.symm.trans hrun
    obtain ⟨hstored, hcached⟩ := hiff.mp hharm
    exact ⟨pathName, hpath, hstored, name, hname, hcached⟩
  · rintro ⟨pathName, hpath, hstored, name, hname, hcached⟩
    obtain ⟨o₁, hm, hsame, hfds⟩ := hf.ok pathName name hpath hname
    obtain ⟨x, o', hrun, hiff⟩ := key pathName name o₁ hsame hfds
    exact ⟨x, o', (run_bind_of_ok hm _).trans hrun, hiff.mpr ⟨hstored, hcached⟩⟩

/-! ## The models of the failed calls -/

variable {retValue : Text}

theorem run_retText (hret : core.retValue = some retValue) (o : Objects) :
    (retText core).run o = (.ok retValue, o) := by
  rw [retText, hret, run_ofOption_some]

theorem harmless_open_iff (hret : core.retValue = some retValue)
    (hpid : core.pid ∈ o.processes.keys) (hB : CacheBelongs o) :
    Harmless core.pid (batchLetSysOpen env core) o ↔ Spared o core retValue .opens := by
  have hrun : ∀ x, (batchLetSysOpen env core).run o = x ↔
      (if invalidReturnedFileDescriptor retValue core.tracer then (.ok none, o) else
        (openedFile env core retValue >>= opening env core).run o) = x := by
    intro x
    rw [batchLetSysOpen, run_bind_of_ok (run_retText hret o)]
    split <;> rfl
  rw [Spared, Harmless]
  simp only [hrun]
  split
  · rename_i hinvalid
    exact ⟨fun _ => .inl hinvalid, fun _ => ⟨none, o, rfl, .refl _ _⟩⟩
  · rename_i hvalid
    rw [or_iff_right hvalid]
    exact harmless_access_iff (finds_openedFile hpid retValue) hB leavesBytes_opening

theorem harmless_openat_iff (hret : core.retValue = some retValue)
    (hpid : core.pid ∈ o.processes.keys) (hB : CacheBelongs o) :
    Harmless core.pid (batchLetSysOpenat env core) o ↔ Spared o core retValue .openat := by
  have hrun : (batchLetSysOpenat env core).run o =
      (openatFile env core retValue >>= opening env core).run o := by
    rw [batchLetSysOpenat, run_bind_of_ok (run_retText hret o)]
  rw [Spared, Harmless, hrun]
  exact harmless_access_iff (finds_openatFile hpid retValue) hB leavesBytes_opening

theorem harmless_socket_iff (hret : core.retValue = some retValue)
    (hpid : core.pid ∈ o.processes.keys) :
    Harmless core.pid (batchLetSysSocket env core) o ↔ Spared o core retValue .socket := by
  have hrun : (batchLetSysSocket env core).run o = (sTraceStreamToFile env retValue core.pid >>=
      fun f => pure (some [.file f])).run o := by
    rw [batchLetSysSocket, run_bind_of_ok (run_retText hret o)]
  have hfind := @finds_stream env core o hpid retValue
  rw [Spared, Harmless, hrun, Option.isSome_iff_exists]
  constructor
  · rintro ⟨x, o', h, -⟩
    obtain ⟨name, o₁, hfile, -⟩ := run_bind_eq_ok.mp h
    obtain ⟨pathName, hpath, hname⟩ := hfind.of_ok name o₁ hfile
    cases hpath
    exact ⟨name, hname⟩
  · rintro ⟨name, hname⟩
    obtain ⟨o', h, hsame, hfds⟩ := hfind.ok _ name rfl hname
    refine ⟨_, o', run_bind_of_ok h _, ?_, hfds, fun p hp => .inl (hsame.keys ▸ hp)⟩
    rw [hsame.fileAccesses]

/-- The file of the first argument. -/
theorem finds_streamName (hpid : core.pid ∈ o.processes.keys) :
    Finds core o (streamName env core 0)
      (core.parsedArgs[0]?.bind fun a => (argText? a).bind fun s =>
        some (streamPathname o.mapFilDesToPathName s)) fun _ => o.mapFilDesToPathName := by
  refine .ofOption fun a => ?_
  refine .bind (fun s hs => ?_) (fun hs s o' => ?_) fun s => finds_stream hpid s
  · cases a with
    | str t =>
      cases hs
      rfl
    | list l => cases hs
  · cases a with
    | str t => cases hs
    | list l => exact nofun

/-- A buffer is analysed without a change of the counters. -/
theorem byteCounters_analyseNewBuffer {i : ℕ} {isRead : Bool} {n : ℤ} {b : Option Arg}
    {u : Except PyExn Unit} (h : (analyseNewBuffer env i isRead n b).run o = (u, o')) :
    o'.fileAccesses.map byteCounters = o.fileAccesses.map byteCounters := by
  rw [analyseNewBuffer, run_get_bind] at h
  cases ha : o.fileAccesses[i]? with
  | none =>
    rw [ha] at h
    cases h
    rfl
  | some a =>
    rw [ha] at h
    have hsame : byteCounters (a.analyseNewBuffer env isRead n b).1 = byteCounters a := by
      unfold FileAccess.analyseNewBuffer
      split
      · rfl
      · split
        · rfl
        · cases isRead <;> rfl
    have hmap : (o.fileAccesses.modify i fun _ =>
        (a.analyseNewBuffer env isRead n b).1).map byteCounters =
          o.fileAccesses.map byteCounters := by
      refine List.ext_getElem? fun j => ?_
      rw [List.getElem?_map, List.getElem?_modify, List.getElem?_map]
      by_cases hij : i = j
      · subst hij
        simp [ha, hsame]
      · simp [hij]
    dsimp only at h
    rw [updateAccess, run_modify_bind] at h
    split at h <;> cases h <;> exact hmap

theorem bytes_setRead {i : ℕ} {n : ℤ} {b : Option Arg} {u : Except PyExn Unit}
    (h : (setRead env i n b).run o = (u, o')) : o'.fileAccesses.map byteCounters =
      (o.fileAccesses.modify i (·.countRead n)).map byteCounters :=
  byteCounters_analyseNewBuffer
    (o := { o with fileAccesses := o.fileAccesses.modify i (·.countRead n) }) h

theorem bytes_setWritten {i : ℕ} {n : ℤ} {b : Option Arg} {u : Except PyExn Unit}
    (h : (setWritten env i n b).run o = (u, o')) : o'.fileAccesses.map byteCounters =
      (o.fileAccesses.modify i (·.countWritten n)).map byteCounters :=
  byteCounters_analyseNewBuffer
    (o := { o with fileAccesses := o.fileAccesses.modify i (·.countWritten n) }) h

/-- What counts bytes is harmful, or raises. -/
theorem not_harmless_of_counts (count : FileAccess → FileAccess) {use : ℕ → ObjM Unit}
    (hpid : core.pid ∈ o.processes.keys) (hB : CacheBelongs o)
    (hcount : ∀ a, byteCounters (count a) ≠ byteCounters a)
    (huse : ∀ i o₁ o₂, (use i).run o₁ = (.ok (), o₂) → o₂.fileAccesses.map byteCounters =
      (o₁.fileAccesses.modify i count).map byteCounters) :
    ¬ Harmless core.pid (do
      let filObj ← streamName env core 0
      withFileAccess core.pid filObj use
      return some [.file filObj] : ModelM) o := by
  rintro ⟨x, o', hrun, hharm⟩
  obtain ⟨name, o₁, hm, hrun⟩ := run_bind_eq_ok.mp hrun
  have hfind := @finds_streamName env core o hpid
  obtain ⟨pathName, hpath, hname⟩ := hfind.of_ok name o₁ hm
  obtain ⟨o₂, hm', hsame, -⟩ := hfind.ok pathName name hpath hname
  cases hm'.symm.trans hm
  have hB₁ : CacheBelongs o₁ := keepsCache_of_eq hsame.fileAccesses hsame.cache hB
  obtain ⟨_, o₃, hused, hrun⟩ := run_bind_eq_ok.mp hrun
  cases hrun
  rw [withFileAccess, run_bind, run_getFileAccess] at hused
  have hbytes := huse _ _ _ hused
  set i := o₁.accessRank core.pid name
  obtain ⟨a, ha, -, -⟩ := keepsCache_withAccess o₁ core.pid name hB₁ _ _ i
    (cachedAccess_withAccess o₁ core.pid name)
  have hi : o.fileAccesses[i]?.map byteCounters = some (byteCounters (count a)) := by
    rw [← List.getElem?_map, ← hharm.bytes, hbytes, List.getElem?_map]
    simp [ha]
  obtain ⟨a', ha', heq⟩ := Option.map_eq_some_iff.mp hi
  have hext : (o₁.withAccess core.pid name).fileAccesses[i]? = some a' := by
    rw [fileAccesses_withAccess, hsame.fileAccesses]
    exact List.getElem?_append_left (List.getElem?_eq_some_iff.mp ha').1 ▸ ha'
  cases hext.symm.trans ha
  exact hcount a heq.symm

theorem addTo_ne {n : ℤ} (hn : n < 0) (b : Option ℤ) : addTo n b ≠ b := by
  cases b with
  | none => exact nofun
  | some m =>
    rw [addTo, Ne, Option.some.injEq]
    omega

theorem harmless_read_iff (hret : core.retValue = some retValue)
    (hfailure : IsFailure core.tracer retValue) (hpid : core.pid ∈ o.processes.keys)
    (hB : CacheBelongs o) :
    Harmless core.pid (batchLetSysRead env core) o ↔ Spared o core retValue .read := by
  rw [Spared, batchLetSysRead, hret]
  cases htracer : core.tracer with
  | strace =>
    rw [htracer] at hfailure
    have hint := int?_of_isFailure_strace hfailure
    simp only [hint]
    exact ⟨fun _ => trivial, fun _ => ⟨none, o, rfl, .refl _ _⟩⟩
  | ltrace =>
    rw [htracer] at hfailure
    obtain ⟨n, hn, hint⟩ := int?_of_isFailure_ltrace hfailure
    simp only [hint]
    refine iff_of_false ?_ (by simp)
    refine not_harmless_of_counts (·.countRead n) hpid hB (fun a h => ?_) ?_
    · exact addTo_ne hn _ (congrArg Prod.fst h)
    · intro i o₁ o₂ h
      obtain ⟨arg, o₃, harg, hread⟩ := run_bind_eq_ok.mp h
      obtain ⟨-, rfl⟩ := run_ofOption_eq_ok harg
      exact bytes_setRead hread

theorem harmless_write_iff (hret : core.retValue = some retValue)
    (hfailure : IsFailure core.tracer retValue) (hpid : core.pid ∈ o.processes.keys)
    (hB : CacheBelongs o) :
    Harmless core.pid (batchLetSysWrite env core) o ↔ Spared o core retValue .write := by
  rw [Spared, batchLetSysWrite, writeFirst, hret]
  cases htracer : core.tracer with
  | strace =>
    rw [htracer] at hfailure
    have hint := int?_of_isFailure_strace hfailure
    simp only [hint]
    rw [harmless_access_iff (finds_streamName hpid) hB]
    · constructor
      · rintro ⟨pathName, hpath, -, hcached⟩
        obtain ⟨a, ha, hpath⟩ := Option.bind_eq_some_iff.mp hpath
        obtain ⟨s, hs, hpath⟩ := Option.bind_eq_some_iff.mp hpath
        cases hpath
        cases a with
        | str t =>
          cases hs
          exact ⟨trivial, s, ha, hcached⟩
        | list l => cases hs
      · rintro ⟨-, s, hs, hcached⟩
        exact ⟨_, by rw [hs]; rfl, rfl, hcached⟩
    · intro name o₁ hB₁
      refine ⟨some [.file name], o₁.withAccess core.pid name, ?_, rfl,
        mapFilDes_withAccess _ _ _, keys_withAccess _ _ _⟩
      rw [run_bind, withFileAccess, run_bind, run_getFileAccess]
      rfl
  | ltrace =>
    rw [htracer] at hfailure
    obtain ⟨n, hn, hint⟩ := int?_of_isFailure_ltrace hfailure
    simp only [hint]
    refine iff_of_false ?_ (by simp)
    refine not_harmless_of_counts (·.countWritten n) hpid hB (fun a h => ?_) ?_
    · exact addTo_ne hn _ (congrArg Prod.snd h)
    · intro i o₁ o₂ h
      obtain ⟨arg, o₃, harg, hwrite⟩ := run_bind_eq_ok.mp h
      have hkept : ((parsedArg core 1).run o₁).2 = o₁ := by
        rw [parsedArg]
        cases core.parsedArgs[1]? <;> rfl
      rw [run_map, hkept, Prod.mk.injEq] at harg
      obtain ⟨-, rfl⟩ := harg
      exact bytes_setWritten hwrite

/-! ## The failed creations -/

theorem mem_keys_toProcess (o : Objects) (pid : ℤ) :
    pid ∈ (o.toProcess env pid).processes.keys := by
  rw [← Objects.keys_links, Objects.links_toProcess]
  exact Links.mem_keys_appear.mpr (.inl rfl)

/-- A new child changes the processes only. -/
theorem run_newChild_cases (aPid : ℤ) (isThread : Bool) :
    (aPid = core.pid ∧ ∃ o', (newChild env core aPid isThread).run o = (.error selfParent, o')) ∨
      aPid ≠ core.pid ∧ ∃ o', (newChild env core aPid isThread).run o =
        (.ok (some [.process aPid]), o') ∧
        o'.fileAccesses = (o.toProcess env aPid).fileAccesses ∧
        o'.mapFilDesToPathName = (o.toProcess env aPid).mapFilDesToPathName ∧
        o'.processes.keys = (o.toProcess env aPid).processes.keys := by
  rw [run_newChild]
  by_cases hself : aPid = core.pid
  · exact .inl ⟨hself, _, if_pos hself⟩
  · refine .inr ⟨hself, _, if_neg hself, ?_⟩
    rw [setParentProcess, if_neg hself, Objects.withChild]
    cases isThread <;> refine ⟨rfl, rfl, ?_⟩ <;> simp [Objects.updateProcess]

/-- A new child is harmless when it is known, and is not its own parent. -/
theorem harmless_newChild_iff (aPid : ℤ) (isThread : Bool) :
    Harmless core.pid (newChild env core aPid isThread) o ↔
      aPid ∈ o.processes.keys ∧ aPid ≠ core.pid := by
  rcases @run_newChild_cases env core o aPid isThread with ⟨hself, o', hrun⟩ | ⟨hne, o', hrun, hl, hf, hk⟩
  · refine iff_of_false ?_ fun h => h.2 hself
    rintro ⟨x, o'', h, -⟩
    cases hrun.symm.trans h
  · constructor
    · rintro ⟨x, o'', h, hharm⟩
      cases hrun.symm.trans h
      have hmem := hharm.processes aPid (hk ▸ mem_keys_toProcess o aPid)
      exact ⟨hmem.resolve_right hne, hne⟩
    · rintro ⟨hmem, -⟩
      rw [o.toProcess_of_mem hmem] at hl hf hk
      exact ⟨_, o', hrun, by rw [hl], hf, fun p hp => .inl (hk ▸ hp)⟩

/-- A creation that reads its pid by `f`. -/
theorem harmless_created_iff {f : Text → Option ℤ} {next : ℤ → ModelM}
    (hret : core.retValue = some retValue)
    (hnext : ∀ p, Harmless core.pid (next p) o ↔ p ∈ o.processes.keys ∧ p ≠ core.pid) :
    Harmless core.pid (retInt core f >>= next) o ↔
      ∃ p, f retValue = some p ∧ p ∈ o.processes.keys ∧ p ≠ core.pid := by
  have hrun : retInt core f = Py.ofOption PyExn.valueError (f retValue) := by
    rw [retInt, hret]
  rw [hrun]
  cases f retValue with
  | none =>
    refine iff_of_false ?_ ?_
    · rintro ⟨x, o', h, -⟩
      cases h
    · rintro ⟨p, h, -⟩
      cases h
  | some p =>
    simp only [Option.some.injEq, exists_eq_left', ← hnext]
    rfl

/-- With `strace`, a creation that fails raises an exception. -/
theorem not_harmless_retInt {next : ℤ → ModelM} (hret : core.retValue = some retValue)
    (hfailure : IsFailure .strace retValue) :
    ¬ Harmless core.pid (retInt core int? >>= next) o := by
  rintro ⟨x, o', h, -⟩
  rw [retInt, hret] at h
  dsimp only at h
  rw [int?_of_isFailure_strace hfailure] at h
  cases h

theorem harmless_clone_iff (hret : core.retValue = some retValue)
    (hfailure : IsFailure core.tracer retValue) :
    Harmless core.pid (batchLetSysClone env core) o ↔ Spared o core retValue .clone := by
  rw [Spared, batchLetSysClone]
  cases htracer : core.tracer with
  | strace =>
    refine iff_of_false ?_ (by simp)
    exact not_harmless_retInt hret (htracer ▸ hfailure)
  | ltrace =>
    refine (harmless_created_iff hret fun p => harmless_newChild_iff p true).trans ?_
    exact (and_iff_right rfl).symm

theorem harmless_vfork_iff (hret : core.retValue = some retValue)
    (hfailure : IsFailure core.tracer retValue) :
    Harmless core.pid (batchLetSysVfork env core) o ↔ Spared o core retValue .vfork := by
  rw [Spared, batchLetSysVfork, convertBatchCoreRetValue]
  cases htracer : core.tracer with
  | strace =>
    refine iff_of_false ?_ (by simp)
    exact not_harmless_retInt hret (htracer ▸ hfailure)
  | ltrace =>
    refine (harmless_created_iff hret fun p => harmless_newChild_iff p false).trans ?_
    exact (and_iff_right rfl).symm

/-- **A failed call is harmless in these cases only.** -/
theorem harmless_build_iff (call : FallibleCall) (hret : core.retValue = some retValue)
    (hfailure : IsFailure core.tracer retValue) (hpid : core.pid ∈ o.processes.keys)
    (hB : CacheBelongs o) :
    Harmless core.pid (call.build env core) o ↔ Spared o core retValue call := by
  cases call with
  | opens => exact harmless_open_iff hret hpid hB
  | openat => exact harmless_openat_iff hret hpid hB
  | socket => exact harmless_socket_iff hret hpid
  | clone => exact harmless_clone_iff hret hfailure
  | vfork => exact harmless_vfork_iff hret hfailure
  | read => exact harmless_read_iff hret hfailure hpid hB
  | write => exact harmless_write_iff hret hfailure hpid hB

/-! ## The openings that succeed -/

/-- The calls that open files. -/
def FallibleCall.Opens : FallibleCall → Prop
  | opens => True
  | openat => True
  | _ => False

/-- The path that the line of an opening tells: the one that is printed with the descriptor, or else
the argument. A relative path of `openat` is relative to the directory that is printed with its
descriptor. -/
inductive TellsPath (core : BatchLetCore) (retValue : Text) : FallibleCall → Text → Prop
  | printed {call : FallibleCall} {n : ℕ} {path : Text}
      (hret : retValue = Nat.toDigits 10 n ++ '<' :: path ++ ['>']) :
      TellsPath core retValue call path
  | opens {n : ℕ} {path : Text} (hret : retValue = Nat.toDigits 10 n)
      (hpath : core.parsedArgs[0]? = some (.str path)) : TellsPath core retValue .opens path
  | openat {n : ℕ} {dirNam : Arg} {path : Text} (hret : retValue = Nat.toDigits 10 n)
      (hdir : core.parsedArgs[0]? = some dirNam) (hpath : core.parsedArgs[1]? = some (.str path))
      (hkind : path.head? = some '/' ∨ dirNam = .str atFdCwd) : TellsPath core retValue .openat path
  | openatDir {n m : ℕ} {dir path : Text} (hret : retValue = Nat.toDigits 10 n)
      (hdir : core.parsedArgs[0]? = some (.str (Nat.toDigits 10 m ++ '<' :: dir ++ ['>'])))
      (hpath : core.parsedArgs[1]? = some (.str path)) (hkind : path.head? ≠ some '/') :
      TellsPath core retValue .openat (dir ++ '/' :: path)

/-- The path that the model of an opening takes. -/
def givenPath (o : Objects) (core : BatchLetCore) (retValue : Text) : FallibleCall → Option Text
  | .opens => openPath o core retValue
  | .openat => openatPath o core retValue
  | _ => none

/-- An `open` that is taken for a failure; the other models do not check. -/
def TakenForFailure (tracer : Tracer) (retValue : Text) : FallibleCall → Prop
  | .opens => invalidReturnedFileDescriptor retValue tracer = true
  | _ => False

/-- The computation raises nothing, and records the opening of a file. -/
def Records {α : Type} (pid : ℤ) (m : ObjM α) (o : Objects) (name : Text) : Prop :=
  ∃ x o', m.run o = (.ok x, o') ∧ OpenedOnce o o' pid name

theorem isSome_openTime_opened (timeStamp : Text) (a : FileAccess) :
    (a.opened env timeStamp).openTime.isSome := by
  rw [FileAccess.opened]
  dsimp only
  split
  · rfl
  · rename_i hlate
    cases htime : a.openTime with
    | none => simp [htime, isEarlier] at hlate
    | some t => rfl

/-- What is found is recorded, once more. -/
theorem records_opening {m : ObjM Text} {path : Option Text} {filDes : Text → Dict Text Text}
    (hf : Finds core o m path filDes) (hB : CacheBelongs o) {name : Text}
    (hname : path.bind (acceptedFile o core) = some name) :
    Records core.pid (m >>= opening env core) o name := by
  obtain ⟨pathName, hpath, haccepted⟩ := Option.bind_eq_some_iff.mp hname
  obtain ⟨o₁, hm, hsame, -⟩ := hf.ok pathName name hpath haccepted
  have hB₁ : CacheBelongs o₁ := keepsCache_of_eq hsame.fileAccesses hsame.cache hB
  obtain ⟨o', hrun, hl, -, -, hcached⟩ := @run_opening env core o₁ hB₁ name
  obtain ⟨a, ha, hprocess, hfile⟩ := keepsCache_withAccess o₁ core.pid name hB₁ _ _ _
    (cachedAccess_withAccess o₁ core.pid name)
  have hnum : a.numOpen = o.fileAccesses[o₁.accessRank core.pid name]?.bind (·.numOpen) := by
    rw [fileAccesses_withAccess, hsame.fileAccesses] at ha
    cases hc : o₁.cachedAccess core.pid name with
    | some k =>
      rw [hc, List.append_nil] at ha
      rw [ha]
      rfl
    | none =>
      rw [hc, getElem?_concat] at ha
      split at ha
      · rename_i hlen
        cases ha
        rw [hlen, List.getElem?_eq_none le_rfl]
        rfl
      · rw [ha]
        rfl
  have howner : (a.opened env core.timeStart).process = a.process ∧
      (a.opened env core.timeStart).dataFile = a.dataFile ∧
      (a.opened env core.timeStart).numOpen = increment a.numOpen := by
    rw [FileAccess.opened]
    dsimp only
    split <;> exact ⟨rfl, rfl, rfl⟩
  refine ⟨_, o', (run_bind_of_ok hm _).trans hrun, o₁.accessRank core.pid name,
    a.opened env core.timeStart, hcached, ?_, howner.1.trans hprocess, howner.2.1.trans hfile,
    isSome_openTime_opened _ _, hnum ▸ howner.2.2⟩
  rw [hl]
  simp [ha]

theorem increment_ne (n : Option ℕ) : increment n ≠ n := by
  cases n <;> simp [increment]

/-- Only the file that is found is opened: the other accesses are as they were. -/
theorem found_of_openedOnce {m : ObjM Text} {path : Option Text} {filDes : Text → Dict Text Text}
    (hf : Finds core o m path filDes) (hB : CacheBelongs o) {name : Text} {x : Option (List SigArg)}
    (hrun : (m >>= opening env core).run o = (.ok x, o'))
    (hopened : OpenedOnce o o' core.pid name) :
    path.bind (acceptedFile o core) = some name := by
  obtain ⟨found, o₁, hm, hopen⟩ := run_bind_eq_ok.mp hrun
  obtain ⟨pathName, hpath, haccepted⟩ := hf.of_ok found o₁ hm
  obtain ⟨o₂, hm', hsame, -⟩ := hf.ok pathName found hpath haccepted
  cases hm'.symm.trans hm
  have hB₁ : CacheBelongs o₁ := keepsCache_of_eq hsame.fileAccesses hsame.cache hB
  obtain ⟨o₃, hopen', hl, -, -, hcached⟩ := @run_opening env core o₁ hB₁ found
  cases hopen'.symm.trans hopen
  obtain ⟨i, a, hi, ha, -, hfile, -, hnum⟩ := hopened
  rw [hpath, Option.bind_some, haccepted, Option.some.injEq]
  by_cases hrank : i = o₁.accessRank core.pid found
  · obtain ⟨b, hb, -, hfound⟩ := keepsCache_withAccess o₁ core.pid found hB₁ _ _ _
      (cachedAccess_withAccess o₁ core.pid found)
    rw [hl, hrank, List.getElem?_modify_eq, hb] at ha
    cases ha
    have howner : (b.opened env core.timeStart).dataFile = b.dataFile := by
      rw [FileAccess.opened]
      dsimp only
      split <;> rfl
    exact hfound.symm.trans (howner.symm.trans hfile)
  · -- the number of openings of another access has not changed
    rw [hl, List.getElem?_modify_ne _ _ (Ne.symm hrank), fileAccesses_withAccess,
      hsame.fileAccesses] at ha
    have hold : o.fileAccesses[i]? = some a := by
      cases hc : o₁.cachedAccess core.pid found with
      | some k => rwa [hc, List.append_nil] at ha
      | none =>
        rw [hc, getElem?_concat, if_neg] at ha
        · exact ha
        · rwa [Objects.accessRank, hc, Option.getD_none, hsame.fileAccesses] at hrank
    rw [hold, Option.bind_some] at hnum
    exact absurd hnum.symm (increment_ne _)

/-- **An opening is recorded, for the file that the model finds, when it is not taken for a
failure.** -/
theorem records_build_iff (call : FallibleCall) (hcall : call.Opens)
    (hret : core.retValue = some retValue) (hpid : core.pid ∈ o.processes.keys)
    (hB : CacheBelongs o) (name : Text) :
    Records core.pid (call.build env core) o name ↔
      ¬ TakenForFailure core.tracer retValue call ∧
        (givenPath o core retValue call).bind (acceptedFile o core) = some name := by
  cases call with
  | opens =>
    by_cases htaken : invalidReturnedFileDescriptor retValue core.tracer = true
    · refine iff_of_false ?_ fun h => h.1 htaken
      rintro ⟨x, o', hrun, i, a, -, ha, -, -, -, hnum⟩
      rw [FallibleCall.build, batchLetSysOpen, run_bind_of_ok (run_retText hret o),
        if_pos htaken] at hrun
      cases hrun
      rw [ha, Option.bind_some] at hnum
      exact increment_ne _ hnum.symm
    · have hbuild : (batchLetSysOpen env core).run o =
          (openedFile env core retValue >>= opening env core).run o := by
        rw [batchLetSysOpen, run_bind_of_ok (run_retText hret o), if_neg htaken]
      have hfinds := @finds_openedFile env core o hpid retValue
      rw [Records, FallibleCall.build, hbuild]
      constructor
      · rintro ⟨x, o', hrun, hopened⟩
        exact ⟨htaken, found_of_openedOnce hfinds hB hrun hopened⟩
      · rintro ⟨-, hname⟩
        exact records_opening hfinds hB hname
  | openat =>
    have hbuild : (batchLetSysOpenat env core).run o =
        (openatFile env core retValue >>= opening env core).run o := by
      rw [batchLetSysOpenat, run_bind_of_ok (run_retText hret o)]
    have hfinds := @finds_openatFile env core o hpid retValue
    rw [Records, FallibleCall.build, hbuild]
    constructor
    · rintro ⟨x, o', hrun, hopened⟩
      exact ⟨not_false, found_of_openedOnce hfinds hB hrun hopened⟩
    · rintro ⟨-, hname⟩
      exact records_opening hfinds hB hname
  | socket => exact hcall.elim
  | clone => exact hcall.elim
  | vfork => exact hcall.elim
  | read => exact hcall.elim
  | write => exact hcall.elim

end

end Survol.Dockit
