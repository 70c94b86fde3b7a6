import Survol.Lib.Dict
import Survol.Lib.Effect
import Survol.Lib.Text

/-!
# The files of the events

Events are triples about objects, which are appended to a file for each object. There is one
directory for each class, and the name of a file is the moniker of the object.

## Main definitions

* `CimObject`, `Triple` — the objects, and what is said of them.
* `monikerToEventFile` — the path of the file of an object.
* `dataStore`, `dataStoreList` — the events are stored.
* `dataRetrieve` — the events of an object are read.

## Main results

* `linesOf_dataStoreList` — what the files contain after the events are stored.
* `not_givenBack` — the events of an object are never given back.
-/

namespace Survol.Events

open PyText (Text rfindChar)

/-! ## Events -/

/-- A literal, or the value of a property. -/
inductive Scalar where
  | text (t : Text)
  | number (n : ℤ)
  deriving DecidableEq, Repr

/-- The text `str(v)` of a value. -/
def Scalar.str : Scalar → Text
  | .text t => t
  | .number n => (toString n).toList

/-- An object: its class and its properties. -/
structure CimObject where
  entityType : Text
  properties : Dict Text Scalar
  deriving DecidableEq, Repr

/-- The object of a triple. -/
inductive TripleObject where
  | object (o : CimObject)
  | literal (s : Scalar)
  deriving DecidableEq, Repr

/-- An event. -/
structure Triple where
  subject : CimObject
  predicate : Text
  object : TripleObject
  deriving DecidableEq, Repr

/-- A triple has an object as subject or as object. -/
def Triple.Concerns (t : Triple) (o : CimObject) : Prop := t.subject = o ∨ t.object = .object o

instance (t : Triple) (o : CimObject) : Decidable (t.Concerns o) :=
  inferInstanceAs (Decidable (_ ∨ _))

/-! ## The file system -/

/-- The directories, and the files of events: each line of a file is a triple. -/
structure FileSystem where
  dirs : List Text
  files : Dict Text (List Triple)
  deriving DecidableEq, Repr

/-- What the functions raise. -/
inductive Error where
  | keyError
  | fileNotFoundError
  | typeError
  deriving DecidableEq, Repr

/-- The lines of a file, if it is there. -/
def FileSystem.linesOf (fs : FileSystem) (path : Text) : List Triple :=
  (Dict.get? fs.files path).getD []

/-- The directory of a path. -/
def parent (path : Text) : Text := path.take ((rfindChar '/' path).getD 0)

/-- Create a directory, which needs its parent. -/
def mkdir (path : Text) : Py Error FileSystem Unit := do
  let fs ← Py.get
  if parent path ∈ fs.dirs then Py.modify fun fs => { fs with dirs := path :: fs.dirs }
  else Py.raise .fileNotFoundError

/-- The directories above a path. -/
def ancestors (path : Text) : List Text :=
  ((List.range path.length).filter fun i => path[i]? = some '/').map path.take

/-- Create a directory, and what is missing above it. -/
def makedirs (path : Text) : Py Error FileSystem Unit :=
  Py.modify fun fs => { fs with dirs := path :: ancestors path ++ fs.dirs }

/-- Create a directory that is not there. -/
def unlessDir (path : Text) (create : Py Error FileSystem Unit) : Py Error FileSystem Unit := do
  let fs ← Py.get
  if path ∈ fs.dirs then pure () else create

/-- Append a line to a file. -/
def appendLine (path : Text) (line : Triple) : Py Error FileSystem Unit :=
  Py.modify fun fs => { fs with files := Dict.set fs.files path (fs.linesOf path ++ [line]) }

/-! ## The name of a file -/

/-- The directory of temporary files, and the keys of the classes. -/
structure Config where
  tmpDir : Text
  ontologyClassKeys : Text → List Text

/-- The directory of the files of events. -/
def Config.eventsDirectory (cfg : Config) : Text := cfg.tmpDir ++ "/Events/".toList

/-- The extension of the files of events. -/
def eventsFileExtension : Text := ".events".toList

/-- The characters that are left in a file name. -/
def isValidFilenameChar (c : Char) : Bool :=
  ",=-_.() ".toList.contains c || c.isAlphanum

/-- A text as a file name. -/
def stringToFileName (orgFilNam : Text) : Text :=
  (orgFilNam.map fun c => if c = '/' ∨ c = '\\' ∨ c = ' ' then '_' else c).filter isValidFilenameChar

/-- The moniker of an object, with its properties in the order of the dictionary. -/
def moniker (entityType : Text) (entityIdsDict : Dict Text Scalar) : Text :=
  (entityIdsDict.foldl (fun (s : Text × Text) p =>
    (s.1 ++ s.2 ++ p.1 ++ '=' :: p.2.str, ",".toList)) (entityType, ".".toList)).1

/-- The file name of an object. -/
def eventFileName (entityType : Text) (entityIdsDict : Dict Text Scalar) : Text :=
  stringToFileName ((moniker entityType entityIdsDict).take 240) ++ eventsFileExtension

/-- The file name of an object, whose directory is created. -/
def entityTypeIdsToEventFile (cfg : Config) (entityType : Text)
    (entityIdsDict : Dict Text Scalar) : Py Error FileSystem Text := do
  let dirEntity := cfg.eventsDirectory ++ entityType
  unlessDir dirEntity (mkdir dirEntity)
  pure (eventFileName entityType entityIdsDict)

/-- The properties of the keys of a class, if they are all there. -/
def entityIds? (cfg : Config) (o : CimObject) : Option (Dict Text Scalar) :=
  (cfg.ontologyClassKeys o.entityType).foldlM
    (fun d k => (Dict.get? o.properties k).map fun v => Dict.set d k v) []

/-- The path of the file of an object. -/
def monikerToEventFile (cfg : Config) (jsonMonik : CimObject) : Py Error FileSystem Text := do
  let dirEntity := cfg.tmpDir ++ "/Events/".toList ++ jsonMonik.entityType
  unlessDir dirEntity (makedirs dirEntity)
  let entityIdsDict ← Py.ofOption .keyError (entityIds? cfg jsonMonik)
  let eventFilNam ← entityTypeIdsToEventFile cfg jsonMonik.entityType entityIdsDict
  pure (dirEntity ++ '/' :: eventFilNam)

/-! ## Storing -/

/-- Append an event to the file of an object. -/
def addEventToObject (cfg : Config) (theObject : CimObject) (jsonData : Triple) :
    Py Error FileSystem Unit := do
  let eventFilNam ← monikerToEventFile cfg theObject
  appendLine eventFilNam jsonData

/-- Store an event with its subject, and with its object if it is not a literal. -/
def dataStore (cfg : Config) (jsonData : Triple) : Py Error FileSystem Unit := do
  addEventToObject cfg jsonData.subject jsonData
  match jsonData.object with
  | .object o => addEventToObject cfg o jsonData
  | .literal _ => pure ()

/-- Store events, where an exception is for one event only. -/
def dataStoreList (cfg : Config) (jsonDataList : List Triple) : Py Error FileSystem Unit :=
  Py.each (fun jsonData => Py.catching (fun _ => true) (dataStore cfg jsonData) (pure ()))
    jsonDataList

/-! ## Retrieving -/

/-- What a function returns to be iterated on. A generator is not run before. -/
inductive Iterable where
  | list (l : List Triple)
  | generator (eventFilNam : Text)

/-- What an iteration gives. -/
def Iterable.yields (fs : FileSystem) : Iterable → List Triple
  | .list l => l
  | .generator eventFilNam => fs.linesOf eventFilNam

/-- The length `len(l)`, which a generator does not have. -/
def Iterable.len : Iterable → Py Error FileSystem ℕ
  | .list l => pure l.length
  | .generator _ => Py.raise .typeError

/-- The events of a file. -/
def getDataFromFile (eventFilNam : Text) : Iterable := .generator eventFilNam

/-- The events of the object of a class with some values. -/
def dataRetrieve (cfg : Config) (entityType : Text) (entityIdsArr : List Scalar) :
    Py Error FileSystem Iterable := do
  let arrOnto := cfg.ontologyClassKeys entityType
  let entityIdsDict := (arrOnto.zip entityIdsArr).foldl (fun d p => Dict.set d p.1 p.2) []
  let eventFilNam ← entityTypeIdsToEventFile cfg entityType entityIdsDict
  let arrTriples := getDataFromFile eventFilNam
  let _ ← arrTriples.len
  pure arrTriples

/-! ## What is stored -/

/-- The path of the file of an object that has all its keys. -/
def eventPath? (cfg : Config) (o : CimObject) : Option Text :=
  (entityIds? cfg o).map fun entityIdsDict =>
    cfg.tmpDir ++ "/Events/".toList ++ o.entityType ++ '/' :: eventFileName o.entityType entityIdsDict

/-- The lines that an event adds to a file: twice the same line, when its subject and its object
share the file. The object is stored when the subject is. -/
def linesFor (cfg : Config) (path : Text) (t : Triple) : List Triple :=
  match eventPath? cfg t.subject with
  | none => []
  | some p => (if p = path then [t] else []) ++
    match t.object with
    | .object o => if eventPath? cfg o = some path then [t] else []
    | .literal _ => []

theorem run_unlessDir {path : Text} {fs : FileSystem} (h : path ∈ fs.dirs)
    (create : Py Error FileSystem Unit) : (unlessDir path create).run fs = (.ok (), fs) := by
  rw [unlessDir, Py.run_bind]
  simp only [Py.get, if_pos h, Py.run_pure]

/-- The directory is there afterwards, and the files are the same. -/
theorem run_unlessDir_makedirs (path : Text) (fs : FileSystem) : ∃ fs', fs'.files = fs.files ∧
    path ∈ fs'.dirs ∧ (unlessDir path (makedirs path)).run fs = (.ok (), fs') := by
  by_cases h : path ∈ fs.dirs
  · exact ⟨fs, rfl, h, run_unlessDir h _⟩
  · refine ⟨{ fs with dirs := path :: ancestors path ++ fs.dirs }, rfl, List.mem_cons_self, ?_⟩
    rw [unlessDir, Py.run_bind]
    simp only [Py.get, if_neg h]
    rfl

/-- The path of an object is found without touching the files. -/
theorem run_monikerToEventFile (cfg : Config) (o : CimObject) (fs : FileSystem) :
    ∃ fs', fs'.files = fs.files ∧ (monikerToEventFile cfg o).run fs =
      ((eventPath? cfg o).elim (.error .keyError) .ok, fs') := by
  obtain ⟨fs', hfiles, hmem, hrun⟩ :=
    run_unlessDir_makedirs (cfg.tmpDir ++ "/Events/".toList ++ o.entityType) fs
  refine ⟨fs', hfiles, ?_⟩
  rw [monikerToEventFile, Py.run_bind_of_ok hrun, eventPath?]
  cases hids : entityIds? cfg o with
  | none => rfl
  | some d =>
    have hname : (entityTypeIdsToEventFile cfg o.entityType d).run fs' =
        (.ok (eventFileName o.entityType d), fs') := by
      rw [entityTypeIdsToEventFile, Config.eventsDirectory, Py.run_bind_of_ok (run_unlessDir hmem _)]
      rfl
    have hok : (Py.ofOption .keyError (some d) : Py Error FileSystem _).run fs' = (.ok d, fs') := rfl
    rw [Py.run_bind_of_ok hok, Py.run_bind_of_ok hname]
    rfl

/-- An event is appended to the file of its object, and to no other one. -/
theorem run_addEventToObject (cfg : Config) (o : CimObject) (t : Triple) (fs : FileSystem) :
    (((addEventToObject cfg o t).run fs).1 =
      if (eventPath? cfg o).isSome then .ok () else .error .keyError) ∧
    ∀ path, ((addEventToObject cfg o t).run fs).2.linesOf path =
      fs.linesOf path ++ if eventPath? cfg o = some path then [t] else [] := by
  obtain ⟨fs', hfiles, hrun⟩ := run_monikerToEventFile cfg o fs
  have hlines : ∀ path, fs'.linesOf path = fs.linesOf path := fun path => by
    rw [FileSystem.linesOf, hfiles, FileSystem.linesOf]
  cases hp : eventPath? cfg o with
  | none =>
    rw [hp] at hrun
    rw [addEventToObject, Py.run_bind_of_error hrun]
    exact ⟨rfl, fun path => by rw [hlines, if_neg nofun, List.append_nil]⟩
  | some p =>
    rw [hp] at hrun
    rw [addEventToObject, Py.run_bind_of_ok hrun]
    refine ⟨rfl, fun path => ?_⟩
    change (Dict.get? (Dict.set fs'.files p (fs'.linesOf p ++ [t])) path).getD [] = _
    rw [Dict.get?_set]
    by_cases he : p = path
    · rw [if_pos he, he, if_pos rfl, Option.getD_some, hlines]
    · rw [if_neg he, if_neg fun h => he (Option.some.inj h), List.append_nil]
      exact hlines path

/-- What one event adds to a file. -/
theorem linesOf_dataStore (cfg : Config) (t : Triple) (fs : FileSystem) (path : Text) :
    ((dataStore cfg t).run fs).2.linesOf path = fs.linesOf path ++ linesFor cfg path t := by
  obtain ⟨hres, hlines⟩ := run_addEventToObject cfg t.subject t fs
  rw [dataStore, Py.run_bind]
  rcases hrun : (addEventToObject cfg t.subject t).run fs with ⟨r, fs'⟩
  rw [hrun] at hres hlines
  have hlines := hlines path
  cases hp : eventPath? cfg t.subject with
  | none =>
    rw [hp] at hres hlines
    cases hres
    rw [linesFor, hp]
    simpa using hlines
  | some p =>
    rw [hp] at hres hlines
    cases hres
    rw [linesFor, hp]
    simp only [Option.some.injEq] at hlines ⊢
    cases ht : t.object with
    | literal v =>
      simp only [List.append_nil]
      exact hlines
    | object o =>
      simp only
      rw [(run_addEventToObject cfg o t fs').2 path, hlines, List.append_assoc]

/-- **The files contain the events that were stored, in the order of their storage.** -/
theorem linesOf_dataStoreList (cfg : Config) (ts : List Triple) (fs : FileSystem) (path : Text) :
    ((dataStoreList cfg ts).run fs).2.linesOf path =
      fs.linesOf path ++ ts.flatMap (linesFor cfg path) := by
  induction ts generalizing fs with
  | nil => exact (List.append_nil _).symm
  | cons t ts ih =>
    have hstep : (Py.catching (fun _ => true) (dataStore cfg t) (pure ())).run fs =
        (.ok (), ((dataStore cfg t).run fs).2) := by
      simp only [Py.catching]
      rcases (dataStore cfg t).run fs with ⟨_ | ⟨⟨⟩⟩, fs'⟩ <;> rfl
    rw [dataStoreList, Py.run_each_cons, hstep, List.flatMap_cons, ← List.append_assoc,
      ← linesOf_dataStore cfg t fs path]
    exact ih _

/-! ## What is retrieved -/

/-- The values of the keys of an object. -/
def entityIdsArr (cfg : Config) (o : CimObject) : List Scalar :=
  (cfg.ontologyClassKeys o.entityType).filterMap fun k => Dict.get? o.properties k

/-- The name of the file that the events of an object are read from. -/
def readName (cfg : Config) (o : CimObject) : Text :=
  eventFileName o.entityType (((cfg.ontologyClassKeys o.entityType).zip (entityIdsArr cfg o)).foldl
    (fun d p => Dict.set d p.1 p.2) [])

/-- After some events are stored, exactly those of an object are retrieved. -/
def Retrieved (cfg : Config) (fs : FileSystem) (ts : List Triple) (o : CimObject) : Prop :=
  ∃ events fs',
    (dataRetrieve cfg o.entityType (entityIdsArr cfg o)).run ((dataStoreList cfg ts).run fs).2 =
      (.ok events, fs') ∧ events.yields fs' = ts.filter fun t => t.Concerns o

/-- The file that is written for an object is the one that is read. -/
def SameFile (cfg : Config) (o : CimObject) : Prop := eventPath? cfg o = some (readName cfg o)

/-- Different objects have different files. -/
def OwnFile (cfg : Config) (o : CimObject) : Prop :=
  ∀ o', o' ≠ o → eventPath? cfg o' ≠ eventPath? cfg o

/-- The events of an object are given back. -/
structure GivenBack (cfg : Config) (fs : FileSystem) (ts : List Triple) (o : CimObject) : Prop where
  retrieved : Retrieved cfg fs ts o
  sameFile : SameFile cfg o
  ownFile : OwnFile cfg o

/-- A generator has no length. -/
theorem dataRetrieve_ne_ok (cfg : Config) (entityType : Text) (vals : List Scalar)
    (fs : FileSystem) (events : Iterable) :
    ((dataRetrieve cfg entityType vals).run fs).1 ≠ .ok events := by
  rw [dataRetrieve, Py.run_bind]
  split
  · exact nofun
  · exact nofun

theorem not_retrieved (cfg : Config) (fs : FileSystem) (ts : List Triple) (o : CimObject) :
    ¬ Retrieved cfg fs ts o := by
  rintro ⟨events, fs', h, -⟩
  exact dataRetrieve_ne_ok cfg o.entityType (entityIdsArr cfg o) _ events (congrArg Prod.fst h)

theorem slash_not_mem_eventFileName (entityType : Text) (d : Dict Text Scalar) :
    '/' ∉ eventFileName entityType d := by
  intro h
  obtain h | h := List.mem_append.mp h
  · have := (List.mem_filter.mp h).2
    revert this
    decide
  · revert h
    decide

/-- The written file is in a directory, the read one is not. -/
theorem not_sameFile (cfg : Config) (o : CimObject) : ¬ SameFile cfg o := by
  intro h
  obtain ⟨d, -, hpath⟩ := Option.map_eq_some_iff.mp h
  have hslash : '/' ∈ readName cfg o := by
    rw [← hpath]
    exact List.mem_append_right _ List.mem_cons_self
  exact slash_not_mem_eventFileName _ _ hslash

/-- **The events of an object are never given back**: reading them fails, and it would read a
file that is not the written one. -/
theorem not_givenBack (cfg : Config) (fs : FileSystem) (ts : List Triple) (o : CimObject) :
    ¬ GivenBack cfg fs ts o ∧ ¬ Retrieved cfg fs ts o ∧ ¬ SameFile cfg o :=
  ⟨fun h => not_retrieved cfg fs ts o h.retrieved, not_retrieved cfg fs ts o, not_sameFile cfg o⟩

/-- The file of a name. -/
def fileNamed (name : String) : CimObject :=
  ⟨"CIM_DataFile".toList, [("Name".toList, .text name.toList)]⟩

/-- The files are known by their names. -/
def fileConfig : Config where
  tmpDir := "/tmp".toList
  ontologyClassKeys _ := ["Name".toList]

/-- The event of a file is stored in the file of another one too, and it is not retrieved. -/
theorem sharedFile_not_givenBack :
    (¬ ∃ events fs', (dataRetrieve fileConfig "CIM_DataFile".toList [.text "/tmp/a b".toList]).run
        ((dataStoreList fileConfig [⟨fileNamed "/tmp/a b", "size".toList, .literal (.number 3)⟩]).run
          ⟨[], []⟩).2 = (.ok events, fs')) ∧
      eventPath? fileConfig (fileNamed "/tmp/a b") = eventPath? fileConfig (fileNamed "/tmp/a_b") ∧
      fileNamed "/tmp/a b" ≠ fileNamed "/tmp/a_b" := by
  refine ⟨?_, by decide, by decide⟩
  rintro ⟨events, fs', h⟩
  exact dataRetrieve_ne_ok _ _ _ _ events (congrArg Prod.fst h)

end Survol.Events
