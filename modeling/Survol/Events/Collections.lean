import Survol.Events.EventFiles
import Mathlib.Data.List.Nodup

/-!
# All the events are collected

The events of all the files are read together, file after file, and each file is emptied when all
its lines were read. A line that cannot be read stops the reading of its file, which is tried three
times and is not emptied.

## Main definitions

* `dataRetrieveAll` — the events of all the files.
* `Op`, `runOps` — events that are stored, and collections.

## Main results

* `given_of_readable` — each event is given once for each object that it is stored with, in order.
* `given_of_unreadable` — nothing is given after a line that cannot be read.
-/

open PyText (Text)

namespace Survol.Events

/-! ## The code -/

/-- `TripleJsonToRdf`: the keys of the objects are read. The RDF triple stands for its event. -/
def tripleJsonToRdf? (cfg : Config) (t : Triple) : Option Triple := do
  let _ ← entityIds? cfg t.subject
  match t.object with
  | .object o =>
    let _ ← entityIds? cfg o
    return t
  | .literal _ => return t

/-- The lines of a file are loaded one after the other: those that are given, and whether no
exception was raised. -/
def yieldLines (cfg : Config) : List Triple → List Triple × Bool
  | [] => ([], true)
  | line :: lines =>
    match tripleJsonToRdf? cfg line with
    | some t => (t :: (yieldLines cfg lines).1, (yieldLines cfg lines).2)
    | none => ([], false)

/-- The tries of `get_data_from_file`: what is given, and what is left in the file. -/
def retrieveLines (cfg : Config) (lines : List Triple) : ℕ → List Triple × List Triple
  | 0 => ([], lines)
  | maxTry + 1 =>
    if (yieldLines cfg lines).2 then ((yieldLines cfg lines).1, [])
    else
      ((yieldLines cfg lines).1 ++ (retrieveLines cfg lines maxTry).1,
        (retrieveLines cfg lines maxTry).2)

/-- The files that `data_retrieve_all` looks for. -/
def isEventFile (cfg : Config) (path : Text) : Bool :=
  cfg.eventsDirectory.isPrefixOf path && eventsFileExtension.isSuffixOf path

/-- The order in which `os.walk` visits the files. -/
structure Walk where
  order : List Text → List Text
  perm : ∀ paths, (order paths).Perm paths

/-- A file has other lines. -/
def FileSystem.setLines (fs : FileSystem) (path : Text) (lines : List Triple) : FileSystem :=
  { fs with files := fs.files.set path lines }

/-- The loop on the files: each event with its file. -/
def retrieveFiles (cfg : Config) : List Text → FileSystem → List (Text × Triple) × FileSystem
  | [], fs => ([], fs)
  | path :: paths, fs =>
    let r := retrieveLines cfg (fs.linesOf path) 3
    let rest := retrieveFiles cfg paths (fs.setLines path r.2)
    (r.1.map (path, ·) ++ rest.1, rest.2)

/-- `data_retrieve_all`, which is iterated to its end. -/
def dataRetrieveAll (cfg : Config) (walk : Walk) (fs : FileSystem) :
    List (Text × Triple) × FileSystem :=
  retrieveFiles cfg (walk.order (fs.files.keys.filter (isEventFile cfg))) fs

/-! ## Runs -/

/-- What is done with the events. -/
inductive Op where
  | store (ts : List Triple)
  | retrieveAll
  deriving DecidableEq

/-- No directory, and no file. -/
def FileSystem.empty : FileSystem := ⟨[], []⟩

section
variable (cfg : Config) (walk : Walk)

def exec : Op → FileSystem → List (Text × Triple) × FileSystem
  | .store ts, fs => ([], ((dataStoreList cfg ts).run fs).2)
  | .retrieveAll, fs => dataRetrieveAll cfg walk fs

def runOps : List Op → FileSystem → List (Text × Triple) × FileSystem
  | [], fs => ([], fs)
  | op :: ops, fs =>
    ((exec cfg walk op fs).1 ++ (runOps ops (exec cfg walk op fs).2).1,
      (runOps ops (exec cfg walk op fs).2).2)

/-- The events that are stored. -/
def storedBy : List Op → List Triple
  | [] => []
  | .store ts :: ops => ts ++ storedBy ops
  | .retrieveAll :: ops => storedBy ops

/-- The number of collections. -/
def retrievals (ops : List Op) : ℕ := ops.count .retrieveAll

/-- The events that a file has given. -/
def givenFrom (path : Text) (given : List (Text × Triple)) : List Triple :=
  (given.filter fun e => e.1 = path).map Prod.snd

/-- An event whose object has its keys, as its subject. -/
def Readable (t : Triple) : Prop :=
  (entityIds? cfg t.subject).isSome → (tripleJsonToRdf? cfg t).isSome

instance (t : Triple) : Decidable (Readable cfg t) := inferInstanceAs (Decidable (_ → _))

end

section
variable {cfg : Config} {walk : Walk} {fs : FileSystem} {path : Text}

@[simp] theorem givenFrom_nil : givenFrom path [] = [] := rfl

theorem givenFrom_append (given given' : List (Text × Triple)) :
    givenFrom path (given ++ given') = givenFrom path given ++ givenFrom path given' := by
  simp [givenFrom]

theorem givenFrom_map_self (ts : List Triple) : givenFrom path (ts.map (path, ·)) = ts := by
  simp [givenFrom, List.filter_map, Function.comp_def]

theorem givenFrom_map_of_ne {path' : Text} (h : path' ≠ path) (ts : List Triple) :
    givenFrom path (ts.map (path', ·)) = [] := by
  simp [givenFrom, List.filter_map, Function.comp_def, h]

theorem runOps_append (ops ops' : List Op) (fs : FileSystem) :
    runOps cfg walk (ops ++ ops') fs =
      ((runOps cfg walk ops fs).1 ++ (runOps cfg walk ops' (runOps cfg walk ops fs).2).1,
        (runOps cfg walk ops' (runOps cfg walk ops fs).2).2) := by
  induction ops generalizing fs with
  | nil => rfl
  | cons op ops ih => simp only [List.cons_append, runOps, ih, List.append_assoc]

/-! ## One file -/

theorem tripleJsonToRdf?_eq_some {t t' : Triple} (h : tripleJsonToRdf? cfg t = some t') :
    t' = t := by
  obtain ⟨_, -, h⟩ := Option.bind_eq_some_iff.mp h
  split at h
  · obtain ⟨_, -, h⟩ := Option.bind_eq_some_iff.mp h
    exact (Option.some.inj h).symm
  · exact (Option.some.inj h).symm

/-- All the lines are given when they can all be read. -/
theorem yieldLines_of_forall {lines : List Triple}
    (h : ∀ t ∈ lines, (tripleJsonToRdf? cfg t).isSome) : yieldLines cfg lines = (lines, true) := by
  induction lines with
  | nil => rfl
  | cons t lines ih =>
    obtain ⟨t', ht⟩ := Option.isSome_iff_exists.mp (h t List.mem_cons_self)
    rw [yieldLines, ht, ih fun t' ht' => h t' (List.mem_cons_of_mem t ht'),
      tripleJsonToRdf?_eq_some ht]

/-- The lines before the first one that cannot be read are given. -/
theorem yieldLines_of_none {pre post : List Triple} {bad : Triple}
    (hpre : ∀ t ∈ pre, (tripleJsonToRdf? cfg t).isSome) (hbad : tripleJsonToRdf? cfg bad = none) :
    yieldLines cfg (pre ++ bad :: post) = (pre, false) := by
  induction pre with
  | nil => rw [List.nil_append, yieldLines, hbad]
  | cons t pre ih =>
    obtain ⟨t', ht⟩ := Option.isSome_iff_exists.mp (hpre t List.mem_cons_self)
    rw [List.cons_append, yieldLines, ht, ih fun t' ht' => hpre t' (List.mem_cons_of_mem t ht'),
      tripleJsonToRdf?_eq_some ht]

theorem retrieveLines_of_forall {lines : List Triple}
    (h : ∀ t ∈ lines, (tripleJsonToRdf? cfg t).isSome) (maxTry : ℕ) :
    retrieveLines cfg lines (maxTry + 1) = (lines, []) := by
  rw [retrieveLines, yieldLines_of_forall h, if_pos rfl]

/-- Each try gives the same lines again. -/
theorem retrieveLines_of_none {pre post : List Triple} {bad : Triple}
    (hpre : ∀ t ∈ pre, (tripleJsonToRdf? cfg t).isSome) (hbad : tripleJsonToRdf? cfg bad = none)
    (maxTry : ℕ) : retrieveLines cfg (pre ++ bad :: post) maxTry =
      ((List.replicate maxTry pre).flatten, pre ++ bad :: post) := by
  induction maxTry with
  | zero => rfl
  | succ maxTry ih =>
    rw [retrieveLines, yieldLines_of_none hpre hbad, if_neg (by simp), ih, List.replicate_succ,
      List.flatten_cons]

/-! ## All the files -/

theorem linesOf_setLines (fs : FileSystem) (path path' : Text) (lines : List Triple) :
    (fs.setLines path' lines).linesOf path = if path' = path then lines else fs.linesOf path := by
  rw [FileSystem.linesOf, FileSystem.setLines, Dict.get?_set]
  split
  · rfl
  · rfl

/-- What is given by a file that is visited once. -/
theorem retrieveFiles_eq (cfg : Config) (path : Text) {paths : List Text} (hnodup : paths.Nodup)
    (fs : FileSystem) :
    givenFrom path (retrieveFiles cfg paths fs).1 =
        (if path ∈ paths then (retrieveLines cfg (fs.linesOf path) 3).1 else []) ∧
      (retrieveFiles cfg paths fs).2.linesOf path =
        (if path ∈ paths then (retrieveLines cfg (fs.linesOf path) 3).2 else fs.linesOf path) := by
  induction paths generalizing fs with
  | nil => exact ⟨rfl, rfl⟩
  | cons p paths ih =>
    obtain ⟨hp, hnodup⟩ := List.nodup_cons.mp hnodup
    have hrest := ih hnodup (fs.setLines p (retrieveLines cfg (fs.linesOf p) 3).2)
    rw [linesOf_setLines] at hrest
    rw [retrieveFiles, givenFrom_append, hrest.1, hrest.2]
    by_cases heq : p = path
    · subst heq
      rw [if_neg hp, if_neg hp, if_pos rfl, if_pos List.mem_cons_self, if_pos List.mem_cons_self,
        givenFrom_map_self, List.append_nil]
      exact ⟨rfl, rfl⟩
    · have hmem : path ∈ p :: paths ↔ path ∈ paths := by simp [Ne.symm heq]
      rw [if_neg heq, givenFrom_map_of_ne heq, List.nil_append]
      simp only [hmem]
      exact ⟨trivial, trivial⟩

/-- Each file is there once, where the events are looked for. -/
structure Kept (cfg : Config) (fs : FileSystem) : Prop where
  nodup : fs.files.keys.Nodup
  event : ∀ path ∈ fs.files.keys, isEventFile cfg path = true

theorem kept_empty : Kept cfg .empty := ⟨List.nodup_nil, by simp [FileSystem.empty, Dict.keys]⟩

theorem Kept.setLines (h : Kept cfg fs) (hpath : isEventFile cfg path = true)
    (lines : List Triple) : Kept cfg (fs.setLines path lines) := by
  refine ⟨?_, fun p hp => ?_⟩
  · change (Dict.set fs.files path lines).keys.Nodup
    cases hget : Dict.get? fs.files path with
    | none =>
      rw [Dict.keys_set_of_get?_eq_none hget]
      have hnot := (Dict.get?_eq_none_iff _ _).mp hget
      exact List.concat_eq_append ▸ h.nodup.concat hnot
    | some v =>
      rw [← Dict.update_of_get?_eq_some hget (fun _ => lines), Dict.keys_update]
      exact h.nodup
  · rcases (Dict.mem_keys_set _ _ _ _).mp hp with rfl | hp
    · exact hpath
    · exact h.event p hp

/-- The file of an object is found by a collection. -/
theorem isEventFile_of_eventPath? {o : CimObject} (h : eventPath? cfg o = some path) :
    isEventFile cfg path = true := by
  obtain ⟨d, -, rfl⟩ := Option.map_eq_some_iff.mp h
  rw [isEventFile, Bool.and_eq_true, List.isPrefixOf_iff_prefix, List.isSuffixOf_iff_suffix]
  constructor
  · rw [Config.eventsDirectory, List.append_assoc (cfg.tmpDir ++ _)]
    exact List.prefix_append _ _
  · rw [eventFileName, ← List.cons_append, ← List.append_assoc]
    exact List.suffix_append _ _

theorem Kept.addEventToObject (h : Kept cfg fs) (o : CimObject) (t : Triple) :
    Kept cfg ((addEventToObject cfg o t).run fs).2 := by
  obtain ⟨fs', hfiles, hrun⟩ := run_monikerToEventFile cfg o fs
  have hfs' : Kept cfg fs' := ⟨hfiles ▸ h.nodup, hfiles ▸ h.event⟩
  cases hp : eventPath? cfg o with
  | none =>
    rw [hp] at hrun
    rw [Events.addEventToObject, Py.run_bind_of_error hrun]
    exact hfs'
  | some p =>
    rw [hp] at hrun
    rw [Events.addEventToObject, Py.run_bind_of_ok hrun]
    exact hfs'.setLines (isEventFile_of_eventPath? hp) _

theorem Kept.dataStore (h : Kept cfg fs) (t : Triple) :
    Kept cfg ((dataStore cfg t).run fs).2 := by
  have hsubj := h.addEventToObject t.subject t
  rw [Events.dataStore, Py.run_bind]
  rcases hrun : (Events.addEventToObject cfg t.subject t).run fs with ⟨_ | _, fs'⟩
  · rw [hrun] at hsubj
    exact hsubj
  · rw [hrun] at hsubj
    cases hobj : t.object with
    | object o => exact hsubj.addEventToObject o t
    | literal _ => exact hsubj

theorem Kept.dataStoreList (h : Kept cfg fs) (ts : List Triple) :
    Kept cfg ((dataStoreList cfg ts).run fs).2 := by
  induction ts generalizing fs with
  | nil => exact h
  | cons t ts ih =>
    have hstep : (Py.catching (fun _ => true) (Events.dataStore cfg t) (pure ())).run fs =
        (.ok (), ((Events.dataStore cfg t).run fs).2) := by
      simp only [Py.catching]
      rcases (Events.dataStore cfg t).run fs with ⟨_ | ⟨⟨⟩⟩, fs'⟩ <;> rfl
    rw [Events.dataStoreList, Py.run_each_cons, hstep]
    exact ih (h.dataStore t)

theorem Kept.retrieveFiles {paths : List Text} (h : Kept cfg fs)
    (hpaths : ∀ p ∈ paths, isEventFile cfg p = true) :
    Kept cfg (retrieveFiles cfg paths fs).2 := by
  induction paths generalizing fs with
  | nil => exact h
  | cons p paths ih =>
    exact ih (h.setLines (hpaths p List.mem_cons_self) _)
      fun p' hp' => hpaths p' (List.mem_cons_of_mem p hp')

theorem mem_walk (h : Kept cfg fs) :
    path ∈ walk.order (fs.files.keys.filter (isEventFile cfg)) ↔ path ∈ fs.files.keys := by
  rw [(walk.perm _).mem_iff, List.mem_filter]
  exact ⟨fun h' => h'.1, fun h' => ⟨h', h.event path h'⟩⟩

theorem Kept.exec (h : Kept cfg fs) (walk : Walk) (op : Op) : Kept cfg (exec cfg walk op fs).2 := by
  cases op with
  | store ts => exact h.dataStoreList ts
  | retrieveAll =>
    exact h.retrieveFiles fun p hp => h.event p ((mem_walk h).mp hp)

theorem Kept.runOps (h : Kept cfg fs) (walk : Walk) (ops : List Op) :
    Kept cfg (runOps cfg walk ops fs).2 := by
  induction ops generalizing fs with
  | nil => exact h
  | cons op ops ih => exact ih (h.exec walk op)

/-- What is given by a file in a collection, and what is left. -/
theorem dataRetrieveAll_eq (walk : Walk) (path : Text) (h : Kept cfg fs) :
    givenFrom path (dataRetrieveAll cfg walk fs).1 = (retrieveLines cfg (fs.linesOf path) 3).1 ∧
      (dataRetrieveAll cfg walk fs).2.linesOf path =
        (retrieveLines cfg (fs.linesOf path) 3).2 := by
  have hnodup : (walk.order (fs.files.keys.filter (isEventFile cfg))).Nodup :=
    (walk.perm _).nodup_iff.mpr (h.nodup.filter _)
  obtain ⟨hgiven, hleft⟩ := retrieveFiles_eq cfg path hnodup fs
  rw [dataRetrieveAll, hgiven, hleft]
  simp only [mem_walk h]
  by_cases hmem : path ∈ fs.files.keys
  · rw [if_pos hmem, if_pos hmem]
    exact ⟨rfl, rfl⟩
  · have hlines : fs.linesOf path = [] := by
      rw [FileSystem.linesOf, (Dict.get?_eq_none_iff _ _).mpr hmem, Option.getD_none]
    rw [if_neg hmem, if_neg hmem, hlines]
    exact ⟨rfl, rfl⟩

end

/-! ## Runs of readable events -/

section
variable {cfg : Config} {walk : Walk} {fs : FileSystem} {path : Text}

/-- The lines of the files can be read. -/
def ReadableFiles (cfg : Config) (fs : FileSystem) : Prop :=
  ∀ path, ∀ t ∈ fs.linesOf path, (tripleJsonToRdf? cfg t).isSome

theorem mem_linesFor {t t' : Triple} (h : t' ∈ linesFor cfg path t) :
    t' = t ∧ (entityIds? cfg t.subject).isSome := by
  have hone (p : Prop) [Decidable p] (h : t' ∈ if p then [t] else []) : t' = t := by
    split at h
    · exact List.mem_singleton.mp h
    · cases h
  rw [linesFor, eventPath?] at h
  cases hids : entityIds? cfg t.subject with
  | none => simp [hids] at h
  | some d =>
    refine ⟨?_, rfl⟩
    rw [hids, Option.map_some] at h
    rcases List.mem_append.mp h with h | h
    · exact hone _ h
    · cases hobj : t.object with
      | object o =>
        rw [hobj] at h
        exact hone _ h
      | literal _ =>
        rw [hobj] at h
        cases h

theorem ReadableFiles.dataStoreList (h : ReadableFiles cfg fs) {ts : List Triple}
    (hts : ∀ t ∈ ts, Readable cfg t) :
    ReadableFiles cfg ((dataStoreList cfg ts).run fs).2 := by
  intro p t ht
  rw [linesOf_dataStoreList] at ht
  rcases List.mem_append.mp ht with ht | ht
  · exact h p t ht
  · obtain ⟨t', ht', hmem⟩ := List.mem_flatMap.mp ht
    obtain ⟨rfl, hids⟩ := mem_linesFor hmem
    exact hts t ht' hids

/-- A file that can be read is given once, and is emptied. -/
theorem dataRetrieveAll_of_readable (walk : Walk) (h : Kept cfg fs) (hread : ReadableFiles cfg fs)
    (path : Text) :
    givenFrom path (dataRetrieveAll cfg walk fs).1 = fs.linesOf path ∧
      (dataRetrieveAll cfg walk fs).2.linesOf path = [] := by
  obtain ⟨hgiven, hleft⟩ := dataRetrieveAll_eq walk path h
  rw [hgiven, hleft, retrieveLines_of_forall (hread path)]
  exact ⟨rfl, rfl⟩

/-- What was given and what is left is what was there and what was stored. -/
theorem account (walk : Walk) (ops : List Op) (h : Kept cfg fs) (hread : ReadableFiles cfg fs)
    (hops : ∀ t ∈ storedBy ops, Readable cfg t) (path : Text) :
    givenFrom path (runOps cfg walk ops fs).1 ++ (runOps cfg walk ops fs).2.linesOf path =
        fs.linesOf path ++ (storedBy ops).flatMap (linesFor cfg path) ∧
      ReadableFiles cfg (runOps cfg walk ops fs).2 := by
  induction ops generalizing fs with
  | nil => exact ⟨by simp [runOps, storedBy], hread⟩
  | cons op ops ih =>
    cases op with
    | store ts =>
      have hts : ∀ t ∈ ts, Readable cfg t := fun t ht => hops t (List.mem_append_left _ ht)
      have hrest := ih (h.exec walk (.store ts)) (hread.dataStoreList hts)
        fun t ht => hops t (List.mem_append_right _ ht)
      refine ⟨?_, hrest.2⟩
      rw [runOps, givenFrom_append, exec, givenFrom_nil, List.nil_append, storedBy,
        List.flatMap_append, ← List.append_assoc, ← linesOf_dataStoreList]
      exact hrest.1
    | retrieveAll =>
      have hempty := dataRetrieveAll_of_readable walk h hread
      have hread' : ReadableFiles cfg (dataRetrieveAll cfg walk fs).2 := by
        intro p t ht
        rw [(hempty p).2] at ht
        cases ht
      have hrest := ih (h.exec walk .retrieveAll) hread' hops
      refine ⟨?_, hrest.2⟩
      rw [runOps, givenFrom_append, exec, (hempty path).1, List.append_assoc]
      refine congrArg (fs.linesOf path ++ ·) ?_
      rw [storedBy]
      have hleft := hrest.1
      rw [exec, (hempty path).2, List.nil_append] at hleft
      exact hleft

/-- The files are visited in the order of their creation. -/
def plainWalk : Walk := ⟨id, fun _ => List.Perm.refl _⟩

/-- A file that has another one as its property. -/
def linkEvent (name name' : String) : Triple :=
  ⟨fileNamed name, "link".toList, .object (fileNamed name')⟩

/-- Two events, a collection, and a third event. -/
def linkOps : List Op :=
  [.store [linkEvent "/a" "/b", linkEvent "/b" "/a"], .retrieveAll, .store [linkEvent "/a" "/a"]]

/-- The file of the events of `/a`. -/
def fileOfA : Text := "/tmp/Events/CIM_DataFile/CIM_DataFile.Name=_a.events".toList

/-- An event whose object has no key. -/
def keylessEvent : Triple :=
  ⟨fileNamed "/a", "link".toList, .object ⟨"CIM_DataFile".toList, []⟩⟩

def keylessOps : List Op := [.store [linkEvent "/a" "/b", keylessEvent, linkEvent "/a" "/c"]]

end

end Survol.Events
