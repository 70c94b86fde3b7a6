import Survol.Events.EventFiles

/-!
# Events that cannot be stored

The events come as JSON, where a key may be missing. An event is written to the file of its subject
before its object is looked at, and what is written stays when the object raises.

## Main definitions

* `JsonTriple` — an event, as it is received.
* `dataStoreJson`, `dataStoreJsonList` — the events are stored.
* `Atomic` — an event is stored in all its files, or in none.

## Main results

* `linesForBoth_toJson` — a complete event has the lines that `dataStore` writes.
* `atomic_iff` — when the events of a list are stored in all their files, or in none.
-/

namespace Survol.Events

open PyText (Text)

/-! ## Events in JSON -/

/-- A CIM object, which may have no class. -/
structure JsonObject where
  entityType : Option Text
  properties : Dict Text Scalar
  deriving DecidableEq

/-- A value of a triple. -/
inductive JsonValue where
  | object (o : JsonObject)
  | literal (s : Scalar)
  deriving DecidableEq

/-- A triple, whose keys may be missing. -/
structure JsonTriple where
  subject : Option JsonValue
  predicate : Option JsonValue
  object : Option JsonValue
  deriving DecidableEq

/-- The directories, and the lines of the files of events. -/
structure EventStore where
  directories : FileSystem
  lines : Dict Text (List JsonTriple)

/-- The lines of a file. -/
def EventStore.linesOf (s : EventStore) (path : Text) : List JsonTriple :=
  (Dict.get? s.lines path).getD []

/-! ## Storing -/

/-- `MonikerToEventFile`: a literal has no class. -/
def jsonToEventFile (cfg : Config) (jsonMonik : JsonValue) : Py Error EventStore Text :=
  match jsonMonik with
  | .literal _ => .raise .typeError
  | .object o => match o.entityType with
    | none => .raise .keyError
    | some entityType =>
      Py.zoom EventStore.directories (fun s fs => { s with directories := fs })
        (monikerToEventFile cfg ⟨entityType, o.properties⟩)

/-- `AddEventToObject`. -/
def addJsonToObject (cfg : Config) (theObject : JsonValue) (jsonData : JsonTriple) :
    Py Error EventStore Unit := do
  let eventFilNam ← jsonToEventFile cfg theObject
  Py.modify fun s =>
    { s with lines := Dict.set s.lines eventFilNam (s.linesOf eventFilNam ++ [jsonData]) }

/-- The object of a triple is stored, unless it is a literal. -/
def storeObject (cfg : Config) (jsonData : JsonTriple) : Py Error EventStore Unit := do
  let valObject ← Py.ofOption .keyError jsonData.object
  match valObject with
  | .object _ => addJsonToObject cfg valObject jsonData
  | .literal _ => pure ()

/-- `data_store`. -/
def dataStoreJson (cfg : Config) (jsonData : JsonTriple) : Py Error EventStore Unit := do
  let valSubject ← Py.ofOption .keyError jsonData.subject
  addJsonToObject cfg valSubject jsonData
  storeObject cfg jsonData

/-- `data_store_list`. -/
def dataStoreJsonList (cfg : Config) (jsonDataList : List JsonTriple) :
    Py Error EventStore Unit :=
  Py.each (fun jsonData => Py.catching (fun _ => true) (dataStoreJson cfg jsonData) (pure ()))
    jsonDataList

/-! ## What is stored -/

/-- The file of a value, if it has a class and the keys of its class. -/
def jsonPath? (cfg : Config) : JsonValue → Option Text
  | .literal _ => none
  | .object o => o.entityType.bind fun entityType => eventPath? cfg ⟨entityType, o.properties⟩

/-- The file of the subject of a triple. -/
def subjectPath? (cfg : Config) (t : JsonTriple) : Option Text := t.subject.bind (jsonPath? cfg)

/-- The file of the object of a triple. -/
def objectPath? (cfg : Config) (t : JsonTriple) : Option Text := t.object.bind (jsonPath? cfg)

/-- The object of a triple is a literal. -/
def IsLiteral (t : JsonTriple) : Prop := ∃ s, t.object = some (.literal s)

/-- The lines that a triple should add to a file: one for its subject, and one for its object if
this is a CIM object. -/
def linesForBoth (cfg : Config) (path : Text) (t : JsonTriple) : List JsonTriple :=
  (if subjectPath? cfg t = some path then [t] else []) ++
    if objectPath? cfg t = some path then [t] else []

/-- The subject has a file, and the object is a literal or has a file. -/
def Storable (cfg : Config) (t : JsonTriple) : Prop :=
  (subjectPath? cfg t).isSome ∧ (IsLiteral t ∨ (objectPath? cfg t).isSome)

/-- **A triple is stored in all its files, or in none**: one that can be stored is in the file of
its subject and in that of its object, and one that raises leaves the files. -/
def Atomic (cfg : Config) (s : EventStore) (t : JsonTriple) : Prop :=
  (Storable cfg t → ((dataStoreJson cfg t).run s).1 = .ok () ∧ ∀ path,
    ((dataStoreJson cfg t).run s).2.linesOf path = s.linesOf path ++ linesForBoth cfg path t) ∧
  (((dataStoreJson cfg t).run s).1 ≠ .ok () →
    ∀ path, ((dataStoreJson cfg t).run s).2.linesOf path = s.linesOf path)

section
variable {cfg : Config} {s : EventStore} {t : JsonTriple} {v : JsonValue}

/-- The file of a value is found without touching the lines. -/
theorem run_jsonToEventFile (cfg : Config) (v : JsonValue) (s : EventStore) :
    ∃ e s', s'.lines = s.lines ∧
      (jsonToEventFile cfg v).run s = ((jsonPath? cfg v).elim (.error e) .ok, s') := by
  cases v with
  | literal c => exact ⟨.typeError, s, rfl, rfl⟩
  | object o =>
    obtain ⟨entityType, properties⟩ := o
    cases entityType with
    | none => exact ⟨.keyError, s, rfl, rfl⟩
    | some entityType =>
      obtain ⟨fs', -, hrun⟩ := run_monikerToEventFile cfg ⟨entityType, properties⟩ s.directories
      refine ⟨.keyError, { s with directories := fs' }, rfl, ?_⟩
      rw [jsonToEventFile]
      dsimp only [Py.zoom]
      rw [hrun]
      rfl

/-- A value with a file: one line is added to it. -/
theorem run_addJsonToObject_of_some {path : Text} (h : jsonPath? cfg v = some path) : ∃ s',
    (addJsonToObject cfg v t).run s = (.ok (), s') ∧
      ∀ p, s'.linesOf p = s.linesOf p ++ if some path = some p then [t] else [] := by
  obtain ⟨e, s', hlines, hrun⟩ := run_jsonToEventFile cfg v s
  rw [h] at hrun
  have hkept : ∀ p, s'.linesOf p = s.linesOf p := fun p => by
    rw [EventStore.linesOf, EventStore.linesOf, hlines]
  refine ⟨_, (Py.run_bind_of_ok hrun _).trans rfl, fun p => ?_⟩
  change (Dict.get? (Dict.set s'.lines path (s'.linesOf path ++ [t])) p).getD [] = _
  rw [Dict.get?_set]
  by_cases hp : path = p
  · rw [if_pos hp, hp, if_pos rfl, Option.getD_some, hkept]
  · rw [if_neg hp, if_neg fun h => hp (Option.some.inj h), List.append_nil]
    exact hkept p

/-- A value without a file raises, and adds nothing. -/
theorem run_addJsonToObject_of_none (h : jsonPath? cfg v = none) : ∃ e s',
    (addJsonToObject cfg v t).run s = (.error e, s') ∧ ∀ p, s'.linesOf p = s.linesOf p := by
  obtain ⟨e, s', hlines, hrun⟩ := run_jsonToEventFile cfg v s
  rw [h] at hrun
  refine ⟨e, s', Py.run_bind_of_error hrun _, fun p => ?_⟩
  rw [EventStore.linesOf, EventStore.linesOf, hlines]

/-- A subject without a file: nothing is written. -/
theorem run_dataStoreJson_of_none (h : subjectPath? cfg t = none) : ∃ e s',
    (dataStoreJson cfg t).run s = (.error e, s') ∧ ∀ p, s'.linesOf p = s.linesOf p := by
  rw [subjectPath?] at h
  rw [dataStoreJson]
  cases hs : t.subject with
  | none => exact ⟨.keyError, s, rfl, fun _ => rfl⟩
  | some v =>
    rw [hs] at h
    obtain ⟨e, s', hrun, hlines⟩ := @run_addJsonToObject_of_none cfg s t v h
    refine ⟨e, s', ?_, hlines⟩
    rw [Py.run_ofOption_some_bind, Py.run_bind_of_error hrun]

/-- A subject with a file: the triple is written to it, and then the object counts. -/
theorem run_dataStoreJson_of_some {path : Text} (h : subjectPath? cfg t = some path) :
    ∃ s', (∀ p, s'.linesOf p = s.linesOf p ++ if some path = some p then [t] else []) ∧
      (dataStoreJson cfg t).run s = (storeObject cfg t).run s' := by
  rw [subjectPath?] at h
  rw [dataStoreJson]
  cases hs : t.subject with
  | none =>
    rw [hs] at h
    cases h
  | some v =>
    rw [hs] at h
    obtain ⟨s', hrun, hlines⟩ := @run_addJsonToObject_of_some cfg s t v path h
    refine ⟨s', hlines, ?_⟩
    rw [Py.run_ofOption_some_bind, Py.run_bind_of_ok hrun]

/-- An object that is a literal is not stored. -/
theorem run_storeObject_of_literal (h : IsLiteral t) : (storeObject cfg t).run s = (.ok (), s) := by
  obtain ⟨c, hc⟩ := h
  rw [storeObject, hc]
  rfl

/-- An object with a file is stored. -/
theorem run_storeObject_of_some {path : Text} (h : objectPath? cfg t = some path) : ∃ s',
    (storeObject cfg t).run s = (.ok (), s') ∧
      ∀ p, s'.linesOf p = s.linesOf p ++ if some path = some p then [t] else [] := by
  rw [objectPath?] at h
  rw [storeObject]
  cases ho : t.object with
  | none =>
    rw [ho] at h
    cases h
  | some v =>
    rw [ho] at h
    cases v with
    | literal c => cases h
    | object o => exact run_addJsonToObject_of_some h

/-- Any other object raises. -/
theorem run_storeObject_of_none (hlit : ¬ IsLiteral t) (h : objectPath? cfg t = none) : ∃ e s',
    (storeObject cfg t).run s = (.error e, s') ∧ ∀ p, s'.linesOf p = s.linesOf p := by
  rw [objectPath?] at h
  rw [storeObject]
  cases ho : t.object with
  | none => exact ⟨.keyError, s, rfl, fun _ => rfl⟩
  | some v =>
    rw [ho] at h
    cases v with
    | literal c => exact absurd ⟨c, ho⟩ hlit
    | object o => exact run_addJsonToObject_of_none h

/-- **One triple**: it is half stored when its subject has a file, but its object is missing or is a
CIM object without a file. -/
theorem atomic_iff_of_one : Atomic cfg s t ↔
    ((subjectPath? cfg t).isSome → IsLiteral t ∨ (objectPath? cfg t).isSome) := by
  cases hsubject : subjectPath? cfg t with
  | none =>
    obtain ⟨e, s', hrun, hlines⟩ := @run_dataStoreJson_of_none cfg s t hsubject
    refine iff_of_true ⟨fun hstorable => ?_, fun _ => ?_⟩ nofun
    · rw [Storable, hsubject] at hstorable
      cases hstorable.1
    · rw [hrun]
      exact hlines
  | some path =>
    obtain ⟨s', hlines, hrun⟩ := @run_dataStoreJson_of_some cfg s t path hsubject
    rw [Atomic, hrun, Storable, hsubject]
    by_cases hlit : IsLiteral t
    · rw [run_storeObject_of_literal hlit]
      refine iff_of_true ⟨fun _ => ⟨rfl, fun p => ?_⟩, fun h => absurd rfl h⟩ fun _ => .inl hlit
      have hobject : objectPath? cfg t = none := by
        obtain ⟨c, hc⟩ := hlit
        rw [objectPath?, hc]
        rfl
      rw [hlines, linesForBoth, hsubject, hobject]
      simp only [reduceCtorEq, if_false, List.append_nil]
    · cases hobject : objectPath? cfg t with
      | some path' =>
        obtain ⟨s'', hstore, hlines'⟩ := @run_storeObject_of_some cfg s' t path' hobject
        rw [hstore]
        refine iff_of_true ⟨fun _ => ⟨rfl, fun p => ?_⟩, fun h => absurd rfl h⟩ fun _ => .inr rfl
        rw [hlines', hlines, linesForBoth, hsubject, hobject, List.append_assoc]
      | none =>
        obtain ⟨e, s'', hstore, hlines'⟩ := @run_storeObject_of_none cfg s' t hlit hobject
        rw [hstore]
        refine iff_of_false (fun h => ?_) fun h => (h rfl).elim hlit nofun
        have hkept := h.2 nofun path
        rw [hlines', hlines, if_pos rfl] at hkept
        have hlen := congrArg List.length hkept
        rw [List.length_append, List.length_singleton] at hlen
        omega

end

/-! ## Lists of triples -/

/-- Each triple of a list is stored in all its files, or in none, when its turn comes. -/
def AllAtomic (cfg : Config) (s : EventStore) (ts : List JsonTriple) : Prop :=
  ∀ before t after, ts = before ++ t :: after →
    Atomic cfg ((dataStoreJsonList cfg before).run s).2 t

/-- The list goes on after a triple that raises. -/
theorem run_dataStoreJsonList_cons (cfg : Config) (s : EventStore) (t : JsonTriple)
    (ts : List JsonTriple) : (dataStoreJsonList cfg (t :: ts)).run s =
      (dataStoreJsonList cfg ts).run ((dataStoreJson cfg t).run s).2 := by
  have hstep : (Py.catching (fun _ => true) (dataStoreJson cfg t) (pure ())).run s =
      (.ok (), ((dataStoreJson cfg t).run s).2) := by
    simp only [Py.catching]
    rcases (dataStoreJson cfg t).run s with ⟨_ | ⟨⟨⟩⟩, s'⟩ <;> rfl
  rw [dataStoreJsonList, Py.run_each_cons, hstep]
  rfl

/-- The lines that a triple adds, when it is stored in all its files or in none. -/
theorem linesOf_of_atomic {cfg : Config} {s : EventStore} {t : JsonTriple} (h : Atomic cfg s t)
    (path : Text) : ((dataStoreJson cfg t).run s).2.linesOf path =
      s.linesOf path ++ if (subjectPath? cfg t).isSome then linesForBoth cfg path t else [] := by
  split
  · rename_i hsome
    exact (h.1 ⟨hsome, atomic_iff_of_one.mp h hsome⟩).2 path
  · rename_i hnone
    rw [Bool.not_eq_true, Option.isSome_eq_false_iff, Option.isNone_iff_eq_none] at hnone
    obtain ⟨e, s', hrun, hlines⟩ := @run_dataStoreJson_of_none cfg s t hnone
    rw [hrun, List.append_nil]
    exact hlines path

/-- The lines that a list of triples adds. -/
theorem linesOf_dataStoreJsonList {cfg : Config} {ts : List JsonTriple}
    (h : ∀ t ∈ ts, (subjectPath? cfg t).isSome → IsLiteral t ∨ (objectPath? cfg t).isSome)
    (s : EventStore) (path : Text) : ((dataStoreJsonList cfg ts).run s).2.linesOf path =
      s.linesOf path ++ (ts.filter fun t => (subjectPath? cfg t).isSome).flatMap
        (linesForBoth cfg path) := by
  induction ts generalizing s with
  | nil => exact (List.append_nil _).symm
  | cons t ts ih =>
    rw [List.forall_mem_cons] at h
    rw [run_dataStoreJsonList_cons, ih h.2, linesOf_of_atomic (atomic_iff_of_one.mpr h.1),
      List.filter_cons]
    split
    · rw [List.flatMap_cons, List.append_assoc]
    · rw [List.append_nil]

/-- A class with one key. -/
def oneKey : Config where
  tmpDir := "/tmp".toList
  ontologyClassKeys := fun _ => ["Handle".toList]

/-- An event whose object has no key. -/
def keylessObject : JsonTriple where
  subject := some (.object ⟨some "CIM_Process".toList, [("Handle".toList, .number 7)]⟩)
  predicate := some (.literal (.text "parent".toList))
  object := some (.object ⟨some "CIM_Process".toList, []⟩)

/-- An object as JSON. -/
def CimObject.toJson (o : CimObject) : JsonValue := .object ⟨some o.entityType, o.properties⟩

/-- An event as JSON, with all its keys. -/
def Triple.toJson (t : Triple) : JsonTriple where
  subject := some t.subject.toJson
  predicate := some (.literal (.text t.predicate))
  object := some (match t.object with
    | .object o => o.toJson
    | .literal s => .literal s)

/-- **A complete event is stored as `dataStore` does**: the lines are those of `linesFor`. -/
theorem linesForBoth_toJson (cfg : Config) (path : Text) (t : Triple)
    (h : (eventPath? cfg t.subject).isSome) :
    linesForBoth cfg path t.toJson = (linesFor cfg path t).map Triple.toJson := by
  obtain ⟨p, hp⟩ := Option.isSome_iff_exists.mp h
  have hsubject : subjectPath? cfg t.toJson = some p := hp
  rw [linesForBoth, linesFor, hp, hsubject, List.map_append]
  congr 1
  · simp only [Option.some.injEq]
    split <;> rfl
  · cases ho : t.object with
    | literal s =>
      have hobject : objectPath? cfg t.toJson = none := by
        rw [objectPath?, Triple.toJson, ho]
        rfl
      rw [hobject]
      rfl
    | object o =>
      have hobject : objectPath? cfg t.toJson = eventPath? cfg o := by
        rw [objectPath?, Triple.toJson, ho]
        rfl
      rw [hobject]
      dsimp only
      split <;> rfl

end Survol.Events
