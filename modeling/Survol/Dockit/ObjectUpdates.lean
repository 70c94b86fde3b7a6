import Survol.Dockit.Objects
import Survol.Dockit.UpdateQueue

/-!
# The updates of the objects

Each assignment of an attribute that a server can show is sent to it as a triple: the keys of the
object, the attribute, and the value, or the keys of the object that is the value. A receiver that
keeps the last triple of each object and attribute has the attributes of all objects.

## Main definitions

* `Value`, `Instance`, `Session` — the objects with their attributes, and the triples that are sent.
* `setAttr`, `sendUpdateToServer`, `createObjectPath` — what assigns and creates.
* `mirror` — what a receiver keeps of the triples.
* `Mirrors` — the receiver has the attributes of the objects, and nothing else.

## Main results

* `mirrors_of_run` — after any creations and assignments, no exception was raised and the receiver
  has the attributes.
* `server_mirrors` — so has the server, when the queue of the updates is empty.
-/

open PyText

namespace Survol.Dockit.CIMXmlMarshaller

/-- The classes of the objects that are identified by the arguments of their constructor. -/
inductive CIMClass where
  | computerSystem
  | operatingSystem
  | networkAdapter
  | process
  | dataFile
  deriving DecidableEq

/-- `__name__` -/
def CIMClass.name : CIMClass → Text
  | .computerSystem => "CIM_ComputerSystem".toList
  | .operatingSystem => "CIM_OperatingSystem".toList
  | .networkAdapter => "CIM_NetworkAdapter".toList
  | .process => "CIM_Process".toList
  | .dataFile => "CIM_DataFile".toList

/-- `m_Ontology` -/
def CIMClass.ontology : CIMClass → List Text
  | .computerSystem => ["Name".toList]
  | .operatingSystem => []
  | .networkAdapter => ["Name".toList]
  | .process => ["Handle".toList]
  | .dataFile => ["Name".toList]

variable {δ : Type} [DecidableEq δ]

/-- The value of an attribute: `None`, a number, a text or the like, or an object, by its rank. -/
inductive Value (δ : Type) where
  | none
  | data (d : δ)
  | object (o : ℕ)
  deriving DecidableEq

/-- An object, with its `__dict__`. -/
structure Instance (δ : Type) where
  cls : CIMClass
  attrs : Dict Text (Value δ)

/-- What identifies an object for a server: its class, and its keys. -/
structure Moniker (δ : Type) where
  entityType : Text
  keys : List (Text × Value δ)
  deriving DecidableEq

/-- The object of a triple. -/
inductive Target (δ : Type) where
  | value (v : Value δ)
  | moniker (m : Moniker δ)

/-- What is sent to the server. -/
structure JsonTriple (δ : Type) where
  subject : Moniker δ
  predicate : Text
  object : Target δ

/-- The objects, those that are found again by their path, and what was sent. -/
structure Session (δ : Type) where
  objs : List (Instance δ)
  mapCacheObjects : Dict (CIMClass × Text) ℕ
  sent : List (JsonTriple δ)

/-- Before the first object. -/
def Session.init : Session δ := ⟨[], [], []⟩

/-- A computation on the objects. -/
abbrev SessionM (δ : Type) := Py PyExn (Session δ)

/-! ## The code -/

/-- `IsCIM`, of a value that is not callable. -/
def isCIM (attr : Text) : Bool :=
  !"__".toList.isPrefixOf attr && !"m_".toList.isPrefixOf attr

/-- The keys of an object, when it has them all. -/
def Instance.moniker? (x : Instance δ) : Option (Moniker δ) :=
  (x.cls.ontology.mapM fun k => (x.attrs.get? k).map fun v => (k, v)).map fun keys =>
    ⟨x.cls.name, keys⟩

/-- `GetMonikerSurvol` -/
def getMonikerSurvol (o : ℕ) : SessionM δ (Moniker δ) := do
  let w ← Py.get
  Py.ofOption .attributeError (w.objs[o]?.bind Instance.moniker?)

/-- `HttpUpdateRequest` -/
def httpUpdateRequest (t : JsonTriple δ) : SessionM δ Unit :=
  .modify fun w => { w with sent := w.sent ++ [t] }

/-- The first part of `SendUpdateToServer`: the old value is sent when it is an object, under the
same name as the new one. -/
def sendOldObject (theSubjMoniker : Moniker δ) (attrNam : Text) : Value δ → SessionM δ Unit
  | .object old => do
    let objMonikerOld ← getMonikerSurvol old
    httpUpdateRequest ⟨theSubjMoniker, attrNam, .moniker objMonikerOld⟩
  | _ => pure ()

/-- The second part of `SendUpdateToServer`. -/
def sendValue (theSubjMoniker : Moniker δ) (attrNam : Text) : Value δ → SessionM δ Unit
  | .object new => do
    let objMoniker ← getMonikerSurvol new
    httpUpdateRequest ⟨theSubjMoniker, attrNam, .moniker objMoniker⟩
  | v => httpUpdateRequest ⟨theSubjMoniker, attrNam, .value v⟩

/-- `SendUpdateToServer` -/
def sendUpdateToServer (o : ℕ) (attrNam : Text) (oldAttrVal attrVal : Value δ) :
    SessionM δ Unit := do
  let theSubjMoniker ← getMonikerSurvol o
  sendOldObject theSubjMoniker attrNam oldAttrVal
  sendValue theSubjMoniker attrNam attrVal

/-- The value of an attribute, `None` when it is not set. -/
def Instance.attr (x : Instance δ) (attrNam : Text) : Value δ := (x.attrs.get? attrNam).getD .none

/-- The value of an attribute of the object of a rank. -/
def Session.attr (w : Session δ) (o : ℕ) (attrNam : Text) : Value δ :=
  (w.objs[o]?.map fun x => x.attr attrNam).getD .none

/-- The assignment itself. -/
def Session.assign (w : Session δ) (o : ℕ) (attrNam : Text) (attrVal : Value δ) : Session δ :=
  { w with objs := w.objs.modify o fun x => { x with attrs := x.attrs.set attrNam attrVal } }

/-- `__setattr__`, when the address of a server is given. -/
def setAttr (o : ℕ) (attrNam : Text) (attrVal : Value δ) : SessionM δ Unit := do
  let oldAttrVal := (← Py.get).attr o attrNam
  .modify fun w => w.assign o attrNam attrVal
  if oldAttrVal ≠ attrVal then
    if isCIM attrNam then sendUpdateToServer o attrNam oldAttrVal attrVal else pure ()
  else pure ()

/-- How a value is printed, and the lower case of a host name. -/
structure Texts (δ : Type) where
  str : δ → Text
  lower : δ → δ

/-- The arguments as the constructor keeps them: the name of a computer is in lower case. -/
def CIMClass.stored (T : Texts δ) : CIMClass → List δ → List δ
  | .computerSystem, args => args.map T.lower
  | _, args => args

/-- `CreateMonikerKey`, where `str` gives the text of a value. -/
def createMonikerKey (str : δ → Text) (cls : CIMClass) (args : List δ) : Text :=
  cls.name ++ '.' :: List.intercalate [',']
    (List.zipWith (fun k v => k ++ "=\"".toList ++ str v ++ ['"']) cls.ontology args)

/-- `CreateObjectPath`, up to the assignments of the keys, with which each constructor begins. The
object is found again by its arguments, not by the keys that the constructor keeps. -/
def createObjectPath (T : Texts δ) (cls : CIMClass) (args : List δ) : SessionM δ Unit := do
  let w ← Py.get
  let objPath := createMonikerKey T.str cls args
  match w.mapCacheObjects.get? (cls, objPath) with
  | some _ => pure ()
  | none =>
    .modify fun w => { w with objs := w.objs ++ [⟨cls, []⟩] }
    Py.each (fun kv => setAttr w.objs.length kv.1 (.data kv.2)) (cls.ontology.zip (cls.stored T args))
    .modify fun v => { v with
      mapCacheObjects := v.mapCacheObjects.set (cls, objPath) w.objs.length }

/-- What a program does with the objects. -/
inductive Op (δ : Type) where
  | create (cls : CIMClass) (args : List δ)
  | assign (o : ℕ) (attrNam : Text) (attrVal : Value δ)

/-- A creation or an assignment. -/
def exec (T : Texts δ) : Op δ → SessionM δ Unit
  | .create cls args => createObjectPath T cls args
  | .assign o attrNam attrVal => setAttr o attrNam attrVal

/-! ## The receiver -/

/-- The last object of each subject and predicate. -/
def mirror (ts : List (JsonTriple δ)) : Dict (Moniker δ × Text) (Target δ) :=
  ts.foldl (fun d t => d.set (t.subject, t.predicate) t.object) []

/-- How a value is seen by a server. -/
def Session.shown (w : Session δ) : Value δ → Target δ
  | .object o => (w.objs[o]?.bind Instance.moniker?).elim (.value (.object o)) .moniker
  | v => .value v

/-- The receiver has the values of the attributes of the objects, and no other triple; an attribute
that was never set is `None`. -/
structure Mirrors (w : Session δ) (d : Dict (Moniker δ × Text) (Target δ)) : Prop where
  attr : ∀ (o : ℕ) (x : Instance δ) (m : Moniker δ), w.objs[o]? = some x → x.moniker? = some m →
    ∀ attrNam, isCIM attrNam = true →
      (d.get? (m, attrNam)).getD (.value .none) = w.shown (x.attr attrNam)
  subject : ∀ m attrNam, (m, attrNam) ∈ Dict.keys d → isCIM attrNam = true ∧
    ∃ (o : ℕ) (x : Instance δ), w.objs[o]? = some x ∧ x.moniker? = some m

/-- The creation has the arguments that the constructor takes; when it makes a new computer, no
other one has its name in lower case. The assignment is to an object that
was created, it is not to one of its keys, and its value, if it is an object, was created. -/
def Op.Fits (T : Texts δ) (w : Session δ) : Op δ → Prop
  | .create cls args => args.length = cls.ontology.length ∧ (cls = .computerSystem →
      w.mapCacheObjects.get? (cls, createMonikerKey T.str cls args) = none →
      ∀ (o : ℕ) (x : Instance δ), w.objs[o]? = some x →
        x.moniker? ≠ some ⟨cls.name, (cls.ontology.zip (cls.stored T args)).map
          fun kv => (kv.1, .data kv.2)⟩)
  | .assign o attrNam attrVal =>
    (∃ x : Instance δ, w.objs[o]? = some x ∧ attrNam ∉ x.cls.ontology) ∧
      ∀ q, attrVal = .object q → q < w.objs.length

/-- Each operation fits when it is done. -/
def FitsRun (T : Texts δ) : Session δ → List (Op δ) → Prop
  | _, [] => True
  | w, op :: ops => op.Fits T w ∧ FitsRun T ((exec T op).run w).2 ops

/-! ## Monikers -/

/-- The keys that a constructor assigns. -/
def CIMClass.keys (cls : CIMClass) (args : List δ) : Dict Text (Value δ) :=
  (cls.ontology.zip args).map fun kv => (kv.1, .data kv.2)

/-- The moniker of an object that is created with some arguments. -/
def CIMClass.moniker (cls : CIMClass) (args : List δ) : Moniker δ := ⟨cls.name, cls.keys args⟩

theorem name_injective {c c' : CIMClass} (h : c.name = c'.name) : c = c' := by
  revert h
  cases c <;> cases c' <;> decide

/-- A class has one key at most. -/
theorem ontology_cases (cls : CIMClass) :
    cls.ontology = [] ∨ ∃ k, cls.ontology = [k] ∧ isCIM k = true := by
  cases cls with
  | computerSystem => exact .inr ⟨_, rfl, by decide⟩
  | operatingSystem => exact .inl rfl
  | networkAdapter => exact .inr ⟨_, rfl, by decide⟩
  | process => exact .inr ⟨_, rfl, by decide⟩
  | dataFile => exact .inr ⟨_, rfl, by decide⟩

omit [DecidableEq δ] in
theorem args_of_moniker_eq {cls cls' : CIMClass} {args args' : List δ}
    (hlen : args.length = cls.ontology.length) (hlen' : args'.length = cls'.ontology.length)
    (h : cls.moniker args = cls'.moniker args') : cls = cls' ∧ args = args' := by
  have hname : cls.name = cls'.name := congrArg Moniker.entityType h
  have hcls := name_injective hname
  subst hcls
  refine ⟨rfl, ?_⟩
  have hkeys : cls.keys args = cls.keys args' := congrArg Moniker.keys h
  rw [CIMClass.keys, CIMClass.keys] at hkeys
  have hzip := List.map_injective_iff.mpr (fun a b hab => by
    obtain ⟨k, d⟩ := a
    obtain ⟨k', d'⟩ := b
    cases hab
    rfl) hkeys
  have hsnd := congrArg (List.map Prod.snd) hzip
  rwa [List.map_snd_zip (by omega), List.map_snd_zip (by omega)] at hsnd

omit [DecidableEq δ] in
/-- An assignment to another attribute leaves the moniker. -/
theorem moniker?_set {x : Instance δ} {attrNam : Text} (h : attrNam ∉ x.cls.ontology)
    (v : Value δ) :
    ({ x with attrs := x.attrs.set attrNam v } : Instance δ).moniker? = x.moniker? := by
  obtain hnil | ⟨k, hk, -⟩ := ontology_cases x.cls
  · simp [Instance.moniker?, hnil]
  · have hne : attrNam ≠ k := by
      rintro rfl
      exact h (by simp [hk])
    simp [Instance.moniker?, hk, hne]

omit [DecidableEq δ] in
theorem moniker?_new {cls : CIMClass} {args : List δ} (h : args.length = cls.ontology.length) :
    (⟨cls, cls.keys args⟩ : Instance δ).moniker? = some (cls.moniker args) := by
  obtain hnil | ⟨k, hk, -⟩ := ontology_cases cls
  · simp [Instance.moniker?, CIMClass.moniker, CIMClass.keys, hnil]
  · rw [hk] at h
    obtain ⟨d, rfl⟩ := List.length_eq_one_iff.mp h
    simp [Instance.moniker?, CIMClass.moniker, CIMClass.keys, hk, Dict.get?_cons]

omit [DecidableEq δ] in
theorem length_stored (T : Texts δ) (cls : CIMClass) (args : List δ) :
    (cls.stored T args).length = args.length := by
  cases cls <;> simp [CIMClass.stored]

/-- What holds of the objects: each has the keys of its class, and is found again by them when they
are as they were given; two objects are not taken for each other; the objects that are values were
created. -/
structure Coherent (T : Texts δ) (w : Session δ) : Prop where
  keys : ∀ (o : ℕ) (x : Instance δ), w.objs[o]? = some x → ∃ args,
    args.length = x.cls.ontology.length ∧ x.moniker? = some (x.cls.moniker args) ∧
      (x.cls ≠ .computerSystem →
        w.mapCacheObjects.get? (x.cls, createMonikerKey T.str x.cls args) = some o)
  unique : ∀ (o o' : ℕ) (x x' : Instance δ) (m : Moniker δ), w.objs[o]? = some x →
    w.objs[o']? = some x' → x.moniker? = some m → x'.moniker? = some m → o = o'
  object : ∀ (o : ℕ) (x : Instance δ), w.objs[o]? = some x → ∀ attrNam q,
    x.attr attrNam = .object q → q < w.objs.length

section
variable {T : Texts δ} {objPath : Text} {w : Session δ}

omit [DecidableEq δ] in
theorem Coherent.exists_moniker (h : Coherent T w) {o : ℕ} (ho : o < w.objs.length) :
    ∃ m, w.objs[o]?.bind Instance.moniker? = some m := by
  obtain ⟨args, -, hmon, -⟩ := h.keys o w.objs[o] (List.getElem?_eq_getElem ho)
  exact ⟨_, by rw [List.getElem?_eq_getElem ho, Option.bind_some, hmon]⟩

/-! ## Assignments -/

omit [DecidableEq δ] in
theorem getElem?_assign (w : Session δ) (o : ℕ) (attrNam : Text) (v : Value δ) (j : ℕ) :
    (w.assign o attrNam v).objs[j]? = if o = j then
      w.objs[j]?.map fun x => { x with attrs := x.attrs.set attrNam v } else w.objs[j]? := by
  rw [Session.assign, List.getElem?_modify]
  split
  · rfl
  · exact Option.map_id'

omit [DecidableEq δ] in
/-- The monikers are not changed. -/
theorem bind_moniker?_assign {o : ℕ} {attrNam : Text} {x : Instance δ} (hx : w.objs[o]? = some x)
    (hattr : attrNam ∉ x.cls.ontology) (v : Value δ) (j : ℕ) :
    (w.assign o attrNam v).objs[j]?.bind Instance.moniker? = w.objs[j]?.bind Instance.moniker? := by
  rw [getElem?_assign]
  split
  · rename_i hj
    subst hj
    rw [hx, Option.map_some, Option.bind_some, Option.bind_some]
    exact moniker?_set hattr v
  · rfl

omit [DecidableEq δ] in
theorem shown_congr {w' : Session δ}
    (h : ∀ j : ℕ, w'.objs[j]?.bind Instance.moniker? = w.objs[j]?.bind Instance.moniker?)
    (v : Value δ) : w'.shown v = w.shown v := by
  cases v with
  | none => rfl
  | data d => rfl
  | object q => rw [Session.shown, Session.shown, h]

omit [DecidableEq δ] in
theorem attr_set (x : Instance δ) (attrNam : Text) (v : Value δ) (a : Text) :
    ({ x with attrs := x.attrs.set attrNam v } : Instance δ).attr a =
      if attrNam = a then v else x.attr a := by
  rw [Instance.attr, Dict.get?_set]
  split <;> rfl

omit [DecidableEq δ] in
/-- An assignment that fits leaves the objects coherent. -/
theorem Coherent.assign (h : Coherent T w) {o : ℕ} {attrNam : Text} {x : Instance δ}
    {v : Value δ} (hx : w.objs[o]? = some x) (hattr : attrNam ∉ x.cls.ontology)
    (hv : ∀ q, v = .object q → q < w.objs.length) : Coherent T (w.assign o attrNam v) := by
  have hlen : (w.assign o attrNam v).objs.length = w.objs.length := List.length_modify _ _ _
  have hmon := bind_moniker?_assign hx hattr v
  refine ⟨?_, fun j j' y y' m hy hy' hm hm' => ?_, ?_⟩
  · intro j y hy
    rw [getElem?_assign] at hy
    split at hy
    · rename_i hj
      subst hj
      rw [hx, Option.map_some] at hy
      cases hy
      obtain ⟨args, hargs, hmon, hcache⟩ := h.keys o x hx
      exact ⟨args, hargs, (moniker?_set hattr v).trans hmon, hcache⟩
    · exact h.keys j y hy
  · have hj := hmon j
    have hj' := hmon j'
    rw [hy, Option.bind_some, hm] at hj
    rw [hy', Option.bind_some, hm'] at hj'
    obtain ⟨z, hz, hzm⟩ := Option.bind_eq_some_iff.mp hj.symm
    obtain ⟨z', hz', hzm'⟩ := Option.bind_eq_some_iff.mp hj'.symm
    exact h.unique j j' z z' m hz hz' hzm hzm'
  · intro j y hy a q hq
    rw [hlen]
    rw [getElem?_assign] at hy
    split at hy
    · rename_i hj
      subst hj
      rw [hx, Option.map_some] at hy
      cases hy
      rw [attr_set] at hq
      split at hq
      · exact hv q hq
      · exact h.object o x hx a q hq
    · exact h.object j y hy a q hq

omit [DecidableEq δ] in
theorem run_getMonikerSurvol {o : ℕ} {m : Moniker δ}
    (h : w.objs[o]?.bind Instance.moniker? = some m) :
    (getMonikerSurvol o : SessionM δ (Moniker δ)).run w = (.ok m, w) := by
  rw [getMonikerSurvol, Py.run_get_bind, h]
  rfl

omit [DecidableEq δ] in
theorem run_sendValue (m : Moniker δ) (attrNam : Text) {v : Value δ}
    (hv : ∀ q, v = .object q → ∃ m', w.objs[q]?.bind Instance.moniker? = some m') :
    (sendValue m attrNam v).run w =
      (.ok (), { w with sent := w.sent ++ [⟨m, attrNam, w.shown v⟩] }) := by
  cases v with
  | none => rfl
  | data d => rfl
  | object q =>
    obtain ⟨m', hq⟩ := hv q rfl
    rw [sendValue, Py.run_bind_of_ok (run_getMonikerSurvol hq), Session.shown, hq]
    rfl

omit [DecidableEq δ] in
theorem run_sendOldObject (m : Moniker δ) (attrNam : Text) {old : Value δ}
    (hold : ∀ q, old = .object q → ∃ m', w.objs[q]?.bind Instance.moniker? = some m') :
    ∃ ts : List (JsonTriple δ), (∀ t ∈ ts, t.subject = m ∧ t.predicate = attrNam) ∧
      (sendOldObject m attrNam old).run w = (.ok (), { w with sent := w.sent ++ ts }) := by
  cases old with
  | none => exact ⟨[], by simp, by rw [List.append_nil]; rfl⟩
  | data d => exact ⟨[], by simp, by rw [List.append_nil]; rfl⟩
  | object q =>
    obtain ⟨m', hq⟩ := hold q rfl
    refine ⟨[⟨m, attrNam, .moniker m'⟩], by simp, ?_⟩
    rw [sendOldObject, Py.run_bind_of_ok (run_getMonikerSurvol hq)]
    rfl

omit [DecidableEq δ] in
/-- The update is sent, and the last triple of the attribute has the new value. -/
theorem run_sendUpdateToServer {o : ℕ} {m : Moniker δ} (attrNam : Text) {old v : Value δ}
    (hm : w.objs[o]?.bind Instance.moniker? = some m)
    (hold : ∀ q, old = .object q → ∃ m', w.objs[q]?.bind Instance.moniker? = some m')
    (hv : ∀ q, v = .object q → ∃ m', w.objs[q]?.bind Instance.moniker? = some m') :
    ∃ ts : List (JsonTriple δ), (∀ t ∈ ts, t.subject = m ∧ t.predicate = attrNam) ∧
      (sendUpdateToServer o attrNam old v).run w =
        (.ok (), { w with sent := w.sent ++ ts ++ [⟨m, attrNam, w.shown v⟩] }) := by
  obtain ⟨ts, hts, hrun⟩ := run_sendOldObject m attrNam hold
  refine ⟨ts, hts, ?_⟩
  rw [sendUpdateToServer, Py.run_bind_of_ok (run_getMonikerSurvol hm), Py.run_bind_of_ok hrun]
  exact run_sendValue m attrNam hv

/-! ## What a receiver keeps -/

theorem mirror_concat (ts : List (JsonTriple δ)) (t : JsonTriple δ) :
    mirror (ts ++ [t]) = (mirror ts).set (t.subject, t.predicate) t.object := by
  rw [mirror, List.foldl_append]
  rfl

/-- Only the last triple of an attribute is kept. -/
theorem mirror_update (ts us : List (JsonTriple δ)) {m : Moniker δ} {attrNam : Text}
    (hus : ∀ t ∈ us, t.subject = m ∧ t.predicate = attrNam) (obj : Target δ) :
    mirror (ts ++ us ++ [⟨m, attrNam, obj⟩]) = (mirror ts).set (m, attrNam) obj := by
  rw [mirror_concat]
  induction us using List.reverseRecOn generalizing obj with
  | nil => rw [List.append_nil]
  | append_singleton us t ih =>
    obtain ⟨hsubject, hpredicate⟩ := hus t (by simp)
    rw [← List.append_assoc, mirror_concat, hsubject, hpredicate, Dict.set_set]
    exact ih (fun u hu => hus u (by simp [hu])) obj

/-- An assignment of the value that is there, or to an attribute that no server is told. -/
theorem Mirrors.assign_quiet {d : Dict (Moniker δ × Text) (Target δ)} (h : Mirrors w d) {o : ℕ}
    {attrNam : Text} {x : Instance δ} {v : Value δ} (hx : w.objs[o]? = some x)
    (hattr : attrNam ∉ x.cls.ontology) (hquiet : x.attr attrNam = v ∨ isCIM attrNam = false) :
    Mirrors (w.assign o attrNam v) d := by
  constructor
  · intro j y m hy hm a ha
    rw [shown_congr (bind_moniker?_assign hx hattr v)]
    rw [getElem?_assign] at hy
    split at hy
    · rename_i hj
      subst hj
      rw [hx, Option.map_some] at hy
      cases hy
      rw [moniker?_set hattr] at hm
      rw [attr_set, h.attr o x m hx hm a ha]
      split
      · rename_i heq
        subst heq
        rcases hquiet with hsame | hno
        · rw [hsame]
        · rw [hno] at ha
          cases ha
      · rfl
    · exact h.attr j y m hy hm a ha
  · intro m a hmem
    obtain ⟨ha, j, y, hy, hm⟩ := h.subject m a hmem
    have hbind := bind_moniker?_assign hx hattr v j
    rw [hy, Option.bind_some, hm] at hbind
    obtain ⟨y', hy', hm'⟩ := Option.bind_eq_some_iff.mp hbind
    exact ⟨ha, j, y', hy', hm'⟩

/-- An assignment whose triple is received. -/
theorem Mirrors.assign {d : Dict (Moniker δ × Text) (Target δ)} (h : Mirrors w d)
    (hw : Coherent T w) {o : ℕ} {attrNam : Text} {x : Instance δ} {m : Moniker δ} {v : Value δ}
    (hx : w.objs[o]? = some x) (hm : x.moniker? = some m) (hattr : attrNam ∉ x.cls.ontology)
    (hcim : isCIM attrNam = true) :
    Mirrors (w.assign o attrNam v) (d.set (m, attrNam) (w.shown v)) := by
  constructor
  · intro j y n hy hn a ha
    rw [shown_congr (bind_moniker?_assign hx hattr v), Dict.get?_set]
    rw [getElem?_assign] at hy
    split at hy
    · rename_i hj
      subst hj
      rw [hx, Option.map_some] at hy
      cases hy
      rw [moniker?_set hattr, hm] at hn
      cases hn
      rw [attr_set]
      by_cases heq : attrNam = a
      · simp [heq]
      · rw [if_neg (by simpa using heq), if_neg heq]
        exact h.attr o x m hx hm a ha
    · rename_i hj
      rw [if_neg]
      · exact h.attr j y n hy hn a ha
      · rintro ⟨⟩
        exact hj (hw.unique o j x y m hx hy hm hn)
  · intro n a hmem
    rw [Dict.mem_keys_set] at hmem
    have hkept : ∀ (j : ℕ) (y : Instance δ), w.objs[j]? = some y → y.moniker? = some n →
        ∃ (j : ℕ) (y : Instance δ), (w.assign o attrNam v).objs[j]? = some y ∧
          y.moniker? = some n := by
      intro j y hy hn
      have hbind := bind_moniker?_assign hx hattr v j
      rw [hy, Option.bind_some, hn] at hbind
      obtain ⟨y', hy', hn'⟩ := Option.bind_eq_some_iff.mp hbind
      exact ⟨j, y', hy', hn'⟩
    rcases hmem with heq | hmem
    · cases heq
      exact ⟨hcim, hkept o x hx hm⟩
    · obtain ⟨ha, j, y, hy, hn⟩ := h.subject n a hmem
      exact ⟨ha, hkept j y hy hn⟩

/-! ## Runs -/

/-- An assignment that fits raises nothing, and the receiver follows it. -/
theorem mirrors_setAttr (hw : Coherent T w) (hd : Mirrors w (mirror w.sent)) {o : ℕ}
    {attrNam : Text} {x : Instance δ} {v : Value δ} (hx : w.objs[o]? = some x)
    (hattr : attrNam ∉ x.cls.ontology) (hv : ∀ q, v = .object q → q < w.objs.length) :
    ∃ w', (setAttr o attrNam v).run w = (.ok (), w') ∧ Coherent T w' ∧
      Mirrors w' (mirror w'.sent) := by
  have hw' : Coherent T (w.assign o attrNam v) := hw.assign hx hattr hv
  have hold : w.attr o attrNam = x.attr attrNam := by rw [Session.attr, hx]; rfl
  rw [setAttr, Py.run_get_bind, Py.run_modify_bind, hold]
  by_cases hsame : x.attr attrNam = v
  · refine ⟨_, by rw [if_neg (not_not.mpr hsame)]; rfl, hw', ?_⟩
    exact hd.assign_quiet hx hattr (.inl hsame)
  cases hcim : isCIM attrNam with
  | false =>
    refine ⟨_, by rw [if_pos hsame, if_neg Bool.false_ne_true]; rfl, hw', ?_⟩
    exact hd.assign_quiet hx hattr (.inr hcim)
  | true =>
    obtain ⟨args, -, hmon, -⟩ := hw.keys o x hx
    have hsubject : (w.assign o attrNam v).objs[o]?.bind Instance.moniker? =
        some (x.cls.moniker args) := by
      rw [bind_moniker?_assign hx hattr, hx]
      exact hmon
    have hlen : (w.assign o attrNam v).objs.length = w.objs.length := List.length_modify _ _ _
    have hobject : ∀ q, q < w.objs.length →
        ∃ m', (w.assign o attrNam v).objs[q]?.bind Instance.moniker? = some m' :=
      fun q hq => hw'.exists_moniker (hlen ▸ hq)
    obtain ⟨ts, hts, hrun⟩ := run_sendUpdateToServer attrNam hsubject
      (fun q hq => hobject q (hw.object o x hx attrNam q hq)) fun q hq => hobject q (hv q hq)
    refine ⟨{ w.assign o attrNam v with
      sent := w.sent ++ ts ++ [⟨x.cls.moniker args, attrNam, (w.assign o attrNam v).shown v⟩] },
      ?_, ⟨hw'.keys, hw'.unique, hw'.object⟩, ?_⟩
    · rw [if_pos hsame, if_pos rfl, hrun]
      rfl
    have hmirror := hd.assign hw (v := v) hx hmon hattr hcim
    rw [← shown_congr (bind_moniker?_assign hx hattr v) v,
      ← mirror_update w.sent ts hts] at hmirror
    exact ⟨hmirror.attr, hmirror.subject⟩

/-- A new object, with its keys, that is found again by its path. -/
def Session.add (w : Session δ) (objPath : Text) (cls : CIMClass) (args : List δ) : Session δ where
  objs := w.objs ++ [⟨cls, cls.keys args⟩]
  mapCacheObjects := w.mapCacheObjects.set (cls, objPath) w.objs.length
  sent := w.sent ++ (cls.keys args).map fun kv => ⟨cls.moniker args, kv.1, .value kv.2⟩

/-- The keys of a new object are assigned and sent. -/
theorem run_assignKeys {cls : CIMClass} {args : List δ}
    (hargs : args.length = cls.ontology.length) :
    (Py.each (fun kv : Text × δ => setAttr w.objs.length kv.1 (.data kv.2))
        (cls.ontology.zip args)).run
        (⟨w.objs ++ [⟨cls, []⟩], w.mapCacheObjects, w.sent⟩ : Session δ) =
      (.ok (), ⟨w.objs ++ [⟨cls, cls.keys args⟩], w.mapCacheObjects,
        w.sent ++ (cls.keys args).map fun kv => ⟨cls.moniker args, kv.1, .value kv.2⟩⟩) := by
  obtain hnil | ⟨k, hk, hcim⟩ := ontology_cases cls
  · simp [hnil, CIMClass.keys]
  · rw [hk] at hargs
    obtain ⟨d, rfl⟩ := List.length_eq_one_iff.mp hargs
    have hassign : (⟨w.objs ++ [⟨cls, []⟩], w.mapCacheObjects, w.sent⟩ : Session δ).assign
        w.objs.length k (.data d) =
        ⟨w.objs ++ [⟨cls, cls.keys [d]⟩], w.mapCacheObjects, w.sent⟩ := by
      simp [Session.assign, CIMClass.keys, hk, List.modify_eq_set_getElem?, Dict.set]
    have hmon : (w.objs ++ [(⟨cls, cls.keys [d]⟩ : Instance δ)])[w.objs.length]?.bind
        Instance.moniker? = some (cls.moniker [d]) := by
      rw [List.getElem?_concat_length, Option.bind_some]
      exact moniker?_new (by simp [hk])
    have hset : (setAttr w.objs.length k (.data d)).run
        (⟨w.objs ++ [⟨cls, []⟩], w.mapCacheObjects, w.sent⟩ : Session δ) =
        (.ok (), ⟨w.objs ++ [⟨cls, cls.keys [d]⟩], w.mapCacheObjects,
          w.sent ++ [⟨cls.moniker [d], k, .value (.data d)⟩]⟩) := by
      have hattr : (⟨w.objs ++ [⟨cls, []⟩], w.mapCacheObjects, w.sent⟩ : Session δ).attr
          w.objs.length k = .none := by
        simp [Session.attr, Instance.attr]
      rw [setAttr, Py.run_get_bind, Py.run_modify_bind, hattr, hassign, if_pos (by simp),
        if_pos hcim, sendUpdateToServer]
      rw [Py.run_bind_of_ok (run_getMonikerSurvol hmon)]
      rfl
    simp only [hk, List.zip_cons_cons, List.zip_nil_right]
    rw [Py.run_each_cons, hset]
    simp [CIMClass.keys, hk]

theorem run_createObjectPath {cls : CIMClass} {args : List δ}
    (hargs : args.length = cls.ontology.length)
    (hnew : w.mapCacheObjects.get? (cls, createMonikerKey T.str cls args) = none) :
    (createObjectPath T cls args).run w =
      (.ok (), w.add (createMonikerKey T.str cls args) cls (cls.stored T args)) := by
  have hkeys := @run_assignKeys _ _ w cls (cls.stored T args) ((length_stored T cls args).trans hargs)
  rw [createObjectPath, Py.run_get_bind]
  simp only [hnew]
  rw [Py.run_modify_bind, Py.run_bind_of_ok hkeys]
  rfl

omit [DecidableEq δ] in
/-- The objects that were there before a creation. -/
theorem getElem?_add {cls : CIMClass} {args : List δ} {j : ℕ} {y : Instance δ}
    (h : (w.add objPath cls args).objs[j]? = some y) :
    w.objs[j]? = some y ∨ j = w.objs.length ∧ y = ⟨cls, cls.keys args⟩ := by
  rw [Session.add, List.getElem?_append] at h
  split at h
  · exact .inl h
  · obtain ⟨hj, hy⟩ := List.getElem?_eq_some_iff.mp h
    rw [List.length_singleton] at hj
    refine .inr ⟨by omega, ?_⟩
    rw [List.getElem_singleton] at hy
    exact hy.symm

omit [DecidableEq δ] in
theorem getElem?_add_of_some {cls : CIMClass} {args : List δ} {j : ℕ} {y : Instance δ}
    (h : w.objs[j]? = some y) : (w.add objPath cls args).objs[j]? = some y := by
  rw [Session.add, List.getElem?_append_left (List.getElem?_eq_some_iff.mp h).1, h]

omit [DecidableEq δ] in
theorem attr_new_ne_object (cls : CIMClass) (args : List δ) (attrNam : Text) (q : ℕ) :
    (⟨cls, cls.keys args⟩ : Instance δ).attr attrNam ≠ .object q := by
  intro h
  rw [Instance.attr] at h
  cases hget : (cls.keys args).get? attrNam with
  | none =>
    rw [hget] at h
    cases h
  | some v =>
    rw [hget] at h
    obtain ⟨kv, -, hkv⟩ := List.mem_map.mp (Dict.mem_of_get?_eq_some hget)
    cases hkv
    cases h

omit [DecidableEq δ] in
/-- A creation leaves the objects coherent. -/
theorem Coherent.add (h : Coherent T w) {cls : CIMClass} {args : List δ}
    (hargs : args.length = cls.ontology.length)
    (hpath : cls ≠ .computerSystem → objPath = createMonikerKey T.str cls args)
    (hnew : w.mapCacheObjects.get? (cls, objPath) = none)
    (hfresh : ∀ (o : ℕ) (x : Instance δ), w.objs[o]? = some x →
      x.moniker? ≠ some (cls.moniker args)) :
    Coherent T (w.add objPath cls args) := by
  refine ⟨?_, fun j j' y y' m hy hy' hm hm' => ?_, ?_⟩
  · intro j y hy
    rcases getElem?_add hy with hy | ⟨rfl, rfl⟩
    · obtain ⟨args', hlen, hmon, hcache⟩ := h.keys j y hy
      refine ⟨args', hlen, hmon, fun hcls => ?_⟩
      rw [Session.add, Dict.get?_set, if_neg]
      · exact hcache hcls
      · rintro heq
        rw [heq] at hnew
        rw [hnew] at hcache
        cases hcache hcls
    · refine ⟨args, hargs, moniker?_new hargs, fun hcls => ?_⟩
      rw [Session.add, Dict.get?_set, if_pos]
      rw [hpath hcls]
  · rcases getElem?_add hy with hy | ⟨rfl, rfl⟩ <;> rcases getElem?_add hy' with hy' | ⟨rfl, rfl⟩
    · exact h.unique j j' y y' m hy hy' hm hm'
    · exact absurd (hm.trans (hm'.symm.trans (moniker?_new hargs))) (hfresh j y hy)
    · exact absurd (hm'.trans (hm.symm.trans (moniker?_new hargs))) (hfresh j' y' hy')
    · rfl
  · intro j y hy a q hq
    have hlen : (w.add objPath cls args).objs.length = w.objs.length + 1 := by simp [Session.add]
    rcases getElem?_add hy with hy | ⟨-, rfl⟩
    · have := h.object j y hy a q hq
      omega
    · exact absurd hq (attr_new_ne_object cls args a q)

omit [DecidableEq δ] in
/-- An object that was there shows its attributes as before. -/
theorem Coherent.shown_add (hw : Coherent T w) {cls : CIMClass} {args : List δ} {j : ℕ}
    {y : Instance δ} (hy : w.objs[j]? = some y) (a : Text) :
    (w.add objPath cls args).shown (y.attr a) = w.shown (y.attr a) := by
  cases hv : y.attr a with
  | none => rfl
  | data d => rfl
  | object q =>
    have hq := hw.object j y hy a q hv
    rw [Session.shown, Session.shown, getElem?_add_of_some (List.getElem?_eq_getElem hq),
      List.getElem?_eq_getElem hq]

/-- The receiver has the keys of a new object. -/
theorem get?_mirror_add {cls : CIMClass} {args : List δ}
    (hargs : args.length = cls.ontology.length)
    (hnone : ∀ a, (mirror w.sent).get? (cls.moniker args, a) = none) (n : Moniker δ) (a : Text) :
    (mirror (w.add objPath cls args).sent).get? (n, a) =
      if n = cls.moniker args then ((cls.keys args).get? a).map .value
      else (mirror w.sent).get? (n, a) := by
  obtain hnil | ⟨k, hk, -⟩ := ontology_cases cls
  · have hkeys : cls.keys args = [] := by simp [CIMClass.keys, hnil]
    rw [Session.add, hkeys]
    simp only [List.map_nil, List.append_nil, Dict.get?_nil, Option.map_none]
    split
    · rename_i hn
      rw [hn, hnone]
    · rfl
  · rw [hk] at hargs
    obtain ⟨d, rfl⟩ := List.length_eq_one_iff.mp hargs
    have hkeys : cls.keys [d] = [(k, .data d)] := by simp [CIMClass.keys, hk]
    have hsent : (w.add objPath cls [d]).sent =
        w.sent ++ [⟨cls.moniker [d], k, .value (.data d)⟩] := by simp [Session.add, hkeys]
    rw [hsent, mirror_concat, Dict.get?_set, hkeys, Dict.get?_cons, Dict.get?_nil]
    by_cases hn : n = cls.moniker [d]
    · subst hn
      by_cases ha : k = a
      · simp [ha]
      · simp [ha, hnone]
    · simp [hn, Ne.symm hn]

/-- A creation is followed by the receiver. -/
theorem Mirrors.add (h : Mirrors w (mirror w.sent)) (hw : Coherent T w) {cls : CIMClass}
    {args : List δ} (hargs : args.length = cls.ontology.length)
    (hfresh : ∀ (o : ℕ) (x : Instance δ), w.objs[o]? = some x →
      x.moniker? ≠ some (cls.moniker args)) :
    Mirrors (w.add objPath cls args) (mirror (w.add objPath cls args).sent) := by
  have hlast : (w.add objPath cls args).objs[w.objs.length]? = some ⟨cls, cls.keys args⟩ := by
    rw [Session.add, List.getElem?_concat_length]
  have hmon : (⟨cls, cls.keys args⟩ : Instance δ).moniker? = some (cls.moniker args) :=
    moniker?_new hargs
  have hnone : ∀ a, (mirror w.sent).get? (cls.moniker args, a) = none := by
    intro a
    rw [Dict.get?_eq_none_iff]
    intro hmem
    obtain ⟨-, j, y, hy, hn⟩ := h.subject _ _ hmem
    exact hfresh j y hy hn
  have hmirror := @get?_mirror_add _ _ objPath w cls args hargs hnone
  constructor
  · intro j y n hy hn a ha
    rw [hmirror]
    rcases getElem?_add hy with hy | ⟨-, rfl⟩
    · rw [if_neg (by rintro rfl; exact hfresh j y hy hn), hw.shown_add hy]
      exact h.attr j y n hy hn a ha
    · rw [hmon, Option.some.injEq] at hn
      rw [if_pos hn.symm, Instance.attr]
      cases hget : (cls.keys args).get? a with
      | none => rfl
      | some v =>
        obtain ⟨kv, -, hkv⟩ := List.mem_map.mp (Dict.mem_of_get?_eq_some hget)
        cases hkv
        rfl
  · intro n a hmem
    rw [← Dict.get?_isSome_iff, hmirror] at hmem
    split at hmem
    · rename_i hn
      rw [Option.isSome_map, Dict.get?_isSome_iff] at hmem
      refine ⟨?_, _, _, hlast, hn ▸ hmon⟩
      obtain hnil | ⟨k, hk, hcim⟩ := ontology_cases cls
      · simp [CIMClass.keys, hnil, Dict.keys] at hmem
      · rw [hk] at hargs
        obtain ⟨d, rfl⟩ := List.length_eq_one_iff.mp hargs
        simp only [CIMClass.keys, hk, Dict.keys, List.zip_cons_cons, List.zip_nil_right,
          List.map_cons, List.map_nil, List.mem_singleton] at hmem
        rw [hmem]
        exact hcim
    · rw [Dict.get?_isSome_iff] at hmem
      obtain ⟨ha, j, y, hy, hn⟩ := h.subject n a hmem
      exact ⟨ha, j, y, getElem?_add_of_some hy, hn⟩

omit [DecidableEq δ] in
/-- No object has the keys of a new one. -/
theorem Coherent.fresh (h : Coherent T w) {cls : CIMClass} {args : List δ}
    (hop : (Op.create cls args).Fits T w)
    (hnew : w.mapCacheObjects.get? (cls, createMonikerKey T.str cls args) = none) (o : ℕ)
    (x : Instance δ) (hx : w.objs[o]? = some x) :
    x.moniker? ≠ some (cls.moniker (cls.stored T args)) := by
  by_cases hcls : cls = .computerSystem
  · exact hop.2 hcls hnew o x hx
  · have hstored : cls.stored T args = args := by
      cases cls <;> first | rfl | exact absurd rfl hcls
    rw [hstored]
    intro hm
    obtain ⟨args', hlen, hmon, hcache⟩ := h.keys o x hx
    rw [hm, Option.some.injEq] at hmon
    obtain ⟨rfl, rfl⟩ := args_of_moniker_eq hop.1 hlen hmon
    rw [hcache hcls] at hnew
    cases hnew

/-- One operation that fits raises nothing, and the receiver follows it. -/
theorem mirrors_exec (hw : Coherent T w) (hd : Mirrors w (mirror w.sent)) {op : Op δ}
    (hop : op.Fits T w) : ∃ w', (exec T op).run w = (.ok (), w') ∧ Coherent T w' ∧
      Mirrors w' (mirror w'.sent) := by
  cases op with
  | assign o attrNam v =>
    obtain ⟨⟨x, hx, hattr⟩, hv⟩ := hop
    exact mirrors_setAttr hw hd hx hattr hv
  | create cls args =>
    cases hcache : w.mapCacheObjects.get? (cls, createMonikerKey T.str cls args) with
    | none =>
      have hlen : (cls.stored T args).length = cls.ontology.length :=
        (length_stored T cls args).trans hop.1
      have hfresh := hw.fresh hop hcache
      refine ⟨_, run_createObjectPath hop.1 hcache, hw.add hlen (fun hcls => ?_) hcache hfresh,
        hd.add hw hlen hfresh⟩
      cases cls <;> first | rfl | exact absurd rfl hcls
    | some o =>
      refine ⟨w, ?_, hw, hd⟩
      rw [exec, createObjectPath, Py.run_get_bind]
      simp only [hcache]
      rfl

omit [DecidableEq δ] in
theorem coherent_init : Coherent T (Session.init : Session δ) where
  keys o x hx := by simp [Session.init] at hx
  unique o o' x x' m hx := by simp [Session.init] at hx
  object o x hx := by simp [Session.init] at hx

theorem mirrors_init : Mirrors (Session.init : Session δ) (mirror []) where
  attr o x m hx := by simp [Session.init] at hx
  subject m a h := by simp [mirror, Dict.keys] at h

theorem mirrors_run {ops : List (Op δ)} (hw : Coherent T w) (hd : Mirrors w (mirror w.sent))
    (h : FitsRun T w ops) : ∃ w', (Py.each (exec T) ops).run w = (.ok (), w') ∧
      Mirrors w' (mirror w'.sent) := by
  induction ops generalizing w with
  | nil => exact ⟨w, rfl, hd⟩
  | cons op ops ih =>
    obtain ⟨w₁, hrun, hw₁, hd₁⟩ := mirrors_exec hw hd h.1
    have hrest := h.2
    rw [hrun] at hrest
    obtain ⟨w', hrun', hd'⟩ := ih hw₁ hd₁ hrest
    exact ⟨w', by rw [Py.run_each_cons, hrun]; exact hrun', hd'⟩

end

section
variable (T : Texts δ)

/-- After any creations and assignments that fit, no exception was raised, and a receiver that
keeps the last triple of each object and attribute has the attributes of all the objects. -/
theorem mirrors_of_run (ops : List (Op δ)) (h : FitsRun T .init ops) :
    ∃ w, (Py.each (exec T) ops).run .init = (.ok (), w) ∧ Mirrors w (mirror w.sent) :=
  mirrors_run coherent_init mirrors_init h

/-- Values of one letter. -/
def letters : Texts Char := ⟨fun c => [c], Char.toLower⟩

/-- A program whose process gets an executable, an object, and loses it. -/
def executableOps : List (Op Char) :=
  [.create .computerSystem ['H'], .create .process ['7'], .create .dataFile ['a'],
    .assign 1 "Executable".toList (.object 2), .assign 1 "m_isVisited".toList (.data '1'),
    .assign 1 "Executable".toList .none]

theorem fitsRun_executableOps : FitsRun letters .init executableOps := by
  refine ⟨⟨rfl, fun _ _ o x hx => ?_⟩, ⟨rfl, nofun⟩, ⟨rfl, nofun⟩, ?_, ?_, ?_, trivial⟩
  · simp [Session.init] at hx
  · exact ⟨⟨_, rfl, by decide⟩, by rintro q ⟨⟩; decide⟩
  · exact ⟨⟨_, rfl, by decide⟩, by rintro q ⟨⟩⟩
  · exact ⟨⟨_, rfl, by decide⟩, by rintro q ⟨⟩⟩

theorem mirrors_of_run_executable :
    ∃ w, (Py.each (exec letters) executableOps).run .init = (.ok (), w) ∧
      Mirrors w (mirror w.sent) :=
  mirrors_of_run letters executableOps fitsRun_executableOps

/-- The one thread that runs the program, and the thread that sends. -/
abbrev Client (δ : Type) := HttpTriplesClient.State Unit (JsonTriple δ)

/-- When the program has made its calls, the queue is empty and no request has failed, the server
has received what a receiver needs to have the attributes of all the objects. -/
theorem server_mirrors (ops : List (Op δ)) (h : FitsRun T .init ops) {dumps : JsonTriple δ → Bool}
    {as : List (HttpTriplesClient.Action Unit (JsonTriple δ))} {s : Client δ}
    (hrun : Transitions.run (HttpTriplesClient.step dumps) .init as = some s)
    (hcalled : s.called.map Prod.snd = ((Py.each (exec T) ops).run .init).2.sent)
    (hvalid : s.valid = true) (hout : s.stage () = .out) (hasleep : s.sender = .asleep)
    (hempty : s.listTriples = []) :
    Mirrors ((Py.each (exec T) ops).run .init).2 (mirror s.server.flatten) := by
  obtain ⟨w, hops, hmirrors⟩ := mirrors_run coherent_init mirrors_init h
  have haccounted := (HttpTriplesClient.keeps_inv.run hrun HttpTriplesClient.inv_init).accounted
  have hall (l : List (Unit × JsonTriple δ)) :
      HttpTriplesClient.ofThread () l = l.map Prod.snd := by
    simp [HttpTriplesClient.ofThread]
  have horder := haccounted.order ()
  have hadded := haccounted.added
  rw [hall, hall, hout] at horder
  rw [haccounted.kept hvalid, hasleep, hempty] at hadded
  simp only [HttpTriplesClient.Stage.waiting, List.append_nil] at horder
  simp only [HttpTriplesClient.Sender.inHand, List.append_nil] at hadded
  rw [hops] at hcalled ⊢
  rw [← hadded, ← horder, hcalled]
  exact hmirrors

/-- One thread adds the triples, and then the sender sends them. -/
def oneRequest (ts : List (JsonTriple δ)) : List (HttpTriplesClient.Action Unit (JsonTriple δ)) :=
  ts.flatMap (fun t => [.call () t, .acquire (), .append (), .release ()]) ++
    [.wake, .dump, .clear, .unlock, .answer .done]

/-- The triples of the program. -/
def executableTriples : List (JsonTriple Char) :=
  ((Py.each (exec letters) executableOps).run .init).2.sent

/-- The triples of the creations are sent first, the other ones in a second request. -/
theorem server_mirrors_executable :
    ∃ s : Client Char, s.server = [executableTriples.take 3, executableTriples.drop 3] ∧
      s.server.map List.length = [3, 3] ∧
      Mirrors ((Py.each (exec letters) executableOps).run .init).2 (mirror s.server.flatten) :=
  ⟨_, rfl, rfl, server_mirrors letters executableOps fitsRun_executableOps
    (show Transitions.run (HttpTriplesClient.step fun _ => true) .init
      (oneRequest (executableTriples.take 3) ++ oneRequest (executableTriples.drop 3)) = some _
      from rfl)
    rfl rfl rfl rfl rfl⟩

end

end Survol.Dockit.CIMXmlMarshaller
