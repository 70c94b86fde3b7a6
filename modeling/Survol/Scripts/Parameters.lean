import Mathlib.Data.List.Dedup
import Survol.Lib.Dict
import Survol.Lib.FieldStorage

/-!
# The parameters of a script

A script has parameters with default values, which are booleans, numbers or texts. They are edited
in a form: a boolean is a check box, the others are text fields. What is sent is read again by the
script: a parameter without a value is a cleared box if the form was edited, and else has its
default.

## Main definitions

* `Value`, `CgiEnv` — the values of parameters, and the state of a script.
* `getParameters`, `formEditionParameters` — the functions of the source.
* `User`, `Form.sent` — what the user leaves in the form, and the form as it is sent.
* `Keeps` — a parameter has the type of its default and the value that was left in the form.

## Main results

* `getParameters_afterCalls` — a parameter does not depend on the parameters read before.
* `keeps_iff` — which parameters are kept.
-/

open PyText (Text int?)
open FieldStorage

namespace Survol.Scripts

/-! ## The functions -/

/-- The floating-point numbers, as far as they are read: no number is written by the empty text. -/
structure FloatType where
  Carrier : Type
  parse : Text → Option Carrier
  parse_nil : parse [] = none

variable {F : FloatType}

/-- The value of a parameter. -/
inductive Value (F : FloatType)
  | bool (b : Bool)
  | int (n : ℤ)
  | float (x : F.Carrier)
  | str (s : Text)

/-- What can be raised: several values have no `value`, and a text may be no number. -/
inductive Raised
  | attributeError
  | valueError
  deriving DecidableEq

/-- What a script knows: the arguments it was called with, its parameters, and its object. -/
structure CgiEnv (F : FloatType) where
  arguments : Sent
  parameters : Dict Text (Value F)
  entityType : Text
  entityIdDict : Dict Text Text

/-- The conversion `type(dfltValue)(paramVal)`. -/
def Value.convert : Value F → Text → Except Raised (Value F)
  | .bool _, s => .ok (.bool (s ≠ []))
  | .int _, s => match int? s with
    | some n => .ok (.int n)
    | none => .error .valueError
  | .float _, s => match F.parse s with
    | some x => .ok (.float x)
    | none => .error .valueError
  | .str _, s => .ok (.str s)

/-- The text `m_arguments[paramkey].value`, `none` for a missing key. -/
def argument (arguments : Sent) (paramkey : Text) : Except Raised (Option Text) :=
  match arguments.getList paramkey with
  | [] => .ok none
  | [v] => .ok (some v)
  | _ => .error .attributeError

/-- The value of a parameter. A parameter without a value is cleared when the form was edited. -/
def getParameters (paramkey : Text) (cgi : CgiEnv F) : Except Raised (Value F) × CgiEnv F :=
  match argument cgi.arguments paramkey with
  | .error e => (.error e, cgi)
  | .ok argVal =>
    match Dict.get? cgi.parameters paramkey, argVal with
    | some dfltValue, some paramVal => (dfltValue.convert paramVal, cgi)
    | some dfltValue, none =>
      if cgi.arguments.has "edimodtype".toList then
        (.ok (.bool false),
          { cgi with parameters := Dict.set cgi.parameters paramkey (.bool false) })
      else (.ok dfltValue, cgi)
    | none, none => (.ok (.str []), cgi)
    | none, some paramVal => (.ok (.str paramVal), cgi)

/-- Whether a parameter is shown as a check box. -/
def Value.isBool : Value F → Bool
  | .bool _ => true
  | _ => false

/-- The form: the keys of the object, the parameters with the values that are shown, and the
hidden fields. Nothing is escaped when it is written: it is what a browser reads of texts without
double quotes. -/
structure Form (F : FloatType) where
  idKeys : List Text
  params : List (Text × Value F)
  hidden : Sent

/-- The name of the field of a key of the object. -/
def ediName (kvKey : Text) : Text := "edimodargs_".toList ++ kvKey

/-- The loop over the parameters. -/
def showParameters : List Text → CgiEnv F → Except Raised (List (Text × Value F)) × CgiEnv F
  | [], cgi => (.ok [], cgi)
  | paramKey :: keys, cgi =>
    match getParameters paramKey cgi with
    | (.error e, cgi) => (.error e, cgi)
    | (.ok paramVal, cgi) =>
      match showParameters keys cgi with
      | (.error e, cgi) => (.error e, cgi)
      | (.ok params, cgi) => (.ok ((paramKey, paramVal) :: params), cgi)

/-- The names of the arguments, each once. -/
def argKeys (arguments : Sent) : List Text :=
  ((arguments.filter fun p => p.2 ≠ []).map Prod.fst).dedup

/-- The hidden fields: the type of the object, and the arguments that are not edited. -/
def hiddenFields (cgi : CgiEnv F) (lstEdimodArgs : List Text) : Sent :=
  (if "edimodtype".toList ∈ argKeys cgi.arguments then []
    else [("edimodtype".toList, cgi.entityType)]) ++
  (argKeys cgi.arguments).flatMap fun key =>
    if key ∈ Dict.keys cgi.parameters then []
    else if key ∈ lstEdimodArgs then []
    else
      let argList := cgi.arguments.getList key
      if key = "mode".toList && argList.head? = some "edit".toList then []
      else match argList with
        | [v] => [(key, v)]
        | _ => argList.map fun val => (key ++ "[]".toList, val)

/-- The form for the parameters of a script. -/
def formEditionParameters (cgi : CgiEnv F) : Except Raised (Form F) :=
  let idKeys := if cgi.entityType ≠ [] then Dict.keys cgi.entityIdDict else []
  match showParameters (Dict.keys cgi.parameters) cgi with
  | (.error e, _) => .error e
  | (.ok params, cgi) => .ok ⟨idKeys, params, hiddenFields cgi (idKeys.map ediName)⟩

/-! ## The form that is sent -/

/-- What the user leaves in the form. -/
structure User where
  idText : Text → Text
  ticked : Text → Bool
  typed : Text → Text

/-- What is sent of a parameter; the cleared boxes are omitted. -/
def User.field (user : User) (p : Text × Value F) : Sent :=
  if p.2.isBool then if user.ticked p.1 then [(p.1, "True".toList)] else []
  else [(p.1, user.typed p.1)]

/-- The fields of the object. -/
def Form.idFields (form : Form F) (user : User) : Sent :=
  form.idKeys.map fun k => (ediName k, user.idText k)

/-- The form as it is sent. -/
def Form.sent (form : Form F) (user : User) : Sent :=
  form.idFields user ++ form.params.flatMap user.field ++ form.hidden

/-- What is left in the field of a parameter. -/
inductive Left
  | box (b : Bool)
  | text (s : Text)

/-- The field of a parameter that is shown with a value. -/
def User.left (user : User) (p : Text × Value F) : Left :=
  if p.2.isBool then .box (user.ticked p.1) else .text (user.typed p.1)

/-- A value has the type of the default and is what was left in the form. -/
def Value.Kept : Value F → Value F → Left → Prop
  | .bool _, .bool b, .box b' => b = b'
  | .int _, .int n, .text s => int? s = some n
  | .float _, .float x, .text s => F.parse s = some x
  | .str _, .str t, .text s => t = s
  | _, _, _ => False

/-- The state after some parameters were read. -/
def afterCalls : List Text → CgiEnv F → CgiEnv F
  | [], cgi => cgi
  | k :: ks, cgi => afterCalls ks (getParameters k cgi).2

/-! ## The order of the calls -/

/-- The states that reading parameters leads to: a parameter is as at the start, or it was cleared
because the form was edited and it has no value. -/
structure CalledFrom (start cgi : CgiEnv F) : Prop where
  arguments : cgi.arguments = start.arguments
  parameters : ∀ k, Dict.get? cgi.parameters k = Dict.get? start.parameters k ∨
    start.arguments.getList k = [] ∧ start.arguments.has "edimodtype".toList = true ∧
      (Dict.get? start.parameters k).isSome ∧ Dict.get? cgi.parameters k = some (.bool false)

/-- A default, and whether the form was edited, and the values of the parameter. -/
def readValue (dfltValue : Value F) (edited : Bool) : List Text → Except Raised (Value F)
  | [] => .ok (if edited then .bool false else dfltValue)
  | [v] => dfltValue.convert v
  | _ => .error .attributeError

theorem getParameters_eq {cgi : CgiEnv F} {k : Text} {v : Value F}
    (hv : Dict.get? cgi.parameters k = some v) : (getParameters k cgi).1 =
      readValue v (cgi.arguments.has "edimodtype".toList) (cgi.arguments.getList k) := by
  rw [getParameters, argument]
  match cgi.arguments.getList k with
  | [] =>
    simp only [hv, readValue]
    split <;> rfl
  | [x] => simp only [hv, readValue]
  | _ :: _ :: _ => simp only [readValue]

theorem CalledFrom.refl (start : CgiEnv F) : CalledFrom start start :=
  ⟨rfl, fun _ => .inl rfl⟩

theorem getList_of_argument {arguments : Sent} {k : Text} (h : argument arguments k = .ok none) :
    arguments.getList k = [] := by
  rw [argument] at h
  split at h
  · assumption
  · cases h
  · cases h

theorem CalledFrom.call {start cgi : CgiEnv F} (h : CalledFrom start cgi) (k : Text) :
    CalledFrom start (getParameters k cgi).2 := by
  rw [getParameters]
  split
  · exact h
  · rename_i argVal harg
    split
    · exact h
    · rename_i v hv
      split
      · rename_i hhas
        refine ⟨h.arguments, fun k' => ?_⟩
        by_cases hk : k' = k
        · subst hk
          rw [h.arguments] at harg hhas
          have hlist := getList_of_argument harg
          have hsome : (Dict.get? start.parameters k').isSome := by
            obtain heq | ⟨-, -, hs, -⟩ := h.parameters k'
            · rw [← heq, hv]
              rfl
            · exact hs
          exact .inr ⟨hlist, hhas, hsome, by rw [Dict.get?_set, if_pos rfl]⟩
        · rw [Dict.get?_set, if_neg (Ne.symm hk)]
          exact h.parameters k'
      · exact h
    · exact h
    · exact h

/-- Reading other parameters before does not change what is read. -/
theorem CalledFrom.value {start cgi : CgiEnv F} (h : CalledFrom start cgi) {k : Text} {v : Value F}
    (hv : Dict.get? start.parameters k = some v) :
    (getParameters k cgi).1 = (getParameters k start).1 := by
  rw [getParameters_eq hv]
  obtain heq | ⟨hlist, hhas, -, hcleared⟩ := h.parameters k
  · rw [getParameters_eq (heq.trans hv), h.arguments]
  · rw [getParameters_eq hcleared, h.arguments, hlist, hhas]
    rfl

theorem calledFrom_afterCalls {start cgi : CgiEnv F} (h : CalledFrom start cgi)
    (calls : List Text) : CalledFrom start (afterCalls calls cgi) := by
  induction calls generalizing cgi with
  | nil => exact h
  | cons k calls ih => exact ih (h.call k)

/-- A parameter does not depend on the parameters that were read before. -/
theorem getParameters_afterCalls (start : CgiEnv F) (calls : List Text) {k : Text} {v : Value F}
    (hv : Dict.get? start.parameters k = some v) :
    (getParameters k (afterCalls calls start)).1 = (getParameters k start).1 :=
  (calledFrom_afterCalls (.refl start) calls).value hv

/-! ## The fields of the form -/

/-- The parameters are shown with the values that are read at the start. -/
theorem showParameters_spec {start cgi cgi' : CgiEnv F} {keys : List Text}
    {params : List (Text × Value F)} (hc : CalledFrom start cgi)
    (hkeys : ∀ k ∈ keys, (Dict.get? start.parameters k).isSome)
    (h : showParameters keys cgi = (.ok params, cgi')) :
    params.map Prod.fst = keys ∧ ∀ p ∈ params, (getParameters p.1 start).1 = .ok p.2 := by
  induction keys generalizing cgi cgi' params with
  | nil =>
    rw [showParameters] at h
    obtain rfl := Except.ok.inj (Prod.mk.inj h).1
    exact ⟨rfl, fun p hp => nomatch hp⟩
  | cons k keys ih =>
    obtain ⟨v, hv⟩ := Option.isSome_iff_exists.mp (hkeys k List.mem_cons_self)
    have hcall := hc.call k
    have hvalue := hc.value hv
    rw [showParameters] at h
    generalize getParameters k cgi = result at h hcall hvalue
    obtain ⟨_ | paramVal, cgi₁⟩ := result
    · cases (Prod.mk.inj h).1
    · simp only at h
      generalize hrest : showParameters keys cgi₁ = rest at h
      obtain ⟨_ | params', cgi₂⟩ := rest
      · cases (Prod.mk.inj h).1
      · obtain rfl := Except.ok.inj (Prod.mk.inj h).1
        have hnext : CalledFrom start cgi₁ := hcall
        obtain ⟨hnames, hvals⟩ :=
          ih hnext (fun k' hk' => hkeys k' (List.mem_cons_of_mem k hk')) hrest
        exact ⟨by rw [List.map_cons, hnames], List.forall_mem_cons.mpr ⟨hvalue.symm, hvals⟩⟩

theorem isBool_convert {v w : Value F} {s : Text} (h : v.convert s = .ok w) :
    w.isBool = v.isBool := by
  cases v with
  | bool d =>
    obtain rfl := Except.ok.inj h
    rfl
  | str d =>
    obtain rfl := Except.ok.inj h
    rfl
  | int d =>
    rw [Value.convert] at h
    split at h
    · obtain rfl := Except.ok.inj h
      rfl
    · cases h
  | float d =>
    rw [Value.convert] at h
    split at h
    · obtain rfl := Except.ok.inj h
      rfl
    · cases h

/-- A parameter is shown as a box when it is a boolean, or when it is cleared because the form was
edited before. -/
theorem isBool_shown {cgi : CgiEnv F} {k : Text} {v shown : Value F}
    (hv : Dict.get? cgi.parameters k = some v) (h : (getParameters k cgi).1 = .ok shown) :
    shown.isBool = (v.isBool ||
      (cgi.arguments.has "edimodtype".toList && cgi.arguments.getList k = [])) := by
  rw [getParameters_eq hv] at h
  match hl : cgi.arguments.getList k with
  | [] =>
    rw [hl] at h
    obtain rfl := Except.ok.inj h
    cases cgi.arguments.has "edimodtype".toList <;> simp [Value.isBool]
  | [x] =>
    rw [hl] at h
    rw [isBool_convert h]
    simp
  | _ :: _ :: _ =>
    rw [hl] at h
    cases h

/-- The values that are sent of a parameter. -/
def User.sentValues (user : User) (p : Text × Value F) : List Text :=
  if p.2.isBool then if user.ticked p.1 then ["True".toList] else []
  else if user.typed p.1 = [] then [] else [user.typed p.1]

theorem getList_field (user : User) (p : Text × Value F) (k : Text) :
    Sent.getList (user.field p) k = if p.1 = k then user.sentValues p else [] := by
  rw [User.field, User.sentValues]
  split
  · split
    · by_cases hk : p.1 = k
      · rw [if_pos hk, hk]
        simp [Sent.getList]
      · rw [if_neg hk, getList_of_ne hk]
        rfl
    · split <;> rfl
  · by_cases hk : p.1 = k
    · rw [if_pos hk]
      by_cases ht : user.typed p.1 = []
      · rw [if_pos ht, ht]
        simp [Sent.getList]
      · rw [if_neg ht, Sent.getList, List.filter_cons_of_pos (by simp [← hk, ht])]
        rfl
    · rw [if_neg hk, getList_of_ne hk]
      rfl

theorem getList_params (user : User) {params : List (Text × Value F)}
    (hnodup : (params.map Prod.fst).Nodup) {p : Text × Value F} (hp : p ∈ params) :
    Sent.getList (params.flatMap user.field) p.1 = user.sentValues p := by
  rw [getList_flatMap]
  induction params with
  | nil => cases hp
  | cons q params ih =>
    rw [List.map_cons, List.nodup_cons] at hnodup
    rw [List.flatMap_cons, getList_field]
    obtain rfl | hp := List.mem_cons.mp hp
    · have hrest : (params.flatMap fun q => Sent.getList (user.field q) p.1) = [] := by
        rw [List.flatMap_eq_nil_iff]
        intro q hq
        rw [getList_field, if_neg]
        intro heq
        exact hnodup.1 (heq ▸ List.mem_map_of_mem hq)
      rw [if_pos rfl, hrest, List.append_nil]
    · rw [if_neg, List.nil_append, ih hnodup.2 hp]
      intro heq
      exact hnodup.1 (heq ▸ List.mem_map_of_mem hp)

/-! ## One parameter -/

/-- The other fields of the form. -/
def Form.otherFields (form : Form F) (user : User) : Sent := form.idFields user ++ form.hidden

theorem getList_sent {form : Form F} (user : User) (hnodup : (form.params.map Prod.fst).Nodup)
    {p : Text × Value F} (hp : p ∈ form.params) : (form.sent user).getList p.1 =
      Sent.getList (form.idFields user) p.1 ++ user.sentValues p ++ form.hidden.getList p.1 := by
  rw [Form.sent, getList_append, getList_append, getList_params user hnodup hp]

/-- What a parameter must satisfy to be kept, by its default, what is left in its field, and whether
the script sees that the form was edited. -/
def Value.Keepable (ticked edited : Bool) (typed : Text) : Value F → Prop
  | .bool d => ticked = true ∨ edited = true ∨ d = false
  | .int _ => (int? typed).isSome
  | .float _ => (F.parse typed).isSome
  | .str d => typed ≠ [] ∨ edited = false ∧ d = []

/-- A value that is read from a list of values, and kept. -/
def ReadAndKept (v : Value F) (edited : Bool) (values : List Text) (left : Left) : Prop :=
  ∃ w, readValue v edited values = .ok w ∧ v.Kept w left

theorem readAndKept_nil {v : Value F} {edited : Bool} {left : Left} :
    ReadAndKept v edited [] left ↔ v.Kept (if edited then .bool false else v) left := by
  simp [ReadAndKept, readValue]

theorem not_readAndKept_of_length {v : Value F} {edited : Bool} {values : List Text} {left : Left}
    (h : 2 ≤ values.length) : ¬ ReadAndKept v edited values left := by
  match values, h with
  | _ :: _ :: _, _ =>
    rintro ⟨w, hw, -⟩
    cases hw

theorem readAndKept_box {d edited ticked : Bool} {a b : List Text}
    (hne : ∀ x ∈ a ++ b, x ≠ []) :
    ReadAndKept (F := F) (.bool d) edited (a ++ (if ticked then ["True".toList] else []) ++ b)
        (.box ticked) ↔
      a ++ b = [] ∧ (ticked = true ∨ edited = true ∨ d = false) := by
  by_cases hab : a ++ b = []
  · obtain ⟨rfl, rfl⟩ := List.append_eq_nil_iff.mp hab
    cases ticked with
    | true => simp [ReadAndKept, readValue, Value.convert, Value.Kept]
    | false =>
      have hlist :
          ([] : List Text) ++ (if false = true then ["True".toList] else []) ++ [] = [] := rfl
      rw [hlist, readAndKept_nil]
      cases edited <;> simp [Value.Kept]
  · refine iff_of_false ?_ fun h => hab h.1
    have hpos := List.length_pos_iff.mpr hab
    rw [List.length_append] at hpos
    cases ticked with
    | true =>
      refine not_readAndKept_of_length ?_
      simp only [if_true, List.length_append, List.length_singleton]
      omega
    | false =>
      have hlist : a ++ (if false = true then ["True".toList] else []) ++ b = a ++ b := by simp
      rw [hlist]
      match hl : a ++ b, hab with
      | [x], _ =>
        have hx := hne x (by rw [hl]; exact List.mem_singleton_self x)
        simp [ReadAndKept, readValue, Value.convert, Value.Kept, hx]
      | _ :: _ :: _, _ => exact not_readAndKept_of_length (by simp)

/-- Only the empty text is an empty field. -/
theorem kept_nil {v w : Value F} (h : v.Kept w (.text [])) :
    (∃ d, v = .str d) ∧ w = .str [] := by
  have hint : int? [] = none := by decide
  cases v <;> cases w <;> simp only [Value.Kept, hint, F.parse_nil, reduceCtorEq] at h
  subst h
  exact ⟨⟨_, rfl⟩, rfl⟩

/-- Only a boolean is kept in a box. -/
theorem not_kept_box {v w : Value F} {b : Bool} (hv : v.isBool = false) :
    ¬ v.Kept w (.box b) := by
  cases v with
  | bool d => cases hv
  | int d => cases w <;> exact id
  | float d => cases w <;> exact id
  | str d => cases w <;> exact id

theorem exists_kept_convert {v : Value F} (hv : v.isBool = false) {t : Text} :
    (∃ w, v.convert t = .ok w ∧ v.Kept w (.text t)) ↔
      match v with
      | .int _ => (int? t).isSome
      | .float _ => (F.parse t).isSome
      | _ => True := by
  cases v with
  | bool d => cases hv
  | int d =>
    simp only [Value.convert]
    cases hn : int? t with
    | none => simp
    | some n => simp [Value.Kept, hn]
  | float d =>
    simp only [Value.convert]
    cases hx : F.parse t with
    | none => simp
    | some x => simp [Value.Kept, hx]
  | str d => simp [Value.convert, Value.Kept]

theorem readAndKept_text {v : Value F} (hv : v.isBool = false) {edited ticked : Bool} {t : Text}
    {a b : List Text} (hne : ∀ x ∈ a ++ b, x ≠ []) :
    ReadAndKept v edited (a ++ (if t = [] then [] else [t]) ++ b) (.text t) ↔
      a ++ b = [] ∧ v.Keepable ticked edited t := by
  by_cases hab : a ++ b = []
  · obtain ⟨rfl, rfl⟩ := List.append_eq_nil_iff.mp hab
    by_cases ht : t = []
    · subst ht
      have hint : int? [] = none := by decide
      have hlist : ([] : List Text) ++ (if ([] : Text) = [] then [] else [[]]) ++ [] = [] := rfl
      rw [hlist, readAndKept_nil]
      cases v with
      | bool d => cases hv
      | int d => cases edited <;> simp [Value.Kept, Value.Keepable, hint]
      | float d => cases edited <;> simp [Value.Kept, Value.Keepable, F.parse_nil]
      | str d => cases edited <;> simp [Value.Kept, Value.Keepable]
    · have hlist : ([] : List Text) ++ (if t = [] then [] else [t]) ++ [] = [t] := by simp [ht]
      rw [hlist]
      refine (exists_kept_convert hv).trans ?_
      cases v with
      | bool d => cases hv
      | int d => simp [Value.Keepable]
      | float d => simp [Value.Keepable]
      | str d => simp [Value.Keepable, ht]
  · refine iff_of_false ?_ fun h => hab h.1
    have hpos := List.length_pos_iff.mpr hab
    rw [List.length_append] at hpos
    by_cases ht : t = []
    · have hlist : a ++ (if t = [] then [] else [t]) ++ b = a ++ b := by simp [ht]
      rw [hlist, ht]
      match hl : a ++ b, hab with
      | [x], _ =>
        rintro ⟨w, hw, hk⟩
        obtain ⟨⟨d, rfl⟩, rfl⟩ := kept_nil hk
        have hx := hne x (by rw [hl]; exact List.mem_singleton_self x)
        exact hx (by simpa [readValue, Value.convert] using hw)
      | _ :: _ :: _, _ => exact not_readAndKept_of_length (by simp)
    · refine not_readAndKept_of_length ?_
      simp only [if_neg ht, List.length_append, List.length_singleton]
      omega

/-! ## Main results -/

/-- A script: its parameters with their defaults. -/
structure Script (F : FloatType) where
  defaults : Dict Text (Value F)
  nodup : (Dict.keys defaults).Nodup

/-- The state of the script when it starts with some arguments. -/
def Script.start (script : Script F) (arguments : Sent) (entityType : Text)
    (entityIdDict : Dict Text Text) : CgiEnv F :=
  ⟨arguments, script.defaults, entityType, entityIdDict⟩

theorem params_of_form {cgi : CgiEnv F} {form : Form F}
    (h : formEditionParameters cgi = .ok form) :
    form.params.map Prod.fst = Dict.keys cgi.parameters ∧
      ∀ p ∈ form.params, (getParameters p.1 cgi).1 = .ok p.2 := by
  rw [formEditionParameters] at h
  generalize hshow : showParameters (Dict.keys cgi.parameters) cgi = result at h
  obtain ⟨_ | params, cgi'⟩ := result
  · cases h
  · obtain rfl := Except.ok.inj h
    exact showParameters_spec (.refl cgi)
      (fun k hk => (Dict.get?_isSome_iff cgi.parameters k).mpr hk) hshow

/-- The parameter that the script reads has the type of its default and is what the user left in its
field. -/
def Keeps (script : Script F) (form : Form F) (user : User) (calls : List Text)
    (entityType : Text) (entityIdDict : Dict Text Text) (k : Text) (v : Value F) : Prop :=
  ∀ shown, (k, shown) ∈ form.params → ∃ w,
    (getParameters k (afterCalls calls
      (script.start (form.sent user) entityType entityIdDict))).1 = .ok w ∧
    v.Kept w (user.left (k, shown))

/-- What the script reads of a parameter are the values of its own field and of the others. -/
theorem keeps_iff_readAndKept {script : Script F} {form : Form F} {user : User}
    {calls : List Text} {entityType : Text} {entityIdDict : Dict Text Text} {k : Text}
    {v shown : Value F} (hv : Dict.get? script.defaults k = some v) (hp : (k, shown) ∈ form.params)
    (hnodup : (form.params.map Prod.fst).Nodup) :
    Keeps script form user calls entityType entityIdDict k v ↔
      ReadAndKept v ((form.sent user).has "edimodtype".toList)
        (Sent.getList (form.idFields user) k ++ user.sentValues (k, shown) ++
          form.hidden.getList k) (user.left (k, shown)) := by
  have hread : (getParameters k (afterCalls calls
      (script.start (form.sent user) entityType entityIdDict))).1 =
        readValue v ((form.sent user).has "edimodtype".toList) ((form.sent user).getList k) := by
    rw [getParameters_afterCalls _ calls hv, getParameters_eq hv]
    rfl
  have hunique : ∀ shown', (k, shown') ∈ form.params → shown' = shown := fun shown' h' =>
    (Prod.mk.inj (List.inj_on_of_nodup_map hnodup h' hp rfl)).2
  rw [Keeps, hread, getList_sent user hnodup hp]
  constructor
  · exact fun h => h shown hp
  · intro h shown' h'
    rw [hunique shown' h']
    exact h

theorem ne_nil_of_mem_getList {sent : Sent} {name x : Text} (h : x ∈ sent.getList name) : x ≠ [] :=
  (mem_getList.mp h).2

/-- A parameter that is shown in the form is kept when it is shown in a field of its type, no other
field has its name, and the state of its field can be read. -/
theorem readAndKept_iff {script : Script F} {arguments : Sent} {entityType : Text}
    {entityIdDict : Dict Text Text} {form : Form F} {user : User} {k : Text} {v shown : Value F}
    (hv : Dict.get? script.defaults k = some v)
    (hshown : (getParameters k (script.start arguments entityType entityIdDict)).1 = .ok shown) :
    ReadAndKept v ((form.sent user).has "edimodtype".toList)
        (Sent.getList (form.idFields user) k ++ user.sentValues (k, shown) ++
          form.hidden.getList k) (user.left (k, shown)) ↔
      (v.isBool = false → arguments.has "edimodtype".toList = true → arguments.getList k ≠ []) ∧
      (form.otherFields user).getList k = [] ∧
      v.Keepable (user.ticked k) ((form.sent user).has "edimodtype".toList) (user.typed k) := by
  have hne : ∀ x ∈ Sent.getList (form.idFields user) k ++ form.hidden.getList k, x ≠ [] :=
    fun x hx => (List.mem_append.mp hx).elim ne_nil_of_mem_getList ne_nil_of_mem_getList
  have hbool : shown.isBool =
      (v.isBool || (arguments.has "edimodtype".toList && arguments.getList k = [])) :=
    isBool_shown hv hshown
  rw [Form.otherFields, getList_append, User.sentValues, User.left]
  cases hvb : v.isBool with
  | true =>
    rw [hvb, Bool.true_or] at hbool
    simp only [hbool, if_true]
    match v, hvb with
    | .bool d, _ =>
      rw [readAndKept_box hne]
      simp only [Bool.true_eq_false, false_implies, true_and]
      rfl
  | false =>
    rw [hvb, Bool.false_or] at hbool
    cases hsb : shown.isBool with
    | true =>
      rw [hsb, eq_comm, Bool.and_eq_true, decide_eq_true_eq] at hbool
      refine iff_of_false ?_ fun h => h.1 rfl hbool.1 hbool.2
      rintro ⟨w, -, hk⟩
      exact not_kept_box hvb hk
    | false =>
      rw [hsb] at hbool
      simp only [Bool.false_eq_true, if_false]
      rw [readAndKept_text hvb hne]
      refine (and_iff_right ?_).symm
      intro _ hhas hnil
      rw [hhas, hnil] at hbool
      cases hbool

/-- The parameters are kept, whatever parameters are read before, if and only if each one is shown
in a field of its type, no other field sends its name, and a cleared box, an emptied field
and a number are read as they were left. -/
theorem keeps_iff (script : Script F) (arguments : Sent) (entityType entityType' : Text)
    (entityIdDict entityIdDict' : Dict Text Text) (form : Form F) (user : User)
    (calls : List Text)
    (hform : formEditionParameters (script.start arguments entityType entityIdDict) = .ok form) :
    (∀ k v, Dict.get? script.defaults k = some v →
      Keeps script form user calls entityType' entityIdDict' k v) ↔
    ∀ k v, Dict.get? script.defaults k = some v →
      (v.isBool = false → arguments.has "edimodtype".toList = true → arguments.getList k ≠ []) ∧
      (form.otherFields user).getList k = [] ∧
      v.Keepable (user.ticked k) ((form.sent user).has "edimodtype".toList) (user.typed k) := by
  obtain ⟨hnames, hvalues⟩ := params_of_form hform
  have hnodup : (form.params.map Prod.fst).Nodup := hnames ▸ script.nodup
  refine forall_congr' fun k => forall_congr' fun v => forall_congr' fun hv => ?_
  have hmem : k ∈ form.params.map Prod.fst := by
    rw [hnames]
    exact (Dict.get?_isSome_iff script.defaults k).mp (by rw [hv]; rfl)
  obtain ⟨⟨k', shown⟩, hp, rfl⟩ := List.mem_map.mp hmem
  rw [keeps_iff_readAndKept hv hp hnodup]
  exact readAndKept_iff hv (hvalues _ hp)

/-- Numbers that no text writes. -/
def noFloats : FloatType := ⟨ℕ, fun _ => none, rfl⟩

/-- A script with one text as its parameter. -/
def nameScript : Script noFloats where
  defaults := [("Name".toList, .str ['x'])]
  nodup := List.nodup_singleton _

/-- The arguments of its edition for a process. -/
def nameArguments : Sent :=
  [("xid".toList, "CIM_Process.Pid=7".toList), ("mode".toList, "edit".toList)]

/-- The form for the process. -/
def nameForm : Form noFloats where
  idKeys := ["Pid".toList]
  params := [("Name".toList, .str ['x'])]
  hidden := [("edimodtype".toList, "CIM_Process".toList),
    ("xid".toList, "CIM_Process.Pid=7".toList)]

/-- A user who keeps the process and empties the field. -/
def emptying : User := ⟨fun _ => ['7'], fun _ => false, fun _ => []⟩

/-- The parameter of the script, when its field is emptied. -/
theorem keeps_iff_emptying :
    (∀ k v, Dict.get? nameScript.defaults k = some v →
      Keeps nameScript nameForm emptying [] "CIM_Process".toList [("Pid".toList, ['7'])] k v) ↔
    ∀ k v, Dict.get? nameScript.defaults k = some v →
      (v.isBool = false → Sent.has nameArguments "edimodtype".toList = true →
        Sent.getList nameArguments k ≠ []) ∧
      (nameForm.otherFields emptying).getList k = [] ∧
      v.Keepable (emptying.ticked k) ((nameForm.sent emptying).has "edimodtype".toList)
        (emptying.typed k) :=
  keeps_iff nameScript nameArguments "CIM_Process".toList "CIM_Process".toList
    [("Pid".toList, ['7'])] [("Pid".toList, ['7'])] nameForm emptying [] rfl

/-- A text field that is emptied is read as the boolean `False`. -/
theorem emptied_text_is_false :
    formEditionParameters
        (nameScript.start nameArguments "CIM_Process".toList [("Pid".toList, ['7'])]) =
          .ok nameForm ∧
      emptying.left ("Name".toList, (.str ['x'] : Value noFloats)) = .text [] ∧
      (getParameters "Name".toList
        (nameScript.start (nameForm.sent emptying) "CIM_Process".toList
          [("Pid".toList, ['7'])])).1 = .ok (.bool false) :=
  ⟨rfl, rfl, rfl⟩

end Survol.Scripts
