import Survol.Credentials.Coherence
import Survol.Lib.FieldStorage

/-!
# The form of the credentials

The page of the credentials has a password field and a delete box for each credential. Their names
are made of the type, the name and the user. The form that is sent has the content of every
password field, and the boxes that are ticked.

## Main definitions

* `updatedCredMapOf` — `UpdatedCredMap` on a form that was sent, where a name can have several
  values.
* `EditForm` — the credentials, and what was done with their fields.
* `EditForm.sent`, `EditForm.written` — the form as it is sent, and the file after it was read.

## Main results

* `updatedCredMapOf_eq` — the form is read like one with one value for each name.
* `written_iff` — which forms change what they say.
-/

open PyText (Text)
open FieldStorage

namespace Survol.Credentials

/-! ## A form where a name can have several values -/

/-- What the form makes of a credential. A list of values has no `value`, and the password stays. -/
def updatedCredOf (cgiArguments : Sent) (cred : FormCred) : Option FormCred × Bool :=
  if cgiArguments.has cred.inputNameDel then (none, true)
  else match cgiArguments.value? cred.inputPassword with
    | some updPassword =>
      if updPassword ≠ cred.password then (some { cred with password := updPassword }, true)
      else (some cred, false)
    | none => (some cred, false)

/-- The credentials that stay, and whether anything changed. -/
def updatedMapOf (cgiArguments : Sent) (credMap : Dict Text (Dict Text FormCred)) :
    Dict Text (Dict Text FormCred) × Bool :=
  (Dict.mapVals (fun credNams => credNams.filterMap fun p =>
      (updatedCredOf cgiArguments p.2).1.map fun cred => (p.1, cred)) credMap,
    credMap.any fun t => t.2.any fun p => (updatedCredOf cgiArguments p.2).2)

/-- `UpdatedCredMap`. -/
def updatedCredMapOf (cgiArguments : Sent) (s : Server) : Server :=
  let (credentials, s) := credDocument s
  let credMap := createCredentialsMap credentials
  if cgiArguments.has "SubmitCredUpdName".toList then
    let (credMapOut, wasChanged) := updatedMapOf cgiArguments credMap
    if wasChanged then updatesCredentials credMapOut s else s
  else s

/-! ## The same form with one value for each name -/

/-- Whether a field is a password field. -/
def isPasswordName (name : Text) : Bool := "_UPDATE_PASSWORD".toList.isSuffixOf name

/-- What is read of a name: the only value of a password field, the presence of the others. -/
def seenValue (sent : Sent) (name : Text) : Option Text :=
  if isPasswordName name then sent.value? name else if sent.has name then some [] else none

/-- The form with one value for each name, as it is read. -/
def seenArguments (sent : Sent) : CgiArguments :=
  sent.filterMap fun p => (seenValue sent p.1).map fun v => (p.1, v)

theorem get?_filterMap_names {α : Type} (g : Text → Option Text) (l : List (Text × α)) (k : Text) :
    Dict.get? (l.filterMap fun p => (g p.1).map fun v => (p.1, v)) k =
      if k ∈ l.map Prod.fst then g k else none := by
  induction l with
  | nil => rfl
  | cons p l ih =>
    by_cases h : p.1 = k
    · subst h
      cases hg : g p.1 with
      | none =>
        rw [List.filterMap_cons_none (by simp [hg]), ih, hg]
        simp
      | some v =>
        rw [List.filterMap_cons_some (b := (p.1, v)) (by simp [hg]), Dict.get?_cons]
        simp
    · have hmem : k ∈ (p :: l).map Prod.fst ↔ k ∈ l.map Prod.fst := by simp [Ne.symm h]
      simp only [hmem]
      rw [← ih]
      cases hg : g p.1 with
      | none => rw [List.filterMap_cons_none (by simp [hg])]
      | some v =>
        rw [List.filterMap_cons_some (b := (p.1, v)) (by simp [hg]), Dict.get?_cons, if_neg h]

theorem get?_seenArguments (sent : Sent) (name : Text) :
    Dict.get? (seenArguments sent) name = seenValue sent name := by
  rw [seenArguments, get?_filterMap_names]
  split
  · rfl
  · rename_i hmem
    have hlist : sent.getList name = [] := by
      rw [List.eq_nil_iff_forall_not_mem]
      intro v hv
      exact hmem (List.mem_map.mpr ⟨(name, v), (mem_getList.mp hv).1, rfl⟩)
    rw [seenValue, Sent.value?, Sent.has, hlist]
    split <;> rfl

/-! ## The names of the fields -/

/-- `credInputPrefix` -/
def credInputPrefix (credType credName : Text) (cred : Credential) : Text :=
  credType ++ '_' :: credName ++ '_' :: cred.1

theorem isPasswordName_inputPassword (credType credName : Text) (cred : Credential) :
    isPasswordName (formCred credType credName cred).inputPassword = true :=
  List.isSuffixOf_iff_suffix.mpr (List.suffix_append _ _)

theorem not_isPasswordName {name : Text} {c : Char} (h : name.getLast? = some c) (hc : c ≠ 'D') :
    isPasswordName name = false := by
  rw [Bool.eq_false_iff]
  intro hsuffix
  obtain ⟨u, rfl⟩ := List.isSuffixOf_iff_suffix.mp hsuffix
  rw [List.getLast?_append_of_ne_nil _ (by decide)] at h
  exact hc (Option.some.inj h).symm

theorem not_isPasswordName_inputNameDel (credType credName : Text) (cred : Credential) :
    isPasswordName (formCred credType credName cred).inputNameDel = false := by
  refine not_isPasswordName (c := 'L') ?_ (by decide)
  rw [formCred, List.getLast?_append_of_ne_nil _ (by decide)]
  rfl

theorem updatedCred_seenArguments (sent : Sent) (credType credName : Text) (cred : Credential) :
    updatedCred (seenArguments sent) (formCred credType credName cred) =
      updatedCredOf sent (formCred credType credName cred) := by
  rw [updatedCred, updatedCredOf, get?_seenArguments, get?_seenArguments, seenValue, seenValue,
    not_isPasswordName_inputNameDel, isPasswordName_inputPassword]
  cases sent.has (formCred credType credName cred).inputNameDel <;> rfl

theorem updatedMap_seenArguments (sent : Sent) (d : Document) :
    updatedMap (seenArguments sent) (createCredentialsMap d) =
      updatedMapOf sent (createCredentialsMap d) := by
  have hcred : ∀ t ∈ createCredentialsMap d, ∀ p ∈ t.2,
      updatedCred (seenArguments sent) p.2 = updatedCredOf sent p.2 := by
    intro t ht p hp
    obtain ⟨credType, -, rfl⟩ := List.mem_map.mp ht
    obtain ⟨credName, -, rfl⟩ := List.mem_map.mp hp
    exact updatedCred_seenArguments sent _ _ _
  rw [updatedMap, updatedMapOf]
  refine Prod.ext ?_ ?_
  · refine List.map_congr_left fun t ht => ?_
    refine Prod.ext rfl (List.filterMap_congr fun p hp => ?_)
    rw [hcred t ht p hp]
  · rw [Bool.eq_iff_iff, List.any_eq_true, List.any_eq_true]
    refine exists_congr fun t => and_congr_right fun ht => ?_
    rw [List.any_eq_true, List.any_eq_true]
    refine exists_congr fun p => and_congr_right fun hp => ?_
    rw [hcred t ht p hp]

/-- A form is read like the one with one value for each name. -/
theorem updatedCredMapOf_eq (sent : Sent) (s : Server) :
    updatedCredMapOf sent s = updatedCredMap (seenArguments sent) s := by
  have hsubmit : (Dict.get? (seenArguments sent) "SubmitCredUpdName".toList).isSome =
      sent.has "SubmitCredUpdName".toList := by
    rw [get?_seenArguments, seenValue, not_isPasswordName (c := 'e') rfl (by decide)]
    cases sent.has "SubmitCredUpdName".toList <;> rfl
  rw [updatedCredMapOf, updatedCredMap, hsubmit]
  simp only [updatedMap_seenArguments]

/-! ## The form of a document -/

/-- The credential of a type and a name. -/
def Document.find? (d : Document) (credType credName : Text) : Option Credential :=
  (namesOf d credType).bind (· credName)

/-- The credentials of the page, and what was done with the fields of each. -/
structure EditForm where
  document : Document
  ticked : Text → Text → Bool
  typed : Text → Text → Text

/-- The credentials of the form, in their order: the type, the name and the inputs. -/
def EditForm.entries (f : EditForm) : List (Text × Text × FormCred) :=
  (createCredentialsMap f.document).flatMap fun t => t.2.map fun p => (t.1, p.1, p.2)

/-- The fields of a credential as they are sent. -/
def EditForm.fields (f : EditForm) (e : Text × Text × FormCred) : Sent :=
  (e.2.2.inputPassword, f.typed e.1 e.2.1) ::
    if f.ticked e.1 e.2.1 then [(e.2.2.inputNameDel, "on".toList)] else []

/-- The form as it is sent. -/
def EditForm.sent (f : EditForm) : Sent :=
  f.entries.flatMap f.fields ++
    [("SubmitCredUpdName".toList, "Update / delete credential".toList)]

/-- The credentials in the file after a process has read the form. -/
def EditForm.written (f : EditForm) : Document :=
  buildCredDocument (updatedCredMapOf f.sent (start (some f.document)))

/-- The passwords that are typed into the fields of one name, without the empty ones. -/
def EditForm.typedInto (f : EditForm) (credPrefix : Text) : List Text :=
  (f.entries.filter fun e => e.2.2.inputPassword = credPrefix ++ "_UPDATE_PASSWORD".toList &&
    f.typed e.1 e.2.1 ≠ []).map fun e => f.typed e.1 e.2.1

theorem mem_entries {f : EditForm} {e : Text × Text × FormCred} : e ∈ f.entries ↔
    ∃ cred, f.document.find? e.1 e.2.1 = some cred ∧ e.2.2 = formCred e.1 e.2.1 cred := by
  have hget {ν : Type} {d : Dict Text ν} {k : Text} (h : k ∈ sortedKeys d) :
      ∃ v, Dict.get? d k = some v :=
    Option.isSome_iff_exists.mp ((Dict.get?_isSome_iff d k).mpr (mem_sortedKeys.mp h))
  have hmem {ν : Type} {d : Dict Text ν} {k : Text} {v : ν} (h : Dict.get? d k = some v) :
      k ∈ sortedKeys d :=
    mem_sortedKeys.mpr ((Dict.get?_isSome_iff d k).mp (by rw [h]; rfl))
  obtain ⟨credType, credName, fc⟩ := e
  simp only [EditForm.entries, createCredentialsMap, List.mem_flatMap, List.mem_map, Prod.mk.injEq]
  constructor
  · rintro ⟨t, ⟨k, hk, rfl⟩, p, hp, rfl, rfl, rfl⟩
    obtain ⟨n, hn, rfl⟩ := List.mem_map.mp hp
    obtain ⟨names, hnames⟩ := hget hk
    simp only [hnames, Option.getD_some] at hn ⊢
    obtain ⟨cred, hcred⟩ := hget hn
    refine ⟨cred, ?_, by rw [hcred]; rfl⟩
    rw [Document.find?, namesOf, hnames]
    exact hcred
  · rintro ⟨cred, hfind, rfl⟩
    rw [Document.find?, namesOf, Option.bind_map] at hfind
    obtain ⟨names, hnames, hcred⟩ := Option.bind_eq_some_iff.mp hfind
    refine ⟨_, ⟨credType, hmem hnames, rfl⟩, (credName, formCred credType credName cred),
      List.mem_map.mpr ⟨credName, ?_, ?_⟩, rfl, rfl, rfl⟩
    · rw [hnames]
      exact hmem hcred
    · simp only [hnames, Option.getD_some]
      rw [show Dict.get? names credName = some cred from hcred]
      rfl

/-! ## What is read of the form -/

theorem has_submit (f : EditForm) : f.sent.has "SubmitCredUpdName".toList = true :=
  has_iff.mpr ⟨_, List.mem_append_right _ (List.mem_singleton_self _), by decide⟩

theorem inputNameDel_eq_iff {credType credName : Text} {cred : Credential}
    {credType' credName' : Text} {cred' : Credential} :
    (formCred credType credName cred).inputNameDel =
        (formCred credType' credName' cred').inputNameDel ↔
      credInputPrefix credType credName cred = credInputPrefix credType' credName' cred' :=
  List.append_left_inj _

/-- A delete box is found when one with its name is ticked. -/
theorem has_inputNameDel {f : EditForm} {credType credName : Text} {cred : Credential} :
    f.sent.has (formCred credType credName cred).inputNameDel = true ↔
      ∃ credType' credName' cred', f.document.find? credType' credName' = some cred' ∧
        f.ticked credType' credName' = true ∧
        credInputPrefix credType' credName' cred' = credInputPrefix credType credName cred := by
  rw [has_iff]
  constructor
  · rintro ⟨v, hmem, -⟩
    obtain hmem | hmem := List.mem_append.mp hmem
    · obtain ⟨e, he, hfield⟩ := List.mem_flatMap.mp hmem
      obtain ⟨cred', hfind, hfc⟩ := mem_entries.mp he
      obtain hfield | hfield := List.mem_cons.mp hfield
      · have hpassword := isPasswordName_inputPassword e.1 e.2.1 cred'
        rw [← hfc, ← (Prod.mk.inj hfield).1, not_isPasswordName_inputNameDel] at hpassword
        cases hpassword
      · split at hfield
        · rename_i hticked
          have hname := (Prod.mk.inj (List.mem_singleton.mp hfield)).1
          rw [hfc] at hname
          exact ⟨e.1, e.2.1, cred', hfind, hticked, (inputNameDel_eq_iff.mp hname).symm⟩
        · cases hfield
    · have hlast : (formCred credType credName cred).inputNameDel.getLast? = some 'L' := by
        rw [formCred, List.getLast?_append_of_ne_nil _ (by decide)]
        rfl
      rw [(Prod.mk.inj (List.mem_singleton.mp hmem)).1] at hlast
      exact absurd hlast (by decide)
  · rintro ⟨credType', credName', cred', hfind, hticked, hprefix⟩
    refine ⟨"on".toList, List.mem_append_left _ (List.mem_flatMap.mpr ?_), by decide⟩
    refine ⟨(credType', credName', formCred credType' credName' cred'),
      mem_entries.mpr ⟨cred', hfind, rfl⟩, List.mem_cons_of_mem _ ?_⟩
    rw [if_pos hticked, ← inputNameDel_eq_iff.mpr hprefix]
    exact List.mem_singleton_self _

theorem flatMap_eq_map_filter {α β : Type} {l : List α} {f : α → List β} {p : α → Bool} {g : α → β}
    (h : ∀ a ∈ l, f a = if p a then [g a] else []) : l.flatMap f = (l.filter p).map g := by
  induction l with
  | nil => rfl
  | cons a l ih =>
    rw [List.flatMap_cons, h a List.mem_cons_self, ih fun b hb => h b (List.mem_cons_of_mem a hb),
      List.filter_cons]
    split <;> rfl

/-- The values of a password field are what is typed into the fields of its name. -/
theorem getList_inputPassword (f : EditForm) (credType credName : Text) (cred : Credential) :
    f.sent.getList (formCred credType credName cred).inputPassword =
      f.typedInto (credInputPrefix credType credName cred) := by
  have hother {n v : Text} (hn : isPasswordName n = false) (sent : Sent) :
      Sent.getList ((n, v) :: sent) (formCred credType credName cred).inputPassword =
        sent.getList (formCred credType credName cred).inputPassword := by
    refine getList_of_ne ?_ sent
    rintro rfl
    rw [isPasswordName_inputPassword] at hn
    cases hn
  rw [EditForm.sent, getList_append, getList_flatMap,
    hother (not_isPasswordName (c := 'e') rfl (by decide)), EditForm.typedInto]
  refine (List.append_nil _).trans (flatMap_eq_map_filter fun e he => ?_)
  obtain ⟨cred', -, hfc⟩ := mem_entries.mp he
  have hbox : Sent.getList (if f.ticked e.1 e.2.1 then [(e.2.2.inputNameDel, "on".toList)] else [])
      (formCred credType credName cred).inputPassword = [] := by
    split
    · rw [hother (by rw [hfc]; exact not_isPasswordName_inputNameDel _ _ _)]
      rfl
    · rfl
  have hname : (formCred credType credName cred).inputPassword =
      credInputPrefix credType credName cred ++ "_UPDATE_PASSWORD".toList := rfl
  have hsingle (rest : Sent) : (e.2.2.inputPassword, f.typed e.1 e.2.1) :: rest =
      [(e.2.2.inputPassword, f.typed e.1 e.2.1)] ++ rest := rfl
  rw [EditForm.fields, hsingle, getList_append, hbox, List.append_nil, Sent.getList, hname,
    List.filter_cons]
  split <;> rfl

/-! ## What is written -/

/-- A credential that is not changed stays as it is. -/
theorem updatedCred_fst_of_snd {cgiArguments : CgiArguments} {cred : FormCred}
    (h : (updatedCred cgiArguments cred).2 = false) :
    (updatedCred cgiArguments cred).1 = some cred := by
  rw [updatedCred] at h ⊢
  split
  · rename_i hdel
    rw [if_pos hdel] at h
    cases h
  · rename_i hdel
    rw [if_neg hdel] at h
    cases hp : Dict.get? cgiArguments cred.inputPassword with
    | none => rfl
    | some p =>
      simp only [hp] at h ⊢
      split
      · rename_i hne
        rw [if_pos hne] at h
        cases h
      · rfl

theorem namesOf_writtenDocument_of_none {d : Document} {credType credName : Text}
    (h : d.find? credType credName = none) (cgiArguments : CgiArguments) :
    Document.find? (writtenDocument cgiArguments d) credType credName = none := by
  rw [Document.find?, namesOf] at h
  rw [Document.find?, namesOf, writtenDocument, updatedMap, Dict.get?_mapVals, Dict.get?_mapVals,
    get?_createCredentialsMap]
  cases hnames : Dict.get? d credType with
  | none => rfl
  | some names =>
    rw [hnames] at h
    have hmem : credName ∉ sortedKeys names := fun hm =>
      (Dict.get?_eq_none_iff names credName).mp h (mem_sortedKeys.mp hm)
    simp only [Option.map_some, Option.bind_some, Dict.get?_mapVals]
    rw [get?_filterMap_keys (fun credName => formCred credType credName
      ((Dict.get? names credName).getD ([], []))) fun cred => (updatedCred cgiArguments cred).1,
      if_neg hmem]
    rfl

/-- A credential in the file is what the form makes of it, whether anything changed or not. -/
theorem find?_written (f : EditForm) (credType credName : Text) :
    f.written.find? credType credName =
      (f.document.find? credType credName).bind fun cred =>
        (updatedCredOf f.sent (formCred credType credName cred)).1.map
          fun cred => (cred.user, cred.password) := by
  have hsubmit : (Dict.get? (seenArguments f.sent) "SubmitCredUpdName".toList).isSome := by
    rw [get?_seenArguments, seenValue, not_isPasswordName (c := 'e') rfl (by decide), has_submit]
    rfl
  have hdoc : (credDocument (start (some f.document))).1 = f.document := rfl
  rw [EditForm.written, updatedCredMapOf_eq]
  by_cases hch : Changes (start (some f.document)) (.updatedCredMap (seenArguments f.sent))
  · rw [updatedCredMap_of_changes hch, hdoc]
    cases hfind : f.document.find? credType credName with
    | none => exact namesOf_writtenDocument_of_none hfind _
    | some cred =>
      rw [Document.find?, namesOf, Option.bind_map] at hfind
      obtain ⟨names, hnames, hcred⟩ := Option.bind_eq_some_iff.mp hfind
      rw [Option.bind_some, ← updatedCred_seenArguments]
      exact namesOf_writtenDocument hnames hcred _
  · rw [updatedCredMap_of_not_changes hch]
    change f.document.find? credType credName = _
    cases hfind : f.document.find? credType credName with
    | none => rfl
    | some cred =>
      rw [changes_iff, hdoc, not_and] at hch
      have hsame := hch hsubmit
      rw [wasChanged_iff] at hsame
      rw [Document.find?, namesOf, Option.bind_map] at hfind
      obtain ⟨names, hnames, hcred⟩ := Option.bind_eq_some_iff.mp hfind
      have hsnd :
          (updatedCred (seenArguments f.sent) (formCred credType credName cred)).2 = false := by
        rw [Bool.eq_false_iff]
        exact fun h => hsame ⟨credType, names, credName, cred, hnames, hcred, h⟩
      rw [Option.bind_some, ← updatedCred_seenArguments, updatedCred_fst_of_snd hsnd]
      rfl

/-! ## Main results -/

/-- What the form makes of a credential, by what is typed and ticked. -/
theorem updatedCredOf_sent (f : EditForm) (credType credName : Text) (cred : Credential) :
    (updatedCredOf f.sent (formCred credType credName cred)).1.map
        (fun cred => (cred.user, cred.password)) =
      if f.sent.has (formCred credType credName cred).inputNameDel then none
      else some (cred.1, (f.sent.value? (formCred credType credName cred).inputPassword).getD
        cred.2) := by
  rw [updatedCredOf]
  split
  · rfl
  · cases f.sent.value? (formCred credType credName cred).inputPassword with
    | none => rfl
    | some p =>
      simp only
      split
      · rfl
      · rename_i hsame
        rw [ne_eq, not_not] at hsame
        rw [hsame]
        rfl

theorem getD_value? (sent : Sent) (name old new : Text) :
    (sent.value? name).getD old = new ↔
      sent.getList name = [new] ∨ (sent.getList name).length ≠ 1 ∧ new = old := by
  rw [Sent.value?]
  match sent.getList name with
  | [] => simp [eq_comm]
  | [v] => simp
  | _ :: _ :: _ => simp [eq_comm]

/-- When a credential is written as its fields say. -/
theorem updated_eq_iff {f : EditForm} {credType credName : Text} {cred : Credential}
    (hfind : f.document.find? credType credName = some cred) :
    (updatedCredOf f.sent (formCred credType credName cred)).1.map
        (fun cred => (cred.user, cred.password)) =
      (if f.ticked credType credName then none
        else some (cred.1, f.typed credType credName)) ↔
    (f.ticked credType credName = false →
      (∀ credType' credName' cred', f.document.find? credType' credName' = some cred' →
        f.ticked credType' credName' = true →
        credInputPrefix credType' credName' cred' ≠ credInputPrefix credType credName cred) ∧
      (f.typedInto (credInputPrefix credType credName cred) = [f.typed credType credName] ∨
        (f.typedInto (credInputPrefix credType credName cred)).length ≠ 1 ∧
          f.typed credType credName = cred.2)) := by
  rw [updatedCredOf_sent]
  cases hticked : f.ticked credType credName with
  | true =>
    have hhas : f.sent.has (formCred credType credName cred).inputNameDel = true :=
      has_inputNameDel.mpr ⟨credType, credName, cred, hfind, hticked, rfl⟩
    simp [hhas]
  | false =>
    rw [if_neg Bool.false_ne_true, ← getList_inputPassword, ← getD_value?]
    by_cases hhas : f.sent.has (formCred credType credName cred).inputNameDel = true
    · rw [if_pos hhas]
      obtain ⟨credType', credName', cred', hfind', hticked', hprefix⟩ := has_inputNameDel.mp hhas
      refine ⟨fun h => (nomatch h), fun h => ?_⟩
      exact absurd hprefix ((h rfl).1 credType' credName' cred' hfind' hticked')
    · rw [if_neg hhas]
      have hno : ∀ credType' credName' cred', f.document.find? credType' credName' = some cred' →
          f.ticked credType' credName' = true →
          credInputPrefix credType' credName' cred' ≠ credInputPrefix credType credName cred :=
        fun credType' credName' cred' hf ht hp =>
          hhas (has_inputNameDel.mpr ⟨credType', credName', cred', hf, ht, hp⟩)
      constructor
      · intro h _
        exact ⟨hno, (Prod.mk.inj (Option.some.inj h)).2⟩
      · intro h
        rw [(h rfl).2]

/-- The file has the credentials whose box is not ticked, with the passwords of their fields, if and
only if no such credential has the prefix of one whose box is ticked, and its password is the
only one typed for its prefix, or it is the old one and there is not one such password. -/
theorem written_iff (f : EditForm) :
    (∀ credType credName, f.written.find? credType credName =
      (f.document.find? credType credName).bind fun cred =>
        if f.ticked credType credName then none
        else some (cred.1, f.typed credType credName)) ↔
      ∀ credType credName cred, f.document.find? credType credName = some cred →
        f.ticked credType credName = false →
        (∀ credType' credName' cred', f.document.find? credType' credName' = some cred' →
          f.ticked credType' credName' = true →
          credInputPrefix credType' credName' cred' ≠ credInputPrefix credType credName cred) ∧
        (f.typedInto (credInputPrefix credType credName cred) = [f.typed credType credName] ∨
          (f.typedInto (credInputPrefix credType credName cred)).length ≠ 1 ∧
            f.typed credType credName = cred.2) := by
  simp only [find?_written]
  constructor
  · intro h credType credName cred hfind
    have hc := h credType credName
    rw [hfind, Option.bind_some, Option.bind_some] at hc
    exact (updated_eq_iff hfind).mp hc
  · intro h credType credName
    cases hfind : f.document.find? credType credName with
    | none => rfl
    | some cred =>
      rw [Option.bind_some, Option.bind_some]
      exact (updated_eq_iff hfind).mpr (h credType credName cred hfind)

/-- Two credentials whose types and names give one prefix; the first one is deleted. -/
def sharedForm : EditForm where
  document := [(['A'], [("B_C".toList, (['u'], ['p']))]), ("A_B".toList, [(['C'], (['u'], ['q']))])]
  ticked := fun credType _ => credType = ['A']
  typed := fun credType _ => if credType = ['A'] then ['p'] else ['q']

/-- The box of one credential deletes the other one. -/
theorem sharedForm_deleted :
    sharedForm.document.find? "A_B".toList ['C'] = some (['u'], ['q']) ∧
      sharedForm.ticked "A_B".toList ['C'] = false ∧
      sharedForm.written.find? "A_B".toList ['C'] = none := by decide

end Survol.Credentials
