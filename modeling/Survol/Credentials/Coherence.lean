import Survol.Credentials.Documents

/-!
# The document in memory and the file

The document in memory is the content of the file until a form deletes a credential or changes a
password: this is written to the file only, and the next addition writes the old document back.

## Main definitions

* `Same` — two documents with the same credentials.
* `Coherent` — the document in memory is the content of the file.
* `Faithful` — a call after which the two agree, and which adds to the file what it adds.
* `Changes` — a form that deletes a credential or changes a password.

## Main results

* `faithful_iff` — in a coherent state, a call is faithful exactly if it changes nothing.
* `run_faithful_iff` — all calls of a run are faithful exactly if none of them changes anything.
-/

namespace Survol.Credentials

open PyText (Text)

/-- The credentials of a type. -/
def namesOf (d : Document) (credType : Text) : Option (Text → Option Credential) :=
  (Dict.get? d credType).map Dict.get?

/-- Two documents with the same types, and the same credentials in them. -/
def Same (d d' : Document) : Prop := ∀ credType, namesOf d credType = namesOf d' credType

/-- The document in memory is the content of the file. -/
def Coherent (s : Server) : Prop := Same (credDocument s).1 (buildCredDocument s)

/-- The credential that a call adds. -/
def Call.addition? : Call → Option (Text × Text × Credential)
  | .addCredential credType credName credUsr credPwd =>
    some (credType, credName, credUsr, credPwd)
  | .insertedCredMap cgiArguments => do
    let _ ← Dict.get? cgiArguments "SubmitCredAddName".toList
    let credType ← Dict.get? cgiArguments "credentials_add_type".toList
    let credName ← Dict.get? cgiArguments "credentials_add_name".toList
    let credUsr ← Dict.get? cgiArguments "credentials_add_usr".toList
    let credPwd ← Dict.get? cgiArguments "credentials_add_pwd".toList
    return (credType, credName, credUsr, credPwd)
  | _ => none

/-- After the call the document in memory is the content of the file, and an addition has
added its credential to the file, and nothing else. -/
def Faithful (upper : Text → Text) (s : Server) (c : Call) : Prop :=
  Coherent (step upper s c) ∧ ∀ a ∈ c.addition?,
    Same (buildCredDocument (step upper s c)) (added a.1 a.2.1 a.2.2 (buildCredDocument s))

/-- The form deletes a credential of the document or changes its password. -/
def Changes (s : Server) : Call → Prop
  | .updatedCredMap cgiArguments =>
    (Dict.get? cgiArguments "SubmitCredUpdName".toList).isSome ∧
    ∃ credType names credName cred, Dict.get? (credDocument s).1 credType = some names ∧
      Dict.get? names credName = some cred ∧
      ((Dict.get? cgiArguments (formCred credType credName cred).inputNameDel).isSome ∨
        ∃ p, Dict.get? cgiArguments (formCred credType credName cred).inputPassword = some p ∧
          p ≠ cred.2)
  | _ => False

/-! ## The document in memory -/

@[simp] theorem buildCredDocument_credDocument (s : Server) :
    buildCredDocument (credDocument s).2 = buildCredDocument s := by
  rw [credDocument]
  split <;> rfl

theorem credentials_credDocument (s : Server) :
    (credDocument s).2.credentials = some (credDocument s).1 := by
  rw [credDocument]
  split
  · assumption
  · rfl

theorem credDocument_of_some {s : Server} {d : Document} (h : s.credentials = some d)
    (hd : d ≠ []) : credDocument s = (d, s) := by
  cases d with
  | nil => exact absurd rfl hd
  | cons p d =>
    rw [credDocument]
    simp [h]

/-- Reading the document twice gives the same one. -/
theorem credDocument_credDocument (s : Server) :
    (credDocument (credDocument s).2).1 = (credDocument s).1 := by
  have hsome := credentials_credDocument s
  by_cases hd : (credDocument s).1 = []
  · rw [hd] at hsome
    rw [hd, credDocument, hsome]
    rw [credDocument] at hd
    split at hd
    · cases hd
    · simpa using hd
  · rw [credDocument_of_some hsome hd]

theorem coherent_credDocument_iff (s : Server) : Coherent (credDocument s).2 ↔ Coherent s := by
  rw [Coherent, Coherent, credDocument_credDocument, buildCredDocument_credDocument]

theorem getCredentials_snd (upper : Text → Text) (credType : Text) (credName : Option Text)
    (s : Server) : (getCredentials upper credType credName s).2 = (credDocument s).2 := by
  rcases hd : credDocument s with ⟨d, s'⟩
  simp only [getCredentials, hd]
  split
  · rfl
  · split
    · rfl
    · split <;> rfl

/-! ## Additions -/

theorem namesOf_added (credType credName : Text) (cred : Credential) (d : Document) (t : Text) :
    namesOf (added credType credName cred d) t = if credType = t then
      some fun n => if credName = n then some cred else (namesOf d credType).bind (· n)
    else namesOf d t := by
  rw [added, namesOf, namesOf, namesOf]
  cases hd : Dict.get? d credType with
  | none =>
    simp only [Dict.get?_set]
    split
    · simp only [Option.map_some, Option.map_none, Option.bind_none, Option.some.injEq]
      funext n
      rw [Dict.get?_cons, Dict.get?_nil]
    · rfl
  | some arrType =>
    simp only [Dict.get?_set]
    split
    · simp only [Option.map_some, Option.bind_some, Option.some.injEq]
      funext n
      rw [Dict.get?_set]
    · rfl

/-- The same addition to the same credentials. -/
theorem Same.added {d d' : Document} (h : Same d d') (credType credName : Text)
    (cred : Credential) : Same (added credType credName cred d) (added credType credName cred d') := by
  intro t
  rw [namesOf_added, namesOf_added, h t, h credType]

theorem added_ne_nil (credType credName : Text) (cred : Credential) (d : Document) :
    added credType credName cred d ≠ [] := by
  intro hnil
  have h := namesOf_added credType credName cred d credType
  rw [hnil, if_pos rfl] at h
  cases h

/-- An addition makes the document in memory the content of the file, and keeps nothing of the
file that was not in memory. -/
theorem addCredential_spec (credType credName credUsr credPwd : Text) (s : Server) :
    let d := added credType credName (credUsr, credPwd) (credDocument s).1
    (credDocument (addCredential credType credName credUsr credPwd s)).1 = d ∧
      buildCredDocument (addCredential credType credName credUsr credPwd s) = d := by
  refine ⟨?_, rfl⟩
  exact congrArg Prod.fst (credDocument_of_some (s := addCredential credType credName credUsr
    credPwd s) rfl (added_ne_nil _ _ _ _))

theorem addCredential_faithful {s : Server} (h : Coherent s) (credType credName credUsr
    credPwd : Text) : Coherent (addCredential credType credName credUsr credPwd s) ∧
      Same (buildCredDocument (addCredential credType credName credUsr credPwd s))
        (added credType credName (credUsr, credPwd) (buildCredDocument s)) := by
  obtain ⟨hmem, hfile⟩ := addCredential_spec credType credName credUsr credPwd s
  constructor
  · intro t
    rw [hmem, hfile]
  · rw [hfile]
    exact h.added credType credName (credUsr, credPwd)

/-! ## Deletions and new passwords -/

theorem mem_sortedKeys {ν : Type} {d : Dict Text ν} {k : Text} :
    k ∈ sortedKeys d ↔ k ∈ Dict.keys d := List.mem_insertionSort _

theorem get?_map_keys {ν : Type} (f : Text → ν) (l : List Text) (k : Text) :
    Dict.get? (l.map fun k => (k, f k)) k = if k ∈ l then some (f k) else none := by
  induction l with
  | nil => rfl
  | cons k₀ l ih =>
    rw [List.map_cons, Dict.get?_cons, ih]
    by_cases h : k₀ = k
    · simp [h]
    · simp [h, Ne.symm h]

theorem get?_filterMap_keys {ν μ : Type} (f : Text → ν) (g : ν → Option μ) (l : List Text)
    (k : Text) : Dict.get? ((l.map fun k => (k, f k)).filterMap fun p =>
      (g p.2).map fun m => (p.1, m)) k = if k ∈ l then g (f k) else none := by
  induction l with
  | nil => rfl
  | cons k₀ l ih =>
    rw [List.map_cons]
    by_cases h : k₀ = k
    · subst h
      cases hg : g (f k₀) with
      | none =>
        rw [List.filterMap_cons_none (by simp [hg]), ih]
        simp [hg]
      | some m =>
        rw [List.filterMap_cons_some (b := (k₀, m)) (by simp [hg]), Dict.get?_cons]
        simp
    · have hmem : k ∈ k₀ :: l ↔ k ∈ l := by simp [Ne.symm h]
      simp only [hmem]
      rw [← ih]
      cases hg : g (f k₀) with
      | none => rw [List.filterMap_cons_none (by simp [hg])]
      | some m =>
        rw [List.filterMap_cons_some (b := (k₀, m)) (by simp [hg]), Dict.get?_cons, if_neg h]

theorem updatedCred_snd_iff (cgiArguments : CgiArguments) (cred : FormCred) :
    (updatedCred cgiArguments cred).2 = true ↔
      (Dict.get? cgiArguments cred.inputNameDel).isSome ∨
        ∃ p, Dict.get? cgiArguments cred.inputPassword = some p ∧ p ≠ cred.password := by
  rw [updatedCred]
  split
  · simp_all
  · split
    · split <;> simp_all
    · simp_all

/-- What is changed is not written as it was. -/
theorem updatedCred_ne {cgiArguments : CgiArguments} {cred : FormCred}
    (h : (updatedCred cgiArguments cred).2 = true) :
    ((updatedCred cgiArguments cred).1.map fun cred => (cred.user, cred.password)) ≠
      some (cred.user, cred.password) := by
  rw [updatedCred] at h ⊢
  split
  · simp
  · rename_i hdel
    rw [if_neg hdel] at h
    cases hp : Dict.get? cgiArguments cred.inputPassword with
    | none => simp [hp] at h
    | some p =>
      simp only [hp] at h ⊢
      split
      · simpa using ‹p ≠ cred.password›
      · rename_i hsame
        rw [if_neg hsame] at h
        cases h

theorem get?_createCredentialsMap (d : Document) (credType : Text) :
    Dict.get? (createCredentialsMap d) credType = (Dict.get? d credType).map fun names =>
      (sortedKeys names).map fun credName =>
        (credName, formCred credType credName ((Dict.get? names credName).getD ([], []))) := by
  rw [createCredentialsMap, get?_map_keys]
  cases hd : Dict.get? d credType with
  | none => rw [if_neg fun h => (Dict.get?_eq_none_iff d credType).mp hd (mem_sortedKeys.mp h)]; rfl
  | some names =>
    rw [if_pos (mem_sortedKeys.mpr ((Dict.get?_isSome_iff d credType).mp (by rw [hd]; rfl)))]
    rfl

/-- The document that a form writes to the file. -/
def writtenDocument (cgiArguments : CgiArguments) (d : Document) : Document :=
  Dict.mapVals (Dict.mapVals fun cred => (cred.user, cred.password))
    (updatedMap cgiArguments (createCredentialsMap d)).1

/-- A credential is written as the form makes it. -/
theorem namesOf_writtenDocument {d : Document} {credType credName : Text}
    {names : Dict Text Credential} {cred : Credential} (hnames : Dict.get? d credType = some names)
    (hcred : Dict.get? names credName = some cred) (cgiArguments : CgiArguments) :
    (namesOf (writtenDocument cgiArguments d) credType).bind (· credName) =
      (updatedCred cgiArguments (formCred credType credName cred)).1.map
        fun cred => (cred.user, cred.password) := by
  have hmem : credName ∈ sortedKeys names :=
    mem_sortedKeys.mpr ((Dict.get?_isSome_iff names credName).mp (by rw [hcred]; rfl))
  rw [namesOf, writtenDocument, updatedMap, Dict.get?_mapVals, Dict.get?_mapVals,
    get?_createCredentialsMap, hnames]
  simp only [Option.map_some, Option.bind_some, Dict.get?_mapVals]
  rw [get?_filterMap_keys (fun credName => formCred credType credName
    ((Dict.get? names credName).getD ([], []))) fun cred => (updatedCred cgiArguments cred).1,
    if_pos hmem, hcred]
  rfl

theorem wasChanged_iff (cgiArguments : CgiArguments) (d : Document) :
    (updatedMap cgiArguments (createCredentialsMap d)).2 = true ↔
      ∃ credType names credName cred, Dict.get? d credType = some names ∧
        Dict.get? names credName = some cred ∧
        (updatedCred cgiArguments (formCred credType credName cred)).2 = true := by
  have hget {ν : Type} {d : Dict Text ν} {k : Text} (h : k ∈ sortedKeys d) :
      ∃ v, Dict.get? d k = some v :=
    Option.isSome_iff_exists.mp ((Dict.get?_isSome_iff d k).mpr (mem_sortedKeys.mp h))
  have hmem {ν : Type} {d : Dict Text ν} {k : Text} {v : ν} (h : Dict.get? d k = some v) :
      k ∈ sortedKeys d :=
    mem_sortedKeys.mpr ((Dict.get?_isSome_iff d k).mp (by rw [h]; rfl))
  simp only [updatedMap, createCredentialsMap, List.any_map, List.any_eq_true, Function.comp]
  constructor
  · rintro ⟨credType, ht, credName, hn, h⟩
    obtain ⟨names, hnames⟩ := hget ht
    rw [hnames] at hn h
    obtain ⟨cred, hcred⟩ := hget hn
    simp only [Option.getD_some] at h hcred
    rw [hcred] at h
    exact ⟨credType, names, credName, cred, hnames, hcred, h⟩
  · rintro ⟨credType, names, credName, cred, hnames, hcred, h⟩
    refine ⟨credType, hmem hnames, credName, ?_, ?_⟩
    · rw [hnames]
      exact hmem hcred
    · rw [hnames]
      simp only [Option.getD_some]
      rw [hcred]
      exact h

theorem changes_iff (cgiArguments : CgiArguments) (s : Server) :
    Changes s (.updatedCredMap cgiArguments) ↔
      (Dict.get? cgiArguments "SubmitCredUpdName".toList).isSome ∧
        (updatedMap cgiArguments (createCredentialsMap (credDocument s).1)).2 = true := by
  rw [wasChanged_iff]
  simp only [updatedCred_snd_iff]
  rfl

theorem updatedCredMap_of_not_changes {cgiArguments : CgiArguments} {s : Server}
    (h : ¬ Changes s (.updatedCredMap cgiArguments)) :
    updatedCredMap cgiArguments s = (credDocument s).2 := by
  rw [changes_iff, not_and] at h
  rcases hd : credDocument s with ⟨d, s'⟩
  rw [hd] at h
  simp only [updatedCredMap, hd]
  split
  · rename_i hsubmit
    rw [if_neg (h hsubmit)]
  · rfl

theorem updatedCredMap_of_changes {cgiArguments : CgiArguments} {s : Server}
    (h : Changes s (.updatedCredMap cgiArguments)) : updatedCredMap cgiArguments s =
      dumpToFile (writtenDocument cgiArguments (credDocument s).1) (credDocument s).2 := by
  rw [changes_iff] at h
  rcases hd : credDocument s with ⟨d, s'⟩
  rw [hd] at h
  simp only [updatedCredMap, hd]
  rw [if_pos h.1, if_pos h.2]
  rfl

/-- A change is written to the file, and not made in memory. -/
theorem not_coherent_of_changes {cgiArguments : CgiArguments} {s : Server}
    (h : Changes s (.updatedCredMap cgiArguments)) : ¬ Coherent (updatedCredMap cgiArguments s) := by
  rw [updatedCredMap_of_changes h]
  obtain ⟨-, hchanged⟩ := (changes_iff cgiArguments s).mp h
  obtain ⟨credType, names, credName, cred, hnames, hcred, hupd⟩ :=
    (wasChanged_iff cgiArguments _).mp hchanged
  have hne : (credDocument s).1 ≠ [] := by
    intro hnil
    rw [hnil] at hnames
    cases hnames
  have hread : credDocument (dumpToFile (writtenDocument cgiArguments (credDocument s).1)
      (credDocument s).2) = ((credDocument s).1, _) :=
    credDocument_of_some (credentials_credDocument s) hne
  have hmem := congrArg Prod.fst hread
  intro hcoh
  have hsame := congrArg (fun names => names.bind (· credName)) (hcoh credType)
  rw [hmem] at hsame
  change _ = (namesOf (writtenDocument cgiArguments (credDocument s).1) credType).bind
    (· credName) at hsame
  rw [namesOf_writtenDocument hnames hcred, namesOf, hnames] at hsame
  simp only [Option.map_some, Option.bind_some, hcred] at hsame
  exact updatedCred_ne hupd hsame.symm

/-! ## Every call, and every run -/

theorem insertedCredMap_eq (cgiArguments : CgiArguments) (s : Server) :
    insertedCredMap cgiArguments s = match (Call.insertedCredMap cgiArguments).addition? with
      | some (credType, credName, credUsr, credPwd) =>
        addCredential credType credName credUsr credPwd s
      | none => s := by
  simp only [insertedCredMap, Call.addition?]
  cases Dict.get? cgiArguments "SubmitCredAddName".toList <;>
  cases Dict.get? cgiArguments "credentials_add_type".toList <;>
  cases Dict.get? cgiArguments "credentials_add_name".toList <;>
  cases Dict.get? cgiArguments "credentials_add_usr".toList <;>
  cases Dict.get? cgiArguments "credentials_add_pwd".toList <;> rfl

/-- **In a coherent state, a call is faithful exactly if it changes nothing.** -/
theorem faithful_iff (upper : Text → Text) {s : Server} (h : Coherent s) (c : Call) :
    Faithful upper s c ↔ ¬ Changes s c := by
  cases c with
  | getCredentials credType credName =>
    simpa [Faithful, step, Call.addition?, Changes, getCredentials_snd,
      coherent_credDocument_iff] using h
  | addCredential credType credName credUsr credPwd =>
    have hadd := addCredential_faithful h credType credName credUsr credPwd
    simpa [Faithful, step, Call.addition?, Changes] using hadd
  | insertedCredMap cgiArguments =>
    rw [Faithful, step, insertedCredMap_eq]
    cases ha : (Call.insertedCredMap cgiArguments).addition? with
    | none => simpa [Changes] using h
    | some a =>
      have hadd := addCredential_faithful h a.1 a.2.1 a.2.2.1 a.2.2.2
      simpa [Changes] using hadd
  | updatedCredMap cgiArguments =>
    constructor
    · intro hf hc
      exact not_coherent_of_changes hc hf.1
    · intro hc
      refine ⟨?_, by simp [Call.addition?]⟩
      rw [step, updatedCredMap_of_not_changes hc, coherent_credDocument_iff]
      exact h

/-- A property of all calls of a run, each in the state it is made in. -/
def Along (upper : Text → Text) (P : Server → Call → Prop) : Server → List Call → Prop
  | _, [] => True
  | s, c :: calls => P s c ∧ Along upper P (step upper s c) calls

theorem along_faithful_iff (upper : Text → Text) {s : Server} (h : Coherent s)
    (calls : List Call) : Along upper (Faithful upper) s calls ↔
      Along upper (fun s c => ¬ Changes s c) s calls := by
  induction calls generalizing s with
  | nil => exact Iff.rfl
  | cons c calls ih =>
    rw [Along, Along, faithful_iff upper h]
    refine and_congr_right fun hc => ih ?_
    exact ((faithful_iff upper h c).mpr hc).1

theorem coherent_start (file : Option Document) : Coherent (start file) := fun _ => rfl

/-- **In the runs of a server process, memory and file stay the same document, and additions
add to the file, exactly as long as no form deletes a credential or changes a password.** -/
theorem run_faithful_iff (upper : Text → Text) (file : Option Document) (calls : List Call) :
    Along upper (Faithful upper) (start file) calls ↔
      Along upper (fun s c => ¬ Changes s c) (start file) calls :=
  along_faithful_iff upper (coherent_start file) calls

/-- The login of `me` on the machine `host`. -/
def loginFile : Document := [("Login".toList, [("host".toList, ("me".toList, "old".toList))])]

/-- The form that deletes it. -/
def deleteLogin : CgiArguments :=
  [("SubmitCredUpdName".toList, []), ("Login_host_me_DELETE_CREDENTIAL".toList, "on".toList)]

/-- After a deletion the credential is still in memory, for the next addition to write back. -/
theorem deletion_not_faithful : ¬ ∀ (file : Option Document) (calls : List Call),
    Along id (Faithful id) (start file) calls := by
  intro h
  have hrun := h (some loginFile) [.updatedCredMap deleteLogin,
    .addCredential "Oracle".toList "XE".toList "scott".toList "tiger".toList]
  have hcoh := hrun.1.1 "Login".toList
  have hnames := congrArg (fun names => names.bind (· "host".toList)) hcoh
  revert hnames
  decide

end Survol.Credentials
