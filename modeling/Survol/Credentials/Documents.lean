import Survol.Lib.Dict
import Survol.Lib.Text
import Mathlib.Data.Char
import Mathlib.Data.List.Lex
import Mathlib.Data.List.Sort

/-!
# The credentials of a server

The credentials are a file of users and passwords by type and name, which a server process reads
once into its memory. Adding a credential changes the document in memory and writes it to the
file. Deletions and new passwords are written to the file only, from a copy, and the document in
memory stays as it was.

## Main definitions

* `Server` — the file, and the document in memory.
* `credDocument`, `getCredentials`, `addCredential`, `updatesCredentials` — the operations.
* `createCredentialsMap`, `insertedCredMap`, `updatedCredMap` — the forms of the edition page.
* `Call`, `step` — the calls of a server process.
-/

namespace Survol.Credentials

open PyText (Text)

/-- A user and a password. -/
abbrev Credential := Text × Text

/-- The credentials, by type and name. -/
abbrev Document := Dict Text (Dict Text Credential)

/-- The file, if it can be read, and the document of `CredDocument`. -/
structure Server where
  file : Option Document
  credentials : Option Document

/-- A server process that has not read its file yet. -/
def start (file : Option Document) : Server := ⟨file, none⟩

/-! ## The document -/

/-- The content of the file, empty if it cannot be read. -/
def buildCredDocument (s : Server) : Document := s.file.getD []

/-- The document in memory, which is read from the file as long as it is empty. -/
def credDocument (s : Server) : Document × Server :=
  match s.credentials with
  | some (p :: d) => (p :: d, s)
  | _ => (buildCredDocument s, { s with credentials := some (buildCredDocument s) })

/-- The user and the password of a name, which may be found in upper case. -/
def getCredentials (upper : Text → Text) (credType : Text) (credName : Option Text)
    (s : Server) : Option Credential × Server :=
  let name := credName.getD []
  let (credentials, s) := credDocument s
  if credentials.isEmpty then (some ([], []), s)
  else match Dict.get? credentials credType with
    | none => (none, s)
    | some arrType =>
      match Dict.get? arrType name with
      | some cred => (some cred, s)
      | none =>
        let arrTypeUpper : Dict Text Credential :=
          arrType.foldl (fun d p => Dict.set d (upper p.1) p.2) []
        (some ((Dict.get? arrTypeUpper (upper name)).getD ([], [])), s)

/-- The document is written to the file. -/
def dumpToFile (credDict : Document) (s : Server) : Server := { s with file := some credDict }

/-- The document with a credential more. -/
def added (credType credName : Text) (cred : Credential) (d : Document) : Document :=
  match Dict.get? d credType with
  | some arrType => Dict.set d credType (Dict.set arrType credName cred)
  | none => Dict.set d credType [(credName, cred)]

/-- A credential is added to the document in memory, which is written to the file. -/
def addCredential (credType credName credUsr credPwd : Text) (s : Server) : Server :=
  let (credDict, s) := credDocument s
  let credDict := added credType credName (credUsr, credPwd) credDict
  dumpToFile credDict { s with credentials := some credDict }

/-! ## The forms -/

/-- A credential of the form: the user, the password, and the names of its two inputs. -/
structure FormCred where
  user : Text
  password : Text
  inputPassword : Text
  inputNameDel : Text
  deriving DecidableEq

/-- The fields of the form that was sent. -/
abbrev CgiArguments := Dict Text Text

/-- The inputs of a credential. -/
def formCred (credType credName : Text) (cred : Credential) : FormCred :=
  let credInputPrefix := credType ++ '_' :: credName ++ '_' :: cred.1
  ⟨cred.1, cred.2, credInputPrefix ++ "_UPDATE_PASSWORD".toList,
    credInputPrefix ++ "_DELETE_CREDENTIAL".toList⟩

/-- The keys in sorted order. -/
def sortedKeys {ν : Type} (d : Dict Text ν) : List Text := (Dict.keys d).insertionSort (· ≤ ·)

/-- The credentials with their inputs; the document is the same at all its reads. -/
def createCredentialsMap (credentials : Document) : Dict Text (Dict Text FormCred) :=
  (sortedKeys credentials).map fun credType =>
    let names := (Dict.get? credentials credType).getD []
    (credType, (sortedKeys names).map fun credName =>
      (credName, formCred credType credName ((Dict.get? names credName).getD ([], []))))

/-- Only the user and the password of each credential are written. -/
def updatesCredentials (credMapOut : Dict Text (Dict Text FormCred)) (s : Server) : Server :=
  dumpToFile (Dict.mapVals (Dict.mapVals fun cred => (cred.user, cred.password)) credMapOut) s

/-- A form that inserts a credential. -/
def insertedCredMap (cgiArguments : CgiArguments) (s : Server) : Server :=
  match Dict.get? cgiArguments "SubmitCredAddName".toList,
    Dict.get? cgiArguments "credentials_add_type".toList,
    Dict.get? cgiArguments "credentials_add_name".toList,
    Dict.get? cgiArguments "credentials_add_usr".toList,
    Dict.get? cgiArguments "credentials_add_pwd".toList with
  | some _, some credType, some credName, some credUsr, some credPwd =>
    addCredential credType credName credUsr credPwd s
  | _, _, _, _, _ => s

/-- What the form makes of a credential: nothing if it is deleted, and whether it changed. -/
def updatedCred (cgiArguments : CgiArguments) (cred : FormCred) : Option FormCred × Bool :=
  if (Dict.get? cgiArguments cred.inputNameDel).isSome then (none, true)
  else match Dict.get? cgiArguments cred.inputPassword with
    | some updPassword =>
      if updPassword ≠ cred.password then (some { cred with password := updPassword }, true)
      else (some cred, false)
    | none => (some cred, false)

/-- The credentials that stay, and whether anything changed. -/
def updatedMap (cgiArguments : CgiArguments) (credMap : Dict Text (Dict Text FormCred)) :
    Dict Text (Dict Text FormCred) × Bool :=
  (Dict.mapVals (fun credNams => credNams.filterMap fun p =>
      (updatedCred cgiArguments p.2).1.map fun cred => (p.1, cred)) credMap,
    credMap.any fun t => t.2.any fun p => (updatedCred cgiArguments p.2).2)

/-- A form that changes passwords or deletes credentials. -/
def updatedCredMap (cgiArguments : CgiArguments) (s : Server) : Server :=
  let (credentials, s) := credDocument s
  let credMap := createCredentialsMap credentials
  if (Dict.get? cgiArguments "SubmitCredUpdName".toList).isSome then
    let (credMapOut, wasChanged) := updatedMap cgiArguments credMap
    if wasChanged then updatesCredentials credMapOut s else s
  else s

/-! ## The calls of a server process -/

/-- A call. -/
inductive Call
  | getCredentials (credType : Text) (credName : Option Text)
  | addCredential (credType credName credUsr credPwd : Text)
  | insertedCredMap (cgiArguments : CgiArguments)
  | updatedCredMap (cgiArguments : CgiArguments)

/-- The server after a call. -/
def step (upper : Text → Text) (s : Server) : Call → Server
  | .getCredentials credType credName => (getCredentials upper credType credName s).2
  | .addCredential credType credName credUsr credPwd =>
    addCredential credType credName credUsr credPwd s
  | .insertedCredMap cgiArguments => insertedCredMap cgiArguments s
  | .updatedCredMap cgiArguments => updatedCredMap cgiArguments s

end Survol.Credentials
