import Survol.Lib.Dict
import Survol.Lib.Percent

/-!
# The monikers of objects

An object of a class is given by the values of the keys of its class, written one after
another, after the name of the class, in a URL. The decoder takes the class, the host and the
keys back.

## Main definitions

* `EntityClass` — a class with the keys of its ontology.
* `uriMake`, `fileUri` — the URL of an object.
* `parseXid` — the class, the moniker and the host of a text.
* `splitMoniker`, `entityIdToArray` — the values of a moniker.
-/

namespace Survol.Uris

open PyText (Text findIdx)
open Percent (quote unquote)

/-! ## Classes of characters -/

/-- The characters `[A-Z0-9a-z_]`. -/
def isKeyChar (c : Char) : Bool :=
  'A' ≤ c && c ≤ 'Z' || '0' ≤ c && c ≤ '9' || 'a' ≤ c && c ≤ 'z' || c = '_'

/-- The characters `[a-zA-Z_]`, which a class begins with. -/
def isClassStart (c : Char) : Bool := 'a' ≤ c && c ≤ 'z' || 'A' ≤ c && c ≤ 'Z' || c = '_'

/-- The characters `[a-z0-9A-Z_/]` of a class. -/
def isClassChar (c : Char) : Bool := isKeyChar c || c = '/'

/-- The characters `[-0-9A-Za-z_]` of a host. -/
def isHostChar (c : Char) : Bool := isKeyChar c || c = '-'

/-- The characters `[-0-9A-Za-z_\.]` of a host and its domain. -/
def isDomainChar (c : Char) : Bool := isHostChar c || c = '.'

/-- What `.*` matches: the text up to the end of its line. -/
def firstLine (s : Text) : Text := s.takeWhile (· ≠ '\n')

/-- Whether a text matches `[a-zA-Z_][a-z0-9A-Z_/]*`. -/
def isClassName : Text → Bool
  | [] => false
  | c :: s => isClassStart c && s.all isClassChar

/-! ## URLs -/

/-- A class, with the keys of its ontology. -/
structure EntityClass where
  /-- The name, where slashes separate the directories. -/
  entityType : Text
  /-- The names of the keys. -/
  keys : List Text
  isClassName_entityType : isClassName entityType = true
  isKey_keys : ∀ k ∈ keys, k ≠ [] ∧ k.all isKeyChar = true

/-- The class of the files. -/
def cimDataFile : EntityClass where
  entityType := "CIM_DataFile".toList
  keys := ["Name".toList]
  isClassName_entityType := by decide
  isKey_keys := by decide

/-- The address of the server, which a URL begins with. -/
structure RootUrl where
  /-- The scheme, the host, and a directory. -/
  text : Text
  no_delimiter : ∀ c ∈ text, c ≠ '?' ∧ c ≠ '#' ∧ c ≠ '&' ∧ c ≠ '\n'

/-- The server of the machine itself. -/
def localRoot : RootUrl where
  text := "http://127.0.0.1:8000/survol".toList
  no_delimiter := by decide

/-- The characters of a number. -/
def natText (n : ℕ) : Text := Nat.toDigits 10 n

/-- The keys of `n` values: fake keys are appended when the class has not enough of them. -/
def keysFor (keys : List Text) (n : ℕ) : List Text :=
  if keys.length < n then
    keys ++ (List.range' keys.length (n - keys.length)).map fun idx =>
      "Key_".toList ++ natText idx
  else keys

/-- The text `separator.join(l)`. -/
def join (separator : Text) : List Text → Text
  | [] => []
  | [t] => t
  | t :: ts => t ++ separator ++ join separator ts

/-- The moniker of the values of an object: its key-value pairs. -/
def buildEntity (cls : EntityClass) (entityIdArr : List Text) : Text :=
  let d := ((keysFor cls.keys entityIdArr.length).zip entityIdArr).foldl
    (fun d p => Dict.set d p.1 p.2) ([] : Dict Text Text)
  join ",".toList (d.map fun p => p.1 ++ '=' :: p.2)

/-- The URL of a script, for an object. -/
def makeTheNodeFromScript (uriRoot : RootUrl) (path entityType entityId : Text) : Text :=
  uriRoot.text ++ path ++ "?xid=".toList ++ entityType ++ '.' :: entityId

/-- The URL of an object. -/
def makeTheNode (uriRoot : RootUrl) (entityType entityId : Text) : Text :=
  makeTheNodeFromScript uriRoot "/entity.py".toList entityType entityId

/-- The URL of the object of a class with some values. -/
def uriMake (uriRoot : RootUrl) (cls : EntityClass) (entityIdArr : List Text) : Text :=
  makeTheNode uriRoot cls.entityType (buildEntity cls entityIdArr)

/-- The text `s.replace("\\L", "\\\\L")`. -/
def escapeTable : Text → Text
  | '\\' :: 'L' :: s => '\\' :: '\\' :: 'L' :: escapeTable s
  | c :: s => c :: escapeTable s
  | [] => []

/-- The quoted form of a text. -/
def encodeUri (anStr : Text) : Text := quote (escapeTable anStr)

/-- The path with slashes. -/
def slashed (path : Text) : Text := path.map fun c => if c = '\\' then '/' else c

/-- The URL of a file. -/
def fileUri (uriRoot : RootUrl) (path : Text) : Text :=
  uriMake uriRoot cimDataFile [encodeUri (slashed path)]

/-! ## The class, the moniker and the host -/

/-- A class, a moniker and a host. -/
structure EntityTriplet where
  entityType : Text
  entityId : Text
  entityHost : Text
  deriving DecidableEq, Repr

/-- Whether a text matches `[-0-9A-Za-z_]*\\?[-0-9A-Za-z_\.]*`. -/
def isHost (s : Text) : Bool :=
  match s.dropWhile (· ≠ '\\') with
  | [] => s.all isDomainChar
  | _ :: domain => (s.takeWhile (· ≠ '\\')).all isHostChar && domain.all isDomainChar

/-- The match of `([a-zA-Z_][a-z0-9A-Z_/]*)\.(.*)`. -/
def matchClassId (s : Text) : Option (Text × Text) :=
  match s.dropWhile isClassChar with
  | '.' :: rest =>
    if isClassName (s.takeWhile isClassChar) then
      some (s.takeWhile isClassChar, firstLine rest)
    else none
  | _ => none

/-- The match of the optional host, then of the class and the moniker. -/
def matchLocal (xid : Text) : Option (Text × Text × Text) :=
  let withHost := match xid.dropWhile (· ≠ '@') with
    | _ :: rest =>
      if isHost (xid.takeWhile (· ≠ '@')) then
        (matchClassId rest).map fun (m : Text × Text) => (xid.takeWhile (· ≠ '@'), m.1, m.2)
      else none
    | [] => none
  withHost.orElse fun _ => (matchClassId xid).map fun (m : Text × Text) => ([], m.1, m.2)

/-- The triplet of a moniker of our own classes. -/
def parseXidLocal (xid : Text) : Option EntityTriplet :=
  (matchLocal xid).map fun (entityHost, entityType, entityIdQuoted) =>
    ⟨entityType, unquote entityIdQuoted, entityHost⟩

/-- The match of `([a-zA-Z0-9_]+)\\([^.]*)(\..*)`. -/
def matchWmiLocal (s : Text) : Option (Text × Text × Text) :=
  match s.takeWhile isKeyChar, s.dropWhile isKeyChar with
  | c :: ns, '\\' :: rest => match rest.dropWhile (· ≠ '.') with
    | '.' :: entityId => some (c :: ns, rest.takeWhile (· ≠ '.'), '.' :: firstLine entityId)
    | _ => none
  | _, _ => none

/-- The match of a host, then of a backslash and of the local part. -/
def matchWmiHost (s : Text) : Option (Text × Text × Text × Text) :=
  match s.dropWhile isDomainChar with
  | '\\' :: rest => (matchWmiLocal rest).map fun m => (s.takeWhile isDomainChar, m)
  | _ => none

/-- The triplet of a WMI moniker. -/
def parseXidWMI (xid : Text) : Option EntityTriplet :=
  let withHost := match xid with
    | '\\' :: '\\' :: '\\' :: s => (matchWmiHost s).orElse fun _ => matchWmiHost ('\\' :: s)
    | '\\' :: '\\' :: s => matchWmiHost s
    | _ => none
  let found := withHost.orElse fun _ => (matchWmiLocal xid).map fun m => ([], m)
  found.map fun (entityHost, ns, cls, entityIdQuoted) =>
    ⟨ns ++ '\\' :: cls, (unquote entityIdQuoted).drop 1, entityHost⟩

/-- The rest of a text after a text it begins with. -/
def after? (start s : Text) : Option Text :=
  if start.isPrefixOf s then some (s.drop start.length) else none

/-- The triplet of a WBEM moniker. -/
def parseXidWBEM (xid : Text) : Option EntityTriplet :=
  let scheme := if (after? "https://".toList xid).isSome then "https://".toList
    else "http://".toList
  (after? scheme xid).bind fun s =>
    match s.dropWhile (· ≠ '/') with
    | _ :: path =>
      let entityId := match path.dropWhile (· ≠ '.') with
        | '.' :: entityIdQuoted => (unquote ('.' :: firstLine entityIdQuoted)).drop 1
        | _ => []
      some ⟨path.takeWhile (· ≠ '.'), entityId, scheme ++ s.takeWhile (· ≠ '/')⟩
    | [] => none

/-- The triplet of a text: the empty one when it is not understood. -/
def parseXid (xid : Text) : EntityTriplet :=
  match parseXidLocal xid with
  | some entityTriplet => entityTriplet
  | none => ((parseXidWMI (unquote xid)).orElse fun _ => parseXidWBEM (unquote xid)).getD
    ⟨[], [], []⟩

/-! ## The values of a moniker -/

/-- The rest after the double quote that closes `"(?:\\.|[^"])*"`. -/
def afterQuote : Text → Option Text
  | [] => none
  | '"' :: s => some s
  | '\\' :: c :: s =>
    if c = '\n' then afterQuote (c :: s)
    else (afterQuote s).orElse fun _ => afterQuote (c :: s)
  | _ :: s => afterQuote s

/-- The rest after one repetition of `[^,"]|"(?:\\.|[^"])*"`. -/
def afterAtom : Text → Option Text
  | [] => none
  | ',' :: _ => none
  | '"' :: s => afterQuote s
  | _ :: s => some s

/-- The rest after at most `n` repetitions. -/
def afterAtoms : ℕ → Text → Text
  | 0, s => s
  | n + 1, s => match afterAtom s with
    | some rest => afterAtoms n rest
    | none => s

/-- The rest after the repetitions `(?:[^,"]|"(?:\\.|[^"])*")*`. -/
def afterWord (s : Text) : Text := afterAtoms s.length s

/-- The words that `findall` finds from at most `n` positions. -/
def findWords : ℕ → Text → List Text
  | 0, _ => []
  | _ + 1, [] => []
  | n + 1, c :: s =>
    let rest := afterWord (c :: s)
    if rest.length < (c :: s).length then
      (c :: s).take ((c :: s).length - rest.length) :: findWords n rest
    else findWords n s

/-- What `(.*)"` matches: the text before the last double quote of the line. -/
def beforeLastQuote (s : Text) : Option Text :=
  match (firstLine s).reverse.dropWhile (· ≠ '"') with
  | _ :: s' => some s'.reverse
  | [] => none

/-- The value after an equals sign: if there are quotes, they are dropped. -/
def valueOf (s : Text) : Text :=
  match s with
  | '"' :: s' => (beforeLastQuote s').getD (firstLine s)
  | _ => firstLine s

/-- The key and the value of a word. -/
def keyValue? (spltWrd : Text) : Option (Text × Text) :=
  match spltWrd.takeWhile isKeyChar, spltWrd.dropWhile isKeyChar with
  | c :: key, '=' :: s => some (c :: key, valueOf s)
  | _, _ => none

/-- The dictionary after a word. -/
def addWord (resu : Dict Text Text) (spltWrd : Text) : Dict Text Text :=
  match keyValue? spltWrd with
  | some (key, value) => Dict.set resu key value
  | none => resu

/-- The keys and the values of a moniker. -/
def splitMoniker (xid : Text) : Dict Text Text :=
  (findWords (xid.length + 1) xid).foldl addWord []

/-- The values of the keys of a class, if they are all there. -/
def entityIdToArray (cls : EntityClass) (entityId : Text) : Option (List Text) :=
  cls.keys.mapM fun aKey => Dict.get? (splitMoniker entityId) aKey

/-! ## The query of a URL -/

/-- The query of a URL: from its first question mark to its fragment. -/
def urlQuery (url : Text) : Text :=
  ((url.takeWhile (· ≠ '#')).dropWhile (· ≠ '?')).drop 1

/-- The text after `xid=` in a URL. -/
def xidText (url : Text) : Text := (urlQuery url).drop "xid=".length

/-! ## The texts of objects -/

/-- The text of a moniker: nothing, or a key, an equals sign, and more. -/
def IsMoniker (e : Text) : Prop :=
  e = [] ∨ ∃ k v, e = k ++ '=' :: v ∧ k.all isKeyChar = true

theorem isClassChar_of_isClassStart {c : Char} (h : isClassStart c = true) :
    isClassChar c = true := by
  simp only [isClassStart, isClassChar, isKeyChar, Bool.or_eq_true, Bool.and_eq_true,
    decide_eq_true_eq] at h ⊢
  tauto

theorem isClassChar_of_mem {s : Text} (h : isClassName s = true) {c : Char} (hc : c ∈ s) :
    isClassChar c = true := by
  match s, h, hc with
  | d :: s, h, hc =>
    obtain ⟨hd, hs⟩ := Bool.and_eq_true_iff.mp h
    obtain rfl | hc := List.mem_cons.mp hc
    · exact isClassChar_of_isClassStart hd
    · exact List.all_eq_true.mp hs c hc

theorem not_mem_of_isClassName {s : Text} (h : isClassName s = true) {c : Char}
    (hc : isClassChar c = false) : c ∉ s := by
  intro hm
  rw [isClassChar_of_mem h hm] at hc
  cases hc

theorem not_mem_of_all {p : Char → Bool} {s : Text} (h : s.all p = true) {c : Char}
    (hc : p c = false) : c ∉ s := by
  intro hm
  rw [List.all_eq_true.mp h c hm] at hc
  cases hc

theorem takeWhile_append_cons {p : Char → Bool} {x : Text} {c : Char} (h : ∀ d ∈ x, p d = true)
    (hc : p c = false) (y : Text) : (x ++ c :: y).takeWhile p = x := by
  rw [List.takeWhile_append_of_pos h, List.takeWhile_cons_of_neg (by simp [hc]), List.append_nil]

theorem dropWhile_append_cons {p : Char → Bool} {x : Text} {c : Char} (h : ∀ d ∈ x, p d = true)
    (hc : p c = false) (y : Text) : (x ++ c :: y).dropWhile p = c :: y := by
  rw [List.dropWhile_append_of_pos h, List.dropWhile_cons_of_neg (by simp [hc])]

/-- The characters of a text without `c` are not `c`. -/
theorem forall_ne_of_not_mem {x : Text} {c : Char} (h : c ∉ x) :
    ∀ d ∈ x, decide (d ≠ c) = true := by
  intro d hd
  have hne : d ≠ c := fun he => h (he ▸ hd)
  simpa using hne

theorem matchClassId_append {cls : Text} (h : isClassName cls = true) (r : Text) :
    matchClassId (cls ++ '.' :: r) = some (cls, firstLine r) := by
  rw [matchClassId, dropWhile_append_cons (fun c => isClassChar_of_mem h) (by decide),
    takeWhile_append_cons (fun c => isClassChar_of_mem h) (by decide)]
  exact if_pos h

theorem isHost_eq_false {s : Text} (h : '=' ∈ s) : isHost s = false := by
  by_contra hne
  have hs := Bool.of_not_eq_false hne
  rw [isHost] at hs
  split at hs
  · exact not_mem_of_all hs (by decide) h
  · rename_i b domain hd
    obtain ⟨ht, hdom⟩ := Bool.and_eq_true_iff.mp hs
    have hsplit := List.takeWhile_append_dropWhile (p := fun c => decide (c ≠ '\\')) (l := s)
    rw [← hsplit, hd] at h
    have hb : b = '\\' := by
      have hh := List.head?_dropWhile_not (fun c => decide (c ≠ '\\')) s
      rw [hd] at hh
      simpa using hh
    simp only [List.mem_append, List.mem_cons] at h
    obtain h | h | h := h
    · exact not_mem_of_all ht (by decide) h
    · rw [hb] at h
      cases h
    · exact not_mem_of_all hdom (by decide) h

theorem length_firstLine_le (s : Text) : (firstLine s).length ≤ s.length :=
  (List.takeWhile_prefix _).length_le

theorem firstLine_eq_self_iff {s : Text} : firstLine s = s ↔ '\n' ∉ s := by
  rw [firstLine, List.takeWhile_eq_self_iff]
  constructor
  · intro h hm
    have := h _ hm
    simp at this
  · intro h
    exact forall_ne_of_not_mem h

/-- **The class and the moniker of an object are parsed.** -/
theorem parseXid_append {cls : Text} (h : isClassName cls = true) {r : Text} (hr : IsMoniker r) :
    parseXid (cls ++ '.' :: r) = ⟨cls, unquote (firstLine r), []⟩ := by
  have hat : '@' ∉ cls := not_mem_of_isClassName h (by decide)
  have hmatch : matchLocal (cls ++ '.' :: r) = some ([], cls, firstLine r) := by
    rw [matchLocal, matchClassId_append h]
    split
    · rename_i b rest hd
      obtain rfl | ⟨k, v, rfl, hk⟩ := hr
      · have hno : ∀ c ∈ cls ++ ['.'], decide (c ≠ '@') = true := by
          intro c hc
          have hne : c ≠ '@' := by
            rintro rfl
            simp [hat] at hc
          simpa using hne
        rw [List.dropWhile_eq_nil_iff.mpr hno] at hd
        cases hd
      · have heq : '=' ∈ (cls ++ '.' :: (k ++ '=' :: v)).takeWhile (fun c => decide (c ≠ '@')) := by
          have hsplit : cls ++ '.' :: (k ++ '=' :: v) = (cls ++ '.' :: (k ++ ['='])) ++ v := by simp
          have hk' : '@' ∉ k := not_mem_of_all hk (by decide)
          have hno : ∀ c ∈ cls ++ '.' :: (k ++ ['=']), decide (c ≠ '@') = true := by
            intro c hc
            have hne : c ≠ '@' := by
              rintro rfl
              simp [hat, hk'] at hc
            simpa using hne
          rw [hsplit, List.takeWhile_append_of_pos hno]
          simp
        rw [isHost_eq_false heq]
        rfl
    · rfl
  rw [parseXid, parseXidLocal, hmatch]
  rfl

/-- The text of an object is in the query of its URL, up to the fragment. -/
theorem urlQuery_makeTheNode (uriRoot : RootUrl) {cls : Text} (h : isClassName cls = true)
    (e : Text) : urlQuery (makeTheNode uriRoot cls e) =
      "xid=".toList ++ (cls ++ '.' :: e.takeWhile (· ≠ '#')) := by
  have hscript : ∀ c ∈ "/entity.py".toList, c ≠ '?' ∧ c ≠ '#' := by decide
  have hxid : ∀ c ∈ "?xid=".toList, decide (c ≠ '#') = true := by decide
  have hroot : ∀ c ∈ uriRoot.text ++ "/entity.py".toList, c ≠ '?' ∧ c ≠ '#' := by
    intro c hc
    obtain hc | hc := List.mem_append.mp hc
    · exact ⟨(uriRoot.no_delimiter c hc).1, (uriRoot.no_delimiter c hc).2.1⟩
    · exact hscript c hc
  have hcls : '#' ∉ cls := not_mem_of_isClassName h (by decide)
  have htake : (makeTheNode uriRoot cls e).takeWhile (· ≠ '#') =
      uriRoot.text ++ "/entity.py".toList ++ '?' :: ("xid=".toList ++ cls ++
        '.' :: e.takeWhile (· ≠ '#')) := by
    have hno : ∀ c ∈ uriRoot.text ++ "/entity.py".toList ++ "?xid=".toList ++ cls ++ ['.'],
        decide (c ≠ '#') = true := by
      intro c hc
      simp only [List.mem_append, List.mem_singleton, or_assoc] at hc
      obtain hc | hc | hc | hc | hc := hc
      · simpa using (hroot c (List.mem_append_left _ hc)).2
      · simpa using (hroot c (List.mem_append_right _ hc)).2
      · exact hxid c hc
      · have : c ≠ '#' := fun he => hcls (he ▸ hc)
        simpa using this
      · subst hc
        decide
    have hsplit : makeTheNode uriRoot cls e =
        (uriRoot.text ++ "/entity.py".toList ++ "?xid=".toList ++ cls ++ ['.']) ++ e := by
      simp [makeTheNode, makeTheNodeFromScript]
    rw [hsplit, List.takeWhile_append_of_pos hno]
    simp
  rw [urlQuery, htake, dropWhile_append_cons _ (by decide), List.drop_one, List.tail_cons,
    List.append_assoc]
  intro c hc
  simpa using (hroot c hc).1

theorem xidText_makeTheNode (uriRoot : RootUrl) {cls : Text} (h : isClassName cls = true)
    (e : Text) : xidText (makeTheNode uriRoot cls e) = cls ++ '.' :: e.takeWhile (· ≠ '#') := by
  rw [xidText, urlQuery_makeTheNode uriRoot h]
  rfl

end Survol.Uris
