import Survol.Uris.Joining

/-!
# Connection strings of a data source

The connection string of a data source is a list of keys and values, separated by semicolons.
It becomes the value of a property of an object, where neither the semicolons nor the equal
signs may stand: the parts are joined by slashes, and a key and its value by a tilde. Decoding
puts the two separators back.

## Main definitions

* `mapRgxODBC` — the known keys, each with the expression of its values.
* `valueEncode`, `valueDecode` — a connection string, and the value of a property.
* `Part`, `connectString` — the parts of a connection string, and its text.
* `normalPairs` — the keys and the values without the blanks around the separators.

## Main results

* `valueEncode_connectString` — a connection string is encoded pair by pair.
-/

namespace Survol.Odbc

open PyText (Text splitOn splitOn_eq splitOn_of_not_mem splitOn_append_cons)
open Survol.Uris

/-! ## The known keys -/

/-- The expressions of the values. -/
inductive ValueRgx
  | trueFalse | user | password | hexa | number | alpha | anything
  | dataSource | database | db | driver | mode | server
  deriving DecidableEq

/-- The letters, digits and underscore of an expression, or any character beyond ASCII. -/
def isWordChar (c : Char) : Bool := c.isAlphanum || c == '_' || decide (128 ≤ c.toNat)

/-- Whether a text matches an expression as a whole. -/
def ValueRgx.fullMatch : ValueRgx → Text → Bool
  | .trueFalse, s => s.all fun c => c.isAlpha || c == '0' || c == '1'
  | .user, s => s ≠ [] && s.all isWordChar
  | .password, s => s ≠ [] && s.all (· != '\n')
  | .hexa, s => s ≠ [] && s.all fun c => c.isDigit || "abcdefABCDEF".toList.contains c
  | .number, s => s ≠ [] && s.all fun c => c.isDigit || decide (128 ≤ c.toNat)
  | .alpha, s => s ≠ [] && s.all Char.isAlpha
  | .anything, s => s ≠ [] && s.all (· != '=')
  | .dataSource, s => s ≠ [] && s.all fun c => c.isAlphanum || c == '_' || c == '/'
  | .database, s => s ≠ [] && s.all fun c => c.isAlphanum || " ._".toList.contains c
  | .db, s => s.all fun c => c.isAlphanum || c == '.' || c == '_'
  | .driver, s => s.head? = some '{' && s.tail.getLast? = some '}' &&
      s.tail.dropLast.all (· != '}')
  | .mode, s => s ≠ [] && s.all fun c => c.isAlpha || c == ' '
  | .server, s => s ≠ [] && s.all fun c => c.isAlphanum || "- ._\\".toList.contains c

/-- The keys, each with the expression of its values. -/
def mapRgxODBC : List (String × ValueRgx) :=
  [("ALLOWBATCH", .trueFalse), ("ALLOWUSERVARIABLES", .trueFalse),
   ("ALLOWZERODATETIME", .trueFalse), ("AUTOENLIST", .trueFalse),
   ("CACHESERVERPROPERTIES", .trueFalse), ("CACHETYPE", .alpha),
   ("CERTIFICATE STORE LOCATION", .user), ("CERTIFICATE THUMBPRINT", .hexa),
   ("CERTIFICATEFILE", .anything), ("CERTIFICATEPASSWORD", .password), ("CHARSET", .user),
   ("CHECKPARAMETERS", .trueFalse), ("COMMAND LOGGING", .trueFalse),
   ("CONNECTION ?LIFETIME", .number), ("CONNECTION TIMEOUT", .number),
   ("CONNECTIONRESET", .trueFalse), ("CONVERTZERODATETIME", .trueFalse),
   ("DATA SOURCE", .dataSource), ("DATABASE", .database), ("DB", .db),
   ("DBA PRIVILEGE", .anything), ("DBQ", .anything), ("DECR POOL SIZE", .number),
   ("DEFAULT COMMAND TIMEOUT", .number), ("DEFAULTTABLECACHEAGE", .number), ("DRIVER", .driver),
   ("DSN", .user), ("ENCRYPT", .trueFalse), ("EXCLUSIVE", .trueFalse),
   ("EXTENDEDANSISQL", .trueFalse), ("EXTENDED PROPERTIES", .anything), ("FILEDSN", .anything),
   ("IGNORE PREPARE", .trueFalse), ("INCR POOL SIZE", .number), ("INITIAL CATALOG", .anything),
   ("INTEGRATEDSECURITY", .trueFalse), ("JET OLEDB:DATABASE PASSWORD", .password),
   ("KEEPALIVE", .number), ("LOCALE IDENTIFIER", .number), ("LOAD BALANCING", .trueFalse),
   ("MAX POOL SIZE", .number), ("MIN POOL SIZE", .number), ("MAXIMUMPOOLSIZE", .number),
   ("MINIMUMPOOLSIZE", .number), ("MODE", .mode), ("ODBCKEY[12]", .anything),
   ("OLDGUIDS", .trueFalse), ("OLEDBKEY[12]", .anything), ("OPTION", .anything),
   ("OSAUTHENT", .trueFalse), ("PASSWORD", .password), ("PERSIST SECURITY INFO", .trueFalse),
   ("PIPENAME", .user), ("POOLING", .trueFalse), ("PORT", .number),
   ("PROCEDURECACHESIZE", .number), ("PROTOCOL", .user), ("PROVIDER", .database),
   ("PWD", .password), ("REMOTE SERVER", .anything), ("SERVER", .server),
   ("SHARED MEMORY NAME", .user), ("SOCKET", .anything), ("SQLSERVERMODE", .trueFalse),
   ("SSLCERT", .anything), ("SSLKEY", .anything), ("SSLMODE", .user), ("SSLVERIFY", .trueFalse),
   ("STMT", .anything), ("SYSTEMDB", .anything), ("TABLECACHE", .trueFalse),
   ("TRUSTED_CONNECTION", .trueFalse), ("UID", .user), ("USEAFFECTEDROWS", .trueFalse),
   ("USECOMPRESSION", .trueFalse), ("USER", .user), ("USER ID", .user),
   ("USEPERFORMANCEMONITOR", .trueFalse), ("USEPROCEDUREBODIES", .trueFalse),
   ("USEUSAGEADVISOR", .trueFalse)]

/-- The keys that are coded as passwords. -/
def odbcKeysConfidential : List Text :=
  (mapRgxODBC.filter fun r => r.2 = .password).map fun r => r.1.toList

/-- The keys whose values need not be encoded. -/
def odbcKeysUncoded : List Text :=
  (mapRgxODBC.filter fun r => r.2 ∈ [ValueRgx.alpha, .user, .trueFalse, .hexa, .number]).map
    fun r => r.1.toList

/-! ## Encoding and decoding -/

/-- The text without its leading blanks. -/
def trimLeft (s : Text) : Text := s.dropWhile (· = ' ')

/-- The text without its trailing blanks. -/
def trimRight (s : Text) : Text := s.rdropWhile (· = ' ')

/-- The texts without the blanks beside a separator: none stands before the first text, nor
after the last one. -/
def trimFrom (first : Bool) : List Text → List Text
  | [] => []
  | p :: ps => (let q := if first then p else trimLeft p
      if ps.isEmpty then q else trimRight q) :: trimFrom false ps

/-- The split of a text by a separator with any blanks around it. -/
def reSplit (c : Char) (s : Text) : List Text := trimFrom true (splitOn c s)

/-- A character as HTML shows it. -/
def escapeChar : Char → Text
  | '&' => "&amp;".toList
  | '<' => "&lt;".toList
  | '>' => "&gt;".toList
  | c => [c]

/-- `cgi.escape`. -/
def cgiEscape (s : Text) : Text := s.flatMap escapeChar

/-- The text in upper case, which changes the ASCII letters of a string of bytes only. -/
def upper (s : Text) : Text := s.map Char.toUpper

/-- The value of a key as it is encoded. -/
def encodedValue (aKeyWrd aVal : Text) : Text :=
  if aKeyWrd ∈ odbcKeysConfidential then cgiEscape aVal
  else if aKeyWrd ∉ odbcKeysUncoded then cgiEscape aVal
  else aVal

/-- The code of a key with its value, which must be two texts. -/
def keyValuePairEncode (kvPair : Text) : Option Text :=
  match reSplit '=' kvPair with
  | [aKeyWrd, aVal] => some (upper aKeyWrd ++ '~' :: encodedValue aKeyWrd aVal)
  | _ => none

/-- The value of a property made from a connection string. -/
def valueEncode (connectStrClear : Text) : Option Text :=
  ((reSplit ';' connectStrClear).mapM keyValuePairEncode).map (join ['/'])

/-- The inverse of the encoding of a value, which is not written yet. -/
def tokenLocalDecode (aVal : Text) : Text := aVal

/-- A part of a connection string, from its code. -/
def tokenDecode (aTok : Text) : Text :=
  match splitOn '~' aTok with
  | [aKeyWrd, aVal] => aKeyWrd ++ '=' ::
      (if aKeyWrd ∈ odbcKeysConfidential then tokenLocalDecode aVal
      else if aKeyWrd ∉ odbcKeysUncoded then tokenLocalDecode aVal
      else aVal)
  | _ => "Key=Cannot decode:".toList ++ aTok

/-- The connection string of the value of a property. -/
def valueDecode (connectStrCoded : Text) : Text :=
  join [';'] ((splitOn '/' connectStrCoded).map tokenDecode)

/-! ## The parts of a connection string -/

/-- A part of a connection string. -/
structure Part where
  /-- What stands before the first equal sign. -/
  key : Text
  /-- What stands after it. -/
  value : Text
  key_ok : '=' ∉ key ∧ ';' ∉ key
  value_ok : ';' ∉ value

namespace Part

/-- The text of a part. -/
def text (p : Part) : Text := p.key ++ '=' :: p.value

end Part

/-- The connection string with the given parts. -/
def connectString (parts : List Part) : Text := join [';'] (parts.map Part.text)

/-- The keys and the values without the blanks around the separators. -/
def pairsFrom (first : Bool) : List Part → List (Text × Text)
  | [] => []
  | p :: ps => (trimRight (if first then p.key else trimLeft p.key),
      trimLeft (if ps.isEmpty then p.value else trimRight p.value)) :: pairsFrom false ps

/-- The keys and the values of a connection string, without the blanks around separators. -/
def normalPairs (parts : List Part) : List (Text × Text) := pairsFrom true parts

/-- The code of a key and a value. -/
def encodePair (kv : Text × Text) : Option Text :=
  if '=' ∈ kv.2 then none else some (upper kv.1 ++ '~' :: encodedValue kv.1 kv.2)

/-! ## Splitting the text of the parts -/

@[simp] theorem trimLeft_nil : trimLeft [] = [] := rfl

theorem trimLeft_cons {c : Char} (h : c ≠ ' ') (s : Text) : trimLeft (c :: s) = c :: s :=
  List.dropWhile_cons_of_neg (by simpa using h)

theorem trimLeft_blank (s : Text) : trimLeft (' ' :: s) = trimLeft s :=
  List.dropWhile_cons_of_pos (by simp)

theorem trimRight_eq (s : Text) : trimRight s = (trimLeft s.reverse).reverse := rfl

/-- Trimming the left of a part trims its key. -/
theorem trimLeft_append_cons {c : Char} (h : c ≠ ' ') (k v : Text) :
    trimLeft (k ++ c :: v) = trimLeft k ++ c :: v := by
  induction k with
  | nil => exact trimLeft_cons h v
  | cons d k ih =>
    by_cases hd : d = ' '
    · subst hd
      rw [List.cons_append, trimLeft_blank, trimLeft_blank, ih]
    · rw [List.cons_append, trimLeft_cons hd, trimLeft_cons hd, List.cons_append]

/-- Trimming the right of a part trims its value. -/
theorem trimRight_append_cons {c : Char} (h : c ≠ ' ') (k v : Text) :
    trimRight (k ++ c :: v) = k ++ c :: trimRight v := by
  rw [trimRight_eq, trimRight_eq, List.reverse_append, List.reverse_cons, List.append_assoc,
    List.singleton_append, trimLeft_append_cons h]
  simp

theorem mem_trimLeft_iff {c : Char} (h : c ≠ ' ') (s : Text) : c ∈ trimLeft s ↔ c ∈ s := by
  induction s with
  | nil => simp
  | cons d s ih =>
    by_cases hd : d = ' '
    · subst hd
      rw [trimLeft_blank, ih]
      simp [h]
    · rw [trimLeft_cons hd]

theorem mem_trimRight_iff {c : Char} (h : c ≠ ' ') (s : Text) : c ∈ trimRight s ↔ c ∈ s := by
  rw [trimRight_eq, List.mem_reverse, mem_trimLeft_iff h, List.mem_reverse]

theorem mem_of_mem_trimLeft {c : Char} {s : Text} (h : c ∈ trimLeft s) : c ∈ s :=
  (List.dropWhile_sublist _).subset h

theorem mem_of_mem_trimRight {c : Char} {s : Text} (h : c ∈ trimRight s) : c ∈ s := by
  rw [trimRight_eq, List.mem_reverse] at h
  exact List.mem_reverse.mp (mem_of_mem_trimLeft h)

/-- The split of a key with its value: the value may be split further. -/
theorem keyValuePairEncode_append {k v : Text} (hk : '=' ∉ k) :
    keyValuePairEncode (k ++ '=' :: v) = encodePair (trimRight k, trimLeft v) := by
  rw [keyValuePairEncode, reSplit, splitOn_append_cons, splitOn_of_not_mem hk, encodePair]
  by_cases hv : '=' ∈ v
  · obtain ⟨a, b, rfl⟩ := List.append_of_mem hv
    rw [splitOn_append_cons, splitOn_eq '=' a, splitOn_eq '=' b,
      if_pos ((mem_trimLeft_iff (by decide) _).mpr hv)]
    cases (splitOn '=' a).tail <;> rfl
  · rw [splitOn_of_not_mem hv, if_neg fun h => hv (mem_of_mem_trimLeft h)]
    rfl

/-- The pieces of the text of the parts are encoded as the pairs are. -/
theorem mapM_trimFrom (first : Bool) (parts : List Part) :
    (trimFrom first (parts.map Part.text)).mapM keyValuePairEncode =
      (pairsFrom first parts).mapM encodePair := by
  induction parts generalizing first with
  | nil => rfl
  | cons p ps ih =>
    have hpiece : keyValuePairEncode
        (let q := if first then p.text else trimLeft p.text
          if (ps.map Part.text).isEmpty then q else trimRight q) =
        encodePair (trimRight (if first then p.key else trimLeft p.key),
          trimLeft (if ps.isEmpty then p.value else trimRight p.value)) := by
      rw [← keyValuePairEncode_append]
      · congr 1
        cases first <;> cases ps <;>
          simp [Part.text, trimLeft_append_cons, trimRight_append_cons]
      · cases first
        · exact fun h => p.key_ok.1 (mem_of_mem_trimLeft h)
        · exact p.key_ok.1
    rw [List.map_cons, trimFrom, pairsFrom, List.mapM_cons, List.mapM_cons, hpiece, ih]

theorem splitOn_connectString {parts : List Part} (h : parts ≠ []) :
    splitOn ';' (connectString parts) = parts.map Part.text := by
  refine splitOn_join_of_not_mem (by simpa using h) ?_
  intro w hw
  obtain ⟨p, -, rfl⟩ := List.mem_map.mp hw
  intro hm
  rcases List.mem_append.mp hm with hm | hm
  · exact p.key_ok.2 hm
  · exact p.value_ok ((List.mem_cons.mp hm).resolve_left (by decide))

/-- **A connection string is encoded pair by pair.** -/
theorem valueEncode_connectString {parts : List Part} (h : parts ≠ []) :
    valueEncode (connectString parts) =
      ((normalPairs parts).mapM encodePair).map (join ['/']) := by
  rw [valueEncode, reSplit, splitOn_connectString h, mapM_trimFrom, normalPairs]

/-! ## The normal pairs -/

theorem pairsFrom_ne_nil {parts : List Part} (h : parts ≠ []) (first : Bool) :
    pairsFrom first parts ≠ [] := by
  cases parts with
  | nil => exact absurd rfl h
  | cons p ps => simp [pairsFrom]

theorem mem_pairsFrom {parts : List Part} {first : Bool} {kv : Text × Text}
    (h : kv ∈ pairsFrom first parts) : ∃ p ∈ parts,
      (∀ c ∈ kv.1, c ∈ p.key) ∧ ∀ c ∈ kv.2, c ∈ p.value := by
  induction parts generalizing first with
  | nil => simp [pairsFrom] at h
  | cons p ps ih =>
    rw [pairsFrom, List.mem_cons] at h
    rcases h with rfl | h
    · refine ⟨p, List.mem_cons_self, ?_, ?_⟩
      · intro c hc
        have := mem_of_mem_trimRight hc
        split at this
        · exact this
        · exact mem_of_mem_trimLeft this
      · intro c hc
        have := mem_of_mem_trimLeft hc
        split at this
        · exact this
        · exact mem_of_mem_trimRight this
    · obtain ⟨q, hq, h⟩ := ih h
      exact ⟨q, List.mem_cons_of_mem p hq, h⟩

/-- The keys of the normal pairs have no separator of the connection string, and the values
have no semicolon. -/
theorem normalPairs_ok {parts : List Part} {kv : Text × Text} (h : kv ∈ normalPairs parts) :
    '=' ∉ kv.1 ∧ ';' ∉ kv.1 ∧ ';' ∉ kv.2 := by
  obtain ⟨p, -, hk, hv⟩ := mem_pairsFrom h
  exact ⟨fun h => p.key_ok.1 (hk _ h), fun h => p.key_ok.2 (hk _ h),
    fun h => p.value_ok (hv _ h)⟩

/-- No blank is meant: the other characters of the values are those of the normal pairs. -/
theorem exists_pairsFrom_iff {c : Char} (h : c ≠ ' ') (first : Bool) (parts : List Part) :
    (∃ kv ∈ pairsFrom first parts, c ∈ kv.2) ↔ ∃ p ∈ parts, c ∈ p.value := by
  induction parts generalizing first with
  | nil => simp [pairsFrom]
  | cons p ps ih =>
    simp only [pairsFrom, List.mem_cons, exists_eq_or_imp, ih, mem_trimLeft_iff h]
    split
    · rfl
    · rw [mem_trimRight_iff h]

/-! ## Upper case -/

theorem toNat_toUpper_of {c : Char} (h : 'a'.toNat ≤ c.toNat ∧ c.toNat ≤ 'z'.toNat) :
    c.toUpper.toNat = c.toNat - 32 := by
  have h' : 'a'.val ≤ c.val ∧ c.val ≤ 'z'.val := h
  have hup : c.toUpper = ⟨c.val + ('A'.val - 'a'.val), _⟩ := dif_pos h'
  rw [hup]
  change (c.val + ('A'.val - 'a'.val)).toNat = c.val.toNat - 32
  have h1 : 97 ≤ c.val.toNat := h.1
  have h2 : c.val.toNat ≤ 122 := h.2
  have h3 : ('A'.val - 'a'.val).toNat = 2 ^ 32 - 32 := by decide
  rw [UInt32.toNat_add, h3]
  omega

theorem toUpper_of_not {c : Char} (h : ¬ ('a'.toNat ≤ c.toNat ∧ c.toNat ≤ 'z'.toNat)) :
    c.toUpper = c := dif_neg h

/-- A character that is no letter is the upper case of itself only. -/
theorem toUpper_eq_iff {c d : Char} (h : d.toNat < 65 ∨ 122 < d.toNat) :
    c.toUpper = d ↔ c = d := by
  have ha : 'a'.toNat = 97 := rfl
  have hz : 'z'.toNat = 122 := rfl
  by_cases hc : 'a'.toNat ≤ c.toNat ∧ c.toNat ≤ 'z'.toNat
  · have hup := toNat_toUpper_of hc
    constructor
    · intro he
      rw [he] at hup
      omega
    · intro he
      rw [he] at hc
      omega
  · rw [toUpper_of_not hc]

/-- The upper case has no small letter. -/
theorem toUpper_ne {c d : Char} (h : 'a'.toNat ≤ d.toNat ∧ d.toNat ≤ 'z'.toNat) :
    c.toUpper ≠ d := by
  have ha : 'a'.toNat = 97 := rfl
  have hz : 'z'.toNat = 122 := rfl
  intro he
  by_cases hc : 'a'.toNat ≤ c.toNat ∧ c.toNat ≤ 'z'.toNat
  · have hup := toNat_toUpper_of hc
    rw [he] at hup
    omega
  · rw [toUpper_of_not hc] at he
    rw [he] at hc
    exact hc h

theorem mem_upper_iff {d : Char} (h : d.toNat < 65 ∨ 122 < d.toNat) (s : Text) :
    d ∈ upper s ↔ d ∈ s := by
  simp [upper, toUpper_eq_iff h]

theorem not_mem_upper {d : Char} (h : 'a'.toNat ≤ d.toNat ∧ d.toNat ≤ 'z'.toNat) (s : Text) :
    d ∉ upper s := by
  simp [upper, toUpper_ne h]

/-! ## Escapes -/

/-- The characters that are escaped. -/
def escaped : Text := "&<>".toList

theorem escapeChar_of_not_mem {c : Char} (h : c ∉ escaped) : escapeChar c = [c] := by
  unfold escapeChar
  split
  · exact absurd (by decide) h
  · exact absurd (by decide) h
  · exact absurd (by decide) h
  · rfl

theorem cgiEscape_eq_self {s : Text} (h : ∀ c ∈ escaped, c ∉ s) : cgiEscape s = s := by
  induction s with
  | nil => rfl
  | cons d s ih =>
    have hd : d ∉ escaped := fun he => h d he List.mem_cons_self
    rw [cgiEscape, List.flatMap_cons, escapeChar_of_not_mem hd]
    exact congrArg (d :: ·) (ih fun c hc hm => h c hc (List.mem_cons_of_mem d hm))

/-- The separators of the encoding are those of the value. -/
theorem mem_cgiEscape_iff {c : Char} (h : c ∉ "&<>;ampltg".toList) (s : Text) :
    c ∈ cgiEscape s ↔ c ∈ s := by
  have hchar (d : Char) : c ∈ escapeChar d ↔ c = d := by
    unfold escapeChar
    split
    all_goals grind
  simp [cgiEscape, hchar]

/-- An escape adds a semicolon. -/
theorem mem_semicolon_cgiEscape_iff {s : Text} (h : ';' ∉ s) :
    ';' ∈ cgiEscape s ↔ ∃ c ∈ escaped, c ∈ s := by
  constructor
  · intro hm
    by_contra hno
    rw [cgiEscape_eq_self fun c hc hs => hno ⟨c, hc, hs⟩] at hm
    exact h hm
  · rintro ⟨c, hc, hs⟩
    have hall : ∀ c ∈ escaped, ';' ∈ escapeChar c := by decide
    exact List.mem_flatMap.mpr ⟨c, hs, hall c hc⟩

end Survol.Odbc
