import Survol.Uris.FormXids

/-!
# The URLs of classes

The URL of a class is made of a moniker in one of three styles, percent-encoded as a whole.
Our own monikers are only recognized before the text is decoded, the monikers of WMI and WBEM
only after.

## Main definitions

* `buildWmiMoniker`, `buildWbemMoniker` — the monikers of WMI and WBEM classes.
* `entityUrlFromMoniker`, `entityClassUrl` — the URL of a class.
* `parseNamespaceType` — the namespace and the class of a type.
* `StyledClass`, `IsUrl` — a class in a style, and its URLs.
* `StyledClass.Readable` — the condition under which a URL of a class gives it back.
-/

namespace Survol.Uris

open PyText (Text splitOn splitOn_append)
open Percent (quote unquote isQuoted isUnreserved)

/-! ## The builders -/

/-- The moniker of a WMI class. -/
def buildWmiMoniker (hostnameWmi namespac classNam : Text) : Text :=
  '\\' :: '\\' :: (hostnameWmi ++ '\\' :: (namespac ++ ':' :: (classNam ++ ['.'])))

/-- The moniker of a WBEM class: the namespace may be missing. -/
def buildWbemMoniker (hostname namespac classNam : Text) : Text :=
  if namespac = [] then hostname ++ '/' :: (classNam ++ ['.'])
  else hostname ++ '/' :: (namespac ++ ':' :: (classNam ++ ['.']))

/-- The script of a moniker; `none` where indexing the empty text raises. -/
def entityScriptFromPath (monikerEntity : Text) (isClass isNamespace isHostname : Bool) :
    Option Text :=
  match monikerEntity with
  | [] => none
  | c :: _ =>
    let choose (wmi wbem own : String) : Text :=
      (if c = '\\' then wmi
      else if monikerEntity.take 4 = "http".toList then wbem else own).toList
    some (if isHostname then choose "namespaces_wmi.py" "namespaces_wbem.py" "entity.py"
      else if isNamespace then choose "objtypes_wmi.py" "objtypes_wbem.py" "objtypes.py"
      else if isClass then choose "class_wmi.py" "class_wbem.py" "class_type_all.py"
      else choose "entity_wmi.py" "entity_wbem.py" "entity.py")

/-- The URL of a moniker. -/
def entityUrlFromMoniker (uriRoot : RootUrl) (monikerEntity : Text)
    (isClass isNamespace isHostname : Bool) : Option Text :=
  (entityScriptFromPath monikerEntity isClass isNamespace isHostname).map fun scriptPath =>
    uriRoot.text ++ '/' :: scriptPath ++ "?xid=".toList ++ encodeUri monikerEntity

/-- The category of a class. -/
inductive Category where
  | wbem
  | wmi
  | other
  deriving DecidableEq, Repr

/-- The moniker of a class. -/
def monikerClass (entityType entityNamespace entityHost : Text) : Category → Text
  | .wbem => entityHost ++ '/' :: (entityNamespace ++ ':' :: (entityType ++ ['.']))
  | .wmi => '\\' :: '\\' :: (entityHost ++ '\\' :: (entityNamespace ++ ':' :: (entityType ++ ['.'])))
  | .other =>
    (if entityHost = [] then [] else entityHost ++ ['@']) ++
      (if entityNamespace = [] then [] else entityNamespace ++ "/:".toList) ++ entityType ++ ['.']

/-- The URL of a class. -/
def entityClassUrl (uriRoot : RootUrl) (entityType entityNamespace entityHost : Text)
    (category : Category) : Text :=
  uriRoot.text ++ "/class_type_all.py".toList ++ "?xid=".toList ++
    encodeUri (monikerClass entityType entityNamespace entityHost category)

/-- The namespace and the class of a type, and the type. -/
def parseNamespaceType (nsEntityType : Text) : Text × Text × Text :=
  match splitOn ':' nsEntityType with
  | entityNamespace :: entityType :: _ => (entityNamespace, entityType, nsEntityType)
  | [entityType] => ([], entityType, nsEntityType)
  | [] => ([], [], nsEntityType)

/-! ## Classes and their URLs -/

/-- A class in one of the three styles. -/
inductive StyledClass where
  /-- A WMI class, where the namespace is `root` and some parts. -/
  | wmi (hostname : Text) (parts : List Text) (classNam : Text)
  /-- A WBEM class, where the host is a scheme and an address. -/
  | wbem (secure : Bool) (address namespac classNam : Text)
  /-- A class of our own, where the host may be empty. -/
  | own (hostname entityType : Text)

/-- The parts of a namespace have no separator, an address no slash, and a class is a path. -/
def StyledClass.WellFormed : StyledClass → Prop
  | .wmi _ parts _ => ∀ part ∈ parts, '\\' ∉ part
  | .wbem _ address _ _ => '/' ∉ address
  | .own _ entityType => isClassName entityType = true

/-- The host of a class. -/
def StyledClass.hostname : StyledClass → Text
  | .wmi hostname _ _ => hostname
  | .wbem secure address _ _ => (if secure then "https://" else "http://").toList ++ address
  | .own hostname _ => hostname

/-- The namespace of a class. -/
def StyledClass.namespac : StyledClass → Text
  | .wmi _ parts _ => "root".toList ++ parts.flatMap fun part => '\\' :: part
  | .wbem _ _ namespac _ => namespac
  | .own _ _ => []

/-- The name of a class. -/
def StyledClass.name : StyledClass → Text
  | .wmi _ _ classNam => classNam
  | .wbem _ _ _ classNam => classNam
  | .own _ entityType => entityType

/-- The URLs of a class. -/
inductive IsUrl (uriRoot : RootUrl) : StyledClass → Text → Prop
  /-- The URL of a WMI moniker. -/
  | wmiMoniker (hostname : Text) (parts : List Text) (classNam url : Text) (b b' b'' : Bool)
    (h : entityUrlFromMoniker uriRoot (buildWmiMoniker hostname
      (StyledClass.wmi hostname parts classNam).namespac classNam) b b' b'' = some url) :
    IsUrl uriRoot (.wmi hostname parts classNam) url
  /-- The URL of a WMI class. -/
  | wmiClass (hostname : Text) (parts : List Text) (classNam : Text) :
    IsUrl uriRoot (.wmi hostname parts classNam) (entityClassUrl uriRoot classNam
      (StyledClass.wmi hostname parts classNam).namespac hostname .wmi)
  /-- The URL of a WBEM moniker. -/
  | wbemMoniker (secure : Bool) (address namespac classNam url : Text) (b b' b'' : Bool)
    (h : entityUrlFromMoniker uriRoot (buildWbemMoniker
      (StyledClass.wbem secure address namespac classNam).hostname namespac classNam) b b' b'' =
        some url) :
    IsUrl uriRoot (.wbem secure address namespac classNam) url
  /-- The URL of a WBEM class. -/
  | wbemClass (secure : Bool) (address namespac classNam : Text) :
    IsUrl uriRoot (.wbem secure address namespac classNam) (entityClassUrl uriRoot classNam
      namespac (StyledClass.wbem secure address namespac classNam).hostname .wbem)
  /-- The URL of a class of our own. -/
  | own (hostname entityType : Text) :
    IsUrl uriRoot (.own hostname entityType) (entityClassUrl uriRoot entityType [] hostname .other)

/-- A triplet has the host, the namespace and the name of a class, and no moniker. -/
def EntityTriplet.Names (r : EntityTriplet) (c : StyledClass) : Prop :=
  r.entityHost = c.hostname ∧ r.entityId = [] ∧
    (parseNamespaceType r.entityType).1 = c.namespac ∧
    (parseNamespaceType r.entityType).2.1 = c.name

/-- The text of a URL gives back a class. -/
def GivesBack (url : Text) (c : StyledClass) : Prop := (parseXid (xidText url)).Names c

/-! ## The condition -/

/-- The text `"\L"`, whose backslash is doubled by the encoding, does not occur. -/
def NoTable (s : Text) : Prop := ¬ "\\L".toList <:+: s

/-- A text without a dot or a colon. -/
def IsSimple (s : Text) : Prop := '.' ∉ s ∧ ':' ∉ s

/-- The first part is taken for the start of the namespace, when the host is missing. -/
def Shadowed : List Text → Prop
  | part :: _ :: _ => part ≠ [] ∧ part.all isKeyChar = true
  | _ => False

/-- The condition under which the URLs of a class give it back. -/
def StyledClass.Readable (c : StyledClass) : Prop :=
  match c with
  | .wmi hostname parts _ => hostname.all isDomainChar = true ∧ parts ≠ [] ∧
    (hostname = [] → ¬ Shadowed parts) ∧ IsSimple c.namespac ∧ IsSimple c.name ∧
    NoTable c.namespac ∧ NoTable c.name
  | .wbem _ _ _ _ => IsSimple c.namespac ∧ IsSimple c.name ∧ NoTable c.hostname ∧
    NoTable c.namespac ∧ NoTable c.name
  | .own hostname entityType => hostname = [] ∧ '/' ∉ entityType

/-! ## The doubled backslashes -/

theorem escapeTable_cons {c : Char} {s : Text} (h : ∀ t, c = '\\' → s = 'L' :: t → False) :
    escapeTable (c :: s) = c :: escapeTable s := by
  rw [escapeTable]
  exact h

theorem escapeTable_cons_of_ne {c : Char} (h : c ≠ '\\') (s : Text) :
    escapeTable (c :: s) = c :: escapeTable s :=
  escapeTable_cons fun _ hc _ => h hc

/-- A character that is neither a backslash nor an `L` separates what is escaped. -/
theorem escapeTable_append_cons {c : Char} (hb : c ≠ '\\') (hl : c ≠ 'L') (x y : Text) :
    escapeTable (x ++ c :: y) = escapeTable x ++ c :: escapeTable y := by
  fun_induction escapeTable x with
  | case1 s ih => simp only [List.cons_append, escapeTable, ih]
  | case2 d s h ih =>
    rw [List.cons_append, escapeTable_cons, ih, List.cons_append]
    intro t hd hs
    match s with
    | [] => exact hl (List.cons.inj hs).1
    | e :: s => exact h s hd (congrArg (· :: s) (List.cons.inj hs).1)
  | case3 => exact escapeTable_cons_of_ne hb y

/-- What is escaped differs from the text at the first doubled backslash. -/
theorem escapeTable_eq_of_append {s t u : Text} (h : s ++ t = escapeTable s ++ u) :
    escapeTable s = s := by
  fun_induction escapeTable s with
  | case1 s ih => cases h
  | case2 c s _ ih => rw [ih (List.cons.inj h).2]
  | case3 => rfl

theorem noTable_iff {s : Text} : NoTable s ↔ escapeTable s = s := by
  rw [NoTable]
  fun_induction escapeTable s with
  | case1 s ih =>
    have hin : "\\L".toList <:+: '\\' :: 'L' :: s := ⟨[], s, rfl⟩
    refine iff_of_false (fun h => h hin) ?_
    simp
  | case2 c s h ih =>
    have hpre : ¬ "\\L".toList <+: c :: s := by
      rintro ⟨t, ht⟩
      exact h t (List.cons.inj ht).1.symm (List.cons.inj ht).2.symm
    rw [List.infix_cons_iff, List.cons.injEq]
    simp only [hpre, false_or, true_and, ih]
  | case3 => simp

/-! ## The text of a URL -/

theorem not_mem_quote {c : Char} (hc : isQuoted c = false) (s : Text) : c ∉ quote s := by
  intro hm
  rw [Percent.isQuoted_of_mem_quote hm] at hc
  cases hc

theorem xidText_append (uriRoot : RootUrl) {script : Text} (h : ∀ c ∈ script, c ≠ '?' ∧ c ≠ '#')
    (s : Text) : xidText (uriRoot.text ++ script ++ "?xid=".toList ++ quote s) = quote s := by
  have hroot : ∀ c ∈ uriRoot.text ++ script, c ≠ '?' ∧ c ≠ '#' := by
    intro c hc
    obtain hc | hc := List.mem_append.mp hc
    · exact ⟨(uriRoot.no_delimiter c hc).1, (uriRoot.no_delimiter c hc).2.1⟩
    · exact h c hc
  have hxid : ∀ c ∈ "?xid=".toList, c ≠ '#' := by decide
  have htake : (uriRoot.text ++ script ++ "?xid=".toList ++ quote s).takeWhile (· ≠ '#') =
      uriRoot.text ++ script ++ '?' :: ("xid=".toList ++ quote s) := by
    have hall : ∀ c ∈ uriRoot.text ++ script ++ "?xid=".toList ++ quote s,
        decide (c ≠ '#') = true := by
      intro c hc
      have hne : c ≠ '#' := by
        obtain hc | hc := List.mem_append.mp hc
        · obtain hc | hc := List.mem_append.mp hc
          · exact (hroot c hc).2
          · exact hxid c hc
        · rintro rfl
          exact not_mem_quote (by decide) s hc
      simpa using hne
    rw [List.takeWhile_eq_self_iff.mpr hall]
    simp
  rw [xidText, urlQuery, htake, dropWhile_append_cons _ (by decide)]
  · rfl
  · intro c hc
    simpa using (hroot c hc).1

theorem entityScriptFromPath_ne {monikerEntity script : Text} {b b' b'' : Bool}
    (h : entityScriptFromPath monikerEntity b b' b'' = some script) :
    ∀ c ∈ script, c ≠ '?' ∧ c ≠ '#' := by
  match monikerEntity, h with
  | c :: s, h =>
    simp only [entityScriptFromPath, Option.some.injEq] at h
    subst h
    split_ifs <;> decide

/-- The text of the URL of a moniker. -/
theorem xidText_entityUrlFromMoniker {uriRoot : RootUrl} {monikerEntity url : Text}
    {b b' b'' : Bool} (h : entityUrlFromMoniker uriRoot monikerEntity b b' b'' = some url) :
    xidText url = encodeUri monikerEntity := by
  obtain ⟨script, hscript, rfl⟩ := Option.map_eq_some_iff.mp h
  have hne := entityScriptFromPath_ne hscript
  have hscript : ∀ c ∈ '/' :: script, c ≠ '?' ∧ c ≠ '#' := by
    intro c hc
    obtain rfl | hc := List.mem_cons.mp hc
    · decide
    · exact hne c hc
  have := xidText_append uriRoot hscript (escapeTable monikerEntity)
  simpa [encodeUri] using this

/-- The text of the URL of a class. -/
theorem xidText_entityClassUrl (uriRoot : RootUrl) (cls ns host : Text) (category : Category) :
    xidText (entityClassUrl uriRoot cls ns host category) =
      encodeUri (monikerClass cls ns host category) :=
  xidText_append uriRoot (by decide) _

/-! ## Parsing a quoted text -/

theorem matchLocal_of_not_mem {s : Text} (h : '@' ∉ s) :
    matchLocal s = (matchClassId s).map fun m => ([], m.1, m.2) := by
  have hall := forall_ne_of_not_mem h
  rw [matchLocal, List.dropWhile_eq_nil_iff.mpr hall]
  rfl

theorem matchClassId_percent {x : Text} (h : ∀ c ∈ x, isClassChar c = true) (y : Text) :
    matchClassId (x ++ '%' :: y) = none := by
  rw [matchClassId, dropWhile_append_cons h (by decide)]
  rfl

theorem parseXid_quote_of_none {s : Text} (h : parseXidLocal (quote s) = none) :
    parseXid (quote s) = ((parseXidWMI s).orElse fun _ => parseXidWBEM s).getD ⟨[], [], []⟩ := by
  rw [parseXid, h, Percent.unquote_quote]

theorem quote_append_of_unreserved {x : Text} (h : ∀ c ∈ x, isUnreserved c = true) (s : Text) :
    quote (x ++ s) = x ++ quote s := by
  induction x with
  | nil => rfl
  | cons c x ih =>
    rw [List.cons_append, quote, List.flatMap_cons, Percent.quoteChar,
      if_pos (h c List.mem_cons_self), ← quote, ih fun d hd => h d (List.mem_cons_of_mem c hd)]
    rfl

/-- A text that begins with letters, then with a character that is quoted, is not recognized
as one of our own monikers. -/
theorem parseXidLocal_quote_append {x : Text}
    (h : ∀ c ∈ x, isClassChar c = true ∧ isUnreserved c = true) {c : Char}
    (hc : ∃ t, Percent.quoteChar c = '%' :: t) (s : Text) :
    parseXidLocal (quote (x ++ c :: s)) = none := by
  obtain ⟨t, ht⟩ := hc
  have hquote : quote (x ++ c :: s) = x ++ '%' :: (t ++ quote s) := by
    rw [quote_append_of_unreserved fun d hd => (h d hd).2, quote, List.flatMap_cons, ht, ← quote]
    rfl
  rw [parseXidLocal, matchLocal_of_not_mem (not_mem_quote (by decide) _), hquote,
    matchClassId_percent fun d hd => (h d hd).1]
  rfl

/-! ## The namespace and the class of a type -/

/-- A type begins with its namespace, a colon and its class, if it has a namespace. -/
theorem eq_of_parseNamespaceType {t ns cls : Text} (h1 : (parseNamespaceType t).1 = ns)
    (h2 : (parseNamespaceType t).2.1 = cls) : ':' ∉ ns ∧ ':' ∉ cls ∧
      ((ns = [] ∧ t = cls) ∨ ∃ u, t = ns ++ ':' :: (cls ++ u) ∧ (u = [] ∨ ∃ v, u = ':' :: v)) := by
  have hns : ∀ s : Text, ':' ∉ s.takeWhile (· ≠ ':') := by
    intro s hm
    simpa using List.mem_takeWhile_imp hm
  have hsplit : ∀ s : Text, (':' ∉ s ∧ splitOn ':' s = [s]) ∨
      ∃ v, s = s.takeWhile (· ≠ ':') ++ ':' :: v ∧
        splitOn ':' s = s.takeWhile (· ≠ ':') :: splitOn ':' v := by
    intro s
    by_cases hm : ':' ∈ s
    · obtain ⟨x, v, rfl, hx⟩ := List.eq_append_cons_of_mem hm
      have htake : (x ++ ':' :: v).takeWhile (· ≠ ':') = x := by
        exact takeWhile_append_cons (forall_ne_of_not_mem hx) (by decide) _
      rw [htake]
      refine Or.inr ⟨v, rfl, ?_⟩
      rw [splitOn_append hx]
      simp [splitOn]
    · refine Or.inl ⟨hm, ?_⟩
      have := splitOn_append hm []
      simpa [splitOn] using this
  obtain ⟨hm, hs⟩ | ⟨v, hv, hs⟩ := hsplit t
  · rw [parseNamespaceType, hs] at h1 h2
    subst h1 h2
    exact ⟨by simp, hm, Or.inl ⟨rfl, rfl⟩⟩
  · obtain ⟨hm', hs'⟩ | ⟨v', hv', hs'⟩ := hsplit v
    · rw [parseNamespaceType, hs, hs'] at h1 h2
      subst h1 h2
      refine ⟨hns t, hm', Or.inr ⟨[], ?_, Or.inl rfl⟩⟩
      rwa [List.append_nil]
    · rw [parseNamespaceType, hs, hs'] at h1 h2
      subst h1 h2
      refine ⟨hns t, hns v, Or.inr ⟨':' :: v', ?_, Or.inr ⟨v', rfl⟩⟩⟩
      rwa [← hv']

theorem parseNamespaceType_append {ns cls : Text} (hns : ':' ∉ ns) (hcls : ':' ∉ cls) :
    parseNamespaceType (ns ++ ':' :: cls) = (ns, cls, ns ++ ':' :: cls) := by
  have hs : splitOn ':' (ns ++ ':' :: cls) = [ns, cls] := by
    have := splitOn_append hcls []
    rw [splitOn_append hns]
    simpa [splitOn] using this
  rw [parseNamespaceType, hs]

theorem parseNamespaceType_of_not_mem {cls : Text} (hcls : ':' ∉ cls) :
    parseNamespaceType cls = ([], cls, cls) := by
  have hs : splitOn ':' cls = [cls] := by
    have := splitOn_append hcls []
    simpa [splitOn] using this
  rw [parseNamespaceType, hs]

/-! ## What the patterns match -/

theorem mem_of_dropWhile_eq_cons {p : Char → Bool} {s t : Text} {c : Char}
    (h : s.dropWhile p = c :: t) : s = s.takeWhile p ++ c :: t ∧ p c = false := by
  constructor
  · conv_lhs => rw [← List.takeWhile_append_dropWhile (p := p) (l := s), h]
  · have hh := List.head?_dropWhile_not p s
    rw [h] at hh
    exact hh

theorem eq_of_matchWmiLocal {s ns cls i : Text} (h : matchWmiLocal s = some (ns, cls, i)) :
    ns ≠ [] ∧ ns.all isKeyChar = true ∧ '.' ∉ cls ∧
      ∃ r, s = ns ++ '\\' :: (cls ++ '.' :: r) ∧ i = '.' :: firstLine r := by
  rw [matchWmiLocal] at h
  split at h
  · rename_i c ns' rest hns hd
    split at h
    · rename_i r hr
      obtain ⟨hs, -⟩ := mem_of_dropWhile_eq_cons hd
      obtain ⟨hrest, -⟩ := mem_of_dropWhile_eq_cons hr
      cases h
      refine ⟨by simp, ?_, ?_, r, ?_, rfl⟩
      · rw [← hns, List.all_eq_true]
        intro d hd'
        exact List.mem_takeWhile_imp hd'
      · intro hm
        simpa using List.mem_takeWhile_imp hm
      · rw [hns] at hs
        rw [← hrest]
        exact hs
    · cases h
  · cases h

theorem matchWmiLocal_append {ns cls : Text} (hne : ns ≠ []) (hns : ns.all isKeyChar = true)
    (hcls : '.' ∉ cls) (r : Text) :
    matchWmiLocal (ns ++ '\\' :: (cls ++ '.' :: r)) = some (ns, cls, '.' :: firstLine r) := by
  have hkey : ∀ c ∈ ns, isKeyChar c = true := List.all_eq_true.mp hns
  have hdot := forall_ne_of_not_mem hcls
  rw [matchWmiLocal, takeWhile_append_cons hkey (by decide), dropWhile_append_cons hkey (by decide)]
  match ns, hne with
  | c :: ns, _ =>
    simp only [takeWhile_append_cons hdot (c := '.') (by decide),
      dropWhile_append_cons hdot (c := '.') (by decide)]

theorem eq_of_matchWmiHost {s host ns cls i : Text}
    (h : matchWmiHost s = some (host, ns, cls, i)) : host.all isDomainChar = true ∧
      ∃ rest, s = host ++ '\\' :: rest ∧ matchWmiLocal rest = some (ns, cls, i) := by
  rw [matchWmiHost] at h
  split at h
  · rename_i rest hd
    obtain ⟨hs, -⟩ := mem_of_dropWhile_eq_cons hd
    obtain ⟨m, hm, he⟩ := Option.map_eq_some_iff.mp h
    cases he
    refine ⟨?_, rest, hs, hm⟩
    rw [List.all_eq_true]
    intro d hd'
    exact List.mem_takeWhile_imp hd'
  · cases h

theorem matchWmiHost_append {host : Text} (h : host.all isDomainChar = true) (rest : Text) :
    matchWmiHost (host ++ '\\' :: rest) = (matchWmiLocal rest).map fun m => (host, m) := by
  have hdom : ∀ c ∈ host, isDomainChar c = true := List.all_eq_true.mp h
  rw [matchWmiHost, dropWhile_append_cons hdom (by decide), takeWhile_append_cons hdom (by decide)]
  rfl

theorem eq_of_after? {start s t : Text} (h : after? start s = some t) : s = start ++ t := by
  rw [after?] at h
  split at h
  · rename_i hpre
    obtain ⟨u, rfl⟩ := List.isPrefixOf_iff_prefix.mp hpre
    rw [List.drop_left, Option.some.injEq] at h
    rw [h]
  · cases h

theorem parseXidWBEM_backslash (s : Text) : parseXidWBEM ('\\' :: s) = none := rfl

/-- A WBEM moniker begins with its host and a slash. -/
theorem eq_of_parseXidWBEM {s : Text} {r : EntityTriplet} (h : parseXidWBEM s = some r) :
    r.entityHost ≠ [] ∧ ∃ path, s = r.entityHost ++ '/' :: path := by
  obtain ⟨t, ht, h⟩ := Option.bind_eq_some_iff.mp h
  split at h
  · rename_i c path hd
    obtain ⟨hs, hc⟩ := mem_of_dropWhile_eq_cons hd
    have hc : c = '/' := by simpa using hc
    subst hc
    cases h
    refine ⟨?_, path, ?_⟩
    · apply List.append_ne_nil_of_left_ne_nil
      split <;> exact List.cons_ne_nil _ _
    · rw [List.append_assoc, ← hs]
      exact eq_of_after? ht
  · cases h

/-! ## Types and escapes -/

/-- A type that a pattern finds in an escaped text is that text, if it begins with it. -/
theorem eq_of_escaped_type {b u r : Text} (h : b ++ (u ++ '.' :: r) = escapeTable b ++ ['.']) :
    escapeTable b = b ∧ u = [] := by
  have hb := escapeTable_eq_of_append h
  rw [hb] at h
  refine ⟨hb, ?_⟩
  have hlen := congrArg List.length (List.append_cancel_left h)
  simp only [List.length_append, List.length_cons, List.length_nil] at hlen
  exact List.length_eq_zero_iff.mp (by omega)

theorem noTable_of_append {ns cls : Text} (h : escapeTable (ns ++ ':' :: cls) = ns ++ ':' :: cls) :
    NoTable ns ∧ NoTable cls := by
  rw [escapeTable_append_cons (by decide) (by decide)] at h
  have hns := escapeTable_eq_of_append h.symm
  rw [hns] at h
  have hcls := (List.cons.inj (List.append_cancel_left h)).2
  exact ⟨noTable_iff.mpr hns, noTable_iff.mpr hcls⟩

theorem escapeTable_of_noTable {ns cls : Text} (hns : NoTable ns) (hcls : NoTable cls) :
    escapeTable (ns ++ ':' :: cls) = ns ++ ':' :: cls := by
  rw [escapeTable_append_cons (by decide) (by decide), noTable_iff.mp hns, noTable_iff.mp hcls]

theorem escapeTable_append_of_not_mem {x : Text} (h : '\\' ∉ x) (s : Text) :
    escapeTable (x ++ s) = x ++ escapeTable s := by
  induction x with
  | nil => rfl
  | cons c x ih =>
    have hc : c ≠ '\\' := fun he => h (he ▸ List.mem_cons_self)
    rw [List.cons_append, escapeTable_cons_of_ne hc, ih fun hm => h (List.mem_cons_of_mem c hm),
      List.cons_append]

theorem mem_of_mem_escapeTable {s : Text} {c : Char} (h : c ∈ escapeTable s) : c ∈ s := by
  fun_induction escapeTable s with
  | case1 s ih =>
    simp only [List.mem_cons] at h ⊢
    obtain h | h | h | h := h
    · exact Or.inl h
    · exact Or.inl h
    · exact Or.inr (Or.inl h)
    · exact Or.inr (Or.inr (ih h))
  | case2 d s _ ih =>
    obtain h | h := List.mem_cons.mp h
    · exact h ▸ List.mem_cons_self
    · exact List.mem_cons_of_mem d (ih h)
  | case3 => cases h

theorem isSimple_of_append {ns cls : Text} (hdot : '.' ∉ ns ++ ':' :: cls) (hns : ':' ∉ ns)
    (hcls : ':' ∉ cls) : IsSimple ns ∧ IsSimple cls := by
  simp only [List.mem_append, List.mem_cons, not_or] at hdot
  exact ⟨⟨hdot.1, hns⟩, ⟨hdot.2.2, hcls⟩⟩

theorem not_mem_dot {ns cls : Text} (hns : IsSimple ns) (hcls : IsSimple cls) :
    '.' ∉ ns ++ ':' :: cls := by
  simp [hns.1, hcls.1]

theorem unquote_dot : (unquote ('.' :: firstLine [])).drop 1 = [] := by
  rw [Percent.unquote_cons (by decide)]
  exact Percent.unquote_nil

/-! ## WMI classes -/

/-- The namespace of a WMI class begins with `root`. -/
theorem namespac_wmi (hostname : Text) (parts : List Text) (classNam : Text) :
    (StyledClass.wmi hostname parts classNam).namespac =
      "root".toList ++ parts.flatMap fun part => '\\' :: part := rfl

theorem parseXid_backslash (m : Text) : parseXid (encodeUri ('\\' :: m)) =
    (parseXidWMI (escapeTable ('\\' :: m))).getD ⟨[], [], []⟩ := by
  have hstart : ∃ t, escapeTable ('\\' :: m) = '\\' :: t := by
    rw [escapeTable.eq_def]
    split
    · exact ⟨_, rfl⟩
    · rename_i heq
      cases heq
      exact ⟨_, rfl⟩
    · contradiction
  obtain ⟨t, ht⟩ := hstart
  have hlocal : parseXidLocal (quote ('\\' :: t)) = none :=
    parseXidLocal_quote_append (x := []) (fun _ h => nomatch h) ⟨_, rfl⟩ t
  rw [encodeUri, ht, parseXid_quote_of_none hlocal, parseXidWBEM_backslash]
  cases parseXidWMI ('\\' :: t) <;> rfl

/-- What is matched after two backslashes, or three. -/
def afterTwoBackslashes : Text → Option (Text × Text × Text × Text)
  | '\\' :: s => (matchWmiHost s).orElse fun _ => matchWmiHost ('\\' :: s)
  | s => matchWmiHost s

theorem afterTwoBackslashes_of_head {e : Text} (h : ∀ t, e ≠ '\\' :: t) :
    afterTwoBackslashes e = matchWmiHost e := by
  rw [afterTwoBackslashes.eq_def]
  split
  · exact absurd rfl (h _)
  · rfl

theorem parseXidWMI_backslashes (e : Text) : parseXidWMI ('\\' :: '\\' :: e) =
    (afterTwoBackslashes e).map fun x => ⟨x.2.1 ++ '\\' :: x.2.2.1, (unquote x.2.2.2).drop 1, x.1⟩ := by
  have hno : matchWmiLocal ('\\' :: '\\' :: e) = none := rfl
  have hor : ∀ o : Option (Text × Text × Text × Text),
      (o.orElse fun _ => (none : Option (Text × Text × Text)).map fun m => (([] : Text), m)) = o := by
    intro o
    cases o <;> rfl
  by_cases h : ∃ t, e = '\\' :: t
  · obtain ⟨t, rfl⟩ := h
    rw [parseXidWMI, hno]
    simp only [hor]
    rfl
  · rw [not_exists] at h
    rw [afterTwoBackslashes_of_head h, parseXidWMI, hno]
    · simp only [hor]
    · intro t ht
      exact h t ht

/-- The escaped text after the two backslashes of a WMI moniker. -/
theorem escapeTable_wmi {host : Text} (h : '\\' ∉ host) (b : Text) :
    ∃ e, escapeTable ('\\' :: '\\' :: (host ++ '\\' :: 'r' :: b)) = '\\' :: '\\' :: e ∧
      (e = host ++ '\\' :: escapeTable ('r' :: b) ∨
        (host ≠ [] ∧ e = '\\' :: (host ++ '\\' :: escapeTable ('r' :: b)))) := by
  have hroot : escapeTable ('\\' :: 'r' :: b) = '\\' :: escapeTable ('r' :: b) := by
    apply escapeTable_cons
    intro t _ ht
    cases ht
  have hhost : escapeTable (host ++ '\\' :: 'r' :: b) = host ++ '\\' :: escapeTable ('r' :: b) := by
    rw [escapeTable_append_of_not_mem h, hroot]
  have hfirst : escapeTable ('\\' :: '\\' :: (host ++ '\\' :: 'r' :: b)) =
      '\\' :: escapeTable ('\\' :: (host ++ '\\' :: 'r' :: b)) := by
    apply escapeTable_cons
    intro t _ ht
    cases ht
  by_cases hl : ∃ t, host ++ '\\' :: 'r' :: b = 'L' :: t
  · obtain ⟨t, ht⟩ := hl
    have hne : host ≠ [] := by
      rintro rfl
      cases ht
    refine ⟨'\\' :: escapeTable (host ++ '\\' :: 'r' :: b), ?_, Or.inr ⟨hne, by rw [hhost]⟩⟩
    rw [hfirst, ht, escapeTable, escapeTable_cons_of_ne (by decide)]
  · refine ⟨escapeTable (host ++ '\\' :: 'r' :: b), ?_, Or.inl hhost⟩
    rw [hfirst, escapeTable_cons]
    intro t _ ht
    exact hl ⟨t, ht⟩

/-- The parts of a namespace, then the class. -/
def afterRoot (parts : List Text) (classNam : Text) : Text :=
  (parts.flatMap fun part => '\\' :: part) ++ ':' :: classNam

/-- A key after `root` and a backslash is followed by a backslash exactly if it is the first of
several parts. -/
theorem matchWmiLocal_parts {parts : List Text} (hparts : ∀ part ∈ parts, '\\' ∉ part)
    {classNam t : Text} (ht : afterRoot parts classNam = '\\' :: t) (hdot : '.' ∉ t) :
    (matchWmiLocal (t ++ ['.'])).isSome ↔ Shadowed parts := by
  match parts, hparts, ht with
  | [part], hparts, ht =>
    have hpart := hparts part List.mem_cons_self
    have ht : t = part ++ ':' :: classNam := by simpa [afterRoot] using ht.symm
    refine iff_of_false (fun hs => ?_) id
    obtain ⟨⟨ns, cls, i⟩, hm⟩ := Option.isSome_iff_exists.mp hs
    obtain ⟨-, hns, -, r, hr, -⟩ := eq_of_matchWmiLocal hm
    rw [ht, List.append_assoc, List.cons_append, List.append_eq_append_iff] at hr
    obtain ⟨u, hu, hv⟩ | ⟨u, hu, hv⟩ := hr
    · match u, hu, hv with
      | [], _, hv => cases hv
      | c :: u, hu, hv =>
        obtain ⟨rfl, -⟩ := List.cons.inj hv
        have : ':' ∈ ns := by simp [hu]
        exact not_mem_of_all hns (by decide) this
    · match u, hu, hv with
      | [], _, hv => cases hv
      | c :: u, hu, hv =>
        obtain ⟨rfl, -⟩ := List.cons.inj hv
        exact hpart (by simp [hu])
  | part :: part' :: parts, hparts, ht =>
    have hpart := hparts part List.mem_cons_self
    obtain ⟨x, ht⟩ : ∃ x, t = part ++ '\\' :: x := by
      simp only [afterRoot, List.flatMap_cons, List.cons_append, List.append_assoc,
        List.cons.injEq, true_and] at ht
      exact ⟨_, ht.symm⟩
    have hx : '.' ∉ x := fun hm => hdot (by simp [ht, hm])
    constructor
    · intro hs
      obtain ⟨⟨ns, cls, i⟩, hm⟩ := Option.isSome_iff_exists.mp hs
      obtain ⟨hne, hns, -, r, hr, -⟩ := eq_of_matchWmiLocal hm
      have hcut : ∀ y z : Text, '\\' ∉ y → (y ++ '\\' :: z).takeWhile (· ≠ '\\') = y := by
        intro y z hy
        exact takeWhile_append_cons (forall_ne_of_not_mem hy) (by decide) _
      have heq := congrArg (List.takeWhile fun c => decide (c ≠ '\\')) hr
      rw [ht, List.append_assoc, List.cons_append, hcut part _ hpart,
        hcut ns _ (not_mem_of_all hns (by decide))] at heq
      rw [Shadowed, heq]
      exact ⟨hne, hns⟩
    · rintro ⟨hne, hkey⟩
      have := matchWmiLocal_append hne hkey hx []
      rw [ht, List.append_assoc, List.cons_append]
      simp [this]

theorem or_of_orElse_eq_some {α : Type} {o o' : Option α} {x : α}
    (h : (o.orElse fun _ => o') = some x) : o = some x ∨ (o = none ∧ o' = some x) := by
  cases o with
  | none => exact Or.inr ⟨rfl, h⟩
  | some y => exact Or.inl h

/-- The host of a WMI moniker is made of domain characters, and its type begins with a key. -/
theorem isDomain_of_parseXidWMI {s : Text} {r : EntityTriplet} (h : parseXidWMI s = some r) :
    r.entityHost.all isDomainChar = true ∧
      ∃ ns cls, r.entityType = ns ++ '\\' :: cls ∧ ns ≠ [] ∧ ns.all isKeyChar = true := by
  obtain ⟨⟨host, ns, cls, i⟩, hm, rfl⟩ := Option.map_eq_some_iff.mp h
  change host.all isDomainChar = true ∧ ∃ ns' cls', ns ++ '\\' :: cls = ns' ++ '\\' :: cls' ∧ _
  have hhost : ∀ {t : Text}, matchWmiHost t = some (host, ns, cls, i) →
      host.all isDomainChar = true ∧
        ∃ ns' cls', ns ++ '\\' :: cls = ns' ++ '\\' :: cls' ∧ ns' ≠ [] ∧
          ns'.all isKeyChar = true := by
    intro t ht
    obtain ⟨hdom, rest, -, hrest⟩ := eq_of_matchWmiHost ht
    obtain ⟨hne, hkey, -⟩ := eq_of_matchWmiLocal hrest
    exact ⟨hdom, ns, cls, rfl, hne, hkey⟩
  obtain hm | ⟨-, hm⟩ := or_of_orElse_eq_some hm
  · split at hm
    · obtain hm | ⟨-, hm⟩ := or_of_orElse_eq_some hm
      · exact hhost hm
      · exact hhost hm
    · exact hhost hm
    · cases hm
  · obtain ⟨m, hlocal, he⟩ := Option.map_eq_some_iff.mp hm
    cases he
    obtain ⟨hne, hkey, -⟩ := eq_of_matchWmiLocal hlocal
    exact ⟨rfl, ns, cls, rfl, hne, hkey⟩

theorem eq_of_afterTwoBackslashes {e : Text} {x : Text × Text × Text × Text}
    (h : afterTwoBackslashes e = some x) : ∃ s, matchWmiHost s = some x ∧
      (e = '\\' :: s ∨ (e = s ∧ ∀ t, e = '\\' :: t → matchWmiHost t = none)) := by
  by_cases he : ∃ t, e = '\\' :: t
  · obtain ⟨t, rfl⟩ := he
    rw [afterTwoBackslashes] at h
    obtain h | ⟨hn, h⟩ := or_of_orElse_eq_some h
    · exact ⟨t, h, Or.inl rfl⟩
    · refine ⟨'\\' :: t, h, Or.inr ⟨rfl, ?_⟩⟩
      intro t' ht
      cases ht
      exact hn
  · rw [not_exists] at he
    rw [afterTwoBackslashes_of_head he] at h
    exact ⟨e, h, Or.inr ⟨rfl, fun t ht => absurd ht (he t)⟩⟩

theorem ne_backslash_cons {h : Text} (hne : h ≠ []) (hback : '\\' ∉ h) (x y : Text) :
    h ++ x ≠ '\\' :: y := by
  match h, hne with
  | c :: h, _ =>
    intro he
    exact hback ((List.cons.inj he).1 ▸ List.mem_cons_self)

/-- The rest that is matched after a host is what follows the host in the moniker. -/
theorem rest_of_wmi {h rest b e : Text} (hback : '\\' ∉ h)
    (hcase : e = h ++ '\\' :: 'r' :: b ∨ (h ≠ [] ∧ e = '\\' :: (h ++ '\\' :: 'r' :: b)))
    (hes : e = '\\' :: (h ++ '\\' :: rest) ∨
      (e = h ++ '\\' :: rest ∧ ∀ t, e = '\\' :: t → matchWmiHost t = none)) :
    rest = 'r' :: b ∧ (h = [] → matchWmiHost ('r' :: b) = none) := by
  obtain rfl | ⟨hne, rfl⟩ := hcase
  · obtain hes | ⟨hes, hno⟩ := hes
    · by_cases hh : h = []
      · subst hh
        cases hes
      · exact absurd hes (ne_backslash_cons hh hback _ _)
    · refine ⟨(List.cons.inj (List.append_cancel_left hes)).2.symm, ?_⟩
      rintro rfl
      exact hno _ rfl
  · obtain hes | ⟨hes, -⟩ := hes
    · have hrest := List.append_cancel_left (List.cons.inj hes).2
      exact ⟨(List.cons.inj hrest).2.symm, fun hh => absurd hh hne⟩
    · exact absurd hes.symm (ne_backslash_cons hne hback _ _)

/-- The name of a WMI class begins with `root`. -/
theorem wmi_text (host : Text) (parts : List Text) (cls : Text) :
    (StyledClass.wmi host parts cls).namespac ++ ':' :: cls =
      "root".toList ++ afterRoot parts cls := by
  rw [namespac_wmi, afterRoot, List.append_assoc]

theorem wmi_moniker (host : Text) (parts : List Text) (cls : Text) :
    buildWmiMoniker host (StyledClass.wmi host parts cls).namespac cls =
      '\\' :: '\\' ::
        (host ++ '\\' :: 'r' :: ("oot".toList ++ afterRoot parts cls ++ ['.'])) := by
  have hname : (StyledClass.wmi host parts cls).namespac ++ ':' :: (cls ++ ['.']) =
      'r' :: ("oot".toList ++ afterRoot parts cls ++ ['.']) := by
    rw [namespac_wmi, afterRoot]
    simp
  rw [buildWmiMoniker, hname]

theorem escapeTable_wmi_body (host : Text) (parts : List Text) (cls : Text) :
    escapeTable ('r' :: ("oot".toList ++ afterRoot parts cls ++ ['.'])) =
      escapeTable ((StyledClass.wmi host parts cls).namespac ++ ':' :: cls) ++ ['.'] := by
  have hbody : 'r' :: ("oot".toList ++ afterRoot parts cls ++ ['.']) =
      ((StyledClass.wmi host parts cls).namespac ++ ':' :: cls) ++ '.' :: [] := by
    rw [wmi_text]
    rfl
  rw [hbody, escapeTable_append_cons (by decide) (by decide)]
  rfl

theorem exists_afterRoot {parts : List Text} (h : parts ≠ []) (cls : Text) :
    ∃ t, afterRoot parts cls = '\\' :: t := by
  match parts, h with
  | part :: parts, _ => exact ⟨_, rfl⟩

theorem not_mem_tail {parts : List Text} {cls t : Text}
    (h : '.' ∉ "root".toList ++ afterRoot parts cls) (ht : afterRoot parts cls = '\\' :: t) :
    '.' ∉ t := by
  rw [ht] at h
  simp only [List.mem_append, List.mem_cons, not_or] at h
  exact h.2.2

/-- A key and a backslash are matched only if the namespace has a part after `root`. -/
theorem parts_ne_nil {parts : List Text} {cls n c : Text} (hn : n.all isKeyChar = true)
    (h : n ++ '\\' :: c = "root".toList ++ afterRoot parts cls) : parts ≠ [] := by
  rintro rfl
  have hroot : ∀ c ∈ "root".toList, isKeyChar c = true := by decide
  have hkey : ∀ d ∈ n, isKeyChar d = true := List.all_eq_true.mp hn
  have hdrop := congrArg (List.dropWhile isKeyChar) h
  rw [afterRoot, List.flatMap_nil, List.nil_append, dropWhile_append_cons hkey (by decide),
    dropWhile_append_cons hroot (by decide)] at hdrop
  cases hdrop

section NamesWmi

variable {host : Text} {parts : List Text} (hparts : ∀ part ∈ parts, '\\' ∉ part) (cls : Text)

include hparts

/-- A class that is named by the text of its WMI moniker is readable. -/
theorem readable_of_names_wmi (hnames : (parseXid (encodeUri (buildWmiMoniker host
    (StyledClass.wmi host parts cls).namespac cls))).Names (.wmi host parts cls)) :
    (StyledClass.wmi host parts cls).Readable := by
  have htext := wmi_text host parts cls
  have hbody := escapeTable_wmi_body host parts cls
  rw [wmi_moniker, parseXid_backslash] at hnames
  obtain ⟨hhost, -, hns, hcls⟩ := hnames
  change _ = host at hhost
  change _ = cls at hcls
  cases hr : parseXidWMI (escapeTable ('\\' :: '\\' :: (host ++ '\\' :: 'r' ::
      ("oot".toList ++ afterRoot parts cls ++ ['.'])))) with
  | none =>
    rw [hr] at hns
    cases hns
  | some r =>
    rw [hr, Option.getD_some] at hhost hns hcls
    have hdom : host.all isDomainChar = true := hhost ▸ (isDomain_of_parseXidWMI hr).1
    have hback : '\\' ∉ host := not_mem_of_all hdom (by decide)
    obtain ⟨e, he, hcase⟩ := escapeTable_wmi hback ("oot".toList ++ afterRoot parts cls ++ ['.'])
    rw [he, parseXidWMI_backslashes] at hr
    obtain ⟨⟨h, n, c, i⟩, hx, rfl⟩ := Option.map_eq_some_iff.mp hr
    change h = host at hhost
    subst hhost
    obtain ⟨s, hs, hes⟩ := eq_of_afterTwoBackslashes hx
    obtain ⟨-, rest, rfl, hrest⟩ := eq_of_matchWmiHost hs
    rw [escapeTable_cons_of_ne (by decide)] at hcase hbody
    obtain ⟨hre, hnone⟩ := rest_of_wmi hback hcase hes
    obtain ⟨-, hn, hc, r, htail, -⟩ := eq_of_matchWmiLocal hrest
    rw [hre, hbody] at htail
    have hdot : '.' ∉ n ++ '\\' :: c := by
      have := not_mem_of_all hn (c := '.') (by decide)
      simp [this, hc]
    obtain ⟨hns', hcls', htype⟩ := eq_of_parseNamespaceType hns hcls
    obtain ⟨hnil, -⟩ | ⟨u, hu, -⟩ := htype
    · cases hnil
    · change n ++ '\\' :: c = _ at hu
      have heq : (StyledClass.wmi h parts cls).namespac ++ ':' :: cls ++ (u ++ '.' :: r) =
          escapeTable ((StyledClass.wmi h parts cls).namespac ++ ':' :: cls) ++ ['.'] := by
        have := congrArg (· ++ '.' :: r) hu
        simp only [List.append_assoc, List.cons_append] at this htail ⊢
        rw [htail, ← this]
      obtain ⟨hesc, rfl⟩ := eq_of_escaped_type heq
      rw [List.append_nil] at hu
      rw [hu] at hdot
      obtain ⟨hsns, hscls⟩ := isSimple_of_append hdot hns' hcls'
      obtain ⟨htns, htcls⟩ := noTable_of_append hesc
      have hparts' : parts ≠ [] := parts_ne_nil hn (hu.trans htext)
      refine ⟨hdom, hparts', ?_, hsns, hscls, htns, htcls⟩
      intro hh
      obtain ⟨t, ht⟩ := exists_afterRoot hparts' cls
      have hdott : '.' ∉ t := not_mem_tail (htext ▸ hdot) ht
      have hno := hnone hh
      rw [hbody, hesc, htext, ht, List.append_assoc, List.cons_append,
        matchWmiHost_append (by decide), Option.map_eq_none_iff] at hno
      rw [← matchWmiLocal_parts hparts ht hdott, hno]
      simp

/-- The text of the WMI moniker of a readable class names it. -/
theorem names_wmi_of_readable (hread : (StyledClass.wmi host parts cls).Readable) :
    (parseXid (encodeUri (buildWmiMoniker host
      (StyledClass.wmi host parts cls).namespac cls))).Names (.wmi host parts cls) := by
  have htext := wmi_text host parts cls
  have hbody := escapeTable_wmi_body host parts cls
  rw [wmi_moniker, parseXid_backslash]
  obtain ⟨hdom, hne, hshadow, hns, hcls, htns, htcls⟩ := hread
  change IsSimple cls at hcls
  change NoTable cls at htcls
  have hback : '\\' ∉ host := not_mem_of_all hdom (by decide)
  obtain ⟨e, he, hcase⟩ := escapeTable_wmi hback ("oot".toList ++ afterRoot parts cls ++ ['.'])
  rw [hbody, escapeTable_of_noTable htns htcls] at hcase
  obtain ⟨t, ht⟩ := exists_afterRoot hne cls
  have hdot : '.' ∉ t := not_mem_tail (htext ▸ not_mem_dot hns hcls) ht
  have hrest : (StyledClass.wmi host parts cls).namespac ++ ':' :: cls ++ ['.'] =
      "root".toList ++ '\\' :: (t ++ ['.']) := by
    rw [htext, ht, List.append_assoc, List.cons_append]
  have hlocal : matchWmiLocal ("root".toList ++ '\\' :: (t ++ ['.'])) =
      some ("root".toList, t, '.' :: firstLine []) :=
    matchWmiLocal_append (by decide) (by decide) hdot []
  have hfound : matchWmiHost (host ++ '\\' :: ("root".toList ++ '\\' :: (t ++ ['.']))) =
      some (host, "root".toList, t, '.' :: firstLine []) := by
    rw [matchWmiHost_append hdom, hlocal]
    rfl
  rw [hrest] at hcase
  have hafter : afterTwoBackslashes e = some (host, "root".toList, t, '.' :: firstLine []) := by
    obtain rfl | ⟨-, rfl⟩ := hcase
    · match host, hdom, hfound with
      | [], _, hfound =>
        have hnone : matchWmiHost ("root".toList ++ '\\' :: (t ++ ['.'])) = none := by
          have hs := (matchWmiLocal_parts hparts ht hdot).not.mpr (hshadow rfl)
          rw [matchWmiHost_append (by decide), Option.not_isSome_iff_eq_none.mp hs]
          rfl
        rw [List.nil_append, afterTwoBackslashes, hnone]
        exact hfound
      | c :: host, hdom, hfound =>
        rw [afterTwoBackslashes_of_head, hfound]
        intro u hu
        cases hu
        cases hdom
    · rw [afterTwoBackslashes, hfound]
      rfl
  rw [he, parseXidWMI_backslashes, hafter]
  have htype : "root".toList ++ '\\' :: t =
      (StyledClass.wmi host parts cls).namespac ++ ':' :: cls := by rw [htext, ht]
  refine ⟨rfl, unquote_dot, ?_, ?_⟩
  · simp only [Option.map_some, Option.getD_some, htype,
      parseNamespaceType_append hns.2 hcls.2]
  · simp only [Option.map_some, Option.getD_some, htype,
      parseNamespaceType_append hns.2 hcls.2]
    rfl

/-- The text of a WMI moniker names its class exactly if the class is readable. -/
theorem names_wmi_iff : (parseXid (encodeUri (buildWmiMoniker host
    (StyledClass.wmi host parts cls).namespac cls))).Names (.wmi host parts cls) ↔
      (StyledClass.wmi host parts cls).Readable :=
  ⟨readable_of_names_wmi hparts cls, names_wmi_of_readable hparts cls⟩

end NamesWmi

/-! ## WBEM classes -/

/-- The scheme of a host. -/
def schemeText (secure : Bool) : Text := (if secure then "https://" else "http://").toList

theorem not_mem_schemeText (secure : Bool) : '\\' ∉ schemeText secure := by
  cases secure <;> decide

theorem parseXidWMI_scheme (secure : Bool) (s : Text) :
    parseXidWMI (schemeText secure ++ s) = none := by
  cases secure <;> rfl

theorem parseXidLocal_scheme (secure : Bool) (s : Text) :
    parseXidLocal (quote (schemeText secure ++ s)) = none := by
  cases secure with
  | true =>
    exact parseXidLocal_quote_append (x := "https".toList) (by decide) (c := ':') ⟨_, rfl⟩
      ("//".toList ++ s)
  | false =>
    exact parseXidLocal_quote_append (x := "http".toList) (by decide) (c := ':') ⟨_, rfl⟩
      ("//".toList ++ s)

/-- The triplet of a WBEM moniker. -/
theorem parseXidWBEM_scheme (secure : Bool) {address : Text} (h : '/' ∉ address) (b : Text) :
    ∃ i, parseXidWBEM (schemeText secure ++ (address ++ '/' :: (b ++ ['.']))) =
      some ⟨(b ++ ['.']).takeWhile (· ≠ '.'), i, schemeText secure ++ address⟩ ∧
        ('.' ∉ b → i = []) := by
  have hslash := forall_ne_of_not_mem h
  have hafter : ∀ s : Text, (if (after? "https://".toList (schemeText secure ++ s)).isSome then
      "https://".toList else "http://".toList) = schemeText secure := by
    intro s
    cases secure <;> rfl
  have hdrop : ∀ s : Text, after? (schemeText secure) (schemeText secure ++ s) = some s := by
    intro s
    cases secure <;> rfl
  rw [parseXidWBEM]
  simp only [hafter, hdrop, Option.bind_some,
    dropWhile_append_cons hslash (c := '/') (by decide),
    takeWhile_append_cons hslash (c := '/') (by decide)]
  refine ⟨_, rfl, ?_⟩
  intro hdot
  have hall := forall_ne_of_not_mem hdot
  rw [dropWhile_append_cons hall (by decide)]
  exact unquote_dot

/-- The type of a WBEM moniker gives back a namespace and a class. -/
theorem parseNamespaceType_wbem_iff {ns cls b t : Text}
    (hb : b = ns ++ ':' :: cls ∨ (ns = [] ∧ b = cls))
    (ht : t = (escapeTable b ++ ['.']).takeWhile (· ≠ '.')) :
    ((parseNamespaceType t).1 = ns ∧ (parseNamespaceType t).2.1 = cls) ↔
      IsSimple ns ∧ IsSimple cls ∧ NoTable ns ∧ NoTable cls := by
  have hdot : '.' ∉ t := by
    intro hm
    rw [ht] at hm
    simpa using List.mem_takeWhile_imp hm
  have hsplit : ∃ r, t ++ '.' :: r = escapeTable b ++ ['.'] := by
    have hmem : '.' ∈ escapeTable b ++ ['.'] := by simp
    obtain ⟨x, r, hx, hno⟩ := List.eq_append_cons_of_mem hmem
    refine ⟨r, ?_⟩
    have hall := forall_ne_of_not_mem hno
    rw [ht, hx, takeWhile_append_cons hall (by decide)]
  constructor
  · rintro ⟨h1, h2⟩
    obtain ⟨r, hr⟩ := hsplit
    obtain ⟨hns, hcls, htype⟩ := eq_of_parseNamespaceType h1 h2
    obtain rfl | ⟨rfl, rfl⟩ := hb
    · obtain ⟨rfl, rfl⟩ | ⟨u, rfl, -⟩ := htype
      · -- a colon would begin the class
        rw [List.nil_append, escapeTable_cons_of_ne (by decide)] at hr
        match t, hcls, hr with
        | [], _, hr => cases hr
        | c :: t, hcls, hr =>
          rw [(List.cons.inj hr).1] at hcls
          exact absurd List.mem_cons_self hcls
      · have heq : ns ++ ':' :: cls ++ (u ++ '.' :: r) = escapeTable (ns ++ ':' :: cls) ++ ['.'] := by
          rw [← hr]
          simp
        obtain ⟨hesc, rfl⟩ := eq_of_escaped_type heq
        rw [List.append_nil] at hdot
        obtain ⟨hsns, hscls⟩ := isSimple_of_append hdot hns hcls
        obtain ⟨htns, htcls⟩ := noTable_of_append hesc
        exact ⟨hsns, hscls, htns, htcls⟩
    · obtain ⟨-, rfl⟩ | ⟨u, rfl, -⟩ := htype
      · have hesc := escapeTable_eq_of_append hr
        exact ⟨⟨by simp, by simp⟩, ⟨hdot, hcls⟩, noTable_iff.mpr rfl, noTable_iff.mpr hesc⟩
      · rw [List.nil_append, List.cons_append] at hr
        have hcolon : ':' ∈ escapeTable b ++ ['.'] := hr ▸ List.mem_cons_self
        simp only [List.mem_append, List.mem_singleton] at hcolon
        obtain hm | hm := hcolon
        · exact absurd (mem_of_mem_escapeTable hm) hcls
        · cases hm
  · rintro ⟨hns, hcls, htns, htcls⟩
    have htake : ∀ x : Text, '.' ∉ x → (x ++ ['.']).takeWhile (· ≠ '.') = x := by
      intro x hx
      exact takeWhile_append_cons (forall_ne_of_not_mem hx) (by decide) _
    obtain rfl | ⟨rfl, rfl⟩ := hb
    · rw [escapeTable_of_noTable htns htcls, htake _ (not_mem_dot hns hcls)] at ht
      rw [ht, parseNamespaceType_append hns.2 hcls.2]
      exact ⟨rfl, rfl⟩
    · rw [noTable_iff.mp htcls, htake _ hcls.1] at ht
      rw [ht, parseNamespaceType_of_not_mem hcls.2]
      exact ⟨rfl, rfl⟩

/-- The text of a WBEM moniker names its class exactly if the class is readable. -/
theorem names_wbem_iff {secure : Bool} {address ns cls b : Text} (haddress : '/' ∉ address)
    (hb : b = ns ++ ':' :: cls ∨ (ns = [] ∧ b = cls)) :
    (parseXid (encodeUri (schemeText secure ++ address ++ '/' :: (b ++ ['.'])))).Names
      (.wbem secure address ns cls) ↔ (StyledClass.wbem secure address ns cls).Readable := by
  have hesc : escapeTable (schemeText secure ++ address ++ '/' :: (b ++ ['.'])) =
      schemeText secure ++ (escapeTable address ++ '/' :: (escapeTable b ++ ['.'])) := by
    rw [escapeTable_append_cons (by decide) (by decide),
      escapeTable_append_cons (by decide) (by decide),
      escapeTable_append_of_not_mem (not_mem_schemeText secure), List.append_assoc]
    rfl
  have hslash : '/' ∉ escapeTable address := fun hm => haddress (mem_of_mem_escapeTable hm)
  obtain ⟨i, hi, hempty⟩ := parseXidWBEM_scheme secure hslash (escapeTable b)
  have hhost : NoTable (StyledClass.wbem secure address ns cls).hostname ↔
      schemeText secure ++ escapeTable address = schemeText secure ++ address := by
    rw [noTable_iff]
    change escapeTable (schemeText secure ++ address) = _ ↔ _
    rw [escapeTable_append_of_not_mem (not_mem_schemeText secure)]
    rfl
  have htype := parseNamespaceType_wbem_iff hb rfl
  rw [encodeUri, hesc, parseXid_quote_of_none (parseXidLocal_scheme secure _),
    parseXidWMI_scheme, hi]
  constructor
  · rintro ⟨h1, -, h2, h3⟩
    obtain ⟨hns, hcls, htns, htcls⟩ := htype.mp ⟨h2, h3⟩
    exact ⟨hns, hcls, hhost.mpr h1, htns, htcls⟩
  · rintro ⟨hns, hcls, hth, htns, htcls⟩
    obtain ⟨h2, h3⟩ := htype.mpr ⟨hns, hcls, htns, htcls⟩
    refine ⟨hhost.mp hth, ?_, h2, h3⟩
    apply hempty
    intro hm
    have hmem := mem_of_mem_escapeTable hm
    obtain rfl | ⟨-, rfl⟩ := hb
    · exact not_mem_dot hns hcls hmem
    · exact hcls.1 hmem

/-! ## Classes of our own -/

theorem eq_of_parseXidLocal_quote {s : Text} {r : EntityTriplet}
    (h : parseXidLocal (quote s) = some r) : r.entityHost = [] ∧ '/' ∉ r.entityType := by
  rw [parseXidLocal, matchLocal_of_not_mem (not_mem_quote (by decide) _), Option.map_map] at h
  obtain ⟨m, hm, rfl⟩ := Option.map_eq_some_iff.mp h
  refine ⟨rfl, fun hmem => ?_⟩
  change '/' ∈ m.1 at hmem
  rw [matchClassId] at hm
  split at hm
  · split at hm
    · cases hm
      exact not_mem_quote (by decide) s ((List.takeWhile_prefix _).subset hmem)
    · cases hm
  · cases hm

section NamesOwn

variable {host cls : Text} (h : isClassName cls = true)

include h

/-- A class that is named by the text of its moniker has no host and no slash. -/
theorem readable_of_names_own (hnames : (parseXid (encodeUri
    (monikerClass cls [] host .other))).Names (.own host cls)) :
    (StyledClass.own host cls).Readable := by
  have hback : '\\' ∉ cls := not_mem_of_isClassName h (by decide)
  obtain ⟨hhost, -, hns, hcls⟩ := hnames
  change _ = host at hhost
  change _ = cls at hcls
  change _ = [] at hns
  have htype := eq_of_parseNamespaceType hns hcls
  cases hr : parseXidLocal (encodeUri (monikerClass cls [] host .other)) with
  | some r =>
    have hparse : parseXid (encodeUri (monikerClass cls [] host .other)) = r := by
      rw [parseXid, hr]
    rw [hparse] at hhost htype
    obtain ⟨hempty, hslash⟩ := eq_of_parseXidLocal_quote hr
    refine ⟨hhost.symm.trans hempty, fun hm => hslash ?_⟩
    obtain ⟨-, heq⟩ | ⟨u, heq, -⟩ := htype.2.2
    · rwa [heq]
    · rw [heq]
      simp [hm]
  | none =>
    rw [encodeUri, parseXid_quote_of_none hr] at hhost htype
    cases hwmi : parseXidWMI (escapeTable (monikerClass cls [] host .other)) with
    | some r =>
      rw [hwmi] at htype
      obtain ⟨-, ns, c, ht, hne, hkey⟩ := isDomain_of_parseXidWMI hwmi
      change _ ∧ _ ∧ ((_ ∧ r.entityType = cls) ∨ ∃ u, r.entityType = ':' :: (cls ++ u) ∧ _) at htype
      rw [ht] at htype
      obtain ⟨-, heq⟩ | ⟨u, heq, -⟩ := htype.2.2
      · exact absurd (heq ▸ by simp) hback
      · obtain ⟨d, ns, rfl⟩ := List.exists_cons_of_ne_nil hne
        rw [(List.cons.inj heq).1] at hkey
        cases hkey
    | none =>
      rw [hwmi] at hhost htype
      cases hwbem : parseXidWBEM (escapeTable (monikerClass cls [] host .other)) with
      | some r =>
        rw [hwbem] at hhost
        change r.entityHost = host at hhost
        subst hhost
        obtain ⟨hne, path, hpath⟩ := eq_of_parseXidWBEM hwbem
        have hmon : monikerClass cls [] r.entityHost .other =
            r.entityHost ++ '@' :: (cls ++ ['.']) := by
          simp [monikerClass, hne]
        rw [hmon, escapeTable_append_cons (by decide) (by decide)] at hpath
        rw [escapeTable_eq_of_append hpath.symm] at hpath
        cases (List.cons.inj (List.append_cancel_left hpath)).1
      | none =>
        rw [hwbem] at htype
        obtain ⟨-, heq⟩ | ⟨u, heq, -⟩ := htype.2.2
        · change [] = cls at heq
          rw [← heq] at h
          cases h
        · cases heq

/-- The text of the moniker of a class without a host and a slash names it. -/
theorem names_own_of_readable (hread : (StyledClass.own host cls).Readable) :
    (parseXid (encodeUri (monikerClass cls [] host .other))).Names (.own host cls) := by
  have hback : '\\' ∉ cls := not_mem_of_isClassName h (by decide)
  have hcolon : ':' ∉ cls := not_mem_of_isClassName h (by decide)
  obtain ⟨hhost, hslash⟩ := hread
  subst hhost
  have hun : ∀ c ∈ cls, isUnreserved c = true := by
    intro c hc
    have hclass := isClassChar_of_mem h hc
    have hne : c ≠ '/' := fun he => hslash (he ▸ hc)
    simp only [isClassChar, isKeyChar, isUnreserved, Bool.or_eq_true, Bool.and_eq_true,
      decide_eq_true_eq] at hclass ⊢
    tauto
  have hquote : encodeUri (monikerClass cls [] [] .other) = cls ++ '.' :: [] := by
    change quote (escapeTable (cls ++ '.' :: [])) = _
    rw [escapeTable_append_of_not_mem hback, quote_append_of_unreserved hun]
    rfl
  rw [hquote, parseXid_append h (Or.inl rfl)]
  refine ⟨rfl, Percent.unquote_nil, ?_, ?_⟩
  · simp only [parseNamespaceType_of_not_mem hcolon]
    rfl
  · simp only [parseNamespaceType_of_not_mem hcolon]
    rfl

/-- The text of a moniker of our own names its class exactly without a host and a slash. -/
theorem names_own_iff :
    (parseXid (encodeUri (monikerClass cls [] host .other))).Names (.own host cls) ↔
      (StyledClass.own host cls).Readable :=
  ⟨readable_of_names_own h, names_own_of_readable h⟩

end NamesOwn

/-! ## The URLs of classes -/

theorem namespace_append (ns cls : Text) :
    ns ++ ':' :: (cls ++ ['.']) = (ns ++ ':' :: cls) ++ ['.'] := by
  rw [List.append_assoc, List.cons_append]

/-- **A URL of a class gives it back exactly if the class is readable.** -/
theorem givesBack_iff_readable (uriRoot : RootUrl) {c : StyledClass} (hc : c.WellFormed)
    {url : Text} (h : IsUrl uriRoot c url) : GivesBack url c ↔ c.Readable := by
  cases h with
  | wmiMoniker host parts cls url b b' b'' h =>
    rw [GivesBack, xidText_entityUrlFromMoniker h]
    exact names_wmi_iff hc cls
  | wmiClass host parts cls =>
    rw [GivesBack, xidText_entityClassUrl]
    exact names_wmi_iff hc cls
  | wbemMoniker secure address ns cls url b b' b'' h =>
    rw [GivesBack, xidText_entityUrlFromMoniker h, buildWbemMoniker]
    split
    · rename_i hns
      exact names_wbem_iff hc (Or.inr ⟨hns, rfl⟩)
    · rw [namespace_append]
      exact names_wbem_iff hc (Or.inl rfl)
  | wbemClass secure address ns cls =>
    rw [GivesBack, xidText_entityClassUrl, monikerClass, namespace_append]
    exact names_wbem_iff hc (Or.inl rfl)
  | own host cls =>
    rw [GivesBack, xidText_entityClassUrl]
    exact names_own_iff hc

/-- The classes of a WMI namespace and of a directory of ours. -/
theorem givesBack_iff_readable_two :
    (GivesBack (entityClassUrl localRoot "Win32_Process".toList "root\\cimv2".toList
        "Lab".toList .wmi) (.wmi "Lab".toList ["cimv2".toList] "Win32_Process".toList) ↔
      (StyledClass.wmi "Lab".toList ["cimv2".toList] "Win32_Process".toList).Readable) ∧
    (GivesBack (entityClassUrl localRoot "oracle/table".toList [] [] .other)
        (.own [] "oracle/table".toList) ↔
      (StyledClass.own [] "oracle/table".toList).Readable) :=
  ⟨givesBack_iff_readable localRoot
      (c := .wmi "Lab".toList ["cimv2".toList] "Win32_Process".toList)
      (fun part hp => by rw [List.mem_singleton.mp hp]; decide) (.wmiClass _ _ _),
    givesBack_iff_readable localRoot (c := .own [] "oracle/table".toList) rfl (.own _ _)⟩

/-- The slash of a class is quoted, and a quoted slash is not part of a class. -/
theorem slash_not_givesBack : ¬ ∀ (uriRoot : RootUrl) (c : StyledClass) (url : Text),
    c.WellFormed → IsUrl uriRoot c url → GivesBack url c := by
  intro h
  have hgive := h localRoot (.own [] "oracle/table".toList) _ rfl (.own _ _)
  rw [GivesBack, xidText_entityClassUrl, names_own_iff (by decide)] at hgive
  exact absurd hgive.2 (by decide)

end Survol.Uris
