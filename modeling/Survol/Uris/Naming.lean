import Survol.Uris.ClassUrls

/-!
# The names of objects

The label of a URL is made of the class and of the values of the object that it stands for.
The universal alias of an object is its label with the name of the host, so that all servers
of a machine agree on it.

## Main definitions

* `urlparse` — the parts of a URL.
* `Naming` — what the classes, the scripts and the network tell.
* `entityToLabel` — the label of an object.
* `parseEntityUri` — the label, the class and the moniker of a URL.
* `nodeToUniversalAlias` — the alias of a URL, which is kept in a dictionary.
-/

namespace Survol.Uris

open PyText (Text splitOn)

/-! ## URLs -/

/-- The parts of a URL. -/
structure ParsedUrl where
  scheme : Text
  netloc : Text
  path : Text
  params : Text
  query : Text
  fragment : Text
  deriving DecidableEq, Repr

/-- The letters of a scheme. -/
def isSchemeChar (c : Char) : Bool :=
  'a' ≤ c && c ≤ 'z' || 'A' ≤ c && c ≤ 'Z' || '0' ≤ c && c ≤ '9' || c = '+' || c = '-' || c = '.'

/-- The scheme of a URL, in lower case, and the rest. -/
def splitScheme (url : Text) : Text × Text :=
  match url.takeWhile (· ≠ ':'), url.dropWhile (· ≠ ':') with
  | c :: scheme, _ :: rest =>
    if (c :: scheme).all isSchemeChar then ((c :: scheme).map Char.toLower, rest) else ([], url)
  | _, _ => ([], url)

/-- The characters that end the location of a server. -/
def endsNetloc (c : Char) : Bool := c = '/' || c = '?' || c = '#'

/-- The location of the server of a URL, and the rest. -/
def splitNetloc : Text → Text × Text
  | '/' :: '/' :: s => (s.takeWhile (!endsNetloc ·), s.dropWhile (!endsNetloc ·))
  | s => ([], s)

/-- The text before and after the first character `c`. -/
def partition (c : Char) (s : Text) : Text × Text :=
  (s.takeWhile (· ≠ c), (s.dropWhile (· ≠ c)).drop 1)

/-- The last part of a path. -/
def basename (path : Text) : Text := (path.reverse.takeWhile (· ≠ '/')).reverse

/-- The path without its last part. -/
def dirname (path : Text) : Text := (path.reverse.dropWhile (· ≠ '/')).reverse

/-- The schemes whose paths have parameters. -/
def usesParams : List Text :=
  ["", "ftp", "hdl", "prospero", "http", "https", "shttp", "rtsp", "rtspu", "sip", "sips", "mms",
    "sftp", "tel"].map String.toList

/-- The parts of a URL. -/
def urlparse (url : Text) : ParsedUrl :=
  let (scheme, url) := splitScheme url
  let (netloc, url) := splitNetloc url
  let (url, fragment) := partition '#' url
  let (url, query) := partition '?' url
  let (path, params) := if scheme ∈ usesParams then partition ';' (basename url)
    else (basename url, [])
  ⟨scheme, netloc, dirname url ++ path, params, query, fragment⟩

/-! ## Labels -/

/-- What the modules of the classes and the network tell. -/
structure Naming where
  /-- The URL of this server. -/
  uriRoot : Text
  /-- The keys of a class. -/
  ontologyClassKeys : Text → List Text
  /-- The alias function of a class, of the values, the host and the class. -/
  universalAlias : Text → Option (List Text → Text → Text → Text)
  /-- The name function of a class. -/
  entityName : Text → Option (List Text → Text)
  /-- Whether a class has a colour of its own. -/
  hasGraphParams : Text → Bool
  /-- Whether a host is this machine. -/
  isLocalAddress : Text → Bool
  /-- The printed form of a URL. -/
  reprParsedUrl : ParsedUrl → Text

/-- The alias of an object. -/
def entityArrToAlias (N : Naming) (entityType : Text) (entityIdsArr : List Text)
    (forceEntityIpAddr : Text) : Text :=
  match N.universalAlias entityType with
  | some funcUniversalAlias => funcUniversalAlias entityIdsArr forceEntityIpAddr entityType
  | none => forceEntityIpAddr ++ '@' :: (entityType ++ ':' :: join ",".toList entityIdsArr)

/-- The name of an object. -/
def entityArrToLabel (N : Naming) (entityType : Text) (entityIdsArr : List Text) : Text :=
  match N.entityName entityType with
  | some funcEntityName => funcEntityName entityIdsArr
  | none =>
    let entIdsJoined := join ",".toList entityIdsArr
    if N.hasGraphParams entityType then entIdsJoined
    else entIdsJoined ++ " (".toList ++ entityType ++ ")".toList

/-- The values of an object, in the order of the keys of its class. -/
def entityIdsArr (keys : List Text) (splitKV : Dict Text Text) : List Text :=
  keys.map fun keyOnto => (Dict.get? splitKV keyOnto).getD (keyOnto ++ "?".toList)

/-- The label of an object: its alias if a host is given, then the properties that are not
keys. -/
def entityToLabel (N : Naming) (entityType entityIdsConcat forceEntityIpAddr : Text) : Text :=
  if entityIdsConcat = [] then entityType
  else
    let splitKV := splitMoniker entityIdsConcat
    let ontoKeys := N.ontologyClassKeys entityType
    let arr := entityIdsArr ontoKeys splitKV
    let entityLabel :=
      if forceEntityIpAddr ≠ [] then entityArrToAlias N entityType arr forceEntityIpAddr
      else entityArrToLabel N entityType arr
    entityLabel ++ (splitKV.filter fun p => p.1 ∉ ontoKeys).flatMap fun p =>
      ' ' :: (p.1 ++ '=' :: p.2)

/-! ## The titles of scripts -/

/-- The titles of the scripts. -/
def scriptsToTitles : Dict String String :=
  [("portal_wbem.py", "WBEM server "),
    ("portal_wmi.py", "WMI server "),
    ("class_wbem.py", "WBEM class"),
    ("class_wmi.py", "WMI class"),
    ("file_directory.py", "Directory content"),
    ("objtypes.py", "Classes hierarchy"),
    ("objtypes_wbem.py", "WBEM subclasses"),
    ("objtypes_wmi.py", "WMI subclasses"),
    ("namespaces_wbem.py", "WBEM namespaces"),
    ("namespaces_wmi.py", "WMI namespaces"),
    ("entity.py", ""),
    ("entity_wbem.py", "WBEM"),
    ("entity_wmi.py", "WMI")]

/-- The title of a script: `none` where a missing suffix raises. -/
def knownScriptToTitle (N : Naming) (filScript uriMode entityHost : Text)
    (entitySuffix : Option Text) : Option Text :=
  if filScript = "entity_mime.py".toList then
    let suffix := if entitySuffix.getD [] = [] then "None".toList else entitySuffix.getD []
    some (suffix ++ " (".toList ++ uriMode.drop 5 ++ ")".toList)
  else if filScript = "class_type_all.py".toList then
    entitySuffix.map fun suffix =>
      suffix ++ (if N.ontologyClassKeys suffix = [] then " (Domain)" else " (Class)").toList
  else
    let title := match scriptsToTitles.find? fun p => p.1.toList = filScript with
      | some (_, title) => title.toList
      | none => filScript ++ "...".toList
    let suffix := entitySuffix.getD []
    let entityLabel :=
      if suffix = [] then title
      else if title = [] then suffix else suffix ++ " (".toList ++ title ++ ")".toList
    some (if entityHost ≠ [] ∧ N.isLocalAddress entityHost = false then
      entityLabel ++ " at ".toList ++ entityHost else entityLabel)

/-- The title of a URL that is not ours. -/
def uriToTitle (uprs : ParsedUrl) : Text :=
  let basna := encodeUri (basename uprs.path)
  if uprs.netloc ≠ [] then uprs.netloc ++ '/' :: basna else basna

/-! ## The label of a URL -/

/-- The mode of a URL. -/
def getModeFromUrl (url : Text) : Text :=
  match lastMode url with
  | some (_, _, rest) => rest.takeWhile (· ≠ '&')
  | none => []

/-- The script and the query of the arguments of the script that runs other scripts. -/
def scriptArgs (uprs : ParsedUrl) : Text × Text :=
  (splitOn '&' (urlNoAmp uprs.query)).foldl (fun (r : Text × Text) oneSplt =>
    if oneSplt.takeWhile (· ≠ '=') = "script".toList then
      ((oneSplt.dropWhile (· ≠ '=')).drop 1, r.2)
    else (r.1, r.2 ++ (if r.2 = [] then '?' else '&') :: oneSplt)) ([], [])

/-- The URL of the script that is run, if there is one. -/
def urlRebuilt? (uprs : ParsedUrl) : Option Text :=
  let (scriptRebuilt, queryRebuild) := scriptArgs uprs
  if scriptRebuilt ≠ [] then
    some (uprs.scheme ++ "://".toList ++ uprs.netloc ++ scriptRebuilt ++ queryRebuild)
  else none

/-- The class of a script that enumerates the objects of a class. -/
def enumerated? (uri : Text) : Option Text :=
  let uri := if uri.getLast? = some '\n' then uri.dropLast else uri
  if '\n' ∈ uri ∨ '/' ∉ uri then none
  else (after? "enumerate_".toList (basename uri)).bind fun s =>
    if s.dropWhile isKeyChar = ".py".toList then some (s.takeWhile isKeyChar) else none

/-- `replace("%20", " ")` -/
def replaceSpaces : Text → Text
  | '%' :: '2' :: '0' :: s => ' ' :: replaceSpaces s
  | c :: s => c :: replaceSpaces s
  | [] => []

/-- The label, the class and the moniker of a URL, where at most `n` scripts run a script;
`none` where it raises. -/
def parseEntityUriUpTo (N : Naming) : ℕ → Text → Bool → Text → Option (Text × Text × Text)
  | 0, _, _, _ => none
  | n + 1, uriWithMode, longDisplay, forceEntityIpAddr =>
    let uriWithModeClean := urlNoAmp uriWithMode
    let uri := anyUriModed uriWithModeClean []
    let uriMode := getModeFromUrl uriWithModeClean
    let uprs := urlparse uri
    let filScript := basename uprs.path
    if filScript = "survolcgi.py".toList then
      match urlRebuilt? uprs with
      | some urlRebuilt => parseEntityUriUpTo N n urlRebuilt longDisplay forceEntityIpAddr
      | none => some ("Incomplete CGI script:".toList ++ N.reprParsedUrl uprs,
          "Unknown subjEntityGraphicClass".toList, "Unknown entity_id".toList)
    else if "xid=".toList.isPrefixOf uprs.query then
      let xid := parseXid (uprs.query.drop 4)
      let ns := parseNamespaceType xid.entityType
      let label := if ns.2.1 ≠ [] ∨ xid.entityId ≠ [] then
        entityToLabel N ns.2.1 xid.entityId forceEntityIpAddr else ns.1
      let label := if label = [] then xid.entityType else label
      let label? := if longDisplay then
        knownScriptToTitle N filScript uriMode xid.entityHost (some label) else some label
      label?.map fun label => (label, xid.entityType, xid.entityId)
    else if N.uriRoot.isPrefixOf uri then
      match enumerated? uri with
      | some cls => some (cls ++ " enumeration".toList, cls, [])
      | none => (knownScriptToTitle N filScript uriMode [] none).map fun label =>
          (label, "CIM_DataFile/script".toList, [])
    else if uri.takeWhile (· ≠ ':') ∈
        ["ftp", "http", "https", "urn", "mail"].map String.toList then
      some (uriWithMode, [], [])
    else some (replaceSpaces (uriToTitle uprs), [], "PLAINTEXTONLY".toList)

/-- The label, the class and the moniker of a URL. -/
def parseEntityUri (N : Naming) (uriWithMode : Text) (longDisplay : Bool)
    (forceEntityIpAddr : Text) : Option (Text × Text × Text) :=
  parseEntityUriUpTo N (uriWithMode.length + 1) uriWithMode longDisplay forceEntityIpAddr

/-! ## Aliases -/

/-- The host of a URL, in lower case. -/
def entityIpAddr (anObject : Text) : Text :=
  ((urlparse anObject).netloc.takeWhile (· ≠ ':')).map Char.toLower

/-- The alias of a URL. -/
def makeUniversalAliasNoCache (N : Naming) (anObject : Text) : Option Text :=
  (parseEntityUri N anObject true (entityIpAddr anObject)).map Prod.fst

/-- The alias of a URL, and the aliases that are known afterwards. -/
def nodeToUniversalAlias (N : Naming) (dictNodeToUniversalAlias : Dict Text Text)
    (anObject : Text) : Option (Text × Dict Text Text) :=
  match Dict.get? dictNodeToUniversalAlias anObject with
  | some uniAlias => some (uniAlias, dictNodeToUniversalAlias)
  | none => (makeUniversalAliasNoCache N anObject).map fun uniAlias =>
      (uniAlias, Dict.set dictNodeToUniversalAlias anObject uniAlias)

/-- The aliases that are known after some URLs. -/
def aliasesAfter (N : Naming) (anObjects : List Text) : Dict Text Text :=
  anObjects.foldl (fun dictNodeToUniversalAlias anObject =>
    ((nodeToUniversalAlias N dictNodeToUniversalAlias anObject).map Prod.snd).getD
      dictNodeToUniversalAlias) []

/-- The alias that is given to a URL, after some others. -/
def aliasAfter (N : Naming) (anObjects : List Text) (anObject : Text) : Option Text :=
  (nodeToUniversalAlias N (aliasesAfter N anObjects) anObject).map Prod.fst

/-! ## The dictionary of aliases -/

/-- The known aliases are those that are made. -/
def AliasesOk (N : Naming) (d : Dict Text Text) : Prop :=
  ∀ u a, Dict.get? d u = some a → makeUniversalAliasNoCache N u = some a

theorem AliasesOk.step {N : Naming} {d d' : Dict Text Text} {u a : Text} (h : AliasesOk N d)
    (hd : nodeToUniversalAlias N d u = some (a, d')) :
    makeUniversalAliasNoCache N u = some a ∧ AliasesOk N d' := by
  rw [nodeToUniversalAlias] at hd
  split at hd
  · rename_i b hb
    cases hd
    exact ⟨h u a hb, h⟩
  · obtain ⟨b, hb, he⟩ := Option.map_eq_some_iff.mp hd
    cases he
    refine ⟨hb, ?_⟩
    intro v c hv
    rw [Dict.get?_set] at hv
    split at hv
    · rename_i huv
      cases hv
      exact huv ▸ hb
    · exact h v c hv

theorem aliasesOk_aliasesAfter (N : Naming) (us : List Text) : AliasesOk N (aliasesAfter N us) := by
  have hfold : ∀ d, AliasesOk N d → AliasesOk N (us.foldl (fun d u =>
      ((nodeToUniversalAlias N d u).map Prod.snd).getD d) d) := by
    induction us with
    | nil => exact fun _ h => h
    | cons u us ih =>
      intro d hd
      apply ih
      change AliasesOk N (((nodeToUniversalAlias N d u).map Prod.snd).getD d)
      cases hn : nodeToUniversalAlias N d u with
      | none => exact hd
      | some x => exact (hd.step hn).2
  exact hfold [] fun u a h => nomatch h

/-- **The dictionary does not change the aliases.** -/
theorem aliasAfter_eq (N : Naming) (us : List Text) (u : Text) :
    aliasAfter N us u = makeUniversalAliasNoCache N u := by
  have hok := aliasesOk_aliasesAfter N us
  rw [aliasAfter]
  cases hn : nodeToUniversalAlias N (aliasesAfter N us) u with
  | some x => exact (hok.step hn).1.symm
  | none =>
    rw [nodeToUniversalAlias] at hn
    split at hn
    · cases hn
    · rw [Option.map_eq_none_iff.mp hn]
      rfl

end Survol.Uris
