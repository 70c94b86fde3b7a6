import Survol.Lib.Base64
import Survol.Uris.Monikers

/-!
# The URLs of SQL queries

An SQL query is a value of its URL, in base 64. The alphabet of base 64 and its padding go
through the moniker and through the percent decoding, so the query is given back, whatever
its text.

## Main definitions

* `CgiKey` — a key of a class, which may encode its values.
* `base64Encode`, `base64Decode` — the code of a text, and the text of a code.
* `uriMakeFromDict`, `makeUri` — the URL of an object, and of a query.
* `getEnvArgs`, `entityIdToArrayOf` — the query and the values of a moniker.
-/

namespace Survol.Uris

open PyText (Text)
open Percent (unquote)

/-! ## Codes -/

/-- The code of a text. -/
def base64Encode (text : Text) : Text := Base64.encode (Utf8.encodeText text)

/-- The text of a code, whose padding may be missing; `strExc` gives the text of an error. -/
def base64Decode (strExc : Text → Text) (text : Text) : Text :=
  let missingPadding := text.length % 4
  let text := if missingPadding ≠ 0 then text ++ List.replicate (4 - missingPadding) '=' else text
  match (Base64.decode text).bind Utf8.decodeStrict with
  | some resu => resu
  | none => text ++ ':' :: strExc text

/-- The coding of the values of a key. -/
structure ValueCodec where
  valueEncode : Text → Text
  valueDecode : Text → Text

/-- A key of a class: a plain text, or one that codes its values. -/
structure CgiKey where
  name : Text
  codec : Option ValueCodec

/-- A key that is a plain text. -/
def plainKey (name : Text) : CgiKey := ⟨name, none⟩

/-- A key whose values are in base 64. -/
def cgiPropertyB64 (strExc : Text → Text) (propName : Text) : CgiKey :=
  ⟨propName, some ⟨base64Encode, base64Decode strExc⟩⟩

/-- The key of a query. -/
def cgiPropertyQuery (strExc : Text → Text) : CgiKey := cgiPropertyB64 strExc "Query".toList

/-! ## URLs -/

/-- The name of a key and the code of its value. -/
def uriPairEncode (p : CgiKey × Text) : Text × Text :=
  match p.1.codec with
  | some codec => (p.1.name, codec.valueEncode p.2)
  | none => (p.1.name, p.2)

/-- The URL of an object with some keys and values. -/
def uriMakeFromDict (uriRoot : RootUrl) (entityType : Text) (entityIdDict : List (CgiKey × Text)) :
    Text :=
  makeTheNode uriRoot entityType
    (join ",".toList (entityIdDict.map fun p => (uriPairEncode p).1 ++ '=' :: (uriPairEncode p).2))

/-- The URL of a query, with further keys. -/
def makeUri (uriRoot : RootUrl) (strQuery derivedEntity : Text) (kwargs : Dict Text Text) : Text :=
  let allKeyedArgs := kwargs.foldl (fun d p => Dict.set d p.1 p.2)
    [("Query".toList, base64Encode strQuery)]
  uriMakeFromDict uriRoot derivedEntity (allKeyedArgs.map fun p => (plainKey p.1, p.2))

/-- What follows the delimiter `?xid=` in a URL. -/
def xidOf (url : Text) : Text := (url.dropWhile (· ≠ '?')).drop "?xid=".length

/-! ## Decoding -/

/-- The query of the arguments of a script. -/
def getEnvArgs (strExc : Text → Text) (entityIdDict : Dict Text Text) : Option Text :=
  (Dict.get? entityIdDict "Query".toList).map (base64Decode strExc)

/-- The value of a key in a dictionary. -/
def decodeCgiArg (dictIds : Dict Text Text) (aKey : CgiKey) : Option Text :=
  (Dict.get? dictIds aKey.name).map fun aValRaw =>
    match aKey.codec with
    | some codec => codec.valueDecode aValRaw
    | none => aValRaw

/-- The values of the keys of a class, if they are all there. -/
def entityIdToArrayOf (ontoKeys : List CgiKey) (entityId : Text) : Option (List Text) :=
  ontoKeys.mapM (decodeCgiArg (splitMoniker entityId))

/-- The keys of a query besides its text. -/
structure FurtherKeys (kwargs : Dict Text Text) : Prop where
  nodup : (Dict.keys kwargs).Nodup
  notQuery : "Query".toList ∉ Dict.keys kwargs
  isKey : ∀ p ∈ kwargs, IsKey p.1
  isBare : ∀ p ∈ kwargs, IsBare p.2 ∧ '%' ∉ p.2

/-- A key of a query: its text, which decodes itself, or a plain one. -/
def IsQueryKey (strExc : Text → Text) (k : CgiKey) : Prop :=
  k = cgiPropertyQuery strExc ∨ (k.codec = none ∧ k.name ≠ "Query".toList)

/-! ## The code of a query -/

/-- **The code of a text is decoded to it.** -/
theorem base64Decode_base64Encode (strExc : Text → Text) (text : Text) :
    base64Decode strExc (base64Encode text) = text := by
  have hdecode : Base64.decode (base64Encode text) = some (Utf8.encodeText text) :=
    Base64.decode_encode fun b => Utf8.lt_of_mem_encodeText
  have hlen : ¬ (base64Encode text).length % 4 ≠ 0 := by
    have := Base64.length_encode (Utf8.encodeText text)
    simpa [base64Encode] using this
  rw [base64Decode]
  simp only [if_neg hlen, hdecode, Option.bind_some, Utf8.decodeStrict_encodeText]

/-- The letters of a code are left by the moniker and by the percent decoding. -/
theorem mem_base64Encode {text : Text} {c : Char} (h : c ∈ base64Encode text) :
    c ≠ ',' ∧ c ≠ '"' ∧ c ≠ '\n' ∧ c ≠ '%' := by
  have hc := Base64.mem_encode (fun b => Utf8.lt_of_mem_encodeText) h
  have hno : ∀ d ∈ ",\"\n%".toList, Base64.isDigit d = false ∧ d ≠ '=' := by decide
  have hne : ∀ d ∈ ",\"\n%".toList, c ≠ d := by
    intro d hd he
    obtain ⟨h1, h2⟩ := hno d hd
    obtain hc | hc := hc
    · rw [he, h1] at hc
      cases hc
    · exact h2 (he ▸ hc)
  exact ⟨hne _ (by decide), hne _ (by decide), hne _ (by decide), hne _ (by decide)⟩

/-! ## The moniker of a query -/

/-- The values in the moniker of a query. -/
def queryArgs (strQuery : Text) (kwargs : Dict Text Text) : Dict Text Text :=
  ("Query".toList, base64Encode strQuery) :: kwargs

theorem foldl_set_eq {kwargs d : Dict Text Text} (h : (Dict.keys (d ++ kwargs)).Nodup) :
    kwargs.foldl (fun d p => Dict.set d p.1 p.2) d = d ++ kwargs := by
  induction kwargs generalizing d with
  | nil => simp
  | cons p kwargs ih =>
    have hnot : p.1 ∉ Dict.keys d := by
      intro hm
      rw [Dict.keys, List.map_append, List.nodup_append] at h
      exact h.2.2 p.1 hm p.1 List.mem_cons_self rfl
    have hset : Dict.set d p.1 p.2 = d ++ [p] :=
      Dict.set_of_get?_eq_none ((Dict.get?_eq_none_iff d p.1).mpr hnot) _
    rw [List.foldl_cons, hset, ih]
    · simp
    · simpa using h

section

variable {kwargs : Dict Text Text} (h : FurtherKeys kwargs) (strQuery : Text)

include h

theorem nodup_queryArgs : (Dict.keys (queryArgs strQuery kwargs)).Nodup :=
  List.nodup_cons.mpr ⟨h.notQuery, h.nodup⟩

theorem isBare_queryArgs :
    ∀ p ∈ queryArgs strQuery kwargs, IsKey p.1 ∧ IsBare p.2 ∧ '%' ∉ p.2 := by
  intro p hp
  obtain rfl | hp := List.mem_cons.mp hp
  · have hquery : IsKey "Query".toList := by decide
    refine ⟨hquery, ?_, fun hm => (mem_base64Encode hm).2.2.2 rfl⟩
    intro c hc
    obtain ⟨h1, h2, h3, -⟩ := mem_base64Encode hc
    exact ⟨h1, h2, h3⟩
  · exact ⟨h.isKey p hp, h.isBare p hp⟩

/-- The URL of a query is that of the moniker of its values. -/
theorem makeUri_eq (uriRoot : RootUrl) (derivedEntity : Text) :
    makeUri uriRoot strQuery derivedEntity kwargs =
      makeTheNode uriRoot derivedEntity (buildMonikerPath (queryArgs strQuery kwargs)) := by
  have hfold : kwargs.foldl (fun d p => Dict.set d p.1 p.2)
      [("Query".toList, base64Encode strQuery)] = queryArgs strQuery kwargs :=
    foldl_set_eq (nodup_queryArgs h strQuery)
  rw [makeUri, uriMakeFromDict, hfold, List.map_map]
  rfl

theorem not_mem_buildMonikerPath {c : Char} (hc : c = '\n' ∨ c = '%') :
    c ∉ buildMonikerPath (queryArgs strQuery kwargs) := by
  have hsep : c ≠ ',' ∧ c ≠ '=' ∧ isKeyChar c = false := by
    obtain rfl | rfl := hc <;> decide
  have hmem : ∀ w ∈ (queryArgs strQuery kwargs).map (fun p => p.1 ++ '=' :: p.2), c ∉ w := by
    intro w hw
    obtain ⟨p, hp, rfl⟩ := List.mem_map.mp hw
    obtain ⟨hkey, hbare, hpct⟩ := isBare_queryArgs h strQuery p hp
    simp only [List.mem_append, List.mem_cons, not_or]
    refine ⟨not_mem_of_all hkey.2 hsep.2.2, hsep.2.1, ?_⟩
    obtain rfl | rfl := hc
    · exact fun hm => (hbare _ hm).2.2 rfl
    · exact hpct
  rw [buildMonikerPath]
  generalize (queryArgs strQuery kwargs).map (fun p => p.1 ++ '=' :: p.2) = ws at hmem
  induction ws with
  | nil => simp [join]
  | cons w ws ih =>
    have ih := ih fun w' hw => hmem w' (List.mem_cons_of_mem w hw)
    have hw := hmem w List.mem_cons_self
    cases ws with
    | nil => exact hw
    | cons w' ws =>
      rw [join]
      · simp only [List.mem_append, not_or]
        refine ⟨⟨hw, ?_⟩, ih⟩
        simpa using hsep.1
      · simp

/-- The class and the moniker of the URL of a query. -/
theorem parseXid_makeUri (uriRoot : RootUrl) {derivedEntity : Text}
    (hcls : isClassName derivedEntity = true) :
    parseXid (xidOf (makeUri uriRoot strQuery derivedEntity kwargs)) =
      ⟨derivedEntity, buildMonikerPath (queryArgs strQuery kwargs), []⟩ := by
  have hmoniker : IsMoniker (buildMonikerPath (queryArgs strQuery kwargs)) := by
    refine Or.inr ⟨"Query".toList, ?_, ?_, by decide⟩
    · exact (buildMonikerPath (queryArgs strQuery kwargs)).drop 6
    · cases kwargs <;> rfl
  have hxid : xidOf (makeUri uriRoot strQuery derivedEntity kwargs) =
      derivedEntity ++ '.' :: buildMonikerPath (queryArgs strQuery kwargs) := by
    have hroot : ∀ c ∈ uriRoot.text ++ "/entity.py".toList, decide (c ≠ '?') = true := by
      intro c hc
      have hscript : ∀ d ∈ "/entity.py".toList, d ≠ '?' := by decide
      have hne : c ≠ '?' := by
        obtain hc | hc := List.mem_append.mp hc
        · exact (uriRoot.no_delimiter c hc).1
        · exact hscript c hc
      simpa using hne
    rw [makeUri_eq h, xidOf, makeTheNode, makeTheNodeFromScript]
    rw [List.append_assoc, List.append_assoc,
      List.dropWhile_append_of_pos hroot]
    rfl
  rw [hxid, parseXid_append hcls hmoniker,
    firstLine_eq_self_iff.mpr (not_mem_buildMonikerPath h strQuery (Or.inl rfl)),
    Percent.unquote_eq_self_of_not_mem (not_mem_buildMonikerPath h strQuery (Or.inr rfl))]

/-- The values of the moniker of a query are its code and its further values. -/
theorem splitMoniker_queryArgs :
    splitMoniker (buildMonikerPath (queryArgs strQuery kwargs)) = queryArgs strQuery kwargs :=
  splitMoniker_buildMonikerPath_eq (nodup_queryArgs h strQuery) fun p hp =>
    ⟨(isBare_queryArgs h strQuery p hp).1, (isBare_queryArgs h strQuery p hp).2.1⟩

end

/-- The value of a key of a query. -/
theorem decodeCgiArg_queryArgs {strExc : Text → Text} (strQuery : Text) (kwargs : Dict Text Text)
    {k : CgiKey} (hk : IsQueryKey strExc k) : decodeCgiArg (queryArgs strQuery kwargs) k =
      Dict.get? (("Query".toList, strQuery) :: kwargs) k.name := by
  obtain rfl | ⟨hcodec, hname⟩ := hk
  · have hget : Dict.get? (queryArgs strQuery kwargs) "Query".toList =
        some (base64Encode strQuery) := by
      rw [queryArgs, Dict.get?_cons, if_pos rfl]
    have hgoal : decodeCgiArg (queryArgs strQuery kwargs) (cgiPropertyQuery strExc) =
        some (base64Decode strExc (base64Encode strQuery)) := by
      change (Dict.get? (queryArgs strQuery kwargs) "Query".toList).map _ = _
      rw [hget]
      rfl
    rw [hgoal, base64Decode_base64Encode, Dict.get?_cons, if_pos]
    rfl
  · rw [decodeCgiArg, queryArgs, Dict.get?_cons, Dict.get?_cons, if_neg hname.symm,
      if_neg hname.symm, hcodec]
    cases Dict.get? kwargs k.name <;> rfl

theorem mapM_congr {α β : Type} {f g : α → Option β} {l : List α} (h : ∀ x ∈ l, f x = g x) :
    l.mapM f = l.mapM g := by
  induction l with
  | nil => rfl
  | cons x l ih =>
    rw [List.mapM_cons, List.mapM_cons, h x List.mem_cons_self,
      ih fun y hy => h y (List.mem_cons_of_mem x hy)]

/-- **The URL of a query gives back the query and its further values**, through the arguments of
a script and through the keys of the class. -/
theorem queryUrl_givesBack (strExc : Text → Text) (uriRoot : RootUrl) {derivedEntity : Text}
    (hcls : isClassName derivedEntity = true) {kwargs : Dict Text Text} (h : FurtherKeys kwargs)
    (strQuery : Text) :
    let xid := parseXid (xidOf (makeUri uriRoot strQuery derivedEntity kwargs))
    xid.entityType = derivedEntity ∧ xid.entityHost = [] ∧
      Dict.keys (splitMoniker xid.entityId) = "Query".toList :: Dict.keys kwargs ∧
      getEnvArgs strExc (splitMoniker xid.entityId) = some strQuery ∧
      (∀ p ∈ kwargs, Dict.get? (splitMoniker xid.entityId) p.1 = some p.2) ∧
      ∀ ontoKeys : List CgiKey, (∀ k ∈ ontoKeys, IsQueryKey strExc k) →
        entityIdToArrayOf ontoKeys xid.entityId =
          ontoKeys.mapM fun k => Dict.get? (("Query".toList, strQuery) :: kwargs) k.name := by
  rw [parseXid_makeUri h strQuery uriRoot hcls]
  simp only [splitMoniker_queryArgs h strQuery, true_and]
  refine ⟨rfl, ?_, ?_, ?_⟩
  · rw [getEnvArgs, queryArgs, Dict.get?_cons, if_pos rfl, Option.map_some,
      base64Decode_base64Encode]
  · intro p hp
    exact Dict.get?_of_mem (nodup_queryArgs h strQuery) (List.mem_cons_of_mem _ hp)
  · intro ontoKeys hkeys
    rw [entityIdToArrayOf, splitMoniker_queryArgs h strQuery]
    exact mapM_congr fun k hk => decodeCgiArg_queryArgs strQuery kwargs (hkeys k hk)

/-- A query with a comma and a double quote, of a database. -/
theorem queryUrl_givesBack_two :
    let xid := parseXid (xidOf (makeUri localRoot "select \"é\",1".toList "oracle/query".toList
      [("Db".toList, "a=b".toList)]))
    getEnvArgs id (splitMoniker xid.entityId) = some "select \"é\",1".toList ∧
      entityIdToArrayOf [cgiPropertyQuery id, plainKey "Db".toList] xid.entityId =
        some ["select \"é\",1".toList, "a=b".toList] := by
  have hkwargs : FurtherKeys [("Db".toList, "a=b".toList)] :=
    ⟨by decide, by decide, by decide, by decide⟩
  obtain ⟨-, -, -, hargs, -, harray⟩ := @queryUrl_givesBack id localRoot
    "oracle/query".toList (by decide) _ hkwargs "select \"é\",1".toList
  refine ⟨hargs, (harray _ ?_).trans rfl⟩
  intro k hk
  simp only [List.mem_cons, List.not_mem_nil, or_false] at hk
  obtain rfl | rfl := hk
  · exact Or.inl rfl
  · exact Or.inr ⟨rfl, by decide⟩

end Survol.Uris
