import Survol.Lib.Splitting
import Survol.Uris.Xid
import Mathlib.Data.List.TakeWhile

/-!
# The two decodings of the URL of an object

A script receives the object of its URL as a form: the server splits the query at its
ampersands, and unquotes the values, before the moniker is parsed. The display parses the text
of the URL as it is. Parsing unquotes the moniker too, so the first way unquotes it twice.

## Main definitions

* `getXid` — the object of a query, for a script.
* `entityUriXid` — the object of a URL, for the display.
* `Undisturbed` — a moniker without a character that only one of the two interprets.

## Main results

* `agree_iff_undisturbed` — the two agree on the URL of an object exactly if its moniker is
  undisturbed.
-/

namespace Survol.Uris

open PyText (Text splitOn splitOn_append digitVal?)
open Percent

/-! ## The form of a script -/

/-- The text `s.replace("+", " ")`. -/
def plusToSpace (s : Text) : Text := s.map fun c => if c = '+' then ' ' else c

/-- The name and the value of a pair of a form; a pair without a value is skipped. -/
def formPair? (nameValue : Text) : Option (Text × Text) :=
  match nameValue.dropWhile (· ≠ '=') with
  | _ :: c :: value => some (unquote (plusToSpace (nameValue.takeWhile (· ≠ '='))),
      unquote (plusToSpace (c :: value)))
  | _ => none

/-- The values of a name in a list of pairs. -/
def valuesOf (name : Text) (pairs : List Text) : List Text :=
  ((pairs.filterMap formPair?).filter fun p => p.1 = name).map Prod.snd

/-- The object of a query: nothing without a moniker, and an error with several ones. -/
def getXid (query : Text) : Option EntityTriplet :=
  match valuesOf "xid".toList (splitOn '&' query) with
  | [] => some ⟨[], [], []⟩
  | [xid] => some (parseXid xid)
  | _ => none

/-! ## The text of a URL -/

/-- The text `url.replace("&amp;", "&")`. -/
def replaceAmp : Text → Text
  | '&' :: 'a' :: 'm' :: 'p' :: ';' :: s => '&' :: replaceAmp s
  | c :: s => c :: replaceAmp s
  | [] => []

/-- A URL without escaped ampersands. -/
def urlNoAmp (url : Text) : Text := replaceAmp (replaceAmp url)

/-- The last match of `(.*)([\?\&])mode=`, and what follows it. -/
def lastMode : Text → Option (Text × Char × Text)
  | [] => none
  | c :: s =>
    if c = '\n' then none
    else match lastMode s with
      | some (group1, group2, rest) => some (c :: group1, group2, rest)
      | none =>
        if (c = '?' || c = '&') && "mode=".toList.isPrefixOf s then some ([], c, s.drop 5)
        else none

/-- A URL with one more argument. -/
def concatenateCgi (url keyvalpair : Text) : Text :=
  if '?' ∈ url then url ++ '&' :: keyvalpair else url ++ '?' :: keyvalpair

/-- A URL with another mode, or with none. -/
def anyUriModed (script otherMode : Text) : Text :=
  match lastMode script with
  | some (group1, group2, rest) =>
    let group3 := firstLine (rest.dropWhile (· ≠ '&'))
    if otherMode ≠ [] then group1 ++ group2 :: ("mode=".toList ++ otherMode ++ group3)
    else if group2 = '?' then
      if group3 ≠ [] then group1 ++ '?' :: group3.drop 1 else group1
    else group1 ++ group3
  | none => if otherMode ≠ [] then concatenateCgi script ("mode=".toList ++ otherMode) else script

/-- The object of a URL, for the display. -/
def entityUriXid (uriWithMode : Text) : Option EntityTriplet :=
  let query := urlQuery (anyUriModed (urlNoAmp uriWithMode) [])
  if "xid=".toList.isPrefixOf query then some (parseXid (query.drop 4)) else none

/-! ## The condition -/

/-- The part of a moniker that is parsed: the first line, up to the fragment. -/
def parsedPart (e : Text) : Text := e.takeWhile fun c => c ≠ '\n' && c ≠ '#'

/-- The pairs that a moniker adds to a query. -/
def extraPairs (e : Text) : List Text := (splitOn '&' (e.takeWhile (· ≠ '#'))).tail

/-- A moniker that has no argument, no plus sign, no escaped line break and no escaped escape. -/
structure Undisturbed (e : Text) : Prop where
  noAmpersand : '&' ∉ parsedPart e
  noPlus : '+' ∉ parsedPart e
  oneLine : '\n' ∉ unquote (parsedPart e)
  noEscape : hasEscape (unquote (parsedPart e)) = false
  oneXid : valuesOf "xid".toList (extraPairs e) = []

/-- The display and a script see the same object. -/
def Agree (url : Text) : Prop :=
  ∃ xid, getXid (urlQuery url) = some xid ∧ entityUriXid url = some xid

/-- The display takes no argument for a mode. -/
def NoMode (url : Text) : Prop := lastMode (urlNoAmp url) = none

/-! ## Monikers -/

theorem IsMoniker.takeWhile_ne {e : Text} (h : IsMoniker e) {d : Char} (hd : isKeyChar d = false)
    (heq : '=' ≠ d) : IsMoniker (e.takeWhile (· ≠ d)) := by
  obtain rfl | ⟨k, v, rfl, hk⟩ := h
  · exact Or.inl rfl
  · refine Or.inr ⟨k, v.takeWhile (· ≠ d), ?_, hk⟩
    have hkey : ∀ c ∈ k, decide (c ≠ d) = true := by
      intro c hc
      rw [decide_eq_true_eq]
      rintro rfl
      rw [List.all_eq_true.mp hk c hc] at hd
      cases hd
    rw [List.takeWhile_append_of_pos hkey, List.takeWhile_cons_of_pos (by simpa using heq)]

theorem plusToSpace_eq_self {s : Text} (h : '+' ∉ s) : plusToSpace s = s := by
  have heq : ∀ c ∈ s, (if c = '+' then ' ' else c) = c := by
    intro c hc
    have hne : c ≠ '+' := by
      rintro rfl
      exact h hc
    exact if_neg hne
  rw [plusToSpace, List.map_congr_left heq, List.map_id']

theorem plusToSpace_append (s t : Text) : plusToSpace (s ++ t) = plusToSpace s ++ plusToSpace t :=
  List.map_append

theorem plusToSpace_cons {c : Char} (h : c ≠ '+') (s : Text) :
    plusToSpace (c :: s) = c :: plusToSpace s := by
  rw [plusToSpace, List.map_cons, if_neg h, plusToSpace]

theorem IsMoniker.unquote_plusToSpace {e : Text} (h : IsMoniker e) :
    IsMoniker (unquote (plusToSpace e)) := by
  obtain rfl | ⟨k, v, rfl, hk⟩ := h
  · exact Or.inl unquote_nil
  · refine Or.inr ⟨k, unquote (plusToSpace v), ?_, hk⟩
    rw [plusToSpace_append, plusToSpace_eq_self (not_mem_of_all hk (by decide)),
      plusToSpace_cons (by decide), unquote_append_of_not_mem (not_mem_of_all hk (by decide)),
      unquote_cons (by decide)]

theorem isKeyChar_of_isDigit {c : Char} (h : c.isDigit = true) : isKeyChar c = true := by
  simp only [isKeyChar, Char.isDigit, Bool.or_eq_true, Bool.and_eq_true, decide_eq_true_eq] at h ⊢
  exact Or.inl (Or.inl (Or.inr h))

theorem isKey_of_mem_keysFor {cls : EntityClass} {n : ℕ} {k : Text}
    (h : k ∈ keysFor cls.keys n) : k.all isKeyChar = true := by
  rw [keysFor] at h
  split at h
  · obtain h | h := List.mem_append.mp h
    · exact (cls.isKey_keys k h).2
    · obtain ⟨idx, -, rfl⟩ := List.mem_map.mp h
      rw [List.all_append, Bool.and_eq_true]
      refine ⟨by decide, List.all_eq_true.mpr fun c hc => ?_⟩
      exact isKeyChar_of_isDigit (Nat.isDigit_of_mem_toDigits (by decide) (by decide) hc)
  · exact (cls.isKey_keys k h).2

theorem mem_keys_foldl_set {ps : List (Text × Text)} {d : Dict Text Text} {k : Text}
    (h : k ∈ Dict.keys (ps.foldl (fun d p => Dict.set d p.1 p.2) d)) :
    k ∈ Dict.keys d ∨ ∃ p ∈ ps, p.1 = k := by
  induction ps generalizing d with
  | nil => exact Or.inl h
  | cons p ps ih =>
    rw [List.foldl_cons] at h
    obtain h | ⟨p', hp', hk⟩ := ih h
    · obtain rfl | h := (Dict.mem_keys_set d p.1 p.2 k).mp h
      · exact Or.inr ⟨p, List.mem_cons_self, rfl⟩
      · exact Or.inl h
    · exact Or.inr ⟨p', List.mem_cons_of_mem p hp', hk⟩

/-- The moniker of an object is one. -/
theorem isMoniker_buildEntity (cls : EntityClass) (vals : List Text) :
    IsMoniker (buildEntity cls vals) := by
  rw [buildEntity]
  have hkeys : ∀ k ∈ Dict.keys (((keysFor cls.keys vals.length).zip vals).foldl
      (fun d p => Dict.set d p.1 p.2) ([] : Dict Text Text)), k.all isKeyChar = true := by
    intro k hk
    obtain hk | ⟨p, hp, rfl⟩ := mem_keys_foldl_set hk
    · cases hk
    · exact isKey_of_mem_keysFor (List.of_mem_zip hp).1
  revert hkeys
  generalize ((keysFor cls.keys vals.length).zip vals).foldl
    (fun d p => Dict.set d p.1 p.2) ([] : Dict Text Text) = d
  intro hkeys
  match d, hkeys with
  | [], _ => exact Or.inl rfl
  | [(k, v)], hkeys => exact Or.inr ⟨k, v, rfl, hkeys k List.mem_cons_self⟩
  | (k, v) :: p :: d, hkeys =>
    refine Or.inr ⟨k, v ++ (",".toList ++ join ",".toList ((p :: d).map fun p => p.1 ++ '=' :: p.2)),
      ?_, hkeys k List.mem_cons_self⟩
    simp [join]

/-! ## Plus signs and line breaks -/

/-- A plus sign that is replaced changes what is unquoted, not its length. -/
theorem unquote_plusToSpace (s : Text) :
    (unquote (plusToSpace s)).length = (unquote s).length ∧
      (unquote (plusToSpace s) = unquote s ↔ '+' ∉ s) := by
  induction h : s.length using Nat.strong_induction_on generalizing s with
  | _ n ih =>
    by_cases hm : '+' ∈ s
    · obtain ⟨x, y, rfl, hx⟩ := List.eq_append_cons_of_mem hm
      have hy := (ih y.length (by simp only [List.length_append, List.length_cons] at h; omega)
        y rfl).1
      have hplus : plusToSpace (x ++ '+' :: y) = x ++ ' ' :: plusToSpace y := by
        rw [plusToSpace_append, plusToSpace_eq_self hx]
        rfl
      rw [hplus, unquote_append_cons (by decide) (by decide),
        unquote_append_cons (by decide) (by decide)]
      constructor
      · simp only [List.length_append, List.length_cons, hy]
      · simp
    · rw [plusToSpace_eq_self hm]
      exact ⟨rfl, iff_of_true rfl hm⟩

theorem firstLine_append_cons (s t : Text) : firstLine (s ++ '\n' :: t) = firstLine s := by
  induction s with
  | nil => rfl
  | cons c s ih =>
    rw [firstLine] at ih ⊢
    rw [firstLine, List.cons_append, List.takeWhile_cons, List.takeWhile_cons, ih]
    rfl

/-- What is unquoted from the first line does not depend on the next ones. -/
theorem firstLine_unquote_plusToSpace (s : Text) :
    firstLine (unquote (plusToSpace s)) = firstLine (unquote (plusToSpace (firstLine s))) := by
  by_cases hm : '\n' ∈ s
  · obtain ⟨x, y, rfl, hx⟩ := List.eq_append_cons_of_mem hm
    have hline : firstLine x = x := firstLine_eq_self_iff.mpr hx
    rw [plusToSpace_append, plusToSpace_cons (by decide), unquote_append_cons (by decide) (by decide),
      firstLine_append_cons, firstLine_append_cons, hline]
  · rw [firstLine_eq_self_iff.mpr hm]

/-- What a script makes of the text of a moniker. -/
def decodedTwice (s : Text) : Text := unquote (firstLine (unquote (plusToSpace s)))

theorem length_decodedTwice_le (s : Text) : (decodedTwice s).length ≤ (unquote s).length := by
  have h1 := length_unquote_le (firstLine (unquote (plusToSpace s)))
  have h2 := length_firstLine_le (unquote (plusToSpace s))
  have h3 := (unquote_plusToSpace s).1
  rw [decodedTwice]
  omega

/-- **Decoding twice is decoding once, exactly without a plus sign, a line break and an escape
in what is decoded once.** -/
theorem decodedTwice_eq_iff (s : Text) : decodedTwice s = unquote s ↔
    '+' ∉ s ∧ '\n' ∉ unquote s ∧ hasEscape (unquote s) = false := by
  constructor
  · intro h
    have hlen := congrArg List.length h
    have h1 := length_unquote_le (firstLine (unquote (plusToSpace s)))
    have h2 := length_firstLine_le (unquote (plusToSpace s))
    have h3 := (unquote_plusToSpace s).1
    rw [decodedTwice] at h hlen
    have hline : firstLine (unquote (plusToSpace s)) = unquote (plusToSpace s) :=
      (List.takeWhile_prefix _).eq_of_length (by rw [← firstLine]; omega)
    rw [hline] at h hlen
    have hesc : hasEscape (unquote (plusToSpace s)) = false :=
      length_unquote_eq_iff.mp (by omega)
    rw [unquote_eq_self hesc] at h
    exact ⟨(unquote_plusToSpace s).2.mp h, h ▸ firstLine_eq_self_iff.mp hline, h ▸ hesc⟩
  · rintro ⟨hplus, hn, hesc⟩
    rw [decodedTwice, plusToSpace_eq_self hplus, firstLine_eq_self_iff.mpr hn,
      unquote_eq_self hesc]

/-! ## The form of an object -/

theorem formPair?_xid (w : Text) (hw : w ≠ []) :
    formPair? ("xid=".toList ++ w) = some ("xid".toList, unquote (plusToSpace w)) := by
  match w, hw with
  | c :: w, _ =>
    have hname : unquote (plusToSpace "xid".toList) = "xid".toList :=
      unquote_eq_self_of_not_mem (by decide)
    change some (unquote (plusToSpace "xid".toList), unquote (plusToSpace (c :: w))) = _
    rw [hname]

/-- The values that the query of a node gives to `xid`: its object, and what the moniker adds. -/
theorem valuesOf_xid_makeTheNode (uriRoot : RootUrl) {cls : Text} (hcls : isClassName cls = true)
    (e : Text) : valuesOf "xid".toList (splitOn '&' (urlQuery (makeTheNode uriRoot cls e))) =
      (cls ++ '.' :: unquote (plusToSpace ((e.takeWhile (· ≠ '#')).takeWhile (· ≠ '&')))) ::
        valuesOf "xid".toList (extraPairs e) := by
  have hamp : '&' ∉ "xid=".toList ++ (cls ++ ['.']) := by
    have := not_mem_of_isClassName hcls (c := '&') (by decide)
    simp [this]
  have hplus : '+' ∉ cls := not_mem_of_isClassName hcls (by decide)
  have hpct : '%' ∉ cls := not_mem_of_isClassName hcls (by decide)
  have hquery : urlQuery (makeTheNode uriRoot cls e) =
      ("xid=".toList ++ (cls ++ ['.'])) ++ e.takeWhile (· ≠ '#') := by
    rw [urlQuery_makeTheNode uriRoot hcls]
    simp
  have hunq : unquote (plusToSpace (cls ++ ['.'] ++
      (e.takeWhile (· ≠ '#')).takeWhile (· ≠ '&'))) =
        cls ++ '.' :: unquote (plusToSpace ((e.takeWhile (· ≠ '#')).takeWhile (· ≠ '&'))) := by
    rw [List.append_assoc, plusToSpace_append, plusToSpace_eq_self hplus,
      unquote_append_of_not_mem hpct]
    exact congrArg _ (unquote_cons (by decide) _)
  have hpair := formPair?_xid (cls ++ ['.'] ++ (e.takeWhile (· ≠ '#')).takeWhile (· ≠ '&'))
    (by simp)
  rw [hquery, splitOn_append hamp, List.append_assoc, valuesOf, List.filterMap_cons, hpair, hunq]
  simp [valuesOf, extraPairs]

/-- The object that a script receives. -/
theorem getXid_makeTheNode (uriRoot : RootUrl) {cls : Text} (hcls : isClassName cls = true)
    {e : Text} (he : IsMoniker e) : getXid (urlQuery (makeTheNode uriRoot cls e)) =
      if valuesOf "xid".toList (extraPairs e) = [] then
        some ⟨cls, decodedTwice ((parsedPart e).takeWhile (· ≠ '&')), []⟩
      else none := by
  have hv : IsMoniker ((e.takeWhile (· ≠ '#')).takeWhile (· ≠ '&')) :=
    (he.takeWhile_ne rfl (by decide)).takeWhile_ne rfl (by decide)
  have hpart : firstLine ((e.takeWhile (· ≠ '#')).takeWhile (· ≠ '&')) =
      (parsedPart e).takeWhile (· ≠ '&') := by
    rw [firstLine, parsedPart, List.takeWhile_takeWhile, List.takeWhile_takeWhile,
      List.takeWhile_takeWhile]
    congr 1
    funext c
    simp only [decide_eq_true_eq, Bool.and_eq_true, decide_eq_decide]
    tauto
  have hparse := parseXid_append hcls hv.unquote_plusToSpace
  rw [firstLine_unquote_plusToSpace, hpart] at hparse
  rw [getXid, valuesOf_xid_makeTheNode uriRoot hcls]
  by_cases hx : valuesOf "xid".toList (extraPairs e) = []
  · rw [hx, if_pos rfl]
    exact congrArg some hparse
  · rw [if_neg hx]
    split
    · contradiction
    · rename_i heq
      exact absurd (List.cons.inj heq).2 hx
    · rfl

/-! ## The text of an object -/

theorem replaceAmp_cons {c : Char} (h : c ≠ '&') (s : Text) :
    replaceAmp (c :: s) = c :: replaceAmp s := by
  rw [replaceAmp]
  intro t hc
  exact absurd hc h

theorem replaceAmp_append {x : Text} (h : '&' ∉ x) (s : Text) :
    replaceAmp (x ++ s) = x ++ replaceAmp s := by
  induction x with
  | nil => rfl
  | cons c x ih =>
    have hc : c ≠ '&' := by
      rintro rfl
      exact h List.mem_cons_self
    rw [List.cons_append, replaceAmp_cons hc, ih fun hm => h (List.mem_cons_of_mem c hm),
      List.cons_append]

theorem exists_replaceAmp_cons (s : Text) : ∃ t, replaceAmp ('&' :: s) = '&' :: t := by
  rw [replaceAmp.eq_def]
  split
  · exact ⟨_, rfl⟩
  · rename_i heq
    cases heq
    exact ⟨_, rfl⟩
  · contradiction

theorem urlNoAmp_append {x : Text} (h : '&' ∉ x) (s : Text) :
    urlNoAmp (x ++ s) = x ++ urlNoAmp s := by
  rw [urlNoAmp, replaceAmp_append h, replaceAmp_append h, urlNoAmp]

theorem exists_urlNoAmp_cons (s : Text) : ∃ t, urlNoAmp ('&' :: s) = '&' :: t := by
  obtain ⟨t, ht⟩ := exists_replaceAmp_cons s
  rw [urlNoAmp, ht]
  exact exists_replaceAmp_cons t

theorem IsMoniker.urlNoAmp {e : Text} (h : IsMoniker e) : IsMoniker (urlNoAmp e) := by
  obtain rfl | ⟨k, v, rfl, hk⟩ := h
  · exact Or.inl rfl
  · refine Or.inr ⟨k, Uris.urlNoAmp v, ?_, hk⟩
    have hno : '&' ∉ k ++ ['='] := by
      have := not_mem_of_all hk (c := '&') (by decide)
      simp [this]
    have := urlNoAmp_append hno v
    simpa using this

/-- Replacing the escaped ampersands changes the parsed part after its first ampersand only. -/
theorem parsedPart_urlNoAmp (e : Text) :
    ('&' ∉ parsedPart e ∧ parsedPart (urlNoAmp e) = parsedPart e) ∨
      ∃ x y, parsedPart (urlNoAmp e) = x ++ '&' :: y ∧ '&' ∈ parsedPart e ∧
        (parsedPart e).takeWhile (· ≠ '&') = x := by
  by_cases hm : '&' ∈ e
  · obtain ⟨x, z, rfl, hx⟩ := List.eq_append_cons_of_mem hm
    obtain ⟨t, ht⟩ := exists_urlNoAmp_cons z
    rw [urlNoAmp_append hx, ht]
    by_cases hp : ∀ c ∈ x, (c ≠ '\n' && c ≠ '#') = true
    · refine Or.inr ⟨x, parsedPart t, ?_, ?_, ?_⟩
      · rw [parsedPart, List.takeWhile_append_of_pos hp]
        rfl
      · rw [parsedPart, List.takeWhile_append_of_pos hp]
        simp
      · rw [parsedPart, List.takeWhile_append_of_pos hp]
        refine takeWhile_append_cons (fun c hc => ?_) (by decide) _
        have : c ≠ '&' := by
          rintro rfl
          exact hx hc
        simpa using this
    · have hcut : ∀ y, parsedPart (x ++ y) = parsedPart x := by
        intro y
        have hne : x.takeWhile (fun c => c ≠ '\n' && c ≠ '#') ≠ x := fun h =>
          hp (List.takeWhile_eq_self_iff.mp h)
        rw [parsedPart, List.takeWhile_append]
        rw [if_neg]
        · rfl
        · exact fun h => hne ((List.takeWhile_prefix _).eq_of_length h)
      rw [hcut, hcut]
      refine Or.inl ⟨fun h => hx ((List.takeWhile_prefix _).subset h), rfl⟩
  · have := urlNoAmp_append hm []
    rw [List.append_nil] at this
    refine Or.inl ⟨fun h => hm ((List.takeWhile_prefix _).subset h), ?_⟩
    rw [this]
    exact congrArg parsedPart (List.append_nil e)

theorem urlNoAmp_makeTheNode (uriRoot : RootUrl) {cls : Text} (hcls : isClassName cls = true)
    (e : Text) : urlNoAmp (makeTheNode uriRoot cls e) = makeTheNode uriRoot cls (urlNoAmp e) := by
  have hroot : '&' ∉ uriRoot.text := fun h => (uriRoot.no_delimiter '&' h).2.2.1 rfl
  have hname : '&' ∉ cls := not_mem_of_isClassName hcls (by decide)
  have hno : '&' ∉ uriRoot.text ++ "/entity.py".toList ++ "?xid=".toList ++ cls ++ ['.'] := by
    simp [hroot, hname]
  have hsplit : ∀ e, makeTheNode uriRoot cls e =
      (uriRoot.text ++ "/entity.py".toList ++ "?xid=".toList ++ cls ++ ['.']) ++ e := by
    intro e
    simp [makeTheNode, makeTheNodeFromScript]
  rw [hsplit, urlNoAmp_append hno, hsplit]

/-- The object that the display shows, of a URL without a mode. -/
theorem entityUriXid_makeTheNode (uriRoot : RootUrl) {cls : Text} (hcls : isClassName cls = true)
    {e : Text} (he : IsMoniker e) (hmode : NoMode (makeTheNode uriRoot cls e)) :
    entityUriXid (makeTheNode uriRoot cls e) =
      some ⟨cls, unquote (parsedPart (urlNoAmp e)), []⟩ := by
  have hmoded : anyUriModed (urlNoAmp (makeTheNode uriRoot cls e)) [] =
      makeTheNode uriRoot cls (urlNoAmp e) := by
    rw [anyUriModed, hmode]
    exact urlNoAmp_makeTheNode uriRoot hcls e
  have hv : IsMoniker ((urlNoAmp e).takeWhile (· ≠ '#')) :=
    he.urlNoAmp.takeWhile_ne rfl (by decide)
  have hpart : firstLine ((urlNoAmp e).takeWhile (· ≠ '#')) = parsedPart (urlNoAmp e) := by
    rw [firstLine, parsedPart, List.takeWhile_takeWhile]
    congr 1
    funext c
    simp
  have hparse := parseXid_append hcls hv
  rw [hpart] at hparse
  rw [entityUriXid, hmoded, urlQuery_makeTheNode uriRoot hcls, ← hparse]
  rfl

/-! ## The agreement -/

theorem agree_makeTheNode_iff (uriRoot : RootUrl) {cls : Text} (hcls : isClassName cls = true)
    {e : Text} (he : IsMoniker e) (hmode : NoMode (makeTheNode uriRoot cls e)) :
    Agree (makeTheNode uriRoot cls e) ↔ Undisturbed e := by
  have hagree : Agree (makeTheNode uriRoot cls e) ↔ valuesOf "xid".toList (extraPairs e) = [] ∧
      decodedTwice ((parsedPart e).takeWhile (· ≠ '&')) = unquote (parsedPart (urlNoAmp e)) := by
    rw [Agree, getXid_makeTheNode uriRoot hcls he, entityUriXid_makeTheNode uriRoot hcls he hmode]
    simp
  rw [hagree]
  obtain ⟨hno, hpart⟩ | ⟨x, y, hpart, hmem, hx⟩ := parsedPart_urlNoAmp e
  · have htake : (parsedPart e).takeWhile (· ≠ '&') = parsedPart e := by
      exact List.takeWhile_eq_self_iff.mpr (forall_ne_of_not_mem hno)
    rw [htake, hpart, decodedTwice_eq_iff]
    constructor
    · rintro ⟨hx, hplus, hn, hesc⟩
      exact ⟨hno, hplus, hn, hesc, hx⟩
    · intro h
      exact ⟨h.oneXid, h.noPlus, h.oneLine, h.noEscape⟩
  · -- the script stops at the ampersand, the display does not
    constructor
    · rintro ⟨-, h⟩
      have hle := length_decodedTwice_le x
      rw [hx, hpart, unquote_append_cons (by decide) (by decide)] at h
      rw [h] at hle
      simp only [List.length_append, List.length_cons] at hle
      omega
    · intro h
      exact absurd hmem h.noAmpersand

/-- **The two decodings of the URL of an object agree exactly if its moniker is undisturbed**,
where no mode is taken out of the URL. -/
theorem agree_iff_undisturbed (uriRoot : RootUrl) (cls : EntityClass) (entityIdArr : List Text) :
    NoMode (uriMake uriRoot cls entityIdArr) ∧ Agree (uriMake uriRoot cls entityIdArr) ↔
      NoMode (uriMake uriRoot cls entityIdArr) ∧ Undisturbed (buildEntity cls entityIdArr) := by
  apply and_congr_right
  intro hmode
  exact agree_makeTheNode_iff uriRoot cls.isClassName_entityType
    (isMoniker_buildEntity cls entityIdArr) hmode

/-- A percent sign in the name of a file is an escape for a script. -/
theorem percent_not_agree : ¬ Agree (fileUri localRoot "/tmp/a%41".toList) := by
  have hmoniker := isMoniker_buildEntity cimDataFile [encodeUri (slashed "/tmp/a%41".toList)]
  have hmode : NoMode (fileUri localRoot "/tmp/a%41".toList) := by
    rw [NoMode]
    decide
  intro h
  have hu := (agree_makeTheNode_iff localRoot cimDataFile.isClassName_entityType hmoniker hmode).mp h
  have hpart : parsedPart (buildEntity cimDataFile [encodeUri (slashed "/tmp/a%41".toList)]) =
      "Name=".toList ++ quote "/tmp/a%41".toList := by decide
  have hesc := hu.noEscape
  rw [hpart, unquote_append_of_not_mem (by decide), unquote_quote] at hesc
  revert hesc
  decide

end Survol.Uris
