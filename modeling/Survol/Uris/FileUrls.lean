import Survol.Uris.Xid

/-!
# The URL of a file

A path is quoted in its URL, so its class and its moniker are always parsed back. The moniker
is then split at its commas and at its double quotes, which the path may contain.

## Main definitions

* `wellQuoted` — the commas of a text are between double quotes.
* `RoundTrips` — the path is given back by its URL.

## Main results

* `roundTrips_iff` — it is, exactly if the path is on one line, does not begin with a double
  quote, and has its commas between double quotes.
-/

namespace Survol.Uris

open PyText (Text)
open Percent

/-- Whether the double quotes are closed, and no comma is outside of them. -/
def wellQuoted : Bool → Text → Bool
  | inQuotes, [] => !inQuotes
  | inQuotes, '"' :: s => wellQuoted (!inQuotes) s
  | false, ',' :: _ => false
  | inQuotes, _ :: s => wellQuoted inQuotes s

/-- A path whose characters have no meaning in a moniker. -/
structure IsPlain (path : Text) : Prop where
  oneLine : '\n' ∉ path
  unquoted : path.head? ≠ some '"'
  wellQuoted : wellQuoted false path = true

/-- The URL of a path gives its class, an empty host, and the path with slashes. -/
def RoundTrips (uriRoot : RootUrl) (path : Text) : Prop :=
  let xid := parseXid (xidText (fileUri uriRoot path))
  xid.entityType = "CIM_DataFile".toList ∧ xid.entityHost = [] ∧
    entityIdToArray cimDataFile xid.entityId = some [slashed path]

/-! ## The moniker of a path -/

theorem not_mem_slashed (path : Text) : '\\' ∉ slashed path := by
  intro h
  obtain ⟨c, -, hc⟩ := List.mem_map.mp h
  split at hc
  · cases hc
  · contradiction

theorem escapeTable_eq_self {s : Text} (h : '\\' ∉ s) : escapeTable s = s := by
  induction s with
  | nil => rfl
  | cons c s ih =>
    rw [escapeTable, ih fun hm => h (List.mem_cons_of_mem c hm)]
    intro s' hc
    exact absurd (hc ▸ List.mem_cons_self) h

theorem buildEntity_cimDataFile (v : Text) :
    buildEntity cimDataFile [v] = "Name=".toList ++ v := rfl

theorem takeWhile_ne_quote {c : Char} (hc : isQuoted c = false) {x : Text} (hx : c ∉ x)
    (t : Text) : (x ++ quote t).takeWhile (· ≠ c) = x ++ quote t := by
  apply List.takeWhile_eq_self_iff.mpr
  intro d hd
  have hne : d ≠ c := by
    rintro rfl
    obtain hd | hd := List.mem_append.mp hd
    · exact hx hd
    · rw [isQuoted_of_mem_quote hd] at hc
      cases hc
  simpa using hne

/-- **The class, the moniker and the host are given back, whatever the path is.** -/
theorem parseXid_fileUri (uriRoot : RootUrl) (path : Text) :
    parseXid (xidText (fileUri uriRoot path)) =
      ⟨"CIM_DataFile".toList, "Name=".toList ++ slashed path, []⟩ := by
  have hcls := cimDataFile.isClassName_entityType
  have hmoniker : IsMoniker ("Name=".toList ++ quote (slashed path)) :=
    Or.inr ⟨"Name".toList, quote (slashed path), rfl, by decide⟩
  rw [fileUri, uriMake, encodeUri, escapeTable_eq_self (not_mem_slashed path),
    buildEntity_cimDataFile, xidText_makeTheNode uriRoot hcls,
    takeWhile_ne_quote (by decide) (by decide), parseXid_append hcls hmoniker, firstLine,
    takeWhile_ne_quote (by decide) (by decide), unquote_append_of_not_mem (by decide),
    unquote_quote]
  rfl

/-! ## The words of a moniker -/

theorem afterQuote_cons {c : Char} (hq : c ≠ '"') (hb : c ≠ '\\') (s : Text) :
    afterQuote (c :: s) = afterQuote s := by
  rw [afterQuote]
  · exact hq
  · intro d s' hc
    exact absurd hc hb

theorem afterAtom_cons {c : Char} (hq : c ≠ '"') (hc : c ≠ ',') (s : Text) :
    afterAtom (c :: s) = some s := by
  rw [afterAtom]
  · exact hc
  · exact hq

theorem wellQuoted_cons {c : Char} (hq : c ≠ '"') (hc : c ≠ ',') (inQuotes : Bool) (s : Text) :
    wellQuoted inQuotes (c :: s) = wellQuoted inQuotes s := by
  rw [wellQuoted]
  · exact hq
  · intro _
    exact hc

theorem wellQuoted_true_cons {c : Char} (hq : c ≠ '"') (s : Text) :
    wellQuoted true (c :: s) = wellQuoted true s := by
  rw [wellQuoted]
  · exact hq
  · intro h
    cases h

/-- What follows the closing double quote of a text without a backslash. -/
theorem wellQuoted_true_eq {s : Text} (h : '\\' ∉ s) :
    wellQuoted true s = ((afterQuote s).map (wellQuoted false)).getD false := by
  induction s with
  | nil => rfl
  | cons c s ih =>
    by_cases hq : c = '"'
    · subst hq
      rfl
    · have hb : c ≠ '\\' := fun he => h (he ▸ List.mem_cons_self)
      rw [wellQuoted_true_cons hq, afterQuote_cons hq hb,
        ih fun hm => h (List.mem_cons_of_mem c hm)]

theorem afterQuote_suffix {s r : Text} (h : afterQuote s = some r) : r <:+ s := by
  fun_induction afterQuote s with
  | case1 => cases h
  | case2 s =>
    cases h
    exact List.suffix_cons _ _
  | case3 s ih => exact (ih h).trans (List.suffix_cons _ _)
  | case4 c s hc ih ih' =>
    cases hr : afterQuote s with
    | some r' =>
      rw [hr] at h
      cases h
      exact (ih hr).trans ((List.suffix_cons _ _).trans (List.suffix_cons _ _))
    | none =>
      rw [hr] at h
      exact (ih' h).trans (List.suffix_cons _ _)
  | case5 c s hq hb ih => exact (ih h).trans (List.suffix_cons _ _)

theorem afterAtom_suffix {s r : Text} (h : afterAtom s = some r) : r <:+ s ∧ r.length < s.length := by
  match s, h with
  | c :: s, h =>
    have hs : r <:+ s := by
      by_cases hq : c = '"'
      · subst hq
        exact afterQuote_suffix h
      · by_cases hc : c = ','
        · subst hc
          cases h
        · rw [afterAtom_cons hq hc] at h
          cases h
          exact List.suffix_refl _
    exact ⟨hs.trans (List.suffix_cons c s), Nat.lt_succ_of_le hs.length_le⟩

theorem afterAtoms_suffix (n : ℕ) (s : Text) : afterAtoms n s <:+ s := by
  induction n generalizing s with
  | zero => exact List.suffix_refl s
  | succ n ih =>
    rw [afterAtoms]
    split
    · rename_i r hr
      exact (ih r).trans (afterAtom_suffix hr).1
    · exact List.suffix_refl s

/-- **A text without a backslash is one word exactly if it is well quoted.** -/
theorem afterAtoms_eq_nil_iff {n : ℕ} {s : Text} (hn : s.length ≤ n) (h : '\\' ∉ s) :
    afterAtoms n s = [] ↔ wellQuoted false s = true := by
  induction n generalizing s with
  | zero =>
    obtain rfl := List.length_eq_zero_iff.mp (Nat.le_zero.mp hn)
    simp [afterAtoms, wellQuoted]
  | succ n ih =>
    have hstep : ∀ r, afterAtom s = some r → (afterAtoms n r = [] ↔ wellQuoted false r = true) := by
      intro r hr
      obtain ⟨hsuf, hlt⟩ := afterAtom_suffix hr
      exact ih (by omega) fun hm => h (hsuf.subset hm)
    rw [afterAtoms]
    match s, h, hstep with
    | [], _, _ => simp [afterAtom, wellQuoted]
    | c :: s, h, hstep =>
      have hs : '\\' ∉ s := fun hm => h (List.mem_cons_of_mem c hm)
      by_cases hq : c = '"'
      · subst hq
        have hw : wellQuoted false ('"' :: s) = wellQuoted true s := rfl
        rw [hw, wellQuoted_true_eq hs]
        cases hr : afterQuote s with
        | none => simp [afterAtom, hr]
        | some r =>
          have := hstep r hr
          simpa [afterAtom, hr] using this
      · by_cases hc : c = ','
        · subst hc
          simp [afterAtom, wellQuoted]
        · rw [afterAtom_cons hq hc, wellQuoted_cons hq hc]
          exact hstep s (afterAtom_cons hq hc s)

theorem length_of_mem_findWords {n : ℕ} {s w : Text} (h : w ∈ findWords n s) :
    w.length ≤ s.length := by
  induction n generalizing s with
  | zero => cases h
  | succ n ih =>
    match s, h with
    | c :: s, h =>
      rw [findWords] at h
      split at h
      · obtain rfl | h := List.mem_cons.mp h
        · exact List.length_take_le' _ _
        · exact Nat.le_trans (ih h) (afterAtoms_suffix _ _).length_le
      · exact Nat.le_succ_of_le (ih h)

/-! ## The value of a word -/

theorem length_beforeLastQuote {s t : Text} (h : beforeLastQuote s = some t) :
    t.length ≤ s.length := by
  have hlen := length_firstLine_le s
  rw [beforeLastQuote] at h
  split at h
  · rename_i q t' hd
    cases h
    have := ((List.dropWhile_suffix (fun c => decide (c ≠ '"')) (l := (firstLine s).reverse))).length_le
    rw [hd] at this
    simp only [List.length_cons, List.length_reverse] at this ⊢
    omega
  · cases h

theorem beforeLastQuote_isSome {s : Text} (h : '"' ∈ firstLine s) :
    (beforeLastQuote s).isSome = true := by
  rw [beforeLastQuote]
  split
  · rfl
  · rename_i hd
    have := List.dropWhile_eq_nil_iff.mp hd '"' (List.mem_reverse.mpr h)
    simp at this

theorem length_valueOf (s : Text) : (valueOf s).length ≤ s.length := by
  have hlen := length_firstLine_le s
  unfold valueOf
  split
  · rename_i s'
    cases hb : beforeLastQuote s' with
    | none => exact hlen
    | some t => exact Nat.le_succ_of_le (length_beforeLastQuote hb)
  · exact hlen

theorem valueOf_eq_self {s : Text} (hn : '\n' ∉ s) (hq : s.head? ≠ some '"') : valueOf s = s := by
  unfold valueOf
  split
  · exact absurd rfl hq
  · exact firstLine_eq_self_iff.mpr hn

theorem quote_mem_of_wellQuoted {s : Text} (h : wellQuoted true s = true) : '"' ∈ s := by
  induction s with
  | nil => cases h
  | cons c s ih =>
    by_cases hq : c = '"'
    · rw [hq]
      exact List.mem_cons_self
    · rw [wellQuoted_true_cons hq] at h
      exact List.mem_cons_of_mem c (ih h)

theorem isPlain_of_valueOf {s : Text} (hw : wellQuoted false s = true) (h : valueOf s = s) :
    IsPlain s := by
  unfold valueOf at h
  split at h
  · rename_i s'
    exfalso
    cases hb : beforeLastQuote s' with
    | some t =>
      have hlen := length_beforeLastQuote hb
      rw [hb] at h
      have : t.length = s'.length + 1 := congrArg List.length h
      omega
    | none =>
      rw [hb] at h
      have hn : '\n' ∉ s' := fun hm =>
        firstLine_eq_self_iff.mp h (List.mem_cons_of_mem '"' hm)
      have hq : '"' ∈ firstLine s' := by
        rw [firstLine_eq_self_iff.mpr hn]
        exact quote_mem_of_wellQuoted hw
      have := beforeLastQuote_isSome hq
      rw [hb] at this
      cases this
  · rename_i hq
    refine ⟨firstLine_eq_self_iff.mp h, ?_, hw⟩
    intro hh
    match s, hh with
    | c :: s', hh =>
      cases hh
      exact hq s' rfl

theorem length_of_keyValue? {w k v : Text} (h : keyValue? w = some (k, v)) :
    k.length + 1 + v.length ≤ w.length := by
  rw [keyValue?] at h
  split at h
  · rename_i c key s hk hs
    cases h
    have hw := congrArg List.length (List.takeWhile_append_dropWhile (p := isKeyChar) (l := w))
    have := length_valueOf s
    simp only [hk, hs, List.length_append, List.length_cons] at hw ⊢
    omega
  · cases h

/-- A value of a moniker is the value of one of its words. -/
theorem exists_word_of_get? {ws : List Text} {d : Dict Text Text} {k v : Text}
    (h : Dict.get? (ws.foldl addWord d) k = some v) :
    Dict.get? d k = some v ∨ ∃ w ∈ ws, keyValue? w = some (k, v) := by
  induction ws generalizing d with
  | nil => exact Or.inl h
  | cons w ws ih =>
    rw [List.foldl_cons] at h
    obtain h | ⟨w', hw', hkv⟩ := ih h
    · rw [addWord] at h
      split at h
      · rename_i key value hkv
        rw [Dict.get?_set] at h
        split at h
        · rename_i he
          cases h
          rw [he] at hkv
          exact Or.inr ⟨w, List.mem_cons_self, hkv⟩
        · exact Or.inl h
      · exact Or.inl h
    · exact Or.inr ⟨w', List.mem_cons_of_mem w hw', hkv⟩

/-! ## The round trip -/

theorem keyValue?_name (s : Text) : keyValue? ("Name=".toList ++ s) = some ("Name".toList, valueOf s) :=
  rfl

theorem afterWord_name (s : Text) : afterWord ("Name=".toList ++ s) = afterWord s := rfl

theorem findWords_name {n : ℕ} {s t : Text} (h : s = t ++ afterWord s) :
    findWords (n + 1) ("Name=".toList ++ s) =
      ("Name=".toList ++ t) :: findWords n (afterWord s) := by
  have hlen := congrArg List.length h
  have htake : ("Name=".toList ++ s).take
      (("Name=".toList ++ s).length - (afterWord s).length) = "Name=".toList ++ t := by
    rw [List.length_append] at hlen
    have hsub : ("Name=".toList ++ s).length - (afterWord s).length =
        ("Name=".toList ++ t).length := by
      simp only [List.length_append]
      omega
    rw [hsub]
    nth_rewrite 1 [h]
    rw [← List.append_assoc, List.take_left]
  have hlt : (afterWord s).length < ("Name=".toList ++ s).length := by
    have := (afterAtoms_suffix s.length s).length_le
    simp only [List.length_append]
    exact Nat.lt_of_le_of_lt this (Nat.lt_add_of_pos_left (by decide))
  have hcons : "Name=".toList ++ s = 'N' :: ("ame=".toList ++ s) := rfl
  rw [hcons, findWords, ← hcons, afterWord_name, if_pos hlt, htake]

theorem mapM_singleton (f : Text → Option Text) (k : Text) :
    [k].mapM f = (f k).map fun v => [v] := by
  cases h : f k <;> simp [h]

/-- **The value of the only key is the path exactly if the path is plain.** -/
theorem entityIdToArray_name_iff {path : Text} (h : '\\' ∉ path) :
    entityIdToArray cimDataFile ("Name=".toList ++ path) = some [path] ↔ IsPlain path := by
  obtain ⟨t, ht⟩ := afterAtoms_suffix path.length path
  have hwords : splitMoniker ("Name=".toList ++ path) = (("Name=".toList ++ t) ::
      findWords ("Name=".toList ++ path).length (afterWord path)).foldl addWord [] := by
    rw [splitMoniker, findWords_name ht.symm]
  have hget : entityIdToArray cimDataFile ("Name=".toList ++ path) = some [path] ↔
      Dict.get? (splitMoniker ("Name=".toList ++ path)) "Name".toList = some path := by
    have he : entityIdToArray cimDataFile ("Name=".toList ++ path) =
        (Dict.get? (splitMoniker ("Name=".toList ++ path)) "Name".toList).map fun v => [v] := by
      exact mapM_singleton _ _
    rw [he, Option.map_eq_some_iff]
    constructor
    · rintro ⟨v, hv, he⟩
      cases he
      exact hv
    · intro hv
      exact ⟨path, hv, rfl⟩
  rw [hget]
  constructor
  · intro hp
    rw [hwords] at hp
    have hlen := congrArg List.length ht
    rw [List.length_append] at hlen
    obtain hp | ⟨w, hw, hkv⟩ := exists_word_of_get? hp
    · cases hp
    · have hle := length_of_keyValue? hkv
      have h4 : "Name".toList.length = 4 := rfl
      obtain rfl | hw := List.mem_cons.mp hw
      · rw [keyValue?_name] at hkv
        have hv : valueOf t = path := (Prod.mk.inj (Option.some.inj hkv)).2
        have hvt := length_valueOf t
        rw [hv] at hvt
        have hnil : afterAtoms path.length path = [] :=
          List.length_eq_zero_iff.mp (by omega)
        rw [hnil, List.append_nil] at ht
        rw [ht] at hv
        exact isPlain_of_valueOf ((afterAtoms_eq_nil_iff (Nat.le_refl _) h).mp hnil) hv
      · have := length_of_mem_findWords hw
        rw [afterWord] at this
        omega
  · intro hp
    have hnil : afterAtoms path.length path = [] :=
      (afterAtoms_eq_nil_iff (Nat.le_refl _) h).mpr hp.wellQuoted
    rw [hnil, List.append_nil] at ht
    have hrest : ∀ n, findWords n [] = [] := by
      intro n
      cases n <;> rfl
    rw [hwords, ht, afterWord, hnil, hrest, List.foldl_cons, List.foldl_nil, addWord,
      keyValue?_name, valueOf_eq_self hp.oneLine hp.unquoted]
    rfl

/-- **A path is given back by its URL exactly if, with slashes, it is on one line, it does not
begin with a double quote, and its commas are between double quotes.** -/
theorem roundTrips_iff (uriRoot : RootUrl) (path : Text) :
    RoundTrips uriRoot path ↔ IsPlain (slashed path) := by
  rw [RoundTrips, parseXid_fileUri, ← entityIdToArray_name_iff (not_mem_slashed path)]
  constructor
  · rintro ⟨-, -, h⟩
    exact h
  · intro h
    exact ⟨rfl, rfl, h⟩

/-- A comma in the name of a file cuts the name. -/
theorem comma_not_roundTrips : ¬ RoundTrips localRoot "/tmp/a,b.txt".toList := by
  rw [RoundTrips, parseXid_fileUri]
  rintro ⟨-, -, h⟩
  revert h
  decide

end Survol.Uris
