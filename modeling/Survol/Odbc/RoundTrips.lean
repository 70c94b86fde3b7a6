import Survol.Odbc.ConnectionStrings

/-!
# Decoding an encoded connection string

The encoding puts a slash between the parts and a tilde inside them, and escapes the values for
HTML, but the values are free to have slashes and tildes, and nothing undoes the escapes. A
connection string is decoded to its normal form exactly if its values have none of the
characters that the encoding uses.

## Main definitions

* `Allowed` — a known key, with a value of its expression.
* `normalForm` — the keys in upper case, and no blanks around the separators.
* `GivesBack` — decoding what is encoded gives the normal form.
* `Undisturbed` — no value has an equal sign, a slash, a tilde or a character that is escaped.

## Main results

* `givesBack_iff_undisturbed` — a connection string is given back exactly if it is undisturbed.
-/

namespace Survol.Odbc

open PyText (Text splitOn splitOn_eq splitOn_ne_nil splitOn_of_not_mem splitOn_append_cons)
open Survol.Uris

/-! ## What is to be given back -/

/-- The keys that an expression of the table stands for: a character before a question mark may
be missing, and one of the two characters between brackets is chosen. -/
def keySpellings : Text → List Text
  | [] => [[]]
  | '[' :: a :: b :: ']' :: s => (keySpellings s).map (a :: ·) ++ (keySpellings s).map (b :: ·)
  | c :: '?' :: s => (keySpellings s).map (c :: ·) ++ keySpellings s
  | c :: s => (keySpellings s).map (c :: ·)

/-- The key is known in any letter case, and the value, up to the blanks around it, matches the
expression of the key. -/
def Allowed (kv : Text × Text) : Prop :=
  ∃ r ∈ mapRgxODBC, (upper kv.1 = r.1.toList ∨ upper kv.1 ∈ keySpellings r.1.toList) ∧
    ∃ v, r.2.fullMatch v = true ∧ trimRight (trimLeft v) = trimRight (trimLeft kv.2)

/-- The text of a pair, with its key in upper case. -/
def normalText (kv : Text × Text) : Text := upper kv.1 ++ '=' :: kv.2

/-- The connection string with keys in upper case and without blanks around separators. -/
def normalForm (parts : List Part) : Text := join [';'] ((normalPairs parts).map normalText)

/-- Decoding what is encoded gives the connection string back in its normal form. -/
def GivesBack (parts : List Part) : Prop :=
  (valueEncode (connectString parts)).map valueDecode = some (normalForm parts)

/-- The characters that the encoding uses or escapes. -/
def reserved : Text := "=/~&<>".toList

/-- No value has a reserved character. -/
def Undisturbed (parts : List Part) : Prop := ∀ p ∈ parts, ∀ c ∈ reserved, c ∉ p.value

/-! ## The pieces of a pair -/

/-- The code of a pair. -/
def token (kv : Text × Text) : Text := upper kv.1 ++ '~' :: encodedValue kv.1 kv.2

/-- The texts between the semicolons of what the code of a pair is decoded to. -/
def pieces (kv : Text × Text) : List Text :=
  ((splitOn '/' (token kv)).map tokenDecode).flatMap (splitOn ';')

theorem splitOn_eq_singleton_iff {c : Char} {s x : Text} :
    splitOn c s = [x] ↔ c ∉ s ∧ s = x := by
  by_cases h : c ∈ s
  · obtain ⟨a, b, rfl⟩ := List.append_of_mem h
    rw [splitOn_append_cons, splitOn_eq c a, splitOn_eq c b]
    simp
  · simp [splitOn_of_not_mem h, h]

theorem flatMap_splitOn_ne_nil {c : Char} {l : List Text} (h : l ≠ []) :
    l.flatMap (splitOn c) ≠ [] := by
  cases l with
  | nil => exact absurd rfl h
  | cons s l => simp [splitOn_ne_nil]

theorem pieces_ne_nil (kv : Text × Text) : pieces kv ≠ [] :=
  flatMap_splitOn_ne_nil (by simpa using splitOn_ne_nil '/' (token kv))

theorem mapM_encodePair_of {pairs : List (Text × Text)} (h : ∀ kv ∈ pairs, '=' ∉ kv.2) :
    pairs.mapM encodePair = some (pairs.map token) := by
  induction pairs with
  | nil => rfl
  | cons kv pairs ih =>
    rw [List.mapM_cons, encodePair, if_neg (h kv List.mem_cons_self),
      ih fun kv' hkv => h kv' (List.mem_cons_of_mem kv hkv)]
    rfl

theorem mapM_encodePair_eq_none {pairs : List (Text × Text)} (h : ∃ kv ∈ pairs, '=' ∈ kv.2) :
    pairs.mapM encodePair = none := by
  induction pairs with
  | nil => simp at h
  | cons kv pairs ih =>
    rw [List.mapM_cons, encodePair]
    by_cases hkv : '=' ∈ kv.2
    · rw [if_pos hkv]
      rfl
    · rw [if_neg hkv, ih]
      · rfl
      · simpa [hkv] using h

/-- What is decoded has the pieces of the pairs, one after the other. -/
theorem decode_join_token {pairs : List (Text × Text)} (h : pairs ≠ []) :
    splitOn ';' (valueDecode (join ['/'] (pairs.map token))) = pairs.flatMap pieces := by
  have hmap : pairs.map token ≠ [] := by simpa using h
  rw [valueDecode, splitOn_join hmap, splitOn_join]
  · have hpieces : pieces = fun kv => (splitOn '/' (token kv)).flatMap fun tok =>
        splitOn ';' (tokenDecode tok) := by
      funext kv
      rw [pieces, List.flatMap_map]
    simp only [hpieces, List.flatMap_map, List.flatMap_assoc]
  · simpa using flatMap_splitOn_ne_nil hmap

theorem length_le_length_flatMap {α β : Type} {f : α → List β} (h : ∀ a, f a ≠ []) (l : List α) :
    l.length ≤ (l.flatMap f).length := by
  induction l with
  | nil => simp
  | cons a l ih =>
    have := List.length_pos_of_ne_nil (h a)
    simp only [List.length_cons, List.flatMap_cons, List.length_append]
    omega

/-- As many pieces as pairs: every pair has one piece. -/
theorem flatMap_eq_map_iff {α β : Type} {f : α → List β} {g : α → β} (h : ∀ a, f a ≠ [])
    (l : List α) : l.flatMap f = l.map g ↔ ∀ a ∈ l, f a = [g a] := by
  induction l with
  | nil => simp
  | cons a l ih =>
    rw [List.flatMap_cons, List.map_cons, List.forall_mem_cons, ← ih]
    constructor
    · intro heq
      have hlen := congrArg List.length heq
      have hle := length_le_length_flatMap h l
      have hpos := List.length_pos_of_ne_nil (h a)
      simp only [List.length_append, List.length_cons, List.length_map] at hlen
      have hone : (f a).length = 1 := by omega
      obtain ⟨b, hb⟩ := List.length_eq_one_iff.mp hone
      rw [hb, List.singleton_append, List.cons.injEq] at heq
      exact ⟨by rw [hb, heq.1], heq.2⟩
    · rintro ⟨ha, hl⟩
      rw [ha, hl]
      rfl

theorem tokenDecode_of_tilde {k v : Text} (hk : '~' ∉ k) (hv : '~' ∈ v) :
    tokenDecode (k ++ '~' :: v) = "Key=Cannot decode:".toList ++ (k ++ '~' :: v) := by
  obtain ⟨a, b, rfl⟩ := List.append_of_mem hv
  rw [tokenDecode, splitOn_append_cons, splitOn_of_not_mem hk, splitOn_append_cons,
    splitOn_eq '~' a, splitOn_eq '~' b]
  cases (splitOn '~' a).tail <;> rfl

theorem tokenDecode_append {k v : Text} (hk : '~' ∉ k) (hv : '~' ∉ v) :
    tokenDecode (k ++ '~' :: v) = k ++ '=' :: v := by
  rw [tokenDecode, splitOn_append_cons, splitOn_of_not_mem hk, splitOn_of_not_mem hv]
  simp [tokenLocalDecode]

/-- What cannot be decoded is no part with its key in upper case. -/
theorem cannot_decode_ne (s k v : Text) :
    "Key=Cannot decode:".toList ++ s ≠ upper k ++ '=' :: v := by
  intro h
  have he : 'e' ∈ upper k := by
    cases hk : upper k with
    | nil =>
      rw [hk] at h
      simp at h
    | cons c cs =>
      cases cs with
      | nil =>
        rw [hk] at h
        simp at h
      | cons d cs =>
        rw [hk] at h
        simp only [String.reduceToList, List.cons_append, List.cons.injEq] at h
        simp [← h.2.1]
  exact not_mem_upper (by decide) k he

section Pair

variable {kv : Text × Text} (hslash : '/' ∉ kv.1) (htilde : '~' ∉ kv.1) (hsemi : ';' ∉ kv.1)
  (hvalue : ';' ∉ kv.2) (hesc : encodedValue kv.1 kv.2 = cgiEscape kv.2)

include hslash htilde hsemi hvalue hesc

omit htilde hsemi hvalue in
/-- A pair with one piece has no slash in its value. -/
theorem tokenDecode_of_pieces {p : Text} (h : pieces kv = [p]) :
    '/' ∉ kv.2 ∧ ';' ∉ tokenDecode (token kv) ∧ tokenDecode (token kv) = p := by
  have hslash' : '/' ∉ upper kv.1 := fun h => hslash ((mem_upper_iff (by decide) _).mp h)
  have htok : token kv = upper kv.1 ++ '~' :: cgiEscape kv.2 := by rw [token, hesc]
  have hs : '/' ∉ kv.2 := by
    intro hm
    have hm' : '/' ∈ token kv := by
      rw [htok]
      simp [(mem_cgiEscape_iff (by decide) kv.2).mpr hm]
    obtain ⟨a, b, hab⟩ := List.append_of_mem hm'
    have hlen := length_le_length_flatMap (splitOn_ne_nil ';')
      ((splitOn '/' (token kv)).map tokenDecode)
    rw [← pieces, h, hab, splitOn_append_cons, splitOn_eq '/' a, splitOn_eq '/' b] at hlen
    simp at hlen
  have hs' : '/' ∉ token kv := by
    rw [htok]
    simp [hslash', (mem_cgiEscape_iff (c := '/') (by decide) kv.2), hs]
  rw [pieces, splitOn_of_not_mem hs', List.map_singleton, List.flatMap_singleton,
    splitOn_eq_singleton_iff] at h
  exact ⟨hs, h⟩

/-- A pair whose value is escaped has its text for its only piece exactly if the value has no
character that the encoding uses or escapes. -/
theorem pieces_eq_normalText_iff :
    pieces kv = [normalText kv] ↔ '/' ∉ kv.2 ∧ '~' ∉ kv.2 ∧ ∀ c ∈ escaped, c ∉ kv.2 := by
  have hslash' : '/' ∉ upper kv.1 := fun h => hslash ((mem_upper_iff (by decide) _).mp h)
  have htilde' : '~' ∉ upper kv.1 := fun h => htilde ((mem_upper_iff (by decide) _).mp h)
  have hsemi' : ';' ∉ upper kv.1 := fun h => hsemi ((mem_upper_iff (by decide) _).mp h)
  have htok : token kv = upper kv.1 ++ '~' :: cgiEscape kv.2 := by rw [token, hesc]
  constructor
  · intro h
    obtain ⟨hs, hno, hp⟩ := tokenDecode_of_pieces hslash hesc h
    rw [htok] at hno hp
    have ht : '~' ∉ kv.2 := by
      intro hm
      rw [tokenDecode_of_tilde htilde' ((mem_cgiEscape_iff (by decide) kv.2).mpr hm)] at hp
      exact cannot_decode_ne _ _ _ hp
    refine ⟨hs, ht, fun c hc hm => ?_⟩
    rw [tokenDecode_append htilde' fun hm => ht ((mem_cgiEscape_iff (by decide) kv.2).mp hm)] at hno
    exact hno (by simp [(mem_semicolon_cgiEscape_iff hvalue).mpr ⟨c, hc, hm⟩])
  · rintro ⟨hs, ht, he⟩
    rw [pieces, htok, cgiEscape_eq_self he, splitOn_of_not_mem (by simp [hslash', hs]),
      List.map_singleton, List.flatMap_singleton, tokenDecode_append htilde' ht,
      splitOn_of_not_mem (by simp [hsemi', hvalue])]
    rfl

end Pair

/-! ## Known keys -/

theorem table_keys_ok : ∀ r ∈ mapRgxODBC, '/' ∉ r.1.toList ∧ '~' ∉ r.1.toList := by
  decide +kernel

/-- A spelling of a key has no other characters. -/
theorem mem_of_mem_keySpellings {k s : Text} (hs : s ∈ keySpellings k) {c : Char} (hc : c ∈ s) :
    c ∈ k := by
  induction k using keySpellings.induct generalizing s with
  | case1 => simp_all [keySpellings]
  | case2 a b k ih =>
    rw [keySpellings, List.mem_append, List.mem_map, List.mem_map] at hs
    rcases hs with ⟨t, ht, rfl⟩ | ⟨t, ht, rfl⟩
    all_goals
      rcases List.mem_cons.mp hc with rfl | hc
      · simp
      · simp [ih ht hc]
  | case3 d k hno ih =>
    rw [keySpellings, List.mem_append, List.mem_map] at hs
    · rcases hs with ⟨t, ht, rfl⟩ | ht
      · rcases List.mem_cons.mp hc with rfl | hc
        · simp
        · simp [ih ht hc]
      · simp [ih ht hc]
    · exact hno
  | case4 d k hno hno' ih =>
    rw [keySpellings, List.mem_map] at hs
    · obtain ⟨t, ht, rfl⟩ := hs
      rcases List.mem_cons.mp hc with rfl | hc
      · simp
      · simp [ih ht hc]
    · exact hno
    · exact hno'

/-- A key whose values are coded has no spelling in common with the others. -/
theorem coded_keys_ok : ∀ r ∈ mapRgxODBC,
    r.2 ∉ [ValueRgx.alpha, .user, .trueFalse, .hexa, .number] →
      ∀ s ∈ r.1.toList :: keySpellings r.1.toList, s ∉ odbcKeysUncoded.map upper := by
  decide +kernel

theorem uncoded_keys_ok {k : Text} (hk : k ∈ odbcKeysUncoded) {r : String × ValueRgx}
    (hr : r ∈ mapRgxODBC) (h : upper k = r.1.toList ∨ upper k ∈ keySpellings r.1.toList) :
    r.2 ∈ [ValueRgx.alpha, .user, .trueFalse, .hexa, .number] := by
  by_contra hcoded
  exact coded_keys_ok r hr hcoded (upper k) (List.mem_cons.mpr h) (List.mem_map_of_mem hk)

theorem Allowed.key_ok {kv : Text × Text} (h : Allowed kv) : '/' ∉ kv.1 ∧ '~' ∉ kv.1 := by
  obtain ⟨r, hr, hk, -⟩ := h
  have hsub {c : Char} (hc : c ∈ upper kv.1) : c ∈ r.1.toList := by
    rcases hk with hk | hk
    · exact hk ▸ hc
    · exact mem_of_mem_keySpellings hk hc
  have hok := table_keys_ok r hr
  rw [← mem_upper_iff (by decide) kv.1, ← mem_upper_iff (by decide) kv.1]
  exact ⟨fun h => hok.1 (hsub h), fun h => hok.2 (hsub h)⟩

theorem not_mem_of_fullMatch {r : ValueRgx}
    (hr : r ∈ [ValueRgx.alpha, .user, .trueFalse, .hexa, .number]) {v : Text}
    (h : r.fullMatch v = true) {c : Char} (hc : c ∈ escaped) : c ∉ v := by
  intro hm
  have hclass : (∀ c ∈ escaped, ¬ (c.isAlpha || c == '0' || c == '1') = true) ∧
      (∀ c ∈ escaped, ¬ isWordChar c = true) ∧
      (∀ c ∈ escaped, ¬ (c.isDigit || "abcdefABCDEF".toList.contains c) = true) ∧
      (∀ c ∈ escaped, ¬ (c.isDigit || decide (128 ≤ c.toNat)) = true) ∧
      (∀ c ∈ escaped, ¬ c.isAlpha = true) := by decide
  obtain ⟨htf, huser, hhexa, hnum, halpha⟩ := hclass
  cases r with
  | trueFalse => exact htf c hc (List.all_eq_true.mp h c hm)
  | user => exact huser c hc (List.all_eq_true.mp (Bool.and_eq_true_iff.mp h).2 c hm)
  | hexa => exact hhexa c hc (List.all_eq_true.mp (Bool.and_eq_true_iff.mp h).2 c hm)
  | number => exact hnum c hc (List.all_eq_true.mp (Bool.and_eq_true_iff.mp h).2 c hm)
  | alpha => exact halpha c hc (List.all_eq_true.mp (Bool.and_eq_true_iff.mp h).2 c hm)
  | _ => simp at hr

/-- The value of a known key is escaped, or has nothing to escape. -/
theorem Allowed.encodedValue_eq {kv : Text × Text} (h : Allowed kv) :
    encodedValue kv.1 kv.2 = cgiEscape kv.2 := by
  obtain ⟨r, hr, hk, v, hv, htrim⟩ := h
  rw [encodedValue]
  by_cases hu : kv.1 ∈ odbcKeysUncoded
  · have hclean : ∀ c ∈ escaped, c ∉ kv.2 := by
      intro c hc hm
      have hblank : ∀ c ∈ escaped, c ≠ ' ' := by decide
      rw [← mem_trimLeft_iff (hblank c hc), ← mem_trimRight_iff (hblank c hc), ← htrim,
        mem_trimRight_iff (hblank c hc), mem_trimLeft_iff (hblank c hc)] at hm
      exact not_mem_of_fullMatch (uncoded_keys_ok hu hr hk) hv hc hm
    rw [cgiEscape_eq_self hclean]
    simp
  · simp [hu]

/-! ## The round trip -/

theorem givesBack_iff_pieces {parts : List Part} (hne : parts ≠ []) :
    GivesBack parts ↔ ∀ kv ∈ normalPairs parts, '=' ∉ kv.2 ∧ pieces kv = [normalText kv] := by
  have hpairs : normalPairs parts ≠ [] := pairsFrom_ne_nil hne true
  rw [GivesBack, valueEncode_connectString hne, normalForm]
  by_cases heq : ∃ kv ∈ normalPairs parts, '=' ∈ kv.2
  · rw [mapM_encodePair_eq_none heq]
    obtain ⟨kv, hkv, he⟩ := heq
    constructor
    · intro h
      simp at h
    · intro h
      exact absurd he (h kv hkv).1
  · have hno : ∀ kv ∈ normalPairs parts, '=' ∉ kv.2 := fun kv hkv he => heq ⟨kv, hkv, he⟩
    have hsemi : ∀ w ∈ (normalPairs parts).map normalText, ';' ∉ w := by
      intro w hw
      obtain ⟨kv, hkv, rfl⟩ := List.mem_map.mp hw
      obtain ⟨-, hk, hv⟩ := normalPairs_ok hkv
      have hk' : ';' ∉ upper kv.1 := fun h => hk ((mem_upper_iff (by decide) _).mp h)
      simp [normalText, hk', hv]
    have hmap : (normalPairs parts).map normalText ≠ [] := by simpa using hpairs
    rw [mapM_encodePair_of hno, Option.map_some, Option.map_some, Option.some.injEq,
      ← join_splitOn ';' (valueDecode _), decode_join_token hpairs]
    have hiff : (normalPairs parts).flatMap pieces = (normalPairs parts).map normalText ↔
        ∀ kv ∈ normalPairs parts, '=' ∉ kv.2 ∧ pieces kv = [normalText kv] := by
      rw [flatMap_eq_map_iff pieces_ne_nil]
      exact forall₂_congr fun kv hkv => by simp [hno kv hkv]
    rw [← hiff]
    constructor
    · intro h
      have := congrArg (splitOn ';') h
      rwa [← decode_join_token hpairs, join_splitOn, decode_join_token hpairs,
        splitOn_join_of_not_mem hmap hsemi] at this
    · intro h
      rw [h]

theorem forall_mem_reserved {p : Char → Prop} :
    (∀ c ∈ reserved, p c) ↔ p '=' ∧ p '/' ∧ p '~' ∧ ∀ c ∈ escaped, p c := by
  have hreserved : reserved = '=' :: '/' :: '~' :: escaped := by decide
  rw [hreserved]
  simp only [List.forall_mem_cons]

theorem undisturbed_iff {parts : List Part} : Undisturbed parts ↔
    ∀ kv ∈ normalPairs parts, ∀ c ∈ reserved, c ∉ kv.2 := by
  have hblank : ∀ c ∈ reserved, c ≠ ' ' := by decide
  constructor
  · intro h kv hkv c hc hm
    obtain ⟨p, hp, hpc⟩ := (exists_pairsFrom_iff (hblank c hc) true parts).mp ⟨kv, hkv, hm⟩
    exact h p hp c hc hpc
  · intro h p hp c hc hm
    obtain ⟨kv, hkv, hkc⟩ := (exists_pairsFrom_iff (hblank c hc) true parts).mpr ⟨p, hp, hm⟩
    exact h kv hkv c hc hkc

/-- **A connection string of known keys is given back exactly if no value has an equal sign, a
slash, a tilde, an ampersand or an angle bracket.** -/
theorem givesBack_iff_undisturbed (parts : List Part) (hne : parts ≠ [])
    (h : ∀ kv ∈ normalPairs parts, Allowed kv) : GivesBack parts ↔ Undisturbed parts := by
  rw [givesBack_iff_pieces hne, undisturbed_iff]
  refine forall₂_congr fun kv hkv => ?_
  obtain ⟨-, hk, hv⟩ := normalPairs_ok hkv
  rw [pieces_eq_normalText_iff (h kv hkv).key_ok.1 (h kv hkv).key_ok.2 hk hv
    (h kv hkv).encodedValue_eq]
  exact (@forall_mem_reserved fun c => c ∉ kv.2).symm

/-! ## The table's own example -/

/-- The data source `DBQ=111.21.31.99:1521/XE`. -/
def oracleParts : List Part :=
  [⟨"dbq".toList, "111.21.31.99:1521/XE".toList, by decide, by decide⟩]

theorem oracleParts_allowed : ∀ kv ∈ normalPairs oracleParts, Allowed kv := by
  intro kv hkv
  have hkv' : kv = ("dbq".toList, "111.21.31.99:1521/XE".toList) := by
    have hpairs : normalPairs oracleParts =
        [("dbq".toList, "111.21.31.99:1521/XE".toList)] := by decide
    rw [hpairs] at hkv
    simpa using hkv
  subst hkv'
  exact ⟨("DBQ", .anything), by decide, .inl (by decide), "111.21.31.99:1521/XE".toList,
    by decide, rfl⟩

theorem givesBack_iff_undisturbed_oracle : GivesBack oracleParts ↔ Undisturbed oracleParts :=
  givesBack_iff_undisturbed oracleParts (by decide) oracleParts_allowed

theorem slash_not_decoded : ¬ ∀ parts : List Part, parts ≠ [] →
    (∀ kv ∈ normalPairs parts, Allowed kv) → GivesBack parts := by
  intro h
  have hback := h oracleParts (by decide) oracleParts_allowed
  have hdecoded : (valueEncode (connectString oracleParts)).map valueDecode =
      some "DBQ=111.21.31.99:1521;Key=Cannot decode:XE".toList := by decide +kernel
  have hnormal : normalForm oracleParts = "DBQ=111.21.31.99:1521/XE".toList := by decide
  rw [GivesBack, hdecoded, hnormal] at hback
  revert hback
  decide

end Survol.Odbc
