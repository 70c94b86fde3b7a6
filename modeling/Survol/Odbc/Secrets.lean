import Survol.Odbc.Displays

/-!
# Passwords on display

What is displayed for a connection string does not depend on its passwords exactly if no
password has a character that the encoding uses or escapes, none is blank, and none comes
after the two that its search hides.

## Main definitions

* `IsSecret`, `SameButSecrets` — the confidential keys, and strings that differ in their values.
* `HidesSecrets` — the display is that of any string with other passwords.
* `Masked` — the confidential values are hidden by the searches.

## Main results

* `hidesSecrets_iff_masked` — the passwords are hidden exactly if they are masked, and two
  strings that differ in masked passwords are displayed alike.
-/

namespace Survol.Odbc

open PyText (Text splitOn)
open Survol.Uris

/-! ## Strings with other passwords -/

/-- The keys of the passwords, in any letter case. -/
def IsSecret (k : Text) : Prop := upper (trimLeft (trimRight k)) ∈ odbcKeysConfidential

instance (k : Text) : Decidable (IsSecret k) := inferInstanceAs (Decidable (_ ∈ _))

/-- The two strings differ in the values of confidential keys only. -/
def SameButSecrets (parts parts' : List Part) : Prop :=
  List.Forall₂ (fun p p' => p.key = p'.key ∧ (¬ IsSecret p.key → p.value = p'.value)) parts parts'

/-- A plain word. -/
structure Word where
  /-- Its letters. -/
  text : Text
  ne_nil : text ≠ []
  letters : ∀ c ∈ text, c.isAlpha = true

namespace Word

theorem not_mem (w : Word) {c : Char} (h : c.isAlpha = false) : c ∉ w.text := by
  intro hc
  have := w.letters c hc
  rw [h] at this
  simp at this

end Word

/-- The part with the word for its password. -/
def Part.fill (w : Word) (p : Part) : Part :=
  if IsSecret p.key then { p with value := w.text, value_ok := w.not_mem rfl } else p

/-- The string with the word for all its passwords. -/
def fillSecrets (w : Word) (parts : List Part) : List Part := parts.map (Part.fill w)

/-- The string is displayed, and as any string with a plain word for its passwords. -/
def HidesSecrets (parts : List Part) : Prop :=
  ∀ w : Word, ∃ t, shown parts = some t ∧ shown (fillSecrets w parts) = some t

theorem fill_eq_of_sameButSecrets {parts parts' : List Part} (h : SameButSecrets parts parts')
    (w : Word) : fillSecrets w parts = fillSecrets w parts' := by
  induction h with
  | nil => rfl
  | @cons p p' ps ps' hp _ ih =>
    have hfill : p.fill w = p'.fill w := by
      obtain ⟨k, v, hk, hv⟩ := p
      obtain ⟨k', v', hk', hv'⟩ := p'
      obtain ⟨hkey, hval⟩ := hp
      simp only at hkey hval
      subst hkey
      by_cases hs : IsSecret k
      · simp [Part.fill, hs]
      · obtain rfl := hval hs
        rfl
    simp only [fillSecrets, List.map_cons, hfill, List.cons.injEq, true_and]
    exact ih

/-! ## Masked passwords -/

/-- A password that is not blank and has no reserved character. -/
def Plain (v : Text) : Prop := v ≠ [] ∧ ∀ c ∈ reserved, c ∉ v

/-- What is left to the search that hides the values of a key. -/
def Rooms.own (r : Rooms) (k : Text) : ℕ := if "PWD".toList <:+ upper k then r.1 else r.2

/-- Every password is plain, and is met while its search may still hide one. -/
def MaskedFrom : Rooms → List (Text × Text) → Prop
  | _, [] => True
  | r, kv :: kvs => (IsSecret kv.1 → Plain kv.2 ∧ 0 < r.own kv.1) ∧
      MaskedFrom ((pieces kv).foldl Rooms.after r) kvs

/-- The string can be encoded, and its passwords are masked. -/
def Masked (parts : List Part) : Prop :=
  (∀ kv ∈ normalPairs parts, '=' ∉ kv.2) ∧
    MaskedFrom (ignoreCase, ignoreCase) (normalPairs parts)

/-- The key of a password, without blanks after it. -/
structure SecretKey (k : Text) : Prop where
  equal_ok : '=' ∉ k
  semicolon_ok : ';' ∉ k
  slash_ok : '/' ∉ k
  tilde_ok : '~' ∉ k
  coded : k ∉ odbcKeysUncoded
  search : ("PWD".toList <:+ upper k ∧ ¬ "PASSWORD".toList <:+ upper k) ∨
    (¬ "PWD".toList <:+ upper k ∧ "PASSWORD".toList <:+ upper k)

theorem confidential_keys_ok : ∀ q ∈ odbcKeysConfidential,
    ('=' ∉ q ∧ ';' ∉ q ∧ '/' ∉ q ∧ '~' ∉ q) ∧ (q = "PWD".toList ∨ "PASSWORD".toList <:+ q) := by
  decide +kernel

theorem uncoded_not_confidential : ∀ k ∈ odbcKeysUncoded,
    upper (trimLeft k) ∉ odbcKeysConfidential := by decide +kernel

theorem secretKey_of {k : Text} (h : IsSecret k) (ht : trimRight k = k) : SecretKey k := by
  rw [IsSecret, ht] at h
  obtain ⟨⟨he, hs, hsl, hti⟩, hq⟩ := confidential_keys_ok _ h
  have hclean {c : Char} (hc : c.toNat < 65 ∨ 122 < c.toNat) (hb : c ≠ ' ')
      (hno : c ∉ upper (trimLeft k)) : c ∉ k := by
    intro hm
    exact hno ((mem_upper_iff hc _).mpr ((mem_trimLeft_iff hb k).mpr hm))
  have hsuffix : upper (trimLeft k) <:+ upper k := (List.dropWhile_suffix _).map _
  have hnot : ¬ "PWD".toList <:+ "PASSWORD".toList := by decide
  refine ⟨hclean (by decide) (by decide) he, hclean (by decide) (by decide) hs,
    hclean (by decide) (by decide) hsl, hclean (by decide) (by decide) hti,
    fun hu => uncoded_not_confidential k hu h, ?_⟩
  rcases hq with hq | hq
  · rw [hq] at hsuffix
    refine .inl ⟨hsuffix, fun hp => hnot ?_⟩
    exact List.suffix_of_suffix_length_le hsuffix hp (by decide)
  · have hp := hq.trans hsuffix
    refine .inr ⟨fun hs => hnot ?_, hp⟩
    exact List.suffix_of_suffix_length_le hs hp (by decide)

theorem mask_eq : "=xxxxxxx".toList = '=' :: "xxxxxxx".toList := by decide

section Secret

variable {k v w : Text} (hk : SecretKey k) (hv : '=' ∉ v) (hv' : ';' ∉ v)

include hk in
theorem SecretKey.upper_ok : '=' ∉ upper k ∧ ';' ∉ upper k :=
  ⟨fun h => hk.equal_ok ((mem_upper_iff (by decide) _).mp h),
    fun h => hk.semicolon_ok ((mem_upper_iff (by decide) _).mp h)⟩

include hk hv hv'

/-- A password is hidden by its own search only. -/
theorem showPiece_secret (r : Rooms) : showPiece r (upper k ++ '=' :: v) =
    if 0 < r.own k ∧ v ≠ [] then upper k ++ "=xxxxxxx".toList else upper k ++ '=' :: v := by
  obtain ⟨he, hs⟩ := hk.upper_ok
  rw [showPiece, hide_part he hv hv' hs, Rooms.own]
  rcases hk.search with ⟨hpwd, hno⟩ | ⟨hno, hpass⟩
  · rw [if_pos hpwd]
    by_cases hm : 0 < r.1 ∧ v ≠ []
    · rw [if_pos ⟨hm.1, hpwd, hm.2⟩, if_pos hm, mask_eq,
        hide_part he (by decide) (by decide) hs, if_neg fun h => hno h.2.1]
    · rw [if_neg fun h => hm ⟨h.1, h.2.2⟩, if_neg hm, hide_part he hv hv' hs,
        if_neg fun h => hno h.2.1]
  · rw [if_neg hno, if_neg fun h => hno h.2.1, hide_part he hv hv' hs]
    by_cases hm : 0 < r.2 ∧ v ≠ []
    · rw [if_pos ⟨hm.1, hpass, hm.2⟩, if_pos hm]
    · rw [if_neg fun h => hm ⟨h.1, h.2.2⟩, if_neg hm]

theorem hasMatch_hide (hne : v ≠ []) (n : ℕ) :
    hasMatch "PASSWORD".toList (hide "PWD".toList n false (upper k ++ '=' :: v)) = true ↔
      "PASSWORD".toList <:+ upper k := by
  obtain ⟨he, hs⟩ := hk.upper_ok
  rw [hide_part he hv hv' hs]
  split
  · rw [mask_eq, hasMatch_part he (by decide) (by decide)]
    exact and_iff_left (by decide)
  · rw [hasMatch_part he hv hv']
    simp [hne]

/-- What is left after a password does not depend on it. -/
theorem after_secret (hw : '=' ∉ w) (hw' : ';' ∉ w) (hne : v ≠ []) (hne' : w ≠ []) (r : Rooms) :
    r.after (upper k ++ '=' :: v) = r.after (upper k ++ '=' :: w) := by
  obtain ⟨he, hs⟩ := hk.upper_ok
  have hpwd : hasMatch "PWD".toList (upper k ++ '=' :: v) =
      hasMatch "PWD".toList (upper k ++ '=' :: w) := by
    rw [Bool.eq_iff_iff, hasMatch_part he hv hv', hasMatch_part he hw hw']
    simp [hne, hne']
  have hpass : hasMatch "PASSWORD".toList (hide "PWD".toList r.1 false (upper k ++ '=' :: v)) =
      hasMatch "PASSWORD".toList (hide "PWD".toList r.1 false (upper k ++ '=' :: w)) := by
    rw [Bool.eq_iff_iff, hasMatch_hide hk hv hv' hne, hasMatch_hide hk hw hw' hne']
  rw [Rooms.after, Rooms.after, hpwd, hpass]

omit hv in
theorem pieces_secret_iff :
    pieces (k, v) = [normalText (k, v)] ↔ '/' ∉ v ∧ '~' ∉ v ∧ ∀ c ∈ escaped, c ∉ v :=
  @pieces_eq_normalText_iff (k, v) hk.slash_ok hk.tilde_ok hk.semicolon_ok hv' (by
    simp [encodedValue, hk.coded])

end Secret

/-! ## Trimmed keys -/

theorem trimLeft_of_not_mem {s : Text} (h : ' ' ∉ s) : trimLeft s = s := by
  cases s with
  | nil => rfl
  | cons c s => exact trimLeft_cons (fun hc => h (hc ▸ List.mem_cons_self)) s

theorem trimRight_of_not_mem {s : Text} (h : ' ' ∉ s) : trimRight s = s := by
  rw [trimRight_eq, trimLeft_of_not_mem (by simpa using h), List.reverse_reverse]

theorem trimLeft_trimRight (s : Text) : trimLeft (trimRight s) = trimRight (trimLeft s) := by
  by_cases h : ∃ c ∈ s, c ≠ ' '
  · obtain ⟨c, hc, hne⟩ := h
    obtain ⟨a, b, rfl⟩ := List.append_of_mem hc
    rw [trimRight_append_cons hne, trimLeft_append_cons hne, trimLeft_append_cons hne,
      trimRight_append_cons hne]
  · have hnil {t : Text} (ht : ∀ c ∈ t, c ∈ s) : trimLeft t = [] := by
      refine List.dropWhile_eq_nil_iff.mpr fun c hc => ?_
      by_contra hb
      exact h ⟨c, ht c hc, by simpa using hb⟩
    rw [hnil fun c hc => mem_of_mem_trimRight hc, hnil fun c hc => hc]
    rfl

theorem trimRight_trimRight (s : Text) : trimRight (trimRight s) = trimRight s :=
  List.rdropWhile_idempotent _ _

theorem trimLeft_trimLeft (s : Text) : trimLeft (trimLeft s) = trimLeft s :=
  List.dropWhile_idempotent _ _

theorem isSecret_normal (first : Bool) (k : Text) :
    IsSecret (trimRight (if first then k else trimLeft k)) ↔ IsSecret k := by
  cases first
  · rw [IsSecret, IsSecret, if_neg Bool.false_ne_true, trimRight_trimRight, trimLeft_trimRight,
      trimLeft_trimLeft, ← trimLeft_trimRight]
  · rw [IsSecret, IsSecret, if_pos rfl, trimRight_trimRight]

/-- The pair with the word for its password. -/
def fillPair (w : Word) (kv : Text × Text) : Text × Text :=
  if IsSecret kv.1 then (kv.1, w.text) else kv

theorem pairsFrom_fillSecrets (w : Word) (first : Bool) (parts : List Part) :
    pairsFrom first (fillSecrets w parts) = (pairsFrom first parts).map (fillPair w) := by
  have hblank : ' ' ∉ w.text := w.not_mem rfl
  induction parts generalizing first with
  | nil => rfl
  | cons p ps ih =>
    have hempty : (ps.map (Part.fill w)).isEmpty = ps.isEmpty := by cases ps <;> rfl
    rw [fillSecrets, List.map_cons, pairsFrom, pairsFrom, List.map_cons, ← ih, fillSecrets, hempty,
      fillPair]
    simp only [isSecret_normal]
    congr 1
    rw [Part.fill]
    by_cases hs : IsSecret p.key
    · simp [hs, trimRight_of_not_mem hblank, trimLeft_of_not_mem hblank]
    · simp [hs]

theorem trimRight_of_mem_pairsFrom {parts : List Part} {first : Bool} {kv : Text × Text}
    (h : kv ∈ pairsFrom first parts) : trimRight kv.1 = kv.1 := by
  induction parts generalizing first with
  | nil => simp [pairsFrom] at h
  | cons p ps ih =>
    rw [pairsFrom, List.mem_cons] at h
    rcases h with rfl | h
    · exact trimRight_trimRight _
    · exact ih h

/-! ## One password after the other -/

theorem Word.pieces_eq {k : Text} (hk : SecretKey k) (w : Word) :
    pieces (k, w.text) = [normalText (k, w.text)] := by
  refine (pieces_secret_iff hk (w.not_mem rfl)).mpr ⟨w.not_mem rfl, w.not_mem rfl, ?_⟩
  intro c hc
  have hall : ∀ c ∈ escaped, c.isAlpha = false := by decide
  exact w.not_mem (hall c hc)

theorem length_pieces_fillPair_le {kv : Text × Text} (h : IsSecret kv.1 → SecretKey kv.1)
    (w : Word) : (pieces (fillPair w kv)).length ≤ (pieces kv).length := by
  rw [fillPair]
  by_cases hs : IsSecret kv.1
  · rw [if_pos hs, w.pieces_eq (h hs)]
    exact List.length_pos_of_ne_nil (pieces_ne_nil kv)
  · rw [if_neg hs]

theorem length_flatMap_fillPair_le {kvs : List (Text × Text)}
    (h : ∀ kv ∈ kvs, IsSecret kv.1 → SecretKey kv.1) (w : Word) :
    ((kvs.map (fillPair w)).flatMap pieces).length ≤ (kvs.flatMap pieces).length := by
  induction kvs with
  | nil => simp
  | cons kv kvs ih =>
    have hhead := length_pieces_fillPair_le (h kv List.mem_cons_self) w
    have htail := ih fun kv' hkv => h kv' (List.mem_cons_of_mem kv hkv)
    simp only [List.map_cons, List.flatMap_cons, List.length_append]
    omega

/-- The word `a`. -/
def wordA : Word := ⟨['a'], by decide, by decide⟩

/-- The word `b`. -/
def wordB : Word := ⟨['b'], by decide, by decide⟩

/-- What cannot be decoded is displayed as it is. -/
theorem showPiece_cannot_decode {s : Text} (h : '=' ∉ s) (h' : ';' ∉ s) (r : Rooms) :
    showPiece r ("Key=Cannot decode:".toList ++ s) = "Key=Cannot decode:".toList ++ s := by
  have heq : "Key=Cannot decode:".toList ++ s = "Key".toList ++ '=' :: ("Cannot decode:".toList ++ s) :=
    rfl
  have hv : '=' ∉ "Cannot decode:".toList ++ s := by simp [h]
  have hv' : ';' ∉ "Cannot decode:".toList ++ s := by simp [h']
  have hpwd : ¬ "PWD".toList <:+ "Key".toList := by decide
  have hpass : ¬ "PASSWORD".toList <:+ "Key".toList := by decide
  rw [heq, showPiece, hide_part (by decide) hv hv' (by decide), if_neg fun h => hpwd h.2.1,
    hide_part (by decide) hv hv' (by decide), if_neg fun h => hpass h.2.1]

section Head

variable {k v : Text} (hk : SecretKey k) (hv : '=' ∉ v) (hv' : ';' ∉ v) (r : Rooms)

include hk hv hv'

/-- A piece that is displayed as the part with any word is a part with a masked password. -/
theorem plain_of_showPiece {p : Text} (hp : pieces (k, v) = [p])
    (h : ∀ w : Word, showPiece r p = showPiece r (normalText (k, w.text))) :
    Plain v ∧ 0 < r.own k := by
  obtain ⟨he, hs⟩ := hk.upper_ok
  have hword (w : Word) := showPiece_secret hk (v := w.text) (w.not_mem rfl) (w.not_mem rfl) r
  have htilde : '~' ∉ upper k := fun h => hk.tilde_ok ((mem_upper_iff (by decide) _).mp h)
  have hesc : encodedValue k v = cgiEscape v := by simp [encodedValue, hk.coded]
  have htok : token (k, v) = upper k ++ '~' :: cgiEscape v := by rw [token, hesc]
  obtain ⟨hslash, hno, rfl⟩ := @tokenDecode_of_pieces (k, v) hk.slash_ok hesc p hp
  rw [htok] at hno h
  have ht : '~' ∉ v := by
    intro hm
    rw [tokenDecode_of_tilde htilde ((mem_cgiEscape_iff (by decide) v).mpr hm)] at hno h
    have hshow := showPiece_cannot_decode (s := upper k ++ '~' :: cgiEscape v)
      (by simp [he, hv, mem_cgiEscape_iff (c := '=') (by decide)])
      (fun hm => hno (List.mem_append_right _ hm)) r
    have hA := h wordA
    rw [hshow, normalText, hword] at hA
    split at hA
    · exact cannot_decode_ne _ k "xxxxxxx".toList hA
    · exact cannot_decode_ne _ k wordA.text hA
  rw [tokenDecode_append htilde fun hm => ht ((mem_cgiEscape_iff (by decide) v).mp hm)] at hno h
  have hclean : ∀ c ∈ escaped, c ∉ v := by
    intro c hc hm
    exact hno (by simp [(mem_semicolon_cgiEscape_iff hv').mpr ⟨c, hc, hm⟩])
  rw [cgiEscape_eq_self hclean] at h
  simp only [normalText, hword, showPiece_secret hk hv hv'] at h
  have hA := h wordA
  have hB := h wordB
  have hne : v ≠ [] := by
    rintro rfl
    rw [if_neg fun h => h.2 rfl] at hA
    split at hA <;> simp [mask_eq, wordA] at hA
  have hroom : 0 < r.own k := by
    by_contra hr
    rw [if_neg fun h => hr h.1, if_neg fun h => hr h.1] at hA hB
    have heq := hA.symm.trans hB
    simp [wordA, wordB] at heq
  refine ⟨⟨hne, fun c hc => ?_⟩, hroom⟩
  have hall : ∀ c ∈ reserved, c = '=' ∨ c = '/' ∨ c = '~' ∨ c ∈ escaped := by decide
  rcases hall c hc with rfl | rfl | rfl | he
  · exact hv
  · exact hslash
  · exact ht
  · exact hclean c he

/-- A plain password is one piece, which its search hides. -/
theorem showPiece_of_plain (hp : Plain v) (hr : 0 < r.own k) (w : Word) :
    pieces (k, v) = [normalText (k, v)] ∧
      showPiece r (normalText (k, v)) = showPiece r (normalText (k, w.text)) := by
  have hsub : ∀ c ∈ escaped, c ∈ reserved := by decide
  constructor
  · exact (pieces_secret_iff hk hv').mpr ⟨hp.2 '/' (by decide), hp.2 '~' (by decide),
      fun c hc => hp.2 c (hsub c hc)⟩
  · rw [normalText, normalText, showPiece_secret hk hv hv', if_pos ⟨hr, hp.1⟩,
      showPiece_secret hk (w.not_mem rfl) (w.not_mem rfl), if_pos ⟨hr, w.ne_nil⟩]

end Head

/-- **A list of pairs is displayed as with any words for its passwords exactly if these are
masked**: by induction on the pairs, with what is left to the searches. -/
theorem showFrom_fill_iff {kvs : List (Text × Text)}
    (hok : ∀ kv ∈ kvs, '=' ∉ kv.2 ∧ ';' ∉ kv.2 ∧ (IsSecret kv.1 → SecretKey kv.1)) (r : Rooms) :
    (∀ w : Word, showFrom r ((kvs.map (fillPair w)).flatMap pieces) =
      showFrom r (kvs.flatMap pieces)) ↔ MaskedFrom r kvs := by
  induction kvs generalizing r with
  | nil => simp [MaskedFrom]
  | cons kv kvs ih =>
    rw [List.forall_mem_cons] at hok
    obtain ⟨⟨hv, hv', hkey⟩, htail⟩ := hok
    simp only [List.map_cons, List.flatMap_cons, MaskedFrom]
    by_cases hs : IsSecret kv.1
    · have hk := hkey hs
      have hfill (w : Word) : pieces (fillPair w kv) = [normalText (kv.1, w.text)] := by
        rw [fillPair, if_pos hs, w.pieces_eq hk]
      simp only [hs, true_implies, hfill, List.singleton_append, showFrom]
      constructor
      · intro h
        have hone : ∃ p, pieces kv = [p] := by
          have hlen := congrArg List.length (h wordA)
          have hle := length_flatMap_fillPair_le (fun kv hkv => (htail kv hkv).2.2) wordA
          have hpos := List.length_pos_of_ne_nil (pieces_ne_nil kv)
          simp only [List.length_cons, length_showFrom, List.length_append] at hlen
          exact List.length_eq_one_iff.mp (by omega)
        obtain ⟨p, hp⟩ := hone
        simp only [hp, List.singleton_append, showFrom, List.cons.injEq] at h
        obtain ⟨hplain, hroom⟩ := plain_of_showPiece hk hv hv' r hp fun w => (h w).1.symm
        obtain ⟨hpieces, -⟩ := showPiece_of_plain hk hv hv' r hplain hroom wordA
        obtain rfl : p = normalText kv := by simpa [hp] using hpieces
        refine ⟨⟨hplain, hroom⟩, ?_⟩
        rw [hp, List.foldl_cons, List.foldl_nil, ← ih htail]
        intro w
        have hafter := after_secret hk hv hv' (w := w.text) (w.not_mem rfl) (w.not_mem rfl)
          hplain.1 w.ne_nil r
        have hrest := (h w).2
        simp only [normalText] at hrest ⊢
        rw [← hafter] at hrest
        exact hrest
      · rintro ⟨⟨hplain, hroom⟩, hrest⟩ w
        obtain ⟨hpieces, hshow⟩ := showPiece_of_plain hk hv hv' r hplain hroom w
        have hpieces' : pieces kv = [normalText kv] := hpieces
        rw [hpieces', List.foldl_cons, List.foldl_nil, ← ih htail] at hrest
        have hafter := after_secret hk hv hv' (w := w.text) (w.not_mem rfl) (w.not_mem rfl)
          hplain.1 w.ne_nil r
        rw [hpieces', List.singleton_append, showFrom, List.cons.injEq]
        refine ⟨hshow.symm, ?_⟩
        have hw := hrest w
        simp only [normalText] at hw ⊢
        rw [← hafter]
        exact hw
    · have hfill (w : Word) : fillPair w kv = kv := by rw [fillPair, if_neg hs]
      simp only [hs, false_implies, true_and, hfill, showFrom_append, List.append_cancel_left_eq]
      exact ih htail _

/-! ## The display of a string -/

theorem normalPairs_spec {parts : List Part} (h : ∀ kv ∈ normalPairs parts, '=' ∉ kv.2) :
    ∀ kv ∈ normalPairs parts, '=' ∉ kv.2 ∧ ';' ∉ kv.2 ∧ (IsSecret kv.1 → SecretKey kv.1) := by
  intro kv hkv
  exact ⟨h kv hkv, (normalPairs_ok hkv).2.2,
    fun hs => secretKey_of hs (trimRight_of_mem_pairsFrom hkv)⟩

theorem shown_eq_none {parts : List Part} (hne : parts ≠ [])
    (h : ∃ kv ∈ normalPairs parts, '=' ∈ kv.2) : shown parts = none := by
  rw [shown, valueEncode_connectString hne, mapM_encodePair_eq_none h]
  rfl

/-- Two strings are displayed alike exactly if their pieces are. -/
theorem join_showFrom_inj {r : Rooms} {pairs pairs' : List (Text × Text)} (h : pairs ≠ [])
    (h' : pairs' ≠ []) :
    join [';'] (showFrom r (pairs.flatMap pieces)) =
      join [';'] (showFrom r (pairs'.flatMap pieces)) ↔
    showFrom r (pairs.flatMap pieces) = showFrom r (pairs'.flatMap pieces) := by
  have hne {l : List (Text × Text)} (hl : l ≠ []) : showFrom r (l.flatMap pieces) ≠ [] := by
    intro hnil
    have hlen := congrArg List.length hnil
    have hle := length_le_length_flatMap pieces_ne_nil l
    have hpos := List.length_pos_of_ne_nil hl
    simp only [length_showFrom, List.length_nil] at hlen
    omega
  constructor
  · intro heq
    have hsplit := congrArg (splitOn ';') heq
    rwa [splitOn_join_of_not_mem (hne h) (showFrom_not_mem (flatMap_pieces_ok pairs)),
      splitOn_join_of_not_mem (hne h') (showFrom_not_mem (flatMap_pieces_ok pairs'))] at hsplit
  · intro heq
    rw [heq]

theorem hidesSecrets_iff {parts : List Part} (hne : parts ≠ []) :
    HidesSecrets parts ↔ Masked parts := by
  have hpairs : normalPairs parts ≠ [] := pairsFrom_ne_nil hne true
  have hfill (w : Word) : normalPairs (fillSecrets w parts) =
      (normalPairs parts).map (fillPair w) := pairsFrom_fillSecrets w true parts
  have hne' (w : Word) : fillSecrets w parts ≠ [] := by simpa [fillSecrets] using hne
  by_cases heq : ∃ kv ∈ normalPairs parts, '=' ∈ kv.2
  · constructor
    · intro h
      obtain ⟨t, ht, -⟩ := h wordA
      rw [shown_eq_none hne heq] at ht
      cases ht
    · intro h
      obtain ⟨kv, hkv, he⟩ := heq
      exact absurd he (h.1 kv hkv)
  · have hno : ∀ kv ∈ normalPairs parts, '=' ∉ kv.2 := fun kv hkv he => heq ⟨kv, hkv, he⟩
    have hno' (w : Word) : ∀ kv ∈ normalPairs (fillSecrets w parts), '=' ∉ kv.2 := by
      intro kv hkv
      rw [hfill] at hkv
      obtain ⟨kv', hkv', rfl⟩ := List.mem_map.mp hkv
      rw [fillPair]
      split
      · exact w.not_mem rfl
      · exact hno kv' hkv'
    rw [Masked, and_iff_right hno, ← showFrom_fill_iff (normalPairs_spec hno)]
    refine forall_congr' fun w => ?_
    rw [shown_eq hne hno, shown_eq (hne' w) (hno' w), hfill w,
      ← join_showFrom_inj (by simpa using hpairs) hpairs]
    constructor
    · rintro ⟨t, ht, hw⟩
      exact Option.some.inj (hw.trans ht.symm)
    · intro h
      exact ⟨_, rfl, congrArg some h⟩

/-- **The passwords of a connection string are hidden exactly if they are masked**; two strings
that differ only in passwords, all masked, are displayed alike. -/
theorem hidesSecrets_iff_masked (parts : List Part) (hne : parts ≠ []) :
    (HidesSecrets parts ↔ Masked parts) ∧
    ∀ parts', SameButSecrets parts parts' → Masked parts → Masked parts' →
      ∃ t, shown parts = some t ∧ shown parts' = some t := by
  refine ⟨hidesSecrets_iff hne, fun parts' hsame hm hm' => ?_⟩
  have hne' : parts' ≠ [] := by
    rintro rfl
    cases hsame
    exact hne rfl
  obtain ⟨t, ht, hw⟩ := (hidesSecrets_iff hne).mpr hm wordA
  obtain ⟨t', ht', hw'⟩ := (hidesSecrets_iff hne').mpr hm' wordA
  rw [fill_eq_of_sameButSecrets hsame, hw'] at hw
  exact ⟨t, ht, ht'.trans hw⟩

/-- The data source with the user `me` and the given password. -/
def loginParts (password : Text) (h : ';' ∉ password) : List Part :=
  [⟨"UID".toList, "me".toList, by decide, by decide⟩, ⟨"pwd".toList, password, by decide, h⟩]

theorem hidesSecrets_iff_masked_login :
    let parts := loginParts "s3cret".toList (by decide)
    (HidesSecrets parts ↔ Masked parts) ∧
    ∀ parts', SameButSecrets parts parts' → Masked parts → Masked parts' →
      ∃ t, shown parts = some t ∧ shown parts' = some t :=
  hidesSecrets_iff_masked (loginParts "s3cret".toList (by decide)) (by decide)

theorem ampersand_not_hidden : ¬ ∀ parts parts' : List Part, parts ≠ [] →
    SameButSecrets parts parts' → (∀ p ∈ parts, IsSecret p.key → p.value ≠ []) →
    (∀ p ∈ parts', IsSecret p.key → p.value ≠ []) →
      ∃ t, shown parts = some t ∧ shown parts' = some t := by
  intro h
  have hsame : SameButSecrets (loginParts "a&b".toList (by decide))
      (loginParts "a&c".toList (by decide)) := by
    have hsecret : IsSecret "pwd".toList := by decide
    exact .cons ⟨rfl, fun _ => rfl⟩ (.cons ⟨rfl, fun hno => absurd hsecret hno⟩ .nil)
  obtain ⟨t, ht, ht'⟩ := h _ _ (by decide) hsame (by decide) (by decide)
  have hshown : shown (loginParts "a&b".toList (by decide)) =
      some "UID=me;PWD=xxxxxxx;b".toList := by decide +kernel
  have hshown' : shown (loginParts "a&c".toList (by decide)) =
      some "UID=me;PWD=xxxxxxx;c".toList := by decide +kernel
  rw [← ht, hshown'] at ht'
  rw [hshown] at ht'
  revert ht'
  decide

end Survol.Odbc
