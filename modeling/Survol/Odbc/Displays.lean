import Survol.Odbc.RoundTrips

/-!
# The display of a connection string

A connection string is displayed with its passwords hidden: in the decoded text, what follows
`PWD=` or `PASSWORD=` up to the next semicolon is replaced. The flag that should make the search
ignore the letter case stands in the place of the number of replacements, so that each of the
two searches hides two passwords.

## Main definitions

* `hide` — the replacement of what follows a key.
* `valueDisplay` — the text that is displayed for the value of a property.
* `Rooms`, `showFrom` — the two searches, piece by piece.

## Main results

* `hide_append` — a text is searched piece by piece.
* `hide_part` — the value of a part is hidden if its key ends with the key of the search.
* `shown_eq` — the pieces that are displayed for a connection string.
-/

namespace Survol.Odbc

open PyText (Text splitOn not_mem_splitOn)
open Survol.Uris

/-! ## The two searches -/

/-- Whether the text starts with the key, the equal sign and a character other than `;`. -/
def startsMatch (q s : Text) : Bool :=
  (q ++ ['=']).isPrefixOf s && (s.drop (q.length + 1)).head?.any (· ≠ ';')

/-- The text `re.sub(q + "=[^;]+", q + "=xxxxxxx", s, n)`, where `inside` a match is skipped. -/
def hide (q : Text) : ℕ → Bool → Text → Text
  | _, _, [] => []
  | n, true, c :: s => if c = ';' then c :: hide q n false s else hide q n true s
  | n, false, c :: s => if 0 < n ∧ startsMatch q (c :: s) then
      q ++ "=xxxxxxx".toList ++ hide q (n - 1) true s else c :: hide q n false s

/-- The value of the flag `re.IGNORECASE`, given as the number of replacements. -/
def ignoreCase : ℕ := 2

/-- The text that is displayed for the value of a property. -/
def valueDisplay (connectStrCoded : Text) : Text :=
  hide "PASSWORD".toList ignoreCase false
    (hide "PWD".toList ignoreCase false (valueDecode connectStrCoded))

/-- What is displayed for a connection string; the encoding may fail. -/
def shown (parts : List Part) : Option Text :=
  (valueEncode (connectString parts)).map valueDisplay

/-- Whether a text has a match of the search. -/
def hasMatch (q : Text) : Text → Bool
  | [] => false
  | c :: s => startsMatch q (c :: s) || hasMatch q s

theorem startsMatch_iff {q s : Text} :
    startsMatch q s = true ↔ ∃ c t, s = q ++ '=' :: c :: t ∧ c ≠ ';' := by
  rw [startsMatch, Bool.and_eq_true, List.isPrefixOf_iff_prefix]
  constructor
  · rintro ⟨⟨t, rfl⟩, h⟩
    rw [List.drop_left' (by simp)] at h
    cases t with
    | nil => simp at h
    | cons c t => exact ⟨c, t, by simp, by simpa using h⟩
  · rintro ⟨c, t, rfl, hc⟩
    refine ⟨⟨c :: t, by simp⟩, ?_⟩
    have hassoc : q ++ '=' :: c :: t = (q ++ ['=']) ++ c :: t := by simp
    rw [hassoc, List.drop_left' (by simp)]
    simpa using hc

theorem startsMatch_append {q s : Text} (hq : ';' ∉ q) (rest : Text) :
    startsMatch q (s ++ ';' :: rest) = startsMatch q s := by
  rw [Bool.eq_iff_iff, startsMatch_iff, startsMatch_iff]
  constructor
  · rintro ⟨c, t, heq, hc⟩
    have heq' : s ++ ';' :: rest = (q ++ ['=', c]) ++ t := by simpa using heq
    rcases List.append_eq_append_iff.mp heq' with ⟨a, ha, hrest⟩ | ⟨a, ha, hrest⟩
    · cases a with
      | nil => exact ⟨c, [], by simpa using ha.symm, hc⟩
      | cons d a =>
        rw [List.cons_append, List.cons.injEq] at hrest
        have hmem : ';' ∈ q ++ ['=', c] := by
          rw [ha, ← hrest.1]
          simp
        simp [hq, hc.symm] at hmem
    · exact ⟨c, a, by simpa using ha, hc⟩
  · rintro ⟨c, t, rfl, hc⟩
    exact ⟨c, t ++ ';' :: rest, by simp, hc⟩

/-- **A text is searched piece by piece**: a match ends at the next semicolon. -/
theorem hide_append {q p : Text} (hq : ';' ∉ q) (hp : ';' ∉ p) (n : ℕ) (inside : Bool)
    (rest : Text) : hide q n inside (p ++ ';' :: rest) = hide q n inside p ++
      ';' :: hide q (n - if inside then 0 else (hasMatch q p).toNat) false rest := by
  induction p generalizing n inside with
  | nil =>
    cases inside
    · have hno : startsMatch q (';' :: rest) = false :=
        (@startsMatch_append q [] hq rest).trans (by cases q <;> rfl)
      simp [hide, hno, hasMatch]
    · simp [hide]
  | cons c p ih =>
    rw [List.mem_cons, not_or] at hp
    cases inside
    · have hstart : startsMatch q (c :: (p ++ ';' :: rest)) = startsMatch q (c :: p) :=
        @startsMatch_append q (c :: p) hq rest
      rw [List.cons_append, hide, hide, hstart]
      by_cases hm : 0 < n ∧ startsMatch q (c :: p)
      · rw [if_pos hm, if_pos hm, ih hp.2]
        simp [hasMatch, hm.2]
      · rw [if_neg hm, if_neg hm, ih hp.2]
        have hcount : n - (hasMatch q p).toNat = n - (hasMatch q (c :: p)).toNat := by
          rcases Nat.eq_zero_or_pos n with rfl | hn
          · simp
          · have hs : startsMatch q (c :: p) = false := by simpa [hn] using hm
            rw [hasMatch, hs, Bool.false_or]
        simp [hcount]
    · have hc : c ≠ ';' := fun h => hp.1 h.symm
      rw [List.cons_append, hide, hide, if_neg hc, if_neg hc, ih hp.2]
      rfl

theorem not_mem_hide {q p : Text} (hq : ';' ∉ q) (hp : ';' ∉ p) (n : ℕ) (inside : Bool) :
    ';' ∉ hide q n inside p := by
  induction p generalizing n inside with
  | nil => simp [hide]
  | cons c p ih =>
    rw [List.mem_cons, not_or] at hp
    cases inside
    · rw [hide]
      split
      · simp [hq, ih hp.2]
      · simp [hp.1, ih hp.2]
    · rw [hide, if_neg fun h => hp.1 h.symm]
      exact ih hp.2 n true

/-- The pieces of a text after a search. -/
def hidePieces (q : Text) : ℕ → List Text → List Text
  | _, [] => []
  | n, p :: ps => hide q n false p :: hidePieces q (n - (hasMatch q p).toNat) ps

theorem hide_join {q : Text} (hq : ';' ∉ q) (n : ℕ) {ps : List Text} (hps : ∀ p ∈ ps, ';' ∉ p) :
    hide q n false (join [';'] ps) = join [';'] (hidePieces q n ps) := by
  induction ps generalizing n with
  | nil => rfl
  | cons p ps ih =>
    cases ps with
    | nil => rfl
    | cons p' ps =>
      rw [join_cons_cons, List.append_assoc, List.singleton_append,
        hide_append hq (hps p List.mem_cons_self),
        ih _ fun x hx => hps x (List.mem_cons_of_mem p hx)]
      simp [hidePieces, join_cons_cons]

/-! ## The search in a part -/

section Part

variable {q k v : Text} (hq : '=' ∉ q) (hk : '=' ∉ k) (hv : '=' ∉ v) (hv' : ';' ∉ v)

include hk hv hv'

theorem startsMatch_part : startsMatch q (k ++ '=' :: v) = true ↔ q = k ∧ v ≠ [] := by
  rw [startsMatch_iff]
  constructor
  · rintro ⟨c, t, heq, -⟩
    obtain ⟨rfl, -, rfl⟩ := (List.append_cons_inj_of_notMem hk hv).mp heq
    exact ⟨rfl, by simp⟩
  · rintro ⟨rfl, hne⟩
    cases v with
    | nil => exact absurd rfl hne
    | cons c t => exact ⟨c, t, rfl, fun h => hv' (h ▸ List.mem_cons_self)⟩

omit hk hv' in
theorem hasMatch_eq_false : hasMatch q v = false := by
  induction v with
  | nil => rfl
  | cons c v ih =>
    rw [hasMatch, ih fun h => hv (List.mem_cons_of_mem c h), Bool.or_false]
    by_contra hm
    obtain ⟨d, t, heq, -⟩ := startsMatch_iff.mp ((Bool.not_eq_false _).mp hm)
    exact hv (by simp [heq])

theorem hasMatch_part : hasMatch q (k ++ '=' :: v) = true ↔ q <:+ k ∧ v ≠ [] := by
  induction k with
  | nil =>
    have hstart := startsMatch_part (q := q) hk hv hv'
    simp only [List.nil_append] at hstart ⊢
    rw [hasMatch, hasMatch_eq_false hv, Bool.or_false, hstart, List.suffix_nil]
  | cons c k ih =>
    have hk' : '=' ∉ k := fun h => hk (List.mem_cons_of_mem c h)
    have hstart := startsMatch_part (q := q) hk hv hv'
    rw [List.cons_append] at hstart ⊢
    rw [hasMatch, Bool.or_eq_true, hstart, ih hk', List.suffix_cons_iff]
    tauto

omit hk hv' in
theorem hide_eq_self (n : ℕ) : hide q n false v = v := by
  induction v with
  | nil => rfl
  | cons c v ih =>
    have hno : startsMatch q (c :: v) = false := by
      have := hasMatch_eq_false (q := q) hv
      rw [hasMatch, Bool.or_eq_false_iff] at this
      exact this.1
    rw [hide, hno, ih fun h => hv (List.mem_cons_of_mem c h)]
    simp

omit hk hv in
theorem hide_inside (n : ℕ) : hide q n true v = [] := by
  induction v with
  | nil => rfl
  | cons c v ih =>
    rw [List.mem_cons, not_or] at hv'
    rw [hide, if_neg fun h => hv'.1 h.symm]
    exact ih hv'.2

/-- The value of a part is hidden if its key ends with the key of the search. -/
theorem hide_part (hk' : ';' ∉ k) (n : ℕ) : hide q n false (k ++ '=' :: v) =
    if 0 < n ∧ q <:+ k ∧ v ≠ [] then k ++ "=xxxxxxx".toList else k ++ '=' :: v := by
  have hinside {x : Text} (hx : ';' ∉ x) : hide q (n - 1) true (x ++ '=' :: v) = [] :=
    hide_inside (by simp [hx, hv']) (n - 1)
  induction k with
  | nil =>
    have hstart := startsMatch_part (q := q) hk hv hv'
    rw [List.nil_append] at hstart ⊢
    rw [hide, hide_eq_self hv, hide_inside hv']
    simp only [hstart, List.suffix_nil]
    by_cases hm : 0 < n ∧ q = [] ∧ v ≠ []
    · rw [if_pos hm, if_pos hm, hm.2.1]
      rfl
    · rw [if_neg hm, if_neg hm]
  | cons c k ih =>
    rw [List.mem_cons, not_or] at hk'
    have hstart := startsMatch_part (q := q) hk hv hv'
    rw [List.cons_append] at hstart ⊢
    rw [hide, ih (fun h => hk (List.mem_cons_of_mem c h)) hk'.2, hinside hk'.2]
    simp only [hstart, List.suffix_cons_iff]
    by_cases hwhole : 0 < n ∧ q = c :: k ∧ v ≠ []
    · rw [if_pos hwhole, if_pos ⟨hwhole.1, .inl hwhole.2.1, hwhole.2.2⟩, hwhole.2.1]
      simp
    · rw [if_neg hwhole]
      by_cases hm : 0 < n ∧ q <:+ k ∧ v ≠ []
      · rw [if_pos hm, if_pos ⟨hm.1, .inr hm.2.1, hm.2.2⟩]
        rfl
      · rw [if_neg hm, if_neg]
        tauto

end Part

/-! ## The two searches over the pieces -/

/-- How many passwords the two searches may still hide. -/
abbrev Rooms := ℕ × ℕ

/-- A piece after the two searches. -/
def showPiece (r : Rooms) (p : Text) : Text :=
  hide "PASSWORD".toList r.2 false (hide "PWD".toList r.1 false p)

/-- What is left to the searches after a piece. -/
def Rooms.after (r : Rooms) (p : Text) : Rooms :=
  (r.1 - (hasMatch "PWD".toList p).toNat,
    r.2 - (hasMatch "PASSWORD".toList (hide "PWD".toList r.1 false p)).toNat)

/-- The pieces after the two searches. -/
def showFrom : Rooms → List Text → List Text
  | _, [] => []
  | r, p :: ps => showPiece r p :: showFrom (r.after p) ps

theorem hidePieces_hidePieces (r : Rooms) (ps : List Text) :
    hidePieces "PASSWORD".toList r.2 (hidePieces "PWD".toList r.1 ps) = showFrom r ps := by
  induction ps generalizing r with
  | nil => rfl
  | cons p ps ih =>
    rw [hidePieces, hidePieces, showFrom, ← ih]
    rfl

theorem showFrom_append (r : Rooms) (ps qs : List Text) :
    showFrom r (ps ++ qs) = showFrom r ps ++ showFrom (ps.foldl Rooms.after r) qs := by
  induction ps generalizing r with
  | nil => rfl
  | cons p ps ih => rw [List.cons_append, showFrom, showFrom, ih, List.cons_append, List.foldl_cons]

@[simp] theorem length_showFrom (r : Rooms) (ps : List Text) :
    (showFrom r ps).length = ps.length := by
  induction ps generalizing r with
  | nil => rfl
  | cons p ps ih => simp [showFrom, ih]

theorem showFrom_not_mem {r : Rooms} {ps : List Text} (h : ∀ p ∈ ps, ';' ∉ p) :
    ∀ p ∈ showFrom r ps, ';' ∉ p := by
  induction ps generalizing r with
  | nil => simp [showFrom]
  | cons p ps ih =>
    rw [showFrom, List.forall_mem_cons]
    rw [List.forall_mem_cons] at h
    exact ⟨not_mem_hide (by decide) (not_mem_hide (by decide) h.1 _ _) _ _, ih h.2⟩

theorem not_mem_pieces {kv : Text × Text} {p : Text} (h : p ∈ pieces kv) : ';' ∉ p := by
  obtain ⟨t, -, hp⟩ := List.mem_flatMap.mp h
  exact not_mem_splitOn hp

theorem flatMap_pieces_ok (pairs : List (Text × Text)) : ∀ p ∈ pairs.flatMap pieces, ';' ∉ p := by
  intro p hp
  obtain ⟨kv, -, hkv⟩ := List.mem_flatMap.mp hp
  exact not_mem_pieces hkv

/-- What is displayed for a connection string that can be encoded. -/
theorem shown_eq {parts : List Part} (hne : parts ≠ [])
    (h : ∀ kv ∈ normalPairs parts, '=' ∉ kv.2) : shown parts =
      some (join [';'] (showFrom (ignoreCase, ignoreCase) ((normalPairs parts).flatMap pieces))) := by
  have hpairs : normalPairs parts ≠ [] := pairsFrom_ne_nil hne true
  have hok := flatMap_pieces_ok (normalPairs parts)
  have hok' : ∀ p ∈ hidePieces "PWD".toList ignoreCase ((normalPairs parts).flatMap pieces),
      ';' ∉ p := by
    generalize (normalPairs parts).flatMap pieces = ps at hok
    generalize ignoreCase = n
    induction ps generalizing n with
    | nil => simp [hidePieces]
    | cons p ps ih =>
      rw [List.forall_mem_cons] at hok
      rw [hidePieces, List.forall_mem_cons]
      exact ⟨not_mem_hide (by decide) hok.1 _ _, ih hok.2 _⟩
  rw [shown, valueEncode_connectString hne, mapM_encodePair_of h, Option.map_some,
    Option.map_some, valueDisplay, ← join_splitOn ';' (valueDecode _), decode_join_token hpairs,
    hide_join (by decide) _ hok, hide_join (by decide) _ hok',
    ← hidePieces_hidePieces (ignoreCase, ignoreCase)]

end Survol.Odbc
