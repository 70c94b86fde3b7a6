import Survol.Lib.Positions
import Survol.Sql.Queries

/-!
# The names of tables

The regular expressions are tried on the text of a table with its alias. They give the name of the
table if its characters and those of the alias are the known ones, and else nothing: never another
name.

## Main results

* `parseAppend_text` — what is read in the text of a table with its alias.
* `TableRef.valueOf_tokens` — its text is the one of its tokens.
-/

open PyText

namespace Survol.Sql

/-! ## Reading the text of a table -/

theorem IsName.ne_nil {s : Text} (h : IsName s) : s ≠ [] := by
  rintro rfl
  obtain ⟨c, hc, -⟩ := h.head
  cases hc

theorem isTableChar_of_isBlank {c : Char} (h : isBlank c = true) : isTableChar c = false :=
  @forall_isBlank (isTableChar · = false) (by decide) c h

theorem isSynoChar_of_isBlank {c : Char} (h : isBlank c = true) : isSynoChar c = false :=
  @forall_isBlank (isSynoChar · = false) (by decide) c h

theorem matchName_of_regular {p : Char → Bool} {name rest : Text} (h : regular p name = true)
    (hrest : ∀ c ∈ rest.head?, p c = false) : matchName p (name ++ rest) = some (name, rest) := by
  rw [regular, Bool.and_eq_true, List.all_eq_true] at h
  obtain ⟨hstart, hall⟩ := h
  have hne : name ≠ [] := by
    rintro rfl
    cases hstart
  rw [matchName, List.head?_append_of_ne_nil _ hne, if_pos hstart,
    takeWhile_append_of_head hrest, List.takeWhile_eq_self_iff.2 hall,
    List.dropWhile_append_of_pos hall, dropWhile_of_head hrest]

/-- A name that is not accepted is cut before a character that is no white space. -/
theorem matchName_of_not_regular {p : Char → Bool} {name : Text} (hn : IsName name)
    (h : regular p name = false) (rest : Text) :
    matchName p (name ++ rest) = none ∨
      ∃ n c r, matchName p (name ++ rest) = some (n, c :: r) ∧ isBlank c = false := by
  rw [matchName, List.head?_append_of_ne_nil _ hn.ne_nil]
  by_cases hstart : (name.head?.map isNameStart).getD false = true
  · refine .inr ?_
    rw [regular, hstart, Bool.true_and] at h
    have hblank : ∀ c ∈ name, isBlank c = false := by
      refine hn.blank.resolve_right fun hhead => ?_
      obtain ⟨c, hc, -⟩ := hn.head
      rw [Option.mem_def.1 hc, Option.map_some, Option.getD_some, hhead c hc] at hstart
      cases hstart
    cases hd : name.dropWhile p with
    | nil =>
      rw [List.dropWhile_eq_nil_iff, ← List.all_eq_true, h] at hd
      cases hd
    | cons c r =>
      have hmem : c ∈ name :=
        (List.dropWhile_suffix p).subset (hd ▸ List.mem_cons_self : c ∈ name.dropWhile p)
      have hdrop : (name ++ rest).dropWhile p = c :: (r ++ rest) := by
        rw [List.dropWhile_append, hd]
        rfl
      rw [if_pos hstart, hdrop]
      exact ⟨_, c, r ++ rest, rfl, hblank c hmem⟩
  · exact .inl (if_neg hstart)

theorem matchBlanks_cons {c : Char} (h : isBlank c = false) (s : Text) :
    matchBlanks (c :: s) = none := by
  rw [matchBlanks]
  simp [h]

/-- White space before a text that does not start with any. -/
theorem matchBlanks_append {g s : Text} (hne : g ≠ []) (hg : ∀ c ∈ g, isBlank c = true)
    (hs : ∀ c ∈ s.head?, isBlank c = false) : matchBlanks (g ++ s) = some s := by
  obtain ⟨c, g, rfl⟩ := List.exists_cons_of_ne_nil hne
  rw [matchBlanks, List.cons_append, List.head?_cons, Option.map_some, Option.getD_some,
    if_pos (hg c List.mem_cons_self), ← List.cons_append, List.dropWhile_append_of_pos hg,
    dropWhile_of_head hs]

/-- An alias with nothing after it. -/
theorem isSyno_name {name : Text} (hn : IsName name) :
    isSyno name = regular isSynoChar name := by
  cases h : regular isSynoChar name with
  | true =>
    have hm := @matchName_of_regular isSynoChar name [] h (by simp)
    rw [List.append_nil] at hm
    rw [isSyno, hm]
    rfl
  | false =>
    have hm := matchName_of_not_regular hn h []
    rw [List.append_nil] at hm
    rcases hm with hm | ⟨n, c, r, hm, hc⟩
    · rw [isSyno, hm]
    · rw [isSyno, hm]
      simp [hc]

theorem parseAppend_eq (value : Text) :
    parseAppend value = ((tableAsSyno value).or (tableSyno value)).or (tableOnly value) := by
  rw [parseAppend, regexTabNam, List.findSome?_cons, List.findSome?_cons, List.findSome?_cons]
  cases tableAsSyno value <;> cases tableSyno value <;> cases tableOnly value <;> rfl

/-- The table is not accepted. -/
theorem parseAppend_of_not_regular {name : Text} (hn : IsName name)
    (h : regular isTableChar name = false) (rest : Text) : parseAppend (name ++ rest) = none := by
  rw [parseAppend_eq, tableAsSyno, tableSyno, tableOnly]
  rcases matchName_of_not_regular hn h rest with hm | ⟨n, c, r, hm, hc⟩
  · rw [hm]
    rfl
  · rw [hm]
    simp [matchBlanks_cons hc, hc]

/-- The word `AS` of an alias. -/
theorem matchAs_asWord {w : Text}
    (h : w ∈ ["AS".toList, "As".toList, "aS".toList, "as".toList]) (rest : Text) :
    matchAs (w ++ rest) = some rest := by
  simp only [List.mem_cons, List.not_mem_nil, or_false] at h
  rcases h with rfl | rfl | rfl | rfl <;> rfl

/-- A name is not the word `AS` and white space. -/
theorem matchAs_name {name : Text} (hn : IsName name) :
    (matchAs name).bind matchBlanks = none := by
  match name, hn with
  | [], _ => rfl
  | [_], _ => rfl
  | a :: s :: rest, hn =>
    rw [matchAs]
    split
    · rename_i has
      rw [Option.bind_some]
      have hstart : isNameStart a = true := by
        rcases has.1 with rfl | rfl <;> decide
      rcases hn.blank with hb | hb
      · cases rest with
        | nil => rfl
        | cons c rest => exact matchBlanks_cons (hb c (by simp)) rest
      · rw [hb a rfl] at hstart
        cases hstart
    · rfl

theorem Name.isName_text (n : Name) : IsName n.text := n.isName

theorem Name.head_text (n : Name) : ∀ c ∈ n.text.head?, isBlank c = false := by
  obtain ⟨c, hc, hb⟩ := n.isName.head
  intro d hd
  exact Option.some.inj (hc.symm.trans hd) ▸ hb

theorem Gap.isBlank_text (g : Gap) : ∀ c ∈ g.text, isBlank c = true := by
  intro c hc
  obtain ⟨b, -, hcb⟩ := List.mem_flatMap.1 hc
  exact b.isBlank c hcb

/-- A text that starts with no white space is not all white space. -/
theorem all_isBlank_of_head {s : Text} (hne : s ≠ []) (h : ∀ c ∈ s.head?, isBlank c = false) :
    s.all isBlank = false := by
  obtain ⟨c, s, rfl⟩ := List.exists_cons_of_ne_nil hne
  simp [h c rfl]

/-- A table without alias. -/
theorem parseAppend_name {name : Text} (h : regular isTableChar name = true) :
    parseAppend name = some name := by
  have hm := @matchName_of_regular isTableChar name [] h (by simp)
  rw [List.append_nil] at hm
  rw [parseAppend_eq, tableAsSyno, tableSyno, tableOnly, hm]
  rfl

/-- What follows the name of a table, after white space. -/
theorem parseAppend_blank {name g s : Text} (h : regular isTableChar name = true) (hne : g ≠ [])
    (hg : ∀ c ∈ g, isBlank c = true) (hs : ∀ c ∈ s.head?, isBlank c = false) (hs' : s ≠ []) :
    parseAppend (name ++ (g ++ s)) =
      if ((matchAs s).bind matchBlanks).any isSyno || isSyno s then some name else none := by
  have hrest : ∀ c ∈ (g ++ s).head?, isTableChar c = false := by
    obtain ⟨d, g, rfl⟩ := List.exists_cons_of_ne_nil hne
    intro c hc
    cases hc
    exact isTableChar_of_isBlank (hg d List.mem_cons_self)
  have hall : (g ++ s).all isBlank = false := by
    rw [List.all_append, all_isBlank_of_head hs' hs, Bool.and_false]
  have hm := matchName_of_regular h hrest
  have hb := matchBlanks_append hne hg hs
  rw [parseAppend_eq, tableAsSyno, tableSyno, tableOnly, hm]
  simp only [Option.bind_eq_bind, Option.bind_some, hb, hall]
  rw [← Option.bind_assoc]
  cases (matchAs s).bind matchBlanks with
  | none => cases isSyno s <;> rfl
  | some r =>
    cases hr : isSyno r <;> cases isSyno s <;> simp [hr]

/-- The word `AS` with an alias is no alias. -/
theorem isSyno_asWord {w g s : Text}
    (h : w ∈ ["AS".toList, "As".toList, "aS".toList, "as".toList]) (hne : g ≠ [])
    (hg : ∀ c ∈ g, isBlank c = true) (hs : ∀ c ∈ s.head?, isBlank c = false) (hs' : s ≠ []) :
    isSyno (w ++ (g ++ s)) = false := by
  have hw : regular isSynoChar w = true := by
    simp only [List.mem_cons, List.not_mem_nil, or_false] at h
    rcases h with rfl | rfl | rfl | rfl <;> decide
  have hrest : ∀ c ∈ (g ++ s).head?, isSynoChar c = false := by
    obtain ⟨d, g, rfl⟩ := List.exists_cons_of_ne_nil hne
    intro c hc
    cases hc
    exact isSynoChar_of_isBlank (hg d List.mem_cons_self)
  rw [isSyno, matchName_of_regular hw hrest]
  simp only
  rw [List.all_append, all_isBlank_of_head hs' hs, Bool.and_false]

/-- The regular expressions give the name of the table, when they accept it and its alias. -/
theorem parseAppend_text (t : TableRef) :
    parseAppend t.text = if t.plain then some t.name.text else none := by
  rw [TableRef.text, TableRef.plain]
  cases h : regular isTableChar t.name.text with
  | false => exact parseAppend_of_not_regular t.name.isName h _
  | true =>
    rw [Bool.true_and]
    cases ha : t.alias? with
    | none =>
      rw [Option.map_none, Option.getD_none, List.append_nil]
      exact parseAppend_name h
    | some a =>
      have hgap := t.gap_ne a ha
      have hname := a.name.isName_text.ne_nil
      rw [Option.map_some, Option.getD_some, Option.all_some, Alias.text]
      cases hw : a.asWord with
      | none =>
        simp only
        rw [List.append_nil,
          parseAppend_blank h hgap a.gap.isBlank_text a.name.head_text hname,
          matchAs_name a.name.isName_text, isSyno_name a.name.isName_text]
        rfl
      | some p =>
        obtain ⟨w, g⟩ := p
        obtain ⟨has, hg⟩ := a.isAs (w, g) hw
        have hhead : ∀ c ∈ (w ++ (g.text ++ a.name.text)).head?, isBlank c = false := by
          simp only [List.mem_cons, List.not_mem_nil, or_false] at has
          intro c hc
          rcases has with rfl | rfl | rfl | rfl <;> cases hc <;> decide
        have hne : w ++ (g.text ++ a.name.text) ≠ [] := by
          intro hnil
          exact hname (List.append_eq_nil_iff.1 (List.append_eq_nil_iff.1 hnil).2).2
        simp only
        rw [List.append_assoc, List.append_assoc,
          parseAppend_blank h hgap a.gap.isBlank_text hhead hne, matchAs_asWord has,
          Option.bind_some, matchBlanks_append hg g.isBlank_text a.name.head_text, Option.any_some,
          isSyno_asWord has hg g.isBlank_text a.name.head_text hname, Bool.or_false,
          isSyno_name a.name.isName_text]

/-! ## The text of the tokens -/

theorem valueOf_append (xs ys : List Tok) : valueOf (xs ++ ys) = valueOf xs ++ valueOf ys := by
  induction xs with
  | nil => rfl
  | cons tok xs ih => rw [List.cons_append, valueOf, valueOf, ih, List.append_assoc]

theorem Gap.valueOf_tokens (g : Gap) : valueOf g.tokens = g.text := by
  induction g with
  | nil => rfl
  | cons b g ih =>
    rw [Gap.tokens, List.map_cons, valueOf, ← Gap.tokens, ih]
    rfl

theorem Name.valueOf_tokens (n : Name) : valueOf n.tokens = n.text := by
  rw [Name.tokens, Name.text]
  induction n.parts with
  | nil => rfl
  | cons p parts ih =>
    rw [List.map_cons, valueOf, ih]
    rfl

theorem Alias.valueOf_tokens (a : Alias) : valueOf a.tokens = a.text := by
  rw [Alias.tokens, Alias.text, valueOf_append, valueOf_append, Gap.valueOf_tokens, valueOf,
    Tok.value, Name.valueOf_tokens, valueOf, List.append_nil]
  congr 2
  cases a.asWord with
  | none => rfl
  | some p => exact congrArg (p.1 ++ ·) p.2.valueOf_tokens

theorem TableRef.valueOf_tokens (t : TableRef) : valueOf t.tokens = t.text := by
  rw [TableRef.tokens, TableRef.text, valueOf_append, Name.valueOf_tokens]
  cases t.alias? with
  | none => rfl
  | some a => exact congrArg _ a.valueOf_tokens

end Survol.Sql
