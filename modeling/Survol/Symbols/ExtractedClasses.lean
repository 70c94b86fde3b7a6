import Survol.Symbols.TypeExpressions

/-!
# The classes that are extracted

The classes of a type expression are found if and only if the suffixes are plain at every level,
the scalar types are known ones, and every template has at most one argument.

## Main results

* `extractClassesFromType_iff` — the classes are found exactly for those type expressions.
-/

open PyText Brackets

namespace Survol.Symbols

/-! ## Template arguments -/

/-- The arguments stand between the first and the last bracket. -/
theorem templateArgs_eq (n : ClassName) (inner : Text) :
    templateArgs (n.text ++ '<' :: (inner ++ ['>'])) = topLevelSplit inner [','] ['<'] ['>'] := by
  have hfirst : find? (n.text ++ '<' :: (inner ++ ['>'])) ['<'] 0 = some n.text.length := by
    rw [find?, List.drop_zero, findIdx_char (n.not_mem rfl)]
    simp
  have hneg : ¬ (n.text.length : ℤ) ≤ 0 := by
    have := List.length_pos_iff.mpr n.ne_nil
    omega
  rw [templateArgs, hfirst, rfindChar_enclosed List.not_mem_nil]
  simp only [posOrMinusOne, if_neg hneg, pySlice_enclosed]

theorem templateArgs_of_not_mem {c : Text} (h : '<' ∉ c) : templateArgs c = [] := by
  have hnone : find? c ['<'] 0 = none := by
    rw [find?, List.drop_zero, Option.map_eq_none_iff, findIdx_eq_none_iff (List.cons_ne_nil _ _)]
    exact fun hi => h (hi.subset List.mem_cons_self)
  rw [templateArgs, hnone]
  rfl

/-- A part that starts with a blank. -/
theorem exists_blank_part (x : Text) : ∃ y ps,
    topLevelScan [','] ['<'] ['>'] (' ' :: x) 0 0 [] = (' ' :: y) :: ps := by
  obtain ⟨seg, segs, -, hscan⟩ := @topLevelScan_segments [','] ['<'] ['>']
    (List.cons_ne_nil _ _) rfl x 0
  have hkeep : ¬ ([','] <+: ' ' :: x ∧ (0 : ℤ) = 0) := by
    rintro ⟨hp, -⟩
    exact absurd (List.cons_prefix_cons.mp hp).1 (by decide)
  have hlevel : (0 : ℤ) + charLevel ['<'] ['>'] ' ' = 0 := rfl
  refine ⟨seg, nonEmpty segs, ?_⟩
  rw [topLevelScan_keep hkeep, hlevel, hscan]
  rfl

/-! ## The text of one template argument -/

theorem topLevelSplit_of_isPart {s : Text} (hne : s ≠ []) (h : IsPart s) :
    topLevelSplit s [','] ['<'] ['>'] = [s] := by
  have hscan := topLevelScan_part h.balanced.level_eq h.no_comma [] []
  rw [List.append_nil, List.nil_append] at hscan
  rw [topLevelSplit, hscan, topLevelScan, emit, if_neg hne]
  rfl

theorem templateArgs_nil (n : ClassName) : templateArgs (templateText n.text []) = [[]] := by
  have h := templateArgs_eq n []
  exact h

/-- One argument, with a blank after it when it ends with a bracket. -/
theorem templateArgs_singleton (n : ClassName) (t : CType) (hne : t.text ≠ []) :
    templateArgs (templateText n.text [t.text]) =
      [t.text ++ if t.endsInBracket then [' '] else []] := by
  obtain ⟨blank, heq, hblank⟩ := templateText_eq n.text [t.text]
  rw [List.intercalate_singleton] at heq hblank
  have hb : blank = if t.endsInBracket then [' '] else [] := by
    rw [hblank]
    by_cases h : t.endsInBracket = true
    · rw [if_pos (t.getLast?_text.mpr h), if_pos h]
    · rw [if_neg fun hl => h (t.getLast?_text.mp hl), if_neg h]
  have hpart : IsPart (t.text ++ blank) := by
    refine t.isPart.append (.of_chars ?_)
    rw [hblank]
    split <;> decide
  rw [heq, templateArgs_eq, topLevelSplit_of_isPart (by simp [hne]) hpart, hb]

/-- With several arguments, one part starts with a blank. -/
theorem exists_mem_templateArgs (n : ClassName) (t u : CType) (ts : List CType) :
    ∃ x, ' ' :: x ∈ templateArgs (templateText n.text (CType.texts (t :: u :: ts))) := by
  obtain ⟨blank, heq, -⟩ := templateText_eq n.text (CType.texts (t :: u :: ts))
  obtain ⟨x, hx⟩ : ∃ x, [',', ' '].intercalate (CType.texts (t :: u :: ts)) ++ blank =
      t.text ++ ([','] ++ ' ' :: x) := by
    rw [CType.texts, CType.texts, List.intercalate_cons_cons]
    exact ⟨_, by simp only [List.append_assoc, List.cons_append, List.nil_append]; rfl⟩
  obtain ⟨y, ps, hy⟩ := exists_blank_part x
  have hscan : topLevelScan [','] ['<'] ['>'] (t.text ++ ([','] ++ ' ' :: x)) 0 0 [] =
      emit t.text ((' ' :: y) :: ps) := by
    rw [topLevelScan_part t.isPart.balanced.level_eq t.isPart.no_comma,
      topLevelScan_cut (List.cons_ne_nil _ _), hy, List.nil_append]
  refine ⟨y, ?_⟩
  rw [heq, templateArgs_eq, hx, topLevelSplit, hscan, emit, orBlank]
  split <;> simp

/-! ## One level of a type -/

theorem CType.text_ne_nil (t : CType) : t.text ≠ [] := by
  have happ {a b : Text} (h : a ≠ []) : a ++ b ≠ [] := fun hn => h (List.append_eq_nil_iff.mp hn).1
  cases t with
  | scalar name suffixes => exact happ name.ne_nil
  | cls name suffixes => exact happ name.ne_nil
  | template name args suffixes => exact happ (happ name.ne_nil)

/-- Plain suffixes do not matter. -/
theorem extract_plain {h : Text} {suffixes : List Suffix} (hne : h ≠ []) (hh : IsToken h)
    (hp : plainSuffixes suffixes = true) :
    extractClassesFromType (h ++ suffixText suffixes) = if h ∈ scalarTypes then some [] else
      (extractTemplatedClassesFromToken h).map (h :: ·) := by
  obtain ⟨c, hc, ⟨-, hconst⟩ | ⟨hbad, -⟩⟩ := withoutSuffixes hh suffixes
  · rw [extractClassesFromType_of_some (by simp [hne]) hc, hconst]
  · rw [hp] at hbad
    cases hbad

/-- Other suffixes remain on a type that is reported. -/
theorem extract_not_plain {h : Text} {suffixes : List Suffix} {l : List Text} (hne : h ≠ [])
    (hh : IsToken h) (hp : plainSuffixes suffixes ≠ true)
    (hl : extractClassesFromType (h ++ suffixText suffixes) = some l) : ∃ e ∈ l, ¬ IsClean e := by
  obtain ⟨c, hc, ⟨hgood, -⟩ | ⟨-, before, s, hs⟩⟩ := withoutSuffixes hh suffixes
  · exact absurd hgood hp
  · have htoken : ¬ IsToken (withoutConst c) := by
      rw [hs]
      exact not_isToken_append before
    have hscalar : withoutConst c ∉ scalarTypes := fun hmem =>
      htoken (ScalarName.mk _ (List.mem_append_left _ hmem)).isToken
    exact ⟨withoutConst c, mem_of_not_scalar (by simp [hne]) hc hscalar hl,
      fun hclean => htoken hclean.toIsToken⟩

theorem withoutConst_isPrefix (c : Text) : withoutConst c <+: c := by
  rw [withoutConst]
  split
  · rw [pySlice, slice]
    exact List.take_prefix _ c
  · exact List.prefix_refl c

/-- A type that starts with a blank is reported with it. -/
theorem extract_blank_cons {x : Text} {l : List Text}
    (hl : extractClassesFromType (' ' :: x) = some l) : ∃ e ∈ l, ¬ IsClean e := by
  have hne : (' ' :: x).rdropWhile isPointerChar ≠ [] := by
    rw [ne_eq, List.rdropWhile_eq_nil_iff]
    exact fun h => Bool.false_ne_true (h ' ' List.mem_cons_self)
  have hc : withoutPointers (' ' :: x) = some ((' ' :: x).rdropWhile isPointerChar) := if_neg hne
  have hprefix := (withoutConst_isPrefix ((' ' :: x).rdropWhile isPointerChar)).trans
    (List.rdropWhile_prefix isPointerChar (' ' :: x))
  have hscalars : ∀ s ∈ scalarTypes, s ≠ [] ∧ s.head? ≠ some ' ' := by decide
  generalize htoken : withoutConst ((' ' :: x).rdropWhile isPointerChar) = token at hprefix
  have hstart : token = [] ∨ token.head? = some ' ' := by
    cases token with
    | nil => exact .inl rfl
    | cons c token => exact .inr (congrArg some (List.cons_prefix_cons.mp hprefix).1)
  have hscalar : token ∉ scalarTypes := fun hmem =>
    hstart.elim (hscalars token hmem).1 (hscalars token hmem).2
  refine ⟨token, ?_, fun hclean => ?_⟩
  · rw [← htoken]
    exact mem_of_not_scalar (List.cons_ne_nil _ _) hc (htoken ▸ hscalar) hl
  · rcases hstart with rfl | hstart
    · obtain ⟨c, hc, -⟩ := hclean.last
      cases hc
    · exact absurd (hclean.trimmed.head ' ' hstart) (by decide)

/-- A type that ends with a blank is reported with it. -/
theorem extract_blank_concat {x : Text} {l : List Text}
    (hl : extractClassesFromType (x ++ [' ']) = some l) : ∃ e ∈ l, ¬ IsClean e := by
  have hlast : (x ++ [' ']).getLast? = some ' ' := List.getLast?_concat
  have hc : withoutPointers (x ++ [' ']) = some (x ++ [' ']) := by
    have h := @withoutPointers_append (x ++ [' ']) [] ⟨' ', hlast, rfl⟩ (by simp)
    rwa [List.append_nil] at h
  have hconst : withoutConst (x ++ [' ']) = x ++ [' '] := by
    refine withoutConst_of_not_suffix ?_
    rintro ⟨u, hu⟩
    rw [← hu, List.getLast?_append_of_ne_nil _ (by decide)] at hlast
    exact absurd hlast (by decide)
  have hscalars : ∀ s ∈ scalarTypes, s.getLast? ≠ some ' ' := by decide
  have hmem := mem_of_not_scalar (by simp) hc
    (by rw [hconst]; exact fun hmem => hscalars _ hmem hlast) hl
  rw [hconst] at hmem
  exact ⟨_, hmem, fun hclean => absurd (hclean.trimmed.last ' ' hlast) (by decide)⟩

/-! ## Main results -/

theorem CType.isClean_classes (t : CType) : ∀ e ∈ t.classes, IsClean e := by
  have hlist : ∀ ts : List CType, (∀ t ∈ ts, ∀ e ∈ t.classes, IsClean e) →
      ∀ e ∈ CType.classesOf ts, IsClean e := by
    intro ts hts
    induction ts with
    | nil => exact fun e he => nomatch he
    | cons t ts ih =>
      intro e he
      obtain he | he := List.mem_append.mp he
      · exact hts t List.mem_cons_self e he
      · exact ih (fun u hu => hts u (List.mem_cons_of_mem t hu)) e he
  induction t with
  | scalar name suffixes => exact fun e he => nomatch he
  | cls name suffixes =>
    intro e he
    rw [List.mem_singleton.mp he]
    exact name.isClean
  | template name args suffixes ih =>
    intro e he
    obtain rfl | he := List.mem_cons.mp he
    · exact isClean_templateText name _
    · exact hlist args ih e he

/-- A plain type is read correctly. -/
theorem CType.Plain.extract {t : CType} (h : t.Plain) :
    extractClassesFromType t.text = some t.classes := by
  induction t with
  | scalar name suffixes =>
    rw [CType.text, extract_plain name.ne_nil name.isToken h.2, if_pos h.1]
    rfl
  | cls name suffixes =>
    have hscalar : name.text ∉ scalarTypes := fun hm => name.not_scalar (List.mem_append_left _ hm)
    rw [CType.text, extract_plain name.ne_nil name.isClean.toIsToken h, if_neg hscalar,
      extractTemplatedClassesFromToken, templateArgs_of_not_mem (name.not_mem rfl)]
    rfl
  | template name args suffixes ih =>
    have hclean := isClean_templateText name (CType.texts args)
    have hne : templateText name.text (CType.texts args) ≠ [] := by
      obtain ⟨c, hc, -⟩ := hclean.last
      rintro hn
      rw [hn] at hc
      cases hc
    have hscalar : templateText name.text (CType.texts args) ∉ scalarTypes := fun hm =>
      hclean.not_scalar (List.mem_append_left _ hm)
    cases args with
    | nil =>
      rw [CType.text, extract_plain hne hclean.toIsToken h, if_neg hscalar,
        extractTemplatedClassesFromToken, CType.texts, templateArgs_nil]
      simp [extractClassesFromType_nil, CType.classes, CType.classesOf, CType.texts]
    | cons t rest =>
      cases rest with
      | nil =>
        obtain ⟨hp, hend, ht⟩ := h
        have hextract := ih t List.mem_cons_self ht
        rw [CType.text, extract_plain hne hclean.toIsToken hp, if_neg hscalar,
          extractTemplatedClassesFromToken, CType.texts, CType.texts,
          templateArgs_singleton name t t.text_ne_nil, hend, if_neg Bool.false_ne_true,
          List.append_nil]
        simp [hextract, CType.classes, CType.classesOf, CType.texts]
      | cons u ts => exact h.elim

/-- When only classes are reported, the type is plain. -/
theorem CType.plain_of_clean {t : CType} {l : List Text}
    (h : extractClassesFromType t.text = some l) (hclean : ∀ e ∈ l, IsClean e) : t.Plain := by
  have hno : ¬ ∃ e ∈ l, ¬ IsClean e := by
    rintro ⟨e, he, hbad⟩
    exact hbad (hclean e he)
  induction t generalizing l with
  | scalar name suffixes =>
    have hp : plainSuffixes suffixes = true := by
      by_contra hp
      exact hno (extract_not_plain name.ne_nil name.isToken hp h)
    refine ⟨?_, hp⟩
    by_contra hscalar
    rw [CType.text, extract_plain name.ne_nil name.isToken hp, if_neg hscalar,
      Option.map_eq_some_iff] at h
    obtain ⟨found, -, rfl⟩ := h
    exact (hclean name.text List.mem_cons_self).not_scalar name.mem
  | cls name suffixes =>
    by_contra hp
    exact hno (extract_not_plain name.ne_nil name.isClean.toIsToken hp h)
  | template name args suffixes ih =>
    have hhead := isClean_templateText name (CType.texts args)
    have hne : templateText name.text (CType.texts args) ≠ [] := by
      obtain ⟨c, hc, -⟩ := hhead.last
      rintro hn
      rw [hn] at hc
      cases hc
    have hp : plainSuffixes suffixes = true := by
      by_contra hp
      exact hno (extract_not_plain hne hhead.toIsToken hp h)
    have hpart : ∀ p ∈ templateArgs (templateText name.text (CType.texts args)),
        ∃ l', extractClassesFromType p = some l' ∧ ∀ e ∈ l', e ∈ l := by
      intro p hp'
      obtain ⟨c, hc, ⟨-, hconst⟩ | ⟨hbad, -⟩⟩ := withoutSuffixes hhead.toIsToken suffixes
      · rw [← hconst] at hp'
        refine exists_of_mem_templateArgs (by simp [hne]) hc ?_ h hp'
        rw [hconst]
        exact fun hm => hhead.not_scalar (List.mem_append_left _ hm)
      · rw [hp] at hbad
        cases hbad
    cases args with
    | nil => exact hp
    | cons t rest =>
      cases rest with
      | nil =>
        obtain ⟨l', hl', hsub⟩ := hpart _ (by
          rw [CType.texts, CType.texts, templateArgs_singleton name t t.text_ne_nil]
          exact List.mem_singleton_self _)
        have hend : t.endsInBracket = false := by
          rw [Bool.eq_false_iff]
          intro hend
          rw [hend, if_pos rfl] at hl'
          obtain ⟨e, he, hbad⟩ := extract_blank_concat hl'
          exact hbad (hclean e (hsub e he))
        rw [hend, if_neg Bool.false_ne_true, List.append_nil] at hl'
        refine ⟨hp, hend, ih t List.mem_cons_self hl' (fun e he => hclean e (hsub e he)) ?_⟩
        rintro ⟨e, he, hbad⟩
        exact hbad (hclean e (hsub e he))
      | cons u ts =>
        obtain ⟨x, hx⟩ := exists_mem_templateArgs name t u ts
        obtain ⟨l', hl', hsub⟩ := hpart _ hx
        obtain ⟨e, he, hbad⟩ := extract_blank_cons hl'
        exact hbad (hclean e (hsub e he))

/-- The classes of a type are found if and only if the type is plain, whether they have to be
found in their order or only as a set. -/
theorem extractClassesFromType_iff (t : CType) :
    (extractClassesFromType t.text = some t.classes ↔ t.Plain) ∧
      ((∃ l, extractClassesFromType t.text = some l ∧ ∀ e, e ∈ l ↔ e ∈ t.classes) ↔ t.Plain) := by
  have hset : (∃ l, extractClassesFromType t.text = some l ∧ ∀ e, e ∈ l ↔ e ∈ t.classes) →
      t.Plain := by
    rintro ⟨l, hl, hmem⟩
    exact CType.plain_of_clean hl fun e he => t.isClean_classes e ((hmem e).mp he)
  refine ⟨⟨fun h => hset ⟨_, h, fun e => Iff.rfl⟩, CType.Plain.extract⟩, hset, fun h => ?_⟩
  exact ⟨t.classes, h.extract, fun e => Iff.rfl⟩

/-- `Map<A, B>` -/
def mapType : CType :=
  let name (s : Text) (hne : s ≠ []) (hc : ∀ c ∈ s, isNameChar c = true) (hs : s ∉ scalarNames) :=
    ClassName.mk s hne hc hs
  .template (name "Map".toList (by decide) (by decide) (by decide))
    [.cls (name ['A'] (by decide) (by decide) (by decide)) [],
      .cls (name ['B'] (by decide) (by decide) (by decide)) []] []

/-- A name of one word is reported as it is. -/
theorem extract_word {cls : Text} (hne : cls ≠ []) (hc : withoutPointers cls = some cls)
    (hconst : withoutConst cls = cls) (hs : cls ∉ scalarTypes) (hargs : templateArgs cls = []) :
    extractClassesFromType cls = some [cls] := by
  rw [extractClassesFromType_of_some hne hc, hconst, if_neg hs, extractTemplatedClassesFromToken,
    hargs]
  rfl

/-- The second argument of a template is reported with the blank in front of it. -/
theorem extractClassesFromType_map :
    mapType.text = "Map<A, B>".toList ∧ mapType.classes = ["Map<A, B>".toList, ['A'], ['B']] ∧
      extractClassesFromType mapType.text = some ["Map<A, B>".toList, ['A'], [' ', 'B']] := by
  have hA : extractClassesFromType ['A'] = some [['A']] :=
    extract_word (by decide) (by decide) (by decide) (by decide) (by decide)
  have hB : extractClassesFromType [' ', 'B'] = some [[' ', 'B']] :=
    extract_word (by decide) (by decide) (by decide) (by decide) (by decide)
  have hargs : templateArgs "Map<A, B>".toList = [['A'], [' ', 'B']] := by decide
  refine ⟨by decide, by decide, ?_⟩
  have htext : mapType.text = "Map<A, B>".toList := by decide
  rw [htext, extractClassesFromType_of_some (c := "Map<A, B>".toList) (by decide) (by decide),
    if_neg (by decide)]
  have hconst : withoutConst "Map<A, B>".toList = "Map<A, B>".toList := by decide
  rw [hconst, extractTemplatedClassesFromToken, hargs, List.mapM_cons, List.mapM_cons, hA, hB]
  rfl

end Survol.Symbols
