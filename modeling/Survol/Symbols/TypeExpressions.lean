import Survol.Lib.Positions
import Survol.Symbols.ExtractClasses

/-!
# Type expressions

A type is a scalar type, a class, or a template with types as its arguments, each with suffixes. It
is printed in one way: the arguments are separated by a comma and a blank, and a blank stands
between two closing brackets.

## Main definitions

* `CType` — the type expressions, with their text and their classes.
* `CType.Plain` — the type expressions that are read correctly.
* `IsClean` — a class as it has to be reported.

## Main results

* `withoutSuffixes` — the suffixes that are removed from a type.
* `CType.isPart` — the brackets of a type match, and its commas are between brackets.
-/

open PyText Brackets

namespace Survol.Symbols

/-! ## Type expressions -/

/-- A suffix of a type. -/
inductive Suffix
  | const
  | pointer
  | reference
  deriving DecidableEq

/-- A suffix as it is printed. -/
def Suffix.text : Suffix → Text
  | const => " const".toList
  | pointer => ['*']
  | reference => ['&']

/-- Whether a suffix is one character. -/
def Suffix.isPointer (s : Suffix) : Bool := s ≠ .const

/-- The suffixes as they are printed. -/
def suffixText (suffixes : List Suffix) : Text := suffixes.flatMap Suffix.text

/-- The names of the arithmetic types. -/
def scalarNames : List Text :=
  scalarTypes ++
    ["char", "signed char", "unsigned char", "wchar_t", "long double"].map String.toList

/-- The name of a scalar type. -/
structure ScalarName where
  text : Text
  mem : text ∈ scalarNames

/-- A character of a qualified name. -/
def isNameChar (c : Char) : Bool := c.isAlphanum || c = '_' || c = ':'

/-- The name of a class or of a template. -/
structure ClassName where
  text : Text
  ne_nil : text ≠ []
  chars : ∀ c ∈ text, isNameChar c = true
  not_scalar : text ∉ scalarNames

/-- A type expression: a scalar type, a class or a template, with its suffixes. -/
inductive CType
  | scalar (name : ScalarName) (suffixes : List Suffix)
  | cls (name : ClassName) (suffixes : List Suffix)
  | template (name : ClassName) (args : List CType) (suffixes : List Suffix)

/-- Template arguments are separated by a comma and a blank, and a blank stands between two closing
brackets. -/
def templateText (name : Text) (args : List Text) : Text :=
  let inner := [',', ' '].intercalate args
  name ++ '<' :: (inner ++ (if inner.getLast? = some '>' then [' ', '>'] else ['>']))

mutual
/-- A type as it is printed. -/
def CType.text : CType → Text
  | .scalar name suffixes => name.text ++ suffixText suffixes
  | .cls name suffixes => name.text ++ suffixText suffixes
  | .template name args suffixes =>
    templateText name.text (CType.texts args) ++ suffixText suffixes
/-- The texts of a list of types. -/
def CType.texts : List CType → List Text
  | [] => []
  | t :: ts => t.text :: CType.texts ts
end

mutual
/-- The classes that occur in a type, each without its suffixes. -/
def CType.classes : CType → List Text
  | .scalar _ _ => []
  | .cls name _ => [name.text]
  | .template name args _ => templateText name.text (CType.texts args) :: CType.classesOf args
/-- The classes that occur in a list of types. -/
def CType.classesOf : List CType → List Text
  | [] => []
  | t :: ts => t.classes ++ CType.classesOf ts
end

/-- At most one `const`, before the pointers and the references. -/
def plainSuffixes : List Suffix → Bool
  | .const :: rest => rest.all Suffix.isPointer
  | rest => rest.all Suffix.isPointer

/-- Whether a type ends with a closing bracket. -/
def CType.endsInBracket : CType → Bool
  | .template _ _ [] => true
  | _ => false

/-- The types that are read correctly: the suffixes are plain at every level, the scalar types are
those the source knows, and a template has at most one argument, which does not end with a
closing bracket. -/
def CType.Plain : CType → Prop
  | .scalar name suffixes => name.text ∈ scalarTypes ∧ plainSuffixes suffixes
  | .cls _ suffixes => plainSuffixes suffixes
  | .template _ [] suffixes => plainSuffixes suffixes
  | .template _ [t] suffixes => plainSuffixes suffixes ∧ t.endsInBracket = false ∧ t.Plain
  | .template _ (_ :: _ :: _) _ => False

/-- Induction over a type and the arguments of its templates. -/
@[elab_as_elim, induction_eliminator]
theorem CType.induct {motive : CType → Prop}
    (scalar : ∀ name suffixes, motive (.scalar name suffixes))
    (cls : ∀ name suffixes, motive (.cls name suffixes))
    (template : ∀ name args suffixes, (∀ t ∈ args, motive t) →
      motive (.template name args suffixes))
    (t : CType) : motive t :=
  CType.rec (motive_1 := motive) (motive_2 := fun ts => ∀ t ∈ ts, motive t) scalar cls
    (fun name args suffixes ih => template name args suffixes ih) (fun _ ht => nomatch ht)
    (fun _ _ h hs t ht => (List.mem_cons.mp ht).elim (fun heq => heq ▸ h) (hs t)) t

/-! ## Suffixes -/

/-- A text that neither ends with a pointer sign nor with `const`. -/
structure IsToken (s : Text) : Prop where
  last : ∃ c ∈ s.getLast?, isPointerChar c = false
  const : ¬ " const".toList <:+ s

/-- A class as it has to be reported: a token without white space at its ends, and no scalar. -/
structure IsClean (s : Text) : Prop extends IsToken s where
  trimmed : Trimmed s
  not_scalar : s ∉ scalarNames

theorem withoutPointers_append {s ptrs : Text} (hs : ∃ c ∈ s.getLast?, isPointerChar c = false)
    (hp : ∀ c ∈ ptrs, isPointerChar c = true) : withoutPointers (s ++ ptrs) = some s := by
  obtain ⟨c, hc, hlast⟩ := hs
  obtain ⟨hne, rfl⟩ := List.mem_getLast?_eq_getLast hc
  have hdrop : (s ++ ptrs).rdropWhile isPointerChar = s := by
    induction ptrs using List.reverseRecOn with
    | nil =>
      rw [List.append_nil, List.rdropWhile_eq_self_iff]
      intro _
      rw [hlast]
      exact Bool.false_ne_true
    | append_singleton ptrs d ih =>
      rw [← List.append_assoc, List.rdropWhile_concat_pos _ _ _ (hp d (by simp)),
        ih fun c hc => hp c (List.mem_append_left [d] hc)]
  rw [withoutPointers, hdrop, if_neg hne]

theorem withoutConst_of_not_suffix {s : Text} (h : ¬ " const".toList <:+ s) :
    withoutConst s = s := by
  rw [withoutConst, if_neg (by rwa [List.isSuffixOf_iff_suffix])]

theorem withoutConst_append (s : Text) : withoutConst (s ++ " const".toList) = s := by
  have hsuffix : " const".toList.isSuffixOf (s ++ " const".toList) = true :=
    List.isSuffixOf_iff_suffix.mpr (List.suffix_append s _)
  have hb : pyBound (s ++ " const".toList) (-6) = s.length := by
    have hlen : " const".toList.length = 6 := rfl
    rw [pyBound, if_pos (by decide), List.length_append, hlen]
    omega
  rw [withoutConst, if_pos hsuffix, pySlice, hb, slice, List.take_left]
  rfl

theorem suffixText_append (a b : List Suffix) :
    suffixText (a ++ b) = suffixText a ++ suffixText b :=
  List.flatMap_append

theorem isPointerChar_suffixText {ptrs : List Suffix} (h : ∀ s ∈ ptrs, s.isPointer = true) :
    ∀ c ∈ suffixText ptrs, isPointerChar c = true := by
  intro c hc
  obtain ⟨s, hs, hc⟩ := List.mem_flatMap.mp hc
  have hp := h s hs
  cases s with
  | const => cases hp
  | pointer => rw [List.mem_singleton.mp hc]; rfl
  | reference => rw [List.mem_singleton.mp hc]; rfl

/-- The suffixes are those up to the last `const`, and the pointers and references after it. -/
theorem exists_core (suffixes : List Suffix) : ∃ core ptrs, suffixes = core ++ ptrs ∧
    (∀ s ∈ ptrs, s.isPointer = true) ∧ (core = [] ∨ ∃ before, core = before ++ [.const]) := by
  induction suffixes with
  | nil => exact ⟨[], [], rfl, by simp, .inl rfl⟩
  | cons s suffixes ih =>
    obtain ⟨core, ptrs, rfl, hp, rfl | ⟨before, rfl⟩⟩ := ih
    · cases hs : s.isPointer with
      | true => exact ⟨[], s :: ptrs, rfl, List.forall_mem_cons.mpr ⟨hs, hp⟩, .inl rfl⟩
      | false =>
        cases s with
        | const => exact ⟨[.const], ptrs, rfl, hp, .inr ⟨[], rfl⟩⟩
        | pointer => cases hs
        | reference => cases hs
    · exact ⟨s :: (before ++ [.const]), ptrs, rfl, hp, .inr ⟨s :: before, rfl⟩⟩

theorem plainSuffixes_of_pointers {ptrs : List Suffix} (h : ∀ s ∈ ptrs, s.isPointer = true) :
    plainSuffixes ptrs = true := by
  cases ptrs with
  | nil => rfl
  | cons s ptrs =>
    cases s with
    | const => cases h _ List.mem_cons_self
    | pointer => exact List.all_eq_true.mpr h
    | reference => exact List.all_eq_true.mpr h

/-- After the first suffix, plain suffixes have no `const`. -/
theorem not_mem_of_plainSuffixes {s : Suffix} {suffixes : List Suffix}
    (h : plainSuffixes (s :: suffixes) = true) : .const ∉ suffixes := by
  intro hmem
  have hall : suffixes.all Suffix.isPointer = true := by
    cases s with
    | const => exact h
    | pointer => exact h
    | reference => exact h
  cases List.all_eq_true.mp hall _ hmem

/-- A text that has something after it is not a token. -/
theorem not_isToken_append (h : Text) {s : Suffix} : ¬ IsToken (h ++ s.text) := by
  rintro ⟨⟨c, hc, hlast⟩, hconst⟩
  cases s with
  | const => exact hconst (List.suffix_append h _)
  | pointer =>
    rw [Suffix.text, List.getLast?_append_of_ne_nil _ (List.cons_ne_nil _ _)] at hc
    obtain rfl : '*' = c := by simpa using hc
    cases hlast
  | reference =>
    rw [Suffix.text, List.getLast?_append_of_ne_nil _ (List.cons_ne_nil _ _)] at hc
    obtain rfl : '&' = c := by simpa using hc
    cases hlast

/-- Plain suffixes are removed; of others, some remain. -/
theorem withoutSuffixes {h : Text} (hh : IsToken h) (suffixes : List Suffix) :
    ∃ c, withoutPointers (h ++ suffixText suffixes) = some c ∧
      (plainSuffixes suffixes = true ∧ withoutConst c = h ∨
        plainSuffixes suffixes = false ∧ ∃ before s, withoutConst c = before ++ Suffix.text s) := by
  obtain ⟨core, ptrs, rfl, hp, rfl | ⟨before, rfl⟩⟩ := exists_core suffixes
  · refine ⟨h, withoutPointers_append hh.last (isPointerChar_suffixText hp), .inl ⟨?_, ?_⟩⟩
    · exact plainSuffixes_of_pointers hp
    · exact withoutConst_of_not_suffix hh.const
  · have hlast : ∃ c ∈ (h ++ suffixText before ++ " const".toList).getLast?,
        isPointerChar c = false := by
      refine ⟨'t', ?_, rfl⟩
      rw [List.getLast?_append_of_ne_nil _ (by decide)]
      rfl
    have htext : h ++ suffixText (before ++ [.const] ++ ptrs) =
        (h ++ suffixText before ++ " const".toList) ++ suffixText ptrs := by
      simp only [suffixText_append, List.append_assoc]
      rfl
    refine ⟨h ++ suffixText before ++ " const".toList, ?_, ?_⟩
    · rw [htext]
      exact withoutPointers_append hlast (isPointerChar_suffixText hp)
    · rw [withoutConst_append]
      obtain rfl | ⟨before, s, rfl⟩ := List.eq_nil_or_concat before
      · left
        exact ⟨List.all_eq_true.mpr hp, List.append_nil h⟩
      · right
        refine ⟨?_, h ++ suffixText before, s, ?_⟩
        · rw [Bool.eq_false_iff]
          intro hplain
          rw [List.concat_eq_append] at hplain
          cases before with
          | nil => exact not_mem_of_plainSuffixes hplain (by simp)
          | cons x before => exact not_mem_of_plainSuffixes hplain (by simp)
        · rw [List.concat_eq_append, suffixText_append, List.append_assoc]
          simp [suffixText]

/-! ## The texts of types -/

theorem ClassName.not_mem {c : Char} (n : ClassName) (hc : isNameChar c = false) : c ∉ n.text := by
  intro h
  rw [n.chars c h] at hc
  cases hc

theorem CType.texts_eq (ts : List CType) : CType.texts ts = ts.map CType.text := by
  induction ts with
  | nil => rfl
  | cons t ts ih => rw [CType.texts, ih, List.map_cons]

/-- What the names of the scalar types have in common. -/
theorem scalarName_shape : ∀ s ∈ scalarNames,
    s.getLast?.all (fun c => !isPointerChar c) ∧ s ≠ [] ∧ ¬ " const".toList <:+ s ∧
      s.getLast? ≠ some '>' ∧ ∀ c ∈ s, c ∉ ['<'] ∧ c ∉ ['>'] ∧ c ≠ ',' := by decide

theorem ScalarName.ne_nil (n : ScalarName) : n.text ≠ [] := (scalarName_shape n.text n.mem).2.1

theorem ScalarName.isToken (n : ScalarName) : IsToken n.text := by
  obtain ⟨hlast, hne, hconst, -⟩ := scalarName_shape n.text n.mem
  rw [List.getLast?_eq_some_getLast hne] at hlast
  exact ⟨⟨_, List.getLast?_eq_some_getLast hne, by simpa using hlast⟩, hconst⟩

theorem ClassName.isClean (n : ClassName) : IsClean n.text := by
  have hpointer : ∀ c ∈ n.text, isPointerChar c = false := by
    intro c hc
    rw [Bool.eq_false_iff]
    intro hp
    obtain rfl | rfl : c = '*' ∨ c = '&' := by simpa [isPointerChar] using hp
    · exact n.not_mem rfl hc
    · exact n.not_mem rfl hc
  have hblank : ∀ c ∈ n.text, isBlank c = false := by
    intro c hc
    rw [Bool.eq_false_iff]
    intro hb
    exact n.not_mem (@forall_isBlank (isNameChar · = false) (by decide) c hb) hc
  refine ⟨⟨?_, ?_⟩, ⟨?_, ?_⟩, n.not_scalar⟩
  · exact ⟨_, List.getLast?_eq_some_getLast n.ne_nil, hpointer _ (List.getLast_mem n.ne_nil)⟩
  · intro hsuffix
    exact n.not_mem (c := ' ') rfl (hsuffix.subset (by decide))
  · exact fun c hc => hblank c (List.mem_of_mem_head? hc)
  · exact fun c hc => hblank c (List.mem_of_getLast? hc)

/-- The text between the brackets of a template. -/
theorem templateText_eq (name : Text) (args : List Text) : ∃ blank,
    templateText name args = name ++ '<' :: (([',', ' '].intercalate args ++ blank) ++ ['>']) ∧
      blank = if ([',', ' '].intercalate args).getLast? = some '>' then [' '] else [] := by
  rw [templateText]
  split
  · exact ⟨[' '], by simp, rfl⟩
  · exact ⟨[], by simp, rfl⟩

theorem isClean_templateText (n : ClassName) (args : List Text) :
    IsClean (templateText n.text args) := by
  obtain ⟨blank, heq, -⟩ := templateText_eq n.text args
  obtain ⟨c, t, hn⟩ := List.exists_cons_of_ne_nil n.ne_nil
  have hlast : (templateText n.text args).getLast? = some '>' := by
    rw [heq, List.getLast?_append_of_ne_nil _ (List.cons_ne_nil _ _), ← List.cons_append,
      List.getLast?_append_of_ne_nil _ (List.cons_ne_nil _ _)]
    rfl
  refine ⟨⟨⟨'>', hlast, rfl⟩, ?_⟩, ⟨?_, ?_⟩, ?_⟩
  · rintro ⟨u, hu⟩
    rw [← hu, List.getLast?_append_of_ne_nil _ (by decide)] at hlast
    exact absurd hlast (by decide)
  · intro d hd
    rw [heq, hn] at hd
    exact n.isClean.trimmed.head d (by rw [hn]; exact hd)
  · intro d hd
    obtain rfl : '>' = d := Option.some.inj (hlast.symm.trans hd)
    rfl
  · intro hmem
    have h := (scalarName_shape _ hmem).2.2.2.2 '<' (by rw [heq]; simp)
    exact h.1 List.mem_cons_self

/-- The brackets of a type match, and its commas are between brackets. -/
structure IsPart (s : Text) : Prop where
  balanced : Balanced ['<'] ['>'] s
  no_comma : ¬ OccursAtZero ['<'] ['>'] [','] s

theorem IsPart.of_chars {s : Text} (h : ∀ c ∈ s, c ∉ ['<'] ∧ c ∉ ['>'] ∧ c ≠ ',') : IsPart s where
  balanced := .of_no_brackets fun c hc => ⟨(h c hc).1, (h c hc).2.1⟩
  no_comma := not_occursAtZero_of_not_mem fun hmem => (h ',' hmem).2.2 rfl

theorem IsPart.append {s t : Text} (hs : IsPart s) (ht : IsPart t) : IsPart (s ++ t) where
  balanced := hs.balanced.append ht.balanced
  no_comma := not_occursAtZero_append hs.balanced.level_eq hs.no_comma ht.no_comma

theorem isPart_suffixText (suffixes : List Suffix) : IsPart (suffixText suffixes) := by
  have hchars : ∀ s : Suffix, ∀ c ∈ s.text, c ∉ ['<'] ∧ c ∉ ['>'] ∧ c ≠ ',' := by
    intro s
    cases s <;> decide
  refine .of_chars fun c hc => ?_
  obtain ⟨s, -, hc⟩ := List.mem_flatMap.mp hc
  exact hchars s c hc

theorem ClassName.isPart (n : ClassName) : IsPart n.text := by
  refine .of_chars fun c hc => ⟨?_, ?_, ?_⟩
  · intro h
    exact n.not_mem rfl (List.mem_singleton.mp h ▸ hc)
  · intro h
    exact n.not_mem rfl (List.mem_singleton.mp h ▸ hc)
  · rintro rfl
    exact n.not_mem rfl hc

theorem CType.isPart (t : CType) : IsPart t.text := by
  induction t with
  | scalar name suffixes =>
    exact (IsPart.of_chars (scalarName_shape name.text name.mem).2.2.2.2).append
      (isPart_suffixText suffixes)
  | cls name suffixes => exact name.isPart.append (isPart_suffixText suffixes)
  | template name args suffixes ih =>
    obtain ⟨blank, heq, hblank⟩ := templateText_eq name.text (CType.texts args)
    have hinner : Balanced ['<'] ['>'] ([',', ' '].intercalate (CType.texts args) ++ blank) := by
      refine (Balanced.intercalate (.of_no_brackets (by decide)) fun p hp => ?_).append ?_
      · rw [CType.texts_eq] at hp
        obtain ⟨t, ht, rfl⟩ := List.mem_map.mp hp
        exact (ih t ht).balanced
      · rw [hblank]
        split <;> exact .of_no_brackets (by decide)
    have henclosed :
        IsPart ('<' :: (([',', ' '].intercalate (CType.texts args) ++ blank) ++ ['>'])) :=
      ⟨hinner.enclosed rfl rfl, not_occursAtZero_enclosed rfl (by decide) (by decide) hinner⟩
    rw [CType.text, heq]
    exact (name.isPart.append henclosed).append (isPart_suffixText suffixes)

/-! ## The last character of a type -/

theorem suffixText_getLast? {suffixes : List Suffix} (h : suffixes ≠ []) (s : Text) :
    (s ++ suffixText suffixes).getLast? ≠ some '>' := by
  obtain rfl | ⟨before, x, rfl⟩ := List.eq_nil_or_concat suffixes
  · exact absurd rfl h
  · have hx : x.text ≠ [] ∧ x.text.getLast? ≠ some '>' := by cases x <;> decide
    have htext : s ++ suffixText (before.concat x) = (s ++ suffixText before) ++ x.text := by
      rw [List.concat_eq_append, suffixText_append, List.append_assoc]
      simp [suffixText]
    rw [htext, List.getLast?_append_of_ne_nil _ hx.1]
    exact hx.2

/-- A type ends with a closing bracket when it is a template without suffixes. -/
theorem CType.getLast?_text (t : CType) : t.text.getLast? = some '>' ↔ t.endsInBracket = true := by
  have hnil (s : Text) : s ++ suffixText [] = s := List.append_nil s
  cases t with
  | scalar name suffixes =>
    refine ⟨fun h => ?_, fun h => nomatch h⟩
    cases suffixes with
    | nil =>
      rw [CType.text, hnil] at h
      exact absurd h (scalarName_shape name.text name.mem).2.2.2.1
    | cons s suffixes => exact absurd h (suffixText_getLast? (List.cons_ne_nil _ _) _)
  | cls name suffixes =>
    refine ⟨fun h => ?_, fun h => nomatch h⟩
    cases suffixes with
    | nil =>
      rw [CType.text, hnil] at h
      exact absurd (List.mem_of_getLast? h) (name.not_mem rfl)
    | cons s suffixes => exact absurd h (suffixText_getLast? (List.cons_ne_nil _ _) _)
  | template name args suffixes =>
    cases suffixes with
    | nil =>
      obtain ⟨blank, heq, -⟩ := templateText_eq name.text (CType.texts args)
      have hlast : (CType.template name args []).text.getLast? = some '>' := by
        rw [CType.text, hnil, heq, List.getLast?_append_of_ne_nil _ (List.cons_ne_nil _ _),
          ← List.cons_append, List.getLast?_append_of_ne_nil _ (List.cons_ne_nil _ _)]
        rfl
      exact ⟨fun _ => rfl, fun _ => hlast⟩
    | cons s suffixes =>
      refine ⟨fun h => ?_, fun h => nomatch h⟩
      exact absurd h (suffixText_getLast? (List.cons_ne_nil _ _) _)

end Survol.Symbols
