import Survol.Lib.Positions
import Survol.Symbols.TopLevelSplit

/-!
# The arguments of a symbol

A demangled symbol is cut into the name of the function and the types of its arguments. The list of
the arguments starts at a parenthesis that is guessed from the left and ends at the last one; it
is split at the commas that are outside template brackets.

## Main definitions

* `findClosingDelimiter`, `findArgumentsStart`, `symToArgs` — the functions of the source.
* `IsType`, `IsComponent`, `Symbol` — the symbols that a demangler prints.

## Main results

* `symToArgs_iff` — which symbols are cut correctly.
-/

open PyText Brackets

namespace Survol.Symbols

/-! ## The functions -/

/-- The scan of `find_closing_delimiter`, from the position `idx` on. -/
def closingScan (charOpen charClose : Char) : Text → ℤ → ℕ → Option ℕ
  | [], _, _ => none
  | ch :: s, bracketLevel, idx =>
    let level := if ch = charOpen then bracketLevel + 1
      else if ch = charClose then bracketLevel - 1 else bracketLevel
    if level = 0 then some idx else closingScan charOpen charClose s level (idx + 1)

/-- The position where the brackets are closed. The position that is passed is not used. -/
def findClosingDelimiter (instr : Text) (_idx : ℤ) (charOpen charClose : Char) : Option ℕ :=
  closingScan charOpen charClose instr 0 0

/-- `s.find(needle, start)`, where `start` counts from the end when it is negative. -/
def findFrom (s needle : Text) (start : ℤ) : ℤ := posOrMinusOne (find? s needle (pyBound s start))

/-- Where the list of the arguments starts. -/
def findArgumentsStart (symDemang : Text) : ℤ :=
  let firstOpeningPar := findFrom symDemang ['('] 0
  let closingPar := posOrMinusOne (findClosingDelimiter symDemang firstOpeningPar '(' ')')
  let secondOpeningPar := findFrom symDemang ['('] closingPar
  if secondOpeningPar ≥ 0 then secondOpeningPar else firstOpeningPar

/-- The name and the arguments of a symbol, `none` for a symbol that is no function. -/
def symToArgs (symDemang : Text) : Text × Option (List Text) :=
  let firstPar := findArgumentsStart symDemang
  if firstPar < 0 then (symDemang, none) else
    let fulNam := pySlice symDemang 0 firstPar
    let endIdx := posOrMinusOne (rfindChar ')' symDemang)
    let argsNoParenth := pySlice symDemang (firstPar + 1) endIdx
    if argsNoParenth = [] then (fulNam, some [])
    else (fulNam, some ((topLevelSplit argsNoParenth [','] ['<'] ['>']).map strip))

/-! ## The symbols that are printed -/

/-- A character of a type that is neither a bracket nor a comma. -/
def isTypeChar (c : Char) : Bool := ' ' ≤ c && c ≤ '~' && c ∉ "()<>,".toList

/-- Arguments are separated by a comma and a blank. -/
def joinArgs (args : List Text) : Text := [',', ' '].intercalate args

/-- A type: words, template arguments, and parts in parentheses such as those of a pointer to a
function, nested at will. -/
inductive IsType : Text → Prop
  | nil : IsType []
  | char {c : Char} {s : Text} (hc : isTypeChar c = true) (hs : IsType s) : IsType (c :: s)
  | template {args : List Text} {s : Text} (ha : ∀ a ∈ args, IsType a) (hs : IsType s) :
      IsType ('<' :: (joinArgs args ++ '>' :: s))
  | paren {args : List Text} {s : Text} (ha : ∀ a ∈ args, IsType a) (hs : IsType s) :
      IsType ('(' :: (joinArgs args ++ ')' :: s))

/-- A character of an identifier. -/
def isIdentChar (c : Char) : Bool := c.isAlphanum || c = '_' || c = '~'

/-- The operators that have a symbol of their own. -/
def operatorSymbols : List Text :=
  ["()", "[]", "->", "->*", "<", ">", "<=", ">=", "==", "!=", "<<", ">>", "<<=", ">>=", "+", "-",
    "*", "/", "%", "^", "&", "|", "~", "!", "=", "+=", "-=", "*=", "/=", "%=", "^=", "&=", "|=",
    "&&", "||", "++", "--", ",", " new", " new[]", " delete", " delete[]"].map String.toList

/-- One component of a qualified name. The name `(anonymous namespace)`, which starts with a
parenthesis as the arguments do, is none. -/
inductive IsComponent : Text → Prop
  | ident {s : Text} (hne : s ≠ []) (hs : ∀ c ∈ s, isIdentChar c = true) : IsComponent s
  | operator {s : Text} (hs : s ∈ operatorSymbols) : IsComponent ("operator".toList ++ s)
  | conversion {s : Text} (hs : IsType s) : IsComponent ("operator ".toList ++ s)
  | template {s : Text} {args : List Text} (hs : IsComponent s) (ha : ∀ a ∈ args, IsType a) :
      IsComponent (s ++ '<' :: (joinArgs args ++ ['>']))

/-- The type of an argument. -/
structure ArgType where
  text : Text
  isType : IsType text
  ne_nil : text ≠ []
  trimmed : Trimmed text

/-- A function symbol. -/
structure Symbol where
  components : List Text
  components_ne_nil : components ≠ []
  isComponent : ∀ s ∈ components, IsComponent s
  args : List ArgType
  isConst : Bool

/-- The qualified name of a symbol. -/
def Symbol.name (sym : Symbol) : Text := [':', ':'].intercalate sym.components

/-- The types of the arguments. -/
def Symbol.argTexts (sym : Symbol) : List Text := sym.args.map ArgType.text

/-- The symbol as it is printed. -/
def Symbol.text (sym : Symbol) : Text :=
  sym.name ++ '(' :: (joinArgs sym.argTexts ++ ')' :: (if sym.isConst then " const".toList else []))

/-! ## The start of the arguments -/

/-- A component starts with no parenthesis. -/
theorem IsComponent.head {s : Text} (h : IsComponent s) :
    ∃ c t, s = c :: t ∧ c ≠ '(' ∧ c ≠ ')' := by
  induction h with
  | @ident s hne hs =>
    obtain ⟨c, t, rfl⟩ := List.exists_cons_of_ne_nil hne
    have hc := hs c List.mem_cons_self
    refine ⟨c, t, rfl, ?_, ?_⟩ <;>
    · rintro rfl
      exact absurd hc (by decide)
  | @operator s => exact ⟨'o', "perator".toList ++ s, rfl, by decide, by decide⟩
  | @conversion s => exact ⟨'o', "perator ".toList ++ s, rfl, by decide, by decide⟩
  | template _ _ ih =>
    obtain ⟨c, t, rfl, h⟩ := ih
    exact ⟨c, _, rfl, h⟩

theorem Symbol.name_head (sym : Symbol) : ∃ c t, sym.name = c :: t ∧ c ≠ '(' ∧ c ≠ ')' := by
  obtain ⟨s, ss, hs⟩ := List.exists_cons_of_ne_nil sym.components_ne_nil
  obtain ⟨c, t, rfl, h⟩ := (sym.isComponent s (hs ▸ List.mem_cons_self)).head
  rw [Symbol.name, hs, List.intercalate_cons_cons_left]
  exact ⟨c, _, rfl, h⟩

/-- The closing position of a text that starts with no parenthesis is its first one, and the
arguments then start at the first parenthesis. -/
theorem findArgumentsStart_of_head {c : Char} {t : Text} (ho : c ≠ '(') (hc : c ≠ ')') :
    findArgumentsStart (c :: t) = posOrMinusOne (findIdx ['('] (c :: t)) := by
  have hclosing : findClosingDelimiter (c :: t) (findFrom (c :: t) ['('] 0) '(' ')' = some 0 := by
    rw [findClosingDelimiter, closingScan, if_neg ho, if_neg hc]
    rfl
  have hfirst : findFrom (c :: t) ['('] 0 = posOrMinusOne (findIdx ['('] (c :: t)) := by
    simp [findFrom, find?, pyBound]
  rw [findArgumentsStart, hclosing]
  simp only [posOrMinusOne, Int.natCast_zero, hfirst, ite_self]

theorem findArgumentsStart_of_not_mem {c : Char} {t a b : Text} (ho : c ≠ '(') (hc : c ≠ ')')
    (heq : c :: t = a ++ '(' :: b) (ha : '(' ∉ a) : findArgumentsStart (c :: t) = a.length := by
  rw [findArgumentsStart_of_head ho hc, heq, findIdx_char ha]
  rfl

/-- The name is the text before the first parenthesis. -/
theorem symToArgs_fst {c : Char} {t a b : Text} (ho : c ≠ '(') (hc : c ≠ ')')
    (heq : c :: t = a ++ '(' :: b) (ha : '(' ∉ a) : (symToArgs (c :: t)).1 = a := by
  have hneg : ¬ (a.length : ℤ) < 0 := Int.not_lt.mpr (Int.natCast_nonneg a.length)
  rw [symToArgs, findArgumentsStart_of_not_mem ho hc heq ha, heq]
  simp only [if_neg hneg, pySlice_zero]
  split <;> rfl

/-- The arguments are cut out of the text between the two parentheses. -/
theorem symToArgs_of_not_mem {c : Char} {t a b tail : Text} (ho : c ≠ '(') (hc : c ≠ ')')
    (heq : c :: t = a ++ '(' :: (b ++ ')' :: tail)) (ha : '(' ∉ a) (htail : ')' ∉ tail) :
    symToArgs (c :: t) =
      (a, some (if b = [] then [] else (topLevelSplit b [','] ['<'] ['>']).map strip)) := by
  have hneg : ¬ (a.length : ℤ) < 0 := Int.not_lt.mpr (Int.natCast_nonneg a.length)
  rw [symToArgs, findArgumentsStart_of_not_mem ho hc heq ha, heq, rfindChar_enclosed htail]
  simp only [if_neg hneg, posOrMinusOne, pySlice_zero, pySlice_enclosed]
  split <;> rfl

/-! ## The list of the arguments -/

/-- The brackets of a type match. -/
theorem IsType.balanced {s : Text} (h : IsType s) : Balanced ['<'] ['>'] s := by
  have hsep : Balanced ['<'] ['>'] [',', ' '] := .of_no_brackets (by decide)
  induction h with
  | nil => exact .nil
  | @char c s hc _ ih =>
    refine Balanced.append (s := [c]) (.of_no_brackets fun d hd => ?_) ih
    rw [List.mem_singleton.mp hd]
    constructor <;>
    · intro hmem
      rw [List.mem_singleton.mp hmem] at hc
      exact absurd hc (by decide)
  | @template args s _ _ ha hs =>
    have h := (Balanced.enclosed (o := '<') (c := '>') rfl rfl (hsep.intercalate ha)).append hs
    simpa [joinArgs] using h
  | @paren args s _ _ ha hs =>
    have ho : Balanced ['<'] ['>'] ['('] := .of_no_brackets (by decide)
    have hc : Balanced ['<'] ['>'] [')'] := .of_no_brackets (by decide)
    have h := (ho.append ((hsep.intercalate ha).append hc)).append hs
    simpa [joinArgs] using h

/-- The parts between the commas: all the arguments but the first have a blank in front. -/
def withBlanks : List Text → List Text
  | [] => []
  | a :: as => a :: as.map (' ' :: ·)

theorem joinArgs_eq (args : List Text) : joinArgs args = [','].intercalate (withBlanks args) := by
  cases args with
  | nil => rfl
  | cons a args =>
    induction args generalizing a with
    | nil => rfl
    | cons b args ih =>
      rw [joinArgs, List.intercalate_cons_cons, ← joinArgs, ih b]
      cases args <;> simp [withBlanks]

theorem mem_withBlanks {args : List Text} {p : Text} (h : p ∈ withBlanks args) :
    ∃ a ∈ args, p = a ∨ p = ' ' :: a := by
  cases args with
  | nil => cases h
  | cons a args =>
    obtain rfl | h := List.mem_cons.mp h
    · exact ⟨p, List.mem_cons_self, .inl rfl⟩
    · obtain ⟨b, hb, rfl⟩ := List.mem_map.mp h
      exact ⟨b, List.mem_cons_of_mem a hb, .inr rfl⟩

theorem map_strip_withBlanks {args : List Text} (h : ∀ a ∈ args, Trimmed a) :
    (withBlanks args).map strip = args := by
  cases args with
  | nil => rfl
  | cons a args =>
    have ha := strip_of_trimmed (h a List.mem_cons_self)
    have hrest : (args.map (' ' :: ·)).map strip = args := by
      rw [List.map_map]
      calc args.map (strip ∘ (' ' :: ·)) = args.map id := by
            refine List.map_congr_left fun b hb => ?_
            rw [Function.comp_apply, strip_cons_of_isBlank rfl,
              strip_of_trimmed (h b (List.mem_cons_of_mem a hb))]
            rfl
        _ = args := List.map_id args
    rw [withBlanks, List.map_cons, ha, hrest]

/-- A comma at level zero is not removed by a blank in front. -/
theorem occursAtZero_cons_blank {a : Text} (h : OccursAtZero ['<'] ['>'] [','] (' ' :: a)) :
    OccursAtZero ['<'] ['>'] [','] a := by
  obtain ⟨pre, post, heq, hz⟩ := h
  cases pre with
  | nil => exact absurd (List.cons.inj heq).1 (by decide)
  | cons c pre =>
    obtain ⟨rfl, rfl⟩ := List.cons.inj heq
    exact ⟨pre, post, rfl, by rw [level_cons] at hz; simpa [charLevel] using hz⟩

/-- A comma at level zero is not made by stripping. -/
theorem occursAtZero_of_strip {p : Text} (h : OccursAtZero ['<'] ['>'] [','] (strip p)) :
    OccursAtZero ['<'] ['>'] [','] p := by
  obtain ⟨a, b, hp, ha⟩ := exists_append_strip p
  obtain ⟨pre, post, heq, hz⟩ := h
  have hlevel : level ['<'] ['>'] a = 0 := by
    refine level_eq_zero fun c hc => ⟨?_, ?_⟩ <;>
    · intro hmem
      have hb := ha c hc
      rw [List.mem_singleton.mp hmem] at hb
      exact absurd hb (by decide)
  refine ⟨a ++ pre, post ++ b, ?_, by rw [level_append, hlevel, hz]; rfl⟩
  rw [hp, heq]
  simp

/-- Arguments without a comma outside template brackets are found again. -/
theorem topLevelSplit_joinArgs {args : List Text} (hne : args ≠ []) (hargs : ∀ a ∈ args, a ≠ [] ∧
    Trimmed a ∧ Balanced ['<'] ['>'] a ∧ ¬ OccursAtZero ['<'] ['>'] [','] a) :
    (topLevelSplit (joinArgs args) [','] ['<'] ['>']).map strip = args := by
  have hscan : topLevelScan [','] ['<'] ['>'] (joinArgs args) 0 0 [] = withBlanks args := by
    rw [joinArgs_eq]
    refine topLevelScan_intercalate ?_ fun p hp => ?_
    · obtain ⟨a, as, rfl⟩ := List.exists_cons_of_ne_nil hne
      exact List.cons_ne_nil a _
    · obtain ⟨a, ha, rfl | rfl⟩ := mem_withBlanks hp
      · exact ⟨(hargs p ha).1, (hargs p ha).2.2.1.level_eq, (hargs p ha).2.2.2⟩
      · refine ⟨List.cons_ne_nil _ _, ?_, fun h => (hargs a ha).2.2.2 (occursAtZero_cons_blank h)⟩
        rw [level_cons, (hargs a ha).2.2.1.level_eq]
        rfl
  have hne' : withBlanks args ≠ [] := by
    obtain ⟨a, as, rfl⟩ := List.exists_cons_of_ne_nil hne
    exact List.cons_ne_nil a _
  rw [topLevelSplit, hscan, orBlank, if_neg hne',
    map_strip_withBlanks fun a ha => (hargs a ha).2.1]

/-- No part has a comma outside template brackets. -/
theorem not_occursAtZero_of_mem {b p : Text}
    (hp : p ∈ (topLevelSplit b [','] ['<'] ['>']).map strip) :
    ¬ OccursAtZero ['<'] ['>'] [','] p := by
  obtain ⟨q, hq, rfl⟩ := List.mem_map.mp hp
  intro h
  have hz := occursAtZero_of_strip h
  obtain ⟨seg, segs, hseg, hscan⟩ := @topLevelScan_segments [','] ['<'] ['>']
    (List.cons_ne_nil _ _) rfl b 0
  rw [topLevelSplit, hscan, List.nil_append, emit_nonEmpty, orBlank] at hq
  split at hq
  · rw [List.mem_singleton.mp hq] at hz
    obtain ⟨pre, post, heq, -⟩ := hz
    simp at heq
  · exact hseg.not_occursAtZero (List.cons_ne_nil _ _) rfl q (List.mem_filter.mp hq).1 hz

/-! ## Main results -/

/-- A symbol is cut into its name and its arguments if and only if the name has no parenthesis and
no argument has a comma outside template brackets. -/
theorem symToArgs_iff (sym : Symbol) :
    symToArgs sym.text = (sym.name, some sym.argTexts) ↔
      '(' ∉ sym.name ∧ ∀ a ∈ sym.argTexts, ¬ OccursAtZero ['<'] ['>'] [','] a := by
  obtain ⟨c, t, hname, ho, hc⟩ := sym.name_head
  have htext : sym.text = c :: (t ++ '(' :: (joinArgs sym.argTexts ++
      ')' :: (if sym.isConst then " const".toList else []))) := by
    rw [Symbol.text, hname]
    rfl
  by_cases hmem : '(' ∈ sym.name
  · obtain ⟨a, b, hab, ha⟩ := List.eq_append_cons_of_mem hmem
    have hfst : (symToArgs sym.text).1 = a := by
      rw [htext]
      refine symToArgs_fst (b := b ++ '(' :: (joinArgs sym.argTexts ++
        ')' :: (if sym.isConst then " const".toList else []))) ho hc ?_ ha
      rw [← htext, Symbol.text, hab]
      simp
    refine ⟨fun h => ?_, fun h => absurd hmem h.1⟩
    rw [h, hab] at hfst
    have := congrArg List.length hfst
    simp at this
  · have hcut : symToArgs sym.text = (sym.name, some (if joinArgs sym.argTexts = [] then [] else
        (topLevelSplit (joinArgs sym.argTexts) [','] ['<'] ['>']).map strip)) := by
      have htail : ')' ∉ (if sym.isConst then " const".toList else []) := by split <;> decide
      rw [htext]
      exact symToArgs_of_not_mem ho hc (by rw [hname]; rfl) hmem htail
    rw [hcut]
    simp only [Prod.mk.injEq, Option.some.injEq, true_and, hmem, not_false_eq_true]
    constructor
    · intro h a ha
      rw [← h] at ha
      split at ha
      · cases ha
      · exact not_occursAtZero_of_mem ha
    · intro h
      by_cases hne : sym.argTexts = []
      · rw [hne]
        rfl
      · have hargs : ∀ a ∈ sym.argTexts, a ≠ [] ∧ Trimmed a ∧ Balanced ['<'] ['>'] a ∧
            ¬ OccursAtZero ['<'] ['>'] [','] a := by
          intro a ha
          obtain ⟨b, -, rfl⟩ := List.mem_map.mp ha
          exact ⟨b.ne_nil, b.trimmed, b.isType.balanced, h b.text ha⟩
        rw [if_neg ?_, topLevelSplit_joinArgs hne hargs]
        obtain ⟨a, as, has⟩ := List.exists_cons_of_ne_nil hne
        obtain ⟨d, u, hu⟩ := List.exists_cons_of_ne_nil (hargs a (has ▸ List.mem_cons_self)).1
        rw [has, hu, joinArgs, List.intercalate_cons_cons_left]
        exact List.cons_ne_nil d _

/-- `A::operator()(int)` -/
def callOperator : Symbol where
  components := [['A'], "operator()".toList]
  components_ne_nil := by decide
  isComponent := by
    intro s hs
    obtain rfl | hs := List.mem_cons.mp hs
    · exact .ident (by decide) (by decide)
    · rw [List.mem_singleton.mp hs]
      exact .operator (s := "()".toList) (by decide)
  args := [⟨"int".toList, .char rfl (.char rfl (.char rfl .nil)), by decide, by decide⟩]
  isConst := false

/-- The call operator of a class is cut at its own parentheses. -/
theorem symToArgs_callOperator :
    callOperator.text = "A::operator()(int)".toList ∧
      symToArgs callOperator.text = ("A::operator".toList, some [")(int".toList]) ∧
      symToArgs callOperator.text ≠ (callOperator.name, some callOperator.argTexts) := by decide

end Survol.Symbols
