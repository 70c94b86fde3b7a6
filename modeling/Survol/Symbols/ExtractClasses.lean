import Mathlib.Data.List.Flatten
import Survol.Lib.Positions
import Survol.Symbols.TopLevelSplit

/-!
# The classes of a type

A type is stripped of its suffixes; what remains is a scalar type, or a class that is reported and
whose template arguments are types again.

## Main definitions

* `extractClassesFromType`, `extractTemplatedClassesFromToken` — the functions of the source.

## Main results

* `extractClassesFromType_of_some` — a type is appended, then the classes of its arguments.
-/

open PyText Brackets

namespace Survol.Symbols

/-! ## The functions -/

/-- The scalar types that the source knows. -/
def scalarTypes : List Text :=
  ["bool", "short", "unsigned short", "int", "unsigned int", "long", "unsigned long", "long long",
    "unsigned long long", "float", "double"].map String.toList

/-- A character that `cls[-1] in "*&"` accepts. -/
def isPointerChar (c : Char) : Bool := c = '*' || c = '&'

/-- The loop that removes the last pointer signs; `none` where it reads a character of the empty
text. -/
def withoutPointers (cls : Text) : Option Text :=
  let rest := cls.rdropWhile isPointerChar
  if rest = [] then none else some rest

/-- The type without one `const` at its end. -/
def withoutConst (cls : Text) : Text :=
  if " const".toList.isSuffixOf cls then pySlice cls 0 (-6) else cls

/-- The template arguments of a type. -/
def templateArgs (cls : Text) : List Text :=
  let bracketFirst := posOrMinusOne (find? cls ['<'] 0)
  if bracketFirst ≤ 0 then [] else
    let bracketLast := posOrMinusOne (rfindChar '>' cls)
    topLevelSplit (pySlice cls (bracketFirst + 1) bracketLast) [','] ['<'] ['>']

/-! ## Termination -/

theorem length_of_mem_topLevelScan {delim op cl s current p : Text} {level : ℤ} {skip : ℕ}
    (h : p ∈ topLevelScan delim op cl s level skip current) :
    p.length ≤ current.length + s.length := by
  have hemit : ∀ {c : Text} {ps : List Text}, p ∈ emit c ps → p = c ∨ p ∈ ps := by
    intro c ps hp
    rw [emit] at hp
    split at hp
    · exact .inr hp
    · exact List.mem_cons.mp hp
  induction s generalizing level skip current with
  | nil =>
    rw [topLevelScan] at h
    obtain rfl | h := hemit h
    · simp
    · cases h
  | cons c s ih =>
    cases skip with
    | succ skip =>
      rw [topLevelScan] at h
      have := ih h
      rw [List.length_cons]
      omega
    | zero =>
      rw [topLevelScan] at h
      split at h
      · obtain rfl | h := hemit h
        · exact Nat.le_add_right _ _
        · have := ih h
          rw [List.length_nil] at this
          rw [List.length_cons]
          omega
      · have := ih h
        rw [List.length_append, List.length_singleton] at this
        rw [List.length_cons]
        omega

theorem length_of_mem_topLevelSplit {delim op cl s p : Text} (h : p ∈ topLevelSplit s delim op cl) :
    p.length ≤ s.length := by
  rw [topLevelSplit, orBlank] at h
  split at h
  · rw [List.mem_singleton.mp h]
    exact Nat.zero_le _
  · simpa using length_of_mem_topLevelScan h

/-- A template argument is shorter than the type. -/
theorem length_of_mem_templateArgs {cls p : Text} (h : p ∈ templateArgs cls) :
    p.length < cls.length := by
  rw [templateArgs] at h
  split at h
  · cases h
  · rename_i hpos
    have hlen := length_of_mem_topLevelSplit h
    have hfirst : find? cls ['<'] 0 ≠ none := fun hn => hpos (by rw [hn]; decide)
    obtain ⟨k, hk⟩ := Option.ne_none_iff_exists'.mp hfirst
    rw [hk, posOrMinusOne] at hlen hpos
    have hslice : (pySlice cls ((k : ℤ) + 1) (posOrMinusOne (rfindChar '>' cls))).length ≤
        cls.length - (k + 1) := by
      have hb : pyBound cls ((k : ℤ) + 1) = k + 1 := pyBound_natCast cls (k + 1)
      rw [pySlice, hb, slice, List.length_drop, List.length_take]
      omega
    have hne : cls ≠ [] := by
      rintro rfl
      rw [find?, List.drop_nil, findIdx_nil (List.cons_ne_nil _ _)] at hk
      cases hk
    have := List.length_pos_iff.mpr hne
    omega

theorem length_withoutConst_le (cls : Text) : (withoutConst cls).length ≤ cls.length := by
  rw [withoutConst]
  split
  · rw [pySlice, slice, List.length_drop, List.length_take]
    omega
  · exact Nat.le_refl _

theorem length_withoutPointers_le {cls c : Text} (h : withoutPointers cls = some c) :
    c.length ≤ cls.length := by
  rw [withoutPointers] at h
  split at h
  · cases h
  · cases h
    exact (List.rdropWhile_prefix isPointerChar cls).length_le

/-- The classes that are appended for a type, `none` where an index is out of range. -/
def extractClassesFromType (cls : Text) : Option (List Text) :=
  if cls = [] then some [] else
    match _hc : withoutPointers cls with
    | none => none
    | some c =>
      if withoutConst c ∈ scalarTypes then some [] else
        ((templateArgs (withoutConst c)).attach.mapM fun a => extractClassesFromType a.1).map
          fun found => withoutConst c :: found.flatten
termination_by cls.length
decreasing_by
  have h₁ := length_of_mem_templateArgs a.2
  have h₂ := length_withoutConst_le c
  have h₃ := length_withoutPointers_le _hc
  omega

/-- The classes that are appended for the template arguments of a type. -/
def extractTemplatedClassesFromToken (cls : Text) : Option (List Text) :=
  ((templateArgs cls).mapM extractClassesFromType).map List.flatten

/-! ## One call -/

theorem extractClassesFromType_nil : extractClassesFromType [] = some [] := by
  rw [extractClassesFromType]
  rfl

/-- A type that is no scalar is appended, then the classes of its template arguments. -/
theorem extractClassesFromType_of_some {cls c : Text} (hne : cls ≠ [])
    (hc : withoutPointers cls = some c) :
    extractClassesFromType cls = if withoutConst c ∈ scalarTypes then some [] else
      (extractTemplatedClassesFromToken (withoutConst c)).map (withoutConst c :: ·) := by
  have hattach : (templateArgs (withoutConst c)).attach.mapM
      (fun a => extractClassesFromType a.1) =
        (templateArgs (withoutConst c)).mapM extractClassesFromType := by
    conv_rhs => rw [← List.attach_map_subtype_val (templateArgs (withoutConst c)), List.mapM_map]
    rfl
  rw [extractClassesFromType, if_neg hne]
  split
  · rename_i h
    rw [hc] at h
    cases h
  · rename_i c' h
    obtain rfl : c = c' := Option.some.inj (hc.symm.trans h)
    rw [hattach, extractTemplatedClassesFromToken, Option.map_map]
    rfl

theorem mapM_eq_some {α β : Type} {f : α → Option β} {l : List α} {r : List β}
    (h : l.mapM f = some r) {a : α} (ha : a ∈ l) : ∃ b ∈ r, f a = some b := by
  induction l generalizing r with
  | nil => cases ha
  | cons c l ih =>
    rw [List.mapM_cons, Option.bind_eq_bind, Option.bind_eq_some_iff] at h
    obtain ⟨b, hb, h⟩ := h
    rw [Option.bind_eq_bind, Option.bind_eq_some_iff] at h
    obtain ⟨bs, hbs, h⟩ := h
    obtain rfl : b :: bs = r := Option.some.inj h
    obtain rfl | ha := List.mem_cons.mp ha
    · exact ⟨b, List.mem_cons_self, hb⟩
    · obtain ⟨b', hb', hf⟩ := ih hbs ha
      exact ⟨b', List.mem_cons_of_mem b hb', hf⟩

/-- What is appended for a template argument is appended for the type. -/
theorem exists_of_mem_templateArgs {cls c p : Text} {l : List Text} (hne : cls ≠ [])
    (hc : withoutPointers cls = some c) (hs : withoutConst c ∉ scalarTypes)
    (h : extractClassesFromType cls = some l) (hp : p ∈ templateArgs (withoutConst c)) :
    ∃ l', extractClassesFromType p = some l' ∧ ∀ e ∈ l', e ∈ l := by
  rw [extractClassesFromType_of_some hne hc, if_neg hs, Option.map_eq_some_iff] at h
  obtain ⟨found, hfound, rfl⟩ := h
  obtain ⟨ls, hls, rfl⟩ := Option.map_eq_some_iff.mp hfound
  obtain ⟨l', hl', hp'⟩ := mapM_eq_some hls hp
  exact ⟨l', hp', fun e he => List.mem_cons_of_mem _ (List.mem_flatten.mpr ⟨l', hl', he⟩)⟩

/-- The type itself is appended. -/
theorem mem_of_not_scalar {cls c : Text} {l : List Text} (hne : cls ≠ [])
    (hc : withoutPointers cls = some c) (hs : withoutConst c ∉ scalarTypes)
    (h : extractClassesFromType cls = some l) : withoutConst c ∈ l := by
  rw [extractClassesFromType_of_some hne hc, if_neg hs, Option.map_eq_some_iff] at h
  obtain ⟨found, -, rfl⟩ := h
  exact List.mem_cons_self

end Survol.Symbols
