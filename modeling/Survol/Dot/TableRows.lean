import Mathlib.Data.List.Nodup
import Mathlib.Data.List.Perm.Subperm
import Survol.Dot.CollapsedTables

/-!
# The lines of a table

Each object of a table is stored under a title of its own, so that its line is not lost, unless
this title is empty: the header is stored under the empty title too.

## Main definitions

* `unlabelled` — an object without a title.

## Main results

* `titleUniq_notMem` — the title of a line is not used yet.
* `tableRows_eq` — the lines of a table are those of its objects, but for the first one without a
  title.
-/

namespace Survol.Dot

open PyText (Text)

/-! ## Titles -/

theorem toDigits_injective {i j : ℕ} (h : Nat.toDigits 10 i = Nat.toDigits 10 j) : i = j := by
  have hi := Nat.ofDigitChars_ten_toDigits (n := i)
  rw [h, Nat.ofDigitChars_ten_toDigits] at hi
  exact hi.symm

/-- One of the numbered titles is not used yet. -/
theorem exists_titleIdx (used : List Text) (titleKey : Text) :
    ∃ t, ((List.range' 2 (used.length + 1)).map fun titleIdx =>
      titleKey ++ '/' :: Nat.toDigits 10 titleIdx).find? (· ∉ used) = some t := by
  rw [← Option.isSome_iff_exists, List.find?_isSome]
  by_contra hused
  push Not at hused
  have hnodup : ((List.range' 2 (used.length + 1)).map fun titleIdx =>
      titleKey ++ '/' :: Nat.toDigits 10 titleIdx).Nodup := by
    refine List.Nodup.map ?_ List.nodup_range'
    intro i j h
    exact toDigits_injective (List.cons.inj (List.append_cancel_left h)).2
  have hlen := (hnodup.subperm fun t ht => by simpa using hused t ht).length_le
  simp only [List.length_map, List.length_range'] at hlen
  omega

/-- The title of a line is not used yet. -/
theorem titleUniq_notMem (used : List Text) (titleKey : Text) :
    titleUniq used titleKey ∉ used := by
  rw [titleUniq]
  split
  · assumption
  · obtain ⟨t, ht⟩ := exists_titleIdx used titleKey
    rw [ht]
    simpa using List.find?_some ht

theorem titleUniq_eq_nil_iff {used : List Text} {titleKey : Text} :
    titleUniq used titleKey = [] ↔ titleKey = [] ∧ [] ∉ used := by
  constructor
  · intro h
    have hnot := titleUniq_notMem used titleKey
    rw [h] at hnot
    refine ⟨?_, hnot⟩
    rw [titleUniq] at h
    split at h
    · exact h
    · obtain ⟨t, ht⟩ := exists_titleIdx used titleKey
      rw [ht, Option.getD_some] at h
      obtain ⟨i, -, hi⟩ := List.mem_map.mp (List.mem_of_find?_eq_some ht)
      rw [h] at hi
      exact absurd hi (by simp)
  · rintro ⟨rfl, h⟩
    rw [titleUniq, if_pos h]

/-! ## Lines -/

/-- The lines of objects that are not stored under the empty title. -/
def keptRows (dict : List (Text × Line)) : List Row :=
  (dict.filter fun e => e.1 ≠ []).filterMap fun e => e.2.row?

theorem rows_setItem_header (dict : List (Text × Line)) (keys : List Property) :
    (setItem dict [] (.header keys)).filterMap (fun e => e.2.row?) = keptRows dict := by
  rw [setItem, keptRows]
  split
  · clear * -
    induction dict with
    | nil => rfl
    | cons e dict ih =>
      by_cases he : e.1 = []
      · simpa [he, Line.row?] using ih
      · rw [List.filter_cons_of_pos (by simpa using he), List.map_cons, if_neg he,
          List.filterMap_cons, List.filterMap_cons, ih]
  · rename_i hnot
    rw [List.filter_eq_self.mpr]
    · simp [Line.row?]
    · intro e he
      have hkey := List.mem_map_of_mem (f := Prod.fst) he
      simpa using fun hnil : e.1 = [] => hnot (hnil ▸ hkey)

variable (nam : Naming) (grph : List Triple) (collapsed : List Property)

section AddRow

variable (keys : List Property) (dict : List (Text × Line)) (objUri : Node)

theorem addRow_eq : addRow nam grph collapsed keys dict objUri =
    dict ++ [(titleUniq (dict.map Prod.fst) (rowOf nam grph collapsed keys objUri).1,
      .row (rowOf nam grph collapsed keys objUri).2)] := by
  rw [addRow, setItem, if_neg (titleUniq_notMem _ _)]

theorem nil_mem_addRow : [] ∈ (addRow nam grph collapsed keys dict objUri).map Prod.fst ↔
    [] ∈ dict.map Prod.fst ∨ (rowOf nam grph collapsed keys objUri).1 = [] := by
  rw [addRow_eq, List.map_append, List.mem_append]
  simp only [List.map_cons, List.map_nil, List.mem_singleton]
  rw [eq_comm (a := []), titleUniq_eq_nil_iff]
  tauto

theorem keptRows_addRow : keptRows (addRow nam grph collapsed keys dict objUri) =
    keptRows dict ++ if (rowOf nam grph collapsed keys objUri).1 = [] ∧ [] ∉ dict.map Prod.fst
      then [] else [(rowOf nam grph collapsed keys objUri).2] := by
  rw [addRow_eq, keptRows, List.filter_append, List.filterMap_append, ← keptRows]
  congr 1
  simp only [← titleUniq_eq_nil_iff]
  split
  · rename_i h
    simp [h]
  · rename_i h
    simp [h, Line.row?]

end AddRow

theorem keptRows_foldl_of_mem (keys : List Property) (nodes : List Node)
    {dict : List (Text × Line)} (h : [] ∈ dict.map Prod.fst) :
    keptRows (nodes.foldl (addRow nam grph collapsed keys) dict) =
      keptRows dict ++ nodes.map fun obj => (rowOf nam grph collapsed keys obj).2 := by
  induction nodes generalizing dict with
  | nil => simp
  | cons obj nodes ih =>
    rw [List.foldl_cons, ih ((nil_mem_addRow nam grph collapsed keys dict obj).mpr (.inl h)),
      keptRows_addRow, if_neg fun hn => hn.2 h, List.append_assoc]
    rfl

/-- The first object without a title is the only one whose line is not kept. -/
theorem keptRows_foldl (keys : List Property) (nodes : List Node) {dict : List (Text × Line)}
    (h : [] ∉ dict.map Prod.fst) :
    keptRows (nodes.foldl (addRow nam grph collapsed keys) dict) =
      keptRows dict ++ (nodes.eraseP fun obj => (rowOf nam grph collapsed keys obj).1 = []).map
        fun obj => (rowOf nam grph collapsed keys obj).2 := by
  induction nodes generalizing dict with
  | nil => simp
  | cons obj nodes ih =>
    have hmem := nil_mem_addRow nam grph collapsed keys dict obj
    rw [List.foldl_cons]
    by_cases hobj : (rowOf nam grph collapsed keys obj).1 = []
    · rw [keptRows_foldl_of_mem nam grph collapsed keys nodes (hmem.mpr (.inr hobj)),
        keptRows_addRow, if_pos ⟨hobj, h⟩, List.eraseP_cons_of_pos (by simpa using hobj),
        List.append_nil]
    · rw [ih (by rw [hmem]; tauto), keptRows_addRow, if_neg fun hn => hobj hn.1,
        List.eraseP_cons_of_neg (by simpa using hobj), List.append_assoc]
      rfl

/-! ## Objects without a title -/

/-- The texts of the information fields, one after the other. -/
def infoText (fields : List (Property × Node)) : Text :=
  fields.flatMap fun f => if f.1 = propertyInformation then f.2.text else []

theorem foldl_addField_fst (keys : List Property) (fields : List (Property × Node))
    (s : Text × List Cell) :
    (fields.foldl (addField nam keys) s).1 = s.1 ++ infoText fields := by
  induction fields generalizing s with
  | nil => simp [infoText]
  | cons f fields ih =>
    have hcons : infoText (f :: fields) =
        (if f.1 = propertyInformation then f.2.text else []) ++ infoText fields := rfl
    rw [List.foldl_cons, ih, addField, hcons]
    split <;> simp

/-- An object without a title: it has no label, and no information with a text. -/
def unlabelled (obj : Node) : Bool :=
  (nam.parseEntityUriShort obj.text).1 = [] ∧ infoText (fieldsSet grph collapsed obj) = []

theorem rowOf_fst (keys : List Property) (obj : Node) : (rowOf nam grph collapsed keys obj).1 =
    if infoText (fieldsSet grph collapsed obj) = [] then (nam.parseEntityUriShort obj.text).1
    else infoText (fieldsSet grph collapsed obj) := by
  rw [rowOf]
  simp only [foldl_addField_fst, List.nil_append]
  split <;> rfl

theorem rowOf_fst_eq_nil_iff (keys : List Property) (obj : Node) :
    (rowOf nam grph collapsed keys obj).1 = [] ↔ unlabelled nam grph collapsed obj = true := by
  rw [rowOf_fst, unlabelled, decide_eq_true_iff]
  split <;> simp_all

/-- **The lines of a table are those of its objects, but for the first one without a title**: the
header is stored in its place. -/
theorem tableRows_eq (propNam : Text) (subj : Node) :
    tableRows nam grph collapsed propNam subj =
      ((nodLst grph collapsed propNam subj).eraseP (unlabelled nam grph collapsed)).map fun obj =>
        (rowOf nam grph collapsed
          (fieldsKeys grph collapsed (nodLst grph collapsed propNam subj)) obj).2 := by
  rw [tableRows, tableLines, rows_setItem_header, keptRows_foldl _ _ _ _ _ (by simp)]
  simp only [rowOf_fst_eq_nil_iff]
  simp [keptRows]

end Survol.Dot
