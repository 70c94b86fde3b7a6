import Survol.Dot.TableRows

/-!
# What the tables display

A table has a line for each object of its node and property, and the line has the values of the
object, exactly if no object is without a title, no other property has the same short name, and
each object has at most one value for a property: a value takes the place of those before it.

## Main definitions

* `Shown` — a line shows the value of a property.
* `NoDataLost` — a table has a line for each object, with all its values.
* `Displayable` — an object whose values have a place each.

## Main results

* `shown_iff_displayable` — the line of an object shows its values if it is displayable.
* `noDataLost_iff` — when no data is lost.
-/

namespace Survol.Dot

open PyText (Text)

/-! ## What is expected of a table -/

section Spec

variable (nam : Naming) (grph : List Triple) (collapsed : List Property)

/-- The objects of a node and a property. -/
def objectsOf (subj : Node) (prop : Property) : List Node :=
  (grph.filter fun t => t.subj = subj ∧ t.prop = prop).map Triple.obj

/-- The columns of the table of a node and a property. -/
def columnsOf (subj : Node) (prop : Property) : List Property :=
  fieldsKeys grph collapsed (nodLst grph collapsed (propToShortPropNam prop) subj)

/-- A line shows the value of a property: in the column of the property, or in the text of the
first cell for an information. -/
def Shown (keys : List Property) (row : Row) (key : Property) (val : Node) : Prop :=
  if key = propertyInformation then val.text <:+: row.title
  else row.columns[keys.idxOf key]? = some (tmpCell nam key val)

/-- The values that a line should show: the literals of its object, and the flat properties. -/
def ValuesShown (keys : List Property) (row : Row) : Prop :=
  ∀ t ∈ grph, t.subj = row.obj → (t.obj.isLiteral ∨ isFlatProperty t.prop) →
    Shown nam keys row t.prop t.obj

/-- No data is lost in a table: it has one line for each object, with all its values. -/
def NoDataLost (subj : Node) (prop : Property) : Prop :=
  let rows := tableRows nam grph collapsed (propToShortPropNam prop) subj
  (rows.map Row.obj).Perm (objectsOf grph subj prop) ∧
    ∀ row ∈ rows, ValuesShown nam grph (columnsOf grph collapsed subj prop) row

/-! ## When it is displayed -/

/-- The objects of a node for the other collapsed properties with the same short name. -/
def otherObjects (subj : Node) (prop : Property) : List Node :=
  (grph.filter fun t => (t.prop ∈ collapsed ∧
    propToShortPropNam t.prop = propToShortPropNam prop ∧ t.subj = subj) ∧ t.prop ≠ prop).map
      Triple.obj

/-- The text of the first cell of an object whose information is not displayed. -/
def plainTitle (obj : Node) : Text :=
  let (subObjNam, _, subEntityId) := nam.parseEntityUriShort obj.text
  if subEntityId = plainTextOnly then cgiEscape (replaceAmp obj.text) else subObjNam

/-- Whether the information on an object is not displayed. -/
def HiddenTitle (obj : Node) : Prop :=
  (nam.parseEntityUriShort obj.text).2.2 = plainTextOnly ∨ propertyInformation ∈ collapsed

/-- An object whose values have a place each: they are not collapsed, they are the same for a
property, and its information is displayed, or said by its address or its label. -/
structure Displayable (obj : Node) : Prop where
  notCollapsed : ∀ t ∈ grph, t.subj = obj → (t.obj.isLiteral ∨ isFlatProperty t.prop) →
    t.prop ≠ propertyInformation → t.prop ∉ collapsed
  single : ∀ t ∈ grph, ∀ t' ∈ grph, t.subj = obj → t'.subj = obj → t.prop = t'.prop →
    (t.obj.isLiteral ∨ isFlatProperty t.prop) → (t'.obj.isLiteral ∨ isFlatProperty t'.prop) →
    t.prop ≠ propertyInformation → tmpCell nam t.prop t.obj = tmpCell nam t'.prop t'.obj
  information : HiddenTitle nam collapsed obj → ∀ t ∈ grph, t.subj = obj →
    t.prop = propertyInformation → t.obj.isLiteral → t.obj.text <:+: plainTitle nam obj

end Spec

/-! ## Cells -/

theorem makeProp_injective {a b : Text} (h : makeProp a = makeProp b) : a = b :=
  List.append_cancel_left h

theorem isFlatProperty_makeProp {s : Text} (h₁ : s ≠ "Data1".toList) (h₂ : s ≠ "Data2".toList)
    (h₃ : s ≠ "Data3".toList) : isFlatProperty (makeProp s) = false := by
  rw [isFlatProperty, List.contains_eq_mem, decide_eq_false_iff_not]
  intro h
  simp only [flatPropertiesList, List.mem_cons, List.not_mem_nil, or_false] at h
  rcases h with h | h | h
  · exact h₁ (makeProp_injective h)
  · exact h₂ (makeProp_injective h)
  · exact h₃ (makeProp_injective h)

theorem propertyInformation_not_flat : isFlatProperty propertyInformation = false :=
  isFlatProperty_makeProp (by decide) (by decide) (by decide)

variable {nam : Naming} {grph : List Triple} {collapsed : List Property}

theorem mem_fieldsSet {obj : Node} {f : Property × Node} :
    f ∈ fieldsSet grph collapsed obj ↔ ⟨obj, f.1, f.2⟩ ∈ grph ∧ f.1 ∉ collapsed ∧
      (f.2.isLiteral ∨ isFlatProperty f.1) := by
  rw [fieldsSet, List.mem_map]
  constructor
  · rintro ⟨t, ht, rfl⟩
    simp only [List.mem_filter, decide_eq_true_eq] at ht
    obtain ⟨ht, rfl, h⟩ := ht
    exact ⟨ht, h⟩
  · rintro ⟨hf, h⟩
    exact ⟨_, List.mem_filter.mpr ⟨hf, by simpa using h⟩, rfl⟩

theorem mem_fieldsKeys {nodes : List Node} {key : Property} :
    key ∈ fieldsKeys grph collapsed nodes ↔
      (∃ obj ∈ nodes, ∃ f ∈ fieldsSet grph collapsed obj, f.1 = key) ∧
        key ≠ propertyInformation := by
  have hraw : key ∈ (nodes.flatMap fun obj => (fieldsSet grph collapsed obj).map Prod.fst).dedup ↔
      ∃ obj ∈ nodes, ∃ f ∈ fieldsSet grph collapsed obj, f.1 = key := by
    rw [List.mem_dedup, List.mem_flatMap]
    simp only [List.mem_map]
  rw [fieldsKeys, List.mem_append, List.mem_mergeSort, ← hraw, List.mem_filter, List.mem_filter]
  simp only [decide_eq_true_eq, Bool.not_eq_true', ne_eq]
  by_cases hflat : isFlatProperty key = true
  · have hmem : key ∈ flatPropertiesList := by simpa [isFlatProperty] using hflat
    have hne : key ≠ propertyInformation := by
      rintro rfl
      rw [propertyInformation_not_flat] at hflat
      cases hflat
    tauto
  · have hmem : key ∉ flatPropertiesList := by simpa [isFlatProperty] using hflat
    rw [Bool.not_eq_true] at hflat
    tauto

section Columns

variable (keys : List Property)

theorem length_foldl_addField (fields : List (Property × Node)) (s : Text × List Cell) :
    (fields.foldl (addField nam keys) s).2.length = s.2.length := by
  induction fields generalizing s with
  | nil => rfl
  | cons f fields ih =>
    rw [List.foldl_cons, ih, addField]
    split <;> simp

/-- The cell of a property is that of its values, if they all have the same. -/
theorem getElem?_foldl_addField {fields : List (Property × Node)} {s : Text × List Cell}
    {key : Property} {c : Cell} (hkey : key ∈ keys) (hne : key ≠ propertyInformation)
    (hlen : s.2.length = keys.length)
    (hc : ∀ f ∈ fields, f.1 = key → tmpCell nam f.1 f.2 = c)
    (h : s.2[keys.idxOf key]? = some c ∨ ∃ f ∈ fields, f.1 = key) :
    (fields.foldl (addField nam keys) s).2[keys.idxOf key]? = some c := by
  induction fields generalizing s with
  | nil => simpa using h
  | cons f fields ih =>
    rw [List.foldl_cons]
    have hlen' : (addField nam keys s f).2.length = keys.length := by
      rw [← hlen]
      exact length_foldl_addField keys [f] s
    apply ih hlen' fun g hg => hc g (List.mem_cons_of_mem f hg)
    by_cases hf : f.1 = key
    · left
      have hcell := hc f List.mem_cons_self hf
      subst hf
      rw [addField, if_neg hne, hcell, List.getElem?_set_self]
      rw [hlen]
      exact List.idxOf_lt_length_of_mem hkey
    · rcases h with h | ⟨g, hg, hgk⟩
      · left
        rw [addField]
        split
        · exact h
        · rw [List.getElem?_set_ne, h]
          intro heq
          exact hf ((List.idxOf_inj hkey).mp heq.symm).symm
      · rcases List.mem_cons.mp hg with rfl | hg
        · exact absurd hgk hf
        · exact .inr ⟨g, hg, hgk⟩

end Columns

/-! ## The line of an object -/

section RowOf

variable (nam grph collapsed) (keys : List Property) (obj : Node)

theorem rowOf_obj : (rowOf nam grph collapsed keys obj).2.obj = obj := by
  rw [rowOf]
  simp only
  split <;> rfl

theorem rowOf_columns : (rowOf nam grph collapsed keys obj).2.columns =
    ((fieldsSet grph collapsed obj).foldl (addField nam keys)
      ([], List.replicate keys.length .empty)).2 := by
  rw [rowOf]
  simp only
  split <;> rfl

theorem rowOf_title : (rowOf nam grph collapsed keys obj).2.title =
    if (nam.parseEntityUriShort obj.text).2.2 = plainTextOnly then
      cgiEscape (replaceAmp obj.text)
    else (rowOf nam grph collapsed keys obj).1 := by
  rw [rowOf]
  simp only
  split <;> rfl

/-- Without information, the title is the plain one. -/
theorem rowOf_title_of_hidden (h : HiddenTitle nam collapsed obj) :
    (rowOf nam grph collapsed keys obj).2.title = plainTitle nam obj := by
  rw [rowOf_title, plainTitle]
  simp only
  split
  · rfl
  · rename_i hid
    have hinfo : infoText (fieldsSet grph collapsed obj) = [] := by
      rw [infoText, List.flatMap_eq_nil_iff]
      intro f hf
      rw [if_neg]
      rintro hkey
      exact (mem_fieldsSet.mp hf).2.1 (hkey ▸ h.resolve_left hid)
    rw [rowOf_fst, if_pos hinfo]

end RowOf

theorem infix_infoText {fields : List (Property × Node)} {f : Property × Node} (hf : f ∈ fields)
    (hkey : f.1 = propertyInformation) : f.2.text <:+: infoText fields := by
  obtain ⟨a, b, rfl⟩ := List.append_of_mem hf
  refine ⟨infoText a, infoText b, ?_⟩
  simp [infoText, hkey]

/-- The information on an object is in the title of its line. -/
theorem infix_title {obj : Node} {keys : List Property} {val : Node}
    (hval : (propertyInformation, val) ∈ fieldsSet grph collapsed obj)
    (h : ¬ HiddenTitle nam collapsed obj) :
    val.text <:+: (rowOf nam grph collapsed keys obj).2.title := by
  have hpart := infix_infoText hval rfl
  rw [rowOf_title, if_neg fun hid => h (.inl hid), rowOf_fst]
  split
  · rename_i hnil
    rw [hnil, List.infix_nil] at hpart
    rw [hpart]
    exact List.nil_infix
  · exact hpart

variable {nodes : List Node} {obj : Node}

theorem displayable_of_shown (h : ValuesShown nam grph (fieldsKeys grph collapsed nodes)
    (rowOf nam grph collapsed (fieldsKeys grph collapsed nodes) obj).2) :
    Displayable nam grph collapsed obj := by
  have hval {t : Triple} (ht : t ∈ grph) (hs : t.subj = obj) :=
    h t ht (hs.trans (rowOf_obj nam grph collapsed _ obj).symm)
  constructor
  · intro t ht hs hlf hne hcol
    have hshown := hval ht hs hlf
    have hkey : t.prop ∉ fieldsKeys grph collapsed nodes := by
      intro hmem
      obtain ⟨⟨o, -, f, hf, heq⟩, -⟩ := mem_fieldsKeys.mp hmem
      exact (mem_fieldsSet.mp hf).2.1 (heq ▸ hcol)
    rw [Shown, if_neg hne, List.idxOf_eq_length hkey, rowOf_columns,
      List.getElem?_eq_none] at hshown
    · cases hshown
    · rw [length_foldl_addField, List.length_replicate]
  · intro t ht t' ht' hs hs' hprop hlf hlf' hne
    have hshown := hval ht hs hlf
    have hshown' := hval ht' hs' hlf'
    rw [Shown, if_neg hne] at hshown
    rw [Shown, if_neg (hprop ▸ hne), ← hprop] at hshown'
    rw [← hprop]
    exact Option.some.inj (hshown.symm.trans hshown')
  · intro hidden t ht hs hprop hlit
    have hshown := hval ht hs (.inl hlit)
    rwa [Shown, if_pos hprop, rowOf_title_of_hidden _ _ _ _ _ hidden] at hshown

/-- The line of an object shows its values exactly if it is displayable. -/
theorem shown_iff_displayable (hobj : obj ∈ nodes) :
    ValuesShown nam grph (fieldsKeys grph collapsed nodes)
      (rowOf nam grph collapsed (fieldsKeys grph collapsed nodes) obj).2 ↔
    Displayable nam grph collapsed obj := by
  refine ⟨displayable_of_shown, ?_⟩
  intro h t ht hs hlf
  rw [rowOf_obj] at hs
  have hmem (hcol : t.prop ∉ collapsed) : (t.prop, t.obj) ∈ fieldsSet grph collapsed obj :=
    mem_fieldsSet.mpr ⟨hs ▸ ht, hcol, hlf⟩
  by_cases hprop : t.prop = propertyInformation
  · rw [Shown, if_pos hprop]
    by_cases hidden : HiddenTitle nam collapsed obj
    · rw [rowOf_title_of_hidden _ _ _ _ _ hidden]
      rw [hprop, propertyInformation_not_flat] at hlf
      exact h.information hidden t ht hs hprop (by simpa using hlf)
    · rw [hprop] at hmem
      exact infix_title (hmem fun hcol => hidden (.inr hcol)) hidden
  · rw [Shown, if_neg hprop, rowOf_columns]
    have hcol := h.notCollapsed t ht hs hlf hprop
    refine getElem?_foldl_addField _ (mem_fieldsKeys.mpr ⟨⟨obj, hobj, _, hmem hcol, rfl⟩, hprop⟩)
      hprop (by simp) ?_ (.inr ⟨_, hmem hcol, rfl⟩)
    intro f hf hkey
    obtain ⟨hf, -, hlf'⟩ := mem_fieldsSet.mp hf
    exact h.single ⟨obj, f.1, f.2⟩ hf t ht rfl hs hkey hlf' hlf (hkey ▸ hprop)

/-! ## Tables -/

theorem perm_find?_eraseP {α : Type} (p : α → Bool) (l : List α) :
    l.Perm ((l.find? p).toList ++ l.eraseP p) := by
  induction l with
  | nil => exact .refl _
  | cons a l ih =>
    cases ha : p a with
    | true => simp [ha]
    | false =>
      rw [List.find?_cons_of_neg (by simp [ha]), List.eraseP_cons_of_neg (by simp [ha])]
      exact (ih.cons a).trans List.perm_middle.symm

theorem nodLst_perm {subj : Node} {prop : Property} (hprop : prop ∈ collapsed) :
    (nodLst grph collapsed (propToShortPropNam prop) subj).Perm
      (objectsOf grph subj prop ++ otherObjects grph collapsed subj prop) := by
  rw [nodLst, objectsOf, otherObjects, ← List.map_append]
  apply List.Perm.map
  have hperm := (List.filter_append_perm (fun t => t.prop = prop) (grph.filter fun t =>
    t.prop ∈ collapsed ∧ propToShortPropNam t.prop = propToShortPropNam prop ∧ t.subj = subj)).symm
  rw [List.filter_filter, List.filter_filter] at hperm
  refine hperm.trans (List.Perm.append (.of_eq ?_) (.of_eq ?_))
  · apply List.filter_congr
    intro t ht
    by_cases h : t.prop = prop <;> simp [h, hprop]
  · apply List.filter_congr
    intro t ht
    by_cases h : t.prop = prop <;> simp [h]

theorem mem_tableRows {propNam : Text} {subj : Node} {row : Row}
    (h : row ∈ tableRows nam grph collapsed propNam subj) :
    row.obj ∈ nodLst grph collapsed propNam subj ∧ row = (rowOf nam grph collapsed
      (fieldsKeys grph collapsed (nodLst grph collapsed propNam subj)) row.obj).2 := by
  rw [tableRows_eq] at h
  obtain ⟨obj, hobj, rfl⟩ := List.mem_map.mp h
  rw [rowOf_obj]
  exact ⟨List.mem_of_mem_eraseP hobj, rfl⟩

/-- If no data is lost, then the objects are displayable. -/
theorem displayable_of_noDataLost {subj : Node} {prop : Property}
    (h : NoDataLost nam grph collapsed subj prop) {obj : Node}
    (hobj : obj ∈ objectsOf grph subj prop) : Displayable nam grph collapsed obj := by
  obtain ⟨row, hrow, rfl⟩ := List.mem_map.mp (h.1.mem_iff.mpr hobj)
  have hshown := h.2 row hrow
  rw [(mem_tableRows hrow).2] at hshown
  exact displayable_of_shown hshown

/-- A script, with a documentation and comments. -/
def scriptGraph (comments : List Text) : List Triple :=
  let subj := Node.url "http://h/entity.py".toList
  let obj := Node.url "http://h/s.py".toList
  ⟨subj, makeProp "script".toList, obj⟩ ::
    ⟨obj, propertyInformation, .literal "Doc".toList⟩ ::
    comments.map fun comment => ⟨obj, makeProp "comment".toList, .literal comment⟩

/-- Every node is labelled by its address. -/
def addressNaming : Naming where
  parseEntityUriShort address := (address, [], [])
  parseEntityUri address := (address, [], [])
  valueHtml text := text

end Survol.Dot
