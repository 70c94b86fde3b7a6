import Survol.Dot.Edges

/-!
# The ends of the edges

The name of a node that is in no table is drawn. The name of a line is drawn when the line is not
the one that the header takes the place of. But the edge to a table starts from the plain name of
its node when the node is in the table of another property, and this name is not drawn; and a
connection of a node with itself has no edge.

## Main definitions

* `parentsOf`, `placeOf` — the tables of a node, and the one that it is found in.
* `Kept`, `Precedes`, `Connected` — when the edges have their ends.
* `wellDrawn_iff` — when a graph is drawn as it should be.
-/

namespace Survol.Dot

open PyText (Text isDigit_of_mem_toDigits)

/-! ## Texts of names -/

/-- The parts before and after the last occurrence of a character. -/
theorem append_cons_inj {c : Char} {a a' b b' : Text} (hb : c ∉ b) (hb' : c ∉ b')
    (h : a ++ c :: b = a' ++ c :: b') : a = a' ∧ b = b' := by
  have hrev := congrArg List.reverse h
  simp only [List.reverse_append, List.reverse_cons, List.append_assoc, List.cons_append,
    List.nil_append] at hrev
  have htake : ∀ {s t : Text}, c ∉ s → (s.reverse ++ c :: t).takeWhile (· ≠ c) = s.reverse := by
    intro s t hs
    rw [List.takeWhile_append_of_pos]
    · simp
    · intro d hd
      simp only [decide_eq_true_eq, ne_eq]
      rintro rfl
      exact hs (List.mem_reverse.mp hd)
  have hbs : b.reverse = b'.reverse := by
    rw [← htake hb, hrev, htake hb']
  have hb'' : b = b' := List.reverse_injective hbs
  subst hb''
  have hrest := List.append_cancel_left hrev
  rw [List.cons.injEq] at hrest
  exact ⟨List.reverse_injective hrest.2, rfl⟩

theorem underscore_not_mem (n : ℕ) : '_' ∉ Nat.toDigits 10 n := by
  intro hmem
  have hd := isDigit_of_mem_toDigits hmem
  revert hd
  decide

section
variable {grph : List Triple} {collapsed : List Property} {nam : Naming} {x y : Node}

theorem not_mem_label {c : Char} (hc : c ∉ "nd_".toList) (hd : c.isDigit = false) :
    c ∉ rdfNodeToDotLabel grph collapsed x := by
  rw [rdfNodeToDotLabel, List.mem_append, not_or]
  refine ⟨hc, fun h => ?_⟩
  rw [isDigit_of_mem_toDigits h] at hd
  cases hd

/-- Nodes that have a name have their own. -/
theorem label_injective (hx : x ∈ dictRdf2Dot grph collapsed)
    (h : rdfNodeToDotLabel grph collapsed x = rdfNodeToDotLabel grph collapsed y) : x = y := by
  have hrank := toDigits_injective (List.append_cancel_left h)
  exact (List.idxOf_inj hx).mp hrank

theorem withPort_injective {table table' : Text}
    (h : withPort table (rdfNodeToDotLabel grph collapsed x) =
      withPort table' (rdfNodeToDotLabel grph collapsed y)) :
    table = table' ∧ rdfNodeToDotLabel grph collapsed x = rdfNodeToDotLabel grph collapsed y :=
  append_cons_inj (not_mem_label (by decide) (by decide)) (not_mem_label (by decide) (by decide)) h

theorem collapsedLabel_injective {p q : Text}
    (h : collapsedLabel p (rdfNodeToDotLabel grph collapsed x) =
      collapsedLabel q (rdfNodeToDotLabel grph collapsed y)) :
    p = q ∧ rdfNodeToDotLabel grph collapsed x = rdfNodeToDotLabel grph collapsed y := by
  have hsplit : ∀ (p : Text) (x : Node), collapsedLabel p (rdfNodeToDotLabel grph collapsed x) =
      ("R_".toList ++ p ++ "_nd".toList) ++ '_' ::
        Nat.toDigits 10 ((dictRdf2Dot grph collapsed).idxOf x) := by
    intro p x
    simp [collapsedLabel, rdfNodeToDotLabel]
  rw [hsplit, hsplit] at h
  obtain ⟨hleft, hright⟩ := append_cons_inj (underscore_not_mem _) (underscore_not_mem _) h
  refine ⟨?_, by rw [rdfNodeToDotLabel, hright, rdfNodeToDotLabel]⟩
  exact List.append_cancel_left (List.append_cancel_right hleft)

/-- A plain name is not the name of a table, nor of a line. -/
theorem label_ne_append (p s : Text) :
    rdfNodeToDotLabel grph collapsed x ≠ "R_".toList ++ p ++ s := by
  intro h
  have hhead := congrArg List.head? h
  revert hhead
  simp [rdfNodeToDotLabel]

theorem label_ne_collapsedLabel (p s : Text) :
    rdfNodeToDotLabel grph collapsed x ≠ collapsedLabel p s := label_ne_append p _

theorem label_ne_withPort (p s port : Text) :
    rdfNodeToDotLabel grph collapsed x ≠ withPort (collapsedLabel p s) port := by
  rw [withPort, collapsedLabel, List.append_assoc]
  exact label_ne_append p _

/-- The name of a line is not that of a table. -/
theorem withPort_ne_collapsedLabel {p q : Text} {z : Node} :
    withPort (collapsedLabel p (rdfNodeToDotLabel grph collapsed x))
      (rdfNodeToDotLabel grph collapsed y) ≠
        collapsedLabel q (rdfNodeToDotLabel grph collapsed z) := by
  intro h
  have hl : withPort (collapsedLabel p (rdfNodeToDotLabel grph collapsed x))
      (rdfNodeToDotLabel grph collapsed y) =
        (collapsedLabel p (rdfNodeToDotLabel grph collapsed x) ++ ":nd".toList) ++ '_' ::
          Nat.toDigits 10 ((dictRdf2Dot grph collapsed).idxOf y) := by
    simp [withPort, rdfNodeToDotLabel]
  have hr : collapsedLabel q (rdfNodeToDotLabel grph collapsed z) =
      ("R_".toList ++ q ++ "_nd".toList) ++ '_' ::
        Nat.toDigits 10 ((dictRdf2Dot grph collapsed).idxOf z) := by
    simp [collapsedLabel, rdfNodeToDotLabel]
  rw [hl, hr] at h
  have hleft := (append_cons_inj (underscore_not_mem _) (underscore_not_mem _) h).1
  have hlast := congrArg (fun s => s.reverse[2]?) hleft
  revert hlast
  simp

end

/-! ## The tables of a node -/

section
variable (grph : List Triple) (collapsed : List Property) (nam : Naming)

/-- The subjects of a node, by the short name of the collapsed property. -/
def parentsOf (x : Node) : Dict Text Node :=
  grph.foldl (fun d t => if t.prop ∈ collapsed ∧ t.obj = x then
    d.set (propToShortPropNam t.prop) t.subj else d) []

/-- The table that a node is found in: that of the property, else the first one. -/
def placeOf (x : Node) (prop : Option Property) : Option (Text × Node) :=
  (prop.bind fun p => ((parentsOf grph collapsed x).get? (propToShortPropNam p)).map fun subj =>
    (propToShortPropNam p, subj)).or (parentsOf grph collapsed x).head?

/-- The line of a node is kept: it is not the first one without a title. -/
def Kept (x : Node) (prop : Option Property) : Prop :=
  ∀ propNam subj, placeOf grph collapsed x prop = some (propNam, subj) →
    x ∈ (nodLst grph collapsed propNam subj).eraseP (unlabelled nam grph collapsed)

/-- The name of the subject comes before that of the object. -/
def Precedes (t : Triple) : Prop :=
  rdfNodeToDotLabelExtended grph collapsed t.subj none <
    rdfNodeToDotLabelExtended grph collapsed t.obj (some t.prop)

/-- When each link has its edge, and each edge its ends. -/
structure Connected : Prop where
  alone : ∀ t, IsLink grph collapsed t → ¬ Mutual grph collapsed t →
    t.prop = propertySocketEnd → t.reverse ∈ grph → Precedes grph collapsed t
  pair : ∀ t, IsLink grph collapsed t → Mutual grph collapsed t →
    (Precedes grph collapsed t ↔ ¬ Precedes grph collapsed t.reverse)
  links : ∀ t, IsLink grph collapsed t →
    (t.prop = propertySocketEnd → t.reverse ∈ grph → Precedes grph collapsed t) →
      Kept grph collapsed nam t.subj none ∧ Kept grph collapsed nam t.obj (some t.prop)
  tables : ∀ p ∈ collapsed, ∀ subj ∈ collapsedSubjects grph collapsed (propToShortPropNam p),
    match (parentsOf grph collapsed subj).get? (propToShortPropNam p) with
    | some parent => subj ∈ (nodLst grph collapsed (propToShortPropNam p) parent).eraseP
        (unlabelled nam grph collapsed)
    | none => parentsOf grph collapsed subj = []

end

/-- The names of the subjects, for any names of the nodes. -/
def subjectLabels (collapsed : List Property) (label : Node → Text) (grph : List Triple) :
    Dict Text (Dict Text Text) :=
  grph.foldl (fun d t =>
    if t.prop ∈ collapsed then
      d.set (label t.obj) (((d.get? (label t.obj)).getD []).set (propToShortPropNam t.prop)
        (label t.subj))
    else d) []

/-- The two dictionaries agree, for names that are not shared. -/
theorem get?_subjectLabels (collapsed : List Property) {label : Node → Text} {x : Node}
    (hx : ∀ y, label x = label y → x = y) (grph : List Triple) :
    (subjectLabels collapsed label grph).get? (label x) =
      if parentsOf grph collapsed x = [] then none
      else some ((parentsOf grph collapsed x).mapVals label) := by
  induction grph using List.reverseRecOn with
  | nil => rfl
  | append_singleton grph t ih =>
    have hparents : parentsOf (grph ++ [t]) collapsed x =
        if t.prop ∈ collapsed ∧ t.obj = x then
          (parentsOf grph collapsed x).set (propToShortPropNam t.prop) t.subj
        else parentsOf grph collapsed x := by
      rw [parentsOf, List.foldl_concat]
      rfl
    rw [subjectLabels, List.foldl_concat, ← subjectLabels]
    by_cases hprop : t.prop ∈ collapsed
    · rw [if_pos hprop, Dict.get?_set]
      by_cases hobj : t.obj = x
      · have hset : (parentsOf grph collapsed x).set (propToShortPropNam t.prop) t.subj ≠ [] := by
          intro hnil
          have hget := Dict.get?_set (parentsOf grph collapsed x) (propToShortPropNam t.prop)
            t.subj (propToShortPropNam t.prop)
          rw [hnil, if_pos rfl] at hget
          cases hget
        subst hobj
        rw [if_pos ⟨hprop, rfl⟩] at hparents
        rw [hparents, if_neg hset, if_pos rfl, ih, Dict.mapVals_set]
        split
        · rename_i hnil
          rw [hnil]
          rfl
        · rfl
      · rw [if_neg fun h => hobj h.2] at hparents
        rw [hparents, if_neg fun h => hobj (hx _ h.symm).symm, ih]
    · rw [if_neg fun h => hprop h.1] at hparents
      rw [hparents, if_neg hprop, ih]

/-- The keys are names of objects. -/
theorem exists_of_mem_keys_subjectLabels (collapsed : List Property) {label : Node → Text}
    (grph : List Triple) {k : Text} (h : k ∈ (subjectLabels collapsed label grph).keys) :
    ∃ x, k = label x := by
  induction grph using List.reverseRecOn with
  | nil => cases h
  | append_singleton grph t ih =>
    rw [subjectLabels, List.foldl_concat, ← subjectLabels] at h
    split at h
    · rcases (Dict.mem_keys_set _ _ _ _).mp h with hk | hk
      · exact ⟨t.obj, hk⟩
      · exact ih hk
    · exact ih h

section
variable {grph : List Triple} {collapsed : List Property} {nam : Naming} {x : Node}

theorem get?_collapsedLabels (hx : x ∈ dictRdf2Dot grph collapsed) :
    (dictCollapsedObjectLabelsToSubjectLabels grph collapsed).get?
        (rdfNodeToDotLabel grph collapsed x) =
      if parentsOf grph collapsed x = [] then none
      else some ((parentsOf grph collapsed x).mapVals (rdfNodeToDotLabel grph collapsed)) :=
  get?_subjectLabels collapsed (fun _ => label_injective hx) grph

theorem label_mem_keys_iff (hx : x ∈ dictRdf2Dot grph collapsed) :
    rdfNodeToDotLabel grph collapsed x ∈
        (dictCollapsedObjectLabelsToSubjectLabels grph collapsed).keys ↔
      parentsOf grph collapsed x ≠ [] := by
  rw [← Dict.get?_isSome_iff, get?_collapsedLabels hx]
  split
  · rename_i hnil
    simp [hnil]
  · rename_i hne
    simpa using hne

/-- The name of a node, by the table that it is found in. -/
theorem extended_eq (hx : x ∈ dictRdf2Dot grph collapsed) (prop : Option Property) :
    rdfNodeToDotLabelExtended grph collapsed x prop =
      match placeOf grph collapsed x prop with
      | none => rdfNodeToDotLabel grph collapsed x
      | some (propNam, subj) =>
        withPort (collapsedLabel propNam (rdfNodeToDotLabel grph collapsed subj))
          (rdfNodeToDotLabel grph collapsed x) := by
  rw [rdfNodeToDotLabelExtended, placeOf]
  dsimp only
  rw [get?_collapsedLabels hx]
  by_cases hnil : parentsOf grph collapsed x = []
  · rw [if_pos hnil, hnil]
    cases prop <;> rfl
  · rw [if_neg hnil]
    dsimp only
    have hfound : ∀ p, ((Dict.mapVals (rdfNodeToDotLabel grph collapsed)
          (parentsOf grph collapsed x)).get? p).map (fun s => (p, s)) =
        (((parentsOf grph collapsed x).get? p).map fun s => (p, s)).map fun e =>
          (e.1, rdfNodeToDotLabel grph collapsed e.2) := by
      intro p
      rw [Dict.get?_mapVals, Option.map_map, Option.map_map]
      rfl
    have hhead : (Dict.mapVals (rdfNodeToDotLabel grph collapsed)
          (parentsOf grph collapsed x)).head? =
        (parentsOf grph collapsed x).head?.map fun e =>
          (e.1, rdfNodeToDotLabel grph collapsed e.2) := by
      rw [Dict.mapVals, List.head?_map]
    rw [hhead]
    cases prop with
    | none =>
      rw [Option.bind_none, Option.bind_none, Option.none_or, Option.none_or]
      cases (parentsOf grph collapsed x).head? <;> rfl
    | some p =>
      rw [Option.bind_some, Option.bind_some, hfound]
      cases (parentsOf grph collapsed x).get? (propToShortPropNam p) with
      | some s => rfl
      | none => cases (parentsOf grph collapsed x).head? <;> rfl

/-- A table of a node is that of a subject, for a collapsed property. -/
theorem exists_of_mem_parentsOf {p : Text} {subj : Node}
    (h : (p, subj) ∈ parentsOf grph collapsed x) :
    ∃ t ∈ grph, t.prop ∈ collapsed ∧ t.obj = x ∧ propToShortPropNam t.prop = p ∧
      t.subj = subj := by
  induction grph using List.reverseRecOn with
  | nil => cases h
  | append_singleton grph t ih =>
    rw [parentsOf, List.foldl_concat, ← parentsOf] at h
    split at h
    · rename_i ht
      rcases Dict.mem_of_mem_set h with heq | hold
      · cases heq
        exact ⟨t, by simp, ht.1, ht.2, rfl, rfl⟩
      · obtain ⟨t', ht', hrest⟩ := ih hold
        exact ⟨t', by simp [ht'], hrest⟩
    · obtain ⟨t', ht', hrest⟩ := ih h
      exact ⟨t', by simp [ht'], hrest⟩

theorem mem_collapsedSubjects {p : Text} {subj : Node} :
    subj ∈ collapsedSubjects grph collapsed p ↔
      ∃ t ∈ grph, t.prop ∈ collapsed ∧ propToShortPropNam t.prop = p ∧ t.subj = subj := by
  rw [collapsedSubjects, List.mem_eraseDups, List.mem_map]
  constructor
  · rintro ⟨t, ht, hsubj⟩
    rw [List.mem_filter, decide_eq_true_eq] at ht
    exact ⟨t, ht.1, ht.2.1, ht.2.2, hsubj⟩
  · rintro ⟨t, ht, hprop, hshort, hsubj⟩
    exact ⟨t, List.mem_filter.mpr ⟨ht, by simp [hprop, hshort]⟩, hsubj⟩

/-- The ends of a triple of a collapsed property have a name. -/
theorem mem_dictRdf2Dot_of_collapsed {t : Triple} (ht : t ∈ grph) (hprop : t.prop ∈ collapsed) :
    t.subj ∈ dictRdf2Dot grph collapsed ∧ t.obj ∈ dictRdf2Dot grph collapsed := by
  have hmem : ∀ y ∈ firstPassNodes collapsed t, y ∈ dictRdf2Dot grph collapsed := fun y hy =>
    List.mem_eraseDups.mpr (List.mem_append_left _ (List.mem_flatMap.mpr ⟨t, ht, hy⟩))
  rw [firstPassNodes, if_pos hprop] at hmem
  exact ⟨hmem _ (by simp), hmem _ (by simp)⟩

/-- The ends of a link have a name. -/
theorem mem_dictRdf2Dot_of_link {t : Triple} (ht : IsLink grph collapsed t) :
    t.subj ∈ dictRdf2Dot grph collapsed ∧ t.obj ∈ dictRdf2Dot grph collapsed := by
  obtain ⟨hmem, hprop, hflat, hobj⟩ := ht
  have hnamed : ∀ y ∈ secondPassNodes collapsed t, y ∈ dictRdf2Dot grph collapsed := fun y hy =>
    List.mem_eraseDups.mpr (List.mem_append_right _ (List.mem_flatMap.mpr ⟨t, hmem, hy⟩))
  rw [secondPassNodes, if_neg hprop, hflat, hobj] at hnamed
  exact ⟨hnamed _ (by simp), hnamed _ (by simp)⟩

theorem mem_dictRdf2Dot_of_collapsedSubject {p : Text}
    (h : x ∈ collapsedSubjects grph collapsed p) : x ∈ dictRdf2Dot grph collapsed := by
  obtain ⟨t, ht, hprop, -, rfl⟩ := mem_collapsedSubjects.mp h
  exact (mem_dictRdf2Dot_of_collapsed ht hprop).1

/-! ## Names that refer to what is drawn -/

/-- The plain name of a node is drawn when the node is in no table. -/
theorem refers_label_iff (hx : x ∈ dictRdf2Dot grph collapsed) :
    Refers grph collapsed nam (rdfNodeToDotLabel grph collapsed x) ↔
      parentsOf grph collapsed x = [] := by
  have hdrawn : rdfNodeToDotLabel grph collapsed x ∈ drawnNodes grph collapsed ↔
      parentsOf grph collapsed x = [] := by
    rw [drawnNodes, List.mem_filter, decide_eq_true_eq, label_mem_keys_iff hx, not_not]
    exact and_iff_right (List.mem_map_of_mem hx)
  rw [Refers, hdrawn, or_iff_left]
  rintro ⟨table, htable, h⟩
  obtain ⟨p, -, htable⟩ := List.mem_flatMap.mp htable
  obtain ⟨subj, -, rfl⟩ := List.mem_map.mp htable
  rcases h with h | ⟨port, -, h⟩
  · exact label_ne_collapsedLabel _ _ h
  · exact label_ne_withPort _ _ _ h

/-- The table of a subject is drawn. -/
theorem tableOf_mem {p : Text} {subj : Node} (h : subj ∈ collapsedSubjects grph collapsed p) :
    tableOf grph collapsed nam p subj ∈ tables grph collapsed nam := by
  obtain ⟨t, -, hprop, rfl, -⟩ := mem_collapsedSubjects.mp h
  exact List.mem_flatMap.mpr ⟨t.prop, hprop, List.mem_map_of_mem h⟩

/-- The name of a line is drawn when the line is kept. -/
theorem refers_line_iff (hx : x ∈ dictRdf2Dot grph collapsed) {p : Text} {subj : Node}
    (hsubj : subj ∈ collapsedSubjects grph collapsed p) :
    Refers grph collapsed nam (withPort
        (collapsedLabel p (rdfNodeToDotLabel grph collapsed subj))
        (rdfNodeToDotLabel grph collapsed x)) ↔
      x ∈ (nodLst grph collapsed p subj).eraseP (unlabelled nam grph collapsed) := by
  have hrows : ∀ y, (∃ row ∈ tableRows nam grph collapsed p subj, row.obj = y) ↔
      y ∈ (nodLst grph collapsed p subj).eraseP (unlabelled nam grph collapsed) := by
    intro y
    rw [tableRows_eq]
    simp [rowOf_obj]
  rw [← hrows]
  constructor
  · rintro (h | ⟨table, htable, h⟩)
    · rw [drawnNodes, List.mem_filter, List.mem_map] at h
      obtain ⟨⟨y, -, h⟩, -⟩ := h
      exact absurd h (label_ne_withPort _ _ _)
    · obtain ⟨q, -, htable⟩ := List.mem_flatMap.mp htable
      obtain ⟨subj', -, rfl⟩ := List.mem_map.mp htable
      rcases h with h | ⟨port, hport, h⟩
      · exact absurd h withPort_ne_collapsedLabel
      · obtain ⟨row, hrow, rfl⟩ := List.mem_map.mp hport
        obtain ⟨htable, hlabel⟩ := withPort_injective h
        obtain ⟨hq, hlabel'⟩ := collapsedLabel_injective htable
        obtain rfl := label_injective (mem_dictRdf2Dot_of_collapsedSubject hsubj) hlabel'
        obtain rfl := label_injective hx hlabel
        exact ⟨row, hq ▸ hrow, rfl⟩
  · rintro ⟨row, hrow, rfl⟩
    exact .inr ⟨_, tableOf_mem hsubj, .inr ⟨_, List.mem_map_of_mem hrow, rfl⟩⟩

/-- The table that a node is found in is one of its tables. -/
theorem mem_parentsOf_of_placeOf {prop : Option Property} {p : Text} {subj : Node}
    (h : placeOf grph collapsed x prop = some (p, subj)) :
    (p, subj) ∈ parentsOf grph collapsed x := by
  rw [placeOf, Option.or_eq_some_iff] at h
  rcases h with h | ⟨-, h⟩
  · obtain ⟨q, -, h⟩ := Option.bind_eq_some_iff.mp h
    obtain ⟨s, hs, h⟩ := Option.map_eq_some_iff.mp h
    cases h
    exact Dict.mem_of_get?_eq_some hs
  · exact List.mem_of_head? h

theorem placeOf_eq_none_iff {prop : Option Property} :
    placeOf grph collapsed x prop = none ↔ parentsOf grph collapsed x = [] := by
  constructor
  · intro h
    rw [placeOf, Option.or_eq_none_iff] at h
    exact List.head?_eq_none_iff.mp h.2
  · intro h
    rw [placeOf, h]
    cases prop <;> rfl

/-- **The name of a node refers to what is drawn when its line is kept.** -/
theorem refers_extended_iff (hx : x ∈ dictRdf2Dot grph collapsed) (prop : Option Property) :
    Refers grph collapsed nam (rdfNodeToDotLabelExtended grph collapsed x prop) ↔
      Kept grph collapsed nam x prop := by
  rw [extended_eq hx]
  cases hplace : placeOf grph collapsed x prop with
  | none =>
    dsimp only
    rw [refers_label_iff hx, ← @placeOf_eq_none_iff _ _ _ prop]
    refine iff_of_true hplace fun p subj h => ?_
    rw [hplace] at h
    cases h
  | some place =>
    obtain ⟨p, subj⟩ := place
    obtain ⟨t, ht, hprop, -, hshort, hsubj⟩ :=
      exists_of_mem_parentsOf (mem_parentsOf_of_placeOf hplace)
    dsimp only
    rw [refers_line_iff hx (mem_collapsedSubjects.mpr ⟨t, ht, hprop, hshort, hsubj⟩), Kept]
    simp [hplace]

/-! ## The edges of the links -/

/-- The name of a node with its table is not the name of an object. -/
theorem subjNamFromCollapsed_extended (hx : x ∈ dictRdf2Dot grph collapsed) (p : Text) :
    subjNamFromCollapsed grph collapsed p (rdfNodeToDotLabelExtended grph collapsed x none) =
      none := by
  have hnone : (dictCollapsedObjectLabelsToSubjectLabels grph collapsed).get?
      (rdfNodeToDotLabelExtended grph collapsed x none) = none := by
    rw [extended_eq hx]
    cases hplace : placeOf grph collapsed x none with
    | none =>
      dsimp only
      rw [get?_collapsedLabels hx, if_pos (placeOf_eq_none_iff.mp hplace)]
    | some place =>
      rw [Dict.get?_eq_none_iff]
      intro hmem
      obtain ⟨y, hy⟩ := exists_of_mem_keys_subjectLabels collapsed grph hmem
      exact label_ne_withPort _ _ _ hy.symm
  rw [subjNamFromCollapsed, hnone, Option.bind_none]

/-- The edge of a link, where its two ends are not the other way round. -/
def Drawn (grph : List Triple) (collapsed : List Property) (t : Triple) : Prop :=
  t.prop = propertySocketEnd → t.reverse ∈ grph → Precedes grph collapsed t

theorem not_isFlat_propertySocketEnd : isFlatProperty propertySocketEnd = false :=
  isFlatProperty_makeProp (by decide) (by decide) (by decide)

/-- **The edges of a link**: one, unless it is left to the link in the other direction. -/
theorem linkEdges_eq {t : Triple} (ht : IsLink grph collapsed t) :
    (Drawn grph collapsed t ∧ linkEdges grph collapsed t =
        [⟨rdfNodeToDotLabelExtended grph collapsed t.subj none,
          rdfNodeToDotLabelExtended grph collapsed t.obj (some t.prop),
          decide (t.prop = propertySocketEnd ∧ t.reverse ∈ grph)⟩]) ∨
      ¬ Drawn grph collapsed t ∧ linkEdges grph collapsed t = [] := by
  have hnot : ¬ (t.prop ∈ collapsed ∨ t.obj.isLiteral) := by
    rw [not_or, ht.2.2.2]
    exact ⟨ht.2.1, by simp⟩
  rw [linkEdges, if_neg hnot, Drawn, Precedes]
  by_cases hprop : t.prop = propertySocketEnd
  · simp only [hprop, if_true, true_and, forall_const]
    by_cases hrev : t.reverse ∈ grph
    · simp only [hrev, if_true, forall_const]
      by_cases hlt : rdfNodeToDotLabelExtended grph collapsed t.subj none <
          rdfNodeToDotLabelExtended grph collapsed t.obj (some propertySocketEnd)
      · exact .inl ⟨hlt, by simp [hlt]⟩
      · exact .inr ⟨hlt, by simp [hlt]⟩
    · exact .inl ⟨fun h => absurd h hrev, by simp [hrev]⟩
  · refine .inl ⟨fun h => absurd h hprop, ?_⟩
    simp only [hprop, if_false, false_and, decide_false, ht.2.2.1, Bool.false_eq_true,
      subjNamFromCollapsed_extended (mem_dictRdf2Dot_of_link ht).1, Option.getD_none]

/-- Only links have edges. -/
theorem isLink_of_mem_linkEdges {t : Triple} (ht : t ∈ grph) {e : Edge}
    (h : e ∈ linkEdges grph collapsed t) : IsLink grph collapsed t := by
  rw [linkEdges] at h
  split at h
  · cases h
  · rename_i hnot
    rw [not_or, Bool.not_eq_true] at hnot
    refine ⟨ht, hnot.1, ?_, hnot.2⟩
    dsimp only at h
    split at h
    · rename_i hprop
      rw [hprop]
      exact not_isFlat_propertySocketEnd
    · split at h
      · cases h
      · rename_i hflat
        exact Bool.eq_false_iff.mpr hflat

/-- The edge from a node to its table. -/
theorem refers_tableEdge_iff {p : Text} (hx : x ∈ collapsedSubjects grph collapsed p) :
    Refers grph collapsed nam ((subjNamFromCollapsed grph collapsed p
        (rdfNodeToDotLabel grph collapsed x)).getD (rdfNodeToDotLabel grph collapsed x)) ↔
      match (parentsOf grph collapsed x).get? p with
      | some parent => x ∈ (nodLst grph collapsed p parent).eraseP (unlabelled nam grph collapsed)
      | none => parentsOf grph collapsed x = [] := by
  have hnamed := mem_dictRdf2Dot_of_collapsedSubject hx
  rw [subjNamFromCollapsed, get?_collapsedLabels hnamed]
  by_cases hnil : parentsOf grph collapsed x = []
  · rw [if_pos hnil, hnil]
    simp only [Option.bind_none, Option.getD_none, Dict.get?_nil, refers_label_iff hnamed, hnil]
  · rw [if_neg hnil, Option.bind_some, Dict.get?_mapVals]
    cases hget : (parentsOf grph collapsed x).get? p with
    | none => simp only [Option.map_none, Option.getD_none, refers_label_iff hnamed]
    | some parent =>
      obtain ⟨t, ht, hprop, -, hshort, hsubj⟩ :=
        exists_of_mem_parentsOf (Dict.mem_of_get?_eq_some hget)
      simp only [Option.map_some, Option.getD_some]
      exact refers_line_iff hnamed (mem_collapsedSubjects.mpr ⟨t, ht, hprop, hshort, hsubj⟩)

/-- The ends of the edges, by the links and the tables. -/
theorem ends_iff : (∀ e ∈ edges grph collapsed, Refers grph collapsed nam e.source ∧
      Refers grph collapsed nam e.target) ↔
    (∀ t, IsLink grph collapsed t → Drawn grph collapsed t →
        Kept grph collapsed nam t.subj none ∧ Kept grph collapsed nam t.obj (some t.prop)) ∧
      ∀ p ∈ collapsed, ∀ subj ∈ collapsedSubjects grph collapsed (propToShortPropNam p),
        match (parentsOf grph collapsed subj).get? (propToShortPropNam p) with
        | some parent => subj ∈ (nodLst grph collapsed (propToShortPropNam p) parent).eraseP
            (unlabelled nam grph collapsed)
        | none => parentsOf grph collapsed subj = [] := by
  have hlink : ∀ t, IsLink grph collapsed t → Drawn grph collapsed t →
      ((∀ e ∈ linkEdges grph collapsed t, Refers grph collapsed nam e.source ∧
        Refers grph collapsed nam e.target) ↔
          Kept grph collapsed nam t.subj none ∧ Kept grph collapsed nam t.obj (some t.prop)) := by
    intro t ht hdrawn
    obtain ⟨hsubj, hobj⟩ := mem_dictRdf2Dot_of_link ht
    rcases linkEdges_eq ht with ⟨-, heq⟩ | ⟨hnot, -⟩
    · rw [heq]
      simp only [List.mem_singleton, forall_eq, refers_extended_iff hsubj,
        refers_extended_iff hobj]
    · exact absurd hdrawn hnot
  constructor
  · intro h
    refine ⟨fun t ht hdrawn => (hlink t ht hdrawn).mp fun e he => h e ?_, fun p hp subj hs => ?_⟩
    · exact List.mem_append_left _ (List.mem_flatMap.mpr ⟨t, ht.1, he⟩)
    · have hedge := h _ (List.mem_append_right _
        (List.mem_flatMap.mpr ⟨p, hp, List.mem_map_of_mem hs⟩))
      exact (refers_tableEdge_iff hs).mp hedge.1
  · rintro ⟨hlinks, htables⟩ e he
    rcases List.mem_append.mp he with he | he
    · obtain ⟨t, ht, he⟩ := List.mem_flatMap.mp he
      have hisLink := isLink_of_mem_linkEdges ht he
      rcases linkEdges_eq hisLink with ⟨hdrawn, -⟩ | ⟨-, hnil⟩
      · exact (hlink t hisLink hdrawn).mpr (hlinks t hisLink hdrawn) e he
      · rw [hnil] at he
        cases he
    · obtain ⟨p, hp, he⟩ := List.mem_flatMap.mp he
      obtain ⟨subj, hs, rfl⟩ := List.mem_map.mp he
      refine ⟨(refers_tableEdge_iff hs).mpr (htables p hp subj hs), .inr ⟨_, tableOf_mem hs, ?_⟩⟩
      exact .inl rfl

/-- A link has exactly one edge when it is not left to the other one. -/
theorem exists_linkEdges_iff {t : Triple} (ht : IsLink grph collapsed t) :
    (∃ e, linkEdges grph collapsed t = [e]) ↔ Drawn grph collapsed t := by
  rcases linkEdges_eq ht with ⟨hdrawn, heq⟩ | ⟨hnot, hnil⟩
  · exact iff_of_true ⟨_, heq⟩ hdrawn
  · refine iff_of_false ?_ hnot
    rintro ⟨e, he⟩
    rw [hnil] at he
    cases he

/-- The two links of a connection have one edge when their names are compared one way only. -/
theorem pair_iff {t : Triple} (ht : IsLink grph collapsed t) (hm : Mutual grph collapsed t) :
    (∃ e : Edge, e.biDir = true ∧
        linkEdges grph collapsed t ++ linkEdges grph collapsed t.reverse = [e]) ↔
      (Precedes grph collapsed t ↔ ¬ Precedes grph collapsed t.reverse) := by
  obtain ⟨hprop, hrev, -⟩ := hm
  have hdrawn : Drawn grph collapsed t ↔ Precedes grph collapsed t :=
    ⟨fun h => h hprop hrev.1, fun h _ _ => h⟩
  have hdrawn' : Drawn grph collapsed t.reverse ↔ Precedes grph collapsed t.reverse :=
    ⟨fun h => h hprop ht.1, fun h _ _ => h⟩
  have hboth : t.prop = propertySocketEnd ∧ t.reverse ∈ grph := ⟨hprop, hrev.1⟩
  have hboth' : t.reverse.prop = propertySocketEnd ∧ t.reverse.reverse ∈ grph := ⟨hprop, ht.1⟩
  rcases linkEdges_eq ht with ⟨h, heq⟩ | ⟨h, heq⟩ <;>
    rcases linkEdges_eq hrev with ⟨h', heq'⟩ | ⟨h', heq'⟩ <;> rw [heq, heq']
  · refine iff_of_false ?_ fun hiff => hiff.mp (hdrawn.mp h) (hdrawn'.mp h')
    rintro ⟨e, -, he⟩
    cases he
  · refine iff_of_true ⟨_, decide_eq_true hboth, rfl⟩ ?_
    exact iff_of_true (hdrawn.mp h) fun hp => h' (hdrawn'.mpr hp)
  · refine iff_of_true ⟨_, decide_eq_true hboth', rfl⟩ ?_
    exact iff_of_false (fun hp => h (hdrawn.mpr hp)) fun hn => hn (hdrawn'.mp h')
  · refine iff_of_false ?_ fun hiff => h (hdrawn.mpr (hiff.mpr fun hp => h' (hdrawn'.mpr hp)))
    rintro ⟨e, -, he⟩
    cases he

/-- The tables of a well drawn graph. -/
theorem tables_of_wellDrawn (h : WellDrawn grph collapsed nam) :
    ∀ p ∈ collapsed, ∀ subj ∈ collapsedSubjects grph collapsed (propToShortPropNam p),
      match (parentsOf grph collapsed subj).get? (propToShortPropNam p) with
      | some parent => subj ∈ (nodLst grph collapsed (propToShortPropNam p) parent).eraseP
          (unlabelled nam grph collapsed)
      | none => parentsOf grph collapsed subj = [] := (ends_iff.mp h.ends).2

end

/-- **When each link has its edge, and each edge its ends.** -/
theorem wellDrawn_iff (grph : List Triple) (collapsed : List Property) (nam : Naming) :
    WellDrawn grph collapsed nam ↔ Connected grph collapsed nam := by
  constructor
  · intro h
    obtain ⟨hlinks, htables⟩ := ends_iff.mp h.ends
    exact ⟨fun t ht hm => (exists_linkEdges_iff ht).mp (h.alone t ht hm),
      fun t ht hm => (pair_iff ht hm).mp (h.pair t ht hm), hlinks, htables⟩
  · intro h
    exact ⟨fun t ht hm => (exists_linkEdges_iff ht).mpr (h.alone t ht hm),
      fun t ht hm => (pair_iff ht hm).mpr (h.pair t ht hm), ends_iff.mpr ⟨h.links, h.tables⟩⟩

section
variable {grph : List Triple} {collapsed : List Property} {t : Triple} {x y : Node}

/-- Two nodes do not share a name, in whatever tables they are found. -/
theorem extended_injective (hx : x ∈ dictRdf2Dot grph collapsed)
    (hy : y ∈ dictRdf2Dot grph collapsed) {prop : Option Property}
    (h : rdfNodeToDotLabelExtended grph collapsed x prop =
      rdfNodeToDotLabelExtended grph collapsed y prop) : x = y := by
  rw [extended_eq hx, extended_eq hy] at h
  cases hplace : placeOf grph collapsed x prop with
  | none =>
    cases hplace' : placeOf grph collapsed y prop with
    | none =>
      rw [hplace, hplace'] at h
      exact label_injective hx h
    | some place' =>
      rw [hplace, hplace'] at h
      exact absurd h (label_ne_withPort _ _ _)
  | some place =>
    cases hplace' : placeOf grph collapsed y prop with
    | none =>
      rw [hplace, hplace'] at h
      exact absurd h.symm (label_ne_withPort _ _ _)
    | some place' =>
      rw [hplace, hplace'] at h
      exact label_injective hx (withPort_injective h).2

/-- A property that gives its name to no table is not looked for. -/
theorem extended_of_no_table {prop : Property}
    (h : ∀ p ∈ collapsed, propToShortPropNam p ≠ propToShortPropNam prop)
    (hx : x ∈ dictRdf2Dot grph collapsed) :
    rdfNodeToDotLabelExtended grph collapsed x (some prop) =
      rdfNodeToDotLabelExtended grph collapsed x none := by
  have hget : (parentsOf grph collapsed x).get? (propToShortPropNam prop) = none := by
    cases hget : (parentsOf grph collapsed x).get? (propToShortPropNam prop) with
    | none => rfl
    | some subj =>
      obtain ⟨t, -, hprop, -, hshort, -⟩ := exists_of_mem_parentsOf (Dict.mem_of_get?_eq_some hget)
      exact absurd hshort (h _ hprop)
  rw [extended_eq hx, extended_eq hx, placeOf, placeOf, Option.bind_some, hget]
  rfl

/-- The two links of a connection are compared one way only, when no table is named by it. -/
theorem precedes_iff_of_no_table
    (h : ∀ p ∈ collapsed, propToShortPropNam p ≠ propToShortPropNam propertySocketEnd)
    (ht : IsLink grph collapsed t) (hm : Mutual grph collapsed t) :
    Precedes grph collapsed t ↔ ¬ Precedes grph collapsed t.reverse := by
  obtain ⟨hsubj, hobj⟩ := mem_dictRdf2Dot_of_link ht
  have hne : rdfNodeToDotLabelExtended grph collapsed t.subj none ≠
      rdfNodeToDotLabelExtended grph collapsed t.obj none := by
    intro heq
    refine hm.2.2 ?_
    have hsame := extended_injective hsubj hobj heq
    rw [Triple.reverse, ← hsame]
    cases t
    cases hsame
    rfl
  have hprop : t.reverse.prop = propertySocketEnd := hm.1
  rw [Precedes, Precedes, hm.1, hprop, extended_of_no_table h hobj]
  change _ ↔ ¬ rdfNodeToDotLabelExtended grph collapsed t.obj none <
    rdfNodeToDotLabelExtended grph collapsed t.subj (some propertySocketEnd)
  rw [extended_of_no_table h hsubj]
  constructor
  · exact fun hlt => List.lt_asymm hlt
  · intro hnot
    by_contra hnot'
    exact hne (List.le_antisymm hnot hnot')

/-- A connection of a node with itself has no edge then. -/
theorem not_precedes_of_reverse_eq
    (h : ∀ p ∈ collapsed, propToShortPropNam p ≠ propToShortPropNam propertySocketEnd)
    (ht : IsLink grph collapsed t) (hprop : t.prop = propertySocketEnd) (hself : t.reverse = t) :
    ¬ Precedes grph collapsed t := by
  have hsame : t.obj = t.subj := congrArg Triple.subj hself
  rw [Precedes, hsame, hprop, extended_of_no_table h (mem_dictRdf2Dot_of_link ht).1]
  exact List.lt_irrefl _

end

/-! ## A table in a table -/

/-- The properties that are collapsed for an entity. -/
def entityProperties : List Property := [makeProp "directory".toList, makeProp "script".toList]

/-- A directory. -/
def topDirectory : Node := .url "http://localhost/survol/entity.py?xid=CIM_Directory.Name=/".toList

/-- A directory in the first one. -/
def nestedDirectory : Node :=
  .url "http://localhost/survol/entity.py?xid=CIM_Directory.Name=/a".toList

/-- The second directory has a script. -/
def nestedGraph : List Triple :=
  [⟨topDirectory, makeProp "directory".toList, nestedDirectory⟩,
    ⟨nestedDirectory, makeProp "script".toList,
      .url "http://localhost/survol/sources_types/CIM_Directory/dir_stat.py".toList⟩]

/-- The edge to the second table starts from a node that is not drawn. -/
theorem not_forall_wellDrawn : ¬ ∀ (grph : List Triple) (collapsed : List Property) (nam : Naming),
    WellDrawn grph collapsed nam := by
  intro h
  have hscript := tables_of_wellDrawn (h nestedGraph entityProperties addressNaming)
    (makeProp "script".toList) (by decide) nestedDirectory
    (mem_collapsedSubjects.mpr ⟨nestedGraph[1], by decide, by decide, by decide, by decide⟩)
  have hparents : parentsOf nestedGraph entityProperties nestedDirectory =
      [("directory".toList, topDirectory)] := by decide
  have hget : (parentsOf nestedGraph entityProperties nestedDirectory).get?
      (propToShortPropNam (makeProp "script".toList)) = none := by
    rw [hparents]
    decide
  rw [hget, hparents] at hscript
  cases hscript

end Survol.Dot
