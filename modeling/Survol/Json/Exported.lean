import Survol.Json.Export

/-!
# What the JSON document keeps of a graph

The cache gives its own number to each node, so that the list of the nodes has no hole, and a node
keeps its information. The identifiers are rewritten addresses, and a dictionary has one value for
a key: two nodes may get one identifier, and two values of a property may become one.

## Main definitions

* `exportedNodes`, `informations`, `items`, `linkOf` — what the graph says of the document.
* `Caches` — the invariant of the loop.
* `KeepsGraph` — the document keeps the graph.
* `keepsGraph_iff` — the graphs that are kept.
-/

namespace Survol.Json

open PyText (Text)
open Dot (Property makeProp propertyInformation propToShortPropNam)

/-! ## What is exported -/

/-- The nodes of a triple. -/
def Triple.nodes (t : Triple) : List Resource :=
  match t.obj with
  | .link r => [t.subj, r]
  | .literal _ _ => [t.subj]

/-- The nodes of the triples that are exported. -/
def exportedNodes (grph : List Triple) : List Resource :=
  (grph.filter fun t => Exported t).flatMap Triple.nodes

/-- The information that a triple adds to a node. -/
def Triple.information (r : Resource) (t : Triple) : Option Text :=
  match t.obj with
  | .link _ => none
  | .literal _ value =>
    if t.subj = r ∧ t.pred = propertyInformation then some value.printed else none

/-- The item that a triple adds to the dictionary of a node. -/
def Triple.item (r : Resource) (t : Triple) : Option (Text × JsonValue) :=
  match t.obj with
  | .link _ => none
  | .literal _ value =>
    if t.subj = r ∧ t.pred ≠ propertyInformation then
      some (propToShortPropNam t.pred, value.json)
    else none

/-- The information on a node. -/
def informations (grph : List Triple) (r : Resource) : List Text :=
  (grph.filter fun t => Exported t).filterMap (Triple.information r)

/-- The items of a node. -/
def items (grph : List Triple) (r : Resource) : List (Text × JsonValue) :=
  (grph.filter fun t => Exported t).filterMap (Triple.item r)

/-- The dictionary of items that are set in order. -/
def dictOf (l : List (Text × JsonValue)) : Dict Text JsonValue :=
  l.foldl (fun d i => d.set i.1 i.2) []

section
variable (nam : Naming)

/-- The link of a triple. -/
def Triple.link? (t : Triple) : Option Link :=
  match t.obj with
  | .link r => some ⟨theSurvolUrl nam t.subj, theSurvolUrl nam r, propToShortPropNam t.pred⟩
  | .literal _ _ => none

/-- The links of the triples that are exported. -/
def exportedLinks (grph : List Triple) : List Link :=
  (grph.filter fun t => Exported t).filterMap (Triple.link? nam)

/-- The node that a graph says, with its number. -/
def nodeOf (grph : List Triple) (r : Resource) (i : ℕ) : NodeJson :=
  { NodeJson.new nam i r with
    infoList := (nam.parseEntityUri r.text).2 :: informations grph r
    infoDict := dictOf (items grph r) }

/-- What a node shows for a literal. -/
def SentNode.Shows (n : SentNode) (pred : Property) (value : LiteralValue) : Prop :=
  if pred = propertyInformation then value.printed ∈ n.survolInfoList
  else n.survolInfoDict.get? (propToShortPropNam pred) = some value.json

/-- **The document keeps the graph.** -/
structure KeepsGraph (grph : List Triple) (doc : Document) : Prop where
  noHoles : ∀ n ∈ doc.nodes, n.isSome
  ids : (doc.nodes.map (Option.map SentNode.id)).Nodup
  ends : ∀ l ∈ doc.links, (∃ n, some n ∈ doc.nodes ∧ n.id = l.source) ∧
    ∃ n, some n ∈ doc.nodes ∧ n.id = l.target
  links : doc.links = exportedLinks nam grph
  literals : ∀ t ∈ grph, scriptForJson t.subj.text = true → ∀ text value,
    t.obj = .literal text value →
      ∃ n, some n ∈ doc.nodes ∧ n.id = theSurvolUrl nam t.subj ∧ n.Shows t.pred value

/-- The information is that of an exported triple, or the class of the node; the item is that of
an exported triple, and the only one for its key. -/
def HasItem (grph : List Triple) (r : Resource) (pred : Property) (value : LiteralValue) : Prop :=
  if pred = propertyInformation then
    value.printed = (nam.parseEntityUri r.text).2 ∨ value.printed ∈ informations grph r
  else
    (propToShortPropNam pred, value.json) ∈ items grph r ∧
      ∀ v, (propToShortPropNam pred, v) ∈ items grph r → v = value.json

/-- No two nodes get one address, and every literal has its item. -/
structure Separable (grph : List Triple) : Prop where
  urls : ∀ r ∈ exportedNodes grph, ∀ r' ∈ exportedNodes grph,
    theSurvolUrl nam r = theSurvolUrl nam r' → r = r'
  literals : ∀ t ∈ grph, scriptForJson t.subj.text = true → ∀ text value,
    t.obj = .literal text value → ∃ r ∈ exportedNodes grph,
      theSurvolUrl nam r = theSurvolUrl nam t.subj ∧ HasItem nam grph r t.pred value

end

/-! ## Texts of the graph -/

theorem get?_dictOf (l : List (Text × JsonValue)) (k : Text) :
    (dictOf l).get? k = ((l.filter fun i => i.1 = k).getLast?).map Prod.snd := by
  induction l using List.reverseRecOn with
  | nil => rfl
  | append_singleton l i ih =>
    rw [dictOf] at ih ⊢
    rw [List.foldl_concat, Dict.get?_set, List.filter_append]
    by_cases h : i.1 = k
    · simp [h]
    · simpa [h] using ih

/-- A key has one value when the items agree on it. -/
theorem get?_dictOf_eq {l : List (Text × JsonValue)} {k : Text} {v : JsonValue}
    (hmem : (k, v) ∈ l) (hone : ∀ v', (k, v') ∈ l → v' = v) : (dictOf l).get? k = some v := by
  rw [get?_dictOf]
  have hmem' : (k, v) ∈ l.filter fun i => i.1 = k := List.mem_filter.mpr ⟨hmem, by simp⟩
  cases hlast : (l.filter fun i => i.1 = k).getLast? with
  | none =>
    rw [List.getLast?_eq_none_iff] at hlast
    rw [hlast] at hmem'
    cases hmem'
  | some i =>
    obtain ⟨k', v'⟩ := i
    have hmemLast := List.mem_of_getLast? hlast
    rw [List.mem_filter, decide_eq_true_eq] at hmemLast
    obtain ⟨hmemLast, rfl⟩ := hmemLast
    rw [Option.map_some, hone v' hmemLast]

/-- The value of a key is that of an item. -/
theorem mem_of_get?_dictOf {l : List (Text × JsonValue)} {k : Text} {v : JsonValue}
    (h : (dictOf l).get? k = some v) : (k, v) ∈ l := by
  rw [get?_dictOf, Option.map_eq_some_iff] at h
  obtain ⟨⟨k', v'⟩, hlast, rfl⟩ := h
  have hmem := List.mem_of_getLast? hlast
  rw [List.mem_filter, decide_eq_true_eq] at hmem
  obtain ⟨hmem, rfl⟩ := hmem
  exact hmem

theorem mem_exportedNodes_of_information {grph : List Triple} {r : Resource} {text : Text}
    (h : text ∈ informations grph r) : r ∈ exportedNodes grph := by
  rw [informations, List.mem_filterMap] at h
  obtain ⟨t, ht, h⟩ := h
  refine List.mem_flatMap.mpr ⟨t, ht, ?_⟩
  rw [Triple.information] at h
  rw [Triple.nodes]
  cases hobj : t.obj with
  | link _ => simp [hobj] at h
  | literal _ value =>
    simp only [hobj, Option.ite_none_right_eq_some] at h
    simp [h.1.1]

theorem mem_exportedNodes_of_item {grph : List Triple} {r : Resource} {i : Text × JsonValue}
    (h : i ∈ items grph r) : r ∈ exportedNodes grph := by
  rw [items, List.mem_filterMap] at h
  obtain ⟨t, ht, h⟩ := h
  refine List.mem_flatMap.mpr ⟨t, ht, ?_⟩
  rw [Triple.item] at h
  rw [Triple.nodes]
  cases hobj : t.obj with
  | link _ => simp [hobj] at h
  | literal _ value =>
    simp only [hobj, Option.ite_none_right_eq_some] at h
    simp [h.1.1]

section
variable {nam : Naming}

/-- A node that is not exported yet is a new one. -/
theorem nodeOf_of_not_mem {grph : List Triple} {r : Resource} (h : r ∉ exportedNodes grph)
    (i : ℕ) : nodeOf nam grph r i = NodeJson.new nam i r := by
  have hinfo : informations grph r = [] :=
    List.eq_nil_iff_forall_not_mem.mpr fun _ hmem => h (mem_exportedNodes_of_information hmem)
  have hitems : items grph r = [] :=
    List.eq_nil_iff_forall_not_mem.mpr fun _ hmem => h (mem_exportedNodes_of_item hmem)
  rw [nodeOf, hinfo, hitems]
  rfl

/-! ## The loop -/

/-- The cache has the nodes `N`, each with what the graph says of it, and the numbers are those
below the count, each for one node. -/
structure Caches (nam : Naming) (grph : List Triple) (N : Resource → Prop) (s : ExportState) :
    Prop where
  node : ∀ r n, s.dictNod2Json.get? r = some n → n = nodeOf nam grph r n.index
  mem : ∀ r, (s.dictNod2Json.get? r).isSome ↔ N r
  lt : ∀ r n, s.dictNod2Json.get? r = some n → n.index < s.nodeJsonNumber
  inj : ∀ r r' n n', s.dictNod2Json.get? r = some n → s.dictNod2Json.get? r' = some n' →
    n.index = n'.index → r = r'
  onto : ∀ i < s.nodeJsonNumber, ∃ r n, s.dictNod2Json.get? r = some n ∧ n.index = i
  length : s.dictNod2Json.length = s.nodeJsonNumber
  nodup : s.dictNod2Json.keys.Nodup

variable {grph : List Triple} {N : Resource → Prop} {s : ExportState} {r : Resource}

theorem caches_init : Caches nam [] (fun _ => False) .init where
  node _ _ h := nomatch h
  mem _ := by simp [ExportState.init]
  lt _ _ h := nomatch h
  inj _ _ _ _ h := nomatch h
  onto _ h := nomatch h
  length := rfl
  nodup := List.nodup_nil

/-- A node that is not in the cache is added with the next number. -/
theorem Caches.addNode (h : Caches nam grph N s) (hN : ∀ r ∈ exportedNodes grph, N r)
    (hget : s.dictNod2Json.get? r = none) :
    Caches nam grph (fun r' => N r' ∨ r' = r)
      { s with dictNod2Json := s.dictNod2Json.set r (.new nam s.nodeJsonNumber r)
               nodeJsonNumber := s.nodeJsonNumber + 1 } := by
  have hnot : ¬ N r := by
    rw [← h.mem, hget]
    simp
  have hnew : ∀ r' n, (s.dictNod2Json.set r (.new nam s.nodeJsonNumber r)).get? r' = some n →
      r = r' ∧ n = .new nam s.nodeJsonNumber r ∨ r ≠ r' ∧ s.dictNod2Json.get? r' = some n := by
    intro r' n hn
    rw [Dict.get?_set] at hn
    split at hn
    · rename_i heq
      exact .inl ⟨heq, (Option.some.inj hn).symm⟩
    · rename_i hne
      exact .inr ⟨hne, hn⟩
  constructor
  case node =>
    intro r' n hn
    rcases hnew r' n hn with ⟨rfl, rfl⟩ | ⟨-, hn⟩
    · exact (nodeOf_of_not_mem (fun hmem => hnot (hN _ hmem)) _).symm
    · exact h.node r' n hn
  case mem =>
    intro r'
    rw [Dict.get?_set]
    split
    · rename_i heq
      simp [heq]
    · rename_i hne
      rw [h.mem, or_iff_left (Ne.symm hne)]
  case lt =>
    intro r' n hn
    rcases hnew r' n hn with ⟨-, rfl⟩ | ⟨-, hn⟩
    · exact Nat.lt_succ_self _
    · exact Nat.lt_succ_of_lt (h.lt r' n hn)
  case inj =>
    intro r₁ r₂ n₁ n₂ h₁ h₂ heq
    rcases hnew r₁ n₁ h₁ with ⟨rfl, rfl⟩ | ⟨-, h₁⟩ <;>
      rcases hnew r₂ n₂ h₂ with ⟨rfl, rfl⟩ | ⟨-, h₂⟩
    · rfl
    · exact absurd heq (Nat.ne_of_gt (h.lt r₂ n₂ h₂))
    · exact absurd heq (Nat.ne_of_lt (h.lt r₁ n₁ h₁))
    · exact h.inj r₁ r₂ n₁ n₂ h₁ h₂ heq
  case onto =>
    intro i hi
    rcases Nat.lt_succ_iff_lt_or_eq.mp hi with hi | rfl
    · obtain ⟨r', n, hn, hindex⟩ := h.onto i hi
      refine ⟨r', n, ?_, hindex⟩
      rw [Dict.get?_set, if_neg]
      · exact hn
      · rintro rfl
        cases hget.symm.trans hn
    · exact ⟨r, .new nam s.nodeJsonNumber r, by simp, rfl⟩
  case length =>
    change (s.dictNod2Json.set r (.new nam s.nodeJsonNumber r)).length = s.nodeJsonNumber + 1
    rw [Dict.set_of_get?_eq_none hget, List.length_append, h.length]
    rfl
  case nodup =>
    change (s.dictNod2Json.set r (.new nam s.nodeJsonNumber r)).keys.Nodup
    rw [Dict.keys_set_of_get?_eq_none hget, ← List.concat_eq_append, List.nodup_concat]
    exact ⟨(Dict.get?_eq_none_iff _ _).mp hget, h.nodup⟩

/-- What is got from the cache, and what is left in it. -/
theorem nodeToJsonObj_spec (h : Caches nam grph N s) (hN : ∀ r ∈ exportedNodes grph, N r)
    (r : Resource) :
    Caches nam grph (fun r' => N r' ∨ r' = r) (nodeToJsonObj nam r s).2 ∧
      (nodeToJsonObj nam r s).1.survolUrl = theSurvolUrl nam r ∧
      (nodeToJsonObj nam r s).2.links = s.links ∧
      (nodeToJsonObj nam r s).2.dictNod2Json.get? r = some (nodeToJsonObj nam r s).1 := by
  rw [nodeToJsonObj]
  cases hget : s.dictNod2Json.get? r with
  | some n =>
    refine ⟨⟨h.node, fun r' => ?_, h.lt, h.inj, h.onto, h.length, h.nodup⟩, ?_, rfl, hget⟩
    · rw [h.mem]
      constructor
      · exact Or.inl
      · rintro (hr | rfl)
        · exact hr
        · exact (h.mem _).mp (by rw [hget]; rfl)
    · rw [h.node r n hget]
      rfl
  | none => exact ⟨h.addNode hN hget, rfl, rfl, by simp⟩

/-! ### One more triple -/

theorem filter_concat_exported {t : Triple} (ht : Exported t) (grph : List Triple) :
    (grph ++ [t]).filter (fun t => Exported t) = grph.filter (fun t => Exported t) ++ [t] := by
  simp [List.filter_append, ht]

theorem filter_concat_not_exported {t : Triple} (ht : ¬ Exported t) (grph : List Triple) :
    (grph ++ [t]).filter (fun t => Exported t) = grph.filter fun t => Exported t := by
  simp [List.filter_append, ht]

section
variable {t : Triple} (ht : Exported t) (grph : List Triple)
include ht

theorem exportedNodes_concat : exportedNodes (grph ++ [t]) = exportedNodes grph ++ t.nodes := by
  simp [exportedNodes, filter_concat_exported ht]

theorem informations_concat (r : Resource) :
    informations (grph ++ [t]) r = informations grph r ++ (t.information r).toList := by
  rw [informations, filter_concat_exported ht, List.filterMap_append]
  cases h : t.information r <;> simp [informations, h]

theorem items_concat (r : Resource) :
    items (grph ++ [t]) r = items grph r ++ (t.item r).toList := by
  rw [items, filter_concat_exported ht, List.filterMap_append]
  cases h : t.item r <;> simp [items, h]

theorem exportedLinks_concat :
    exportedLinks nam (grph ++ [t]) = exportedLinks nam grph ++ (t.link? nam).toList := by
  rw [exportedLinks, filter_concat_exported ht, List.filterMap_append]
  cases h : t.link? nam <;> simp [exportedLinks, h]

/-- A node that is not the subject of the literal is as before. -/
theorem nodeOf_concat {r : Resource} (h : ∀ text value, t.obj = .literal text value → t.subj ≠ r)
    (i : ℕ) : nodeOf nam (grph ++ [t]) r i = nodeOf nam grph r i := by
  have hinfo : t.information r = none := by
    rw [Triple.information]
    cases hobj : t.obj with
    | link _ => rfl
    | literal text value => simp [h text value hobj]
  have hitem : t.item r = none := by
    rw [Triple.item]
    cases hobj : t.obj with
    | link _ => rfl
    | literal text value => simp [h text value hobj]
  rw [nodeOf, informations_concat ht, items_concat ht, hinfo, hitem]
  simp [nodeOf]

/-- The subject of the literal gets it. -/
theorem nodeOf_concat_literal {text : Text} {value : LiteralValue} (h : t.obj = .literal text value)
    (i : ℕ) : nodeOf nam (grph ++ [t]) t.subj i =
      (nodeOf nam grph t.subj i).addLiteral t.pred value := by
  rw [nodeOf, informations_concat ht, items_concat ht, NodeJson.addLiteral, Triple.information,
    Triple.item, h]
  by_cases hpred : t.pred = propertyInformation
  · simp [hpred, nodeOf]
  · simp [hpred, nodeOf, dictOf]

end

theorem Caches.congr {grph' : List Triple} {N' : Resource → Prop} {links : List Link}
    (h : Caches nam grph N s) (hnode : ∀ r i, nodeOf nam grph' r i = nodeOf nam grph r i)
    (hN : ∀ r, N' r ↔ N r) : Caches nam grph' N' { s with links := links } :=
  ⟨fun r n hn => (hnode r n.index).symm ▸ h.node r n hn, fun r => (h.mem r).trans (hN r).symm,
    h.lt, h.inj, h.onto, h.length, h.nodup⟩

theorem index_addLiteral (pred : Property) (value : LiteralValue) (n : NodeJson) :
    (n.addLiteral pred value).index = n.index := by
  rw [NodeJson.addLiteral]
  split <;> rfl

/-- A literal is added to a node of the cache. -/
theorem Caches.addLiteral {t : Triple} {text : Text} {value : LiteralValue}
    {N' : Resource → Prop} (h : Caches nam grph N s) (ht : Exported t)
    (hobj : t.obj = .literal text value) (hN : ∀ r, N' r ↔ N r) :
    Caches nam (grph ++ [t]) N'
      { s with dictNod2Json := s.dictNod2Json.update t.subj (·.addLiteral t.pred value) } := by
  have hget : ∀ r n, (s.dictNod2Json.update t.subj (·.addLiteral t.pred value)).get? r = some n →
      ∃ n₀, s.dictNod2Json.get? r = some n₀ ∧ n.index = n₀.index ∧
        n = if t.subj = r then n₀.addLiteral t.pred value else n₀ := by
    intro r n hn
    rw [Dict.get?_update] at hn
    split at hn
    · rename_i heq
      obtain ⟨n₀, hn₀, rfl⟩ := Option.map_eq_some_iff.mp hn
      exact ⟨n₀, hn₀, index_addLiteral _ _ _, by rw [if_pos heq]⟩
    · rename_i hne
      exact ⟨n, hn, rfl, by rw [if_neg hne]⟩
  refine ⟨fun r n hn => ?_, fun r => ?_, fun r n hn => ?_, fun r r' n n' hn hn' heq => ?_,
    fun i hi => ?_, ?_, ?_⟩
  · obtain ⟨n₀, hn₀, hindex, rfl⟩ := hget r n hn
    rw [hindex]
    split
    · rename_i heq
      subst heq
      rw [nodeOf_concat_literal ht grph hobj, ← h.node _ n₀ hn₀]
    · rename_i hne
      rw [nodeOf_concat ht grph fun _ _ _ => hne, ← h.node r n₀ hn₀]
  · rw [hN, ← h.mem, Dict.get?_update]
    split
    · rw [Option.isSome_map]
    · rfl
  · obtain ⟨n₀, hn₀, hindex, -⟩ := hget r n hn
    exact hindex ▸ h.lt r n₀ hn₀
  · obtain ⟨n₀, hn₀, hindex, -⟩ := hget r n hn
    obtain ⟨n₁, hn₁, hindex', -⟩ := hget r' n' hn'
    exact h.inj r r' n₀ n₁ hn₀ hn₁ (hindex.symm.trans (heq.trans hindex'))
  · obtain ⟨r, n, hn, hindex⟩ := h.onto i hi
    by_cases hr : t.subj = r
    · refine ⟨r, n.addLiteral t.pred value, ?_, (index_addLiteral _ _ _).trans hindex⟩
      rw [Dict.get?_update, if_pos hr, hn]
      rfl
    · refine ⟨r, n, ?_, hindex⟩
      rw [Dict.get?_update, if_neg hr, hn]
  · rw [← h.length]
    have hkeys := congrArg List.length
      (Dict.keys_update s.dictNod2Json t.subj (·.addLiteral t.pred value))
    simpa [Dict.keys] using hkeys
  · rw [Dict.keys_update]
    exact h.nodup

/-- **The invariant of the loop**, with its links. -/
structure ExportInv (nam : Naming) (grph : List Triple) (s : ExportState) : Prop where
  caches : Caches nam grph (· ∈ exportedNodes grph) s
  links : s.links = exportedLinks nam grph

theorem ExportInv.exportTriple {t : Triple} (h : ExportInv nam grph s) (ht : Exported t) :
    ExportInv nam (grph ++ [t]) (exportTriple nam s t) := by
  obtain ⟨h₁, hurl₁, hlinks₁, -⟩ := nodeToJsonObj_spec h.caches (fun _ hr => hr) t.subj
  have hnodes : ∀ r, r ∈ exportedNodes (grph ++ [t]) ↔ r ∈ exportedNodes grph ∨ r ∈ t.nodes := by
    intro r
    rw [exportedNodes_concat ht, List.mem_append]
  unfold Json.exportTriple
  dsimp only
  cases hobj : t.obj with
  | link obj =>
    obtain ⟨h₂, hurl₂, hlinks₂, -⟩ := nodeToJsonObj_spec h₁ (fun _ hr => .inl hr) obj
    refine ⟨h₂.congr (fun r i => ?_) fun r => ?_, ?_⟩
    · refine nodeOf_concat ht grph (fun text value hlit => ?_) i
      rw [hobj] at hlit
      cases hlit
    · rw [hnodes, Triple.nodes, hobj]
      simp [or_assoc]
    · rw [exportedLinks_concat ht, Triple.link?, hobj, ← h.links]
      dsimp only
      rw [hlinks₂, hlinks₁, hurl₁, hurl₂]
      rfl
  | literal text value =>
    refine ⟨h₁.addLiteral ht hobj fun r => ?_, ?_⟩
    · rw [hnodes, Triple.nodes, hobj]
      simp
    · rw [exportedLinks_concat ht, Triple.link?, hobj, ← h.links, ← hlinks₁]
      simp

/-- **The loop keeps its invariant.** -/
theorem exportInv (nam : Naming) (grph : List Triple) :
    ExportInv nam grph (exportState nam grph) := by
  induction grph using List.reverseRecOn with
  | nil =>
    refine ⟨caches_init.congr (fun _ _ => rfl) fun r => ?_, rfl⟩
    simp [exportedNodes]
  | append_singleton grph t ih =>
    rw [exportState, List.foldl_concat]
    split
    · rename_i ht
      exact ih.exportTriple ht
    · rename_i ht
      have hfilter := filter_concat_not_exported ht grph
      have hnode : ∀ r i, nodeOf nam (grph ++ [t]) r i = nodeOf nam grph r i := by
        intro r i
        rw [nodeOf, nodeOf, informations, informations, items, items, hfilter]
      refine ⟨ih.caches.congr hnode fun r => ?_, ?_⟩
      · rw [exportedNodes, exportedNodes, hfilter]
      · rw [exportedLinks, hfilter]
        exact ih.links

/-! ## The document -/

section
variable {α : Type} {f : NodeJson → α}

theorem length_setNodes (l : List (Resource × NodeJson)) (nodes : List (Option α)) :
    (l.foldl (fun nodes e => nodes.set e.2.index (some (f e.2))) nodes).length = nodes.length := by
  induction l generalizing nodes with
  | nil => rfl
  | cons e l ih => rw [List.foldl_cons, ih, List.length_set]

/-- Each node is put at its index. -/
theorem getElem?_setNodes {l : List (Resource × NodeJson)} {nodes : List (Option α)}
    (hinj : ∀ e ∈ l, ∀ e' ∈ l, e.2.index = e'.2.index → e = e') {e : Resource × NodeJson}
    (he : e ∈ l) (hlt : e.2.index < nodes.length) :
    (l.foldl (fun nodes e => nodes.set e.2.index (some (f e.2))) nodes)[e.2.index]? =
      some (some (f e.2)) := by
  induction l using List.reverseRecOn with
  | nil => cases he
  | append_singleton l e' ih =>
    rw [List.foldl_concat, List.getElem?_set, length_setNodes]
    by_cases heq : e'.2.index = e.2.index
    · have hsame := hinj e' (by simp) e he heq
      rw [if_pos heq, if_pos (heq ▸ hlt), hsame]
    · rw [if_neg heq]
      refine ih (fun e₁ h₁ e₂ h₂ => hinj e₁ (by simp [h₁]) e₂ (by simp [h₂])) ?_
      rcases List.mem_append.mp he with he | he
      · exact he
      · rw [List.mem_singleton] at he
        exact absurd (he ▸ rfl) heq

end

section
variable (nam : Naming) (pageTitle : Text) (grph : List Triple)

/-- A node of the cache is at its index. -/
theorem getElem?_nodes {r : Resource} {n : NodeJson}
    (h : (exportState nam grph).dictNod2Json.get? r = some n) :
    (grph2Json nam pageTitle grph).nodes[n.index]? = some (some (n.sent nam)) := by
  have hinv := (exportInv nam grph).caches
  refine getElem?_setNodes (f := NodeJson.sent nam) (fun e he e' he' heq => ?_)
    (e := (r, n)) (Dict.mem_of_get?_eq_some h) ?_
  · have hr := hinv.inj e.1 e'.1 e.2 e'.2 (Dict.get?_of_mem hinv.nodup he)
      (Dict.get?_of_mem hinv.nodup he') heq
    have hn := (Dict.get?_of_mem hinv.nodup he).symm.trans
      (hr ▸ Dict.get?_of_mem hinv.nodup he')
    exact Prod.ext hr (Option.some.inj hn)
  · rw [List.length_replicate, hinv.length]
    exact hinv.lt r n h

/-- Each index has a node of the cache. -/
theorem exists_node {i : ℕ} (hi : i < (grph2Json nam pageTitle grph).nodes.length) :
    ∃ r n, (exportState nam grph).dictNod2Json.get? r = some n ∧ n.index = i := by
  have hinv := (exportInv nam grph).caches
  refine hinv.onto i ?_
  rw [← hinv.length]
  rw [grph2Json] at hi
  dsimp only at hi
  rw [length_setNodes, List.length_replicate] at hi
  exact hi

/-- The nodes of the document are those of the cache. -/
theorem mem_nodes_iff {m : Option SentNode} : m ∈ (grph2Json nam pageTitle grph).nodes ↔
    ∃ r n, (exportState nam grph).dictNod2Json.get? r = some n ∧ m = some (n.sent nam) := by
  constructor
  · intro h
    obtain ⟨i, hi⟩ := List.mem_iff_getElem?.mp h
    obtain ⟨r, n, hn, rfl⟩ := exists_node nam pageTitle grph (List.getElem?_eq_some_iff.mp hi).1
    rw [getElem?_nodes nam pageTitle grph hn] at hi
    exact ⟨r, n, hn, (Option.some.inj hi).symm⟩
  · rintro ⟨r, n, hn, rfl⟩
    exact List.mem_of_getElem? (getElem?_nodes nam pageTitle grph hn)

/-- An exported node has its object. -/
theorem exists_of_mem_exportedNodes {r : Resource} (hr : r ∈ exportedNodes grph) :
    ∃ n, (exportState nam grph).dictNod2Json.get? r = some n :=
  Option.isSome_iff_exists.mp (((exportInv nam grph).caches.mem r).mpr hr)

theorem mem_exportedNodes_of_get? {r : Resource} {n : NodeJson}
    (h : (exportState nam grph).dictNod2Json.get? r = some n) : r ∈ exportedNodes grph :=
  ((exportInv nam grph).caches.mem r).mp (by rw [h]; rfl)

/-- What the document says of a node. -/
theorem sent_eq {r : Resource} {n : NodeJson}
    (h : (exportState nam grph).dictNod2Json.get? r = some n) :
    (n.sent nam).id = theSurvolUrl nam r ∧
      (n.sent nam).survolInfoList = (nam.parseEntityUri r.text).2 :: informations grph r ∧
      (n.sent nam).survolInfoDict = dictOf (items grph r) := by
  rw [(exportInv nam grph).caches.node r n h]
  exact ⟨rfl, rfl, rfl⟩

/-- The identifiers are distinct when the addresses are. -/
theorem nodup_ids_iff :
    ((grph2Json nam pageTitle grph).nodes.map (Option.map SentNode.id)).Nodup ↔
      ∀ r ∈ exportedNodes grph, ∀ r' ∈ exportedNodes grph,
        theSurvolUrl nam r = theSurvolUrl nam r' → r = r' := by
  have hid : ∀ {r n}, (exportState nam grph).dictNod2Json.get? r = some n →
      ((grph2Json nam pageTitle grph).nodes.map (Option.map SentNode.id))[n.index]? =
        some (some (theSurvolUrl nam r)) := by
    intro r n hn
    rw [List.getElem?_map, getElem?_nodes nam pageTitle grph hn, Option.map_some, Option.map_some,
      (sent_eq nam grph hn).1]
  constructor
  · intro hnodup r hr r' hr' hurl
    obtain ⟨n, hn⟩ := exists_of_mem_exportedNodes nam grph hr
    obtain ⟨n', hn'⟩ := exists_of_mem_exportedNodes nam grph hr'
    refine (exportInv nam grph).caches.inj r r' n n' hn hn' ?_
    refine (List.getElem?_inj (List.getElem?_eq_some_iff.mp (hid hn)).1 hnodup).mp ?_
    rw [hid hn, hid hn', hurl]
  · intro hinj
    rw [List.nodup_iff_getElem?_ne_getElem?]
    intro i j hij hj heq
    rw [List.length_map] at hj
    obtain ⟨r, n, hn, rfl⟩ := exists_node nam pageTitle grph (hij.trans hj)
    obtain ⟨r', n', hn', rfl⟩ := exists_node nam pageTitle grph hj
    rw [hid hn, hid hn', Option.some.injEq, Option.some.injEq] at heq
    obtain rfl := hinj r (mem_exportedNodes_of_get? nam grph hn) r'
      (mem_exportedNodes_of_get? nam grph hn') heq
    cases hn.symm.trans hn'
    exact absurd hij (lt_irrefl _)

/-- The document has a node for each exported node. -/
theorem exists_sent {r : Resource} (hr : r ∈ exportedNodes grph) :
    ∃ n, some n ∈ (grph2Json nam pageTitle grph).nodes ∧ n.id = theSurvolUrl nam r := by
  obtain ⟨n, hn⟩ := exists_of_mem_exportedNodes nam grph hr
  exact ⟨n.sent nam, (mem_nodes_iff nam pageTitle grph).mpr ⟨r, n, hn, rfl⟩,
    (sent_eq nam grph hn).1⟩

/-- Every link is between two nodes of the document. -/
theorem ends_of_mem_links {l : Link} (h : l ∈ (grph2Json nam pageTitle grph).links) :
    (∃ n, some n ∈ (grph2Json nam pageTitle grph).nodes ∧ n.id = l.source) ∧
      ∃ n, some n ∈ (grph2Json nam pageTitle grph).nodes ∧ n.id = l.target := by
  have hlinks : (grph2Json nam pageTitle grph).links = exportedLinks nam grph :=
    (exportInv nam grph).links
  rw [hlinks, exportedLinks, List.mem_filterMap] at h
  obtain ⟨t, ht, hl⟩ := h
  rw [Triple.link?] at hl
  cases hobj : t.obj with
  | literal _ _ =>
    rw [hobj] at hl
    cases hl
  | link r =>
    rw [hobj] at hl
    cases hl
    have hmem : ∀ r' ∈ t.nodes, r' ∈ exportedNodes grph := fun r' hr' =>
      List.mem_flatMap.mpr ⟨t, ht, hr'⟩
    constructor
    · exact exists_sent nam pageTitle grph (hmem _ (by simp [Triple.nodes, hobj]))
    · exact exists_sent nam pageTitle grph (hmem _ (by simp [Triple.nodes, hobj]))

/-- A literal that has its item is shown. -/
theorem shows_of_hasItem {r : Resource} {pred : Property} {value : LiteralValue}
    (hr : r ∈ exportedNodes grph) (h : HasItem nam grph r pred value) :
    ∃ n, some n ∈ (grph2Json nam pageTitle grph).nodes ∧ n.id = theSurvolUrl nam r ∧
      n.Shows pred value := by
  obtain ⟨n, hn⟩ := exists_of_mem_exportedNodes nam grph hr
  obtain ⟨hid, hlist, hdict⟩ := sent_eq nam grph hn
  refine ⟨n.sent nam, (mem_nodes_iff nam pageTitle grph).mpr ⟨r, n, hn, rfl⟩, hid, ?_⟩
  rw [SentNode.Shows, hlist, hdict]
  rw [HasItem] at h
  split
  · rename_i hpred
    rw [if_pos hpred] at h
    rw [List.mem_cons]
    exact h
  · rename_i hpred
    rw [if_neg hpred] at h
    exact get?_dictOf_eq h.1 h.2

/-- An item of a node comes from a literal. -/
theorem exists_of_mem_items {r : Resource} {k : Text} {v : JsonValue} (h : (k, v) ∈ items grph r) :
    ∃ t ∈ grph, Exported t ∧ t.subj = r ∧ t.pred ≠ propertyInformation ∧
      propToShortPropNam t.pred = k ∧ ∃ text value, t.obj = .literal text value ∧
        value.json = v := by
  rw [items, List.mem_filterMap] at h
  obtain ⟨t, ht, h⟩ := h
  rw [List.mem_filter, decide_eq_true_eq] at ht
  rw [Triple.item] at h
  cases hobj : t.obj with
  | link _ =>
    rw [hobj] at h
    cases h
  | literal text value =>
    simp only [hobj, Option.ite_none_right_eq_some, Option.some.injEq, Prod.mk.injEq] at h
    exact ⟨t, ht.1, ht.2, h.1.1, h.1.2, h.2.1, text, value, hobj, h.2.2⟩

/-- A document that keeps the graph is that of a separable graph. -/
theorem separable_of_keepsGraph (h : KeepsGraph nam grph (grph2Json nam pageTitle grph)) :
    Separable nam grph := by
  have hurls := (nodup_ids_iff nam pageTitle grph).mp h.ids
  have hshown : ∀ t ∈ grph, scriptForJson t.subj.text = true → ∀ text value,
      t.obj = .literal text value → ∃ r n, (exportState nam grph).dictNod2Json.get? r = some n ∧
        theSurvolUrl nam r = theSurvolUrl nam t.subj ∧ (n.sent nam).Shows t.pred value := by
    intro t ht hscript text value hobj
    obtain ⟨m, hm, hid, hshows⟩ := h.literals t ht hscript text value hobj
    obtain ⟨r, n, hn, heq⟩ := (mem_nodes_iff nam pageTitle grph).mp hm
    cases heq
    exact ⟨r, n, hn, (sent_eq nam grph hn).1.symm.trans hid, hshows⟩
  refine ⟨hurls, fun t ht hscript text value hobj => ?_⟩
  obtain ⟨r, n, hn, hurl, hshows⟩ := hshown t ht hscript text value hobj
  have hr := mem_exportedNodes_of_get? nam grph hn
  obtain ⟨-, hlist, hdict⟩ := sent_eq nam grph hn
  refine ⟨r, hr, hurl, ?_⟩
  rw [SentNode.Shows, hlist, hdict] at hshows
  rw [HasItem]
  split
  · rename_i hpred
    rw [if_pos hpred, List.mem_cons] at hshows
    exact hshows
  · rename_i hpred
    rw [if_neg hpred] at hshows
    refine ⟨mem_of_get?_dictOf hshows, fun v hv => ?_⟩
    -- the literal of another item is shown by the same node
    obtain ⟨t', ht', hexported, hsubj, hpred', hshort, text', value', hobj', rfl⟩ :=
      exists_of_mem_items grph hv
    obtain ⟨r', n', hn', hurl', hshows'⟩ := hshown t' ht' hexported.2.1 text' value' hobj'
    obtain rfl := hurls r' (mem_exportedNodes_of_get? nam grph hn') r hr
      (hurl'.trans (by rw [hsubj]))
    rw [SentNode.Shows, if_neg hpred', (sent_eq nam grph hn').2.2, hshort] at hshows'
    exact Option.some.inj (hshows'.symm.trans hshows)

end

/-- **The document keeps a graph when no two nodes get one address, and each literal has its
item.** -/
theorem keepsGraph_iff (nam : Naming) (pageTitle : Text) (grph : List Triple) :
    KeepsGraph nam grph (grph2Json nam pageTitle grph) ↔ Separable nam grph := by
  refine ⟨separable_of_keepsGraph nam pageTitle grph, fun h => ?_⟩
  refine ⟨fun m hm => ?_, (nodup_ids_iff nam pageTitle grph).mpr h.urls, fun l hl => ?_,
    (exportInv nam grph).links, fun t ht hscript text value hobj => ?_⟩
  · obtain ⟨r, n, -, rfl⟩ := (mem_nodes_iff nam pageTitle grph).mp hm
    rfl
  · exact ends_of_mem_links nam pageTitle grph hl
  · obtain ⟨r, hr, hurl, hitem⟩ := h.literals t ht hscript text value hobj
    obtain ⟨n, hn, hid, hshows⟩ := shows_of_hasItem nam pageTitle grph hr hitem
    exact ⟨n, hn, hid.trans hurl, hshows⟩

/-! ## A property with two values -/

/-- Names that are the addresses themselves. -/
def plainNaming : Naming where
  parseEntityUri uri := (uri, [])
  color _ := "#FFFFFF".toList
  universalAlias uri := uri
  unescape text := text

/-- A user of a process. -/
def userTriple (user : String) : Triple where
  subj := .uriRef "http://localhost/process".toList
  pred := makeProp "user".toList
  obj := .literal user.toList (.str user.toList)

/-- Of the two values of a property, the last one is kept. -/
theorem not_forall_keepsGraph : ¬ ∀ (nam : Naming) (pageTitle : Text) (grph : List Triple),
    KeepsGraph nam grph (grph2Json nam pageTitle grph) := by
  intro h
  have hsep := separable_of_keepsGraph _ _ _
    (h plainNaming [] [userTriple "root", userTriple "guest"])
  obtain ⟨r, hr, -, hitem⟩ := hsep.literals (userTriple "root") List.mem_cons_self (by decide)
    "root".toList (.str "root".toList) rfl
  have hnodes : exportedNodes [userTriple "root", userTriple "guest"] =
      [(userTriple "root").subj, (userTriple "root").subj] := by decide
  rw [hnodes, List.mem_pair, or_self] at hr
  subst hr
  have hitems : items [userTriple "root", userTriple "guest"] (userTriple "root").subj =
      [("user".toList, .str "root".toList), ("user".toList, .str "guest".toList)] := by decide
  rw [HasItem, if_neg (by decide), hitems] at hitem
  have hguest := hitem.2 (.str "guest".toList) (by decide)
  revert hguest
  decide

end

end Survol.Json
