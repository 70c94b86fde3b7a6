import Survol.Lib.Chain
import Survol.Lib.Dict
import Survol.Lib.Text
import Mathlib.Data.List.Perm.Basic
import Mathlib.Data.List.Dedup

/-!
# Identical nodes

An object has several URLs when it is seen from several servers. The nodes of one object have one
alias, and are chained with links, so that they are displayed together.

## Main definitions

* `bindIdenticalNodes` — a graph with the links between the nodes of each alias.
* `BindsIdentical` — the links, and what they do to the graph.

## Main results

* `bindsIdentical` — the nodes of each alias are chained, for every order of iteration.
-/

namespace Survol.Uris

open PyText (Text contains)

/-! ## Graphs -/

/-- A node of a graph. -/
inductive GraphNode
  | uriRef (text : Text)
  | bNode (text : Text)
  | literal (text : Text)
  deriving DecidableEq

/-- The text of a node. -/
def GraphNode.text : GraphNode → Text
  | .uriRef text => text
  | .bNode text => text
  | .literal text => text

/-- The node is a literal. -/
def isLiteral : GraphNode → Bool
  | .literal _ => true
  | _ => false

/-- A triple of a graph. -/
structure GraphTriple where
  subj : GraphNode
  pred : GraphNode
  obj : GraphNode
  deriving DecidableEq

/-- A graph: its triples, in the order in which they are read. -/
structure Graph where
  triples : List GraphTriple
  nodup : triples.Nodup

/-- A graph with one more triple, unless it is there. -/
def Graph.add (g : Graph) (t : GraphTriple) : Graph :=
  if h : t ∈ g.triples then g
  else ⟨g.triples.concat t, g.nodup.concat h⟩

/-- The property between two nodes of one object. -/
def propertyAlias : GraphNode := .uriRef "http://primhillcomputers.com/ontologies/alias".toList

/-! ## The links -/

/-- A node with the URL of an object. -/
def hasUnivAlias (anObject : GraphNode) : Bool :=
  !isLiteral anObject && (contains anObject.text "entity.py".toList ||
    contains anObject.text "entity_wbem.py".toList || contains anObject.text "entity_wmi.py".toList)

/-- The nodes of each alias, with one more. -/
def prepareBinding (univAlias : GraphNode → Text) (dictUniToObjs : Dict Text (List GraphNode))
    (anObject : GraphNode) : Dict Text (List GraphNode) :=
  if !hasUnivAlias anObject then dictUniToObjs
  else
    let uniDescr := univAlias anObject
    match dictUniToObjs.get? uniDescr with
    | some nodes => dictUniToObjs.set uniDescr (nodes.insert anObject)
    | none => dictUniToObjs.set uniDescr [anObject]

/-- The nodes of each alias. -/
def uniToObjs (univAlias : GraphNode → Text) (g : Graph) : Dict Text (List GraphNode) :=
  g.triples.foldl (fun d t => prepareBinding univAlias (prepareBinding univAlias d t.subj) t.obj) []

/-- One step of the chain, from the node that comes before. -/
def linkNode (s : Option GraphNode × Graph) (otherNode : GraphNode) : Option GraphNode × Graph :=
  (some otherNode, match s.1 with
    | some nodePrevious =>
      if nodePrevious.text ≠ [] then s.2.add ⟨nodePrevious, propertyAlias, otherNode⟩ else s.2
    | none => s.2)

/-- The orders in which aliases and sets of nodes are read. -/
structure ReadingOrder where
  aliases : List Text → List Text
  nodes : List GraphNode → List GraphNode
  aliases_perm : ∀ l, (aliases l).Perm l
  nodes_perm : ∀ l, (nodes l).Perm l

/-- The nodes of each alias are linked. -/
def bindIdenticalNodes (univAlias : GraphNode → Text) (O : ReadingOrder) (g : Graph) : Graph :=
  let dictUniToObjs := uniToObjs univAlias g
  (O.aliases dictUniToObjs.keys).foldl (fun g anUniDescr =>
    let relatedNodes := (dictUniToObjs.get? anUniDescr).getD []
    if relatedNodes.length < 2 then g else ((O.nodes relatedNodes).foldl linkNode (none, g)).2) g

/-! ## The links of a graph -/

/-- The ends of the triples. -/
def Graph.nodes (g : Graph) : List GraphNode := g.triples.flatMap fun t => [t.subj, t.obj]

/-- The object nodes with an alias. -/
def aliasNodes (univAlias : GraphNode → Text) (g : Graph) (a : Text) : List GraphNode :=
  (g.nodes.filter fun n => hasUnivAlias n && univAlias n = a).dedup

/-- The triples that are new, from the nodes of an alias. -/
def newTriples (univAlias : GraphNode → Text) (g g' : Graph) (a : Text) : List GraphTriple :=
  g'.triples.filter fun t => t ∉ g.triples ∧ univAlias t.subj = a

/-- For each alias, the new links are one fewer than its nodes. -/
def CountsNew (univAlias : GraphNode → Text) (g g' : Graph) : Prop :=
  ∀ a, (newTriples univAlias g g' a).length = (aliasNodes univAlias g a).length - 1

/-- **Some links bind the nodes of each alias**: between two of its nodes, one fewer than these, and
connecting them. They are added to the graph, and nothing else. -/
structure BindsIdentical (univAlias : GraphNode → Text) (g g' : Graph)
    (links : Text → List GraphTriple) : Prop where
  between : ∀ a, ∀ t ∈ links a, ∃ m n, t = ⟨m, propertyAlias, n⟩ ∧ m ≠ n ∧
    m ∈ aliasNodes univAlias g a ∧ n ∈ aliasNodes univAlias g a
  count : ∀ a, (links a).Nodup ∧ (links a).length = (aliasNodes univAlias g a).length - 1
  connected : ∀ a, ∀ m ∈ aliasNodes univAlias g a, ∀ n ∈ aliasNodes univAlias g a,
    Relation.EqvGen (fun x y => ⟨x, propertyAlias, y⟩ ∈ links a) m n
  result : ∀ t, t ∈ g'.triples ↔ t ∈ g.triples ∨ ∃ a, t ∈ links a
  new : ∀ a, (newTriples univAlias g g' a).Perm ((links a).filter fun t => t ∉ g.triples)

/-! ## The nodes of an alias -/

@[simp] theorem Graph.mem_add {g : Graph} {t u : GraphTriple} :
    u ∈ (g.add t).triples ↔ u ∈ g.triples ∨ u = t := by
  rw [Graph.add]
  split
  · rename_i h
    refine ⟨Or.inl, ?_⟩
    rintro (hu | rfl)
    · exact hu
    · exact h
  · change u ∈ g.triples.concat t ↔ _
    rw [List.concat_eq_append, List.mem_append, List.mem_singleton]

theorem mem_aliasNodes {univAlias : GraphNode → Text} {g : Graph} {a : Text} {n : GraphNode} :
    n ∈ aliasNodes univAlias g a ↔
      n ∈ g.nodes ∧ hasUnivAlias n = true ∧ univAlias n = a := by
  rw [aliasNodes, List.mem_dedup, List.mem_filter, Bool.and_eq_true, decide_eq_true_eq]

/-- The dictionary has the nodes of some list, each under its alias. -/
structure Gathered (univAlias : GraphNode → Text) (d : Dict Text (List GraphNode))
    (seen : List GraphNode) : Prop where
  mem : ∀ a n, n ∈ (d.get? a).getD [] ↔ n ∈ seen ∧ hasUnivAlias n = true ∧ univAlias n = a
  nodup : ∀ a, ((d.get? a).getD []).Nodup

/-- The nodes of an alias, in a dictionary. -/
theorem get?_prepareBinding {univAlias : GraphNode → Text} (d : Dict Text (List GraphNode))
    {n : GraphNode} (hn : hasUnivAlias n = true) (a : Text) :
    ((prepareBinding univAlias d n).get? a).getD [] =
      if univAlias n = a then ((d.get? a).getD []).insert n else (d.get? a).getD [] := by
  rw [prepareBinding, hn, if_neg (by decide)]
  dsimp only
  by_cases ha : univAlias n = a
  · subst ha
    cases d.get? (univAlias n) with
    | none => simp
    | some nodes => simp
  · cases h : d.get? (univAlias n) with
    | none => simp [ha]
    | some nodes => simp [ha]

theorem Gathered.prepareBinding {univAlias : GraphNode → Text} {d : Dict Text (List GraphNode)}
    {seen : List GraphNode} (G : Gathered univAlias d seen) (n : GraphNode) :
    Gathered univAlias (prepareBinding univAlias d n) (seen ++ [n]) := by
  by_cases hn : hasUnivAlias n = true
  · refine ⟨fun a m => ?_, fun a => ?_⟩
    · rw [get?_prepareBinding d hn]
      split
      · rename_i ha
        rw [List.mem_insert_iff, G.mem, List.mem_append, List.mem_singleton]
        constructor
        · rintro (rfl | ⟨hm, h⟩)
          · exact ⟨Or.inr rfl, hn, ha⟩
          · exact ⟨Or.inl hm, h⟩
        · rintro ⟨hm | rfl, h⟩
          · exact Or.inr ⟨hm, h⟩
          · exact Or.inl rfl
      · rename_i ha
        rw [G.mem, List.mem_append, List.mem_singleton]
        constructor
        · rintro ⟨hm, h⟩
          exact ⟨Or.inl hm, h⟩
        · rintro ⟨hm | rfl, h⟩
          · exact ⟨hm, h⟩
          · exact absurd h.2 ha
    · rw [get?_prepareBinding d hn]
      split
      · exact (G.nodup a).insert
      · exact G.nodup a
  · have hsame : Uris.prepareBinding univAlias d n = d := by
      rw [Uris.prepareBinding, Bool.eq_false_iff.mpr hn]
      rfl
    rw [hsame]
    refine ⟨fun a m => ?_, G.nodup⟩
    rw [G.mem, List.mem_append, List.mem_singleton]
    constructor
    · rintro ⟨hm, h⟩
      exact ⟨Or.inl hm, h⟩
    · rintro ⟨hm | rfl, h⟩
      · exact ⟨hm, h⟩
      · exact absurd h.1 hn

theorem gathered_uniToObjs (univAlias : GraphNode → Text) (g : Graph) :
    Gathered univAlias (uniToObjs univAlias g) g.nodes := by
  have key : ∀ (ts : List GraphTriple) (d : Dict Text (List GraphNode)) (seen : List GraphNode),
      Gathered univAlias d seen → Gathered univAlias
        (ts.foldl (fun d t => prepareBinding univAlias (prepareBinding univAlias d t.subj) t.obj) d)
        (seen ++ ts.flatMap fun t => [t.subj, t.obj]) := by
    intro ts
    induction ts with
    | nil =>
      intro d seen G
      rwa [List.flatMap_nil, List.append_nil]
    | cons t ts ih =>
      intro d seen G
      have := ih _ _ ((G.prepareBinding t.subj).prepareBinding t.obj)
      rwa [List.append_assoc, List.append_assoc] at this
  exact key g.triples [] [] ⟨by simp, by simp⟩

/-! ## The chain -/

/-- The links between the nodes of a list. -/
def chainLinks (nodes : List GraphNode) : List GraphTriple :=
  (Chain.links nodes).map fun p => ⟨p.1, propertyAlias, p.2⟩

theorem text_ne_nil {n : GraphNode} (h : hasUnivAlias n = true) : n.text ≠ [] := by
  intro hnil
  rw [hasUnivAlias, hnil] at h
  revert h
  cases isLiteral n <;> decide

theorem mem_foldl_linkNode {nodes : List GraphNode} {p : GraphNode}
    (h : ∀ n ∈ p :: nodes, n.text ≠ []) (g : Graph) {t : GraphTriple} :
    t ∈ (nodes.foldl linkNode (some p, g)).2.triples ↔
      t ∈ g.triples ∨ t ∈ chainLinks (p :: nodes) := by
  induction nodes generalizing p g with
  | nil => simp [chainLinks, Chain.links]
  | cons n nodes ih =>
    have hp := h p List.mem_cons_self
    rw [List.foldl_cons, linkNode]
    dsimp only
    rw [if_pos hp, ih (fun m hm => h m (List.mem_cons_of_mem p hm)), Graph.mem_add, or_assoc,
      chainLinks, chainLinks, Chain.links, List.map_cons, List.mem_cons]

/-- The triples of a graph whose nodes are linked. -/
theorem mem_linked {nodes : List GraphNode} (h : ∀ n ∈ nodes, n.text ≠ []) (g : Graph)
    {t : GraphTriple} : t ∈ (nodes.foldl linkNode (none, g)).2.triples ↔
      t ∈ g.triples ∨ t ∈ chainLinks nodes := by
  cases nodes with
  | nil => simp [chainLinks, Chain.links]
  | cons n nodes => exact mem_foldl_linkNode h g

section

variable {univAlias : GraphNode → Text} {O : ReadingOrder} {g : Graph}

/-- The links of an alias. -/
def aliasLinks (univAlias : GraphNode → Text) (O : ReadingOrder) (g : Graph) (a : Text) :
    List GraphTriple :=
  chainLinks (O.nodes (((uniToObjs univAlias g).get? a).getD []))

theorem mem_ordered {a : Text} {n : GraphNode} :
    n ∈ O.nodes (((uniToObjs univAlias g).get? a).getD []) ↔ n ∈ aliasNodes univAlias g a := by
  rw [(O.nodes_perm _).mem_iff, (gathered_uniToObjs univAlias g).mem, mem_aliasNodes]

theorem nodup_ordered (a : Text) :
    (O.nodes (((uniToObjs univAlias g).get? a).getD [])).Nodup :=
  (O.nodes_perm _).nodup_iff.mpr ((gathered_uniToObjs univAlias g).nodup a)

/-- The nodes that are chained are those of the alias. -/
theorem ordered_perm (a : Text) :
    (O.nodes (((uniToObjs univAlias g).get? a).getD [])).Perm (aliasNodes univAlias g a) :=
  (List.perm_ext_iff_of_nodup (nodup_ordered a) (List.nodup_dedup _)).mpr fun _ => mem_ordered

theorem chainLinks_of_short {nodes : List GraphNode} (h : nodes.length < 2) :
    chainLinks nodes = [] := by
  rw [chainLinks, List.map_eq_nil_iff, ← List.length_eq_zero_iff, Chain.length_links]
  omega

theorem mem_foldl_aliases (as : List Text) (g₀ : Graph) {t : GraphTriple} :
    t ∈ (as.foldl (fun g' anUniDescr =>
      let relatedNodes := ((uniToObjs univAlias g).get? anUniDescr).getD []
      if relatedNodes.length < 2 then g'
      else ((O.nodes relatedNodes).foldl linkNode (none, g')).2) g₀).triples ↔
      t ∈ g₀.triples ∨ ∃ a ∈ as, t ∈ aliasLinks univAlias O g a := by
  induction as generalizing g₀ with
  | nil => simp
  | cons a as ih =>
    rw [List.foldl_cons, ih]
    dsimp only
    split
    · rename_i hshort
      have hnil : aliasLinks univAlias O g a = [] := by
        apply chainLinks_of_short
        rwa [(O.nodes_perm _).length_eq]
      simp [hnil]
    · have htext : ∀ n ∈ O.nodes (((uniToObjs univAlias g).get? a).getD []), n.text ≠ [] :=
        fun n hn => text_ne_nil (mem_aliasNodes.mp (mem_ordered.mp hn)).2.1
      rw [mem_linked htext, ← aliasLinks, or_assoc, List.exists_mem_cons_iff]

theorem mem_bindIdenticalNodes {t : GraphTriple} :
    t ∈ (bindIdenticalNodes univAlias O g).triples ↔
      t ∈ g.triples ∨ ∃ a, t ∈ aliasLinks univAlias O g a := by
  rw [bindIdenticalNodes]
  dsimp only
  rw [mem_foldl_aliases]
  refine or_congr_right ⟨fun ⟨a, _, h⟩ => ⟨a, h⟩, fun ⟨a, h⟩ => ⟨a, ?_, h⟩⟩
  rw [(O.aliases_perm _).mem_iff, ← Dict.get?_isSome_iff, Option.isSome_iff_ne_none]
  intro hnone
  have hnil : aliasLinks univAlias O g a = [] := by
    apply chainLinks_of_short
    rw [(O.nodes_perm _).length_eq, hnone]
    exact Nat.zero_lt_two
  rw [hnil] at h
  cases h

theorem mem_aliasLinks {a : Text} {t : GraphTriple} (h : t ∈ aliasLinks univAlias O g a) :
    ∃ m n, t = ⟨m, propertyAlias, n⟩ ∧ m ≠ n ∧
      m ∈ aliasNodes univAlias g a ∧ n ∈ aliasNodes univAlias g a := by
  obtain ⟨⟨m, n⟩, hp, rfl⟩ := List.mem_map.mp h
  obtain ⟨hm, hn⟩ := Chain.mem_of_mem_links hp
  exact ⟨m, n, rfl, Chain.ne_of_mem_links (nodup_ordered a) hp, mem_ordered.mp hm,
    mem_ordered.mp hn⟩

theorem nodup_aliasLinks (a : Text) : (aliasLinks univAlias O g a).Nodup := by
  apply (Chain.nodup_links (nodup_ordered a)).map
  rintro ⟨m, n⟩ ⟨m', n'⟩ h
  cases h
  rfl

end

/-- **The nodes of each alias are linked**, in every order of the aliases and of the nodes. -/
theorem bindsIdentical (univAlias : GraphNode → Text) (O : ReadingOrder) (g : Graph) :
    ∃ links, BindsIdentical univAlias g (bindIdenticalNodes univAlias O g) links := by
  refine ⟨aliasLinks univAlias O g, fun a t => mem_aliasLinks, fun a => ⟨nodup_aliasLinks a, ?_⟩,
    fun a m hm n hn => ?_, fun t => mem_bindIdenticalNodes, fun a => ?_⟩
  · rw [aliasLinks, chainLinks, List.length_map, Chain.length_links, (ordered_perm a).length_eq]
  · have hchain := Chain.connected (mem_ordered (O := O).mpr hm) (mem_ordered (O := O).mpr hn)
    refine hchain.mono fun x y hxy => ?_
    exact List.mem_map_of_mem hxy
  · have hnew : (newTriples univAlias g (bindIdenticalNodes univAlias O g) a).Nodup :=
      (bindIdenticalNodes univAlias O g).nodup.filter _
    refine (List.perm_ext_iff_of_nodup hnew ((nodup_aliasLinks a).filter _)).mpr fun t => ?_
    rw [newTriples, List.mem_filter, List.mem_filter, mem_bindIdenticalNodes]
    simp only [decide_eq_true_eq]
    constructor
    · rintro ⟨ht | ⟨b, hb⟩, hnot, ha⟩
      · exact absurd ht hnot
      · obtain ⟨m, n, rfl, -, hm, -⟩ := mem_aliasLinks hb
        have : b = a := (mem_aliasNodes.mp hm).2.2.symm.trans ha
        exact ⟨this ▸ hb, hnot⟩
    · rintro ⟨ht, hnot⟩
      obtain ⟨m, n, rfl, -, hm, -⟩ := mem_aliasLinks ht
      exact ⟨Or.inr ⟨a, ht⟩, hnot, (mem_aliasNodes.mp hm).2.2⟩

/-- A node of an object, on a server. -/
def serverNode (host : String) : GraphNode :=
  .uriRef ("http://" ++ host ++ "/entity.py?xid=CIM_Process.Handle=1").toList

/-- Two nodes of one object, which are linked. -/
def linkedGraph : Graph :=
  ⟨[⟨serverNode "a", propertyAlias, serverNode "b"⟩], List.nodup_singleton _⟩

/-- A link that is there is not new. -/
theorem linked_not_countsNew : ¬ ∀ (univAlias : GraphNode → Text) (O : ReadingOrder) (g : Graph),
    CountsNew univAlias g (bindIdenticalNodes univAlias O g) := by
  intro h
  have := h (fun _ => []) ⟨id, List.reverse, fun l => .refl l, List.reverse_perm⟩ linkedGraph []
  revert this
  decide

end Survol.Uris
