import Survol.Dot.DisplayedData
import Survol.Lib.Dict

/-!
# The edges of the drawing

A node is named by its rank among the nodes that are met. An object of a collapsed property is a
line of the table of its subject, and its name is then that of the table, with its own name as a
port. The subject of an edge is named without its property: a node in several tables is then found
in the first one.

## Main definitions

* `rdfNodeToDotLabel`, `rdfNodeToDotLabelExtended` — the names of the nodes.
* `linkEdges`, `tableEdges` — the edges of a link, and those to the tables.
* `drawnNodes`, `tables` — what is drawn.
-/

namespace Survol.Dot

open PyText (Text)

/-- The two ends of a connection. -/
def propertySocketEnd : Property := makeProp "socket_end".toList

/-- An edge between two names. -/
structure Edge where
  source : Text
  target : Text
  biDir : Bool
  deriving DecidableEq

/-- A table, with the ports of its lines. -/
structure Table where
  name : Text
  ports : List Text
  deriving DecidableEq

/-- A triple in the other direction. -/
def Triple.reverse (t : Triple) : Triple := ⟨t.obj, t.prop, t.subj⟩

/-- The name of the table of a node, for a property. -/
def collapsedLabel (collapsPropNam subjNam : Text) : Text :=
  "R_".toList ++ collapsPropNam ++ '_' :: subjNam

/-- The name of a line of a table. -/
def withPort (table port : Text) : Text := table ++ ':' :: port

section
variable (grph : List Triple) (collapsed : List Property)

/-! ## Names -/

/-- The nodes that are named in the first pass, by a collapsed property. -/
def firstPassNodes (t : Triple) : List Node :=
  if t.prop ∈ collapsed then [t.subj, t.obj] else []

/-- The nodes that are named in the second pass, by another property. -/
def secondPassNodes (t : Triple) : List Node :=
  if t.prop ∈ collapsed then []
  else t.subj :: if t.obj.isLiteral ∨ isFlatProperty t.prop then [] else [t.obj]

/-- The nodes that have a name, in the order where they were met. -/
def dictRdf2Dot : List Node :=
  (grph.flatMap (firstPassNodes collapsed) ++ grph.flatMap (secondPassNodes collapsed)).eraseDups

/-- The name of a node: its rank. -/
def rdfNodeToDotLabel (x : Node) : Text :=
  "nd_".toList ++ Nat.toDigits 10 ((dictRdf2Dot grph collapsed).idxOf x)

/-- The subjects of an object, by the name of the collapsed property; the last one is kept. -/
def dictCollapsedObjectLabelsToSubjectLabels : Dict Text (Dict Text Text) :=
  grph.foldl (fun d t =>
    if t.prop ∈ collapsed then
      let objNam := rdfNodeToDotLabel grph collapsed t.obj
      d.set objNam (((d.get? objNam).getD []).set (propToShortPropNam t.prop)
        (rdfNodeToDotLabel grph collapsed t.subj))
    else d) []

/-- The name of a line, from the name of its object; `none` where the object is not in a table of
the property. -/
def subjNamFromCollapsed (collapsPropNam subjNam : Text) : Option Text :=
  ((dictCollapsedObjectLabelsToSubjectLabels grph collapsed).get? subjNam).bind fun dictOfProps =>
    (dictOfProps.get? collapsPropNam).map fun collapsedSubjNam =>
      withPort (collapsedLabel collapsPropNam collapsedSubjNam) subjNam

/-- The name of a node that may be in a table: in that of the property if there is one, else in
the first one. -/
def rdfNodeToDotLabelExtended (obj : Node) (prop : Option Property) : Text :=
  let objNam := rdfNodeToDotLabel grph collapsed obj
  match (dictCollapsedObjectLabelsToSubjectLabels grph collapsed).get? objNam with
  | none => objNam
  | some dictOfProps =>
    let found := prop.bind fun p =>
      (dictOfProps.get? (propToShortPropNam p)).map fun subjNam => (propToShortPropNam p, subjNam)
    match found.or dictOfProps.head? with
    | some (propNam, subjNam) => withPort (collapsedLabel propNam subjNam) objNam
    | none => objNam

/-! ## Edges -/

/-- The edges of a triple. -/
def linkEdges (t : Triple) : List Edge :=
  if t.prop ∈ collapsed ∨ t.obj.isLiteral then [] else
  let subjNam := rdfNodeToDotLabelExtended grph collapsed t.subj none
  let objNam := rdfNodeToDotLabelExtended grph collapsed t.obj (some t.prop)
  if t.prop = propertySocketEnd then
    if t.reverse ∈ grph then if subjNam < objNam then [⟨subjNam, objNam, true⟩] else []
    else [⟨subjNam, objNam, false⟩]
  else if isFlatProperty t.prop then []
  else [⟨(subjNamFromCollapsed grph collapsed (propToShortPropNam t.prop) subjNam).getD subjNam,
    objNam, false⟩]

/-- The nodes that have a table for a property. -/
def collapsedSubjects (propNam : Text) : List Node :=
  ((grph.filter fun t => t.prop ∈ collapsed ∧ propToShortPropNam t.prop = propNam).map
    Triple.subj).eraseDups

/-- The edges from the nodes to their tables. -/
def tableEdges (propNam : Text) : List Edge :=
  (collapsedSubjects grph collapsed propNam).map fun subjUrl =>
    let subjNam := rdfNodeToDotLabel grph collapsed subjUrl
    ⟨(subjNamFromCollapsed grph collapsed propNam subjNam).getD subjNam,
      collapsedLabel propNam subjNam, false⟩

/-- All the edges. -/
def edges : List Edge :=
  grph.flatMap (linkEdges grph collapsed) ++
    collapsed.flatMap fun p => tableEdges grph collapsed (propToShortPropNam p)

/-! ## What is drawn -/

/-- The names of the nodes that are drawn: they are not in a table. -/
def drawnNodes : List Text :=
  ((dictRdf2Dot grph collapsed).map (rdfNodeToDotLabel grph collapsed)).filter fun objLabel =>
    objLabel ∉ (dictCollapsedObjectLabelsToSubjectLabels grph collapsed).keys

/-- The table of a node, for a property. -/
def tableOf (nam : Naming) (propNam : Text) (subjUrl : Node) : Table where
  name := collapsedLabel propNam (rdfNodeToDotLabel grph collapsed subjUrl)
  ports := (tableRows nam grph collapsed propNam subjUrl).map fun row =>
    rdfNodeToDotLabel grph collapsed row.obj

/-- The tables. -/
def tables (nam : Naming) : List Table :=
  collapsed.flatMap fun p => (collapsedSubjects grph collapsed (propToShortPropNam p)).map
    (tableOf grph collapsed nam (propToShortPropNam p))

/-- A name refers to a node that is drawn, to a table, or to one of its ports. -/
def Refers (nam : Naming) (name : Text) : Prop :=
  name ∈ drawnNodes grph collapsed ∨ ∃ table ∈ tables grph collapsed nam,
    name = table.name ∨ ∃ port ∈ table.ports, name = withPort table.name port

/-! ## What the drawing should be -/

/-- A link that is drawn as an edge. -/
def IsLink (t : Triple) : Prop :=
  t ∈ grph ∧ t.prop ∉ collapsed ∧ isFlatProperty t.prop = false ∧ t.obj.isLiteral = false

/-- The two triples of a connection that is seen from its two ends. -/
def Mutual (t : Triple) : Prop :=
  t.prop = propertySocketEnd ∧ IsLink grph collapsed t.reverse ∧ t.reverse ≠ t

/-- **Each link has its edge, and each edge has its ends.** -/
structure WellDrawn (nam : Naming) : Prop where
  alone : ∀ t, IsLink grph collapsed t → ¬ Mutual grph collapsed t →
    ∃ e, linkEdges grph collapsed t = [e]
  pair : ∀ t, IsLink grph collapsed t → Mutual grph collapsed t →
    ∃ e : Edge, e.biDir = true ∧
      linkEdges grph collapsed t ++ linkEdges grph collapsed t.reverse = [e]
  ends : ∀ e ∈ edges grph collapsed, Refers grph collapsed nam e.source ∧
    Refers grph collapsed nam e.target

end

end Survol.Dot
