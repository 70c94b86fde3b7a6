import Mathlib.Data.List.Basic
import Mathlib.Data.List.Dedup
import Survol.Lib.Decimal

/-!
# Tables of collapsed properties

The objects of a collapsed property of a node are not drawn: they are the lines of a table. The
other literals of such an object, and its links that are displayed flat, are the cells of its
line.

## Main definitions

* `fieldsSet` — the properties of a node that are displayed with it.
* `rowOf` — the line of an object, with its title.
* `titleUniq` — the title under which a line is stored.
* `tableLines` — the lines of a table, with its header.
-/

namespace Survol.Dot

open PyText (Text splitOn)

/-! ## Graphs -/

/-- A node of the graph. -/
inductive Node
  | url (text : Text)
  | literal (text : Text)
  deriving DecidableEq

/-- The text of a node. -/
def Node.text : Node → Text
  | .url text => text
  | .literal text => text

/-- Whether a node is a literal. -/
def Node.isLiteral : Node → Bool
  | .url _ => false
  | .literal _ => true

/-- A property, by its address. -/
abbrev Property := Text

/-- A triple of the graph. -/
structure Triple where
  subj : Node
  prop : Property
  obj : Node
  deriving DecidableEq

/-- The property of a name. -/
def makeProp (prp : Text) : Property := "http://primhillcomputers.com/ontologies/".toList ++ prp

/-- What is put before the name of a property, so that it comes first. -/
def sortPrefix : Text := "----".toList

/-- The information on a node: it is displayed with its title. -/
def propertyInformation : Property := makeProp (sortPrefix ++ "Information".toList)

/-- The properties whose objects are displayed as links and not as nodes. -/
def flatPropertiesList : List Property :=
  [makeProp "Data1".toList, makeProp "Data2".toList, makeProp "Data3".toList]

/-- Whether the objects of a property are displayed as links. -/
def isFlatProperty (key : Property) : Bool := flatPropertiesList.contains key

/-- The short name of a property: the last part of its address, as Graphviz accepts it. -/
def propToShortPropNam (collapsProp : Property) : Text :=
  let shortNam := ((splitOn '/' collapsProp).getLastD []).map fun c =>
    if c = '.' ∨ c = ' ' then '_' else c
  if sortPrefix.isPrefixOf shortNam then shortNam.drop sortPrefix.length else shortNam

/-! ## Texts -/

/-- The text of `s.replace('&', '&amp;')`. -/
def replaceAmp (s : Text) : Text := s.flatMap fun c => if c = '&' then "&amp;".toList else [c]

/-- The text of `cgi.escape(s)`. -/
def cgiEscape (s : Text) : Text := s.flatMap fun c =>
  if c = '&' then "&amp;".toList else if c = '<' then "&lt;".toList
  else if c = '>' then "&gt;".toList else [c]

/-- The greatest length of a line in a cell. -/
def maxHtmlTitleLenPerCol : ℕ := 40

/-- A line break in a cell. -/
def withBrDelim : Text := "<BR ALIGN=\"LEFT\" />".toList

/-- A text with line breaks between its words, when it is long. -/
def strWithBr (aStr : Text) (colspan : ℕ) : Text :=
  let maxHtmlTitleLen := colspan * maxHtmlTitleLenPerCol
  if aStr.length < maxHtmlTitleLen then aStr else
  let addBreak (resu : Text) : Text := if resu = [] then resu else resu ++ withBrDelim
  let s := (splitOn ' ' aStr).foldl (fun (s : Text × Text × ℕ) currStr =>
    if s.2.2 + currStr.length < maxHtmlTitleLen then
      (s.1, s.2.1 ++ ' ' :: currStr, s.2.2 + currStr.length)
    else (addBreak s.1 ++ s.2.1, currStr, currStr.length)) ([], [], 0)
  if s.2.1 = [] then s.1 else addBreak s.1 ++ s.2.1

/-! ## Cells and lines -/

/-- What a cell shows. -/
inductive Cell
  | empty
  | text (html : Text)
  | number (html : Text)
  | link (href title : Text)
  deriving DecidableEq

/-- A line of a table: the object that it is for, with the link and the text of its first cell,
and the other cells. -/
structure Row where
  obj : Node
  href : Option Text
  title : Text
  columns : List Cell

/-- How nodes are named: the label, the class and the identifier of an address, in its short and
its long form, and the text of the value of a literal. -/
structure Naming where
  parseEntityUriShort : Text → Text × Text × Text
  parseEntityUri : Text → Text × Text × Text
  valueHtml : Text → Text

/-- The identifier of a node that is a plain text. -/
def plainTextOnly : Text := "PLAINTEXTONLY".toList

section Tables

variable (nam : Naming) (grph : List Triple) (collapsed : List Property)

/-- The fields of a node: its literals, and its flat properties, unless they are collapsed. -/
def fieldsSet (subj : Node) : List (Property × Node) :=
  (grph.filter fun t => t.subj = subj ∧ t.prop ∉ collapsed ∧
    (t.obj.isLiteral ∨ isFlatProperty t.prop)).map fun t => (t.prop, t.obj)

/-- The cell of a field. -/
def tmpCell (key : Property) (val : Node) : Cell :=
  if isFlatProperty key then
    match val with
    | .literal text => .text (nam.valueHtml text)
    | .url text => .link text (nam.parseEntityUri text).1
  else if PyText.isFloat val.text then .number val.text
  else .text (strWithBr val.text 1)

/-- A field adds to the title, or sets the cell of its property. -/
def addField (fieldsKeys : List Property) (s : Text × List Cell) (f : Property × Node) :
    Text × List Cell :=
  if f.1 = propertyInformation then (s.1 ++ f.2.text, s.2)
  else (s.1, s.2.set (fieldsKeys.idxOf f.1) (tmpCell nam f.1 f.2))

/-- The title and the line of an object. -/
def rowOf (fieldsKeys : List Property) (objUri : Node) : Text × Row :=
  let s := (fieldsSet grph collapsed objUri).foldl (addField nam fieldsKeys)
    ([], List.replicate fieldsKeys.length .empty)
  let (subObjNam, _, subEntityId) := nam.parseEntityUriShort objUri.text
  let titleKey := if s.1 = [] then subObjNam else s.1
  let subNodUri := replaceAmp objUri.text
  if subEntityId = plainTextOnly then (titleKey, ⟨objUri, none, cgiEscape subNodUri, s.2⟩)
  else (titleKey, ⟨objUri, some subNodUri, titleKey, s.2⟩)

/-- The objects in the table of a node, for the short name of a property. -/
def nodLst (propNam : Text) (subj : Node) : List Node :=
  (grph.filter fun t => t.prop ∈ collapsed ∧ propToShortPropNam t.prop = propNam ∧
    t.subj = subj).map Triple.obj

/-- The order of properties. -/
def propertyLe (a b : Property) : Bool := !decide (b < a)

/-- The columns of a table: first the flat properties, then the others but the information. -/
def fieldsKeys (nodes : List Node) : List Property :=
  let rawFieldsKeys := (nodes.flatMap fun obj => (fieldsSet grph collapsed obj).map Prod.fst).dedup
  flatPropertiesList.filter (· ∈ rawFieldsKeys) ++
    (rawFieldsKeys.filter fun key => !isFlatProperty key ∧ key ≠ propertyInformation).mergeSort
      propertyLe

end Tables

/-! ## Tables -/

/-- A title that is not used yet: the title itself, or with a number from 2 on. -/
def titleUniq (used : List Text) (titleKey : Text) : Text :=
  if titleKey ∉ used then titleKey else
  (((List.range' 2 (used.length + 1)).map fun titleIdx =>
    titleKey ++ '/' :: Nat.toDigits 10 titleIdx).find? (· ∉ used)).getD titleKey

/-- A line of the table: an object, or the header with the properties. -/
inductive Line
  | row (r : Row)
  | header (keys : List Property)

/-- The object of a line. -/
def Line.row? : Line → Option Row
  | .row r => some r
  | .header _ => none

/-- The assignment of an item of a dictionary. -/
def setItem (dict : List (Text × Line)) (key : Text) (line : Line) : List (Text × Line) :=
  if key ∈ dict.map Prod.fst then dict.map fun e => if e.1 = key then (key, line) else e
  else dict ++ [(key, line)]

section Tables

variable (nam : Naming) (grph : List Triple) (collapsed : List Property)

/-- The lines of the objects of a table. -/
def addRow (keys : List Property) (dictHtmlLines : List (Text × Line)) (objUri : Node) :
    List (Text × Line) :=
  let r := rowOf nam grph collapsed keys objUri
  setItem dictHtmlLines (titleUniq (dictHtmlLines.map Prod.fst) r.1) (.row r.2)

/-- The lines of a table. They are written in the order of their titles: the header has an empty
title, so that it comes first. -/
def tableLines (propNam : Text) (subj : Node) : List (Text × Line) :=
  let nodes := nodLst grph collapsed propNam subj
  let keys := fieldsKeys grph collapsed nodes
  setItem (nodes.foldl (addRow nam grph collapsed keys) []) [] (.header keys)

/-- The lines of the objects in a table. -/
def tableRows (propNam : Text) (subj : Node) : List Row :=
  (tableLines nam grph collapsed propNam subj).filterMap fun e => e.2.row?

end Tables

end Survol.Dot
