import Survol.Dot.CollapsedTables
import Survol.Lib.Dict

/-!
# The export of a graph to JSON

The nodes of the document are numbered when they are first met, and found again by a cache. Links
are written one by one; the literals of a node are its information, or the items of a dictionary
whose keys are the short names of the properties.

## Main definitions

* `scriptForJson` — the nodes that are exported.
* `exportTriple` — what the loop does with a triple.
* `grph2Json` — the document.
-/

namespace Survol.Json

open PyText (Text contains)
open Dot (Property makeProp propertyInformation propToShortPropNam)

/-! ## Graphs -/

/-- A node that is not a literal. -/
inductive Resource
  | uriRef (text : Text)
  | bNode (text : Text)
  deriving DecidableEq

/-- The text of a node. -/
def Resource.text : Resource → Text
  | uriRef text => text
  | bNode text => text

/-- The value of a literal: a text, an integer, a truth value, which is an integer too, or something
else, by the name of its type and its text. -/
inductive LiteralValue
  | str (s : Text)
  | int (n : ℤ)
  | bool (b : Bool)
  | other (typeName printed : Text)
  deriving DecidableEq

/-- The object of a triple: a literal has a text, and a value. -/
inductive Term
  | link (r : Resource)
  | literal (text : Text) (value : LiteralValue)
  deriving DecidableEq

/-- The text of an object. -/
def Term.text : Term → Text
  | link r => r.text
  | literal text _ => text

/-- A triple of the graph. -/
structure Triple where
  subj : Resource
  pred : Property
  obj : Term
  deriving DecidableEq

/-- The property of the scripts of a node. -/
def propertyScript : Property := makeProp "script".toList

/-- The texts of the scripts that are exported. -/
def entityScripts : List Text :=
  ["survol/entity.py", "survol/entity_wmi.py", "survol/entity_wbem.py",
    "survol/entity_info_only.py", "survol/survolcgi.py?script=/entity.py",
    "survol/survolcgi.py?script=/entity_info_only.py"].map String.toList

/-- `ScriptForJson`: foreign addresses, and some scripts. -/
def scriptForJson (url : Text) : Bool :=
  entityScripts.any (contains url) || !contains url "survol/".toList

/-! ## Nodes -/

/-- How nodes are displayed: the label and the class of an address, the color of a class, the alias
of an address, and the text where the entities of HTML are replaced. -/
structure Naming where
  parseEntityUri : Text → Text × Text
  color : Text → Text
  universalAlias : Text → Text
  unescape : Text → Text

/-- What is written for a literal. -/
inductive JsonValue
  | str (s : Text)
  | int (n : ℤ)
  | bool (b : Bool)
  deriving DecidableEq

/-- The value in the dictionary: the name of the type, where the value is not a text or an
integer. -/
def LiteralValue.json : LiteralValue → JsonValue
  | str s => .str s
  | int n => .int n
  | bool b => .bool b
  | other typeName _ => .str typeName

/-- The text of an integer. -/
def printInt (n : ℤ) : Text :=
  if n < 0 then '-' :: Nat.toDigits 10 n.natAbs else Nat.toDigits 10 n.natAbs

/-- The text of a value. -/
def LiteralValue.printed : LiteralValue → Text
  | str s => s
  | int n => printInt n
  | bool b => if b then "True".toList else "False".toList
  | other _ printed => printed

/-- A node of the document. -/
structure NodeJson where
  label : Text
  cls : Text
  color : Text
  infoList : List Text
  infoDict : Dict Text JsonValue
  index : ℕ
  survolUrl : Text
  universalAlias : Text
  deriving DecidableEq

/-- `str.replace`, where `skipped` characters belong to an occurrence that is replaced. -/
def replaceFrom (old new : Text) : ℕ → Text → Text
  | _, [] => []
  | skipped + 1, _ :: s => replaceFrom old new skipped s
  | 0, c :: s =>
    if old.isPrefixOf (c :: s) then new ++ replaceFrom old new (old.length - 1) s
    else c :: replaceFrom old new 0 s

/-- The address of a node in the document. -/
def theSurvolUrl (nam : Naming) (rdfNode : Resource) : Text :=
  replaceFrom "primhillcomputers.com:80/survol/survolcgi".toList
    "primhillcomputers.com:80/cgi-bin/survol/survolcgi".toList 0 (nam.unescape rdfNode.text)

/-- A new node. -/
def NodeJson.new (nam : Naming) (nodeJsonNumber : ℕ) (rdfNode : Resource) : NodeJson :=
  let (entityLabel, entityGraphicClass) := nam.parseEntityUri rdfNode.text
  { label := PyText.strip entityLabel
    cls := entityGraphicClass
    color := nam.color entityGraphicClass
    infoList := [entityGraphicClass]
    infoDict := []
    index := nodeJsonNumber
    survolUrl := theSurvolUrl nam rdfNode
    universalAlias := nam.universalAlias rdfNode.text }

/-! ## The loop -/

/-- A link of the document. -/
structure Link where
  source : Text
  target : Text
  survolLinkProp : Text
  deriving DecidableEq

/-- The variables of the loop: the cache of the nodes, their count, and the links. -/
structure ExportState where
  dictNod2Json : Dict Resource NodeJson
  nodeJsonNumber : ℕ
  links : List Link

/-- The variables before the first triple. -/
def ExportState.init : ExportState := ⟨[], 0, []⟩

section
variable (nam : Naming)

/-- `NodeToJsonObj`: the node is created when it is not in the cache. -/
def nodeToJsonObj (theNod : Resource) (s : ExportState) : NodeJson × ExportState :=
  match s.dictNod2Json.get? theNod with
  | some jsonObj => (jsonObj, s)
  | none =>
    let jsonObj := NodeJson.new nam s.nodeJsonNumber theNod
    (jsonObj, { s with dictNod2Json := s.dictNod2Json.set theNod jsonObj
                       nodeJsonNumber := s.nodeJsonNumber + 1 })

/-- A triple is exported when it is not about a script, and its two ends are accepted. -/
def Exported (t : Triple) : Prop :=
  t.pred ≠ propertyScript ∧ scriptForJson t.subj.text = true ∧ scriptForJson t.obj.text = true

instance (t : Triple) : Decidable (Exported t) := by unfold Exported; infer_instance

/-- A literal is added to a node. -/
def NodeJson.addLiteral (pred : Property) (value : LiteralValue) (n : NodeJson) : NodeJson :=
  if pred = propertyInformation then { n with infoList := n.infoList ++ [value.printed] }
  else { n with infoDict := n.infoDict.set (propToShortPropNam pred) value.json }

/-- What the loop does with a triple that is exported. -/
def exportTriple (s : ExportState) (t : Triple) : ExportState :=
  let (subjObj, s) := nodeToJsonObj nam t.subj s
  match t.obj with
  | .link obj =>
    let (objObj, s) := nodeToJsonObj nam obj s
    { s with links := s.links ++
        [⟨subjObj.survolUrl, objObj.survolUrl, propToShortPropNam t.pred⟩] }
  | .literal _ value =>
    { s with dictNod2Json := s.dictNod2Json.update t.subj (·.addLiteral t.pred value) }

/-- The variables after the loop. -/
def exportState (grph : List Triple) : ExportState :=
  grph.foldl (fun s t => if Exported t then exportTriple nam s t else s) .init

/-! ## The document -/

/-- A node, as it is sent. -/
structure SentNode where
  id : Text
  name : Text
  survolUrl : Text
  survolUniversalAlias : Text
  survolFill : Text
  entityClass : Text
  survolInfoList : List Text
  survolInfoDict : Dict Text JsonValue
  deriving DecidableEq

/-- The object that is sent for a node. -/
def NodeJson.sent (n : NodeJson) : SentNode where
  id := n.survolUrl
  name := nam.unescape n.label
  survolUrl := n.survolUrl
  survolUniversalAlias := n.universalAlias
  survolFill := n.color
  entityClass := n.cls
  survolInfoList := n.infoList
  survolInfoDict := n.infoDict

/-- The document. -/
structure Document where
  pageTitle : Text
  nodes : List (Option SentNode)
  links : List Link

/-- `Grph2Json`: each node is put at its own index. -/
def grph2Json (pageTitle : Text) (grph : List Triple) : Document :=
  let s := exportState nam grph
  { pageTitle := pageTitle
    nodes := s.dictNod2Json.foldl (fun nodes e => nodes.set e.2.index (some (e.2.sent nam)))
      (List.replicate s.dictNod2Json.length none)
    links := s.links }

end

end Survol.Json
