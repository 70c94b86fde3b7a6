import Survol.Lib.Grouping
import Survol.Lib.Markup
import Survol.Dot.CollapsedTables
import Survol.Json.Export
import Survol.Uris.ClassUrls
import Survol.Uris.FormXids
import Survol.Uris.Naming
import Mathlib

/-!
# The tables of the objects, in HTML

The HTML page of a script has one table for each class of objects. The triples are grouped by
class, subject and property, and the cell of a subject, or of a property, is written once for all
its lines. The texts are written as they are, with no escape. A reader that cuts the page at its
tags, and gives each line the cells that span it, gets the triples back, if no text has a tag.

## Main definitions

* `writeAllObjects` — the code: the text of a heading and of a table for each class.
* `gridRow` — the three contents of a triple.
* `readPage` — what is read in the text of the tables.

## Main results

* `tables_read` — the tables are well formed, and have each triple once, under its class.
-/

open PyText (Text)
open SpanTable (Cell Column readRow readRows readSlots)
open Markup (Piece Content Reading render readHtmlTables)

namespace Survol.Html

open Dot (Node Triple Property propertyInformation makeProp)
open Json (replaceFrom)
open Uris (RootUrl getModeFromUrl anyUriModed urlNoAmp entityClassUrl)

/-! ## The code -/

/-- What names and colours the objects: the title, the class and the identifier of an address, the
text without its HTML entities, the colour of a class, the natural order of texts, and the address
of the server; and whether `str` can convert a text, which in Python 2 raises for a text of unicode
that is not in ASCII. -/
structure HtmlNaming where
  parseEntityUri : Text → Text × Text × Text
  unescape : Text → Text
  colorClass : Text → Text
  naturalLe : Text → Text → Bool
  uriRoot : RootUrl
  canStr : Text → Bool

/-- What a cell shows: a text, a link, or an image in a link. -/
def textContent (html : Text) : Content := [(html, "/td".toList)]

def linkContent (href title : Text) : Content :=
  [([], "a href=\"".toList ++ href ++ ['"']), (title, "/a".toList), ([], "/td".toList)]

def imageContent (href title : Text) : Content :=
  [([], "a href=\"".toList ++ href ++ ['"']),
    ([], "img src=\"".toList ++ href ++ "\" alt=\"".toList ++ title ++
      "\" height=\"42\" width=\"42\"".toList), ([], "/a".toList), ([], "/td".toList)]

/-- A line of a table: the cells of the subject and of the property, with the numbers of their rows,
and the cell of the object, with the number of its columns. -/
structure Row where
  bgcolor : Text
  heads : List (Content × ℕ)
  object : Content
  colSpan : ℕ

def Row.cells (row : Row) : List (Cell Content) :=
  row.heads.map (fun c => ⟨c.1, c.2, 1⟩) ++ [⟨row.object, 1, row.colSpan⟩]

def headPieces (c : Content × ℕ) : List Piece :=
  ([], "td valign=\"top\" rowspan=\"".toList ++ (Nat.toDigits 10 c.2 ++ ['"'])) :: c.1

def Row.pieces (row : Row) : List Piece :=
  ([], "tr bgcolor=\"".toList ++ (row.bgcolor ++ ['"'])) :: (row.heads.flatMap headPieces ++
    (([], "td colspan=\"".toList ++ (Nat.toDigits 10 row.colSpan ++ ['"'])) :: row.object ++
      [([], "/tr".toList)]))

/-- `listPropsTdDoubleColSpan` -/
def listPropsTdDoubleColSpan : List Property :=
  [propertyInformation, makeProp "Data2".toList, makeProp "Data1".toList]

/-- `AntiPredicateUri` -/
def antiPredicateUri (uri : Text) : Text :=
  uri.drop "http://primhillcomputers.com/ontologies/".toList.length

/-- `UrlInHtmlMode` -/
def urlInHtmlMode (anUrl : Text) : Text :=
  if getModeFromUrl anUrl ≠ [] then anUrl else anyUriModed anUrl "html".toList

/-- `GetMimeTypeFromUrl` -/
def getMimeTypeFromUrl (url : Text) : Text :=
  if "mime:".toList.isPrefixOf (getModeFromUrl url) then (getModeFromUrl url).drop 5 else []

section
variable (nam : HtmlNaming)

/-- `DesHex` -/
def desHex (theStr : Text) : Text :=
  replaceFrom "%3A".toList [':'] 0 (replaceFrom "%5C".toList ['\\'] 0
    (replaceFrom "%2F".toList ['/'] 0 (replaceFrom "%25".toList ['%'] 0 (nam.unescape theStr))))

/-- The order of `natural_sort_list`. -/
def naturalSort {α : Type} (key : α → Text) (l : List α) : List α :=
  l.mergeSort fun a b => nam.naturalLe (key a) (key b)

/-- The class of a subject. -/
def classOf (aSubj : Node) : Text := (nam.parseEntityUri aSubj.text).2.1

def subjectContent (aSubj : Node) : Content :=
  linkContent (urlInHtmlMode aSubj.text) (nam.parseEntityUri aSubj.text).1

def predicateContent (aPred : Property) : Content := textContent (antiPredicateUri aPred)

/-- The title of an object. -/
def objTitle (anObj : Node) : Text := (nam.parseEntityUri (desHex nam anObj.text)).1

def objectContent (anObj : Node) : Content :=
  let objStr := desHex nam anObj.text
  if anObj.isLiteral then textContent objStr
  else
    let mimeType := getMimeTypeFromUrl (urlNoAmp objStr)
    if mimeType = [] then linkContent (anyUriModed objStr "html".toList) (objTitle nam anObj)
    else if "image/".toList.isPrefixOf mimeType then imageContent objStr (objTitle nam anObj)
    else linkContent objStr (objTitle nam anObj)

/-- The values of a subject: its objects, by their properties. -/
abbrev DictPred := Dict Property (List Node)

/-- The line of an object. -/
def objRow (aSubj : Node) (cntPreds : ℕ) (aPred : Property) (cntObjs : ℕ)
    (mustWriteColOneSubj mustWriteColOnePred : Bool) (anObj : Node) : Row where
  bgcolor := nam.colorClass (classOf nam aSubj)
  heads :=
    (if mustWriteColOneSubj then [(subjectContent nam aSubj, cntPreds)] else []) ++
    (if mustWriteColOnePred && aPred ∉ listPropsTdDoubleColSpan then
      [(predicateContent aPred, cntObjs)] else [])
  object := objectContent nam anObj
  colSpan := if aPred ∈ listPropsTdDoubleColSpan then 2 else 1

/-- The loop on the objects of a property. -/
def objRows (aSubj : Node) (cntPreds : ℕ) (aPred : Property) (cntObjs : ℕ) :
    Bool → Bool → List Node → List Row
  | _, _, [] => []
  | mustWriteColOneSubj, mustWriteColOnePred, anObj :: lstObjs =>
    objRow nam aSubj cntPreds aPred cntObjs mustWriteColOneSubj mustWriteColOnePred anObj ::
      objRows aSubj cntPreds aPred cntObjs false false lstObjs

/-- The loop on the properties of a subject. -/
def predRows (aSubj : Node) (cntPreds : ℕ) : Bool → List (Property × List Node) → List Row
  | _, [] => []
  | mustWriteColOneSubj, (aPred, lstObjs) :: preds =>
    objRows nam aSubj cntPreds aPred lstObjs.length mustWriteColOneSubj true
        (naturalSort nam (objTitle nam) lstObjs) ++
      predRows aSubj cntPreds (mustWriteColOneSubj && lstObjs.isEmpty) preds

/-- The lines of a subject. -/
def subjRows (aSubj : Node) (dictPred : DictPred) : List Row :=
  predRows nam aSubj (dictPred.map fun e => e.2.length).sum true (naturalSort nam Prod.fst dictPred)

/-- `DispClassObjects` -/
def dispClassObjects (dictSubjPropObj : Dict Node DictPred) : List Row :=
  (naturalSort nam (fun e => (nam.parseEntityUri e.1.text).1) dictSubjPropObj).flatMap
    fun e => subjRows nam e.1 e.2

/-- The triples that are shown: an information that is empty, or that `str` cannot convert, is
not. -/
def isShown (t : Triple) : Bool :=
  !(t.prop = propertyInformation && (t.obj.text = [] || !nam.canStr t.obj.text))

/-- `str` can convert the texts of a triple. -/
def canStrTriple (t : Triple) : Bool :=
  nam.canStr t.subj.text && nam.canStr t.prop && nam.canStr t.obj.text

/-- The objects of some triples, by their class, subject and property. -/
abbrev DictClass := Dict Text (Dict Node DictPred)

/-- A triple is added under its class, its subject and its property. -/
def addTriple (d : DictClass) (t : Triple) : DictClass :=
  Dict.add d (classOf nam t.subj) fun dictSubjPropObj =>
    Dict.add dictSubjPropObj t.subj fun dictPred => Dict.add dictPred t.prop (· ++ [t.obj])

/-- A heading, and the table under it. -/
structure ClassTable where
  href : Text
  entityGraphicClass : Text
  rows : List Row

/-- The pieces of a heading, and of the table under it. -/
def ClassTable.heading (t : ClassTable) : List Piece :=
  [([], "h3".toList), ("Class ".toList, "a href='".toList ++ (t.href ++ ['\''])),
    (t.entityGraphicClass, "/a".toList), ([], "/h3".toList)]

def ClassTable.pieces (t : ClassTable) : List Piece :=
  t.heading ++ (([], "table class=\"class_objects\"".toList) ::
    (t.rows.flatMap Row.pieces ++ [([' '], "/table".toList)]))

/-- The tables of the classes, in their order. -/
def classTables (grph : List Triple) : List ClassTable :=
  (((grph.filter (isShown nam)).foldl (addTriple nam) []).mergeSort
      fun a b => decide (a.1 ≤ b.1)).map fun e =>
    ⟨urlInHtmlMode (entityClassUrl nam.uriRoot e.1 [] [] .other), e.1, dispClassObjects nam e.2⟩

/-- What `str` raises. -/
inductive HtmlExn where
  | unicodeEncodeError
  deriving DecidableEq

/-- `WriteAllObjects`: the text that is written, unless the page is given up. -/
def writeAllObjects (grph : List Triple) : Except HtmlExn Text :=
  if (grph.filter (isShown nam)).all (canStrTriple nam) then
    .ok (render ((classTables nam grph).flatMap ClassTable.pieces))
  else .error .unicodeEncodeError

/-! ## What is read -/

/-- The three contents of a triple. A property that has no cell leaves its column to the object. -/
def gridRow (aSubj : Node) (aPred : Property) (anObj : Node) : List Content :=
  [subjectContent nam aSubj,
    if aPred ∈ listPropsTdDoubleColSpan then objectContent nam anObj else predicateContent aPred,
    objectContent nam anObj]

/-- The title of a table, in the pieces before it: the text of the link. -/
def titleOf (before : List Piece) : Text :=
  ((before.find? fun p => p.2 = "/a".toList).map Prod.fst).getD []

/-- The lines of some tables, each one with the title of its table. -/
def readTables (tables : List (Text × List (List (Cell Content)))) :
    Option (List (Text × List Content)) :=
  (tables.mapM fun t => (SpanTable.read t.2).map fun g => g.map fun r => (t.1, r)).map List.flatten

/-- The lines of the tables of a page. -/
def readPage (html : Text) : Option (List (Text × List Content)) :=
  readTables ((readHtmlTables html).map fun t => (titleOf t.1, t.2))

end

/-! ## The lines of a subject -/

section
variable {nam : HtmlNaming} {aSubj : Node} {cntPreds : ℕ} {aPred : Property} {cntObjs n : ℕ}
  {s : List (Column Content)}

/-- The cell of a subject goes on for some rows, and the two other columns are free. -/
def Pending (c : Content) (n : ℕ) (s : List (Column Content)) : Prop :=
  ∃ x y, s = [(c, n), (x, 0), (y, 0)]

/-- The three columns are free, or there was no row yet. -/
def Free (s : List (Column Content)) : Prop :=
  s = [] ∨ ∃ x y z, s = [(x, 0), (y, 0), (z, 0)]

theorem Pending.free {c : Content} (h : Pending c 0 s) : Free s := by
  obtain ⟨x, y, rfl⟩ := h
  exact .inr ⟨c, x, y, rfl⟩

theorem Free.forall_eq_zero (h : Free s) : ∀ c ∈ s, c.2 = 0 := by
  rcases h with rfl | ⟨x, y, z, rfl⟩ <;> simp

/-- The lines after the first one, for a property that has no cell. -/
theorem readRows_double (nam : HtmlNaming) (aSubj : Node) (cntPreds cntObjs n : ℕ)
    (hp : aPred ∈ listPropsTdDoubleColSpan) (mustPred : Bool) (x y : Content)
    (lstObjs : List Node) :
    ∃ s', SpanTable.readRows [(subjectContent nam aSubj, n + lstObjs.length), (x, 0), (y, 0)]
        ((objRows nam aSubj cntPreds aPred cntObjs false mustPred lstObjs).map Row.cells)
      = some (lstObjs.map (gridRow nam aSubj aPred), s') ∧
        Pending (subjectContent nam aSubj) n s' := by
  induction lstObjs generalizing x y mustPred with
  | nil => exact ⟨_, rfl, x, y, rfl⟩
  | cons o os ih =>
    obtain ⟨s', hread, hs'⟩ := ih false (objectContent nam o) (objectContent nam o)
    have hrow : readRow [(subjectContent nam aSubj, n + os.length + 1), (x, 0), (y, 0)]
        (objRow nam aSubj cntPreds aPred cntObjs false mustPred o).cells =
          some [(subjectContent nam aSubj, n + os.length), (objectContent nam o, 0),
            (objectContent nam o, 0)] := by
      simp [objRow, Row.cells, hp, readRow, readSlots, Cell.slots]
    refine ⟨s', ?_, hs'⟩
    rw [objRows, List.map_cons, List.map_cons, gridRow, if_pos hp]
    exact SpanTable.readRows_cons_of_eq hrow hread

/-- The lines after the first one, for a property that has a cell. -/
theorem readRows_single (nam : HtmlNaming) (aSubj : Node) (cntPreds cntObjs n : ℕ)
    (hp : aPred ∉ listPropsTdDoubleColSpan) (y : Content)
    (lstObjs : List Node) :
    ∃ s', SpanTable.readRows [(subjectContent nam aSubj, n + lstObjs.length),
          (predicateContent aPred, lstObjs.length), (y, 0)]
        ((objRows nam aSubj cntPreds aPred cntObjs false false lstObjs).map Row.cells)
      = some (lstObjs.map (gridRow nam aSubj aPred), s') ∧
        Pending (subjectContent nam aSubj) n s' := by
  induction lstObjs generalizing y with
  | nil => exact ⟨_, rfl, _, y, rfl⟩
  | cons o os ih =>
    obtain ⟨s', hread, hs'⟩ := ih (objectContent nam o)
    have hrow : readRow [(subjectContent nam aSubj, n + os.length + 1),
          (predicateContent aPred, os.length + 1), (y, 0)]
        (objRow nam aSubj cntPreds aPred cntObjs false false o).cells =
          some [(subjectContent nam aSubj, n + os.length), (predicateContent aPred, os.length),
            (objectContent nam o, 0)] := by
      simp [objRow, Row.cells, readRow, readSlots, Cell.slots, hp]
    refine ⟨s', ?_, hs'⟩
    rw [objRows, List.map_cons, List.map_cons, gridRow, if_neg hp]
    exact SpanTable.readRows_cons_of_eq hrow hread

/-- The lines of a property, when the cell of the subject goes on. -/
theorem readRows_objRows (lstObjs : List Node)
    (hs : Pending (subjectContent nam aSubj) (n + lstObjs.length) s) :
    ∃ s', SpanTable.readRows s
        ((objRows nam aSubj cntPreds aPred lstObjs.length false true lstObjs).map Row.cells)
      = some (lstObjs.map (gridRow nam aSubj aPred), s') ∧
        Pending (subjectContent nam aSubj) n s' := by
  obtain ⟨x, y, rfl⟩ := hs
  by_cases hp : aPred ∈ listPropsTdDoubleColSpan
  · exact readRows_double nam aSubj cntPreds lstObjs.length n hp true x y lstObjs
  · cases lstObjs with
    | nil => exact ⟨_, rfl, x, y, rfl⟩
    | cons o os =>
      have hrow : readRow [(subjectContent nam aSubj, n + os.length + 1), (x, 0), (y, 0)]
          (objRow nam aSubj cntPreds aPred (os.length + 1) false true o).cells =
            some [(subjectContent nam aSubj, n + os.length), (predicateContent aPred, os.length),
              (objectContent nam o, 0)] := by
        simp [objRow, Row.cells, readRow, readSlots, Cell.slots, hp]
      obtain ⟨s', hread, hs'⟩ := readRows_single nam aSubj cntPreds (os.length + 1) n hp
        (objectContent nam o) os
      refine ⟨s', ?_, hs'⟩
      rw [objRows, List.map_cons, List.map_cons, gridRow, if_neg hp]
      exact SpanTable.readRows_cons_of_eq hrow hread

/-- The first lines of a subject. -/
theorem readRows_first (aPred : Property) {o : Node} {os : List Node} (hs : Free s)
    (hcnt : cntPreds = n + os.length + 1) :
    ∃ s', SpanTable.readRows s
        ((objRows nam aSubj cntPreds aPred (os.length + 1) true true (o :: os)).map Row.cells)
      = some ((o :: os).map (gridRow nam aSubj aPred), s') ∧
        Pending (subjectContent nam aSubj) n s' := by
  subst hcnt
  rw [objRows, List.map_cons, List.map_cons, gridRow]
  by_cases hp : aPred ∈ listPropsTdDoubleColSpan
  · have hrow : readRow s
        (objRow nam aSubj (n + os.length + 1) aPred (os.length + 1) true true o).cells =
          some [(subjectContent nam aSubj, n + os.length), (objectContent nam o, 0),
            (objectContent nam o, 0)] := by
      rcases hs with rfl | ⟨x, y, z, rfl⟩ <;>
        simp [objRow, Row.cells, readRow, readSlots, Cell.slots, hp]
    obtain ⟨s', hread, hs'⟩ := readRows_double nam aSubj (n + os.length + 1) (os.length + 1) n hp
      false (objectContent nam o) (objectContent nam o) os
    rw [if_pos hp]
    exact ⟨s', SpanTable.readRows_cons_of_eq hrow hread, hs'⟩
  · have hrow : readRow s
        (objRow nam aSubj (n + os.length + 1) aPred (os.length + 1) true true o).cells =
          some [(subjectContent nam aSubj, n + os.length), (predicateContent aPred, os.length),
            (objectContent nam o, 0)] := by
      rcases hs with rfl | ⟨x, y, z, rfl⟩ <;>
        simp [objRow, Row.cells, readRow, readSlots, Cell.slots, hp]
    obtain ⟨s', hread, hs'⟩ := readRows_single nam aSubj (n + os.length + 1) (os.length + 1) n hp
      (objectContent nam o) os
    rw [if_neg hp]
    exact ⟨s', SpanTable.readRows_cons_of_eq hrow hread, hs'⟩

/-- How many objects some properties have. -/
def countObjs (preds : List (Property × List Node)) : ℕ := (preds.map fun e => e.2.length).sum

/-- What is read for some properties of a subject. -/
def gridPreds (nam : HtmlNaming) (aSubj : Node) (preds : List (Property × List Node)) :
    List (List Content) :=
  preds.flatMap fun e => (naturalSort nam (objTitle nam) e.2).map (gridRow nam aSubj e.1)

theorem length_naturalSort {α : Type} (key : α → Text) (l : List α) :
    (naturalSort nam key l).length = l.length := List.length_mergeSort l

/-- The lines of the properties after the first one. -/
theorem readRows_predRows (preds : List (Property × List Node))
    (hs : Pending (subjectContent nam aSubj) (countObjs preds) s) :
    ∃ s', SpanTable.readRows s ((predRows nam aSubj cntPreds false preds).map Row.cells)
      = some (gridPreds nam aSubj preds, s') ∧ Pending (subjectContent nam aSubj) 0 s' := by
  induction preds generalizing s with
  | nil => exact ⟨s, rfl, hs⟩
  | cons e preds ih =>
    obtain ⟨p, os⟩ := e
    have hlen : (naturalSort nam (objTitle nam) os).length = os.length := length_naturalSort _ _
    have hpending : Pending (subjectContent nam aSubj)
        (countObjs preds + (naturalSort nam (objTitle nam) os).length) s := by
      rw [hlen, Nat.add_comm]
      exact hs
    obtain ⟨s', hread, hs'⟩ := readRows_objRows _ hpending
    obtain ⟨s'', hread', hs''⟩ := ih hs'
    refine ⟨s'', ?_, hs''⟩
    rw [hlen] at hread
    rw [predRows, Bool.false_and, List.map_append, gridPreds, List.flatMap_cons]
    exact SpanTable.readRows_append_of_eq hread hread'

/-- The lines of a subject. -/
theorem readRows_subjRows {dictPred : DictPred} (hne : dictPred ≠ [])
    (hobjs : ∀ e ∈ dictPred, e.2 ≠ []) (hs : Free s) :
    ∃ s', SpanTable.readRows s ((subjRows nam aSubj dictPred).map Row.cells)
      = some (gridPreds nam aSubj (naturalSort nam Prod.fst dictPred), s') ∧ Free s' := by
  have hperm : (naturalSort nam Prod.fst dictPred).Perm dictPred := List.mergeSort_perm _ _
  have hcount : countObjs (naturalSort nam Prod.fst dictPred) = countObjs dictPred :=
    (hperm.map _).sum_nat
  rw [subjRows, show (dictPred.map fun e => e.2.length).sum = countObjs dictPred from rfl, ← hcount]
  have hobjs' : ∀ e ∈ naturalSort nam Prod.fst dictPred, e.2 ≠ [] := fun e he =>
    hobjs e (hperm.mem_iff.mp he)
  have hne' : naturalSort nam Prod.fst dictPred ≠ [] := fun h =>
    hne (List.Perm.nil_eq (h ▸ hperm)).symm
  generalize naturalSort nam Prod.fst dictPred = preds at *
  cases preds with
  | nil => exact absurd rfl hne'
  | cons e preds =>
    obtain ⟨p, os⟩ := e
    have hlen : (naturalSort nam (objTitle nam) os).length = os.length := length_naturalSort _ _
    have hos : os ≠ [] := hobjs' _ List.mem_cons_self
    obtain ⟨o, os', hsort⟩ : ∃ o os', naturalSort nam (objTitle nam) os = o :: os' :=
      List.exists_cons_of_ne_nil fun h => hos (List.length_eq_zero_iff.mp (by rw [← hlen, h]; rfl))
    have hcnt : countObjs ((p, os) :: preds) = countObjs preds + os'.length + 1 := by
      rw [hsort, List.length_cons] at hlen
      rw [countObjs, List.map_cons, List.sum_cons, ← hlen, countObjs]
      omega
    obtain ⟨s', hread, hs'⟩ := readRows_first p hs hcnt
    obtain ⟨s'', hread', hs''⟩ := readRows_predRows preds hs'
    refine ⟨s'', ?_, hs''.free⟩
    have hfalse : (true && os.isEmpty) = false := by simp [hos]
    rw [predRows, hfalse, List.map_append, gridPreds, List.flatMap_cons, ← hlen, hsort]
    exact SpanTable.readRows_append_of_eq hread hread'

/-! ## The tables -/

/-- The triples of a subject. -/
def predItems (aSubj : Node) (dictPred : DictPred) : List Triple :=
  Dict.items (fun aPred lstObjs => lstObjs.map fun anObj => ⟨aSubj, aPred, anObj⟩) dictPred

/-- The triples of a class. -/
def subjItems (d : Dict Node DictPred) : List Triple := Dict.items predItems d

/-- The triples of all the classes, with their class. -/
def classItems (d : DictClass) : List (Text × Triple) :=
  Dict.items (fun c dictSubjPropObj => (subjItems dictSubjPropObj).map fun t => (c, t)) d

/-- Each subject has properties, and each property has objects. -/
def Filled (d : Dict Node DictPred) : Prop := ∀ e ∈ d, e.2 ≠ [] ∧ ∀ p ∈ e.2, p.2 ≠ []

/-- The contents of a triple. -/
def gridOf (nam : HtmlNaming) (t : Triple) : List Content := gridRow nam t.subj t.prop t.obj

/-- A triple that is added is one more triple. -/
theorem classItems_addTriple (nam : HtmlNaming) (d : DictClass) (t : Triple) :
    (classItems (addTriple nam d t)).Perm (classItems d ++ [(classOf nam t.subj, t)]) := by
  refine Dict.items_add_perm rfl (fun ds => ?_) d
  have hsubj : (subjItems (Dict.add ds t.subj fun dictPred =>
      Dict.add dictPred t.prop (· ++ [t.obj]))).Perm (subjItems ds ++ [t]) := by
    refine Dict.items_add_perm rfl (fun dp => ?_) ds
    refine Dict.items_add_perm rfl (fun os => ?_) dp
    rw [List.map_append]
    exact List.Perm.refl _
  have h := hsubj.map fun t' => (classOf nam t.subj, t')
  rwa [List.map_append] at h

/-- The groups have the triples. -/
theorem classItems_foldl (nam : HtmlNaming) (l : List Triple) (d : DictClass) :
    (classItems (l.foldl (addTriple nam) d)).Perm
      (classItems d ++ l.map fun t => (classOf nam t.subj, t)) := by
  induction l generalizing d with
  | nil => simp
  | cons t l ih =>
    rw [List.foldl_cons, List.map_cons, List.append_cons]
    exact (ih _).trans ((classItems_addTriple nam d t).append_right _)

theorem filled_addTriple {nam : HtmlNaming} {d : DictClass} (hd : ∀ e ∈ d, Filled e.2)
    (t : Triple) : ∀ e ∈ addTriple nam d t, Filled e.2 := by
  have hpred (dp : DictPred) (h : ∀ p ∈ dp, p.2 ≠ []) :
      Dict.add dp t.prop (· ++ [t.obj]) ≠ [] ∧
        ∀ p ∈ Dict.add dp t.prop (· ++ [t.obj]), p.2 ≠ [] := by
    refine ⟨Dict.add_ne_nil dp t.prop _, ?_⟩
    exact Dict.forall_mem_add (P := fun os => os ≠ []) h t.prop (by simp) (by simp)
  have hsubj (ds : Dict Node DictPred) (h : Filled ds) :
      Filled (Dict.add ds t.subj fun dp => Dict.add dp t.prop (· ++ [t.obj])) := by
    refine Dict.forall_mem_add (P := fun dp : List (Property × List Node) =>
      dp ≠ [] ∧ ∀ p ∈ dp, p.2 ≠ []) h t.subj (hpred [] (by simp)) fun dp hdp => hpred dp hdp.2
  exact Dict.forall_mem_add (P := Filled) hd (classOf nam t.subj)
    (hsubj [] (by simp [Filled])) hsubj

/-- What is read for some subjects. -/
def gridSubjects (nam : HtmlNaming) (l : List (Node × DictPred)) : List (List Content) :=
  l.flatMap fun e => gridPreds nam e.1 (naturalSort nam Prod.fst e.2)

theorem readRows_subjects (nam : HtmlNaming) {l : List (Node × DictPred)}
    (hl : ∀ e ∈ l, e.2 ≠ [] ∧ ∀ p ∈ e.2, p.2 ≠ []) (hs : Free s) :
    ∃ s', SpanTable.readRows s ((l.flatMap fun e => subjRows nam e.1 e.2).map Row.cells)
      = some (gridSubjects nam l, s') ∧ Free s' := by
  induction l generalizing s with
  | nil => exact ⟨s, rfl, hs⟩
  | cons e l ih =>
    have he := hl e List.mem_cons_self
    obtain ⟨s', hread, hs'⟩ := readRows_subjRows he.1 he.2 hs
    obtain ⟨s'', hread', hs''⟩ := ih (fun e' he' => hl e' (List.mem_cons_of_mem e he')) hs'
    refine ⟨s'', ?_, hs''⟩
    rw [List.flatMap_cons, List.map_append, gridSubjects, List.flatMap_cons]
    exact SpanTable.readRows_append_of_eq hread hread'

theorem gridPreds_perm (nam : HtmlNaming) (aSubj : Node) (dictPred : DictPred) :
    (gridPreds nam aSubj (naturalSort nam Prod.fst dictPred)).Perm
      ((predItems aSubj dictPred).map (gridOf nam)) := by
  refine (List.Perm.flatMap_right _ (List.mergeSort_perm _ _)).trans ?_
  rw [predItems, Dict.items, List.map_flatMap]
  refine List.Perm.flatMap_left _ fun e _ => ?_
  rw [List.map_map]
  exact (List.mergeSort_perm e.2 _).map _

theorem gridSubjects_perm (nam : HtmlNaming) {l : List (Node × DictPred)}
    {d : Dict Node DictPred} (h : l.Perm d) :
    (gridSubjects nam l).Perm ((subjItems d).map (gridOf nam)) := by
  refine (List.Perm.flatMap_right _ h).trans ?_
  rw [subjItems, Dict.items, List.map_flatMap]
  exact List.Perm.flatMap_left _ fun e _ => gridPreds_perm nam e.1 e.2

/-- The table of a class is well formed, and has its triples. -/
theorem read_dispClassObjects (nam : HtmlNaming) {d : Dict Node DictPred} (hd : Filled d) :
    ∃ g, SpanTable.read ((dispClassObjects nam d).map Row.cells) = some g ∧
      g.Perm ((subjItems d).map (gridOf nam)) := by
  have hperm : (naturalSort nam (fun e => (nam.parseEntityUri e.1.text).1) d).Perm d :=
    List.mergeSort_perm _ _
  obtain ⟨s', hread, hs'⟩ := readRows_subjects nam
    (fun e he => hd e (hperm.mem_iff.mp he)) (.inl rfl)
  exact ⟨_, SpanTable.read_of_eq hread hs'.forall_eq_zero, gridSubjects_perm nam hperm⟩

/-- One table more. -/
theorem readTables_cons_of_eq {title : Text} {rows : List (List (Cell Content))}
    {tables : List (Text × List (List (Cell Content)))} {g : List (List Content)}
    {r : List (Text × List Content)} (h : SpanTable.read rows = some g)
    (h' : readTables tables = some r) :
    readTables ((title, rows) :: tables) = some (g.map (fun row => (title, row)) ++ r) := by
  obtain ⟨rs, hrs, rfl⟩ := Option.map_eq_some_iff.mp h'
  simp [readTables, h, hrs]

/-- The tables of some classes are well formed, and have their triples. -/
theorem readTables_map (nam : HtmlNaming) {l : List (Text × Dict Node DictPred)}
    (hl : ∀ e ∈ l, Filled e.2) :
    ∃ r, readTables (l.map fun e => (e.1, (dispClassObjects nam e.2).map Row.cells)) = some r ∧
      r.Perm ((classItems l).map fun e => (e.1, gridOf nam e.2)) := by
  induction l with
  | nil => exact ⟨[], rfl, .refl _⟩
  | cons e l ih =>
    obtain ⟨g, hread, hg⟩ := read_dispClassObjects nam (hl e List.mem_cons_self)
    obtain ⟨r, hread', hr⟩ := ih fun e' he' => hl e' (List.mem_cons_of_mem e he')
    refine ⟨_, readTables_cons_of_eq hread hread', ?_⟩
    rw [classItems, Dict.items_cons, List.map_append]
    refine List.Perm.append ?_ hr
    rw [List.map_map]
    refine (hg.map _).trans ?_
    rw [List.map_map]
    exact List.Perm.refl _

end

/-! ## The text of the tables -/

theorem closed_textContent (html : Text) : (textContent html).Closed := ⟨[], html, rfl, by simp⟩

theorem closed_linkContent (href title : Text) : (linkContent href title).Closed :=
  ⟨[_, _], [], rfl, by simp⟩

theorem closed_imageContent (href title : Text) : (imageContent href title).Closed :=
  ⟨[_, _, _], [], rfl, by simp⟩

theorem closed_objectContent (nam : HtmlNaming) (anObj : Node) :
    (objectContent nam anObj).Closed := by
  rw [objectContent]
  dsimp only
  split_ifs
  · exact closed_textContent _
  · exact closed_linkContent _ _
  · exact closed_imageContent _ _
  · exact closed_linkContent _ _

section
variable {r : Reading} (hcell : r.cell = none)
include hcell

/-- A number stands in a tag after a text in which no span begins. -/
theorem read_headPieces {c : Content × ℕ} (hc : c.1.Closed) :
    r.read (headPieces c) = { r with row := r.row ++ [⟨c.1, c.2, 1⟩] } := by
  have hrow : Markup.spanOf "rowspan=\"".toList
      ("td valign=\"top\" rowspan=\"".toList ++ (Nat.toDigits 10 c.2 ++ ['"'])) = c.2 :=
    @Markup.spanOf_of_attribute?_eq _ _ [] _ rfl
  have hcol : Markup.spanOf "colspan=\"".toList
      ("td valign=\"top\" rowspan=\"".toList ++ (Nat.toDigits 10 c.2 ++ ['"'])) = 1 := by
    refine Markup.spanOf_of_attribute?_eq_none (Eq.trans rfl
      (Markup.attribute?_of_not_mem (c := 'c') (s := Nat.toDigits 10 c.2 ++ ['"']) ?_))
    intro hmem
    rcases List.mem_append.mp hmem with hmem | hmem
    · cases PyText.isDigit_of_mem_toDigits hmem
    · cases List.mem_singleton.mp hmem
  rw [headPieces, Reading.read_cell hcell rfl hc, hrow, hcol]

theorem read_heads {heads : List (Content × ℕ)} (hheads : ∀ c ∈ heads, c.1.Closed) :
    r.read (heads.flatMap headPieces) =
      { r with row := r.row ++ heads.map fun c => ⟨c.1, c.2, 1⟩ } := by
  induction heads generalizing r with
  | nil => simp
  | cons c heads ih =>
    rw [List.flatMap_cons, Reading.read_append, read_headPieces hcell (hheads c (by simp)),
      ih (r := { r with row := r.row ++ [⟨c.1, c.2, 1⟩] }) hcell
        fun c hc => hheads c (by simp [hc])]
    simp

theorem read_object {object : Content} (hobject : object.Closed) (colSpan : ℕ) :
    r.read (([], "td colspan=\"".toList ++ (Nat.toDigits 10 colSpan ++ ['"'])) :: object) =
      { r with row := r.row ++ [⟨object, 1, colSpan⟩] } := by
  have hcol : Markup.spanOf "colspan=\"".toList
      ("td colspan=\"".toList ++ (Nat.toDigits 10 colSpan ++ ['"'])) = colSpan :=
    @Markup.spanOf_of_attribute?_eq _ _ [] _ rfl
  have hrow : Markup.spanOf "rowspan=\"".toList
      ("td colspan=\"".toList ++ (Nat.toDigits 10 colSpan ++ ['"'])) = 1 := by
    refine Markup.spanOf_of_attribute?_eq_none (Eq.trans rfl
      (Markup.attribute?_of_not_mem (c := 'r') (s := Nat.toDigits 10 colSpan ++ ['"']) ?_))
    intro hmem
    rcases List.mem_append.mp hmem with hmem | hmem
    · cases PyText.isDigit_of_mem_toDigits hmem
    · cases List.mem_singleton.mp hmem
  rw [Reading.read_cell hcell rfl hobject, hrow, hcol]

/-- The cells of a row end with their own tags. -/
structure Row.Closed (row : Row) : Prop where
  heads : ∀ c ∈ row.heads, c.1.Closed
  object : row.object.Closed

/-- A row is read, with its cells. -/
theorem read_row (hrow : r.row = []) {row : Row} (hclosed : row.Closed) :
    r.read row.pieces = { r with rows := r.rows ++ [row.cells] } := by
  have hstart : r.step ([], "tr bgcolor=\"".toList ++ (row.bgcolor ++ ['"'])) = r := by
    rw [Reading.step, hcell]
    rfl
  have hobject := read_object (r := { r with row := r.row ++ row.heads.map fun c => ⟨c.1, c.2, 1⟩ })
    hcell hclosed.object row.colSpan
  rw [Row.pieces, Reading.read_cons, hstart, Reading.read_append, read_heads hcell hclosed.heads,
    Reading.read_append, hobject, Reading.read_cons, Reading.read_nil, Reading.step]
  simp only [hcell, hrow, List.nil_append]
  rfl

theorem read_rows (hrow : r.row = []) {rows : List Row} (hrows : ∀ row ∈ rows, row.Closed) :
    r.read (rows.flatMap Row.pieces) = { r with rows := r.rows ++ rows.map Row.cells } := by
  induction rows generalizing r with
  | nil => simp
  | cons row rows ih =>
    rw [List.flatMap_cons, Reading.read_append, read_row hcell hrow (hrows row (by simp)),
      ih (r := { r with rows := r.rows ++ [row.cells] }) hcell hrow
        fun row hmem => hrows row (by simp [hmem])]
    simp

end

/-- A table is read, with its heading. -/
theorem read_table (tables : List (List Piece × List (List (Cell Content)))) {t : ClassTable}
    (hrows : ∀ row ∈ t.rows, row.Closed) :
    Reading.read ⟨tables, [], [], [], none⟩ t.pieces =
      ⟨tables ++ [(t.heading, t.rows.map Row.cells)], [], [], [], none⟩ := by
  have hheading : Reading.read ⟨tables, [], [], [], none⟩ t.heading =
      ⟨tables, t.heading, [], [], none⟩ := rfl
  rw [ClassTable.pieces, Reading.read_append, hheading, Reading.read_cons,
    show Reading.step ⟨tables, t.heading, [], [], none⟩ ([], "table class=\"class_objects\"".toList)
      = ⟨tables, t.heading, [], [], none⟩ from rfl, Reading.read_append,
    read_rows rfl rfl hrows]
  rfl

theorem read_tables {ts : List ClassTable} (hts : ∀ t ∈ ts, ∀ row ∈ t.rows, row.Closed)
    (tables : List (List Piece × List (List (Cell Content)))) :
    (Reading.read ⟨tables, [], [], [], none⟩ (ts.flatMap ClassTable.pieces)).tables =
      tables ++ ts.map fun t => (t.heading, t.rows.map Row.cells) := by
  induction ts generalizing tables with
  | nil => simp
  | cons t ts ih =>
    rw [List.flatMap_cons, Reading.read_append, read_table tables (hts t (by simp)),
      ih fun t ht => hts t (by simp [ht])]
    simp

/-- The tables are read back from their text, when it is clean. -/
theorem readPage_render {ts : List ClassTable} (hts : ∀ t ∈ ts, ∀ row ∈ t.rows, row.Closed)
    (hclean : ∀ t ∈ ts, ∀ p ∈ t.pieces, p.Clean) :
    readPage (render (ts.flatMap ClassTable.pieces)) =
      readTables (ts.map fun t => (t.entityGraphicClass, t.rows.map Row.cells)) := by
  have hpieces : ∀ p ∈ ts.flatMap ClassTable.pieces, p.Clean := by
    intro p hp
    obtain ⟨t, ht, hp⟩ := List.mem_flatMap.mp hp
    exact hclean t ht p hp
  have htables := read_tables hts []
  rw [readPage, readHtmlTables, Markup.pieces_render hpieces]
  rw [show Reading.init = ⟨[], [], [], [], none⟩ from rfl, htables, List.nil_append, List.map_map]
  rfl

/-! ## The lines that are written -/

/-- A line is written for a triple. -/
def WrittenFor (nam : HtmlNaming) (t : Triple) (row : Row) : Prop :=
  ∃ cntPreds cntObjs mustSubj mustPred,
    row = objRow nam t.subj cntPreds t.prop cntObjs mustSubj mustPred t.obj

section
variable {nam : HtmlNaming} {row : Row}

theorem mem_objRows {aSubj : Node} {cntPreds cntObjs : ℕ} {aPred : Property} {b b' : Bool}
    {lstObjs : List Node} (h : row ∈ objRows nam aSubj cntPreds aPred cntObjs b b' lstObjs) :
    ∃ anObj ∈ lstObjs, WrittenFor nam ⟨aSubj, aPred, anObj⟩ row := by
  induction lstObjs generalizing b b' with
  | nil => cases h
  | cons o os ih =>
    rw [objRows, List.mem_cons] at h
    rcases h with rfl | h
    · exact ⟨o, by simp, cntPreds, cntObjs, b, b', rfl⟩
    · obtain ⟨anObj, hmem, hrow⟩ := ih h
      exact ⟨anObj, by simp [hmem], hrow⟩

theorem mem_predRows {aSubj : Node} {cntPreds : ℕ} {b : Bool} {preds : DictPred}
    (h : row ∈ predRows nam aSubj cntPreds b preds) :
    ∃ t ∈ predItems aSubj preds, WrittenFor nam t row := by
  induction preds generalizing b with
  | nil => cases h
  | cons e preds ih =>
    obtain ⟨p, os⟩ := e
    rw [predItems, Dict.items_cons]
    rw [predRows, List.mem_append] at h
    rcases h with h | h
    · obtain ⟨o, ho, hrow⟩ := mem_objRows h
      have ho' : o ∈ os := (List.mergeSort_perm _ _).mem_iff.mp ho
      exact ⟨_, List.mem_append_left _ (List.mem_map.mpr ⟨o, ho', rfl⟩), hrow⟩
    · obtain ⟨t, ht, hrow⟩ := ih h
      exact ⟨t, List.mem_append_right _ ht, hrow⟩

/-- The lines of a class are written for its triples. -/
theorem mem_dispClassObjects {d : Dict Node DictPred} (h : row ∈ dispClassObjects nam d) :
    ∃ t ∈ subjItems d, WrittenFor nam t row := by
  obtain ⟨e, he, hrow⟩ := List.mem_flatMap.mp h
  have he' : e ∈ d := (List.mergeSort_perm _ _).mem_iff.mp he
  obtain ⟨t, ht, hrow⟩ := mem_predRows hrow
  have hperm : (predItems e.1 (naturalSort nam Prod.fst e.2)).Perm (predItems e.1 e.2) :=
    List.Perm.flatMap_right _ (List.mergeSort_perm _ _)
  exact ⟨t, List.mem_flatMap.mpr ⟨e, he', hperm.mem_iff.mp ht⟩, hrow⟩

theorem WrittenFor.closed {t : Triple} (h : WrittenFor nam t row) : row.Closed := by
  obtain ⟨cntPreds, cntObjs, mustSubj, mustPred, rfl⟩ := h
  refine ⟨fun c hc => ?_, closed_objectContent nam t.obj⟩
  rcases List.mem_append.mp hc with hc | hc
  · split_ifs at hc
    · rw [List.mem_singleton.mp hc]
      exact closed_linkContent _ _
    · cases hc
  · split_ifs at hc
    · rw [List.mem_singleton.mp hc]
      exact closed_textContent _
    · cases hc

/-- No text of a triple, as it is written, has a tag. -/
structure CleanTriple (nam : HtmlNaming) (t : Triple) : Prop where
  color : '>' ∉ nam.colorClass (classOf nam t.subj)
  title : '<' ∉ classOf nam t.subj
  href : '>' ∉ urlInHtmlMode (entityClassUrl nam.uriRoot (classOf nam t.subj) [] [] .other)
  subject : ∀ p ∈ subjectContent nam t.subj, p.Clean
  predicate : ∀ p ∈ predicateContent t.prop, p.Clean
  object : ∀ p ∈ objectContent nam t.obj, p.Clean

instance (nam : HtmlNaming) (t : Triple) : Decidable (CleanTriple nam t) :=
  decidable_of_iff (_ ∧ _ ∧ _ ∧ _ ∧ _ ∧ _)
    ⟨fun h => ⟨h.1, h.2.1, h.2.2.1, h.2.2.2.1, h.2.2.2.2.1, h.2.2.2.2.2⟩,
      fun h => ⟨h.color, h.title, h.href, h.subject, h.predicate, h.object⟩⟩

theorem clean_number {start : Text} (h : '>' ∉ start) (n : ℕ) :
    Piece.Clean ([], start ++ (Nat.toDigits 10 n ++ ['"'])) := by
  refine ⟨by simp, fun hmem => ?_⟩
  rcases List.mem_append.mp hmem with hmem | hmem
  · exact h hmem
  · rcases List.mem_append.mp hmem with hmem | hmem
    · cases PyText.isDigit_of_mem_toDigits hmem
    · cases List.mem_singleton.mp hmem

/-- The pieces of the line of a triple. -/
theorem WrittenFor.clean {t : Triple} (h : WrittenFor nam t row) (ht : CleanTriple nam t) :
    ∀ p ∈ row.pieces, p.Clean := by
  obtain ⟨cntPreds, cntObjs, mustSubj, mustPred, rfl⟩ := h
  intro p hp
  rw [Row.pieces, List.mem_cons, List.mem_append, List.mem_append, List.mem_cons] at hp
  rcases hp with rfl | hp | (rfl | hp) | hp
  · have := ht.color
    exact ⟨by simp, by simp [objRow, this]⟩
  · obtain ⟨c, hc, hp⟩ := List.mem_flatMap.mp hp
    rw [headPieces, List.mem_cons] at hp
    rcases hp with rfl | hp
    · exact clean_number (by decide) _
    · rcases List.mem_append.mp hc with hc | hc
      · split_ifs at hc
        · rw [List.mem_singleton.mp hc] at hp
          exact ht.subject p hp
        · cases hc
      · split_ifs at hc
        · rw [List.mem_singleton.mp hc] at hp
          exact ht.predicate p hp
        · cases hc
  · exact clean_number (by decide) _
  · exact ht.object p hp
  · rw [List.mem_singleton.mp hp]
    decide

/-- A class has a triple. -/
theorem exists_mem_subjItems {d : Dict Node DictPred} (hne : d ≠ []) (hd : Filled d) :
    ∃ t, t ∈ subjItems d := by
  obtain ⟨e, d', rfl⟩ := List.exists_cons_of_ne_nil hne
  obtain ⟨hpreds, hobjs⟩ := hd e (by simp)
  obtain ⟨p, hp⟩ := List.exists_mem_of_ne_nil _ hpreds
  obtain ⟨o, ho⟩ := List.exists_mem_of_ne_nil _ (hobjs p hp)
  exact ⟨⟨e.1, p.1, o⟩, List.mem_flatMap.mpr ⟨e, by simp, List.mem_flatMap.mpr
    ⟨p, hp, List.mem_map.mpr ⟨o, ho, rfl⟩⟩⟩⟩

theorem ne_nil_addTriple {d : DictClass} (hd : ∀ e ∈ d, e.2 ≠ []) (t : Triple) :
    ∀ e ∈ addTriple nam d t, e.2 ≠ [] :=
  Dict.forall_mem_add (P := fun ds : Dict Node DictPred => ds ≠ []) hd (classOf nam t.subj)
    (Dict.add_ne_nil _ _ _) fun _ _ => Dict.add_ne_nil _ _ _

/-- What is grouped under a class: triples that are shown, of the class. -/
theorem mem_grouped {l : List Triple} {e : Text × Dict Node DictPred}
    (he : e ∈ l.foldl (addTriple nam) []) {t : Triple} (ht : t ∈ subjItems e.2) :
    t ∈ l ∧ e.1 = classOf nam t.subj := by
  have hmem : (e.1, t) ∈ classItems (l.foldl (addTriple nam) []) :=
    List.mem_flatMap.mpr ⟨e, he, List.mem_map.mpr ⟨t, ht, rfl⟩⟩
  rw [(classItems_foldl nam l []).mem_iff, show classItems [] = [] from rfl, List.nil_append] at hmem
  obtain ⟨t', ht', heq⟩ := List.mem_map.mp hmem
  rw [Prod.mk.injEq] at heq
  obtain ⟨hclass, rfl⟩ := heq
  exact ⟨ht', hclass.symm⟩

/-- The pieces of the table of a class. -/
theorem clean_classTable {l : List Triple} (hl : ∀ t ∈ l, CleanTriple nam t)
    {e : Text × Dict Node DictPred} (he : e ∈ l.foldl (addTriple nam) [])
    (hne : e.2 ≠ []) (hd : Filled e.2) :
    ∀ p ∈ ClassTable.pieces ⟨urlInHtmlMode (entityClassUrl nam.uriRoot e.1 [] [] .other), e.1,
      dispClassObjects nam e.2⟩, p.Clean := by
  obtain ⟨t, ht⟩ := exists_mem_subjItems hne hd
  obtain ⟨htl, hclass⟩ := mem_grouped he ht
  have hclean := hl t htl
  have htitle := hclass ▸ hclean.title
  have hhref := hclass ▸ hclean.href
  intro p hp
  rw [ClassTable.pieces, List.mem_append, List.mem_cons, List.mem_append] at hp
  rcases hp with hp | rfl | hp | hp
  · simp only [ClassTable.heading, List.mem_cons, List.not_mem_nil, or_false] at hp
    rcases hp with rfl | rfl | rfl | rfl
    · decide
    · exact ⟨by simp, by simp [hhref]⟩
    · exact ⟨htitle, by simp⟩
    · decide
  · decide
  · obtain ⟨row, hrow, hp⟩ := List.mem_flatMap.mp hp
    obtain ⟨t', ht', hfor⟩ := mem_dispClassObjects hrow
    exact hfor.clean (hl t' (mem_grouped he ht').1) p hp
  · rw [List.mem_singleton.mp hp]
    decide

end

/-- Addresses are their own titles, and what is before a slash is a class. -/
def plainNaming : HtmlNaming where
  parseEntityUri uri := (uri, uri.takeWhile (· ≠ '/'), [])
  unescape := id
  colorClass _ := "#FFFFFF".toList
  naturalLe s t := decide (s ≤ t)
  uriRoot := Uris.localRoot
  canStr s := s.all fun c => c.toNat < 128

/-- A process with two files, an empty information and another one that is not in ASCII, and one of
its files with an information. -/
def processGraph : List Triple :=
  let process := Node.url "CIM_Process/7".toList
  let file := Node.url "CIM_DataFile/a".toList
  [⟨process, makeProp "file".toList, file⟩, ⟨process, propertyInformation, .literal []⟩,
    ⟨process, makeProp "file".toList, .url "CIM_DataFile/b".toList⟩,
    ⟨process, propertyInformation, .literal "comprobación".toList⟩,
    ⟨file, propertyInformation, .literal "10 bytes".toList⟩]

end Survol.Html
