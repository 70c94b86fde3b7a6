import Survol.Lib.Decimal
import Survol.Lib.SpanTable

/-!
# HTML texts

A small reader of HTML: a text is cut at its tags, nothing is known of references, and the tables
are put together from the tags of their rows and cells, with what stands before each table.

## Main definitions

* `Piece`, `render` — a text with the tag after it, and what is written for some of them.
* `pieces` — the pieces of a text.
* `spanOf` — how many rows or columns a tag spans.
* `Reading`, `readHtmlTables` — the tables of a text.

## Main results

* `pieces_render` — the pieces are read back, when no text has a tag and no tag has its end.
-/

open PyText (Text)
open SpanTable (Cell)

namespace Markup

/-! ## Pieces -/

/-- A text, and the tag after it. -/
abbrev Piece := Text × Text

def render (ps : List Piece) : Text := ps.flatMap fun p => p.1 ++ '<' :: (p.2 ++ ['>'])

/-- Nothing in the text starts a tag, and nothing in the tag ends it. -/
def Piece.Clean (p : Piece) : Prop := '<' ∉ p.1 ∧ '>' ∉ p.2

instance (p : Piece) : Decidable p.Clean := inferInstanceAs (Decidable (_ ∧ _))

/-- The pieces of a text: `some tag` is the tag that is being read, after the text `before`. -/
def piecesFrom (before : Text) : Option Text → Text → List Piece
  | _, [] => []
  | none, c :: s =>
    if c = '<' then piecesFrom before (some []) s else piecesFrom (before ++ [c]) none s
  | some tag, c :: s =>
    if c = '>' then (before, tag) :: piecesFrom [] none s
    else piecesFrom before (some (tag ++ [c])) s

def pieces (html : Text) : List Piece := piecesFrom [] none html

theorem piecesFrom_text {t : Text} (h : '<' ∉ t) (before s : Text) :
    piecesFrom before none (t ++ '<' :: s) = piecesFrom (before ++ t) (some []) s := by
  induction t generalizing before with
  | nil => rw [List.nil_append, piecesFrom, if_pos rfl, List.append_nil]
  | cons c t ih =>
    rw [List.mem_cons, not_or] at h
    rw [List.cons_append, piecesFrom, if_neg (Ne.symm h.1), ih h.2, List.append_assoc]
    rfl

theorem piecesFrom_tag {tag' : Text} (h : '>' ∉ tag') (before tag s : Text) :
    piecesFrom before (some tag) (tag' ++ '>' :: s) =
      (before, tag ++ tag') :: piecesFrom [] none s := by
  induction tag' generalizing tag with
  | nil => rw [List.nil_append, piecesFrom, if_pos rfl, List.append_nil]
  | cons c tag' ih =>
    rw [List.mem_cons, not_or] at h
    rw [List.cons_append, piecesFrom, if_neg (Ne.symm h.1), ih h.2, List.append_assoc]
    rfl

/-- What was written is read back. -/
theorem pieces_render {ps : List Piece} (h : ∀ p ∈ ps, p.Clean) : pieces (render ps) = ps := by
  induction ps with
  | nil => rfl
  | cons p ps ih =>
    have hp := h p (by simp)
    have hps := ih fun q hq => h q (by simp [hq])
    rw [pieces] at hps ⊢
    rw [render, List.flatMap_cons, List.append_assoc, List.cons_append, piecesFrom_text hp.1,
      List.append_assoc, List.singleton_append, piecesFrom_tag hp.2, ← render, hps]
    rfl

/-! ## Tags -/

def tagName (tag : Text) : Text := tag.takeWhile (· ≠ ' ')

/-- What is between `start` and the next double quote. -/
def attribute? (start : Text) : Text → Option Text
  | [] => none
  | c :: s =>
    if start.isPrefixOf (c :: s) then some (((c :: s).drop start.length).takeWhile (· ≠ '"'))
    else attribute? start s

/-- A span, which is 1 if the tag does not give it. -/
def spanOf (start tag : Text) : ℕ := ((attribute? start tag).bind (PyText.nat? 10)).getD 1

theorem attribute?_of_not_mem {c : Char} {start s : Text} (h : c ∉ s) :
    attribute? (c :: start) s = none := by
  induction s with
  | nil => rfl
  | cons d s ih =>
    rw [List.mem_cons, not_or] at h
    have hpre : ¬(c :: start).isPrefixOf (d :: s) = true := by simp [h.1]
    rw [attribute?, if_neg hpre, ih h.2]

/-- A span that is given by its decimal number. -/
theorem spanOf_of_attribute?_eq {start tag rest : Text} {n : ℕ}
    (h : attribute? start tag = some ((Nat.toDigits 10 n ++ '"' :: rest).takeWhile (· ≠ '"'))) :
    spanOf start tag = n := by
  have hdigits : ∀ c ∈ Nat.toDigits 10 n, decide (c ≠ '"') = true := by
    intro c hc
    have hd := PyText.isDigit_of_mem_toDigits hc
    rw [decide_eq_true_eq]
    rintro rfl
    cases hd
  have htake : (Nat.toDigits 10 n ++ '"' :: rest).takeWhile (· ≠ '"') = Nat.toDigits 10 n := by
    rw [List.takeWhile_append_of_pos hdigits]
    simp
  rw [spanOf, h, htake, Option.bind_some, PyText.nat?, if_neg Nat.toDigits_ne_nil,
    PyText.natOfDigits_ofDigitChars fun c hc => PyText.isDigit_of_mem_toDigits hc,
    Nat.ofDigitChars_ten_toDigits]
  rfl

theorem spanOf_of_attribute?_eq_none {start tag : Text} (h : attribute? start tag = none) :
    spanOf start tag = 1 := by
  rw [spanOf, h]
  rfl

/-! ## Tables -/

/-- The content of a cell, up to its end tag. -/
abbrev Content := List Piece

/-- The tables that were read, each one with what is before it, the rows of the one that is being
read, the cells of its row, and the cell with its spans. -/
structure Reading where
  tables : List (List Piece × List (List (Cell Content)))
  before : List Piece
  rows : List (List (Cell Content))
  row : List (Cell Content)
  cell : Option (ℕ × ℕ × Content)

def Reading.init : Reading := ⟨[], [], [], [], none⟩

/-- The reading goes on after a piece. -/
def Reading.step (r : Reading) (p : Piece) : Reading :=
  match r.cell with
  | some (rowSpan, colSpan, content) =>
    if p.2 = "/td".toList then
      { r with row := r.row ++ [⟨content ++ [p], rowSpan, colSpan⟩], cell := none }
    else { r with cell := some (rowSpan, colSpan, content ++ [p]) }
  | none =>
    if tagName p.2 = "td".toList then
      { r with cell := some (spanOf "rowspan=\"".toList p.2, spanOf "colspan=\"".toList p.2, []) }
    else if p.2 = "/tr".toList then { r with rows := r.rows ++ [r.row], row := [] }
    else if p.2 = "/table".toList then ⟨r.tables ++ [(r.before, r.rows)], [], [], [], none⟩
    else if tagName p.2 = "tr".toList ∨ tagName p.2 = "table".toList then r
    else { r with before := r.before ++ [p] }

def Reading.read (r : Reading) (ps : List Piece) : Reading := ps.foldl Reading.step r

/-- The tables of a text, each one with what is before it. -/
def readHtmlTables (html : Text) : List (List Piece × List (List (Cell Content))) :=
  (Reading.init.read (pieces html)).tables

/-- Only the last tag of a content ends its cell. -/
def Content.Closed (content : Content) : Prop :=
  ∃ init text, content = init ++ [(text, "/td".toList)] ∧ ∀ p ∈ init, p.2 ≠ "/td".toList

variable {r : Reading} {rowSpan colSpan : ℕ} {content start : Content}

@[simp] theorem Reading.read_nil (r : Reading) : r.read [] = r := rfl

theorem Reading.read_cons (r : Reading) (p : Piece) (ps : List Piece) :
    r.read (p :: ps) = (r.step p).read ps := rfl

theorem Reading.read_append (r : Reading) (ps qs : List Piece) :
    r.read (ps ++ qs) = (r.read ps).read qs := List.foldl_append

/-- A cell is read up to its end. -/
theorem Reading.read_content (hcell : r.cell = some (rowSpan, colSpan, start))
    (hcontent : content.Closed) : r.read content =
      { r with row := r.row ++ [⟨start ++ content, rowSpan, colSpan⟩], cell := none } := by
  obtain ⟨init, text, rfl, hinit⟩ := hcontent
  induction init generalizing r start with
  | nil =>
    rw [List.nil_append, read_cons, read_nil, step, hcell]
    exact if_pos rfl
  | cons p init ih =>
    have hstep : r.step p = { r with cell := some (rowSpan, colSpan, start ++ [p]) } := by
      rw [step, hcell]
      exact if_neg (hinit p (by simp))
    rw [List.cons_append, read_cons, hstep, ih rfl fun q hq => hinit q (by simp [hq])]
    simp

/-- A cell is read, from its start tag. -/
theorem Reading.read_cell (hcell : r.cell = none) {tag : Text} (htag : tagName tag = "td".toList)
    (hcontent : content.Closed) : r.read (([], tag) :: content) =
      { r with row := r.row ++
        [⟨content, spanOf "rowspan=\"".toList tag, spanOf "colspan=\"".toList tag⟩] } := by
  have hstep : r.step ([], tag) = { r with
      cell := some (spanOf "rowspan=\"".toList tag, spanOf "colspan=\"".toList tag, []) } := by
    rw [step, hcell]
    exact if_pos htag
  rw [read_cons, hstep, read_content rfl hcontent, List.nil_append]
  simp [hcell]

end Markup
