import Mathlib.Data.List.Basic

/-!
# Tables whose cells span several rows and columns

A table is read row by row, as a browser does. A cell that spans several rows takes its columns
from the rows below, and the cells of a row are put in the columns that are left. A table is well
formed when no cell overlaps another one, no column is left without a cell, and no cell goes below
the last row.

## Main definitions

* `Cell`, `Column` — a cell, and what a column holds for the rows to come.
* `readRow`, `readRows`, `read` — the contents of a table, with one content in each column.
-/

namespace SpanTable

variable {α : Type}

/-- A cell, with the numbers of rows and of columns that it takes. -/
structure Cell (α : Type) where
  content : α
  rowSpan : ℕ
  colSpan : ℕ
  deriving DecidableEq

/-- The content of a column in the last row, and for how many rows it goes on. -/
abbrev Column (α : Type) := α × ℕ

/-- One column of a cell; the next ones are joined to the first one. -/
structure Slot (α : Type) where
  content : α
  rowSpan : ℕ
  joined : Bool

/-- The columns of a cell. -/
def Cell.slots (c : Cell α) : List (Slot α) :=
  ⟨c.content, c.rowSpan, false⟩ ::
    List.replicate (c.colSpan - 1) ⟨c.content, c.rowSpan, true⟩

/-- The slots of a row are put in the columns that are left. -/
def readSlots : List (Column α) → List (Slot α) → Option (List (Column α))
  | [], us => some (us.map fun u => (u.content, u.rowSpan - 1))
  | (_, 0) :: _, [] => none
  | (_, 0) :: s, u :: us => (readSlots s us).map ((u.content, u.rowSpan - 1) :: ·)
  | (a, n + 1) :: s, us =>
    if (us.head?.map Slot.joined) = some true then none
    else (readSlots s us).map ((a, n) :: ·)

/-- The columns after a row. -/
def readRow (s : List (Column α)) (row : List (Cell α)) : Option (List (Column α)) :=
  if row.all fun c => 0 < c.rowSpan && 0 < c.colSpan then readSlots s (row.flatMap Cell.slots)
  else none

/-- The contents of some rows, and the columns after them. -/
def readRows : List (Column α) → List (List (Cell α)) →
    Option (List (List α) × List (Column α))
  | s, [] => some ([], s)
  | s, row :: rows =>
    (readRow s row).bind fun s' =>
      (readRows s' rows).map fun r => (s'.map Prod.fst :: r.1, r.2)

/-- The contents of a table. -/
def read (rows : List (List (Cell α))) : Option (List (List α)) :=
  (readRows [] rows).bind fun r => if r.2.all fun c => c.2 = 0 then some r.1 else none

@[simp] theorem readRows_nil (s : List (Column α)) : readRows s [] = some ([], s) := rfl

/-- Rows that are read after others. -/
theorem readRows_append_of_eq {s s' s'' : List (Column α)} {rows rows' : List (List (Cell α))}
    {g g' : List (List α)} (h : readRows s rows = some (g, s'))
    (h' : readRows s' rows' = some (g', s'')) :
    readRows s (rows ++ rows') = some (g ++ g', s'') := by
  induction rows generalizing s g with
  | nil =>
    cases h
    exact h'
  | cons row rows ih =>
    rw [readRows] at h
    obtain ⟨s₁, hrow, hrest⟩ := Option.bind_eq_some_iff.mp h
    obtain ⟨⟨g₁, s₂⟩, hrows, heq⟩ := Option.map_eq_some_iff.mp hrest
    cases heq
    rw [List.cons_append, readRows, hrow, Option.bind_some, ih hrows]
    rfl

theorem readRows_cons_of_eq {s s' s'' : List (Column α)} {row : List (Cell α)}
    {rows : List (List (Cell α))} {g : List (List α)} (h : readRow s row = some s')
    (h' : readRows s' rows = some (g, s'')) :
    readRows s (row :: rows) = some (s'.map Prod.fst :: g, s'') := by
  rw [readRows, h, Option.bind_some, h']
  rfl

/-- What is left of the columns is read as a table. -/
theorem read_of_eq {rows : List (List (Cell α))} {g : List (List α)} {s : List (Column α)}
    (h : readRows [] rows = some (g, s)) (hs : ∀ c ∈ s, c.2 = 0) : read rows = some g := by
  rw [read, h, Option.bind_some, if_pos (List.all_eq_true.mpr fun c hc => by simpa using hs c hc)]

end SpanTable
