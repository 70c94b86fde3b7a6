import Survol.Sql.Tokens

/-!
# Queries and their tables

A `SELECT` query has a list of tables and sub-selects after `FROM`, joins, and expressions that may
have sub-selects of their own. Its token tree is the one of the SQL parser: a table with its alias
is an identifier, several of them are an identifier list, a sub-select is in a parenthesis, and a
join is one keyword.

## Main definitions

* `Query` — the queries, and `Query.tokens`, their token trees.
* `Query.positions` — the tables of a query, each with the keyword before it.
* `Position.seen` — the positions after a known keyword, with a name that is accepted.
-/

open PyText

namespace Survol.Sql

/-! ## The parts of a query -/

/-- A token of white space. -/
structure Blank where
  newline : Bool
  text : Text
  isBlank : ∀ c ∈ text, isBlank c = true

/-- The token. -/
def Blank.tok (b : Blank) : Tok := .leaf (if b.newline then .newline else .whitespace) b.text

/-- White space between two tokens. -/
abbrev Gap := List Blank

/-- The tokens of the white space. -/
def Gap.tokens (g : Gap) : List Tok := g.map Blank.tok

/-- The text of the white space. -/
def Gap.text (g : Gap) : Text := g.flatMap Blank.text

/-- A part of a name, which is a text or a separator such as a point. -/
structure NamePart where
  separator : Bool
  text : Text

/-- The token. -/
def NamePart.tok (p : NamePart) : Tok := .leaf (if p.separator then .punctuation else .other) p.text

/-- A name is not empty, starts with no white space, and has none unless it is quoted. -/
structure IsName (s : Text) : Prop where
  head : ∃ c ∈ s.head?, isBlank c = false
  blank : (∀ c ∈ s, isBlank c = false) ∨ ∀ c ∈ s.head?, isNameStart c = false

/-- The name of a table or of an alias. -/
structure Name where
  parts : List NamePart
  isName : IsName (parts.flatMap NamePart.text)

/-- The text of a name. -/
def Name.text (n : Name) : Text := n.parts.flatMap NamePart.text

/-- The tokens of a name. -/
def Name.tokens (n : Name) : List Tok := n.parts.map NamePart.tok

/-- An alias, with the word `AS` and the white space after it, if any. -/
structure Alias where
  gap : Gap
  asWord : Option (Text × Gap)
  name : Name
  isAs : ∀ p ∈ asWord, p.1 ∈ ["AS".toList, "As".toList, "aS".toList, "as".toList] ∧ p.2.text ≠ []

/-- The tokens of an alias. -/
def Alias.tokens (a : Alias) : List Tok :=
  a.gap.tokens ++
    (match a.asWord with
      | some (w, g) => .leaf .keyword w :: g.tokens
      | none => []) ++ [.group .identifier a.name.tokens]

/-- The text of an alias. -/
def Alias.text (a : Alias) : Text :=
  a.gap.text ++
    (match a.asWord with
      | some (w, g) => w ++ g.text
      | none => []) ++ a.name.text

/-- A table with an alias, if any. -/
structure TableRef where
  name : Name
  alias? : Option Alias
  gap_ne : ∀ a ∈ alias?, a.gap.text ≠ []

/-- The tokens of a table with its alias. -/
def TableRef.tokens (t : TableRef) : List Tok :=
  t.name.tokens ++ (t.alias?.map Alias.tokens).getD []

/-- The text of a table with its alias. -/
def TableRef.text (t : TableRef) : Text := t.name.text ++ (t.alias?.map Alias.text).getD []

/-- The last word of a text. -/
def lastWord (s : Text) : Text := (s.rdropWhile isBlank).rtakeWhile fun c => !isBlank c

/-- A keyword before tables: `FROM`, or a join, whose words may be separated by any white space. -/
def IsTableKeyword (value : Text) : Prop :=
  upper value = "FROM".toList ∨ lastWord (upper value) = "JOIN".toList

/-- A keyword of another kind. -/
structure Keyword where
  value : Text
  plain : ¬ IsTableKeyword value

mutual

/-- The tokens of an expression, in groups of any class; a sub-select is in a parenthesis. -/
inductive Expr
  | nil
  | leaf (ttype : Ttype) (value : Text) (plain : ttype = .keyword → ¬ IsTableKeyword value)
      (rest : Expr)
  | group (cls : GroupClass) (body rest : Expr)
  | sub (query : Query) (rest : Expr)

/-- A keyword with an expression, or nothing. -/
inductive Clause
  | none
  | some (gap : Gap) (keyword : Keyword) (body : Expr)

/-- A table, or a sub-select with or without an alias. -/
inductive Ref
  | table (t : TableRef)
  | sub (query : Query)
  | subAs (query : Query) (a : Alias)

/-- A list of tables and sub-selects, with commas. -/
inductive Refs
  | one (r : Ref)
  | cons (r : Ref) (before after : Gap) (rest : Refs)

/-- The joins, each with its condition. -/
inductive Joins
  | nil
  | cons (gap : Gap) (join : Text) (isJoin : lastWord (upper join) = "JOIN".toList) (after : Gap)
      (refs : Refs) (condition : Clause) (rest : Joins)

/-- A query: the columns, the tables after `FROM`, the joins, the part `WHERE`, and what follows
such as `ORDER BY`. -/
inductive Query
  | mk (gap : Gap) (select : Text) (isSelect : upper select = "SELECT".toList) (columns : Expr)
      (fromWord : Text) (isFrom : upper fromWord = "FROM".toList) (after : Gap) (refs : Refs)
      (joins : Joins) (wherePart tail : Clause) (close : Gap)

end

/-! ## The token tree -/

/-- A parenthesis around some tokens. -/
def parenthesis (tokens : List Tok) : Tok :=
  .group .parenthesis (.leaf .punctuation ['('] :: (tokens ++ [.leaf .punctuation [')']]))

mutual

/-- The tokens of an expression. -/
def Expr.tokens : Expr → List Tok
  | .nil => []
  | .leaf ttype value _ rest => .leaf ttype value :: rest.tokens
  | .group cls body rest => .group cls body.tokens :: rest.tokens
  | .sub query rest => parenthesis query.tokens :: rest.tokens

/-- The tokens of a condition or of the last part. -/
def Clause.tokens : Clause → List Tok
  | .none => []
  | .some gap keyword body => gap.tokens ++ .leaf .keyword keyword.value :: body.tokens

/-- The tokens of the part `WHERE`, which is a group. -/
def Clause.whereTokens : Clause → List Tok
  | .none => []
  | .some gap keyword body =>
    gap.tokens ++ [.group .whereClause (.leaf .keyword keyword.value :: body.tokens)]

/-- The token of a table or of a sub-select. -/
def Ref.tok : Ref → Tok
  | .table t => .group .identifier t.tokens
  | .sub query => parenthesis query.tokens
  | .subAs query a => .group .identifier (parenthesis query.tokens :: a.tokens)

/-- The tokens of a list. -/
def Refs.items : Refs → List Tok
  | .one r => [r.tok]
  | .cons r before after rest =>
    r.tok :: (before.tokens ++ .leaf .punctuation [','] :: (after.tokens ++ rest.items))

/-- The token of a list: one element is no identifier list. -/
def Refs.tok : Refs → Tok
  | .one r => r.tok
  | .cons r before after rest =>
    .group .identifierList
      (r.tok :: (before.tokens ++ .leaf .punctuation [','] :: (after.tokens ++ rest.items)))

/-- The tokens of the joins. -/
def Joins.tokens : Joins → List Tok
  | .nil => []
  | .cons gap join _ after refs condition rest =>
    gap.tokens ++ .leaf .keyword join :: (after.tokens ++ refs.tok ::
      (condition.tokens ++ rest.tokens))

/-- The tokens of a query. -/
def Query.tokens : Query → List Tok
  | .mk gap select _ columns fromWord _ after refs joins wherePart tail close =>
    gap.tokens ++ .leaf .dml select :: (columns.tokens ++ .leaf .keyword fromWord ::
      (after.tokens ++ refs.tok :: (joins.tokens ++ (wherePart.whereTokens ++ (tail.tokens ++
        close.tokens)))))

end

/-! ## The tables -/

/-- The place of a table: the keyword before it, and the table. -/
structure Position where
  keyword : Text
  table : TableRef

mutual

/-- The tables of an expression. -/
def Expr.positions : Expr → List Position
  | .nil => []
  | .leaf _ _ _ rest => rest.positions
  | .group _ body rest => body.positions ++ rest.positions
  | .sub query rest => query.positions ++ rest.positions

/-- The tables of a clause. -/
def Clause.positions : Clause → List Position
  | .none => []
  | .some _ _ body => body.positions

/-- The tables of an element of a list after a keyword. -/
def Ref.positions (keyword : Text) : Ref → List Position
  | .table t => [⟨keyword, t⟩]
  | .sub query => query.positions
  | .subAs query _ => query.positions

/-- The tables of a list after a keyword. -/
def Refs.positions (keyword : Text) : Refs → List Position
  | .one r => r.positions keyword
  | .cons r _ _ rest => r.positions keyword ++ rest.positions keyword

/-- The tables of the joins. -/
def Joins.positions : Joins → List Position
  | .nil => []
  | .cons _ join _ _ refs condition rest =>
    refs.positions join ++ (condition.positions ++ rest.positions)

/-- The tables of a query and of its sub-selects. -/
def Query.positions : Query → List Position
  | .mk _ _ _ columns fromWord _ _ refs joins wherePart tail _ =>
    columns.positions ++ (refs.positions fromWord ++ (joins.positions ++ (wherePart.positions ++
      tail.positions)))

end

/-- A name that a regular expression accepts. -/
def regular (p : Char → Bool) (s : Text) : Bool :=
  (s.head?.map isNameStart).getD false && s.all p

/-- The regular expressions accept the name of the table and its alias. -/
def TableRef.plain (t : TableRef) : Bool :=
  regular isTableChar t.name.text && t.alias?.all fun a => regular isSynoChar a.name.text

/-- The walk finds the table: the keyword before it is a known one. -/
def Position.seen (p : Position) : Bool :=
  decide (upper p.keyword ∈ fromKeywords) && p.table.plain

/-- The tables that the walk finds. -/
def seenNames (ps : List Position) : List Text := (ps.filter Position.seen).map (·.table.name.text)

end Survol.Sql
