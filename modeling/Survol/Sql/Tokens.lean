import Mathlib.Data.Char
import Mathlib.Data.Finset.Sort
import Mathlib.Data.List.Lex
import Survol.Lib.Text

/-!
# The tables of a token tree

The SQL parser groups the text of a query into a tree of tokens. `lib_sql.py` walks this tree with
two flags: one says that the last token is a keyword after which a table is expected, the other
that a table is expected here. The name of a table, and its alias, are read in the text of a group
by three regular expressions.

## Main definitions

* `Tok` — the token tree, with leaves that have a type and groups that have a class.
* `parseAppend` — the regular expressions.
* `selectLoop` — the walk of `ProcessSelectTokens`.
* `tableDependencies` — the tables of the statements of a text.
-/

open PyText

namespace Survol.Sql

/-! ## The token tree -/

/-- The type of a leaf. -/
inductive Ttype
  | whitespace
  | newline
  | punctuation
  | keyword
  | dml
  | other
  deriving DecidableEq

/-- The class of a group. -/
inductive GroupClass
  | identifier
  | identifierList
  | parenthesis
  | whereClause
  | other
  deriving DecidableEq

/-- A token. A group has no type. -/
inductive Tok
  | leaf (ttype : Ttype) (value : Text)
  | group (cls : GroupClass) (tokens : List Tok)

mutual

/-- The text of a token. -/
def Tok.value : Tok → Text
  | .leaf _ value => value
  | .group _ tokens => valueOf tokens

/-- The text of some tokens. -/
def valueOf : List Tok → Text
  | [] => []
  | tok :: tokens => tok.value ++ valueOf tokens

end

/-- The type of a token. -/
def Tok.ttype? : Tok → Option Ttype
  | .leaf ttype _ => some ttype
  | .group _ _ => none

/-- The class of a token, when it is a group. -/
def Tok.cls? : Tok → Option GroupClass
  | .leaf _ _ => none
  | .group cls _ => some cls

/-- `IsNoise` -/
def isNoise (tok : Tok) : Bool :=
  match tok.ttype? with
  | some .whitespace | some .punctuation | some .newline => true
  | _ => false

/-- `str.upper` of a string of bytes, which changes the ASCII letters only. -/
def upper (s : Text) : Text := s.map Char.toUpper

/-! ## The regular expressions -/

/-- A character at the start of a name, an ASCII one in all these classes. -/
def isNameStart (c : Char) : Bool := c.isAlpha || c = '_'

/-- A character of an alias. -/
def isSynoChar (c : Char) : Bool := c.isAlphanum || c = '_' || c = '-'

/-- A character of the name of a table, which may have a schema. -/
def isTableChar (c : Char) : Bool := c.isAlphanum || c = '_' || c = '$' || c = '.' || c = '-'

/-- The name at the start of a text, and the rest. -/
def matchName (p : Char → Bool) (s : Text) : Option (Text × Text) :=
  if (s.head?.map isNameStart).getD false then some (s.takeWhile p, s.dropWhile p) else none

/-- The text after white space, of which there is some. -/
def matchBlanks (s : Text) : Option Text :=
  if (s.head?.map isBlank).getD false then some (s.dropWhile isBlank) else none

/-- The text after the word `AS`. -/
def matchAs : Text → Option Text
  | a :: s :: rest =>
    if (a = 'A' ∨ a = 'a') ∧ (s = 'S' ∨ s = 's') then some rest else none
  | _ => none

/-- The text is an alias and white space. -/
def isSyno (s : Text) : Bool :=
  match matchName isSynoChar s with
  | some (_, rest) => rest.all isBlank
  | none => false

/-- The first regular expression: a table, `AS` and an alias. -/
def tableAsSyno (value : Text) : Option Text := do
  let (name, rest) ← matchName isTableChar value
  let rest ← matchBlanks rest
  let rest ← matchAs rest
  let rest ← matchBlanks rest
  if isSyno rest then some name else none

/-- The second regular expression: a table and an alias. -/
def tableSyno (value : Text) : Option Text := do
  let (name, rest) ← matchName isTableChar value
  let rest ← matchBlanks rest
  if isSyno rest then some name else none

/-- The third regular expression: a table. -/
def tableOnly (value : Text) : Option Text := do
  let (name, rest) ← matchName isTableChar value
  if rest.all isBlank then some name else none

/-- `regex_tab_nam` -/
def regexTabNam : List (Text → Option Text) := [tableAsSyno, tableSyno, tableOnly]

/-- `ParseAppend`: the name of the table in the text of a token, by the first expression that
matches. -/
def parseAppend (value : Text) : Option Text := regexTabNam.findSome? fun rgx => rgx value

/-! ## The walk -/

/-- The keywords after which a table is expected. -/
def fromKeywords : List Text :=
  ["FROM", "FULL JOIN", "INNER JOIN", "LEFT OUTER JOIN", "LEFT JOIN", "JOIN",
    "FULL OUTER JOIN"].map String.toList

/-- A token after which a table is expected. -/
def isFrom (tok : Tok) : Bool :=
  decide (tok.ttype? = some .keyword) && decide (upper tok.value ∈ fromKeywords)

mutual

/-- `ProcessSelectTokens`; a leaf has no tokens. -/
def processSelectTokens : Tok → List Text
  | .leaf _ _ => []
  | .group _ tokens => selectLoop false false tokens

/-- The loop of `ProcessSelectTokens`. -/
def selectLoop (inFrom wasFrom : Bool) : List Tok → List Text
  | [] => []
  | tok :: tokens =>
    if isNoise tok then selectLoop inFrom wasFrom tokens
    else
      let wasFrom := (inFrom || wasFrom) && tok.ttype?.isNone
      match wasFrom, tok.cls? with
      | true, some .identifier =>
        match parseAppend tok.value with
        | some name => name :: selectLoop inFrom wasFrom tokens
        | none => processSelectTokens tok ++ selectLoop (isFrom tok) wasFrom tokens
      | true, some .identifierList => listTokens tok ++ selectLoop inFrom wasFrom tokens
      | _, _ => processSelectTokens tok ++ selectLoop (isFrom tok) wasFrom tokens

/-- The tables of an identifier list. -/
def listTokens : Tok → List Text
  | .leaf _ _ => []
  | .group _ tokens => listLoop tokens

/-- The loop over the tokens of an identifier list. -/
def listLoop : List Tok → List Text
  | [] => []
  | subtok :: tokens =>
    if isNoise subtok then listLoop tokens
    else
      match parseAppend subtok.value with
      | some name => name :: listLoop tokens
      | none => processSelectTokens subtok ++ listLoop tokens

end

/-- The loop of `ProcessUpdateTokens`, over the tokens of `sqlObj`. -/
def updateLoop (sqlObj : Tok) (keywrdFound : Bool) : List Tok → List Text
  | [] => ["Nothing".toList]
  | tok :: tokens =>
    if isNoise tok then updateLoop sqlObj keywrdFound tokens
    else
      match keywrdFound, tok.cls? with
      | true, some .identifier =>
        match parseAppend tok.value with
        | some name => processSelectTokens sqlObj ++ [name]
        | none => updateLoop sqlObj keywrdFound tokens
      | true, some .identifierList => processSelectTokens sqlObj ++ listTokens tok
      | _, _ =>
        if tok.ttype? = some .dml then
          if upper tok.value ≠ "UPDATE".toList then ["NonSense".toList]
          else updateLoop sqlObj true tokens
        else updateLoop sqlObj keywrdFound tokens

/-- `ProcessUpdateTokens` -/
def processUpdateTokens (sqlObj : Tok) : List Text :=
  match sqlObj with
  | .leaf _ _ => ["Nothing".toList]
  | .group _ tokens => updateLoop sqlObj false tokens

/-- `ProcessDeleteTokens` -/
def processDeleteTokens (sqlObj : Tok) : List Text := processSelectTokens sqlObj

/-- `ProcessInsertTokens` -/
def processInsertTokens (sqlObj : Tok) : List Text := processSelectTokens sqlObj

/-- `ProcessCreateTokens` -/
def processCreateTokens (sqlObj : Tok) : List Text := processSelectTokens sqlObj

/-- `statementToFunc` -/
def statementToFunc (queryType : Text) : Option (Tok → List Text) :=
  if queryType = "SELECT".toList then some processSelectTokens
  else if queryType = "UPDATE".toList then some processUpdateTokens
  else if queryType = "DELETE".toList then some processDeleteTokens
  else if queryType = "INSERT".toList then some processInsertTokens
  else if queryType = "CREATE".toList then some processCreateTokens
  else none

/-- `GetStatementType`, of the tokens of a statement. -/
def getStatementType : List Tok → Text
  | [] => []
  | .leaf .dml value :: _ => upper value
  | _ :: tokens => getStatementType tokens

/-- `sorted(set(..))` of the names in upper case. -/
def uniqRes (result : List Text) : List Text := (result.map upper).toFinset.sort (· ≤ ·)

/-- `TableDependencies`, of the statements of a text, each one the list of its tokens; nothing when
the type of a statement is unknown. -/
def tableDependencies : List (List Tok) → Option (List Text)
  | [] => some []
  | sqlObj :: statements =>
    if strip (valueOf sqlObj) = [] then tableDependencies statements
    else do
      let func ← statementToFunc (getStatementType sqlObj)
      let allTabs ← tableDependencies statements
      some (uniqRes (func (.group .other sqlObj)) ++ allTabs)

end Survol.Sql
