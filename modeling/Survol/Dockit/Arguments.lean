import Survol.Lib.Text

/-!
# The parser of call arguments

`parseCallArguments` reads the argument list of one traced call, starting just
after the opening parenthesis: one loop over the characters with an in-quotes
flag, an escape flag and a bracket level, which calls itself on an argument that
begins with a bracket. Positions are indices into the whole line, as in the
source, and a line is read up to the `<unfinished ...>` marker if it has one.

The recursion is by fuel. `parseArgs` and `argLoop` return `none` when it is
exhausted, or when an index would be out of range; `parseArgs_isSome` shows that
neither happens.

## Main definitions

* `Arg` — an argument: its text, or the list parsed from a bracketed one.
* `parseArgs`, `argLoop` — the function and its loop.
* `parseCallArguments` — the function with enough fuel.
-/

open PyText

namespace Survol.Dockit

/-- A parsed argument: a text, or a list when the argument is between brackets. -/
inductive Arg
  | str (s : Text)
  | list (l : List Arg)
  deriving Inhabited

mutual
/-- Equality of arguments is decidable. -/
def Arg.decEq : (a b : Arg) → Decidable (a = b)
  | .str s, .str t => decidable_of_iff (s = t) (by simp)
  | .list l, .list m =>
    match Arg.decEqList l m with
    | isTrue h => isTrue (by rw [h])
    | isFalse h => isFalse (by simpa using h)
  | .str _, .list _ => isFalse nofun
  | .list _, .str _ => isFalse nofun
/-- Equality of argument lists is decidable. -/
def Arg.decEqList : (l m : List Arg) → Decidable (l = m)
  | [], [] => isTrue rfl
  | a :: l, b :: m =>
    match Arg.decEq a b, Arg.decEqList l m with
    | isTrue h, isTrue h' => isTrue (by rw [h, h'])
    | isFalse h, _ => isFalse (by simp [h])
    | _, isFalse h => isFalse (by simp [h])
  | [], _ :: _ => isFalse nofun
  | _ :: _, [] => isFalse nofun
end

instance : DecidableEq Arg := Arg.decEq

/-- The text that ends the first half of a split call. -/
def unfinishedMarker : Text := "<unfinished ...>".toList

/-! ## Cleaning one argument -/

/-- The characters skipped at the start of an argument. -/
def isSpaceOrQuote (c : Char) : Bool := c = ' ' || c = '"'

/-- The characters dropped at the end of an argument cut by the end of the text. -/
def isTailJunk (c : Char) : Bool :=
  c = ',' || c = ')' || c = ']' || c = '}' || c = ' ' || c = '"'

/-- The characters skipped after a bracketed argument. -/
def isSpaceOrComma (c : Char) : Bool := c = ' ' || c = ','

/-- How a string truncated by the tracer ends. -/
def truncatedMark : Text := "\"...".toList

/-- The correction for a string truncated by the tracer. -/
def dropQuoteOfTruncated (argClean : Text) : Text :=
  if truncatedMark.isSuffixOf argClean then
    argClean.take (argClean.length - 4) ++ "...".toList
  else argClean

/-- The text between `ixStart` and `e`, without the characters skipped at its
start (never past `lenStr`) and those of `junk` at its end. -/
def cleanArg (junk : Char → Bool) (strArgs : Text) (lenStr ixStart e : ℕ) : Text :=
  dropQuoteOfTruncated
    ((slice strArgs (skipWhile isSpaceOrQuote strArgs lenStr ixStart) e).rdropWhile junk)

/-! ## The loop -/

/-- The variables of the loop. -/
structure ArgState where
  theResult : List Arg
  finished : Bool
  inQuotes : Bool
  levelParent : ℕ
  isEscaped : Bool
  ixStart : ℕ
  ixCurr : ℕ
  deriving DecidableEq

/-- The variables before the loop, which starts reading at `ix`. -/
def ArgState.init (ix : ℕ) : ArgState := ⟨[], false, false, 0, false, ix, ix⟩

/-- The argument that ends just before `ixCurr` is stored, and the spaces after
it are skipped. -/
def ArgState.store (strArgs : Text) (lenStr : ℕ) (st : ArgState) : ArgState :=
  let argClean := cleanArg (· = '"') strArgs lenStr st.ixStart (st.ixCurr - 1)
  let ixCurr := skipWhile (· = ' ') strArgs lenStr st.ixCurr
  { st with theResult := st.theResult ++ [.str argClean], ixStart := ixCurr, ixCurr := ixCurr }

/-- What a closing bracket, already read, does: it goes down one level, and at
the bottom it ends the list after the last argument, if there is one. -/
def ArgState.close (strArgs : Text) (lenStr : ℕ) (st : ArgState) : ArgState :=
  match st.levelParent with
  | level + 1 => { st with levelParent := level }
  | 0 => if st.ixCurr = st.ixStart + 1 then { st with finished := true }
    else { st.store strArgs lenStr with finished := true }

/-- The position where reading stops: the unfinished marker, or the end. -/
def argLimit (strArgs : Text) (ixStart : ℕ) : ℕ :=
  (find? strArgs unfinishedMarker ixStart).getD strArgs.length

/-- The argument left open by the end of the text is stored. -/
def ArgState.finish (strArgs : Text) (lenStr : ℕ) (st : ArgState) : List Arg × ℕ :=
  if st.ixStart < lenStr ∧ ¬ st.finished then
    (st.theResult ++ [.str (cleanArg isTailJunk strArgs lenStr st.ixStart lenStr)], st.ixCurr)
  else (st.theResult, st.ixCurr)

/-- How the loop goes on after one character. -/
inductive ArgStep
  /-- With these variables. -/
  | next (st : ArgState)
  /-- By parsing the list that begins at `ixCurr`. -/
  | list (st : ArgState)

/-- What the body of the loop does with the character at `ixCurr`. -/
def ArgState.body (strArgs : Text) (lenStr : ℕ) (st : ArgState) (aChr : Char) : ArgStep :=
  let st := { st with ixCurr := st.ixCurr + 1 }
  if st.isEscaped then .next { st with isEscaped := false }
  else if aChr = '\\' then .next { st with isEscaped := true }
  else if aChr = '"' then .next { st with inQuotes := !st.inQuotes }
  else if st.inQuotes then .next st
  else if aChr = '[' ∨ aChr = '{' then
    if st.ixCurr = st.ixStart + 1 then .list st
    else .next { st with levelParent := st.levelParent + 1 }
  else if aChr = '(' then .next { st with levelParent := st.levelParent + 1 }
  else if aChr = ')' ∨ aChr = ']' ∨ aChr = '}' then .next (st.close strArgs lenStr)
  else if aChr = ',' ∧ st.levelParent = 0 then .next (st.store strArgs lenStr)
  else .next st

/-- A parsed list is stored, and the spaces and commas after it are skipped. -/
def ArgState.append (strArgs : Text) (lenStr : ℕ) (st : ArgState) (objToAdd : List Arg)
    (ix : ℕ) : ArgState :=
  let ixStart := skipWhile isSpaceOrComma strArgs lenStr ix
  { st with theResult := st.theResult ++ [.list objToAdd], ixStart := ixStart, ixCurr := ixStart }

mutual
/-- `ParseCallArguments`, on the text from `ixStart` on. -/
def parseArgs : ℕ → Text → ℕ → Option (List Arg × ℕ)
  | 0, _, _ => none
  | fuel + 1, strArgs, ix =>
    let ixStart := skipWhile (· = ' ') strArgs strArgs.length ix
    let lenStr := argLimit strArgs ixStart
    (argLoop fuel strArgs lenStr (ArgState.init ixStart)).map
      (ArgState.finish strArgs lenStr)
/-- The loop of `ParseCallArguments` over the characters. -/
def argLoop : ℕ → Text → ℕ → ArgState → Option ArgState
  | 0, _, _, _ => none
  | fuel + 1, strArgs, lenStr, st =>
    if st.ixCurr < lenStr ∧ ¬ st.finished then
      match strArgs[st.ixCurr]? with
      | none => none
      | some aChr =>
        match st.body strArgs lenStr aChr with
        | .next st' => argLoop fuel strArgs lenStr st'
        | .list st' =>
          match parseArgs fuel strArgs st'.ixCurr with
          | none => none
          | some (objToAdd, ix) =>
            argLoop fuel strArgs lenStr (st'.append strArgs lenStr objToAdd ix)
    else some st
end

/-- `ParseCallArguments(strArgs, ixStart)`: the arguments, and the index after
the closing parenthesis or of the end of the text. -/
def parseCallArguments (strArgs : Text) (ixStart : ℕ) : List Arg × ℕ :=
  (parseArgs (2 * strArgs.length + 3) strArgs ixStart).getD ([], ixStart)

end Survol.Dockit
