import Survol.Dockit.Paths

/-!
# The core of a call

One traced line is parsed into a `BatchLetCore`: the process, the function, the
arguments, the returned value, and whether the line is a whole call or one half
of a split one. A core is an object of the program, shared by the stacks of
unfinished calls and by the flows; `CoreId` stands for its identity, the rank of
the core among those of its process.

## Main definitions

* `BatchLetCore`, `BatchStatus`, `Tracer`.
* `parseLine`, with `initAfterPid` and `setFunction`.
-/

open PyText

namespace Survol.Dockit

/-- The tools that print the log. -/
inductive Tracer
  | strace
  | ltrace
  deriving DecidableEq

/-- The state of a core. -/
inductive BatchStatus
  | unknown
  | plain
  | unfinished
  | resumed
  /-- After the unfinished half has found its resumed half. -/
  | matched
  /-- After the resumed half has found its unfinished half. -/
  | merged
  | sequence
  deriving DecidableEq

/-- The identity of a core. -/
structure CoreId where
  pid : ℤ
  rank : ℕ
  deriving DecidableEq

/-- A parsed line. A returned value of `none` is the missing one of an unfinished
call. -/
structure BatchLetCore where
  tracer : Tracer
  pid : ℤ
  funcNam : Text
  status : BatchStatus
  timeStart : Text
  timeEnd : Text
  execTim : Text
  parsedArgs : List Arg
  retValue : Option Text
  unfinishedBatch : Option CoreId
  resumedBatch : Option CoreId
  deriving DecidableEq

/-! ## The name of the function -/

/-- The suffix of system calls. -/
def sysSuffix : Text := "@SYS".toList

/-- The part of a text after the last `->`, read after the characters `acc`. -/
def afterArrow (acc : Text) : Text → Text
  | [] => acc.reverse
  | '-' :: '>' :: s => afterArrow [] s
  | c :: s => afterArrow (c :: acc) s

/-- `SetFunction`: the name with the suffix of system calls, which `strace` never
prints and `ltrace` does not print on a resumed call. -/
def setFunction (tracer : Tracer) (status : BatchStatus) (funcFull : Text) : Text :=
  match tracer with
  | .strace => funcFull ++ sysSuffix
  | .ltrace =>
    let funcFull := afterArrow [] funcFull
    if status = .resumed then funcFull ++ sysSuffix else funcFull

/-- The digits of a number. -/
def decimal (n : ℤ) : Text := (toString n).toList

/-! ## One line -/

/-- A match of `<\.\.\. ([^ ]*) resumed> (.*)`: the name, and the start of the
second group. -/
def matchResume (theCall : Text) : Option (Text × ℕ) :=
  if "<... ".toList.isPrefixOf theCall then
    let name := (theCall.drop 5).takeWhile (· ≠ ' ')
    if " resumed> ".toList.isPrefixOf (theCall.drop (5 + name.length)) then
      some (name, 5 + name.length + 10)
    else none
  else none

/-- What the end of a line says about it. -/
structure LineEnd where
  idxLT : ℤ
  status : BatchStatus
  execTim : Text
  deriving DecidableEq

/-- The text between the last angle brackets: the execution time, or the mark of
an unfinished call. -/
def lineEnd (theCall : Text) : LineEnd :=
  let idxGT := posOrMinusOne (rfindChar '>' theCall)
  let idxLT := posOrMinusOne (rfindChar '<' (theCall.take (pyBound theCall idxGT)))
  let exeTm := pySlice theCall (idxLT + 1) idxGT
  if idxLT < 0 then ⟨idxLT, .plain, []⟩
  else if exeTm = "unfinished ...".toList then ⟨idxLT, .unfinished, []⟩
  else ⟨idxLT, .plain, exeTm⟩

/-- The returned value: the text from the `=` after the arguments, which may be
missing in some cases, up to the time. The index after the arguments is never
negative, so the search of the `=` from the end does not happen. -/
def returnValue (tracer : Tracer) (theCall : Text) (idxLastPar : ℕ) (idxLT : ℤ) :
    Except PyExn Text :=
  match find? theCall ['='] idxLastPar with
  | some idxEq => .ok (strip (pySlice theCall (idxEq + 1) idxLT))
  | none =>
    if "<no return ...>\n".toList.isSuffixOf theCall ∨ "<detached ...>".toList.isSuffixOf theCall
        ∨ tracer = .ltrace then
      .ok (strip (pySlice theCall 0 idxLT))
    else
      .error (.exception ("No = from parenthesis: idxLastPar=".toList ++ decimal idxLT ++
        ". theCall=".toList ++ theCall ++ ". Len=".toList ++ decimal theCall.length))

/-- The core of a call whose arguments are read from `ixArgs` on. -/
def coreOfCall (tracer : Tracer) (pid : ℤ) (aTimeStamp theCall : Text) (status : BatchStatus)
    (funcNam : Text) (ixArgs : ℕ) : Except PyExn BatchLetCore := do
  let (parsedArgs, idxLastPar) := parseCallArguments theCall ixArgs
  let fin := lineEnd theCall
  let retValue ← if status = .unfinished then pure none else
    some <$> returnValue tracer theCall idxLastPar fin.idxLT
  return { tracer := tracer, pid := pid, funcNam := funcNam, status := status
           timeStart := aTimeStamp, timeEnd := aTimeStamp, execTim := fin.execTim
           parsedArgs := parsedArgs, retValue := retValue
           unfinishedBatch := none, resumedBatch := none }

/-- `SetDefaultOnError`. -/
def defaultOnError (tracer : Tracer) (pid : ℤ) (aTimeStamp theCall : Text) : BatchLetCore :=
  let fin := lineEnd theCall
  { tracer := tracer, pid := pid, funcNam := setFunction tracer fin.status []
    status := fin.status, timeStart := aTimeStamp, timeEnd := aTimeStamp, execTim := fin.execTim
    parsedArgs := [], retValue := none, unfinishedBatch := none, resumedBatch := none }

/-- The lines without a function that are accepted. -/
def isToleratedLine (tracer : Tracer) (oneLine : Text) : Bool :=
  match tracer with
  | .ltrace => "error:".toList.isPrefixOf oneLine
  | .strace => contains oneLine "<... exit resumed>) = ?".toList
      || contains oneLine "<... exit_group resumed>) = ?".toList

/-- The message for a line without a function. -/
def noFunction (oneLine : Text) : PyExn := .exception ("No function in:".toList ++ oneLine)

/-- `InitAfterPid`: no core for the line of a signal or of an exit. -/
def initAfterPid (tracer : Tracer) (pid : ℤ) (oneLine : Text) (idxStart : ℕ) :
    Except PyExn (Option BatchLetCore) :=
  let aTimeStamp := slice oneLine idxStart (idxStart + 15)
  let theCall := oneLine.drop (idxStart + 16)
  if "--- ".toList.isPrefixOf theCall ∨ "+++ ".toList.isPrefixOf theCall then .ok none else
    match matchResume theCall with
    | some (funcNameResumed, ixArgs) =>
      some <$> coreOfCall tracer pid aTimeStamp theCall .resumed
        (setFunction tracer .resumed funcNameResumed) ixArgs
    | none =>
      let status := (lineEnd theCall).status
      match findIdx ['('] theCall with
      | some (idxPar + 1) =>
        some <$> coreOfCall tracer pid aTimeStamp theCall status
          (setFunction tracer status (theCall.take (idxPar + 1))) (idxPar + 2)
      | _ =>
        if isToleratedLine tracer oneLine then
          .ok (some (defaultOnError tracer pid aTimeStamp theCall))
        else .error (noFunction oneLine)

/-- `ParseLine`, without the creation of the process: a line without a pid is one
of the main process. -/
def parseLine (topProcessId : ℤ) (tracer : Tracer) (oneLine : Text) :
    Except PyExn (Option BatchLetCore) :=
  if "[pid".toList.isPrefixOf oneLine then
    let idxAfterPid := posOrMinusOne (findIdx [']'] oneLine)
    match int? (pySlice oneLine 4 idxAfterPid) with
    | none => .error .valueError
    | some pidParsed => initAfterPid tracer pidParsed oneLine (idxAfterPid + 2).toNat
  else initAfterPid tracer topProcessId oneLine 0

end Survol.Dockit
