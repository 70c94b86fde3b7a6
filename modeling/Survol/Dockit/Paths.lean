import Survol.Dockit.Objects

/-!
# Paths

How the name of a file is found: from the text of a descriptor, from the table of
descriptors, and relative to the directory of a process.

## Main definitions

* `toAbsPath` — the lexical clean-up of a path.
* `sTraceStreamToPathname` — the path of a descriptor.
* `toObjectPathCIMDataFile` — the file of a path, as a process sees it.
-/

open PyText

namespace Survol.Dockit

/-! ## Absolute paths -/

/-- The characters of the word before the colon of a pseudo-file. -/
def isWordChar (c : Char) : Bool :=
  ('0' ≤ c && c ≤ '9') || ('a' ≤ c && c ≤ 'z') || ('A' ≤ c && c ≤ 'Z') || c = '_'

/-- A match of `^[0-9a-zA-Z_]+:`. -/
def isPseudoFile (filNam : Text) : Bool :=
  !(filNam.takeWhile isWordChar).isEmpty && [':'].isPrefixOf (filNam.dropWhile isWordChar)

/-- The names that stand for themselves. -/
def standardStreams : List Text := ["stdout".toList, "stdin".toList, "stderr".toList]

/-- The loop that removes `..`, `.` and empty parts, by the number `lenSplt - ix`
of steps that are left. The index can become negative, and then counts from the
end; `none` where it is out of range. -/
def absLoop : ℕ → List Text → ℤ → Option (List Text)
  | 0, splitSlash, _ => some splitSlash
  | left + 1, splitSlash, ix =>
    match pyIndex? splitSlash ix with
    | none => none
    | some part =>
      if part = "..".toList then absLoop left (pyDel splitSlash (ix - 1) (ix + 1)) (ix - 1)
      else if part = ".".toList ∨ part = [] then absLoop left (pyDel splitSlash ix (ix + 1)) ix
      else absLoop left splitSlash (ix + 1)

/-- The directory that a name is relative to: a path, or an object, which cannot
be put in front of a name. -/
inductive DirPath
  | path (s : Text)
  | object

/-- `ToAbsPath`. -/
def toAbsPath (dirPath : DirPath) (filNam : Text) : Except PyExn Text :=
  if isPseudoFile filNam ∨ filNam ∈ standardStreams then .ok filNam else
    let normalise (fullPath : Text) : Except PyExn Text :=
      let splitSlash := splitOn '/' fullPath
      match absLoop (splitSlash.length - 1) splitSlash 1 with
      | none => .error .indexError
      | some parts => .ok (['/'].intercalate parts)
    match filNam, dirPath with
    | [], _ => .error .indexError
    | '/' :: _, _ => normalise filNam
    | _, .object => .error .typeError
    | _, .path dir =>
      if dir = ".".toList ∨ dir = [] then normalise filNam else normalise (dir ++ '/' :: filNam)

example : (toAbsPath (.path "/a/b".toList) "../c//./d".toList).toOption = some "/a/c/d".toList := by
  decide

/-! ## Files -/

/-- The result of a fallible function. -/
def ofExcept {α : Type} : Except PyExn α → ObjM α
  | .ok a => pure a
  | .error e => .raise e

/-- `ToObjectPath_CIM_DataFile`: the name is relative to the directory of the
process, unless the pid is zero. -/
def toObjectPathCIMDataFile (env : Env) (pathName : Text) (aPid : ℤ) : ObjM Text := do
  let dirPath ← if aPid = 0 then pure [] else do
    toObjectPathCIMProcess env aPid
    getProcessCurrentDir aPid
  let pathName ← ofExcept (toAbsPath (.path dirPath) pathName)
  createObjectPathCIMDataFile pathName
  return pathName

/-- `STraceStreamToPathname`, in the tables of the descriptors. -/
def streamPathname (mapFilDes : Dict Text Text) (strmStr : Text) : Text :=
  match findIdx ['<'] strmStr with
  | some idxLT => pySlice strmStr (idxLT + 1) (-1)
  | none =>
    match mapFilDes.get? strmStr with
    | some pathName => pathName
    | none =>
      if strmStr = "-1".toList then "Invalid device".toList
      else "UnknownFileDescr:".toList ++ strmStr

/-- The text of an argument; a list has no text methods. -/
def argText : Arg → ObjM Text
  | .str s => pure s
  | .list _ => .raise .attributeError

/-- `STraceStreamToPathname`. -/
def sTraceStreamToPathname (strmStr : Text) : ObjM Text := do
  return streamPathname (← Py.get).mapFilDesToPathName strmStr

/-- `STraceStreamToFile`. -/
def sTraceStreamToFile (env : Env) (strmStr : Text) (aPid : ℤ) : ObjM Text := do
  toObjectPathCIMDataFile env (← sTraceStreamToPathname strmStr) aPid

end Survol.Dockit
