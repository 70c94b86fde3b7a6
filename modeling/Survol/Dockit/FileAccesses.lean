import Survol.Dockit.Objects

/-!
# File accesses

A process and a file share one `FileAccess` from the first event on the file
until it is closed. The object is listed by its process and by its file, and a
two-level cache finds it again. Every event looks the access up, which creates
it when needed, and then counts itself in it; closing also drops it from the
cache.

## Main definitions

* `getFileAccess`, `setOpenTime`, `setCloseTime`, `setRead`, `setWritten`.
-/

open PyText

namespace Survol.Dockit

/-! ## Changes of one access -/

/-- A counter that is created by its first use. -/
def increment : Option ℕ → Option ℕ
  | some n => some (n + 1)
  | none => some 1

/-- A sum that is created by its first use. -/
def addTo (n : ℤ) : Option ℤ → Option ℤ
  | some m => some (m + n)
  | none => some n

/-- Whether a time replaces the stored one. -/
def isEarlier (timeStamp : Text) : Option Text → Bool
  | some (c :: t) => decide (timeStamp < c :: t)
  | _ => true

/-- The size of a file, kept when it cannot be read. -/
def newSize (env : Env) (name timeStamp : Text) (size : Option ℕ) : Option ℕ :=
  if env.sameMachine then (env.statSize name timeStamp).or size else size

/-- What `SetOpenTime` changes in the access. -/
def FileAccess.opened (env : Env) (timeStamp : Text) (a : FileAccess) : FileAccess :=
  let a := { a with numOpen := increment a.numOpen }
  if isEarlier timeStamp a.openTime then
    { a with openTime := some timeStamp, openSize := newSize env a.dataFile timeStamp a.openSize }
  else a

/-- What `SetCloseTime` changes in the access. -/
def FileAccess.closed (env : Env) (timeStamp : Text) (a : FileAccess) : FileAccess :=
  if isEarlier timeStamp a.closeTime then
    { a with closeTime := some timeStamp, closeSize := newSize env a.dataFile timeStamp a.closeSize }
  else a

/-- What `SetRead` counts. -/
def FileAccess.countRead (bytesRead : ℤ) (a : FileAccess) : FileAccess :=
  { a with numReads := increment a.numReads, bytesRead := addTo bytesRead a.bytesRead }

/-- What `SetWritten` counts. -/
def FileAccess.countWritten (bytesWritten : ℤ) (a : FileAccess) : FileAccess :=
  { a with numWrites := increment a.numWrites, bytesWritten := addTo bytesWritten a.bytesWritten }

/-- The beginnings of the names that are not paths of files. -/
def nonFilePrefixes : List Text :=
  ["UNIX:".toList, "TCP:".toList, "TCPv6:".toList, "NETLINK:".toList, "pipe:".toList,
    "UDP:".toList, "UDPv6:".toList]

/-- `IsPlainFile`. -/
def isPlainFile (name : Text) : Bool :=
  !name.isEmpty && nonFilePrefixes.all fun pfx => !pfx.isPrefixOf name

/-- The concatenator of one direction. -/
def FileAccess.bufConcat (isRead : Bool) (a : FileAccess) : Option BufferConcatenator :=
  if isRead then a.bufConcatRead else a.bufConcatWrite

/-- The concatenator of one direction is replaced. -/
def FileAccess.setBufConcat (isRead : Bool) (b : BufferConcatenator) (a : FileAccess) :
    FileAccess :=
  if isRead then { a with bufConcatRead := some b } else { a with bufConcatWrite := some b }

/-- `AnalyseNewBuffer`: the access after it, and whether the program goes on. An
argument that is not a text, or that cannot be decoded, ends the program. -/
def FileAccess.analyseNewBuffer (env : Env) (isRead : Bool) (szBuffer : ℤ) (aBuffer : Option Arg)
    (a : FileAccess) : FileAccess × Bool :=
  match aBuffer with
  | none => (a, true)
  | some buffer =>
    if buffer.isEmpty || isPlainFile a.dataFile then (a, true) else
      let concatBuf := (a.bufConcat isRead).getD BufferConcatenator.new
      let appended := match buffer with
        | .str s => concatBuf.appendIOBuffer env.bufferScanners s szBuffer
        | .list _ => none
      (a.setBufConcat isRead (appended.getD concatBuf), appended.isSome)

/-! ## The cache -/

/-- The access that the cache gives for a process and a file. -/
def Objects.cachedAccess (w : Objects) (pid : ℤ) (name : Text) : Option ℕ :=
  (w.cacheFileAccesses.get? pid).bind (·.get? name)

/-- An access is put into the cache, with a new inner map for a new process. -/
def Objects.cacheAccess (w : Objects) (pid : ℤ) (name : Text) (i : ℕ) : Objects :=
  { w with cacheFileAccesses := match w.cacheFileAccesses.get? pid with
      | some d => w.cacheFileAccesses.set pid (d.set name i)
      | none => w.cacheFileAccesses.set pid [(name, i)] }

/-- `FileAccess(objProcess, objDataFile)`: the new access is listed by both. -/
def Objects.newFileAccess (w : Objects) (pid : ℤ) (name : Text) : Objects :=
  let i := w.fileAccesses.length
  let w := { w with fileAccesses := w.fileAccesses ++ [FileAccess.new pid name] }
  let w := w.updateProcess pid fun o =>
    { o with processFileAccesses := o.processFileAccesses ++ [i] }
  w.updateDataFile name fun o => { o with dataFileFileAccesses := o.dataFileFileAccesses ++ [i] }

/-- `GetFileAccess`, that is `LookupFileAccess`. -/
def getFileAccess (pid : ℤ) (name : Text) : ObjM ℕ := do
  let w ← .get
  match w.cachedAccess pid name with
  | some i => return i
  | none =>
    .modify fun w => (w.newFileAccess pid name).cacheAccess pid name w.fileAccesses.length
    return w.fileAccesses.length

/-- An access is looked up and used. -/
def withFileAccess (pid : ℤ) (name : Text) (use : ℕ → ObjM Unit) : ObjM Unit := do
  use (← getFileAccess pid name)

/-! ## Events -/

/-- Change an access. -/
def updateAccess (i : ℕ) (f : FileAccess → FileAccess) : ObjM Unit :=
  .modify fun w => { w with fileAccesses := w.fileAccesses.modify i f }

/-- `SetOpenTime`: the access goes into the cache again. -/
def setOpenTime (env : Env) (i : ℕ) (timeStamp : Text) : ObjM Unit := do
  updateAccess i (·.opened env timeStamp)
  let w ← .get
  match w.fileAccesses[i]? with
  | none => return ()
  | some a =>
    match w.cacheFileAccesses.get? a.process with
    | none => .raise .keyError
    | some d => .modify fun w =>
        { w with cacheFileAccesses := w.cacheFileAccesses.set a.process (d.set a.dataFile i) }

/-- `SetCloseTime`: the access is dropped from the cache. -/
def setCloseTime (env : Env) (i : ℕ) (timeStamp : Text) : ObjM Unit := do
  updateAccess i (·.closed env timeStamp)
  let w ← .get
  match w.fileAccesses[i]? with
  | none => return ()
  | some a =>
    match w.cacheFileAccesses.get? a.process with
    | none => .raise .keyError
    | some d => match d.get? a.dataFile with
      | none => .raise .keyError
      | some _ => .modify fun w =>
          { w with cacheFileAccesses := w.cacheFileAccesses.set a.process (d.erase a.dataFile) }

/-- `AnalyseNewBuffer`. -/
def analyseNewBuffer (env : Env) (i : ℕ) (isRead : Bool) (szBuffer : ℤ) (aBuffer : Option Arg) :
    ObjM Unit := do
  let w ← .get
  match w.fileAccesses[i]? with
  | none => return ()
  | some a =>
    let (a', goesOn) := a.analyseNewBuffer env isRead szBuffer aBuffer
    updateAccess i fun _ => a'
    if goesOn then return () else .raise .systemExit

/-- `SetRead`. -/
def setRead (env : Env) (i : ℕ) (bytesRead : ℤ) (bufferRead : Option Arg) : ObjM Unit := do
  updateAccess i (·.countRead bytesRead)
  analyseNewBuffer env i true bytesRead bufferRead

/-- `SetWritten`. -/
def setWritten (env : Env) (i : ℕ) (bytesWritten : ℤ) (bufferWrite : Option Arg) : ObjM Unit := do
  updateAccess i (·.countWritten bytesWritten)
  analyseNewBuffer env i false bytesWritten bufferWrite

/-- An event on a file. -/
inductive AccessEvent
  | opens (timeStamp : Text)
  | reads (bytesRead : ℤ) (bufferRead : Option Arg)
  | writes (bytesWritten : ℤ) (bufferWrite : Option Arg)
  | closes (timeStamp : Text)

/-- What an event changes in the access, and whether the program goes on. -/
def AccessEvent.apply (env : Env) (e : AccessEvent) (a : FileAccess) : FileAccess × Bool :=
  match e with
  | .opens timeStamp => (a.opened env timeStamp, true)
  | .reads bytesRead bufferRead =>
    (a.countRead bytesRead).analyseNewBuffer env true bytesRead bufferRead
  | .writes bytesWritten bufferWrite =>
    (a.countWritten bytesWritten).analyseNewBuffer env false bytesWritten bufferWrite
  | .closes timeStamp => (a.closed env timeStamp, true)

/-- The function of an event is called on an access. -/
def AccessEvent.send (env : Env) (e : AccessEvent) (aFilAcc : ℕ) : ObjM Unit :=
  match e with
  | .opens timeStamp => setOpenTime env aFilAcc timeStamp
  | .reads bytesRead bufferRead => setRead env aFilAcc bytesRead bufferRead
  | .writes bytesWritten bufferWrite => setWritten env aFilAcc bytesWritten bufferWrite
  | .closes timeStamp => setCloseTime env aFilAcc timeStamp

/-- An event is issued on the objects of a process and a file, as the call models
do: `GetFileAccess`, then the function of the event. -/
def issueEvent (env : Env) (pid : ℤ) (name : Text) (e : AccessEvent) : ObjM Unit := do
  toObjectPathCIMProcess env pid
  createObjectPathCIMDataFile name
  withFileAccess pid name (e.send env)

end Survol.Dockit
