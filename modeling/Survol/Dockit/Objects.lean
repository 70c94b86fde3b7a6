import Survol.Lib.Effect
import Survol.Dockit.Arguments
import Survol.Dockit.Buffers

/-!
# The objects of a run

The module-wide tables that the call models read and change: the processes, the
files, the accesses of a process to a file with their two-level cache, the paths
of the file descriptors, and the environment variables. An object is referred to
by its key (the pid of a process, the path of a file, the rank of an access), so
two references are equal exactly when the program's objects are the same one.

## Main definitions

* `Env` — what a run reads from outside the log.
* `Objects`, and `ObjM`, the computations on it.
* `toObjectPathCIMProcess`, `createObjectPathCIMDataFile` — cached construction.
* `setParentProcess`, `addParentProcess`, `waitProcessEnd`, `getTopProcesses`.
-/

open PyText

namespace Survol.Dockit

/-- The exceptions that the program raises or lets through. -/
inductive PyExn
  | attributeError
  | indexError
  | keyError
  | typeError
  | unboundLocalError
  | valueError
  | systemExit
  | exception (message : Text)
  deriving DecidableEq

/-- What can be read about a process that is still running. -/
structure LiveProcess where
  exe : Option Text
  cwd : Option Text

/-- What a run reads from outside the log. A replayed session has no live
process, and sizes of files only on the machine where the log was made. -/
structure Env where
  topProcessId : ℤ
  currentDirectory : Text
  sameMachine : Bool
  liveProcess : ℤ → Option LiveProcess
  statSize : Text → Text → Option ℕ
  bufferScanners : BufferScanners

/-- A session replayed from a file of another machine, without scanners. -/
def Env.replayed (topProcessId : ℤ) (currentDirectory : Text) : Env :=
  ⟨topProcessId, currentDirectory, false, fun _ => none, fun _ _ => none, []⟩

/-- An access of a process to a file, from opening to closing. The counters are
created by the first event that needs them. -/
structure FileAccess where
  process : ℤ
  dataFile : Text
  openTime : Option Text
  closeTime : Option Text
  openSize : Option ℕ
  closeSize : Option ℕ
  numOpen : Option ℕ
  numReads : Option ℕ
  bytesRead : Option ℤ
  numWrites : Option ℕ
  bytesWritten : Option ℤ
  bufConcatRead : Option BufferConcatenator
  bufConcatWrite : Option BufferConcatenator
  deriving DecidableEq

/-- An access before its first event. -/
def FileAccess.new (process : ℤ) (dataFile : Text) : FileAccess :=
  ⟨process, dataFile, none, none, none, none, none, none, none, none, none, none, none⟩

/-- A process. -/
structure CIMProcess where
  handle : ℤ
  parentProcess : Option ℤ
  subProcesses : List ℤ
  currentDirectory : Text
  creationDate : Option Text
  terminationDate : Option Text
  executable : Option Text
  commandList : Option Arg
  isThread : Bool
  processFileAccesses : List ℕ
  deriving DecidableEq

/-- A file, a socket or a pipe. -/
structure CIMDataFile where
  name : Text
  isExecuted : Bool
  socketAddress : Option Arg
  dataFileFileAccesses : List ℕ
  deriving DecidableEq

/-- The module-wide tables. -/
structure Objects where
  processes : Dict ℤ CIMProcess
  dataFiles : Dict Text CIMDataFile
  fileAccesses : List FileAccess
  cacheFileAccesses : Dict ℤ (Dict Text ℕ)
  mapFilDesToPathName : Dict Text Text
  environmentVariables : Dict Text Text
  deriving DecidableEq

/-- The tables before the first line. -/
def Objects.init : Objects where
  processes := []
  dataFiles := []
  fileAccesses := []
  cacheFileAccesses := []
  mapFilDesToPathName := [("0".toList, "stdin".toList), ("1".toList, "stdout".toList),
    ("2".toList, "stderr".toList)]
  environmentVariables := []

/-- A computation on the tables. -/
abbrev ObjM := Py PyExn Objects

/-- Whether an attribute is set to a text that is not empty. -/
def isSet : Option Text → Bool
  | some (_ :: _) => true
  | _ => false

/-! ## Construction -/

/-- `CreateObjectPath(CIM_DataFile, pathName)`, on the tables. -/
def Objects.toDataFile (w : Objects) (pathName : Text) : Objects :=
  match w.dataFiles.get? pathName with
  | some _ => w
  | none => { w with dataFiles := w.dataFiles.set pathName ⟨pathName, false, none, []⟩ }

/-- Change a process. -/
def Objects.updateProcess (w : Objects) (pid : ℤ) (f : CIMProcess → CIMProcess) : Objects :=
  { w with processes := w.processes.update pid f }

/-- Change a file. -/
def Objects.updateDataFile (w : Objects) (name : Text) (f : CIMDataFile → CIMDataFile) :
    Objects :=
  { w with dataFiles := w.dataFiles.update name f }

/-- The only process, when there is exactly one. -/
def Objects.onlyProcess (w : Objects) : Option ℤ :=
  match w.processes with
  | [(pid, _)] => some pid
  | _ => none

/-- The process `pid` becomes a subprocess of `parent`, if there is one. -/
def Objects.adopt (w : Objects) (parent : Option ℤ) (pid : ℤ) : Objects :=
  match parent with
  | some first => w.updateProcess first fun o => { o with subProcesses := o.subProcesses.insert pid }
  | none => w

/-- The file of a live process, when it can be read. -/
def Objects.toExecutable (w : Objects) (exe : Option Text) : Objects :=
  match exe with
  | some execFilNam => w.toDataFile execFilNam
  | none => w

/-- The attributes that the constructor of `CIM_Process` sets. -/
def CIMProcess.new (env : Env) (procId : ℤ) (parent : Option ℤ) : CIMProcess where
  handle := procId
  parentProcess := parent
  subProcesses := []
  currentDirectory := ((env.liveProcess procId).bind (·.cwd)).getD env.currentDirectory
  creationDate := none
  terminationDate := none
  executable := (env.liveProcess procId).bind (·.exe)
  commandList := none
  isThread := false
  processFileAccesses := []

/-- The constructor of `CIM_Process`, and the registration of the new object. The
process that appears second gets the first one as its parent. -/
def Objects.newProcess (env : Env) (w : Objects) (procId : ℤ) : Objects :=
  let parent := w.onlyProcess
  let w := (w.toExecutable ((env.liveProcess procId).bind (·.exe))).adopt parent procId
  { w with processes := w.processes.set procId (.new env procId parent) }

/-- `ToObjectPath_CIM_Process`, on the tables. -/
def Objects.toProcess (env : Env) (w : Objects) (aPid : ℤ) : Objects :=
  match w.processes.get? aPid with
  | some _ => w
  | none => w.newProcess env aPid

/-- `ToObjectPath_CIM_Process`. -/
def toObjectPathCIMProcess (env : Env) (aPid : ℤ) : ObjM Unit :=
  .modify fun w => w.toProcess env aPid

/-- `CreateObjectPath(CIM_DataFile, pathName)`. -/
def createObjectPathCIMDataFile (pathName : Text) : ObjM Unit :=
  .modify fun w => w.toDataFile pathName

/-- The directory of a process: `GetProcessCurrentDir`. -/
def Objects.processCurrentDir (w : Objects) (pid : ℤ) : Text :=
  ((w.processes.get? pid).map (·.currentDirectory)).getD []

/-- `GetProcessCurrentDir`. -/
def getProcessCurrentDir (pid : ℤ) : ObjM Text := do
  return (← Py.get).processCurrentDir pid

/-! ## Processes -/

/-- The message of `SetParentProcess`. -/
def selfParent : PyExn := .exception "Self-parent".toList

/-- `SetParentProcess`: the process `pid` gets the parent `parent`. -/
def setParentProcess (pid parent : ℤ) : ObjM Unit :=
  if pid = parent then .raise selfParent else
    .modify fun w =>
      (w.updateProcess pid fun o => { o with parentProcess := some parent }).updateProcess parent
        fun o => { o with subProcesses := o.subProcesses.insert pid }

/-- `AddParentProcess`. -/
def addParentProcess (pid : ℤ) (timeStamp : Text) (parent : ℤ) : ObjM Unit := do
  setParentProcess pid parent
  .modify fun w => w.updateProcess pid fun o => { o with creationDate := some timeStamp }

/-- Whether a process has a parent. -/
def Objects.hasParent (w : Objects) (pid : ℤ) : Bool :=
  ((w.processes.get? pid).bind (·.parentProcess)).isSome

/-- `WaitProcessEnd`: only a process without a parent gets one. -/
def waitProcessEnd (pid : ℤ) (timeStamp : Text) (parent : ℤ) : ObjM Unit := do
  .modify fun w => w.updateProcess pid fun o => { o with terminationDate := some timeStamp }
  if (← Py.get).hasParent pid then pure () else setParentProcess pid parent

/-- The creation date of a process is at least the time of its first call. -/
def markCreation (pid : ℤ) (timeStart : Text) : ObjM Unit :=
  .modify fun w => w.updateProcess pid fun o =>
    if isSet o.creationDate then o else { o with creationDate := some timeStart }

/-- `SetThread`. -/
def setThread (pid : ℤ) : ObjM Unit :=
  .modify fun w => w.updateProcess pid fun o => { o with isThread := true }

/-- `SetExecutable`, on a file that is named. -/
def setExecutable (pid : ℤ) (name : Text) : ObjM Unit :=
  .modify fun w => w.updateProcess pid fun o => { o with executable := some name }

/-- Whether a command line, a text or a list, is empty. -/
def Arg.isEmpty : Arg → Bool
  | .str s => s.isEmpty
  | .list l => l.isEmpty

/-- `SetCommandLine`. -/
def setCommandLine (pid : ℤ) (lstCmdLine : Option Arg) : ObjM Unit :=
  match lstCmdLine with
  | none => pure ()
  | some l => if l.isEmpty then pure () else
    .modify fun w => w.updateProcess pid fun o => { o with commandList := some l }

/-- `SetProcessCurrentDir`. -/
def setProcessCurrentDir (pid : ℤ) (name : Text) : ObjM Unit :=
  .modify fun w => w.updateProcess pid fun o => { o with currentDirectory := name }

/-- `GetTopProcesses`: the processes that are not a subprocess of another one. -/
def Objects.getTopProcesses (w : Objects) : List ℤ :=
  w.processes.keys.filter fun pid => ∀ p ∈ w.processes, pid ∉ p.2.subProcesses

/-- `GlobalTerminationDate`. -/
def Objects.globalTerminationDate (w : Objects) (timeEnd : Text) : Objects :=
  { w with processes := w.processes.mapVals fun o =>
      if isSet o.terminationDate then o else { o with terminationDate := some timeEnd } }

/-! ## Files, descriptors and variables -/

/-- `SetIsExecuted`. -/
def setIsExecuted (name : Text) : ObjM Unit :=
  .modify fun w => w.updateDataFile name fun o => { o with isExecuted := true }

/-- The assignment of `SocketAddress`. -/
def setSocketAddress (name : Text) (address : Arg) : ObjM Unit :=
  .modify fun w => w.updateDataFile name fun o => { o with socketAddress := some address }

/-- The path of a descriptor is stored. -/
def setFilDes (filDes pathName : Text) : ObjM Unit :=
  .modify fun w => { w with mapFilDesToPathName := w.mapFilDesToPathName.set filDes pathName }

/-- The value of an environment variable is stored. -/
def setEnvironmentVariable (envNam envVal : Text) : ObjM Unit :=
  .modify fun w => { w with environmentVariables := w.environmentVariables.set envNam envVal }

end Survol.Dockit
