import Survol.Dockit.BatchCore
import Survol.Dockit.FileAccesses

/-!
# The models of the calls

One constructor of the program for each call that it understands. A model reads
the core of a call, changes the objects, and gives the significant arguments of
the batch; it gives `none` when the constructor returns before the batch is
initialised, because the call does not matter.

Most models only keep the file of one descriptor: they are instances of
`streamModel`. Those that check an error first, or that do more, have their own
definition.

## Main definitions

* `SigArg` — a significant argument.
* `batchLetSysOpen`, `batchLetSysRead`, `batchLetSysClone`, … — the models.
* `CallModel`, `batchModels` — the table of the models.
-/

open PyText

namespace Survol.Dockit

/-- A significant argument: a parsed text or list, or an object. -/
inductive SigArg
  | str (s : Text)
  | list (l : List SigArg)
  | file (name : Text)
  | process (pid : ℤ)
  | null

mutual
/-- Equality of significant arguments is decidable. -/
def SigArg.decEq : (a b : SigArg) → Decidable (a = b)
  | .str s, .str t => decidable_of_iff (s = t) (by simp)
  | .list l, .list m =>
    match SigArg.decEqList l m with
    | isTrue h => isTrue (by rw [h])
    | isFalse h => isFalse (by simpa using h)
  | .file s, .file t => decidable_of_iff (s = t) (by simp)
  | .process p, .process q => decidable_of_iff (p = q) (by simp)
  | .null, .null => isTrue rfl
  | .str _, .list _ => isFalse nofun
  | .str _, .file _ => isFalse nofun
  | .str _, .process _ => isFalse nofun
  | .str _, .null => isFalse nofun
  | .list _, .str _ => isFalse nofun
  | .list _, .file _ => isFalse nofun
  | .list _, .process _ => isFalse nofun
  | .list _, .null => isFalse nofun
  | .file _, .str _ => isFalse nofun
  | .file _, .list _ => isFalse nofun
  | .file _, .process _ => isFalse nofun
  | .file _, .null => isFalse nofun
  | .process _, .str _ => isFalse nofun
  | .process _, .list _ => isFalse nofun
  | .process _, .file _ => isFalse nofun
  | .process _, .null => isFalse nofun
  | .null, .str _ => isFalse nofun
  | .null, .list _ => isFalse nofun
  | .null, .file _ => isFalse nofun
  | .null, .process _ => isFalse nofun
/-- Equality of lists of significant arguments is decidable. -/
def SigArg.decEqList : (l m : List SigArg) → Decidable (l = m)
  | [], [] => isTrue rfl
  | a :: l, b :: m =>
    match SigArg.decEq a b, SigArg.decEqList l m with
    | isTrue h, isTrue h' => isTrue (by rw [h, h'])
    | isFalse h, _ => isFalse (by simp [h])
    | _, isFalse h => isFalse (by simp [h])
  | [], _ :: _ => isFalse nofun
  | _ :: _, [] => isFalse nofun
end

instance : DecidableEq SigArg := SigArg.decEq

mutual
/-- A parsed argument as a significant one. -/
def Arg.sig : Arg → SigArg
  | .str s => .str s
  | .list l => .list (Arg.sigList l)
/-- Parsed arguments as significant ones. -/
def Arg.sigList : List Arg → List SigArg
  | [] => []
  | a :: l => a.sig :: Arg.sigList l
end

/-- What the constructor of a model does: it gives the significant arguments, or
returns early. -/
abbrev ModelM := ObjM (Option (List SigArg))

section
variable (env : Env) (core : BatchLetCore)

/-! ## Reading the core -/

/-- `m_parsedArgs[idx]`. -/
def parsedArg (idx : ℕ) : ObjM Arg := .ofOption .indexError core.parsedArgs[idx]?

/-- The returned value, for its text methods. -/
def retText : ObjM Text := .ofOption .attributeError core.retValue

/-- `int(m_retValue)`, and `int(m_retValue, 16)`, by the conversion `f`. -/
def retInt (f : Text → Option ℤ) : ObjM ℤ :=
  match core.retValue with
  | none => .raise .typeError
  | some s => .ofOption .valueError (f s)

/-- The path given as an argument; a list is not a path. -/
def argPath : Arg → ObjM Text
  | .str s => pure s
  | .list _ => .raise .typeError

/-- The item of an argument, which is a character when the argument is a text. -/
def argItem (a : Arg) (i : ℕ) : ObjM Arg :=
  match a with
  | .str s => .ofOption .indexError (s[i]?.map fun c => .str [c])
  | .list l => .ofOption .indexError l[i]?

/-- `STraceStreamToFile`, on an argument. -/
def streamToFile (a : Arg) : ObjM Text := do
  sTraceStreamToFile env (← argText a) core.pid

/-- `ToObjectPath_Accessed_CIM_DataFile`, on an argument. -/
def accessedFile (a : Arg) : ObjM Text := do
  toObjectPathCIMDataFile env (← argPath a) core.pid

/-- The file of `StreamName`. -/
def streamName (idx : ℕ) : ObjM Text := do
  streamToFile env core (← parsedArg core idx)

/-! ## Opening, closing and transferring -/

/-- `InvalidReturnedFileDescriptor`. -/
def invalidReturnedFileDescriptor (fileDes : Text) (tracer : Tracer) : Bool :=
  match tracer with
  | .strace => contains fileDes "ENOENT".toList
  | .ltrace => contains fileDes "-2".toList

/-- The text of a current directory argument. -/
def atFdCwd : Text := "AT_FDCWD".toList

/-- The opening of a file is counted. -/
def opening (filObj : Text) : ModelM := do
  withFileAccess core.pid filObj fun aFilAcc => setOpenTime env aFilAcc core.timeStart
  return some [.file filObj]

/-- The file that an `open` gives: `strace` prints its path, and with `ltrace` the
path of the argument is stored for the descriptor. -/
def openedFile (retValue : Text) : ObjM Text :=
  match core.tracer with
  | .strace => sTraceStreamToFile env retValue core.pid
  | .ltrace => do
    let pathName ← argPath (← parsedArg core 0)
    setFilDes retValue pathName
    toObjectPathCIMDataFile env pathName core.pid

def batchLetSysOpen : ModelM := do
  let retValue ← retText core
  if invalidReturnedFileDescriptor retValue core.tracer then return none else
    let filObj ← openedFile env core retValue
    opening env core filObj

/-- The directory of an `openat`. -/
def openatDirPath (dirNam : Arg) : ObjM DirPath :=
  if dirNam = .str atFdCwd then DirPath.path <$> getProcessCurrentDir core.pid
  else (fun _ => DirPath.object) <$> streamToFile env core dirNam

/-- The file that an `openat` gives. -/
def openatFile (retValue : Text) : ObjM Text :=
  match core.tracer with
  | .strace => sTraceStreamToFile env retValue core.pid
  | .ltrace => do
    let dirPath ← openatDirPath env core (← parsedArg core 0)
    let filNam ← argPath (← parsedArg core 1)
    let pathName ← ofExcept (toAbsPath dirPath filNam)
    setFilDes retValue pathName
    toObjectPathCIMDataFile env pathName core.pid

def batchLetSysOpenat : ModelM := do
  let filObj ← openatFile env core (← retText core)
  opening env core filObj

def batchLetSysClose : ModelM := do
  if contains (← retText core) "EBADF".toList then return none else
    let filObj ← streamName env core 0
    withFileAccess core.pid filObj fun aFilAcc => setCloseTime env aFilAcc core.timeEnd
    return some [.file filObj]

/-- `SetRead` on the access of the first descriptor, with the second argument. -/
def readFirst (bytesRead : ℤ) : ModelM := do
  let filObj ← streamName env core 0
  withFileAccess core.pid filObj fun aFilAcc => do
    setRead env aFilAcc bytesRead (some (← parsedArg core 1))
  return some [.file filObj]

def batchLetSysRead : ModelM :=
  match core.retValue with
  | none => .raise .typeError
  | some retValue =>
    match int? retValue with
    | none => return none
    | some bytesRead => readFirst env core bytesRead

/-- `ConvertBatchCoreRetValue`: hexadecimal with `ltrace`, decimal with `strace`. -/
def convertBatchCoreRetValue : ObjM ℤ :=
  match core.tracer with
  | .ltrace => retInt core hexInt?
  | .strace => retInt core int?

/-- `SetRead` is called without its second argument. -/
def batchLetSysPreadx : ModelM := do
  let _ ← convertBatchCoreRetValue core
  let filObj ← streamName env core 0
  withFileAccess core.pid filObj fun _ => .raise .typeError
  return some [.file filObj]

def batchLetSysPread64x : ModelM := do
  let bytesRead ← convertBatchCoreRetValue core
  readFirst env core bytesRead

/-- `SetWritten` on the access of the first descriptor, when the number of bytes
can be read. -/
def writeFirst (bufferWrite : ObjM (Option Arg)) : ModelM := do
  let filObj ← streamName env core 0
  withFileAccess core.pid filObj fun aFilAcc =>
    match core.retValue with
    | none => .raise .typeError
    | some retValue =>
      match int? retValue with
      | none => return ()
      | some bytesWritten => do setWritten env aFilAcc bytesWritten (← bufferWrite)
  return some [.file filObj]

def batchLetSysWrite : ModelM := writeFirst env core (some <$> parsedArg core 1)

def batchLetSysWritev : ModelM := writeFirst env core (pure none)

/-! ## Descriptors -/

/-- The models that keep the file of the descriptor at `idx`. -/
def streamModel (idx : ℕ) : ModelM := do
  return some [.file (← streamName env core idx)]

/-- The models that do so unless the descriptor is not open. -/
def validStreamModel : ModelM := do
  if contains (← retText core) "EBADF".toList then return none else streamModel env core 0

/-- The remaining arguments of `ioctl` are the slice `[1:0]`, which is empty. -/
def batchLetSysIoctl : ModelM := validStreamModel env core
def batchLetSysFstat : ModelM := validStreamModel env core

def batchLetSysDup2 : ModelM := streamModel env core 0
def batchLetSysFstat64 : ModelM := streamModel env core 0
def batchLetSysFstatfs : ModelM := streamModel env core 0
def batchLetSysFadvise64 : ModelM := streamModel env core 0
def batchLetSysFcntl : ModelM := streamModel env core 0
def batchLetSysFcntl64 : ModelM := streamModel env core 0
def batchLetSysFchown : ModelM := streamModel env core 0
def batchLetSysFtruncate : ModelM := streamModel env core 0
def batchLetSysFsync : ModelM := streamModel env core 0
def batchLetSysFchmod : ModelM := streamModel env core 0
def batchLetSysGetdents : ModelM := streamModel env core 0
def batchLetSysGetdents64 : ModelM := streamModel env core 0
def batchLetSysSendmsg : ModelM := streamModel env core 0
def batchLetSysSendmmsg : ModelM := streamModel env core 0
def batchLetSysRecvmsg : ModelM := streamModel env core 0
def batchLetSysRecvfrom : ModelM := streamModel env core 0
def batchLetSysGetsockname : ModelM := streamModel env core 0
def batchLetSysGetpeername : ModelM := streamModel env core 0
def batchLetSysSendto : ModelM := streamModel env core 0
def batchLetSysShutdown : ModelM := streamModel env core 0

def batchLetSysDup : ModelM := do
  let filObj ← streamName env core 0
  return some [.file filObj, .file (← sTraceStreamToFile env (← retText core) core.pid)]

def batchLetSysFchdir : ModelM := do
  let filObj ← streamName env core 0
  setProcessCurrentDir core.pid filObj
  return some [.file filObj]

/-! ## Memory -/

/-- The text of an anonymous map. -/
def mapAnonymous : Text := "MAP_ANONYMOUS".toList

def batchLetSysMmap : ModelM := do
  if contains (← argText (← parsedArg core 3)) mapAnonymous then return none else
    if (← parsedArg core 4) = .str "-1".toList then return none else streamModel env core 4

def batchLetSysMmap2 : ModelM := do
  if contains (← argText (← parsedArg core 3)) mapAnonymous then return none else
    streamModel env core 4

def batchLetSysMunmap : ModelM := return some []

/-! ## Paths -/

/-- The models that keep the file named by the first argument. -/
def pathModel : ModelM := do
  return some [.file (← accessedFile env core (← parsedArg core 0))]

def batchLetSysStat : ModelM := do
  if invalidReturnedFileDescriptor (← retText core) core.tracer then return none else
    pathModel env core

def batchLetSysLstat : ModelM := pathModel env core
def batchLetSysAccess : ModelM := pathModel env core

/-- The message of `newfstatat`. -/
def invalidDirectory (dirNam : Text) : PyExn := .exception ("Invalid directory:".toList ++ dirNam)

/-- The directory of a `newfstatat`. -/
def fstatatDirPath (dirNam : Arg) : ObjM Text :=
  if dirNam = .str atFdCwd then getProcessCurrentDir core.pid else do
    let dirNam ← argText dirNam
    let dirPath ← sTraceStreamToPathname dirNam
    if dirPath = [] then .raise (invalidDirectory dirNam) else return dirPath

def batchLetSysNewfstatat : ModelM := do
  let dirPath ← fstatatDirPath core (← parsedArg core 0)
  let filNam ← argPath (← parsedArg core 1)
  let pathName ← ofExcept (toAbsPath (.path dirPath) filNam)
  return some [.file (← toObjectPathCIMDataFile env pathName core.pid)]

/-! ## Processes -/

/-- The created process is registered as a child of the caller. -/
def newChild (aPid : ℤ) (isThread : Bool) : ModelM := do
  toObjectPathCIMProcess env aPid
  (if isThread then setThread aPid else pure ())
  addParentProcess aPid core.timeStart core.pid
  return some [.process aPid]

def batchLetSysClone : ModelM := do
  match core.tracer with
  | .ltrace =>
    let aPid ← retInt core hexInt?
    newChild env core aPid true
  | .strace =>
    let aPid ← retInt core int?
    let flagsClone ← argText (← parsedArg core 1)
    newChild env core aPid (contains (strip flagsClone) "CLONE_VM".toList)

def batchLetSysVfork : ModelM := do
  let aPid ← convertBatchCoreRetValue core
  newChild env core aPid false

/-- The terminated pid that a `wait4` reports, if there is one. -/
def waitedPid : ObjM (Option ℤ) := do
  let retValue ← retText core
  match core.tracer with
  | .ltrace =>
    if contains retValue "-10".toList then return none else
      some <$> Py.ofOption PyExn.valueError (hexInt? retValue)
  | .strace =>
    if contains retValue "ECHILD".toList then return none else
      return int? (retValue.takeWhile (· ≠ ' '))

def batchLetSysWait4 : ModelM := do
  match ← waitedPid core with
  | none => return some (Arg.sigList core.parsedArgs)
  | some aPid =>
    if aPid = 0 then return some (Arg.sigList core.parsedArgs) else
      toObjectPathCIMProcess env aPid
      waitProcessEnd aPid core.timeStart core.pid
      return some [.process aPid]

/-- The process executes the file `name`. -/
def executed (name : Text) (commandLine : Option Arg) : ModelM := do
  setExecutable core.pid name
  setCommandLine core.pid commandLine
  setIsExecuted name
  return some [.file name, (commandLine.map Arg.sig).getD .null]

/-- The command line of an `execve`: with `ltrace` it is only a pointer. -/
def execveCommandLine : ObjM (Option Arg) :=
  match core.tracer with
  | .ltrace => pure none
  | .strace => some <$> parsedArg core 1

def batchLetSysExecve : ModelM := do
  if contains (← retText core) "ENOENT".toList then return none else
    let objNewDataFile ← accessedFile env core (← parsedArg core 0)
    let commandLine ← execveCommandLine core
    executed core objNewDataFile commandLine

def batchLetLibLibcStartMain : ModelM := do
  let commandLine ← parsedArg core 0
  let execName ← argItem commandLine 0
  let objNewDataFile ← accessedFile env core execName
  executed core objNewDataFile (some commandLine)

def batchLetSysExitGroup : ModelM := return some []

/-! ## Sockets and pipes -/

/-- The first `fd=` element of a stream, without this prefix. -/
def fdOfStream : List Arg → Except PyExn (Option Text)
  | [] => .ok none
  | .list _ :: _ => .error .attributeError
  | .str elt :: l => if "fd=".toList.isPrefixOf elt then .ok (some (elt.drop 3)) else fdOfStream l

/-- The variable `fdName` after the loop over the streams. -/
def fdName (fd : Option Text) : List Arg → Except PyExn (Option Text)
  | [] => .ok fd
  | .str _ :: l => fdName fd l
  | .list oneStream :: l => do
    let found ← fdOfStream oneStream
    fdName (found.or fd) l

/-- Only the last descriptor is used, after the loop. -/
def batchLetSysPoll : ModelM := do
  let arrStrms ← parsedArg core 0
  match core.tracer, arrStrms with
  | .strace, .list streams =>
    let fd ← ofExcept (fdName none streams)
    let filOnly ← sTraceStreamToFile env (← Py.ofOption PyExn.unboundLocalError fd) core.pid
    return some [.list [.file filOnly]]
  | _, _ => return some []

/-- `ArrFdNameToArrString`: the files of an array of descriptors. -/
def arrFdNameToArrString (arrStrms : Arg) : ObjM SigArg := do
  if arrStrms = .str "NULL".toList then return .list [] else
    let names := match arrStrms with
      | .str s => s.map fun c => .str [c]
      | .list l => l
    let filStrms ← Py.forEach (fun fdName => do
      let splitFdName := splitOn ' ' (← argText fdName)
      Py.forEach (fun oneFdNam => sTraceStreamToFile env oneFdNam core.pid) splitFdName) names
    return .list (filStrms.flatten.map .file)

def batchLetSysSelect : ModelM := do
  match core.tracer with
  | .strace =>
    let arrFilRead ← arrFdNameToArrString env core (← parsedArg core 1)
    let arrFilWrit ← arrFdNameToArrString env core (← parsedArg core 2)
    let arrFilExcp ← arrFdNameToArrString env core (← parsedArg core 3)
    return some [arrFilRead, arrFilWrit, arrFilExcp]
  | .ltrace => return some []

def batchLetSysSetsockopt : ModelM := return some [(core.retValue.map .str).getD .null]

def batchLetSysSocket : ModelM := do
  return some [.file (← sTraceStreamToFile env (← retText core) core.pid)]

/-- The address of a socket is kept when the tracer prints it. -/
def keepAddress (objPath : Text) : ObjM Unit :=
  match core.tracer with
  | .strace => do setSocketAddress objPath (← parsedArg core 1)
  | .ltrace => pure ()

/-- The models of the calls on the address of a socket. -/
def addressModel : ModelM := do
  let objPath ← streamName env core 0
  keepAddress core objPath
  return some [.file objPath]

def batchLetSysConnect : ModelM := addressModel env core
def batchLetSysBind : ModelM := addressModel env core

/-- The models that keep the two ends of a pipe. -/
def pipeModel : ModelM := do
  let arrPipes ← parsedArg core 0
  let arrFil0 ← streamToFile env core (← argItem arrPipes 0)
  let arrFil1 ← streamToFile env core (← argItem arrPipes 1)
  return some [.file arrFil0, .file arrFil1]

def batchLetSysPipe : ModelM := pipeModel env core
def batchLetSysPipe2 : ModelM := pipeModel env core

/-- The base class is never initialised. -/
def batchLetLibGetenv : ModelM := do
  let envNam ← argPath (← parsedArg core 0)
  let envVal := core.retValue.getD []
  setEnvironmentVariable envNam (if envVal = "nil".toList then [] else envVal)
  return none

end

/-! ## The table -/

/-- A class derived from the base class of batches. -/
structure CallModel where
  /-- The constructor. -/
  build : Env → BatchLetCore → ModelM
  /-- `Incomplete_UnfinishedIsOk`: it accepts a call that is not finished. -/
  unfinishedIsOk : Bool
  /-- `Incomplete_ResumedWithoutUnfinishedIsOk`. -/
  resumedWithoutUnfinishedIsOk : Bool
  /-- `SameCall` is always false: such calls are not aggregated. -/
  neverSame : Bool

/-- A model without the special flags. -/
def CallModel.plain (build : Env → BatchLetCore → ModelM) : CallModel := ⟨build, false, false, false⟩

/-- The system calls that are not taken into account. -/
def ignoredSyscalls : List Text :=
  ["arch_prctl", "brk", "futex", "clock_getres", "clock_gettime", "getegid", "geteuid", "getgid",
    "getpgid", "getpid", "getpgrp", "getppid", "getresgid", "getrlimit", "gettid", "getuid",
    "lseek", "mlock", "mprotect", "rt_sigaction", "rt_sigprocmask", "rt_sigreturn",
    "sched_getaffinity", "set_robust_list", "set_tid_address", "setpgid", "setpgrp",
    "times"].map String.toList

/-- The models of the system calls, by the name of the call. -/
def sysModels : Dict Text CallModel :=
  [("open".toList, .plain batchLetSysOpen),
    ("openat".toList, .plain batchLetSysOpenat),
    ("close".toList, .plain batchLetSysClose),
    ("read".toList, .plain batchLetSysRead),
    ("preadx".toList, .plain batchLetSysPreadx),
    ("pread64x".toList, .plain batchLetSysPread64x),
    ("write".toList, .plain batchLetSysWrite),
    ("writev".toList, .plain batchLetSysWritev),
    ("ioctl".toList, .plain batchLetSysIoctl),
    ("stat".toList, .plain batchLetSysStat),
    ("lstat".toList, .plain batchLetSysLstat),
    ("access".toList, .plain batchLetSysAccess),
    ("dup".toList, .plain batchLetSysDup),
    ("dup2".toList, .plain batchLetSysDup2),
    ("mmap".toList, .plain batchLetSysMmap),
    ("munmap".toList, .plain fun _ _ => batchLetSysMunmap),
    ("mmap2".toList, .plain batchLetSysMmap2),
    ("fstat".toList, .plain batchLetSysFstat),
    ("fstat64".toList, .plain batchLetSysFstat64),
    ("fstatfs".toList, .plain batchLetSysFstatfs),
    ("fadvise64".toList, .plain batchLetSysFadvise64),
    ("fchdir".toList, .plain batchLetSysFchdir),
    ("fcntl".toList, .plain batchLetSysFcntl),
    ("fcntl64".toList, .plain batchLetSysFcntl64),
    ("fchown".toList, .plain batchLetSysFchown),
    ("ftruncate".toList, .plain batchLetSysFtruncate),
    ("fsync".toList, .plain batchLetSysFsync),
    ("fchmod".toList, .plain batchLetSysFchmod),
    ("clone".toList, ⟨batchLetSysClone, false, false, true⟩),
    ("vfork".toList, ⟨batchLetSysVfork, false, true, true⟩),
    ("execve".toList, ⟨batchLetSysExecve, false, false, true⟩),
    ("wait4".toList, .plain batchLetSysWait4),
    ("exit_group".toList, .plain fun _ _ => batchLetSysExitGroup),
    ("newfstatat".toList, .plain batchLetSysNewfstatat),
    ("getdents".toList, .plain batchLetSysGetdents),
    ("getdents64".toList, .plain batchLetSysGetdents64),
    ("sendmsg".toList, .plain batchLetSysSendmsg),
    ("sendmmsg".toList, .plain batchLetSysSendmmsg),
    ("recvmsg".toList, .plain batchLetSysRecvmsg),
    ("recvfrom".toList, .plain batchLetSysRecvfrom),
    ("getsockname".toList, .plain batchLetSysGetsockname),
    ("getpeername".toList, .plain batchLetSysGetpeername),
    ("poll".toList, .plain batchLetSysPoll),
    ("select".toList, .plain batchLetSysSelect),
    ("setsockopt".toList, .plain fun _ core => batchLetSysSetsockopt core),
    ("socket".toList, .plain batchLetSysSocket),
    ("connect".toList, .plain batchLetSysConnect),
    ("bind".toList, .plain batchLetSysBind),
    ("sendto".toList, .plain batchLetSysSendto),
    ("pipe".toList, .plain batchLetSysPipe),
    ("pipe2".toList, .plain batchLetSysPipe2),
    ("shutdown".toList, .plain batchLetSysShutdown)]

/-- The models of the library calls. -/
def libModels : Dict Text CallModel :=
  [("__libc_start_main".toList, ⟨batchLetLibLibcStartMain, true, false, true⟩),
    ("getenv".toList, .plain fun _ core => batchLetLibGetenv core)]

/-- What the table says about a function. -/
inductive ModelEntry
  /-- The function is explicitly neglected. -/
  | ignored
  /-- The function has a model. -/
  | model (m : CallModel)
  /-- The function is not in the table. -/
  | unknown

/-- The name of a system call without its suffix. -/
def syscallName? (funcNam : Text) : Option Text :=
  if sysSuffix.isSuffixOf funcNam then some (funcNam.take (funcNam.length - 4)) else none

theorem eq_of_syscallName? {funcNam name : Text} (h : syscallName? funcNam = some name) :
    funcNam = name ++ sysSuffix := by
  unfold syscallName? at h
  split at h
  · rename_i hs
    obtain ⟨t, rfl⟩ := List.isSuffixOf_iff_suffix.mp hs
    simpa [sysSuffix, eq_comm] using h
  · simp at h

/-- `G_batchModels[funcNam]`: the table is indexed by the name of a library call,
or by the name of a system call with its suffix. -/
def batchModels (funcNam : Text) : ModelEntry :=
  match syscallName? funcNam with
  | some name =>
    match sysModels.get? name with
    | some m => .model m
    | none => if name ∈ ignoredSyscalls then .ignored else .unknown
  | none =>
    match libModels.get? funcNam with
    | some m => .model m
    | none => .unknown

/-- The model of a function is in one of the two tables. -/
theorem mem_of_batchModels {funcNam : Text} {m : CallModel} (h : batchModels funcNam = .model m) :
    (∃ name, funcNam = name ++ sysSuffix ∧ (name, m) ∈ sysModels) ∨ (funcNam, m) ∈ libModels := by
  unfold batchModels at h
  split at h
  · rename_i name hname
    refine .inl ⟨name, eq_of_syscallName? hname, ?_⟩
    split at h
    · rename_i m' hm
      obtain rfl : m' = m := by simpa using h
      exact Dict.mem_of_get?_eq_some hm
    · split at h <;> simp at h
  · split at h
    · rename_i m' hm
      obtain rfl : m' = m := by simpa using h
      exact .inr (Dict.mem_of_get?_eq_some hm)
    · simp at h

/-- Only `__libc_start_main` accepts a call that is not finished. -/
theorem eq_of_unfinishedIsOk {funcNam : Text} {m : CallModel}
    (hm : batchModels funcNam = .model m) (hok : m.unfinishedIsOk = true) :
    m = ⟨batchLetLibLibcStartMain, true, false, true⟩ := by
  have hsys : ∀ p ∈ sysModels, p.2.unfinishedIsOk = false := by decide
  rcases mem_of_batchModels hm with ⟨name, -, hmem⟩ | hmem
  · rw [hsys _ hmem] at hok
    cases hok
  · rw [libModels, List.mem_cons, List.mem_singleton] at hmem
    rcases hmem with h | h
    · exact (Prod.mk.inj h).2
    · rw [(Prod.mk.inj h).2] at hok
      cases hok

/-- Only `vfork` accepts a resumed call alone. -/
theorem eq_of_resumedWithoutUnfinishedIsOk {funcNam : Text} {m : CallModel}
    (hm : batchModels funcNam = .model m) (hok : m.resumedWithoutUnfinishedIsOk = true) :
    m = ⟨batchLetSysVfork, false, true, true⟩ := by
  have hsys : ∀ p ∈ sysModels, p.2.resumedWithoutUnfinishedIsOk = true →
      p = ("vfork".toList, ⟨batchLetSysVfork, false, true, true⟩) := by
    simp [sysModels, CallModel.plain]
  rcases mem_of_batchModels hm with ⟨name, -, hmem⟩ | hmem
  · exact (Prod.mk.inj (hsys _ hmem hok)).2
  · rw [libModels, List.mem_cons, List.mem_singleton] at hmem
    rcases hmem with h | h <;> rw [(Prod.mk.inj h).2] at hok <;> cases hok

end Survol.Dockit
