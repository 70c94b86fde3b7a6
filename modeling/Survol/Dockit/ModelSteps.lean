import Survol.Dockit.CallModels

/-!
# What the models of the calls can do

Every model is put together from a few steps on the objects of its own process.
What is true of each step is therefore true of every model, by `Keeps.of_built`
and `Agree.of_built`. Two kinds of steps belong to a few calls only: with
`ltrace`, opening a file stores the path of a descriptor; `clone`, `vfork` and
`wait4` change the tree of processes.

## Main definitions

* `AccessStep`, `ModelStep` — the steps.
* `IgnoresAccesses` — the relations that `keeps_withFileAccess` is about.
* `built_batchModels` — every model of the table is put together from them.
-/

open PyText Py

namespace Survol.Dockit

/-- A step on the access `i`. -/
inductive AccessStep (env : Env) (i : ℕ) : (β : Type) → ObjM β → Prop
  | opens (timeStamp : Text) : AccessStep env i Unit (setOpenTime env i timeStamp)
  | closes (timeStamp : Text) : AccessStep env i Unit (setCloseTime env i timeStamp)
  | reads (n : ℤ) (b : Option Arg) : AccessStep env i Unit (setRead env i n b)
  | writes (n : ℤ) (b : Option Arg) : AccessStep env i Unit (setWritten env i n b)

/-- A step of a model run by the process `pid`: `fds` says whether it can change
the table of the descriptors, and `tree` the tree of the processes. -/
inductive ModelStep (env : Env) (pid : ℤ) (fds tree : Prop) : (β : Type) → ObjM β → Prop
  | pathname (s : Text) : ModelStep env pid fds tree Text (sTraceStreamToPathname s)
  | dataFile (pathName : Text) :
      ModelStep env pid fds tree Text (toObjectPathCIMDataFile env pathName pid)
  | currentDir : ModelStep env pid fds tree Text (getProcessCurrentDir pid)
  | access (name : Text) {use : ℕ → ObjM Unit} (h : ∀ i, Built (AccessStep env i) (use i)) :
      ModelStep env pid fds tree Unit (withFileAccess pid name use)
  | chdir (name : Text) : ModelStep env pid fds tree Unit (setProcessCurrentDir pid name)
  | executable (name : Text) : ModelStep env pid fds tree Unit (setExecutable pid name)
  | commandLine (l : Option Arg) : ModelStep env pid fds tree Unit (setCommandLine pid l)
  | isExecuted (name : Text) : ModelStep env pid fds tree Unit (setIsExecuted name)
  | socketAddress (name : Text) (a : Arg) :
      ModelStep env pid fds tree Unit (setSocketAddress name a)
  | variable (n v : Text) : ModelStep env pid fds tree Unit (setEnvironmentVariable n v)
  | filDes (h : fds) (filDes pathName : Text) :
      ModelStep env pid fds tree Unit (setFilDes filDes pathName)
  | process (h : tree) (p : ℤ) : ModelStep env pid fds tree Unit (toObjectPathCIMProcess env p)
  | thread (h : tree) (p : ℤ) : ModelStep env pid fds tree Unit (setThread p)
  | parent (h : tree) (p : ℤ) (timeStamp : Text) :
      ModelStep env pid fds tree Unit (addParentProcess p timeStamp pid)
  | waitEnd (h : tree) (p : ℤ) (timeStamp : Text) :
      ModelStep env pid fds tree Unit (waitProcessEnd p timeStamp pid)

/-! ## What the accesses change -/

/-- A relation that the accesses and their cache do not matter for. -/
def IgnoresAccesses (R : Objects → Objects → Prop) : Prop :=
  ∀ w l c, R w { w with fileAccesses := l, cacheFileAccesses := c }

theorem keeps_updateAccess {R : Objects → Objects → Prop} (h : IgnoresAccesses R) (i : ℕ)
    (f : FileAccess → FileAccess) : Py.Keeps R (updateAccess i f) :=
  .modify fun w => h w _ w.cacheFileAccesses

section
variable {R : Objects → Objects → Prop} [Std.Refl R] [IsTrans Objects R]

theorem keeps_analyseNewBuffer {env : Env} (h : IgnoresAccesses R) (i : ℕ) (isRead : Bool) (n : ℤ)
    (b : Option Arg) : Py.Keeps R (analyseNewBuffer env i isRead n b) := by
  refine Py.Keeps.bind (R := R) .get fun w => ?_
  split
  · exact .pure _
  · exact .bind (keeps_updateAccess h _ _) fun _ => .ite (.pure _) (.raise _)

theorem keeps_accessStep {env : Env} {i : ℕ} {β : Type} {m : ObjM β} (h : IgnoresAccesses R)
    (hm : AccessStep env i β m) : Py.Keeps R m := by
  cases hm with
  | opens timeStamp =>
    refine .bind (keeps_updateAccess h _ _) fun _ => .bind .get fun w => ?_
    split
    · exact .pure _
    · split
      · exact .raise _
      · exact .modify fun w => h w w.fileAccesses _
  | closes timeStamp =>
    refine .bind (keeps_updateAccess h _ _) fun _ => .bind .get fun w => ?_
    split
    · exact .pure _
    · split
      · exact .raise _
      · split
        · exact .raise _
        · exact .modify fun w => h w w.fileAccesses _
  | reads n b => exact .bind (keeps_updateAccess h _ _) fun _ => keeps_analyseNewBuffer h _ _ _ _
  | writes n b => exact .bind (keeps_updateAccess h _ _) fun _ => keeps_analyseNewBuffer h _ _ _ _

theorem keeps_withFileAccess {env : Env} {pid : ℤ} {name : Text} {use : ℕ → ObjM Unit}
    (h : IgnoresAccesses R)
    (hnew : ∀ w : Objects, R w ((w.newFileAccess pid name).cacheAccess pid name
      w.fileAccesses.length))
    (huse : ∀ i, Py.Built (AccessStep env i) (use i)) :
    Py.Keeps R (withFileAccess pid name use) := by
  refine .bind (Py.Keeps.bind (R := R) .get fun w => ?_)
    fun i => .of_built (fun _ _ => keeps_accessStep h) (huse i)
  split
  · exact .pure _
  · exact .bind (.modify hnew) fun _ => .pure _

end

section
variable {env : Env} {core : BatchLetCore} {fds tree : Prop}

/-- The computations that a model can be put together from. -/
abbrev BuiltModel (env : Env) (core : BatchLetCore) (fds tree : Prop) {β : Type} (m : ObjM β) :
    Prop := Built (ModelStep env core.pid fds tree) m

/-! ## Reading the core -/

theorem built_parsedArg {S : (β : Type) → ObjM β → Prop} (idx : ℕ) :
    Built S (parsedArg core idx) := .ofOption _ _

theorem built_retText : BuiltModel env core fds tree (retText core) := .ofOption _ _

theorem built_retInt (f : Text → Option ℤ) : BuiltModel env core fds tree (retInt core f) := by
  unfold retInt
  cases core.retValue with
  | none => exact .raise _
  | some s => exact .ofOption _ _

theorem built_ofExcept {α : Type} (r : Except PyExn α) :
    BuiltModel env core fds tree (ofExcept r) := by
  cases r with
  | error e => exact .raise e
  | ok a => exact .pure a

theorem built_argText (a : Arg) : BuiltModel env core fds tree (argText a) := by
  cases a with
  | str s => exact .pure s
  | list l => exact .raise _

theorem built_argPath (a : Arg) : BuiltModel env core fds tree (argPath a) := by
  cases a with
  | str s => exact .pure s
  | list l => exact .raise _

theorem built_argItem (a : Arg) (i : ℕ) : BuiltModel env core fds tree (argItem a i) := by
  cases a with
  | str s => exact .ofOption _ _
  | list l => exact .ofOption _ _

/-! ## Files -/

theorem built_toObjectPathCIMDataFile (pathName : Text) :
    BuiltModel env core fds tree (toObjectPathCIMDataFile env pathName core.pid) :=
  .step (.dataFile pathName)

theorem built_sTraceStreamToFile (s : Text) :
    BuiltModel env core fds tree (sTraceStreamToFile env s core.pid) :=
  .bind (.step (.pathname s)) built_toObjectPathCIMDataFile

theorem built_streamToFile (a : Arg) : BuiltModel env core fds tree (streamToFile env core a) :=
  .bind (built_argText a) built_sTraceStreamToFile

theorem built_accessedFile (a : Arg) : BuiltModel env core fds tree (accessedFile env core a) :=
  .bind (built_argPath a) built_toObjectPathCIMDataFile

theorem built_streamName (idx : ℕ) : BuiltModel env core fds tree (streamName env core idx) :=
  .bind (built_parsedArg idx) built_streamToFile

/-! ## Opening, closing and transferring -/

theorem built_opening (filObj : Text) : BuiltModel env core fds tree (opening env core filObj) :=
  .bind (.step (.access filObj fun _ => .step (.opens _))) fun _ => .pure _

theorem built_openedFile (h : core.tracer = .ltrace → fds) (retValue : Text) :
    BuiltModel env core fds tree (openedFile env core retValue) := by
  unfold openedFile
  cases ht : core.tracer with
  | strace => exact built_sTraceStreamToFile retValue
  | ltrace =>
    exact .bind (built_parsedArg 0) fun a => .bind (built_argPath a) fun pathName =>
      .bind (.step (.filDes (h ht) _ _)) fun _ => built_toObjectPathCIMDataFile pathName

theorem built_batchLetSysOpen (h : core.tracer = .ltrace → fds) :
    BuiltModel env core fds tree (batchLetSysOpen env core) :=
  .bind built_retText fun retValue => .ite (.pure _) <|
    .bind (built_openedFile h retValue) built_opening

theorem built_openatDirPath (dirNam : Arg) :
    BuiltModel env core fds tree (openatDirPath env core dirNam) :=
  .ite (.map _ (.step .currentDir)) (.map _ (built_streamToFile dirNam))

theorem built_openatFile (h : core.tracer = .ltrace → fds) (retValue : Text) :
    BuiltModel env core fds tree (openatFile env core retValue) := by
  unfold openatFile
  cases ht : core.tracer with
  | strace => exact built_sTraceStreamToFile retValue
  | ltrace =>
    exact .bind (built_parsedArg 0) fun a => .bind (built_openatDirPath a) fun _ =>
      .bind (built_parsedArg 1) fun b => .bind (built_argPath b) fun _ =>
      .bind (built_ofExcept _) fun pathName => .bind (.step (.filDes (h ht) _ _)) fun _ =>
      built_toObjectPathCIMDataFile pathName

theorem built_batchLetSysOpenat (h : core.tracer = .ltrace → fds) :
    BuiltModel env core fds tree (batchLetSysOpenat env core) :=
  .bind built_retText fun retValue => .bind (built_openatFile h retValue) built_opening

theorem built_batchLetSysClose : BuiltModel env core fds tree (batchLetSysClose env core) :=
  .bind built_retText fun _ => .ite (.pure _) <| .bind (built_streamName 0) fun filObj =>
    .bind (.step (.access filObj fun _ => .step (.closes _))) fun _ => .pure _

theorem built_readFirst (n : ℤ) : BuiltModel env core fds tree (readFirst env core n) :=
  .bind (built_streamName 0) fun filObj =>
    .bind (.step (.access filObj fun _ => .bind (built_parsedArg 1) fun _ => .step (.reads _ _)))
      fun _ => .pure _

theorem built_batchLetSysRead : BuiltModel env core fds tree (batchLetSysRead env core) := by
  unfold batchLetSysRead
  cases core.retValue with
  | none => exact .raise _
  | some retValue =>
    dsimp only
    cases int? retValue with
    | none => exact .pure _
    | some bytesRead => exact built_readFirst bytesRead

theorem built_convertBatchCoreRetValue :
    BuiltModel env core fds tree (convertBatchCoreRetValue core) := by
  unfold convertBatchCoreRetValue
  cases core.tracer with
  | ltrace => exact built_retInt _
  | strace => exact built_retInt _

theorem built_batchLetSysPreadx : BuiltModel env core fds tree (batchLetSysPreadx env core) :=
  .bind built_convertBatchCoreRetValue fun _ => .bind (built_streamName 0) fun filObj =>
    .bind (.step (.access filObj fun _ => .raise _)) fun _ => .pure _

theorem built_batchLetSysPread64x : BuiltModel env core fds tree (batchLetSysPread64x env core) :=
  .bind built_convertBatchCoreRetValue built_readFirst

theorem built_writeFirst {b : ObjM (Option Arg)} (hb : ∀ i, Built (AccessStep env i) b) :
    BuiltModel env core fds tree (writeFirst env core b) := by
  refine .bind (built_streamName 0) fun filObj =>
    .bind (.step (.access filObj fun i => ?_)) fun _ => .pure _
  cases core.retValue with
  | none => exact .raise _
  | some retValue =>
    dsimp only
    cases int? retValue with
    | none => exact .pure _
    | some n => exact .bind (hb i) fun _ => .step (.writes _ _)

theorem built_batchLetSysWrite : BuiltModel env core fds tree (batchLetSysWrite env core) :=
  built_writeFirst fun _ => .map _ (built_parsedArg 1)

theorem built_batchLetSysWritev : BuiltModel env core fds tree (batchLetSysWritev env core) :=
  built_writeFirst fun _ => .pure none

/-! ## Descriptors, memory and paths -/

theorem built_streamModel (idx : ℕ) : BuiltModel env core fds tree (streamModel env core idx) :=
  .bind (built_streamName idx) fun _ => .pure _

theorem built_validStreamModel : BuiltModel env core fds tree (validStreamModel env core) :=
  .bind built_retText fun _ => .ite (.pure _) (built_streamModel 0)

theorem built_batchLetSysDup : BuiltModel env core fds tree (batchLetSysDup env core) :=
  .bind (built_streamName 0) fun _ => .bind built_retText fun _ =>
    .bind (built_sTraceStreamToFile _) fun _ => .pure _

theorem built_batchLetSysFchdir : BuiltModel env core fds tree (batchLetSysFchdir env core) :=
  .bind (built_streamName 0) fun filObj => .bind (.step (.chdir filObj)) fun _ => .pure _

theorem built_batchLetSysMmap : BuiltModel env core fds tree (batchLetSysMmap env core) :=
  .bind (built_parsedArg 3) fun a => .bind (built_argText a) fun _ => .ite (.pure _) <|
    .bind (built_parsedArg 4) fun _ => .ite (.pure _) (built_streamModel 4)

theorem built_batchLetSysMmap2 : BuiltModel env core fds tree (batchLetSysMmap2 env core) :=
  .bind (built_parsedArg 3) fun a => .bind (built_argText a) fun _ => .ite (.pure _) <|
    built_streamModel 4

theorem built_pathModel : BuiltModel env core fds tree (pathModel env core) :=
  .bind (built_parsedArg 0) fun a => .bind (built_accessedFile a) fun _ => .pure _

theorem built_batchLetSysStat : BuiltModel env core fds tree (batchLetSysStat env core) :=
  .bind built_retText fun _ => .ite (.pure _) built_pathModel

theorem built_fstatatDirPath (dirNam : Arg) :
    BuiltModel env core fds tree (fstatatDirPath core dirNam) :=
  .ite (.step .currentDir) <| .bind (built_argText dirNam) fun s =>
    .bind (.step (.pathname s)) fun _ => .ite (.raise _) (.pure _)

theorem built_batchLetSysNewfstatat :
    BuiltModel env core fds tree (batchLetSysNewfstatat env core) :=
  .bind (built_parsedArg 0) fun a => .bind (built_fstatatDirPath a) fun _ =>
    .bind (built_parsedArg 1) fun b => .bind (built_argPath b) fun _ => .bind (built_ofExcept _)
      fun _ => .bind (built_toObjectPathCIMDataFile _) fun _ => .pure _

/-! ## Processes -/

theorem built_newChild (h : tree) (aPid : ℤ) (isThread : Bool) :
    BuiltModel env core fds tree (newChild env core aPid isThread) :=
  .bind (.step (.process h aPid)) fun _ => .bind (.ite (.step (.thread h aPid)) (.pure ())) fun _ =>
    .bind (.step (.parent h aPid _)) fun _ => .pure _

/-- The objects with a child that is admitted, perhaps as a thread. -/
def Objects.withChild (env : Env) (w : Objects) (aPid : ℤ) (isThread : Bool) : Objects :=
  if isThread then (w.toProcess env aPid).updateProcess aPid fun o => { o with isThread := true }
  else w.toProcess env aPid

/-- **What a new child does**: it is admitted, and gets its parent and its date, unless it is its own
parent. -/
theorem run_newChild (aPid : ℤ) (isThread : Bool) (w : Objects) :
    (newChild env core aPid isThread).run w =
      if aPid = core.pid then (.error selfParent, w.withChild env aPid isThread)
      else (.ok (some [.process aPid]),
        ((setParentProcess aPid core.pid).run (w.withChild env aPid isThread)).2.updateProcess aPid
          fun o => { o with creationDate := some core.timeStart }) := by
  rw [newChild, toObjectPathCIMProcess, run_modify_bind, addParentProcess, setParentProcess,
    Objects.withChild]
  by_cases hself : aPid = core.pid
  · rw [if_pos hself, if_pos hself]
    cases isThread <;> rfl
  · rw [if_neg hself, if_neg hself]
    cases isThread <;> rfl

theorem built_batchLetSysClone (h : tree) :
    BuiltModel env core fds tree (batchLetSysClone env core) := by
  unfold batchLetSysClone
  cases core.tracer with
  | ltrace => exact .bind (built_retInt _) fun aPid => built_newChild h aPid true
  | strace =>
    exact .bind (built_retInt _) fun aPid => .bind (built_parsedArg 1) fun a =>
      .bind (built_argText a) fun _ => built_newChild h aPid _

theorem built_batchLetSysVfork (h : tree) :
    BuiltModel env core fds tree (batchLetSysVfork env core) :=
  .bind built_convertBatchCoreRetValue fun aPid => built_newChild h aPid false

theorem built_waitedPid : BuiltModel env core fds tree (waitedPid core) := by
  unfold waitedPid
  refine .bind built_retText fun retValue => ?_
  cases core.tracer with
  | ltrace => exact .ite (.pure _) (.map _ (.ofOption _ _))
  | strace => exact .ite (.pure _) (.pure _)

theorem built_batchLetSysWait4 (h : tree) :
    BuiltModel env core fds tree (batchLetSysWait4 env core) := by
  unfold batchLetSysWait4
  refine .bind built_waitedPid fun r => ?_
  cases r with
  | none => exact .pure _
  | some aPid =>
    exact .ite (.pure _) <| .bind (.step (.process h aPid)) fun _ =>
      .bind (.step (.waitEnd h aPid _)) fun _ => .pure _

theorem built_executed (name : Text) (l : Option Arg) :
    BuiltModel env core fds tree (executed core name l) :=
  .bind (.step (.executable name)) fun _ => .bind (.step (.commandLine l)) fun _ =>
    .bind (.step (.isExecuted name)) fun _ => .pure _

theorem built_execveCommandLine : BuiltModel env core fds tree (execveCommandLine core) := by
  unfold execveCommandLine
  cases core.tracer with
  | ltrace => exact .pure _
  | strace => exact .map _ (built_parsedArg 1)

theorem built_batchLetSysExecve : BuiltModel env core fds tree (batchLetSysExecve env core) :=
  .bind built_retText fun _ => .ite (.pure _) <| .bind (built_parsedArg 0) fun a =>
    .bind (built_accessedFile a) fun name => .bind built_execveCommandLine (built_executed name)

theorem built_batchLetLibLibcStartMain :
    BuiltModel env core fds tree (batchLetLibLibcStartMain env core) :=
  .bind (built_parsedArg 0) fun a => .bind (built_argItem a 0) fun b =>
    .bind (built_accessedFile b) fun name => built_executed name _

/-! ## Sockets, pipes and variables -/

theorem built_batchLetSysPoll : BuiltModel env core fds tree (batchLetSysPoll env core) := by
  unfold batchLetSysPoll
  refine .bind (built_parsedArg 0) fun a => ?_
  split
  · exact .bind (built_ofExcept _) fun _ => .bind (.ofOption _ _) fun s =>
      .bind (built_sTraceStreamToFile s) fun _ => .pure _
  · exact .pure _

theorem built_arrFdNameToArrString (a : Arg) :
    BuiltModel env core fds tree (arrFdNameToArrString env core a) :=
  .ite (.pure _) <| .bind (.forEach (fun b => .bind (built_argText b) fun _ =>
    .forEach (fun s => built_sTraceStreamToFile s) _) _) fun _ => .pure _

theorem built_batchLetSysSelect : BuiltModel env core fds tree (batchLetSysSelect env core) := by
  unfold batchLetSysSelect
  cases core.tracer with
  | strace =>
    exact .bind (built_parsedArg 1) fun a => .bind (built_arrFdNameToArrString a) fun _ =>
      .bind (built_parsedArg 2) fun b => .bind (built_arrFdNameToArrString b) fun _ =>
      .bind (built_parsedArg 3) fun c => .bind (built_arrFdNameToArrString c) fun _ => .pure _
  | ltrace => exact .pure _

theorem built_batchLetSysSocket : BuiltModel env core fds tree (batchLetSysSocket env core) :=
  .bind built_retText fun s => .bind (built_sTraceStreamToFile s) fun _ => .pure _

theorem built_addressModel : BuiltModel env core fds tree (addressModel env core) := by
  refine .bind (built_streamName 0) fun objPath => .bind ?_ fun _ => .pure _
  unfold keepAddress
  cases core.tracer with
  | strace => exact .bind (built_parsedArg 1) fun a => .step (.socketAddress objPath a)
  | ltrace => exact .pure ()

theorem built_pipeModel : BuiltModel env core fds tree (pipeModel env core) :=
  .bind (built_parsedArg 0) fun a => .bind (built_argItem a 0) fun b =>
    .bind (built_streamToFile b) fun _ => .bind (built_argItem a 1) fun c =>
    .bind (built_streamToFile c) fun _ => .pure _

theorem built_batchLetLibGetenv : BuiltModel env core fds tree (batchLetLibGetenv core) :=
  .bind (built_parsedArg 0) fun a => .bind (built_argPath a) fun _ =>
    .bind (.step (.variable _ _)) fun _ => .pure _

/-! ## The table -/

/-- The calls that store the path of a descriptor. -/
def openingCalls : List Text := ["open@SYS".toList, "openat@SYS".toList]

/-- The calls that change the tree of the processes. -/
def treeCalls : List Text := ["clone@SYS".toList, "vfork@SYS".toList, "wait4@SYS".toList]

/-- What the model of a function can do. -/
def BuiltEntry (name : Text) (m : CallModel) : Prop :=
  ∀ (env : Env) (core : BatchLetCore) (fds tree : Prop),
    (core.tracer = .ltrace → name ∈ openingCalls → fds) → (name ∈ treeCalls → tree) →
    BuiltModel env core fds tree (m.build env core)

theorem builtEntry_plain {name : Text} {build : Env → BatchLetCore → ModelM}
    (h : ∀ env core fds tree, BuiltModel env core fds tree (build env core)) :
    BuiltEntry name (.plain build) := fun env core fds tree _ _ => h env core fds tree

/-- The models of the system calls. -/
theorem built_sysModels : ∀ p ∈ sysModels, BuiltEntry (p.1 ++ sysSuffix) p.2 := by
  have hstream : ∀ name : Text, BuiltEntry name (.plain fun env core => streamModel env core 0) :=
    fun name => builtEntry_plain fun _ _ _ _ => built_streamModel 0
  simp only [sysModels, List.forall_mem_cons]
  exact ⟨fun _ _ _ _ hf _ => built_batchLetSysOpen fun ht => hf ht (by decide),
    fun _ _ _ _ hf _ => built_batchLetSysOpenat fun ht => hf ht (by decide),
    builtEntry_plain fun _ _ _ _ => built_batchLetSysClose,
    builtEntry_plain fun _ _ _ _ => built_batchLetSysRead,
    builtEntry_plain fun _ _ _ _ => built_batchLetSysPreadx,
    builtEntry_plain fun _ _ _ _ => built_batchLetSysPread64x,
    builtEntry_plain fun _ _ _ _ => built_batchLetSysWrite,
    builtEntry_plain fun _ _ _ _ => built_batchLetSysWritev,
    builtEntry_plain fun _ _ _ _ => built_validStreamModel,
    builtEntry_plain fun _ _ _ _ => built_batchLetSysStat,
    builtEntry_plain fun _ _ _ _ => built_pathModel,
    builtEntry_plain fun _ _ _ _ => built_pathModel,
    builtEntry_plain fun _ _ _ _ => built_batchLetSysDup,
    hstream _,
    builtEntry_plain fun _ _ _ _ => built_batchLetSysMmap,
    builtEntry_plain fun _ _ _ _ => .pure _,
    builtEntry_plain fun _ _ _ _ => built_batchLetSysMmap2,
    builtEntry_plain fun _ _ _ _ => built_validStreamModel,
    hstream _,
    hstream _,
    hstream _,
    builtEntry_plain fun _ _ _ _ => built_batchLetSysFchdir,
    hstream _,
    hstream _,
    hstream _,
    hstream _,
    hstream _,
    hstream _,
    fun _ _ _ _ _ ht => built_batchLetSysClone (ht (by decide)),
    fun _ _ _ _ _ ht => built_batchLetSysVfork (ht (by decide)),
    fun _ _ _ _ _ _ => built_batchLetSysExecve,
    fun _ _ _ _ _ ht => built_batchLetSysWait4 (ht (by decide)),
    builtEntry_plain fun _ _ _ _ => .pure _,
    builtEntry_plain fun _ _ _ _ => built_batchLetSysNewfstatat,
    hstream _,
    hstream _,
    hstream _,
    hstream _,
    hstream _,
    hstream _,
    hstream _,
    hstream _,
    builtEntry_plain fun _ _ _ _ => built_batchLetSysPoll,
    builtEntry_plain fun _ _ _ _ => built_batchLetSysSelect,
    builtEntry_plain fun _ _ _ _ => .pure _,
    builtEntry_plain fun _ _ _ _ => built_batchLetSysSocket,
    builtEntry_plain fun _ _ _ _ => built_addressModel,
    builtEntry_plain fun _ _ _ _ => built_addressModel,
    hstream _,
    builtEntry_plain fun _ _ _ _ => built_pipeModel,
    builtEntry_plain fun _ _ _ _ => built_pipeModel,
    hstream _,
    fun _ h => absurd h List.not_mem_nil⟩

/-- The models of the library calls. -/
theorem built_libModels : ∀ p ∈ libModels, BuiltEntry p.1 p.2 := by
  simp only [libModels, List.forall_mem_cons]
  exact ⟨fun _ _ _ _ _ _ => built_batchLetLibLibcStartMain,
    builtEntry_plain fun _ _ _ _ => built_batchLetLibGetenv, fun _ h => absurd h List.not_mem_nil⟩

/-- **Every model of the table** is put together from the steps. -/
theorem built_batchModels {funcNam : Text} {m : CallModel} (h : batchModels funcNam = .model m) :
    BuiltEntry funcNam m := by
  rcases mem_of_batchModels h with ⟨name, rfl, hm⟩ | hm
  · exact built_sysModels _ hm
  · exact built_libModels _ hm

end

end Survol.Dockit
