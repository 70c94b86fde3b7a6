import Survol.Dockit.Descriptors

/-!
# What a process sees

With `strace` the table of the descriptors never changes, and the significant
arguments of a call only depend on the directory of its process. A process that is
not there yet would start in `homeDir`. The other processes and the caches of the
accesses do not matter, even where they are read.

## Main definitions

* `dirOf` — the directory of a process, which may not be there yet.
* `KeepsDirs` — what is kept for the processes of a set.
* `SameSight` — two states of the objects that a process sees in the same way.
-/

open PyText

namespace Survol.Dockit

/-- The directory of a process, or the one where it will start. -/
def dirOf (env : Env) (w : Objects) (pid : ℤ) : Text :=
  ((w.processes.get? pid).map (·.currentDirectory)).getD (homeDir env pid)

/-- The descriptors and the directories of some processes are the same. No process
disappears. -/
structure KeepsDirs (env : Env) (S : ℤ → Prop) (w w' : Objects) : Prop where
  descriptors : w'.mapFilDesToPathName = w.mapFilDesToPathName
  dir : ∀ pid, S pid → dirOf env w' pid = dirOf env w pid
  present : ∀ pid, (w.processes.get? pid).isSome → (w'.processes.get? pid).isSome

instance (env : Env) (S : ℤ → Prop) : Std.Refl (KeepsDirs env S) :=
  ⟨fun _ => ⟨rfl, fun _ _ => rfl, fun _ => id⟩⟩

instance (env : Env) (S : ℤ → Prop) : IsTrans Objects (KeepsDirs env S) :=
  ⟨fun _ _ _ h h' => ⟨h'.descriptors.trans h.descriptors,
    fun pid hpid => (h'.dir pid hpid).trans (h.dir pid hpid),
    fun pid => h'.present pid ∘ h.present pid⟩⟩

section
variable {env : Env} {S : ℤ → Prop} {pid : ℤ} {w w' : Objects}

theorem KeepsDirs.trans {w'' : Objects} (h : KeepsDirs env S w w')
    (h' : KeepsDirs env S w' w'') : KeepsDirs env S w w'' := IsTrans.trans _ _ _ h h'

/-! ## What the steps keep -/

/-- A change of a process that leaves its directory. -/
theorem keepsDirs_updateProcess (w : Objects) (pid : ℤ) {f : CIMProcess → CIMProcess}
    (hf : ∀ o, (f o).currentDirectory = o.currentDirectory) :
    KeepsDirs env S w (w.updateProcess pid f) := by
  refine ⟨rfl, fun q _ => ?_, fun q hq => ?_⟩
  · rw [dirOf, dirOf, Objects.updateProcess, Dict.get?_update]
    split
    · cases w.processes.get? q with
      | none => rfl
      | some o => exact hf o
    · rfl
  · rw [Objects.updateProcess, Dict.get?_update]
    split
    · rwa [Option.isSome_map]
    · exact hq

theorem keepsDirs_toDataFile (w : Objects) (name : Text) :
    KeepsDirs env S w (w.toDataFile name) := by
  rw [Objects.toDataFile]
  split <;> exact ⟨rfl, fun _ _ => rfl, fun _ => id⟩

theorem keepsDirs_newProcess (h : w.processes.get? pid = none) :
    KeepsDirs env S w (w.newProcess env pid) := by
  have hexe : ∀ exe, KeepsDirs env S w (w.toExecutable exe) := by
    intro exe
    cases exe with
    | none => exact ⟨rfl, fun _ _ => rfl, fun _ => id⟩
    | some name => exact keepsDirs_toDataFile w name
  have hadopt : ∀ (v : Objects) p, KeepsDirs env S v (v.adopt p pid) := by
    intro v p
    cases p with
    | none => exact ⟨rfl, fun _ _ => rfl, fun _ => id⟩
    | some first => exact keepsDirs_updateProcess v first fun _ => rfl
  have hkeep := (hexe ((env.liveProcess pid).bind (·.exe))).trans (hadopt _ w.onlyProcess)
  refine ⟨hkeep.descriptors, fun q hq => ?_, fun q hq => ?_⟩
  · rw [dirOf, Objects.newProcess, Dict.get?_set]
    split
    · rename_i heq
      subst heq
      rw [dirOf, h]
      rfl
    · exact hkeep.dir q hq
  · rw [Objects.newProcess, Dict.get?_set]
    split
    · rfl
    · exact hkeep.present q hq

theorem keepsDirs_toProcess (w : Objects) (pid : ℤ) :
    KeepsDirs env S w (w.toProcess env pid) := by
  rw [Objects.toProcess]
  split
  · exact ⟨rfl, fun _ _ => rfl, fun _ => id⟩
  · rename_i h
    exact keepsDirs_newProcess h

theorem isSome_toProcess (w : Objects) (pid : ℤ) :
    ((w.toProcess env pid).processes.get? pid).isSome := by
  rw [Objects.toProcess]
  split
  · rename_i o ho
    rw [ho]
    rfl
  · rw [Objects.newProcess, Dict.get?_set, if_pos rfl]
    rfl

theorem keepsDirs_admitted (w : Objects) (core : BatchLetCore) :
    KeepsDirs env S w (w.admitted env core) := by
  refine (keepsDirs_toProcess w core.pid).trans (keepsDirs_updateProcess _ _ fun o => ?_)
  split <;> rfl

theorem ignoresAccesses_keepsDirs : IgnoresAccesses (KeepsDirs env S) :=
  fun _ _ _ => ⟨rfl, fun _ _ => rfl, fun _ => id⟩

theorem keepsDirs_withFileAccess {name : Text} {use : ℕ → ObjM Unit}
    (huse : ∀ i, Py.Built (AccessStep env i) (use i)) :
    Py.Keeps (KeepsDirs env S) (withFileAccess pid name use) := by
  refine keeps_withFileAccess ignoresAccesses_keepsDirs (fun v => ?_) huse
  have hproc := @keepsDirs_updateProcess env S v pid
    (fun o => { o with processFileAccesses := o.processFileAccesses ++ [v.fileAccesses.length] })
    fun _ => rfl
  exact ⟨rfl, hproc.dir, hproc.present⟩

theorem keepsDirs_toObjectPathCIMDataFile (pathName : Text) :
    Py.Keeps (KeepsDirs env S) (toObjectPathCIMDataFile env pathName pid) := by
  have hfile : ∀ dirPath, Py.Keeps (KeepsDirs env S) (do
      let pathName ← ofExcept (toAbsPath (.path dirPath) pathName)
      createObjectPathCIMDataFile pathName
      return pathName) := by
    intro dirPath
    refine .bind ?_ fun name => .bind (.modify fun v => keepsDirs_toDataFile v name) fun _ => .pure _
    cases toAbsPath (.path dirPath) pathName with
    | error e => exact .raise e
    | ok name => exact .pure name
  rw [toObjectPathCIMDataFile]
  split
  · exact hfile []
  · exact .bind (.modify fun v => keepsDirs_toProcess v pid) fun _ =>
      .bind (Py.Keeps.bind (R := KeepsDirs env S) .get fun _ => .pure _) hfile

theorem keepsDirs_setCommandLine (l : Option Arg) :
    Py.Keeps (KeepsDirs env S) (setCommandLine pid l) := by
  cases l with
  | none => exact .pure _
  | some l => exact .ite (.pure _) (.modify fun v => keepsDirs_updateProcess v pid fun _ => rfl)

theorem keepsDirs_setParentProcess (parent : ℤ) :
    Py.Keeps (KeepsDirs env S) (setParentProcess pid parent) :=
  .ite (.raise _) <| .modify fun v => by
    have hchild := @keepsDirs_updateProcess env S v pid
      (fun o => { o with parentProcess := some parent }) fun _ => rfl
    exact hchild.trans (keepsDirs_updateProcess _ parent fun _ => rfl)

theorem keepsDirs_addParentProcess (timeStamp : Text) (parent : ℤ) :
    Py.Keeps (KeepsDirs env S) (addParentProcess pid timeStamp parent) :=
  .bind (keepsDirs_setParentProcess parent) fun _ =>
    .modify fun v => keepsDirs_updateProcess v pid fun _ => rfl

theorem keepsDirs_waitProcessEnd (timeStamp : Text) (parent : ℤ) :
    Py.Keeps (KeepsDirs env S) (waitProcessEnd pid timeStamp parent) :=
  .bind (.modify fun v => keepsDirs_updateProcess v pid fun _ => rfl) fun _ =>
    Py.Keeps.bind (R := KeepsDirs env S) .get fun _ => .ite (.pure _) (keepsDirs_setParentProcess parent)

theorem keepsDirs_setProcessCurrentDir (h : ¬ S pid) (name : Text) :
    Py.Keeps (KeepsDirs env S) (setProcessCurrentDir pid name) := by
  refine .modify fun v => ⟨rfl, fun q hq => ?_, fun q hq => ?_⟩
  · rw [dirOf, dirOf, Objects.updateProcess, Dict.get?_update, if_neg]
    rintro rfl
    exact h hq
  · rw [Objects.updateProcess, Dict.get?_update]
    split
    · rwa [Option.isSome_map]
    · exact hq

/-- A change of the tables that are not about processes. -/
theorem keepsDirs_modify {f : Objects → Objects}
    (hmap : ∀ v, (f v).mapFilDesToPathName = v.mapFilDesToPathName)
    (hproc : ∀ v, (f v).processes = v.processes) :
    Py.Keeps (KeepsDirs env S) (.modify f : ObjM Unit) :=
  .modify fun v => ⟨hmap v, fun q _ => by rw [dirOf, dirOf, hproc], fun q hq => by rwa [hproc]⟩

/-- The steps of a process leave the directories of the others. -/
theorem keepsDirs_modelStep {β : Type} {m : ObjM β} {tree : Prop} (h : ¬ S pid)
    (hm : ModelStep env pid False tree β m) : Py.Keeps (KeepsDirs env S) m := by
  cases hm with
  | pathname s => exact Py.Keeps.bind (R := KeepsDirs env S) .get fun _ => .pure _
  | dataFile pathName => exact keepsDirs_toObjectPathCIMDataFile pathName
  | currentDir => exact Py.Keeps.bind (R := KeepsDirs env S) .get fun _ => .pure _
  | access name huse => exact keepsDirs_withFileAccess huse
  | chdir name => exact keepsDirs_setProcessCurrentDir h name
  | executable name => exact .modify fun v => keepsDirs_updateProcess v pid fun _ => rfl
  | commandLine l => exact keepsDirs_setCommandLine l
  | isExecuted name => exact keepsDirs_modify (fun _ => rfl) fun _ => rfl
  | socketAddress name a => exact keepsDirs_modify (fun _ => rfl) fun _ => rfl
  | «variable» n v => exact keepsDirs_modify (fun _ => rfl) fun _ => rfl
  | filDes h => exact h.elim
  | process _ p => exact .modify fun v => keepsDirs_toProcess v p
  | thread _ p => exact .modify fun v => keepsDirs_updateProcess v p fun _ => rfl
  | parent _ p timeStamp => exact keepsDirs_addParentProcess timeStamp pid
  | waitEnd _ p timeStamp => exact keepsDirs_waitProcessEnd timeStamp pid

end

/-! ## The same sight -/

/-- A process is there in two states, with the same directory and descriptors. -/
structure SameSight (env : Env) (pid : ℤ) (w₁ w₂ : Objects) : Prop where
  descriptors : w₁.mapFilDesToPathName = w₂.mapFilDesToPathName
  dir : dirOf env w₁ pid = dirOf env w₂ pid
  left : (w₁.processes.get? pid).isSome
  right : (w₂.processes.get? pid).isSome

/-- The directories of all processes are kept. -/
abbrev KeepsAllDirs (env : Env) : Objects → Objects → Prop := KeepsDirs env fun _ => True

section
variable {env : Env} {pid : ℤ} {w₁ w₂ w₁' w₂' : Objects}

theorem SameSight.symm (h : SameSight env pid w₁ w₂) : SameSight env pid w₂ w₁ :=
  ⟨h.descriptors.symm, h.dir.symm, h.right, h.left⟩

theorem SameSight.keeps (h : SameSight env pid w₁ w₂) (h₁ : KeepsAllDirs env w₁ w₁')
    (h₂ : KeepsAllDirs env w₂ w₂') : SameSight env pid w₁' w₂' where
  descriptors := h₁.descriptors.trans (h.descriptors.trans h₂.descriptors.symm)
  dir := (h₁.dir pid trivial).trans (h.dir.trans (h₂.dir pid trivial).symm)
  left := h₁.present pid h.left
  right := h₂.present pid h.right

theorem agree_of_keeps {m : ObjM Unit} (h : Py.Keeps (KeepsAllDirs env) m) :
    Py.Agree (SameSight env pid) m := by
  intro w₁ w₂ w₁' w₂' a₁ a₂ hw hrun₁ hrun₂
  have h₁ := h w₁
  have h₂ := h w₂
  rw [hrun₁] at h₁
  rw [hrun₂] at h₂
  exact ⟨rfl, hw.keeps h₁ h₂⟩

theorem blind_of_keeps {f : Objects → Objects} (h : ∀ w, KeepsAllDirs env w (f w)) :
    Py.Blind (SameSight env pid) (.modify f : ObjM Unit) :=
  .modify fun _ _ hw => hw.keeps (h _) (h _)

theorem processCurrentDir_eq {w : Objects} (h : (w.processes.get? pid).isSome) :
    w.processCurrentDir pid = dirOf env w pid := by
  obtain ⟨o, ho⟩ := Option.isSome_iff_exists.mp h
  rw [Objects.processCurrentDir, dirOf, ho]
  rfl

theorem blind_getProcessCurrentDir :
    Py.Blind (SameSight env pid) (getProcessCurrentDir pid) := by
  intro w₁ w₂ h
  refine ⟨congrArg Except.ok ?_, h⟩
  rw [@processCurrentDir_eq env pid w₁ h.left, processCurrentDir_eq h.right, h.dir]

theorem blind_sTraceStreamToPathname (s : Text) :
    Py.Blind (SameSight env pid) (sTraceStreamToPathname s) := by
  intro w₁ w₂ h
  refine ⟨congrArg Except.ok ?_, h⟩
  rw [h.descriptors]

theorem blind_toObjectPathCIMDataFile (pathName : Text) :
    Py.Blind (SameSight env pid) (toObjectPathCIMDataFile env pathName pid) := by
  have hfile : ∀ dirPath, Py.Blind (SameSight env pid) (do
      let pathName ← ofExcept (toAbsPath (.path dirPath) pathName)
      createObjectPathCIMDataFile pathName
      return pathName) := by
    intro dirPath
    refine .bind ?_ fun name => .bind (blind_of_keeps fun v => keepsDirs_toDataFile v name)
      fun _ => .pure _
    cases toAbsPath (.path dirPath) pathName with
    | error e => exact .raise e
    | ok name => exact .pure name
  rw [toObjectPathCIMDataFile]
  split
  · exact hfile []
  · exact .bind (blind_of_keeps fun v => keepsDirs_toProcess v pid) fun _ =>
      .bind blind_getProcessCurrentDir hfile

theorem blind_setProcessCurrentDir (name : Text) :
    Py.Blind (SameSight env pid) (setProcessCurrentDir pid name) := by
  have hmoved : ∀ w : Objects, (w.processes.get? pid).isSome →
      ∃ o, ((w.updateProcess pid fun o => { o with currentDirectory := name }).processes.get?
        pid) = some o ∧ o.currentDirectory = name := by
    intro w h
    obtain ⟨o, ho⟩ := Option.isSome_iff_exists.mp h
    exact ⟨_, by rw [Objects.updateProcess, Dict.get?_update, if_pos rfl, ho]; rfl, rfl⟩
  refine .modify fun w₁ w₂ h => ?_
  obtain ⟨o₁, ho₁, hdir₁⟩ := hmoved w₁ h.left
  obtain ⟨o₂, ho₂, hdir₂⟩ := hmoved w₂ h.right
  refine ⟨h.descriptors, ?_, by rw [ho₁]; rfl, by rw [ho₂]; rfl⟩
  rw [dirOf, dirOf, ho₁, ho₂]
  exact hdir₁.trans hdir₂.symm

/-- **The steps of a process only depend on what it sees.** -/
theorem agree_modelStep {β : Type} {m : ObjM β} {tree : Prop}
    (hm : ModelStep env pid False tree β m) : Py.Agree (SameSight env pid) m := by
  cases hm with
  | pathname s => exact (blind_sTraceStreamToPathname s).agree
  | dataFile pathName => exact (blind_toObjectPathCIMDataFile pathName).agree
  | currentDir => exact blind_getProcessCurrentDir.agree
  | access name huse => exact agree_of_keeps (keepsDirs_withFileAccess huse)
  | chdir name => exact (blind_setProcessCurrentDir name).agree
  | executable name =>
    exact agree_of_keeps (m := setExecutable pid name)
      (.modify fun v => keepsDirs_updateProcess v pid fun _ => rfl)
  | commandLine l => exact agree_of_keeps (keepsDirs_setCommandLine l)
  | isExecuted name =>
    exact agree_of_keeps (m := setIsExecuted name) (keepsDirs_modify (fun _ => rfl) fun _ => rfl)
  | socketAddress name a =>
    exact agree_of_keeps (m := setSocketAddress name a)
      (keepsDirs_modify (fun _ => rfl) fun _ => rfl)
  | «variable» n v =>
    exact agree_of_keeps (m := setEnvironmentVariable n v)
      (keepsDirs_modify (fun _ => rfl) fun _ => rfl)
  | filDes h => exact h.elim
  | process _ p => exact agree_of_keeps (.modify fun v => keepsDirs_toProcess v p)
  | thread _ p =>
    exact agree_of_keeps (m := setThread p)
      (.modify fun v => keepsDirs_updateProcess v p fun _ => rfl)
  | parent _ p timeStamp => exact agree_of_keeps (keepsDirs_addParentProcess timeStamp pid)
  | waitEnd _ p timeStamp => exact agree_of_keeps (keepsDirs_waitProcessEnd timeStamp pid)

end

/-! ## The models -/

section
variable {env : Env} {core : BatchLetCore} {m : CallModel}

/-- A model changes the directory of its own process only. -/
theorem keepsDirs_build (hm : batchModels core.funcNam = .model m) (ht : core.tracer = .strace)
    {S : ℤ → Prop} (h : ¬ S core.pid) : Py.Keeps (KeepsDirs env S) (m.build env core) :=
  Py.Keeps.of_built (fun _ _ => keepsDirs_modelStep h)
    (built_batchModels hm env core False True (fun hl => by rw [ht] at hl; cases hl)
      fun _ => trivial)

/-- A model only depends on what its process sees. -/
theorem agree_build (hm : batchModels core.funcNam = .model m) (ht : core.tracer = .strace) :
    Py.Agree (SameSight env core.pid) (m.build env core) :=
  Py.Agree.of_built (fun _ _ => agree_modelStep)
    (built_batchModels hm env core False True (fun hl => by rw [ht] at hl; cases hl)
      fun _ => trivial)

theorem blind_executed (name : Text) (l : Option Arg) :
    Py.Blind (SameSight env core.pid) (executed core name l) := by
  refine .bind (blind_of_keeps fun v => keepsDirs_updateProcess v _ fun _ => rfl) fun _ =>
    .bind ?_ fun _ => .bind (.modify fun _ _ h => ⟨h.descriptors, h.dir, h.left, h.right⟩)
      fun _ => .pure _
  cases l with
  | none => exact .pure _
  | some l =>
    rw [setCommandLine]
    split
    · exact .pure _
    · exact blind_of_keeps fun v => keepsDirs_updateProcess v _ fun _ => rfl

theorem blind_batchLetLibLibcStartMain :
    Py.Blind (SameSight env core.pid) (batchLetLibLibcStartMain env core) := by
  have hitem : ∀ a, Py.Blind (SameSight env core.pid) (argItem a 0) := by
    intro a
    cases a with
    | str s => exact .ofOption _ _
    | list l => exact .ofOption _ _
  have hpath : ∀ a, Py.Blind (SameSight env core.pid) (argPath a) := by
    intro a
    cases a with
    | str s => exact .pure s
    | list l => exact .raise _
  exact .bind (.ofOption _ _) fun a => .bind (hitem a) fun b =>
    .bind (.bind (hpath b) blind_toObjectPathCIMDataFile) fun name => blind_executed name _

/-- A model that accepts an unfinished call ends in the same way, also when it raises. -/
theorem blind_build (hm : batchModels core.funcNam = .model m) (hok : m.unfinishedIsOk = true) :
    Py.Blind (SameSight env core.pid) (m.build env core) := by
  rw [eq_of_unfinishedIsOk hm hok]
  exact blind_batchLetLibLibcStartMain

theorem keepsDirs_batchLetSysVfork :
    Py.Keeps (KeepsAllDirs env) (batchLetSysVfork env core) := by
  have hret : Py.Keeps (KeepsAllDirs env) (convertBatchCoreRetValue core) := by
    have hint : ∀ f, Py.Keeps (KeepsAllDirs env) (retInt core f) := by
      intro f
      rw [retInt]
      cases core.retValue with
      | none => exact .raise _
      | some s => exact .ofOption _ _
    rw [convertBatchCoreRetValue]
    cases core.tracer with
    | ltrace => exact hint _
    | strace => exact hint _
  exact .bind hret fun p => .bind (.modify fun v => keepsDirs_toProcess v p) fun _ =>
    .bind (.pure _) fun _ => .bind (keepsDirs_addParentProcess core.timeStart core.pid)
      fun _ => .pure _

/-- A model that accepts a resumed call alone keeps the directories. -/
theorem keepsAllDirs_build (hm : batchModels core.funcNam = .model m)
    (hok : m.resumedWithoutUnfinishedIsOk = true) :
    Py.Keeps (KeepsAllDirs env) (m.build env core) := by
  rw [eq_of_resumedWithoutUnfinishedIsOk hm hok]
  exact keepsDirs_batchLetSysVfork

end

end Survol.Dockit
