import Survol.Dockit.FactorySteps
import Survol.Dockit.ModelSteps
import Survol.Dockit.PrintedCalls

/-!
# Descriptors with `ltrace`

`ltrace` does not print the path of a descriptor. The path of each open file is
kept in `G_mapFilDesToPathName`, by the text of the descriptor, for all the
processes together. A transfer is therefore attributed to the last file that was
opened with its descriptor, by any process.

## Main definitions

* `Opens`, `Uses` — the descriptor that a call returns, or takes.
* `DescriptorRun` — the runs of such calls, with their batches.
* `Attributed`, `Undisturbed` — what is wanted, and when it holds.
-/

open PyText

namespace Survol.Dockit

/-! ## The directories of the processes -/

/-- The directory where a process starts. -/
def homeDir (env : Env) (pid : ℤ) : Text :=
  ((env.liveProcess pid).bind (·.cwd)).getD env.currentDirectory

/-- Every process is where it has started. -/
def AtHome (env : Env) (w : Objects) : Prop :=
  ∀ pid o, w.processes.get? pid = some o → o.currentDirectory = homeDir env pid

/-- The descriptors are the same, and the processes stay where they are. -/
def SameDescriptors (env : Env) (w w' : Objects) : Prop :=
  w'.mapFilDesToPathName = w.mapFilDesToPathName ∧ (AtHome env w → AtHome env w')

instance (env : Env) : Std.Refl (SameDescriptors env) := ⟨fun _ => ⟨rfl, id⟩⟩

instance (env : Env) : IsTrans Objects (SameDescriptors env) :=
  ⟨fun _ _ _ h h' => ⟨h'.1.trans h.1, h'.2 ∘ h.2⟩⟩

/-- The file of a path, as a process that has not moved sees it. -/
def seenFile (env : Env) (pid : ℤ) (pathName : Text) : Except PyExn Text :=
  toAbsPath (.path (if pid = 0 then [] else homeDir env pid)) pathName

section
variable {env : Env} {pid : ℤ} {w w' : Objects}

theorem AtHome.init : AtHome env .init := fun _ _ h => nomatch h

theorem AtHome.updateProcess (h : AtHome env w) {f : CIMProcess → CIMProcess}
    (hf : ∀ o, (f o).currentDirectory = o.currentDirectory) :
    AtHome env (w.updateProcess pid f) := by
  intro p o ho
  rw [Objects.updateProcess, Dict.get?_update] at ho
  split at ho
  · rename_i hp
    obtain ⟨o', ho', rfl⟩ := Option.map_eq_some_iff.mp ho
    rw [hf]
    exact h p o' ho'
  · exact h p o ho

theorem AtHome.toDataFile (h : AtHome env w) (name : Text) : AtHome env (w.toDataFile name) := by
  rw [Objects.toDataFile]
  split
  · exact h
  · exact h

theorem AtHome.newProcess (h : AtHome env w) : AtHome env (w.newProcess env pid) := by
  have hexe : ∀ exe, AtHome env (w.toExecutable exe) := by
    intro exe
    cases exe with
    | none => exact h
    | some name => exact h.toDataFile name
  have hadopt : ∀ v : Objects, AtHome env v → ∀ p, AtHome env (v.adopt p pid) := by
    intro v hv p
    cases p with
    | none => exact hv
    | some first => exact hv.updateProcess fun _ => rfl
  intro p o ho
  rw [Objects.newProcess, Dict.get?_set] at ho
  split at ho
  · rename_i hp
    cases ho
    rw [← hp]
    rfl
  · exact hadopt _ (hexe _) _ p o ho

theorem AtHome.toProcess (h : AtHome env w) (pid : ℤ) : AtHome env (w.toProcess env pid) := by
  rw [Objects.toProcess]
  split
  · exact h
  · exact h.newProcess

theorem mapFilDes_toDataFile (w : Objects) (name : Text) :
    (w.toDataFile name).mapFilDesToPathName = w.mapFilDesToPathName := by
  rw [Objects.toDataFile]
  split <;> rfl

theorem mapFilDes_toProcess (w : Objects) :
    (w.toProcess env pid).mapFilDesToPathName = w.mapFilDesToPathName := by
  rw [Objects.toProcess]
  split
  · rfl
  · have hadopt : ∀ v : Objects, ∀ p,
        (v.adopt p pid).mapFilDesToPathName = v.mapFilDesToPathName := by
      intro v p
      cases p <;> rfl
    have hexe : ∀ exe, (w.toExecutable exe).mapFilDesToPathName = w.mapFilDesToPathName := by
      intro exe
      cases exe with
      | none => rfl
      | some name => exact mapFilDes_toDataFile w name
    exact (hadopt _ _).trans (hexe _)

theorem sameDescriptors_toProcess : SameDescriptors env w (w.toProcess env pid) :=
  ⟨mapFilDes_toProcess w, fun h => h.toProcess pid⟩

theorem sameDescriptors_admitted (core : BatchLetCore) :
    SameDescriptors env w (w.admitted env core) := by
  refine ⟨mapFilDes_toProcess w, fun h => ?_⟩
  refine (h.toProcess core.pid).updateProcess fun o => ?_
  split <;> rfl

/-- The directory of a process that has just been looked up. -/
theorem processCurrentDir_toProcess (h : AtHome env w) :
    (w.toProcess env pid).processCurrentDir pid = homeDir env pid := by
  have hsome : ∃ o, (w.toProcess env pid).processes.get? pid = some o := by
    rw [Objects.toProcess]
    split
    · rename_i o ho
      exact ⟨o, ho⟩
    · exact ⟨_, by rw [Objects.newProcess, Dict.get?_set, if_pos rfl]⟩
  obtain ⟨o, ho⟩ := hsome
  rw [Objects.processCurrentDir, ho]
  exact h.toProcess pid pid o ho

theorem ignoresAccesses_sameDescriptors : IgnoresAccesses (SameDescriptors env) :=
  fun _ _ _ => ⟨rfl, id⟩

theorem sameDescriptors_withFileAccess {name : Text} {use : ℕ → ObjM Unit}
    (huse : ∀ i, Py.Built (AccessStep env i) (use i)) {x : Except PyExn Unit}
    (h : (withFileAccess pid name use).run w = (x, w')) : SameDescriptors env w w' := by
  have hkeeps : Py.Keeps (SameDescriptors env) (withFileAccess pid name use) := by
    refine keeps_withFileAccess ignoresAccesses_sameDescriptors (fun v => ⟨rfl, fun hv => ?_⟩) huse
    have hproc : AtHome env (v.updateProcess pid fun o =>
        { o with processFileAccesses := o.processFileAccesses ++ [v.fileAccesses.length] }) :=
      hv.updateProcess fun _ => rfl
    exact hproc
  have hrun := hkeeps w
  rwa [h] at hrun

/-- The file of a path is the one that the process sees. -/
theorem run_toObjectPathCIMDataFile {pathName f : Text} (hw : AtHome env w)
    (h : (toObjectPathCIMDataFile env pathName pid).run w = (.ok f, w')) :
    seenFile env pid pathName = .ok f ∧ SameDescriptors env w w' := by
  have hfile : ∀ dirPath (v : Objects), (do
      let pathName ← ofExcept (toAbsPath (.path dirPath) pathName)
      createObjectPathCIMDataFile pathName
      return pathName : ObjM Text).run v = (.ok f, w') →
      toAbsPath (.path dirPath) pathName = .ok f ∧ SameDescriptors env v w' := by
    intro dirPath v hrun
    cases habs : toAbsPath (.path dirPath) pathName with
    | error e =>
      rw [habs] at hrun
      cases hrun
    | ok g =>
      rw [habs] at hrun
      cases hrun
      exact ⟨rfl, mapFilDes_toDataFile v f, fun hv => hv.toDataFile f⟩
  rw [toObjectPathCIMDataFile] at h
  rw [seenFile]
  split at h
  · rename_i hzero
    rw [if_pos hzero]
    exact hfile [] w h
  · rename_i hzero
    rw [if_neg hzero]
    rw [toObjectPathCIMProcess, Py.run_modify_bind, getProcessCurrentDir, Py.run_bind,
      Py.run_get_bind, Py.run_pure, processCurrentDir_toProcess hw] at h
    obtain ⟨habs, hsame⟩ := hfile _ _ h
    exact ⟨habs, IsTrans.trans _ _ _ sameDescriptors_toProcess hsame⟩

end

/-! ## The calls -/

/-- The calls that use a descriptor. -/
def usingCalls : List Text := ["read@SYS".toList, "write@SYS".toList, "close@SYS".toList]

/-- A whole line of `ltrace` for a call that opens or uses a descriptor. -/
structure DescriptorCall (core : BatchLetCore) : Prop where
  tracer : core.tracer = .ltrace
  status : core.status = .plain
  funcNam : core.funcNam ∈ openingCalls ∨ core.funcNam ∈ usingCalls

/-- What such a call does, and its significant arguments. -/
inductive DescriptorStep (env : Env) (core : BatchLetCore) (w w' : Objects) : List SigArg → Prop
  | opened {ret pathName f : Text} (hf : core.funcNam ∈ openingCalls)
      (hret : core.retValue = some ret) (hfile : seenFile env core.pid pathName = .ok f)
      (hmap : w'.mapFilDesToPathName = w.mapFilDesToPathName.set ret pathName) :
      DescriptorStep env core w w' [.file f]
  | used {s f : Text} (hf : core.funcNam ∈ usingCalls)
      (harg : core.parsedArgs[0]? = some (.str s))
      (hfile : seenFile env core.pid (streamPathname w.mapFilDesToPathName s) = .ok f)
      (hmap : w'.mapFilDesToPathName = w.mapFilDesToPathName) :
      DescriptorStep env core w w' [.file f]

section
variable {env : Env} {core : BatchLetCore} {w w' : Objects} {args : List SigArg}

theorem run_ofOption_eq_ok {α : Type} {e : PyExn} {o : Option α} {a : α}
    (h : (Py.ofOption e o : ObjM α).run w = (.ok a, w')) : o = some a ∧ w' = w := by
  cases o with
  | none => cases h
  | some b =>
    cases h
    exact ⟨rfl, rfl⟩

theorem run_argPath_eq_ok {a : Arg} {s : Text} (h : (argPath a).run w = (.ok s, w')) :
    a = .str s ∧ w' = w := by
  cases a with
  | list l => cases h
  | str t =>
    cases h
    exact ⟨rfl, rfl⟩

theorem run_argText_eq_ok {a : Arg} {s : Text} (h : (argText a).run w = (.ok s, w')) :
    a = .str s ∧ w' = w := by
  cases a with
  | list l => cases h
  | str t =>
    cases h
    exact ⟨rfl, rfl⟩

theorem run_streamToFile {a : Arg} {f : Text} (hw : AtHome env w)
    (h : (streamToFile env core a).run w = (.ok f, w')) :
    ∃ s, a = .str s ∧
      seenFile env core.pid (streamPathname w.mapFilDesToPathName s) = .ok f ∧
      SameDescriptors env w w' := by
  rw [streamToFile, Py.run_bind_eq_ok] at h
  obtain ⟨s, w₁, harg, h⟩ := h
  obtain ⟨rfl, rfl⟩ := run_argText_eq_ok harg
  rw [sTraceStreamToFile, sTraceStreamToPathname, Py.run_bind, Py.run_get_bind, Py.run_pure] at h
  obtain ⟨hfile, hsame⟩ := run_toObjectPathCIMDataFile hw h
  exact ⟨s, rfl, hfile, hsame⟩

theorem run_streamName {f : Text} (hw : AtHome env w)
    (h : (streamName env core 0).run w = (.ok f, w')) :
    ∃ s, core.parsedArgs[0]? = some (.str s) ∧
      seenFile env core.pid (streamPathname w.mapFilDesToPathName s) = .ok f ∧
      SameDescriptors env w w' := by
  rw [streamName, Py.run_bind_eq_ok] at h
  obtain ⟨a, w₁, hparsed, h⟩ := h
  obtain ⟨harg, rfl⟩ := run_ofOption_eq_ok hparsed
  obtain ⟨s, rfl, hfile, hsame⟩ := run_streamToFile hw h
  exact ⟨s, harg, hfile, hsame⟩

/-- The file of the first descriptor is used. -/
theorem descriptorStep_of_streamName {use : ℕ → ObjM Unit} (hw : AtHome env w)
    (hf : core.funcNam ∈ usingCalls) (huse : ∀ i, Py.Built (AccessStep env i) (use i))
    (h : (do
      let filObj ← streamName env core 0
      withFileAccess core.pid filObj use
      return some [.file filObj] : ModelM).run w = (.ok (some args), w')) :
    DescriptorStep env core w w' args ∧ AtHome env w' := by
  rw [Py.run_bind_eq_ok] at h
  obtain ⟨f, w₁, hstream, h⟩ := h
  obtain ⟨s, harg, hfile, hsame⟩ := run_streamName hw hstream
  rw [Py.run_bind_eq_ok] at h
  obtain ⟨_, w₂, haccess, h⟩ := h
  cases h
  have hsame' := sameDescriptors_withFileAccess huse haccess
  exact ⟨.used hf harg hfile (hsame'.1.trans hsame.1), hsame'.2 (hsame.2 hw)⟩

/-- The file that is opened is stored for the descriptor. -/
theorem descriptorStep_of_opening {ret pathName f : Text} (hf : core.funcNam ∈ openingCalls)
    (hret : core.retValue = some ret) {v v' : Objects} (hv : AtHome env v)
    (hmap : v.mapFilDesToPathName = w.mapFilDesToPathName)
    (hfile : (toObjectPathCIMDataFile env pathName core.pid).run
      { v with mapFilDesToPathName := v.mapFilDesToPathName.set ret pathName } = (.ok f, v'))
    (h : (opening env core f).run v' = (.ok (some args), w')) :
    DescriptorStep env core w w' args ∧ AtHome env w' := by
  have hset : AtHome env
      { v with mapFilDesToPathName := v.mapFilDesToPathName.set ret pathName } := hv
  obtain ⟨hseen, hsame⟩ := run_toObjectPathCIMDataFile hset hfile
  rw [opening, Py.run_bind_eq_ok] at h
  obtain ⟨_, w₁, haccess, h⟩ := h
  cases h
  have hsame' := sameDescriptors_withFileAccess (fun _ => .step (.opens _)) haccess
  refine ⟨.opened hf hret hseen ((hsame'.1.trans hsame.1).trans ?_), hsame'.2 (hsame.2 hset)⟩
  exact congrArg (fun d : Dict Text Text => d.set ret pathName) hmap

theorem descriptorStep_of_open (hcall : DescriptorCall core) (hf : core.funcNam ∈ openingCalls)
    (hw : AtHome env w) (h : (batchLetSysOpen env core).run w = (.ok (some args), w')) :
    DescriptorStep env core w w' args ∧ AtHome env w' := by
  rw [batchLetSysOpen, Py.run_bind_eq_ok] at h
  obtain ⟨ret, w₁, htext, h⟩ := h
  obtain ⟨hret, rfl⟩ := run_ofOption_eq_ok htext
  split at h
  · cases h
  · simp only [openedFile, hcall.tracer, Py.run_bind_eq_ok] at h
    obtain ⟨f, w₂, ⟨a, w₃, harg, pathName, w₄, hpath, u, w₅, hset, hfile⟩, hopen⟩ := h
    obtain ⟨-, rfl⟩ := run_ofOption_eq_ok harg
    obtain ⟨rfl, rfl⟩ := run_argPath_eq_ok hpath
    cases hset
    exact descriptorStep_of_opening hf hret hw rfl hfile hopen

theorem run_openatDirPath {dirNam : Arg} {d : DirPath} (hw : AtHome env w)
    (h : (openatDirPath env core dirNam).run w = (.ok d, w')) : SameDescriptors env w w' := by
  rw [openatDirPath] at h
  split at h
  · cases h
    exact ⟨rfl, id⟩
  · rw [Py.run_map] at h
    cases hrun : (streamToFile env core dirNam).run w with
    | mk x v =>
      rw [hrun] at h
      cases x with
      | error e => cases h
      | ok f =>
        cases h
        obtain ⟨-, -, -, hsame⟩ := run_streamToFile hw hrun
        exact hsame

theorem descriptorStep_of_openat (hcall : DescriptorCall core)
    (hf : core.funcNam ∈ openingCalls) (hw : AtHome env w)
    (h : (batchLetSysOpenat env core).run w = (.ok (some args), w')) :
    DescriptorStep env core w w' args ∧ AtHome env w' := by
  rw [batchLetSysOpenat, Py.run_bind_eq_ok] at h
  obtain ⟨ret, w₁, htext, h⟩ := h
  obtain ⟨hret, rfl⟩ := run_ofOption_eq_ok htext
  simp only [openatFile, hcall.tracer, Py.run_bind_eq_ok] at h
  obtain ⟨f, w₂, ⟨a, w₃, harg, dirPath, w₄, hdir, b, w₅, hb, filNam, w₆, hpath, pathName, w₇,
    habs, u, w₈, hset, hfile⟩, hopen⟩ := h
  obtain ⟨-, rfl⟩ := run_ofOption_eq_ok harg
  have hsame := run_openatDirPath hw hdir
  obtain ⟨-, rfl⟩ := run_ofOption_eq_ok hb
  obtain ⟨-, rfl⟩ := run_argPath_eq_ok hpath
  cases hset
  have hw₇ : w₇ = w₆ := by
    cases hx : toAbsPath dirPath filNam with
    | error e =>
      rw [hx] at habs
      cases habs
    | ok p =>
      rw [hx] at habs
      cases habs
      rfl
  subst hw₇
  exact descriptorStep_of_opening hf hret (hsame.2 hw) hsame.1 hfile hopen

/-- **What a call on a descriptor does**, when it gives a batch. -/
theorem descriptorStep_of_build {m : CallModel} (hm : batchModels core.funcNam = .model m)
    (hcall : DescriptorCall core) (hw : AtHome env w)
    (h : (m.build env core).run w = (.ok (some args), w')) :
    DescriptorStep env core w w' args ∧ AtHome env w' := by
  have hbuild : ∀ name, core.funcNam = name → ∀ m', batchModels name = .model m' → m = m' := by
    rintro _ rfl m' hm'
    rw [hm] at hm'
    cases hm'
    rfl
  rcases hcall.funcNam with hf | hf
  · have hopens := hf
    rw [openingCalls, List.mem_cons, List.mem_singleton] at hf
    rcases hf with hf | hf
    · rw [hbuild _ hf _ rfl] at h
      exact descriptorStep_of_open hcall hopens hw h
    · rw [hbuild _ hf _ rfl] at h
      exact descriptorStep_of_openat hcall hopens hw h
  · have huses := hf
    rw [usingCalls, List.mem_cons, List.mem_cons, List.mem_singleton] at hf
    rcases hf with hf | hf | hf
    · rw [hbuild _ hf _ rfl] at h
      change (batchLetSysRead env core).run w = _ at h
      rw [batchLetSysRead] at h
      split at h
      · cases h
      · split at h
        · cases h
        · refine descriptorStep_of_streamName hw huses (fun _ => ?_) h
          exact .bind (built_parsedArg 1) fun _ => .step (.reads _ _)
    · rw [hbuild _ hf _ rfl] at h
      refine descriptorStep_of_streamName hw huses (fun _ => ?_) h
      split
      · exact .raise _
      · split
        · exact .pure _
        · exact .bind (.map _ (built_parsedArg 1)) fun _ => .step (.writes _ _)
    · rw [hbuild _ hf _ rfl] at h
      change (batchLetSysClose env core).run w = _ at h
      rw [batchLetSysClose, Py.run_bind_eq_ok] at h
      obtain ⟨ret, w₁, hret, h⟩ := h
      obtain ⟨-, rfl⟩ := run_ofOption_eq_ok hret
      split at h
      · cases h
      · exact descriptorStep_of_streamName hw huses (fun _ => .step (.closes _)) h

end

/-! ## Runs -/

/-- The call returns the descriptor `n`. -/
def Opens (core : BatchLetCore) (n : ℕ) : Prop :=
  core.funcNam ∈ openingCalls ∧ core.retValue = some (decimal n)

/-- The call takes the descriptor `n`. -/
def Uses (core : BatchLetCore) (n : ℕ) : Prop :=
  core.funcNam ∈ usingCalls ∧ core.parsedArgs[0]? = some (.str (decimal n))

/-- The calls on descriptors, each with its batch, that lead to a world. -/
inductive DescriptorRun (env : Env) : List (BatchLetCore × Batch) → World → Prop
  | init : DescriptorRun env [] World.init
  | step {l : List (BatchLetCore × Batch)} {core : BatchLetCore} {b : Batch} {w w' : World}
      (h : DescriptorRun env l w) (hcall : DescriptorCall core)
      (hrun : (processCore env core).run w = (.ok (some b), w')) :
      DescriptorRun env (l ++ [(core, b)]) w'

/-- **Each use of a descriptor names the file** of the last call of the same process
that returned the descriptor. -/
def Attributed (l : List (BatchLetCore × Batch)) : Prop :=
  ∀ l₁ o bo l₂ c b l₃ n, l = l₁ ++ (o, bo) :: (l₂ ++ (c, b) :: l₃) → Opens o n → Uses c n →
    c.pid = o.pid → (∀ x ∈ l₂, x.1.pid = c.pid → ¬ Opens x.1 n) →
    b.significantArgs = bo.significantArgs

/-- No other process gets a descriptor between its last opening by a process and a use
of it by this process. -/
def Undisturbed (l : List (BatchLetCore × Batch)) : Prop :=
  ∀ l₁ o bo l₂ c b l₃ n, l = l₁ ++ (o, bo) :: (l₂ ++ (c, b) :: l₃) → Opens o n → Uses c n →
    c.pid = o.pid → (∀ x ∈ l₂, x.1.pid = c.pid → ¬ Opens x.1 n) →
    ∀ x ∈ l₂, x.1.pid ≠ c.pid → ¬ Opens x.1 n

/-- What is known of a world that is reached: the path of a descriptor is the one of
its last opening, by any process. -/
structure LastOpened (env : Env) (l : List (BatchLetCore × Batch)) (w : Objects) : Prop where
  home : AtHome env w
  path : ∀ l₁ o bo l₂ n, l = l₁ ++ (o, bo) :: l₂ → Opens o n → (∀ x ∈ l₂, ¬ Opens x.1 n) →
    ∃ pathName f, w.mapFilDesToPathName.get? (decimal n) = some pathName ∧
      seenFile env o.pid pathName = .ok f ∧ bo.significantArgs = [.file f]

theorem streamPathname_decimal {d : Dict Text Text} {n : ℕ} {pathName : Text}
    (h : d.get? (decimal n) = some pathName) : streamPathname d (decimal n) = pathName := by
  have hlt : findIdx ['<'] (decimal n) = none := by
    rw [findIdx_eq_none_iff (List.cons_ne_nil _ _), List.singleton_infix_iff]
    intro hmem
    exact absurd (isDigit_of_mem_decimal hmem) (by decide)
  simp only [streamPathname, hlt, h]

section
variable {env : Env} {core : BatchLetCore} {w w' : World} {b : Batch}
  {l : List (BatchLetCore × Batch)}

theorem ne_of_opening_of_using {f : Text} (h : f ∈ openingCalls) : f ∉ usingCalls := by
  rw [openingCalls, List.mem_cons, List.mem_singleton] at h
  rcases h with rfl | rfl <;> decide

/-- A whole call runs its model. -/
theorem descriptorStep_of_processCore (hcall : DescriptorCall core) (hw : AtHome env w.objects)
    (h : (processCore env core).run w = (.ok (some b), w')) :
    DescriptorStep env core (w.objects.admitted env core) w'.objects b.significantArgs ∧
      AtHome env w'.objects := by
  have hadmitted : AtHome env (w.objects.admitted env core) :=
    (sameDescriptors_admitted core).2 hw
  have hmodel : ∃ m, batchModels core.funcNam = .model m := by
    rcases hcall.funcNam with hf | hf
    · rw [openingCalls, List.mem_cons, List.mem_singleton] at hf
      rcases hf with hf | hf <;> exact hf ▸ ⟨_, rfl⟩
    · rw [usingCalls, List.mem_cons, List.mem_cons, List.mem_singleton] at hf
      rcases hf with hf | hf | hf <;> exact hf ▸ ⟨_, rfl⟩
  obtain ⟨m, hm⟩ := hmodel
  generalize hr : some b = r at h
  have hstep := factoryStep_of_processCore h
  cases hstep with
  | unknown hm' _ _ => cases hm.symm.trans hm'
  | ignored hm' _ => cases hm.symm.trans hm'
  | pushed _ hs _ _ => cases hcall.status.symm.trans hs
  | lone _ hs _ _ _ => cases hcall.status.symm.trans hs
  | @built m' c args hm' hs hc hbuild =>
    cases hm.symm.trans hm'
    cases args with
    | none => cases hr
    | some args =>
      cases hr
      rcases hs with ⟨rfl, -⟩ | ⟨hs, -⟩
      · exact descriptorStep_of_build hm hcall hadmitted hbuild
      · cases hcall.status.symm.trans hs

/-- The invariant holds after one more call. -/
theorem LastOpened.step (h : LastOpened env l w.objects) (hcall : DescriptorCall core)
    (hrun : (processCore env core).run w = (.ok (some b), w')) :
    LastOpened env (l ++ [(core, b)]) w'.objects := by
  obtain ⟨hstep, hhome⟩ := descriptorStep_of_processCore hcall h.home hrun
  have hmap : (w.objects.admitted env core).mapFilDesToPathName =
      w.objects.mapFilDesToPathName := (sameDescriptors_admitted core).1
  refine ⟨hhome, ?_⟩
  intro l₁ o bo l₂ n heq hopens hlast
  rcases List.eq_nil_or_concat l₂ with rfl | ⟨l₂', x, rfl⟩
  · obtain ⟨-, hlast⟩ := List.append_inj' heq rfl
    cases hlast
    generalize hargs : b.significantArgs = args at hstep
    cases hstep with
    | @opened ret pathName f hf hret hfile hset =>
      cases hopens.2.symm.trans hret
      exact ⟨pathName, f, by rw [hset, Dict.get?_set, if_pos rfl], hfile, rfl⟩
    | used hf _ _ _ => exact absurd hf (ne_of_opening_of_using hopens.1)
  · rw [List.concat_eq_append, ← List.cons_append, ← List.append_assoc] at heq
    obtain ⟨hl, hx⟩ := List.append_inj' heq rfl
    cases hx
    obtain ⟨pathName, f, hget, hfile, hargs⟩ := h.path l₁ o bo l₂' n hl hopens fun y hy =>
      hlast y (by rw [List.concat_eq_append]; exact List.mem_append_left _ hy)
    have hnot : ¬ Opens core n := hlast (core, b) (by simp)
    refine ⟨pathName, f, ?_, hfile, hargs⟩
    generalize b.significantArgs = args at hstep
    cases hstep with
    | @opened ret path' f' hf hret hfile' hset =>
      have hne : ret ≠ decimal n := by
        rintro rfl
        exact hnot ⟨hf, hret⟩
      rw [hset, Dict.get?_set, if_neg hne, hmap]
      exact hget
    | used hf _ _ hsame => rw [hsame, hmap, hget]

theorem LastOpened.of_run (h : DescriptorRun env l w) : LastOpened env l w.objects := by
  induction h with
  | init => exact ⟨.init, fun l₁ o bo l₂ n heq => by cases l₁ <;> cases heq⟩
  | step _ hcall hrun ih => exact ih.step hcall hrun

/-- A use of a descriptor names the file of its last opening by any process, when it
is the same process. -/
theorem args_of_lastOpened {o : BatchLetCore} {bo : Batch} {l₁ l₂ : List (BatchLetCore × Batch)}
    {n : ℕ} (h : LastOpened env (l₁ ++ (o, bo) :: l₂) w.objects) (hcall : DescriptorCall core)
    (hrun : (processCore env core).run w = (.ok (some b), w')) (hopens : Opens o n)
    (huses : Uses core n) (hpid : core.pid = o.pid) (hlast : ∀ x ∈ l₂, ¬ Opens x.1 n) :
    b.significantArgs = bo.significantArgs := by
  obtain ⟨pathName, f, hget, hfile, hargs⟩ := h.path l₁ o bo l₂ n rfl hopens hlast
  obtain ⟨hstep, -⟩ := descriptorStep_of_processCore hcall h.home hrun
  have hmap : (w.objects.admitted env core).mapFilDesToPathName =
      w.objects.mapFilDesToPathName := (sameDescriptors_admitted core).1
  rw [hargs]
  generalize b.significantArgs = args at hstep
  cases hstep with
  | opened hf _ _ _ => exact absurd huses.1 (ne_of_opening_of_using hf)
  | used _ harg hfile' _ =>
    cases huses.2.symm.trans harg
    rw [hmap, streamPathname_decimal hget, hpid, hfile] at hfile'
    cases hfile'
    rfl

end

/-- **Descriptors are attributed to the last opening by the same process**, in every
run where no other process gets the descriptor in between. -/
theorem attributed_of_undisturbed {env : Env} {l : List (BatchLetCore × Batch)} {w : World}
    (h : DescriptorRun env l w) (hundisturbed : Undisturbed l) : Attributed l := by
  induction h with
  | init =>
    intro l₁ o bo l₂ c b l₃ n heq
    cases l₁ <;> cases heq
  | @step l core b' w w' h hcall hrun ih =>
    intro l₁ o bo l₂ c b l₃ n heq hopens huses hpid hlast
    rcases List.eq_nil_or_concat l₃ with rfl | ⟨l₃', x, rfl⟩
    · have hnone := hundisturbed l₁ o bo l₂ c b [] n heq hopens huses hpid hlast
      rw [← List.cons_append, ← List.append_assoc] at heq
      obtain ⟨hl, hx⟩ := List.append_inj' heq rfl
      cases hx
      subst hl
      refine args_of_lastOpened (.of_run h) hcall hrun hopens huses hpid ?_
      intro x hx
      by_cases hxpid : x.1.pid = core.pid
      · exact hlast x hx hxpid
      · exact hnone x hx hxpid
    · have hl : l = l₁ ++ (o, bo) :: (l₂ ++ (c, b) :: l₃') := by
        have hsnoc : l ++ [(core, b')] = l₁ ++ (o, bo) :: (l₂ ++ (c, b) :: l₃') ++ [x] := by
          rw [heq]
          simp
        exact (List.append_inj' hsnoc rfl).1
      refine ih ?_ l₁ o bo l₂ c b l₃' n hl hopens huses hpid hlast
      intro k₁ o' bo' k₂ c' d k₃ m heq'
      exact hundisturbed k₁ o' bo' k₂ c' d (k₃ ++ [(core, b')]) m (by rw [heq']; simp)

/-! ## Two processes -/

/-- The batches of some calls, when each gives one. -/
def descriptorBatches (env : Env) (w : World) : List BatchLetCore → Option (List (BatchLetCore × Batch))
  | [] => some []
  | core :: l =>
    match (processCore env core).run w with
    | (.ok (some b), w') => (descriptorBatches env w' l).map ((core, b) :: ·)
    | _ => none

theorem DescriptorRun.append {env : Env} {k l : List (BatchLetCore × Batch)} {w : World}
    {cores : List BatchLetCore} (h : DescriptorRun env k w)
    (hcalls : ∀ core ∈ cores, DescriptorCall core)
    (hbatches : descriptorBatches env w cores = some l) :
    ∃ w', DescriptorRun env (k ++ l) w' := by
  induction cores generalizing k l w with
  | nil =>
    cases hbatches
    exact ⟨w, by rwa [List.append_nil]⟩
  | cons core cores ih =>
    rw [descriptorBatches] at hbatches
    split at hbatches
    · rename_i b w' hrun
      obtain ⟨l', hl', rfl⟩ := Option.map_eq_some_iff.mp hbatches
      have hstep := h.step (hcalls core List.mem_cons_self) hrun
      have := ih hstep (fun c hc => hcalls c (List.mem_cons_of_mem core hc)) hl'
      rwa [List.append_assoc] at this
    · cases hbatches

/-- A whole line of `ltrace`. -/
def ltraceCall (pid : ℤ) (funcNam : Text) (parsedArgs : List Arg) (retValue : Text) :
    BatchLetCore where
  tracer := .ltrace
  pid := pid
  funcNam := funcNam
  status := .plain
  timeStart := "10:00:00.000000".toList
  timeEnd := "10:00:00.000000".toList
  execTim := []
  parsedArgs := parsedArgs
  retValue := some retValue
  unfinishedBatch := none
  resumedBatch := none

/-- The process 10 opens a file, then 11 opens one and gets the descriptor `n`, then
10 reads its own descriptor 3. -/
def twoOpenings (n : Text) : List BatchLetCore :=
  [ltraceCall 10 "open@SYS".toList [.str "/a".toList, .str ['0']] ['3'],
    ltraceCall 11 "open@SYS".toList [.str "/b".toList, .str ['0']] n,
    ltraceCall 10 "read@SYS".toList [.str ['3'], .str "0x1".toList, .str ['5']] ['5']]

theorem twoOpenings_calls (n : Text) : ∀ core ∈ twoOpenings n, DescriptorCall core := by
  intro core hcore
  simp only [twoOpenings, List.mem_cons, List.not_mem_nil, or_false] at hcore
  rcases hcore with rfl | rfl | rfl
  · exact ⟨rfl, rfl, .inl List.mem_cons_self⟩
  · exact ⟨rfl, rfl, .inl List.mem_cons_self⟩
  · exact ⟨rfl, rfl, .inr List.mem_cons_self⟩

/-- A batch of one file. -/
def fileBatch (pid : ℤ) (rank : ℕ) (name : Text) : Batch :=
  ⟨⟨pid, rank⟩, 1, origStyle, [.file name], false⟩

/-- Processes that never get the same number do not disturb each other. -/
theorem undisturbed_of_apart {l : List (BatchLetCore × Batch)}
    (h : ∀ x ∈ l, ∀ y ∈ l, ∀ n, Opens x.1 n → Opens y.1 n → x.1.pid = y.1.pid) :
    Undisturbed l := by
  intro l₁ o bo l₂ c b l₃ n heq hopens _ hpid _ x hx hne hx'
  refine hne ((h x ?_ (o, bo) ?_ n hx' hopens).trans hpid.symm)
  · rw [heq]
    simp [hx]
  · rw [heq]
    simp

/-- The batches of the two openings and the read, which is attributed to `name`. -/
def twoOpeningsRun (n name : Text) : List (BatchLetCore × Batch) :=
  (twoOpenings n).zip [fileBatch 10 0 "/a".toList, fileBatch 11 0 "/b".toList, fileBatch 10 1 name]

/-- The read of a process is attributed to a file that only another process has opened. -/
theorem twoOpenings_not_attributed :
    ∃ w, DescriptorRun (.replayed 10 "/".toList) (twoOpeningsRun ['3'] "/b".toList) w ∧
      ¬ Attributed (twoOpeningsRun ['3'] "/b".toList) := by
  have hinit : DescriptorRun (.replayed 10 "/".toList) [] .init := .init
  obtain ⟨w, h⟩ := hinit.append (l := twoOpeningsRun ['3'] "/b".toList)
    (twoOpenings_calls ['3']) (by decide +kernel)
  refine ⟨w, h, fun hattr => ?_⟩
  have hsplit : twoOpeningsRun ['3'] "/b".toList =
      [] ++ ((twoOpenings ['3'])[0], fileBatch 10 0 "/a".toList) ::
        ([((twoOpenings ['3'])[1], fileBatch 11 0 "/b".toList)] ++
          ((twoOpenings ['3'])[2], fileBatch 10 1 "/b".toList) :: []) := rfl
  have hopens : Opens (twoOpenings ['3'])[0] 3 := ⟨List.mem_cons_self, rfl⟩
  have huses : Uses (twoOpenings ['3'])[2] 3 := ⟨List.mem_cons_self, rfl⟩
  have hargs := hattr _ _ _ _ _ _ _ 3 hsplit hopens huses rfl ?_
  · exact absurd hargs (by decide)
  · intro x hx hpid
    rw [List.mem_singleton.mp hx] at hpid
    exact absurd hpid (by decide)

/-- Two processes with different descriptors. -/
theorem attributed_of_undisturbed_two :
    ∃ w, DescriptorRun (.replayed 10 "/".toList) (twoOpeningsRun ['4'] "/a".toList) w ∧
      Undisturbed (twoOpeningsRun ['4'] "/a".toList) ∧
      Attributed (twoOpeningsRun ['4'] "/a".toList) := by
  have hinit : DescriptorRun (.replayed 10 "/".toList) [] .init := .init
  obtain ⟨w, h⟩ := hinit.append (l := twoOpeningsRun ['4'] "/a".toList)
    (twoOpenings_calls ['4']) (by decide +kernel)
  have hundisturbed : Undisturbed (twoOpeningsRun ['4'] "/a".toList) := by
    refine undisturbed_of_apart fun x hx y hy n hx' hy' => ?_
    have hret := hx'.2.trans hy'.2.symm
    have hopening : x.1.funcNam ∈ openingCalls ∧ y.1.funcNam ∈ openingCalls := ⟨hx'.1, hy'.1⟩
    clear hx' hy'
    revert x y
    decide
  exact ⟨w, h, hundisturbed, attributed_of_undisturbed h hundisturbed⟩

end Survol.Dockit
