import Survol.Dockit.ModelSteps

/-!
# The links between processes

A process knows its parent and its subprocesses, and when it was created and
terminated. Only `clone`, `vfork`, `wait4` and the appearance of a new process change
these links and dates.

## Main definitions

* `Objects.parentOf`, `Objects.subsOf` — the links.
* `Objects.links`, `Objects.dates` — the links and the dates of all the processes.
* `SameTree` — two states with the same processes, links and dates.
* `sameTree_of_build` — the other models keep them.
-/

open PyText

namespace Survol.Dockit

/-- The parent and the subprocesses of each process. -/
abbrev Links := Dict ℤ (Option ℤ × List ℤ)

namespace Objects

/-- `m_parentProcess` of a process. -/
def parentOf (w : Objects) (pid : ℤ) : Option ℤ := (w.processes.get? pid).bind (·.parentProcess)

/-- `m_subProcesses` of a process. -/
def subsOf (w : Objects) (pid : ℤ) : List ℤ :=
  ((w.processes.get? pid).map (·.subProcesses)).getD []

/-- The links of all the processes. -/
def links (w : Objects) : Links :=
  w.processes.mapVals fun o => (o.parentProcess, o.subProcesses)

variable (w : Objects)

theorem keys_links : w.links.keys = w.processes.keys := Dict.keys_mapVals _ _

theorem parentOf_eq (pid : ℤ) : w.parentOf pid = (w.links.get? pid).bind Prod.fst := by
  rw [parentOf, links, Dict.get?_mapVals]
  cases w.processes.get? pid <;> rfl

theorem subsOf_eq (pid : ℤ) : w.subsOf pid = ((w.links.get? pid).map Prod.snd).getD [] := by
  rw [subsOf, links, Dict.get?_mapVals]
  cases w.processes.get? pid <;> rfl

theorem isSome_get?_iff (pid : ℤ) : (w.processes.get? pid).isSome ↔ pid ∈ w.processes.keys :=
  Dict.get?_isSome_iff _ _

theorem toProcess_of_mem {env : Env} {pid : ℤ} (h : pid ∈ w.processes.keys) :
    w.toProcess env pid = w := by
  rw [← isSome_get?_iff, Option.isSome_iff_exists] at h
  obtain ⟨o, ho⟩ := h
  simp [toProcess, ho]

end Objects

/-- The dates of each process: of its creation, and of its termination. -/
abbrev Dates := Dict ℤ (Option Text × Option Text)

/-- The dates of all the processes. -/
def Objects.dates (w : Objects) : Dates :=
  w.processes.mapVals fun o => (o.creationDate, o.terminationDate)

/-- The links and the dates of a process. -/
def CIMProcess.treePart (o : CIMProcess) : (Option ℤ × List ℤ) × Option Text × Option Text :=
  ((o.parentProcess, o.subProcesses), o.creationDate, o.terminationDate)

/-- The links and the dates of the processes are the same. -/
def SameTree (w w' : Objects) : Prop :=
  w'.processes.mapVals CIMProcess.treePart = w.processes.mapVals CIMProcess.treePart

instance : Std.Refl SameTree := ⟨fun _ => rfl⟩

instance : IsTrans Objects SameTree := ⟨fun _ _ _ h h' => h'.trans h⟩

/-- The links of the processes are the same. -/
def SameLinks (w w' : Objects) : Prop := w'.links = w.links

theorem SameTree.keys {w w' : Objects} (h : SameTree w w') :
    w'.processes.keys = w.processes.keys := by
  rw [← Dict.keys_mapVals CIMProcess.treePart, show w'.processes.mapVals _ = _ from h,
    Dict.keys_mapVals]

theorem SameTree.sameLinks {w w' : Objects} (h : SameTree w w') : SameLinks w w' := by
  have heq := congrArg (Dict.mapVals Prod.fst) (show w'.processes.mapVals _ = _ from h)
  simp only [Dict.mapVals, List.map_map] at heq
  exact heq

theorem SameTree.dates {w w' : Objects} (h : SameTree w w') : w'.dates = w.dates := by
  have heq := congrArg (Dict.mapVals Prod.snd) (show w'.processes.mapVals _ = _ from h)
  simp only [Dict.mapVals, List.map_map] at heq
  exact heq

theorem sameTree_updateProcess (w : Objects) (pid : ℤ) {f : CIMProcess → CIMProcess}
    (h : ∀ o, (f o).treePart = o.treePart) : SameTree w (w.updateProcess pid f) :=
  Dict.mapVals_update h _ _

theorem sameLinks_updateProcess (w : Objects) (pid : ℤ) {f : CIMProcess → CIMProcess}
    (hp : ∀ o, (f o).parentProcess = o.parentProcess) (hs : ∀ o, (f o).subProcesses = o.subProcesses) :
    SameLinks w (w.updateProcess pid f) :=
  Dict.mapVals_update (fun o => Prod.ext (hp o) (hs o)) _ _

/-- The tree is the same, if the process `pid` is there. -/
def KeepsTree (pid : ℤ) (w w' : Objects) : Prop := pid ∈ w.processes.keys → SameTree w w'

instance (pid : ℤ) : Std.Refl (KeepsTree pid) := ⟨fun _ _ => rfl⟩

instance (pid : ℤ) : IsTrans Objects (KeepsTree pid) where
  trans w w' w'' h h' hpid := by
    have hw := h hpid
    exact (h' (hw.keys ▸ hpid)).trans hw

theorem SameTree.keepsTree {w w' : Objects} (h : SameTree w w') (pid : ℤ) :
    KeepsTree pid w w' := fun _ => h

section
variable {env : Env} {pid : ℤ} {fds : Prop}

theorem keepsTree_modify {f : Objects → Objects} (h : ∀ w, SameTree w (f w)) :
    Py.Keeps (KeepsTree pid) (.modify f : ObjM Unit) :=
  .modify fun w => (h w).keepsTree pid

theorem keepsTree_withFileAccess (name : Text) {use : ℕ → ObjM Unit}
    (h : ∀ i, Py.Built (AccessStep env i) (use i)) (p : ℤ) :
    Py.Keeps (KeepsTree pid) (withFileAccess p name use) := by
  refine keeps_withFileAccess (fun _ _ _ _ => rfl) (fun w => ?_) h
  have htree := sameTree_updateProcess w p (f := fun o =>
    { o with processFileAccesses := o.processFileAccesses ++ [w.fileAccesses.length] }) fun _ => rfl
  exact fun _ => htree

theorem keepsTree_toObjectPathCIMProcess :
    Py.Keeps (KeepsTree pid) (toObjectPathCIMProcess env pid) :=
  .modify fun w hpid => by rw [w.toProcess_of_mem hpid]; exact Std.Refl.refl w

theorem keepsTree_ofExcept {α : Type} (r : Except PyExn α) :
    Py.Keeps (KeepsTree pid) (ofExcept r) := by
  cases r with
  | error e => exact .raise e
  | ok a => exact .pure a

theorem keepsTree_toObjectPathCIMDataFile (name : Text) :
    Py.Keeps (KeepsTree pid) (toObjectPathCIMDataFile env name pid) := by
  have hfile : ∀ dirPath, Py.Keeps (KeepsTree pid) (do
      let pathName ← ofExcept (toAbsPath (.path dirPath) name)
      createObjectPathCIMDataFile pathName
      return pathName) := by
    intro dirPath
    refine .bind (keepsTree_ofExcept _) fun pathName => .bind (keepsTree_modify fun w => ?_)
      fun _ => .pure _
    rw [Objects.toDataFile]
    split <;> rfl
  rw [toObjectPathCIMDataFile]
  split
  · exact hfile []
  · exact .bind keepsTree_toObjectPathCIMProcess fun _ =>
      .bind (Py.Keeps.bind (R := KeepsTree pid) .get fun _ => .pure _) hfile

/-- The steps of the models that do not change the tree. -/
theorem keepsTree_modelStep {β : Type} {m : ObjM β} (h : ModelStep env pid fds False β m) :
    Py.Keeps (KeepsTree pid) m := by
  have hupdate : ∀ {f : CIMProcess → CIMProcess}, (∀ o, (f o).treePart = o.treePart) →
      Py.Keeps (KeepsTree pid) (.modify fun w : Objects => w.updateProcess pid f : ObjM Unit) :=
    fun hf => keepsTree_modify fun w => sameTree_updateProcess w pid hf
  cases h with
  | pathname s => exact Py.Keeps.bind (R := KeepsTree pid) .get fun _ => .pure _
  | dataFile name => exact keepsTree_toObjectPathCIMDataFile name
  | currentDir => exact Py.Keeps.bind (R := KeepsTree pid) .get fun _ => .pure _
  | access name huse => exact keepsTree_withFileAccess name huse pid
  | chdir name => exact hupdate fun _ => rfl
  | executable name => exact hupdate fun _ => rfl
  | commandLine l =>
    cases l with
    | none => exact .pure _
    | some l => exact .ite (.pure _) (hupdate fun _ => rfl)
  | isExecuted name => exact keepsTree_modify fun _ => rfl
  | socketAddress name a => exact keepsTree_modify fun _ => rfl
  | «variable» n v => exact keepsTree_modify fun _ => rfl
  | filDes _ n p => exact keepsTree_modify fun _ => rfl
  | process h => exact h.elim
  | thread h => exact h.elim
  | parent h => exact h.elim
  | waitEnd h => exact h.elim

end

/-- The models of the other calls keep the tree. -/
theorem sameTree_of_build {env : Env} {core : BatchLetCore} {m : CallModel}
    (hm : batchModels core.funcNam = .model m) (htree : core.funcNam ∉ treeCalls) {w : Objects}
    (hpid : core.pid ∈ w.processes.keys) : SameTree w ((m.build env core).run w).2 :=
  Py.Keeps.of_built (fun _ _ => keepsTree_modelStep)
    (built_batchModels hm env core True False (fun _ _ => trivial) fun h => htree h) w hpid

end Survol.Dockit
