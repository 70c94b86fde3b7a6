import Survol.Dockit.Descriptors
import Survol.Dockit.Interleaving

/-!
# The calls that create processes

A `clone` or a `vfork` tells the pid of a new process, and an `execve` the file that a process
runs. Their classes are never the same call as another one, so that nothing is lost when the calls
of a flow are counted together. A second half whose first half is missing is different: its batch
is the generic one, with the parsed arguments, and may be counted with the call before it.

## Main definitions

* `creationCalls`, `Creates` — the calls, and what their batches have to say.
* `OwnBatch` — a call has its own batch in a flow.
* `SendStep`, `FlowLoop.Generic` — what a line does to the flows, and the batches that are
  generic.
-/

open PyText

namespace Survol.Dockit

/-! ## What a creation says -/

/-- The calls that create a process, or execute a file. -/
def creationCalls : List Text := ["clone@SYS".toList, "vfork@SYS".toList, "execve@SYS".toList]

/-- The directory that a process sees the files from, in the objects `o`. -/
def directorySeen (env : Env) (o : Objects) (aPid : ℤ) : Text :=
  if aPid = 0 then [] else (o.toProcess env aPid).processCurrentDir aPid

/-- The significant arguments contain the created process, or the executed file. -/
def Creates (env : Env) (o : Objects) (core : BatchLetCore) (args : List SigArg) : Prop :=
  if core.funcNam = "execve@SYS".toList then
    ∃ path name, core.parsedArgs[0]? = some (.str path) ∧
      toAbsPath (.path (directorySeen env o core.pid)) path = .ok name ∧ .file name ∈ args
  else ∃ aPid, core.retValue.bind (createdPid core.tracer) = some aPid ∧ .process aPid ∈ args

/-- An `execve` of a file that does not exist is dropped. -/
def IsDropped (core : BatchLetCore) : Prop :=
  core.funcNam = "execve@SYS".toList ∧
    ∃ retValue, core.retValue = some retValue ∧ contains retValue "ENOENT".toList = true

/-- The flow has a batch for the core `id` only, which occurs once and says what was created. -/
def OwnBatch (env : Env) (o : Objects) (id : CoreId) (core : BatchLetCore) (flow : List Batch) :
    Prop :=
  ∃ b ∈ flow, b.core = id ∧ b.occurrences = 1 ∧ Creates env o core b.significantArgs

/-- Parsed arguments are texts and lists. -/
theorem isText_or_isList_of_mem_sigList {args : List Arg} {a : SigArg} (h : a ∈ Arg.sigList args) :
    (∃ s, a = .str s) ∨ ∃ l, a = .list l := by
  induction args with
  | nil => cases h
  | cons arg args ih =>
    rw [Arg.sigList, List.mem_cons] at h
    rcases h with rfl | h
    · cases arg with
      | str s => exact .inl ⟨s, by rw [Arg.sig]⟩
      | list l => exact .inr ⟨Arg.sigList l, by rw [Arg.sig]⟩
    · exact ih h

/-- The parsed arguments do not say what was created. -/
theorem not_creates_sigList (env : Env) (o : Objects) (core : BatchLetCore) (args : List Arg) :
    ¬ Creates env o core (Arg.sigList args) := by
  intro h
  rw [Creates] at h
  split at h
  · obtain ⟨_, _, -, -, hmem⟩ := h
    rcases isText_or_isList_of_mem_sigList hmem with ⟨_, h⟩ | ⟨_, h⟩ <;> cases h
  · obtain ⟨_, -, hmem⟩ := h
    rcases isText_or_isList_of_mem_sigList hmem with ⟨_, h⟩ | ⟨_, h⟩ <;> cases h

/-- The models of creations are never the same call. -/
theorem neverSame_of_creation {funcNam : Text} (h : funcNam ∈ creationCalls) {m : CallModel}
    (hm : batchModels funcNam = .model m) : m.neverSame = true := by
  simp only [creationCalls, List.mem_cons, List.not_mem_nil, or_false] at h
  rcases h with rfl | rfl | rfl <;> cases hm <;> rfl

/-- The creations have a model, which needs the result. -/
theorem batchModels_of_creation {funcNam : Text} (h : funcNam ∈ creationCalls) :
    ∃ m, batchModels funcNam = .model m ∧ m.unfinishedIsOk = false := by
  simp only [creationCalls, List.mem_cons, List.not_mem_nil, or_false] at h
  rcases h with rfl | rfl | rfl <;> exact ⟨_, rfl, rfl⟩

/-! ## What the models say -/

section
variable {env : Env} {core : BatchLetCore} {o o' : Objects} {args : Option (List SigArg)}

theorem run_newChild_eq_ok {aPid : ℤ} {isThread : Bool}
    (h : (newChild env core aPid isThread).run o = (.ok args, o')) :
    args = some [.process aPid] := by
  rw [run_newChild] at h
  split at h
  · cases h
  · cases h
    rfl

theorem run_retInt_eq_ok {f : Text → Option ℤ} {n : ℤ} (h : (retInt core f).run o = (.ok n, o')) :
    core.retValue.bind f = some n := by
  rw [retInt] at h
  cases hret : core.retValue with
  | none =>
    rw [hret] at h
    cases h
  | some s =>
    rw [hret] at h
    rw [Option.bind_some, (run_ofOption_eq_ok h).1]

theorem creates_of_clone (hname : core.funcNam ≠ "execve@SYS".toList)
    (h : (batchLetSysClone env core).run o = (.ok args, o')) :
    ∃ l, args = some l ∧ Creates env o core l := by
  rw [batchLetSysClone] at h
  simp only [Creates, if_neg hname]
  cases htracer : core.tracer with
  | ltrace =>
    rw [htracer] at h
    rw [Py.run_bind_eq_ok] at h
    obtain ⟨aPid, o₁, hret, h⟩ := h
    exact ⟨_, run_newChild_eq_ok h, aPid, run_retInt_eq_ok hret, List.mem_singleton_self _⟩
  | strace =>
    rw [htracer] at h
    rw [Py.run_bind_eq_ok] at h
    obtain ⟨aPid, o₁, hret, h⟩ := h
    rw [Py.run_bind_eq_ok] at h
    obtain ⟨_, o₂, -, h⟩ := h
    rw [Py.run_bind_eq_ok] at h
    obtain ⟨_, o₃, -, h⟩ := h
    exact ⟨_, run_newChild_eq_ok h, aPid, run_retInt_eq_ok hret, List.mem_singleton_self _⟩

theorem creates_of_vfork (hname : core.funcNam ≠ "execve@SYS".toList)
    (h : (batchLetSysVfork env core).run o = (.ok args, o')) :
    ∃ l, args = some l ∧ Creates env o core l := by
  rw [batchLetSysVfork, Py.run_bind_eq_ok] at h
  obtain ⟨aPid, o₁, hret, h⟩ := h
  refine ⟨_, run_newChild_eq_ok h, ?_⟩
  simp only [Creates, if_neg hname]
  rw [convertBatchCoreRetValue] at hret
  cases htracer : core.tracer with
  | ltrace =>
    rw [htracer] at hret
    exact ⟨aPid, run_retInt_eq_ok hret, List.mem_singleton_self _⟩
  | strace =>
    rw [htracer] at hret
    exact ⟨aPid, run_retInt_eq_ok hret, List.mem_singleton_self _⟩

/-- The file of a name, as a process sees it. -/
theorem run_toObjectPathCIMDataFile_eq_ok {pathName name : Text} {aPid : ℤ}
    (h : (toObjectPathCIMDataFile env pathName aPid).run o = (.ok name, o')) :
    toAbsPath (.path (directorySeen env o aPid)) pathName = .ok name := by
  have hfile : ∀ dirPath (v : Objects), (do
      let pathName ← ofExcept (toAbsPath (.path dirPath) pathName)
      createObjectPathCIMDataFile pathName
      return pathName : ObjM Text).run v = (.ok name, o') →
      toAbsPath (.path dirPath) pathName = .ok name := by
    intro dirPath v hrun
    cases habs : toAbsPath (.path dirPath) pathName with
    | error e =>
      rw [habs] at hrun
      cases hrun
    | ok _ =>
      rw [habs] at hrun
      cases hrun
      rfl
  rw [toObjectPathCIMDataFile] at h
  rw [directorySeen]
  split at h
  · rename_i hzero
    rw [if_pos hzero]
    exact hfile [] o h
  · rename_i hzero
    rw [if_neg hzero]
    rw [toObjectPathCIMProcess, Py.run_modify_bind, getProcessCurrentDir, Py.run_bind,
      Py.run_get_bind, Py.run_pure] at h
    exact hfile _ _ h

theorem creates_of_execve (hname : core.funcNam = "execve@SYS".toList) (hkept : ¬ IsDropped core)
    (h : (batchLetSysExecve env core).run o = (.ok args, o')) :
    ∃ l, args = some l ∧ Creates env o core l := by
  rw [batchLetSysExecve, Py.run_bind_eq_ok] at h
  obtain ⟨retValue, o₁, hret, h⟩ := h
  obtain ⟨hsome, rfl⟩ := run_ofOption_eq_ok hret
  split at h
  · rename_i hin
    exact absurd ⟨hname, retValue, hsome, hin⟩ hkept
  · rw [Py.run_bind_eq_ok] at h
    obtain ⟨arg, o₂, harg, h⟩ := h
    rw [Py.run_bind_eq_ok] at h
    obtain ⟨name, o₃, hfile, h⟩ := h
    rw [Py.run_bind_eq_ok] at h
    obtain ⟨commandLine, o₄, -, h⟩ := h
    simp only [executed, Py.run_bind_eq_ok] at h
    obtain ⟨_, _, -, _, _, -, _, _, -, h⟩ := h
    cases h
    refine ⟨_, rfl, ?_⟩
    simp only [Creates, if_pos hname]
    obtain ⟨hget, rfl⟩ := run_ofOption_eq_ok harg
    rw [accessedFile, Py.run_bind_eq_ok] at hfile
    obtain ⟨path, o₅, hpath, hfile⟩ := hfile
    obtain ⟨rfl, rfl⟩ := run_argPath_eq_ok hpath
    exact ⟨path, name, hget, run_toObjectPathCIMDataFile_eq_ok hfile, List.mem_cons_self⟩

/-- **What the model of a creation says.** -/
theorem creates_of_build {m : CallModel} (hname : core.funcNam ∈ creationCalls)
    (hm : batchModels core.funcNam = .model m) (hkept : ¬ IsDropped core)
    (h : (m.build env core).run o = (.ok args, o')) :
    ∃ l, args = some l ∧ Creates env o core l := by
  simp only [creationCalls, List.mem_cons, List.not_mem_nil, or_false] at hname
  rcases hname with hname | hname | hname <;> rw [hname] at hm <;> cases hm
  · exact creates_of_clone (by rw [hname]; decide) h
  · exact creates_of_vfork (by rw [hname]; decide) h
  · exact creates_of_execve hname hkept h

end

/-! ## What a line does to the flows -/

/-- The cores stay, with their functions. -/
def KeepsNames (u u' : UnfinishedBatches) : Prop :=
  ∀ id c, u.core? id = some c → ∃ c', u'.core? id = some c' ∧ c'.funcNam = c.funcNam

instance : Std.Refl KeepsNames := ⟨fun _ _ c hc => ⟨c, hc, rfl⟩⟩

instance : IsTrans UnfinishedBatches KeepsNames := by
  refine ⟨fun u u' u'' h h' id c hc => ?_⟩
  obtain ⟨c', hc', hname⟩ := h id c hc
  obtain ⟨c'', hc'', hname'⟩ := h' id c' hc'
  exact ⟨c'', hc'', hname'.trans hname⟩

theorem keepsNames_addCore (u : UnfinishedBatches) (core : BatchLetCore) :
    KeepsNames u (u.addCore core) :=
  fun _ c hc => ⟨c, u.core?_addCore_of_some core hc, rfl⟩

theorem keepsNames_of_factoryStep {env : Env} {id : CoreId} {core : BatchLetCore} {w w' : World}
    {r : Option Batch} (hstep : FactoryStep env id core w w' r) :
    KeepsNames w.store w'.store := by
  refine rel_of_factoryStep (fun u u' heq i c hc => ⟨c, ?_, rfl⟩) (fun i f hf u j c hc => ?_) hstep
  · rw [heq, hc]
  · change ∃ c', (u.updateCore i f).core? j = some c' ∧ _
    rw [UnfinishedBatches.core?_updateCore, hc]
    split
    · exact ⟨f c, rfl, (hf c).2⟩
    · exact ⟨c, rfl, rfl⟩

/-- What a line does: nothing when it is not a call, and otherwise its core, or that of an earlier
line when it cannot be parsed, is made into a batch, which is sent. -/
inductive SendStep (env : Env) (s s' : FlowLoop) : Prop
  | none (hworld : s'.loop.world = s.loop.world) (hflows : s'.mapFlows = s.mapFlows)
      (hcore : s'.loop.batchCore = none)
  | fresh (core : BatchLetCore) (r : Option Batch)
      (hstep : FactoryStep env (s.loop.world.store.nextId core.pid) core
        (s.loop.world.admitted env core) s'.loop.world r)
      (hflows : s'.mapFlows = sendBatch s'.loop.world.store s.mapFlows r)
      (hcore : s'.loop.batchCore = some (s.loop.world.store.nextId core.pid))
  | stale (id : CoreId) (core : BatchLetCore) (r : Option Batch)
      (hid : s.loop.batchCore = some id) (hc : s.loop.world.store.core? id = some core)
      (hstep : FactoryStep env id core s.loop.world s'.loop.world r)
      (hflows : s'.mapFlows = sendBatch s'.loop.world.store s.mapFlows r)
      (hcore : s'.loop.batchCore = some id)

section
variable {env : Env} {tracer : Tracer} {line : Text × ℕ} {s s' : FlowLoop}

theorem sendStep_of_core {core : BatchLetCore}
    (hparse : parseLine env.topProcessId tracer line.1 = .ok (some core))
    (h : (sendLine env tracer line).run s = (.ok (), s')) : ∃ r,
      FactoryStep env (s.loop.world.store.nextId core.pid) core (s.loop.world.admitted env core)
        s'.loop.world r ∧
      s'.mapFlows = sendBatch s'.loop.world.store s.mapFlows r ∧
      s'.loop.batchCore = some (s.loop.world.store.nextId core.pid) := by
  obtain ⟨l₁, r, l₂, hread, hnext, rfl⟩ := run_sendLine_eq h
  obtain rfl := run_readCore_of_core hparse hread
  rcases run_nextBatch_eq_ok hnext with ⟨hnone, -, -⟩ | ⟨id, c, w, hb, hc, hfac, rfl⟩
  · cases hnone
  · cases hb
    cases (s.loop.world.store.core?_addCore_nextId core).symm.trans hc
    exact ⟨r, factoryStep_of_run hc hfac, rfl, rfl⟩

theorem sendStep_of_run (h : (sendLine env tracer line).run s = (.ok (), s')) :
    SendStep env s s' := by
  cases hparse : parseLine env.topProcessId tracer line.1 with
  | ok o =>
    cases o with
    | some core =>
      obtain ⟨r, hstep, hflows, hcore⟩ := sendStep_of_core hparse h
      exact .fresh core r hstep hflows hcore
    | none =>
      obtain ⟨l₁, r, l₂, hread, hnext, rfl⟩ := run_sendLine_eq h
      obtain rfl := run_readCore_of_none hparse hread
      rw [run_nextBatch_none rfl] at hnext
      cases hnext
      exact .none rfl rfl rfl
  | error e =>
    obtain ⟨l₁, r, l₂, hread, hnext, rfl⟩ := run_sendLine_eq h
    obtain rfl := run_readCore_of_parseLine_error hparse hread
    rcases run_nextBatch_eq_ok hnext with ⟨hb, rfl, rfl⟩ | ⟨id, core, w, hb, hc, hfac, rfl⟩
    · exact .none rfl rfl hb
    · exact .stale id core r hb hc (factoryStep_of_run hc hfac) rfl hb

/-- A line that is a call, or that is processed like one, sends the batch of one core. -/
theorem SendStep.sent (h : SendStep env s s') :
    (s'.loop.world = s.loop.world ∧ s'.mapFlows = s.mapFlows) ∨ ∃ id core w r,
      KeepsNames s.loop.world.store w.store ∧ w.store.core? id = some core ∧
      FactoryStep env id core w s'.loop.world r ∧
      s'.mapFlows = sendBatch s'.loop.world.store s.mapFlows r := by
  cases h with
  | none hworld hflows _ => exact .inl ⟨hworld, hflows⟩
  | fresh core r hstep hflows _ =>
    exact .inr ⟨_, core, _, r, keepsNames_addCore _ core,
      s.loop.world.store.core?_addCore_nextId core, hstep, hflows⟩
  | stale id core r _ hc hstep hflows _ =>
    exact .inr ⟨id, core, _, r, Std.Refl.refl _, hc, hstep, hflows⟩

theorem SendStep.keepsNames (h : SendStep env s s') :
    KeepsNames s.loop.world.store s'.loop.world.store := by
  rcases h.sent with ⟨hworld, -⟩ | ⟨id, core, w, r, hkeeps, -, hstep, -⟩
  · rw [hworld]
    exact Std.Refl.refl _
  · exact IsTrans.trans _ _ _ hkeeps (keepsNames_of_factoryStep hstep)

end

/-! ## Adding to a flow -/

section
variable {u : UnfinishedBatches} {l : List Batch} {b b' : Batch}

/-- A batch of the flow after an addition is one that was there or the new one, but for its
number of occurrences. -/
theorem like_of_mem_addBatch (h : b' ∈ addBatch u l b) : ∃ c, (c = b ∨ c ∈ l) ∧
    b'.core = c.core ∧ b'.significantArgs = c.significantArgs ∧ b'.neverSame = c.neverSame := by
  rw [addBatch] at h
  split at h
  · exact ⟨b, .inl rfl, by simp [List.mem_singleton.mp h]⟩
  · rename_i lst hlst
    split at h
    · rw [List.mem_append, List.mem_singleton] at h
      rcases h with h | rfl
      · exact ⟨b', .inr (List.dropLast_subset _ h), rfl, rfl, rfl⟩
      · exact ⟨lst, .inr (List.mem_of_getLast? hlst), rfl, rfl, rfl⟩
    · rw [List.mem_append, List.mem_singleton] at h
      rcases h with h | rfl
      · exact ⟨b', .inr h, rfl, rfl, rfl⟩
      · exact ⟨b', .inl rfl, rfl, rfl, rfl⟩

/-- A batch that is never the same call stays as it is. -/
theorem mem_addBatch_of_neverSame (hb : b' ∈ l) (hnever : b'.neverSame = true) :
    b' ∈ addBatch u l b := by
  rw [addBatch]
  split
  · rename_i hnil
    rw [List.getLast?_eq_none_iff] at hnil
    rw [hnil] at hb
    cases hb
  · rename_i lst hlst
    obtain ⟨t, rfl⟩ := List.getLast?_eq_some_iff.mp hlst
    split
    · rename_i hsame
      rw [List.dropLast_concat]
      rw [List.mem_append, List.mem_singleton] at hb
      rcases hb with hb | rfl
      · exact List.mem_append_left _ hb
      · simp [sameCall, hnever] at hsame
    · exact List.mem_append_left _ hb

theorem mem_addBatch_of_not_sameCall (h : ∀ lst ∈ l, sameCall u lst b = false) :
    b ∈ addBatch u l b := by
  cases hlst : l.getLast? with
  | none => simp [addBatch, hlst]
  | some lst =>
    rw [addBatch_of_not_sameCall hlst (h lst (List.mem_of_getLast? hlst))]
    exact List.mem_append_right l (List.mem_singleton_self b)

/-- The flow of a process after a batch is sent. -/
theorem flow_sendBatch (mapFlows : MapFlows) (r : Option Batch) (pid : ℤ) :
    (sendBatch u mapFlows r).flow pid = mapFlows.flow pid ∨
      ∃ b, r = some b ∧ b.core.pid = pid ∧
        (sendBatch u mapFlows r).flow pid = addBatch u (mapFlows.flow pid) b := by
  cases r with
  | none => exact .inl rfl
  | some b =>
    by_cases hpid : b.core.pid = pid
    · refine .inr ⟨b, rfl, hpid, ?_⟩
      rw [← hpid, flow_sendBatch_self]
    · refine .inl (flow_sendBatch_of_ne _ fun c hc => ?_)
      cases hc
      exact hpid

end

/-! ## The batches that may be counted together -/

/-- A batch of a creation that may be the same call as another one is a generic one. -/
def IsApart (core : BatchLetCore) (b : Batch) : Prop :=
  core.funcNam ∈ creationCalls → b.neverSame = false →
    ∃ args, b.significantArgs = Arg.sigList args

/-- Every batch of the flows is apart from the creations. -/
def FlowLoop.Apart (s : FlowLoop) : Prop :=
  ∀ pid, ∀ b ∈ s.mapFlows.flow pid, ∃ c, s.loop.world.store.core? b.core = some c ∧ IsApart c b

section
variable {env : Env} {tracer : Tracer} {s s' : FlowLoop} {id : CoreId} {core : BatchLetCore}
  {w w' : World} {r : Option Batch}

theorem apart_init : FlowLoop.init.Apart := by
  intro pid b hb
  cases hb

/-- The factory only gives such batches. -/
theorem isApart_of_factoryStep (hstep : FactoryStep env id core w w' r) :
    ∀ b, r = some b → IsApart core b := by
  intro b hb hname hnever
  cases hstep with
  | unknown =>
    cases hb
    exact ⟨core.parsedArgs, rfl⟩
  | ignored => cases hb
  | pushed =>
    cases hb
    exact ⟨core.parsedArgs, rfl⟩
  | lone =>
    cases hb
    exact ⟨core.parsedArgs, rfl⟩
  | built hm =>
    obtain ⟨args, -, rfl⟩ := Option.map_eq_some_iff.mp hb
    cases (neverSame_of_creation hname hm).symm.trans hnever

theorem FlowLoop.Apart.step (h : s.Apart) (hstep : SendStep env s s') : s'.Apart := by
  intro pid b hb
  have hold : ∀ c ∈ s.mapFlows.flow pid, b.core = c.core →
      b.significantArgs = c.significantArgs → b.neverSame = c.neverSame →
      ∃ d, s'.loop.world.store.core? b.core = some d ∧ IsApart d b := by
    intro c hc hcore hargs hnever
    obtain ⟨d, hd, hapart⟩ := h pid c hc
    obtain ⟨d', hd', hname⟩ := hstep.keepsNames _ d hd
    refine ⟨d', hcore ▸ hd', ?_⟩
    rw [IsApart, hname, hargs, hnever]
    exact hapart
  rcases hstep.sent with ⟨-, hflows⟩ | ⟨id, core, w, r, -, hc, hfac, hflows⟩
  · rw [hflows] at hb
    exact hold b hb rfl rfl rfl
  · rw [hflows] at hb
    rcases @flow_sendBatch s'.loop.world.store s.mapFlows r pid with hsame | ⟨b₀, rfl, -, hflow⟩
    · rw [hsame] at hb
      exact hold b hb rfl rfl rfl
    · rw [hflow] at hb
      obtain ⟨c, hc' | hc', hcore, hargs, hnever⟩ := like_of_mem_addBatch hb
      · subst hc'
        obtain ⟨d, hd, -, hname, -⟩ := hfac.core? hc
        refine ⟨d, by rw [hcore, hfac.core_eq c rfl, hd], ?_⟩
        rw [IsApart, hname, hargs, hnever]
        exact isApart_of_factoryStep hfac c rfl
      · exact hold c hc' hcore hargs hnever

/-- A batch that is never the same call stays in its flow. -/
theorem mem_flow_of_step {pid : ℤ} {b : Batch} (hb : b ∈ s.mapFlows.flow pid)
    (hnever : b.neverSame = true) (hstep : SendStep env s s') : b ∈ s'.mapFlows.flow pid := by
  rcases hstep.sent with ⟨-, hflows⟩ | ⟨id, core, w, r, -, -, -, hflows⟩
  · rwa [hflows]
  · rw [hflows]
    rcases @flow_sendBatch s'.loop.world.store s.mapFlows r pid with hsame | ⟨b₀, -, -, hflow⟩
    · rwa [hsame]
    · rw [hflow]
      exact mem_addBatch_of_neverSame hb hnever

/-! ## A creation that reports its result -/

/-- The model of a creation with a result has been run, on the whole call. -/
theorem built_of_creation (hname : core.funcNam ∈ creationCalls)
    (hresult : core.status ≠ .unfinished) (hkept : ¬ IsDropped core) (hc : w.store.core? id = some core)
    (hstack : core.status = .resumed → w.store.stack core.pid core.funcNam ≠ [])
    (hstep : FactoryStep env id core w w' r) : ∃ c args,
      w'.store.core? id = some c ∧ r = some ⟨id, 1, origStyle, args, true⟩ ∧
        Creates env w.objects c args := by
  obtain ⟨m, hm, -⟩ := batchModels_of_creation hname
  obtain ⟨c, hc', -, hfunc, -, -, hret, -⟩ := hstep.core? hc
  cases hstep with
  | unknown hm' => cases hm.symm.trans hm'
  | ignored hm' => cases hm.symm.trans hm'
  | pushed _ hs => exact absurd hs hresult
  | lone _ hs hnil => exact absurd hnil (hstack hs)
  | built hm' _ hcore hbuild =>
    cases hcore.symm.trans hc'
    have hnever := neverSame_of_creation hname hm'
    rw [← hfunc] at hname hm'
    have hkept' : ¬ IsDropped c := by
      rw [IsDropped, hfunc, hret]
      exact hkept
    obtain ⟨l, rfl, hcreates⟩ := creates_of_build hname hm' hkept' hbuild
    exact ⟨c, l, hc', by rw [hnever]; rfl, hcreates⟩

/-- Its batch is not the same call as one that is there. -/
theorem sameCall_eq_false {u : UnfinishedBatches} {pid : ℤ} {b : Batch} {c : BatchLetCore}
    {o : Objects} (hs : s.Apart) (hkeeps : KeepsNames s.loop.world.store u)
    (hc : u.core? b.core = some c) (hname : c.funcNam ∈ creationCalls)
    (hcreates : Creates env o c b.significantArgs) :
    ∀ lst ∈ s.mapFlows.flow pid, sameCall u lst b = false := by
  intro lst hlst
  obtain ⟨d, hd, hapart⟩ := hs pid lst hlst
  obtain ⟨d', hd', hfunc⟩ := hkeeps _ d hd
  rw [← Bool.not_eq_true]
  intro hsame
  simp only [sameCall, Batch.funcNam?, hd', hc, Option.map_some, Bool.and_eq_true,
    Bool.not_eq_true', decide_eq_true_eq, Option.some.injEq] at hsame
  obtain ⟨⟨hnever, hfuncs⟩, hargs⟩ := hsame
  obtain ⟨args, hgeneric⟩ := hapart (by rw [← hfunc, hfuncs]; exact hname) hnever
  rw [← hargs, hgeneric] at hcreates
  exact not_creates_sigList env o c args hcreates

/-! ## A second half alone -/

/-- The second half `id` without its first half: its batches are generic, and it stays so as long
as it is the last core. -/
structure Lone (id : CoreId) (core : BatchLetCore) (s : FlowLoop) : Prop where
  stored : ∃ c, s.loop.world.store.core? id = some c
  args : ∀ b ∈ s.mapFlows.flow core.pid, b.core = id → ∃ args, b.significantArgs = Arg.sigList args
  current : s.loop.batchCore = some id → s.loop.world.store.core? id = some core ∧
    s.loop.world.store.stack core.pid core.funcNam = []

/-- The factory gives a generic batch, and leaves the stacks. -/
theorem lone_of_factoryStep (hname : core.funcNam ∈ creationCalls) (hs : core.status = .resumed)
    (hc : w.store.core? id = some core) (hstack : w.store.stack core.pid core.funcNam = [])
    (hstep : FactoryStep env id core w w' r) :
    r = some (batchLetBase id core) ∧ w'.store = w.store := by
  obtain ⟨m, hm, -⟩ := batchModels_of_creation hname
  cases hstep with
  | unknown hm' => cases hm.symm.trans hm'
  | ignored hm' => cases hm.symm.trans hm'
  | pushed _ hu => cases hs.symm.trans hu
  | lone _ _ _ hstore => exact ⟨rfl, hstore⟩
  | built _ hs' =>
    rcases hs' with ⟨-, hne, -⟩ | ⟨-, -, hpop⟩
    · exact absurd hs hne
    · rw [UnfinishedBatches.run_mergePopBatch_nil hc hstack] at hpop
      cases hpop

/-- The batches of the core `id`, after another one is sent. -/
theorem args_of_sendBatch {u : UnfinishedBatches} {mapFlows : MapFlows} {pid : ℤ}
    (h : ∀ b ∈ mapFlows.flow pid, b.core = id → ∃ args, b.significantArgs = Arg.sigList args)
    (hr : ∀ b, r = some b → b.core = id → ∃ args, b.significantArgs = Arg.sigList args) :
    ∀ b ∈ (sendBatch u mapFlows r).flow pid, b.core = id →
      ∃ args, b.significantArgs = Arg.sigList args := by
  intro b hb hid
  rcases @flow_sendBatch u mapFlows r pid with hsame | ⟨b₀, rfl, -, hflow⟩
  · exact h b (hsame ▸ hb) hid
  · rw [hflow] at hb
    obtain ⟨c, rfl | hc, hcore, hargs, -⟩ := like_of_mem_addBatch hb
    · rw [hargs]
      exact hr c rfl (hcore ▸ hid)
    · rw [hargs]
      exact h c hc (hcore ▸ hid)

theorem Lone.step (hname : core.funcNam ∈ creationCalls) (hs : core.status = .resumed)
    (h : Lone id core s) (hstep : SendStep env s s') : Lone id core s' := by
  have hcore : ∃ c, s'.loop.world.store.core? id = some c := by
    obtain ⟨c, hc⟩ := h.stored
    obtain ⟨c', hc', -⟩ := hstep.keepsNames id c hc
    exact ⟨c', hc'⟩
  cases hstep with
  | none hworld hflows hlast =>
    refine ⟨hcore, hflows ▸ h.args, fun hid => ?_⟩
    rw [hlast] at hid
    cases hid
  | fresh core' r hfac hflows hlast =>
    have hne : s.loop.world.store.nextId core'.pid ≠ id := by
      intro heq
      obtain ⟨c, hc⟩ := h.stored
      rw [← heq, UnfinishedBatches.core?_nextId] at hc
      cases hc
    refine ⟨hcore, ?_, fun hid => ?_⟩
    · rw [hflows]
      exact args_of_sendBatch h.args fun b hb hid => absurd ((hfac.core_eq b hb).symm.trans hid) hne
    · rw [hlast] at hid
      exact absurd (Option.some.inj hid) hne
  | stale id' core' r hlast hc hfac hflows hlast' =>
    by_cases heq : id' = id
    · subst heq
      obtain ⟨hc', hstack⟩ := h.current hlast
      cases hc.symm.trans hc'
      obtain ⟨rfl, hstore⟩ := lone_of_factoryStep hname hs hc hstack hfac
      refine ⟨hcore, ?_, fun _ => ?_⟩
      · rw [hflows]
        refine args_of_sendBatch h.args fun b hb _ => ?_
        cases hb
        exact ⟨core.parsedArgs, rfl⟩
      · rw [hstore]
        exact ⟨hc, hstack⟩
    · refine ⟨hcore, ?_, fun hid => ?_⟩
      · rw [hflows]
        refine args_of_sendBatch h.args fun b hb hid => ?_
        exact absurd ((hfac.core_eq b hb).symm.trans hid) heq
      · rw [hlast'] at hid
        exact absurd (Option.some.inj hid) heq

/-! ## A whole log -/

/-- What each line keeps holds after any number of lines. -/
theorem each_sendLine_rule {P : FlowLoop → Prop} {lines : List (Text × ℕ)}
    (hstep : ∀ v v', SendStep env v v' → P v → P v') (hs : P s)
    (hrun : (Py.each (sendLine env tracer) lines).run s = (.ok (), s')) : P s' :=
  Py.each_rule (fun _ v => P v) hs
    (fun _ _ _ v v' _ hv hline => hstep v v' (sendStep_of_run hline) hv) hrun

/-- The run of a log, at one of its lines. -/
theorem run_at_line {pre post : List (Text × ℕ)} {line : Text × ℕ} {logStream : List Text}
    {s₁ s₂ : FlowLoop} (hlog : joinLines [] 0 logStream = pre ++ line :: post)
    (hpre : (Py.each (sendLine env tracer) pre).run .init = (.ok (), s₁))
    (hline : (sendLine env tracer line).run s₁ = (.ok (), s₂))
    (hrun : (createMapFlowFromStream env tracer logStream).run .init = (.ok (), s)) :
    ∃ v, (Py.each (sendLine env tracer) post).run s₂ = (.ok (), v) ∧ s.mapFlows = v.mapFlows := by
  rw [createMapFlowFromStream, Py.run_bind_eq_ok] at hrun
  obtain ⟨_, v, heach, hend⟩ := hrun
  refine ⟨v, ?_, (run_inLoop_eq_ok hend).2⟩
  rw [hlog, Py.run_each_append, hpre] at heach
  simp only [Py.run_each_cons, hline] at heach
  exact heach

/-- **Creations are not counted together.** A creation with a result has its own batch in the flow
of its process, which says what was created, exactly when it is not a second half whose first half
is missing. -/
theorem ownBatch_iff {pre post : List (Text × ℕ)} {line : Text × ℕ} {logStream : List Text}
    {s₁ s₂ : FlowLoop} (hlog : joinLines [] 0 logStream = pre ++ line :: post)
    (hpre : (Py.each (sendLine env tracer) pre).run .init = (.ok (), s₁))
    (hline : (sendLine env tracer line).run s₁ = (.ok (), s₂))
    (hrun : (createMapFlowFromStream env tracer logStream).run .init = (.ok (), s))
    (hparse : parseLine env.topProcessId tracer line.1 = .ok (some core))
    (hname : core.funcNam ∈ creationCalls) (hresult : core.status ≠ .unfinished)
    (hkept : ¬ IsDropped core) :
    ∃ c, s₂.loop.world.store.core? (s₁.loop.world.store.nextId core.pid) = some c ∧
      (OwnBatch env (s₁.loop.world.objects.admitted env core)
          (s₁.loop.world.store.nextId core.pid) c (s.mapFlows.flow core.pid) ↔
        (core.status = .resumed → s₁.loop.world.store.stack core.pid core.funcNam ≠ [])) := by
  obtain ⟨v, hpost, hflows⟩ := run_at_line hlog hpre hline hrun
  obtain ⟨r, hfac, hsent, hlast⟩ := sendStep_of_core hparse hline
  have hc := s₁.loop.world.store.core?_addCore_nextId core
  have hstack : (s₁.loop.world.admitted env core).store.stack core.pid core.funcNam =
      s₁.loop.world.store.stack core.pid core.funcNam :=
    s₁.loop.world.store.stack_addCore core core.pid core.funcNam
  have hapart : s₁.Apart :=
    each_sendLine_rule (fun v v' hstep hv => hv.step hstep) apart_init hpre
  by_cases hcond : core.status = .resumed → s₁.loop.world.store.stack core.pid core.funcNam ≠ []
  · obtain ⟨c, args, hc', rfl, hcreates⟩ :=
      built_of_creation hname hresult hkept hc (hstack ▸ hcond) hfac
    refine ⟨c, hc', iff_of_true ?_ hcond⟩
    have hkeeps : KeepsNames s₁.loop.world.store s₂.loop.world.store :=
      (sendStep_of_run hline).keepsNames
    have hfunc : c.funcNam ∈ creationCalls := by
      obtain ⟨c', hc'', -, hfunc, -⟩ := hfac.core? hc
      cases hc'.symm.trans hc''
      rwa [hfunc]
    have hmem : (⟨s₁.loop.world.store.nextId core.pid, 1, origStyle, args, true⟩ : Batch) ∈
        s₂.mapFlows.flow core.pid := by
      have hflow := @flow_sendBatch_self s₂.loop.world.store s₁.mapFlows
        ⟨s₁.loop.world.store.nextId core.pid, 1, origStyle, args, true⟩
      rw [hsent]
      refine hflow.symm ▸ ?_
      exact mem_addBatch_of_not_sameCall (sameCall_eq_false hapart hkeeps hc' hfunc hcreates)
    refine ⟨⟨s₁.loop.world.store.nextId core.pid, 1, origStyle, args, true⟩, ?_, rfl, rfl, hcreates⟩
    rw [hflows]
    exact each_sendLine_rule (P := fun v => _ ∈ v.mapFlows.flow core.pid)
      (fun v v' hstep hv => mem_flow_of_step hv rfl hstep) hmem hpost
  · obtain ⟨hs, hnil⟩ := Classical.not_imp.mp hcond
    rw [not_not] at hnil
    obtain ⟨rfl, hstore⟩ := lone_of_factoryStep hname hs hc (hstack.trans hnil) hfac
    refine ⟨core, hstore ▸ hc, iff_of_false ?_ hcond⟩
    have hlone : Lone (s₁.loop.world.store.nextId core.pid) core s₂ := by
      refine ⟨⟨core, hstore ▸ hc⟩, ?_, fun _ => ⟨hstore ▸ hc, ?_⟩⟩
      · rw [hsent]
        refine args_of_sendBatch (fun b hb hid => ?_) fun b hb _ => ?_
        · obtain ⟨c, hc, -⟩ := hapart _ b hb
          rw [hid, UnfinishedBatches.core?_nextId] at hc
          cases hc
        · cases hb
          exact ⟨core.parsedArgs, rfl⟩
      · rw [hstore, hstack, hnil]
    have hend := each_sendLine_rule (fun v v' hstep hv => hv.step hname hs hstep) hlone hpost
    rintro ⟨b, hb, hid, -, hcreates⟩
    rw [hflows] at hb
    obtain ⟨args, hargs⟩ := hend.args b hb hid
    rw [hargs] at hcreates
    exact not_creates_sigList _ _ _ args hcreates

end

/-! ## Some logs -/

/-- A creation, and a second half whose first half is missing. -/
def wholeVfork : Text := "10:00:00.000001 vfork() = 42 <0.000006>\n".toList

def loneVfork : Text := "10:00:00.000001 <... vfork resumed> ) = 42 <0.000006>\n".toList

/-- The core of a `vfork` of the process 7. -/
def vforkCore (status : BatchStatus) : BatchLetCore where
  tracer := .strace
  pid := 7
  funcNam := "vfork@SYS".toList
  status := status
  timeStart := "10:00:00.000001".toList
  timeEnd := "10:00:00.000001".toList
  execTim := "0.000006".toList
  parsedArgs := []
  retValue := some "42".toList
  unfinishedBatch := none
  resumedBatch := none

theorem parseLine_wholeVfork :
    parseLine 7 .strace wholeVfork = .ok (some (vforkCore .plain)) := by
  rfl

theorem parseLine_loneVfork :
    parseLine 7 .strace loneVfork = .ok (some (vforkCore .resumed)) := by
  rfl

/-- A log of one line. -/
theorem joinLines_one {oneLine : Text} (h : isLogEnding oneLine = true) :
    joinLines [] 0 [oneLine] = [] ++ (oneLine, 1) :: [] := by
  rw [joinLines, if_pos (by simpa using h)]
  rfl

/-- The flows after such a log. -/
def afterOneLine (oneLine : Text) : FlowLoop :=
  (sendLine (.replayed 7 "/".toList) .strace (oneLine, 1)).run .init |>.2

theorem run_loneVfork : (sendLine (.replayed 7 "/".toList) .strace (loneVfork, 1)).run .init =
    (.ok (), afterOneLine loneVfork) :=
  Prod.ext (by rfl) rfl

/-- The same creation, twice. -/
def twoVforks : List Text := [wholeVfork, wholeVfork]

/-- The flows after the second one. -/
def afterTwoVforks : FlowLoop :=
  (sendLine (.replayed 7 "/".toList) .strace (wholeVfork, 2)).run (afterOneLine wholeVfork) |>.2

/-- The second creation has a batch of its own, next to that of the first one. -/
theorem ownBatch_iff_twoVforks :
    ∃ c, afterTwoVforks.loop.world.store.core?
        ((afterOneLine wholeVfork).loop.world.store.nextId 7) = some c ∧
      (OwnBatch (.replayed 7 "/".toList)
          ((afterOneLine wholeVfork).loop.world.objects.admitted (.replayed 7 "/".toList)
            (vforkCore .plain))
          ((afterOneLine wholeVfork).loop.world.store.nextId 7) c
          ((flowsOfLog twoVforks).2.mapFlows.flow 7) ↔
        (BatchStatus.plain = .resumed →
          (afterOneLine wholeVfork).loop.world.store.stack 7 "vfork@SYS".toList ≠ [])) :=
  ownBatch_iff
    (show joinLines [] 0 twoVforks = [(wholeVfork, 1)] ++ (wholeVfork, 2) :: [] by decide +kernel)
    (show (Py.each (sendLine (.replayed 7 "/".toList) .strace) [(wholeVfork, 1)]).run .init =
      (.ok (), afterOneLine wholeVfork) from Prod.ext (by rfl) rfl)
    (show (sendLine (.replayed 7 "/".toList) .strace (wholeVfork, 2)).run
      (afterOneLine wholeVfork) = (.ok (), afterTwoVforks) from Prod.ext (by rfl) rfl)
    (show flowsOfLog twoVforks = (.ok (), (flowsOfLog twoVforks).2) from
      Prod.ext (by rfl) rfl)
    parseLine_wholeVfork (by decide) (by decide) fun h => absurd h.1 (by decide)

/-- The missing half of a creation is enough for its batch to be the generic one. -/
theorem not_forall_ownBatch :
    ¬ ∀ (env : Env) (tracer : Tracer) (pre post : List (Text × ℕ)) (line : Text × ℕ)
      (logStream : List Text) (s₁ s₂ s : FlowLoop) (core : BatchLetCore),
      joinLines [] 0 logStream = pre ++ line :: post →
      (Py.each (sendLine env tracer) pre).run .init = (.ok (), s₁) →
      (sendLine env tracer line).run s₁ = (.ok (), s₂) →
      (createMapFlowFromStream env tracer logStream).run .init = (.ok (), s) →
      parseLine env.topProcessId tracer line.1 = .ok (some core) →
      core.funcNam ∈ creationCalls → core.status ≠ .unfinished → ¬ IsDropped core →
      ∃ c, s₂.loop.world.store.core? (s₁.loop.world.store.nextId core.pid) = some c ∧
        OwnBatch env (s₁.loop.world.objects.admitted env core)
          (s₁.loop.world.store.nextId core.pid) c (s.mapFlows.flow core.pid) := by
  intro h
  obtain ⟨c, -, b, hb, -, -, hcreates⟩ := h (.replayed 7 "/".toList) .strace [] [] (loneVfork, 1)
    [loneVfork] .init _ (flowsOfLog [loneVfork]).2 (vforkCore .resumed)
    (joinLines_one (by decide)) rfl run_loneVfork
    (show flowsOfLog [loneVfork] = (.ok (), (flowsOfLog [loneVfork]).2) from
      Prod.ext (by rfl) rfl)
    parseLine_loneVfork (by decide) (by decide) fun h => absurd h.1 (by decide)
  have hflow : (flowsOfLog [loneVfork]).2.mapFlows.flow 7 =
      [batchLetBase ⟨7, 0⟩ (vforkCore .resumed)] := by rfl
  change b ∈ (flowsOfLog [loneVfork]).2.mapFlows.flow 7 at hb
  rw [hflow, List.mem_singleton] at hb
  rw [hb] at hcreates
  exact not_creates_sigList _ _ _ [] hcreates

end Survol.Dockit
