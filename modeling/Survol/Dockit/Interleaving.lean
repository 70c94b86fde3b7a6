import Survol.Dockit.CoreRuns
import Survol.Dockit.Flows
import Survol.Dockit.Sight
import Survol.Dockit.SplitCall

/-!
# Interleaving independence

The lines of the processes come mixed in a log of `strace`. Each process only sees
its own cores, stacks and directory, so its flow only depends on its own lines, in
their order: two logs that interleave the same lines give the same flows.

## Main definitions

* `SameView` — two worlds that a process sees in the same way.
* `FlowRun` — the worlds and the flows that are reached by a list of cores.
* `createMapFlowFromStream` — the flows of a log.
* `Batch.summary`, with `flows_of_interleaving`.
-/

open PyText

namespace Survol.Dockit

/-! ## The store -/

namespace SameFor

variable {pid : ℤ} {u u' u'' : UnfinishedBatches}

theorem refl (pid : ℤ) (u : UnfinishedBatches) : SameFor pid u u := ⟨fun _ _ => rfl, fun _ => rfl⟩

theorem symm (h : SameFor pid u u') : SameFor pid u' u :=
  ⟨fun id hid => (h.core? id hid).symm, fun f => (h.stack f).symm⟩

theorem trans (h : SameFor pid u u') (h' : SameFor pid u' u'') : SameFor pid u u'' :=
  ⟨fun id hid => (h'.core? id hid).trans (h.core? id hid), fun f => (h'.stack f).trans (h.stack f)⟩

/-- The next core of the process is the same one. -/
theorem nextId (h : SameFor pid u u') : u'.nextId pid = u.nextId pid := by
  have hcores : u'.coresOf pid = u.coresOf pid :=
    List.ext_getElem? fun k => h.core? ⟨pid, k⟩ rfl
  rw [UnfinishedBatches.nextId, UnfinishedBatches.nextId, hcores]

theorem addCore {core : BatchLetCore} (h : SameFor core.pid u u') :
    SameFor core.pid (u.addCore core) (u'.addCore core) := by
  refine ⟨fun id hid => ?_, h.stack⟩
  rw [UnfinishedBatches.core?_addCore, UnfinishedBatches.core?_addCore, h.nextId, h.core? id hid]

theorem pushed {core : BatchLetCore} (h : SameFor core.pid u u') :
    SameFor core.pid (u.pushed core) (u'.pushed core) := by
  refine ⟨h.addCore.core?, fun f => ?_⟩
  rw [UnfinishedBatches.pushed, UnfinishedBatches.pushed, UnfinishedBatches.stack_setStack,
    UnfinishedBatches.stack_setStack, h.nextId]
  simp only [UnfinishedBatches.stack_addCore, h.stack]

/-- The halves that are merged are the same ones. -/
theorem mergePopBatch {b : BatchLetCore} {j : CoreId} {v v' : UnfinishedBatches}
    {o o' : Option CoreId} (h : SameFor b.pid u u') (hinv : u.PairingInv) (hinv' : u'.PairingInv)
    (hj : u.core? j = some b) (hj' : u'.core? j = some b) (hs : b.status = .resumed)
    (hrun : (mergePopBatch j).run u = (.ok o, v)) (hrun' : (mergePopBatch j).run u' = (.ok o', v')) :
    o = o' ∧ SameFor b.pid v v' := by
  rcases hinv.run_mergePopBatch hj hs with ⟨hnil, hpop⟩ | ⟨i, a, w, hi, hm, hw, hpop⟩ <;>
    rcases hinv'.run_mergePopBatch hj' hs with ⟨hnil', hpop'⟩ | ⟨i', a', w', hi', hm', hw', hpop'⟩ <;>
    cases hrun.symm.trans hpop <;> cases hrun'.symm.trans hpop'
  · exact ⟨rfl, h⟩
  · rw [h.stack, hnil] at hi'
    cases hi'
  · rw [h.stack] at hnil'
    rw [hnil'] at hi
    cases hi
  · rw [h.stack, hi] at hi'
    cases hi'
    have hipid : i.pid = b.pid := by rw [← hinv.pid i a hm.left, hm.pid]
    have ha := hm'.left
    rw [h.core? i hipid, hm.left] at ha
    cases ha
    refine ⟨rfl, fun id hid => ?_, fun f => ?_⟩
    · rw [hw.core?, hw'.core?, h.core? id hid]
    · rw [hw.stack, hw'.stack, h.stack]

end SameFor

/-! ## The world -/

/-- What a process sees of two worlds is the same. -/
structure SameView (env : Env) (pid : ℤ) (w₁ w₂ : World) : Prop where
  descriptors : w₁.objects.mapFilDesToPathName = w₂.objects.mapFilDesToPathName
  dir : dirOf env w₁.objects pid = dirOf env w₂.objects pid
  store : SameFor pid w₁.store w₂.store

section
variable {env : Env} {pid : ℤ} {core : BatchLetCore} {w w' w₁ w₂ v₁ v₂ : World}
  {r r₁ r₂ : Option Batch}

theorem SameView.refl (env : Env) (pid : ℤ) (w : World) : SameView env pid w w :=
  ⟨rfl, rfl, .refl pid w.store⟩

theorem SameView.symm (h : SameView env pid w₁ w₂) : SameView env pid w₂ w₁ :=
  ⟨h.descriptors.symm, h.dir.symm, h.store.symm⟩

theorem SameView.trans (h : SameView env pid w w₁) (h' : SameView env pid w₁ w₂) :
    SameView env pid w w₂ :=
  ⟨h.descriptors.trans h'.descriptors, h.dir.trans h'.dir, h.store.trans h'.store⟩

/-- A core of a process only changes the directory of that process. -/
theorem keepsDirs_of_processCore {S : ℤ → Prop} (hS : ¬ S core.pid) (ht : core.tracer = .strace)
    (h : (processCore env core).run w = (.ok r, w')) :
    KeepsDirs env S w.objects w'.objects := by
  have hstep := factoryStep_of_processCore h
  have hadmit : KeepsDirs env S w.objects (w.admitted env core).objects :=
    keepsDirs_admitted w.objects core
  obtain ⟨c', hc', -, hfunc, hpid, -, -, htracer⟩ :=
    hstep.core? (w.store.core?_addCore_nextId core)
  have hbuilt : ∀ {c : BatchLetCore} {m : CallModel} {x : Except PyExn (Option (List SigArg))},
      batchModels c.funcNam = .model m → c.pid = core.pid → c.tracer = core.tracer →
      (m.build env c).run (w.admitted env core).objects = (x, w'.objects) →
      KeepsDirs env S w.objects w'.objects := by
    intro c m x hm hcp hct hrun
    have hkeep := @keepsDirs_build env c m hm (hct.trans ht) S (hcp ▸ hS) (w.admitted env core).objects
    rw [hrun] at hkeep
    exact hadmit.trans hkeep
  cases hstep with
  | unknown _ _ hobjects =>
    rw [hobjects]
    exact hadmit
  | ignored _ hw =>
    rw [hw]
    exact hadmit
  | pushed hm _ _ hobjects =>
    rcases hobjects with ⟨-, heq⟩ | ⟨-, e, hrun⟩
    · rw [heq]
      exact hadmit
    · exact hbuilt hm rfl rfl hrun
  | built hm _ hcore hrun =>
    cases hcore.symm.trans hc'
    exact hbuilt (hfunc ▸ hm) hpid htracer hrun
  | lone hm _ _ _ hobjects =>
    rcases hobjects with ⟨-, heq⟩ | ⟨-, x, hrun⟩
    · rw [heq]
      exact hadmit
    · exact hbuilt hm rfl rfl hrun

/-- The other processes see no difference. -/
theorem sameView_of_other (hpid : core.pid ≠ pid) (hinv : w.store.PairingInv)
    (hfresh : FreshCore core) (ht : core.tracer = .strace)
    (h : (processCore env core).run w = (.ok r, w')) : SameView env pid w w' := by
  have hkeep := keepsDirs_of_processCore (S := fun p => p ≠ core.pid) (not_not.mpr rfl) ht h
  obtain ⟨hcore, hstack⟩ := (storeStep_of_processCore h).other hinv hfresh hpid
  exact ⟨hkeep.descriptors.symm, (hkeep.dir pid hpid.symm).symm, hcore, hstack⟩

/-- An admitted process is there. -/
theorem SameView.admitted (h : SameView env core.pid w₁ w₂) :
    SameSight env core.pid (w₁.admitted env core).objects (w₂.admitted env core).objects := by
  have hkeep : ∀ w : World, KeepsAllDirs env w.objects (w.admitted env core).objects :=
    fun w => keepsDirs_admitted w.objects core
  have hthere : ∀ w : World,
      ((w.admitted env core).objects.processes.get? core.pid).isSome := by
    intro w
    refine KeepsDirs.present (@keepsDirs_updateProcess env (fun _ => True) _ core.pid _ fun o => ?_)
      core.pid (@isSome_toProcess env w.objects core.pid)
    split <;> rfl
  exact ⟨(hkeep w₁).descriptors.trans (h.descriptors.trans (hkeep w₂).descriptors.symm),
    ((hkeep w₁).dir _ trivial).trans (h.dir.trans ((hkeep w₂).dir _ trivial).symm),
    hthere w₁, hthere w₂⟩

/-- A model that fails on an unfinished half where one process is seen cannot return where it is
seen in the same way. -/
theorem FactoryStep.not_pushed_and_built {m : CallModel} {c : BatchLetCore} {o₁ o₂ p₁ p₂ : Objects}
    {args : Option (List SigArg)} {merged kept : Prop}
    (hm : batchModels core.funcNam = .model m) (hs : core.status = .unfinished)
    (hsight : SameSight env core.pid o₁ o₂)
    (hpushed : m.unfinishedIsOk = false ∧ p₁ = o₁ ∨
      m.unfinishedIsOk = true ∧ ∃ e, (m.build env core).run o₁ = (.error e, p₁))
    (hbuilt : c = core ∧ core.status ≠ .resumed ∧
        (core.status = .unfinished → m.unfinishedIsOk = true) ∧ kept ∨
      core.status = .resumed ∧ merged)
    (hrun : (m.build env c).run o₂ = (.ok args, p₂)) : False := by
  rcases hbuilt with ⟨rfl, -, hok, -⟩ | ⟨hres, -⟩
  · rcases hpushed with ⟨hok', -⟩ | ⟨-, e, hfail⟩
    · cases hok'.symm.trans (hok hs)
    · have hblind := (blind_build hm (hok hs) _ _ hsight).1
      rw [hfail, hrun] at hblind
      cases hblind
  · cases hs.symm.trans hres

/-- A resumed half without its unfinished half is not merged. -/
theorem FactoryStep.not_lone_and_built {id : CoreId} {u u' : UnfinishedBatches}
    {intact kept merged : Prop} (hs : core.status = .resumed)
    (hstack : u.stack core.pid core.funcNam = []) (hcore : u.core? id = some core)
    (hbuilt : intact ∧ core.status ≠ .resumed ∧ kept ∨
      core.status = .resumed ∧ merged ∧ (mergePopBatch id).run u = (.ok (some id), u')) :
    False := by
  rcases hbuilt with ⟨-, hres, -⟩ | ⟨-, -, hpop⟩
  · exact hres hs
  · cases hpop.symm.trans (UnfinishedBatches.run_mergePopBatch_nil hcore hstack)

/-- **Two steps of the factory** on the same core, which its process sees in the same
way, end in the same way. -/
theorem FactoryStep.agree {id : CoreId} (h₁ : FactoryStep env id core v₁ w₁ r₁)
    (h₂ : FactoryStep env id core v₂ w₂ r₂) (ht : core.tracer = .strace)
    (hsight : SameSight env core.pid v₁.objects v₂.objects)
    (hstore : SameFor core.pid v₁.store v₂.store) (hid : id.pid = core.pid)
    (hcore₁ : v₁.store.core? id = some core) (hcore₂ : v₂.store.core? id = some core)
    (hpush : ∀ u₁ u₂, (pushBatch id).run v₁.store = (.ok (), u₁) →
      (pushBatch id).run v₂.store = (.ok (), u₂) → SameFor core.pid u₁ u₂)
    (hinv₁ : core.status = .resumed → v₁.store.PairingInv)
    (hinv₂ : core.status = .resumed → v₂.store.PairingInv) :
    r₁ = r₂ ∧ SameSight env core.pid w₁.objects w₂.objects ∧
      SameFor core.pid w₁.store w₂.store := by
  obtain ⟨d, hd, -, hfunc, hdpid, -, -, hdtracer⟩ := h₁.core? hcore₁
  cases h₁ with
  | unknown hm hstore₁ hobjects₁ =>
    cases h₂ with
    | unknown _ hstore₂ hobjects₂ =>
      rw [hstore₁, hstore₂, hobjects₁, hobjects₂]
      exact ⟨rfl, hsight, hstore⟩
    | ignored hm' => cases hm.symm.trans hm'
    | pushed hm' => cases hm.symm.trans hm'
    | built hm' => cases hm.symm.trans hm'
    | lone hm' => cases hm.symm.trans hm'
  | ignored hm hw₁ =>
    cases h₂ with
    | ignored _ hw₂ =>
      rw [hw₁, hw₂]
      exact ⟨rfl, hsight, hstore⟩
    | unknown hm' => cases hm.symm.trans hm'
    | pushed hm' => cases hm.symm.trans hm'
    | built hm' => cases hm.symm.trans hm'
    | lone hm' => cases hm.symm.trans hm'
  | pushed hm hs hstore₁ hobjects₁ =>
    cases h₂ with
    | unknown hm' => cases hm.symm.trans hm'
    | ignored hm' => cases hm.symm.trans hm'
    | pushed hm' _ hstore₂ hobjects₂ =>
      cases hm.symm.trans hm'
      refine ⟨rfl, ?_, hpush _ _ hstore₁ hstore₂⟩
      rcases hobjects₁ with ⟨hok, heq₁⟩ | ⟨hok, e, hrun₁⟩ <;>
        rcases hobjects₂ with ⟨hok', heq₂⟩ | ⟨hok', e', hrun₂⟩
      · rw [heq₁, heq₂]
        exact hsight
      · cases hok.symm.trans hok'
      · cases hok.symm.trans hok'
      · have hblind := (blind_build hm hok _ _ hsight).2
        rwa [hrun₁, hrun₂] at hblind
    | built hm' hs' hcore' hrun₂ =>
      cases hm.symm.trans hm'
      exact (FactoryStep.not_pushed_and_built hm hs hsight hobjects₁ hs' hrun₂).elim
    | lone _ hs' => cases hs.symm.trans hs'
  | @built m c args hm hs hc hrun₁ =>
    cases h₂ with
    | unknown hm' => cases hm.symm.trans hm'
    | ignored hm' => cases hm.symm.trans hm'
    | pushed hm' hs' _ hobjects₂ =>
      cases hm.symm.trans hm'
      exact (FactoryStep.not_pushed_and_built hm hs' hsight.symm hobjects₂ hs hrun₁).elim
    | @built m' c' args' hm' hs' hc' hrun₂ =>
      cases hm.symm.trans hm'
      have hafter : SameFor core.pid w₁.store w₂.store := by
        rcases hs with ⟨-, hres, -, hstore₁⟩ | ⟨hres, -, hpop₁⟩ <;>
          rcases hs' with ⟨-, hres', -, hstore₂⟩ | ⟨hres', -, hpop₂⟩
        · rw [hstore₁, hstore₂]
          exact hstore
        · exact absurd hres' hres
        · exact absurd hres hres'
        · exact (hstore.mergePopBatch (hinv₁ hres) (hinv₂ hres) hcore₁ hcore₂ hres hpop₁ hpop₂).2
      have hsame := hafter.core? id hid
      rw [hc, hc', Option.some.injEq] at hsame
      subst hsame
      cases hc.symm.trans hd
      obtain ⟨rfl, hsight'⟩ := agree_build (hfunc ▸ hm) (hdtracer.trans ht) (hdpid ▸ hsight)
        hrun₁ hrun₂
      exact ⟨rfl, hdpid ▸ hsight', hafter⟩
    | lone hm' hs' hstack' =>
      exact (FactoryStep.not_lone_and_built hs' ((hstore.stack core.funcNam).symm.trans hstack')
        hcore₁ hs).elim
  | lone hm hs hstack hstore₁ hobjects₁ =>
    cases h₂ with
    | unknown hm' => cases hm.symm.trans hm'
    | ignored hm' => cases hm.symm.trans hm'
    | pushed _ hs' => cases hs.symm.trans hs'
    | built hm' hs' =>
      exact (FactoryStep.not_lone_and_built hs ((hstore.stack core.funcNam).trans hstack)
        hcore₂ hs').elim
    | lone hm' _ _ hstore₂ hobjects₂ =>
      cases hm.symm.trans hm'
      rw [hstore₁, hstore₂]
      refine ⟨rfl, ?_, hstore⟩
      rcases hobjects₁ with ⟨hok, heq₁⟩ | ⟨hok, x, hrun₁⟩ <;>
        rcases hobjects₂ with ⟨hok', heq₂⟩ | ⟨hok', x', hrun₂⟩
      · rw [heq₁, heq₂]
        exact hsight
      · cases hok.symm.trans hok'
      · cases hok.symm.trans hok'
      · have hkeep₁ := @keepsAllDirs_build env core _ hm hok v₁.objects
        have hkeep₂ := @keepsAllDirs_build env core _ hm hok v₂.objects
        rw [hrun₁] at hkeep₁
        rw [hrun₂] at hkeep₂
        exact hsight.keeps hkeep₁ hkeep₂

/-- **The batch of a core** only depends on what its process sees. -/
theorem agree_processCore (hview : SameView env core.pid v₁ v₂) (hinv₁ : v₁.store.PairingInv)
    (hinv₂ : v₂.store.PairingInv) (hfresh : FreshCore core) (ht : core.tracer = .strace)
    (h₁ : (processCore env core).run v₁ = (.ok r₁, w₁))
    (h₂ : (processCore env core).run v₂ = (.ok r₂, w₂)) :
    r₁ = r₂ ∧ SameView env core.pid w₁ w₂ := by
  have hstep₁ := factoryStep_of_processCore h₁
  have hstep₂ := factoryStep_of_processCore h₂
  have hid := hview.store.nextId
  rw [hid] at hstep₂
  have hcore₂ : (v₂.admitted env core).store.core? (v₁.store.nextId core.pid) = some core := by
    rw [← hid]
    exact v₂.store.core?_addCore_nextId core
  obtain ⟨rfl, hsight, hstore⟩ := hstep₁.agree hstep₂ ht hview.admitted hview.store.addCore rfl
    (v₁.store.core?_addCore_nextId core) hcore₂ (fun u₁ u₂ hpush₁ hpush₂ => by
      have hrun₁ := @run_pushBatch v₁.store core
      have hrun₂ := @run_pushBatch v₂.store core
      rw [hid] at hrun₂
      rw [← (Prod.mk.inj (hrun₁.symm.trans hpush₁)).2, ← (Prod.mk.inj (hrun₂.symm.trans hpush₂)).2]
      exact hview.store.pushed)
    (fun hs => hinv₁.addCore hfresh (by simp [hs])) (fun hs => hinv₂.addCore hfresh (by simp [hs]))
  exact ⟨rfl, hsight.descriptors, hsight.dir, hstore⟩

end

/-! ## Runs -/

/-- The worlds and the flows that are reached by a list of cores, when nothing is raised. -/
inductive FlowRun (env : Env) : List BatchLetCore → World → MapFlows → Prop
  | init : FlowRun env [] World.init []
  | step {l : List BatchLetCore} {core : BatchLetCore} {w w' : World} {r : Option Batch}
      {mapFlows : MapFlows} (h : FlowRun env l w mapFlows) (hfresh : FreshCore core)
      (ht : core.tracer = .strace) (hrun : (processCore env core).run w = (.ok r, w')) :
      FlowRun env (l ++ [core]) w' (sendBatch w'.store mapFlows r)

/-- The cores of a process. -/
def coresOfPid (pid : ℤ) (l : List BatchLetCore) : List BatchLetCore :=
  l.filter fun core => core.pid = pid

section
variable {env : Env} {pid : ℤ} {core : BatchLetCore} {l l₁ l₂ : List BatchLetCore}
  {w w₁ w₂ : World} {mapFlows flows₁ flows₂ : MapFlows}

theorem coresOfPid_append_of_ne (h : core.pid ≠ pid) :
    coresOfPid pid (l ++ [core]) = coresOfPid pid l := by
  simp [coresOfPid, List.filter_append, h]

theorem coresOfPid_append (l : List BatchLetCore) (core : BatchLetCore) :
    coresOfPid core.pid (l ++ [core]) = coresOfPid core.pid l ++ [core] := by
  simp [coresOfPid, List.filter_append]

theorem FlowRun.reachable (h : FlowRun env l w mapFlows) : Reachable env w := by
  induction h with
  | init => exact .init
  | step _ hfresh _ hrun ih => exact .step ih hfresh hrun

/-- The flow of another process is as it was. -/
theorem flow_step_of_ne {r : Option Batch} {w' : World} (hpid : core.pid ≠ pid)
    (hrun : (processCore env core).run w = (.ok r, w')) :
    (sendBatch w'.store mapFlows r).flow pid = mapFlows.flow pid := by
  refine flow_sendBatch_of_ne r fun b hb => ?_
  rw [(factoryStep_of_processCore hrun).core_eq b hb]
  exact hpid

theorem flow_step {b : Batch} {w' : World}
    (hrun : (processCore env core).run w = (.ok (some b), w')) :
    (sendBatch w'.store mapFlows (some b)).flow core.pid =
      addBatch w'.store (mapFlows.flow core.pid) b := by
  have hpid : b.core.pid = core.pid := by
    rw [(factoryStep_of_processCore hrun).core_eq b rfl]
    rfl
  rw [← hpid, flow_sendBatch_self]

/-- The batches of a flow are those of its process. -/
theorem FlowRun.pid_core (h : FlowRun env l w mapFlows) (pid : ℤ) :
    ∀ b ∈ mapFlows.flow pid, b.core.pid = pid := by
  induction h with
  | init => nofun
  | @step l core w w' r mapFlows _ _ _ hrun ih =>
    intro b hb
    by_cases hpid : core.pid = pid
    · subst hpid
      cases r with
      | none => exact ih b hb
      | some b₀ =>
        rw [flow_step hrun] at hb
        rcases mem_addBatch hb with heq | ⟨c, hc, heq⟩
        · rw [heq, (factoryStep_of_processCore hrun).core_eq b₀ rfl]
          rfl
        · rw [heq]
          exact ih c hc
    · rw [flow_step_of_ne hpid hrun] at hb
      exact ih b hb

theorem sameCall_eq {u u' : UnfinishedBatches} (h : SameFor pid u u') {b b' : Batch}
    (hb : b.core.pid = pid) (hb' : b'.core.pid = pid) : sameCall u' b b' = sameCall u b b' := by
  rw [sameCall, sameCall, Batch.funcNam?, Batch.funcNam?, Batch.funcNam?, Batch.funcNam?,
    h.core? _ hb, h.core? _ hb']

theorem addBatch_eq {u u' : UnfinishedBatches} (h : SameFor pid u u') {k : List Batch} {b : Batch}
    (hk : ∀ c ∈ k, c.core.pid = pid) (hb : b.core.pid = pid) :
    addBatch u' k b = addBatch u k b := by
  rw [addBatch, addBatch]
  cases hlst : k.getLast? with
  | none => rfl
  | some lst =>
    dsimp only
    rw [sameCall_eq h (hk lst (List.mem_of_getLast? hlst)) hb]

/-- The cores of the other processes can be left out, on one side. -/
theorem sameView_of_coresOfPid (h₁ : FlowRun env l₁ w₁ flows₁) (h₂ : FlowRun env l₂ w₂ flows₂)
    (hsame : coresOfPid pid l₁ = coresOfPid pid l₂) :
    SameView env pid w₁ w₂ ∧ flows₁.flow pid = flows₂.flow pid := by
  induction h₁ generalizing l₂ w₂ flows₂ with
  | init =>
    induction h₂ with
    | init => exact ⟨.refl env pid _, rfl⟩
    | @step l core w w' r mapFlows h hfresh ht hrun ih =>
      by_cases hpid : core.pid = pid
      · subst hpid
        rw [coresOfPid_append] at hsame
        simp [coresOfPid] at hsame
      · rw [coresOfPid_append_of_ne hpid] at hsame
        obtain ⟨hview, hflow⟩ := ih hsame
        refine ⟨hview.trans (sameView_of_other hpid h.reachable.pairingInv hfresh ht hrun), ?_⟩
        rw [flow_step_of_ne hpid hrun, hflow]
  | @step l core w w' r mapFlows h hfresh ht hrun ih =>
    by_cases hpid : core.pid = pid
    · subst hpid
      rw [coresOfPid_append] at hsame
      induction h₂ with
      | init => simp [coresOfPid] at hsame
      | @step k core' v v' r' flows' h' hfresh' ht' hrun' ih' =>
        by_cases hpid' : core'.pid = core.pid
        · rw [← hpid', coresOfPid_append, hpid'] at hsame
          obtain ⟨hl, hcore⟩ := List.append_inj' hsame rfl
          cases hcore
          obtain ⟨hview, hflow⟩ := ih h' hl
          obtain ⟨rfl, hview'⟩ := agree_processCore hview h.reachable.pairingInv
            h'.reachable.pairingInv hfresh ht hrun hrun'
          refine ⟨hview', ?_⟩
          cases r with
          | none => exact hflow
          | some b =>
            have hb : b.core.pid = core.pid := by
              rw [(factoryStep_of_processCore hrun).core_eq b rfl]
              rfl
            rw [flow_step hrun, flow_step hrun', ← hflow]
            exact (addBatch_eq hview'.store (h.pid_core _) hb).symm
        · rw [coresOfPid_append_of_ne hpid'] at hsame
          obtain ⟨hview, hflow⟩ := ih' hsame
          refine ⟨hview.trans (sameView_of_other hpid' h'.reachable.pairingInv hfresh' ht' hrun'), ?_⟩
          rw [flow_step_of_ne hpid' hrun', hflow]
    · rw [coresOfPid_append_of_ne hpid] at hsame
      obtain ⟨hview, hflow⟩ := ih h₂ hsame
      refine ⟨(sameView_of_other hpid h.reachable.pairingInv hfresh ht hrun).symm.trans hview, ?_⟩
      rw [flow_step_of_ne hpid hrun, hflow]

end

/-! ## Logs -/

/-- The pid that a line is read with. -/
def linePid (topProcessId : ℤ) (oneLine : Text) : ℤ :=
  if "[pid".toList.isPrefixOf oneLine then
    (int? (pySlice oneLine 4 (posOrMinusOne (findIdx [']'] oneLine)))).getD topProcessId
  else topProcessId

theorem pid_of_coreOfCall {tracer : Tracer} {pid : ℤ} {aTimeStamp theCall funcNam : Text}
    {status : BatchStatus} {ixArgs : ℕ} {core : BatchLetCore}
    (h : coreOfCall tracer pid aTimeStamp theCall status funcNam ixArgs = .ok core) :
    core.pid = pid ∧ core.tracer = tracer := by
  simp only [coreOfCall, bind, Except.bind] at h
  split_ifs at h
  · cases h
    exact ⟨rfl, rfl⟩
  · split at h
    · cases h
    · cases h
      exact ⟨rfl, rfl⟩

/-- The pid and the tracer of a parsed line. -/
theorem pid_of_parseLine {topProcessId : ℤ} {tracer : Tracer} {oneLine : Text}
    {core : BatchLetCore} (h : parseLine topProcessId tracer oneLine = .ok (some core)) :
    core.pid = linePid topProcessId oneLine ∧ core.tracer = tracer := by
  have hinit : ∀ pid idxStart, initAfterPid tracer pid oneLine idxStart = .ok (some core) →
      core.pid = pid ∧ core.tracer = tracer := by
    intro pid idxStart h
    simp only [initAfterPid] at h
    split at h
    · cases h
    · split at h
      · exact pid_of_coreOfCall (eq_ok_of_map_some h)
      · split at h
        · exact pid_of_coreOfCall (eq_ok_of_map_some h)
        · split at h
          · cases h
            exact ⟨rfl, rfl⟩
          · cases h
  unfold parseLine at h
  rw [linePid]
  split at h
  · rename_i hpid
    rw [if_pos hpid]
    dsimp only at h
    split at h
    · cases h
    · rename_i hint
      rw [hint]
      exact hinit _ _ h
  · rename_i hpid
    rw [if_neg hpid]
    exact hinit _ _ h

/-- The variables of the loop over the lines, with the flows. -/
structure FlowLoop where
  loop : Loop
  mapFlows : MapFlows

/-- A computation on the variables of the loop only. -/
def inLoop {α : Type} (m : LoopM α) : Py PyExn FlowLoop α :=
  .zoom FlowLoop.loop (fun s l => { s with loop := l }) m

/-- A line is processed, and its batch is sent to its flow. -/
def sendLine (env : Env) (tracer : Tracer) (line : Text × ℕ) : Py PyExn FlowLoop Unit := do
  inLoop (readCore env tracer line.2 line.1)
  let oneBatch ← inLoop (nextBatch env)
  inLoop (yieldBatch oneBatch)
  .modify fun s => { s with mapFlows := sendBatch s.loop.world.store s.mapFlows oneBatch }

/-- `CreateMapFlowFromStream`, up to the factorisation of the flows. -/
def createMapFlowFromStream (env : Env) (tracer : Tracer) (logStream : List Text) :
    Py PyExn FlowLoop Unit := do
  .each (sendLine env tracer) (joinLines [] 0 logStream)
  inLoop endOfLog

/-- The loop before the first line, without flows. -/
def FlowLoop.init : FlowLoop := ⟨.init, []⟩

section
variable {env : Env} {tracer : Tracer} {line : Text × ℕ} {s s' : FlowLoop}

theorem run_inLoop {α : Type} (m : LoopM α) (s : FlowLoop) :
    (inLoop m).run s = ((m.run s.loop).1, { s with loop := (m.run s.loop).2 }) := rfl

theorem run_inLoop_eq_ok {α : Type} {m : LoopM α} {a : α} (h : (inLoop m).run s = (.ok a, s')) :
    m.run s.loop = (.ok a, s'.loop) ∧ s'.mapFlows = s.mapFlows := by
  rw [run_inLoop, Prod.mk.injEq] at h
  obtain ⟨hres, rfl⟩ := h
  exact ⟨Prod.ext hres rfl, rfl⟩

/-- The steps of a line, with the variables of the loop after it. -/
theorem run_sendLine_eq (h : (sendLine env tracer line).run s = (.ok (), s')) :
    ∃ l₁ r l₂, (readCore env tracer line.2 line.1).run s.loop = (.ok (), l₁) ∧
      (nextBatch env).run l₁ = (.ok r, l₂) ∧
      s' = ⟨{ l₂ with yielded := l₂.yielded ++ r.toList },
        sendBatch l₂.world.store s.mapFlows r⟩ := by
  rw [sendLine, Py.run_bind_eq_ok] at h
  obtain ⟨_, s₁, hread, h⟩ := h
  rw [Py.run_bind_eq_ok] at h
  obtain ⟨r, s₂, hnext, h⟩ := h
  obtain ⟨hread, hflows₁⟩ := run_inLoop_eq_ok hread
  obtain ⟨hnext, hflows₂⟩ := run_inLoop_eq_ok hnext
  cases h
  refine ⟨s₁.loop, r, s₂.loop, hread, hnext, ?_⟩
  rw [← hflows₁, ← hflows₂]
  rfl

/-- The steps of a line. -/
theorem run_sendLine (h : (sendLine env tracer line).run s = (.ok (), s')) :
    ∃ l₁ r l₂, (readCore env tracer line.2 line.1).run s.loop = (.ok (), l₁) ∧
      (nextBatch env).run l₁ = (.ok r, l₂) ∧ s'.loop.world = l₂.world ∧
      s'.mapFlows = sendBatch s'.loop.world.store s.mapFlows r := by
  obtain ⟨l₁, r, l₂, hread, hnext, rfl⟩ := run_sendLine_eq h
  exact ⟨l₁, r, l₂, hread, hnext, rfl, rfl⟩

/-- The flows of a line that is a call. -/
theorem run_sendLine_of_core {core : BatchLetCore}
    (hparse : parseLine env.topProcessId tracer line.1 = .ok (some core))
    (h : (sendLine env tracer line).run s = (.ok (), s')) :
    ∃ r, (processCore env core).run s.loop.world = (.ok r, s'.loop.world) ∧
      s'.mapFlows = sendBatch s'.loop.world.store s.mapFlows r := by
  obtain ⟨l₁, r, l₂, hread, hnext, hworld, hflows⟩ := run_sendLine h
  have hl₁ := run_readCore_of_core hparse hread
  subst hl₁
  have hcore : ((admitCore env core).run s.loop.world).2.store.core?
      (s.loop.world.store.nextId core.pid) = some core :=
    s.loop.world.store.core?_addCore_nextId core
  rw [run_nextBatch_some rfl hcore] at hnext
  obtain ⟨hres, rfl⟩ := Prod.mk.inj hnext
  exact ⟨r, Prod.ext hres hworld.symm, hflows⟩

/-- A line that is not a call: nothing changes. -/
theorem run_sendLine_of_none (hparse : parseLine env.topProcessId tracer line.1 = .ok none)
    (h : (sendLine env tracer line).run s = (.ok (), s')) :
    s'.loop.world = s.loop.world ∧ s'.mapFlows = s.mapFlows := by
  obtain ⟨l₁, r, l₂, hread, hnext, hworld, hflows⟩ := run_sendLine h
  have hl₁ := run_readCore_of_none hparse hread
  subst hl₁
  rw [run_nextBatch_none rfl] at hnext
  cases hnext
  exact ⟨hworld, hflows⟩

end

section
variable {env : Env} {logStream log₁ log₂ : List Text} {s s₁ s₂ : FlowLoop}

/-- Every line is a complete record, and can be parsed. -/
structure Regular (env : Env) (logStream : List Text) : Prop where
  ending : ∀ oneLine ∈ logStream, isLogEnding oneLine = true
  parsed : ∀ oneLine ∈ logStream, ∃ o, parseLine env.topProcessId .strace oneLine = .ok o

/-- The cores of a log whose lines are complete. -/
theorem logCores_of_ending (h : ∀ oneLine ∈ logStream, isLogEnding oneLine = true) :
    logCores env .strace logStream = logStream.filterMap (coreOf env .strace) := by
  have hcores : ∀ lines : List (Text × ℕ),
      coresOf env .strace lines = (lines.map Prod.fst).filterMap (coreOf env .strace) := by
    intro lines
    rw [List.filterMap_map]
    rfl
  rw [logCores, hcores, joinLines_of_complete h]

/-- The flows of a log are those of a run of its cores. -/
theorem flowRun_of_createMapFlow (hreg : Regular env logStream)
    (hrun : (createMapFlowFromStream env .strace logStream).run .init = (.ok (), s)) :
    ∃ w, FlowRun env (logCores env .strace logStream) w s.mapFlows ∧
      s.loop.world.store = w.store := by
  rw [createMapFlowFromStream, Py.run_bind_eq_ok] at hrun
  obtain ⟨_, s₁, heach, hend⟩ := hrun
  have hparsed : ∀ line ∈ joinLines [] 0 logStream,
      ∃ o, parseLine env.topProcessId .strace line.1 = .ok o := by
    intro line hline
    refine hreg.parsed line.1 ?_
    rw [← joinLines_of_complete hreg.ending 0]
    exact List.mem_map_of_mem hline
  have hflow : FlowRun env (logCores env .strace logStream) s₁.loop.world s₁.mapFlows := by
    refine Py.each_rule (fun l v => FlowRun env (coresOf env .strace l) v.loop.world v.mapFlows)
      .init (fun l₁ line l₂ v v' heq h hline => ?_) heach
    obtain ⟨o, ho⟩ := hparsed line (by rw [heq]; simp)
    have hone : coresOf env .strace [line] = o.toList := by
      cases o <;> simp [coresOf, coreOf, ho]
    rw [coresOf, List.filterMap_append, ← coresOf, ← coresOf, hone]
    cases o with
    | none =>
      obtain ⟨hworld, hflows⟩ := run_sendLine_of_none ho hline
      rw [hworld, hflows]
      simpa using h
    | some core =>
      obtain ⟨r, hprocess, hflows⟩ := run_sendLine_of_core ho hline
      rw [hflows]
      exact h.step (fresh_of_parseLine ho) (pid_of_parseLine ho).2 hprocess
  obtain ⟨hend, hflows⟩ := run_inLoop_eq_ok hend
  refine ⟨s₁.loop.world, hflows ▸ hflow, ?_⟩
  rw [endOfLog, Py.run_modify, Prod.mk.injEq] at hend
  rw [← hend.2]
  split <;> rfl

/-- The cores of a process are those of its lines. -/
theorem coresOfPid_filterMap (hreg : Regular env logStream) (pid : ℤ) :
    coresOfPid pid (logStream.filterMap (coreOf env .strace)) =
      (logStream.filter fun oneLine => linePid env.topProcessId oneLine = pid).filterMap
        (coreOf env .strace) := by
  have hparsed := hreg.parsed
  clear hreg
  induction logStream with
  | nil => rfl
  | cons oneLine l ih =>
    have ih := ih fun oneLine' h => hparsed oneLine' (List.mem_cons_of_mem _ h)
    obtain ⟨o, ho⟩ := hparsed oneLine List.mem_cons_self
    have hcore : coreOf env .strace oneLine = o := by simp [coreOf, ho]
    cases o with
    | none =>
      rw [List.filterMap_cons_none hcore, ih, List.filter_cons]
      split
      · rw [List.filterMap_cons_none hcore]
      · rfl
    | some core =>
      have hpid := (pid_of_parseLine ho).1
      rw [List.filterMap_cons_some hcore, coresOfPid, List.filter_cons, List.filter_cons, hpid]
      split
      · rw [List.filterMap_cons_some hcore, ← ih]
        rfl
      · exact ih

/-- What a batch stands for: the function, the significant arguments, the returned
value, the status and the number of occurrences. -/
structure BatchSummary where
  funcNam : Text
  significantArgs : List SigArg
  retValue : Option Text
  status : BatchStatus
  occurrences : ℕ
  deriving DecidableEq

/-- The summary of a batch. -/
def Batch.summary (u : UnfinishedBatches) (b : Batch) : Option BatchSummary :=
  (u.core? b.core).map fun core =>
    ⟨core.funcNam, b.significantArgs, core.retValue, core.status, b.occurrences⟩

/-- The summaries of the flow of a process, after a log. -/
def FlowLoop.summaries (s : FlowLoop) (pid : ℤ) : List (Option BatchSummary) :=
  (s.mapFlows.flow pid).map (Batch.summary s.loop.world.store)

/-- **Interleaving independence**: two logs that interleave the same lines of each
process give the same flows. -/
theorem flows_of_interleaving (hreg₁ : Regular env log₁) (hreg₂ : Regular env log₂)
    (hsame : ∀ pid, (log₁.filter fun oneLine => linePid env.topProcessId oneLine = pid) =
      log₂.filter fun oneLine => linePid env.topProcessId oneLine = pid)
    (hrun₁ : (createMapFlowFromStream env .strace log₁).run .init = (.ok (), s₁))
    (hrun₂ : (createMapFlowFromStream env .strace log₂).run .init = (.ok (), s₂)) (pid : ℤ) :
    s₁.summaries pid = s₂.summaries pid := by
  obtain ⟨w₁, hflow₁, hstore₁⟩ := flowRun_of_createMapFlow hreg₁ hrun₁
  obtain ⟨w₂, hflow₂, hstore₂⟩ := flowRun_of_createMapFlow hreg₂ hrun₂
  have hcores : coresOfPid pid (logCores env .strace log₁) =
      coresOfPid pid (logCores env .strace log₂) := by
    rw [logCores_of_ending hreg₁.ending, logCores_of_ending hreg₂.ending,
      coresOfPid_filterMap hreg₁, coresOfPid_filterMap hreg₂, hsame]
  obtain ⟨hview, hflow⟩ := sameView_of_coresOfPid hflow₁ hflow₂ hcores
  rw [FlowLoop.summaries, FlowLoop.summaries, hstore₁, hstore₂, ← hflow]
  refine List.map_congr_left fun b hb => ?_
  rw [Batch.summary, Batch.summary, hview.store.core? _ (hflow₁.pid_core pid b hb)]

end

/-! ## Two lines of two processes -/

/-- A write of the main process, and a read of its child. -/
def twoLines : Text × Text :=
  ("10:00:00.000001 write(4</a>, \"x\", 1) = 1 <0.000006>\n".toList,
    "[pid 8] 10:00:00.000002 read(3</b>, \"y\", 10) = 1 <0.000006>\n".toList)

/-- The flows of a log of the process 7. -/
def flowsOfLog (logStream : List Text) : Except PyExn Unit × FlowLoop :=
  (createMapFlowFromStream (.replayed 7 "/".toList) .strace logStream).run .init

theorem regular_of_perm {l : List Text}
    (h : ∀ oneLine ∈ l, oneLine = twoLines.1 ∨ oneLine = twoLines.2) :
    Regular (.replayed 7 "/".toList) l := by
  have hparsed : ∀ oneLine, oneLine = twoLines.1 ∨ oneLine = twoLines.2 →
      isLogEnding oneLine = true ∧ ∃ o, parseLine 7 .strace oneLine = .ok o := by
    have hok : ∀ x : Except PyExn (Option BatchLetCore),
        x.toOption.isSome = true → ∃ o, x = .ok o := by
      intro x hx
      cases x with
      | error e => cases hx
      | ok o => exact ⟨o, rfl⟩
    have hlines : ∀ oneLine ∈ [twoLines.1, twoLines.2], isLogEnding oneLine = true ∧
        (parseLine 7 .strace oneLine).toOption.isSome = true := by decide +kernel
    intro oneLine hl
    obtain ⟨hending, hsome⟩ := hlines oneLine (by simpa using hl)
    exact ⟨hending, hok _ hsome⟩
  exact ⟨fun oneLine hl => (hparsed oneLine (h oneLine hl)).1,
    fun oneLine hl => (hparsed oneLine (h oneLine hl)).2⟩

theorem flows_of_interleaving_two :
    (flowsOfLog [twoLines.1, twoLines.2]).2.summaries 8 =
      (flowsOfLog [twoLines.2, twoLines.1]).2.summaries 8 := by
  have hok : (flowsOfLog [twoLines.1, twoLines.2]).1 = .ok () ∧
      (flowsOfLog [twoLines.2, twoLines.1]).1 = .ok () := by decide +kernel
  have hrun₁ : flowsOfLog [twoLines.1, twoLines.2] =
      (.ok (), (flowsOfLog [twoLines.1, twoLines.2]).2) := Prod.ext hok.1 rfl
  have hrun₂ : flowsOfLog [twoLines.2, twoLines.1] =
      (.ok (), (flowsOfLog [twoLines.2, twoLines.1]).2) := Prod.ext hok.2 rfl
  refine flows_of_interleaving (regular_of_perm ?_) (regular_of_perm ?_) (fun pid => ?_)
    hrun₁ hrun₂ 8
  · simp
  · simp
  · have hne : linePid 7 twoLines.1 ≠ linePid 7 twoLines.2 := by decide +kernel
    change (List.filter (fun oneLine => linePid 7 oneLine = pid) _) =
      List.filter (fun oneLine => linePid 7 oneLine = pid) _
    by_cases h : linePid 7 twoLines.1 = pid <;> by_cases h' : linePid 7 twoLines.2 = pid
    · exact absurd (h.trans h'.symm) hne
    · simp [h, h']
    · simp [h, h']
    · simp [h, h']

end Survol.Dockit
