import Survol.Dockit.FailedCalls
import Survol.Dockit.LogStates

/-!
# Failed calls in a log

A line that tells the result of a call is whole, or the second half of a call. A second half gets
the arguments of the first half that is waiting for it; when none is waiting, only the model of
`vfork` is run. So a failed call is as harmless as its model on the core that it is run on.

After a line that cannot be parsed, the half that is waiting may be one that was merged already. The
second half is then jammed: it cannot be merged, and the run ends.

## Main definitions

* `UnfinishedBatches.ranCore` — the core that the model of a line is run on.
* `UnfinishedBatches.Jammed` — the second halves that cannot be merged.
* `HarmlessLine`, `RecordedLine` — what a failure and an opening should do.
* `failedCalls_iff` — the lines that do it.
-/

open PyText Py

namespace Survol.Dockit

/-- The entry of a call in the table. -/
def FallibleCall.model (call : FallibleCall) : CallModel where
  build := fun env core => call.build env core
  unfinishedIsOk := false
  resumedWithoutUnfinishedIsOk := decide (call = .vfork)
  neverSame := decide (call = .clone) || decide (call = .vfork)

theorem batchModels_fallible (call : FallibleCall) :
    batchModels (call.name ++ sysSuffix) = .model call.model := by
  cases call <;> rfl

/-- The core that the model of a line is run on, if it is run. -/
def UnfinishedBatches.ranCore (u : UnfinishedBatches) (call : FallibleCall)
    (core : BatchLetCore) : Option BatchLetCore :=
  match core.status with
  | .unfinished => none
  | .resumed =>
    match (u.stack core.pid core.funcNam).getLast? with
    | some i => (u.core? i).map fun a =>
        { core with parsedArgs := a.parsedArgs ++ core.parsedArgs, status := .merged,
                    unfinishedBatch := some i }
    | none => if call = .vfork then some core else none
  | _ => some core

/-- The half that waits for a second half is not unfinished any more. -/
def UnfinishedBatches.Jammed (u : UnfinishedBatches) (core : BatchLetCore) : Prop :=
  core.status = .resumed ∧ ∃ i a, (u.stack core.pid core.funcNam).getLast? = some i ∧
    u.core? i = some a ∧ a.status ≠ .unfinished

section
variable (env : Env) (tracer : Tracer) (s : Loop) (line : Text × ℕ)

/-- A line is processed without an exception, and harms nothing. -/
def HarmlessLine (pid : ℤ) : Prop :=
  ∃ s', (processLine env tracer line).run s = (.ok (), s') ∧
    Unharmed pid s.world.objects s'.world.objects

/-- A line is processed without an exception, and the opening of the file that it tells is
recorded. -/
def RecordedLine (core : BatchLetCore) (retValue : Text) (call : FallibleCall) : Prop :=
  ∃ c path name s', s.world.store.ranCore call core = some c ∧ TellsPath c retValue call path ∧
    acceptedFile (s.world.objects.admitted env core) c path = some name ∧
    (processLine env tracer line).run s = (.ok (), s') ∧
    OpenedOnce s.world.objects s'.world.objects core.pid name

end

section
variable {env : Env} {w w' : World} {core c : BatchLetCore} {call : FallibleCall} {retValue : Text}

/-- The model is run with the process, the tracer and the result of the line. -/
theorem ranCore_eq_some {u : UnfinishedBatches} (h : u.ranCore call core = some c) :
    c.pid = core.pid ∧ c.tracer = core.tracer ∧ c.retValue = core.retValue := by
  unfold UnfinishedBatches.ranCore at h
  split at h
  · cases h
  · split at h
    · obtain ⟨a, -, rfl⟩ := Option.map_eq_some_iff.mp h
      exact ⟨rfl, rfl, rfl⟩
    · split at h
      · cases h
        exact ⟨rfl, rfl, rfl⟩
      · cases h
  · cases h
    exact ⟨rfl, rfl, rfl⟩

/-- A `vfork` whose result is known raises no attribute error. -/
theorem run_vfork_error {o o' : Objects} {e : PyExn} (hret : core.retValue = some retValue)
    (h : (batchLetSysVfork env core).run o = (.error e, o')) : isAttributeError e = false := by
  have hint : ∀ f, (retInt core f).run o = (.error PyExn.valueError, o) ∨
      ∃ p, (retInt core f).run o = (.ok p, o) := by
    intro f
    rw [retInt, hret]
    dsimp only
    cases f retValue with
    | none => exact .inl rfl
    | some p => exact .inr ⟨p, rfl⟩
  have hconv : (convertBatchCoreRetValue core).run o = (.error PyExn.valueError, o) ∨
      ∃ p, (convertBatchCoreRetValue core).run o = (.ok p, o) := by
    rw [convertBatchCoreRetValue]
    cases core.tracer <;> exact hint _
  rw [batchLetSysVfork] at h
  rcases hconv with hconv | ⟨p, hconv⟩
  · rw [run_bind_of_error hconv] at h
    cases h
    rfl
  · rw [run_bind_of_ok hconv] at h
    rcases @run_newChild_cases env core o p false with ⟨-, o'', hrun⟩ | ⟨-, o'', hrun, -⟩ <;>
      cases hrun.symm.trans h
    rfl

/-- The model that is run alone, for its effects only. -/
theorem run_lone_iff {id : CoreId} {P : Objects → Prop} (hret : core.retValue = some retValue)
    (hcore : w.store.core? id = some core) :
    (∃ u w', ((if call.model.resumedWithoutUnfinishedIsOk then
        .catching isAttributeError ((fun _ => ()) <$> buildModel env call.model id) (pure ())
      else pure () : WorldM Unit)).run w = (.ok u, w') ∧ P w'.objects) ↔
      if call = .vfork then ∃ x o', (call.build env core).run w.objects = (.ok x, o') ∧ P o'
      else P w.objects := by
  by_cases hcall : call = .vfork
  · subst hcall
    rw [if_pos (show FallibleCall.vfork.model.resumedWithoutUnfinishedIsOk = true from rfl),
      if_pos rfl]
    simp only [catching, run_map, run_buildModel hcore]
    cases hrun : (batchLetSysVfork env core).run w.objects with
    | mk x o' =>
      have hbuild : (FallibleCall.vfork.model.build env core).run w.objects = (x, o') := hrun
      rw [hbuild]
      cases x with
      | error e =>
        have he := run_vfork_error hret hrun
        refine iff_of_false ?_ ?_
        · rintro ⟨u, w', h, -⟩
          simp only [Except.map, he] at h
          cases h
        · rintro ⟨x, o'', h, -⟩
          cases hrun.symm.trans h
      | ok x =>
        constructor
        · rintro ⟨u, w', h, hP⟩
          cases h
          exact ⟨x, o', hrun, hP⟩
        · rintro ⟨x', o'', h, hP⟩
          cases hrun.symm.trans h
          exact ⟨(), _, rfl, hP⟩
  · rw [if_neg hcall, if_neg (by simp [FallibleCall.model, hcall])]
    constructor
    · rintro ⟨u, w', h, hP⟩
      cases h
      exact hP
    · exact fun hP => ⟨(), w, rfl, hP⟩

/-- What a model leaves in the objects. -/
theorem run_buildModel_iff {id : CoreId} {P : Objects → Prop} (hcore : w.store.core? id = some c) :
    (∃ r w', (buildModel env call.model id).run w = (.ok r, w') ∧ P w'.objects) ↔
      ∃ x o', (call.build env c).run w.objects = (.ok x, o') ∧ P o' := by
  rw [run_buildModel hcore]
  cases hrun : (call.build env c).run w.objects with
  | mk x o' =>
    have hbuild : (call.model.build env c).run w.objects = (x, o') := hrun
    rw [hbuild]
    cases x with
    | error e =>
      refine iff_of_false ?_ ?_
      · rintro ⟨r, w', h, -⟩
        cases h
      · rintro ⟨x, o'', h, -⟩
        cases h
    | ok x =>
      constructor
      · rintro ⟨r, w', h, hP⟩
        cases h
        exact ⟨x, o', rfl, hP⟩
      · rintro ⟨x', o'', h, hP⟩
        cases h
        exact ⟨_, _, rfl, hP⟩

/-- An unfinished call is kept for later. -/
theorem run_unfinishedBatchLet_iff {P : Objects → Prop} :
    (∃ r w', (unfinishedBatchLet env call.model (w.store.nextId core.pid)).run
        (w.admitted env core) = (.ok r, w') ∧ P w'.objects) ↔ P (w.objects.admitted env core) := by
  rw [unfinishedBatchLet, run_onStore_coreAt_bind (w.store.core?_addCore_nextId core)]
  have hrun : (do
      onStore (pushBatch (w.store.nextId core.pid))
      return some (batchLetBase (w.store.nextId core.pid) core) : WorldM (Option Batch)).run
        (w.admitted env core) = (.ok (some (batchLetBase (w.store.nextId core.pid) core)),
          { w.admitted env core with store := w.store.pushed core }) := by
    have hpush : (pushBatch (w.store.nextId core.pid)).run (w.admitted env core).store =
      (.ok (), w.store.pushed core) := run_pushBatch
    rw [run_bind, run_onStore, hpush]
    rfl
  constructor
  · rintro ⟨r, w', h, hP⟩
    cases hrun.symm.trans h
    exact hP
  · exact fun hP => ⟨_, _, hrun, hP⟩

/-- A jammed half is not merged. -/
theorem run_mergePopBatch_of_jammed (hknown : StacksKnown w.store)
    (hjammed : w.store.Jammed core) :
    ∃ e u, (mergePopBatch (w.store.nextId core.pid)).run (w.store.addCore core) = (.error e, u) := by
  obtain ⟨-, i, a, hlast, hi, hstatus⟩ := hjammed
  obtain ⟨a', hi', -, hname⟩ := hknown _ _ i (List.mem_of_getLast? hlast)
  cases hi'.symm.trans hi
  have hcore := w.store.core?_addCore_nextId core
  rw [mergePopBatch, run_coreAt_bind hcore, run_get_bind, UnfinishedBatches.stack_addCore]
  split
  · rename_i hnil
    simp [hnil] at hlast
  · rename_i c l hl
    simp only [hl, List.getLast?_eq_some_getLast (List.cons_ne_nil c l), Option.some.injEq]
      at hlast
    have hadd := UnfinishedBatches.core?_addCore_of_some core hi
    rw [run_modify_bind, hlast]
    generalize hu : (w.store.addCore core).setStack core.pid core.funcNam (c :: l).dropLast = u
    have hiu : u.core? i = some a := by
      rw [← hu, UnfinishedBatches.core?_setStack]
      exact hadd
    have hju : u.core? (w.store.nextId core.pid) = some core := by
      rw [← hu, UnfinishedBatches.core?_setStack]
      exact hcore
    have hmerge : (mergeHalves i (w.store.nextId core.pid)).run u =
        (.error (statusNotPlain "Unfinished".toList a.status),
          u.updateCore (w.store.nextId core.pid)
            fun c => { c with parsedArgs := a.parsedArgs ++ core.parsedArgs }) := by
      rw [mergeHalves, run_coreAt_bind hiu, run_coreAt_bind hju, if_neg (not_not.mpr hname)]
      simp only [Survol.Dockit.updateCore, run_modify_bind, if_pos hstatus]
      rfl
    exact ⟨_, _, run_bind_of_error hmerge _⟩

/-- A half that is not jammed can be merged with the one that waits for it. -/
theorem mergeable_of_not_jammed (hknown : StacksKnown w.store) (hs : core.status = .resumed)
    (hjammed : ¬ w.store.Jammed core) {i : CoreId}
    (hlast : (w.store.stack core.pid core.funcNam).getLast? = some i) :
    ∃ a, w.store.core? i = some a ∧
      (w.store.addCore core).Mergeable i (w.store.nextId core.pid) a core := by
  obtain ⟨a, hi, hpid, hname⟩ := hknown _ _ i (List.mem_of_getLast? hlast)
  have hunfinished : a.status = .unfinished := by
    by_contra hstatus
    exact hjammed ⟨hs, i, a, hlast, hi, hstatus⟩
  exact ⟨a, hi, UnfinishedBatches.core?_addCore_of_some core hi,
    w.store.core?_addCore_nextId core, hunfinished, hs, hpid, hname,
    (w.store.stack_addCore core core.pid core.funcNam).symm ▸ hlast⟩

/-- A resumed call is run with the arguments of the first half that is waiting for it. -/
theorem run_resumedBatchLet_iff (hknown : StacksKnown w.store) (hjammed : ¬ w.store.Jammed core)
    (hs : core.status = .resumed) (hret : core.retValue = some retValue) {P : Objects → Prop} :
    (∃ r w', (resumedBatchLet env call.model (w.store.nextId core.pid)).run
        (w.admitted env core) = (.ok r, w') ∧ P w'.objects) ↔
      match w.store.ranCore call core with
      | none => P (w.objects.admitted env core)
      | some c => ∃ x o', (call.build env c).run (w.objects.admitted env core) = (.ok x, o') ∧
          P o' := by
  have hcore : (w.admitted env core).store.core? (w.store.nextId core.pid) = some core :=
    w.store.core?_addCore_nextId core
  rw [resumedBatchLet, UnfinishedBatches.ranCore, hs]
  cases hlast : (w.store.stack core.pid core.funcNam).getLast? with
  | none =>
    have hnil : (w.admitted env core).store.stack core.pid core.funcNam = [] :=
      List.getLast?_eq_none_iff.mp hlast
    have hpop : (onStore (mergePopBatch (w.store.nextId core.pid))).run (w.admitted env core) =
        (.ok none, w.admitted env core) := by
      rw [run_onStore, UnfinishedBatches.run_mergePopBatch_nil hcore hnil]
    rw [run_bind_of_ok hpop]
    dsimp only
    rw [run_onStore_coreAt_bind hcore]
    have hlone := @run_lone_iff env _ core call retValue _ P hret hcore
    have hrest : ∀ {X : WorldM Unit} {b : Option Batch},
        (∃ r w', (X >>= fun _ => pure b).run (w.admitted env core) = (.ok r, w') ∧
          P w'.objects) ↔ ∃ u w', X.run (w.admitted env core) = (.ok u, w') ∧ P w'.objects := by
      intro X b
      constructor
      · rintro ⟨r, w', h, hP⟩
        obtain ⟨u, w₁, hX, h⟩ := run_bind_eq_ok.mp h
        cases h
        exact ⟨u, _, hX, hP⟩
      · rintro ⟨u, w', hX, hP⟩
        exact ⟨b, w', run_bind_of_ok hX _, hP⟩
    refine hrest.trans (hlone.trans ?_)
    split <;> rfl
  | some i =>
    obtain ⟨a, hi, hm⟩ := mergeable_of_not_jammed hknown hs hjammed hlast
    obtain ⟨u', hpop, hu'⟩ := UnfinishedBatches.run_mergePopBatch hm
    have hpop' : (onStore (mergePopBatch (w.store.nextId core.pid))).run (w.admitted env core) =
        (.ok (some (w.store.nextId core.pid)), { w.admitted env core with store := u' }) := by
      rw [run_onStore, show (w.admitted env core).store = w.store.addCore core from rfl, hpop]
    rw [run_bind_of_ok hpop']
    dsimp only
    simp only [hi]
    exact run_buildModel_iff hu'.core?_right

/-- The factory on a core of one of the calls. -/
theorem run_processCore_fallible (hname : core.funcNam = call.name ++ sysSuffix) :
    (processCore env core).run w =
      (match core.status with
        | .unfinished => unfinishedBatchLet env call.model (w.store.nextId core.pid)
        | .resumed => resumedBatchLet env call.model (w.store.nextId core.pid)
        | _ => buildModel env call.model (w.store.nextId core.pid)).run (w.admitted env core) := by
  have hcore : (w.admitted env core).store.core? (w.store.nextId core.pid) = some core :=
    w.store.core?_addCore_nextId core
  have hmodel : batchModels core.funcNam = .model call.model := by
    rw [hname, batchModels_fallible]
  rw [processCore, run_bind, run_admitCore_eq]
  dsimp only
  rewrite [batchLetFactory, run_onStore_coreAt_bind hcore, hmodel]
  rfl

/-- A jammed half ends the run. -/
theorem not_processed_of_jammed (hknown : StacksKnown w.store) (hjammed : w.store.Jammed core)
    (hname : core.funcNam = call.name ++ sysSuffix) {r : Option Batch} :
    (processCore env core).run w ≠ (.ok r, w') := by
  intro h
  obtain ⟨e, u, hpop⟩ := run_mergePopBatch_of_jammed hknown hjammed
  have hpop' : (onStore (mergePopBatch (w.store.nextId core.pid))).run (w.admitted env core) =
      (.error e, { w.admitted env core with store := u }) := by
    rw [run_onStore, show (w.admitted env core).store = w.store.addCore core from rfl, hpop]
  rw [run_processCore_fallible hname, hjammed.1] at h
  dsimp only at h
  rw [resumedBatchLet, run_bind_of_error hpop'] at h
  cases h

/-- **What a line leaves in the objects** is what its model leaves, on the core that it is
run on. -/
theorem run_processCore_iff (hknown : StacksKnown w.store) (hjammed : ¬ w.store.Jammed core)
    (hfresh : FreshCore core) (hname : core.funcNam = call.name ++ sysSuffix)
    (hret : core.retValue = some retValue) (P : Objects → Prop) :
    (∃ r w', (processCore env core).run w = (.ok r, w') ∧ P w'.objects) ↔
      match w.store.ranCore call core with
      | none => P (w.objects.admitted env core)
      | some c => ∃ x o', (call.build env c).run (w.objects.admitted env core) = (.ok x, o') ∧
          P o' := by
  rw [run_processCore_fallible hname]
  rcases hfresh.status with hs | hs | hs
  · simp only [UnfinishedBatches.ranCore, hs]
    exact run_buildModel_iff (w.store.core?_addCore_nextId core)
  · simp only [UnfinishedBatches.ranCore, hs]
    exact run_unfinishedBatchLet_iff
  · simp only [hs]
    exact run_resumedBatchLet_iff hknown hjammed hs hret

/-! ## Lines -/

theorem keys_admitted (env : Env) (core : BatchLetCore) (o : Objects) (p : ℤ) :
    p ∈ (o.admitted env core).processes.keys ↔ p = core.pid ∨ p ∈ o.processes.keys := by
  have hkeys : (o.admitted env core).processes.keys = (o.toProcess env core.pid).processes.keys :=
    Dict.keys_update _ _ _
  rw [hkeys, ← Objects.keys_links, Objects.links_toProcess, Links.mem_keys_appear,
    Objects.keys_links]

theorem fileAccesses_admitted (env : Env) (core : BatchLetCore) (o : Objects) :
    (o.admitted env core).fileAccesses = o.fileAccesses :=
  (sameAccesses_toProcess env o core.pid).accesses

theorem mapFilDes_admitted (env : Env) (core : BatchLetCore) (o : Objects) :
    (o.admitted env core).mapFilDesToPathName = o.mapFilDesToPathName :=
  mapFilDes_toProcess o

/-- The process of a line is there when it is processed. -/
theorem unharmed_admitted_iff {o o' : Objects} :
    Unharmed core.pid (o.admitted env core) o' ↔ Unharmed core.pid o o' := by
  constructor
  · intro h
    refine ⟨h.bytes.trans (by rw [fileAccesses_admitted]),
      h.mapFilDes.trans (mapFilDes_admitted env core o), fun p hp => ?_⟩
    rcases h.processes p hp with hp | hp
    · rw [keys_admitted] at hp
      exact hp.symm
    · exact .inr hp
  · intro h
    refine ⟨h.bytes.trans (by rw [fileAccesses_admitted]),
      h.mapFilDes.trans (mapFilDes_admitted env core o).symm, fun p hp => ?_⟩
    rw [keys_admitted]
    exact (h.processes p hp).imp_left .inr

theorem openedOnce_admitted_iff {o o' : Objects} {pid : ℤ} {name : Text} :
    OpenedOnce (o.admitted env core) o' pid name ↔ OpenedOnce o o' pid name := by
  rw [OpenedOnce, OpenedOnce, fileAccesses_admitted]

/-- A line that is a call does to the objects what its core does. -/
theorem run_processLine_iff {tracer : Tracer} {s : Loop} {line : Text × ℕ}
    (hparse : parseLine env.topProcessId tracer line.1 = .ok (some core)) (P : Objects → Prop) :
    (∃ s', (processLine env tracer line).run s = (.ok (), s') ∧ P s'.world.objects) ↔
      ∃ r w', (processCore env core).run s.world = (.ok r, w') ∧ P w'.objects := by
  constructor
  · rintro ⟨s', hrun, hP⟩
    obtain ⟨r, hprocess, -⟩ := run_processLine_of_core hparse hrun
    exact ⟨r, _, hprocess, hP⟩
  · rintro ⟨r, w', hprocess, hP⟩
    have hcreate : (createBatchCore env tracer line.1).run s.world =
        (.ok (some (s.world.store.nextId core.pid)), s.world.admitted env core) := by
      rw [createBatchCore, hparse]
      rfl
    have hread : (readCore env tracer line.2 line.1).run s = (.ok (),
        { s with world := s.world.admitted env core
                 batchCore := some (s.world.store.nextId core.pid) }) := by
      simp only [readCore, catching, run_bind, run_inWorld, hcreate, run_modify]
    rw [processCore, run_bind, run_admitCore_eq] at hprocess
    have hnext := @run_nextBatch_some env
      { s with world := s.world.admitted env core
               batchCore := some (s.world.store.nextId core.pid) } _ core rfl
      (s.world.store.core?_addCore_nextId core)
    rw [show (batchLetFactory env (s.world.store.nextId core.pid)).run (s.world.admitted env core) =
      (.ok r, w') from hprocess] at hnext
    refine ⟨{ world := w', batchCore := some (s.world.store.nextId core.pid),
              lastTimeStamp := core.timeEnd, yielded := s.yielded ++ r.toList }, ?_, hP⟩
    rw [processLine, run_bind_of_ok hread, run_bind_of_ok hnext]
    rfl

/-- **A failed call is harmless when it is not jammed, and its model is not run or spares what it
should.** -/
theorem harmlessLine_iff {tracer : Tracer} {s : Loop} {line : Text × ℕ} (hsound : SoundLoop env s)
    (hparse : parseLine env.topProcessId tracer line.1 = .ok (some core))
    (hname : core.funcNam = call.name ++ sysSuffix) (hret : core.retValue = some retValue)
    (hfailure : IsFailure core.tracer retValue) :
    HarmlessLine env tracer s line core.pid ↔ ¬ s.world.store.Jammed core ∧
      ∀ c, s.world.store.ranCore call core = some c →
        Spared (s.world.objects.admitted env core) c retValue call := by
  have hline : HarmlessLine env tracer s line core.pid ↔ _ :=
    run_processLine_iff hparse (Unharmed core.pid s.world.objects)
  simp only [← @unharmed_admitted_iff env core s.world.objects] at hline
  rw [hline]
  by_cases hjammed : s.world.store.Jammed core
  · refine iff_of_false ?_ fun h => h.1 hjammed
    rintro ⟨r, w', hrun, -⟩
    exact not_processed_of_jammed hsound.known hjammed hname hrun
  rw [run_processCore_iff hsound.known hjammed (fresh_of_parseLine hparse) hname hret
    (Unharmed core.pid (s.world.objects.admitted env core)), and_iff_right hjammed]
  cases hran : s.world.store.ranCore call core with
  | none => exact iff_of_true (.refl _ _) nofun
  | some c =>
    obtain ⟨hpid, htracer, hret'⟩ := ranCore_eq_some hran
    have hbuild := @harmless_build_iff env c _ retValue call (hret'.trans hret) (htracer ▸ hfailure)
      (hpid ▸ (keys_admitted env core s.world.objects core.pid).mpr (.inl rfl))
      (keepsCache_admitted core hsound.cached)
    rw [Harmless, hpid] at hbuild
    simpa only [Option.some.injEq, forall_eq'] using hbuild

/-- **An opening is recorded when it is not jammed, its model is run and does not take it for a
failure**, and the path that the model takes leads to the file that the line tells. -/
theorem recordedLine_iff {tracer : Tracer} {s : Loop} {line : Text × ℕ} (hsound : SoundLoop env s)
    (hparse : parseLine env.topProcessId tracer line.1 = .ok (some core))
    (hname : core.funcNam = call.name ++ sysSuffix) (hret : core.retValue = some retValue)
    (hcall : call.Opens) :
    RecordedLine env tracer s line core retValue call ↔ ¬ s.world.store.Jammed core ∧
      ∃ c path name, s.world.store.ranCore call core = some c ∧ TellsPath c retValue call path ∧
        acceptedFile (s.world.objects.admitted env core) c path = some name ∧
        ¬ TakenForFailure core.tracer retValue call ∧
        (givenPath (s.world.objects.admitted env core) c retValue call).bind
          (acceptedFile (s.world.objects.admitted env core) c) = some name := by
  have hrecords : ∀ c name, s.world.store.ranCore call core = some c →
      ¬ s.world.store.Jammed core →
      ((∃ s', (processLine env tracer line).run s = (.ok (), s') ∧
          OpenedOnce s.world.objects s'.world.objects core.pid name) ↔
        ¬ TakenForFailure core.tracer retValue call ∧
          (givenPath (s.world.objects.admitted env core) c retValue call).bind
            (acceptedFile (s.world.objects.admitted env core) c) = some name) := by
    intro c name hran hjammed
    obtain ⟨hpid, htracer, hret'⟩ := ranCore_eq_some hran
    have hbuild := @records_build_iff env c _ retValue call hcall (hret'.trans hret)
      (hpid ▸ (keys_admitted env core s.world.objects core.pid).mpr (.inl rfl))
      (keepsCache_admitted core hsound.cached) name
    have hrun := @run_processCore_iff env _ core call retValue hsound.known hjammed
      (fresh_of_parseLine hparse) hname hret
      fun o' => OpenedOnce (s.world.objects.admitted env core) o' core.pid name
    rw [hran] at hrun
    rw [Records, hpid, htracer] at hbuild
    refine (run_processLine_iff hparse (OpenedOnce s.world.objects · core.pid name)).trans ?_
    simp only [← @openedOnce_admitted_iff env core s.world.objects]
    exact hrun.trans hbuild
  have hjam : s.world.store.Jammed core → ∀ s',
      (processLine env tracer line).run s ≠ (.ok (), s') := by
    intro hjammed s' hrun
    obtain ⟨r, hprocess, -⟩ := run_processLine_of_core hparse hrun
    exact not_processed_of_jammed hsound.known hjammed hname hprocess
  constructor
  · rintro ⟨c, path, name, s', hran, htells, haccepted, hrun, hopened⟩
    have hjammed := fun h => hjam h s' hrun
    exact ⟨hjammed, c, path, name, hran, htells, haccepted,
      (hrecords c name hran hjammed).mp ⟨s', hrun, hopened⟩⟩
  · rintro ⟨hjammed, c, path, name, hran, htells, haccepted, hcond⟩
    obtain ⟨s', hrun, hopened⟩ := (hrecords c name hran hjammed).mpr hcond
    exact ⟨c, path, name, s', hran, htells, haccepted, hrun, hopened⟩

end

/-- **Failures and openings in a log.** In every state that some lines reach, parsed or not, a line
does what it should when it is not jammed, its model spares what a failure should leave alone, and
takes the path of an opening. -/
theorem failedCalls_iff {env : Env} {tracer : Tracer} {pre : List (Text × ℕ)} {line : Text × ℕ}
    {s : Loop} {retValue : Text} {core : BatchLetCore}
    (hpre : (Py.each (processLine env tracer) pre).run .init = (.ok (), s))
    (hparse : parseLine env.topProcessId tracer line.1 = .ok (some core)) (call : FallibleCall)
    (hname : core.funcNam = call.name ++ sysSuffix) (hret : core.retValue = some retValue) :
    ((IsFailure core.tracer retValue → HarmlessLine env tracer s line core.pid) ∧
        (call.Opens → IsDescriptor retValue →
          RecordedLine env tracer s line core retValue call)) ↔
      (IsFailure core.tracer retValue → ¬ s.world.store.Jammed core ∧
          ∀ c, s.world.store.ranCore call core = some c →
            Spared (s.world.objects.admitted env core) c retValue call) ∧
        (call.Opens → IsDescriptor retValue → ¬ s.world.store.Jammed core ∧
          ∃ c path name, s.world.store.ranCore call core = some c ∧
            TellsPath c retValue call path ∧
            acceptedFile (s.world.objects.admitted env core) c path = some name ∧
            ¬ TakenForFailure core.tracer retValue call ∧
            (givenPath (s.world.objects.admitted env core) c retValue call).bind
              (acceptedFile (s.world.objects.admitted env core) c) = some name) := by
  have hsound : SoundLoop env s := soundLoop_of_lines hpre
  refine and_congr (imp_congr_right fun hfailure => ?_) (imp_congr_right fun hcall =>
    imp_congr_right fun _ => ?_)
  · exact harmlessLine_iff hsound hparse hname hret hfailure
  · exact recordedLine_iff hsound hparse hname hret hcall

/-- A line that cannot be parsed, after a file was opened and an unfinished `read`. -/
def openedLines : List (Text × ℕ) :=
  [("10:00:00.000001 open(\"/tmp/a\", O_RDONLY) = 3</tmp/a> <0.000006>\n".toList, 1),
    ("10:00:00.000002 read(3</tmp/a>,  <unfinished ...>\n".toList, 3),
    ("no call\n".toList, 4)]

/-- The state after them. -/
def afterOpening : Loop :=
  ((Py.each (processLine (.replayed 7 "/".toList) .strace) openedLines).run .init).2

theorem run_openedLines :
    (Py.each (processLine (.replayed 7 "/".toList) .strace) openedLines).run .init =
      (.ok (), afterOpening) :=
  Prod.ext (by rfl) rfl

/-- A `read` that fails. -/
def failedRead : Text :=
  "10:00:00.000003 read(3</tmp/a>, 16) = -1 EBADF (Bad file descriptor) <0.000006>\n".toList

/-- What it returns. -/
def failedReadResult : Text := "-1 EBADF (Bad file descriptor)".toList

/-- The core of the failed `read`. -/
def failedReadCore : BatchLetCore :=
  { vforkCore .plain with
    funcNam := "read@SYS".toList
    parsedArgs := [.str "3</tmp/a>".toList, .str "16".toList]
    timeStart := "10:00:00.000003".toList
    timeEnd := "10:00:00.000003".toList
    retValue := some failedReadResult }

theorem parseLine_failedRead : parseLine 7 .strace failedRead = .ok (some failedReadCore) := by
  rfl

/-- A second file that is opened. -/
def secondOpen : Text :=
  "10:00:00.000003 open(\"/tmp/b\", O_RDONLY) = 4</tmp/b> <0.000006>\n".toList

/-- What it returns. -/
def secondOpenResult : Text := "4</tmp/b>".toList

/-- The core of the second opening. -/
def secondOpenCore : BatchLetCore :=
  { failedReadCore with
    funcNam := "open@SYS".toList
    parsedArgs := [.str "/tmp/b".toList, .str "O_RDONLY".toList]
    retValue := some secondOpenResult }

theorem parseLine_secondOpen : parseLine 7 .strace secondOpen = .ok (some secondOpenCore) := by
  rfl

theorem failedCalls_afterOpening :
    ((IsFailure .strace failedReadResult →
          HarmlessLine (.replayed 7 "/".toList) .strace afterOpening (failedRead, 5) 7) ∧
        (FallibleCall.read.Opens → IsDescriptor failedReadResult →
          RecordedLine (.replayed 7 "/".toList) .strace afterOpening (failedRead, 5)
            failedReadCore failedReadResult .read)) ∧
      (IsFailure .strace secondOpenResult →
          HarmlessLine (.replayed 7 "/".toList) .strace afterOpening (secondOpen, 5) 7) ∧
        (FallibleCall.opens.Opens → IsDescriptor secondOpenResult →
          RecordedLine (.replayed 7 "/".toList) .strace afterOpening (secondOpen, 5)
            secondOpenCore secondOpenResult .opens) := by
  constructor
  · refine (@failedCalls_iff _ _ _ (failedRead, 5) _ _ _ run_openedLines parseLine_failedRead .read
      rfl rfl).mpr
      ⟨fun _ => ⟨fun h => absurd h.1 (by decide), fun c hc => ?_⟩, fun h => h.elim⟩
    cases hc
    rfl
  · refine (@failedCalls_iff _ _ _ (secondOpen, 5) _ _ _ run_openedLines parseLine_secondOpen .opens
      rfl rfl).mpr
      ⟨?_, fun _ _ => ⟨fun h => absurd h.1 (by decide), secondOpenCore, "/tmp/b".toList,
        "/tmp/b".toList, rfl, .printed (n := 4) rfl, by rfl,
        show ¬ invalidReturnedFileDescriptor secondOpenResult .strace = true by decide, by rfl⟩⟩
    rintro ⟨error, message, h⟩
    cases h

/-! ## A creation that fails -/

/-- A `vfork` that fails. -/
def failedVfork : Text :=
  "10:00:00.000001 vfork() = -1 EAGAIN (Resource temporarily unavailable) <0.000006>\n".toList

/-- What it returns. -/
def failedVforkResult : Text := "-1 EAGAIN (Resource temporarily unavailable)".toList

/-- The core of the failed `vfork`. -/
def failedVforkCore : BatchLetCore :=
  { vforkCore .plain with retValue := some failedVforkResult }

theorem parseLine_failedVfork :
    parseLine 7 .strace failedVfork = .ok (some failedVforkCore) := by
  rfl

theorem isFailure_failedVfork : IsFailure failedVforkCore.tracer failedVforkResult :=
  ⟨"AGAIN".toList, "Resource temporarily unavailable".toList, rfl⟩

/-- The conversion of the result of a failed `vfork` is not guarded. -/
theorem not_forall_failedCalls :
    ¬ ∀ (env : Env) (tracer : Tracer) (pre : List (Text × ℕ)) (line : Text × ℕ) (s : Loop)
      (retValue : Text) (core : BatchLetCore) (call : FallibleCall),
      (Py.each (processLine env tracer) pre).run .init = (.ok (), s) →
      parseLine env.topProcessId tracer line.1 = .ok (some core) →
      core.funcNam = call.name ++ sysSuffix → core.retValue = some retValue →
      (IsFailure core.tracer retValue → HarmlessLine env tracer s line core.pid) ∧
        (call.Opens → IsDescriptor retValue →
          RecordedLine env tracer s line core retValue call) := by
  intro h
  have hharmless := (h (.replayed 7 "/".toList) .strace [] (failedVfork, 1) .init failedVforkResult
    failedVforkCore .vfork rfl parseLine_failedVfork rfl rfl).1 isFailure_failedVfork
  have hspared := ((@harmlessLine_iff (.replayed 7 "/".toList) failedVforkCore .vfork failedVforkResult
    .strace .init (failedVfork, 1) soundLoop_init parseLine_failedVfork rfl rfl
    isFailure_failedVfork).mp hharmless).2 failedVforkCore rfl
  cases hspared.1

end Survol.Dockit
