import Survol.Dockit.LinkRuns

/-!
# Runs of cores

A log whose lines can all be parsed processes its cores one after the other. The
length of a stack is then known from the cores only: it is the number of unfinished
halves that still wait.

## Main definitions

* `Processed` — the worlds reached by a list of cores.
* `logCores` — the cores of a log, with `processed_of_readLog`.
* `pending` — the number of halves that wait, with `Processed.length_stack`.
* `Ran` — a call whose model is run with all its arguments.
-/

open PyText

namespace Survol.Dockit

/-- The world reached by processing a list of cores, when nothing is raised. -/
inductive Processed (env : Env) : List BatchLetCore → World → Prop
  | init : Processed env [] World.init
  | step {l : List BatchLetCore} {core : BatchLetCore} {w w' : World} {r : Option Batch}
      (h : Processed env l w) (hfresh : FreshCore core)
      (hrun : (processCore env core).run w = (.ok r, w')) : Processed env (l ++ [core]) w'

/-! ## The cores of a log -/

/-- The cores of a log. -/
def logCores (env : Env) (tracer : Tracer) (logStream : List Text) : List BatchLetCore :=
  coresOf env tracer (joinLines [] 0 logStream)

/-- Every line of a log can be parsed. -/
def AllParsed (env : Env) (tracer : Tracer) (logStream : List Text) : Prop :=
  ∀ line ∈ joinLines [] 0 logStream, ∃ core, parseLine env.topProcessId tracer line.1 = .ok core

section
variable {env : Env} {tracer : Tracer}

theorem processed_of_run {line : Text × ℕ} {o : Option BatchLetCore} {l : List BatchLetCore}
    {s s' : Loop} (hparse : parseLine env.topProcessId tracer line.1 = .ok o)
    (h : Processed env l s.world) (hrun : (processLine env tracer line).run s = (.ok (), s')) :
    Processed env (l ++ o.toList) s'.world := by
  cases o with
  | some core =>
    obtain ⟨r, hprocess, -⟩ := run_processLine_of_core hparse hrun
    exact h.step (fresh_of_parseLine hparse) hprocess
  | none =>
    obtain ⟨s₁, r, s₂, hread, hnext, rfl⟩ := run_processLine hrun
    obtain rfl := run_readCore_of_none hparse hread
    rw [run_nextBatch_none rfl] at hnext
    cases hnext
    simpa using h

/-- A log processes its cores. -/
theorem processed_of_readLog {logStream : List Text} {s : Loop}
    (hparsed : AllParsed env tracer logStream)
    (hrun : readLog env tracer logStream = (.ok (), s)) :
    Processed env (logCores env tracer logStream) s.world := by
  refine run_rule (P := fun l v => Processed env (coresOf env tracer l) v.world) .init ?_ hrun
  intro l₁ line l₂ v v' heq _ h hline
  obtain ⟨o, ho⟩ := hparsed line (by rw [heq]; simp)
  have hone : coresOf env tracer [line] = o.toList := by
    cases o <;> simp [coresOf, coreOf, ho]
  rw [coresOf, List.filterMap_append, ← coresOf, ← coresOf, hone]
  exact processed_of_run ho h hline

end

/-! ## The halves that wait -/

/-- The number of unfinished halves after one more core. -/
def nextPending (pid : ℤ) (funcNam : Text) (n : ℕ) (core : BatchLetCore) : ℕ :=
  if core.pid = pid ∧ core.funcNam = funcNam then
    match core.status with
    | .unfinished => n + 1
    | .resumed => n - 1
    | _ => n
  else n

/-- The number of unfinished halves of a process and a function that still wait. -/
def pending (pid : ℤ) (funcNam : Text) (l : List BatchLetCore) : ℕ :=
  l.foldl (nextPending pid funcNam) 0

/-- A call on one line, or a second half whose first half still waits. -/
def Ran (l : List BatchLetCore) (core : BatchLetCore) : Prop :=
  core.status = .plain ∨ core.status = .resumed ∧ 0 < pending core.pid core.funcNam l

theorem stack_of_run_mergePopBatch {u u' : UnfinishedBatches} {j : CoreId} {b : BatchLetCore}
    {o : Option CoreId} (hb : u.core? j = some b) (h : (mergePopBatch j).run u = (.ok o, u'))
    (pid : ℤ) (f : Text) : u'.stack pid f =
      if b.pid = pid ∧ b.funcNam = f then (u.stack pid f).dropLast else u.stack pid f := by
  rw [mergePopBatch, run_coreAt_bind hb, Py.run_get_bind] at h
  split at h
  · rename_i hnil
    cases h
    split
    · rename_i heq
      rw [← heq.1, ← heq.2, hnil]
      rfl
    · rfl
  · rename_i i l hl
    rw [Py.run_modify_bind, Py.run_bind_eq_ok] at h
    obtain ⟨_, u₁, hmerge, h⟩ := h
    cases h
    have hsame := keeps_mergeHalves (R := SameStacks) (fun _ _ _ _ => rfl)
      ((i :: l).getLast (by simp)) j
      (u.setStack b.pid b.funcNam (i :: l).dropLast)
    rw [hmerge] at hsame
    have hstack : u'.stack pid f = (u.setStack b.pid b.funcNam (i :: l).dropLast).stack pid f := by
      rw [UnfinishedBatches.stack, UnfinishedBatches.stack, UnfinishedBatches.stack?,
        UnfinishedBatches.stack?, show u'.mapStacks = _ from hsame]
    rw [hstack, UnfinishedBatches.stack_setStack]
    split
    · rename_i heq
      rw [← heq.1, ← heq.2, hl]
    · rfl

section
variable {env : Env} {id : CoreId} {core : BatchLetCore} {w w' : World} {r : Option Batch}

theorem stack_of_run_pushBatch {u u' : UnfinishedBatches} (hcore : u.core? id = some core)
    (h : (pushBatch id).run u = (.ok (), u')) (pid : ℤ) (f : Text) : u'.stack pid f =
      if core.pid = pid ∧ core.funcNam = f then u.stack pid f ++ [id] else u.stack pid f := by
  rw [pushBatch, run_coreAt_bind hcore] at h
  cases h
  rw [UnfinishedBatches.stack_setStack]
  split
  · rename_i heq
    rw [heq.1, heq.2]
  · rfl

/-- The stack of a function whose halves are paired. -/
theorem length_stack_of_factoryStep (hcore : w.store.core? id = some core)
    (hfresh : FreshCore core) (hstep : FactoryStep env id core w w' r) (pid : ℤ) {f : Text}
    (hf : IsPaired f) :
    (w'.store.stack pid f).length = nextPending pid f (w.store.stack pid f).length core := by
  obtain ⟨m, hm, hok⟩ := hf
  have hmodel : ∀ e, batchModels core.funcNam = e → core.funcNam = f → e = .model m := by
    rintro e he rfl
    exact he.symm.trans hm
  rw [nextPending]
  cases hstep with
  | unknown hm' hstore _ =>
    rw [if_neg (fun h => nomatch hmodel _ hm' h.2), hstore]
  | ignored hm' hw =>
    rw [if_neg (fun h => nomatch hmodel _ hm' h.2), hw]
  | pushed _ hs hstore _ =>
    rw [stack_of_run_pushBatch hcore hstore, hs]
    split <;> simp
  | lone _ hs hstack hstore _ =>
    rw [hstore, hs]
    split
    · rename_i heq
      rw [← heq.1, ← heq.2, hstack]
      rfl
    · rfl
  | @built m' c args hm' hs hc hbuild =>
    rcases hs with ⟨-, hne, hu, hstore⟩ | ⟨hs, -, hpop⟩
    · rw [hstore]
      split
      · rename_i heq
        cases hmodel _ hm' heq.2
        rcases hfresh.status with hs | hs | hs
        · rw [hs]
        · rw [hu hs] at hok
          cases hok
        · exact absurd hs hne
      · rfl
    · rw [stack_of_run_mergePopBatch hcore hpop, hs]
      split <;> simp

/-- **The length of a stack** is the number of the halves that wait. -/
theorem Processed.length_stack {l : List BatchLetCore} (h : Processed env l w) (pid : ℤ) {f : Text}
    (hf : IsPaired f) : (w.store.stack pid f).length = pending pid f l := by
  induction h with
  | init => rfl
  | @step l core w w' r h hfresh hrun ih =>
    rw [pending, List.foldl_append, List.foldl_cons, List.foldl_nil, ← pending, ← ih]
    exact length_stack_of_factoryStep (w.store.core?_addCore_nextId core) hfresh
      (factoryStep_of_processCore hrun) pid hf

/-- A model is run on a call that is complete. -/
theorem built_of_ran {l : List BatchLetCore} (h : Processed env l w) (hf : IsPaired core.funcNam)
    (hran : Ran l core) (hrun : (processCore env core).run w = (.ok r, w')) :
    ∃ m c args, batchModels core.funcNam = .model m ∧ c.pid = core.pid ∧
      c.funcNam = core.funcNam ∧ c.retValue = core.retValue ∧ c.tracer = core.tracer ∧
      c.timeStart = core.timeStart ∧
      (m.build env c).run (w.objects.admitted env core) = (.ok args, w'.objects) := by
  have hstep := factoryStep_of_processCore hrun
  have hcore : (w.admitted env core).store.core? (w.store.nextId core.pid) = some core :=
    w.store.core?_addCore_nextId core
  have hstack : (w.admitted env core).store.stack core.pid core.funcNam =
      w.store.stack core.pid core.funcNam := rfl
  have hlen := h.length_stack core.pid hf
  obtain ⟨m, hm, hok⟩ := hf
  generalize hid : w.store.nextId core.pid = id at hstep hcore
  cases hstep with
  | unknown hm' _ _ => cases hm.symm.trans hm'
  | ignored hm' _ => cases hm.symm.trans hm'
  | pushed _ hs _ _ =>
    rcases hran with hs' | ⟨hs', -⟩
    · cases hs.symm.trans hs'
    · cases hs.symm.trans hs'
  | lone _ hs hnil _ _ =>
    rcases hran with hs' | ⟨-, hpos⟩
    · cases hs.symm.trans hs'
    · rw [← hstack, hnil, List.length_nil] at hlen
      omega
  | @built m' c args hm' hs hc hbuild =>
    cases hm.symm.trans hm'
    rcases hs with ⟨rfl, -⟩ | ⟨-, -, hpop⟩
    · exact ⟨m, c, args, hm, rfl, rfl, rfl, rfl, rfl, hbuild⟩
    · rcases UnfinishedBatches.run_mergePopBatch_eq_ok hcore hpop with
        ⟨hnone, -⟩ | ⟨-, i, a, c', -, hc', heq⟩
      · cases hnone
      · cases hc.symm.trans hc'
        exact ⟨m, c, args, hm, by rw [heq], by rw [heq], by rw [heq], by rw [heq], by rw [heq],
          hbuild⟩

/-- A second half whose first half is missing has no effect on the objects, for most
functions. -/
theorem objects_of_not_ran {l : List BatchLetCore} (h : Processed env l w) {m : CallModel}
    (hfresh : FreshCore core) (hm : batchModels core.funcNam = .model m)
    (hok : m.unfinishedIsOk = false) (hlone : m.resumedWithoutUnfinishedIsOk = false)
    (hran : ¬ Ran l core) (hrun : (processCore env core).run w = (.ok r, w')) :
    w'.objects = w.objects.admitted env core := by
  have hstep := factoryStep_of_processCore hrun
  have hcore : (w.admitted env core).store.core? (w.store.nextId core.pid) = some core :=
    w.store.core?_addCore_nextId core
  have hlen := h.length_stack core.pid ⟨m, hm, hok⟩
  generalize w.store.nextId core.pid = id at hstep hcore
  cases hstep with
  | unknown hm' _ _ => cases hm.symm.trans hm'
  | ignored hm' _ => cases hm.symm.trans hm'
  | pushed hm' _ _ hobjects =>
    cases hm.symm.trans hm'
    rcases hobjects with ⟨-, heq⟩ | ⟨hok', -⟩
    · exact heq
    · cases hok.symm.trans hok'
  | lone hm' _ _ _ hobjects =>
    cases hm.symm.trans hm'
    rcases hobjects with ⟨-, heq⟩ | ⟨hlone', -⟩
    · exact heq
    · cases hlone.symm.trans hlone'
  | built hm' hs hc hbuild =>
    cases hm.symm.trans hm'
    rcases hs with ⟨-, hne, hu, -⟩ | ⟨hs, -, hpop⟩
    · rcases hfresh.status with hs | hs | hs
      · exact absurd (.inl hs) hran
      · cases hok.symm.trans (hu hs)
      · exact absurd hs hne
    · have hnil : (w.admitted env core).store.stack core.pid core.funcNam = [] := by
        refine List.length_eq_zero_iff.mp ?_
        refine hlen.trans (Nat.eq_zero_of_not_pos fun hpos => hran (.inr ⟨hs, hpos⟩))
      rw [UnfinishedBatches.run_mergePopBatch_nil hcore hnil] at hpop
      cases hpop

end

end Survol.Dockit
