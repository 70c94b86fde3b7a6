import Survol.Dockit.EarlyReturns
import Survol.Dockit.FactorySteps
import Survol.Dockit.Stream

/-!
# Lines that cannot be parsed

A record that cannot be parsed is reported, and the loop goes on with the variable
`batchCore` of an earlier record, whose core is given to the factory again. This
has no effect exactly when the factory forgets this core: `observe_insert_iff`.

## Main definitions

* `Insertion` — a log, and a record inserted in it that cannot be parsed.
* `observe` — what is compared: the batches, the stacks, the accesses, the processes.
* `isForgotten` — the cores that the factory forgets.
-/

open PyText

namespace Survol.Dockit

/-- A core that leaves no batch: its function is ignored, or its model returns early. -/
def isForgotten (core : BatchLetCore) : Bool :=
  match batchModels core.funcNam with
  | .unknown => false
  | .ignored => true
  | .model m => core.status ≠ .resumed && (core.status ≠ .unfinished || m.unfinishedIsOk) &&
      returnsEarly core.funcNam core

section
variable {env : Env} {id : CoreId} {core c : BatchLetCore} {w w' : World} {r : Option Batch}

theorem isForgotten_of_model {m : CallModel} (hm : batchModels core.funcNam = .model m) :
    isForgotten core = true ↔ core.status ≠ .resumed ∧
      (core.status = .unfinished → m.unfinishedIsOk = true) ∧
      returnsEarly core.funcNam core = true := by
  simp only [isForgotten, hm, Bool.and_eq_true, Bool.or_eq_true, decide_eq_true_eq, and_assoc]
  refine and_congr_right fun _ => and_congr_left fun _ => ?_
  exact ⟨fun h hs => h.resolve_left (not_not.mpr hs), fun h => or_iff_not_imp_left.mpr fun hs =>
    h (not_not.mp hs)⟩

/-- A core without a batch is forgotten, unless it is a resumed half that could still
be merged. -/
theorem isForgotten_of_factoryStep (hstep : FactoryStep env id core w w' none)
    (h : w.store.core? id = some core)
    (hstack : core.status = .resumed → HasModel core.funcNam →
      w.store.stack core.pid core.funcNam = []) : isForgotten core = true := by
  generalize hr : (none : Option Batch) = r at hstep
  cases hstep with
  | unknown => cases hr
  | ignored hm => simp [isForgotten, hm]
  | pushed => cases hr
  | lone => cases hr
  | @built m c args hm hs hcore hbuild =>
    cases args with
    | some args => cases hr
    | none =>
      rcases hs with ⟨rfl, hne, hok, -⟩ | ⟨hs, -, hpop⟩
      · exact (isForgotten_of_model hm).mpr
          ⟨hne, hok, (early_batchModels hm env c).only _ _ hbuild⟩
      · rw [UnfinishedBatches.run_mergePopBatch_nil h (hstack hs ⟨m, hm⟩)] at hpop
        cases hpop

/-- The factory on a core whose model returns early. -/
theorem run_batchLetFactory_of_early {m : CallModel} {o : Objects}
    (hm : batchModels core.funcNam = .model m) (h : w.store.core? id = some core)
    (hs : core.status ≠ .resumed) (hok : core.status = .unfinished → m.unfinishedIsOk = true)
    (hbuild : (m.build env core).run w.objects = (.ok none, o)) :
    (batchLetFactory env id).run w = (.ok none, { w with objects := o }) := by
  have hrun : (buildModel env m id).run w = (.ok none, { w with objects := o }) := by
    rw [run_buildModel h, hbuild]
    rfl
  rw [batchLetFactory, run_onStore_coreAt_bind h]
  simp only [hm]
  split
  · rename_i hu
    rw [unfinishedBatchLet, run_onStore_coreAt_bind h, if_pos (hok hu), Py.catching]
    simp only [hrun]
  · exact absurd ‹_› hs
  · exact hrun

/-- A forgotten core that is processed once more. -/
theorem run_batchLetFactory_of_forgotten (hstep : FactoryStep env id core w w' r)
    (h : w.store.core? id = some core) (hc : w'.store.core? id = some c)
    (hf : isForgotten c = true) : (batchLetFactory env id).run w' = (.ok none, w') := by
  have hsame : w'.store.core? id = some core → c = core := fun h' =>
    Option.some.inj (hc.symm.trans h')
  cases hstep with
  | unknown hm hstore _ =>
    obtain rfl := hsame (by rw [hstore, h])
    simp [isForgotten, hm] at hf
  | ignored hm hw =>
    obtain rfl := hsame (by rw [hw, h])
    rw [batchLetFactory, run_onStore_coreAt_bind hc]
    simp only [hm, Py.run_pure]
  | pushed hm hs hstore hobjects =>
    obtain rfl := hsame (by rw [UnfinishedBatches.core?_of_run_pushBatch hstore, h])
    obtain ⟨-, hok, he⟩ := (isForgotten_of_model hm).mp hf
    obtain ⟨f, -, hearly⟩ := (early_batchModels hm env c).early he
    rcases hobjects with ⟨hno, -⟩ | ⟨-, e, herr⟩
    · rw [hok hs] at hno
      cases hno
    · rw [hearly] at herr
      cases herr
  | lone hm hs _ hstore _ =>
    obtain rfl := hsame (by rw [hstore, h])
    exact absurd hs ((isForgotten_of_model hm).mp hf).1
  | @built m c' args hm hs hcore hbuild =>
    cases hc.symm.trans hcore
    have hm' : batchModels c.funcNam = .model m := by
      obtain ⟨c', hc', -, hfunc, -⟩ := FactoryStep.core? (.built hm hs hcore hbuild) h
      cases hc.symm.trans hc'
      rw [hfunc, hm]
    obtain ⟨hne, hok, he⟩ := (isForgotten_of_model hm').mp hf
    obtain ⟨f, hidem, hearly⟩ := (early_batchModels hm' env c).early he
    have hobjects : f w'.objects = w'.objects := by
      rw [hearly] at hbuild
      rw [← (Prod.mk.inj hbuild).2, hidem]
    rw [run_batchLetFactory_of_early hm' hc hne hok (hearly w'.objects), hobjects]

/-- A resumed half that was not merged has an empty stack. -/
theorem stack_of_factoryStep (hstep : FactoryStep env id core w w' r)
    (h : w.store.core? id = some core) (hc : w'.store.core? id = some c)
    (hs : c.status = .resumed) (hm : HasModel c.funcNam) : w'.store.stack c.pid c.funcNam = [] := by
  obtain ⟨c', hc', hor, -⟩ := hstep.core? h
  cases hc.symm.trans hc'
  rcases hor with rfl | ⟨-, hmerged⟩
  · cases hstep with
    | unknown hu _ _ =>
      obtain ⟨m, hm⟩ := hm
      cases hu.symm.trans hm
    | ignored hi _ =>
      obtain ⟨m, hm⟩ := hm
      cases hi.symm.trans hm
    | pushed _ hu _ _ => cases hs.symm.trans hu
    | lone _ _ hstack hstore _ => rw [hstore, hstack]
    | built _ hs' hcore _ =>
      cases hc.symm.trans hcore
      rcases hs' with ⟨-, hne, -⟩ | ⟨-, hmerged, -⟩
      · exact absurd hs hne
      · cases hs.symm.trans hmerged
  · cases hs.symm.trans hmerged

end

/-! ## The state of the loop -/

section
variable {env : Env} {tracer : Tracer}

/-- The core of the variable `batchCore` is the one that was processed last. -/
def LastProcessed (env : Env) (s : Loop) : Prop :=
  ∀ id, s.batchCore = some id → ∃ w core r, w.store.core? id = some core ∧
    FactoryStep env id core w s.world r ∧ s.lastTimeStamp = core.timeEnd

theorem run_nextBatch_eq_ok {s s' : Loop} {r : Option Batch}
    (h : (nextBatch env).run s = (.ok r, s')) :
    (s.batchCore = none ∧ s' = s ∧ r = none) ∨
      ∃ id core w, s.batchCore = some id ∧ s.world.store.core? id = some core ∧
        (batchLetFactory env id).run s.world = (.ok r, w) ∧
        s' = { s with lastTimeStamp := core.timeEnd, world := w } := by
  cases hb : s.batchCore with
  | none =>
    rw [run_nextBatch_none hb] at h
    cases h
    exact .inl ⟨rfl, rfl, rfl⟩
  | some id =>
    cases hc : s.world.store.core? id with
    | none =>
      rw [nextBatch, Py.run_get_bind] at h
      simp [hb, Py.run_bind, run_inWorld, run_onStore, coreAt, hc] at h
    | some core =>
      rw [run_nextBatch_some hb hc] at h
      obtain ⟨hres, rfl⟩ := Prod.mk.inj h
      exact .inr ⟨id, core, _, rfl, hc, Prod.ext hres rfl, by rw [hb]⟩

theorem lastProcessed_of_run {line : Text × ℕ} {s s' : Loop}
    (h : (processLine env tracer line).run s = (.ok (), s')) : LastProcessed env s' := by
  obtain ⟨s₁, r, s₂, -, hnext, rfl⟩ := run_processLine h
  intro id hid
  rcases run_nextBatch_eq_ok hnext with ⟨hnone, rfl, -⟩ | ⟨id', core, w, hb, hc, hrun, rfl⟩
  · cases hnone.symm.trans hid
  · cases hb.symm.trans hid
    exact ⟨s₁.world, core, r, hc, factoryStep_of_run hc hrun, rfl⟩

/-- The loop over the lines of a log, without what is done after the last one. -/
def readLog (env : Env) (tracer : Tracer) (logStream : List Text) : Except PyExn Unit × Loop :=
  (Py.each (processLine env tracer) (joinLines [] 0 logStream)).run Loop.init

theorem lastProcessed_of_readLog {logStream : List Text} {s : Loop}
    (h : readLog env tracer logStream = (.ok (), s)) : LastProcessed env s :=
  Py.each_rule (fun _ => LastProcessed env) (fun id hid => by cases hid)
    (fun _ _ _ _ _ _ _ hrun => lastProcessed_of_run hrun) h

/-- A line that cannot be parsed, after a core that is forgotten. -/
theorem run_processLine_of_forgotten {line : Text × ℕ} {e : PyExn} {s : Loop}
    (hbad : parseLine env.topProcessId tracer line.1 = .error e) (hnum : line.2 ≠ 2)
    (hlast : LastProcessed env s) (hf : ∀ id core, s.batchCore = some id →
      s.world.store.core? id = some core → isForgotten core = true) :
    (processLine env tracer line).run s = (.ok (), s) := by
  have hnext : (nextBatch env).run s = (.ok none, s) := by
    cases hb : s.batchCore with
    | none => exact run_nextBatch_none hb
    | some id =>
      obtain ⟨w, core, r, hcore, hstep, htime⟩ := hlast id hb
      obtain ⟨c, hc, -, -, -, hend, -⟩ := hstep.core? hcore
      rw [run_nextBatch_some hb hc,
        run_batchLetFactory_of_forgotten hstep hcore hc (hf id c hb hc), hend, ← htime]
  rw [processLine, Py.run_bind, run_readCore_of_error hbad hnum]
  simp only [Py.run_bind, hnext, yieldBatch, Py.run_modify, Option.toList_none, List.append_nil]

/-- A line that cannot be parsed, without a batch: the core is forgotten. -/
theorem isForgotten_of_run_processLine {line : Text × ℕ} {e : PyExn} {s s' : Loop}
    (hbad : parseLine env.topProcessId tracer line.1 = .error e) (hnum : line.2 ≠ 2)
    (hlast : LastProcessed env s) (hrun : (processLine env tracer line).run s = (.ok (), s'))
    (hsame : s'.yielded = s.yielded) (id : CoreId) (core : BatchLetCore)
    (hb : s.batchCore = some id) (hc : s.world.store.core? id = some core) :
    isForgotten core = true := by
  obtain ⟨s₁, r, s₂, hread, hnext, rfl⟩ := run_processLine hrun
  rw [run_readCore_of_error hbad hnum] at hread
  cases hread
  rcases run_nextBatch_eq_ok hnext with ⟨hnone, -, -⟩ | ⟨id', core', w', hb', hc', hfac, rfl⟩
  · cases hnone.symm.trans hb
  · cases hb.symm.trans hb'
    cases hc.symm.trans hc'
    obtain rfl : r = none := by
      cases r with
      | none => rfl
      | some b => simp at hsame
    obtain ⟨w, c, r, hcore, hstep, -⟩ := hlast id hb
    exact isForgotten_of_factoryStep (factoryStep_of_run hc hfac) hc
      (stack_of_factoryStep hstep hcore hc)

end

/-! ## Inserting a record -/

/-- A log, after its second line, and a record that is inserted there and cannot be
parsed. -/
structure Insertion (env : Env) (tracer : Tracer) where
  before : List Text
  record : List Text
  oneLine : Text
  second_line : 2 ≤ before.length
  before_ends : EndsRecord before
  record_ends : EndsRecord record
  joined : (joinLines [] 0 record).map Prod.fst = [oneLine]
  unparsable : ∃ e, parseLine env.topProcessId tracer oneLine = .error e

/-- What is compared of two logs. -/
structure Observation where
  result : Except PyExn Unit
  yielded : List Batch
  store : UnfinishedBatches
  fileAccesses : List FileAccess
  processes : Dict ℤ CIMProcess
  deriving DecidableEq

/-- What is observed after a computation of the loop. -/
def Observation.of (r : Except PyExn Unit × Loop) : Observation :=
  ⟨r.1, r.2.yielded, r.2.world.store, r.2.world.objects.fileAccesses, r.2.world.objects.processes⟩

/-- What is observed after a whole log. -/
def observe (env : Env) (tracer : Tracer) (logStream : List Text) : Observation :=
  .of ((createFlowsFromGenericLinuxLog env tracer logStream).run Loop.init)

/-- No earlier record is processed again to some effect: the log has failed before,
or the variable `batchCore` is `None` or a core that the factory forgets. -/
def NothingStale : Except PyExn Unit × Loop → Prop
  | (.error _, _) => True
  | (.ok _, s) => ∀ id core, s.batchCore = some id → s.world.store.core? id = some core →
    isForgotten core = true

section
variable {env : Env} {tracer : Tracer}

/-- The end of a log does not raise anything. -/
theorem run_createFlows (logStream : List Text) :
    (createFlowsFromGenericLinuxLog env tracer logStream).run Loop.init =
      ((readLog env tracer logStream).1, match readLog env tracer logStream with
        | (.ok _, s) => (endOfLog.run s).2
        | (.error _, s) => s) := by
  rw [createFlowsFromGenericLinuxLog, Py.run_bind, readLog]
  rcases (Py.each (processLine env tracer) (joinLines [] 0 logStream)).run Loop.init with ⟨_ | _, s⟩
    <;> rfl

@[simp] theorem yielded_endOfLog (s : Loop) : (endOfLog.run s).2.yielded = s.yielded := by
  rw [endOfLog, Py.run_modify]
  split <;> rfl

theorem readLog_append {l l' : List Text} (h : EndsRecord l) :
    readLog env tracer (l ++ l') = match readLog env tracer l with
      | (.ok _, s) => (Py.each (processLine env tracer) (joinLines [] l.length l')).run s
      | (.error e, s) => (.error e, s) := by
  unfold readLog
  rw [joinLines_append h (.inl rfl), Py.run_each_append, Nat.zero_add]
  rcases (Py.each (processLine env tracer) (joinLines [] 0 l)).run Loop.init with ⟨_ | _, s⟩ <;> rfl

namespace Insertion

variable (i : Insertion env tracer)

/-- The inserted record is one line, and not the second one. -/
theorem joinLines_record : ∃ n, n ≠ 2 ∧
    joinLines [] i.before.length i.record = [(i.oneLine, n)] := by
  have hmap := map_joinLines [] i.before.length 0 i.record
  rw [i.joined, List.map_eq_singleton_iff] at hmap
  obtain ⟨⟨oneLine, n⟩, hline, rfl⟩ := hmap
  have hlt := lt_of_mem_joinLines (hline ▸ List.mem_singleton_self _)
  exact ⟨n, (i.second_line.trans_lt hlt).ne', hline⟩

/-- The run of the log with the record. -/
theorem readLog_inserted (after : List Text) : ∃ n, n ≠ 2 ∧
    readLog env tracer (i.before ++ i.record ++ after) = match readLog env tracer i.before with
      | (.ok _, s) => match (processLine env tracer (i.oneLine, n)).run s with
        | (.ok _, s') => (Py.each (processLine env tracer) (joinLines [] i.before.length after)).run s'
        | (.error e, s') => (.error e, s')
      | (.error e, s) => (.error e, s) := by
  obtain ⟨n, hn, hline⟩ := i.joinLines_record
  refine ⟨n, hn, ?_⟩
  rw [List.append_assoc, readLog_append i.before_ends]
  rcases readLog env tracer i.before with ⟨_ | _, s⟩
  · rfl
  · have hlen := i.second_line
    simp only [joinLines_append i.record_ends (.inl rfl), hline, List.singleton_append,
      Py.run_each_cons]
    rw [each_processLine (by omega) hlen]
    rcases (processLine env tracer (i.oneLine, n)).run s with ⟨_ | _, s'⟩ <;> rfl

end Insertion

/-- **A record that cannot be parsed has no effect**, exactly when no earlier record
is processed again. -/
theorem observe_insert_iff (i : Insertion env tracer) :
    (∀ after, observe env tracer (i.before ++ i.record ++ after) =
      observe env tracer (i.before ++ after)) ↔ NothingStale (readLog env tracer i.before) := by
  obtain ⟨e, hbad⟩ := i.unparsable
  constructor
  · intro hsame
    obtain ⟨n, hn, hins⟩ := i.readLog_inserted []
    have h := hsame []
    rw [List.append_nil] at h hins
    rw [List.append_nil, observe, observe, run_createFlows, run_createFlows, hins] at h
    rcases hbefore : readLog env tracer i.before with ⟨_ | _, s⟩
    · trivial
    · rw [hbefore] at h
      have hlast := lastProcessed_of_readLog hbefore
      rcases hrun : (processLine env tracer (i.oneLine, n)).run s with ⟨_ | _, s'⟩
      · simp [hrun, Observation.of] at h
      · refine isForgotten_of_run_processLine hbad hn hlast hrun ?_
        have hyielded := congrArg Observation.yielded h
        simpa [hrun, Observation.of, joinLines] using hyielded
  · intro hstale after
    obtain ⟨n, hn, hins⟩ := i.readLog_inserted after
    have hsame : readLog env tracer (i.before ++ i.record ++ after) =
        readLog env tracer (i.before ++ after) := by
      rw [hins, readLog_append i.before_ends]
      rcases hbefore : readLog env tracer i.before with ⟨_ | _, s⟩
      · rfl
      · rw [hbefore] at hstale
        have hrun := @run_processLine_of_forgotten _ _ (i.oneLine, n) _ _ hbad hn
          (lastProcessed_of_readLog hbefore) hstale
        simp only [hrun]
    rw [observe, observe, run_createFlows, run_createFlows, hsame]

end

/-- A line that is no call, after a read of two bytes by the main process. -/
def afterRead : Insertion (.replayed 7 "/".toList) .strace where
  before := ["14:56:54.296251 open(\"/tmp/a\", O_RDONLY) = 3</tmp/a> <0.000013>\n".toList,
    "14:56:54.296315 read(3</tmp/a>, \"ab\", 2) = 2 <0.000013>\n".toList]
  record := ["14:56:54.296400 garbage <0.000013>\n".toList]
  oneLine := "14:56:54.296400 garbage <0.000013>\n".toList
  second_line := by decide
  before_ends := by
    intro l hl
    cases hl
    decide +kernel
  record_ends := by
    intro l hl
    cases hl
    decide +kernel
  joined := by decide +kernel
  unparsable := ⟨noFunction "14:56:54.296400 garbage <0.000013>\n".toList, by decide +kernel⟩

/-- The read is yielded and counted a second time. -/
theorem read_counted_twice :
    ¬ ∀ (env : Env) (tracer : Tracer) (i : Insertion env tracer) (after : List Text),
      observe env tracer (i.before ++ i.record ++ after) =
        observe env tracer (i.before ++ after) := by
  intro h
  have hsame := h _ _ afterRead []
  revert hsame
  decide +kernel

end Survol.Dockit
