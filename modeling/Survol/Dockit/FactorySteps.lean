import Survol.Dockit.Pairing

/-!
# What the factory does with a core

The factory has five outcomes: the function is unknown, it is ignored, the core is
an unfinished half that is kept for later, it is a resumed half without its
unfinished half, or its model is run. In the last case the model sees the core as
it is in the store afterwards, with the arguments of both halves.

## Main definitions

* `FactoryStep` — the outcomes, with `factoryStep_of_run`.
-/

open PyText

namespace Survol.Dockit

namespace UnfinishedBatches

variable {u u' : UnfinishedBatches}

theorem run_coreAt_eq_ok {id : CoreId} {c : BatchLetCore} (h : (coreAt id).run u = (.ok c, u')) :
    u' = u ∧ u.core? id = some c := by
  simp only [coreAt, Py.run_get_bind] at h
  cases hc : u.core? id with
  | none =>
    rw [hc] at h
    cases h
  | some c' =>
    rw [hc] at h
    cases h
    exact ⟨rfl, rfl⟩

/-- A merge that returns leaves its resumed core merged. -/
theorem run_mergeHalves_eq_ok {i j : CoreId} (h : (mergeHalves i j).run u = (.ok (), u')) :
    ∃ a b, u.core? i = some a ∧ u.core? j = some b ∧ ∃ c, u'.core? j = some c ∧
      c = { b with parsedArgs := a.parsedArgs ++ b.parsedArgs, status := .merged
                   unfinishedBatch := some i, resumedBatch := c.resumedBatch } := by
  rw [mergeHalves, Py.run_bind_eq_ok] at h
  obtain ⟨a, u₁, ha, h⟩ := h
  obtain ⟨rfl, ha⟩ := run_coreAt_eq_ok ha
  rw [Py.run_bind_eq_ok] at h
  obtain ⟨b, u₂, hb, h⟩ := h
  obtain ⟨rfl, hb⟩ := run_coreAt_eq_ok hb
  refine ⟨a, b, ha, hb, ?_⟩
  split at h
  · cases h
  · simp only [Survol.Dockit.updateCore, Py.run_modify_bind] at h
    split at h
    · cases h
    · rw [Py.run_modify_bind, Py.run_bind_eq_ok] at h
      obtain ⟨c, u₃, hread, h⟩ := h
      obtain ⟨rfl, hc⟩ := run_coreAt_eq_ok hread
      split at h
      · cases h
      · cases h
        refine ⟨_, by rw [core?_updateCore, if_pos rfl, hc]; rfl, ?_⟩
        simp only [core?_updateCore, hb, if_true, Option.map_some] at hc
        split at hc <;> cases hc <;> rfl

/-- The two outcomes of `mergePopBatch`. -/
theorem run_mergePopBatch_eq_ok {j : CoreId} {o : Option CoreId} {b : BatchLetCore}
    (hb : u.core? j = some b) (h : (mergePopBatch j).run u = (.ok o, u')) :
    (o = none ∧ u' = u ∧ u.stack b.pid b.funcNam = []) ∨
      o = some j ∧ ∃ i a c, u.core? i = some a ∧ u'.core? j = some c ∧
        c = { b with parsedArgs := a.parsedArgs ++ b.parsedArgs, status := .merged
                     unfinishedBatch := some i, resumedBatch := c.resumedBatch } := by
  rw [mergePopBatch, run_coreAt_bind hb, Py.run_get_bind] at h
  split at h
  · rename_i hnil
    cases h
    exact .inl ⟨rfl, rfl, hnil⟩
  · rw [Py.run_modify_bind, Py.run_bind_eq_ok] at h
    obtain ⟨_, u₁, hmerge, h⟩ := h
    cases h
    obtain ⟨a, b', ha, hb', c, hc, heq⟩ := run_mergeHalves_eq_ok hmerge
    rw [core?_setStack] at ha hb'
    cases hb.symm.trans hb'
    exact .inr ⟨rfl, _, a, c, ha, hc, heq⟩

theorem core?_of_run_pushBatch {id : CoreId} (h : (pushBatch id).run u = (.ok (), u'))
    (i : CoreId) : u'.core? i = u.core? i := by
  rw [pushBatch, Py.run_bind_eq_ok] at h
  obtain ⟨c, u₁, hc, h⟩ := h
  obtain ⟨rfl, -⟩ := run_coreAt_eq_ok hc
  cases h
  rfl

end UnfinishedBatches

/-- What the factory does with the core `id`, which is `core` before. -/
inductive FactoryStep (env : Env) (id : CoreId) (core : BatchLetCore) (w w' : World) :
    Option Batch → Prop
  | unknown (hm : batchModels core.funcNam = .unknown) (hstore : w'.store = w.store)
      (hobjects : w'.objects = w.objects) :
      FactoryStep env id core w w' (some (batchLetBase id core))
  | ignored (hm : batchModels core.funcNam = .ignored) (h : w' = w) :
      FactoryStep env id core w w' none
  /-- The unfinished half is kept, after its model has failed if it was run. -/
  | pushed {m : CallModel} (hm : batchModels core.funcNam = .model m)
      (hs : core.status = .unfinished)
      (hstore : (pushBatch id).run w.store = (.ok (), w'.store))
      (hobjects : m.unfinishedIsOk = false ∧ w'.objects = w.objects ∨
        m.unfinishedIsOk = true ∧ ∃ e, (m.build env core).run w.objects = (.error e, w'.objects)) :
      FactoryStep env id core w w' (some (batchLetBase id core))
  /-- The model is run on the core as it is, or on the merged core. -/
  | built {m : CallModel} {c : BatchLetCore} {args : Option (List SigArg)}
      (hm : batchModels core.funcNam = .model m)
      (hs : c = core ∧ core.status ≠ .resumed ∧
          (core.status = .unfinished → m.unfinishedIsOk = true) ∧ w'.store = w.store ∨
        core.status = .resumed ∧ c.status = .merged ∧
          (mergePopBatch id).run w.store = (.ok (some id), w'.store))
      (hcore : w'.store.core? id = some c)
      (hbuild : (m.build env c).run w.objects = (.ok args, w'.objects)) :
      FactoryStep env id core w w' (args.map fun args => ⟨id, 1, origStyle, args, m.neverSame⟩)
  /-- A resumed half without its unfinished half, whose model may have been run. -/
  | lone {m : CallModel} (hm : batchModels core.funcNam = .model m)
      (hs : core.status = .resumed) (hstack : w.store.stack core.pid core.funcNam = [])
      (hstore : w'.store = w.store)
      (hobjects : m.resumedWithoutUnfinishedIsOk = false ∧ w'.objects = w.objects ∨
        m.resumedWithoutUnfinishedIsOk = true ∧
          ∃ x, (m.build env core).run w.objects = (x, w'.objects)) :
      FactoryStep env id core w w' (some (batchLetBase id core))

section
variable {env : Env} {id : CoreId} {core : BatchLetCore} {w w' : World} {r : Option Batch}

theorem run_buildModel {aModel : CallModel} (h : w.store.core? id = some core) :
    (buildModel env aModel id).run w =
      (((aModel.build env core).run w.objects).1.map
          (Option.map fun args => ⟨id, 1, origStyle, args, aModel.neverSame⟩),
        { w with objects := ((aModel.build env core).run w.objects).2 }) := by
  rw [buildModel, run_onStore_coreAt_bind h, Py.run_bind, run_onObjects]
  generalize (aModel.build env core).run w.objects = x
  rcases x with ⟨_ | _, _⟩ <;> rfl

theorem run_buildModel_eq_ok {aModel : CallModel} (h : w.store.core? id = some core)
    (hrun : (buildModel env aModel id).run w = (.ok r, w')) :
    ∃ args, (aModel.build env core).run w.objects = (.ok args, w'.objects) ∧ w'.store = w.store ∧
      r = args.map fun args => ⟨id, 1, origStyle, args, aModel.neverSame⟩ := by
  rw [run_buildModel h] at hrun
  generalize (aModel.build env core).run w.objects = x at hrun ⊢
  rcases x with ⟨_ | args, o⟩
  · cases hrun
  · cases hrun
    exact ⟨args, rfl, rfl, rfl⟩

/-- A model whose attribute errors are caught. -/
theorem run_catching_model {α : Type} {m : ObjM (Option (List SigArg))} {n base : WorldM α}
    {g : Option (List SigArg) → α} {a : α}
    (hn : n.run w = ((m.run w.objects).1.map g, { w with objects := (m.run w.objects).2 }))
    (hrun : (Py.catching isAttributeError n base).run w = (.ok a, w')) :
    (∃ args, m.run w.objects = (.ok args, w'.objects) ∧ w'.store = w.store ∧ a = g args) ∨
      ∃ w₁ e, m.run w.objects = (.error e, w₁.objects) ∧ w₁.store = w.store ∧
        base.run w₁ = (.ok a, w') := by
  simp only [Py.catching, hn] at hrun
  generalize m.run w.objects = x at hrun ⊢
  rcases x with ⟨e | args, o⟩
  · simp only [Except.map] at hrun
    split at hrun
    · exact .inr ⟨{ w with objects := o }, e, rfl, rfl, hrun⟩
    · cases hrun
  · simp only [Except.map, Prod.mk.injEq, Except.ok.injEq] at hrun
    obtain ⟨rfl, rfl⟩ := hrun
    exact .inl ⟨args, rfl, rfl, rfl⟩

/-- The batch of an unfinished half that is kept. -/
theorem run_keepHalf (hrun : (do
      onStore (pushBatch id)
      return some (batchLetBase id core) : WorldM (Option Batch)).run w = (.ok r, w')) :
    (pushBatch id).run w.store = (.ok (), w'.store) ∧ w'.objects = w.objects ∧
      r = some (batchLetBase id core) := by
  rw [Py.run_bind_eq_ok] at hrun
  obtain ⟨_, w₁, hpush, hrun⟩ := hrun
  cases hrun
  rw [run_onStore, Prod.mk.injEq] at hpush
  obtain ⟨hres, rfl⟩ := hpush
  exact ⟨Prod.ext hres rfl, rfl, rfl⟩

theorem factoryStep_of_unfinishedBatchLet {m : CallModel} (hm : batchModels core.funcNam = .model m)
    (hs : core.status = .unfinished) (h : w.store.core? id = some core)
    (hrun : (unfinishedBatchLet env m id).run w = (.ok r, w')) :
    FactoryStep env id core w w' r := by
  rw [unfinishedBatchLet, run_onStore_coreAt_bind h] at hrun
  cases hok : m.unfinishedIsOk with
  | false =>
    simp only [hok, Bool.false_eq_true, if_false] at hrun
    obtain ⟨hpush, hobjects, rfl⟩ := run_keepHalf hrun
    exact .pushed hm hs hpush (.inl ⟨hok, hobjects⟩)
  | true =>
    simp only [hok, if_true] at hrun
    rcases run_catching_model (run_buildModel h) hrun with
      ⟨args, hbuild, hstore, rfl⟩ | ⟨w₁, e, he, hstore, hbase⟩
    · exact .built hm (.inl ⟨rfl, by simp [hs], fun _ => hok, hstore⟩) (by rw [hstore, h]) hbuild
    · obtain ⟨hpush, hobjects, rfl⟩ := run_keepHalf hbase
      exact .pushed hm hs (hstore ▸ hpush) (.inr ⟨hok, e, hobjects ▸ he⟩)

theorem factoryStep_of_resumedBatchLet {m : CallModel} (hm : batchModels core.funcNam = .model m)
    (hs : core.status = .resumed) (h : w.store.core? id = some core)
    (hrun : (resumedBatchLet env m id).run w = (.ok r, w')) :
    FactoryStep env id core w w' r := by
  rw [resumedBatchLet, Py.run_bind_eq_ok] at hrun
  obtain ⟨o, w₁, hmerge, hrun⟩ := hrun
  rw [run_onStore, Prod.mk.injEq] at hmerge
  obtain ⟨hres, rfl⟩ := hmerge
  have hpop : (mergePopBatch id).run w.store = (.ok o, ((mergePopBatch id).run w.store).2) :=
    Prod.ext hres rfl
  generalize ((mergePopBatch id).run w.store).2 = u at hpop hrun
  rcases UnfinishedBatches.run_mergePopBatch_eq_ok h hpop with
    ⟨rfl, rfl, hstack⟩ | ⟨rfl, i, a, c, -, hc, heq⟩
  · simp only at hrun
    rw [run_onStore_coreAt_bind h, Py.run_bind_eq_ok] at hrun
    obtain ⟨_, w₂, hlone, hrun⟩ := hrun
    cases hrun
    cases hok : m.resumedWithoutUnfinishedIsOk with
    | false =>
      simp only [hok, Bool.false_eq_true, if_false] at hlone
      cases hlone
      exact .lone hm hs hstack rfl (.inl ⟨hok, rfl⟩)
    | true =>
      simp only [hok, if_true] at hlone
      have hn : ((fun _ => ()) <$> buildModel env m id : WorldM Unit).run w =
          (((m.build env core).run w.objects).1.map fun _ => (),
            { w with objects := ((m.build env core).run w.objects).2 }) := by
        rw [Py.run_map, run_buildModel h]
        rcases ((m.build env core).run w.objects).1 with _ | _ <;> rfl
      rcases run_catching_model hn hlone with ⟨args, hbuild, hstore, -⟩ | ⟨w₃, x, hx, hstore, hbase⟩
      · exact .lone hm hs hstack hstore (.inr ⟨hok, _, hbuild⟩)
      · cases hbase
        exact .lone hm hs hstack hstore (.inr ⟨hok, _, hx⟩)
  · obtain ⟨args, hbuild, hstore, rfl⟩ := run_buildModel_eq_ok hc hrun
    refine .built hm (.inr ⟨hs, ?_, hstore ▸ hpop⟩) (hstore ▸ hc) hbuild
    rw [heq]

/-- **The outcomes of the factory**, when it returns. -/
theorem factoryStep_of_run (h : w.store.core? id = some core)
    (hrun : (batchLetFactory env id).run w = (.ok r, w')) : FactoryStep env id core w w' r := by
  rw [batchLetFactory, run_onStore_coreAt_bind h] at hrun
  cases hm : batchModels core.funcNam with
  | unknown =>
    simp only [hm] at hrun
    cases hrun
    exact .unknown hm rfl rfl
  | ignored =>
    simp only [hm] at hrun
    cases hrun
    exact .ignored hm rfl
  | model m =>
    simp only [hm] at hrun
    split at hrun
    · rename_i hs
      exact factoryStep_of_unfinishedBatchLet hm hs h hrun
    · rename_i hs
      exact factoryStep_of_resumedBatchLet hm hs h hrun
    · rename_i hu hr
      obtain ⟨args, hbuild, hstore, rfl⟩ := run_buildModel_eq_ok h hrun
      exact .built hm (.inl ⟨rfl, hr, fun hs => absurd hs hu, hstore⟩) (by rw [hstore, h]) hbuild

/-- The batch is the one of the core. -/
theorem FactoryStep.core_eq (hstep : FactoryStep env id core w w' r) :
    ∀ b, r = some b → b.core = id := by
  intro b hb
  cases hstep with
  | unknown =>
    cases hb
    rfl
  | ignored => cases hb
  | pushed =>
    cases hb
    rfl
  | built =>
    obtain ⟨args, -, rfl⟩ := Option.map_eq_some_iff.mp hb
    rfl
  | lone =>
    cases hb
    rfl

/-- The core is still there, and is the one that a model has seen. -/
theorem FactoryStep.core? (hstep : FactoryStep env id core w w' r)
    (h : w.store.core? id = some core) : ∃ c, w'.store.core? id = some c ∧
      (c = core ∨ core.status = .resumed ∧ c.status = .merged) ∧ c.funcNam = core.funcNam ∧
      c.pid = core.pid ∧ c.timeEnd = core.timeEnd ∧ c.retValue = core.retValue ∧
      c.tracer = core.tracer := by
  cases hstep with
  | unknown _ hstore _ => exact ⟨core, by rw [hstore, h], .inl rfl, rfl, rfl, rfl, rfl, rfl⟩
  | ignored _ hw => exact ⟨core, by rw [hw, h], .inl rfl, rfl, rfl, rfl, rfl, rfl⟩
  | pushed _ _ hstore _ =>
    exact ⟨core, by rw [UnfinishedBatches.core?_of_run_pushBatch hstore, h], .inl rfl, rfl, rfl,
      rfl, rfl, rfl⟩
  | lone _ _ _ hstore _ => exact ⟨core, by rw [hstore, h], .inl rfl, rfl, rfl, rfl, rfl, rfl⟩
  | built _ hs hcore _ =>
    rcases hs with ⟨rfl, -, -, -⟩ | ⟨hs, hc, hpop⟩
    · exact ⟨_, hcore, .inl rfl, rfl, rfl, rfl, rfl, rfl⟩
    · rcases UnfinishedBatches.run_mergePopBatch_eq_ok h hpop with
        ⟨hnone, -, -⟩ | ⟨-, i, a, c, -, hc', heq⟩
      · cases hnone
      · cases hcore.symm.trans hc'
        exact ⟨_, hcore, .inr ⟨hs, hc⟩, by rw [heq], by rw [heq], by rw [heq],
          by rw [heq], by rw [heq]⟩

end

/-! ## A new core -/

section
variable {env : Env} {core : BatchLetCore} {w w' : World} {r : Option Batch}

/-- The objects once the process of a core is there, and dated. -/
def Objects.admitted (env : Env) (core : BatchLetCore) (o : Objects) : Objects :=
  (o.toProcess env core.pid).updateProcess core.pid fun p =>
    if isSet p.creationDate then p else { p with creationDate := some core.timeStart }

/-- The world after a core is admitted. -/
def World.admitted (env : Env) (core : BatchLetCore) (w : World) : World :=
  { w with objects := w.objects.admitted env core, store := w.store.addCore core }

theorem run_admitCore_eq (env : Env) (core : BatchLetCore) (w : World) :
    (admitCore env core).run w = (.ok (w.store.nextId core.pid), w.admitted env core) := rfl

/-- A core is processed: it is admitted, then the factory has one of its outcomes. -/
theorem factoryStep_of_processCore (h : (processCore env core).run w = (.ok r, w')) :
    FactoryStep env (w.store.nextId core.pid) core (w.admitted env core) w' r := by
  rw [processCore, Py.run_bind, run_admitCore_eq] at h
  exact factoryStep_of_run (w.store.core?_addCore_nextId core) h

end

end Survol.Dockit
