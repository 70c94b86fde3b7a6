import Survol.Dockit.Flows
import Survol.Dockit.PlainArguments

/-!
# Nested interrupted calls

In a log whose interrupted calls are properly nested, a resumed line closes the last
open line of its process. The checks of `FilterMatchedBatches` then only depend on
what comes last in a flow when a call is resumed: they fail when an interrupted call
of another function was resumed just before, and has left no batch of its own.

## Main definitions

* `openLines` — the unfinished lines of a process that are open.
* `NestedRun` — the runs with nested calls, with `LeavesBatch`, the condition on steps.
* `NestedInv` — the invariant of their flows, with `run_filterFlows_of_nestedRun`.
-/

open PyText

namespace Survol.Dockit

/-! ## Open lines -/

/-- Whether a function has a model. -/
def isModelled (funcNam : Text) : Bool :=
  match batchModels funcNam with
  | .model _ => true
  | _ => false

/-- The open lines of a process after one more line, the last one first. -/
def nextOpenLines (pid : ℤ) (names : List Text) (core : BatchLetCore) : List Text :=
  if core.pid = pid then
    match core.status with
    | .unfinished => core.funcNam :: names
    | .resumed => names.tail
    | _ => names
  else names

/-- The functions of the unfinished lines of a process that are open, the last one
first. -/
def openLines (pid : ℤ) (l : List BatchLetCore) : List Text := l.foldl (nextOpenLines pid) []

/-- The innermost open call of a process, of the functions that have a model. -/
def innermost (pid : ℤ) (l : List BatchLetCore) : Option Text :=
  (openLines pid l).find? isModelled

/-- A resumed line closes the last open line of its process. -/
def Nests (l : List BatchLetCore) (core : BatchLetCore) : Prop :=
  core.status = .resumed → (openLines core.pid l).head? = some core.funcNam

instance {l : List BatchLetCore} {core : BatchLetCore} : Decidable (Nests l core) :=
  inferInstanceAs (Decidable (_ → _))

/-- An interrupted call that is matched, or that can still be. -/
def IsHalf (u : UnfinishedBatches) (i : CoreId) (c : BatchLetCore) : Prop :=
  c.status = .matched ∨ i ∈ u.stack c.pid c.funcNam

instance {u : UnfinishedBatches} {i : CoreId} {c : BatchLetCore} : Decidable (IsHalf u i c) :=
  inferInstanceAs (Decidable (_ ∨ _))

/-- A condition on a step: the cores before it, the new core, the store and the flows
before it. -/
abbrev StepCondition := List BatchLetCore → BatchLetCore → UnfinishedBatches → MapFlows → Prop

/-- The call that a resumed core completes: its first half is the last one of the stack. -/
def completedCall? (u : UnfinishedBatches) (core : BatchLetCore) : Option BatchLetCore :=
  (u.stack core.pid core.funcNam).getLast?.bind fun i => (u.core? i).map fun a =>
    { core with parsedArgs := a.parsedArgs ++ core.parsedArgs, status := .merged
                unfinishedBatch := some i }

/-- By the texts of the two halves of a call, it is not forgotten, and it does not keep `args`. -/
def keepsOthers (u : UnfinishedBatches) (core : BatchLetCore) (args : List SigArg) : Bool :=
  match completedCall? u core with
  | some c => !returnsEarly core.funcNam c && plainArgs? core.funcNam c ≠ some args
  | none => Arg.sigList core.parsedArgs ≠ args

/-- A call that is resumed inside an interrupted call of another function, when the last
batch of the flow is an interrupted call, is one that is not forgotten, and whose
arguments are not those of this batch. -/
def LeavesBatch : StepCondition := fun l core u mapFlows =>
  core.status = .resumed → isModelled core.funcNam = true →
    ∀ g ∈ (openLines core.pid l).tail.find? isModelled, g ≠ core.funcNam →
    ∀ lst ∈ (mapFlows.flow core.pid).getLast?, ∀ c ∈ u.core? lst.core,
      IsHalf u lst.core c → keepsOthers u core lst.significantArgs = true

/-- No condition. -/
def AnyStep : StepCondition := fun _ _ _ _ => True

/-- The worlds and the flows that are reached by the cores of properly nested lines,
with steps that all meet a condition. -/
inductive NestedRun (env : Env) (meets : StepCondition) :
    List BatchLetCore → World → MapFlows → Prop
  | init : NestedRun env meets [] World.init []
  | step {l : List BatchLetCore} {core : BatchLetCore} {w w' : World} {r : Option Batch}
      {mapFlows : MapFlows} (h : NestedRun env meets l w mapFlows) (hfresh : FreshCore core)
      (hnests : Nests l core) (hrun : (processCore env core).run w = (.ok r, w'))
      (hmeets : meets l core w.store mapFlows) :
      NestedRun env meets (l ++ [core]) w' (sendBatch w'.store mapFlows r)

theorem openLines_append (pid : ℤ) (l : List BatchLetCore) (core : BatchLetCore) :
    openLines pid (l ++ [core]) = nextOpenLines pid (openLines pid l) core := by
  rw [openLines, List.foldl_append]
  rfl

/-! ## What a step does to the cores -/

/-- The store after a core is processed. -/
inductive CoreStep (u : UnfinishedBatches) (core : BatchLetCore) : UnfinishedBatches → Prop
  | kept : CoreStep u core (u.addCore core)
  | pushed (hm : isModelled core.funcNam = true) (hs : core.status = .unfinished) :
      CoreStep u core (u.pushed core)
  | merged {u' : UnfinishedBatches} {i : CoreId} {a : BatchLetCore}
      (hm : isModelled core.funcNam = true) (hs : core.status = .resumed)
      (hok : (u.addCore core).Mergeable i (u.nextId core.pid) a core)
      (h : (u.addCore core).Merged u' i (u.nextId core.pid) a core) : CoreStep u core u'

section
variable {env : Env} {core : BatchLetCore} {w w' : World} {r : Option Batch}

theorem isModelled_of_eq {f : Text} {m : CallModel} (h : batchModels f = .model m) :
    isModelled f = true := by
  rw [isModelled, h]

/-- The models that accept an unfinished call never return early. -/
theorem neverEarly_of_unfinishedIsOk {f : Text} {m : CallModel} (hm : batchModels f = .model m)
    (hok : m.unfinishedIsOk = true) (c : BatchLetCore) : NeverEarly (m.build env c) := by
  rw [eq_of_unfinishedIsOk hm hok]
  exact neverEarly_batchLetLibLibcStartMain

/-- What is known of the batch of a core that is processed. -/
structure StepBatch (u : UnfinishedBatches) (core : BatchLetCore) (u' : UnfinishedBatches)
    (r : Option Batch) : Prop where
  core_eq : ∀ b, r = some b → b.core = u.nextId core.pid
  unfinished : core.status = .unfinished → isModelled core.funcNam = true → r ≠ none
  /-- An interrupted call keeps the arguments that were printed. -/
  half : ∀ b, r = some b → ∀ c, u'.core? b.core = some c → IsHalf u' b.core c →
    ∃ l, b.significantArgs = Arg.sigList l
  /-- A call that keeps other arguments than an interrupted one has its own batch. -/
  resumed : core.status = .resumed → isModelled core.funcNam = true → ∀ l,
    keepsOthers u core (Arg.sigList l) = true → ∃ b, r = some b ∧ b.significantArgs ≠ Arg.sigList l

theorem nextId_not_mem_stack {u : UnfinishedBatches} (hinv : u.PairingInv) (p q : ℤ) (f : Text) :
    u.nextId p ∉ u.stack q f := by
  intro hmem
  obtain ⟨-, c, hc, -⟩ := UnfinishedBatches.mem_openIds.mp (hinv.mem_openIds_of_mem hmem)
  rw [UnfinishedBatches.core?_nextId] at hc
  cases hc

/-- A model that is run on the completed call. -/
theorem exists_batch_of_keepsOthers {u : UnfinishedBatches} {m : CallModel} {c : BatchLetCore}
    {args : Option (List SigArg)} {o o' : Objects} (hm : batchModels core.funcNam = .model m)
    (hc : completedCall? u core = some c) (hbuild : (m.build env c).run o = (.ok args, o'))
    {l : List Arg} (hkeeps : keepsOthers u core (Arg.sigList l) = true) :
    ∃ sig, args = some sig ∧ sig ≠ Arg.sigList l := by
  simp only [keepsOthers, hc, Bool.and_eq_true, Bool.not_eq_true', decide_eq_true_eq] at hkeeps
  cases args with
  | none => exact absurd ((early_batchModels hm env c).only o o' hbuild) (by simp [hkeeps.1])
  | some sig =>
    refine ⟨sig, rfl, ?_⟩
    rintro rfl
    rcases yields_batchModels hm env c o _ o' hbuild with hplain | hnot
    · exact hkeeps.2 hplain
    · exact hnot l rfl

/-- The store, the batch and the core after a core is processed. -/
theorem coreStep_of_processCore (hinv : w.store.PairingInv) (hfresh : FreshCore core)
    (h : (processCore env core).run w = (.ok r, w')) :
    CoreStep w.store core w'.store ∧ StepBatch w.store core w'.store r := by
  have hcore : (w.store.addCore core).core? (w.store.nextId core.pid) = some core :=
    w.store.core?_addCore_nextId core
  have hnot := nextId_not_mem_stack hinv core.pid
  have hstep := factoryStep_of_processCore h
  have hbatch := hstep.core_eq
  cases hstep with
  | unknown hm hstore _ =>
    refine ⟨?_, hbatch, fun _ _ => nofun, fun b hb _ _ _ => ?_, fun _ hmod => ?_⟩
    · rw [hstore]
      exact .kept
    · cases hb
      exact ⟨_, rfl⟩
    · rw [isModelled, hm] at hmod
      cases hmod
  | ignored hm hw =>
    have hno : isModelled core.funcNam ≠ true := by rw [isModelled, hm]; exact nofun
    refine ⟨?_, hbatch, fun _ hmod => absurd hmod hno, nofun, fun _ hmod => absurd hmod hno⟩
    rw [hw]
    exact .kept
  | pushed hm hs hstore _ =>
    refine ⟨?_, hbatch, fun _ _ => nofun, fun b hb _ _ _ => ?_, fun hres _ => ?_⟩
    · have hstore' := (@run_pushBatch w.store core).symm.trans hstore
      rw [← (Prod.mk.inj hstore').2]
      exact .pushed (isModelled_of_eq hm) hs
    · cases hb
      exact ⟨_, rfl⟩
    · cases hs.symm.trans hres
  | lone hm hs hstack hstore _ =>
    refine ⟨?_, hbatch, fun _ _ => nofun, fun b hb _ _ _ => ?_, fun _ _ l hkeeps => ?_⟩
    · rw [hstore]
      exact .kept
    · cases hb
      exact ⟨_, rfl⟩
    · have hnone : completedCall? w.store core = none := by
        have hnil : w.store.stack core.pid core.funcNam = [] := hstack
        rw [completedCall?, hnil]
        rfl
      simp only [keepsOthers, hnone, decide_eq_true_eq] at hkeeps
      exact ⟨_, rfl, hkeeps⟩
  | @built m c args hm hs hc hbuild =>
    rcases hs with ⟨rfl, hres, hu, hstore⟩ | ⟨hs, -, hpop⟩
    · refine ⟨?_, hbatch, fun hunf _ hnone => ?_, fun b hb c' hc' hhalf => ?_,
        fun hs => absurd hs hres⟩
      · rw [hstore]
        exact .kept
      · rw [Option.map_eq_none_iff] at hnone
        exact neverEarly_of_unfinishedIsOk hm (hu hunf) _ _ _ (hnone ▸ hbuild)
      · rw [hbatch b hb] at hc' hhalf
        cases hc.symm.trans hc'
        rw [hstore] at hhalf
        rcases hhalf with hmatched | hmem
        · rcases hfresh.status with h | h | h <;> cases hmatched.symm.trans h
        · exact absurd hmem (hnot _ _)
    · have hadd : (w.store.addCore core).PairingInv := hinv.addCore hfresh (by simp [hs])
      rcases hadd.run_mergePopBatch hcore hs with ⟨-, hrun⟩ | ⟨i, a, u', -, hok, hmerged, hrun⟩
      · cases hpop.symm.trans hrun
      · have hstore := (Prod.mk.inj (hpop.symm.trans hrun)).2
        have hright := hmerged.core?_right
        rw [← hstore] at hright hmerged
        have hcall : c = _ := Option.some.inj (hc.symm.trans hright)
        refine ⟨.merged (isModelled_of_eq hm) hs hok hmerged, hbatch,
          fun hunf => absurd (hs.symm.trans hunf) nofun, fun b hb c' hc' hhalf => ?_,
          fun _ _ l hkeeps => ?_⟩
        · rw [hbatch b hb] at hc' hhalf
          cases hright.symm.trans hc'
          have hmem := hhalf.resolve_left nofun
          rw [hmerged.stack] at hmem
          split at hmem
          · exact absurd (List.dropLast_subset _ hmem) (hnot _ _)
          · exact absurd hmem (hnot _ _)
        · have hcompleted : completedCall? w.store core = some c := by
            have hlast : (w.store.stack core.pid core.funcNam).getLast? = some i := hok.last
            have hleft : w.store.core? i = some a := by
              have h := hok.left
              rwa [UnfinishedBatches.core?_addCore, if_neg hok.ne] at h
            rw [completedCall?, hlast, Option.bind_some, hleft, hcall]
            rfl
          obtain ⟨sig, rfl, hsig⟩ := exists_batch_of_keepsOthers hm hcompleted hbuild hkeeps
          exact ⟨_, rfl, hsig⟩

end

namespace CoreStep

variable {u u' : UnfinishedBatches} {core : BatchLetCore} {i : CoreId}

/-- A core that was there keeps its function, is not merged now, and is no new half. -/
theorem old (h : CoreStep u core u') {c' : BatchLetCore} (hi : i ≠ u.nextId core.pid)
    (hc' : u'.core? i = some c') : ∃ c, u.core? i = some c ∧ c.funcNam = c'.funcNam ∧
      (c'.status = .merged → c.status = .merged) ∧ (IsHalf u' i c' → IsHalf u i c) := by
  have hadd : (u.addCore core).core? i = u.core? i := by
    rw [UnfinishedBatches.core?_addCore, if_neg hi]
  cases h with
  | kept => exact ⟨c', hadd ▸ hc', rfl, id, id⟩
  | pushed hm hs =>
    have hcore : u.core? i = some c' := hadd ▸ hc'
    refine ⟨c', hcore, rfl, id, fun hhalf => hhalf.imp_right fun hmem => ?_⟩
    rw [UnfinishedBatches.pushed, UnfinishedBatches.stack_setStack] at hmem
    split at hmem
    · rename_i heq
      rw [heq.1, heq.2, List.mem_append, List.mem_singleton, ← heq.1] at hmem
      rw [← heq.1]
      exact hmem.resolve_right hi
    · exact hmem
  | @merged _ k a hm hs hok h =>
    rw [h.core?, if_neg hi] at hc'
    have hstack : ∀ p f, i ∈ u'.stack p f → i ∈ u.stack p f := by
      intro p f hmem
      rw [h.stack] at hmem
      split at hmem
      · exact List.dropLast_subset _ hmem
      · exact hmem
    split at hc'
    · rename_i hik
      cases hc'
      subst hik
      refine ⟨a, hadd ▸ hok.left, rfl, ?_, fun _ => .inr ?_⟩
      · rintro ⟨⟩
      · rw [hok.pid, hok.funcNam]
        exact List.mem_of_getLast? hok.last
    · exact ⟨c', hadd ▸ hc', rfl, id, fun hhalf => hhalf.imp_right (hstack _ _)⟩

/-- A core that was there is still there. -/
theorem exists_core? (h : CoreStep u core u') {c : BatchLetCore} (hc : u.core? i = some c) :
    ∃ c', u'.core? i = some c' := by
  have hadd := UnfinishedBatches.core?_addCore_of_some core hc
  cases h with
  | kept => exact ⟨c, hadd⟩
  | pushed hm hs => exact ⟨c, hadd⟩
  | merged hm hs hok h =>
    rw [h.core?]
    split
    · exact ⟨_, rfl⟩
    · split
      · exact ⟨_, rfl⟩
      · exact ⟨c, hadd⟩

/-- The new core: it is merged only by a resumed line, and waits only after an
unfinished one, of functions that have a model. -/
theorem new (h : CoreStep u core u') (hinv : u.PairingInv) (hfresh : FreshCore core) :
    ∃ c', u'.core? (u.nextId core.pid) = some c' ∧ c'.funcNam = core.funcNam ∧
      (c'.status = .merged → core.status = .resumed ∧ isModelled core.funcNam = true) ∧
      (IsHalf u' (u.nextId core.pid) c' →
        core.status = .unfinished ∧ isModelled core.funcNam = true) := by
  have hnew := nextId_not_mem_stack hinv core.pid
  have hfreshStatus : core.status ≠ .matched ∧ core.status ≠ .merged := by
    rcases hfresh.status with hs | hs | hs <;> rw [hs] <;> exact ⟨nofun, nofun⟩
  cases h with
  | kept =>
    refine ⟨core, u.core?_addCore_nextId core, rfl, fun hs => absurd hs hfreshStatus.2,
      fun hhalf => ?_⟩
    exact (hhalf.resolve_left hfreshStatus.1 |> hnew _ _).elim
  | pushed hm hs =>
    exact ⟨core, u.core?_addCore_nextId core, rfl, fun hs' => absurd hs' hfreshStatus.2,
      fun _ => ⟨hs, hm⟩⟩
  | merged hm hs hok h =>
    refine ⟨_, h.core?_right, rfl, fun _ => ⟨hs, hm⟩, fun hhalf => ?_⟩
    have hmem := hhalf.resolve_left nofun
    rw [h.stack] at hmem
    split at hmem
    · exact (hnew _ _ (List.dropLast_subset _ hmem)).elim
    · exact (hnew _ _ hmem).elim

end CoreStep

/-! ## The invariant -/

/-- An interrupted call comes just before a merged call of the same function only. -/
def Suits (u : UnfinishedBatches) (i j : CoreId) : Prop :=
  ∀ c d, u.core? i = some c → u.core? j = some d → IsHalf u i c → d.status = .merged →
    c.funcNam = d.funcNam

/-- What holds of the flows of a nested run. -/
structure NestedInv (l : List BatchLetCore) (u : UnfinishedBatches) (mapFlows : MapFlows) :
    Prop where
  pid : ∀ p, ∀ i ∈ coreIds (mapFlows.flow p), i.pid = p
  core : ∀ p, ∀ i ∈ coreIds (mapFlows.flow p), ∃ c, u.core? i = some c
  nodup : ∀ p, (coreIds (mapFlows.flow p)).Nodup
  chain : ∀ p, (coreIds (mapFlows.flow p)).IsChain (Suits u)
  /-- An interrupted call that comes last is of the function of the innermost open call. -/
  last : ∀ p i, (coreIds (mapFlows.flow p)).getLast? = some i → ∀ c, u.core? i = some c →
    IsHalf u i c → ∀ g, innermost p l = some g → c.funcNam = g
  /-- The batch of an interrupted call has the arguments that were printed. -/
  printed : ∀ p, ∀ b ∈ mapFlows.flow p, ∀ c, u.core? b.core = some c → IsHalf u b.core c →
    ∃ args, b.significantArgs = Arg.sigList args

/-- The checks of the filter hold for the flows of a nested run. -/
theorem NestedInv.linked {l : List BatchLetCore} {u : UnfinishedBatches} {mapFlows : MapFlows}
    (h : NestedInv l u mapFlows) (hinv : u.PairingInv) (p : ℤ) :
    Linked u (coreIds (mapFlows.flow p)) where
  core := h.core p
  matched i _ c hc hs := by
    obtain ⟨j, m, hj, hm, -, hback⟩ := hinv.matched hc hs
    exact ⟨j, m, hj, hm, hback⟩
  merged j _ c hc hs := by
    obtain ⟨i, m, hi, hm, -, hback⟩ := hinv.merged_links hc hs
    exact ⟨i, m, hi, hm, hback⟩
  nodup := h.nodup p
  chain := (h.chain p).imp fun i j hsuits c d hc hd hs => hsuits c d hc hd (.inl hs)

section
variable {env : Env} {core : BatchLetCore} {l : List BatchLetCore} {u u' : UnfinishedBatches}
  {mapFlows : MapFlows} {r : Option Batch}

/-- The flow of a process after a step: it has the same cores, and the last one has the
function of the new core if it was counted, or the new core is added. -/
theorem coreIds_sendBatch (h : CoreStep u core u') (hinv : u.PairingInv)
    (hfresh : FreshCore core) (hr : ∀ b, r = some b → b.core = u.nextId core.pid) :
    (coreIds ((sendBatch u' mapFlows r).flow core.pid) = coreIds (mapFlows.flow core.pid) ∧
      (r ≠ none → ∃ i c, (coreIds (mapFlows.flow core.pid)).getLast? = some i ∧
        u'.core? i = some c ∧ c.funcNam = core.funcNam)) ∨
    coreIds ((sendBatch u' mapFlows r).flow core.pid) =
      coreIds (mapFlows.flow core.pid) ++ [u.nextId core.pid] := by
  cases r with
  | none => exact .inl ⟨rfl, fun hne => absurd rfl hne⟩
  | some b =>
    have hb := hr b rfl
    have hpid : b.core.pid = core.pid := by rw [hb]; rfl
    have hflow : (sendBatch u' mapFlows (some b)).flow core.pid =
        addBatch u' (mapFlows.flow core.pid) b := by
      rw [← hpid]
      exact flow_sendBatch_self
    rw [hflow]
    rcases addBatch_cases u' (mapFlows.flow core.pid) b with ⟨lst, hlst, hname, hids⟩ | heq
    · refine .inl ⟨hids, fun _ => ?_⟩
      obtain ⟨c', hc', hfunc, -⟩ := h.new hinv hfresh
      simp only [Batch.funcNam?, hb, hc', Option.map_some, Option.map_eq_some_iff] at hname
      obtain ⟨c, hc, hcf⟩ := hname
      refine ⟨lst.core, c, ?_, hc, hcf.trans hfunc⟩
      rw [coreIds, List.getLast?_map, hlst]
      rfl
    · rw [heq]
      refine .inr ?_
      simp [coreIds, hb]

/-- The innermost open call after a line of the process. -/
theorem innermost_append (hnests : Nests l core) {g : Text}
    (h : innermost core.pid (l ++ [core]) = some g) :
    (core.status = .unfinished ∧ isModelled core.funcNam = true ∧ g = core.funcNam) ∨
      (core.status = .resumed ∧ isModelled core.funcNam = true ∧
        innermost core.pid l = some core.funcNam ∧
        (openLines core.pid l).tail.find? isModelled = some g) ∨
      innermost core.pid l = some g := by
  rw [innermost, openLines_append, nextOpenLines, if_pos rfl] at h
  split at h
  · rename_i hs
    rw [List.find?_cons] at h
    split at h
    · rename_i hm
      exact .inl ⟨hs, hm, (Option.some.inj h).symm⟩
    · exact .inr (.inr h)
  · rename_i hs
    have hhead := hnests hs
    rw [innermost]
    cases hopen : openLines core.pid l with
    | nil =>
      rw [hopen] at h
      cases h
    | cons f names =>
      rw [hopen] at h hhead
      cases hhead
      rw [List.find?_cons]
      cases hm : isModelled core.funcNam with
      | true => exact .inr (.inl ⟨hs, rfl, rfl, h⟩)
      | false => exact .inr (.inr h)
  · exact .inr (.inr h)

theorem innermost_of_ne {p : ℤ} (hp : core.pid ≠ p) :
    innermost p (l ++ [core]) = innermost p l := by
  rw [innermost, openLines_append, nextOpenLines, if_neg hp]
  rfl

/-- A resumed line of a function with a model closes the innermost open call. -/
theorem innermost_of_nests (hnests : Nests l core) (hs : core.status = .resumed)
    (hm : isModelled core.funcNam = true) : innermost core.pid l = some core.funcNam := by
  have hhead := hnests hs
  rw [innermost]
  cases hopen : openLines core.pid l with
  | nil =>
    rw [hopen] at hhead
    cases hhead
  | cons f names =>
    rw [hopen] at hhead
    cases hhead
    rw [List.find?_cons, hm]

theorem NestedInv.ne_nextId (h : NestedInv l u mapFlows) {p q : ℤ} {i : CoreId}
    (hi : i ∈ coreIds (mapFlows.flow p)) : i ≠ u.nextId q := by
  rintro rfl
  obtain ⟨c, hc⟩ := h.core p _ hi
  rw [UnfinishedBatches.core?_nextId] at hc
  cases hc

/-- The flow of a process is as it was, or the new core is added to it. -/
theorem coreIds_step (hstep : CoreStep u core u') (hinv : u.PairingInv) (hfresh : FreshCore core)
    (hr : ∀ b, r = some b → b.core = u.nextId core.pid) (p : ℤ) :
    coreIds ((sendBatch u' mapFlows r).flow p) = coreIds (mapFlows.flow p) ∨
      p = core.pid ∧ coreIds ((sendBatch u' mapFlows r).flow p) =
        coreIds (mapFlows.flow p) ++ [u.nextId core.pid] := by
  by_cases hp : p = core.pid
  · subst hp
    exact (coreIds_sendBatch hstep hinv hfresh hr).imp And.left fun heq => ⟨rfl, heq⟩
  · rw [flow_sendBatch_of_ne]
    · exact .inl rfl
    · intro b hb heq
      rw [hr b hb] at heq
      exact hp heq.symm

/-- Old neighbours still suit. -/
theorem NestedInv.chain_step (h : NestedInv l u mapFlows) (hstep : CoreStep u core u') (p : ℤ) :
    (coreIds (mapFlows.flow p)).IsChain (Suits u') := by
  refine (h.chain p).imp_of_mem_imp fun i j hi hj hsuits c' d' hc' hd' hhalf hs => ?_
  obtain ⟨c, hc, hcf, -, hchalf⟩ := hstep.old (h.ne_nextId hi) hc'
  obtain ⟨d, hd, hdf, hdm, -⟩ := hstep.old (h.ne_nextId hj) hd'
  rw [← hcf, ← hdf]
  exact hsuits c d hc hd (hchalf hhalf) (hdm hs)

/-- The last interrupted call, when the flow keeps its cores. -/
theorem NestedInv.last_kept (h : NestedInv l u mapFlows) (hstep : CoreStep u core u')
    (hnests : Nests l core) {p : ℤ} {i : CoreId} {c : BatchLetCore} {g : Text}
    (hi : (coreIds (mapFlows.flow p)).getLast? = some i) (hc : u'.core? i = some c)
    (hhalf : IsHalf u' i c) (hg : innermost p (l ++ [core]) = some g)
    (hname : p = core.pid → core.status = .unfinished → isModelled core.funcNam = true →
      c.funcNam = core.funcNam)
    (hresumed : p = core.pid → core.status = .resumed → isModelled core.funcNam = true →
      (openLines core.pid l).tail.find? isModelled = some g → g = core.funcNam) :
    c.funcNam = g := by
  obtain ⟨c₀, hc₀, hcf, -, hchalf⟩ := hstep.old (h.ne_nextId (List.mem_of_getLast? hi)) hc
  have hlast := h.last p i hi c₀ hc₀ (hchalf hhalf)
  by_cases hp : core.pid = p
  · subst hp
    rcases innermost_append hnests hg with ⟨hs, hm, rfl⟩ | ⟨hs, hm, hin, htail⟩ | hin
    · exact hname rfl hs hm
    · rw [← hcf, hlast _ hin, hresumed rfl hs hm htail]
    · rw [← hcf, hlast _ hin]
  · rw [innermost_of_ne hp] at hg
    rw [← hcf, hlast _ hg]

/-- The batches of a flow after a step: one of them may be counted once more, or is new. -/
theorem mem_flow_sendBatch {p : ℤ} {b : Batch} (hb : b ∈ (sendBatch u' mapFlows r).flow p) :
    (∃ b' ∈ mapFlows.flow p, b.core = b'.core ∧ b.significantArgs = b'.significantArgs) ∨
      r = some b := by
  cases r with
  | none => exact .inl ⟨b, hb, rfl, rfl⟩
  | some b' =>
    by_cases hp : b'.core.pid = p
    · subst hp
      rw [flow_sendBatch_self, addBatch] at hb
      split at hb
      · exact .inr (congrArg some (List.mem_singleton.mp hb).symm)
      · rename_i lst hlst
        split at hb
        · rw [List.mem_append, List.mem_singleton] at hb
          rcases hb with hb | rfl
          · exact .inl ⟨b, List.dropLast_subset _ hb, rfl, rfl⟩
          · exact .inl ⟨lst, List.mem_of_getLast? hlst, rfl, rfl⟩
        · rw [List.mem_append, List.mem_singleton] at hb
          rcases hb with hb | rfl
          · exact .inl ⟨b, hb, rfl, rfl⟩
          · exact .inr rfl
    · rw [flow_sendBatch_of_ne _ fun b₁ hb₁ => Option.some.inj hb₁ ▸ hp] at hb
      exact .inl ⟨b, hb, rfl, rfl⟩

theorem NestedInv.printed_step (h : NestedInv l u mapFlows) (hstep : CoreStep u core u')
    (hbatch : StepBatch u core u' r) (p : ℤ) : ∀ b ∈ (sendBatch u' mapFlows r).flow p, ∀ c,
      u'.core? b.core = some c → IsHalf u' b.core c →
        ∃ args, b.significantArgs = Arg.sigList args := by
  intro b hb c hc hhalf
  rcases mem_flow_sendBatch hb with ⟨b', hb', hcore, hargs⟩ | rfl
  · rw [hcore] at hc hhalf
    have hmem : b'.core ∈ coreIds (mapFlows.flow p) := List.mem_map_of_mem hb'
    obtain ⟨c₀, hc₀, -, -, hchalf⟩ := hstep.old (h.ne_nextId hmem) hc
    rw [hargs]
    exact h.printed p b' hb' c₀ hc₀ (hchalf hhalf)
  · exact hbatch.half b rfl c hc hhalf

/-- **The invariant holds after one more line.** -/
theorem NestedInv.step (h : NestedInv l u mapFlows) (hstep : CoreStep u core u')
    (hinv : u.PairingInv) (hfresh : FreshCore core) (hnests : Nests l core)
    (hbatch : StepBatch u core u' r) (hleaves : LeavesBatch l core u mapFlows) :
    NestedInv (l ++ [core]) u' (sendBatch u' mapFlows r) := by
  have hr := hbatch.core_eq
  obtain ⟨cnew, hcnew, hnewf, hnewm, hnewhalf⟩ := hstep.new hinv hfresh
  have hids := @coreIds_step core u u' mapFlows r hstep hinv hfresh hr
  refine ⟨fun p i hi => ?_, fun p i hi => ?_, fun p => ?_, fun p => ?_, ?_,
    h.printed_step hstep hbatch⟩
  · rcases hids p with heq | ⟨rfl, heq⟩
    · exact h.pid p i (heq ▸ hi)
    · rw [heq, List.mem_append, List.mem_singleton] at hi
      rcases hi with hi | rfl
      · exact h.pid _ i hi
      · rfl
  · have hold : i ∈ coreIds (mapFlows.flow p) → ∃ c, u'.core? i = some c := by
      intro hi
      obtain ⟨c, hc⟩ := h.core p i hi
      exact hstep.exists_core? hc
    rcases hids p with heq | ⟨rfl, heq⟩
    · exact hold (heq ▸ hi)
    · rw [heq, List.mem_append, List.mem_singleton] at hi
      rcases hi with hi | rfl
      · exact hold hi
      · exact ⟨cnew, hcnew⟩
  · rcases hids p with heq | ⟨rfl, heq⟩
    · exact heq ▸ h.nodup p
    · rw [heq]
      rw [List.nodup_append]
      refine ⟨h.nodup _, by simp, fun a ha b hb => ?_⟩
      rw [List.mem_singleton.mp hb]
      exact h.ne_nextId ha
  · rcases hids p with heq | ⟨rfl, heq⟩
    · exact heq ▸ h.chain_step hstep p
    · rw [heq, List.isChain_append]
      refine ⟨h.chain_step hstep _, .singleton _, fun i hi j hj => ?_⟩
      cases hj
      intro c d hc hd hhalf hs
      cases hcnew.symm.trans hd
      obtain ⟨hres, hm⟩ := hnewm hs
      have hi' := Option.mem_def.mp hi
      obtain ⟨c₀, hc₀, hcf, -, hchalf⟩ :=
        hstep.old (h.ne_nextId (List.mem_of_getLast? hi')) hc
      rw [← hcf, hnewf]
      exact h.last _ i hi' c₀ hc₀ (hchalf hhalf) _ (innermost_of_nests hnests hres hm)
  · intro p i hi c hc hhalf g hg
    by_cases hp : p = core.pid
    · subst hp
      rcases @coreIds_sendBatch core u u' mapFlows r hstep hinv hfresh hr with
        ⟨heq, hcounted⟩ | heq
      · rw [heq] at hi
        refine h.last_kept hstep hnests hi hc hhalf hg (fun _ hs hm => ?_) fun _ hs hm htail => ?_
        · obtain ⟨i', c', hi', hc', hcf⟩ := hcounted (hbatch.unfinished hs hm)
          cases hi.symm.trans hi'
          cases hc.symm.trans hc'
          exact hcf
        · by_contra hne
          obtain ⟨lst, hlst, rfl⟩ : ∃ lst, (mapFlows.flow core.pid).getLast? = some lst ∧
              lst.core = i := by
            rw [coreIds, List.getLast?_map, Option.map_eq_some_iff] at hi
            exact hi
          obtain ⟨c₀, hc₀, -, -, hchalf⟩ :=
            hstep.old (h.ne_nextId (List.mem_of_getLast? hi)) hc
          have hkeeps := hleaves hs hm g htail hne lst hlst c₀ hc₀ (hchalf hhalf)
          obtain ⟨args, hargs⟩ := h.printed _ lst (List.mem_of_getLast? hlst) c₀ hc₀ (hchalf hhalf)
          rw [hargs] at hkeeps
          obtain ⟨b, rfl, hother⟩ := hbatch.resumed hs hm args hkeeps
          have hne : lst.significantArgs ≠ b.significantArgs := hargs ▸ hother.symm
          have hsame : sameCall u' lst b = false := by simp [sameCall, hne]
          have hb : b.core.pid = core.pid := by
            rw [hr b rfl]
            rfl
          have hadded := addBatch_of_not_sameCall hlst hsame
          rw [← hb] at hadded heq
          rw [flow_sendBatch_self, hadded] at heq
          have hlen := congrArg List.length heq
          simp [coreIds] at hlen
      · rw [heq, List.getLast?_concat] at hi
        cases hi
        cases hcnew.symm.trans hc
        obtain ⟨hs, hm⟩ := hnewhalf hhalf
        rw [innermost, openLines_append, nextOpenLines, if_pos rfl, hs] at hg
        simp only [List.find?_cons, hm] at hg
        exact hnewf.trans (Option.some.inj hg)
    · have hflow := (hids p).resolve_right fun hnew => hp hnew.1
      rw [hflow] at hi
      exact h.last_kept hstep hnests hi hc hhalf hg (fun heq => absurd heq hp)
        fun heq => absurd heq hp

end

section
variable {env : Env} {l : List BatchLetCore} {w : World} {mapFlows : MapFlows}

theorem NestedRun.reachable {meets : StepCondition} (h : NestedRun env meets l w mapFlows) :
    Reachable env w := by
  induction h with
  | init => exact .init
  | step _ hfresh _ hrun _ ih => exact .step ih hfresh hrun

/-- The invariant of a whole run. -/
theorem NestedRun.nestedInv (h : NestedRun env LeavesBatch l w mapFlows) :
    NestedInv l w.store mapFlows := by
  induction h with
  | init => exact ⟨nofun, nofun, fun _ => .nil, fun _ => .nil, nofun, nofun⟩
  | step h hfresh hnests hrun hleaves ih =>
    have hinv := h.reachable.pairingInv
    obtain ⟨hstep, hbatch⟩ := coreStep_of_processCore hinv hfresh hrun
    exact ih.step hstep hinv hfresh hnests hbatch hleaves

/-- **No check of the filter fails**, for the flows of any nested run whose calls
leave their batch, filtered in any order. -/
theorem run_filterFlows_of_nestedRun (h : NestedRun env LeavesBatch l w mapFlows)
    (pids : List ℤ) (hpids : pids.Nodup) :
    ∃ u, (filterFlows mapFlows pids).run w.store = (.ok (), u) :=
  have hinv := h.reachable.pairingInv
  run_filterFlows hinv (fun p => h.nestedInv.linked hinv p) h.nestedInv.pid pids hpids
    fun _ _ => rfl

end

/-! ## A read that is resumed inside a write -/

/-- A condition that can be checked. -/
abbrev Checkable (meets : StepCondition) :=
  ∀ l core u mapFlows, Decidable (meets l core u mapFlows)

instance : Checkable AnyStep := fun _ _ _ _ => inferInstanceAs (Decidable True)

instance : Checkable LeavesBatch := fun _ _ _ _ => inferInstanceAs (Decidable (_ → _))

/-- The world and the flows after some more cores of a nested run. -/
def sendCores (env : Env) (meets : StepCondition) [inst : Checkable meets] (l : List BatchLetCore)
    (w : World) (mapFlows : MapFlows) : List BatchLetCore → Option (World × MapFlows)
  | [] => some (w, mapFlows)
  | core :: cores =>
    match (processCore env core).run w with
    | (.ok r, w') =>
      haveI := inst l core w.store mapFlows
      if Nests l core ∧ meets l core w.store mapFlows then
        sendCores env meets (l ++ [core]) w' (sendBatch w'.store mapFlows r) cores
      else none
    | (.error _, _) => none

theorem NestedRun.append {env : Env} {meets : StepCondition} [Checkable meets]
    {l cores : List BatchLetCore} {w w' : World} {mapFlows mapFlows' : MapFlows}
    (h : NestedRun env meets l w mapFlows) (hfresh : ∀ core ∈ cores, FreshCore core)
    (hsend : sendCores env meets l w mapFlows cores = some (w', mapFlows')) :
    NestedRun env meets (l ++ cores) w' mapFlows' := by
  induction cores generalizing l w mapFlows with
  | nil =>
    cases hsend
    rwa [List.append_nil]
  | cons core cores ih =>
    rw [sendCores] at hsend
    split at hsend
    · rename_i r w₁ hrun
      split at hsend
      · rename_i hok
        have hstep := h.step (hfresh core List.mem_cons_self) hok.1 hrun hok.2
        have := ih hstep (fun c hc => hfresh c (List.mem_cons_of_mem core hc)) hsend
        rwa [List.append_assoc] at this
      · cases hsend
    · cases hsend

/-- The cores of the lines of a log. -/
def coresOfLines (lines : List Text) : List BatchLetCore :=
  lines.filterMap fun line => (parseLine 7 .strace line).toOption.join

theorem fresh_of_mem_coresOfLines {lines : List Text} :
    ∀ core ∈ coresOfLines lines, FreshCore core := by
  intro core hcore
  obtain ⟨line, -, hline⟩ := List.mem_filterMap.mp hcore
  cases hparse : parseLine 7 .strace line with
  | error e =>
    rw [hparse] at hline
    cases hline
  | ok o =>
    rw [hparse] at hline
    cases o with
    | none => cases hline
    | some c =>
      cases hline
      exact fresh_of_parseLine hparse

/-- A read is interrupted and resumed while a write is interrupted. -/
def readInWrite (retValue : Text) : List Text :=
  ["10:00:00.000001 write(4</a>, \"x\" <unfinished ...>\n".toList,
    "10:00:00.000002 read(3</b>,  <unfinished ...>\n".toList,
    "10:00:00.000003 <... read resumed> \"y\", 10) = ".toList ++ retValue ++
      " <0.000006>\n".toList,
    "10:00:00.000004 <... write resumed> , 1) = 1 <0.000006>\n".toList]

/-- The run of these lines. -/
def readInWriteRun (meets : StepCondition) [Checkable meets] (retValue : Text) :
    Option (World × MapFlows) :=
  sendCores (.replayed 7 "/".toList) meets [] .init [] (coresOfLines (readInWrite retValue))

theorem nestedRun_readInWrite {meets : StepCondition} [Checkable meets] {retValue : Text}
    {w : World} {mapFlows : MapFlows} (h : readInWriteRun meets retValue = some (w, mapFlows)) :
    NestedRun (.replayed 7 "/".toList) meets (coresOfLines (readInWrite retValue)) w mapFlows := by
  have hinit : NestedRun (.replayed 7 "/".toList) meets [] .init [] := .init
  rw [← List.nil_append (coresOfLines _)]
  exact hinit.append fresh_of_mem_coresOfLines h

/-- The read that fails leaves no batch, and a check of the filter fails. -/
theorem failedRead_not_filtered :
    ¬ ∀ (env : Env) (l : List BatchLetCore) (w : World) (mapFlows : MapFlows) (pids : List ℤ),
      NestedRun env AnyStep l w mapFlows → pids.Nodup →
      ∃ u, (filterFlows mapFlows pids).run w.store = (.ok (), u) := by
  intro h
  have hread : (readInWriteRun AnyStep "-1 EAGAIN".toList).isSome ∧
      ∀ x ∈ readInWriteRun AnyStep "-1 EAGAIN".toList,
        ((filterFlows x.2 [7]).run x.1.store).1 =
          .error (inconsistentNeighbours ['1'] ["write@SYS".toList, "read@SYS".toList]) := by
    decide +kernel
  obtain ⟨hsome, hfails⟩ := hread
  obtain ⟨⟨w, mapFlows⟩, hrun⟩ := Option.isSome_iff_exists.mp hsome
  obtain ⟨u, hu⟩ := h _ _ w mapFlows [7] (nestedRun_readInWrite hrun) (by decide)
  have := hfails _ hrun
  rw [hu] at this
  cases this

/-- The read that succeeds leaves its batch. -/
theorem run_filterFlows_of_nestedRun_read :
    ∃ w mapFlows, NestedRun (.replayed 7 "/".toList) LeavesBatch
        (coresOfLines (readInWrite "10".toList)) w mapFlows ∧
      ∃ u, (filterFlows mapFlows [7]).run w.store = (.ok (), u) := by
  have hsome : (readInWriteRun LeavesBatch "10".toList).isSome := by decide +kernel
  obtain ⟨⟨w, mapFlows⟩, hrun⟩ := Option.isSome_iff_exists.mp hsome
  have h := nestedRun_readInWrite hrun
  exact ⟨w, mapFlows, h, run_filterFlows_of_nestedRun h [7] (by decide)⟩

end Survol.Dockit
