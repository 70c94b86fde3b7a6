import Survol.Dockit.CoreRuns
import Survol.Dockit.ProcessForest

/-!
# The dates of the processes

A process is created, for the program, at the time of its first call, or at the time
of the `clone` or the `vfork` that names it, whichever comes last; the result of an
interrupted creation is only printed with its second half, when the child may have
run already. So a creation date is not later than the calls of the process and than
its termination, unless a creation names a process that has run before.

## Main definitions

* `DateStep` — what a call does to the dates.
* `NoLateCreation` — what a call must not name.
* `DatedFirst` — the property, with `datedFirst_of_noLateCreation`.
-/

open PyText

namespace Survol.Dockit

namespace Dates

variable (D : Dates) (pid : ℤ) (timeStamp : Text)

/-- A process appears, if it is new. -/
def appear : Dates :=
  match D.get? pid with
  | some _ => D
  | none => D.set pid (none, none)

/-- The creation date is set. -/
def create : Dates := D.update pid fun d => (some timeStamp, d.2)

/-- The termination date is set. -/
def terminate : Dates := D.update pid fun d => (d.1, some timeStamp)

/-- The creation date is set, if it was not. -/
def mark : Dates := D.update pid fun d => if isSet d.1 then d else (some timeStamp, d.2)

variable {D pid timeStamp}

theorem get?_appear (c : ℤ) : (D.appear pid).get? c =
    if c = pid ∧ D.get? c = none then some (none, none) else D.get? c := by
  cases h : D.get? pid with
  | some d =>
    simp only [appear, h]
    rw [if_neg]
    rintro ⟨rfl, hnone⟩
    rw [h] at hnone
    cases hnone
  | none =>
    simp only [appear, h, Dict.get?_set]
    by_cases hc : c = pid
    · subst hc
      simp [h]
    · simp [hc, Ne.symm hc]

theorem mem_keys_appear {c : ℤ} : c ∈ (D.appear pid).keys ↔ c = pid ∨ c ∈ D.keys := by
  rw [← Dict.get?_isSome_iff, ← Dict.get?_isSome_iff, get?_appear]
  by_cases hc : c = pid
  · cases h : D.get? c <;> simp [hc]
  · simp [hc]

theorem appear_of_mem (h : pid ∈ D.keys) : D.appear pid = D := by
  rw [← Dict.get?_isSome_iff, Option.isSome_iff_exists] at h
  obtain ⟨d, hd⟩ := h
  simp only [appear, hd]

end Dates

/-! ## The dates of the objects -/

namespace Objects

variable (w : Objects) {env : Env} {pid : ℤ}

theorem keys_dates : w.dates.keys = w.processes.keys := Dict.keys_mapVals _ _

theorem dates_updateProcess {f : CIMProcess → CIMProcess}
    {f' : Option Text × Option Text → Option Text × Option Text}
    (h : ∀ o, ((f o).creationDate, (f o).terminationDate) = f' (o.creationDate, o.terminationDate)) :
    (w.updateProcess pid f).dates = w.dates.update pid f' :=
  Dict.mapVals_update_comm h _ _

/-- The dates are the same, when something else of a process changes. -/
theorem dates_updateProcess_of_same {f : CIMProcess → CIMProcess}
    (hc : ∀ o, (f o).creationDate = o.creationDate)
    (ht : ∀ o, (f o).terminationDate = o.terminationDate) :
    (w.updateProcess pid f).dates = w.dates :=
  Dict.mapVals_update (fun o => Prod.ext (hc o) (ht o)) _ _

theorem dates_toProcess : (w.toProcess env pid).dates = w.dates.appear pid := by
  have hget : w.dates.get? pid =
      (w.processes.get? pid).map fun o => (o.creationDate, o.terminationDate) :=
    Dict.get?_mapVals _ _ _
  cases ho : w.processes.get? pid with
  | some o =>
    rw [ho] at hget
    simp only [toProcess, ho, Dates.appear, hget, Option.map_some]
  | none =>
    rw [ho] at hget
    have hexe : ∀ exe, (w.toExecutable exe).dates = w.dates := by
      intro exe
      cases exe with
      | none => rfl
      | some name =>
        rw [toExecutable, toDataFile]
        split <;> rfl
    have hadopt : ∀ (o : Objects) p, (o.adopt p pid).dates = o.dates := by
      intro o p
      cases p with
      | none => rfl
      | some first => exact o.dates_updateProcess_of_same (fun _ => rfl) fun _ => rfl
    simp only [toProcess, ho, Dates.appear, hget, Option.map_none, newProcess]
    rw [← hexe ((env.liveProcess pid).bind (·.exe)),
      ← hadopt (w.toExecutable ((env.liveProcess pid).bind (·.exe))) w.onlyProcess]
    exact Dict.mapVals_set _ _ _ _

theorem dates_admitted (core : BatchLetCore) : (w.admitted env core).dates =
    (w.dates.appear core.pid).mark core.pid core.timeStart := by
  rw [admitted, ← dates_toProcess ]
  refine (w.toProcess env core.pid).dates_updateProcess fun o => ?_
  split <;> rfl

end Objects

theorem dates_setParentProcess (pid p : ℤ) (w : Objects) :
    ((setParentProcess pid p).run w).2.dates = w.dates := by
  rw [setParentProcess]
  split
  · rfl
  · rw [Py.run_modify, Objects.dates_updateProcess_of_same, Objects.dates_updateProcess_of_same] <;>
      exact fun _ => rfl

/-! ## What a call does to the dates -/

/-- What a call does to the dates. -/
inductive DateStep (core : BatchLetCore) (D : Dates) : Dates → Prop
  | same : DateStep core D D
  | appeared {c : ℤ} (h : c = core.pid) : DateStep core D (D.appear c)
  | created {c : ℤ} (hf : core.funcNam ∈ creatingCalls) (h : namedPid core = some c)
      (hne : c ≠ core.pid) : DateStep core D ((D.appear c).create c core.timeStart)
  | ended {c : ℤ} (hf : core.funcNam = waitingCall) (h : namedPid core = some c) :
      DateStep core D ((D.appear c).terminate c core.timeStart)

section
variable {env : Env} {core : BatchLetCore} {w w' : Objects}
  {x : Except PyExn (Option (List SigArg))}

theorem dateStep_newChild {aPid : ℤ} {isThread : Bool} (hf : core.funcNam ∈ creatingCalls)
    (hname : namedPid core = some aPid) (h : (newChild env core aPid isThread).run w = (x, w')) :
    DateStep core w.dates w'.dates := by
  have hdates : (w.withChild env aPid isThread).dates = w.dates.appear aPid := by
    rw [← Objects.dates_toProcess, Objects.withChild]
    cases isThread with
    | false => rfl
    | true => exact Objects.dates_updateProcess_of_same _ (fun _ => rfl) fun _ => rfl
  rw [run_newChild] at h
  split at h
  · rename_i hself
    cases h
    exact hdates ▸ .appeared hself
  · rename_i hne
    cases h
    have hcreate : ∀ u : Objects, (u.updateProcess aPid fun p =>
        { p with creationDate := some core.timeStart }).dates = u.dates.create aPid core.timeStart :=
      fun u => u.dates_updateProcess fun _ => rfl
    rw [hcreate, dates_setParentProcess, hdates]
    exact .created hf hname hne

theorem dateStep_wait4 (hf : core.funcNam = waitingCall)
    (h : (batchLetSysWait4 env core).run w = (x, w')) : DateStep core w.dates w'.dates := by
  rcases run_wait4 hf h with ⟨rfl, -⟩ | ⟨aPid, hpid, h⟩
  · exact .same
  · obtain ⟨o, ho⟩ : ∃ o, o = (w.toProcess env aPid).updateProcess aPid
      fun p => { p with terminationDate := some core.timeStart } := ⟨_, rfl⟩
    have hdates : o.dates = (w.dates.appear aPid).terminate aPid core.timeStart := by
      rw [← w.dates_toProcess , ho]
      exact (w.toProcess env aPid).dates_updateProcess fun _ => rfl
    have hend : (waitProcessEnd aPid core.timeStart core.pid).run (w.toProcess env aPid) =
        (if o.hasParent aPid then pure () else setParentProcess aPid core.pid : ObjM Unit).run o := by
      rw [ho]
      rfl
    have hkeep : w'.dates = o.dates := by
      rw [Py.run_bind, hend] at h
      cases hparent : o.hasParent aPid with
      | true =>
        simp only [hparent, if_true, Py.run_pure] at h
        cases h
        rfl
      | false =>
        simp only [hparent, Bool.false_eq_true, if_false] at h
        rw [← dates_setParentProcess aPid core.pid o]
        generalize (setParentProcess aPid core.pid).run o = y at h
        rcases y with ⟨_ | _, _⟩ <;> cases h <;> rfl
    rw [hkeep, hdates]
    exact .ended hf hpid

/-- What a model does to the dates. -/
theorem dateStep_of_build {m : CallModel} (hm : batchModels core.funcNam = .model m)
    (hpid : core.pid ∈ w.processes.keys) (h : (m.build env core).run w = (x, w')) :
    DateStep core w.dates w'.dates := by
  by_cases htree : core.funcNam ∈ treeCalls
  · rcases run_of_treeCalls hm htree h with
      ⟨hf, ⟨rfl, -⟩ | ⟨aPid, isThread, hname, hrun⟩⟩ | ⟨hf, hrun⟩
    · exact .same
    · exact dateStep_newChild hf hname hrun
    · exact dateStep_wait4 hf hrun
  · have hsame : SameTree w ((m.build env core).run w).2 := sameTree_of_build hm htree hpid
    rw [h] at hsame
    exact hsame.dates ▸ .same

end

/-! ## The invariant -/

/-- What a call must not name: a creation, a process with an earlier call or an earlier
termination; a wait, a process that is not known yet. -/
def Dates.NotLate (D : Dates) (l : List BatchLetCore) (core : BatchLetCore) : Prop :=
  ∀ c, namedPid core = some c → c ≠ core.pid →
    if core.funcNam ∈ creatingCalls then
      (∀ earlier ∈ l, earlier.pid = c → core.timeStart ≤ earlier.timeStart) ∧
        ∀ d x, D.get? c = some (d, some x) → core.timeStart ≤ x
    else c ∈ D.keys

/-- The call names no process that it must not name, after the calls `l`. -/
def NoLateCreation (l : List BatchLetCore) (w : World) (core : BatchLetCore) : Prop :=
  w.objects.dates.NotLate l core

/-- The time-stamps of the calls do not decrease. -/
structure TimeOrdered (l : List BatchLetCore) : Prop where
  stamped : ∀ core ∈ l, core.timeStart ≠ []
  pairwise : l.Pairwise fun a b => a.timeStart ≤ b.timeStart

/-- Every process has a creation date, which is not later than its calls, and not later
than its termination date. -/
def DatedFirst (l : List BatchLetCore) (w : Objects) : Prop :=
  ∀ pid o, w.processes.get? pid = some o → ∃ t, o.creationDate = some t ∧
    (∀ core ∈ l, core.pid = pid → t ≤ core.timeStart) ∧ ∀ x, o.terminationDate = some x → t ≤ x

namespace Dates

/-- What the dates satisfy after the calls `l`. -/
structure Inv (l : List BatchLetCore) (D : Dates) : Prop where
  dated : ∀ pid d e, D.get? pid = some (d, e) → ∃ t, d = some t ∧ t ≠ [] ∧
    (∀ core ∈ l, core.pid = pid → t ≤ core.timeStart) ∧ (∀ x, e = some x → t ≤ x) ∧
    ∃ core ∈ l, t ≤ core.timeStart
  present : ∀ core ∈ l, core.pid ∈ D.keys

/-- `T` is the time of the last call. -/
structure IsNow (l : List BatchLetCore) (T : Text) : Prop where
  set : T ≠ []
  reached : ∃ core ∈ l, core.timeStart = T
  last : ∀ core ∈ l, core.timeStart ≤ T

variable {D : Dates} {l : List BatchLetCore} {core : BatchLetCore} {c : ℤ} {T : Text}

theorem inv_nil : Inv [] [] where
  dated := by
    intro pid d e h
    cases h
  present := by
    intro core h
    cases h

theorem isSet_of_ne_nil {t : Text} (h : t ≠ []) : isSet (some t) = true := by
  cases t with
  | nil => exact absurd rfl h
  | cons c t => rfl

/-- A new call. -/
theorem Inv.admitted (h : Inv l D) (hset : core.timeStart ≠ [])
    (hlast : ∀ c ∈ l, c.timeStart ≤ core.timeStart) :
    Inv (l ++ [core]) ((D.appear core.pid).mark core.pid core.timeStart) := by
  constructor
  · intro pid d e hd
    rw [mark, Dict.get?_update, get?_appear] at hd
    by_cases hpid : core.pid = pid
    · subst hpid
      cases hD : D.get? core.pid with
      | none =>
        simp only [hD, if_true, true_and, Option.map_some, isSet] at hd
        cases hd
        refine ⟨core.timeStart, rfl, hset, ?_, ?_, core, by simp, le_refl _⟩
        · intro c hc hpid
          rcases List.mem_append.mp hc with hc | hc
          · have hmem := h.present c hc
            rw [hpid, ← Dict.get?_isSome_iff, hD] at hmem
            cases hmem
          · rw [List.mem_singleton.mp hc]
        · rintro x ⟨⟩
      | some p =>
        obtain ⟨t, ht, htset, hcalls, hend, k, hk, htk⟩ := h.dated core.pid p.1 p.2 hD
        have hp : isSet p.1 = true := by
          rw [ht]
          exact isSet_of_ne_nil htset
        simp only [hD, if_true, reduceCtorEq, and_false, if_false, Option.map_some, hp] at hd
        cases hd
        refine ⟨t, ht, htset, ?_, hend, k, List.mem_append_left _ hk, htk⟩
        intro c hc hpid
        rcases List.mem_append.mp hc with hc | hc
        · exact hcalls c hc hpid
        · rw [List.mem_singleton.mp hc]
          exact le_trans htk (hlast k hk)
    · rw [if_neg hpid, if_neg fun h => hpid h.1.symm] at hd
      obtain ⟨t, ht, htset, hcalls, hend, k, hk, htk⟩ := h.dated pid d e hd
      refine ⟨t, ht, htset, ?_, hend, k, List.mem_append_left _ hk, htk⟩
      intro c hc hp
      rcases List.mem_append.mp hc with hc | hc
      · exact hcalls c hc hp
      · rw [List.mem_singleton.mp hc] at hp
        exact absurd hp hpid
  · intro c hc
    rw [mark, Dict.keys_update, mem_keys_appear]
    rcases List.mem_append.mp hc with hc | hc
    · exact .inr (h.present c hc)
    · rw [List.mem_singleton.mp hc]
      exact .inl rfl

/-- A creation, of a process that has not run before. -/
theorem Inv.create (h : Inv l D) (hT : IsNow l T)
    (hcalls : ∀ earlier ∈ l, earlier.pid = c → T ≤ earlier.timeStart)
    (hend : ∀ d x, D.get? c = some (d, some x) → T ≤ x) : Inv l ((D.appear c).create c T) := by
  obtain ⟨k, hk, hkT⟩ := hT.reached
  constructor
  · intro pid d e hd
    rw [Dates.create, Dict.get?_update, get?_appear] at hd
    by_cases hpid : c = pid
    · subst hpid
      refine ⟨T, ?_, hT.set, hcalls, ?_, k, hk, hkT ▸ le_refl _⟩
      · split at hd <;> simp_all
      · intro x hx
        subst hx
        cases hD : D.get? c with
        | none => simp [hD] at hd
        | some p =>
          simp only [hD, if_true, reduceCtorEq, and_false, if_false, Option.map_some,
            Option.some.injEq, Prod.mk.injEq] at hd
          exact hend p.1 x (by rw [hD, ← hd.2])
    · rw [if_neg hpid, if_neg fun h => hpid h.1.symm] at hd
      exact h.dated pid d e hd
  · intro k hk
    rw [Dates.create, Dict.keys_update, mem_keys_appear]
    exact .inr (h.present k hk)

/-- The end of a process that is known. -/
theorem Inv.terminate (h : Inv l D) (hT : IsNow l T) (hc : c ∈ D.keys) :
    Inv l ((D.appear c).terminate c T) := by
  rw [appear_of_mem hc]
  constructor
  · intro pid d e hd
    rw [Dates.terminate, Dict.get?_update] at hd
    split at hd
    · rename_i hpid
      subst hpid
      obtain ⟨p, hp, heq⟩ := Option.map_eq_some_iff.mp hd
      cases heq
      obtain ⟨t, ht, htset, hcalls, -, k, hk, htk⟩ := h.dated c p.1 p.2 hp
      refine ⟨t, ht, htset, hcalls, ?_, k, hk, htk⟩
      intro x hx
      cases hx
      exact le_trans htk (hT.last k hk)
    · exact h.dated pid d e hd
  · intro k hk
    rw [Dates.terminate, Dict.keys_update]
    exact h.present k hk

/-- **One call keeps the dates in order**, unless it names a process that it must not. -/
theorem Inv.step {D' : Dates} (h : Inv l D) (hT : IsNow l core.timeStart)
    (hpid : core.pid ∈ D.keys) (hC : D.NotLate l core) (hstep : DateStep core D D') :
    Inv l D' := by
  cases hstep with
  | same => exact h
  | appeared heq => rwa [heq, appear_of_mem hpid]
  | @created c hf hname hne =>
    have hc := hC c hname hne
    rw [if_pos hf] at hc
    exact h.create hT hc.1 hc.2
  | @ended c hf hname =>
    refine h.terminate hT ?_
    by_cases hne : c = core.pid
    · rwa [hne]
    · have hc := hC c hname hne
      rwa [if_neg fun h => ne_waitingCall_of_creating h hf] at hc

/-- The condition is on the other processes, which a new call does not change. -/
theorem NotLate.admitted (h : D.NotLate l core) :
    ((D.appear core.pid).mark core.pid core.timeStart).NotLate (l ++ [core]) core := by
  intro c hname hne
  have hc := h c hname hne
  split at hc
  · rename_i hf
    rw [if_pos hf, mark]
    refine ⟨fun earlier hearlier hpid => ?_, fun d x hd => ?_⟩
    · rcases List.mem_append.mp hearlier with hearlier | hearlier
      · exact hc.1 earlier hearlier hpid
      · rw [List.mem_singleton.mp hearlier] at hpid
        exact absurd hpid.symm hne
    · rw [Dict.get?_update, if_neg (Ne.symm hne), get?_appear, if_neg fun h => hne h.1] at hd
      exact hc.2 d x hd
  · rename_i hf
    rw [if_neg hf, mark, Dict.keys_update, mem_keys_appear]
    exact .inr hc

end Dates

/-! ## A whole log -/

section
variable {env : Env} {tracer : Tracer} {id : CoreId} {core : BatchLetCore} {w w' : World}
  {r : Option Batch} {l : List BatchLetCore}

/-- What the factory does to the dates of a process that is there. -/
theorem dateStep_of_factoryStep (h : FactoryStep env id core w w' r)
    (hcore : w.store.core? id = some core) (hpid : core.pid ∈ w.objects.dates.keys) :
    DateStep core w.objects.dates w'.objects.dates := by
  rw [Objects.keys_dates] at hpid
  have hsame : w'.objects = w.objects → DateStep core w.objects.dates w'.objects.dates := by
    intro heq
    rw [heq]
    exact .same
  obtain ⟨c, hc, -, hfunc, hcpid, -, hret, htracer⟩ := h.core? hcore
  have horigin := sameOrigins_of_factoryStep h id
  rw [hc, hcore] at horigin
  have htime : c.timeStart = core.timeStart := congrArg (fun x => x.2.1) (Option.some.inj horigin)
  cases h with
  | unknown _ _ hobjects => exact hsame hobjects
  | ignored _ hw => exact hsame (by rw [hw])
  | pushed hm _ _ hobjects =>
    rcases hobjects with ⟨-, heq⟩ | ⟨-, e, he⟩
    · exact hsame heq
    · exact dateStep_of_build hm hpid he
  | lone hm _ _ _ hobjects =>
    rcases hobjects with ⟨-, heq⟩ | ⟨-, x, hx⟩
    · exact hsame heq
    · exact dateStep_of_build hm hpid hx
  | built hm _ hcore' hbuild =>
    cases hc.symm.trans hcore'
    have hname : namedPid c = namedPid core := by
      rw [namedPid, namedPid, hfunc, hret, htracer]
    have hstep := dateStep_of_build (by rw [hfunc]; exact hm) (by rw [hcpid]; exact hpid) hbuild
    revert hstep
    generalize w'.objects.dates = D
    intro hstep
    cases hstep with
    | same => exact .same
    | appeared h => exact .appeared (h.trans hcpid)
    | created hf h hne => exact htime ▸ .created (hfunc ▸ hf) (hname ▸ h) (hcpid ▸ hne)
    | ended hf h => exact htime ▸ .ended (hfunc ▸ hf) (hname ▸ h)

theorem inv_of_factoryStep (hI : Dates.Inv l w.objects.dates) (hT : Dates.IsNow l core.timeStart)
    (hcore : w.store.core? id = some core) (hpid : core.pid ∈ w.objects.dates.keys)
    (hC : Executes w.store core → w.objects.dates.NotLate l core)
    (hstep : FactoryStep env id core w w' r) : Dates.Inv l w'.objects.dates := by
  by_cases hx : Executes w.store core
  · exact hI.step hT hpid (hC hx) (dateStep_of_factoryStep hstep hcore hpid)
  · by_cases htree : core.funcNam ∈ treeCalls
    · rwa [objects_of_not_executes hcore hstep htree hx]
    · refine hI.step hT hpid (fun c hc => ?_) (dateStep_of_factoryStep hstep hcore hpid)
      rw [treeCalls_eq, List.mem_append, not_or, List.mem_singleton] at htree
      rw [namedPid, if_neg htree.1, if_neg htree.2] at hc
      cases hc

/-- The program takes the time of a line as the end of its call. -/
theorem timeEnd_of_parseLine {topProcessId : ℤ} {oneLine : Text}
    (h : parseLine topProcessId tracer oneLine = .ok (some core)) :
    core.timeEnd = core.timeStart := by
  have hcall : ∀ pid aTimeStamp theCall status funcNam ixArgs,
      coreOfCall tracer pid aTimeStamp theCall status funcNam ixArgs = .ok core →
      core.timeEnd = core.timeStart := by
    intro pid aTimeStamp theCall status funcNam ixArgs hcore
    simp only [coreOfCall, bind, Except.bind] at hcore
    split_ifs at hcore
    · cases hcore
      rfl
    · split at hcore
      · cases hcore
      · cases hcore
        rfl
  have hinit : ∀ pid idxStart, initAfterPid tracer pid oneLine idxStart = .ok (some core) →
      core.timeEnd = core.timeStart := by
    intro pid idxStart h
    simp only [initAfterPid] at h
    split at h
    · cases h
    · split at h
      · exact hcall _ _ _ _ _ _ (eq_ok_of_map_some h)
      · split at h
        · exact hcall _ _ _ _ _ _ (eq_ok_of_map_some h)
        · split at h
          · cases h
            rfl
          · cases h
  unfold parseLine at h
  split at h
  · dsimp only at h
    split at h
    · cases h
    · exact hinit _ _ h
  · exact hinit _ _ h

/-- What the loop satisfies after the calls `l`. -/
structure DatedLoop (l : List BatchLetCore) (s : Loop) : Prop where
  dates : Dates.Inv l s.world.objects.dates
  present : Present s.world
  last : ∀ core ∈ l, core.timeStart ≤ s.lastTimeStamp
  current : ∀ id core, s.batchCore = some id → s.world.store.core? id = some core →
    core.timeEnd = core.timeStart ∧ Dates.IsNow l core.timeStart

theorem datedLoop_init : DatedLoop [] Loop.init where
  dates := Dates.inv_nil
  present := by
    intro id c hc
    cases hc
  last := by
    intro core hcore
    cases hcore
  current := by
    intro id core hid
    cases hid

/-- The core that a line leaves in the loop. -/
theorem current_of_factoryStep {T : Text} (hcore : w.store.core? id = some core)
    (hstep : FactoryStep env id core w w' r) (hend : core.timeEnd = core.timeStart)
    (hT : core.timeStart = T) {c : BatchLetCore} (hc : w'.store.core? id = some c) :
    c.timeEnd = c.timeStart ∧ c.timeStart = T := by
  obtain ⟨c', hc', horigin⟩ := (sameOrigins_of_factoryStep hstep).exists_of_core? hc
  cases hcore.symm.trans hc'
  simp only [BatchLetCore.origin, Prod.mk.injEq] at horigin
  rw [← horigin.2.1, ← horigin.2.2]
  exact ⟨hend, hT⟩

theorem DatedLoop.fresh {line : Text × ℕ} {s s' : Loop} (h : DatedLoop l s)
    (hparse : parseLine env.topProcessId tracer line.1 = .ok (some core))
    (hord : TimeOrdered (l ++ [core])) (hC : Executes s.world.store core → NoLateCreation l s.world core)
    (hrun : (processLine env tracer line).run s = (.ok (), s')) : DatedLoop (l ++ [core]) s' := by
  have hset := hord.stamped core (by simp)
  have hlast : ∀ c ∈ l, c.timeStart ≤ core.timeStart := fun c hc =>
    (List.pairwise_append.mp hord.pairwise).2.2 c hc core (List.mem_singleton_self core)
  have hend := timeEnd_of_parseLine hparse
  have hnow : Dates.IsNow (l ++ [core]) core.timeStart := by
    refine ⟨hset, ⟨core, by simp, rfl⟩, fun c hc => ?_⟩
    rcases List.mem_append.mp hc with hc | hc
    · exact hlast c hc
    · rw [List.mem_singleton.mp hc]
  obtain ⟨r, hprocess, -, hbatch, htime⟩ := run_processLine_of_core hparse hrun
  have hstep := factoryStep_of_processCore hprocess
  have hcore : (s.world.admitted env core).store.core? (s.world.store.nextId core.pid) = some core :=
    s.world.store.core?_addCore_nextId core
  have hadmitted : (s.world.admitted env core).objects.dates =
      (s.world.objects.dates.appear core.pid).mark core.pid core.timeStart :=
    s.world.objects.dates_admitted core
  refine ⟨?_, (h.present.admitted.factoryStep hcore hstep).2, ?_, ?_⟩
  · refine inv_of_factoryStep ?_ hnow hcore ?_ (fun hx => ?_) hstep
    · exact hadmitted ▸ h.dates.admitted hset hlast
    · rw [hadmitted, Dates.mark, Dict.keys_update]
      exact Dates.mem_keys_appear.mpr (.inl rfl)
    · exact hadmitted ▸ (hC hx).admitted
  · rw [htime, hend]
    exact hnow.last
  · intro id c hid hc
    cases hbatch.symm.trans hid
    obtain ⟨hce, hcT⟩ := current_of_factoryStep hcore hstep hend rfl hc
    exact ⟨hce, hcT ▸ hnow⟩

theorem DatedLoop.stale {line : Text × ℕ} {s s' : Loop} (h : DatedLoop l s) {e : PyExn}
    (hparse : parseLine env.topProcessId tracer line.1 = .error e)
    (hC : ∀ core, currentCore env tracer s line.1 = some core → Executes s.world.store core →
      NoLateCreation l s.world core)
    (hrun : (processLine env tracer line).run s = (.ok (), s')) : DatedLoop l s' := by
  obtain ⟨s₁, r, s₂, hread, hnext, rfl⟩ := run_processLine hrun
  obtain rfl := run_readCore_of_parseLine_error hparse hread
  rcases run_nextBatch_eq_ok hnext with ⟨-, rfl, -⟩ | ⟨id, core, w, hb, hc, hfac, rfl⟩
  · exact ⟨h.dates, h.present, h.last, h.current⟩
  · have hstep := factoryStep_of_run hc hfac
    obtain ⟨hend, hnow⟩ := h.current id core hb hc
    have hpid : core.pid ∈ s₁.world.objects.dates.keys := by
      rw [Objects.keys_dates, ← Objects.keys_links]
      exact h.present id core hc
    have hcur : currentCore env tracer s₁ line.1 = some core := by
      simp only [currentCore, hparse, hb, Option.bind_some, hc]
    refine ⟨inv_of_factoryStep h.dates hnow hc hpid (hC core hcur) hstep,
      (h.present.factoryStep hc hstep).2, ?_, ?_⟩
    · intro c hmem
      rw [hend]
      exact hnow.last c hmem
    · intro i c hi hc'
      cases hb.symm.trans hi
      obtain ⟨hce, hcT⟩ := current_of_factoryStep hc hstep hend rfl hc'
      exact ⟨hce, hcT ▸ hnow⟩

theorem datedLoop_of_readLog {logStream : List Text} {s : Loop}
    (hord : TimeOrdered (logCores env tracer logStream))
    (hC : EachCore env tracer logStream NoLateCreation)
    (hrun : readLog env tracer logStream = (.ok (), s)) :
    DatedLoop (logCores env tracer logStream) s := by
  refine run_rule (P := fun l v => DatedLoop (coresOf env tracer l) v) datedLoop_init ?_ hrun
  intro l₁ line l₂ v v' heq hl₁ h hline
  have hsplit : coresOf env tracer (l₁ ++ [line]) =
      coresOf env tracer l₁ ++ (coreOf env tracer line.1).toList := by
    rw [coresOf, List.filterMap_append, ← coresOf]
    cases hc : coreOf env tracer line.1 <;> simp [hc]
  have hlog : ∃ rest, logCores env tracer logStream =
      (coresOf env tracer l₁ ++ (coreOf env tracer line.1).toList) ++ rest := by
    refine ⟨coresOf env tracer l₂, ?_⟩
    rw [logCores, heq, ← hsplit, coresOf, coresOf, coresOf, ← List.filterMap_append,
      List.append_assoc, List.singleton_append]
  have hC' := hC l₁ line l₂ v
  rw [hsplit]
  cases hparse : parseLine env.topProcessId tracer line.1 with
  | error e =>
    have hnone : coreOf env tracer line.1 = none := by rw [coreOf, hparse]
    rw [hnone, Option.toList_none, List.append_nil]
    exact h.stale hparse (fun core hcur hx => hC' core heq hl₁ hcur hx) hline
  | ok o =>
    have ho : coreOf env tracer line.1 = o := by rw [coreOf, hparse]
    rw [ho] at hlog ⊢
    cases o with
    | none =>
      obtain ⟨s₁, r, s₂, hread, hnext, rfl⟩ := run_processLine hline
      obtain rfl := run_readCore_of_none hparse hread
      rw [run_nextBatch_none rfl] at hnext
      cases hnext
      rw [Option.toList_none, List.append_nil]
      exact ⟨h.dates, h.present, h.last, fun id core hid => by cases hid⟩
    | some core =>
      obtain ⟨rest, hrest⟩ := hlog
      have hord' : TimeOrdered (coresOf env tracer l₁ ++ [core]) := by
        rw [hrest] at hord
        exact ⟨fun c hc => hord.stamped c (List.mem_append_left rest hc),
          (List.pairwise_append.mp hord.pairwise).1⟩
      have hcur : currentCore env tracer v line.1 = some core := by rw [currentCore, hparse]
      exact h.fresh hparse hord' (hC' core heq hl₁ hcur) hline

theorem datedFirst_of_inv {w : Objects} (h : Dates.Inv l w.dates) : DatedFirst l w := by
  intro pid o ho
  have hget : w.dates.get? pid = some (o.creationDate, o.terminationDate) := by
    rw [Objects.dates, Dict.get?_mapVals, ho]
    rfl
  obtain ⟨t, ht, -, hcalls, hend, -⟩ := h.dated pid _ _ hget
  exact ⟨t, ht, hcalls, hend⟩

/-- The end of the log keeps the dates in order. -/
theorem DatedLoop.datedFirst_endOfLog {s : Loop} (h : DatedLoop l s) :
    DatedFirst l (endOfLog.run s).2.world.objects := by
  rw [endOfLog, Py.run_modify]
  split
  · exact datedFirst_of_inv h.dates
  · intro pid o ho
    have hglobal : (s.world.objects.globalTerminationDate s.lastTimeStamp).processes.get? pid =
        some o := ho
    rw [Objects.globalTerminationDate, Dict.get?_mapVals, Option.map_eq_some_iff] at hglobal
    obtain ⟨p, hp, rfl⟩ := hglobal
    have hget : s.world.objects.dates.get? pid = some (p.creationDate, p.terminationDate) := by
      rw [Objects.dates, Dict.get?_mapVals, hp]
      rfl
    obtain ⟨t, ht, -, hcalls, hend, k, hk, htk⟩ := h.dates.dated pid _ _ hget
    split
    · exact ⟨t, ht, hcalls, hend⟩
    · refine ⟨t, ht, hcalls, fun x hx => ?_⟩
      cases hx
      exact le_trans htk (h.last k hk)

/-- **Every process is created before its calls and its end**, in every state that a
log reaches when no creation names a process that has run before, and no wait names a
process that is not known. -/
theorem datedFirst_of_noLateCreation {logStream : List Text} {s : Loop}
    (hord : TimeOrdered (logCores env tracer logStream))
    (hC : EachCore env tracer logStream NoLateCreation)
    (hrun : readLog env tracer logStream = (.ok (), s)) :
    DatedFirst (logCores env tracer logStream) s.world.objects ∧
      DatedFirst (logCores env tracer logStream)
        ((createFlowsFromGenericLinuxLog env tracer logStream).run Loop.init).2.world.objects := by
  have h := datedLoop_of_readLog hord hC hrun
  refine ⟨datedFirst_of_inv h.dates, ?_⟩
  rw [run_createFlows, hrun]
  exact h.datedFirst_endOfLog

/-- A call of the child. -/
def childCloseLine : Text :=
  "[pid 20] 14:56:54.296400 close(3</tmp/a>) = 0 <0.000013>\n".toList

/-- A process with one child, which runs. -/
def cloneAndClose : List Text := [oneCloneLine, childCloseLine]

theorem readLog_cloneAndClose : readLog (.replayed 10 "/".toList) .strace cloneAndClose =
    (.ok (), (readLog (.replayed 10 "/".toList) .strace cloneAndClose).2) :=
  readLog_eq_ok (by decide +kernel)

/-- The creation names a process that has not run, and the call of the child names none. -/
theorem noLateCreation_cloneAndClose :
    EachCore (.replayed 10 "/".toList) .strace cloneAndClose NoLateCreation := by
  intro l₁ line l₂ s core heq hrun hcore _ c hc _
  have hjoin : joinLines [] 0 cloneAndClose = [(oneCloneLine, 1), (childCloseLine, 2)] := by
    decide +kernel
  rw [hjoin] at heq
  rcases l₁ with _ | ⟨first, l₁⟩
  · obtain ⟨rfl, -⟩ := List.cons.inj heq
    obtain ⟨-, rfl⟩ := Prod.mk.inj hrun
    have hnamed : (currentCore (.replayed 10 "/".toList) .strace Loop.init oneCloneLine).map
        (fun c => c.funcNam) = some "clone@SYS".toList := by decide +kernel
    rw [hcore] at hnamed
    have hfunc : core.funcNam = "clone@SYS".toList := Option.some.inj hnamed
    rw [if_pos (by rw [hfunc]; decide)]
    exact ⟨nofun, nofun⟩
  · obtain ⟨hfirst, heq⟩ := List.cons.inj heq
    rcases l₁ with _ | ⟨second, l₁⟩
    · obtain ⟨rfl, -⟩ := List.cons.inj heq
      cases hfirst
      have hnamed : (currentCore (.replayed 10 "/".toList) .strace
          ((Py.each (processLine (.replayed 10 "/".toList) .strace) [(oneCloneLine, 1)]).run
            Loop.init).2 childCloseLine).map namedPid = some none := by decide +kernel
      rw [hrun, hcore] at hnamed
      exact absurd (hc.symm.trans (Option.some.inj hnamed)) nofun
    · exact absurd (List.cons.inj heq).2 (by simp)

theorem datedFirst_of_noLateCreation_cloneAndClose :
    DatedFirst (logCores (.replayed 10 "/".toList) .strace cloneAndClose)
        (readLog (.replayed 10 "/".toList) .strace cloneAndClose).2.world.objects ∧
      DatedFirst (logCores (.replayed 10 "/".toList) .strace cloneAndClose)
        ((createFlowsFromGenericLinuxLog (.replayed 10 "/".toList) .strace cloneAndClose).run
          Loop.init).2.world.objects := by
  have htimes : (∀ core ∈ logCores (.replayed 10 "/".toList) .strace cloneAndClose,
        core.timeStart ≠ []) ∧
      (logCores (.replayed 10 "/".toList) .strace cloneAndClose).Pairwise
        fun a b => a.timeStart ≤ b.timeStart := by decide +kernel
  exact datedFirst_of_noLateCreation ⟨htimes.1, htimes.2⟩ noLateCreation_cloneAndClose
    readLog_cloneAndClose

/-- A creation that is interrupted until its child has run. -/
def interruptedVfork : List Text :=
  ["[pid 10] 12:43:54.351205 vfork( <unfinished ...>\n".toList,
    "[pid 20] 12:43:54.353230 close(3</tmp/a>) = 0 <0.000557>\n".toList,
    "[pid 10] 12:43:54.353461 <... vfork resumed> ) = 20 <0.002239>\n".toList]

/-- The child is dated by the end of the creation. -/
theorem interruptedVfork_not_datedFirst :
    ¬ ∀ (env : Env) (tracer : Tracer) (logStream : List Text) (s : Loop),
      TimeOrdered (logCores env tracer logStream) → readLog env tracer logStream = (.ok (), s) →
        DatedFirst (logCores env tracer logStream)
          ((createFlowsFromGenericLinuxLog env tracer logStream).run Loop.init).2.world.objects := by
  intro h
  have hread : (readLog (.replayed 10 "/".toList) .strace interruptedVfork).1 = .ok () ∧
      (((createFlowsFromGenericLinuxLog (.replayed 10 "/".toList) .strace
        interruptedVfork).run Loop.init).2.world.objects.processes.get? 20).map (·.creationDate) =
          some (some "12:43:54.353461".toList) ∧
      (∃ core ∈ logCores (.replayed 10 "/".toList) .strace interruptedVfork,
        core.pid = 20 ∧ core.timeStart = "12:43:54.353230".toList) ∧
      (∀ core ∈ logCores (.replayed 10 "/".toList) .strace interruptedVfork,
        core.timeStart ≠ []) ∧
      (logCores (.replayed 10 "/".toList) .strace interruptedVfork).Pairwise
        fun a b => a.timeStart ≤ b.timeStart := by decide +kernel
  obtain ⟨hok, hdates, hcall, hstamped, hpairwise⟩ := hread
  have hord : TimeOrdered (logCores (.replayed 10 "/".toList) .strace interruptedVfork) :=
    ⟨hstamped, hpairwise⟩
  obtain ⟨o, ho, hdate⟩ := Option.map_eq_some_iff.mp hdates
  obtain ⟨t, ht, hcalls, -⟩ := h _ _ _ _ hord (readLog_eq_ok hok) 20 o ho
  obtain ⟨core, hmem, hpid, htime⟩ := hcall
  cases hdate.symm.trans ht
  have hle := hcalls core hmem hpid
  rw [htime] at hle
  revert hle
  decide

end

end Survol.Dockit
