import Survol.Dockit.FactorySteps
import Survol.Dockit.ProcessLinks

/-!
# What a call does to the links of the processes

Seen from the links only, a processed call does one of three things: nothing; a
process appears, because the call names it; or this process also becomes a child
of the caller.

## Main definitions

* `Links.appear`, `Links.setParent` — how the links change.
* `namedPid` — the process that a call names.
* `LinkStep` — what a call does, with `linkStep_of_factoryStep`.
-/

open PyText

namespace Survol.Dockit

namespace Links

/-- The parent of a process. -/
def parent (L : Links) (p : ℤ) : Option ℤ := (L.get? p).bind Prod.fst

/-- The subprocesses of a process. -/
def subs (L : Links) (p : ℤ) : List ℤ := ((L.get? p).map Prod.snd).getD []

/-- The only process, when there is exactly one. -/
def only : Links → Option ℤ
  | [(p, _)] => some p
  | _ => none

/-- `pid` becomes a subprocess of `p`, if there is one. -/
def adopt (L : Links) (p : Option ℤ) (pid : ℤ) : Links :=
  match p with
  | some first => L.update first fun l => (l.1, l.2.insert pid)
  | none => L

/-- A process appears, if it is new; the second one becomes a child of the first. -/
def appear (L : Links) (pid : ℤ) : Links :=
  match L.get? pid with
  | some _ => L
  | none => (L.adopt L.only pid).set pid (L.only, [])

/-- `pid` becomes a child of `p`. -/
def setParent (L : Links) (pid p : ℤ) : Links :=
  (L.update pid fun l => (some p, l.2)).update p fun l => (l.1, l.2.insert pid)

variable {L : Links} {pid p : ℤ}

theorem get?_adopt_of_ne {o : Option ℤ} {x : ℤ} (h : o ≠ some x) :
    (L.adopt o pid).get? x = L.get? x := by
  cases o with
  | none => rfl
  | some first =>
    rw [adopt, Dict.get?_update, if_neg]
    exact fun heq => h (by rw [heq])

@[simp] theorem keys_adopt (o : Option ℤ) : (L.adopt o pid).keys = L.keys := by
  cases o with
  | none => rfl
  | some first => exact Dict.keys_update _ _ _

theorem get?_eq_none_of_not_mem (h : pid ∉ L.keys) : L.get? pid = none :=
  (Dict.get?_eq_none_iff _ _).mpr h

theorem parent_of_not_mem (h : pid ∉ L.keys) : L.parent pid = none := by
  rw [parent, get?_eq_none_of_not_mem h]
  rfl

theorem subs_of_not_mem (h : pid ∉ L.keys) : L.subs pid = [] := by
  rw [subs, get?_eq_none_of_not_mem h]
  rfl

theorem appear_of_mem (h : pid ∈ L.keys) : L.appear pid = L := by
  rw [← Dict.get?_isSome_iff, Option.isSome_iff_exists] at h
  obtain ⟨l, hl⟩ := h
  simp only [appear, hl]

theorem appear_of_not_mem (h : pid ∉ L.keys) :
    L.appear pid = (L.adopt L.only pid).set pid (L.only, []) := by
  simp only [appear, get?_eq_none_of_not_mem h]

theorem keys_appear_of_not_mem (h : pid ∉ L.keys) : (L.appear pid).keys = L.keys ++ [pid] := by
  have hnone : (L.adopt L.only pid).get? pid = none := by
    rw [Dict.get?_eq_none_iff, keys_adopt]
    exact h
  rw [appear_of_not_mem h, Dict.keys_set_of_get?_eq_none hnone, keys_adopt]

theorem mem_keys_appear {x : ℤ} : x ∈ (L.appear pid).keys ↔ x = pid ∨ x ∈ L.keys := by
  by_cases h : pid ∈ L.keys
  · rw [appear_of_mem h]
    exact ⟨.inr, fun hx => hx.elim (fun heq => heq ▸ h) id⟩
  · rw [keys_appear_of_not_mem h, List.mem_append, List.mem_singleton, or_comm]

theorem mem_keys_appear_self : pid ∈ (L.appear pid).keys := mem_keys_appear.mpr (.inl rfl)

theorem mem_keys_of_only (h : L.only = some p) : L.keys = [p] := by
  match L, h with
  | [(q, l)], h =>
    cases h
    rfl

/-- The parent of a process that appears is the only process before it. -/
theorem parent_appear (h : pid ∉ L.keys) (x : ℤ) :
    (L.appear pid).parent x = if x = pid then L.only else L.parent x := by
  rw [appear_of_not_mem h, parent, parent, Dict.get?_set]
  by_cases hx : x = pid
  · simp [hx]
  · rw [if_neg (Ne.symm hx), if_neg hx]
    cases honly : L.only with
    | none => rfl
    | some first =>
      rw [adopt, Dict.get?_update]
      split
      · cases L.get? x <;> rfl
      · rfl

theorem subs_appear (h : pid ∉ L.keys) (x : ℤ) :
    (L.appear pid).subs x = if x = pid then []
      else if L.only = some x then (L.subs x).insert pid else L.subs x := by
  rw [appear_of_not_mem h, subs, subs, Dict.get?_set]
  by_cases hx : x = pid
  · simp [hx]
  · rw [if_neg (Ne.symm hx), if_neg hx]
    split
    · rename_i honly
      have hmem : x ∈ L.keys := by
        rw [mem_keys_of_only honly]
        exact List.mem_singleton_self x
      rw [← Dict.get?_isSome_iff, Option.isSome_iff_exists] at hmem
      obtain ⟨l, hl⟩ := hmem
      rw [honly, adopt, Dict.get?_update, if_pos rfl, hl]
      rfl
    · rename_i honly
      rw [get?_adopt_of_ne honly]

@[simp] theorem keys_setParent : (L.setParent pid p).keys = L.keys := by
  rw [setParent, Dict.keys_update, Dict.keys_update]

theorem parent_setParent (h : pid ∈ L.keys) (x : ℤ) :
    (L.setParent pid p).parent x = if x = pid then some p else L.parent x := by
  rw [← Dict.get?_isSome_iff, Option.isSome_iff_exists] at h
  obtain ⟨l, hl⟩ := h
  rw [setParent, parent, parent, Dict.get?_update, Dict.get?_update]
  by_cases hx : x = pid
  · subst hx
    by_cases hp : p = x <;> simp [hp, hl]
  · rw [if_neg (Ne.symm hx), if_neg hx]
    split
    · cases L.get? x <;> rfl
    · rfl

theorem subs_setParent (h : p ∈ L.keys) (x : ℤ) :
    (L.setParent pid p).subs x = if x = p then (L.subs x).insert pid else L.subs x := by
  rw [← Dict.get?_isSome_iff, Option.isSome_iff_exists] at h
  obtain ⟨l, hl⟩ := h
  rw [setParent, subs, subs, Dict.get?_update, Dict.get?_update]
  by_cases hx : x = p
  · subst hx
    by_cases hp : pid = x <;> simp [hp, hl]
  · rw [if_neg (Ne.symm hx), if_neg hx]
    split
    · cases L.get? x <;> rfl
    · rfl

end Links

/-! ## The links of the objects -/

namespace Objects

variable (w : Objects) {env : Env} {pid : ℤ}

theorem parentOf_eq_links : w.parentOf pid = w.links.parent pid := w.parentOf_eq pid

theorem subsOf_eq_links : w.subsOf pid = w.links.subs pid := w.subsOf_eq pid

theorem onlyProcess_eq_links : w.onlyProcess = w.links.only := by
  unfold onlyProcess links
  rcases w.processes with _ | ⟨_, _ | ⟨_, _⟩⟩ <;> rfl

theorem links_toDataFile (name : Text) : (w.toDataFile name).links = w.links := by
  rw [toDataFile]
  split <;> rfl

theorem links_updateProcess {f : CIMProcess → CIMProcess} {f' : Option ℤ × List ℤ → Option ℤ × List ℤ}
    (h : ∀ o, ((f o).parentProcess, (f o).subProcesses) = f' (o.parentProcess, o.subProcesses)) :
    (w.updateProcess pid f).links = w.links.update pid f' :=
  Dict.mapVals_update_comm h _ _

theorem links_adopt (p : Option ℤ) : (w.adopt p pid).links = w.links.adopt p pid := by
  cases p with
  | none => rfl
  | some first =>
    rw [adopt, Links.adopt, links_updateProcess]
    exact fun _ => rfl

/-- A process that appears, seen from the links. -/
theorem links_toProcess : (w.toProcess env pid).links = w.links.appear pid := by
  have hget : w.links.get? pid = (w.processes.get? pid).map fun o => (o.parentProcess, o.subProcesses) :=
    Dict.get?_mapVals _ _ _
  cases ho : w.processes.get? pid with
  | some o =>
    rw [ho] at hget
    simp only [toProcess, ho, Links.appear, hget, Option.map_some]
  | none =>
    rw [ho] at hget
    have hexe : ∀ exe, (w.toExecutable exe).links = w.links := by
      intro exe
      cases exe with
      | none => rfl
      | some name => exact w.links_toDataFile name
    simp only [toProcess, ho, Links.appear, hget, Option.map_none, newProcess]
    rw [← onlyProcess_eq_links, ← hexe ((env.liveProcess pid).bind (·.exe)), ← links_adopt]
    exact Dict.mapVals_set _ _ _ _

end Objects

theorem links_setParentProcess {w : Objects} {pid p : ℤ} (h : pid ≠ p) :
    (setParentProcess pid p).run w = (.ok (), ((setParentProcess pid p).run w).2) ∧
      ((setParentProcess pid p).run w).2.links = w.links.setParent pid p := by
  rw [setParentProcess, if_neg h]
  refine ⟨rfl, ?_⟩
  rw [Py.run_modify, Objects.links_updateProcess, Objects.links_updateProcess, Links.setParent]
  · exact fun _ => rfl
  · exact fun _ => rfl

/-! ## The process that a call names -/

/-- The calls that create a process. -/
def creatingCalls : List Text := ["clone@SYS".toList, "vfork@SYS".toList]

/-- The call that waits for a process. -/
def waitingCall : Text := "wait4@SYS".toList

/-- The pid in the result of a creation. -/
def createdPid (tracer : Tracer) (retValue : Text) : Option ℤ :=
  match tracer with
  | .ltrace => hexInt? retValue
  | .strace => int? retValue

/-- The pid in the result of a wait, which is not an error for want of children. -/
def waitResult (tracer : Tracer) (retValue : Text) : Option ℤ :=
  match tracer with
  | .ltrace => if contains retValue "-10".toList then none else hexInt? retValue
  | .strace =>
    if contains retValue "ECHILD".toList then none else int? (retValue.takeWhile (· ≠ ' '))

/-- The process that a call names in its result. -/
def namedPid (core : BatchLetCore) : Option ℤ :=
  if core.funcNam ∈ creatingCalls then core.retValue.bind (createdPid core.tracer)
  else if core.funcNam = waitingCall then
    (core.retValue.bind (waitResult core.tracer)).filter (· ≠ 0)
  else none

/-- What a call does to the links. -/
inductive LinkStep (core : BatchLetCore) (L : Links) : Links → Prop
  | same : LinkStep core L L
  | appeared {c : ℤ} (h : namedPid core = some c) : LinkStep core L (L.appear c)
  /-- A process that is waited for only gets a parent when it has none. -/
  | child {c : ℤ} (h : namedPid core = some c) (hne : c ≠ core.pid)
      (hw : core.funcNam = waitingCall → (L.appear c).parent c = none) :
      LinkStep core L ((L.appear c).setParent c core.pid)

/-- What a call does to the links; when it returns, the process that it names has a
parent. -/
structure LinkResult (core : BatchLetCore) (L : Links) (x : Except PyExn (Option (List SigArg)))
    (L' : Links) : Prop where
  step : LinkStep core L L'
  parent : ∀ args, x = .ok args → ∀ q, namedPid core = some q → (L'.parent q).isSome

section
variable {env : Env} {core : BatchLetCore} {w w' : Objects}
  {x : Except PyExn (Option (List SigArg))}

theorem linkResult_error {L : Links} {e : PyExn} : LinkResult core L (.error e) L where
  step := .same
  parent := by
    intro args h
    cases h

theorem linkResult_newChild {aPid : ℤ} {isThread : Bool}
    (hf : core.funcNam ≠ waitingCall) (hname : namedPid core = some aPid)
    (h : (newChild env core aPid isThread).run w = (x, w')) :
    LinkResult core w.links x w'.links := by
  have hlinks : (w.withChild env aPid isThread).links = w.links.appear aPid := by
    rw [← Objects.links_toProcess, Objects.withChild]
    cases isThread with
    | false => rfl
    | true => exact sameLinks_updateProcess _ aPid (fun _ => rfl) fun _ => rfl
  rw [run_newChild] at h
  split at h
  · cases h
    refine ⟨hlinks ▸ .appeared hname, ?_⟩
    intro _ hx
    cases hx
  · rename_i hne
    cases h
    have hdate : ∀ o : Objects, (o.updateProcess aPid fun p =>
        { p with creationDate := some core.timeStart }).links = o.links :=
      fun o => sameLinks_updateProcess o aPid (fun _ => rfl) fun _ => rfl
    rw [hdate, (links_setParentProcess hne).2, hlinks]
    refine ⟨.child hname hne fun hw => absurd hw hf, fun _ _ q hq => ?_⟩
    cases hname.symm.trans hq
    rw [Links.parent_setParent (Links.mem_keys_appear.mpr (.inl rfl)), if_pos rfl]
    rfl

theorem namedPid_of_creating (h : core.funcNam ∈ creatingCalls) :
    namedPid core = core.retValue.bind (createdPid core.tracer) := by
  rw [namedPid, if_pos h]

theorem namedPid_of_waiting (h : core.funcNam = waitingCall) :
    namedPid core = (core.retValue.bind (waitResult core.tracer)).filter (· ≠ 0) := by
  rw [namedPid, if_neg (by rw [h]; decide), if_pos h]

theorem ne_waitingCall_of_creating (h : core.funcNam ∈ creatingCalls) :
    core.funcNam ≠ waitingCall := by
  rintro heq
  rw [heq] at h
  revert h
  decide

/-- A value read without a change of the objects. -/
theorem run_retInt (f : Text → Option ℤ) (w : Objects) :
    (∃ n, (retInt core f).run w = (.ok n, w) ∧ core.retValue.bind f = some n) ∨
      ∃ e, (retInt core f).run w = (.error e, w) := by
  rw [retInt]
  cases core.retValue with
  | none => exact .inr ⟨_, rfl⟩
  | some s =>
    cases hs : f s with
    | none => exact .inr ⟨.valueError, by simp [hs]⟩
    | some n => exact .inl ⟨n, by simp [hs], hs⟩

/-- A `clone` fails, or the process that it names is registered. -/
theorem run_clone (hf : core.funcNam ∈ creatingCalls)
    (h : (batchLetSysClone env core).run w = (x, w')) : (w' = w ∧ ∃ e, x = .error e) ∨
      ∃ aPid isThread, namedPid core = some aPid ∧
        (newChild env core aPid isThread).run w = (x, w') := by
  have hname := namedPid_of_creating hf
  rw [batchLetSysClone] at h
  cases ht : core.tracer with
  | ltrace =>
    simp only [ht] at h
    rcases @run_retInt core hexInt? w with ⟨n, hn, hret⟩ | ⟨e, he⟩
    · rw [Py.run_bind_of_ok hn] at h
      exact .inr ⟨n, true, by rw [hname, ht]; exact hret, h⟩
    · rw [Py.run_bind_of_error he] at h
      cases h
      exact .inl ⟨rfl, e, rfl⟩
  | strace =>
    simp only [ht] at h
    rcases @run_retInt core int? w with ⟨n, hn, hret⟩ | ⟨e, he⟩
    · rw [Py.run_bind_of_ok hn, parsedArg] at h
      cases hp : core.parsedArgs[1]? with
      | none =>
        rw [hp] at h
        cases h
        exact .inl ⟨rfl, _, rfl⟩
      | some a =>
        rw [hp] at h
        cases a with
        | list l =>
          cases h
          exact .inl ⟨rfl, _, rfl⟩
        | str s => exact .inr ⟨n, _, by rw [hname, ht]; exact hret, h⟩
    · rw [Py.run_bind_of_error he] at h
      cases h
      exact .inl ⟨rfl, e, rfl⟩

/-- A `vfork` fails, or the process that it names is registered. -/
theorem run_vfork (hf : core.funcNam ∈ creatingCalls)
    (h : (batchLetSysVfork env core).run w = (x, w')) : (w' = w ∧ ∃ e, x = .error e) ∨
      ∃ aPid isThread, namedPid core = some aPid ∧
        (newChild env core aPid isThread).run w = (x, w') := by
  have hname := namedPid_of_creating hf
  rw [batchLetSysVfork, convertBatchCoreRetValue] at h
  have key : ∀ f : Text → Option ℤ, core.retValue.bind f = namedPid core →
      (retInt core f >>= fun aPid => newChild env core aPid false).run w = (x, w') →
      (w' = w ∧ ∃ e, x = .error e) ∨ ∃ aPid isThread, namedPid core = some aPid ∧
        (newChild env core aPid isThread).run w = (x, w') := by
    intro f hf' hrun
    rcases @run_retInt core f w with ⟨n, hn, hret⟩ | ⟨e, he⟩
    · rw [Py.run_bind_of_ok hn] at hrun
      exact .inr ⟨n, false, hf' ▸ hret, hrun⟩
    · rw [Py.run_bind_of_error he] at hrun
      cases hrun
      exact .inl ⟨rfl, e, rfl⟩
  cases ht : core.tracer with
  | ltrace =>
    simp only [ht] at h
    exact key hexInt? (by rw [hname, ht]; rfl) h
  | strace =>
    simp only [ht] at h
    exact key int? (by rw [hname, ht]; rfl) h

theorem run_waitedPid (core : BatchLetCore) (w : Objects) :
    (waitedPid core).run w = (.ok (core.retValue.bind (waitResult core.tracer)), w) ∨
      ∃ e, (waitedPid core).run w = (.error e, w) := by
  rw [waitedPid, retText]
  cases core.retValue with
  | none => exact .inr ⟨_, rfl⟩
  | some s =>
    rw [Py.run_ofOption_some_bind]
    cases core.tracer with
    | strace =>
      simp only [Option.bind_some, waitResult]
      split <;> exact .inl rfl
    | ltrace =>
      simp only [Option.bind_some, waitResult]
      split
      · exact .inl rfl
      · rw [Py.run_map]
        cases hexInt? s with
        | none => exact .inr ⟨_, rfl⟩
        | some n => exact .inl rfl

theorem hasParent_eq_links (w : Objects) (pid : ℤ) :
    w.hasParent pid = (w.links.parent pid).isSome := by
  rw [← w.parentOf_eq_links, Objects.hasParent, Objects.parentOf]

/-- A `wait4` names no process, or ends the one that it names. -/
theorem run_wait4 (hf : core.funcNam = waitingCall)
    (h : (batchLetSysWait4 env core).run w = (x, w')) :
    (w' = w ∧ (namedPid core = none ∨ ∃ e, x = .error e)) ∨
      ∃ aPid, namedPid core = some aPid ∧ (do
        waitProcessEnd aPid core.timeStart core.pid
        return some [.process aPid] : ModelM).run (w.toProcess env aPid) = (x, w') := by
  have hname := namedPid_of_waiting hf
  rw [batchLetSysWait4] at h
  rcases run_waitedPid core w with hrun | ⟨e, he⟩
  · rw [Py.run_bind_of_ok hrun] at h
    cases hret : core.retValue.bind (waitResult core.tracer) with
    | none =>
      rw [hret] at h hname
      cases h
      exact .inl ⟨rfl, .inl hname⟩
    | some aPid =>
      simp only [hret] at h hname
      by_cases h0 : aPid = 0
      · rw [if_pos h0] at h
        cases h
        refine .inl ⟨rfl, .inl ?_⟩
        rw [hname]
        simp [Option.filter, h0]
      · have happear : (toObjectPathCIMProcess env aPid).run w = (.ok (), w.toProcess env aPid) := rfl
        rw [if_neg h0, Py.run_bind_of_ok happear] at h
        refine .inr ⟨aPid, ?_, h⟩
        rw [hname]
        simp [Option.filter, h0]
  · rw [Py.run_bind_of_error he] at h
    cases h
    exact .inl ⟨rfl, .inr ⟨e, rfl⟩⟩

theorem linkResult_wait4 (hf : core.funcNam = waitingCall)
    (h : (batchLetSysWait4 env core).run w = (x, w')) : LinkResult core w.links x w'.links := by
  rcases run_wait4 hf h with ⟨rfl, hnone | ⟨e, rfl⟩⟩ | ⟨aPid, hpid, h⟩
  · refine ⟨.same, ?_⟩
    intro _ _ q hq
    cases hnone.symm.trans hq
  · exact linkResult_error
  · obtain ⟨o, ho⟩ : ∃ o, o = (w.toProcess env aPid).updateProcess aPid
      fun p => { p with terminationDate := some core.timeStart } := ⟨_, rfl⟩
    have hlinks : o.links = w.links.appear aPid := by
      rw [← w.links_toProcess, ho]
      exact sameLinks_updateProcess _ aPid (fun _ => rfl) fun _ => rfl
    have hend : (waitProcessEnd aPid core.timeStart core.pid).run (w.toProcess env aPid) =
        (if o.hasParent aPid then pure () else setParentProcess aPid core.pid : ObjM Unit).run o := by
      rw [ho]
      rfl
    rw [Py.run_bind, hend] at h
    cases hparent : o.hasParent aPid with
    | true =>
      simp only [hparent, if_true, Py.run_pure] at h
      cases h
      refine ⟨hlinks ▸ .appeared hpid, fun _ _ q hq => ?_⟩
      cases hpid.symm.trans hq
      rwa [hasParent_eq_links] at hparent
    | false =>
      simp only [hparent, Bool.false_eq_true, if_false] at h
      rw [hasParent_eq_links, hlinks, Option.isSome_eq_false_iff, Option.isNone_iff_eq_none] at hparent
      by_cases hne : aPid = core.pid
      · rw [setParentProcess, if_pos hne] at h
        cases h
        refine ⟨hlinks ▸ .appeared hpid, ?_⟩
        intro _ hx
        cases hx
      · obtain ⟨hset, hsetlinks⟩ := links_setParentProcess (w := o) hne
        rw [hset] at h
        cases h
        rw [hsetlinks, hlinks]
        refine ⟨.child hpid hne fun _ => hparent, fun _ _ q hq => ?_⟩
        cases hpid.symm.trans hq
        rw [Links.parent_setParent Links.mem_keys_appear_self, if_pos rfl]
        rfl

theorem treeCalls_eq : treeCalls = creatingCalls ++ [waitingCall] := rfl

/-- A model of the tree creates a process, or waits for one. -/
theorem run_of_treeCalls {m : CallModel} (hm : batchModels core.funcNam = .model m)
    (htree : core.funcNam ∈ treeCalls) (h : (m.build env core).run w = (x, w')) :
    (core.funcNam ∈ creatingCalls ∧ ((w' = w ∧ ∃ e, x = .error e) ∨
      ∃ aPid isThread, namedPid core = some aPid ∧
        (newChild env core aPid isThread).run w = (x, w'))) ∨
      core.funcNam = waitingCall ∧ (batchLetSysWait4 env core).run w = (x, w') := by
  have hbuild : ∀ name, core.funcNam = name → ∀ m', batchModels name = .model m' → m = m' := by
    rintro _ rfl m' hm'
    rw [hm] at hm'
    cases hm'
    rfl
  rw [treeCalls, List.mem_cons, List.mem_cons, List.mem_singleton] at htree
  rcases htree with hf | hf | hf
  · rw [hbuild _ hf _ rfl] at h
    have hcreating : core.funcNam ∈ creatingCalls := by
      rw [hf]
      decide
    exact .inl ⟨hcreating, run_clone hcreating h⟩
  · rw [hbuild _ hf _ rfl] at h
    have hcreating : core.funcNam ∈ creatingCalls := by
      rw [hf]
      decide
    exact .inl ⟨hcreating, run_vfork hcreating h⟩
  · rw [hbuild _ hf _ rfl] at h
    exact .inr ⟨hf, h⟩

/-- What a model of the tree does to the links. -/
theorem linkResult_of_build {m : CallModel} (hm : batchModels core.funcNam = .model m)
    (htree : core.funcNam ∈ treeCalls) (h : (m.build env core).run w = (x, w')) :
    LinkResult core w.links x w'.links := by
  rcases run_of_treeCalls hm htree h with
    ⟨hf, ⟨rfl, e, rfl⟩ | ⟨aPid, isThread, hname, hrun⟩⟩ | ⟨hf, hrun⟩
  · exact linkResult_error
  · exact linkResult_newChild (ne_waitingCall_of_creating hf) hname hrun
  · exact linkResult_wait4 hf hrun

/-- What a model does to the links, whether it returns or raises. -/
theorem linkStep_of_build {m : CallModel} (hm : batchModels core.funcNam = .model m)
    (hpid : core.pid ∈ w.processes.keys) (h : (m.build env core).run w = (x, w')) :
    LinkStep core w.links w'.links := by
  by_cases htree : core.funcNam ∈ treeCalls
  · exact (linkResult_of_build hm htree h).step
  · have hsame : SameLinks w ((m.build env core).run w).2 :=
      (sameTree_of_build hm htree hpid).sameLinks
    rw [h] at hsame
    exact (show w'.links = w.links from hsame) ▸ .same

end

/-- **What the factory does to the links** of a process that is there. -/
theorem linkStep_of_factoryStep {env : Env} {id : CoreId} {core : BatchLetCore} {w w' : World}
    {r : Option Batch} (h : FactoryStep env id core w w' r) (hcore : w.store.core? id = some core)
    (hpid : core.pid ∈ w.objects.processes.keys) :
    LinkStep core w.objects.links w'.objects.links := by
  have hsame : w'.objects = w.objects → LinkStep core w.objects.links w'.objects.links := by
    intro heq
    rw [heq]
    exact .same
  obtain ⟨c, hc, -, hfunc, hcpid, -, hret, htracer⟩ := h.core? hcore
  cases h with
  | unknown _ _ hobjects => exact hsame hobjects
  | ignored _ hw => exact hsame (by rw [hw])
  | pushed hm _ _ hobjects =>
    rcases hobjects with ⟨-, heq⟩ | ⟨-, e, he⟩
    · exact hsame heq
    · exact linkStep_of_build hm hpid he
  | lone hm _ _ _ hobjects =>
    rcases hobjects with ⟨-, heq⟩ | ⟨-, x, hx⟩
    · exact hsame heq
    · exact linkStep_of_build hm hpid hx
  | built hm _ hcore' hbuild =>
    cases hc.symm.trans hcore'
    have hname : namedPid c = namedPid core := by
      rw [namedPid, namedPid, hfunc, hret, htracer]
    have hstep := linkStep_of_build (by rw [hfunc]; exact hm) (by rw [hcpid]; exact hpid) hbuild
    revert hstep
    generalize w'.objects.links = L
    intro hstep
    cases hstep with
    | same => exact .same
    | appeared h => exact .appeared (hname ▸ h)
    | child h hne hw => exact hcpid ▸ .child (hname ▸ h) (hcpid ▸ hne) (hfunc ▸ hw)

end Survol.Dockit
