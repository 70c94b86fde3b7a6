import Survol.Dockit.BatchCore

/-!
# Unfinished calls

A call that another process interrupts is printed in two halves. The first one is
kept on the stack of its process and function until the second one comes, which
is then merged with it. The cores themselves change: their status, their links,
and the arguments of the second half.

## Main definitions

* `UnfinishedBatches` — the cores, and the stacks of those that are unfinished.
* `pushBatch`, `mergePopBatch`.
-/

open PyText

namespace Survol.Dockit

/-- The cores that were created, by process, and the stacks of `m_mapStacks`. -/
structure UnfinishedBatches where
  cores : Dict ℤ (List BatchLetCore)
  mapStacks : Dict ℤ (Dict Text (List CoreId))
  deriving DecidableEq

/-- A computation on the cores and the stacks. -/
abbrev StoreM := Py PyExn UnfinishedBatches

namespace UnfinishedBatches

/-- The cores of a process, in the order of their creation. -/
def coresOf (u : UnfinishedBatches) (pid : ℤ) : List BatchLetCore := (u.cores.get? pid).getD []

/-- The core of an identity. -/
def core? (u : UnfinishedBatches) (id : CoreId) : Option BatchLetCore := (u.coresOf id.pid)[id.rank]?

/-- Change a core. -/
def updateCore (u : UnfinishedBatches) (id : CoreId) (f : BatchLetCore → BatchLetCore) :
    UnfinishedBatches :=
  { u with cores := u.cores.update id.pid fun l => l.modify id.rank f }

/-- The identity of the next core of a process. -/
def nextId (u : UnfinishedBatches) (pid : ℤ) : CoreId := ⟨pid, (u.coresOf pid).length⟩

/-- A new core, of its own process. -/
def addCore (u : UnfinishedBatches) (core : BatchLetCore) : UnfinishedBatches :=
  { u with cores := u.cores.set core.pid (u.coresOf core.pid ++ [core]) }

/-- `m_mapStacks[pid][funcNam]`. -/
def stack? (u : UnfinishedBatches) (pid : ℤ) (funcNam : Text) : Option (List CoreId) :=
  (u.mapStacks.get? pid).bind (·.get? funcNam)

/-- Set `m_mapStacks[pid][funcNam]`, with a new inner map for a new process. -/
def setStack (u : UnfinishedBatches) (pid : ℤ) (funcNam : Text) (l : List CoreId) :
    UnfinishedBatches :=
  { u with mapStacks := match u.mapStacks.get? pid with
      | some mapByPids => u.mapStacks.set pid (mapByPids.set funcNam l)
      | none => u.mapStacks.set pid [(funcNam, l)] }

/-- The stack of a process and a function, empty when there is none. -/
def stack (u : UnfinishedBatches) (pid : ℤ) (funcNam : Text) : List CoreId :=
  (u.stack? pid funcNam).getD []

variable (u : UnfinishedBatches)

theorem coresOf_addCore (core : BatchLetCore) (pid : ℤ) :
    (u.addCore core).coresOf pid =
      if core.pid = pid then u.coresOf pid ++ [core] else u.coresOf pid := by
  simp only [coresOf, addCore, Dict.get?_set]
  split
  · rename_i h
    subst h
    rfl
  · rfl

theorem coresOf_updateCore (id : CoreId) (f : BatchLetCore → BatchLetCore) (pid : ℤ) :
    (u.updateCore id f).coresOf pid =
      if id.pid = pid then (u.coresOf pid).modify id.rank f else u.coresOf pid := by
  simp only [coresOf, updateCore, Dict.get?_update]
  split
  · rename_i h
    subst h
    cases u.cores.get? id.pid <;> simp
  · rfl

@[simp] theorem coresOf_setStack (p : ℤ) (f : Text) (l : List CoreId) (pid : ℤ) :
    (u.setStack p f l).coresOf pid = u.coresOf pid := rfl

@[simp] theorem core?_setStack (p : ℤ) (f : Text) (l : List CoreId) (id : CoreId) :
    (u.setStack p f l).core? id = u.core? id := rfl

theorem core?_addCore (core : BatchLetCore) (id : CoreId) :
    (u.addCore core).core? id = if id = u.nextId core.pid then some core else u.core? id := by
  obtain ⟨pid, rank⟩ := id
  simp only [core?, coresOf_addCore, nextId, CoreId.mk.injEq]
  by_cases hp : core.pid = pid
  · subst hp
    simp only [if_true, true_and, List.getElem?_append]
    rcases lt_trichotomy rank (u.coresOf core.pid).length with h | h | h
    · simp [h, h.ne]
    · simp [h]
    · simp [h.ne', not_lt.mpr h.le, Nat.sub_ne_zero_of_lt h]
  · simp [hp, Ne.symm hp]

theorem core?_updateCore (i : CoreId) (f : BatchLetCore → BatchLetCore) (id : CoreId) :
    (u.updateCore i f).core? id = if i = id then (u.core? id).map f else u.core? id := by
  obtain ⟨pid, rank⟩ := id
  obtain ⟨p, r⟩ := i
  simp only [core?, coresOf_updateCore, CoreId.mk.injEq]
  by_cases hp : p = pid
  · subst hp
    simp only [if_true, true_and, List.getElem?_modify]
    by_cases hr : r = rank
    · simp [hr]
    · simp [hr]
  · simp [hp]

theorem core?_nextId (pid : ℤ) : u.core? (u.nextId pid) = none := by
  simp [core?, nextId]

@[simp] theorem core?_addCore_nextId (core : BatchLetCore) :
    (u.addCore core).core? (u.nextId core.pid) = some core := by
  rw [core?_addCore, if_pos rfl]

@[simp] theorem stack_addCore (core : BatchLetCore) (pid : ℤ) (f : Text) :
    (u.addCore core).stack pid f = u.stack pid f := rfl

@[simp] theorem stack_updateCore (i : CoreId) (g : BatchLetCore → BatchLetCore) (pid : ℤ)
    (f : Text) : (u.updateCore i g).stack pid f = u.stack pid f := rfl

theorem stack_setStack (p : ℤ) (f : Text) (l : List CoreId) (p' : ℤ) (f' : Text) :
    (u.setStack p f l).stack p' f' = if p = p' ∧ f = f' then l else u.stack p' f' := by
  simp only [stack, stack?, setStack]
  cases hm : u.mapStacks.get? p with
  | none =>
    by_cases hp : p = p'
    · subst hp
      by_cases hf : f = f' <;> simp [Dict.get?_cons, hf, hm]
    · simp [hp]
  | some m =>
    by_cases hp : p = p'
    · subst hp
      by_cases hf : f = f' <;> simp [hf, hm]
    · simp [hp]

end UnfinishedBatches

/-- The core of an identity, which always exists. -/
def coreAt (id : CoreId) : StoreM BatchLetCore := do
  Py.ofOption .attributeError ((← Py.get).core? id)

@[simp] theorem snd_run_coreAt (id : CoreId) (u : UnfinishedBatches) :
    ((coreAt id).run u).2 = u := by
  simp only [coreAt, Py.run_get_bind]
  cases u.core? id <;> rfl

theorem run_coreAt_bind {α : Type} {u : UnfinishedBatches} {id : CoreId} {c : BatchLetCore}
    (h : u.core? id = some c) (f : BatchLetCore → StoreM α) :
    (coreAt id >>= f).run u = (f c).run u := by
  simp only [coreAt, Py.run_bind, Py.run_get, h, Py.run_ofOption_some]

/-- Change a core. -/
def updateCore (id : CoreId) (f : BatchLetCore → BatchLetCore) : StoreM Unit :=
  .modify fun u => u.updateCore id f

/-- `PushBatch`. -/
def pushBatch (batchCoreUnfinished : CoreId) : StoreM Unit := do
  let core ← coreAt batchCoreUnfinished
  .modify fun u => u.setStack core.pid core.funcNam
    (u.stack core.pid core.funcNam ++ [batchCoreUnfinished])

/-- The rank of a status in the class `BatchStatus`. -/
def BatchStatus.toNat : BatchStatus → ℕ
  | .unknown => 0
  | .plain => 1
  | .unfinished => 2
  | .resumed => 3
  | .matched => 4
  | .merged => 5
  | .sequence => 6

/-- The first sanity check of `MergePopBatch`. -/
def inconsistency (unfinished resumed : Text) : PyExn :=
  .exception ("Inconsistency batchCoreUnfinished.m_funcNam=".toList ++ unfinished ++
    " batchCoreResumed.m_funcNam=".toList ++ resumed ++ "\n".toList)

/-- The second and third sanity checks of `MergePopBatch`. -/
def statusNotPlain (half : Text) (status : BatchStatus) : PyExn :=
  .exception (half ++ " status is not plain:".toList ++ decimal status.toNat)

/-- The two halves of a call become one: the rest of `MergePopBatch`, once the
unfinished half is found. -/
def mergeHalves (batchCoreUnfinished batchCoreResumed : CoreId) : StoreM Unit := do
  let unfinished ← coreAt batchCoreUnfinished
  let resumed ← coreAt batchCoreResumed
  if unfinished.funcNam ≠ resumed.funcNam then
    .raise (inconsistency unfinished.funcNam resumed.funcNam)
  else
    updateCore batchCoreResumed fun c =>
      { c with parsedArgs := unfinished.parsedArgs ++ resumed.parsedArgs }
    if unfinished.status ≠ .unfinished then
      .raise (statusNotPlain "Unfinished".toList unfinished.status)
    else
      updateCore batchCoreUnfinished fun c =>
        { c with status := .matched, resumedBatch := some batchCoreResumed }
      let resumed ← coreAt batchCoreResumed
      if resumed.status ≠ .resumed then
        .raise (statusNotPlain "Resumed".toList resumed.status)
      else
        updateCore batchCoreResumed fun c =>
          { c with status := .merged, unfinishedBatch := some batchCoreUnfinished }

/-- `MergePopBatch`: the resumed half, if its unfinished half was found. -/
def mergePopBatch (batchCoreResumed : CoreId) : StoreM (Option CoreId) := do
  let core ← coreAt batchCoreResumed
  match (← Py.get).stack core.pid core.funcNam with
  | [] => return none
  | batchCore :: stackPerFunc =>
    let l := batchCore :: stackPerFunc
    .modify fun u => u.setStack core.pid core.funcNam l.dropLast
    mergeHalves (l.getLast (by simp [l])) batchCoreResumed
    return some batchCoreResumed

end Survol.Dockit
