import Survol.Dockit.LogLines
import Survol.Dockit.Pairing

/-!
# From a log to its batches

The loop of `CreateFlowsFromGenericLinuxLog`: each joined line is parsed, and its
core is made into a batch, which is yielded. The variable `batchCore` outlives the
line it comes from: a line that cannot be parsed leaves it, and the core of an
earlier line is then processed again.

## Main definitions

* `Loop`, `processLine`, `createFlowsFromGenericLinuxLog`.
* `EndsRecord` — a part of a log that ends with the end of a record.
-/

open PyText

namespace Survol.Dockit

/-- The variables of the loop, with the batches yielded so far. Before the first core,
the time-stamp is empty. -/
structure Loop where
  world : World
  batchCore : Option CoreId
  lastTimeStamp : Text
  yielded : List Batch
  deriving DecidableEq

/-- The loop before the first line. -/
def Loop.init : Loop := ⟨.init, none, [], []⟩

/-- A computation of the loop. -/
abbrev LoopM := Py PyExn Loop

/-- A computation on the world only. -/
def inWorld {α : Type} (m : WorldM α) : LoopM α :=
  .zoom Loop.world (fun s w => { s with world := w }) m

/-- The message for a command that does not exist. -/
def invalidCommand (oneLine : Text) : PyExn := .exception ("Invalid command: ".toList ++ oneLine)

/-- The message for a process that does not exist. -/
def invalidProcessId (oneLine : Text) : PyExn :=
  .exception ("Invalid process id: ".toList ++ oneLine)

/-- A line that cannot be parsed only matters when it is the second one. -/
def caughtInvalidLine (numLine : ℕ) (oneLine : Text) : LoopM Unit :=
  if numLine = 2 then
    if contains oneLine "No such file or directory".toList then .raise (invalidCommand oneLine)
    else if contains oneLine "No such process".toList then .raise (invalidProcessId oneLine)
    else pure ()
  else pure ()

/-- The variable `batchCore` is set, unless the line cannot be parsed. -/
def readCore (env : Env) (tracer : Tracer) (numLine : ℕ) (oneLine : Text) : LoopM Unit :=
  .catching (fun _ => true)
    (do
      let batchCore ← inWorld (createBatchCore env tracer oneLine)
      .modify fun s => { s with batchCore := batchCore })
    (caughtInvalidLine numLine oneLine)

/-- The core of the variable `batchCore` is made into a batch. -/
def nextBatch (env : Env) : LoopM (Option Batch) := do
  match (← Py.get).batchCore with
  | none => return none
  | some batchCore =>
    let core ← inWorld (onStore (coreAt batchCore))
    .modify fun s => { s with lastTimeStamp := core.timeEnd }
    inWorld (batchLetFactory env batchCore)

/-- A batch is yielded. -/
def yieldBatch (aBatch : Option Batch) : LoopM Unit :=
  .modify fun s => { s with yielded := s.yielded ++ aBatch.toList }

/-- A joined line, with the number of lines read. -/
def processLine (env : Env) (tracer : Tracer) (line : Text × ℕ) : LoopM Unit := do
  readCore env tracer line.2 line.1
  let aBatch ← nextBatch env
  yieldBatch aBatch

/-- After the last line, the processes still running are terminated. -/
def endOfLog : LoopM Unit :=
  .modify fun s =>
    if s.lastTimeStamp = [] then s else
      { s with world.objects := s.world.objects.globalTerminationDate s.lastTimeStamp }

/-- `CreateFlowsFromGenericLinuxLog`. -/
def createFlowsFromGenericLinuxLog (env : Env) (tracer : Tracer) (logStream : List Text) :
    LoopM Unit := do
  .each (processLine env tracer) (joinLines [] 0 logStream)
  endOfLog

/-! ## Parts of a log -/

/-- The last line, if there is one, ends a record. -/
def EndsRecord (logStream : List Text) : Prop :=
  ∀ l, logStream.getLast? = some l → isLogEnding l = true

theorem EndsRecord.tail {l : Text} {logStream : List Text} (h : EndsRecord (l :: logStream)) :
    EndsRecord logStream := by
  intro l' hl'
  refine h l' ?_
  cases logStream with
  | nil => cases hl'
  | cons k logStream => simpa using hl'

/-- What follows the end of a record is joined separately. -/
theorem joinLines_append {oneLine : Text} {numLine : ℕ} {l l' : List Text} (h : EndsRecord l)
    (hone : oneLine = [] ∨ l ≠ []) :
    joinLines oneLine numLine (l ++ l') =
      joinLines oneLine numLine l ++ joinLines [] (numLine + l.length) l' := by
  induction l generalizing oneLine numLine with
  | nil =>
    rcases hone with rfl | hne
    · rfl
    · exact absurd rfl hne
  | cons tmpLine l ih =>
    have hnum : numLine + (tmpLine :: l).length = numLine + 1 + l.length := by
      rw [List.length_cons]
      omega
    rw [List.cons_append, joinLines, joinLines, hnum]
    split
    · rw [ih h.tail (.inl rfl), List.cons_append]
    · rename_i hno
      refine ih h.tail (.inr ?_)
      rintro rfl
      exact hno (h tmpLine rfl)

theorem map_joinLines (oneLine : Text) (n m : ℕ) (l : List Text) :
    (joinLines oneLine n l).map Prod.fst = (joinLines oneLine m l).map Prod.fst := by
  induction l generalizing oneLine n m with
  | nil =>
    rw [joinLines, joinLines]
    split <;> rfl
  | cons tmpLine l ih =>
    rw [joinLines, joinLines]
    split
    · rw [List.map_cons, List.map_cons, ih _ (n + 1) (m + 1)]
    · exact ih _ _ _

theorem lt_of_mem_joinLines {oneLine : Text} {n : ℕ} {l : List Text} {line : Text × ℕ}
    (h : line ∈ joinLines oneLine n l) : n < line.2 := by
  induction l generalizing oneLine n with
  | nil =>
    rw [joinLines] at h
    split at h
    · cases h
    · rw [List.mem_singleton] at h
      rw [h]
      exact Nat.lt_succ_self n
  | cons tmpLine l ih =>
    rw [joinLines] at h
    split at h
    · rcases List.mem_cons.mp h with rfl | h
      · exact Nat.lt_succ_self n
      · exact (Nat.lt_succ_self n).trans (ih h)
    · exact (Nat.lt_succ_self n).trans (ih h)

/-! ## Running a part of a log -/

section
variable {env : Env} {tracer : Tracer}

/-- Only the number of the second line matters. -/
theorem processLine_of_lt {line : Text × ℕ} (h : 2 < line.2) :
    processLine env tracer line = processLine env tracer (line.1, 3) := by
  have hcaught : caughtInvalidLine line.2 line.1 = caughtInvalidLine 3 line.1 := by
    rw [caughtInvalidLine, caughtInvalidLine, if_neg h.ne', if_neg (by decide)]
  rw [processLine, processLine, readCore, readCore, hcaught]

/-- After the second line, the numbers of the lines do not matter. -/
theorem each_processLine {n m : ℕ} (hn : 2 ≤ n) (hm : 2 ≤ m) (l : List Text) :
    Py.each (processLine env tracer) (joinLines [] n l) =
      Py.each (processLine env tracer) (joinLines [] m l) := by
  have hnum : ∀ k, 2 ≤ k → Py.each (processLine env tracer) (joinLines [] k l) =
      Py.each (fun t => processLine env tracer (t, 3)) ((joinLines [] k l).map Prod.fst) := by
    intro k hk
    rw [Py.each_map]
    refine Py.each_congr fun line hline => processLine_of_lt ?_
    exact hk.trans_lt (lt_of_mem_joinLines hline)
  rw [hnum n hn, hnum m hm, map_joinLines [] n m]

theorem run_inWorld {α : Type} (m : WorldM α) (s : Loop) :
    (inWorld m).run s = ((m.run s.world).1, { s with world := (m.run s.world).2 }) := rfl

/-- A line that cannot be parsed leaves the variable `batchCore`. -/
theorem run_readCore_of_error {oneLine : Text} {e : PyExn} {numLine : ℕ}
    (h : parseLine env.topProcessId tracer oneLine = .error e) (hnum : numLine ≠ 2) (s : Loop) :
    (readCore env tracer numLine oneLine).run s = (.ok (), s) := by
  simp [readCore, Py.catching, Py.run_bind, run_inWorld, createBatchCore, h, caughtInvalidLine, hnum]

theorem run_processLine {line : Text × ℕ} {s s' : Loop}
    (h : (processLine env tracer line).run s = (.ok (), s')) :
    ∃ s₁ r s₂, (readCore env tracer line.2 line.1).run s = (.ok (), s₁) ∧
      (nextBatch env).run s₁ = (.ok r, s₂) ∧ s' = { s₂ with yielded := s₂.yielded ++ r.toList } := by
  rw [processLine, Py.run_bind_eq_ok] at h
  obtain ⟨_, s₁, hread, h⟩ := h
  rw [Py.run_bind_eq_ok] at h
  obtain ⟨r, s₂, hnext, h⟩ := h
  cases h
  exact ⟨s₁, r, s₂, hread, hnext, rfl⟩

theorem run_nextBatch_none {s : Loop} (h : s.batchCore = none) :
    (nextBatch env).run s = (.ok none, s) := by
  rw [nextBatch, Py.run_get_bind]
  simp only [h, Py.run_pure]

theorem run_nextBatch_some {s : Loop} {id : CoreId} {core : BatchLetCore}
    (h : s.batchCore = some id) (hcore : s.world.store.core? id = some core) :
    (nextBatch env).run s = (((batchLetFactory env id).run s.world).1,
      { s with lastTimeStamp := core.timeEnd
               world := ((batchLetFactory env id).run s.world).2 }) := by
  rw [nextBatch, Py.run_get_bind]
  simp only [h, Py.run_bind, run_inWorld, run_onStore, coreAt, Py.run_get, hcore,
    Py.run_ofOption_some, Py.run_modify]

/-- A line that is a call: its core is admitted. -/
theorem run_readCore_of_core {oneLine : Text} {numLine : ℕ} {core : BatchLetCore} {s s' : Loop}
    (hparse : parseLine env.topProcessId tracer oneLine = .ok (some core))
    (h : (readCore env tracer numLine oneLine).run s = (.ok (), s')) :
    s' = { s with world := ((admitCore env core).run s.world).2
                  batchCore := some (s.world.store.nextId core.pid) } := by
  have hcreate : (createBatchCore env tracer oneLine).run s.world =
      (.ok (some (s.world.store.nextId core.pid)), ((admitCore env core).run s.world).2) := by
    rw [createBatchCore, hparse]
    rfl
  simp only [readCore, Py.catching, Py.run_bind, run_inWorld, hcreate, Py.run_modify,
    Prod.mk.injEq, true_and] at h
  exact h.symm

/-- A line that is a call: its core is processed. -/
theorem run_processLine_of_core {line : Text × ℕ} {core : BatchLetCore} {s s' : Loop}
    (hparse : parseLine env.topProcessId tracer line.1 = .ok (some core))
    (h : (processLine env tracer line).run s = (.ok (), s')) :
    ∃ r, (processCore env core).run s.world = (.ok r, s'.world) ∧
      s'.yielded = s.yielded ++ r.toList ∧ s'.batchCore = some (s.world.store.nextId core.pid) ∧
      s'.lastTimeStamp = core.timeEnd := by
  obtain ⟨s₁, r, s₂, hread, hnext, rfl⟩ := run_processLine h
  have hs₁ := run_readCore_of_core hparse hread
  subst hs₁
  have hcore : ((admitCore env core).run s.world).2.store.core? (s.world.store.nextId core.pid) =
      some core := s.world.store.core?_addCore_nextId core
  rw [run_nextBatch_some rfl hcore] at hnext
  obtain ⟨hres, rfl⟩ := Prod.mk.inj hnext
  exact ⟨r, Prod.ext hres rfl, rfl, rfl, rfl⟩

end

end Survol.Dockit
