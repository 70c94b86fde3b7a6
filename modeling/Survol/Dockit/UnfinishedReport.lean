import Mathlib.Data.List.Forall2
import Survol.Dockit.UnfinishedBatches

/-!
# The report of unfinished calls

`PrintUnfinished` goes through the stacks of each process, in the order of a dictionary, and stops
at the first one that is empty.

## Main definitions

* `printUnfinished` — what is printed.
* `readLines` — the process and the function that each printed core is under.
* `Reports` — the cores that are on a stack are printed, each once, where it belongs.

## Main results

* `openInv_run` — a core is on the stack of its own process and function.
* `reports_iff` — when the report is complete.
-/

open PyText

namespace Survol.Dockit

/-! ## What is printed -/

/-- The letter of a status: `chrDisplayCodes`. -/
def BatchStatus.displayCode : BatchStatus → Char
  | .unknown => '?'
  | .plain => ' '
  | .unfinished => 'U'
  | .resumed => 'R'
  | .matched => 'm'
  | .merged => 'M'
  | .sequence => ' '

/-- `AsStr`, with the text `strArgs` of a list of arguments. -/
def BatchLetCore.asStr (strArgs : List Arg → Text) (core : BatchLetCore) : Text :=
  strArgs core.parsedArgs ++ ' ' :: (core.retValue.getD "None".toList) ++ " s=".toList ++
    [core.status.displayCode]

/-- A line of the report. -/
inductive ReportLine
  | pid (onePid : ℤ)
  | call (funcNam : Text)
  | core (id : CoreId)
  | blank
  deriving DecidableEq

/-- The text of a line. -/
def ReportLine.text (strArgs : List Arg → Text) (u : UnfinishedBatches) : ReportLine → Text
  | .pid onePid => "Unfinished calls pid=".toList ++ decimal onePid ++ "\n".toList
  | .call funcNam => "    Call name=".toList ++ funcNam ++ "\n".toList
  | .core id => "        ".toList ++ ((u.core? id).map (·.asStr strArgs)).getD [] ++ "\n".toList
  | .blank => "\n".toList

/-- The functions of a process, in the order of a dictionary. -/
abbrev PidStacks := List (Text × List CoreId)

/-- The loop over the functions of a process, which an empty stack breaks. -/
def printPid (onePid : ℤ) : Bool → PidStacks → List ReportLine
  | _, [] => []
  | isPidWritten, (funcNam, arrCores) :: mapPid =>
    if arrCores = [] then [] else
      (if isPidWritten then [] else [.pid onePid]) ++
        .call funcNam :: (arrCores.map .core ++ .blank :: printPid onePid true mapPid)

/-- `PrintUnfinished`, on the stacks in the order of the dictionaries. -/
def printUnfinished (withWarning : ℕ) (mapStacks : List (ℤ × PidStacks)) : List ReportLine :=
  if withWarning = 0 then [] else
    mapStacks.flatMap (fun p => printPid p.1 false p.2) ++ [.blank]

/-! ## What the report says -/

/-- A core, with the process and the function that it is under. -/
structure OpenCall where
  pid : ℤ
  funcNam : Text
  id : CoreId
  deriving DecidableEq

/-- The cores that are printed, each under the last process and function before it. -/
def readLines : ℤ → Text → List ReportLine → List OpenCall
  | _, _, [] => []
  | _, funcNam, .pid onePid :: l => readLines onePid funcNam l
  | pid, _, .call funcNam :: l => readLines pid funcNam l
  | pid, funcNam, .core id :: l => ⟨pid, funcNam, id⟩ :: readLines pid funcNam l
  | pid, funcNam, .blank :: l => readLines pid funcNam l

/-- The cores on the stacks of a process. -/
def pidCalls (pid : ℤ) (mapPid : PidStacks) : List OpenCall :=
  mapPid.flatMap fun q => q.2.map (⟨pid, q.1, ·⟩)

/-- The cores on the stacks. -/
def openCalls (mapStacks : List (ℤ × PidStacks)) : List OpenCall :=
  mapStacks.flatMap fun p => pidCalls p.1 p.2

/-- No stack that is not empty comes after an empty one. -/
def EmptyLast (mapPid : PidStacks) : Prop := mapPid.Pairwise fun a b => a.2 = [] → b.2 = []

section
variable {pid : ℤ} {mapPid : PidStacks}

/-- The functions before the first empty stack. -/
def beforeEmpty (mapPid : PidStacks) : PidStacks := mapPid.takeWhile (·.2 ≠ [])

theorem readLines_cores (f : Text) (ids : List CoreId) (tail : List ReportLine) :
    readLines pid f (ids.map .core ++ tail) = ids.map (⟨pid, f, ·⟩) ++ readLines pid f tail := by
  induction ids with
  | nil => rfl
  | cons id ids ih =>
    rw [List.map_cons, List.map_cons, List.cons_append, List.cons_append, readLines, ih]

/-- One process: the calls before the first empty stack are printed. -/
theorem readLines_printPid {written : Bool} {tail : List ReportLine} {calls : List OpenCall}
    (htail : ∀ p f, readLines p f tail = calls) (p : ℤ) (f : Text) (h : written = true → p = pid) :
    readLines p f (printPid pid written mapPid ++ tail) =
      pidCalls pid (beforeEmpty mapPid) ++ calls := by
  induction mapPid generalizing written p f with
  | nil => exact htail p f
  | cons q mapPid ih =>
    obtain ⟨g, ids⟩ := q
    rw [printPid, beforeEmpty, List.takeWhile_cons]
    split
    · rename_i hnil
      simp only [hnil, ne_eq, not_true_eq_false, decide_false, Bool.false_eq_true, if_false]
      exact htail p f
    · rename_i hne
      simp only [hne, ne_eq, not_false_eq_true, decide_true, if_true]
      have hrest := @ih true pid g fun _ => rfl
      have hcall : readLines pid f
          (.call g :: (ids.map .core ++ .blank :: printPid pid true mapPid) ++ tail) =
            pidCalls pid ((g, ids) :: beforeEmpty mapPid) ++ calls := by
        rw [List.cons_append, readLines, List.append_assoc, readLines_cores, List.cons_append,
          readLines, hrest, ← List.append_assoc]
        rfl
      cases written with
      | true =>
        rw [h rfl]
        exact hcall
      | false => exact hcall

theorem readLines_printUnfinished {withWarning : ℕ} (h : withWarning ≠ 0)
    (mapStacks : List (ℤ × PidStacks)) (p : ℤ) (f : Text) :
    readLines p f (printUnfinished withWarning mapStacks) =
      mapStacks.flatMap fun q => pidCalls q.1 (beforeEmpty q.2) := by
  rw [printUnfinished, if_neg h]
  induction mapStacks generalizing p f with
  | nil => rfl
  | cons q mapStacks ih =>
    rw [List.flatMap_cons, List.append_assoc, List.flatMap_cons]
    exact readLines_printPid ih p f nofun

/-- All the calls are printed when the empty stacks come last. -/
theorem pidCalls_beforeEmpty (h : EmptyLast mapPid) :
    pidCalls pid (beforeEmpty mapPid) = pidCalls pid mapPid := by
  induction mapPid with
  | nil => rfl
  | cons q mapPid ih =>
    rw [EmptyLast, List.pairwise_cons] at h
    rw [beforeEmpty, List.takeWhile_cons]
    by_cases hq : q.2 = []
    · have hnone : pidCalls pid (q :: mapPid) = [] := by
        rw [pidCalls, List.flatMap_eq_nil_iff]
        intro q' hq'
        rw [List.map_eq_nil_iff]
        rcases List.mem_cons.mp hq' with rfl | hq'
        · exact hq
        · exact h.1 q' hq' hq
      simp only [hq, ne_eq, not_true_eq_false, decide_false, Bool.false_eq_true, if_false]
      rw [hnone]
      rfl
    · simp only [hq, ne_eq, not_false_eq_true, decide_true, if_true]
      have hrest := ih h.2
      rw [pidCalls, List.flatMap_cons]
      exact congrArg (q.2.map (⟨pid, q.1, ·⟩) ++ ·) hrest

/-- Otherwise, some calls are not printed. -/
theorem length_pidCalls_beforeEmpty : (pidCalls pid (beforeEmpty mapPid)).length ≤
      (pidCalls pid mapPid).length ∧
    ((pidCalls pid (beforeEmpty mapPid)).length = (pidCalls pid mapPid).length →
      EmptyLast mapPid) := by
  induction mapPid with
  | nil => exact ⟨le_rfl, fun _ => List.Pairwise.nil⟩
  | cons q mapPid ih =>
    rw [beforeEmpty, List.takeWhile_cons, EmptyLast, List.pairwise_cons]
    have hcons (l : PidStacks) : (pidCalls pid (q :: l)).length =
        q.2.length + (pidCalls pid l).length := by
      rw [pidCalls, List.flatMap_cons, List.length_append, List.length_map, ← pidCalls]
    by_cases hq : q.2 = []
    · simp only [hq, ne_eq, not_true_eq_false, decide_false, Bool.false_eq_true, if_false]
      refine ⟨Nat.zero_le _, fun h => ?_⟩
      have hnone : pidCalls pid (q :: mapPid) = [] := List.length_eq_zero_iff.mp h.symm
      have hall : ∀ q' ∈ q :: mapPid, q'.2 = [] := by
        intro q' hq'
        rw [pidCalls, List.flatMap_eq_nil_iff] at hnone
        exact List.map_eq_nil_iff.mp (hnone q' hq')
      exact ⟨fun q' hq' _ => hall q' (List.mem_cons_of_mem q hq'),
        List.pairwise_of_forall_mem_list fun _ _ b hb _ => hall b (List.mem_cons_of_mem q hb)⟩
    · simp only [hq, ne_eq, not_false_eq_true, decide_true, if_true]
      rw [hcons, hcons]
      refine ⟨Nat.add_le_add_left ih.1 _, fun h => ?_⟩
      exact ⟨fun _ _ hnil => hnil.elim, ih.2 (Nat.add_left_cancel h)⟩

end

/-! ## The stacks -/

/-- What can be done with the stacks. -/
inductive StackEvent
  | create (core : BatchLetCore)
  | push (batchCoreUnfinished : CoreId)
  | mergePop (batchCoreResumed : CoreId)

/-- The cores and the stacks after an event, whether it returns or raises. -/
def StackEvent.apply (e : StackEvent) (u : UnfinishedBatches) : UnfinishedBatches :=
  match e with
  | .create core => u.addCore core
  | .push id => ((pushBatch id).run u).2
  | .mergePop id => ((mergePopBatch id).run u).2

/-- Without a core. -/
def UnfinishedBatches.empty : UnfinishedBatches := ⟨[], []⟩

/-- The cores and the stacks after some events. -/
def stacksAfter (events : List StackEvent) : UnfinishedBatches :=
  events.foldl (fun u e => e.apply u) .empty

/-- A core is on the stack of its own process and function. -/
def OpenInv (u : UnfinishedBatches) : Prop :=
  ∀ c ∈ openCalls u.mapStacks, ∃ core, u.core? c.id = some core ∧ core.pid = c.pid ∧
    core.funcNam = c.funcNam

/-- The same stacks, and the same process and function of each core. -/
structure StacksKept (u u' : UnfinishedBatches) : Prop where
  mapStacks : u'.mapStacks = u.mapStacks
  core : ∀ id core, u.core? id = some core →
    ∃ core', u'.core? id = some core' ∧ core'.pid = core.pid ∧ core'.funcNam = core.funcNam

instance : Std.Refl StacksKept := ⟨fun _ => ⟨rfl, fun _ core h => ⟨core, h, rfl, rfl⟩⟩⟩

instance : IsTrans UnfinishedBatches StacksKept := ⟨fun _ _ _ h h' =>
  ⟨h'.mapStacks.trans h.mapStacks, fun id core hcore => by
    obtain ⟨core₁, h₁, hpid₁, hname₁⟩ := h.core id core hcore
    obtain ⟨core₂, h₂, hpid₂, hname₂⟩ := h'.core id core₁ h₁
    exact ⟨core₂, h₂, hpid₂.trans hpid₁, hname₂.trans hname₁⟩⟩⟩

theorem OpenInv.of_same {u u' : UnfinishedBatches} (h : OpenInv u) (hs : StacksKept u u') :
    OpenInv u' := by
  intro c hc
  rw [hs.mapStacks] at hc
  obtain ⟨core, hcore, hpid, hname⟩ := h c hc
  obtain ⟨core', hcore', hpid', hname'⟩ := hs.core c.id core hcore
  exact ⟨core', hcore', hpid'.trans hpid, hname'.trans hname⟩

theorem stacksKept_coreAt (id : CoreId) : Py.Keeps StacksKept (coreAt id) :=
  Py.Keeps.get.bind fun _ => .ofOption _ _

theorem stacksKept_updateCore (id : CoreId) {f : BatchLetCore → BatchLetCore}
    (hpid : ∀ core, (f core).pid = core.pid) (hname : ∀ core, (f core).funcNam = core.funcNam) :
    Py.Keeps StacksKept (updateCore id f) := by
  refine .modify fun u => ⟨rfl, fun i core hcore => ?_⟩
  rw [UnfinishedBatches.core?_updateCore, hcore]
  split
  · exact ⟨f core, rfl, hpid core, hname core⟩
  · exact ⟨core, rfl, rfl, rfl⟩

/-- Two halves that become one stay under their process and function. -/
theorem stacksKept_mergeHalves (i j : CoreId) : Py.Keeps StacksKept (mergeHalves i j) := by
  refine (stacksKept_coreAt i).bind fun a => (stacksKept_coreAt j).bind fun b => ?_
  refine Py.Keeps.ite (.raise _) (Py.Keeps.bind ?_ fun _ => ?_)
  · exact stacksKept_updateCore j (fun _ => rfl) fun _ => rfl
  refine Py.Keeps.ite (.raise _) (Py.Keeps.bind ?_ fun _ => ?_)
  · exact stacksKept_updateCore i (fun _ => rfl) fun _ => rfl
  refine (stacksKept_coreAt j).bind fun c => Py.Keeps.ite (.raise _) ?_
  exact stacksKept_updateCore j (fun _ => rfl) fun _ => rfl

theorem mem_openCalls {m : List (ℤ × PidStacks)} {c : OpenCall} : c ∈ openCalls m ↔
    ∃ p ∈ m, ∃ q ∈ p.2, ∃ id ∈ q.2, c = ⟨p.1, q.1, id⟩ := by
  simp only [openCalls, pidCalls, List.mem_flatMap, List.mem_map]
  constructor
  · rintro ⟨p, hp, q, hq, id, hid, rfl⟩
    exact ⟨p, hp, q, hq, id, hid, rfl⟩
  · rintro ⟨p, hp, q, hq, id, hid, rfl⟩
    exact ⟨p, hp, q, hq, id, hid, rfl⟩

section
variable {u : UnfinishedBatches}

/-- What is on a stack is on it under its process and function. -/
theorem openCall_of_mem_stack {pid : ℤ} {f : Text} {id : CoreId} (h : id ∈ u.stack pid f) :
    ⟨pid, f, id⟩ ∈ openCalls u.mapStacks := by
  rw [UnfinishedBatches.stack, UnfinishedBatches.stack?] at h
  cases hm : u.mapStacks.get? pid with
  | none =>
    rw [hm] at h
    cases h
  | some m =>
    rw [hm, Option.bind_some] at h
    cases hl : m.get? f with
    | none =>
      rw [hl] at h
      cases h
    | some l =>
      rw [hl] at h
      exact mem_openCalls.mpr ⟨_, Dict.mem_of_get?_eq_some hm, _, Dict.mem_of_get?_eq_some hl,
        id, h, rfl⟩

/-- A stack that is set brings its own cores only. -/
theorem mem_openCalls_setStack {pid : ℤ} {f : Text} {l : List CoreId} {c : OpenCall}
    (h : c ∈ openCalls (u.setStack pid f l).mapStacks) :
    c ∈ openCalls u.mapStacks ∨ c.pid = pid ∧ c.funcNam = f ∧ c.id ∈ l := by
  obtain ⟨p, hp, q, hq, id, hid, rfl⟩ := mem_openCalls.mp h
  rw [UnfinishedBatches.setStack] at hp
  dsimp only at hp
  cases hm : u.mapStacks.get? pid with
  | none =>
    rw [hm] at hp
    rcases Dict.mem_of_mem_set hp with rfl | hp
    · rw [List.mem_singleton] at hq
      subst hq
      exact .inr ⟨rfl, rfl, hid⟩
    · exact .inl (mem_openCalls.mpr ⟨p, hp, q, hq, id, hid, rfl⟩)
  | some m =>
    rw [hm] at hp
    rcases Dict.mem_of_mem_set hp with rfl | hp
    · rcases Dict.mem_of_mem_set hq with rfl | hq
      · exact .inr ⟨rfl, rfl, hid⟩
      · exact .inl (mem_openCalls.mpr ⟨_, Dict.mem_of_get?_eq_some hm, q, hq, id, hid, rfl⟩)
    · exact .inl (mem_openCalls.mpr ⟨p, hp, q, hq, id, hid, rfl⟩)

theorem OpenInv.setStack (h : OpenInv u) {pid : ℤ} {f : Text} {l : List CoreId}
    (hl : ∀ id ∈ l, ∃ core, u.core? id = some core ∧ core.pid = pid ∧ core.funcNam = f) :
    OpenInv (u.setStack pid f l) := by
  intro c hc
  rw [UnfinishedBatches.core?_setStack]
  rcases mem_openCalls_setStack hc with hc | ⟨rfl, rfl, hid⟩
  · exact h c hc
  · exact hl c.id hid

theorem OpenInv.stack (h : OpenInv u) (pid : ℤ) (f : Text) : ∀ id ∈ u.stack pid f,
    ∃ core, u.core? id = some core ∧ core.pid = pid ∧ core.funcNam = f :=
  fun _ hid => h _ (openCall_of_mem_stack hid)

/-- **One event**: a core goes on the stack of its own process and function. -/
theorem OpenInv.apply (h : OpenInv u) (e : StackEvent) : OpenInv (e.apply u) := by
  cases e with
  | create core =>
    intro c hc
    obtain ⟨core', hcore', hown⟩ := h c hc
    refine ⟨core', ?_, hown⟩
    have hne : c.id ≠ u.nextId core.pid := by
      intro heq
      rw [heq, UnfinishedBatches.core?_nextId] at hcore'
      cases hcore'
    rw [StackEvent.apply, UnfinishedBatches.core?_addCore, if_neg hne, hcore']
  | push id =>
    rw [StackEvent.apply, pushBatch]
    cases hcore : u.core? id with
    | none =>
      have hraise : (coreAt id).run u = (.error .attributeError, u) := by
        rw [coreAt, Py.run_get_bind, hcore, Py.run_ofOption_none]
      rw [Py.run_bind_of_error hraise]
      exact h
    | some core =>
      rw [run_coreAt_bind hcore]
      refine h.setStack fun i hi => ?_
      rcases List.mem_append.mp hi with hi | hi
      · exact h.stack _ _ i hi
      · rw [List.mem_singleton] at hi
        exact ⟨core, by rw [hi, hcore], rfl, rfl⟩
  | mergePop id =>
    rw [StackEvent.apply, mergePopBatch]
    cases hcore : u.core? id with
    | none =>
      have hraise : (coreAt id).run u = (.error .attributeError, u) := by
        rw [coreAt, Py.run_get_bind, hcore, Py.run_ofOption_none]
      rw [Py.run_bind_of_error hraise]
      exact h
    | some core =>
      rw [run_coreAt_bind hcore, Py.run_get_bind]
      cases hstack : u.stack core.pid core.funcNam with
      | nil => exact h
      | cons a l =>
        have hset : OpenInv (u.setStack core.pid core.funcNam (a :: l).dropLast) := by
          refine h.setStack fun i hi => h.stack _ _ i ?_
          rw [hstack]
          exact List.mem_of_mem_dropLast hi
        dsimp only
        rw [Py.run_modify_bind]
        have hkeeps : Py.Keeps StacksKept (do
            mergeHalves ((a :: l).getLast (by simp)) id
            return some id : StoreM (Option CoreId)) :=
          (stacksKept_mergeHalves _ _).bind fun _ => .pure _
        exact hset.of_same (hkeeps _)

end

/-- **A core is on the stack of its own process and function**, after any events. -/
theorem openInv_run (events : List StackEvent) : OpenInv (stacksAfter events) := by
  induction events using List.reverseRecOn with
  | nil => exact fun c hc => by cases hc
  | append_singleton events e ih =>
    rw [stacksAfter, List.foldl_append]
    exact ih.apply e

/-! ## The report -/

/-- The stacks, in the order of some dictionaries. -/
def IsListing (m listing : List (ℤ × PidStacks)) : Prop :=
  ∃ l, l.Perm m ∧ List.Forall₂ (fun a b => a.1 = b.1 ∧ a.2.Perm b.2) listing l

/-- The order of the dictionaries does not change which calls are open. -/
theorem perm_openCalls {m listing : List (ℤ × PidStacks)} (h : IsListing m listing) :
    (openCalls listing).Perm (openCalls m) := by
  obtain ⟨l, hl, hall⟩ := h
  refine List.Perm.trans ?_ (hl.flatMap_right _)
  clear hl
  induction hall with
  | nil => exact .nil
  | @cons a b as bs hab _ ih =>
    have hpid : (pidCalls a.1 a.2).Perm (pidCalls b.1 b.2) := by
      rw [hab.1]
      exact hab.2.flatMap_right _
    exact hpid.append ih

/-- **The report is complete**: the cores that are on a stack are printed, each once, under their
own process and function. -/
def Reports (u : UnfinishedBatches) (lines : List ReportLine) : Prop :=
  (readLines 0 [] lines).Perm (openCalls u.mapStacks) ∧ OpenInv u

theorem length_flatMap_beforeEmpty (listing : List (ℤ × PidStacks)) :
    (listing.flatMap fun p => pidCalls p.1 (beforeEmpty p.2)).length ≤
      (openCalls listing).length ∧
    ((listing.flatMap fun p => pidCalls p.1 (beforeEmpty p.2)).length =
      (openCalls listing).length → ∀ p ∈ listing, EmptyLast p.2) := by
  induction listing with
  | nil => exact ⟨le_rfl, fun _ => List.forall_mem_nil _⟩
  | cons p listing ih =>
    obtain ⟨hle, heq⟩ := @length_pidCalls_beforeEmpty p.1 p.2
    have hcons : (openCalls (p :: listing)).length =
        (pidCalls p.1 p.2).length + (openCalls listing).length := by
      rw [openCalls, List.flatMap_cons, List.length_append, openCalls]
    rw [hcons, List.flatMap_cons, List.length_append, List.forall_mem_cons]
    refine ⟨Nat.add_le_add hle ih.1, fun h => ⟨heq ?_, ih.2 ?_⟩⟩
    · have := ih.1
      omega
    · have := ih.1
      omega

/-- **When the report is complete**: in the order of the dictionary, no process has an empty stack
before one that is not empty. -/
theorem reports_iff (events : List StackEvent) (withWarning : ℕ) (listing : List (ℤ × PidStacks))
    (hwarning : withWarning ≠ 0) (hlisting : IsListing (stacksAfter events).mapStacks listing) :
    Reports (stacksAfter events) (printUnfinished withWarning listing) ↔
      ∀ p ∈ listing, EmptyLast p.2 := by
  have hperm := perm_openCalls hlisting
  rw [Reports, readLines_printUnfinished hwarning]
  constructor
  · rintro ⟨h, -⟩
    exact (length_flatMap_beforeEmpty listing).2 (h.trans hperm.symm).length_eq
  · intro h
    refine ⟨?_, openInv_run events⟩
    have hall : (listing.flatMap fun p => pidCalls p.1 (beforeEmpty p.2)) = openCalls listing :=
      List.flatMap_congr fun p hp => pidCalls_beforeEmpty (h p hp)
    rw [hall]
    exact hperm

/-- A half of a call of the process 7. -/
def openHalf (funcNam : Text) (status : BatchStatus) : BatchLetCore where
  tracer := .strace
  pid := 7
  funcNam := funcNam
  status := status
  timeStart := "10:00:00.000000".toList
  timeEnd := "10:00:00.000000".toList
  execTim := []
  parsedArgs := []
  retValue := none
  unfinishedBatch := none
  resumedBatch := none

/-- A `read` is resumed, and a `write` is left open. -/
def readThenWrite : List StackEvent :=
  [.create (openHalf "read".toList .unfinished), .push ⟨7, 0⟩,
    .create (openHalf "read".toList .resumed), .mergePop ⟨7, 1⟩,
    .create (openHalf "write".toList .unfinished), .push ⟨7, 2⟩]

theorem mapStacks_readThenWrite : (stacksAfter readThenWrite).mapStacks =
    [(7, [("read".toList, []), ("write".toList, [⟨7, 2⟩])])] := by
  decide

/-- The order of the dictionary, and the other one. -/
theorem isListing_self (m : List (ℤ × PidStacks)) : IsListing m m :=
  ⟨m, .refl m, List.forall₂_same.mpr fun p _ => ⟨rfl, .refl p.2⟩⟩

theorem reports_iff_readThenWrite :
    Reports (stacksAfter readThenWrite)
        (printUnfinished 1 [(7, [("write".toList, [⟨7, 2⟩]), ("read".toList, [])])]) ↔
      ∀ p ∈ [((7 : ℤ), [("write".toList, [(⟨7, 2⟩ : CoreId)]), ("read".toList, [])])],
        EmptyLast p.2 :=
  reports_iff readThenWrite 1 _ (by decide) (by
    rw [mapStacks_readThenWrite]
    exact ⟨_, .refl _, .cons ⟨rfl, .swap _ _ _⟩ .nil⟩)

/-- The `write` that is left open is not printed, when the `read` comes first. -/
theorem not_forall_reports : ¬ ∀ (events : List StackEvent) (withWarning : ℕ)
    (listing : List (ℤ × PidStacks)), withWarning ≠ 0 →
      IsListing (stacksAfter events).mapStacks listing →
      Reports (stacksAfter events) (printUnfinished withWarning listing) := by
  intro h
  have hreports := (h readThenWrite 1 _ (by decide) (isListing_self _)).1
  rw [mapStacks_readThenWrite] at hreports
  have hlen := hreports.length_eq
  cases hlen

end Survol.Dockit
