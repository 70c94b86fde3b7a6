import Survol.Dockit.Factory

/-!
# The pairing of split calls

In every state that the factory can reach, the stack of a process and a function
holds the unfinished cores of this process and function that have not been
resumed, oldest first, and the matched and merged cores are linked one to one. A
resumed core is therefore merged with the last unfinished one, and the checks of
`mergePopBatch` never fail.

Functions without a model are never put on a stack, and their two halves are not
paired. The same holds of a function whose model accepts an unfinished call.

## Main definitions

* `Reachable` — the worlds reached from freshly parsed cores.
* `openIds` — the cores of a process and a function still to be resumed.
* `PairingInv` — the invariant, and `UnpairedInv` for the other functions.
-/

open PyText

namespace Survol.Dockit

/-! ## Runs -/

/-- A core as the parser makes it. -/
structure FreshCore (core : BatchLetCore) : Prop where
  status : core.status = .plain ∨ core.status = .unfinished ∨ core.status = .resumed
  unfinishedBatch : core.unfinishedBatch = none
  resumedBatch : core.resumedBatch = none

/-- A parsed core is admitted, and made into a batch. -/
def processCore (env : Env) (core : BatchLetCore) : WorldM (Option Batch) := do
  batchLetFactory env (← admitCore env core)

/-- The worlds that the factory reaches on fresh cores, when nothing is raised. -/
inductive Reachable (env : Env) : World → Prop
  | init : Reachable env World.init
  | step {w w' : World} {core : BatchLetCore} {r : Option Batch} (h : Reachable env w)
      (hfresh : FreshCore core) (hrun : (processCore env core).run w = (.ok r, w')) :
      Reachable env w'

/-- A function whose unfinished calls wait for their second half. -/
def IsPaired (funcNam : Text) : Prop :=
  ∃ m, batchModels funcNam = .model m ∧ m.unfinishedIsOk = false

example : IsPaired "munmap@SYS".toList := ⟨_, rfl, rfl⟩

/-! ## The invariant -/

namespace UnfinishedBatches

/-- Whether a core is an unfinished call of a function. -/
def isOpen (u : UnfinishedBatches) (funcNam : Text) (id : CoreId) : Bool :=
  match u.core? id with
  | some c => c.status = .unfinished && c.funcNam = funcNam
  | none => false

/-- The identities of the cores of a process, oldest first. -/
def idsOf (u : UnfinishedBatches) (pid : ℤ) : List CoreId :=
  (List.range (u.coresOf pid).length).map (CoreId.mk pid)

/-- The unfinished calls of a process and a function, oldest first. -/
def openIds (u : UnfinishedBatches) (pid : ℤ) (funcNam : Text) : List CoreId :=
  (u.idsOf pid).filter (u.isOpen funcNam)

/-- The links of a core are right: those of a matched and of a merged core lead to
each other, and the other cores have none. -/
def LinksOk (u : UnfinishedBatches) (id : CoreId) (c : BatchLetCore) : Prop :=
  match c.status with
  | .matched => c.unfinishedBatch = none ∧ ∃ j m, c.resumedBatch = some j ∧ u.core? j = some m ∧
      m.status = .merged ∧ m.unfinishedBatch = some id ∧ m.pid = c.pid ∧ m.funcNam = c.funcNam
  | .merged => c.resumedBatch = none ∧ ∃ i m, c.unfinishedBatch = some i ∧ u.core? i = some m ∧
      m.status = .matched ∧ m.resumedBatch = some id ∧ m.pid = c.pid ∧ m.funcNam = c.funcNam
  | _ => c.unfinishedBatch = none ∧ c.resumedBatch = none

/-- What every reachable store satisfies. -/
structure PairingInv (u : UnfinishedBatches) : Prop where
  pid : ∀ id c, u.core? id = some c → c.pid = id.pid
  links : ∀ id c, u.core? id = some c → u.LinksOk id c
  stack_sublist : ∀ pid f, (u.stack pid f).Sublist (u.openIds pid f)
  stack_paired : ∀ pid f, IsPaired f → u.stack pid f = u.openIds pid f

variable {u : UnfinishedBatches}

theorem isOpen_iff {f : Text} {id : CoreId} :
    u.isOpen f id = true ↔ ∃ c, u.core? id = some c ∧ c.status = .unfinished ∧ c.funcNam = f := by
  unfold isOpen
  cases u.core? id <;> simp

theorem mem_idsOf {pid : ℤ} {id : CoreId} :
    id ∈ u.idsOf pid ↔ id.pid = pid ∧ (u.core? id).isSome := by
  obtain ⟨p, r⟩ := id
  simp only [idsOf, List.mem_map, List.mem_range, CoreId.mk.injEq, core?]
  constructor
  · rintro ⟨k, hk, rfl, rfl⟩
    simpa using hk
  · rintro ⟨rfl, hr⟩
    exact ⟨r, by simpa using hr, rfl, rfl⟩

theorem mem_openIds {pid : ℤ} {f : Text} {id : CoreId} :
    id ∈ u.openIds pid f ↔ id.pid = pid ∧
      ∃ c, u.core? id = some c ∧ c.status = .unfinished ∧ c.funcNam = f := by
  rw [openIds, List.mem_filter, mem_idsOf, isOpen_iff]
  constructor
  · rintro ⟨⟨hp, -⟩, c, hc, h⟩
    exact ⟨hp, c, hc, h⟩
  · rintro ⟨hp, c, hc, h⟩
    exact ⟨⟨hp, by simp [hc]⟩, c, hc, h⟩

/-- The identities are listed by increasing rank. -/
theorem pairwise_openIds (pid : ℤ) (f : Text) :
    (u.openIds pid f).Pairwise fun i j => i.rank < j.rank := by
  refine List.Pairwise.filter _ ?_
  rw [idsOf, List.pairwise_map]
  exact List.pairwise_lt_range

theorem nodup_openIds (pid : ℤ) (f : Text) : (u.openIds pid f).Nodup :=
  (pairwise_openIds pid f).imp fun h => by
    rintro rfl
    exact lt_irrefl _ h

/-! ## A new core -/

theorem idsOf_addCore (core : BatchLetCore) (pid : ℤ) :
    (u.addCore core).idsOf pid =
      if core.pid = pid then u.idsOf pid ++ [u.nextId pid] else u.idsOf pid := by
  unfold idsOf
  rw [coresOf_addCore]
  split
  · simp [List.range_succ, nextId]
  · rfl

theorem isSome_core?_of_mem_idsOf {pid : ℤ} {id : CoreId} (h : id ∈ u.idsOf pid) (p : ℤ) :
    id ≠ u.nextId p := by
  rintro rfl
  have := (mem_idsOf.mp h).2
  simp [core?_nextId] at this

theorem openIds_addCore (core : BatchLetCore) (pid : ℤ) (f : Text) :
    (u.addCore core).openIds pid f = u.openIds pid f ++
      if core.pid = pid ∧ core.status = .unfinished ∧ core.funcNam = f then [u.nextId pid] else [] := by
  have hold : (u.idsOf pid).filter ((u.addCore core).isOpen f) = u.openIds pid f := by
    refine List.filter_congr fun id hid => ?_
    simp only [isOpen, core?_addCore, if_neg (isSome_core?_of_mem_idsOf hid core.pid)]
  unfold openIds at hold ⊢
  rw [idsOf_addCore]
  by_cases hp : core.pid = pid
  · subst hp
    rw [if_pos rfl, List.filter_append, hold]
    congr 1
    by_cases hc : core.status = .unfinished ∧ core.funcNam = f
    · simp [hc, isOpen, core?_addCore]
    · have hnew : (u.addCore core).isOpen f (u.nextId core.pid) = false := by
        simpa [isOpen, core?_addCore] using hc
      simp [hnew, hc]
  · simp [hp, hold]

/-- Links stay right as long as the linked cores stay. -/
theorem LinksOk.mono {u' : UnfinishedBatches} {id : CoreId} {c : BatchLetCore}
    (h : ∀ i b, u.core? i = some b → b.status = .matched ∨ b.status = .merged →
      u'.core? i = some b) (hl : u.LinksOk id c) : u'.LinksOk id c := by
  unfold LinksOk at hl ⊢
  split
  · rename_i hs
    simp only [hs] at hl
    obtain ⟨h₁, j, m, h₂, h₃, h₄, h₅⟩ := hl
    exact ⟨h₁, j, m, h₂, h j m h₃ (.inr h₄), h₄, h₅⟩
  · rename_i hs
    simp only [hs] at hl
    obtain ⟨h₁, j, m, h₂, h₃, h₄, h₅⟩ := hl
    exact ⟨h₁, j, m, h₂, h j m h₃ (.inl h₄), h₄, h₅⟩
  · rename_i h₁ h₂
    split at hl
    · exact absurd ‹_› h₁
    · exact absurd ‹_› h₂
    · exact hl

theorem core?_addCore_of_some (core : BatchLetCore) {i : CoreId} {b : BatchLetCore}
    (h : u.core? i = some b) : (u.addCore core).core? i = some b := by
  rw [core?_addCore, if_neg, h]
  rintro rfl
  simp [core?_nextId] at h

theorem linksOk_of_fresh {core : BatchLetCore} (hc : FreshCore core) (id : CoreId) :
    u.LinksOk id core := by
  unfold LinksOk
  rcases hc.status with h | h | h <;> rw [h] <;> exact ⟨hc.unfinishedBatch, hc.resumedBatch⟩

/-- The cores are right after a new one, whatever the stacks. -/
theorem cores_addCore (h : u.PairingInv) {core : BatchLetCore} (hc : FreshCore core) :
    (∀ id c, (u.addCore core).core? id = some c → c.pid = id.pid) ∧
      ∀ id c, (u.addCore core).core? id = some c → (u.addCore core).LinksOk id c := by
  constructor
  · intro id c
    rw [core?_addCore]
    split
    · rintro ⟨⟩
      subst id
      rfl
    · exact h.pid id c
  · intro id c
    rw [core?_addCore]
    split
    · rintro ⟨⟩
      exact linksOk_of_fresh hc id
    · intro hid
      exact (h.links id c hid).mono fun i b hi _ => core?_addCore_of_some core hi

/-- A new core that is not put on a stack. -/
theorem PairingInv.addCore (h : u.PairingInv) {core : BatchLetCore} (hc : FreshCore core)
    (hn : ¬ (core.status = .unfinished ∧ IsPaired core.funcNam)) : (u.addCore core).PairingInv := by
  obtain ⟨hpid, hlinks⟩ := cores_addCore h hc
  refine ⟨hpid, hlinks, fun pid f => ?_, fun pid f hf => ?_⟩
  · rw [openIds_addCore]
    exact (h.stack_sublist pid f).trans (List.sublist_append_left _ _)
  · rw [openIds_addCore, if_neg, List.append_nil]
    · exact h.stack_paired pid f hf
    · rintro ⟨-, hs, rfl⟩
      exact hn ⟨hs, hf⟩

/-- The store after a new unfinished core is pushed. -/
def pushed (u : UnfinishedBatches) (core : BatchLetCore) : UnfinishedBatches :=
  (u.addCore core).setStack core.pid core.funcNam
    (u.stack core.pid core.funcNam ++ [u.nextId core.pid])

/-- A new unfinished core that is put on its stack. -/
theorem PairingInv.pushed (h : u.PairingInv) {core : BatchLetCore} (hc : FreshCore core)
    (hs : core.status = .unfinished) : (u.pushed core).PairingInv := by
  obtain ⟨hpid, hlinks⟩ := cores_addCore h hc
  have hstack : ∀ pid f, (u.pushed core).stack pid f = u.stack pid f ++
      if core.pid = pid ∧ core.status = .unfinished ∧ core.funcNam = f then [u.nextId pid] else [] := by
    intro pid f
    simp only [UnfinishedBatches.pushed, stack_setStack, stack_addCore, hs, true_and]
    split
    · rename_i h
      obtain ⟨rfl, rfl⟩ := h
      rfl
    · simp
  have hopen : ∀ pid f, (u.pushed core).openIds pid f = (u.addCore core).openIds pid f :=
    fun _ _ => rfl
  refine ⟨hpid, hlinks, fun pid f => ?_, fun pid f hf => ?_⟩
  · rw [hopen, openIds_addCore, hstack]
    exact (h.stack_sublist pid f).append (List.Sublist.refl _)
  · rw [hopen, openIds_addCore, hstack, h.stack_paired pid f hf]

/-! ## Two halves -/

/-- The store after the unfinished core `a`, at `i`, and the resumed core `b`, at
`j`, are merged. -/
structure Merged (u u' : UnfinishedBatches) (i j : CoreId) (a b : BatchLetCore) : Prop where
  ids : ∀ pid, u'.idsOf pid = u.idsOf pid
  core? : ∀ id, u'.core? id =
    if id = j then some { b with parsedArgs := a.parsedArgs ++ b.parsedArgs, status := .merged,
                                 unfinishedBatch := some i }
    else if id = i then some { a with status := .matched, resumedBatch := some j }
    else u.core? id
  stack : ∀ pid f, u'.stack pid f =
    if pid = b.pid ∧ f = b.funcNam then (u.stack pid f).dropLast else u.stack pid f

/-- What a merge needs of its two cores, which the invariant gives. -/
structure Mergeable (u : UnfinishedBatches) (i j : CoreId) (a b : BatchLetCore) : Prop where
  left : u.core? i = some a
  right : u.core? j = some b
  unfinished : a.status = .unfinished
  resumed : b.status = .resumed
  pid : a.pid = b.pid
  funcNam : a.funcNam = b.funcNam
  last : (u.stack b.pid b.funcNam).getLast? = some i

theorem Mergeable.ne {i j : CoreId} {a b : BatchLetCore} (h : u.Mergeable i j a b) : i ≠ j := by
  rintro rfl
  have := h.left.symm.trans h.right
  simp only [Option.some.injEq] at this
  have hs := h.unfinished.symm.trans (this ▸ h.resumed)
  cases hs

theorem idsOf_updateCore (id : CoreId) (g : BatchLetCore → BatchLetCore) (pid : ℤ) :
    (u.updateCore id g).idsOf pid = u.idsOf pid := by
  unfold idsOf
  rw [coresOf_updateCore]
  split <;> simp

/-- `mergeHalves` on two cores that pass its checks. -/
theorem run_mergeHalves {i j : CoreId} {a b : BatchLetCore} (hij : i ≠ j)
    (hi : u.core? i = some a) (hj : u.core? j = some b) (hf : a.funcNam = b.funcNam)
    (ha : a.status = .unfinished) (hb : b.status = .resumed) :
    (mergeHalves i j).run u = (.ok (),
      ((u.updateCore j fun c => { c with parsedArgs := a.parsedArgs ++ b.parsedArgs }).updateCore i
        fun c => { c with status := .matched, resumedBatch := some j }).updateCore j
        fun c => { c with status := .merged, unfinishedBatch := some i }) := by
  have hj' : ((u.updateCore j fun c => { c with parsedArgs := a.parsedArgs ++ b.parsedArgs }).updateCore
      i fun c => { c with status := .matched, resumedBatch := some j }).core? j =
      some { b with parsedArgs := a.parsedArgs ++ b.parsedArgs } := by
    simp [core?_updateCore, hij, hj]
  rw [mergeHalves, run_coreAt_bind hi, run_coreAt_bind hj, if_neg (not_not.mpr hf)]
  simp only [ha, ne_eq, not_true_eq_false, if_false, Survol.Dockit.updateCore, Py.run_modify_bind]
  rw [run_coreAt_bind hj']
  simp [hb]

/-- `mergePopBatch` on a mergeable pair. -/
theorem run_mergePopBatch {i j : CoreId} {a b : BatchLetCore} (h : u.Mergeable i j a b) :
    ∃ u', (mergePopBatch j).run u = (.ok (some j), u') ∧ u.Merged u' i j a b := by
  have hij := h.ne
  set u₁ := u.setStack b.pid b.funcNam (u.stack b.pid b.funcNam).dropLast with hu₁
  have hi : u₁.core? i = some a := h.left
  have hj : u₁.core? j = some b := h.right
  have hrun := run_mergeHalves hij hi hj h.funcNam h.unfinished h.resumed
  obtain ⟨u', hu', hrun⟩ : ∃ u', u' = _ ∧ (mergeHalves i j).run u₁ = (.ok (), u') :=
    ⟨_, rfl, hrun⟩
  refine ⟨u', ?_, ?_, ?_, ?_⟩
  · have hlast := h.last
    rw [mergePopBatch, run_coreAt_bind h.right, Py.run_get_bind]
    split
    · rename_i hnil
      simp [hnil] at hlast
    · rename_i c l hl
      simp only [hl, List.getLast?_eq_some_getLast (List.cons_ne_nil c l), Option.some.injEq]
        at hlast
      rw [Py.run_modify_bind, Py.run_bind, hlast, ← hl, ← hu₁, hrun]
      rfl
  · intro pid
    simp only [hu', idsOf_updateCore]
    rfl
  · intro id
    simp only [hu', core?_updateCore, hu₁, core?_setStack]
    by_cases hidj : id = j
    · subst hidj
      simp [hij, h.right]
    · by_cases hidi : id = i
      · subst hidi
        simp [hidj, Ne.symm hidj, h.left]
      · simp [hidj, hidi, Ne.symm hidj, Ne.symm hidi]
  · intro pid f
    simp only [hu', stack_updateCore, hu₁, stack_setStack]
    by_cases hpf : pid = b.pid ∧ f = b.funcNam
    · obtain ⟨rfl, rfl⟩ := hpf
      simp
    · rw [if_neg hpf, if_neg (fun h => hpf ⟨h.1.symm, h.2.symm⟩)]

/-- Without an unfinished half, `mergePopBatch` changes nothing. -/
theorem run_mergePopBatch_nil {j : CoreId} {b : BatchLetCore} (hj : u.core? j = some b)
    (hl : u.stack b.pid b.funcNam = []) : (mergePopBatch j).run u = (.ok none, u) := by
  rw [mergePopBatch, run_coreAt_bind hj, Py.run_get_bind]
  split
  · rfl
  · rename_i h
    simp [hl] at h

theorem Merged.core?_left {u' : UnfinishedBatches} {i j : CoreId} {a b : BatchLetCore}
    (hm : u.Merged u' i j a b) (h : u.Mergeable i j a b) :
    u'.core? i = some { a with status := .matched, resumedBatch := some j } := by
  rw [hm.core?, if_neg h.ne, if_pos rfl]

theorem Merged.core?_right {u' : UnfinishedBatches} {i j : CoreId} {a b : BatchLetCore}
    (hm : u.Merged u' i j a b) :
    u'.core? j = some { b with parsedArgs := a.parsedArgs ++ b.parsedArgs, status := .merged,
                               unfinishedBatch := some i } := by
  rw [hm.core?, if_pos rfl]

/-- The merged call is not open any more, and the others are as they were. -/
theorem Merged.openIds {u' : UnfinishedBatches} {i j : CoreId} {a b : BatchLetCore}
    (hm : u.Merged u' i j a b) (h : u.Mergeable i j a b) (pid : ℤ) (f : Text) :
    u'.openIds pid f = (u.openIds pid f).filter (· ≠ i) := by
  unfold UnfinishedBatches.openIds
  rw [hm.ids, List.filter_filter]
  refine List.filter_congr fun id _ => ?_
  simp only [isOpen, hm.core?]
  by_cases hj : id = j
  · subst hj
    simp [h.right, h.resumed]
  · by_cases hi : id = i
    · simp [hi, h.ne]
    · simp [hj, hi]

theorem dropLast_eq_filter {α : Type} [DecidableEq α] {l : List α} (hl : l.Nodup) {a : α}
    (ha : l.getLast? = some a) : l.dropLast = l.filter (· ≠ a) := by
  obtain ⟨l', rfl⟩ := List.getLast?_eq_some_iff.mp ha
  have hmem : a ∉ l' := fun ha => (List.nodup_append.mp hl).2.2 a ha a (by simp) rfl
  have hl' : l'.filter (fun b => decide (b ≠ a)) = l' := by
    refine List.filter_eq_self.mpr fun b hb => ?_
    simpa using ne_of_mem_of_not_mem hb hmem
  rw [List.dropLast_concat, List.filter_append, hl']
  simp

/-- The calls on the stacks are open. -/
theorem PairingInv.mem_openIds_of_mem (h : u.PairingInv) {pid : ℤ} {f : Text} {id : CoreId}
    (hid : id ∈ u.stack pid f) : id ∈ u.openIds pid f :=
  (h.stack_sublist pid f).subset hid

theorem PairingInv.nodup_stack (h : u.PairingInv) (pid : ℤ) (f : Text) :
    (u.stack pid f).Nodup :=
  (h.stack_sublist pid f).nodup (nodup_openIds pid f)

/-- The resumed core and the last one of its stack can be merged. -/
theorem PairingInv.mergeable (h : u.PairingInv) {i j : CoreId} {b : BatchLetCore}
    (hj : u.core? j = some b) (hb : b.status = .resumed)
    (hl : (u.stack b.pid b.funcNam).getLast? = some i) : ∃ a, u.Mergeable i j a b := by
  have hi := h.mem_openIds_of_mem (List.mem_of_getLast? hl)
  obtain ⟨hpid, a, ha, hs, hf⟩ := mem_openIds.mp hi
  exact ⟨a, ha, hj, hs, hb, (h.pid i a ha).trans hpid, hf, hl⟩

theorem Merged.stack_filter {u' : UnfinishedBatches} {i j : CoreId} {a b : BatchLetCore}
    (hm : u.Merged u' i j a b) (h : u.Mergeable i j a b) (hinv : u.PairingInv) (pid : ℤ)
    (f : Text) : u'.stack pid f = (u.stack pid f).filter (· ≠ i) := by
  rw [hm.stack]
  split
  · rename_i hpf
    obtain ⟨rfl, rfl⟩ := hpf
    exact dropLast_eq_filter (hinv.nodup_stack _ _) h.last
  · rename_i hpf
    refine (List.filter_eq_self.mpr fun id hid => ?_).symm
    have hne : id ≠ i := by
      intro hidi
      subst id
      obtain ⟨hp, c, hc, -, hf⟩ := mem_openIds.mp (hinv.mem_openIds_of_mem hid)
      obtain ⟨hp', c', hc', -, hf'⟩ :=
        mem_openIds.mp (hinv.mem_openIds_of_mem (List.mem_of_getLast? h.last))
      cases hc.symm.trans hc'
      exact hpf ⟨hp.symm.trans hp', hf.symm.trans hf'⟩
    simpa using hne

/-- Two halves of a call are merged. -/
theorem PairingInv.merged (hinv : u.PairingInv) {u' : UnfinishedBatches} {i j : CoreId}
    {a b : BatchLetCore} (h : u.Mergeable i j a b) (hm : u.Merged u' i j a b) :
    u'.PairingInv := by
  have ha := hinv.links i a h.left
  have hb := hinv.links j b h.right
  simp only [LinksOk, h.unfinished, h.resumed] at ha hb
  have hold : ∀ k c, u.core? k = some c → c.status = .matched ∨ c.status = .merged →
      u'.core? k = some c := by
    intro k c hk hc
    rw [hm.core?, if_neg, if_neg]
    · exact hk
    · rintro rfl
      cases hk.symm.trans h.left
      simp [h.unfinished] at hc
    · rintro rfl
      cases hk.symm.trans h.right
      simp [h.resumed] at hc
  refine ⟨fun id c hid => ?_, fun id c hid => ?_, fun pid f => ?_, fun pid f hf => ?_⟩
  · rw [hm.core?] at hid
    split at hid
    · cases hid
      subst id
      exact hinv.pid j b h.right
    · split at hid
      · cases hid
        subst id
        exact hinv.pid i a h.left
      · exact hinv.pid id c hid
  · rw [hm.core?] at hid
    split at hid
    · cases hid
      subst id
      exact ⟨hb.2, i, _, rfl, hm.core?_left h, rfl, rfl, h.pid, h.funcNam⟩
    · split at hid
      · cases hid
        subst id
        exact ⟨ha.1, j, _, rfl, hm.core?_right, rfl, rfl, h.pid.symm, h.funcNam.symm⟩
      · exact (hinv.links id c hid).mono hold
  · rw [hm.stack_filter h hinv, hm.openIds h]
    exact (hinv.stack_sublist pid f).filter _
  · rw [hm.stack_filter h hinv, hm.openIds h, hinv.stack_paired pid f hf]

end UnfinishedBatches

/-! ## One core -/

/-- The model of a function is a class. -/
def HasModel (funcNam : Text) : Prop := ∃ m, batchModels funcNam = .model m

/-- What processing a core does to the store. -/
inductive StoreStep (u : UnfinishedBatches) (core : BatchLetCore) : UnfinishedBatches → Prop
  | kept (hu : ¬ (core.status = .unfinished ∧ IsPaired core.funcNam))
      (hr : ¬ (core.status = .resumed ∧ HasModel core.funcNam)) : StoreStep u core (u.addCore core)
  | pushed (hs : core.status = .unfinished) (hp : IsPaired core.funcNam) :
      StoreStep u core (u.pushed core)
  | resumed {u' : UnfinishedBatches} {r : Option CoreId} (hs : core.status = .resumed)
      (hrun : (mergePopBatch (u.nextId core.pid)).run (u.addCore core) = (.ok r, u')) :
      StoreStep u core u'

theorem isAttributeError_of_absLoop {fullPath : Text} {e : PyExn}
    (h : (match absLoop ((splitOn '/' fullPath).length - 1) (splitOn '/' fullPath) 1 with
      | none => .error .indexError
      | some parts => .ok (['/'].intercalate parts) : Except PyExn Text) = .error e) :
    isAttributeError e = false := by
  split at h
  · cases h
    rfl
  · cases h

/-- A path that cannot be cleaned up is not taken for a missing attribute. -/
theorem isAttributeError_of_toAbsPath {dirPath : DirPath} {filNam : Text} {e : PyExn}
    (h : toAbsPath dirPath filNam = .error e) : isAttributeError e = false := by
  rw [toAbsPath] at h
  split at h
  · cases h
  · dsimp only at h
    split at h
    · cases h
      rfl
    · exact isAttributeError_of_absLoop h
    · cases h
      rfl
    · split at h <;> exact isAttributeError_of_absLoop h

/-- The model that accepts an unfinished call has all that it reads. -/
theorem neverRaises_batchLetLibLibcStartMain (env : Env) (core : BatchLetCore) :
    Py.NeverRaises isAttributeError (batchLetLibLibcStartMain env core) := by
  have hitem : ∀ a, Py.NeverRaises isAttributeError (argItem a 0) := by
    intro a
    cases a <;> exact .ofOption rfl _
  have hpath : ∀ a, Py.NeverRaises isAttributeError (argPath a) := by
    intro a
    cases a with
    | str s => exact .pure s
    | list l => exact .raise rfl
  have hfile : ∀ name dirPath, Py.NeverRaises isAttributeError (do
      let pathName ← ofExcept (toAbsPath (.path dirPath) name)
      createObjectPathCIMDataFile pathName
      return pathName) := by
    intro name dirPath
    refine .bind ?_ fun _ => .bind (.modify _) fun _ => .pure _
    cases h : toAbsPath (.path dirPath) name with
    | error e => exact .raise (isAttributeError_of_toAbsPath h)
    | ok pathName => exact .pure pathName
  have haccess : ∀ name, Py.NeverRaises isAttributeError
      (toObjectPathCIMDataFile env name core.pid) := by
    intro name
    rw [toObjectPathCIMDataFile]
    split
    · exact hfile name []
    · exact .bind (.modify _) fun _ => .bind nofun (hfile name)
  have hcommand : ∀ l, Py.NeverRaises isAttributeError (setCommandLine core.pid (some l)) := by
    intro l
    simp only [setCommandLine]
    split
    · exact .pure _
    · exact .modify _
  exact .bind (.ofOption rfl _) fun a => .bind (hitem a) fun b =>
    .bind (.bind (hpath b) haccess) fun _ => .bind (.modify _) fun _ =>
      .bind (hcommand a) fun _ => .bind (.modify _) fun _ => .pure _

theorem run_onStore {α : Type} (m : StoreM α) (w : World) :
    (onStore m).run w = ((m.run w.store).1, { w with store := (m.run w.store).2 }) := rfl

theorem run_onObjects {α : Type} (m : ObjM α) (w : World) :
    (onObjects m).run w = ((m.run w.objects).1, { w with objects := (m.run w.objects).2 }) := rfl

/-- The core that the factory reads is there. -/
theorem run_onStore_coreAt_bind {α : Type} {w : World} {id : CoreId} {c : BatchLetCore}
    (h : w.store.core? id = some c) (f : BatchLetCore → WorldM α) :
    (onStore (coreAt id) >>= f).run w = (f c).run w := by
  simp [Py.run_bind, run_onStore, coreAt, h]

/-- A model does not reach the store. -/
theorem store_buildModel (env : Env) (aModel : CallModel) (id : CoreId) (w : World) :
    ((buildModel env aModel id).run w).2.store = w.store := by
  cases h : w.store.core? id with
  | none => simp [buildModel, Py.run_bind, run_onStore, coreAt, h]
  | some c =>
    rw [buildModel, run_onStore_coreAt_bind h, Py.run_bind, run_onObjects]
    generalize (aModel.build env c).run w.objects = x
    rcases x with ⟨_ | _, _⟩ <;> rfl

/-- A model that accepts an unfinished call is not given up. -/
theorem isAttributeError_of_buildModel {env : Env} {aModel : CallModel} {id : CoreId}
    {core : BatchLetCore} {w : World} {e : PyExn} (hm : batchModels core.funcNam = .model aModel)
    (hok : aModel.unfinishedIsOk = true) (hcore : w.store.core? id = some core)
    (h : ((buildModel env aModel id).run w).1 = .error e) : isAttributeError e = false := by
  have hnever := neverRaises_batchLetLibLibcStartMain env core w.objects
  rw [buildModel, run_onStore_coreAt_bind hcore, Py.run_bind, run_onObjects,
    eq_of_unfinishedIsOk hm hok] at h
  generalize (batchLetLibLibcStartMain env core).run w.objects = x at h hnever
  rcases x with ⟨e' | o, v⟩
  · cases h
    exact hnever e rfl
  · cases h

theorem run_pushBatch {u : UnfinishedBatches} {core : BatchLetCore} :
    (pushBatch (u.nextId core.pid)).run (u.addCore core) = (.ok (), u.pushed core) := by
  rw [pushBatch, run_coreAt_bind (u.core?_addCore_nextId core)]
  rfl

/-- An admitted core is the last one of its process. -/
theorem run_admitCore {env : Env} {core : BatchLetCore} {w w' : World} {id : CoreId}
    (h : (admitCore env core).run w = (.ok id, w')) :
    id = w.store.nextId core.pid ∧ w'.store = w.store.addCore core := by
  rw [admitCore, Py.run_bind_eq_ok] at h
  obtain ⟨_, w₂, hobj, hadmit⟩ := h
  have hstore : w₂.store = w.store := by
    rw [run_onObjects] at hobj
    exact congrArg (fun x => x.2.store) hobj.symm
  simp only [Py.run_get_bind, Py.run_modify_bind, Py.run_pure, hstore, Prod.mk.injEq,
    Except.ok.injEq] at hadmit
  obtain ⟨rfl, rfl⟩ := hadmit
  exact ⟨rfl, rfl⟩

theorem run_processCore {env : Env} {core : BatchLetCore} {w w' : World} {r : Option Batch}
    (h : (processCore env core).run w = (.ok r, w')) :
    ∃ w₁, w₁.store = w.store.addCore core ∧
      (batchLetFactory env (w.store.nextId core.pid)).run w₁ = (.ok r, w') := by
  rw [processCore, Py.run_bind_eq_ok] at h
  obtain ⟨id, w₁, hadmit, hrun⟩ := h
  obtain ⟨rfl, hstore⟩ := run_admitCore hadmit
  exact ⟨w₁, hstore, hrun⟩

/-- The unfinished half is kept on its stack, unless its model is content with it. -/
theorem store_unfinishedBatchLet {env : Env} {aModel : CallModel} {u : UnfinishedBatches}
    {core : BatchLetCore} {w w' : World} {r : Option Batch} (hw : w.store = u.addCore core)
    (hm : batchModels core.funcNam = .model aModel)
    (h : (unfinishedBatchLet env aModel (u.nextId core.pid)).run w = (.ok r, w')) :
    aModel.unfinishedIsOk = false ∧ w'.store = u.pushed core ∨
      aModel.unfinishedIsOk = true ∧ w'.store = u.addCore core := by
  have hcore : w.store.core? (u.nextId core.pid) = some core := by simp [hw]
  have hpush : ∀ {v v' : World}, v.store = u.addCore core →
      (do onStore (pushBatch (u.nextId core.pid))
          return some (batchLetBase (u.nextId core.pid) core) : WorldM (Option Batch)).run v =
        (.ok r, v') → v'.store = u.pushed core := by
    intro v v' hv hrun
    simp only [Py.run_bind, run_onStore, hv, run_pushBatch, Py.run_pure, Prod.mk.injEq] at hrun
    exact hrun.2 ▸ rfl
  rw [unfinishedBatchLet, run_onStore_coreAt_bind hcore] at h
  cases hok : aModel.unfinishedIsOk with
  | false =>
    simp only [hok, Bool.false_eq_true, if_false] at h
    exact .inl ⟨rfl, hpush hw h⟩
  | true =>
    simp only [hok, if_true, Py.catching] at h
    have hkeep := store_buildModel env aModel (u.nextId core.pid) w
    generalize hx : (buildModel env aModel (u.nextId core.pid)).run w = x at h hkeep
    rcases x with ⟨e | b, v⟩
    · have hother := isAttributeError_of_buildModel hm hok hcore (congrArg Prod.fst hx)
      simp [hother] at h
    · simp only [Prod.mk.injEq] at h
      exact .inr ⟨rfl, h.2 ▸ hkeep.trans hw⟩

/-- The model run on a lone resumed half does not reach the store. -/
theorem store_loneResumed (env : Env) (aModel : CallModel) (id : CoreId) (w : World) :
    ((if aModel.resumedWithoutUnfinishedIsOk then
        .catching isAttributeError ((fun _ => ()) <$> buildModel env aModel id) (pure ())
      else pure () : WorldM Unit).run w).2.store = w.store := by
  split
  · have hkeep := store_buildModel env aModel id w
    simp only [Py.catching, Py.run_map]
    generalize (buildModel env aModel id).run w = x at hkeep
    rcases x with ⟨e | b, v⟩
    · cases h : isAttributeError e <;> simpa [Except.map, h] using hkeep
    · exact hkeep
  · rfl

/-- The resumed half is merged with the last one of its stack, and nothing else
happens to the store. -/
theorem store_resumedBatchLet {env : Env} {aModel : CallModel} {id : CoreId} {w w' : World}
    {r : Option Batch} (h : (resumedBatchLet env aModel id).run w = (.ok r, w')) :
    ∃ o, (mergePopBatch id).run w.store = (.ok o, w'.store) := by
  rw [resumedBatchLet, Py.run_bind_eq_ok] at h
  obtain ⟨o, w₁, hmerge, h⟩ := h
  rw [run_onStore, Prod.mk.injEq] at hmerge
  obtain ⟨hres, rfl⟩ := hmerge
  refine ⟨o, Prod.ext hres ?_⟩
  cases o with
  | some id' =>
    have hkeep :=
      store_buildModel env aModel id' { w with store := ((mergePopBatch id).run w.store).2 }
    exact (congrArg (fun x => x.2.store) h.symm).trans hkeep |>.symm
  | none =>
    simp only [Py.run_bind_eq_ok] at h
    obtain ⟨core, w₂, hcore, _, w₃, hlone, hret⟩ := h
    have hkeep := store_loneResumed env aModel id w₂
    rw [hlone] at hkeep
    rw [run_onStore, Prod.mk.injEq] at hcore
    obtain ⟨-, rfl⟩ := hcore
    cases hret
    simpa using hkeep.symm

/-- What a core that is processed without an exception does to the store. -/
theorem storeStep_of_processCore {env : Env} {core : BatchLetCore} {w w' : World}
    {r : Option Batch} (h : (processCore env core).run w = (.ok r, w')) :
    StoreStep w.store core w'.store := by
  obtain ⟨w₁, hw₁, hrun⟩ := run_processCore h
  have hcore : w₁.store.core? (w.store.nextId core.pid) = some core := by simp [hw₁]
  rw [batchLetFactory, run_onStore_coreAt_bind hcore] at hrun
  cases hentry : batchModels core.funcNam with
  | unknown =>
    have hno : ¬ HasModel core.funcNam := by simp [HasModel, hentry]
    simp only [hentry, Py.run_modify_bind, Py.run_pure, Prod.mk.injEq] at hrun
    obtain ⟨-, rfl⟩ := hrun
    exact hw₁ ▸ .kept (fun h => hno (h.2.imp fun _ => And.left)) (fun h => hno h.2)
  | ignored =>
    have hno : ¬ HasModel core.funcNam := by simp [HasModel, hentry]
    simp only [hentry, Py.run_pure, Prod.mk.injEq] at hrun
    obtain ⟨-, rfl⟩ := hrun
    exact hw₁ ▸ .kept (fun h => hno (h.2.imp fun _ => And.left)) (fun h => hno h.2)
  | model aModel =>
    simp only [hentry] at hrun
    split at hrun
    · rename_i hs
      rcases store_unfinishedBatchLet hw₁ hentry hrun with ⟨hok, h⟩ | ⟨hok, h⟩
      · exact h ▸ .pushed hs ⟨aModel, hentry, hok⟩
      · refine h ▸ .kept (fun h => ?_) (by simp [hs])
        obtain ⟨-, m, hm, hm'⟩ := h
        cases hentry.symm.trans hm
        exact absurd hm' (by simp [hok])
    · rename_i hs
      obtain ⟨o, ho⟩ := store_resumedBatchLet hrun
      exact .resumed hs (hw₁ ▸ ho)
    · rename_i hu hr
      have hkeep := store_buildModel env aModel (w.store.nextId core.pid) w₁
      rw [hrun] at hkeep
      exact (hkeep.trans hw₁).symm ▸ .kept (fun h => hu h.1) (fun h => hr h.1)

/-! ## Reachable worlds -/

theorem status_lineEnd (theCall : Text) :
    (lineEnd theCall).status = .plain ∨ (lineEnd theCall).status = .unfinished := by
  unfold lineEnd
  dsimp only
  split_ifs <;> simp

theorem fresh_of_coreOfCall {tracer : Tracer} {pid : ℤ} {aTimeStamp theCall funcNam : Text}
    {status : BatchStatus} {ixArgs : ℕ} {core : BatchLetCore}
    (hs : status = .plain ∨ status = .unfinished ∨ status = .resumed)
    (h : coreOfCall tracer pid aTimeStamp theCall status funcNam ixArgs = .ok core) :
    FreshCore core := by
  simp only [coreOfCall, bind, Except.bind] at h
  split_ifs at h
  · cases h
    exact ⟨hs, rfl, rfl⟩
  · split at h
    · cases h
    · cases h
      exact ⟨hs, rfl, rfl⟩

theorem eq_ok_of_map_some {ε α : Type} {x : Except ε α} {a : α}
    (h : some <$> x = .ok (some a)) : x = .ok a := by
  rcases x with e | b
  · cases h
  · cases h
    rfl

/-- A parsed line is a fresh core. -/
theorem fresh_of_parseLine {topProcessId : ℤ} {tracer : Tracer} {oneLine : Text}
    {core : BatchLetCore} (h : parseLine topProcessId tracer oneLine = .ok (some core)) :
    FreshCore core := by
  have hinit : ∀ pid idxStart, initAfterPid tracer pid oneLine idxStart = .ok (some core) →
      FreshCore core := by
    intro pid idxStart h
    simp only [initAfterPid] at h
    split at h
    · cases h
    · split at h
      · exact fresh_of_coreOfCall (.inr (.inr rfl)) (eq_ok_of_map_some h)
      · split at h
        · exact fresh_of_coreOfCall ((status_lineEnd _).imp_right .inl) (eq_ok_of_map_some h)
        · split at h
          · cases h
            exact ⟨(status_lineEnd _).imp_right .inl, rfl, rfl⟩
          · cases h
  unfold parseLine at h
  split at h
  · dsimp only at h
    split at h
    · cases h
    · exact hinit _ _ h
  · exact hinit _ _ h

namespace UnfinishedBatches

variable {u : UnfinishedBatches}

/-- The two outcomes of `mergePopBatch` on a resumed core. -/
theorem PairingInv.run_mergePopBatch (h : u.PairingInv) {j : CoreId} {b : BatchLetCore}
    (hj : u.core? j = some b) (hb : b.status = .resumed) :
    (u.stack b.pid b.funcNam = [] ∧ (mergePopBatch j).run u = (.ok none, u)) ∨
      ∃ i a u', (u.stack b.pid b.funcNam).getLast? = some i ∧ u.Mergeable i j a b ∧
        u.Merged u' i j a b ∧ (mergePopBatch j).run u = (.ok (some j), u') := by
  cases hl : (u.stack b.pid b.funcNam).getLast? with
  | none =>
    have hnil := List.getLast?_eq_none_iff.mp hl
    exact .inl ⟨hnil, run_mergePopBatch_nil hj hnil⟩
  | some i =>
    obtain ⟨a, hm⟩ := h.mergeable hj hb hl
    obtain ⟨u', hrun, hu'⟩ := UnfinishedBatches.run_mergePopBatch hm
    exact .inr ⟨i, a, u', rfl, hm, hu', hrun⟩

theorem pairingInv_init : PairingInv ⟨[], []⟩ where
  pid _ _ h := by simp [core?, coresOf] at h
  links _ _ h := by simp [core?, coresOf] at h
  stack_sublist _ _ := List.nil_sublist _
  stack_paired _ _ _ := rfl

/-- A core that is processed keeps the invariant. -/
theorem PairingInv.storeStep (h : u.PairingInv) {core : BatchLetCore} (hc : FreshCore core)
    {u' : UnfinishedBatches} (hs : StoreStep u core u') : u'.PairingInv := by
  cases hs with
  | kept hu _ => exact h.addCore hc hu
  | pushed hs _ => exact h.pushed hc hs
  | resumed hs hrun =>
    have hadd : (u.addCore core).PairingInv := h.addCore hc (by simp [hs])
    rcases hadd.run_mergePopBatch (u.core?_addCore_nextId core) hs with
      ⟨-, hnone⟩ | ⟨i, a, u'', -, hm, hu'', hsome⟩
    · cases hnone.symm.trans hrun
      exact hadd
    · cases hsome.symm.trans hrun
      exact hadd.merged hm hu''

end UnfinishedBatches

/-- A core of another process leaves the cores and the stacks of a process. -/
theorem StoreStep.other {u u' : UnfinishedBatches} (h : u.PairingInv) {core : BatchLetCore}
    (hc : FreshCore core) (hs : StoreStep u core u') {pid : ℤ} (hpid : core.pid ≠ pid) :
    (∀ id : CoreId, id.pid = pid → u'.core? id = u.core? id) ∧
      ∀ f, u'.stack pid f = u.stack pid f := by
  have hadd : ∀ id : CoreId, id.pid = pid → (u.addCore core).core? id = u.core? id := by
    intro id hid
    rw [UnfinishedBatches.core?_addCore, if_neg]
    rintro rfl
    exact hpid hid
  cases hs with
  | kept _ _ => exact ⟨hadd, fun f => rfl⟩
  | pushed _ _ =>
    refine ⟨hadd, fun f => ?_⟩
    rw [UnfinishedBatches.pushed, UnfinishedBatches.stack_setStack, if_neg fun h => hpid h.1]
    rfl
  | resumed hs hrun =>
    have hinv : (u.addCore core).PairingInv := h.addCore hc (by simp [hs])
    rcases hinv.run_mergePopBatch (u.core?_addCore_nextId core) hs with
      ⟨-, hnone⟩ | ⟨i, a, u'', hl, hm, hu'', hsome⟩
    · obtain ⟨-, rfl⟩ := Prod.mk.inj (hnone.symm.trans hrun)
      exact ⟨hadd, fun f => rfl⟩
    · obtain ⟨-, rfl⟩ := Prod.mk.inj (hsome.symm.trans hrun)
      have hi := (UnfinishedBatches.mem_openIds.mp
        (hinv.mem_openIds_of_mem (List.mem_of_getLast? hl))).1
      refine ⟨fun id hid => ?_, fun f => ?_⟩
      · rw [hu''.core?, if_neg, if_neg, hadd id hid]
        · rintro rfl
          exact hpid (hi.symm.trans hid)
        · rintro rfl
          exact hpid hid
      · rw [hu''.stack, if_neg fun h => hpid h.1.symm]
        rfl

theorem Reachable.pairingInv {env : Env} {w : World} (h : Reachable env w) :
    w.store.PairingInv := by
  induction h with
  | init => exact UnfinishedBatches.pairingInv_init
  | step _ hfresh hrun ih => exact ih.storeStep hfresh (storeStep_of_processCore hrun)

/-- What every reachable store satisfies for the functions that are not paired. -/
structure UnfinishedBatches.UnpairedInv (u : UnfinishedBatches) : Prop where
  stack : ∀ pid f, ¬ IsPaired f → u.stack pid f = []
  fresh : ∀ id c, u.core? id = some c → ¬ IsPaired c.funcNam → FreshCore c

/-- A core of a function that is not paired is kept as it is. -/
theorem UnfinishedBatches.UnpairedInv.store_eq {u u' : UnfinishedBatches} (h : u.UnpairedInv)
    {core : BatchLetCore} (hp : ¬ IsPaired core.funcNam) (hs : StoreStep u core u') : u' = u.addCore core := by
  cases hs with
  | kept _ _ => rfl
  | pushed _ hpaired => exact absurd hpaired hp
  | resumed _ hrun =>
    rw [UnfinishedBatches.run_mergePopBatch_nil (u.core?_addCore_nextId core)
      (h.stack core.pid core.funcNam hp)] at hrun
    exact (Prod.mk.inj hrun).2.symm

theorem UnfinishedBatches.UnpairedInv.addCore {u : UnfinishedBatches} (h : u.UnpairedInv)
    {core : BatchLetCore} (hc : FreshCore core) : (u.addCore core).UnpairedInv := by
  refine ⟨h.stack, fun id c => ?_⟩
  rw [UnfinishedBatches.core?_addCore]
  split
  · rintro ⟨⟩ -
    exact hc
  · exact h.fresh id c

/-- A core that is processed keeps this. -/
theorem UnfinishedBatches.UnpairedInv.storeStep {u u' : UnfinishedBatches} (h : u.UnpairedInv)
    (hinv : u.PairingInv) {core : BatchLetCore} (hc : FreshCore core) (hs : StoreStep u core u') : u'.UnpairedInv := by
  by_cases hp : IsPaired core.funcNam
  · have hadd := h.addCore hc
    cases hs with
    | kept _ _ => exact hadd
    | pushed _ _ =>
      refine ⟨fun pid f hf => ?_, hadd.fresh⟩
      rw [UnfinishedBatches.pushed, UnfinishedBatches.stack_setStack, if_neg]
      · exact hadd.stack pid f hf
      · rintro ⟨-, rfl⟩
        exact hf hp
    | resumed hs hrun =>
      have hinv' : (u.addCore core).PairingInv := hinv.addCore hc (by simp [hs])
      rcases hinv'.run_mergePopBatch (u.core?_addCore_nextId core) hs with
        ⟨-, hnone⟩ | ⟨i, a, u'', -, hm, hu'', hsome⟩
      · cases hnone.symm.trans hrun
        exact hadd
      · cases hsome.symm.trans hrun
        refine ⟨fun pid f hf => ?_, fun id c hid hf => ?_⟩
        · rw [hu''.stack, if_neg]
          · exact hadd.stack pid f hf
          · rintro ⟨-, rfl⟩
            exact hf hp
        · rw [hu''.core?] at hid
          split at hid
          · cases hid
            exact absurd hp hf
          · split at hid
            · cases hid
              exact absurd (hm.funcNam ▸ hp) hf
            · exact hadd.fresh id c hid hf
  · rw [h.store_eq hp hs]
    exact h.addCore hc

theorem Reachable.unpairedInv {env : Env} {w : World} (h : Reachable env w) :
    w.store.UnpairedInv := by
  induction h with
  | init =>
    have hnone : ∀ id, World.init.store.core? id = none := fun _ => rfl
    refine ⟨fun _ _ _ => rfl, fun id c hc => ?_⟩
    rw [hnone] at hc
    cases hc
  | step hreach hfresh hrun ih =>
    exact ih.storeStep hreach.pairingInv hfresh (storeStep_of_processCore hrun)

/-- The last unfinished call of a process and a function that was not resumed. -/
structure IsLastOpen (u : UnfinishedBatches) (pid : ℤ) (funcNam : Text) (i : CoreId) : Prop where
  mem : i ∈ u.openIds pid funcNam
  last : ∀ k ∈ u.openIds pid funcNam, k.rank ≤ i.rank

/-- What holds of the unfinished calls of a reachable world, and of the resumed
calls that come next. -/
structure Paired (env : Env) (w : World) : Prop where
  stacked : ∀ pid f, ∀ id ∈ w.store.stack pid f, ∃ c, w.store.core? id = some c ∧ c.pid = pid ∧
    c.funcNam = f ∧ c.status = .unfinished ∧ c.resumedBatch = none
  stacked_once : ∀ pid f, (w.store.stack pid f).Nodup
  matched : ∀ i c, w.store.core? i = some c → c.status = .matched → ∃ j m,
    c.resumedBatch = some j ∧ w.store.core? j = some m ∧ m.status = .merged ∧
      m.unfinishedBatch = some i
  merged : ∀ j m, w.store.core? j = some m → m.status = .merged → ∃ i c,
    m.unfinishedBatch = some i ∧ w.store.core? i = some c ∧ c.status = .matched ∧
      c.resumedBatch = some j
  matched_once : ∀ i j j' m m', w.store.core? j = some m → w.store.core? j' = some m' →
    m.unfinishedBatch = some i → m'.unfinishedBatch = some i → j = j'
  /-- The checks of `MergePopBatch` hold for any resumed core. -/
  no_exception : ∀ core, FreshCore core → core.status = .resumed → ∃ o,
    ((mergePopBatch (w.store.nextId core.pid)).run (w.store.addCore core)).1 = .ok o
  /-- A resumed core is paired with the last open unfinished one. -/
  resumed : ∀ core, FreshCore core → core.status = .resumed → IsPaired core.funcNam →
    ∀ r w', (processCore env core).run w = (.ok r, w') →
    ∀ i, IsLastOpen w.store core.pid core.funcNam i →
      ∃ c m, w'.store.core? i = some c ∧ c.status = .matched ∧
        c.resumedBatch = some (w.store.nextId core.pid) ∧
        w'.store.core? (w.store.nextId core.pid) = some m ∧ m.status = .merged ∧
        m.unfinishedBatch = some i
  /-- Without an open one, it stays resumed. -/
  unmatched : ∀ core, FreshCore core → core.status = .resumed → IsPaired core.funcNam →
    ∀ r w', (processCore env core).run w = (.ok r, w') →
    w.store.openIds core.pid core.funcNam = [] →
      w'.store.core? (w.store.nextId core.pid) = some core
  /-- The other functions are not put on the stacks. -/
  unpaired_stack : ∀ pid f, ¬ IsPaired f → w.store.stack pid f = []
  /-- Their halves are as they were parsed. -/
  unpaired_fresh : ∀ id c, w.store.core? id = some c → ¬ IsPaired c.funcNam →
    (c.status = .plain ∨ c.status = .unfinished ∨ c.status = .resumed) ∧
      c.unfinishedBatch = none ∧ c.resumedBatch = none
  /-- A half of one of them is only added. -/
  unpaired : ∀ core, FreshCore core → ¬ IsPaired core.funcNam →
    ∀ r w', (processCore env core).run w = (.ok r, w') → w'.store = w.store.addCore core

namespace UnfinishedBatches

variable {u : UnfinishedBatches}

/-- The last open call is the last one of the list. -/
theorem getLast?_openIds {pid : ℤ} {f : Text} {i : CoreId} (h : IsLastOpen u pid f i) :
    (u.openIds pid f).getLast? = some i := by
  obtain ⟨l₁, l₂, hl⟩ := List.append_of_mem h.mem
  have hpair := pairwise_openIds (u := u) pid f
  rw [hl, List.pairwise_append, List.pairwise_cons] at hpair
  cases l₂ with
  | nil => simp [hl]
  | cons k l₂ =>
    have hlt : i.rank < k.rank := hpair.2.1.1 k List.mem_cons_self
    have hle : k.rank ≤ i.rank := h.last k (by simp [hl])
    omega

theorem PairingInv.matched (h : u.PairingInv) {i : CoreId} {c : BatchLetCore}
    (hi : u.core? i = some c) (hc : c.status = .matched) : ∃ j m, c.resumedBatch = some j ∧
      u.core? j = some m ∧ m.status = .merged ∧ m.unfinishedBatch = some i := by
  have hl := h.links i c hi
  simp only [LinksOk, hc] at hl
  obtain ⟨-, j, m, h₁, h₂, h₃, h₄, -⟩ := hl
  exact ⟨j, m, h₁, h₂, h₃, h₄⟩

theorem PairingInv.merged_links (h : u.PairingInv) {j : CoreId} {m : BatchLetCore}
    (hj : u.core? j = some m) (hm : m.status = .merged) : ∃ i c, m.unfinishedBatch = some i ∧
      u.core? i = some c ∧ c.status = .matched ∧ c.resumedBatch = some j := by
  have hl := h.links j m hj
  simp only [LinksOk, hm] at hl
  obtain ⟨-, i, c, h₁, h₂, h₃, h₄, -⟩ := hl
  exact ⟨i, c, h₁, h₂, h₃, h₄⟩

theorem PairingInv.merged_of_unfinishedBatch (h : u.PairingInv) {i j : CoreId} {m : BatchLetCore}
    (hj : u.core? j = some m) (hm : m.unfinishedBatch = some i) : m.status = .merged := by
  have hl := h.links j m hj
  unfold LinksOk at hl
  split at hl <;> simp_all

end UnfinishedBatches

/-- **The pairing of split calls**, in every reachable world. -/
theorem paired_of_reachable {env : Env} {w : World} (h : Reachable env w) : Paired env w := by
  have hinv := h.pairingInv
  have hunpaired := h.unpairedInv
  have hadd : ∀ core, FreshCore core → core.status = .resumed →
      (w.store.addCore core).PairingInv := fun core hc hs => hinv.addCore hc (by simp [hs])
  have hlast : ∀ core : BatchLetCore, IsPaired core.funcNam →
      (w.store.addCore core).stack core.pid core.funcNam =
        w.store.openIds core.pid core.funcNam := fun core => hinv.stack_paired _ _
  have hrun : ∀ core, core.status = .resumed → IsPaired core.funcNam → ∀ r w',
      (processCore env core).run w = (.ok r, w') → ∃ o,
        (mergePopBatch (w.store.nextId core.pid)).run (w.store.addCore core) =
          (.ok o, w'.store) := by
    intro core hs hp r w' hrun
    have hstep := storeStep_of_processCore hrun
    generalize w'.store = u' at hstep ⊢
    cases hstep with
    | kept _ hr => exact absurd ⟨hs, hp.imp fun _ => And.left⟩ hr
    | pushed hu _ => cases hs.symm.trans hu
    | resumed _ hrun => exact ⟨_, hrun⟩
  refine { stacked := ?_, stacked_once := hinv.nodup_stack, matched := fun i c => hinv.matched
           merged := fun j m => hinv.merged_links, matched_once := ?_, no_exception := ?_
           resumed := ?_, unmatched := ?_, unpaired_stack := hunpaired.stack
           unpaired_fresh := ?_
           unpaired := fun core _ hp _ _ hrun =>
             hunpaired.store_eq hp (storeStep_of_processCore hrun) }
  · intro pid f id hid
    obtain ⟨hpid, c, hc, hs, hf⟩ := UnfinishedBatches.mem_openIds.mp (hinv.mem_openIds_of_mem hid)
    have hl := hinv.links id c hc
    simp only [UnfinishedBatches.LinksOk, hs] at hl
    exact ⟨c, hc, (hinv.pid id c hc).trans hpid, hf, hs, hl.2⟩
  · intro i j j' m m' hj hj' hm hm'
    obtain ⟨k, c, hk, hc, -, hr⟩ := hinv.merged_links hj (hinv.merged_of_unfinishedBatch hj hm)
    obtain ⟨k', c', hk', hc', -, hr'⟩ :=
      hinv.merged_links hj' (hinv.merged_of_unfinishedBatch hj' hm')
    cases hm.symm.trans hk
    cases hm'.symm.trans hk'
    cases hc.symm.trans hc'
    exact Option.some.inj (hr.symm.trans hr')
  · intro core hc hs
    rcases (hadd core hc hs).run_mergePopBatch (w.store.core?_addCore_nextId core) hs with
      ⟨-, h⟩ | ⟨_, _, _, -, -, -, h⟩ <;> exact ⟨_, by rw [h]⟩
  · intro core hc hs hp r w' hproc i hi
    obtain ⟨o, ho⟩ := hrun core hs hp r w' hproc
    rcases (hadd core hc hs).run_mergePopBatch (w.store.core?_addCore_nextId core) hs with
      ⟨hnil, -⟩ | ⟨i', a, u', hl, hm, hu', h⟩
    · have hmem := hi.mem
      rw [← hlast core hp, hnil] at hmem
      cases hmem
    · rw [hlast core hp, UnfinishedBatches.getLast?_openIds hi] at hl
      cases hl
      obtain ⟨-, rfl⟩ := Prod.mk.inj (ho.symm.trans h)
      exact ⟨_, _, hu'.core?_left hm, rfl, rfl, hu'.core?_right, rfl, rfl⟩
  · intro core hc hs hp r w' hproc hnone
    obtain ⟨o, ho⟩ := hrun core hs hp r w' hproc
    rw [UnfinishedBatches.run_mergePopBatch_nil (w.store.core?_addCore_nextId core)
      ((hlast core hp).trans hnone)] at ho
    rw [← (Prod.mk.inj ho).2]
    exact w.store.core?_addCore_nextId core
  · intro id c hid hp
    have hfresh := hunpaired.fresh id c hid hp
    exact ⟨hfresh.status, hfresh.unfinishedBatch, hfresh.resumedBatch⟩

/-- A half of a call of the process 7, as it is parsed. -/
def halfCall (funcNam : Text) (status : BatchStatus) : BatchLetCore where
  tracer := .strace
  pid := 7
  funcNam := funcNam
  status := status
  timeStart := []
  timeEnd := []
  execTim := []
  parsedArgs := []
  retValue := if status = .resumed then some "0".toList else none
  unfinishedBatch := none
  resumedBatch := none

/-- The world after the first half of a call of `funcNam`. -/
def afterFirstHalf (funcNam : Text) : World :=
  ((processCore (.replayed 7 "/".toList) (halfCall funcNam .unfinished)).run World.init).2

theorem Reachable.next {env : Env} {w : World} (h : Reachable env w) {core : BatchLetCore}
    (hfresh : FreshCore core) {r : Option Batch}
    (hrun : ((processCore env core).run w).1 = .ok r) :
    Reachable env ((processCore env core).run w).2 :=
  .step h hfresh (Prod.ext hrun rfl)

theorem reachable_afterFirstHalf {funcNam : Text} {r : Option Batch}
    (h : ((processCore (.replayed 7 "/".toList) (halfCall funcNam .unfinished)).run
      World.init).1 = .ok r) : Reachable (.replayed 7 "/".toList) (afterFirstHalf funcNam) :=
  Reachable.init.next ⟨.inr (.inl rfl), rfl, rfl⟩ h

/-- The world after both halves of a call of `funcNam`, around a half of another one. -/
def afterBothHalves (funcNam other : Text) : World :=
  let env := Env.replayed 7 "/".toList
  let w := ((processCore env (halfCall other .resumed)).run (afterFirstHalf funcNam)).2
  ((processCore env (halfCall funcNam .resumed)).run w).2

theorem reachable_afterBothHalves :
    Reachable (.replayed 7 "/".toList)
      (afterBothHalves "munmap@SYS".toList "uname@SYS".toList) := by
  have hfresh (funcNam : Text) : FreshCore (halfCall funcNam .resumed) :=
    ⟨.inr (.inr rfl), rfl, rfl⟩
  have hfirst : Reachable (.replayed 7 "/".toList) (afterFirstHalf "munmap@SYS".toList) :=
    reachable_afterFirstHalf rfl
  exact (hfirst.next (hfresh "uname@SYS".toList) rfl).next (hfresh "munmap@SYS".toList) rfl

theorem paired_of_reachable_munmap :
    Reachable (.replayed 7 "/".toList) (afterBothHalves "munmap@SYS".toList "uname@SYS".toList) ∧
      Paired (.replayed 7 "/".toList) (afterBothHalves "munmap@SYS".toList "uname@SYS".toList) ∧
      ∃ c m u, (afterBothHalves "munmap@SYS".toList "uname@SYS".toList).store.core? ⟨7, 0⟩ =
          some c ∧ c.status = .matched ∧ c.resumedBatch = some ⟨7, 2⟩ ∧
        (afterBothHalves "munmap@SYS".toList "uname@SYS".toList).store.core? ⟨7, 2⟩ = some m ∧
          m.status = .merged ∧ m.unfinishedBatch = some ⟨7, 0⟩ ∧
        (afterBothHalves "munmap@SYS".toList "uname@SYS".toList).store.core? ⟨7, 1⟩ = some u ∧
          u.status = .resumed :=
  ⟨reachable_afterBothHalves, paired_of_reachable reachable_afterBothHalves,
    _, _, _, rfl, rfl, rfl, rfl, rfl, rfl, rfl, rfl⟩

/-- A function without a model is not paired. -/
theorem resumed_uname_not_paired :
    ¬ ∀ (env : Env) (w : World), Reachable env w → ∀ core, FreshCore core →
      core.status = .resumed → ∀ r w', (processCore env core).run w = (.ok r, w') →
      ∀ i, IsLastOpen w.store core.pid core.funcNam i →
        ∃ c, w'.store.core? i = some c ∧ c.status = .matched := by
  intro h
  obtain ⟨c, hc, hs⟩ := h (.replayed 7 "/".toList) (afterFirstHalf "uname@SYS".toList)
    (reachable_afterFirstHalf rfl) (halfCall "uname@SYS".toList .resumed)
    ⟨.inr (.inr rfl), rfl, rfl⟩ rfl _ _ rfl ⟨7, 0⟩ ⟨by decide, by decide⟩
  have hcore : some (halfCall "uname@SYS".toList .unfinished) = some c := hc
  cases hcore
  cases hs

end Survol.Dockit
