import Survol.Dockit.CoreRuns
import Survol.Dockit.ProcessForest

/-!
# Reconstruction of the process tree

The log of a tree of processes names each child in the result of a `clone` or a
`vfork` of its parent, before or after the first calls of the child, and possibly
in the results of `wait4`. The links that the program sets are then those of the
tree, exactly when no `wait4` fails with an error other than `ECHILD`: the other
errors are read as the number of a process.

## Main definitions

* `ProcessTree`, `TreeLog` — a tree of processes, and a log of it.
* `Reconstructed` — the links are those of the tree.
* `reconstructed_iff`.
-/

open PyText

namespace Survol.Dockit

/-- A tree of processes. -/
structure ProcessTree where
  root : ℤ
  pids : List ℤ
  parent : ℤ → Option ℤ
  root_mem : root ∈ pids
  parent_root : parent root = none
  mem_of_parent : ∀ p q, parent q = some p → p ∈ pids ∧ q ∈ pids
  pos : ∀ p ∈ pids, 0 < p
  descends : ∀ q ∈ pids, Relation.ReflTransGen (fun a b => parent b = some a) root q

/-- A log of the processes of a tree. -/
structure TreeLog (env : Env) (t : ProcessTree) (logStream : List Text) : Prop where
  /-- Every line is a complete record. -/
  complete : ∀ l ∈ logStream, isLogEnding l = true
  parsed : AllParsed env .strace logStream
  /-- The first call is by the root. -/
  first : ((logCores env .strace logStream).head?.map (·.pid)) = some t.root
  caller : ∀ core ∈ logCores env .strace logStream, core.pid ∈ t.pids
  /-- A process has a call only after a call of its parent. -/
  after_parent : ∀ l₁ core l₂, logCores env .strace logStream = l₁ ++ core :: l₂ →
    ∀ p, t.parent core.pid = some p → ∃ c ∈ l₁, c.pid = p
  /-- A creation names a child of its caller. -/
  named : ∀ core ∈ logCores env .strace logStream, core.funcNam ∈ creatingCalls →
    ∀ q, namedPid core = some q → t.parent q = some core.pid
  /-- Every other process than the root is named by a creation, on one line or in two halves. -/
  created : ∀ q ∈ t.pids, q ≠ t.root → ∃ l₁ core l₂,
    logCores env .strace logStream = l₁ ++ core :: l₂ ∧ core.funcNam ∈ creatingCalls ∧
      namedPid core = some q ∧ Ran l₁ core
  /-- A `wait4` whose result is a pid names a child of its caller. -/
  waited : ∀ core ∈ logCores env .strace logStream, core.funcNam = waitingCall →
    ∀ q, namedPid core = some q → 0 < q → t.parent q = some core.pid

/-- The links are those of the tree, and the root is the only top process. -/
structure Reconstructed (t : ProcessTree) (w : Objects) : Prop where
  parent : ∀ p, w.parentOf p = t.parent p
  subProcesses : ∀ p q, q ∈ w.subsOf p ↔ t.parent q = some p
  getTopProcesses : w.getTopProcesses = [t.root]

/-- No `wait4` has failed with an error that is read as a process. -/
def NoFailedWait (l : List BatchLetCore) : Prop :=
  ∀ l₁ core l₂, l = l₁ ++ core :: l₂ → core.funcNam = waitingCall → Ran l₁ core →
    ∀ q, namedPid core = some q → 0 < q

/-! ## The process that is named has a parent -/

theorem isPaired_of_creating {f : Text} (h : f ∈ creatingCalls) : IsPaired f := by
  simp only [creatingCalls, List.mem_cons, List.not_mem_nil, or_false] at h
  rcases h with rfl | rfl
  · exact ⟨_, rfl, rfl⟩
  · exact ⟨_, rfl, rfl⟩

theorem isPaired_waitingCall : IsPaired waitingCall := ⟨_, rfl, rfl⟩

theorem mem_treeCalls_iff {f : Text} :
    f ∈ treeCalls ↔ f ∈ creatingCalls ∨ f = waitingCall := by
  rw [treeCalls_eq, List.mem_append, List.mem_singleton]

theorem isPaired_of_treeCalls {f : Text} (h : f ∈ treeCalls) : IsPaired f := by
  rcases mem_treeCalls_iff.mp h with h | rfl
  · exact isPaired_of_creating h
  · exact isPaired_waitingCall

section
variable {core : BatchLetCore} {L L' : Links} {c p q : ℤ}

theorem isSome_parent_setParent (hc : c ∈ L.keys) (h : (L.parent q).isSome) :
    ((L.setParent c p).parent q).isSome := by
  rw [Links.parent_setParent hc]
  split
  · rfl
  · exact h

theorem isSome_parent_appear (h : (L.parent q).isSome) : ((L.appear c).parent q).isSome := by
  by_cases hc : c ∈ L.keys
  · rwa [Links.appear_of_mem hc]
  · rw [Links.parent_appear hc, if_neg]
    · exact h
    · rintro rfl
      rw [Links.parent_of_not_mem hc] at h
      cases h

/-- A process that has a parent keeps having one. -/
theorem isSome_parent_of_linkStep (h : LinkStep core L L') (hq : (L.parent q).isSome) :
    (L'.parent q).isSome := by
  cases h with
  | same => exact hq
  | appeared => exact isSome_parent_appear hq
  | child =>
    exact isSome_parent_setParent (Links.mem_keys_appear.mpr (.inl rfl)) (isSome_parent_appear hq)

end

section
variable {env : Env} {core : BatchLetCore} {w w' : World} {r : Option Batch}
  {l : List BatchLetCore}

theorem present_of_processed (h : Processed env l w) : Present w := by
  induction h with
  | init =>
    intro id c hc
    cases hc
  | @step l core w w' r h hfresh hrun ih =>
    exact ((Present.admitted ih).factoryStep (w.store.core?_addCore_nextId core)
      (factoryStep_of_processCore hrun)).2

/-- What a core that is processed does to the links. -/
theorem linkStep_of_processCore (h : Processed env l w)
    (hrun : (processCore env core).run w = (.ok r, w')) :
    LinkStep core (w.objects.links.appear core.pid) w'.objects.links := by
  have hlinks := ((Present.admitted (present_of_processed h)).factoryStep
    (w.store.core?_addCore_nextId core) (factoryStep_of_processCore hrun)).1
  rwa [links_admitted] at hlinks

theorem isSome_parent_of_processCore (h : Processed env l w)
    (hrun : (processCore env core).run w = (.ok r, w')) (htree : core.funcNam ∈ treeCalls)
    (hran : Ran l core) {q : ℤ} (hq : namedPid core = some q) :
    (w'.objects.links.parent q).isSome := by
  obtain ⟨m, c, args, hm, -, hfunc, hret, htracer, -, hbuild⟩ :=
    built_of_ran h (isPaired_of_treeCalls htree) hran hrun
  rw [← hfunc] at hm htree
  refine (linkResult_of_build hm htree hbuild).parent args rfl q ?_
  rwa [namedPid, hfunc, hret, htracer]

theorem eq_or_of_concat_eq {α : Type} {l l₁ l₂ : List α} {a b : α}
    (h : l ++ [b] = l₁ ++ a :: l₂) : l₁ = l ∧ a = b ∨ ∃ l₃, l = l₁ ++ a :: l₃ := by
  rcases List.eq_nil_or_concat l₂ with rfl | ⟨l₃, x, rfl⟩
  · have heq := List.append_inj' h rfl
    exact .inl ⟨heq.1.symm, (List.singleton_injective heq.2).symm⟩
  · rw [List.concat_eq_append, ← List.cons_append, ← List.append_assoc] at h
    exact .inr ⟨l₃, (List.append_inj' h rfl).1⟩

/-- **A process that is named by a call has a parent** ever after. -/
theorem Processed.isSome_parent (h : Processed env l w) {l₁ l₂ : List BatchLetCore}
    (hl : l = l₁ ++ core :: l₂) (htree : core.funcNam ∈ treeCalls) (hran : Ran l₁ core) {q : ℤ}
    (hq : namedPid core = some q) : (w.objects.links.parent q).isSome := by
  induction h generalizing l₂ with
  | init => simp at hl
  | @step l c w w' r h hfresh hrun ih =>
    rcases eq_or_of_concat_eq hl with ⟨rfl, rfl⟩ | ⟨l₃, rfl⟩
    · exact isSome_parent_of_processCore h hrun htree hran hq
    · exact isSome_parent_of_linkStep (linkStep_of_processCore h hrun)
        (isSome_parent_appear (ih rfl))

end

/-! ## The links are those of the tree -/

namespace ProcessTree

variable (t : ProcessTree) {L L' : Links} {core : BatchLetCore} {c p : ℤ}

theorem exists_parent {q : ℤ} (hq : q ∈ t.pids) (hne : q ≠ t.root) : ∃ p, t.parent q = some p := by
  rcases Relation.ReflTransGen.cases_tail (t.descends q hq) with heq | ⟨p, -, hp⟩
  · exact absurd heq hne
  · exact ⟨p, hp⟩

/-- The links are some of those of the tree. -/
structure Good (L : Links) : Prop where
  mirrored : L.Mirrored
  parent : ∀ p q, L.parent q = some p → t.parent q = some p
  mem_pids : ∀ p ∈ L.keys, p ∈ t.pids
  root_mem : L.keys ≠ [] → t.root ∈ L.keys

variable {t}

theorem good_nil : t.Good [] where
  mirrored := Links.mirrored_nil
  parent := by
    intro p q h
    cases h
  mem_pids := by
    intro p h
    cases h
  root_mem := fun h => absurd rfl h

/-- A process appears after its parent. -/
theorem Good.appear (h : t.Good L) (hc : c = t.root ∨ ∃ p ∈ L.keys, t.parent c = some p) :
    t.Good (L.appear c) := by
  by_cases hmem : c ∈ L.keys
  · rwa [Links.appear_of_mem hmem]
  · refine ⟨h.mirrored.appear c, ?_, ?_, ?_⟩
    · intro p q hq
      rw [Links.parent_appear hmem] at hq
      split at hq
      · rename_i heq
        subst heq
        have hkeys := Links.mem_keys_of_only hq
        have hroot := h.root_mem (by simp [hkeys])
        rcases hc with rfl | ⟨p', hp', hparent⟩
        · exact absurd hroot hmem
        · rw [hkeys, List.mem_singleton] at hp'
          rw [hparent, hp']
      · exact h.parent p q hq
    · intro p hp
      rcases Links.mem_keys_appear.mp hp with rfl | hp
      · rcases hc with rfl | ⟨p', -, hparent⟩
        · exact t.root_mem
        · exact (t.mem_of_parent _ _ hparent).2
      · exact h.mem_pids p hp
    · intro _
      rw [Links.mem_keys_appear]
      by_cases hnil : L.keys = []
      · refine .inl ?_
        rcases hc with hc | ⟨p', hp', -⟩
        · exact hc.symm
        · rw [hnil] at hp'
          cases hp'
      · exact .inr (h.root_mem hnil)

theorem Good.setParent (h : t.Good L) (hc : c ∈ L.keys) (hp : p ∈ L.keys)
    (hparent : t.parent c = some p) : t.Good (L.setParent c p) := by
  refine ⟨h.mirrored.setParent hc hp fun a ha => ?_, ?_, ?_, ?_⟩
  · exact Option.some.inj ((h.parent a c ha).symm.trans hparent)
  · intro a b hb
    rw [Links.parent_setParent hc] at hb
    split at hb
    · rename_i heq
      rw [heq, hparent, hb]
    · exact h.parent a b hb
  · rw [Links.keys_setParent]
    exact h.mem_pids
  · rw [Links.keys_setParent]
    exact h.root_mem

/-- A call that only names children of its caller. -/
theorem Good.linkStep (h : t.Good L) (hpid : core.pid ∈ L.keys) (hstep : LinkStep core L L')
    (hnamed : ∀ c, namedPid core = some c → t.parent c = some core.pid) : t.Good L' := by
  cases hstep with
  | same => exact h
  | appeared hname => exact h.appear (.inr ⟨_, hpid, hnamed _ hname⟩)
  | child hname =>
    refine (h.appear (.inr ⟨_, hpid, hnamed _ hname⟩)).setParent ?_ ?_ (hnamed _ hname)
    · exact Links.mem_keys_appear.mpr (.inl rfl)
    · exact Links.mem_keys_appear.mpr (.inr hpid)

end ProcessTree

section
variable {env : Env} {t : ProcessTree} {logStream : List Text} {l rest : List BatchLetCore}
  {core : BatchLetCore} {w w' : World} {r : Option Batch}

/-- The processes of the calls are there. -/
theorem mem_keys_of_processed (h : Processed env l w) :
    ∀ c ∈ l, c.pid ∈ w.objects.links.keys := by
  induction h with
  | init => nofun
  | @step l core w w' r h hfresh hrun ih =>
    intro c hc
    refine mem_keys_of_linkStep (linkStep_of_processCore h hrun) (Links.mem_keys_appear.mpr ?_)
    rcases List.mem_append.mp hc with hc | hc
    · exact .inr (ih c hc)
    · rw [List.mem_singleton.mp hc]
      exact .inl rfl

theorem good_of_processCore (h : TreeLog env t logStream)
    (hlog : logCores env .strace logStream = l ++ core :: rest)
    (hwait : NoFailedWait (logCores env .strace logStream)) (hfresh : FreshCore core)
    (hl : Processed env l w) (hgood : t.Good w.objects.links)
    (hrun : (processCore env core).run w = (.ok r, w')) : t.Good w'.objects.links := by
  have hmem : core ∈ logCores env .strace logStream := by simp [hlog]
  have happear : t.Good (w.objects.links.appear core.pid) := by
    refine hgood.appear ?_
    by_cases hroot : core.pid = t.root
    · exact .inl hroot
    · obtain ⟨p, hp⟩ := t.exists_parent (h.caller core hmem) hroot
      obtain ⟨c, hc, heq⟩ := h.after_parent l core rest hlog p hp
      exact .inr ⟨p, heq ▸ mem_keys_of_processed hl c hc, hp⟩
  have hstep := linkStep_of_processCore hl hrun
  have hpid : core.pid ∈ (w.objects.links.appear core.pid).keys := Links.mem_keys_appear.mpr (.inl rfl)
  by_cases hcreating : core.funcNam ∈ creatingCalls
  · exact happear.linkStep hpid hstep (h.named core hmem hcreating)
  · by_cases hwaiting : core.funcNam = waitingCall
    · by_cases hran : Ran l core
      · refine happear.linkStep hpid hstep fun q hq => h.waited core hmem hwaiting q hq ?_
        exact hwait l core rest hlog hwaiting hran q hq
      · have hsame := objects_of_not_ran hl hfresh (by rw [hwaiting]; rfl) rfl rfl hran hrun
        rw [hsame]
        exact @links_admitted env core w ▸ happear
    · refine happear.linkStep hpid hstep fun q hq => ?_
      rw [namedPid, if_neg hcreating, if_neg hwaiting] at hq
      cases hq

theorem good_of_processed (h : TreeLog env t logStream)
    (hwait : NoFailedWait (logCores env .strace logStream)) (hl : Processed env l w)
    (hlog : logCores env .strace logStream = l ++ rest) : t.Good w.objects.links := by
  induction hl generalizing rest with
  | init => exact ProcessTree.good_nil
  | step hl hfresh hrun ih =>
    rw [List.append_assoc, List.singleton_append] at hlog
    exact good_of_processCore h hlog hwait hfresh hl (ih hlog) hrun

theorem eq_singleton_of_nodup {α : Type} {l : List α} {a : α} (hl : l.Nodup)
    (h : ∀ x, x ∈ l ↔ x = a) : l = [a] := by
  refine List.perm_singleton.mp ((List.perm_ext_iff_of_nodup hl (List.nodup_singleton a)).mpr ?_)
  intro x
  rw [h, List.mem_singleton]

theorem reconstructed_of_good {w : Objects} (hgood : t.Good w.links) (hroot : t.root ∈ w.links.keys)
    (hall : ∀ p q, t.parent q = some p → (w.links.parent q).isSome) : Reconstructed t w := by
  have hparent : ∀ q, w.parentOf q = t.parent q := by
    intro q
    rw [w.parentOf_eq_links]
    cases ht : t.parent q with
    | none =>
      rw [Option.eq_none_iff_forall_ne_some]
      intro p hp
      rw [hgood.parent p q hp] at ht
      cases ht
    | some p =>
      obtain ⟨p', hp'⟩ := Option.isSome_iff_exists.mp (hall p q ht)
      rw [hp', ← ht, hgood.parent p' q hp']
  have hagree := Objects.linksAgree_of_mirrored hgood.mirrored
  refine ⟨hparent, fun p q => ?_, ?_⟩
  · rw [hagree.mem_subProcesses, hparent]
  · rw [hagree.getTopProcesses]
    refine eq_singleton_of_nodup (List.Nodup.filter _ (w.keys_links ▸ hgood.mirrored.nodup_keys)) ?_
    intro q
    rw [List.mem_filter, decide_eq_true_eq, hparent, ← w.keys_links]
    constructor
    · rintro ⟨hq, hnone⟩
      by_contra hne
      obtain ⟨p, hp⟩ := t.exists_parent (hgood.mem_pids q hq) hne
      rw [hnone] at hp
      cases hp
    · rintro rfl
      exact ⟨hroot, t.parent_root⟩

/-- **The process tree is reconstructed** exactly when no `wait4` has failed with an
error that is read as a process. -/
theorem reconstructed_iff {s : Loop} (h : TreeLog env t logStream)
    (hrun : readLog env .strace logStream = (.ok (), s)) :
    Reconstructed t s.world.objects ↔ NoFailedWait (logCores env .strace logStream) := by
  have hl := processed_of_readLog h.parsed hrun
  constructor
  · intro hrec l₁ core l₂ heq hf hran q hq
    have hsome := hl.isSome_parent heq (mem_treeCalls_iff.mpr (.inr hf)) hran hq
    rw [← s.world.objects.parentOf_eq_links, hrec.parent, Option.isSome_iff_exists] at hsome
    obtain ⟨p, hp⟩ := hsome
    exact t.pos q (t.mem_of_parent p q hp).2
  · intro hwait
    refine reconstructed_of_good (good_of_processed h hwait hl (List.append_nil _).symm) ?_ ?_
    · obtain ⟨c, hc, hpid⟩ := Option.map_eq_some_iff.mp h.first
      exact hpid ▸ mem_keys_of_processed hl c (List.mem_of_head? hc)
    · intro p q hp
      have hne : q ≠ t.root := by
        rintro rfl
        rw [t.parent_root] at hp
        cases hp
      obtain ⟨l₁, core, l₂, heq, hf, hq, hran⟩ := h.created q (t.mem_of_parent p q hp).2 hne
      exact hl.isSome_parent heq (mem_treeCalls_iff.mpr (.inl hf)) hran hq

end

/-! ## A failed wait -/

/-- A process and its child. -/
def parentAndChild : ProcessTree where
  root := 10
  pids := [10, 20]
  parent q := if q = 20 then some 10 else none
  root_mem := by decide
  parent_root := by decide
  mem_of_parent := by
    intro p q h
    split at h
    · rename_i hq
      cases h
      simp [hq]
    · cases h
  pos := by decide
  descends := by
    intro q hq
    rcases List.mem_cons.mp hq with rfl | hq
    · exact .refl
    · rw [List.mem_singleton.mp hq]
      exact .single (by decide)

/-- What matters of a core for the tree. -/
def coreSummary (core : BatchLetCore) : ℤ × Text × BatchStatus × Option ℤ :=
  (core.pid, core.funcNam, core.status, namedPid core)

theorem allParsed_of_all {env : Env} {tracer : Tracer} {logStream : List Text}
    (h : (joinLines [] 0 logStream).all (fun line =>
      (parseLine env.topProcessId tracer line.1).toOption.isSome) = true) :
    AllParsed env tracer logStream := by
  intro line hline
  have hsome := List.all_eq_true.mp h line hline
  cases hparse : parseLine env.topProcessId tracer line.1 with
  | ok core => exact ⟨core, rfl⟩
  | error e =>
    rw [hparse] at hsome
    cases hsome

/-- A log that begins with the creation of the child, and goes on with waits that fail. -/
theorem treeLog_of_clone {env : Env} {logStream : List Text}
    (waits : List (ℤ × Text × BatchStatus × Option ℤ))
    (hcomplete : ∀ l ∈ logStream, isLogEnding l = true) (hparsed : AllParsed env .strace logStream)
    (hcores : (logCores env .strace logStream).map coreSummary =
      (10, "clone@SYS".toList, .plain, some 20) :: waits)
    (hwaits : ∀ c ∈ waits, c.1 = 10 ∧ c.2.1 = waitingCall ∧ ∀ q ∈ c.2.2.2, q ≤ 0) :
    TreeLog env parentAndChild logStream := by
  obtain ⟨clone, rest, heq, hclone, hrest⟩ := List.map_eq_cons_iff.mp hcores
  simp only [coreSummary, Prod.mk.injEq] at hclone
  obtain ⟨hpid, hfunc, hstatus, hname⟩ := hclone
  have hrest' : ∀ c ∈ rest, c.pid = 10 ∧ c.funcNam = waitingCall ∧ ∀ q ∈ namedPid c, q ≤ 0 :=
    fun c hc => hwaits (coreSummary c) (hrest ▸ List.mem_map_of_mem hc)
  have hcreating : clone.funcNam ∈ creatingCalls := by
    rw [hfunc]
    decide
  have hten : ∀ c ∈ clone :: rest, c.pid = 10 :=
    List.forall_mem_cons.mpr ⟨hpid, fun c hc => (hrest' c hc).1⟩
  refine ⟨hcomplete, hparsed, ?_, ?_, ?_, ?_, ?_, ?_⟩
  · rw [heq, List.head?_cons, Option.map_some, hpid]
    rfl
  · rw [heq]
    intro c hc
    rw [hten c hc]
    decide
  · intro l₁ c l₂ hl p hp
    rw [hten c (heq ▸ hl ▸ by simp)] at hp
    cases hp
  · rw [heq]
    intro c hc hf q hq
    rcases List.mem_cons.mp hc with rfl | hc
    · cases hname.symm.trans hq
      rw [hpid]
      rfl
    · exact absurd (hrest' c hc).2.1 (ne_waitingCall_of_creating hf)
  · intro q hq hne
    have hq20 : q = 20 := by
      rcases List.mem_cons.mp hq with rfl | hq
      · exact absurd rfl hne
      · exact List.mem_singleton.mp hq
    exact ⟨[], clone, rest, heq, hcreating, by rw [hq20, hname], .inl hstatus⟩
  · rw [heq]
    intro c hc hf q hq hpos
    rcases List.mem_cons.mp hc with rfl | hc
    · exact absurd hf (ne_waitingCall_of_creating hcreating)
    · have hle := (hrest' c hc).2.2 q hq
      omega

theorem treeLog_oneClone : TreeLog (.replayed 10 "/".toList) parentAndChild oneClone := by
  refine treeLog_of_clone [] (by decide +kernel) (allParsed_of_all (by decide +kernel)) ?_ ?_
  · decide +kernel
  · decide

theorem reconstructed_iff_oneClone :
    Reconstructed parentAndChild
        (readLog (.replayed 10 "/".toList) .strace oneClone).2.world.objects ↔
      NoFailedWait (logCores (.replayed 10 "/".toList) .strace oneClone) :=
  reconstructed_iff treeLog_oneClone readLog_oneClone

/-- The parent also waits, without success. -/
def failedWait : List Text :=
  [oneCloneLine,
    "[pid 10] 14:56:54.296400 wait4(20, NULL, 64, NULL) = -1 EINVAL (Invalid argument) <0.000013>\n".toList]

theorem treeLog_failedWait : TreeLog (.replayed 10 "/".toList) parentAndChild failedWait := by
  refine treeLog_of_clone [(10, waitingCall, .plain, some (-1))] (by decide +kernel)
    (allParsed_of_all (by decide +kernel)) ?_ ?_
  · decide +kernel
  · simp

/-- The failed wait creates a process. -/
theorem failedWait_not_reconstructed :
    ¬ ∀ (env : Env) (t : ProcessTree) (logStream : List Text) (s : Loop),
      TreeLog env t logStream → readLog env .strace logStream = (.ok (), s) →
        Reconstructed t s.world.objects := by
  intro h
  have hread : (readLog (.replayed 10 "/".toList) .strace failedWait).1 = .ok () ∧
      -1 ∈ (readLog (.replayed 10 "/".toList) .strace failedWait).2.world.objects.subsOf 10 := by
    decide +kernel
  obtain ⟨hok, hchild⟩ := hread
  have hrec := h _ _ _ _ treeLog_failedWait (readLog_eq_ok hok)
  have hparent := (hrec.subProcesses 10 (-1)).mp hchild
  revert hparent
  decide

end Survol.Dockit
