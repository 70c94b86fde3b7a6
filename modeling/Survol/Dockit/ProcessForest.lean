import Mathlib.Data.Char
import Mathlib.Data.List.Lex
import Mathlib.Data.List.Sort
import Survol.Dockit.LinkRuns
import Survol.Lib.Forest

/-!
# The processes as a forest

The summary follows the parents of a process to its root, and then the subprocesses
of the root. `SetParentProcess` only checks that a process is not its own parent,
and it leaves the process among the subprocesses of its former parent. So the links
are those of a forest only when no call names an ancestor of its caller, and when
no call names the child of another process.

## Main definitions

* `topProcessFromProc`, `xmlOneLevelSummary`, `xmlSummary` — the traversals.
* `NoLoop`, `NoReparent` — what a call must not name.
* `acyclic_of_noLoop`, `forest_of_noReparent`.
-/

open PyText

namespace Survol.Dockit

/-! ## The traversals of the summary -/

namespace Objects

/-- `TopProcessFromProc`, with at most `n` turns of its loop. -/
def topProcessFromProc (w : Objects) (n : ℕ) (pid : ℤ) : Option ℤ := Forest.top w.parentOf n pid

/-- The processes written by `XMLOneLevelSummary`, in a depth of at most `n`. A set is
enumerated in the order of its insertions. -/
def xmlOneLevelSummary (w : Objects) (n : ℕ) (pid : ℤ) : Option (List ℤ) :=
  Forest.walk w.subsOf n pid

/-- The key of a process among the objects. -/
def handlePath (pid : ℤ) : Text := "CIM_Process.Handle=\"".toList ++ decimal pid ++ ['"']

/-- The processes, sorted by their keys. -/
def sortedProcesses (w : Objects) : List ℤ :=
  w.processes.keys.mergeSort fun p q => decide (handlePath p ≤ handlePath q)

/-- The processes written by `XMLSummary`: from each process that is not visited, its
top process is found, and its tree is written. -/
def xmlSummary (w : Objects) (n : ℕ) : Option (List ℤ) :=
  Forest.sweep (w.topProcessFromProc n) (w.xmlOneLevelSummary n) [] w.sortedProcesses

end Objects

/-! ## What a call must not name -/

/-- The call makes the process `c` a child of its caller. -/
def Adopts (core : BatchLetCore) (L : Links) (c : ℤ) : Prop :=
  namedPid core = some c ∧ c ≠ core.pid ∧
    (core.funcNam = waitingCall → (L.appear c).parent c = none)

/-- The call does not adopt an ancestor of its caller. -/
def NoLoop (core : BatchLetCore) (L : Links) : Prop :=
  ∀ c, Adopts core L c → ¬ Forest.Below (L.appear c).subs c core.pid

/-- The call does not adopt the child of another process. -/
def NoReparent (core : BatchLetCore) (L : Links) : Prop :=
  ∀ c, Adopts core L c → ∀ p, (L.appear c).parent c = some p → p = core.pid

namespace Links

variable {L : Links} {pid c p : ℤ}

/-! ## No cycle -/

/-- The links lead to processes that are there, a child is among the subprocesses of
its parent, and no process is below itself. -/
structure Acyclic (L : Links) : Prop where
  mem_keys_of_subs : ∀ p q, q ∈ L.subs p → q ∈ L.keys
  mem_subs : ∀ p q, L.parent q = some p → q ∈ L.subs p
  noCycle : Forest.NoCycle (Forest.Child L.subs)

theorem acyclic_nil : Acyclic [] where
  mem_keys_of_subs := by
    intro p q hq
    cases hq
  mem_subs := by
    intro p q hq
    cases hq
  noCycle := by
    intro p hp
    cases hp with
    | single h => cases h
    | tail _ h => cases h

/-- A process without subprocesses is above itself only. -/
theorem eq_of_below_of_subs_nil {subs : ℤ → List ℤ} (h : subs c = []) (hp : Forest.Below subs c p) :
    p = c := by
  rcases Relation.ReflTransGen.cases_head hp with heq | ⟨d, hd, -⟩
  · exact heq.symm
  · rw [Forest.Child, h] at hd
    cases hd

theorem Acyclic.appear (h : L.Acyclic) (pid : ℤ) : (L.appear pid).Acyclic := by
  by_cases hpid : pid ∈ L.keys
  · rwa [appear_of_mem hpid]
  · have hmem : ∀ p q, q ∈ (L.appear pid).subs p →
        q ∈ L.subs p ∨ L.only = some p ∧ q = pid := by
      intro p q hq
      rw [subs_appear hpid] at hq
      split at hq
      · cases hq
      · split at hq
        · rename_i honly
          rw [List.mem_insert_iff] at hq
          exact hq.elim (fun heq => .inr ⟨honly, heq⟩) .inl
        · exact .inl hq
    constructor
    · intro p q hq
      rw [mem_keys_appear]
      exact (hmem p q hq).elim (fun hq => .inr (h.mem_keys_of_subs p q hq)) fun hq => .inl hq.2
    · intro p q hq
      rw [parent_appear hpid] at hq
      have hp : p ∈ L.keys → p ≠ pid := fun hp heq => hpid (heq ▸ hp)
      rw [subs_appear hpid]
      split at hq
      · rename_i heq
        have hkeys : p ∈ L.keys := by
          rw [mem_keys_of_only hq]
          exact List.mem_singleton_self p
        rw [if_neg (hp hkeys), if_pos hq, heq]
        exact List.mem_insert_self
      · have hq' := h.mem_subs p q hq
        rw [if_neg]
        · split
          · exact List.mem_insert_of_mem hq'
          · exact hq'
        · intro heq
          rw [heq, subs_of_not_mem hpid] at hq'
          cases hq'
    · cases honly : L.only with
      | none =>
        have hsame : ∀ a b, Forest.Child (L.appear pid).subs a b → Forest.Child L.subs a b := by
          intro a b hab
          refine (hmem a b hab).elim id fun hab => ?_
          rw [honly] at hab
          cases hab.1
        exact fun p hp => h.noCycle p (Relation.TransGen.mono hsame _ _ hp)
      | some first =>
        have hlink : ∀ a b, Forest.Child (L.appear pid).subs a b →
            Forest.Child L.subs a b ∨ a = first ∧ b = pid := by
          intro a b hab
          refine (hmem a b hab).imp_right fun hab => ⟨?_, hab.2⟩
          exact Option.some.inj (hab.1.symm.trans honly)
        refine h.noCycle.insert hlink fun hback => ?_
        · have heq := eq_of_below_of_subs_nil (subs_of_not_mem hpid) hback
          refine hpid ?_
          rw [← heq, mem_keys_of_only honly]
          exact List.mem_singleton_self first

theorem Acyclic.setParent (h : L.Acyclic) (hc : c ∈ L.keys) (hp : p ∈ L.keys)
    (hback : ¬ Forest.Below L.subs c p) : (L.setParent c p).Acyclic := by
  have hmem : ∀ a b, b ∈ (L.setParent c p).subs a → b ∈ L.subs a ∨ a = p ∧ b = c := by
    intro a b hb
    rw [subs_setParent hp] at hb
    split at hb
    · rename_i heq
      rw [List.mem_insert_iff] at hb
      exact hb.elim (fun hb => .inr ⟨heq, hb⟩) .inl
    · exact .inl hb
  constructor
  · intro a b hb
    rw [keys_setParent]
    exact (hmem a b hb).elim (h.mem_keys_of_subs a b) fun hb => hb.2 ▸ hc
  · intro a b hb
    rw [parent_setParent hc] at hb
    rw [subs_setParent hp]
    split at hb
    · rename_i heq
      cases hb
      rw [if_pos rfl, heq]
      exact List.mem_insert_self
    · split
      · exact List.mem_insert_of_mem (h.mem_subs a b hb)
      · exact h.mem_subs a b hb
  · exact h.noCycle.insert hmem hback

/-- **One core does not close a cycle**, unless it adopts an ancestor of its caller. -/
theorem Acyclic.step {core : BatchLetCore} {L' : Links} (h : L.Acyclic)
    (hpid : core.pid ∈ L.keys) (hC : NoLoop core L) (hstep : LinkStep core L L') : L'.Acyclic := by
  cases hstep with
  | same => exact h
  | appeared => exact h.appear _
  | @child c hname hne hw =>
    refine (h.appear c).setParent mem_keys_appear_self ?_ (hC c ⟨hname, hne, hw⟩)
    exact mem_keys_appear.mpr (.inr hpid)

/-- The parents can be followed, without end only along a cycle. -/
theorem Acyclic.wellFounded_parent (h : L.Acyclic) :
    WellFounded fun q p => L.parent p = some q :=
  Subrelation.wf (fun hqp => h.mem_subs _ _ hqp)
    (h.noCycle.wellFounded (List.finite_toSet L.keys) h.mem_keys_of_subs)

theorem Acyclic.wellFounded_subs (h : L.Acyclic) :
    WellFounded fun b a => Forest.Child L.subs a b := by
  refine Forest.NoCycle.wellFounded (fun p hp => ?_) (List.finite_toSet L.keys) fun b a hab => ?_
  · exact h.noCycle p (Relation.transGen_swap.mp hp)
  · by_contra ha
    rw [Forest.Child, subs_of_not_mem ha] at hab
    cases hab

/-! ## Parents and subprocesses agree -/

/-- The subprocesses of a process are those that have it as their parent. -/
structure Mirrored (L : Links) : Prop where
  mem_subs : ∀ p q, q ∈ L.subs p ↔ L.parent q = some p
  nodup_subs : ∀ p, (L.subs p).Nodup
  nodup_keys : L.keys.Nodup

theorem mirrored_nil : Mirrored [] where
  mem_subs := by
    intro p q
    exact ⟨nofun, nofun⟩
  nodup_subs := fun _ => List.nodup_nil
  nodup_keys := List.nodup_nil

theorem mem_keys_of_parent {q : ℤ} (h : L.parent q = some p) : q ∈ L.keys := by
  by_contra hq
  rw [parent_of_not_mem hq] at h
  cases h

theorem mem_keys_of_mem_subs {q : ℤ} (h : q ∈ L.subs p) : p ∈ L.keys := by
  by_contra hp
  rw [subs_of_not_mem hp] at h
  cases h

theorem Mirrored.appear (h : L.Mirrored) (pid : ℤ) : (L.appear pid).Mirrored := by
  by_cases hpid : pid ∈ L.keys
  · rwa [appear_of_mem hpid]
  · constructor
    · intro p q
      rw [subs_appear hpid, parent_appear hpid]
      by_cases hp : p = pid
      · subst hp
        have honly : L.only ≠ some p := by
          intro honly
          refine hpid ?_
          rw [mem_keys_of_only honly]
          exact List.mem_singleton_self p
        have hparent : L.parent q ≠ some p :=
          fun hq => hpid (mem_keys_of_mem_subs ((h.mem_subs p q).mpr hq))
        by_cases hq : q = p <;> simp [hq, honly, hparent]
      · have hself : pid ∉ L.subs p := fun hmem => hpid (mem_keys_of_parent ((h.mem_subs p pid).mp hmem))
        by_cases honly : L.only = some p
        · by_cases hq : q = pid <;> simp [hp, honly, hq, h.mem_subs]
        · by_cases hq : q = pid <;> simp [hp, honly, hq, hself, h.mem_subs]
    · intro p
      rw [subs_appear hpid]
      split
      · exact List.nodup_nil
      · split
        · exact (h.nodup_subs p).insert
        · exact h.nodup_subs p
    · rw [keys_appear_of_not_mem hpid]
      exact List.concat_eq_append ▸ h.nodup_keys.concat hpid

theorem Mirrored.setParent (h : L.Mirrored) (hc : c ∈ L.keys) (hp : p ∈ L.keys)
    (hparent : ∀ a, L.parent c = some a → a = p) : (L.setParent c p).Mirrored := by
  constructor
  · intro a b
    rw [subs_setParent hp, parent_setParent hc]
    by_cases ha : a = p
    · by_cases hb : b = c <;> simp [ha, hb, h.mem_subs]
    · have hself : c ∉ L.subs a := fun hmem => ha (hparent a ((h.mem_subs a c).mp hmem))
      by_cases hb : b = c
      · simp [ha, hb, hself, Ne.symm ha]
      · simp [ha, hb, h.mem_subs]
  · intro a
    rw [subs_setParent hp]
    split
    · exact (h.nodup_subs a).insert
    · exact h.nodup_subs a
  · rw [keys_setParent]
    exact h.nodup_keys

/-- **One core keeps both kinds of links**, unless it adopts the child of another process. -/
theorem Mirrored.step {core : BatchLetCore} {L' : Links} (h : L.Mirrored)
    (hpid : core.pid ∈ L.keys) (hC : NoReparent core L) (hstep : LinkStep core L L') : L'.Mirrored := by
  cases hstep with
  | same => exact h
  | appeared => exact h.appear _
  | @child c hname hne hw =>
    refine (h.appear c).setParent mem_keys_appear_self ?_ (hC c ⟨hname, hne, hw⟩)
    exact mem_keys_appear.mpr (.inr hpid)

end Links

namespace Objects

variable {w : Objects}

theorem parentOf_eq_parent : w.parentOf = w.links.parent := by
  ext pid
  rw [w.parentOf_eq_links]

theorem subsOf_eq_subs : w.subsOf = w.links.subs := by
  funext pid
  exact w.subsOf_eq_links

/-- The parents have no cycle, and the traversals of the summary end. -/
structure TraversalsEnd (w : Objects) : Prop where
  noCycle : Forest.NoCycle fun p q => w.parentOf p = some q
  topProcessFromProc : ∀ p, ∃ n top, w.topProcessFromProc n p = some top
  xmlOneLevelSummary : ∀ p, ∃ n l, w.xmlOneLevelSummary n p = some l

theorem traversalsEnd_of_acyclic (h : w.links.Acyclic) : w.TraversalsEnd := by
  constructor
  · intro p hp
    rw [parentOf_eq_parent] at hp
    refine h.noCycle p (Relation.transGen_swap.mp ?_)
    exact Relation.TransGen.mono (fun a b hab => h.mem_subs b a hab) _ _ hp
  · intro p
    exact Forest.exists_top (parentOf_eq_parent ▸ h.wellFounded_parent) p
  · intro p
    exact Forest.exists_walk (subsOf_eq_subs ▸ h.wellFounded_subs) p

/-- The subprocesses are the processes with this parent, and the top processes are those
without a parent. -/
structure LinksAgree (w : Objects) : Prop where
  mem_subProcesses : ∀ p q, q ∈ w.subsOf p ↔ w.parentOf q = some p
  getTopProcesses : w.getTopProcesses = w.processes.keys.filter fun p => w.parentOf p = none

theorem linksAgree_of_mirrored (h : w.links.Mirrored) : w.LinksAgree := by
  have hmem : ∀ p q, q ∈ w.subsOf p ↔ w.parentOf q = some p := by
    intro p q
    rw [subsOf_eq_subs, parentOf_eq_parent]
    exact h.mem_subs p q
  refine ⟨hmem, List.filter_congr fun pid _ => ?_⟩
  rw [decide_eq_decide]
  constructor
  · intro hall
    rw [Option.eq_none_iff_forall_ne_some]
    intro p hp
    have hsub := (hmem p pid).mpr hp
    rw [subsOf] at hsub
    cases ho : w.processes.get? p with
    | none =>
      rw [ho] at hsub
      cases hsub
    | some o =>
      rw [ho] at hsub
      exact hall (p, o) (Dict.mem_of_get?_eq_some ho) hsub
  · rintro hnone ⟨p, o⟩ ho hsub
    have hget : w.processes.get? p = some o := Dict.get?_of_mem (w.keys_links ▸ h.nodup_keys) ho
    have hparent := (hmem p pid).mp (by rw [subsOf, hget]; exact hsub)
    rw [hnone] at hparent
    cases hparent

/-- The summary writes every process once. -/
def WritesEachOnce (w : Objects) : Prop :=
  ∃ n l, w.xmlSummary n = some l ∧ l.Nodup ∧ ∀ p, p ∈ l ↔ p ∈ w.processes.keys

theorem writesEachOnce_of_mirrored (h : w.links.Mirrored) (hacyclic : w.links.Acyclic) :
    w.WritesEachOnce := by
  have hforest : Forest.IsForest w.links.parent w.links.subs :=
    ⟨h.mem_subs, h.nodup_subs, hacyclic.noCycle⟩
  obtain ⟨n, l, hl⟩ := Forest.exists_sweep hacyclic.wellFounded_parent hacyclic.wellFounded_subs
    w.sortedProcesses []
  have hwhole : Forest.Whole w.links.parent w.links.subs [] := by
    intro r p q _ _ _ hp
    cases hp
  obtain ⟨hnodup, -, hall, honly⟩ := hforest.sweep_spec List.nodup_nil hwhole hl
  have hsorted : ∀ p, p ∈ w.sortedProcesses ↔ p ∈ w.processes.keys := by
    intro p
    exact (List.mergeSort_perm _ _).mem_iff
  refine ⟨n, l, ?_, hnodup, fun q => ⟨fun hq => ?_, fun hq => hall q ((hsorted q).mpr hq)⟩⟩
  · rw [← hl, ← parentOf_eq_parent, ← subsOf_eq_subs]
    rfl
  · rcases honly q hq with hq | ⟨p, hp, r, hrp, hrq⟩
    · cases hq
    · rw [← keys_links]
      rcases Relation.ReflTransGen.cases_tail hrq with rfl | ⟨d, -, hdq⟩
      · rcases Relation.ReflTransGen.cases_head hrp with rfl | ⟨d, hqd, -⟩
        · rw [keys_links]
          exact (hsorted q).mp hp
        · exact Links.mem_keys_of_mem_subs hqd
      · exact Links.mem_keys_of_parent ((h.mem_subs d q).mp hdq)

end Objects

section
variable {env : Env} {tracer : Tracer} {logStream : List Text} {s : Loop}

/-- **The parents have no cycle**, in every state that a log reaches when no call
adopts an ancestor of its caller. -/
theorem acyclic_of_noLoop (hC : EachCore env tracer logStream (OnLinks NoLoop))
    (hrun : readLog env tracer logStream = (.ok (), s)) : s.world.objects.TraversalsEnd :=
  Objects.traversalsEnd_of_acyclic
    (links_rule Links.acyclic_nil (fun _ pid h => h.appear pid)
      (fun _ _ _ h hpid hC hstep => h.step hpid hC hstep) hC hrun)

/-- A process that appears second becomes the child of the first one, which its own
`clone` then makes its child. -/
def cloneOfFirst : List Text :=
  ["[pid 20] 14:56:54.296251 close(3</tmp/a>) = 0 <0.000013>\n".toList,
    "[pid 10] 14:56:54.296315 clone(child_stack=NULL, flags=SIGCHLD) = 20 <0.000013>\n".toList]

theorem cycle_of_clone :
    ¬ ∀ (env : Env) (tracer : Tracer) (logStream : List Text) (s : Loop),
      readLog env tracer logStream = (.ok (), s) → s.world.objects.TraversalsEnd := by
  intro h
  have hread : (readLog (.replayed 10 "/".toList) .strace cloneOfFirst).1 = .ok () ∧
      (readLog (.replayed 10 "/".toList) .strace cloneOfFirst).2.world.objects.parentOf 10 =
        some 20 ∧
      (readLog (.replayed 10 "/".toList) .strace cloneOfFirst).2.world.objects.parentOf 20 =
        some 10 := by decide +kernel
  obtain ⟨hok, hlinks⟩ := hread
  have hend := h _ _ cloneOfFirst _ (readLog_eq_ok hok)
  exact hend.noCycle 10 (.tail (.single hlinks.1) hlinks.2)

/-- The creation of a process. -/
def oneCloneLine : Text :=
  "[pid 10] 14:56:54.296315 clone(child_stack=NULL, flags=SIGCHLD) = 20 <0.000013>\n".toList

/-- A process with one child. -/
def oneClone : List Text := [oneCloneLine]

/-- The only call of `oneClone` creates the process 20. -/
theorem eachCore_oneClone {C : List BatchLetCore → World → BatchLetCore → Prop}
    (h : ∀ core, core.pid = 10 → core.funcNam = "clone@SYS".toList → namedPid core = some 20 →
      C [] World.init core) : EachCore (.replayed 10 "/".toList) .strace oneClone C := by
  intro l₁ line l₂ s core heq hrun hcore _
  have hjoin : joinLines [] 0 oneClone = [(oneCloneLine, 1)] := by decide +kernel
  have hnamed : (currentCore (.replayed 10 "/".toList) .strace Loop.init oneCloneLine).map
      (fun c => (c.pid, c.funcNam, namedPid c)) = some (10, "clone@SYS".toList, some 20) := by
    decide +kernel
  rw [hjoin, List.singleton_eq_append_iff] at heq
  rcases heq with ⟨rfl, heq⟩ | ⟨rfl, heq⟩
  · obtain ⟨rfl, -⟩ := List.cons.inj heq
    obtain ⟨-, rfl⟩ := Prod.mk.inj hrun
    rw [hcore] at hnamed
    obtain ⟨hpid, hrest⟩ := Prod.mk.inj (Option.some.inj hnamed)
    obtain ⟨hfunc, hname⟩ := Prod.mk.inj hrest
    exact h core hpid hfunc hname
  · cases heq

theorem noLoop_oneClone : EachCore (.replayed 10 "/".toList) .strace oneClone (OnLinks NoLoop) := by
  refine eachCore_oneClone fun core hpid _ hname c ⟨hc, _⟩ hback => ?_
  cases hname.symm.trans hc
  rw [hpid] at hback
  have heq := Links.eq_of_below_of_subs_nil (by decide) hback
  revert heq
  decide

theorem noReparent_oneClone :
    EachCore (.replayed 10 "/".toList) .strace oneClone (OnLinks NoReparent) := by
  refine eachCore_oneClone fun core hpid _ hname c ⟨hc, _⟩ p hp => ?_
  cases hname.symm.trans hc
  rw [hpid] at hp ⊢
  have hparent : ((Links.appear [] 10).appear 20).parent 20 = some 10 := by decide
  exact Option.some.inj (hp.symm.trans hparent)

theorem readLog_oneClone : readLog (.replayed 10 "/".toList) .strace oneClone =
    (.ok (), (readLog (.replayed 10 "/".toList) .strace oneClone).2) :=
  readLog_eq_ok (by decide +kernel)

theorem acyclic_of_noLoop_oneClone :
    (readLog (.replayed 10 "/".toList) .strace oneClone).2.world.objects.TraversalsEnd :=
  acyclic_of_noLoop noLoop_oneClone readLog_oneClone

/-- **Parents and subprocesses agree**, in every state that a log reaches when no call
adopts the child of another process; and the summary writes every process once, when
no call adopts an ancestor of its caller either. -/
theorem forest_of_noReparent (hC : EachCore env tracer logStream (OnLinks NoReparent))
    (hrun : readLog env tracer logStream = (.ok (), s)) : s.world.objects.LinksAgree ∧
      (EachCore env tracer logStream (OnLinks NoLoop) → s.world.objects.WritesEachOnce) := by
  have hmirrored : s.world.objects.links.Mirrored :=
    links_rule Links.mirrored_nil (fun _ pid h => h.appear pid)
      (fun _ _ _ h hpid hC hstep => h.step hpid hC hstep) hC hrun
  refine ⟨Objects.linksAgree_of_mirrored hmirrored, fun hloop => ?_⟩
  exact Objects.writesEachOnce_of_mirrored hmirrored
    (links_rule Links.acyclic_nil (fun _ pid h => h.appear pid)
      (fun _ _ _ h hpid hC hstep => h.step hpid hC hstep) hloop hrun)

theorem forest_of_noReparent_oneClone :
    (readLog (.replayed 10 "/".toList) .strace oneClone).2.world.objects.LinksAgree ∧
      (EachCore (.replayed 10 "/".toList) .strace oneClone (OnLinks NoLoop) →
        (readLog (.replayed 10 "/".toList) .strace oneClone).2.world.objects.WritesEachOnce) :=
  forest_of_noReparent noReparent_oneClone readLog_oneClone

/-- The second process becomes the child of the first one, and is then cloned by the
third one. -/
def cloneOfSecond : List Text :=
  ["[pid 1] 14:56:54.296251 close(3</tmp/a>) = 0 <0.000013>\n".toList,
    "[pid 2] 14:56:54.296261 close(3</tmp/a>) = 0 <0.000013>\n".toList,
    "[pid 3] 14:56:54.296315 clone(child_stack=NULL, flags=SIGCHLD) = 2 <0.000013>\n".toList]

/-- The process is then among the subprocesses of both. -/
theorem two_parents_of_clone :
    ¬ ∀ (env : Env) (tracer : Tracer) (logStream : List Text) (s : Loop),
      readLog env tracer logStream = (.ok (), s) →
        s.world.objects.LinksAgree ∧ s.world.objects.WritesEachOnce := by
  intro h
  have hread : (readLog (.replayed 10 "/".toList) .strace cloneOfSecond).1 = .ok () ∧
      2 ∈ (readLog (.replayed 10 "/".toList) .strace cloneOfSecond).2.world.objects.subsOf 1 ∧
      (readLog (.replayed 10 "/".toList) .strace cloneOfSecond).2.world.objects.parentOf 2 =
        some 3 := by decide +kernel
  obtain ⟨hok, hlinks⟩ := hread
  have hagree := (h _ _ cloneOfSecond _ (readLog_eq_ok hok)).1
  have hparent := (hagree.mem_subProcesses 1 2).mp hlinks.1
  rw [hlinks.2] at hparent
  revert hparent
  decide

end

end Survol.Dockit
