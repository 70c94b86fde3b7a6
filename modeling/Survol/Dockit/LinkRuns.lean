import Survol.Dockit.LinkSteps
import Survol.Dockit.UnparsableLines

/-!
# The links of the processes over a whole log

Each line of a log processes one core: its own, or the one of an earlier line when
it cannot be parsed. What the links satisfy after a log follows from what one such
core does to them.

## Main definitions

* `currentCore` — the core that a line processes.
* `Executes` — whether the model of a call on processes is run.
* `EachCore` — a condition on each core whose model is run.
* `links_rule` — the invariants of the links.
-/

open PyText

namespace Survol.Dockit

/-! ## The cores keep their process -/

/-- What a core keeps: its process and its times. -/
def BatchLetCore.origin (core : BatchLetCore) : ℤ × Text × Text :=
  (core.pid, core.timeStart, core.timeEnd)

/-- The stored cores belong to the same processes, at the same times. -/
def SameOrigins (u u' : UnfinishedBatches) : Prop :=
  ∀ id, (u'.core? id).map BatchLetCore.origin = (u.core? id).map BatchLetCore.origin

instance : Std.Refl SameOrigins := ⟨fun _ _ => rfl⟩

instance : IsTrans UnfinishedBatches SameOrigins := ⟨fun _ _ _ h h' id => (h' id).trans (h id)⟩

/-- A stored core was already there. -/
theorem SameOrigins.exists_of_core? {u u' : UnfinishedBatches} (h : SameOrigins u u') {id : CoreId}
    {c : BatchLetCore} (hc : u'.core? id = some c) :
    ∃ c', u.core? id = some c' ∧ c'.origin = c.origin := by
  have hsame := h id
  rw [hc, Option.map_some, eq_comm, Option.map_eq_some_iff] at hsame
  exact hsame

/-- The stacks are the same. -/
def SameStacks (u u' : UnfinishedBatches) : Prop := u'.mapStacks = u.mapStacks

instance : Std.Refl SameStacks := ⟨fun _ => rfl⟩

instance : IsTrans UnfinishedBatches SameStacks := ⟨fun _ _ _ h h' => h'.trans h⟩

section
variable {R : UnfinishedBatches → UnfinishedBatches → Prop} [Std.Refl R]

theorem keeps_coreAt (id : CoreId) : Py.Keeps R (coreAt id) := by
  intro u
  rw [snd_run_coreAt]
  exact Std.Refl.refl u

/-- The merge of two halves only changes cores, and neither their origins nor their functions. -/
theorem keeps_mergeHalves [IsTrans UnfinishedBatches R]
    (h : ∀ i f, (∀ c, (f c).origin = c.origin ∧ (f c).funcNam = c.funcNam) →
      Py.Keeps R (updateCore i f)) (i j : CoreId) :
    Py.Keeps R (mergeHalves i j) := by
  refine (keeps_coreAt i).bind fun a => (keeps_coreAt j).bind fun b => ?_
  refine Py.Keeps.ite (.raise _) ((h j _ ?_).bind fun _ => ?_)
  · exact fun _ => ⟨rfl, rfl⟩
  · refine Py.Keeps.ite (.raise _) ((h i _ ?_).bind fun _ => ?_)
    · exact fun _ => ⟨rfl, rfl⟩
    · refine (keeps_coreAt j).bind fun c => Py.Keeps.ite (.raise _) (h j _ ?_)
      exact fun _ => ⟨rfl, rfl⟩

end

theorem sameOrigins_updateCore (i : CoreId) (f : BatchLetCore → BatchLetCore)
    (h : ∀ c, (f c).origin = c.origin) : Py.Keeps SameOrigins (updateCore i f) := by
  intro u id
  change ((u.updateCore i f).core? id).map _ = _
  rw [UnfinishedBatches.core?_updateCore]
  split
  · cases u.core? id with
    | none => rfl
    | some c => simp [h]
  · rfl

section
variable {R : UnfinishedBatches → UnfinishedBatches → Prop} [Std.Refl R]
  [IsTrans UnfinishedBatches R]

/-- What only depends on the cores, and allows the changes of a merge, is kept. -/
theorem keeps_mergePopBatch (hcores : ∀ u u', u'.core? = u.core? → R u u')
    (h : ∀ i f, (∀ c, (f c).origin = c.origin ∧ (f c).funcNam = c.funcNam) →
      Py.Keeps R (updateCore i f)) (j : CoreId) : Py.Keeps R (mergePopBatch j) := by
  refine (keeps_coreAt j).bind fun c => Py.Keeps.bind .get fun u => ?_
  split
  · exact .pure _
  · refine Py.Keeps.bind (.modify fun u => hcores u _ rfl) fun _ => ?_
    exact (keeps_mergeHalves h _ _).bind fun _ => .pure _

/-- So it is by the factory. -/
theorem rel_of_factoryStep {env : Env} {id : CoreId} {core : BatchLetCore} {w w' : World}
    {r : Option Batch} (hcores : ∀ u u', u'.core? = u.core? → R u u')
    (h : ∀ i f, (∀ c, (f c).origin = c.origin ∧ (f c).funcNam = c.funcNam) →
      Py.Keeps R (updateCore i f)) (hstep : FactoryStep env id core w w' r) :
    R w.store w'.store := by
  have hsame : w'.store = w.store → R w.store w'.store := by
    intro heq
    rw [heq]
    exact Std.Refl.refl _
  cases hstep with
  | unknown _ hstore _ => exact hsame hstore
  | ignored _ hw => exact hsame (by rw [hw])
  | pushed _ _ hstore _ =>
    exact hcores _ _ (funext fun i => UnfinishedBatches.core?_of_run_pushBatch hstore i)
  | lone _ _ _ hstore _ => exact hsame hstore
  | built _ hs _ _ =>
    rcases hs with ⟨-, -, -, hstore⟩ | ⟨-, -, hpop⟩
    · exact hsame hstore
    · have hkeeps := keeps_mergePopBatch hcores h id w.store
      rwa [hpop] at hkeeps

end

section
variable {env : Env} {tracer : Tracer} {id : CoreId} {core : BatchLetCore} {w w' : World}
  {r : Option Batch}

theorem sameOrigins_of_factoryStep (h : FactoryStep env id core w w' r) :
    SameOrigins w.store w'.store := by
  refine rel_of_factoryStep (fun u u' heq i => ?_) (fun i f hf => ?_) h
  · rw [heq]
  · exact sameOrigins_updateCore i f fun c => (hf c).1

/-! ## The processes of the cores are there -/

/-- The process of every core is there. -/
def Present (w : World) : Prop :=
  ∀ id c, w.store.core? id = some c → c.pid ∈ w.objects.links.keys

theorem mem_keys_of_linkStep {L L' : Links} (h : LinkStep core L L') {x : ℤ} (hx : x ∈ L.keys) :
    x ∈ L'.keys := by
  cases h with
  | same => exact hx
  | appeared => exact Links.mem_keys_appear.mpr (.inr hx)
  | child =>
    rw [Links.keys_setParent]
    exact Links.mem_keys_appear.mpr (.inr hx)

/-- A core that is processed: the links, and the processes that are there. -/
theorem Present.factoryStep (h : Present w) (hcore : w.store.core? id = some core)
    (hstep : FactoryStep env id core w w' r) :
    LinkStep core w.objects.links w'.objects.links ∧ Present w' := by
  have hpid := h id core hcore
  rw [Objects.keys_links] at hpid
  have hlinks := linkStep_of_factoryStep hstep hcore hpid
  refine ⟨hlinks, fun i c hc => ?_⟩
  obtain ⟨c', hc', heq⟩ := (sameOrigins_of_factoryStep hstep).exists_of_core? hc
  exact (Prod.mk.inj heq).1 ▸ mem_keys_of_linkStep hlinks (h i c' hc')

theorem links_admitted (w : World) :
    (w.admitted env core).objects.links = w.objects.links.appear core.pid := by
  have hlinks := @Objects.links_toProcess w.objects env core.pid
  rw [← hlinks]
  refine sameLinks_updateProcess _ _ (fun o => ?_) fun o => ?_
  · split <;> rfl
  · split <;> rfl

theorem Present.admitted (h : Present w) : Present (w.admitted env core) := by
  intro i c hc
  change (w.store.addCore core).core? i = some c at hc
  rw [links_admitted, Links.mem_keys_appear]
  rw [UnfinishedBatches.core?_addCore] at hc
  split at hc
  · cases hc
    exact .inl rfl
  · exact .inr (h i c hc)

/-! ## One line -/

/-- The core of a line, if it is a call. -/
def coreOf (env : Env) (tracer : Tracer) (oneLine : Text) : Option BatchLetCore :=
  match parseLine env.topProcessId tracer oneLine with
  | .ok core => core
  | .error _ => none

/-- The core that a line processes: its own, or that of an earlier line when it
cannot be parsed. -/
def currentCore (env : Env) (tracer : Tracer) (s : Loop) (oneLine : Text) : Option BatchLetCore :=
  match parseLine env.topProcessId tracer oneLine with
  | .ok core => core
  | .error _ => s.batchCore.bind s.world.store.core?

/-- The model of a call on processes is run, unless the call is a second half whose
first half is missing. A `vfork` is run even so. -/
def Executes (u : UnfinishedBatches) (core : BatchLetCore) : Prop :=
  core.status = .resumed → core.funcNam = "vfork@SYS".toList ∨ u.stack core.pid core.funcNam ≠ []

/-- A call on processes that is not run. -/
theorem objects_of_not_executes (hcore : w.store.core? id = some core)
    (hstep : FactoryStep env id core w w' r) (htree : core.funcNam ∈ treeCalls)
    (hx : ¬ Executes w.store core) : w'.objects = w.objects := by
  rw [Executes, Classical.not_imp, not_or, not_not] at hx
  obtain ⟨hs, hvfork, hstack⟩ := hx
  have hlone : ∀ m, batchModels core.funcNam = .model m → m.resumedWithoutUnfinishedIsOk = false := by
    intro m hm
    rw [treeCalls, List.mem_cons, List.mem_cons, List.mem_singleton] at htree
    rcases htree with hf | hf | hf
    · rw [hf] at hm
      cases hm
      rfl
    · exact absurd hf hvfork
    · rw [hf] at hm
      cases hm
      rfl
  cases hstep with
  | unknown _ _ hobjects => exact hobjects
  | ignored _ hw => rw [hw]
  | pushed _ hu _ _ => cases hs.symm.trans hu
  | lone hm _ _ _ hobjects =>
    rcases hobjects with ⟨-, heq⟩ | ⟨htrue, -⟩
    · exact heq
    · cases (hlone _ hm).symm.trans htrue
  | built _ hs' _ _ =>
    rcases hs' with ⟨-, hne, -⟩ | ⟨-, -, hpop⟩
    · exact absurd hs hne
    · rw [UnfinishedBatches.run_mergePopBatch_nil hcore hstack] at hpop
      cases hpop

theorem linkStep_of_not_treeCalls {L L' : Links} (h : LinkStep core L L')
    (htree : core.funcNam ∉ treeCalls) : L' = L := by
  have hnone : namedPid core = none := by
    rw [treeCalls_eq, List.mem_append, not_or, List.mem_singleton] at htree
    rw [namedPid, if_neg htree.1, if_neg htree.2]
  cases h with
  | same => rfl
  | appeared h => cases hnone.symm.trans h
  | child h => cases hnone.symm.trans h

/-- What a line does to the links, when it processes the core `o`. -/
inductive LineStep (u : UnfinishedBatches) (o : Option BatchLetCore) (L : Links) : Links → Prop
  | same : LineStep u o L L
  | appeared (pid : ℤ) : LineStep u o L (L.appear pid)
  | core {core : BatchLetCore} {L' : Links} (h : o = some core) (hx : Executes u core)
      (hstep : LinkStep core (L.appear core.pid) L') : LineStep u o L L'

/-- A core that is processed, once its process is there. -/
theorem lineStep_of_factoryStep {u : UnfinishedBatches} {o : Option BatchLetCore} {L : Links}
    (hcore : w.store.core? id = some core) (hstep : FactoryStep env id core w w' r)
    (ho : o = some core) (hsame : Executes w.store core → Executes u core)
    (hL : w.objects.links = L.appear core.pid)
    (hlinks : LinkStep core w.objects.links w'.objects.links) :
    LineStep u o L w'.objects.links := by
  by_cases hx : Executes w.store core
  · exact .core ho (hsame hx) (hL ▸ hlinks)
  · by_cases htree : core.funcNam ∈ treeCalls
    · rw [objects_of_not_executes hcore hstep htree hx, hL]
      exact .appeared _
    · rw [linkStep_of_not_treeCalls hlinks htree, hL]
      exact .appeared _

theorem run_readCore_of_parseLine_error {oneLine : Text} {e : PyExn} {numLine : ℕ} {s s' : Loop}
    (hparse : parseLine env.topProcessId tracer oneLine = .error e)
    (h : (readCore env tracer numLine oneLine).run s = (.ok (), s')) : s' = s := by
  have hcaught : ∀ x, (caughtInvalidLine numLine oneLine).run s = (.ok x, s') → s' = s := by
    intro x hx
    rw [caughtInvalidLine] at hx
    split at hx
    · split at hx
      · cases hx
      · split at hx
        · cases hx
        · cases hx
          rfl
    · cases hx
      rfl
  refine hcaught () ?_
  rw [← h]
  simp [readCore, Py.catching, Py.run_bind, run_inWorld, createBatchCore, hparse]

theorem run_readCore_of_none {oneLine : Text} {numLine : ℕ} {s s' : Loop}
    (hparse : parseLine env.topProcessId tracer oneLine = .ok none)
    (h : (readCore env tracer numLine oneLine).run s = (.ok (), s')) :
    s' = { s with batchCore := none } := by
  simp only [readCore, Py.catching, Py.run_bind, run_inWorld, createBatchCore, hparse, Py.run_pure,
    Py.run_modify, Prod.mk.injEq, true_and] at h
  exact h.symm

/-- **What a line does to the links.** -/
theorem lineStep_of_run {line : Text × ℕ} {s s' : Loop} (h : Present s.world)
    (hrun : (processLine env tracer line).run s = (.ok (), s')) :
    LineStep s.world.store (currentCore env tracer s line.1) s.world.objects.links
      s'.world.objects.links ∧ Present s'.world := by
  cases hparse : parseLine env.topProcessId tracer line.1 with
  | ok o =>
    cases o with
    | some core =>
      obtain ⟨r, hprocess, -⟩ := run_processLine_of_core hparse hrun
      have hcore : (s.world.admitted env core).store.core? (s.world.store.nextId core.pid) =
          some core := s.world.store.core?_addCore_nextId core
      have hstep := factoryStep_of_processCore hprocess
      obtain ⟨hlinks, hpresent⟩ := h.admitted.factoryStep hcore hstep
      refine ⟨lineStep_of_factoryStep hcore hstep ?_ id (links_admitted s.world) hlinks, hpresent⟩
      rw [currentCore, hparse]
    | none =>
      obtain ⟨s₁, r, s₂, hread, hnext, rfl⟩ := run_processLine hrun
      obtain rfl := run_readCore_of_none hparse hread
      rw [run_nextBatch_none rfl] at hnext
      cases hnext
      exact ⟨.same, h⟩
  | error e =>
    obtain ⟨s₁, r, s₂, hread, hnext, rfl⟩ := run_processLine hrun
    obtain rfl := run_readCore_of_parseLine_error hparse hread
    rcases run_nextBatch_eq_ok hnext with ⟨-, rfl, -⟩ | ⟨id, core, w, hb, hc, hfac, rfl⟩
    · exact ⟨.same, h⟩
    · obtain ⟨hlinks, hpresent⟩ := h.factoryStep hc (factoryStep_of_run hc hfac)
      have happear := (Links.appear_of_mem (h id core hc)).symm
      refine ⟨lineStep_of_factoryStep hc (factoryStep_of_run hc hfac) ?_ (fun hx => hx) happear hlinks,
        hpresent⟩
      simp only [currentCore, hparse, hb, Option.bind_some, hc]

/-! ## A whole log -/

theorem readLog_eq_ok {logStream : List Text} (h : (readLog env tracer logStream).1 = .ok ()) :
    readLog env tracer logStream = (.ok (), (readLog env tracer logStream).2) :=
  Prod.ext h rfl

/-- The cores of some lines. -/
def coresOf (env : Env) (tracer : Tracer) (lines : List (Text × ℕ)) : List BatchLetCore :=
  lines.filterMap fun line => coreOf env tracer line.1

/-- The condition `C` on each core whose model a log runs, with the cores of the
earlier lines and the world right before. -/
def EachCore (env : Env) (tracer : Tracer) (logStream : List Text)
    (C : List BatchLetCore → World → BatchLetCore → Prop) : Prop :=
  ∀ l₁ line l₂ s core, joinLines [] 0 logStream = l₁ ++ line :: l₂ →
    (Py.each (processLine env tracer) l₁).run Loop.init = (.ok (), s) →
    currentCore env tracer s line.1 = some core → Executes s.world.store core →
    C (coresOf env tracer l₁) s.world core

/-- A condition on the links, once the process of the core is there. -/
def OnLinks (C : BatchLetCore → Links → Prop) (_ : List BatchLetCore) (w : World)
    (core : BatchLetCore) : Prop :=
  C core (w.objects.links.appear core.pid)

/-- **Induction over the lines of a log**, with the run so far. -/
theorem run_rule {P : List (Text × ℕ) → Loop → Prop} {logStream : List Text} {s : Loop}
    (hinit : P [] Loop.init)
    (hstep : ∀ l₁ line l₂ v v', joinLines [] 0 logStream = l₁ ++ line :: l₂ →
      (Py.each (processLine env tracer) l₁).run Loop.init = (.ok (), v) → P l₁ v →
      (processLine env tracer line).run v = (.ok (), v') → P (l₁ ++ [line]) v')
    (hrun : readLog env tracer logStream = (.ok (), s)) : P (joinLines [] 0 logStream) s := by
  refine (Py.each_rule (fun l₁ v => (Py.each (processLine env tracer) l₁).run Loop.init = (.ok (), v) ∧
    P l₁ v) ⟨rfl, hinit⟩ ?_ hrun).2
  rintro l₁ line l₂ v v' heq ⟨hl₁, hP⟩ hline
  refine ⟨?_, hstep l₁ line l₂ v v' heq hl₁ hP hline⟩
  rw [Py.run_each_append, hl₁]
  simp only [Py.run_each_cons, hline]
  rfl

/-- **Invariants of the links.** -/
theorem links_rule {I : Links → Prop} {C : BatchLetCore → Links → Prop} (hinit : I [])
    (happear : ∀ L pid, I L → I (L.appear pid))
    (hstep : ∀ L core L', I L → core.pid ∈ L.keys → C core L → LinkStep core L L' → I L')
    {logStream : List Text} {s : Loop} (hC : EachCore env tracer logStream (OnLinks C))
    (hrun : readLog env tracer logStream = (.ok (), s)) : I s.world.objects.links := by
  refine (run_rule (P := fun _ v => Present v.world ∧ I v.world.objects.links)
    ⟨fun _ _ hc => ?_, hinit⟩ ?_ hrun).2
  · cases hc
  · rintro l₁ line l₂ v v' heq hl₁ ⟨hpresent, hI⟩ hline
    obtain ⟨hlinks, hpresent'⟩ := lineStep_of_run hpresent hline
    refine ⟨hpresent', ?_⟩
    generalize v'.world.objects.links = L' at hlinks
    cases hlinks with
    | same => exact hI
    | appeared pid => exact happear _ _ hI
    | core hcur hx hlink =>
      exact hstep _ _ _ (happear _ _ hI) Links.mem_keys_appear_self (hC _ _ _ _ _ heq hl₁ hcur hx) hlink

end

end Survol.Dockit
