import Survol.Dockit.Creations
import Survol.Dockit.LinkRuns
import Survol.Dockit.ScannedAccesses

/-!
# The states of a log

A line that cannot be parsed makes the loop process an earlier core again: an unfinished half is
then put on its stack a second time, and the second half of the next call finds it matched already.
What is left in all the states of a log is that a stack has cores of its own process and function,
that the cache of the accesses names accesses of its own process and file, that what is found in a
buffer is stored under the name of a scanner, and that the parents of the processes are known.

## Main definitions

* `StacksKnown` — what the stacks have.
* `ParentsKnown` — what the links have.
* `SoundLoop` — the invariant, with `soundLoop_of_lines`.
-/

open PyText Py

namespace Survol.Dockit

/-- The cores of a stack are those of its process and function. -/
def StacksKnown (u : UnfinishedBatches) : Prop :=
  ∀ pid f, ∀ i ∈ u.stack pid f, ∃ c, u.core? i = some c ∧ c.pid = pid ∧ c.funcNam = f

section
variable {env : Env} {id : CoreId} {core : BatchLetCore} {w w' : World} {r : Option Batch}

theorem StacksKnown.addCore {u : UnfinishedBatches} (h : StacksKnown u) (core : BatchLetCore) :
    StacksKnown (u.addCore core) := by
  intro pid f i hi
  obtain ⟨c, hc, hown⟩ := h pid f i hi
  exact ⟨c, UnfinishedBatches.core?_addCore_of_some core hc, hown⟩

theorem sameStacks_mergeHalves (i j : CoreId) : Keeps SameStacks (mergeHalves i j) :=
  keeps_mergeHalves (fun _ _ _ _ => rfl) i j

/-- The factory puts a core on its own stack only. -/
theorem mem_stack_of_factoryStep (hstep : FactoryStep env id core w w' r)
    (hcore : w.store.core? id = some core) {pid : ℤ} {f : Text} {i : CoreId}
    (hi : i ∈ w'.store.stack pid f) :
    i ∈ w.store.stack pid f ∨ i = id ∧ core.pid = pid ∧ core.funcNam = f := by
  have hsame : w'.store = w.store → i ∈ w.store.stack pid f := fun heq => heq ▸ hi
  cases hstep with
  | unknown _ hstore _ => exact .inl (hsame hstore)
  | ignored _ hw => exact .inl (hsame (by rw [hw]))
  | lone _ _ _ hstore _ => exact .inl (hsame hstore)
  | pushed _ _ hstore _ =>
    rw [pushBatch, run_coreAt_bind hcore] at hstore
    have hpushed := (Prod.mk.inj hstore).2
    rw [← hpushed, UnfinishedBatches.stack_setStack] at hi
    split at hi
    · rename_i heq
      obtain ⟨rfl, rfl⟩ := heq
      rw [List.mem_append, List.mem_singleton] at hi
      exact hi.imp_right fun heq => ⟨heq, rfl, rfl⟩
    · exact .inl hi
  | built _ hs _ _ =>
    rcases hs with ⟨-, -, -, hstore⟩ | ⟨-, -, hpop⟩
    · exact .inl (hsame hstore)
    · rw [mergePopBatch, run_coreAt_bind hcore, run_get_bind] at hpop
      split at hpop
      · cases hpop
      · rename_i batchCore stackPerFunc hstack
        rw [run_modify_bind, run_bind_eq_ok] at hpop
        obtain ⟨_, u, hmerge, hpop⟩ := hpop
        cases hpop
        have hkeeps := sameStacks_mergeHalves
          ((batchCore :: stackPerFunc).getLast (List.cons_ne_nil _ _)) id
          (w.store.setStack core.pid core.funcNam (batchCore :: stackPerFunc).dropLast)
        rw [hmerge] at hkeeps
        have hstacks : w'.store.stack pid f = (w.store.setStack core.pid core.funcNam
            (batchCore :: stackPerFunc).dropLast).stack pid f := by
          rw [UnfinishedBatches.stack, UnfinishedBatches.stack?, hkeeps]
          rfl
        rw [hstacks, UnfinishedBatches.stack_setStack] at hi
        split at hi
        · rename_i heq
          obtain ⟨rfl, rfl⟩ := heq
          rw [hstack]
          exact .inl (List.dropLast_subset _ hi)
        · exact .inl hi

/-- The factory keeps the stacks known. -/
theorem StacksKnown.factoryStep (h : StacksKnown w.store)
    (hstep : FactoryStep env id core w w' r) (hcore : w.store.core? id = some core) :
    StacksKnown w'.store := by
  intro pid f i hi
  have hkept : ∀ c, w.store.core? i = some c →
      ∃ c', w'.store.core? i = some c' ∧ c'.pid = c.pid ∧ c'.funcNam = c.funcNam := by
    intro c hc
    obtain ⟨c', hc', hname⟩ := keepsNames_of_factoryStep hstep i c hc
    have horigin := sameOrigins_of_factoryStep hstep i
    rw [hc, hc'] at horigin
    exact ⟨c', hc', congrArg Prod.fst (Option.some.inj horigin), hname⟩
  rcases mem_stack_of_factoryStep hstep hcore hi with hi | ⟨rfl, rfl, rfl⟩
  · obtain ⟨c, hc, rfl, rfl⟩ := h pid f i hi
    obtain ⟨c', hc', hpid, hname⟩ := hkept c hc
    exact ⟨c', hc', hpid, hname⟩
  · exact hkept core hcore

end

/-! ## The parents -/

/-- The parents of the processes are there. -/
def ParentsKnown (L : Links) : Prop := ∀ p q, L.parent p = some q → q ∈ L.keys

section
variable {L L' : Links} {core : BatchLetCore}

theorem ParentsKnown.appear (h : ParentsKnown L) (pid : ℤ) : ParentsKnown (L.appear pid) := by
  intro p q hq
  by_cases hpid : pid ∈ L.keys
  · rw [Links.appear_of_mem hpid] at hq ⊢
    exact h p q hq
  · rw [Links.parent_appear hpid] at hq
    rw [Links.mem_keys_appear]
    split at hq
    · rw [Links.mem_keys_of_only hq]
      exact .inr (List.mem_singleton_self q)
    · exact .inr (h p q hq)

theorem ParentsKnown.linkStep (h : ParentsKnown L) (hpid : core.pid ∈ L.keys)
    (hstep : LinkStep core L L') : ParentsKnown L' := by
  cases hstep with
  | same => exact h
  | appeared => exact h.appear _
  | @child c _ _ _ =>
    intro p q hq
    rw [Links.parent_setParent Links.mem_keys_appear_self] at hq
    rw [Links.keys_setParent]
    split at hq
    · cases hq
      exact Links.mem_keys_appear.mpr (.inr hpid)
    · exact h.appear c p q hq

theorem ParentsKnown.lineStep {u : UnfinishedBatches} {o : Option BatchLetCore}
    (h : ParentsKnown L) (hstep : LineStep u o L L') : ParentsKnown L' := by
  cases hstep with
  | same => exact h
  | appeared pid => exact h.appear pid
  | core _ _ hlink => exact (h.appear _).linkStep Links.mem_keys_appear_self hlink

end

/-! ## The lines -/

section
variable {env : Env} {tracer : Tracer} {s s' : Loop}

/-- What holds in every state of a log. -/
structure SoundLoop (env : Env) (s : Loop) : Prop where
  cached : CacheBelongs s.world.objects
  known : StacksKnown s.world.store
  scanned : Scanned env s.world.objects
  present : Present s.world
  parents : ParentsKnown s.world.objects.links

theorem soundLoop_init : SoundLoop env .init where
  cached _ _ _ h := nomatch h
  known _ _ _ h := absurd h List.not_mem_nil
  scanned _ h := absurd h List.not_mem_nil
  present _ _ h := nomatch h
  parents _ _ h := nomatch (h : none = some _)

/-- A line keeps it, also when it makes the loop process an earlier core again. -/
theorem SoundLoop.line (h : SoundLoop env s) {line : Text × ℕ}
    (hrun : (processLine env tracer line).run s = (.ok (), s')) : SoundLoop env s' := by
  obtain ⟨hlinks, hpresent⟩ := lineStep_of_run h.present hrun
  have hparents : ParentsKnown s'.world.objects.links := h.parents.lineStep hlinks
  cases hparse : parseLine env.topProcessId tracer line.1 with
  | ok o =>
    cases o with
    | some core =>
      obtain ⟨r, hprocess, -⟩ := run_processLine_of_core hparse hrun
      have hstep := factoryStep_of_processCore hprocess
      exact ⟨cacheBelongs_of_factoryStep hstep (keepsCache_admitted core h.cached),
        StacksKnown.factoryStep (h.known.addCore core) hstep
          (s.world.store.core?_addCore_nextId core),
        scanned_of_factoryStep hstep (scanned_admitted h.scanned core), hpresent, hparents⟩
    | none =>
      obtain ⟨s₁, r, s₂, hread, hnext, rfl⟩ := run_processLine hrun
      obtain rfl := run_readCore_of_none hparse hread
      rw [run_nextBatch_none rfl] at hnext
      cases hnext
      exact ⟨h.cached, h.known, h.scanned, hpresent, hparents⟩
  | error e =>
    obtain ⟨s₁, r, s₂, hread, hnext, rfl⟩ := run_processLine hrun
    obtain rfl := run_readCore_of_parseLine_error hparse hread
    rcases run_nextBatch_eq_ok hnext with ⟨-, rfl, -⟩ | ⟨id, core, w, -, hc, hfac, rfl⟩
    · exact ⟨h.cached, h.known, h.scanned, hpresent, hparents⟩
    · have hstep := factoryStep_of_run hc hfac
      exact ⟨cacheBelongs_of_factoryStep hstep h.cached, h.known.factoryStep hstep hc,
        scanned_of_factoryStep hstep h.scanned, hpresent, hparents⟩

/-- **It holds in every state that some lines reach.** -/
theorem soundLoop_of_lines {lines : List (Text × ℕ)}
    (hrun : (Py.each (processLine env tracer) lines).run .init = (.ok (), s)) : SoundLoop env s :=
  Py.each_rule (fun _ v => SoundLoop env v) soundLoop_init
    (fun _ _ _ _ _ _ hv hline => hv.line hline) hrun

end

end Survol.Dockit
