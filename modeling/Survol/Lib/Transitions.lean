import Mathlib.Logic.Relation
import Mathlib.Data.List.Basic

/-!
# Transition systems

A system is given by its partial step: the action that is chosen either cannot be done, or leads
to one state. A run is a list of actions, chosen in any way.

## Main definitions

* `Transitions.run step s as` — the state after the actions `as`, if they can be done.
* `Transitions.Keeps step I` — each step keeps the property `I`.
* `Transitions.Reaches step p s s'` — some actions with the property `p` lead from `s` to `s'`.

## Main results

* `Keeps.run` — what each step keeps, each run keeps.
* `reaches_iff_run` — to be reached is to be the end of a run.
-/

namespace Transitions

variable {σ α : Type} {step : σ → α → Option σ} {p : α → Prop} {s s' s'' : σ}

/-- The state after some actions, if they can be done. -/
def run (step : σ → α → Option σ) : σ → List α → Option σ
  | s, [] => some s
  | s, a :: as => (step s a).bind fun s' => run step s' as

@[simp] theorem run_nil (step : σ → α → Option σ) (s : σ) : run step s [] = some s := rfl

theorem run_cons (step : σ → α → Option σ) (s : σ) (a : α) (as : List α) :
    run step s (a :: as) = (step s a).bind fun s' => run step s' as := rfl

theorem run_append (step : σ → α → Option σ) (s : σ) (as bs : List α) :
    run step s (as ++ bs) = (run step s as).bind fun s' => run step s' bs := by
  induction as generalizing s with
  | nil => rfl
  | cons a as ih =>
    rw [List.cons_append, run_cons, run_cons, Option.bind_assoc]
    exact congrArg _ (funext fun s' => ih s')

/-- Each step keeps a property. -/
def Keeps (step : σ → α → Option σ) (I : σ → Prop) : Prop :=
  ∀ s a s', step s a = some s' → I s → I s'

theorem Keeps.run {I : σ → Prop} (h : Keeps step I) {as : List α}
    (hrun : run step s as = some s') (hs : I s) : I s' := by
  induction as generalizing s with
  | nil =>
    cases hrun
    exact hs
  | cons a as ih =>
    obtain ⟨s₁, hstep, hrest⟩ := Option.bind_eq_some_iff.mp hrun
    exact ih hrest (h s a s₁ hstep hs)

/-- A property that is kept where another one holds is kept with it. -/
theorem Keeps.and {I J : σ → Prop} (hI : Keeps step I)
    (hJ : ∀ s a s', step s a = some s' → I s → J s → J s') : Keeps step fun s => I s ∧ J s :=
  fun s a s' hstep hs => ⟨hI s a s' hstep hs.1, hJ s a s' hstep hs.1 hs.2⟩

/-- Some actions with a property lead from a state to another one. -/
def Reaches (step : σ → α → Option σ) (p : α → Prop) : σ → σ → Prop :=
  Relation.ReflTransGen fun s s' => ∃ a, p a ∧ step s a = some s'

namespace Reaches

theorem refl (s : σ) : Reaches step p s s := Relation.ReflTransGen.refl

theorem trans (h : Reaches step p s s') (h' : Reaches step p s' s'') : Reaches step p s s'' :=
  Relation.ReflTransGen.trans h h'

theorem head {a : α} (ha : p a) (hstep : step s a = some s') (h : Reaches step p s' s'') :
    Reaches step p s s'' :=
  Relation.ReflTransGen.head ⟨a, ha, hstep⟩ h

theorem of_step {a : α} (ha : p a) (hstep : step s a = some s') : Reaches step p s s' :=
  head ha hstep (refl s')

theorem keeps {I : σ → Prop} (h : Reaches step p s s') (hI : Keeps step I) (hs : I s) : I s' := by
  induction h with
  | refl => exact hs
  | tail _ hlast ih =>
    obtain ⟨a, -, hstep⟩ := hlast
    exact hI _ a _ hstep ih

end Reaches

/-- What is reached is the end of a run of such actions. -/
theorem reaches_iff_run :
    Reaches step p s s' ↔ ∃ as, (∀ a ∈ as, p a) ∧ run step s as = some s' := by
  constructor
  · intro h
    induction h using Relation.ReflTransGen.head_induction_on with
    | refl => exact ⟨[], by simp, rfl⟩
    | head hfirst _ ih =>
      obtain ⟨a, ha, hstep⟩ := hfirst
      obtain ⟨as, has, hrun⟩ := ih
      refine ⟨a :: as, List.forall_mem_cons.mpr ⟨ha, has⟩, ?_⟩
      rw [run_cons, hstep]
      exact hrun
  · rintro ⟨as, has, hrun⟩
    induction as generalizing s with
    | nil =>
      cases hrun
      exact .refl _
    | cons a as ih =>
      obtain ⟨s₁, hstep, hrest⟩ := Option.bind_eq_some_iff.mp hrun
      obtain ⟨ha, has⟩ := List.forall_mem_cons.mp has
      exact (ih has hrest).head ha hstep

end Transitions
