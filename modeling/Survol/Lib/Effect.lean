import Mathlib.Order.Defs.Unbundled
import Mathlib.Data.List.Induction

/-!
# Computations that change a state and may raise

`Py ε σ α` is a computation over a state `σ` that returns a value of `α` or
raises an exception of `ε`. As in the scripting languages it models, the changes
made before an exception stay.

Two ways of reasoning about such computations go through sequencing, and so need
to be shown for the primitive steps only. `Keeps R` relates the state before to
the state after, for a reflexive and transitive `R`. `Agree P` compares two runs
from states related by `P`: when both return, they return the same value and end
in related states. `Built S m` says that `m` is put together from the primitive
steps of `S`; `Keeps.of_built` and `Agree.of_built` carry both to it. What a loop
keeps is shown by `each_rule`.

## Main definitions

* `Py`, `Py.raise`, `Py.get`, `Py.modify`, `Py.catching`, `Py.forEach`, `Py.each`.
* `Keeps R m` — `m` only moves along `R`.
* `NeverRaises p m` — `m` raises no exception of a kind.
* `Agree P m` — `m` does not see the difference between `P`-related states.
* `Blind P m` — nor does it when it raises.
* `Built S m` — `m` uses the primitive steps of `S` only.
-/

universe u

/-- A computation over the state `σ` that returns an `α` or raises an `ε`. -/
structure Py (ε σ α : Type) where
  /-- The result, and the state after. -/
  run : σ → Except ε α × σ

namespace Py

variable {ε σ α β : Type}

/-- Return a value. -/
protected def pure (a : α) : Py ε σ α := ⟨fun w => (.ok a, w)⟩

/-- Continue with the value, unless an exception is raised. -/
protected def bind (m : Py ε σ α) (f : α → Py ε σ β) : Py ε σ β :=
  ⟨fun w => match m.run w with
    | (.ok a, w') => (f a).run w'
    | (.error e, w') => (.error e, w')⟩

instance : Monad (Py ε σ) where
  pure := Py.pure
  bind := Py.bind

/-- Raise an exception. -/
def raise (e : ε) : Py ε σ α := ⟨fun w => (.error e, w)⟩

/-- The state. -/
def get : Py ε σ σ := ⟨fun w => (.ok w, w)⟩

/-- Change the state. -/
def modify (f : σ → σ) : Py ε σ Unit := ⟨fun w => (.ok (), f w)⟩

/-- The value of an option, or an exception. -/
def ofOption (e : ε) : Option α → Py ε σ α
  | some a => Pure.pure a
  | none => raise e

/-- Run `m`, and `h` if it raises an exception of the kind `p`. -/
def catching (p : ε → Bool) (m : Py ε σ α) (h : Py ε σ α) : Py ε σ α :=
  ⟨fun w => match m.run w with
    | (.error e, w') => if p e then h.run w' else (.error e, w')
    | r => r⟩

/-- Run a computation on a part of the state. -/
def zoom {τ : Type} (part : τ → σ) (put : τ → σ → τ) (m : Py ε σ α) : Py ε τ α :=
  ⟨fun w => ((m.run (part w)).1, put w (m.run (part w)).2)⟩

/-- The values of a computation on the elements of a list, in order. -/
def forEach (f : α → Py ε σ β) : List α → Py ε σ (List β)
  | [] => Pure.pure []
  | a :: l => do
    let b ← f a
    let bs ← forEach f l
    Pure.pure (b :: bs)

/-- The loop `for a in l: f(a)`. -/
def each (f : α → Py ε σ Unit) : List α → Py ε σ Unit
  | [] => Pure.pure ()
  | a :: l => do
    f a
    each f l

@[simp] theorem run_pure (a : α) (w : σ) : (Pure.pure a : Py ε σ α).run w = (.ok a, w) := rfl

theorem run_bind (m : Py ε σ α) (f : α → Py ε σ β) (w : σ) :
    (m >>= f).run w = match m.run w with
      | (.ok a, w') => (f a).run w'
      | (.error e, w') => (.error e, w') := rfl

theorem run_map (f : α → β) (m : Py ε σ α) (w : σ) :
    (f <$> m).run w = ((m.run w).1.map f, (m.run w).2) := by
  change (m >>= fun a => Pure.pure (f a)).run w = _
  rw [run_bind]
  rcases m.run w with ⟨_ | _, _⟩ <;> rfl

@[simp] theorem run_raise (e : ε) (w : σ) : (raise e : Py ε σ α).run w = (.error e, w) := rfl

@[simp] theorem run_get (w : σ) : (get : Py ε σ σ).run w = (.ok w, w) := rfl

@[simp] theorem run_modify (f : σ → σ) (w : σ) :
    (modify f : Py ε σ Unit).run w = (.ok (), f w) := rfl

@[simp] theorem run_ofOption_some (e : ε) (a : α) (w : σ) :
    (ofOption e (some a) : Py ε σ α).run w = (.ok a, w) := rfl

@[simp] theorem run_ofOption_none (e : ε) (w : σ) :
    (ofOption e none : Py ε σ α).run w = (.error e, w) := rfl

@[simp] theorem run_get_bind (f : σ → Py ε σ β) (w : σ) :
    (get >>= f).run w = (f w).run w := rfl

@[simp] theorem run_modify_bind (g : σ → σ) (f : Unit → Py ε σ β) (w : σ) :
    (modify g >>= f).run w = (f ()).run (g w) := rfl

@[simp] theorem run_raise_bind (e : ε) (f : α → Py ε σ β) (w : σ) :
    (raise e >>= f).run w = (.error e, w) := rfl

@[simp] theorem run_pure_bind (a : α) (f : α → Py ε σ β) (w : σ) :
    ((Pure.pure a : Py ε σ α) >>= f).run w = (f a).run w := rfl

@[simp] theorem run_ofOption_some_bind (e : ε) (a : α) (f : α → Py ε σ β) (w : σ) :
    (ofOption e (some a) >>= f).run w = (f a).run w := rfl

theorem run_bind_of_ok {m : Py ε σ α} {w w' : σ} {a : α} (h : m.run w = (.ok a, w'))
    (f : α → Py ε σ β) : (m >>= f).run w = (f a).run w' := by
  rw [run_bind, h]

theorem run_bind_of_error {m : Py ε σ α} {w w' : σ} {e : ε} (h : m.run w = (.error e, w'))
    (f : α → Py ε σ β) : (m >>= f).run w = (.error e, w') := by
  rw [run_bind, h]

/-- A sequence that returns: both parts do. -/
theorem run_bind_eq_ok {m : Py ε σ α} {f : α → Py ε σ β} {w w'' : σ} {b : β} :
    (m >>= f).run w = (.ok b, w'') ↔
      ∃ a w', m.run w = (.ok a, w') ∧ (f a).run w' = (.ok b, w'') := by
  rw [run_bind]
  rcases m.run w with ⟨_ | a, w'⟩ <;> simp

/-! ## Loops -/

@[simp] theorem each_nil (f : α → Py ε σ Unit) : each f [] = Pure.pure () := rfl

theorem run_each_cons (f : α → Py ε σ Unit) (a : α) (l : List α) (w : σ) :
    (each f (a :: l)).run w = match (f a).run w with
      | (.ok _, w') => (each f l).run w'
      | (.error e, w') => (.error e, w') := by
  rw [each, run_bind]
  rcases (f a).run w with ⟨_ | _, w'⟩ <;> rfl

theorem run_each_append (f : α → Py ε σ Unit) (l l' : List α) (w : σ) :
    (each f (l ++ l')).run w = match (each f l).run w with
      | (.ok _, w') => (each f l').run w'
      | (.error e, w') => (.error e, w') := by
  induction l generalizing w with
  | nil => rfl
  | cons a l ih =>
    rw [List.cons_append, run_each_cons, run_each_cons]
    rcases (f a).run w with ⟨_ | _, w'⟩
    · rfl
    · exact ih w'

theorem each_map (f : β → Py ε σ Unit) (g : α → β) (l : List α) :
    each f (l.map g) = each (fun a => f (g a)) l := by
  induction l with
  | nil => rfl
  | cons a l ih => rw [List.map_cons, each, each, ih]

theorem each_congr {f g : α → Py ε σ Unit} {l : List α} (h : ∀ a ∈ l, f a = g a) :
    each f l = each g l := by
  induction l with
  | nil => rfl
  | cons a l ih =>
    rw [each, each, h a List.mem_cons_self, ih fun b hb => h b (List.mem_cons_of_mem a hb)]

/-- The rule of loops: what holds before the first element and is kept by each one
holds at the end, when the loop returns. -/
theorem each_rule {f : α → Py ε σ Unit} {l : List α} (P : List α → σ → Prop) {w w' : σ}
    (hinit : P [] w)
    (hstep : ∀ l₁ a l₂ v v', l = l₁ ++ a :: l₂ → P l₁ v → (f a).run v = (.ok (), v') →
      P (l₁ ++ [a]) v')
    (hrun : (each f l).run w = (.ok (), w')) : P l w' := by
  induction l using List.reverseRecOn generalizing w' with
  | nil =>
    cases hrun
    exact hinit
  | append_singleton l a ih =>
    rw [run_each_append] at hrun
    rcases hl : (each f l).run w with ⟨_ | _, v⟩ <;> rw [hl] at hrun
    · cases hrun
    · simp only [run_each_cons] at hrun
      rcases ha : (f a).run v with ⟨_ | _, v'⟩ <;> rw [ha] at hrun
      · cases hrun
      · cases hrun
        refine hstep l a [] v _ rfl (ih (fun l₁ b l₂ u u' hl => ?_) hl) ha
        exact hstep l₁ b (l₂ ++ [a]) u u' (by rw [hl, List.append_assoc, List.cons_append])

/-! ## One run -/

/-- The computation only moves along `R`, whether it returns or raises. -/
def Keeps (R : σ → σ → Prop) (m : Py ε σ α) : Prop := ∀ w, R w (m.run w).2

section
variable {R : σ → σ → Prop}

theorem Keeps.modify {f : σ → σ} (h : ∀ w, R w (f w)) : Keeps R (Py.modify f : Py ε σ Unit) := h

theorem Keeps.bind [IsTrans σ R] {m : Py ε σ α} {f : α → Py ε σ β} (hm : Keeps R m)
    (hf : ∀ a, Keeps R (f a)) : Keeps R (m >>= f) := by
  intro w
  have h := hm w
  rw [run_bind]
  revert h
  rcases m.run w with ⟨e | a, w'⟩ <;> intro h
  · exact h
  · exact Trans.trans h (hf a w')

theorem Keeps.ite {c : Prop} [Decidable c] {m m' : Py ε σ α} (h : Keeps R m) (h' : Keeps R m') :
    Keeps R (if c then m else m') := by
  split
  · exact h
  · exact h'

variable [Std.Refl R]

theorem Keeps.pure (a : α) : Keeps R (Pure.pure a : Py ε σ α) := fun w => Std.Refl.refl w

theorem Keeps.raise (e : ε) : Keeps R (Py.raise e : Py ε σ α) := fun w => Std.Refl.refl w

theorem Keeps.get : Keeps R (Py.get : Py ε σ σ) := fun w => Std.Refl.refl w

theorem Keeps.ofOption (e : ε) (o : Option α) : Keeps R (Py.ofOption e o : Py ε σ α) := by
  cases o
  · exact Keeps.raise e
  · exact Keeps.pure _

theorem Keeps.forEach [IsTrans σ R] {f : α → Py ε σ β} (hf : ∀ a, Keeps R (f a)) :
    ∀ l : List α, Keeps R (Py.forEach f l)
  | [] => Keeps.pure _
  | a :: l => (hf a).bind fun _ => (Keeps.forEach hf l).bind fun _ => Keeps.pure _

end

/-- The computation raises no exception of the kind `p`. -/
def NeverRaises (p : ε → Bool) (m : Py ε σ α) : Prop := ∀ w e, (m.run w).1 = .error e → p e = false

section
variable {p : ε → Bool}

theorem NeverRaises.pure (a : α) : NeverRaises p (Pure.pure a : Py ε σ α) := nofun

theorem NeverRaises.modify (f : σ → σ) : NeverRaises p (Py.modify f : Py ε σ Unit) := nofun

theorem NeverRaises.raise {e : ε} (h : p e = false) : NeverRaises p (Py.raise e : Py ε σ α) := by
  rintro w _ ⟨⟩
  exact h

theorem NeverRaises.ofOption {e : ε} (h : p e = false) (o : Option α) :
    NeverRaises p (Py.ofOption e o : Py ε σ α) := by
  cases o
  · exact NeverRaises.raise h
  · exact NeverRaises.pure _

theorem NeverRaises.bind {m : Py ε σ α} {f : α → Py ε σ β} (hm : NeverRaises p m)
    (hf : ∀ a, NeverRaises p (f a)) : NeverRaises p (m >>= f) := by
  intro w e
  rw [run_bind]
  rcases h : m.run w with ⟨e' | a, w'⟩
  · rintro ⟨⟩
    exact hm w e (by rw [h])
  · exact hf a w' e

end

/-! ## Two runs -/

/-- From `P`-related states, two runs that return give the same value and end in
`P`-related states. -/
def Agree (P : σ → σ → Prop) (m : Py ε σ α) : Prop :=
  ∀ {w₁ w₂ w₁' w₂' : σ} {a₁ a₂ : α}, P w₁ w₂ → m.run w₁ = (.ok a₁, w₁') →
    m.run w₂ = (.ok a₂, w₂') → a₁ = a₂ ∧ P w₁' w₂'

section
variable {P : σ → σ → Prop}

theorem Agree.pure (a : α) : Agree P (Pure.pure a : Py ε σ α) := by
  intro w₁ w₂ w₁' w₂' a₁ a₂ h h₁ h₂
  simp only [run_pure, Prod.mk.injEq, Except.ok.injEq] at h₁ h₂
  obtain ⟨rfl, rfl⟩ := h₁
  obtain ⟨rfl, rfl⟩ := h₂
  exact ⟨rfl, h⟩

theorem Agree.raise (e : ε) : Agree P (Py.raise e : Py ε σ α) := by
  intro w₁ w₂ w₁' w₂' a₁ a₂ _ h₁ _
  simp at h₁

theorem Agree.ofOption (e : ε) (o : Option α) : Agree P (Py.ofOption e o : Py ε σ α) := by
  cases o
  · exact Agree.raise e
  · exact Agree.pure _

theorem Agree.modify {f : σ → σ} (h : ∀ w₁ w₂, P w₁ w₂ → P (f w₁) (f w₂)) :
    Agree P (Py.modify f : Py ε σ Unit) := by
  intro w₁ w₂ w₁' w₂' a₁ a₂ hw h₁ h₂
  simp only [run_modify, Prod.mk.injEq] at h₁ h₂
  obtain ⟨-, rfl⟩ := h₁
  obtain ⟨-, rfl⟩ := h₂
  exact ⟨rfl, h _ _ hw⟩

theorem Agree.bind {m : Py ε σ α} {f : α → Py ε σ β} (hm : Agree P m)
    (hf : ∀ a, Agree P (f a)) : Agree P (m >>= f) := by
  intro w₁ w₂ w₁' w₂' b₁ b₂ hw h₁ h₂
  rw [run_bind_eq_ok] at h₁ h₂
  obtain ⟨a₁, v₁, hm₁, hf₁⟩ := h₁
  obtain ⟨a₂, v₂, hm₂, hf₂⟩ := h₂
  obtain ⟨rfl, hv⟩ := hm hw hm₁ hm₂
  exact hf a₁ hv hf₁ hf₂

theorem Agree.forEach {f : α → Py ε σ β} (hf : ∀ a, Agree P (f a)) :
    ∀ l : List α, Agree P (Py.forEach f l)
  | [] => Agree.pure _
  | a :: l => Agree.bind (hf a) fun _ => Agree.bind (Agree.forEach hf l) fun _ => Agree.pure _

/-- A computation whose returned value does not depend on the state, and that
only moves along a relation kept by `P`. -/
theorem Agree.of_run {m : Py ε σ α}
    (h : ∀ w₁ w₂, P w₁ w₂ → (m.run w₁).1 = (m.run w₂).1 ∧ P (m.run w₁).2 (m.run w₂).2) :
    Agree P m := by
  intro w₁ w₂ w₁' w₂' a₁ a₂ hw h₁ h₂
  obtain ⟨ha, hP⟩ := h w₁ w₂ hw
  rw [h₁, h₂] at ha hP
  exact ⟨Except.ok.inj ha, hP⟩

end

/-- Two runs from `P`-related states end in the same way, also when they raise. -/
def Blind (P : σ → σ → Prop) (m : Py ε σ α) : Prop :=
  ∀ w₁ w₂, P w₁ w₂ → (m.run w₁).1 = (m.run w₂).1 ∧ P (m.run w₁).2 (m.run w₂).2

section
variable {P : σ → σ → Prop}

theorem Blind.agree {m : Py ε σ α} (h : Blind P m) : Agree P m := Agree.of_run h

theorem Blind.pure (a : α) : Blind P (Pure.pure a : Py ε σ α) := fun _ _ h => ⟨rfl, h⟩

theorem Blind.raise (e : ε) : Blind P (Py.raise e : Py ε σ α) := fun _ _ h => ⟨rfl, h⟩

theorem Blind.ofOption (e : ε) (o : Option α) : Blind P (Py.ofOption e o : Py ε σ α) := by
  cases o
  · exact Blind.raise e
  · exact Blind.pure _

theorem Blind.modify {f : σ → σ} (h : ∀ w₁ w₂, P w₁ w₂ → P (f w₁) (f w₂)) :
    Blind P (Py.modify f : Py ε σ Unit) := fun w₁ w₂ hw => ⟨rfl, h w₁ w₂ hw⟩

theorem Blind.bind {m : Py ε σ α} {f : α → Py ε σ β} (hm : Blind P m)
    (hf : ∀ a, Blind P (f a)) : Blind P (m >>= f) := by
  intro w₁ w₂ hw
  obtain ⟨hres, hw'⟩ := hm w₁ w₂ hw
  rw [run_bind, run_bind]
  rcases h₁ : m.run w₁ with ⟨_ | a, v₁⟩ <;> rcases h₂ : m.run w₂ with ⟨_ | b, v₂⟩ <;>
    rw [h₁, h₂] at hres hw' <;> cases hres
  · exact ⟨rfl, hw'⟩
  · exact hf a v₁ v₂ hw'

end

/-! ## Computations put together from given steps -/

/-- The computation is put together from the steps of `S`. -/
inductive Built (S : (β : Type) → Py ε σ β → Prop) : {α : Type} → Py ε σ α → Prop
  | step {α : Type} {m : Py ε σ α} (h : S α m) : Built S m
  | pure {α : Type} (a : α) : Built S (Pure.pure a : Py ε σ α)
  | raise {α : Type} (e : ε) : Built S (Py.raise e : Py ε σ α)
  | bind {α β : Type} {m : Py ε σ α} {f : α → Py ε σ β} (hm : Built S m)
      (hf : ∀ a, Built S (f a)) : Built S (m >>= f)

section
variable {S : (β : Type) → Py ε σ β → Prop}

theorem Built.ofOption (e : ε) (o : Option α) : Built S (Py.ofOption e o : Py ε σ α) := by
  cases o
  · exact .raise e
  · exact .pure _

theorem Built.map (f : α → β) {m : Py ε σ α} (hm : Built S m) : Built S (f <$> m) :=
  .bind hm fun a => .pure (f a)

theorem Built.ite {c : Prop} [Decidable c] {m m' : Py ε σ α} (h : Built S m) (h' : Built S m') :
    Built S (if c then m else m') := by
  split
  · exact h
  · exact h'

theorem Built.forEach {f : α → Py ε σ β} (hf : ∀ a, Built S (f a)) :
    ∀ l : List α, Built S (Py.forEach f l)
  | [] => .pure _
  | a :: l => .bind (hf a) fun _ => .bind (Built.forEach hf l) fun _ => .pure _

/-- More steps are allowed. -/
theorem Built.mono {T : (β : Type) → Py ε σ β → Prop} (h : ∀ β m, S β m → T β m)
    {m : Py ε σ α} (hm : Built S m) : Built T m := by
  induction hm with
  | step hs => exact .step (h _ _ hs)
  | pure a => exact .pure a
  | raise e => exact .raise e
  | bind _ _ ihm ihf => exact .bind ihm ihf

/-- What every step keeps, the computation keeps. -/
theorem Keeps.of_built {R : σ → σ → Prop} [Std.Refl R] [IsTrans σ R]
    (h : ∀ β m, S β m → Keeps R m) {m : Py ε σ α} (hm : Built S m) : Keeps R m := by
  induction hm with
  | step hs => exact h _ _ hs
  | pure a => exact Keeps.pure a
  | raise e => exact Keeps.raise e
  | bind _ _ ihm ihf => exact Keeps.bind ihm ihf

/-- If two runs of every step agree, two runs of the computation do. -/
theorem Agree.of_built {P : σ → σ → Prop}
    (h : ∀ β (m : Py ε σ β), S β m → Agree P m) {m : Py ε σ α} (hm : Built S m) :
    Agree P m := by
  induction hm with
  | step hs => exact h _ _ hs
  | pure a => exact Agree.pure a
  | raise e => exact Agree.raise e
  | bind _ _ ihm ihf => exact Agree.bind ihm ihf

end

end Py
