import Survol.Lib.Effect

/-!
# Total correctness of computations

`Triple P m Q` says that from a state with `P` the computation `m` returns a value, raises nothing,
and that the value and the state after have `Q`.

## Main results

* `Triple.pure`, `Triple.modify`, `Triple.bind`, `Triple.ite`, `Triple.each` — the rules.
* `Triple.pre`, `Triple.post` — the rule of consequence.
-/

namespace Py

variable {ε σ α β : Type}

/-- From a state with `P`, the computation returns, and `Q` holds after. -/
def Triple (P : σ → Prop) (m : Py ε σ α) (Q : α → σ → Prop) : Prop :=
  ∀ w, P w → ∃ a w', m.run w = (.ok a, w') ∧ Q a w'

namespace Triple

variable {P P' : σ → Prop} {Q Q' : α → σ → Prop} {m : Py ε σ α}

theorem pure {a : α} (h : ∀ w, P w → Q a w) : Triple P (Pure.pure a : Py ε σ α) Q :=
  fun w hw => ⟨a, w, rfl, h w hw⟩

theorem modify {f : σ → σ} {Q : Unit → σ → Prop} (h : ∀ w, P w → Q () (f w)) :
    Triple P (Py.modify f : Py ε σ Unit) Q :=
  fun w hw => ⟨(), f w, rfl, h w hw⟩

theorem pre (hm : Triple P m Q) (h : ∀ w, P' w → P w) : Triple P' m Q :=
  fun w hw => hm w (h w hw)

theorem post (hm : Triple P m Q) (h : ∀ a w, Q a w → Q' a w) : Triple P m Q' := by
  intro w hw
  obtain ⟨a, w', hrun, hq⟩ := hm w hw
  exact ⟨a, w', hrun, h a w' hq⟩

/-- A fact that is not about the state. -/
theorem of_and {c : Prop} (h : c → Triple P m Q) : Triple (fun w => P w ∧ c) m Q :=
  fun w hw => h hw.2 w hw.1

/-- What holds between two computations. -/
theorem bind {f : α → Py ε σ β} {R : β → σ → Prop} (hm : Triple P m Q)
    (hf : ∀ a, Triple (Q a) (f a) R) : Triple P (m >>= f) R := by
  intro w hw
  obtain ⟨a, w', hrun, hq⟩ := hm w hw
  obtain ⟨b, w'', hrun', hr⟩ := hf a w' hq
  exact ⟨b, w'', by rw [run_bind_of_ok hrun, hrun'], hr⟩

theorem ite {c : Prop} [Decidable c] {m' : Py ε σ α} (h : c → Triple P m Q)
    (h' : ¬c → Triple P m' Q) : Triple P (if c then m else m') Q := by
  split
  · exact h ‹_›
  · exact h' ‹_›

/-- What a loop has done so far. -/
theorem each {f : α → Py ε σ Unit} {I : List α → σ → Prop} {l : List α}
    (h : ∀ done a, a ∈ l → Triple (I done) (f a) fun _ => I (done ++ [a])) (done : List α) :
    Triple (I done) (Py.each f l) fun _ => I (done ++ l) := by
  induction l generalizing done with
  | nil =>
    rw [each_nil, List.append_nil]
    exact pure fun _ hw => hw
  | cons a l ih =>
    rw [List.append_cons]
    exact bind (h done a List.mem_cons_self) fun _ =>
      ih (fun done b hb => h done b (List.mem_cons_of_mem a hb)) (done ++ [a])

end Triple

end Py
