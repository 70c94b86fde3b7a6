import Survol.Lib.Dict
import Mathlib.Data.List.Perm.Basic

/-!
# Items that are grouped in dictionaries

A dictionary whose values hold several items, which may be dictionaries themselves. An item is
added to the value of its key, which is empty before.

## Main definitions

* `Dict.add d k f` — the value of `k` is changed by `f`, from the empty list when it is missing.
* `Dict.items g d` — the items of all the values.

## Main results

* `Dict.items_add_perm` — what is added to a value is added to the items.
* `Dict.forall_mem_add` — a property of the values is kept.
-/

namespace Dict

variable {κ ν β : Type}

/-- The items of the values. -/
def items (g : κ → List ν → List β) (d : Dict κ (List ν)) : List β :=
  d.flatMap fun e => g e.1 e.2

@[simp] theorem items_nil (g : κ → List ν → List β) : items g [] = [] := rfl

@[simp] theorem items_cons (g : κ → List ν → List β) (e : κ × List ν) (d : Dict κ (List ν)) :
    items g (e :: d) = g e.1 e.2 ++ items g d := List.flatMap_cons

variable [DecidableEq κ]

/-- The value of a key is changed, from an empty list when it is missing. -/
def add (d : Dict κ (List ν)) (k : κ) (f : List ν → List ν) : Dict κ (List ν) :=
  d.set k (f ((d.get? k).getD []))

/-- What is added to the value of a key is added to the items. -/
theorem items_add_perm {g : κ → List ν → List β} {k : κ} {f : List ν → List ν} {bs : List β}
    (hnil : g k [] = []) (hf : ∀ v, (g k (f v)).Perm (g k v ++ bs)) (d : Dict κ (List ν)) :
    (items g (add d k f)).Perm (items g d ++ bs) := by
  rw [add]
  induction d with
  | nil =>
    have h := hf []
    rw [hnil, List.nil_append] at h
    simpa [set] using h
  | cons e d ih =>
    obtain ⟨k₀, v₀⟩ := e
    rw [get?_cons, set]
    by_cases hk : k₀ = k
    · subst hk
      rw [if_pos rfl, if_pos rfl, Option.getD_some, items_cons, items_cons, List.append_assoc]
      refine ((hf v₀).append_right _).trans ?_
      rw [List.append_assoc]
      exact List.Perm.append_left _ List.perm_append_comm
    · rw [if_neg hk, if_neg hk, items_cons, items_cons, List.append_assoc]
      exact ih.append_left _

/-- A property of the values is kept, when it holds of the changed value. -/
theorem forall_mem_add {P : List ν → Prop} {d : Dict κ (List ν)} (hd : ∀ e ∈ d, P e.2) (k : κ)
    {f : List ν → List ν} (hnil : P (f [])) (hf : ∀ v, P v → P (f v)) :
    ∀ e ∈ add d k f, P e.2 := by
  intro e he
  rcases mem_of_mem_set he with rfl | he
  · cases hget : d.get? k with
    | none => exact hnil
    | some v => exact hf v (hd _ (mem_of_get?_eq_some hget))
  · exact hd e he

theorem add_ne_nil (d : Dict κ (List ν)) (k : κ) (f : List ν → List ν) : add d k f ≠ [] := by
  rw [add]
  cases d with
  | nil => exact List.cons_ne_nil _ _
  | cons e d =>
    rw [set]
    split <;> exact List.cons_ne_nil _ _

end Dict
