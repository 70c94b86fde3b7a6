import Mathlib.Data.List.Basic

/-!
# Dictionaries

A dictionary is the list of its items, in the order in which the keys were first
set. A key set again keeps its place.

## Main definitions

* `Dict.get? d k`, `Dict.set d k v`, `Dict.erase d k`, `Dict.keys d`.
* `Dict.update d k f` — change the value of a key that is there.
* `Dict.mapVals g d` — change every value.
-/

/-- A dictionary from `κ` to `ν`: its items, in insertion order. -/
abbrev Dict (κ ν : Type) := List (κ × ν)

namespace Dict

variable {κ ν : Type} [DecidableEq κ]

/-- The value of a key. -/
def get? : Dict κ ν → κ → Option ν
  | [], _ => none
  | (k, v) :: d, k' => if k = k' then some v else get? d k'

/-- Set the value of a key. -/
def set : Dict κ ν → κ → ν → Dict κ ν
  | [], k', v' => [(k', v')]
  | (k, v) :: d, k', v' => if k = k' then (k, v') :: d else (k, v) :: set d k' v'

/-- Change the value of a key, if it is there. -/
def update : Dict κ ν → κ → (ν → ν) → Dict κ ν
  | [], _, _ => []
  | (k, v) :: d, k', f => if k = k' then (k, f v) :: d else (k, v) :: update d k' f

/-- Remove a key. -/
def erase (d : Dict κ ν) (k : κ) : Dict κ ν := d.filter (·.1 ≠ k)

/-- Change every value. -/
def mapVals {μ : Type} (g : ν → μ) (d : Dict κ ν) : Dict κ μ := d.map fun p => (p.1, g p.2)

/-- The keys, in insertion order. -/
def keys (d : Dict κ ν) : List κ := d.map Prod.fst

@[simp] theorem get?_nil (k : κ) : get? ([] : Dict κ ν) k = none := rfl

theorem get?_cons (k : κ) (v : ν) (d : Dict κ ν) (k' : κ) :
    get? ((k, v) :: d) k' = if k = k' then some v else get? d k' := rfl

@[simp] theorem get?_set (d : Dict κ ν) (k : κ) (v : ν) (k' : κ) :
    get? (set d k v) k' = if k = k' then some v else get? d k' := by
  induction d with
  | nil => rfl
  | cons p d ih =>
    obtain ⟨k₀, v₀⟩ := p
    by_cases h : k₀ = k
    · subst h
      simp only [set, if_true, get?_cons]
      split <;> rfl
    · simp only [set, if_neg h, get?_cons, ih]
      by_cases h' : k₀ = k'
      · subst h'
        simp [Ne.symm h]
      · simp [h']

/-- The last value of a key is the one that stays. -/
@[simp] theorem set_set (d : Dict κ ν) (k : κ) (v v' : ν) : set (set d k v) k v' = set d k v' := by
  induction d with
  | nil => simp [set]
  | cons p d ih =>
    obtain ⟨k₀, v₀⟩ := p
    by_cases h : k₀ = k <;> simp [set, h, ih]

@[simp] theorem get?_update (d : Dict κ ν) (k : κ) (f : ν → ν) (k' : κ) :
    get? (update d k f) k' = if k = k' then (get? d k').map f else get? d k' := by
  induction d with
  | nil => simp [update]
  | cons p d ih =>
    obtain ⟨k₀, v₀⟩ := p
    by_cases h : k₀ = k
    · subst h
      simp only [update, if_true, get?_cons]
      split <;> rfl
    · simp only [update, if_neg h, get?_cons, ih]
      by_cases h' : k₀ = k'
      · subst h'
        simp [Ne.symm h]
      · simp [h']

@[simp] theorem get?_erase (d : Dict κ ν) (k k' : κ) :
    get? (erase d k) k' = if k = k' then none else get? d k' := by
  induction d with
  | nil => simp [erase]
  | cons p d ih =>
    obtain ⟨k₀, v₀⟩ := p
    simp only [erase, List.filter_cons] at ih ⊢
    by_cases h : k₀ = k
    · subst h
      simp only [ne_eq, not_true_eq_false, decide_false, Bool.false_eq_true, if_false, ih,
        get?_cons]
      split <;> rfl
    · simp only [ne_eq, h, not_false_eq_true, decide_true, if_true, get?_cons, ih]
      by_cases h' : k₀ = k'
      · subst h'
        simp [Ne.symm h]
      · simp [h']

@[simp] theorem keys_update (d : Dict κ ν) (k : κ) (f : ν → ν) : keys (update d k f) = keys d := by
  induction d with
  | nil => rfl
  | cons p d ih =>
    obtain ⟨k₀, v₀⟩ := p
    simp only [update, keys] at ih ⊢
    split <;> simp [ih]

theorem mem_of_get?_eq_some {d : Dict κ ν} {k : κ} {v : ν} (h : get? d k = some v) :
    (k, v) ∈ d := by
  induction d with
  | nil => simp at h
  | cons p d ih =>
    obtain ⟨k₀, v₀⟩ := p
    rw [get?_cons] at h
    split at h
    · rename_i hk
      simp only [Option.some.injEq] at h
      simp [hk, h]
    · exact List.mem_cons_of_mem _ (ih h)

theorem get?_isSome_iff (d : Dict κ ν) (k : κ) : (get? d k).isSome ↔ k ∈ keys d := by
  induction d with
  | nil => simp [keys]
  | cons p d ih =>
    obtain ⟨k₀, v₀⟩ := p
    rw [get?_cons]
    by_cases h : k₀ = k
    · simp [h, keys]
    · simp only [h, if_false, ih, keys, List.map_cons, List.mem_cons, Ne.symm h, false_or]

theorem get?_eq_none_iff (d : Dict κ ν) (k : κ) : get? d k = none ↔ k ∉ keys d := by
  rw [← get?_isSome_iff, Option.not_isSome_iff_eq_none]

/-- A key set for the first time comes last. -/
theorem set_of_get?_eq_none {d : Dict κ ν} {k : κ} (h : get? d k = none) (v : ν) :
    set d k v = d ++ [(k, v)] := by
  induction d with
  | nil => rfl
  | cons p d ih =>
    obtain ⟨k₀, v₀⟩ := p
    rw [get?_cons] at h
    split at h
    · simp at h
    · rename_i hk
      simp [set, hk, ih h]

/-- Setting a key to its value changes nothing. -/
theorem set_of_get?_eq_some {d : Dict κ ν} {k : κ} {v : ν} (h : get? d k = some v) :
    set d k v = d := by
  induction d with
  | nil => simp at h
  | cons p d ih =>
    obtain ⟨k₀, v₀⟩ := p
    rw [get?_cons] at h
    split at h
    · rename_i hk
      simp only [Option.some.injEq] at h
      simp [set, hk, h]
    · rename_i hk
      simp [set, hk, ih h]

/-- Changing the value of a key that is there is setting it. -/
theorem update_of_get?_eq_some {d : Dict κ ν} {k : κ} {v : ν} (h : get? d k = some v)
    (f : ν → ν) : update d k f = set d k (f v) := by
  induction d with
  | nil => simp at h
  | cons p d ih =>
    obtain ⟨k₀, v₀⟩ := p
    rw [get?_cons] at h
    split at h
    · rename_i hk
      simp only [Option.some.injEq] at h
      simp [set, update, hk, h]
    · rename_i hk
      simp [set, update, hk, ih h]

theorem mem_keys_set (d : Dict κ ν) (k : κ) (v : ν) (k' : κ) :
    k' ∈ keys (set d k v) ↔ k' = k ∨ k' ∈ keys d := by
  rw [← get?_isSome_iff, ← get?_isSome_iff, get?_set]
  by_cases h : k = k'
  · simp [h]
  · simp [h, Ne.symm h]

theorem mem_of_mem_set {d : Dict κ ν} {k : κ} {v : ν} {e : κ × ν} (h : e ∈ set d k v) :
    e = (k, v) ∨ e ∈ d := by
  induction d with
  | nil =>
    rw [set, List.mem_singleton] at h
    exact .inl h
  | cons e' d ih =>
    obtain ⟨k', v'⟩ := e'
    rw [set] at h
    split at h
    · rename_i hk
      subst hk
      rcases List.mem_cons.mp h with h | h
      · exact .inl h
      · exact .inr (List.mem_cons_of_mem _ h)
    · rcases List.mem_cons.mp h with rfl | h
      · exact .inr List.mem_cons_self
      · exact (ih h).imp_right (List.mem_cons_of_mem _)

theorem keys_set_of_get?_eq_none {d : Dict κ ν} {k : κ} (h : get? d k = none) (v : ν) :
    keys (set d k v) = keys d ++ [k] := by
  rw [set_of_get?_eq_none h, keys, List.map_append]
  rfl

/-- An item is found by its key, when the keys are different. -/
theorem get?_of_mem {d : Dict κ ν} (hd : (keys d).Nodup) {k : κ} {v : ν} (h : (k, v) ∈ d) :
    get? d k = some v := by
  induction d with
  | nil => cases h
  | cons p d ih =>
    obtain ⟨k₀, v₀⟩ := p
    obtain ⟨hnot, hd⟩ := List.nodup_cons.mp hd
    rw [get?_cons]
    rcases List.mem_cons.mp h with heq | hmem
    · cases heq
      rw [if_pos rfl]
    · have hk : k ∈ keys d := List.mem_map.mpr ⟨(k, v), hmem, rfl⟩
      rw [if_neg (by rintro rfl; exact hnot hk), ih hd hmem]

section
variable {μ : Type}

omit [DecidableEq κ] in
@[simp] theorem keys_mapVals (g : ν → μ) (d : Dict κ ν) : keys (mapVals g d) = keys d := by
  simp [keys, mapVals]

@[simp] theorem get?_mapVals (g : ν → μ) (d : Dict κ ν) (k : κ) :
    get? (mapVals g d) k = (get? d k).map g := by
  induction d with
  | nil => rfl
  | cons p d ih =>
    obtain ⟨k₀, v₀⟩ := p
    change (if k₀ = k then some (g v₀) else get? (mapVals g d) k) = _
    rw [ih, get?_cons]
    split <;> rfl

/-- What is read of every value does not see a change of something else. -/
theorem mapVals_update {g : ν → μ} {f : ν → ν} (h : ∀ v, g (f v) = g v) (d : Dict κ ν) (k : κ) :
    mapVals g (update d k f) = mapVals g d := by
  induction d with
  | nil => rfl
  | cons p d ih =>
    obtain ⟨k₀, v₀⟩ := p
    rw [update]
    split
    · simp [mapVals, h]
    · simpa [mapVals] using ih

theorem mapVals_set (g : ν → μ) (d : Dict κ ν) (k : κ) (v : ν) :
    mapVals g (set d k v) = set (mapVals g d) k (g v) := by
  induction d with
  | nil => rfl
  | cons p d ih =>
    obtain ⟨k₀, v₀⟩ := p
    by_cases h : k₀ = k
    · simp [set, mapVals, h]
    · simpa [set, mapVals, h] using ih

/-- A change of the values that is seen as a change of what is read of them. -/
theorem mapVals_update_comm {g : ν → μ} {f : ν → ν} {f' : μ → μ} (h : ∀ v, g (f v) = f' (g v))
    (d : Dict κ ν) (k : κ) : mapVals g (update d k f) = update (mapVals g d) k f' := by
  induction d with
  | nil => rfl
  | cons p d ih =>
    obtain ⟨k₀, v₀⟩ := p
    by_cases hk : k₀ = k
    · simp [update, mapVals, hk, h]
    · simpa [update, mapVals, hk] using ih

end

end Dict
