import Survol.Lib.Dict
import Mathlib.Data.List.Nodup

/-!
# Memoised functions

A function whose values are kept in a dictionary: a value is computed when its key is asked for
the first time, and is found in the dictionary afterwards. When the function raises, nothing is
kept, and the value is computed again the next time.

## Main definitions

* `Memo.Cache κ ν` — the dictionary, with the keys whose values were computed.
* `Memo.lookup f c k` — the value of a key, and the cache after.
* `Memo.Sound f c` — what is in the cache is what `f` gives, and no value was computed twice.
* `Memo.tryLookup f c k`, `Memo.TrySound f c` — the same of a function that may raise.

## Main results

* `Sound.value` — the value is that of `f`.
* `Sound.lookup` — the cache stays sound.
* `TrySound.value`, `TrySound.tryLookup` — the same of a function that may raise.
-/

namespace Memo

variable {κ ν : Type} [DecidableEq κ]

/-- A dictionary of values, with the keys whose values were computed, the last one at the end. -/
structure Cache (κ ν : Type) where
  items : Dict κ ν
  computed : List κ

/-- A cache that starts with some items. -/
def Cache.ofItems (items : Dict κ ν) : Cache κ ν := ⟨items, []⟩

/-- The value of a key, which is computed and stored when it is not there. -/
def lookup (f : κ → ν) (c : Cache κ ν) (k : κ) : ν × Cache κ ν :=
  match c.items.get? k with
  | some v => (v, c)
  | none => (f k, ⟨c.items.set k (f k), c.computed ++ [k]⟩)

/-- The items are values of `f`, and no value was computed twice. -/
structure Sound (f : κ → ν) (c : Cache κ ν) : Prop where
  agrees : ∀ k v, c.items.get? k = some v → v = f k
  once : c.computed.Nodup
  stored : ∀ k ∈ c.computed, k ∈ c.items.keys

variable {f : κ → ν} {c : Cache κ ν} {items : Dict κ ν}

theorem Sound.ofItems (h : ∀ k v, items.get? k = some v → v = f k) : Sound f (.ofItems items) where
  agrees := h
  once := List.nodup_nil
  stored := by simp [Cache.ofItems]

theorem lookup_of_some {k : κ} {v : ν} (h : c.items.get? k = some v) : lookup f c k = (v, c) := by
  rw [lookup, h]

theorem lookup_of_none {k : κ} (h : c.items.get? k = none) :
    lookup f c k = (f k, ⟨c.items.set k (f k), c.computed ++ [k]⟩) := by
  rw [lookup, h]

/-- The value is that of the function. -/
theorem Sound.value (h : Sound f c) (k : κ) : (lookup f c k).1 = f k := by
  cases hget : c.items.get? k with
  | none => rw [lookup_of_none hget]
  | some v =>
    rw [lookup_of_some hget]
    exact h.agrees k v hget

/-- A lookup keeps the cache sound. -/
theorem Sound.lookup (h : Sound f c) (k : κ) : Sound f (lookup f c k).2 := by
  cases hget : c.items.get? k with
  | some v =>
    rw [lookup_of_some hget]
    exact h
  | none =>
    rw [lookup_of_none hget]
    constructor
    · intro k' v hv
      rw [Dict.get?_set] at hv
      split at hv
      · rename_i hk
        subst hk
        exact (Option.some.inj hv).symm
      · exact h.agrees k' v hv
    · rw [List.nodup_append]
      refine ⟨h.once, List.nodup_singleton k, fun a ha b hb => ?_⟩
      rw [List.mem_singleton.mp hb]
      rintro rfl
      exact (Dict.get?_eq_none_iff _ _).mp hget (h.stored a ha)
    · intro k' hk'
      rw [Dict.mem_keys_set]
      rcases List.mem_append.mp hk' with hk' | hk'
      · exact .inr (h.stored k' hk')
      · exact .inl (List.mem_singleton.mp hk')

/-! ## Functions that may raise -/

section
variable {ε : Type} {f : κ → Except ε ν} {k : κ}

/-- The value of a key; nothing is stored when the function raises. -/
def tryLookup (f : κ → Except ε ν) (c : Cache κ ν) (k : κ) : Except ε ν × Cache κ ν :=
  match c.items.get? k with
  | some v => (.ok v, c)
  | none => match f k with
    | .ok v => (.ok v, ⟨c.items.set k v, c.computed ++ [k]⟩)
    | .error e => (.error e, ⟨c.items, c.computed ++ [k]⟩)

/-- The items are values of `f`, and no value was computed twice: only what raises is tried
again. -/
structure TrySound (f : κ → Except ε ν) (c : Cache κ ν) : Prop where
  agrees : ∀ k v, c.items.get? k = some v → f k = .ok v
  once : ∀ k v, f k = .ok v → c.computed.count k ≤ 1
  stored : ∀ k v, f k = .ok v → k ∈ c.computed → k ∈ c.items.keys

theorem TrySound.ofItems (h : ∀ k v, items.get? k = some v → f k = .ok v) :
    TrySound f (.ofItems items) where
  agrees := h
  once := by simp [Cache.ofItems]
  stored := by simp [Cache.ofItems]

theorem tryLookup_of_some {v : ν} (h : c.items.get? k = some v) :
    tryLookup f c k = (.ok v, c) := by
  rw [tryLookup, h]

theorem tryLookup_of_ok {v : ν} (h : c.items.get? k = none) (hf : f k = .ok v) :
    tryLookup f c k = (.ok v, ⟨c.items.set k v, c.computed ++ [k]⟩) := by
  rw [tryLookup, h, hf]

theorem tryLookup_of_error {e : ε} (h : c.items.get? k = none) (hf : f k = .error e) :
    tryLookup f c k = (.error e, ⟨c.items, c.computed ++ [k]⟩) := by
  rw [tryLookup, h, hf]

/-- The value is that of the function, or the function raises. -/
theorem TrySound.value (h : TrySound f c) (k : κ) : (Memo.tryLookup f c k).1 = f k := by
  cases hget : c.items.get? k with
  | some v => rw [tryLookup_of_some hget, h.agrees k v hget]
  | none => cases hf : f k with
    | ok v => rw [tryLookup_of_ok hget hf]
    | error e => rw [tryLookup_of_error hget hf]

/-- A key that was not found was not computed, unless the function raises. -/
theorem TrySound.count_eq_zero (h : TrySound f c) {v : ν} (hget : c.items.get? k = none)
    (hf : f k = .ok v) : c.computed.count k = 0 := by
  rw [List.count_eq_zero]
  exact fun hk => (Dict.get?_eq_none_iff _ _).mp hget (h.stored k v hf hk)

/-- A lookup keeps the cache sound, also when it raises. -/
theorem TrySound.tryLookup (h : TrySound f c) (k : κ) : TrySound f (Memo.tryLookup f c k).2 := by
  cases hget : c.items.get? k with
  | some v =>
    rw [tryLookup_of_some hget]
    exact h
  | none =>
    cases hf : f k with
    | ok v =>
      rw [tryLookup_of_ok hget hf]
      refine ⟨fun k' v' hv => ?_, fun k' v' hv => ?_, fun k' v' hv hk' => ?_⟩
      · rw [Dict.get?_set] at hv
        split at hv
        · rename_i hk
          rw [← hk, hf, Option.some.inj hv]
        · exact h.agrees k' v' hv
      · rw [List.count_append, List.count_singleton]
        split
        · rename_i hk
          have hzero := h.count_eq_zero hget hf
          rw [beq_iff_eq.mp hk] at hzero
          omega
        · exact h.once k' v' hv
      · rw [Dict.mem_keys_set]
        rcases List.mem_append.mp hk' with hk' | hk'
        · exact .inr (h.stored k' v' hv hk')
        · exact .inl (List.mem_singleton.mp hk')
    | error e =>
      rw [tryLookup_of_error hget hf]
      -- a key with a value is another one
      have hne : ∀ k' v', f k' = .ok v' → k ≠ k' := by
        rintro k' v' hv rfl
        rw [hf] at hv
        cases hv
      refine ⟨h.agrees, fun k' v' hv => ?_, fun k' v' hv hk' => ?_⟩
      · rw [List.count_append, List.count_singleton, if_neg (by simpa using hne k' v' hv)]
        exact h.once k' v' hv
      · rcases List.mem_append.mp hk' with hk' | hk'
        · exact h.stored k' v' hv hk'
        · exact absurd (List.mem_singleton.mp hk').symm (hne k' v' hv)

/-- What is stored stays stored. -/
theorem get?_tryLookup {k' : κ} {v : ν} (h : c.items.get? k' = some v) :
    (tryLookup f c k).2.items.get? k' = some v := by
  cases hget : c.items.get? k with
  | some _ =>
    rw [tryLookup_of_some hget]
    exact h
  | none => cases hf : f k with
    | error e =>
      rw [tryLookup_of_error hget hf]
      exact h
    | ok v' =>
      rw [tryLookup_of_ok hget hf, Dict.get?_set, if_neg]
      · exact h
      · rintro rfl
        rw [hget] at h
        cases h

end

end Memo
