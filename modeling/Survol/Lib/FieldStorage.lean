import Survol.Lib.Text

/-!
# The fields of a form

A form is sent as the names and the values of its fields. The reader of the form drops the empty
values and gathers the values of the fields that have one name: of a name with one value it gives
the value, of a name with several values a list, which has no value of its own.

## Main definitions

* `Sent` — a form as it is sent.
* `Sent.getList`, `Sent.has`, `Sent.value?` — the values of a name, whether there is one, and the
  only one.
-/

open PyText

namespace FieldStorage

/-- The names and the values of the fields. -/
abbrev Sent := List (Text × Text)

variable {name v : Text} {sent : Sent}

/-- The values of a name; empty ones are dropped. -/
def Sent.getList (sent : Sent) (name : Text) : List Text :=
  (sent.filter fun p => p.1 = name && p.2 ≠ []).map Prod.snd

/-- Whether `form[name]` is found. -/
def Sent.has (sent : Sent) (name : Text) : Bool := sent.getList name ≠ []

/-- The text `form[name].value`; `none` where it raises, for a missing name as for one with several
values. -/
def Sent.value? (sent : Sent) (name : Text) : Option Text :=
  match sent.getList name with
  | [v] => some v
  | _ => none

theorem getList_append (a b : Sent) (name : Text) :
    Sent.getList (a ++ b) name = Sent.getList a name ++ Sent.getList b name := by
  rw [Sent.getList, List.filter_append, List.map_append]
  rfl

theorem getList_flatMap {α : Type} (l : List α) (f : α → Sent) (name : Text) :
    Sent.getList (l.flatMap f) name = l.flatMap fun a => Sent.getList (f a) name := by
  induction l with
  | nil => rfl
  | cons a l ih => rw [List.flatMap_cons, getList_append, ih, List.flatMap_cons]

theorem getList_of_ne {n v : Text} (h : n ≠ name) (sent : Sent) :
    Sent.getList ((n, v) :: sent) name = sent.getList name := by
  rw [Sent.getList, List.filter_cons_of_neg (by simp [h])]
  rfl

theorem mem_getList : v ∈ sent.getList name ↔ (name, v) ∈ sent ∧ v ≠ [] := by
  rw [Sent.getList, List.mem_map]
  constructor
  · rintro ⟨⟨n, w⟩, h, rfl⟩
    obtain ⟨hmem, hp⟩ := List.mem_filter.mp h
    simp only [Bool.and_eq_true, decide_eq_true_eq] at hp
    exact ⟨hp.1 ▸ hmem, hp.2⟩
  · rintro ⟨hmem, hv⟩
    exact ⟨(name, v), List.mem_filter.mpr ⟨hmem, by simp [hv]⟩, rfl⟩

theorem has_iff : sent.has name = true ↔ ∃ v, (name, v) ∈ sent ∧ v ≠ [] := by
  rw [Sent.has, decide_eq_true_eq]
  constructor
  · intro h
    obtain ⟨v, hv⟩ := List.exists_mem_of_ne_nil _ h
    exact ⟨v, mem_getList.mp hv⟩
  · rintro ⟨v, hv⟩
    exact List.ne_nil_of_mem (mem_getList.mpr hv)

end FieldStorage
