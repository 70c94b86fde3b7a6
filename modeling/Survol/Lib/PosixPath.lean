import Survol.Lib.Splitting
import Mathlib.Data.List.Basic
import Mathlib.Algebra.BigOperators.Group.List.Basic
import Mathlib.Algebra.Ring.Int.Defs

/-!
# Lexical normalisation of paths

A path is read as its components. Empty components and single dots are dropped, and two dots remove
the component before them; at the root they are dropped, and at the start of a relative path they
stay.

## Main definitions

* `PosixPath.normal` — the components of the normalised path.
* `PosixPath.normalise` — the normalised path.
* `PosixPath.reduce` — the names that are left, where no two dots climb above the start.
* `PosixPath.weight` — how far up components lead, minus how far down.

## Main results

* `PosixPath.normal_shape` — the normal form.
* `PosixPath.weight_normal` — a relative normalisation leads as far up as its path.
-/

open PyText

namespace PosixPath

/-- The component that leads up. -/
def dotDot : Text := "..".toList

/-- A component that leads nowhere. -/
def IsBlank (part : Text) : Prop := part = ".".toList ∨ part = []

/-- The name of a file or of a directory. -/
def IsName (part : Text) : Prop := part ≠ dotDot ∧ ¬ IsBlank part

instance (part : Text) : Decidable (IsBlank part) := inferInstanceAs (Decidable (_ ∨ _))

instance (part : Text) : Decidable (IsName part) := inferInstanceAs (Decidable (_ ∧ _))

theorem not_isBlank_dotDot : ¬ IsBlank dotDot := by decide

/-- A component is blank, leads up, or is a name. -/
theorem part_cases (part : Text) : IsBlank part ∨ part = dotDot ∨ IsName part := by
  by_cases hb : IsBlank part
  · exact .inl hb
  · by_cases hd : part = dotDot
    · exact .inr (.inl hd)
    · exact .inr (.inr ⟨hd, hb⟩)

theorem ne_dotDot_of_isBlank {part : Text} (h : IsBlank part) : part ≠ dotDot := by
  rintro rfl
  exact not_isBlank_dotDot h

/-! ## Normalisation -/

/-- One more component, on those that are kept, the last one first. -/
def push (absolute : Bool) (stack : List Text) (part : Text) : List Text :=
  if part = dotDot then
    match stack with
    | [] => if absolute then [] else [dotDot]
    | top :: below => if top = dotDot then dotDot :: top :: below else below
  else if IsBlank part then stack
  else part :: stack

/-- The components of the normalised path. -/
def normal (absolute : Bool) (parts : List Text) : List Text :=
  (parts.foldl (push absolute) []).reverse

/-- The normalised path. -/
def normalise (path : Text) : Text :=
  match path with
  | '/' :: _ => '/' :: ['/'].intercalate (normal true (splitOn '/' path))
  | _ => match normal false (splitOn '/' path) with
    | [] => ".".toList
    | parts => ['/'].intercalate parts

/-- The name of a file, as seen from a directory. -/
def joinPath (dir name : Text) : Text :=
  match name with
  | '/' :: _ => name
  | _ => if dir = [] then name else dir ++ '/' :: name

/-! ## Paths that do not climb -/

/-- The names that are left, the last one first; `none` where two dots have no name to remove. -/
def reduce : List Text → List Text → Option (List Text)
  | stack, [] => some stack
  | stack, part :: parts =>
    if part = dotDot then
      match stack with
      | [] => none
      | _ :: below => reduce below parts
    else if IsBlank part then reduce stack parts
    else reduce (part :: stack) parts

section
variable {absolute : Bool} {part : Text} {stack stack' parts parts' : List Text}

theorem push_blank (h : IsBlank part) : push absolute stack part = stack := by
  rw [push.eq_def, if_neg (ne_dotDot_of_isBlank h), if_pos h]

theorem push_name (h : IsName part) : push absolute stack part = part :: stack := by
  rw [push.eq_def, if_neg h.1, if_neg h.2]

theorem push_dotDot_cons {top : Text} (h : top ≠ dotDot) :
    push absolute (top :: stack) dotDot = stack := by
  rw [push, if_pos rfl]
  exact if_neg h

theorem reduce_blank (h : IsBlank part) : reduce stack (part :: parts) = reduce stack parts := by
  rw [reduce.eq_def]
  dsimp only
  rw [if_neg (ne_dotDot_of_isBlank h), if_pos h]

theorem reduce_name (h : IsName part) :
    reduce stack (part :: parts) = reduce (part :: stack) parts := by
  rw [reduce.eq_def]
  dsimp only
  rw [if_neg h.1, if_neg h.2]

@[simp] theorem reduce_dotDot_nil : reduce [] (dotDot :: parts) = none := by
  rw [reduce, if_pos rfl]

@[simp] theorem reduce_dotDot_cons {top : Text} :
    reduce (top :: stack) (dotDot :: parts) = reduce stack parts := by
  rw [reduce, if_pos rfl]

theorem reduce_append : reduce stack (parts ++ parts') =
    (reduce stack parts).bind fun s => reduce s parts' := by
  induction parts generalizing stack with
  | nil => rfl
  | cons part parts ih =>
    rw [List.cons_append]
    rcases part_cases part with h | rfl | h
    · rw [reduce_blank h, reduce_blank h, ih]
    · cases stack with
      | nil => simp
      | cons top stack => rw [reduce_dotDot_cons, reduce_dotDot_cons, ih]
    · rw [reduce_name h, reduce_name h, ih]

/-- Names are kept. -/
theorem reduce_names (h : ∀ p ∈ parts, IsName p) :
    reduce stack parts = some (parts.reverse ++ stack) := by
  induction parts generalizing stack with
  | nil => rfl
  | cons part parts ih =>
    rw [List.forall_mem_cons] at h
    rw [reduce_name h.1, ih h.2, List.reverse_cons, List.append_assoc]
    rfl

/-- Only names are left. -/
theorem names_of_reduce (hs : ∀ p ∈ stack, IsName p) (h : reduce stack parts = some stack') :
    ∀ p ∈ stack', IsName p := by
  induction parts generalizing stack with
  | nil =>
    cases h
    exact hs
  | cons part parts ih =>
    rcases part_cases part with hp | rfl | hp
    · rw [reduce_blank hp] at h
      exact ih hs h
    · cases stack with
      | nil =>
        rw [reduce_dotDot_nil] at h
        cases h
      | cons top stack =>
        rw [reduce_dotDot_cons] at h
        exact ih (fun p hp => hs p (List.mem_cons_of_mem top hp)) h
    · rw [reduce_name hp] at h
      exact ih (List.forall_mem_cons.mpr ⟨hp, hs⟩) h

/-- What climbs has a first place where it does. -/
theorem exists_climb (h : reduce stack parts = none) :
    ∃ before after, parts = before ++ dotDot :: after ∧ reduce stack before = some [] := by
  induction parts generalizing stack with
  | nil => cases h
  | cons part parts ih =>
    rcases part_cases part with hp | rfl | hp
    · rw [reduce_blank hp] at h
      obtain ⟨before, after, rfl, hb⟩ := ih h
      exact ⟨part :: before, after, rfl, (reduce_blank hp).trans hb⟩
    · cases stack with
      | nil => exact ⟨[], parts, rfl, rfl⟩
      | cons top stack =>
        rw [reduce_dotDot_cons] at h
        obtain ⟨before, after, rfl, hb⟩ := ih h
        exact ⟨dotDot :: before, after, rfl, reduce_dotDot_cons.trans hb⟩
    · rw [reduce_name hp] at h
      obtain ⟨before, after, rfl, hb⟩ := ih h
      exact ⟨part :: before, after, rfl, (reduce_name hp).trans hb⟩

/-- What is below the stack is not touched, where nothing climbs. -/
theorem reduce_append_below (below : List Text) (h : reduce stack parts = some stack') :
    reduce (stack ++ below) parts = some (stack' ++ below) := by
  induction parts generalizing stack with
  | nil =>
    cases h
    rfl
  | cons part parts ih =>
    rcases part_cases part with hp | rfl | hp
    · rw [reduce_blank hp] at h
      exact (reduce_blank hp).trans (ih h)
    · cases stack with
      | nil =>
        rw [reduce_dotDot_nil] at h
        cases h
      | cons top stack =>
        rw [reduce_dotDot_cons] at h
        exact reduce_dotDot_cons.trans (ih h)
    · rw [reduce_name hp] at h
      exact (reduce_name hp).trans (ih h)

/-- Where nothing climbs, normalisation is the same for absolute and relative paths, over whatever
is kept below. -/
theorem foldl_push_of_reduce (below : List Text) (hs : ∀ p ∈ stack, IsName p)
    (h : reduce stack parts = some stack') :
    parts.foldl (push absolute) (stack ++ below) = stack' ++ below := by
  induction parts generalizing stack with
  | nil =>
    cases h
    rfl
  | cons part parts ih =>
    rw [List.foldl_cons]
    rcases part_cases part with hp | rfl | hp
    · rw [reduce_blank hp] at h
      rw [push_blank hp]
      exact ih hs h
    · cases stack with
      | nil =>
        rw [reduce_dotDot_nil] at h
        cases h
      | cons top stack =>
        rw [reduce_dotDot_cons] at h
        rw [List.forall_mem_cons] at hs
        rw [List.cons_append, push_dotDot_cons hs.1.1]
        exact ih hs.2 h
    · rw [reduce_name hp] at h
      rw [push_name hp]
      exact ih (List.forall_mem_cons.mpr ⟨hp, hs⟩) h

theorem normal_of_reduce (h : reduce [] parts = some stack') :
    normal absolute parts = stack'.reverse := by
  have hrun := @foldl_push_of_reduce absolute _ _ _ [] (List.forall_mem_nil _) h
  rw [List.append_nil, List.append_nil] at hrun
  rw [normal, hrun]

/-- Two dots in front stay in front, where nothing climbs after them. -/
theorem normal_dotDot_cons (h : reduce [] parts = some stack') :
    normal false (dotDot :: parts) = dotDot :: stack'.reverse := by
  have hrun := @foldl_push_of_reduce false _ _ _ [dotDot] (List.forall_mem_nil _) h
  rw [normal, List.foldl_cons]
  exact (congrArg List.reverse hrun).trans List.reverse_concat

theorem normal_blank (h : IsBlank part) :
    normal absolute (part :: parts) = normal absolute parts := by
  rw [normal, List.foldl_cons, push_blank h, normal]

theorem normal_append_dotDot {after : List Text} (h : reduce [] parts = some []) :
    normal false (parts ++ dotDot :: after) = normal false (dotDot :: after) := by
  have hrun := @foldl_push_of_reduce false _ _ _ [] (List.forall_mem_nil _) h
  rw [normal, normal, List.foldl_append]
  exact congrArg (fun stack => ((dotDot :: after).foldl (push false) stack).reverse) hrun

end

/-! ## The normal form -/

/-- Two dots in front, none of them where `absolute`, and then names. -/
def IsNormal (absolute : Bool) (parts : List Text) : Prop :=
  ∃ up names, parts = List.replicate up dotDot ++ names ∧ (∀ p ∈ names, IsName p) ∧
    (absolute = true → up = 0)

section
variable {absolute : Bool} {parts : List Text}

theorem isNormal_foldl_push {stack : List Text} (h : IsNormal absolute stack.reverse) :
    IsNormal absolute (parts.foldl (push absolute) stack).reverse := by
  induction parts generalizing stack with
  | nil => exact h
  | cons part parts ih =>
    rw [List.foldl_cons]
    apply ih
    obtain ⟨up, names, heq, hnames, habs⟩ := h
    rcases part_cases part with hp | rfl | hp
    · rw [push_blank hp]
      exact ⟨up, names, heq, hnames, habs⟩
    · cases stack with
      | nil =>
        cases absolute with
        | true => exact ⟨0, [], rfl, List.forall_mem_nil _, fun _ => rfl⟩
        | false => exact ⟨1, [], rfl, List.forall_mem_nil _, nofun⟩
      | cons top stack =>
        rw [List.reverse_cons] at heq
        rcases List.eq_nil_or_concat names with rfl | ⟨names, last, rfl⟩
        · cases up with
          | zero => simp at heq
          | succ up =>
            rw [List.append_nil, List.replicate_succ'] at heq
            obtain ⟨hrest, htop⟩ := List.append_inj' heq rfl
            cases htop
            refine ⟨up + 2, [], ?_, List.forall_mem_nil _, fun h => absurd (habs h) (by omega)⟩
            rw [push, if_pos rfl]
            simp only [if_true, List.reverse_cons, hrest, List.append_nil]
            rw [← List.replicate_succ', ← List.replicate_succ']
        · rw [List.concat_eq_append, ← List.append_assoc] at heq
          obtain ⟨hrest, htop⟩ := List.append_inj' heq rfl
          cases htop
          rw [List.concat_eq_append, List.forall_mem_append] at hnames
          rw [push_dotDot_cons (hnames.2 _ List.mem_cons_self).1]
          exact ⟨up, names, hrest, hnames.1, habs⟩
    · rw [push_name hp]
      refine ⟨up, names ++ [part], ?_, ?_, habs⟩
      · rw [List.reverse_cons, heq, List.append_assoc]
      · rw [List.forall_mem_append]
        exact ⟨hnames, List.forall_mem_singleton.mpr hp⟩

/-- **Normalised components are in normal form.** -/
theorem normal_shape (absolute : Bool) (parts : List Text) :
    IsNormal absolute (normal absolute parts) :=
  isNormal_foldl_push ⟨0, [], rfl, List.forall_mem_nil _, fun _ => rfl⟩

theorem IsNormal.not_isBlank (h : IsNormal absolute parts) : ∀ p ∈ parts, ¬ IsBlank p := by
  obtain ⟨up, names, rfl, hnames, -⟩ := h
  intro p hp
  rcases List.mem_append.mp hp with hp | hp
  · rw [List.eq_of_mem_replicate hp]
    exact not_isBlank_dotDot
  · exact (hnames p hp).2

end

/-! ## Weights -/

/-- How far up a component leads. -/
def partWeight (part : Text) : ℤ :=
  if part = dotDot then 1 else if IsBlank part then 0 else -1

/-- How far up components lead, minus how far down. -/
def weight (parts : List Text) : ℤ := (parts.map partWeight).sum

section
variable {part : Text} {stack stack' parts parts' : List Text}

@[simp] theorem partWeight_dotDot : partWeight dotDot = 1 := if_pos rfl

theorem partWeight_blank (h : IsBlank part) : partWeight part = 0 := by
  rw [partWeight, if_neg (ne_dotDot_of_isBlank h), if_pos h]

theorem partWeight_name (h : IsName part) : partWeight part = -1 := by
  rw [partWeight, if_neg h.1, if_neg h.2]

@[simp] theorem weight_nil : weight [] = 0 := rfl

@[simp] theorem weight_cons : weight (part :: parts) = partWeight part + weight parts := by
  rw [weight, List.map_cons, List.sum_cons, ← weight]

@[simp] theorem weight_append : weight (parts ++ parts') = weight parts + weight parts' := by
  rw [weight, List.map_append, List.sum_append, ← weight, ← weight]

@[simp] theorem weight_reverse : weight parts.reverse = weight parts := by
  rw [weight, List.map_reverse, List.sum_reverse, weight]

theorem weight_names (h : ∀ p ∈ parts, IsName p) : weight parts = -parts.length := by
  induction parts with
  | nil => rfl
  | cons part parts ih =>
    rw [List.forall_mem_cons] at h
    rw [weight_cons, ih h.2, partWeight_name h.1, List.length_cons]
    push_cast
    omega

theorem weight_push (hs : ∀ p ∈ stack, ¬ IsBlank p) :
    weight (push false stack part) = weight stack + partWeight part := by
  rcases part_cases part with hp | rfl | hp
  · rw [push_blank hp, partWeight_blank hp, add_zero]
  · cases stack with
    | nil => rfl
    | cons top stack =>
      rcases part_cases top with ht | rfl | ht
      · exact absurd ht (hs top List.mem_cons_self)
      · have hpush : push false (dotDot :: stack) dotDot = dotDot :: dotDot :: stack := by
          rw [push, if_pos rfl]
          exact if_pos rfl
        rw [hpush, weight_cons, add_comm, partWeight_dotDot]
      · rw [push_dotDot_cons ht.1, weight_cons, partWeight_name ht, partWeight_dotDot]
        omega
  · rw [push_name hp, weight_cons, add_comm]

theorem weight_foldl_push (hs : IsNormal false stack.reverse) :
    weight (parts.foldl (push false) stack) = weight stack + weight parts := by
  induction parts generalizing stack with
  | nil => rw [List.foldl_nil, weight_nil, add_zero]
  | cons part parts ih =>
    have hblank : ∀ p ∈ stack, ¬ IsBlank p := fun p hp =>
      hs.not_isBlank p (List.mem_reverse.mpr hp)
    have hstep : IsNormal false (push false stack part).reverse :=
      @isNormal_foldl_push false [part] stack hs
    rw [List.foldl_cons, ih hstep, weight_push hblank, weight_cons, add_assoc]

/-- **A relative normalisation leads as far up as its path.** -/
theorem weight_normal (parts : List Text) : weight (normal false parts) = weight parts := by
  rw [normal, weight_reverse, weight_foldl_push ⟨0, [], rfl, List.forall_mem_nil _, fun _ => rfl⟩,
    weight_nil, zero_add]

theorem weight_of_reduce (h : reduce [] parts = some stack') : weight parts = -stack'.length := by
  rw [← weight_normal, normal_of_reduce h, weight_reverse,
    weight_names (names_of_reduce (List.forall_mem_nil _) h)]

end

/-! ## Normalised paths -/

/-- The components that are printed: a relative path without a component is a single dot. -/
def printed (absolute : Bool) (parts : List Text) : Text :=
  if absolute then '/' :: ['/'].intercalate parts
  else if parts = [] then ".".toList
  else ['/'].intercalate parts

/-- Whether a path starts at the root. -/
def isAbsolute (path : Text) : Bool := path.head? = some '/'

/-- A path that is printed from components in normal form: none is empty, a dot, or two dots that
could be removed. -/
def IsNormalised (path : Text) : Prop :=
  ∃ parts, IsNormal (isAbsolute path) parts ∧ path = printed (isAbsolute path) parts

theorem normalise_eq (path : Text) : normalise path =
    printed (isAbsolute path) (normal (isAbsolute path) (splitOn '/' path)) := by
  by_cases habs : isAbsolute path = true
  · rw [isAbsolute, decide_eq_true_eq, List.head?_eq_some_iff] at habs
    obtain ⟨s, rfl⟩ := habs
    rfl
  · rw [Bool.not_eq_true] at habs
    have hno : ∀ s, path ≠ '/' :: s := by
      rintro s rfl
      cases habs
    rw [habs, printed, if_neg Bool.false_ne_true, normalise.eq_2 path hno]
    cases normal false (splitOn '/' path) with
    | nil => rfl
    | cons p parts => rfl

/-- A part that is not blank does not begin with a slash, if it comes from a path. -/
theorem isAbsolute_intercalate {p : Text} {parts : List Text} (hp : p ≠ []) (hno : '/' ∉ p) :
    isAbsolute (['/'].intercalate (p :: parts)) = false := by
  obtain ⟨c, p, rfl⟩ := List.exists_cons_of_ne_nil hp
  rw [List.mem_cons, not_or] at hno
  have hhead : (['/'].intercalate ((c :: p) :: parts)).head? = some c := by
    cases parts with
    | nil => rfl
    | cons q parts => rfl
  rw [isAbsolute, hhead, decide_eq_false_iff_not]
  exact fun h => hno.1 (Option.some.inj h).symm

theorem isAbsolute_printed {absolute : Bool} {parts : List Text} (hb : ∀ p ∈ parts, p ≠ [])
    (hno : ∀ p ∈ parts, '/' ∉ p) : isAbsolute (printed absolute parts) = absolute := by
  cases absolute with
  | true => rfl
  | false =>
    cases parts with
    | nil => rfl
    | cons p parts =>
      exact isAbsolute_intercalate (hb p List.mem_cons_self) (hno p List.mem_cons_self)

theorem subset_foldl_push (absolute : Bool) (stack parts : List Text) :
    ∀ p ∈ parts.foldl (push absolute) stack, p ∈ stack ∨ p ∈ parts ∨ p = dotDot := by
  induction parts generalizing stack with
  | nil => exact fun p hp => .inl hp
  | cons part parts ih =>
    intro p hp
    have hpush : ∀ q ∈ push absolute stack part, q ∈ stack ∨ q = part ∨ q = dotDot := by
      intro q hq
      rw [push.eq_def] at hq
      split at hq
      · cases stack with
        | nil =>
          cases absolute with
          | true => cases hq
          | false => exact .inr (.inr (List.mem_singleton.mp hq))
        | cons top stack =>
          dsimp only at hq
          split at hq
          · rcases List.mem_cons.mp hq with hq | hq
            · exact .inr (.inr hq)
            · exact .inl hq
          · exact .inl (List.mem_cons_of_mem top hq)
      · split at hq
        · exact .inl hq
        · rcases List.mem_cons.mp hq with hq | hq
          · exact .inr (.inl hq)
          · exact .inl hq
    rw [List.foldl_cons] at hp
    rcases ih (push absolute stack part) p hp with h | h | h
    · rcases hpush p h with h | h | h
      · exact .inl h
      · exact .inr (.inl (h ▸ List.mem_cons_self))
      · exact .inr (.inr h)
    · exact .inr (.inl (List.mem_cons_of_mem part h))
    · exact .inr (.inr h)

theorem printed_true (parts : List Text) :
    printed true parts = '/' :: ['/'].intercalate parts := rfl

theorem printed_cons {parts : List Text} (h : parts ≠ []) :
    printed false parts = ['/'].intercalate parts := by
  rw [printed, if_neg Bool.false_ne_true, if_neg h]

/-- Components are read off the text that they are joined to. -/
theorem intercalate_inj {parts parts' : List Text} (hne : parts ≠ []) (hne' : parts' ≠ [])
    (hno : ∀ p ∈ parts, '/' ∉ p) (hno' : ∀ p ∈ parts', '/' ∉ p)
    (h : ['/'].intercalate parts = ['/'].intercalate parts') : parts = parts' := by
  have hsplit := congrArg (splitOn '/') h
  rwa [splitOn_intercalate hne hno, splitOn_intercalate hne' hno'] at hsplit

/-- The components of a normalised path have no slash. -/
theorem slash_not_mem_normal {absolute : Bool} {path p : Text}
    (hp : p ∈ normal absolute (splitOn '/' path)) : '/' ∉ p := by
  rcases subset_foldl_push absolute [] _ p (List.mem_reverse.mp hp) with h | h | rfl
  · cases h
  · exact not_mem_splitOn h
  · decide

/-- **Normalisation gives a normalised path**, at the root where the path is. -/
theorem isNormalised_normalise (path : Text) :
    IsNormalised (normalise path) ∧ isAbsolute (normalise path) = isAbsolute path := by
  have hshape := normal_shape (isAbsolute path) (splitOn '/' path)
  have habs : isAbsolute (normalise path) = isAbsolute path := by
    rw [normalise_eq]
    refine isAbsolute_printed (fun p hp hnil => ?_) fun p hp => slash_not_mem_normal hp
    exact hshape.not_isBlank p hp (.inr hnil)
  refine ⟨⟨normal (isAbsolute path) (splitOn '/' path), ?_, ?_⟩, habs⟩
  · rw [habs]
    exact hshape
  · rw [habs]
    exact normalise_eq path

end PosixPath
