import Survol.Lib.Text

/-!
# Texts with brackets

An opening bracket raises the level by one, a closing bracket lowers it by one. A text is balanced
when the level is never below zero and ends at zero.

## Main definitions

* `Brackets.level op cl s` — the level after the text `s`, for two sets of brackets.
* `Brackets.Balanced op cl s` — the brackets of `s` match.
* `Brackets.Segments op cl delim ℓ s segs` — what stands between the occurrences of a delimiter at
  level zero, from left to right, in a text that starts at the level `ℓ`.

## Main results

* `Brackets.Segments.unique` — the segments are determined by the text.
* `Brackets.Segments.balanced` — the segments of a balanced text are balanced.
-/

open PyText

namespace Brackets

variable {op cl : Text}

/-- What one character adds to the level. -/
def charLevel (op cl : Text) (c : Char) : ℤ := if c ∈ op then 1 else if c ∈ cl then -1 else 0

/-- The level after a text. -/
def level (op cl : Text) : Text → ℤ
  | [] => 0
  | c :: s => charLevel op cl c + level op cl s

@[simp] theorem level_nil : level op cl [] = 0 := rfl

@[simp] theorem level_cons (c : Char) (s : Text) :
    level op cl (c :: s) = charLevel op cl c + level op cl s := rfl

@[simp] theorem level_append (s t : Text) :
    level op cl (s ++ t) = level op cl s + level op cl t := by
  induction s with
  | nil => simp
  | cons c s ih =>
    rw [List.cons_append, level_cons, ih, level_cons]
    omega

/-- A text without brackets does not change the level. -/
theorem level_eq_zero {s : Text} (h : ∀ c ∈ s, c ∉ op ∧ c ∉ cl) : level op cl s = 0 := by
  induction s with
  | nil => rfl
  | cons c s ih =>
    obtain ⟨ho, hc⟩ := h c List.mem_cons_self
    rw [level_cons, ih fun d hd => h d (List.mem_cons_of_mem c hd), charLevel, if_neg ho, if_neg hc]
    rfl

/-- The brackets of a text match. -/
structure Balanced (op cl s : Text) : Prop where
  nonneg : ∀ p, p <+: s → 0 ≤ level op cl p
  level_eq : level op cl s = 0

theorem Balanced.nil : Balanced op cl [] :=
  ⟨fun p hp => (List.prefix_nil.mp hp ▸ Int.le_refl 0 : 0 ≤ level op cl p), rfl⟩

/-- Balanced texts one after the other. -/
theorem Balanced.append {s t : Text} (hs : Balanced op cl s) (ht : Balanced op cl t) :
    Balanced op cl (s ++ t) := by
  constructor
  · intro p hp
    obtain h | ⟨q, rfl⟩ := List.prefix_or_prefix_of_prefix hp (List.prefix_append s t)
    · exact hs.nonneg p h
    · rw [level_append, hs.level_eq, Int.zero_add]
      exact ht.nonneg q ((List.prefix_append_right_inj s).mp hp)
  · rw [level_append, hs.level_eq, ht.level_eq, Int.zero_add]

theorem Balanced.of_no_brackets {s : Text} (h : ∀ c ∈ s, c ∉ op ∧ c ∉ cl) : Balanced op cl s :=
  ⟨fun _ hp => Int.le_of_eq (level_eq_zero fun c hc => h c (hp.subset hc)).symm, level_eq_zero h⟩

/-- A balanced text between two brackets. -/
theorem Balanced.enclosed {o c : Char} {s : Text} (ho : charLevel op cl o = 1)
    (hc : charLevel op cl c = -1) (hs : Balanced op cl s) : Balanced op cl (o :: (s ++ [c])) := by
  constructor
  · intro p hp
    cases p with
    | nil => exact Int.le_refl 0
    | cons d p =>
      obtain ⟨hd, hp⟩ := List.cons_prefix_cons.mp hp
      rw [hd, level_cons, ho]
      obtain rfl | hp := List.prefix_concat_iff.mp hp
      · rw [level_append, hs.level_eq, level_cons, hc, level_nil]
        decide
      · have := hs.nonneg p hp
        omega
  · rw [level_cons, level_append, hs.level_eq, level_cons, hc, ho, level_nil]
    rfl

/-- Balanced texts that are joined by a balanced text. -/
theorem Balanced.intercalate {sep : Text} {parts : List Text} (hsep : Balanced op cl sep)
    (hparts : ∀ p ∈ parts, Balanced op cl p) : Balanced op cl (sep.intercalate parts) := by
  induction parts with
  | nil => exact Balanced.nil
  | cons p parts ih =>
    have hp := hparts p List.mem_cons_self
    have ih := ih fun q hq => hparts q (List.mem_cons_of_mem p hq)
    cases parts with
    | nil => rwa [List.intercalate_singleton]
    | cons q parts =>
      rw [List.intercalate_cons_cons]
      exact (hp.append hsep).append ih

/-- The brackets of a text match when no initial part closes too much. -/
theorem balanced_iff {s : Text} :
    ((∀ p ∈ s.inits, 0 ≤ level op cl p) ∧ level op cl s = 0) ↔ Balanced op cl s :=
  ⟨fun h => ⟨fun p hp => h.1 p (List.mem_inits p s |>.mpr hp), h.2⟩,
    fun h => ⟨fun p hp => h.nonneg p (List.mem_inits p s |>.mp hp), h.level_eq⟩⟩

/-! ## What stands between the delimiters -/

/-- The text `delim` occurs in `s` where the level is zero. -/
def OccursAtZero (op cl delim s : Text) : Prop :=
  ∃ pre post, s = pre ++ (delim ++ post) ∧ level op cl pre = 0

theorem not_occursAtZero_of_not_mem {d : Char} {s : Text} (h : d ∉ s) :
    ¬ OccursAtZero op cl [d] s := by
  rintro ⟨pre, post, rfl, -⟩
  exact h (by simp)

/-- Two texts have no delimiter at level zero when they have none each. -/
theorem not_occursAtZero_append {d : Char} {s t : Text} (hl : level op cl s = 0)
    (hs : ¬ OccursAtZero op cl [d] s) (ht : ¬ OccursAtZero op cl [d] t) :
    ¬ OccursAtZero op cl [d] (s ++ t) := by
  rintro ⟨pre, post, heq, hz⟩
  obtain ⟨x, rfl, hx⟩ | ⟨x, rfl, hx⟩ := List.append_eq_append_iff.mp heq
  · exact ht ⟨x, post, hx, by rwa [level_append, hl, Int.zero_add] at hz⟩
  · cases x with
    | nil => exact ht ⟨[], post, hx.symm, rfl⟩
    | cons c x =>
      obtain ⟨rfl, -⟩ := List.cons.inj hx
      exact hs ⟨pre, x, rfl, hz⟩

/-- A delimiter between brackets is not at level zero. -/
theorem not_occursAtZero_enclosed {d o c : Char} {s : Text} (ho : charLevel op cl o = 1)
    (hdo : o ≠ d) (hdc : c ≠ d) (hs : Balanced op cl s) :
    ¬ OccursAtZero op cl [d] (o :: (s ++ [c])) := by
  rintro ⟨pre, post, heq, hz⟩
  cases pre with
  | nil => exact hdo (List.cons.inj heq).1
  | cons x pre =>
    obtain ⟨hx, htail⟩ := List.cons.inj heq
    subst hx
    obtain ⟨y, rfl, hy⟩ | ⟨y, rfl, hy⟩ := List.append_eq_append_iff.mp htail
    · cases y with
      | nil => exact hdc (List.cons.inj hy).1
      | cons z y => simp at hy
    · have := hs.nonneg pre (List.prefix_append pre y)
      rw [level_cons, ho] at hz
      omega

/-- The segments between the occurrences of `delim` at level zero. An occurrence is the first one
that begins after the delimiter before it. The level is counted from the start of the whole
text, and is `ℓ` where `s` starts. -/
inductive Segments (op cl delim : Text) : ℤ → Text → List Text → Prop
  | last {ℓ : ℤ} {s : Text}
      (none : ∀ pre suf, s = pre ++ suf → ℓ + level op cl pre = 0 → ¬ delim <+: suf) :
      Segments op cl delim ℓ s [s]
  | cons {ℓ : ℤ} {seg rest : Text} {segs : List Text} (zero : ℓ + level op cl seg = 0)
      (first : ∀ pre suf, seg = pre ++ suf → suf ≠ [] → ℓ + level op cl pre = 0 →
        ¬ delim <+: suf ++ (delim ++ rest))
      (tail : Segments op cl delim (ℓ + level op cl seg + level op cl delim) rest segs) :
      Segments op cl delim ℓ (seg ++ (delim ++ rest)) (seg :: segs)

variable {delim s : Text} {ℓ : ℤ} {segs segs' : List Text}

/-- The first segment is one character longer when no delimiter begins there. -/
theorem Segments.push {c : Char} {seg : Text}
    (h : Segments op cl delim (ℓ + charLevel op cl c) s (seg :: segs))
    (hc : ℓ = 0 → ¬ delim <+: c :: s) : Segments op cl delim ℓ (c :: s) ((c :: seg) :: segs) := by
  cases h with
  | last none =>
    refine .last fun pre suf heq hz => ?_
    cases pre with
    | nil =>
      rw [List.nil_append] at heq
      rw [← heq]
      exact hc (by simpa using hz)
    | cons d pre =>
      obtain ⟨rfl, rfl⟩ := List.cons.inj heq
      exact none pre suf rfl (by rw [level_cons] at hz; omega)
  | @cons _ _ rest _ zero first tail =>
    have zero' : ℓ + level op cl (c :: seg) = 0 := by
      rw [level_cons]
      omega
    refine .cons zero' (fun pre suf heq hne hz => ?_) ?_
    · cases pre with
      | nil =>
        rw [List.nil_append] at heq
        rw [← heq]
        exact hc (by simpa using hz)
      | cons d pre =>
        obtain ⟨rfl, rfl⟩ := List.cons.inj heq
        exact first pre suf rfl hne (by rw [level_cons] at hz; omega)
    · have hl : ℓ + level op cl (c :: seg) + level op cl delim =
          ℓ + charLevel op cl c + level op cl seg + level op cl delim := by
        rw [level_cons]
        omega
      rw [hl]
      exact tail

/-- Where a delimiter begins, the first segment is empty. -/
theorem Segments.cut {rest : Text} (h : Segments op cl delim (level op cl delim) rest segs) :
    Segments op cl delim 0 (delim ++ rest) ([] :: segs) := by
  refine @Segments.cons op cl delim 0 [] rest segs rfl (fun pre suf heq hne _ => ?_) ?_
  case refine_2 => simpa using h
  exact absurd (List.append_eq_nil_iff.mp heq.symm).2 hne

/-- Two first occurrences of the delimiter are at the same place. -/
theorem first_unique {seg seg' rest rest' : Text}
    (heq : seg ++ (delim ++ rest) = seg' ++ (delim ++ rest'))
    (zero : ℓ + level op cl seg = 0)
    (first : ∀ pre suf, seg' = pre ++ suf → suf ≠ [] → ℓ + level op cl pre = 0 →
      ¬ delim <+: suf ++ (delim ++ rest')) : seg' <+: seg := by
  obtain h | ⟨suf, rfl⟩ := List.prefix_or_prefix_of_prefix
    (heq ▸ List.prefix_append seg' (delim ++ rest') : seg' <+: seg ++ (delim ++ rest))
    (List.prefix_append seg (delim ++ rest))
  · exact h
  · by_cases hs : suf = []
    · rw [hs, List.append_nil]
    · rw [List.append_assoc] at heq
      have heq := List.append_cancel_left heq
      exact absurd (heq ▸ List.prefix_append delim rest) (first seg suf rfl hs zero)

/-- The segments are determined by the text. -/
theorem Segments.unique (h : Segments op cl delim ℓ s segs)
    (h' : Segments op cl delim ℓ s segs') : segs = segs' := by
  induction h generalizing segs' with
  | last none =>
    cases h' with
    | last => rfl
    | @cons _ seg rest _ zero =>
      exact absurd (List.prefix_append delim rest) (none seg _ rfl zero)
  | @cons ℓ seg rest segs zero first tail ih =>
    generalize hs : seg ++ (delim ++ rest) = s at h'
    cases h' with
    | last none => exact absurd (List.prefix_append delim rest) (none seg _ hs.symm zero)
    | @cons _ seg' rest' _ zero' first' tail' =>
      have hseg : seg = seg' := (first_unique hs.symm zero' first).eq_of_length_le
        (first_unique hs zero first').length_le
      subst hseg
      have hrest : rest = rest' := List.append_cancel_left (List.append_cancel_left hs)
      subst hrest
      rw [ih tail']

/-- The segments of a balanced text are balanced. -/
theorem Segments.balanced (hl : level op cl delim = 0) (h : Segments op cl delim 0 s segs)
    (hs : Balanced op cl s) : ∀ seg ∈ segs, Balanced op cl seg := by
  generalize hℓ : (0 : ℤ) = ℓ at h
  induction h with
  | last =>
    intro seg hseg
    rw [List.mem_singleton.mp hseg]
    exact hs
  | @cons ℓ seg rest segs zero first tail ih =>
    subst hℓ
    rw [Int.zero_add] at zero
    have hseg : Balanced op cl seg :=
      ⟨fun p hp => hs.nonneg p (hp.trans (List.prefix_append seg _)), zero⟩
    have hrest : Balanced op cl rest := by
      constructor
      · intro p hp
        obtain ⟨q, rfl⟩ := hp
        have h := hs.nonneg (seg ++ (delim ++ p)) ⟨q, by simp only [List.append_assoc]⟩
        rw [level_append, level_append, zero, hl] at h
        omega
      · have h := hs.level_eq
        rw [level_append, level_append, zero, hl] at h
        omega
    intro t ht
    obtain rfl | ht := List.mem_cons.mp ht
    · exact hseg
    · exact ih hrest (by rw [zero, hl]; rfl) t ht

/-- No segment has the delimiter at level zero. -/
theorem Segments.not_occursAtZero (hd : delim ≠ []) (hl : level op cl delim = 0)
    (h : Segments op cl delim 0 s segs) : ∀ seg ∈ segs, ¬ OccursAtZero op cl delim seg := by
  generalize hℓ : (0 : ℤ) = ℓ at h
  induction h with
  | last none =>
    subst hℓ
    rintro seg hseg ⟨pre, post, heq, hz⟩
    rw [List.mem_singleton] at hseg
    subst hseg
    exact none pre _ heq (by rw [hz]; rfl) (List.prefix_append delim post)
  | @cons ℓ seg rest segs zero first tail ih =>
    subst hℓ
    intro t ht
    obtain rfl | ht := List.mem_cons.mp ht
    · rintro ⟨pre, post, heq, hz⟩
      refine first pre (delim ++ post) heq (by simp [hd]) (by rw [hz]; rfl) ?_
      rw [List.append_assoc]
      exact List.prefix_append delim _
    · exact ih (by rw [zero, hl]; rfl) t ht

end Brackets
