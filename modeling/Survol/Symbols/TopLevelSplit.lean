import Survol.Lib.Brackets

/-!
# Splitting at the top level

`top_level_split` cuts a text at the occurrences of a delimiter that are not inside brackets, and
drops the empty parts.

## Main definitions

* `topLevelSplit instr delim bracketOpen bracketClose` — the function of the source.

## Main results

* `topLevelSplit_segments` — the parts of a balanced text are its non-empty segments.
-/

open PyText Brackets

namespace Survol.Symbols

/-! ## The scan -/

/-- `if current: parts.append(current)`, before the parts that come later. -/
def emit (current : Text) (parts : List Text) : List Text :=
  if current = [] then parts else current :: parts

/-- The scan of `top_level_split`, from one position on. Its arguments are the text from `idx` on,
`bracket_level`, the characters of the delimiter that `idx` still has to pass, and `current`. -/
def topLevelScan (delim bracketOpen bracketClose : Text) : Text → ℤ → ℕ → Text → List Text
  | [], _, _, current => emit current []
  | _ :: s, level, skip + 1, current =>
    topLevelScan delim bracketOpen bracketClose s level skip current
  | ch :: s, level, 0, current =>
    if delim.isPrefixOf (ch :: s) && level = 0 then
      emit current (topLevelScan delim bracketOpen bracketClose s level (delim.length - 1) [])
    else
      topLevelScan delim bracketOpen bracketClose s (level + charLevel bracketOpen bracketClose ch)
        0 (current ++ [ch])

/-- `if not parts: parts = [""]`. -/
def orBlank (parts : List Text) : List Text := if parts = [] then [[]] else parts

/-- The parts of `instr` between the delimiters that are not enclosed in brackets. -/
def topLevelSplit (instr delim bracketOpen bracketClose : Text) : List Text :=
  orBlank (topLevelScan delim bracketOpen bracketClose instr 0 0 [])

example : topLevelSplit "aa::bb<cc::dd>::ee".toList "::".toList "<".toList ">".toList =
    ["aa".toList, "bb<cc::dd>".toList, "ee".toList] := by decide

/-! ## The scan and the segments -/

variable {delim op cl : Text}

/-- The parts of a list of segments. -/
def nonEmpty (segs : List Text) : List Text := segs.filter (· ≠ [])

theorem emit_nonEmpty (seg : Text) (segs : List Text) :
    emit seg (nonEmpty segs) = nonEmpty (seg :: segs) := by
  rw [emit, nonEmpty, nonEmpty, List.filter_cons]
  by_cases h : seg = [] <;> simp [h]

theorem topLevelScan_skip (s : Text) (level : ℤ) (skip : ℕ) (current : Text) :
    topLevelScan delim op cl s level skip current =
      topLevelScan delim op cl (s.drop skip) level 0 current := by
  induction skip generalizing s with
  | zero => rfl
  | succ skip ih => cases s with
    | nil => rfl
    | cons c s => rw [topLevelScan, ih, List.drop_succ_cons]

/-- One character that begins no delimiter is kept. -/
theorem topLevelScan_keep {c : Char} {s : Text} {level : ℤ}
    (h : ¬ (delim <+: c :: s ∧ level = 0)) (current : Text) :
    topLevelScan delim op cl (c :: s) level 0 current =
      topLevelScan delim op cl s (level + charLevel op cl c) 0 (current ++ [c]) := by
  rw [topLevelScan, if_neg (by simpa using h)]

/-- A delimiter at level zero ends the current part. -/
theorem topLevelScan_cut (hd : delim ≠ []) (rest current : Text) :
    topLevelScan delim op cl (delim ++ rest) 0 0 current =
      emit current (topLevelScan delim op cl rest 0 0 []) := by
  obtain ⟨c, d, rfl⟩ := List.exists_cons_of_ne_nil hd
  have hp : (c :: d).isPrefixOf (c :: (d ++ rest)) = true :=
    List.isPrefixOf_iff_prefix.mpr (List.prefix_append (c :: d) rest)
  rw [List.cons_append, topLevelScan, if_pos (by simp [hp]), topLevelScan_skip,
    List.length_cons, Nat.add_sub_cancel, List.drop_left]

/-- The scan returns the segments that are not empty, the first one after the current part. -/
theorem topLevelScan_segments (hd : delim ≠ []) (hl : level op cl delim = 0) (s : Text) (ℓ : ℤ) :
    ∃ seg segs, Segments op cl delim ℓ s (seg :: segs) ∧ ∀ current,
      topLevelScan delim op cl s ℓ 0 current = emit (current ++ seg) (nonEmpty segs) := by
  obtain ⟨n, hn⟩ : ∃ n, s.length ≤ n := ⟨_, Nat.le_refl _⟩
  induction n generalizing s ℓ with
  | zero =>
    rw [List.eq_nil_of_length_eq_zero (Nat.le_zero.mp hn)]
    refine ⟨[], [], .last fun pre suf heq _ hp => ?_, fun current => ?_⟩
    case refine_2 => rw [topLevelScan, List.append_nil]; rfl
    rw [(List.append_eq_nil_iff.mp heq.symm).2] at hp
    exact hd (List.prefix_nil.mp hp)
  | succ n ih => cases s with
    | nil => exact ih [] ℓ (Nat.zero_le n)
    | cons c s =>
      by_cases h : delim <+: c :: s ∧ ℓ = 0
      · obtain ⟨⟨rest, hrest⟩, rfl⟩ := h
        have hlen : rest.length ≤ n := by
          have := congrArg List.length hrest
          have := List.length_pos_iff.mpr hd
          simp only [List.length_append, List.length_cons] at *
          omega
        obtain ⟨seg, segs, hseg, hscan⟩ := ih rest 0 hlen
        rw [← hrest]
        refine ⟨[], seg :: segs, Segments.cut (by rwa [hl]), fun current => ?_⟩
        rw [topLevelScan_cut hd, hscan, List.nil_append, List.append_nil, emit_nonEmpty]
      · obtain ⟨seg, segs, hseg, hscan⟩ := ih s (ℓ + charLevel op cl c) (Nat.le_of_succ_le_succ hn)
        refine ⟨c :: seg, segs, hseg.push fun hz hp => h ⟨hp, hz⟩, fun current => ?_⟩
        rw [topLevelScan_keep h, hscan, List.append_assoc, List.singleton_append]

/-! ## Parts joined by a character -/

/-- A text whose delimiters are inside brackets is kept as a whole. -/
theorem topLevelScan_chunk {d : Char} {s : Text} {ℓ : ℤ}
    (h : ∀ pre suf, s = pre ++ d :: suf → ℓ + level op cl pre ≠ 0) (t current : Text) :
    topLevelScan [d] op cl (s ++ t) ℓ 0 current =
      topLevelScan [d] op cl t (ℓ + level op cl s) 0 (current ++ s) := by
  induction s generalizing ℓ current with
  | nil => simp
  | cons c s ih =>
    have hkeep : ¬ ([d] <+: c :: (s ++ t) ∧ ℓ = 0) := by
      rintro ⟨hp, hz⟩
      obtain ⟨rfl, -⟩ := List.cons_prefix_cons.mp hp
      exact h [] s rfl (by simpa using hz)
    rw [List.cons_append, topLevelScan_keep hkeep, ih]
    · rw [level_cons, Int.add_assoc, List.append_assoc, List.singleton_append]
    · intro pre suf heq hz
      exact h (c :: pre) suf (by rw [heq]; rfl) (by rw [level_cons]; omega)

theorem topLevelScan_part {d : Char} {s : Text} (hl : level op cl s = 0)
    (h : ¬ OccursAtZero op cl [d] s) (t current : Text) :
    topLevelScan [d] op cl (s ++ t) 0 0 current =
      topLevelScan [d] op cl t 0 0 (current ++ s) := by
  rw [topLevelScan_chunk, hl, Int.add_zero]
  rintro pre suf rfl hz
  exact h ⟨pre, suf, rfl, by omega⟩

/-- Non-empty parts without a delimiter at level zero are found again after they were joined. -/
theorem topLevelScan_intercalate {d : Char} {parts : List Text} (hne : parts ≠ [])
    (hparts : ∀ p ∈ parts, p ≠ [] ∧ level op cl p = 0 ∧ ¬ OccursAtZero op cl [d] p) :
    topLevelScan [d] op cl ([d].intercalate parts) 0 0 [] = parts := by
  induction parts with
  | nil => exact absurd rfl hne
  | cons p parts ih =>
    obtain ⟨hp, hl, hz⟩ := hparts p List.mem_cons_self
    cases parts with
    | nil =>
      have h := topLevelScan_part hl hz [] []
      rw [List.append_nil, List.nil_append] at h
      rw [List.intercalate_singleton, h, topLevelScan, emit, if_neg hp]
    | cons q parts =>
      rw [List.intercalate_cons_cons, List.append_assoc, topLevelScan_part hl hz,
        topLevelScan_cut (List.cons_ne_nil d []), List.nil_append, emit, if_neg hp,
        ih (List.cons_ne_nil q parts) fun r hr => hparts r (List.mem_cons_of_mem p hr)]

/-! ## Main results -/

/-- The parts of a balanced text are the non-empty segments between the occurrences of the
delimiter at level zero. Each is balanced and has no delimiter at level zero. -/
theorem topLevelSplit_segments (instr delim bracketOpen bracketClose : Text) (hd : delim ≠ [])
    (hl : level bracketOpen bracketClose delim = 0)
    (hs : Balanced bracketOpen bracketClose instr) :
    ∃ segs, (∀ segs', Segments bracketOpen bracketClose delim 0 instr segs' ↔ segs' = segs) ∧
      topLevelSplit instr delim bracketOpen bracketClose = orBlank (segs.filter (· ≠ [])) ∧
      ∀ part ∈ topLevelSplit instr delim bracketOpen bracketClose,
        Balanced bracketOpen bracketClose part ∧
          ¬ OccursAtZero bracketOpen bracketClose delim part := by
  obtain ⟨seg, segs, hseg, hscan⟩ := topLevelScan_segments hd hl instr 0
  have hparts : topLevelSplit instr delim bracketOpen bracketClose =
      orBlank (nonEmpty (seg :: segs)) := by
    rw [topLevelSplit, hscan, List.nil_append, emit_nonEmpty]
  refine ⟨seg :: segs, fun segs' => ⟨fun h => h.unique hseg, fun h => h ▸ hseg⟩, hparts, ?_⟩
  intro part hpart
  rw [hparts, orBlank] at hpart
  split at hpart
  · rw [List.mem_singleton.mp hpart]
    refine ⟨Balanced.nil, ?_⟩
    rintro ⟨pre, post, heq, -⟩
    exact hd (List.append_eq_nil_iff.mp (List.append_eq_nil_iff.mp heq.symm).2).1
  · have hmem := (List.mem_filter.mp hpart).1
    exact ⟨hseg.balanced hl hs part hmem, hseg.not_occursAtZero hd hl part hmem⟩

/-- The parts of `bb<cc::dd>::ee`. -/
theorem topLevelSplit_segments_example :
    ∃ segs, (∀ segs', Segments ['<'] ['>'] "::".toList 0 "bb<cc::dd>::ee".toList segs' ↔
        segs' = segs) ∧
      topLevelSplit "bb<cc::dd>::ee".toList "::".toList ['<'] ['>'] =
        orBlank (segs.filter (· ≠ [])) ∧
      ∀ part ∈ topLevelSplit "bb<cc::dd>::ee".toList "::".toList ['<'] ['>'],
        Balanced ['<'] ['>'] part ∧ ¬ OccursAtZero ['<'] ['>'] "::".toList part :=
  topLevelSplit_segments _ _ _ _ (by decide) (by decide) (balanced_iff.mp (by decide))

/-- A delimiter that opens a bracket leaves a part that closes it. -/
theorem topLevelSplit_opening_delimiter :
    (∀ c ∈ ",<".toList.head?, c ∉ ['<'] ∧ c ∉ ['>']) ∧ Balanced ['<'] ['>'] ",<a>".toList ∧
      topLevelSplit ",<a>".toList ",<".toList ['<'] ['>'] = ["a>".toList] ∧
      ¬ Balanced ['<'] ['>'] "a>".toList :=
  ⟨by decide, balanced_iff.mp (by decide), by decide, fun h => absurd h.level_eq (by decide)⟩

end Survol.Symbols
