import Survol.Lib.Brackets
import Survol.Lib.Positions

/-!
# The arguments of a traced call

`ParseArgs` splits the text of the arguments of a system call at its commas. It counts the braces,
drops a backslash and keeps the character after it, and strips each part.

## Main definitions

* `parseArgs` — the function of the source.
* `callTuple`, `recvfromSockText`, `connectSockText` — the argument that a parser reads by its
  position.
* `IsArgument` — the arguments that are printed.

## Main results

* `parseArgs_iff` — which lists of arguments are read back.
-/

open PyText Brackets

namespace Survol.Strace

/-! ## The function -/

/-- The last word, which is added unless it is empty. -/
def lastWord (curr : Text) : List Text := if curr ≠ [] then [strip curr] else []

/-- The loop of `ParseArgs`, from one character on. -/
def parseScan : Text → ℤ → Bool → Text → List Text
  | [], _, _, curr => lastWord curr
  | ch :: s, nbBracket, true, curr => parseScan s nbBracket false (curr ++ [ch])
  | ch :: s, nbBracket, false, curr =>
    if ch = '\\' then parseScan s nbBracket true curr
    else if ch = '{' then parseScan s (nbBracket + 1) false (curr ++ [ch])
    else if ch = '}' then parseScan s (nbBracket - 1) false (curr ++ [ch])
    else if ch = ',' && nbBracket = 0 then strip curr :: parseScan s nbBracket false []
    else parseScan s nbBracket false (curr ++ [ch])

/-- The arguments of a call. -/
def parseArgs (args : Text) : List Text := parseScan args 0 false []

/-- The tuple that is put into the queue. -/
def callTuple (entityId funcName : Text) (vecArgs : List Text) : List Text :=
  [entityId, funcName] ++ vecArgs

/-- The text that `parse_recvfrom` reads, `none` where the index is out of range. -/
def recvfromSockText (tuple : List Text) : Option Text := tuple[6]?

/-- The text that `parse_connect` and `parse_getpeername` read. -/
def connectSockText (tuple : List Text) : Option Text := tuple[3]?

/-! ## The arguments that are printed -/

/-- A character outside strings and brackets. -/
def isPlainChar (c : Char) : Bool := c ∉ "\"\\{}[],".toList

/-- The inside of a string: a quote or a backslash stands after a backslash. -/
inductive IsStringBody : Text → Prop
  | nil : IsStringBody []
  | char {c : Char} {s : Text} (hquote : c ≠ '"') (hback : c ≠ '\\') (hs : IsStringBody s) :
      IsStringBody (c :: s)
  | escape {c : Char} {s : Text} (hs : IsStringBody s) : IsStringBody ('\\' :: c :: s)

/-- An argument: plain text, strings, braces and brackets. Inside braces and brackets, `nested`,
there can be commas. -/
inductive IsArgument : Bool → Text → Prop
  | nil {nested : Bool} : IsArgument nested []
  | char {nested : Bool} {c : Char} {s : Text} (hc : isPlainChar c = true)
      (hs : IsArgument nested s) : IsArgument nested (c :: s)
  | comma {s : Text} (hs : IsArgument true s) : IsArgument true (',' :: s)
  | string {nested : Bool} {q s : Text} (hq : IsStringBody q) (hs : IsArgument nested s) :
      IsArgument nested ('"' :: (q ++ '"' :: s))
  | braces {nested : Bool} {t s : Text} (ht : IsArgument true t) (hs : IsArgument nested s) :
      IsArgument nested ('{' :: (t ++ '}' :: s))
  | brackets {nested : Bool} {t s : Text} (ht : IsArgument true t) (hs : IsArgument nested s) :
      IsArgument nested ('[' :: (t ++ ']' :: s))

/-- An argument of a call. -/
structure Argument where
  text : Text
  isArgument : IsArgument false text
  ne_nil : text ≠ []

/-- The arguments as they are printed. -/
def joinArguments (args : List Text) : Text := [',', ' '].intercalate args

/-! ## Escapes -/

/-- The text without its escaping backslashes. -/
def unescapeFrom : Bool → Text → Text
  | _, [] => []
  | true, c :: s => c :: unescapeFrom false s
  | false, c :: s => if c = '\\' then unescapeFrom true s else c :: unescapeFrom false s

/-- Whether the character after a text is escaped. -/
def escapedAfter : Bool → Text → Bool
  | e, [] => e
  | true, _ :: s => escapedAfter false s
  | false, c :: s => if c = '\\' then escapedAfter true s else escapedAfter false s

theorem unescapeFrom_append (e : Bool) (s t : Text) :
    unescapeFrom e (s ++ t) = unescapeFrom e s ++ unescapeFrom (escapedAfter e s) t := by
  induction s generalizing e with
  | nil => cases e <;> rfl
  | cons c s ih =>
    cases e with
    | true => rw [List.cons_append, unescapeFrom, unescapeFrom, escapedAfter, ih, List.cons_append]
    | false =>
      rw [List.cons_append, unescapeFrom, unescapeFrom, escapedAfter]
      split
      · exact ih true
      · rw [ih, List.cons_append]

theorem escapedAfter_append (e : Bool) (s t : Text) :
    escapedAfter e (s ++ t) = escapedAfter (escapedAfter e s) t := by
  induction s generalizing e with
  | nil => cases e <;> rfl
  | cons c s ih =>
    cases e with
    | true => exact ih false
    | false =>
      rw [List.cons_append, escapedAfter, escapedAfter]
      split
      · exact ih true
      · exact ih false

theorem length_unescapeFrom_le (e : Bool) (s : Text) : (unescapeFrom e s).length ≤ s.length := by
  induction s generalizing e with
  | nil => cases e <;> exact Nat.le_refl 0
  | cons c s ih =>
    cases e with
    | true => exact Nat.succ_le_succ (ih false)
    | false =>
      rw [unescapeFrom]
      split
      · exact Nat.le_succ_of_le (ih true)
      · exact Nat.succ_le_succ (ih false)

/-- A text with a backslash gets shorter. -/
theorem not_mem_of_length {s : Text} (h : s.length ≤ (unescapeFrom false s).length) : '\\' ∉ s := by
  induction s with
  | nil => exact List.not_mem_nil
  | cons c s ih =>
    rw [unescapeFrom] at h
    split at h
    · have := length_unescapeFrom_le true s
      rw [List.length_cons] at h
      omega
    · rename_i hc
      rw [List.mem_cons, not_or]
      exact ⟨Ne.symm hc, ih (Nat.le_of_succ_le_succ h)⟩

/-- The character after an argument is not escaped. -/
theorem IsStringBody.escapedAfter {q : Text} (h : IsStringBody q) :
    escapedAfter false q = false := by
  induction h with
  | nil => rfl
  | char _ hback _ ih => rwa [Strace.escapedAfter, if_neg hback]
  | escape _ ih => rwa [Strace.escapedAfter, if_pos rfl, Strace.escapedAfter]

theorem IsArgument.escapedAfter {nested : Bool} {s : Text} (h : IsArgument nested s) :
    escapedAfter false s = false := by
  have hstep {c : Char} {s : Text} (hc : c ≠ '\\') :
      Strace.escapedAfter false (c :: s) = Strace.escapedAfter false s := by
    rw [Strace.escapedAfter, if_neg hc]
  induction h with
  | nil => rfl
  | @char _ c s hc _ ih =>
    rw [hstep (by rintro rfl; exact absurd hc (by decide)), ih]
  | comma _ ih => rw [hstep (by decide), ih]
  | string hq _ ih =>
    rw [hstep (by decide), escapedAfter_append, hq.escapedAfter, hstep (by decide), ih]
  | braces _ _ iht ihs =>
    rw [hstep (by decide), escapedAfter_append, iht, hstep (by decide), ihs]
  | brackets _ _ iht ihs =>
    rw [hstep (by decide), escapedAfter_append, iht, hstep (by decide), ihs]

/-! ## The loop -/

theorem parseScan_backslash (s : Text) (nb : ℤ) (curr : Text) :
    parseScan ('\\' :: s) nb false curr = parseScan s nb true curr := by
  rw [parseScan, if_pos rfl]

theorem parseScan_cut (s curr : Text) :
    parseScan (',' :: s) 0 false curr = strip curr :: parseScan s 0 false [] := by
  rw [parseScan, if_neg (by decide), if_neg (by decide), if_neg (by decide), if_pos (by decide)]

theorem parseScan_keep {c : Char} {nb : ℤ} (hback : c ≠ '\\') (hcut : ¬ (c = ',' ∧ nb = 0))
    (s curr : Text) : parseScan (c :: s) nb false curr =
      parseScan s (nb + charLevel ['{'] ['}'] c) false (curr ++ [c]) := by
  rw [parseScan, if_neg hback]
  split
  · rename_i h
    rw [h]
    rfl
  · split
    · rename_i h
      rw [h]
      rfl
    · rename_i ho hc
      have hlevel : charLevel ['{'] ['}'] c = 0 := by
        rw [charLevel, if_neg (by simpa using ho), if_neg (by simpa using hc)]
      rw [if_neg (by simpa using hcut), hlevel, Int.add_zero]

/-- The commas of a text that is read from the level `nb` on are inside braces. -/
def NoCut (nb : ℤ) (s : Text) : Prop :=
  ∀ pre suf, s = pre ++ ',' :: suf → nb + level ['{'] ['}'] pre ≠ 0

theorem NoCut.cons {c : Char} {s : Text} {nb : ℤ} (hcut : ¬ (c = ',' ∧ nb = 0))
    (h : NoCut (nb + charLevel ['{'] ['}'] c) s) : NoCut nb (c :: s) := by
  intro pre suf heq hz
  cases pre with
  | nil => exact hcut ⟨(List.cons.inj heq).1, by simpa using hz⟩
  | cons d pre =>
    obtain ⟨rfl, rfl⟩ := List.cons.inj heq
    exact h pre suf rfl (by rw [level_cons] at hz; omega)

/-- The loop either ends a part at a comma, or reads the whole text as the last part. -/
theorem parseScan_cases (s : Text) (nb : ℤ) (e : Bool) (curr : Text) :
    (∃ u v, s = u ++ ',' :: v ∧
      (e = false → '\\' ∉ u → nb + level ['{'] ['}'] u = 0 ∧ NoCut nb u) ∧
      parseScan s nb e curr = strip (curr ++ unescapeFrom e u) :: parseScan v 0 false []) ∨
    ((e = false → '\\' ∉ s → NoCut nb s) ∧
      parseScan s nb e curr = lastWord (curr ++ unescapeFrom e s)) := by
  induction s generalizing nb e curr with
  | nil =>
    refine .inr ⟨fun _ _ pre suf heq => ?_, ?_⟩
    · simp at heq
    · cases e <;> rw [parseScan, unescapeFrom, List.append_nil]
  | cons c s ih =>
    cases e with
    | true =>
      obtain ⟨u, v, rfl, -, hscan⟩ | ⟨-, hscan⟩ := ih nb false (curr ++ [c])
      · refine .inl ⟨c :: u, v, rfl, fun h => absurd h.symm Bool.false_ne_true, ?_⟩
        rw [parseScan, hscan, unescapeFrom, List.append_assoc, List.singleton_append]
      · refine .inr ⟨fun h => absurd h.symm Bool.false_ne_true, ?_⟩
        rw [parseScan, hscan, unescapeFrom, List.append_assoc, List.singleton_append]
    | false =>
      by_cases hback : c = '\\'
      · subst hback
        obtain ⟨u, v, rfl, -, hscan⟩ | ⟨-, hscan⟩ := ih nb true curr
        · refine .inl ⟨'\\' :: u, v, rfl, fun _ hmem => absurd List.mem_cons_self hmem, ?_⟩
          rw [parseScan_backslash, hscan, unescapeFrom, if_pos rfl]
        · refine .inr ⟨fun _ hmem => absurd List.mem_cons_self hmem, ?_⟩
          rw [parseScan_backslash, hscan, unescapeFrom, if_pos rfl]
      · by_cases hcut : c = ',' ∧ nb = 0
        · obtain ⟨rfl, rfl⟩ := hcut
          refine .inl ⟨[], s, rfl, fun _ _ => ⟨rfl, fun pre suf heq => ?_⟩, ?_⟩
          · simp at heq
          · rw [parseScan_cut, unescapeFrom, List.append_nil]
        · have hne {u : Text} (h : '\\' ∉ c :: u) : '\\' ∉ u := fun hm =>
            h (List.mem_cons_of_mem c hm)
          obtain ⟨u, v, rfl, hu, hscan⟩ | ⟨hs, hscan⟩ :=
            ih (nb + charLevel ['{'] ['}'] c) false (curr ++ [c])
          · refine .inl ⟨c :: u, v, rfl, fun _ hmem => ?_, ?_⟩
            · obtain ⟨hl, hn⟩ := hu rfl (hne hmem)
              exact ⟨by rw [level_cons]; omega, hn.cons hcut⟩
            · rw [parseScan_keep hback hcut, hscan, unescapeFrom, if_neg hback,
                List.append_assoc, List.singleton_append]
          · refine .inr ⟨fun _ hmem => (hs rfl (hne hmem)).cons hcut, ?_⟩
            rw [parseScan_keep hback hcut, hscan, unescapeFrom, if_neg hback,
              List.append_assoc, List.singleton_append]

/-! ## What a first part can be -/

/-- Text without its escaping backslashes does not stand, with a comma after it, at the start of
that text after some backslashes. -/
theorem not_prefix_run (y : Text) (k : ℕ) :
    ¬ unescapeFrom false y ++ [','] <+: List.replicate (k + 1) '\\' ++ y := by
  obtain ⟨n, hn⟩ : ∃ n, y.length ≤ n := ⟨_, Nat.le_refl _⟩
  induction n generalizing y k with
  | zero =>
    rw [List.eq_nil_of_length_eq_zero (Nat.le_zero.mp hn), List.replicate_succ]
    intro h
    exact absurd (List.cons_prefix_cons.mp h).1 (by decide)
  | succ n ih =>
    rw [List.replicate_succ, List.cons_append]
    match y with
    | [] =>
      intro h
      exact absurd (List.cons_prefix_cons.mp h).1 (by decide)
    | c :: y =>
      by_cases hc : c = '\\'
      · subst hc
        match y with
        | [] =>
          intro h
          exact absurd (List.cons_prefix_cons.mp h).1 (by decide)
        | d :: y =>
          intro h
          rw [unescapeFrom, if_pos rfl, unescapeFrom, List.cons_append,
            List.cons_prefix_cons] at h
          obtain ⟨rfl, h⟩ := h
          have hrun : List.replicate k '\\' ++ '\\' :: '\\' :: y =
              List.replicate (k + 1 + 1) '\\' ++ y := by
            simp [List.replicate_succ']
          rw [hrun] at h
          refine ih y (k + 1) ?_ h
          simp only [List.length_cons] at hn
          omega
      · intro h
        rw [unescapeFrom, if_neg hc, List.cons_append, List.cons_prefix_cons] at h
        exact hc h.1

/-- Text without its escaping backslashes does not stand, with a comma after it, at the start of
that text. -/
theorem not_prefix_self (y : Text) : ¬ unescapeFrom false y ++ [','] <+: y := by
  induction y with
  | nil =>
    intro h
    simp [unescapeFrom] at h
  | cons c y ih =>
    rw [unescapeFrom]
    by_cases hc : c = '\\'
    · rw [if_pos hc, hc]
      match y with
      | [] =>
        intro h
        exact absurd (List.cons_prefix_cons.mp h).1 (by decide)
      | d :: y =>
        intro h
        rw [unescapeFrom, List.cons_append, List.cons_prefix_cons] at h
        obtain ⟨rfl, h⟩ := h
        exact not_prefix_run y 0 h
    · rw [if_neg hc, List.cons_append, List.cons_prefix_cons]
      exact fun h => ih h.2

/-- What stands before a character that is no white space is kept. -/
theorem prefix_strip {c d : Char} {x z : Text} (hc : isBlank c = false) (hd : isBlank d = false) :
    c :: (x ++ [d]) <+: strip (c :: (x ++ d :: z)) := by
  have hdrop : (c :: (x ++ d :: z)).dropWhile isBlank = c :: (x ++ d :: z) :=
    List.dropWhile_cons_of_neg (by simp [hc])
  rw [strip, hdrop]
  induction z using List.reverseRecOn with
  | nil =>
    rw [List.rdropWhile_eq_self_iff.mpr]
    intro hne
    have hlast : (c :: (x ++ [d])).getLast hne = d := by simp
    rw [hlast, hd]
    exact Bool.false_ne_true
  | append_singleton z w ih =>
    have hsplit : c :: (x ++ d :: (z ++ [w])) = (c :: (x ++ d :: z)) ++ [w] := by simp
    rw [hsplit, List.rdropWhile_concat]
    split
    · exact ih (List.dropWhile_cons_of_neg (by simp [hc]))
    · exact ⟨z ++ [w], by simp⟩

theorem length_strip_le (s : Text) : (strip s).length ≤ s.length :=
  ((List.rdropWhile_prefix isBlank _).length_le).trans (List.dropWhile_suffix isBlank).length_le

/-- White space in front of a part does not matter. -/
theorem strip_blanks_append {b : Text} (hb : ∀ c ∈ b, isBlank c = true) (s : Text) :
    strip (b ++ s) = strip s := by
  induction b with
  | nil => rfl
  | cons c b ih =>
    rw [List.cons_append, strip_cons_of_isBlank (hb c List.mem_cons_self),
      ih fun d hd => hb d (List.mem_cons_of_mem c hd)]

/-- An argument starts with no backslash. -/
theorem Argument.head (a : Argument) : ∃ c t, a.text = c :: t ∧ c ≠ '\\' := by
  obtain ⟨text, harg, hne⟩ := a
  cases harg with
  | nil => exact absurd rfl hne
  | @char _ c s hc => exact ⟨c, s, rfl, by rintro rfl; exact absurd hc (by decide)⟩
  | string => exact ⟨_, _, rfl, by decide⟩
  | braces => exact ⟨_, _, rfl, by decide⟩
  | brackets => exact ⟨_, _, rfl, by decide⟩

/-- What an argument must not contain. -/
structure IsPlain (s : Text) : Prop where
  no_backslash : '\\' ∉ s
  trimmed : Trimmed s
  no_comma : ¬ OccursAtZero ['{'] ['}'] [','] s

/-- A part that is read from the start of a longer text is not the argument there. -/
theorem Argument.strip_ne (a : Argument) (w : Text) :
    strip (unescapeFrom false (a.text ++ ',' :: w)) ≠ a.text := by
  intro h
  obtain ⟨c, t, hat, hc⟩ := a.head
  have htrim : Trimmed a.text := h ▸ trimmed_strip _
  have hblank : isBlank c = false := htrim.head c (by rw [hat]; rfl)
  have hcomma (v : Text) : unescapeFrom false (',' :: v) = ',' :: unescapeFrom false v := rfl
  have hun : unescapeFrom false a.text = c :: unescapeFrom false t := by
    rw [hat, unescapeFrom, if_neg hc]
  have hprefix : unescapeFrom false a.text ++ [','] <+: a.text := by
    calc unescapeFrom false a.text ++ [','] = c :: (unescapeFrom false t ++ [',']) := by
          rw [hun, List.cons_append]
      _ <+: strip (c :: (unescapeFrom false t ++ ',' :: unescapeFrom false w)) :=
          prefix_strip hblank rfl
      _ = strip (unescapeFrom false (a.text ++ ',' :: w)) := by
          rw [unescapeFrom_append, a.isArgument.escapedAfter, hun, hcomma, List.cons_append]
      _ = a.text := h
  exact not_prefix_self a.text hprefix

/-! ## Lists of arguments -/

theorem not_occursAtZero_of_noCut {s : Text} (h : NoCut 0 s) :
    ¬ OccursAtZero ['{'] ['}'] [','] s := by
  rintro ⟨pre, suf, heq, hz⟩
  exact h pre suf heq (by rw [hz]; rfl)

theorem IsPlain.noCut {s : Text} (h : IsPlain s) : NoCut 0 s := by
  intro pre suf heq hz
  exact h.no_comma ⟨pre, suf, heq, by omega⟩

/-- A part is read back when it is plain. -/
theorem isPlain_of_strip {s curr : Text} (hcurr : ∀ c ∈ curr, isBlank c = true)
    (h : strip (curr ++ unescapeFrom false s) = s) (hcut : '\\' ∉ s → NoCut 0 s) : IsPlain s := by
  rw [strip_blanks_append hcurr] at h
  have hback : '\\' ∉ s := by
    refine not_mem_of_length ?_
    calc s.length = (strip (unescapeFrom false s)).length := by rw [h]
      _ ≤ (unescapeFrom false s).length := length_strip_le _
  exact ⟨hback, h ▸ trimmed_strip _, not_occursAtZero_of_noCut (hcut hback)⟩

/-- A part that ends inside an argument is not the argument. -/
theorem strip_ne_of_append {s u v curr : Text} (hcurr : ∀ c ∈ curr, isBlank c = true)
    (hs : s = u ++ ',' :: v) : strip (curr ++ unescapeFrom false u) ≠ s := by
  intro h
  rw [strip_blanks_append hcurr] at h
  have hlen := congrArg List.length h
  have h₁ := length_strip_le (unescapeFrom false u)
  have h₂ := length_unescapeFrom_le false u
  rw [hs, List.length_append, List.length_cons] at hlen
  omega

theorem isPlain_of_last {a : Argument} {curr : Text} (hcurr : ∀ c ∈ curr, isBlank c = true)
    (h : parseScan a.text 0 false curr = [a.text]) : IsPlain a.text := by
  obtain ⟨u, v, hs, -, hscan⟩ | ⟨hcut, hscan⟩ := parseScan_cases a.text 0 false curr
  · rw [hscan] at h
    exact absurd (List.cons.inj h).1 (strip_ne_of_append hcurr hs)
  · rw [hscan, lastWord] at h
    split at h
    · exact isPlain_of_strip hcurr (List.cons.inj h).1 (hcut rfl)
    · cases h

/-- When an argument before others is read back, the scan goes on with the next one. -/
theorem isPlain_of_cons {a : Argument} {rest curr : Text} {as : List Text} (has : as ≠ [])
    (hcurr : ∀ c ∈ curr, isBlank c = true)
    (h : parseScan (a.text ++ ',' :: ' ' :: rest) 0 false curr = a.text :: as) :
    IsPlain a.text ∧ level ['{'] ['}'] a.text = 0 ∧ parseScan rest 0 false [' '] = as := by
  obtain ⟨u, v, hs, hu, hscan⟩ | ⟨-, hscan⟩ :=
    parseScan_cases (a.text ++ ',' :: ' ' :: rest) 0 false curr
  · rw [hscan] at h
    obtain ⟨hfirst, hrest⟩ := List.cons.inj h
    have hlong {w : Text} : u ≠ a.text ++ ',' :: w := by
      rintro rfl
      rw [strip_blanks_append hcurr] at hfirst
      exact a.strip_ne w hfirst
    have hua : u = a.text ∧ v = ' ' :: rest := by
      obtain ⟨x, hx, hy⟩ | ⟨x, hx, hy⟩ := List.append_eq_append_iff.mp hs
      · cases x with
        | nil => exact ⟨by rw [hx, List.append_nil], (List.cons.inj hy).2.symm⟩
        | cons c x =>
          obtain ⟨rfl, -⟩ := List.cons.inj hy
          exact absurd hx hlong
      · cases x with
        | nil => exact ⟨by rw [hx, List.append_nil], (List.cons.inj hy).2⟩
        | cons c x =>
          obtain ⟨rfl, -⟩ := List.cons.inj hy
          exact absurd hfirst (strip_ne_of_append hcurr hx)
    obtain ⟨rfl, rfl⟩ := hua
    have hplain := isPlain_of_strip hcurr hfirst fun hb => (hu rfl hb).2
    have hlevel := (hu rfl hplain.no_backslash).1
    have hkeep := @parseScan_keep ' ' 0 (by decide) (by decide) rest []
    exact ⟨hplain, by omega, hkeep.symm.trans hrest⟩
  · rw [hscan, lastWord] at h
    split at h
    · exact absurd (List.cons.inj h).2.symm has
    · cases h

/-- Plain text is read as it is. -/
theorem parseScan_append {s : Text} {nb : ℤ} (hback : '\\' ∉ s) (hcut : NoCut nb s)
    (t curr : Text) : parseScan (s ++ t) nb false curr =
      parseScan t (nb + level ['{'] ['}'] s) false (curr ++ s) := by
  induction s generalizing nb curr with
  | nil => simp
  | cons c s ih =>
    rw [List.mem_cons, not_or] at hback
    have hc : ¬ (c = ',' ∧ nb = 0) := by
      rintro ⟨rfl, rfl⟩
      exact hcut [] s rfl rfl
    have hs : NoCut (nb + charLevel ['{'] ['}'] c) s := by
      intro pre suf heq hz
      exact hcut (c :: pre) suf (by rw [heq]; rfl) (by rw [level_cons]; omega)
    rw [List.cons_append, parseScan_keep (Ne.symm hback.1) hc, ih hback.2 hs, level_cons,
      Int.add_assoc, List.append_assoc, List.singleton_append]

/-- The texts of a list of arguments. -/
def texts (args : List Argument) : List Text := args.map Argument.text

/-- The condition under which a list of arguments is read back. -/
structure ReadsBack (args : List Argument) : Prop where
  plain : ∀ a ∈ args, IsPlain a.text
  closed : ∀ a ∈ args.dropLast, level ['{'] ['}'] a.text = 0

theorem readsBack_cons {a b : Argument} {args : List Argument} :
    ReadsBack (a :: b :: args) ↔
      IsPlain a.text ∧ level ['{'] ['}'] a.text = 0 ∧ ReadsBack (b :: args) := by
  constructor
  · rintro ⟨hp, hl⟩
    rw [List.dropLast_cons_cons] at hl
    exact ⟨hp a List.mem_cons_self, hl a List.mem_cons_self,
      fun c hc => hp c (List.mem_cons_of_mem a hc), fun c hc => hl c (List.mem_cons_of_mem a hc)⟩
  · rintro ⟨ha, hl, hp, hc⟩
    refine ⟨List.forall_mem_cons.mpr ⟨ha, hp⟩, ?_⟩
    rw [List.dropLast_cons_cons]
    exact List.forall_mem_cons.mpr ⟨hl, hc⟩

theorem joinArguments_cons (a b : Argument) (args : List Argument) :
    joinArguments (texts (a :: b :: args)) =
      a.text ++ ',' :: ' ' :: joinArguments (texts (b :: args)) := by
  rw [joinArguments, texts, List.map_cons, List.map_cons, List.intercalate_cons_cons,
    List.append_assoc]
  rfl

/-- The loop reads the arguments back if and only if they are plain. -/
theorem parseScan_iff (a : Argument) (args : List Argument) {curr : Text}
    (hcurr : ∀ c ∈ curr, isBlank c = true) :
    parseScan (joinArguments (texts (a :: args))) 0 false curr = texts (a :: args) ↔
      ReadsBack (a :: args) := by
  induction args generalizing a curr with
  | nil =>
    have hjoin : joinArguments (texts [a]) = a.text := List.intercalate_singleton
    rw [hjoin]
    constructor
    · intro h
      exact ⟨List.forall_mem_singleton.mpr (isPlain_of_last hcurr h), fun b hb => nomatch hb⟩
    · intro h
      have hplain := h.plain a List.mem_cons_self
      have hread := parseScan_append hplain.no_backslash hplain.noCut [] curr
      rw [List.append_nil] at hread
      rw [hread, parseScan, lastWord, if_pos (by simp [a.ne_nil]), strip_blanks_append hcurr,
        strip_of_trimmed hplain.trimmed]
      rfl
  | cons b args ih =>
    have hspace : ∀ c ∈ [' '], isBlank c = true := by decide
    rw [joinArguments_cons, readsBack_cons, ← ih b hspace]
    constructor
    · exact isPlain_of_cons (List.cons_ne_nil _ _) hcurr
    · rintro ⟨hplain, hlevel, hrest⟩
      have hkeep := @parseScan_keep ' ' 0 (by decide) (by decide)
        (joinArguments (texts (b :: args))) []
      rw [parseScan_append hplain.no_backslash hplain.noCut, hlevel, Int.add_zero, parseScan_cut,
        strip_blanks_append hcurr, strip_of_trimmed hplain.trimmed]
      exact congrArg (a.text :: ·) (hkeep.trans hrest)

/-! ## Main results -/

/-- The arguments are returned unchanged, and the parsers read the fifth argument of `recvfrom` and
the second argument of `connect`, if and only if no argument has a backslash, white space at its
ends or a comma outside braces, and the braces of all but the last one match in number. -/
theorem parseArgs_iff (args : List Argument) :
    (parseArgs (joinArguments (texts args)) = texts args ∧ ∀ entityId funcName,
      recvfromSockText (callTuple entityId funcName (parseArgs (joinArguments (texts args)))) =
          (texts args)[4]? ∧
        connectSockText (callTuple entityId funcName (parseArgs (joinArguments (texts args)))) =
          (texts args)[1]?) ↔
      (∀ a ∈ args, '\\' ∉ a.text ∧ Trimmed a.text ∧ ¬ OccursAtZero ['{'] ['}'] [','] a.text) ∧
        ∀ a ∈ args.dropLast, level ['{'] ['}'] a.text = 0 := by
  have hread : parseArgs (joinArguments (texts args)) = texts args ↔ ReadsBack args := by
    cases args with
    | nil => exact ⟨fun _ => ⟨fun _ ha => (nomatch ha), fun _ ha => (nomatch ha)⟩, fun _ => rfl⟩
    | cons a args => exact parseScan_iff a args fun c hc => nomatch hc
  constructor
  · rintro ⟨h, -⟩
    have hback := hread.mp h
    exact ⟨fun a ha => ⟨(hback.plain a ha).no_backslash, (hback.plain a ha).trimmed,
      (hback.plain a ha).no_comma⟩, hback.closed⟩
  · rintro ⟨hplain, hclosed⟩
    have h := hread.mpr ⟨fun a ha => ⟨(hplain a ha).1, (hplain a ha).2.1, (hplain a ha).2.2⟩,
      hclosed⟩
    rw [h]
    exact ⟨rfl, fun _ _ => ⟨rfl, rfl⟩⟩

/-- `"a,b"` -/
def quotedComma : Argument where
  text := "\"a,b\"".toList
  isArgument := .string (q := "a,b".toList) (s := [])
    (.char (by decide) (by decide) (.char (by decide) (by decide) (.char (by decide) (by decide)
      .nil))) .nil
  ne_nil := by decide

/-- A comma in a string splits it. -/
theorem parseArgs_quotedComma :
    parseArgs (joinArguments (texts [quotedComma])) = ["\"a".toList, "b\"".toList] ∧
      texts [quotedComma] = ["\"a,b\"".toList] := by decide

end Survol.Strace
