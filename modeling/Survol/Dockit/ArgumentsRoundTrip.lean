import Survol.Dockit.ArgumentsTree

/-!
# Atoms and quoted strings, there and back

The arguments a tracer prints are atoms, double-quoted strings with their quotes
and backslashes escaped, and bracketed lists of arguments. Parsing a printed list
gives it back exactly when no quoted string is of a kind that the loops stripping
an argument, or the search for the unfinished marker, mistake:
`parseCallArguments_print_iff`.

## Main definitions

* `Leaf` — an atom or a quoted string, with `Leaf.text` as printed and `Leaf.val`
  as it should be returned.
* `Leaf.Faithful` — the strings that survive.
-/

open PyText

namespace Survol.Dockit

/-! ## Leaves -/

/-- The characters of a bare atom: no space, comma, double quote, backslash or
bracket of any kind. -/
def isAtomChar (c : Char) : Bool :=
  !(c = ' ' || c = ',' || c = '"' || c = '\\' || c = '(' || c = ')' || c = '[' || c = ']'
    || c = '{' || c = '}')

/-- A bare atom: a non-empty text of such characters. -/
def Atom : Type := { t : Text // t ≠ [] ∧ ∀ c ∈ t, isAtomChar c = true }

/-- The double quotes and backslashes of a text, escaped by a backslash. -/
def escape (raw : Text) : Text :=
  raw.flatMap fun c => if c = '"' ∨ c = '\\' then ['\\', c] else [c]

/-- An argument without brackets: an atom, or a quoted string given by its raw text. -/
inductive Leaf
  | atom (a : Atom)
  | quoted (raw : Text)

/-- A leaf as it is printed. -/
def Leaf.text : Leaf → Text
  | .atom a => a.val
  | .quoted raw => '"' :: (escape raw ++ ['"'])

/-- A leaf as it should come back: an atom unchanged, a quoted string without its
two outer quotes and still escaped. -/
def Leaf.val : Leaf → Text
  | .atom a => a.val
  | .quoted raw => escape raw

/-- The strings that come back: what stands between the outer quotes does not
begin with a space, end with a double quote or with a double quote and three
dots, or contain the unfinished marker. -/
def Leaf.Faithful : Leaf → Prop
  | .atom _ => True
  | .quoted raw =>
    (escape raw).head? ≠ some ' ' ∧ (escape raw).getLast? ≠ some '"' ∧
    ¬ truncatedMark <:+ escape raw ∧ ¬ unfinishedMarker <:+: escape raw

mutual
/-- The leaves of a printed argument. -/
def Tree.leaves {α : Type} : Tree α → List α
  | .leaf a => [a]
  | .node _ l => listLeaves l
/-- The leaves of a printed list. -/
def listLeaves {α : Type} : List (Tree α) → List α
  | [] => []
  | t :: ts => t.leaves ++ listLeaves ts
end

/-! ## Leaves are fields -/

theorem run_escape (raw : Text) :
    (⟨true, 0, false⟩ : Lex).run (escape raw) = some ⟨true, 0, false⟩ := by
  induction raw with
  | nil => rfl
  | cons c raw ih =>
    rw [escape, List.flatMap_cons, Lex.run_append, ← escape]
    by_cases h : c = '"' ∨ c = '\\'
    · simp [h, Lex.run, Lex.step, ih]
    · rw [not_or] at h
      simp [h.1, h.2, Lex.run, Lex.step, ih]

theorem run_atom (t : Text) (h : ∀ c ∈ t, isAtomChar c = true) :
    Lex.fresh.run t = some Lex.fresh := by
  induction t with
  | nil => rfl
  | cons c t ih =>
    have hc := h c List.mem_cons_self
    simp only [isAtomChar, Bool.not_eq_true', Bool.or_eq_false_iff, decide_eq_false_iff_not] at hc
    have hstep : Lex.fresh.step c = some Lex.fresh := by simp [Lex.step, Lex.fresh, hc]
    rw [Lex.run, hstep]
    exact ih fun d hd => h d (List.mem_cons_of_mem c hd)

theorem isField_text (a : Leaf) : IsField a.text := by
  cases a with
  | atom a =>
    obtain ⟨t, hne, ht⟩ := a
    refine ⟨run_atom t ht, fun c hc => ?_, hne⟩
    have hc := ht c (List.mem_of_mem_head? hc)
    simp only [isAtomChar, Bool.not_eq_true', Bool.or_eq_false_iff, decide_eq_false_iff_not] at hc
    simp [hc]
  | quoted raw =>
    refine ⟨?_, by simp [Leaf.text], by simp [Leaf.text]⟩
    have hopen : Lex.fresh.step '"' = some ⟨true, 0, false⟩ := by decide
    rw [Leaf.text, Lex.run, hopen, Option.bind_some, Lex.run_append, run_escape]
    decide

/-! ## What stripping keeps of a leaf -/

/-- The correction for truncated strings shortens what it changes. -/
theorem length_dropQuoteOfTruncated (t : Text) :
    (dropQuoteOfTruncated t).length = if truncatedMark <:+ t then t.length - 1 else t.length := by
  unfold dropQuoteOfTruncated
  simp only [List.isSuffixOf_iff_suffix]
  split
  · rename_i h
    have hlen : truncatedMark.length = 4 := by decide
    have := hlen ▸ h.length_le
    simp only [List.length_append, List.length_take]
    simp
    omega
  · rfl

theorem length_dropQuoteOfTruncated_le (t : Text) : (dropQuoteOfTruncated t).length ≤ t.length := by
  rw [length_dropQuoteOfTruncated]
  split <;> omega

theorem head_escape (raw : Text) : (escape raw).head? ≠ some '"' := by
  cases raw with
  | nil => simp [escape]
  | cons c raw =>
    rw [escape, List.flatMap_cons]
    by_cases h : c = '"' ∨ c = '\\'
    · simp [h]
    · rw [not_or] at h
      simp [h]

section
variable {e : Text}

theorem rdropWhile_concat_quote (t : Text) :
    (t ++ ['"']).rdropWhile (· = '"') = t.rdropWhile (· = '"') := by
  simp

/-- A quoted text that begins with neither a space nor a quote loses only quotes at its end. -/
theorem closedArg_quoted_of_head (hq : e.head? ≠ some '"') (hs : e.head? ≠ some ' ') :
    closedArg ('"' :: (e ++ ['"'])) = dropQuoteOfTruncated (e.rdropWhile (· = '"')) := by
  have hdrop : ('"' :: (e ++ ['"'])).dropWhile isSpaceOrQuote
      = if e = [] then [] else e ++ ['"'] := by
    cases e with
    | nil => decide
    | cons c t =>
      have hc : isSpaceOrQuote c = false := by
        simp only [List.head?_cons, ne_eq, Option.some.injEq] at hq hs
        simp [isSpaceOrQuote, hq, hs]
      simp [hc, show isSpaceOrQuote '"' = true from rfl]
  rw [closedArg, clean, hdrop]
  split
  · rename_i h
    simp [h]
  · rw [rdropWhile_concat_quote]

/-- A quoted text that begins with a space comes back shorter. -/
theorem length_closedArg_lt_of_space {t : Text} :
    (closedArg ('"' :: (' ' :: t ++ ['"']))).length < (' ' :: t).length := by
  refine (length_dropQuoteOfTruncated_le _).trans_lt ?_
  have hdrop : ('"' :: (' ' :: t ++ ['"'])).dropWhile isSpaceOrQuote
      = (t ++ ['"']).dropWhile isSpaceOrQuote := by
    simp [isSpaceOrQuote]
  rw [hdrop, List.dropWhile_append]
  split
  · simp [isSpaceOrQuote]
  · rw [rdropWhile_concat_quote, List.length_cons]
    have h₁ := ( List.rdropWhile_prefix (· = '"') (t.dropWhile isSpaceOrQuote)).length_le
    have h₂ := (t.dropWhile_suffix (p := isSpaceOrQuote)).length_le
    omega

theorem length_closedArg_quoted_le (hq : e.head? ≠ some '"') :
    (closedArg ('"' :: (e ++ ['"']))).length ≤ e.length := by
  by_cases hs : e.head? = some ' '
  · obtain ⟨t, rfl⟩ : ∃ t, e = ' ' :: t := by
      cases e with
      | nil => simp at hs
      | cons c t => exact ⟨t, by simpa using hs⟩
    exact length_closedArg_lt_of_space.le
  · rw [closedArg_quoted_of_head hq hs]
    exact (length_dropQuoteOfTruncated_le _).trans ( List.rdropWhile_prefix _ _).length_le

/-- A quoted text comes back if and only if nothing of it is stripped or rewritten. -/
theorem closedArg_quoted_eq_iff (hq : e.head? ≠ some '"') :
    closedArg ('"' :: (e ++ ['"'])) = e ↔
      e.head? ≠ some ' ' ∧ e.getLast? ≠ some '"' ∧ ¬ truncatedMark <:+ e := by
  by_cases hs : e.head? = some ' '
  · obtain ⟨t, rfl⟩ : ∃ t, e = ' ' :: t := by
      cases e with
      | nil => simp at hs
      | cons c t => exact ⟨t, by simpa using hs⟩
    simp only [List.head?_cons, ne_eq, not_true_eq_false, false_and, iff_false]
    intro h
    have := length_closedArg_lt_of_space (t := t)
    rw [h] at this
    exact lt_irrefl _ this
  · rw [closedArg_quoted_of_head hq hs]
    have hlast : e.rdropWhile (· = '"') = e ↔ e.getLast? ≠ some '"' := by
      rcases List.eq_nil_or_concat e with rfl | ⟨t, c, rfl⟩
      · simp
      · simp [List.rdropWhile_eq_self_iff]
    constructor
    · intro h
      have hpre := List.rdropWhile_prefix (· = '"') e
      have hlen := congrArg List.length h
      rw [length_dropQuoteOfTruncated] at hlen
      split at hlen
      · rename_i ht
        have hle := hpre.length_le
        have hlen₄ : truncatedMark.length = 4 := by decide
        have := hlen₄ ▸ ht.length_le
        omega
      · rename_i ht
        have hself := hpre.eq_of_length hlen
        rw [hself] at ht
        exact ⟨hs, hlast.mp hself, ht⟩
    · rintro ⟨-, hl, ht⟩
      rw [hlast.mpr hl, dropQuoteOfTruncated, if_neg (by rwa [List.isSuffixOf_iff_suffix])]

end

theorem closedArg_atom {t : Text} (h : ∀ c ∈ t, isAtomChar c = true) : closedArg t = t := by
  have hsp : ∀ c ∈ t, isSpaceOrQuote c = false := by
    intro c hc
    have := h c hc
    simp only [isAtomChar, Bool.not_eq_true', Bool.or_eq_false_iff, decide_eq_false_iff_not] at this
    simp [isSpaceOrQuote, this]
  have hq : '"' ∉ t := fun hc => by simpa [isSpaceOrQuote] using hsp _ hc
  have hdrop : t.dropWhile isSpaceOrQuote = t := by
    cases t with
    | nil => rfl
    | cons c t => simp [hsp c List.mem_cons_self]
  have hrdrop : t.rdropWhile (· = '"') = t := by
    rw [List.rdropWhile_eq_self_iff]
    intro hne hl
    have := of_decide_eq_true hl
    exact hq (this ▸ List.getLast_mem hne)
  have hsuff : ¬ truncatedMark <:+ t := fun hs => hq (hs.subset (by decide))
  rw [closedArg, clean, hdrop, hrdrop, dropQuoteOfTruncated,
    if_neg (by rwa [List.isSuffixOf_iff_suffix])]

/-- Without the marker, a leaf comes back if and only if it is faithful. -/
theorem closedArg_text_eq_iff (a : Leaf) (hm : ¬ unfinishedMarker <:+: a.text) :
    closedArg a.text = a.val ↔ a.Faithful := by
  cases a with
  | atom a => simp [Leaf.Faithful, Leaf.text, Leaf.val, closedArg_atom a.2.2]
  | quoted raw =>
    have hm' : ¬ unfinishedMarker <:+: escape raw := by
      refine fun h => hm (h.trans ?_)
      exact ⟨['"'], ['"'], by simp [Leaf.text]⟩
    rw [Leaf.text, Leaf.val, closedArg_quoted_eq_iff (head_escape raw), Leaf.Faithful]
    simp [hm']

theorem length_closedArg_text_le (a : Leaf) : (closedArg a.text).length ≤ a.val.length := by
  cases a with
  | atom a => rw [Leaf.text, Leaf.val, closedArg_atom a.2.2]
  | quoted raw => exact length_closedArg_quoted_le (head_escape raw)

/-! ## Lists of leaves -/

section
variable {α : Type} {f g : α → Text}

mutual
theorem Tree.arg_eq_iff : ∀ t : Tree α, t.arg f = t.arg g ↔ ∀ a ∈ t.leaves, f a = g a
  | .leaf a => by simp [Tree.arg, Tree.leaves]
  | .node b l => by
    rw [Tree.arg, Tree.arg, Tree.leaves, ← argList_eq_iff l]
    simp only [Arg.list.injEq]
theorem argList_eq_iff : ∀ ts : List (Tree α),
    argList f ts = argList g ts ↔ ∀ a ∈ listLeaves ts, f a = g a
  | [] => by simp [argList, listLeaves]
  | t :: ts => by
    rw [argList, argList, List.cons.injEq, Tree.arg_eq_iff t, argList_eq_iff ts]
    simp only [listLeaves, List.mem_append, or_imp, forall_and]
end

mutual
theorem Tree.text_infix_print : ∀ t : Tree α, ∀ a ∈ t.leaves, f a <:+: t.print f
  | .leaf a => by simp [Tree.print, Tree.leaves]
  | .node b l => by
    intro a ha
    rw [Tree.leaves] at ha
    refine (text_infix_printList l a ha).trans ?_
    exact ⟨[b.opening], [b.closing], by simp [Tree.print]⟩
theorem text_infix_printList : ∀ ts : List (Tree α), ∀ a ∈ listLeaves ts, f a <:+: printList f ts
  | [], a, ha => by simp [listLeaves] at ha
  | [t], a, ha => by
    simp only [listLeaves, List.append_nil] at ha
    simpa [printList, printRest] using Tree.text_infix_print t a ha
  | t :: t' :: ts, a, ha => by
    rw [listLeaves, List.mem_append] at ha
    rw [printList, printRest_cons]
    rcases ha with ha | ha
    · exact (Tree.text_infix_print t a ha).trans (List.prefix_append _ _).isInfix
    · refine (text_infix_printList (t' :: ts) a ha).trans ?_
      exact ⟨t.print f ++ [',', ' '], [], by simp⟩
end

end

mutual
/-- The number of characters in an argument. -/
def Arg.weight : Arg → ℕ
  | .str s => s.length
  | .list l => argsWeight l
/-- The number of characters in a list of arguments. -/
def argsWeight : List Arg → ℕ
  | [] => 0
  | a :: l => a.weight + argsWeight l
end

@[simp] theorem argsWeight_append (l m : List Arg) :
    argsWeight (l ++ m) = argsWeight l + argsWeight m := by
  induction l with
  | nil => simp [argsWeight]
  | cons a l ih => simp only [List.cons_append, argsWeight, ih, Nat.add_assoc]

mutual
theorem Tree.weight_arg_le {α : Type} {f g : α → Text} (h : ∀ a, (f a).length ≤ (g a).length) :
    ∀ t : Tree α, (t.arg f).weight ≤ (t.arg g).weight
  | .leaf a => h a
  | .node _ l => argsWeight_argList_le h l
theorem argsWeight_argList_le {α : Type} {f g : α → Text}
    (h : ∀ a, (f a).length ≤ (g a).length) :
    ∀ ts : List (Tree α), argsWeight (argList f ts) ≤ argsWeight (argList g ts)
  | [] => le_rfl
  | t :: ts => Nat.add_le_add (Tree.weight_arg_le h t) (argsWeight_argList_le h ts)
end

/-! ## A marker inside a string -/

theorem head_of_marker {c : Char} {t : Text} (h : unfinishedMarker <+: c :: t) : c = '<' := by
  rw [unfinishedMarker_eq, List.cons_prefix_cons] at h
  exact h.1.symm

/-- A prefix without the character `c` does not reach past it. -/
theorem prefix_of_prefix_append_cons {m a b : Text} {c : Char} (h : m <+: a ++ c :: b)
    (hc : c ∉ m) : m <+: a := by
  rcases Nat.lt_or_ge a.length m.length with hlt | hle
  · exfalso
    have hlen : a.length < (a ++ c :: b).length := by simp
    have hget : m[a.length] = (a ++ c :: b)[a.length] := h.getElem hlt
    simp only [List.getElem_append_right le_rfl, Nat.sub_self, List.getElem_cons_zero] at hget
    exact hc (hget ▸ List.getElem_mem hlt)
  · exact List.prefix_of_prefix_length_le h (List.prefix_append a _) hle

theorem notMem_marker_of_isCloser {c : Char} (hc : isCloser c = true) : c ∉ unfinishedMarker := by
  simp only [isCloser, Bool.or_eq_true, decide_eq_true_eq] at hc
  rcases hc with (rfl | rfl) | rfl <;> decide

theorem length_clean_quote_le (junk : Char → Bool) (b : Text) :
    (clean junk ('"' :: b)).length ≤ b.length := by
  refine (length_dropQuoteOfTruncated_le _).trans (( List.rdropWhile_prefix _ _).length_le.trans ?_)
  have h : ('"' :: b).dropWhile isSpaceOrQuote = b.dropWhile isSpaceOrQuote := rfl
  rw [h]
  exact (List.dropWhile_suffix _).length_le

/-- How the loop ends when the marker, at `L`, cuts a string among arguments that
should be `args`: at the marker, with fewer characters, the string being of the
kind that does not come back. -/
structure Cut (s : Text) (L i : ℕ) (r args : List Arg) (leaves : List Leaf) : Prop where
  run : ∃ st, Leads s L (ArgState.fresh r i) st ∧ st.ixCurr = L ∧
    argsWeight (st.finish s L).1 < argsWeight r + argsWeight args
  leaf : ∃ a ∈ leaves, ¬ a.Faithful

variable {s : Text} {L i : ℕ} {r : List Arg}

theorem ArgState.finish_snd (st : ArgState) : (st.finish s L).2 = st.ixCurr := by
  unfold ArgState.finish
  split <;> rfl

theorem view_of_drop {t u : Text} (hs : s.drop i = t ++ u) : view s L i = (t ++ u).take (L - i) := by
  rw [view_eq_take_drop, hs]

theorem drop_of_drop {t u : Text} (hs : s.drop i = t ++ u) {j : ℕ} (hij : i ≤ j)
    (hj : j ≤ i + t.length) : s.drop j = t.drop (j - i) ++ u := by
  have : s.drop j = (s.drop i).drop (j - i) := by rw [List.drop_drop]; congr 1; omega
  rw [this, hs, List.drop_append_of_le_length (by omega)]

theorem ArgState.finish_fresh : (ArgState.fresh r L).finish s L = (r, L) := by
  simp [ArgState.finish, ArgState.fresh]

/-- The marker inside a leaf: it is a quoted string, which the loop does not see closed. -/
theorem cut_leaf {a : Leaf} {c : Char} {u : Text} (hm : unfinishedMarker <+: s.drop L)
    (hi : i ≤ L) (hlt : L < i + a.text.length) (hs : s.drop i = a.text ++ c :: u)
    (hc : c ∉ unfinishedMarker) : Cut s L i r [.str a.val] [a] := by
  have hdrop := drop_of_drop hs hi hlt.le
  rw [hdrop] at hm
  have hpre := prefix_of_prefix_append_cons hm hc
  cases a with
  | atom a =>
    have hsp : ' ' ∈ a.val.drop (L - i) := hpre.subset (by decide)
    have := a.2.2 ' ' (List.mem_of_mem_drop hsp)
    simp [isAtomChar] at this
  | quoted raw =>
    simp only [Leaf.text] at hs hlt hpre
    simp only [List.length_cons, List.length_append, List.length_nil] at hlt
    have hne : i ≠ L := by
      rintro rfl
      rw [Nat.sub_self, List.drop_zero] at hpre
      exact absurd (head_of_marker hpre) (by decide)
    obtain ⟨j, rfl⟩ : ∃ j, L = i + (j + 1) := ⟨L - i - 1, by omega⟩
    rw [Nat.add_sub_cancel_left, List.drop_succ_cons] at hpre
    have hj : j < (escape raw).length := by
      refine lt_of_le_of_ne (by omega) ?_
      rintro rfl
      rw [List.drop_left] at hpre
      exact absurd (head_of_marker hpre) (by decide)
    rw [List.drop_append_of_le_length hj.le] at hpre
    have hbody := prefix_of_prefix_append_cons hpre (by decide)
    have hview : view s (i + (j + 1)) i = '"' :: (escape raw).take j ++ [] := by
      rw [view_of_drop hs, Nat.add_sub_cancel_left]
      simp only [List.cons_append, List.take_succ_cons, List.append_assoc, List.append_nil]
      rw [List.take_append_of_le_length hj.le]
    have hrun : ∃ x, Lex.fresh.run ('"' :: (escape raw).take j) = some x := by
      have hopen : Lex.fresh.step '"' = some ⟨true, 0, false⟩ := by decide
      have hfull := run_escape raw
      rw [← List.take_append_drop j (escape raw), Lex.run_append, Option.bind_eq_some_iff] at hfull
      obtain ⟨x, hx, -⟩ := hfull
      exact ⟨x, by rw [Lex.run, hopen, Option.bind_some, hx]⟩
    obtain ⟨x, hx⟩ := hrun
    have hlen : ('"' :: (escape raw).take j).length = j + 1 := by
      simp only [List.length_cons, List.length_take]; omega
    refine ⟨⟨_, leads_field hview hx (by simp), ?_, ?_⟩, ⟨_, List.mem_singleton_self _, ?_⟩⟩
    · simp [ArgState.read, ArgState.fresh, hlen]
    · have hclean := cleanArg_of_view isTailJunk hview (by simp)
      rw [hlen] at hclean
      have hle := length_clean_quote_le isTailJunk ((escape raw).take j)
      simp only [List.length_take] at hle
      simp only [ArgState.finish, ArgState.read, ArgState.fresh, hclean]
      simp [argsWeight, Arg.weight, Leaf.val]
      omega
    · exact fun h => h.2.2.2 (hbody.isInfix.trans (List.drop_suffix _ _).isInfix)

mutual
/-- The marker inside an argument. -/
theorem cut_tree {s : Text} {L i : ℕ} {r : List Arg} :
    ∀ (t : Tree Leaf) {c : Char} {u : Text}, argLimit s i = L → unfinishedMarker <+: s.drop L →
      i ≤ L → L < i + (t.print Leaf.text).length → s.drop i = t.print Leaf.text ++ c :: u →
      c ∉ unfinishedMarker → Cut s L i r [t.arg Leaf.val] t.leaves
  | .leaf a, c, u, _, hm, hi, hlt, hs, hc => cut_leaf hm hi hlt hs hc
  | .node b l, c, u, hL, hm, hi, hlt, hs, hc => by
    have hs₀ : s.drop i = [b.opening] ++ (printList Leaf.text l ++ b.closing :: c :: u) := by
      simpa [Tree.print] using hs
    have hopen : i ≠ L := by
      rintro rfl
      rw [hs₀] at hm
      have := head_of_marker hm
      cases b <;> simp [Bracket.opening] at this
    have hs₁ : s.drop (i + 1) = printList Leaf.text l ++ b.closing :: c :: u := by
      simpa using drop_of_drop hs₀ (Nat.le_succ i) le_rfl
    have hlt₁ : L < i + 1 + (printList Leaf.text l).length := by
      simp only [Tree.print, List.length_cons, List.length_append, List.length_nil] at hlt
      refine lt_of_le_of_ne (by omega) ?_
      rintro rfl
      rw [drop_of_drop hs₁ (by omega) le_rfl, Nat.add_sub_cancel_left, List.drop_length] at hm
      have := head_of_marker hm
      cases b <;> simp [Bracket.closing] at this
    have hL₁ : argLimit s (i + 1) = L :=
      (argLimit_of_le (Nat.le_succ i) (by omega)).trans hL
    obtain ⟨⟨st, hlead, hcur, hw⟩, hleaf⟩ :=
      cut_printList (r := []) l hL₁ hm (by omega) hlt₁ hs₁ b.isCloser_closing
    have hskip : skipWhile (· = ' ') s s.length (i + 1) = i + 1 := by
      apply skipWhile_of_head
      rw [view, List.take_length, hs₁]
      intro d hd
      simpa using (head_printList isField_text _ (isCloser_ne b.isCloser_closing) d hd).1
    obtain ⟨n, hn⟩ := parseArgs_of_leads hskip (hL₁ ▸ hlead) (Or.inr (by omega))
    rw [hL₁] at hn
    have hv : view s L i =
        b.opening :: (printList Leaf.text l ++ b.closing :: c :: u).take (L - i - 1) := by
      obtain ⟨d, hd⟩ : ∃ d, L - i = d + 1 := ⟨L - i - 1, by omega⟩
      rw [view_of_drop hs₀, hd]
      rfl
    have hlist := leads_list (r := r) hv b.opening_eq
      (hn.trans rfl : _ = some ((st.finish s L).1, (st.finish s L).2))
    have hstay : skipWhile isSpaceOrComma s L L = L := by
      apply skipWhile_of_head
      simp [view]
    rw [ArgState.finish_snd, hcur, hstay] at hlist
    refine ⟨⟨_, hlist, rfl, ?_⟩, hleaf⟩
    rw [ArgState.finish_fresh]
    simpa [argsWeight, Arg.weight, Tree.arg] using hw
/-- The marker inside a list of arguments. -/
theorem cut_printList {s : Text} {L i : ℕ} {r : List Arg} :
    ∀ (ts : List (Tree Leaf)) {c : Char} {u : Text}, argLimit s i = L →
      unfinishedMarker <+: s.drop L → i ≤ L → L < i + (printList Leaf.text ts).length →
      s.drop i = printList Leaf.text ts ++ c :: u → isCloser c = true →
      Cut s L i r (argList Leaf.val ts) (listLeaves ts)
  | [], c, u, _, _, hi, hlt, _, _ => by
    simp only [printList, List.length_nil] at hlt
    omega
  | [t], c, u, hL, hm, hi, hlt, hs, hc => by
    simp only [printList, printRest, List.append_nil] at hlt hs
    simpa [argList, listLeaves] using
      cut_tree t hL hm hi hlt hs (notMem_marker_of_isCloser hc)
  | t :: t' :: ts, c, u, hL, hm, hi, hlt, hs, hc => by
    rw [printList, printRest_cons] at hlt hs
    have hs₀ : s.drop i = t.print Leaf.text
        ++ ',' :: ' ' :: (printList Leaf.text (t' :: ts) ++ c :: u) := by
      simpa using hs
    by_cases hcase : L < i + (t.print Leaf.text).length
    · obtain ⟨⟨st, hlead, hcur, hw⟩, a, ha, hbad⟩ :=
        cut_tree (r := r) t hL hm hi hcase hs₀ (by decide)
      refine ⟨⟨st, hlead, hcur, ?_⟩, a, List.mem_append_left _ ha, hbad⟩
      simp only [argList, argsWeight] at hw ⊢
      omega
    · have hs₁ : s.drop (i + (t.print Leaf.text).length)
          = [',', ' '] ++ (printList Leaf.text (t' :: ts) ++ c :: u) := by
        simpa using drop_of_drop hs₀ (Nat.le_add_right i _) le_rfl
      have hsep : i + (t.print Leaf.text).length + 2 ≤ L := by
        by_contra hlt₂
        have hpos : L = i + (t.print Leaf.text).length ∨ L = i + (t.print Leaf.text).length + 1 := by
          omega
        rcases hpos with rfl | rfl
        · rw [hs₁] at hm
          exact absurd (head_of_marker hm) (by decide)
        · rw [drop_of_drop hs₁ (Nat.le_add_right _ 1) (by simp), Nat.add_sub_cancel_left] at hm
          exact absurd (head_of_marker hm) (by decide)
      have hs₂ : s.drop (i + (t.print Leaf.text).length + 2)
          = printList Leaf.text (t' :: ts) ++ c :: u := by
        simpa using drop_of_drop hs₁ (Nat.le_add_right _ 2) le_rfl
      have hv : view s L i = t.print Leaf.text ++ ',' :: ' ' ::
          (printList Leaf.text (t' :: ts) ++ c :: u).take
            (L - (i + (t.print Leaf.text).length + 2)) := by
        obtain ⟨d, hd⟩ : ∃ d, L - i = (t.print Leaf.text).length + (d + 2) :=
          ⟨L - i - (t.print Leaf.text).length - 2, by omega⟩
        have hd' : L - (i + (t.print Leaf.text).length + 2) = d := by omega
        rw [view_of_drop hs₀, hd, hd', List.take_length_add_append]
        rfl
      have hhead := head_printList (u := u) isField_text (t' :: ts) (isCloser_ne hc)
      have hcomma := leads_comma isField_text (r := r) t hL hv (by
        intro d hd
        rw [List.head?_take] at hd
        split at hd
        · simp at hd
        · exact hhead d hd)
      have hL₂ : argLimit s (i + (t.print Leaf.text).length + 2) = L :=
        (argLimit_of_le (by omega) (by omega)).trans hL
      have hlt₂ : L < i + (t.print Leaf.text).length + 2
          + (printList Leaf.text (t' :: ts)).length := by
        simp only [List.length_append, List.length_cons] at hlt
        omega
      obtain ⟨⟨st, hlead, hcur, hw⟩, a, ha, hbad⟩ :=
        cut_printList (r := r ++ [t.arg (fun a => closedArg a.text)]) (t' :: ts)
          hL₂ hm hsep hlt₂ hs₂ hc
      refine ⟨⟨st, hcomma.trans hlead, hcur, ?_⟩, a, List.mem_append_right _ ha, hbad⟩
      have hle := Tree.weight_arg_le length_closedArg_text_le t
      simp only [argsWeight_append, argsWeight, argList] at hw hle ⊢
      omega
end

/-! ## The round trip -/

/-- **Parsing undoes printing, exactly for lists whose strings are all faithful.** -/
theorem parseCallArguments_print_iff (ts : List (Tree Leaf)) :
    (parseCallArguments (printList Leaf.text ts ++ [')']) 0).1 = argList Leaf.val ts
      ↔ ∀ a ∈ listLeaves ts, a.Faithful := by
  set s := printList Leaf.text ts ++ [')'] with hs
  cases h : findIdx unfinishedMarker s with
  | none =>
    have hL : argLimit s 0 = s.length := by simp [argLimit, find?, h]
    have hv : view s (argLimit s 0) 0 = printList Leaf.text ts ++ ')' :: [] := by
      rw [hL, view, List.take_length, List.drop_zero, hs]
    obtain ⟨k, -, hparse⟩ := parseCallArguments_printList isField_text hv rfl
    rw [hparse, argList_eq_iff]
    refine forall₂_congr fun a ha => closedArg_text_eq_iff a fun hm => ?_
    exact (findIdx_eq_none_iff (by decide) s).mp h
      (hm.trans ((text_infix_printList ts a ha).trans (List.prefix_append _ _).isInfix))
  | some k =>
    have hm := prefix_of_findIdx h
    have hL : argLimit s 0 = k := by simp [argLimit, find?, h]
    have hlt : k < 0 + (printList Leaf.text ts).length := by
      by_contra hge
      have hd : s.drop k = [')'].drop (k - (printList Leaf.text ts).length) := by
        rw [hs, List.drop_append, List.drop_of_length_le (by omega), List.nil_append]
      have hle := hm.length_le
      rw [hd, List.length_drop, List.length_singleton, show unfinishedMarker.length = 16 from rfl] at hle
      omega
    obtain ⟨⟨st, hlead, hcur, hw⟩, a, ha, hbad⟩ :=
      cut_printList (s := s) (i := 0) (r := []) ts (c := ')') (u := []) hL hm (Nat.zero_le k) hlt
        (by simp [hs]) rfl
    have hskip : skipWhile (· = ' ') s s.length 0 = 0 := by
      apply skipWhile_of_head
      rw [view, List.take_length, List.drop_zero, hs]
      intro d hd
      simpa using (head_printList isField_text _ (by decide) d hd).1
    have hparse := parseCallArguments_of_leads (Nat.zero_le _) hskip (hL ▸ hlead)
      (Or.inr (by omega))
    constructor
    · intro heq
      rw [hparse, hL] at heq
      rw [heq] at hw
      simp [argsWeight] at hw
    · exact fun hall => absurd (hall a ha) hbad

/-- The string `" a"` comes back without its leading space. -/
theorem parseCallArguments_print_leading_space :
    (parseCallArguments (printList Leaf.text [.leaf (.quoted " a".toList)] ++ [')']) 0).1
      ≠ argList Leaf.val [.leaf (.quoted " a".toList)] := by decide +kernel

end Survol.Dockit
