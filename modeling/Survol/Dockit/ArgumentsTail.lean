import Survol.Dockit.ArgumentsIndices
import Survol.Dockit.ArgumentsCut

/-!
# What follows the arguments

The parser finds the parenthesis that closes a well-formed list of arguments: quotes are closed,
and what is opened outside quotes is closed. What follows it is not read, but for the spaces that
are skipped, so that the arguments do not depend on it.

The parser is run on the list with its closing parenthesis, with and without what follows. The
level of the whole list is that of the parser plus the number of lists that it is in.

## Main definitions

* `Lex.scan`, `WellFormedArgs` — the quotes and brackets of a list of arguments.
* `Inside` — the loop is within the list.

## Main results

* `parseArgs_tail` and `argLoop_tail` — the two runs.
* `parseCallArguments_tail` — the parser stops after the list.
* `parseCallArguments_index` — its index is in range, and stands after the list.
-/

open PyText

namespace Survol.Dockit

/-! ## Well-formed lists -/

/-- What one character does to the quotes and the level of brackets; `none` if nothing is left to
be closed, or for a backslash outside quotes. -/
def Lex.scan (x : Lex) (aChr : Char) : Option Lex :=
  if x.isEscaped then some { x with isEscaped := false }
  else if aChr = '\\' then if x.inQuotes then some { x with isEscaped := true } else none
  else if aChr = '"' then some { x with inQuotes := !x.inQuotes }
  else if x.inQuotes then some x
  else if aChr = '[' ∨ aChr = '{' ∨ aChr = '(' then
    some { x with levelParent := x.levelParent + 1 }
  else if aChr = ')' ∨ aChr = ']' ∨ aChr = '}' then
    match x.levelParent with
    | 0 => none
    | level + 1 => some { x with levelParent := level }
  else some x

/-- What a text does to the quotes and the level of brackets. -/
def Lex.scanAll (x : Lex) : Text → Option Lex
  | [] => some x
  | c :: t => (x.scan c).bind fun y => y.scanAll t

/-- The quotes are closed, and the brackets outside quotes are balanced. -/
def WellFormedArgs (w : Text) : Prop := Lex.fresh.scanAll w = some Lex.fresh

instance (w : Text) : Decidable (WellFormedArgs w) := inferInstanceAs (Decidable (_ = _))

theorem Lex.scanAll_append (x : Lex) (u t : Text) :
    x.scanAll (u ++ t) = (x.scanAll u).bind fun y => y.scanAll t := by
  induction u generalizing x with
  | nil => rfl
  | cons c u ih =>
    simp only [List.cons_append, Lex.scanAll, Option.bind_assoc]
    congr 1
    funext y
    exact ih y

/-- Spaces and commas outside quotes do nothing. -/
theorem Lex.scanAll_blank {u : Text} (hu : ∀ c ∈ u, isSpaceOrComma c = true) (n : ℕ) :
    Lex.scanAll ⟨false, n, false⟩ u = some ⟨false, n, false⟩ := by
  induction u with
  | nil => rfl
  | cons c u ih =>
    rw [List.forall_mem_cons] at hu
    have hc : c = ' ' ∨ c = ',' := by simpa [isSpaceOrComma] using hu.1
    have hscan : Lex.scan ⟨false, n, false⟩ c = some ⟨false, n, false⟩ := by
      rcases hc with rfl | rfl <;> rfl
    rw [Lex.scanAll, hscan]
    exact ih hu.2

/-! ## The text up to the closing parenthesis -/

/-- The list of arguments with its closing parenthesis. -/
def closed (w : Text) : Text := w ++ [')']

section
variable {w t : Text} {j : ℕ} {p : Char → Bool}

@[simp] theorem length_closed (w : Text) : (closed w).length = w.length + 1 := by simp [closed]

theorem takeWhile_append_of_stop {c : Char} (u t : Text) (hc : p c = false) :
    (u ++ c :: t).takeWhile p = (u ++ [c]).takeWhile p := by
  induction u with
  | nil => simp [hc]
  | cons d u ih => simp [List.takeWhile_cons, ih]

/-- A scan that may not skip the closing parenthesis stops within the list. -/
theorem skipWhile_closed (hj : j ≤ w.length) (hp : p ')' = false) (t : Text) :
    skipWhile p (closed w ++ t) (closed w ++ t).length j =
        skipWhile p (closed w) (closed w).length j ∧
      skipWhile p (closed w) (closed w).length j ≤ w.length := by
  have hdrop : (closed w ++ t).drop j = w.drop j ++ ')' :: t := by
    rw [closed, List.append_assoc, List.drop_append_of_le_length hj, List.singleton_append]
  have hdrop' : (closed w).drop j = w.drop j ++ [')'] := List.drop_append_of_le_length hj
  have htake := takeWhile_append_of_stop (w.drop j) t hp
  refine ⟨?_, ?_⟩
  · rw [skipWhile, skipWhile, List.take_length, List.take_length, hdrop, hdrop', htake]
  · have hpre := List.takeWhile_prefix p (l := w.drop j ++ [')'])
    have hle : ((w.drop j ++ [')']).takeWhile p).length ≤ (w.drop j).length := by
      by_contra hgt
      have hlen := hpre.length_le
      rw [List.length_append, List.length_singleton] at hlen
      have heq := hpre.eq_of_length (by rw [List.length_append, List.length_singleton]; omega)
      have hmem : ')' ∈ (w.drop j ++ [')']).takeWhile p := by
        rw [heq]
        exact List.mem_append_right _ (List.mem_singleton_self _)
      rw [List.mem_takeWhile_imp hmem] at hp
      cases hp
    rw [skipWhile, List.take_length, hdrop']
    rw [List.length_drop] at hle
    omega

theorem slice_closed {a e : ℕ} (he : e ≤ w.length + 1) (t : Text) :
    slice (closed w ++ t) a e = slice (closed w) a e := by
  rw [slice, slice, List.take_append_of_le_length (by rw [length_closed]; exact he)]

theorem cleanArg_closed (junk : Char → Bool) {a e : ℕ} (ha : a ≤ w.length) (he : e ≤ w.length + 1)
    (t : Text) :
    cleanArg junk (closed w ++ t) (closed w ++ t).length a e =
      cleanArg junk (closed w) (closed w).length a e := by
  have hskip := (@skipWhile_closed w a isSpaceOrQuote ha rfl t).1
  rw [cleanArg, hskip, slice_closed he, cleanArg]

theorem store_closed {st : ArgState} (hs : st.ixStart ≤ w.length) (hc : st.ixCurr ≤ w.length)
    (t : Text) :
    st.store (closed w ++ t) (closed w ++ t).length = st.store (closed w) (closed w).length := by
  have hskip := (@skipWhile_closed w st.ixCurr (· = ' ') hc rfl t).1
  rw [ArgState.store, ArgState.store, hskip, cleanArg_closed _ hs (by omega)]

theorem close_closed {st : ArgState} (hs : st.ixStart ≤ w.length) (hc : st.ixCurr ≤ w.length)
    (t : Text) :
    st.close (closed w ++ t) (closed w ++ t).length = st.close (closed w) (closed w).length := by
  unfold ArgState.close
  rw [store_closed hs hc]

theorem body_closed {st : ArgState} (hs : st.ixStart ≤ w.length) (hc : st.ixCurr < w.length)
    (c : Char) (t : Text) :
    st.body (closed w ++ t) (closed w ++ t).length c =
      st.body (closed w) (closed w).length c := by
  have hclose := @close_closed w { st with ixCurr := st.ixCurr + 1 } hs hc t
  have hstore := @store_closed w { st with ixCurr := st.ixCurr + 1 } hs hc t
  simp only [ArgState.body, hclose, hstore]

theorem append_closed (st : ArgState) (objToAdd : List Arg) {ix : ℕ} (hix : ix ≤ w.length)
    (t : Text) :
    st.append (closed w ++ t) (closed w ++ t).length objToAdd ix =
      st.append (closed w) (closed w).length objToAdd ix := by
  have hskip := (@skipWhile_closed w ix isSpaceOrComma hix rfl t).1
  rw [ArgState.append, ArgState.append, hskip]

/-- The character of the list that is read. -/
theorem getElem?_closed (hj : j < w.length) (t : Text) : (closed w ++ t)[j]? = some w[j] := by
  rw [closed, List.append_assoc, List.getElem?_append_left hj, List.getElem?_eq_getElem hj]

end

/-! ## Within the list -/

/-- What the text before `j` does to the quotes and the level. -/
def lexAt (w : Text) (j : ℕ) : Option Lex := Lex.fresh.scanAll (w.take j)

section
variable {w : Text} {j d : ℕ} {st : ArgState}

theorem lexAt_succ (hj : j < w.length) :
    lexAt w (j + 1) = (lexAt w j).bind fun x => x.scan w[j] := by
  rw [lexAt, lexAt, ← List.take_append_getElem hj, Lex.scanAll_append]
  congr 1
  funext x
  rw [Lex.scanAll]
  cases x.scan w[j] <;> rfl

theorem lexAt_length (hw : WellFormedArgs w) : lexAt w w.length = some Lex.fresh := by
  rw [lexAt, List.take_length]
  exact hw

/-- Each text before a position is read. -/
theorem exists_lexAt (hw : WellFormedArgs w) (j : ℕ) : ∃ x, lexAt w j = some x := by
  rw [WellFormedArgs, ← List.take_append_drop j w, Lex.scanAll_append] at hw
  cases h : lexAt w j with
  | none =>
    rw [lexAt] at h
    rw [h] at hw
    cases hw
  | some x => exact ⟨x, rfl⟩

theorem lexAt_skipWhile {p : Char → Bool} {n : ℕ} (h : lexAt w j = some ⟨false, n, false⟩)
    (hj : j ≤ w.length) (hp : p ')' = false) (hblank : ∀ c, p c = true → isSpaceOrComma c = true) :
    lexAt w (skipWhile p (closed w) (closed w).length j) = some ⟨false, n, false⟩ := by
  have hle := (@skipWhile_closed w j p hj hp []).2
  rw [skipWhile, List.take_length] at hle ⊢
  generalize hk : (((closed w).drop j).takeWhile p).length = k at hle
  have hdrop : (closed w).drop j = w.drop j ++ [')'] := List.drop_append_of_le_length hj
  have htake : (w.drop j).take k = ((closed w).drop j).takeWhile p := by
    have hpre := List.takeWhile_prefix p (l := (closed w).drop j)
    have heq := List.prefix_iff_eq_take.mp hpre
    rw [hk, hdrop, List.take_append_of_le_length (by rw [List.length_drop]; omega)] at heq
    rw [hdrop]
    exact heq.symm
  have hall : ∀ c ∈ (w.drop j).take k, isSpaceOrComma c = true := by
    intro c hc
    rw [htake] at hc
    exact hblank c (List.mem_takeWhile_imp hc)
  have hsplit : w.take (j + k) = w.take j ++ (w.drop j).take k := List.take_add
  rw [lexAt, hsplit, Lex.scanAll_append]
  rw [lexAt] at h
  rw [h]
  exact Lex.scanAll_blank hall n

/-- The loop is within the list, in a list that is `d` levels deep. -/
structure Inside (w : Text) (d : ℕ) (st : ArgState) : Prop where
  lex : lexAt w st.ixCurr = some ⟨st.inQuotes, d + st.levelParent, st.isEscaped⟩
  start : st.ixStart ≤ st.ixCurr
  le : st.ixCurr ≤ w.length
  finished : st.finished = false

theorem inside_init (h : lexAt w j = some ⟨false, d, false⟩) (hj : j ≤ w.length) :
    Inside w d (ArgState.init j) := ⟨h, le_rfl, hj, rfl⟩

/-- The end of a list that is within the list. -/
structure EndsInside (w : Text) (d : ℕ) (st : ArgState) : Prop where
  lex : lexAt w st.ixCurr = some ⟨false, d, false⟩
  le : st.ixCurr ≤ w.length
  finished : st.finished = true

/-- Storing an argument skips spaces only. -/
theorem inside_store {n : ℕ} (h : lexAt w st.ixCurr = some ⟨false, n, false⟩)
    (hle : st.ixCurr ≤ w.length) :
    lexAt w (st.store (closed w) (closed w).length).ixCurr = some ⟨false, n, false⟩ ∧
      (st.store (closed w) (closed w).length).ixCurr ≤ w.length := by
  refine ⟨lexAt_skipWhile h hle rfl fun c hc => ?_, (@skipWhile_closed w _ (· = ' ') hle rfl []).2⟩
  rw [isSpaceOrComma, hc]
  rfl

/-- A closing bracket goes down one level, or ends the list. -/
theorem inside_close {x : Lex} (hlex : lexAt w st.ixCurr = some x) (hle : st.ixCurr ≤ w.length)
    (hs : st.ixStart ≤ st.ixCurr) (hfin : st.finished = false) (hq : st.inQuotes = false)
    (he : st.isEscaped = false)
    (hx : (match d + st.levelParent with
      | 0 => none
      | level + 1 => some (⟨false, level, false⟩ : Lex)) = some x) :
    Inside w d (st.close (closed w) (closed w).length) ∨
      ∃ d', d = d' + 1 ∧ EndsInside w d' (st.close (closed w) (closed w).length) := by
  unfold ArgState.close
  cases hl : st.levelParent with
  | succ level =>
    rw [hl, ← Nat.add_assoc] at hx
    cases hx
    refine .inl ⟨?_, hs, hle, hfin⟩
    rw [hlex, hq, he]
  | zero =>
    rw [hl, Nat.add_zero] at hx
    cases d with
    | zero => cases hx
    | succ d' =>
      cases hx
      refine .inr ⟨d', rfl, ?_⟩
      dsimp only
      split
      · exact ⟨hlex, hle, rfl⟩
      · obtain ⟨hlex', hle'⟩ := inside_store hlex hle
        exact ⟨hlex', hle', rfl⟩

/-- The text goes on after a list that is within the list. -/
theorem inside_append {objToAdd : List Arg} {ix : ℕ}
    (hlex : lexAt w ix = some ⟨false, d + st.levelParent, false⟩) (hix : ix ≤ w.length)
    (hq : st.inQuotes = false) (he : st.isEscaped = false) (hfin : st.finished = false) :
    Inside w d (st.append (closed w) (closed w).length objToAdd ix) := by
  refine ⟨?_, le_rfl, ?_, hfin⟩
  · have hblank := @lexAt_skipWhile w ix isSpaceOrComma _ hlex hix rfl fun _ hc => hc
    rw [ArgState.append, hq, he]
    exact hblank
  · exact (@skipWhile_closed w ix isSpaceOrComma hix rfl []).2

/-- One character of the list: the loop stays in the list, or ends the list that it is in, or
begins one. -/
theorem Inside.body (hw : WellFormedArgs w) (h : Inside w d st) (hlt : st.ixCurr < w.length) :
    match st.body (closed w) (closed w).length w[st.ixCurr] with
    | .next st' => Inside w d st' ∨ ∃ d', d = d' + 1 ∧ EndsInside w d' st'
    | .list st' => lexAt w st'.ixCurr = some ⟨false, d + st'.levelParent + 1, false⟩ ∧
        st'.ixCurr ≤ w.length ∧ st'.inQuotes = false ∧ st'.isEscaped = false ∧
        st'.finished = false := by
  obtain ⟨y, hy⟩ := exists_lexAt hw (st.ixCurr + 1)
  have hscan := lexAt_succ hlt
  rw [hy, h.lex, Option.bind_some] at hscan
  obtain ⟨hlex, hstart, hle, hfin⟩ := h
  generalize hc : w[st.ixCurr] = c at hscan
  obtain ⟨res, fin, q, lv, e, ixS, ixC⟩ := st
  dsimp only at hlt hc hlex hstart hle hfin hscan hy
  subst hfin
  simp only [ArgState.body, Lex.scan] at hscan ⊢
  have hnext : ∀ {q' lv' e'}, y = ⟨q', d + lv', e'⟩ →
      Inside w d ⟨res, false, q', lv', e', ixS, ixC + 1⟩ := by
    rintro q' lv' e' rfl
    exact ⟨hy, hstart.trans (Nat.le_succ ixC), hlt, rfl⟩
  by_cases he : e = true
  · simp only [he, if_true, Option.some.injEq] at hscan ⊢
    exact .inl (hnext hscan)
  have he' : e = false := Bool.not_eq_true _ ▸ he
  subst he'
  simp only [Bool.false_eq_true, if_false] at hscan ⊢
  by_cases hback : c = '\\'
  · simp only [hback, if_true] at hscan ⊢
    split at hscan
    · exact .inl (hnext (Option.some.inj hscan))
    · cases hscan
  simp only [hback, if_false] at hscan ⊢
  by_cases hquote : c = '"'
  · simp only [hquote, if_true] at hscan ⊢
    exact .inl (hnext (Option.some.inj hscan))
  simp only [hquote, if_false] at hscan ⊢
  by_cases hq : q = true
  · simp only [hq, if_true] at hscan ⊢
    exact .inl (hnext (Option.some.inj hscan))
  have hq' : q = false := Bool.not_eq_true _ ▸ hq
  subst hq'
  simp only [Bool.false_eq_true, if_false] at hscan ⊢
  by_cases hopen : c = '[' ∨ c = '{'
  · have hopen' : c = '[' ∨ c = '{' ∨ c = '(' := hopen.elim .inl fun h => .inr (.inl h)
    simp only [hopen, hopen', if_true, Option.some.injEq] at hscan ⊢
    split
    · rename_i st' hst'
      split at hst'
      · cases hst'
      · cases hst'
        exact .inl (hnext hscan)
    · rename_i st' hst'
      split at hst'
      · cases hst'
        exact ⟨hscan ▸ hy, hlt, rfl, rfl, rfl⟩
      · cases hst'
  simp only [hopen, if_false] at hscan ⊢
  by_cases hpar : c = '('
  · simp only [hpar, if_true, or_true, Option.some.injEq] at hscan ⊢
    exact .inl (hnext hscan)
  have hopen' : ¬ (c = '[' ∨ c = '{' ∨ c = '(') := fun h =>
    h.elim (fun h => hopen (.inl h)) fun h => h.elim (fun h => hopen (.inr h)) hpar
  rw [if_neg hopen'] at hscan
  simp only [hpar, if_false]
  by_cases hclose : c = ')' ∨ c = ']' ∨ c = '}'
  · simp only [hclose, if_true] at hscan ⊢
    exact inside_close hy hlt (hstart.trans (Nat.le_succ ixC)) rfl rfl rfl hscan.symm
  simp only [hclose, if_false, Option.some.injEq] at hscan ⊢
  by_cases hcomma : c = ',' ∧ lv = 0
  · simp only [hcomma, and_self, if_true]
    left
    rw [hcomma.2, Nat.add_zero] at hscan
    subst hscan
    obtain ⟨hlex', hle'⟩ := @inside_store w ⟨res, false, false, lv, false, ixS, ixC + 1⟩ d hy hlt
    refine ⟨?_, le_rfl, ?_, rfl⟩
    · rw [hcomma.2] at hlex'
      exact hlex'
    · rw [hcomma.2] at hle'
      exact hle'
  · simp only [hcomma, if_false]
    exact .inl (hnext hscan)

end

/-! ## The two runs -/

/-- A text without the marker is read to its end. -/
theorem argLimit_of_unmarked {s : Text} (h : ¬ unfinishedMarker <:+: s) (j : ℕ) :
    argLimit s j = s.length := by
  have hnone : findIdx unfinishedMarker (s.drop j) = none := by
    rw [findIdx_eq_none_iff (by decide)]
    exact fun hinf => h (hinf.trans (List.drop_suffix j s).isInfix)
  rw [argLimit, find?, hnone]
  rfl

/-- A loop that is finished returns. -/
theorem argLoop_of_finished {n : ℕ} {s : Text} {L : ℕ} {st st' : ArgState}
    (hfin : st.finished = true) (h : argLoop n s L st = some st') : st' = st := by
  cases n with
  | zero => cases h
  | succ n =>
    rw [argLoop, if_neg fun hgo => hgo.2 hfin] at h
    exact (Option.some.inj h).symm

theorem argLoop_finished {n : ℕ} (s : Text) (L : ℕ) {st : ArgState} (hfin : st.finished = true) :
    argLoop (n + 1) s L st = some st := by
  rw [argLoop, if_neg fun hgo => hgo.2 hfin]

section
variable {w t : Text}

theorem unmarked_closed (hm : ¬ unfinishedMarker <:+: closed w ++ t) :
    ¬ unfinishedMarker <:+: closed w :=
  fun hinf => hm (hinf.trans (List.prefix_append (closed w) t).isInfix)

/-- The closing parenthesis of the whole list ends the loop. -/
theorem close_end {st : ArgState} (hlevel : st.levelParent = 0) (hs : st.ixStart ≤ w.length)
    (hc : st.ixCurr = w.length + 1) (t : Text) :
    (st.close (closed w ++ t) (closed w ++ t).length).finished = true ∧
      (st.close (closed w ++ t) (closed w ++ t).length).theResult =
        (st.close (closed w) (closed w).length).theResult ∧
      ∃ k ≤ (t.takeWhile (· = ' ')).length,
        (st.close (closed w ++ t) (closed w ++ t).length).ixCurr = w.length + 1 + k := by
  unfold ArgState.close
  rw [hlevel]
  dsimp only
  split
  · exact ⟨rfl, rfl, 0, Nat.zero_le _, hc⟩
  · refine ⟨rfl, ?_, (t.takeWhile (· = ' ')).length, le_rfl, ?_⟩
    · rw [ArgState.store, ArgState.store, hc, Nat.add_sub_cancel, cleanArg_closed _ hs (by omega)]
    · have hdrop : (closed w ++ t).drop (w.length + 1) = t := by
        rw [← length_closed, List.drop_left]
      rw [ArgState.store, hc]
      dsimp only
      rw [skipWhile, List.take_length, hdrop]

variable (hw : WellFormedArgs w) (hm : ¬ unfinishedMarker <:+: closed w ++ t)
include hw hm

/-- A list within the list is read in the same way, with what follows or without it. -/
theorem parseArgs_tail_and_argLoop_tail (n : ℕ) :
    (∀ {j d : ℕ} {r : List Arg × ℕ}, lexAt w j = some ⟨false, d + 1, false⟩ → j ≤ w.length →
      parseArgs n (closed w) j = some r → parseArgs n (closed w ++ t) j = some r ∧
        lexAt w r.2 = some ⟨false, d, false⟩ ∧ r.2 ≤ w.length) ∧
    (∀ {st st' : ArgState} {d : ℕ}, Inside w (d + 1) st →
      argLoop n (closed w) (closed w).length st = some st' →
      argLoop n (closed w ++ t) (closed w ++ t).length st = some st' ∧ EndsInside w d st') := by
  induction n with
  | zero => exact ⟨fun _ _ h => (nomatch h), fun _ h => (nomatch h)⟩
  | succ n ih =>
    obtain ⟨ihp, ihl⟩ := ih
    constructor
    · intro j d r hlex hj h
      obtain ⟨hskip, hle⟩ := @skipWhile_closed w j (· = ' ') hj rfl t
      have hlex' := @lexAt_skipWhile w j (· = ' ') (d + 1) hlex hj rfl fun c hc => by
        rw [isSpaceOrComma, hc]
        rfl
      rw [parseArgs, argLimit_of_unmarked (unmarked_closed hm)] at h
      rw [parseArgs, argLimit_of_unmarked hm, hskip]
      obtain ⟨st', hst', rfl⟩ := Option.map_eq_some_iff.mp h
      obtain ⟨hrun, hend⟩ := ihl (inside_init hlex' hle) hst'
      have hfinish : ∀ L s, st'.finish s L = (st'.theResult, st'.ixCurr) := by
        intro L s
        rw [ArgState.finish, if_neg fun hgo => hgo.2 hend.finished]
      rw [hrun, Option.map_some, hfinish, hfinish]
      exact ⟨rfl, hend.lex, hend.le⟩
    · intro st st' d hin h
      have hlt : st.ixCurr < w.length := by
        refine lt_of_le_of_ne hin.le fun heq => ?_
        have hlex := hin.lex
        rw [heq, lexAt_length hw] at hlex
        have hlevel := congrArg Lex.levelParent (Option.some.inj hlex)
        simp only [Lex.fresh] at hlevel
        omega
      have hgo : st.ixCurr < (closed w).length ∧ ¬ st.finished = true := by
        rw [length_closed, hin.finished]
        exact ⟨by omega, Bool.false_ne_true⟩
      have hgo' : st.ixCurr < (closed w ++ t).length ∧ ¬ st.finished = true := by
        rw [List.length_append]
        exact ⟨by omega, hgo.2⟩
      have hget := getElem?_closed hlt []
      rw [List.append_nil] at hget
      rw [argLoop, if_pos hgo, hget] at h
      rw [argLoop, if_pos hgo', getElem?_closed hlt]
      dsimp only at h ⊢
      rw [body_closed (hin.start.trans hin.le) hlt]
      have hbody := hin.body hw hlt
      cases hb : st.body (closed w) (closed w).length w[st.ixCurr] with
      | next st₁ =>
        rw [hb] at h hbody
        dsimp only at h hbody ⊢
        rcases hbody with hin₁ | ⟨d', hd', hend⟩
        · exact ihl hin₁ h
        · cases hd'
          obtain rfl := argLoop_of_finished hend.finished h
          refine ⟨?_, hend⟩
          cases n with
          | zero => cases h
          | succ n => exact argLoop_finished _ _ hend.finished
      | list st₁ =>
        rw [hb] at h hbody
        dsimp only at h hbody ⊢
        obtain ⟨hlex, hle, hq, he, hfin⟩ := hbody
        cases hp : parseArgs n (closed w) st₁.ixCurr with
        | none =>
          rw [hp] at h
          cases h
        | some r =>
          obtain ⟨objToAdd, ix⟩ := r
          obtain ⟨hp', hlex', hle'⟩ := ihp hlex hle hp
          rw [hp] at h
          rw [hp']
          dsimp only at h hlex' hle' ⊢
          rw [append_closed st₁ objToAdd hle' t]
          exact ihl (inside_append hlex' hle' hq he hfin) h

/-- The whole list is read in the same way, with what follows or without it, and what follows is not
read but for some spaces. -/
theorem argLoop_end (n : ℕ) {st st' : ArgState} (hin : Inside w 0 st)
    (h : argLoop n (closed w) (closed w).length st = some st') :
    ∃ st'', argLoop n (closed w ++ t) (closed w ++ t).length st = some st'' ∧
      st'.finished = true ∧ st''.finished = true ∧ st''.theResult = st'.theResult ∧
      ∃ k ≤ (t.takeWhile (· = ' ')).length, st''.ixCurr = w.length + 1 + k := by
  induction n generalizing st with
  | zero => cases h
  | succ n ih =>
    have hle := hin.le
    have hgo : st.ixCurr < (closed w).length ∧ ¬ st.finished = true := by
      rw [length_closed, hin.finished]
      exact ⟨by omega, Bool.false_ne_true⟩
    have hgo' : st.ixCurr < (closed w ++ t).length ∧ ¬ st.finished = true := by
      rw [List.length_append, length_closed]
      exact ⟨by omega, hgo.2⟩
    rw [argLoop, if_pos hgo] at h
    rw [argLoop, if_pos hgo']
    by_cases hlt : st.ixCurr < w.length
    · have hget := getElem?_closed hlt []
      rw [List.append_nil] at hget
      rw [hget] at h
      rw [getElem?_closed hlt]
      dsimp only at h ⊢
      rw [body_closed (hin.start.trans hle) hlt]
      have hbody := hin.body hw hlt
      cases hb : st.body (closed w) (closed w).length w[st.ixCurr] with
      | next st₁ =>
        rw [hb] at h hbody
        dsimp only at h hbody ⊢
        rcases hbody with hin₁ | ⟨d', hd', -⟩
        · exact ih hin₁ h
        · cases hd'
      | list st₁ =>
        rw [hb] at h hbody
        dsimp only at h hbody ⊢
        obtain ⟨hlex, hle₁, hq, he, hfin⟩ := hbody
        cases hp : parseArgs n (closed w) st₁.ixCurr with
        | none =>
          rw [hp] at h
          cases h
        | some r =>
          obtain ⟨objToAdd, ix⟩ := r
          obtain ⟨hp', hlex', hle'⟩ := (parseArgs_tail_and_argLoop_tail hw hm n).1 hlex hle₁ hp
          rw [hp] at h
          rw [hp']
          dsimp only at h hlex' hle' ⊢
          rw [append_closed st₁ objToAdd hle' t]
          exact ih (inside_append hlex' hle' hq he hfin) h
    · have heq : st.ixCurr = w.length := by omega
      have hlex := hin.lex
      rw [heq, lexAt_length hw, Nat.zero_add] at hlex
      obtain ⟨hq, hlevel, he⟩ := Lex.mk.inj (Option.some.inj hlex)
      have hget : ∀ u, (closed w ++ u)[st.ixCurr]? = some ')' := by
        intro u
        rw [heq, closed, List.append_assoc, List.getElem?_append_right le_rfl, Nat.sub_self]
        rfl
      have hbody : ∀ s L, st.body s L ')' =
          .next (ArgState.close s L { st with ixCurr := st.ixCurr + 1 }) := by
        intro s L
        simp [ArgState.body, ← hq, ← he]
      have hget' := hget []
      rw [List.append_nil] at hget'
      rw [hget'] at h
      rw [hget]
      dsimp only at h ⊢
      rw [hbody] at h ⊢
      dsimp only at h ⊢
      have hcurr : st.ixCurr + 1 = w.length + 1 := by rw [heq]
      have hs : st.ixStart ≤ w.length := hin.start.trans hle
      obtain ⟨hfin, hres, hk⟩ := @close_end w { st with ixCurr := st.ixCurr + 1 } hlevel.symm hs
        hcurr t
      obtain ⟨hfin', -, -⟩ := @close_end w { st with ixCurr := st.ixCurr + 1 } hlevel.symm hs
        hcurr []
      rw [List.append_nil] at hfin'
      obtain rfl := argLoop_of_finished hfin' h
      refine ⟨_, ?_, hfin', hfin, hres, hk⟩
      cases n with
      | zero => cases h
      | succ n => exact argLoop_finished _ _ hfin

end

/-! ## The index after the list -/

/-- The text is read up to a marker after the list. -/
theorem readAt_closed {s w tail : Text} {i : ℕ} (hs : s.drop i = w ++ ')' :: tail)
    (hm : ¬ unfinishedMarker <:+: w) : ReadAt s i (closed w ++ cutMarker tail) := by
  have hle : i ≤ s.length := by
    by_contra hgt
    rw [List.drop_eq_nil_of_le (Nat.le_of_not_le hgt)] at hs
    simp at hs
  have hs' : s.drop i = closed w ++ tail := by rw [hs, closed, List.append_assoc]; rfl
  refine ⟨hle, ?_⟩
  rw [hs']
  refine cutMarker_append fun j hj hpre => hm ?_
  have hj' : j ≤ w.length := by
    rw [length_closed] at hj
    omega
  rw [closed, List.append_assoc, List.drop_append_of_le_length hj'] at hpre
  have hw := prefix_of_prefix_append_cons hpre (notMem_marker_of_isCloser rfl)
  exact hw.isInfix.trans (List.drop_suffix j w).isInfix

theorem length_takeWhile_cutMarker_le (p : Char → Bool) (tail : Text) :
    ((cutMarker tail).takeWhile p).length ≤ (tail.takeWhile p).length := by
  obtain ⟨u, hu, -⟩ := exists_eq_cutMarker_append tail
  have hpre : (cutMarker tail).takeWhile p <+: tail.takeWhile p := by
    conv_rhs => rw [hu]
    rw [List.takeWhile_append]
    split
    · rename_i hall
      rw [( List.takeWhile_prefix p).eq_of_length hall]
      exact List.prefix_append _ _
    · exact List.prefix_rfl
  exact hpre.length_le

/-- The whole list, with what follows and without it. -/
theorem parseCallArguments_wellFormed {w t : Text} (hw : WellFormedArgs w)
    (hm : ¬ unfinishedMarker <:+: closed w ++ t) :
    (parseCallArguments (closed w ++ t) 0).1 = (parseCallArguments (closed w) 0).1 ∧
      ∃ k ≤ (t.takeWhile (· = ' ')).length,
        (parseCallArguments (closed w ++ t) 0).2 = w.length + 1 + k := by
  obtain ⟨r, hr, -⟩ := @parseArgs_isSome (closed w) 0 (Nat.zero_le _)
  rw [parseCallArguments_of_parseArgs (Nat.zero_le _) hr]
  generalize 2 * (closed w).length + 3 = n at hr
  cases n with
  | zero => cases hr
  | succ n =>
    obtain ⟨hskip, hle⟩ := @skipWhile_closed w 0 (· = ' ') (Nat.zero_le _) rfl t
    have hlex := @lexAt_skipWhile w 0 (· = ' ') 0 rfl (Nat.zero_le _) rfl fun c hc => by
      rw [isSpaceOrComma, hc]
      rfl
    rw [parseArgs, argLimit_of_unmarked (unmarked_closed hm)] at hr
    obtain ⟨st', hst', rfl⟩ := Option.map_eq_some_iff.mp hr
    obtain ⟨st'', hrun, hfin', hfin, hres, k, hk, hcurr⟩ :=
      argLoop_end hw hm n (inside_init hlex hle) hst'
    have hparse : parseArgs (n + 1) (closed w ++ t) 0 = some (st''.theResult, st''.ixCurr) := by
      rw [parseArgs, argLimit_of_unmarked hm, hskip, hrun, Option.map_some, ArgState.finish,
        if_neg fun hgo => hgo.2 hfin]
    rw [parseCallArguments_of_parseArgs (Nat.zero_le _) hparse, ArgState.finish,
      if_neg fun hgo => hgo.2 hfin']
    exact ⟨hres, k, hk, hcurr⟩

/-- **The parser stops after the list**: what follows changes neither the arguments nor, but for
some spaces, the index. -/
theorem parseCallArguments_tail {s w tail : Text} {i : ℕ} (hs : s.drop i = w ++ ')' :: tail)
    (hw : WellFormedArgs w) (hm : ¬ unfinishedMarker <:+: w) :
    (parseCallArguments s i).1 = (parseCallArguments (closed w) 0).1 ∧
      ∃ k ≤ (tail.takeWhile (· = ' ')).length,
        (parseCallArguments s i).2 = i + w.length + 1 + k := by
  have hread := readAt_closed hs hm
  have hunmarked : ¬ unfinishedMarker <:+: closed w ++ cutMarker tail :=
    hread.eq ▸ not_infix_cutMarker _
  obtain ⟨hargs, k, hk, hindex⟩ := parseCallArguments_wellFormed hw hunmarked
  rw [parseCallArguments_cut hread]
  refine ⟨hargs, k, hk.trans (length_takeWhile_cutMarker_le _ tail), ?_⟩
  dsimp only
  rw [hindex]
  omega

/-- Skipped spaces do not hide an `=`. -/
theorem find?_eq_add {s : Text} {j k : ℕ} (h : ∀ c ∈ (s.drop j).take k, c ≠ '=') :
    find? s ['='] (j + k) = find? s ['='] j := by
  induction k generalizing j with
  | zero => rfl
  | succ k ih =>
    cases hd : s.drop j with
    | nil =>
      have hd' : s.drop (j + (k + 1)) = [] := by rw [← List.drop_drop, hd, List.drop_nil]
      rw [find?, find?, hd, hd']
      rfl
    | cons c u =>
      have hnext : s.drop (j + 1) = u := by rw [← List.drop_drop, hd]; rfl
      rw [hd, List.take_succ_cons, List.forall_mem_cons] at h
      have hfind := ih (hnext ▸ h.2)
      have hc : List.isPrefixOf ['='] (c :: u) = false := by simp [List.isPrefixOf, Ne.symm h.1]
      rw [Nat.add_comm k 1, ← Nat.add_assoc, hfind, find?, find?, hnext, hd, findIdx_cons, hc]
      simp only [Bool.false_eq_true, if_false, Option.map_map]
      congr 1
      funext n
      simp only [Function.comp_apply]
      omega

/-- **The index that the parser returns**: it never reads out of range and returns an index between
its start and the end of the text; after a well-formed list, the index is just after the closing
parenthesis with at most spaces skipped, the arguments are those of the list alone, and the `=` that
is searched from there is the first one of what follows. -/
theorem parseCallArguments_index (s : Text) (i : ℕ) (hi : i ≤ s.length) :
    (parseAt (2 * s.length + 3) s i = some (parseCallArguments s i) ∧
        i ≤ (parseCallArguments s i).2 ∧ (parseCallArguments s i).2 ≤ s.length) ∧
      ∀ w tail, s.drop i = w ++ ')' :: tail → WellFormedArgs w → ¬ unfinishedMarker <:+: w →
        (∃ k ≤ (tail.takeWhile (· = ' ')).length,
          (parseCallArguments s i).2 = i + w.length + 1 + k) ∧
        (parseCallArguments s i).1 = (parseCallArguments (w ++ [')']) 0).1 ∧
        find? s ['='] (parseCallArguments s i).2 =
          (findIdx ['='] tail).map (i + w.length + 1 + ·) := by
  refine ⟨parseAt_total hi, fun w tail hs hw hm => ?_⟩
  obtain ⟨hargs, k, hk, hindex⟩ := parseCallArguments_tail hs hw hm
  refine ⟨⟨k, hk, hindex⟩, hargs, ?_⟩
  have hdrop : s.drop (i + w.length + 1) = tail := by
    rw [Nat.add_assoc, ← List.drop_drop, hs, ← List.drop_drop, List.drop_left]
    rfl
  have hspaces : ∀ c ∈ (s.drop (i + w.length + 1)).take k, c ≠ '=' := by
    intro c hc
    have hpre : tail.takeWhile (· = ' ') <+: tail := List.takeWhile_prefix _
    have htake : tail.take k <+: tail.takeWhile (· = ' ') := by
      rw [List.prefix_iff_eq_take.mp hpre]
      exact List.take_prefix_take_left hk
    rw [hdrop] at hc
    have hblank := List.mem_takeWhile_imp (htake.subset hc)
    have hspace : c = ' ' := of_decide_eq_true hblank
    rw [hspace]
    decide
  rw [hindex, find?_eq_add hspaces, find?, hdrop]

/-- The arguments of `f(x, [1, 2]) = 3`. -/
theorem parseCallArguments_index_call :
    (∃ k ≤ (" = 3".toList.takeWhile (· = ' ')).length,
        (parseCallArguments "f(x, [1, 2]) = 3".toList 2).2 = 2 + 9 + 1 + k) ∧
      (parseCallArguments "f(x, [1, 2]) = 3".toList 2).1 =
        (parseCallArguments "x, [1, 2])".toList 0).1 ∧
      find? "f(x, [1, 2]) = 3".toList ['='] (parseCallArguments "f(x, [1, 2]) = 3".toList 2).2 =
        some 13 :=
  (parseCallArguments_index "f(x, [1, 2]) = 3".toList 2 (by decide)).2 "x, [1, 2]".toList
    " = 3".toList (by decide) (by decide) (by decide)

end Survol.Dockit
