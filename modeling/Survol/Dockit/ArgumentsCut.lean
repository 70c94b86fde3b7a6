import Survol.Dockit.ArgumentsRoundTrip

/-!
# The text that the argument parser reads

`parseCallArguments` only reads the text from its start up to the unfinished
marker: its result is the result on this text alone, at another position. A call
that is cut in two can then be compared with the whole call.

## Main definitions

* `cutMarker t` — a text up to its first unfinished marker.
* `ArgState.shift` — the loop at another position.

## Main results

* `parseCallArguments_cut` — only the text up to the marker is read.
* `parseCallArguments_after` — the arguments after the first ones are read as
  those of a shorter list.
-/

open PyText

namespace Survol.Dockit

/-! ## Cutting at the marker -/

/-- The text up to the first unfinished marker. -/
def cutMarker (t : Text) : Text := t.take ((findIdx unfinishedMarker t).getD t.length)

theorem cutMarker_eq_self {t : Text} (h : ¬ unfinishedMarker <:+: t) : cutMarker t = t := by
  rw [cutMarker, (findIdx_eq_none_iff (by decide) t).mpr h, Option.getD_none, List.take_length]

/-- What follows the cut begins with the marker, if there is anything. -/
theorem exists_eq_cutMarker_append (t : Text) :
    ∃ w, t = cutMarker t ++ w ∧ ∀ c ∈ w.head?, c = '<' := by
  refine ⟨_, (List.take_append_drop _ t).symm, ?_⟩
  cases h : findIdx unfinishedMarker t with
  | none => simp
  | some k =>
    obtain ⟨u, hu⟩ := prefix_of_findIdx h
    rw [Option.getD_some, ← hu, unfinishedMarker_eq]
    simp

theorem length_cutMarker (t : Text) :
    (cutMarker t).length = (findIdx unfinishedMarker t).getD t.length := by
  cases h : findIdx unfinishedMarker t with
  | none => simp [cutMarker, h]
  | some k => rw [cutMarker, h, Option.getD_some, List.length_take, min_eq_left (findIdx_le h)]

theorem length_cutMarker_le (t : Text) : (cutMarker t).length ≤ t.length :=
  ( List.take_prefix _ t).length_le

/-- The cut text has no marker left. -/
theorem not_infix_cutMarker (t : Text) : ¬ unfinishedMarker <:+: cutMarker t := by
  cases h : findIdx unfinishedMarker t with
  | none =>
    have hm := (findIdx_eq_none_iff (by decide) t).mp h
    rwa [cutMarker_eq_self hm]
  | some k =>
    rw [← findIdx_eq_none_iff (by decide), cutMarker, h, Option.getD_some]
    cases h' : findIdx unfinishedMarker (t.take k) with
    | none => rfl
    | some j =>
      have happ := findIdx_append_of_some h' (t.drop k)
      rw [List.take_append_drop, h, Option.some.injEq] at happ
      have hp := (prefix_of_findIdx h').length_le
      simp only [List.length_drop, List.length_take, happ] at hp
      have : unfinishedMarker.length = 16 := rfl
      omega

/-- A first part in which no marker begins is not cut. -/
theorem cutMarker_append {a b : Text}
    (h : ∀ j < a.length, ¬ unfinishedMarker <+: (a ++ b).drop j) :
    cutMarker (a ++ b) = a ++ cutMarker b := by
  have hfind : findIdx unfinishedMarker (a ++ b) =
      (findIdx unfinishedMarker b).map (a.length + ·) := by
    induction a with
    | nil => simp
    | cons c a ih =>
      have h0 : unfinishedMarker.isPrefixOf (c :: (a ++ b)) = false := by
        have := h 0 (by simp)
        rwa [List.drop_zero, List.cons_append, ← List.isPrefixOf_iff_prefix,
          Bool.not_eq_true] at this
      rw [List.cons_append, findIdx_cons, h0, ih fun j hj => h (j + 1) (by simpa using hj)]
      simp only [Bool.false_eq_true, if_false, Option.map_map, List.length_cons]
      congr 1
      funext n
      simp only [Function.comp_apply]
      omega
  rw [cutMarker, cutMarker, hfind]
  cases findIdx unfinishedMarker b with
  | none => simp
  | some k => simp [List.take_append, List.take_of_length_le (Nat.le_add_right a.length k)]

/-- A marker that begins in a text does not reach past a character it lacks. -/
theorem cutMarker_append_cons {a b : Text} {c : Char} (ha : ¬ unfinishedMarker <:+: a)
    (hc : c ∉ unfinishedMarker) : cutMarker (a ++ c :: b) = a ++ cutMarker (c :: b) := by
  refine cutMarker_append fun j hj hm => ha ?_
  rw [List.drop_append_of_le_length hj.le] at hm
  exact (prefix_of_prefix_append_cons hm hc).isInfix.trans (List.drop_suffix j a).isInfix

/-- A text with a marker is cut there, whatever follows. -/
theorem cutMarker_append_of_marked {a : Text} (b : Text) (ha : unfinishedMarker <:+: a) :
    cutMarker (a ++ b) = cutMarker a := by
  cases h : findIdx unfinishedMarker a with
  | none => exact absurd ha ((findIdx_eq_none_iff (by decide) a).mp h)
  | some k =>
    rw [cutMarker, cutMarker, findIdx_append_of_some h, h]
    simp [List.take_append_of_le_length (findIdx_le h)]

/-! ## The loop at another position -/

/-- The loop at a position further by `k`. -/
def ArgState.shift (k : ℕ) (st : ArgState) : ArgState :=
  { st with ixStart := k + st.ixStart, ixCurr := k + st.ixCurr }

/-- The same, after one step. -/
def ArgStep.shift (k : ℕ) : ArgStep → ArgStep
  | .next st => .next (st.shift k)
  | .list st => .list (st.shift k)

@[simp] theorem ArgStep.shift_next (k : ℕ) (st : ArgState) :
    (ArgStep.next st).shift k = .next (st.shift k) := rfl

@[simp] theorem ArgStep.shift_list (k : ℕ) (st : ArgState) :
    (ArgStep.list st).shift k = .list (st.shift k) := rfl

/-- The text `v` stands at `i` in `s`, and is what the parser reads from there. -/
structure ReadAt (s : Text) (i : ℕ) (v : Text) : Prop where
  le : i ≤ s.length
  eq : cutMarker (s.drop i) = v

section
variable {s v : Text} {i : ℕ} (hv : ReadAt s i v)
include hv

theorem ReadAt.exists_append : ∃ w, s.drop i = v ++ w ∧ ∀ c ∈ w.head?, c = '<' :=
  hv.eq ▸ exists_eq_cutMarker_append (s.drop i)

theorem ReadAt.argLimit {j : ℕ} (hj : j ≤ v.length) : argLimit s (i + j) = i + v.length := by
  have h0 : Survol.Dockit.argLimit s i = i + v.length := by
    rw [← hv.eq, length_cutMarker, Survol.Dockit.argLimit, find?, List.length_drop]
    cases findIdx unfinishedMarker (s.drop i) with
    | none =>
      have := hv.le
      simp only [Option.map_none, Option.getD_none]
      omega
    | some k => rfl
  rw [argLimit_of_le (Nat.le_add_right i j) (h0 ▸ Nat.add_le_add_left hj i), h0]

/-- The text alone is read to its end. -/
theorem ReadAt.self : ReadAt v 0 v :=
  ⟨Nat.zero_le _, by rw [List.drop_zero, ← hv.eq, cutMarker_eq_self (not_infix_cutMarker _)]⟩

theorem ReadAt.argLimit_self {j : ℕ} (hj : j ≤ v.length) :
    Survol.Dockit.argLimit v j = v.length := by
  simpa using hv.self.argLimit (j := j) hj

theorem ReadAt.view (j : ℕ) : (s.take (i + v.length)).drop (i + j) = v.drop j := by
  obtain ⟨w, hw, -⟩ := hv.exists_append
  rw [← List.drop_drop, List.drop_take, Nat.add_sub_cancel_left, hw, List.take_left]

theorem ReadAt.skipWhile (p : Char → Bool) (j : ℕ) :
    PyText.skipWhile p s (i + v.length) (i + j) = i + PyText.skipWhile p v v.length j := by
  rw [PyText.skipWhile, hv.view, PyText.skipWhile, List.take_length, Nat.add_assoc]

/-- The spaces skipped before looking for the marker are those of the text. -/
theorem ReadAt.skipSpaces {j : ℕ} (hj : j ≤ v.length) :
    PyText.skipWhile (· = ' ') s s.length (i + j)
      = i + PyText.skipWhile (· = ' ') v v.length j := by
  obtain ⟨w, hw, hhead⟩ := hv.exists_append
  have hdrop : s.drop (i + j) = v.drop j ++ w := by
    rw [← List.drop_drop, hw, List.drop_append_of_le_length hj]
  rw [PyText.skipWhile, PyText.skipWhile, List.take_length, List.take_length, hdrop,
    takeWhile_append_of_head, Nat.add_assoc]
  intro c hc
  simp [hhead c hc]

theorem ReadAt.slice (a : ℕ) {e : ℕ} (he : e ≤ v.length) :
    PyText.slice s (i + a) (i + e) = PyText.slice v a e := by
  obtain ⟨w, hw, -⟩ := hv.exists_append
  rw [PyText.slice, PyText.slice, ← List.drop_drop, List.drop_take, Nat.add_sub_cancel_left, hw,
    List.take_append_of_le_length he]

theorem ReadAt.cleanArg (junk : Char → Bool) (a : ℕ) {e : ℕ} (he : e ≤ v.length) :
    Survol.Dockit.cleanArg junk s (i + v.length) (i + a) (i + e)
      = Survol.Dockit.cleanArg junk v v.length a e := by
  rw [Survol.Dockit.cleanArg, hv.skipWhile, hv.slice _ he, Survol.Dockit.cleanArg]

theorem ReadAt.store (st : ArgState) (h₁ : 1 ≤ st.ixCurr) (h₂ : st.ixCurr ≤ v.length) :
    (st.shift i).store s (i + v.length) = (st.store v v.length).shift i := by
  have hsub : i + st.ixCurr - 1 = i + (st.ixCurr - 1) := by omega
  simp only [ArgState.store, ArgState.shift, hsub, hv.cleanArg _ _ (e := st.ixCurr - 1) (by omega),
    hv.skipWhile]

theorem ReadAt.close (st : ArgState) (h₁ : 1 ≤ st.ixCurr) (h₂ : st.ixCurr ≤ v.length) :
    (st.shift i).close s (i + v.length) = (st.close v v.length).shift i := by
  have hstore := hv.store st h₁ h₂
  have hix : (i + st.ixCurr = i + st.ixStart + 1) = (st.ixCurr = st.ixStart + 1) :=
    propext (by omega)
  unfold ArgState.close
  rw [hstore]
  cases hl : st.levelParent with
  | zero =>
    simp only [ArgState.shift, hl, hix]
    split <;> rfl
  | succ level => simp only [ArgState.shift, hl]

theorem ReadAt.body {st : ArgState} (h : st.ixCurr < v.length) (c : Char) :
    (st.shift i).body s (i + v.length) c = (st.body v v.length c).shift i := by
  have hnext : { st.shift i with ixCurr := i + st.ixCurr + 1 }
      = { st with ixCurr := st.ixCurr + 1 }.shift i := rfl
  have hstore := hv.store { st with ixCurr := st.ixCurr + 1 } (by simp) h
  have hclose := hv.close { st with ixCurr := st.ixCurr + 1 } (by simp) h
  have hix : (i + st.ixCurr + 1 = i + st.ixStart + 1) = (st.ixCurr + 1 = st.ixStart + 1) :=
    propext (by omega)
  simp only [ArgState.body, apply_ite (ArgStep.shift i), ArgStep.shift_next, ArgStep.shift_list,
    ← hstore, ← hclose]
  simp only [ArgState.shift, hix]
  rfl

theorem ReadAt.append {st : ArgState} (objToAdd : List Arg) (ix : ℕ) :
    (st.shift i).append s (i + v.length) objToAdd (i + ix)
      = (st.append v v.length objToAdd ix).shift i := by
  simp only [ArgState.append, ArgState.shift, hv.skipWhile]

theorem ReadAt.finish (st : ArgState) :
    (st.shift i).finish s (i + v.length)
      = ((st.finish v v.length).1, i + (st.finish v v.length).2) := by
  simp only [ArgState.finish, ArgState.shift, hv.cleanArg _ _ le_rfl, Nat.add_lt_add_iff_left]
  split <;> rfl

end

/-- The loop and the function, at another position. -/
theorem argLoop_shift_and_parseArgs_shift (n : ℕ) :
    (∀ {s v : Text} {i j : ℕ}, ReadAt s i v → j ≤ v.length →
      parseArgs n s (i + j) = (parseArgs n v j).map fun r => (r.1, i + r.2)) ∧
    (∀ {s v : Text} {i : ℕ} (st : ArgState), ReadAt s i v →
      argLoop n s (i + v.length) (st.shift i) = (argLoop n v v.length st).map (ArgState.shift i)) := by
  induction n with
  | zero => exact ⟨fun _ _ => rfl, fun _ _ => rfl⟩
  | succ n ih =>
    obtain ⟨ihp, ihl⟩ := ih
    constructor
    · intro s v i j hv hj
      have hskip : skipWhile (· = ' ') v v.length j ≤ v.length := skipWhile_le hj
      rw [parseArgs, parseArgs, hv.skipSpaces hj]
      rw [hv.argLimit hskip, hv.argLimit_self hskip]
      have hl := ihl (ArgState.init (skipWhile (· = ' ') v v.length j)) hv
      rw [show (ArgState.init (skipWhile (· = ' ') v v.length j)).shift i
        = ArgState.init (i + skipWhile (· = ' ') v v.length j) from rfl] at hl
      rw [hl, Option.map_map, Option.map_map]
      congr 1
      funext st
      exact hv.finish st
    · intro s v i st hv
      have hgo : (st.shift i).ixCurr < i + v.length ∧ ¬ (st.shift i).finished = true ↔
          st.ixCurr < v.length ∧ ¬ st.finished = true := by simp [ArgState.shift]
      rw [argLoop, argLoop]
      by_cases h : st.ixCurr < v.length ∧ ¬ st.finished = true
      · rw [if_pos h, if_pos (hgo.mpr h)]
        have hget : s[(st.shift i).ixCurr]? = v[st.ixCurr]? := by
          obtain ⟨w, hw, -⟩ := hv.exists_append
          have := congrArg (fun l => l[st.ixCurr]?) hw
          simp only [List.getElem?_drop, List.getElem?_append_left h.1] at this
          exact this
        rw [hget]
        cases v[st.ixCurr]? with
        | none => rfl
        | some c =>
          dsimp only
          rw [hv.body h.1 c]
          have hbounds := body_bounds (s := v) (c := c) h.1
          cases hb : st.body v v.length c with
          | next st' => exact ihl st' hv
          | list st' =>
            simp only [hb] at hbounds
            simp only [ArgStep.shift]
            rw [show (st'.shift i).ixCurr = i + st'.ixCurr from rfl,
              ihp hv (j := st'.ixCurr) (by omega)]
            cases parseArgs n v st'.ixCurr with
            | none => rfl
            | some r =>
              obtain ⟨objToAdd, ix⟩ := r
              simp only [Option.map_some]
              rw [hv.append objToAdd ix]
              exact ihl _ hv
      · rw [if_neg h, if_neg (fun hs => h (hgo.mp hs))]
        rfl

/-- **The parser reads the text up to the marker.** -/
theorem parseCallArguments_cut {s v : Text} {i : ℕ} (hv : ReadAt s i v) :
    parseCallArguments s i = ((parseCallArguments v 0).1, i + (parseCallArguments v 0).2) := by
  obtain ⟨r, hr, -⟩ := parseArgs_isSome (s := v) (Nat.zero_le _)
  have hs : parseArgs (2 * v.length + 3) s i = some (r.1, i + r.2) := by
    have := (argLoop_shift_and_parseArgs_shift (2 * v.length + 3)).1 hv (Nat.zero_le _)
    rw [Nat.add_zero, hr] at this
    exact this
  rw [parseCallArguments_of_parseArgs hv.le hs,
    parseCallArguments_of_parseArgs (Nat.zero_le _) hr]

/-! ## The arguments already read -/

/-- The loop with other arguments read before. -/
def ArgState.prepend (r : List Arg) (st : ArgState) : ArgState :=
  { st with theResult := r ++ st.theResult }

/-- The same, after one step. -/
def ArgStep.prepend (r : List Arg) : ArgStep → ArgStep
  | .next st => .next (st.prepend r)
  | .list st => .list (st.prepend r)

@[simp] theorem ArgStep.prepend_next (r : List Arg) (st : ArgState) :
    (ArgStep.next st).prepend r = .next (st.prepend r) := rfl

@[simp] theorem ArgStep.prepend_list (r : List Arg) (st : ArgState) :
    (ArgStep.list st).prepend r = .list (st.prepend r) := rfl

section
variable {s : Text} {L : ℕ} (r : List Arg) (st : ArgState)

theorem prepend_store : (st.prepend r).store s L = (st.store s L).prepend r := by
  simp only [ArgState.store, ArgState.prepend, List.append_assoc]

theorem prepend_close : (st.prepend r).close s L = (st.close s L).prepend r := by
  unfold ArgState.close
  rw [prepend_store]
  cases hl : st.levelParent with
  | zero =>
    simp only [ArgState.prepend, hl]
    split <;> rfl
  | succ level => simp only [ArgState.prepend, hl]

theorem prepend_body (c : Char) : (st.prepend r).body s L c = (st.body s L c).prepend r := by
  have hstore := prepend_store (s := s) (L := L) r { st with ixCurr := st.ixCurr + 1 }
  have hclose := prepend_close (s := s) (L := L) r { st with ixCurr := st.ixCurr + 1 }
  simp only [ArgState.body, apply_ite (ArgStep.prepend r), ArgStep.prepend_next,
    ArgStep.prepend_list, ← hstore, ← hclose]
  rfl

theorem prepend_finish : (st.prepend r).finish s L = (r ++ (st.finish s L).1, (st.finish s L).2) := by
  have hgo : (st.prepend r).ixStart < L ∧ ¬ (st.prepend r).finished = true ↔
      st.ixStart < L ∧ ¬ st.finished = true := Iff.rfl
  rw [ArgState.finish, ArgState.finish]
  by_cases h : st.ixStart < L ∧ ¬ st.finished = true
  · rw [if_pos h, if_pos (hgo.mpr h)]
    simp only [ArgState.prepend, List.append_assoc]
  · rw [if_neg h, if_neg (fun hr => h (hgo.mp hr))]
    rfl

/-- The loop does not look at the arguments already read. -/
theorem argLoop_prepend (n : ℕ) :
    argLoop n s L (st.prepend r) = (argLoop n s L st).map (ArgState.prepend r) := by
  induction n generalizing st with
  | zero => rfl
  | succ n ih =>
    have hgo : (st.prepend r).ixCurr < L ∧ ¬ (st.prepend r).finished = true ↔
        st.ixCurr < L ∧ ¬ st.finished = true := Iff.rfl
    rw [argLoop, argLoop]
    by_cases h : st.ixCurr < L ∧ ¬ st.finished = true
    · rw [if_pos h, if_pos (hgo.mpr h)]
      rw [show (st.prepend r).ixCurr = st.ixCurr from rfl]
      cases s[st.ixCurr]? with
      | none => rfl
      | some c =>
        dsimp only
        rw [prepend_body]
        cases st.body s L c with
        | next st' => exact ih st'
        | list st' =>
          simp only [ArgStep.prepend]
          rw [show (st'.prepend r).ixCurr = st'.ixCurr from rfl]
          cases parseArgs n s st'.ixCurr with
          | none => rfl
          | some q =>
            dsimp only
            rw [← ih]
            simp only [ArgState.append, ArgState.prepend, List.append_assoc]
    · rw [if_neg h, if_neg (fun hr => h (hgo.mp hr))]
      rfl

end

/-- Once the loop has read the arguments `r`, the rest of the text is read as if
it stood alone. -/
theorem parseCallArguments_after {v : Text} {r : List Arg} {k : ℕ} (hv : ReadAt v 0 v)
    (hk : k ≤ v.length) (hlead : Leads v v.length (ArgState.fresh [] 0) (ArgState.fresh r k))
    (h0 : ∀ c ∈ v.head?, c ≠ ' ') (hskip : ∀ c ∈ (v.drop k).head?, c ≠ ' ') :
    parseCallArguments v 0 = (r ++ (parseCallArguments (v.drop k) 0).1,
      k + (parseCallArguments (v.drop k) 0).2) := by
  have hskip₀ : skipWhile (· = ' ') v v.length 0 = 0 := by
    apply skipWhile_of_head
    simpa [view] using h0
  have hskip₁ : skipWhile (· = ' ') v v.length k = k := by
    apply skipWhile_of_head
    simpa [view] using hskip
  have hw : ReadAt v k (v.drop k) := ⟨hk, cutMarker_eq_self fun h => by
    have := not_infix_cutMarker (v.drop 0)
    rw [hv.eq] at this
    exact this (h.trans (List.drop_suffix k v).isInfix)⟩
  obtain ⟨m, n₀, hlead⟩ := hlead
  obtain ⟨q, hq, -⟩ := parseArgs_isSome hk
  have hfuel := parseArgs_mono hq (Nat.le_add_left (2 * v.length + 3) (n₀ + 1))
  rw [show n₀ + 1 + (2 * v.length + 3) = (n₀ + (2 * v.length + 3)) + 1 by omega] at hfuel
  have hloop := hlead (n₀ + (2 * v.length + 3)) (Nat.le_add_right _ _)
  rw [show ArgState.fresh r k = (ArgState.fresh [] k).prepend r by simp [ArgState.fresh,
    ArgState.prepend], argLoop_prepend] at hloop
  rw [parseArgs, hskip₁, hv.argLimit_self hk, Option.map_eq_some_iff] at hfuel
  obtain ⟨st, hst, hfin⟩ := hfuel
  rw [ArgState.init_eq] at hst
  rw [hst, Option.map_some] at hloop
  have hparse : parseArgs (n₀ + (2 * v.length + 3) + m + 1) v 0 = some (r ++ q.1, q.2) := by
    rw [parseArgs, hskip₀, hv.argLimit_self (Nat.zero_le _), ArgState.init_eq, hloop,
      Option.map_some, prepend_finish, hfin]
  rw [parseCallArguments_of_parseArgs (Nat.zero_le _) hparse]
  have hcut := parseCallArguments_cut hw
  rw [parseCallArguments_of_parseArgs hk hq] at hcut
  rw [hcut]

end Survol.Dockit
