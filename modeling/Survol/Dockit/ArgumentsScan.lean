import Survol.Dockit.Arguments

/-!
# How the argument loop runs

The loop of `parseCallArguments`, described by what is left to read instead of
by indices. `Lex` is the part of its state that one character changes, and
`argLoop_run` runs the loop over any text that stays inside one argument.

`Leads` composes such runs. It hides the fuel: a state leads to another when,
given enough fuel, running from the first is running from the second.

## Main definitions

* `view s L i` — what is left to read at `i`.
* `Lex`, `Lex.step`, `Lex.run` — quotes, escapes and bracket level of one argument.
* `Leads s L st st'` — the loop goes from `st` to `st'`.
* `clean junk body` — what `cleanArg` keeps of an argument's text.

## Main results

* `parseArgs_isSome` — the fuel of `parseCallArguments` suffices.
* `parseCallArguments_of_leads` — the result of a run that stops.
-/

open PyText

namespace Survol.Dockit

/-! ## What is left to read -/

/-- The text between `i` and `L`. -/
def view (s : Text) (L i : ℕ) : Text := (s.take L).drop i

variable {s : Text} {L i : ℕ}

theorem view_eq_take_drop (s : Text) (L i : ℕ) : view s L i = (s.drop i).take (L - i) :=
  List.drop_take

theorem length_view_le (s : Text) (L i : ℕ) : (view s L i).length ≤ L - i := by
  rw [view_eq_take_drop]; exact List.length_take_le _ _

theorem lt_of_view_cons {c : Char} {t : Text} (h : view s L i = c :: t) : i < L := by
  have := length_view_le s L i
  rw [h, List.length_cons] at this
  omega

theorem getElem?_of_view_cons {c : Char} {t : Text} (h : view s L i = c :: t) :
    s[i]? = some c := by
  have hlt := lt_of_view_cons h
  have : (view s L i)[0]? = some c := by rw [h]; rfl
  rw [view, List.getElem?_drop, List.getElem?_take] at this
  simpa [hlt] using this

theorem view_add {u t : Text} (h : view s L i = u ++ t) : view s L (i + u.length) = t := by
  have : view s L (i + u.length) = (view s L i).drop u.length := by
    simp only [view, List.drop_drop]
  rw [this, h, List.drop_left]

theorem view_succ {c : Char} {t : Text} (h : view s L i = c :: t) : view s L (i + 1) = t :=
  view_add (u := [c]) h

/-- The text read between two positions does not depend on the limit. -/
theorem slice_of_view {u t : Text} (h : view s L i = u ++ t) (k : ℕ) :
    slice s (i + k) (i + u.length) = u.drop k := by
  have hlen : u.length ≤ L - i := by
    have := length_view_le s L i
    rw [h, List.length_append] at this
    omega
  have hu : (s.drop i).take u.length = u := by
    have := congrArg (List.take u.length) h
    rwa [view_eq_take_drop, List.take_take, min_eq_left hlen, List.take_left] at this
  rw [slice, ← List.drop_drop, List.drop_take, Nat.add_sub_cancel_left, hu]

/-- A forward scan stops where the text it may skip ends. -/
theorem skipWhile_of_view {p : Char → Bool} {u t : Text} (h : view s L i = u ++ t)
    (hu : ∀ c ∈ u, p c = true) (ht : ∀ c ∈ t.head?, p c = false) :
    skipWhile p s L i = i + u.length := by
  have htake : (u ++ t).takeWhile p = u := by
    rw [List.takeWhile_append_of_pos hu]
    cases t with
    | nil => simp
    | cons c t => simp [ht c rfl]
  rw [skipWhile, show (s.take L).drop i = u ++ t from h, htake]

/-- A scan that may not skip the first character does not move. -/
theorem skipWhile_of_head {p : Char → Bool} (h : ∀ c ∈ (view s L i).head?, p c = false) :
    skipWhile p s L i = i :=
  skipWhile_of_view (u := []) rfl (by simp) h

/-! ## The limit -/

/-- The limit of a later start is the same, until the limit is reached. -/
theorem argLimit_of_le {j : ℕ} (hij : i ≤ j) (hj : j ≤ argLimit s i) :
    argLimit s j = argLimit s i := by
  obtain ⟨d, rfl⟩ := Nat.exists_eq_add_of_le hij
  simp only [argLimit, find?] at *
  rw [← List.drop_drop]
  cases h : findIdx unfinishedMarker (s.drop i) with
  | none => rw [findIdx_drop_none h]; rfl
  | some k =>
    simp only [h, Option.map_some, Option.getD_some] at hj ⊢
    rw [findIdx_drop h (by omega)]
    simp only [Option.map_some, Option.getD_some]
    omega

/-! ## One character -/

/-- The part of the loop's state that says where in an argument it is. -/
structure Lex where
  inQuotes : Bool
  levelParent : ℕ
  isEscaped : Bool
  deriving DecidableEq

/-- Outside quotes and brackets. -/
def Lex.fresh : Lex := ⟨false, 0, false⟩

/-- What one character does inside an argument; `none` if it ends it. -/
def Lex.step (x : Lex) (aChr : Char) : Option Lex :=
  if x.isEscaped then some { x with isEscaped := false }
  else if aChr = '\\' then some { x with isEscaped := true }
  else if aChr = '"' then some { x with inQuotes := !x.inQuotes }
  else if x.inQuotes then some x
  else if aChr = '[' ∨ aChr = '{' ∨ aChr = '(' then
    some { x with levelParent := x.levelParent + 1 }
  else if aChr = ')' ∨ aChr = ']' ∨ aChr = '}' then
    match x.levelParent with
    | 0 => none
    | level + 1 => some { x with levelParent := level }
  else if aChr = ',' ∧ x.levelParent = 0 then none
  else some x

/-- What a text does inside an argument; `none` if it ends it. -/
def Lex.run (x : Lex) : Text → Option Lex
  | [] => some x
  | c :: t => (x.step c).bind fun y => y.run t

theorem Lex.run_append (x : Lex) (u t : Text) :
    x.run (u ++ t) = (x.run u).bind fun y => y.run t := by
  induction u generalizing x with
  | nil => rfl
  | cons c u ih =>
    simp only [List.cons_append, Lex.run, Option.bind_assoc]
    congr 1
    funext y
    exact ih y

/-- Where in an argument a state of the loop is. -/
def ArgState.lex (st : ArgState) : Lex := ⟨st.inQuotes, st.levelParent, st.isEscaped⟩

/-- The state after reading `n` characters inside an argument. -/
def ArgState.read (st : ArgState) (x : Lex) (n : ℕ) : ArgState :=
  { st with inQuotes := x.inQuotes, levelParent := x.levelParent,
            isEscaped := x.isEscaped, ixCurr := st.ixCurr + n }

/-- The state between two arguments. -/
def ArgState.fresh (theResult : List Arg) (ix : ℕ) : ArgState :=
  ⟨theResult, false, false, 0, false, ix, ix⟩

theorem ArgState.init_eq (ix : ℕ) : ArgState.init ix = ArgState.fresh [] ix := rfl

/-- An opening bracket that begins an argument is the one character that is not
read inside an argument. -/
def BeginsList (st : ArgState) (aChr : Char) : Prop :=
  st.ixCurr = st.ixStart ∧ (aChr = '[' ∨ aChr = '{')

/-- The loop after one character that does not begin a list. -/
theorem argLoop_next {st st' : ArgState} {c : Char} {t : Text}
    (hv : view s L st.ixCurr = c :: t) (hf : st.finished = false)
    (hb : st.body s L c = .next st') (n : ℕ) :
    argLoop (n + 1) s L st = argLoop n s L st' := by
  simp [argLoop, lt_of_view_cons hv, getElem?_of_view_cons hv, hf, hb]

/-- A character inside an argument only changes where in the argument it is. -/
theorem body_of_step {st : ArgState} {c : Char} {x : Lex} (hb : ¬ BeginsList st c)
    (hx : st.lex.step c = some x) : st.body s L c = .next (st.read x 1) := by
  obtain ⟨res, fin, q, lv, e, ixS, ixC⟩ := st
  simp only [Lex.step, ArgState.lex, BeginsList] at hx hb
  simp only [ArgState.read, ArgState.body]
  grind [ArgState.close]

/-- The loop over a text that stays inside one argument. -/
theorem argLoop_run {st : ArgState} {u t : Text} {x : Lex}
    (hv : view s L st.ixCurr = u ++ t) (hf : st.finished = false)
    (hb : ∀ c ∈ u.head?, ¬ BeginsList st c) (hs : st.ixStart ≤ st.ixCurr)
    (hx : st.lex.run u = some x) (n : ℕ) :
    argLoop (n + u.length) s L st = argLoop n s L (st.read x u.length) := by
  induction u generalizing st n with
  | nil =>
    simp only [Lex.run, Option.some.injEq] at hx
    subst hx
    rfl
  | cons c u ih =>
    simp only [Lex.run, Option.bind_eq_some_iff] at hx
    obtain ⟨y, hy, hx⟩ := hx
    have hstep := argLoop_next hv hf (body_of_step (hb c rfl) hy) (n + u.length)
    have hnext : ∀ d ∈ u.head?, ¬ BeginsList (st.read y 1) d := by
      rintro d - ⟨h, -⟩
      simp only [ArgState.read] at h
      omega
    have := @ih (st.read y 1) (view_succ hv) hf hnext
      (by simp only [ArgState.read]; omega) hx n
    rw [List.length_cons, ← Nat.add_assoc, hstep, this]
    simp only [ArgState.read, Nat.add_assoc, Nat.add_comm 1]

/-! ## The end of an argument -/

/-- What is kept of the text of an argument. -/
def clean (junk : Char → Bool) (body : Text) : Text :=
  dropQuoteOfTruncated ((body.dropWhile isSpaceOrQuote).rdropWhile junk)

theorem cleanArg_of_view (junk : Char → Bool) {body t : Text} (h : view s L i = body ++ t)
    (ht : ∀ c ∈ t.head?, isSpaceOrQuote c = false) :
    cleanArg junk s L i (i + body.length) = clean junk body := by
  have hskip : skipWhile isSpaceOrQuote s L i
      = i + (body.takeWhile isSpaceOrQuote).length := by
    rw [skipWhile, show (s.take L).drop i = body ++ t from h, takeWhile_append_of_head ht]
  rw [cleanArg, hskip, slice_of_view h, clean, drop_length_takeWhile]

/-- A comma or a closing bracket, neither of which is skipped around arguments. -/
def isCloser (c : Char) : Bool := c = ')' || c = ']' || c = '}'

theorem store_of_view (st : ArgState) {body : Text} {c : Char} {t : Text}
    (hv : view s L st.ixStart = body ++ c :: t) (hc : isSpaceOrQuote c = false)
    (hcur : st.ixCurr = st.ixStart + body.length + 1) :
    st.store s L =
      { st with theResult := st.theResult ++ [.str (clean (· = '"') body)],
                ixStart := st.ixCurr + (t.takeWhile (· = ' ')).length,
                ixCurr := st.ixCurr + (t.takeWhile (· = ' ')).length } := by
  have hclean : cleanArg (· = '"') s L st.ixStart (st.ixCurr - 1) = clean (· = '"') body := by
    rw [hcur, Nat.add_sub_cancel]
    exact cleanArg_of_view _ hv (by simpa using hc)
  have hview : view s L st.ixCurr = t := by
    have := view_add (u := body ++ [c]) (t := t) (by simpa using hv)
    rwa [List.length_append, List.length_singleton, ← Nat.add_assoc, ← hcur] at this
  have hskip : skipWhile (· = ' ') s L st.ixCurr
      = st.ixCurr + (t.takeWhile (· = ' ')).length := by
    rw [skipWhile, show (s.take L).drop st.ixCurr = t from hview]
  simp only [ArgState.store, hclean, hskip]

/-! ## Fuel -/

/-- More fuel does not change a result. -/
theorem argLoop_succ_and_parseArgs_succ (n : ℕ) :
    (∀ {s : Text} {i : ℕ} {r : List Arg × ℕ},
      parseArgs n s i = some r → parseArgs (n + 1) s i = some r) ∧
    (∀ {s : Text} {L : ℕ} {st st' : ArgState},
      argLoop n s L st = some st' → argLoop (n + 1) s L st = some st') := by
  induction n with
  | zero => simp [parseArgs, argLoop]
  | succ n ih =>
    obtain ⟨ihp, ihl⟩ := ih
    constructor
    · intro s i r h
      rw [parseArgs] at h ⊢
      simp only [Option.map_eq_some_iff] at h ⊢
      obtain ⟨st', hst', hr⟩ := h
      exact ⟨st', ihl hst', hr⟩
    · intro s L st st' h
      rw [argLoop] at h ⊢
      split at h
      · rename_i hlt
        rw [if_pos hlt]
        cases hc : s[st.ixCurr]? with
        | none => simp [hc] at h
        | some c =>
          simp only [hc] at h ⊢
          cases hb : st.body s L c with
          | next st₁ =>
            simp only [hb] at h ⊢
            exact ihl h
          | list st₁ =>
            simp only [hb] at h ⊢
            cases hp : parseArgs n s st₁.ixCurr with
            | none => simp [hp] at h
            | some r =>
              rw [hp] at h
              rw [ihp hp]
              exact ihl h
      · rename_i hlt
        rwa [if_neg hlt]

theorem parseArgs_mono {n m : ℕ} {r : List Arg × ℕ} (h : parseArgs n s i = some r)
    (hnm : n ≤ m) : parseArgs m s i = some r := by
  induction hnm with
  | refl => exact h
  | step _ ih => exact (argLoop_succ_and_parseArgs_succ _).1 ih

theorem skipWhile_le {p : Char → Bool} (hi : i ≤ L) : skipWhile p s L i ≤ L := by
  have := ( List.takeWhile_prefix p (l := view s L i)).length_le
  have := length_view_le s L i
  simp only [skipWhile, view] at *
  omega

theorem le_skipWhile {p : Char → Bool} : i ≤ skipWhile p s L i := Nat.le_add_right _ _

theorem argLimit_le (hi : i ≤ s.length) : argLimit s i ≤ s.length ∧ i ≤ argLimit s i := by
  simp only [argLimit, find?]
  cases h : findIdx unfinishedMarker (s.drop i) with
  | none => simpa using hi
  | some k =>
    have := findIdx_le h
    simp only [List.length_drop, Option.map_some, Option.getD_some] at *
    omega

theorem unfinishedMarker_eq : unfinishedMarker = '<' :: "unfinished ...>".toList := by decide

/-- The spaces skipped first do not reach into the marker. -/
theorem skipSpaces_le_argLimit (hi : i ≤ s.length) :
    skipWhile (· = ' ') s s.length i ≤ argLimit s i := by
  simp only [argLimit, find?]
  cases h : findIdx unfinishedMarker (s.drop i) with
  | none => exact skipWhile_le hi
  | some k =>
    obtain ⟨t, ht⟩ := prefix_of_findIdx h
    have hsplit : s.drop i = (s.drop i).take k ++ (unfinishedMarker ++ t) := by
      rw [ht, List.take_append_drop]
    have hstop : ((s.drop i).takeWhile (· = ' ')).length ≤ k := by
      rw [hsplit, takeWhile_append_of_head (by rw [unfinishedMarker_eq]; simp)]
      exact ( List.takeWhile_prefix _).length_le.trans (List.length_take_le _ _)
    simpa [skipWhile] using hstop

/-- Storing an argument only moves forward, up to the limit. -/
theorem store_bounds {st : ArgState} (h : st.ixCurr ≤ L) :
    st.ixCurr ≤ (st.store s L).ixCurr ∧ (st.store s L).ixCurr ≤ L :=
  ⟨le_skipWhile, skipWhile_le h⟩

theorem close_bounds {st : ArgState} (h : st.ixCurr ≤ L) :
    st.ixCurr ≤ (st.close s L).ixCurr ∧ (st.close s L).ixCurr ≤ L := by
  unfold ArgState.close
  split
  · exact ⟨le_rfl, h⟩
  · split
    · exact ⟨le_rfl, h⟩
    · exact store_bounds h

/-- The body of the loop moves forward by at least the character it reads. -/
theorem body_bounds {st : ArgState} {c : Char} (h : st.ixCurr < L) :
    match st.body s L c with
    | .next st' => st.ixCurr + 1 ≤ st'.ixCurr ∧ st'.ixCurr ≤ L
    | .list st' => st'.ixCurr = st.ixCurr + 1 := by
  have hstore := @store_bounds s L { st with ixCurr := st.ixCurr + 1 } h
  have hclose := @close_bounds s L { st with ixCurr := st.ixCurr + 1 } h
  simp only [ArgState.body]
  split_ifs <;> simp only [Nat.le_refl, true_and]
  all_goals first | exact h | exact hclose | exact hstore

/-- Enough fuel, and the position only moves forward, up to the limit. The fuel
counts two units a character, one for the loop and one for a nested list. -/
theorem argLoop_total_and_parseArgs_total (n : ℕ) :
    (∀ {s : Text} {i : ℕ}, i ≤ s.length → 2 * (argLimit s i - i) + 2 ≤ n →
      ∃ r, parseArgs n s i = some r ∧ i ≤ r.2 ∧ r.2 ≤ argLimit s i) ∧
    (∀ {s : Text} {L : ℕ} {st : ArgState}, L ≤ s.length → st.ixCurr ≤ L →
      argLimit s st.ixCurr = L → 2 * (L - st.ixCurr) + 1 ≤ n →
      ∃ st', argLoop n s L st = some st' ∧ st.ixCurr ≤ st'.ixCurr ∧ st'.ixCurr ≤ L) := by
  induction n with
  | zero => exact ⟨by intro s i _ h; omega, by intro s L st _ _ _ h; omega⟩
  | succ n ih =>
    obtain ⟨ihp, ihl⟩ := ih
    constructor
    · intro s i hi hn
      rw [parseArgs]
      set j := skipWhile (· = ' ') s s.length i with hj
      have hij : i ≤ j := le_skipWhile
      have hjs : j ≤ s.length := skipWhile_le hi
      have hlim := argLimit_le hjs
      have hsame : argLimit s j = argLimit s i :=
        argLimit_of_le hij (skipSpaces_le_argLimit hi)
      obtain ⟨st', hst', hge, hle⟩ := @ihl _ _ (ArgState.init j) hlim.1 hlim.2 rfl
        (by simp only [ArgState.init]; omega)
      rw [hst']
      refine ⟨_, rfl, ?_⟩
      have hix : (st'.finish s (argLimit s j)).2 = st'.ixCurr := by
        unfold ArgState.finish
        split <;> rfl
      rw [hix, ← hsame]
      exact ⟨hij.trans hge, hle⟩
    · intro s L st hL hcur hlim hn
      have hlater : ∀ {k : ℕ}, st.ixCurr ≤ k → k ≤ L → argLimit s k = L :=
        fun hk hk' => (argLimit_of_le hk (hlim ▸ hk')).trans hlim
      rw [argLoop]
      split
      · rename_i hlt
        have hlen : st.ixCurr < s.length := by omega
        have hbounds := body_bounds (s := s) (c := s[st.ixCurr]) hlt.1
        rw [List.getElem?_eq_getElem (by omega)]
        simp only
        cases hb : st.body s L s[st.ixCurr] with
        | next st₁ =>
          simp only [hb] at hbounds ⊢
          obtain ⟨st', hst', hge, hle⟩ := @ihl _ _ st₁ hL hbounds.2
            (hlater (by omega) hbounds.2) (by omega)
          exact ⟨st', hst', by omega, hle⟩
        | list st₁ =>
          simp only [hb] at hbounds ⊢
          have hnest := hlater (k := st₁.ixCurr) (by omega) (by omega)
          obtain ⟨r, hr, hge, hle⟩ := ihp (s := s) (i := st₁.ixCurr) (by omega) (by omega)
          rw [hnest] at hle
          rw [hr]
          have happ : st₁.ixCurr ≤ (st₁.append s L r.1 r.2).ixCurr
              ∧ (st₁.append s L r.1 r.2).ixCurr ≤ L :=
            ⟨hge.trans le_skipWhile, skipWhile_le hle⟩
          obtain ⟨st', hst', hge', hle'⟩ := @ihl _ _ (st₁.append s L r.1 r.2) hL happ.2
            (hlater (by omega) happ.2) (by omega)
          exact ⟨st', hst', by omega, hle'⟩
      · exact ⟨st, rfl, le_rfl, hcur⟩

/-- `parseCallArguments` has enough fuel, for every text and start. -/
theorem parseArgs_isSome (hi : i ≤ s.length) :
    ∃ r, parseArgs (2 * s.length + 3) s i = some r ∧ i ≤ r.2 ∧ r.2 ≤ argLimit s i :=
  (argLoop_total_and_parseArgs_total _).1 hi (by have := argLimit_le hi; omega)

/-! ## Runs without fuel -/

/-- The loop goes from `st` to `st'`. -/
def Leads (s : Text) (L : ℕ) (st st' : ArgState) : Prop :=
  ∃ k n₀, ∀ n ≥ n₀, argLoop (n + k) s L st = argLoop n s L st'

theorem Leads.refl (st : ArgState) : Leads s L st st := ⟨0, 0, fun _ _ => rfl⟩

theorem Leads.trans {st₁ st₂ st₃ : ArgState} (h₁ : Leads s L st₁ st₂) (h₂ : Leads s L st₂ st₃) :
    Leads s L st₁ st₃ := by
  obtain ⟨k₁, n₁, h₁⟩ := h₁
  obtain ⟨k₂, n₂, h₂⟩ := h₂
  refine ⟨k₁ + k₂, max n₁ n₂, fun n hn => ?_⟩
  rw [← h₂ n (by omega), ← h₁ (n + k₂) (by omega)]
  congr 1
  omega

/-- The loop stops in a state that is finished or at the limit. -/
def ArgState.Stops (st : ArgState) (L : ℕ) : Prop := st.finished = true ∨ L ≤ st.ixCurr

theorem argLoop_of_leads {st st' : ArgState} (h : Leads s L st st') (hs : st'.Stops L) :
    ∃ n, argLoop n s L st = some st' := by
  obtain ⟨k, n₀, h⟩ := h
  refine ⟨n₀ + 1 + k, ?_⟩
  rw [h (n₀ + 1) (by omega), argLoop]
  rcases hs with hs | hs
  · simp [hs]
  · simp [Nat.not_lt.mpr hs]

/-- The result of a run that stops. -/
theorem parseArgs_of_leads {st' : ArgState} (hj : skipWhile (· = ' ') s s.length i = i)
    (h : Leads s (argLimit s i) (ArgState.fresh [] i) st') (hs : st'.Stops (argLimit s i)) :
    ∃ n, parseArgs n s i = some (st'.finish s (argLimit s i)) := by
  obtain ⟨n, hn⟩ := argLoop_of_leads h hs
  refine ⟨n + 1, ?_⟩
  rw [parseArgs, hj, ArgState.init_eq, hn]
  rfl

/-- The result of `parseCallArguments` is the one any fuel gives. -/
theorem parseCallArguments_of_parseArgs {n : ℕ} {r : List Arg × ℕ} (hi : i ≤ s.length)
    (h : parseArgs n s i = some r) : parseCallArguments s i = r := by
  obtain ⟨r', hr', -⟩ := parseArgs_isSome hi
  have h₁ := parseArgs_mono h (Nat.le_max_left n (2 * s.length + 3))
  have h₂ := parseArgs_mono hr' (Nat.le_max_right n (2 * s.length + 3))
  rw [parseCallArguments, hr', Option.getD_some]
  exact Option.some.inj (h₂.symm.trans h₁)

theorem parseCallArguments_of_leads {st' : ArgState} (hi : i ≤ s.length)
    (hj : skipWhile (· = ' ') s s.length i = i)
    (h : Leads s (argLimit s i) (ArgState.fresh [] i) st') (hs : st'.Stops (argLimit s i)) :
    parseCallArguments s i = st'.finish s (argLimit s i) := by
  obtain ⟨n, hn⟩ := parseArgs_of_leads hj h hs
  exact parseCallArguments_of_parseArgs hi hn

end Survol.Dockit
