import Survol.Dockit.FactorySteps
import Survol.Dockit.PrintedCalls

/-!
# Parsing undoes printing

A line that a tracer prints for a call, with any argument text whose quotes are closed and
whose brackets are balanced, is parsed to its pid, its time-stamp, its function, its status,
its returned text and its time. The argument parser may nest and skip as it likes: it ends after
the parenthesis that closes the call.

## Main definitions

* `Lex.read`, `Lex.reads` — what a text does to the quotes and the brackets.
* `Balanced` — a well-formed argument text.

## Main results

* `parseCallArguments_balanced` — where the arguments end.
* `createBatchCore_printed` — the three kinds of lines are parsed back.
-/

open PyText

namespace Survol.Dockit

/-! ## Quotes and brackets -/

/-- What one character does to the quotes and the brackets; `none` if it closes a bracket that
is not open. -/
def Lex.read (x : Lex) (aChr : Char) : Option Lex :=
  if x.isEscaped then some { x with isEscaped := false }
  else if aChr = '\\' then some { x with isEscaped := true }
  else if aChr = '"' then some { x with inQuotes := !x.inQuotes }
  else if x.inQuotes then some x
  else if aChr = '[' ∨ aChr = '{' ∨ aChr = '(' then
    some { x with levelParent := x.levelParent + 1 }
  else if aChr = ')' ∨ aChr = ']' ∨ aChr = '}' then
    match x.levelParent with
    | 0 => none
    | level + 1 => some { x with levelParent := level }
  else some x

/-- What a text does to the quotes and the brackets. -/
def Lex.reads (x : Lex) : Text → Option Lex
  | [] => some x
  | c :: t => (x.read c).bind fun y => y.reads t

/-- The quotes are closed, and the brackets outside of them are balanced. -/
def Balanced (args : Text) : Prop := Lex.fresh.reads args = some Lex.fresh

/-- A state at one more level. -/
def Lex.deeper (x : Lex) : Lex := { x with levelParent := x.levelParent + 1 }

theorem Lex.read_of_step {x y : Lex} {c : Char} (h : x.step c = some y) : x.read c = some y := by
  obtain ⟨q, lv, e⟩ := x
  simp only [Lex.step] at h
  simp only [Lex.read]
  grind

/-- A character that ends an argument without closing a bracket is a comma. -/
theorem Lex.eq_comma {x y : Lex} {c : Char} (h : x.step c = none) (h' : x.read c = some y) :
    c = ',' ∧ x = Lex.fresh ∧ y = Lex.fresh := by
  obtain ⟨q, lv, e⟩ := x
  simp only [Lex.step] at h
  simp only [Lex.read] at h'
  simp only [Lex.fresh]
  grind

/-- At one more level, a character does the same, or it closes the level. -/
theorem Lex.read_deeper {x y : Lex} {c : Char} (h : x.deeper.read c = some y) :
    (∃ z, x.read c = some z ∧ y = z.deeper) ∨
      (isCloser c = true ∧ x = Lex.fresh ∧ y = Lex.fresh) := by
  obtain ⟨q, lv, e⟩ := x
  simp only [Lex.deeper, Lex.read] at h ⊢
  simp only [Lex.fresh, isCloser]
  cases lv with
  | zero => grind
  | succ lv => grind

/-- A text that comes back from a level has the bracket that closes it. -/
theorem Lex.exists_closer {x : Lex} {t : Text} (h : x.deeper.reads t = some Lex.fresh) :
    ∃ a c u, t = a ++ c :: u ∧ isCloser c = true ∧ x.reads a = some Lex.fresh ∧
      Lex.fresh.reads u = some Lex.fresh := by
  induction t generalizing x with
  | nil => simp [Lex.reads, Lex.deeper, Lex.fresh] at h
  | cons d t ih =>
    obtain ⟨y, hy, ht⟩ := Option.bind_eq_some_iff.mp h
    obtain ⟨z, hz, hyz⟩ | ⟨hc, rfl, rfl⟩ := Lex.read_deeper hy
    · rw [hyz] at ht
      obtain ⟨a, c, u, rfl, hc, ha, hu⟩ := ih ht
      exact ⟨d :: a, c, u, rfl, hc, Option.bind_eq_some_iff.mpr ⟨z, hz, ha⟩, hu⟩
    · exact ⟨[], d, t, rfl, hc, rfl, ht⟩

theorem Lex.reads_dropWhile {p : Char → Bool}
    (hp : ∀ c, p c = true → Lex.fresh.read c = some Lex.fresh) (t : Text) :
    Lex.fresh.reads (t.dropWhile p) = Lex.fresh.reads t := by
  induction t with
  | nil => rfl
  | cons c t ih =>
    by_cases hc : p c = true
    · rw [List.dropWhile_cons_of_pos hc, ih, Lex.reads, hp c hc]
      rfl
    · rw [List.dropWhile_cons_of_neg hc]

theorem Lex.read_space {c : Char} (h : isSpaceOrComma c = true) :
    Lex.fresh.read c = some Lex.fresh := by
  simp only [isSpaceOrComma, Bool.or_eq_true, decide_eq_true_eq] at h
  obtain rfl | rfl := h <;> rfl

/-! ## The end of the arguments -/

theorem ArgState.ixCurr_fresh (r : List Arg) (i : ℕ) : (ArgState.fresh r i).ixCurr = i := rfl

variable {s : Text} {L : ℕ}

/-- The loop ends after the bracket that closes the arguments, and after some spaces. -/
def Ends (s : Text) (L : ℕ) (st : ArgState) (n : ℕ) (u : Text) : Prop :=
  ∃ st', Leads s L st st' ∧ st'.finished = true ∧ ∃ k ≤ spaces u, st'.ixCurr = st.ixCurr + n + k

theorem Ends.of_leads {st st' : ArgState} {n m : ℕ} {u : Text} (h : Leads s L st st')
    (he : Ends s L st' n u) (hm : st'.ixCurr + n = st.ixCurr + m) : Ends s L st m u := by
  obtain ⟨st'', hlead, hf, k, hk, hix⟩ := he
  exact ⟨st'', h.trans hlead, hf, k, hk, by omega⟩

/-- A closing bracket with nothing open. -/
theorem ends_closer {st : ArgState} {c : Char} {u : Text} (hf : st.finished = false)
    (hlex : st.lex = Lex.fresh) (hc : isCloser c = true) (hv : view s L st.ixCurr = c :: u) :
    Ends s L st 1 u := by
  obtain ⟨res, fin, q, lv, e, ixS, ixC⟩ := st
  obtain ⟨rfl, rfl, rfl⟩ := Lex.mk.inj hlex
  refine ⟨_, Leads.next hv hf (body_closer hc rfl rfl), ?_⟩
  have hv' : view s L (ixC + 1) = u := view_succ hv
  simp only [ArgState.close]
  split
  · exact ⟨rfl, 0, Nat.zero_le _, rfl⟩
  · refine ⟨rfl, spaces u, le_rfl, ?_⟩
    simp only [ArgState.store, skipWhile, spaces]
    rw [← hv', view]

/-- A comma outside of the quotes and the brackets. -/
theorem leads_comma_of_fresh {st : ArgState} {t : Text} (hf : st.finished = false)
    (hlex : st.lex = Lex.fresh) (hv : view s L st.ixCurr = ',' :: t) :
    ∃ r, Leads s L st (ArgState.fresh r (st.ixCurr + 1 + spaces t)) := by
  obtain ⟨res, fin, q, lv, e, ixS, ixC⟩ := st
  obtain ⟨rfl, rfl, rfl⟩ := Lex.mk.inj hlex
  obtain rfl : fin = false := hf
  have hv' : view s L (ixC + 1) = t := view_succ hv
  have hskip : skipWhile (· = ' ') s L (ixC + 1) = ixC + 1 + spaces t := by
    simp only [skipWhile, spaces]
    rw [← hv', view]
  refine ⟨res ++ [.str (cleanArg (· = '"') s L ixS (ixC + 1 - 1))], Leads.next hv rfl ?_⟩
  simp [ArgState.body, ArgState.store, hskip, ArgState.fresh]

/-- What is skipped after some spaces is skipped with them. -/
theorem skipWhile_after_spaces {i k : ℕ} {t : Text} (hv : view s L i = t) (hk : k ≤ spaces t) :
    skipWhile isSpaceOrComma s L (i + k) = i + (t.takeWhile isSpaceOrComma).length := by
  have hle : k ≤ t.length := Nat.le_trans hk (List.takeWhile_prefix _).length_le
  have hdrop : view s L (i + k) = t.drop k := by
    have := view_add (u := t.take k) (t := t.drop k) (hv.trans (List.take_append_drop k t).symm)
    rwa [List.length_take, min_eq_left hle] at this
  have hspaces : ∀ c ∈ t.take k, isSpaceOrComma c = true := by
    intro c hc
    have hpre : t.take k <+: t.takeWhile (· = ' ') :=
      List.prefix_of_prefix_length_le (List.take_prefix k t) (List.takeWhile_prefix _)
        (by rw [List.length_take]; exact Nat.le_trans (Nat.min_le_left _ _) hk)
    have := List.mem_takeWhile_imp (hpre.subset hc)
    simp only [isSpaceOrComma, this, Bool.true_or]
  have htake : t.takeWhile isSpaceOrComma = t.take k ++ (t.drop k).takeWhile isSpaceOrComma := by
    conv_lhs => rw [← List.take_append_drop k t, List.takeWhile_append_of_pos hspaces]
  rw [skipWhile, ← view, hdrop, htake, List.length_append, List.length_take, min_eq_left hle,
    Nat.add_assoc]

/-- The spaces before the arguments are skipped. -/
theorem parseArgs_skipSpaces {i : ℕ} {a t : Text} {d : Char} (hv : view s L i = a ++ d :: t)
    (ha : ∀ c ∈ a, c = ' ') (hd : d ≠ ' ') (n : ℕ) :
    parseArgs n s i = parseArgs n s (i + a.length) ∧
      skipWhile (· = ' ') s s.length (i + a.length) = i + a.length := by
  have hdrop : ∃ w, s.drop i = (a ++ d :: t) ++ w := by
    have hpre : view s L i <+: s.drop i := (List.take_prefix L s).drop i
    obtain ⟨w, hw⟩ := hpre
    exact ⟨w, by rw [← hv, hw]⟩
  obtain ⟨w, hw⟩ := hdrop
  have hview : view s s.length i = a ++ (d :: t ++ w) := by
    rw [view, List.take_length, hw, List.append_assoc]
  have hhead : ∀ c ∈ (d :: t ++ w).head?, decide (c = ' ') = false := by
    intro c hc
    rw [List.cons_append, List.head?_cons, Option.mem_some_iff] at hc
    simpa [← hc] using hd
  have hskip : skipWhile (· = ' ') s s.length i = i + a.length :=
    skipWhile_of_view hview (fun c hc => by simpa using ha c hc) hhead
  have hstay : skipWhile (· = ' ') s s.length (i + a.length) = i + a.length :=
    skipWhile_of_head (by rw [view_add hview]; exact hhead)
  refine ⟨?_, hstay⟩
  cases n with
  | zero => rfl
  | succ n => rw [parseArgs, parseArgs, hskip, hstay]

/-- The text without the spaces at its start. -/
theorem exists_spaces_append (a : Text) {c : Char} (hc : c ≠ ' ') (u : Text) :
    ∃ d t, a.dropWhile (· = ' ') ++ c :: u = d :: t ∧ d ≠ ' ' := by
  cases h : a.dropWhile (· = ' ') with
  | nil => exact ⟨c, u, rfl, hc⟩
  | cons d t =>
    have := List.head?_dropWhile_not (· = ' ') a
    rw [h] at this
    exact ⟨d, t ++ c :: u, rfl, by simpa using this⟩

/-- The parser on a balanced text, given how its loop ends on a text that is not longer. -/
theorem parseArgs_of_ends {a : Text} (hends : ∀ {b : Text} {r : List Arg} {i : ℕ} {c : Char}
      {u : Text}, b.length ≤ a.length → argLimit s i = L → view s L i = b ++ c :: u →
      isCloser c = true → Balanced b → Ends s L (ArgState.fresh r i) (b.length + 1) u)
    {i : ℕ} {c : Char} {u : Text} (hL : argLimit s i = L) (hv : view s L i = a ++ c :: u)
    (hc : isCloser c = true) (ha : Balanced a) :
    ∃ n args, ∃ k ≤ spaces u, parseArgs n s i = some (args, i + a.length + 1 + k) := by
  obtain ⟨d, t, hdt, hd⟩ := exists_spaces_append a (isCloser_ne hc).1 u
  have hsplit := List.takeWhile_append_dropWhile (p := (· = ' ')) (l := a)
  have hv' : view s L i = a.takeWhile (· = ' ') ++ d :: t := by
    rw [hv, ← hdt, ← List.append_assoc, hsplit]
  have hspaces : ∀ c ∈ a.takeWhile (· = ' '), c = ' ' := fun c hc => by
    simpa using List.mem_takeWhile_imp hc
  have hv'' : view s L (i + (a.takeWhile (· = ' ')).length) =
      a.dropWhile (· = ' ') ++ c :: u := by rw [view_add hv', hdt]
  have hlen := congrArg List.length hsplit
  rw [List.length_append] at hlen
  have hL' : argLimit s (i + (a.takeWhile (· = ' ')).length) = L :=
    (argLimit_of_view hL hv'' (by simp) (Nat.le_add_right _ _)).trans hL
  have hbal : Balanced (a.dropWhile (· = ' ')) := by
    rw [Balanced, Lex.reads_dropWhile]
    · exact ha
    · intro c hc
      exact Lex.read_space (by simp only [isSpaceOrComma, hc, Bool.true_or])
  obtain ⟨st', hlead, hfin, k, hk, hix⟩ := hends (r := []) (by omega) hL' hv'' hc hbal
  obtain ⟨-, hstay⟩ := parseArgs_skipSpaces hv' hspaces hd 0
  obtain ⟨n, hn⟩ := parseArgs_of_leads hstay (hL' ▸ hlead) (Or.inl hfin)
  refine ⟨n, st'.theResult, k, hk, ?_⟩
  rw [(parseArgs_skipSpaces hv' hspaces hd n).1, hn]
  simp only [ArgState.finish, hfin, not_true_eq_false, and_false, if_false]
  have hix' : st'.ixCurr = i + a.length + 1 + k := by
    rw [hix]
    simp only [ArgState.fresh]
    omega
  rw [hix']

/-- The rest of a balanced text, after some of its characters are skipped. -/
theorem ends_after_skip {p : Char → Bool}
    (hp : ∀ c, p c = true → Lex.fresh.read c = some Lex.fresh) {v : Text} {c : Char} {u : Text}
    {j : ℕ} {r : List Arg} (hpc : p c = false) (hv : view s L j = v ++ c :: u) (hb : Balanced v)
    (hends : ∀ {b : Text} {i : ℕ}, b.length ≤ v.length → j ≤ i → view s L i = b ++ c :: u →
      Balanced b → Ends s L (ArgState.fresh r i) (b.length + 1) u) :
    ∃ n, Ends s L (ArgState.fresh r (j + ((v ++ c :: u).takeWhile p).length)) n u ∧
      j + ((v ++ c :: u).takeWhile p).length + n = j + (v.length + 1) := by
  have hsplit := List.takeWhile_append_dropWhile (p := p) (l := v)
  have hlen := congrArg List.length hsplit
  rw [List.length_append] at hlen
  have htake : (v ++ c :: u).takeWhile p = v.takeWhile p := by
    conv_lhs => rw [← hsplit, List.append_assoc]
    rw [List.takeWhile_append_of_pos fun d hd => List.mem_takeWhile_imp hd]
    conv_rhs => rw [← List.append_nil (v.takeWhile p)]
    congr 1
    cases h : v.dropWhile p with
    | nil => rw [List.nil_append, List.takeWhile_cons_of_neg (by simp [hpc])]
    | cons d t =>
      have := List.head?_dropWhile_not p v
      rw [h] at this
      rw [List.cons_append, List.takeWhile_cons_of_neg (by simpa using this)]
  have hview : view s L (j + (v.takeWhile p).length) = v.dropWhile p ++ c :: u :=
    view_add (by rw [hv, ← List.append_assoc, hsplit])
  rw [htake]
  refine ⟨(v.dropWhile p).length + 1, hends (by omega) (Nat.le_add_right _ _) hview ?_, by omega⟩
  rw [Balanced, Lex.reads_dropWhile hp]
  exact hb

/-- **The loop over a balanced text ends after the bracket that closes it.** -/
theorem ends_of_balanced {st : ArgState} {a : Text} {c : Char} {u : Text}
    (hf : st.finished = false) (hs : st.ixStart ≤ st.ixCurr)
    (hstart : st.ixCurr = st.ixStart → st.lex = Lex.fresh) (hL : argLimit s st.ixCurr = L)
    (hv : view s L st.ixCurr = a ++ c :: u) (hc : isCloser c = true)
    (ha : st.lex.reads a = some Lex.fresh) : Ends s L st (a.length + 1) u := by
  induction h : a.length using Nat.strong_induction_on generalizing st a c u with
  | _ n ih =>
    match a, ha, hv, h with
    | [], ha, hv, h =>
      subst h
      exact ends_closer hf (Option.some.inj ha) hc hv
    | d :: a, ha, hv, h =>
      subst h
      obtain ⟨y, hy, ha⟩ := Option.bind_eq_some_iff.mp ha
      have hfresh : ∀ {r : List Arg} {i : ℕ} {b : Text} {c : Char} {u : Text},
          b.length < (d :: a).length → argLimit s i = L → view s L i = b ++ c :: u →
          isCloser c = true → Balanced b → Ends s L (ArgState.fresh r i) (b.length + 1) u :=
        fun hlt hL hv hc hb => ih _ hlt rfl le_rfl (fun _ => rfl) hL hv hc hb rfl
      have hlimit : ∀ {j : ℕ} {v : Text}, view s L j = v → v ≠ [] → st.ixCurr ≤ j →
          argLimit s j = L := fun hj hne hle => (argLimit_of_view hL hj hne hle).trans hL
      have hclose : ∀ c, isCloser c = true →
          decide (c = ' ') = false ∧ isSpaceOrComma c = false := by
        intro c hc
        have := isCloser_ne hc
        simp [isSpaceOrComma, this]
      by_cases hb : BeginsList st d
      · -- the list is parsed by itself, up to its own bracket
        obtain ⟨heq, hopen⟩ := hb
        have hst : st = ArgState.fresh st.theResult st.ixCurr := by
          have hlex := hstart heq
          obtain ⟨res, fin, q, lv, e, ixS, ixC⟩ := st
          obtain ⟨rfl, rfl, rfl⟩ := Lex.mk.inj hlex
          obtain rfl : fin = false := hf
          obtain rfl : ixC = ixS := heq
          rfl
        have hdeep : st.lex.read d = some Lex.fresh.deeper := by
          rw [hstart heq]
          obtain rfl | rfl := hopen <;> rfl
        cases hdeep.symm.trans hy
        obtain ⟨b, e, v, rfl, he, hb, hv₂⟩ := Lex.exists_closer ha
        have hv₁ : view s L (st.ixCurr + 1) = b ++ e :: (v ++ c :: u) := by
          rw [view_succ hv]
          simp
        obtain ⟨m, args, k, hk, hparse⟩ := parseArgs_of_ends (L := L) (a := b)
          (fun hle => hfresh (by simp only [List.length_cons, List.length_append]; omega))
          (hlimit hv₁ (by simp) (Nat.le_succ _)) hv₁ he hb
        have hafter : view s L (st.ixCurr + 1 + b.length + 1) = v ++ c :: u := by
          have := view_add (u := b ++ [e]) (t := v ++ c :: u) (by rw [hv₁]; simp)
          rwa [List.length_append, List.length_singleton, ← Nat.add_assoc] at this
        have hlead := leads_list (r := st.theResult) hv hopen hparse
        rw [← hst, skipWhile_after_spaces hafter hk] at hlead
        obtain ⟨n, hn, hlen⟩ := ends_after_skip (p := isSpaceOrComma) (fun c => Lex.read_space)
          (r := st.theResult ++ [.list args]) (hclose c hc).2 hafter hv₂
          fun hle hij hv' hb' => hfresh
            (by simp only [List.length_cons, List.length_append]; omega)
            (hlimit hv' (by simp) (by omega)) hv' hc hb'
        refine Ends.of_leads hlead hn ?_
        have hsize : (d :: (b ++ e :: v)).length = b.length + (v.length + 1) + 1 := by
          simp only [List.length_cons, List.length_append]
        rw [hsize, ArgState.ixCurr_fresh]
        omega
      · cases hstep : st.lex.step d with
        | some x =>
          cases (Lex.read_of_step hstep).symm.trans hy
          have hlead : Leads s L st (st.read y 1) := Leads.next hv hf (body_of_step hb hstep)
          have hne : a ++ c :: u ≠ [] := by simp
          refine Ends.of_leads hlead (ih a.length (Nat.lt_succ_self _) hf
            (Nat.le_succ_of_le hs) (fun he => ?_) (hlimit (view_succ hv) hne (Nat.le_succ _))
            (view_succ hv) hc ha rfl) ?_
          · have he' : st.ixCurr + 1 = st.ixStart := he
            omega
          · change st.ixCurr + 1 + (a.length + 1) = st.ixCurr + ((d :: a).length + 1)
            rw [List.length_cons]
            omega
        | none =>
          obtain ⟨rfl, hlex, rfl⟩ := Lex.eq_comma hstep hy
          obtain ⟨r, hlead⟩ := leads_comma_of_fresh (t := a ++ c :: u) hf hlex hv
          obtain ⟨n, hn, hlen⟩ := ends_after_skip (p := fun c => decide (c = ' '))
            (fun c hc => Lex.read_space (by simp only [isSpaceOrComma, hc, Bool.true_or]))
            (r := r) (hclose c hc).1 (view_succ (t := a ++ c :: u) hv) ha
            fun hle hij hv' hb' => hfresh (by simp only [List.length_cons]; omega)
              (hlimit hv' (by simp) (by omega)) hv' hc hb'
          refine Ends.of_leads hlead hn ?_
          have hsize : (',' :: a).length = a.length + 1 := rfl
          rw [hsize, ArgState.ixCurr_fresh, spaces]
          omega

/-- **The arguments of a call end after its closing bracket**, and after some spaces. -/
theorem parseCallArguments_balanced {args : Text} {c : Char} {u : Text}
    (hm : ¬ unfinishedMarker <:+: args ++ c :: u) (hc : isCloser c = true) (hb : Balanced args) :
    ∃ k ≤ spaces u, (parseCallArguments (args ++ c :: u) 0).2 = args.length + 1 + k := by
  have hlimit : argLimit (args ++ c :: u) 0 = (args ++ c :: u).length := by
    have hnone := (findIdx_eq_none_iff (by decide) (args ++ c :: u)).mpr hm
    rw [argLimit, find?, List.drop_zero, hnone]
    rfl
  have hview : view (args ++ c :: u) (args ++ c :: u).length 0 = args ++ c :: u := by
    rw [view, List.take_length, List.drop_zero]
  obtain ⟨n, as, k, hk, hparse⟩ := parseArgs_of_ends (a := args)
    (fun {b r i c u} _ hL hv hc hb => ends_of_balanced rfl le_rfl
      (fun _ => rfl) hL hv hc hb) hlimit hview hc hb
  refine ⟨k, hk, ?_⟩
  rw [parseCallArguments_of_parseArgs (Nat.zero_le _) hparse, Nat.zero_add]

/-! ## The returned text -/

theorem strip_append_space (t : Text) : strip (t ++ [' ']) = strip t := by
  rw [strip, strip, List.dropWhile_append]
  split
  · rename_i h
    rw [List.isEmpty_iff.mp h]
    rfl
  · rw [List.rdropWhile_concat_pos _ _ _ (by decide)]

/-- The end of a printed call, from its closing parenthesis to its time. -/
def printedResult (ret : Text) : Text := ") = ".toList ++ ret ++ " ".toList

/-- The text is cut after its closing parenthesis, if it is cut. -/
theorem cutMarker_append_paren {args : Text} (hm : ¬ unfinishedMarker <:+: args) (u : Text) :
    cutMarker (args ++ ')' :: u) = args ++ ')' :: cutMarker u := by
  have hcut := cutMarker_append (a := args ++ [')']) (b := u) fun j hj hpre => hm ?_
  · simpa using hcut
  · rw [List.length_append, List.length_singleton] at hj
    rw [List.append_assoc, List.singleton_append, List.drop_append_of_le_length (by omega)] at hpre
    exact (prefix_of_prefix_append_cons hpre (by decide)).isInfix.trans
      (List.drop_suffix j args).isInfix

theorem spaces_cutMarker_le (t : Text) : spaces (cutMarker (' ' :: '=' :: t)) ≤ 1 := by
  have hpre : cutMarker (' ' :: '=' :: t) <+: ' ' :: '=' :: t := List.take_prefix _ _
  match h : cutMarker (' ' :: '=' :: t), hpre with
  | [], _ => exact Nat.zero_le _
  | [c], _ => exact (List.takeWhile_prefix _).length_le
  | c :: d :: v, hpre =>
    obtain ⟨-, hpre⟩ := List.cons_prefix_cons.mp hpre
    obtain ⟨rfl, -⟩ := List.cons_prefix_cons.mp hpre
    rw [spaces, List.takeWhile_cons]
    split
    · rw [List.takeWhile_cons_of_neg (by decide)]
      exact le_rfl
    · exact Nat.zero_le _

/-- The returned text is found after the arguments. -/
theorem valueText_printed {args : Text} (hm : ¬ unfinishedMarker <:+: args) (hb : Balanced args)
    (ret tail : Text) :
    valueText (args ++ printedResult ret)
      (parseCallArguments (cutMarker (args ++ printedResult ret ++ tail)) 0).2 =
        some (strip ret) := by
  have hbody : args ++ printedResult ret =
      (args ++ [')']) ++ ' ' :: '=' :: ' ' :: (ret ++ [' ']) := by
    simp [printedResult]
  have hline : args ++ printedResult ret ++ tail =
      args ++ ')' :: (' ' :: '=' :: (' ' :: (ret ++ [' ']) ++ tail)) := by
    simp [hbody]
  have hcut := cutMarker_append_paren hm (' ' :: '=' :: (' ' :: (ret ++ [' ']) ++ tail))
  obtain ⟨k, hk, hidx⟩ := parseCallArguments_balanced
    (hcut ▸ not_infix_cutMarker (args ++ ')' :: (' ' :: '=' :: (' ' :: (ret ++ [' ']) ++ tail))))
    (by decide) hb
  have hk1 : k ≤ 1 := Nat.le_trans hk (spaces_cutMarker_le _)
  have hfind : find? (' ' :: '=' :: ' ' :: (ret ++ [' '])) ['='] k = some 1 := by
    obtain rfl | rfl := Nat.le_one_iff_eq_zero_or_eq_one.mp hk1 <;> rfl
  have hlen : args.length + 1 = (args ++ [')']).length := by simp
  rw [hline, hcut, hidx, hbody, valueText, hlen, find?_append, hfind]
  have hdrop : ((args ++ [')']) ++ ' ' :: '=' :: ' ' :: (ret ++ [' '])).drop
      ((args ++ [')']).length + 1 + 1) = ' ' :: (ret ++ [' ']) := by
    rw [Nat.add_assoc, ← List.drop_drop, List.drop_left]
    rfl
  simp only [Option.map_some, hdrop]
  exact congrArg some (strip_append_space ret)

/-! ## The three kinds of lines -/

/-- A line gives a core with these fields, in any world. -/
def ReadsAs (env : Env) (oneLine : Text) (pid : ℤ) (status : BatchStatus)
    (aTimeStamp funcNam : Text) (retValue : Option Text) (execTim : Text) : Prop :=
  ∀ w : World, ∃ id w' core, (createBatchCore env .strace oneLine).run w = (.ok (some id), w') ∧
    w'.store.core? id = some core ∧ core.pid = pid ∧ core.status = status ∧
    core.timeStart = aTimeStamp ∧ core.funcNam = funcNam ∧ core.retValue = retValue ∧
    core.execTim = execTim

theorem readsAs_of_parseLine {env : Env} {oneLine : Text} {core : BatchLetCore}
    (h : parseLine env.topProcessId .strace oneLine = .ok (some core)) :
    ReadsAs env oneLine core.pid core.status core.timeStart core.funcNam core.retValue
      core.execTim := by
  intro w
  refine ⟨w.store.nextId core.pid, w.admitted env core, core, ?_,
    w.store.core?_addCore_nextId core, rfl, rfl, rfl, rfl, rfl, rfl⟩
  rw [createBatchCore, h]
  exact Py.run_bind_of_ok (run_admitCore_eq env core w) _

/-- **Parsing undoes printing**: for a whole call, for its first half and for its second half,
with the pid or without it, and with the end of the line or without it. -/
theorem createBatchCore_printed (env : Env) (h : LineHead) (n : ℕ) (f : FunctionName)
    {args : Text} (hm : ¬ unfinishedMarker <:+: args) (hb : Balanced args) (ret : Text)
    (t : ExecTime) {e : Text} (he : e = [] ∨ e = ['\n']) :
    ReadsAs env (h.print n ++ (f.text ++ '(' :: (args ++ printedResult ret ++ t.printUpTo e)))
        (h.readPid env.topProcessId n) .plain h.aTimeStamp (f.text ++ sysSuffix)
        (some (strip ret)) t.text ∧
      ReadsAs env (h.print n ++ (f.text ++ '(' :: (args ++ [' '] ++ unfinishedMarker ++ e)))
        (h.readPid env.topProcessId n) .unfinished h.aTimeStamp (f.text ++ sysSuffix) none [] ∧
      ReadsAs env (h.print n ++ (("<... ".toList ++ f.text ++ " resumed> ".toList) ++
          (args ++ printedResult ret ++ t.printUpTo e)))
        (h.readPid env.topProcessId n) .resumed h.aTimeStamp (f.text ++ sysSuffix)
        (some (strip ret)) t.text := by
  have hgt : '>' ∉ e := by
    obtain rfl | rfl := he <;> decide
  have hret := valueText_printed hm hb ret (t.printUpTo e)
  exact ⟨readsAs_of_parseLine (parseLine_call env.topProcessId n .strace h f _ t hgt hret),
    readsAs_of_parseLine (parseLine_unfinished env.topProcessId n .strace h f (args ++ [' ']) hgt),
    readsAs_of_parseLine (parseLine_resumed env.topProcessId n .strace h f _ t hgt hret)⟩

/-- The opening of a file whose name has an equals sign, with its path in what it returns. -/
theorem createBatchCore_printed_open :
    ReadsAs (.replayed 7 "/".toList)
        "[pid 12] 14:56:54.296251 open(\"/usr/lib/a=b\", O_RDONLY) = 3</usr/lib/a=b> <0.000513>\n".toList
        12 .plain "14:56:54.296251".toList "open@SYS".toList (some "3</usr/lib/a=b>".toList)
        "0.000513".toList ∧
      ReadsAs (.replayed 7 "/".toList)
        "[pid 12] 14:56:54.296251 open(\"/usr/lib/a=b\", O_RDONLY <unfinished ...>\n".toList
        12 .unfinished "14:56:54.296251".toList "open@SYS".toList none [] ∧
      ReadsAs (.replayed 7 "/".toList)
        ("[pid 12] 14:56:54.296251 <... open resumed> ".toList ++
          "\"/usr/lib/a=b\", O_RDONLY) = 3</usr/lib/a=b> <0.000513>\n".toList)
        12 .resumed "14:56:54.296251".toList "open@SYS".toList (some "3</usr/lib/a=b>".toList)
        "0.000513".toList :=
  createBatchCore_printed (.replayed 7 "/".toList)
    ⟨true, "14:56:54.296251".toList, rfl, by decide⟩ 12 ⟨"open".toList, by decide, by decide⟩
    (by decide +kernel : ¬ unfinishedMarker <:+: "\"/usr/lib/a=b\", O_RDONLY".toList) rfl
    "3</usr/lib/a=b>".toList ⟨"0".toList, "000513".toList, by decide, by decide⟩ (e := ['\n'])
    (Or.inr rfl)

end Survol.Dockit
