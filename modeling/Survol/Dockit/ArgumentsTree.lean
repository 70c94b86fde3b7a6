import Survol.Dockit.ArgumentsScan

/-!
# Parsing a printed argument list

An argument list as a tracer prints it is a list of trees: leaves printed as some
text, and bracketed lists. `parseCallArguments_printList` evaluates the parser on
any such list that a closing bracket follows: the arguments are the leaves'
texts, cleaned, in the same nesting, and the position is just after the bracket.

## Main definitions

* `IsField body` — a text that the loop reads as one argument.
* `Tree α`, `Tree.print`, `Tree.arg` — printed arguments and what they stand for.
-/

open PyText

namespace Survol.Dockit

/-! ## One argument -/

/-- A text that leaves the loop where it found it: outside quotes and brackets,
without a comma on the way, and not beginning with a list. -/
structure IsField (body : Text) : Prop where
  run : Lex.fresh.run body = some Lex.fresh
  head : ∀ c ∈ body.head?, c ≠ ' ' ∧ c ≠ '[' ∧ c ≠ '{'
  ne_nil : body ≠ []

variable {s : Text} {L i : ℕ} {r : List Arg}

/-- The loop reads the beginning of an argument. -/
theorem leads_field {body t : Text} {x : Lex} (hv : view s L i = body ++ t)
    (hrun : Lex.fresh.run body = some x) (hhead : ∀ c ∈ body.head?, c ≠ '[' ∧ c ≠ '{') :
    Leads s L (ArgState.fresh r i) ((ArgState.fresh r i).read x body.length) := by
  refine ⟨body.length, 0, fun n _ =>
    @argLoop_run _ _ (ArgState.fresh r i) _ _ _ hv rfl ?_ le_rfl hrun n⟩
  rintro c hc ⟨-, h | h⟩
  · exact (hhead c hc).1 h
  · exact (hhead c hc).2 h

theorem Leads.next {st st' : ArgState} {c : Char} {t : Text}
    (hv : view s L st.ixCurr = c :: t) (hf : st.finished = false)
    (hb : st.body s L c = .next st') : Leads s L st st' :=
  ⟨1, 0, fun n _ => argLoop_next hv hf hb n⟩

/-- The number of spaces at the start of a text. -/
def spaces (t : Text) : ℕ := (t.takeWhile (· = ' ')).length

/-- What is kept of an argument that a comma or a closing bracket ends. -/
def closedArg (body : Text) : Text := clean (· = '"') body

/-- A closing bracket between two arguments, or after the last one. -/
theorem body_closer {st : ArgState} {c : Char} (hc : isCloser c = true)
    (he : st.isEscaped = false) (hq : st.inQuotes = false) :
    st.body s L c = .next ({ st with ixCurr := st.ixCurr + 1 }.close s L) := by
  simp only [isCloser, Bool.or_eq_true, decide_eq_true_eq] at hc
  rcases hc with (rfl | rfl) | rfl <;> simp [ArgState.body, he, hq]

theorem isSpaceOrQuote_of_isCloser {c : Char} (hc : isCloser c = true) :
    isSpaceOrQuote c = false := by
  simp only [isCloser, Bool.or_eq_true, decide_eq_true_eq] at hc
  rcases hc with (rfl | rfl) | rfl <;> decide

/-- An argument and the comma after it. -/
theorem leads_field_comma {body t : Text} (hv : view s L i = body ++ ',' :: t)
    (hrun : Lex.fresh.run body = some Lex.fresh)
    (hhead : ∀ c ∈ body.head?, c ≠ '[' ∧ c ≠ '{') :
    Leads s L (ArgState.fresh r i)
      (ArgState.fresh (r ++ [.str (closedArg body)])
        (i + body.length + 1 + spaces t)) := by
  refine (leads_field hv hrun hhead).trans ?_
  refine Leads.next (c := ',') (t := t) (view_add hv) rfl ?_
  have hstore := store_of_view { ArgState.fresh r i with ixCurr := i + body.length + 1 } hv
    (by decide) rfl
  simp only [ArgState.fresh] at hstore
  simp [ArgState.body, ArgState.read, ArgState.fresh, Lex.fresh, hstore, spaces, closedArg]

/-- A last argument and the closing bracket after it. -/
theorem leads_field_closer {body t : Text} {c : Char} (hc : isCloser c = true)
    (hv : view s L i = body ++ c :: t) (hb : body ≠ [])
    (hrun : Lex.fresh.run body = some Lex.fresh)
    (hhead : ∀ c ∈ body.head?, c ≠ '[' ∧ c ≠ '{') :
    Leads s L (ArgState.fresh r i)
      { ArgState.fresh (r ++ [.str (closedArg body)])
          (i + body.length + 1 + spaces t) with finished := true } := by
  refine (leads_field hv hrun hhead).trans ?_
  refine Leads.next (c := c) (t := t) (view_add hv) rfl ?_
  rw [body_closer hc rfl rfl]
  have hlen : body.length ≠ 0 := by simpa using hb
  have hstore := store_of_view { ArgState.fresh r i with ixCurr := i + body.length + 1 } hv
    (isSpaceOrQuote_of_isCloser hc) rfl
  simp only [ArgState.fresh] at hstore
  simp [ArgState.close, ArgState.read, ArgState.fresh, Lex.fresh, hlen, hstore, spaces, closedArg]

/-- A closing bracket with no argument before it. -/
theorem leads_closer {t : Text} {c : Char} (hc : isCloser c = true)
    (hv : view s L i = c :: t) :
    Leads s L (ArgState.fresh r i)
      { ArgState.fresh r i with finished := true, ixCurr := i + 1 } := by
  refine Leads.next (c := c) (t := t) hv rfl ?_
  rw [body_closer hc rfl rfl]
  simp [ArgState.close, ArgState.fresh]

/-- A bracketed argument, given how its inside is parsed. -/
theorem leads_list {t : Text} {c : Char} (hv : view s L i = c :: t) (hc : c = '[' ∨ c = '{')
    {n : ℕ} {objToAdd : List Arg} {ix : ℕ} (hp : parseArgs n s (i + 1) = some (objToAdd, ix)) :
    Leads s L (ArgState.fresh r i)
      (ArgState.fresh (r ++ [.list objToAdd]) (skipWhile isSpaceOrComma s L ix)) := by
  refine ⟨1, n, fun m hm => ?_⟩
  have hbody : (ArgState.fresh r i).body s L c
      = .list { ArgState.fresh r i with ixCurr := i + 1 } := by
    rcases hc with rfl | rfl <;> simp [ArgState.body, ArgState.fresh]
  have hlt : i < L := lt_of_view_cons hv
  rw [argLoop]
  simp only [ArgState.fresh] at hbody ⊢
  simp only [hlt, Bool.false_eq_true, not_false_eq_true, and_self, if_true,
    getElem?_of_view_cons hv, hbody, parseArgs_mono hp hm, ArgState.append]

/-! ## Printed arguments -/

/-- The two kinds of brackets around a list. -/
inductive Bracket
  | square
  | curly
  deriving DecidableEq

/-- The opening bracket. -/
def Bracket.opening : Bracket → Char
  | .square => '['
  | .curly => '{'

/-- The closing bracket. -/
def Bracket.closing : Bracket → Char
  | .square => ']'
  | .curly => '}'

theorem Bracket.opening_eq (b : Bracket) : b.opening = '[' ∨ b.opening = '{' := by
  cases b <;> simp [opening]

theorem Bracket.isCloser_closing (b : Bracket) : isCloser b.closing = true := by
  cases b <;> rfl

/-- A printed argument: a leaf, or a bracketed list of arguments. -/
inductive Tree (α : Type)
  | leaf (a : α)
  | node (b : Bracket) (l : List (Tree α))

variable {α : Type}

mutual
/-- An argument as the tracer prints it. -/
def Tree.print (text : α → Text) : Tree α → Text
  | .leaf a => text a
  | .node b l => b.opening :: (printList text l ++ [b.closing])
/-- A list of arguments, separated by a comma and a space. -/
def printList (text : α → Text) : List (Tree α) → Text
  | [] => []
  | t :: ts => t.print text ++ printRest text ts
/-- The arguments after the first, each with the separator before it. -/
def printRest (text : α → Text) : List (Tree α) → Text
  | [] => []
  | t :: ts => ',' :: ' ' :: (t.print text ++ printRest text ts)
end

mutual
/-- The argument that a printed one stands for, given what a leaf stands for. -/
def Tree.arg (val : α → Text) : Tree α → Arg
  | .leaf a => .str (val a)
  | .node _ l => .list (argList val l)
/-- The arguments that a printed list stands for. -/
def argList (val : α → Text) : List (Tree α) → List Arg
  | [] => []
  | t :: ts => t.arg val :: argList val ts
end

theorem printRest_cons (text : α → Text) (t : Tree α) (ts : List (Tree α)) :
    printRest text (t :: ts) = ',' :: ' ' :: printList text (t :: ts) := by
  rw [printRest, printList]

@[simp] theorem argList_eq_map (val : α → Text) (ts : List (Tree α)) :
    argList val ts = ts.map (Tree.arg val) := by
  induction ts with
  | nil => rfl
  | cons t ts ih => rw [argList, ih, List.map_cons]

/-! ## The parser on a printed list -/

section
variable {text : α → Text} (hfield : ∀ a, IsField (text a))
include hfield

theorem Tree.head_print (t : Tree α) : ∀ c ∈ (t.print text).head?, c ≠ ' ' ∧ c ≠ ',' := by
  cases t with
  | leaf a =>
    rw [Tree.print]
    intro c hc
    refine ⟨((hfield a).head c hc).1, ?_⟩
    rintro rfl
    have hrun := (hfield a).run
    obtain ⟨u, hu⟩ : ∃ u, text a = ',' :: u := by
      cases h : text a with
      | nil => simp [h] at hc
      | cons d u => simp only [h, List.head?_cons, Option.mem_some_iff] at hc; exact ⟨u, by rw [hc]⟩
    simp [hu, Lex.run, Lex.step, Lex.fresh] at hrun
  | node b l =>
    rw [Tree.print]
    rcases b.opening_eq with h | h <;> simp [h]

theorem Tree.print_ne_nil (t : Tree α) : t.print text ≠ [] := by
  cases t with
  | leaf a => exact (hfield a).ne_nil
  | node b l => simp [Tree.print]

theorem head_printList (ts : List (Tree α)) {c : Char} {u : Text} (hc : c ≠ ' ' ∧ c ≠ ',') :
    ∀ d ∈ (printList text ts ++ c :: u).head?, d ≠ ' ' ∧ d ≠ ',' := by
  cases ts with
  | nil => simpa [printList] using hc
  | cons t ts =>
    intro d hd
    have hne := Tree.print_ne_nil hfield t
    rw [printList, List.append_assoc, List.head?_append_of_ne_nil _ hne] at hd
    exact Tree.head_print hfield t d hd

end

theorem skipSpaces_of_view {u : Text} (hv : view s L i = u) (hu : u ≠ [])
    (h : ∀ c ∈ u.head?, c ≠ ' ') : skipWhile (· = ' ') s s.length i = i := by
  apply skipWhile_of_head
  intro c hc
  obtain ⟨d, t, rfl⟩ := List.exists_cons_of_ne_nil hu
  have hd := getElem?_of_view_cons hv
  rw [view, List.take_length, List.head?_drop, hd] at hc
  simp only [Option.mem_some_iff] at hc
  simpa [← hc] using h d rfl

/-- A run that ended at a closing bracket: the arguments, and a position at most
some spaces after `i`, which is just after the bracket and before the text `t`. -/
structure EndsAt (st : ArgState) (args : List Arg) (i : ℕ) (t : Text) : Prop where
  finished : st.finished = true
  theResult : st.theResult = args
  ixCurr : ∃ k ≤ spaces t, st.ixCurr = i + k

theorem isCloser_ne {c : Char} (hc : isCloser c = true) : c ≠ ' ' ∧ c ≠ ',' := by
  constructor <;> rintro rfl <;> simp [isCloser] at hc

/-- The limit at a later position where something is left to read. -/
theorem argLimit_of_view {j : ℕ} {u : Text} (hL : argLimit s i = L) (hv : view s L j = u)
    (hu : u ≠ []) (hij : i ≤ j) : argLimit s j = argLimit s i := by
  obtain ⟨c, t, rfl⟩ := List.exists_cons_of_ne_nil hu
  exact argLimit_of_le hij (hL ▸ (lt_of_view_cons hv).le)

section
variable {text : α → Text} (hfield : ∀ a, IsField (text a))
include hfield

mutual
/-- A bracketed list between two other arguments or brackets. -/
theorem leads_node {s : Text} {L i : ℕ} {r : List Arg} {b : Bracket} :
    ∀ (l : List (Tree α)) {c : Char} {u : Text}, argLimit s i = L →
      view s L i = (Tree.node b l).print text ++ c :: u → c ≠ ' ' →
      Leads s L (ArgState.fresh r i)
        (ArgState.fresh (r ++ [.list (argList (fun a => closedArg (text a)) l)])
          (skipWhile isSpaceOrComma s L (i + ((Tree.node b l).print text).length)))
  | l, c, u, hL, hv, hc => by
    have hv₀ : view s L i = b.opening :: (printList text l ++ b.closing :: c :: u) := by
      simpa [Tree.print] using hv
    have hv₁ := view_succ hv₀
    have hL₁ : argLimit s (i + 1) = L :=
      (argLimit_of_le (Nat.le_succ i) (hL ▸ lt_of_view_cons hv₀)).trans hL
    obtain ⟨st, hlead, hend⟩ := leads_printList (r := []) l hL₁ hv₁ b.isCloser_closing
    obtain ⟨k, hk, hix⟩ := hend.ixCurr
    have hk0 : k = 0 := by simpa [spaces, hc] using hk
    subst hk0
    have hskip : skipWhile (· = ' ') s s.length (i + 1) = i + 1 :=
      skipSpaces_of_view hv₁ (by simp)
        (fun d hd => (head_printList hfield _ (isCloser_ne b.isCloser_closing) d hd).1)
    obtain ⟨n, hn⟩ := parseArgs_of_leads hskip (hL₁ ▸ hlead) (Or.inl hend.finished)
    have hfin : st.finish s (argLimit s (i + 1))
        = (argList (fun a => closedArg (text a)) l, i + 1 + (printList text l).length + 1) := by
      simp only [ArgState.finish, hend.finished, hend.theResult, hix]
      simp
    rw [hfin] at hn
    have hlen : i + ((Tree.node b l).print text).length = i + 1 + (printList text l).length + 1 := by
      simp only [Tree.print, List.length_cons, List.length_append, List.length_nil]
      omega
    rw [hlen]
    exact leads_list hv₀ b.opening_eq hn
  termination_by l => (sizeOf l, 1)
/-- An argument before another one. -/
theorem leads_comma {s : Text} {L i : ℕ} {r : List Arg} :
    ∀ (t : Tree α) {v : Text}, argLimit s i = L →
      view s L i = t.print text ++ ',' :: ' ' :: v → (∀ d ∈ v.head?, d ≠ ' ' ∧ d ≠ ',') →
      Leads s L (ArgState.fresh r i)
        (ArgState.fresh (r ++ [t.arg (fun a => closedArg (text a))])
          (i + (t.print text).length + 2))
  | .leaf a, v, hL, hv, hhead => by
    have hf := hfield a
    rw [Tree.print] at hv ⊢
    have hsp : spaces (' ' :: v) = 1 := by
      have : v.takeWhile (· = ' ') = [] := by
        cases v with
        | nil => rfl
        | cons d v => simp [(hhead d rfl).1]
      simp [spaces, this]
    have hcomma := leads_field_comma (r := r) hv hf.run (fun d hd => (hf.head d hd).2)
    rwa [hsp] at hcomma
  | .node b l, v, hL, hv, hhead => by
    have hnode := leads_node (r := r) l hL hv (by decide)
    have hv₁ := view_add hv
    have hskip : skipWhile isSpaceOrComma s L (i + ((Tree.node b l).print text).length)
        = i + ((Tree.node b l).print text).length + 2 := by
      refine skipWhile_of_view (u := [',', ' ']) (t := v) (by simpa using hv₁) (by decide) ?_
      intro d hd
      simp [isSpaceOrComma, hhead d hd]
    rw [hskip] at hnode
    rwa [Tree.arg]
  termination_by t => (sizeOf t, 0)
/-- A list of arguments and the closing bracket after it. -/
theorem leads_printList {s : Text} {L i : ℕ} {r : List Arg} :
    ∀ (ts : List (Tree α)) {c : Char} {u : Text}, argLimit s i = L →
      view s L i = printList text ts ++ c :: u → isCloser c = true →
      ∃ st, Leads s L (ArgState.fresh r i) st ∧
        EndsAt st (r ++ argList (fun a => closedArg (text a)) ts)
          (i + (printList text ts).length + 1) u
  | [], c, u, hL, hv, hc => by
    refine ⟨_, leads_closer hc hv, rfl, ?_, 0, Nat.zero_le _, rfl⟩
    simp [ArgState.fresh, argList]
  | [.leaf a], c, u, hL, hv, hc => by
    have hf := hfield a
    simp only [printList, Tree.print, printRest, List.append_nil] at hv ⊢
    refine ⟨_, leads_field_closer hc hv hf.ne_nil hf.run (fun d hd => (hf.head d hd).2), rfl, ?_,
      _, le_rfl, rfl⟩
    simp [ArgState.fresh, Tree.arg]
  | [.node b l], c, u, hL, hv, hc => by
    have hv₀ : view s L i = (Tree.node b l).print text ++ c :: u := by
      simpa [printList, printRest] using hv
    have hnode := leads_node (r := r) l hL hv₀ (isCloser_ne hc).1
    have hv₁ := view_add hv₀
    have hstay : skipWhile isSpaceOrComma s L (i + ((Tree.node b l).print text).length)
        = i + ((Tree.node b l).print text).length := by
      refine skipWhile_of_head ?_
      rw [hv₁]
      simpa [isSpaceOrComma] using isCloser_ne hc
    rw [hstay] at hnode
    refine ⟨_, hnode.trans (leads_closer hc hv₁), rfl, ?_, 0, Nat.zero_le _, ?_⟩
    · simp [ArgState.fresh, Tree.arg]
    · simp [printList, printRest]
  | t :: t' :: ts, c, u, hL, hv, hc => by
    rw [printList, printRest_cons] at hv ⊢
    have hv₀ : view s L i = t.print text
        ++ ',' :: ' ' :: (printList text (t' :: ts) ++ c :: u) := by
      simpa using hv
    have hcomma := leads_comma (r := r) t hL hv₀
      (head_printList hfield _ (isCloser_ne hc))
    have hv₁ : view s L (i + (t.print text).length + 2) = printList text (t' :: ts) ++ c :: u :=
      view_add (u := [',', ' ']) (by simpa using view_add hv₀)
    have hL₁ : argLimit s (i + (t.print text).length + 2) = L :=
      (argLimit_of_view hL hv₁ (by simp) (by omega)).trans hL
    obtain ⟨st, hlead, hend⟩ := leads_printList (t' :: ts) hL₁ hv₁ hc
    refine ⟨st, hcomma.trans hlead, hend.finished, ?_, ?_⟩
    · rw [hend.theResult]
      simp only [argList, List.append_assoc, List.singleton_append]
    · have hlen : i + (t.print text).length + 2 + (printList text (t' :: ts)).length
          = i + (t.print text ++ ',' :: ' ' :: printList text (t' :: ts)).length := by
        simp
        omega
      rw [← hlen]
      exact hend.ixCurr
  termination_by ts => (sizeOf ts, 0)
end

/-- **The parser on a printed argument list**: the leaves, cleaned, in the same
nesting, and a position at most some spaces after the closing bracket. -/
theorem parseCallArguments_printList {s : Text} {i : ℕ} {ts : List (Tree α)} {c : Char} {u : Text}
    (hv : view s (argLimit s i) i = printList text ts ++ c :: u) (hc : isCloser c = true) :
    ∃ k ≤ spaces u, parseCallArguments s i
      = (argList (fun a => closedArg (text a)) ts, i + (printList text ts).length + 1 + k) := by
  obtain ⟨st, hlead, hend⟩ := leads_printList hfield (r := []) ts rfl hv hc
  have hskip : skipWhile (· = ' ') s s.length i = i :=
    skipSpaces_of_view hv (by simp) (fun d hd => (head_printList hfield _ (isCloser_ne hc) d hd).1)
  have hi : i ≤ s.length := by
    have := length_view_le s (argLimit s i) i
    by_contra hlt
    rw [view, List.drop_of_length_le (by simp; omega)] at hv
    simp at hv
  obtain ⟨k, hk, hix⟩ := hend.ixCurr
  refine ⟨k, hk, ?_⟩
  rw [parseCallArguments_of_leads hi hskip hlead (Or.inl hend.finished), ← hix]
  simp [ArgState.finish, hend.finished, hend.theResult]

end

end Survol.Dockit
