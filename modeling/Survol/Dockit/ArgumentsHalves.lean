import Survol.Dockit.ArgumentsCut

/-!
# Half of an argument list

What the argument parser makes of a printed list that stops before its closing
parenthesis: after a comma, after the last argument, or inside an argument.

## Main definitions

* `openArg` — what is kept of an argument that the end of the text ends.
* `Tree.openArg`, `openList` — the same for a tree, and for the last one of a list.
-/

open PyText

namespace Survol.Dockit

/-- What is kept of an argument that the end of the text ends. -/
def openArg (body : Text) : Text := clean isTailJunk body

section
variable {α : Type}

/-- The value of a printed argument before the end of the text. -/
def Tree.openArg (text : α → Text) : Tree α → Arg
  | .leaf a => .str (Survol.Dockit.openArg (text a))
  | .node b l => (Tree.node b l).arg fun a => closedArg (text a)

/-- The values of a printed list before the end of the text. -/
def openList (text : α → Text) : List (Tree α) → List Arg
  | [] => []
  | [t] => [t.openArg text]
  | t :: t' :: ts => t.arg (fun a => closedArg (text a)) :: openList text (t' :: ts)

variable {text : α → Text}

theorem length_openList (ts : List (Tree α)) : (openList text ts).length = ts.length := by
  induction ts with
  | nil => rfl
  | cons t ts ih =>
    cases ts with
    | nil => rfl
    | cons t' ts => simpa [openList] using ih

theorem openList_concat (ts : List (Tree α)) (t : Tree α) :
    openList text (ts ++ [t]) =
      argList (fun a => closedArg (text a)) ts ++ [t.openArg text] := by
  induction ts with
  | nil => rfl
  | cons t₁ ts ih =>
    cases ts with
    | nil => rfl
    | cons t₂ ts =>
      simp only [argList, List.cons_append] at ih ⊢
      rw [← ih]
      rfl

theorem printList_cons_cons (text : α → Text) (t t' : Tree α) (ts : List (Tree α)) :
    printList text (t :: t' :: ts) = t.print text ++ ',' :: ' ' :: printList text (t' :: ts) := by
  rw [printList, printRest_cons]

theorem printList_append (text : α → Text) {ts ts' : List (Tree α)} (h : ts ≠ []) (h' : ts' ≠ []) :
    printList text (ts ++ ts') = printList text ts ++ ',' :: ' ' :: printList text ts' := by
  induction ts with
  | nil => exact absurd rfl h
  | cons t ts ih =>
    obtain ⟨t', ts', rfl⟩ := List.exists_cons_of_ne_nil h'
    cases ts with
    | nil => simp [printList, printRest]
    | cons t₂ ts =>
      have ih := ih (by simp)
      rw [List.cons_append] at ih
      rw [List.cons_append, List.cons_append, printList_cons_cons, ih, printList_cons_cons]
      simp

/-- Only the last argument can differ. -/
theorem openList_eq_iff (ts : List (Tree α)) :
    openList text ts = argList (fun a => closedArg (text a)) ts ↔
      ∀ a, ts.getLast? = some (.leaf a) → Survol.Dockit.openArg (text a) = closedArg (text a) := by
  induction ts with
  | nil => simp [openList, argList]
  | cons t ts ih =>
    cases ts with
    | nil => cases t <;> simp [openList, argList, Tree.openArg, Tree.arg]
    | cons t' ts =>
      rw [openList, argList, List.cons_eq_cons, ih]
      simp

end

theorem dropWhile_dropWhile_of_imp {p q : Char → Bool} (h : ∀ c, q c = true → p c = true)
    (t : Text) : (t.dropWhile q).dropWhile p = t.dropWhile p := by
  induction t with
  | nil => rfl
  | cons c t ih =>
    rw [List.dropWhile_cons]
    split
    · rename_i hq
      rw [ih, List.dropWhile_cons_of_pos (h c hq)]
    · rfl

theorem rdropWhile_rdropWhile_of_imp {p q : Char → Bool} (h : ∀ c, q c = true → p c = true)
    (t : Text) : (t.rdropWhile q).rdropWhile p = t.rdropWhile p := by
  simp only [List.rdropWhile, List.reverse_reverse, dropWhile_dropWhile_of_imp h]

/-- The text of an argument without the quotes around it. -/
def unquoted (body : Text) : Text := (body.dropWhile isSpaceOrQuote).rdropWhile (· = '"')

/-- The end of the text cuts an argument exactly when its text without quotes ends
with a character that is dropped there. -/
theorem openArg_eq_iff (body : Text) : openArg body = closedArg body ↔
    ∀ c ∈ (unquoted body).getLast?, isTailJunk c = false := by
  have hopen : openArg body = dropQuoteOfTruncated ((unquoted body).rdropWhile isTailJunk) := by
    rw [openArg, clean, unquoted, rdropWhile_rdropWhile_of_imp]
    intro c hc
    simp [isTailJunk, of_decide_eq_true hc]
  have hclosed : closedArg body = dropQuoteOfTruncated (unquoted body) := rfl
  constructor
  · intro heq c hc
    by_contra hjunk
    rw [Bool.not_eq_false] at hjunk
    obtain ⟨t, ht⟩ := List.getLast?_eq_some_iff.mp hc
    have hsuff : ¬ truncatedMark <:+ unquoted body := by
      intro hs
      have hlast : (unquoted body).getLast? = some '.' := by
        obtain ⟨u, hu⟩ := hs
        rw [← hu, List.getLast?_append]
        rfl
      rw [hc, Option.some.injEq] at hlast
      subst hlast
      exact absurd hjunk (by decide)
    have hlt : ((unquoted body).rdropWhile isTailJunk).length < (unquoted body).length := by
      rw [ht, List.rdropWhile_concat_pos _ _ _ hjunk, List.length_append]
      have := ( List.rdropWhile_prefix isTailJunk t).length_le
      simp only [List.length_singleton]
      omega
    have hlen := congrArg List.length heq
    rw [hopen, hclosed, length_dropQuoteOfTruncated (unquoted body), if_neg hsuff] at hlen
    have := length_dropQuoteOfTruncated_le ((unquoted body).rdropWhile isTailJunk)
    omega
  · intro hlast
    rw [hopen, hclosed, (List.rdropWhile_eq_self_iff).mpr]
    intro hne hjunk
    rw [hlast _ (List.getLast?_eq_some_getLast hne)] at hjunk
    cases hjunk

theorem openArg_concat_space (body : Text) : clean isTailJunk (body ++ [' ']) = openArg body := by
  rw [openArg, clean, clean]
  congr 1
  by_cases h : body.dropWhile isSpaceOrQuote = []
  · have hall : ∀ c ∈ body, isSpaceOrQuote c = true := List.dropWhile_eq_nil_iff.mp h
    have hall' : (body ++ [' ']).dropWhile isSpaceOrQuote = [] := by
      rw [List.dropWhile_eq_nil_iff]
      intro c hc
      rcases List.mem_append.mp hc with hc | hc
      · exact hall c hc
      · rw [List.mem_singleton.mp hc]
        rfl
    rw [h, hall']
  · rw [List.dropWhile_append, if_neg (by simpa using h), List.rdropWhile_concat_pos _ _ _ (by rfl)]

/-- The position where the text ends. -/
theorem add_length_of_view {s u : Text} {L i : ℕ} (hs : L ≤ s.length) (hi : i ≤ L)
    (hv : view s L i = u) : i + u.length = L := by
  rw [← hv, view, List.length_drop, List.length_take, min_eq_left hs]
  omega

/-! ## After a comma -/

section
variable {α : Type} {text : α → Text} (hfield : ∀ a, IsField (text a))
include hfield

theorem head_printList_append (ts : List (Tree α)) (hts : ts ≠ []) (u : Text) :
    ∀ d ∈ (printList text ts ++ u).head?, d ≠ ' ' ∧ d ≠ ',' := by
  obtain ⟨t, ts, rfl⟩ := List.exists_cons_of_ne_nil hts
  rw [printList, List.append_assoc, List.head?_append_of_ne_nil _ (Tree.print_ne_nil hfield t)]
  exact Tree.head_print hfield t

/-- The arguments before another one. -/
theorem leads_printList_comma {s : Text} {L i : ℕ} {r : List Arg} (ts : List (Tree α))
    (hts : ts ≠ []) {w : Text} (hL : argLimit s i = L)
    (hv : view s L i = printList text ts ++ ',' :: ' ' :: w)
    (hw : ∀ d ∈ w.head?, d ≠ ' ' ∧ d ≠ ',') :
    Leads s L (ArgState.fresh r i)
      (ArgState.fresh (r ++ argList (fun a => closedArg (text a)) ts)
        (i + (printList text ts).length + 2)) := by
  induction ts generalizing i r with
  | nil => exact absurd rfl hts
  | cons t ts ih =>
    cases ts with
    | nil =>
      simp only [printList, printRest, List.append_nil] at hv ⊢
      exact leads_comma hfield t hL hv hw
    | cons t' ts =>
      rw [printList, printRest_cons] at hv ⊢
      have hv₀ : view s L i = t.print text
          ++ ',' :: ' ' :: (printList text (t' :: ts) ++ ',' :: ' ' :: w) := by
        simpa using hv
      have hcomma := leads_comma hfield (r := r) t hL hv₀
        (head_printList_append hfield (t' :: ts) (by simp) _)
      have hv₁ : view s L (i + (t.print text).length + 2)
          = printList text (t' :: ts) ++ ',' :: ' ' :: w :=
        view_add (u := [',', ' ']) (by simpa using view_add hv₀)
      have hL₁ : argLimit s (i + (t.print text).length + 2) = L :=
        (argLimit_of_view hL hv₁ (by simp) (by omega)).trans hL
      have hrest := ih (r := r ++ [t.arg fun a => closedArg (text a)]) (by simp) hL₁ hv₁
      have hlen : i + (t.print text).length + 2 + (printList text (t' :: ts)).length + 2
          = i + (t.print text ++ ',' :: ' ' :: printList text (t' :: ts)).length + 2 := by
        simp only [List.length_append, List.length_cons]
        omega
      rw [hlen] at hrest
      refine hcomma.trans ?_
      simpa only [argList, List.append_assoc, List.singleton_append] using hrest

/-- The arguments before the last one. -/
theorem leads_init {s : Text} {L i : ℕ} {r : List Arg} (ts : List (Tree α)) (t : Tree α) {e : Text}
    (hL : argLimit s i = L) (hv : view s L i = printList text (ts ++ [t]) ++ e) :
    ∃ j, Leads s L (ArgState.fresh r i)
        (ArgState.fresh (r ++ argList (fun a => closedArg (text a)) ts) j) ∧
      argLimit s j = L ∧ view s L j = t.print text ++ e ∧
      j + (t.print text).length = i + (printList text (ts ++ [t])).length := by
  by_cases hts : ts = []
  · subst hts
    simp only [List.nil_append, printList, printRest, List.append_nil, argList] at hv ⊢
    exact ⟨i, Leads.refl _, hL, hv, rfl⟩
  · rw [printList_append text hts (by simp)] at hv ⊢
    simp only [printList, printRest, List.append_nil] at hv ⊢
    have hhead : ∀ d ∈ (t.print text ++ e).head?, d ≠ ' ' ∧ d ≠ ',' := by
      rw [List.head?_append_of_ne_nil _ (Tree.print_ne_nil hfield t)]
      exact Tree.head_print hfield t
    have hlead := leads_printList_comma hfield (r := r) ts hts hL (by simpa using hv) hhead
    have hv₁ : view s L (i + (printList text ts).length + 2) = t.print text ++ e :=
      view_add (u := [',', ' ']) (view_add (by simpa using hv))
    refine ⟨_, hlead, ?_, hv₁, ?_⟩
    · refine (argLimit_of_view hL hv₁ ?_ (by omega)).trans hL
      simp [Tree.print_ne_nil hfield t]
    · simp only [List.length_append, List.length_cons]
      omega

/-- A bracketed list before spaces and commas that end the text. -/
theorem leads_node_end {s : Text} {L i : ℕ} {r : List Arg} {b : Bracket} (l : List (Tree α))
    {u : Text} (hs : L ≤ s.length) (hi : i ≤ L) (hL : argLimit s i = L)
    (hv : view s L i = (Tree.node b l).print text ++ u) (hu : ∀ c ∈ u, isSpaceOrComma c = true) :
    Leads s L (ArgState.fresh r i)
      (ArgState.fresh (r ++ [(Tree.node b l).arg fun a => closedArg (text a)]) L) := by
  have hv₀ : view s L i = b.opening :: (printList text l ++ b.closing :: u) := by
    simpa [Tree.print] using hv
  have hv₁ := view_succ hv₀
  have hL₁ : argLimit s (i + 1) = L :=
    (argLimit_of_le (Nat.le_succ i) (hL ▸ lt_of_view_cons hv₀)).trans hL
  obtain ⟨st, hlead, hend⟩ := leads_printList hfield (r := []) l hL₁ hv₁ b.isCloser_closing
  obtain ⟨k, hk, hix⟩ := hend.ixCurr
  have hskip : skipWhile (· = ' ') s s.length (i + 1) = i + 1 :=
    skipSpaces_of_view hv₁ (by simp)
      (fun d hd => (head_printList hfield _ (isCloser_ne b.isCloser_closing) d hd).1)
  obtain ⟨n, hn⟩ := parseArgs_of_leads hskip (hL₁ ▸ hlead) (Or.inl hend.finished)
  have hfin : st.finish s (argLimit s (i + 1))
      = (argList (fun a => closedArg (text a)) l, st.ixCurr) := by
    simp only [ArgState.finish, hend.finished, hend.theResult]
    simp
  rw [hfin] at hn
  have hlist := leads_list (r := r) hv₀ b.opening_eq hn
  have hku : k ≤ u.length := hk.trans ( List.takeWhile_prefix _).length_le
  have hv₂ : view s L st.ixCurr = u.drop k ++ [] := by
    have hv₃ := view_add (u := printList text l ++ b.closing :: u.take k) (t := u.drop k)
      (by simpa using hv₁)
    rw [List.append_nil, ← hv₃, hix]
    congr 1
    simp only [List.length_append, List.length_cons, List.length_take, min_eq_left hku]
    omega
  have hle : st.ixCurr ≤ L := by
    have hend := add_length_of_view hs hi hv₀
    simp only [List.length_append, List.length_cons] at hend
    omega
  have hstop := skipWhile_of_view hv₂ (fun c hc => hu c (List.mem_of_mem_drop hc)) (by simp)
  have hlen := add_length_of_view hs hle hv₂
  rw [List.append_nil] at hlen
  rw [hstop, hlen] at hlist
  exact hlist

/-- The arguments before a comma that the end of the text follows. -/
theorem leads_printList_comma_end {s : Text} {L i : ℕ} {r : List Arg} (ts : List (Tree α))
    (hts : ts ≠ []) (hs : L ≤ s.length) (hi : i ≤ L) (hL : argLimit s i = L)
    (hv : view s L i = printList text ts ++ [',', ' ', ' ']) :
    Leads s L (ArgState.fresh r i)
      (ArgState.fresh (r ++ argList (fun a => closedArg (text a)) ts) L) := by
  obtain ⟨ts, t, rfl⟩ := List.eq_nil_or_concat' ts |>.resolve_left hts
  obtain ⟨j, hlead, hLj, hvj, hj⟩ := leads_init hfield (r := r) ts t hL hv
  have hend := add_length_of_view hs hi hv
  simp only [List.length_append, List.length_cons, List.length_nil] at hend
  refine hlead.trans ?_
  simp only [argList_eq_map, List.map_append, List.map_singleton, ← List.append_assoc]
  cases t with
  | leaf a =>
    have hf := hfield a
    rw [Tree.print] at hvj hj
    have hcomma := leads_field_comma (r := r ++ argList (fun a => closedArg (text a)) ts) hvj hf.run
      (fun d hd => (hf.head d hd).2)
    rwa [hj, show i + _ + 1 + spaces [' ', ' '] = L from hend, argList_eq_map] at hcomma
  | node b l =>
    have hnode := leads_node_end hfield (r := r ++ argList (fun a => closedArg (text a)) ts) l hs
      (by omega) hLj hvj (by decide)
    rwa [argList_eq_map] at hnode

/-! ## Before the end of the text -/

/-- The arguments before the end of the text. -/
theorem leads_printList_open {s : Text} {L i : ℕ} {r : List Arg} (ts : List (Tree α))
    (hs : L ≤ s.length) (hi : i ≤ L) (hL : argLimit s i = L)
    (hv : view s L i = printList text ts ++ [' ']) (hts : ts ≠ []) :
    ∃ st, Leads s L (ArgState.fresh r i) st ∧ L ≤ st.ixCurr ∧
      (st.finish s L).1 = r ++ openList text ts := by
  obtain ⟨ts, t, rfl⟩ := List.eq_nil_or_concat' ts |>.resolve_left hts
  obtain ⟨j, hlead, hLj, hvj, hj⟩ := leads_init hfield (r := r) ts t hL hv
  rw [openList_concat]
  have hend := add_length_of_view hs hi hv
  rw [List.length_append, List.length_singleton] at hend
  cases t with
  | leaf a =>
    have hf := hfield a
    rw [Tree.print] at hvj hj
    have hrun : Lex.fresh.run (text a ++ [' ']) = some Lex.fresh := by
      rw [Lex.run_append, hf.run]
      rfl
    have hhead : ∀ c ∈ (text a ++ [' ']).head?, c ≠ '[' ∧ c ≠ '{' := by
      rw [List.head?_append_of_ne_nil _ hf.ne_nil]
      exact fun c hc => (hf.head c hc).2
    have hv₀ : view s L j = (text a ++ [' ']) ++ [] := by rw [hvj, List.append_nil]
    have hfield := leads_field (r := r ++ argList (fun a => closedArg (text a)) ts) hv₀ hrun hhead
    refine ⟨_, hlead.trans hfield, ?_, ?_⟩
    · simp only [ArgState.read, ArgState.fresh, List.length_append, List.length_singleton]
      omega
    · have hclean := cleanArg_of_view isTailJunk hv₀ (by simp)
      rw [List.length_append, List.length_singleton, ← Nat.add_assoc, hj, Nat.add_assoc, hend,
        openArg_concat_space] at hclean
      have hlt : j < L := by omega
      simp only [ArgState.finish, ArgState.read, ArgState.fresh, hclean]
      simp [hlt, Tree.openArg]
  | node b l =>
    have hnode := leads_node_end hfield (r := r ++ argList (fun a => closedArg (text a)) ts) l hs
      (by omega) hLj hvj (by decide)
    refine ⟨_, hlead.trans hnode, le_rfl, ?_⟩
    rw [ArgState.finish_fresh, Tree.openArg, List.append_assoc]

end

/-! ## Inside an argument -/

/-- The text ends inside the arguments: the loop runs to its end, and something is
left of the argument it is in. -/
def Halted (s : Text) (L i : ℕ) (r : List Arg) : Prop :=
  ∃ st, Leads s L (ArgState.fresh r i) st ∧ st.ixCurr = L ∧ r.length < (st.finish s L).1.length

/-- A text is cut before a `<`. -/
structure CutAt (whole v : Text) : Prop where
  ne_nil : v ≠ []
  eq : ∃ w, whole = v ++ '<' :: w

section
variable {α : Type} {text : α → Text} (hfield : ∀ a, IsField (text a))
include hfield

/-- The first characters of a cut list. -/
theorem head_of_cutAt {ts : List (Tree α)} {v : Text} (h : CutAt (printList text ts) v) :
    ∀ d ∈ v.head?, d ≠ ' ' ∧ d ≠ ',' := by
  obtain ⟨hne, w, hw⟩ := h
  intro d hd
  have hhead := head_printList hfield ts (c := ')') (u := []) (by decide) d
  rw [hw, List.append_assoc, List.head?_append_of_ne_nil _ hne] at hhead
  exact hhead hd

mutual
/-- An argument that is cut. -/
theorem halted_tree {s : Text} {L i : ℕ} {r : List Arg} :
    ∀ (t : Tree α) {v : Text}, L = s.length → i ≤ L → argLimit s i = L → view s L i = v →
      CutAt (t.print text) v → Halted s L i r
  | .leaf a, v, hs, hi, hL, hv, hcut => by
    obtain ⟨hne, w, hw⟩ := hcut
    have hf := hfield a
    rw [Tree.print] at hw
    have hrun := hf.run
    rw [hw, Lex.run_append, Option.bind_eq_some_iff] at hrun
    obtain ⟨x, hx, -⟩ := hrun
    have hhead : ∀ c ∈ v.head?, c ≠ '[' ∧ c ≠ '{' := by
      intro c hc
      refine (hf.head c ?_).2
      rwa [hw, List.head?_append_of_ne_nil _ hne]
    have hend := add_length_of_view hs.le hi hv
    have hpos := List.length_pos_of_ne_nil hne
    refine ⟨_, leads_field (by rw [hv, List.append_nil]) hx hhead, hend, ?_⟩
    simp only [ArgState.finish, ArgState.read, ArgState.fresh]
    simp [show i < L by omega]
  | .node b l, v, hs, hi, hL, hv, hcut => by
    obtain ⟨hne, w, hw⟩ := hcut
    obtain ⟨c, v', rfl⟩ := List.exists_cons_of_ne_nil hne
    rw [Tree.print, List.cons_append, List.cons.injEq] at hw
    obtain ⟨rfl, hw⟩ := hw
    have hv₁ := view_succ hv
    have hlt := lt_of_view_cons hv
    have hL₁ : argLimit s (i + 1) = L := (argLimit_of_le (Nat.le_succ i) (hL ▸ hlt)).trans hL
    have hnested : ∃ n objToAdd, parseArgs n s (i + 1) = some (objToAdd, L) := by
      by_cases hnil : v' = []
      · have hend := add_length_of_view hs.le hlt hv₁
        rw [hnil, List.length_nil] at hend
        have hskip : skipWhile (· = ' ') s s.length (i + 1) = i + 1 :=
          skipWhile_of_head (by rw [← hs, hv₁, hnil]; simp)
        obtain ⟨n, hn⟩ := parseArgs_of_leads hskip (Leads.refl _) (.inr (by
          rw [hL₁]
          exact hend.ge))
        refine ⟨n, [], ?_⟩
        rw [hn, hL₁, ← hend]
        exact congrArg some ArgState.finish_fresh
      · have hinside : CutAt (printList text l) v' := by
          rcases List.eq_nil_or_concat' w with rfl | ⟨w, c, rfl⟩
          · have hclose : b.closing = '<' := by simpa using congrArg List.getLast? hw
            cases b <;> cases hclose
          · rw [← List.cons_append, ← List.append_assoc] at hw
            exact ⟨hnil, w, List.append_inj_left' hw rfl⟩
        obtain ⟨st, hlead, hcur, -⟩ := halted_printList (r := []) l hs hlt hL₁ hv₁ hinside
        have hskip : skipWhile (· = ' ') s s.length (i + 1) = i + 1 :=
          skipSpaces_of_view hv₁ hnil (fun d hd => (head_of_cutAt hfield hinside d hd).1)
        obtain ⟨n, hn⟩ := parseArgs_of_leads hskip (hL₁ ▸ hlead) (.inr (by rw [hL₁, hcur]))
        refine ⟨n, (st.finish s L).1, ?_⟩
        rw [hn, hL₁]
        exact congrArg some (Prod.ext rfl ((ArgState.finish_snd st).trans hcur))
    obtain ⟨n, objToAdd, hn⟩ := hnested
    have hlist := leads_list (r := r) hv b.opening_eq hn
    have hstay : skipWhile isSpaceOrComma s L L = L := skipWhile_of_head (by simp [view])
    rw [hstay] at hlist
    refine ⟨_, hlist, rfl, ?_⟩
    rw [ArgState.finish_fresh]
    simp
/-- A list of arguments that is cut. -/
theorem halted_printList {s : Text} {L i : ℕ} {r : List Arg} :
    ∀ (ts : List (Tree α)) {v : Text}, L = s.length → i ≤ L → argLimit s i = L → view s L i = v →
      CutAt (printList text ts) v → Halted s L i r
  | [], v, hs, hi, hL, hv, hcut => by
    obtain ⟨-, w, hw⟩ := hcut
    simp [printList] at hw
  | [t], v, hs, hi, hL, hv, hcut => by
    simp only [printList, printRest, List.append_nil] at hcut
    exact halted_tree t hs hi hL hv hcut
  | t :: t' :: ts, v, hs, hi, hL, hv, hcut => by
    obtain ⟨hne, w, hw⟩ := hcut
    rw [printList_cons_cons, List.append_eq_append_iff] at hw
    rcases hw with ⟨v₁, rfl, hw⟩ | ⟨w₁, hw, hw'⟩
    · obtain ⟨v₃, rfl, hw₃⟩ : ∃ v₃, v₁ = ',' :: ' ' :: v₃ ∧
          printList text (t' :: ts) = v₃ ++ '<' :: w := by
        rcases v₁ with _ | ⟨c, _ | ⟨d, v₃⟩⟩
        · simp at hw
        · simp at hw
        · simp only [List.cons_append, List.cons.injEq] at hw
          obtain ⟨rfl, rfl, hw⟩ := hw
          exact ⟨v₃, rfl, hw⟩
      have hhead : ∀ d ∈ v₃.head?, d ≠ ' ' ∧ d ≠ ',' := by
        by_cases hnil : v₃ = []
        · simp [hnil]
        · exact head_of_cutAt hfield ⟨hnil, w, hw₃⟩
      have hcomma := leads_comma hfield (r := r) t hL hv hhead
      have hv₁ : view s L (i + (t.print text).length + 2) = v₃ :=
        view_add (u := [',', ' ']) (by simpa using view_add hv)
      have hend := add_length_of_view hs.le hi hv
      simp only [List.length_append, List.length_cons] at hend
      by_cases hnil : v₃ = []
      · rw [hnil, List.length_nil] at hend
        refine ⟨_, hcomma, by simp only [ArgState.fresh]; omega, ?_⟩
        rw [show i + (t.print text).length + 2 = L by omega, ArgState.finish_fresh]
        simp
      · have hpos := List.length_pos_of_ne_nil hnil
        have hL₁ : argLimit s (i + (t.print text).length + 2) = L :=
          (argLimit_of_view hL hv₁ hnil (by omega)).trans hL
        obtain ⟨st, hlead, hcur, hlen⟩ := halted_printList (r := r ++ [_]) (t' :: ts) hs (by omega)
          hL₁ hv₁ ⟨hnil, w, hw₃⟩
        refine ⟨st, hcomma.trans hlead, hcur, ?_⟩
        rw [List.length_append] at hlen
        omega
    · obtain ⟨w₂, rfl⟩ : ∃ w₂, w₁ = '<' :: w₂ := by
        rcases w₁ with _ | ⟨c, w₂⟩
        · simp at hw'
        · simp only [List.cons_append, List.cons.injEq] at hw'
          exact ⟨w₂, by rw [hw'.1]⟩
      exact halted_tree t hs hi hL hv ⟨hne, w₂, hw⟩
end

end

end Survol.Dockit
