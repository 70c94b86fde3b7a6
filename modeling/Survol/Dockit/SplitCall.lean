import Survol.Dockit.Pairing
import Survol.Dockit.PrintedCalls

/-!
# A split call and the whole call

A call that is printed in two halves, around lines of other processes, and the
same call printed on one line. The merged core is the core of the whole call, up
to the returned text, exactly when `SplitOk` holds: `split_call_iff`.

With `ltrace` the comma in front of the rest of the arguments is read as an empty
argument. And when all arguments come with the first half, the last one loses the
closing brackets, commas and spaces at its end.

## Main definitions

* `PrintedCall` — a call, with `wholeLine`, `firstLine` and `secondLine`.
* `OtherLines` — lines of other processes.
* `SplitOk` — the calls and the places where they can be split.
-/

open PyText

namespace Survol.Dockit

/-! ## Printed calls -/

/-- An argument as it is printed, unless it is a bracketed list. -/
structure Field where
  text : Text
  isField : IsField text
  not_marker : ¬ unfinishedMarker <+: text

/-- A call and its result. -/
structure PrintedCall where
  pid : ℕ
  name : FunctionName
  args : List (Tree Field)
  ret : Text
  time : ExecTime

/-- The name with the suffix of system calls. -/
def FunctionName.sys (f : FunctionName) : FunctionName where
  text := f.text ++ sysSuffix
  ne_nil := by simp [sysSuffix]
  chars c hc := (List.mem_append.mp hc).elim (f.chars c)
    ((by decide : ∀ c ∈ sysSuffix, c ≠ '(' ∧ c ≠ ' ') c)

/-- The name in a whole call and in the first half of a call. -/
def FunctionName.printed (f : FunctionName) : Tracer → FunctionName
  | .strace => f
  | .ltrace => f.sys

namespace PrintedCall

variable (c : PrintedCall) (tracer : Tracer) (k : ℕ)

/-- The arguments of the first half. -/
def first : Text := printList Field.text (c.args.take k)

/-- The arguments of the second half. -/
def second : Text := printList Field.text (c.args.drop k)

/-- What follows the arguments, up to the time. -/
def result : Text := ") = ".toList ++ c.ret ++ [' ']

/-- The call on one line. -/
def wholeLine (h : LineHead) : Text :=
  h.print c.pid ++ ((c.name.printed tracer).text ++
    '(' :: (printList Field.text c.args ++ c.result ++ c.time.print))

/-- The separator that `strace` prints before the marker. -/
def firstSeparator : Text :=
  if tracer = .strace ∧ 0 < k ∧ k < c.args.length then [',', ' '] else []

/-- The separator that `ltrace` prints after the marker. -/
def secondSeparator : Text :=
  if tracer = .ltrace ∧ k < c.args.length then [',', ' '] else []

/-- The first half of the call. -/
def firstLine (h : LineHead) : Text :=
  h.print c.pid ++ ((c.name.printed tracer).text ++
    '(' :: (c.first k ++ c.firstSeparator tracer k ++ [' '] ++ unfinishedMarker ++ ['\n']))

/-- The second half of the call. -/
def secondLine (h : LineHead) : Text :=
  h.print c.pid ++ (("<... ".toList ++ c.name.text ++ " resumed> ".toList) ++
    (c.secondSeparator tracer k ++ c.second k ++ c.result ++ c.time.print))

/-- The last argument does not end, between its quotes, with a character that is
dropped at the end of a text. -/
def LastKept : Prop :=
  ∀ a, c.args.getLast? = some (.leaf a) → ∀ d ∈ (unquoted a.text).getLast?, isTailJunk d = false

/-- The splits that do not change the call. If the marker occurs in an argument of
the first half, the call must be complete, and no `=` must follow the marker. Else,
`strace` must have printed the separator, or the call must be complete and its last
argument be kept. -/
def SplitOk : Prop :=
  if unfinishedMarker <:+: c.first k then
    k = c.args.length ∧ '=' ∉ (c.first k).drop (cutMarker (c.first k)).length
  else tracer = .strace ∧ k < c.args.length ∨ k = c.args.length ∧ c.LastKept

end PrintedCall

/-! ## Markers in printed text -/

theorem cutMarker_append_of_notMem {a : Text} (h : '<' ∉ a) (b : Text) :
    cutMarker (a ++ b) = a ++ cutMarker b := by
  refine cutMarker_append fun j hj hm => h ?_
  rw [List.drop_append_of_le_length hj.le] at hm
  obtain ⟨d, t, hd⟩ := List.exists_cons_of_ne_nil (l := a.drop j) (by simpa using hj)
  rw [hd, List.cons_append] at hm
  have hmem : d ∈ a.drop j := by simp [hd]
  exact head_of_marker hm ▸ List.mem_of_mem_drop hmem

theorem cutMarker_marker_append (b : Text) : cutMarker (unfinishedMarker ++ b) = [] := by
  have h : findIdx unfinishedMarker (unfinishedMarker ++ b) = some 0 := by
    refine findIdx_append_of_some ?_ b
    decide
  rw [cutMarker, h]
  rfl

/-- The marker does not begin in a text that a space and the marker follow. -/
theorem cutMarker_append_space {a : Text} (ha : ¬ unfinishedMarker <:+: a) (b : Text) :
    cutMarker (a ++ [' '] ++ (unfinishedMarker ++ b)) = a ++ [' '] := by
  rw [cutMarker_append, cutMarker_marker_append, List.append_nil]
  intro j hj hm
  rw [List.length_append, List.length_singleton] at hj
  rcases Nat.lt_succ_iff_lt_or_eq.mp hj with hj | rfl
  · have hdrop : (a ++ [' '] ++ (unfinishedMarker ++ b)).drop j =
        a.drop j ++ (' ' :: (unfinishedMarker ++ b)) := by
      rw [List.append_assoc, List.drop_append_of_le_length hj.le]
      rfl
    rw [hdrop] at hm
    by_cases hlen : 16 ≤ (a.drop j).length
    · exact ha ((List.prefix_of_prefix_length_le hm (List.prefix_append _ _) hlen).isInfix.trans
        (List.drop_suffix j a).isInfix)
    · -- The marker has a space, but no `<` after one.
      have hne : ∀ d < 16, unfinishedMarker[d]? = some ' ' → unfinishedMarker[d + 1]? = some '.' := by
        decide
      obtain ⟨x, hx⟩ := hm
      have hget : ∀ d < 16, unfinishedMarker[d]? =
          (a.drop j ++ (' ' :: (unfinishedMarker ++ b)))[d]? := by
        intro d hd
        rw [← hx, List.getElem?_append_left (show d < unfinishedMarker.length from hd)]
      have hsp := hget (a.drop j).length (by omega)
      rw [List.getElem?_append_right le_rfl, Nat.sub_self, List.getElem?_cons_zero] at hsp
      have hdot := hne _ (by omega) hsp
      have hlt : (a.drop j).length + 1 < 16 := by
        by_contra hge
        rw [List.getElem?_eq_none (show unfinishedMarker.length ≤ _ from Nat.not_lt.mp hge)] at hdot
        cases hdot
      rw [hget _ hlt, List.getElem?_append_right (Nat.le_succ _),
        show (a.drop j).length + 1 - (a.drop j).length = 1 by omega] at hdot
      cases hdot
  · rw [List.append_assoc, List.drop_left] at hm
    exact absurd (head_of_marker hm) (by decide)

/-- No argument begins with the marker. -/
theorem not_prefix_printList (ts : List (Tree Field)) {d : Char} (hd : d ∉ unfinishedMarker)
    (u : Text) : ¬ unfinishedMarker <+: printList Field.text ts ++ d :: u := by
  intro hm
  match ts with
  | [] =>
    have := head_of_marker hm
    subst this
    exact hd (by decide)
  | .node b l :: ts =>
    have := head_of_marker (c := b.opening) (by simpa [printList, Tree.print] using hm)
    cases b <;> cases this
  | [.leaf a] =>
    rw [printList, Tree.print, printRest, List.append_nil] at hm
    exact a.not_marker (prefix_of_prefix_append_cons hm hd)
  | .leaf a :: t :: ts =>
    rw [printList_cons_cons, Tree.print, List.append_assoc, List.cons_append] at hm
    exact a.not_marker (prefix_of_prefix_append_cons hm (by decide))

/-! ## The arguments of each half -/

/-- The arguments that a printed list stands for, as the parser cleans them. -/
def closedArgs (ts : List (Tree Field)) : List Arg := argList (fun a => closedArg (Field.text a)) ts

theorem length_closedArgs (ts : List (Tree Field)) : (closedArgs ts).length = ts.length := by
  simp [closedArgs]

section
variable {ts : List (Tree Field)} {v : Text}

/-- The text before a marker is read to its end. -/
theorem readAt_cutMarker (t : Text) : ReadAt (cutMarker t) 0 (cutMarker t) :=
  ⟨Nat.zero_le _, cutMarker_eq_self (not_infix_cutMarker t)⟩

/-- What a loop that reads the text from its start returns. -/
theorem parseCallArguments_of_run {st : ArgState} (hv : ReadAt v 0 v) (hhead : ∀ d ∈ v.head?, d ≠ ' ')
    (hlead : Leads v v.length (ArgState.fresh [] 0) st) (hs : st.Stops v.length) :
    parseCallArguments v 0 = st.finish v v.length := by
  have hL : argLimit v 0 = v.length := hv.argLimit_self (Nat.zero_le _)
  have hskip : skipWhile (· = ' ') v v.length 0 = 0 := by
    apply skipWhile_of_head
    simpa [view] using hhead
  have h := parseCallArguments_of_leads (Nat.zero_le _) hskip (hL.symm ▸ hlead)
    (hL.symm ▸ hs)
  rwa [hL] at h

/-- A list without a marker, up to its closing parenthesis. -/
theorem parseCallArguments_closed (hm : ¬ unfinishedMarker <:+: printList Field.text ts) (u : Text) :
    ∃ q, (printList Field.text ts).length + 1 ≤ q ∧ q ≤ (printList Field.text ts).length + 2 ∧
      parseCallArguments (cutMarker (printList Field.text ts ++ ") =".toList ++ u)) 0 =
        (closedArgs ts, q) := by
  have hcut : cutMarker (printList Field.text ts ++ ") =".toList ++ u) =
      printList Field.text ts ++ ')' :: (" =".toList ++ cutMarker u) := by
    have h := cutMarker_append_cons (b := " =".toList ++ u) hm (show ')' ∉ unfinishedMarker by decide)
    have h' : cutMarker (')' :: (" =".toList ++ u)) = ')' :: (" =".toList ++ cutMarker u) :=
      cutMarker_append_of_notMem (a := ") =".toList) (by decide) u
    rw [List.append_assoc]
    exact h.trans (congrArg _ h')
  have hread := readAt_cutMarker (printList Field.text ts ++ ") =".toList ++ u)
  rw [hcut] at hread ⊢
  have hL := hread.argLimit_self (j := 0) (Nat.zero_le _)
  obtain ⟨q, hq, hparse⟩ := parseCallArguments_printList Field.isField (i := 0) (c := ')')
    (u := " =".toList ++ cutMarker u) (by rw [hL, view, List.take_length, List.drop_zero]) rfl
  have hq1 : q ≤ 1 := hq
  exact ⟨_, by omega, by omega, hparse⟩

/-- A list with a marker in it. -/
theorem parseCallArguments_marked (hm : unfinishedMarker <:+: printList Field.text ts) :
    (parseCallArguments (cutMarker (printList Field.text ts)) 0).1 ≠ [] ∧
      (parseCallArguments (cutMarker (printList Field.text ts)) 0).2 =
        (cutMarker (printList Field.text ts)).length := by
  set v := cutMarker (printList Field.text ts) with hv
  have hread : ReadAt v 0 v := readAt_cutMarker _
  have hcut : CutAt (printList Field.text ts) v := by
    obtain ⟨w, hw, hhead⟩ := exists_eq_cutMarker_append (printList Field.text ts)
    rw [← hv] at hw
    have hne : w ≠ [] := by
      rintro rfl
      rw [List.append_nil] at hw
      exact not_infix_cutMarker _ (hw ▸ hm)
    obtain ⟨d, w, rfl⟩ := List.exists_cons_of_ne_nil hne
    have hd : d = '<' := hhead d rfl
    subst hd
    refine ⟨?_, w, hw⟩
    intro hnil
    cases hk : findIdx unfinishedMarker (printList Field.text ts) with
    | none => exact (findIdx_eq_none_iff (by decide) _).mp hk hm
    | some k =>
      have hlen := length_cutMarker (printList Field.text ts)
      rw [← hv, hnil, hk, Option.getD_some, List.length_nil] at hlen
      have hpre := prefix_of_findIdx hk
      rw [← hlen, List.drop_zero] at hpre
      exact not_prefix_printList ts (show ')' ∉ unfinishedMarker by decide) []
        (hpre.trans (List.prefix_append _ _))
  obtain ⟨st, hlead, hcur, hlen⟩ := halted_printList Field.isField (r := []) ts rfl (Nat.zero_le _)
    (hread.argLimit_self (Nat.zero_le _)) (by rw [view, List.take_length, List.drop_zero]) hcut
  have hparse := parseCallArguments_of_run hread
    (fun d hd => (head_of_cutAt Field.isField hcut d hd).1) hlead (.inr hcur.ge)
  rw [hparse]
  exact ⟨List.ne_nil_of_length_pos hlen, (ArgState.finish_snd st).trans hcur⟩

/-- The position after a list, and what comes of a list that is not empty. -/
theorem parseCallArguments_result (ts : List (Tree Field)) (u : Text) :
    (parseCallArguments (cutMarker (printList Field.text ts ++ ") =".toList ++ u)) 0).2 ≤
        (printList Field.text ts).length + 2 ∧
      (ts ≠ [] →
        (parseCallArguments (cutMarker (printList Field.text ts ++ ") =".toList ++ u)) 0).1 ≠ []) := by
  by_cases hm : unfinishedMarker <:+: printList Field.text ts
  · rw [List.append_assoc, cutMarker_append_of_marked _ hm]
    obtain ⟨hne, hpos⟩ := parseCallArguments_marked hm
    refine ⟨?_, fun _ => hne⟩
    rw [hpos]
    exact (length_cutMarker_le _).trans (Nat.le_add_right _ 2)
  · obtain ⟨q, -, hq, hparse⟩ := parseCallArguments_closed hm u
    rw [hparse]
    refine ⟨hq, fun hts hnil => ?_⟩
    have hlen := length_closedArgs ts
    rw [show closedArgs ts = [] from hnil, List.length_nil] at hlen
    exact hts (List.eq_nil_of_length_eq_zero hlen.symm)

/-- The arguments after a separator are read as those of a shorter call. -/
theorem parseCallArguments_separator (hts : ts ≠ [])
    (hm : ¬ unfinishedMarker <:+: printList Field.text ts) {x : Text}
    (hx : ∀ d ∈ x.head?, d ≠ ' ' ∧ d ≠ ',') :
    parseCallArguments (cutMarker (printList Field.text ts ++ [',', ' '] ++ x)) 0 =
      (closedArgs ts ++ (parseCallArguments (cutMarker x) 0).1,
        (printList Field.text ts).length + 2 + (parseCallArguments (cutMarker x) 0).2) := by
  have hcut : cutMarker (printList Field.text ts ++ [',', ' '] ++ x) =
      printList Field.text ts ++ ',' :: ' ' :: cutMarker x := by
    have h := cutMarker_append_cons (b := ' ' :: x) hm (show ',' ∉ unfinishedMarker by decide)
    have h' : cutMarker (',' :: ' ' :: x) = ',' :: ' ' :: cutMarker x :=
      cutMarker_append_of_notMem (a := [',', ' ']) (by decide) x
    rw [List.append_assoc]
    exact h.trans (congrArg _ h')
  have hread := readAt_cutMarker (printList Field.text ts ++ [',', ' '] ++ x)
  rw [hcut] at hread ⊢
  set v := printList Field.text ts ++ ',' :: ' ' :: cutMarker x with hv
  have hhead : ∀ d ∈ (cutMarker x).head?, d ≠ ' ' ∧ d ≠ ',' := by
    intro d hd
    refine hx d ?_
    obtain ⟨w, hw, -⟩ := exists_eq_cutMarker_append x
    rw [hw, List.head?_append, hd]
    rfl
  have hlead := leads_printList_comma Field.isField (r := []) ts hts
    (hread.argLimit_self (Nat.zero_le _)) (by rw [view, List.take_length, List.drop_zero, hv]) hhead
  have hdrop : v.drop (0 + (printList Field.text ts).length + 2) = cutMarker x := by
    rw [Nat.zero_add, ← List.drop_drop, hv, List.drop_left]
    rfl
  have hafter := parseCallArguments_after hread (by simp [hv]) hlead
    (fun d hd => (head_printList_append Field.isField ts hts _ d hd).1)
    (by rw [hdrop]; exact fun d hd => (hhead d hd).1)
  rw [hdrop, Nat.zero_add] at hafter
  exact hafter

/-- The first half, when `strace` has printed the separator. -/
theorem parseCallArguments_first_separator (hts : ts ≠ [])
    (hm : ¬ unfinishedMarker <:+: printList Field.text ts) (u : Text) :
    (parseCallArguments
      (cutMarker (printList Field.text ts ++ [',', ' '] ++ [' '] ++ unfinishedMarker ++ u)) 0).1 =
      closedArgs ts := by
  have hcut : cutMarker (printList Field.text ts ++ [',', ' '] ++ [' '] ++ unfinishedMarker ++ u) =
      printList Field.text ts ++ [',', ' ', ' '] := by
    have h := cutMarker_append_cons (b := [' ', ' '] ++ (unfinishedMarker ++ u)) hm
      (show ',' ∉ unfinishedMarker by decide)
    have h' := cutMarker_append_of_notMem (a := [',', ' ', ' ']) (by decide) (unfinishedMarker ++ u)
    rw [cutMarker_marker_append, List.append_nil] at h'
    simp only [List.append_assoc] at h ⊢
    exact h.trans (congrArg _ h')
  have hread := readAt_cutMarker
    (printList Field.text ts ++ [',', ' '] ++ [' '] ++ unfinishedMarker ++ u)
  rw [hcut] at hread ⊢
  have hlead := leads_printList_comma_end Field.isField (r := []) ts hts le_rfl (Nat.zero_le _)
    (hread.argLimit_self (Nat.zero_le _)) (by rw [view, List.take_length, List.drop_zero])
  rw [parseCallArguments_of_run hread
    (fun d hd => (head_printList_append Field.isField ts hts _ d hd).1) hlead (.inr le_rfl),
    ArgState.finish_fresh]
  rfl

/-- The first half, without a separator. -/
theorem parseCallArguments_first (hm : ¬ unfinishedMarker <:+: printList Field.text ts) (u : Text) :
    (parseCallArguments
      (cutMarker (printList Field.text ts ++ [] ++ [' '] ++ unfinishedMarker ++ u)) 0).1 =
      openList Field.text ts := by
  have hcut : cutMarker (printList Field.text ts ++ [] ++ [' '] ++ unfinishedMarker ++ u) =
      printList Field.text ts ++ [' '] := by
    rw [List.append_nil, List.append_assoc, cutMarker_append_space hm]
  have hread := readAt_cutMarker (printList Field.text ts ++ [] ++ [' '] ++ unfinishedMarker ++ u)
  rw [hcut] at hread ⊢
  by_cases hts : ts = []
  · subst hts
    rfl
  · obtain ⟨st, hlead, hcur, hfin⟩ := leads_printList_open Field.isField (r := []) ts le_rfl
      (Nat.zero_le _) (hread.argLimit_self (Nat.zero_le _))
      (by rw [view, List.take_length, List.drop_zero]) hts
    rw [parseCallArguments_of_run hread
      (fun d hd => (head_printList_append Field.isField ts hts _ d hd).1) hlead (.inr hcur), hfin]
    rfl

end

/-- The separator that `ltrace` prints is read as an empty argument. -/
theorem parseCallArguments_second_separator {x : Text} (hx : ∀ d ∈ x.head?, d ≠ ' ') :
    parseCallArguments (cutMarker ([',', ' '] ++ x)) 0 =
      (.str [] :: (parseCallArguments (cutMarker x) 0).1,
        2 + (parseCallArguments (cutMarker x) 0).2) := by
  have hcut : cutMarker ([',', ' '] ++ x) = ',' :: ' ' :: cutMarker x :=
    cutMarker_append_of_notMem (a := [',', ' ']) (by decide) x
  have hread := readAt_cutMarker ([',', ' '] ++ x)
  rw [hcut] at hread ⊢
  have hhead : ∀ d ∈ (cutMarker x).head?, d ≠ ' ' := by
    intro d hd
    refine hx d ?_
    obtain ⟨w, hw, -⟩ := exists_eq_cutMarker_append x
    rw [hw, List.head?_append, hd]
    rfl
  have hspaces : spaces (' ' :: cutMarker x) = 1 := by
    have hnil : (cutMarker x).takeWhile (· = ' ') = [] := by
      cases hc : cutMarker x with
      | nil => rfl
      | cons d w => simp [hhead d (by simp [hc])]
    simp [spaces, hnil]
  have hview : view (',' :: ' ' :: cutMarker x) (',' :: ' ' :: cutMarker x).length 0 =
      [] ++ ',' :: ' ' :: cutMarker x := by
    rw [view, List.take_length]
    rfl
  have hlead := leads_field_comma (r := []) hview rfl (by simp)
  rw [hspaces] at hlead
  exact parseCallArguments_after hread (by simp) hlead (by simp) hhead

/-! ## The returned value -/

theorem count_dropWhile {p : Char → Bool} {c : Char} (h : p c = false) (t : Text) :
    (t.dropWhile p).count c = t.count c := by
  induction t with
  | nil => rfl
  | cons d t ih =>
    rw [List.dropWhile_cons]
    split
    · rename_i hd
      have hne : d ≠ c := by
        rintro rfl
        rw [h] at hd
        cases hd
      rw [ih, List.count_cons_of_ne hne]
    · rfl

/-- Stripping keeps the characters that are not blank. -/
theorem count_strip {c : Char} (h : isBlank c = false) (t : Text) :
    (strip t).count c = t.count c := by
  rw [strip, List.rdropWhile, List.count_reverse, count_dropWhile h, List.count_reverse,
    count_dropWhile h]

/-- Reading the value at another position. -/
theorem valueText_append (a b : Text) (q : ℕ) :
    valueText (a ++ b) (a.length + q) = valueText b q := by
  rw [valueText, valueText, find?_append, Option.map_map]
  congr 1
  funext e
  rw [Function.comp_apply, Nat.add_assoc, ← List.drop_drop, List.drop_left]

namespace PrintedCall

variable (c : PrintedCall)

/-- The returned value of the call. -/
def value : Text := strip (' ' :: (c.ret ++ [' ']))

/-- The value is read right when no `=` stands in what is left of the arguments. -/
theorem valueText_of_notMem {t : Text} {q : ℕ} (hq : q ≤ t.length + 2) (h : '=' ∉ t.drop q) :
    valueText (t ++ c.result) q = some c.value := by
  have hbody : t ++ c.result = (t ++ [')', ' ']) ++ '=' :: ' ' :: (c.ret ++ [' ']) := by
    simp [result]
  have hq' : q ≤ (t ++ [')', ' ']).length := by simpa using hq
  have hnot : '=' ∉ (t ++ [')', ' ']).drop q := by
    rw [List.drop_append, List.mem_append, not_or]
    exact ⟨h, fun hm => absurd (List.mem_of_mem_drop hm) (by decide)⟩
  have hfind : find? (t ++ c.result) ['='] q = some (t ++ [')', ' ']).length := by
    rw [find?, hbody, List.drop_append_of_le_length hq', findIdx_char hnot, Option.map_some,
      List.length_drop]
    congr 1
    omega
  rw [valueText, hfind, Option.map_some, hbody, ← List.drop_drop, List.drop_left]
  rfl

/-- Another `=` changes the value. -/
theorem valueText_of_mem {t : Text} {q : ℕ} (h : '=' ∈ t.drop q) :
    ∃ r, valueText (t ++ c.result) q = some r ∧ r ≠ c.value := by
  obtain ⟨a, b, hab, ha⟩ := List.eq_append_cons_of_mem h
  have hq : q ≤ t.length := by
    by_contra hlt
    rw [List.drop_of_length_le (by omega)] at h
    cases h
  have hdrop : (t ++ c.result).drop q = a ++ '=' :: (b ++ c.result) := by
    rw [List.drop_append_of_le_length hq, hab, List.append_assoc, List.cons_append]
  have hfind : find? (t ++ c.result) ['='] q = some (q + a.length) := by
    rw [find?, hdrop, findIdx_char ha]
    rfl
  refine ⟨strip (b ++ c.result), ?_, fun heq => ?_⟩
  · rw [valueText, hfind, Option.map_some, Nat.add_assoc, ← List.drop_drop, hdrop, ← List.drop_drop,
      List.drop_left]
    rfl
  · have hcount := congrArg (List.count '=') heq
    rw [value, count_strip (by decide), count_strip (by decide)] at hcount
    simp only [result, List.count_append, List.count_cons] at hcount
    have h1 : List.count '=' ") = ".toList = 1 := by decide
    rw [h1] at hcount
    simp at hcount
    omega

theorem exists_valueText {t : Text} {q : ℕ} (hq : q ≤ t.length + 2) :
    ∃ r, valueText (t ++ c.result) q = some r := by
  by_cases h : '=' ∈ t.drop q
  · obtain ⟨r, hr, -⟩ := c.valueText_of_mem h
    exact ⟨r, hr⟩
  · exact ⟨_, c.valueText_of_notMem hq h⟩

/-! ## The halves and the whole -/

theorem result_append (x : Text) :
    c.result ++ x = ") =".toList ++ ([' '] ++ c.ret ++ [' '] ++ x) := by
  simp [result]

/-- What the parser reads after the parenthesis of the whole call. -/
def wholeArgs : List Arg × ℕ :=
  parseCallArguments (cutMarker (printList Field.text c.args ++ c.result ++ c.time.print)) 0

variable (tracer : Tracer) (k : ℕ)

/-- What it reads in the first half. -/
def firstArgs : List Arg :=
  (parseCallArguments (cutMarker (c.first k ++ c.firstSeparator tracer k ++ [' '] ++
    unfinishedMarker ++ ['\n'])) 0).1

/-- What it reads in the second half. -/
def secondArgs : List Arg × ℕ :=
  parseCallArguments (cutMarker (c.secondSeparator tracer k ++ c.second k ++ c.result ++
    c.time.print)) 0

/-- The halves give the arguments and the value of the whole. -/
def HalvesAgree : Prop :=
  c.firstArgs tracer k ++ (c.secondArgs tracer k).1 = c.wholeArgs.1 ∧
    valueText (c.secondSeparator tracer k ++ c.second k ++ c.result) (c.secondArgs tracer k).2 =
      valueText (printList Field.text c.args ++ c.result) c.wholeArgs.2

/-- The rest of the arguments, as a call of its own. -/
def restArgs : List Arg × ℕ :=
  parseCallArguments (cutMarker (c.second k ++ c.result ++ c.time.print)) 0

theorem restArgs_result : (c.restArgs k).2 ≤ (c.second k).length + 2 ∧
    (k < c.args.length → (c.restArgs k).1 ≠ []) := by
  have h := parseCallArguments_result (c.args.drop k) ([' '] ++ c.ret ++ [' '] ++ c.time.print)
  rw [List.append_assoc, ← c.result_append, ← List.append_assoc] at h
  refine ⟨h.1, fun hk => h.2 ?_⟩
  simpa using hk

/-- A complete first half leaves no argument. -/
theorem restArgs_length : ∃ q, 1 ≤ q ∧ q ≤ 2 ∧ c.restArgs c.args.length = ([], q) := by
  obtain ⟨q, hq, hq', h⟩ := @parseCallArguments_closed [] (by decide)
    ([' '] ++ c.ret ++ [' '] ++ c.time.print)
  refine ⟨q, hq, hq', ?_⟩
  rw [restArgs, second, List.drop_length, List.append_assoc, c.result_append, ← List.append_assoc]
  exact h

theorem secondArgs_strace : c.secondArgs .strace k = c.restArgs k := by
  rw [secondArgs, secondSeparator, if_neg (by simp)]
  rfl

theorem head_second (x : Text) : ∀ d ∈ (c.second k ++ c.result ++ x).head?, d ≠ ' ' ∧ d ≠ ',' := by
  rw [List.append_assoc, c.result_append]
  exact head_printList Field.isField (c.args.drop k) (by decide)

theorem secondArgs_ltrace (hk : k < c.args.length) : c.secondArgs .ltrace k =
    (.str [] :: (c.restArgs k).1, 2 + (c.restArgs k).2) := by
  have h := parseCallArguments_second_separator (x := c.second k ++ c.result ++ c.time.print)
    (fun d hd => (c.head_second k _ d hd).1)
  rw [secondArgs, secondSeparator, if_pos ⟨rfl, hk⟩, restArgs, ← h]
  simp only [List.append_assoc]

theorem secondArgs_length : c.secondArgs tracer c.args.length = c.restArgs c.args.length := by
  rw [secondArgs, secondSeparator, if_neg (by simp)]
  rfl

theorem print_split (hk : 0 < k) (hk' : k < c.args.length) :
    printList Field.text c.args = c.first k ++ [',', ' '] ++ c.second k := by
  have h := @printList_append _ Field.text (c.args.take k) (c.args.drop k)
    (List.ne_nil_of_length_pos (by rw [List.length_take]; omega)) (by simpa using hk')
  rw [List.take_append_drop] at h
  rw [h, first, second, List.append_assoc]
  rfl

/-- With a marker in the first half, both read the same there. -/
theorem wholeArgs_of_marker (hk : k ≤ c.args.length) (hm : unfinishedMarker <:+: c.first k) :
    c.wholeArgs = parseCallArguments (cutMarker (c.first k)) 0 ∧
      c.firstArgs tracer k = c.wholeArgs.1 := by
  have hpre : c.first k <+: printList Field.text c.args := by
    rcases Nat.eq_zero_or_pos k with rfl | hpos
    · exact List.nil_prefix
    · rcases hk.lt_or_eq with hlt | rfl
      · rw [c.print_split k hpos hlt, List.append_assoc]
        exact List.prefix_append _ _
      · rw [first, List.take_length]
  obtain ⟨x, hx⟩ := hpre
  have hwhole : c.wholeArgs = parseCallArguments (cutMarker (c.first k)) 0 := by
    rw [wholeArgs, ← hx, List.append_assoc, List.append_assoc, cutMarker_append_of_marked _ hm]
  refine ⟨hwhole, ?_⟩
  rw [hwhole, firstArgs]
  simp only [List.append_assoc]
  rw [cutMarker_append_of_marked _ hm]

theorem valueText_restArgs_length :
    valueText (c.second c.args.length ++ c.result) (c.restArgs c.args.length).2 = some c.value := by
  obtain ⟨q, hq, hq', h⟩ := c.restArgs_length
  have hnil : c.second c.args.length = [] := by
    rw [second, List.drop_length]
    rfl
  rw [h, hnil]
  exact c.valueText_of_notMem (by simpa using hq') (by simp)

/-- The first half contains the marker. -/
theorem halvesAgree_of_marker (hk : k ≤ c.args.length) (hm : unfinishedMarker <:+: c.first k) :
    c.HalvesAgree tracer k ↔
      k = c.args.length ∧ '=' ∉ (c.first k).drop (cutMarker (c.first k)).length := by
  obtain ⟨hwhole, hfirst⟩ := c.wholeArgs_of_marker tracer k hk hm
  rw [HalvesAgree, hfirst, List.append_right_eq_self]
  rcases hk.lt_or_eq with hlt | rfl
  · have hne : (c.secondArgs tracer k).1 ≠ [] := by
      cases tracer with
      | strace =>
        rw [c.secondArgs_strace]
        exact (c.restArgs_result k).2 hlt
      | ltrace =>
        rw [c.secondArgs_ltrace k hlt]
        simp
    simp [hne, hlt.ne]
  · have hprint : printList Field.text c.args = c.first c.args.length := by
      rw [first, List.take_length]
    have hpos : c.wholeArgs.2 = (cutMarker (c.first c.args.length)).length := by
      rw [hwhole]
      exact (parseCallArguments_marked hm).2
    obtain ⟨q, -, -, hrest⟩ := c.restArgs_length
    have hvalue := c.valueText_restArgs_length
    have hsep : c.secondSeparator tracer c.args.length = [] := if_neg (by simp)
    rw [c.secondArgs_length, hsep, List.nil_append, hvalue, hprint, hpos, hrest]
    simp only [true_and]
    constructor
    · intro heq hmem
      obtain ⟨r, hr, hne⟩ := c.valueText_of_mem hmem
      rw [hr, Option.some.injEq] at heq
      exact hne heq.symm
    · intro hnot
      exact (c.valueText_of_notMem ((length_cutMarker_le _).trans (Nat.le_add_right _ 2)) hnot).symm

theorem halvesAgree_length (hm : ¬ unfinishedMarker <:+: c.first c.args.length) :
    c.HalvesAgree tracer c.args.length ↔ c.LastKept := by
  have hprint : printList Field.text c.args = c.first c.args.length := by
    rw [first, List.take_length]
  have hsep : c.secondSeparator tracer c.args.length = [] := if_neg (by simp)
  have hsep' : c.firstSeparator tracer c.args.length = [] := if_neg (by simp)
  obtain ⟨q, -, -, hrest⟩ := c.restArgs_length
  rw [first, List.take_length] at hm
  obtain ⟨q', hq, hq', hwhole⟩ := parseCallArguments_closed hm ([' '] ++ c.ret ++ [' '] ++ c.time.print)
  rw [List.append_assoc, ← c.result_append, ← List.append_assoc] at hwhole
  have hfirst := parseCallArguments_first hm ['\n']
  have hvalue : valueText (printList Field.text c.args ++ c.result) q' = some c.value :=
    c.valueText_of_notMem hq' (by rw [List.drop_of_length_le (by omega)]; simp)
  rw [HalvesAgree, c.secondArgs_length, hsep, List.nil_append, c.valueText_restArgs_length, hrest,
    wholeArgs, hwhole, firstArgs, hsep', first, List.take_length, hfirst, hvalue]
  simp only [List.append_nil, and_true]
  rw [closedArgs, openList_eq_iff, LastKept]
  exact forall₂_congr fun a _ => openArg_eq_iff a.text

theorem halvesAgree_strace (hk : k < c.args.length) (hm : ¬ unfinishedMarker <:+: c.first k) :
    c.HalvesAgree .strace k := by
  have hsep : c.secondSeparator .strace k = [] := if_neg (by simp)
  rw [HalvesAgree, c.secondArgs_strace, hsep, List.nil_append]
  rcases Nat.eq_zero_or_pos k with rfl | hpos
  · have hwhole : c.wholeArgs = c.restArgs 0 := by
      rw [wholeArgs, restArgs, second, List.drop_zero]
    have hfirst : c.firstArgs .strace 0 = [] := by
      rw [firstArgs, firstSeparator, if_neg (by simp), first, List.take_zero]
      exact parseCallArguments_first (by decide) ['\n']
    rw [hwhole, hfirst, second, List.drop_zero]
    exact ⟨rfl, rfl⟩
  · have hprint := c.print_split k hpos hk
    have hsep' : c.firstSeparator .strace k = [',', ' '] := if_pos ⟨rfl, hpos, hk⟩
    have hts : c.args.take k ≠ [] := List.ne_nil_of_length_pos (by rw [List.length_take]; omega)
    have hwhole := parseCallArguments_separator hts hm
      (x := c.second k ++ c.result ++ c.time.print) (c.head_second k _)
    have hfirst := parseCallArguments_first_separator hts hm ['\n']
    have hw : c.wholeArgs = (closedArgs (c.args.take k) ++ (c.restArgs k).1,
        (c.first k).length + 2 + (c.restArgs k).2) := by
      rw [wholeArgs, hprint, restArgs, first, ← hwhole]
      simp only [List.append_assoc]
    have hlen : (c.first k).length + 2 = (c.first k ++ [',', ' ']).length := by simp
    rw [hw, firstArgs, hsep', first, hfirst]
    refine ⟨rfl, ?_⟩
    rw [← first, hlen, hprint, List.append_assoc _ (c.second k), valueText_append]

theorem not_halvesAgree_ltrace (hk : k < c.args.length) (hm : ¬ unfinishedMarker <:+: c.first k) :
    ¬ c.HalvesAgree .ltrace k := by
  rintro ⟨hargs, -⟩
  have hlen := congrArg List.length hargs
  have hsep : c.firstSeparator .ltrace k = [] := if_neg (by simp)
  have hfirst : c.firstArgs .ltrace k = openList Field.text (c.args.take k) := by
    rw [firstArgs, hsep]
    exact parseCallArguments_first hm ['\n']
  rw [hfirst, c.secondArgs_ltrace k hk, List.length_append, length_openList, List.length_take,
    min_eq_left hk.le, List.length_cons] at hlen
  rcases Nat.eq_zero_or_pos k with rfl | hpos
  · have hwhole : c.wholeArgs = c.restArgs 0 := by
      rw [wholeArgs, restArgs, second, List.drop_zero]
    rw [hwhole] at hlen
    omega
  · have hts : c.args.take k ≠ [] := List.ne_nil_of_length_pos (by rw [List.length_take]; omega)
    have hwhole := parseCallArguments_separator hts hm
      (x := c.second k ++ c.result ++ c.time.print) (c.head_second k _)
    have hw : c.wholeArgs.1 = closedArgs (c.args.take k) ++ (c.restArgs k).1 := by
      rw [wholeArgs, c.print_split k hpos hk, restArgs]
      have h := congrArg Prod.fst hwhole
      simp only [List.append_assoc] at h ⊢
      exact h
    rw [hw, List.length_append, length_closedArgs, List.length_take, min_eq_left hk.le] at hlen
    omega

theorem secondArgs_le (hk : k ≤ c.args.length) :
    (c.secondArgs tracer k).2 ≤ (c.secondSeparator tracer k ++ c.second k).length + 2 := by
  have hrest := (c.restArgs_result k).1
  rw [List.length_append]
  rcases hk.lt_or_eq with hlt | rfl
  · cases tracer with
    | strace =>
      rw [c.secondArgs_strace]
      omega
    | ltrace =>
      rw [c.secondArgs_ltrace k hlt, show c.secondSeparator .ltrace k = [',', ' '] from
        if_pos ⟨rfl, hlt⟩]
      simp only [List.length_cons, List.length_nil]
      omega
  · rw [c.secondArgs_length]
    omega

theorem wholeArgs_le : c.wholeArgs.2 ≤ (printList Field.text c.args).length + 2 := by
  have h := (parseCallArguments_result c.args ([' '] ++ c.ret ++ [' '] ++ c.time.print)).1
  rwa [List.append_assoc, ← c.result_append, ← List.append_assoc] at h

/-- **The halves agree with the whole** exactly for the splits that are right. -/
theorem halvesAgree_iff (hk : k ≤ c.args.length) : c.HalvesAgree tracer k ↔ c.SplitOk tracer k := by
  unfold SplitOk
  split
  · rename_i hm
    exact c.halvesAgree_of_marker tracer k hk hm
  · rename_i hm
    rcases hk.lt_or_eq with hlt | rfl
    · cases tracer with
      | strace => simp [c.halvesAgree_strace k hlt hm, hlt]
      | ltrace => simp [c.not_halvesAgree_ltrace k hlt hm, hlt.ne]
    · simp [c.halvesAgree_length tracer hm]

end PrintedCall

/-! ## Reading the lines -/

theorem afterArrow_cons {c : Char} {s : Text} (h : c = '-' → s.head? ≠ some '>') (acc : Text) :
    afterArrow acc (c :: s) = afterArrow (c :: acc) s := by
  rw [afterArrow]
  rintro t rfl rfl
  exact h rfl rfl

theorem afterArrow_append_sys (s acc : Text) :
    afterArrow acc (s ++ sysSuffix) = afterArrow acc s ++ sysSuffix := by
  fun_induction afterArrow acc s with
  | case1 acc => simp [sysSuffix, afterArrow]
  | case2 acc s ih => exact ih
  | case3 acc c s hno ih =>
    rw [List.cons_append, afterArrow_cons, ih]
    rintro rfl hhead
    cases s with
    | nil => simp [sysSuffix] at hhead
    | cons d s =>
      rw [List.cons_append, List.head?_cons, Option.some.injEq] at hhead
      exact hno s rfl (by rw [hhead])

/-- The name is the same on the three lines. -/
theorem setFunction_printed (f : FunctionName) (tracer : Tracer) {status : BatchStatus}
    (hs : status ≠ .resumed) :
    setFunction tracer status (f.printed tracer).text = setFunction tracer .resumed f.text := by
  cases tracer with
  | strace => rfl
  | ltrace =>
    simp only [setFunction, if_neg hs, if_true]
    exact afterArrow_append_sys f.text []

/-- A first half is read, and put on its stack. -/
def feedUnfinished (env : Env) (tracer : Tracer) (oneLine : Text) : WorldM Unit := do
  match ← createBatchCore env tracer oneLine with
  | some batchCore => onStore (pushBatch batchCore)
  | none => return ()

/-- A second half is read, and merged with the first one. -/
def feedResumed (env : Env) (tracer : Tracer) (oneLine : Text) : WorldM (Option CoreId) := do
  match ← createBatchCore env tracer oneLine with
  | some batchCore => onStore (mergePopBatch batchCore)
  | none => return none

/-- Any number of lines of other processes. -/
inductive OtherLines (env : Env) (pid : ℤ) : World → World → Prop
  | none (w : World) : OtherLines env pid w w
  | line {w w' w'' : World} {core : BatchLetCore} {r : Option Batch}
      (h : OtherLines env pid w w') (hfresh : FreshCore core) (hpid : core.pid ≠ pid)
      (hrun : (processCore env core).run w' = (.ok r, w'')) : OtherLines env pid w w''

/-- Two cores of the same call. -/
def SameCall (core core' : BatchLetCore) : Prop :=
  core.funcNam = core'.funcNam ∧ core.parsedArgs = core'.parsedArgs ∧
    core.retValue = core'.retValue

/-- What a process sees of the store. -/
structure SameFor (pid : ℤ) (u u' : UnfinishedBatches) : Prop where
  core? : ∀ id : CoreId, id.pid = pid → u'.core? id = u.core? id
  stack : ∀ f, u'.stack pid f = u.stack pid f

theorem OtherLines.store {env : Env} {pid : ℤ} {w w' : World} (h : OtherLines env pid w w')
    (hinv : w.store.PairingInv) : w'.store.PairingInv ∧ SameFor pid w.store w'.store := by
  induction h with
  | none => exact ⟨hinv, fun _ _ => rfl, fun _ => rfl⟩
  | line _ hfresh hpid hrun ih =>
    obtain ⟨hinv', hcore, hstack⟩ := ih
    have hstep := storeStep_of_processCore hrun
    obtain ⟨hcore', hstack'⟩ := hstep.other hinv' hfresh hpid
    exact ⟨hinv'.storeStep hfresh hstep, fun id hid => (hcore' id hid).trans (hcore id hid),
      fun f => (hstack' f).trans (hstack f)⟩

theorem run_createBatchCore {env : Env} {tracer : Tracer} {oneLine : Text} {core : BatchLetCore}
    (h : parseLine env.topProcessId tracer oneLine = .ok (some core)) :
    createBatchCore env tracer oneLine = some <$> admitCore env core := by
  rw [createBatchCore, h]

/-- A line that is read makes the next core of its process. -/
theorem run_createBatchCore_eq_ok {env : Env} {tracer : Tracer} {oneLine : Text}
    {core : BatchLetCore} {w w' : World} {o : Option CoreId}
    (h : parseLine env.topProcessId tracer oneLine = .ok (some core))
    (hrun : (createBatchCore env tracer oneLine).run w = (.ok o, w')) :
    o = some (w.store.nextId core.pid) ∧ w'.store = w.store.addCore core := by
  rw [run_createBatchCore h, Py.run_map, Prod.mk.injEq] at hrun
  obtain ⟨hres, hw'⟩ := hrun
  generalize hadmit : (admitCore env core).run w = x at hres hw'
  obtain ⟨_ | id, v⟩ := x
  · cases hres
  · cases hres
    cases hw'
    obtain ⟨rfl, hstore⟩ := run_admitCore hadmit
    exact ⟨rfl, hstore⟩

/-- A first half that is read is on its stack. -/
theorem store_feedUnfinished {env : Env} {tracer : Tracer} {oneLine : Text} {core : BatchLetCore}
    {w w' : World} (h : parseLine env.topProcessId tracer oneLine = .ok (some core))
    (hrun : (feedUnfinished env tracer oneLine).run w = (.ok (), w')) :
    w'.store = w.store.pushed core := by
  rw [feedUnfinished, Py.run_bind_eq_ok] at hrun
  obtain ⟨o, w₁, hcreate, hpush⟩ := hrun
  obtain ⟨rfl, hstore⟩ := run_createBatchCore_eq_ok h hcreate
  rw [run_onStore, hstore, run_pushBatch, Prod.mk.injEq] at hpush
  exact hpush.2 ▸ rfl

theorem store_feedResumed {env : Env} {tracer : Tracer} {oneLine : Text} {core : BatchLetCore}
    {w w' : World} {r : Option CoreId}
    (h : parseLine env.topProcessId tracer oneLine = .ok (some core))
    (hrun : (feedResumed env tracer oneLine).run w = (.ok r, w')) :
    (mergePopBatch (w.store.nextId core.pid)).run (w.store.addCore core) = (.ok r, w'.store) := by
  rw [feedResumed, Py.run_bind_eq_ok] at hrun
  obtain ⟨o, w₁, hcreate, hmerge⟩ := hrun
  obtain ⟨rfl, hstore⟩ := run_createBatchCore_eq_ok h hcreate
  rw [run_onStore, hstore, Prod.mk.injEq] at hmerge
  exact Prod.ext hmerge.1 (hmerge.2 ▸ rfl)

/-- The merged core of two halves, around lines of other processes. -/
theorem merged_of_halves {env : Env} {tracer : Tracer} {line₁ line₂ : Text} {a b : BatchLetCore}
    {w w₁ w₂ w₃ : World} {r : Option CoreId} (hw : w.store.PairingInv)
    (ha : parseLine env.topProcessId tracer line₁ = .ok (some a))
    (hb : parseLine env.topProcessId tracer line₂ = .ok (some b))
    (hsa : a.status = .unfinished) (hsb : b.status = .resumed) (hpid : a.pid = b.pid)
    (hf : a.funcNam = b.funcNam) (h₁ : (feedUnfinished env tracer line₁).run w = (.ok (), w₁))
    (hother : OtherLines env a.pid w₁ w₂)
    (h₂ : (feedResumed env tracer line₂).run w₂ = (.ok r, w₃)) :
    ∃ id m, r = some id ∧ w₃.store.core? id = some m ∧ m.status = .merged ∧
      m.funcNam = b.funcNam ∧ m.parsedArgs = a.parsedArgs ++ b.parsedArgs ∧
      m.retValue = b.retValue := by
  have hw₁ := store_feedUnfinished ha h₁
  have hinv₁ : w₁.store.PairingInv := hw₁ ▸ hw.pushed (fresh_of_parseLine ha) hsa
  obtain ⟨hinv₂, hcore, hstack⟩ := hother.store hinv₁
  have hadd : (w₂.store.addCore b).PairingInv :=
    hinv₂.addCore (fresh_of_parseLine hb) (by simp [hsb])
  have hlast : ((w₂.store.addCore b).stack b.pid b.funcNam).getLast? =
      some (w.store.nextId a.pid) := by
    rw [UnfinishedBatches.stack_addCore, ← hpid, ← hf, hstack, hw₁,
      UnfinishedBatches.pushed, UnfinishedBatches.stack_setStack, if_pos ⟨rfl, rfl⟩,
      List.getLast?_concat]
  have hleft : (w₂.store.addCore b).core? (w.store.nextId a.pid) = some a := by
    refine UnfinishedBatches.core?_addCore_of_some b ?_
    rw [hcore _ rfl, hw₁]
    exact w.store.core?_addCore_nextId a
  rcases hadd.run_mergePopBatch (w₂.store.core?_addCore_nextId b) hsb with
    ⟨hnil, -⟩ | ⟨i, a', u', hl, hm, hu', hrun⟩
  · rw [hnil] at hlast
    cases hlast
  · rw [hlast, Option.some.injEq] at hl
    subst hl
    have ha' := hm.left
    rw [hleft, Option.some.injEq] at ha'
    subst ha'
    obtain ⟨hr, hw₃⟩ := Prod.mk.inj (hrun.symm.trans (store_feedResumed hb h₂))
    have hright := hu'.core?_right
    rw [hw₃] at hright
    exact ⟨_, _, (Except.ok.inj hr).symm, hright, rfl, rfl, rfl, rfl⟩

/-- **A split call is the whole call**, exactly for the splits that are right. -/
theorem split_call_iff {env : Env} {c : PrintedCall} {tracer : Tracer} {k : ℕ}
    (hk : k ≤ c.args.length) {h₀ h₁ h₂ : LineHead}
    (hpid : ∀ h ∈ [h₀, h₁, h₂], h.shown = false → (c.pid : ℤ) = env.topProcessId)
    {w w₁ w₂ w₃ : World} {r : Option CoreId} (hw : Reachable env w)
    (hfirst : (feedUnfinished env tracer (c.firstLine tracer k h₁)).run w = (.ok (), w₁))
    (hother : OtherLines env c.pid w₁ w₂)
    (hsecond : (feedResumed env tracer (c.secondLine tracer k h₂)).run w₂ = (.ok r, w₃)) :
    ∃ whole id merged, parseLine env.topProcessId tracer (c.wholeLine tracer h₀) = .ok (some whole) ∧
      r = some id ∧ w₃.store.core? id = some merged ∧ merged.status = .merged ∧
      (SameCall merged whole ↔ c.SplitOk tracer k) := by
  obtain ⟨hpid₀, hpid₁, hpid₂⟩ : (h₀.shown = false → (c.pid : ℤ) = env.topProcessId) ∧
      (h₁.shown = false → (c.pid : ℤ) = env.topProcessId) ∧
      (h₂.shown = false → (c.pid : ℤ) = env.topProcessId) := by
    simpa using hpid
  obtain ⟨v, hv⟩ := c.exists_valueText c.wholeArgs_le
  obtain ⟨v', hv'⟩ := c.exists_valueText (c.secondArgs_le tracer k hk)
  have hwhole := parseLine_call env.topProcessId c.pid tracer h₀ (c.name.printed tracer)
    (printList Field.text c.args ++ c.result) c.time (e := ['\n']) (by decide) hv
  have hunf := parseLine_unfinished env.topProcessId c.pid tracer h₁ (c.name.printed tracer)
    (c.first k ++ c.firstSeparator tracer k ++ [' ']) (e := ['\n']) (by decide)
  have hres := parseLine_resumed env.topProcessId c.pid tracer h₂ c.name
    (c.secondSeparator tracer k ++ c.second k ++ c.result) c.time (e := ['\n']) (by decide) hv'
  rw [LineHead.readPid_eq hpid₀] at hwhole
  rw [LineHead.readPid_eq hpid₁] at hunf
  rw [LineHead.readPid_eq hpid₂] at hres
  obtain ⟨id, m, hr, hm, hsm, hfm, hargs, hret⟩ := merged_of_halves hw.pairingInv hunf hres rfl rfl rfl
    (setFunction_printed c.name tracer (by decide)) hfirst hother hsecond
  refine ⟨_, id, m, hwhole, hr, hm, hsm, ?_⟩
  rw [← c.halvesAgree_iff tracer k hk, SameCall, hfm, hargs, hret]
  simp only [parsedCore, setFunction_printed c.name tracer (show BatchStatus.plain ≠ .resumed by decide),
    true_and]
  rw [PrintedCall.HalvesAgree, hv, hv']
  rfl

/-- The head of a line of the main process. -/
def LineHead.main : LineHead :=
  ⟨false, "14:56:54.296251".toList, by decide, (by decide : some '1' ≠ some '[')⟩

/-- A read of two bytes by the process 7. -/
def readCall : PrintedCall where
  pid := 7
  name := ⟨"read".toList, by decide, by decide⟩
  args := [.leaf ⟨"3".toList, ⟨rfl, by decide, by decide⟩, by decide⟩,
    .leaf ⟨"\"ab\"".toList, ⟨rfl, by decide, by decide⟩, by decide⟩]
  ret := "2".toList
  time := ⟨"0".toList, "000513".toList, List.cons_ne_nil '0' [], by decide⟩

/-- The world after its first half, and after both. -/
def readWorlds (tracer : Tracer) : World × World :=
  let env : Env := .replayed 7 "/".toList
  let w := ((feedUnfinished env tracer (readCall.firstLine tracer 1 .main)).run .init).2
  (w, ((feedResumed env tracer (readCall.secondLine tracer 1 .main)).run w).2)

theorem split_call_iff_read : ∃ whole id merged,
    parseLine 7 .strace (readCall.wholeLine .strace .main) = .ok (some whole) ∧
      some ⟨7, 1⟩ = some id ∧ (readWorlds .strace).2.store.core? id = some merged ∧
      merged.status = .merged ∧ (SameCall merged whole ↔ readCall.SplitOk .strace 1) := by
  refine @split_call_iff (.replayed 7 "/".toList) readCall .strace 1 (by decide) .main .main .main
    (by simp [readCall, Env.replayed]) .init (readWorlds .strace).1 (readWorlds .strace).1
    (readWorlds .strace).2 _ .init (Prod.ext ?_ rfl) (.none _) (Prod.ext ?_ rfl)
  · decide +kernel
  · decide +kernel

/-- With `ltrace` the merged core has an empty argument too many. -/
theorem split_read_ltrace_differs :
    ¬ ∀ (env : Env) (c : PrintedCall) (tracer : Tracer) (k : ℕ) (h₀ h₁ h₂ : LineHead)
      (w w₁ w₂ w₃ : World) (r : Option CoreId), k ≤ c.args.length →
      (∀ h ∈ [h₀, h₁, h₂], h.shown = false → (c.pid : ℤ) = env.topProcessId) →
      Reachable env w →
      (feedUnfinished env tracer (c.firstLine tracer k h₁)).run w = (.ok (), w₁) →
      OtherLines env c.pid w₁ w₂ →
      (feedResumed env tracer (c.secondLine tracer k h₂)).run w₂ = (.ok r, w₃) →
      ∃ whole id merged,
        parseLine env.topProcessId tracer (c.wholeLine tracer h₀) = .ok (some whole) ∧
        r = some id ∧ w₃.store.core? id = some merged ∧ SameCall merged whole := by
  intro h
  obtain ⟨whole, id, merged, hwhole, hid, hmerged, -, hargs, -⟩ :=
    h (.replayed 7 "/".toList) readCall .ltrace 1 .main .main .main .init (readWorlds .ltrace).1
      (readWorlds .ltrace).1 (readWorlds .ltrace).2 (some ⟨7, 1⟩) (by decide)
      (by simp [readCall, Env.replayed]) .init (Prod.ext (by decide +kernel) rfl) (.none _)
      (Prod.ext (by decide +kernel) rfl)
  cases hid
  have hread : (parseLine 7 .ltrace (readCall.wholeLine .ltrace .main)).map
        (fun o => o.map BatchLetCore.parsedArgs) =
        .ok (some [.str "3".toList, .str "ab".toList]) ∧
      ((readWorlds .ltrace).2.store.core? ⟨7, 1⟩).map BatchLetCore.parsedArgs =
        some [.str "3".toList, .str [], .str "ab".toList] := by
    decide +kernel
  obtain ⟨hw, hm⟩ := hread
  rw [show parseLine 7 .ltrace (readCall.wholeLine .ltrace .main) = _ from hwhole] at hw
  rw [hmerged, Option.map_some, Option.some.injEq, hargs] at hm
  simp only [Except.map, Option.map_some, hm] at hw
  exact absurd hw (by decide)

end Survol.Dockit
