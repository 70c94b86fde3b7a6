import Survol.Dockit.ArgumentsHalves
import Survol.Dockit.BatchCore
import Survol.Lib.Decimal
import Survol.Lib.Positions

/-!
# Printed calls

The lines that a tracer prints for a call, whole or in two halves, and what
`parseLine` makes of their head, their function, their end and their returned
value. The arguments are what the argument parser makes of the text up to the
unfinished marker.

## Main definitions

* `LineHead` — the pid and the time-stamp of a line.
* `FunctionName`, `ExecTime` — the name of a function, and an execution time.
* `valueText` — the returned value, read after the arguments.

## Main results

* `parseLine_call`, `parseLine_unfinished`, `parseLine_resumed`.
-/

open PyText

namespace Survol.Dockit

/-! ## Numbers -/

theorem decimal_natCast (n : ℕ) : decimal n = Nat.toDigits 10 n :=
  Nat.toList_repr

theorem isDigit_of_mem_decimal {n : ℕ} {c : Char} (h : c ∈ decimal n) : c.isDigit = true := by
  rw [decimal_natCast] at h
  exact Nat.isDigit_of_mem_toDigits (by decide) (by decide) h

/-- The pid is read back. -/
theorem int?_decimal (n : ℕ) : int? (' ' :: decimal n) = some (n : ℤ) := by
  have hd : ∀ d ∈ decimal n, d.isDigit = true := fun d => isDigit_of_mem_decimal
  have hne : decimal n ≠ [] := by
    rw [decimal_natCast]
    exact Nat.toDigits_ne_nil
  have hstrip : strip ([' '] ++ decimal n ++ []) = decimal n :=
    strip_blanks (by decide) (by simp) hd hne
  rw [List.append_nil, decimal_natCast] at hstrip
  rw [decimal_natCast]
  exact int?_of_strip hstrip

/-- The head of a line: the pid, which is not printed for the main process when it
is alone, and the time-stamp. -/
structure LineHead where
  shown : Bool
  aTimeStamp : Text
  length_aTimeStamp : aTimeStamp.length = 15
  head_aTimeStamp : aTimeStamp.head? ≠ some '['

/-- A line up to its call. -/
def LineHead.print (h : LineHead) (pid : ℕ) : Text :=
  (if h.shown then "[pid ".toList ++ decimal pid ++ "] ".toList else []) ++ h.aTimeStamp ++ [' ']

/-- The pid of a line: the one that is printed, or that of the main process. -/
def LineHead.readPid (h : LineHead) (topProcessId : ℤ) (pid : ℕ) : ℤ :=
  if h.shown then pid else topProcessId

theorem LineHead.readPid_eq {h : LineHead} {topProcessId : ℤ} {pid : ℕ}
    (hpid : h.shown = false → (pid : ℤ) = topProcessId) : h.readPid topProcessId pid = pid := by
  cases hs : h.shown with
  | true => exact if_pos hs
  | false => exact (if_neg (by simp [hs])).trans (hpid hs).symm

/-- The head of a line is read back. -/
theorem parseLine_head (topProcessId : ℤ) (tracer : Tracer) (h : LineHead) (pid : ℕ)
    (theCall : Text) :
    ∃ idxStart, parseLine topProcessId tracer (h.print pid ++ theCall) =
        initAfterPid tracer (h.readPid topProcessId pid) (h.print pid ++ theCall) idxStart ∧
      slice (h.print pid ++ theCall) idxStart (idxStart + 15) = h.aTimeStamp ∧
      (h.print pid ++ theCall).drop (idxStart + 16) = theCall := by
  have hstamp : ∀ pre : Text, slice (pre ++ (h.aTimeStamp ++ ' ' :: theCall)) pre.length
        (pre.length + 15) = h.aTimeStamp ∧
      (pre ++ (h.aTimeStamp ++ ' ' :: theCall)).drop (pre.length + 16) = theCall := by
    intro pre
    have hs := slice_append pre (h.aTimeStamp ++ ' ' :: theCall) 0 15
    rw [Nat.add_zero] at hs
    constructor
    · rw [hs, slice, List.drop_zero, ← h.length_aTimeStamp, List.take_left]
    · have hlen : 16 = (h.aTimeStamp ++ [' ']).length := by simp [h.length_aTimeStamp]
      rw [← List.drop_drop, List.drop_left, hlen, show h.aTimeStamp ++ ' ' :: theCall =
        (h.aTimeStamp ++ [' ']) ++ theCall by simp, List.drop_left]
  cases hshown : h.shown with
  | false =>
    have hline : h.print pid ++ theCall = h.aTimeStamp ++ ' ' :: theCall := by
      simp [LineHead.print, hshown]
    have hno : "[pid".toList.isPrefixOf (h.aTimeStamp ++ ' ' :: theCall) = false := by
      obtain ⟨c, t, ht⟩ : ∃ c t, h.aTimeStamp = c :: t :=
        List.exists_cons_of_ne_nil (by
          intro hnil
          have := h.length_aTimeStamp
          simp [hnil] at this)
      have hc := h.head_aTimeStamp
      rw [ht, List.head?_cons, ne_eq, Option.some.injEq] at hc
      rw [ht, Bool.eq_false_iff, ne_eq, List.isPrefixOf_iff_prefix]
      intro hp
      exact hc (List.cons_prefix_cons.mp hp).1.symm
    have hst := hstamp []
    refine ⟨0, ?_, ?_⟩
    · rw [hline, parseLine, hno, LineHead.readPid, hshown]
      rfl
    · rw [hline]
      exact hst
  | true =>
    set pre := "[pid ".toList ++ decimal pid ++ "] ".toList with hpre
    have hline : h.print pid ++ theCall = pre ++ (h.aTimeStamp ++ ' ' :: theCall) := by
      simp [LineHead.print, hshown, hpre]
    set rest := ' ' :: (h.aTimeStamp ++ ' ' :: theCall) with hrest
    have hsplit : pre ++ (h.aTimeStamp ++ ' ' :: theCall) =
        ("[pid ".toList ++ decimal pid) ++ ']' :: rest := by
      simp [hpre, hrest]
    have hnot : ']' ∉ "[pid ".toList ++ decimal pid := by
      rw [List.mem_append, not_or]
      exact ⟨by decide, fun hm => absurd (isDigit_of_mem_decimal hm) (by decide)⟩
    have hlen : ("[pid ".toList ++ decimal pid).length = 5 + (decimal pid).length := by
      rw [List.length_append]
      rfl
    have hplen : pre.length = 5 + (decimal pid).length + 2 := by
      rw [hpre, List.length_append, hlen]
      rfl
    have hyes : "[pid".toList.isPrefixOf (pre ++ (h.aTimeStamp ++ ' ' :: theCall)) = true := by
      rw [List.isPrefixOf_iff_prefix]
      exact ⟨' ' :: (decimal pid ++ "] ".toList ++ (h.aTimeStamp ++ ' ' :: theCall)), by
        simp [hpre]⟩
    have hslice : pySlice (pre ++ (h.aTimeStamp ++ ' ' :: theCall)) 4
        ((5 + (decimal pid).length : ℕ) : ℤ) = ' ' :: decimal pid := by
      refine (pySlice_natCast (pre ++ (h.aTimeStamp ++ ' ' :: theCall)) 4 _).trans ?_
      rw [hsplit, slice, ← hlen, List.take_left]
      rfl
    refine ⟨pre.length, ?_, ?_⟩
    · have hfind : findIdx [']'] (pre ++ (h.aTimeStamp ++ ' ' :: theCall)) =
          some (5 + (decimal pid).length) := by
        rw [hsplit, findIdx_char hnot, hlen]
      rw [hline, parseLine, if_pos hyes, hfind, posOrMinusOne]
      dsimp only
      have hidx : (((5 + (decimal pid).length : ℕ) : ℤ) + 2).toNat = pre.length := by omega
      rw [hslice, int?_decimal, hidx, LineHead.readPid, if_pos hshown]
    · rw [hline]
      exact hstamp pre

/-! ## The function -/

/-- The name of a function. -/
structure FunctionName where
  text : Text
  ne_nil : text ≠ []
  chars : ∀ c ∈ text, c ≠ '(' ∧ c ≠ ' '

variable {tracer : Tracer} {pid : ℤ} {oneLine aTimeStamp theCall : Text} {idxStart : ℕ}

/-- A call does not begin with a text that has a space before any parenthesis. -/
theorem not_prefix_call (f : FunctionName) {m : Text} (rest : Text) (hm : '(' ∉ m) (hs : ' ' ∈ m) :
    ¬ m <+: f.text ++ '(' :: rest := by
  intro hp
  have hsub := (prefix_of_prefix_append_cons hp hm).subset hs
  exact (f.chars ' ' hsub).2 rfl

/-- A whole call, or its first half. -/
theorem initAfterPid_call (f : FunctionName) (rest : Text)
    (hstamp : slice oneLine idxStart (idxStart + 15) = aTimeStamp)
    (hcall : oneLine.drop (idxStart + 16) = f.text ++ '(' :: rest) :
    initAfterPid tracer pid oneLine idxStart =
      some <$> coreOfCall tracer pid aTimeStamp (f.text ++ '(' :: rest)
        (lineEnd (f.text ++ '(' :: rest)).status
        (setFunction tracer (lineEnd (f.text ++ '(' :: rest)).status f.text)
        (f.text.length + 1) := by
  have hsignal : ¬ ("--- ".toList.isPrefixOf (f.text ++ '(' :: rest) = true ∨
      "+++ ".toList.isPrefixOf (f.text ++ '(' :: rest) = true) := by
    rw [List.isPrefixOf_iff_prefix, List.isPrefixOf_iff_prefix, not_or]
    exact ⟨not_prefix_call f rest (by decide) (by decide),
      not_prefix_call f rest (by decide) (by decide)⟩
  have hresume : matchResume (f.text ++ '(' :: rest) = none := by
    rw [matchResume, if_neg]
    rw [List.isPrefixOf_iff_prefix]
    exact not_prefix_call f rest (by decide) (by decide)
  have hpar : findIdx ['('] (f.text ++ '(' :: rest) = some f.text.length :=
    findIdx_char (fun h => (f.chars _ h).1 rfl) rest
  obtain ⟨n, hn⟩ : ∃ n, f.text.length = n + 1 :=
    Nat.exists_eq_succ_of_ne_zero (by simpa using f.ne_nil)
  rw [initAfterPid]
  simp only [hcall, hstamp, if_neg hsignal, hresume, hpar, hn]
  rw [← hn, List.take_left, hn]

/-- The second half of a call. -/
theorem initAfterPid_resumed (f : FunctionName) (rest : Text)
    (hstamp : slice oneLine idxStart (idxStart + 15) = aTimeStamp)
    (hcall : oneLine.drop (idxStart + 16) =
      ("<... ".toList ++ f.text ++ " resumed> ".toList) ++ rest) :
    initAfterPid tracer pid oneLine idxStart =
      some <$> coreOfCall tracer pid aTimeStamp
        (("<... ".toList ++ f.text ++ " resumed> ".toList) ++ rest) .resumed
        (setFunction tracer .resumed f.text)
        ("<... ".toList ++ f.text ++ " resumed> ".toList).length := by
  have hlen : ("<... ".toList ++ f.text ++ " resumed> ".toList).length = 5 + f.text.length + 10 := by
    simp
    omega
  have hresume : matchResume (("<... ".toList ++ f.text ++ " resumed> ".toList) ++ rest) =
      some (f.text, 5 + f.text.length + 10) := by
    have hdrop : (("<... ".toList ++ f.text ++ " resumed> ".toList) ++ rest).drop 5 =
        f.text ++ (" resumed> ".toList ++ rest) := by
      simp
    have hname : (f.text ++ (" resumed> ".toList ++ rest)).takeWhile (· ≠ ' ') = f.text := by
      rw [List.takeWhile_append_of_pos]
      · simp
      · intro c hc
        simpa using (f.chars c hc).2
    have hrest : (("<... ".toList ++ f.text ++ " resumed> ".toList) ++ rest).drop
        (5 + f.text.length) = " resumed> ".toList ++ rest := by
      rw [← List.drop_drop, hdrop, List.drop_left]
    rw [matchResume, if_pos]
    · simp only [hdrop, hname, hrest]
      rw [if_pos]
      rw [List.isPrefixOf_iff_prefix]
      exact List.prefix_append _ _
    · rw [List.isPrefixOf_iff_prefix]
      exact ⟨f.text ++ " resumed> ".toList ++ rest, by simp⟩
  have hsignal : ¬ ("--- ".toList.isPrefixOf
        (("<... ".toList ++ f.text ++ " resumed> ".toList) ++ rest) = true ∨
      "+++ ".toList.isPrefixOf
        (("<... ".toList ++ f.text ++ " resumed> ".toList) ++ rest) = true) := by
    simp
  rw [initAfterPid]
  simp only [hcall, hstamp, if_neg hsignal, hresume, hlen]

/-! ## The end of a line -/

/-- An execution time, in seconds. -/
structure ExecTime where
  seconds : Text
  fraction : Text
  seconds_ne_nil : seconds ≠ []
  digits : ∀ c ∈ seconds ++ fraction, c.isDigit = true

/-- An execution time as it is printed. -/
def ExecTime.text (t : ExecTime) : Text := t.seconds ++ '.' :: t.fraction

theorem ExecTime.chars (t : ExecTime) : ∀ c ∈ t.text, c.isDigit = true ∨ c = '.' := by
  intro c hc
  rw [ExecTime.text, List.mem_append, List.mem_cons] at hc
  rcases hc with hc | rfl | hc
  · exact .inl (t.digits c (List.mem_append_left _ hc))
  · exact .inr rfl
  · exact .inl (t.digits c (List.mem_append_right _ hc))

/-- The end of a complete line. -/
def ExecTime.print (t : ExecTime) : Text := '<' :: t.text ++ ">\n".toList

/-- The time at the end of a line, before what ends the line. -/
def ExecTime.printUpTo (t : ExecTime) (lineBreak : Text) : Text :=
  '<' :: (t.text ++ '>' :: lineBreak)

/-- The end of a line with something between its last angle brackets. -/
theorem lineEnd_brackets (a t : Text) {e : Text} (hlt : '<' ∉ t) (he : '>' ∉ e) :
    lineEnd (a ++ '<' :: (t ++ '>' :: e)) =
      if t = "unfinished ...".toList then ⟨a.length, .unfinished, []⟩
      else ⟨a.length, .plain, t⟩ := by
  have hG : rfindChar '>' (a ++ '<' :: (t ++ '>' :: e)) = some (a.length + 1 + t.length) := by
    have h := rfindChar_append he (a ++ '<' :: t)
    rw [show a ++ '<' :: (t ++ '>' :: e) = (a ++ '<' :: t) ++ '>' :: e by simp, h]
    simp only [List.length_append, List.length_cons]
    congr 1
    omega
  have htake : (a ++ '<' :: (t ++ '>' :: e)).take (a.length + 1 + t.length) = a ++ '<' :: t := by
    have hlen : a.length + 1 + t.length = (a ++ '<' :: t).length := by simp; omega
    rw [hlen, show a ++ '<' :: (t ++ '>' :: e) = (a ++ '<' :: t) ++ '>' :: e by simp,
      List.take_left]
  have hL : rfindChar '<' (a ++ '<' :: t) = some a.length := rfindChar_append hlt a
  have hslice : pySlice (a ++ '<' :: (t ++ '>' :: e)) ((a.length : ℤ) + 1)
      ((a.length + 1 + t.length : ℕ) : ℤ) = t := by
    refine (pySlice_natCast _ (a.length + 1) _).trans ?_
    rw [slice, htake, ← List.drop_drop, List.drop_left]
    rfl
  have hneg : ¬ ((a.length : ℤ) < 0) := by omega
  simp only [lineEnd, hG, posOrMinusOne, pyBound_natCast, htake, hL, hslice, if_neg hneg]

theorem lineEnd_time (a : Text) (t : ExecTime) {e : Text} (he : '>' ∉ e) :
    lineEnd (a ++ t.printUpTo e) = ⟨a.length, .plain, t.text⟩ := by
  have hlt : '<' ∉ t.text := fun h => absurd (t.chars '<' h) (by decide)
  have hne : t.text ≠ "unfinished ...".toList := by
    intro h
    exact absurd (t.chars 'u' (h ▸ by decide)) (by decide)
  have h := lineEnd_brackets a t.text hlt he
  rw [if_neg hne] at h
  exact h

theorem lineEnd_unfinished (a : Text) {e : Text} (he : '>' ∉ e) :
    lineEnd (a ++ unfinishedMarker ++ e) = ⟨a.length, .unfinished, []⟩ := by
  have h := lineEnd_brackets a "unfinished ...".toList (by decide) he
  rw [if_pos rfl] at h
  rw [List.append_assoc]
  exact h

/-! ## The core of a printed call -/

/-- A core as the parser makes it. -/
def parsedCore (tracer : Tracer) (pid : ℤ) (funcNam : Text) (status : BatchStatus)
    (aTimeStamp execTim : Text) (parsedArgs : List Arg) (retValue : Option Text) : BatchLetCore where
  tracer := tracer
  pid := pid
  funcNam := funcNam
  status := status
  timeStart := aTimeStamp
  timeEnd := aTimeStamp
  execTim := execTim
  parsedArgs := parsedArgs
  retValue := retValue
  unfinishedBatch := none
  resumedBatch := none

/-- The value read after the first `=` from the position `q` on. -/
def valueText (body : Text) (q : ℕ) : Option Text :=
  (find? body ['='] q).map fun e => strip (body.drop (e + 1))

/-- The text from `a` on is read up to the marker. -/
theorem readAt_append (a b : Text) : ReadAt (a ++ b) a.length (cutMarker b) :=
  ⟨by simp, by rw [List.drop_left]⟩

section
variable (tracer : Tracer) (pid : ℤ) (aTimeStamp funcNam : Text)

theorem coreOfCall_time {status : BatchStatus} (pre body : Text) (t : ExecTime) {e ret : Text}
    (he : '>' ∉ e) (hs : status ≠ .unfinished)
    (hret : valueText body (parseCallArguments (cutMarker (body ++ t.printUpTo e)) 0).2 = some ret) :
    coreOfCall tracer pid aTimeStamp (pre ++ (body ++ t.printUpTo e)) status funcNam pre.length =
      .ok (parsedCore tracer pid funcNam status aTimeStamp t.text
        (parseCallArguments (cutMarker (body ++ t.printUpTo e)) 0).1 (some ret)) := by
  have hargs := parseCallArguments_cut (readAt_append pre (body ++ t.printUpTo e))
  generalize parseCallArguments (cutMarker (body ++ t.printUpTo e)) 0 = r at hargs hret
  obtain ⟨idxEq, hidx, rfl⟩ := Option.map_eq_some_iff.mp hret
  have hfind : find? (pre ++ (body ++ t.printUpTo e)) ['='] (pre.length + r.2) =
      some (pre.length + idxEq) := by
    rw [find?_append, find?_append_right (by simp) hidx]
    rfl
  have hend : lineEnd (pre ++ (body ++ t.printUpTo e)) = ⟨(pre ++ body).length, .plain, t.text⟩ := by
    rw [← List.append_assoc, lineEnd_time _ _ he]
  have hval : returnValue tracer (pre ++ (body ++ t.printUpTo e)) (pre.length + r.2)
      (pre ++ body).length = .ok (strip (body.drop (idxEq + 1))) := by
    rw [returnValue, hfind]
    simp only
    have hslice := pySlice_natCast (pre ++ (body ++ t.printUpTo e)) (pre.length + idxEq + 1)
      (pre ++ body).length
    have hcast : ((pre.length + idxEq : ℕ) : ℤ) + 1 = ((pre.length + idxEq + 1 : ℕ) : ℤ) := by omega
    rw [hcast, hslice,
      List.length_append, Nat.add_assoc, slice_append, slice, List.take_left]
  rw [coreOfCall]
  simp only [hargs, hend, if_neg hs, hval]
  rfl

theorem coreOfCall_unfinished (pre body : Text) {e : Text} (he : '>' ∉ e) :
    coreOfCall tracer pid aTimeStamp (pre ++ (body ++ unfinishedMarker ++ e)) .unfinished
        funcNam pre.length =
      .ok (parsedCore tracer pid funcNam .unfinished aTimeStamp []
        (parseCallArguments (cutMarker (body ++ unfinishedMarker ++ e)) 0).1 none) := by
  have hargs := parseCallArguments_cut (readAt_append pre (body ++ unfinishedMarker ++ e))
  have hend : lineEnd (pre ++ (body ++ unfinishedMarker ++ e)) =
      ⟨(pre ++ body).length, .unfinished, []⟩ := by
    rw [← List.append_assoc, ← List.append_assoc, lineEnd_unfinished _ he]
  rw [coreOfCall]
  simp only [hargs, hend, if_true]
  rfl

end

section
variable (topProcessId : ℤ) (n : ℕ) (tracer : Tracer) (h : LineHead) (f : FunctionName)

/-- A whole call. -/
theorem parseLine_call (body : Text) (t : ExecTime) {e ret : Text} (he : '>' ∉ e)
    (hret : valueText body (parseCallArguments (cutMarker (body ++ t.printUpTo e)) 0).2 = some ret) :
    parseLine topProcessId tracer (h.print n ++ (f.text ++ '(' :: (body ++ t.printUpTo e))) =
      .ok (some (parsedCore tracer (h.readPid topProcessId n) (setFunction tracer .plain f.text)
        .plain h.aTimeStamp t.text
        (parseCallArguments (cutMarker (body ++ t.printUpTo e)) 0).1 (some ret))) := by
  obtain ⟨idxStart, hline, hstamp, hcall⟩ := parseLine_head topProcessId tracer h n
    (f.text ++ '(' :: (body ++ t.printUpTo e))
  have hend : lineEnd (f.text ++ '(' :: (body ++ t.printUpTo e)) =
      ⟨(f.text ++ '(' :: body).length, .plain, t.text⟩ := by
    rw [← lineEnd_time _ t he]
    simp
  have hcore := coreOfCall_time tracer (h.readPid topProcessId n) h.aTimeStamp
    (setFunction tracer .plain f.text) (f.text ++ ['(']) body t he
    (show BatchStatus.plain ≠ .unfinished by decide) hret
  rw [List.length_append, List.length_singleton, List.append_assoc, List.singleton_append] at hcore
  rw [hline, initAfterPid_call f (body ++ t.printUpTo e) hstamp hcall, hend, hcore]
  rfl

/-- The first half of a call. -/
theorem parseLine_unfinished (body : Text) {e : Text} (he : '>' ∉ e) :
    parseLine topProcessId tracer
        (h.print n ++ (f.text ++ '(' :: (body ++ unfinishedMarker ++ e))) =
      .ok (some (parsedCore tracer (h.readPid topProcessId n) (setFunction tracer .unfinished f.text)
        .unfinished h.aTimeStamp []
        (parseCallArguments (cutMarker (body ++ unfinishedMarker ++ e)) 0).1 none)) := by
  obtain ⟨idxStart, hline, hstamp, hcall⟩ := parseLine_head topProcessId tracer h n
    (f.text ++ '(' :: (body ++ unfinishedMarker ++ e))
  have hend : lineEnd (f.text ++ '(' :: (body ++ unfinishedMarker ++ e)) =
      ⟨(f.text ++ '(' :: body).length, .unfinished, []⟩ := by
    rw [← lineEnd_unfinished _ he]
    simp
  have hcore := coreOfCall_unfinished tracer (h.readPid topProcessId n) h.aTimeStamp
    (setFunction tracer .unfinished f.text) (f.text ++ ['(']) body he
  rw [List.length_append, List.length_singleton, List.append_assoc, List.singleton_append] at hcore
  rw [hline, initAfterPid_call f _ hstamp hcall, hend, hcore]
  rfl

/-- The second half of a call. -/
theorem parseLine_resumed (body : Text) (t : ExecTime) {e ret : Text} (he : '>' ∉ e)
    (hret : valueText body (parseCallArguments (cutMarker (body ++ t.printUpTo e)) 0).2 = some ret) :
    parseLine topProcessId tracer
        (h.print n ++ (("<... ".toList ++ f.text ++ " resumed> ".toList) ++
          (body ++ t.printUpTo e))) =
      .ok (some (parsedCore tracer (h.readPid topProcessId n) (setFunction tracer .resumed f.text)
        .resumed h.aTimeStamp t.text
        (parseCallArguments (cutMarker (body ++ t.printUpTo e)) 0).1 (some ret))) := by
  obtain ⟨idxStart, hline, hstamp, hcall⟩ := parseLine_head topProcessId tracer h n
    (("<... ".toList ++ f.text ++ " resumed> ".toList) ++ (body ++ t.printUpTo e))
  rw [hline, initAfterPid_resumed f _ hstamp hcall,
    coreOfCall_time _ _ _ _ _ _ _ he (by decide) hret]
  rfl

end

end Survol.Dockit
