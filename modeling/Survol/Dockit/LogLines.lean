import Survol.Dockit.PrintedCalls

/-!
# The lines of a log

A record can be spread over several lines of the log, when a string that is
printed contains a carriage-return. Lines are joined until one looks like the end
of a record.

Every record that is printed on one line should then be a line of its own. This
holds exactly when no record but the last one is the exit of a process, or a call
without a result that is printed without a pid: `logicalLines_eq_iff`.

## Main definitions

* `isLogEnding`, `joinLines` — how lines are joined.
* `Record` — the records that are printed on one line.
-/

open PyText

namespace Survol.Dockit

/-! ## Joining lines -/

/-- `IsLogEnding`: whether a line, with its carriage-return, ends a record. -/
def isLogEnding (aLin : Text) : Bool :=
  if ">\n".toList.isSuffixOf aLin then
    match rfindChar '<' aLin with
    | some ixLT =>
      let strBrack := pySlice aLin (ixLT + 1) (-2)
      isFloat strBrack || strBrack = "unfinished ...".toList || strBrack = "no return ...".toList
    | none => false
  else
    ("[pid ".toList.isPrefixOf aLin && " = ?\n".toList.isSuffixOf aLin)
      || " ---\n".toList.isSuffixOf aLin

/-- The loop of `CreateFlowsFromGenericLinuxLog` over the lines of the stream, none
of which is empty: the joined lines, each with the number of lines read so far.
`oneLine` is what is joined already. At the end, what is left is one more line,
which is found by one more reading. -/
def joinLines : Text → ℕ → List Text → List (Text × ℕ)
  | oneLine, numLine, [] => if oneLine = [] then [] else [(oneLine, numLine + 1)]
  | oneLine, numLine, tmpLine :: logStream =>
    if isLogEnding tmpLine then
      (oneLine ++ tmpLine, numLine + 1) :: joinLines [] (numLine + 1) logStream
    else joinLines (oneLine ++ tmpLine.dropLast) (numLine + 1) logStream

/-- Each line is joined with others, or is left alone. -/
theorem length_joinLines_le {tmpLine : Text} (oneLine : Text) (numLine : ℕ) (logStream : List Text) :
    (joinLines oneLine numLine (tmpLine :: logStream)).length ≤ logStream.length + 1 := by
  induction logStream generalizing tmpLine oneLine numLine with
  | nil =>
    rw [joinLines]
    split
    · simp [joinLines]
    · rw [joinLines]
      split <;> simp
  | cons l logStream ih =>
    rw [joinLines]
    split
    · simpa using ih [] (numLine + 1)
    · exact (ih _ (numLine + 1)).trans (Nat.le_succ _)

/-- Complete lines are left alone. -/
theorem joinLines_of_complete {logStream : List Text}
    (h : ∀ l ∈ logStream, isLogEnding l = true) (numLine : ℕ) :
    (joinLines [] numLine logStream).map Prod.fst = logStream := by
  induction logStream generalizing numLine with
  | nil => rfl
  | cons l logStream ih =>
    rw [joinLines, if_pos (h l List.mem_cons_self), List.map_cons, List.nil_append,
      ih fun l' hl' => h l' (List.mem_cons_of_mem l hl')]

/-! ## Records -/

/-- How a record that is printed on one line ends. -/
inductive RecordEnd
  /-- The execution time of a whole or a resumed call. -/
  | time (t : ExecTime)
  | unfinished
  | noReturn
  /-- The end of a signal. -/
  | signal
  /-- The end of the exit of a process. -/
  | exited
  /-- The end of a call that does not return. -/
  | noResult

/-- The end of a record as it is printed. -/
def RecordEnd.print : RecordEnd → Text
  | time t => '<' :: (t.text ++ ['>'])
  | unfinished => "<unfinished ...>".toList
  | noReturn => "<no return ...>".toList
  | signal => " ---".toList
  | exited => " +++".toList
  | noResult => " = ?".toList

/-- A record that is printed on one line. -/
structure Record where
  head : LineHead
  pid : ℕ
  body : Text
  ending : RecordEnd
  one_line : '\n' ∉ head.aTimeStamp ++ body

namespace Record

/-- A record as it is printed. -/
def text (r : Record) : Text := r.head.print r.pid ++ r.body ++ r.ending.print

/-- The line of a record. -/
def line (r : Record) : Text := r.text ++ ['\n']

/-- The records that are seen to be complete. -/
def IsComplete (r : Record) : Prop :=
  match r.ending with
  | .exited => False
  | .noResult => r.head.shown = true
  | _ => True

end Record

/-- The text of a line, without its carriage-return. -/
def chomp (l : Text) : Text := l.rdropWhile (· = '\n')

theorem isDigit_of_isDigit {c : Char} (h : c.isDigit = true) : PyText.isDigit c = true := by
  rw [PyText.isDigit, digitVal?_of_isDigit h]
  rfl

theorem isBlank_text (t : ExecTime) : ∀ c ∈ t.text, isBlank c = false := by
  intro c hc
  rcases t.chars c hc with h | rfl
  · exact isBlank_of_isDigit h
  · decide

theorem trimmed_text (t : ExecTime) : Trimmed t.text where
  head c hc := isBlank_text t c (List.mem_of_mem_head? hc)
  last c hc := isBlank_text t c (List.mem_of_getLast? hc)

/-- An execution time is a number. -/
theorem isFloat_text (t : ExecTime) : isFloat t.text = true := by
  obtain ⟨c, u, hu⟩ := List.exists_cons_of_ne_nil t.seconds_ne_nil
  have hc : c.isDigit = true := t.digits c (by simp [hu])
  have hsec : ∀ d ∈ t.seconds, PyText.isDigit d = true := fun d hd =>
    isDigit_of_isDigit (t.digits d (List.mem_append_left _ hd))
  have hfrac : ∀ d ∈ t.fraction, PyText.isDigit d = true := fun d hd =>
    isDigit_of_isDigit (t.digits d (List.mem_append_right _ hd))
  have hdot : PyText.isDigit '.' = false := by decide
  have htake : t.text.takeWhile PyText.isDigit = t.seconds := by
    rw [ExecTime.text, List.takeWhile_append_of_pos hsec, List.takeWhile_cons_of_neg (by simp [hdot]),
      List.append_nil]
  have hdrop : t.text.dropWhile PyText.isDigit = '.' :: t.fraction := by
    rw [ExecTime.text, List.dropWhile_append_of_pos hsec, List.dropWhile_cons_of_neg (by simp [hdot])]
  have hrest : t.fraction.dropWhile PyText.isDigit = [] := List.dropWhile_eq_nil_iff.mpr hfrac
  have hunsigned : isUnsignedFloat t.text = true := by
    simp [isUnsignedFloat, htake, hdrop, hrest, hu, isExponent]
  have hhead : t.text = c :: (u ++ '.' :: t.fraction) := by simp [ExecTime.text, hu]
  rw [isFloat, strip_of_trimmed (trimmed_text t)]
  split
  · rename_i v hv
    rw [hhead, List.cons.injEq] at hv
    rw [hv.1] at hc
    exact absurd hc (by decide)
  · rename_i v hv
    rw [hhead, List.cons.injEq] at hv
    rw [hv.1] at hc
    exact absurd hc (by decide)
  · exact hunsigned

/-- What is read between the last angle brackets of a line. -/
theorem isLogEnding_brackets (a t : Text) (ht : '<' ∉ t) :
    isLogEnding (a ++ '<' :: (t ++ ">\n".toList)) =
      (isFloat t || t = "unfinished ...".toList || t = "no return ...".toList) := by
  have hsuff : ">\n".toList.isSuffixOf (a ++ '<' :: (t ++ ">\n".toList)) = true := by
    rw [List.isSuffixOf_iff_suffix]
    exact ⟨a ++ '<' :: t, by simp⟩
  have hnot : '<' ∉ t ++ ">\n".toList := by
    rw [List.mem_append, not_or]
    exact ⟨ht, by decide⟩
  have hbound : pyBound (a ++ '<' :: (t ++ ">\n".toList)) (-2) = (a ++ '<' :: t).length := by
    rw [pyBound, if_pos (by decide)]
    simp only [List.length_append, List.length_cons, show ">\n".toList.length = 2 from rfl]
    omega
  have hslice : pySlice (a ++ '<' :: (t ++ ">\n".toList)) ((a.length : ℤ) + 1) (-2) = t := by
    have hstart : pyBound (a ++ '<' :: (t ++ ">\n".toList)) ((a.length : ℤ) + 1) = a.length + 1 :=
      pyBound_natCast _ (a.length + 1)
    rw [pySlice, hbound, hstart, slice,
      show a ++ '<' :: (t ++ ">\n".toList) = (a ++ '<' :: t) ++ ">\n".toList by simp,
      List.take_left, ← List.drop_drop, List.drop_left]
    rfl
  rw [isLogEnding, if_pos hsuff, rfindChar_append hnot]
  simp only [hslice]

/-- A short text at the end of a line that ends with a longer one. -/
theorem isSuffixOf_append {m e : Text} (h : m.length ≤ e.length) (a : Text) :
    m.isSuffixOf (a ++ e) = m.isSuffixOf e := by
  rw [Bool.eq_iff_iff, List.isSuffixOf_iff_suffix, List.isSuffixOf_iff_suffix]
  exact ⟨fun hm => List.suffix_of_suffix_length_le hm (List.suffix_append a e) h,
    fun hm => hm.trans (List.suffix_append a e)⟩

/-- The pid is printed at the start of a line, or not. -/
theorem isPrefixOf_print (h : LineHead) (pid : ℕ) (rest : Text) :
    "[pid ".toList.isPrefixOf (h.print pid ++ rest) = h.shown := by
  cases hshown : h.shown with
  | true =>
    rw [List.isPrefixOf_iff_prefix, LineHead.print, hshown]
    exact ⟨decimal pid ++ "] ".toList ++ h.aTimeStamp ++ [' '] ++ rest, by simp⟩
  | false =>
    have hne : h.aTimeStamp ≠ [] := by
      intro hnil
      have := h.length_aTimeStamp
      simp [hnil] at this
    obtain ⟨c, t, ht⟩ := List.exists_cons_of_ne_nil hne
    have hc := h.head_aTimeStamp
    rw [ht, List.head?_cons, ne_eq, Option.some.injEq] at hc
    rw [Bool.eq_false_iff, ne_eq, List.isPrefixOf_iff_prefix, LineHead.print, hshown, ht]
    exact fun hp => hc (List.cons_prefix_cons.mp hp).1.symm

/-- A line that does not end with an angle bracket. -/
theorem isLogEnding_other (h : LineHead) (pid : ℕ) (body : Text) {e : Text} (he : e.length = 5)
    (hno : ">\n".toList.isSuffixOf e = false) :
    isLogEnding (h.print pid ++ body ++ e) =
      ((h.shown && " = ?\n".toList.isSuffixOf e) || " ---\n".toList.isSuffixOf e) := by
  have hlen : ∀ m : Text, m.length ≤ 5 → m.isSuffixOf (h.print pid ++ body ++ e) = m.isSuffixOf e :=
    fun m hm => isSuffixOf_append (he ▸ hm) _
  rw [isLogEnding, hlen _ (by decide), hno, hlen _ (by decide), hlen _ (by decide), List.append_assoc,
    isPrefixOf_print]
  rfl

theorem RecordEnd.print_time (t : ExecTime) :
    (RecordEnd.time t).print ++ ['\n'] = '<' :: (t.text ++ ">\n".toList) := by
  have htail : ">\n".toList = ['>'] ++ ['\n'] := by decide
  rw [htail, ← List.append_assoc]
  rfl

theorem isLogEnding_line (r : Record) : isLogEnding r.line = true ↔ r.IsComplete := by
  obtain ⟨h, pid, body, ending, one_line⟩ := r
  have hline : ∀ e, ending.print ++ ['\n'] = e →
      Record.line ⟨h, pid, body, ending, one_line⟩ = h.print pid ++ body ++ e := by
    rintro e rfl
    rw [Record.line, Record.text, List.append_assoc]
  cases ending with
  | time t =>
    have hend := RecordEnd.print_time t
    have hnot : '<' ∉ t.text := by
      intro hm
      rcases t.chars '<' hm with h' | h' <;> revert h' <;> decide
    rw [hline _ hend, isLogEnding_brackets _ _ hnot, isFloat_text]
    exact iff_of_true (by simp only [Bool.true_or]) trivial
  | unfinished =>
    have hend : RecordEnd.unfinished.print ++ ['\n'] =
        '<' :: ("unfinished ...".toList ++ ">\n".toList) := by decide
    rw [hline _ hend, isLogEnding_brackets _ _ (by decide)]
    exact iff_of_true (by decide) trivial
  | noReturn =>
    have hend : RecordEnd.noReturn.print ++ ['\n'] =
        '<' :: ("no return ...".toList ++ ">\n".toList) := by decide
    rw [hline _ hend, isLogEnding_brackets _ _ (by decide)]
    exact iff_of_true (by decide) trivial
  | signal =>
    rw [hline _ rfl, isLogEnding_other h pid body (by decide) (by decide)]
    exact iff_of_true (by cases h.shown <;> decide) trivial
  | exited =>
    rw [hline _ rfl, isLogEnding_other h pid body (by decide) (by decide)]
    exact iff_of_false (by cases h.shown <;> decide) id
  | noResult =>
    rw [hline _ rfl, isLogEnding_other h pid body (by decide) (by decide)]
    cases hs : h.shown with
    | true => exact iff_of_true (by decide) hs
    | false => exact iff_of_false (by decide) (by simp [Record.IsComplete, hs])

theorem RecordEnd.exists_print (e : RecordEnd) : ∃ t c, e.print = t ++ [c] ∧ c ≠ '\n' := by
  cases e with
  | time t => exact ⟨'<' :: t.text, '>', rfl, by decide⟩
  | unfinished => exact ⟨"<unfinished ...".toList, '>', by decide, by decide⟩
  | noReturn => exact ⟨"<no return ...".toList, '>', by decide, by decide⟩
  | signal => exact ⟨" --".toList, '-', by decide, by decide⟩
  | exited => exact ⟨" ++".toList, '+', by decide, by decide⟩
  | noResult => exact ⟨" = ".toList, '?', by decide, by decide⟩

namespace Record

theorem chomp_text (r : Record) : chomp r.text = r.text := by
  obtain ⟨t, c, ht, hc⟩ := r.ending.exists_print
  rw [text, ht, ← List.append_assoc, chomp, List.rdropWhile_concat_neg _ _ _ (by simpa using hc)]

theorem chomp_line (r : Record) : chomp r.line = r.text := by
  rw [line, chomp, List.rdropWhile_concat_pos _ _ _ (by simp)]
  exact r.chomp_text

theorem text_ne_nil (r : Record) : r.text ≠ [] := by
  obtain ⟨t, c, ht, -⟩ := r.ending.exists_print
  rw [text, ht]
  simp

end Record

/-- **No record is swallowed**, exactly when each one but the last is seen to be complete. -/
theorem logicalLines_eq_iff (rs : List Record) (numLine : ℕ) :
    (joinLines [] numLine (rs.map Record.line)).map (fun l => chomp l.1) = rs.map Record.text ↔
      ∀ r ∈ rs.dropLast, r.IsComplete := by
  induction rs generalizing numLine with
  | nil => simp [joinLines]
  | cons r rs ih =>
    by_cases hr : r.IsComplete
    · have hpeel : joinLines [] numLine ((r :: rs).map Record.line) =
          (r.line, numLine + 1) :: joinLines [] (numLine + 1) (rs.map Record.line) := by
        rw [List.map_cons, joinLines, if_pos ((isLogEnding_line r).mpr hr), List.nil_append]
      rw [hpeel, List.map_cons, List.map_cons, r.chomp_line, List.cons.injEq, ih]
      cases rs with
      | nil => simp
      | cons r' rs => simp [List.dropLast_cons_of_ne_nil, hr]
    · have hnot : ¬ isLogEnding r.line = true := fun h => hr ((isLogEnding_line r).mp h)
      have hdrop : r.line.dropLast = r.text := by rw [Record.line, List.dropLast_concat]
      have hpeel : joinLines [] numLine ((r :: rs).map Record.line) =
          joinLines r.text (numLine + 1) (rs.map Record.line) := by
        rw [List.map_cons, joinLines, if_neg hnot, List.nil_append, hdrop]
      rw [hpeel]
      cases rs with
      | nil => simp [joinLines, r.text_ne_nil, r.chomp_text]
      | cons r' rs =>
        refine iff_of_false ?_ fun h => hr (h r (by simp))
        -- A line less than there are records.
        intro heq
        have hlen := congrArg List.length heq
        have hle := @length_joinLines_le r'.line r.text (numLine + 1) (rs.map Record.line)
        simp only [List.length_map, List.length_cons, List.map_cons] at hlen hle
        omega

/-- `14:56:54.296251 +++ exited with 0 +++` -/
def exitRecord : Record where
  head := ⟨false, "14:56:54.296251".toList, rfl, by decide⟩
  pid := 0
  body := "+++ exited with 0".toList
  ending := .exited
  one_line := by decide

/-- `[pid 7] 14:56:54.296315 close(3) = 0 <0.000013>` -/
def closeRecord : Record where
  head := ⟨true, "14:56:54.296315".toList, rfl, by decide⟩
  pid := 7
  body := "close(3) = 0 ".toList
  ending := .time ⟨"0".toList, "000013".toList, by decide, by decide⟩
  one_line := by decide

/-- The exit of a process swallows the next record. -/
theorem exit_swallows_record :
    joinLines [] 0 ([exitRecord, closeRecord].map Record.line) =
        [(exitRecord.text ++ closeRecord.line, 2)] ∧
      (joinLines [] 0 ([exitRecord, closeRecord].map Record.line)).map (fun l => chomp l.1) ≠
        [exitRecord, closeRecord].map Record.text := by
  decide +kernel

end Survol.Dockit
