import Survol.Dockit.PrintedCalls
import Survol.Lib.Positions
import Survol.Lib.Splitting

/-!
# Sessions that are recorded and replayed

A session writes its log to a file whose name has the tracer and the pid, and beside it an ini
file, with what the log does not say: the pid, the directory, the date, the host and the system.
When the log is replayed, on any machine, the tracer is read in the name and the rest in the ini
file.

## Main definitions

* `defaultTracer` — the tracer of a log file.
* `loadIniFile`, `createEventLog` — the context of a log file.
* `record` — the ini file of a session.

## Main results

* `replay_iff` — the context of a session is found again, if and only if its texts have no line
  break and no white space at their ends.
-/

open PyText

namespace Survol.Dockit.Replay

/-! ## The names of the files -/

/-- What is known of a session. -/
structure Context where
  topProcessId : ℤ
  currentDirectory : Text
  today : Text
  hostname : Text
  osType : Text
  deriving DecidableEq

/-- The names of the files of a session, without their extensions. -/
def fullPrefixNoExt (outputLogFilePrefix tracer : Text) (topProcessId : ℤ) : Text :=
  outputLogFilePrefix ++ '.' :: (tracer ++ '.' :: (decimal topProcessId ++ ['.']))

def logFilNam (outputLogFilePrefix tracer : Text) (topProcessId : ℤ) : Text :=
  fullPrefixNoExt outputLogFilePrefix tracer topProcessId ++ "log".toList

def iniFilNam (outputLogFilePrefix tracer : Text) (topProcessId : ℤ) : Text :=
  fullPrefixNoExt outputLogFilePrefix tracer topProcessId ++ "ini".toList

/-- The group of `\.([^\.]*)\.[0-9]+\.log` at the beginning of a text. -/
def matchWithPid : Text → Option Text
  | '.' :: s =>
    match s.dropWhile (· ≠ '.') with
    | '.' :: t =>
      if t.takeWhile Char.isDigit ≠ [] ∧ ".log".toList <+: t.dropWhile Char.isDigit then
        some (s.takeWhile (· ≠ '.'))
      else none
    | _ => none
  | _ => none

/-- The group of `\.([^\.]*)\.log` at the beginning of a text. -/
def matchWithoutPid : Text → Option Text
  | '.' :: s =>
    if ".log".toList <+: s.dropWhile (· ≠ '.') then some (s.takeWhile (· ≠ '.')) else none
  | _ => none

/-- What is matched at the last of the first positions of a text. -/
def lastMatch (m : Text → Option Text) (s : Text) : ℕ → Option Text
  | 0 => m s
  | k + 1 => (m (s.drop (k + 1))).or (lastMatch m s k)

/-- `re.match` of `.*` before a pattern: the point is no line break. -/
def greedyMatch (m : Text → Option Text) (s : Text) : Option Text :=
  lastMatch m s (s.takeWhile (· ≠ '\n')).length

/-- `DefaultTracer`, which raises an exception where it is `none`. -/
def defaultTracer (platform : Text) (inputLogFile tracer : Option Text) : Option Text :=
  if tracer.getD [] ≠ [] then tracer
  else if inputLogFile.getD [] ≠ [] then
    (greedyMatch matchWithPid (inputLogFile.getD [])).or
      (greedyMatch matchWithoutPid (inputLogFile.getD []))
  else if "win32".toList <+: platform then some "cdb".toList
  else if "linux".toList <+: platform then some "strace".toList
  else none

/-- The first part of `os.path.splitext`: the leading points of a name begin no extension. -/
def splitextRoot (p : Text) : Text :=
  match rfindChar '.' p with
  | none => p
  | some dotIndex =>
    let filenameIndex := ((rfindChar '/' p).map (· + 1)).getD 0
    if ((p.take dotIndex).drop filenameIndex).any (· ≠ '.') then p.take dotIndex else p

def contextLogFile (inputLogFile : Text) : Text := splitextRoot inputLogFile ++ ".ini".toList

/-! ## The ini file -/

/-- What is written to the ini file. -/
def iniItems (ctx : Context) : List (Text × Text) :=
  [("TopProcessId".toList, decimal ctx.topProcessId),
    ("CurrentDirectory".toList, ctx.currentDirectory),
    ("CurrentDate".toList, ctx.today),
    ("CurrentHostname".toList, ctx.hostname),
    ("CurrentOSType".toList, ctx.osType)]

def printItems (items : List (Text × Text)) : Text :=
  items.flatMap fun e => e.1 ++ '=' :: (e.2 ++ ['\n'])

/-- The ini file of a session, which replaces another one of the same name. -/
def record (files : Dict Text Text) (outputLogFilePrefix tracer : Text) (ctx : Context) :
    Dict Text Text :=
  files.set (iniFilNam outputLogFilePrefix tracer ctx.topProcessId) (printItems (iniItems ctx))

/-- Each of the three line breaks as one character. -/
def translateNewlines : Text → Text
  | [] => []
  | c :: t =>
    if c = '\r' then
      if t.head? = some '\n' then translateNewlines t else '\n' :: translateNewlines t
    else c :: translateNewlines t

/-- The lines of a file, where the line breaks are translated by Python 3 only. -/
def readlines (universal : Bool) (text : Text) : List Text :=
  splitOn '\n' (if universal then translateNewlines text else text)

/-- The loop of `LoadIniFile`. -/
def loadLine (mapKV : Dict Text Text) (linKV : Text) : Dict Text Text :=
  let clnKV := strip linKV
  if clnKV = [] then mapKV
  else if clnKV.head? = some ';' then mapKV
  else
    match find? clnKV ['='] 0 with
    | none => mapKV
    | some idxEq => mapKV.set (clnKV.take idxEq) (clnKV.drop (idxEq + 1))

/-- `LoadIniFile`, where the file may be missing. -/
def loadIniFile (universal : Bool) : Option Text → Dict Text Text
  | none => []
  | some text => (readlines universal text).foldl loadLine []

/-- The context that `CreateEventLog` makes for a log file, on a machine which has its own. A pid
that is no number raises an exception. -/
def createEventLog (universal : Bool) (files : Dict Text Text) (host : Context)
    (inputLogFile : Text) : Option Context := do
  let mapKV := loadIniFile universal (files.get? (contextLogFile inputLogFile))
  let topProcessId ←
    ((mapKV.get? "TopProcessId".toList).map int?).getD (some host.topProcessId)
  return {
    topProcessId := topProcessId
    currentDirectory := (mapKV.get? "CurrentDirectory".toList).getD host.currentDirectory
    today := (mapKV.get? "CurrentDate".toList).getD host.today
    hostname := (mapKV.get? "CurrentHostname".toList).getD host.hostname
    osType := (mapKV.get? "CurrentOSType".toList).getD host.osType }

/-- A text that an ini file can have as a value. -/
structure IsValue (universal : Bool) (v : Text) : Prop where
  newline : '\n' ∉ v
  carriage : universal = true → '\r' ∉ v
  last : ∀ c ∈ v.getLast?, isBlank c = false

/-- The four texts of a context can be written. -/
structure Context.Writable (universal : Bool) (ctx : Context) : Prop where
  currentDirectory : IsValue universal ctx.currentDirectory
  today : IsValue universal ctx.today
  hostname : IsValue universal ctx.hostname
  osType : IsValue universal ctx.osType

/-! ## The tracer -/

section
variable {outputLogFilePrefix tracer : Text} {n : ℕ}

theorem logFilNam_eq (outputLogFilePrefix tracer : Text) (n : ℕ) :
    logFilNam outputLogFilePrefix tracer n =
      outputLogFilePrefix ++ '.' :: (tracer ++ '.' :: (decimal n ++ ".log".toList)) := by
  simp [logFilNam, fullPrefixNoExt]

/-- The last match is at a position where there is one, and none after it. -/
theorem lastMatch_eq {m : Text → Option Text} {s g : Text} {j k : ℕ} (hj : m (s.drop j) = some g)
    (hk : j ≤ k) (h : ∀ i, j < i → m (s.drop i) = none) : lastMatch m s k = some g := by
  induction k with
  | zero =>
    rw [Nat.le_zero.mp hk, List.drop_zero] at hj
    exact hj
  | succ k ih =>
    rw [lastMatch]
    rcases Nat.lt_or_eq_of_le hk with hlt | rfl
    · rw [h (k + 1) hlt, Option.none_or]
      exact ih (Nat.le_of_lt_succ hlt)
    · rw [hj, Option.some_or]

/-- The pattern has three points. -/
theorem three_le_count_of_matchWithPid {s g : Text} (h : matchWithPid s = some g) :
    3 ≤ s.count '.' := by
  cases s with
  | nil => cases h
  | cons c s =>
    by_cases hc : c = '.'
    · subst hc
      rw [matchWithPid] at h
      have hs : s.count '.' =
          (s.takeWhile (· ≠ '.')).count '.' + (s.dropWhile (· ≠ '.')).count '.' := by
        rw [← List.count_append, List.takeWhile_append_dropWhile]
      split at h
      · rename_i t ht
        split at h
        · rename_i hlog
          have hmem : '.' ∈ t := (List.dropWhile_sublist _).mem (hlog.2.mem (by decide))
          have hpos : 0 < t.count '.' := List.count_pos_iff.mpr hmem
          rw [ht, List.count_cons_self] at hs
          rw [List.count_cons_self]
          omega
        · cases h
      · cases h
    · rw [matchWithPid] at h
      · cases h
      · rintro s' ⟨⟩
        exact hc rfl

theorem not_mem_decimal {c : Char} (hc : c.isDigit = false) : c ∉ decimal n := fun h => by
  rw [isDigit_of_mem_decimal h] at hc
  cases hc

/-- The tracer is the group of the match. -/
theorem matchWithPid_eq (htracer : '.' ∉ tracer) :
    matchWithPid ('.' :: (tracer ++ '.' :: (decimal n ++ ".log".toList))) = some tracer := by
  have hne : ∀ c ∈ tracer, decide (c ≠ '.') = true := fun c hc => by
    rw [decide_eq_true_eq]
    rintro rfl
    exact htracer hc
  have hdigits : ∀ c ∈ decimal n, c.isDigit = true := fun c => isDigit_of_mem_decimal
  have hdecimal : decimal n ≠ [] := by
    rw [decimal_natCast]
    exact Nat.toDigits_ne_nil
  have htake : (decimal n ++ ".log".toList).takeWhile Char.isDigit = decimal n := by
    rw [List.takeWhile_append_of_pos hdigits]
    exact List.append_nil _
  have hdrop : (decimal n ++ ".log".toList).dropWhile Char.isDigit = ".log".toList := by
    rw [List.dropWhile_append_of_pos hdigits]
    rfl
  have hgroup : (tracer ++ '.' :: (decimal n ++ ".log".toList)).takeWhile (· ≠ '.') = tracer := by
    rw [List.takeWhile_append_of_pos hne, List.takeWhile_cons_of_neg (by simp), List.append_nil]
  have hrest : (tracer ++ '.' :: (decimal n ++ ".log".toList)).dropWhile (· ≠ '.') =
      '.' :: (decimal n ++ ".log".toList) := by
    rw [List.dropWhile_append_of_pos hne, List.dropWhile_cons_of_neg (by simp)]
  rw [matchWithPid, hrest]
  simp only [htake, hdrop, hgroup]
  exact if_pos ⟨hdecimal, List.prefix_refl _⟩

/-- The tracer is found in the name of the log file. -/
theorem defaultTracer_logFilNam (platform : Text) (hstart : '\n' ∉ outputLogFilePrefix)
    (htracer : '.' ∉ tracer) (n : ℕ) :
    defaultTracer platform (some (logFilNam outputLogFilePrefix tracer n)) none =
      some tracer := by
  have hcount : (tracer ++ '.' :: (decimal n ++ ".log".toList)).count '.' = 2 := by
    rw [List.count_append, List.count_cons_self, List.count_append,
      List.count_eq_zero.mpr htracer, List.count_eq_zero.mpr (not_mem_decimal (by decide))]
    decide
  have hne : ∀ c ∈ outputLogFilePrefix, decide (c ≠ '\n') = true := fun c hc => by
    rw [decide_eq_true_eq]
    rintro rfl
    exact hstart hc
  have hmatch :
      greedyMatch matchWithPid (logFilNam outputLogFilePrefix tracer n) = some tracer := by
    rw [logFilNam_eq, greedyMatch]
    refine lastMatch_eq (j := outputLogFilePrefix.length) ?_ ?_ ?_
    · rw [List.drop_left]
      exact matchWithPid_eq htracer
    · rw [List.takeWhile_append_of_pos hne, List.length_append]
      exact Nat.le_add_right _ _
    · intro i hi
      obtain ⟨k, rfl⟩ := Nat.exists_eq_add_of_lt hi
      rw [Nat.add_assoc, List.drop_append, List.drop_of_length_le (Nat.le_add_right _ _),
        List.nil_append, Nat.add_sub_cancel_left, List.drop_succ_cons]
      -- what follows the first point has two points only
      by_contra hsome
      obtain ⟨g, hg⟩ := Option.ne_none_iff_exists'.mp hsome
      have hthree := three_le_count_of_matchWithPid hg
      have hle := (List.drop_sublist k
        (tracer ++ '.' :: (decimal n ++ ".log".toList))).count_le '.'
      omega
  have hname : logFilNam outputLogFilePrefix tracer n ≠ [] := by
    rw [logFilNam_eq]
    exact List.append_ne_nil_of_right_ne_nil _ (List.cons_ne_nil _ _)
  rw [defaultTracer, if_neg (by simp), Option.getD_some, if_pos hname, hmatch, Option.some_or]

/-! ## The name of the ini file -/

theorem rfindChar_append_of_not_mem {c : Char} {y : Text} (h : c ∉ y) (x : Text) :
    rfindChar c (x ++ y) = rfindChar c x := by
  induction x with
  | nil => exact rfindChar_eq_none h
  | cons d x ih => rw [List.cons_append, rfindChar, rfindChar, ih]

/-- The extension is taken off after a character that is neither a point nor a slash. -/
theorem splitextRoot_append (b ext : Text) {d : Char} (hpoint : d ≠ '.') (hslash : d ≠ '/')
    (hext : '.' ∉ ext) (hext' : '/' ∉ ext) :
    splitextRoot (b ++ [d] ++ '.' :: ext) = b ++ [d] := by
  have hdot := rfindChar_append hext (b ++ [d])
  have hsep : rfindChar '/' (b ++ [d] ++ '.' :: ext) = rfindChar '/' b := by
    rw [List.append_assoc]
    refine rfindChar_append_of_not_mem ?_ b
    simp [Ne.symm hslash, hext']
  have hle : ((rfindChar '/' b).map (· + 1)).getD 0 ≤ b.length := by
    cases hb : rfindChar '/' b with
    | none => exact Nat.zero_le _
    | some k => exact rfindChar_lt hb
  rw [splitextRoot, hdot, hsep]
  simp only [List.take_left, List.drop_append_of_le_length hle]
  rw [if_pos (by simp [hpoint])]

/-- The ini file is found beside the log file. -/
theorem contextLogFile_logFilNam (outputLogFilePrefix tracer : Text) (n : ℕ) :
    contextLogFile (logFilNam outputLogFilePrefix tracer n) =
      iniFilNam outputLogFilePrefix tracer n := by
  have hne : decimal n ≠ [] := by
    rw [decimal_natCast]
    exact Nat.toDigits_ne_nil
  obtain ⟨ds, d, hd⟩ : ∃ ds d, decimal n = ds ++ [d] :=
    ⟨_, _, (List.dropLast_append_getLast hne).symm⟩
  have hdigit : d.isDigit = true := isDigit_of_mem_decimal (n := n) (by simp [hd])
  have hroot := splitextRoot_append (outputLogFilePrefix ++ '.' :: (tracer ++ '.' :: ds))
    "log".toList (d := d) (by rintro rfl; cases hdigit) (by rintro rfl; cases hdigit)
    (by decide) (by decide)
  have hlog : logFilNam outputLogFilePrefix tracer n =
      outputLogFilePrefix ++ '.' :: (tracer ++ '.' :: ds) ++ [d] ++ '.' :: "log".toList := by
    simp [logFilNam_eq, hd]
  rw [contextLogFile, hlog, hroot, iniFilNam, fullPrefixNoExt, hd]
  simp

end

/-! ## The lines of a file -/

section
variable {universal : Bool} {k v : Text} {d : Dict Text Text}

theorem translateNewlines_of_not_mem {t : Text} (h : '\r' ∉ t) : translateNewlines t = t := by
  induction t with
  | nil => rfl
  | cons c t ih =>
    rw [List.mem_cons, not_or] at h
    rw [translateNewlines, if_neg (Ne.symm h.1), ih h.2]

theorem carriage_not_mem_translateNewlines (t : Text) : '\r' ∉ translateNewlines t := by
  induction t with
  | nil => exact List.not_mem_nil
  | cons c t ih =>
    rw [translateNewlines]
    split
    · split
      · exact ih
      · exact List.not_mem_cons_of_ne_of_not_mem (by decide) ih
    · rename_i hc
      exact List.not_mem_cons_of_ne_of_not_mem (Ne.symm hc) ih

/-- A line break stays one. -/
theorem exists_translateNewlines_append (x y : Text) :
    ∃ x', translateNewlines (x ++ '\n' :: y) = x' ++ '\n' :: translateNewlines y := by
  induction x with
  | nil => exact ⟨[], rfl⟩
  | cons c x ih =>
    obtain ⟨x', hx'⟩ := ih
    rw [List.cons_append, translateNewlines, hx']
    split
    · split
      · exact ⟨x', rfl⟩
      · exact ⟨'\n' :: x', rfl⟩
    · exact ⟨c :: x', rfl⟩

theorem translateNewlines_append_of_not_mem {x : Text} (h : '\r' ∉ x) (y : Text) :
    translateNewlines (x ++ y) = x ++ translateNewlines y := by
  induction x with
  | nil => rfl
  | cons c x ih =>
    rw [List.mem_cons, not_or] at h
    rw [List.cons_append, translateNewlines, if_neg (Ne.symm h.1), ih h.2, List.cons_append]

/-- The lines of a file have no line break. -/
theorem not_mem_readlines {text line : Text} (h : line ∈ readlines universal text) :
    '\n' ∉ line ∧ (universal = true → '\r' ∉ line) := by
  refine ⟨not_mem_splitOn h, ?_⟩
  rintro rfl hmem
  exact carriage_not_mem_translateNewlines text (mem_of_mem_splitOn h hmem)

/-! ## One line -/

/-- A text that an ini file can have as a key. -/
def IsKey (k : Text) : Prop :=
  (∃ c ∈ k.head?, isBlank c = false ∧ c ≠ ';') ∧ '=' ∉ k ∧ '\n' ∉ k ∧ '\r' ∉ k

theorem IsKey.append_ne {k : Text} (h : IsKey k) {c : Char} (hc : c = '\n' ∨ c = '\r') :
    c ∉ k ++ ['='] := by
  rcases hc with rfl | rfl
  · simp [h.2.2.1]
  · simp [h.2.2.2]

/-- White space is stripped at the end of a line that begins with a key. -/
theorem strip_key (hk : IsKey k) (w : Text) :
    strip (k ++ '=' :: w) = k ++ '=' :: w.rdropWhile isBlank := by
  obtain ⟨⟨c, hc, hblank, -⟩, -⟩ := hk
  have hhead : (k ++ '=' :: w).dropWhile isBlank = k ++ '=' :: w := by
    refine dropWhile_of_head fun d hd => ?_
    rw [List.head?_append, Option.mem_def.mp hc, Option.some_or, Option.mem_some_iff] at hd
    rw [← hd, hblank]
  have hstop : ('=' :: k.reverse).dropWhile isBlank = '=' :: k.reverse :=
    List.dropWhile_cons_of_neg (by decide)
  rw [strip, hhead, List.rdropWhile, List.reverse_append, List.reverse_cons, List.append_assoc,
    List.singleton_append, List.dropWhile_append, hstop]
  split
  · rename_i hempty
    rw [List.rdropWhile, List.isEmpty_iff.mp hempty]
    simp
  · simp [List.rdropWhile]

/-- A line that begins with a key sets it. -/
theorem loadLine_key (hk : IsKey k) (d : Dict Text Text) (w : Text) :
    loadLine d (k ++ '=' :: w) = d.set k (w.rdropWhile isBlank) := by
  have hstrip := strip_key hk w
  obtain ⟨⟨c, hc, -, hsemicolon⟩, heq, -⟩ := hk
  have hhead : (k ++ '=' :: w.rdropWhile isBlank).head? = some c := by
    rw [List.head?_append, Option.mem_def.mp hc, Option.some_or]
  have hfind : find? (k ++ '=' :: w.rdropWhile isBlank) ['='] 0 = some k.length := by
    rw [find?, List.drop_zero, findIdx_char heq, Option.map_some, Nat.zero_add]
  rw [loadLine, hstrip]
  simp only [hhead, hfind]
  rw [if_neg (List.append_ne_nil_of_right_ne_nil _ (List.cons_ne_nil _ _)),
    if_neg (by simpa using hsemicolon), List.take_left, ← List.drop_drop, List.drop_left]
  rfl

/-- A line sets a key, or changes nothing. -/
theorem loadLine_cases (d : Dict Text Text) (line : Text) :
    loadLine d line = d ∨
      ∃ k i, loadLine d line = d.set k ((strip line).drop i) := by
  rw [loadLine]
  split
  · exact .inl rfl
  · split
    · exact .inl rfl
    · split
      · exact .inl rfl
      · exact .inr ⟨_, _, rfl⟩

/-- The key of a line stays in the dictionary. -/
theorem mem_keys_loadLine {d : Dict Text Text} (h : k ∈ d.keys) (line : Text) :
    k ∈ (loadLine d line).keys := by
  rcases loadLine_cases d line with heq | ⟨k', i, heq⟩
  · rw [heq]
    exact h
  · rw [heq]
    exact (Dict.mem_keys_set _ _ _ _).mpr (.inr h)

theorem mem_keys_foldl {lines : List Text} {w : Text} (hk : IsKey k)
    (h : k ++ '=' :: w ∈ lines) (d : Dict Text Text) : k ∈ (lines.foldl loadLine d).keys := by
  have hstays (lines : List Text) (d : Dict Text Text) (hd : k ∈ d.keys) :
      k ∈ (lines.foldl loadLine d).keys := by
    induction lines generalizing d with
    | nil => exact hd
    | cons line lines ih => exact ih _ (mem_keys_loadLine hd line)
  induction lines generalizing d with
  | nil => cases h
  | cons line lines ih =>
    rcases List.mem_cons.mp h with rfl | h
    · refine hstays lines _ ?_
      rw [loadLine_key hk]
      exact (Dict.mem_keys_set _ _ _ _).mpr (.inl rfl)
    · exact ih h _

/-- What is stripped is part of the text. -/
theorem mem_of_mem_strip {s : Text} {c : Char} (h : c ∈ strip s) : c ∈ s :=
  (List.dropWhile_sublist _).mem ((List.rdropWhile_prefix _ _).mem h)

/-- The values that are read are values that can be written. -/
theorem isValue_of_mem {text : Text} {e : Text × Text}
    (h : e ∈ loadIniFile universal (some text)) : IsValue universal e.2 := by
  have hlines (lines : List Text) (d : Dict Text Text) (hd : ∀ e ∈ d, IsValue universal e.2)
      (hall : ∀ line ∈ lines, '\n' ∉ line ∧ (universal = true → '\r' ∉ line)) :
      ∀ e ∈ lines.foldl loadLine d, IsValue universal e.2 := by
    induction lines generalizing d with
    | nil => exact hd
    | cons line lines ih =>
      have hline := hall line List.mem_cons_self
      refine ih _ (fun e he => ?_) fun line' hline' => hall line' (List.mem_cons_of_mem line hline')
      rcases loadLine_cases d line with heq | ⟨k, i, heq⟩
      · exact hd e (heq ▸ he)
      · rw [heq] at he
        rcases Dict.mem_of_mem_set he with rfl | he
        · have hmem {c : Char} (hc : c ∈ (strip line).drop i) : c ∈ line :=
            mem_of_mem_strip ((List.drop_sublist _ _).mem hc)
          refine ⟨fun hc => hline.1 (hmem hc), fun hu hc => hline.2 hu (hmem hc), fun c hc => ?_⟩
          rw [List.getLast?_drop] at hc
          split at hc
          · cases hc
          · exact (trimmed_strip line).last c hc
        · exact hd e he
  exact hlines _ [] (by simp) (fun line => not_mem_readlines) e h

end

/-! ## The context -/

section
variable {universal : Bool} {k v : Text}

/-- The key of an item is read, whatever its value. -/
theorem exists_key_line (universal : Bool) (hk : IsKey k) {x : Text}
    (hx : x = [] ∨ ∃ x', x = x' ++ ['\n']) (y : Text) :
    ∃ w, k ++ '=' :: w ∈ readlines universal (x ++ (k ++ '=' :: y)) := by
  have hsplit : k ++ '=' :: y = (k ++ ['=']) ++ y := by simp
  -- the line begins at a line break, which stays one
  obtain ⟨y', hy'⟩ : ∃ y', (if universal then translateNewlines (k ++ '=' :: y) else k ++ '=' :: y)
      = (k ++ ['=']) ++ y' := by
    rw [hsplit]
    split
    · exact ⟨_, translateNewlines_append_of_not_mem (hk.append_ne (.inr rfl)) y⟩
    · exact ⟨y, rfl⟩
  have hfirst : k ++ '=' :: y'.takeWhile (· ≠ '\n') ∈ splitOn '\n' ((k ++ ['=']) ++ y') := by
    rw [splitOn_append (hk.append_ne (.inl rfl))]
    simp
  refine ⟨y'.takeWhile (· ≠ '\n'), ?_⟩
  rcases hx with rfl | ⟨x', rfl⟩
  · rw [List.nil_append, readlines, hy']
    exact hfirst
  · rw [List.append_assoc, List.singleton_append, readlines]
    obtain ⟨x'', hx''⟩ : ∃ x'', (if universal then
        translateNewlines (x' ++ '\n' :: (k ++ '=' :: y)) else x' ++ '\n' :: (k ++ '=' :: y))
          = x'' ++ '\n' :: ((k ++ ['=']) ++ y') := by
      cases universal with
      | true =>
        obtain ⟨x'', hx''⟩ := exists_translateNewlines_append x' (k ++ '=' :: y)
        exact ⟨x'', by rw [← hy']; exact hx''⟩
      | false => exact ⟨x', by rw [← hy']; rfl⟩
    rw [hx'', splitOn_append_cons]
    exact List.mem_append_right _ hfirst

/-- What is read for the key of an item could have been written. -/
theorem exists_value (universal : Bool) {items : List (Text × Text)}
    (hkeys : ∀ e ∈ items, IsKey e.1) {e : Text × Text} (he : e ∈ items) :
    ∃ v', (loadIniFile universal (some (printItems items))).get? e.1 = some v' ∧
      IsValue universal v' := by
  obtain ⟨before, after, rfl⟩ := List.append_of_mem he
  have hbefore : printItems before = [] ∨ ∃ x', printItems before = x' ++ ['\n'] := by
    rcases List.eq_nil_or_concat before with rfl | ⟨before', e', rfl⟩
    · exact .inl rfl
    · refine .inr ⟨printItems before' ++ e'.1 ++ '=' :: e'.2, ?_⟩
      simp [printItems]
  have htext : printItems (before ++ e :: after) =
      printItems before ++ (e.1 ++ '=' :: (e.2 ++ '\n' :: printItems after)) := by
    simp [printItems]
  obtain ⟨w, hw⟩ := exists_key_line universal (hkeys e he) hbefore
    (e.2 ++ '\n' :: printItems after)
  rw [← htext] at hw
  have hmem := mem_keys_foldl (hkeys e he) hw []
  obtain ⟨v', hv'⟩ := Option.isSome_iff_exists.mp ((Dict.get?_isSome_iff _ _).mpr hmem)
  exact ⟨v', hv', isValue_of_mem (Dict.mem_of_get?_eq_some hv')⟩

/-- The lines of items whose values can be written. -/
theorem readlines_printItems {items : List (Text × Text)} (hkeys : ∀ e ∈ items, IsKey e.1)
    (hvals : ∀ e ∈ items, IsValue universal e.2) :
    readlines universal (printItems items) = (items.map fun e => e.1 ++ '=' :: e.2) ++ [[]] := by
  have htext : (if universal then translateNewlines (printItems items) else printItems items) =
      printItems items := by
    split
    · rename_i hu
      refine translateNewlines_of_not_mem fun h => ?_
      obtain ⟨e, he, hc⟩ := List.mem_flatMap.mp h
      have hkey := (hkeys e he).2.2.2
      have hval := (hvals e he).carriage hu
      simp [hkey, hval] at hc
    · rfl
  rw [readlines, htext]
  clear htext
  induction items with
  | nil => rfl
  | cons e items ih =>
    have hline : '\n' ∉ e.1 ++ '=' :: e.2 := by
      have hkey := (hkeys e List.mem_cons_self).2.2.1
      have hval := (hvals e List.mem_cons_self).newline
      simp [hkey, hval]
    have hcons : printItems (e :: items) = (e.1 ++ '=' :: e.2) ++ '\n' :: printItems items := by
      simp [printItems]
    rw [hcons, splitOn_append_cons_of_not_mem hline,
      ih (fun e' he' => hkeys e' (List.mem_cons_of_mem e he'))
        fun e' he' => hvals e' (List.mem_cons_of_mem e he')]
    rfl

/-- The items are read back. -/
theorem loadIniFile_printItems {items : List (Text × Text)} (hkeys : ∀ e ∈ items, IsKey e.1)
    (hvals : ∀ e ∈ items, IsValue universal e.2) :
    loadIniFile universal (some (printItems items)) =
      items.foldl (fun (d : Dict Text Text) e => Dict.set d e.1 e.2) [] := by
  rw [loadIniFile, readlines_printItems hkeys hvals, List.foldl_append]
  change List.foldl loadLine [] (items.map fun e => e.1 ++ '=' :: e.2) = _
  generalize ([] : Dict Text Text) = d
  induction items generalizing d with
  | nil => rfl
  | cons e items ih =>
    have hlast : e.2.rdropWhile isBlank = e.2 := by
      rw [List.rdropWhile_eq_self_iff]
      intro hne hblank
      rw [(hvals e List.mem_cons_self).last _ (List.getLast?_eq_some_getLast hne)] at hblank
      cases hblank
    rw [List.map_cons, List.foldl_cons, List.foldl_cons, loadLine_key (hkeys e List.mem_cons_self),
      hlast]
    exact ih (fun e' he' => hkeys e' (List.mem_cons_of_mem e he'))
      (fun e' he' => hvals e' (List.mem_cons_of_mem e he')) _

theorem isKey_iniItems (ctx : Context) : ∀ e ∈ iniItems ctx, IsKey e.1 := by
  simp only [iniItems, List.forall_mem_cons]
  refine ⟨⟨⟨'T', rfl, ?_⟩, ?_⟩, ⟨⟨'C', rfl, ?_⟩, ?_⟩, ⟨⟨'C', rfl, ?_⟩, ?_⟩, ⟨⟨'C', rfl, ?_⟩, ?_⟩,
    ⟨⟨'C', rfl, ?_⟩, ?_⟩, by simp⟩ <;> decide

theorem int?_decimal_natCast (n : ℕ) : int? (decimal n) = some (n : ℤ) := by
  have h := int?_decimal n
  rwa [int?, strip_cons_of_isBlank (by decide)] at h

theorem isValue_decimal (universal : Bool) (n : ℕ) : IsValue universal (decimal n) :=
  ⟨not_mem_decimal (by decide), fun _ => not_mem_decimal (by decide), fun c hc =>
    isBlank_of_isDigit (isDigit_of_mem_decimal (List.mem_of_getLast? hc))⟩

/-- The values of the items of a context can be written when its texts can. -/
theorem isValue_iniItems {ctx : Context} {n : ℕ} (hn : ctx.topProcessId = n)
    (h : ctx.Writable universal) : ∀ e ∈ iniItems ctx, IsValue universal e.2 := by
  simp only [iniItems, List.forall_mem_cons]
  exact ⟨hn ▸ isValue_decimal universal n, h.currentDirectory, h.today, h.hostname, h.osType,
    by simp⟩

/-- The ini file of a session is the one of its log file. -/
theorem get?_record (files : Dict Text Text) (outputLogFilePrefix tracer : Text) {ctx : Context}
    {n : ℕ} (hn : ctx.topProcessId = n) :
    (record files outputLogFilePrefix tracer ctx).get?
        (contextLogFile (logFilNam outputLogFilePrefix tracer ctx.topProcessId)) =
      some (printItems (iniItems ctx)) := by
  rw [hn, contextLogFile_logFilNam, record, hn, Dict.get?_set, if_pos rfl]

end

/-- When a session is replayed from its log file, on any machine, its tracer is found, and its
context is found if and only if the texts of the context have no line break and no white space at
their ends. -/
theorem replay_iff (universal : Bool) (platform : Text) (files : Dict Text Text)
    (host ctx : Context) {outputLogFilePrefix tracer : Text} (hstart : '\n' ∉ outputLogFilePrefix)
    (htracer : '.' ∉ tracer) (hpid : 0 ≤ ctx.topProcessId) :
    defaultTracer platform (some (logFilNam outputLogFilePrefix tracer ctx.topProcessId)) none =
        some tracer ∧
      (createEventLog universal (record files outputLogFilePrefix tracer ctx) host
          (logFilNam outputLogFilePrefix tracer ctx.topProcessId) = some ctx ↔
        ctx.Writable universal) := by
  obtain ⟨n, hn⟩ := Int.eq_ofNat_of_zero_le hpid
  have hini := get?_record files outputLogFilePrefix tracer hn
  refine ⟨hn ▸ defaultTracer_logFilNam platform hstart htracer n, fun h => ?_, fun h => ?_⟩
  · obtain ⟨pid, -, hctx⟩ := Option.bind_eq_some_iff.mp h
    rw [hini] at hctx
    -- each text is a value that was read
    have hvalue (e : Text × Text) (he : e ∈ iniItems ctx) (host' : Text) :
        IsValue universal (((loadIniFile universal (some (printItems (iniItems ctx)))).get?
          e.1).getD host') := by
      obtain ⟨v', hv', hok⟩ := exists_value universal (isKey_iniItems ctx) he
      rw [hv']
      exact hok
    have hdir := hvalue ("CurrentDirectory".toList, ctx.currentDirectory) (by simp [iniItems])
      host.currentDirectory
    have hdate := hvalue ("CurrentDate".toList, ctx.today) (by simp [iniItems]) host.today
    have hhost := hvalue ("CurrentHostname".toList, ctx.hostname) (by simp [iniItems])
      host.hostname
    have hos := hvalue ("CurrentOSType".toList, ctx.osType) (by simp [iniItems]) host.osType
    rw [← Option.some.inj hctx]
    exact ⟨hdir, hdate, hhost, hos⟩
  · rw [createEventLog, hini,
      loadIniFile_printItems (isKey_iniItems ctx) (isValue_iniItems hn h)]
    change ((some (int? (decimal ctx.topProcessId))).getD (some host.topProcessId)).bind _ = _
    rw [Option.getD_some, hn, int?_decimal_natCast, Option.bind_some]
    exact congrArg some (by rw [← hn]; rfl)

/-- A session that was traced by `strace`. -/
def straceContext : Context where
  topProcessId := 1234
  currentDirectory := "/home/user".toList
  today := "2018-02-10".toList
  hostname := "fedora".toList
  osType := "linux2".toList

/-- What a command that starts has on another machine. -/
def otherHost : Context where
  topProcessId := -1
  currentDirectory := "/tmp".toList
  today := "2019-01-01".toList
  hostname := "debian".toList
  osType := "linux".toList

theorem replay_iff_straceContext :
    defaultTracer "linux".toList (some (logFilNam "logs/run".toList "strace".toList 1234)) none =
        some "strace".toList ∧
      (createEventLog true (record [] "logs/run".toList "strace".toList straceContext) otherHost
          (logFilNam "logs/run".toList "strace".toList 1234) = some straceContext ↔
        straceContext.Writable true) :=
  replay_iff true "linux".toList [] otherHost straceContext (by decide) (by decide) (by decide)

end Survol.Dockit.Replay
