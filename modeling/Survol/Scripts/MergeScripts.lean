import Survol.Lib.Effect
import Survol.Lib.Splitting
import Survol.Uris.Naming
import Survol.Uris.QueryUrls

/-!
# Merging scripts

`merge_scripts.py` runs several scripts, each with the environment of a request of its own, and
passes the concatenated errors to the output. A script may not be loaded, may be no script at all,
and may raise an exception when it runs.

## Main definitions

* `World`, `MergeState` — the environment and the flag for error messages, and the state of the
  loop.
* `mergeUrl`, `main` — one turn of the loop, and the function of the source.
* `outcome` — what becomes of a URL.
* `reports` — the errors of which the cumulated error is made.

## Main results

* `cumulatedError_main` — the cumulated error is the text of the reports.
* `main_iff` — the patterns for which every failure is reported and everything is restored.
-/

open PyText
open Survol.Uris (base64Decode basename)

namespace Survol.Scripts

/-! ## The functions -/

/-- The three variables of the environment, and whether error messages are enabled. -/
structure World where
  requestUri : Option Text
  scriptName : Option Text
  queryString : Option Text
  errorMessageEnabled : Bool

/-- The function `Main` of a script: the text of its exception, or nothing when it returns. -/
abbrev ScriptMain := World → Option Text

/-- A URL as it is sent, and what importing a module does when its turn comes. -/
structure Url where
  urlfil : Text
  importModule : Text → Except Text ScriptMain

/-- The state of the loop, with the URLs of the scripts whose `Main` was called. -/
structure MergeState where
  world : World
  cumulatedError : Text
  runs : List Text

/-- The URL of the request. -/
def requestUri (w : World) : Text :=
  match w.requestUri with
  | some script => script
  | none => match w.scriptName, w.queryString with
    | some script, some queryString =>
      if queryString ≠ [] then script ++ '?' :: queryString else script
    | _, _ => "RequestUri: No value".toList

/-- The URL without its arguments, and the arguments up to the next question mark. -/
def urlSplit (completeUrl : Text) : Text × Text :=
  let parts := splitOn '?' completeUrl
  (parts.headD [], (parts[1]?).getD [])

/-- The path of the script to load. -/
def urlPathShort (urlNoArgs : Text) : Text :=
  match find? urlNoArgs "sources_types/".toList 0 with
  | some idxHtbin => urlNoArgs.drop idxHtbin
  | none => match find? urlNoArgs "survol/".toList 0 with
    | some idxSurvol => urlNoArgs.drop (idxSurvol + "survol/".toList.length)
    | none => "INVALID_MERGED_URL".toList

/-- `os.path.dirname`: the text before the last slash, without the slashes at its end unless it is
made of them. -/
def osDirname (path : Text) : Text :=
  let head := (path.reverse.dropWhile (· ≠ '/')).reverse
  if head.all (· = '/') then head else head.rdropWhile (· = '/')

/-- The module of a script, `none` when the file is no Python script. -/
def getScriptModule (importModule : Text → Except Text ScriptMain) (currentModule fil : Text) :
    Except Text (Option ScriptMain) :=
  if fil.drop (fil.length - 3) ≠ ".py".toList then .ok none
  else (importModule (currentModule ++ '.' :: fil.take (fil.length - 3))).map some

/-- An assignment to a variable of the environment, which accepts no null character. -/
def setEnviron (put : World → Text → World) (value : Text) : Py Text MergeState Unit :=
  if '\x00' ∈ value then Py.raise "embedded null byte".toList
  else Py.modify fun s => { s with world := put s.world value }

/-- `importedMod.Main()` -/
def callMain (completeUrl : Text) (importedMod : ScriptMain) : Py Text MergeState Unit := do
  Py.modify fun s => { s with runs := s.runs ++ [completeUrl] }
  let s ← Py.get
  match importedMod s.world with
  | none => pure ()
  | some errorMsg => Py.raise errorMsg

/-- The second `try` block: the request is injected into the environment, and the script is run. -/
def runScript (completeUrl urlFilNam cgiQueryString : Text) (importedMod : ScriptMain) :
    Py Text MergeState Unit := do
  setEnviron (fun w v => { w with requestUri := some v }) (Percent.unquote completeUrl)
  setEnviron (fun w v => { w with scriptName := some v }) urlFilNam
  setEnviron (fun w v => { w with queryString := some v }) cgiQueryString
  Py.modify fun s => { s with world := { s.world with errorMessageEnabled := false } }
  callMain completeUrl importedMod

/-- The error text with a failure more. -/
def addError (cumulatedError urlNoArgs urlFilNam errorMsg : Text) : Text :=
  (if cumulatedError ≠ [] then cumulatedError ++ " ; ".toList else cumulatedError) ++
    (" url=".toList ++ urlNoArgs ++ " / ".toList ++ urlFilNam ++ ':' :: errorMsg)

section
variable (strExc : Text → Text)

/-- The URL that is decoded; `strExc` gives the text of an error of the decoder. -/
@[irreducible] def Url.completeUrl (u : Url) : Text := base64Decode strExc u.urlfil

/-- The URL without its arguments. -/
def Url.urlNoArgs (u : Url) : Text := (urlSplit (u.completeUrl strExc)).1

/-- The arguments. -/
def Url.cgiQueryString (u : Url) : Text := (urlSplit (u.completeUrl strExc)).2

/-- The file of the script. -/
def Url.urlFilNam (u : Url) : Text := basename (urlPathShort (u.urlNoArgs strExc))

/-- The name of the module. -/
def Url.moduNam (u : Url) : Text :=
  (osDirname (urlPathShort (u.urlNoArgs strExc))).map fun c => if c = '/' then '.' else c

/-- What loading the script of a URL gives. -/
@[irreducible] def Url.load (u : Url) : Except Text (Option ScriptMain) :=
  getScriptModule u.importModule (u.moduNam strExc) (u.urlFilNam strExc)

/-- One turn of the loop. -/
def mergeUrl (s : MergeState) (u : Url) : MergeState :=
  match u.load strExc with
  | .error _ => s
  | .ok none =>
    { s with cumulatedError :=
        "merge_scripts.py Cannot import complete_url=".toList ++ u.completeUrl strExc }
  | .ok (some importedMod) =>
    match (runScript (u.completeUrl strExc) (u.urlFilNam strExc) (u.cgiQueryString strExc)
        importedMod).run s with
    | (.ok _, s) => { s with world := { s.world with errorMessageEnabled := true } }
    | (.error errorMsg, s) =>
      { s with cumulatedError :=
          addError s.cumulatedError (u.urlNoArgs strExc) (u.urlFilNam strExc) errorMsg }

/-- The state after the loop. -/
def mergeUrls (urls : List Url) (w : World) : MergeState :=
  urls.foldl (mergeUrl strExc) ⟨w, [], []⟩

/-- `Main`: the state in which the output is written. -/
def main (urls : List Url) (w : World) : MergeState :=
  let origReqUri := requestUri w
  let s := mergeUrls strExc urls w
  { s with world := { s.world with requestUri := some origReqUri } }

/-! ## What becomes of a URL -/

/-- What becomes of a URL: its script is not loaded, is no Python script, is not run because the
environment does not accept the request, raises an exception, or returns. -/
inductive Outcome
  | notLoaded
  | notImported
  | notRun
  | raised (errorMsg : Text)
  | succeeded
  deriving DecidableEq

/-- The environment accepts the request of a URL. -/
def Url.Accepted (u : Url) : Prop :=
  '\x00' ∉ Percent.unquote (u.completeUrl strExc) ∧ '\x00' ∉ u.urlFilNam strExc ∧
    '\x00' ∉ u.cgiQueryString strExc

instance (u : Url) : Decidable (u.Accepted strExc) := by
  unfold Url.Accepted
  infer_instance

/-- What a script sees. -/
def Url.world (u : Url) : World :=
  ⟨some (Percent.unquote (u.completeUrl strExc)), some (u.urlFilNam strExc),
    some (u.cgiQueryString strExc), false⟩

/-- What becomes of a URL. -/
def Url.outcome (u : Url) : Outcome :=
  match u.load strExc with
  | .error _ => .notLoaded
  | .ok none => .notImported
  | .ok (some importedMod) =>
    if u.Accepted strExc then
      match importedMod (u.world strExc) with
      | none => .succeeded
      | some errorMsg => .raised errorMsg
    else .notRun

/-- The script of a URL can be loaded. -/
def Url.loadable (u : Url) : Bool :=
  match u.load strExc with
  | .ok (some _) => true
  | _ => false

/-- The `Main` of the script is called. -/
def Url.ran (u : Url) : Bool :=
  match u.outcome strExc with
  | .raised _ => true
  | .succeeded => true
  | _ => false

/-- What the turn of a URL leaves in the flag for error messages. -/
def Url.flag (u : Url) : Option Bool :=
  match u.outcome strExc with
  | .raised _ => some false
  | .succeeded => some true
  | _ => none

/-- What the turn of a URL leaves in `SCRIPT_NAME`. -/
def Url.scriptName (u : Url) : Option Text :=
  if u.loadable strExc = true ∧ '\x00' ∉ Percent.unquote (u.completeUrl strExc) ∧
      '\x00' ∉ u.urlFilNam strExc then
    some (u.urlFilNam strExc)
  else none

/-- What the turn of a URL leaves in `QUERY_STRING`. -/
def Url.queryString (u : Url) : Option Text :=
  if u.loadable strExc = true ∧ u.Accepted strExc then some (u.cgiQueryString strExc) else none

/-- An error that is reported. -/
inductive Report
  | cannotImport (completeUrl : Text)
  | raised (urlNoArgs urlFilNam errorMsg : Text)

/-- The text of an error. -/
def Report.text : Report → Text
  | cannotImport completeUrl => "merge_scripts.py Cannot import complete_url=".toList ++ completeUrl
  | raised urlNoArgs urlFilNam errorMsg =>
    " url=".toList ++ urlNoArgs ++ " / ".toList ++ urlFilNam ++ ':' :: errorMsg

/-- An error mentions a URL, the second kind without its arguments. -/
def Report.Mentions (r : Report) (u : Url) : Prop :=
  match r with
  | cannotImport completeUrl => completeUrl = u.completeUrl strExc
  | raised urlNoArgs _ _ => urlNoArgs = u.urlNoArgs strExc

/-- The error that the turn of a URL reports. -/
def Url.report (u : Url) : Option Report :=
  match u.outcome strExc with
  | .notImported => some (.cannotImport (u.completeUrl strExc))
  | .notRun =>
    some (.raised (u.urlNoArgs strExc) (u.urlFilNam strExc) "embedded null byte".toList)
  | .raised errorMsg => some (.raised (u.urlNoArgs strExc) (u.urlFilNam strExc) errorMsg)
  | _ => none

/-- The text of several errors. -/
def errorText (rs : List Report) : Text := " ; ".toList.intercalate (rs.map Report.text)

/-- The URLs from the last one on that is no Python script. -/
def lastUrls (urls : List Url) : List Url :=
  urls.foldl (fun acc u => if u.outcome strExc = .notImported then [u] else acc ++ [u]) []

/-- The errors of which the cumulated error is made. -/
def reports (urls : List Url) : List Report := (lastUrls strExc urls).filterMap (Url.report strExc)

/-! ## One turn of the loop -/

theorem run_setEnviron_bind (put : World → Text → World) (value : Text)
    (f : Unit → Py Text MergeState Unit) (s : MergeState) :
    (setEnviron put value >>= f).run s =
      if '\x00' ∈ value then (.error "embedded null byte".toList, s)
      else (f ()).run { s with world := put s.world value } := by
  rw [setEnviron]
  split <;> rfl

theorem run_callMain (completeUrl : Text) (importedMod : ScriptMain) (s : MergeState) :
    (callMain completeUrl importedMod).run s =
      ((match importedMod s.world with
        | none => .ok ()
        | some errorMsg => .error errorMsg),
        { s with runs := s.runs ++ [completeUrl] }) := by
  rw [callMain, Py.run_modify_bind, Py.run_get_bind]
  simp only
  cases importedMod s.world <;> rfl

/-- The state after a script was run, or the environment did not accept its request. -/
theorem run_runScript (u : Url) (importedMod : ScriptMain) (s : MergeState) :
    (runScript (u.completeUrl strExc) (u.urlFilNam strExc) (u.cgiQueryString strExc)
        importedMod).run s =
      if '\x00' ∈ Percent.unquote (u.completeUrl strExc) then
        (.error "embedded null byte".toList, s)
      else if '\x00' ∈ u.urlFilNam strExc then
        (.error "embedded null byte".toList,
          { s with world := { s.world with requestUri := (u.world strExc).requestUri } })
      else if '\x00' ∈ u.cgiQueryString strExc then
        (.error "embedded null byte".toList,
          { s with world :=
            { s.world with
              requestUri := (u.world strExc).requestUri
              scriptName := (u.world strExc).scriptName } })
      else
        ((match importedMod (u.world strExc) with
          | none => .ok ()
          | some errorMsg => .error errorMsg),
          { s with world := u.world strExc, runs := s.runs ++ [u.completeUrl strExc] }) := by
  rw [runScript, run_setEnviron_bind, run_setEnviron_bind, run_setEnviron_bind,
    Py.run_modify_bind, run_callMain]
  rfl

/-- The error text with an error more; a URL that is no Python script replaces the text. -/
def addReport (cumulatedError : Text) : Report → Text
  | .cannotImport completeUrl => (Report.cannotImport completeUrl).text
  | .raised urlNoArgs urlFilNam errorMsg => addError cumulatedError urlNoArgs urlFilNam errorMsg

/-- What one turn of the loop does. -/
structure Turn (s s' : MergeState) (u : Url) : Prop where
  scriptName : s'.world.scriptName = (u.scriptName strExc).or s.world.scriptName
  queryString : s'.world.queryString = (u.queryString strExc).or s.world.queryString
  flag : some s'.world.errorMessageEnabled =
    (u.flag strExc).or (some s.world.errorMessageEnabled)
  runs : s'.runs = s.runs ++ if u.ran strExc then [u.completeUrl strExc] else []
  cumulatedError : s'.cumulatedError =
    ((u.report strExc).map (addReport s.cumulatedError)).getD s.cumulatedError

/-- The turn of a URL whose script is not loaded or is no Python script. -/
theorem turn_of_not_loadable {s : MergeState} {u : Url} (hload : u.loadable strExc = false)
    (hflag : u.flag strExc = none) (hran : u.ran strExc = false)
    (herror : (mergeUrl strExc s u).cumulatedError =
      ((u.report strExc).map (addReport s.cumulatedError)).getD s.cumulatedError)
    (hworld : (mergeUrl strExc s u).world = s.world) (hruns : (mergeUrl strExc s u).runs = s.runs) :
    Turn strExc s (mergeUrl strExc s u) u where
  scriptName := by rw [hworld, Url.scriptName, hload]; rfl
  queryString := by rw [hworld, Url.queryString, hload]; rfl
  flag := by rw [hworld, hflag]; rfl
  runs := by rw [hruns, hran]; exact (List.append_nil _).symm
  cumulatedError := herror

theorem mergeUrl_of_error {s s' : MergeState} {u : Url} {m : ScriptMain} {errorMsg : Text}
    (hl : u.load strExc = .ok (some m))
    (hrun : (runScript (u.completeUrl strExc) (u.urlFilNam strExc) (u.cgiQueryString strExc)
      m).run s = (.error errorMsg, s')) :
    mergeUrl strExc s u =
      { s' with
        cumulatedError :=
          addError s'.cumulatedError (u.urlNoArgs strExc) (u.urlFilNam strExc) errorMsg } := by
  rw [mergeUrl, hl]
  simp only [hrun]

theorem mergeUrl_of_ok {s s' : MergeState} {u : Url} {m : ScriptMain}
    (hl : u.load strExc = .ok (some m))
    (hrun : (runScript (u.completeUrl strExc) (u.urlFilNam strExc) (u.cgiQueryString strExc)
      m).run s = (.ok (), s')) :
    mergeUrl strExc s u = { s' with world := { s'.world with errorMessageEnabled := true } } := by
  rw [mergeUrl, hl]
  simp only [hrun]

/-- A request that the environment does not accept changes `SCRIPT_NAME` at most. -/
theorem run_runScript_of_refused {u : Url} (m : ScriptMain) (s : MergeState)
    (hload : u.loadable strExc = true) (ha : ¬ u.Accepted strExc) :
    ∃ q, (runScript (u.completeUrl strExc) (u.urlFilNam strExc) (u.cgiQueryString strExc) m).run s =
      (.error "embedded null byte".toList, { s with world := { s.world with
        requestUri := q, scriptName := (u.scriptName strExc).or s.world.scriptName } }) := by
  rw [run_runScript]
  by_cases h₁ : '\x00' ∈ Percent.unquote (u.completeUrl strExc)
  · have hname : u.scriptName strExc = none := if_neg fun h => h.2.1 h₁
    rw [if_pos h₁, hname]
    exact ⟨_, rfl⟩
  rw [if_neg h₁]
  by_cases h₂ : '\x00' ∈ u.urlFilNam strExc
  · have hname : u.scriptName strExc = none := if_neg fun h => h.2.2 h₂
    rw [if_pos h₂, hname]
    exact ⟨_, rfl⟩
  have h₃ : '\x00' ∈ u.cgiQueryString strExc := by
    by_contra h₃
    exact ha ⟨h₁, h₂, h₃⟩
  have hname : u.scriptName strExc = some (u.urlFilNam strExc) := if_pos ⟨hload, h₁, h₂⟩
  rw [if_neg h₂, if_pos h₃, hname]
  exact ⟨_, rfl⟩

theorem run_runScript_of_accepted {u : Url} (m : ScriptMain) (s : MergeState)
    (ha : u.Accepted strExc) :
    (runScript (u.completeUrl strExc) (u.urlFilNam strExc) (u.cgiQueryString strExc) m).run s =
      ((match m (u.world strExc) with
        | none => .ok ()
        | some errorMsg => .error errorMsg),
        { s with world := u.world strExc, runs := s.runs ++ [u.completeUrl strExc] }) := by
  rw [run_runScript, if_neg ha.1, if_neg ha.2.1, if_neg ha.2.2]

/-- The turn of a URL whose script can be loaded. -/
theorem turn_of_loadable {s : MergeState} {u : Url} {m : ScriptMain}
    (hl : u.load strExc = .ok (some m)) : Turn strExc s (mergeUrl strExc s u) u := by
  have hload : u.loadable strExc = true := by rw [Url.loadable, hl]
  by_cases ha : u.Accepted strExc
  · have hname : u.scriptName strExc = some (u.urlFilNam strExc) := if_pos ⟨hload, ha.1, ha.2.1⟩
    have hquery : u.queryString strExc = some (u.cgiQueryString strExc) := if_pos ⟨hload, ha⟩
    have hrun := run_runScript_of_accepted strExc m s ha
    cases hm : m (u.world strExc) with
    | none =>
      rw [hm] at hrun
      have ho : u.outcome strExc = .succeeded := by
        rw [Url.outcome, hl]
        simp only [if_pos ha, hm]
      rw [mergeUrl_of_ok strExc hl hrun]
      constructor
      · rw [hname]; rfl
      · rw [hquery]; rfl
      · rw [Url.flag, ho]; rfl
      · rw [Url.ran, ho]; rfl
      · rw [Url.report, ho]; rfl
    | some errorMsg =>
      rw [hm] at hrun
      have ho : u.outcome strExc = .raised errorMsg := by
        rw [Url.outcome, hl]
        simp only [if_pos ha, hm]
      rw [mergeUrl_of_error strExc hl hrun]
      constructor
      · rw [hname]; rfl
      · rw [hquery]; rfl
      · rw [Url.flag, ho]; rfl
      · rw [Url.ran, ho]; rfl
      · rw [Url.report, ho]; rfl
  · have ho : u.outcome strExc = .notRun := by
      rw [Url.outcome, hl]
      exact if_neg ha
    have hquery : u.queryString strExc = none := if_neg fun h => ha h.2
    obtain ⟨q, hrun⟩ := run_runScript_of_refused strExc m s hload ha
    rw [mergeUrl_of_error strExc hl hrun]
    constructor
    · rfl
    · rw [hquery]; rfl
    · rw [Url.flag, ho]; rfl
    · rw [Url.ran, ho]; exact (List.append_nil _).symm
    · rw [Url.report, ho]; rfl

/-- What each turn of the loop does. -/
theorem turn_mergeUrl (s : MergeState) (u : Url) : Turn strExc s (mergeUrl strExc s u) u := by
  cases hl : u.load strExc with
  | error e =>
    have ho : u.outcome strExc = .notLoaded := by rw [Url.outcome, hl]
    have hs : mergeUrl strExc s u = s := by rw [mergeUrl, hl]
    refine turn_of_not_loadable strExc (by rw [Url.loadable, hl]) (by rw [Url.flag, ho])
      (by rw [Url.ran, ho]) ?_ (by rw [hs]) (by rw [hs])
    rw [hs, Url.report, ho]
    rfl
  | ok o =>
    cases o with
    | none =>
      have ho : u.outcome strExc = .notImported := by rw [Url.outcome, hl]
      refine turn_of_not_loadable strExc (by rw [Url.loadable, hl]) (by rw [Url.flag, ho])
        (by rw [Url.ran, ho]) ?_ (by rw [mergeUrl, hl]) (by rw [mergeUrl, hl])
      rw [mergeUrl, hl, Url.report, ho]
      rfl
    | some m => exact turn_of_loadable strExc hl

/-! ## The loop -/

/-- What a loop leaves in a place is its last write, or what was there. -/
theorem proj_foldl {α σ β : Type} (proj : σ → Option β) {f : σ → α → σ} {write : α → Option β}
    (h : ∀ s x, proj (f s x) = (write x).or (proj s)) (xs : List α) (s : σ) :
    proj (xs.foldl f s) = (xs.filterMap write).getLast?.or (proj s) := by
  induction xs using List.reverseRecOn with
  | nil => rfl
  | append_singleton xs x ih =>
    rw [List.foldl_append, List.foldl_cons, List.foldl_nil, h, ih, List.filterMap_append,
      List.getLast?_append, Option.or_assoc]
    congr 1
    cases hx : write x <;> simp [hx]

theorem scriptName_mergeUrls (urls : List Url) (w : World) :
    (mergeUrls strExc urls w).world.scriptName =
      (urls.filterMap (Url.scriptName strExc)).getLast?.or w.scriptName :=
  proj_foldl (fun s => s.world.scriptName)
    (fun s u => (turn_mergeUrl strExc s u).scriptName) urls _

theorem queryString_mergeUrls (urls : List Url) (w : World) :
    (mergeUrls strExc urls w).world.queryString =
      (urls.filterMap (Url.queryString strExc)).getLast?.or w.queryString :=
  proj_foldl (fun s => s.world.queryString)
    (fun s u => (turn_mergeUrl strExc s u).queryString) urls _

theorem errorMessageEnabled_mergeUrls (urls : List Url) (w : World) :
    some (mergeUrls strExc urls w).world.errorMessageEnabled =
      (urls.filterMap (Url.flag strExc)).getLast?.or (some w.errorMessageEnabled) :=
  proj_foldl (fun s => some s.world.errorMessageEnabled)
    (fun s u => (turn_mergeUrl strExc s u).flag) urls _

theorem runs_mergeUrls (urls : List Url) (w : World) :
    (mergeUrls strExc urls w).runs =
      (urls.filter (Url.ran strExc)).map (Url.completeUrl strExc) := by
  induction urls using List.reverseRecOn with
  | nil => rfl
  | append_singleton urls u ih =>
    rw [mergeUrls, List.foldl_append, List.foldl_cons, List.foldl_nil,
      (turn_mergeUrl strExc _ u).runs, ← mergeUrls, ih, List.filter_append, List.map_append]
    congr 1
    cases hu : u.ran strExc <;> simp [hu]

theorem Report.text_ne_nil (r : Report) : r.text ≠ [] := by
  cases r with
  | cannotImport completeUrl => exact List.append_ne_nil_of_left_ne_nil (by decide) _
  | raised urlNoArgs urlFilNam errorMsg =>
    exact List.append_ne_nil_of_right_ne_nil _ (List.cons_ne_nil _ _)

theorem errorText_concat {rs : List Report} (h : rs ≠ []) (r : Report) :
    errorText (rs ++ [r]) = errorText rs ++ " ; ".toList ++ r.text := by
  rw [errorText, List.map_append, List.map_singleton,
    intercalate_concat fun hmap => h (List.map_eq_nil_iff.1 hmap), ← errorText]

theorem errorText_singleton (r : Report) : errorText [r] = r.text := List.intercalate_singleton

theorem errorText_eq_nil {rs : List Report} : errorText rs = [] ↔ rs = [] := by
  refine ⟨fun h => ?_, by rintro rfl; rfl⟩
  induction rs using List.reverseRecOn with
  | nil => rfl
  | append_singleton rs r _ =>
    by_cases hrs : rs = []
    · rw [hrs, List.nil_append, errorText_singleton] at h
      exact absurd h r.text_ne_nil
    · rw [errorText_concat hrs] at h
      exact absurd (List.append_eq_nil_iff.1 h).2 r.text_ne_nil

theorem addError_errorText (rs : List Report) (urlNoArgs urlFilNam errorMsg : Text) :
    addError (errorText rs) urlNoArgs urlFilNam errorMsg =
      errorText (rs ++ [.raised urlNoArgs urlFilNam errorMsg]) := by
  rw [addError]
  by_cases hrs : rs = []
  · rw [hrs, List.nil_append, errorText_singleton, if_neg fun h => h rfl]
    rfl
  · rw [errorText_concat hrs, if_pos fun h => hrs (errorText_eq_nil.1 h)]
    rfl

theorem reports_concat (urls : List Url) (u : Url) :
    reports strExc (urls ++ [u]) =
      if u.outcome strExc = .notImported then [.cannotImport (u.completeUrl strExc)]
      else reports strExc urls ++ (u.report strExc).toList := by
  rw [reports, lastUrls, List.foldl_append, List.foldl_cons, List.foldl_nil, ← lastUrls]
  by_cases ho : u.outcome strExc = .notImported
  · rw [if_pos ho, if_pos ho, List.filterMap_cons, Url.report, ho]
    rfl
  · rw [if_neg ho, if_neg ho, List.filterMap_append, ← reports]
    cases hr : u.report strExc <;> simp [hr]

/-- The cumulated error is the text of the reports. -/
theorem cumulatedError_mergeUrls (urls : List Url) (w : World) :
    (mergeUrls strExc urls w).cumulatedError = errorText (reports strExc urls) := by
  induction urls using List.reverseRecOn with
  | nil => rfl
  | append_singleton urls u ih =>
    rw [mergeUrls, List.foldl_append, List.foldl_cons, List.foldl_nil,
      (turn_mergeUrl strExc _ u).cumulatedError, ← mergeUrls, ih, reports_concat]
    cases ho : u.outcome strExc with
    | notLoaded | succeeded =>
      rw [Url.report, ho]
      exact congrArg errorText (List.append_nil _).symm
    | notImported =>
      rw [Url.report, ho, if_pos rfl, errorText_singleton]
      rfl
    | notRun | raised errorMsg =>
      rw [Url.report, ho]
      exact addError_errorText _ _ _ _

/-! ## The result -/

/-- Merging does what it is for: every URL that fails is in the error, every script that can be
loaded is run once and in order, and the flag and the environment are as before. -/
structure Merged (urls : List Url) (w : World) : Prop where
  reported : ∀ u ∈ urls, u.outcome strExc ≠ .succeeded →
    ∃ r ∈ reports strExc urls, r.Mentions strExc u
  runs : (main strExc urls w).runs =
    (urls.filter (Url.loadable strExc)).map (Url.completeUrl strExc)
  errorMessageEnabled : (main strExc urls w).world.errorMessageEnabled = true
  requestUri : (main strExc urls w).world.requestUri = w.requestUri
  scriptName : (main strExc urls w).world.scriptName = w.scriptName
  queryString : (main strExc urls w).world.queryString = w.queryString

/-- The error that a URL reports is about another URL as well. -/
def Url.Covers (v u : Url) : Prop :=
  match v.outcome strExc with
  | .notImported => v.completeUrl strExc = u.completeUrl strExc
  | .notRun | .raised _ => v.urlNoArgs strExc = u.urlNoArgs strExc
  | _ => False

/-- The patterns that lose nothing. -/
structure Lossless (urls : List Url) (w : World) : Prop where
  covered : ∀ u ∈ urls, u.outcome strExc ≠ .succeeded →
    ∃ v ∈ lastUrls strExc urls, v.Covers strExc u
  accepted : ∀ u ∈ urls, u.loadable strExc = true → u.Accepted strExc
  lastRun : (urls.filterMap (Url.flag strExc)).getLast?.getD w.errorMessageEnabled = true
  requestUri : w.requestUri.isSome = true
  scriptName : ∀ v ∈ (urls.filterMap (Url.scriptName strExc)).getLast?, w.scriptName = some v
  queryString : ∀ v ∈ (urls.filterMap (Url.queryString strExc)).getLast?, w.queryString = some v

theorem mentions_report (v u : Url) :
    (∃ r ∈ v.report strExc, r.Mentions strExc u) ↔ v.Covers strExc u := by
  rw [Url.report, Url.Covers]
  cases v.outcome strExc <;> simp [Report.Mentions]

theorem exists_mentions_iff (urls : List Url) (u : Url) :
    (∃ r ∈ reports strExc urls, r.Mentions strExc u) ↔
      ∃ v ∈ lastUrls strExc urls, v.Covers strExc u := by
  simp only [reports, List.mem_filterMap, ← mentions_report]
  constructor
  · rintro ⟨r, ⟨v, hv, hr⟩, hm⟩
    exact ⟨v, hv, r, hr, hm⟩
  · rintro ⟨v, hv, r, hr, hm⟩
    exact ⟨r, ⟨v, hv, hr⟩, hm⟩

theorem ran_iff (u : Url) :
    u.ran strExc = true ↔ u.loadable strExc = true ∧ u.Accepted strExc := by
  rw [Url.ran, Url.outcome, Url.loadable]
  cases u.load strExc with
  | error e => simp
  | ok o =>
    cases o with
    | none => simp
    | some m =>
      by_cases ha : u.Accepted strExc
      · cases hm : m (u.world strExc) <;> simp [ha, hm]
      · simp [ha]

/-- Every script that can be loaded is run, if and only if every one of them is accepted. -/
theorem map_filter_ran_iff (urls : List Url) :
    (urls.filter (Url.ran strExc)).map (Url.completeUrl strExc) =
        (urls.filter (Url.loadable strExc)).map (Url.completeUrl strExc) ↔
      ∀ u ∈ urls, u.loadable strExc = true → u.Accepted strExc := by
  have hran : urls.filter (Url.ran strExc) =
      (urls.filter (Url.loadable strExc)).filter (Url.ran strExc) := by
    rw [List.filter_filter]
    refine List.filter_congr fun u _ => ?_
    rw [Bool.eq_iff_iff, Bool.and_eq_true, ran_iff]
    tauto
  constructor
  · intro h u hu hload
    have hlen := congrArg List.length h
    rw [List.length_map, List.length_map, hran, List.length_filter_eq_length_iff] at hlen
    exact ((ran_iff strExc u).1 (hlen u (List.mem_filter.2 ⟨hu, hload⟩))).2
  · intro h
    rw [hran, List.filter_eq_self.2]
    intro u hu
    obtain ⟨hu, hload⟩ := List.mem_filter.1 hu
    exact (ran_iff strExc u).2 ⟨hload, h u hu hload⟩

theorem some_requestUri_eq_iff (w : World) :
    some (Scripts.requestUri w) = w.requestUri ↔ w.requestUri.isSome = true := by
  rw [Scripts.requestUri]
  cases w.requestUri <;> simp

theorem or_eq_right_iff {α : Type} (o o' : Option α) :
    o.or o' = o' ↔ ∀ v ∈ o, o' = some v := by
  cases o with
  | none => simp
  | some a => simp [eq_comm]

/-- The cumulated error is the text of the reports, and merging does what it is for if and only if
nothing is lost: from the last URL on that is no Python script there is an error about every URL
that failed, the environment accepts every request, the last script that ran returned, and the last
values written are the original ones. -/
theorem main_iff (urls : List Url) (w : World) :
    (main strExc urls w).cumulatedError = errorText (reports strExc urls) ∧
      (Merged strExc urls w ↔ Lossless strExc urls w) := by
  refine ⟨cumulatedError_mergeUrls strExc urls w, ?_⟩
  have hcover : ∀ u, (∃ r ∈ reports strExc urls, r.Mentions strExc u) ↔ _ :=
    exists_mentions_iff strExc urls
  have hruns := map_filter_ran_iff strExc urls
  rw [← runs_mergeUrls strExc urls w] at hruns
  have henabled : (mergeUrls strExc urls w).world.errorMessageEnabled =
      (urls.filterMap (Url.flag strExc)).getLast?.getD w.errorMessageEnabled := by
    have h := errorMessageEnabled_mergeUrls strExc urls w
    rw [Option.or_some] at h
    exact Option.some.inj h
  have hname := or_eq_right_iff (urls.filterMap (Url.scriptName strExc)).getLast? w.scriptName
  rw [← scriptName_mergeUrls] at hname
  have hquery := or_eq_right_iff (urls.filterMap (Url.queryString strExc)).getLast? w.queryString
  rw [← queryString_mergeUrls] at hquery
  constructor
  · intro h
    exact ⟨fun u hu hf => (hcover u).1 (h.reported u hu hf), hruns.1 h.runs,
      henabled.symm.trans h.errorMessageEnabled, (some_requestUri_eq_iff w).1 h.requestUri,
      hname.1 h.scriptName, hquery.1 h.queryString⟩
  · intro h
    exact ⟨fun u hu hf => (hcover u).2 (h.covered u hu hf), hruns.2 h.accepted,
      henabled.trans h.lastRun, (some_requestUri_eq_iff w).2 h.requestUri, hname.2 h.scriptName,
      hquery.2 h.queryString⟩

/-- A script that cannot be loaded: there is no error at all. -/
theorem main_not_loaded :
    ¬ Merged id [⟨Uris.base64Encode "survol/entity_wmi.py?xid=b".toList,
          fun _ => .error "No module named wmi".toList⟩]
      ⟨some "/survol/merge_scripts.py".toList, some "/survol/merge_scripts.py".toList,
        some [], true⟩ := by
  intro h
  let u : Url := ⟨Uris.base64Encode "survol/entity_wmi.py?xid=b".toList,
    fun _ => .error "No module named wmi".toList⟩
  have hurl : u.completeUrl id = "survol/entity_wmi.py?xid=b".toList := by
    rw [Url.completeUrl]
    exact Uris.base64Decode_base64Encode id _
  have hfil : u.urlFilNam id = "entity_wmi.py".toList := by
    rw [Url.urlFilNam, Url.urlNoArgs, hurl]
    decide
  have hload : u.load id = .error "No module named wmi".toList := by
    rw [Url.load, hfil]
    rfl
  have houtcome : u.outcome id = .notLoaded := by rw [Url.outcome, hload]
  obtain ⟨v, hv, hcovers⟩ := (exists_mentions_iff id [u] u).1
    (h.reported u (List.mem_singleton.2 rfl) (by rw [houtcome]; decide))
  have hlast : lastUrls id [u] = [u] := by
    rw [lastUrls, List.foldl_cons, List.foldl_nil, houtcome]
    rfl
  rw [hlast, List.mem_singleton] at hv
  rw [hv, Url.Covers, houtcome] at hcovers
  exact hcovers

end

end Survol.Scripts
