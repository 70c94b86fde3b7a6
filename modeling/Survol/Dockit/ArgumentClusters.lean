import Survol.Dockit.Factorisation
import Mathlib.Data.List.SplitBy

/-!
# Clusters of batches with the same arguments

`ClusterizeBatchesByArguments` walks over the list of a flow with two indices, and replaces a
slice of it in place as soon as its end is met. Each run of batches with the same arguments is
replaced by one sequence, and no other batch is.

## Main definitions

* `BatchLet` — a batch of a flow, with its times.
* `batchLetSequence` — the sequence of some batches.
* `clusterizeLoop` — the loop of `ClusterizeBatchesByArguments`.
* `runsOf`, `MaximalRuns` — the maximal runs of batches with the same arguments.

## Main results

* `clusterizeLoop_eq` — the loop replaces the runs, from any state on.
* `clusterizeByArguments_runs` — what becomes of a flow.
-/

open PyText

namespace Survol.Dockit

/-! ## Batches and their sequences -/

/-- A batch of a flow, with the times of its core. -/
structure BatchLet where
  pid : ℤ
  funcNam : Text
  significantArgs : List SigArg
  timeStart : Text
  timeEnd : Text
  occurrences : ℕ
  style : Text
  deriving DecidableEq

/-- A number of at most two digits that is not above a bound, in a time-stamp. -/
def timeField? (max : ℕ) (s : Text) : Option ℕ :=
  if s.length ≤ 2 then (nat? 10 s).filter (· ≤ max) else none

/-- The microseconds of a time-stamp: at most six digits after the point. -/
def microseconds? (s : Text) : Option ℕ :=
  if s.length ≤ 6 then (nat? 10 s).map (· * 10 ^ (6 - s.length)) else none

/-- `strptime(s, '%H:%M:%S.%f')`, in microseconds. -/
def strptime? (s : Text) : Option ℕ :=
  match splitOn ':' s with
  | [hours, minutes, seconds] => match splitOn '.' seconds with
    | [seconds, fraction] => do
      let h ← timeField? 23 hours
      let m ← timeField? 59 minutes
      let sec ← timeField? 59 seconds
      let micro ← microseconds? fraction
      return ((h * 60 + m) * 60 + sec) * 1000000 + micro
    | _ => none
  | _ => none

/-- The two time-stamps of a batch can be read. -/
def BatchLet.ValidTimes (b : BatchLet) : Prop :=
  (strptime? b.timeStart).isSome ∧ (strptime? b.timeEnd).isSome

/-- `BatchLetSequence(arrBatch, style)`: the names of the members are joined, their arguments are
kept once, and it lasts from the first to the last one. It fails without a member, or if a
time-stamp cannot be read. -/
def batchLetSequence (style : Text) (arrBatch : List BatchLet) : Option BatchLet := do
  let first ← arrBatch.head?
  let last ← arrBatch.getLast?
  let _ ← strptime? last.timeEnd
  let _ ← strptime? first.timeStart
  return {
    pid := first.pid
    funcNam := '(' :: ['+'].intercalate (arrBatch.map BatchLet.funcNam) ++ [')']
    significantArgs := arrBatch.foldl (fun args b => addDistinct args b.significantArgs) []
    timeStart := first.timeStart
    timeEnd := last.timeEnd
    occurrences := 1
    style := style }

/-! ## The loop -/

/-- What the head of the loop finds: the slice has no argument, it goes on, or it ends. -/
inductive Comparison
  | noArgs
  | sameArgs
  | otherArgs

section Loop

variable {α : Type} (significantArgs : α → List SigArg) (sequence : List α → Option α)

/-- The batch at `idxBatch`, if it is in the list, against the one at `idxLast`. -/
def compareArgs (listBatchLets : List α) (lenBatch idxLast idxBatch : ℕ) : Option Comparison :=
  if idxBatch < lenBatch then
    match listBatchLets[idxLast]? with
    | none => none
    | some lastBatch =>
      if significantArgs lastBatch = [] then some .noArgs
      else match listBatchLets[idxBatch]? with
        | none => none
        | some currentBatch =>
          if significantArgs currentBatch = significantArgs lastBatch then some .sameArgs
          else some .otherArgs
  else some .otherArgs

/-- The loop of `ClusterizeBatchesByArguments`: the batches from `idxLast` up to `idxBatch` have the
same arguments. It fails on an index out of range, or if a sequence cannot be made. -/
def clusterizeLoop (listBatchLets : List α) (lenBatch numSubst idxLast idxBatch : ℕ) :
    Option (List α × ℕ) :=
  if _h : idxBatch ≤ lenBatch then
    match compareArgs significantArgs listBatchLets lenBatch idxLast idxBatch with
    | none => none
    | some .noArgs => clusterizeLoop listBatchLets lenBatch numSubst (idxLast + 1) (idxBatch + 1)
    | some .sameArgs => clusterizeLoop listBatchLets lenBatch numSubst idxLast (idxBatch + 1)
    | some .otherArgs =>
      if idxLast + 1 < idxBatch then
        match sequence ((listBatchLets.take idxBatch).drop idxLast) with
        | none => none
        | some batchSeq =>
          clusterizeLoop (listBatchLets.take idxLast ++ batchSeq :: listBatchLets.drop idxBatch)
            (lenBatch - (idxBatch - idxLast - 1)) (numSubst + 1) (idxLast + 1) (idxLast + 2)
      else clusterizeLoop listBatchLets lenBatch numSubst (idxLast + 1) (idxLast + 2)
  else some (listBatchLets, numSubst)
termination_by lenBatch + 1 - idxBatch
decreasing_by all_goals omega

/-! ## The runs -/

/-- Two neighbours with the same arguments, which are not empty. -/
def sameArgs (a b : α) : Bool := significantArgs a ≠ [] ∧ significantArgs b = significantArgs a

/-- The maximal runs of batches with the same arguments. -/
def runsOf (l : List α) : List (List α) := l.splitBy (sameArgs significantArgs)

/-- What replaces a run: a single batch stays. -/
def clusterOf : List α → Option α
  | [a] => some a
  | run => sequence run

/-- The number of runs that are replaced. -/
def numRuns (runs : List (List α)) : ℕ := runs.countP (2 ≤ ·.length)

variable {significantArgs sequence}

theorem sameArgs_eq_true {a b : α} :
    sameArgs significantArgs a b = true ↔
      significantArgs a ≠ [] ∧ significantArgs b = significantArgs a := by
  simp [sameArgs]

theorem sameArgs_eq_false {a b : α} :
    sameArgs significantArgs a b = false ↔
      (significantArgs a ≠ [] → significantArgs b ≠ significantArgs a) := by
  simp [sameArgs]

/-- All the batches of a run have the arguments of the first one. -/
theorem args_of_isChain {a : α} {run : List α}
    (h : (a :: run).IsChain fun x y => sameArgs significantArgs x y) :
    ∀ b ∈ a :: run, significantArgs b = significantArgs a := by
  induction run generalizing a with
  | nil => simp
  | cons c run ih =>
    rw [List.isChain_cons_cons, sameArgs_eq_true] at h
    intro b hb
    rcases List.mem_cons.mp hb with rfl | hb
    · rfl
    · exact (ih h.2 b hb).trans h.1.2

/-- A run of several batches has arguments. -/
theorem ne_nil_of_isChain {a : α} {run : List α}
    (h : (a :: run).IsChain fun x y => sameArgs significantArgs x y) (hrun : run ≠ []) :
    significantArgs a ≠ [] := by
  cases run with
  | nil => exact absurd rfl hrun
  | cons c run =>
    rw [List.isChain_cons_cons, sameArgs_eq_true] at h
    exact h.1.1

theorem runsOf_append {run rest : List α} {b : α} (hne : run ≠ [])
    (hrun : run.IsChain fun x y => sameArgs significantArgs x y)
    (hlast : ∀ z ∈ run.getLast?, sameArgs significantArgs z b = false) :
    runsOf significantArgs (run ++ b :: rest) = run :: runsOf significantArgs (b :: rest) := by
  rw [runsOf, List.splitBy_append_cons rest hlast, List.splitBy_of_isChain hne hrun]
  rfl

/-- The end of a run. -/
theorem runsOf_of_isChain {run : List α} (hne : run ≠ [])
    (hrun : run.IsChain fun x y => sameArgs significantArgs x y) :
    runsOf significantArgs run = [run] := List.splitBy_of_isChain hne hrun

/-! ## The loop replaces the runs -/

theorem compareArgs_end {done run : List α} :
    compareArgs significantArgs (done ++ (run ++ [])) (done ++ (run ++ [])).length done.length
      (done.length + run.length) = some .otherArgs := by
  rw [compareArgs, if_neg (by simp)]

/-- What the batch after a run tells. -/
theorem compareArgs_next {done run rest : List α} {a b : α} :
    compareArgs significantArgs (done ++ ((a :: run) ++ b :: rest))
        (done ++ ((a :: run) ++ b :: rest)).length done.length (done.length + (a :: run).length) =
      if significantArgs a = [] then some .noArgs
      else if significantArgs b = significantArgs a then some .sameArgs else some .otherArgs := by
  have hlast : (done ++ ((a :: run) ++ b :: rest))[done.length]? = some a := by simp
  have hnext : (done ++ ((a :: run) ++ b :: rest))[done.length + (a :: run).length]? = some b := by
    rw [List.getElem?_append_right (by omega), Nat.add_sub_cancel_left,
      List.getElem?_append_right le_rfl, Nat.sub_self]
    rfl
  rw [compareArgs, if_pos (by simp), hlast, hnext]

theorem clusterizeLoop_end (l : List α) (numSubst : ℕ) :
    clusterizeLoop significantArgs sequence l l.length numSubst l.length (l.length + 1) =
      some (l, numSubst) := by
  rw [clusterizeLoop, dif_neg (by omega)]

/-- The end of a run is met: it is replaced. -/
theorem clusterizeLoop_replace {done run rest : List α} (numSubst : ℕ) (hne : run ≠ [])
    (hother : compareArgs significantArgs (done ++ (run ++ rest)) (done ++ (run ++ rest)).length
      done.length (done.length + run.length) = some .otherArgs) :
    clusterizeLoop significantArgs sequence (done ++ (run ++ rest))
        (done ++ (run ++ rest)).length numSubst done.length (done.length + run.length) =
      (clusterOf sequence run).bind fun x =>
        clusterizeLoop significantArgs sequence (done ++ x :: rest) (done ++ x :: rest).length
          (numSubst + if 2 ≤ run.length then 1 else 0) (done.length + 1) (done.length + 2) := by
  have hpos := List.length_pos_of_ne_nil hne
  rw [clusterizeLoop, dif_pos (by simp), hother]
  dsimp only
  by_cases htwo : 2 ≤ run.length
  · have hslice : ((done ++ (run ++ rest)).take (done.length + run.length)).drop done.length =
        run := by
      rw [← List.append_assoc, ← List.length_append, List.take_left, List.drop_left]
    have hclusterOf : clusterOf sequence run = sequence run := by
      match run, htwo with
      | _ :: _ :: _, _ => rfl
    rw [if_pos (by omega), hslice, hclusterOf, if_pos htwo]
    cases sequence run with
    | none => rfl
    | some x =>
      have hlen : (done ++ (run ++ rest)).length - (done.length + run.length - done.length - 1) =
          (done ++ x :: rest).length := by
        simp only [List.length_append, List.length_cons]
        omega
      have htake : (done ++ (run ++ rest)).take done.length = done := by simp
      have hdrop : (done ++ (run ++ rest)).drop (done.length + run.length) = rest := by simp
      simp only [hlen, htake, hdrop, Option.bind_some]
  · match run, hne with
    | [a], _ =>
      rw [if_neg (by simp : ¬ done.length + 1 < done.length + [a].length), if_neg htwo]
      rfl
    | _ :: _ :: rest, _ => exact absurd (Nat.le_add_left 2 rest.length) htwo

/-- The last batch of a run does not go on with the batch after it. -/
theorem sameArgs_getLast_eq_false {a b : α} {run : List α}
    (hrun : (a :: run).IsChain fun x y => sameArgs significantArgs x y)
    (hother : significantArgs a = [] ∨ significantArgs b ≠ significantArgs a) :
    ∀ z ∈ (a :: run).getLast?, sameArgs significantArgs z b = false := by
  intro z hz
  have hza := args_of_isChain hrun z (List.mem_of_getLast? hz)
  rw [sameArgs_eq_false, hza]
  intro hne
  exact hother.resolve_left hne

theorem isChain_append_singleton {a b : α} {run : List α}
    (hrun : (a :: run).IsChain fun x y => sameArgs significantArgs x y)
    (hne : significantArgs a ≠ []) (hsame : significantArgs b = significantArgs a) :
    (a :: (run ++ [b])).IsChain fun x y => sameArgs significantArgs x y := by
  rw [← List.cons_append, List.isChain_append]
  refine ⟨hrun, .singleton b, fun z hz y hy => ?_⟩
  have hza := args_of_isChain hrun z (List.mem_of_getLast? hz)
  cases hy
  rw [sameArgs_eq_true, hza]
  exact ⟨hne, hsame⟩

/-- The run ends at the next batch: the loop goes on from there. -/
theorem clusterizeLoop_next {done run rest : List α} {a b : α} (numSubst : ℕ)
    (hrun : (a :: run).IsChain fun x y => sameArgs significantArgs x y)
    (hother : significantArgs a = [] ∨ significantArgs b ≠ significantArgs a) :
    clusterizeLoop significantArgs sequence (done ++ ((a :: run) ++ b :: rest))
        (done ++ ((a :: run) ++ b :: rest)).length numSubst done.length
        (done.length + (a :: run).length) =
      (clusterOf sequence (a :: run)).bind fun x =>
        clusterizeLoop significantArgs sequence (done ++ x :: b :: rest)
          (done ++ x :: b :: rest).length
          (numSubst + if 2 ≤ (a :: run).length then 1 else 0) (done.length + 1)
          (done.length + 2) := by
  by_cases hargs : significantArgs a = []
  · have hnil : run = [] := by
      by_contra hne
      exact ne_nil_of_isChain hrun hne hargs
    subst hnil
    rw [clusterizeLoop, dif_pos (by simp), compareArgs_next, if_pos hargs]
    rfl
  · have hne : significantArgs b ≠ significantArgs a := hother.resolve_left hargs
    refine clusterizeLoop_replace numSubst (List.cons_ne_nil a run) ?_
    rw [compareArgs_next, if_neg hargs, if_neg hne]

/-- The runs after the first one are those of the rest. -/
theorem mapM_clusterOf_cons (run : List α) (runs : List (List α)) (done : List α) (n : ℕ) :
    (((run :: runs).mapM (clusterOf sequence)).map fun clusters =>
        (done ++ clusters, n + numRuns (run :: runs))) =
      (clusterOf sequence run).bind fun x =>
        (runs.mapM (clusterOf sequence)).map fun clusters =>
          ((done ++ [x]) ++ clusters, (n + if 2 ≤ run.length then 1 else 0) + numRuns runs) := by
  have hcount : numRuns (run :: runs) = (if 2 ≤ run.length then 1 else 0) + numRuns runs := by
    simp [numRuns, List.countP_cons, Nat.add_comm]
  rw [hcount, ← Nat.add_assoc]
  cases hx : clusterOf sequence run with
  | none => simp [hx]
  | some x => cases hruns : runs.mapM (clusterOf sequence) <;> simp [hx, hruns]

/-- **The loop replaces each run**, from the run that starts at `idxLast` on. -/
theorem clusterizeLoop_eq (done : List α) (a : α) (run rest : List α) (numSubst : ℕ)
    (hrun : (a :: run).IsChain fun x y => sameArgs significantArgs x y) :
    clusterizeLoop significantArgs sequence (done ++ ((a :: run) ++ rest))
        (done ++ ((a :: run) ++ rest)).length numSubst done.length
        (done.length + (a :: run).length) =
      ((runsOf significantArgs ((a :: run) ++ rest)).mapM (clusterOf sequence)).map fun clusters =>
        (done ++ clusters, numSubst + numRuns (runsOf significantArgs ((a :: run) ++ rest))) := by
  induction rest generalizing done a run numSubst with
  | nil =>
    rw [clusterizeLoop_replace numSubst (List.cons_ne_nil a run) compareArgs_end,
      List.append_nil, runsOf_of_isChain (List.cons_ne_nil a run) hrun, mapM_clusterOf_cons]
    congr 1
    funext x
    have hend := @clusterizeLoop_end α significantArgs sequence (done ++ [x])
      (numSubst + if 2 ≤ (a :: run).length then 1 else 0)
    rw [List.length_append, List.length_singleton] at hend
    rw [List.length_append, List.length_singleton, hend]
    simp [numRuns]
  | cons b rest ih =>
    by_cases hsame : significantArgs a ≠ [] ∧ significantArgs b = significantArgs a
    · have hgoes := ih done a (run ++ [b]) numSubst
        (isChain_append_singleton hrun hsame.1 hsame.2)
      rw [clusterizeLoop, dif_pos (by simp), compareArgs_next, if_neg hsame.1, if_pos hsame.2]
      simpa [Nat.add_assoc] using hgoes
    · have hother : significantArgs a = [] ∨ significantArgs b ≠ significantArgs a := by
        by_contra h
        rw [not_or, not_not] at h
        exact hsame h
      rw [runsOf_append (List.cons_ne_nil a run) hrun (sameArgs_getLast_eq_false hrun hother),
        clusterizeLoop_next numSubst hrun hother, mapM_clusterOf_cons]
      congr 1
      funext x
      have hgoes := ih (done ++ [x]) b [] (numSubst + if 2 ≤ (a :: run).length then 1 else 0)
        (.singleton b)
      simpa using hgoes

/-- The loop on a whole flow. -/
theorem clusterizeLoop_zero (flow : List α) :
    clusterizeLoop significantArgs sequence flow flow.length 0 0 1 =
      ((runsOf significantArgs flow).mapM (clusterOf sequence)).map fun clusters =>
        (clusters, numRuns (runsOf significantArgs flow)) := by
  cases flow with
  | nil => exact clusterizeLoop_end [] 0
  | cons a flow =>
    have h := @clusterizeLoop_eq α significantArgs sequence [] a [] flow 0 (.singleton a)
    simpa using h

/-- A flow is cut into its maximal runs. -/
structure MaximalRuns (significantArgs : α → List SigArg) (flow : List α) (runs : List (List α)) :
    Prop where
  flatten : runs.flatten = flow
  ne_nil : ∀ run ∈ runs, run ≠ []
  same : ∀ run ∈ runs, 2 ≤ run.length → ∃ args ≠ [], ∀ b ∈ run, significantArgs b = args
  maximal : runs.IsChain fun run next => ∀ a ∈ run.getLast?, ∀ b ∈ next.head?,
    significantArgs a ≠ [] → significantArgs b ≠ significantArgs a

theorem maximalRuns_runsOf (flow : List α) :
    MaximalRuns significantArgs flow (runsOf significantArgs flow) where
  flatten := List.flatten_splitBy _ flow
  ne_nil _ h := List.ne_nil_of_mem_splitBy h
  same run h htwo := by
    have hchain := List.isChain_of_mem_splitBy h
    match run, htwo with
    | a :: b :: run, _ =>
      exact ⟨_, ne_nil_of_isChain hchain (List.cons_ne_nil b run), args_of_isChain hchain⟩
  maximal := by
    refine (List.isChain_getLast_head_splitBy _ flow).imp fun run next h a ha b hb => ?_
    obtain ⟨hrun, hnext, hfalse⟩ := h
    rw [List.getLast_of_mem_getLast? ha, List.head_of_mem_head? hb] at hfalse
    exact sameArgs_eq_false.mp hfalse

end Loop

/-! ## The flows of batches -/

namespace BatchLet

/-- `ClusterizeBatchesByArguments`: the list of the flow and the returned number. -/
def clusterizeBatchesByArguments (listBatchLets : List BatchLet) : Option (List BatchLet × ℕ) :=
  clusterizeLoop significantArgs (batchLetSequence "Args".toList) listBatchLets
    listBatchLets.length 0 0 1

/-- What a sequence tells of the batches that it was built from: their process, their names, each
of their arguments once, in the order of the first time, and when they start and end. -/
structure IsSequenceOf (style : Text) (run : List BatchLet) (b : BatchLet) : Prop where
  pid : run.head?.map BatchLet.pid = some b.pid
  funcNam : b.funcNam = '(' :: ['+'].intercalate (run.map BatchLet.funcNam) ++ [')']
  significantArgs : b.significantArgs = (run.flatMap BatchLet.significantArgs).eraseDups
  timeStart : run.head?.map BatchLet.timeStart = some b.timeStart
  timeEnd : run.getLast?.map BatchLet.timeEnd = some b.timeEnd
  occurrences : b.occurrences = 1
  style : b.style = style

/-- What stands for a run: its only batch, or a sequence of all its batches. -/
def StandsFor (run : List BatchLet) (b : BatchLet) : Prop :=
  run = [b] ∨ (2 ≤ run.length ∧ IsSequenceOf "Args".toList run b)

theorem eraseDups_concat (args : List SigArg) (a : SigArg) :
    (args ++ [a]).eraseDups = if a ∈ args then args.eraseDups else args.eraseDups ++ [a] := by
  rw [List.eraseDups_append]
  by_cases ha : a ∈ args <;> simp [ha, List.removeAll, List.eraseDups_cons]

/-- The loops over the arguments keep each of them the first time. -/
theorem addDistinct_eraseDups (args l : List SigArg) :
    addDistinct args.eraseDups l = (args ++ l).eraseDups := by
  induction l generalizing args with
  | nil => rw [addDistinct, List.append_nil]
  | cons a l ih =>
    have happ : args ++ a :: l = (args ++ [a]) ++ l := by simp
    rw [addDistinct, happ, ← ih (args ++ [a]), eraseDups_concat]
    by_cases ha : a ∈ args <;> simp [ha]

theorem foldl_addDistinct (args : List SigArg) (arrBatch : List BatchLet) :
    arrBatch.foldl (fun args b => addDistinct args b.significantArgs) args.eraseDups =
      (args ++ arrBatch.flatMap BatchLet.significantArgs).eraseDups := by
  induction arrBatch generalizing args with
  | nil => rw [List.foldl_nil, List.flatMap_nil, List.append_nil]
  | cons b arrBatch ih =>
    rw [List.foldl_cons, addDistinct_eraseDups, ih, List.append_assoc, List.flatMap_cons]

/-- A sequence that is made tells all this of its batches. -/
theorem isSequenceOf_batchLetSequence {style : Text} {arrBatch : List BatchLet} {b : BatchLet}
    (h : batchLetSequence style arrBatch = some b) : IsSequenceOf style arrBatch b := by
  simp only [batchLetSequence, Option.bind_eq_bind, Option.bind_eq_some_iff] at h
  obtain ⟨first, hfirst, last, hlast, _, _, _, _, h⟩ := h
  cases h
  exact {
    pid := by rw [hfirst]; rfl
    funcNam := rfl
    significantArgs := foldl_addDistinct [] arrBatch
    timeStart := by rw [hfirst]; rfl
    timeEnd := by rw [hlast]; rfl
    occurrences := rfl
    style := rfl }

theorem isSome_batchLetSequence (style : Text) {arrBatch : List BatchLet} (hne : arrBatch ≠ [])
    (h : ∀ b ∈ arrBatch, b.ValidTimes) : (batchLetSequence style arrBatch).isSome := by
  have hfirst := (h _ (List.head_mem hne)).1
  have hlast := (h _ (List.getLast_mem hne)).2
  obtain ⟨start, hstart⟩ := Option.isSome_iff_exists.mp hfirst
  obtain ⟨stop, hstop⟩ := Option.isSome_iff_exists.mp hlast
  simp [batchLetSequence, List.head?_eq_some_head hne, List.getLast?_eq_some_getLast hne, hstart,
    hstop]

theorem exists_standsFor {run : List BatchLet} (hne : run ≠ []) (h : ∀ b ∈ run, b.ValidTimes) :
    ∃ b, clusterOf (batchLetSequence "Args".toList) run = some b ∧ StandsFor run b := by
  match run, hne with
  | [a], _ => exact ⟨a, rfl, .inl rfl⟩
  | a :: c :: run, hne =>
    obtain ⟨b, hb⟩ := Option.isSome_iff_exists.mp (isSome_batchLetSequence "Args".toList hne h)
    exact ⟨b, hb, .inr ⟨Nat.le_add_left 2 run.length, isSequenceOf_batchLetSequence hb⟩⟩

theorem exists_clusters {runs : List (List BatchLet)} (hne : ∀ run ∈ runs, run ≠ [])
    (h : ∀ run ∈ runs, ∀ b ∈ run, b.ValidTimes) :
    ∃ clusters, runs.mapM (clusterOf (batchLetSequence "Args".toList)) = some clusters ∧
      List.Forall₂ StandsFor runs clusters := by
  induction runs with
  | nil => exact ⟨[], rfl, .nil⟩
  | cons run runs ih =>
    rw [List.forall_mem_cons] at hne h
    obtain ⟨b, hb, hstands⟩ := exists_standsFor hne.1 h.1
    obtain ⟨clusters, hclusters, hall⟩ := ih hne.2 h.2
    refine ⟨b :: clusters, ?_, .cons hstands hall⟩
    rw [List.mapM_cons, hb, hclusters]
    rfl

theorem exists_clusterized (flow : List BatchLet) (h : ∀ b ∈ flow, b.ValidTimes) :
    ∃ clusters, clusterizeBatchesByArguments flow =
        some (clusters, (runsOf significantArgs flow).countP (2 ≤ ·.length)) ∧
      List.Forall₂ StandsFor (runsOf significantArgs flow) clusters := by
  have hruns := @maximalRuns_runsOf _ significantArgs flow
  have hvalid : ∀ run ∈ runsOf significantArgs flow, ∀ b ∈ run, b.ValidTimes := by
    intro run hrun b hb
    apply h
    rw [← hruns.flatten]
    exact List.mem_flatten_of_mem hrun hb
  obtain ⟨clusters, hclusters, hall⟩ := exists_clusters hruns.ne_nil hvalid
  refine ⟨clusters, ?_, hall⟩
  rw [clusterizeBatchesByArguments, clusterizeLoop_zero, hclusters]
  rfl

/-- **The runs of batches with the same arguments become sequences**, the other batches stay in
their places, and the number of the runs is returned. -/
theorem clusterizeBatchesByArguments_runs (flow : List BatchLet) (h : ∀ b ∈ flow, b.ValidTimes) :
    ∃ runs clusters, MaximalRuns significantArgs flow runs ∧
      clusterizeBatchesByArguments flow = some (clusters, runs.countP (2 ≤ ·.length)) ∧
      List.Forall₂ StandsFor runs clusters := by
  obtain ⟨clusters, hclusters, hall⟩ := exists_clusterized flow h
  exact ⟨runsOf significantArgs flow, clusters, maximalRuns_runsOf flow, hclusters, hall⟩

/-- A call of a process, at some time. -/
def at12 (funcNam : Text) (significantArgs : List SigArg) : BatchLet where
  pid := 7
  funcNam := funcNam
  significantArgs := significantArgs
  timeStart := "12:00:00.000001".toList
  timeEnd := "12:00:00.000002".toList
  occurrences := 1
  style := "Orig".toList

/-- A run of two batches between two others. -/
theorem clusterizeBatchesByArguments_open_read :
    ∃ runs clusters, MaximalRuns significantArgs
        [at12 ['f'] [], at12 ['o'] [.file ['x']], at12 ['r'] [.file ['x']], at12 ['f'] []] runs ∧
      clusterizeBatchesByArguments
        [at12 ['f'] [], at12 ['o'] [.file ['x']], at12 ['r'] [.file ['x']], at12 ['f'] []] =
          some (clusters, runs.countP (2 ≤ ·.length)) ∧
      List.Forall₂ StandsFor runs clusters := by
  apply clusterizeBatchesByArguments_runs
  have hstart : (strptime? "12:00:00.000001".toList).isSome := by decide
  have hend : (strptime? "12:00:00.000002".toList).isSome := by decide
  have hvalid : ∀ f args, (at12 f args).ValidTimes := fun _ _ => ⟨hstart, hend⟩
  simp [hvalid]

end BatchLet

/-! ## The batches of the factorisation -/

/-- The cluster of a run. -/
def ClusteredBatch.ofRun : List FlowBatch → ClusteredBatch
  | [b] => .batch b
  | run => .sequence run

theorem cluster_eq_ofRun (lastBatch : FlowBatch) (same : List FlowBatch) :
    cluster lastBatch same = .ofRun (lastBatch :: same) := by
  cases same with
  | nil => rfl
  | cons b same => rfl

/-- The loop of the factorisation replaces the same runs. -/
theorem clusterizeArgumentsLoop_eq {lastBatch : FlowBatch} {same : List FlowBatch}
    (l : List FlowBatch)
    (hrun : (lastBatch :: same).IsChain fun x y => sameArgs FlowBatch.significantArgs x y) :
    clusterizeArgumentsLoop lastBatch same l =
      (runsOf FlowBatch.significantArgs (lastBatch :: same ++ l)).map .ofRun := by
  induction l generalizing lastBatch same with
  | nil =>
    rw [clusterizeArgumentsLoop, List.append_nil, runsOf_of_isChain (List.cons_ne_nil _ _) hrun,
      cluster_eq_ofRun]
    rfl
  | cons b l ih =>
    rw [clusterizeArgumentsLoop]
    split
    · rename_i hsame
      rw [ih (isChain_append_singleton hrun hsame.1 hsame.2)]
      simp
    · rename_i hsame
      have hother : lastBatch.significantArgs = [] ∨
          b.significantArgs ≠ lastBatch.significantArgs := by
        by_contra h
        rw [not_or, not_not] at h
        exact hsame h
      rw [ih (.singleton b), cluster_eq_ofRun, runsOf_append (List.cons_ne_nil _ _) hrun
        (sameArgs_getLast_eq_false hrun hother)]
      rfl

theorem clusterizeBatchesByArguments_eq (flow : List FlowBatch) :
    clusterizeBatchesByArguments flow = (runsOf FlowBatch.significantArgs flow).map .ofRun := by
  cases flow with
  | nil => rfl
  | cons b l => exact clusterizeArgumentsLoop_eq l (.singleton b)

end Survol.Dockit
