import Survol.Dockit.ArgumentClusters
import Survol.Dockit.MatchedBatches

/-!
# The passes over the pairs of a flow

`ClusterizeBigrams` walks over the list of a flow with an index and a limit, and replaces slices of
the list in place. `FactorizeOneFlow` calls it again as long as it replaces something.

## Main definitions

* `BigramLoop` — the variables of the loop, with `BigramLoop.step`.
* `clusterizeBigramsInPlace`, `bigramPassesLoop` — a pass, and the passes.
* `factorizeOneFlowInPlace` — all the stages of `FactorizeOneFlow`.

## Main results

* `BigramLoop.Inv.of_reaches` — what holds in every iteration.
* `clusterizeBigramsInPlace_shows` — a pass over the list is the pass over calls and pairs.
* `factorizeOneFlowInPlace_returns` — the stages end, and what is left.
-/

open PyText

namespace Survol.Dockit

/-! ## Counting -/

section
variable {κ : Type} [DecidableEq κ]

/-- How often each key of a list is seen, after those of `m`. -/
def tally (m : Dict κ ℕ) (keys : List κ) : Dict κ ℕ :=
  keys.foldl (fun m k => m.set k ((m.get? k).getD 0 + 1)) m

theorem get?_tally (m : Dict κ ℕ) (keys : List κ) (k : κ) :
    ((tally m keys).get? k).getD 0 = (m.get? k).getD 0 + keys.countP (· = k) := by
  induction keys generalizing m with
  | nil => rfl
  | cons k' keys ih =>
    rw [tally, List.foldl_cons, ← tally, ih, Dict.get?_set, List.countP_cons]
    by_cases h : k' = k
    · subst h
      simp
      omega
    · simp [h]

end

/-! ## The loop -/

/-- `m_listBatchLets[ idxBatch : idxBatch + 2 ]`. -/
def batchRange (listBatchLets : List BatchLet) (idxBatch : ℕ) : List BatchLet :=
  (listBatchLets.drop idxBatch).take 2

/-- `SameCall`, for a sequence. -/
def BatchLet.sameCall (b anotherBatch : BatchLet) : Bool :=
  b.funcNam = anotherBatch.funcNam ∧ b.significantArgs = anotherBatch.significantArgs

/-- `m_occurrences += 1`. -/
def BatchLet.again (b : BatchLet) : BatchLet := { b with occurrences := b.occurrences + 1 }

/-- The variables of the loop of `ClusterizeBigrams`. The sequence `batchSeqPrev` is in the list, and
is given by its place. -/
structure BigramLoop where
  listBatchLets : List BatchLet
  numSubst : ℕ
  idxBatch : ℕ
  maxIdx : ℤ
  batchSeqPrev : Option ℕ
  deriving DecidableEq

section
variable (repr : Text → Text)

/-- `GetSignatureWithArgs`. -/
def BatchLet.getSignatureWithArgs (b : BatchLet) : Text :=
  b.funcNam ++ ':' :: ['&'].intercalate (b.significantArgs.map (SigArg.pyStr repr))

/-- `SignatureForRepetitions`, of the range at an index. -/
def keyRange (listBatchLets : List BatchLet) (idxBatch : ℕ) : Text :=
  ['+'].intercalate
    ((batchRange listBatchLets idxBatch).map (BatchLet.getSignatureWithArgs repr))

/-- The signatures of the pairs of a flow. -/
def pairSignatures (listBatchLets : List BatchLet) : List Text :=
  (List.range (listBatchLets.length - 1)).map (keyRange repr listBatchLets)

/-- `StatisticsBigrams`. -/
def statisticsOfFlow (listBatchLets : List BatchLet) : Dict Text ℕ :=
  tally [] (pairSignatures repr listBatchLets)

namespace BigramLoop

/-- The loop before its first iteration. -/
def start (flow : List BatchLet) : BigramLoop := ⟨flow, 0, 0, flow.length - 1, none⟩

/-- The condition of the loop. -/
def GoesOn (s : BigramLoop) : Prop := (s.idxBatch : ℤ) < s.maxIdx

instance (s : BigramLoop) : Decidable s.GoesOn := inferInstanceAs (Decidable (_ < _))

/-- The place of the previous sequence, when it is the same call as the new one. -/
def samePrevious (s : BigramLoop) (batchSequence : BatchLet) : Option ℕ :=
  s.batchSeqPrev.filter fun ix => s.listBatchLets[ix]?.any batchSequence.sameCall

/-- One iteration of the loop. It fails when the sequence cannot be made. -/
def step (mapOccurences : Dict Text ℕ) (s : BigramLoop) : Option BigramLoop :=
  let numOccur := (mapOccurences.get? (keyRange repr s.listBatchLets s.idxBatch)).getD 0
  if numOccur > 5 then
    (batchLetSequence "Rept".toList (batchRange s.listBatchLets s.idxBatch)).map
      fun batchSequence =>
        match s.samePrevious batchSequence with
        | some ix =>
          let l := s.listBatchLets.modify ix BatchLet.again
          { s with
            listBatchLets := l.take s.idxBatch ++ l.drop (s.idxBatch + 2)
            maxIdx := s.maxIdx - 2
            numSubst := s.numSubst + 1 }
        | none =>
          { listBatchLets := s.listBatchLets.take s.idxBatch ++
              batchSequence :: s.listBatchLets.drop (s.idxBatch + 2)
            maxIdx := s.maxIdx - 1
            batchSeqPrev := some s.idxBatch
            idxBatch := s.idxBatch + 1
            numSubst := s.numSubst + 1 }
  else some { s with batchSeqPrev := none, idxBatch := s.idxBatch + 1 }

end BigramLoop

end

section
variable {repr : Text → Text} {mapOccurences : Dict Text ℕ} {s s' : BigramLoop}

/-- What an iteration can do. -/
theorem BigramLoop.step_cases (h : s.step repr mapOccurences = some s') :
    (s' = { s with batchSeqPrev := none, idxBatch := s.idxBatch + 1 } ∧
      (mapOccurences.get? (keyRange repr s.listBatchLets s.idxBatch)).getD 0 ≤ 5) ∨
    ∃ b, batchLetSequence "Rept".toList (batchRange s.listBatchLets s.idxBatch) = some b ∧
      s'.numSubst = s.numSubst + 1 ∧
      ((∃ ix, s.batchSeqPrev = some ix ∧ s'.batchSeqPrev = some ix ∧ s'.idxBatch = s.idxBatch ∧
          s'.maxIdx = s.maxIdx - 2 ∧ s'.listBatchLets =
            (s.listBatchLets.modify ix BatchLet.again).take s.idxBatch ++
              (s.listBatchLets.modify ix BatchLet.again).drop (s.idxBatch + 2)) ∨
        (s'.batchSeqPrev = some s.idxBatch ∧ s'.idxBatch = s.idxBatch + 1 ∧
          s'.maxIdx = s.maxIdx - 1 ∧ s'.listBatchLets =
            s.listBatchLets.take s.idxBatch ++ b :: s.listBatchLets.drop (s.idxBatch + 2))) := by
  rw [step] at h
  dsimp only at h
  split at h
  · obtain ⟨b, hb, h⟩ := Option.map_eq_some_iff.mp h
    refine .inr ⟨b, hb, ?_⟩
    split at h
    · rename_i ix hix
      have hprev : s.batchSeqPrev = some ix := (Option.filter_eq_some_iff.mp hix).1
      subst h
      exact ⟨rfl, .inl ⟨ix, hprev, hprev, rfl, rfl, rfl⟩⟩
    · subst h
      exact ⟨rfl, .inr ⟨rfl, rfl, rfl, rfl⟩⟩
  · rename_i hrare
    exact .inl ⟨(Option.some.inj h).symm, Nat.not_lt.mp hrare⟩

/-- What is left to be examined gets shorter. -/
theorem BigramLoop.measure_step (h : s.step repr mapOccurences = some s') (hgo : s.GoesOn) :
    (s'.maxIdx - s'.idxBatch).toNat < (s.maxIdx - s.idxBatch).toNat := by
  rw [GoesOn] at hgo
  obtain ⟨rfl, -⟩ | ⟨b, -, -, ⟨ix, -, -, hidx, hmax, -⟩ | ⟨-, hidx, hmax, -⟩⟩ := step_cases h
  · dsimp only
    omega
  · rw [hidx, hmax]
    omega
  · rw [hidx, hmax]
    omega

end

section
variable (repr : Text → Text)

/-- The loop of `ClusterizeBigrams`. -/
def BigramLoop.run (mapOccurences : Dict Text ℕ) (s : BigramLoop) : Option BigramLoop :=
  if _h : s.GoesOn then
    match _hs : s.step repr mapOccurences with
    | none => none
    | some s' => run mapOccurences s'
  else some s
termination_by (s.maxIdx - s.idxBatch).toNat
decreasing_by exact measure_step _hs _h

/-- `ClusterizeBigrams`: the list of the flow, and the number of substitutions. -/
def clusterizeBigramsInPlace (flow : List BatchLet) : Option (List BatchLet × ℕ) :=
  ((BigramLoop.start flow).run repr (statisticsOfFlow repr flow)).map
    fun s => (s.listBatchLets, s.numSubst)

/-- The passes of `FactorizeOneFlow`, of which there are at most `fuel`: the list of the flow, and
the number of passes that are followed by another one. -/
def bigramPassesLoop : ℕ → List BatchLet → ℕ → Option (List BatchLet × ℕ)
  | 0, _, _ => none
  | fuel + 1, flow, idxLoops =>
    (clusterizeBigramsInPlace repr flow).bind fun p =>
      if p.2 = 0 then some (p.1, idxLoops) else bigramPassesLoop fuel p.1 (idxLoops + 1)

/-- What the stages read of a batch. -/
def batchLetOf (u : UnfinishedBatches) (b : Batch) : Option BatchLet :=
  (u.core? b.core).map fun core =>
    { pid := core.pid
      funcNam := core.funcNam
      significantArgs := b.significantArgs
      timeStart := core.timeStart
      timeEnd := core.timeEnd
      occurrences := b.occurrences
      style := b.style }

/-- What is left by the stages of `FactorizeOneFlow`, the last one excepted, with the number of
passes, and what is left at the end. -/
structure FactorizedFlow where
  idxLoops : ℕ
  passed : List BatchLet
  clustered : List BatchLet

/-- `FactorizeOneFlow`, with at most `fuel` passes. -/
def factorizeOneFlowInPlace (fuel : ℕ) (listBatchLets : List Batch) : StoreM FactorizedFlow := do
  let (filtered, _) ← filterMatchedBatchesCounted listBatchLets
  let flow ← Py.ofOption .attributeError (filtered.mapM (batchLetOf (← Py.get)))
  let (passed, idxLoops) ← Py.ofOption .valueError (bigramPassesLoop repr fuel flow 0)
  let (clustered, _) ← Py.ofOption .valueError (BatchLet.clusterizeBatchesByArguments passed)
  return ⟨idxLoops, passed, clustered⟩

end

/-! ## Every iteration -/

/-- The loop comes from one state to another one. -/
inductive BigramLoop.Reaches (repr : Text → Text) (mapOccurences : Dict Text ℕ) (s : BigramLoop) :
    BigramLoop → Prop
  | refl : Reaches repr mapOccurences s s
  | step {s' s'' : BigramLoop} (h : Reaches repr mapOccurences s s') (hgo : s'.GoesOn)
      (hs : s'.step repr mapOccurences = some s'') : Reaches repr mapOccurences s s''

/-- Nothing was replaced, and no pair before the index is frequent. -/
structure BigramLoop.Untouched (repr : Text → Text) (mapOccurences : Dict Text ℕ)
    (flow : List BatchLet) (s : BigramLoop) : Prop where
  list : s.listBatchLets = flow
  rare : ∀ i < s.idxBatch, (mapOccurences.get? (keyRange repr flow i)).getD 0 ≤ 5

/-- What holds in every iteration. -/
structure BigramLoop.Inv (repr : Text → Text) (mapOccurences : Dict Text ℕ)
    (flow : List BatchLet) (s : BigramLoop) : Prop where
  length : (s.listBatchLets.length : ℤ) = s.maxIdx + 1
  index : s.idxBatch ≤ s.listBatchLets.length
  previous : ∀ ix, s.batchSeqPrev = some ix → ix < s.idxBatch
  count : s.listBatchLets.length + s.numSubst ≤ flow.length
  nonempty : flow ≠ [] → s.listBatchLets ≠ []
  valid : ∀ b ∈ s.listBatchLets, b.ValidTimes
  untouched : s.numSubst = 0 → s.Untouched repr mapOccurences flow

theorem validTimes_batchLetSequence {style : Text} {arrBatch : List BatchLet} {b : BatchLet}
    (h : batchLetSequence style arrBatch = some b) : b.ValidTimes := by
  simp only [batchLetSequence, Option.bind_eq_bind, Option.bind_eq_some_iff] at h
  obtain ⟨first, -, last, -, stop, hstop, start, hstart, h⟩ := h
  cases h
  exact ⟨Option.isSome_of_eq_some hstart, Option.isSome_of_eq_some hstop⟩

theorem forall_mem_modify {α : Type} {P : α → Prop} {f : α → α} (hf : ∀ a, P a → P (f a))
    {l : List α} (h : ∀ a ∈ l, P a) (i : ℕ) : ∀ a ∈ l.modify i f, P a := by
  intro a ha
  obtain ⟨j, hj⟩ := List.mem_iff_getElem?.mp ha
  rw [List.getElem?_modify] at hj
  obtain ⟨b, hb, rfl⟩ := Option.map_eq_some_iff.mp hj
  have hmem := h b (List.mem_iff_getElem?.mpr ⟨j, hb⟩)
  split
  · exact hf b hmem
  · exact hmem

theorem forall_mem_splice {α : Type} {P : α → Prop} {l m : List α} (h : ∀ a ∈ l, P a)
    (hm : ∀ a ∈ m, P a) (i j : ℕ) : ∀ a ∈ l.take i ++ (m ++ l.drop j), P a := by
  intro a ha
  rw [List.mem_append, List.mem_append] at ha
  rcases ha with ha | ha | ha
  · exact h a (List.mem_of_mem_take ha)
  · exact hm a ha
  · exact h a (List.mem_of_mem_drop ha)

section
variable {repr : Text → Text} {mapOccurences : Dict Text ℕ} {flow : List BatchLet}
  {s s' : BigramLoop}

theorem BigramLoop.inv_start (h : ∀ b ∈ flow, b.ValidTimes) :
    (start flow).Inv repr mapOccurences flow where
  length := (Int.sub_add_cancel _ _).symm
  index := Nat.zero_le _
  previous _ h := nomatch h
  count := le_rfl
  nonempty h := h
  valid := h
  untouched _ := ⟨rfl, fun _ hi => absurd hi (Nat.not_lt_zero _)⟩

/-- The slice has two elements. -/
theorem BigramLoop.Inv.length_batchRange (h : s.Inv repr mapOccurences flow) (hgo : s.GoesOn) :
    (batchRange s.listBatchLets s.idxBatch).length = 2 := by
  have hlen := h.length
  rw [GoesOn] at hgo
  rw [batchRange, List.length_take, List.length_drop]
  omega

/-- No iteration fails. -/
theorem BigramLoop.Inv.exists_step (h : s.Inv repr mapOccurences flow) (hgo : s.GoesOn) :
    ∃ s', s.step repr mapOccurences = some s' := by
  have hne : batchRange s.listBatchLets s.idxBatch ≠ [] := by
    intro hnil
    have hlen := h.length_batchRange hgo
    rw [hnil] at hlen
    cases hlen
  have hvalid : ∀ b ∈ batchRange s.listBatchLets s.idxBatch, b.ValidTimes := fun b hb =>
    h.valid b (List.mem_of_mem_drop (List.mem_of_mem_take hb))
  obtain ⟨b, hb⟩ := Option.isSome_iff_exists.mp
    (BatchLet.isSome_batchLetSequence "Rept".toList hne hvalid)
  rw [step, hb]
  dsimp only
  split
  · exact ⟨_, rfl⟩
  · exact ⟨_, rfl⟩

/-- **An iteration keeps the invariant.** -/
theorem BigramLoop.Inv.step (h : s.Inv repr mapOccurences flow) (hgo : s.GoesOn)
    (hs : s.step repr mapOccurences = some s') : s'.Inv repr mapOccurences flow := by
  have hlen := h.length
  have hcount := h.count
  rw [GoesOn] at hgo
  obtain ⟨rfl, hrare⟩ | ⟨b, hb, hnum, hcase⟩ := step_cases hs
  · refine ⟨hlen, ?_, fun _ h => (nomatch h), hcount, h.nonempty, h.valid, fun hzero => ?_⟩
    · dsimp only
      omega
    · obtain ⟨hlist, hbefore⟩ := h.untouched hzero
      refine ⟨hlist, fun i hi => ?_⟩
      rcases Nat.lt_succ_iff_lt_or_eq.mp hi with hi | rfl
      · exact hbefore i hi
      · rw [hlist] at hrare
        exact hrare
  have hzero : s'.numSubst ≠ 0 := by
    rw [hnum]
    exact Nat.succ_ne_zero _
  obtain ⟨ix, hix, hprev, hidx, hmax, hlist⟩ | ⟨hprev, hidx, hmax, hlist⟩ := hcase
  · have hpos := h.previous ix hix
    have hlen' : s'.listBatchLets.length = s.listBatchLets.length - 2 := by
      rw [hlist, List.length_append, List.length_take, List.length_drop, List.length_modify]
      omega
    refine ⟨?_, ?_, fun ix' hix' => ?_, ?_, fun _ hnil => ?_, ?_, fun h => absurd h hzero⟩
    · rw [hlen', hmax]
      omega
    · rw [hlen', hidx]
      omega
    · rw [hprev] at hix'
      cases hix'
      rw [hidx]
      exact hpos
    · rw [hlen', hnum]
      omega
    · rw [hnil, List.length_nil] at hlen'
      omega
    · have hagain : ∀ b : BatchLet, b.ValidTimes → b.again.ValidTimes := fun _ hv => hv
      have hnone : ∀ b ∈ ([] : List BatchLet), b.ValidTimes := List.forall_mem_nil _
      rw [hlist]
      exact forall_mem_splice (forall_mem_modify hagain h.valid ix) hnone s.idxBatch (s.idxBatch + 2)
  · have hlen' : s'.listBatchLets.length = s.listBatchLets.length - 1 := by
      rw [hlist, List.length_append, List.length_take, List.length_cons, List.length_drop]
      omega
    refine ⟨?_, ?_, fun ix' hix' => ?_, ?_, fun _ hnil => ?_, ?_, fun h => absurd h hzero⟩
    · rw [hlen', hmax]
      omega
    · rw [hlen', hidx]
      omega
    · rw [hprev] at hix'
      cases hix'
      rw [hidx]
      exact Nat.lt_succ_self _
    · rw [hlen', hnum]
      omega
    · rw [hnil, List.length_nil] at hlen'
      omega
    · rw [hlist]
      exact forall_mem_splice h.valid
        (List.forall_mem_singleton.mpr (validTimes_batchLetSequence hb)) s.idxBatch (s.idxBatch + 2)

theorem BigramLoop.Inv.of_reaches (h : s.Inv repr mapOccurences flow)
    (hr : s.Reaches repr mapOccurences s') : s'.Inv repr mapOccurences flow := by
  induction hr with
  | refl => exact h
  | step _ hgo hs ih => exact ih.step hgo hs

/-- A substitution makes the list shorter. -/
theorem BigramLoop.Inv.shorter (h : s.Inv repr mapOccurences flow) (hgo : s.GoesOn)
    (hs : s.step repr mapOccurences = some s') (hnum : s'.numSubst ≠ s.numSubst) :
    s'.listBatchLets.length < s.listBatchLets.length := by
  have hlen := h.length
  have hlen' := (h.step hgo hs).length
  obtain ⟨rfl, -⟩ | ⟨b, -, -, ⟨ix, -, -, -, hmax, -⟩ | ⟨-, -, hmax, -⟩⟩ := step_cases hs
  · exact absurd rfl hnum
  · omega
  · omega

theorem BigramLoop.Reaches.head {s'' : BigramLoop} (hgo : s.GoesOn)
    (hs : s.step repr mapOccurences = some s') (h : s'.Reaches repr mapOccurences s'') :
    s.Reaches repr mapOccurences s'' := by
  induction h with
  | refl => exact .step .refl hgo hs
  | step _ hgo hs ih => exact .step ih hgo hs

/-- The loop ends, and goes through its iterations. -/
theorem BigramLoop.Inv.exists_run (h : s.Inv repr mapOccurences flow) :
    ∃ s', s.run repr mapOccurences = some s' ∧ s.Reaches repr mapOccurences s' ∧
      s'.Inv repr mapOccurences flow ∧ ¬ s'.GoesOn := by
  fun_induction BigramLoop.run repr mapOccurences s with
  | case1 s hgo hs =>
    obtain ⟨s', hs'⟩ := h.exists_step hgo
    cases hs.symm.trans hs'
  | case2 s hgo s' hs ih =>
    obtain ⟨s'', hrun, hreach, hinv⟩ := ih (h.step hgo hs)
    exact ⟨s'', hrun, hreach.head hgo hs, hinv⟩
  | case3 s hend => exact ⟨s, rfl, .refl, h, hend⟩

end

/-! ## The passes -/

/-- No pair of adjacent batches has a signature that is seen more than five times. -/
def NoFrequentPair (repr : Text → Text) (flow : List BatchLet) : Prop :=
  ∀ k ∈ pairSignatures repr flow, (pairSignatures repr flow).countP (· = k) ≤ 5

/-- A pass over a flow: the iterations from the first one to the end of the loop. -/
structure Pass (repr : Text → Text) (l l' : List BatchLet) (numSubst : ℕ) : Prop where
  iterations : ∃ s, (BigramLoop.start l).Reaches repr (statisticsOfFlow repr l) s ∧ ¬ s.GoesOn ∧
    s.listBatchLets = l' ∧ s.numSubst = numSubst

/-- The flow after some passes which have all replaced something. -/
inductive Passes (repr : Text → Text) (flow : List BatchLet) : ℕ → List BatchLet → Prop
  | none : Passes repr flow 0 flow
  | pass {l l' : List BatchLet} {n numSubst : ℕ} (h : Passes repr flow n l)
      (hpass : Pass repr l l' numSubst) (hsubst : numSubst ≠ 0) : Passes repr flow (n + 1) l'

/-- In an iteration the list is one longer than the limit, the slice has two elements, and a
substitution makes the list shorter. -/
structure GoodIteration (repr : Text → Text) (mapOccurences : Dict Text ℕ) (s : BigramLoop) :
    Prop where
  length : (s.listBatchLets.length : ℤ) = s.maxIdx + 1
  slice : s.GoesOn → (batchRange s.listBatchLets s.idxBatch).length = 2
  step : s.GoesOn → ∃ s', s.step repr mapOccurences = some s' ∧
    (s'.numSubst ≠ s.numSubst → s'.listBatchLets.length < s.listBatchLets.length)

section
variable {repr : Text → Text} {flow : List BatchLet}

theorem goodIteration_of_reaches (h : ∀ b ∈ flow, b.ValidTimes) {mapOccurences : Dict Text ℕ}
    {s : BigramLoop} (hr : (BigramLoop.start flow).Reaches repr mapOccurences s) :
    GoodIteration repr mapOccurences s := by
  have hinv := (BigramLoop.inv_start h).of_reaches hr
  refine ⟨hinv.length, hinv.length_batchRange, fun hgo => ?_⟩
  obtain ⟨s', hs⟩ := hinv.exists_step hgo
  exact ⟨s', hs, hinv.shorter hgo hs⟩

/-- **What a pass leaves.** -/
theorem exists_clusterizeBigramsInPlace (h : ∀ b ∈ flow, b.ValidTimes) :
    ∃ l numSubst, clusterizeBigramsInPlace repr flow = some (l, numSubst) ∧
      Pass repr flow l numSubst ∧ l.length + numSubst ≤ flow.length ∧ (flow ≠ [] → l ≠ []) ∧
      (∀ b ∈ l, b.ValidTimes) ∧ (numSubst = 0 → l = flow ∧ NoFrequentPair repr flow) := by
  obtain ⟨s, hrun, hreach, hinv, hend⟩ :=
    (@BigramLoop.inv_start repr (statisticsOfFlow repr flow) flow h).exists_run
  refine ⟨s.listBatchLets, s.numSubst, ?_, ⟨s, hreach, hend, rfl, rfl⟩, hinv.count, hinv.nonempty,
    hinv.valid, fun hzero => ?_⟩
  · rw [clusterizeBigramsInPlace, hrun]
    rfl
  · obtain ⟨hlist, hrare⟩ := hinv.untouched hzero
    have hlen := hinv.length
    rw [hlist] at hlen
    rw [BigramLoop.GoesOn] at hend
    refine ⟨hlist, fun k hk => ?_⟩
    obtain ⟨i, hi, rfl⟩ := List.mem_map.mp hk
    have hle := hrare i (by rw [List.mem_range] at hi; omega)
    rw [statisticsOfFlow, get?_tally, Dict.get?_nil, Option.getD_none, Nat.zero_add] at hle
    exact hle

theorem Pass.validTimes (h : ∀ b ∈ flow, b.ValidTimes) {l : List BatchLet} {numSubst : ℕ}
    (hpass : Pass repr flow l numSubst) : ∀ b ∈ l, b.ValidTimes := by
  obtain ⟨s, hreach, -, rfl, -⟩ := hpass.iterations
  exact ((BigramLoop.inv_start h).of_reaches hreach).valid

theorem Passes.validTimes (h : ∀ b ∈ flow, b.ValidTimes) {l : List BatchLet} {n : ℕ}
    (hpasses : Passes repr flow n l) : ∀ b ∈ l, b.ValidTimes := by
  induction hpasses with
  | none => exact h
  | pass _ hpass _ ih => exact hpass.validTimes ih

theorem Passes.head {l l' : List BatchLet} {n numSubst : ℕ} (hpass : Pass repr flow l numSubst)
    (hsubst : numSubst ≠ 0) (h : Passes repr l n l') : Passes repr flow (n + 1) l' := by
  induction h with
  | none => exact .pass .none hpass hsubst
  | pass _ hpass hsubst ih => exact .pass ih hpass hsubst

/-- **The passes end**, after fewer passes than batches. -/
theorem exists_bigramPassesLoop (h : ∀ b ∈ flow, b.ValidTimes) {fuel : ℕ}
    (hfuel : flow.length < fuel) (idxLoops : ℕ) :
    ∃ l passes, bigramPassesLoop repr fuel flow idxLoops = some (l, idxLoops + passes) ∧
      Passes repr flow passes l ∧ Pass repr l l 0 ∧ l.length + passes ≤ flow.length ∧
      (flow ≠ [] → l ≠ []) ∧ NoFrequentPair repr l := by
  induction fuel generalizing flow idxLoops with
  | zero => exact absurd hfuel (Nat.not_lt_zero _)
  | succ fuel ih =>
    obtain ⟨l, n, hrun, hpass, hcount, hne, hvalid, hzero⟩ :=
      @exists_clusterizeBigramsInPlace repr flow h
    rw [bigramPassesLoop, hrun, Option.bind_some]
    by_cases hn : n = 0
    · obtain ⟨rfl, hrare⟩ := hzero hn
      exact ⟨l, 0, by rw [if_pos hn, Nat.add_zero], .none, hn ▸ hpass, le_rfl, hne, hrare⟩
    · obtain ⟨l', passes, hrun', hpasses, hlast, hcount', hne', hrare⟩ :=
        ih hvalid (by omega) (idxLoops + 1)
      refine ⟨l', passes + 1, ?_, hpasses.head hpass hn, hlast, by omega,
        fun h => hne' (hne h), hrare⟩
      rw [if_neg hn]
      dsimp only
      rw [hrun', Nat.add_assoc, Nat.add_comm 1]

end

/-! ## The pass over calls and pairs -/

/-- A batch of the list is a call, or the sequence of a pair: it has its name, its arguments and its
count. -/
structure BatchLet.Shows (x : BatchLet) (a : FlowBatch) : Prop where
  funcNam : x.funcNam = a.getSignature
  significantArgs : x.significantArgs = a.significantArgs
  occurrences : x.occurrences = a.occurrences

/-- The loop is between what is left behind and what is still to be examined: the sequence of the
pair before is the last one before the index. -/
structure BigramLoop.At (s : BigramLoop) (behind : List BatchLet) (prev : Option BatchLet)
    (rest : List BatchLet) : Prop where
  list : s.listBatchLets = behind ++ (prev.toList ++ rest)
  index : s.idxBatch = (behind ++ prev.toList).length
  limit : s.maxIdx = s.listBatchLets.length - 1
  previous : s.batchSeqPrev = prev.map fun _ => behind.length

section
variable {repr : Text → Text} {x y z : BatchLet} {a b : FlowBatch}

namespace BatchLet.Shows

theorem again (h : x.Shows a) : x.again.Shows a.again where
  funcNam := h.funcNam.trans (by cases a <;> rfl)
  significantArgs := h.significantArgs.trans (by cases a <;> rfl)
  occurrences := by
    rw [FlowBatch.occurrences_again, PNat.add_coe, PNat.one_coe, ← h.occurrences]
    rfl

theorem sameCall_eq (hx : x.Shows a) (hy : y.Shows b) : x.sameCall y = a.sameCall b := by
  rw [BatchLet.sameCall, FlowBatch.sameCall, hx.funcNam, hy.funcNam, hx.significantArgs,
    hy.significantArgs]

theorem getSignatureWithArgs_eq (h : x.Shows a) :
    x.getSignatureWithArgs repr = a.getSignatureWithArgs repr := by
  rw [BatchLet.getSignatureWithArgs, FlowBatch.getSignatureWithArgs, h.funcNam, h.significantArgs]

/-- The sequence that is made of two batches. -/
theorem pair (hx : x.Shows a) (hy : y.Shows b) {style : Text}
    (hz : batchLetSequence style [x, y] = some z) : z.Shows (.sequence a b 1) := by
  simp only [batchLetSequence, Option.bind_eq_bind, Option.bind_eq_some_iff] at hz
  obtain ⟨first, -, last, -, stop, -, start, -, hz⟩ := hz
  cases hz
  refine ⟨?_, ?_, rfl⟩
  · simp [FlowBatch.getSignature, hx.funcNam, hy.funcNam, List.intercalate]
  · simp [FlowBatch.significantArgs, hx.significantArgs, hy.significantArgs]

theorem keyRange_eq (hx : x.Shows a) (hy : y.Shows b) {l rest : List BatchLet} {i : ℕ}
    (hdrop : l.drop i = x :: y :: rest) :
    keyRange repr l i = signatureForRepetitions repr a b := by
  rw [keyRange, batchRange, hdrop]
  simp [List.intercalate, hx.getSignatureWithArgs_eq, hy.getSignatureWithArgs_eq,
    signatureForRepetitions]

end BatchLet.Shows

/-- The pairs are counted alike. -/
theorem statisticsBigrams_eq {l : List BatchLet} {flow : List FlowBatch}
    (h : List.Forall₂ BatchLet.Shows l flow) (m : Dict Text ℕ) :
    statisticsBigrams repr m flow = tally m (pairSignatures repr l) := by
  induction h generalizing m with
  | nil => rfl
  | @cons x a l flow hx htail ih =>
    cases htail with
    | nil => rfl
    | @cons y b l flow hy htail =>
      have hkeys : pairSignatures repr (x :: y :: l) =
          signatureForRepetitions repr a b :: pairSignatures repr (y :: l) := by
        have hhead : keyRange repr (x :: y :: l) 0 = signatureForRepetitions repr a b :=
          hx.keyRange_eq hy rfl
        rw [← hhead]
        simp only [pairSignatures, List.length_cons, Nat.add_sub_cancel, List.range_succ_eq_map,
          List.map_cons, List.map_map]
        rfl
      rw [statisticsBigrams, ih, hkeys]
      rfl

namespace BigramLoop.At

variable {mapOccurences : Dict Text ℕ} {s : BigramLoop} {behind rest : List BatchLet}
  {prev : Option BatchLet}

theorem drop_eq (h : s.At behind prev rest) : s.listBatchLets.drop s.idxBatch = rest := by
  rw [h.list, ← List.append_assoc, h.index, List.drop_left]

theorem goesOn (h : s.At behind prev (x :: y :: rest)) : s.GoesOn := by
  rw [GoesOn, h.limit, h.index, h.list]
  simp only [List.length_append, List.length_cons]
  omega

theorem not_goesOn (h : s.At behind prev rest) (hrest : rest.length ≤ 1) : ¬ s.GoesOn := by
  rw [GoesOn, h.limit, h.index, h.list]
  simp only [List.length_append]
  omega

/-- The first batch is passed over. -/
theorem passOver (h : s.At behind prev (x :: rest)) :
    { s with batchSeqPrev := none, idxBatch := s.idxBatch + 1 : BigramLoop }.At
      (behind ++ (prev.toList ++ [x])) none rest where
  list := by simp [h.list]
  index := by simp [h.index, Nat.add_assoc]
  limit := h.limit
  previous := rfl

theorem modify_append (p : BatchLet) :
    (behind ++ p :: rest).modify behind.length BatchLet.again = behind ++ p.again :: rest := by
  induction behind with
  | nil => rfl
  | cons b behind ih => exact congrArg (b :: ·) ih

/-- A pair is counted into the sequence before it. -/
theorem merge {p : BatchLet} (h : s.At behind (some p) (x :: y :: rest)) :
    { s with
      listBatchLets :=
        (s.listBatchLets.modify behind.length BatchLet.again).take s.idxBatch ++
          (s.listBatchLets.modify behind.length BatchLet.again).drop (s.idxBatch + 2)
      maxIdx := s.maxIdx - 2
      numSubst := s.numSubst + 1 : BigramLoop }.At behind (some p.again) rest := by
  have hmodify : s.listBatchLets.modify behind.length BatchLet.again =
      (behind ++ [p.again]) ++ x :: y :: rest := by
    rw [h.list, List.append_assoc]
    exact modify_append p
  have hindex : s.idxBatch = (behind ++ [p.again]).length := by simp [h.index]
  refine ⟨?_, hindex, ?_, h.previous⟩
  · dsimp only
    rw [hmodify, hindex, List.take_left, List.drop_length_add_append, List.append_assoc]
    rfl
  · dsimp only
    rw [hmodify, h.limit, h.list, hindex, List.take_left, List.drop_length_add_append]
    simp
    omega

/-- A pair is replaced by a sequence. -/
theorem replace (h : s.At behind prev (x :: y :: rest)) (z : BatchLet) :
    BigramLoop.At
      { listBatchLets := s.listBatchLets.take s.idxBatch ++
          z :: s.listBatchLets.drop (s.idxBatch + 2)
        maxIdx := s.maxIdx - 1
        batchSeqPrev := some s.idxBatch
        idxBatch := s.idxBatch + 1
        numSubst := s.numSubst + 1 } (behind ++ prev.toList) (some z) rest := by
  have hlist : s.listBatchLets = (behind ++ prev.toList) ++ x :: y :: rest := by simp [h.list]
  refine ⟨?_, ?_, ?_, ?_⟩
  · dsimp only
    rw [hlist, h.index, List.take_left, List.drop_length_add_append]
    rfl
  · simp [h.index, Nat.add_assoc]
  · dsimp only
    rw [h.limit, hlist, h.index, List.take_left, List.drop_length_add_append]
    simp
    omega
  · rw [h.index]
    rfl

end BigramLoop.At

end

section
variable {repr : Text → Text} {mapOccurences : Dict Text ℕ}

theorem BigramLoop.run_of_step {s s' : BigramLoop} (hgo : s.GoesOn)
    (hs : s.step repr mapOccurences = some s') :
    s.run repr mapOccurences = s'.run repr mapOccurences := by
  rw [run, dif_pos hgo]
  split
  · rename_i hnone
    cases hnone.symm.trans hs
  · rename_i s'' hs''
    rw [Option.some.inj (hs''.symm.trans hs)]

theorem forall₂_toList {prev : Option BatchLet} {batchSeqPrev : Option FlowBatch}
    (h : Option.Rel BatchLet.Shows prev batchSeqPrev) :
    List.Forall₂ BatchLet.Shows prev.toList batchSeqPrev.toList := by
  cases h with
  | none => exact .nil
  | some h => exact .cons h .nil

/-- The previous sequence is the same call for the two loops. -/
theorem BigramLoop.At.samePrevious_eq {s : BigramLoop} {behind rest : List BatchLet}
    {prev : Option BatchLet} {batchSeqPrev : Option FlowBatch} {z : BatchLet} {c : FlowBatch}
    (h : s.At behind prev rest) (hprev : Option.Rel BatchLet.Shows prev batchSeqPrev)
    (hz : z.Shows c) :
    s.samePrevious z = (reusePrevious batchSeqPrev c).map fun _ => behind.length := by
  rw [samePrevious, h.previous]
  cases hprev with
  | none => rfl
  | @some p q hpq =>
    have hget : s.listBatchLets[behind.length]? = some p := by
      rw [h.list, List.getElem?_append_right (le_refl _)]
      simp
    rw [Option.map_some, reusePrevious, ← hz.sameCall_eq hpq]
    cases hsame : z.sameCall p <;> simp [Option.filter, hget, hsame]

section
variable {s : BigramLoop} {behind rest : List BatchLet} {prev : Option BatchLet}
  {x y : BatchLet} {a b : FlowBatch}

theorem BigramLoop.At.step_of_rare (h : s.At behind prev (x :: y :: rest)) (hx : x.Shows a)
    (hy : y.Shows b) (hrare : ¬ isFrequent repr mapOccurences a b = true) :
    s.step repr mapOccurences =
      some { s with batchSeqPrev := none, idxBatch := s.idxBatch + 1 } := by
  rw [step]
  dsimp only
  rw [hx.keyRange_eq hy h.drop_eq, if_neg]
  rwa [isFrequent, decide_eq_true_eq] at hrare

/-- The sequence of a frequent pair. -/
theorem BigramLoop.At.step_of_frequent (h : s.At behind prev (x :: y :: rest)) (hx : x.Shows a)
    (hy : y.Shows b) (hfrequent : isFrequent repr mapOccurences a b = true)
    (hvalid : ∀ b ∈ x :: y :: rest, b.ValidTimes) :
    ∃ z, z.Shows (.sequence a b 1) ∧ s.step repr mapOccurences =
      some (match s.samePrevious z with
        | some ix =>
          { s with
            listBatchLets := (s.listBatchLets.modify ix BatchLet.again).take s.idxBatch ++
              (s.listBatchLets.modify ix BatchLet.again).drop (s.idxBatch + 2)
            maxIdx := s.maxIdx - 2
            numSubst := s.numSubst + 1 }
        | none =>
          { listBatchLets := s.listBatchLets.take s.idxBatch ++
              z :: s.listBatchLets.drop (s.idxBatch + 2)
            maxIdx := s.maxIdx - 1
            batchSeqPrev := some s.idxBatch
            idxBatch := s.idxBatch + 1
            numSubst := s.numSubst + 1 }) := by
  have hrange : batchRange s.listBatchLets s.idxBatch = [x, y] := by
    rw [batchRange, h.drop_eq]
    rfl
  obtain ⟨z, hz⟩ := Option.isSome_iff_exists.mp (BatchLet.isSome_batchLetSequence "Rept".toList
    (List.cons_ne_nil x [y]) fun b hb => hvalid b (by
      simp only [List.mem_cons, List.not_mem_nil, or_false] at hb ⊢
      exact hb.imp id .inl))
  refine ⟨z, hx.pair hy hz, ?_⟩
  rw [isFrequent, decide_eq_true_eq] at hfrequent
  rw [step]
  dsimp only
  rw [hx.keyRange_eq hy h.drop_eq, if_pos hfrequent, hrange, hz]
  rfl

end

/-- **The loop over the list is the one over calls and pairs**, from any batch on. -/
theorem BigramLoop.At.run_shows {s : BigramLoop} {behind rest : List BatchLet}
    {prev : Option BatchLet} {batchSeqPrev : Option FlowBatch} {flow : List FlowBatch}
    (h : s.At behind prev rest) (hprev : Option.Rel BatchLet.Shows prev batchSeqPrev)
    (hrest : List.Forall₂ BatchLet.Shows rest flow) (hvalid : ∀ b ∈ rest, b.ValidTimes) :
    ∃ s' l, s.run repr mapOccurences = some s' ∧ s'.listBatchLets = behind ++ l ∧
      List.Forall₂ BatchLet.Shows l
        (clusterizeBigramsLoop (isFrequent repr mapOccurences) batchSeqPrev flow).1 ∧
      s'.numSubst = s.numSubst +
        (clusterizeBigramsLoop (isFrequent repr mapOccurences) batchSeqPrev flow).2 := by
  fun_induction clusterizeBigramsLoop (isFrequent repr mapOccurences) batchSeqPrev flow
    generalizing s behind prev rest with
  | case1 batchSeqPrev a b flow hfrequent q hreuse r =>
    rename_i ih
    -- the pair is counted into the sequence before it
    obtain ⟨x, _, hx, htail, rfl⟩ := List.forall₂_cons_right_iff.mp hrest
    obtain ⟨y, rest, hy, hflow, rfl⟩ := List.forall₂_cons_right_iff.mp htail
    obtain ⟨z, hz, hs⟩ := h.step_of_frequent hx hy hfrequent hvalid
    rw [h.samePrevious_eq hprev hz, hreuse] at hs
    obtain ⟨q', rfl, -, rfl⟩ := reusePrevious_eq_some hreuse
    obtain @⟨p, _, hpq⟩ := hprev
    obtain ⟨s', l, hrun, hlist, hshown, hnum⟩ := ih h.merge (.some hpq.again) hflow
      fun b hb => hvalid b (by simp [hb])
    refine ⟨s', l, (run_of_step h.goesOn hs).trans hrun, hlist, hshown, hnum.trans ?_⟩
    rw [Nat.add_right_comm]
    rfl
  | case2 batchSeqPrev a b flow hfrequent hreuse r =>
    rename_i ih
    -- the pair is replaced, and the sequence before it stays
    obtain ⟨x, _, hx, htail, rfl⟩ := List.forall₂_cons_right_iff.mp hrest
    obtain ⟨y, rest, hy, hflow, rfl⟩ := List.forall₂_cons_right_iff.mp htail
    obtain ⟨z, hz, hs⟩ := h.step_of_frequent hx hy hfrequent hvalid
    rw [h.samePrevious_eq hprev hz, hreuse] at hs
    obtain ⟨s', l, hrun, hlist, hshown, hnum⟩ := ih (h.replace z) (.some hz) hflow
      fun b hb => hvalid b (by simp [hb])
    refine ⟨s', prev.toList ++ l, (run_of_step h.goesOn hs).trans hrun, ?_,
      List.rel_append (forall₂_toList hprev) hshown, hnum.trans ?_⟩
    · rw [hlist, List.append_assoc]
    · rw [Nat.add_right_comm]
      rfl
  | case3 batchSeqPrev a b flow hrare r =>
    rename_i ih
    obtain ⟨x, _, hx, htail, rfl⟩ := List.forall₂_cons_right_iff.mp hrest
    obtain ⟨y, rest, hy, hflow, rfl⟩ := List.forall₂_cons_right_iff.mp htail
    obtain ⟨s', l, hrun, hlist, hshown, hnum⟩ := ih h.passOver .none (.cons hy hflow)
      fun b hb => hvalid b (List.mem_cons_of_mem x hb)
    refine ⟨s', prev.toList ++ x :: l,
      (run_of_step h.goesOn (h.step_of_rare hx hy hrare)).trans hrun, ?_,
      List.rel_append (forall₂_toList hprev) (.cons hx hshown), hnum⟩
    rw [hlist]
    simp
  | case4 batchSeqPrev flow hshort =>
    have hlen : rest.length ≤ 1 := by
      rw [hrest.length_eq]
      rcases flow with _ | ⟨a, _ | ⟨b, flow⟩⟩
      · exact Nat.zero_le 1
      · exact le_rfl
      · exact absurd rfl (hshort a b flow)
    refine ⟨s, prev.toList ++ rest, ?_, h.list, List.rel_append (forall₂_toList hprev) hrest, rfl⟩
    rw [run, dif_neg (h.not_goesOn hlen)]

/-- **A pass over the list leaves what the pass over calls and pairs leaves**, after as many
substitutions. -/
theorem clusterizeBigramsInPlace_shows {l : List BatchLet} {flow : List FlowBatch}
    (h : List.Forall₂ BatchLet.Shows l flow) (hvalid : ∀ b ∈ l, b.ValidTimes) :
    ∃ l', clusterizeBigramsInPlace repr l = some (l', (clusterizeBigrams repr flow).2) ∧
      List.Forall₂ BatchLet.Shows l' (clusterizeBigrams repr flow).1 := by
  have hstart : (BigramLoop.start l).At [] none l := ⟨rfl, rfl, rfl, rfl⟩
  obtain ⟨s, l', hrun, hlist, hshown, hnum⟩ := hstart.run_shows .none h hvalid
  refine ⟨l', ?_, hshown⟩
  rw [clusterizeBigramsInPlace, statisticsOfFlow, ← statisticsBigrams_eq h, hrun, Option.map_some,
    hlist, hnum, List.nil_append]
  exact congrArg (fun n => some (l', n)) (Nat.zero_add _)

end

/-! ## All the stages -/

/-- The time-stamps of a batch can be read. -/
def HasValidTimes (u : UnfinishedBatches) (b : Batch) : Prop :=
  ∃ x, batchLetOf u b = some x ∧ x.ValidTimes

section
variable {u u' : UnfinishedBatches} {repr : Text → Text}

theorem HasValidTimes.forgets {b : Batch} (h : Forgets u u') (hb : HasValidTimes u b) :
    HasValidTimes u' b := by
  obtain ⟨x, hx, hvalid⟩ := hb
  rcases h b.core with heq | heq
  · exact ⟨x, by rw [batchLetOf, heq]; exact hx, hvalid⟩
  · obtain ⟨core, hcore, rfl⟩ := Option.map_eq_some_iff.mp hx
    rw [hcore] at heq
    exact ⟨_, by rw [batchLetOf, heq]; rfl, hvalid⟩

theorem exists_batchLets {l : List Batch} (h : ∀ b ∈ l, HasValidTimes u b) :
    ∃ flow, l.mapM (batchLetOf u) = some flow ∧ flow.length = l.length ∧
      ∀ x ∈ flow, x.ValidTimes := by
  induction l with
  | nil => exact ⟨[], rfl, rfl, List.forall_mem_nil _⟩
  | cons b l ih =>
    rw [List.forall_mem_cons] at h
    obtain ⟨x, hx, hvalid⟩ := h.1
    obtain ⟨flow, hflow, hlen, hvalids⟩ := ih h.2
    refine ⟨x :: flow, ?_, by rw [List.length_cons, hlen, List.length_cons], ?_⟩
    · rw [List.mapM_cons, hx, hflow]
      rfl
    · exact List.forall_mem_cons.mpr ⟨hvalid, hvalids⟩

/-- **`FactorizeOneFlow` ends**: the checks of the first stage fail, or all the stages return. Then
every iteration over the pairs was a good one, the flow that is left comes from passes that all
replaced something, fewer than the batches, the last pass replaced nothing, and no pair is frequent
after it. -/
theorem factorizeOneFlowInPlace_returns (repr : Text → Text) {l : List Batch}
    (hvalid : ∀ b ∈ l, HasValidTimes u b) {fuel : ℕ} (hfuel : l.length < fuel) :
    (∃ e u', (filterMatchedBatchesCounted l).run u = (.error e, u') ∧
      (factorizeOneFlowInPlace repr fuel l).run u = (.error e, u')) ∨
    ∃ filtered u' flow r, (filterMatchedBatchesCounted l).run u = (.ok filtered, u') ∧
      filtered.1.mapM (batchLetOf u') = some flow ∧ flow.length ≤ l.length ∧
      (factorizeOneFlowInPlace repr fuel l).run u = (.ok r, u') ∧
      (∀ n l', Passes repr flow n l' → ∀ s,
        (BigramLoop.start l').Reaches repr (statisticsOfFlow repr l') s →
          GoodIteration repr (statisticsOfFlow repr l') s) ∧
      Passes repr flow r.idxLoops r.passed ∧ Pass repr r.passed r.passed 0 ∧
      r.idxLoops ≤ flow.length - 1 ∧ NoFrequentPair repr r.passed ∧
      ∃ numSubst, BatchLet.clusterizeBatchesByArguments r.passed =
        some (r.clustered, numSubst) := by
  cases hfilter : (filterMatchedBatchesCounted l).run u with
  | mk x u' =>
    cases x with
    | error e =>
      refine .inl ⟨e, u', rfl, ?_⟩
      rw [factorizeOneFlowInPlace, Py.run_bind_of_error hfilter]
    | ok filtered =>
      obtain ⟨filtered, numSubst⟩ := filtered
      have hsub := (filterMatchedBatches_spec hfilter).2.1
      have hforgets : Forgets u u' := (filtered_of_run hfilter).forgets
      obtain ⟨flow, hflow, hlen, hvalids⟩ := exists_batchLets fun b hb =>
        (hvalid b (hsub.subset hb)).forgets hforgets
      have hle : flow.length ≤ l.length := hlen ▸ hsub.length_le
      obtain ⟨passed, idxLoops, hrun, hpasses, hlast, hcount, hne, hrare⟩ :=
        @exists_bigramPassesLoop repr flow hvalids fuel (hle.trans_lt hfuel) 0
      obtain ⟨clusters, hclusters, -⟩ :=
        BatchLet.exists_clusterized passed (hpasses.validTimes hvalids)
      refine .inr ⟨_, u', flow, ⟨idxLoops, passed, clusters⟩, rfl, hflow, hle, ?_,
        fun n l' hpasses s hr => goodIteration_of_reaches (hpasses.validTimes hvalids) hr,
        hpasses, hlast, ?_, hrare, _, hclusters⟩
      · rw [factorizeOneFlowInPlace, Py.run_bind_of_ok hfilter]
        dsimp only
        rw [Py.run_get_bind, hflow, Py.run_ofOption_some_bind, hrun, Py.run_ofOption_some_bind]
        dsimp only
        rw [hclusters, Py.run_ofOption_some_bind, Nat.zero_add]
        rfl
      · dsimp only
        cases flow with
        | nil =>
          rw [List.length_nil] at hcount
          omega
        | cons b flow =>
          have hpos := List.length_pos_of_ne_nil (hne (List.cons_ne_nil b flow))
          omega

end

/-- The two calls of a pair, one after the other, six times. -/
def repeatedPair : UnfinishedBatches where
  cores := [(7, (List.replicate 6 [("read@SYS".toList, "1".toList), ("write@SYS".toList, "2".toList)])
    |>.flatten.map fun p => { halfOfRead .plain none none with
      funcNam := p.1
      timeStart := "12:00:00.00000".toList ++ p.2
      timeEnd := "12:00:00.00000".toList ++ p.2 })]
  mapStacks := []

/-- The flow of their batches. -/
def flowOfPair : List Batch := (List.range 12).map batchOfHalf

/-- The pair is seen six times, and there is one pass before the last one. -/
theorem factorizeOneFlowInPlace_repeatedPair :
    ∃ filtered u' flow r,
      (filterMatchedBatchesCounted flowOfPair).run repeatedPair = (.ok filtered, u') ∧
      filtered.1.mapM (batchLetOf u') = some flow ∧ flow.length ≤ flowOfPair.length ∧
      (factorizeOneFlowInPlace id 13 flowOfPair).run repeatedPair = (.ok r, u') ∧
      (∀ n l', Passes id flow n l' → ∀ s,
        (BigramLoop.start l').Reaches id (statisticsOfFlow id l') s →
          GoodIteration id (statisticsOfFlow id l') s) ∧
      Passes id flow r.idxLoops r.passed ∧ Pass id r.passed r.passed 0 ∧
      r.idxLoops ≤ flow.length - 1 ∧ NoFrequentPair id r.passed ∧
      (∃ numSubst, BatchLet.clusterizeBatchesByArguments r.passed =
        some (r.clustered, numSubst)) ∧
      r.idxLoops = 1 ∧ r.passed.map BatchLet.occurrences = [6] := by
  have hvalid : ∀ b ∈ flowOfPair, HasValidTimes repeatedPair b := by
    have hall : ∀ b ∈ flowOfPair, (batchLetOf repeatedPair b).any fun x =>
        (strptime? x.timeStart).isSome && (strptime? x.timeEnd).isSome := by decide +kernel
    intro b hb
    obtain ⟨x, hx, htimes⟩ := Option.any_eq_true _ _ |>.mp (hall b hb)
    exact ⟨x, hx, Bool.and_eq_true _ _ |>.mp htimes⟩
  have hrun : ((factorizeOneFlowInPlace id 13 flowOfPair).run repeatedPair).1.toOption.map
      (fun r => (r.idxLoops, r.passed.map BatchLet.occurrences)) = some (1, [6]) := by
    decide +kernel
  rcases @factorizeOneFlowInPlace_returns repeatedPair id flowOfPair hvalid 13 (by decide) with
    ⟨e, u', -, herror⟩ | ⟨filtered, u', flow, r, h₁, h₂, h₃, h₄, h₅, h₆, h₇, h₈, h₉, h₁₀⟩
  · rw [herror] at hrun
    cases hrun
  · rw [h₄] at hrun
    obtain ⟨hloops, hpassed⟩ := Prod.mk.inj (Option.some.inj hrun)
    exact ⟨filtered, u', flow, r, h₁, h₂, h₃, h₄, h₅, h₆, h₇, h₈, h₉, h₁₀, hloops, hpassed⟩

end Survol.Dockit
