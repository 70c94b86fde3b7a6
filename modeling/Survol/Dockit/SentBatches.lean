import Survol.Dockit.Flows
import Survol.Lib.RunLength

/-!
# Sending batches, and adding them

`SendBatch` hands a batch over to a coroutine, whose local variable is the last batch of the flow,
and `AddBatch` reads the last batch of the list. Both count a batch into the last one by adding to
`m_occurrences`, which belongs to the batch object. Here the batches are objects with an identity.

## Main definitions

* `sameArguments` — the loop over the arguments.
* `BatchFlow` — a flow, the local variable of its coroutine and the counters of the batches.
* `BatchFlow.addBatch`, `BatchFlow.sendBatch`.

## Main results

* `BatchFlow.sendAll_eq_addAll` — the two ways of adding agree.
* `sendBatch_counts` — what is kept stands for what was sent.
* `addAll_values` — the flow of the batches without an identity.
-/

open PyText RunLength

namespace Survol.Dockit

/-! ## The same call -/

/-- The loop of `SameArguments`, from the argument at `idx` on. -/
def sameArgumentsFrom (args2 : List SigArg) (idx : ℕ) : List SigArg → Bool
  | [] => true
  | val1 :: args1 =>
    if some val1 ≠ args2[idx]? then false else sameArgumentsFrom args2 (idx + 1) args1

/-- `SameArguments`. -/
def sameArguments (args1 args2 : List SigArg) : Bool :=
  if args1.length ≠ args2.length then false else sameArgumentsFrom args2 0 args1

theorem sameArgumentsFrom_iff (pre args1 args2 : List SigArg) (h : args1.length = args2.length) :
    sameArgumentsFrom (pre ++ args2) pre.length args1 = true ↔ args1 = args2 := by
  induction args1 generalizing pre args2 with
  | nil =>
    obtain rfl : args2 = [] := List.length_eq_zero_iff.mp h.symm
    exact iff_of_true rfl rfl
  | cons val1 args1 ih =>
    cases args2 with
    | nil => simp at h
    | cons val2 args2 =>
      have hnext := ih (pre ++ [val2]) args2 (Nat.succ.inj h)
      rw [List.append_assoc, List.singleton_append, List.length_append, List.length_singleton]
        at hnext
      rw [sameArgumentsFrom, List.getElem?_append_right le_rfl, Nat.sub_self]
      by_cases hval : val1 = val2
      · simp [hval, hnext]
      · simp [hval]

theorem sameArguments_iff (args1 args2 : List SigArg) :
    sameArguments args1 args2 = true ↔ args1 = args2 := by
  rw [sameArguments]
  split
  · rename_i hlen
    refine iff_of_false Bool.false_ne_true fun h => hlen (congrArg List.length h)
  · rename_i hlen
    exact sameArgumentsFrom_iff [] args1 args2 (not_not.mp hlen)

/-- `SameCall`: it is redefined for the calls that are never the same, and compares the functions
and the arguments otherwise. -/
theorem sameCall_eq_sameArguments (u : UnfinishedBatches) (lstBatch btchLet : Batch) :
    sameCall u lstBatch btchLet =
      if lstBatch.neverSame then false
      else if lstBatch.funcNam? u ≠ btchLet.funcNam? u then false
      else sameArguments lstBatch.significantArgs btchLet.significantArgs := by
  rw [Bool.eq_iff_iff]
  by_cases hnever : lstBatch.neverSame = true
  · simp [sameCall, hnever]
  · by_cases hfunc : lstBatch.funcNam? u = btchLet.funcNam? u
    · simp [sameCall, hnever, hfunc, sameArguments_iff]
    · simp [sameCall, hfunc]

/-! ## Flows of batch objects -/

/-- A flow of batch objects: its list, the local variable `lstBatch` of its coroutine, and
`m_occurrences` of the objects. -/
structure BatchFlow (ι : Type) where
  listBatchLets : List ι
  lstBatch : Option ι
  occurrences : ι → ℕ

namespace BatchFlow

variable {ι : Type} [DecidableEq ι] (sameCall : ι → ι → Bool)

/-- A flow without a batch, whose coroutine waits for the first one. -/
def empty (occurrences : ι → ℕ) : BatchFlow ι := ⟨[], none, occurrences⟩

/-- `m_occurrences += 1`. -/
def again (f : BatchFlow ι) (b : ι) : BatchFlow ι :=
  { f with occurrences := Function.update f.occurrences b (f.occurrences b + 1) }

/-- `m_listBatchLets.append`. -/
def append (f : BatchFlow ι) (b : ι) : BatchFlow ι :=
  { f with listBatchLets := f.listBatchLets ++ [b] }

/-- `AddBatch`. -/
def addBatch (f : BatchFlow ι) (btchLet : ι) : BatchFlow ι :=
  match f.listBatchLets.getLast? with
  | some lstBatch =>
    if sameCall lstBatch btchLet then f.again lstBatch else f.append btchLet
  | none => f.append btchLet

/-- One step of `AddingCoroutine`, up to where it waits for the next batch. -/
def addingCoroutine (f : BatchFlow ι) (btchLet : ι) : BatchFlow ι :=
  let f := match f.lstBatch with
    | some lstBatch =>
      if sameCall lstBatch btchLet then f.again lstBatch else f.append btchLet
    | none => f.append btchLet
  { f with lstBatch := f.listBatchLets.getLast? }

/-- `SendBatch`. -/
def sendBatch (f : BatchFlow ι) (btchLet : ι) : BatchFlow ι := addingCoroutine sameCall f btchLet

/-- The batches are added, one after the other. -/
def addAll (f : BatchFlow ι) (sent : List ι) : BatchFlow ι := sent.foldl (addBatch sameCall) f

/-- The batches are sent, one after the other. -/
def sendAll (f : BatchFlow ι) (sent : List ι) : BatchFlow ι := sent.foldl (sendBatch sameCall) f

/-- The kept objects of the flow and their counters. -/
def counted (f : BatchFlow ι) : Counted ι := ⟨f.listBatchLets, f.occurrences⟩

/-- The local variable of the coroutine is the last batch of the list. -/
def AtLast (f : BatchFlow ι) : Prop := f.lstBatch = f.listBatchLets.getLast?

theorem counted_addBatch (f : BatchFlow ι) (b : ι) :
    (f.addBatch sameCall b).counted = f.counted.add sameCall b := by
  have hkept : f.counted.kept = f.listBatchLets := rfl
  rw [addBatch, Counted.add, hkept]
  cases f.listBatchLets.getLast? with
  | none => rfl
  | some lst =>
    dsimp only
    split <;> rfl

/-- A step of the coroutine does what `AddBatch` does. -/
theorem counted_sendBatch {f : BatchFlow ι} (h : f.AtLast) (b : ι) :
    (f.sendBatch sameCall b).counted = f.counted.add sameCall b ∧
      (f.sendBatch sameCall b).AtLast := by
  refine ⟨?_, rfl⟩
  rw [← counted_addBatch, sendBatch, addingCoroutine, addBatch, h]
  cases f.listBatchLets.getLast? with
  | none => rfl
  | some lst => rfl

theorem counted_addAll (occurrences : ι → ℕ) (sent : List ι) :
    ((empty occurrences).addAll sameCall sent).counted =
      Counted.addAll sameCall occurrences sent := by
  induction sent using List.reverseRecOn with
  | nil => rfl
  | append_singleton sent b ih =>
    rw [Counted.addAll_append_singleton, ← ih, ← counted_addBatch, addAll, List.foldl_append]
    rfl

theorem counted_sendAll (occurrences : ι → ℕ) (sent : List ι) :
    ((empty occurrences).sendAll sameCall sent).counted =
        Counted.addAll sameCall occurrences sent ∧
      ((empty occurrences).sendAll sameCall sent).AtLast := by
  induction sent using List.reverseRecOn with
  | nil => exact ⟨rfl, rfl⟩
  | append_singleton sent b ih =>
    have hstep := counted_sendBatch sameCall ih.2 b
    rw [ih.1, ← Counted.addAll_append_singleton] at hstep
    rw [sendAll, List.foldl_append]
    exact hstep

/-- **`SendBatch` and `AddBatch` build the same list**, with the same counters, from the same
batches in the same order. -/
theorem sendAll_eq_addAll (occurrences : ι → ℕ) (sent : List ι) :
    ((empty occurrences).sendAll sameCall sent).counted =
      ((empty occurrences).addAll sameCall sent).counted :=
  (counted_sendAll sameCall occurrences sent).1.trans (counted_addAll ..).symm

end BatchFlow

/-! ## What is kept stands for what was sent -/

section
variable {ι : Type} [DecidableEq ι]

/-- `SameCall` of two batch objects. -/
def sameCallOf (u : UnfinishedBatches) (batch : ι → Batch) (lstBatch btchLet : ι) : Bool :=
  sameCall u (batch lstBatch) (batch btchLet)

/-- **The list that `SendBatch` builds**, for every sequence of batch objects: that of `AddBatch`
with the same counters, where no kept batch is the same call as the one that opened the next entry.
When each object is sent once and counted once, as the factory makes them, the counters sum up to
the number of sent batches, and the kept batches, each as often as it is counted, are the sent ones
up to `SameCall`. -/
theorem sendBatch_counts (u : UnfinishedBatches) (batch : ι → Batch) (occurrences : ι → ℕ)
    (sent : List ι) :
    let sentFlow := (BatchFlow.empty occurrences).sendAll (sameCallOf u batch) sent
    let addedFlow := (BatchFlow.empty occurrences).addAll (sameCallOf u batch) sent
    (sentFlow.listBatchLets = addedFlow.listBatchLets ∧
        sentFlow.occurrences = addedFlow.occurrences) ∧
      (sentFlow.listBatchLets.IsChain fun k b => sameCall u (batch k) (batch b) = false) ∧
      (sent.Nodup → (∀ b ∈ sent, occurrences b = 1) →
        (sentFlow.listBatchLets.map sentFlow.occurrences).sum = sent.length ∧
        List.Forall₂ (fun k b => b = k ∨ sameCall u (batch k) (batch b) = true)
          (sentFlow.listBatchLets.flatMap fun k => List.replicate (sentFlow.occurrences k) k)
          sent) := by
  intro sentFlow addedFlow
  have hsent : sentFlow.counted = Counted.addAll (sameCallOf u batch) occurrences sent :=
    (BatchFlow.counted_sendAll (sameCallOf u batch) occurrences sent).1
  have hadded : sentFlow.counted = addedFlow.counted :=
    BatchFlow.sendAll_eq_addAll (sameCallOf u batch) occurrences sent
  have hchain := @isChain_addAll ι (sameCallOf u batch) occurrences _ sent
  rw [← hsent] at hchain
  refine ⟨⟨congrArg Counted.kept hadded, congrArg Counted.count hadded⟩, hchain, ?_⟩
  intro hnodup hone
  have hcounts := @counts_addAll ι (sameCallOf u batch) occurrences _ sent hnodup hone
  rw [← hsent] at hcounts
  exact ⟨hcounts.sum, hcounts.expansion⟩

/-- A call without arguments, of which each object is one. -/
def sameReads (_ : ℕ) : Batch := ⟨⟨7, 0⟩, 1, origStyle, [], false⟩

/-- Three calls are counted. -/
theorem sendBatch_counts_three :
    let sentFlow := (BatchFlow.empty fun _ => 1).sendAll (sameCallOf ⟨[], []⟩ sameReads) [0, 1, 2]
    (sentFlow.listBatchLets.map sentFlow.occurrences).sum = 3 ∧
      List.Forall₂ (fun k b => b = k ∨ sameCall ⟨[], []⟩ (sameReads k) (sameReads b) = true)
        (sentFlow.listBatchLets.flatMap fun k => List.replicate (sentFlow.occurrences k) k)
        [0, 1, 2] :=
  (sendBatch_counts ⟨[], []⟩ sameReads (fun _ => 1) [0, 1, 2]).2.2 (by decide) (by simp)

/-! ## Batches without an identity -/

/-- A batch with the counter of its object. -/
def valueOf (batch : ι → Batch) (occurrences : ι → ℕ) (b : ι) : Batch :=
  { batch b with occurrences := occurrences b }

/-- Adding a new object adds its value. -/
theorem addBatch_values (u : UnfinishedBatches) (batch : ι → Batch) {s : Counted ι} {b : ι} {n : ℕ}
    (hnodup : s.kept.Nodup) (hn : s.count b = n) :
    addBatch u (s.kept.map (valueOf batch s.count)) { batch b with occurrences := n } =
      (s.add (sameCallOf u batch) b).kept.map
        (valueOf batch (s.add (sameCallOf u batch) b).count) := by
  rw [addBatch, List.getLast?_map]
  obtain ⟨t, lst, hkept, hsame, hadd⟩ | ⟨hlast, hadd⟩ := s.add_cases (sameCallOf u batch) b
  · have hlst : lst ∉ t := by
      rw [hkept, ← List.concat_eq_append, List.nodup_concat] at hnodup
      exact hnodup.1
    have ht : t.map (valueOf batch (s.bump lst).count) = t.map (valueOf batch s.count) := by
      refine List.map_congr_left fun i hi => ?_
      have hne : i ≠ lst := fun h => hlst (h ▸ hi)
      rw [valueOf, valueOf, s.count_bump_of_ne hne]
    have hkept' : (s.bump lst).kept = t ++ [lst] := hkept
    have hvalue : valueOf batch (s.bump lst).count lst = (valueOf batch s.count lst).again := by
      rw [valueOf, Counted.count_bump_self]
      rfl
    have hcall : sameCall u (valueOf batch s.count lst) { batch b with occurrences := n } = true :=
      hsame
    rw [hadd, hkept', List.map_append, ht, hkept, List.getLast?_concat, List.map_append,
      List.map_singleton, List.map_singleton, hvalue]
    dsimp only [Option.map_some]
    rw [if_pos hcall, List.dropLast_concat]
  · have hvalue : valueOf batch s.count b = { batch b with occurrences := n } := by
      rw [valueOf, hn]
    have hkeep : (s.keep b).kept.map (valueOf batch (s.keep b).count) =
        s.kept.map (valueOf batch s.count) ++ [{ batch b with occurrences := n }] := by
      rw [← hvalue]
      exact List.map_append ..
    rw [hadd, hkeep]
    cases hl : s.kept.getLast? with
    | none =>
      rw [List.getLast?_eq_none_iff.mp hl]
      rfl
    | some lst =>
      have hcall : sameCall u (valueOf batch s.count lst) { batch b with occurrences := n } =
          false := hlast lst hl
      dsimp only [Option.map_some]
      rw [hcall]
      rfl

/-- **The flow of the values** is that of the objects, when each object is sent once. -/
theorem addAll_values (u : UnfinishedBatches) (batch : ι → Batch) {occurrences : ι → ℕ}
    {sent : List ι} (hnodup : sent.Nodup) (hone : ∀ b ∈ sent, occurrences b = 1) :
    (sent.map (valueOf batch occurrences)).foldl (addBatch u) [] =
      (Counted.addAll (sameCallOf u batch) occurrences sent).kept.map
        (valueOf batch (Counted.addAll (sameCallOf u batch) occurrences sent).count) := by
  induction sent using List.reverseRecOn with
  | nil => rfl
  | append_singleton sent b ih =>
    rw [← List.concat_eq_append, List.nodup_concat] at hnodup
    obtain ⟨hb, hdistinct⟩ := hnodup
    have hsent : ∀ c ∈ sent, occurrences c = 1 := fun c hc => hone c (List.mem_append_left [b] hc)
    have hcounts := @counts_addAll ι (sameCallOf u batch) occurrences _ sent hdistinct hsent
    have hcount := hcounts.count b fun hmem => hb (hcounts.sublist.subset hmem)
    rw [List.map_append, List.foldl_append, ih hdistinct hsent, Counted.addAll_append_singleton]
    exact addBatch_values u batch (hcounts.sublist.nodup hdistinct) hcount

end

end Survol.Dockit
