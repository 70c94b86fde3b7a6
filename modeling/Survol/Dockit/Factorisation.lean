import Survol.Dockit.CallModels
import Mathlib.Data.PNat.Basic

/-!
# The factorisation of a flow

`FactorizeOneFlow` replaces, in the flow of a process, the pairs of consecutive
batches that are frequent (`ClusterizeBigrams`, as often as it changes something)
and then the consecutive batches with the same arguments
(`ClusterizeBatchesByArguments`). What replaces some batches is a new batch, a
`BatchLetSequence`, whose own count starts at one.

A sequence does not keep its members: what is left of them are their names and
their arguments. `FlowBatch.calls` reads the elementary calls off the batches that
are left, so the count of a member is lost when it enters a sequence.

## Main definitions

* `FlowBatch`, `clusterizeBigrams`, `clusterizeBatchesByArguments`.
* `calls`, `clusterCalls` — the elementary calls that a flow stands for.
* `BigramsCounted`, `ClustersCounted` — where no count is lost.
-/

open PyText

namespace Survol.Dockit

/-! ## Batches of a flow -/

/-- A batch is counted once at first; under a name, so that all the batches share the proof. -/
instance neZero_one : NeZero (1 : ℕ) := ⟨one_ne_zero⟩

/-- The name of a call: the text before the first parenthesis. -/
structure CallName where
  text : Text
  noPar : '(' ∉ text
  deriving DecidableEq

/-- A batch of a flow, with `m_occurrences`: a call, or the `BatchLetSequence` of a
pair. A batch is counted at least once. -/
inductive FlowBatch
  | call (funcNam : CallName) (significantArgs : List SigArg) (occurrences : ℕ+)
  | sequence (first second : FlowBatch) (occurrences : ℕ+)
  deriving DecidableEq

/-- The arguments that are added to an array, each once. -/
def addDistinct (argsArray : List SigArg) : List SigArg → List SigArg
  | [] => argsArray
  | oneArg :: l =>
    if oneArg ∈ argsArray then addDistinct argsArray l else addDistinct (argsArray ++ [oneArg]) l

namespace FlowBatch

/-- `m_occurrences`. -/
def occurrences : FlowBatch → ℕ+
  | call _ _ n => n
  | sequence _ _ n => n

/-- `GetSignature`: the names of a sequence are those of its members. -/
def getSignature : FlowBatch → Text
  | call funcNam _ _ => funcNam.text
  | sequence a b _ => '(' :: a.getSignature ++ '+' :: b.getSignature ++ [')']

/-- `SignificantArgs`. -/
def significantArgs : FlowBatch → List SigArg
  | call _ args _ => args
  | sequence a b _ => addDistinct (addDistinct [] a.significantArgs) b.significantArgs

/-- `SameCall`, for a sequence. -/
def sameCall (b anotherBatch : FlowBatch) : Bool :=
  b.getSignature = anotherBatch.getSignature ∧ b.significantArgs = anotherBatch.significantArgs

/-- `m_occurrences += 1`. -/
def again : FlowBatch → FlowBatch
  | call funcNam args n => call funcNam args (n + 1)
  | sequence a b n => sequence a b (n + 1)

end FlowBatch

/-! ## The text of the arguments -/

section
variable (repr : Text → Text)

mutual
/-- `str` of an argument, where `repr` shows a text that is in a list. -/
def SigArg.pyStr : SigArg → Text
  | .str s => s
  | .list l => '[' :: [',', ' '].intercalate (SigArg.pyReprs l) ++ [']']
  | .file name => "'CIM_DataFile.Name=\"".toList ++ name ++ "\"'".toList
  | .process pid => "'CIM_Process.Handle=\"".toList ++ decimal pid ++ "\"'".toList
  | .null => "None".toList
/-- The items of a list, shown. -/
def SigArg.pyReprs : List SigArg → List Text
  | [] => []
  | .str s :: l => repr s :: SigArg.pyReprs l
  | a :: l => a.pyStr :: SigArg.pyReprs l
end

/-- `GetSignatureWithArgs`. -/
def FlowBatch.getSignatureWithArgs (b : FlowBatch) : Text :=
  b.getSignature ++ ':' :: ['&'].intercalate (b.significantArgs.map (SigArg.pyStr repr))

/-- `SignatureForRepetitions`, of a pair. -/
def signatureForRepetitions (a b : FlowBatch) : Text :=
  a.getSignatureWithArgs repr ++ '+' :: b.getSignatureWithArgs repr

/-! ## Frequent pairs -/

/-- `StatisticsBigrams`: how often each pair is seen, after the pairs `m`. -/
def statisticsBigrams (mapOccurences : Dict Text ℕ) : List FlowBatch → Dict Text ℕ
  | a :: b :: l =>
    let keyRange := signatureForRepetitions repr a b
    statisticsBigrams (mapOccurences.set keyRange ((mapOccurences.get? keyRange).getD 0 + 1))
      (b :: l)
  | _ => mapOccurences

/-- A pair that is seen more than five times is replaced. -/
def isFrequent (mapOccurences : Dict Text ℕ) (a b : FlowBatch) : Bool :=
  5 < (mapOccurences.get? (signatureForRepetitions repr a b)).getD 0

/-- The previous sequence, counted once more, when the new one is the same call. -/
def reusePrevious (batchSeqPrev : Option FlowBatch) (batchSequence : FlowBatch) :
    Option FlowBatch :=
  match batchSeqPrev with
  | none => none
  | some prev => if batchSequence.sameCall prev then some prev.again else none

/-- The loop of `ClusterizeBigrams`, on the batches from `batchSeqPrev` on: the flow
and the number of substitutions. -/
def clusterizeBigramsLoop (frequent : FlowBatch → FlowBatch → Bool) :
    Option FlowBatch → List FlowBatch → List FlowBatch × ℕ
  | batchSeqPrev, a :: b :: l =>
    if frequent a b then
      match reusePrevious batchSeqPrev (.sequence a b 1) with
      | some prev =>
        let r := clusterizeBigramsLoop frequent (some prev) l
        (r.1, r.2 + 1)
      | none =>
        let r := clusterizeBigramsLoop frequent (some (.sequence a b 1)) l
        (batchSeqPrev.toList ++ r.1, r.2 + 1)
    else
      let r := clusterizeBigramsLoop frequent none (b :: l)
      (batchSeqPrev.toList ++ a :: r.1, r.2)
  | batchSeqPrev, l => (batchSeqPrev.toList ++ l, 0)

/-- `ClusterizeBigrams`. -/
def clusterizeBigrams (flow : List FlowBatch) : List FlowBatch × ℕ :=
  clusterizeBigramsLoop (isFrequent repr (statisticsBigrams repr [] flow)) none flow

end

/-! ## Batches with the same arguments -/

/-- What `ClusterizeBatchesByArguments` leaves: a batch, or the `BatchLetSequence` of
several ones, counted once. -/
inductive ClusteredBatch
  | batch (b : FlowBatch)
  | sequence (arrBatch : List FlowBatch)
  deriving DecidableEq

/-- The batches from `idxLast` to `idxBatch`: a single one stays. -/
def cluster (lastBatch : FlowBatch) (same : List FlowBatch) : ClusteredBatch :=
  if same = [] then .batch lastBatch else .sequence (lastBatch :: same)

/-- The loop of `ClusterizeBatchesByArguments`, where `lastBatch` is at `idxLast` and
`same` are the batches after it, with the same arguments, up to `idxBatch`. -/
def clusterizeArgumentsLoop (lastBatch : FlowBatch) (same : List FlowBatch) :
    List FlowBatch → List ClusteredBatch
  | [] => [cluster lastBatch same]
  | currentBatch :: l =>
    if lastBatch.significantArgs ≠ [] ∧
        currentBatch.significantArgs = lastBatch.significantArgs then
      clusterizeArgumentsLoop lastBatch (same ++ [currentBatch]) l
    else cluster lastBatch same :: clusterizeArgumentsLoop currentBatch [] l

/-- `ClusterizeBatchesByArguments`. -/
def clusterizeBatchesByArguments : List FlowBatch → List ClusteredBatch
  | [] => []
  | b :: l => clusterizeArgumentsLoop b [] l

/-! ## Elementary calls -/

/-- A function and its significant arguments. -/
structure ElementaryCall where
  funcNam : Text
  significantArgs : List SigArg
  deriving DecidableEq

/-- The calls that a batch stands for, when it is counted once. -/
def FlowBatch.pattern : FlowBatch → List ElementaryCall
  | .call funcNam args _ => [⟨funcNam.text, args⟩]
  | .sequence a b _ => a.pattern ++ b.pattern

/-- The calls that a batch of the flow stands for. -/
def FlowBatch.calls (b : FlowBatch) : List ElementaryCall :=
  (List.replicate b.occurrences b.pattern).flatten

/-- The calls that a flow stands for. -/
def calls (flow : List FlowBatch) : List ElementaryCall := flow.flatMap FlowBatch.calls

/-- The calls that a clustered batch stands for. -/
def ClusteredBatch.calls : ClusteredBatch → List ElementaryCall
  | batch b => b.calls
  | sequence arrBatch => arrBatch.flatMap FlowBatch.pattern

/-- The calls that a clustered flow stands for. -/
def clusterCalls (flow : List ClusteredBatch) : List ElementaryCall :=
  flow.flatMap ClusteredBatch.calls

/-! ## Where no count is lost -/

/-- A pair that is counted into the sequence of the pair before it is made of the
same calls. -/
def MergesAlike (before : Option (FlowBatch × FlowBatch)) (a b : FlowBatch) : Prop :=
  ∀ c d, before = some (c, d) → (FlowBatch.sequence a b 1).sameCall (.sequence c d 1) = true →
    a.pattern ++ b.pattern = c.pattern ++ d.pattern

/-- Each pair that is replaced has members that are counted once, and merges alike;
`before` is the pair that was replaced just before. -/
def PairsCounted (frequent : FlowBatch → FlowBatch → Bool) :
    Option (FlowBatch × FlowBatch) → List FlowBatch → Prop
  | before, a :: b :: l =>
    if frequent a b then
      a.occurrences = 1 ∧ b.occurrences = 1 ∧ MergesAlike before a b ∧
        PairsCounted frequent (some (a, b)) l
    else PairsCounted frequent none (b :: l)
  | _, _ => True

/-- The frequent pairs of a flow are counted. -/
def BigramsCounted (repr : Text → Text) (flow : List FlowBatch) : Prop :=
  PairsCounted (isFrequent repr (statisticsBigrams repr [] flow)) none flow

/-- Neighbours that would be put in one cluster are counted once. -/
def NeighboursCounted (a b : FlowBatch) : Prop :=
  a.significantArgs ≠ [] → b.significantArgs = a.significantArgs →
    a.occurrences = 1 ∧ b.occurrences = 1

/-- Neighbours with the same arguments are counted once. -/
def ClustersCounted (flow : List FlowBatch) : Prop := flow.IsChain NeighboursCounted

/-! ## Counting the calls -/

namespace FlowBatch

theorem pattern_ne_nil (b : FlowBatch) : b.pattern ≠ [] := by
  induction b with
  | call funcNam args n => exact List.cons_ne_nil _ _
  | sequence a b n ha hb =>
    intro h
    exact ha (List.append_eq_nil_iff.mp h).1

/-- The name of a batch tells how many calls it is made of. -/
theorem count_getSignature (b : FlowBatch) :
    b.getSignature.count '(' + 1 = b.pattern.length := by
  induction b with
  | call funcNam args n =>
    rw [getSignature, List.count_eq_zero_of_not_mem funcNam.noPar]
    rfl
  | sequence a b n ha hb =>
    have hcount : ('(' :: a.getSignature ++ '+' :: b.getSignature ++ [')']).count '(' =
        a.getSignature.count '(' + b.getSignature.count '(' + 1 := by
      simp only [List.count_append, List.count_cons, List.count_nil]
      have h₁ : ('+' == '(') = false := by decide
      have h₂ : (')' == '(') = false := by decide
      simp only [h₁, h₂, beq_self_eq_true, if_true, Bool.false_eq_true, if_false]
      omega
    rw [getSignature, hcount, pattern, List.length_append, ← ha, ← hb]
    omega

theorem length_pattern_of_sameCall {a b : FlowBatch} (h : a.sameCall b = true) :
    a.pattern.length = b.pattern.length := by
  have hname : a.getSignature = b.getSignature := (of_decide_eq_true h).1
  rw [← count_getSignature, hname, count_getSignature]

theorem sameCall_trans {a b c : FlowBatch} (h : a.sameCall b = true) (h' : b.sameCall c = true) :
    a.sameCall c = true := by
  obtain ⟨hn, ha⟩ := of_decide_eq_true h
  obtain ⟨hn', ha'⟩ := of_decide_eq_true h'
  exact decide_eq_true ⟨hn.trans hn', ha.trans ha'⟩

theorem sameCall_symm {a b : FlowBatch} (h : a.sameCall b = true) : b.sameCall a = true := by
  obtain ⟨hn, ha⟩ := of_decide_eq_true h
  exact decide_eq_true ⟨hn.symm, ha.symm⟩

@[simp] theorem pattern_again (b : FlowBatch) : b.again.pattern = b.pattern := by
  cases b <;> rfl

@[simp] theorem sameCall_again (a b : FlowBatch) : a.sameCall b.again = a.sameCall b := by
  cases b <;> rfl

@[simp] theorem occurrences_again (b : FlowBatch) : b.again.occurrences = b.occurrences + 1 := by
  cases b <;> rfl

theorem length_calls (b : FlowBatch) : b.calls.length = b.occurrences * b.pattern.length := by
  simp [calls]

/-- A batch that is counted once stands for its pattern. -/
theorem calls_of_once {b : FlowBatch} (h : b.occurrences = 1) : b.calls = b.pattern := by
  rw [calls, h]
  simp

theorem calls_again (b : FlowBatch) : b.again.calls = b.calls ++ b.pattern := by
  rw [calls, calls, occurrences_again, pattern_again, PNat.add_coe, PNat.one_coe,
    List.replicate_add, List.flatten_append]
  simp

theorem length_pattern_le_calls (b : FlowBatch) : b.pattern.length ≤ b.calls.length := by
  rw [length_calls]
  exact Nat.le_mul_of_pos_left _ b.occurrences.pos

/-- A batch that stands for no more than its pattern is counted once. -/
theorem once_of_length_calls {b : FlowBatch} (h : b.calls.length ≤ b.pattern.length) :
    b.occurrences = 1 := by
  have hpos : 0 < b.pattern.length := List.length_pos_of_ne_nil b.pattern_ne_nil
  rw [length_calls] at h
  have hle : (b.occurrences : ℕ) ≤ 1 :=
    Nat.le_of_mul_le_mul_right (h.trans (Nat.one_mul _).ge) hpos
  exact le_one_iff_eq_one.mp hle

end FlowBatch

@[simp] theorem calls_nil : calls [] = [] := rfl

@[simp] theorem calls_singleton (b : FlowBatch) : calls [b] = b.calls := List.append_nil _

theorem calls_cons (b : FlowBatch) (flow : List FlowBatch) :
    calls (b :: flow) = b.calls ++ calls flow := List.flatMap_cons ..

theorem calls_append (l l' : List FlowBatch) : calls (l ++ l') = calls l ++ calls l' :=
  List.flatMap_append ..

theorem calls_pair (a b : FlowBatch) :
    (FlowBatch.sequence a b 1).calls = a.pattern ++ b.pattern := FlowBatch.calls_of_once rfl

/-! ## The frequent pairs -/

section
variable (frequent : FlowBatch → FlowBatch → Bool)

theorem reusePrevious_eq_some {batchSeqPrev : Option FlowBatch} {s p : FlowBatch}
    (h : reusePrevious batchSeqPrev s = some p) :
    ∃ prev, batchSeqPrev = some prev ∧ s.sameCall prev = true ∧ p = prev.again := by
  cases batchSeqPrev with
  | none => cases h
  | some prev =>
    simp only [reusePrevious] at h
    split at h
    · rename_i hsame
      exact ⟨prev, rfl, hsame, (Option.some.inj h).symm⟩
    · cases h

/-- Each substitution makes the flow shorter. -/
theorem length_clusterizeBigramsLoop (batchSeqPrev : Option FlowBatch) (l : List FlowBatch) :
    (clusterizeBigramsLoop frequent batchSeqPrev l).1.length +
      (clusterizeBigramsLoop frequent batchSeqPrev l).2 ≤ batchSeqPrev.toList.length + l.length := by
  fun_induction clusterizeBigramsLoop frequent batchSeqPrev l with
  | case1 batchSeqPrev a b l hfreq prev hreuse r ih =>
    obtain ⟨p, rfl, -, rfl⟩ := reusePrevious_eq_some hreuse
    simp only [Option.toList_some, List.length_cons, List.length_nil, r] at ih ⊢
    omega
  | case2 batchSeqPrev a b l hfreq hreuse r ih =>
    simp only [Option.toList_some, List.length_cons, List.length_nil, List.length_append,
      r] at ih ⊢
    omega
  | case3 batchSeqPrev a b l hfreq r ih =>
    simp only [Option.toList_none, List.length_cons, List.length_nil, List.length_append,
      r] at ih ⊢
    omega
  | case4 batchSeqPrev l hl => rw [List.length_append, Nat.add_zero]

/-- The flow starts with the calls of the previous sequence. -/
theorem calls_clusterizeBigramsLoop (batchSeqPrev : Option FlowBatch) (l : List FlowBatch) :
    ∃ t, calls (clusterizeBigramsLoop frequent batchSeqPrev l).1 =
      calls batchSeqPrev.toList ++ t := by
  fun_induction clusterizeBigramsLoop frequent batchSeqPrev l with
  | case1 batchSeqPrev a b l hfreq prev hreuse r ih =>
    obtain ⟨p, rfl, -, rfl⟩ := reusePrevious_eq_some hreuse
    obtain ⟨t, ht⟩ := ih
    refine ⟨p.pattern ++ t, ?_⟩
    simpa [r, calls, FlowBatch.calls_again] using ht
  | case2 batchSeqPrev a b l hfreq hreuse r ih => exact ⟨calls r.1, calls_append _ _⟩
  | case3 batchSeqPrev a b l hfreq r ih => exact ⟨calls (a :: r.1), calls_append _ _⟩
  | case4 batchSeqPrev l hl => exact ⟨calls l, calls_append _ _⟩

/-- No call is added. -/
theorem length_calls_clusterizeBigramsLoop (batchSeqPrev : Option FlowBatch)
    (l : List FlowBatch) :
    (calls (clusterizeBigramsLoop frequent batchSeqPrev l).1).length ≤
      (calls batchSeqPrev.toList).length + (calls l).length := by
  fun_induction clusterizeBigramsLoop frequent batchSeqPrev l with
  | case1 batchSeqPrev a b l hfreq prev hreuse r ih =>
    obtain ⟨p, rfl, hsame, rfl⟩ := reusePrevious_eq_some hreuse
    have hlen := FlowBatch.length_pattern_of_sameCall hsame
    have ha := a.length_pattern_le_calls
    have hb := b.length_pattern_le_calls
    simp only [FlowBatch.pattern, List.length_append] at hlen
    simp only [Option.toList_some, calls_singleton, List.length_append,
      FlowBatch.calls_again] at ih
    simp only [Option.toList_some, calls_cons, calls_nil, List.length_append, List.length_nil]
    change (calls (clusterizeBigramsLoop frequent (some p.again) l).1).length ≤ _
    omega
  | case2 batchSeqPrev a b l hfreq hreuse r ih =>
    have ha := a.length_pattern_le_calls
    have hb := b.length_pattern_le_calls
    simp only [Option.toList_some, calls_singleton, calls_pair, List.length_append] at ih
    rw [calls_append, calls_cons, calls_cons, List.length_append, List.length_append,
      List.length_append]
    change _ + (calls (clusterizeBigramsLoop frequent _ l).1).length ≤ _
    omega
  | case3 batchSeqPrev a b l hfreq r ih =>
    simp only [Option.toList_none, calls_nil, List.length_nil] at ih
    rw [calls_append, calls_cons, calls_cons a, List.length_append, List.length_append,
      List.length_append]
    change _ + (_ + (calls (clusterizeBigramsLoop frequent none (b :: l)).1).length) ≤ _
    omega
  | case4 batchSeqPrev l hl => rw [calls_append, List.length_append]

/-- A pair goes into the sequence `p`, after the calls `u`: the calls are kept when the
members are counted once, and are those of the sequence, and the rest keeps its calls. -/
theorem calls_replaced_iff {a b p : FlowBatch} {l : List FlowBatch} {u : List ElementaryCall}
    (hp : p.calls = u ++ p.pattern)
    (hlen : p.pattern.length = a.pattern.length + b.pattern.length) :
    calls (clusterizeBigramsLoop frequent (some p) l).1 = u ++ (calls (a :: b :: l)) ↔
      a.occurrences = 1 ∧ b.occurrences = 1 ∧ a.pattern ++ b.pattern = p.pattern ∧
        calls (clusterizeBigramsLoop frequent (some p) l).1 = p.calls ++ calls l := by
  constructor
  · intro h
    have hle := length_calls_clusterizeBigramsLoop frequent (some p) l
    rw [h] at hle
    simp only [Option.toList_some, calls_cons, calls_nil, List.length_append, List.length_nil,
      hp] at hle
    have ha := a.length_pattern_le_calls
    have hb := b.length_pattern_le_calls
    have ha₁ := FlowBatch.once_of_length_calls (b := a) (by omega)
    have hb₁ := FlowBatch.once_of_length_calls (b := b) (by omega)
    obtain ⟨t, ht⟩ := calls_clusterizeBigramsLoop frequent (some p) l
    have hcalls : calls (some p).toList = u ++ p.pattern := (calls_singleton p).trans hp
    rw [hcalls, h, calls_cons, calls_cons, FlowBatch.calls_of_once ha₁,
      FlowBatch.calls_of_once hb₁, List.append_assoc, List.append_cancel_left_eq,
      ← List.append_assoc] at ht
    obtain ⟨hpat, rfl⟩ := List.append_inj ht (by rw [List.length_append, hlen])
    refine ⟨ha₁, hb₁, hpat, ?_⟩
    rw [h, calls_cons, calls_cons, FlowBatch.calls_of_once ha₁, FlowBatch.calls_of_once hb₁, hp,
      ← hpat]
    simp only [List.append_assoc]
  · rintro ⟨ha, hb, hpat, h⟩
    rw [h, hp, calls_cons, calls_cons, FlowBatch.calls_of_once ha, FlowBatch.calls_of_once hb,
      ← hpat]
    simp only [List.append_assoc]

/-- The previous sequence is the same call as the pair replaced just before. -/
def Follows (batchSeqPrev : Option FlowBatch) (before : Option (FlowBatch × FlowBatch)) : Prop :=
  (batchSeqPrev = none ∧ before = none) ∨ ∃ p c d, batchSeqPrev = some p ∧ before = some (c, d) ∧
    p.sameCall (.sequence c d 1) = true ∧ p.pattern = c.pattern ++ d.pattern

theorem sameCall_refl (b : FlowBatch) : b.sameCall b = true := decide_eq_true ⟨rfl, rfl⟩

/-- **The loop keeps the calls exactly when the pairs that it replaces are counted.** -/
theorem calls_clusterizeBigramsLoop_iff {batchSeqPrev : Option FlowBatch}
    {before : Option (FlowBatch × FlowBatch)} (l : List FlowBatch)
    (hfollows : Follows batchSeqPrev before) :
    calls (clusterizeBigramsLoop frequent batchSeqPrev l).1 =
        calls batchSeqPrev.toList ++ calls l ↔ PairsCounted frequent before l := by
  fun_induction clusterizeBigramsLoop frequent batchSeqPrev l generalizing before with
  | case1 batchSeqPrev a b l hfreq prev hreuse r =>
    rename_i ih
    obtain ⟨p, rfl, hsame, rfl⟩ := reusePrevious_eq_some hreuse
    obtain ⟨hnone, -⟩ | ⟨q, c, d, hq, rfl, hqsame, hqpat⟩ := hfollows
    · cases hnone
    cases hq
    have hlen := FlowBatch.length_pattern_of_sameCall hsame
    have hcalls : calls (some p).toList = p.calls := calls_singleton p
    rw [PairsCounted, if_pos hfreq, hcalls,
      calls_replaced_iff frequent (p.pattern_again.symm ▸ p.calls_again)
        (by rw [p.pattern_again, ← hlen, FlowBatch.pattern, List.length_append])]
    have hmerge : MergesAlike (some (c, d)) a b ↔
        a.pattern ++ b.pattern = p.again.pattern := by
      rw [p.pattern_again, hqpat]
      constructor
      · intro h
        exact h c d rfl (FlowBatch.sameCall_trans hsame hqsame)
      · rintro h c' d' hcd -
        cases hcd
        exact h
    rw [hmerge]
    refine and_congr_right fun _ => and_congr_right fun _ => and_congr_right fun hpat => ?_
    have hcalls' : calls (some p.again).toList = p.again.calls := calls_singleton _
    rw [← hcalls']
    refine ih (.inr ⟨_, a, b, rfl, rfl, ?_, hpat.symm⟩)
    exact FlowBatch.sameCall_symm (by rw [FlowBatch.sameCall_again]; exact hsame)
  | case2 batchSeqPrev a b l hfreq hreuse r =>
    rename_i ih
    have hmerge : MergesAlike before a b := by
      rintro c d rfl hsame
      obtain ⟨-, hnone⟩ | ⟨q, c', d', rfl, hcd, hqsame, -⟩ := hfollows
      · cases hnone
      · cases hcd
        have hq := FlowBatch.sameCall_trans hsame (FlowBatch.sameCall_symm hqsame)
        simp only [reusePrevious, hq, if_true] at hreuse
        cases hreuse
    have hcalls : calls (some (FlowBatch.sequence a b 1)).toList =
        (FlowBatch.sequence a b 1).calls := calls_singleton _
    have hkey := calls_replaced_iff frequent (a := a) (b := b) (l := l) (u := [])
      (p := .sequence a b 1) (calls_pair a b) List.length_append
    rw [PairsCounted, if_pos hfreq, calls_append, List.append_cancel_left_eq]
    refine hkey.trans ?_
    refine and_congr_right fun _ => and_congr_right fun _ => ?_
    rw [← hcalls, ih (.inr ⟨_, a, b, rfl, rfl, sameCall_refl _, rfl⟩)]
    exact ⟨fun h => ⟨hmerge, h.2⟩, fun h => ⟨rfl, h.2⟩⟩
  | case3 batchSeqPrev a b l hfreq r =>
    rename_i ih
    rw [PairsCounted, if_neg hfreq, ← ih (.inl ⟨rfl, rfl⟩), calls_append, calls_cons, calls_cons,
      List.append_cancel_left_eq, List.append_cancel_left_eq]
    rfl
  | case4 batchSeqPrev l hl =>
    have htrue : PairsCounted frequent before l := by
      rw [PairsCounted.eq_def]
      split
      · exact absurd rfl (hl _ _ _)
      · trivial
    exact iff_of_true (calls_append _ _) htrue

end

/-! ## The batches with the same arguments -/

theorem clusterCalls_cons (b : ClusteredBatch) (flow : List ClusteredBatch) :
    clusterCalls (b :: flow) = b.calls ++ clusterCalls flow := List.flatMap_cons ..

theorem length_patterns_le (l : List FlowBatch) :
    (l.flatMap FlowBatch.pattern).length ≤ (calls l).length := by
  induction l with
  | nil => exact le_rfl
  | cons b l ih =>
    have hb := b.length_pattern_le_calls
    rw [calls_cons, List.flatMap_cons, List.length_append, List.length_append]
    omega

/-- Batches stand for their patterns only when each is counted once. -/
theorem patterns_eq_calls_iff (l : List FlowBatch) :
    (calls l).length ≤ (l.flatMap FlowBatch.pattern).length ↔ ∀ b ∈ l, b.occurrences = 1 := by
  induction l with
  | nil => exact iff_of_true le_rfl (List.forall_mem_nil _)
  | cons b l ih =>
    have hb := b.length_pattern_le_calls
    have hl := length_patterns_le l
    rw [calls_cons, List.flatMap_cons, List.length_append, List.length_append,
      List.forall_mem_cons, ← ih]
    constructor
    · intro h
      exact ⟨FlowBatch.once_of_length_calls (by omega), by omega⟩
    · rintro ⟨hone, h⟩
      rw [FlowBatch.calls_of_once hone]
      omega

theorem patterns_of_once {l : List FlowBatch} (h : ∀ b ∈ l, b.occurrences = 1) :
    l.flatMap FlowBatch.pattern = calls l :=
  List.flatMap_congr fun b hb => (FlowBatch.calls_of_once (h b hb)).symm

/-- The members of a cluster are counted once. -/
def ClusterCounted (lastBatch : FlowBatch) (same : List FlowBatch) : Prop :=
  same ≠ [] → ∀ b ∈ lastBatch :: same, b.occurrences = 1

theorem length_cluster_le (lastBatch : FlowBatch) (same : List FlowBatch) :
    (cluster lastBatch same).calls.length ≤ (calls (lastBatch :: same)).length := by
  rw [cluster]
  split
  · rename_i h
    rw [h, calls_cons]
    exact (List.length_append ▸ Nat.le_add_right _ _)
  · exact length_patterns_le _

theorem cluster_of_counted {lastBatch : FlowBatch} {same : List FlowBatch}
    (h : ClusterCounted lastBatch same) :
    (cluster lastBatch same).calls = calls (lastBatch :: same) := by
  rw [cluster]
  split
  · rename_i hnil
    rw [hnil]
    exact (List.append_nil _).symm
  · rename_i hne
    exact patterns_of_once (h hne)

theorem counted_of_cluster {lastBatch : FlowBatch} {same : List FlowBatch}
    (h : (calls (lastBatch :: same)).length ≤ (cluster lastBatch same).calls.length) :
    ClusterCounted lastBatch same := by
  intro hne
  rw [cluster, if_neg hne] at h
  exact (patterns_eq_calls_iff _).mp h

/-- No call is added. -/
theorem length_clusterizeArgumentsLoop_le (lastBatch : FlowBatch) (same l : List FlowBatch) :
    (clusterCalls (clusterizeArgumentsLoop lastBatch same l)).length ≤
      (calls (lastBatch :: same)).length + (calls l).length := by
  fun_induction clusterizeArgumentsLoop lastBatch same l with
  | case1 lastBatch same =>
    have h := length_cluster_le lastBatch same
    rw [clusterCalls_cons, List.length_append]
    exact Nat.add_le_add h le_rfl
  | case2 lastBatch same b l hsame ih =>
    have happ := calls_append (lastBatch :: same) [b]
    rw [List.cons_append] at happ
    rw [happ, List.length_append] at ih
    rw [calls_cons b l, List.length_append]
    have hb : (calls [b]).length = b.calls.length := by
      rw [calls_cons, List.length_append]
      rfl
    omega
  | case3 lastBatch same b l hsame ih =>
    have h := length_cluster_le lastBatch same
    rw [clusterCalls_cons, List.length_append, calls_cons b l, List.length_append]
    have hb : (calls [b]).length = b.calls.length := by
      rw [calls_cons, List.length_append]
      rfl
    omega

/-- The batches of a cluster have the arguments of the first one. -/
structure IsCluster (lastBatch : FlowBatch) (same : List FlowBatch) : Prop where
  args : ∀ b ∈ same, b.significantArgs = lastBatch.significantArgs
  ne_nil : same ≠ [] → lastBatch.significantArgs ≠ []

theorem IsCluster.getLast {lastBatch z : FlowBatch} {same : List FlowBatch}
    (h : IsCluster lastBatch same) (hz : (lastBatch :: same).getLast? = some z) :
    z.significantArgs = lastBatch.significantArgs := by
  rcases List.mem_cons.mp (List.mem_of_getLast? hz) with rfl | hmem
  · rfl
  · exact h.args z hmem

/-- **The loop keeps the calls exactly when the neighbours are counted.** -/
theorem clusterizeArgumentsLoop_iff {lastBatch z : FlowBatch} {same : List FlowBatch}
    (l : List FlowBatch) (hcluster : IsCluster lastBatch same)
    (hz : (lastBatch :: same).getLast? = some z) :
    clusterCalls (clusterizeArgumentsLoop lastBatch same l) =
        calls (lastBatch :: same) ++ calls l ↔
      ClusterCounted lastBatch same ∧ (z :: l).IsChain NeighboursCounted := by
  fun_induction clusterizeArgumentsLoop lastBatch same l generalizing z with
  | case1 lastBatch same =>
    have hcons : clusterCalls [cluster lastBatch same] = (cluster lastBatch same).calls :=
      List.append_nil _
    rw [calls_nil, List.append_nil, hcons]
    constructor
    · intro h
      exact ⟨counted_of_cluster (h ▸ le_rfl), .singleton z⟩
    · rintro ⟨h, -⟩
      exact cluster_of_counted h
  | case2 lastBatch same b l hsame ih =>
    have hcluster' : IsCluster lastBatch (same ++ [b]) := by
      refine ⟨fun c hc => ?_, fun _ => hsame.1⟩
      rcases List.mem_append.mp hc with hc | hc
      · exact hcluster.args c hc
      · rw [List.mem_singleton.mp hc]
        exact hsame.2
    have hz' : (lastBatch :: (same ++ [b])).getLast? = some b := by
      rw [← List.cons_append]
      exact List.getLast?_concat ..
    have hzargs := hcluster.getLast hz
    have happ := calls_append (lastBatch :: same) [b]
    rw [List.cons_append] at happ
    have hb := calls_singleton b
    have hiff := ih hcluster' hz'
    rw [happ, hb, List.append_assoc, ← calls_cons] at hiff
    rw [hiff, List.isChain_cons_cons, ← and_assoc]
    refine and_congr_left fun _ => ?_
    constructor
    · intro h
      have hall := h (by simp)
      have honce : ∀ c ∈ lastBatch :: same, c.occurrences = 1 := by
        intro c hc
        exact hall c (by rw [← List.cons_append]; exact List.mem_append_left _ hc)
      refine ⟨fun _ => honce, fun _ _ => ⟨honce z (List.mem_of_getLast? hz), ?_⟩⟩
      exact hall b (by simp)
    · rintro ⟨h, hnext⟩ - c hc
      obtain ⟨hzonce, hbonce⟩ := hnext (hzargs ▸ hsame.1) (hsame.2.trans hzargs.symm)
      rw [← List.cons_append] at hc
      rcases List.mem_append.mp hc with hc | hc
      · by_cases hnil : same = []
        · subst hnil
          have hlast : lastBatch = z := Option.some.inj hz
          rw [List.mem_singleton.mp hc, hlast]
          exact hzonce
        · exact h hnil c hc
      · rw [List.mem_singleton.mp hc]
        exact hbonce
  | case3 lastBatch same b l hsame ih =>
    have hiff := ih ⟨List.forall_mem_nil _, fun h => absurd rfl h⟩ rfl
    have hb := calls_singleton b
    rw [hb, ← calls_cons] at hiff
    have hzargs := hcluster.getLast hz
    have hnext : NeighboursCounted z b := by
      intro hne heq
      exact absurd ⟨hzargs ▸ hne, heq.trans hzargs⟩ hsame
    have hcounted : ClusterCounted b [] := fun h => absurd rfl h
    rw [clusterCalls_cons, List.isChain_cons_cons]
    have hle := length_clusterizeArgumentsLoop_le b [] l
    rw [hb, ← List.length_append, ← calls_cons] at hle
    have hle' := length_cluster_le lastBatch same
    constructor
    · intro h
      have hlen := congrArg List.length h
      rw [List.length_append, List.length_append] at hlen
      obtain ⟨hc, hl⟩ := List.append_inj h (by omega)
      exact ⟨counted_of_cluster (hc ▸ le_rfl), hnext, (hiff.mp hl).2⟩
    · rintro ⟨h, -, hl⟩
      rw [cluster_of_counted h, hiff.mpr ⟨hcounted, hl⟩]

/-! ## The calls of a factorised flow -/

theorem calls_clusterizeBigrams_iff (repr : Text → Text) (flow : List FlowBatch) :
    calls (clusterizeBigrams repr flow).1 = calls flow ↔ BigramsCounted repr flow :=
  calls_clusterizeBigramsLoop_iff _ flow (.inl ⟨rfl, rfl⟩)

theorem calls_clusterizeBatchesByArguments_iff (flow : List FlowBatch) :
    clusterCalls (clusterizeBatchesByArguments flow) = calls flow ↔ ClustersCounted flow := by
  cases flow with
  | nil => exact iff_of_true rfl .nil
  | cons b l =>
    have h := @clusterizeArgumentsLoop_iff b b [] l
      ⟨List.forall_mem_nil _, fun h => absurd rfl h⟩ rfl
    have hb := calls_singleton b
    rw [hb, ← calls_cons] at h
    exact h.trans (and_iff_right fun hne => absurd rfl hne)

/-- **`ClusterizeBigrams` and `ClusterizeBatchesByArguments` keep the calls of a flow
exactly when no counted batch enters a sequence**, and no pair is counted into the
sequence of other calls. -/
theorem factorised_calls_iff (repr : Text → Text) (flow : List FlowBatch) :
    (calls (clusterizeBigrams repr flow).1 = calls flow ↔ BigramsCounted repr flow) ∧
      (clusterCalls (clusterizeBatchesByArguments flow) = calls flow ↔ ClustersCounted flow) := by
  constructor
  · exact calls_clusterizeBigrams_iff repr flow
  · exact calls_clusterizeBatchesByArguments_iff flow

/-- What `DumpFlow` prints of a batch of the flow. -/
def FlowBatch.visible (b : FlowBatch) : Text × List SigArg × ℕ+ :=
  (b.getSignature, b.significantArgs, b.occurrences)

/-- A flow of six times a call that is counted `n` times, and another call. -/
def sixPairs (n : ℕ+) : List FlowBatch :=
  (List.replicate 6 [.call ⟨['f'], by decide⟩ [] n, .call ⟨['g'], by decide⟩ [] 1]).flatten

/-- **Twelve and eighteen calls leave the same batches**: the counts cannot be
recovered. -/
theorem sixPairs_not_recoverable :
    calls (clusterizeBigrams id (sixPairs 2)).1 ≠ calls (sixPairs 2) ∧
      ((clusterizeBigrams id (sixPairs 2)).1.map FlowBatch.visible =
        (clusterizeBigrams id (sixPairs 1)).1.map FlowBatch.visible) ∧
      calls (sixPairs 2) ≠ calls (sixPairs 1) := by
  decide +kernel

/-! ## All the passes -/

section
variable (repr : Text → Text)

theorem length_clusterizeBigrams (flow : List FlowBatch) :
    (clusterizeBigrams repr flow).1.length + (clusterizeBigrams repr flow).2 ≤ flow.length := by
  have h := length_clusterizeBigramsLoop (isFrequent repr (statisticsBigrams repr [] flow)) none flow
  rwa [Option.toList_none, List.length_nil, Nat.zero_add] at h

/-- `ClusterizeBigrams`, until there is no substitution. -/
def bigramPasses (flow : List FlowBatch) : List FlowBatch :=
  if (clusterizeBigrams repr flow).2 = 0 then (clusterizeBigrams repr flow).1
  else bigramPasses (clusterizeBigrams repr flow).1
termination_by flow.length
decreasing_by
  have h := length_clusterizeBigrams repr flow
  omega

/-- `FactorizeOneFlow`, after the matched batches are filtered. -/
def factorizeOneFlow (flow : List FlowBatch) : List ClusteredBatch :=
  clusterizeBatchesByArguments (bigramPasses repr flow)

/-- A flow that the passes meet. -/
inductive Met (flow : List FlowBatch) : List FlowBatch → Prop
  | start : Met flow flow
  | pass {flow' : List FlowBatch} (h : Met flow flow') : Met flow (clusterizeBigrams repr flow').1

theorem Met.trans {l l' l'' : List FlowBatch} (h : Met repr l l') (h' : Met repr l' l'') :
    Met repr l l'' := by
  induction h' with
  | start => exact h
  | pass _ ih => exact .pass ih

theorem calls_bigramPasses {flow : List FlowBatch}
    (h : ∀ flow', Met repr flow flow' → BigramsCounted repr flow') :
    calls (bigramPasses repr flow) = calls flow ∧ Met repr flow (bigramPasses repr flow) := by
  fun_induction bigramPasses repr flow with
  | case1 flow hzero =>
    exact ⟨(calls_clusterizeBigrams_iff repr flow).mpr (h flow .start), .pass .start⟩
  | case2 flow hzero ih =>
    obtain ⟨hcalls, hmet⟩ := ih fun flow' hflow' => h flow' (.trans repr (.pass .start) hflow')
    refine ⟨hcalls.trans ?_, .trans repr (.pass .start) hmet⟩
    exact (calls_clusterizeBigrams_iff repr flow).mpr (h flow .start)

/-- A flow keeps its calls when no count is lost in any pass. -/
theorem calls_factorizeOneFlow {flow : List FlowBatch}
    (h : ∀ flow', Met repr flow flow' → BigramsCounted repr flow' ∧ ClustersCounted flow') :
    clusterCalls (factorizeOneFlow repr flow) = calls flow := by
  obtain ⟨hcalls, hmet⟩ := calls_bigramPasses repr fun flow' hflow' => (h flow' hflow').1
  rw [factorizeOneFlow, (calls_clusterizeBatchesByArguments_iff _).mpr (h _ hmet).2, hcalls]

end

end Survol.Dockit
