import Survol.Dockit.Factorisation

/-!
# The texts that stand for pairs

`StatisticsBigrams` and `ClusterizeBigrams` compare pairs of consecutive batches by texts: the name
and the arguments of a batch are joined by `:` and `&`, and the two batches by `+`. A sequence is
compared with the next pair by its joined name, and by its arguments, each of which is kept once.
Both lose the places where one part ends.

## Main definitions

* `MovesPast` — a separator is found at another place of a joined text.
* `SamePair` — the same functions with the same arguments.
* `PairAmbiguous`, `SequenceAmbiguous` — different pairs that are not told apart.
* `clusterizeBigramsTraced` — the loop, with the pairs that it replaces.

## Main results

* `soundBigrams_iff` — where the pass only treats equal pairs as repetitions.
-/

open PyText

namespace Survol.Dockit

/-! ## Joined texts -/

section
variable {α : Type} {s : α} {x x' y y' : List α}

/-- The separator that ends `x` comes before the one that ends `x'`, in the same text. -/
def MovesPast (s : α) (x y x' y' : List α) : Prop := ∃ m, x' = x ++ s :: m ∧ y = m ++ s :: y'

theorem MovesPast.ne (h : MovesPast s x y x' y') : x ≠ x' := by
  obtain ⟨m, rfl, -⟩ := h
  simp

/-- Two joined texts are the same when their parts are, or when the separator moves. -/
theorem append_cons_eq_iff : x ++ s :: y = x' ++ s :: y' ↔
    (x = x' ∧ y = y') ∨ MovesPast s x y x' y' ∨ MovesPast s x' y' x y := by
  constructor
  · intro h
    rcases List.append_eq_append_iff.mp h with ⟨m, rfl, hy⟩ | ⟨m, rfl, hy⟩
    · cases m with
      | nil =>
        rw [List.nil_append, List.cons.injEq] at hy
        exact .inl ⟨(List.append_nil x).symm, hy.2⟩
      | cons c m =>
        rw [List.cons_append, List.cons.injEq] at hy
        obtain ⟨rfl, hy⟩ := hy
        exact .inr (.inl ⟨m, rfl, hy⟩)
    · cases m with
      | nil =>
        rw [List.nil_append, List.cons.injEq] at hy
        exact .inl ⟨List.append_nil x', hy.2.symm⟩
      | cons c m =>
        rw [List.cons_append, List.cons.injEq] at hy
        obtain ⟨rfl, hy⟩ := hy
        exact .inr (.inr ⟨m, rfl, hy⟩)
  · rintro (⟨rfl, rfl⟩ | ⟨m, rfl, rfl⟩ | ⟨m, rfl, rfl⟩)
    · rfl
    · simp
    · simp

/-- Two lists of texts that are the same once they are joined. -/
def Rejoined (s : α) (l l' : List (List α)) : Prop :=
  l ≠ l' ∧ [s].intercalate l = [s].intercalate l'

end

/-! ## Pairs -/

/-- The same function, with the same significant arguments at the same positions. -/
def SameElement (a c : FlowBatch) : Prop :=
  a.getSignature = c.getSignature ∧ a.significantArgs = c.significantArgs

instance (a c : FlowBatch) : Decidable (SameElement a c) :=
  inferInstanceAs (Decidable (_ ∧ _))

/-- Two consecutive batches. -/
abbrev BatchPair := FlowBatch × FlowBatch

/-- The same two functions, with the same arguments. -/
def SamePair (p q : BatchPair) : Prop := SameElement p.1 q.1 ∧ SameElement p.2 q.2

instance (p q : BatchPair) : Decidable (SamePair p q) := inferInstanceAs (Decidable (_ ∧ _))

theorem SamePair.symm {p q : BatchPair} (h : SamePair p q) : SamePair q p :=
  ⟨⟨h.1.1.symm, h.1.2.symm⟩, h.2.1.symm, h.2.2.symm⟩

theorem SamePair.trans {p q r : BatchPair} (h : SamePair p q) (h' : SamePair q r) :
    SamePair p r :=
  ⟨⟨h.1.1.trans h'.1.1, h.1.2.trans h'.1.2⟩, h.2.1.trans h'.2.1, h.2.2.trans h'.2.2⟩

/-- The pairs of consecutive batches of a flow. -/
def neighbours : List FlowBatch → List BatchPair
  | a :: b :: l => (a, b) :: neighbours (b :: l)
  | _ => []

section
variable (repr : Text → Text)

/-- The key of a pair. -/
def pairKey (p : BatchPair) : Text := signatureForRepetitions repr p.1 p.2

/-- The texts of the arguments. -/
def argTexts (b : FlowBatch) : List Text := b.significantArgs.map (SigArg.pyStr repr)

/-- Two different batches whose texts are the same: another `:` ends the name, other `&` end the
arguments, or different arguments have the same text. -/
def Ambiguous (a c : FlowBatch) : Prop :=
  MovesPast ':' a.getSignature (['&'].intercalate (argTexts repr a)) c.getSignature
      (['&'].intercalate (argTexts repr c)) ∨
    MovesPast ':' c.getSignature (['&'].intercalate (argTexts repr c)) a.getSignature
      (['&'].intercalate (argTexts repr a)) ∨
    (a.getSignature = c.getSignature ∧ Rejoined '&' (argTexts repr a) (argTexts repr c)) ∨
    (a.getSignature = c.getSignature ∧ a.significantArgs ≠ c.significantArgs ∧
      argTexts repr a = argTexts repr c)

/-- Two different pairs whose keys are the same: another `+` ends the first batch, or the batches
have the same texts. -/
def PairAmbiguous (p q : BatchPair) : Prop :=
  MovesPast '+' (p.1.getSignatureWithArgs repr) (p.2.getSignatureWithArgs repr)
      (q.1.getSignatureWithArgs repr) (q.2.getSignatureWithArgs repr) ∨
    MovesPast '+' (q.1.getSignatureWithArgs repr) (q.2.getSignatureWithArgs repr)
      (p.1.getSignatureWithArgs repr) (p.2.getSignatureWithArgs repr) ∨
    (Ambiguous repr p.1 q.1 ∧ (SameElement p.2 q.2 ∨ Ambiguous repr p.2 q.2)) ∨
    (SameElement p.1 q.1 ∧ Ambiguous repr p.2 q.2)

/-- Two different pairs whose sequences are the same call: another `+` ends the first name, or the
distinct arguments do not tell the arguments. -/
def SequenceAmbiguous (p q : BatchPair) : Prop :=
  (FlowBatch.sequence p.1 p.2 1).significantArgs = (FlowBatch.sequence q.1 q.2 1).significantArgs ∧
    (MovesPast '+' p.1.getSignature p.2.getSignature q.1.getSignature q.2.getSignature ∨
      MovesPast '+' q.1.getSignature q.2.getSignature p.1.getSignature p.2.getSignature ∨
      (p.1.getSignature = q.1.getSignature ∧ p.2.getSignature = q.2.getSignature ∧
        ¬ (p.1.significantArgs = q.1.significantArgs ∧ p.2.significantArgs = q.2.significantArgs)))

end

section
variable {repr : Text → Text} {a c : FlowBatch} {p q : BatchPair}

theorem Ambiguous.ne (h : Ambiguous repr a c) : ¬ SameElement a c := by
  rintro ⟨hname, hargs⟩
  rcases h with h | h | ⟨-, h, -⟩ | ⟨-, h, -⟩
  · exact h.ne hname
  · exact h.ne hname.symm
  · exact h (by rw [argTexts, argTexts, hargs])
  · exact h hargs

/-- Two batches have the same text when they are the same, or ambiguous. -/
theorem getSignatureWithArgs_eq_iff :
    a.getSignatureWithArgs repr = c.getSignatureWithArgs repr ↔
      SameElement a c ∨ Ambiguous repr a c := by
  rw [FlowBatch.getSignatureWithArgs, FlowBatch.getSignatureWithArgs, append_cons_eq_iff, Ambiguous,
    SameElement, ← argTexts, ← argTexts]
  constructor
  · rintro (⟨hname, hjoin⟩ | h | h)
    · by_cases hargs : a.significantArgs = c.significantArgs
      · exact .inl ⟨hname, hargs⟩
      · by_cases htexts : argTexts repr a = argTexts repr c
        · exact .inr (.inr (.inr (.inr ⟨hname, hargs, htexts⟩)))
        · exact .inr (.inr (.inr (.inl ⟨hname, htexts, hjoin⟩)))
    · exact .inr (.inl h)
    · exact .inr (.inr (.inl h))
  · rintro (⟨hname, hargs⟩ | h | h | ⟨hname, -, hjoin⟩ | ⟨hname, -, htexts⟩)
    · exact .inl ⟨hname, by rw [argTexts, argTexts, hargs]⟩
    · exact .inr (.inl h)
    · exact .inr (.inr h)
    · exact .inl ⟨hname, hjoin⟩
    · exact .inl ⟨hname, by rw [htexts]⟩

theorem getSignatureWithArgs_eq (h : SameElement a c) :
    a.getSignatureWithArgs repr = c.getSignatureWithArgs repr :=
  getSignatureWithArgs_eq_iff.mpr (.inl h)

theorem PairAmbiguous.ne (h : PairAmbiguous repr p q) : ¬ SamePair p q := by
  rintro ⟨h₁, h₂⟩
  rcases h with h | h | ⟨h, -⟩ | ⟨-, h⟩
  · exact h.ne (getSignatureWithArgs_eq h₁)
  · exact h.ne (getSignatureWithArgs_eq h₁).symm
  · exact h.ne h₁
  · exact h.ne h₂

/-- **Two pairs have the same key when they are the same, or ambiguous.** -/
theorem pairKey_eq_iff :
    pairKey repr p = pairKey repr q ↔ SamePair p q ∨ PairAmbiguous repr p q := by
  rw [pairKey, pairKey, signatureForRepetitions, signatureForRepetitions, append_cons_eq_iff,
    getSignatureWithArgs_eq_iff, getSignatureWithArgs_eq_iff, PairAmbiguous, SamePair]
  tauto

/-- Two sequences are the same call when their pairs are the same, or ambiguous. -/
theorem sameCall_sequence_iff (n m : ℕ+) :
    (FlowBatch.sequence p.1 p.2 n).sameCall (.sequence q.1 q.2 m) = true ↔
      SamePair p q ∨ SequenceAmbiguous p q := by
  have hname : (FlowBatch.sequence p.1 p.2 n).getSignature =
      (FlowBatch.sequence q.1 q.2 m).getSignature ↔
      p.1.getSignature ++ '+' :: p.2.getSignature =
        q.1.getSignature ++ '+' :: q.2.getSignature := by
    rw [FlowBatch.getSignature, FlowBatch.getSignature, List.append_left_inj, List.cons_append,
      List.cons_append, List.cons.injEq, and_iff_right rfl]
  have hargs : ∀ (p : BatchPair) (n : ℕ+), (FlowBatch.sequence p.1 p.2 n).significantArgs =
      addDistinct (addDistinct [] p.1.significantArgs) p.2.significantArgs := fun p n => by
    rw [FlowBatch.significantArgs]
  rw [FlowBatch.sameCall, decide_eq_true_eq, hname, append_cons_eq_iff, SamePair, SequenceAmbiguous,
    hargs, hargs, hargs, hargs, SameElement, SameElement]
  constructor
  · rintro ⟨⟨h₁, h₂⟩ | h | h, hdistinct⟩
    · by_cases hsame : p.1.significantArgs = q.1.significantArgs ∧
        p.2.significantArgs = q.2.significantArgs
      · exact .inl ⟨⟨h₁, hsame.1⟩, h₂, hsame.2⟩
      · exact .inr ⟨hdistinct, .inr (.inr ⟨h₁, h₂, hsame⟩)⟩
    · exact .inr ⟨hdistinct, .inl h⟩
    · exact .inr ⟨hdistinct, .inr (.inl h)⟩
  · rintro (⟨⟨h₁, hargs₁⟩, h₂, hargs₂⟩ | ⟨hdistinct, h | h | ⟨h₁, h₂, -⟩⟩)
    · exact ⟨.inl ⟨h₁, h₂⟩, by rw [hargs₁, hargs₂]⟩
    · exact ⟨.inr (.inl h), hdistinct⟩
    · exact ⟨.inr (.inr h), hdistinct⟩
    · exact ⟨.inl ⟨h₁, h₂⟩, hdistinct⟩

theorem SequenceAmbiguous.ne (h : SequenceAmbiguous p q) : ¬ SamePair p q := by
  rintro ⟨⟨h₁, hargs₁⟩, -, hargs₂⟩
  rcases h.2 with h | h | ⟨-, -, h⟩
  · exact h.ne h₁
  · exact h.ne h₁.symm
  · exact h ⟨hargs₁, hargs₂⟩

end

/-! ## How often a pair is seen -/

section
variable {repr : Text → Text}

/-- The statistics count the pairs with a key. -/
theorem get?_statisticsBigrams (m : Dict Text ℕ) (l : List FlowBatch) (k : Text) :
    ((statisticsBigrams repr m l).get? k).getD 0 =
      (m.get? k).getD 0 + (neighbours l).countP (fun p => pairKey repr p = k) := by
  fun_induction statisticsBigrams repr m l with
  | case1 m a b l keyRange ih =>
    have hkey : pairKey repr (a, b) = keyRange := rfl
    rw [ih, Dict.get?_set, neighbours, List.countP_cons, hkey]
    split
    · rename_i heq
      rw [if_pos (decide_eq_true heq), Option.getD_some, heq]
      omega
    · rename_i heq
      rw [if_neg (by simpa using heq)]
      rfl
  | case2 l m hl =>
    have hnil : neighbours l = [] := by
      rcases l with _ | ⟨a, _ | ⟨b, l⟩⟩
      · rfl
      · rfl
      · exact absurd rfl (hl a b l)
    rw [hnil]
    rfl

/-- How often a pair is seen at the start of the pass. -/
theorem isFrequent_iff (flow : List FlowBatch) (p : BatchPair) :
    isFrequent repr (statisticsBigrams repr [] flow) p.1 p.2 = true ↔
      5 < (neighbours flow).countP (fun q => pairKey repr q = pairKey repr p) := by
  rw [isFrequent, decide_eq_true_eq, get?_statisticsBigrams, Dict.get?_nil, Option.getD_none,
    Nat.zero_add]
  rfl

end

/-! ## The pairs that are replaced -/

/-- A pair that is replaced by its own sequence, or counted into the previous one. -/
structure Replaced where
  pair : BatchPair
  countedInto : Option FlowBatch

section
variable (frequent : FlowBatch → FlowBatch → Bool)

/-- The loop of `ClusterizeBigrams`, with the pairs that it replaces. -/
def clusterizeBigramsTraced : Option FlowBatch → List FlowBatch →
    (List FlowBatch × ℕ) × List Replaced
  | batchSeqPrev, a :: b :: l =>
    if frequent a b then
      match reusePrevious batchSeqPrev (.sequence a b 1) with
      | some prev =>
        let r := clusterizeBigramsTraced (some prev) l
        ((r.1.1, r.1.2 + 1), ⟨(a, b), batchSeqPrev⟩ :: r.2)
      | none =>
        let r := clusterizeBigramsTraced (some (.sequence a b 1)) l
        ((batchSeqPrev.toList ++ r.1.1, r.1.2 + 1), ⟨(a, b), none⟩ :: r.2)
    else
      let r := clusterizeBigramsTraced none (b :: l)
      ((batchSeqPrev.toList ++ a :: r.1.1, r.1.2), r.2)
  | batchSeqPrev, l => ((batchSeqPrev.toList ++ l, 0), [])

/-- It is the loop. -/
theorem fst_clusterizeBigramsTraced (batchSeqPrev : Option FlowBatch) (l : List FlowBatch) :
    (clusterizeBigramsTraced frequent batchSeqPrev l).1 =
      clusterizeBigramsLoop frequent batchSeqPrev l := by
  fun_induction clusterizeBigramsLoop frequent batchSeqPrev l with
  | case1 batchSeqPrev a b l hfreq prev hreuse r ih =>
    rw [clusterizeBigramsTraced, if_pos hfreq, hreuse]
    simp only [ih, r]
  | case2 batchSeqPrev a b l hfreq hreuse r ih =>
    rw [clusterizeBigramsTraced, if_pos hfreq, hreuse]
    simp only [ih, r]
  | case3 batchSeqPrev a b l hfreq r ih =>
    rw [clusterizeBigramsTraced, if_neg hfreq]
    simp only [ih, r]
  | case4 batchSeqPrev l hl =>
    rw [clusterizeBigramsTraced]
    exact hl

/-- Every pair that is replaced is a frequent pair of neighbours. -/
theorem mem_of_replaced (batchSeqPrev : Option FlowBatch) (l : List FlowBatch) :
    ∀ e ∈ (clusterizeBigramsTraced frequent batchSeqPrev l).2,
      e.pair ∈ neighbours l ∧ frequent e.pair.1 e.pair.2 = true := by
  have hskip : ∀ (a b : FlowBatch) (l : List FlowBatch), ∀ p ∈ neighbours l,
      p ∈ neighbours (a :: b :: l) := by
    intro a b l p hp
    cases l with
    | nil => cases hp
    | cons c l => exact List.mem_cons_of_mem _ (List.mem_cons_of_mem _ hp)
  fun_induction clusterizeBigramsTraced frequent batchSeqPrev l with
  | case1 batchSeqPrev a b l hfreq prev hreuse r ih =>
    intro e he
    rcases List.mem_cons.mp he with rfl | he
    · exact ⟨List.mem_cons_self, hfreq⟩
    · exact ⟨hskip a b l _ (ih e he).1, (ih e he).2⟩
  | case2 batchSeqPrev a b l hfreq hreuse r ih =>
    intro e he
    rcases List.mem_cons.mp he with rfl | he
    · exact ⟨List.mem_cons_self, hfreq⟩
    · exact ⟨hskip a b l _ (ih e he).1, (ih e he).2⟩
  | case3 batchSeqPrev a b l hfreq r ih =>
    intro e he
    exact ⟨List.mem_cons_of_mem _ (ih e he).1, (ih e he).2⟩
  | case4 batchSeqPrev l hl =>
    intro e he
    cases he

/-- The frequent pairs that are replaced one right after the other, where `before` is the pair
that was replaced last, if it comes right before the flow. -/
def successive : Option BatchPair → List FlowBatch → List (BatchPair × BatchPair)
  | before, a :: b :: l =>
    if frequent a b then
      (before.map fun p => (p, (a, b))).toList ++ successive (some (a, b)) l
    else successive none (b :: l)
  | _, _ => []

/-- The pair was counted into the sequence of the same pair. -/
def Replaced.Alike (e : Replaced) : Prop :=
  ∀ prev, e.countedInto = some prev → ∃ c d n, prev = .sequence c d n ∧ SamePair e.pair (c, d)

/-- The previous sequence stands for the pair `before`. -/
def IsSequenceOf (batchSeqPrev : Option FlowBatch) (before : Option BatchPair) : Prop :=
  (batchSeqPrev = none ∧ before = none) ∨
    ∃ c d n p, batchSeqPrev = some (.sequence c d n) ∧ before = some p ∧ SamePair p (c, d)

/-- **Pairs are counted into the sequence of the same pair exactly when the pairs that are replaced
one right after the other are told apart.** -/
theorem alike_iff {batchSeqPrev : Option FlowBatch} {before : Option BatchPair}
    (l : List FlowBatch) (h : IsSequenceOf batchSeqPrev before) :
    (∀ e ∈ (clusterizeBigramsTraced frequent batchSeqPrev l).2, e.Alike) ↔
      ∀ x ∈ successive frequent before l, ¬ SequenceAmbiguous x.2 x.1 := by
  fun_induction clusterizeBigramsTraced frequent batchSeqPrev l generalizing before with
  | case1 batchSeqPrev a b l hfreq prev hreuse r =>
    rename_i ih
    obtain ⟨s, rfl, hsame, rfl⟩ := reusePrevious_eq_some hreuse
    obtain ⟨hnone, -⟩ | ⟨c, d, n, p, hseq, rfl, hp⟩ := h
    · cases hnone
    · cases hseq
      have hpair : SamePair (a, b) (c, d) ∨ SequenceAmbiguous (a, b) p := by
        have hcall : (FlowBatch.sequence a b 1).sameCall (.sequence p.1 p.2 n) = true := by
          have hpc : (FlowBatch.sequence c d n).sameCall (.sequence p.1 p.2 n) = true :=
            (@sameCall_sequence_iff (c, d) p n n).mpr (.inl hp.symm)
          exact FlowBatch.sameCall_trans hsame hpc
        rcases (@sameCall_sequence_iff (a, b) p 1 n).mp hcall with h | h
        · exact .inl (h.trans hp)
        · exact .inr h
      rw [successive, if_pos hfreq, List.forall_mem_cons]
      simp only [Option.map_some, Option.toList_some, List.singleton_append, List.forall_mem_cons]
      have halike : Replaced.Alike ⟨(a, b), some (.sequence c d n)⟩ ↔ SamePair (a, b) (c, d) := by
        constructor
        · intro hal
          obtain ⟨c', d', n', heq, hsp⟩ := hal _ rfl
          cases heq
          exact hsp
        · rintro hsp _ ⟨⟩
          exact ⟨c, d, n, rfl, hsp⟩
      rw [halike]
      rcases hpair with hsp | hamb
      · have hnot : ¬ SequenceAmbiguous (a, b) p := fun hamb => hamb.ne (hsp.trans hp.symm)
        rw [and_iff_right hsp, and_iff_right hnot]
        exact ih (.inr ⟨c, d, n + 1, (a, b), rfl, rfl, hsp⟩)
      · refine iff_of_false (fun hboth => hamb.ne (hboth.1.trans hp.symm)) fun hboth => ?_
        exact hboth.1 hamb
  | case2 batchSeqPrev a b l hfreq hreuse r =>
    rename_i ih
    rw [successive, if_pos hfreq, List.forall_mem_cons, List.forall_mem_append]
    have halike : Replaced.Alike ⟨(a, b), none⟩ := by
      rintro _ ⟨⟩
    have hbefore : ∀ x ∈ (before.map fun p => (p, (a, b))).toList,
        ¬ SequenceAmbiguous x.2 x.1 := by
      intro x hx
      obtain ⟨-, rfl⟩ | ⟨c, d, n, p, rfl, rfl, hp⟩ := h
      · cases hx
      · rw [Option.map_some, Option.toList_some, List.mem_singleton] at hx
        subst hx
        intro hamb
        have hcall : (FlowBatch.sequence a b 1).sameCall (.sequence c d n) = true := by
          have hap : (FlowBatch.sequence a b 1).sameCall (.sequence p.1 p.2 n) = true :=
            (@sameCall_sequence_iff (a, b) p 1 n).mpr (.inr hamb)
          have hpc : (FlowBatch.sequence p.1 p.2 n).sameCall (.sequence c d n) = true :=
            (@sameCall_sequence_iff p (c, d) n n).mpr (.inl hp)
          exact FlowBatch.sameCall_trans hap hpc
        simp [reusePrevious, hcall] at hreuse
    rw [and_iff_right halike, and_iff_right hbefore]
    exact ih (.inr ⟨a, b, 1, (a, b), rfl, rfl, ⟨rfl, rfl⟩, rfl, rfl⟩)
  | case3 batchSeqPrev a b l hfreq r =>
    rename_i ih
    rw [successive, if_neg hfreq]
    exact ih (.inl ⟨rfl, rfl⟩)
  | case4 batchSeqPrev l hl =>
    have hnil : successive frequent before l = [] := by
      rcases l with _ | ⟨a, _ | ⟨b, l⟩⟩
      · rfl
      · rfl
      · exact absurd rfl (hl a b l)
    rw [hnil]
    exact iff_of_true (List.forall_mem_nil _) (List.forall_mem_nil _)

end

/-! ## The pass -/

section
variable (repr : Text → Text)

/-- The pairs that a pass replaces. -/
def replacedPairs (flow : List FlowBatch) : List Replaced :=
  (clusterizeBigramsTraced (isFrequent repr (statisticsBigrams repr [] flow)) none flow).2

/-- Pairs with one key are the same, a pair is counted into the sequence of the same pair, and a
pair that is replaced is seen more than five times at the start of the pass. -/
structure SoundBigrams (flow : List FlowBatch) : Prop where
  keys : ∀ p ∈ neighbours flow, ∀ q ∈ neighbours flow,
    pairKey repr p = pairKey repr q → SamePair p q
  merges : ∀ e ∈ replacedPairs repr flow, e.Alike
  frequent : ∀ e ∈ replacedPairs repr flow,
    5 < (neighbours flow).countP (fun q => SamePair q e.pair)

/-- No two pairs of a flow are ambiguous, and no two that are replaced one right after the other
have ambiguous sequences. -/
structure UnambiguousBigrams (flow : List FlowBatch) : Prop where
  keys : ∀ p ∈ neighbours flow, ∀ q ∈ neighbours flow, ¬ PairAmbiguous repr p q
  sequences : ∀ x ∈ successive (isFrequent repr (statisticsBigrams repr [] flow)) none flow,
    ¬ SequenceAmbiguous x.2 x.1

/-- **Bigrams are sound exactly when no pairs are ambiguous.** -/
theorem soundBigrams_iff (flow : List FlowBatch) :
    SoundBigrams repr flow ↔ UnambiguousBigrams repr flow := by
  have hmerges := alike_iff (isFrequent repr (statisticsBigrams repr [] flow)) flow
    (.inl ⟨rfl, rfl⟩ : IsSequenceOf none none)
  constructor
  · intro h
    refine ⟨fun p hp q hq hamb => ?_, hmerges.mp h.merges⟩
    exact hamb.ne (h.keys p hp q hq (pairKey_eq_iff.mpr (.inr hamb)))
  · intro h
    have hkeys : ∀ p ∈ neighbours flow, ∀ q ∈ neighbours flow,
        pairKey repr p = pairKey repr q → SamePair p q := by
      intro p hp q hq hkey
      exact (pairKey_eq_iff.mp hkey).resolve_right (h.keys p hp q hq)
    refine ⟨hkeys, hmerges.mpr h.sequences, fun e he => ?_⟩
    obtain ⟨hmem, hfreq⟩ := mem_of_replaced _ _ _ e he
    have hcount := (isFrequent_iff flow e.pair).mp hfreq
    refine hcount.trans_le (List.countP_mono_left fun q hq hkey => ?_)
    exact decide_eq_true (hkeys q hq _ hmem (of_decide_eq_true hkey))

end

/-- Two calls whose arguments are joined to the same text, each before another call. -/
def joinedAlike : List FlowBatch :=
  [.call ⟨"foo".toList, by decide⟩ [.str "a&b".toList] 1, .call ⟨"bar".toList, by decide⟩ [] 1,
    .call ⟨"foo".toList, by decide⟩ [.str ['a'], .str ['b']] 1,
    .call ⟨"bar".toList, by decide⟩ [] 1]

theorem not_forall_soundBigrams :
    ¬ ∀ (repr : Text → Text) (flow : List FlowBatch), SoundBigrams repr flow := by
  intro h
  have hsame := (h id joinedAlike).keys _ List.mem_cons_self _
    (List.mem_cons_of_mem _ (List.mem_cons_of_mem _ List.mem_cons_self)) (by rfl)
  exact absurd hsame (by decide)

end Survol.Dockit
