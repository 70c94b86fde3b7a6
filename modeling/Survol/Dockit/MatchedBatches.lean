import Survol.Dockit.Flows

/-!
# The matched batches are filtered

`FilterMatchedBatches` walks over the list of a flow with an index, deletes the unfinished half of
a call that comes just before the merged one, and clears one of the two links that it tests. The
index advances after a deletion too, so the merged batch is not examined against the next one.

## Main definitions

* `filterIndexLoop` — the loop of `FilterMatchedBatches`, with the returned number.
* `ownMerged` — a matched core, and its own merged one.
* `withoutMatched` — the flow without the batches that are deleted.

## Main results

* `filterIndexLoop_eq` — the list that is left is that of `filterMatchedBatches`.
* `filterMatchedBatches_spec` — what is left of any flow when no check fails.
-/

open PyText

namespace Survol.Dockit

/-! ## The loop -/

/-- `m_listBatchLets[idx]`. -/
def batchAt (listBatchLets : List Batch) (idx : ℕ) : StoreM Batch :=
  Py.ofOption .indexError listBatchLets[idx]?

/-- The checks of two neighbours, and whether the first one is deleted. -/
def isDeleted (batchSeqPrev batchSeq : CoreId) : StoreM Bool := do
  let prev ← coreAt batchSeqPrev
  let core ← coreAt batchSeq
  if prev.status = .matched ∧ core.status = .merged then
    checkNeighbours batchSeqPrev batchSeq prev core
    return prev.resumedBatch = some batchSeq ∧ core.unfinishedBatch = some batchSeqPrev
  else return false

/-- The loop of `FilterMatchedBatches`: the list and the number of deletions. -/
def filterIndexLoop (listBatchLets : List Batch) (lenBatch numSubst idxBatch : ℕ) :
    StoreM (List Batch × ℕ) :=
  if _h : idxBatch < lenBatch then do
    let batchSeq ← batchAt listBatchLets idxBatch
    let batchSeqPrev ← batchAt listBatchLets (idxBatch - 1)
    if ← isDeleted batchSeqPrev.core batchSeq.core then
      updateCore batchSeq.core fun c => { c with unfinishedBatch := none }
      filterIndexLoop (listBatchLets.eraseIdx (idxBatch - 1)) (lenBatch - 1) (numSubst + 1)
        (idxBatch + 1)
    else filterIndexLoop listBatchLets lenBatch numSubst (idxBatch + 1)
  else return (listBatchLets, numSubst)
termination_by lenBatch - idxBatch

/-- The end of the loop. -/
theorem filterIndexLoop_end (l : List Batch) {lenBatch idxBatch : ℕ} (numSubst : ℕ)
    (h : lenBatch ≤ idxBatch) :
    filterIndexLoop l lenBatch numSubst idxBatch = return (l, numSubst) := by
  rw [filterIndexLoop, dif_neg (Nat.not_lt.mpr h)]

/-- One step, between the batches `kept` and those that are still to be examined. -/
theorem filterIndexLoop_step (kept l : List Batch) (prev next : Batch) (numSubst : ℕ) :
    filterIndexLoop (kept ++ prev :: next :: l) (kept ++ prev :: next :: l).length numSubst
        (kept.length + 1) =
      isDeleted prev.core next.core >>= fun b =>
        if b then
          updateCore next.core (fun c => { c with unfinishedBatch := none }) >>= fun _ =>
            filterIndexLoop (kept ++ next :: l) (kept ++ next :: l).length (numSubst + 1)
              (kept.length + 2)
        else filterIndexLoop (kept ++ prev :: next :: l) (kept ++ prev :: next :: l).length numSubst
          (kept.length + 2) := by
  have hnext : (kept ++ prev :: next :: l)[kept.length + 1]? = some next := by simp
  have hprev : (kept ++ prev :: next :: l)[kept.length + 1 - 1]? = some prev := by simp
  have herase : (kept ++ prev :: next :: l).eraseIdx (kept.length + 1 - 1) = kept ++ next :: l := by
    simp [List.eraseIdx_append_of_length_le]
  have hlen : (kept ++ prev :: next :: l).length - 1 = (kept ++ next :: l).length := by simp
  rw [filterIndexLoop, dif_pos (by simp), batchAt, batchAt, hnext, hprev, herase, hlen]
  rfl

/-! ## Matched batches and their merged ones -/

/-- A matched core and its own merged one, by their links. -/
def ownMerged (u : UnfinishedBatches) (prevId id : CoreId) : Bool :=
  match u.core? prevId, u.core? id with
  | some prev, some core => prev.status = .matched ∧ core.status = .merged ∧
      prev.resumedBatch = some id ∧ core.unfinishedBatch = some prevId
  | _, _ => false

/-- The flow without each matched batch that is just before its own merged one. -/
def withoutMatched (u : UnfinishedBatches) : List Batch → List Batch
  | batchSeqPrev :: batchSeq :: l =>
    if ownMerged u batchSeqPrev.core batchSeq.core then withoutMatched u (batchSeq :: l)
    else batchSeqPrev :: withoutMatched u (batchSeq :: l)
  | l => l

/-- A merged core has a link when a matched one comes before it. -/
def HasLink (u : UnfinishedBatches) (prevId id : CoreId) : Prop :=
  ∀ prev core, u.core? prevId = some prev → u.core? id = some core → prev.status = .matched →
    core.status = .merged → core.unfinishedBatch ≠ none

/-- Some cores have forgotten their unfinished half. -/
def Forgets (u u' : UnfinishedBatches) : Prop :=
  ∀ i, u'.core? i = u.core? i ∨
    u'.core? i = (u.core? i).map fun c => { c with unfinishedBatch := none }

section
variable {u u' u'' : UnfinishedBatches} {i j : CoreId}

theorem ownMerged_eq_true : ownMerged u i j = true ↔
    ∃ prev core, u.core? i = some prev ∧ u.core? j = some core ∧ prev.status = .matched ∧
      core.status = .merged ∧ prev.resumedBatch = some j ∧ core.unfinishedBatch = some i := by
  rw [ownMerged]
  cases u.core? i <;> cases u.core? j <;> simp

theorem Forgets.refl (u : UnfinishedBatches) : Forgets u u := fun _ => .inl rfl

theorem Forgets.trans (h : Forgets u u') (h' : Forgets u' u'') : Forgets u u'' := by
  intro i
  rcases h' i with h' | h' <;> rcases h i with h | h <;> rw [h', h]
  · exact .inl rfl
  · exact .inr rfl
  · exact .inr rfl
  · right
    cases u.core? i <;> rfl

theorem forgets_updateCore (u : UnfinishedBatches) (j : CoreId) :
    Forgets u (u.updateCore j fun c => { c with unfinishedBatch := none }) := by
  intro i
  rw [UnfinishedBatches.core?_updateCore]
  split
  · exact .inr rfl
  · exact .inl rfl

/-- A core that has perhaps forgotten its unfinished half. -/
theorem Forgets.core (h : Forgets u u') {c : BatchLetCore} (hc : u.core? i = some c) :
    ∃ c', u'.core? i = some c' ∧ c'.status = c.status ∧ c'.resumedBatch = c.resumedBatch ∧
      (c'.unfinishedBatch = c.unfinishedBatch ∨ c'.unfinishedBatch = none) := by
  rcases h i with h | h
  · exact ⟨c, h.trans hc, rfl, rfl, .inl rfl⟩
  · rw [hc] at h
    exact ⟨_, h, rfl, rfl, .inr rfl⟩

theorem Forgets.core_of (h : Forgets u u') {c' : BatchLetCore} (hc : u'.core? i = some c') :
    ∃ c, u.core? i = some c := by
  rcases h i with h | h
  · exact ⟨c', h.symm.trans hc⟩
  · rw [hc] at h
    obtain ⟨c, hc, -⟩ := Option.map_eq_some_iff.mp h.symm
    exact ⟨c, hc⟩

/-- No pair becomes a matched core and its own merged one. -/
theorem Forgets.ownMerged (h : Forgets u u') (hown : ownMerged u' i j = true) :
    ownMerged u i j = true := by
  rw [ownMerged_eq_true] at hown ⊢
  obtain ⟨prev', core', hi', hj', hprev, hcore, hres, hunf⟩ := hown
  obtain ⟨prev, hi⟩ := h.core_of hi'
  obtain ⟨core, hj⟩ := h.core_of hj'
  obtain ⟨p, hp, hps, hpr, -⟩ := h.core hi
  obtain ⟨c, hc, hcs, -, hcu⟩ := h.core hj
  cases hi'.symm.trans hp
  cases hj'.symm.trans hc
  refine ⟨prev, core, hi, hj, hps ▸ hprev, hcs ▸ hcore, hpr ▸ hres, ?_⟩
  rcases hcu with hcu | hcu
  · rw [← hcu, hunf]
  · rw [hunf] at hcu
    cases hcu

/-- A link that is still there was there. -/
theorem Forgets.hasLink (h : Forgets u u') (hlink : HasLink u' i j) : HasLink u i j := by
  intro prev core hi hj hprev hcore hnone
  obtain ⟨p, hp, hps, -, -⟩ := h.core hi
  obtain ⟨c, hc, hcs, -, hcu⟩ := h.core hj
  refine hlink p c hp hc (hps ▸ hprev) (hcs ▸ hcore) ?_
  rcases hcu with hcu | hcu
  · rw [hcu, hnone]
  · exact hcu

/-- A pair whose link is still there is what it was. -/
theorem Forgets.ownMerged_eq (h : Forgets u u') (hlink : HasLink u' i j) :
    Dockit.ownMerged u' i j = Dockit.ownMerged u i j := by
  rw [Bool.eq_iff_iff]
  refine ⟨h.ownMerged, fun hown => ?_⟩
  rw [ownMerged_eq_true] at hown ⊢
  obtain ⟨prev, core, hi, hj, hprev, hcore, hres, hunf⟩ := hown
  obtain ⟨p, hp, hps, hpr, -⟩ := h.core hi
  obtain ⟨c, hc, hcs, -, hcu⟩ := h.core hj
  refine ⟨p, c, hp, hc, hps.trans hprev, hcs.trans hcore, hpr.trans hres, ?_⟩
  rcases hcu with hcu | hcu
  · rw [hcu, hunf]
  · exact absurd hcu (hlink p c hp hc (hps.trans hprev) (hcs.trans hcore))

end

/-! ## Runs that return -/

section
variable {u u' : UnfinishedBatches} {i j : CoreId} {b : Bool}

theorem run_coreAt_eq_ok {c : BatchLetCore} :
    (coreAt i).run u = (.ok c, u') ↔ u.core? i = some c ∧ u' = u := by
  simp only [coreAt, Py.run_get_bind]
  cases u.core? i <;> simp [eq_comm]

theorem run_linkedCore_eq_ok {o : Option CoreId} {c : BatchLetCore}
    (h : (linkedCore o).run u = (.ok c, u')) : o ≠ none ∧ u' = u := by
  cases o with
  | none => simp [linkedCore] at h
  | some i => exact ⟨Option.some_ne_none i, (run_coreAt_eq_ok.mp h).2⟩

theorem run_checkNeighbours_eq_ok {prev core : BatchLetCore}
    (h : (checkNeighbours i j prev core).run u = (.ok (), u')) :
    core.unfinishedBatch ≠ none ∧ u' = u := by
  rw [checkNeighbours] at h
  split at h
  · simp at h
  rw [Py.run_bind_eq_ok] at h
  obtain ⟨c, v, hc, h⟩ := h
  obtain ⟨-, rfl⟩ := run_linkedCore_eq_ok hc
  split at h
  · simp at h
  rw [Py.run_bind_eq_ok] at h
  obtain ⟨d, w, hd, h⟩ := h
  obtain ⟨hne, rfl⟩ := run_linkedCore_eq_ok hd
  split at h
  · simp at h
  · cases h
    exact ⟨hne, rfl⟩

/-- The checks do not change anything, and tell the links. -/
theorem run_isDeleted (h : (isDeleted i j).run u = (.ok b, u')) :
    u' = u ∧ b = ownMerged u i j ∧ HasLink u i j := by
  simp only [isDeleted, Py.run_bind_eq_ok, run_coreAt_eq_ok] at h
  obtain ⟨prev, v, ⟨hi, rfl⟩, core, w, ⟨hj, rfl⟩, h⟩ := h
  rw [ownMerged, hi, hj]
  split at h
  · rename_i hs
    rw [Py.run_bind_eq_ok] at h
    obtain ⟨a, v, hcheck, h⟩ := h
    obtain ⟨hne, rfl⟩ := run_checkNeighbours_eq_ok hcheck
    cases h
    refine ⟨rfl, by simp [hs.1, hs.2], fun p c hp hc _ _ => ?_⟩
    cases hj.symm.trans hc
    exact hne
  · rename_i hs
    cases h
    refine ⟨rfl, ?_, fun p c hp hc hps hcs => ?_⟩
    · rw [eq_comm, decide_eq_false_iff_not]
      exact fun hall => hs ⟨hall.1, hall.2.1⟩
    · cases hi.symm.trans hp
      cases hj.symm.trans hc
      exact absurd ⟨hps, hcs⟩ hs

end

/-! ## What is left -/

section
variable {u u₁ u' : UnfinishedBatches} {kept l : List Batch} {prev next : Batch} {numSubst : ℕ}
  {r : List Batch × ℕ}

/-- A pair that was tested: the link that decides of a deletion is cleared by it. -/
structure Examined (u u' : UnfinishedBatches) (i j : CoreId) : Prop where
  hasLink : HasLink u i j
  forgotten : ownMerged u i j = true → ∀ core, u'.core? j = some core → core.unfinishedBatch = none

/-- What the loop does of the batches `l`, after the batches `kept`. -/
structure Filtered (u u' : UnfinishedBatches) (kept : List Batch) (numSubst : ℕ) (l : List Batch)
    (r : List Batch × ℕ) : Prop where
  list : r.1 = kept ++ withoutMatched u l
  count : r.2 + (withoutMatched u l).length = numSubst + l.length
  forgets : Forgets u u'
  examined : l.IsChain fun x y => Examined u u' x.core y.core

theorem filtered_nil : Filtered u u kept numSubst [] (kept, numSubst) where
  list := (List.append_nil kept).symm
  count := rfl
  forgets := .refl u
  examined := .nil

theorem filtered_singleton : Filtered u u kept numSubst [prev] (kept ++ [prev], numSubst) where
  list := rfl
  count := rfl
  forgets := .refl u
  examined := .singleton prev

/-- The first batch stays. -/
theorem Filtered.keep (h : Filtered u u' (kept ++ [prev]) numSubst (next :: l) r)
    (hown : ownMerged u prev.core next.core = false) (hlink : HasLink u prev.core next.core) :
    Filtered u u' kept numSubst (prev :: next :: l) r := by
  have hwithout : withoutMatched u (prev :: next :: l) = prev :: withoutMatched u (next :: l) := by
    rw [withoutMatched, hown]
    rfl
  refine ⟨?_, ?_, h.forgets, .cons_cons ⟨hlink, fun htrue => ?_⟩ h.examined⟩
  · rw [h.list, hwithout, List.append_assoc, List.singleton_append]
  · have hcount := h.count
    rw [hwithout, List.length_cons, List.length_cons]
    omega
  · rw [hown] at htrue
    cases htrue

/-- The links that are still there decide what is deleted. -/
theorem withoutMatched_congr (h : Forgets u u₁)
    (hlink : l.IsChain fun x y => Examined u₁ u' x.core y.core) :
    withoutMatched u₁ l = withoutMatched u l := by
  fun_induction withoutMatched u₁ l with
  | case1 prev next l hown ih =>
    rw [List.isChain_cons_cons] at hlink
    rw [ih hlink.2, withoutMatched, if_pos (h.ownMerged hown)]
  | case2 prev next l hown ih =>
    rw [List.isChain_cons_cons] at hlink
    rw [ih hlink.2, withoutMatched, if_neg (h.ownMerged_eq hlink.1.hasLink ▸ hown)]
  | case3 l hl =>
    match l, hl with
    | [], _ => rfl
    | [b], _ => rfl
    | a :: b :: l, hl => exact absurd rfl (hl a b l)

/-- A merged core is not deleted. -/
theorem ownMerged_next {i j k : CoreId} (hown : ownMerged u i j = true) :
    ownMerged u j k = false ∧ HasLink u j k := by
  rw [ownMerged_eq_true] at hown
  obtain ⟨-, core, -, hj, -, hcore, -, -⟩ := hown
  have hmatched : ∀ c, u.core? j = some c → c.status ≠ .matched := by
    intro c hc hs
    cases hj.symm.trans hc
    cases hcore.symm.trans hs
  constructor
  · rw [← Bool.not_eq_true, ownMerged_eq_true]
    rintro ⟨c, -, hc, -, hs, -⟩
    exact hmatched c hc hs
  · intro c _ hc _ hs
    exact absurd hs (hmatched c hc)

/-- The first batch is deleted, and the second one is not examined with the third one. -/
theorem Filtered.delete
    (h : Filtered (u.updateCore next.core fun c => { c with unfinishedBatch := none }) u'
      (kept ++ [next]) (numSubst + 1) l r)
    (hown : ownMerged u prev.core next.core = true) (hlink : HasLink u prev.core next.core) :
    Filtered u u' kept numSubst (prev :: next :: l) r := by
  have hforgets := forgets_updateCore u next.core
  have hrest := withoutMatched_congr hforgets h.examined
  have hwithout : withoutMatched u (prev :: next :: l) = next :: withoutMatched u l := by
    rw [withoutMatched, if_pos hown]
    cases l with
    | nil => rfl
    | cons third l =>
      rw [withoutMatched, (ownMerged_next hown).1]
      rfl
  have hnone : ∀ core, u'.core? next.core = some core → core.unfinishedBatch = none := by
    intro core hcore
    obtain ⟨c, hc⟩ := h.forgets.core_of hcore
    obtain ⟨d, hd, -, -, hunf⟩ := h.forgets.core hc
    cases hcore.symm.trans hd
    rw [UnfinishedBatches.core?_updateCore, if_pos rfl, Option.map_eq_some_iff] at hc
    obtain ⟨e, -, rfl⟩ := hc
    exact hunf.elim id id
  have hchain : (next :: l).IsChain fun x y => Examined u u' x.core y.core := by
    refine List.isChain_cons.mpr ⟨fun third _ => ?_, h.examined.imp fun x y hxy => ?_⟩
    · have hthird := @ownMerged_next u _ _ third.core hown
      refine ⟨hthird.2, fun htrue => ?_⟩
      rw [hthird.1] at htrue
      cases htrue
    · refine ⟨hforgets.hasLink hxy.hasLink, fun htrue => hxy.forgotten ?_⟩
      rwa [hforgets.ownMerged_eq hxy.hasLink]
  refine ⟨?_, ?_, hforgets.trans h.forgets, .cons_cons ⟨hlink, fun _ => hnone⟩ hchain⟩
  · rw [h.list, hwithout, hrest, List.append_assoc, List.singleton_append]
  · have hcount := h.count
    rw [hrest] at hcount
    rw [hwithout, List.length_cons, List.length_cons, List.length_cons]
    omega

/-- **The loop, when it returns.** -/
theorem filterIndexLoop_ok (n : ℕ) (hn : l.length ≤ n)
    (h : (filterIndexLoop (kept ++ prev :: l) (kept ++ prev :: l).length numSubst
      (kept.length + 1)).run u = (.ok r, u')) :
    Filtered u u' kept numSubst (prev :: l) r := by
  induction n generalizing kept prev l numSubst u with
  | zero =>
    obtain rfl : l = [] := List.length_eq_zero_iff.mp (Nat.le_zero.mp hn)
    rw [filterIndexLoop_end _ _ (by simp)] at h
    cases h
    exact filtered_singleton
  | succ n ih =>
    cases l with
    | nil =>
      rw [filterIndexLoop_end _ _ (by simp)] at h
      cases h
      exact filtered_singleton
    | cons next l =>
      rw [List.length_cons, Nat.add_le_add_iff_right] at hn
      rw [filterIndexLoop_step, Py.run_bind_eq_ok] at h
      obtain ⟨b, v, hdel, h⟩ := h
      obtain ⟨rfl, rfl, hlink⟩ := run_isDeleted hdel
      split at h
      · rename_i hown
        rw [updateCore, Py.run_modify_bind] at h
        refine Filtered.delete ?_ hown hlink
        cases l with
        | nil =>
          rw [filterIndexLoop_end _ _ (by simp)] at h
          cases h
          exact filtered_nil
        | cons third l =>
          rw [List.length_cons] at hn
          refine ih (Nat.le_of_succ_le hn) ?_
          simpa using h
      · rename_i hown
        refine Filtered.keep (ih hn ?_) (Bool.not_eq_true _ ▸ hown) hlink
        simpa using h

end

/-! ## The same list as before -/

/-- One step of the loop over the batches. -/
theorem run_filterLoop_step (kept l : List Batch) (prev next : Batch) (u : UnfinishedBatches) :
    (filterLoop kept prev (next :: l)).run u =
      (isDeleted prev.core next.core >>= fun b =>
        if b then
          updateCore next.core (fun c => { c with unfinishedBatch := none }) >>= fun _ =>
            match l with
            | [] => return kept ++ [next]
            | third :: l => filterLoop (kept ++ [next]) third l
        else filterLoop (kept ++ [prev]) next l).run u := by
  rw [filterLoop.eq_def, isDeleted]
  dsimp only
  cases hi : u.core? prev.core with
  | none => simp [Py.run_bind, coreAt, hi]
  | some c =>
    cases hj : u.core? next.core with
    | none => simp [Py.run_bind, coreAt, hi, hj]
    | some d =>
      rw [run_coreAt_bind hi, run_coreAt_bind hj, Py.run_bind, run_coreAt_bind hi,
        run_coreAt_bind hj]
      by_cases hs : c.status = .matched ∧ d.status = .merged
      · rw [if_pos hs, if_pos hs, Py.run_bind, Py.run_bind]
        rcases (checkNeighbours prev.core next.core c d).run u with ⟨e | a, v⟩
        · rfl
        · dsimp only [Py.run_pure]
          by_cases hl : c.resumedBatch = some next.core ∧ d.unfinishedBatch = some prev.core
          · rw [if_pos hl]
            exact (congrArg (fun m => Py.run m v) (if_pos (decide_eq_true hl))).symm
          · rw [if_neg hl, decide_eq_false hl, if_neg Bool.false_ne_true]
      · rw [if_neg hs, if_neg hs]
        rfl

/-- The loop with an index leaves the same list as the loop over the batches. -/
theorem filterIndexLoop_eq (n : ℕ) {kept l : List Batch} (prev : Batch) (numSubst : ℕ)
    (u : UnfinishedBatches) (hn : l.length ≤ n) :
    (Prod.fst <$> filterIndexLoop (kept ++ prev :: l) (kept ++ prev :: l).length numSubst
      (kept.length + 1)).run u = (filterLoop kept prev l).run u := by
  induction n generalizing kept prev l numSubst u with
  | zero =>
    obtain rfl : l = [] := List.length_eq_zero_iff.mp (Nat.le_zero.mp hn)
    rw [filterIndexLoop_end _ _ (by simp)]
    rfl
  | succ n ih =>
    cases l with
    | nil =>
      rw [filterIndexLoop_end _ _ (by simp)]
      rfl
    | cons next l =>
      rw [List.length_cons, Nat.add_le_add_iff_right] at hn
      rw [filterIndexLoop_step, run_filterLoop_step, Py.run_map, Py.run_bind, Py.run_bind]
      rcases (isDeleted prev.core next.core).run u with ⟨e | b, v⟩
      · rfl
      · dsimp only
        rw [← Py.run_map]
        cases b with
        | true =>
          rw [if_pos rfl, if_pos rfl, updateCore, Py.run_map, Py.run_modify_bind,
            Py.run_modify_bind, ← Py.run_map]
          cases l with
          | nil =>
            rw [filterIndexLoop_end _ _ (by simp)]
            rfl
          | cons third l =>
            rw [List.length_cons] at hn
            have h := @ih (kept ++ [next]) l third (numSubst + 1)
              (v.updateCore next.core fun c => { c with unfinishedBatch := none })
              (Nat.le_of_succ_le hn)
            simpa using h
        | false =>
          have h := @ih (kept ++ [prev]) l next numSubst v hn
          simpa using h

/-! ## The filter -/

/-- `FilterMatchedBatches`: the list of the flow and the returned number. -/
def filterMatchedBatchesCounted (listBatchLets : List Batch) : StoreM (List Batch × ℕ) :=
  filterIndexLoop listBatchLets listBatchLets.length 0 1

theorem filterMatchedBatchesCounted_eq (l : List Batch) (u : UnfinishedBatches) :
    (Prod.fst <$> filterMatchedBatchesCounted l).run u = (filterMatchedBatches l).run u := by
  cases l with
  | nil =>
    have hend := @filterIndexLoop_end [] 0 1 0 (Nat.zero_le 1)
    rw [filterMatchedBatchesCounted, List.length_nil, hend]
    rfl
  | cons b l => exact @filterIndexLoop_eq l.length [] l b 0 u le_rfl

/-- Each matched core has one batch in the flow. -/
def MatchedOnce (u : UnfinishedBatches) (l : List Batch) : Prop :=
  l.Pairwise fun x y => ∀ c, u.core? x.core = some c → c.status = .matched → x.core ≠ y.core

section
variable {u u' : UnfinishedBatches} {l : List Batch}

theorem withoutMatched_sublist (u : UnfinishedBatches) (l : List Batch) :
    (withoutMatched u l).Sublist l := by
  fun_induction withoutMatched u l with
  | case1 prev next l hown ih => exact ih.cons prev
  | case2 prev next l hown ih => exact ih.cons_cons prev
  | case3 l hl => exact .refl l

/-- What is left begins with the first batch, or with its own merged one. -/
theorem head?_withoutMatched (b : Batch) (l : List Batch) :
    (withoutMatched u (b :: l)).head? = some b ∨ ∃ c, l.head? = some c ∧
      ownMerged u b.core c.core = true ∧ (withoutMatched u (b :: l)).head? = some c := by
  cases l with
  | nil => exact .inl rfl
  | cons c l =>
    rw [withoutMatched]
    split
    · rename_i hown
      refine .inr ⟨c, rfl, hown, ?_⟩
      cases l with
      | nil => rfl
      | cons d l =>
        rw [withoutMatched, (ownMerged_next hown).1]
        rfl
    · exact .inl rfl

/-- Neighbours that are left: they were neighbours, or a batch between them was deleted. -/
theorem isChain_withoutMatched {R : Batch → Batch → Prop}
    (hnext : ∀ x y, [x, y] <:+: l → ownMerged u x.core y.core = false → R x y)
    (hskip : ∀ x y z, [x, y, z] <:+: l → ownMerged u x.core y.core = false →
      ownMerged u y.core z.core = true → R x z) :
    (withoutMatched u l).IsChain R := by
  fun_induction withoutMatched u l with
  | case1 prev next l hown ih =>
    refine ih (fun x y h => hnext x y (h.trans (List.suffix_cons ..).isInfix)) fun x y z h => ?_
    exact hskip x y z (h.trans (List.suffix_cons ..).isInfix)
  | case2 prev next l hown ih =>
    have hown' : ownMerged u prev.core next.core = false := Bool.not_eq_true _ ▸ hown
    refine List.isChain_cons.mpr ⟨fun y hy => ?_, ?_⟩
    · rcases @head?_withoutMatched u next l with h | ⟨c, hc, hdel, h⟩
      · cases h.symm.trans hy
        exact hnext prev next ⟨[], l, rfl⟩ hown'
      · cases h.symm.trans hy
        obtain ⟨t, rfl⟩ := List.head?_eq_some_iff.mp hc
        exact hskip prev next y ⟨[], t, rfl⟩ hown' hdel
    · refine ih (fun x y h => hnext x y (h.trans (List.suffix_cons ..).isInfix)) fun x y z h => ?_
      exact hskip x y z (h.trans (List.suffix_cons ..).isInfix)
  | case3 l hl =>
    match l, hl with
    | [], _ => exact .nil
    | [b], _ => exact .singleton b
    | a :: b :: l, hl => exact absurd rfl (hl a b l)

theorem filtered_of_run {r : List Batch × ℕ}
    (h : (filterMatchedBatchesCounted l).run u = (.ok r, u')) : Filtered u u' [] 0 l r := by
  cases l with
  | nil =>
    have hend := @filterIndexLoop_end [] 0 1 0 (Nat.zero_le 1)
    rw [filterMatchedBatchesCounted, List.length_nil, hend] at h
    cases h
    exact filtered_nil
  | cons b l => exact filterIndexLoop_ok l.length le_rfl h

/-- The links at the end leave no matched batch before its own merged one. -/
theorem Filtered.isChain_after {kept : List Batch} {numSubst : ℕ} {r : List Batch × ℕ}
    (h : Filtered u u' kept numSubst l r) :
    (withoutMatched u l).IsChain fun x y => ownMerged u' x.core y.core = false := by
  refine isChain_withoutMatched (fun x y _ hown => ?_) fun x y z hinf _ hown => ?_
  · rw [← Bool.not_eq_true] at hown ⊢
    exact fun htrue => hown (h.forgets.ownMerged htrue)
  · have hchain := h.examined.infix hinf
    rw [List.isChain_cons_cons, List.isChain_cons_cons] at hchain
    rw [← Bool.not_eq_true, ownMerged_eq_true]
    rintro ⟨-, core, -, hcore, -, -, -, hunf⟩
    rw [hchain.2.1.forgotten hown core hcore] at hunf
    cases hunf

/-- Nor do the links at the start, when each matched core has one batch. -/
theorem MatchedOnce.isChain_before (h : MatchedOnce u l) :
    (withoutMatched u l).IsChain fun x y => ownMerged u x.core y.core = false := by
  refine isChain_withoutMatched (fun x y _ hown => hown) fun x y z hinf _ hown => ?_
  have hpair := List.Pairwise.sublist hinf.sublist h
  rw [← Bool.not_eq_true, ownMerged_eq_true]
  rintro ⟨prev, core, hx, hz, hprev, -, -, hunf⟩
  rw [ownMerged_eq_true] at hown
  obtain ⟨-, core', -, hz', -, -, -, hunf'⟩ := hown
  cases hz.symm.trans hz'
  have hxy : x.core = y.core := Option.some.inj (hunf.symm.trans hunf')
  exact List.rel_of_pairwise_cons hpair List.mem_cons_self prev hx hprev hxy

/-- **What the filter leaves when it returns**: the batches in their order without those that were
just before their own merged one, whose number it returns, and no such pair. -/
theorem filterMatchedBatches_spec {r : List Batch} {numSubst : ℕ}
    (h : (filterMatchedBatchesCounted l).run u = (.ok (r, numSubst), u')) :
    r = withoutMatched u l ∧ r.Sublist l ∧ numSubst + r.length = l.length ∧
      (r.IsChain fun x y => ownMerged u' x.core y.core = false) ∧
      (MatchedOnce u l → r.IsChain fun x y => ownMerged u x.core y.core = false) := by
  have hfiltered := filtered_of_run h
  have hr : r = withoutMatched u l := hfiltered.list
  have hcount := hfiltered.count
  rw [Nat.zero_add, ← hr] at hcount
  refine ⟨hr, hr ▸ withoutMatched_sublist u l, hcount, ?_, fun honce => ?_⟩
  · rw [hr]
    exact hfiltered.isChain_after
  · rw [hr]
    exact honce.isChain_before

end

/-! ## A split call -/

/-- A half of a call of process 7. -/
def halfOfRead (status : BatchStatus) (unfinishedBatch resumedBatch : Option CoreId) :
    BatchLetCore where
  tracer := .strace
  pid := 7
  funcNam := "read@SYS".toList
  status := status
  timeStart := []
  timeEnd := []
  execTim := []
  parsedArgs := []
  retValue := none
  unfinishedBatch := unfinishedBatch
  resumedBatch := resumedBatch

/-- The two halves of a call, and the flow of their batches. -/
def twoHalves : UnfinishedBatches where
  cores := [(7, [halfOfRead .matched none (some ⟨7, 1⟩), halfOfRead .merged (some ⟨7, 0⟩) none])]
  mapStacks := []

/-- The batch of a half. -/
def batchOfHalf (rank : ℕ) : Batch where
  core := ⟨7, rank⟩
  occurrences := 1
  style := origStyle
  significantArgs := []
  neverSame := false

/-- The unfinished half is deleted. -/
theorem filterMatchedBatches_twoHalves :
    ∃ u' r, r = withoutMatched twoHalves [batchOfHalf 0, batchOfHalf 1] ∧
      r.Sublist [batchOfHalf 0, batchOfHalf 1] ∧ 1 + r.length = 2 ∧
      (r.IsChain fun x y => ownMerged u' x.core y.core = false) ∧
      (MatchedOnce twoHalves [batchOfHalf 0, batchOfHalf 1] →
        r.IsChain fun x y => ownMerged twoHalves x.core y.core = false) := by
  have hdel : (isDeleted (batchOfHalf 0).core (batchOfHalf 1).core).run twoHalves =
      (.ok true, twoHalves) := by decide
  have hrun : (filterMatchedBatchesCounted [batchOfHalf 0, batchOfHalf 1]).run twoHalves =
      (.ok ([batchOfHalf 1], 1),
        twoHalves.updateCore ⟨7, 1⟩ fun c => { c with unfinishedBatch := none }) := by
    have hstep := filterIndexLoop_step [] [] (batchOfHalf 0) (batchOfHalf 1) 0
    have hend := @filterIndexLoop_end [batchOfHalf 1] 1 2 1 (Nat.le_succ 1)
    simp only [List.nil_append, List.length_nil, List.length_cons, Nat.zero_add] at hstep
    rw [filterMatchedBatchesCounted, List.length_cons, List.length_cons, List.length_nil,
      Nat.zero_add, hstep, Py.run_bind_of_ok hdel, if_pos rfl, updateCore, Py.run_modify_bind, hend]
    rfl
  exact ⟨_, _, filterMatchedBatches_spec hrun⟩

end Survol.Dockit
