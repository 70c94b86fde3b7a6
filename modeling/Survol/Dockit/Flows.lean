import Survol.Dockit.FactorySteps
import Mathlib.Data.List.Chain

/-!
# The flows of the processes

The batches that are yielded are sent to the flow of their process. A batch that is
the same call as the last one of the flow is only counted. At the end,
`FilterMatchedBatches` drops each unfinished half that comes just before the merged
call, and checks on the way that such neighbours belong together.

## Main definitions

* `sameCall`, `addBatch`, `sendBatch` — the flows.
* `filterMatchedBatches` — the filter, with its checks.
* `Linked` — the flows on which no check fails, with `filterMatchedBatches_of_linked`.
-/

open PyText

namespace Survol.Dockit

/-! ## Sending batches -/

/-- The function of a batch. -/
def Batch.funcNam? (u : UnfinishedBatches) (b : Batch) : Option Text :=
  (u.core? b.core).map (·.funcNam)

/-- `SameCall`. -/
def sameCall (u : UnfinishedBatches) (lstBatch btchLet : Batch) : Bool :=
  !lstBatch.neverSame && decide (lstBatch.funcNam? u = btchLet.funcNam? u) &&
    decide (lstBatch.significantArgs = btchLet.significantArgs)

/-- `m_occurrences += 1`. -/
def Batch.again (b : Batch) : Batch := { b with occurrences := b.occurrences + 1 }

/-- `AddingCoroutine`, for one batch. -/
def addBatch (u : UnfinishedBatches) (listBatchLets : List Batch) (btchLet : Batch) : List Batch :=
  match listBatchLets.getLast? with
  | none => [btchLet]
  | some lstBatch =>
    if sameCall u lstBatch btchLet then listBatchLets.dropLast ++ [lstBatch.again]
    else listBatchLets ++ [btchLet]

/-- The flow of each process: `mapFlows`. -/
abbrev MapFlows := Dict ℤ (List Batch)

/-- The flow of a process, empty before its first batch. -/
def MapFlows.flow (mapFlows : MapFlows) (aPid : ℤ) : List Batch := (mapFlows.get? aPid).getD []

/-- `SendBatch`, to the flow of the process, for a batch that was yielded. -/
def sendBatch (u : UnfinishedBatches) (mapFlows : MapFlows) : Option Batch → MapFlows
  | none => mapFlows
  | some oneBatch =>
    let aPid := oneBatch.core.pid
    Dict.set mapFlows aPid (addBatch u (mapFlows.flow aPid) oneBatch)

/-- The cores of a flow. -/
def coreIds (listBatchLets : List Batch) : List CoreId := listBatchLets.map (·.core)

/-! ## What is sent -/

section
variable {u : UnfinishedBatches} {mapFlows : MapFlows} {b : Batch}

/-- A batch is counted into the last one, which has the same function, or is added. -/
theorem addBatch_cases (u : UnfinishedBatches) (l : List Batch) (b : Batch) :
    (∃ lst, l.getLast? = some lst ∧ lst.funcNam? u = b.funcNam? u ∧
      coreIds (addBatch u l b) = coreIds l) ∨ addBatch u l b = l ++ [b] := by
  rw [addBatch]
  split
  · rename_i hnil
    rw [List.getLast?_eq_none_iff.mp hnil]
    exact .inr rfl
  · rename_i lst hlst
    split
    · rename_i hsame
      obtain ⟨t, rfl⟩ := List.getLast?_eq_some_iff.mp hlst
      simp only [sameCall, Bool.and_eq_true, decide_eq_true_eq] at hsame
      refine .inl ⟨lst, hlst, hsame.1.2, ?_⟩
      simp [coreIds, Batch.again]
    · exact .inr rfl

/-- A batch that is not the same call as the last one is added. -/
theorem addBatch_of_not_sameCall {l : List Batch} {lst : Batch} (hlst : l.getLast? = some lst)
    (h : sameCall u lst b = false) : addBatch u l b = l ++ [b] := by
  simp [addBatch, hlst, h]

theorem mem_addBatch {k : List Batch} {b' : Batch}
    (h : b' ∈ addBatch u k b) : b'.core = b.core ∨ ∃ c ∈ k, b'.core = c.core := by
  rw [addBatch] at h
  split at h
  · rw [List.mem_singleton.mp h]
    exact .inl rfl
  · rename_i lst hlst
    split at h
    · rw [List.mem_append, List.mem_singleton] at h
      rcases h with h | rfl
      · exact .inr ⟨b', List.dropLast_subset _ h, rfl⟩
      · exact .inr ⟨lst, List.mem_of_getLast? hlst, rfl⟩
    · rw [List.mem_append, List.mem_singleton] at h
      rcases h with h | rfl
      · exact .inr ⟨b', h, rfl⟩
      · exact .inl rfl

theorem flow_sendBatch_of_ne (r : Option Batch) {p : ℤ} (h : ∀ b, r = some b → b.core.pid ≠ p) :
    (sendBatch u mapFlows r).flow p = mapFlows.flow p := by
  cases r with
  | none => rfl
  | some b =>
    rw [sendBatch, MapFlows.flow, Dict.get?_set, if_neg (h b rfl)]
    rfl

theorem flow_sendBatch_self :
    (sendBatch u mapFlows (some b)).flow b.core.pid =
      addBatch u (mapFlows.flow b.core.pid) b := by
  rw [sendBatch, MapFlows.flow, Dict.get?_set, if_pos rfl]
  rfl

end

/-! ## Filtering -/

/-- The message of a failed check. -/
def inconsistentNeighbours (check : Text) (names : List Text) : PyExn :=
  .exception ("INCONSISTENCY".toList ++ check ++ [' '] ++ [' '].intercalate names ++ "\n".toList)

/-- An attribute of a core that is a core. -/
def linkedCore : Option CoreId → StoreM BatchLetCore
  | none => .raise .attributeError
  | some id => coreAt id

/-- The checks of two neighbours, a matched and a merged one. -/
def checkNeighbours (prevId id : CoreId) (prev core : BatchLetCore) : StoreM Unit := do
  if prev.funcNam ≠ core.funcNam then
    .raise (inconsistentNeighbours ['1'] [core.funcNam, prev.funcNam])
  else
    let resumedBatch ← linkedCore prev.resumedBatch
    if resumedBatch.unfinishedBatch ≠ some prevId then
      .raise (inconsistentNeighbours ['2'] [prev.funcNam])
    else
      let unfinishedBatch ← linkedCore core.unfinishedBatch
      if unfinishedBatch.resumedBatch ≠ some id then
        .raise (inconsistentNeighbours ['3'] [core.funcNam])
      else return ()

/-- The loop of `FilterMatchedBatches`, with the batches `kept` before `batchSeqPrev`.
After a deletion the index skips one pair. -/
def filterLoop (kept : List Batch) (batchSeqPrev : Batch) : List Batch → StoreM (List Batch)
  | [] => return kept ++ [batchSeqPrev]
  | batchSeq :: l => do
    let prev ← coreAt batchSeqPrev.core
    let core ← coreAt batchSeq.core
    if prev.status = .matched ∧ core.status = .merged then
      checkNeighbours batchSeqPrev.core batchSeq.core prev core
      if prev.resumedBatch = some batchSeq.core ∧
          core.unfinishedBatch = some batchSeqPrev.core then
        updateCore batchSeq.core fun c => { c with unfinishedBatch := none }
        match l with
        | [] => return kept ++ [batchSeq]
        | next :: l => filterLoop (kept ++ [batchSeq]) next l
      else filterLoop (kept ++ [batchSeqPrev]) batchSeq l
    else filterLoop (kept ++ [batchSeqPrev]) batchSeq l

/-- `FilterMatchedBatches`. -/
def filterMatchedBatches : List Batch → StoreM (List Batch)
  | [] => return []
  | b :: l => filterLoop [] b l

/-- The flows are filtered one after the other. -/
def filterFlows (mapFlows : MapFlows) (pids : List ℤ) : StoreM Unit :=
  .each (fun aPid => (fun _ => ()) <$> filterMatchedBatches (mapFlows.flow aPid)) pids

/-! ## Where no check fails -/

/-- A matched core comes just before a merged one of the same function only. -/
def SameFunction (u : UnfinishedBatches) (i j : CoreId) : Prop :=
  ∀ c d, u.core? i = some c → u.core? j = some d → c.status = .matched → d.status = .merged →
    c.funcNam = d.funcNam

/-- The cores of a flow have right links, each comes once, and neighbours suit. -/
structure Linked (u : UnfinishedBatches) (ids : List CoreId) : Prop where
  core : ∀ i ∈ ids, ∃ c, u.core? i = some c
  matched : ∀ i ∈ ids, ∀ c, u.core? i = some c → c.status = .matched → ∃ j m,
    c.resumedBatch = some j ∧ u.core? j = some m ∧ m.unfinishedBatch = some i
  merged : ∀ j ∈ ids, ∀ c, u.core? j = some c → c.status = .merged → ∃ i m,
    c.unfinishedBatch = some i ∧ u.core? i = some m ∧ m.resumedBatch = some j
  nodup : ids.Nodup
  chain : ids.IsChain (SameFunction u)

section
variable {u : UnfinishedBatches} {i j : CoreId} {ids : List CoreId}

theorem Linked.tail (h : Linked u (i :: ids)) : Linked u ids where
  core k hk := h.core k (List.mem_cons_of_mem i hk)
  matched k hk := h.matched k (List.mem_cons_of_mem i hk)
  merged k hk := h.merged k (List.mem_cons_of_mem i hk)
  nodup := (List.nodup_cons.mp h.nodup).2
  chain := h.chain.tail

/-- A merged core forgets its unfinished half, and neither of them is in the flow. -/
theorem Linked.forget (h : Linked u ids) (hj : j ∉ ids) {d : BatchLetCore}
    (hd : u.core? j = some d) (hi : d.unfinishedBatch = some i) (hids : i ∉ ids) :
    Linked (u.updateCore j fun c => { c with unfinishedBatch := none }) ids := by
  have hcore : ∀ k ∈ ids,
      (u.updateCore j fun c => { c with unfinishedBatch := none }).core? k = u.core? k := by
    intro k hk
    rw [UnfinishedBatches.core?_updateCore, if_neg]
    rintro rfl
    exact hj hk
  refine ⟨fun k hk => ?_, fun k hk c hc hs => ?_, fun k hk c hc hs => ?_, h.nodup, ?_⟩
  · rw [hcore k hk]
    exact h.core k hk
  · rw [hcore k hk] at hc
    obtain ⟨p, m, hp, hm, hback⟩ := h.matched k hk c hc hs
    refine ⟨p, m, hp, ?_, hback⟩
    rw [UnfinishedBatches.core?_updateCore, if_neg]
    · exact hm
    · rintro rfl
      cases hd.symm.trans hm
      cases hi.symm.trans hback
      exact hids hk
  · rw [hcore k hk] at hc
    obtain ⟨p, m, hp, hm, hback⟩ := h.merged k hk c hc hs
    by_cases hjp : j = p
    · refine ⟨p, { m with unfinishedBatch := none }, hp, ?_, hback⟩
      rw [UnfinishedBatches.core?_updateCore, if_pos hjp, hm]
      rfl
    · exact ⟨p, m, hp, by rw [UnfinishedBatches.core?_updateCore, if_neg hjp, hm], hback⟩
  · refine h.chain.imp_of_mem_imp fun k k' hk hk' hsame c d' hc hd' => ?_
    rw [hcore k hk] at hc
    rw [hcore k' hk'] at hd'
    exact hsame c d' hc hd'

theorem run_checkNeighbours {prevId id : CoreId} {prev core : BatchLetCore} {l : List CoreId}
    (h : Linked u l) (hprev : prevId ∈ l) (hid : id ∈ l) (hsame : SameFunction u prevId id)
    (hp : u.core? prevId = some prev) (hc : u.core? id = some core)
    (hps : prev.status = .matched) (hcs : core.status = .merged) :
    (checkNeighbours prevId id prev core).run u = (.ok (), u) := by
  obtain ⟨j, m, hj, hm, hback⟩ := h.matched prevId hprev prev hp hps
  obtain ⟨i, n, hi, hn, hback'⟩ := h.merged id hid core hc hcs
  rw [checkNeighbours, if_neg (not_not.mpr (hsame prev core hp hc hps hcs)), hj, linkedCore,
    run_coreAt_bind hm, if_neg (not_not.mpr hback), hi, linkedCore, run_coreAt_bind hn,
    if_neg (not_not.mpr hback')]
  rfl

/-- **No check fails on linked batches**, and the filter only changes their cores. -/
theorem run_filterLoop (n : ℕ) {kept l : List Batch} {b : Batch} {u : UnfinishedBatches}
    (hn : l.length ≤ n) (h : Linked u (coreIds (b :: l))) :
    ∃ r u', (filterLoop kept b l).run u = (.ok r, u') ∧
      ∀ i, i ∉ coreIds (b :: l) → u'.core? i = u.core? i := by
  induction n generalizing kept l b u with
  | zero =>
    obtain rfl : l = [] := List.length_eq_zero_iff.mp (Nat.le_zero.mp hn)
    exact ⟨_, u, rfl, fun _ _ => rfl⟩
  | succ n ih =>
    cases l with
    | nil => exact ⟨_, u, rfl, fun _ _ => rfl⟩
    | cons batchSeq l =>
      rw [List.length_cons, Nat.add_le_add_iff_right] at hn
      have hids : coreIds (b :: batchSeq :: l) = b.core :: batchSeq.core :: coreIds l := rfl
      rw [hids] at h
      obtain ⟨prev, hprev⟩ := h.core b.core (by simp)
      obtain ⟨core, hcore⟩ := h.core batchSeq.core (by simp)
      have hnext : ∃ r u', (filterLoop (kept ++ [b]) batchSeq l).run u = (.ok r, u') ∧
          ∀ i, i ∉ coreIds (b :: batchSeq :: l) → u'.core? i = u.core? i := by
        obtain ⟨r, u', hrun, hsame⟩ := @ih (kept ++ [b]) l batchSeq u hn h.tail
        exact ⟨r, u', hrun, fun i hi => hsame i fun hmem => hi (List.mem_cons_of_mem _ hmem)⟩
      rw [filterLoop.eq_def]
      dsimp only
      rw [run_coreAt_bind hprev, run_coreAt_bind hcore]
      split
      · rename_i hs
        have hpair : SameFunction u b.core batchSeq.core :=
          (List.isChain_cons_cons.mp h.chain).1
        rw [Py.run_bind_of_ok (run_checkNeighbours h (by simp) (by simp) hpair hprev hcore
          hs.1 hs.2)]
        split
        · rename_i hlinks
          obtain ⟨hb, hnodup⟩ := List.nodup_cons.mp h.nodup
          have hforget := h.tail.tail.forget (List.nodup_cons.mp hnodup).1 hcore hlinks.2
            fun hmem => hb (List.mem_cons_of_mem _ hmem)
          have hother : ∀ i, i ∉ coreIds (b :: batchSeq :: l) →
              (u.updateCore batchSeq.core fun c => { c with unfinishedBatch := none }).core? i =
                u.core? i := by
            intro i hi
            rw [UnfinishedBatches.core?_updateCore, if_neg]
            rintro rfl
            exact hi (by simp [hids])
          rw [updateCore, Py.run_modify_bind]
          cases l with
          | nil => exact ⟨_, _, rfl, hother⟩
          | cons next l =>
            rw [List.length_cons] at hn
            obtain ⟨r, u', hrun, hsame⟩ := @ih (kept ++ [batchSeq]) l next _ (Nat.le_of_succ_le hn)
              hforget
            refine ⟨r, u', hrun, fun i hi => (hsame i fun hmem => hi ?_).trans (hother i hi)⟩
            exact List.mem_cons_of_mem _ (List.mem_cons_of_mem _ hmem)
        · exact hnext
      · exact hnext

/-- The filter does not fail on a linked flow. -/
theorem filterMatchedBatches_of_linked {l : List Batch} (h : Linked u (coreIds l)) :
    ∃ r u', (filterMatchedBatches l).run u = (.ok r, u') ∧
      ∀ i, i ∉ coreIds l → u'.core? i = u.core? i := by
  cases l with
  | nil => exact ⟨[], u, rfl, fun _ _ => rfl⟩
  | cons b l => exact run_filterLoop l.length le_rfl h

/-- What is linked depends on the cores of one process only. -/
theorem Linked.of_pid {u' : UnfinishedBatches} (hinv : u.PairingInv) (h : Linked u ids)
    {aPid : ℤ} (hpid : ∀ i ∈ ids, i.pid = aPid)
    (hsame : ∀ i : CoreId, i.pid = aPid → u'.core? i = u.core? i) : Linked u' ids := by
  have hcore : ∀ k ∈ ids, u'.core? k = u.core? k := fun k hk => hsame k (hpid k hk)
  refine ⟨fun k hk => ?_, fun k hk c hc hs => ?_, fun k hk c hc hs => ?_, h.nodup, ?_⟩
  · rw [hcore k hk]
    exact h.core k hk
  · rw [hcore k hk] at hc
    have hlink := hinv.links k c hc
    simp only [UnfinishedBatches.LinksOk, hs] at hlink
    obtain ⟨-, j, m, hj, hm, -, hback, hp, -⟩ := hlink
    refine ⟨j, m, hj, ?_, hback⟩
    rw [hsame j, hm]
    rw [← hinv.pid j m hm, hp, hinv.pid k c hc, hpid k hk]
  · rw [hcore k hk] at hc
    have hlink := hinv.links k c hc
    simp only [UnfinishedBatches.LinksOk, hs] at hlink
    obtain ⟨-, j, m, hj, hm, -, hback, hp, -⟩ := hlink
    refine ⟨j, m, hj, ?_, hback⟩
    rw [hsame j, hm]
    rw [← hinv.pid j m hm, hp, hinv.pid k c hc, hpid k hk]
  · refine h.chain.imp_of_mem_imp fun k k' hk hk' hsuit c d' hc hd' => ?_
    rw [hcore k hk] at hc
    rw [hcore k' hk'] at hd'
    exact hsuit c d' hc hd'

end

/-- **Every flow passes the filter**, one after the other, when each is linked. -/
theorem run_filterFlows {u u₁ : UnfinishedBatches} {mapFlows : MapFlows} (hinv : u.PairingInv)
    (hlinked : ∀ p, Linked u (coreIds (mapFlows.flow p)))
    (hpid : ∀ p, ∀ i ∈ coreIds (mapFlows.flow p), i.pid = p) (pids : List ℤ) (hpids : pids.Nodup)
    (hsame : ∀ i : CoreId, i.pid ∈ pids → u₁.core? i = u.core? i) :
    ∃ u', (filterFlows mapFlows pids).run u₁ = (.ok (), u') := by
  induction pids generalizing u₁ with
  | nil => exact ⟨u₁, rfl⟩
  | cons p pids ih =>
    obtain ⟨hp, hnodup⟩ := List.nodup_cons.mp hpids
    have hlink : Linked u₁ _ := (hlinked p).of_pid hinv (hpid p)
      fun i hi => hsame i (hi ▸ List.mem_cons_self)
    obtain ⟨r, u₂, hrun, hother⟩ := filterMatchedBatches_of_linked hlink
    have hstep : ((fun _ => ()) <$> filterMatchedBatches (mapFlows.flow p) : StoreM Unit).run u₁ =
        (.ok (), u₂) := by
      rw [Py.run_map, hrun]
      rfl
    obtain ⟨u', hrest⟩ := @ih u₂ hnodup fun i hi => by
      rw [hother i, hsame i (List.mem_cons_of_mem p hi)]
      intro hmem
      exact hp (hpid p i hmem ▸ hi)
    exact ⟨u', by rw [filterFlows, Py.run_each_cons, hstep]; exact hrest⟩

end Survol.Dockit
