import Survol.Dockit.FileAccesses
import Mathlib.Algebra.BigOperators.Group.List.Basic
import Mathlib.Tactic.Ring

/-!
# The life cycle of file accesses

For every sequence of events, on any processes and files: the cache holds exactly
the accesses that are not closed, each under its own process and file; every
access is listed once by its process and once by its file; a closing event closes
exactly one access, which never changes again; and the counters of the accesses
of a pair add up to the events of the pair.

The steps of an event are first reduced to one change of one access
(`run_issueEvent`), from which the invariant and the sums follow.

## Main definitions

* `LifeCycleInv` — the invariant of the cache and of the two lists.
* `issueAll` — the tables after a sequence of events.
* `FileAccess.sumOf`, `weight` — the counters of a pair, and its events.
-/

open PyText

namespace Survol.Dockit

variable {w : Objects} {env : Env} {pid : ℤ} {name : Text}

/-! ## What the construction of objects leaves alone -/

/-- The accesses listed by a process. -/
def Objects.listedByProcess (w : Objects) (pid : ℤ) : List ℕ :=
  ((w.processes.get? pid).map (·.processFileAccesses)).getD []

/-- The accesses listed by a file. -/
def Objects.listedByFile (w : Objects) (name : Text) : List ℕ :=
  ((w.dataFiles.get? name).map (·.dataFileFileAccesses)).getD []

/-- Two states with the same accesses, the same cache and the same lists. -/
structure SameAccesses (w w' : Objects) : Prop where
  accesses : w'.fileAccesses = w.fileAccesses
  cache : w'.cacheFileAccesses = w.cacheFileAccesses
  process : ∀ p, w'.listedByProcess p = w.listedByProcess p
  file : ∀ f, w'.listedByFile f = w.listedByFile f

theorem SameAccesses.trans {w₁ w₂ w₃ : Objects} (h : SameAccesses w₁ w₂) (h' : SameAccesses w₂ w₃) :
    SameAccesses w₁ w₃ where
  accesses := h'.accesses.trans h.accesses
  cache := h'.cache.trans h.cache
  process p := (h'.process p).trans (h.process p)
  file f := (h'.file f).trans (h.file f)

theorem sameAccesses_toDataFile (w : Objects) (name : Text) :
    SameAccesses w (w.toDataFile name) := by
  unfold Objects.toDataFile
  split
  · exact ⟨rfl, rfl, fun _ => rfl, fun _ => rfl⟩
  · rename_i hn
    refine ⟨rfl, rfl, fun _ => rfl, fun f => ?_⟩
    simp only [Objects.listedByFile, Dict.get?_set]
    split
    · rename_i hf
      simp [← hf, hn]
    · rfl

theorem listedByProcess_updateProcess (f : CIMProcess → CIMProcess)
    (hf : ∀ o, (f o).processFileAccesses = o.processFileAccesses) (p : ℤ) :
    (w.updateProcess pid f).listedByProcess p = w.listedByProcess p := by
  simp only [Objects.listedByProcess, Objects.updateProcess, Dict.get?_update]
  split
  · cases w.processes.get? p <;> simp [hf]
  · rfl

theorem sameAccesses_adopt (w : Objects) (parent : Option ℤ) (pid : ℤ) :
    SameAccesses w (w.adopt parent pid) := by
  cases parent with
  | none => exact ⟨rfl, rfl, fun _ => rfl, fun _ => rfl⟩
  | some first => exact ⟨rfl, rfl, listedByProcess_updateProcess _ fun _ => rfl, fun _ => rfl⟩

theorem sameAccesses_toExecutable (w : Objects) (exe : Option Text) :
    SameAccesses w (w.toExecutable exe) := by
  cases exe with
  | none => exact ⟨rfl, rfl, fun _ => rfl, fun _ => rfl⟩
  | some f => exact sameAccesses_toDataFile w f

theorem processes_toDataFile (w : Objects) (name : Text) :
    (w.toDataFile name).processes = w.processes := by
  unfold Objects.toDataFile
  split <;> rfl

theorem processes_toExecutable (w : Objects) (exe : Option Text) :
    (w.toExecutable exe).processes = w.processes := by
  cases exe with
  | none => rfl
  | some f => exact processes_toDataFile w f

theorem get?_adopt_eq_none {parent : Option ℤ} {p : ℤ} :
    (w.adopt parent pid).processes.get? p = none ↔ w.processes.get? p = none := by
  cases parent with
  | none => rfl
  | some first =>
    simp only [Objects.adopt, Objects.updateProcess, Dict.get?_update]
    split <;> simp

theorem sameAccesses_newProcess (hn : w.processes.get? pid = none) :
    SameAccesses w (w.newProcess env pid) := by
  have h := (sameAccesses_toExecutable w ((env.liveProcess pid).bind (·.exe))).trans
    (sameAccesses_adopt _ w.onlyProcess pid)
  refine h.trans ⟨rfl, rfl, fun p => ?_, fun _ => rfl⟩
  simp only [Objects.newProcess, Objects.listedByProcess, Dict.get?_set]
  split
  · rename_i hp
    subst hp
    rw [← processes_toExecutable w ((env.liveProcess pid).bind (·.exe))] at hn
    rw [get?_adopt_eq_none.mpr hn]
    rfl
  · rfl

theorem sameAccesses_toProcess (env : Env) (w : Objects) (pid : ℤ) :
    SameAccesses w (w.toProcess env pid) := by
  unfold Objects.toProcess
  split
  · exact ⟨rfl, rfl, fun _ => rfl, fun _ => rfl⟩
  · exact sameAccesses_newProcess ‹_›

theorem isSome_get?_toProcess (env : Env) (w : Objects) (pid : ℤ) :
    ((w.toProcess env pid).processes.get? pid).isSome := by
  unfold Objects.toProcess
  split
  · simp [*]
  · simp [Objects.newProcess]

theorem isSome_get?_toDataFile (w : Objects) (name : Text) :
    ((w.toDataFile name).dataFiles.get? name).isSome := by
  unfold Objects.toDataFile
  split <;> simp [*]

/-! ## The invariant -/

/-- The cache holds the accesses that are not closed, each under its own process
and file, and every access is listed once by both. -/
structure LifeCycleInv (w : Objects) : Prop where
  cached : ∀ p f i, w.cachedAccess p f = some i ↔
    ∃ a, w.fileAccesses[i]? = some a ∧ a.process = p ∧ a.dataFile = f ∧ a.closeTime = none
  process : ∀ p i, (w.listedByProcess p).count i =
    if w.fileAccesses[i]?.map (·.process) = some p then 1 else 0
  file : ∀ f i, (w.listedByFile f).count i =
    if w.fileAccesses[i]?.map (·.dataFile) = some f then 1 else 0

theorem lifeCycleInv_init : LifeCycleInv Objects.init :=
  ⟨by simp [Objects.init, Objects.cachedAccess], by simp [Objects.init, Objects.listedByProcess],
    by simp [Objects.init, Objects.listedByFile]⟩

theorem LifeCycleInv.of_same {w' : Objects} (h : LifeCycleInv w) (hs : SameAccesses w w') :
    LifeCycleInv w' where
  cached p f i := by
    have := h.cached p f i
    simp only [Objects.cachedAccess, hs.cache, hs.accesses] at this ⊢
    exact this
  process p i := by rw [hs.process, hs.accesses, h.process]
  file f i := by rw [hs.file, hs.accesses, h.file]

/-! ## Looking an access up -/

/-- The rank of the access that `GetFileAccess` returns. -/
def Objects.accessRank (w : Objects) (pid : ℤ) (name : Text) : ℕ :=
  (w.cachedAccess pid name).getD w.fileAccesses.length

/-- The tables after `GetFileAccess`. -/
def Objects.withAccess (w : Objects) (pid : ℤ) (name : Text) : Objects :=
  match w.cachedAccess pid name with
  | some _ => w
  | none => (w.newFileAccess pid name).cacheAccess pid name w.fileAccesses.length

theorem run_getFileAccess (w : Objects) (pid : ℤ) (name : Text) :
    (getFileAccess pid name).run w = (.ok (w.accessRank pid name), w.withAccess pid name) := by
  simp only [getFileAccess, Py.run_get_bind, Objects.accessRank, Objects.withAccess]
  cases w.cachedAccess pid name <;> rfl

theorem cachedAccess_cacheAccess (w : Objects) (p : ℤ) (f : Text) (i : ℕ) (p' : ℤ) (f' : Text) :
    (w.cacheAccess p f i).cachedAccess p' f' =
      if p = p' ∧ f = f' then some i else w.cachedAccess p' f' := by
  simp only [Objects.cachedAccess, Objects.cacheAccess]
  cases hd : w.cacheFileAccesses.get? p with
  | none =>
    simp only [Dict.get?_set]
    by_cases hp : p = p'
    · subst hp
      simp [hd, Dict.get?_cons]
    · simp [hp]
  | some d =>
    simp only [Dict.get?_set]
    by_cases hp : p = p'
    · subst hp
      simp [hd]
    · simp [hp]

theorem listedByProcess_newFileAccess (hp : (w.processes.get? pid).isSome) (p : ℤ) :
    (w.newFileAccess pid name).listedByProcess p =
      if pid = p then w.listedByProcess p ++ [w.fileAccesses.length] else w.listedByProcess p := by
  simp only [Objects.listedByProcess, Objects.newFileAccess, Objects.updateProcess,
    Objects.updateDataFile, Dict.get?_update]
  split
  · subst pid
    obtain ⟨o, ho⟩ := Option.isSome_iff_exists.mp hp
    simp [ho]
  · rfl

theorem listedByFile_newFileAccess (hf : (w.dataFiles.get? name).isSome) (f : Text) :
    (w.newFileAccess pid name).listedByFile f =
      if name = f then w.listedByFile f ++ [w.fileAccesses.length] else w.listedByFile f := by
  simp only [Objects.listedByFile, Objects.newFileAccess, Objects.updateProcess,
    Objects.updateDataFile, Dict.get?_update]
  split
  · subst name
    obtain ⟨o, ho⟩ := Option.isSome_iff_exists.mp hf
    simp [ho]
  · rfl

theorem cachedAccess_withAccess (w : Objects) (pid : ℤ) (name : Text) :
    (w.withAccess pid name).cachedAccess pid name = some (w.accessRank pid name) := by
  unfold Objects.withAccess Objects.accessRank
  split
  · simp [*]
  · simp [cachedAccess_cacheAccess, *]

/-- The accesses after a look-up. -/
theorem fileAccesses_withAccess (w : Objects) (pid : ℤ) (name : Text) :
    (w.withAccess pid name).fileAccesses = w.fileAccesses ++
      (match w.cachedAccess pid name with
        | some _ => []
        | none => [.new pid name]) := by
  unfold Objects.withAccess
  cases w.cachedAccess pid name <;> simp [Objects.cacheAccess, Objects.newFileAccess,
    Objects.updateProcess, Objects.updateDataFile]

theorem getElem?_concat {α : Type} (l : List α) (a : α) (i : ℕ) :
    (l ++ [a])[i]? = if i = l.length then some a else l[i]? := by
  rw [List.getElem?_append]
  rcases lt_trichotomy i l.length with h | h | h
  · simp [h, h.ne]
  · simp [h]
  · simp [h.ne', not_lt.mpr h.le, Nat.sub_ne_zero_of_lt h]

/-- A new access is listed once, by its own process or file only. -/
theorem count_listed_concat {κ : Type} [DecidableEq κ] {l : List FileAccess} {g : FileAccess → κ}
    {a : FileAccess} {ranks : List ℕ} {k : κ}
    (h : ∀ i, ranks.count i = if l[i]?.map g = some k then 1 else 0) (i : ℕ) :
    (if g a = k then ranks ++ [l.length] else ranks).count i =
      if (l ++ [a])[i]?.map g = some k then 1 else 0 := by
  rw [getElem?_concat]
  have hi := h i
  by_cases hlen : i = l.length
  · subst hlen
    have hend : l[l.length]? = none := by simp
    rw [hend] at hi
    by_cases hk : g a = k
    · simp [hk, List.count_append, hi]
    · simpa [hk] using hi
  · by_cases hk : g a = k
    · simp [hk, hlen, List.count_append, hi, Ne.symm hlen]
    · simp [hk, hlen, hi]

theorem LifeCycleInv.withAccess (h : LifeCycleInv w) (hp : (w.processes.get? pid).isSome)
    (hf : (w.dataFiles.get? name).isSome) : LifeCycleInv (w.withAccess pid name) := by
  cases hc : w.cachedAccess pid name with
  | some i => simpa [Objects.withAccess, hc] using h
  | none =>
    have hL := fileAccesses_withAccess w pid name
    rw [hc] at hL
    have hw : w.withAccess pid name =
        (w.newFileAccess pid name).cacheAccess pid name w.fileAccesses.length := by
      simp [Objects.withAccess, hc]
    have hend : w.fileAccesses[w.fileAccesses.length]? = none := by simp
    refine ⟨fun p f i => ?_, fun p i => ?_, fun f i => ?_⟩
    · have hold : (w.newFileAccess pid name).cachedAccess p f = w.cachedAccess p f := rfl
      rw [hL, hw, cachedAccess_cacheAccess, hold, getElem?_concat]
      have hi := h.cached p f i
      by_cases hpf : pid = p ∧ name = f
      · obtain ⟨rfl, rfl⟩ := hpf
        by_cases hlen : i = w.fileAccesses.length
        · simp [hlen, FileAccess.new]
        · rw [if_neg hlen, ← hi, hc]
          simp [Ne.symm hlen]
      · rw [if_neg hpf, hi]
        by_cases hlen : i = w.fileAccesses.length
        · subst hlen
          simp only [hend, if_true]
          constructor
          · rintro ⟨a, ha, -⟩
            simp at ha
          · rintro ⟨a, ha, rfl, rfl, -⟩
            simp only [Option.some.injEq] at ha
            exact absurd ⟨by rw [← ha]; rfl, by rw [← ha]; rfl⟩ hpf
        · simp [hlen]
    · have hold : (w.withAccess pid name).listedByProcess p =
          (w.newFileAccess pid name).listedByProcess p := by rw [hw]; rfl
      rw [hold, hL, listedByProcess_newFileAccess hp]
      exact count_listed_concat (a := .new pid name) (h.process p) i
    · have hold : (w.withAccess pid name).listedByFile f =
          (w.newFileAccess pid name).listedByFile f := by rw [hw]; rfl
      rw [hold, hL, listedByFile_newFileAccess hf]
      exact count_listed_concat (a := .new pid name) (h.file f) i

/-! ## One event -/

theorem modify_of_getElem? {α : Type} {l : List α} {i : ℕ} {a : α} (h : l[i]? = some a)
    (f : α → α) : l.modify i f = l.set i (f a) := by
  refine List.ext_getElem? fun j => ?_
  rw [List.getElem?_modify, List.getElem?_set]
  by_cases hj : i = j
  · subst hj
    obtain ⟨hlt, rfl⟩ := List.getElem?_eq_some_iff.mp h
    simp [hlt]
  · simp [hj]

/-- The tables after an event on the access `i`. -/
def Objects.afterEvent (env : Env) (w : Objects) (pid : ℤ) (name : Text) (e : AccessEvent)
    (i : ℕ) (a : FileAccess) : Objects :=
  { w with
    fileAccesses := w.fileAccesses.set i (e.apply env a).1
    cacheFileAccesses := match e with
      | .closes _ => w.cacheFileAccesses.update pid (·.erase name)
      | _ => w.cacheFileAccesses }

/-- A counted buffer is analysed. -/
theorem run_analyseNewBuffer {i : ℕ} {a : FileAccess} (ha : w.fileAccesses[i]? = some a)
    (isRead : Bool) (n : ℤ) (b : Option Arg) :
    (analyseNewBuffer env i isRead n b).run w =
      (if (a.analyseNewBuffer env isRead n b).2 then .ok () else .error .systemExit,
        { w with fileAccesses := w.fileAccesses.set i (a.analyseNewBuffer env isRead n b).1 }) := by
  simp only [analyseNewBuffer, Py.run_get_bind, ha, updateAccess, Py.run_modify_bind,
    modify_of_getElem? ha]
  split <;> rfl

/-- An event on the access that the cache gives for its process and file. -/
theorem run_send (h : LifeCycleInv w) {i : ℕ} (hc : w.cachedAccess pid name = some i)
    {a : FileAccess} (ha : w.fileAccesses[i]? = some a) (e : AccessEvent) :
    (e.send env i).run w = (if (e.apply env a).2 then .ok () else .error .systemExit,
      w.afterEvent env pid name e i a) := by
  obtain ⟨a', ha', rfl, rfl, -⟩ := (h.cached pid name i).mp hc
  obtain rfl : a = a' := by simpa [ha] using ha'
  have hlt : i < w.fileAccesses.length := (List.getElem?_eq_some_iff.mp ha).1
  obtain ⟨d, hd, hdi⟩ := Option.bind_eq_some_iff.mp hc
  cases e with
  | opens timeStamp =>
    have hp : (a.opened env timeStamp).process = a.process := by
      unfold FileAccess.opened; dsimp only; split <;> rfl
    have hf : (a.opened env timeStamp).dataFile = a.dataFile := by
      unfold FileAccess.opened; dsimp only; split <;> rfl
    simp only [AccessEvent.send, setOpenTime, updateAccess, Py.run_modify_bind, Py.run_get_bind,
      modify_of_getElem? ha, List.getElem?_set_self hlt, hp, hf, hd]
    simp only [Py.run_modify, Dict.set_of_get?_eq_some hdi, Dict.set_of_get?_eq_some hd]
    rfl
  | closes timeStamp =>
    have hp : (a.closed env timeStamp).process = a.process := by
      unfold FileAccess.closed; split <;> rfl
    have hf : (a.closed env timeStamp).dataFile = a.dataFile := by
      unfold FileAccess.closed; split <;> rfl
    simp only [AccessEvent.send, setCloseTime, updateAccess, Py.run_modify_bind, Py.run_get_bind,
      modify_of_getElem? ha, List.getElem?_set_self hlt, hp, hf, hd, hdi, Py.run_modify,
      Objects.afterEvent, Dict.update_of_get?_eq_some hd]
    rfl
  | reads n b =>
    simp only [AccessEvent.send, setRead, updateAccess, Py.run_modify_bind, modify_of_getElem? ha]
    rw [run_analyseNewBuffer (a := a.countRead n) (by simp [hlt])]
    simp only [List.set_set]
    rfl
  | writes n b =>
    simp only [AccessEvent.send, setWritten, updateAccess, Py.run_modify_bind,
      modify_of_getElem? ha]
    rw [run_analyseNewBuffer (a := a.countWritten n) (by simp [hlt])]
    simp only [List.set_set]
    rfl

/-- Analysing a buffer changes nothing but the concatenators. -/
theorem analyseNewBuffer_fst (env : Env) (isRead : Bool) (n : ℤ) (b : Option Arg) (a : FileAccess) :
    ∃ c r, (a.analyseNewBuffer env isRead n b).1 =
      { a with bufConcatRead := c, bufConcatWrite := r } := by
  cases b with
  | none => exact ⟨a.bufConcatRead, a.bufConcatWrite, rfl⟩
  | some buffer =>
    unfold FileAccess.analyseNewBuffer
    dsimp only
    split
    · exact ⟨a.bufConcatRead, a.bufConcatWrite, rfl⟩
    · cases isRead
      · exact ⟨a.bufConcatRead, _, rfl⟩
      · exact ⟨_, a.bufConcatWrite, rfl⟩

/-- Whether an event closes the access. -/
def AccessEvent.isClose : AccessEvent → Bool
  | .closes _ => true
  | _ => false

theorem process_apply (env : Env) (e : AccessEvent) (a : FileAccess) :
    (e.apply env a).1.process = a.process ∧ (e.apply env a).1.dataFile = a.dataFile := by
  cases e with
  | opens timeStamp =>
    simp only [AccessEvent.apply, FileAccess.opened]
    split <;> exact ⟨rfl, rfl⟩
  | closes timeStamp =>
    simp only [AccessEvent.apply, FileAccess.closed]
    split <;> exact ⟨rfl, rfl⟩
  | reads n b =>
    obtain ⟨c, r, h⟩ := analyseNewBuffer_fst env true n b (a.countRead n)
    simp only [AccessEvent.apply, h]
    exact ⟨rfl, rfl⟩
  | writes n b =>
    obtain ⟨c, r, h⟩ := analyseNewBuffer_fst env false n b (a.countWritten n)
    simp only [AccessEvent.apply, h]
    exact ⟨rfl, rfl⟩

theorem closeTime_apply (e : AccessEvent) {a : FileAccess} (ha : a.closeTime = none) :
    (e.apply env a).1.closeTime = none ↔ e.isClose = false := by
  cases e with
  | opens timeStamp =>
    simp only [AccessEvent.apply, FileAccess.opened, AccessEvent.isClose]
    split <;> simp [ha]
  | closes timeStamp =>
    simp [AccessEvent.apply, FileAccess.closed, AccessEvent.isClose, isEarlier, ha]
  | reads n b =>
    obtain ⟨c, r, h⟩ := analyseNewBuffer_fst env true n b (a.countRead n)
    simp only [AccessEvent.apply, h]
    simp [AccessEvent.isClose, FileAccess.countRead, ha]
  | writes n b =>
    obtain ⟨c, r, h⟩ := analyseNewBuffer_fst env false n b (a.countWritten n)
    simp only [AccessEvent.apply, h]
    simp [AccessEvent.isClose, FileAccess.countWritten, ha]

theorem cachedAccess_afterEvent (e : AccessEvent) (i : ℕ) (a : FileAccess) (p : ℤ) (f : Text) :
    (w.afterEvent env pid name e i a).cachedAccess p f =
      if e.isClose ∧ pid = p ∧ name = f then none else w.cachedAccess p f := by
  cases e with
  | closes timeStamp =>
    simp only [Objects.cachedAccess, Objects.afterEvent, AccessEvent.isClose, Dict.get?_update,
      true_and]
    by_cases hp : pid = p
    · subst hp
      cases w.cacheFileAccesses.get? pid <;> simp
    · simp [hp]
  | _ => simp [Objects.cachedAccess, Objects.afterEvent, AccessEvent.isClose]

theorem LifeCycleInv.afterEvent (h : LifeCycleInv w) {i : ℕ}
    (hc : w.cachedAccess pid name = some i) {a : FileAccess} (ha : w.fileAccesses[i]? = some a)
    (e : AccessEvent) : LifeCycleInv (w.afterEvent env pid name e i a) := by
  obtain ⟨a', ha', hpid, hname, hclose⟩ := (h.cached pid name i).mp hc
  obtain rfl : a = a' := by simpa [ha] using ha'
  have hlt : i < w.fileAccesses.length := (List.getElem?_eq_some_iff.mp ha).1
  have hget : ∀ j, (w.afterEvent env pid name e i a).fileAccesses[j]? =
      if i = j then some (e.apply env a).1 else w.fileAccesses[j]? := by
    intro j
    simp only [Objects.afterEvent, List.getElem?_set]
    split
    · rename_i hj
      subst hj
      rfl
    · rfl
  obtain ⟨hp, hf⟩ := process_apply env e a
  refine ⟨fun p f j => ?_, fun p j => ?_, fun f j => ?_⟩
  · rw [cachedAccess_afterEvent, hget]
    by_cases hj : i = j
    · subst hj
      have hj := h.cached p f i
      simp only [ha, Option.some.injEq, exists_eq_left', hclose, and_true] at hj
      simp only [if_true, Option.some.injEq, exists_eq_left', hp, hf, closeTime_apply e hclose]
      by_cases hcl : e.isClose
      · simp only [hcl, true_and, Bool.true_eq_false, and_false, iff_false]
        rw [← hpid, ← hname]
        split
        · simp
        · rename_i hne
          rwa [hj]
      · simp [hcl, hj]
    · rw [if_neg hj]
      split
      · rename_i hcl
        obtain ⟨-, rfl, rfl⟩ := hcl
        rw [← h.cached pid name j, hc]
        simp [hj]
      · exact h.cached p f j
  · have hi := h.process p j
    rw [hget]
    by_cases hj : i = j
    · subst hj
      simp only [ha, Option.map_some] at hi
      simp only [if_true, Option.map_some, hp]
      exact hi
    · rw [if_neg hj]
      exact hi
  · have hi := h.file f j
    rw [hget]
    by_cases hj : i = j
    · subst hj
      simp only [ha, Option.map_some] at hi
      simp only [if_true, Option.map_some, hf]
      exact hi
    · rw [if_neg hj]
      exact hi

/-- What one event does: on tables `w₁` where the access of the pair is there, it
changes that access and, when it closes it, drops it from the cache. -/
theorem run_issueEvent (env : Env) (h : LifeCycleInv w) (pid : ℤ) (name : Text) (e : AccessEvent) :
    ∃ w₁ i a, LifeCycleInv w₁ ∧
      (w₁.fileAccesses = w.fileAccesses ∨
        w₁.fileAccesses = w.fileAccesses ++ [.new pid name]) ∧
      w₁.cachedAccess pid name = some i ∧ w₁.fileAccesses[i]? = some a ∧
      (issueEvent env pid name e).run w = (if (e.apply env a).2 then .ok () else .error .systemExit,
        w₁.afterEvent env pid name e i a) := by
  have hs := (sameAccesses_toProcess env w pid).trans (sameAccesses_toDataFile _ name)
  set w₀ := (w.toProcess env pid).toDataFile name with hw₀
  have h₀ : LifeCycleInv w₀ := h.of_same hs
  have hp : (w₀.processes.get? pid).isSome := by
    rw [hw₀, processes_toDataFile]
    exact isSome_get?_toProcess env w pid
  have h₁ := h₀.withAccess hp (isSome_get?_toDataFile _ name)
  have hc := cachedAccess_withAccess w₀ pid name
  obtain ⟨a, ha, -⟩ := (h₁.cached pid name _).mp hc
  refine ⟨w₀.withAccess pid name, w₀.accessRank pid name, a, h₁, ?_, hc, ha, ?_⟩
  · rw [fileAccesses_withAccess, hs.accesses]
    cases w₀.cachedAccess pid name <;> simp
  · rw [← run_send h₁ hc ha, issueEvent, toObjectPathCIMProcess, createObjectPathCIMDataFile,
      Py.run_modify_bind, Py.run_modify_bind, ← hw₀, withFileAccess, Py.run_bind, run_getFileAccess]

/-! ## Sequences of events -/

/-- The tables after a sequence of events. An event that ends the program still
counts; the events after it cover more states than the program reaches. -/
def issueAll (env : Env) (evs : List (ℤ × Text × AccessEvent)) (w : Objects) : Objects :=
  evs.foldl (fun w e => ((issueEvent env e.1 e.2.1 e.2.2).run w).2) w

theorem LifeCycleInv.issueEvent (h : LifeCycleInv w) (pid : ℤ) (name : Text) (e : AccessEvent) :
    LifeCycleInv ((issueEvent env pid name e).run w).2 := by
  obtain ⟨w₁, i, a, h₁, -, hc, ha, hr⟩ := run_issueEvent env h pid name e
  rw [hr]
  exact h₁.afterEvent hc ha e

theorem LifeCycleInv.issueAll (evs : List (ℤ × Text × AccessEvent)) (h : LifeCycleInv w) :
    LifeCycleInv (issueAll env evs w) := by
  induction evs generalizing w with
  | nil => exact h
  | cons e evs ih => exact ih (h.issueEvent e.1 e.2.1 e.2.2)

/-- Whether the access `i` exists and is closed. -/
def Objects.IsClosed (w : Objects) (i : ℕ) : Prop :=
  ∃ a, w.fileAccesses[i]? = some a ∧ a.closeTime ≠ none

/-- An event leaves a closed access alone. -/
theorem getElem?_issueEvent (h : LifeCycleInv w) (e : AccessEvent) {j : ℕ} {b : FileAccess}
    (hj : w.fileAccesses[j]? = some b) (hb : b.closeTime ≠ none) :
    ((issueEvent env pid name e).run w).2.fileAccesses[j]? = some b := by
  obtain ⟨w₁, i, a, h₁, hL, hc, ha, hr⟩ := run_issueEvent env h pid name e
  obtain ⟨a', ha', -, -, hclose⟩ := (h₁.cached pid name i).mp hc
  obtain rfl : a = a' := by simpa [ha] using ha'
  have hj₁ : w₁.fileAccesses[j]? = some b := by
    rcases hL with hL | hL <;> rw [hL]
    · exact hj
    · rw [List.getElem?_append_left (List.getElem?_eq_some_iff.mp hj).1, hj]
  have hij : i ≠ j := by
    rintro rfl
    rw [ha, Option.some.injEq] at hj₁
    exact hb (hj₁ ▸ hclose)
  rw [hr]
  simpa [Objects.afterEvent, List.getElem?_set_ne hij] using hj₁

/-- A closed access never changes again. -/
theorem getElem?_issueAll (evs : List (ℤ × Text × AccessEvent)) (h : LifeCycleInv w) {j : ℕ}
    {b : FileAccess} (hj : w.fileAccesses[j]? = some b) (hb : b.closeTime ≠ none) :
    (issueAll env evs w).fileAccesses[j]? = some b := by
  induction evs generalizing w with
  | nil => exact hj
  | cons e evs ih => exact ih (h.issueEvent _ _ _) (getElem?_issueEvent h e.2.2 hj hb)

/-- A closing event returns, and closes exactly one access. -/
theorem issueEvent_closes (h : LifeCycleInv w) (pid : ℤ) (name timeStamp : Text) :
    ((issueEvent env pid name (.closes timeStamp)).run w).1 = .ok () ∧
      ∃! i, ((issueEvent env pid name (.closes timeStamp)).run w).2.IsClosed i ∧ ¬ w.IsClosed i := by
  obtain ⟨w₁, i, a, h₁, hL, hc, ha, hr⟩ := run_issueEvent env h pid name (.closes timeStamp)
  obtain ⟨a', ha', -, -, hclose⟩ := (h₁.cached pid name i).mp hc
  obtain rfl : a = a' := by simpa [ha] using ha'
  have hlt : i < w₁.fileAccesses.length := (List.getElem?_eq_some_iff.mp ha).1
  have hold : ∀ j, w₁.IsClosed j ↔ w.IsClosed j := by
    intro j
    rcases hL with hL | hL
    · simp [Objects.IsClosed, hL]
    · simp only [Objects.IsClosed, hL, getElem?_concat]
      by_cases hj : j = w.fileAccesses.length
      · simp [hj, FileAccess.new]
      · simp [hj]
  rw [hr]
  refine ⟨rfl, i, ⟨⟨(AccessEvent.apply env (.closes timeStamp) a).1,
    by simp [Objects.afterEvent, hlt], ?_⟩, ?_⟩, ?_⟩
  · rw [Ne, closeTime_apply _ hclose]
    simp [AccessEvent.isClose]
  · rw [← hold]
    rintro ⟨b, hb, hne⟩
    rw [ha, Option.some.injEq] at hb
    exact hne (hb ▸ hclose)
  · rintro j ⟨⟨b, hb, hne⟩, hj⟩
    by_contra hij
    refine hj ((hold j).mp ⟨b, ?_, hne⟩)
    simpa [Objects.afterEvent, List.getElem?_set_ne (Ne.symm hij)] using hb

/-! ## Sums -/

/-- The sum of a counter over the accesses of a process to a file. -/
def Objects.sumOf (w : Objects) (g : FileAccess → ℤ) (pid : ℤ) (name : Text) : ℤ :=
  (w.fileAccesses.map fun a => if a.process = pid ∧ a.dataFile = name then g a else 0).sum

/-- The sum of a quantity over the events of a process on a file. -/
def weight (v : AccessEvent → ℤ) (evs : List (ℤ × Text × AccessEvent)) (pid : ℤ) (name : Text) :
    ℤ :=
  (evs.map fun e => if e.1 = pid ∧ e.2.1 = name then v e.2.2 else 0).sum

theorem sum_map_set {α : Type} (f : α → ℤ) {l : List α} {i : ℕ} {a : α} (h : l[i]? = some a)
    (b : α) : ((l.set i b).map f).sum = (l.map f).sum + (f b - f a) := by
  induction l generalizing i with
  | nil => simp at h
  | cons c l ih =>
    cases i with
    | zero =>
      simp only [List.getElem?_cons_zero, Option.some.injEq] at h
      simp [h]
      ring
    | succ i =>
      rw [List.getElem?_cons_succ] at h
      simp only [List.set_cons_succ, List.map_cons, List.sum_cons, ih h]
      ring

/-- One event adds its own quantity, to the sum of its own pair. -/
theorem sumOf_issueEvent {g : FileAccess → ℤ} {v : AccessEvent → ℤ}
    (hnew : ∀ p f, g (.new p f) = 0) (hg : ∀ (e : AccessEvent) a, g (e.apply env a).1 = g a + v e)
    (h : LifeCycleInv w) (e : ℤ × Text × AccessEvent) (p : ℤ) (f : Text) :
    (((issueEvent env e.1 e.2.1 e.2.2).run w).2).sumOf g p f = w.sumOf g p f + weight v [e] p f := by
  obtain ⟨pid, name, e⟩ := e
  obtain ⟨w₁, i, a, h₁, hL, hc, ha, hr⟩ := run_issueEvent env h pid name e
  obtain ⟨a', ha', rfl, rfl, -⟩ := (h₁.cached pid name i).mp hc
  obtain rfl : a = a' := by simpa [ha] using ha'
  have hw₁ : w₁.sumOf g p f = w.sumOf g p f := by
    rcases hL with hL | hL <;> simp [Objects.sumOf, hL, hnew]
  obtain ⟨hp, hf⟩ := process_apply env e a
  simp only at hr ⊢
  rw [hr, ← hw₁, Objects.sumOf]
  simp only [Objects.afterEvent, sum_map_set _ ha, hp, hf, hg, weight, List.map_cons, List.map_nil,
    List.sum_cons, List.sum_nil]
  by_cases hpf : a.process = p ∧ a.dataFile = f <;> simp [hpf, Objects.sumOf]

/-- The sums of the accesses of a pair are those of its events. -/
theorem sumOf_issueAll {g : FileAccess → ℤ} {v : AccessEvent → ℤ}
    (hnew : ∀ p f, g (.new p f) = 0) (hg : ∀ (e : AccessEvent) a, g (e.apply env a).1 = g a + v e)
    (evs : List (ℤ × Text × AccessEvent)) (h : LifeCycleInv w) (p : ℤ) (f : Text) :
    (issueAll env evs w).sumOf g p f = w.sumOf g p f + weight v evs p f := by
  induction evs generalizing w with
  | nil => simp [issueAll, weight]
  | cons e evs ih =>
    have hs := sumOf_issueEvent hnew hg h e p f
    rw [show issueAll env (e :: evs) w =
      issueAll env evs ((issueEvent env e.1 e.2.1 e.2.2).run w).2 from rfl, ih (h.issueEvent _ _ _), hs]
    simp only [weight, List.map_cons, List.map_nil, List.sum_cons, List.sum_nil]
    ring

/-! ## The life cycle -/

/-- One for an open event. -/
def AccessEvent.openCount : AccessEvent → ℤ
  | .opens _ => 1
  | _ => 0

/-- One for a read event. -/
def AccessEvent.readCount : AccessEvent → ℤ
  | .reads _ _ => 1
  | _ => 0

/-- The bytes of a read event. -/
def AccessEvent.readBytes : AccessEvent → ℤ
  | .reads n _ => n
  | _ => 0

/-- One for a write event. -/
def AccessEvent.writeCount : AccessEvent → ℤ
  | .writes _ _ => 1
  | _ => 0

/-- The bytes of a write event. -/
def AccessEvent.writtenBytes : AccessEvent → ℤ
  | .writes n _ => n
  | _ => 0

theorem getD_increment (n : Option ℕ) : ((increment n).getD 0 : ℤ) = n.getD 0 + 1 := by
  cases n <;> simp [increment]

theorem getD_addTo (n : ℤ) (m : Option ℤ) : (addTo n m).getD 0 = m.getD 0 + n := by
  cases m <;> simp [addTo]

/-- The counters of an access, which are sums over its events. -/
def FileAccess.counters (a : FileAccess) : List ℤ :=
  [a.numOpen.getD 0, a.numReads.getD 0, a.bytesRead.getD 0, a.numWrites.getD 0,
    a.bytesWritten.getD 0]

/-- What an event adds to the counters. -/
def AccessEvent.counts (e : AccessEvent) : List ℤ :=
  [e.openCount, e.readCount, e.readBytes, e.writeCount, e.writtenBytes]

/-- An event adds its own quantities to the counters of its access. -/
theorem counters_apply (env : Env) (e : AccessEvent) (a : FileAccess) :
    (e.apply env a).1.counters = List.zipWith (· + ·) a.counters e.counts := by
  cases e with
  | opens timeStamp =>
    simp only [AccessEvent.apply, FileAccess.opened]
    split <;> simp [FileAccess.counters, AccessEvent.counts, AccessEvent.openCount,
      AccessEvent.readCount, AccessEvent.readBytes, AccessEvent.writeCount,
      AccessEvent.writtenBytes, getD_increment]
  | closes timeStamp =>
    simp only [AccessEvent.apply, FileAccess.closed]
    split <;> simp [FileAccess.counters, AccessEvent.counts, AccessEvent.openCount,
      AccessEvent.readCount, AccessEvent.readBytes, AccessEvent.writeCount,
      AccessEvent.writtenBytes]
  | reads n b =>
    obtain ⟨c, r, h⟩ := analyseNewBuffer_fst env true n b (a.countRead n)
    simp only [AccessEvent.apply, h]
    simp [FileAccess.countRead, FileAccess.counters, AccessEvent.counts, AccessEvent.openCount,
      AccessEvent.readCount, AccessEvent.readBytes, AccessEvent.writeCount,
      AccessEvent.writtenBytes, getD_increment, getD_addTo]
  | writes n b =>
    obtain ⟨c, r, h⟩ := analyseNewBuffer_fst env false n b (a.countWritten n)
    simp only [AccessEvent.apply, h]
    simp [FileAccess.countWritten, FileAccess.counters, AccessEvent.counts, AccessEvent.openCount,
      AccessEvent.readCount, AccessEvent.readBytes, AccessEvent.writeCount,
      AccessEvent.writtenBytes, getD_increment, getD_addTo]

/-- The state of the accesses after the events `evs`. -/
structure LifeCycle (env : Env) (evs : List (ℤ × Text × AccessEvent)) (w : Objects) : Prop where
  /-- The cached access of a pair belongs to it and has no closing time. -/
  cached_belongs : ∀ p f i, w.cachedAccess p f = some i →
    ∃ a, w.fileAccesses[i]? = some a ∧ a.process = p ∧ a.dataFile = f ∧ a.closeTime = none
  /-- It is the only access of the pair without a closing time. -/
  cached_unique : ∀ (i : ℕ) (a : FileAccess), w.fileAccesses[i]? = some a → a.closeTime = none →
    w.cachedAccess a.process a.dataFile = some i
  /-- An access is listed once by its own process, and not by another one. -/
  listed_process : ∀ (i : ℕ) (a : FileAccess), w.fileAccesses[i]? = some a →
    ∀ p, (w.listedByProcess p).count i = if a.process = p then 1 else 0
  /-- An access is listed once by its own file, and not by another one. -/
  listed_file : ∀ (i : ℕ) (a : FileAccess), w.fileAccesses[i]? = some a →
    ∀ f, (w.listedByFile f).count i = if a.dataFile = f then 1 else 0
  /-- A further closing event raises nothing and closes exactly one access. -/
  closes_one : ∀ p f timeStamp,
    ((issueEvent env p f (.closes timeStamp)).run w).1 = .ok () ∧
      ∃! i, ((issueEvent env p f (.closes timeStamp)).run w).2.IsClosed i ∧ ¬ w.IsClosed i
  /-- No further sequence of events changes a closed access. -/
  closed_final : ∀ (i : ℕ) (a : FileAccess), w.fileAccesses[i]? = some a → a.closeTime ≠ none →
    ∀ evs', (issueAll env evs' w).fileAccesses[i]? = some a
  numOpen_sum : ∀ p f, w.sumOf (fun a => a.numOpen.getD 0) p f =
    weight AccessEvent.openCount evs p f
  numReads_sum : ∀ p f, w.sumOf (fun a => a.numReads.getD 0) p f =
    weight AccessEvent.readCount evs p f
  bytesRead_sum : ∀ p f, w.sumOf (fun a => a.bytesRead.getD 0) p f =
    weight AccessEvent.readBytes evs p f
  numWrites_sum : ∀ p f, w.sumOf (fun a => a.numWrites.getD 0) p f =
    weight AccessEvent.writeCount evs p f
  bytesWritten_sum : ∀ p f, w.sumOf (fun a => a.bytesWritten.getD 0) p f =
    weight AccessEvent.writtenBytes evs p f

/-- **The life cycle of file accesses**, after any sequence of events. -/
theorem lifeCycle_issueAll (env : Env) (evs : List (ℤ × Text × AccessEvent)) :
    LifeCycle env evs (issueAll env evs Objects.init) := by
  have h : LifeCycleInv (issueAll env evs Objects.init) := lifeCycleInv_init.issueAll evs
  have hsum : ∀ (g : FileAccess → ℤ) (v : AccessEvent → ℤ), (∀ p f, g (.new p f) = 0) →
      (∀ (e : AccessEvent) a, g (e.apply env a).1 = g a + v e) →
      ∀ p f, (issueAll env evs Objects.init).sumOf g p f = weight v evs p f := by
    intro g v hnew hg p f
    rw [sumOf_issueAll hnew hg evs lifeCycleInv_init]
    simp [Objects.sumOf, Objects.init]
  have hcount : ∀ (e : AccessEvent) a, _ := fun e a => counters_apply env e a
  simp only [FileAccess.counters, AccessEvent.counts, List.zipWith_cons_cons,
    List.zipWith_nil_right, List.cons.injEq, and_true] at hcount
  exact {
    cached_belongs := fun p f i hc => (h.cached p f i).mp hc
    cached_unique := fun i a ha hclose => (h.cached _ _ i).mpr ⟨a, ha, rfl, rfl, hclose⟩
    listed_process := fun i a ha p => by simpa [ha] using h.process p i
    listed_file := fun i a ha f => by simpa [ha] using h.file f i
    closes_one := fun p f timeStamp => issueEvent_closes h p f timeStamp
    closed_final := fun i a ha hclose evs' => getElem?_issueAll evs' h ha hclose
    numOpen_sum := hsum _ _ (fun _ _ => rfl) fun e a => (hcount e a).1
    numReads_sum := hsum _ _ (fun _ _ => rfl) fun e a => (hcount e a).2.1
    bytesRead_sum := hsum _ _ (fun _ _ => rfl) fun e a => (hcount e a).2.2.1
    numWrites_sum := hsum _ _ (fun _ _ => rfl) fun e a => (hcount e a).2.2.2.1
    bytesWritten_sum := hsum _ _ (fun _ _ => rfl) fun e a => (hcount e a).2.2.2.2 }

end Survol.Dockit
