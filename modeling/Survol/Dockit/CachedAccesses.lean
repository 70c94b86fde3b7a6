import Survol.Dockit.FactorySteps
import Survol.Dockit.FileLifeCycle
import Survol.Dockit.ModelSteps

/-!
# The cache of the accesses, over a log

The life cycle of an access is about the events of accesses only. Over a log the models also create
objects and change processes, and a call may be interrupted by an exception. What is left then is
that the cache names accesses of its own process and file.

## Main definitions

* `CacheBelongs` — the invariant.
* `cacheBelongs_of_factoryStep` — the factory keeps it.
-/

open PyText Py

namespace Survol.Dockit

/-- A cached access belongs to the process and the file that it is cached for. -/
def CacheBelongs (w : Objects) : Prop :=
  ∀ pid name i, w.cachedAccess pid name = some i →
    ∃ a, w.fileAccesses[i]? = some a ∧ a.process = pid ∧ a.dataFile = name

/-- The invariant is kept. -/
def KeepsCache (w w' : Objects) : Prop := CacheBelongs w → CacheBelongs w'

instance : Std.Refl KeepsCache := ⟨fun _ h => h⟩

instance : IsTrans Objects KeepsCache := ⟨fun _ _ _ h h' hw => h' (h hw)⟩

variable {w w' : Objects} {env : Env} {i : ℕ}

theorem keepsCache_of_eq (hl : w'.fileAccesses = w.fileAccesses)
    (hc : w'.cacheFileAccesses = w.cacheFileAccesses) : KeepsCache w w' := by
  intro h pid name i hi
  rw [Objects.cachedAccess, hc] at hi
  rw [hl]
  exact h pid name i hi

theorem keepsCache_of_same (h : SameAccesses w w') : KeepsCache w w' :=
  keepsCache_of_eq h.accesses h.cache

/-- A change of an access that keeps its process and its file. -/
theorem keepsCache_modify {f : FileAccess → FileAccess}
    (hf : ∀ a, w.fileAccesses[i]? = some a → (f a).process = a.process ∧
      (f a).dataFile = a.dataFile) :
    KeepsCache w { w with fileAccesses := w.fileAccesses.modify i f } := by
  intro h pid name j hj
  obtain ⟨a, ha, rfl, rfl⟩ := h pid name j hj
  rw [List.getElem?_modify]
  split
  · rename_i hij
    subst hij
    obtain ⟨hprocess, hfile⟩ := hf a ha
    exact ⟨f a, by rw [ha]; rfl, hprocess, hfile⟩
  · exact ⟨a, by rw [ha]; rfl, rfl, rfl⟩

theorem keepsCache_updateAccess {f : FileAccess → FileAccess}
    (hf : ∀ a, (f a).process = a.process ∧ (f a).dataFile = a.dataFile) :
    Keeps KeepsCache (updateAccess i f) := fun _ => keepsCache_modify fun a _ => hf a

theorem owner_analyseNewBuffer (isRead : Bool) (n : ℤ) (b : Option Arg) (a : FileAccess) :
    (a.analyseNewBuffer env isRead n b).1.process = a.process ∧
      (a.analyseNewBuffer env isRead n b).1.dataFile = a.dataFile := by
  unfold FileAccess.analyseNewBuffer
  split
  · exact ⟨rfl, rfl⟩
  · split
    · exact ⟨rfl, rfl⟩
    · cases isRead <;> exact ⟨rfl, rfl⟩

theorem keepsCache_analyseNewBuffer (isRead : Bool) (n : ℤ) (b : Option Arg) :
    Keeps KeepsCache (analyseNewBuffer env i isRead n b) := by
  intro w
  rw [analyseNewBuffer, run_get_bind]
  cases ha : w.fileAccesses[i]? with
  | none => exact Std.Refl.refl w
  | some a =>
    have hkeep : KeepsCache w { w with fileAccesses := w.fileAccesses.modify i fun _ =>
        (a.analyseNewBuffer env isRead n b).1 } := by
      refine keepsCache_modify fun a' ha' => ?_
      obtain rfl : a = a' := Option.some.inj (ha.symm.trans ha')
      exact owner_analyseNewBuffer isRead n b a
    dsimp only
    rw [updateAccess, run_modify_bind]
    split
    · exact hkeep
    · exact hkeep

theorem keepsCache_setOpenTime (timeStamp : Text) :
    Keeps KeepsCache (setOpenTime env i timeStamp) := by
  refine .bind (keepsCache_updateAccess fun a => ?_) fun _ => fun w => ?_
  · rw [FileAccess.opened]
    dsimp only
    split <;> exact ⟨rfl, rfl⟩
  · rw [run_get_bind]
    cases ha : w.fileAccesses[i]? with
    | none => exact Std.Refl.refl w
    | some a =>
      dsimp only
      cases hd : w.cacheFileAccesses.get? a.process with
      | none => exact Std.Refl.refl w
      | some d =>
        intro h pid name j hj
        have hj' : (w.cacheAccess a.process a.dataFile i).cachedAccess pid name = some j := by
          rw [← hj]
          simp only [Objects.cachedAccess, Objects.cacheAccess, hd]
          rfl
        rw [cachedAccess_cacheAccess] at hj'
        split at hj'
        · rename_i heq
          cases hj'
          exact ⟨a, ha, heq.1, heq.2⟩
        · exact h pid name j hj'

theorem keepsCache_setCloseTime (timeStamp : Text) :
    Keeps KeepsCache (setCloseTime env i timeStamp) := by
  refine .bind (keepsCache_updateAccess fun a => ?_) fun _ => fun w => ?_
  · rw [FileAccess.closed]
    split <;> exact ⟨rfl, rfl⟩
  · rw [run_get_bind]
    cases ha : w.fileAccesses[i]? with
    | none => exact Std.Refl.refl w
    | some a =>
      dsimp only
      cases hd : w.cacheFileAccesses.get? a.process with
      | none => exact Std.Refl.refl w
      | some d =>
        dsimp only
        cases d.get? a.dataFile with
        | none => exact Std.Refl.refl w
        | some _ =>
          intro h pid name j hj
          refine h pid name j ?_
          simp only [run_modify, Objects.cachedAccess, Dict.get?_set] at hj ⊢
          split at hj
          · rename_i hpid
            subst hpid
            rw [Option.bind_some, Dict.get?_erase] at hj
            split at hj
            · cases hj
            · rwa [hd, Option.bind_some]
          · exact hj

theorem keepsCache_accessStep {β : Type} {m : ObjM β} (h : AccessStep env i β m) :
    Keeps KeepsCache m := by
  cases h with
  | opens timeStamp => exact keepsCache_setOpenTime timeStamp
  | closes timeStamp => exact keepsCache_setCloseTime timeStamp
  | reads n b =>
    exact .bind (keepsCache_updateAccess fun _ => ⟨rfl, rfl⟩) fun _ =>
      keepsCache_analyseNewBuffer true n b
  | writes n b =>
    exact .bind (keepsCache_updateAccess fun _ => ⟨rfl, rfl⟩) fun _ =>
      keepsCache_analyseNewBuffer false n b

theorem keepsCache_withAccess (w : Objects) (pid : ℤ) (name : Text) :
    KeepsCache w (w.withAccess pid name) := by
  intro h p f j hj
  rw [fileAccesses_withAccess]
  cases hc : w.cachedAccess pid name with
  | some k =>
    rw [Objects.withAccess, hc] at hj
    simpa using h p f j hj
  | none =>
    rw [Objects.withAccess, hc, cachedAccess_cacheAccess] at hj
    rw [getElem?_concat]
    split at hj
    · rename_i heq
      cases hj
      exact ⟨.new pid name, if_pos rfl, heq.1, heq.2⟩
    · obtain ⟨a, ha, hown⟩ := h p f j hj
      have hlt := (List.getElem?_eq_some_iff.mp ha).1
      exact ⟨a, by rw [if_neg (by omega), ha], hown⟩

theorem keepsCache_withFileAccess {pid : ℤ} {name : Text} {use : ℕ → ObjM Unit}
    (h : ∀ i, Built (AccessStep env i) (use i)) :
    Keeps KeepsCache (withFileAccess pid name use) := by
  refine .bind (fun w => ?_) fun i => .of_built (fun _ _ => keepsCache_accessStep) (h i)
  rw [run_getFileAccess]
  exact keepsCache_withAccess w pid name

section
variable {R : Objects → Objects → Prop} [Std.Refl R] [IsTrans Objects R]

theorem keeps_toObjectPathCIMDataFile (hR : ∀ w w' : Objects, w'.fileAccesses = w.fileAccesses →
      w'.cacheFileAccesses = w.cacheFileAccesses → R w w') (name : Text)
    (pid : ℤ) : Keeps R (toObjectPathCIMDataFile env name pid) := by
  have hsame : ∀ {w w' : Objects}, SameAccesses w w' → R w w' := fun h => hR _ _ h.accesses h.cache
  have hfile : ∀ dirPath, Keeps R (do
      let pathName ← ofExcept (toAbsPath (.path dirPath) name)
      createObjectPathCIMDataFile pathName
      return pathName) := by
    intro dirPath
    cases toAbsPath (.path dirPath) name with
    | error e => exact .bind (.raise e) fun _ => .bind (.modify fun w =>
        hsame (sameAccesses_toDataFile w _)) fun _ => .pure _
    | ok pathName => exact .bind (.pure pathName) fun _ => .bind (.modify fun w =>
        hsame (sameAccesses_toDataFile w _)) fun _ => .pure _
  rw [toObjectPathCIMDataFile]
  split
  · exact hfile []
  · exact .bind (.modify fun w => hsame (sameAccesses_toProcess env w pid)) fun _ =>
      .bind (Keeps.bind (R := R) .get fun _ => .pure _) hfile

/-- The steps of a model that are not accesses leave the accesses as they are. -/
theorem keeps_modelStep_of_access (hR : ∀ w w' : Objects, w'.fileAccesses = w.fileAccesses →
      w'.cacheFileAccesses = w.cacheFileAccesses → R w w') {pid : ℤ}
    {fds tree : Prop}
    (haccess : ∀ (name : Text) {use : ℕ → ObjM Unit}, (∀ i, Built (AccessStep env i) (use i)) →
      Keeps R (withFileAccess pid name use))
    {β : Type} {m : ObjM β} (h : ModelStep env pid fds tree β m) : Keeps R m := by
  have hmodify : ∀ {f : Objects → Objects}, (∀ w, (f w).fileAccesses = w.fileAccesses ∧
      (f w).cacheFileAccesses = w.cacheFileAccesses) → Keeps R (.modify f : ObjM Unit) :=
    fun hf => .modify fun w => hR _ _ (hf w).1 (hf w).2
  have hparent : ∀ p, Keeps R (setParentProcess p pid) := by
    intro p
    rw [setParentProcess]
    exact .ite (.raise _) (hmodify fun _ => ⟨rfl, rfl⟩)
  cases h with
  | pathname s => exact Keeps.bind (R := R) .get fun _ => .pure _
  | dataFile name => exact keeps_toObjectPathCIMDataFile hR name pid
  | currentDir => exact Keeps.bind (R := R) .get fun _ => .pure _
  | access name huse => exact haccess name huse
  | chdir name => exact hmodify fun _ => ⟨rfl, rfl⟩
  | executable name => exact hmodify fun _ => ⟨rfl, rfl⟩
  | commandLine l =>
    cases l with
    | none => exact .pure _
    | some l => exact .ite (.pure _) (hmodify fun _ => ⟨rfl, rfl⟩)
  | isExecuted name => exact hmodify fun _ => ⟨rfl, rfl⟩
  | socketAddress name a => exact hmodify fun _ => ⟨rfl, rfl⟩
  | «variable» n v => exact hmodify fun _ => ⟨rfl, rfl⟩
  | filDes _ n p => exact hmodify fun _ => ⟨rfl, rfl⟩
  | process _ p => exact hmodify fun w =>
      ⟨(sameAccesses_toProcess env w p).accesses, (sameAccesses_toProcess env w p).cache⟩
  | thread _ p => exact hmodify fun _ => ⟨rfl, rfl⟩
  | parent _ p timeStamp => exact .bind (hparent p) fun _ => hmodify fun _ => ⟨rfl, rfl⟩
  | waitEnd _ p timeStamp =>
    refine .bind (hmodify fun _ => ⟨rfl, rfl⟩) fun _ => Keeps.bind (R := R) .get fun w => ?_
    exact .ite (.pure _) (hparent p)

end

/-- Every step of a model keeps the cache. -/
theorem keepsCache_modelStep {pid : ℤ} {fds tree : Prop} {β : Type} {m : ObjM β}
    (h : ModelStep env pid fds tree β m) : Keeps KeepsCache m :=
  keeps_modelStep_of_access (fun _ _ => keepsCache_of_eq)
    (fun _ _ huse => keepsCache_withFileAccess huse) h

theorem keepsCache_build {core : BatchLetCore} {m : CallModel}
    (hm : batchModels core.funcNam = .model m) (c : BatchLetCore) :
    KeepsCache w ((m.build env c).run w).2 :=
  Keeps.of_built (fun _ _ => keepsCache_modelStep)
    (built_batchModels hm env c True True (fun _ _ => trivial) fun _ => trivial) w

theorem keepsCache_admitted (core : BatchLetCore) : KeepsCache w (w.admitted env core) := by
  intro h
  have hprocess := keepsCache_of_same (sameAccesses_toProcess env w core.pid) h
  exact keepsCache_of_eq rfl rfl hprocess

/-- The factory keeps what all the models keep. -/
theorem objects_of_factoryStep {P : Objects → Prop} {id : CoreId} {core : BatchLetCore}
    {w w' : World} {r : Option Batch} (hstep : FactoryStep env id core w w' r)
    (hP : ∀ m, batchModels core.funcNam = .model m → ∀ c : BatchLetCore, ∀ o,
      P o → P ((m.build env c).run o).2)
    (h : P w.objects) : P w'.objects := by
  have hbuilt : ∀ {m : CallModel} {c : BatchLetCore} {x : Except PyExn (Option (List SigArg))},
      batchModels core.funcNam = .model m →
        (m.build env c).run w.objects = (x, w'.objects) → P w'.objects := by
    intro m c x hm hbuild
    have hkeep := hP m hm c _ h
    rwa [hbuild] at hkeep
  cases hstep with
  | unknown _ _ hobjects => exact hobjects ▸ h
  | ignored _ heq => exact heq ▸ h
  | pushed hm _ _ hobjects =>
    obtain ⟨-, hobjects⟩ | ⟨-, e, hbuild⟩ := hobjects
    · exact hobjects ▸ h
    · exact hbuilt hm hbuild
  | built hm _ _ hbuild => exact hbuilt hm hbuild
  | lone hm _ _ _ hobjects =>
    obtain ⟨-, hobjects⟩ | ⟨-, x, hbuild⟩ := hobjects
    · exact hobjects ▸ h
    · exact hbuilt hm hbuild

theorem cacheBelongs_of_factoryStep {id : CoreId} {core : BatchLetCore} {w w' : World}
    {r : Option Batch} (hstep : FactoryStep env id core w w' r) (h : CacheBelongs w.objects) :
    CacheBelongs w'.objects :=
  objects_of_factoryStep hstep (fun _ hm c _ => keepsCache_build hm c) h

end Survol.Dockit
