import Survol.Dockit.CachedAccesses

/-!
# What the scanners have found, over a log

An access keeps what the scanners have found in its buffers, by the name of the scanner. No other
name is ever stored.

## Main definitions

* `Scanned` — the invariant.
* `scanned_of_factoryStep` — the factory keeps it.
-/

open PyText Py

namespace Survol.Dockit

/-- What is found is stored under the names of the scanners. -/
def BufferConcatenator.Scanned (env : Env) (b : BufferConcatenator) : Prop :=
  ∀ d ∈ b.parsedData, ∀ k ∈ d, k.1 ∈ env.bufferScanners.map Prod.fst

/-- The two buffers of an access. -/
def FileAccess.Scanned (env : Env) (a : FileAccess) : Prop :=
  ∀ isRead, ∀ b ∈ a.bufConcat isRead, b.Scanned env

/-- The buffers of all the accesses. -/
def Scanned (env : Env) (w : Objects) : Prop := ∀ a ∈ w.fileAccesses, a.Scanned env

/-- The invariant is kept. -/
def KeepsScanned (env : Env) (w w' : Objects) : Prop := Scanned env w → Scanned env w'

instance (env : Env) : Std.Refl (KeepsScanned env) := ⟨fun _ h => h⟩

instance (env : Env) : IsTrans Objects (KeepsScanned env) := ⟨fun _ _ _ h h' hw => h' (h hw)⟩

section
variable {env : Env} {i : ℕ}

/-! ## A buffer -/

theorem scanned_new : BufferConcatenator.new.Scanned env := nofun

theorem BufferConcatenator.Scanned.scan {b : BufferConcatenator} (h : b.Scanned env)
    {scanner : Text × (Text → List Text)} (hscanner : scanner ∈ env.bufferScanners)
    (aBuffer : Text) : (b.scan aBuffer scanner).Scanned env := by
  rw [BufferConcatenator.scan]
  dsimp only
  split
  · exact h
  · intro d hd k hk
    cases hd
    rcases Dict.mem_of_mem_set hk with rfl | hk
    · exact List.mem_map_of_mem hscanner
    · cases hdata : b.parsedData with
      | none =>
        rw [hdata] at hk
        cases hk
      | some d =>
        rw [hdata] at hk
        exact h d hdata k hk

theorem BufferConcatenator.Scanned.analyse {b : BufferConcatenator} (h : b.Scanned env)
    (aBuffer : Text) : (b.analyseCompleteBuffer env.bufferScanners aBuffer).Scanned env := by
  have hfold : ∀ (l : BufferScanners) (b : BufferConcatenator), (∀ x ∈ l, x ∈ env.bufferScanners) →
      b.Scanned env → (l.foldl (BufferConcatenator.scan aBuffer) b).Scanned env := by
    intro l
    induction l with
    | nil => exact fun _ _ hb => hb
    | cons x l ih =>
      intro b hl hb
      obtain ⟨hx, hl⟩ := List.forall_mem_cons.mp hl
      exact ih _ hl (hb.scan hx aBuffer)
  exact hfold _ b (fun _ hx => hx) h

theorem BufferConcatenator.Scanned.append {b b' : BufferConcatenator} (h : b.Scanned env)
    {aFragment : Text} {szFragment : ℤ}
    (happend : b.appendIOBuffer env.bufferScanners aFragment szFragment = some b') :
    b'.Scanned env := by
  rw [BufferConcatenator.appendIOBuffer] at happend
  obtain ⟨decoded, -, happend⟩ := Option.bind_eq_some_iff.mp happend
  dsimp only at happend
  split at happend
  · cases happend
    exact h
  · cases happend
    refine BufferConcatenator.Scanned.analyse ?_ decoded
    split
    · exact h
    · exact h.analyse _

/-! ## An access -/

theorem FileAccess.Scanned.analyse {a : FileAccess} (h : a.Scanned env) (isRead : Bool) (n : ℤ)
    (aBuffer : Option Arg) : (a.analyseNewBuffer env isRead n aBuffer).1.Scanned env := by
  rw [FileAccess.analyseNewBuffer.eq_def]
  split
  · exact h
  · dsimp only
    split
    · exact h
    · rename_i buffer _
      have hold : ((a.bufConcat isRead).getD BufferConcatenator.new).Scanned env := by
        cases hb : a.bufConcat isRead with
        | none => exact scanned_new
        | some b => exact h isRead b hb
      have hnew : ∀ x : Option BufferConcatenator, (∀ b ∈ x, b.Scanned env) →
          (a.setBufConcat isRead
            (x.getD ((a.bufConcat isRead).getD BufferConcatenator.new))).Scanned env := by
        intro x hx dir b hb
        have hx' : (x.getD ((a.bufConcat isRead).getD BufferConcatenator.new)).Scanned env := by
          cases x with
          | none => exact hold
          | some b => exact hx b rfl
        cases isRead <;> cases dir
        · cases hb
          exact hx'
        · exact h true b hb
        · exact h false b hb
        · cases hb
          exact hx'
      refine hnew _ fun b hb => ?_
      cases buffer with
      | str s => exact hold.append hb
      | list l => cases hb

theorem keepsScanned_of_eq {w w' : Objects} (hl : w'.fileAccesses = w.fileAccesses) :
    KeepsScanned env w w' := fun h a ha => h a (hl ▸ ha)

theorem keepsScanned_modify {w : Objects} {f : FileAccess → FileAccess}
    (hf : ∀ a ∈ w.fileAccesses, a.Scanned env → (f a).Scanned env) :
    KeepsScanned env w { w with fileAccesses := w.fileAccesses.modify i f } := by
  intro h a ha
  obtain ⟨j, hj⟩ := List.getElem?_of_mem ha
  rw [List.getElem?_modify] at hj
  obtain ⟨b, hb, rfl⟩ := Option.map_eq_some_iff.mp hj
  have hmem := List.mem_of_getElem? hb
  split
  · exact hf b hmem (h b hmem)
  · exact h b hmem

theorem keepsScanned_updateAccess {f : FileAccess → FileAccess}
    (hf : ∀ a, FileAccess.Scanned env a → (f a).Scanned env) :
    Keeps (KeepsScanned env) (updateAccess i f) := fun _ => keepsScanned_modify fun a _ => hf a

theorem keepsScanned_analyseNewBuffer (isRead : Bool) (n : ℤ) (b : Option Arg) :
    Keeps (KeepsScanned env) (analyseNewBuffer env i isRead n b) := by
  intro w
  rw [analyseNewBuffer, run_get_bind]
  cases ha : w.fileAccesses[i]? with
  | none => exact Std.Refl.refl w
  | some a =>
    have hkeep : KeepsScanned env w { w with fileAccesses := w.fileAccesses.modify i fun _ =>
        (a.analyseNewBuffer env isRead n b).1 } := fun h =>
      keepsScanned_modify (fun _ _ _ => (h a (List.mem_of_getElem? ha)).analyse isRead n b) h
    dsimp only
    rw [updateAccess, run_modify_bind]
    split
    · exact hkeep
    · exact hkeep

theorem keepsScanned_setOpenTime (timeStamp : Text) :
    Keeps (KeepsScanned env) (setOpenTime env i timeStamp) := by
  refine .bind (keepsScanned_updateAccess fun a h => ?_) fun _ => fun w => ?_
  · rw [FileAccess.opened]
    dsimp only
    split <;> exact h
  · rw [run_get_bind]
    split
    · exact keepsScanned_of_eq rfl
    · split
      · exact keepsScanned_of_eq rfl
      · exact keepsScanned_of_eq rfl

theorem keepsScanned_setCloseTime (timeStamp : Text) :
    Keeps (KeepsScanned env) (setCloseTime env i timeStamp) := by
  refine .bind (keepsScanned_updateAccess fun a h => ?_) fun _ => fun w => ?_
  · rw [FileAccess.closed]
    split <;> exact h
  · rw [run_get_bind]
    split
    · exact keepsScanned_of_eq rfl
    · split
      · exact keepsScanned_of_eq rfl
      · split
        · exact keepsScanned_of_eq rfl
        · exact keepsScanned_of_eq rfl

theorem keepsScanned_accessStep {β : Type} {m : ObjM β} (h : AccessStep env i β m) :
    Keeps (KeepsScanned env) m := by
  cases h with
  | opens timeStamp => exact keepsScanned_setOpenTime timeStamp
  | closes timeStamp => exact keepsScanned_setCloseTime timeStamp
  | reads n b =>
    exact .bind (keepsScanned_updateAccess fun _ h => h) fun _ =>
      keepsScanned_analyseNewBuffer true n b
  | writes n b =>
    exact .bind (keepsScanned_updateAccess fun _ h => h) fun _ =>
      keepsScanned_analyseNewBuffer false n b

theorem keepsScanned_withFileAccess {pid : ℤ} {name : Text} {use : ℕ → ObjM Unit}
    (h : ∀ i, Built (AccessStep env i) (use i)) :
    Keeps (KeepsScanned env) (withFileAccess pid name use) := by
  refine .bind (fun w => ?_) fun i => .of_built (fun _ _ => keepsScanned_accessStep) (h i)
  rw [run_getFileAccess]
  intro hw a ha
  rw [fileAccesses_withAccess] at ha
  rcases List.mem_append.mp ha with ha | ha
  · exact hw a ha
  · split at ha
    · cases ha
    · rw [List.mem_singleton.mp ha]
      intro isRead b hb
      cases isRead <;> cases hb

/-! ## The factory -/

/-- **The factory keeps it.** -/
theorem scanned_of_factoryStep {id : CoreId} {core : BatchLetCore} {w w' : World}
    {r : Option Batch} (hstep : FactoryStep env id core w w' r) (h : Scanned env w.objects) :
    Scanned env w'.objects := by
  refine objects_of_factoryStep hstep (fun m hm c o => ?_) h
  refine Keeps.of_built (R := KeepsScanned env) (fun _ _ hs => ?_)
    (built_batchModels hm env c True True (fun _ _ => trivial) fun _ => trivial) o
  exact keeps_modelStep_of_access (fun _ _ hl _ => keepsScanned_of_eq hl)
    (fun _ _ huse => keepsScanned_withFileAccess huse) hs

theorem scanned_admitted {w : Objects} (h : Scanned env w) (core : BatchLetCore) :
    Scanned env (w.admitted env core) := by
  have hl : (w.admitted env core).fileAccesses = w.fileAccesses :=
    (sameAccesses_toProcess env w core.pid).accesses
  exact fun a ha => h a (hl ▸ ha)

end

end Survol.Dockit
