import Survol.Dockit.CallModels

/-!
# Calls that are forgotten

The constructors of some models return before the batch is initialised: the call
failed, or does not matter. Such a call leaves no batch, and no trace in the
objects, except that `getenv` keeps the value of a variable.

## Main definitions

* `returnsEarly` — which calls these are, by their function.
* `EarlyIff m b` — the model `m` returns early exactly when `b` is true.
* `earlyIff_batchModels` — `returnsEarly` is right for all the models.
-/

open PyText

namespace Survol.Dockit

/-! ## The conditions -/

/-- A test on the returned value. -/
def retIs (p : Text → Bool) (core : BatchLetCore) : Bool := core.retValue.any p

/-- An argument that is a text. -/
def textArg? (core : BatchLetCore) (idx : ℕ) : Option Text :=
  match core.parsedArgs[idx]? with
  | some (Arg.str s) => some s
  | _ => none

/-- The flags of an `mmap` are those of an anonymous map. -/
def isAnonymousMap (core : BatchLetCore) : Bool :=
  (textArg? core 3).any fun s => contains s mapAnonymous

/-- The `mmap` of the descriptor `-1`. -/
def isMapOfNothing (core : BatchLetCore) : Bool :=
  (textArg? core 3).isSome && textArg? core 4 = some "-1".toList

/-- The functions whose model can return early, and when. -/
def forgottenCalls : Dict Text (BatchLetCore → Bool) :=
  [("open@SYS".toList, fun core => retIs (invalidReturnedFileDescriptor · core.tracer) core),
    ("stat@SYS".toList, fun core => retIs (invalidReturnedFileDescriptor · core.tracer) core),
    ("execve@SYS".toList, retIs fun s => contains s "ENOENT".toList),
    ("close@SYS".toList, retIs fun s => contains s "EBADF".toList),
    ("ioctl@SYS".toList, retIs fun s => contains s "EBADF".toList),
    ("fstat@SYS".toList, retIs fun s => contains s "EBADF".toList),
    ("read@SYS".toList, retIs fun s => (int? s).isNone),
    ("mmap@SYS".toList, fun core => isAnonymousMap core || isMapOfNothing core),
    ("mmap2@SYS".toList, isAnonymousMap),
    ("getenv".toList, fun core => (textArg? core 0).isSome)]

/-- The model of `funcNam` returns early on a core. -/
def returnsEarly (funcNam : Text) (core : BatchLetCore) : Bool :=
  match forgottenCalls.get? funcNam with
  | some p => p core
  | none => false

theorem returnsEarly_of_some {funcNam : Text} {p : BatchLetCore → Bool}
    (h : forgottenCalls.get? funcNam = some p) (core : BatchLetCore) :
    returnsEarly funcNam core = p core := by
  rw [returnsEarly, h]

theorem returnsEarly_of_not_mem {funcNam : Text} (h : funcNam ∉ forgottenCalls.keys)
    (core : BatchLetCore) : returnsEarly funcNam core = false := by
  rw [returnsEarly, (Dict.get?_eq_none_iff _ _).mpr h]

/-! ## Models that never return early -/

/-- A model that never returns early. -/
def NeverEarly (m : ModelM) : Prop := ∀ o o', m.run o ≠ (.ok none, o')

theorem NeverEarly.some (args : List SigArg) : NeverEarly (pure (Option.some args)) := by
  intro o o' h
  cases h

theorem NeverEarly.raise (e : PyExn) : NeverEarly (.raise e) := by
  intro o o' h
  cases h

theorem NeverEarly.bind {α : Type} {m : ObjM α} {f : α → ModelM} (h : ∀ a, NeverEarly (f a)) :
    NeverEarly (m >>= f) := by
  intro o o' hrun
  rw [Py.run_bind_eq_ok] at hrun
  obtain ⟨a, o₁, -, hrun⟩ := hrun
  exact h a o₁ o' hrun

theorem NeverEarly.ite {c : Prop} [Decidable c] {m m' : ModelM} (h : NeverEarly m)
    (h' : NeverEarly m') : NeverEarly (if c then m else m') := by
  split
  · exact h
  · exact h'

/-- The model returns early exactly when `b` is true. The change of the objects, if
there is one, is one that is made only once. -/
structure EarlyIff (m : ModelM) (b : Bool) : Prop where
  early : b = true → ∃ f : Objects → Objects, (∀ o, f (f o) = f o) ∧ ∀ o, m.run o = (.ok none, f o)
  only : ∀ o o', m.run o = (.ok none, o') → b = true

theorem EarlyIff.never {m : ModelM} (h : NeverEarly m) : EarlyIff m false :=
  ⟨nofun, fun o o' hrun => absurd hrun (h o o')⟩

theorem EarlyIff.none : EarlyIff (pure Option.none) true :=
  ⟨fun _ => ⟨id, fun _ => rfl, fun _ => rfl⟩, fun _ _ _ => rfl⟩

theorem EarlyIff.ite {c : Prop} [Decidable c] {m : ModelM} {b : Bool} (h : ¬ c → EarlyIff m b) :
    EarlyIff (if c then pure Option.none else m) (decide c || b) := by
  by_cases hc : c
  · simpa [hc] using EarlyIff.none
  · simpa [hc] using h hc

/-- A test of the returned value comes first. -/
theorem EarlyIff.ret {core : BatchLetCore} {p : Text → Bool} {f : Text → ModelM}
    (h : ∀ s, NeverEarly (f s)) :
    EarlyIff (retText core >>= fun s => if p s then pure Option.none else f s) (retIs p core) := by
  unfold retText retIs
  cases core.retValue with
  | none => exact .never (.raise _)
  | some s =>
    change EarlyIff (if p s = true then pure Option.none else f s) (p s)
    simpa using EarlyIff.ite (c := p s) fun _ => .never (h s)

/-- A text argument is read first. -/
theorem EarlyIff.text {core : BatchLetCore} {idx : ℕ} {f : Text → ModelM} {b : Text → Bool}
    (h : ∀ s, EarlyIff (f s) (b s)) :
    EarlyIff (parsedArg core idx >>= fun a => argText a >>= f) ((textArg? core idx).any b) := by
  unfold parsedArg textArg?
  cases core.parsedArgs[idx]? with
  | none => exact .never (.raise _)
  | some a =>
    cases a with
    | str s => exact h s
    | list l => exact .never (.raise _)

/-! ## The models -/

section
variable {env : Env} {core : BatchLetCore}

theorem neverEarly_opening (filObj : Text) : NeverEarly (opening env core filObj) :=
  .bind fun _ => .some _

theorem neverEarly_readFirst (n : ℤ) : NeverEarly (readFirst env core n) :=
  .bind fun _ => .bind fun _ => .some _

theorem neverEarly_writeFirst (b : ObjM (Option Arg)) : NeverEarly (writeFirst env core b) :=
  .bind fun _ => .bind fun _ => .some _

theorem neverEarly_streamModel (idx : ℕ) : NeverEarly (streamModel env core idx) :=
  .bind fun _ => .some _

theorem neverEarly_pathModel : NeverEarly (pathModel env core) :=
  .bind fun _ => .bind fun _ => .some _

theorem neverEarly_newChild (aPid : ℤ) (isThread : Bool) :
    NeverEarly (newChild env core aPid isThread) :=
  .bind fun _ => .bind fun _ => .bind fun _ => .some _

theorem neverEarly_executed (name : Text) (l : Option Arg) : NeverEarly (executed core name l) :=
  .bind fun _ => .bind fun _ => .bind fun _ => .some _

theorem neverEarly_pipeModel : NeverEarly (pipeModel env core) :=
  .bind fun _ => .bind fun _ => .bind fun _ => .bind fun _ => .bind fun _ => .some _

theorem neverEarly_addressModel : NeverEarly (addressModel env core) :=
  .bind fun _ => .bind fun _ => .some _

theorem neverEarly_batchLetSysOpenat : NeverEarly (batchLetSysOpenat env core) :=
  .bind fun _ => .bind neverEarly_opening

theorem neverEarly_batchLetSysPreadx : NeverEarly (batchLetSysPreadx env core) :=
  .bind fun _ => .bind fun _ => .bind fun _ => .some _

theorem neverEarly_batchLetSysPread64x : NeverEarly (batchLetSysPread64x env core) :=
  .bind neverEarly_readFirst

theorem neverEarly_batchLetSysDup : NeverEarly (batchLetSysDup env core) :=
  .bind fun _ => .bind fun _ => .bind fun _ => .some _

theorem neverEarly_batchLetSysFchdir : NeverEarly (batchLetSysFchdir env core) :=
  .bind fun _ => .bind fun _ => .some _

theorem neverEarly_batchLetSysNewfstatat : NeverEarly (batchLetSysNewfstatat env core) :=
  .bind fun _ => .bind fun _ => .bind fun _ => .bind fun _ => .bind fun _ => .bind fun _ => .some _

theorem neverEarly_batchLetSysClone : NeverEarly (batchLetSysClone env core) := by
  unfold batchLetSysClone
  cases core.tracer with
  | ltrace => exact .bind fun aPid => neverEarly_newChild aPid true
  | strace =>
    exact .bind fun aPid => .bind fun _ => .bind fun _ => neverEarly_newChild aPid _

theorem neverEarly_batchLetSysVfork : NeverEarly (batchLetSysVfork env core) :=
  .bind fun aPid => neverEarly_newChild aPid false

theorem neverEarly_batchLetSysWait4 : NeverEarly (batchLetSysWait4 env core) := by
  refine .bind fun waited => ?_
  cases waited with
  | none => exact .some _
  | some aPid => exact .ite (.some _) <| .bind fun _ => .bind fun _ => .some _

theorem neverEarly_batchLetLibLibcStartMain : NeverEarly (batchLetLibLibcStartMain env core) :=
  .bind fun _ => .bind fun _ => .bind fun name => neverEarly_executed name _

theorem neverEarly_batchLetSysPoll : NeverEarly (batchLetSysPoll env core) := by
  refine .bind fun arrStrms => ?_
  split
  · exact .bind fun _ => .bind fun _ => .bind fun _ => .some _
  · exact .some _

theorem neverEarly_batchLetSysSelect : NeverEarly (batchLetSysSelect env core) := by
  unfold batchLetSysSelect
  cases core.tracer with
  | strace =>
    exact .bind fun _ => .bind fun _ => .bind fun _ => .bind fun _ => .bind fun _ => .bind fun _ =>
      .some _
  | ltrace => exact .some _

theorem neverEarly_batchLetSysSocket : NeverEarly (batchLetSysSocket env core) :=
  .bind fun _ => .bind fun _ => .some _

theorem earlyIff_batchLetSysOpen : EarlyIff (batchLetSysOpen env core)
    (retIs (invalidReturnedFileDescriptor · core.tracer) core) :=
  .ret fun _ => .bind neverEarly_opening

theorem earlyIff_batchLetSysStat : EarlyIff (batchLetSysStat env core)
    (retIs (invalidReturnedFileDescriptor · core.tracer) core) :=
  .ret fun _ => neverEarly_pathModel

theorem earlyIff_batchLetSysExecve :
    EarlyIff (batchLetSysExecve env core) (retIs (fun s => contains s "ENOENT".toList) core) :=
  .ret fun _ => .bind fun _ => .bind fun name => .bind (neverEarly_executed name)

theorem earlyIff_batchLetSysClose :
    EarlyIff (batchLetSysClose env core) (retIs (fun s => contains s "EBADF".toList) core) :=
  .ret fun _ => .bind fun _ => .bind fun _ => .some _

theorem earlyIff_validStreamModel :
    EarlyIff (validStreamModel env core) (retIs (fun s => contains s "EBADF".toList) core) :=
  .ret fun _ => neverEarly_streamModel 0

theorem earlyIff_batchLetSysRead :
    EarlyIff (batchLetSysRead env core) (retIs (fun s => (int? s).isNone) core) := by
  unfold batchLetSysRead retIs
  cases core.retValue with
  | none => exact .never (.raise _)
  | some s =>
    simp only [Option.any_some]
    cases int? s with
    | none => exact .none
    | some n => exact .never (neverEarly_readFirst n)

theorem earlyIff_batchLetSysMmap2 : EarlyIff (batchLetSysMmap2 env core) (isAnonymousMap core) := by
  refine .text fun s => ?_
  simpa using EarlyIff.ite (c := contains s mapAnonymous) fun _ => .never (neverEarly_streamModel 4)

/-- The second test of an `mmap`. -/
theorem earlyIff_mapOfNothing :
    EarlyIff (do if (← parsedArg core 4) = .str "-1".toList then return none else streamModel env core 4)
      (textArg? core 4 = some "-1".toList) := by
  unfold parsedArg textArg?
  cases core.parsedArgs[4]? with
  | none => exact .never (.raise _)
  | some a =>
    change EarlyIff (if a = .str "-1".toList then pure none else streamModel env core 4) _
    have h := EarlyIff.ite (c := a = .str "-1".toList) fun _ =>
      EarlyIff.never (@neverEarly_streamModel env core 4)
    cases a with
    | str s => simpa using h
    | list l => simpa using h

theorem earlyIff_batchLetSysMmap :
    EarlyIff (batchLetSysMmap env core) (isAnonymousMap core || isMapOfNothing core) := by
  have hb : (isAnonymousMap core || isMapOfNothing core) = (textArg? core 3).any fun s =>
      decide (contains s mapAnonymous) || decide (textArg? core 4 = some "-1".toList) := by
    unfold isAnonymousMap isMapOfNothing
    cases textArg? core 3 <;> simp
  rw [hb]
  exact .text fun s => .ite fun _ => earlyIff_mapOfNothing

theorem earlyIff_batchLetLibGetenv :
    EarlyIff (batchLetLibGetenv core) (textArg? core 0).isSome := by
  unfold batchLetLibGetenv parsedArg textArg?
  cases core.parsedArgs[0]? with
  | none => exact .never (.raise _)
  | some a =>
    cases a with
    | list l => exact .never (.raise _)
    | str s =>
      refine ⟨fun _ => ⟨_, fun o => ?_, fun o => rfl⟩, fun _ _ _ => rfl⟩
      simp

end

/-! ## The table -/

/-- `returnsEarly` is right for the model of a function. -/
def EarlyEntry (name : Text) (m : CallModel) : Prop :=
  ∀ env core, EarlyIff (m.build env core) (returnsEarly name core)

theorem earlyEntry_never {name : Text} (hname : name ∉ forgottenCalls.keys) {m : CallModel}
    (h : ∀ env core, NeverEarly (m.build env core)) : EarlyEntry name m := by
  intro env core
  rw [returnsEarly_of_not_mem hname]
  exact .never (h env core)

theorem earlyEntry_of_some {name : Text} {p : BatchLetCore → Bool}
    (hname : forgottenCalls.get? name = some p) {m : CallModel}
    (h : ∀ env core, EarlyIff (m.build env core) (p core)) : EarlyEntry name m := by
  intro env core
  rw [returnsEarly_of_some hname]
  exact h env core

/-- The models of the system calls. -/
theorem early_sysModels : ∀ p ∈ sysModels, EarlyEntry (p.1 ++ sysSuffix) p.2 := by
  have hstream : ∀ {name : Text}, name ∉ forgottenCalls.keys →
      EarlyEntry name (.plain fun env core => streamModel env core 0) :=
    fun hname => earlyEntry_never hname fun _ _ => neverEarly_streamModel 0
  simp only [sysModels, List.forall_mem_cons]
  exact ⟨earlyEntry_of_some rfl fun _ _ => earlyIff_batchLetSysOpen,
    earlyEntry_never (by decide) fun _ _ => neverEarly_batchLetSysOpenat,
    earlyEntry_of_some rfl fun _ _ => earlyIff_batchLetSysClose,
    earlyEntry_of_some rfl fun _ _ => earlyIff_batchLetSysRead,
    earlyEntry_never (by decide) fun _ _ => neverEarly_batchLetSysPreadx,
    earlyEntry_never (by decide) fun _ _ => neverEarly_batchLetSysPread64x,
    earlyEntry_never (by decide) fun _ _ => neverEarly_writeFirst _,
    earlyEntry_never (by decide) fun _ _ => neverEarly_writeFirst _,
    earlyEntry_of_some rfl fun _ _ => earlyIff_validStreamModel,
    earlyEntry_of_some rfl fun _ _ => earlyIff_batchLetSysStat,
    earlyEntry_never (by decide) fun _ _ => neverEarly_pathModel,
    earlyEntry_never (by decide) fun _ _ => neverEarly_pathModel,
    earlyEntry_never (by decide) fun _ _ => neverEarly_batchLetSysDup,
    hstream (by decide),
    earlyEntry_of_some rfl fun _ _ => earlyIff_batchLetSysMmap,
    earlyEntry_never (by decide) fun _ _ => .some _,
    earlyEntry_of_some rfl fun _ _ => earlyIff_batchLetSysMmap2,
    earlyEntry_of_some rfl fun _ _ => earlyIff_validStreamModel,
    hstream (by decide),
    hstream (by decide),
    hstream (by decide),
    earlyEntry_never (by decide) fun _ _ => neverEarly_batchLetSysFchdir,
    hstream (by decide),
    hstream (by decide),
    hstream (by decide),
    hstream (by decide),
    hstream (by decide),
    hstream (by decide),
    earlyEntry_never (by decide) fun _ _ => neverEarly_batchLetSysClone,
    earlyEntry_never (by decide) fun _ _ => neverEarly_batchLetSysVfork,
    earlyEntry_of_some rfl fun _ _ => earlyIff_batchLetSysExecve,
    earlyEntry_never (by decide) fun _ _ => neverEarly_batchLetSysWait4,
    earlyEntry_never (by decide) fun _ _ => .some _,
    earlyEntry_never (by decide) fun _ _ => neverEarly_batchLetSysNewfstatat,
    hstream (by decide),
    hstream (by decide),
    hstream (by decide),
    hstream (by decide),
    hstream (by decide),
    hstream (by decide),
    hstream (by decide),
    hstream (by decide),
    earlyEntry_never (by decide) fun _ _ => neverEarly_batchLetSysPoll,
    earlyEntry_never (by decide) fun _ _ => neverEarly_batchLetSysSelect,
    earlyEntry_never (by decide) fun _ _ => .some _,
    earlyEntry_never (by decide) fun _ _ => neverEarly_batchLetSysSocket,
    earlyEntry_never (by decide) fun _ _ => neverEarly_addressModel,
    earlyEntry_never (by decide) fun _ _ => neverEarly_addressModel,
    hstream (by decide),
    earlyEntry_never (by decide) fun _ _ => neverEarly_pipeModel,
    earlyEntry_never (by decide) fun _ _ => neverEarly_pipeModel,
    hstream (by decide),
    fun _ h => absurd h List.not_mem_nil⟩

/-- The models of the library calls. -/
theorem early_libModels : ∀ p ∈ libModels, EarlyEntry p.1 p.2 := by
  simp only [libModels, List.forall_mem_cons]
  exact ⟨earlyEntry_never (by decide) fun _ _ => neverEarly_batchLetLibLibcStartMain,
    earlyEntry_of_some rfl fun _ _ => earlyIff_batchLetLibGetenv,
    fun _ h => absurd h List.not_mem_nil⟩

/-- **`returnsEarly` is right for every model of the table.** -/
theorem early_batchModels {funcNam : Text} {m : CallModel} (h : batchModels funcNam = .model m) :
    EarlyEntry funcNam m := by
  rcases mem_of_batchModels h with ⟨name, rfl, hm⟩ | hm
  · exact early_sysModels _ hm
  · exact early_libModels _ hm

end Survol.Dockit
