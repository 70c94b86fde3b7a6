import Survol.Dockit.EarlyReturns
import Survol.Lib.Splitting

/-!
# Calls that keep no object

The batch of an interrupted call has the texts that were printed as its arguments. The batch of a
call that is complete has the files and the processes that its model found, so that both are never
the same call. Some models find no file and no process: `plainArgs?` gives what they keep.

## Main definitions

* `plainArgs?` — the arguments that are kept, when there is no object among them.
* `NotPrinted` — arguments that are not those of a text.
* `yields_batchModels` — `plainArgs?` is right for all the models.
-/

open PyText

namespace Survol.Dockit

/-! ## The conditions -/

/-- No process was waited for. -/
def waitsForNone (core : BatchLetCore) : Bool :=
  retIs (fun s => match core.tracer with
    | .ltrace => contains s "-10".toList || decide (hexInt? s = some 0)
    | .strace => contains s "ECHILD".toList || (int? (s.takeWhile (· ≠ ' '))).all (· = 0)) core

/-- The streams of a `poll` are looked at. -/
def pollsStreams (core : BatchLetCore) : Bool :=
  match core.tracer, core.parsedArgs[0]? with
  | .strace, some (Arg.list _) => true
  | _, _ => false

/-- An array without a descriptor. -/
def Arg.namesNothing (a : Arg) : Bool := a = .str "NULL".toList || a.isEmpty

/-- The three arrays of a `select` are looked at, and one of them has a descriptor. -/
def selectsStreams (core : BatchLetCore) : Bool :=
  core.tracer = .strace && !([1, 2, 3].all fun idx =>
    core.parsedArgs[idx]?.any Arg.namesNothing)

/-- What a `select` without a descriptor keeps. -/
def noStreams (core : BatchLetCore) : List SigArg :=
  match core.tracer with
  | .strace => [.list [], .list [], .list []]
  | .ltrace => []

/-- The functions whose model can keep no object, with what it keeps then. -/
def plainCalls : Dict Text (BatchLetCore → Option (List SigArg)) :=
  [("munmap@SYS".toList, fun _ => some []),
    ("exit_group@SYS".toList, fun _ => some []),
    ("setsockopt@SYS".toList, fun core => some [(core.retValue.map .str).getD .null]),
    ("wait4@SYS".toList, fun core =>
      if waitsForNone core then some (Arg.sigList core.parsedArgs) else none),
    ("poll@SYS".toList, fun core => if pollsStreams core then none else some []),
    ("select@SYS".toList, fun core =>
      if selectsStreams core then none else some (noStreams core))]

/-- The significant arguments of a call, when its model keeps no object. -/
def plainArgs? (funcNam : Text) (core : BatchLetCore) : Option (List SigArg) :=
  (plainCalls.get? funcNam).bind fun p => p core

theorem plainArgs?_of_some {funcNam : Text} {p : BatchLetCore → Option (List SigArg)}
    (h : plainCalls.get? funcNam = some p) (core : BatchLetCore) :
    plainArgs? funcNam core = p core := by
  rw [plainArgs?, h]
  rfl

/-! ## Arguments that are not printed -/

/-- Arguments that are not those of a printed call. -/
def NotPrinted (args : List SigArg) : Prop := ∀ l, Arg.sigList l ≠ args

theorem sig_eq_of_mem_sigList {l : List Arg} {a : SigArg} (h : a ∈ Arg.sigList l) :
    ∃ b : Arg, b.sig = a := by
  induction l with
  | nil => cases h
  | cons b l ih =>
    rw [Arg.sigList, List.mem_cons] at h
    rcases h with rfl | h
    · exact ⟨b, rfl⟩
    · exact ih h

theorem notPrinted_of_file {args : List SigArg} {name : Text} (h : .file name ∈ args) :
    NotPrinted args := by
  rintro l rfl
  obtain ⟨b, hb⟩ := sig_eq_of_mem_sigList h
  cases b <;> cases hb

theorem notPrinted_of_process {args : List SigArg} {pid : ℤ} (h : .process pid ∈ args) :
    NotPrinted args := by
  rintro l rfl
  obtain ⟨b, hb⟩ := sig_eq_of_mem_sigList h
  cases b <;> cases hb

theorem notPrinted_of_list {args l : List SigArg} (h : .list l ∈ args) (hl : NotPrinted l) :
    NotPrinted args := by
  rintro l' rfl
  obtain ⟨b, hb⟩ := sig_eq_of_mem_sigList h
  cases b with
  | str s => cases hb
  | list l' => exact hl l' (SigArg.list.inj hb)

theorem notPrinted_files {names : List Text} (h : names ≠ []) :
    NotPrinted (names.map SigArg.file) := by
  obtain ⟨name, names, rfl⟩ := List.exists_cons_of_ne_nil h
  exact notPrinted_of_file List.mem_cons_self

/-! ## What a model yields -/

/-- The model keeps `plain`, or something that is not printed. -/
def Yields (m : ModelM) (plain : Option (List SigArg)) : Prop :=
  ∀ o args o', m.run o = (.ok (some args), o') → plain = some args ∨ NotPrinted args

theorem Yields.none {p : Option (List SigArg)} : Yields (pure Option.none) p := nofun

theorem Yields.raise {e : PyExn} {p : Option (List SigArg)} : Yields (.raise e) p := nofun

theorem Yields.plain {args : List SigArg} : Yields (pure (some args)) (some args) := by
  rintro o args o' ⟨⟩
  exact .inl rfl

theorem Yields.object {args : List SigArg} {p : Option (List SigArg)} (h : NotPrinted args) :
    Yields (pure (some args)) p := by
  rintro o args o' ⟨⟩
  exact .inr h

theorem Yields.bind {α : Type} {m : ObjM α} {f : α → ModelM} {p : Option (List SigArg)}
    (h : ∀ a, Yields (f a) p) : Yields (m >>= f) p := by
  intro o args o' hrun
  rw [Py.run_bind_eq_ok] at hrun
  obtain ⟨a, o₁, -, hrun⟩ := hrun
  exact h a o₁ args o' hrun

theorem Yields.ite {c : Prop} [Decidable c] {m m' : ModelM} {p : Option (List SigArg)}
    (h : c → Yields m p) (h' : ¬ c → Yields m' p) : Yields (if c then m else m') p := by
  split
  · exact h ‹_›
  · exact h' ‹_›

/-- An argument is read first. -/
theorem Yields.arg {core : BatchLetCore} {idx : ℕ} {f : Arg → ModelM}
    {p : Option (List SigArg)} (h : ∀ a, core.parsedArgs[idx]? = some a → Yields (f a) p) :
    Yields (parsedArg core idx >>= f) p := by
  unfold parsedArg
  cases harg : core.parsedArgs[idx]? with
  | none => exact .raise
  | some a => exact h a harg

/-! ## The models -/

section
variable {env : Env} {core : BatchLetCore} {p : Option (List SigArg)}

theorem yields_file {m : ObjM Text} : Yields (m >>= fun name => pure (some [.file name])) p :=
  .bind fun _ => .object (notPrinted_of_file List.mem_cons_self)

theorem yields_opening (filObj : Text) : Yields (opening env core filObj) p :=
  .bind fun _ => .object (notPrinted_of_file List.mem_cons_self)

theorem yields_readFirst (n : ℤ) : Yields (readFirst env core n) p :=
  .bind fun _ => .bind fun _ => .object (notPrinted_of_file List.mem_cons_self)

theorem yields_writeFirst (b : ObjM (Option Arg)) : Yields (writeFirst env core b) p :=
  .bind fun _ => .bind fun _ => .object (notPrinted_of_file List.mem_cons_self)

theorem yields_streamModel (idx : ℕ) : Yields (streamModel env core idx) p := yields_file

theorem yields_validStreamModel : Yields (validStreamModel env core) p :=
  .bind fun _ => .ite (fun _ => .none) fun _ => yields_streamModel 0

theorem yields_pathModel : Yields (pathModel env core) p := .bind fun _ => yields_file

theorem yields_newChild (aPid : ℤ) (isThread : Bool) : Yields (newChild env core aPid isThread) p :=
  .bind fun _ => .bind fun _ => .bind fun _ =>
    .object (notPrinted_of_process List.mem_cons_self)

theorem yields_executed (name : Text) (l : Option Arg) : Yields (executed core name l) p :=
  .bind fun _ => .bind fun _ => .bind fun _ => .object (notPrinted_of_file List.mem_cons_self)

theorem yields_pipeModel : Yields (pipeModel env core) p :=
  .bind fun _ => .bind fun _ => .bind fun _ => .bind fun _ => .bind fun _ =>
    .object (notPrinted_of_file List.mem_cons_self)

theorem yields_addressModel : Yields (addressModel env core) p :=
  .bind fun _ => .bind fun _ => .object (notPrinted_of_file List.mem_cons_self)

theorem yields_batchLetSysOpen : Yields (batchLetSysOpen env core) p :=
  .bind fun _ => .ite (fun _ => .none) fun _ => .bind yields_opening

theorem yields_batchLetSysOpenat : Yields (batchLetSysOpenat env core) p :=
  .bind fun _ => .bind yields_opening

theorem yields_batchLetSysClose : Yields (batchLetSysClose env core) p :=
  .bind fun _ => .ite (fun _ => .none) fun _ => .bind fun _ => .bind fun _ =>
    .object (notPrinted_of_file List.mem_cons_self)

theorem yields_batchLetSysRead : Yields (batchLetSysRead env core) p := by
  unfold batchLetSysRead
  cases core.retValue with
  | none => exact .raise
  | some s =>
    dsimp only
    split
    · exact .none
    · exact yields_readFirst _

theorem yields_batchLetSysPreadx : Yields (batchLetSysPreadx env core) p :=
  .bind fun _ => .bind fun _ => .bind fun _ =>
    .object (notPrinted_of_file List.mem_cons_self)

theorem yields_batchLetSysPread64x : Yields (batchLetSysPread64x env core) p :=
  .bind yields_readFirst

theorem yields_batchLetSysStat : Yields (batchLetSysStat env core) p :=
  .bind fun _ => .ite (fun _ => .none) fun _ => yields_pathModel

theorem yields_batchLetSysDup : Yields (batchLetSysDup env core) p :=
  .bind fun _ => .bind fun _ => .bind fun _ => .object (notPrinted_of_file List.mem_cons_self)

theorem yields_batchLetSysMmap : Yields (batchLetSysMmap env core) p :=
  .bind fun _ => .bind fun _ => .ite (fun _ => .none) fun _ => .bind fun _ =>
    .ite (fun _ => .none) fun _ => yields_streamModel 4

theorem yields_batchLetSysMmap2 : Yields (batchLetSysMmap2 env core) p :=
  .bind fun _ => .bind fun _ => .ite (fun _ => .none) fun _ => yields_streamModel 4

theorem yields_batchLetSysFchdir : Yields (batchLetSysFchdir env core) p :=
  .bind fun _ => .bind fun _ => .object (notPrinted_of_file List.mem_cons_self)

theorem yields_batchLetSysNewfstatat : Yields (batchLetSysNewfstatat env core) p :=
  .bind fun _ => .bind fun _ => .bind fun _ => .bind fun _ => .bind fun _ => yields_file

theorem yields_batchLetSysClone : Yields (batchLetSysClone env core) p := by
  unfold batchLetSysClone
  cases core.tracer with
  | ltrace => exact .bind fun aPid => yields_newChild aPid true
  | strace => exact .bind fun aPid => .bind fun _ => .bind fun _ => yields_newChild aPid _

theorem yields_batchLetSysVfork : Yields (batchLetSysVfork env core) p :=
  .bind fun aPid => yields_newChild aPid false

theorem yields_batchLetSysExecve : Yields (batchLetSysExecve env core) p :=
  .bind fun _ => .ite (fun _ => .none) fun _ => .bind fun _ => .bind fun name =>
    .bind fun l => yields_executed name l

theorem yields_batchLetLibLibcStartMain : Yields (batchLetLibLibcStartMain env core) p :=
  .bind fun _ => .bind fun _ => .bind fun name => yields_executed name _

theorem yields_batchLetSysSocket : Yields (batchLetSysSocket env core) p :=
  .bind fun _ => yields_file

theorem yields_batchLetLibGetenv : Yields (batchLetLibGetenv core) p :=
  .bind fun _ => .bind fun _ => .bind fun _ => .none

/-- What is kept of the process that was waited for. -/
theorem yields_waited (waited : Option ℤ) : waited.all (· = 0) = waitsForNone core →
    Yields (match waited with
      | none => pure (some (Arg.sigList core.parsedArgs))
      | some aPid =>
        if aPid = 0 then pure (some (Arg.sigList core.parsedArgs)) else do
          toObjectPathCIMProcess env aPid
          waitProcessEnd aPid core.timeStart core.pid
          return some [.process aPid])
      (if waitsForNone core then some (Arg.sigList core.parsedArgs) else none) := by
  intro hnone
  rcases waited with _ | aPid
  · rw [← hnone]
    exact .plain
  · refine .ite (fun hzero => ?_) fun _ => .bind fun _ => .bind fun _ =>
      .object (notPrinted_of_process List.mem_cons_self)
    rw [← hnone, if_pos (by simpa using hzero)]
    exact .plain

/-- What a `wait4` gives, when it has a result. -/
theorem yields_batchLetSysWait4 : Yields (batchLetSysWait4 env core)
    (if waitsForNone core then some (Arg.sigList core.parsedArgs) else none) := by
  intro o args o' hrun
  rw [batchLetSysWait4, Py.run_bind_eq_ok] at hrun
  obtain ⟨waited, o₁, hwait, hrun⟩ := hrun
  refine yields_waited waited ?_ o₁ args o' hrun
  unfold waitedPid retText at hwait
  unfold waitsForNone retIs
  cases hret : core.retValue with
  | none =>
    rw [hret] at hwait
    cases hwait
  | some s =>
    rw [hret, Py.run_ofOption_some_bind] at hwait
    rw [Option.any_some]
    cases htracer : core.tracer with
    | ltrace =>
      simp only [htracer] at hwait ⊢
      split at hwait
      · cases hwait
        simp_all
      · rename_i hten
        cases hint : hexInt? s with
        | none =>
          rw [hint] at hwait
          cases hwait
        | some n =>
          rw [hint] at hwait
          cases hwait
          simp_all
    | strace =>
      simp only [htracer] at hwait ⊢
      split at hwait
      · cases hwait
        simp_all
      · cases hwait
        simp_all

theorem yields_batchLetSysPoll : Yields (batchLetSysPoll env core)
    (if pollsStreams core then none else some []) := by
  refine .arg fun a ha => ?_
  unfold pollsStreams
  rw [ha]
  cases core.tracer with
  | ltrace => exact .plain
  | strace =>
    cases a with
    | str s => exact .plain
    | list streams =>
      exact .bind fun _ => .bind fun _ => .bind fun _ =>
        .object (notPrinted_of_list List.mem_cons_self (notPrinted_of_file List.mem_cons_self))

/-! ## The arrays of a `select` -/

theorem eq_nil_of_run_forEach {α β : Type} {f : α → ObjM β} {l : List α} {bs : List β}
    {o o' : Objects} (h : (Py.forEach f l).run o = (.ok bs, o')) : bs = [] ↔ l = [] := by
  cases l with
  | nil =>
    cases h
    simp
  | cons a l =>
    rw [Py.forEach, Py.run_bind_eq_ok] at h
    obtain ⟨b, o₁, -, h⟩ := h
    rw [Py.run_bind_eq_ok] at h
    obtain ⟨bs', o₂, -, h⟩ := h
    cases h
    simp

theorem forall_of_run_forEach {α β : Type} {P : β → Prop} {f : α → ObjM β}
    (hf : ∀ a b o o', (f a).run o = (.ok b, o') → P b) {l : List α} {bs : List β} {o o' : Objects}
    (h : (Py.forEach f l).run o = (.ok bs, o')) : ∀ b ∈ bs, P b := by
  induction l generalizing bs o with
  | nil =>
    cases h
    exact List.forall_mem_nil P
  | cons a l ih =>
    rw [Py.forEach, Py.run_bind_eq_ok] at h
    obtain ⟨b, o₁, hb, h⟩ := h
    rw [Py.run_bind_eq_ok] at h
    obtain ⟨bs', o₂, hbs, h⟩ := h
    cases h
    exact List.forall_mem_cons.mpr ⟨hf a b o o₁ hb, ih hbs⟩

/-- The files of an array: there is none only when the array is empty. -/
theorem files_of_arrFdNameToArrString {a : Arg} {x : SigArg} {o o' : Objects}
    (h : (arrFdNameToArrString env core a).run o = (.ok x, o')) :
    ∃ names : List Text, x = .list (names.map .file) ∧ (names = [] ↔ a.namesNothing = true) := by
  unfold arrFdNameToArrString at h
  split at h
  · rename_i hnull
    cases h
    exact ⟨[], rfl, by simp [Arg.namesNothing, hnull]⟩
  · rename_i hnull
    rw [Py.run_bind_eq_ok] at h
    obtain ⟨filStrms, o₁, hall, h⟩ := h
    cases h
    refine ⟨filStrms.flatten, rfl, ?_⟩
    have hne : ∀ b ∈ filStrms, b ≠ [] := by
      refine forall_of_run_forEach (fun fdName b o o' hb => ?_) hall
      rw [Py.run_bind_eq_ok] at hb
      obtain ⟨s, o₂, -, hb⟩ := hb
      exact fun hnil => splitOn_ne_nil ' ' s ((eq_nil_of_run_forEach hb).mp hnil)
    have hflatten : filStrms.flatten = [] ↔ filStrms = [] := by
      cases filStrms with
      | nil => simp
      | cons b l => simp [hne b List.mem_cons_self]
    rw [hflatten, eq_nil_of_run_forEach hall]
    rw [Arg.namesNothing, decide_eq_false hnull, Bool.false_or]
    cases a <;> simp [Arg.isEmpty]

theorem yields_batchLetSysSelect : Yields (batchLetSysSelect env core)
    (if selectsStreams core then none else some (noStreams core)) := by
  unfold batchLetSysSelect selectsStreams noStreams
  cases core.tracer with
  | ltrace => exact .plain
  | strace =>
    refine .arg fun a ha o args o' hrun => ?_
    rw [Py.run_bind_eq_ok] at hrun
    obtain ⟨x, o₁, hx, hrun⟩ := hrun
    refine Yields.arg (fun b hb o₁ args o' hrun => ?_) o₁ args o' hrun
    rw [Py.run_bind_eq_ok] at hrun
    obtain ⟨y, o₂, hy, hrun⟩ := hrun
    refine Yields.arg (fun c hc o₂ args o' hrun => ?_) o₂ args o' hrun
    rw [Py.run_bind_eq_ok] at hrun
    obtain ⟨z, o₃, hz, hrun⟩ := hrun
    cases hrun
    obtain ⟨names, rfl, hnames⟩ := files_of_arrFdNameToArrString hx
    obtain ⟨names', rfl, hnames'⟩ := files_of_arrFdNameToArrString hy
    obtain ⟨names'', rfl, hnames''⟩ := files_of_arrFdNameToArrString hz
    have hlist : ∀ l : List Text, l ≠ [] → .list (l.map .file) ∈
        [SigArg.list (names.map .file), .list (names'.map .file), .list (names''.map .file)] →
        NotPrinted
          [SigArg.list (names.map .file), .list (names'.map .file), .list (names''.map .file)] :=
      fun l hl hmem => notPrinted_of_list hmem (notPrinted_files hl)
    by_cases hall : names = [] ∧ names' = [] ∧ names'' = []
    · obtain ⟨rfl, rfl, rfl⟩ := hall
      refine .inl ?_
      simp [ha, hb, hc, hnames.mp rfl, hnames'.mp rfl, hnames''.mp rfl]
    · refine .inr ?_
      by_cases h : names = []
      · by_cases h' : names' = []
        · exact hlist names'' (fun h'' => hall ⟨h, h', h''⟩) (by simp)
        · exact hlist names' h' (by simp)
      · exact hlist names h (by simp)

end

/-! ## The table -/

/-- `plainArgs?` is right for the model of a function. -/
def PlainEntry (name : Text) (m : CallModel) : Prop :=
  ∀ env core, Yields (m.build env core) (plainArgs? name core)

theorem plainEntry_of_some {name : Text} {p : BatchLetCore → Option (List SigArg)}
    (hname : plainCalls.get? name = some p) {m : CallModel}
    (h : ∀ env core, Yields (m.build env core) (p core)) : PlainEntry name m := by
  intro env core
  rw [plainArgs?_of_some hname]
  exact h env core

/-- The models of the system calls. -/
theorem plain_sysModels : ∀ p ∈ sysModels, PlainEntry (p.1 ++ sysSuffix) p.2 := by
  have hstream : ∀ {name : Text}, PlainEntry name (.plain fun env core => streamModel env core 0) :=
    fun _ _ => yields_streamModel 0
  simp only [sysModels, List.forall_mem_cons]
  exact ⟨fun _ _ => yields_batchLetSysOpen,
    fun _ _ => yields_batchLetSysOpenat,
    fun _ _ => yields_batchLetSysClose,
    fun _ _ => yields_batchLetSysRead,
    fun _ _ => yields_batchLetSysPreadx,
    fun _ _ => yields_batchLetSysPread64x,
    fun _ _ => yields_writeFirst _,
    fun _ _ => yields_writeFirst _,
    fun _ _ => yields_validStreamModel,
    fun _ _ => yields_batchLetSysStat,
    fun _ _ => yields_pathModel,
    fun _ _ => yields_pathModel,
    fun _ _ => yields_batchLetSysDup,
    hstream,
    fun _ _ => yields_batchLetSysMmap,
    plainEntry_of_some rfl fun _ _ => .plain,
    fun _ _ => yields_batchLetSysMmap2,
    fun _ _ => yields_validStreamModel,
    hstream,
    hstream,
    hstream,
    fun _ _ => yields_batchLetSysFchdir,
    hstream,
    hstream,
    hstream,
    hstream,
    hstream,
    hstream,
    fun _ _ => yields_batchLetSysClone,
    fun _ _ => yields_batchLetSysVfork,
    fun _ _ => yields_batchLetSysExecve,
    plainEntry_of_some rfl fun _ _ => yields_batchLetSysWait4,
    plainEntry_of_some rfl fun _ _ => .plain,
    fun _ _ => yields_batchLetSysNewfstatat,
    hstream,
    hstream,
    hstream,
    hstream,
    hstream,
    hstream,
    hstream,
    hstream,
    plainEntry_of_some rfl fun _ _ => yields_batchLetSysPoll,
    plainEntry_of_some rfl fun _ _ => yields_batchLetSysSelect,
    plainEntry_of_some rfl fun _ _ => .plain,
    fun _ _ => yields_batchLetSysSocket,
    fun _ _ => yields_addressModel,
    fun _ _ => yields_addressModel,
    hstream,
    fun _ _ => yields_pipeModel,
    fun _ _ => yields_pipeModel,
    hstream,
    fun _ h => absurd h List.not_mem_nil⟩

/-- **`plainArgs?` is right for every model of the table.** -/
theorem yields_batchModels {funcNam : Text} {m : CallModel} (h : batchModels funcNam = .model m) :
    PlainEntry funcNam m := by
  rcases mem_of_batchModels h with ⟨name, rfl, hm⟩ | hm
  · exact plain_sysModels _ hm
  · simp only [libModels, List.mem_cons, List.not_mem_nil, or_false, Prod.mk.injEq] at hm
    rcases hm with ⟨-, rfl⟩ | ⟨-, rfl⟩
    · exact fun _ _ => yields_batchLetLibLibcStartMain
    · exact fun _ _ => yields_batchLetLibGetenv

end Survol.Dockit
