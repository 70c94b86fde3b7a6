import Survol.Dockit.Creations
import Survol.Dockit.FailedCalls
import Survol.Lib.PosixPath

/-!
# Arrays of descriptors

The models of `poll` and `select` read arrays of descriptors. The first one keeps the last
descriptor only, and the second one takes a space for the end of a descriptor.

## Main definitions

* `fileSeen` — the file of a descriptor, as a process sees it.
* `PollEntry`, `SelectArray` — the arrays, as the parser gives them.
* `RecordsEach` — one file for each descriptor, in order.

## Main results

* `run_arrFdNameToArrString` — the files of an array of `select`.
* `records_iff` — when the descriptors are recorded.
-/

open PyText PosixPath

namespace Survol.Dockit

variable {env : Env} {core : BatchLetCore} {o : Objects} {pid : ℤ}

/-! ## The file of a descriptor -/

/-- The file of a descriptor, as a process sees it in the objects `o`. -/
def fileSeen (env : Env) (o : Objects) (pid : ℤ) (strmStr : Text) : Except PyExn Text :=
  toAbsPath (.path (directorySeen env o pid)) (streamPathname o.mapFilDesToPathName strmStr)

/-- A process sees the same directory and the same descriptors. -/
structure SeesSame (env : Env) (pid : ℤ) (o o' : Objects) : Prop where
  directory : directorySeen env o' pid = directorySeen env o pid
  filDes : o'.mapFilDesToPathName = o.mapFilDesToPathName

theorem SeesSame.refl (env : Env) (pid : ℤ) (o : Objects) : SeesSame env pid o o := ⟨rfl, rfl⟩

theorem SeesSame.fileSeen_eq {o' : Objects} (h : SeesSame env pid o o') :
    fileSeen env o' pid = fileSeen env o pid := by
  funext strmStr
  rw [fileSeen, fileSeen, h.directory, h.filDes]

theorem SeesSame.trans {o₁ o₂ o₃ : Objects} (h : SeesSame env pid o₁ o₂)
    (h' : SeesSame env pid o₂ o₃) : SeesSame env pid o₁ o₃ :=
  ⟨h'.directory.trans h.directory, h'.filDes.trans h.filDes⟩

/-- The directory of a process that may have to be created. -/
theorem processCurrentDir_appeared (o : Objects) : (o.toProcess env pid).processCurrentDir pid =
    ((o.processes.get? pid).map (·.currentDirectory)).getD
      (((env.liveProcess pid).bind (·.cwd)).getD env.currentDirectory) := by
  rw [Objects.toProcess, Objects.processCurrentDir]
  cases h : o.processes.get? pid with
  | some p => simp [h]
  | none => simp [Objects.newProcess, CIMProcess.new]

theorem seesSame_toDataFile (o : Objects) (name : Text) :
    SeesSame env pid o (o.toDataFile name) where
  directory := by
    rw [directorySeen, directorySeen, processCurrentDir_appeared, processCurrentDir_appeared,
      processes_toDataFile]
  filDes := mapFilDes_toDataFile o name

theorem seesSame_toProcess (o : Objects) : SeesSame env pid o (o.toProcess env pid) where
  directory := by
    have hmem : pid ∈ (o.toProcess env pid).processes.keys := mem_keys_toProcess o pid
    rw [directorySeen, directorySeen, (o.toProcess env pid).toProcess_of_mem hmem]
  filDes := mapFilDes_toProcess o

/-- **One descriptor**: its file, and the same view. -/
theorem run_sTraceStreamToFile (strmStr : Text) : ∃ o',
    (sTraceStreamToFile env strmStr pid).run o = (fileSeen env o pid strmStr, o') ∧
      SeesSame env pid o o' := by
  have hfile (v : Objects) (hv : SeesSame env pid o v) : ∃ o', (do
      let pathName ← ofExcept (fileSeen env o pid strmStr)
      createObjectPathCIMDataFile pathName
      return pathName : ObjM Text).run v = (fileSeen env o pid strmStr, o') ∧
        SeesSame env pid o o' := by
    cases fileSeen env o pid strmStr with
    | error e => exact ⟨v, rfl, hv⟩
    | ok name => exact ⟨v.toDataFile name, rfl, hv.trans (seesSame_toDataFile v name)⟩
  have hrun : (sTraceStreamToFile env strmStr pid).run o =
      (toObjectPathCIMDataFile env (streamPathname o.mapFilDesToPathName strmStr) pid).run o := rfl
  rw [hrun, toObjectPathCIMDataFile, fileSeen, directorySeen]
  rw [fileSeen, directorySeen] at hfile
  split
  · rename_i hzero
    rw [if_pos hzero] at hfile
    exact hfile o (.refl env pid o)
  · rename_i hzero
    rw [if_neg hzero] at hfile
    exact hfile _ (seesSame_toProcess o)

/-! ## Loops that read -/

/-- A loop whose steps keep what they read gives what its elements give. -/
theorem run_forEach {α β : Type} {R : Objects → Prop} {f : α → ObjM β} {g : α → Except PyExn β}
    (h : ∀ a v, R v → ∃ v', (f a).run v = (g a, v') ∧ R v') (l : List α) {v : Objects} (hv : R v) :
    ∃ v', (Py.forEach f l).run v = (l.mapM g, v') ∧ R v' := by
  induction l generalizing v with
  | nil => exact ⟨v, rfl, hv⟩
  | cons a l ih =>
    obtain ⟨v₁, ha, hv₁⟩ := h a v hv
    obtain ⟨v₂, hl, hv₂⟩ := ih hv₁
    rw [Py.forEach, Py.run_bind, ha, List.mapM_cons]
    cases g a with
    | error e => exact ⟨v₁, rfl, hv₁⟩
    | ok b =>
      refine ⟨v₂, ?_, hv₂⟩
      dsimp only
      rw [Py.run_bind, hl]
      cases l.mapM g with
      | error e => rfl
      | ok bs => rfl

theorem forEach_map {α α' β : Type} (f : α' → ObjM β) (g : α → α') (l : List α) :
    Py.forEach f (l.map g) = Py.forEach (fun a => f (g a)) l := by
  induction l with
  | nil => rfl
  | cons a l ih => rw [List.map_cons, Py.forEach, Py.forEach, ih]

/-- Reading that succeeds gives one value for each element, in order. -/
theorem mapM_eq_ok {α β : Type} {g : α → Except PyExn β} {l : List α} {bs : List β} :
    l.mapM g = .ok bs ↔ List.Forall₂ (fun a b => g a = .ok b) l bs := by
  induction l generalizing bs with
  | nil =>
    rw [List.mapM_nil, List.forall₂_nil_left_iff]
    constructor
    · intro h
      cases h
      rfl
    · rintro rfl
      rfl
  | cons a l ih =>
    rw [List.mapM_cons, List.forall₂_cons_left_iff]
    cases ha : g a with
    | error e =>
      refine iff_of_false nofun ?_
      rintro ⟨b, bs, hb, -⟩
      cases hb
    | ok b =>
      constructor
      · intro h
        cases hl : l.mapM g with
        | error e =>
          rw [hl] at h
          cases h
        | ok bs =>
          rw [hl] at h
          cases h
          exact ⟨b, bs, rfl, ih.mp hl, rfl⟩
      · rintro ⟨b', bs, hb, hbs, rfl⟩
        cases hb
        rw [ih.mpr hbs]
        rfl

theorem mapM_congr {α β : Type} {f g : α → Except PyExn β} {l : List α}
    (h : ∀ a ∈ l, f a = g a) : l.mapM f = l.mapM g := by
  induction l with
  | nil => rfl
  | cons a l ih =>
    rw [List.forall_mem_cons] at h
    rw [List.mapM_cons, List.mapM_cons, h.1, ih h.2]

theorem exists_mapM_eq_ok {α β : Type} {g : α → Except PyExn β} {l : List α} :
    (∃ bs, l.mapM g = .ok bs) ↔ ∀ a ∈ l, ∃ b, g a = .ok b := by
  induction l with
  | nil => exact iff_of_true ⟨[], rfl⟩ (List.forall_mem_nil _)
  | cons a l ih =>
    rw [List.forall_mem_cons, ← ih]
    constructor
    · rintro ⟨bs, h⟩
      rw [mapM_eq_ok, List.forall₂_cons_left_iff] at h
      obtain ⟨b, bs, hb, hbs, rfl⟩ := h
      exact ⟨⟨b, hb⟩, bs, mapM_eq_ok.mpr hbs⟩
    · rintro ⟨⟨b, hb⟩, bs, hbs⟩
      exact ⟨b :: bs, mapM_eq_ok.mpr (.cons hb (mapM_eq_ok.mp hbs))⟩

/-! ## The arrays -/

/-- A significant argument with one file for each descriptor, in order. -/
def RecordsEach (env : Env) (o : Objects) (pid : ℤ) (descriptors : List Text) (arg : SigArg) :
    Prop :=
  ∃ names, arg = .list (names.map .file) ∧
    List.Forall₂ (fun d name => fileSeen env o pid d = .ok name) descriptors names

/-- An entry of the array of `poll`: the first field that begins with `fd=` is the descriptor. -/
structure PollEntry where
  before : List Text
  descriptor : Text
  after : List Arg
  no_fd : ∀ s ∈ before, "fd=".toList.isPrefixOf s = false

/-- The entry, as the parser gives it. -/
def PollEntry.toArg (e : PollEntry) : Arg :=
  .list (e.before.map .str ++ .str ("fd=".toList ++ e.descriptor) :: e.after)

/-- A text of the array of `select`: descriptors, with a space between them. -/
structure DescriptorText where
  descriptors : List Text
  ne_nil : descriptors ≠ []

/-- The text, as the parser gives it. -/
def DescriptorText.toArg (d : DescriptorText) : Arg := .str ([' '].intercalate d.descriptors)

/-- An array of `select`. -/
inductive SelectArray
  | null
  | texts (l : List DescriptorText)

/-- The array, as the parser gives it. -/
def SelectArray.toArg : SelectArray → Arg
  | .null => .str "NULL".toList
  | .texts l => .list (l.map DescriptorText.toArg)

/-- The descriptors of the array. -/
def SelectArray.descriptors : SelectArray → List Text
  | .null => []
  | .texts l => l.flatMap DescriptorText.descriptors

/-! ## `poll` -/

theorem fdOfStream_toArg (e : PollEntry) :
    fdOfStream (e.before.map .str ++ .str ("fd=".toList ++ e.descriptor) :: e.after) =
      .ok (some e.descriptor) := by
  obtain ⟨before, descriptor, after, hno⟩ := e
  dsimp only
  induction before with
  | nil => rfl
  | cons s before ih =>
    rw [List.forall_mem_cons] at hno
    rw [List.map_cons, List.cons_append, fdOfStream, hno.1, if_neg Bool.false_ne_true]
    exact ih hno.2

/-- Only the last descriptor is kept. -/
theorem fdName_toArg (fd : Option Text) (entries : List PollEntry) :
    fdName fd (entries.map PollEntry.toArg) =
      .ok ((entries.getLast?.map PollEntry.descriptor).or fd) := by
  induction entries generalizing fd with
  | nil => rfl
  | cons e entries ih =>
    have hstep : fdName fd ((e :: entries).map PollEntry.toArg) =
        (fdOfStream (e.before.map .str ++ .str ("fd=".toList ++ e.descriptor) :: e.after)).bind
          fun found => fdName (found.or fd) (entries.map PollEntry.toArg) := rfl
    rw [hstep, fdOfStream_toArg]
    refine (ih _).trans ?_
    cases entries with
    | nil => rfl
    | cons e' entries =>
      rw [List.getLast?_cons_cons, List.getLast?_eq_some_getLast (List.cons_ne_nil e' entries)]
      rfl

/-- The model of `poll` records every descriptor of the array. -/
def PollRecords (env : Env) (core : BatchLetCore) (o : Objects) (entries : List PollEntry) : Prop :=
  ∃ arg o', (batchLetSysPoll env core).run o = (.ok (some [arg]), o') ∧
    RecordsEach env o core.pid (entries.map PollEntry.descriptor) arg

/-- What the model of `poll` gives. -/
theorem run_batchLetSysPoll {entries : List PollEntry} (htracer : core.tracer = .strace)
    (hargs : core.parsedArgs[0]? = some (.list (entries.map PollEntry.toArg))) :
    ∃ o', (batchLetSysPoll env core).run o = (match entries.getLast? with
      | none => .error .unboundLocalError
      | some e => (fileSeen env o core.pid e.descriptor).map fun name =>
          some [.list [.file name]], o') := by
  have harg : (parsedArg core 0).run o = (.ok (.list (entries.map PollEntry.toArg)), o) := by
    rw [parsedArg, hargs]
    rfl
  rw [batchLetSysPoll, Py.run_bind, harg, htracer]
  dsimp only
  rw [fdName_toArg, Option.or_none]
  cases entries.getLast? with
  | none => exact ⟨o, rfl⟩
  | some e =>
    obtain ⟨o', hfile, -⟩ := @run_sTraceStreamToFile env o core.pid e.descriptor
    refine ⟨o', ?_⟩
    have hrun : (do
        let fd ← ofExcept (.ok (some e.descriptor))
        let filOnly ← sTraceStreamToFile env
          (← Py.ofOption PyExn.unboundLocalError fd) core.pid
        return some [.list [.file filOnly]] : ModelM).run o =
        (sTraceStreamToFile env e.descriptor core.pid >>= fun filOnly =>
          pure (some [.list [.file filOnly]]) : ModelM).run o := rfl
    refine hrun.trans ?_
    rw [Py.run_bind, hfile]
    dsimp only
    cases fileSeen env o core.pid e.descriptor with
    | error e => rfl
    | ok name => rfl

/-- **`poll` records every descriptor exactly when there is one.** -/
theorem pollRecords_iff {entries : List PollEntry} (htracer : core.tracer = .strace)
    (hargs : core.parsedArgs[0]? = some (.list (entries.map PollEntry.toArg))) :
    PollRecords env core o entries ↔
      ∃ e, entries = [e] ∧ ∃ name, fileSeen env o core.pid e.descriptor = .ok name := by
  obtain ⟨o', hrun⟩ := @run_batchLetSysPoll env core o entries htracer hargs
  rw [PollRecords, hrun]
  constructor
  · rintro ⟨arg, o'', heq, names, rfl, hall⟩
    have hval := (Prod.mk.inj heq).1
    cases hlast : entries.getLast? with
    | none =>
      rw [hlast] at hval
      cases hval
    | some e =>
      rw [hlast] at hval
      dsimp only at hval
      cases hfile : fileSeen env o core.pid e.descriptor with
      | error err =>
        rw [hfile] at hval
        cases hval
      | ok name =>
        rw [hfile] at hval
        have hnames : [SigArg.file name] = names.map .file :=
          SigArg.list.inj (List.cons.inj (Option.some.inj (Except.ok.inj hval))).1
        have hlen := congrArg List.length hnames
        have hsame := hall.length_eq
        rw [List.length_map] at hsame
        rw [List.length_map, ← hsame, List.length_singleton] at hlen
        obtain ⟨e', rfl⟩ := List.length_eq_one_iff.mp hlen.symm
        obtain rfl : e' = e := Option.some.inj hlast
        exact ⟨e', rfl, name, hfile⟩
  · rintro ⟨e, rfl, name, hfile⟩
    refine ⟨.list [.file name], o', ?_, [name], rfl, .cons hfile .nil⟩
    dsimp only [List.getLast?_singleton]
    rw [hfile]
    rfl

/-! ## `select` -/

/-- The files that the code finds in an array of `select`. -/
def filesOfArray (env : Env) (o : Objects) (pid : ℤ) (a : SelectArray) : Except PyExn (List Text) :=
  match a with
  | .null => .ok []
  | .texts l => (l.mapM fun d =>
      (splitOn ' ' ([' '].intercalate d.descriptors)).mapM (fileSeen env o pid)).map List.flatten

/-- **One array**: the code splits its texts at every space. -/
theorem run_arrFdNameToArrString {o o₀ : Objects} (h : SeesSame env core.pid o₀ o)
    (a : SelectArray) : ∃ o', (arrFdNameToArrString env core a.toArg).run o =
      ((filesOfArray env o₀ core.pid a).map fun names => .list (names.map .file), o') ∧
        SeesSame env core.pid o₀ o' := by
  cases a with
  | null => exact ⟨o, rfl, h⟩
  | texts l =>
    have htext (d : Text) (v : Objects) (hv : SeesSame env core.pid o₀ v) : ∃ v',
        (sTraceStreamToFile env d core.pid).run v = (fileSeen env o₀ core.pid d, v') ∧
          SeesSame env core.pid o₀ v' := by
      obtain ⟨v', hrun, hv'⟩ := @run_sTraceStreamToFile env v core.pid d
      rw [hv.fileSeen_eq] at hrun
      exact ⟨v', hrun, hv.trans hv'⟩
    have hgroup (d : DescriptorText) (v : Objects) (hv : SeesSame env core.pid o₀ v) : ∃ v', (do
        let splitFdName := splitOn ' ' (← argText d.toArg)
        Py.forEach (fun oneFdNam => sTraceStreamToFile env oneFdNam core.pid) splitFdName :
          ObjM (List Text)).run v =
        ((splitOn ' ' ([' '].intercalate d.descriptors)).mapM (fileSeen env o₀ core.pid), v') ∧
          SeesSame env core.pid o₀ v' :=
      run_forEach htext (splitOn ' ' ([' '].intercalate d.descriptors)) hv
    obtain ⟨o', hrun, ho'⟩ := run_forEach hgroup l h
    refine ⟨o', ?_, ho'⟩
    have hcode : arrFdNameToArrString env core (SelectArray.toArg (.texts l)) = (do
        let filStrms ← Py.forEach (fun fdName => do
          let splitFdName := splitOn ' ' (← argText fdName)
          Py.forEach (fun oneFdNam => sTraceStreamToFile env oneFdNam core.pid) splitFdName)
            (l.map DescriptorText.toArg)
        return .list (filStrms.flatten.map .file)) := rfl
    rw [hcode, forEach_map, Py.run_bind, hrun, filesOfArray]
    cases l.mapM fun d =>
        (splitOn ' ' ([' '].intercalate d.descriptors)).mapM (fileSeen env o₀ core.pid) with
    | error e => rfl
    | ok names => rfl

/-- The model of `select` records every descriptor of the three arrays. -/
def SelectRecords (env : Env) (core : BatchLetCore) (o : Objects)
    (read written except : SelectArray) : Prop :=
  ∃ a b c o', (batchLetSysSelect env core).run o = (.ok (some [a, b, c]), o') ∧
    RecordsEach env o core.pid read.descriptors a ∧
    RecordsEach env o core.pid written.descriptors b ∧
    RecordsEach env o core.pid except.descriptors c

/-- The files of an array are those of its descriptors. -/
def ArrayRecords (env : Env) (o : Objects) (pid : ℤ) (a : SelectArray) : Prop :=
  ∃ names, filesOfArray env o pid a = .ok names ∧
    List.Forall₂ (fun d name => fileSeen env o pid d = .ok name) a.descriptors names

theorem file_map_inj {names names' : List Text}
    (h : SigArg.list (names.map .file) = .list (names'.map .file)) : names = names' :=
  List.map_injective_iff.mpr (fun _ _ => SigArg.file.inj) (SigArg.list.inj h)

theorem selectRecords_iff_arrays {read written except : SelectArray}
    (htracer : core.tracer = .strace) (h₁ : core.parsedArgs[1]? = some read.toArg)
    (h₂ : core.parsedArgs[2]? = some written.toArg)
    (h₃ : core.parsedArgs[3]? = some except.toArg) :
    SelectRecords env core o read written except ↔ ArrayRecords env o core.pid read ∧
      ArrayRecords env o core.pid written ∧ ArrayRecords env o core.pid except := by
  have hrun : (batchLetSysSelect env core).run o = (do
      let arrFilRead ← arrFdNameToArrString env core read.toArg
      let arrFilWrit ← arrFdNameToArrString env core written.toArg
      let arrFilExcp ← arrFdNameToArrString env core except.toArg
      return some [arrFilRead, arrFilWrit, arrFilExcp] : ModelM).run o := by
    rw [batchLetSysSelect, htracer, parsedArg, parsedArg, parsedArg, h₁, h₂, h₃]
    rfl
  obtain ⟨o₁, hread, ho₁⟩ := run_arrFdNameToArrString (.refl env core.pid o) read
  obtain ⟨o₂, hwritten, ho₂⟩ := run_arrFdNameToArrString ho₁ written
  obtain ⟨o₃, hexcept, -⟩ := run_arrFdNameToArrString ho₂ except
  rw [SelectRecords, hrun]
  constructor
  · rintro ⟨a, b, c, o', heq, ⟨na, rfl, ha⟩, ⟨nb, rfl, hb⟩, ⟨nc, rfl, hc⟩⟩
    rw [Py.run_bind_eq_ok] at heq
    obtain ⟨a', w₁, hrun₁, heq⟩ := heq
    rw [hread] at hrun₁
    obtain ⟨hval₁, rfl⟩ := Prod.mk.inj hrun₁
    rw [Py.run_bind_eq_ok] at heq
    obtain ⟨b', w₂, hrun₂, heq⟩ := heq
    rw [hwritten] at hrun₂
    obtain ⟨hval₂, rfl⟩ := Prod.mk.inj hrun₂
    rw [Py.run_bind_eq_ok] at heq
    obtain ⟨c', w₃, hrun₃, heq⟩ := heq
    rw [hexcept] at hrun₃
    obtain ⟨hval₃, rfl⟩ := Prod.mk.inj hrun₃
    have hargs := Option.some.inj (Except.ok.inj (Prod.mk.inj heq).1)
    have hone {arr : SelectArray} {names : List Text} {x : SigArg}
        (hval : (filesOfArray env o core.pid arr).map
          (fun names => .list (names.map .file)) = .ok x)
        (hx : x = .list (names.map .file))
        (hall : List.Forall₂ (fun d name => fileSeen env o core.pid d = .ok name)
          arr.descriptors names) : ArrayRecords env o core.pid arr := by
      cases hfiles : filesOfArray env o core.pid arr with
      | error e =>
        rw [hfiles] at hval
        cases hval
      | ok names' =>
        rw [hfiles] at hval
        obtain rfl := file_map_inj ((Except.ok.inj hval).trans hx)
        exact ⟨names', hfiles, hall⟩
    simp only [List.cons.injEq, and_true] at hargs
    exact ⟨hone hval₁ hargs.1 ha, hone hval₂ hargs.2.1 hb, hone hval₃ hargs.2.2 hc⟩
  · rintro ⟨⟨na, hna, ha⟩, ⟨nb, hnb, hb⟩, ⟨nc, hnc, hc⟩⟩
    rw [hna] at hread
    rw [hnb] at hwritten
    rw [hnc] at hexcept
    refine ⟨_, _, _, o₃, ?_, ⟨na, rfl, ha⟩, ⟨nb, rfl, hb⟩, ⟨nc, rfl, hc⟩⟩
    rw [Py.run_bind_of_ok hread, Py.run_bind_of_ok hwritten, Py.run_bind_of_ok hexcept]
    rfl

/-! ## Spaces -/

theorem countP_intercalate (c : Char) {parts : List Text} (hne : parts ≠ []) :
    ([c].intercalate parts).countP (· = c) + 1 =
      parts.length + (parts.map (List.countP (· = c))).sum := by
  induction parts with
  | nil => exact absurd rfl hne
  | cons p parts ih =>
    cases parts with
    | nil =>
      rw [List.intercalate_singleton, List.map_singleton, List.sum_singleton, List.length_singleton]
      omega
    | cons q parts =>
      have hrest := ih (List.cons_ne_nil q parts)
      rw [List.intercalate_cons_cons, List.countP_append, List.countP_append, List.map_cons,
        List.sum_cons, @List.length_cons _ p]
      have hc : List.countP (· = c) [c] = 1 := by simp
      omega

/-- The spaces in the descriptors of a text. -/
def DescriptorText.spaces (d : DescriptorText) : ℕ :=
  (d.descriptors.map (List.countP (· = ' '))).sum

/-- Each space in a descriptor makes one more file. -/
theorem length_of_mapM_splitOn {g : Text → Except PyExn Text} {l : List DescriptorText}
    {nss : List (List Text)}
    (h : List.Forall₂ (fun (d : DescriptorText) ns =>
      (splitOn ' ' ([' '].intercalate d.descriptors)).mapM g = .ok ns) l nss) :
    nss.flatten.length =
      (l.flatMap DescriptorText.descriptors).length + (l.map DescriptorText.spaces).sum := by
  induction h with
  | nil => rfl
  | @cons d ns l nss hd _ ih =>
    have hlen := (mapM_eq_ok.mp hd).length_eq
    have hcount := countP_intercalate ' ' d.ne_nil
    rw [length_splitOn, hcount] at hlen
    rw [List.flatten_cons, List.length_append, ih, ← hlen, List.flatMap_cons, List.length_append,
      List.map_cons, List.sum_cons, DescriptorText.spaces]
    omega

theorem forall₂_flatten {g : Text → Except PyExn Text} {l : List DescriptorText}
    {nss : List (List Text)}
    (h : List.Forall₂ (fun (d : DescriptorText) ns => d.descriptors.mapM g = .ok ns) l nss) :
    List.Forall₂ (fun d name => g d = .ok name) (l.flatMap DescriptorText.descriptors)
      nss.flatten := by
  induction h with
  | nil => exact .nil
  | cons hd _ ih =>
    rw [List.flatMap_cons, List.flatten_cons]
    exact List.rel_append (mapM_eq_ok.mp hd) ih

/-- **One array**: no descriptor has a space, and each of them has a file. -/
theorem arrayRecords_iff (a : SelectArray) : ArrayRecords env o pid a ↔
    ∀ d ∈ a.descriptors, ' ' ∉ d ∧ ∃ name, fileSeen env o pid d = .ok name := by
  cases a with
  | null => exact iff_of_true ⟨[], rfl, .nil⟩ (List.forall_mem_nil _)
  | texts l =>
    constructor
    · rintro ⟨names, hfiles, hall⟩ d hd
      refine ⟨?_, ?_⟩
      · rw [filesOfArray] at hfiles
        cases hnss : l.mapM fun d =>
            (splitOn ' ' ([' '].intercalate d.descriptors)).mapM (fileSeen env o pid) with
        | error e =>
          rw [hnss] at hfiles
          cases hfiles
        | ok nss =>
          rw [hnss] at hfiles
          have hflat : nss.flatten = names := Except.ok.inj hfiles
          have hlen := length_of_mapM_splitOn (mapM_eq_ok.mp hnss)
          have hsame : (l.flatMap DescriptorText.descriptors).length = names.length :=
            hall.length_eq
          rw [hflat, hsame, Nat.left_eq_add, List.sum_eq_zero_iff_forall_eq_nat] at hlen
          obtain ⟨g, hg, hdg⟩ := List.mem_flatMap.mp hd
          have hspaces := hlen _ (List.mem_map_of_mem hg)
          rw [DescriptorText.spaces, List.sum_eq_zero_iff_forall_eq_nat] at hspaces
          have hzero := hspaces _ (List.mem_map_of_mem hdg)
          rw [List.countP_eq_zero] at hzero
          exact fun hmem => hzero ' ' hmem (by simp)
      · exact exists_mapM_eq_ok.mp ⟨names, mapM_eq_ok.mpr hall⟩ d hd
    · intro h
      have hsplit : ∀ d ∈ l, splitOn ' ' ([' '].intercalate d.descriptors) = d.descriptors :=
        fun d hd => splitOn_intercalate d.ne_nil fun s hs =>
          (h s (List.mem_flatMap.mpr ⟨d, hd, hs⟩)).1
      have hfound : ∀ d ∈ l, ∃ ns, d.descriptors.mapM (fileSeen env o pid) = .ok ns :=
        fun d hd => exists_mapM_eq_ok.mpr fun s hs =>
          (h s (List.mem_flatMap.mpr ⟨d, hd, hs⟩)).2
      obtain ⟨nss, hnss⟩ := exists_mapM_eq_ok.mpr hfound
      refine ⟨nss.flatten, ?_, forall₂_flatten (mapM_eq_ok.mp hnss)⟩
      have hcode : (l.mapM fun d =>
          (splitOn ' ' ([' '].intercalate d.descriptors)).mapM (fileSeen env o pid)) = .ok nss :=
        (mapM_congr fun d hd => by rw [hsplit d hd]).trans hnss
      rw [filesOfArray, hcode]
      rfl

/-- **When the descriptors are recorded.** `poll`: there is exactly one, and it has a file.
`select`: no descriptor has a space, and each of them has a file. -/
theorem records_iff (htracer : core.tracer = .strace) :
    (∀ entries, core.parsedArgs[0]? = some (.list (entries.map PollEntry.toArg)) →
      (PollRecords env core o entries ↔
        ∃ e, entries = [e] ∧ ∃ name, fileSeen env o core.pid e.descriptor = .ok name)) ∧
    ∀ read written except : SelectArray, core.parsedArgs[1]? = some read.toArg →
      core.parsedArgs[2]? = some written.toArg → core.parsedArgs[3]? = some except.toArg →
      (SelectRecords env core o read written except ↔
        ∀ d ∈ read.descriptors ++ (written.descriptors ++ except.descriptors),
          ' ' ∉ d ∧ ∃ name, fileSeen env o core.pid d = .ok name) := by
  constructor
  · exact fun entries hargs => pollRecords_iff htracer hargs
  · intro read written except h₁ h₂ h₃
    rw [selectRecords_iff_arrays htracer h₁ h₂ h₃, arrayRecords_iff, arrayRecords_iff,
      arrayRecords_iff, List.forall_mem_append, List.forall_mem_append]

/-- A whole line of `strace`. -/
def straceCall (funcNam : Text) (parsedArgs : List Arg) : BatchLetCore where
  tracer := .strace
  pid := 7
  funcNam := funcNam
  status := .plain
  timeStart := "10:00:00.000000".toList
  timeEnd := "10:00:00.000000".toList
  execTim := []
  parsedArgs := parsedArgs
  retValue := some "1".toList
  unfinishedBatch := none
  resumedBatch := none

/-- A descriptor that is polled. -/
def polled (descriptor : Text) : PollEntry where
  before := []
  descriptor := descriptor
  after := [.str "events=POLLIN".toList]
  no_fd := List.forall_mem_nil _

/-- The text of two descriptors. -/
def selectedPair (d d' : Text) : SelectArray := .texts [⟨[d, d'], List.cons_ne_nil _ _⟩]

theorem records_iff_sockets :
    (PollRecords (.replayed 7 []) (straceCall "poll".toList
        [.list [(polled "5</tmp/a>".toList).toArg]]) .init [polled "5</tmp/a>".toList] ↔
      ∃ e, [polled "5</tmp/a>".toList] = [e] ∧
        ∃ name, fileSeen (.replayed 7 []) .init 7 e.descriptor = .ok name) ∧
    (SelectRecords (.replayed 7 []) (straceCall "select".toList [.str "4".toList,
        (selectedPair "1</tmp/a>".toList "3</tmp/b c>".toList).toArg, SelectArray.null.toArg,
        SelectArray.null.toArg]) .init (selectedPair "1</tmp/a>".toList "3</tmp/b c>".toList)
        .null .null ↔
      ∀ d ∈ (selectedPair "1</tmp/a>".toList "3</tmp/b c>".toList).descriptors ++
          (SelectArray.null.descriptors ++ SelectArray.null.descriptors),
        ' ' ∉ d ∧ ∃ name, fileSeen (.replayed 7 []) .init 7 d = .ok name) :=
  ⟨(records_iff rfl).1 [polled "5</tmp/a>".toList] rfl,
    (records_iff rfl).2 (selectedPair "1</tmp/a>".toList "3</tmp/b c>".toList) .null .null
      rfl rfl rfl⟩

/-- Of two descriptors, the first one is lost. -/
theorem not_forall_records : ¬ ∀ (env : Env) (core : BatchLetCore) (o : Objects),
    core.tracer = .strace →
      (∀ entries, core.parsedArgs[0]? = some (.list (entries.map PollEntry.toArg)) →
        PollRecords env core o entries) ∧
      ∀ read written except : SelectArray, core.parsedArgs[1]? = some read.toArg →
        core.parsedArgs[2]? = some written.toArg → core.parsedArgs[3]? = some except.toArg →
        SelectRecords env core o read written except := by
  intro h
  have hpoll := (h (.replayed 7 []) (straceCall "poll".toList
    [.list [(polled "5</tmp/a>".toList).toArg, (polled "6</tmp/b>".toList).toArg]]) .init rfl).1
      [polled "5</tmp/a>".toList, polled "6</tmp/b>".toList] rfl
  obtain ⟨e, he, -⟩ := (pollRecords_iff rfl rfl).mp hpoll
  have hlen := congrArg List.length he
  cases hlen

end Survol.Dockit
