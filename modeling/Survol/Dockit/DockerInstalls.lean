import Survol.Dockit.DockerFile

/-!
# What a Dockerfile provides

The generation of the dependencies goes through the executables, the code files of each kind and
the data files. Each of its steps keeps what was asked for before, so that in the end each file
that a process needs is installed, or copied, or known to be missing.

## Main definitions

* `requestLine` — what is written for a package the first time.
* `Good` — what holds of the Dockerfile after some packages were asked for and some lines written.
* `CodeProvided`, `DataProvided` — what the Dockerfile has for a file.
* `Complete` — what the Dockerfile has to have.

## Main results

* `good_generate` — what the generation asks for.
* `generateDockerProcessDependencies_complete` — the Dockerfile is written, and is complete.
-/

open PyText

namespace Survol.Dockit.Packages

/-! ## What is kept -/

/-- The line of a package that was not asked for yet: it installs the short name of the package, or
it is a comment, for `coreutils`. -/
def requestLine (packageName : Text) : Line :=
  if pckShortOf packageName = "coreutils".toList then .conflict (pckShortOf packageName) packageName
  else .install (pckShortOf packageName) packageName

/-- A package is reported as installed already after its line. -/
def Before (lines : List Line) : Prop :=
  ∀ pre pckShort packageName post,
    lines = pre ++ .alreadyInstalled pckShort packageName :: post → requestLine packageName ∈ pre

/-- A line that says nothing of packages. -/
def Line.Plain : Line → Prop
  | .alreadyInstalled _ _ => False
  | .conflict _ _ => False
  | .install _ _ => False
  | _ => True

theorem requestLine_eq_install {p q s : Text} (h : requestLine p = .install s q) :
    s = pckShortOf q ∧ s ≠ "coreutils".toList := by
  rw [requestLine] at h
  split at h
  · cases h
  · rename_i hp
    cases h
    exact ⟨rfl, hp⟩

theorem requestLine_injective {p q : Text} (h : requestLine p = requestLine q) : p = q := by
  rw [requestLine, requestLine] at h
  split at h <;> split at h
  · exact (Line.conflict.inj h).2
  · cases h
  · cases h
  · exact (Line.install.inj h).2

theorem requestLine_ne_already (p s q : Text) : requestLine p ≠ .alreadyInstalled s q := by
  rw [requestLine]
  split <;> nofun

theorem requestLine_ne_add (p f : Text) : requestLine p ≠ .add f := by
  rw [requestLine]
  split <;> nofun

theorem Line.Plain.ne_requestLine {l : Line} (h : l.Plain) (p : Text) : l ≠ requestLine p := by
  rintro rfl
  rw [requestLine] at h
  split at h <;> exact h

theorem Line.Plain.ne_install {l : Line} (h : l.Plain) (s p : Text) : l ≠ .install s p := by
  rintro rfl
  exact h

theorem Line.Plain.ne_already {l : Line} (h : l.Plain) (s p : Text) :
    l ≠ .alreadyInstalled s p := by
  rintro rfl
  exact h

/-- What holds of the Dockerfile after some packages were asked for and some lines were written,
where `A` is what a copied file has. -/
structure Good (m : Machine) (A : Text → Prop) (ps : List Text) (ls : List Line) (d : Docker) :
    Prop where
  agrees : Agrees m d.packagesCache
  count : ∀ p, d.lines.count (requestLine p) = if p ∈ d.installedPackages.keys then 1 else 0
  install : ∀ s p, .install s p ∈ d.lines → s = pckShortOf p ∧ s ≠ "coreutils".toList
  before : Before d.lines
  added : ∀ f, .add f ∈ d.lines → A f
  installed : ∀ p ∈ ps, p ∈ d.installedPackages.keys
  written : ∀ l ∈ ls, l ∈ d.lines

variable {m : Machine} {A : Text → Prop} {ps ps' : List Text} {ls ls' : List Line} {d : Docker}

theorem Good.mono (h : Good m A ps ls d) (hp : ps' ⊆ ps) (hl : ls' ⊆ ls) : Good m A ps' ls' d :=
  { h with
    installed := fun p hmem => h.installed p (hp hmem)
    written := fun l hmem => h.written l (hl hmem) }

theorem Good.requested (h : Good m A ps ls d) {p : Text} (hp : p ∈ d.installedPackages.keys) :
    requestLine p ∈ d.lines := by
  have hcount := h.count p
  rw [if_pos hp] at hcount
  exact List.count_pos_iff.mp (hcount ▸ Nat.one_pos)

theorem Before.concat {lines : List Line} (h : Before lines) {l : Line}
    (hl : ∀ pckShort p, l = .alreadyInstalled pckShort p → requestLine p ∈ lines) :
    Before (lines ++ [l]) := by
  intro pre pckShort p post heq
  rcases List.eq_nil_or_concat post with rfl | ⟨post', l', rfl⟩
  · obtain ⟨rfl, hlast⟩ := List.append_inj' heq rfl
    exact hl pckShort p (List.singleton_inj.mp hlast)
  · rw [List.concat_eq_append, ← List.cons_append, ← List.append_assoc] at heq
    exact h pre pckShort p post' (List.append_inj' heq rfl).1

/-- One line more. -/
theorem Good.concat (h : Good m A ps ls d) {l : Line} (hl : l.Plain)
    (hadd : ∀ f, l = .add f → A f) :
    Good m A ps (ls ++ [l]) { d with lines := d.lines ++ [l] } where
  agrees := h.agrees
  count p := by
    have hne : ¬(l == requestLine p) = true := by simpa using hl.ne_requestLine p
    rw [List.count_append, h.count p, List.count_singleton, if_neg hne]
    rfl
  install s p hmem := by
    rcases List.mem_append.mp hmem with hmem | hmem
    · exact h.install s p hmem
    · exact absurd (List.mem_singleton.mp hmem).symm (hl.ne_install s p)
  before := h.before.concat fun pckShort p heq => absurd heq (hl.ne_already pckShort p)
  added f hf := by
    rcases List.mem_append.mp hf with hf | hf
    · exact h.added f hf
    · exact hadd f (List.mem_singleton.mp hf).symm
  installed := h.installed
  written l' hl' := by
    rcases List.mem_append.mp hl' with hl' | hl'
    · exact List.mem_append_left _ (h.written l' hl')
    · exact List.mem_append_right _ hl'

/-- A package that is installed already is reported. -/
theorem Good.already (h : Good m A ps ls d) {p : Text} (hp : p ∈ d.installedPackages.keys)
    (pckShort : Text) :
    Good m A (ps ++ [p]) ls { d with lines := d.lines ++ [.alreadyInstalled pckShort p] } where
  agrees := h.agrees
  count q := by
    have hne : ¬(Line.alreadyInstalled pckShort p == requestLine q) = true := by
      simpa using (requestLine_ne_already q pckShort p).symm
    rw [List.count_append, h.count q, List.count_singleton, if_neg hne]
    rfl
  install s q hmem := by
    rcases List.mem_append.mp hmem with hmem | hmem
    · exact h.install s q hmem
    · cases List.mem_singleton.mp hmem
  before := h.before.concat fun _ q heq => by
    cases heq
    exact h.requested hp
  added f hf := by
    rcases List.mem_append.mp hf with hf | hf
    · exact h.added f hf
    · cases List.mem_singleton.mp hf
  installed q hq := by
    rcases List.mem_append.mp hq with hq | hq
    · exact h.installed q hq
    · rw [List.mem_singleton.mp hq]
      exact hp
  written l hl := List.mem_append_left _ (h.written l hl)

/-- A package that was not installed is asked for, by a line of its own. -/
theorem Good.request (h : Good m A ps ls d) {p : Text} (hp : p ∉ d.installedPackages.keys)
    (pckShort : Text) :
    Good m A (ps ++ [p]) ls
      ⟨d.packagesCache, d.installedPackages.set p pckShort, d.lines ++ [requestLine p]⟩ where
  agrees := h.agrees
  count q := by
    rw [List.count_append, h.count q, List.count_singleton]
    simp only [Dict.mem_keys_set, beq_iff_eq]
    by_cases hq : q = p
    · subst hq
      simp [hp]
    · rw [if_neg (fun heq => hq (requestLine_injective heq).symm), Nat.add_zero]
      simp [hq]
  install s q hmem := by
    rcases List.mem_append.mp hmem with hmem | hmem
    · exact h.install s q hmem
    · exact requestLine_eq_install (List.mem_singleton.mp hmem).symm
  before := h.before.concat fun s q heq => absurd heq (requestLine_ne_already p s q)
  added f hf := by
    rcases List.mem_append.mp hf with hf | hf
    · exact h.added f hf
    · exact absurd (List.mem_singleton.mp hf).symm (requestLine_ne_add p f)
  installed q hq := by
    rw [Dict.mem_keys_set]
    rcases List.mem_append.mp hq with hq | hq
    · exact .inr (h.installed q hq)
    · exact .inl (List.mem_singleton.mp hq)
  written l' hl' := List.mem_append_left _ (h.written l' hl')

/-! ## The steps -/

theorem good_write {l : Line} (hl : l.Plain) (hadd : ∀ f, l = .add f → A f) :
    Py.Triple (Good m A ps ls) (write l) fun _ => Good m A ps (ls ++ [l]) :=
  .modify fun _ h => h.concat hl hadd

theorem good_text (t : Text) :
    Py.Triple (Good m A ps ls) (write (.text t)) fun _ => Good m A ps ls :=
  (good_write (l := .text t) trivial fun _ h => by cases h).post fun _ _ h =>
    h.mono (List.Subset.refl ps) (List.subset_append_left ls _)

theorem good_install (p : Text) :
    Py.Triple (Good m A ps ls) (installLinuxPackage p) fun _ => Good m A (ps ++ [p]) ls := by
  intro d h
  rw [installLinuxPackage, Py.run_get_bind]
  cases hget : d.installedPackages.get? p with
  | some pckShort =>
    have hp : p ∈ d.installedPackages.keys := by
      rw [← Dict.get?_isSome_iff, hget]
      rfl
    exact ⟨(), _, rfl, h.already hp pckShort⟩
  | none =>
    have hp : p ∉ d.installedPackages.keys := (Dict.get?_eq_none_iff _ _).mp hget
    have hreq := h.request hp (pckShortOf p)
    rw [requestLine] at hreq
    dsimp only
    rw [Py.run_modify_bind]
    split
    · rename_i hcoreutils
      rw [if_pos hcoreutils] at hreq
      exact ⟨(), _, rfl, hreq⟩
    · rename_i hcoreutils
      rw [if_neg hcoreutils] at hreq
      exact ⟨(), _, rfl, hreq⟩

theorem good_each_install (l : List Text) :
    Py.Triple (Good m A ps ls) (Py.each installLinuxPackage l) fun _ => Good m A (ps ++ l) ls := by
  have h := Py.Triple.each (I := fun done => Good m A (ps ++ done) ls) (l := l)
    (fun done p _ => by rw [← List.append_assoc]; exact good_install p) []
  rwa [List.append_nil] at h

/-- A loop that writes some lines for each element. -/
theorem good_each {α : Type} {f : α → DockerM Unit} {g : α → List Line} {l : List α}
    (hf : ∀ a ∈ l, ∀ ls, Py.Triple (Good m A ps ls) (f a) fun _ => Good m A ps (ls ++ g a)) :
    Py.Triple (Good m A ps ls) (Py.each f l) fun _ => Good m A ps (ls ++ l.flatMap g) := by
  have h := Py.Triple.each (I := fun done => Good m A ps (ls ++ done.flatMap g)) (l := l)
    (fun done a ha => by
      rw [List.flatMap_append, List.flatMap_singleton, ← List.append_assoc]
      exact hf a ha _) []
  rwa [List.flatMap_nil, List.append_nil, List.nil_append] at h

theorem good_packagesOf (files : List Text) :
    Py.Triple (Good m A ps ls) (packagesOf m files) fun r d =>
      Good m A ps ls d ∧ Split m id files r.1 r.2 := by
  intro d h
  obtain ⟨pk, un, hr, hsplit⟩ : ∃ pk un, (getPackagesList m id files d.packagesCache).1
      = .ok (pk, un) ∧ Split m id files pk un := packagesLoop_split h.agrees split_nil
  have hagrees : Agrees m (getPackagesList m id files d.packagesCache).2 :=
    agrees_getPackagesList h.agrees files
  exact ⟨(pk, un), _, Prod.ext (congrArg (Except.mapError _) hr) rfl,
    { h with agrees := hagrees }, hsplit⟩

section
variable {δ : Type} {H : Host δ}

/-- What `AddToDockerDir` writes, when it raises nothing. -/
def addLines (H : Host δ) (pathName : Text) (filComment : Option Text) : List Line :=
  if !H.pathExists pathName then [.missing pathName]
  else if H.isDir pathName then []
  else if H.copy pathName = .ioError then [.cannotAdd pathName]
  else if isSet filComment then [.comment (filComment.getD []), .add pathName]
  else [.add pathName]

/-- A file that is to be copied has `A`, and no exception is raised when it is copied. -/
def Host.Copies (H : Host δ) (A : Text → Prop) (f : Text) : Prop :=
  H.pathExists f = true → H.isDir f = false → A f ∧ H.makeDirs f = true ∧ H.copy f ≠ .raises

theorem addToDockerDir_eq {f : Text} (hf : H.Copies A f) (c : Option Text) :
    addToDockerDir H f c = Py.each write (addLines H f c) := by
  rw [addToDockerDir, addLines]
  by_cases hexists : H.pathExists f = true
  · by_cases hdir : H.isDir f = true
    · simp [hexists, hdir]
    · obtain ⟨-, hmake, hcopy⟩ := hf hexists (by simpa using hdir)
      cases hc : H.copy f with
      | raises => exact absurd hc hcopy
      | ioError =>
        simp only [hexists, hdir, hmake]
        rfl
      | done =>
        simp only [hexists, hdir, hmake, guarded]
        by_cases hset : isSet c = true
        · simp only [hset]
          rfl
        · simp only [hset]
          rfl
  · simp only [hexists]
    rfl

/-- What a copied file has. -/
theorem mem_addLines {f g : Text} {c : Option Text} (hf : H.Copies A f)
    (h : Line.add g ∈ addLines H f c) : A g := by
  rw [addLines] at h
  split at h
  · simp at h
  · rename_i hexists
    split at h
    · cases h
    · rename_i hdir
      have hg : g = f := by
        split at h
        · simp at h
        · split at h <;> simpa using h
      exact hg ▸ (hf (by simpa using hexists) (by simpa using hdir)).1

theorem plain_addLines {f : Text} {c : Option Text} {l : Line} (h : l ∈ addLines H f c) :
    l.Plain := by
  cases l with
  | alreadyInstalled s p =>
    rw [addLines] at h
    split_ifs at h <;> simp at h
  | install s p =>
    rw [addLines] at h
    split_ifs at h <;> simp at h
  | conflict s p =>
    rw [addLines] at h
    split_ifs at h <;> simp at h
  | _ => trivial

theorem good_addToDockerDir {f : Text} (hf : H.Copies A f) (c : Option Text) :
    Py.Triple (Good m A ps ls) (addToDockerDir H f c) fun _ =>
      Good m A ps (ls ++ addLines H f c) := by
  have h : Py.Triple (Good m A ps ls) (Py.each write (addLines H f c)) fun _ =>
      Good m A ps (ls ++ (addLines H f c).flatMap fun l => [l]) :=
    good_each fun l hl ls => good_write (plain_addLines hl) fun g hg =>
      mem_addLines hf (hg ▸ hl)
  rw [addToDockerDir_eq hf]
  rwa [List.flatMap_singleton'] at h

theorem mem_sortedTexts {l : List Text} {t : Text} : t ∈ sortedTexts l ↔ t ∈ l :=
  (List.mergeSort_perm _ _).mem_iff

/-! ## The kinds -/

/-- The packages that the files of a kind need. -/
def kindPackages (H : Host δ) (files : List Text) : DependencyKind → List Text
  | .python => if files = [] then [] else ["python".toList]
  | .perl => []
  | .binary => files.filterMap (packageOf H.machine)

/-- The lines that the files of a kind need. -/
def kindLines (H : Host δ) (files : List Text) : DependencyKind → List Line
  | .python => (files.filter isCopied).flatMap (fun f => addLines H f none)
    ++ (packagesToInstall files).map .pip
  | .perl => files.map .cpanm
  | .binary =>
    (files.filter fun f => packageOf H.machine f = none).flatMap fun f => addLines H f none

theorem mem_packagesToInstall {files : List Text} {p : Text} : p ∈ packagesToInstall files ↔
    ∃ f ∈ files, contains f "packages".toList = true ∧ pythonPackage? f = some p := by
  rw [packagesToInstall, mem_foldl_addToSet]
  simp [and_assoc]

variable {files : List Text}

theorem good_pip {α : Type} (f : α → Text) (l : List α) :
    Py.Triple (Good m A ps ls) (Py.each (fun a => write (.pip (f a))) l) fun _ =>
      Good m A ps (ls ++ l.flatMap fun a => [.pip (f a)]) :=
  good_each fun _ _ _ => good_write trivial fun _ h => by cases h

theorem good_copies {l : List Text} (c : Text → Option Text)
    (hA : ∀ f ∈ l, H.Copies A f) :
    Py.Triple (Good m A ps ls) (Py.each (fun f => addToDockerDir H f (c f)) l) fun _ =>
      Good m A ps (ls ++ l.flatMap fun f => addLines H f (c f)) :=
  good_each fun f hf _ => good_addToDockerDir (hA f hf) (c f)

/-- What depends on the elements of a set does not depend on their order. -/
theorem subset_flatMap_of_perm {α β : Type} {l l' : List α} (h : l.Perm l') (f : α → List β) :
    l'.flatMap f ⊆ l.flatMap f := by
  intro b hb
  obtain ⟨x, hx, hb⟩ := List.mem_flatMap.mp hb
  exact List.mem_flatMap.mpr ⟨x, h.mem_iff.mpr hx, hb⟩

theorem append_subset_append {α : Type} {a a' b b' : List α} (ha : a ⊆ a') (hb : b ⊆ b') :
    a ++ b ⊆ a' ++ b' :=
  List.append_subset.mpr ⟨List.Subset.trans ha (List.subset_append_left a' b'),
    List.Subset.trans hb (List.subset_append_right a' b')⟩

theorem good_python (hA : ∀ f ∈ files, H.Copies A f) :
    Py.Triple (Good m A ps ls) (generatePython H files) fun _ =>
      Good m A (ps ++ kindPackages H files .python) (ls ++ kindLines H files .python) := by
  have hperm := H.files.perm files
  have hcopies : Py.Triple (Good m A ps ls)
      (Py.each (fun f => addToDockerDir H f none) ((H.files.order files).filter isCopied))
      fun _ => Good m A ps (ls ++ ((H.files.order files).filter isCopied).flatMap
        fun f => addLines H f none) :=
    good_copies (fun _ => none) fun f hf => hA f (hperm.mem_iff.mp (List.mem_of_mem_filter hf))
  have hinstall (ls : List Line) : Py.Triple (Good m A ps ls)
      (guarded (packagesToInstall (H.files.order files) ≠ [] ∨ files ≠ [])
        (installLinuxPackage "python".toList))
      fun _ => Good m A (ps ++ kindPackages H files .python) ls := by
    rw [kindPackages]
    refine .ite (fun _ => (good_install _).post fun _ d hd => hd.mono ?_ (List.Subset.refl ls))
      fun h => .pure fun d hd => ?_
    · exact append_subset_append (List.Subset.refl ps) (by split <;> simp)
    · rw [if_pos (by_contra fun hne => h (.inr hne)), List.append_nil]
      exact hd
  have hpip (ps : List Text) (ls : List Line) (l : List Text) : Py.Triple (Good m A ps ls)
      (Py.each (fun m => write (.pip m)) l) fun _ =>
        Good m A ps (ls ++ l.flatMap fun p => [.pip p]) := good_pip id l
  refine (hcopies.bind fun _ => (hinstall _).bind fun _ => hpip _ _ _).post fun _ d hd =>
    hd.mono (List.Subset.refl _) ?_
  rw [kindLines, ← List.append_assoc]
  refine append_subset_append (append_subset_append (List.Subset.refl ls) ?_) ?_
  · exact subset_flatMap_of_perm (hperm.filter isCopied) _
  · intro l hl
    obtain ⟨p, hp, rfl⟩ := List.mem_map.mp hl
    obtain ⟨f, hf, hpack⟩ := mem_packagesToInstall.mp hp
    refine List.mem_flatMap.mpr ⟨p, mem_sortedTexts.mpr ?_, List.mem_singleton.mpr rfl⟩
    exact mem_packagesToInstall.mpr ⟨f, hperm.mem_iff.mpr hf, hpack⟩

theorem good_perl :
    Py.Triple (Good m A ps ls) (generatePerl H files) fun _ =>
      Good m A (ps ++ kindPackages H files .perl) (ls ++ kindLines H files .perl) := by
  have hperm := H.files.perm files
  have hlines : Py.Triple (Good m A ps ls) (generatePerl H files) fun _ =>
      Good m A ps (ls ++ (H.files.order files).flatMap fun f => [.cpanm f]) :=
    good_each fun _ _ _ => good_write trivial fun _ h => by cases h
  refine hlines.post fun _ d hd => hd.mono (by simp [kindPackages]) ?_
  refine append_subset_append (List.Subset.refl ls) ?_
  rw [kindLines, List.map_eq_flatMap]
  exact subset_flatMap_of_perm hperm _

/-- The packages of a set of files, in any order, are installed. -/
theorem good_installAll {pk un : List Text} (hsplit : Split m id (H.files.order files) pk un) :
    Py.Triple (Good m A ps ls) (Py.each installLinuxPackage (sortedTexts pk)) fun _ =>
      Good m A (ps ++ files.filterMap (packageOf m)) ls := by
  refine (good_each_install _).post fun _ d hd => hd.mono ?_ (List.Subset.refl ls)
  refine append_subset_append (List.Subset.refl ps) fun p hp => ?_
  obtain ⟨f, hf, hpack⟩ := List.mem_filterMap.mp hp
  exact mem_sortedTexts.mpr
    ((hsplit.packages p).mpr ⟨f, (H.files.perm files).mem_iff.mpr hf, hpack⟩)

theorem good_binary (hA : ∀ f ∈ files, H.Copies A f) :
    Py.Triple (Good H.machine A ps ls) (generateBinary H files) fun _ =>
      Good H.machine A (ps ++ kindPackages H files .binary) (ls ++ kindLines H files .binary) := by
  have hperm := H.files.perm files
  refine (good_packagesOf _).bind ?_
  rintro ⟨pk, un⟩
  refine .of_and fun hsplit => ?_
  have hun (f : Text) : f ∈ un ↔ f ∈ files ∧ packageOf H.machine f = none := by
    have heq : un = (H.files.order files).filter fun f => packageOf H.machine f = none :=
      hsplit.unknown
    rw [heq, List.mem_filter, hperm.mem_iff]
    simp
  have hcopies (ps : List Text) : Py.Triple (Good H.machine A ps ls)
      (Py.each (fun f => addToDockerDir H f none) (sortedTexts un))
      fun _ => Good H.machine A ps (ls ++ (sortedTexts un).flatMap fun f => addLines H f none) :=
    good_copies (fun _ => none) fun f hf => hA f ((hun f).mp (mem_sortedTexts.mp hf)).1
  refine (good_text _).bind fun _ => (good_installAll hsplit).bind fun _ =>
    (good_text _).bind fun _ => (good_text _).bind fun _ => (hcopies _).post fun _ d hd =>
      hd.mono (List.Subset.refl _) (append_subset_append (List.Subset.refl ls) ?_)
  intro l hl
  obtain ⟨f, hf, hl⟩ := List.mem_flatMap.mp hl
  refine List.mem_flatMap.mpr ⟨f, mem_sortedTexts.mpr ((hun f).mpr ?_), hl⟩
  simpa using hf

/-- Each kind asks for its packages and writes its lines. -/
theorem good_kind (kind : DependencyKind)
    (hA : ∀ f ∈ files, H.Copies A f) :
    Py.Triple (Good H.machine A ps ls) (generateDockerDependencies H files kind) fun _ =>
      Good H.machine A (ps ++ kindPackages H files kind) (ls ++ kindLines H files kind) := by
  cases kind with
  | python => exact good_python hA
  | perl => exact good_perl
  | binary => exact good_binary hA

end

/-! ## The whole file -/

section
variable {δ : Type} {H : Host δ}

/-- A step that is made under a condition, and is not needed otherwise. -/
theorem good_guarded {c : Prop} [Decidable c] {step : DockerM Unit}
    (h : c → Py.Triple (Good m A ps ls) step fun _ => Good m A ps' ls')
    (hp : ¬c → ps' ⊆ ps) (hl : ¬c → ls' ⊆ ls) :
    Py.Triple (Good m A ps ls) (guarded c step) fun _ => Good m A ps' ls' :=
  .ite h fun hc => .pure fun _ hd => hd.mono (hp hc) (hl hc)

/-- The loop on the kinds. -/
theorem good_kinds {codeFiles : DependencyKind → List Text} {kinds : List DependencyKind}
    (hA : ∀ kind ∈ kinds, ∀ f ∈ codeFiles kind, H.Copies A f) :
    Py.Triple (Good H.machine A ps ls) (Py.each (fun oneDep => do
      write (.text ("# Dependencies: ".toList ++ oneDep.dependencyName ++ ['\n']))
      generateDockerDependencies H (codeFiles oneDep) oneDep
      write (.text ['\n'])) (H.kinds.order kinds)) fun _ =>
        Good H.machine A (ps ++ kinds.flatMap fun k => kindPackages H (codeFiles k) k)
          (ls ++ kinds.flatMap fun k => kindLines H (codeFiles k) k) := by
  have hperm := H.kinds.perm kinds
  have h := Py.Triple.each (I := fun done => Good H.machine A
      (ps ++ done.flatMap fun k => kindPackages H (codeFiles k) k)
      (ls ++ done.flatMap fun k => kindLines H (codeFiles k) k))
    (l := H.kinds.order kinds) (f := fun oneDep => do
      write (.text ("# Dependencies: ".toList ++ oneDep.dependencyName ++ ['\n']))
      generateDockerDependencies H (codeFiles oneDep) oneDep
      write (.text ['\n'])) (fun done kind hkind => by
        simp only [List.flatMap_append, List.flatMap_singleton, ← List.append_assoc]
        exact (good_text _).bind fun _ => (good_kind kind (hA kind (hperm.mem_iff.mp hkind))).bind
          fun _ => good_text _) []
  simp only [List.flatMap_nil, List.append_nil, List.nil_append] at h
  exact h.post fun _ d hd => hd.mono
    (append_subset_append (List.Subset.refl ps) (subset_flatMap_of_perm hperm _))
    (append_subset_append (List.Subset.refl ls) (subset_flatMap_of_perm hperm _))

/-- What the Dockerfile has for a code file. -/
def CodeProvided (H : Host δ) (lines : List Line) : DependencyKind → Text → Prop
  | .python, f => requestLine "python".toList ∈ lines ∧
    (isCopied f = true → addLines H f none ⊆ lines) ∧
    (contains f "packages".toList = true → ∀ p, pythonPackage? f = some p → .pip p ∈ lines)
  | .perl, f => .cpanm f ∈ lines
  | .binary, f => (∀ p, packageOf H.machine f = some p → requestLine p ∈ lines) ∧
    (packageOf H.machine f = none → addLines H f none ⊆ lines)

/-- What the Dockerfile has for a data file: its package, its Python modules, or a copy. -/
structure DataProvided (H : Host δ) (lines : List Line) (f : Text) : Prop where
  package : ∀ p, packageOf H.machine f = some p → requestLine p ∈ lines
  modules : packageOf H.machine f = none → ∀ m ∈ H.pythonCache f, .pip (H.moduleName m) ∈ lines
  copy : packageOf H.machine f = none → H.pythonCache f = [] → isAdded f = true →
    addLines H f (some (pathCategory f)) ⊆ lines

/-- What a code file needs is provided with what its kind needs. -/
theorem codeProvided {lines : List Line} {files : List Text} {kind : DependencyKind} {f : Text}
    (hf : f ∈ files) (hp : ∀ p ∈ kindPackages H files kind, requestLine p ∈ lines)
    (hl : ∀ l ∈ kindLines H files kind, l ∈ lines) : CodeProvided H lines kind f := by
  cases kind with
  | python =>
    refine ⟨hp _ ?_, fun hcopied l hmem => hl l ?_, fun hpackages p hpip => hl _ ?_⟩
    · rw [kindPackages, if_neg (List.ne_nil_of_mem hf)]
      exact List.mem_singleton.mpr rfl
    · exact List.mem_append_left _
        (List.mem_flatMap.mpr ⟨f, List.mem_filter.mpr ⟨hf, hcopied⟩, hmem⟩)
    · exact List.mem_append_right _
        (List.mem_map.mpr ⟨p, mem_packagesToInstall.mpr ⟨f, hf, hpackages, hpip⟩, rfl⟩)
  | perl => exact hl _ (List.mem_map.mpr ⟨f, hf, rfl⟩)
  | binary =>
    refine ⟨fun p hpack => hp p (List.mem_filterMap.mpr ⟨f, hf, hpack⟩), fun hnone l hmem =>
      hl l ?_⟩
    exact List.mem_flatMap.mpr ⟨f, List.mem_filter.mpr ⟨hf, decide_eq_true hnone⟩, hmem⟩

variable [DecidableEq δ]

theorem mem_modules {x : δ} {l : List Text} :
    x ∈ (filesToPythonModules H l).1 ↔ ∃ f ∈ l, x ∈ H.pythonCache f := by
  refine (foldl_iff (P := fun r : List δ × List Text => x ∈ r.1)
    (Q := fun f => x ∈ H.pythonCache f) ?_ l ([], [])).trans (or_iff_right List.not_mem_nil)
  intro r f
  split
  · rename_i h
    simp [h]
  · exact mem_foldl_addToSet

theorem mem_unknown {f : Text} {l : List Text} :
    f ∈ (filesToPythonModules H l).2 ↔ f ∈ l ∧ H.pythonCache f = [] := by
  refine (foldl_iff (P := fun r : List δ × List Text => f ∈ r.2)
    (Q := fun g => g = f ∧ H.pythonCache g = []) ?_ l ([], [])).trans ?_
  · intro r g
    split
    · rename_i h
      simp [h, eq_comm]
    · rename_i h
      simp [h]
  · rw [or_iff_right List.not_mem_nil]
    constructor
    · rintro ⟨g, hg, rfl, h⟩
      exact ⟨hg, h⟩
    · rintro ⟨hf, h⟩
      exact ⟨f, hf, rfl, h⟩

/-- What a copied file has: it exists, it is not a directory, and a process has accessed it. -/
def Copied (H : Host δ) (w : Objects) (f : Text) : Prop :=
  H.pathExists f = true ∧ H.isDir f = false ∧ ∃ o ∈ processesOf w, f ∈ accessedNames w o

/-- The directory of the copy of each accessed file can be made, and a copy that fails raises
`IOError`. -/
def CanCopy (H : Host δ) (w : Objects) : Prop :=
  ∀ o ∈ processesOf w, ∀ f ∈ accessedNames w o, H.pathExists f = true → H.isDir f = false →
    H.makeDirs f = true ∧ H.copy f ≠ .raises

/-- The packages that the files of the processes need. -/
def neededPackages (H : Host δ) (w : Objects) : List Text :=
  (collect w).binaryExecutables.filterMap (packageOf H.machine) ++
    ((collect w).usefulDependencies.flatMap
      fun k => kindPackages H ((collect w).accessedCodeFiles k) k) ++
    (collect w).accessedDataFiles.filterMap (packageOf H.machine)

/-- The lines for the Python modules of some files. -/
def moduleLines (H : Host δ) (files : List Text) : List Line :=
  files.flatMap fun f => (H.pythonCache f).map fun m => .pip (H.moduleName m)

/-- The lines for the data files that come from nowhere. -/
def dataLines (H : Host δ) (files : List Text) : List Line :=
  (files.filter fun f => H.pythonCache f = [] ∧ isAdded f).flatMap
    fun f => addLines H f (some (pathCategory f))

/-- The data files that have no package. -/
def unpackagedFiles (H : Host δ) (w : Objects) : List Text :=
  (collect w).accessedDataFiles.filter fun f => packageOf H.machine f = none

/-- The lines that the files of the processes need. -/
def neededLines (H : Host δ) (w : Objects) : List Line :=
  ((collect w).usefulDependencies.flatMap
      fun k => kindLines H ((collect w).accessedCodeFiles k) k) ++
    moduleLines H (unpackagedFiles H w) ++ dataLines H (unpackagedFiles H w)

/-- The Python modules of the data files. -/
theorem good_modules {un files : List Text} (hun : ∀ f, f ∈ un ↔ f ∈ files) :
    Py.Triple (Good m A ps ls) (guarded ((filesToPythonModules H un).1 ≠ []) do
      write (.text "# Python modules:\n".toList)
      Py.each (fun m => write (.pip (H.moduleName m)))
        (H.sortModules.order (filesToPythonModules H un).1)
      write (.text ['\n'])) fun _ => Good m A ps (ls ++ moduleLines H files) := by
  have hmem : ∀ l ∈ moduleLines H files, ∃ x ∈ (filesToPythonModules H un).1,
      l = .pip (H.moduleName x) := by
    intro l hl
    obtain ⟨f, hf, hl⟩ := List.mem_flatMap.mp hl
    obtain ⟨x, hx, rfl⟩ := List.mem_map.mp hl
    exact ⟨x, mem_modules.mpr ⟨f, (hun f).mpr hf, hx⟩, rfl⟩
  refine good_guarded (fun _ => (good_text _).bind fun _ => (good_pip H.moduleName _).bind fun _ =>
    (good_text _).post fun _ d hd => hd.mono (List.Subset.refl ps) ?_)
    (fun _ => List.Subset.refl ps) fun hnone => ?_
  · refine append_subset_append (List.Subset.refl ls) fun l hl => ?_
    obtain ⟨x, hx, rfl⟩ := hmem l hl
    exact List.mem_flatMap.mpr
      ⟨x, (H.sortModules.perm _).mem_iff.mpr hx, List.mem_singleton.mpr rfl⟩
  · refine List.append_subset.mpr ⟨List.Subset.refl ls, fun l hl => ?_⟩
    obtain ⟨x, hx, -⟩ := hmem l hl
    rw [not_not.mp hnone] at hx
    cases hx

/-- The copies of the data files. -/
theorem good_data {un files : List Text} (hun : ∀ f, f ∈ un ↔ f ∈ files)
    (hA : ∀ f ∈ files, H.Copies A f) :
    Py.Triple (Good m A ps ls) (guarded ((filesToPythonModules H un).2 ≠ []) do
      write (.text "# Data files:\n".toList)
      Py.each (fun filNam => addToDockerDir H filNam (some (pathCategory filNam)))
        ((sortedTexts (filesToPythonModules H un).2).filter isAdded)) fun _ =>
      Good m A ps (ls ++ dataLines H files) := by
  have hmem : ∀ l ∈ dataLines H files, ∃ f ∈ (filesToPythonModules H un).2, isAdded f = true ∧
      l ∈ addLines H f (some (pathCategory f)) := by
    intro l hl
    obtain ⟨f, hf, hl⟩ := List.mem_flatMap.mp hl
    obtain ⟨hf, hkeep⟩ := List.mem_filter.mp hf
    rw [decide_eq_true_eq] at hkeep
    exact ⟨f, mem_unknown.mpr ⟨(hun f).mpr hf, hkeep.1⟩, hkeep.2, hl⟩
  have hcopies (ls : List Line) : Py.Triple (Good m A ps ls)
      (Py.each (fun filNam => addToDockerDir H filNam (some (pathCategory filNam)))
        ((sortedTexts (filesToPythonModules H un).2).filter isAdded)) fun _ =>
      Good m A ps (ls ++ ((sortedTexts (filesToPythonModules H un).2).filter isAdded).flatMap
        fun f => addLines H f (some (pathCategory f))) := by
    refine good_copies (fun f => some (pathCategory f)) fun f hf => hA f ((hun f).mp ?_)
    exact (mem_unknown.mp (mem_sortedTexts.mp (List.mem_of_mem_filter hf))).1
  refine good_guarded (fun _ => (good_text _).bind fun _ => (hcopies _).post fun _ d hd =>
    hd.mono (List.Subset.refl ps) ?_) (fun _ => List.Subset.refl ps) fun hnone => ?_
  · refine append_subset_append (List.Subset.refl ls) fun l hl => ?_
    obtain ⟨f, hf, hkeep, hl⟩ := hmem l hl
    exact List.mem_flatMap.mpr ⟨f, List.mem_filter.mpr ⟨mem_sortedTexts.mpr hf, hkeep⟩, hl⟩
  · refine List.append_subset.mpr ⟨List.Subset.refl ls, fun l hl => ?_⟩
    obtain ⟨f, hf, -⟩ := hmem l hl
    rw [not_not.mp hnone] at hf
    cases hf

/-- The generation asks for the packages and writes the lines that are needed. -/
theorem good_generate (H : Host δ) {w : Objects} (hprocesses : w.processes ≠ [])
    (hcopy : CanCopy H w) :
    Py.Triple (Good H.machine (Copied H w) [] []) (generateDockerProcessDependencies H w) fun _ =>
      Good H.machine (Copied H w) (neededPackages H w) (neededLines H w) := by
  have hcode : ∀ kind ∈ (collect w).usefulDependencies, ∀ f ∈ (collect w).accessedCodeFiles kind,
      H.Copies (Copied H w) f := by
    intro kind _ f hf hexists hdir
    obtain ⟨o, ho, hacc, -⟩ := mem_codeFiles.mp hf
    exact ⟨⟨hexists, hdir, o, ho, hacc⟩, hcopy o ho f hacc hexists hdir⟩
  have hdata : ∀ f ∈ unpackagedFiles H w, H.Copies (Copied H w) f := by
    intro f hf hexists hdir
    obtain ⟨o, ho, hacc, -⟩ := mem_dataFiles.mp (List.mem_of_mem_filter hf)
    exact ⟨⟨hexists, hdir, o, ho, hacc⟩, hcopy o ho f hacc hexists hdir⟩
  rw [generateDockerProcessDependencies, guarded, if_neg hprocesses]
  have hstart : Py.Triple (Good H.machine (Copied H w) [] []) (Pure.pure () : DockerM Unit)
      fun _ => Good H.machine (Copied H w) [] [] := .pure fun _ hd => hd
  refine hstart.bind fun _ => (good_text _).bind fun _ => (good_packagesOf _).bind ?_
  rintro ⟨pk, un⟩
  refine .of_and fun hexecs => (good_installAll hexecs).bind fun _ => (good_text _).bind fun _ =>
    (good_text _).bind fun _ => (good_kinds hcode).bind fun _ => (good_packagesOf _).bind ?_
  rintro ⟨pkData, unData⟩
  refine .of_and fun hsplit => ?_
  have hun (f : Text) : f ∈ unData ↔ f ∈ unpackagedFiles H w := by
    have heq : unData = (H.files.order (collect w).accessedDataFiles).filter
      fun f => packageOf H.machine f = none := hsplit.unknown
    rw [heq, unpackagedFiles, List.mem_filter, List.mem_filter, (H.files.perm _).mem_iff]
  exact (good_modules hun).bind fun _ => (good_text _).bind fun _ =>
    (good_installAll hsplit).bind fun _ => (good_text _).bind fun _ =>
      (good_data hun hdata).bind fun _ => good_text _

/-- Each package is asked for once, and is reported as installed after that only; what is installed
is the short name of a package, and never `coreutils`; each process has the package of its
executable, its code files and its data files; and nothing else is copied. -/
structure Complete (H : Host δ) (w : Objects) (lines : List Line) : Prop where
  once : ∀ p, lines.count (requestLine p) ≤ 1
  install : ∀ s p, .install s p ∈ lines → s = pckShortOf p ∧ s ≠ "coreutils".toList
  before : Before lines
  executables : ∀ o ∈ processesOf w, ∀ e, o.executable = some e →
    ∀ p, packageOf H.machine e = some p → requestLine p ∈ lines
  code : ∀ o ∈ processesOf w, ∀ f ∈ accessedNames w o,
    (dependencyOf o.executable).isCode f = true → CodeProvided H lines (dependencyOf o.executable) f
  data : ∀ o ∈ processesOf w, ∀ f ∈ accessedNames w o,
    (dependencyOf o.executable).isCode f = false → DataProvided H lines f
  copied : ∀ f, .add f ∈ lines → Copied H w f

omit [DecidableEq δ] in
theorem Good.complete {w : Objects} {d : Docker}
    (h : Good H.machine (Copied H w) (neededPackages H w) (neededLines H w) d) :
    Complete H w d.lines := by
  have hpackage : ∀ p ∈ neededPackages H w, requestLine p ∈ d.lines := fun p hp =>
    h.requested (h.installed p hp)
  simp only [neededPackages, List.mem_append] at hpackage
  have hwritten := h.written
  simp only [neededLines, List.mem_append] at hwritten
  constructor
  · intro p
    rw [h.count p]
    split <;> omega
  · exact h.install
  · exact h.before
  · intro o ho e he p hp
    exact hpackage p (.inl (.inl (List.mem_filterMap.mpr
      ⟨e, mem_binaryExecutables.mpr ⟨o, ho, he⟩, hp⟩)))
  · intro o ho f hf hcode
    have hkind := mem_usefulDependencies.mpr ⟨o, ho, rfl⟩
    refine codeProvided (mem_codeFiles.mpr ⟨o, ho, hf, rfl, hcode⟩) (fun p hp => ?_)
      fun l hl => ?_
    · exact hpackage p (.inl (.inr (List.mem_flatMap.mpr ⟨_, hkind, hp⟩)))
    · exact hwritten l (.inl (.inl (List.mem_flatMap.mpr ⟨_, hkind, hl⟩)))
  · intro o ho f hf hcode
    have hdata := mem_dataFiles.mpr ⟨o, ho, hf, hcode⟩
    have hunpackaged (hnone : packageOf H.machine f = none) : f ∈ unpackagedFiles H w :=
      List.mem_filter.mpr ⟨hdata, decide_eq_true hnone⟩
    constructor
    · intro p hp
      exact hpackage p (.inr (List.mem_filterMap.mpr ⟨f, hdata, hp⟩))
    · intro hnone x hx
      exact hwritten _ (.inl (.inr (List.mem_flatMap.mpr
        ⟨f, hunpackaged hnone, List.mem_map.mpr ⟨x, hx, rfl⟩⟩)))
    · intro hnone hmodules hadded l hl
      exact hwritten l (.inr (List.mem_flatMap.mpr ⟨f, List.mem_filter.mpr
        ⟨hunpackaged hnone, decide_eq_true ⟨hmodules, hadded⟩⟩, hl⟩))
  · exact h.added

/-- Whatever sessions have left the file of the packages, if `rpm` does not change what it has
answered to them, and whatever processes were traced, if there is one and their files can be copied,
the dependencies are written, no exception is raised, and the Dockerfile has all of them. -/
theorem generateDockerProcessDependencies_complete (H : Host δ) (w : Objects)
    (sessions : List (Session Text)) (hsame : ∀ s ∈ sessions, s.SameAnswers id H.machine)
    (hprocesses : w.processes ≠ []) (hcopy : CanCopy H w) :
    ∃ d, (generateDockerProcessDependencies H w).run
        ⟨.load (fileAfter id .absent sessions), [], []⟩ = (.ok (), d) ∧ Complete H w d.lines := by
  have hfile : (fileAfter id .absent sessions).Agrees H.machine :=
    agrees_fileAfter (agrees_absent H.machine) hsame
  have hinit : Good H.machine (Copied H w) [] []
      ⟨.load (fileAfter id .absent sessions), [], []⟩ :=
    { agrees := agrees_load hfile
      count := fun p => by simp [Dict.keys]
      install := fun s p hp => by cases hp
      before := fun pre _ _ post heq => by
        cases pre <;> cases heq
      added := fun f hf => by cases hf
      installed := fun p hp => by cases hp
      written := fun l hl => by cases hl }
  obtain ⟨⟨⟩, d, hrun, hgood⟩ := good_generate H hprocesses hcopy _ hinit
  exact ⟨d, hrun, hgood.complete⟩

/-- A host whose files can be copied, but one that cannot be read. -/
def readableHost : Host Text where
  machine := twoFilesPackaged
  pathExists filNam := filNam ≠ "/data/gone".toList
  isDir filNam := filNam = "/data".toList
  makeDirs _ := true
  copy filNam := if filNam = "/data/secret".toList then .ioError else .done
  pythonCache _ := []
  moduleName := id
  sortModules := ⟨id, .refl⟩
  files := ⟨List.reverse, List.reverse_perm⟩
  kinds := ⟨id, .refl⟩

/-- A process of `python` runs a script, which reads four files, and another process runs `ls`. -/
def scriptObjects : Objects :=
  let names := ["/work/a.py".toList, "/data".toList, "/data/gone".toList, "/data/secret".toList,
    "/usr/bin/vim".toList]
  { Objects.init with
    processes := [(7, { CIMProcess.new (.replayed 7 []) 7 none with
        executable := some "/usr/bin/python".toList, processFileAccesses := [0, 1, 2, 3, 4] }),
      (8, { CIMProcess.new (.replayed 7 []) 8 (some 7) with
        executable := some "/bin/ls".toList })]
    fileAccesses := names.map (FileAccess.new 7) }

theorem generateDockerProcessDependencies_scriptObjects :
    ∃ d, (generateDockerProcessDependencies readableHost scriptObjects).run
        ⟨.load (fileAfter id .absent vimInstalled.tail), [], []⟩ = (.ok (), d) ∧
      Complete readableHost scriptObjects d.lines :=
  generateDockerProcessDependencies_complete readableHost scriptObjects vimInstalled.tail
    (by decide) (by decide) (by unfold CanCopy; decide)

end

end Survol.Dockit.Packages
