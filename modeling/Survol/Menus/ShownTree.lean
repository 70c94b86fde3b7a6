import Survol.Menus.Scripts
import Survol.Lib.LabelTree

/-!
# The tree of the shown scripts

What is shown of a directory is a tree of paths, the scripts in it have different addresses, and
the links of the graph are the edges of the tree.

## Main definitions

* `Dir.Ok` — a directory tree with different names, without slashes.
* `shownPaths` — the paths of the shown directories and scripts.
* `Entered` — a sub-directory that is looked into.

## Main results

* `isPaths_shownPaths` — the shown paths are those of a tree.
* `mem_dirToMenuAux_script` — the links of the graph are the edges of the tree.
* `dirToMenuAux_snd` — a directory says whether it has a script to show.
-/

namespace Survol.Menus

open PyText (Text splitOn)
open LabelTree

/-! ## Directory trees -/

/-- The names of the sub-directories. -/
def Dirs.names : Dirs → List Text
  | .nil => []
  | .cons name _ _ _ rest => name :: rest.names

mutual

/-- The names in a directory are different and have no slash. -/
def Dir.Ok : Dir → Prop
  | .missing => True
  | .mk _ dirs files => dirs.Ok ∧ dirs.names.Nodup ∧ (files.map File.name).Nodup ∧
      ∀ fil ∈ files, '/' ∉ fil.name

/-- The names in the sub-directories are different and have no slash. -/
def Dirs.Ok : Dirs → Prop
  | .nil => True
  | .cons name _ _ content rest => '/' ∉ name ∧ content.Ok ∧ rest.Ok

end

namespace MenuEnv

variable (env : MenuEnv)

/-- The paths of the shown directories and scripts. -/
def shownPaths (relativeDir : Text) (d : Dir) : List (List Node) :=
  (env.shownItems relativeDir d).map Prod.fst

/-- The paths of the shown sub-directories and their scripts. -/
def shownDirPaths (relativeDir : Text) (dirs : Dirs) : List (List Node) :=
  (env.shownDirs relativeDir dirs).map Prod.fst

/-- The paths of the shown files. -/
def shownFilePaths (relativeDir : Text) (files : List File) : List (List Node) :=
  (env.shownFiles relativeDir files).map Prod.fst

theorem shownPaths_mk (relativeDir : Text) (dirs : Dirs) (files : List File) :
    env.shownPaths relativeDir (.mk none dirs files) =
      env.shownDirPaths relativeDir dirs ++ env.shownFilePaths relativeDir files := by
  rw [shownPaths, shownItems, List.map_append]
  rfl

/-- A sub-directory that is looked into: its module can be imported, and is no class. -/
inductive Entered : Text → Option (Option Text) → Bool → Text → Prop
  | intro (name : Text) (doc : Option Text) (h : name ≠ "__pycache__".toList) :
    Entered name (some doc) false (fromModuleToDoc doc name)

variable {name : Text} {doc : Option (Option Text)} {isClass : Bool}

theorem entered_or (name : Text) (doc : Option (Option Text)) (isClass : Bool) :
    (∃ title, Entered name doc isClass title) ∨
      (∀ relativeDir content rest, env.shownDirs relativeDir (.cons name doc isClass content rest) =
        env.shownDirs relativeDir rest) ∧
      ∀ parentNode relativeDir content rest,
        env.dirsToMenu parentNode relativeDir (.cons name doc isClass content rest) =
          env.dirsToMenu parentNode relativeDir rest := by
  by_cases hname : name = "__pycache__".toList
  · right
    constructor
    · intro relativeDir content rest
      cases doc <;> rw [shownDirs, if_pos hname]
    · intro parentNode relativeDir content rest
      cases doc <;> rw [dirsToMenu, if_pos hname]
  · cases doc with
    | none =>
      right
      constructor
      · intro relativeDir content rest
        rw [shownDirs, if_neg hname]
      · intro parentNode relativeDir content rest
        rw [dirsToMenu, if_neg hname]
    | some doc =>
      cases isClass
      · exact .inl ⟨_, .intro name doc hname⟩
      · right
        constructor
        · intro relativeDir content rest
          rw [shownDirs, if_neg hname]
          rfl
        · intro parentNode relativeDir content rest
          rw [dirsToMenu, if_neg hname]
          rfl

variable {title : Text} (h : Entered name doc isClass title)

include h

theorem shownDirs_of_entered (relativeDir : Text) (content : Dir) (rest : Dirs) :
    env.shownDirs relativeDir (.cons name doc isClass content rest) =
      (if env.shownItems (relativeDir ++ '/' :: name) content = [] then [] else
        ([Node.literal title], title) :: (env.shownItems (relativeDir ++ '/' :: name) content).map
          fun p => (.literal title :: p.1, p.2)) ++ env.shownDirs relativeDir rest := by
  cases h with
  | intro doc hname =>
    rw [shownDirs, if_neg hname]
    simp only [Bool.false_eq_true, if_false]
    split <;> simp

theorem shownDirPaths_of_entered (relativeDir : Text) (content : Dir) (rest : Dirs) :
    env.shownDirPaths relativeDir (.cons name doc isClass content rest) =
      (if env.shownPaths (relativeDir ++ '/' :: name) content = [] then [] else
        [Node.literal title] :: (env.shownPaths (relativeDir ++ '/' :: name) content).map
          (Node.literal title :: ·)) ++ env.shownDirPaths relativeDir rest := by
  rw [shownDirPaths, shownDirs_of_entered env h, shownPaths, List.map_append]
  congr 1
  simp only [List.map_eq_nil_iff]
  split
  · rfl
  · simp [List.map_map, Function.comp_def]

theorem dirsToMenu_of_entered (parentNode : Node) (relativeDir : Text) (content : Dir)
    (rest : Dirs) :
    env.dirsToMenu parentNode relativeDir (.cons name doc isClass content rest) =
      let s := env.dirToMenuAux (.literal title) (relativeDir ++ '/' :: name) content
      let r := env.dirsToMenu parentNode relativeDir rest
      (s.1 ++ (if s.2 then [(parentNode, .script, .literal title)] else []) ++ r.1,
        s.2 || r.2) := by
  cases h with
  | intro doc hname =>
    rw [dirsToMenu, if_neg hname]
    simp only [Bool.false_eq_true, if_false]

end MenuEnv

/-! ## The tree -/

namespace MenuEnv

variable (env : MenuEnv)

theorem mem_shownFilePaths {relativeDir : Text} {files : List File} {c : List Node} :
    c ∈ env.shownFilePaths relativeDir files ↔ ∃ fil ∈ files, env.isShown fil = true ∧
      c = [env.makeTheNodeFromScript (relativeDir ++ '/' :: fil.name)] := by
  simp only [shownFilePaths, shownFiles, List.map_map, List.mem_map, List.mem_filter,
    Function.comp]
  constructor
  · rintro ⟨fil, ⟨hfil, hs⟩, rfl⟩
    exact ⟨fil, hfil, hs, rfl⟩
  · rintro ⟨fil, hfil, hs, rfl⟩
    exact ⟨fil, ⟨hfil, hs⟩, rfl⟩

theorem isPaths_shownFilePaths (relativeDir : Text) (files : List File) :
    IsPaths (env.shownFilePaths relativeDir files) where
  ne_nil := by
    intro h
    obtain ⟨fil, -, -, h⟩ := (mem_shownFilePaths env).mp h
    cases h
  parent := by
    intro c b h
    obtain ⟨fil, -, -, h⟩ := (mem_shownFilePaths env).mp h
    cases c with
    | nil => exact .inl rfl
    | cons x c => simp at h

mutual

/-- The shown paths are those of a tree. -/
theorem isPaths_shownPaths (relativeDir : Text) : (d : Dir) →
    IsPaths (env.shownPaths relativeDir d)
  | .missing => .nil
  | .mk (some _) _ _ => .nil
  | .mk none dirs files => by
    rw [shownPaths_mk]
    exact (isPaths_shownDirPaths relativeDir dirs).append
      (isPaths_shownFilePaths env relativeDir files)

/-- The paths of the sub-directories are those of a tree. -/
theorem isPaths_shownDirPaths (relativeDir : Text) : (dirs : Dirs) →
    IsPaths (env.shownDirPaths relativeDir dirs)
  | .nil => .nil
  | .cons name doc isClass content rest => by
    have hrest := isPaths_shownDirPaths relativeDir rest
    rcases entered_or env name doc isClass with ⟨title, h⟩ | ⟨hskip, -⟩
    · rw [shownDirPaths_of_entered env h]
      split
      · exact hrest
      · exact (isPaths_shownPaths (relativeDir ++ '/' :: name) content).cons_map.append hrest
    · rw [shownDirPaths, hskip]
      exact hrest

end

/-! ## The links of the graph -/

theorem shownFiles_cons_of_shown {relativeDir : Text} {fil : File} {files : List File}
    (hs : env.isShown fil = true) : env.shownFiles relativeDir (fil :: files) =
      ([env.makeTheNodeFromScript (relativeDir ++ '/' :: fil.name)], fileTitle fil) ::
        env.shownFiles relativeDir files := by
  simp [shownFiles, hs]

theorem shownFiles_cons_of_not {relativeDir : Text} {fil : File} {files : List File}
    (hs : ¬ env.isShown fil = true) :
    env.shownFiles relativeDir (fil :: files) = env.shownFiles relativeDir files := by
  simp [shownFiles, hs]

theorem mem_filesToMenu_script {parentNode : Node} {relativeDir : Text} {files : List File}
    {a b : Node} : (a, .script, b) ∈ (env.filesToMenu parentNode relativeDir files).1 ↔
      Edge parentNode (env.shownFilePaths relativeDir files) a b := by
  induction files with
  | nil => simp [filesToMenu, shownFilePaths, shownFiles, edge_nil]
  | cons fil files ih =>
    rw [filesToMenu, shownFilePaths]
    by_cases hs : env.isShown fil = true
    · rw [shownFiles_cons_of_shown env hs, List.map_cons, edge_cons_singleton, ← shownFilePaths,
        ← ih]
      cases errorMsg fil <;> simp [hs, eq_comm]
    · rw [shownFiles_cons_of_not env hs, ← shownFilePaths, ← ih]
      simp [hs]

theorem filesToMenu_snd (parentNode : Node) (relativeDir : Text) (files : List File) :
    (env.filesToMenu parentNode relativeDir files).2 = true ↔
      env.shownFiles relativeDir files ≠ [] := by
  induction files with
  | nil => simp [filesToMenu, shownFiles]
  | cons fil files ih =>
    rw [filesToMenu]
    by_cases hs : env.isShown fil = true
    · simp [hs, shownFiles]
    · rw [shownFiles_cons_of_not env hs, ← ih]
      simp [hs]

mutual

/-- A directory says whether it has a script to show. -/
theorem dirToMenuAux_snd (parentNode : Node) (relativeDir : Text) : (d : Dir) →
    ((env.dirToMenuAux parentNode relativeDir d).2 = true ↔ env.shownItems relativeDir d ≠ [])
  | .missing => by simp [dirToMenuAux, shownItems]
  | .mk (some _) _ _ => by simp [dirToMenuAux, shownItems]
  | .mk none dirs files => by
    have hd := dirsToMenu_snd parentNode relativeDir dirs
    have hf := filesToMenu_snd env parentNode relativeDir files
    simp only [dirToMenuAux, shownItems, Bool.or_eq_true, hd, hf, ne_eq, List.append_eq_nil_iff]
    tauto

/-- And so do the sub-directories. -/
theorem dirsToMenu_snd (parentNode : Node) (relativeDir : Text) : (dirs : Dirs) →
    ((env.dirsToMenu parentNode relativeDir dirs).2 = true ↔ env.shownDirs relativeDir dirs ≠ [])
  | .nil => by simp [dirsToMenu, shownDirs]
  | .cons name doc isClass content rest => by
    have hrest := dirsToMenu_snd parentNode relativeDir rest
    rcases entered_or env name doc isClass with ⟨title, h⟩ | ⟨hskip, hskip'⟩
    · have hcontent := dirToMenuAux_snd (.literal title) (relativeDir ++ '/' :: name) content
      rw [dirsToMenu_of_entered env h, shownDirs_of_entered env h]
      simp only [Bool.or_eq_true, hcontent, hrest]
      split <;> simp_all
    · rw [hskip, hskip', hrest]

end

mutual

/-- The links of the graph are the edges of the tree. -/
theorem mem_dirToMenuAux_script (parentNode : Node) (relativeDir : Text) {a b : Node} :
    (d : Dir) → ((a, .script, b) ∈ (env.dirToMenuAux parentNode relativeDir d).1 ↔
      Edge parentNode (env.shownPaths relativeDir d) a b)
  | .missing => by simp [dirToMenuAux, shownPaths, shownItems, edge_nil]
  | .mk (some _) _ _ => by simp [dirToMenuAux, shownPaths, shownItems, edge_nil]
  | .mk none dirs files => by
    rw [dirToMenuAux, List.mem_append, mem_dirsToMenu_script parentNode relativeDir dirs,
      mem_filesToMenu_script, shownPaths_mk, edge_append]

/-- The links of the sub-directories are the edges of their trees. -/
theorem mem_dirsToMenu_script (parentNode : Node) (relativeDir : Text) {a b : Node} :
    (dirs : Dirs) → ((a, .script, b) ∈ (env.dirsToMenu parentNode relativeDir dirs).1 ↔
      Edge parentNode (env.shownDirPaths relativeDir dirs) a b)
  | .nil => by simp [dirsToMenu, shownDirPaths, shownDirs, edge_nil]
  | .cons name doc isClass content rest => by
    have hrest := mem_dirsToMenu_script parentNode relativeDir (a := a) (b := b) rest
    rcases entered_or env name doc isClass with ⟨title, h⟩ | ⟨hskip, hskip'⟩
    · have hcontent := mem_dirToMenuAux_script (.literal title) (relativeDir ++ '/' :: name)
        (a := a) (b := b) content
      have hsnd := dirToMenuAux_snd env (.literal title) (relativeDir ++ '/' :: name) content
      have hempty : env.shownPaths (relativeDir ++ '/' :: name) content = [] ↔
          env.shownItems (relativeDir ++ '/' :: name) content = [] := by simp [shownPaths]
      have hpaths := isPaths_shownPaths env (relativeDir ++ '/' :: name) content
      rw [dirsToMenu_of_entered env h, shownDirPaths_of_entered env h, edge_append, ← hrest]
      simp only [List.mem_append, hcontent]
      by_cases hs : env.shownItems (relativeDir ++ '/' :: name) content = []
      · rw [if_pos (hempty.mpr hs), if_neg fun ht => hsnd.mp ht hs, hempty.mpr hs]
        simp [edge_nil]
      · rw [if_neg fun he => hs (hempty.mp he), if_pos (hsnd.mpr hs),
          edge_cons_map hpaths.ne_nil]
        simp only [List.mem_singleton, Prod.mk.injEq, true_and]
        tauto
    · rw [shownDirPaths, hskip, hskip']
      exact hrest

end

end MenuEnv

end Survol.Menus
