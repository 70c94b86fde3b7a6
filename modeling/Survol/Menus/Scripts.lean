import Survol.Lib.Text

/-!
# The menu of the scripts

The scripts of a directory tree are added to a graph: a directory is a literal with its title,
which is linked to its sub-directories and to the addresses of its scripts. The graph is then
turned into a menu again, by following the links from the nodes without a parent.

## Main definitions

* `Dir` — a directory tree of scripts, with what the import of each module gives.
* `dirToMenuAux` — the triples of a directory, and whether it has a script to show.
* `grph2Menu` — the menu of a graph.
* `shownItems` — the directories and scripts to show, by their path.
-/

namespace Survol.Menus

open PyText (Text splitOn)

/-! ## Directories and modules -/

/-- A module that is imported: its documentation, and why it is not usable. -/
structure Module where
  doc : Option Text
  unusable : Option Text

/-- A file, with its module or the error of its import. -/
structure File where
  name : Text
  importedMod : Except Text Module

mutual

/-- A directory: missing, or with the reason why its module is not usable, its
sub-directories and its files. -/
inductive Dir
  | missing
  | mk (unusable : Option Text) (dirs : Dirs) (files : List File)

/-- The sub-directories of a directory: the name, the documentation of the module if it can be
imported, whether it is a class with an ontology, and its content. -/
inductive Dirs
  | nil
  | cons (name : Text) (doc : Option (Option Text)) (isClass : Bool) (content : Dir) (rest : Dirs)

end

/-! ## The graph -/

/-- A node of the graph. -/
inductive Node
  | url (address : Text)
  | literal (text : Text)
  deriving DecidableEq

/-- The text of a literal. -/
def Node.literal? : Node → Option Text
  | .literal text => some text
  | .url _ => none

/-- The properties of the menu. -/
inductive Property
  | script
  | information
  | error
  deriving DecidableEq

/-- A triple of the graph. -/
abbrev Triple := Node × Property × Node

/-- The text of `s.capitalize()`, which changes the ASCII letters of a string of bytes only. -/
def capitalize : Text → Text
  | [] => []
  | c :: s => c.toUpper :: s.map Char.toLower

/-- The text of `s.replace("_", " ")`. -/
def underscoresToBlanks (s : Text) : Text := s.map fun c => if c = '_' then ' ' else c

/-- The title of a module: the first non-empty line of its documentation, possibly truncated,
or else its name. -/
def fromModuleToDoc (doc : Option Text) (filDfltText : Text) : Text :=
  let docModu := match doc with
    | some docModuAll => match (splitOn '\n' docModuAll).find? (· ≠ []) with
      | some line => if 40 < line.length then line.take 40 ++ "...".toList else line
      | none => []
    | none => []
  if docModu = [] then capitalize (underscoresToBlanks filDfltText) else docModu

/-- What the menu is made for: the start and the end of the addresses of scripts, and whether
the scripts that are not usable are shown too. -/
structure MenuEnv where
  rootUrl : Text
  urlEnd : Text
  flagShowAll : Bool

namespace MenuEnv

variable (env : MenuEnv)

/-- The address of a script: the end has the type and the identifiers of the object. -/
def makeTheNodeFromScript (path : Text) : Node := .url (env.rootUrl ++ path ++ env.urlEnd)

/-- The reason why a file is not usable: its import, or its own test. -/
def errorMsg (fil : File) : Option Text :=
  match fil.importedMod with
  | .error e => some e
  | .ok m => m.unusable

/-- Whether a file is a script that is shown. -/
def isShown (fil : File) : Bool :=
  ".py".toList.isSuffixOf fil.name && fil.name ≠ "__init__.py".toList &&
    (env.flagShowAll || (errorMsg fil).isNone)

/-- The title of a file. -/
def fileTitle (fil : File) : Text :=
  fromModuleToDoc (match fil.importedMod with
    | .error _ => none
    | .ok m => m.doc) (fil.name.take (fil.name.length - 3))

/-- The triples of the files of a directory, and whether one is shown. -/
def filesToMenu (parentNode : Node) (relativeDir : Text) : List File → List Triple × Bool
  | [] => ([], false)
  | fil :: files =>
    let rest := filesToMenu parentNode relativeDir files
    if env.isShown fil then
      let rdfNode := env.makeTheNodeFromScript (relativeDir ++ '/' :: fil.name)
      ((parentNode, .script, rdfNode) :: (rdfNode, .information, .literal (fileTitle fil)) ::
        (match errorMsg fil with
        | some e => [(rdfNode, .error, .literal e)]
        | none => []) ++ rest.1, true)
    else rest

mutual

/-- The triples of a directory, and whether it has a script to show. -/
def dirToMenuAux (parentNode : Node) (relativeDir : Text) : Dir → List Triple × Bool
  | .missing => ([], false)
  | .mk (some _) _ _ => ([], false)
  | .mk none dirs files =>
    let d := dirsToMenu parentNode relativeDir dirs
    let f := env.filesToMenu parentNode relativeDir files
    (d.1 ++ f.1, f.2 || d.2)

/-- The triples of the sub-directories, and whether one has a script to show. -/
def dirsToMenu (parentNode : Node) (relativeDir : Text) : Dirs → List Triple × Bool
  | .nil => ([], false)
  | .cons name doc isClass content rest =>
    let r := dirsToMenu parentNode relativeDir rest
    if name = "__pycache__".toList then r else
    match doc with
    | none => r
    | some doc =>
      if isClass then r else
      let currDirNode := Node.literal (fromModuleToDoc doc name)
      let s := dirToMenuAux currDirNode (relativeDir ++ '/' :: name) content
      (s.1 ++ (if s.2 then [(parentNode, .script, currDirNode)] else []) ++ r.1, s.2 || r.2)

end

end MenuEnv

/-! ## The menu of a graph -/

/-- A menu: its items, with a name and possibly items of their own. -/
inductive Menu
  | nil
  | leaf (url : Node) (name : Text) (rest : Menu)
  | branch (url : Node) (name : Text) (items : Menu) (rest : Menu)

section Grph2Menu

variable (grph : List Triple)

/-- The objects of the scripts of a node, in the order of the graph. -/
def nodesToItems (subj : Node) : Option (List Node) :=
  match grph.filterMap fun t => if t.1 = subj ∧ t.2.1 = .script then some t.2.2 else none with
  | [] => none
  | items => some items

/-- The name that a triple of the graph gives to a node: the text of a directory, or the
information on a script. -/
def givenName (node : Node) (t : Triple) : Option Text :=
  match t.2.1 with
  | .script => if t.2.2 = node then t.2.2.literal? else none
  | .information => if t.1 = node then t.2.2.literal? else none
  | .error => none

/-- The names of the nodes: the last triple that gives one. -/
def nodesToNames (node : Node) : Option Text :=
  grph.foldl (fun name t => (givenName node t).or name) none

/-- The nodes with scripts that no node has for a script, each once. -/
def topLevelNodes : List Node :=
  ((grph.filter fun t => t.2.1 = .script).map (·.1)).dedup.filter fun subj =>
    !(grph.any fun t => t.2.1 = .script ∧ t.2.2 = subj)

/-- The items of a list of nodes, with the given menus of nodes. -/
def addItems (sub : List Node → Option Menu) : List Node → Option Menu
  | [] => some .nil
  | oneRdfNod :: theNodList => do
    let rest ← addItems sub theNodList
    let name := (nodesToNames grph oneRdfNod).getD "No name".toList
    match nodesToItems grph oneRdfNod with
    | none => return .leaf oneRdfNod name rest
    | some lstItem => return .branch oneRdfNod name (← sub lstItem) rest

/-- The menu of a list of nodes, with at most the given depth. -/
def addStuff : ℕ → List Node → Option Menu
  | 0, _ => none
  | depth + 1, theNodList => addItems grph (addStuff depth) theNodList

/-- The menu of a graph: the items of its top-level node. It fails if an information is not a
literal. -/
def grph2Menu (depth : ℕ) : Option Menu :=
  if grph.any fun t => t.2.1 = .information ∧ t.2.2.literal? = none then none
  else match addStuff grph depth (topLevelNodes grph) with
  | some (.branch _ _ items _) => some items
  | some .nil => some .nil
  | some (.leaf ..) => none
  | none => none

end Grph2Menu

/-- The items of a menu: their path of nodes, and their name. -/
def menuItems : Menu → List (List Node × Text)
  | .nil => []
  | .leaf url name rest => ([url], name) :: menuItems rest
  | .branch url name items rest =>
    ([url], name) :: (menuItems items).map (fun p => (url :: p.1, p.2)) ++ menuItems rest

/-! ## What is to be shown -/

namespace MenuEnv

variable (env : MenuEnv)

/-- The files to show: their path of nodes, and their title. -/
def shownFiles (relativeDir : Text) (files : List File) : List (List Node × Text) :=
  (files.filter env.isShown).map fun fil =>
    ([env.makeTheNodeFromScript (relativeDir ++ '/' :: fil.name)], fileTitle fil)

mutual

/-- The directories with a script to show, and the scripts: their path of nodes, and their
title. -/
def shownItems (relativeDir : Text) : Dir → List (List Node × Text)
  | .missing => []
  | .mk (some _) _ _ => []
  | .mk none dirs files => shownDirs relativeDir dirs ++ env.shownFiles relativeDir files

/-- The items of the sub-directories. -/
def shownDirs (relativeDir : Text) : Dirs → List (List Node × Text)
  | .nil => []
  | .cons name doc isClass content rest =>
    let r := shownDirs relativeDir rest
    if name = "__pycache__".toList then r else
    match doc with
    | none => r
    | some doc =>
      if isClass then r else
      let items := shownItems (relativeDir ++ '/' :: name) content
      if items = [] then r else
      let title := fromModuleToDoc doc name
      ([Node.literal title], title) :: items.map (fun p => (.literal title :: p.1, p.2)) ++ r

end

end MenuEnv

end Survol.Menus
