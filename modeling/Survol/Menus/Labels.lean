import Survol.Menus.ShownTree

/-!
# The nodes of the shown scripts

The scripts of a directory tree have different addresses, so that the nodes of what is shown are
different as soon as the titles of the shown directories are.

## Main definitions

* `lastNodes` — the nodes that the shown paths end with.
* `shownTitles` — the titles of the shown directories.

## Main results

* `nodup_lastNodes_iff` — the nodes are different exactly if the titles are.
* `exists_script_below` — there is a script below each shown directory.
* `mem_dirToMenuAux_information` — the titles of the scripts are in the graph.
-/

namespace Survol.Menus

open PyText (Text splitOn)
open LabelTree

/-- The address of a URL. -/
def Node.address? : Node → Option Text
  | .literal _ => none
  | .url address => some address

/-- The nodes that the paths end with. -/
def lastNodes (items : List (List Node × Text)) : List Node := items.filterMap fun p => p.1.getLast?

theorem nodup_nodes_iff (l : List Node) : l.Nodup ↔
    (l.filterMap Node.literal?).Nodup ∧ (l.filterMap Node.address?).Nodup := by
  induction l with
  | nil => simp
  | cons node l ih =>
    cases node with
    | literal text =>
      have hmem : Node.literal text ∈ l ↔ text ∈ l.filterMap Node.literal? := by
        rw [List.mem_filterMap]
        constructor
        · intro h
          exact ⟨_, h, rfl⟩
        · rintro ⟨node, h, heq⟩
          cases node with
          | literal text' => simpa [Node.literal?] using (Option.some.inj heq) ▸ h
          | url address => cases heq
      rw [List.nodup_cons, ih, hmem, List.filterMap_cons, List.filterMap_cons]
      simp only [Node.literal?, Node.address?]
      rw [List.nodup_cons, and_assoc]
    | url address =>
      have hmem : Node.url address ∈ l ↔ address ∈ l.filterMap Node.address? := by
        rw [List.mem_filterMap]
        constructor
        · intro h
          exact ⟨_, h, rfl⟩
        · rintro ⟨node, h, heq⟩
          cases node with
          | url address' => simpa [Node.address?] using (Option.some.inj heq) ▸ h
          | literal text => cases heq
      rw [List.nodup_cons, ih, hmem, List.filterMap_cons, List.filterMap_cons]
      simp only [Node.literal?, Node.address?]
      rw [List.nodup_cons]
      tauto

theorem lastNodes_cons_map {items : List (List Node × Text)} (h : ∀ p ∈ items, p.1 ≠ [])
    (node : Node) : lastNodes (items.map fun p => (node :: p.1, p.2)) = lastNodes items := by
  rw [lastNodes, lastNodes, List.filterMap_map]
  refine List.filterMap_congr fun p hp => ?_
  exact getLast?_cons_of_ne_nil (h p hp)

theorem head_eq_of_append {c : Char} {a b x y : Text} (ha : c ∉ a) (hb : c ∉ b)
    (h : a ++ c :: x = b ++ c :: y) : a = b := by
  induction a generalizing b with
  | nil =>
    cases b with
    | nil => rfl
    | cons d b =>
      simp only [List.nil_append, List.cons_append, List.cons.injEq] at h
      exact absurd (h.1 ▸ List.mem_cons_self) hb
  | cons d a ih =>
    cases b with
    | nil =>
      simp only [List.nil_append, List.cons_append, List.cons.injEq] at h
      exact absurd (h.1 ▸ List.mem_cons_self) ha
    | cons e b =>
      simp only [List.cons_append, List.cons.injEq] at h
      rw [h.1, ih (fun hm => ha (List.mem_cons_of_mem d hm))
        (fun hm => hb (List.mem_cons_of_mem e hm)) h.2]

namespace MenuEnv

variable (env : MenuEnv)

/-- The titles of the shown directories. -/
def shownTitles (relativeDir : Text) (d : Dir) : List Text :=
  (lastNodes (env.shownItems relativeDir d)).filterMap Node.literal?

/-- The address of a script. -/
def addressOf (path : Text) : Text := env.rootUrl ++ path ++ env.urlEnd

theorem addressOf_inj {dir x y : Text}
    (h : env.addressOf (dir ++ '/' :: x) = env.addressOf (dir ++ '/' :: y)) : x = y := by
  have h' := List.append_cancel_left (List.append_cancel_right h)
  exact (List.cons.inj (List.append_cancel_left h')).2

theorem items_ne_nil {relativeDir : Text} {d : Dir} :
    ∀ p ∈ env.shownItems relativeDir d, p.1 ≠ [] := by
  intro p hp hnil
  exact (isPaths_shownPaths env relativeDir d).ne_nil (hnil ▸ List.mem_map_of_mem hp)

/-- The addresses of shown scripts. -/
def addresses (items : List (List Node × Text)) : List Text :=
  (lastNodes items).filterMap Node.address?

theorem addresses_append (items items' : List (List Node × Text)) :
    addresses (items ++ items') = addresses items ++ addresses items' := by
  simp [addresses, lastNodes, List.filterMap_append]

theorem addresses_shownFiles (relativeDir : Text) (files : List File) :
    addresses (env.shownFiles relativeDir files) =
      (files.filter env.isShown).map fun fil => env.addressOf (relativeDir ++ '/' :: fil.name) := by
  simp [addresses, lastNodes, shownFiles, List.filterMap_map, Function.comp_def, Node.address?,
    makeTheNodeFromScript, addressOf]

variable {name : Text} {doc : Option (Option Text)} {isClass : Bool} {title : Text}

theorem addresses_shownDirs_of_entered (h : Entered name doc isClass title) (relativeDir : Text)
    (content : Dir) (rest : Dirs) :
    addresses (env.shownDirs relativeDir (.cons name doc isClass content rest)) =
      addresses (env.shownItems (relativeDir ++ '/' :: name) content) ++
        addresses (env.shownDirs relativeDir rest) := by
  rw [shownDirs_of_entered env h, addresses_append]
  congr 1
  split
  · rename_i hs
    rw [hs]
  · have hmap := lastNodes_cons_map (@items_ne_nil env (relativeDir ++ '/' :: name) content)
      (Node.literal title)
    rw [lastNodes] at hmap
    rw [addresses, lastNodes, List.filterMap_cons]
    simp only [List.getLast?_singleton, List.filterMap_cons, Node.address?]
    rw [hmap, addresses]

mutual

/-- The scripts of a directory have different addresses, in the directory. -/
theorem addresses_shownItems (relativeDir : Text) : (d : Dir) → d.Ok →
    (addresses (env.shownItems relativeDir d)).Nodup ∧
    ∀ a ∈ addresses (env.shownItems relativeDir d),
      ∃ x, a = env.addressOf (relativeDir ++ '/' :: x)
  | .missing, _ => by simp [shownItems, addresses, lastNodes]
  | .mk (some _) _ _, _ => by simp [shownItems, addresses, lastNodes]
  | .mk none dirs files, hok => by
    obtain ⟨hdirs, hnames, hfiles, hslash⟩ := hok
    obtain ⟨hnodup, hform⟩ := addresses_shownDirs relativeDir dirs hdirs hnames
    rw [shownItems, addresses_append, addresses_shownFiles]
    constructor
    · refine List.nodup_append.mpr ⟨hnodup, ?_, ?_⟩
      · refine (List.Nodup.of_map File.name hfiles).filter _ |>.map_on ?_
        intro fil hfil fil' hfil' h
        exact List.inj_on_of_nodup_map hfiles (List.mem_of_mem_filter hfil)
          (List.mem_of_mem_filter hfil') (addressOf_inj env h)
      · intro a ha b hb hab
        obtain ⟨name, -, -, x, rfl⟩ := hform a ha
        obtain ⟨fil, hfil, rfl⟩ := List.mem_map.mp hb
        rw [List.append_assoc, List.cons_append] at hab
        have hname := addressOf_inj env hab
        refine hslash fil (List.mem_of_mem_filter hfil) ?_
        rw [← hname]
        simp
    · intro a ha
      rcases List.mem_append.mp ha with ha | ha
      · obtain ⟨name, -, -, x, rfl⟩ := hform a ha
        exact ⟨name ++ '/' :: x, by simp⟩
      · obtain ⟨fil, -, rfl⟩ := List.mem_map.mp ha
        exact ⟨fil.name, rfl⟩

/-- The scripts of the sub-directories have different addresses, each in its sub-directory. -/
theorem addresses_shownDirs (relativeDir : Text) : (dirs : Dirs) → dirs.Ok → dirs.names.Nodup →
    (addresses (env.shownDirs relativeDir dirs)).Nodup ∧
    ∀ a ∈ addresses (env.shownDirs relativeDir dirs),
      ∃ name ∈ dirs.names, '/' ∉ name ∧ ∃ x,
        a = env.addressOf ((relativeDir ++ '/' :: name) ++ '/' :: x)
  | .nil, _, _ => by simp [shownDirs, addresses, lastNodes]
  | .cons name doc isClass content rest, hok, hnames => by
    obtain ⟨hslash, hcontent, hrest⟩ := hok
    obtain ⟨hnot, hnames⟩ := List.nodup_cons.mp hnames
    obtain ⟨hnodup, hform⟩ := addresses_shownDirs relativeDir rest hrest hnames
    rcases entered_or env name doc isClass with ⟨title, h⟩ | ⟨hskip, -⟩
    · obtain ⟨hnodup', hform'⟩ :=
        addresses_shownItems (relativeDir ++ '/' :: name) content hcontent
      rw [addresses_shownDirs_of_entered env h]
      constructor
      · refine List.nodup_append.mpr ⟨hnodup', hnodup, ?_⟩
        intro a ha b hb hab
        obtain ⟨x, rfl⟩ := hform' a ha
        obtain ⟨name', hname', hslash', y, rfl⟩ := hform b hb
        rw [List.append_assoc, List.append_assoc, List.cons_append, List.cons_append] at hab
        exact hnot (head_eq_of_append hslash hslash' (addressOf_inj env hab) ▸ hname')
      · intro a ha
        rcases List.mem_append.mp ha with ha | ha
        · obtain ⟨x, rfl⟩ := hform' a ha
          exact ⟨name, List.mem_cons_self, hslash, x, rfl⟩
        · obtain ⟨name', hname', hform⟩ := hform a ha
          exact ⟨name', List.mem_cons_of_mem name hname', hform⟩
    · rw [hskip]
      refine ⟨hnodup, fun a ha => ?_⟩
      obtain ⟨name', hname', hform⟩ := hform a ha
      exact ⟨name', List.mem_cons_of_mem name hname', hform⟩

end

/-- The nodes are different exactly if the titles are. -/
theorem nodup_lastNodes_iff (relativeDir : Text) {d : Dir} (h : d.Ok) :
    (lastNodes (env.shownItems relativeDir d)).Nodup ↔ (env.shownTitles relativeDir d).Nodup := by
  rw [nodup_nodes_iff, shownTitles]
  exact and_iff_left (addresses_shownItems env relativeDir d h).1

/-! ## Scripts below a directory -/

mutual

/-- There is a script below each shown directory. -/
theorem exists_script_below (relativeDir : Text) : (d : Dir) →
    ∀ c ∈ env.shownPaths relativeDir d, ∃ l address, c ++ l ∈ env.shownPaths relativeDir d ∧
      (c ++ l).getLast? = some (.url address)
  | .missing => by simp [shownPaths, shownItems]
  | .mk (some _) _ _ => by simp [shownPaths, shownItems]
  | .mk none dirs files => by
    intro c hc
    rw [shownPaths_mk] at hc ⊢
    rcases List.mem_append.mp hc with hc | hc
    · obtain ⟨l, address, hl, hlast⟩ := exists_script_below_dirs relativeDir dirs c hc
      exact ⟨l, address, List.mem_append_left _ hl, hlast⟩
    · obtain ⟨fil, -, -, rfl⟩ := (mem_shownFilePaths env).mp hc
      exact ⟨[], _, by simpa using List.mem_append_right _ hc, rfl⟩

/-- There is a script below each shown sub-directory. -/
theorem exists_script_below_dirs (relativeDir : Text) : (dirs : Dirs) →
    ∀ c ∈ env.shownDirPaths relativeDir dirs, ∃ l address,
      c ++ l ∈ env.shownDirPaths relativeDir dirs ∧ (c ++ l).getLast? = some (.url address)
  | .nil => by simp [shownDirPaths, shownDirs]
  | .cons name doc isClass content rest => by
    intro c hc
    have hrest := exists_script_below_dirs relativeDir rest c
    rcases entered_or env name doc isClass with ⟨title, h⟩ | ⟨hskip, -⟩
    · rw [shownDirPaths_of_entered env h] at hc ⊢
      rcases List.mem_append.mp hc with hc | hc
      · have hcontent := exists_script_below (relativeDir ++ '/' :: name) content
        split at hc
        · cases hc
        · rename_i hne
          rw [if_neg hne]
          -- a path of the sub-directory, below which there is a script
          have hbelow : ∀ p, p = [] ∨ p ∈ env.shownPaths (relativeDir ++ '/' :: name) content →
              ∃ l address, p ++ l ∈ env.shownPaths (relativeDir ++ '/' :: name) content ∧
                (p ++ l).getLast? = some (.url address) := by
            rintro p (rfl | hp)
            · obtain ⟨q, hq⟩ := List.exists_mem_of_ne_nil _ hne
              obtain ⟨l, address, hl, hlast⟩ := hcontent q hq
              exact ⟨q ++ l, address, hl, hlast⟩
            · exact hcontent p hp
          have hpath : ∃ p, c = .literal title :: p ∧
              (p = [] ∨ p ∈ env.shownPaths (relativeDir ++ '/' :: name) content) := by
            rcases List.mem_cons.mp hc with rfl | hc
            · exact ⟨[], rfl, .inl rfl⟩
            · obtain ⟨p, hp, rfl⟩ := List.mem_map.mp hc
              exact ⟨p, rfl, .inr hp⟩
          obtain ⟨p, rfl, hp⟩ := hpath
          obtain ⟨l, address, hl, hlast⟩ := hbelow p hp
          refine ⟨l, address, List.mem_append_left _ (List.mem_cons_of_mem _ ?_), ?_⟩
          · exact List.mem_map.mpr ⟨p ++ l, hl, rfl⟩
          · rw [List.cons_append, getLast?_cons_of_ne_nil, hlast]
            exact fun hnil => (isPaths_shownPaths env _ content).ne_nil (hnil ▸ hl)
      · obtain ⟨l, address, hl, hlast⟩ := hrest hc
        exact ⟨l, address, List.mem_append_right _ hl, hlast⟩
    · rw [shownDirPaths, hskip] at hc ⊢
      exact hrest hc

end

/-! ## Names -/

mutual

/-- A shown directory is named by the text of its node. -/
theorem title_of_literal (relativeDir : Text) : (d : Dir) →
    ∀ p ∈ env.shownItems relativeDir d, ∀ text, p.1.getLast? = some (.literal text) → p.2 = text
  | .missing => by simp [shownItems]
  | .mk (some _) _ _ => by simp [shownItems]
  | .mk none dirs files => by
    intro p hp text hlast
    rw [shownItems] at hp
    rcases List.mem_append.mp hp with hp | hp
    · exact title_of_literal_dirs relativeDir dirs p hp text hlast
    · obtain ⟨fil, -, rfl⟩ := List.mem_map.mp hp
      simp [makeTheNodeFromScript] at hlast

/-- A shown sub-directory is named by the text of its node. -/
theorem title_of_literal_dirs (relativeDir : Text) : (dirs : Dirs) →
    ∀ p ∈ env.shownDirs relativeDir dirs, ∀ text,
      p.1.getLast? = some (.literal text) → p.2 = text
  | .nil => by simp [shownDirs]
  | .cons name doc isClass content rest => by
    intro p hp text hlast
    rcases entered_or env name doc isClass with ⟨title, h⟩ | ⟨hskip, -⟩
    · rw [shownDirs_of_entered env h] at hp
      rcases List.mem_append.mp hp with hp | hp
      · split at hp
        · cases hp
        · rcases List.mem_cons.mp hp with rfl | hp
          · simpa using hlast
          · obtain ⟨q, hq, rfl⟩ := List.mem_map.mp hp
            rw [getLast?_cons_of_ne_nil (items_ne_nil env q hq)] at hlast
            exact title_of_literal (relativeDir ++ '/' :: name) content q hq text hlast
      · exact title_of_literal_dirs relativeDir rest p hp text hlast
    · rw [hskip] at hp
      exact title_of_literal_dirs relativeDir rest p hp text hlast

end

theorem mem_filesToMenu_information {parentNode : Node} {relativeDir : Text} {files : List File}
    {a b : Node} : (a, .information, b) ∈ (env.filesToMenu parentNode relativeDir files).1 ↔
      ∃ p ∈ env.shownFiles relativeDir files, ∃ address,
        p.1.getLast? = some (.url address) ∧ a = .url address ∧ b = .literal p.2 := by
  induction files with
  | nil => simp [filesToMenu, shownFiles]
  | cons fil files ih =>
    rw [filesToMenu]
    by_cases hs : env.isShown fil = true
    · simp only [shownFiles_cons_of_shown env hs, List.exists_mem_cons_iff, ← ih]
      cases errorMsg fil <;> simp [hs, makeTheNodeFromScript]
    · rw [shownFiles_cons_of_not env hs, ← ih]
      simp [hs]

mutual

/-- The titles of the scripts are in the graph. -/
theorem mem_dirToMenuAux_information (parentNode : Node) (relativeDir : Text) {a b : Node} :
    (d : Dir) → ((a, .information, b) ∈ (env.dirToMenuAux parentNode relativeDir d).1 ↔
      ∃ p ∈ env.shownItems relativeDir d, ∃ address,
        p.1.getLast? = some (.url address) ∧ a = .url address ∧ b = .literal p.2)
  | .missing => by simp [dirToMenuAux, shownItems]
  | .mk (some _) _ _ => by simp [dirToMenuAux, shownItems]
  | .mk none dirs files => by
    rw [dirToMenuAux, List.mem_append, mem_dirsToMenu_information parentNode relativeDir dirs,
      mem_filesToMenu_information, shownItems]
    simp only [List.mem_append, or_and_right, exists_or]

/-- The titles of the scripts of the sub-directories are in the graph. -/
theorem mem_dirsToMenu_information (parentNode : Node) (relativeDir : Text) {a b : Node} :
    (dirs : Dirs) → ((a, .information, b) ∈ (env.dirsToMenu parentNode relativeDir dirs).1 ↔
      ∃ p ∈ env.shownDirs relativeDir dirs, ∃ address,
        p.1.getLast? = some (.url address) ∧ a = .url address ∧ b = .literal p.2)
  | .nil => by simp [dirsToMenu, shownDirs]
  | .cons name doc isClass content rest => by
    have hrest := mem_dirsToMenu_information parentNode relativeDir (a := a) (b := b) rest
    rcases entered_or env name doc isClass with ⟨title, h⟩ | ⟨hskip, hskip'⟩
    · have hcontent := mem_dirToMenuAux_information (.literal title) (relativeDir ++ '/' :: name)
        (a := a) (b := b) content
      have hlink : (a, Property.information, b) ∉
          if (env.dirToMenuAux (.literal title) (relativeDir ++ '/' :: name) content).2 then
            [(parentNode, Property.script, Node.literal title)] else [] := by
        split <;> simp
      rw [dirsToMenu_of_entered env h, shownDirs_of_entered env h]
      simp only [List.mem_append, hlink, or_false, hrest, hcontent, or_and_right, exists_or]
      refine or_congr_left ?_
      split
      · rename_i hs
        rw [hs]
      · simp only [List.exists_mem_cons_iff, List.getLast?_singleton]
        constructor
        · rintro ⟨p, hp, address, hlast, ha, hb⟩
          refine .inr ⟨_, List.mem_map.mpr ⟨p, hp, rfl⟩, address, ?_, ha, hb⟩
          rw [getLast?_cons_of_ne_nil (items_ne_nil env p hp), hlast]
        · rintro (⟨address, hlast, -⟩ | ⟨q, hq, address, hlast, ha, hb⟩)
          · cases hlast
          · obtain ⟨p, hp, rfl⟩ := List.mem_map.mp hq
            rw [getLast?_cons_of_ne_nil (items_ne_nil env p hp)] at hlast
            exact ⟨p, hp, address, hlast, ha, hb⟩
    · rw [hskip, hskip']
      exact hrest

end

end MenuEnv

end Survol.Menus
