import Survol.Lib.Dict
import Survol.Lib.Splitting
import Survol.Lib.Text

/-!
# The bookmarks of a browser

A file of bookmarks has lines with one tag each: a bookmark or a folder, its description, the start
and the end of what a folder contains. They are read as nested dictionaries, of the texts as they
stand in the file: an entity such as `&#39;` in a title stays as it is.

## Main definitions

* `importBookmarkFile` — what the lines of a file give.
* `Entries`, `Entries.lines` — the texts of some bookmarks in a file, and their lines.
* `Entries.items` — their dictionaries.

## Main results

* `importBookmarkFile_lines` — the texts of a file are read as they stand there.
-/

open PyText (Text splitOn strip)

namespace Survol.Bookmarks

/-! ## The code -/

/-- What the reading of a file raises. -/
inductive Error
  | indexError
  | typeError
  deriving DecidableEq

/-- An element of the lists of bookmarks: nothing for a tag that is not read, or a dictionary with
its texts and its list of children. -/
inductive Item
  | none
  | dict (texts : Dict Text Text) (children : Option (List Item))

/-- `GetTagAndRest`: the first tag of a line, and what is after it. -/
def getTagAndRest (aLin : Text) : Text × Text :=
  match aLin.dropWhile (· ≠ '<') with
  | [] => ([], [])
  | _ :: s =>
    match s.dropWhile (· ≠ '>') with
    | [] => ([], [])
    | _ :: rest =>
      if '\n' ∈ rest then
        (s.takeWhile fun c => c ≠ ' ' ∧ c ≠ '\t' ∧ c ≠ '>', rest.takeWhile (· ≠ '\n'))
      else ([], [])

def labelTag : Text := "name".toList

/-- The value of an attribute, without its double-quotes. An empty one raises an exception. -/
def stripQuotes (oneVal : Text) : Except Error Text :=
  if oneVal = [] then .error .indexError
  else if oneVal.head? = some '"' ∧ oneVal.getLast? = some '"' then .ok (oneVal.drop 1).dropLast
  else .ok oneVal

/-- One of the parts of a tag between its spaces. -/
def parseAttribute (parsedTag : Dict Text Text) (oneSplit : Text) :
    Except Error (Dict Text Text) :=
  let oneKey := oneSplit.takeWhile (· ≠ '=')
  match oneSplit.dropWhile (· ≠ '=') with
  | [] => .ok parsedTag
  | _ :: oneVal =>
    if oneKey = [] then .ok parsedTag
    else (stripQuotes oneVal).map fun value => parsedTag.set oneKey value

/-- `ParseCompleteTag` -/
def parseCompleteTag (aTag aRest : Text) : Except Error (Option (Dict Text Text)) :=
  if ('<' :: aTag).isPrefixOf aRest then
    let aContent := aRest.drop (aTag.length + 1)
    match aContent.dropWhile (· ≠ '>') with
    | [] => .ok none
    | _ :: s =>
      if ('<' :: '/' :: aTag ++ ['>']).isPrefixOf (s.dropWhile (· ≠ '<')) then
        ((splitOn ' ' (aContent.takeWhile (· ≠ '>'))).foldlM parseAttribute []).map
          fun parsedTag => some (parsedTag.set labelTag (s.takeWhile (· ≠ '<')))
      else .ok none
  else .ok none

/-- Change the last dictionary of a list. -/
def updateLast (arrChildren : List Item) (f : Dict Text Text → Option (List Item) → Item) :
    Except Error (List Item) :=
  match arrChildren.getLast? with
  | none => .error .indexError
  | some .none => .error .typeError
  | some (.dict texts children) => .ok (arrChildren.dropLast ++ [f texts children])

/-- The list of a tag `DL` belongs to the last dictionary. -/
def setChildren (arrChildren subArray : List Item) : Except Error (List Item) :=
  let arr :=
    if arrChildren.isEmpty then [.dict [("name".toList, "ROOT".toList)] none] else arrChildren
  updateLast arr fun texts _ => .dict (texts.erase "children".toList) (some subArray)

/-- A line of `ImportChildren` other than those of the tags `DL` and `/DL`. -/
def readLine (aTag aRest : Text) (arrChildren : List Item) : Except Error (List Item) :=
  if aTag = "DT".toList then do
    let parsedTag ← parseCompleteTag "A".toList aRest
    let parsedTag ← if parsedTag.isSome then pure parsedTag
      else parseCompleteTag "H3".toList aRest
    return arrChildren ++ [parsedTag.elim .none fun texts => .dict texts none]
  else if aTag = "DD".toList then
    let aDescription := strip aRest
    if aDescription = [] then .ok arrChildren
    else updateLast arrChildren fun texts children =>
      .dict (texts.set "description".toList aDescription) children
  else .ok arrChildren

/-- `ImportChildren`, on the lines that are left: the list, and the lines after it. -/
def importChildren (arrChildren : List Item) (xmlFil : List Text) :
    Except Error (List Item × {rest : List Text // rest.length ≤ xmlFil.length}) :=
  match xmlFil with
  | [] => .ok (arrChildren, ⟨[], le_refl _⟩)
  | aLin :: lines =>
    let aTag := (getTagAndRest aLin).1
    if aTag = "DL".toList then
      match importChildren [] lines with
      | .error e => .error e
      | .ok (subArray, lines') =>
        match setChildren arrChildren subArray with
        | .error e => .error e
        | .ok arr =>
          (importChildren arr lines'.1).map fun r =>
            (r.1, ⟨r.2.1, r.2.2.trans (lines'.2.trans (Nat.le_succ _))⟩)
    else if aTag = "/DL".toList then .ok (arrChildren, ⟨lines, Nat.le_succ _⟩)
    else
      match readLine aTag (getTagAndRest aLin).2 arrChildren with
      | .error e => .error e
      | .ok arr =>
        (importChildren arr lines).map fun r => (r.1, ⟨r.2.1, r.2.2.trans (Nat.le_succ _)⟩)
termination_by xmlFil.length
decreasing_by
  · exact Nat.lt_succ_self _
  · exact Nat.lt_succ_of_le lines'.2
  · exact Nat.lt_succ_self _

/-- `ImportBookmarkFile` -/
def importBookmarkFile (xmlFil : List Text) : Except Error Item :=
  (importChildren [] xmlFil).map fun r =>
    .dict [("name".toList, "Bookmarks".toList)] (some r.1)

/-! ## The lines of a file -/

/-- An attribute of a bookmark, such as its address, as it stands in a file. -/
structure Attribute where
  key : Text
  value : Text
  key_ne : key ≠ []
  key_ok : '=' ∉ key ∧ ' ' ∉ key ∧ '>' ∉ key ∧ '\n' ∉ key
  value_ok : ' ' ∉ value ∧ '>' ∉ value ∧ '\n' ∉ value

/-- The text of a title, as it stands in a file. -/
abbrev RawTitle := {name : Text // '<' ∉ name ∧ '\n' ∉ name}

/-- The description of a bookmark, on one line, which may be empty. -/
abbrev Description := {text : Text // strip text = text ∧ '\n' ∉ text}

/-- Some bookmarks and folders of a file: the first one, what it contains, and the other ones. -/
inductive Entries
  | nil
  | link (attrs : List Attribute) (name : RawTitle) (description : Option Description)
    (rest : Entries)
  | folder (attrs : List Attribute) (name : RawTitle) (description : Option Description)
    (content rest : Entries)

def Attribute.text (a : Attribute) : Text := a.key ++ '=' :: '"' :: (a.value ++ ['"'])

/-- A line with a tag, under some folders. -/
def tagLine (depth : ℕ) (tag rest : Text) : Text :=
  List.replicate (4 * depth) ' ' ++ '<' :: (tag ++ '>' :: (rest ++ ['\n']))

/-- The tag of a bookmark or of a folder. -/
def completeTag (tag : Text) (attrs : List Attribute) (name : RawTitle) : Text :=
  '<' :: (tag ++ (attrs.flatMap (' ' :: ·.text) ++ '>' :: (name.1 ++ '<' :: '/' :: (tag ++ ['>']))))

def descriptionLines (depth : ℕ) (description : Option Description) : List Text :=
  (description.map fun d => tagLine depth "DD".toList d.1).toList

/-- The lines of some bookmarks. -/
def Entries.lines (depth : ℕ) : Entries → List Text
  | .nil => []
  | .link attrs name description rest =>
    tagLine depth "DT".toList (completeTag "A".toList attrs name) ::
      (descriptionLines depth description ++ rest.lines depth)
  | .folder attrs name description content rest =>
    tagLine depth "DT".toList (completeTag "H3".toList attrs name) ::
      (descriptionLines depth description ++ tagLine depth "DL".toList "<p>".toList ::
        (content.lines (depth + 1) ++ tagLine depth "/DL".toList "<p>".toList :: rest.lines depth))

def addAttribute (texts : Dict Text Text) (a : Attribute) : Dict Text Text :=
  texts.set a.key a.value

/-- The texts of a bookmark: its attributes, its title, and its description if it is not empty. -/
def textsOf (attrs : List Attribute) (name : RawTitle) (description : Option Description) :
    Dict Text Text :=
  let texts := (attrs.foldl addAttribute []).set labelTag name.1
  match description with
  | none => texts
  | some d => if d.1 = [] then texts else texts.set "description".toList d.1

/-- The dictionaries of some bookmarks. -/
def Entries.items : Entries → List Item
  | .nil => []
  | .link attrs name description rest => .dict (textsOf attrs name description) none :: rest.items
  | .folder attrs name description content rest =>
    .dict ((textsOf attrs name description).erase "children".toList) (some content.items) ::
      rest.items

/-! ## The lines with a tag -/

theorem dropWhile_ne_append {c : Char} {s : Text} (h : c ∉ s) (t : Text) :
    (s ++ c :: t).dropWhile (· ≠ c) = c :: t := by
  rw [List.dropWhile_append_of_pos fun d hd => by
    simpa using fun heq : d = c => h (heq ▸ hd)]
  simp

theorem takeWhile_ne_append {c : Char} {s : Text} (h : c ∉ s) (t : Text) :
    (s ++ c :: t).takeWhile (· ≠ c) = s := by
  rw [List.takeWhile_append_of_pos fun d hd => by
    simpa using fun heq : d = c => h (heq ▸ hd)]
  simp

/-- A line gives its tag and what is after it. -/
theorem getTagAndRest_tagLine (depth : ℕ) {tag rest : Text}
    (htag : ∀ c ∈ tag, c ≠ ' ' ∧ c ≠ '\t' ∧ c ≠ '>') (hrest : '\n' ∉ rest) :
    getTagAndRest (tagLine depth tag rest) = (tag, rest) := by
  have hindent : '<' ∉ List.replicate (4 * depth) ' ' := by
    intro hmem
    cases (List.mem_replicate.mp hmem).2
  have hgt : '>' ∉ tag := fun hmem => (htag _ hmem).2.2 rfl
  rw [getTagAndRest, tagLine, dropWhile_ne_append hindent]
  simp only
  rw [dropWhile_ne_append hgt]
  simp only [List.mem_append, List.mem_singleton, or_true, if_true]
  rw [takeWhile_ne_append hrest, List.takeWhile_append_of_pos fun c hc => by simpa using htag c hc]
  simp

theorem not_mem_attrs {c : Char} {attrs : List Attribute} (hc : c ≠ ' ' ∧ c ≠ '=' ∧ c ≠ '"')
    (h : ∀ a : Attribute, c ∉ a.key ∧ c ∉ a.value) : c ∉ attrs.flatMap (' ' :: ·.text) := by
  intro hmem
  obtain ⟨a, -, ha⟩ := List.mem_flatMap.mp hmem
  simp [Attribute.text, hc, h a] at ha

theorem not_mem_completeTag {tag : Text} (htag : '\n' ∉ tag) (attrs : List Attribute)
    (name : RawTitle) : '\n' ∉ completeTag tag attrs name := by
  have hattrs := @not_mem_attrs '\n' attrs (by decide)
    fun a => ⟨a.key_ok.2.2.2, a.value_ok.2.2⟩
  simp [completeTag, htag, hattrs, name.2.2]

/-! ## The attributes -/

theorem splitOn_pieces {x : Text} (hx : ' ' ∉ x) {ps : List Text} (h : ∀ p ∈ ps, ' ' ∉ p) :
    splitOn ' ' (x ++ ps.flatMap (' ' :: ·)) = x :: ps := by
  induction ps generalizing x with
  | nil => rw [List.flatMap_nil, List.append_nil, PyText.splitOn_of_not_mem hx]
  | cons p ps ih =>
    rw [List.flatMap_cons, List.cons_append, PyText.splitOn_append_cons_of_not_mem hx,
      ih (h p List.mem_cons_self) fun q hq => h q (List.mem_cons_of_mem _ hq)]

theorem parseAttribute_text (parsedTag : Dict Text Text) (a : Attribute) :
    parseAttribute parsedTag a.text = .ok (parsedTag.set a.key a.value) := by
  rw [parseAttribute, Attribute.text, dropWhile_ne_append a.key_ok.1,
    takeWhile_ne_append a.key_ok.1]
  simp only
  rw [if_neg a.key_ne, stripQuotes, if_neg (List.cons_ne_nil _ _), if_pos]
  · simp [Except.map]
  · exact ⟨rfl, by rw [← List.cons_append, List.getLast?_concat]⟩

theorem foldlM_parseAttribute (attrs : List Attribute) (parsedTag : Dict Text Text) :
    (attrs.map Attribute.text).foldlM parseAttribute parsedTag =
      .ok (attrs.foldl addAttribute parsedTag) := by
  induction attrs generalizing parsedTag with
  | nil => rfl
  | cons a attrs ih =>
    rw [List.map_cons, List.foldlM_cons, parseAttribute_text]
    exact ih _

/-- The tag of a bookmark gives its attributes and its title. -/
theorem parseCompleteTag_completeTag (tag : Text) (attrs : List Attribute) (name : RawTitle) :
    parseCompleteTag tag (completeTag tag attrs name) =
      .ok (some (textsOf attrs name none)) := by
  have hgt : '>' ∉ attrs.flatMap (' ' :: ·.text) :=
    not_mem_attrs (by decide) fun a => ⟨a.key_ok.2.2.1, a.value_ok.2.1⟩
  have hpieces : splitOn ' ' (attrs.flatMap (' ' :: ·.text)) = [] :: attrs.map Attribute.text := by
    have hspace : ∀ p ∈ attrs.map Attribute.text, ' ' ∉ p := by
      intro p hp
      obtain ⟨a, -, rfl⟩ := List.mem_map.mp hp
      simp [Attribute.text, a.key_ok, a.value_ok]
    have hsplit := splitOn_pieces (x := []) List.not_mem_nil hspace
    rwa [List.nil_append, List.flatMap_map] at hsplit
  have hdrop : (completeTag tag attrs name).drop (tag.length + 1) =
      attrs.flatMap (' ' :: ·.text) ++ '>' :: (name.1 ++ '<' :: '/' :: (tag ++ ['>'])) := by
    rw [completeTag, List.drop_succ_cons, List.drop_left]
  have hstart : ('<' :: tag).isPrefixOf (completeTag tag attrs name) = true := by
    rw [List.isPrefixOf_iff_prefix, completeTag]
    exact ⟨_, rfl⟩
  rw [parseCompleteTag, if_pos hstart, hdrop]
  dsimp only
  rw [dropWhile_ne_append hgt, takeWhile_ne_append hgt]
  dsimp only
  rw [dropWhile_ne_append name.2.1, takeWhile_ne_append name.2.1, hpieces, if_pos]
  · have hfirst : parseAttribute [] [] = .ok [] := rfl
    rw [List.foldlM_cons, hfirst]
    simp only [bind, Except.bind]
    rw [foldlM_parseAttribute]
    rfl
  · rw [List.isPrefixOf_iff_prefix]
    exact ⟨[], by simp⟩

/-- The tag of a folder is not the one of a bookmark. -/
theorem parseCompleteTag_folder (attrs : List Attribute) (name : RawTitle) :
    parseCompleteTag "A".toList (completeTag "H3".toList attrs name) = .ok none := rfl

/-! ## The lists -/

/-- The lines that are left give a list, and leave some of them. -/
def Reads (arr : List Item) (xmlFil : List Text) (res : List Item) (rest : List Text) : Prop :=
  ∃ h, importChildren arr xmlFil = .ok (res, ⟨rest, h⟩)

theorem reads_nil (arr : List Item) : Reads arr [] arr [] := ⟨le_refl _, by rw [importChildren]⟩

/-- A line of another tag than those of the lists. -/
theorem reads_line {arr arr' res : List Item} {aLin : Text} {lines rest : List Text}
    (hstart : (getTagAndRest aLin).1 ≠ "DL".toList) (hend : (getTagAndRest aLin).1 ≠ "/DL".toList)
    (hline : readLine (getTagAndRest aLin).1 (getTagAndRest aLin).2 arr = .ok arr')
    (h : Reads arr' lines res rest) : Reads arr (aLin :: lines) res rest := by
  obtain ⟨hle, heq⟩ := h
  refine ⟨hle.trans (Nat.le_succ _), ?_⟩
  rw [importChildren, if_neg hstart, if_neg hend, hline]
  simp only
  rw [heq]
  rfl

theorem reads_end {arr : List Item} {aLin : Text} (lines : List Text)
    (hend : (getTagAndRest aLin).1 = "/DL".toList) : Reads arr (aLin :: lines) arr lines := by
  refine ⟨Nat.le_succ _, ?_⟩
  rw [importChildren, if_neg (by rw [hend]; decide), if_pos hend]

/-- The list of a folder. -/
theorem reads_list {arr arr' sub res : List Item} {aLin : Text} {lines lines' rest : List Text}
    (hstart : (getTagAndRest aLin).1 = "DL".toList) (hsub : Reads [] lines sub lines')
    (hset : setChildren arr sub = .ok arr') (h : Reads arr' lines' res rest) :
    Reads arr (aLin :: lines) res rest := by
  obtain ⟨hle, heq⟩ := hsub
  obtain ⟨hle', heq'⟩ := h
  refine ⟨hle'.trans (hle.trans (Nat.le_succ _)), ?_⟩
  rw [importChildren, if_pos hstart, heq]
  simp only
  rw [hset]
  simp only
  rw [heq']
  rfl

theorem updateLast_concat (arr : List Item) (texts : Dict Text Text)
    (children : Option (List Item)) (f : Dict Text Text → Option (List Item) → Item) :
    updateLast (arr ++ [.dict texts children]) f = .ok (arr ++ [f texts children]) := by
  rw [updateLast, List.getLast?_concat]
  simp only
  rw [List.dropLast_concat]

theorem setChildren_concat (arr sub : List Item) (texts : Dict Text Text)
    (children : Option (List Item)) :
    setChildren (arr ++ [.dict texts children]) sub =
      .ok (arr ++ [.dict (texts.erase "children".toList) (some sub)]) := by
  rw [setChildren, if_neg (by simp), updateLast_concat]

theorem setChildren_nil (sub : List Item) :
    setChildren [] sub = .ok [.dict [("name".toList, "ROOT".toList)] (some sub)] := rfl

theorem readLine_link (attrs : List Attribute) (name : RawTitle) (arr : List Item) :
    readLine "DT".toList (completeTag "A".toList attrs name) arr =
      .ok (arr ++ [.dict (textsOf attrs name none) none]) := by
  rw [readLine, if_pos rfl, parseCompleteTag_completeTag]
  rfl

theorem readLine_folder (attrs : List Attribute) (name : RawTitle) (arr : List Item) :
    readLine "DT".toList (completeTag "H3".toList attrs name) arr =
      .ok (arr ++ [.dict (textsOf attrs name none) none]) := by
  rw [readLine, if_pos rfl, parseCompleteTag_folder]
  simp only [bind, Except.bind]
  rw [if_neg (by simp), parseCompleteTag_completeTag]
  rfl

theorem readLine_description (d : Description) (arr : List Item) (attrs : List Attribute)
    (name : RawTitle) :
    readLine "DD".toList d.1 (arr ++ [.dict (textsOf attrs name none) none]) =
      .ok (arr ++ [.dict (textsOf attrs name (some d)) none]) := by
  rw [readLine, if_neg (by decide), if_pos rfl, textsOf, textsOf]
  dsimp only
  rw [d.2.1]
  by_cases hd : d.1 = []
  · rw [if_pos hd, if_pos hd]
  · rw [if_neg hd, if_neg hd, updateLast_concat]

/-! ## The bookmarks that are read -/

/-- A line of a tag other than those of the lists. -/
theorem reads_tagLine {depth : ℕ} {tag text : Text} {arr arr' res : List Item}
    {lines rest : List Text} (htag : ∀ c ∈ tag, c ≠ ' ' ∧ c ≠ '\t' ∧ c ≠ '>') (htext : '\n' ∉ text)
    (hstart : tag ≠ "DL".toList) (hend : tag ≠ "/DL".toList)
    (hline : readLine tag text arr = .ok arr') (h : Reads arr' lines res rest) :
    Reads arr (tagLine depth tag text :: lines) res rest := by
  have hget := getTagAndRest_tagLine depth htag htext
  refine reads_line ?_ ?_ ?_ h
  · rw [hget]
    exact hstart
  · rw [hget]
    exact hend
  · rw [hget]
    exact hline

/-- The line of a bookmark or of a folder. -/
theorem reads_completeTag {depth : ℕ} {tag : Text} {attrs : List Attribute} {name : RawTitle}
    {arr res : List Item} {lines rest : List Text} (htag : '\n' ∉ tag)
    (hline : readLine "DT".toList (completeTag tag attrs name) arr =
      .ok (arr ++ [.dict (textsOf attrs name none) none]))
    (h : Reads (arr ++ [.dict (textsOf attrs name none) none]) lines res rest) :
    Reads arr (tagLine depth "DT".toList (completeTag tag attrs name) :: lines) res rest := by
  refine reads_tagLine (by decide) (not_mem_completeTag htag attrs name) (by decide) (by decide)
    hline h

/-- The line of a description, if there is one. -/
theorem reads_description {depth : ℕ} {attrs : List Attribute} {name : RawTitle}
    {description : Option Description} {arr res : List Item} {lines rest : List Text}
    (h : Reads (arr ++ [.dict (textsOf attrs name description) none]) lines res rest) :
    Reads (arr ++ [.dict (textsOf attrs name none) none])
      (descriptionLines depth description ++ lines) res rest := by
  cases description with
  | none => exact h
  | some d =>
    exact reads_tagLine (by decide) d.2.2 (by decide) (by decide)
      (readLine_description d arr attrs name) h

/-- The lines of some bookmarks give their dictionaries. -/
theorem reads_lines (bs : Entries) (depth : ℕ) {arr res : List Item} {lines rest : List Text}
    (h : Reads (arr ++ bs.items) lines res rest) :
    Reads arr (bs.lines depth ++ lines) res rest := by
  have htag (depth : ℕ) (tag : Text) (htag : ∀ c ∈ tag, c ≠ ' ' ∧ c ≠ '\t' ∧ c ≠ '>') :
      (getTagAndRest (tagLine depth tag "<p>".toList)).1 = tag := by
    rw [getTagAndRest_tagLine depth htag (by decide)]
  induction bs generalizing depth arr res lines rest with
  | nil =>
    rw [Entries.items, List.append_nil] at h
    exact h
  | link attrs name description bs ih =>
    rw [Entries.items, List.append_cons] at h
    rw [Entries.lines, List.cons_append, List.append_assoc]
    exact reads_completeTag (by decide) (readLine_link attrs name arr)
      (reads_description (ih depth h))
  | folder attrs name description content bs ihcontent ih =>
    rw [Entries.items, List.append_cons] at h
    rw [Entries.lines, List.cons_append, List.append_assoc, List.cons_append,
      List.append_assoc, List.cons_append]
    refine reads_completeTag (by decide) (readLine_folder attrs name arr) (reads_description ?_)
    -- what the folder contains is read up to the end of its list
    have hcontent := @ihcontent (depth + 1) [] _
      (tagLine depth "/DL".toList "<p>".toList :: (bs.lines depth ++ lines)) _
      (reads_end _ (htag depth _ (by decide)))
    exact reads_list (htag depth _ (by decide)) hcontent (setChildren_concat _ _ _ _) (ih depth h)

/-- The import does nothing with these lines. -/
def Ignored (aLin : Text) : Prop :=
  (getTagAndRest aLin).1 ∉ ["DL".toList, "/DL".toList, "DT".toList, "DD".toList]

theorem reads_ignored {arr res : List Item} {header lines rest : List Text}
    (hheader : ∀ aLin ∈ header, Ignored aLin) (h : Reads arr lines res rest) :
    Reads arr (header ++ lines) res rest := by
  induction header with
  | nil => exact h
  | cons aLin header ih =>
    have hfirst := hheader aLin List.mem_cons_self
    simp only [Ignored, List.mem_cons, List.not_mem_nil, or_false, not_or] at hfirst
    refine reads_line hfirst.1 hfirst.2.1 ?_ (ih fun l hl => hheader l (List.mem_cons_of_mem _ hl))
    rw [readLine, if_neg hfirst.2.2.1, if_neg hfirst.2.2.2]

/-- The bookmarks of a file are read as they stand there: nested in the same way, each with its
attributes, its title and its description, whatever the lines before and after them are, if these
are ignored. -/
theorem importBookmarkFile_lines (bs : Entries) {header footer : List Text}
    (hheader : ∀ aLin ∈ header, Ignored aLin) (hfooter : ∀ aLin ∈ footer, Ignored aLin) :
    importBookmarkFile (header ++ tagLine 0 "DL".toList "<p>".toList ::
        (bs.lines 1 ++ tagLine 0 "/DL".toList [] :: footer)) =
      .ok (.dict [("name".toList, "Bookmarks".toList)]
        (some [.dict [("name".toList, "ROOT".toList)] (some bs.items)])) := by
  have hend : (getTagAndRest (tagLine 0 "/DL".toList [])).1 = "/DL".toList := by
    rw [getTagAndRest_tagLine 0 (by decide) List.not_mem_nil]
  have hstart : (getTagAndRest (tagLine 0 "DL".toList "<p>".toList)).1 = "DL".toList := by
    rw [getTagAndRest_tagLine 0 (by decide) (by decide)]
  have hcontent : Reads [] (bs.lines 1 ++ tagLine 0 "/DL".toList [] :: footer) bs.items footer :=
    reads_lines bs 1 (reads_end footer hend)
  have hfoot : Reads [.dict [("name".toList, "ROOT".toList)] (some bs.items)] (footer ++ [])
      [.dict [("name".toList, "ROOT".toList)] (some bs.items)] [] :=
    reads_ignored hfooter (reads_nil _)
  rw [List.append_nil] at hfoot
  obtain ⟨hle, heq⟩ := reads_ignored hheader (reads_list hstart hcontent (setChildren_nil _) hfoot)
  rw [importBookmarkFile, heq]
  rfl

/-- A folder with two bookmarks, and their descriptions, one of which is empty. -/
def diskEntries : Entries :=
  .folder [] ⟨"Linux".toList, by decide⟩ none
    (.link [⟨"HREF".toList, "http://host/S".toList, by decide, by decide, by decide⟩]
      ⟨"Disk partitions".toList, by decide⟩ (some ⟨"All of them".toList, by decide⟩)
      (.link [] ⟨"Oracle database&#39;schemas XE".toList, by decide⟩ (some ⟨[], by decide⟩) .nil))
    .nil

theorem importBookmarkFile_lines_diskEntries :
    importBookmarkFile (["<H1>Menu</H1>\n".toList] ++ tagLine 0 "DL".toList "<p>".toList ::
        (diskEntries.lines 1 ++ tagLine 0 "/DL".toList [] :: ["\n".toList])) =
      .ok (.dict [("name".toList, "Bookmarks".toList)]
        (some [.dict [("name".toList, "ROOT".toList)] (some diskEntries.items)])) :=
  importBookmarkFile_lines diskEntries
    (List.forall_mem_singleton.mpr (show Ignored _ by rw [Ignored]; decide))
    (List.forall_mem_singleton.mpr (show Ignored _ by rw [Ignored]; decide))

end Survol.Bookmarks
