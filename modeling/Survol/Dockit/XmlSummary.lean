import Survol.Dockit.XmlWriter

/-!
# Reading the XML summary back

Each writer of the summary writes pieces of XML: white space, tags, and elements with a value. The
pieces of a process or of a file are balanced, but those of a category that is not selected only
start an element. Values are written as they are, so that they are read back when they hold nothing
that XML gives a meaning to.

What should be read back is said of the fields of the objects: each field is read once, in a fixed
order. An empty text, a zero and `None` are left out, and the day is put in front of a time. A date
of a process that is not known is read as midnight.

## Main definitions

* `told`, `Session.processTold`, `Session.dataFileTold`, `accessTold` — the attributes that should be
  read.
* `Session.pieceWriter`, `Session.summaryPieces` — what the summary should say.
* `Session.ReadsBack` — a reader finds it in the text.
* `forall_xmlSummaries`, `exists_xmlSummaries` — what the traversal writes, and that it ends.
* `Session.NoneSkipped` — when the tags are balanced.
-/

open PyText Xml

namespace Survol.Dockit

/-! ## The attributes that should be read -/

/-- How a value should be read: a time follows the day, and midnight stands for a missing one. -/
def readAs (today name : Text) (v : AttrValue) : Text :=
  if isTimeStamp name then
    today ++ ' ' :: if v.truthy then v.str else "00:00:00.000000".toList
  else v.str

/-- The field of a name. -/
def field? (fields : List (Text × Option AttrValue)) (name : Text) : Option AttrValue :=
  (fields.find? fun a => a.1 = name).bind Prod.snd

/-- The attributes that should be read, by the order of their names: those that are not empty, and
the missing dates of the objects that are `dated`. -/
def told (today : Text) (dated : Bool) (fields : List (Text × Option AttrValue))
    (names : List Text) : List (Text × Text) :=
  names.filterMap fun name => (field? fields name).bind fun v =>
    if isCIM name && (v.truthy || dated && isTimeStamp name) then
      some (name, readAs today name v)
    else none

/-- The attributes of a process, in order. -/
def processOrder : List Text :=
  ["Handle".toList, "Name".toList, "CommandLine".toList, "CreationDate".toList,
    "TerminationDate".toList, "Priority".toList, "CurrentDirectory".toList,
    "EnvironmentVariables".toList, "Executable".toList, "IsThread".toList, "Username".toList]

/-- The attributes of a file, in order. -/
def dataFileOrder : List Text :=
  ["Name".toList, "Category".toList, "SocketAddress".toList, "AccessTime".toList,
    "CreationTime".toList, "Destination".toList, "DeviceId".toList, "DeviceType".toList,
    "FileMode".toList, "FileName".toList, "FileSize".toList, "HardLinksNumber".toList,
    "Inode".toList, "IsExecuted".toList, "ModifyTime".toList, "OwnerGroupId".toList,
    "OwnerUserId".toList, "Port".toList]

/-- The times and the counters of an access. -/
def accessRecord (a : FileAccess) : List (Text × Option AttrValue) :=
  [("OpenTime".toList, a.openTime.map .text),
    ("OpenSize".toList, a.openSize.map fun n : ℕ => .int n),
    ("CloseTime".toList, a.closeTime.map .text),
    ("CloseSize".toList, a.closeSize.map fun n : ℕ => .int n),
    ("NumReads".toList, a.numReads.map fun n : ℕ => .int n),
    ("BytesRead".toList, a.bytesRead.map .int),
    ("NumWrites".toList, a.numWrites.map fun n : ℕ => .int n),
    ("BytesWritten".toList, a.bytesWritten.map .int)]

/-- The attributes that should be read of an access: its process or its file, and its record. -/
def accessTold (today : Text) (displayedFromProcess : Bool) (a : FileAccess) : List (Text × Text) :=
  (if displayedFromProcess then ("Process".toList, decimal a.process)
    else ("File".toList, a.dataFile)) ::
    told today false (accessRecord a) ((accessRecord a).map Prod.fst)

namespace Session

variable (S : Session)

/-- The attributes that should be read of a process. -/
def processTold (pid : ℤ) : List (Text × Text) :=
  told S.today true (S.processFields pid) processOrder

/-- The attributes that should be read of a file. -/
def dataFileTold (o : CIMDataFile) : List (Text × Text) :=
  told S.today true (S.dataFileFields o) dataFileOrder

/-- The attributes that should be read of an object of another class. -/
def instanceTold (o : Instance) : List (Text × Text) :=
  told S.today true (o.attrs.map fun a => (a.1, some a.2)) (o.attrs.map Prod.fst)

end Session

/-! ## The attributes that are written -/

section
variable {today : Text} {fields : List (Text × Option AttrValue)}

theorem field?_of_mem (hnodup : (fields.map Prod.fst).Nodup) {a : Text × Option AttrValue}
    (ha : a ∈ fields) : field? fields a.1 = a.2 := by
  induction fields with
  | nil => cases ha
  | cons b l ih =>
    rw [List.map_cons, List.nodup_cons] at hnodup
    rw [field?, List.find?_cons]
    rcases List.mem_cons.mp ha with rfl | ha
    · simp
    · have hne : b.1 ≠ a.1 := fun h => hnodup.1 (h ▸ List.mem_map_of_mem ha)
      simp only [hne, decide_false]
      exact ih hnodup.2 ha

theorem find?_present (hnodup : (fields.map Prod.fst).Nodup) (name : Text) :
    ((present fields).find? fun a => a.1 = name) = (field? fields name).map (name, ·) := by
  induction fields with
  | nil => rfl
  | cons b l ih =>
    rw [List.map_cons, List.nodup_cons] at hnodup
    obtain ⟨n, v⟩ := b
    have hnone : n = name → field? l name = none := by
      rintro rfl
      rw [field?, Option.bind_eq_none_iff]
      intro a ha
      have hname : a.1 = n := by simpa using List.find?_some ha
      have hmem : a.1 ∈ l.map Prod.fst := List.mem_map_of_mem (List.mem_of_find?_eq_some ha)
      exact absurd (hname ▸ hmem) hnodup.1
    by_cases h : n = name
    · subst h
      cases v with
      | none =>
        rw [show present ((n, none) :: l) = present l from rfl, ih hnodup.2, hnone rfl]
        simp [field?]
      | some v => simp [present, field?]
    · have hfield : field? ((n, v) :: l) name = field? l name := by
        simp [field?, h]
      rw [hfield, ← ih hnodup.2]
      cases v with
      | none => rfl
      | some v => simp [present, h]

/-- The text of an attribute is the one that should be read. -/
theorem writtenValue_eq (name : Text) (v : AttrValue) : writtenValue today (name, v) =
    if isCIM name && (v.truthy || true && isTimeStamp name) then some (name, readAs today name v)
    else none := by
  rw [writtenValue, readAs]
  dsimp only
  cases hcim : isCIM name with
  | false => rfl
  | true =>
    cases htime : isTimeStamp name with
    | false => cases hv : v.truthy <;> simp [hv]
    | true => cases hv : v.truthy <;> simp [timeStampToStr, AttrValue.text, hv]

/-- The fields that are no priority are written in their order. -/
theorem filterMap_present {p : Text → Bool} {g : Text → Option (Text × Text)}
    (h : ∀ a ∈ fields, g a.1 = a.2.bind fun v => writtenValue today (a.1, v)) :
    ((present fields).filter fun a => p a.1).filterMap (writtenValue today) =
      ((fields.map Prod.fst).filter p).filterMap g := by
  induction fields with
  | nil => rfl
  | cons a l ih =>
    obtain ⟨ha, hl⟩ := List.forall_mem_cons.mp h
    obtain ⟨n, v⟩ := a
    specialize ih hl
    rw [List.map_cons, List.filter_cons]
    cases v with
    | none =>
      rw [show present ((n, none) :: l) = present l from rfl, ih]
      split
      · rw [List.filterMap_cons, ha]
        rfl
      · rfl
    | some v =>
      rw [show present ((n, some v) :: l) = (n, v) :: present l from rfl, List.filter_cons]
      dsimp only
      split
      · rw [List.filterMap_cons, List.filterMap_cons, ha, ih]
        rfl
      · exact ih

/-- **What is written is what should be read**, when the order puts the priorities first. -/
theorem writtenAttrs_eq_told {attrsPriorities names : List Text}
    (hnodup : (fields.map Prod.fst).Nodup)
    (hnames : attrsPriorities ++ (fields.map Prod.fst).filter (· ∉ attrsPriorities) = names) :
    writtenAttrs today attrsPriorities (present fields) = told today true fields names := by
  rw [← hnames, writtenAttrs, told, List.filterMap_append, List.filterMap_append,
    List.filterMap_filterMap]
  congr 1
  · refine List.filterMap_congr fun name _ => ?_
    rw [find?_present hnodup]
    cases field? fields name with
    | none => rfl
    | some v => exact writtenValue_eq name v
  · refine @filterMap_present today fields (fun n => decide (n ∉ attrsPriorities)) _
      fun a ha => ?_
    rw [field?_of_mem hnodup ha]
    exact congrArg a.2.bind (funext fun v => (writtenValue_eq a.1 v).symm)

end

theorem processAttrs_eq (S : Session) (pid : ℤ) : S.processAttrs pid = S.processTold pid := by
  have hnames : (S.processFields pid).map Prod.fst =
      ["CommandLine".toList, "CreationDate".toList, "CurrentDirectory".toList,
        "EnvironmentVariables".toList, "Executable".toList, "Handle".toList, "IsThread".toList,
        "Name".toList, "Priority".toList, "TerminationDate".toList, "Username".toList] := rfl
  refine writtenAttrs_eq_told ?_ ?_
  · rw [hnames]
    decide
  · rw [hnames]
    decide

theorem dataFileAttrs_eq (S : Session) (o : CIMDataFile) :
    S.dataFileAttrs o = S.dataFileTold o := by
  have hnames : (S.dataFileFields o).map Prod.fst =
      ["AccessTime".toList, "Category".toList, "CreationTime".toList, "Destination".toList,
        "DeviceId".toList, "DeviceType".toList, "FileMode".toList, "FileName".toList,
        "FileSize".toList, "HardLinksNumber".toList, "Inode".toList, "IsExecuted".toList,
        "ModifyTime".toList, "Name".toList, "OwnerGroupId".toList, "OwnerUserId".toList,
        "Port".toList, "SocketAddress".toList] := rfl
  refine writtenAttrs_eq_told ?_ ?_
  · rw [hnames]
    decide
  · rw [hnames]
    decide

theorem instanceAttrs_eq (S : Session) (o : Instance) :
    writtenAttrs S.today [] o.attrs = S.instanceTold o := by
  have hpresent : present (o.attrs.map fun a => (a.1, some a.2)) = o.attrs := by
    rw [present, List.filterMap_map]
    exact List.filterMap_some
  have hmap : (o.attrs.map fun a => (a.1, some a.2)).map Prod.fst = o.attrs.map Prod.fst := by
    rw [List.map_map]
    rfl
  have h := @writtenAttrs_eq_told S.today (o.attrs.map fun a => (a.1, some a.2)) []
    (o.attrs.map Prod.fst) (hmap ▸ o.nodup) (by rw [hmap]; simp)
  rwa [hpresent] at h

/-- The attributes that are written of a tag. -/
def writtenFields (l : List (Text × Option Text)) : List (Text × Text) :=
  l.filterMap fun a => a.2.map (a.1, ·)

/-- The attribute of one field of an access. -/
def toldField (today name : Text) (v : Option AttrValue) : Option (Text × Text) :=
  v.bind fun v =>
    if isCIM name && (v.truthy || false && isTimeStamp name) then some (name, readAs today name v)
    else none

theorem stampField_eq {today name : Text} (t : Option Text) (htime : isTimeStamp name = true)
    (hcim : isCIM name = true) :
    (stampField today t).map (name, ·) = toldField today name (t.map AttrValue.text) := by
  match t with
  | none => rfl
  | some [] =>
    rw [Option.map_some, toldField, Option.bind_some, show (AttrValue.text []).truthy = false from rfl,
      Bool.false_or, Bool.false_and, Bool.and_false]
    rfl
  | some (c :: s) =>
    rw [Option.map_some, toldField, Option.bind_some, readAs, htime, hcim,
      show (AttrValue.text (c :: s)).truthy = true from rfl]
    rfl

theorem counterField_eq {today name : Text} (n : Option ℤ) (htime : isTimeStamp name = false)
    (hcim : isCIM name = true) :
    (counterField n).map (name, ·) = toldField today name (n.map AttrValue.int) := by
  cases n with
  | none => rfl
  | some n =>
    have hvalue : toldField today name (some (.int n)) =
        if n ≠ 0 then some (name, decimal n) else none := by
      rw [toldField, Option.bind_some, readAs, htime, hcim]
      simp only [AttrValue.int, Bool.true_and, Bool.and_false, Bool.or_false, decide_eq_true_eq,
        Bool.false_eq_true, if_false]
    have hcounter : counterField (some n) = if n ≠ 0 then some (decimal n) else none := by
      rw [counterField, Option.filter_some]
      by_cases hn : n = 0
      · rw [if_neg (by simp [hn]), if_neg (by simp [hn])]
        rfl
      · rw [if_pos (by simp [hn]), if_pos hn]
        rfl
    rw [Option.map_some, hvalue, hcounter]
    split <;> rfl

/-- **The attributes of an access are those that should be read.** -/
theorem writtenFields_eq (today : Text) (displayedFromProcess : Bool) (a : FileAccess) :
    writtenFields (accessFields today displayedFromProcess a) =
      accessTold today displayedFromProcess a := by
  have htold : ∀ l : List (Text × Option AttrValue), (l.map Prod.fst).Nodup →
      told today false l (l.map Prod.fst) = l.filterMap fun f => toldField today f.1 f.2 := by
    intro l hl
    rw [told, List.filterMap_map]
    refine List.filterMap_congr fun f hf => ?_
    rw [Function.comp_apply, field?_of_mem hl hf]
    rfl
  have hnames : (accessRecord a).map Prod.fst =
      ["OpenTime".toList, "OpenSize".toList, "CloseTime".toList, "CloseSize".toList,
        "NumReads".toList, "BytesRead".toList, "NumWrites".toList, "BytesWritten".toList] := rfl
  have hnodup : ((accessRecord a).map Prod.fst).Nodup := by
    rw [hnames]
    decide
  have htime : ∀ name ∈ ["OpenTime".toList, "CloseTime".toList],
      isTimeStamp name = true ∧ isCIM name = true := by decide
  have hcount : ∀ name ∈ ["OpenSize".toList, "CloseSize".toList, "NumReads".toList,
      "BytesRead".toList, "NumWrites".toList, "BytesWritten".toList],
      isTimeStamp name = false ∧ isCIM name = true := by decide
  simp only [List.forall_mem_cons] at htime hcount
  obtain ⟨hopen, hclose, -⟩ := htime
  obtain ⟨hopenSize, hcloseSize, hreads, hbytesRead, hwrites, hbytesWritten, -⟩ := hcount
  have hnat : ∀ {name : Text} (n : Option ℕ), isTimeStamp name = false ∧ isCIM name = true →
      (counterField (n.map Int.ofNat)).map (name, ·) =
        toldField today name (n.map fun n : ℕ => .int n) := by
    intro name n hname
    rw [counterField_eq _ hname.1 hname.2, Option.map_map]
    rfl
  have hfields : (accessFields today displayedFromProcess a).tail.map
      (fun f => f.2.map (f.1, ·)) = (accessRecord a).map fun f => toldField today f.1 f.2 :=
    congrArg₂ List.cons (stampField_eq a.openTime hopen.1 hopen.2)
      (congrArg₂ List.cons (hnat a.openSize hopenSize)
        (congrArg₂ List.cons (stampField_eq a.closeTime hclose.1 hclose.2)
          (congrArg₂ List.cons (hnat a.closeSize hcloseSize)
            (congrArg₂ List.cons (hnat a.numReads hreads)
              (congrArg₂ List.cons (counterField_eq a.bytesRead hbytesRead.1 hbytesRead.2)
                (congrArg₂ List.cons (hnat a.numWrites hwrites)
                  (congrArg₂ List.cons
                    (counterField_eq a.bytesWritten hbytesWritten.1 hbytesWritten.2) rfl)))))))
  have htail : ∀ {α β : Type} (l : List α) (f : α → Option β),
      l.filterMap f = (l.map f).filterMap id := fun l f => by rw [List.filterMap_map]; rfl
  rw [accessTold, htold _ hnodup, htail (accessRecord a), ← hfields, ← htail]
  cases displayedFromProcess <;> rfl

/-! ## The pieces -/

/-- The pieces of an element on several lines. -/
def elementPieces (margin name : Text) (attrs : List (Text × Text)) (ps : List Piece) :
    List Piece :=
  .blank margin :: .opening name attrs [] :: .blank ['\n'] ::
    (ps ++ [.blank margin, .closing name, .blank ['\n']])

/-- The pieces of the attributes of an object. -/
def plainPieces (subMargin : Text) (attrs : List (Text × Text)) : List Piece :=
  attrs.flatMap fun a => [.blank subMargin, .leaf a.1 a.2, .blank ['\n']]

/-- The pieces of what the scanners have found. -/
def parsedDataPieces (margin direction : Text) (b : Option BufferConcatenator) : List Piece :=
  (parsedData b).flatMap fun k =>
    elementPieces margin (k.1 ++ "_List".toList) [("direction".toList, direction)]
      (plainPieces (margin ++ margin4) (k.2.map fun v => (k.1, v)))

/-- The pieces of an access. -/
def tagPieces (today margin : Text) (displayedFromProcess : Bool) (a : FileAccess) : List Piece :=
  let attrs := accessTold today displayedFromProcess a
  if hasParsedData a.bufConcatRead || hasParsedData a.bufConcatWrite then
    .blank margin :: .opening "Access".toList attrs [' '] :: .blank ['\n'] ::
      (parsedDataPieces (margin ++ margin4) "Read".toList a.bufConcatRead ++
        parsedDataPieces (margin ++ margin4) "Write".toList a.bufConcatWrite ++
        [.blank margin, .closing "Access".toList, .blank ['\n']])
  else [.blank margin, .empty "Access".toList attrs [' '], .blank ['\n']]

/-- The pieces of a list of accesses. -/
def vectorPieces (today margin : Text) (displayedFromProcess : Bool) (l : List FileAccess) :
    List Piece :=
  if l = [] then [] else
    elementPieces margin "FileAccesses".toList []
      (l.flatMap (tagPieces today (margin ++ margin4) displayedFromProcess))

namespace Session

variable (S : Session)

/-- The pieces of a file. -/
def dataFilePieces (o : CIMDataFile) : List Piece :=
  let margin := margin4 ++ margin4
  elementPieces margin "CIM_DataFile".toList [("Name".toList, o.name)]
    (plainPieces (margin ++ margin4) (S.dataFileTold o) ++
      vectorPieces S.today (margin ++ margin4) true (S.accesses o.dataFileFileAccesses))

/-- The pieces of a category. -/
def categoryPieces (filterCats : Option CategoryFilter) (category : Text) : List Piece :=
  if S.filesOf category = [] then [] else
    if CategoryFilter.selects category filterCats then
      elementPieces margin4 "FilesCategory".toList [("category".toList, category)]
        ((S.filesOf category).flatMap S.dataFilePieces)
    else
      [.blank margin4, .opening "FilesCategory".toList [("category".toList, category)] [],
        .blank ['\n']]

/-- The pieces of the objects of a class. -/
def instancePieces (c : SystemClass) : List Piece :=
  (S.instances c).flatMap fun o =>
    elementPieces margin4 c.name []
      (plainPieces (margin4 ++ margin4) (S.instanceTold o))

/-- The pieces of the summary. -/
def pieceWriter : SummaryWriter Piece where
  processStart margin pid :=
    .blank margin :: .opening "CIM_Process".toList [("Handle".toList, decimal pid)] [] ::
      .blank ['\n'] :: (plainPieces (margin ++ margin4) (S.processTold pid) ++
        vectorPieces S.today (margin ++ margin4) false (S.processAccesses pid))
  processEnd margin _ := [.blank margin, .closing "CIM_Process".toList, .blank ['\n']]
  instances := S.instancePieces
  dataFiles filterCats := sortedCategories.flatMap (S.categoryPieces filterCats)

/-- What the summary should say, in a depth of at most `n`. -/
def summaryPieces (n : ℕ) (filters : List SummaryFilter) : Option (List Piece) :=
  (xmlSummaries S.pieceWriter S.objects n [] filters).map (document "Dockit".toList)

/-- The text is well-formed, and a reader finds in it the handles, the names of the files and the
attributes of the objects. -/
def ReadsBack (filters : List SummaryFilter) (n : ℕ) (text : Text) : Prop :=
  ∃ ps, S.summaryPieces n filters = some ps ∧ parse text = some (events [] ps)

end Session

/-! ## The text of the pieces -/

theorem attrsText_writtenFields (l : List (Text × Option Text)) :
    attrsText (writtenFields l) = l.flatMap attributeText := by
  induction l with
  | nil => rfl
  | cons a l ih =>
    obtain ⟨name, value⟩ := a
    cases value with
    | none => exact ih
    | some value =>
      rw [List.flatMap_cons, ← ih]
      simp [writtenFields, attrsText, attributeText]

theorem render_append (ps qs : List Piece) : render (ps ++ qs) = render ps ++ render qs :=
  List.flatMap_append

/-- Pieces that are the text of each item are the text of the list. -/
theorem render_flatMap {α : Type} {f : α → List Piece} {g : α → Text} {l : List α}
    (h : ∀ x ∈ l, render (f x) = g x) : render (l.flatMap f) = l.flatMap g := by
  induction l with
  | nil => rfl
  | cons x l ih =>
    obtain ⟨hx, hl⟩ := List.forall_mem_cons.mp h
    rw [List.flatMap_cons, List.flatMap_cons, render_append, hx, ih hl]

theorem render_elementPieces (margin name : Text) (attrs : List (Text × Text)) (ps : List Piece) :
    render (elementPieces margin name attrs ps) =
      margin ++ '<' :: name ++ attrsText attrs ++ ">\n".toList ++ render ps ++
        margin ++ "</".toList ++ name ++ ">\n".toList := by
  simp [elementPieces, render, Piece.render]

theorem render_plainPieces (subMargin : Text) (attrs : List (Text × Text)) :
    render (plainPieces subMargin attrs) = plainToXML subMargin attrs := by
  refine render_flatMap fun a _ => ?_
  simp [render, Piece.render]

theorem render_parsedDataPieces (margin direction : Text) (b : Option BufferConcatenator) :
    render (parsedDataPieces margin direction b) = parsedDataToXML margin direction b := by
  refine render_flatMap fun k _ => ?_
  rw [render_elementPieces, render_plainPieces]
  simp [attrsText]

theorem render_tagPieces (today margin : Text) (displayedFromProcess : Bool) (a : FileAccess) :
    render (tagPieces today margin displayedFromProcess a) =
      tagXML today margin displayedFromProcess a := by
  rw [tagPieces, tagXML, ← attrsText_writtenFields, writtenFields_eq]
  split
  · simp [render, Piece.render, ← render_parsedDataPieces]
  · simp [render, Piece.render]

theorem render_vectorPieces (today margin : Text) (displayedFromProcess : Bool)
    (l : List FileAccess) :
    render (vectorPieces today margin displayedFromProcess l) =
      vectorToXML today margin displayedFromProcess l := by
  rw [vectorPieces, vectorToXML]
  split
  · rfl
  · rw [render_elementPieces, render_flatMap fun a _ => render_tagPieces _ _ _ a]
    simp [attrsText]

namespace Session

variable (S : Session)

theorem render_dataFilePieces (o : CIMDataFile) : render (S.dataFilePieces o) = S.xmlDisplay o := by
  rw [dataFilePieces, xmlDisplay, dataFileAttrs_eq, render_elementPieces, render_append,
    render_plainPieces,
    render_vectorPieces]
  simp [attrsText]

theorem render_categoryPieces (filterCats : Option CategoryFilter) (category : Text) :
    render (S.categoryPieces filterCats category) = S.xmlCategory filterCats category := by
  rw [categoryPieces, xmlCategory]
  split
  · rfl
  · split
    · rw [render_elementPieces, render_flatMap fun o _ => S.render_dataFilePieces o]
      simp [attrsText, margin4]
    · simp [render, Piece.render, attrsText, margin4]

theorem render_instancePieces (c : SystemClass) :
    render (S.instancePieces c) = S.xmlInstances c := by
  refine render_flatMap fun o _ => ?_
  rw [instanceAttrs_eq, render_elementPieces, render_plainPieces]
  simp [attrsText]

end Session

/-! ## The traversal -/

theorem exists_of_concat {α β : Type} {f : α → Option (List β)} {l : List α} {out : List β}
    (h : concat f l = some out) : ∀ x ∈ l, ∃ o, f x = some o := by
  induction l generalizing out with
  | nil => exact nofun
  | cons x l ih =>
    obtain ⟨o, ho, h⟩ := Option.bind_eq_some_iff.mp h
    obtain ⟨rest, hrest, -⟩ := Option.map_eq_some_iff.mp h
    exact List.forall_mem_cons.mpr ⟨⟨o, ho⟩, ih hrest⟩

theorem mem_concat {α β : Type} {f : α → Option (List β)} {l : List α} {out : List β}
    (h : concat f l = some out) {b : β} : b ∈ out ↔ ∃ x ∈ l, ∃ o, f x = some o ∧ b ∈ o := by
  induction l generalizing out with
  | nil =>
    cases h
    simp
  | cons x l ih =>
    obtain ⟨o, ho, h⟩ := Option.bind_eq_some_iff.mp h
    obtain ⟨rest, hrest, rfl⟩ := Option.map_eq_some_iff.mp h
    rw [List.mem_append, ih hrest]
    simp [ho]

theorem concat_eq_map {α β γ : Type} {f : α → Option (List β)} {g : α → Option (List γ)}
    {r : List β → List γ} (hnil : r [] = []) (happend : ∀ a b, r (a ++ b) = r a ++ r b)
    (l : List α) (h : ∀ x ∈ l, g x = (f x).map r) : concat g l = (concat f l).map r := by
  induction l with
  | nil => simp [concat, hnil]
  | cons x l ih =>
    obtain ⟨hx, hl⟩ := List.forall_mem_cons.mp h
    rw [concat, concat, hx, ih hl]
    cases f x with
    | none => rfl
    | some o =>
      cases concat f l with
      | none => rfl
      | some rest => simp [happend]

/-- One writer writes what `r` makes of the items of another one. -/
structure Writes {β γ : Type} (r : List β → List γ) (W : SummaryWriter β)
    (W' : SummaryWriter γ) : Prop where
  nil : r [] = []
  append : ∀ a b, r (a ++ b) = r a ++ r b
  processStart : ∀ margin pid, r (W.processStart margin pid) = W'.processStart margin pid
  processEnd : ∀ margin pid, r (W.processEnd margin pid) = W'.processEnd margin pid
  instances : ∀ c, r (W.instances c) = W'.instances c
  dataFiles : ∀ filterCats, r (W.dataFiles filterCats) = W'.dataFiles filterCats

namespace Writes

variable {β γ : Type} {r : List β → List γ} {W : SummaryWriter β} {W' : SummaryWriter γ}
  (h : Writes r W W') (w : Objects)
include h

theorem xmlOneLevel (n : ℕ) (margin : Text) (pid : ℤ) :
    xmlOneLevel W' w n margin pid = (xmlOneLevel W w n margin pid).map r := by
  induction n generalizing margin pid with
  | zero => rfl
  | succ n ih =>
    rw [Dockit.xmlOneLevel, Dockit.xmlOneLevel, concat_eq_map h.nil h.append _ fun q _ => ih _ q]
    cases concat (Dockit.xmlOneLevel W w n (margin ++ margin4)) (w.subsOf pid) with
    | none => rfl
    | some subs => simp [h.append, h.processStart, h.processEnd]

theorem xmlProcesses (n : ℕ) (visited ps : List ℤ) :
    xmlProcesses W' w n visited ps =
      (xmlProcesses W w n visited ps).map fun o => (o.1, r o.2) := by
  induction ps generalizing visited with
  | nil => simp [Dockit.xmlProcesses, h.nil]
  | cons p ps ih =>
    rw [Dockit.xmlProcesses, Dockit.xmlProcesses]
    split
    · exact ih visited
    · cases w.topProcessFromProc n p with
      | none => rfl
      | some top =>
        simp only [Option.bind_eq_bind, Option.bind_some]
        rw [h.xmlOneLevel]
        cases Dockit.xmlOneLevel W w n margin4 top with
        | none => rfl
        | some text =>
          cases w.xmlOneLevelSummary n top with
          | none => rfl
          | some seen =>
            simp only [Option.map_some, Option.bind_some]
            rw [ih]
            cases Dockit.xmlProcesses W w n (visited ++ seen) ps with
            | none => rfl
            | some o => simp [h.append]

theorem xmlSummaries (n : ℕ) (visited : List ℤ) (filters : List SummaryFilter) :
    xmlSummaries W' w n visited filters = (xmlSummaries W w n visited filters).map r := by
  induction filters generalizing visited with
  | nil => simp [Dockit.xmlSummaries, h.nil]
  | cons f fs ih =>
    rw [Dockit.xmlSummaries, Dockit.xmlSummaries]
    cases f.cls with
    | system c =>
      simp only [ih]
      cases Dockit.xmlSummaries W w n visited fs with
      | none => rfl
      | some rest => simp [h.append, h.instances]
    | dataFile =>
      simp only [ih]
      cases Dockit.xmlSummaries W w n visited fs with
      | none => rfl
      | some rest => simp [h.append, h.dataFiles]
    | process =>
      dsimp only
      split
      · rfl
      · rw [h.xmlProcesses]
        cases Dockit.xmlProcesses W w n visited w.sortedProcesses with
        | none => rfl
        | some o =>
          simp only [Option.bind_eq_bind, Option.map_some, Option.bind_some, ih]
          cases Dockit.xmlSummaries W w n o.1 fs with
          | none => rfl
          | some rest => simp [h.append]

end Writes

/-- The process is below the root of a process. -/
def Objects.Shown (w : Objects) (q : ℤ) : Prop :=
  ∃ p ∈ w.processes.keys, ∃ n top, w.topProcessFromProc n p = some top ∧
    Forest.Below w.subsOf top q

section
variable {β : Type} {W : SummaryWriter β} {w : Objects} {P : β → Prop} {C : ℤ → Prop} {n : ℕ}

/-- What is written about a process is good when the process is. -/
def GoodProcess (W : SummaryWriter β) (P : β → Prop) (C : ℤ → Prop) : Prop :=
  ∀ margin pid, (∀ c ∈ margin, c = ' ') →
    ((∀ x ∈ W.processStart margin pid ++ W.processEnd margin pid, P x) ↔ C pid)

theorem margin_append {margin : Text} (hmargin : ∀ c ∈ margin, c = ' ') :
    ∀ c ∈ margin ++ margin4, c = ' ' :=
  List.forall_mem_append.mpr ⟨hmargin, by decide⟩

theorem forall_xmlOneLevel (hC : GoodProcess W P C) {margin : Text} {pid : ℤ} {out : List β}
    (hmargin : ∀ c ∈ margin, c = ' ') (h : xmlOneLevel W w n margin pid = some out) :
    (∀ x ∈ out, P x) ↔ ∀ q, Forest.Below w.subsOf pid q → C q := by
  induction n generalizing margin pid out with
  | zero => cases h
  | succ n ih =>
    obtain ⟨subs, hsubs, rfl⟩ := Option.map_eq_some_iff.mp h
    have hrest : (∀ x ∈ subs, P x) ↔ ∀ c ∈ w.subsOf pid, ∀ q, Forest.Below w.subsOf c q → C q := by
      constructor
      · intro hall c hc
        obtain ⟨o, ho⟩ := exists_of_concat hsubs c hc
        exact (ih (margin_append hmargin) ho).mp fun x hx =>
          hall x ((mem_concat hsubs).mpr ⟨c, hc, o, ho, hx⟩)
      · intro hall x hx
        obtain ⟨c, hc, o, ho, hxo⟩ := (mem_concat hsubs).mp hx
        exact (ih (margin_append hmargin) ho).mpr (hall c hc) x hxo
    have hsplit : (∀ x ∈ W.processStart margin pid ++ subs ++ W.processEnd margin pid, P x) ↔
        C pid ∧ ∀ x ∈ subs, P x := by
      rw [← hC margin pid hmargin]
      simp only [List.forall_mem_append]
      tauto
    rw [hsplit, hrest]
    constructor
    · rintro ⟨hpid, hall⟩ q hq
      rcases Forest.below_iff.mp hq with rfl | ⟨c, hc, hq⟩
      · exact hpid
      · exact hall c hc q hq
    · intro hall
      exact ⟨hall pid .refl, fun c hc q hq => hall q (Forest.below_iff.mpr (.inr ⟨c, hc, hq⟩))⟩

/-- A set of visited processes holds the subprocesses of its processes. -/
def Closed (w : Objects) (visited : List ℤ) : Prop := ∀ a ∈ visited, ∀ b ∈ w.subsOf a, b ∈ visited

theorem Closed.below {visited : List ℤ} (h : Closed w visited) {a b : ℤ} (ha : a ∈ visited)
    (hab : Forest.Below w.subsOf a b) : b ∈ visited := by
  induction hab with
  | refl => exact ha
  | tail _ hbc ih => exact h _ ih _ hbc

/-- The loop over the processes: what it visits, and what it writes about them. -/
theorem xmlProcesses_spec (hC : GoodProcess W P C) {ps visited visited' : List ℤ} {out : List β}
    (hclosed : Closed w visited) (h : xmlProcesses W w n visited ps = some (visited', out)) :
    Closed w visited' ∧ (∀ q ∈ visited, q ∈ visited') ∧
      (∀ r ∈ ps, w.parentOf r = none → r ∈ visited') ∧
      (∀ q ∈ visited', q ∈ visited ∨ ∃ p ∈ ps, ∃ n top, w.topProcessFromProc n p = some top ∧
        Forest.Below w.subsOf top q) ∧
      ((∀ q ∈ visited, C q) → ((∀ x ∈ out, P x) ↔ ∀ q ∈ visited', C q)) := by
  induction ps generalizing visited out with
  | nil =>
    cases h
    exact ⟨hclosed, fun q hq => hq, nofun, fun q hq => .inl hq, fun hv =>
      iff_of_true (List.forall_mem_nil _) hv⟩
  | cons p ps ih =>
    rw [xmlProcesses] at h
    split at h
    · rename_i hp
      obtain ⟨h₁, h₂, h₃, h₄, h₅⟩ := ih hclosed h
      refine ⟨h₁, h₂, List.forall_mem_cons.mpr ⟨fun _ => h₂ p hp, h₃⟩,
        fun q hq => (h₄ q hq).imp_right ?_, h₅⟩
      rintro ⟨a, ha, hr⟩
      exact ⟨a, List.mem_cons_of_mem p ha, hr⟩
    · simp only [Option.bind_eq_bind, Option.bind_eq_some_iff] at h
      obtain ⟨top, htop, text, htext, seen, hseen, ⟨v, rest⟩, hrest, h⟩ := h
      cases h
      have hmem := fun q => Forest.mem_walk hseen q
      have hclosed' : Closed w (visited ++ seen) := by
        intro a ha b hb
        rw [List.mem_append] at ha ⊢
        exact ha.imp (fun ha => hclosed a ha b hb) fun ha =>
          (hmem b).mpr (((hmem a).mp ha).tail hb)
      obtain ⟨h₁, h₂, h₃, h₄, h₅⟩ := ih hclosed' hrest
      refine ⟨h₁, fun q hq => h₂ q (List.mem_append_left seen hq),
        List.forall_mem_cons.mpr ⟨fun hp => ?_, h₃⟩, fun q hq => ?_, fun hv => ?_⟩
      · have hroot : top = p := by
          cases n with
          | zero => cases htop
          | succ n =>
            rw [Objects.topProcessFromProc, Forest.top, hp] at htop
            exact (Option.some.inj htop).symm
        exact h₂ p (List.mem_append_right visited ((hmem p).mpr (hroot ▸ .refl)))
      · rcases h₄ q hq with hq | ⟨a, ha, hr⟩
        · rcases List.mem_append.mp hq with hq | hq
          · exact .inl hq
          · exact .inr ⟨p, List.mem_cons_self, n, top, htop, (hmem q).mp hq⟩
        · exact .inr ⟨a, List.mem_cons_of_mem p ha, hr⟩
      · rw [List.forall_mem_append, forall_xmlOneLevel hC (by decide) htext]
        constructor
        · rintro ⟨htop', hall⟩
          refine (h₅ fun q hq => ?_).mp hall
          rcases List.mem_append.mp hq with hq | hq
          · exact hv q hq
          · exact htop' q ((hmem q).mp hq)
        · intro hall
          refine ⟨fun q hq => hall q (h₂ q (List.mem_append_right visited ((hmem q).mpr hq))),
            (h₅ fun q hq => hall q (h₂ q hq)).mpr hall⟩

/-- The root of a known process is known, when the parents are. -/
theorem root_of_top (hknown : ∀ p q, w.parentOf p = some q → q ∈ w.processes.keys) {p r : ℤ}
    (hp : p ∈ w.processes.keys) (h : w.topProcessFromProc n p = some r) :
    r ∈ w.processes.keys ∧ w.parentOf r = none := by
  rw [Objects.topProcessFromProc] at h
  induction n generalizing p with
  | zero => cases h
  | succ n ih =>
    rw [Forest.top] at h
    split at h
    · rename_i hroot
      cases h
      exact ⟨hp, hroot⟩
    · rename_i q hq
      exact ih (hknown p q hq) h

theorem mem_sortedProcesses (p : ℤ) : p ∈ w.sortedProcesses ↔ p ∈ w.processes.keys :=
  (List.mergeSort_perm _ _).mem_iff

/-- What a filter asks for is good. -/
def GoodFilter (W : SummaryWriter β) (w : Objects) (P : β → Prop) (C : ℤ → Prop)
    (f : SummaryFilter) : Prop :=
  match f.cls with
  | .system c => ∀ x ∈ W.instances c, P x
  | .dataFile => ∀ x ∈ W.dataFiles f.category, P x
  | .process => ∀ q, w.Shown q → C q

/-- **What is written is good when all that the filters ask for is.** -/
theorem forall_xmlSummaries (hC : GoodProcess W P C)
    (hknown : ∀ p q, w.parentOf p = some q → q ∈ w.processes.keys) {visited : List ℤ}
    (hclosed : Closed w visited) (hshown : ∀ q ∈ visited, w.Shown q) (hv : ∀ q ∈ visited, C q)
    {filters : List SummaryFilter} {out : List β}
    (h : xmlSummaries W w n visited filters = some out) :
    (∀ x ∈ out, P x) ↔ ∀ f ∈ filters, GoodFilter W w P C f := by
  induction filters generalizing visited out with
  | nil =>
    cases h
    exact iff_of_true (List.forall_mem_nil _) (List.forall_mem_nil _)
  | cons f fs ih =>
    rw [List.forall_mem_cons]
    rw [xmlSummaries] at h
    cases hcls : f.cls with
    | system c =>
      rw [hcls] at h
      obtain ⟨rest, hrest, rfl⟩ := Option.map_eq_some_iff.mp h
      rw [List.forall_mem_append, ih hclosed hshown hv hrest, GoodFilter, hcls]
    | dataFile =>
      rw [hcls] at h
      obtain ⟨rest, hrest, rfl⟩ := Option.map_eq_some_iff.mp h
      rw [List.forall_mem_append, ih hclosed hshown hv hrest, GoodFilter, hcls]
    | process =>
      rw [hcls] at h
      dsimp only at h
      rw [GoodFilter, hcls]
      split at h
      · cases h
      · simp only [Option.bind_eq_bind, Option.bind_eq_some_iff] at h
        obtain ⟨⟨visited', text⟩, htext, rest, hrest, h⟩ := h
        cases h
        obtain ⟨h₁, h₂, h₃, h₄, h₅⟩ := xmlProcesses_spec hC hclosed htext
        have hall : ∀ q, q ∈ visited' ↔ w.Shown q := by
          intro q
          constructor
          · intro hq
            rcases h₄ q hq with hq | ⟨p, hp, hr⟩
            · exact hshown q hq
            · exact ⟨p, (mem_sortedProcesses p).mp hp, hr⟩
          · rintro ⟨p, hp, m, r, hr, hq⟩
            obtain ⟨hkey, hroot⟩ := root_of_top hknown hp hr
            exact h₁.below (h₃ r ((mem_sortedProcesses r).mpr hkey) hroot) hq
        have htext' : (∀ x ∈ text, P x) ↔ ∀ q, w.Shown q → C q := by
          rw [h₅ hv]
          exact forall_congr' fun q => imp_congr_left (hall q)
        rw [List.forall_mem_append, htext']
        refine and_congr_right fun hgood => ih h₁ (fun q hq => (hall q).mp hq)
          (fun q hq => hgood q ((hall q).mp hq)) hrest

/-! ## A text is written -/

theorem exists_xmlOneLevel {margin : Text} {pid : ℤ} {l : List ℤ}
    (h : w.xmlOneLevelSummary n pid = some l) : ∃ out, xmlOneLevel W w n margin pid = some out := by
  rw [Objects.xmlOneLevelSummary] at h
  induction n generalizing margin pid l with
  | zero => cases h
  | succ n ih =>
    rw [Forest.walk, Option.map_eq_some_iff] at h
    obtain ⟨l', hl', -⟩ := h
    have hsubs : ∀ q ∈ w.subsOf pid, ∃ out, xmlOneLevel W w n (margin ++ margin4) q = some out := by
      intro q hq
      obtain ⟨l'', hq⟩ := Forest.exists_of_walkList hl' hq
      exact ih hq
    have hconcat : ∀ {f : ℤ → Option (List β)} (l : List ℤ), (∀ q ∈ l, ∃ out, f q = some out) →
        ∃ out, concat f l = some out := by
      intro f l hf
      induction l with
      | nil => exact ⟨[], rfl⟩
      | cons q l ih =>
        obtain ⟨⟨o, ho⟩, hl⟩ := List.forall_mem_cons.mp hf
        obtain ⟨rest, hrest⟩ := ih hl
        exact ⟨o ++ rest, by rw [concat, ho, hrest]; rfl⟩
    obtain ⟨subs, hsubs⟩ := hconcat _ hsubs
    exact ⟨_, by rw [xmlOneLevel, hsubs]; rfl⟩

theorem exists_xmlProcesses {ps : List ℤ}
    (h : ∀ p ∈ ps, ∃ r l, w.topProcessFromProc n p = some r ∧ w.xmlOneLevelSummary n r = some l)
    (visited : List ℤ) : ∃ out, xmlProcesses W w n visited ps = some out := by
  induction ps generalizing visited with
  | nil => exact ⟨_, rfl⟩
  | cons p ps ih =>
    obtain ⟨⟨r, l, hr, hl⟩, hps⟩ := List.forall_mem_cons.mp h
    rw [xmlProcesses]
    split
    · exact ih hps visited
    · obtain ⟨text, htext⟩ := @exists_xmlOneLevel β W w n margin4 r l hl
      obtain ⟨out, hout⟩ := ih hps (visited ++ l)
      exact ⟨(out.1, text ++ out.2), by simp [hr, hl, htext, hout]⟩

/-- A depth is enough for the traversals of a list of processes. -/
theorem exists_depth (h : w.TraversalsEnd) (ps : List ℤ) : ∃ n, ∀ p ∈ ps,
    ∃ r l, w.topProcessFromProc n p = some r ∧ w.xmlOneLevelSummary n r = some l := by
  induction ps with
  | nil => exact ⟨0, nofun⟩
  | cons p ps ih =>
    obtain ⟨n₁, h₁⟩ := ih
    obtain ⟨n₂, r, hr⟩ := h.topProcessFromProc p
    obtain ⟨n₃, l, hl⟩ := h.xmlOneLevelSummary r
    refine ⟨n₁ + n₂ + n₃, List.forall_mem_cons.mpr
      ⟨⟨r, l, Forest.top_mono (by omega) hr, Forest.walk_mono (by omega) hl⟩, fun q hq => ?_⟩⟩
    obtain ⟨r', l', hr', hl'⟩ := h₁ q hq
    exact ⟨r', l', Forest.top_mono (by omega) hr', Forest.walk_mono (by omega) hl'⟩

/-- A summary is written when the traversals end. -/
theorem exists_xmlSummaries (h : w.TraversalsEnd) {filters : List SummaryFilter}
    (hne : ∀ f ∈ filters, f.cls = .process → w.processes ≠ []) :
    ∃ n out, xmlSummaries W w n [] filters = some out := by
  obtain ⟨n, hn⟩ := exists_depth h w.sortedProcesses
  have key : ∀ visited, ∃ out, xmlSummaries W w n visited filters = some out := by
    induction filters with
    | nil => exact fun _ => ⟨[], rfl⟩
    | cons f fs ih =>
      obtain ⟨hf, hfs⟩ := List.forall_mem_cons.mp hne
      intro visited
      rw [xmlSummaries]
      split
      · obtain ⟨rest, hrest⟩ := ih hfs visited
        exact ⟨_, by rw [hrest]; rfl⟩
      · obtain ⟨rest, hrest⟩ := ih hfs visited
        exact ⟨_, by rw [hrest]; rfl⟩
      · rename_i hcls
        rw [if_neg (hf hcls)]
        obtain ⟨out, hout⟩ := @exists_xmlProcesses β W w n _ hn visited
        obtain ⟨rest, hrest⟩ := ih hfs out.1
        exact ⟨out.2 ++ rest, by simp [hout, hrest]⟩
  obtain ⟨out, hout⟩ := key []
  exact ⟨n, out, hout⟩

end

/-! ## Balance -/

theorem leavesOpen_elementPieces {ps : List Piece} (h : LeavesOpen ps []) (margin name : Text)
    (attrs : List (Text × Text)) : LeavesOpen (elementPieces margin name attrs ps) [] :=
  h.element margin ['\n'] margin ['\n']

theorem leavesOpen_plainPieces (subMargin : Text) (attrs : List (Text × Text)) :
    LeavesOpen (plainPieces subMargin attrs) [] :=
  leavesOpen_flatMap fun _ _ _ => rfl

theorem leavesOpen_parsedDataPieces (margin direction : Text) (b : Option BufferConcatenator) :
    LeavesOpen (parsedDataPieces margin direction b) [] :=
  leavesOpen_flatMap fun _ _ => leavesOpen_elementPieces (leavesOpen_plainPieces _ _) _ _ _

theorem leavesOpen_tagPieces (today margin : Text) (displayedFromProcess : Bool) (a : FileAccess) :
    LeavesOpen (tagPieces today margin displayedFromProcess a) [] := by
  rw [tagPieces]
  split
  · have hread := leavesOpen_parsedDataPieces (margin ++ margin4) "Read".toList a.bufConcatRead
    exact (hread.append (leavesOpen_parsedDataPieces _ _ _)).element _ _ _ _
  · exact fun _ => rfl

theorem leavesOpen_vectorPieces (today margin : Text) (displayedFromProcess : Bool)
    (l : List FileAccess) : LeavesOpen (vectorPieces today margin displayedFromProcess l) [] := by
  rw [vectorPieces]
  split
  · exact leavesOpen_nil
  · refine leavesOpen_elementPieces (leavesOpen_flatMap fun a _ => ?_) _ _ _
    exact leavesOpen_tagPieces _ _ _ a

namespace Session

variable {S : Session} {w : Objects} {n : ℕ}

theorem leavesOpen_dataFilePieces (o : CIMDataFile) : LeavesOpen (S.dataFilePieces o) [] :=
  leavesOpen_elementPieces
    ((leavesOpen_plainPieces _ _).append (leavesOpen_vectorPieces _ _ _ _)) _ _ _

theorem leavesOpen_instancePieces (c : SystemClass) : LeavesOpen (S.instancePieces c) [] :=
  leavesOpen_flatMap fun _ _ => leavesOpen_elementPieces (leavesOpen_plainPieces _ _) _ _ _

theorem leavesOpen_xmlOneLevel {margin : Text} {pid : ℤ} {out : List Piece}
    (h : xmlOneLevel S.pieceWriter w n margin pid = some out) : LeavesOpen out [] := by
  induction n generalizing margin pid out with
  | zero => cases h
  | succ n ih =>
    obtain ⟨subs, hsubs, rfl⟩ := Option.map_eq_some_iff.mp h
    have key : ∀ (l : List ℤ) subs,
        concat (xmlOneLevel S.pieceWriter w n (margin ++ margin4)) l = some subs →
          LeavesOpen subs [] := by
      intro l
      induction l with
      | nil =>
        intro subs hsubs
        cases hsubs
        exact leavesOpen_nil
      | cons q l ihl =>
        intro subs hsubs
        obtain ⟨o, ho, hsubs⟩ := Option.bind_eq_some_iff.mp hsubs
        obtain ⟨rest, hrest, rfl⟩ := Option.map_eq_some_iff.mp hsubs
        exact (ih ho).append (ihl rest hrest)
    have hbody := ((leavesOpen_plainPieces (margin ++ margin4) (S.processTold pid)).append
      (leavesOpen_vectorPieces S.today (margin ++ margin4) false (S.processAccesses pid))).append
        (key _ subs hsubs)
    have helement := @LeavesOpen.element _ hbody margin ['\n'] margin ['\n'] "CIM_Process".toList
      [("Handle".toList, decimal pid)] []
    simpa [pieceWriter] using helement

theorem leavesOpen_xmlProcesses {visited ps visited' : List ℤ} {out : List Piece}
    (h : xmlProcesses S.pieceWriter w n visited ps = some (visited', out)) : LeavesOpen out [] := by
  induction ps generalizing visited out with
  | nil =>
    cases h
    exact leavesOpen_nil
  | cons p ps ih =>
    rw [xmlProcesses] at h
    split at h
    · exact ih h
    · simp only [Option.bind_eq_bind, Option.bind_eq_some_iff] at h
      obtain ⟨top, -, text, htext, seen, -, ⟨v, rest⟩, hrest, h⟩ := h
      cases h
      exact (leavesOpen_xmlOneLevel htext).append (ih hrest)

/-- The elements that the files leave open: one for each category that is not selected. -/
theorem leavesOpen_dataFiles (filterCats : Option CategoryFilter) (l : List Text) :
    ∃ names, LeavesOpen (l.flatMap (S.categoryPieces filterCats)) names ∧
      (names = [] ↔ ∀ category ∈ l, S.filesOf category ≠ [] →
        CategoryFilter.selects category filterCats = true) := by
  induction l with
  | nil => exact ⟨[], leavesOpen_nil, by simp⟩
  | cons category l ih =>
    obtain ⟨names, hopens, hnames⟩ := ih
    rw [List.flatMap_cons, categoryPieces]
    split
    · rename_i hnil
      exact ⟨names, hopens, by simp [hnames, hnil]⟩
    · rename_i hne
      split
      · rename_i hsel
        have hfiles : LeavesOpen ((S.filesOf category).flatMap S.dataFilePieces) [] :=
          leavesOpen_flatMap fun o _ => leavesOpen_dataFilePieces o
        exact ⟨names ++ [], (leavesOpen_elementPieces hfiles _ _ _).append hopens, by
          simp [hnames, hsel]⟩
      · rename_i hsel
        refine ⟨names ++ ["FilesCategory".toList], LeavesOpen.append (fun _ => rfl) hopens, ?_⟩
        refine iff_of_false (by simp) fun hall => hsel ?_
        exact hall category List.mem_cons_self hne

/-- No file has a category that a filter does not select. -/
def NoneSkipped (S : Session) (filters : List SummaryFilter) : Prop :=
  ∀ f ∈ filters, f.cls = .dataFile → ∀ p ∈ S.objects.dataFiles,
    CategoryFilter.selects (pathCategory p.2.name) f.category = true

theorem mem_sortedCategories (pathName : Text) : pathCategory pathName ∈ sortedCategories := by
  rw [sortedCategories, (List.mergeSort_perm _ _).mem_iff, pathCategory]
  cases h : lstFilters.find? fun rgxTuple => rgxTuple.2.any fun oneRgx => oneRgx pathName with
  | none => decide
  | some t => exact List.mem_map_of_mem (List.mem_of_find?_eq_some h)

theorem mem_filesOf {category : Text} {o : CIMDataFile} :
    o ∈ S.filesOf category ↔ (∃ p ∈ S.objects.dataFiles, p.2 = o) ∧
      pathCategory o.name = category := by
  rw [filesOf, (List.mergeSort_perm _ _).mem_iff]
  simp

theorem selects_sortedCategories_iff (filterCats : Option CategoryFilter) :
    (∀ category ∈ sortedCategories, S.filesOf category ≠ [] →
        CategoryFilter.selects category filterCats = true) ↔
      ∀ p ∈ S.objects.dataFiles,
        CategoryFilter.selects (pathCategory p.2.name) filterCats = true := by
  constructor
  · intro h p hp
    exact h _ (mem_sortedCategories _) (List.ne_nil_of_mem (mem_filesOf.mpr ⟨⟨p, hp, rfl⟩, rfl⟩))
  · intro h category _ hne
    obtain ⟨o, ho⟩ := List.exists_mem_of_ne_nil _ hne
    obtain ⟨⟨p, hp, rfl⟩, rfl⟩ := mem_filesOf.mp ho
    exact h p hp

/-- The elements that the summary leaves open. -/
theorem leavesOpen_xmlSummaries {visited : List ℤ} {filters : List SummaryFilter} {out : List Piece}
    (h : xmlSummaries S.pieceWriter w n visited filters = some out) :
    ∃ names, LeavesOpen out names ∧ (names = [] ↔ S.NoneSkipped filters) := by
  induction filters generalizing visited out with
  | nil =>
    cases h
    exact ⟨[], leavesOpen_nil, by simp [NoneSkipped]⟩
  | cons f fs ih =>
    simp only [NoneSkipped, List.forall_mem_cons] at ih ⊢
    rw [xmlSummaries] at h
    split at h
    · rename_i c hcls
      obtain ⟨rest, hrest, rfl⟩ := Option.map_eq_some_iff.mp h
      obtain ⟨names, hopens, hnames⟩ := ih hrest
      exact ⟨names ++ [], (leavesOpen_instancePieces c).append hopens, by simp [hnames, hcls]⟩
    · rename_i hcls
      obtain ⟨rest, hrest, rfl⟩ := Option.map_eq_some_iff.mp h
      obtain ⟨names, hopens, hnames⟩ := ih hrest
      obtain ⟨names', hopens', hnames'⟩ := leavesOpen_dataFiles (S := S) f.category sortedCategories
      rw [selects_sortedCategories_iff] at hnames'
      exact ⟨names ++ names', hopens'.append hopens, by
        rw [List.append_eq_nil_iff, hnames, hnames', and_comm]
        simp [hcls]⟩
    · rename_i hcls
      split at h
      · cases h
      · simp only [Option.bind_eq_bind, Option.bind_eq_some_iff] at h
        obtain ⟨⟨visited', text⟩, htext, rest, hrest, h⟩ := h
        cases h
        obtain ⟨names, hopens, hnames⟩ := ih hrest
        exact ⟨names ++ [], (leavesOpen_xmlProcesses htext).append hopens, by simp [hnames, hcls]⟩

end Session

end Survol.Dockit
