import Survol.Dockit.LogStates
import Survol.Dockit.XmlSummary

/-!
# When the XML summary is read back

The names of elements and attributes are fixed, so that the pieces of a summary are valid. What is
left is that the printed values hold nothing that XML gives a meaning to, and that each category
which has files is selected by the filters.

## Main definitions

* `Session.ofLog` — the session of a log.
* `Session.CleanProcess`, `Session.CleanFile`, `Session.CleanSummary` — the values.

## Main results

* `readsBack_iff` — exactly when the summary is read back.
-/

open PyText Xml

namespace Survol.Dockit

/-! ## Names -/

/-- The names of what should be read are those of the order, each as often as there. -/
theorem told_sublist (today : Text) (dated : Bool) (fields : List (Text × Option AttrValue))
    (names : List Text) :
    List.Sublist ((told today dated fields names).map Prod.fst) names := by
  induction names with
  | nil => exact List.Sublist.refl _
  | cons name names ih =>
    rw [told, List.filterMap_cons, ← told]
    split
    · exact ih.cons _
    · rename_i a ha
      obtain ⟨v, -, ha⟩ := Option.bind_eq_some_iff.mp ha
      rw [Option.ite_none_right_eq_some, Option.some.injEq] at ha
      obtain ⟨-, rfl⟩ := ha
      exact ih.cons_cons _

theorem name_mem_of_told {today : Text} {dated : Bool} {fields : List (Text × Option AttrValue)}
    {names : List Text} {a : Text × Text} (ha : a ∈ told today dated fields names) : a.1 ∈ names :=
  (told_sublist today dated fields names).subset (List.mem_map_of_mem ha)

theorem validName_processTold (S : Session) (pid : ℤ) : ∀ a ∈ S.processTold pid, ValidName a.1 :=
  fun _ ha => (by decide : ∀ n ∈ processOrder, ValidName n) _ (name_mem_of_told ha)

theorem validName_dataFileTold (S : Session) (o : CIMDataFile) :
    ∀ a ∈ S.dataFileTold o, ValidName a.1 :=
  fun _ ha => (by decide : ∀ n ∈ dataFileOrder, ValidName n) _ (name_mem_of_told ha)

/-- The names of the attributes of an access. -/
def accessNames (displayedFromProcess : Bool) : List Text :=
  (if displayedFromProcess then "Process".toList else "File".toList) ::
    ["OpenTime".toList, "OpenSize".toList, "CloseTime".toList, "CloseSize".toList,
      "NumReads".toList, "BytesRead".toList, "NumWrites".toList, "BytesWritten".toList]

/-- The names of the attributes of an access are valid, and each comes once. -/
theorem valid_accessTold (today : Text) (displayedFromProcess : Bool) (a : FileAccess) :
    (∀ f ∈ accessTold today displayedFromProcess a, ValidName f.1) ∧
      ((accessTold today displayedFromProcess a).map Prod.fst).Nodup := by
  have hsub : List.Sublist ((accessTold today displayedFromProcess a).map Prod.fst)
      (accessNames displayedFromProcess) := by
    have hrecord := told_sublist today false (accessRecord a) ((accessRecord a).map Prod.fst)
    cases displayedFromProcess <;> exact hrecord.cons_cons _
  have hnames : (∀ n ∈ accessNames displayedFromProcess, ValidName n) ∧
      (accessNames displayedFromProcess).Nodup := by
    cases displayedFromProcess <;> decide
  exact ⟨fun f hf => hnames.1 _ (hsub.subset (List.mem_map_of_mem hf)), hnames.2.sublist hsub⟩

/-! ## Validity -/

/-- The keys of what the scanners have found in an access. -/
def KnownKeys (a : FileAccess) : Prop :=
  ∀ b ∈ [a.bufConcatRead, a.bufConcatWrite], ∀ k ∈ parsedData b, k.1 = sqlQuery

section
variable {margin : Text} (hmargin : ∀ c ∈ margin, c = ' ')
include hmargin

theorem valid_blank : (Piece.blank margin).Valid := fun c hc => .inl (hmargin c hc)

theorem valid_elementPieces {name : Text} {attrs : List (Text × Text)} {ps : List Piece}
    (hname : ValidName name) (hattrs : ∀ a ∈ attrs, ValidName a.1)
    (hnodup : (attrs.map Prod.fst).Nodup) (hps : ∀ p ∈ ps, p.Valid) :
    ∀ p ∈ elementPieces margin name attrs ps, p.Valid := by
  have hline : (Piece.blank ['\n']).Valid := by simp [Piece.Valid]
  have hblank := valid_blank hmargin
  rw [elementPieces]
  simp only [List.forall_mem_cons, List.forall_mem_append]
  exact ⟨hblank, ⟨hname, hattrs, hnodup, List.forall_mem_nil _⟩, hline, hps, hblank, hname, hline,
    List.forall_mem_nil _⟩

theorem valid_plainPieces {attrs : List (Text × Text)} (hattrs : ∀ a ∈ attrs, ValidName a.1) :
    ∀ p ∈ plainPieces margin attrs, p.Valid := by
  intro p hp
  obtain ⟨a, ha, hp⟩ := List.mem_flatMap.mp hp
  simp only [List.mem_cons, List.not_mem_nil, or_false] at hp
  obtain rfl | rfl | rfl := hp
  · exact valid_blank hmargin
  · exact hattrs a ha
  · simp [Piece.Valid]

theorem valid_parsedDataPieces {direction : Text} {b : Option BufferConcatenator}
    (h : ∀ k ∈ parsedData b, k.1 = sqlQuery) :
    ∀ p ∈ parsedDataPieces margin direction b, p.Valid := by
  intro p hp
  obtain ⟨⟨key, vals⟩, hk, hp⟩ := List.mem_flatMap.mp hp
  obtain rfl : key = sqlQuery := h _ hk
  refine valid_elementPieces hmargin (by decide : ValidName (sqlQuery ++ "_List".toList))
    (fun a ha => ?_) (by simp) (valid_plainPieces (margin_append hmargin) fun a ha => ?_) p hp
  · rw [List.mem_singleton.mp ha]
    exact (by decide : ValidName "direction".toList)
  · obtain ⟨v, -, rfl⟩ := List.mem_map.mp ha
    exact (by decide : ValidName sqlQuery)

theorem valid_tagPieces {today : Text} {displayedFromProcess : Bool} {a : FileAccess}
    (h : KnownKeys a) : ∀ p ∈ tagPieces today margin displayedFromProcess a, p.Valid := by
  have hline : (Piece.blank ['\n']).Valid := by simp [Piece.Valid]
  have hblank := valid_blank hmargin
  obtain ⟨hattrs, hnodup⟩ := valid_accessTold today displayedFromProcess a
  have hname : ValidName "Access".toList := by decide
  have hparsed : ∀ direction, ∀ b ∈ [a.bufConcatRead, a.bufConcatWrite],
      ∀ p ∈ parsedDataPieces (margin ++ margin4) direction b, p.Valid := fun direction b hb =>
    valid_parsedDataPieces (margin_append hmargin) (h b hb)
  rw [tagPieces]
  split
  · simp only [List.forall_mem_cons, List.forall_mem_append]
    exact ⟨hblank, ⟨hname, hattrs, hnodup, by simp⟩, hline,
      ⟨hparsed _ _ (by simp), hparsed _ _ (by simp)⟩, hblank, hname, hline, List.forall_mem_nil _⟩
  · simp only [List.forall_mem_cons]
    exact ⟨hblank, ⟨hname, hattrs, hnodup, by simp⟩, hline, List.forall_mem_nil _⟩

theorem valid_vectorPieces {today : Text} {displayedFromProcess : Bool} {l : List FileAccess}
    (h : ∀ a ∈ l, KnownKeys a) :
    ∀ p ∈ vectorPieces today margin displayedFromProcess l, p.Valid := by
  rw [vectorPieces]
  split
  · exact List.forall_mem_nil _
  · refine valid_elementPieces hmargin (by decide) (List.forall_mem_nil _) List.nodup_nil ?_
    intro p hp
    obtain ⟨a, ha, hp⟩ := List.mem_flatMap.mp hp
    exact valid_tagPieces (margin_append hmargin) (h a ha) p hp

end

namespace Session

variable (S : Session)

theorem knownKeys_accesses (refs : List ℕ) : ∀ a ∈ S.accesses refs, KnownKeys a := by
  intro a ha b hb k hk
  obtain ⟨i, -, hi⟩ := List.mem_filterMap.mp ha
  have hmem := List.mem_of_getElem? hi
  rw [parsedData] at hk
  cases hdata : b.bind (·.parsedData) with
  | none =>
    rw [hdata] at hk
    cases hk
  | some d =>
    rw [hdata] at hk
    obtain ⟨c, rfl, hc⟩ := Option.bind_eq_some_iff.mp hdata
    exact S.scannerKeys a hmem _ hb c rfl d hc k hk

theorem valid_dataFilePieces (o : CIMDataFile) : ∀ p ∈ S.dataFilePieces o, p.Valid := by
  refine valid_elementPieces (by decide) (by decide) ?_ (by simp) ?_
  · intro a ha
    rw [List.mem_singleton.mp ha]
    exact (by decide : ValidName "Name".toList)
  · exact List.forall_mem_append.mpr ⟨valid_plainPieces (by decide) (validName_dataFileTold S o),
      valid_vectorPieces (by decide) (S.knownKeys_accesses _)⟩

theorem valid_categoryPieces (filterCats : Option CategoryFilter) (category : Text) :
    ∀ p ∈ S.categoryPieces filterCats category, p.Valid := by
  have hline : (Piece.blank ['\n']).Valid := by simp [Piece.Valid]
  have hname : ValidName "FilesCategory".toList := by decide
  have hattrs : ∀ a ∈ [("category".toList, category)], ValidName a.1 := by
    intro a ha
    rw [List.mem_singleton.mp ha]
    exact (by decide : ValidName "category".toList)
  rw [categoryPieces]
  split
  · exact List.forall_mem_nil _
  · split
    · refine valid_elementPieces (by decide) hname hattrs (by simp) ?_
      intro p hp
      obtain ⟨o, -, hp⟩ := List.mem_flatMap.mp hp
      exact S.valid_dataFilePieces o p hp
    · simp only [List.forall_mem_cons]
      exact ⟨valid_blank (by decide), ⟨hname, hattrs, by simp, by simp⟩, hline,
        List.forall_mem_nil _⟩

theorem valid_instancePieces (c : SystemClass) : ∀ p ∈ S.instancePieces c, p.Valid := by
  intro p hp
  obtain ⟨o, -, hp⟩ := List.mem_flatMap.mp hp
  refine valid_elementPieces (by decide) (by cases c <;> decide) (List.forall_mem_nil _)
    List.nodup_nil (valid_plainPieces (by decide) fun a ha => ?_) p hp
  obtain ⟨b, hb, hname⟩ := List.mem_map.mp (name_mem_of_told ha)
  exact hname ▸ o.valid b hb

theorem valid_process : GoodProcess S.pieceWriter Piece.Valid fun _ => True := by
  intro margin pid hmargin
  refine iff_of_true ?_ trivial
  have hline : (Piece.blank ['\n']).Valid := by simp [Piece.Valid]
  have hblank := valid_blank hmargin
  have hname : ValidName "CIM_Process".toList := by decide
  have hattrs : ∀ a ∈ [("Handle".toList, decimal pid)], ValidName a.1 := by
    intro a ha
    rw [List.mem_singleton.mp ha]
    exact (by decide : ValidName "Handle".toList)
  simp only [pieceWriter, List.forall_mem_append, List.forall_mem_cons]
  exact ⟨⟨hblank, ⟨hname, hattrs, by simp, by simp⟩, hline,
    valid_plainPieces (margin_append hmargin) (validName_processTold S pid),
    valid_vectorPieces (margin_append hmargin) (S.knownKeys_accesses _)⟩,
    hblank, hname, hline, List.forall_mem_nil _⟩

/-- The pieces of a summary are valid. -/
theorem valid_xmlSummaries {n : ℕ} {filters : List SummaryFilter} {out : List Piece}
    (h : xmlSummaries S.pieceWriter S.objects n [] filters = some out) : ∀ p ∈ out, p.Valid := by
  refine (forall_xmlSummaries S.valid_process S.mem_keys_of_parent (List.forall_mem_nil _)
    (List.forall_mem_nil _) (List.forall_mem_nil _) h).mpr ?_
  intro f _
  rw [GoodFilter]
  cases f.cls with
  | system c => exact S.valid_instancePieces c
  | process => exact fun _ _ => trivial
  | dataFile =>
    intro p hp
    obtain ⟨category, -, hp⟩ := List.mem_flatMap.mp hp
    exact S.valid_categoryPieces _ _ p hp

end Session

/-! ## Values -/

/-- The values of an access hold nothing that XML gives a meaning to. -/
def CleanAccess (today : Text) (displayedFromProcess : Bool) (a : FileAccess) : Prop :=
  (∀ f ∈ accessTold today displayedFromProcess a, CleanAttribute f.2) ∧
    ∀ b ∈ [a.bufConcatRead, a.bufConcatWrite], ∀ k ∈ parsedData b, ∀ v ∈ k.2, CleanText v

namespace Session

variable (S : Session)

/-- The values of a process hold nothing that XML gives a meaning to. -/
def CleanProcess (pid : ℤ) : Prop :=
  (∀ a ∈ S.processTold pid, CleanText a.2) ∧
    ∀ a ∈ S.processAccesses pid, CleanAccess S.today false a

/-- The values of a file hold nothing that XML gives a meaning to. -/
def CleanFile (o : CIMDataFile) : Prop :=
  CleanAttribute o.name ∧ (∀ a ∈ S.dataFileTold o, CleanText a.2) ∧
    ∀ a ∈ S.accesses o.dataFileFileAccesses, CleanAccess S.today true a

/-- The values of what a filter asks for. -/
def CleanClass : SummaryClass → Prop
  | .system c => ∀ o ∈ S.instances c, ∀ a ∈ S.instanceTold o, CleanText a.2
  | .process => ∀ pid, S.objects.Shown pid → S.CleanProcess pid
  | .dataFile => ∀ p ∈ S.objects.dataFiles, S.CleanFile p.2

/-- The values of a summary. -/
def CleanSummary (filters : List SummaryFilter) : Prop := ∀ f ∈ filters, S.CleanClass f.cls

end Session

theorem clean_elementPieces (margin name : Text) (attrs : List (Text × Text)) (ps : List Piece) :
    (∀ p ∈ elementPieces margin name attrs ps, p.Clean) ↔
      (∀ a ∈ attrs, CleanAttribute a.2) ∧ ∀ p ∈ ps, p.Clean := by
  simp [elementPieces, Piece.Clean, or_imp, forall_and]

theorem clean_flatMap {α : Type} (f : α → List Piece) (l : List α) :
    (∀ p ∈ l.flatMap f, p.Clean) ↔ ∀ x ∈ l, ∀ p ∈ f x, p.Clean := by
  simp only [List.mem_flatMap]
  exact ⟨fun h x hx p hp => h p ⟨x, hx, hp⟩, fun h p ⟨x, hx, hp⟩ => h x hx p hp⟩

theorem clean_plainPieces (subMargin : Text) (attrs : List (Text × Text)) :
    (∀ p ∈ plainPieces subMargin attrs, p.Clean) ↔ ∀ a ∈ attrs, CleanText a.2 := by
  rw [plainPieces, clean_flatMap]
  simp [Piece.Clean]

theorem clean_parsedDataPieces {margin direction : Text} (hdirection : CleanAttribute direction)
    (b : Option BufferConcatenator) :
    (∀ p ∈ parsedDataPieces margin direction b, p.Clean) ↔
      ∀ k ∈ parsedData b, ∀ v ∈ k.2, CleanText v := by
  rw [parsedDataPieces, clean_flatMap]
  refine forall₂_congr fun k _ => ?_
  rw [clean_elementPieces, clean_plainPieces]
  simp [hdirection]

theorem clean_tagPieces (today margin : Text) (displayedFromProcess : Bool) (a : FileAccess) :
    (∀ p ∈ tagPieces today margin displayedFromProcess a, p.Clean) ↔
      CleanAccess today displayedFromProcess a := by
  have hnone : ∀ {b : Option BufferConcatenator}, hasParsedData b = false → parsedData b = [] := by
    intro b hb
    rw [hasParsedData, Option.isSome_eq_false_iff, Option.isNone_iff_eq_none] at hb
    rw [parsedData, hb]
    rfl
  rw [tagPieces, CleanAccess]
  split
  · simp only [List.forall_mem_cons, List.forall_mem_append, clean_parsedDataPieces
      (by decide : CleanAttribute "Read".toList), clean_parsedDataPieces
      (by decide : CleanAttribute "Write".toList)]
    simp [Piece.Clean]
  · rename_i hno
    rw [Bool.not_eq_true, Bool.or_eq_false_iff] at hno
    simp [Piece.Clean, hnone hno.1, hnone hno.2]

theorem clean_vectorPieces (today margin : Text) (displayedFromProcess : Bool)
    (l : List FileAccess) :
    (∀ p ∈ vectorPieces today margin displayedFromProcess l, p.Clean) ↔
      ∀ a ∈ l, CleanAccess today displayedFromProcess a := by
  rw [vectorPieces]
  split
  · rename_i hnil
    simp [hnil]
  · rw [clean_elementPieces, clean_flatMap]
    simp [clean_tagPieces]

namespace Session

variable (S : Session)

theorem cleanAttribute_decimal (i : ℤ) : CleanAttribute (decimal i) := by
  have hdigit : ∀ n : ℕ, ∀ c ∈ Nat.toDigits 10 n, CleanChar true c ∧ c ≠ '\'' := by
    intro n c hc
    have hd := isDigit_of_mem_toDigits hc
    rw [Char.isDigit, Bool.and_eq_true, decide_eq_true_eq, decide_eq_true_eq] at hd
    have hrange : 48 ≤ c.toNat ∧ c.toNat ≤ 57 := hd
    have hne : ∀ d : Char, d.toNat < 48 ∨ 57 < d.toNat → c ≠ d := by
      rintro d hd rfl
      omega
    refine ⟨⟨?_, hne _ (by decide), hne _ (by decide), hne _ (by decide), fun _ =>
      ⟨hne _ (by decide), hne _ (by decide)⟩⟩, hne _ (by decide)⟩
    simp [isXmlChar]
    omega
  have hall : ∀ c ∈ decimal i, CleanChar true c ∧ c ≠ '\'' := by
    cases i with
    | ofNat n =>
      intro c hc
      exact hdigit n c ((Nat.toList_repr : decimal n = Nat.toDigits 10 n) ▸ hc)
    | negSucc n =>
      intro c hc
      have hcons : decimal (Int.negSucc n) = '-' :: Nat.toDigits 10 (n + 1) := by
        simp [decimal, toString, Int.repr, Nat.repr]
      rw [hcons, List.mem_cons] at hc
      rcases hc with rfl | hc
      · decide
      · exact hdigit _ c hc
  exact ⟨fun c hc => (hall c hc).1, fun hc => (hall _ hc).2 rfl⟩

theorem clean_process : GoodProcess S.pieceWriter Piece.Clean S.CleanProcess := by
  intro margin pid _
  have hhandle := cleanAttribute_decimal pid
  simp only [pieceWriter, List.forall_mem_append, List.forall_mem_cons, clean_plainPieces,
    clean_vectorPieces, CleanProcess]
  simp [Piece.Clean, hhandle]

theorem clean_dataFilePieces (o : CIMDataFile) :
    (∀ p ∈ S.dataFilePieces o, p.Clean) ↔ S.CleanFile o := by
  rw [dataFilePieces, clean_elementPieces, List.forall_mem_append, clean_plainPieces,
    clean_vectorPieces, CleanFile]
  simp

theorem cleanAttribute_category : ∀ category ∈ sortedCategories, CleanAttribute category := by
  intro category hc
  rw [sortedCategories, (List.mergeSort_perm _ _).mem_iff] at hc
  exact (by decide : ∀ category ∈ lstFilters.map Prod.fst, CleanAttribute category) category hc

/-- The pieces of the files, when no category is left open. -/
theorem clean_dataFiles {filterCats : Option CategoryFilter}
    (hsel : ∀ p ∈ S.objects.dataFiles,
      CategoryFilter.selects (pathCategory p.2.name) filterCats = true) :
    (∀ p ∈ S.pieceWriter.dataFiles filterCats, p.Clean) ↔
      ∀ p ∈ S.objects.dataFiles, S.CleanFile p.2 := by
  have hcategory : ∀ category ∈ sortedCategories,
      ((∀ p ∈ S.categoryPieces filterCats category, p.Clean) ↔
        ∀ o ∈ S.filesOf category, S.CleanFile o) := by
    intro category hc
    rw [categoryPieces]
    split
    · rename_i hnil
      simp [hnil]
    · rename_i hne
      rw [if_pos ((selects_sortedCategories_iff filterCats).mpr hsel category hc hne),
        clean_elementPieces, clean_flatMap]
      simp [S.clean_dataFilePieces, cleanAttribute_category category hc]
  rw [pieceWriter, clean_flatMap, forall₂_congr hcategory]
  constructor
  · intro h p hp
    exact h _ (mem_sortedCategories _) _ (mem_filesOf.mpr ⟨⟨p, hp, rfl⟩, rfl⟩)
  · intro h category _ o ho
    obtain ⟨⟨p, hp, rfl⟩, -⟩ := mem_filesOf.mp ho
    exact h p hp

/-- The pieces of a summary, when no category is left open. -/
theorem clean_xmlSummaries {n : ℕ} {filters : List SummaryFilter} {out : List Piece}
    (h : xmlSummaries S.pieceWriter S.objects n [] filters = some out)
    (hsel : S.NoneSkipped filters) : (∀ p ∈ out, p.Clean) ↔ S.CleanSummary filters := by
  rw [forall_xmlSummaries S.clean_process S.mem_keys_of_parent (List.forall_mem_nil _)
    (List.forall_mem_nil _) (List.forall_mem_nil _) h, CleanSummary]
  refine forall₂_congr fun f hf => ?_
  rw [GoodFilter, CleanClass.eq_def]
  cases hcls : f.cls with
  | system c =>
    simp only [pieceWriter, instancePieces, clean_flatMap, clean_elementPieces, clean_plainPieces]
    simp
  | process => exact Iff.rfl
  | dataFile => exact S.clean_dataFiles (hsel f hf hcls)

end Session

/-! ## The summary -/

/-- The text of the pieces of the summary. -/
theorem writes_render (S : Session) : Writes render S.pieceWriter S.textWriter where
  nil := rfl
  append := render_append
  processStart margin pid := by
    have hplain := render_plainPieces (margin ++ margin4) (S.processTold pid)
    have hvector := render_vectorPieces S.today (margin ++ margin4) false (S.processAccesses pid)
    simp only [Session.textWriter, processAttrs_eq, ← hplain, ← hvector]
    simp [Session.pieceWriter, render, Piece.render, attrsText]
  processEnd margin pid := by simp [Session.pieceWriter, Session.textWriter, render, Piece.render]
  instances c := S.render_instancePieces c
  dataFiles filterCats := render_flatMap fun category _ => S.render_categoryPieces _ category

theorem afterDeclaration_dockit (s : Text) :
    afterDeclaration ("<?xml version=\"1.0\" encoding=\"UTF-8\"?>\n".toList ++ s) = '\n' :: s :=
  rfl

theorem document_dockit (s : Text) (ps : List Piece) (h : render ps = s) :
    render (document "Dockit".toList ps) =
      '\n' :: ("<Dockit>\n".toList ++ s ++ "</Dockit>\n".toList) := by
  rw [← h]
  simp [document, render, Piece.render, attrsText]

namespace Session

variable {S : Session} {filters : List SummaryFilter} {n : ℕ} {text : Text}

/-- A text that was written is read back when its values are clean and nothing was skipped. -/
theorem readsBack_of_text_iff (h : S.generateSummaryXML n filters = some text) :
    S.ReadsBack filters n text ↔ S.CleanSummary filters ∧ S.NoneSkipped filters := by
  obtain ⟨body, hbody, rfl⟩ := Option.map_eq_some_iff.mp h
  rw [(writes_render S).xmlSummaries] at hbody
  obtain ⟨out, hout, hrender⟩ := Option.map_eq_some_iff.mp hbody
  have hparse := parse_document_iff (by decide : ValidName "Dockit".toList)
    (S.valid_xmlSummaries hout)
    ((afterDeclaration_dockit _).trans (document_dockit body out hrender).symm)
  obtain ⟨names, hopens, hnames⟩ := leavesOpen_xmlSummaries hout
  have hafter : after [] out = some [] ↔ S.NoneSkipped filters := by
    rw [hopens [], List.append_nil, Option.some.injEq, hnames]
  have hreads : S.ReadsBack filters n ("<?xml version=\"1.0\" encoding=\"UTF-8\"?>\n".toList ++
      "<Dockit>\n".toList ++ body ++ "</Dockit>\n".toList) ↔
        (∀ p ∈ out, p.Clean) ∧ after [] out = some [] := by
    rw [← hparse, ReadsBack, summaryPieces, hout]
    simp
  rw [hreads, hafter]
  exact and_congr_left fun hsel => S.clean_xmlSummaries hout hsel

/-- A text is written when the traversals of the processes end. -/
theorem exists_text (h : S.objects.TraversalsEnd)
    (hne : ∀ f ∈ filters, f.cls = .process → S.objects.processes ≠ []) :
    ∃ n text, S.generateSummaryXML n filters = some text := by
  obtain ⟨n, out, hout⟩ := @exists_xmlSummaries _ S.textWriter S.objects h filters hne
  exact ⟨n, _, by rw [generateSummaryXML, hout]; rfl⟩

end Session

section
variable {env : Env} {tracer : Tracer} {logStream : List Text} {s : Loop}

/-- The end of a log only dates processes. -/
theorem soundObjects_of_log
    (hrun : (createFlowsFromGenericLinuxLog env tracer logStream).run .init = (.ok (), s)) :
    ParentsKnown s.world.objects.links ∧ Scanned env s.world.objects := by
  rw [createFlowsFromGenericLinuxLog, Py.run_bind_eq_ok] at hrun
  obtain ⟨_, v, hlines, hend⟩ := hrun
  have hsound : SoundLoop env v := soundLoop_of_lines hlines
  rw [endOfLog, Py.run_modify] at hend
  cases hend
  split
  · exact ⟨hsound.parents, hsound.scanned⟩
  · refine ⟨?_, hsound.scanned⟩
    have hlinks : (v.world.objects.globalTerminationDate v.lastTimeStamp).links =
        v.world.objects.links := by
      rw [Objects.links, Objects.links, Objects.globalTerminationDate, Dict.mapVals, Dict.mapVals,
        Dict.mapVals, List.map_map]
      refine List.map_congr_left fun o _ => ?_
      rw [Function.comp_apply]
      split <;> rfl
    exact hlinks ▸ hsound.parents

/-- The session of a log, when the only scanner is the one of the queries. -/
def Session.ofLog (around : Surroundings)
    (hscanners : ∀ n ∈ env.bufferScanners.map Prod.fst, n = sqlQuery)
    (hrun : (createFlowsFromGenericLinuxLog env tracer logStream).run .init = (.ok (), s)) :
    Session where
  toSurroundings := around
  objects := s.world.objects
  mem_keys_of_parent p q h := by
    rw [Objects.parentOf_eq_links] at h
    rw [← Objects.keys_links]
    exact (soundObjects_of_log hrun).1 p q h
  scannerKeys a ha b hb c hc d hd k hk := by
    have hscanned := (soundObjects_of_log hrun).2 a ha
    simp only [List.mem_cons, List.not_mem_nil, or_false] at hb
    rcases hb with rfl | rfl
    · exact hscanners _ (hscanned true c hc d hd k hk)
    · exact hscanners _ (hscanned false c hc d hd k hk)

theorem Session.objects_ofLog (around : Surroundings)
    (hscanners : ∀ n ∈ env.bufferScanners.map Prod.fst, n = sqlQuery)
    (hrun : (createFlowsFromGenericLinuxLog env tracer logStream).run .init = (.ok (), s)) :
    (Session.ofLog around hscanners hrun).objects = s.world.objects := rfl

end

/-- A process opens a file and creates another one, which reads from the file. -/
def sharedFileLog : List Text :=
  ["10:00:00.000001 open(\"/tmp/a\", O_RDONLY) = 3</tmp/a> <0.000006>\n".toList,
    "10:00:00.000002 clone(child_stack=NULL, flags=SIGCHLD) = 8 <0.000006>\n".toList,
    "[pid 8] 10:00:00.000003 read(3</tmp/a>, \"x\", 16) = 1 <0.000006>\n".toList]

/-- The state after the log. -/
def afterSharedFile : Loop :=
  ((createFlowsFromGenericLinuxLog (.replayed 7 "/".toList) .strace sharedFileLog).run .init).2

theorem run_sharedFileLog :
    (createFlowsFromGenericLinuxLog (.replayed 7 "/".toList) .strace sharedFileLog).run .init =
      (.ok (), afterSharedFile) :=
  Prod.ext (by decide +kernel) rfl

/-- A replayed log: nothing else is known of the processes and the files. -/
def replayedSurroundings : Surroundings where
  today := "2018-05-01".toList
  str := fun _ => []
  process := fun _ => ⟨none, none, none, none⟩
  fileStat := fun _ => none
  hostByAddr := fun _ => none
  instances := fun _ => []

/-- The session of the log. -/
def sharedFile : Session := .ofLog replayedSurroundings (by decide) run_sharedFileLog

/-- The tables after the log. -/
def sharedFileObjects : Objects where
  processes :=
    [(7, ⟨7, none, [8], "/".toList, some "10:00:00.000001".toList,
        some "10:00:00.000003".toList, none, none, false, [0]⟩),
      (8, ⟨8, some 7, [], "/".toList, some "10:00:00.000002".toList,
        some "10:00:00.000003".toList, none, none, false, [1]⟩)]
  dataFiles := [("/tmp/a".toList, ⟨"/tmp/a".toList, false, none, [0, 1]⟩)]
  fileAccesses :=
    [{ FileAccess.new 7 "/tmp/a".toList with
        openTime := some "10:00:00.000001".toList, numOpen := some 1 },
      { FileAccess.new 8 "/tmp/a".toList with numReads := some 1, bytesRead := some 1 }]
  cacheFileAccesses := [(7, [("/tmp/a".toList, 0)]), (8, [("/tmp/a".toList, 1)])]
  mapFilDesToPathName := Objects.init.mapFilDesToPathName
  environmentVariables := []

theorem objects_sharedFile : sharedFile.objects = sharedFileObjects := by
  rw [sharedFile, Session.objects_ofLog]
  decide +kernel

theorem parentOf_sharedFile (p : ℤ) :
    sharedFileObjects.parentOf p = if p = 8 then some 7 else none := by
  by_cases h₇ : p = 7
  · subst h₇
    rfl
  · by_cases h₈ : p = 8
    · subst h₈
      rfl
    · rw [if_neg h₈, Objects.parentOf, sharedFileObjects]
      simp [Dict.get?_cons, Ne.symm h₇, Ne.symm h₈]

theorem subsOf_sharedFile (p : ℤ) :
    sharedFileObjects.subsOf p = if p = 7 then [8] else [] := by
  by_cases h₇ : p = 7
  · subst h₇
    rfl
  · by_cases h₈ : p = 8
    · subst h₈
      rfl
    · rw [if_neg h₇, Objects.subsOf, sharedFileObjects]
      simp [Dict.get?_cons, Ne.symm h₇, Ne.symm h₈]

theorem traversalsEnd_sharedFile : sharedFileObjects.TraversalsEnd where
  noCycle p h := by
    have hparent : ∀ p q, sharedFileObjects.parentOf p = some q → p = 8 ∧ q = 7 := by
      intro p q hq
      rw [parentOf_sharedFile] at hq
      split at hq
      · cases hq
        exact ⟨‹_›, rfl⟩
      · cases hq
    obtain ⟨q, hq, hrest⟩ := Relation.TransGen.head'_iff.mp h
    obtain ⟨rfl, rfl⟩ := hparent _ _ hq
    rcases hrest.cases_head with heq | ⟨r, hr, -⟩
    · cases heq
    · cases (hparent _ _ hr).1
  topProcessFromProc p := by
    by_cases h₈ : p = 8
    · subst h₈
      exact ⟨2, 7, rfl⟩
    · have hnone : sharedFileObjects.parentOf p = none := by
        rw [parentOf_sharedFile, if_neg h₈]
      exact ⟨1, p, by rw [Objects.topProcessFromProc, Forest.top, hnone]⟩
  xmlOneLevelSummary p := by
    by_cases h₇ : p = 7
    · subst h₇
      exact ⟨2, [7, 8], rfl⟩
    · have hnil : sharedFileObjects.subsOf p = [] := by
        rw [subsOf_sharedFile, if_neg h₇]
      exact ⟨1, [p], by rw [Objects.xmlOneLevelSummary, Forest.walk, hnil]; rfl⟩

/-- Only the two processes are shown. -/
theorem mem_of_shown_sharedFile {q : ℤ} (h : sharedFileObjects.Shown q) : q ∈ [(7 : ℤ), 8] := by
  obtain ⟨p, hp, n, top, htop, hbelow⟩ := h
  have hknown : ∀ p q, sharedFileObjects.parentOf p = some q →
      q ∈ sharedFileObjects.processes.keys := by
    intro p q hq
    rw [parentOf_sharedFile] at hq
    split at hq
    · cases hq
      decide
    · cases hq
  obtain ⟨hkey, hroot⟩ := root_of_top hknown hp htop
  have htop : top = 7 := by
    have hmem : top ∈ [(7 : ℤ), 8] := hkey
    simp only [List.mem_cons, List.not_mem_nil, or_false] at hmem
    rcases hmem with rfl | rfl
    · rfl
    · rw [parentOf_sharedFile, if_pos rfl] at hroot
      cases hroot
  subst htop
  have hwalk : Forest.walk sharedFileObjects.subsOf 2 7 = some [7, 8] := rfl
  exact (Forest.mem_walk hwalk q).mpr hbelow

/-- The filters of all processes and all files. -/
def allObjects : List SummaryFilter := [⟨.process, none⟩, ⟨.dataFile, none⟩]

/-- A session is known by its tables. -/
theorem Session.eq_of_objects {S S' : Session} (hobjects : S.objects = S'.objects)
    (haround : S.toSurroundings = S'.toSurroundings) : S = S' := by
  cases S
  cases S'
  simp only at hobjects haround
  subst hobjects haround
  rfl

/-- The values of the session are clean. -/
theorem clean_sharedFile : sharedFile.CleanSummary allObjects := by
  have hsession : sharedFile =
      { toSurroundings := replayedSurroundings
        objects := sharedFileObjects
        mem_keys_of_parent := objects_sharedFile ▸ sharedFile.mem_keys_of_parent
        scannerKeys := objects_sharedFile ▸ sharedFile.scannerKeys } :=
    Session.eq_of_objects objects_sharedFile rfl
  rw [hsession]
  simp only [Session.CleanSummary, allObjects, List.forall_mem_cons, Session.CleanClass]
  refine ⟨fun pid hshown => ?_, ?_, List.forall_mem_nil _⟩
  · have hpid := mem_of_shown_sharedFile hshown
    simp only [List.mem_cons, List.not_mem_nil, or_false] at hpid
    rcases hpid with rfl | rfl
    · unfold Session.CleanProcess CleanAccess
      decide +kernel
    · unfold Session.CleanProcess CleanAccess
      decide +kernel
  · unfold Session.CleanFile CleanAccess
    decide +kernel

/-- A file whose name has an ampersand. -/
def ampersandLog : List Text :=
  ["10:00:00.000001 open(\"/tmp/R&D\", O_RDONLY) = 3</tmp/R&D> <0.000006>\n".toList]

/-- The state after the log. -/
def afterAmpersand : Loop :=
  ((createFlowsFromGenericLinuxLog (.replayed 7 "/".toList) .strace ampersandLog).run .init).2

/-- The session of the log. -/
def ampersand : Session :=
  .ofLog (s := afterAmpersand) replayedSurroundings
    (show ∀ n ∈ (Env.replayed 7 "/".toList).bufferScanners.map Prod.fst, n = sqlQuery by decide)
    (show (createFlowsFromGenericLinuxLog (.replayed 7 "/".toList) .strace ampersandLog).run .init =
      (.ok (), afterAmpersand) from Prod.ext (by decide +kernel) rfl)

end Survol.Dockit
