import Survol.Dockit.AbsPaths

/-!
# Lexical normalisation by `ToAbsPath`

## Main definitions

* `Normalises` — the path is the one of the reference normalisation, in every respect.
* `LexicallySafe` — the components for which this is so.

## Main results

* `normalises_iff` — when a path is normalised.
-/

open PyText PosixPath

namespace Survol.Dockit

/-! ## The components -/

/-- The path that is cleaned up: a name at the root is taken as it is, and one in the current
directory too. -/
def fullPath (dir name : Text) : Text :=
  match name with
  | '/' :: _ => name
  | _ => if dir = ".".toList ∨ dir = [] then name else dir ++ '/' :: name

/-- The clean-up of the components. -/
def cleanParts (parts : List Text) : Option (List Text) := absLoop (parts.length - 1) parts 1

/-- The clean-up of a path. -/
def cleanPath (path : Text) : Except PyExn Text :=
  match cleanParts (splitOn '/' path) with
  | none => .error .indexError
  | some parts => .ok (['/'].intercalate parts)

/-- The name of a file: not a pseudo-file, and not a standard stream. -/
def IsFileName (f : Text) : Prop := isPseudoFile f = false ∧ f ∉ standardStreams

instance (f : Text) : Decidable (IsFileName f) := inferInstanceAs (Decidable (_ ∧ _))

theorem toAbsPath_special {dir f : Text} (h : ¬ IsFileName f) :
    toAbsPath (.path dir) f = .ok f := by
  rw [toAbsPath]
  refine if_pos ?_
  rw [IsFileName, not_and_or, not_not, Bool.not_eq_false] at h
  exact h

theorem toAbsPath_nil (dir : Text) : toAbsPath (.path dir) [] = .error .indexError := by
  rw [toAbsPath, if_neg (by decide)]

theorem toAbsPath_eq {dir f : Text} (h : IsFileName f) (hne : f ≠ []) :
    toAbsPath (.path dir) f = cleanPath (fullPath dir f) := by
  have hno : ¬ (isPseudoFile f = true ∨ f ∈ standardStreams) := by
    rw [not_or, Bool.not_eq_true]
    exact h
  obtain ⟨c, s, rfl⟩ := List.exists_cons_of_ne_nil hne
  rw [toAbsPath, if_neg hno]
  by_cases hc : c = '/'
  · rw [hc]
    rfl
  · have hroot : ∀ u, c :: s ≠ '/' :: u := fun u hu => hc (List.cons.inj hu).1
    simp only [fullPath, cleanPath, cleanParts]
    split <;> rfl

theorem cleanParts_cons (first : Text) (rest : List Text) :
    cleanParts (first :: rest) = absLoop rest.length (first :: rest) 1 := rfl

section
variable {first : Text} {rest before after s : List Text}

/-- Where nothing climbs after the first component. -/
theorem cleanParts_of_reduce (h : reduce [] rest = some s) :
    cleanParts (first :: rest) = some (first :: s.reverse) := by
  have hrun := @absLoop_of_reduce [first] rest _ (reduce_append_below [first] h)
  rw [List.reverse_append] at hrun
  exact hrun

/-- Two dots remove the first component, whatever it is. -/
theorem cleanParts_of_climb (h : reduce [] before = some []) :
    cleanParts (first :: (before ++ dotDot :: after)) = absLoop after.length after 0 := by
  have hbefore := reduce_append_below [first] h
  have hrun : reduce [first] (before ++ [dotDot]) = some [] := by
    rw [reduce_append]
    exact (congrArg (·.bind fun s => reduce s [dotDot]) hbefore).trans reduce_dotDot_cons
  have hloop := @absLoop_reduce after.length after [first] (before ++ [dotDot]) [] hrun
  rw [List.append_assoc] at hloop
  have hlen : (first :: (before ++ dotDot :: after)).length - 1 =
      (before ++ [dotDot]).length + after.length := by
    rw [List.length_cons, List.length_append, List.length_append, List.length_cons,
      List.length_singleton]
    omega
  rw [cleanParts, hlen]
  exact hloop

/-- **Nothing is gained by a climb**: what is left after it leads less far up. -/
theorem weight_cleanParts {r : List Text} (h : reduce [] rest = none)
    (hr : cleanParts (first :: rest) = some r) :
    PosixPath.weight r < PosixPath.weight rest ∧ ∀ p ∈ r.head?, p = dotDot ∨ IsName p := by
  obtain ⟨before, after, rfl, hbefore⟩ := exists_climb h
  rw [cleanParts_of_climb hbefore] at hr
  have hzero := weight_of_reduce hbefore
  rcases absLoop_fresh after with hnone | ⟨r', hr', hweight, hhead⟩
  · rw [hnone] at hr
    cases hr
  · rw [hr'] at hr
    cases hr
    refine ⟨?_, hhead⟩
    rw [weight_append, weight_cons, hzero, partWeight_dotDot, List.length_nil]
    omega

theorem slash_not_mem_cleanParts {path : Text} {r : List Text}
    (h : cleanParts (splitOn '/' path) = some r) : ∀ p ∈ r, '/' ∉ p :=
  fun _ hp => not_mem_splitOn (subset_of_absLoop h hp)

end

/-! ## What normalisation is -/

/-- `path` is what `full` is normalised to, and it stays as it is. -/
structure IsLexical (full path : Text) : Prop where
  eq_normalise : path = normalise full
  isNormalised : IsNormalised path
  isAbsolute_eq : isAbsolute path = isAbsolute full
  again : toAbsPath (.path []) path = .ok path

/-- `ToAbsPath` normalises a name that is relative to a directory. -/
def Normalises (dir f : Text) : Prop :=
  ∃ path, toAbsPath (.path dir) f = .ok path ∧ IsLexical (joinPath dir f) path

theorem fullPath_eq_joinPath {dir f : Text} (h : dir ≠ ".".toList) :
    fullPath dir f = joinPath dir f := by
  by_cases habs : ∃ s, f = '/' :: s
  · obtain ⟨s, rfl⟩ := habs
    rfl
  · rw [not_exists] at habs
    rw [fullPath.eq_2 _ _ habs, joinPath.eq_2 _ _ habs]
    by_cases hnil : dir = []
    · rw [if_pos (.inr hnil), if_pos hnil]
    · rw [if_neg (not_or.mpr ⟨h, hnil⟩), if_neg hnil]

/-- The current directory in front does not count. -/
theorem normalise_fullPath (dir f : Text) (hne : f ≠ []) :
    normalise (joinPath dir f) = normalise (fullPath dir f) ∧
      isAbsolute (joinPath dir f) = isAbsolute (fullPath dir f) := by
  by_cases hdir : dir = ".".toList
  · obtain ⟨c, s, rfl⟩ := List.exists_cons_of_ne_nil hne
    by_cases hc : c = '/'
    · rw [hc]
      exact ⟨rfl, rfl⟩
    · have hroot : ∀ u, c :: s ≠ '/' :: u := fun u hu => hc (List.cons.inj hu).1
      have hfull : fullPath dir (c :: s) = c :: s := by
        rw [fullPath.eq_def]
        split
        · rfl
        · exact if_pos (.inl hdir)
      have hjoin : joinPath dir (c :: s) = ".".toList ++ '/' :: c :: s := by
        rw [joinPath.eq_2 _ _ hroot, hdir]
        rfl
      have habs : isAbsolute (c :: s) = false := by
        rw [isAbsolute, decide_eq_false_iff_not]
        exact fun h => hc (Option.some.inj h)
      have habs' : isAbsolute (".".toList ++ '/' :: c :: s) = false := rfl
      rw [hfull, hjoin, habs, habs']
      refine ⟨?_, rfl⟩
      rw [normalise_eq, normalise_eq, habs, habs', splitOn_append_cons_of_not_mem (by decide),
        normal_blank (.inl rfl)]
  · rw [fullPath_eq_joinPath hdir]
    exact ⟨rfl, rfl⟩

/-- What the code makes of a path that is not empty. -/
structure CleansTo (full : Text) (r : List Text) : Prop where
  clean : cleanParts (splitOn '/' full) = some r
  lexical : IsLexical full (['/'].intercalate r)

theorem normalises_iff_cleansTo {dir f : Text} (h : IsFileName f) (hne : f ≠ []) :
    Normalises dir f ↔ ∃ r, CleansTo (fullPath dir f) r := by
  have hfull := normalise_fullPath dir f hne
  have hlex (path : Text) : IsLexical (joinPath dir f) path ↔ IsLexical (fullPath dir f) path :=
    ⟨fun ⟨a, b, c, d⟩ => ⟨a.trans hfull.1, b, c.trans hfull.2, d⟩,
      fun ⟨a, b, c, d⟩ => ⟨a.trans hfull.1.symm, b, c.trans hfull.2.symm, d⟩⟩
  rw [Normalises, toAbsPath_eq h hne, cleanPath]
  constructor
  · rintro ⟨path, hpath, hlexical⟩
    cases hr : cleanParts (splitOn '/' (fullPath dir f)) with
    | none =>
      rw [hr] at hpath
      cases hpath
    | some r =>
      rw [hr] at hpath
      cases hpath
      exact ⟨r, hr, (hlex _).mp hlexical⟩
  · rintro ⟨r, hr, hlexical⟩
    rw [hr]
    exact ⟨_, rfl, (hlex _).mpr hlexical⟩

/-! ## Paths that stay as they are -/

/-- A component, and names after it, are what they are cleaned up to. -/
theorem toAbsPath_again {first : Text} {names : List Text} (hno : ∀ p ∈ first :: names, '/' ∉ p)
    (hnames : ∀ p ∈ names, IsName p) (hne : ['/'].intercalate (first :: names) ≠ []) :
    toAbsPath (.path []) (['/'].intercalate (first :: names)) =
      .ok (['/'].intercalate (first :: names)) := by
  by_cases hfile : IsFileName (['/'].intercalate (first :: names))
  · have hfull : fullPath [] (['/'].intercalate (first :: names)) =
        ['/'].intercalate (first :: names) := by
      rw [fullPath.eq_def]
      split
      · rfl
      · exact if_pos (.inr rfl)
    rw [toAbsPath_eq hfile hne, hfull, cleanPath, splitOn_intercalate (by simp) hno,
      cleanParts_cons, absLoop_first_names first hnames]
  · exact toAbsPath_special hfile

theorem cleansTo_of_eq {full first : Text} {names : List Text}
    (hclean : cleanParts (splitOn '/' full) = some (first :: names))
    (heq : ['/'].intercalate (first :: names) = normalise full) (hnames : ∀ p ∈ names, IsName p)
    (hne : ['/'].intercalate (first :: names) ≠ []) : CleansTo full (first :: names) := by
  have hnorm := isNormalised_normalise full
  rw [← heq] at hnorm
  exact ⟨hclean, heq, hnorm.1, hnorm.2,
    toAbsPath_again (slash_not_mem_cleanParts hclean) hnames hne⟩

/-! ## Relative paths -/

section
variable {full first : Text} {rest r : List Text}

/-- What a relative path must be cleaned up to. -/
theorem CleansTo.parts (h : CleansTo full r) (habs : isAbsolute full = false) :
    r = (if normal false (splitOn '/' full) = [] then [".".toList]
      else normal false (splitOn '/' full)) := by
  have hno := slash_not_mem_cleanParts h.clean
  have heq := h.lexical.eq_normalise
  rw [normalise_eq, habs] at heq
  split
  · rename_i hnil
    have hdot : ['/'].intercalate r = ['/'].intercalate [".".toList] := by
      rw [heq, hnil]
      rfl
    refine intercalate_inj ?_ (by simp) hno (by decide) hdot
    rintro rfl
    cases hdot
  · rename_i hne
    rw [printed_cons hne] at heq
    refine intercalate_inj ?_ hne hno (fun p hp => slash_not_mem_normal hp) heq
    rintro rfl
    have hsplit := splitOn_intercalate hne (fun p hp => slash_not_mem_normal hp)
    rw [← heq] at hsplit
    have hblank := (normal_shape false (splitOn '/' full)).not_isBlank []
    rw [← hsplit] at hblank
    exact hblank List.mem_cons_self (.inr rfl)

/-- A relative path does not climb after its first component, unless this one is a name. -/
theorem CleansTo.no_climb (h : CleansTo full r) (habs : isAbsolute full = false)
    (hsplit : splitOn '/' full = first :: rest) (hfirst : ¬ IsName first) :
    ∃ s, reduce [] rest = some s := by
  rw [← Option.ne_none_iff_exists']
  intro hclimb
  have hclean := h.clean
  rw [hsplit] at hclean
  obtain ⟨hlt, hhead⟩ := weight_cleanParts hclimb hclean
  have hparts := h.parts habs
  split at hparts
  · rw [hparts] at hhead
    exact absurd (hhead _ rfl) (by decide)
  · have hweight : PosixPath.weight r = partWeight first + PosixPath.weight rest := by
      rw [hparts, weight_normal, hsplit, weight_cons]
    have hpart : 0 ≤ partWeight first := by
      rcases part_cases first with hp | rfl | hp
      · rewrite [partWeight_blank hp]
        exact Int.le_refl 0
      · decide
      · exact absurd hp hfirst
    omega

theorem isFileName_dot (s : Text) : IsFileName ('.' :: s) := by
  refine ⟨rfl, ?_⟩
  simp [standardStreams]

/-- Two dots in front, twice: a second application leads less far up. -/
theorem CleansTo.up_le_one {up : ℕ} {names : List Text} (h : CleansTo full r)
    (hr : r = List.replicate up dotDot ++ names) : up ≤ 1 := by
  by_contra hup
  obtain ⟨up, rfl⟩ : ∃ u, up = u + 2 := ⟨up - 2, by omega⟩
  have hcons : r = dotDot :: (dotDot :: (List.replicate up dotDot ++ names)) := hr
  have hno := slash_not_mem_cleanParts h.clean
  have hne : r ≠ [] := by
    rw [hcons]
    exact List.cons_ne_nil _ _
  obtain ⟨s, hdot⟩ : ∃ s, ['/'].intercalate r = '.' :: s := by
    rw [hcons, List.intercalate_cons_cons]
    exact ⟨_, rfl⟩
  have hagain := h.lexical.again
  rw [hdot, toAbsPath_eq (isFileName_dot s) (List.cons_ne_nil _ s)] at hagain
  have hfull : fullPath [] ('.' :: s) = '.' :: s := rfl
  rw [hfull, ← hdot, cleanPath, splitOn_intercalate hne hno] at hagain
  cases hr' : cleanParts r with
  | none =>
    rw [hr'] at hagain
    cases hagain
  | some r' =>
    rw [hr'] at hagain
    have hjoin := Except.ok.inj hagain
    have hsplit := splitOn_intercalate hne hno
    have hno' : ∀ p ∈ r', '/' ∉ p := by
      rw [← hsplit] at hr'
      exact slash_not_mem_cleanParts hr'
    have hne' : r' ≠ [] := by
      rintro rfl
      rw [hdot] at hjoin
      cases hjoin
    have heq := intercalate_inj hne' hne hno' hno hjoin
    rw [heq, hcons] at hr'
    have hlt := (weight_cleanParts reduce_dotDot_nil hr').1
    rw [weight_cons, partWeight_dotDot] at hlt
    omega

/-- **A path that starts with a name**: it does not climb, and something is left of it, or it climbs
once, and only names come after that. -/
theorem CleansTo.of_name (h : CleansTo full r) (habs : isAbsolute full = false)
    (hsplit : splitOn '/' full = first :: rest) (hfirst : IsName first) :
    (∃ s, s ≠ [] ∧ reduce [] (first :: rest) = some s) ∨
      ∃ before names, first :: rest = before ++ dotDot :: names ∧ reduce [] before = some [] ∧
        names ≠ [] ∧ ∀ p ∈ names, IsName p := by
  have hparts := h.parts habs
  have hclean := h.clean
  rw [hsplit] at hparts hclean
  have hone : ∀ l, reduce [] (first :: l) = reduce [first] l := fun l => reduce_name hfirst
  cases hred : reduce [] (first :: rest) with
  | some s =>
    refine .inl ⟨s, ?_, rfl⟩
    rintro rfl
    have hrun := absLoop_of_reduce ((hone rest).symm.trans hred)
    have hnil : cleanParts (first :: rest) = some [] := hrun
    rw [hnil] at hclean
    cases hclean
    rw [normal_of_reduce hred] at hparts
    cases hparts
  | none =>
    right
    rw [hone] at hred
    obtain ⟨before, after, rfl, hbefore⟩ := exists_climb hred
    have hrun := @absLoop_of_climb [first] before after hbefore
    have hnormal : normal false (first :: (before ++ dotDot :: after)) =
        normal false (dotDot :: after) :=
      @normal_append_dotDot (first :: before) after ((hone before).trans hbefore)
    have hclimb : cleanParts (first :: (before ++ dotDot :: after)) =
        if after = [] then some [] else absLoop after.length (dotDot :: after) (-1) := hrun
    rw [hclimb] at hclean
    rw [hnormal] at hparts
    refine ⟨first :: before, after, rfl, (hone before).trans hbefore, ?_⟩
    by_cases hnil : after = []
    · rw [if_pos hnil] at hclean
      cases hclean
      rw [hnil] at hparts
      cases hparts
    refine ⟨hnil, ?_⟩
    rw [if_neg hnil] at hclean
    obtain hnone | ⟨r', hr', hleft⟩ := absLoop_climb hnil
    · rw [hnone] at hclean
      cases hclean
    rw [hr'] at hclean
    cases hclean
    -- what is left is in normal form, and begins with two dots
    obtain ⟨up, names, heq, hnames, -⟩ := normal_shape false (dotDot :: after)
    have hr : r = List.replicate up dotDot ++ names := by
      split at hparts
      · rw [hparts] at hleft
        exact absurd hleft.head (by decide)
      · rw [hparts, heq]
    have hup := h.up_le_one hr
    have hdot : r = dotDot :: names := by
      rcases Nat.le_one_iff_eq_zero_or_eq_one.mp hup with rfl | rfl
      · have hhead := hleft.head
        rw [hr, List.replicate_zero, List.nil_append] at hhead
        exact absurd rfl (hnames _ (List.mem_of_mem_head? hhead)).1
      · exact hr
    rcases hleft.last with hall | ⟨hlast, hsingle⟩
    · rw [hdot] at hall
      obtain rfl := (List.cons.inj hall).2
      exact hnames
    · rcases List.eq_nil_or_concat names with rfl | ⟨names, last, rfl⟩
      · have hthree := hsingle hdot
        have hweight : PosixPath.weight (dotDot :: after) = 1 := by
          rw [← weight_normal, heq, ← hr, hdot]
          rfl
        omega
      · rw [hdot, List.concat_eq_append, ← List.cons_append, List.getLast?_concat] at hlast
        exact absurd (Option.some.inj hlast) (hnames last (by simp)).1

end

/-! ## The paths that are normalised -/

/-- **The components for which the clean-up is the lexical one.** At the root, nothing climbs and
some name is left. After two dots, nothing climbs; after a dot, nothing climbs and no name is left.
After a name, nothing climbs and some name is left, or it climbs once and only names follow. -/
def LexicallySafe : List Text → Prop
  | [] => False
  | first :: rest =>
    if first = [] then ∃ s, s ≠ [] ∧ reduce [] rest = some s
    else if first = ".".toList then reduce [] rest = some []
    else if first = dotDot then ∃ s, reduce [] rest = some s
    else (∃ s, s ≠ [] ∧ reduce [] (first :: rest) = some s) ∨
      ∃ before names, first :: rest = before ++ dotDot :: names ∧ reduce [] before = some [] ∧
        names ≠ [] ∧ ∀ p ∈ names, IsName p

theorem isAbsolute_iff_split {full first : Text} {rest : List Text} (hne : full ≠ [])
    (hsplit : splitOn '/' full = first :: rest) : isAbsolute full = true ↔ first = [] := by
  obtain ⟨c, s, rfl⟩ := List.exists_cons_of_ne_nil hne
  obtain ⟨q, qs, hs⟩ := splitOn_cons '/' s
  rw [splitOn, hs] at hsplit
  by_cases hc : c = '/'
  · rw [if_pos hc] at hsplit
    rw [hc]
    exact iff_of_true rfl (List.cons.inj hsplit).1.symm
  · rw [if_neg hc] at hsplit
    have hfirst := (List.cons.inj hsplit).1
    refine iff_of_false ?_ (by rw [← hfirst]; exact List.cons_ne_nil _ _)
    rw [isAbsolute, decide_eq_true_eq]
    exact fun h => hc (Option.some.inj h)

/-- An absolute path does not climb after the root, and some name is left of it. -/
theorem CleansTo.of_absolute {full : Text} {rest r : List Text} (h : CleansTo full r)
    (habs : isAbsolute full = true) (hsplit : splitOn '/' full = [] :: rest) :
    ∃ s, s ≠ [] ∧ reduce [] rest = some s := by
  have hclean := h.clean
  have hpath := h.lexical.isAbsolute_eq
  have hno := slash_not_mem_cleanParts hclean
  rw [habs] at hpath
  rw [hsplit] at hclean
  cases hred : reduce [] rest with
  | some s =>
    refine ⟨s, ?_, rfl⟩
    rintro rfl
    rw [cleanParts_of_reduce hred] at hclean
    cases hclean
    cases hpath
  | none =>
    have hhead := (weight_cleanParts hred hclean).2
    cases r with
    | nil => cases hpath
    | cons p r =>
      have hp : p ≠ [] := by
        rcases hhead p rfl with rfl | hp
        · decide
        · exact fun hnil => hp.2 (.inr hnil)
      rw [isAbsolute_intercalate hp (hno p List.mem_cons_self)] at hpath
      cases hpath

theorem lexicallySafe_of_cleansTo {full : Text} {r : List Text} (hne : full ≠ [])
    (h : CleansTo full r) : LexicallySafe (splitOn '/' full) := by
  obtain ⟨first, rest, hsplit⟩ := splitOn_cons '/' full
  have habs := isAbsolute_iff_split hne hsplit
  rw [hsplit, LexicallySafe]
  split
  · rename_i hnil
    rw [hnil] at hsplit habs
    exact h.of_absolute (habs.mpr rfl) hsplit
  rename_i hnil
  rw [← habs, Bool.not_eq_true] at hnil
  split
  · rename_i hdot
    obtain ⟨s, hs⟩ := h.no_climb hnil hsplit (fun hname => hname.2 (.inl hdot))
    have hclean := h.clean
    have hparts := h.parts hnil
    rw [hsplit, cleanParts_of_reduce hs] at hclean
    cases hclean
    rw [hsplit, normal_blank (.inl hdot), normal_of_reduce hs] at hparts
    split at hparts
    · rename_i hrev
      rw [hs, List.reverse_eq_nil_iff.mp hrev]
    · have hlen := congrArg List.length hparts
      rw [List.length_cons] at hlen
      omega
  · split
    · rename_i hdots
      exact h.no_climb hnil hsplit (fun hname => hname.1 hdots)
    · rename_i hdot hdots
      refine h.of_name hnil hsplit ⟨hdots, not_or.mpr ⟨hdot, fun hfirst => ?_⟩⟩
      rw [habs.mpr hfirst] at hnil
      cases hnil

theorem intercalate_ne_nil {p : Text} {parts : List Text} (h : p ≠ []) :
    ['/'].intercalate (p :: parts) ≠ [] := by
  obtain ⟨c, p, rfl⟩ := List.exists_cons_of_ne_nil h
  cases parts with
  | nil =>
    rw [List.intercalate_singleton]
    exact List.cons_ne_nil c p
  | cons q parts =>
    rw [List.intercalate_cons_cons]
    exact List.cons_ne_nil _ _

theorem normalise_relative {full : Text} (habs : isAbsolute full = false)
    (hne : normal false (splitOn '/' full) ≠ []) :
    normalise full = ['/'].intercalate (normal false (splitOn '/' full)) := by
  rw [normalise_eq, habs, printed_cons hne]

/-- A relative path whose components are in the end a component and names. -/
theorem cleansTo_relative {full first : Text} {names : List Text} (habs : isAbsolute full = false)
    (hclean : cleanParts (splitOn '/' full) = some (first :: names))
    (hnormal : normal false (splitOn '/' full) = first :: names) (hfirst : first ≠ [])
    (hnames : ∀ p ∈ names, IsName p) : CleansTo full (first :: names) := by
  refine cleansTo_of_eq hclean ?_ hnames (intercalate_ne_nil hfirst)
  rw [normalise_relative habs (by rw [hnormal]; exact List.cons_ne_nil _ _), hnormal]

theorem names_reverse {parts s : List Text} (h : reduce [] parts = some s) :
    ∀ p ∈ s.reverse, IsName p := fun p hp =>
  names_of_reduce (List.forall_mem_nil _) h p (List.mem_reverse.mp hp)

theorem cleansTo_of_lexicallySafe {full : Text} (hne : full ≠ [])
    (h : LexicallySafe (splitOn '/' full)) : ∃ r, CleansTo full r := by
  obtain ⟨first, rest, hsplit⟩ := splitOn_cons '/' full
  have habs := isAbsolute_iff_split hne hsplit
  rw [hsplit, LexicallySafe] at h
  split at h
  · rename_i hnil
    obtain ⟨s, hs, hred⟩ := h
    obtain ⟨q, qs, hq⟩ := List.exists_cons_of_ne_nil (mt List.reverse_eq_nil_iff.mp hs)
    have hjoin : ['/'].intercalate ([] :: s.reverse) = '/' :: ['/'].intercalate s.reverse := by
      rw [hq, List.intercalate_cons_cons]
      rfl
    rw [hnil] at hsplit
    refine ⟨[] :: s.reverse, cleansTo_of_eq ?_ ?_ (names_reverse hred) ?_⟩
    · rw [hsplit, cleanParts_of_reduce hred]
    · rw [hjoin, normalise_eq, habs.mpr hnil, hsplit, normal_blank (.inr rfl),
        normal_of_reduce hred, printed_true]
    · rw [hjoin]
      exact List.cons_ne_nil _ _
  rename_i hnil
  have hrel : isAbsolute full = false := by
    rw [← Bool.not_eq_true, habs]
    exact hnil
  split at h
  · rename_i hdot
    refine ⟨[first], cleansTo_of_eq ?_ ?_ (List.forall_mem_nil _) (intercalate_ne_nil hnil)⟩
    · rw [hsplit, cleanParts_of_reduce h]
      rfl
    · rw [normalise_eq, hrel, hsplit, normal_blank (.inl hdot), normal_of_reduce h, hdot]
      rfl
  split at h
  · rename_i hdots
    obtain ⟨s, hred⟩ := h
    refine ⟨first :: s.reverse, cleansTo_relative hrel ?_ ?_ hnil (names_reverse hred)⟩
    · rw [hsplit, cleanParts_of_reduce hred]
    · rw [hsplit, hdots, normal_dotDot_cons hred]
  rename_i hdot hdots
  have hfirst : IsName first := ⟨hdots, not_or.mpr ⟨hdot, hnil⟩⟩
  rcases h with ⟨s, hs, hred⟩ | ⟨before, names, heq, hbefore, hne', hnames⟩
  · obtain ⟨q, qs, hq⟩ := List.exists_cons_of_ne_nil (mt List.reverse_eq_nil_iff.mp hs)
    have hall := names_reverse hred
    rw [hq, List.forall_mem_cons] at hall
    refine ⟨q :: qs, cleansTo_relative hrel ?_ ?_ (fun hnil => hall.1.2 (.inr hnil)) hall.2⟩
    · have hrun := absLoop_of_reduce ((reduce_name hfirst).symm.trans hred)
      rw [hq] at hrun
      rw [hsplit]
      exact hrun
    · rw [hsplit, normal_of_reduce hred, hq]
  · cases before with
    | nil => exact absurd (List.cons.inj heq).1 hdots
    | cons p before =>
      obtain ⟨rfl, rfl⟩ := List.cons.inj heq
      have hrun := @absLoop_of_climb [first] before names ((reduce_name hfirst).symm.trans hbefore)
      rw [if_neg hne', absLoop_dotDot_names hne' hnames] at hrun
      refine ⟨dotDot :: names, cleansTo_relative hrel ?_ ?_ (by decide) hnames⟩
      · rw [hsplit]
        exact hrun
      · have hnormal := @normal_append_dotDot (first :: before) names hbefore
        have hrest := normal_dotDot_cons (@reduce_names [] names hnames)
        rw [List.append_nil, List.reverse_reverse] at hrest
        rw [hsplit]
        exact hnormal.trans hrest

theorem fullPath_ne_nil {dir f : Text} (h : f ≠ []) : fullPath dir f ≠ [] := by
  rw [fullPath.eq_def]
  split
  · exact h
  · split
    · exact h
    · exact fun hnil => List.cons_ne_nil _ _ (List.append_eq_nil_iff.mp hnil).2

/-- The file of a name that is relative to a directory: the end of `ToObjectPath_CIM_DataFile`. -/
def dataFileFrom (dir f : Text) : ObjM Text := do
  let pathName ← ofExcept (toAbsPath (.path dir) f)
  createObjectPathCIMDataFile pathName
  return pathName

/-- **`ToAbsPath` is the lexical normalisation exactly on the safe paths**; two of them that have
the same normalisation give the same file. -/
theorem normalises_iff (dir f : Text) (h : IsFileName f) :
    (Normalises dir f ↔ f ≠ [] ∧ LexicallySafe (splitOn '/' (fullPath dir f))) ∧
      ∀ dir' f', Normalises dir f → Normalises dir' f' →
        normalise (joinPath dir f) = normalise (joinPath dir' f') →
        dataFileFrom dir f = dataFileFrom dir' f' := by
  constructor
  · by_cases hne : f = []
    · refine iff_of_false ?_ fun hf => hf.1 hne
      rintro ⟨path, hpath, -⟩
      rw [hne, toAbsPath_nil] at hpath
      cases hpath
    · rw [normalises_iff_cleansTo h hne]
      constructor
      · rintro ⟨r, hr⟩
        exact ⟨hne, lexicallySafe_of_cleansTo (fullPath_ne_nil hne) hr⟩
      · rintro ⟨-, hsafe⟩
        exact cleansTo_of_lexicallySafe (fullPath_ne_nil hne) hsafe
  · rintro dir' f' ⟨path, hpath, hlex⟩ ⟨path', hpath', hlex'⟩ heq
    rw [dataFileFrom, dataFileFrom, hpath, hpath', hlex.eq_normalise, hlex'.eq_normalise, heq]

theorem normalises_iff_shared :
    (Normalises "/home/u".toList "../lib//libc.so".toList ↔ ("../lib//libc.so".toList ≠ [] ∧
      LexicallySafe (splitOn '/' (fullPath "/home/u".toList "../lib//libc.so".toList)))) ∧
    ∀ dir' f', Normalises "/home/u".toList "../lib//libc.so".toList → Normalises dir' f' →
      normalise (joinPath "/home/u".toList "../lib//libc.so".toList) =
        normalise (joinPath dir' f') →
      dataFileFrom "/home/u".toList "../lib//libc.so".toList = dataFileFrom dir' f' :=
  normalises_iff "/home/u".toList "../lib//libc.so".toList (by decide)

/-- The root itself becomes the empty path. -/
theorem not_forall_normalises : ¬ ∀ dir f, IsFileName f → Normalises dir f := by
  intro h
  obtain ⟨path, hpath, hlex⟩ := h [] "/..".toList (by decide)
  have heq := hlex.eq_normalise
  have hempty : toAbsPath (.path []) "/..".toList = .ok [] := by decide
  have hroot : normalise (joinPath [] "/..".toList) = "/".toList := by decide
  rw [hempty] at hpath
  rw [hroot] at heq
  cases hpath
  cases heq

end Survol.Dockit
