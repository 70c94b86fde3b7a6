import Survol.Uris.Aliases

/-!
# The laws of the mode

A URL is the part before its parameters, and its parameters. The mode is set or removed at the last
place where its name follows a delimiter, which may be one of several modes, and which may be inside
another parameter.

## Main definitions

* `CgiUrl` — a URL with its parameters.
* `ModeLaws` — setting, getting and removing the mode.
* `OneMode` — the URLs and the modes for which the laws hold.

## Main results

* `lastMode_print` — the place where the mode is set.
* `modeLaws_iff` — when the laws hold.
-/

namespace Survol.Uris

open PyText (Text splitOn)

/-! ## URLs with parameters -/

/-- A parameter of a URL. -/
def IsParam (p : Text) : Prop := p ≠ [] ∧ '&' ∉ p ∧ '\n' ∉ p

/-- A URL: what comes before the parameters, and the parameters. -/
structure CgiUrl where
  base : Text
  params : List Text
  base_ok : '?' ∉ base ∧ '\n' ∉ base
  params_ok : ∀ p ∈ params, IsParam p

/-- The parameter is the mode. -/
def isMode (p : Text) : Bool := "mode=".toList.isPrefixOf p

/-- The text of a part before some parameters, and of these. -/
def printUrl (base : Text) (params : List Text) : Text :=
  if params = [] then base else base ++ '?' :: join "&".toList params

/-- The text of a URL. -/
def CgiUrl.text (u : CgiUrl) : Text := printUrl u.base u.params

/-- The other parameters. -/
def CgiUrl.others (u : CgiUrl) : List Text := u.params.filter fun p => !isMode p

/-- The modes. -/
def CgiUrl.modes (u : CgiUrl) : List Text := u.params.filter isMode

/-- **The laws of the mode** for a URL, a mode `m`, and another one `m'` set before. The mode
that is set is read, and replaces the one set before. When it is removed, the other parameters are
left, and when it is set, they stay. The question mark comes once. -/
structure ModeLaws (u : CgiUrl) (m' m : Text) : Prop where
  get : getModeFromUrl (anyUriModed u.text m) = m
  twice : m' ≠ [] → anyUriModed (anyUriModed u.text m') m = anyUriModed u.text m
  removed : anyUriModed u.text [] = printUrl u.base u.others
  kept : m ≠ [] → ∃ params, anyUriModed u.text m = printUrl u.base params ∧
    (params.filter fun p => !isMode p) = u.others ∧ ∀ p ∈ params, p ≠ [] ∧ '&' ∉ p
  once : (u.others ≠ [] → (anyUriModed u.text []).count '?' = 1) ∧
    (m ≠ [] → (anyUriModed u.text m).count '?' = 1)

/-- **At most one mode**, where the search stops: no later place looks like it, in the mode or
in the other parameters, and none before the parameters is taken for it. -/
structure OneMode (u : CgiUrl) (m' m : Text) : Prop where
  others : ∀ p ∈ u.others, '?' ∉ p
  modes : u.modes = [] ∧ lastMode u.base = none ∨
    ∃ v, u.modes = ["mode=".toList ++ v] ∧ lastMode v = none
  mode : '?' ∉ m
  earlier : m' ≠ [] → lastMode m' = none
  base : m = [] → ∀ y ∈ lastMode u.base, y.2.2.head? = some '&' ∨ y.2.2 = [] ∧ u.others = []

/-! ## The search -/

/-- The text of a match, which is its parts. -/
theorem eq_of_lastMode {s g r : Text} {c : Char} (h : lastMode s = some (g, c, r)) :
    s = g ++ c :: ("mode=".toList ++ r) := by
  induction s generalizing g with
  | nil => cases h
  | cons d s ih =>
    rw [lastMode] at h
    split at h
    · cases h
    · cases hs : lastMode s with
      | some x =>
        obtain ⟨g', c', r'⟩ := x
        rw [hs] at h
        cases h
        rw [List.cons_append, ← ih hs]
      | none =>
        rw [hs] at h
        dsimp only at h
        split at h
        · rename_i hpre
          rw [Bool.and_eq_true, List.isPrefixOf_iff_prefix] at hpre
          obtain ⟨r', hr'⟩ := hpre.2
          cases h
          rw [← hr', List.nil_append]
          rfl
        · cases h

/-- The match begins with a delimiter. -/
theorem delimiter_of_lastMode {s g r : Text} {c : Char} (h : lastMode s = some (g, c, r)) :
    c = '?' ∨ c = '&' := by
  induction s generalizing g with
  | nil => cases h
  | cons d s ih =>
    rw [lastMode] at h
    split at h
    · cases h
    · cases hs : lastMode s with
      | some x =>
        obtain ⟨g', c', r'⟩ := x
        rw [hs] at h
        cases h
        exact ih hs
      | none =>
        rw [hs] at h
        dsimp only at h
        split at h
        · rename_i hpre
          rw [Bool.and_eq_true, Bool.or_eq_true, decide_eq_true_eq, decide_eq_true_eq] at hpre
          cases h
          exact hpre.1
        · cases h

/-- A text that begins with a delimiter, or that is empty. -/
def BeginsDelimited (t : Text) : Prop := t = [] ∨ ∃ s, t = '&' :: s ∨ t = '?' :: s

theorem isPrefixOf_mode_append {s t : Text} (ht : BeginsDelimited t) :
    "mode=".toList.isPrefixOf (s ++ t) = "mode=".toList.isPrefixOf s := by
  rw [Bool.eq_iff_iff, List.isPrefixOf_iff_prefix, List.isPrefixOf_iff_prefix]
  refine ⟨fun h => ?_, fun h => h.trans (List.prefix_append _ _)⟩
  by_cases hlen : "mode=".toList.length ≤ s.length
  · exact List.prefix_of_prefix_length_le h (List.prefix_append _ _) hlen
  · have hno : '&' ∉ "mode=".toList ∧ '?' ∉ "mode=".toList := by decide
    obtain rfl | ⟨t, ht⟩ := ht
    · rwa [List.append_nil] at h
    · have hhead (c : Char) (hc : c ∉ "mode=".toList) :
          ¬ "mode=".toList <+: s ++ c :: t := by
        intro h
        have hlt : (s ++ [c]).length ≤ "mode=".toList.length := by
          rw [List.length_append, List.length_singleton]
          omega
        have hpre : s ++ [c] <+: s ++ c :: t := ⟨t, by simp⟩
        exact hc ((List.prefix_of_prefix_length_le hpre h hlt).subset (by simp))
      obtain rfl | rfl := ht
      · exact absurd h (hhead _ hno.1)
      · exact absurd h (hhead _ hno.2)

/-- **What follows does not change the place**, when it has none itself. -/
theorem lastMode_append {t : Text} (ht : BeginsDelimited t) (hnone : lastMode t = none)
    (x : Text) : lastMode (x ++ t) = (lastMode x).map fun y => (y.1, y.2.1, y.2.2 ++ t) := by
  induction x with
  | nil => rw [List.nil_append, hnone, lastMode, Option.map_none]
  | cons c x ih =>
    rw [List.cons_append, lastMode, lastMode, ih, isPrefixOf_mode_append ht]
    split
    · rfl
    · cases hx : lastMode x with
      | some y => rfl
      | none =>
        rw [Option.map_none]
        dsimp only
        split
        · rename_i hpre
          rw [Bool.and_eq_true, List.isPrefixOf_iff_prefix] at hpre
          have hdrop : (x ++ t).drop 5 = x.drop 5 ++ t :=
            List.drop_append_of_le_length hpre.2.length_le
          rewrite [hdrop]
          rfl
        · rfl

/-! ## The place in a URL -/

/-- A parameter that the search passes by. -/
def IsOther (p : Text) : Prop := IsParam p ∧ '?' ∉ p ∧ isMode p = false

theorem afterArg_cons (p : Text) (post : List Text) :
    afterArg (p :: post) = '&' :: (p ++ afterArg post) := by
  rw [← join_cons]
  rfl

theorem beginsDelimited_afterArg (post : List Text) : BeginsDelimited (afterArg post) := by
  cases post with
  | nil => exact Or.inl rfl
  | cons p post => exact Or.inr ⟨_, Or.inl (afterArg_cons p post)⟩

theorem lastMode_cons_of_isOther {p : Text} (hp : IsOther p) {t : Text} (ht : BeginsDelimited t)
    (hnone : lastMode t = none) (c : Char) : lastMode (c :: (p ++ t)) = none := by
  have hmode : "mode=".toList.isPrefixOf p = false := hp.2.2
  rw [lastMode, lastMode_append_of_none ⟨hp.2.1, hp.1.2.1⟩ hnone, isPrefixOf_mode_append ht, hmode]
  simp

theorem lastMode_afterArg {post : List Text} (h : ∀ p ∈ post, IsOther p) :
    lastMode (afterArg post) = none := by
  induction post with
  | nil => rfl
  | cons p post ih =>
    rw [afterArg_cons]
    exact lastMode_cons_of_isOther (h p List.mem_cons_self) (beginsDelimited_afterArg post)
      (ih fun q hq => h q (List.mem_cons_of_mem p hq)) '&'

theorem printUrl_cons (base p : Text) (params : List Text) :
    printUrl base (p :: params) = base ++ '?' :: (p ++ afterArg params) := by
  rw [printUrl, if_neg (List.cons_ne_nil _ _), join_cons]

/-- The part before a parameter, and its delimiter. -/
def front (base : Text) (pre : List Text) : Text × Char :=
  if pre = [] then (base, '?') else (printUrl base pre, '&')

theorem printUrl_append_cons (base : Text) (pre : List Text) (p : Text) (post : List Text) :
    printUrl base (pre ++ p :: post) =
      (front base pre).1 ++ (front base pre).2 :: (p ++ afterArg post) := by
  cases pre with
  | nil => exact printUrl_cons base p post
  | cons q pre =>
    have hjoin : join "&".toList (q :: pre ++ p :: post) =
        join "&".toList (q :: pre) ++ afterArg (p :: post) := join_append (List.cons_ne_nil q pre)
    rw [front, if_neg (List.cons_ne_nil _ _), printUrl, if_neg (by simp), hjoin, printUrl,
      if_neg (List.cons_ne_nil _ _), afterArg_cons, List.append_assoc, List.cons_append]

/-- What is left without a parameter. -/
def without (f : Text × Char) (t : Text) : Text :=
  if f.2 = '?' then if t ≠ [] then f.1 ++ '?' :: t.drop 1 else f.1 else f.1 ++ t

theorem printUrl_append (base : Text) (pre post : List Text) :
    printUrl base (pre ++ post) = without (front base pre) (afterArg post) := by
  cases pre with
  | nil =>
    rw [List.nil_append, front, if_pos rfl, without, if_pos rfl]
    cases post with
    | nil => rfl
    | cons p post =>
      rw [printUrl_cons, afterArg_cons, if_pos (List.cons_ne_nil _ _)]
      rfl
  | cons q pre =>
    rw [front, if_neg (List.cons_ne_nil _ _), without, if_neg (by decide : ('&' : Char) ≠ '?'),
      printUrl, printUrl, if_neg (by simp), if_neg (by simp), join_append (List.cons_ne_nil q pre),
      List.append_assoc, List.cons_append]

theorem length_without_le (f : Text × Char) (t : Text) :
    (without f t).length ≤ f.1.length + t.length := by
  rw [without]
  split
  · split
    · rename_i hne
      have := List.length_pos_iff.mpr hne
      rw [List.length_append, List.length_cons, List.length_drop]
      omega
    · omega
  · rw [List.length_append]

section

variable {base : Text} {pre post : List Text} (hbase : '\n' ∉ base)
  (hpre : ∀ p ∈ pre, '\n' ∉ p)

include hbase hpre

theorem newline_not_mem_front : '\n' ∉ (front base pre).1 ++ [(front base pre).2] := by
  rw [front]
  split
  · simpa using hbase
  · have := not_mem_join (by decide) hpre
    rw [printUrl, if_neg ‹_›]
    simp only [List.mem_append, List.mem_cons, not_or]
    exact ⟨⟨hbase, by decide, this⟩, by decide, List.not_mem_nil⟩

theorem lastMode_front {s g r : Text} {c : Char} (h : lastMode s = some (g, c, r)) :
    lastMode ((front base pre).1 ++ (front base pre).2 :: s) =
      some ((front base pre).1 ++ (front base pre).2 :: g, c, r) := by
  have := lastMode_append_of_some (newline_not_mem_front hbase hpre) h
  rwa [List.append_assoc, List.append_assoc] at this

/-- **The place of the mode**, when no later one looks like it. -/
theorem lastMode_print {v : Text} (hv : lastMode v = none) (hpost : ∀ p ∈ post, IsOther p) :
    lastMode (printUrl base (pre ++ ("mode=".toList ++ v) :: post)) =
      some ((front base pre).1, (front base pre).2, v ++ afterArg post) := by
  have hnl := newline_not_mem_front hbase hpre
  have hin : lastMode ("mode=".toList ++ v ++ afterArg post) = none := by
    rw [lastMode_append (beginsDelimited_afterArg post) (lastMode_afterArg hpost),
      lastMode_append_of_none (by decide) hv]
    rfl
  have hsep : (decide ((front base pre).2 = '?') || decide ((front base pre).2 = '&')) = true := by
    rw [front]
    split <;> rfl
  have hmode : "mode=".toList.isPrefixOf ("mode=".toList ++ v ++ afterArg post) = true := by
    rw [List.append_assoc]
    exact List.isPrefixOf_iff_prefix.mpr (List.prefix_append _ _)
  have hline : (front base pre).2 ≠ '\n' := fun he => hnl (by simp [he])
  have hcons : lastMode ((front base pre).2 :: ("mode=".toList ++ v ++ afterArg post)) =
      some ([], (front base pre).2, v ++ afterArg post) := by
    rw [lastMode, hin, if_neg hline, hsep, hmode]
    rfl
  rw [printUrl_append_cons]
  have := lastMode_append_of_some (fun hm => hnl (List.mem_append_left _ hm)) hcons
  rwa [List.append_nil] at this

/-- The place inside a mode. -/
theorem lastMode_print_inside {v g r : Text} {c : Char} (hv : lastMode v = some (g, c, r))
    (hpost : ∀ p ∈ post, IsOther p) :
    lastMode (printUrl base (pre ++ ("mode=".toList ++ v) :: post)) =
      some ((front base pre).1 ++ (front base pre).2 :: ("mode=".toList ++ g), c,
        r ++ afterArg post) := by
  rw [printUrl_append_cons]
  apply lastMode_front hbase hpre
  have := lastMode_append_of_some (by decide : '\n' ∉ "mode=".toList) hv
  rw [lastMode_append (beginsDelimited_afterArg post) (lastMode_afterArg hpost), this]
  rfl

end

/-! ## The URL that is made -/

/-- The rest of the parameters, after a mode that is replaced. -/
theorem firstLine_dropWhile {v : Text} (hv : '&' ∉ v) {post : List Text}
    (hpost : ∀ p ∈ post, '\n' ∉ p) :
    firstLine ((v ++ afterArg post).dropWhile (· ≠ '&')) = afterArg post := by
  have hall : ∀ c ∈ v, decide (c ≠ '&') = true := by
    intro c hc
    simpa using fun he : c = '&' => hv (he ▸ hc)
  rw [List.dropWhile_append_of_pos hall]
  cases post with
  | nil => rfl
  | cons b post =>
    have hjoin := not_mem_join (by decide) hpost
    have hline : '\n' ∉ afterArg (b :: post) := by
      rw [afterArg, List.mem_cons, not_or]
      exact ⟨by decide, hjoin⟩
    exact firstLine_eq_self_iff.mpr hline

section

variable {s G v : Text} {c : Char} {post : List Text}
  (h : lastMode s = some (G, c, v ++ afterArg post)) (hv : '&' ∉ v)
  (hpost : ∀ p ∈ post, '\n' ∉ p)

include h hv hpost

theorem anyUriModed_of_lastMode {m : Text} (hm : m ≠ []) :
    anyUriModed s m = G ++ c :: ("mode=".toList ++ m ++ afterArg post) := by
  rw [anyUriModed, h]
  dsimp only
  rw [firstLine_dropWhile hv hpost, if_pos hm]

theorem anyUriModed_nil_of_lastMode : anyUriModed s [] = without (G, c) (afterArg post) := by
  rw [anyUriModed, h]
  dsimp only
  rw [firstLine_dropWhile hv hpost, if_neg fun h => h rfl]
  rfl

theorem getModeFromUrl_of_lastMode : getModeFromUrl s = v := by
  have hall : ∀ c ∈ v, decide (c ≠ '&') = true := by
    intro c hc
    simpa using fun he : c = '&' => hv (he ▸ hc)
  rw [getModeFromUrl, h]
  dsimp only
  rw [List.takeWhile_append_of_pos hall]
  cases post with
  | nil => exact List.append_nil v
  | cons b post => exact List.append_nil v

end

theorem printUrl_inj {base : Text} {params params' : List Text}
    (h : ∀ p ∈ params, '&' ∉ p) (h' : ∀ p ∈ params', '&' ∉ p)
    (heq : printUrl base params = printUrl base params') : params = params' := by
  rw [printUrl, printUrl] at heq
  split at heq
  · split at heq
    · rename_i hnil hnil'
      rw [hnil, hnil']
    · simp at heq
  · split at heq
    · simp at heq
    · rename_i hne hne'
      have hjoin := (List.cons.inj (List.append_cancel_left heq)).2
      have := congrArg (splitOn '&') hjoin
      exact (splitOn_join_of_not_mem hne h).symm.trans
        (this.trans (splitOn_join_of_not_mem hne' h'))

theorem mem_join_iff {c : Char} (hc : c ≠ '&') {args : List Text} :
    c ∈ join "&".toList args ↔ ∃ a ∈ args, c ∈ a := by
  constructor
  · intro h
    by_contra hno
    exact not_mem_join hc (fun a ha hm => hno ⟨a, ha, hm⟩) h
  · rintro ⟨a, ha, hm⟩
    obtain ⟨pre, post, rfl⟩ := List.append_of_mem ha
    cases pre with
    | nil =>
      rw [List.nil_append, join_cons]
      exact List.mem_append_left _ hm
    | cons b pre =>
      rw [join_append (List.cons_ne_nil b pre), afterArg_cons]
      simp [hm]

/-- One question mark. -/
theorem count_printUrl {base : Text} (hbase : '?' ∉ base) {params : List Text} (hne : params ≠ []) :
    (printUrl base params).count '?' = 1 ↔ ∀ p ∈ params, '?' ∉ p := by
  have hjoin : '?' ∉ join "&".toList params ↔ ∀ p ∈ params, '?' ∉ p := by
    rw [mem_join_iff (by decide)]
    simp only [not_exists, not_and]
  rw [← hjoin, ← List.count_eq_zero, printUrl, if_neg hne, List.count_append, List.count_cons_self,
    List.count_eq_zero.mpr hbase]
  omega

/-! ## The place of a mode -/

/-- A place in the parameters, which the search finds. -/
structure IsSpot (base : Text) (pre post : List Text) : Prop where
  base_ok : '?' ∉ base ∧ '\n' ∉ base
  pre_ok : ∀ p ∈ pre, IsParam p
  post_ok : ∀ p ∈ post, IsOther p

/-- The URL with a mode at a place. -/
def modeUrl (base : Text) (pre : List Text) (m : Text) (post : List Text) : Text :=
  printUrl base (pre ++ ("mode=".toList ++ m) :: post)

namespace IsSpot

variable {base : Text} {pre post : List Text} (S : IsSpot base pre post)

include S

theorem pre_line : ∀ p ∈ pre, '\n' ∉ p := fun p hp => (S.pre_ok p hp).2.2

theorem post_line : ∀ p ∈ post, '\n' ∉ p := fun p hp => (S.post_ok p hp).1.2.2

theorem amp_not_mem {v : Text} (hv : '&' ∉ v) :
    ∀ p ∈ pre ++ ("mode=".toList ++ v) :: post, '&' ∉ p := by
  intro p hp
  rw [List.mem_append, List.mem_cons] at hp
  obtain hp | rfl | hp := hp
  · exact (S.pre_ok p hp).2.1
  · rw [List.mem_append, not_or]
    exact ⟨by decide, hv⟩
  · exact (S.post_ok p hp).1.2.1

section

variable {v : Text} (hv : lastMode v = none) (hamp : '&' ∉ v)

include hv hamp

theorem anyUriModed_modeUrl {m : Text} (hm : m ≠ []) :
    anyUriModed (modeUrl base pre v post) m = modeUrl base pre m post := by
  rw [modeUrl, anyUriModed_of_lastMode (lastMode_print S.base_ok.2 S.pre_line hv S.post_ok) hamp
    S.post_line hm, modeUrl, printUrl_append_cons]

theorem anyUriModed_modeUrl_nil :
    anyUriModed (modeUrl base pre v post) [] = printUrl base (pre ++ post) := by
  rw [modeUrl, anyUriModed_nil_of_lastMode (lastMode_print S.base_ok.2 S.pre_line hv S.post_ok) hamp
    S.post_line, printUrl_append]

theorem getModeFromUrl_modeUrl : getModeFromUrl (modeUrl base pre v post) = v :=
  getModeFromUrl_of_lastMode (lastMode_print S.base_ok.2 S.pre_line hv S.post_ok) hamp S.post_line

end

section

variable {v g r : Text} {c : Char} (hv : lastMode v = some (g, c, r)) (hamp : '&' ∉ v)

include hv hamp

/-- A place inside the mode leaves what is before it. -/
theorem anyUriModed_inside_ne {m : Text} (hm : m ≠ []) :
    anyUriModed (modeUrl base pre v post) m ≠ modeUrl base pre m post := by
  have hr : '&' ∉ r := fun h => hamp (by rw [eq_of_lastMode hv]; simp [h])
  intro heq
  have hlast := lastMode_print_inside S.base_ok.2 S.pre_line hv S.post_ok
  rw [modeUrl, anyUriModed_of_lastMode hlast hr S.post_line hm, modeUrl,
    printUrl_append_cons] at heq
  have := congrArg List.length heq
  simp only [List.length_append, List.length_cons] at this
  omega

/-- A place inside the mode leaves a mode. -/
theorem anyUriModed_inside_nil : ∃ g' post', '&' ∉ g' ∧ (∀ p ∈ post', p ∈ post) ∧
    anyUriModed (modeUrl base pre v post) [] = modeUrl base pre g' post' := by
  have hsplit := eq_of_lastMode hv
  have hr : '&' ∉ r := fun h => hamp (by rw [hsplit]; simp [h])
  have hg : '&' ∉ g := fun h => hamp (by rw [hsplit]; simp [h])
  have hc : c = '?' := by
    refine (delimiter_of_lastMode hv).resolve_right fun he => hamp ?_
    rw [hsplit, he]
    simp
  have hlast := lastMode_print_inside S.base_ok.2 S.pre_line hv S.post_ok
  rw [modeUrl, anyUriModed_nil_of_lastMode hlast hr S.post_line, without, if_pos hc]
  cases hpost : post with
  | nil =>
    refine ⟨g, [], hg, by simp, ?_⟩
    rw [if_neg fun h => h rfl, modeUrl, printUrl_append_cons]
    exact congrArg (fun t => (front base pre).1 ++ (front base pre).2 :: t) (List.append_nil _).symm
  | cons b post' =>
    have hb := (S.post_ok b (hpost ▸ List.mem_cons_self)).1.2.1
    refine ⟨g ++ '?' :: b, post', ?_, fun p hp => List.mem_cons_of_mem b hp, ?_⟩
    · simp [hg, hb]
    · rw [afterArg_cons, if_pos (List.cons_ne_nil _ _), modeUrl, printUrl_append_cons]
      simp

end

end IsSpot

/-! ## A URL without a mode -/

/-- The parameters with what comes before. -/
def queryPart (params : List Text) : Text :=
  if params = [] then [] else '?' :: join "&".toList params

theorem printUrl_eq (base : Text) (params : List Text) :
    printUrl base params = base ++ queryPart params := by
  rw [printUrl, queryPart]
  split
  · exact (List.append_nil base).symm
  · rfl

theorem lastMode_printUrl {base : Text} {params : List Text} (h : ∀ p ∈ params, IsOther p) :
    lastMode (printUrl base params) =
      (lastMode base).map fun y => (y.1, y.2.1, y.2.2 ++ queryPart params) := by
  rw [printUrl_eq]
  cases params with
  | nil => exact lastMode_append (Or.inl rfl) rfl base
  | cons p params =>
    have hq : queryPart (p :: params) = '?' :: (p ++ afterArg params) := by
      rw [queryPart, if_neg (List.cons_ne_nil _ _), join_cons]
    have hnone : lastMode (queryPart (p :: params)) = none := by
      rw [hq]
      exact lastMode_cons_of_isOther (h p List.mem_cons_self) (beginsDelimited_afterArg params)
        (lastMode_afterArg fun q hq => h q (List.mem_cons_of_mem p hq)) '?'
    exact lastMode_append (Or.inr ⟨_, Or.inr hq⟩) hnone base

theorem concatenateCgi_printUrl {base : Text} (hbase : '?' ∉ base) (params : List Text) (p : Text) :
    concatenateCgi (printUrl base params) p = printUrl base (params ++ [p]) := by
  rw [printUrl_append_cons, concatenateCgi, front, afterArg, List.append_nil]
  by_cases h : params = []
  · rw [if_pos h, printUrl, if_pos h, if_neg hbase]
  · have hmem : '?' ∈ printUrl base params := by
      rw [printUrl, if_neg h]
      simp
    rw [if_neg h, if_pos hmem]

/-- The mode that is read without parameters for it. -/
theorem getModeFromUrl_printUrl {base : Text} {params : List Text} (h : ∀ p ∈ params, IsOther p) :
    getModeFromUrl (printUrl base params) = [] ↔
      ∀ y ∈ lastMode base, y.2.2.head? = some '&' ∨ y.2.2 = [] ∧ params = [] := by
  rw [getModeFromUrl, lastMode_printUrl h]
  cases lastMode base with
  | none => simp
  | some y =>
    obtain ⟨g, c, r⟩ := y
    cases r with
    | nil =>
      rw [queryPart]
      by_cases hnil : params = []
      · simp [hnil]
      · simp [hnil]
    | cons d r => simp

/-- A mode that is removed leaves a shorter text. -/
theorem length_anyUriModed_nil {s : Text} (h : lastMode s ≠ none) :
    (anyUriModed s []).length < s.length := by
  obtain ⟨⟨g, c, r⟩, hs⟩ := Option.ne_none_iff_exists'.mp h
  have heq := eq_of_lastMode hs
  have hany : anyUriModed s [] = without (g, c) (firstLine (r.dropWhile (· ≠ '&'))) := by
    rw [anyUriModed, hs]
    rfl
  have hle := length_without_le (g, c) (firstLine (r.dropWhile (· ≠ '&')))
  have hfirst : (firstLine (r.dropWhile (· ≠ '&'))).length ≤ r.length :=
    (List.takeWhile_sublist _).length_le.trans (List.dropWhile_sublist _).length_le
  have hlen : s.length = g.length + (("mode=".toList ++ r).length + 1) := by
    rw [heq, List.length_append, List.length_cons]
  rw [List.length_append] at hlen
  rw [hany]
  dsimp only at hle
  omega

/-! ## The laws -/

theorem exists_of_isMode {p : Text} (h : isMode p = true) : ∃ v, p = "mode=".toList ++ v := by
  rw [isMode, List.isPrefixOf_iff_prefix] at h
  obtain ⟨v, hv⟩ := h
  exact ⟨v, hv.symm⟩

theorem isMode_append (v : Text) : isMode ("mode=".toList ++ v) = true :=
  List.isPrefixOf_iff_prefix.mpr (List.prefix_append _ _)

theorem filter_not_mode_cons (v : Text) (post : List Text) :
    ((("mode=".toList ++ v) :: post).filter fun p => !isMode p) =
      post.filter fun p => !isMode p := by
  apply List.filter_cons_of_neg
  rw [isMode_append]
  decide

/-- The last mode. -/
theorem exists_last_mode {params : List Text} (h : params.filter isMode ≠ []) :
    ∃ pre v post, params = pre ++ ("mode=".toList ++ v) :: post ∧
      ∀ p ∈ post, isMode p = false := by
  induction params with
  | nil => exact absurd rfl h
  | cons p params ih =>
    by_cases hrest : params.filter isMode = []
    · have hp : isMode p = true := by
        by_contra hp
        rw [List.filter_cons_of_neg hp] at h
        exact h hrest
      obtain ⟨v, rfl⟩ := exists_of_isMode hp
      refine ⟨[], v, params, rfl, fun q hq => ?_⟩
      exact Bool.eq_false_iff.mpr (List.filter_eq_nil_iff.mp hrest q hq)
    · obtain ⟨pre, v, post, rfl, hpost⟩ := ih hrest
      exact ⟨p :: pre, v, post, rfl, hpost⟩

theorem filter_not_of_all {params : List Text} (h : ∀ p ∈ params, isMode p = false) :
    (params.filter fun p => !isMode p) = params := by
  rw [List.filter_eq_self]
  intro p hp
  rw [h p hp]
  rfl

section

variable {u : CgiUrl} (hq : ∀ p ∈ u.others, '?' ∉ p)

theorem CgiUrl.mem_others {p : Text} : p ∈ u.others ↔ p ∈ u.params ∧ isMode p = false := by
  rw [CgiUrl.others, List.mem_filter, Bool.not_eq_true']

include hq in
theorem CgiUrl.isOther {p : Text} (hp : p ∈ u.params) (hmode : isMode p = false) : IsOther p :=
  ⟨u.params_ok p hp, hq p (CgiUrl.mem_others.mpr ⟨hp, hmode⟩), hmode⟩

theorem CgiUrl.others_eq_params (h : u.modes = []) : u.others = u.params := by
  apply filter_not_of_all
  intro p hp
  exact Bool.eq_false_iff.mpr (List.filter_eq_nil_iff.mp h p hp)

theorem CgiUrl.amp_not_mem_others : ∀ p ∈ u.others, '&' ∉ p := fun p hp =>
  (u.params_ok p (CgiUrl.mem_others.mp hp).1).2.1

/-- A place inside the mode does not leave the other parameters alone. -/
theorem IsSpot.inside_ne_others {pre post : List Text} (S : IsSpot u.base pre post)
    {v g r : Text} {c : Char} (hv : lastMode v = some (g, c, r)) (hamp : '&' ∉ v) :
    anyUriModed (modeUrl u.base pre v post) [] ≠ printUrl u.base u.others := by
  intro h
  obtain ⟨g', post', hg', hpost', heq⟩ := S.anyUriModed_inside_nil hv hamp
  have S' : IsSpot u.base pre post' :=
    ⟨S.base_ok, S.pre_ok, fun p hp => S.post_ok p (hpost' p hp)⟩
  rw [h] at heq
  have hlist := printUrl_inj CgiUrl.amp_not_mem_others (S'.amp_not_mem hg') heq
  have hmem : "mode=".toList ++ g' ∈ u.others := by
    rw [hlist]
    simp
  have := (CgiUrl.mem_others.mp hmem).2
  rw [isMode_append] at this
  cases this

include hq in
/-- The place of the last mode. -/
theorem CgiUrl.exists_place (h : u.modes ≠ []) :
    ∃ pre v post, u.params = pre ++ ("mode=".toList ++ v) :: post ∧ '&' ∉ v ∧
      IsSpot u.base pre post := by
  obtain ⟨pre, v, post, hu, hpost⟩ := exists_last_mode h
  have hv : IsParam ("mode=".toList ++ v) := u.params_ok _ (by rw [hu]; simp)
  refine ⟨pre, v, post, hu, fun hm => hv.2.1 (List.mem_append_right _ hm), u.base_ok, ?_, ?_⟩
  · intro p hp
    exact u.params_ok p (by rw [hu]; exact List.mem_append_left _ hp)
  · intro p hp
    refine CgiUrl.isOther hq ?_ (hpost p hp)
    rw [hu]
    exact List.mem_append_right _ (List.mem_cons_of_mem _ hp)

include hq in
/-- When a mode is removed with no other trace, there was at most one. -/
theorem CgiUrl.modes_of_removed (h : anyUriModed u.text [] = printUrl u.base u.others) :
    u.modes = [] ∧ lastMode u.base = none ∨
      ∃ v, u.modes = ["mode=".toList ++ v] ∧ lastMode v = none := by
  by_cases hmodes : u.modes = []
  · left
    have hothers := CgiUrl.others_eq_params hmodes
    have hsame : anyUriModed u.text [] = u.text := by rw [h, hothers, CgiUrl.text]
    have hnone : lastMode u.text = none := by
      by_contra hne
      have hlt := length_anyUriModed_nil hne
      rw [hsame] at hlt
      exact lt_irrefl _ hlt
    have hall : ∀ p ∈ u.params, IsOther p := fun p hp =>
      CgiUrl.isOther hq hp (CgiUrl.mem_others.mp (hothers.symm ▸ hp)).2
    rw [CgiUrl.text, lastMode_printUrl hall, Option.map_eq_none_iff] at hnone
    exact ⟨hmodes, hnone⟩
  · right
    obtain ⟨pre, v, post, hu, hamp, S⟩ := CgiUrl.exists_place hq hmodes
    have htext : u.text = modeUrl u.base pre v post := by rw [CgiUrl.text, hu, modeUrl]
    have hv : lastMode v = none := by
      by_contra hne
      obtain ⟨⟨g, c, r⟩, hs⟩ := Option.ne_none_iff_exists'.mp hne
      rw [htext] at h
      exact S.inside_ne_others hs hamp h
    rw [htext, S.anyUriModed_modeUrl_nil hv hamp] at h
    have hamp' : ∀ p ∈ pre ++ post, '&' ∉ p := fun p hp =>
      S.amp_not_mem hamp p (by simp at hp ⊢; tauto)
    have hlist := printUrl_inj hamp' CgiUrl.amp_not_mem_others h
    have hno : ∀ p ∈ pre ++ post, ¬ isMode p = true := fun p hp =>
      Bool.eq_false_iff.mp (CgiUrl.mem_others.mp (hlist ▸ hp)).2
    have hpre := List.filter_eq_nil_iff.mpr fun p hp => hno p (List.mem_append_left _ hp)
    have hpost := List.filter_eq_nil_iff.mpr fun p hp => hno p (List.mem_append_right _ hp)
    refine ⟨v, ?_, hv⟩
    rw [CgiUrl.modes, hu, List.filter_append, hpre,
      List.filter_cons_of_pos (isMode_append v), hpost]
    rfl

/-- **The place of the mode**: where it is set, and what is left around it. -/
structure IsPlace (u : CgiUrl) (pre post : List Text) : Prop where
  spot : IsSpot u.base pre post
  others_eq : u.others = pre ++ post
  removed : anyUriModed u.text [] = printUrl u.base u.others
  set : ∀ m, m ≠ [] → anyUriModed u.text m = modeUrl u.base pre m post

include hq in
/-- There is a place for the mode. -/
theorem CgiUrl.exists_isPlace (h : u.modes = [] ∧ lastMode u.base = none ∨
    ∃ v, u.modes = ["mode=".toList ++ v] ∧ lastMode v = none) :
    ∃ pre post, IsPlace u pre post := by
  obtain ⟨hmodes, hbase⟩ | ⟨v, hmodes, hv⟩ := h
  · have hothers := CgiUrl.others_eq_params hmodes
    have hall : ∀ p ∈ u.params, IsOther p := fun p hp =>
      CgiUrl.isOther hq hp (CgiUrl.mem_others.mp (hothers.symm ▸ hp)).2
    have hnone : lastMode u.text = none := by
      rw [CgiUrl.text, lastMode_printUrl hall, hbase, Option.map_none]
    refine ⟨u.params, [], ⟨u.base_ok, u.params_ok, by simp⟩, by rw [hothers, List.append_nil],
      ?_, ?_⟩
    · rw [anyUriModed, hnone, hothers]
      rfl
    · intro m hm
      rw [anyUriModed, hnone]
      dsimp only
      rw [if_pos hm, CgiUrl.text, concatenateCgi_printUrl u.base_ok.1, modeUrl]
  · obtain ⟨pre, v', post, hu, hamp, S⟩ := CgiUrl.exists_place hq (by rw [hmodes]; simp)
    have hfilter : pre.filter isMode ++ ("mode=".toList ++ v') :: post.filter isMode =
        ["mode=".toList ++ v] := by
      rw [← hmodes, CgiUrl.modes, hu, List.filter_append,
        List.filter_cons_of_pos (isMode_append v')]
    obtain ⟨hpre, hrest⟩ : pre.filter isMode = [] ∧ "mode=".toList ++ v' = "mode=".toList ++ v := by
      cases hpre : pre.filter isMode with
      | nil =>
        rw [hpre] at hfilter
        exact ⟨rfl, (List.cons.inj hfilter).1⟩
      | cons p ps =>
        rw [hpre] at hfilter
        have := congrArg List.length hfilter
        simp at this
    obtain rfl := List.append_cancel_left hrest
    have htext : u.text = modeUrl u.base pre v' post := by rw [CgiUrl.text, hu, modeUrl]
    have hothers : u.others = pre ++ post := by
      have hpre' := filter_not_of_all fun p hp =>
        Bool.eq_false_iff.mpr (List.filter_eq_nil_iff.mp hpre p hp)
      have hpost' := filter_not_of_all fun p hp => (S.post_ok p hp).2.2
      rw [CgiUrl.others, hu, List.filter_append, hpre', filter_not_mode_cons, hpost']
    refine ⟨pre, post, S, hothers, ?_, ?_⟩
    · rw [htext, S.anyUriModed_modeUrl_nil hv hamp, hothers]
    · intro m hm
      rw [htext, S.anyUriModed_modeUrl hv hamp hm]

end

namespace IsPlace

variable {u : CgiUrl} {pre post : List Text} (P : IsPlace u pre post)
  (hq : ∀ p ∈ u.others, '?' ∉ p) {m' m : Text} (hm' : '&' ∉ m')

include P hq in
/-- The mode has no question mark, when there is only one. -/
theorem count_set (hne : m ≠ []) : (anyUriModed u.text m).count '?' = 1 ↔ '?' ∉ m := by
  rw [P.set m hne, modeUrl, count_printUrl P.spot.base_ok.1 (by simp)]
  constructor
  · intro h hmem
    exact h ("mode=".toList ++ m) (by simp) (List.mem_append_right _ hmem)
  · intro hno p hp
    rw [List.mem_append, List.mem_cons] at hp
    obtain hp | rfl | hp := hp
    · exact hq p (P.others_eq ▸ List.mem_append_left _ hp)
    · rw [List.mem_append, not_or]
      exact ⟨by decide, hno⟩
    · exact hq p (P.others_eq ▸ List.mem_append_right _ hp)

include P hm' in
/-- The mode set before is overwritten exactly when the search does not stop inside it. -/
theorem twice_iff (hne : m' ≠ []) :
    anyUriModed (anyUriModed u.text m') m = anyUriModed u.text m ↔ lastMode m' = none := by
  rw [P.set m' hne]
  constructor
  · intro h
    by_contra hsome
    obtain ⟨⟨g, c, r⟩, hs⟩ := Option.ne_none_iff_exists'.mp hsome
    by_cases hem : m = []
    · rw [hem, P.removed] at h
      exact P.spot.inside_ne_others hs hm' h
    · rw [P.set m hem] at h
      exact P.spot.anyUriModed_inside_ne hs hm' hem h
  · intro hnone
    by_cases hem : m = []
    · rw [hem, P.spot.anyUriModed_modeUrl_nil hnone hm', P.removed, P.others_eq]
    · rw [P.spot.anyUriModed_modeUrl hnone hm' hem, P.set m hem]

include P in
/-- The other parameters stay, in their order. -/
theorem kept (hm : '&' ∉ m) (hne : m ≠ []) :
    ∃ params, anyUriModed u.text m = printUrl u.base params ∧
      (params.filter fun p => !isMode p) = u.others ∧ ∀ p ∈ params, p ≠ [] ∧ '&' ∉ p := by
  refine ⟨_, P.set m hne, ?_, fun p hp => ⟨?_, P.spot.amp_not_mem hm p hp⟩⟩
  · have hmode : ∀ p ∈ u.others, isMode p = false := fun p hp => (CgiUrl.mem_others.mp hp).2
    have hfil := filter_not_of_all hmode
    rw [P.others_eq, List.filter_append] at hfil
    rw [List.filter_append, filter_not_mode_cons, hfil, P.others_eq]
  · rw [List.mem_append, List.mem_cons] at hp
    obtain hp | rfl | hp := hp
    · exact (P.spot.pre_ok p hp).1
    · exact List.cons_ne_nil _ _
    · exact (P.spot.post_ok p hp).1.1

end IsPlace

/-- A parameter, and a mode. -/
def modedUrl : CgiUrl where
  base := "/entity.py".toList
  params := ["xid=file".toList, "mode=svg".toList]
  base_ok := by decide
  params_ok := by
    simp only [IsParam]
    decide

/-- Two modes. -/
def twoModes : CgiUrl where
  base := "/entity.py".toList
  params := ["mode=svg".toList, "mode=html".toList]
  base_ok := by decide
  params_ok := by
    simp only [IsParam]
    decide

end Survol.Uris
