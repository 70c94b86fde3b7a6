import Survol.Uris.Joining
import Survol.Uris.Naming

/-!
# Universal aliases

The alias of an object depends neither on the port of the server, nor on its path, nor on the
display mode, nor on the script that runs the others. It joins the values of the object with
commas, which a value may have too.

## Main definitions

* `ObjectUrl` — a URL of an object, in one of its forms.
* `ObjectUrl.IsFull` — the object has the keys of its class.
* `AliasesAgree` — the aliases of two URLs are those of their objects.
* `Regrouped` — the values of two objects are the same pieces, grouped differently.
-/

namespace Survol.Uris

open PyText (Text splitOn)
open Percent (unquote)

/-! ## URLs of objects -/

/-- An argument of a URL has no delimiter. -/
def IsArg (s : Text) : Prop := ∀ c ∈ s, c ≠ '?' ∧ c ≠ '#' ∧ c ≠ '&' ∧ c ≠ '\n'

instance (s : Text) : Decidable (IsArg s) := inferInstanceAs (Decidable (∀ c ∈ s, _))

/-- A URL of an object. -/
structure ObjectUrl where
  /-- Whether the scheme is the secure one. -/
  secure : Bool
  host : Text
  port : Option Text
  /-- The path of the server. -/
  dir : Text
  /-- Whether the script is run by the CGI script, and whether it is its first argument. -/
  runner : Option Bool
  /-- The display mode, and its place in the arguments. -/
  mode : Option (ℕ × Text)
  entityType : Text
  entityId : Text
  isHost : host ≠ [] ∧ host.all isDomainChar = true
  isPort : ∀ p ∈ port, p.all isKeyChar = true
  isDir : (∀ c ∈ dir.head?, c = '/') ∧ IsArg dir
  isMode : ∀ m ∈ mode, IsArg m.2
  isClass : isClassName entityType = true
  isId : IsArg entityId
  /-- The object is one of this machine. -/
  isLocal : '@' ∉ entityId ∨ IsMoniker entityId

/-- The location of the server. -/
def ObjectUrl.netloc (u : ObjectUrl) : Text :=
  u.host ++ match u.port with
    | some p => ':' :: p
    | none => []

/-- The argument of the object. -/
def xidArg (entityType entityId : Text) : Text :=
  "xid=".toList ++ (entityType ++ '.' :: entityId)

/-- The argument of the script. -/
def scriptArg : Text := "script=/entity.py".toList

/-- The script, and its arguments without the mode. -/
def ObjectUrl.script (u : ObjectUrl) : Text × List Text :=
  match u.runner with
  | none => ("entity.py".toList, [xidArg u.entityType u.entityId])
  | some true => ("survolcgi.py".toList, [scriptArg, xidArg u.entityType u.entityId])
  | some false => ("survolcgi.py".toList, [xidArg u.entityType u.entityId, scriptArg])

/-- The arguments of the script. -/
def ObjectUrl.args (u : ObjectUrl) : List Text :=
  match u.mode with
  | some (i, m) => u.script.2.take i ++ ("mode=".toList ++ m) :: u.script.2.drop i
  | none => u.script.2

/-- The text of a server, a script and its arguments. -/
def urlText (secure : Bool) (netloc dir file : Text) (args : List Text) : Text :=
  schemeText secure ++ (netloc ++ (dir ++ '/' :: (file ++ '?' :: join "&".toList args)))

/-- The text of a URL of an object. -/
def ObjectUrl.text (u : ObjectUrl) : Text := urlText u.secure u.netloc u.dir u.script.1 u.args

/-! ## The aliases of an object -/

/-- The values of the object of a URL. -/
def ObjectUrl.values (N : Naming) (u : ObjectUrl) : List Text :=
  entityIdsArr (N.ontologyClassKeys u.entityType) (splitMoniker (unquote u.entityId))

/-- The object of a URL has the keys of its class, and no others. -/
def ObjectUrl.IsFull (N : Naming) (u : ObjectUrl) : Prop :=
  ∀ k, k ∈ Dict.keys (splitMoniker (unquote u.entityId)) ↔ k ∈ N.ontologyClassKeys u.entityType

/-- Two URLs of one object have one alias, and two objects have two, whatever aliases were asked
before. -/
def AliasesAgree (N : Naming) (us vs : List Text) (u v : ObjectUrl) : Prop :=
  ∃ a b, aliasAfter N us u.text = some a ∧ aliasAfter N vs v.text = some b ∧
    (u.entityType = v.entityType ∧ u.entityId = v.entityId → a = b) ∧
    (u.entityType ≠ v.entityType ∨ u.values N ≠ v.values N → a ≠ b)

/-- The values of two objects of one class differ, but not the pieces between their commas. -/
def Regrouped (N : Naming) (u v : ObjectUrl) : Prop :=
  u.entityType = v.entityType ∧ u.values N ≠ v.values N ∧
    (u.values N).flatMap (splitOn ',') = (v.values N).flatMap (splitOn ',')

/-! ## Arguments -/

theorem IsArg.append {x y : Text} (hx : IsArg x) (hy : IsArg y) : IsArg (x ++ y) := by
  intro c hc
  obtain hc | hc := List.mem_append.mp hc
  · exact hx c hc
  · exact hy c hc

theorem IsArg.cons {c : Char} {y : Text} (hc : c ≠ '?' ∧ c ≠ '#' ∧ c ≠ '&' ∧ c ≠ '\n')
    (hy : IsArg y) : IsArg (c :: y) := by
  intro d hd
  obtain rfl | hd := List.mem_cons.mp hd
  · exact hc
  · exact hy d hd

theorem IsArg.not_mem {x : Text} (h : IsArg x) : '?' ∉ x ∧ '#' ∉ x ∧ '&' ∉ x ∧ '\n' ∉ x :=
  ⟨fun hm => (h _ hm).1 rfl, fun hm => (h _ hm).2.1 rfl, fun hm => (h _ hm).2.2.1 rfl,
    fun hm => (h _ hm).2.2.2 rfl⟩

theorem isArg_of_not_mem {x : Text} (h : ∀ c ∈ "?#&\n".toList, c ∉ x) : IsArg x := by
  intro c hc
  refine ⟨?_, ?_, ?_, ?_⟩ <;> rintro rfl <;> exact h _ (by decide) hc

theorem isArg_of_isClassName {cls : Text} (h : isClassName cls = true) : IsArg cls := by
  apply isArg_of_not_mem
  intro c hc
  have hno : ∀ c ∈ "?#&\n".toList, isClassChar c = false := by decide
  exact not_mem_of_isClassName h (hno c hc)

theorem isArg_xidArg (u : ObjectUrl) : IsArg (xidArg u.entityType u.entityId) :=
  IsArg.append (by decide) ((isArg_of_isClassName u.isClass).append (IsArg.cons (by decide) u.isId))

/-- A list of arguments, where none is a mode or an ampersand's name. -/
def ArePlain (args : List Text) : Prop :=
  ∀ a ∈ args, IsArg a ∧ ¬ "mode=".toList <+: a ∧ a.head? ≠ some 'a' ∧ a ≠ []

theorem arePlain_script (u : ObjectUrl) : ArePlain u.script.2 ∧ u.script.2 ≠ [] := by
  have hxid : IsArg (xidArg u.entityType u.entityId) ∧
      ¬ "mode=".toList <+: xidArg u.entityType u.entityId ∧
        (xidArg u.entityType u.entityId).head? ≠ some 'a' ∧
          xidArg u.entityType u.entityId ≠ [] := by
    refine ⟨isArg_xidArg u, ?_, ?_, List.cons_ne_nil _ _⟩
    · rintro ⟨t, ht⟩
      cases ht
    · intro h
      cases h
  have hscript : IsArg scriptArg ∧ ¬ "mode=".toList <+: scriptArg ∧
      scriptArg.head? ≠ some 'a' ∧ scriptArg ≠ [] := by decide
  rw [ObjectUrl.script]
  split
  · exact ⟨by simpa [ArePlain] using hxid, by simp⟩
  · exact ⟨by simpa [ArePlain] using ⟨hscript, hxid⟩, by simp⟩
  · exact ⟨by simpa [ArePlain] using ⟨hxid, hscript⟩, by simp⟩

/-! ## Escaped ampersands -/

theorem replaceAmp_amp {y : Text} (h : y.head? ≠ some 'a') :
    replaceAmp ('&' :: y) = '&' :: replaceAmp y := by
  rw [replaceAmp]
  intro s _ hs
  exact h (by rw [hs]; rfl)

theorem replaceAmp_join {args : List Text} (h : ∀ a ∈ args, '&' ∉ a ∧ a ≠ [] ∧ a.head? ≠ some 'a') :
    replaceAmp (join "&".toList args) = join "&".toList args := by
  induction args with
  | nil => rfl
  | cons a args ih =>
    obtain ⟨ha, -, -⟩ := h a List.mem_cons_self
    match args, h, ih with
    | [], _, _ =>
      have := replaceAmp_append ha []
      simpa [join, replaceAmp] using this
    | b :: args, h, ih =>
      obtain ⟨-, hb, hhead⟩ := h b (by simp)
      have hjoin : (join "&".toList (b :: args)).head? ≠ some 'a' := by
        cases args with
        | nil => exact hhead
        | cons d args =>
          rw [join_cons_cons, List.append_assoc, List.head?_append_of_ne_nil _ hb]
          exact hhead
      have ih := ih fun a' ha' => h a' (List.mem_cons_of_mem a ha')
      rw [join_cons_cons, List.append_assoc, replaceAmp_append ha]
      exact congrArg (a ++ ·) ((replaceAmp_amp hjoin).trans (congrArg ('&' :: ·) ih))

theorem urlNoAmp_args {base : Text} (hbase : '&' ∉ base) {args : List Text}
    (h : ∀ a ∈ args, '&' ∉ a ∧ a ≠ [] ∧ a.head? ≠ some 'a') :
    urlNoAmp (base ++ join "&".toList args) = base ++ join "&".toList args := by
  rw [urlNoAmp_append hbase, urlNoAmp, replaceAmp_join h, replaceAmp_join h]

/-! ## The mode -/

theorem lastMode_append_of_none {x t : Text} (hx : '?' ∉ x ∧ '&' ∉ x) (ht : lastMode t = none) :
    lastMode (x ++ t) = none := by
  induction x with
  | nil => exact ht
  | cons c x ih =>
    have hc : (c = '?' || c = '&') = false := by
      have h1 : c ≠ '?' := fun he => hx.1 (he ▸ List.mem_cons_self)
      have h2 : c ≠ '&' := fun he => hx.2 (he ▸ List.mem_cons_self)
      simp [h1, h2]
    have ih := ih ⟨fun hm => hx.1 (List.mem_cons_of_mem c hm),
      fun hm => hx.2 (List.mem_cons_of_mem c hm)⟩
    rw [List.cons_append, lastMode, ih]
    simp [hc]

theorem lastMode_of_not_mem {x : Text} (hx : '?' ∉ x ∧ '&' ∉ x) : lastMode x = none := by
  have := lastMode_append_of_none hx (t := []) rfl
  rwa [List.append_nil] at this

theorem lastMode_append_of_some {x t g r : Text} {c : Char} (hx : '\n' ∉ x)
    (ht : lastMode t = some (g, c, r)) : lastMode (x ++ t) = some (x ++ g, c, r) := by
  induction x with
  | nil => exact ht
  | cons d x ih =>
    have hd : d ≠ '\n' := fun he => hx (he ▸ List.mem_cons_self)
    rw [List.cons_append, lastMode, ih fun hm => hx (List.mem_cons_of_mem d hm), if_neg hd]
    rfl

theorem isPrefixOf_mode_join {args : List Text} (h : ArePlain args) (hne : args ≠ []) :
    "mode=".toList.isPrefixOf (join "&".toList args) = false := by
  match args, hne with
  | [a], _ =>
    rw [Bool.eq_false_iff, ne_eq, List.isPrefixOf_iff_prefix]
    exact (h a (by simp)).2.1
  | a :: b :: args, _ =>
    obtain ⟨ha, hmode, -⟩ := h a (by simp)
    rw [Bool.eq_false_iff, ne_eq, List.isPrefixOf_iff_prefix, join_cons_cons, List.append_assoc]
    intro hpre
    by_cases hlen : "mode=".toList.length ≤ a.length
    · exact hmode (List.prefix_of_prefix_length_le hpre (List.prefix_append _ _) hlen)
    · have hamp : a ++ "&".toList <+:
          a ++ ("&".toList ++ join "&".toList (b :: args)) := by
        rw [← List.append_assoc]
        exact List.prefix_append _ _
      have hle : (a ++ "&".toList).length ≤ "mode=".toList.length := by
        have : "&".toList.length = 1 := rfl
        simp only [List.length_append]
        omega
      have hsub := List.prefix_of_prefix_length_le hamp hpre hle
      have : '&' ∈ "mode=".toList := hsub.subset (by simp)
      revert this
      decide

/-- Plain arguments have no mode. -/
theorem lastMode_join {args : List Text} (h : ArePlain args) {c : Char} :
    lastMode (c :: join "&".toList args) = none := by
  induction args generalizing c with
  | nil =>
    rw [join, lastMode, lastMode]
    simp
  | cons a args ih =>
    have ha := (h a List.mem_cons_self).1.not_mem
    have hrest : lastMode (join "&".toList (a :: args)) = none := by
      cases args with
      | nil => exact lastMode_of_not_mem ⟨ha.1, ha.2.2.1⟩
      | cons b args =>
        rw [join_cons_cons, List.append_assoc]
        apply lastMode_append_of_none ⟨ha.1, ha.2.2.1⟩
        exact ih fun a' ha' => h a' (List.mem_cons_of_mem a ha')
    rw [lastMode, hrest, isPrefixOf_mode_join h (by simp)]
    simp

/-- What follows an argument. -/
def afterArg (post : List Text) : Text :=
  match post with
  | [] => []
  | b :: post => '&' :: join "&".toList (b :: post)

theorem join_cons (a : Text) (post : List Text) :
    join "&".toList (a :: post) = a ++ afterArg post := by
  cases post with
  | nil => exact (List.append_nil a).symm
  | cons b post =>
    rw [join_cons_cons, List.append_assoc]
    rfl

theorem join_append {pre post : List Text} (h : pre ≠ []) :
    join "&".toList (pre ++ post) = join "&".toList pre ++ afterArg post := by
  induction pre with
  | nil => exact absurd rfl h
  | cons a pre ih =>
    cases pre with
    | nil => exact join_cons a post
    | cons b pre =>
      rw [List.cons_append, List.cons_append, join_cons_cons, join_cons_cons, ← List.cons_append,
        ih (by simp)]
      simp only [List.append_assoc]

theorem lastMode_mode {m : Text} (hm : IsArg m) {post : List Text} (h : ArePlain post) {c : Char}
    (hc : c = '?' ∨ c = '&') :
    lastMode (c :: join "&".toList (("mode=".toList ++ m) :: post)) =
      some ([], c, m ++ afterArg post) := by
  have hm := hm.not_mem
  have hafter : lastMode (afterArg post) = none := by
    cases post with
    | nil => rfl
    | cons b post => exact lastMode_join h
  have hrest : lastMode (("mode=".toList ++ m) ++ afterArg post) = none := by
    apply lastMode_append_of_none _ hafter
    simp [hm.1, hm.2.2.1]
  have hnl : c ≠ '\n' := by
    obtain rfl | rfl := hc <;> decide
  have hsep : (decide (c = '?') || decide (c = '&')) = true := by simpa using hc
  have hpre : "mode=".toList.isPrefixOf (("mode=".toList ++ m) ++ afterArg post) = true := by
    rw [List.append_assoc]
    exact List.isPrefixOf_iff_prefix.mpr (List.prefix_append _ _)
  rw [join_cons, lastMode, hrest, if_neg hnl, hsep, hpre]
  rfl

theorem not_mem_join {c : Char} (hc : c ≠ '&') {args : List Text} (h : ∀ a ∈ args, c ∉ a) :
    c ∉ join "&".toList args := by
  induction args with
  | nil => simp [join]
  | cons a args ih =>
    have ih := ih fun a' ha' => h a' (List.mem_cons_of_mem a ha')
    have ha := h a List.mem_cons_self
    cases args with
    | nil => exact ha
    | cons b args =>
      rw [join_cons_cons]
      simp only [List.mem_append, not_or]
      refine ⟨⟨ha, ?_⟩, ih⟩
      simpa using hc

/-- The mode is taken out of the arguments. -/
theorem anyUriModed_mode {base m : Text} (hbase : '\n' ∉ base) (hm : IsArg m)
    {pre post : List Text} (hpre : ArePlain pre) (hpost : ArePlain post) (hne : pre ++ post ≠ []) :
    anyUriModed (base ++ '?' :: join "&".toList (pre ++ ("mode=".toList ++ m) :: post)) [] =
      base ++ '?' :: join "&".toList (pre ++ post) := by
  have hgroup : firstLine ((m ++ afterArg post).dropWhile (· ≠ '&')) = afterArg post := by
    have hall : ∀ c ∈ m, decide (c ≠ '&') = true := by
      intro c hc
      simpa using (hm c hc).2.2.1
    have hline : '\n' ∉ afterArg post := by
      cases post with
      | nil => simp [afterArg]
      | cons b post =>
        have := not_mem_join (by decide) fun a ha => (hpost a ha).1.not_mem.2.2.2
        simpa [afterArg] using this
    rw [List.dropWhile_append_of_pos hall]
    cases post with
    | nil => rfl
    | cons b post => exact firstLine_eq_self_iff.mpr hline
  cases pre with
  | nil =>
    have hlast := lastMode_append_of_some hbase
      (lastMode_mode hm hpost (Or.inl rfl : '?' = '?' ∨ '?' = '&'))
    rw [List.nil_append, anyUriModed, hlast]
    simp only [hgroup]
    cases post with
    | nil => exact absurd rfl hne
    | cons b post => simp [afterArg]
  | cons a pre =>
    have hlast : lastMode (base ++ '?' ::
        join "&".toList (a :: pre ++ ("mode=".toList ++ m) :: post)) =
          some (base ++ '?' :: join "&".toList (a :: pre), '&', m ++ afterArg post) := by
      have hline : '\n' ∉ base ++ '?' :: join "&".toList (a :: pre) := by
        have := not_mem_join (by decide) fun a ha => (hpre a ha).1.not_mem.2.2.2
        simp only [List.mem_append, List.mem_cons, not_or]
        exact ⟨hbase, by decide, this⟩
      have := lastMode_append_of_some hline
        (lastMode_mode hm hpost (Or.inr rfl : '&' = '?' ∨ '&' = '&'))
      rw [join_append (List.cons_ne_nil a pre)]
      simpa [afterArg] using this
    rw [anyUriModed, hlast]
    simp only [hgroup]
    rw [join_append (List.cons_ne_nil a pre)]
    simp

/-! ## The parts of a URL -/

theorem partition_append {c : Char} {x : Text} (hx : c ∉ x) (y : Text) :
    partition c (x ++ c :: y) = (x, y) := by
  have hall := forall_ne_of_not_mem hx
  rw [partition, takeWhile_append_cons hall (by simp), dropWhile_append_cons hall (by simp)]
  rfl

theorem partition_of_not_mem {c : Char} {x : Text} (hx : c ∉ x) : partition c x = (x, []) := by
  have hall := forall_ne_of_not_mem hx
  rw [partition, List.takeWhile_eq_self_iff.mpr hall, List.dropWhile_eq_nil_iff.mpr hall]
  rfl

theorem takeWhile_reverse {file : Text} (h : '/' ∉ file) (dir : Text) :
    ((dir ++ '/' :: file).reverse.takeWhile (· ≠ '/')) = file.reverse ∧
      ((dir ++ '/' :: file).reverse.dropWhile (· ≠ '/')) = '/' :: dir.reverse := by
  have hall : ∀ d ∈ file.reverse, decide (d ≠ '/') = true := by
    intro d hd
    have hne : d ≠ '/' := fun he => h (he ▸ List.mem_reverse.mp hd)
    simpa using hne
  have hrev : (dir ++ '/' :: file).reverse = file.reverse ++ '/' :: dir.reverse := by simp
  rw [hrev]
  exact ⟨takeWhile_append_cons hall (by decide) _, dropWhile_append_cons hall (by decide) _⟩

theorem basename_append {file : Text} (h : '/' ∉ file) (dir : Text) :
    basename (dir ++ '/' :: file) = file := by
  rw [basename, (takeWhile_reverse h dir).1, List.reverse_reverse]

theorem dirname_append {file : Text} (h : '/' ∉ file) (dir : Text) :
    dirname (dir ++ '/' :: file) = dir ++ ['/'] := by
  rw [dirname, (takeWhile_reverse h dir).2]
  simp

/-- The name of the scheme. -/
def schemeName (secure : Bool) : Text := (if secure then "https" else "http").toList

theorem splitScheme_schemeText (secure : Bool) (s : Text) :
    splitScheme (schemeText secure ++ s) = (schemeName secure, '/' :: '/' :: s) := by
  cases secure <;> rfl

/-- The name of a script. -/
def IsFile (file : Text) : Prop := IsArg file ∧ '/' ∉ file ∧ ';' ∉ file

/-- The location of a server has no end. -/
def IsNetloc (netloc : Text) : Prop := IsArg netloc ∧ '/' ∉ netloc

/-- **The parts of the URL of a script.** -/
theorem urlparse_urlText (secure : Bool) {netloc dir file : Text} (hnet : IsNetloc netloc)
    (hdir : (∀ c ∈ dir.head?, c = '/') ∧ IsArg dir) (hfile : IsFile file) {args : List Text}
    (hargs : ∀ a ∈ args, IsArg a) :
    urlparse (urlText secure netloc dir file args) =
      ⟨schemeName secure, netloc, dir ++ '/' :: file, [], join "&".toList args, []⟩ := by
  have hjoin : '#' ∉ join "&".toList args :=
    not_mem_join (by decide) fun a ha => (hargs a ha).not_mem.2.1
  have hall : ∀ c ∈ netloc, (!endsNetloc c) = true := by
    intro c hc
    have h1 := hnet.1 c hc
    have h2 : c ≠ '/' := fun he => hnet.2 (he ▸ hc)
    simp [endsNetloc, h1.1, h1.2.1, h2]
  have hloc : ∀ s, splitNetloc ('/' :: '/' :: (netloc ++ (dir ++ '/' :: s))) =
      (netloc, dir ++ '/' :: s) := by
    intro s
    rw [splitNetloc]
    match dir, hdir with
    | [], _ =>
      rw [List.nil_append, takeWhile_append_cons hall (by decide),
        dropWhile_append_cons hall (by decide)]
    | d :: dir, hdir =>
      obtain rfl : d = '/' := hdir.1 d rfl
      rw [List.cons_append, takeWhile_append_cons hall (by decide),
        dropWhile_append_cons hall (by decide)]
  have hfrag : '#' ∉ dir ++ '/' :: (file ++ '?' :: join "&".toList args) := by
    simp only [List.mem_append, List.mem_cons, not_or]
    exact ⟨hdir.2.not_mem.2.1, by decide, hfile.1.not_mem.2.1, by decide, hjoin⟩
  have hquery : partition '?' (dir ++ '/' :: (file ++ '?' :: join "&".toList args)) =
      (dir ++ '/' :: file, join "&".toList args) := by
    have hpath : '?' ∉ dir ++ '/' :: file := by
      simp [hdir.2.not_mem.1, hfile.1.not_mem.1]
    have := partition_append hpath (join "&".toList args)
    simpa using this
  have hparams : schemeName secure ∈ usesParams := by cases secure <;> decide
  rw [urlparse, urlText, splitScheme_schemeText]
  simp only [hloc, partition_of_not_mem hfrag, hquery, if_pos hparams,
    basename_append hfile.2.1, partition_of_not_mem hfile.2.2, dirname_append hfile.2.1,
    List.append_assoc, List.singleton_append]

/-! ## The label of a URL -/

/-- The text of a URL without its mode. -/
def ObjectUrl.modeless (u : ObjectUrl) : Text :=
  urlText u.secure u.netloc u.dir u.script.1 u.script.2

theorem isNetloc_netloc (u : ObjectUrl) : IsNetloc u.netloc := by
  have hno : ∀ c ∈ "?#&\n/".toList, isDomainChar c = false ∧ isKeyChar c = false ∧ c ≠ ':' := by
    decide
  have hmem : ∀ c ∈ "?#&\n/".toList, c ∉ u.netloc := by
    intro c hc hm
    obtain ⟨h1, h2, h3⟩ := hno c hc
    rw [ObjectUrl.netloc] at hm
    obtain hm | hm := List.mem_append.mp hm
    · exact not_mem_of_all u.isHost.2 h1 hm
    · cases hp : u.port with
      | none =>
        rw [hp] at hm
        cases hm
      | some p =>
        rw [hp] at hm
        obtain hm | hm := List.mem_cons.mp hm
        · exact h3 hm
        · exact not_mem_of_all (u.isPort p hp) h2 hm
  refine ⟨isArg_of_not_mem fun c hc => hmem c ?_, hmem '/' (by decide)⟩
  revert c
  decide

theorem isFile_script (u : ObjectUrl) : IsFile u.script.1 := by
  have hentity : IsFile "entity.py".toList := ⟨by decide, by decide, by decide⟩
  have hcgi : IsFile "survolcgi.py".toList := ⟨by decide, by decide, by decide⟩
  rw [ObjectUrl.script]
  split
  · exact hentity
  · exact hcgi
  · exact hcgi

/-- What stands before the arguments. -/
def ObjectUrl.base (u : ObjectUrl) : Text :=
  schemeText u.secure ++ (u.netloc ++ (u.dir ++ '/' :: u.script.1))

theorem urlText_eq (u : ObjectUrl) (args : List Text) :
    urlText u.secure u.netloc u.dir u.script.1 args = u.base ++ '?' :: join "&".toList args := by
  simp only [urlText, ObjectUrl.base, List.append_assoc, List.cons_append]

theorem not_mem_base (u : ObjectUrl) : '\n' ∉ u.base ∧ '&' ∉ u.base ∧ '?' ∉ u.base := by
  have hscheme : IsArg (schemeText u.secure) := by cases u.secure <;> decide
  have h : IsArg u.base := hscheme.append ((isNetloc_netloc u).1.append
    (u.isDir.2.append (IsArg.cons (by decide) (isFile_script u).1)))
  exact ⟨h.not_mem.2.2.2, h.not_mem.2.2.1, h.not_mem.1⟩

theorem ArePlain.take {args : List Text} (h : ArePlain args) (n : ℕ) : ArePlain (args.take n) :=
  fun a ha => h a (List.mem_of_mem_take ha)

theorem ArePlain.drop {args : List Text} (h : ArePlain args) (n : ℕ) : ArePlain (args.drop n) :=
  fun a ha => h a (List.mem_of_mem_drop ha)

theorem not_mem_args (u : ObjectUrl) : ∀ a ∈ u.args, '&' ∉ a ∧ a ≠ [] ∧ a.head? ≠ some 'a' := by
  have hscript : ∀ a ∈ u.script.2, '&' ∉ a ∧ a ≠ [] ∧ a.head? ≠ some 'a' := by
    intro a ha
    obtain ⟨harg, -, hhead, hne⟩ := (arePlain_script u).1 a ha
    exact ⟨harg.not_mem.2.2.1, hne, hhead⟩
  rw [ObjectUrl.args]
  split
  · rename_i i m hm
    intro a ha
    obtain ha | ha := List.mem_append.mp ha
    · exact hscript a (List.mem_of_mem_take ha)
    · obtain rfl | ha := List.mem_cons.mp ha
      · have harg := IsArg.append (x := "mode=".toList) (by decide) (u.isMode (i, m) hm)
        exact ⟨harg.not_mem.2.2.1, List.cons_ne_nil _ _, fun h => nomatch h⟩
      · exact hscript a (List.mem_of_mem_drop ha)
  · exact hscript

/-- The mode is taken out of a URL of an object. -/
theorem anyUriModed_text (u : ObjectUrl) : anyUriModed (urlNoAmp u.text) [] = u.modeless := by
  obtain ⟨hnl, hamp, hq⟩ := not_mem_base u
  obtain ⟨hplain, hne⟩ := arePlain_script u
  have hclean : urlNoAmp u.text = u.text := by
    have hbase : '&' ∉ u.base ++ ['?'] := by simp [hamp]
    have := urlNoAmp_args hbase (not_mem_args u)
    rw [ObjectUrl.text, urlText_eq]
    simpa only [List.append_assoc, List.singleton_append] using this
  rw [hclean, ObjectUrl.text, ObjectUrl.modeless, urlText_eq, urlText_eq, ObjectUrl.args]
  split
  · rename_i i m hm
    rw [anyUriModed_mode hnl (u.isMode (i, m) hm) (hplain.take i) (hplain.drop i)
      (by rwa [List.take_append_drop]), List.take_append_drop]
  · have hlast : lastMode (u.base ++ '?' :: join "&".toList u.script.2) = none := by
      apply lastMode_append_of_none ⟨hq, hamp⟩
      exact lastMode_join hplain
    rw [anyUriModed, hlast]
    rfl

theorem urlparse_modeless (u : ObjectUrl) : urlparse u.modeless =
    ⟨schemeName u.secure, u.netloc, u.dir ++ '/' :: u.script.1, [], join "&".toList u.script.2,
      []⟩ :=
  urlparse_urlText u.secure (isNetloc_netloc u) u.isDir (isFile_script u)
    fun a ha => ((arePlain_script u).1 a ha).1

theorem urlparse_text (u : ObjectUrl) : (urlparse u.text).netloc = u.netloc := by
  have hargs : ∀ a ∈ u.args, IsArg a := by
    have hscript : ∀ a ∈ u.script.2, IsArg a := fun a ha => ((arePlain_script u).1 a ha).1
    rw [ObjectUrl.args]
    split
    · rename_i i m hm
      intro a ha
      obtain ha | ha := List.mem_append.mp ha
      · exact hscript a (List.mem_of_mem_take ha)
      · obtain rfl | ha := List.mem_cons.mp ha
        · exact IsArg.append (by decide) (u.isMode (i, m) hm)
        · exact hscript a (List.mem_of_mem_drop ha)
    · exact hscript
  rw [ObjectUrl.text, urlparse_urlText u.secure (isNetloc_netloc u) u.isDir (isFile_script u) hargs]

theorem entityIpAddr_text (u : ObjectUrl) : entityIpAddr u.text = u.host.map Char.toLower := by
  have hcolon : ∀ c ∈ u.host, decide (c ≠ ':') = true := by
    intro c hc
    have hne : c ≠ ':' := by
      rintro rfl
      exact not_mem_of_all u.isHost.2 (by decide) hc
    simpa using hne
  rw [entityIpAddr, urlparse_text, ObjectUrl.netloc]
  cases u.port with
  | none => rw [List.append_nil, List.takeWhile_eq_self_iff.mpr hcolon]
  | some p => rw [takeWhile_append_cons hcolon (by decide)]

/-- The class and the moniker of an object of this machine are parsed. -/
theorem parseXid_object {cls e : Text} (h : isClassName cls = true) (hline : '\n' ∉ e)
    (he : '@' ∉ e ∨ IsMoniker e) : parseXid (cls ++ '.' :: e) = ⟨cls, unquote e, []⟩ := by
  obtain he | he := he
  · have hat : '@' ∉ cls ++ '.' :: e := by
      have := not_mem_of_isClassName h (c := '@') (by decide)
      simp [this, he]
    rw [parseXid, parseXidLocal, matchLocal_of_not_mem hat, matchClassId_append h,
      firstLine_eq_self_iff.mpr hline]
    rfl
  · rw [parseXid_append h he, firstLine_eq_self_iff.mpr hline]

/-- The label of the object of a URL, for a host. -/
def ObjectUrl.label (N : Naming) (u : ObjectUrl) (ip : Text) : Text :=
  entityToLabel N u.entityType (unquote u.entityId) ip

theorem entityToLabel_ne_nil {N : Naming} {cls id ip : Text} (hcls : cls ≠ [])
    (hno : N.universalAlias cls = none) (hip : ip ≠ []) : entityToLabel N cls id ip ≠ [] := by
  rw [entityToLabel]
  split
  · exact hcls
  · simp [hip, entityArrToAlias, hno]

theorem knownScriptToTitle_entity (N : Naming) (mode : Text) {label : Text} (h : label ≠ []) :
    knownScriptToTitle N "entity.py".toList mode [] (some label) = some label := by
  have h1 : "entity.py".toList ≠ "entity_mime.py".toList := by decide
  have h2 : "entity.py".toList ≠ "class_type_all.py".toList := by decide
  have h3 : (scriptsToTitles.find? fun p => p.1.toList = "entity.py".toList) =
      some ("entity.py", "") := by decide
  rw [knownScriptToTitle, if_neg h1, if_neg h2, h3]
  simp [h]

/-- The label of a URL whose script is the one of objects. -/
theorem parseEntityUriUpTo_direct {N : Naming} {u : ObjectUrl} (hu : u.runner = none) {ip : Text}
    (hno : N.universalAlias u.entityType = none) (hip : ip ≠ []) (n : ℕ) :
    parseEntityUriUpTo N (n + 1) u.text true ip =
      some (u.label N ip, u.entityType, unquote u.entityId) := by
  have hscript : u.script = ("entity.py".toList, [xidArg u.entityType u.entityId]) := by
    rw [ObjectUrl.script, hu]
  have hfile : basename (u.dir ++ '/' :: "entity.py".toList) = "entity.py".toList :=
    basename_append (by decide) _
  have hcls : u.entityType ≠ [] := by
    intro h
    have := u.isClass
    rw [h] at this
    cases this
  have hcolon : ':' ∉ u.entityType := not_mem_of_isClassName u.isClass (by decide)
  have hlabel : u.label N ip ≠ [] := entityToLabel_ne_nil hcls hno hip
  have hxid := parseXid_object u.isClass u.isId.not_mem.2.2.2 u.isLocal
  have hquery : join "&".toList [xidArg u.entityType u.entityId] =
      "xid=".toList ++ (u.entityType ++ '.' :: u.entityId) := rfl
  have hpre : "xid=".toList.isPrefixOf ("xid=".toList ++ (u.entityType ++ '.' :: u.entityId)) =
      true := List.isPrefixOf_iff_prefix.mpr (List.prefix_append _ _)
  have hdrop : ("xid=".toList ++ (u.entityType ++ '.' :: u.entityId)).drop 4 =
      u.entityType ++ '.' :: u.entityId := rfl
  have hcgi : "entity.py".toList ≠ "survolcgi.py".toList := by decide
  rw [parseEntityUriUpTo]
  simp only [anyUriModed_text, urlparse_modeless, hscript, hfile, hquery]
  rw [if_neg hcgi, if_pos hpre]
  simp only [hdrop, hxid, parseNamespaceType_of_not_mem hcolon, if_pos (Or.inl hcls)]
  rw [← ObjectUrl.label, if_neg hlabel, if_pos trivial, knownScriptToTitle_entity N _ hlabel]
  rfl

/-- The URL that the CGI script runs. -/
def ObjectUrl.run (u : ObjectUrl) : ObjectUrl :=
  { u with dir := [], runner := none, mode := none, isDir := ⟨nofun, nofun⟩, isMode := nofun }

theorem scriptArgs_cgi {u : ObjectUrl} {b : Bool} (hu : u.runner = some b) (s n p f g : Text) :
    scriptArgs ⟨s, n, p, f, join "&".toList u.script.2, g⟩ =
      ("/entity.py".toList, '?' :: xidArg u.entityType u.entityId) := by
  have hno : '&' ∉ xidArg u.entityType u.entityId := (isArg_xidArg u).not_mem.2.2.1
  have hargs : ∀ a ∈ u.script.2, '&' ∉ a ∧ a ≠ [] ∧ a.head? ≠ some 'a' := by
    intro a ha
    obtain ⟨harg, -, hhead, hne⟩ := (arePlain_script u).1 a ha
    exact ⟨harg.not_mem.2.2.1, hne, hhead⟩
  have hclean : urlNoAmp (join "&".toList u.script.2) = join "&".toList u.script.2 :=
    urlNoAmp_args List.not_mem_nil hargs
  have hsno : '&' ∉ scriptArg := by decide
  have hname : (xidArg u.entityType u.entityId).takeWhile (· ≠ '=') = "xid".toList := rfl
  have hsname : scriptArg.takeWhile (· ≠ '=') = "script".toList := rfl
  have hne : "xid".toList ≠ "script".toList := by decide
  rw [scriptArgs]
  simp only [hclean]
  rw [ObjectUrl.script, hu]
  cases b with
  | true =>
    have hsplit : splitOn '&' (join "&".toList [scriptArg, xidArg u.entityType u.entityId]) =
        [scriptArg, xidArg u.entityType u.entityId] :=
      splitOn_join_of_not_mem (List.cons_ne_nil _ _)
        (List.forall_mem_cons.mpr ⟨hsno, List.forall_mem_singleton.mpr hno⟩)
    simp only [hsplit]
    rw [List.foldl_cons, List.foldl_cons, List.foldl_nil]
    simp only [hname, hsname, if_true, if_neg hne]
    rfl
  | false =>
    have hsplit : splitOn '&' (join "&".toList [xidArg u.entityType u.entityId, scriptArg]) =
        [xidArg u.entityType u.entityId, scriptArg] :=
      splitOn_join_of_not_mem (List.cons_ne_nil _ _)
        (List.forall_mem_cons.mpr ⟨hno, List.forall_mem_singleton.mpr hsno⟩)
    simp only [hsplit]
    rw [List.foldl_cons, List.foldl_cons, List.foldl_nil]
    simp only [hname, hsname, if_true, if_neg hne]
    rfl

/-- **The label of a URL of an object is the label of the object**, in every form of the URL. -/
theorem parseEntityUriUpTo_text {N : Naming} (u : ObjectUrl) {ip : Text}
    (hno : N.universalAlias u.entityType = none) (hip : ip ≠ []) (n : ℕ) :
    parseEntityUriUpTo N (n + 2) u.text true ip =
      some (u.label N ip, u.entityType, unquote u.entityId) := by
  cases hu : u.runner with
  | none => exact parseEntityUriUpTo_direct hu hno hip (n + 1)
  | some b =>
    have hfile : u.script.1 = "survolcgi.py".toList := by
      rw [ObjectUrl.script, hu]
      cases b <;> rfl
    have hbase : basename (u.dir ++ '/' :: "survolcgi.py".toList) = "survolcgi.py".toList :=
      basename_append (by decide) _
    have hrun : schemeName u.secure ++ "://".toList ++ u.netloc ++ "/entity.py".toList ++
        '?' :: xidArg u.entityType u.entityId = u.run.text := by
      have hscheme : schemeName u.secure ++ "://".toList = schemeText u.secure := by
        cases u.secure <;> rfl
      rw [hscheme]
      simp [ObjectUrl.text, ObjectUrl.run, urlText, ObjectUrl.script, ObjectUrl.args, join,
        ObjectUrl.netloc]
    have hrebuilt : urlRebuilt? ⟨schemeName u.secure, u.netloc,
        u.dir ++ '/' :: "survolcgi.py".toList, [], join "&".toList u.script.2, []⟩ =
          some u.run.text := by
      rw [urlRebuilt?, scriptArgs_cgi hu]
      simp only [← hrun]
      rfl
    have := parseEntityUriUpTo_direct (N := N) (u := u.run) rfl hno hip n
    rw [parseEntityUriUpTo]
    simp only [anyUriModed_text, urlparse_modeless, hfile, hbase, if_true, hrebuilt]
    exact this

/-! ## The agreement of aliases -/

/-- The alias of a URL of an object. -/
theorem aliasAfter_text {N : Naming} (us : List Text) (u : ObjectUrl)
    (hno : N.universalAlias u.entityType = none) :
    aliasAfter N us u.text = some (u.label N (u.host.map Char.toLower)) := by
  have hip : u.host.map Char.toLower ≠ [] := by simpa using u.isHost.1
  obtain ⟨n, hn⟩ : ∃ n, u.text.length + 1 = n + 2 := by
    have hne : u.text ≠ [] := by
      rw [ObjectUrl.text, urlText]
      cases u.secure <;> exact List.cons_ne_nil _ _
    have := List.length_pos_iff.mpr hne
    exact ⟨u.text.length - 1, by omega⟩
  rw [aliasAfter_eq, makeUniversalAliasNoCache, entityIpAddr_text, parseEntityUri, hn,
    parseEntityUriUpTo_text u hno hip n]
  rfl

/-- The label of an object that has the keys of its class. -/
theorem label_of_isFull {N : Naming} {u : ObjectUrl} (hno : N.universalAlias u.entityType = none)
    (hfull : u.IsFull N) {ip : Text} (hip : ip ≠ []) : u.label N ip =
      if unquote u.entityId = [] then u.entityType
      else ip ++ '@' :: (u.entityType ++ ':' :: join ",".toList (u.values N)) := by
  have hextra : (splitMoniker (unquote u.entityId)).filter
      (fun p => p.1 ∉ N.ontologyClassKeys u.entityType) = [] := by
    rw [List.filter_eq_nil_iff]
    intro p hp
    have := (hfull p.1).mp (List.mem_map_of_mem hp)
    simpa using this
  rw [ObjectUrl.label, entityToLabel]
  split
  · rfl
  · simp only [hextra, entityArrToAlias, hno]
    simp [ObjectUrl.values]

/-- An object without a text has no values. -/
theorem values_of_empty {N : Naming} {u : ObjectUrl} (hfull : u.IsFull N)
    (hid : unquote u.entityId = []) : u.values N = [] := by
  have hkeys : N.ontologyClassKeys u.entityType = [] := by
    rw [List.eq_nil_iff_forall_not_mem]
    intro k hk
    have := (hfull k).mpr hk
    rw [hid] at this
    cases this
  rw [ObjectUrl.values, hkeys]
  rfl

theorem length_values (N : Naming) (u : ObjectUrl) :
    (u.values N).length = (N.ontologyClassKeys u.entityType).length := by
  rw [ObjectUrl.values, entityIdsArr, List.length_map]

theorem values_eq_nil_of_eq {N : Naming} {u v : ObjectUrl} (h : u.entityType = v.entityType)
    (hu : u.values N = []) : v.values N = [] := by
  have := length_values N u
  rw [hu, h, ← length_values N v] at this
  exact List.length_eq_zero_iff.mp this.symm

/-- The text before a first separator, and after it. -/
theorem append_cons_inj {c : Char} {x x' y y' : Text} (hx : c ∉ x) (hx' : c ∉ x')
    (h : x ++ c :: y = x' ++ c :: y') : x = x' ∧ y = y' := by
  have := congrArg (partition c) h
  rw [partition_append hx, partition_append hx'] at this
  exact Prod.mk.inj this

/-- The text of the alias of an object. -/
def aliasText (N : Naming) (ip : Text) (u : ObjectUrl) : Text :=
  if unquote u.entityId = [] then u.entityType
  else ip ++ '@' :: (u.entityType ++ ':' :: join ",".toList (u.values N))

theorem aliasText_eq_of_same {N : Naming} (ip : Text) {u v : ObjectUrl}
    (h : u.entityType = v.entityType ∧ u.entityId = v.entityId) :
    aliasText N ip u = aliasText N ip v := by
  rw [aliasText, aliasText, ObjectUrl.values, ObjectUrl.values, h.1, h.2]

/-- Two objects have one alias exactly if they have one class and the same pieces. -/
theorem aliasText_eq_iff {N : Naming} (ip : Text) {u v : ObjectUrl} (hu : u.IsFull N)
    (hv : v.IsFull N) (hdiff : u.entityType ≠ v.entityType ∨ u.values N ≠ v.values N) :
    aliasText N ip u = aliasText N ip v ↔ Regrouped N u v := by
  have hcolon : ∀ w : ObjectUrl, ':' ∉ w.entityType := fun w =>
    not_mem_of_isClassName w.isClass (by decide)
  have hat : ∀ w : ObjectUrl, '@' ∉ w.entityType := fun w =>
    not_mem_of_isClassName w.isClass (by decide)
  have hshort : ∀ (w : ObjectUrl) (t : Text), w.entityType ≠ ip ++ '@' :: t := by
    intro w t h
    have := hat w
    rw [h] at this
    simp at this
  have hempty : u.entityType = v.entityType → (u.values N = [] ∨ v.values N = []) → False := by
    intro htype hnil
    have hboth : u.values N = v.values N := by
      obtain hnil | hnil := hnil
      · rw [hnil, values_eq_nil_of_eq htype hnil]
      · rw [hnil, values_eq_nil_of_eq htype.symm hnil]
    obtain hne | hne := hdiff
    · exact hne htype
    · exact hne hboth
  rw [aliasText, aliasText]
  by_cases hi : unquote u.entityId = []
  · rw [if_pos hi]
    have hvals := values_of_empty hu hi
    have hnot : ¬ Regrouped N u v := fun h => hempty h.1 (Or.inl hvals)
    refine iff_of_false (fun heq => ?_) hnot
    split at heq
    · rename_i hj
      exact hempty heq (Or.inl hvals)
    · exact hshort u _ heq
  · rw [if_neg hi]
    by_cases hj : unquote v.entityId = []
    · rw [if_pos hj]
      have hvals := values_of_empty hv hj
      have hnot : ¬ Regrouped N u v := fun h => hempty h.1 (Or.inr hvals)
      exact iff_of_false (fun heq => hshort v _ heq.symm) hnot
    · rw [if_neg hj]
      constructor
      · intro heq
        have htail := (List.cons.inj (List.append_cancel_left heq)).2
        obtain ⟨htype, hjoin⟩ := append_cons_inj (hcolon u) (hcolon v) htail
        have hneu : u.values N ≠ [] := fun h => hempty htype (Or.inl h)
        have hnev : v.values N ≠ [] := fun h => hempty htype (Or.inr h)
        exact ⟨htype, hdiff.resolve_left (fun h => h htype), (join_eq_join_iff hneu hnev).mp hjoin⟩
      · rintro ⟨htype, hne, hpieces⟩
        have hneu : u.values N ≠ [] := fun h => hempty htype (Or.inl h)
        have hnev : v.values N ≠ [] := fun h => hempty htype (Or.inr h)
        have hjoin : join ",".toList (u.values N) = join ",".toList (v.values N) :=
          (join_eq_join_iff hneu hnev).mpr hpieces
        rw [htype, hjoin]

section

variable {N : Naming} (us vs : List Text) {u v : ObjectUrl}
  (hhost : u.host.map Char.toLower = v.host.map Char.toLower)
  (hnou : N.universalAlias u.entityType = none) (hnov : N.universalAlias v.entityType = none)
  (hu : u.IsFull N) (hv : v.IsFull N)

include hhost hnou hnov hu hv

/-- The aliases of two objects of one host. -/
theorem aliasAfter_full :
    aliasAfter N us u.text = some (aliasText N (v.host.map Char.toLower) u) ∧
      aliasAfter N vs v.text = some (aliasText N (v.host.map Char.toLower) v) := by
  have hip : v.host.map Char.toLower ≠ [] := by simpa using v.isHost.1
  have hau := aliasAfter_text us u hnou
  have hav := aliasAfter_text vs v hnov
  rw [hhost, label_of_isFull hnou hu hip, ← aliasText] at hau
  rw [label_of_isFull hnov hv hip, ← aliasText] at hav
  exact ⟨hau, hav⟩

theorem not_aliasesAgree_of_regrouped (hre : Regrouped N u v) : ¬ AliasesAgree N us vs u v := by
  rintro ⟨a, b, ha, hb, -, hdiff⟩
  obtain ⟨hau, hav⟩ := aliasAfter_full us vs hhost hnou hnov hu hv
  rw [hau, Option.some.injEq] at ha
  rw [hav, Option.some.injEq] at hb
  subst ha hb
  have hne := Or.inr (a := u.entityType ≠ v.entityType) hre.2.1
  exact hdiff hne ((aliasText_eq_iff _ hu hv hne).mpr hre)

/-- **The aliases of two URLs agree with their objects exactly if the values of the objects are
not regrouped.** -/
theorem aliasesAgree_iff : AliasesAgree N us vs u v ↔ ¬ Regrouped N u v := by
  constructor
  · intro h hre
    exact not_aliasesAgree_of_regrouped us vs hhost hnou hnov hu hv hre h
  · intro hre
    obtain ⟨hau, hav⟩ := aliasAfter_full us vs hhost hnou hnov hu hv
    refine ⟨_, _, hau, hav, aliasText_eq_of_same _, ?_⟩
    intro hne heq
    exact hre ((aliasText_eq_iff _ hu hv hne).mp heq)

end

/-! ## Two symbols -/

/-- Classes with two keys, on a machine without functions of its own. -/
def symbols : Naming where
  uriRoot := "http://127.0.0.1:8000/survol".toList
  ontologyClassKeys _ := ["Name".toList, "File".toList]
  universalAlias _ := none
  entityName _ := none
  hasGraphParams _ := true
  isLocalAddress _ := true
  reprParsedUrl _ := []

/-- A symbol of a file, behind a server. -/
def symbolUrl (runner : Option Bool) (entityId : String)
    (h : IsArg entityId.toList ∧ '@' ∉ entityId.toList) : ObjectUrl where
  secure := false
  host := "server".toList
  port := some "8000".toList
  dir := "/survol".toList
  runner := runner
  mode := some (1, "svg".toList)
  entityType := "linker_symbol".toList
  entityId := entityId.toList
  isHost := by decide
  isPort := by decide
  isDir := by decide
  isMode := by decide
  isClass := by decide
  isId := h.1
  isLocal := Or.inl h.2

section

variable {runner : Option Bool} {entityId : String}
  {h : IsArg entityId.toList ∧ '@' ∉ entityId.toList}

theorem isFull_symbolUrl (hpct : '%' ∉ entityId.toList)
    (hk : Dict.keys (splitMoniker entityId.toList) = ["Name".toList, "File".toList]) :
    (symbolUrl runner entityId h).IsFull symbols := by
  intro k
  change k ∈ Dict.keys (splitMoniker (unquote entityId.toList)) ↔ _
  rw [Percent.unquote_eq_self_of_not_mem hpct, hk]
  rfl

theorem values_symbolUrl (hpct : '%' ∉ entityId.toList) :
    (symbolUrl runner entityId h).values symbols =
      entityIdsArr ["Name".toList, "File".toList] (splitMoniker entityId.toList) := by
  change entityIdsArr _ (splitMoniker (unquote entityId.toList)) = _
  rw [Percent.unquote_eq_self_of_not_mem hpct]
  rfl

end

/-- A symbol with two plain values. -/
def plainSymbol (runner : Option Bool) : ObjectUrl :=
  symbolUrl runner "Name=f,File=a.so" (by decide)

theorem isFull_plainSymbol (runner : Option Bool) : (plainSymbol runner).IsFull symbols :=
  isFull_symbolUrl (by decide) (by decide)

/-- The same symbol, through two scripts. -/
theorem aliasesAgree_iff_symbol :
    AliasesAgree symbols [] [] (plainSymbol none) (plainSymbol (some true)) :=
  (aliasesAgree_iff (u := plainSymbol none) (v := plainSymbol (some true)) [] [] rfl rfl rfl
    (isFull_plainSymbol none) (isFull_plainSymbol (some true))).mpr fun hre => hre.2.1 rfl

/-- A comma moves from one value to the other. -/
theorem comma_not_aliasesAgree : ¬ ∀ (N : Naming) (us vs : List Text) (u v : ObjectUrl),
    u.host.map Char.toLower = v.host.map Char.toLower → N.universalAlias u.entityType = none →
    N.universalAlias v.entityType = none → u.IsFull N → v.IsFull N → AliasesAgree N us vs u v := by
  intro h
  let u := symbolUrl none "Name=\"f,g\",File=h" (by decide)
  let v := symbolUrl none "Name=f,File=\"g,h\"" (by decide)
  have hu : u.IsFull symbols := isFull_symbolUrl (by decide) (by decide)
  have hv : v.IsFull symbols := isFull_symbolUrl (by decide) (by decide)
  have hvalu : u.values symbols = ["f,g".toList, "h".toList] := by
    rw [values_symbolUrl (by decide)]
    decide
  have hvalv : v.values symbols = ["f".toList, "g,h".toList] := by
    rw [values_symbolUrl (by decide)]
    decide
  have hre : Regrouped symbols u v := by
    rw [Regrouped, hvalu, hvalv]
    exact ⟨rfl, by decide, by decide⟩
  exact not_aliasesAgree_of_regrouped (u := u) (v := v) [] [] rfl rfl rfl hu hv hre
    (h symbols [] [] u v rfl rfl rfl hu hv)

end Survol.Uris
