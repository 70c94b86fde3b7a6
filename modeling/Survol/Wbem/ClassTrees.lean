import Survol.Lib.Dict
import Survol.Lib.Forest
import Survol.Lib.Text

/-!
# Trees of instrumented classes

The classes of a server are in trees. A tree of the classes with a provider is made of those that
are instrumented, and of those above them.

## Main definitions

* `getClassesTree` — the subclasses of each class.
* `makeInstrumentedRecu` — the subclasses that are kept, from a root.
* `FillsTree` — the classes that are kept below a root, with their subclasses.

## Main results

* `makeInstrumentedRecu_spec` — what the recursion leaves in its output.
-/

namespace Survol.Wbem

open PyText (Text)
open Forest (Below Child NoCycle)

/-! ## Classes -/

/-- A class of a server. -/
structure WbemClass where
  classname : Text
  superclass : Option Text
  deriving DecidableEq

/-- A dictionary from a class, or none above the roots, to subclasses. -/
abbrev ClassTree := Dict (Option Text) (List WbemClass)

/-- The subclasses of each class. -/
def getClassesTree (klasses : List WbemClass) : ClassTree :=
  klasses.foldl (fun (treeClasses : ClassTree) klass =>
    match treeClasses.get? klass.superclass with
    | some subs => treeClasses.set klass.superclass (subs ++ [klass])
    | none => treeClasses.set klass.superclass [klass]) []

/-- The class has a provider. -/
def isInstrumented (instrCla : List Text) (clnam : Option Text) : Bool :=
  clnam.any fun n => decide (n ∈ instrCla)

/-- The subclasses of a class, each after what is below it. -/
def instrumentSubclasses (recu : ClassTree → Option Text → Option ClassTree) (instrCla : List Text)
    (topclassNam : Option Text) : List WbemClass → ClassTree → Option ClassTree
  | [], outTreeClass => some outTreeClass
  | cl :: cls, outTreeClass => do
    let out ← recu outTreeClass (some cl.classname)
    let out' :=
      if isInstrumented instrCla (some cl.classname) ∨ (out.get? (some cl.classname)).isSome then
        match out.get? topclassNam with
        | some subs => out.set topclassNam (subs ++ [cl])
        | none => out.set topclassNam [cl]
      else out
    instrumentSubclasses recu instrCla topclassNam cls out'

/-- The classes that are kept, from a root, with at most `n` levels. -/
def makeInstrumentedRecu (inTreeClass : ClassTree) (instrCla : List Text) :
    ℕ → ClassTree → Option Text → Option ClassTree
  | 0, _, _ => none
  | n + 1, outTreeClass, topclassNam =>
    let out := if isInstrumented instrCla topclassNam then outTreeClass.set topclassNam []
      else outTreeClass
    match inTreeClass.get? topclassNam with
    | some cls => instrumentSubclasses (makeInstrumentedRecu inTreeClass instrCla n) instrCla
        topclassNam cls out
    | none => some out

/-! ## Forests of classes -/

/-- The direct subclasses of a class, in order. -/
def subclasses (klasses : List WbemClass) (p : Option Text) : List WbemClass :=
  klasses.filter fun c => c.superclass = p

/-- The names of the subclasses. -/
def subnames (klasses : List WbemClass) (p : Option Text) : List (Option Text) :=
  (subclasses klasses p).map fun c => some c.classname

/-- A forest of classes. -/
structure ClassForest where
  klasses : List WbemClass
  nodup : (klasses.map WbemClass.classname).Nodup
  noCycle : NoCycle (Child (subnames klasses))

/-- The class is in the tree of another one. -/
abbrev ClassForest.Under (F : ClassForest) (p q : Option Text) : Prop :=
  Below (subnames F.klasses) p q

/-- The class is instrumented, or has an instrumented descendant. -/
def ClassForest.Kept (F : ClassForest) (instrCla : List Text) (p : Option Text) : Prop :=
  ∃ q, F.Under p q ∧ isInstrumented instrCla q = true

open Classical in
/-- The direct subclasses that are kept, in order. -/
noncomputable def ClassForest.keptSubclasses (F : ClassForest) (instrCla : List Text)
    (p : Option Text) : List WbemClass :=
  (subclasses F.klasses p).filter fun c => F.Kept instrCla (some c.classname)

/-- **The output of a root**: its keys are the classes that are kept, and their values are the
subclasses that are kept. -/
structure FillsTree (F : ClassForest) (instrCla : List Text) (r : Option Text)
    (out : ClassTree) : Prop where
  keys : ∀ p, F.Under r p → ((out.get? p).isSome ↔ F.Kept instrCla p)
  values : ∀ p l, F.Under r p → out.get? p = some l → l = F.keptSubclasses instrCla p

/-! ## The tree of the classes -/

theorem get?_getClassesTree (klasses : List WbemClass) (p : Option Text) :
    ((getClassesTree klasses).get? p).getD [] = subclasses klasses p := by
  have key : ∀ (ks : List WbemClass) (d : ClassTree),
      ((ks.foldl (fun (treeClasses : ClassTree) klass =>
        match treeClasses.get? klass.superclass with
        | some subs => treeClasses.set klass.superclass (subs ++ [klass])
        | none => treeClasses.set klass.superclass [klass]) d).get? p).getD [] =
          (d.get? p).getD [] ++ subclasses ks p := by
    intro ks
    induction ks with
    | nil =>
      intro d
      exact (List.append_nil _).symm
    | cons k ks ih =>
      intro d
      rw [List.foldl_cons, ih, subclasses, subclasses, List.filter_cons]
      by_cases hk : k.superclass = p
      · subst hk
        cases h : d.get? k.superclass with
        | none => simp
        | some subs => simp
      · cases h : d.get? k.superclass with
        | none => simp [hk]
        | some subs => simp [hk]
  exact key klasses []

section

variable {F : ClassForest} {instrCla : List Text} {p q : Option Text}

theorem mem_subnames {c : WbemClass} (h : c ∈ subclasses F.klasses p) :
    some c.classname ∈ subnames F.klasses p :=
  List.mem_map_of_mem h

/-- The superclass of a class, by its name. -/
def ClassForest.parent (F : ClassForest) (q : Option Text) : Option (Option Text) :=
  (F.klasses.find? fun c => some c.classname = q).map WbemClass.superclass

theorem eq_of_classname {ks : List WbemClass} (h : (ks.map WbemClass.classname).Nodup)
    {c c' : WbemClass} (hc : c ∈ ks) (hc' : c' ∈ ks) (hn : c.classname = c'.classname) : c = c' :=
  List.inj_on_of_nodup_map h hc hc' hn

theorem ClassForest.isForest (F : ClassForest) :
    Forest.IsForest F.parent (subnames F.klasses) := by
  refine ⟨fun p q => ?_, fun p => ?_, F.noCycle⟩
  · rw [subnames, List.mem_map, ClassForest.parent, Option.map_eq_some_iff]
    constructor
    · rintro ⟨c, hc, rfl⟩
      obtain ⟨hmem, hp⟩ := List.mem_filter.mp hc
      have hsome : (F.klasses.find? fun d => some d.classname = some c.classname).isSome := by
        rw [List.find?_isSome]
        exact ⟨c, hmem, by simp⟩
      obtain ⟨d, hd⟩ := Option.isSome_iff_exists.mp hsome
      have hname : d.classname = c.classname := by simpa using List.find?_some hd
      have hdc := eq_of_classname F.nodup (List.mem_of_find?_eq_some hd) hmem hname
      exact ⟨d, hd, by rw [hdc]; simpa using hp⟩
    · rintro ⟨c, hc, rfl⟩
      have hname : some c.classname = q := by simpa using List.find?_some hc
      exact ⟨c, List.mem_filter.mpr ⟨List.mem_of_find?_eq_some hc, by simp⟩, hname⟩
  · have hsub : ((subclasses F.klasses p).map WbemClass.classname).Nodup :=
      F.nodup.sublist (List.filter_sublist.map _)
    have := hsub.map (Option.some_injective Text)
    rwa [List.map_map] at this

/-- What is below a class ends. -/
theorem ClassForest.wellFounded (F : ClassForest) :
    WellFounded fun q p => Child (subnames F.klasses) p q := by
  refine NoCycle.wellFounded (fun p hp => ?_) (F.klasses.map WbemClass.superclass).finite_toSet
    fun q p hpq => ?_
  · exact F.noCycle p (Relation.transGen_swap.mp hp)
  · obtain ⟨c, hc, -⟩ := List.mem_map.mp hpq
    obtain ⟨hmem, hp⟩ := List.mem_filter.mp hc
    exact List.mem_map.mpr ⟨c, hmem, by simpa using hp⟩

/-- A class is kept for itself, or for one of its subclasses. -/
theorem kept_iff : F.Kept instrCla p ↔ isInstrumented instrCla p = true ∨
    ∃ c ∈ subclasses F.klasses p, F.Kept instrCla (some c.classname) := by
  constructor
  · rintro ⟨q, hq, hinstr⟩
    obtain rfl | ⟨_, hname, hbelow⟩ := Forest.below_iff.mp hq
    · exact Or.inl hinstr
    · obtain ⟨c, hc, rfl⟩ := List.mem_map.mp hname
      exact Or.inr ⟨c, hc, q, hbelow, hinstr⟩
  · rintro (hinstr | ⟨c, hc, q, hq, hinstr⟩)
    · exact ⟨p, .refl, hinstr⟩
    · exact ⟨q, .head (mem_subnames hc) hq, hinstr⟩

/-! ## The recursion -/

open Classical in
/-- What the output has for a class, once some of its subclasses are done. -/
noncomputable def ClassForest.entry (F : ClassForest) (instrCla : List Text) (p : Option Text)
    (done : List WbemClass) : Option (List WbemClass) :=
  if isInstrumented instrCla p = true ∨ ∃ c ∈ done, F.Kept instrCla (some c.classname) then
    some (done.filter fun c => F.Kept instrCla (some c.classname))
  else none

/-- What the output has for a class, at the end. -/
noncomputable def ClassForest.spec (F : ClassForest) (instrCla : List Text) (p : Option Text) :
    Option (List WbemClass) :=
  F.entry instrCla p (subclasses F.klasses p)

theorem entry_nil :
    F.entry instrCla p [] = if isInstrumented instrCla p = true then some [] else none := by
  simp [ClassForest.entry]

theorem entry_append_of_kept {c : WbemClass} (h : F.Kept instrCla (some c.classname))
    (done : List WbemClass) : F.entry instrCla p (done ++ [c]) =
      some ((F.entry instrCla p done).getD [] ++ [c]) := by
  classical
  have hcond : isInstrumented instrCla p = true ∨
      ∃ d ∈ done ++ [c], F.Kept instrCla (some d.classname) := Or.inr ⟨c, by simp, h⟩
  rw [ClassForest.entry, if_pos hcond, List.filter_append, ClassForest.entry]
  split
  · simp [h]
  · rename_i hnot
    have hnil : (done.filter fun d => F.Kept instrCla (some d.classname)) = [] := by
      rw [List.filter_eq_nil_iff]
      intro d hd hk
      exact hnot (Or.inr ⟨d, hd, by simpa using hk⟩)
    simp [h, hnil]

theorem entry_append_of_not {c : WbemClass} (h : ¬ F.Kept instrCla (some c.classname))
    (done : List WbemClass) : F.entry instrCla p (done ++ [c]) = F.entry instrCla p done := by
  classical
  simp [ClassForest.entry, h, or_and_right, exists_or]

theorem isSome_spec : (F.spec instrCla p).isSome ↔ F.Kept instrCla p := by
  rw [ClassForest.spec, ClassForest.entry, kept_iff]
  split
  · exact iff_of_true rfl ‹_›
  · exact iff_of_false Bool.false_ne_true ‹_›

theorem spec_eq_some {l : List WbemClass} (h : F.spec instrCla p = some l) :
    l = F.keptSubclasses instrCla p := by
  rw [ClassForest.spec, ClassForest.entry] at h
  split at h
  · exact (Option.some.inj h).symm
  · cases h

/-- The output has what it must have below a class, and is the same elsewhere. -/
structure Filled (F : ClassForest) (instrCla : List Text) (p : Option Text)
    (out out' : ClassTree) : Prop where
  below : ∀ q, F.Under p q → out'.get? q = F.spec instrCla q
  same : ∀ q, ¬ F.Under p q → out'.get? q = out.get? q

/-- The output has nothing below a class. -/
def Fresh (F : ClassForest) (p : Option Text) (out : ClassTree) : Prop :=
  ∀ q, F.Under p q → out.get? q = none

theorem not_under {c : WbemClass} (hc : c ∈ subclasses F.klasses p) :
    ¬ F.Under (some c.classname) p := fun h =>
  F.noCycle p (.head' (mem_subnames hc) h)

/-- The trees of two subclasses are apart. -/
theorem eq_of_under {c d : WbemClass} (hc : c ∈ subclasses F.klasses p)
    (hd : d ∈ subclasses F.klasses p) (hcq : F.Under (some c.classname) q)
    (hdq : F.Under (some d.classname) q) : c = d := by
  have hname := F.isForest.eq_of_below (mem_subnames hc) (mem_subnames hd) hcq hdq
  exact eq_of_classname F.nodup (List.mem_filter.mp hc).1 (List.mem_filter.mp hd).1
    (Option.some.inj hname)

/-- What is added to the output after a subclass. -/
theorem get?_after {out : ClassTree} {c : WbemClass} {done : List WbemClass}
    (htop : out.get? p = F.entry instrCla p done) (q : Option Text) :
    (match out.get? p with
      | some subs => out.set p (subs ++ [c])
      | none => out.set p [c]).get? q =
        if p = q then some ((F.entry instrCla p done).getD [] ++ [c]) else out.get? q := by
  rw [htop]
  cases F.entry instrCla p done with
  | none => simp
  | some subs => simp

/-- **One subclass**: its tree is filled, the entry of the class grows, and nothing else changes. -/
theorem instrumentSubclasses_cons {recu : ClassTree → Option Text → Option ClassTree}
    {out out₁ : ClassTree} {c : WbemClass} {cls done : List WbemClass}
    (hc : c ∈ subclasses F.klasses p) (hout₁ : recu out (some c.classname) = some out₁)
    (hfill : Filled F instrCla (some c.classname) out out₁)
    (htop : out.get? p = F.entry instrCla p done) :
    ∃ out₂, instrumentSubclasses recu instrCla p (c :: cls) out =
        instrumentSubclasses recu instrCla p cls out₂ ∧
      out₂.get? p = F.entry instrCla p (done ++ [c]) ∧
      (∀ q, F.Under (some c.classname) q → out₂.get? q = F.spec instrCla q) ∧
      ∀ q, q ≠ p → ¬ F.Under (some c.classname) q → out₂.get? q = out.get? q := by
  have htop₁ : out₁.get? p = F.entry instrCla p done := by rw [hfill.same p (not_under hc), htop]
  have hcond : (isInstrumented instrCla (some c.classname) = true ∨
      (out₁.get? (some c.classname)).isSome = true) ↔ F.Kept instrCla (some c.classname) := by
    rw [hfill.below _ .refl, isSome_spec, kept_iff]
    tauto
  rw [instrumentSubclasses, hout₁]
  dsimp only [Option.bind_eq_bind, Option.bind_some]
  by_cases hk : F.Kept instrCla (some c.classname)
  · rw [if_pos (hcond.mpr hk)]
    refine ⟨_, rfl, ?_, fun q hq => ?_, fun q hq hcq => ?_⟩
    · rw [get?_after htop₁, if_pos rfl, entry_append_of_kept hk]
    · have hpq : p ≠ q := fun he => not_under hc (he ▸ hq)
      rw [get?_after htop₁, if_neg hpq, hfill.below q hq]
    · rw [get?_after htop₁, if_neg (Ne.symm hq), hfill.same q hcq]
  · rw [if_neg (hcond.not.mpr hk)]
    refine ⟨_, rfl, ?_, hfill.below, fun q _ => hfill.same q⟩
    rw [htop₁, entry_append_of_not hk]

/-- **The loop over the subclasses** fills the trees of the ones that are left. -/
theorem instrumentSubclasses_spec (recu : ClassTree → Option Text → Option ClassTree)
    (start : ClassTree) (done : List WbemClass) {cls : List WbemClass}
    (hcls : done ++ cls = subclasses F.klasses p)
    (hrec : ∀ c ∈ cls, ∀ out, Fresh F (some c.classname) out →
      ∃ out', recu out (some c.classname) = some out' ∧
        Filled F instrCla (some c.classname) out out') {out : ClassTree}
    (hfresh : ∀ c ∈ cls, Fresh F (some c.classname) out)
    (htop : out.get? p = F.entry instrCla p done)
    (hdone : ∀ c ∈ done, ∀ q, F.Under (some c.classname) q → out.get? q = F.spec instrCla q)
    (hsame : ∀ q, ¬ F.Under p q → out.get? q = start.get? q) :
    ∃ out', instrumentSubclasses recu instrCla p cls out = some out' ∧
      Filled F instrCla p start out' := by
  induction cls generalizing done out with
  | nil =>
    rw [List.append_nil] at hcls
    refine ⟨out, rfl, fun q hq => ?_, hsame⟩
    obtain rfl | ⟨_, hname, hbelow⟩ := Forest.below_iff.mp hq
    · rw [htop, hcls]
      rfl
    · obtain ⟨c, hc, rfl⟩ := List.mem_map.mp hname
      exact hdone c (hcls ▸ hc) q hbelow
  | cons c cls ih =>
    have hmem : ∀ d ∈ done ++ c :: cls, d ∈ subclasses F.klasses p := fun d hd => hcls ▸ hd
    have hc : c ∈ subclasses F.klasses p := hmem c (by simp)
    have hnodup : (done ++ c :: cls).Nodup := by
      rw [hcls]
      exact (F.nodup.of_map _).filter _
    obtain ⟨out₁, hout₁, hfill⟩ := hrec c List.mem_cons_self out (hfresh c List.mem_cons_self)
    obtain ⟨out₂, heq, htop₂, hbelow, hrest⟩ := instrumentSubclasses_cons hc hout₁ hfill htop
    -- The trees of the other subclasses are apart from the one that is filled.
    have hother : ∀ d ∈ done ++ cls, ∀ q, F.Under (some d.classname) q →
        out₂.get? q = out.get? q := by
      intro d hd q hq
      have hd' : d ∈ subclasses F.klasses p := hmem d (by simp at hd ⊢; tauto)
      have hne : d ≠ c := by
        rintro rfl
        exact (List.nodup_cons.mp (List.nodup_middle.mp hnodup)).1 hd
      exact hrest q (fun he => not_under hd' (he ▸ hq))
        fun hcq => hne (eq_of_under hd' hc hq hcq)
    rw [heq]
    apply ih (done ++ [c])
    · rw [List.append_assoc]
      exact hcls
    · exact fun d hd => hrec d (List.mem_cons_of_mem c hd)
    · intro d hd q hq
      rw [hother d (List.mem_append_right _ hd) q hq]
      exact hfresh d (List.mem_cons_of_mem c hd) q hq
    · exact htop₂
    · intro d hd q hq
      obtain hd | hd := List.mem_append.mp hd
      · rw [hother d (List.mem_append_left _ hd) q hq]
        exact hdone d hd q hq
      · obtain rfl := List.mem_singleton.mp hd
        exact hbelow q hq
    · intro q hq
      have hcq : ¬ F.Under (some c.classname) q := fun h => hq (.head (mem_subnames hc) h)
      rw [hrest q (fun he => hq (he ▸ .refl)) hcq]
      exact hsame q hq

/-- One bound for the classes of a list. -/
theorem exists_bound {P : WbemClass → ℕ → Prop} (cls : List WbemClass)
    (h : ∀ c ∈ cls, ∃ N, ∀ n, N ≤ n → P c n) : ∃ N, ∀ c ∈ cls, ∀ n, N ≤ n → P c n := by
  induction cls with
  | nil => exact ⟨0, nofun⟩
  | cons c cls ih =>
    obtain ⟨N, hN⟩ := h c List.mem_cons_self
    obtain ⟨M, hM⟩ := ih fun d hd => h d (List.mem_cons_of_mem c hd)
    refine ⟨max N M, fun d hd n hn => ?_⟩
    obtain rfl | hd := List.mem_cons.mp hd
    · exact hN n ((le_max_left N M).trans hn)
    · exact hM d hd n ((le_max_right N M).trans hn)

/-- **The recursion fills the tree of its class**, with enough levels. -/
theorem makeInstrumentedRecu_filled (F : ClassForest) (instrCla : List Text) (p : Option Text) :
    ∃ N, ∀ n, N ≤ n → ∀ out, Fresh F p out → ∃ out',
      makeInstrumentedRecu (getClassesTree F.klasses) instrCla n out p = some out' ∧
        Filled F instrCla p out out' := by
  induction p using F.wellFounded.induction with
  | _ p ih =>
    obtain ⟨N, hN⟩ := exists_bound (subclasses F.klasses p) fun c hc =>
      ih (some c.classname) (mem_subnames hc)
    refine ⟨N + 1, fun n hn out hfresh => ?_⟩
    obtain ⟨n, rfl⟩ : ∃ k, n = k + 1 := ⟨n - 1, by omega⟩
    have hstart : ∀ q, q ≠ p → (if isInstrumented instrCla p = true then out.set p []
        else out).get? q = out.get? q := by
      intro q hq
      split
      · simp [Ne.symm hq]
      · rfl
    have htop : (if isInstrumented instrCla p = true then out.set p [] else out).get? p =
        F.entry instrCla p [] := by
      rw [entry_nil]
      split
      · simp
      · exact hfresh p .refl
    have hloop := instrumentSubclasses_spec
      (makeInstrumentedRecu (getClassesTree F.klasses) instrCla n) out [] (List.nil_append _)
      (fun c hc => hN c hc n (by omega))
      (fun c hc q hq => by
        rw [hstart q fun he => not_under hc (he ▸ hq)]
        exact hfresh q (.head (mem_subnames hc) hq))
      htop (by simp) (fun q hq => hstart q fun he => hq (he ▸ .refl))
    rw [makeInstrumentedRecu]
    have hsubs := get?_getClassesTree F.klasses p
    cases h : (getClassesTree F.klasses).get? p with
    | none =>
      rw [h] at hsubs
      rw [← hsubs] at hloop
      exact hloop
    | some cls =>
      rw [h] at hsubs
      rw [← hsubs] at hloop
      exact hloop

end

/-- **The output of a root** has the classes that are kept and their subclasses, for every forest
and all instrumented classes. -/
theorem makeInstrumentedRecu_spec (F : ClassForest) (instrCla : List Text) (r : Option Text) :
    ∃ N, ∀ n, N ≤ n → ∃ out,
      makeInstrumentedRecu (getClassesTree F.klasses) instrCla n [] r = some out ∧
        FillsTree F instrCla r out := by
  obtain ⟨N, hN⟩ := makeInstrumentedRecu_filled F instrCla r
  refine ⟨N, fun n hn => ?_⟩
  obtain ⟨out, hout, hfill⟩ := hN n hn [] fun q _ => rfl
  refine ⟨out, hout, fun p hp => ?_, fun p l hp hl => ?_⟩
  · rw [hfill.below p hp, isSome_spec]
  · exact spec_eq_some ((hfill.below p hp).symm.trans hl)

example :
    let a : WbemClass := ⟨['a'], none⟩
    let b : WbemClass := ⟨['b'], some ['a']⟩
    let c : WbemClass := ⟨['c'], some ['a']⟩
    makeInstrumentedRecu (getClassesTree [a, b, c]) [['c']] 3 [] none =
      some [(some ['c'], []), (some ['a'], [c]), (none, [a])] := by
  decide

end Survol.Wbem
