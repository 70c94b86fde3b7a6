import Mathlib.Data.Set.Finite.Basic
import Mathlib.Logic.Relation
import Mathlib.Order.WellFounded

/-!
# Forests given by links

A forest is stored by the parent of each node, or by the children of each node.
Following the parents leads to the root of a node, and walking through the
children lists the nodes below it. Both end when the links have no cycle, and when
the two kinds of links agree, a walk lists every node below its start once.

Recursions have a bound on their depth, and `none` says that it was too small.

## Main definitions

* `Forest.top parent n p` — the root of `p`.
* `Forest.walk subs n p` — the nodes below `p`, parents first.
* `Forest.sweep` — the walks from the roots of a list of nodes.
-/

namespace Forest

variable {κ : Type}

/-- The root of `p`, in at most `n` steps. -/
def top (parent : κ → Option κ) : ℕ → κ → Option κ
  | 0, _ => none
  | n + 1, p =>
    match parent p with
    | none => some p
    | some q => top parent n q

/-- The nodes of a list of trees, each walked by `f`. -/
def walkList (f : κ → Option (List κ)) : List κ → Option (List κ)
  | [] => some []
  | p :: ps => do
    let l ← f p
    let ls ← walkList f ps
    return l ++ ls

/-- The nodes below `p`, in a depth of at most `n`. -/
def walk (subs : κ → List κ) : ℕ → κ → Option (List κ)
  | 0, _ => none
  | n + 1, p => (walkList (walk subs n) (subs p)).map (p :: ·)

/-- `b` is a child of `a`. -/
def Child (subs : κ → List κ) (a b : κ) : Prop := b ∈ subs a

/-- `b` is below `a`, or is `a`. -/
abbrev Below (subs : κ → List κ) : κ → κ → Prop := Relation.ReflTransGen (Child subs)

/-- A relation without a cycle. -/
def NoCycle (r : κ → κ → Prop) : Prop := ∀ p, ¬ Relation.TransGen r p p

section
variable [DecidableEq κ]

/-- The trees of the nodes of a list, each walked from its root, when no earlier walk
has visited the node. -/
def sweep (top : κ → Option κ) (walk : κ → Option (List κ)) : List κ → List κ → Option (List κ)
  | visited, [] => some visited
  | visited, p :: ps =>
    if p ∈ visited then sweep top walk visited ps
    else do
      let r ← top p
      let l ← walk r
      sweep top walk (visited ++ l) ps

end

/-! ## Termination -/

/-- Without a cycle, a relation between finitely many nodes is well-founded. -/
theorem NoCycle.wellFounded {r : κ → κ → Prop} (h : NoCycle r) {s : Set κ} (hs : s.Finite)
    (hr : ∀ a b, r a b → b ∈ s) : WellFounded r := by
  have hfin : Finite s := hs
  let t : s → s → Prop := fun a b => Relation.TransGen r a.1 b.1
  have : IsTrans s t := ⟨fun _ _ _ => Relation.TransGen.trans⟩
  have : Std.Irrefl t := ⟨fun a => h a.1⟩
  have hwf : WellFounded t := Finite.wellFounded_of_trans_of_irrefl t
  have hacc : ∀ b : s, Acc r b.1 := by
    intro b
    induction b using hwf.induction with
    | _ b ih =>
      refine ⟨_, fun a hab => ?_⟩
      by_cases ha : a ∈ s
      · exact ih ⟨a, ha⟩ (.single hab)
      · exact ⟨_, fun c hca => absurd (hr c a hca) ha⟩
  refine ⟨fun b => ?_⟩
  by_cases hb : b ∈ s
  · exact hacc ⟨b, hb⟩
  · exact ⟨_, fun a hab => absurd (hr a b hab) hb⟩

/-- A new link does not close a cycle, unless there is a way back already. -/
theorem NoCycle.insert {r r' : κ → κ → Prop} (h : NoCycle r) {a b : κ}
    (hr' : ∀ x y, r' x y → r x y ∨ x = a ∧ y = b) (hab : ¬ Relation.ReflTransGen r b a) :
    NoCycle r' := by
  have key : ∀ x y, Relation.TransGen r' x y →
      Relation.TransGen r x y ∨ Relation.ReflTransGen r x a ∧ Relation.ReflTransGen r b y := by
    intro x y hxy
    induction hxy with
    | single hxy =>
      rcases hr' _ _ hxy with hr | ⟨rfl, rfl⟩
      · exact .inl (.single hr)
      · exact .inr ⟨.refl, .refl⟩
    | tail _ hyz ih =>
      rcases hr' _ _ hyz with hr | ⟨rfl, rfl⟩
      · exact ih.imp (·.tail hr) (And.imp_right (·.tail hr))
      · exact .inr ⟨ih.elim Relation.TransGen.to_reflTransGen And.left, .refl⟩
  intro p hp
  rcases key p p hp with hp | ⟨hpa, hbp⟩
  · exact h p hp
  · exact hab (hbp.trans hpa)

theorem walkList_mono {f g : κ → Option (List κ)} {ps : List κ}
    (h : ∀ p ∈ ps, ∀ l, f p = some l → g p = some l) {l : List κ} (hl : walkList f ps = some l) :
    walkList g ps = some l := by
  induction ps generalizing l with
  | nil => exact hl
  | cons p ps ih =>
    simp only [walkList, Option.bind_eq_bind, Option.bind_eq_some_iff] at hl ⊢
    obtain ⟨l₁, h₁, l₂, h₂, h₃⟩ := hl
    exact ⟨l₁, h p List.mem_cons_self l₁ h₁, l₂,
      ih (fun q hq => h q (List.mem_cons_of_mem p hq)) h₂, h₃⟩

theorem walk_mono {subs : κ → List κ} {n m : ℕ} (hnm : n ≤ m) {p : κ} {l : List κ}
    (h : walk subs n p = some l) : walk subs m p = some l := by
  induction n generalizing m p l with
  | zero => cases h
  | succ n ih =>
    obtain ⟨m, rfl⟩ : ∃ k, m = k + 1 := ⟨m - 1, by omega⟩
    rw [walk, Option.map_eq_some_iff] at h ⊢
    obtain ⟨l', hl', rfl⟩ := h
    exact ⟨l', walkList_mono (fun q _ _ hq => ih (by omega) hq) hl', rfl⟩

theorem exists_walkList {subs : κ → List κ} {ps : List κ}
    (h : ∀ p ∈ ps, ∃ n l, walk subs n p = some l) : ∃ n l, walkList (walk subs n) ps = some l := by
  induction ps with
  | nil => exact ⟨0, [], rfl⟩
  | cons p ps ih =>
    obtain ⟨n₁, l₁, h₁⟩ := h p List.mem_cons_self
    obtain ⟨n₂, l₂, h₂⟩ := ih fun q hq => h q (List.mem_cons_of_mem p hq)
    refine ⟨max n₁ n₂, l₁ ++ l₂, ?_⟩
    have h₁' := walk_mono (le_max_left n₁ n₂) h₁
    have h₂' := walkList_mono (fun q _ _ hq => walk_mono (le_max_right n₁ n₂) hq) h₂
    simp [walkList, h₁', h₂']

/-- A walk ends when no node is below itself. -/
theorem exists_walk {subs : κ → List κ} (h : WellFounded fun b a => Child subs a b) (p : κ) :
    ∃ n l, walk subs n p = some l := by
  induction p using h.induction with
  | _ p ih =>
    obtain ⟨n, l, hl⟩ := exists_walkList fun q hq => ih q hq
    exact ⟨n + 1, p :: l, by rw [walk, hl]; rfl⟩

/-- The root is found when no node is its own ancestor. -/
theorem exists_top {parent : κ → Option κ} (h : WellFounded fun q p => parent p = some q) (p : κ) :
    ∃ n r, top parent n p = some r := by
  induction p using h.induction with
  | _ p ih =>
    cases hp : parent p with
    | none => exact ⟨1, p, by simp only [top, hp]⟩
    | some q =>
      obtain ⟨n, r, hr⟩ := ih q hp
      exact ⟨n + 1, r, by simp only [top, hp, hr]⟩

theorem top_mono {parent : κ → Option κ} {n m : ℕ} (hnm : n ≤ m) {p r : κ}
    (h : top parent n p = some r) : top parent m p = some r := by
  induction n generalizing m p with
  | zero => cases h
  | succ n ih =>
    obtain ⟨m, rfl⟩ : ∃ k, m = k + 1 := ⟨m - 1, by omega⟩
    rw [top] at h ⊢
    split at h
    · exact h
    · exact ih (by omega) h

theorem exists_sweep_of_forall [DecidableEq κ] {top : κ → Option κ} {walk : κ → Option (List κ)}
    {ps : List κ} (h : ∀ p ∈ ps, ∃ r l, top p = some r ∧ walk r = some l) (visited : List κ) :
    ∃ l, sweep top walk visited ps = some l := by
  induction ps generalizing visited with
  | nil => exact ⟨visited, rfl⟩
  | cons p ps ih =>
    have ih' := ih fun q hq => h q (List.mem_cons_of_mem p hq)
    rw [sweep]
    split
    · exact ih' visited
    · obtain ⟨r, l, hr, hl⟩ := h p List.mem_cons_self
      obtain ⟨l', hl'⟩ := ih' (visited ++ l)
      exact ⟨l', by simp [hr, hl, hl']⟩

/-- A sweep ends when no node is above or below itself. -/
theorem exists_sweep [DecidableEq κ] {parent : κ → Option κ} {subs : κ → List κ}
    (hp : WellFounded fun q p => parent p = some q) (hs : WellFounded fun b a => Child subs a b)
    (ps visited : List κ) : ∃ n l, sweep (top parent n) (walk subs n) visited ps = some l := by
  have key : ∃ n, ∀ p ∈ ps, ∃ r l, top parent n p = some r ∧ walk subs n r = some l := by
    induction ps with
    | nil => exact ⟨0, nofun⟩
    | cons p ps ih =>
      obtain ⟨n₁, h₁⟩ := ih
      obtain ⟨n₂, r, hr⟩ := exists_top hp p
      obtain ⟨n₃, l, hl⟩ := exists_walk hs r
      refine ⟨n₁ + n₂ + n₃, List.forall_mem_cons.mpr
        ⟨⟨r, l, top_mono (by omega) hr, walk_mono (by omega) hl⟩, fun q hq => ?_⟩⟩
      obtain ⟨r', l', hr', hl'⟩ := h₁ q hq
      exact ⟨r', l', top_mono (by omega) hr', walk_mono (by omega) hl'⟩
  obtain ⟨n, h⟩ := key
  exact ⟨n, exists_sweep_of_forall h visited⟩

/-! ## The nodes of a walk -/

theorem mem_walkList {f : κ → Option (List κ)} {ps l : List κ} (h : walkList f ps = some l)
    (q : κ) : q ∈ l ↔ ∃ p ∈ ps, ∃ l', f p = some l' ∧ q ∈ l' := by
  induction ps generalizing l with
  | nil =>
    cases h
    simp
  | cons p ps ih =>
    simp only [walkList, Option.bind_eq_bind, Option.bind_eq_some_iff] at h
    obtain ⟨l₁, h₁, l₂, h₂, h₃⟩ := h
    cases h₃
    rw [List.mem_append, ih h₂]
    simp [h₁]

theorem exists_of_walkList {f : κ → Option (List κ)} {ps l : List κ} (h : walkList f ps = some l)
    {p : κ} (hp : p ∈ ps) : ∃ l', f p = some l' := by
  induction ps generalizing l with
  | nil => cases hp
  | cons q ps ih =>
    simp only [walkList, Option.bind_eq_bind, Option.bind_eq_some_iff] at h
    obtain ⟨l₁, h₁, l₂, h₂, -⟩ := h
    rcases List.mem_cons.mp hp with rfl | hp
    · exact ⟨l₁, h₁⟩
    · exact ih h₂ hp

theorem below_iff {subs : κ → List κ} {p q : κ} :
    Below subs p q ↔ q = p ∨ ∃ c ∈ subs p, Below subs c q := by
  refine (Relation.ReflTransGen.cases_head_iff (r := Child subs)).trans ?_
  exact or_congr eq_comm Iff.rfl

/-- A walk lists the nodes below its start. -/
theorem mem_walk {subs : κ → List κ} {n : ℕ} {p : κ} {l : List κ} (h : walk subs n p = some l)
    (q : κ) : q ∈ l ↔ Below subs p q := by
  induction n generalizing p l q with
  | zero => cases h
  | succ n ih =>
    rw [walk, Option.map_eq_some_iff] at h
    obtain ⟨l', hl', rfl⟩ := h
    rw [List.mem_cons, mem_walkList hl', below_iff]
    refine or_congr_right ⟨?_, ?_⟩
    · rintro ⟨c, hc, l₁, h₁, hq⟩
      exact ⟨c, hc, (ih h₁ q).mp hq⟩
    · rintro ⟨c, hc, hq⟩
      obtain ⟨l₁, h₁⟩ := exists_of_walkList hl' hc
      exact ⟨c, hc, l₁, h₁, (ih h₁ q).mpr hq⟩

/-! ## When the two kinds of links agree -/

/-- The links of a forest: the children of a node are the nodes that have it as their
parent, each once, and no node is below itself. -/
structure IsForest (parent : κ → Option κ) (subs : κ → List κ) : Prop where
  mem_subs : ∀ p q, q ∈ subs p ↔ parent q = some p
  nodup : ∀ p, (subs p).Nodup
  noCycle : NoCycle (Child subs)

section
variable {parent : κ → Option κ} {subs : κ → List κ} (h : IsForest parent subs)
include h

/-- Two nodes above the same node are above each other. -/
theorem IsForest.below_or_below {p p' q : κ} (hp : Below subs p q) (hp' : Below subs p' q) :
    Below subs p p' ∨ Below subs p' p := by
  have hunique : Relator.RightUnique (Function.swap (Child subs)) := by
    intro q a b ha hb
    exact Option.some.inj (((h.mem_subs a q).mp ha).symm.trans ((h.mem_subs b q).mp hb))
  have htotal := Relation.ReflTransGen.total_of_right_unique hunique
    (Relation.reflTransGen_swap.mpr hp) (Relation.reflTransGen_swap.mpr hp')
  exact (htotal.imp Relation.reflTransGen_swap.mp Relation.reflTransGen_swap.mp).symm

/-- The trees of different children have no node in common. -/
theorem IsForest.eq_of_below {p c c' q : κ} (hc : c ∈ subs p) (hc' : c' ∈ subs p)
    (hq : Below subs c q) (hq' : Below subs c' q) : c = c' := by
  by_contra hne
  have key : ∀ a b, a ∈ subs p → b ∈ subs p → a ≠ b → ¬ Below subs a b := by
    intro a b ha hb hab hbelow
    rcases Relation.ReflTransGen.cases_tail hbelow with heq | ⟨d, hd, hdb⟩
    · exact hab heq.symm
    · obtain rfl : d = p :=
        Option.some.inj (((h.mem_subs d b).mp hdb).symm.trans ((h.mem_subs p b).mp hb))
      exact h.noCycle d (.head' ha hd)
  rcases h.below_or_below hq hq' with hb | hb
  · exact key c c' hc hc' hne hb
  · exact key c' c hc' hc (Ne.symm hne) hb

theorem IsForest.nodup_walkList {n : ℕ} (hwalk : ∀ c l, walk subs n c = some l → l.Nodup) {p : κ}
    {ps l : List κ} (hps : ps.Nodup) (hsubs : ∀ c ∈ ps, c ∈ subs p)
    (hl : walkList (walk subs n) ps = some l) : l.Nodup := by
  induction ps generalizing l with
  | nil =>
    cases hl
    exact List.nodup_nil
  | cons c ps ih =>
    have hl' := hl
    simp only [walkList, Option.bind_eq_bind, Option.bind_eq_some_iff] at hl'
    obtain ⟨l₁, h₁, l₂, h₂, h₃⟩ := hl'
    cases h₃
    obtain ⟨hc, hps⟩ := List.nodup_cons.mp hps
    refine List.nodup_append.mpr ⟨hwalk c l₁ h₁,
      ih hps (fun d hd => hsubs d (List.mem_cons_of_mem c hd)) h₂, ?_⟩
    rintro q hq₁ _ hq₂ rfl
    obtain ⟨d, hd, l', hl', hq'⟩ := (mem_walkList h₂ q).mp hq₂
    have heq := h.eq_of_below (hsubs c List.mem_cons_self) (hsubs d (List.mem_cons_of_mem c hd))
      ((mem_walk h₁ q).mp hq₁) ((mem_walk hl' q).mp hq')
    exact hc (heq ▸ hd)

/-- A walk lists every node once. -/
theorem IsForest.nodup_walk {n : ℕ} {p : κ} {l : List κ} (hl : walk subs n p = some l) :
    l.Nodup := by
  induction n generalizing p l with
  | zero => cases hl
  | succ n ih =>
    rw [walk, Option.map_eq_some_iff] at hl
    obtain ⟨l', hl', rfl⟩ := hl
    refine List.nodup_cons.mpr ⟨fun hp => ?_,
      h.nodup_walkList (fun c l => ih) (h.nodup p) (fun c hc => hc) hl'⟩
    obtain ⟨c, hc, l₁, h₁, hq⟩ := (mem_walkList hl' p).mp hp
    exact h.noCycle p (.head' hc ((mem_walk h₁ p).mp hq))

/-- The root of a node is above it, and has no parent. -/
theorem IsForest.below_of_top {n : ℕ} {p r : κ} (hr : top parent n p = some r) :
    Below subs r p ∧ parent r = none := by
  induction n generalizing p with
  | zero => cases hr
  | succ n ih =>
    cases hp : parent p with
    | none =>
      simp only [top, hp, Option.some.injEq] at hr
      subst hr
      exact ⟨.refl, hp⟩
    | some q =>
      simp only [top, hp] at hr
      exact ⟨(ih hr).1.tail ((h.mem_subs q p).mpr hp), (ih hr).2⟩

/-- A node has one root only. -/
theorem IsForest.root_unique {r r' p : κ} (hr : parent r = none) (hr' : parent r' = none)
    (hp : Below subs r p) (hp' : Below subs r' p) : r = r' := by
  have key : ∀ a b, parent b = none → Below subs a b → a = b := by
    intro a b hb hab
    rcases Relation.ReflTransGen.cases_tail hab with heq | ⟨d, -, hdb⟩
    · exact heq.symm
    · rw [(h.mem_subs d b).mp hdb] at hb
      cases hb
  rcases h.below_or_below hp hp' with hb | hb
  · exact key r r' hr' hb
  · exact (key r' r hr hb).symm

/-- What has been visited is made of whole trees. -/
def Whole (parent : κ → Option κ) (subs : κ → List κ) (visited : List κ) : Prop :=
  ∀ r p q, parent r = none → Below subs r p → Below subs r q → p ∈ visited → q ∈ visited

variable [DecidableEq κ] {n : ℕ} {r p : κ} {l : List κ}

omit [DecidableEq κ] in
theorem IsForest.sweep_step (hr : top parent n p = some r) (hl : walk subs n r = some l)
    {visited : List κ} (hv : visited.Nodup) (hw : Whole parent subs visited) (hp : p ∉ visited) :
    (visited ++ l).Nodup ∧ Whole parent subs (visited ++ l) := by
  obtain ⟨hrp, hroot⟩ := h.below_of_top hr
  refine ⟨List.nodup_append.mpr ⟨hv, h.nodup_walk hl, ?_⟩, ?_⟩
  · rintro q hq _ hq' rfl
    exact hp (hw r q p hroot ((mem_walk hl q).mp hq') hrp hq)
  · intro r' a b hr' ha hb hmem
    rw [List.mem_append] at hmem ⊢
    refine hmem.imp (hw r' a b hr' ha hb) fun ha' => (mem_walk hl b).mpr ?_
    rwa [h.root_unique hroot hr' ((mem_walk hl a).mp ha') ha]

/-- **A sweep lists every node once**: the nodes of the list, and those of their trees. -/
theorem IsForest.sweep_spec {ps : List κ} {visited : List κ} (hv : visited.Nodup)
    (hw : Whole parent subs visited)
    (hl : sweep (top parent n) (walk subs n) visited ps = some l) :
    l.Nodup ∧ (∀ q ∈ visited, q ∈ l) ∧ (∀ q ∈ ps, q ∈ l) ∧
      ∀ q ∈ l, q ∈ visited ∨ ∃ p ∈ ps, ∃ r, Below subs r p ∧ Below subs r q := by
  induction ps generalizing visited with
  | nil =>
    cases hl
    exact ⟨hv, fun q hq => hq, nofun, fun q hq => .inl hq⟩
  | cons p ps ih =>
    rw [sweep] at hl
    split at hl
    · rename_i hp
      obtain ⟨h₁, h₂, h₃, h₄⟩ := ih hv hw hl
      refine ⟨h₁, h₂, List.forall_mem_cons.mpr ⟨h₂ p hp, h₃⟩, fun q hq => (h₄ q hq).imp_right ?_⟩
      rintro ⟨a, ha, hr⟩
      exact ⟨a, List.mem_cons_of_mem p ha, hr⟩
    · rename_i hp
      simp only [Option.bind_eq_bind, Option.bind_eq_some_iff] at hl
      obtain ⟨r, hr, l', hl', hl⟩ := hl
      obtain ⟨hnodup, hwhole⟩ := h.sweep_step hr hl' hv hw hp
      have hrp := (h.below_of_top hr).1
      obtain ⟨h₁, h₂, h₃, h₄⟩ := ih hnodup hwhole hl
      refine ⟨h₁, fun q hq => h₂ q (List.mem_append_left l' hq), List.forall_mem_cons.mpr
        ⟨h₂ p (List.mem_append_right visited ((mem_walk hl' p).mpr hrp)), h₃⟩, fun q hq => ?_⟩
      rcases h₄ q hq with hq | ⟨a, ha, hr'⟩
      · rcases List.mem_append.mp hq with hq | hq
        · exact .inl hq
        · exact .inr ⟨p, List.mem_cons_self, r, hrp, (mem_walk hl' q).mp hq⟩
      · exact .inr ⟨a, List.mem_cons_of_mem p ha, hr'⟩

end

end Forest
