import Survol.Uris.Xid

/-!
# The lists of keys

The keys of a class are one list object, which the cache of the ontology and every caller share.
The construction of an object with too many values extends this list in place.

## Main definitions

* `KeyLists` — the list objects, and the one of each class that was looked up.
* `ontologyClassKeys`, `buildEntityShared` — the keys of a class, and the moniker of an object.
* `observe` — the keys that a class would be given.

## Main results

* `observe_buildEntityShared` — what one construction changes.
* `unchanged_iff` — when some constructions leave the ontology as it was.
-/

namespace Survol.Uris

open PyText (Text)

/-! ## The lists -/

/-- The list objects, by their addresses, and the list of each class of `localOntology`. -/
structure KeyLists where
  heap : List (List Text)
  localOntology : Dict Text ℕ

/-- Before any class is looked up. -/
def KeyLists.start : KeyLists := ⟨[], []⟩

/-- The contents of a list object. -/
def KeyLists.keysAt (s : KeyLists) (a : ℕ) : List Text := s.heap[a]?.getD []

/-- A class that is looked up gets the next list object, and those of `ls` are allocated. -/
def KeyLists.load (s : KeyLists) (entityType : Text) (ls : List (List Text)) : KeyLists :=
  ⟨s.heap ++ ls, Dict.set s.localOntology entityType s.heap.length⟩

/-- A list object is extended in place to `n` keys. -/
def KeyLists.extend (s : KeyLists) (a n : ℕ) : KeyLists :=
  { s with heap := s.heap.set a (keysFor (s.keysAt a) n) }

section
variable (modules : Text → Option (List Text))

/-- `OntologyClassKeys`, where `modules` gives the keys of the classes whose module has an ontology,
in a new list each time. A class without ontology gets a list in the cache, and another one is
returned. -/
def ontologyClassKeys (entityType : Text) (s : KeyLists) : ℕ × KeyLists :=
  match Dict.get? s.localOntology entityType with
  | some a => (a, s)
  | none => match modules entityType with
    | some keys => (s.heap.length, s.load entityType [keys])
    | none => (s.heap.length + 1, s.load entityType [[], []])

/-- The key-value pairs of some keys and values. -/
def entityText (keys vals : List Text) : Text :=
  let d := (keys.zip vals).foldl (fun d p => Dict.set d p.1 p.2) ([] : Dict Text Text)
  join ",".toList (d.map fun p => p.1 ++ '=' :: p.2)

/-- `BuildEntity`, on the lists: `keys += …` extends the list object itself. -/
def buildEntityShared (entityType : Text) (entityIdArr : List Text) (s : KeyLists) :
    Text × KeyLists :=
  let (a, s) := ontologyClassKeys modules entityType s
  let s := if (s.keysAt a).length < entityIdArr.length then s.extend a entityIdArr.length else s
  (entityText (s.keysAt a) entityIdArr, s)

/-- A call of `BuildEntity` or of `UriMake`. -/
structure UriCall where
  entityType : Text
  entityIdArr : List Text

/-- The lists after a call. -/
def UriCall.after (c : UriCall) (s : KeyLists) : KeyLists :=
  (buildEntityShared modules c.entityType c.entityIdArr s).2

/-- The lists after some calls. -/
def listsAfter (s : KeyLists) (calls : List UriCall) : KeyLists :=
  calls.foldl (fun s c => c.after modules s) s

/-- The keys that `OntologyClassKeys` would give for a class. -/
def observe (s : KeyLists) (entityType : Text) : List Text :=
  (ontologyClassKeys modules entityType s).2.keysAt (ontologyClassKeys modules entityType s).1

end

theorem buildEntity_eq_entityText (cls : EntityClass) (vals : List Text) :
    buildEntity cls vals = entityText (keysFor cls.keys vals.length) vals := rfl

/-! ## Lookups -/

/-- Each class that was looked up has a list of its own. -/
structure KeyLists.Ok (s : KeyLists) : Prop where
  lt : ∀ c a, Dict.get? s.localOntology c = some a → a < s.heap.length
  inj : ∀ c c' a, Dict.get? s.localOntology c = some a → Dict.get? s.localOntology c' = some a →
    c = c'

theorem KeyLists.ok_start : KeyLists.start.Ok := ⟨nofun, nofun⟩

/-- The class was looked up, or its module has an ontology: its list is shared with the cache. -/
def Shared (modules : Text → Option (List Text)) (s : KeyLists) (c : Text) : Prop :=
  c ∈ Dict.keys s.localOntology ∨ (modules c).isSome

instance (modules : Text → Option (List Text)) (s : KeyLists) (c : Text) :
    Decidable (Shared modules s c) := inferInstanceAs (Decidable (_ ∨ _))

section
variable {modules : Text → Option (List Text)} {s : KeyLists} {c d : Text} {ls : List (List Text)}

theorem observe_of_some {a : ℕ} (h : Dict.get? s.localOntology c = some a) :
    observe modules s c = s.keysAt a := by
  rw [observe, ontologyClassKeys, h]

theorem observe_of_none (h : Dict.get? s.localOntology c = none) :
    observe modules s c = (modules c).getD [] := by
  rw [observe, ontologyClassKeys, h]
  cases modules c with
  | some keys => simp [KeyLists.keysAt, KeyLists.load]
  | none => simp [KeyLists.keysAt, KeyLists.load]

theorem KeyLists.Ok.load (h : s.Ok) (hls : ls ≠ []) : (s.load c ls).Ok where
  lt d a hd := by
    have hpos := List.length_pos_of_ne_nil hls
    simp only [KeyLists.load, Dict.get?_set, List.length_append] at hd ⊢
    split at hd
    · cases hd
      omega
    · have := h.lt d a hd
      omega
  inj d d' a hd hd' := by
    simp only [KeyLists.load, Dict.get?_set] at hd hd'
    split at hd
    · rename_i hcd
      cases hd
      split at hd'
      · rename_i hcd'
        exact hcd.symm.trans hcd'
      · exact absurd (h.lt d' _ hd') (lt_irrefl _)
    · split at hd'
      · cases hd'
        exact absurd (h.lt d _ hd) (lt_irrefl _)
      · exact h.inj d d' a hd hd'

/-- A lookup gives the keys of the other classes as before. -/
theorem observe_load (h : s.Ok) (hd : d ≠ c) :
    observe modules (s.load c ls) d = observe modules s d := by
  have hget : Dict.get? (s.load c ls).localOntology d = Dict.get? s.localOntology d := by
    rw [KeyLists.load, Dict.get?_set, if_neg (Ne.symm hd)]
  cases hold : Dict.get? s.localOntology d with
  | none => rw [observe_of_none (hget.trans hold), observe_of_none hold]
  | some a =>
    rw [observe_of_some (hget.trans hold), observe_of_some hold, KeyLists.keysAt, KeyLists.keysAt,
      KeyLists.load, List.getElem?_append_left (h.lt d a hold)]

/-- A class whose list is looked up: the address of the list, and the lists after. -/
structure LooksUp (modules : Text → Option (List Text)) (s : KeyLists) (c : Text) (a : ℕ)
    (s' : KeyLists) : Prop where
  ok : s'.Ok
  lt : a < s'.heap.length
  keysAt_eq : s'.keysAt a = observe modules s c
  observe_eq : ∀ d, observe modules s' d = observe modules s d
  mem_keys : ∀ d, d ∈ Dict.keys s'.localOntology ↔ d = c ∨ d ∈ Dict.keys s.localOntology
  get?_eq_iff : ∀ d, Dict.get? s'.localOntology d = some a ↔ d = c ∧ Shared modules s c

/-- **A lookup** gives the list of its class, which only the cache shares, and changes no keys. -/
theorem looksUp_ontologyClassKeys (h : s.Ok) : LooksUp modules s c
    (ontologyClassKeys modules c s).1 (ontologyClassKeys modules c s).2 := by
  rw [ontologyClassKeys]
  cases hget : Dict.get? s.localOntology c with
  | some a =>
    have hmem : c ∈ Dict.keys s.localOntology := by
      rw [← Dict.get?_isSome_iff, hget]
      rfl
    refine ⟨h, h.lt c a hget, (observe_of_some hget).symm, fun _ => rfl, fun d => ?_, fun d => ?_⟩
    · exact ⟨.inr, fun hd => hd.elim (fun heq => heq ▸ hmem) id⟩
    · exact ⟨fun hd => ⟨h.inj d c a hd hget, .inl hmem⟩, fun hd => hd.1 ▸ hget⟩
  | none =>
    have hmem : c ∉ Dict.keys s.localOntology := (Dict.get?_eq_none_iff _ _).mp hget
    have hself (ls : List (List Text)) :
        Dict.get? (s.load c ls).localOntology c = some s.heap.length := by
      rw [KeyLists.load, Dict.get?_set, if_pos rfl]
    have hobserve (ls : List (List Text)) (hkeys : ls.head? = some ((modules c).getD []))
        (d : Text) : observe modules (s.load c ls) d = observe modules s d := by
      by_cases hd : d = c
      · rw [hd, observe_of_some (hself ls), observe_of_none hget, KeyLists.keysAt, KeyLists.load,
          List.getElem?_append_right le_rfl, Nat.sub_self, ← List.head?_eq_getElem?, hkeys]
        rfl
      · exact observe_load h hd
    have hkeys (ls : List (List Text)) (d : Text) :
        d ∈ Dict.keys (s.load c ls).localOntology ↔ d = c ∨ d ∈ Dict.keys s.localOntology :=
      Dict.mem_keys_set _ _ _ _
    have hget' (ls : List (List Text)) (hls : ls ≠ []) (a : ℕ) (ha : s.heap.length ≤ a) (d : Text) :
        Dict.get? (s.load c ls).localOntology d = some a ↔ d = c ∧ a = s.heap.length := by
      rw [KeyLists.load, Dict.get?_set]
      by_cases hd : c = d
      · rw [if_pos hd, Option.some.injEq]
        exact ⟨fun heq => ⟨hd.symm, heq.symm⟩, fun heq => heq.2.symm⟩
      · rw [if_neg hd]
        refine iff_of_false (fun heq => ?_) fun heq => hd heq.1.symm
        exact absurd (h.lt d a heq) (by omega)
    cases hmod : modules c with
    | some keys =>
      have hls : ([keys] : List (List Text)) ≠ [] := List.cons_ne_nil _ _
      refine ⟨h.load hls, by simp [KeyLists.load], ?_, hobserve _ (by rw [hmod]; rfl), hkeys _,
        fun d => ?_⟩
      · rw [observe_of_none hget, hmod]
        simp [KeyLists.keysAt, KeyLists.load]
      · rw [hget' _ hls _ le_rfl, Shared, hmod]
        exact and_congr_right fun _ => ⟨fun _ => .inr rfl, fun _ => rfl⟩
    | none =>
      have hls : ([[], []] : List (List Text)) ≠ [] := List.cons_ne_nil _ _
      refine ⟨h.load hls, by simp [KeyLists.load], ?_, hobserve _ (by rw [hmod]; rfl), hkeys _,
        fun d => ?_⟩
      · rw [observe_of_none hget, hmod]
        simp [KeyLists.keysAt, KeyLists.load]
      · rw [hget' _ hls _ (Nat.le_succ _), Shared, hmod]
        refine and_congr_right fun _ => iff_of_false (Nat.succ_ne_self _) ?_
        rintro (hin | hsome)
        · exact hmem hin
        · cases hsome

/-! ## One construction -/

theorem KeyLists.Ok.extend (h : s.Ok) (a n : ℕ) : (s.extend a n).Ok where
  lt d b hd := by
    rw [KeyLists.extend, List.length_set]
    exact h.lt d b hd
  inj := h.inj

theorem keysAt_extend {a b n : ℕ} (h : a < s.heap.length) :
    (s.extend a n).keysAt b = if a = b then keysFor (s.keysAt a) n else s.keysAt b := by
  rw [KeyLists.keysAt, KeyLists.extend, List.getElem?_set]
  by_cases hab : a = b
  · rw [if_pos hab, if_pos hab, if_pos h]
    rfl
  · rw [if_neg hab, if_neg hab]
    rfl

/-- Only a class that shares the list sees the extension. -/
theorem observe_extend {a n : ℕ} (h : a < s.heap.length) :
    observe modules (s.extend a n) d =
      if Dict.get? s.localOntology d = some a then keysFor (s.keysAt a) n
      else observe modules s d := by
  cases hd : Dict.get? s.localOntology d with
  | none =>
    have hd' : Dict.get? (s.extend a n).localOntology d = none := hd
    rw [observe_of_none hd, observe_of_none hd', if_neg nofun]
  | some b =>
    have hd' : Dict.get? (s.extend a n).localOntology d = some b := hd
    rw [observe_of_some hd, observe_of_some hd', keysAt_extend h]
    by_cases hab : a = b
    · rw [if_pos hab, if_pos (congrArg some hab.symm)]
    · rw [if_neg hab, if_neg fun heq => hab (Option.some.inj heq).symm]

theorem keysFor_of_le {keys : List Text} {n : ℕ} (h : n ≤ keys.length) : keysFor keys n = keys :=
  if_neg (by omega)

theorem extend_of_le {a n : ℕ} (h : a < s.heap.length) (hn : n ≤ (s.keysAt a).length) :
    s.extend a n = s := by
  have hkeys : s.keysAt a = s.heap[a] := by
    rw [KeyLists.keysAt, List.getElem?_eq_getElem h]
    rfl
  rw [KeyLists.extend, keysFor_of_le hn, hkeys, List.set_getElem_self]

/-- The list is extended when there are not enough keys. -/
theorem buildEntityShared_eq (h : s.Ok) (vals : List Text) : ∃ a s', LooksUp modules s c a s' ∧
    buildEntityShared modules c vals s =
      (entityText (keysFor (observe modules s c) vals.length) vals, s'.extend a vals.length) := by
  have hlook := @looksUp_ontologyClassKeys modules s c h
  refine ⟨_, _, hlook, ?_⟩
  have hstate {a : ℕ} {s' : KeyLists} (ha : a < s'.heap.length) :
      (if (s'.keysAt a).length < vals.length then s'.extend a vals.length else s') =
        s'.extend a vals.length := by
    split
    · rfl
    · rw [extend_of_le ha (by omega)]
  rw [buildEntityShared]
  dsimp only
  rw [hstate hlook.lt, keysAt_extend hlook.lt, if_pos rfl, hlook.keysAt_eq]

/-- **One construction** extends the keys of its class, when the list is shared. -/
theorem observe_buildEntityShared (h : s.Ok) (vals : List Text) (d : Text) :
    observe modules (buildEntityShared modules c vals s).2 d =
      if d = c ∧ Shared modules s c then keysFor (observe modules s c) vals.length
      else observe modules s d := by
  obtain ⟨a, s', hlook, heq⟩ := @buildEntityShared_eq modules s c h vals
  rw [heq, observe_extend hlook.lt, hlook.keysAt_eq, hlook.observe_eq]
  simp only [hlook.get?_eq_iff]

theorem ok_buildEntityShared (h : s.Ok) (vals : List Text) :
    (buildEntityShared modules c vals s).2.Ok := by
  obtain ⟨a, s', hlook, heq⟩ := @buildEntityShared_eq modules s c h vals
  rw [heq]
  exact hlook.ok.extend a vals.length

theorem shared_buildEntityShared (h : s.Ok) (vals : List Text) (d : Text) :
    Shared modules (buildEntityShared modules c vals s).2 d ↔ d = c ∨ Shared modules s d := by
  obtain ⟨a, s', hlook, heq⟩ := @buildEntityShared_eq modules s c h vals
  have hkeys : d ∈ Dict.keys (s'.extend a vals.length).localOntology ↔
      d = c ∨ d ∈ Dict.keys s.localOntology := hlook.mem_keys d
  rw [heq, Shared, Shared, hkeys, or_assoc]

/-! ## The texts -/

/-- The name of a fake key. -/
def fakeKey (idx : ℕ) : Text := "Key_".toList ++ natText idx

/-- The same keys, up to fake ones. -/
def SameKeys (keys keys' : List Text) : Prop :=
  ∀ i, keys'[i]?.getD (fakeKey i) = keys[i]?.getD (fakeKey i)

theorem getElem?_keysFor (keys : List Text) (n i : ℕ) : (keysFor keys n)[i]? =
    if i < keys.length then keys[i]? else if i < n then some (fakeKey i) else none := by
  rw [keysFor]
  split
  · rename_i hn
    rw [List.getElem?_append]
    split
    · rfl
    · rename_i hi
      rw [List.getElem?_map]
      by_cases hin : i < n
      · have heq : keys.length + 1 * (i - keys.length) = i := by omega
        rw [if_pos hin, List.getElem?_range' (by omega), heq]
        rfl
      · rw [if_neg hin, List.getElem?_eq_none (by rw [List.length_range']; omega)]
        rfl
  · rename_i hn
    split
    · rfl
    · rename_i hi
      rw [if_neg (by omega), List.getElem?_eq_none (by omega)]

theorem sameKeys_keysFor (keys : List Text) (n : ℕ) : SameKeys keys (keysFor keys n) := by
  intro i
  rw [getElem?_keysFor]
  split
  · rfl
  · rename_i hi
    rw [List.getElem?_eq_none (by omega : keys.length ≤ i)]
    split <;> rfl

theorem take_length_zip (l vals : List Text) : (l.take vals.length).zip vals = l.zip vals := by
  induction vals generalizing l with
  | nil => rw [List.zip_nil_right, List.zip_nil_right]
  | cons v vals ih =>
    cases l with
    | nil => rfl
    | cons k l => rw [List.length_cons, List.take_succ_cons, List.zip_cons_cons, ih,
        List.zip_cons_cons]

/-- The text of an object depends on the keys up to fake ones. -/
theorem entityText_of_sameKeys {keys keys' : List Text} (h : SameKeys keys keys')
    (vals : List Text) : entityText (keysFor keys' vals.length) vals =
      entityText (keysFor keys vals.length) vals := by
  have htake (l : List Text) : (keysFor l vals.length).take vals.length =
      (List.range vals.length).map fun i => l[i]?.getD (fakeKey i) := by
    refine List.ext_getElem? fun i => ?_
    rw [List.getElem?_take, List.getElem?_map, getElem?_keysFor]
    by_cases hi : i < vals.length
    · rw [if_pos hi, List.getElem?_range hi, if_pos hi, Option.map_some]
      split
      · rename_i hl
        rw [List.getElem?_eq_getElem hl]
        rfl
      · rename_i hl
        rw [List.getElem?_eq_none (by omega : l.length ≤ i)]
        rfl
    · rw [if_neg hi, List.getElem?_eq_none (by rw [List.length_range]; omega)]
      rfl
  have hzip (l : List Text) : (keysFor l vals.length).zip vals =
      ((List.range vals.length).map fun i => l[i]?.getD (fakeKey i)).zip vals := by
    rw [← htake, take_length_zip]
  have hkeys : (fun i => keys'[i]?.getD (fakeKey i)) = fun i => keys[i]?.getD (fakeKey i) :=
    funext h
  rw [entityText, entityText, hzip, hzip, hkeys]

/-! ## Several constructions -/

theorem listsAfter_cons (s : KeyLists) (call : UriCall) (calls : List UriCall) :
    listsAfter modules s (call :: calls) = listsAfter modules (call.after modules s) calls := rfl

theorem ok_listsAfter (h : s.Ok) (calls : List UriCall) : (listsAfter modules s calls).Ok := by
  induction calls generalizing s with
  | nil => exact h
  | cons call calls ih => exact ih (ok_buildEntityShared h call.entityIdArr)

/-- The keys of a class only become longer, by fake keys. -/
theorem observe_after (h : s.Ok) (call : UriCall) (d : Text) :
    (observe modules s d).length ≤ (observe modules (call.after modules s) d).length ∧
      SameKeys (observe modules s d) (observe modules (call.after modules s) d) := by
  rw [UriCall.after, observe_buildEntityShared h]
  split
  · rename_i hd
    rw [hd.1]
    refine ⟨?_, sameKeys_keysFor _ _⟩
    rw [keysFor]
    split
    · rw [List.length_append]
      omega
    · exact le_rfl
  · exact ⟨le_rfl, fun _ => rfl⟩

theorem observe_listsAfter (h : s.Ok) (calls : List UriCall) (d : Text) :
    (observe modules s d).length ≤ (observe modules (listsAfter modules s calls) d).length ∧
      SameKeys (observe modules s d) (observe modules (listsAfter modules s calls) d) := by
  induction calls generalizing s with
  | nil => exact ⟨le_rfl, fun _ => rfl⟩
  | cons call calls ih =>
    obtain ⟨hle, hsame⟩ := @observe_after modules s h call d
    obtain ⟨hle', hsame'⟩ := ih (ok_buildEntityShared h call.entityIdArr)
    exact ⟨hle.trans hle', fun i => (hsame' i).trans (hsame i)⟩

/-- A call has few enough values, or the list that it extends is not shared. -/
def FewValues (modules : Text → Option (List Text)) (s : KeyLists) (call : UriCall) : Prop :=
  call.entityIdArr.length ≤ (observe modules s call.entityType).length ∨
    ¬ Shared modules s call.entityType

/-- One call leaves the keys of every class as they were. -/
theorem observe_after_eq_iff (h : s.Ok) (call : UriCall) :
    (∀ d, observe modules (call.after modules s) d = observe modules s d) ↔
      FewValues modules s call := by
  constructor
  · intro hsame
    have hself := hsame call.entityType
    rw [UriCall.after, observe_buildEntityShared h] at hself
    by_cases hshared : Shared modules s call.entityType
    · rw [if_pos ⟨rfl, hshared⟩] at hself
      by_contra hfew
      rw [FewValues, not_or, not_le] at hfew
      have hlen := congrArg List.length hself
      rw [keysFor, if_pos hfew.1, List.length_append, List.length_map, List.length_range'] at hlen
      omega
    · exact .inr hshared
  · intro hfew d
    rw [UriCall.after, observe_buildEntityShared h]
    split
    · rename_i hd
      rcases hfew with hle | hnot
      · rw [keysFor_of_le hle, hd.1]
      · exact absurd hd.2 hnot
    · rfl

/-- The calls leave the keys of every class as they were when each of them does. -/
theorem observe_listsAfter_cons (h : s.Ok) (call : UriCall) (calls : List UriCall) :
    (∀ d, observe modules (listsAfter modules s (call :: calls)) d = observe modules s d) ↔
      FewValues modules s call ∧ ∀ d, observe modules (listsAfter modules (call.after modules s)
        calls) d = observe modules (call.after modules s) d := by
  have hok := @ok_buildEntityShared modules s call.entityType h call.entityIdArr
  rw [listsAfter_cons, ← observe_after_eq_iff h]
  constructor
  · intro hall
    have hstep : ∀ d, observe modules (call.after modules s) d = observe modules s d := by
      intro d
      obtain ⟨hle, -⟩ := @observe_after modules s h call d
      obtain ⟨hle', -⟩ := @observe_listsAfter modules _ hok calls d
      have hlen := congrArg List.length (hall d)
      have heq : (observe modules (call.after modules s) d).length =
          (observe modules s d).length := le_antisymm (hlen ▸ hle') hle
      rw [UriCall.after, observe_buildEntityShared h] at heq ⊢
      split at heq
      · rename_i hd
        rw [if_pos hd]
        rw [hd.1] at heq ⊢
        rw [keysFor] at heq ⊢
        split
        · rename_i hlt
          rw [if_pos hlt, List.length_append, List.length_map, List.length_range'] at heq
          omega
        · rfl
      · rename_i hd
        rw [if_neg hd]
    exact ⟨hstep, fun d => (hall d).trans (hstep d).symm⟩
  · rintro ⟨hstep, hall⟩ d
    exact (hall d).trans (hstep d)

/-- **The calls that leave the ontology as it was**: each of them has as many values as its class
has keys at most, or it is the first call for a class without ontology that was not looked up. -/
def Spares (modules : Text → Option (List Text)) (s : KeyLists) (calls : List UriCall) : Prop :=
  ∀ before call after, calls = before ++ call :: after →
    call.entityIdArr.length ≤ (observe modules s call.entityType).length ∨
      ¬ Shared modules s call.entityType ∧ ∀ b ∈ before, b.entityType ≠ call.entityType

theorem spares_cons (h : s.Ok) (call : UriCall) (calls : List UriCall)
    (hfew : FewValues modules s call) : Spares modules s (call :: calls) ↔
      Spares modules (call.after modules s) calls := by
  have hobserve := (observe_after_eq_iff h call).mpr hfew
  have hshared (d : Text) : ¬ Shared modules (call.after modules s) d ↔
      call.entityType ≠ d ∧ ¬ Shared modules s d := by
    rw [UriCall.after, shared_buildEntityShared h, not_or]
    exact and_congr_left fun _ => ne_comm
  constructor
  · intro hs before c after heq
    rcases hs (call :: before) c after (by rw [heq]; rfl) with hle | ⟨hnot, hfirst⟩
    · exact .inl (by rw [hobserve]; exact hle)
    · rw [List.forall_mem_cons] at hfirst
      exact .inr ⟨(hshared _).mpr ⟨hfirst.1, hnot⟩, hfirst.2⟩
  · intro hs before c after heq
    cases before with
    | nil =>
      obtain ⟨rfl, rfl⟩ := List.cons.inj heq
      exact hfew.imp_right fun hnot => ⟨hnot, List.forall_mem_nil _⟩
    | cons b before =>
      obtain ⟨rfl, rfl⟩ := List.cons.inj heq
      rcases hs before c after rfl with hle | ⟨hnot, hfirst⟩
      · rw [hobserve] at hle
        exact .inl hle
      · obtain ⟨hne, hnot'⟩ := (hshared _).mp hnot
        exact .inr ⟨hnot', List.forall_mem_cons.mpr ⟨hne, hfirst⟩⟩

theorem observe_listsAfter_iff (h : s.Ok) (calls : List UriCall) :
    (∀ d, observe modules (listsAfter modules s calls) d = observe modules s d) ↔
      Spares modules s calls := by
  induction calls generalizing s with
  | nil => exact iff_of_true (fun _ => rfl) fun before call after heq => by simp at heq
  | cons call calls ih =>
    have hok : (call.after modules s).Ok := ok_buildEntityShared h call.entityIdArr
    rw [observe_listsAfter_cons h, ih hok]
    constructor
    · rintro ⟨hfew, hs⟩
      exact (spares_cons h call calls hfew).mpr hs
    · intro hs
      have hfew : FewValues modules s call :=
        (hs [] call calls rfl).imp_right fun hnot => hnot.1
      exact ⟨hfew, (spares_cons h call calls hfew).mp hs⟩

end

/-- **When the ontology stays as it was**, after any earlier calls. The text of an object depends on
its own values only in any case. -/
theorem unchanged_iff (modules : Text → Option (List Text)) (earlier calls : List UriCall) :
    ((∀ d, observe modules (listsAfter modules .start (earlier ++ calls)) d =
        observe modules (listsAfter modules .start earlier) d) ↔
      Spares modules (listsAfter modules .start earlier) calls) ∧
    ∀ (entityType : Text) (vals : List Text),
      (buildEntityShared modules entityType vals (listsAfter modules .start earlier)).1 =
        (buildEntityShared modules entityType vals .start).1 := by
  have hok := @ok_listsAfter modules _ KeyLists.ok_start earlier
  constructor
  · have happend : listsAfter modules .start (earlier ++ calls) =
        listsAfter modules (listsAfter modules .start earlier) calls := List.foldl_append
    rw [happend]
    exact observe_listsAfter_iff hok calls
  · intro entityType vals
    obtain ⟨a, s', -, heq⟩ :=
      @buildEntityShared_eq modules _ entityType hok vals
    obtain ⟨a', s'', -, heq'⟩ :=
      @buildEntityShared_eq modules _ entityType KeyLists.ok_start vals
    rw [heq, heq']
    exact entityText_of_sameKeys (observe_listsAfter KeyLists.ok_start earlier entityType).2 vals

/-- Two values for a class with one key add a key to the class. -/
theorem not_forall_unchanged : ¬ ∀ (modules : Text → Option (List Text)) (calls : List UriCall),
    ∀ d, observe modules (listsAfter modules .start calls) d = observe modules .start d := by
  intro h
  have hname := h (fun _ => some ["Name".toList])
    [⟨"CIM_DataFile".toList, ["/tmp/a".toList, "x".toList]⟩] "CIM_DataFile".toList
  exact absurd hname (by decide)

end Survol.Uris
