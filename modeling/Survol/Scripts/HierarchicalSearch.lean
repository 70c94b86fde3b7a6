import Survol.Lib.Effect
import Survol.Lib.Memo
import Survol.Lib.Positions
import Survol.Lib.Splitting

/-!
# The search of a function in the modules of a class

A function for the objects of a class is searched in the module of the class, then in the module
of the class above it, and so on. The modules are loaded when they are needed, and they are kept,
as are the functions that were found. What is kept changes no answer. A module that raises when it
is loaded, anything else than `ImportError`, ends the call, and nothing is kept of it.

## Main definitions

* `Caches`, `getEntityModule`, `hierarchicalFunctionSearch` — the code.
* `ancestors t` — the class and those above it, the nearest first.
* `nearest` — the function of the nearest class that has it.

## Main results

* `searchLoop_eq` — the loop over the dots finds the nearest function.
* `answers_eq` — in any run of calls, each answer is that of a fresh program, and a class whose
  module raises nothing is loaded once.
-/

open PyText

namespace Survol.Scripts

variable {ε Φ : Type}

/-- A module, by its attributes. -/
abbrev EntityModule (Φ : Type) := Text → Option Φ

/-- `cacheEntityToModule`, with the classes that were loaded, and
`dictHierarchicalFunctionSearch`. -/
structure Caches (Φ : Type) where
  cacheEntityToModule : Memo.Cache Text (Option (EntityModule Φ))
  dictHierarchicalFunctionSearch : Dict Text (Dict Text (Option Φ))

/-- The empty class has no module. -/
def Caches.init : Caches Φ := ⟨.ofItems [([], none)], []⟩

/-- The function is stored under its name and the class. -/
def Caches.store (c : Caches Φ) (functionName typeWithoutNS : Text) (funcObj : Option Φ) :
    Caches Φ :=
  let d := (c.dictHierarchicalFunctionSearch.get? functionName).getD []
  ⟨c.cacheEntityToModule,
    c.dictHierarchicalFunctionSearch.set functionName (d.set typeWithoutNS funcObj)⟩

/-- What a module raises when it is loaded, and what `HierarchicalFunctionSearch` raises: a text is
no exception. -/
inductive SearchExn (ε : Type) where
  | importError
  | typeError
  | other (e : ε)
  deriving DecidableEq

/-- A computation on what is kept. -/
abbrev SearchM (ε Φ : Type) := Py (SearchExn ε) (Caches Φ)

/-- `GetEntityModuleNoCacheNoCatch`, that is `importlib.import_module`. -/
abbrev Loader (ε Φ : Type) := Text → Except (SearchExn ε) (EntityModule Φ)

section
variable (getEntityModuleNoCacheNoCatch : Loader ε Φ)

/-- `GetEntityModuleNoCache` -/
def getEntityModuleNoCache (entityType : Text) :
    Except (SearchExn ε) (Option (EntityModule Φ)) :=
  match getEntityModuleNoCacheNoCatch entityType with
  | .ok entityModule => .ok (some entityModule)
  | .error .importError => .ok none
  | .error e => .error e

/-- `GetEntityModule` -/
def getEntityModule (entityType : Text) : SearchM ε Φ (Option (EntityModule Φ)) :=
  ⟨fun c =>
    let r := Memo.tryLookup (getEntityModuleNoCache getEntityModuleNoCacheNoCatch)
      c.cacheEntityToModule entityType
    (r.1, { c with cacheEntityToModule := r.2 })⟩

/-- The loop of `HierarchicalFunctionSearchNoCache`, from `lastDot`. -/
def searchLoop (typeWithoutNS gFuncName : Text) (lastDot : ℕ) : SearchM ε Φ (Option Φ) :=
  if lastDot = 0 then pure none else do
    let choppedEntityType := typeWithoutNS.take lastDot
    let entityModule ← getEntityModule getEntityModuleNoCacheNoCatch choppedEntityType
    match entityModule.bind fun m => m gFuncName with
    | some gFuncAddr => pure (some gFuncAddr)
    | none => match _h : rfindChar '.' choppedEntityType with
      | some lastDot => searchLoop typeWithoutNS gFuncName lastDot
      | none => pure none
termination_by lastDot
decreasing_by
  have := rfindChar_lt _h
  rw [List.length_take] at this
  omega

/-- `HierarchicalFunctionSearchNoCache` -/
def hierarchicalFunctionSearchNoCache (typeWithoutNS gFuncName : Text) :
    SearchM ε Φ (Option Φ) :=
  searchLoop getEntityModuleNoCacheNoCatch typeWithoutNS gFuncName typeWithoutNS.length

/-- `HierarchicalFunctionSearch` -/
def hierarchicalFunctionSearch (typeWithoutNS functionName : Text) : SearchM ε Φ (Option Φ) :=
  if '.' ∈ typeWithoutNS then .raise .typeError else do
    let typeWithoutNS := typeWithoutNS.map fun x => if x = '/' then '.' else x
    let c ← Py.get
    match (c.dictHierarchicalFunctionSearch.get? functionName).bind (·.get? typeWithoutNS) with
    | some funcObj => pure funcObj
    | none =>
      let funcObj ← hierarchicalFunctionSearchNoCache getEntityModuleNoCacheNoCatch typeWithoutNS
        functionName
      .modify fun c => c.store functionName typeWithoutNS funcObj
      pure funcObj

/-! ## What a fresh program answers -/

/-- What `GetEntityModule` gives when nothing was kept. -/
def freshModule (entityType : Text) : Except (SearchExn ε) (Option (EntityModule Φ)) :=
  if entityType = [] then .ok none
  else getEntityModuleNoCache getEntityModuleNoCacheNoCatch entityType

/-- The classes of a path and those above it, the nearest first. -/
def ancestors (parts : List Text) : List (List Text) := parts.inits.reverse

/-- The name of the module of a class. -/
def dotted (parts : List Text) : Text := ['.'].intercalate parts

/-- The function of a class itself. -/
def ownFunction (functionName : Text) (parts : List Text) : Except (SearchExn ε) (Option Φ) :=
  (freshModule getEntityModuleNoCacheNoCatch (dotted parts)).map (·.bind fun m => m functionName)

/-- The function of the nearest class that has it; a class on the way to it may raise. -/
def nearest (functionName : Text) (parts : List Text) : Except (SearchExn ε) (Option Φ) :=
  (ancestors parts).findSomeM? (ownFunction getEntityModuleNoCacheNoCatch functionName)

end

variable {f : Loader ε Φ} {c : Caches Φ}

@[simp] theorem ancestors_nil : ancestors [] = [[]] := rfl

/-- Above a class, there are the classes above its container. -/
theorem ancestors_concat (ps : List Text) (p : Text) :
    ancestors (ps ++ [p]) = (ps ++ [p]) :: ancestors ps := by
  rw [ancestors, ancestors, List.inits_append]
  simp

@[simp] theorem ownFunction_nil (functionName : Text) :
    ownFunction f functionName [] = .ok none := rfl

theorem nearest_concat (functionName : Text) (ps : List Text) (p : Text) :
    nearest f functionName (ps ++ [p]) = (do
      match ← ownFunction f functionName (ps ++ [p]) with
      | some gFuncAddr => pure (some gFuncAddr)
      | none => nearest f functionName ps) := by
  rw [nearest, ancestors_concat]
  rfl

/-- A class without a name, and those above it, have no function. -/
theorem nearest_of_dotted_eq_nil {parts : List Text} (h : dotted parts = [])
    (functionName : Text) : nearest f functionName parts = .ok none := by
  induction parts using List.reverseRecOn with
  | nil => rfl
  | append_singleton ps p ih =>
    have hown : ownFunction f functionName (ps ++ [p]) = .ok none := by
      rw [ownFunction, h]
      rfl
    have hps : dotted ps = [] := by
      by_cases hps : ps = []
      · rw [hps]
        rfl
      · rw [dotted, intercalate_concat hps] at h
        simp at h
    rw [nearest_concat, hown]
    exact ih hps

/-! ## The loop -/

/-- What is kept is what a fresh program would find, and the empty class is kept. -/
structure Kept (f : Loader ε Φ) (c : Caches Φ) : Prop where
  modules : Memo.TrySound (freshModule f) c.cacheEntityToModule
  noModule : c.cacheEntityToModule.items.get? [] = some none
  functions : ∀ functionName typeWithoutNS funcObj,
    (c.dictHierarchicalFunctionSearch.get? functionName).bind (·.get? typeWithoutNS)
      = some funcObj → nearest f functionName (splitOn '.' typeWithoutNS) = .ok funcObj

theorem kept_init : Kept f .init where
  modules := by
    refine Memo.TrySound.ofItems fun k v h => ?_
    rw [Dict.get?_cons] at h
    split at h
    · rename_i hk
      subst hk
      rw [← Option.some.inj h]
      rfl
    · cases h
  noModule := rfl
  functions := by
    intro _ _ _ h
    cases h

/-- The empty class is always found in what is kept. -/
theorem tryLookup_fresh {k : Memo.Cache Text (Option (EntityModule Φ))}
    (h : k.items.get? [] = some none) (entityType : Text) :
    Memo.tryLookup (getEntityModuleNoCache f) k entityType
      = Memo.tryLookup (freshModule f) k entityType := by
  by_cases ht : entityType = []
  · subst ht
    rw [Memo.tryLookup_of_some h, Memo.tryLookup_of_some h]
  · rw [Memo.tryLookup, Memo.tryLookup, freshModule, if_neg ht]

theorem getEntityModule_fst (hc : Kept f c) (entityType : Text) :
    ((getEntityModule f entityType).run c).1 = freshModule f entityType := by
  rw [getEntityModule]
  dsimp only
  rw [tryLookup_fresh hc.noModule]
  exact hc.modules.value entityType

theorem kept_getEntityModule (hc : Kept f c) (entityType : Text) :
    Kept f ((getEntityModule f entityType).run c).2 where
  modules := by
    rw [getEntityModule]
    dsimp only
    rw [tryLookup_fresh hc.noModule]
    exact hc.modules.tryLookup entityType
  noModule := Memo.get?_tryLookup hc.noModule
  functions := hc.functions

section
variable {lastDot : ℕ} (h : lastDot ≠ 0) (typeWithoutNS : Text) {gFuncName : Text} (hc : Kept f c)
include h hc

/-- The module of the class raises. -/
theorem searchLoop_of_error {e : SearchExn ε}
    (hm : freshModule f (typeWithoutNS.take lastDot) = .error e) :
    (searchLoop f typeWithoutNS gFuncName lastDot).run c
      = (.error e, ((getEntityModule f (typeWithoutNS.take lastDot)).run c).2) := by
  have hrun := getEntityModule_fst hc (typeWithoutNS.take lastDot)
  rw [hm] at hrun
  rw [searchLoop, if_neg h]
  exact Py.run_bind_of_error (Prod.ext hrun rfl) _

/-- The module of the class has the function. -/
theorem searchLoop_of_some {entityModule : Option (EntityModule Φ)} {gFuncAddr : Φ}
    (hm : freshModule f (typeWithoutNS.take lastDot) = .ok entityModule)
    (hf : entityModule.bind (fun m => m gFuncName) = some gFuncAddr) :
    (searchLoop f typeWithoutNS gFuncName lastDot).run c
      = (.ok (some gFuncAddr), ((getEntityModule f (typeWithoutNS.take lastDot)).run c).2) := by
  have hrun := getEntityModule_fst hc (typeWithoutNS.take lastDot)
  rw [hm] at hrun
  rw [searchLoop, if_neg h]
  dsimp only
  rw [Py.run_bind_of_ok (Prod.ext hrun rfl), hf]
  rfl

/-- The module of the class has no such function, and the class has a container. -/
theorem searchLoop_of_none_of_some {entityModule : Option (EntityModule Φ)} {k : ℕ}
    (hm : freshModule f (typeWithoutNS.take lastDot) = .ok entityModule)
    (hf : entityModule.bind (fun m => m gFuncName) = none)
    (hr : rfindChar '.' (typeWithoutNS.take lastDot) = some k) :
    (searchLoop f typeWithoutNS gFuncName lastDot).run c
      = (searchLoop f typeWithoutNS gFuncName k).run
        ((getEntityModule f (typeWithoutNS.take lastDot)).run c).2 := by
  have hrun := getEntityModule_fst hc (typeWithoutNS.take lastDot)
  rw [hm] at hrun
  rw [searchLoop, if_neg h]
  dsimp only
  rw [Py.run_bind_of_ok (Prod.ext hrun rfl), hf]
  dsimp only
  split
  · rename_i hr'
    rw [hr] at hr'
    rw [Option.some.inj hr']
  · rename_i hr'
    rw [hr] at hr'
    cases hr'

/-- The module of the class has no such function, and the class is an outer one. -/
theorem searchLoop_of_none_of_none {entityModule : Option (EntityModule Φ)}
    (hm : freshModule f (typeWithoutNS.take lastDot) = .ok entityModule)
    (hf : entityModule.bind (fun m => m gFuncName) = none)
    (hr : rfindChar '.' (typeWithoutNS.take lastDot) = none) :
    (searchLoop f typeWithoutNS gFuncName lastDot).run c
      = (.ok none, ((getEntityModule f (typeWithoutNS.take lastDot)).run c).2) := by
  have hrun := getEntityModule_fst hc (typeWithoutNS.take lastDot)
  rw [hm] at hrun
  rw [searchLoop, if_neg h]
  dsimp only
  rw [Py.run_bind_of_ok (Prod.ext hrun rfl), hf]
  dsimp only
  split
  · rename_i hr'
    rw [hr] at hr'
    cases hr'
  · rfl

end

theorem searchLoop_zero (typeWithoutNS gFuncName : Text) :
    (searchLoop f typeWithoutNS gFuncName 0).run c = (.ok none, c) := by
  rw [searchLoop, if_pos rfl]
  rfl

/-- The loop finds the function of the nearest class. -/
theorem searchLoop_eq {parts : List Text} (hparts : ∀ p ∈ parts, '.' ∉ p) {typeWithoutNS : Text}
    (hpre : dotted parts <+: typeWithoutNS) (gFuncName : Text) (hc : Kept f c) :
    ((searchLoop f typeWithoutNS gFuncName (dotted parts).length).run c).1
        = nearest f gFuncName parts
      ∧ Kept f ((searchLoop f typeWithoutNS gFuncName (dotted parts).length).run c).2 := by
  -- on the classes, from the outer one; one turn of the loop goes to the container
  induction parts using List.reverseRecOn generalizing c with
  | nil =>
    rw [show (dotted []).length = 0 from rfl, searchLoop_zero]
    exact ⟨rfl, hc⟩
  | append_singleton ps p ih =>
    by_cases hempty : dotted (ps ++ [p]) = []
    · rw [hempty, List.length_nil, searchLoop_zero, nearest_of_dotted_eq_nil hempty]
      exact ⟨rfl, hc⟩
    · have htake : typeWithoutNS.take (dotted (ps ++ [p])).length = dotted (ps ++ [p]) :=
        (List.prefix_iff_eq_take.mp hpre).symm
      have hzero : (dotted (ps ++ [p])).length ≠ 0 := mt List.length_eq_zero_iff.mp hempty
      have hc' := kept_getEntityModule hc (dotted (ps ++ [p]))
      rw [nearest_concat, ownFunction]
      cases hm : freshModule f (dotted (ps ++ [p])) with
      | error e =>
        rw [searchLoop_of_error hzero typeWithoutNS hc (by rw [htake, hm]), htake]
        exact ⟨rfl, hc'⟩
      | ok entityModule =>
        rw [Except.map]
        cases hown : entityModule.bind (fun m => m gFuncName) with
        | some gFuncAddr =>
          rw [searchLoop_of_some hzero typeWithoutNS hc (by rw [htake, hm]) hown, htake]
          exact ⟨rfl, hc'⟩
        | none =>
          have hp : '.' ∉ p := hparts p (by simp)
          by_cases hps : ps = []
          · subst hps
            have hr : rfindChar '.' (dotted ([] ++ [p])) = none :=
              rfindChar_eq_none (by simpa [dotted] using hp)
            rw [searchLoop_of_none_of_none hzero typeWithoutNS hc (by rw [htake, hm]) hown
              (by rw [htake]; exact hr), htake]
            exact ⟨rfl, hc'⟩
          · have heq : dotted (ps ++ [p]) = dotted ps ++ '.' :: p := by
              rw [dotted, intercalate_concat hps]
              simp [dotted]
            have hr : rfindChar '.' (dotted (ps ++ [p])) = some (dotted ps).length := by
              rw [heq]
              exact rfindChar_append hp _
            rw [searchLoop_of_none_of_some hzero typeWithoutNS hc (by rw [htake, hm]) hown
              (by rw [htake]; exact hr), htake]
            refine ih (fun q hq => hparts q (by simp [hq])) ?_ hc'
            exact (heq ▸ List.prefix_append (dotted ps) ('.' :: p)).trans hpre

/-! ## The calls -/

theorem kept_store (hc : Kept f c) {functionName typeWithoutNS : Text} {funcObj : Option Φ}
    (hn : nearest f functionName (splitOn '.' typeWithoutNS) = .ok funcObj) :
    Kept f (c.store functionName typeWithoutNS funcObj) where
  modules := hc.modules
  noModule := hc.noModule
  functions := by
    intro fn t v h
    simp only [Caches.store] at h
    rw [Dict.get?_set] at h
    by_cases hfn : functionName = fn
    · subst hfn
      rw [if_pos rfl, Option.bind_some, Dict.get?_set] at h
      by_cases ht : typeWithoutNS = t
      · subst ht
        rw [if_pos rfl] at h
        rw [hn, Option.some.inj h]
      · rw [if_neg ht] at h
        refine hc.functions functionName t v ?_
        cases hget : c.dictHierarchicalFunctionSearch.get? functionName with
        | none =>
          rw [hget] at h
          cases h
        | some d =>
          rw [hget] at h
          exact h
    · rw [if_neg hfn] at h
      exact hc.functions fn t v h

/-- The dots that stand for the slashes separate the same parts. -/
theorem splitOn_replaced {t : Text} (h : '.' ∉ t) :
    splitOn '.' (t.map fun x => if x = '/' then '.' else x) = splitOn '/' t := by
  induction t with
  | nil => rfl
  | cons x t ih =>
    rw [List.mem_cons, not_or] at h
    rw [List.map_cons, splitOn, splitOn, ih h.2]
    by_cases hx : x = '/'
    · rw [if_pos hx, if_pos rfl, if_pos hx]
    · rw [if_neg hx, if_neg (Ne.symm h.1), if_neg hx]

/-- What a search answers in a fresh program. -/
def freshSearch (f : Loader ε Φ) (typeWithoutNS functionName : Text) :
    Except (SearchExn ε) (Option Φ) :=
  if '.' ∈ typeWithoutNS then .error .typeError
  else nearest f functionName (splitOn '/' typeWithoutNS)

/-- A search answers as in a fresh program, and keeps what it found. -/
theorem hierarchicalFunctionSearch_eq (hc : Kept f c) (typeWithoutNS functionName : Text) :
    ((hierarchicalFunctionSearch f typeWithoutNS functionName).run c).1
        = freshSearch f typeWithoutNS functionName
      ∧ Kept f ((hierarchicalFunctionSearch f typeWithoutNS functionName).run c).2 := by
  rw [hierarchicalFunctionSearch, freshSearch]
  by_cases hdot : '.' ∈ typeWithoutNS
  · rw [if_pos hdot, if_pos hdot]
    exact ⟨rfl, hc⟩
  · rw [if_neg hdot, if_neg hdot, ← splitOn_replaced hdot]
    dsimp only
    generalize typeWithoutNS.map _ = t
    rw [Py.run_get_bind]
    cases hget : (c.dictHierarchicalFunctionSearch.get? functionName).bind (·.get? t) with
    | some funcObj => exact ⟨(hc.functions functionName t funcObj hget).symm, hc⟩
    | none =>
      have hparts : ∀ p ∈ splitOn '.' t, '.' ∉ p := fun p => not_mem_splitOn
      have hdotted : dotted (splitOn '.' t) = t := intercalate_splitOn '.' t
      have hloop := searchLoop_eq hparts (hdotted ▸ List.prefix_refl t) functionName hc
      rw [hdotted] at hloop
      obtain ⟨hvalue, hkept⟩ := hloop
      dsimp only
      rw [hierarchicalFunctionSearchNoCache]
      cases hn : nearest f functionName (splitOn '.' t) with
      | error e =>
        rw [hn] at hvalue
        rw [Py.run_bind_of_error (Prod.ext hvalue rfl)]
        exact ⟨rfl, hkept⟩
      | ok funcObj =>
        rw [hn] at hvalue
        rw [Py.run_bind_of_ok (Prod.ext hvalue rfl)]
        exact ⟨rfl, kept_store hkept hn⟩

/-- A call of one of the functions. -/
inductive Call where
  | entityModule (entityType : Text)
  | functionSearch (typeWithoutNS functionName : Text)

/-- What a call returns, or raises. -/
inductive Answer (ε Φ : Type) where
  | entityModule (r : Except (SearchExn ε) (Option (EntityModule Φ)))
  | function (r : Except (SearchExn ε) (Option Φ))

section
variable (f : Loader ε Φ)

/-- A call, and what is kept after. -/
def Call.exec (c : Caches Φ) : Call → Answer ε Φ × Caches Φ
  | .entityModule t =>
    (.entityModule ((getEntityModule f t).run c).1, ((getEntityModule f t).run c).2)
  | .functionSearch t n => (.function ((hierarchicalFunctionSearch f t n).run c).1,
      ((hierarchicalFunctionSearch f t n).run c).2)

/-- What a call answers in a fresh program. -/
def Call.fresh : Call → Answer ε Φ
  | .entityModule t => .entityModule (freshModule f t)
  | .functionSearch t n => .function (freshSearch f t n)

/-- The answers of some calls, and what is kept after. -/
def answers : Caches Φ → List Call → List (Answer ε Φ) × Caches Φ
  | c, [] => ([], c)
  | c, a :: as =>
    let (r, c) := a.exec f c
    let (rs, c) := answers c as
    (r :: rs, c)

end

/-- A call answers as in a fresh program. -/
theorem exec_eq (hc : Kept f c) (a : Call) :
    (a.exec f c).1 = a.fresh f ∧ Kept f (a.exec f c).2 := by
  cases a with
  | entityModule t =>
    exact ⟨congrArg _ (getEntityModule_fst hc t), kept_getEntityModule hc t⟩
  | functionSearch t n =>
    have h := hierarchicalFunctionSearch_eq hc t n
    exact ⟨congrArg _ h.1, h.2⟩

theorem kept_answers (hc : Kept f c) (as : List Call) :
    (answers f c as).1 = as.map (Call.fresh f) ∧ Kept f (answers f c as).2 := by
  induction as generalizing c with
  | nil => exact ⟨rfl, hc⟩
  | cons a as ih =>
    have ha := exec_eq hc a
    have has := ih ha.2
    rw [answers, List.map_cons]
    exact ⟨List.cons_eq_cons.mpr ⟨ha.1, has.1⟩, has.2⟩

/-- Each call of a run answers as in a fresh program, or raises as there, and a class whose module
raises nothing else than `ImportError` is loaded once at most. -/
theorem answers_eq (f : Loader ε Φ) (as : List Call) :
    (answers f .init as).1 = as.map (Call.fresh f)
      ∧ ∀ entityType entityModule, getEntityModuleNoCache f entityType = .ok entityModule →
        (answers f .init as).2.cacheEntityToModule.computed.count entityType ≤ 1 := by
  have h := kept_answers (f := f) kept_init as
  refine ⟨h.1, fun entityType entityModule hm => ?_⟩
  by_cases ht : entityType = []
  · convert h.2.modules.once entityType none (by rw [freshModule, if_pos ht])
  · convert h.2.modules.once entityType entityModule (by rw [freshModule, if_neg ht, hm])

/-- The modules of three classes: one has a function, one is inside it, and one raises. -/
def threeModules : Loader ℕ ℕ := fun entityType =>
  if entityType = "Azure".toList then .ok fun n => if n = "Graphic_shape".toList then some 1 else none
  else if entityType = "Azure.location".toList then .ok fun _ => none
  else if entityType = "wmi".toList then .error (.other 5)
  else .error .importError

/-- The function of the outer class, a class without a module, and the class that raises, each
twice. -/
def sixCalls : List Call :=
  [.functionSearch "Azure/location".toList "Graphic_shape".toList,
    .functionSearch "CIM_Process".toList "Graphic_shape".toList,
    .functionSearch "wmi/process".toList "Graphic_shape".toList,
    .functionSearch "Azure/location".toList "Graphic_shape".toList,
    .functionSearch "CIM_Process".toList "Graphic_shape".toList,
    .functionSearch "wmi/process".toList "Graphic_shape".toList]

/-- The outer class is loaded once, the one that raises was loaded again. -/
theorem answers_eq_threeModules :
    (answers threeModules .init sixCalls).1
        = [.function (.ok (some 1)), .function (.ok none), .function (.error (.other 5)),
          .function (.ok (some 1)), .function (.ok none), .function (.error (.other 5))]
      ∧ (answers threeModules .init sixCalls).2.cacheEntityToModule.computed.count
        "Azure".toList ≤ 1 :=
  have h := answers_eq threeModules sixCalls
  ⟨h.1.trans rfl, h.2 "Azure".toList _ rfl⟩

end Survol.Scripts
