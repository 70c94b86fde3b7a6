import Survol.Dockit.CallModels
import Survol.Dockit.UnfinishedBatches

/-!
# From lines to batches

`createBatchCore` turns a line into a core, and `batchLetFactory` turns a core
into a batch, by the model of its function. A model only works on the objects: it
cannot reach the cores or the stacks, which is why its computation is lifted.

## Main definitions

* `World` — the objects, the cores and stacks, and the functions seen as unknown.
* `Batch`, `batchLetFactory`, `createBatchCore`.
-/

open PyText

namespace Survol.Dockit

/-- All that a line can change. -/
structure World where
  objects : Objects
  store : UnfinishedBatches
  unknownFunctions : List Text
  deriving DecidableEq

/-- The world before the first line. -/
def World.init : World := ⟨.init, ⟨[], []⟩, []⟩

/-- A computation on the world. -/
abbrev WorldM := Py PyExn World

/-- A computation on the objects only. -/
def onObjects {α : Type} (m : ObjM α) : WorldM α :=
  .zoom World.objects (fun w o => { w with objects := o }) m

/-- A computation on the cores and the stacks only. -/
def onStore {α : Type} (m : StoreM α) : WorldM α :=
  .zoom World.store (fun w u => { w with store := u }) m

/-- A batch: a call, or a number of consecutive equal ones. -/
structure Batch where
  core : CoreId
  occurrences : ℕ
  style : Text
  significantArgs : List SigArg
  neverSame : Bool
  deriving DecidableEq

/-- The style of a native call. -/
def origStyle : Text := "Orig".toList

/-- `BatchLetBase(batchCore)`. -/
def batchLetBase (id : CoreId) (core : BatchLetCore) : Batch :=
  ⟨id, 1, origStyle, Arg.sigList core.parsedArgs, false⟩

/-- A derived class is built; no batch when its constructor returns early. -/
def buildModel (env : Env) (aModel : CallModel) (id : CoreId) : WorldM (Option Batch) := do
  let core ← onStore (coreAt id)
  let significantArgs ← onObjects (aModel.build env core)
  return significantArgs.map fun args => ⟨id, 1, origStyle, args, aModel.neverSame⟩

/-- Whether an exception is caught by `except AttributeError`. -/
def isAttributeError (e : PyExn) : Bool := e = .attributeError

/-- The batch of an unfinished call. -/
def unfinishedBatchLet (env : Env) (aModel : CallModel) (id : CoreId) : WorldM (Option Batch) := do
  let core ← onStore (coreAt id)
  let base : WorldM (Option Batch) := do
    onStore (pushBatch id)
    return some (batchLetBase id core)
  if aModel.unfinishedIsOk then .catching isAttributeError (buildModel env aModel id) base
  else base

/-- The batch of a resumed call. Without its unfinished half, a model that accepts
this is still run, but the batch is the generic one. -/
def resumedBatchLet (env : Env) (aModel : CallModel) (id : CoreId) : WorldM (Option Batch) := do
  match ← onStore (mergePopBatch id) with
  | some batchCoreMerged => buildModel env aModel batchCoreMerged
  | none =>
    let core ← onStore (coreAt id)
    (if aModel.resumedWithoutUnfinishedIsOk then
      .catching isAttributeError ((fun _ => ()) <$> buildModel env aModel id) (pure ())
    else pure () : WorldM Unit)
    return some (batchLetBase id core)

/-- `BatchLetFactory`. -/
def batchLetFactory (env : Env) (id : CoreId) : WorldM (Option Batch) := do
  let core ← onStore (coreAt id)
  match batchModels core.funcNam with
  | .unknown =>
    .modify fun w => { w with unknownFunctions := w.unknownFunctions.insert core.funcNam }
    return some (batchLetBase id core)
  | .ignored => return none
  | .model aModel =>
    match core.status with
    | .unfinished => unfinishedBatchLet env aModel id
    | .resumed => resumedBatchLet env aModel id
    | _ => buildModel env aModel id

/-- The end of `ParseLine`, for a parsed core: its process is created by its first
call, and dated. -/
def admitCore (env : Env) (core : BatchLetCore) : WorldM CoreId := do
  onObjects do
    toObjectPathCIMProcess env core.pid
    markCreation core.pid core.timeStart
  let id := (← Py.get).store.nextId core.pid
  .modify fun w => { w with store := w.store.addCore core }
  return id

/-- `CreateBatchCore`. -/
def createBatchCore (env : Env) (tracer : Tracer) (oneLine : Text) : WorldM (Option CoreId) := do
  match parseLine env.topProcessId tracer oneLine with
  | .error e => .raise e
  | .ok none => return none
  | .ok (some core) => some <$> admitCore env core

end Survol.Dockit
