import Mathlib.Data.Finset.Card

/-!
# The in-batch feeder

While a batch runs, `_pipeline_feeder` drains the document channel and puts the documents into the
parse queues.
-/

namespace LightRAG.Feeder

inductive Await
  | returns
  | cancelled
  | raises
deriving DecidableEq

/-- The two awaits of `async with pipeline_status_lock`. -/
structure LockUse where
  acquire : Await
  release : Await
deriving DecidableEq

/-- The awaits of `_admit_fed_document`. -/
structure Admission where
  register : LockUse
  put : Await
  rollback : LockUse
  recording : LockUse
deriving DecidableEq

/-- `DocProcessingStatus` -/
structure Row where
  isPending : Bool
  hasCustomChunkPatch : Bool
deriving DecidableEq

/-- The read of `full_docs`. -/
inductive FullDoc
  | found
  | missing
  | cancelled
  | raises
deriving DecidableEq

/-- What `_feeder_should_yield` looks at. -/
structure Signals where
  cancelRequested : Bool
  manualRetry : Bool
  autoRescanPending : Bool
deriving DecidableEq

structure Visit where
  signals : Signals
  dedup : LockUse
  fullDoc : FullDoc
  engine : Option String
  admission : Admission
deriving DecidableEq

structure Drain where
  arrived : List String
  signals : Signals
  next : Await
  hydrate : Await
  rows : String → Option Row
  visits : ℕ → Visit
  sleep : Await

/-- `_BatchRunContext` -/
structure Ctx where
  routing : Finset String
  inflight : Finset String
  totalFiles : ℕ
  docs : ℕ
  batchs : ℕ
  parserSpecs : String → Option String
  parseQueues : List String
  puts : List (String × String)
  admissions : List (String × Admission)

namespace Ctx

def withLock (use : LockUse) (body : Ctx → Ctx) (ctx : Ctx) : Ctx × Await :=
  match use.acquire with
  | .returns => (body ctx, use.release)
  | failure => (ctx, failure)

def register (docId : String) (ctx : Ctx) : Ctx :=
  { ctx with
    routing := insert docId ctx.routing
    totalFiles := ctx.totalFiles + 1
    docs := ctx.docs + 1
    batchs := ctx.batchs + 1 }

def rollBack (docId : String) (ctx : Ctx) : Ctx :=
  { ctx with
    routing := ctx.routing.erase docId
    totalFiles := ctx.totalFiles - 1
    docs := ctx.docs - 1
    batchs := ctx.batchs - 1 }

def recordAdmitted (docId : String) (ctx : Ctx) : Ctx :=
  { ctx with
    routing := ctx.routing.erase docId
    inflight := insert docId ctx.inflight }

def group (engine : String) (ctx : Ctx) : String :=
  let queueGroup := (ctx.parserSpecs engine).getD "native"
  if queueGroup ∈ ctx.parseQueues then queueGroup else "native"

def admitFedDocument (engine docId : String) (a : Admission) (ctx : Ctx) : Ctx × Await :=
  let met := { ctx with admissions := ctx.admissions ++ [(docId, a)] }
  let registered := met.withLock a.register (register docId)
  if registered.2 = .returns then
    if a.put = .returns then
      { registered.1 with puts := registered.1.puts ++ [(ctx.group engine, docId)] }.withLock
        a.recording (recordAdmitted docId)
    else
      let rolledBack := registered.1.withLock a.rollback (rollBack docId)
      (rolledBack.1, if rolledBack.2 = .returns then a.put else rolledBack.2)
  else registered

end Ctx

/-- Why a message is resolved, or that it is only skipped. -/
inductive Decision
  | malformed
  | duplicate
  | stale
  | journaled
  | admitted
  | skipped
deriving DecidableEq

inductive Routed
  | decided (d : Decision)
  | cancelled
  | raised
deriving DecidableEq

def Await.routed (d : Decision) : Await → Routed
  | .returns => .decided d
  | .cancelled => .cancelled
  | .raises => .raised

/-- `_route_one`, after the check for duplicates. -/
def routePending (visit : Visit) (pending : Option Row) (docId : String) (ctx : Ctx) :
    Ctx × Routed :=
  match pending with
  | none => (ctx, .decided .stale)
  | some row =>
    if row.hasCustomChunkPatch then (ctx, .decided .journaled)
    else
      match visit.fullDoc with
      | .raises => (ctx, .decided .skipped)
      | .missing => (ctx, .decided .skipped)
      | .cancelled => (ctx, .cancelled)
      | .found =>
        match visit.engine with
        | none => (ctx, .raised)
        | some engine =>
          let admission := ctx.admitFedDocument engine docId visit.admission
          (admission.1, admission.2.routed .admitted)

def routeOne (visit : Visit) (pending : Option Row) (docId : String) (ctx : Ctx) : Ctx × Routed :=
  if docId = "" then (ctx, .decided .malformed)
  else
    match (ctx.withLock visit.dedup id).2 with
    | .cancelled => (ctx, .cancelled)
    | .raises => (ctx, .raised)
    | .returns =>
      if docId ∈ ctx.routing ∨ docId ∈ ctx.inflight then (ctx, .decided .duplicate)
      else routePending visit pending docId ctx

structure World where
  ctx : Ctx
  mailbox : List String
  autoRescanPending : Bool
  deferred : List String
  received : List String
  decisions : List (String × Decision)

/-- How a part of an iteration ends, with the messages that have met no decision. -/
inductive Flow
  | goesOn
  | returns
  | cancelled (tail : List String)
  | raised (tail : List String)

namespace World

variable (pageSize : ℤ)

def shouldYield (checkAuto : Bool) (signals : Signals) (w : World) : Bool :=
  signals.cancelRequested || signals.manualRetry ||
    (checkAuto && decide (pageSize ≤ 0) && (signals.autoRescanPending || w.autoRescanPending))

/-- `_feeder_epoch_full` -/
def epochFull (w : World) : Bool :=
  decide (0 < pageSize ∧ pageSize ≤ w.ctx.inflight.card + w.ctx.routing.card)

/-- `_republish_documents` -/
def republish (messages : List String) (w : World) : World :=
  { w with mailbox := w.mailbox ++ messages }

def defer (messages : List String) (w : World) : World :=
  { w with deferred := w.deferred ++ messages }

def settle (docId : String) (d : Decision) (w : World) : World :=
  match d with
  | .skipped => { w.defer [docId] with autoRescanPending := true }
  | d => { w with decisions := w.decisions ++ [(docId, d)] }

def visitAll (pageSize : ℤ) (visits : ℕ → Visit) (pending : String → Option Row) :
    ℕ → List String → World → World × Flow
  | _, [], w => (w, .goesOn)
  | reached, docId :: rest, w =>
    let visit := visits reached
    if w.shouldYield pageSize false visit.signals || w.epochFull pageSize then
      (w.defer (docId :: rest), .returns)
    else
      let routed := routeOne visit (pending docId) docId w.ctx
      let w' := { w with ctx := routed.1 }
      match routed.2 with
      | .decided d => visitAll pageSize visits pending (reached + 1) rest (w'.settle docId d)
      | .cancelled => (w', .cancelled (docId :: rest))
      | .raised => (w', .raised (docId :: rest))

/-- `_FEEDER_DRAIN_LIMIT` -/
def drainLimit : ℕ := 256

/-- The hydration of a drain and the loop over its messages. -/
def routeBatch (d : Drain) (batch : List String) (w : World) : World × Flow :=
  if batch.all (· = "") then (w, .goesOn)
  else
    match d.hydrate with
    | .cancelled => (w, .cancelled batch)
    | .raises => (w, .raised batch)
    | .returns => w.visitAll pageSize d.visits (fun docId => (d.rows docId).filter Row.isPending) 0 batch

/-- The body of `_pipeline_feeder` inside its `try`. -/
def attempt (d : Drain) (w : World) : World × Flow :=
  if w.shouldYield pageSize true d.signals || w.epochFull pageSize then (w, .returns)
  else
    match d.next with
    | .cancelled => (w, .cancelled [])
    | .raises => (w, .raised [])
    | .returns =>
      { w with mailbox := w.mailbox.drop drainLimit }.routeBatch pageSize d
        (w.mailbox.take drainLimit)

def iterate (d : Drain) (w : World) : World × Bool :=
  let attempted := { w with
    mailbox := w.mailbox ++ d.arrived
    received := w.received ++ d.arrived }.attempt pageSize d
  match attempted.2 with
  | .goesOn => (attempted.1, true)
  | .returns => (attempted.1, false)
  | .cancelled tail => (attempted.1.defer tail, false)
  | .raised tail => (attempted.1.republish tail, decide (d.sleep = .returns))

/-- The `finally` of `_pipeline_feeder`. -/
def finish (w : World) : World := { w.republish w.deferred with deferred := [] }

end World
end LightRAG.Feeder
