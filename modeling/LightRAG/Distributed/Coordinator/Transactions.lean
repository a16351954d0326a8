import LightRAG.Framework.Text
import LightRAG.Framework.Transaction
import LightRAG.Distributed.Coordinator.Tables

/-!
# Transactions of a coordinator

The bodies that `PostgresCoordinator` runs under the row lock of its scope, and the wrapper
`_transaction`.
-/

namespace LightRAG.Coordination
open Tx Table

/-- What a call can raise: the coordination errors, `ValueError`, a cancellation, any other
exception of the database driver, or the exception of a context's own body. -/
inductive Failure
  | configurationMismatch (message : String)
  | busy (message : String)
  | workspaceFenced (message : String)
  | operationOwnership (message : String)
  | unavailable (message : String)
  | value (message : String)
  | cancelled
  | database
  | body
deriving DecidableEq

/-- A permit: the ticket's id, the generation it was admitted under and its owner. -/
structure Operation where
  id : Uuid
  generation : Nat
  ownerId : Uuid
deriving DecidableEq

inductive WitnessConnection
  | absent
  | connected
  | closed
deriving DecidableEq

/-- The process-side state of one `PostgresCoordinator`. -/
structure Coordinator where
  ownerId : Uuid
  witness : Nat
  manifestHash : Option String
  pool : Bool
  broken : Bool
  readOnly : Bool
  witnessConnection : WitnessConnection
deriving DecidableEq

def WitnessConnection.terminate : WitnessConnection → WitnessConnection
  | .absent => .absent
  | _ => .closed

variable (self : Coordinator)

/-- `_quarantine`: never usable again, the witness connection terminated. -/
def Coordinator.quarantine : Coordinator :=
  { self with broken := true, witnessConnection := self.witnessConnection.terminate }

def checkScope (row : WorkspaceRow) : Tx Db Failure Unit := do
  if row.fenced then
    raise (.workspaceFenced "Workspace requires audited recovery")
  let orphaned ← fetch Db.orphans
  if orphaned ≠ [] then
    execute (Db.fence "Owner witness disappeared")
    raise (.workspaceFenced "Unfinished owner disappeared; audited recovery required")

def validate (row : WorkspaceRow) (operation : Operation)
    (checkFence : Bool) : Tx Db Failure Unit := do
  if operation.ownerId ≠ self.ownerId then
    raise (.operationOwnership "Operation belongs to another coordinator")
  if operation.generation ≠ row.generation then
    raise (.operationOwnership "Operation generation is obsolete")
  let found ← fetch fun db => db.operations.any fun o =>
    o.id = operation.id ∧ o.ownerId = self.ownerId ∧ o.generation = operation.generation ∧
      o.state = .active
  if !found then
    raise (.operationOwnership "Operation is not active")
  if checkFence then
    checkScope row

/-- One admission attempt of `operation`; `none` asks the caller to wait and try again. -/
def admitOperation (kind : String) (exclusive : Bool)
    (metadata : Metadata) (id : Uuid) (now : Nat) (row : WorkspaceRow) :
    Tx Db Failure (Option Operation) := do
  checkScope row
  let conflict ← fetch fun db =>
    db.operations.any fun o => o.state = .active ∧ (exclusive || o.exclusive)
  if conflict then
    return none
  let duplicate ← fetch fun db => db.operations.any fun o => o.id = id
  if duplicate then
    raise .database
  execute (Db.insertOperation
    ⟨id, row.generation, self.ownerId, self.witness, kind, exclusive, .active, "admitted",
      metadata, now, none⟩)
  return some ⟨id, row.generation, self.ownerId⟩

/-- The `else` branch of `operation`: the normal exit. -/
def finishOperation (op : Operation) (now : Nat) (row : WorkspaceRow) :
    Tx Db Failure Unit := do
  validate self row op true
  let pending ← fetch fun db =>
    db.mutations.any fun m => m.operationId = op.id ∧ m.state = .pending
  let locked ← fetch fun db => db.resourceLocks.any fun l => l.operationId = op.id
  if pending || locked then
    execute (Db.fence "Operation ended with unfinished children or mutations")
    raise (.workspaceFenced "Operation still owns unfinished work")
  execute (Db.completeOperation op.id now)

/-- The transaction of `_mark_uncertain`. -/
def fenceUncertain (operation : Operation) (reason : String)
    (row : WorkspaceRow) : Tx Db Failure Unit := do
  validate self row operation false
  execute (Db.fence reason)
  execute (Db.markUncertain operation.id)

/-- `sorted({…})`. -/
def orderedKeys (keys : List String) : List String := keys.dedup.insertionSort (· ≤ ·)

/-- One attempt of `lock`; `none` asks the caller to wait and try again. -/
def acquireLock (operation : Operation) (taskId : Uuid)
    (ordered : List String) (row : WorkspaceRow) : Tx Db Failure (Option Unit) := do
  validate self row operation true
  let existing ← fetch fun db => db.resourceLocks.filter fun r => r.resourceKey ∈ ordered
  if existing.any fun r => r.operationId ≠ operation.id || r.taskId ≠ taskId then
    return none
  execute (Db.acquireLocks operation.id taskId ordered)
  return some ()

/-- The `else` branch of `lock`. -/
def releaseLock (operation : Operation) (taskId : Uuid)
    (ordered : List String) (row : WorkspaceRow) : Tx Db Failure Unit := do
  validate self row operation true
  execute (Db.releaseLocks operation.id taskId ordered)

def tryClaimDocument (operation : Operation) (docId : String) (now : Nat)
    (row : WorkspaceRow) : Tx Db Failure Bool := do
  validate self row operation true
  let claimed ← fetch fun db => db.documentClaims.any fun c => c.docId = docId
  if claimed then
    return false
  execute (Db.insertClaim ⟨docId, operation.id, "claimed", now⟩)
  return true

def claim (operation : Operation) (docId : String) : Tx Db Failure Unit := do
  let found ← fetch fun db => (db.documentClaims.find? fun c => c.docId = docId).map (·.operationId)
  if found ≠ some operation.id then
    raise (.operationOwnership "Document belongs to another operation or is not claimed")

def assertClaim (operation : Operation) (docId : String)
    (row : WorkspaceRow) : Tx Db Failure Unit := do
  validate self row operation true
  claim operation docId

def releaseClaim (operation : Operation) (docId : String)
    (row : WorkspaceRow) : Tx Db Failure Unit := do
  validate self row operation true
  claim operation docId
  let pending ← fetch fun db =>
    db.mutations.any fun m => m.operationId = operation.id ∧ m.state = .pending
  if pending then
    raise (.operationOwnership "Cannot release a claim while mutations are pending")
  execute (Db.deleteClaim docId)

def setPhase (operation : Operation) (phase : String)
    (docId : Option String) (metadata : Metadata) (now : Nat) (row : WorkspaceRow) :
    Tx Db Failure Unit := do
  validate self row operation true
  match docId with
  | none => execute (Db.setOperationPhase operation.id phase metadata now)
  | some docId => do
    claim operation docId
    execute (Db.setClaimPhase docId phase now)
    execute (Db.setOperationPhase operation.id phase metadata now)

def heartbeat (self : Coordinator) (operation : Operation) (now : Nat) (row : WorkspaceRow) :
    Tx Db Failure Unit := do
  validate self row operation true
  execute (Db.heartbeat operation.id now)

/-- The transaction of `mutation` before its body: the row is published as pending. -/
def publishMutation (operation : Operation)
    (backend nameSpace method : String) (id : Uuid) (row : WorkspaceRow) :
    Tx Db Failure Unit := do
  validate self row operation true
  let duplicate ← fetch fun db => db.mutations.any fun m => m.id = id
  if duplicate then
    raise .database
  execute (Db.insertMutation
    ⟨id, operation.id, backend, nameSpace, method, .pending, none, none⟩)

/-- The `else` branch of `mutation`: the ACK, which does not look at the fence. -/
def ackMutation (operation : Operation) (id : Uuid) (now : Nat)
    (row : WorkspaceRow) : Tx Db Failure Unit := do
  validate self row operation false
  execute (Db.acknowledge id operation.id now)

def snapshot : Tx Db Failure Snapshot := do
  let current ← fetch id
  match current.workspace with
  | none => raise (.configurationMismatch "Workspace is not registered")
  | some row =>
    let orphaned := current.orphans
    return ⟨{ row with fenced := row.fenced || orphaned ≠ [] }, current.operations,
      current.resourceLocks, current.documentClaims, current.mutations, orphaned⟩

/-- The transaction of `recover`. -/
def recoverBody (expectedGeneration : Nat) (actor reason : String)
    (confirmations : Confirmations) (now : Nat) (row : WorkspaceRow) :
    Tx Db Failure Snapshot := do
  if row.generation ≠ expectedGeneration then
    raise (.operationOwnership "Recovery generation changed; inspect and audit again")
  let before ← snapshot
  if before.operations.any fun o => o.state = .active && o.id ∉ before.orphanedOperations then
    raise (.busy "An unfinished writer still has a live witness; stop all writers")
  execute (Db.insertAudit
    ⟨expectedGeneration, expectedGeneration + 1, actor, reason, confirmations, before⟩)
  execute (Db.recoverScope now)
  snapshot

/-- What becomes of one transaction: its response arrives, or the connection or the task is lost
before or after the commit. -/
inductive Fate
  | delivered
  | lostBeforeCommit (cancelled : Bool)
  | lostAfterCommit (cancelled : Bool)
deriving DecidableEq

/-- A finished call: what the caller sees, what the database kept, and both states after it. -/
structure Ended (α : Type) where
  result : Except Failure α
  kept : Option α
  self : Coordinator
  db : Db

def lostFailure (cancelled : Bool) : Failure :=
  if cancelled then .cancelled else .unavailable "Coordination transaction failed"

/-- `WorkspaceFencedError` is delayed past the commit. -/
def Failure.delayed : Failure → Bool
  | .workspaceFenced _ => true
  | _ => false

/-- The exceptions that are not a `CoordinationError` quarantine the coordinator. -/
def Failure.quarantines : Failure → Bool
  | .value _ | .cancelled | .database | .body => true
  | _ => false

def transaction {α : Type} (administrative : Bool) (body : WorkspaceRow → Tx Db Failure α)
    (fate : Fate) (self : Coordinator) (db : Db) : Ended α :=
  if !self.pool || self.broken then
    ⟨.error (.unavailable "Coordinator is not available"), none, self, db⟩
  else if !administrative && (self.readOnly || self.witnessConnection ≠ .connected) then
    ⟨.error (.unavailable "Writer witness is unavailable"), none, self.quarantine, db⟩
  else
    match db.workspace, fate with
    | _, .lostBeforeCommit cancelled =>
      ⟨.error (lostFailure cancelled), none, self.quarantine, db⟩
    | none, .delivered =>
      ⟨.error (.configurationMismatch "Workspace is not registered"), none, self, db⟩
    | none, .lostAfterCommit cancelled =>
      ⟨.error (lostFailure cancelled), none, self.quarantine, db⟩
    | some row, .delivered =>
      match (body row).commit Failure.delayed db with
      | (.ok a, db') => ⟨.ok a, some a, self, db'⟩
      | (.error e, db') =>
        if e.quarantines then
          ⟨.error (.unavailable "Coordination transaction failed"), none, self.quarantine, db'⟩
        else ⟨.error e, none, self, db'⟩
    | some row, .lostAfterCommit cancelled =>
      match (body row).commit Failure.delayed db with
      | (.ok a, db') => ⟨.error (lostFailure cancelled), some a, self.quarantine, db'⟩
      | (.error _, db') => ⟨.error (lostFailure cancelled), none, self.quarantine, db'⟩

end LightRAG.Coordination
