import LightRAG.Framework.Table
import Mathlib.Data.List.Sort

/-!
# The coordination tables of one scope

The rows of `lightrag_coordination` that belong to one (deployment, workspace), and the advisory
locks of `pg_locks` that witness live owners.
-/

namespace LightRAG

/-- Values of `uuid4`, compared only for equality. -/
abbrev Uuid := Nat

namespace Coordination
open Table

inductive OperationState
  | active
  | completed
  | recovered
deriving DecidableEq

inductive MutationState
  | pending
  | ack
  | recovered
deriving DecidableEq

abbrev Metadata := List (String × String)

/-- The shallow merge `metadata || new`. -/
def Metadata.merge (metadata new : Metadata) : Metadata :=
  (metadata.filter fun m => !new.any fun n => n.1 = m.1) ++ new

structure WorkspaceRow where
  manifestHash : String
  generation : Nat
  fenced : Bool
  fenceReason : Option String
deriving DecidableEq

structure OperationRow where
  id : Uuid
  generation : Nat
  ownerId : Uuid
  witness : Nat
  kind : String
  exclusive : Bool
  state : OperationState
  phase : String
  metadata : Metadata
  heartbeatAt : Nat
  finishedAt : Option Nat
deriving DecidableEq

structure LockRow where
  resourceKey : String
  operationId : Uuid
  taskId : Uuid
  depth : Int
deriving DecidableEq

structure ClaimRow where
  docId : String
  operationId : Uuid
  phase : String
  heartbeatAt : Nat
deriving DecidableEq

structure MutationRow where
  id : Uuid
  operationId : Uuid
  backend : String
  nameSpace : String
  method : String
  state : MutationState
  acknowledgedAt : Option Nat
  recoveredAt : Option Nat
deriving DecidableEq

/-- A row of `pg_locks` for a granted `pg_try_advisory_lock(bigint)`. -/
structure AdvisoryLock where
  classid : Nat
  objid : Nat
deriving DecidableEq

/-- The diagnostic snapshot of a scope, without its earlier audits. -/
structure Snapshot where
  workspace : WorkspaceRow
  operations : List OperationRow
  locks : List LockRow
  claims : List ClaimRow
  mutations : List MutationRow
  orphanedOperations : List Uuid
deriving DecidableEq

structure Confirmations where
  writersStopped : Bool
  inflightFinished : Bool
  stateAudited : Bool
deriving DecidableEq

structure AuditRow where
  oldGeneration : Nat
  newGeneration : Nat
  actor : String
  reason : String
  confirmations : Confirmations
  snapshot : Snapshot
deriving DecidableEq

structure Db where
  workspace : Option WorkspaceRow
  operations : List OperationRow
  resourceLocks : List LockRow
  documentClaims : List ClaimRow
  mutations : List MutationRow
  recoveryAudit : List AuditRow
  pgLocks : List AdvisoryLock
deriving DecidableEq

/-- The lock a 63-bit witness takes: its high half as `classid`, its low half as `objid`. -/
def witnessLock (witness : Nat) : AdvisoryLock :=
  ⟨witness >>> 32, witness &&& 4294967295⟩

theorem witnessLock_injective : Function.Injective witnessLock := by
  intro w w' h
  simp only [witnessLock,AdvisoryLock.mk.injEq] at h
  obtain ⟨hhigh,hlow⟩ := h
  have hmask : (4294967295 : Nat) = 2 ^ 32 - 1 := rfl
  rw [hmask,Nat.and_two_pow_sub_one_eq_mod,Nat.and_two_pow_sub_one_eq_mod] at hlow
  rw [Nat.shiftRight_eq_div_pow,Nat.shiftRight_eq_div_pow] at hhigh
  rw [← Nat.div_add_mod w (2 ^ 32),← Nat.div_add_mod w' (2 ^ 32),hhigh,hlow]

namespace Db

/-- Registration of a scope: `INSERT INTO workspaces … ON CONFLICT DO NOTHING`. -/
def register (manifestHash : String) (db : Db) : Db :=
  { db with workspace := some (db.workspace.getD ⟨manifestHash, 1, false, none⟩) }

/-- No granted advisory lock has the halves of the operation's witness. -/
def isOrphan (db : Db) (o : OperationRow) : Bool :=
  !db.pgLocks.any fun l => l.classid = o.witness >>> 32 ∧ l.objid = o.witness &&& 4294967295

def orphans (db : Db) : List Uuid :=
  (db.operations.filter fun o => o.state = .active ∧ db.isOrphan o).map (·.id)

def fence (reason : String) (db : Db) : Db :=
  { db with workspace := db.workspace.map fun row =>
      { row with fenced := true, fenceReason := some (row.fenceReason.getD reason) } }

def insertOperation (o : OperationRow) (db : Db) : Db :=
  { db with operations := db.operations ++ [o] }

/-- The two statements of a normal exit: drop the claims, complete the ticket. -/
def completeOperation (operationId : Uuid) (now : Nat) (db : Db) : Db :=
  { db with
    documentClaims := deleteWhere (fun c => c.operationId = operationId) db.documentClaims
    operations := updateWhere (fun o => o.id = operationId)
      (fun o => { o with
        state := .completed, phase := "completed", finishedAt := some now, heartbeatAt := now })
      db.operations }

def markUncertain (operationId : Uuid) (db : Db) : Db :=
  { db with
    operations := updateWhere (fun o => o.id = operationId)
      (fun o => { o with phase := "uncertain" }) db.operations }

/-- `INSERT … ON CONFLICT(resource_key) DO UPDATE SET depth=depth+1`. -/
def upsertLock (operationId taskId : Uuid) (rows : List LockRow) (key : String) : List LockRow :=
  if rows.any fun r => r.resourceKey = key then
    updateWhere (fun r => r.resourceKey = key) (fun r => { r with depth := r.depth + 1 }) rows
  else rows ++ [⟨key, operationId, taskId, 1⟩]

def acquireLocks (operationId taskId : Uuid) (keys : List String) (db : Db) : Db :=
  { db with resourceLocks := keys.foldl (upsertLock operationId taskId) db.resourceLocks }

/-- The two statements of a lock exit: lower the depths, drop the rows that reached zero. -/
def releaseLocks (operationId taskId : Uuid) (keys : List String) (db : Db) : Db :=
  { db with
    resourceLocks :=
      deleteWhere (fun r => r.operationId = operationId ∧ r.taskId = taskId ∧ r.depth = 0)
        (updateWhere
          (fun r => r.operationId = operationId ∧ r.taskId = taskId ∧ r.resourceKey ∈ keys)
          (fun r => { r with depth := r.depth - 1 }) db.resourceLocks) }

def insertClaim (c : ClaimRow) (db : Db) : Db :=
  { db with documentClaims := db.documentClaims ++ [c] }

def deleteClaim (docId : String) (db : Db) : Db :=
  { db with documentClaims := deleteWhere (fun c => c.docId = docId) db.documentClaims }

def setClaimPhase (docId phase : String) (now : Nat) (db : Db) : Db :=
  { db with
    documentClaims := updateWhere (fun c => c.docId = docId)
      (fun c => { c with phase := phase, heartbeatAt := now }) db.documentClaims }

def setOperationPhase (operationId : Uuid) (phase : String) (metadata : Metadata) (now : Nat)
    (db : Db) : Db :=
  { db with
    operations := updateWhere (fun o => o.id = operationId)
      (fun o => { o with
        phase := phase, metadata := o.metadata.merge metadata, heartbeatAt := now })
      db.operations }

def heartbeat (operationId : Uuid) (now : Nat) (db : Db) : Db :=
  { db with
    operations := updateWhere (fun o => o.id = operationId)
      (fun o => { o with heartbeatAt := now }) db.operations
    documentClaims := updateWhere (fun c => c.operationId = operationId)
      (fun c => { c with heartbeatAt := now }) db.documentClaims }

def insertMutation (m : MutationRow) (db : Db) : Db :=
  { db with mutations := db.mutations ++ [m] }

def acknowledge (mutationId operationId : Uuid) (now : Nat) (db : Db) : Db :=
  { db with
    mutations := updateWhere
      (fun m => m.id = mutationId ∧ m.operationId = operationId ∧ m.state = .pending)
      (fun m => { m with state := .ack, acknowledgedAt := some now }) db.mutations }

/-- The statements of `recover` after the audit row: settle the pending mutations of the
scope's operations and its active operations, drop locks and claims, open the next
generation. -/
def recoverScope (now : Nat) (db : Db) : Db :=
  { db with
    mutations := updateWhere
      (fun m => (db.operations.any fun o => o.id = m.operationId) ∧ m.state = .pending)
      (fun m => { m with state := .recovered, recoveredAt := some now }) db.mutations
    operations := updateWhere (fun o => o.state = .active)
      (fun o => { o with state := .recovered, finishedAt := some now }) db.operations
    resourceLocks := []
    documentClaims := []
    workspace := db.workspace.map fun row =>
      { row with generation := row.generation + 1, fenced := false, fenceReason := none } }

def insertAudit (a : AuditRow) (db : Db) : Db :=
  { db with recoveryAudit := db.recoveryAudit ++ [a] }

/-- A granted `pg_try_advisory_lock(witness)`. -/
def grantWitness (witness : Nat) (db : Db) : Db :=
  { db with pgLocks := db.pgLocks ++ [witnessLock witness] }

def dropWitness (witness : Nat) (db : Db) : Db :=
  { db with pgLocks := deleteWhere (fun l => l = witnessLock witness) db.pgLocks }

end Db
end Coordination
end LightRAG
