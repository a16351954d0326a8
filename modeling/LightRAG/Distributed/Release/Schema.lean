import LightRAG.Distributed.Coordinator.Tables
import LightRAG.Framework.Text
import LightRAG.Framework.Transaction

/-!
# Release identities and phases
-/

namespace LightRAG.Release

inductive Slot
  | blue
  | green
deriving DecidableEq

def Slot.other : Slot → Slot
  | .blue => .green
  | .green => .blue

theorem Slot.other_ne (s : Slot) : s.other ≠ s := by
  cases s <;> decide

theorem Slot.eq_other {s t : Slot} (h : s ≠ t) : s = t.other := by
  cases s <;> cases t <;> first | rfl | exact absurd rfl h

inductive Phase
  | idle
  | prepared
  | draining
  | readSwitched
  | writerSwitched
  | retiring
  | completed
  | aborted
  | aborting
  | rollbackDraining
  | rollbackWriterSwitched
  | rollbackRetiring
  | rolledBack
deriving DecidableEq

namespace Phase

/-- `PHASES`: the forward path. -/
def forward : List Phase :=
  [prepared, draining, readSwitched, writerSwitched, retiring, completed]

def finished : List Phase := [completed, aborted, rolledBack]

def atRest : Phase → Bool
  | idle | completed | aborted | rolledBack => true
  | _ => false

def gated : Phase → Bool
  | draining | readSwitched | rollbackDraining => true
  | _ => false

/-- How often a release has raised the epoch by the time it is in a phase. -/
def raised : Phase → Nat
  | writerSwitched | retiring | completed | rollbackDraining => 1
  | rollbackWriterSwitched | rollbackRetiring | rolledBack => 2
  | _ => 0

end Phase

/-- What a call can raise: the release errors, a `ValueError`, an error of a stored function
with its SQL state, or any other exception. -/
inductive Failure
  | conflict (message : String)
  | budgetExceeded (message : String)
  | draining (message : String)
  | unavailable (message : String)
  | queueFull (message : String)
  | value (message : String)
  | sql (sqlstate message : String)
  | exception
deriving DecidableEq

/-- `ReleaseIdentity` before its check. -/
structure IdentityFields where
  scope : String
  releaseId : String
  tag : String
  commit : String
  digest : String
  configHash : String
  protocolVersion : Nat
deriving DecidableEq

namespace IdentityFields
open Text

def scopeMatches (scope : String) : Bool :=
  match split '/' scope.toList with
  | [deployment, workspace] => isRun isWord deployment && isRun isWord workspace
  | _ => false

def tagMatches (tag : String) : Bool :=
  match tag.toList with
  | 'v' :: version =>
    match split '.' version with
    | [major, minor, patch] => isRun isDigit major && isRun isDigit minor && isRun isDigit patch
    | _ => false
  | _ => false

/-- `sha256:[a-f0-9]{64}`. -/
def digestMatches (digest : String) : Bool :=
  let hash := digest.toList.drop 7
  digest.toList.take 7 = ['s', 'h', 'a', '2', '5', '6', ':'] && hash.length = 64 && hash.all isHex

/-- `__post_init__`. -/
def Valid (fields : IdentityFields) : Prop :=
  scopeMatches fields.scope = true ∧
    (1 ≤ fields.releaseId.toList.length ∧ fields.releaseId.toList.length ≤ 128 ∧
      fields.releaseId.toList.all isWord = true) ∧
    tagMatches fields.tag = true ∧
    (fields.commit.toList.length = 40 ∧ fields.commit.toList.all isHex = true) ∧
    digestMatches fields.digest = true ∧
    (fields.configHash.toList.length = 64 ∧ fields.configHash.toList.all isHex = true) ∧
    fields.protocolVersion = 1

instance (fields : IdentityFields) : Decidable fields.Valid :=
  inferInstanceAs (Decidable (_ ∧ (_ ∧ _ ∧ _) ∧ _ ∧ (_ ∧ _) ∧ _ ∧ (_ ∧ _) ∧ _))

end IdentityFields

structure ReleaseIdentity extends IdentityFields where
  valid : toIdentityFields.Valid
deriving DecidableEq

namespace ReleaseIdentity

def ofFields (fields : IdentityFields) : Except Failure ReleaseIdentity :=
  if h : fields.Valid then .ok ⟨fields, h⟩ else .error (.value "Invalid release identity")

/-- `version`: the numbers of a tag. -/
def version (tag : String) : List Nat :=
  (Text.split '.' (tag.toList.drop 1)).map Text.toNat

end ReleaseIdentity

/-- `<=` of tuples. -/
def versionLe : List Nat → List Nat → Bool
  | [], _ => true
  | _ :: _, [] => false
  | a :: as, b :: bs => if a = b then versionLe as bs else a < b

structure Policy where
  queueCapacity : Nat
  commandByteLimit : Option Nat
  drainSeconds : Option Nat
  firstReleaseCredentialException : Bool
deriving DecidableEq

structure Approval where
  fromDigest : String
  toConfigHash : String
  toDigest : Option String
  profileHash : String
  readWriteCompatible : Bool
  evidenceId : String
deriving DecidableEq

end LightRAG.Release

/-!
## The release tables of one scope

The rows of `lightrag_release` that belong to one scope, beside the coordination tables of the same
database.
-/

namespace LightRAG.Release
open Table

structure ScopeRow where
  scope : String
  profileHash : String
  configHash : String
  activeSlot : Slot
  candidateSlot : Option Slot
  epoch : Nat
  owner : Option String
  phase : Phase
  gateOpen : Bool
  policy : Policy
  identity : Option ReleaseIdentity
  drainDeadline : Option Nat
deriving DecidableEq

/-- What `begin` remembers of the scope, and the digest that is captured later. -/
structure Previous where
  epoch : Nat
  activeSlot : Slot
  configHash : String
  digest : Option String
deriving DecidableEq

structure ReleaseRow where
  releaseId : String
  identity : ReleaseIdentity
  phase : Phase
  previous : Previous
  rollbackApproval : Option Approval
  updatedAt : Nat
deriving DecidableEq

structure InstanceRow where
  instanceId : String
  slot : Slot
  configHash : String
  profileHash : String
  coordinatorOwner : Uuid
  retiring : Bool
  closed : Bool
deriving DecidableEq

inductive CommandState
  | queued
  | executing
  | succeeded
  | failed
  | uncertain
deriving DecidableEq

/-- `QUEUED`, `EXECUTING` and `UNCERTAIN`. -/
def CommandState.unfinished : CommandState → Bool
  | queued | executing | uncertain => true
  | succeeded | failed => false

/-- A command envelope: the members the functions read, and the `octet_length` of its text. -/
structure CommandEnvelope where
  operation : String
  scope : String
  principalId : String
  idempotencyKey : String
  payloadHash : String
  sourceRefs : List String
  octets : Nat
deriving DecidableEq

structure CommandRow where
  id : Uuid
  sequence : Nat
  principalId : String
  idempotencyKey : String
  payloadHash : String
  envelope : CommandEnvelope
  state : CommandState
  executor : Option String
  epoch : Option Nat
  ticketId : Option Uuid
  result : Option String
deriving DecidableEq

/-- `UNIQUE (scope, principal_id, idempotency_key)`. -/
def CommandRow.key (c : CommandRow) : String × String := (c.principalId, c.idempotencyKey)

/-- The update of `claim_command`. -/
def CommandRow.claimedBy (c : CommandRow) (instanceId : String) (epoch : Nat) (ticket : Uuid) :
    CommandRow :=
  { c with
    state := .executing, executor := some instanceId, epoch := some epoch, ticketId := some ticket }

inductive TicketState
  | active
  | completed
  | uncertain
deriving DecidableEq

structure TicketRow where
  id : Uuid
  instanceId : String
  slot : Slot
  epoch : Nat
  commandId : Option Uuid
  kind : String
  state : TicketState
deriving DecidableEq

inductive CleanupState
  | cleaning
  | cleaned
deriving DecidableEq

structure CleanupRow where
  sourceRef : String
  instanceId : String
  ticketId : Uuid
  state : CleanupState
deriving DecidableEq

structure Db where
  coordination : Coordination.Db
  scope : ScopeRow
  releases : List ReleaseRow
  instances : List InstanceRow
  commands : List CommandRow
  tickets : List TicketRow
  sourceCleanup : List CleanupRow
  nextSequence : Nat

/-- The row `onboard` inserts. -/
def ScopeRow.enrolled (scope profileHash configHash : String) (activeSlot : Slot)
    (policy : Policy) : ScopeRow :=
  ⟨scope, profileHash, configHash, activeSlot, none, 1, none, .idle, true, policy, none, none⟩

namespace Db

variable (db : Db)

/-- `SELECT … FROM releases WHERE release_id`. -/
def release (releaseId : String) : Option ReleaseRow :=
  lookup ReleaseRow.releaseId db.releases releaseId

def getInstance (instanceId : String) : Option InstanceRow :=
  lookup InstanceRow.instanceId db.instances instanceId

def latestCompleted : Option String :=
  ((db.releases.filter fun r => r.phase = .completed).foldl
    (fun latest r => if latest.any fun l => r.updatedAt ≤ l.updatedAt then latest else some r)
    none).map (·.identity.tag)

def candidates (slot : Slot) : List InstanceRow :=
  db.instances.filter fun i => i.slot = slot ∧ !i.closed ∧ !i.retiring

def unclosedOutside (slot : Slot) : Bool :=
  db.instances.any fun i => i.slot ≠ slot ∧ !i.closed

/-- `EXISTS` an uncertain ticket or command. -/
def uncertain (db : Db) : Bool :=
  (db.tickets.any fun t => t.state = .uncertain) || db.commands.any fun c => c.state = .uncertain

/-- `clock_timestamp() > drain_deadline`. -/
def drainExpired (now : Nat) : Bool := db.scope.drainDeadline.any fun d => d < now

/-- `clock_timestamp() + make_interval(coalesce(drain_seconds, 30))`. -/
def drainBudget (now : Nat) : Option Nat :=
  some (now + db.scope.policy.drainSeconds.getD 30)

def updateScope (f : ScopeRow → ScopeRow) (db : Db) : Db := { db with scope := f db.scope }

variable (releaseId : String)

def updateRelease (f : ReleaseRow → ReleaseRow) (db : Db) : Db :=
  { db with releases := updateWhere (fun r => r.releaseId = releaseId) f db.releases }

/-- The two statements of `begin`. -/
def beginRelease (identity : ReleaseIdentity) (now : Nat) (db : Db) : Db :=
  { db with
    releases := db.releases ++ [⟨identity.releaseId, identity, .prepared,
      ⟨db.scope.epoch, db.scope.activeSlot, db.scope.configHash, none⟩, none, now⟩]
    scope := { db.scope with
      owner := some identity.releaseId
      phase := .prepared
      candidateSlot := some db.scope.activeSlot.other
      identity := some identity } }

/-- The two statements of `transition`. -/
def advancePhase (next : Phase) (now : Nat) (db : Db) : Db :=
  (db.updateScope fun s => { s with
    phase := next
    drainDeadline := if next = .draining then db.drainBudget now else s.drainDeadline
    gateOpen := if next = .draining then false else s.gateOpen
    owner := if next = .completed then none else s.owner }).updateRelease releaseId
      fun r => { r with phase := next, updatedAt := now }

def captureDigest (releaseId digest : String) (db : Db) : Db :=
  db.updateRelease releaseId fun r => { r with previous := { r.previous with digest := some digest } }

/-- The two statements of `transfer_writer`. -/
def transferWriter (identity : ReleaseIdentity) (now : Nat) (db : Db) : Db :=
  (db.updateScope fun s => { s with
    activeSlot := s.candidateSlot.getD s.activeSlot
    candidateSlot := some s.activeSlot
    epoch := s.epoch + 1
    configHash := identity.configHash
    gateOpen := true
    phase := .writerSwitched }).updateRelease identity.releaseId
      fun r => { r with phase := .writerSwitched, updatedAt := now }

/-- The two statements of `begin_rollback`. -/
def beginRollback (approval : Approval) (now : Nat) (db : Db) : Db :=
  (db.updateScope fun s => { s with
    phase := .rollbackDraining
    gateOpen := false
    drainDeadline := db.drainBudget now }).updateRelease releaseId
      fun r => { r with phase := .rollbackDraining, rollbackApproval := some approval }

/-- The two statements of `reverse_transfer`. -/
def reverseTransfer (previous : Previous) (db : Db) : Db :=
  (db.updateScope fun s => { s with
    activeSlot := previous.activeSlot
    candidateSlot := some s.activeSlot
    epoch := s.epoch + 1
    configHash := previous.configHash
    gateOpen := true
    phase := .rollbackWriterSwitched }).updateRelease releaseId
      fun r => { r with phase := .rollbackWriterSwitched }

/-- The two statements of `finish_rollback`. -/
def advanceRollback (next : Phase) (now : Nat) (db : Db) : Db :=
  (db.updateScope fun s => { s with
    phase := next
    owner := if next = .rolledBack then none else s.owner }).updateRelease releaseId
      fun r => { r with phase := next, updatedAt := now }

/-- The statement of `retire_old_instances`. -/
def retireOld : Db :=
  { db with
    instances := updateWhere (fun i => i.slot ≠ db.scope.activeSlot ∧ !i.closed)
      (fun i => { i with retiring := true }) db.instances }

/-- The two statements of `abort_before_transfer`. -/
def beginAbort (now : Nat) (db : Db) : Db :=
  (db.updateScope fun s => { s with phase := .aborting, gateOpen := true }).updateRelease releaseId
    fun r => { r with phase := .aborting, updatedAt := now }

/-- The two statements of `finish_abort`. -/
def finishAbort (now : Nat) (db : Db) : Db :=
  (db.updateScope fun s => { s with phase := .aborted, owner := none }).updateRelease releaseId
    fun r => { r with phase := .aborted, updatedAt := now }

def insertInstance (i : InstanceRow) (db : Db) : Db := { db with instances := db.instances ++ [i] }

def insertTicket (t : TicketRow) (db : Db) : Db := { db with tickets := db.tickets ++ [t] }

/-- The conditional update of `finish_ticket`. -/
def settleTicket (instanceId : String) (ticket : Uuid) (state : TicketState) (db : Db) : Db :=
  { db with
    tickets := updateWhere
      (fun t => t.id = ticket ∧ t.instanceId = instanceId ∧ t.state = .active)
      (fun t => { t with state := state }) db.tickets }

/-- The insertion of `enqueue_command`, which draws the next value of the identity column. -/
def insertCommand (id : Uuid) (principalId idempotencyKey payloadHash : String)
    (envelope : CommandEnvelope) (db : Db) : Db :=
  { db with
    commands := db.commands ++ [⟨id, db.nextSequence, principalId, idempotencyKey, payloadHash,
      envelope, .queued, none, none, none, none⟩]
    nextSequence := db.nextSequence + 1 }

def updateCommand (id : Uuid) (f : CommandRow → CommandRow) (db : Db) : Db :=
  { db with commands := updateWhere (fun c => c.id = id) f db.commands }

/-- The update of `close_instance`. -/
def closeInstance (instanceId : String) (db : Db) : Db :=
  { db with
    instances := updateWhere (fun i => i.instanceId = instanceId)
      (fun i => { i with closed := true, retiring := true }) db.instances }

def insertCleanup (r : CleanupRow) (db : Db) : Db :=
  { db with sourceCleanup := db.sourceCleanup ++ [r] }

/-- The update of `finish_source_cleanup`. -/
def finishCleanup (sourceRef instanceId : String) (ticket : Uuid) (db : Db) : Db :=
  { db with
    sourceCleanup := updateWhere
      (fun r => r.sourceRef = sourceRef ∧ r.instanceId = instanceId ∧ r.ticketId = ticket)
      (fun r => { r with state := .cleaned }) db.sourceCleanup }

end Db
end LightRAG.Release

/-!
## Drain evidence

What is counted, under the scope's row lock, before the writer moves.
-/

namespace LightRAG.Release
open Tx

def readKinds : List String :=
  ["aquery", "aquery_data", "aquery_llm", "release_read", "initialize",
    "initialize_upload_sessions"]

structure DrainEvidence where
  tickets : Nat
  uncertainTickets : Nat
  writers : Nat
  unknownOwners : Nat
  orphans : Nat
  pending : Nat
  claims : Nat
  locks : Nat
  uncertainCommands : Nat
  cleaningSources : Nat
deriving DecidableEq

namespace DrainEvidence

/-- `empty`: every count is zero. -/
def empty (e : DrainEvidence) : Bool := e = ⟨0, 0, 0, 0, 0, 0, 0, 0, 0, 0⟩

def requireEmpty (e : DrainEvidence) : Tx Db Failure Unit := do
  if e.unknownOwners ≠ 0 || e.orphans ≠ 0 || e.uncertainCommands ≠ 0 || e.uncertainTickets ≠ 0 then
    raise (.unavailable "Uncertain writer state requires an operator audit")
  if !e.empty then
    raise (.draining "Writer drain has unfinished or uncertain work")

end DrainEvidence

/-- The counts of `collect_drain_evidence`. -/
def Db.drainEvidence (db : Db) : DrainEvidence :=
  let active := db.coordination.operations.filter fun o => o.state = .active
  { writers := active.countP fun o => o.kind ∉ readKinds
    unknownOwners := active.countP fun o =>
      !db.instances.any fun i => i.coordinatorOwner = o.ownerId ∧ !i.closed
    orphans := active.countP fun o => db.coordination.isOrphan o
    pending := (active.map fun o => db.coordination.mutations.countP fun m =>
      m.operationId = o.id ∧ m.state = .pending).sum
    claims := db.coordination.documentClaims.length
    locks := db.coordination.resourceLocks.length
    tickets := db.tickets.countP fun t => t.state ≠ .completed
    uncertainTickets := db.tickets.countP fun t => t.state = .uncertain
    uncertainCommands := db.commands.countP fun c => c.state = .uncertain
    cleaningSources := db.sourceCleanup.countP fun r => r.state = .cleaning }

def collectDrainEvidence : Tx Db Failure DrainEvidence := do
  let workspace ← fetch fun db => db.coordination.workspace
  if workspace.all (·.fenced) then
    raise (.unavailable "Coordination workspace is missing or fenced")
  fetch Db.drainEvidence

section Posts

variable {db : Db}

theorem collectDrainEvidence_post {Q : Except Failure DrainEvidence → Db → Prop}
    (hrefused : ∀ f, Q (.error f) db) (hok : Q (.ok db.drainEvidence) db) :
    collectDrainEvidence.Post db Q := by
  unfold collectDrainEvidence
  simp only [post_bind,post_fetch]
  split
  · exact hrefused _
  · exact hok

theorem requireEmpty_post {Q : Except Failure Unit → Db → Prop} {e : DrainEvidence}
    (hrefused : ∀ f, Q (.error f) db) (hok : e.empty = true → Q (.ok ()) db) :
    e.requireEmpty.Post db Q := by
  unfold DrainEvidence.requireEmpty
  simp only [post_ite]
  split
  · exact hrefused _
  split
  · exact hrefused _
  · rename_i hempty
    exact hok (by simpa using hempty)

theorem tickets_of_empty (h : db.drainEvidence.empty = true) :
    ∀ t ∈ db.tickets, t.state = .completed := by
  have hcount : db.drainEvidence.tickets = 0 := by
    have heq := of_decide_eq_true h
    rw [heq]
  intro t ht
  have hnone := List.countP_eq_zero.mp hcount t ht
  simpa using hnone

end Posts
end LightRAG.Release
