import LightRAG.Distributed.Release.Schema

/-!
# The release store

The transactions of `ReleaseStore`. Each runs under the row lock of the scope and is rolled back
when it raises.
-/

namespace LightRAG.Release
open Tx Table

/-- `_scope` with `lock=True`. -/
def lockScope (scope : String) : Tx Db Failure ScopeRow := do
  let row ← fetch fun db => db.scope
  if row.scope ≠ scope then
    raise (.unavailable "Production scope is not enrolled")
  return row

def ScopeRow.ownedBy (row : ScopeRow) (identity : ReleaseIdentity) (expectedEpoch : Nat) : Bool :=
  row.owner = some identity.releaseId ∧ row.epoch = expectedEpoch ∧ row.identity = some identity

def validateTransition (row : ScopeRow) (identity : ReleaseIdentity) (expectedEpoch : Nat)
    (next : Phase) : Tx Db Failure Unit := do
  if !row.ownedBy identity expectedEpoch then
    raise (.conflict "Release owner, epoch or identity mismatch")
  if row.phase ∉ Phase.forward || row.phase = .completed ||
      Phase.forward[Phase.forward.idxOf row.phase + 1]? ≠ some next then
    raise (.conflict "Release phase transition refused")

/-- What `begin` returns: a finished release, or the row of the scope. -/
inductive Begun
  | finished (phase : Phase)
  | current (row : ScopeRow)
deriving DecidableEq

namespace ReleaseStore

variable (identity : ReleaseIdentity)

def begin (expectedEpoch now : Nat) : Tx Db Failure Begun := do
  let row ← lockScope identity.scope
  if row.policy.firstReleaseCredentialException then
    raise (.conflict "First-release credentials cannot enter ordinary upgrade")
  let existing ← fetch fun db => db.release identity.releaseId
  if existing.any fun r => r.identity ≠ identity then
    raise (.conflict "Release id already has a different identity")
  match existing.filter fun r => r.phase ∈ Phase.finished with
  | some r => return .finished r.phase
  | none =>
    if row.owner = some identity.releaseId then
      if row.identity ≠ some identity then
        raise (.conflict "Release identity or original epoch differs")
      match existing with
      | none => raise .exception
      | some r =>
        if r.previous.epoch ≠ expectedEpoch then
          raise (.conflict "Release identity or original epoch differs")
        return .current row
    else
      if row.epoch ≠ expectedEpoch || row.owner.any fun o => o ≠ identity.releaseId then
        raise (.conflict "Release owner or epoch conflict; no automatic takeover")
      if !row.gateOpen || row.phase ∉ [.idle, .completed, .aborted, .rolledBack] then
        raise (.conflict "Release scope is not open for preparation")
      let latest ← fetch Db.latestCompleted
      if latest.any fun tag =>
          versionLe (ReleaseIdentity.version identity.tag) (ReleaseIdentity.version tag) then
        raise (.conflict "Normal release version must advance")
      if existing.isSome then
        raise .exception
      execute (Db.beginRelease identity now)
      let row ← fetch fun db => db.scope
      return .current row

def transition (expectedEpoch : Nat) (expectedPhase next : Phase)
    (now : Nat) : Tx Db Failure ScopeRow := do
  let row ← lockScope identity.scope
  if row.phase ≠ expectedPhase then
    raise (.conflict "Unexpected release phase")
  validateTransition row identity expectedEpoch next
  if next = .writerSwitched then
    raise (.conflict "Writer transfer requires confirmed drain evidence")
  let unfinished ← fetch fun db => db.unclosedOutside row.activeSlot
  if next = .completed && unfinished then
    raise (.conflict "Old instances have not retired")
  execute (Db.advancePhase identity.releaseId next now)
  fetch fun db => db.scope

def captureBaseline (expectedEpoch : Nat) (digest : String) :
    Tx Db Failure Unit := do
  if !IdentityFields.digestMatches digest then
    raise (.conflict "Observed baseline digest is invalid")
  let row ← lockScope identity.scope
  if !row.ownedBy identity expectedEpoch || row.phase ≠ .prepared then
    raise (.conflict "Baseline capture identity differs")
  let record ← fetch fun db => db.release identity.releaseId
  match record with
  | none => raise .exception
  | some r =>
    if r.previous.digest.getD digest ≠ digest then
      raise (.conflict "Previously observed baseline artifact changed")
    execute (Db.captureDigest identity.releaseId digest)

def waitForDrain (expectedEpoch now : Nat) :
    Tx Db Failure DrainEvidence := do
  let row ← lockScope identity.scope
  if !row.ownedBy identity expectedEpoch || row.gateOpen then
    raise (.conflict "Drain identity or closed gate differs")
  let expired ← fetch fun db => db.drainExpired now
  if expired then
    raise (.budgetExceeded "Persisted writer drain budget expired")
  let evidence ← collectDrainEvidence
  evidence.requireEmpty
  return evidence

/-- The instance set and the configuration of a slot are the expected ones. -/
def sameCandidates (candidates : List InstanceRow) (expectedInstances : List String)
    (configHash : String) : Bool :=
  (candidates.all fun i => i.instanceId ∈ expectedInstances) &&
    (expectedInstances.all fun id => candidates.any fun i => i.instanceId = id) &&
    candidates.all fun i => i.configHash = configHash

def transferWriter (identity : ReleaseIdentity) (expectedEpoch : Nat)
    (expectedInstances : List String) (now : Nat) : Tx Db Failure ScopeRow := do
  let row ← lockScope identity.scope
  validateTransition row identity expectedEpoch .writerSwitched
  if row.gateOpen || expectedInstances = [] then
    raise (.conflict "Writer transfer requires a closed gate and candidate set")
  let expired ← fetch fun db => db.drainExpired now
  if expired then
    raise (.budgetExceeded "Persisted writer drain budget expired")
  let candidates ← fetch fun db => row.candidateSlot.elim [] db.candidates
  if !sameCandidates candidates expectedInstances identity.configHash then
    raise (.conflict "Candidate instance set or configuration changed")
  let evidence ← collectDrainEvidence
  evidence.requireEmpty
  execute (Db.transferWriter identity now)
  fetch fun db => db.scope

def approves (approval : Approval) (identity : ReleaseIdentity) (row : ScopeRow)
    (previous : Previous) (expectedEpoch : Nat) : Bool :=
  approval.fromDigest = identity.digest ∧ approval.toConfigHash = previous.configHash ∧
    approval.toDigest = previous.digest ∧ approval.profileHash = row.profileHash ∧
    approval.readWriteCompatible = true ∧ !Text.isBlank approval.evidenceId ∧
    expectedEpoch = previous.epoch + 1

/-- `begin_rollback`; an approval that is not an object of the required members is `none`. -/
def beginRollback (identity : ReleaseIdentity) (expectedEpoch : Nat)
    (approval : Option Approval) (now : Nat) : Tx Db Failure ScopeRow := do
  let row ← lockScope identity.scope
  let record ← fetch fun db => db.release identity.releaseId
  match record, approval with
  | none, _ => raise (.conflict "Rollback release identity differs")
  | some _, none =>
    if row.identity ≠ some identity then
      raise (.conflict "Rollback release identity differs")
    raise (.conflict "Explicit release-bound rollback compatibility is required")
  | some r, some a =>
    if row.identity ≠ some identity then
      raise (.conflict "Rollback release identity differs")
    if !approves a identity row r.previous expectedEpoch then
      raise (.conflict "Explicit release-bound rollback compatibility is required")
    if row.phase ∈ [.rollbackDraining, .rollbackWriterSwitched, .rollbackRetiring, .rolledBack] then
      if r.rollbackApproval ≠ some a then
        raise (.conflict "Rollback approval differs from its durable intent")
      return row
    else
      if row.owner ≠ some identity.releaseId || row.epoch ≠ expectedEpoch ||
          row.phase ≠ .writerSwitched then
        raise (.conflict "Rollback is only safe before old instances retire")
      let available ← fetch fun db => db.candidates r.previous.activeSlot
      if available.isEmpty then
        raise (.conflict "Old slot is no longer available for rollback")
      execute (Db.beginRollback identity.releaseId a now)
      fetch fun db => db.scope

def reverseTransfer (identity : ReleaseIdentity) (expectedEpoch : Nat)
    (expectedInstances : List String) (now : Nat) : Tx Db Failure ScopeRow := do
  let row ← lockScope identity.scope
  if !row.ownedBy identity expectedEpoch || row.phase ≠ .rollbackDraining || row.gateOpen then
    raise (.conflict "Reverse transfer identity differs")
  let record ← fetch fun db => db.release identity.releaseId
  match record with
  | none => raise .exception
  | some r =>
    let expired ← fetch fun db => db.drainExpired now
    if r.rollbackApproval = none || expired then
      raise (.conflict "Rollback approval or drain budget unavailable")
    let candidates ← fetch fun db => db.candidates r.previous.activeSlot
    if expectedInstances = [] ||
        !sameCandidates candidates expectedInstances r.previous.configHash then
      raise (.conflict "Rollback candidate set differs")
    let evidence ← collectDrainEvidence
    evidence.requireEmpty
    execute (Db.reverseTransfer identity.releaseId r.previous)
    fetch fun db => db.scope

def finishRollback (expectedEpoch now : Nat) :
    Tx Db Failure ScopeRow := do
  let row ← lockScope identity.scope
  if !row.ownedBy identity expectedEpoch ||
      row.phase ∉ [.rollbackWriterSwitched, .rollbackRetiring] then
    raise (.conflict "Rollback completion identity differs")
  let next := if row.phase = .rollbackWriterSwitched then .rollbackRetiring else .rolledBack
  let unfinished ← fetch fun db => db.unclosedOutside row.activeSlot
  if next = Phase.rolledBack && unfinished then
    raise (.conflict "Rollback instances have not retired")
  execute (Db.advanceRollback identity.releaseId next now)
  fetch fun db => db.scope

def retireOldInstances (expectedEpoch : Nat) :
    Tx Db Failure Unit := do
  let row ← lockScope identity.scope
  if !row.ownedBy identity expectedEpoch ||
      row.phase ∉ [.retiring, .rollbackRetiring, .aborting] then
    raise (.conflict "Retirement identity mismatch")
  execute Db.retireOld

def abortBeforeTransfer (expectedEpoch now : Nat) :
    Tx Db Failure ScopeRow := do
  let row ← lockScope identity.scope
  if !row.ownedBy identity expectedEpoch || row.phase ∉ [.prepared, .draining, .readSwitched] then
    raise (.conflict "Abort is only allowed before writer transfer")
  let uncertain ← fetch Db.uncertain
  if uncertain then
    raise (.conflict "Unknown writes prevent reopening the old gate")
  let proof ← collectDrainEvidence
  if proof.unknownOwners ≠ 0 || proof.orphans ≠ 0 then
    raise (.conflict "Old writer identity is uncertain")
  execute (Db.beginAbort identity.releaseId now)
  fetch fun db => db.scope

def finishAbort (identity : ReleaseIdentity) (expectedEpoch now : Nat) :
    Tx Db Failure ScopeRow := do
  let row ← lockScope identity.scope
  if !row.ownedBy identity expectedEpoch || row.phase ≠ .aborting || !row.gateOpen then
    raise (.conflict "Abort completion identity differs")
  let unfinished ← fetch fun db => db.unclosedOutside row.activeSlot
  if unfinished then
    raise (.conflict "Candidate instances have not retired")
  let proof ← collectDrainEvidence
  if proof.unknownOwners ≠ 0 || proof.orphans ≠ 0 || proof.uncertainTickets ≠ 0 ||
      proof.uncertainCommands ≠ 0 then
    raise (.unavailable "Writer uncertainty appeared during abort")
  execute (Db.finishAbort identity.releaseId now)
  fetch fun db => db.scope

end ReleaseStore
end LightRAG.Release

/-!
## The stored functions

The functions of `lightrag_release` that instances execute. An exception rolls the call back.
-/

namespace LightRAG.Release
open Tx Table

structure InstanceStatus where
  http : Nat
  queries : Nat
  writers : Nat
  waiters : Nat
  backend : Nat
  background : Nat
deriving DecidableEq

def CommandState.isTerminal : CommandState → Bool
  | .succeeded | .failed | .uncertain => true
  | .queued | .executing => false

namespace Db

def ticketLive (db : Db) (instanceId : String) (ticket : Uuid) : Bool :=
  db.tickets.any fun t => t.id = ticket ∧ t.instanceId = instanceId ∧ t.state = .active ∧
    t.epoch = db.scope.epoch ∧ (db.instances.any fun i => i.instanceId = instanceId ∧ !i.closed)

def needsSource (db : Db) (sourceRef : String) : Bool :=
  db.commands.any fun c => c.state.unfinished ∧ sourceRef ∈ c.envelope.sourceRefs

def cleanupOwns (db : Db) (sourceRefs : List String) : Bool :=
  db.sourceCleanup.any fun r => r.sourceRef ∈ sourceRefs

def nextQueued (db : Db) : Option CommandRow :=
  first CommandRow.sequence (db.commands.filter fun c => c.state = .queued)

end Db

/-- `SELECT * INTO STRICT … FROM scopes … FOR UPDATE`. -/
def strictScope (scope : String) : Tx Db Failure ScopeRow := do
  let s ← fetch fun db => db.scope
  if s.scope ≠ scope then
    raise (.sql "P0002" "query returned no rows")
  return s

variable (instanceId : String)

def strictInstance : Tx Db Failure InstanceRow := do
  let found ← fetch fun db => db.getInstance instanceId
  match found with
  | none => raise (.sql "P0002" "query returned no rows")
  | some i => return i

def ScopeRow.configFor (s : ScopeRow) (slot : Slot) : String :=
  if slot = s.activeSlot then s.configHash else (s.identity.map (·.configHash)).getD ""

def registerInstance (scope instanceId : String) (slot : Slot) (config profile : String)
    (owner : Uuid) : Tx Db Failure Unit := do
  let s ← strictScope scope
  if profile ≠ s.profileHash || config ≠ s.configFor slot then
    raise (.sql "P0001" "profile conflict")
  let existing ← fetch fun db => db.getInstance instanceId
  if existing.isNone then
    execute (Db.insertInstance ⟨instanceId, slot, config, profile, owner, false, false⟩)
  let i ← strictInstance instanceId
  if i.slot ≠ slot || i.configHash ≠ config || i.coordinatorOwner ≠ owner || i.closed then
    raise (.sql "P0001" "instance conflict")

/-- The admission behind `admit_writer`; the row constraints of the ticket come last. -/
def admitWriter (scope instanceId : String) (epoch : Nat) (id : Uuid) (kind : String)
    (command parent : Option Uuid) : Tx Db Failure (Option Uuid) := do
  let s ← strictScope scope
  let i ← strictInstance instanceId
  if i.closed || i.retiring || i.slot ≠ s.activeSlot || epoch ≠ s.epoch then
    return none
  let parentValid ← fetch fun db => db.tickets.any fun t =>
    some t.id = parent ∧ t.instanceId = instanceId ∧ t.epoch = epoch ∧ t.state = .active
  let uncertain ← fetch Db.uncertain
  if !parentValid && (!s.gateOpen || uncertain) then
    return none
  let duplicate ← fetch fun db => db.tickets.any fun t => t.id = id
  if duplicate then
    raise (.sql "23505" "duplicate key value violates unique constraint")
  let known ← fetch fun db => command.all fun c => db.commands.any fun r => r.id = c
  if !known then
    raise (.sql "23503" "insert or update violates foreign key constraint")
  execute (Db.insertTicket ⟨id, instanceId, i.slot, epoch, command, kind, .active⟩)
  return some id

/-- `CASE WHEN p_uncertain THEN 'UNCERTAIN' ELSE 'COMPLETED' END`. -/
def settledState (uncertain : Bool) : TicketState := if uncertain then .uncertain else .completed

def finishTicket (ticket : Option Uuid) (uncertain : Bool) :
    Tx Db Failure Unit := do
  let open' ← fetch fun db => db.tickets.any fun t =>
    some t.id = ticket ∧ t.instanceId = instanceId ∧ t.state = .active
  let settled ← fetch fun db => db.tickets.any fun t =>
    some t.id = ticket ∧ t.instanceId = instanceId ∧ t.state = settledState uncertain
  if open' then
    execute fun db => ticket.elim db fun t => db.settleTicket instanceId t (settledState uncertain)
  else if !settled then
    raise (.sql "P0001" "ticket conflict")

def enqueueCommand (scope instanceId : String) (id : Uuid) (principal key hash : String)
    (envelope : CommandEnvelope) : Tx Db Failure CommandRow := do
  let s ← strictScope scope
  let registered ← fetch fun db => db.instances.any fun i => i.instanceId = instanceId ∧ !i.closed
  if !registered || envelope.scope ≠ scope || envelope.principalId ≠ principal ||
      envelope.payloadHash ≠ hash || envelope.idempotencyKey ≠ key then
    raise (.sql "P0001" "command identity conflict")
  let existing ← fetch fun db => lookup CommandRow.key db.commands (principal, key)
  match existing with
  | some c =>
    if c.payloadHash ≠ hash then
      raise (.sql "P0001" "command payload conflict")
    return c
  | none =>
    let owned ← fetch fun db => db.cleanupOwns envelope.sourceRefs
    if owned then
      raise (.sql "P0001" "source cleanup already owns this reference")
    let n ← fetch fun db => db.commands.countP fun c => c.state.unfinished
    if s.policy.queueCapacity ≤ n ||
        s.policy.commandByteLimit.getD 1048576 < envelope.octets then
      raise (.sql "P0002" "queue full")
    let duplicate ← fetch fun db => db.commands.any fun c => c.id = id
    if duplicate then
      raise (.sql "23505" "duplicate key value violates unique constraint")
    let sequence ← fetch fun db => db.nextSequence
    execute (Db.insertCommand id principal key hash envelope)
    return ⟨id, sequence, principal, key, hash, envelope, .queued, none, none, none, none⟩

def claimCommand (scope instanceId : String) (epoch : Nat) (ticket : Uuid) :
    Tx Db Failure (Option CommandRow) := do
  let s ← strictScope scope
  if !s.gateOpen || epoch ≠ s.epoch then
    return none
  let next ← fetch Db.nextQueued
  match next with
  | none => return none
  | some c =>
    let t ← admitWriter scope instanceId epoch ticket c.envelope.operation (some c.id) none
    match t with
    | none => return none
    | some t =>
      execute (Db.updateCommand c.id fun c => c.claimedBy instanceId epoch t)
      return some (c.claimedBy instanceId epoch t)

def finishCommand (id : Uuid) (state : CommandState) (result : String) :
    Tx Db Failure Unit := do
  if !state.isTerminal then
    raise (.sql "P0001" "terminal state required")
  let found ← fetch fun db => lookup CommandRow.id db.commands id
  match found with
  | none => raise (.sql "P0002" "query returned no rows")
  | some c =>
    -- a `NULL` executor compares to `NULL`, which does not raise on its own
    if (c.executor.any fun e => e ≠ instanceId) || c.state ≠ .executing then
      raise (.sql "P0001" "executor conflict")
    execute (Db.updateCommand id fun c => { c with state := state, result := some result })
    finishTicket instanceId c.ticketId (state = .uncertain)

def assertTicket (ticket : Uuid) : Tx Db Failure Unit := do
  let live ← fetch fun db => db.ticketLive instanceId ticket
  if !live then
    raise (.sql "P0001" "writer ticket is not live")

/-- The instance owns no unfinished ticket and no active operation. -/
def Db.quiescent (db : Db) (instanceId : String) : Bool :=
  (db.tickets.all fun t => t.instanceId ≠ instanceId ∨ t.state = .completed) &&
    !db.instances.any fun i => i.instanceId = instanceId ∧
      db.coordination.operations.any fun o => o.ownerId = i.coordinatorOwner ∧ o.state = .active

def assertInstanceQuiescent (status : InstanceStatus) :
    Tx Db Failure Unit := do
  let quiescent ← fetch fun db => db.quiescent instanceId
  if !quiescent || status ≠ ⟨0, 0, 0, 0, 0, 0⟩ then
    raise (.sql "P0001" "instance has unfinished work")

def closeInstance (instanceId : String) (status : InstanceStatus) : Tx Db Failure Unit := do
  assertInstanceQuiescent instanceId status
  let found ← fetch fun db => db.instances.any fun i => i.instanceId = instanceId
  execute (Db.closeInstance instanceId)
  if !found then
    raise (.sql "P0001" "instance is not registered")

def claimSourceCleanup (ticket : Uuid) (sourceRef : String) :
    Tx Db Failure Bool := do
  assertTicket instanceId ticket
  let needed ← fetch fun db => db.needsSource sourceRef
  if needed then
    return false
  let owned ← fetch fun db => db.sourceCleanup.any fun r => r.sourceRef = sourceRef
  if owned then
    return false
  execute (Db.insertCleanup ⟨sourceRef, instanceId, ticket, .cleaning⟩)
  return true

def finishSourceCleanup (ticket : Uuid) (sourceRef : String) :
    Tx Db Failure Unit := do
  assertTicket instanceId ticket
  let found ← fetch fun db => db.sourceCleanup.any fun r =>
    r.sourceRef = sourceRef ∧ r.instanceId = instanceId ∧ r.ticketId = ticket
  execute (Db.finishCleanup sourceRef instanceId ticket)
  if !found then
    raise (.sql "P0001" "source cleanup conflict")

end LightRAG.Release

/-!
## Calls of operators and instances

Operators call the release store and instances call the stored functions, in any order and with any
arguments.
-/

namespace LightRAG.Release
open Tx Table

inductive Call
  | begin (identity : ReleaseIdentity) (expectedEpoch : Nat)
  | transition (identity : ReleaseIdentity) (expectedEpoch : Nat) (expectedPhase next : Phase)
  | captureBaseline (identity : ReleaseIdentity) (expectedEpoch : Nat) (digest : String)
  | waitForDrain (identity : ReleaseIdentity) (expectedEpoch : Nat)
  | transferWriter (identity : ReleaseIdentity) (expectedEpoch : Nat)
      (expectedInstances : List String)
  | beginRollback (identity : ReleaseIdentity) (expectedEpoch : Nat) (approval : Option Approval)
  | reverseTransfer (identity : ReleaseIdentity) (expectedEpoch : Nat)
      (expectedInstances : List String)
  | finishRollback (identity : ReleaseIdentity) (expectedEpoch : Nat)
  | retireOldInstances (identity : ReleaseIdentity) (expectedEpoch : Nat)
  | abortBeforeTransfer (identity : ReleaseIdentity) (expectedEpoch : Nat)
  | finishAbort (identity : ReleaseIdentity) (expectedEpoch : Nat)
  | registerInstance (scope instanceId : String) (slot : Slot) (config profile : String)
      (owner : Uuid)
  | admitWriter (scope instanceId : String) (epoch : Nat) (id : Uuid) (kind : String)
      (command parent : Option Uuid)
  | finishTicket (instanceId : String) (ticket : Option Uuid) (uncertain : Bool)
  | enqueueCommand (scope instanceId : String) (id : Uuid) (principal key hash : String)
      (envelope : CommandEnvelope)
  | claimCommand (scope instanceId : String) (epoch : Nat) (ticket : Uuid)
  | finishCommand (instanceId : String) (id : Uuid) (state : CommandState) (result : String)
  | assertTicket (instanceId : String) (ticket : Uuid)
  | closeInstance (instanceId : String) (status : InstanceStatus)
  | claimSourceCleanup (instanceId : String) (ticket : Uuid) (sourceRef : String)
  | finishSourceCleanup (instanceId : String) (ticket : Uuid) (sourceRef : String)
deriving DecidableEq

inductive Reply
  | done
  | begun (b : Begun)
  | scope (row : ScopeRow)
  | evidence (e : DrainEvidence)
  | ticket (id : Option Uuid)
  | command (row : CommandRow)
  | claimed (row : Option CommandRow)
  | granted (inserted : Bool)
deriving DecidableEq

def bodyOf (now : Nat) : Call → Tx Db Failure Reply
  | .begin identity epoch => (ReleaseStore.begin identity epoch now).returning .begun
  | .transition identity epoch expected next =>
    (ReleaseStore.transition identity epoch expected next now).returning .scope
  | .captureBaseline identity epoch digest =>
    (ReleaseStore.captureBaseline identity epoch digest).returning fun _ => .done
  | .waitForDrain identity epoch =>
    (ReleaseStore.waitForDrain identity epoch now).returning .evidence
  | .transferWriter identity epoch expected =>
    (ReleaseStore.transferWriter identity epoch expected now).returning .scope
  | .beginRollback identity epoch approval =>
    (ReleaseStore.beginRollback identity epoch approval now).returning .scope
  | .reverseTransfer identity epoch expected =>
    (ReleaseStore.reverseTransfer identity epoch expected now).returning .scope
  | .finishRollback identity epoch =>
    (ReleaseStore.finishRollback identity epoch now).returning .scope
  | .retireOldInstances identity epoch =>
    (ReleaseStore.retireOldInstances identity epoch).returning fun _ => .done
  | .abortBeforeTransfer identity epoch =>
    (ReleaseStore.abortBeforeTransfer identity epoch now).returning .scope
  | .finishAbort identity epoch => (ReleaseStore.finishAbort identity epoch now).returning .scope
  | .registerInstance scope instanceId slot config profile owner =>
    (registerInstance scope instanceId slot config profile owner).returning fun _ => .done
  | .admitWriter scope instanceId epoch id kind command parent =>
    (admitWriter scope instanceId epoch id kind command parent).returning .ticket
  | .finishTicket instanceId ticket uncertain =>
    (finishTicket instanceId ticket uncertain).returning fun _ => .done
  | .enqueueCommand scope instanceId id principal key hash envelope =>
    (enqueueCommand scope instanceId id principal key hash envelope).returning .command
  | .claimCommand scope instanceId epoch ticket =>
    (claimCommand scope instanceId epoch ticket).returning .claimed
  | .finishCommand instanceId id state result =>
    (finishCommand instanceId id state result).returning fun _ => .done
  | .assertTicket instanceId ticket => (assertTicket instanceId ticket).returning fun _ => .done
  | .closeInstance instanceId status => (closeInstance instanceId status).returning fun _ => .done
  | .claimSourceCleanup instanceId ticket sourceRef =>
    (claimSourceCleanup instanceId ticket sourceRef).returning .granted
  | .finishSourceCleanup instanceId ticket sourceRef =>
    (finishSourceCleanup instanceId ticket sourceRef).returning fun _ => .done

def Db.perform (db : Db) (now : Nat) (c : Call) : Except Failure Reply × Db :=
  (bodyOf now c).commit (fun _ => false) db

structure Db.Owns (db : Db) (identity : ReleaseIdentity) (epoch : Nat) : Prop where
  owner : db.scope.owner = some identity.releaseId
  epoch : db.scope.epoch = epoch
  identity : db.scope.identity = some identity

/-- `transition` moves along the forward path, but not over the writer transfer. -/
inductive Phase.Advances : Phase → Phase → Prop
  | drain : Advances prepared draining
  | switchRead : Advances draining readSwitched
  | retire : Advances writerSwitched retiring
  | complete : Advances retiring completed

theorem Phase.not_advances_writerSwitched {p : Phase} : ¬p.Advances .writerSwitched := by
  intro h
  cases h

/-- A ticket is granted: its instance works in the active slot at the current epoch, and either
its parent is active or the gate is open and nothing is uncertain. -/
structure Db.Admits (db : Db) (t : TicketRow) (parent : Option Uuid) (i : InstanceRow) : Prop where
  registered : db.getInstance t.instanceId = some i
  working : i.closed = false ∧ i.retiring = false
  slot : i.slot = db.scope.activeSlot ∧ t.slot = db.scope.activeSlot
  epoch : t.epoch = db.scope.epoch
  active : t.state = .active
  entitled : (∃ p ∈ db.tickets, some p.id = parent ∧ p.instanceId = t.instanceId ∧
      p.epoch = t.epoch ∧ p.state = .active) ∨
    db.scope.gateOpen = true ∧ db.uncertain = false
  fresh : ∀ p ∈ db.tickets, p.id ≠ t.id

inductive Writes (db : Db) (now : Nat) : Call → Reply → Db → Prop
  | begin {identity : ReleaseIdentity} {epoch : Nat} (howner : db.scope.owner = none)
      (hepoch : db.scope.epoch = epoch) (hgate : db.scope.gateOpen = true)
      (hrest : db.scope.phase.atRest = true) (hnew : db.release identity.releaseId = none) :
      Writes db now (.begin identity epoch)
        (.begun (.current (db.beginRelease identity now).scope)) (db.beginRelease identity now)
  | transition {identity : ReleaseIdentity} {epoch : Nat} {next : Phase}
      (howns : db.Owns identity epoch) (hadvances : db.scope.phase.Advances next)
      (hretired : next = .completed → db.unclosedOutside db.scope.activeSlot = false) :
      Writes db now (.transition identity epoch db.scope.phase next)
        (.scope (db.advancePhase identity.releaseId next now).scope)
        (db.advancePhase identity.releaseId next now)
  | captureBaseline {identity : ReleaseIdentity} {epoch : Nat} {digest : String}
      (howns : db.Owns identity epoch) (hphase : db.scope.phase = .prepared) :
      Writes db now (.captureBaseline identity epoch digest) .done
        (db.captureDigest identity.releaseId digest)
  | transferWriter {identity : ReleaseIdentity} {epoch : Nat} {expected : List String} {c : Slot}
      (howns : db.Owns identity epoch) (hphase : db.scope.phase = .readSwitched)
      (hgate : db.scope.gateOpen = false) (hcandidate : db.scope.candidateSlot = some c)
      (hsome : expected ≠ [])
      (hsame : ReleaseStore.sameCandidates (db.candidates c) expected identity.configHash = true)
      (hdrained : db.drainEvidence.empty = true) :
      Writes db now (.transferWriter identity epoch expected)
        (.scope (db.transferWriter identity now).scope) (db.transferWriter identity now)
  | beginRollback {identity : ReleaseIdentity} {epoch : Nat} {approval : Approval}
      (howns : db.Owns identity epoch) (hphase : db.scope.phase = .writerSwitched) :
      Writes db now (.beginRollback identity epoch (some approval))
        (.scope (db.beginRollback identity.releaseId approval now).scope)
        (db.beginRollback identity.releaseId approval now)
  | reverseTransfer {identity : ReleaseIdentity} {epoch : Nat} {expected : List String}
      {r : ReleaseRow} (howns : db.Owns identity epoch)
      (hphase : db.scope.phase = .rollbackDraining) (hgate : db.scope.gateOpen = false)
      (hrecord : db.release identity.releaseId = some r) (hsome : expected ≠ [])
      (hsame : ReleaseStore.sameCandidates (db.candidates r.previous.activeSlot) expected
        r.previous.configHash = true)
      (hdrained : db.drainEvidence.empty = true) :
      Writes db now (.reverseTransfer identity epoch expected)
        (.scope (db.reverseTransfer identity.releaseId r.previous).scope)
        (db.reverseTransfer identity.releaseId r.previous)
  | reopenRollback {identity : ReleaseIdentity} {epoch : Nat} (howns : db.Owns identity epoch)
      (hphase : db.scope.phase = .rollbackWriterSwitched) :
      Writes db now (.finishRollback identity epoch)
        (.scope (db.advanceRollback identity.releaseId .rollbackRetiring now).scope)
        (db.advanceRollback identity.releaseId .rollbackRetiring now)
  | finishRollback {identity : ReleaseIdentity} {epoch : Nat} (howns : db.Owns identity epoch)
      (hphase : db.scope.phase = .rollbackRetiring)
      (hretired : db.unclosedOutside db.scope.activeSlot = false) :
      Writes db now (.finishRollback identity epoch)
        (.scope (db.advanceRollback identity.releaseId .rolledBack now).scope)
        (db.advanceRollback identity.releaseId .rolledBack now)
  | retireOldInstances {identity : ReleaseIdentity} {epoch : Nat} (howns : db.Owns identity epoch)
      (hphase : db.scope.phase ∈ [Phase.retiring, .rollbackRetiring, .aborting]) :
      Writes db now (.retireOldInstances identity epoch) .done db.retireOld
  | abortBeforeTransfer {identity : ReleaseIdentity} {epoch : Nat} (howns : db.Owns identity epoch)
      (hphase : db.scope.phase ∈ [Phase.prepared, .draining, .readSwitched])
      (hcertain : db.uncertain = false) :
      Writes db now (.abortBeforeTransfer identity epoch)
        (.scope (db.beginAbort identity.releaseId now).scope)
        (db.beginAbort identity.releaseId now)
  | finishAbort {identity : ReleaseIdentity} {epoch : Nat} (howns : db.Owns identity epoch)
      (hphase : db.scope.phase = .aborting) (hgate : db.scope.gateOpen = true)
      (hretired : db.unclosedOutside db.scope.activeSlot = false) :
      Writes db now (.finishAbort identity epoch)
        (.scope (db.finishAbort identity.releaseId now).scope)
        (db.finishAbort identity.releaseId now)
  | registerInstance {scope instanceId config profile : String} {slot : Slot} {owner : Uuid}
      (hnew : db.getInstance instanceId = none) (hprofile : profile = db.scope.profileHash)
      (hconfig : config = db.scope.configFor slot) :
      Writes db now (.registerInstance scope instanceId slot config profile owner) .done
        (db.insertInstance ⟨instanceId, slot, config, profile, owner, false, false⟩)
  | admitWriter {scope kind : String} {t : TicketRow} {parent : Option Uuid} {i : InstanceRow}
      (hkind : t.kind = kind) (hadmits : db.Admits t parent i) :
      Writes db now
        (.admitWriter scope t.instanceId db.scope.epoch t.id kind t.commandId parent)
        (.ticket (some t.id)) (db.insertTicket t)
  | finishTicket {instanceId : String} {ticket : Uuid} {uncertain : Bool} :
      Writes db now (.finishTicket instanceId (some ticket) uncertain) .done
        (db.settleTicket instanceId ticket (settledState uncertain))
  | enqueueCommand {instanceId principal key hash : String} {id : Uuid}
      {envelope : CommandEnvelope}
      (hnew : ∀ c ∈ db.commands, c.key ≠ (principal, key))
      (hclean : db.cleanupOwns envelope.sourceRefs = false)
      (hroom : (db.commands.countP fun c => c.state.unfinished) < db.scope.policy.queueCapacity)
      (hfresh : ∀ c ∈ db.commands, c.id ≠ id) :
      Writes db now (.enqueueCommand db.scope.scope instanceId id principal key hash envelope)
        (.command ⟨id, db.nextSequence, principal, key, hash, envelope, .queued, none, none, none,
          none⟩)
        (db.insertCommand id principal key hash envelope)
  | claimCommand {scope : String} {t : TicketRow} {c : CommandRow} {i : InstanceRow}
      (hgate : db.scope.gateOpen = true) (hnext : db.nextQueued = some c)
      (hcommand : t.commandId = some c.id) (hkind : t.kind = c.envelope.operation)
      (hadmits : db.Admits t none i) :
      Writes db now (.claimCommand scope t.instanceId db.scope.epoch t.id)
        (.claimed (some (c.claimedBy t.instanceId t.epoch t.id)))
        ((db.insertTicket t).updateCommand c.id fun c => c.claimedBy t.instanceId t.epoch t.id)
  | finishCommand {result : String} {state : CommandState} {c : CommandRow} {t : TicketRow}
      (hterminal : state.isTerminal = true) (hfound : lookup CommandRow.id db.commands c.id = some c)
      (hexecutor : ∀ e, c.executor = some e → e = t.instanceId) (hexecuting : c.state = .executing)
      (hticket : t ∈ db.tickets) (hrecorded : c.ticketId = some t.id)
      (hopen : t.state = .active ∨ t.state = settledState (state = .uncertain)) :
      Writes db now (.finishCommand t.instanceId c.id state result) .done
        ((db.updateCommand c.id fun c =>
            { c with state := state, result := some result }).settleTicket
          t.instanceId t.id (settledState (state = .uncertain)))
  | closeInstance {instanceId : String} {status : InstanceStatus}
      (hquiescent : db.quiescent instanceId = true) :
      Writes db now (.closeInstance instanceId status) .done (db.closeInstance instanceId)
  | claimSourceCleanup {instanceId sourceRef : String} {ticket : Uuid}
      (hfree : db.needsSource sourceRef = false)
      (hnew : ∀ r ∈ db.sourceCleanup, r.sourceRef ≠ sourceRef) :
      Writes db now (.claimSourceCleanup instanceId ticket sourceRef) (.granted true)
        (db.insertCleanup ⟨sourceRef, instanceId, ticket, .cleaning⟩)
  | finishSourceCleanup {instanceId sourceRef : String} {ticket : Uuid} :
      Writes db now (.finishSourceCleanup instanceId ticket sourceRef) .done
        (db.finishCleanup sourceRef instanceId ticket)

/-- The replies a call can give without a write. -/
def Call.quiet (c : Call) (r : Reply) : Bool :=
  match c, r with
  | .begin _ _, _ | .waitForDrain _ _, _ | .beginRollback _ _ _, _ => true
  | .registerInstance _ _ _ _ _ _, _ | .enqueueCommand _ _ _ _ _ _ _, _ => true
  | .assertTicket _ _, _ => true
  | .admitWriter _ _ _ _ _ _ _, .ticket none => true
  | .claimCommand _ _ _ _, .claimed none => true
  | .claimSourceCleanup _ _ _, .granted false => true
  | _, _ => false

/-- How a call ends: it refuses, it answers and writes nothing, or it writes. -/
inductive Outcome (db : Db) (now : Nat) (c : Call) : Except Failure Reply → Db → Prop
  | refused (f : Failure) : Outcome db now c (.error f) db
  | answered (r : Reply) (hquiet : c.quiet r = true) : Outcome db now c (.ok r) db
  | wrote (r : Reply) (db' : Db) (hwrites : Writes db now c r db') : Outcome db now c (.ok r) db'

/-- What a body may end in, before its transaction is committed or rolled back. -/
def Ends {α : Type} (db : Db) (now : Nat) (c : Call) (f : α → Reply) (r : Except Failure α)
    (db' : Db) : Prop :=
  match r with
  | .ok a => Outcome db now c (.ok (f a)) db'
  | .error _ => True

end LightRAG.Release
