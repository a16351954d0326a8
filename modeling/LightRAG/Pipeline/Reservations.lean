import LightRAG.Pipeline.Ingress
import Mathlib.Algebra.Ring.Int.Defs

/-!
# Pipeline reservations

The reservation fields of `pipeline_status` and the functions that take, narrow and give up a
reservation.
-/

namespace LightRAG.Reservations
open Table Pipeline

/-- The identity of a process: its pid and the start token that `_my_start_id` caches. -/
structure Process where
  pid : Nat
  startId : Option String
deriving DecidableEq

/-- The `kind` of an owner record. -/
inductive HolderKind
  | processing
  | scan
  | admin
  | customChunks
  | delete
  | clear
deriving DecidableEq

def HolderKind.text : HolderKind → String
  | processing => "processing"
  | scan => "scan"
  | admin => "admin"
  | customChunks => "custom_chunks"
  | delete => "delete"
  | clear => "clear"

/-- `_RERUNNABLE_RESERVATION_KINDS`. -/
def HolderKind.rerunnable : HolderKind → Bool
  | processing | scan | admin => true
  | customChunks | delete | clear => false

/-- An owner record; one that another writer left may lack the pid or the kind. -/
structure Owner where
  token : String
  pid : Option Nat
  processStartId : Option String
  kind : Option HolderKind
deriving DecidableEq

structure EnqueueMeta where
  pid : Option Nat
  processStartId : Option String
  weight : Int
deriving DecidableEq

structure ManualOwner where
  requestId : String
  ownerToken : String
  pid : Option Nat
  processStartId : Option String
deriving DecidableEq

inductive ManualPhase
  | idle
  | drainToIdle
  | exclusiveReset
deriving DecidableEq

/-- An `operation_record`: the kind and the target of the work in flight. -/
structure OperationRecord where
  kind : Option HolderKind
  docId : Option String
  docIds : Option (List String)
  scope : Option String
deriving DecidableEq

inductive OwnerKey
  | busyOwner
  | scanningOwner
deriving DecidableEq

def OwnerKey.text : OwnerKey → String
  | busyOwner => "busy_owner"
  | scanningOwner => "scanning_owner"

/-- The value of `recovery_required`. -/
structure Fence where
  kind : Option String
  ownerKey : OwnerKey
  operationRecord : Option OperationRecord
  message : Option String
deriving DecidableEq

/-- The fields of `pipeline_status` that a reservation reads or writes. -/
structure PipelineStatus where
  busy : Bool
  destructiveBusy : Bool
  busyOwner : Option Owner
  scanning : Bool
  scanningExclusive : Bool
  scanningOwner : Option Owner
  pendingEnqueueTokens : List (String × EnqueueMeta)
  pendingEnqueues : Nat
  operationRecord : Option OperationRecord
  recoveryRequired : Option Fence
  scanDeferredProcessing : Bool
  manualFreezeRequested : Bool
  manualResetting : Bool
  manualPhase : ManualPhase
  manualOwner : Option ManualOwner
  cancellationRequested : Bool
  cancellationReason : Option String
deriving DecidableEq

/-- The map that `initialize_pipeline_status` writes. -/
def PipelineStatus.initial : PipelineStatus where
  busy := false
  destructiveBusy := false
  busyOwner := none
  scanning := false
  scanningExclusive := false
  scanningOwner := none
  pendingEnqueueTokens := []
  pendingEnqueues := 0
  operationRecord := none
  recoveryRequired := none
  scanDeferredProcessing := false
  manualFreezeRequested := false
  manualResetting := false
  manualPhase := .idle
  manualOwner := none
  cancellationRequested := false
  cancellationReason := none

/-- The flags that a `reject_when` list may name. -/
inductive StatusFlag
  | busy
  | scanning
  | scanningExclusive
  | pendingEnqueues
  | destructiveBusy
  | manualFreezeRequested
deriving DecidableEq

namespace PipelineStatus

variable (s : PipelineStatus)

def flag : StatusFlag → Bool
  | .busy => s.busy
  | .scanning => s.scanning
  | .scanningExclusive => s.scanningExclusive
  | .pendingEnqueues => s.pendingEnqueues ≠ 0
  | .destructiveBusy => s.destructiveBusy
  | .manualFreezeRequested => s.manualFreezeRequested

def owner : OwnerKey → Option Owner
  | .busyOwner => s.busyOwner
  | .scanningOwner => s.scanningOwner

def setOwner (key : OwnerKey) (owner : Option Owner) (s : PipelineStatus) : PipelineStatus :=
  match key with
  | .busyOwner => { s with busyOwner := owner }
  | .scanningOwner => { s with scanningOwner := owner }

def holds : OwnerKey → Bool
  | .busyOwner => s.busy || s.destructiveBusy
  | .scanningOwner => s.scanning || s.scanningExclusive

def clearFlags (key : OwnerKey) (s : PipelineStatus) : PipelineStatus :=
  match key with
  | .busyOwner => { s with busy := false, destructiveBusy := false }
  | .scanningOwner => { s with scanning := false, scanningExclusive := false }

def clearManual : PipelineStatus :=
  { s with
    manualFreezeRequested := false
    manualResetting := false
    manualPhase := .idle
    manualOwner := none }

/-- `_reservation_owner_token(status.get(key)) == token`. -/
def ownedBy (key : OwnerKey) (token : String) : Bool :=
  (s.owner key).map Owner.token = some token

end PipelineStatus

/-- What the process that runs a section reads of the operating system. -/
structure Os where
  recoveryEnabled : Bool
  self : Process
  pidAlive : Nat → Bool
  procStarttime : Nat → Option String

namespace Os

/-- `_process_alive`: false only for an owner that is confirmed dead. -/
def processAlive (os : Os) (pid : Option Nat) (startId : Option String) : Bool :=
  match pid with
  | none => true
  | some pid =>
    if pid = os.self.pid then
      match startId, os.self.startId with
      | some startId, some mine => startId = mine
      | _, _ => true
    else if !os.pidAlive pid then false
    else
      match startId, os.procStarttime pid with
      | some startId, some current => current = startId
      | _, _ => true

end Os

/-- `_owner_identity_unprobeable`. -/
def Owner.unprobeable (rec : Owner) : Bool := rec.pid.isNone

def makeOwnerRecord (p : Process) (token : String) (kind : HolderKind) : Owner :=
  ⟨token, some p.pid, p.startId, some kind⟩

def makeManualOwnerRecord (p : Process) (requestId token : String) : ManualOwner :=
  ⟨requestId, token, some p.pid, p.startId⟩

namespace PipelineStatus

/-- `_dead_reservation_updates`, applied. -/
def reclaim (key : OwnerKey) (rec : Owner) (s : PipelineStatus) : PipelineStatus :=
  let cleared := (s.clearFlags key).setOwner key none
  let idle := if key = .busyOwner then cleared.clearManual else cleared
  if rec.kind.any HolderKind.rerunnable then idle
  else { idle with
    recoveryRequired := some ⟨rec.kind.map HolderKind.text, key, s.operationRecord, none⟩ }

/-- The fence for an owner that can never be confirmed alive or dead. -/
def fenceUnprobeable (key : OwnerKey) (rec : Owner) (s : PipelineStatus) : PipelineStatus :=
  { s with
    recoveryRequired := some
      ⟨some ((rec.kind.map HolderKind.text).getD key.text), key, s.operationRecord,
        some ("the '" ++ key.text ++ "' holder records no process identity, so it can never be " ++
          "confirmed alive or dead; its reservation is left untouched rather than reclaimed on " ++
          "a guess.")⟩ }

def reconcileOwner (os : Os) (key : OwnerKey) (s : PipelineStatus) : PipelineStatus :=
  match s.owner key with
  | none => s
  | some rec =>
    if !s.holds key then s
    else if os.processAlive rec.pid rec.processStartId then
      if rec.unprobeable && s.recoveryRequired.isNone then s.fenceUnprobeable key rec else s
    else s.reclaim key rec

def aliveTokens (os : Os) (s : PipelineStatus) : List (String × EnqueueMeta) :=
  s.pendingEnqueueTokens.filter fun t => os.processAlive t.2.pid t.2.processStartId

/-- Dead tokens leave the set and the mirrored count is recalibrated. -/
def reconcileTokens (os : Os) (s : PipelineStatus) : PipelineStatus :=
  let alive := s.aliveTokens os
  if alive.length ≠ s.pendingEnqueueTokens.length ∨ s.pendingEnqueues ≠ alive.length then
    { s with pendingEnqueueTokens := alive, pendingEnqueues := alive.length }
  else s

/-- `_dead_pipeline_reservation_updates`, applied. -/
def reconcile (os : Os) (s : PipelineStatus) : PipelineStatus :=
  if !os.recoveryEnabled then s
  else ((s.reconcileOwner os .busyOwner).reconcileOwner os .scanningOwner).reconcileTokens os

end PipelineStatus

/-- `fence_workspace_for_recovery`: the first cause is kept. -/
def fenceWorkspaceForRecovery (kind message : String) (operationRecord : Option OperationRecord)
    (s : PipelineStatus) : PipelineStatus :=
  if s.recoveryRequired.isSome then s
  else { s with recoveryRequired := some ⟨some kind, .busyOwner, operationRecord, some message⟩ }

/-- `PipelineReservationConflict`. -/
inductive Conflict
  | busy
  | scanning
  | pendingEnqueue
  | destructive
  | recoveryRequired
  | manualFreeze
deriving DecidableEq

inductive FenceField
  | recoveryRequired
  | flag (f : StatusFlag)
deriving DecidableEq

/-- `PipelineReservationResult`; `snapshot` is the map that the decision was taken on. -/
structure ReservationResult where
  acquired : Bool
  conflict : Option Conflict
  message : Option String
  snapshot : PipelineStatus
  fence : Option FenceField
deriving DecidableEq

def conflictForStatusFlag : StatusFlag → Conflict
  | .busy => .busy
  | .scanning => .scanning
  | .scanningExclusive => .scanning
  | .pendingEnqueues => .pendingEnqueue
  | .destructiveBusy => .destructive
  | .manualFreezeRequested => .manualFreeze

def pipelineRecoveryBlockedMessage (s : PipelineStatus) : String :=
  match s.recoveryRequired with
  | none => "Pipeline is not fenced for recovery."
  | some rec =>
    match rec.message.filter (· ≠ "") with
    | some explicit =>
      "Pipeline is fenced pending recovery: " ++ explicit ++ " All mutations are " ++
        "refused until the workspace is recovered or force-reset."
    | none =>
      let op := rec.operationRecord
      let docId := (op.bind OperationRecord.docId).filter (· ≠ "")
      let scope := (op.bind OperationRecord.scope).filter (· ≠ "")
      let target := match docId <|> scope with
        | some target => " (target: " ++ target ++ ")"
        | none => ""
      "Pipeline is fenced pending recovery: a worker died mid '" ++ rec.kind.getD "None" ++ "'" ++
        target ++ ", which may have left storage in a partially-committed state. All mutations " ++
        "are refused until the workspace is recovered or force-reset."

namespace ReservationResult

/-- `_recovery_required_result`. -/
def recovery (s : PipelineStatus) : ReservationResult :=
  ⟨false, some .recoveryRequired, some (pipelineRecoveryBlockedMessage s), s,
    some .recoveryRequired⟩

def refused (f : StatusFlag) (reason : String) (s : PipelineStatus) : ReservationResult :=
  ⟨false, some (conflictForStatusFlag f), some reason, s, some (.flag f)⟩

def granted (s : PipelineStatus) : ReservationResult := ⟨true, none, none, s, none⟩

end ReservationResult

abbrev RejectWhen := List (StatusFlag × String)

def PipelineStatus.rejectedBy (s : PipelineStatus) (rejectWhen : RejectWhen) :
    Option (StatusFlag × String) := rejectWhen.find? fun f => s.flag f.1

/-- `acquire_reservation`. `manualPending` is `none` without `refuse_when_manual_pending`, else
the request that the mailbox returns to the peek. -/
def acquireReservation (os : Os) (key : OwnerKey) (token : String) (kind : HolderKind)
    (flags : PipelineStatus → PipelineStatus) (rejectWhen : RejectWhen)
    (manualPending : Option (Option Message)) (status : PipelineStatus) :
    ReservationResult × PipelineStatus :=
  let s := status.reconcile os
  if s.recoveryRequired.isSome then (.recovery s, s)
  else
    match s.rejectedBy rejectWhen with
    | some (f, reason) => (.refused f reason s, s)
    | none =>
      match manualPending with
      | some (some pending) =>
        (⟨false, some .manualFreeze,
          some ("An earlier manual retry request (" ++ ((pending.requestId.getD "").take 8).toString ++
            ") is still queued. A scan must not jump the manual retry FIFO — retry once it " ++
            "has been served."), s, none⟩, s)
      | _ =>
        let taken := (flags s).setOwner key (some (makeOwnerRecord os.self token kind))
        (.granted taken, taken)

def EnqueueMeta.reservationWeight (m : EnqueueMeta) : Int := if 0 < m.weight then m.weight else 0

/-- What `acquire_enqueue_reservation` raises. -/
inductive EnqueueError
  | countMissing
  | backpressure (current requested capacity : Int)
deriving DecidableEq

/-- `tokens[token] = meta`. -/
def setToken (token : String) (m : EnqueueMeta) (tokens : List (String × EnqueueMeta)) :
    List (String × EnqueueMeta) :=
  if tokens.any fun t => t.1 = token then replace Prod.fst (token, m) tokens
  else tokens ++ [(token, m)]

def reservedElsewhere (token : String) (tokens : List (String × EnqueueMeta)) : Int :=
  ((tokens.filter fun t => t.1 ≠ token).map fun t => t.2.reservationWeight).sum

/-- The token is registered with the identity of the caller. -/
def PipelineStatus.register (os : Os) (token : String) (weight : Int) (s : PipelineStatus) :
    PipelineStatus :=
  let tokens := setToken token ⟨some os.self.pid, os.self.startId, weight⟩ s.pendingEnqueueTokens
  { s with pendingEnqueueTokens := tokens, pendingEnqueues := tokens.length }

/-- `acquire_enqueue_reservation`. The fences gate new reservations only. -/
def acquireEnqueueReservation (os : Os) (token : String) (rejectWhen : RejectWhen)
    (weight capacity : Int) (activeCount : Option Int) (status : PipelineStatus) :
    Except EnqueueError ReservationResult × PipelineStatus :=
  if 0 < capacity ∧ activeCount.isNone then (.error .countMissing, status)
  else
    let s := status.reconcile os
    if s.recoveryRequired.isSome then (.ok (.recovery s), s)
    else
      let registered := s.pendingEnqueueTokens.any fun t => t.1 = token
      match if registered then none else s.rejectedBy rejectWhen with
      | some (f, reason) => (.ok (.refused f reason s), s)
      | none =>
        let current := activeCount.getD 0 + reservedElsewhere token s.pendingEnqueueTokens
        if 0 < capacity ∧ capacity < current + weight then
          (.error (.backpressure current weight capacity), s)
        else (.ok (.granted (s.register os token weight)), s.register os token weight)

def checkPipelineStatusMutation (os : Os) (rejectWhen : RejectWhen)
    (exemptIfReserved : Option String) (status : PipelineStatus) :
    ReservationResult × PipelineStatus :=
  let s := status.reconcile os
  if s.recoveryRequired.isSome then (.recovery s, s)
  else
    let exempt := exemptIfReserved.any fun token => s.pendingEnqueueTokens.any fun t => t.1 = token
    match if exempt then none else s.rejectedBy rejectWhen with
    | some (f, reason) => (.refused f reason s, s)
    | none => (.granted s, s)

def processingFlags (s : PipelineStatus) : PipelineStatus :=
  { s with cancellationRequested := false, cancellationReason := none }

/-- `acquire_processing_reservation`; the second component says whether the refusal arms the
auto-rescan flag. -/
def acquireProcessingReservation (os : Os) (token : String) (alreadyHeld : Bool)
    (scanResetOwnerToken : Option String) (flags : PipelineStatus → PipelineStatus)
    (status : PipelineStatus) : ReservationResult × Bool × PipelineStatus :=
  let s := status.reconcile os
  if s.recoveryRequired.isSome then (.recovery s, false, s)
  else
    let ownsScanFence := scanResetOwnerToken.any fun token => s.ownedBy .scanningOwner token
    if !alreadyHeld && !ownsScanFence && s.scanningExclusive then
      let deferred := { s with scanDeferredProcessing := true }
      (⟨false, some .scanning, some ("Document scan is classifying files; processing resumes " ++
        "after the classification phase finishes."), deferred, none⟩, false, deferred)
    else if !alreadyHeld && s.busy then
      (⟨false, some .busy, some "Another process is already processing the document queue.", s,
        none⟩, true, s)
    else
      let flagged := flags s
      let taken := { flagged with
        busy := true
        busyOwner := some (makeOwnerRecord os.self token .processing)
        scanDeferredProcessing := if ownsScanFence then flagged.scanDeferredProcessing else false }
      (.granted taken, false, taken)

/-- `with_reservation_lock` and `release_owned_reservation`. -/
def withReservationLock (key : OwnerKey) (token : String)
    (action : PipelineStatus → PipelineStatus) (s : PipelineStatus) : PipelineStatus :=
  if s.ownedBy key token then action s else s

def transitionScanningReservation (token : String) (s : PipelineStatus) : Bool × PipelineStatus :=
  if !s.ownedBy .scanningOwner token then (false, s)
  else if !s.scanningExclusive then (true, s)
  else (true, { s with scanningExclusive := false })

/-- `release_token_set_reservation` on `pending_enqueue_tokens`. -/
def releaseTokenSetReservation (token : String) (s : PipelineStatus) : PipelineStatus :=
  if s.pendingEnqueueTokens.any fun t => t.1 = token then
    let tokens := deleteWhere (fun t => t.1 = token) s.pendingEnqueueTokens
    { s with pendingEnqueueTokens := tokens, pendingEnqueues := tokens.length }
  else s

end LightRAG.Reservations
