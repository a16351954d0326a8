import LightRAG.Framework.Run
import LightRAG.Pipeline.Reservations

/-!
# The holders of the pipeline status

The jobs that reserve the pipeline, with the lists of flags on which each is refused, and the steps
of any number of processes on one status map and one ingress.
-/

namespace LightRAG.Reservations
open Table Pipeline

/-- The flags that refuse an enqueue, by its caller: an endpoint, the enqueue guard or a
source-conflict repair. -/
inductive EnqueueCaller
  | endpoint
  | guard
  | repair
deriving DecidableEq

def EnqueueCaller.rejectWhen : EnqueueCaller → RejectWhen
  | .endpoint => [
      (.scanningExclusive, "Document scan is classifying files. Wait for the classification " ++
        "phase to finish before submitting new work."),
      (.destructiveBusy, "Pipeline is clearing or deleting documents. Wait for the running job " ++
        "to finish before submitting new work."),
      (.manualFreezeRequested, "A retry of failed documents is draining the pipeline. Wait for " ++
        "it to finish before submitting new work.")]
  | .guard => [
      (.scanningExclusive, "Cannot enqueue while scan is classifying files; wait for the " ++
        "classification phase to finish before retrying."),
      (.manualFreezeRequested, "Cannot enqueue while a manual retry is draining the pipeline; " ++
        "wait for it to finish before retrying."),
      (.destructiveBusy, "Cannot enqueue while pipeline is clearing or deleting documents; " ++
        "wait for the running job to finish before retrying.")]
  | .repair => [
      (.destructiveBusy, "A clear/delete job is in flight; it may remove one of these " ++
        "documents. Wait for it to finish, then repair."),
      (.scanningExclusive, "A scan is classifying files and may delete stale failed stubs. " ++
        "Wait for the classification phase to finish, then repair."),
      (.manualFreezeRequested, "A manual retry is draining the pipeline for its exclusive " ++
        "reset, which can change which documents claim this source. Wait for it to finish, " ++
        "then repair.")]

def scanRejectWhen : RejectWhen := [
  (.busy, "Pipeline is currently busy processing documents. Wait for the running job to finish " ++
    "before triggering another scan."),
  (.scanning, "Another scan is already in progress. Wait for it to finish before triggering a " ++
    "new one."),
  (.pendingEnqueues, "An upload/insert or a source-conflict repair is in flight. Wait for it to " ++
    "complete before triggering a scan."),
  (.manualFreezeRequested, "A manual retry is draining the pipeline for its exclusive reset. " ++
    "Wait for it to finish before triggering a scan.")]

def scanFlags (s : PipelineStatus) : PipelineStatus :=
  { s with scanning := true, scanningExclusive := true }

/-- The list of `_acquire_destructive_busy`. -/
def destructiveRejectWhen : RejectWhen := [
  (.busy, "Pipeline is busy with another operation."),
  (.scanning, "Document scan is in progress. Wait for the scan to complete before clearing or " ++
    "deleting."),
  (.pendingEnqueues, "An upload/insert or a source-conflict repair is in flight. Wait for it to " ++
    "complete before clearing or deleting.")]

/-- The jobs that take the busy slot with `acquire_reservation`. -/
inductive BusyJob
  | clear
  | deleteBatch (docIds : List String)
  | singleDelete (docId : String)
  | customChunks (docId : String)
  | admin
deriving DecidableEq

namespace BusyJob

def kind : BusyJob → HolderKind
  | clear => .clear
  | deleteBatch _ => .delete
  | singleDelete _ => .delete
  | customChunks _ => .customChunks
  | admin => .admin

def flags (job : BusyJob) (s : PipelineStatus) : PipelineStatus :=
  match job with
  | clear =>
    { s with
      busy := true
      destructiveBusy := true
      operationRecord := some ⟨some .clear, none, none, some "all"⟩ }
  | deleteBatch docIds =>
    { s with
      busy := true
      destructiveBusy := true
      operationRecord := some ⟨some .delete, none, some docIds, none⟩ }
  | singleDelete docId =>
    { s with
      busy := true
      operationRecord := some ⟨some .delete, some docId, none, none⟩
      cancellationRequested := false }
  | customChunks docId =>
    { s with
      busy := true
      operationRecord := some ⟨some .customChunks, some docId, none, none⟩
      cancellationRequested := false
      cancellationReason := none }
  | admin => { s with busy := true }

def rejectWhen : BusyJob → RejectWhen
  | clear => destructiveRejectWhen
  | deleteBatch _ => destructiveRejectWhen
  | singleDelete _ => [(.busy, "Pipeline is busy with another operation.")]
  | customChunks _ => [
      (.busy, "Pipeline is busy with another operation; ainsert_custom_chunks cannot run " ++
        "concurrently. Wait for it to finish and retry."),
      (.scanning, "A document scan is in progress; ainsert_custom_chunks cannot run " ++
        "concurrently. Wait for the scan to finish and retry.")]
  | admin => [
      (.busy, "Pipeline is busy with another operation. Wait for the running job to finish " ++
        "before editing the knowledge graph."),
      (.scanning, "Pipeline is busy with another operation. A document scan is in progress; " ++
        "wait for it to complete before editing the knowledge graph.")]

/-- The job sets `destructive_busy`. -/
def destructive : BusyJob → Bool
  | clear => true
  | deleteBatch _ => true
  | singleDelete _ => false
  | customChunks _ => false
  | admin => false

def handsOff : BusyJob → Bool
  | clear => false
  | deleteBatch _ => false
  | singleDelete _ => true
  | customChunks _ => true
  | admin => false

end BusyJob

namespace PipelineStatus

variable (s : PipelineStatus)

/-- `_release_destructive_action` and `_clear_release`. -/
def releaseDestructiveAction : PipelineStatus :=
  { s with busy := false, destructiveBusy := false, busyOwner := none, operationRecord := none }

def deleteRelease : PipelineStatus :=
  { s.releaseDestructiveAction with cancellationRequested := false }

def releaseAdminBusy : PipelineStatus :=
  { s with busy := false, busyOwner := none }

def releaseScanningAction : PipelineStatus :=
  { s with scanning := false, scanningExclusive := false, scanningOwner := none }

/-- The first updates of `_exit_action` (custom chunks) and of `_release_action` (single
delete). -/
def endJob (job : BusyJob) (s : PipelineStatus) : PipelineStatus :=
  let ended := { s with operationRecord := none, cancellationRequested := false }
  match job with
  | .customChunks _ => { ended with cancellationReason := none }
  | _ => ended

/-- `_terminal_release` of either job. -/
def terminalRelease (job : BusyJob) (s : PipelineStatus) : PipelineStatus :=
  { s.endJob job with busy := false, busyOwner := none }

/-- The release of the finalizer of a run and of `apipeline_reset_failed_for_scan`. -/
def releaseRun : PipelineStatus :=
  { s.clearManual with busy := false, busyOwner := none }

def beginManualDrain (owner : ManualOwner) (s : PipelineStatus) : PipelineStatus :=
  { s with
    manualFreezeRequested := true
    manualResetting := false
    manualPhase := .drainToIdle
    manualOwner := some owner }

/-- `_enter` of `_run_exclusive_failed_reset`. -/
def enterReset : PipelineStatus :=
  { s with manualResetting := true, manualPhase := .exclusiveReset }

/-- The update of `force_reset_recovery`. -/
def forceReset : PipelineStatus :=
  { s.clearManual with
    recoveryRequired := none
    operationRecord := none
    busy := false
    destructiveBusy := false
    busyOwner := none
    scanning := false
    scanningExclusive := false
    scanningOwner := none }

end PipelineStatus

inductive Role
  | run
  | scanReset
  | job (job : BusyJob)
deriving DecidableEq

/-- How far the operation is: it holds a job's slot, has decided to hand it off, is in the run
loop, in the exclusive reset of that loop or of a scan, on its way to the finalizer, has
released in the loop, or has left. -/
inductive Stage
  | holding
  | handoff
  | running
  | resetting
  | unwinding
  | released
  | left
deriving DecidableEq

structure Operation where
  token : String
  process : Process
  role : Role
  stage : Stage
deriving DecidableEq

/-- The status map, the ingress, the live processes, the operations on the busy slot, the
enqueue tokens with the process whose handler holds each, and the tokens drawn so far. -/
structure World where
  status : PipelineStatus
  ingress : Mailbox
  live : List Process
  operations : List Operation
  reservations : List (String × Process)
  drawn : List String
deriving DecidableEq

/-- The readings do not contradict the live processes. -/
structure Os.Truthful (os : Os) (live : List Process) : Prop where
  self : os.self ∈ live
  alive : ∀ p ∈ live, os.pidAlive p.pid = true
  start : ∀ p ∈ live, ∀ now recorded, os.procStarttime p.pid = some now →
    p.startId = some recorded → now = recorded

/-- `PipelineNextStep`. -/
inductive NextStep
  | cancelled (internalError : Bool)
  | continueSweepPage
  | continueAuto
  | continueDocument
  | continueDrainWait
  | beginExclusiveReset
  | continueManual (requestId : Option String)
  | released
deriving DecidableEq

def Mailbox.after (m : Mailbox) (op : Op) : Mailbox := (Mailbox.perform op m).2

/-- `_decide_pipeline_next_step`; `sweepDone` says that the cursor is `CURSOR_END`. -/
def decidePipelineNextStep (sweepDone : Bool) (s : PipelineStatus) (m : Mailbox) :
    NextStep × PipelineStatus × Mailbox :=
  if s.cancellationRequested then
    (.cancelled (s.cancellationReason = some "internal_error"), s, m)
  else if s.manualPhase = .drainToIdle then
    if !sweepDone then (.continueSweepPage, s, m)
    else if m.autoRescanPending then (.continueAuto, s, Mailbox.after m .consumeAutoRescan)
    else if m.counts.documents ≠ 0 then (.continueDocument, s, m)
    else if s.pendingEnqueues ≠ 0 then (.continueDrainWait, s, m)
    else (.beginExclusiveReset, s, m)
  else
    match m.manualRetries.head? with
    | some request => (.continueManual request.2.requestId, s, m)
    | none =>
      if !sweepDone then (.continueSweepPage, s, m)
      else if m.autoRescanPending then (.continueAuto, s, Mailbox.after m .consumeAutoRescan)
      else if m.counts.documents ≠ 0 then (.continueDocument, s, m)
      else (.released, { s with busy := false, busyOwner := none }, m)

def finalize (token : String) (busyReleasedInLoop : Bool) (s : PipelineStatus) : PipelineStatus :=
  let releasedHere := !busyReleasedInLoop && s.ownedBy .busyOwner token
  let freed := if releasedHere then s.releaseRun else s
  let foreign := !releasedHere && s.busyOwner.any fun rec => rec.token ≠ token
  if foreign || (!busyReleasedInLoop && !releasedHere) then freed
  else { freed with cancellationRequested := false, cancellationReason := none }

/-- The steps of a processing run on the status map and the ingress. -/
inductive RunStep
  | absorbAutoRescan
  | beginManualDrain (requestId : String)
  | decide (sweepDone : Bool)
  | drainDocuments (limit : Option Int)
  | republish (msgs : List Message)
  | rearmAutoRescan
  | enterReset
  | checkFreezeOwner
  | ackManualRetry (requestId : String)
  | endManualDrain
  | reap (os : Os)
  | fence (kind message : String) (operationRecord : Option OperationRecord)
  | abort (reason : Option String)
  | clearCancellation
  | finalize (uncommittedWakeup : Bool)

inductive Event
  | spawn (p : Process)
  | die (p : Process)
  | ingress (op : Op)
  | reserve (os : Os) (caller : EnqueueCaller) (token : String) (weight capacity : Int)
      (activeCount : Option Int)
  | reweight (os : Os) (token : String) (weight capacity : Int) (activeCount : Option Int)
  | releaseEnqueue (token : String)
  | check (os : Os) (rejectWhen : RejectWhen) (exemptIfReserved : Option String)
  | acquireScan (os : Os) (token : String)
  | transitionScan (token : String)
  | releaseScan (token : String)
  | acquireJob (os : Os) (token : String) (job : BusyJob)
  | releaseJob (token : String) (finished : Bool)
  | exitJob (token : String) (probeFails : Bool)
  | terminalRelease (token : String)
  | acquireRun (os : Os) (token : String)
  | acquireScanReset (os : Os) (token : String) (scanOwnerToken : Option String)
  | takeOver (os : Os) (token : String)
  | run (token : String) (step : RunStep)
  | releaseScanReset (token : String)
  | reap (os : Os)
  | forgetIdentity (key : OwnerKey)
  | cancelPipeline
  | forceReset

def RunStep.allowedIn : RunStep → Operation → Prop
  | .decide _, op => op.stage = .running ∧ op.role ≠ .scanReset
  | .beginManualDrain _, op => op.stage = .running
  | .enterReset, op => op.stage = .running
  | .checkFreezeOwner, op => op.stage = .resetting ∧ op.role ≠ .scanReset
  | .ackManualRetry _, op => op.stage = .resetting
  | .endManualDrain, op => op.stage = .resetting ∧ op.role ≠ .scanReset
  | .fence _ _ _, op => op.stage = .running
  | .clearCancellation, op => op.stage = .running
  | .finalize _, op => op.stage ≠ .holding ∧ op.stage ≠ .handoff ∧ op.stage ≠ .left ∧
      op.role ≠ .scanReset
  | _, op => op.stage = .running ∨ op.stage = .resetting

namespace World

variable (w : World)

def operation (token : String) : Option Operation :=
  lookup Operation.token w.operations token

def setStage (token : String) (stage : Stage) (w : World) : World :=
  { w with
    operations := updateWhere (fun op => op.token = token) (fun op => { op with stage := stage })
      w.operations }

def setStatus (s : PipelineStatus) (w : World) : World := { w with status := s }

/-- An operation starts with the token it drew; a refused one only has its releases left. -/
def start (token : String) (p : Process) (role : Role) (stage : Stage) (acquired : Bool)
    (w : World) : World :=
  { w with
    operations := w.operations ++ [⟨token, p, role, if acquired then stage else .left⟩]
    drawn := token :: w.drawn }

def runStep (op : Operation) (w : World) : RunStep → World
  | .absorbAutoRescan => { w with ingress := Mailbox.after w.ingress .consumeAutoRescan }
  | .beginManualDrain requestId =>
    w.setStatus (withReservationLock .busyOwner op.token
      (·.beginManualDrain (makeManualOwnerRecord op.process requestId op.token)) w.status)
  | .decide sweepDone =>
    match decidePipelineNextStep sweepDone w.status w.ingress with
    | (NextStep.released, s, m) =>
      ({ w with status := s, ingress := m }).setStage op.token .released
    | (_, s, m) => { w with status := s, ingress := m }
  | .drainDocuments limit => { w with ingress := Mailbox.after w.ingress (.drainDocuments limit) }
  | .republish msgs => { w with ingress := Mailbox.after w.ingress (.putDocuments msgs) }
  | .rearmAutoRescan => { w with ingress := Mailbox.after w.ingress .requestAutoRescan }
  | .enterReset =>
    if w.status.ownedBy .busyOwner op.token then
      (w.setStatus w.status.enterReset).setStage op.token .resetting
    else w
  | .checkFreezeOwner =>
    if w.status.ownedBy .busyOwner op.token then w else w.setStage op.token .running
  | .ackManualRetry requestId =>
    { w with ingress := Mailbox.after w.ingress (.ackManualRetry requestId) }
  | .endManualDrain =>
    (w.setStatus (withReservationLock .busyOwner op.token (·.clearManual) w.status)).setStage
      op.token .running
  | .reap os => w.setStatus (w.status.reconcile os)
  | .fence kind message operationRecord =>
    (w.setStatus (fenceWorkspaceForRecovery kind message operationRecord w.status)).setStage
      op.token .unwinding
  | .abort reason =>
    w.setStatus { w.status with cancellationRequested := true, cancellationReason := reason }
  | .clearCancellation =>
    if w.status.cancellationRequested then
      (w.setStatus { w.status with
        cancellationRequested := false
        cancellationReason := none }).setStage op.token .unwinding
    else w
  | .finalize uncommittedWakeup =>
    let ingress :=
      if uncommittedWakeup then Mailbox.after w.ingress .requestAutoRescan else w.ingress
    ({ w with
      status := finalize op.token (op.stage = Stage.released) w.status
      ingress := ingress }).setStage op.token .left

def exitJob (op : Operation) (job : BusyJob) (probeFails : Bool) (w : World) : World :=
  if w.status.ownedBy .busyOwner op.token then
    if probeFails || w.ingress.hasWork then
      (w.setStatus (w.status.endJob job)).setStage op.token .handoff
    else (w.setStatus (w.status.terminalRelease job)).setStage op.token .left
  else w.setStage op.token .left

def next : Event → World
  | .spawn p => { w with live := w.live ++ [p] }
  | .die p =>
    { w with
      live := deleteWhere (fun q => q = p) w.live
      operations := deleteWhere (fun op => op.process = p) w.operations
      reservations := deleteWhere (fun r => r.2 = p) w.reservations }
  | .ingress op => { w with ingress := Mailbox.after w.ingress op }
  | .reserve os caller token weight capacity activeCount =>
    match acquireEnqueueReservation os token caller.rejectWhen weight capacity activeCount
        w.status with
    | (.ok r, s) =>
      { w with
        status := s
        reservations := if r.acquired then (token, os.self) :: w.reservations else w.reservations }
    | (.error _, s) => w.setStatus s
  | .reweight os token weight capacity activeCount =>
    w.setStatus (acquireEnqueueReservation os token [] weight capacity activeCount w.status).2
  | .releaseEnqueue token =>
    { w with
      status := releaseTokenSetReservation token w.status
      reservations := deleteWhere (fun r => r.1 = token) w.reservations }
  | .check os rejectWhen exempt =>
    w.setStatus (checkPipelineStatusMutation os rejectWhen exempt w.status).2
  | .acquireScan os token =>
    w.setStatus (acquireReservation os .scanningOwner token .scan scanFlags scanRejectWhen
      (some (w.ingress.manualRetries.head?.map Prod.snd)) w.status).2
  | .transitionScan token => w.setStatus (transitionScanningReservation token w.status).2
  | .releaseScan token =>
    w.setStatus (withReservationLock .scanningOwner token (·.releaseScanningAction) w.status)
  | .acquireJob os token job =>
    let r := acquireReservation os .busyOwner token job.kind job.flags job.rejectWhen none w.status
    (w.setStatus r.2).start token os.self (.job job) .holding r.1.acquired
  | .releaseJob token finished =>
    match w.operation token with
    | some ⟨_, _, .job .admin, _⟩ =>
      (w.setStatus (withReservationLock .busyOwner token (·.releaseAdminBusy) w.status)).setStage
        token .left
    | some ⟨_, _, .job (.deleteBatch _), _⟩ =>
      let action := if finished then PipelineStatus.deleteRelease
        else PipelineStatus.releaseDestructiveAction
      (w.setStatus (withReservationLock .busyOwner token action w.status)).setStage token .left
    | some ⟨_, _, .job .clear, _⟩ =>
      (w.setStatus (withReservationLock .busyOwner token (·.releaseDestructiveAction)
        w.status)).setStage token .left
    | _ => w
  | .exitJob token probeFails =>
    match w.operation token with
    | some op =>
      match op.role with
      | .job job => w.exitJob op job probeFails
      | _ => w
    | none => w
  | .terminalRelease token =>
    match w.operation token with
    | some ⟨_, _, .job job, _⟩ =>
      (w.setStatus (withReservationLock .busyOwner token (·.terminalRelease job)
        w.status)).setStage token .left
    | _ => w
  | .acquireRun os token =>
    let r := acquireProcessingReservation os token false none processingFlags w.status
    let armed := if r.2.1 then Mailbox.after w.ingress .requestAutoRescan else w.ingress
    ({ w with status := r.2.2, ingress := armed }).start token os.self .run .running r.1.acquired
  | .acquireScanReset os token scanOwnerToken =>
    let r := acquireProcessingReservation os token false scanOwnerToken processingFlags w.status
    let armed := if r.2.1 then Mailbox.after w.ingress .requestAutoRescan else w.ingress
    ({ w with status := r.2.2, ingress := armed }).start token os.self .scanReset .running
      r.1.acquired
  | .takeOver os token =>
    let r := acquireProcessingReservation os token true none processingFlags w.status
    let taken := w.setStatus r.2.2
    if r.1.acquired then taken.setStage token .running else taken
  | .run token step =>
    match w.operation token with
    | some op => w.runStep op step
    | none => w
  | .releaseScanReset token =>
    (w.setStatus (withReservationLock .busyOwner token (·.releaseRun) w.status)).setStage token
      .left
  | .reap os => w.setStatus (w.status.reconcile os)
  | .forgetIdentity key =>
    w.setStatus (w.status.setOwner key ((w.status.owner key).map fun rec => { rec with pid := none }))
  | .cancelPipeline =>
    if w.status.busy then w.setStatus { w.status with cancellationRequested := true } else w
  | .forceReset =>
    if w.status.recoveryRequired.isSome then
      { w with
        status := w.status.forceReset
        ingress := Mailbox.after w.ingress .cancelManualRetries }
    else w

/-- A live operation of the token satisfies `P`. -/
def OperationIs (token : String) (P : Operation → Prop) : Prop :=
  ∃ op, w.operation token = some op ∧ P op

def Enabled : Event → Prop
  | .spawn p => p.pid ∉ w.live.map Process.pid
  | .die p => p ∈ w.live
  | .reserve os _ token _ _ _ => os.Truthful w.live ∧ ∀ p, (token, p) ∈ w.reservations → p = os.self
  -- only the handler that reserved the token and has not released it passes no fences
  | .reweight os token _ _ _ => os.Truthful w.live ∧ (token, os.self) ∈ w.reservations
  | .check os _ _ => os.Truthful w.live
  | .acquireScan os _ => os.Truthful w.live
  | .acquireJob os token _ => os.Truthful w.live ∧ token ∉ w.drawn
  | .releaseJob token _ => w.OperationIs token fun op => op.stage = .holding ∨ op.stage = .left
  | .exitJob token _ => w.OperationIs token fun op =>
      (∃ job, op.role = .job job ∧ job.handsOff = true) ∧
        (op.stage = .holding ∨ op.stage = .handoff)
  | .terminalRelease token => w.OperationIs token fun op =>
      (∃ job, op.role = .job job ∧ job.handsOff = true) ∧ op.stage ≠ .running ∧
        op.stage ≠ .resetting ∧ op.stage ≠ .unwinding
  | .acquireRun os token => os.Truthful w.live ∧ token ∉ w.drawn
  | .acquireScanReset os token _ => os.Truthful w.live ∧ token ∉ w.drawn
  | .takeOver os token => os.Truthful w.live ∧
      w.OperationIs token fun op => op.process = os.self ∧ op.stage = .handoff
  | .run token step => (∀ os, step = .reap os → os.Truthful w.live) ∧
      w.OperationIs token fun op => step.allowedIn op
  | .releaseScanReset token => w.OperationIs token fun op => op.role = .scanReset
  | .reap os => os.Truthful w.live
  | _ => True

def Step (e : Event) (w' : World) : Prop := w.Enabled e ∧ w' = w.next e

structure Initial (w : World) : Prop where
  status : w.status = .initial
  operations : w.operations = []
  reservations : w.reservations = []
  drawn : w.drawn = []
  pids : (w.live.map Process.pid).Nodup

end World
end LightRAG.Reservations
