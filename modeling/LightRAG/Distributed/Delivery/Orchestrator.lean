import LightRAG.Distributed.Delivery.Cluster

/-!
# The release orchestrator

`ReleaseOrchestrator`: each invocation reads the durable phase, takes the steps of that phase and
moves it on.
-/

namespace LightRAG.Delivery
open Release Trial

namespace Orchestrator

variable (config : Config) (identity : ReleaseIdentity)

/-- `begin` of the store. -/
def begin (epoch : Nat) : Runner Begun := do
  let reply ← ask (.store (.begin identity epoch))
  match reply with
  | .begun b => return b
  | _ => raise .exception

def drained (epoch : Nat) : Runner Bool :=
  Trial.handle
    (do
      let _ ← ask (.store (.waitForDrain identity epoch))
      return true)
    fun f =>
      match f with
      | .draining _ => return false
      | f => raise f

/-- `wait_for_drain`, which goes on until the drain is empty or its budget has expired. -/
def waitForDrain (epoch : Nat) : Nat → Runner Unit
  | 0 => raise .exception
  | n + 1 => do
    let empty ← drained identity epoch
    if empty then return () else waitForDrain epoch n

def report : Runner Phase := do
  let row ← ask (.snapshot identity.scope)
  ask (.recordEvidence identity)
  return row.phase

/-- The common end of `abort_before_transfer`. -/
def finishAbort (row : ScopeRow) : Runner Phase := do
  let _ ← ask (.store (.retireOldInstances identity row.epoch))
  let candidate ← namedSlot row.candidateSlot
  Transport.waitClosedAndScale candidate
  Transport.verifyRoute identity row.activeSlot
  let result ← storeRow (.finishAbort identity row.epoch)
  let _ ← report identity
  return result.phase

def abortBeforeTransfer (epoch : Nat) : Runner Phase := do
  let b ← begin identity epoch
  match b with
  | .finished phase =>
    if phase = .aborted then return phase
    else raise (.conflict "Abort is not allowed after writer transfer")
  | .current row =>
    if row.phase ∉ [.prepared, .draining, .readSwitched, .aborting] then
      raise (.conflict "Abort is not allowed after writer transfer")
    else if row.phase ≠ .aborting then
      Transport.switchReadRoute identity row.activeSlot
      Transport.verifyRoute identity row.activeSlot
      let aborting ← storeRow (.abortBeforeTransfer identity row.epoch)
      finishAbort identity aborting
    else
      Transport.verifyRoute identity row.activeSlot
      finishAbort identity row

/-- The steps of a phase; `row` is what `begin` returned. -/
def advancePhase (row : ScopeRow) : Runner Unit :=
  match row.phase with
  | .prepared => do
    let target ← namedSlot row.candidateSlot
    Transport.prepare config identity target
    let _ ← Transport.verifyCandidate identity target
    let _ ← ask (.store (.transition identity row.epoch row.phase .draining))
    return ()
  | .draining => do
    let target ← namedSlot row.candidateSlot
    let _ ← Transport.verifyCandidate identity target
    Transport.switchReadRoute identity target
    Transport.verifyRoute identity target
    ask (.recordEvidence identity)
    let _ ← ask (.store (.transition identity row.epoch row.phase .readSwitched))
    return ()
  | .readSwitched => do
    let rounds ← ask .rounds
    waitForDrain identity row.epoch rounds
    let target ← namedSlot row.candidateSlot
    let instances ← Transport.verifyCandidate identity target
    Transport.verifyRoute identity target
    let _ ← ask (.store (.transferWriter identity row.epoch instances))
    return ()
  | .writerSwitched => do
    Transport.verifyRoute identity row.activeSlot
    let _ ← ask (.store (.transition identity row.epoch row.phase .retiring))
    return ()
  | .retiring => do
    Transport.verifyRoute identity row.activeSlot
    let _ ← ask (.store (.retireOldInstances identity row.epoch))
    let old ← namedSlot row.candidateSlot
    Transport.waitClosedAndScale old
    let _ ← ask (.store (.transition identity row.epoch row.phase .completed))
    return ()
  | _ => raise (.conflict "Release is not resumable in its current phase")

def advance (epoch : Nat) : Runner Phase := do
  let b ← begin identity epoch
  match b with
  | .finished phase => return phase
  | .current row =>
    if row.phase ∈ Phase.finished then return row.phase
    else if row.phase = .aborting then abortBeforeTransfer identity epoch
    else
      advancePhase config identity row
      report identity

/-- One turn of the loop of `run`. -/
def advanceOrAbort (epoch : Nat) : Runner Phase :=
  Trial.handle (advance config identity epoch) fun f =>
    match f with
    | .budgetExceeded message => do
      let row ← ask (.snapshot identity.scope)
      if row.phase ∉ [.draining, .readSwitched] then raise (.budgetExceeded message)
      else abortBeforeTransfer identity epoch
    | f => raise f

def run (epoch : Nat) : Nat → Runner Phase
  | 0 => raise .exception
  | n + 1 => do
    let phase ← advanceOrAbort config identity epoch
    if phase ∈ Phase.finished then return phase else run epoch n

def rollbackPhase (row : ScopeRow) : Runner Unit :=
  match row.phase with
  | .rollbackDraining => do
    let rounds ← ask .rounds
    waitForDrain identity row.epoch rounds
    let target ← namedSlot row.candidateSlot
    let instances ← Transport.verifyRollbackCandidate identity target
    Transport.switchReadRoute identity target
    Transport.verifyRoute identity target
    let _ ← ask (.store (.reverseTransfer identity row.epoch instances))
    return ()
  | .rollbackWriterSwitched => do
    Transport.verifyRoute identity row.activeSlot
    let _ ← ask (.store (.finishRollback identity row.epoch))
    return ()
  | .rollbackRetiring => do
    Transport.verifyRoute identity row.activeSlot
    let _ ← ask (.store (.retireOldInstances identity row.epoch))
    let old ← namedSlot row.candidateSlot
    Transport.waitClosedAndScale old
    let _ ← ask (.store (.finishRollback identity row.epoch))
    return ()
  | _ => return ()

def rollbackAfterTransfer (epoch : Nat) (approval : Option Approval) : Runner Phase := do
  let row ← storeRow (.beginRollback identity epoch approval)
  if row.phase = .rolledBack then
    let snapshot ← ask (.snapshot identity.scope)
    return snapshot.phase
  else
    rollbackPhase identity row
    let snapshot ← ask (.snapshot identity.scope)
    return snapshot.phase

end Orchestrator

inductive Invocation
  | advance
  | run (turns : Nat)
  | abort
  | rollback (approval : Option Approval)

def Invocation.runner (config : Config) (identity : ReleaseIdentity) (epoch : Nat) :
    Invocation → Runner Phase
  | .advance => Orchestrator.advance config identity epoch
  | .run turns => Orchestrator.run config identity epoch turns
  | .abort => Orchestrator.abortBeforeTransfer identity epoch
  | .rollback approval => Orchestrator.rollbackAfterTransfer identity epoch approval

def instanceCall : Call → Bool
  | .registerInstance _ _ _ _ _ _ | .admitWriter _ _ _ _ _ _ _ | .finishTicket _ _ _ => true
  | .enqueueCommand _ _ _ _ _ _ _ | .claimCommand _ _ _ _ | .finishCommand _ _ _ _ => true
  | .assertTicket _ _ | .closeInstance _ _ | .claimSourceCleanup _ _ _ => true
  | .finishSourceCleanup _ _ _ => true
  | _ => false

/-- What happens around the runner: the instances call the database, Pods and endpoints come and
go, and the control plane writes to the resources that it reports on. -/
inductive Surroundings
  | database (e : Release.Event)
  | pods (slot : Slot) (pods : List Pod)
  | endpoints (endpoints : List Endpoint)
  | touchService
  | touchDeployment (slot : Slot)

def World.touchService (w : World) : World :=
  { w with service := ⟨w.service.selector, w.service.resourceVersion + 1⟩ }

def World.touchDeployment (slot : Slot) (w : World) : World :=
  { w with
    deployments := Function.update w.deployments slot ((w.deployments slot).map fun d =>
      ⟨d.replicas, d.container, d.resourceVersion + 1⟩) }

/-- A step of the database that no runner takes. -/
def fromInstances : Release.Event → Bool
  | .call _ c _ => instanceCall c
  | .closes _ | .coordination _ | .draws => true

/-- The instance that a step of the database registers. -/
def joinedBy : Release.Event → List String
  | .call _ (.registerInstance _ instanceId _ _ _ _) (.ok _) => [instanceId]
  | _ => []

inductive Surroundings.Step (w : World) : Surroundings → World → Prop
  | database {e : Release.Event} {db : Db} (he : fromInstances e = true)
      (hstep : Release.Step w.db e db) :
      Step w (.database e) { w with db := db, joined := joinedBy e ++ w.joined }
  | pods (slot : Slot) (pods : List Pod) :
      Step w (.pods slot pods) { w with pods := Function.update w.pods slot pods }
  | endpoints (endpoints : List Endpoint) :
      Step w (.endpoints endpoints) { w with endpoints := endpoints }
  | touchService : Step w .touchService w.touchService
  | touchDeployment (slot : Slot) : Step w (.touchDeployment slot) (w.touchDeployment slot)

structure System where
  world : World
  runner : Option (Runner Phase)

/-- The events of a delivery: a runner is invoked, takes an action, ends or is cut, or something
happens around it. -/
inductive Event
  | invoke (invocation : Invocation) (identity : ReleaseIdentity) (epoch : Nat)
  | act (q : Action)
  | leave
  | outside (e : Surroundings)

namespace System

inductive Step (config : Config) (s : System) : Event → System → Prop
  | invoke {invocation : Invocation} {identity : ReleaseIdentity} {epoch : Nat}
      (hidle : s.runner = none) :
      Step config s (.invoke invocation identity epoch)
        ⟨s.world, some (invocation.runner config identity epoch)⟩
  | act {q : Action} {next : Except Failure q.Value → Runner Phase} {a : Except Failure q.Value}
      {w : World} (hrunner : s.runner = some (.act q next)) (hperforms : Performs config q s.world a w) :
      Step config s (.act q) ⟨w, some (next a)⟩
  | leave : Step config s .leave ⟨{ s.world with closedSeen := none }, none⟩
  | outside {e : Surroundings} {w : World} (he : e.Step s.world w) :
      Step config s (.outside e) ⟨w, s.runner⟩

end System

end LightRAG.Delivery

/-!
## Executing deliveries

Moves that say what happens next; the runner carries out the action that it is at.
-/

namespace LightRAG.Delivery
open Release

inductive Move
  | invoke (invocation : Invocation) (identity : ReleaseIdentity) (epoch : Nat)
  | act (now rounds : Nat)
  | leave
  | call (now : Nat) (c : Call)
  | pods (slot : Slot) (pods : List Pod)
  | endpoints (endpoints : List Endpoint)

namespace System

variable (config : Config)

def move (s : System) : Move → Option (Event × System)
  | .invoke invocation identity epoch =>
    match s.runner with
    | none => some (.invoke invocation identity epoch,
        ⟨s.world, some (invocation.runner config identity epoch)⟩)
    | some _ => none
  | .act now rounds =>
    match s.runner with
    | some (.act q next) =>
      let r := s.world.effect config now rounds q
      some (.act q, ⟨r.2, some (next r.1)⟩)
    | _ => none
  | .leave => some (.leave, ⟨{ s.world with closedSeen := none }, none⟩)
  | .call now c =>
    let e : Release.Event := .call now c (s.world.db.perform now c).1
    if instanceCall c then
      some (.outside (.database e),
        ⟨{ s.world with db := (s.world.db.perform now c).2, joined := joinedBy e ++ s.world.joined },
          s.runner⟩)
    else none
  | .pods slot pods => some (.outside (.pods slot pods),
      ⟨{ s.world with pods := Function.update s.world.pods slot pods }, s.runner⟩)
  | .endpoints endpoints => some (.outside (.endpoints endpoints),
      ⟨{ s.world with endpoints := endpoints }, s.runner⟩)

def moves (s : System) : List Move → Option (List Event × System)
  | [] => some ([], s)
  | m :: ms =>
    match s.move config m with
    | none => none
    | some (e, s') => (moves s' ms).map fun r => (e :: r.1, r.2)

def scaling (s : System) : Option (Slot × Nat) :=
  match s.runner with
  | some (.act (.patch (.scale slot version)) _) => some (slot, version)
  | _ => none

variable {config} {s s' : System}

theorem runner_of_scaling {slot : Slot} {version : Nat} (h : s.scaling = some (slot, version)) :
    ∃ next, s.runner = some (.act (.patch (.scale slot version)) next) := by
  unfold scaling at h
  split at h
  · rename_i next hrunner
    cases h
    exact ⟨next,hrunner⟩
  · cases h

theorem step_move {m : Move} {e : Event} (h : s.move config m = some (e, s')) :
    Step config s e s' := by
  cases m with
  | invoke invocation identity epoch =>
    simp only [move] at h
    split at h
    · rename_i hidle
      cases h
      exact .invoke hidle
    · cases h
  | act now rounds =>
    simp only [move] at h
    split at h
    · rename_i hrunner
      cases h
      exact .act hrunner (.done now rounds)
    · cases h
  | leave =>
    cases h
    exact .leave
  | call now c =>
    simp only [move] at h
    split at h
    · rename_i hcall
      cases h
      exact .outside (.database hcall (.call now c))
    · cases h
  | pods slot pods =>
    cases h
    exact .outside (.pods slot pods)
  | endpoints endpoints =>
    cases h
    exact .outside (.endpoints endpoints)

theorem run_moves {ms : List Move} {events : List Event}
    (h : s.moves config ms = some (events, s')) : Run (Step config) s events s' := by
  induction ms generalizing s events with
  | nil =>
    cases h
    exact .nil _
  | cons m ms ih =>
    simp only [moves] at h
    split at h
    · cases h
    · rename_i e t hmove
      simp only [Option.map_eq_some_iff] at h
      obtain ⟨⟨events',t'⟩,hrest,heq⟩ := h
      cases heq
      exact .cons (step_move hmove) (ih hrest)

theorem run_to_scaling {β : Type} {ms : List Move} (f : World → β) {slot : Slot} {version : Nat}
    {b : β} (h : (s.moves config ms).map (fun r => (r.2.scaling, f r.2.world)) =
      some (some (slot, version), b)) :
    ∃ events s' next, Run (Step config) s events s' ∧
      s'.runner = some (.act (.patch (.scale slot version)) next) ∧ f s'.world = b := by
  rw [Option.map_eq_some_iff] at h
  obtain ⟨⟨events,s'⟩,hmoves,heq⟩ := h
  simp only [Prod.mk.injEq] at heq
  obtain ⟨next,hrunner⟩ := runner_of_scaling heq.1
  exact ⟨events,s',next,run_moves hmoves,hrunner,heq.2⟩

end System
end LightRAG.Delivery
