import LightRAG.Distributed.Release.Runs
import LightRAG.Framework.Procedure

/-!
# The cluster of one scope

The stable Service, the Deployments and the Pods of the two slots, and the reads and patches that a
delivery makes of them.
-/

namespace LightRAG.Delivery
open Release

inductive Json
  | leaf (text : String)
  | list (items : List Json)
  | dict (members : List (String × Json))

mutual

/-- `managed_equal`: `a` has everything that `b` asks for. -/
def managedEqual : Json → Json → Bool
  | a, .leaf t =>
    match a with
    | .leaf s => s = t
    | _ => false
  | a, .list bs =>
    match a with
    | .list as => itemsEqual as bs
    | _ => false
  | a, .dict bs =>
    match a with
    | .dict as => membersEqual as bs
    | _ => false

def itemsEqual : List Json → List Json → Bool
  | [], [] => true
  | a :: as, b :: bs => managedEqual a b && itemsEqual as bs
  | _, _ => false

def membersEqual (as : List (String × Json)) : List (String × Json) → Bool
  | [] => true
  | (key, b) :: bs => (as.any fun a => a.1 = key && managedEqual a.2 b) && membersEqual as bs

end

/-- `==` of two manifests; the order of the members of a dict does not matter. -/
def Json.equal (a b : Json) : Bool := managedEqual a b && managedEqual b a

/-- What a delivery reads of its configuration; `container` is the container of the Deployment
that `render_slot` returns. -/
structure Config where
  replicas : Nat
  profileHash : String
  container : ReleaseIdentity → Slot → Json

/-- The selector of the Service: `labels(config)` or `labels(config, slot)`. -/
inductive Selector
  | common
  | slot (s : Slot)
deriving DecidableEq

def Selector.selects : Selector → Slot → Bool
  | .common, _ => true
  | .slot s, t => s = t

structure Service where
  selector : Selector
  resourceVersion : Nat
deriving DecidableEq

structure Deployment where
  replicas : Nat
  container : Json
  resourceVersion : Nat

/-- The body of `/release/status`. -/
structure PodStatus where
  instanceId : String
  slot : Slot
  protocolVersion : Nat
  profileHash : String
  shutdownReady : Bool
  ready : Bool
  configHash : String
  commandFormatsHash : String
  authorizationVersion : String
deriving DecidableEq

/-- A Pod that is not being deleted. `digest` is the digest its single container pins of the
release image, and `status` what its status endpoint answers. -/
structure Pod where
  uid : String
  ip : String
  digest : Option String
  containerReady : Bool
  runningDigest : Option String
  status : Option PodStatus
deriving DecidableEq

structure Endpoint where
  uid : Option String
  ready : Bool
  addresses : List String
deriving DecidableEq

/-- `(command_formats_hash, authorization_version)` of a Pod. -/
def Pod.compatibility (pod : Pod) : Option (String × String) :=
  pod.status.map fun s => (s.commandFormatsHash, s.authorizationVersion)

/-- What `verified_pods` raises for one Pod. -/
def Pod.verify (config : Config) (slot : Slot) (configHash digest : Option String) (pod : Pod) :
    Except Failure Unit :=
  match pod.digest with
  | none => .error (.conflict "Pod image is not the pinned candidate")
  | some pinned =>
    if digest.any fun d => d ≠ pinned then
      .error (.conflict "Pod image is not the pinned candidate")
    else if !pod.containerReady then
      .error (.unavailable "Container runtime readiness is not confirmed")
    else if pod.runningDigest ≠ some pinned then
      .error (.conflict "Running container image does not match its pinned specification")
    else
      match pod.status with
      | none => .error (.unavailable "Direct Pod release status is unavailable")
      | some s =>
        if s.instanceId ≠ pod.uid || s.slot ≠ slot || s.protocolVersion ≠ 1 ||
            s.profileHash ≠ config.profileHash || !s.shutdownReady || !s.ready ||
            (configHash.any fun c => s.configHash ≠ c) then
          .error (.unavailable "Pod protocol, readiness or profile differs")
        else .ok ()

def verifyEach (config : Config) (slot : Slot) (configHash digest : Option String) :
    List Pod → Except Failure Unit
  | [] => .ok ()
  | pod :: pods =>
    match pod.verify config slot configHash digest with
    | .error f => .error f
    | .ok () => verifyEach config slot configHash digest pods

def verifiedPods (config : Config) (slot : Slot) (configHash digest : Option String)
    (pods : List Pod) : Except Failure (List Pod) :=
  if pods.length ≠ config.replicas then .error (.unavailable "A full slot is not available")
  else
    match verifyEach config slot configHash digest pods with
    | .error f => .error f
    | .ok () =>
      if (pods.map Pod.compatibility).dedup.length ≠ 1 then
        .error (.conflict "Slot command or authentication versions differ")
      else .ok pods

/-- The checks of `_observe` on the EndpointSlices. -/
def verifyEndpoints (pods : List Pod) (endpoints : List Endpoint) : Except Failure Unit :=
  let expected := pods.map fun pod => some pod.uid
  if endpoints.any fun point => !point.ready || point.uid ∉ expected then
    .error (.unavailable "Endpoint propagation is incomplete")
  else
    -- the addresses of a Pod that several endpoints name are those of the last one
    let addresses := fun pod : Pod => ((endpoints.filter fun point =>
      point.uid = some pod.uid).getLast?).map Endpoint.addresses
    if pods.any fun pod => (addresses pod).all fun found =>
        found.any (· ≠ pod.ip) || found.isEmpty then
      .error (.unavailable "Endpoint Pod identity differs")
    else .ok ()

/-- The JSON patches of a delivery; each tests the resource version it was made from. -/
inductive Patch
  | selector (version : Nat) (old target : Selector)
  | spec (slot : Slot) (version : Nat) (container : Json)
  | scale (slot : Slot) (version : Nat)

end LightRAG.Delivery

/-!
## The actions of a delivery runner

A runner takes store transactions, Kubernetes requests and observations, one at a time.
-/

namespace LightRAG.Delivery
open Release

/-- The database, the cluster, and what the runner has seen: the slots that were observed fully
up and whose Deployment was not written since, the slots of the last route observation since
the selector changed, and the slot whose instances this runner has found closed, with the
instances that have registered since then. -/
structure World where
  db : Db
  service : Service
  deployments : Slot → Option Deployment
  pods : Slot → List Pod
  endpoints : List Endpoint
  late : List Patch
  observedUp : Slot → Bool
  route : List Slot
  closedSeen : Option Slot
  joined : List String

inductive Action
  | store (c : Call)
  | snapshot (scope : String)
  | preflight (scope : String)
  | recordEvidence (identity : ReleaseIdentity)
  | previous (releaseId : String)
  | unfinished (slot : Slot)
  | verifiedPods (slot : Slot) (configHash digest : Option String)
  | observeRoute (slots : List Slot) (pods : List Pod)
  | entry (slot : Slot)
  | getService
  | getDeployment (slot : Slot)
  | createDeployment (slot : Slot) (container : Json)
  | patch (p : Patch)
  | rounds

/-- The values of the answers; `rounds` answers with how often a loop tries before its time is
up. -/
abbrev Action.Value : Action → Type
  | .store _ => Reply
  | .snapshot _ => ScopeRow
  | .preflight _ => ScopeRow
  | .recordEvidence _ => Unit
  | .previous _ => Option Previous
  | .unfinished _ => Nat
  | .verifiedPods _ _ _ => List Pod
  | .observeRoute _ _ => Unit
  | .entry _ => Unit
  | .getService => Service
  | .getDeployment _ => Option Deployment
  | .createDeployment _ _ => Unit
  | .patch _ => Unit
  | .rounds => Nat

abbrev Runner (α : Type) : Type := Trial Action Action.Value Failure α

def ask (q : Action) : Runner q.Value := Trial.call q

namespace World

def fullyScaled (config : Config) (w : World) (slot : Slot) : Bool :=
  (w.deployments slot).any fun d => d.replicas = config.replicas

def putDeployment (slot : Slot) (d : Deployment) (w : World) : World :=
  { w with
    deployments := Function.update w.deployments slot (some d)
    observedUp := Function.update w.observedUp slot false }

def applied (config : Config) (w : World) : Patch → Option World
  | .selector version old target =>
    if w.service.resourceVersion = version ∧ w.service.selector = old then
      some { w with service := ⟨target, version + 1⟩, route := [] }
    else none
  | .spec slot version container =>
    match w.deployments slot with
    | none => none
    | some d =>
      if d.resourceVersion = version then
        some (w.putDeployment slot ⟨config.replicas, container, version + 1⟩)
      else none
  | .scale slot version =>
    match w.deployments slot with
    | none => none
    | some d =>
      if d.resourceVersion = version then
        some (w.putDeployment slot ⟨0, d.container, version + 1⟩)
      else none

def effect (config : Config) (now rounds : Nat) (w : World) :
    (q : Action) → Except Failure q.Value × World
  | .store c => ((w.db.perform now c).1, { w with db := (w.db.perform now c).2 })
  | .snapshot scope | .preflight scope =>
    (if w.db.scope.scope = scope then .ok w.db.scope
      else .error (.unavailable "Production scope is not enrolled"), w)
  | .recordEvidence identity =>
    (if w.db.scope.identity = some identity then .ok ()
      else .error (.conflict "Evidence identity mismatch"), w)
  | .previous releaseId => (.ok ((w.db.release releaseId).map ReleaseRow.previous), w)
  | .unfinished slot =>
    let n := w.db.instances.countP fun i => i.slot = slot ∧ !i.closed
    (.ok n, { w with closedSeen := if n = 0 then some slot else none, joined := [] })
  | .verifiedPods slot configHash digest =>
    if !w.fullyScaled config slot then (.error (.unavailable "A full slot is not available"), w)
    else
      match verifiedPods config slot configHash digest (w.pods slot) with
      | .error f => (.error f, w)
      | .ok pods => (.ok pods, { w with observedUp := Function.update w.observedUp slot true })
  | .observeRoute slots pods =>
    match verifyEndpoints pods w.endpoints with
    | .error f => (.error f, w)
    | .ok () => (.ok (), { w with route := slots })
  | .entry _ => (.ok (), w)
  | .getService => (.ok w.service, w)
  | .getDeployment slot => (.ok (w.deployments slot), w)
  | .createDeployment slot container =>
    if (w.deployments slot).isSome then (.error .exception, w)
    else (.ok (), w.putDeployment slot ⟨config.replicas, container, 1⟩)
  | .patch p =>
    match w.applied config p with
    | none => (.error .exception, w)
    | some w' => (.ok (), w')
  | .rounds => (.ok rounds, w)

/-- A patch that failed without an effect may still be on its way. -/
def lost (w : World) : Action → World
  | .patch p => { w with late := p :: w.late }
  | _ => w

end World

/-- A call that fails can raise anything but an expired budget, which only the store raises. -/
def Failure.Lost (f : Failure) : Prop := ∀ message, f ≠ .budgetExceeded message

def Action.writes : Action → Bool
  | .store _ | .createDeployment _ _ | .patch _ => true
  | _ => false

/-- How an action can go: it is carried out, or it fails without an effect or, when it writes,
with it. -/
inductive Performs (config : Config) (q : Action) (w : World) : Except Failure q.Value → World → Prop
  | done (now rounds : Nat) :
      Performs config q w (w.effect config now rounds q).1 (w.effect config now rounds q).2
  | failed {f : Failure} (hf : Failure.Lost f) : Performs config q w (.error f) (w.lost q)
  | effected {f : Failure} (hf : Failure.Lost f) (hwrites : q.writes = true) (now rounds : Nat) :
      Performs config q w (.error f) (w.effect config now rounds q).2

end LightRAG.Delivery

/-!
## The production transport

The procedures of `ProductionTransport` that read and write the cluster.
-/

namespace LightRAG.Delivery
open Release Trial

def storeRow (c : Call) : Runner ScopeRow := do
  let reply ← ask (.store c)
  match reply with
  | .scope row => return row
  | _ => raise .exception

def namedSlot : Option Slot → Runner Slot
  | some slot => return slot
  | none => raise .exception

def uids (pods : List Pod) : List String := pods.map Pod.uid

/-- `{(command_formats_hash, authorization_version)}` of two slots are the same. -/
def compatible (a b : List Pod) : Bool :=
  (a.all fun p => (b.map Pod.compatibility).contains p.compatibility) &&
    b.all fun p => (a.map Pod.compatibility).contains p.compatibility

/-- `try … except ReleaseUnavailable` until the time is up. -/
def retrying {α : Type} (x : Runner α) : Nat → Runner α
  | 0 => x
  | n + 1 => x.handle fun f =>
    match f with
    | .unavailable _ => retrying x n
    | f => raise f

namespace Transport

variable (config : Config) (identity : ReleaseIdentity)
variable (slot : Slot)

/-- `expected_slot`: the configuration and the digest that a slot runs. -/
def expectedSlot : Runner (String × String) := do
  let raw ← ask (.previous identity.releaseId)
  match raw with
  | none => raise (.conflict "Durable release baseline is missing")
  | some previous =>
    if slot ≠ previous.activeSlot then
      return (identity.configHash, identity.digest)
    else
      match previous.digest with
      | none => raise (.conflict "Old artifact was not captured before preparation")
      | some digest => return (previous.configHash, digest)

/-- `verified_pods(slot, **await expected_slot(identity, slot))`. -/
def expectedPods : Runner (List Pod) := do
  let expected ← expectedSlot identity slot
  ask (.verifiedPods slot (some expected.1) (some expected.2))

def verifyCandidate : Runner (List String) := do
  let current ← ask (.snapshot identity.scope)
  let candidates ← ask (.verifiedPods slot (some identity.configHash) (some identity.digest))
  if current.activeSlot ≠ slot then
    let old ← expectedPods identity current.activeSlot
    if !compatible old candidates then
      raise (.conflict "Cross-slot command/auth compatibility is unproven")
    else return uids candidates
  else return uids candidates

def gatherPods : List Slot → Runner (List Pod)
  | [] => return []
  | slot :: slots => do
    let pods ← expectedPods identity slot
    let rest ← gatherPods slots
    return pods ++ rest

def observe (slots : List Slot) : Runner Unit := do
  let pods ← gatherPods identity slots
  ask (.observeRoute slots pods)

def waitObserve (slots : List Slot) : Runner Unit := do
  let rounds ← ask .rounds
  retrying (observe identity slots) rounds

def selectBoth (svc : Service) : Runner Unit :=
  if svc.selector = .common then return ()
  else ask (.patch (.selector svc.resourceVersion svc.selector .common))

def switchReadRoute (target : Slot) : Runner Unit := do
  let svc ← ask .getService
  if svc.selector = .slot target then
    waitObserve identity [target]
  else
    selectBoth svc
    -- make-before-break: the old backends remain until both slots are seen behind the Service
    waitObserve identity [.blue, .green]
    let svc ← ask .getService
    ask (.patch (.selector svc.resourceVersion .common (.slot target)))
    waitObserve identity [target]

def verifyRoute (target : Slot) : Runner Unit := do
  let svc ← ask .getService
  if svc.selector ≠ .slot target then
    raise (.conflict "Read route selector changed")
  else
    waitObserve identity [target]
    ask (.entry target)

def baselineDigest (baseline : List Pod) : Runner String :=
  match (baseline.map Pod.digest).dedup with
  | [some digest] => return digest
  | _ => raise (.conflict "Baseline artifact is not uniform")

/-- The Deployment of the inactive slot is created, or patched where it differs. -/
def putSlot : Runner Unit := do
  let desired := config.container identity slot
  let existing ← ask (.getDeployment slot)
  match existing with
  | none => ask (.createDeployment slot desired)
  | some d =>
    if d.replicas ≠ 0 && !managedEqual d.container desired then
      raise (.conflict "Inactive slot still has a different live deployment")
    else if !d.container.equal desired || d.replicas ≠ config.replicas then
      ask (.patch (.spec slot d.resourceVersion desired))
    else return ()

def prepare : Runner Unit := do
  let row ← ask (.preflight identity.scope)
  if row.activeSlot = slot || row.phase ≠ .prepared then
    raise (.conflict "Only the inactive slot may be prepared")
  else
    let baseline ← ask (.verifiedPods row.activeSlot (some row.configHash) none)
    let digest ← baselineDigest baseline
    let _ ← ask (.store (.captureBaseline identity row.epoch digest))
    putSlot config identity slot
    let rounds ← ask .rounds
    let _ ← retrying (verifyCandidate identity slot) rounds
    return ()

/-- The loop of `wait_closed_and_scale` over the open instances. -/
def waitClosed (oldSlot : Slot) : Nat → Runner Unit
  | 0 => do
    let unfinished ← ask (.unfinished oldSlot)
    if unfinished = 0 then return ()
    else raise (.unavailable "Old instances have not closed; no scale or kill is allowed")
  | n + 1 => do
    let unfinished ← ask (.unfinished oldSlot)
    if unfinished = 0 then return () else waitClosed oldSlot n

def waitClosedAndScale (oldSlot : Slot) : Runner Unit := do
  let rounds ← ask .rounds
  waitClosed oldSlot rounds
  let deployment ← ask (.getDeployment oldSlot)
  match deployment with
  | none => raise (.conflict "Old deployment unexpectedly disappeared")
  | some d =>
    if d.replicas ≠ 0 then ask (.patch (.scale oldSlot d.resourceVersion)) else return ()

def verifyRollbackCandidate (target : Slot) : Runner (List String) := do
  let pods ← expectedPods identity target
  let current ← ask (.snapshot identity.scope)
  let active ← ask
    (.verifiedPods current.activeSlot (some identity.configHash) (some identity.digest))
  if !compatible pods active then
    raise (.conflict "Reverse command/auth compatibility differs")
  else return uids pods

end Transport
end LightRAG.Delivery
