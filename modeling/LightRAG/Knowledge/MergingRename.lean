import LightRAG.Framework.Calls
import LightRAG.Knowledge.GraphEdits

/-!
# A rename onto an existing name

`aedit_entity` with `allow_merge` where the new name is taken: the awaits of `_merge_entities_impl`
in their order, what may come of each of them, and what the handler tells the caller.
-/

namespace LightRAG.Knowledge.MergingRename

/-- What is raised at an await: any other exception, a `CommitBookkeepingError`, a
`CoordinationError` or a `CancelledError`. -/
inductive Failure
  | error
  | bookkeeping
  | coordination
  | cancelled
deriving DecidableEq

/-- What an await comes to: it returns, `index_done_callback` of the graph returns `False`, or it
raises, where `took` says whether the call has had its effect all the same. -/
inductive Answer
  | returns
  | declines
  | raises (e : Failure) (took : Bool)
deriving DecidableEq

inductive Call
  | hasNode (e : Name)
  | getNode (e : Name)
  | getNodeEdges (e : Name)
  | getEdge (p : Pair)
  | getRow (o : Object)
  /-- `raise ValueError` in place of a call. -/
  | refuse
  | write (ws : List KgWrite)
  | deleteRelationVectors (ps : List Pair)
  | upsertRelationVector (p : Pair)
  | upsertEntityVector (e : Name)
  | deleteEntityVector (e : Name)
  | flushRelationVectors
  | flushEntityVectors
  | recordTrackingRecovery (os : List Object)
  | persistVectors
deriving DecidableEq

def Call.writes : Call → List KgWrite
  | .write ws => ws
  | _ => []

inductive Phase
  | reading
  | target
  | relations
  | commit
  | finishing
deriving DecidableEq

structure Await where
  call : Call
  phase : Phase
  /-- An exception leaves as a `VectorStorageConsistencyError`. -/
  typed : Bool
  /-- A `CommitBookkeepingError` is logged. -/
  settles : Bool
  /-- Within the region of `_finish_deferring_cancellation`. -/
  shielded : Bool
deriving DecidableEq

def bare (phase : Phase) (call : Call) : Await := ⟨call, phase, false, false, false⟩

def guarded (phase : Phase) (call : Call) : Await := ⟨call, phase, true, false, false⟩

def persistTracking (phase : Phase) (shielded : Bool) : Await :=
  ⟨.write [.persistTracking true true], phase, true, true, shielded⟩

inductive Exc
  | consistency
  | failure (e : Failure)
deriving DecidableEq

namespace Await

variable (a : Await)

def commits : Bool := a.call = .write [.commitGraph]

/-- What goes wrong at an await with this answer, and whether its call has had its effect. -/
def strikes : Answer → Option (Failure × Bool)
  | .returns => if a.call = .refuse then some (.error, false) else none
  | .declines => if a.call = .refuse ∨ a.commits then some (.error, false) else none
  | .raises e took => if e = .bookkeeping ∧ a.settles then none else some (e, took)

/-- `except Exception as e: raise VectorStorageConsistencyError(...) from e`, where there is one. -/
def raised (e : Failure) : Exc := if a.typed ∧ e ≠ .cancelled then .consistency else .failure e

end Await

def onGraph : KgWrite → Bool
  | .upsertNode _ _ => true
  | .upsertEdge _ _ => true
  | .deleteNode _ => true
  | .removeEdge _ => true
  | _ => false

structure Merging where
  stores : Stores
  pending : List KgWrite
  landed : List KgWrite
  cancelled : Bool

/-- Where a merge runs: whether the graph storage writes through, the tracking storages, and
whether there is a distributed runtime. -/
structure Host where
  immediate : Bool
  backend : Backend
  distributed : Bool
deriving DecidableEq

namespace Merging

variable (h : Host) (m : Merging)

def durable : Graph := if h.immediate then m.stores.mem.graph else m.stores.disk.graph

def write (w : KgWrite) : Merging where
  stores := w.write h.backend m.stores
  pending :=
    if w = .commitGraph then [] else
    if onGraph w ∧ ¬ h.immediate then m.pending ++ [w] else m.pending
  landed :=
    if w = .commitGraph then m.landed ++ m.pending else
    if onGraph w ∧ h.immediate then m.landed ++ [w] else m.landed
  cancelled := m.cancelled

def writes (ws : List KgWrite) : Merging := ws.foldl (fun m w => m.write h w) m

def decline : Merging :=
  if h.immediate then m else { m with stores := m.stores.reloadGraph, pending := [] }

/-- Whether a cancellation at the await waits for the end of the region. -/
def deferred (a : Await) : Answer → Bool
  | .raises e _ => e = .cancelled ∧ a.shielded
  | _ => false

def perform (a : Await) (answer : Answer) : Merging :=
  if m.cancelled ∧ ¬ a.shielded then m
  else
    let m := if deferred a answer then { m with cancelled := true } else m
    match a.strikes answer with
    | none => m.writes h a.call.writes
    | some (_, took) =>
      if answer = .declines ∧ a.commits then m.decline h
      else if took ∨ deferred a answer then m.writes h a.call.writes else m

def stops (a : Await) (answer : Answer) : Option Exc :=
  if m.cancelled ∧ ¬ a.shielded then some (.failure .cancelled)
  else
    match a.strikes answer with
    | none => none
    | some (e, _) =>
      if deferred a answer then none
      else if m.cancelled then some (.failure .cancelled) else some (a.raised e)

end Merging

def calls (h : Host) : Calls Merging Await Answer Exc where
  stops a answer m := m.stops a answer
  perform a answer m := m.perform h a answer

/-- What the handler of `allow_merge` starts from. -/
structure Request where
  host : Host
  source : Name
  target : Name
  isRenaming : source ≠ target
  stores : Stores
  targetExists : stores.mem.graph.hasNode target = true
  updates : Option (Option Exc)
  answers : ℕ → Answer
  /-- What `get_entity_info` of the handler comes to. -/
  readBack : Answer

namespace Request

variable (r : Request)

def merge : EntityMerge := ⟨[r.source], r.target, joinUnique, none⟩

def store : Store := r.stores.mem

def edges : List (Pair × Option (List ChunkId)) :=
  (r.merge.relationUpdates r.store).entries.map Prod.snd

/-- `relation_chunk_tracking`. -/
def trackedRelations : List (Object × List ChunkId) :=
  (r.merge.relationChunkTracking r.store).entries.map fun x => (.relation x.1, x.2)

/-- `stale_relation_keys`. -/
def staleRelations : List Object :=
  ((r.merge.allRelations r.store).dedup.filter fun p =>
    p ∉ (r.merge.relationChunkTracking r.store).keys).map .relation

def together (await : Call → Await) (ws : List KgWrite) : List Await :=
  if ws = [] then [] else [await (.write ws)]

/-- Steps 1 to 4. -/
def reading : List Await :=
  [.hasNode r.source, .getNode r.source, .hasNode r.target, .getNode r.target].map (bare .reading) ++
    [r.source, r.target].flatMap fun e =>
      bare .reading (.getNodeEdges e) ::
        (r.store.graph.nodeEdges e).map fun p => bare .reading (.getEdge p)

def writingTarget : Await :=
  bare .target (.write [.upsertNode r.target (r.merge.mergedSourceId r.store)])

/-- Steps 6 to 9b. -/
def writingRelations : List Await :=
  (r.merge.keptRelations r.store).map (fun p => bare .relations (.getRow (.relation p))) ++
  r.edges.map (fun e => bare .relations (.write [.upsertEdge e.1 e.2])) ++
  together (bare .relations) (r.trackedRelations.map fun x => .upsertRow x.1 x.2) ++
  (if r.merge.allRelations r.store = [] then [] else
    [guarded .relations (.deleteRelationVectors (r.merge.allRelations r.store))]) ++
  r.edges.map (fun e => guarded .relations (.upsertRelationVector e.1)) ++
  [guarded .relations (.upsertEntityVector r.target)] ++
  (r.merge.entitiesToProcess r.store).map (fun e => bare .relations (.getRow (.entity e))) ++
  together (bare .relations) (if r.merge.anyRowPresent r.store then
    [.upsertRow (.entity r.target) (r.merge.mergedChunkIds r.store)] else []) ++
  [persistTracking .relations false]

/-- `_commit_graph_or_raise` of step 10. -/
def committing : Await := ⟨.write [.commitGraph], .commit, false, true, false⟩

/-- `_commit_source_removal_and_retire_tracking`. -/
def region : List Await :=
  let shielded : Bool := ¬ r.host.distributed
  let retire (call : Call) : Await := ⟨call, .finishing, true, false, shielded⟩
  ⟨.write [.deleteNode r.source], .finishing, false, false, shielded⟩ ::
  ⟨.write [.commitGraph], .finishing, true, true, shielded⟩ ::
  together retire (r.staleRelations.map .deleteRow) ++
  [retire (.write [.deleteRow (.entity r.source)]), persistTracking .finishing shielded]

/-- The vector storages of step 10, and step 11. -/
def flushing : List Await :=
  [guarded .finishing .flushRelationVectors, guarded .finishing .flushEntityVectors,
    guarded .finishing (.deleteEntityVector r.source)] ++
  if r.host.distributed then
    [bare .finishing (.recordTrackingRecovery (.entity r.source :: r.staleRelations))] else []

def saving : Await := ⟨.persistVectors, .finishing, true, true, false⟩

/-- `get_entity_info` at the end of the merge. -/
def readingBack : Await := bare .finishing (.getNode r.target)

def finishing : List Await := r.flushing ++ r.region ++ [saving, r.readingBack]

/-- The awaits of `_merge_entities_impl`. -/
def mergeEntitiesImpl : List Await :=
  if r.store.graph.hasNode r.source then
    r.reading ++ ([r.writingTarget] ++ (r.writingRelations ++ ([committing] ++ r.finishing)))
  else [bare .reading (.hasNode r.source), bare .reading .refuse]

def start : Merging := ⟨r.stores, [], [], false⟩

def mergeEnds : Option Exc × Merging :=
  (calls r.host).run r.mergeEntitiesImpl r.answers r.start

end Request

structure OperationSummary where
  merged : Bool
  mergeStatus : String
  mergeError : Option Failure
  operationStatus : String
  targetEntity : Option Name
  finalEntity : Name
  renamed : Bool
deriving DecidableEq

namespace Request

variable (r : Request)

def mergedSummary : OperationSummary :=
  ⟨true, "success", none, "success", some r.target, r.target, true⟩

def failedSummary (e : Failure) : OperationSummary where
  merged := false
  mergeStatus := "failed"
  mergeError := some e
  operationStatus := if r.updates = some none then "partial_success" else "failure"
  targetEntity := some r.target
  finalEntity := r.source
  renamed := true

def handle : Option Exc → Except Exc OperationSummary
  | none => .ok r.mergedSummary
  | some .consistency => .error .consistency
  | some (.failure .coordination) => .error (.failure .coordination)
  | some (.failure .cancelled) => .error (.failure .cancelled)
  | some (.failure e) =>
    match r.readBack with
    | .raises e' _ => .error (.failure e')
    | _ => .ok (r.failedSummary e)

/-- `aedit_entity` from where the target is found to exist: what the caller is told, and what is
left behind. -/
def aeditEntity : Except Exc OperationSummary × Merging :=
  match r.updates with
  | some (some e) => (.error e, r.start)
  | _ => (r.handle r.mergeEnds.1, r.mergeEnds.2)

end Request

namespace Request

variable (r : Request)

/-- The caller is told of what has become durable, and is told that the merge failed only where
nothing of it has. -/
structure Honest : Prop where
  survives : ∀ summary, r.aeditEntity.1 = .ok summary →
    summary.operationStatus ∈ ["partial_success", "failure"] → summary.finalEntity = r.source →
      (r.aeditEntity.2.durable r.host).hasNode r.source = true ∧
      ∀ p, r.target ∈ p →
        (r.aeditEntity.2.durable r.host).getEdge p = (r.start.durable r.host).getEdge p
  learns : r.aeditEntity.2.landed ≠ [] →
    (∃ summary, r.aeditEntity.1 = .ok summary ∧ summary.merged = true) ∨
      r.aeditEntity.1 = .error .consistency

end Request

/-- Whether writes of the merge are durable when a call of this phase fails. -/
def Phase.published (immediate took : Bool) : Phase → Bool
  | .reading => false
  | .target => immediate && took
  | .relations => immediate
  | .commit => immediate || took
  | .finishing => true

def firstStrike : List Await → (ℕ → Answer) → Option (Await × Failure × Bool)
  | [], _ => none
  | a :: as, f =>
    match a.strikes (f 0) with
    | some x => some (a, x)
    | none => firstStrike as fun i => f (i + 1)

/-- A failure that the handler turns into a summary. -/
def Failure.folded : Failure → Bool
  | .error => true
  | .bookkeeping => true
  | .coordination => false
  | .cancelled => false

namespace Request

variable (r : Request)

/-- The first failure is typed and no cancellation, or it comes before any write of the merge is
durable; and the source is durable where the answer is a summary that names it. -/
def Spared : Prop :=
  (∃ e, r.updates = some (some e)) ∨
    ∀ a e took, firstStrike r.mergeEntitiesImpl r.answers = some (a, e, took) →
      a.raised e = .consistency ∨
        a.phase.published r.host.immediate took = false ∧
          (e.folded = true → (∀ e' took', r.readBack ≠ .raises e' took') →
            (r.start.durable r.host).hasNode r.source = true)

end Request

end LightRAG.Knowledge.MergingRename
