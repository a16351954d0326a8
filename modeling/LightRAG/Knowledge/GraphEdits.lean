import LightRAG.Knowledge.Durability

/-!
# Administrative edits of the graph

The operations of `utils_graph` as the calls of the storages that they make, in their order, worked
out from what the stores hold when the operation starts.
-/

namespace LightRAG.Knowledge

/-- `set(a) == set(b)`. -/
def sameIds (a b : List ChunkId) : Bool := a ⊆ b ∧ b ⊆ a

/-- `relation_evidence_source_ids`, and the ids with which an entity is created. -/
def distinctEvidence (ids : List ChunkId) : List ChunkId := mergeSourceIds [] (evidenceOnly ids)

def computeIncrementalChunkIds (existingFull old new : List ChunkId) : List ChunkId :=
  (new.filter fun c => c ∉ old).foldl appendNew
    (existingFull.filter fun c => c ≠ "" ∧ ¬ (c ∈ old ∧ c ∉ new))

/-- The final row of an edit and the row that nothing is removed from. -/
def stagedRows (existingFull old new : List ChunkId) : List ChunkId × List ChunkId :=
  let final := computeIncrementalChunkIds existingFull old new
  (final, existingFull ++ final.filter fun c => c ∉ existingFull)

def entityChunkTrackingUpdate (stored : Option (List ChunkId))
    (oldSourceId newSourceId : List ChunkId) : Option (List ChunkId × List ChunkId) :=
  let old := truthy oldSourceId
  let new := truthy newSourceId
  match stored with
  | none => some (stagedRows old old new)
  | some row => if sameIds new old then none else some (stagedRows (truthy row) old new)

def acreateEntity (name : Name) (sourceId : List ChunkId) (s : Store) : List KgWrite :=
  if s.graph.hasNode name then []
  else [
    .upsertRow (.entity name) (distinctEvidence sourceId), .persistTracking true false,
    .upsertNode name sourceId, .commitGraph]

/-- A relation between different existing entities. -/
def acreateRelation (p : Pair) (sourceId : List ChunkId) (s : Store) : List KgWrite :=
  if p.inf = p.sup ∨ ¬ (s.graph.hasNode p.inf ∧ s.graph.hasNode p.sup) ∨
      (s.getEdge p).isSome then []
  else [
    .upsertRow (.relation p) (distinctEvidence sourceId), .persistTracking false true,
    .upsertEdge p (some sourceId), .commitGraph]

/-- The calls of an edit that stages the row of `o` around the write of the graph: the row that
nothing is removed from before it, the final one after it. -/
def stagedEdit (o : Object) (rows : Option (List ChunkId × List ChunkId)) (graphWrite : KgWrite) :
    List KgWrite :=
  let persist := .persistTracking (o.among true false) (o.among false true)
  match rows with
  | none => [graphWrite, .commitGraph]
  | some (final, superset) =>
    [.upsertRow o superset, persist, graphWrite, .commitGraph] ++
      if sameIds superset final then [] else [.upsertRow o final, persist]

/-- `_edit_entity_impl` without a new name. -/
def editEntity (name : Name) (sourceId : Option (List ChunkId)) (s : Store) : List KgWrite :=
  match s.getNode name with
  | none => []
  | some node =>
    let newSourceId := sourceId.getD node.sourceId
    stagedEdit (.entity name)
      (entityChunkTrackingUpdate (s.entityRow name) node.sourceId newSourceId)
      (.upsertNode name newSourceId)

/-- The rows that `aedit_relation` stages, if it touches the row at all. -/
def relationRows (stored : Option (List ChunkId)) (oldSourceId newSourceId : List ChunkId) :
    Option (List ChunkId × List ChunkId) :=
  let old := distinctEvidence oldSourceId
  let new := distinctEvidence newSourceId
  match stored with
  | none => some (stagedRows old old new)
  | some row =>
    if ¬ sameIds new old ∨ newSourceId ≠ oldSourceId ∨
        (∃ c ∈ truthy row, c ∈ relationNoEvidenceSourceIds) then
      some (stagedRows (evidenceOnly row) old new)
    else none

def aeditRelation (p : Pair) (sourceId : Option (List ChunkId)) (s : Store) : List KgWrite :=
  match s.getEdge p with
  | none => []
  | some edge =>
    let oldSourceId := edge.sourceId.getD []
    let newSourceId := sourceId.getD oldSourceId
    stagedEdit (.relation p) (relationRows (s.relationRow p) oldSourceId newSourceId)
      (.upsertEdge p (some newSourceId))

def adeleteByEntity (e : Name) (s : Store) : List KgWrite :=
  if s.graph.hasNode e then
    [.deleteNode e, .commitGraph] ++ (s.graph.nodeEdges e).map (fun p => .deleteRow (.relation p)) ++
      [.deleteRow (.entity e), .persistTracking true true]
  else (if (s.entityRow e).isSome then [.deleteRow (.entity e)] else []) ++
    [.persistTracking true true]

def adeleteByRelation (p : Pair) (s : Store) : List KgWrite :=
  if (s.getEdge p).isSome then
    [.removeEdge p, .commitGraph, .deleteRow (.relation p), .persistTracking false true]
  else (if (s.relationRow p).isSome then [.deleteRow (.relation p)] else []) ++
    [.persistTracking false true]

/-- What a rename or a merge writes: the nodes and edges that replace others, the rows that go with
them, the entities that disappear and the rows that are retired with these. -/
structure Redirection where
  nodes : List (Name × List ChunkId)
  edges : List (Pair × Option (List ChunkId))
  rows : List (Object × List ChunkId)
  removed : List Name
  retired : List Object

namespace Redirection

variable (r : Redirection)

def graphWrites : List KgWrite :=
  r.nodes.map (fun n => .upsertNode n.1 n.2) ++ r.edges.map fun e => .upsertEdge e.1 e.2

def rowWrites : List KgWrite := r.rows.map fun x => .upsertRow x.1 x.2

/-- From the rows on disk on. -/
def conclusion (commitFirst : Bool) : List KgWrite :=
  (if commitFirst then [.commitGraph] else []) ++ r.removed.map .deleteNode

def retirement : List KgWrite := r.retired.map .deleteRow ++ [.persistTracking true true]

def writes (commitFirst : Bool) : List KgWrite :=
  r.graphWrites ++ r.rowWrites ++ .persistTracking true true :: r.conclusion commitFirst ++
    .commitGraph :: r.retirement

end Redirection

def redirect (sources : List Name) (target : Name) (e : Name) : Name :=
  if e ∈ sources then target else e

/-- What the row of a relation carries over, or what the edge cites where there is no row. -/
def carriedIds (s : Store) (p : Pair) : List ChunkId :=
  match s.relationRow p with
  | some row => evidenceOnly row
  | none => distinctEvidence (((s.getEdge p).bind Edge.sourceId).getD [])

/-- The arguments of `_merge_entities_impl`; the strategy is that of the field `source_id`. -/
structure EntityMerge where
  sources : List Name
  target : Name
  strategy : List (List ChunkId) → List ChunkId
  /-- The `source_id` of `target_entity_data`. -/
  targetSourceId : Option (List ChunkId)

/-- The strategy `join_unique`. -/
def joinUnique (values : List (List ChunkId)) : List ChunkId := mergeSourceIds [] values.flatten

namespace EntityMerge

variable (m : EntityMerge) (s : Store)

def sourceIdOf (e : Name) : List ChunkId := ((s.getNode e).map Node.sourceId).getD []

/-- The `source_id` of the merged node. -/
def mergedSourceId : List ChunkId :=
  let inputs := m.sources ++ if s.graph.hasNode m.target then [m.target] else []
  let values := (inputs.map (sourceIdOf s)).filter fun ids => ids ≠ []
  m.targetSourceId.getD (if values = [] then [] else m.strategy values)

def entitiesToProcess : List Name :=
  m.sources.filter (fun e => e ≠ m.target) ++ if s.graph.hasNode m.target then [m.target] else []

def trackedIds (e : Name) : List ChunkId :=
  match s.entityRow e with
  | some row => truthy row
  | none => truthy (sourceIdOf s e)

def mergedChunkIds : List ChunkId :=
  mergeSourceIds [] ((m.entitiesToProcess s).map (trackedIds s)).flatten

def anyRowPresent : Bool := (m.entitiesToProcess s).any fun e => (s.entityRow e).isSome

def allRelations : List Pair :=
  (m.sources ++ if s.graph.hasNode m.target ∧ m.target ∉ m.sources then [m.target] else []).flatMap
    s.graph.nodeEdges

def redirected (p : Pair) : Pair := p.map (redirect m.sources m.target)

def keptRelations : List Pair :=
  (m.allRelations s).filter fun p => (m.redirected p).inf ≠ (m.redirected p).sup

def relationKey (p : Pair) : String := p.inf ++ "|" ++ p.sup

/-- `join_unique` of the values that are there. -/
def joinSourceIds (existing new : Option (List ChunkId)) : Option (List ChunkId) :=
  match existing, new with
  | some a, some b => some (joinUnique [a, b])
  | some a, none => some a
  | none, b => b

/-- `relation_updates`: the first relation of a key names the ends, the others add to its data. -/
def relationUpdates : Dict String (Pair × Option (List ChunkId)) :=
  (m.keptRelations s).foldl (fun d p =>
    let q := m.redirected p
    let sourceId := (s.getEdge p).bind Edge.sourceId
    match d.get (relationKey q) with
    | some (first, data) => d.set (relationKey q) (first, joinSourceIds data sourceId)
    | none => d.set (relationKey q) (q, sourceId)) Dict.empty

def relationChunkTracking : Dict Pair (List ChunkId) :=
  (m.keptRelations s).foldl (fun d p =>
    let q := m.redirected p
    d.set q (mergeSourceIds ((d.get q).getD []) (carriedIds s p))) Dict.empty

/-- The writes of a merge; `none` where a source is missing. -/
def redirection : Option Redirection :=
  if m.sources.all s.graph.hasNode then
    let removed := m.sources.filter fun e => e ≠ m.target
    let tracking := m.relationChunkTracking s
    some {
      nodes := [(m.target, m.mergedSourceId s)]
      edges := (m.relationUpdates s).entries.map Prod.snd
      rows := tracking.entries.map (fun x => (.relation x.1, x.2)) ++
        if m.anyRowPresent s then [(.entity m.target, m.mergedChunkIds s)] else []
      removed := removed
      retired := ((m.allRelations s).dedup.filter fun p => p ∉ tracking.keys).map .relation ++
        removed.map .entity }
  else none

end EntityMerge

/-- `_merge_entities_impl`. -/
def mergeEntities (m : EntityMerge) (s : Store) : List KgWrite :=
  match m.redirection s with
  | none => []
  | some r => r.writes true

end LightRAG.Knowledge
