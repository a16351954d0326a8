import LightRAG.Knowledge.EntityMerges

/-!
# The writers of the graph

Each operation that writes to the graph, as what it does to the graph and to the weights of its
relations.
-/

namespace LightRAG.Knowledge

structure WeightedGraph where
  graph : Graph
  weight : Pair → Option ℚ

namespace WeightedGraph

variable (g : WeightedGraph)

def empty : WeightedGraph := ⟨Graph.empty, fun _ => none⟩

def getEdge (p : Pair) : Option EdgeData :=
  (g.graph.getEdge p).map fun edge => ⟨edge.sourceId, g.weight p⟩

def among (others : Store) : Store := { others with graph := g.graph }

def withRows (rows : Dict String (List ChunkId)) : WeightedStores := ⟨g.graph, g.weight, rows⟩

def weightOf (p : Pair) : ℚ := (g.weight p).getD 1

structure NodeMerge where
  name : Name
  ids : List ChunkId
  others : Store

/-- The records of a relation; the others hold the description of its edge, too. -/
structure EdgeMerge where
  pair : Pair
  records : List ExtractedRelation
  others : DescribedStore

/-- `_merge_nodes_then_upsert`; an exception comes before the write to the graph. -/
def mergeNode (cfg : KgConfig) (m : NodeMerge) : WeightedGraph :=
  match mergeNodesThenUpsert cfg m.name m.ids (g.among m.others) with
  | some s => { g with graph := s.graph }
  | none => g

/-- What `_merge_edges_then_upsert` reads. -/
def described (others : DescribedStore) : DescribedStore :=
  { others with store := g.among others.store, edgeWeight := g.weightOf }

/-- `_merge_edges_then_upsert`; it raises where there is no description. -/
def mergeEdge (cfg : MergeConfig) (m : EdgeMerge) : WeightedGraph :=
  let s := g.described m.others
  let ids := m.records.map fun dp => dp.sourceId
  if m.pair.inf = m.pair.sup then g
  else
    match mergeEdgesThenUpsert cfg.kg m.pair ids s.store with
    | none => g
    | some store =>
      if skipsMerge cfg.kg cfg.kg.maxSourceIdsPerRelation (existingRelationIds s.store m.pair)
          (keptRelationIds cfg.kg s.store m.pair ids) ids then g
      else if s.edgeDescriptions cfg m.pair m.records = [] then g
      else
        { graph := store.graph
          weight := Function.update g.weight m.pair (some (s.mergedWeight cfg m.pair m.records)) }

def mergeNodesAndEdges (cfg : MergeConfig) (nodes : List NodeMerge) (edges : List EdgeMerge) :
    WeightedGraph :=
  edges.foldl (fun g m => g.mergeEdge cfg m) (nodes.foldl (fun g m => g.mergeNode cfg.kg m) g)

/-- What a rebuild meets, with the weights of the records of a relation in the cached results of a
chunk. -/
structure Rebuilding where
  cfg : KgConfig
  env : RebuildEnv
  policy : RebuildPolicy
  recordWeights : Pair → ChunkId → List ℚ
  others : Store

namespace Rebuilding

variable (r : Rebuilding)

def structuralFallback : Bool := r.policy = .rollback

def weights (p : Pair) (chunkIds : List ChunkId) : List ℚ :=
  if hasRelationData r.cfg r.env p chunkIds then
    ((limitedRelationIds r.cfg chunkIds).flatMap (r.recordWeights p)).filter fun w => w ≠ 0
  else [g.weightOf p]

def weight (p : Pair) (chunkIds : List ChunkId) : ℚ :=
  let weights := r.weights g p chunkIds
  max (if weights = [] then g.weightOf p else weights.sum)
    (limitedRelationIds r.cfg chunkIds).dedup.length

def task (t : Task) : WeightedGraph × Bool :=
  let result := rebuildTask r.cfg r.env r.structuralFallback (g.among r.others) t
  let weight :=
    match t with
    | .entity _ _ => g.weight
    | .relation p ids =>
      if (g.getEdge p).isSome ∧ relationWritten r.cfg r.env r.structuralFallback p ids then
        Function.update g.weight p (some (r.weight g p ids))
      else g.weight
  (⟨result.1.graph, weight⟩, result.2)

/-- The tasks one after the other, up to one that raises where that is not swallowed. -/
def run : List Task → WeightedGraph → WeightedGraph
  | [], g => g
  | t :: ts, g =>
    if (r.task g t).2 = true ∧ r.structuralFallback = true then (r.task g t).1
    else run ts (r.task g t).1

end Rebuilding

/-- `rebuild_knowledge_from_chunks`. -/
def rebuildKnowledge (tasks : List Task) (r : Rebuilding) : WeightedGraph :=
  if r.policy = .bestEffort ∧ ∀ c ∈ tasks.flatMap Task.chunkIds, r.env.cachedResults c = [] then g
  else r.run (r.env.schedule tasks) g

def purge (plan : PurgePlan) (r : Rebuilding) : WeightedGraph :=
  rebuildKnowledge { g with graph := (applyPlan plan (g.among r.others)).graph } plan.tasks r

def acreateEntity (e : Name) (sourceId : List ChunkId) : WeightedGraph :=
  if g.graph.hasNode e then g
  else { g with graph := g.graph.upsertNode e ⟨true, sourceId⟩ }

def upsertEdge (p : Pair) (d : EdgeData) : WeightedGraph :=
  let s := (g.withRows Dict.empty).upsertEdge p d
  ⟨s.graph, s.weight⟩

/-- `acreate_relation`; refused with a weight below the evidence. -/
def acreateRelation (source target : Name) (sourceId : List ChunkId) (weight : ℚ) :
    WeightedGraph :=
  if source = target ∨ ¬ (g.graph.hasNode source ∧ g.graph.hasNode target) ∨
      (g.getEdge s(source, target)).isSome ∨ weight < evidenceCount sourceId then g
  else g.upsertEdge s(source, target) ⟨some sourceId, some weight⟩

/-- `_edit_entity_impl` without a new name. -/
def editEntity (e : Name) (sourceId : Option (List ChunkId)) : WeightedGraph :=
  match g.graph.getNode e with
  | none => g
  | some node =>
    { g with graph := g.graph.upsertNode e ⟨true, sourceId.getD node.sourceId⟩ }

/-- The relation that takes the place of one of a renamed entity. -/
def renamedRelation (e newName : Name) (p : Pair) : Pair × EdgeData :=
  let d := (g.getEdge p).getD ⟨none, none⟩
  (p.map (redirect [e] newName), EdgeData.floored ⟨some (d.sourceId.getD []), d.weight⟩)

/-- `_edit_entity_impl` with a new name that is not taken. -/
def renameEntity (e newName : Name) (sourceId : Option (List ChunkId)) : WeightedGraph :=
  match g.graph.getNode e with
  | none => g
  | some node =>
    let renamed := (g.graph.nodeEdges e).map (g.renamedRelation e newName)
    let s := ((g.withRows Dict.empty).upsertNode newName
      ⟨true, sourceId.getD node.sourceId⟩).upsertEdges renamed
    ⟨s.graph.removeNodes [e], s.weight⟩

def amergeEntities (m : EntityMerge) (rows : Dict String (List ChunkId)) : WeightedGraph :=
  match m.mergeEntitiesImpl (g.withRows rows) with
  | some s => ⟨s.graph, s.weight⟩
  | none => g

structure EntityEdit where
  newName : Option Name
  sourceId : Option (List ChunkId)
  allowRename : Bool
  allowMerge : Bool

def aeditEntity (e : Name) (edit : EntityEdit) (rows : Dict String (List ChunkId)) :
    WeightedGraph :=
  let newName := edit.newName.getD e
  if newName = e then g.editEntity e edit.sourceId
  else if edit.allowRename = false then g
  else if g.graph.hasNode newName then
    if edit.allowMerge then
      (g.editEntity e edit.sourceId).amergeEntities ⟨[e], newName, joinUnique, none⟩ rows
    else g
  else g.renameEntity e newName edit.sourceId

/-- `aedit_relation`: a weight or a source id that is given is validated, any other edit restores
the floor. -/
def aeditRelation (p : Pair) (sourceId : Option (List ChunkId)) (weight : Option ℚ) :
    WeightedGraph :=
  match g.getEdge p with
  | none => g
  | some d =>
    let newSourceId := sourceId.getD (d.sourceId.getD [])
    let newWeight := weight.getD (d.weight.getD 1)
    if weight.isSome ∨ sourceId.isSome then
      if newWeight < evidenceCount newSourceId then g
      else g.upsertEdge p ⟨some newSourceId, some newWeight⟩
    else g.upsertEdge p (EdgeData.floored ⟨some newSourceId, some newWeight⟩)

def adeleteByEntity (e : Name) : WeightedGraph :=
  { g with graph := g.graph.removeNodes [e] }

def adeleteByRelation (p : Pair) : WeightedGraph :=
  { g with graph := g.graph.removeEdges [p] }

inductive Operation
  | mergeNodesAndEdges (cfg : MergeConfig) (nodes : List NodeMerge) (edges : List EdgeMerge)
  | purge (plan : PurgePlan) (r : Rebuilding)
  | acreateEntity (e : Name) (sourceId : List ChunkId)
  | acreateRelation (source target : Name) (sourceId : List ChunkId) (weight : ℚ)
  | aeditEntity (e : Name) (edit : EntityEdit) (rows : Dict String (List ChunkId))
  | aeditRelation (p : Pair) (sourceId : Option (List ChunkId)) (weight : Option ℚ)
  | amergeEntities (m : EntityMerge) (rows : Dict String (List ChunkId))
  | adeleteByEntity (e : Name)
  | adeleteByRelation (p : Pair)

def perform (g : WeightedGraph) : Operation → WeightedGraph
  | .mergeNodesAndEdges cfg nodes edges => g.mergeNodesAndEdges cfg nodes edges
  | .purge plan r => g.purge plan r
  | .acreateEntity e sourceId => g.acreateEntity e sourceId
  | .acreateRelation source target sourceId weight =>
    g.acreateRelation source target sourceId weight
  | .aeditEntity e edit rows => g.aeditEntity e edit rows
  | .aeditRelation p sourceId weight => g.aeditRelation p sourceId weight
  | .amergeEntities m rows => g.amergeEntities m rows
  | .adeleteByEntity e => g.adeleteByEntity e
  | .adeleteByRelation p => g.adeleteByRelation p

end WeightedGraph

end LightRAG.Knowledge
