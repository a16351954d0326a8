import LightRAG.Knowledge.Store

/-!
# Rebuilding from cached extraction results

`rebuild_knowledge_from_chunks` rewrites the objects that keep some of their chunks.
-/

namespace LightRAG.Knowledge

/-- `KGRebuildPolicy`. -/
inductive RebuildPolicy
  | bestEffort
  | rollback
deriving DecidableEq

structure Extraction where
  entities : List Name
  relations : List (Name × Name)
deriving DecidableEq

inductive Fault
  | none
  | beforeTracking
  | beforeGraph
  | afterGraph
deriving DecidableEq

inductive Task
  | entity (name : Name) (chunkIds : List ChunkId)
  | relation (p : Pair) (chunkIds : List ChunkId)
deriving DecidableEq

inductive Object
  | entity (name : Name)
  | relation (p : Pair)
deriving DecidableEq

def Task.object : Task → Object
  | .entity name _ => .entity name
  | .relation p _ => .relation p

def Task.chunkIds : Task → List ChunkId
  | .entity _ ids => ids
  | .relation _ ids => ids

structure RebuildEnv where
  /-- `_get_cached_extraction_results`; a result that cannot be parsed is `none`. -/
  cachedResults : ChunkId → List (Option Extraction)
  fault : Object → Fault
  schedule : List Task → List Task
  schedule_perm : ∀ tasks, (schedule tasks).Perm tasks

namespace RebuildEnv

variable (env : RebuildEnv)

def parsed (c : ChunkId) : List Extraction :=
  ((env.cachedResults c).takeWhile Option.isSome).reduceOption

/-- The keys of `chunk_entities[c]`. -/
def chunkEntities (c : ChunkId) : List Name := (env.parsed c).flatMap Extraction.entities

/-- The keys of `chunk_relationships[c]`. -/
def chunkRelationships (c : ChunkId) : List (Name × Name) :=
  (env.parsed c).flatMap Extraction.relations

end RebuildEnv

section

variable (cfg : KgConfig) (env : RebuildEnv) (structuralFallback : Bool)

/-- `_rebuild_single_entity`, and whether an exception left it. -/
def rebuildSingleEntity (name : Name) (chunkIds : List ChunkId) (s : Store) : Store × Bool :=
  match s.getNode name with
  | none => (s, false)
  | some current =>
    if env.fault (.entity name) = .beforeTracking then (s, true)
    else
      let s := if chunkIds = [] then s else s.upsertEntityRow name chunkIds
      if env.fault (.entity name) = .beforeGraph then (s, true)
      else
        let limited :=
          applySourceIdsLimit chunkIds cfg.maxSourceIdsPerEntity cfg.sourceIdsLimitMethod
        let allEntityData := limited.filter fun c => name ∈ env.chunkEntities c
        -- without data of its own the entity is rebuilt from its relations, if it has any
        if allEntityData = [] ∧ structuralFallback = false ∧ s.graph.nodeEdges name = [] then
          (s, false)
        else
          (s.upsertNode name { current with sourceId := limited },
            env.fault (.entity name) = .afterGraph)

/-- An end of a rebuilt relation that is not in the graph. -/
def addMissingEndpoint (limited : List ChunkId) (s : Store) (e : Name) : Store :=
  if s.graph.hasNode e then s
  else
    let s := s.upsertNode e ⟨true, limited⟩
    if limited = [] then s else s.upsertEntityRow e limited

/-- `_rebuild_single_relationship`, and whether an exception left it. -/
def rebuildSingleRelationship (p : Pair) (chunkIds : List ChunkId) (s : Store) : Store × Bool :=
  match s.getEdge p with
  | none => (s, false)
  | some _ =>
    if env.fault (.relation p) = .beforeTracking then (s, true)
    else
      let normalized := evidenceOnly chunkIds
      let s := if chunkIds = [] then s else s.upsertRelationRow p normalized
      if env.fault (.relation p) = .beforeGraph then (s, true)
      else
        let limited :=
          applySourceIdsLimit normalized cfg.maxSourceIdsPerRelation cfg.sourceIdsLimitMethod
        let allRelationshipData := limited.filter fun c =>
          (p.inf, p.sup) ∈ env.chunkRelationships c ∨ (p.sup, p.inf) ∈ env.chunkRelationships c
        if allRelationshipData = [] ∧ structuralFallback = false then (s, false)
        else
          let s := [p.inf, p.sup].foldl (addMissingEndpoint limited) s
          (s.upsertEdge p ⟨some limited⟩, env.fault (.relation p) = .afterGraph)

def rebuildTask (s : Store) : Task → Store × Bool
  | .entity name ids => rebuildSingleEntity cfg env structuralFallback name ids s
  | .relation p ids => rebuildSingleRelationship cfg env structuralFallback p ids s

/-- The tasks one after the other; `none` when a failure is not swallowed. -/
def runTasks : List Task → Store → Option Store
  | [], s => some s
  | t :: ts, s =>
    let r := rebuildTask cfg env structuralFallback s t
    if r.2 = true ∧ structuralFallback = true then none else runTasks ts r.1

end

/-- `rebuild_knowledge_from_chunks`; under the rollback policy a failed task is raised. -/
def rebuildKnowledgeFromChunks (cfg : KgConfig) (env : RebuildEnv) (policy : RebuildPolicy)
    (tasks : List Task) (s : Store) : Option Store :=
  if tasks = [] then some s
  else
    let referenced := tasks.flatMap Task.chunkIds
    if policy = .bestEffort ∧ ∀ c ∈ referenced, env.cachedResults c = [] then some s
    else runTasks cfg env (policy = .rollback) (env.schedule tasks) s

end LightRAG.Knowledge

/-!
## What a rebuild leaves

Each task rewrites its own object and its own tracking row and nothing else: the ends of a relation
of the graph are in the graph, so no end is ever missing.
-/

namespace LightRAG.Knowledge
open List Option

section

variable (cfg : KgConfig) (env : RebuildEnv) (structuralFallback : Bool) (s : Store)

def limitedEntityIds (ids : List ChunkId) : List ChunkId :=
  applySourceIdsLimit ids cfg.maxSourceIdsPerEntity cfg.sourceIdsLimitMethod

def limitedRelationIds (ids : List ChunkId) : List ChunkId :=
  applySourceIdsLimit (evidenceOnly ids) cfg.maxSourceIdsPerRelation cfg.sourceIdsLimitMethod

def hasEntityData (e : Name) (ids : List ChunkId) : Prop :=
  ∃ c ∈ limitedEntityIds cfg ids, e ∈ env.chunkEntities c

def hasRelationData (p : Pair) (ids : List ChunkId) : Prop :=
  ∃ c ∈ limitedRelationIds cfg ids,
    (p.inf, p.sup) ∈ env.chunkRelationships c ∨ (p.sup, p.inf) ∈ env.chunkRelationships c

instance (e : Name) (ids : List ChunkId) : Decidable (hasEntityData cfg env e ids) := by
  unfold hasEntityData
  infer_instance

instance (p : Pair) (ids : List ChunkId) : Decidable (hasRelationData cfg env p ids) := by
  unfold hasRelationData
  infer_instance

/-- Whether no exception keeps a task from the graph. -/
def RebuildEnv.reachesGraph (o : Object) : Prop :=
  env.fault o ≠ .beforeTracking ∧ env.fault o ≠ .beforeGraph

instance (o : Object) : Decidable (env.reachesGraph o) := by
  unfold RebuildEnv.reachesGraph
  infer_instance

def entityWritten (e : Name) (ids : List ChunkId) : Prop :=
  env.reachesGraph (.entity e) ∧
    (hasEntityData cfg env e ids ∨ structuralFallback = true ∨ s.graph.nodeEdges e ≠ [])

def relationWritten (p : Pair) (ids : List ChunkId) : Prop :=
  env.reachesGraph (.relation p) ∧ (hasRelationData cfg env p ids ∨ structuralFallback = true)

instance (e : Name) (ids : List ChunkId) :
    Decidable (entityWritten cfg env structuralFallback s e ids) := by
  unfold entityWritten
  infer_instance

instance (p : Pair) (ids : List ChunkId) :
    Decidable (relationWritten cfg env structuralFallback p ids) := by
  unfold relationWritten
  infer_instance

def nodeAfter (e : Name) (ids : List ChunkId) : Option Node :=
  if entityWritten cfg env structuralFallback s e ids then
    (s.getNode e).map fun node => { node with sourceId := limitedEntityIds cfg ids }
  else s.getNode e

def edgeAfter (p : Pair) (ids : List ChunkId) : Option Edge :=
  if relationWritten cfg env structuralFallback p ids then
    (s.getEdge p).map fun _ => ⟨some (limitedRelationIds cfg ids)⟩
  else s.getEdge p

def entityRowAfter (e : Name) (ids : List ChunkId) : Option (List ChunkId) :=
  if s.getNode e = none ∨ env.fault (.entity e) = .beforeTracking ∨ ids = [] then s.entityRow e
  else some ids

def relationRowAfter (p : Pair) (ids : List ChunkId) : Option (List ChunkId) :=
  if s.getEdge p = none ∨ env.fault (.relation p) = .beforeTracking ∨ ids = [] then
    s.relationRow p
  else some (evidenceOnly ids)

def Store.SameDocuments (s' : Store) : Prop :=
  s'.fullEntities = s.fullEntities ∧ s'.fullRelations = s.fullRelations ∧
    s'.docStatus = s.docStatus ∧ s'.chunksVdb = s.chunksVdb ∧ s'.textChunks = s.textChunks

structure Rebuilt (tasks : List Task) (s' : Store) : Prop where
  node_task : ∀ e ids, .entity e ids ∈ tasks →
    s'.getNode e = nodeAfter cfg env structuralFallback s e ids
  node_other : ∀ e, .entity e ∉ tasks.map Task.object → s'.getNode e = s.getNode e
  edge_task : ∀ p ids, .relation p ids ∈ tasks →
    s'.getEdge p = edgeAfter cfg env structuralFallback s p ids
  edge_other : ∀ p, .relation p ∉ tasks.map Task.object → s'.getEdge p = s.getEdge p
  entityRow_task : ∀ e ids, .entity e ids ∈ tasks → s'.entityRow e = entityRowAfter env s e ids
  entityRow_other : ∀ e, .entity e ∉ tasks.map Task.object → s'.entityRow e = s.entityRow e
  relationRow_task : ∀ p ids, .relation p ids ∈ tasks →
    s'.relationRow p = relationRowAfter env s p ids
  relationRow_other : ∀ p, .relation p ∉ tasks.map Task.object →
    s'.relationRow p = s.relationRow p
  documents : s.SameDocuments s'

end

section

variable {cfg : KgConfig} {env : RebuildEnv} {structuralFallback : Bool} {s s' s'' : Store}
  {e : Name} {p : Pair} {ids limited : List ChunkId} {tasks tasks' : List Task}

theorem filter_eq_nil_iff_entity (cfg : KgConfig) (env : RebuildEnv) (e : Name)
    (ids : List ChunkId) :
    ((limitedEntityIds cfg ids).filter fun c => e ∈ env.chunkEntities c) = [] ↔
      ¬ hasEntityData cfg env e ids := by
  simp [hasEntityData]

theorem filter_eq_nil_iff_relation (cfg : KgConfig) (env : RebuildEnv) (p : Pair)
    (ids : List ChunkId) :
    ((limitedRelationIds cfg ids).filter fun c =>
      (p.inf, p.sup) ∈ env.chunkRelationships c ∨ (p.sup, p.inf) ∈ env.chunkRelationships c) = [] ↔
      ¬ hasRelationData cfg env p ids := by
  simp [hasRelationData]

theorem addMissingEndpoint_of_edge (h : s.getEdge p ≠ none) :
    [p.inf, p.sup].foldl (addMissingEndpoint limited) s = s := by
  have hinf := Graph.hasNode_of_edge h (mem_pair.mpr (.inl rfl))
  have hsup := Graph.hasNode_of_edge h (mem_pair.mpr (.inr rfl))
  simp only [foldl_cons,foldl_nil,addMissingEndpoint,hinf,hsup,if_true]

theorem getNode_upsertEdge_of_edge {edge : Edge} (h : s.getEdge p ≠ none) :
    (s.upsertEdge p edge).getNode e = s.getNode e :=
  Graph.getNode_upsertEdge fun _ he => Graph.hasNode_of_edge h he

def trackEntity (env : RebuildEnv) (e : Name) (ids : List ChunkId) (s : Store) : Store :=
  if s.getNode e = none ∨ env.fault (.entity e) = .beforeTracking ∨ ids = [] then s
  else s.upsertEntityRow e ids

def trackRelation (env : RebuildEnv) (p : Pair) (ids : List ChunkId) (s : Store) : Store :=
  if s.getEdge p = none ∨ env.fault (.relation p) = .beforeTracking ∨ ids = [] then s
  else s.upsertRelationRow p (evidenceOnly ids)

theorem trackEntity_cases (env : RebuildEnv) (e : Name) (ids : List ChunkId) (s : Store) :
    trackEntity env e ids s = s ∨ trackEntity env e ids s = s.upsertEntityRow e ids := by
  unfold trackEntity
  split
  · exact .inl rfl
  · exact .inr rfl

theorem trackRelation_cases (env : RebuildEnv) (p : Pair) (ids : List ChunkId) (s : Store) :
    trackRelation env p ids s = s ∨
      trackRelation env p ids s = s.upsertRelationRow p (evidenceOnly ids) := by
  unfold trackRelation
  split
  · exact .inl rfl
  · exact .inr rfl

theorem graph_trackEntity : (trackEntity env e ids s).graph = s.graph := by
  obtain h | h := trackEntity_cases env e ids s
  · rw [h]
  · rw [h]
    rfl

theorem graph_trackRelation : (trackRelation env p ids s).graph = s.graph := by
  obtain h | h := trackRelation_cases env p ids s
  · rw [h]
  · rw [h]
    rfl

theorem rebuildSingleEntity_absent (h : s.getNode e = none) :
    (rebuildSingleEntity cfg env structuralFallback e ids s).1 = s := by
  unfold rebuildSingleEntity
  rw [h]

theorem rebuildSingleEntity_present {current : Node} (hnode : s.getNode e = some current) :
    (rebuildSingleEntity cfg env structuralFallback e ids s).1 =
      if entityWritten cfg env structuralFallback s e ids then
        (trackEntity env e ids s).upsertNode e
          { current with sourceId := limitedEntityIds cfg ids }
      else trackEntity env e ids s := by
  unfold rebuildSingleEntity
  rw [hnode]
  by_cases htrack : env.fault (.entity e) = .beforeTracking
  · simp [htrack,trackEntity,entityWritten,RebuildEnv.reachesGraph]
  · have htracked : (if ids = [] then s else s.upsertEntityRow e ids) =
        trackEntity env e ids s := by
      simp [trackEntity,hnode,htrack]
    simp only [if_neg htrack,htracked,graph_trackEntity]
    by_cases hgraph : env.fault (.entity e) = .beforeGraph
    · simp [hgraph,entityWritten,RebuildEnv.reachesGraph]
    · have hdata := filter_eq_nil_iff_entity cfg env e ids
      unfold limitedEntityIds at hdata
      simp only [if_neg hgraph,hdata]
      by_cases hwritten : entityWritten cfg env structuralFallback s e ids
      · have hnot : ¬ (¬ hasEntityData cfg env e ids ∧ structuralFallback = false ∧
            s.graph.nodeEdges e = []) := by
          intro ⟨h1,h2,h3⟩
          simp [entityWritten,h1,h2,h3] at hwritten
        rw [if_neg hnot,if_pos hwritten]
        rfl
      · have hyes : ¬ hasEntityData cfg env e ids ∧ structuralFallback = false ∧
            s.graph.nodeEdges e = [] := by
          simpa [entityWritten,RebuildEnv.reachesGraph,htrack,hgraph] using hwritten
        rw [if_pos hyes,if_neg hwritten]

theorem rebuildSingleRelationship_absent (h : s.getEdge p = none) :
    (rebuildSingleRelationship cfg env structuralFallback p ids s).1 = s := by
  unfold rebuildSingleRelationship
  rw [h]

theorem rebuildSingleRelationship_present (hedge : s.getEdge p ≠ none) :
    (rebuildSingleRelationship cfg env structuralFallback p ids s).1 =
      if relationWritten cfg env structuralFallback p ids then
        (trackRelation env p ids s).upsertEdge p ⟨some (limitedRelationIds cfg ids)⟩
      else trackRelation env p ids s := by
  have hthere : (trackRelation env p ids s).getEdge p ≠ none := by
    rw [Store.getEdge,graph_trackRelation]
    exact hedge
  obtain ⟨current,hcurrent⟩ := ne_none_iff_exists'.mp hedge
  unfold rebuildSingleRelationship
  rw [hcurrent]
  by_cases htrack : env.fault (.relation p) = .beforeTracking
  · simp [htrack,trackRelation,relationWritten,RebuildEnv.reachesGraph]
  · have htracked : (if ids = [] then s else s.upsertRelationRow p (evidenceOnly ids)) =
        trackRelation env p ids s := by
      simp [trackRelation,hcurrent,htrack]
    simp only [if_neg htrack,htracked,addMissingEndpoint_of_edge hthere]
    by_cases hgraph : env.fault (.relation p) = .beforeGraph
    · simp [hgraph,relationWritten,RebuildEnv.reachesGraph]
    · have hdata := filter_eq_nil_iff_relation cfg env p ids
      unfold limitedRelationIds at hdata
      simp only [if_neg hgraph,hdata]
      by_cases hwritten : relationWritten cfg env structuralFallback p ids
      · have hnot : ¬ (¬ hasRelationData cfg env p ids ∧ structuralFallback = false) := by
          intro ⟨h1,h2⟩
          simp [relationWritten,h1,h2] at hwritten
        rw [if_neg hnot,if_pos hwritten]
        rfl
      · have hyes : ¬ hasRelationData cfg env p ids ∧ structuralFallback = false := by
          simpa [relationWritten,RebuildEnv.reachesGraph,htrack,hgraph] using hwritten
        rw [if_pos hyes,if_neg hwritten]

@[simp] theorem getNode_trackEntity {e' : Name} :
    (trackEntity env e ids s).getNode e' = s.getNode e' :=
  congrArg (fun g : Graph => g.getNode e') graph_trackEntity

@[simp] theorem getEdge_trackEntity : (trackEntity env e ids s).getEdge p = s.getEdge p :=
  congrArg (fun g : Graph => g.getEdge p) graph_trackEntity

@[simp] theorem relationRow_trackEntity :
    (trackEntity env e ids s).relationRow p = s.relationRow p := by
  obtain h | h := trackEntity_cases env e ids s <;> rw [h]
  rfl

theorem entityRow_trackEntity {e' : Name} :
    (trackEntity env e ids s).entityRow e' =
      if e' = e then entityRowAfter env s e ids else s.entityRow e' := by
  unfold trackEntity entityRowAfter
  split
  · split
    · rename_i h
      rw [h]
    · rfl
  · rw [Store.entityRow_upsertEntityRow]

@[simp] theorem getNode_trackRelation : (trackRelation env p ids s).getNode e = s.getNode e :=
  congrArg (fun g : Graph => g.getNode e) graph_trackRelation

@[simp] theorem getEdge_trackRelation {q : Pair} :
    (trackRelation env p ids s).getEdge q = s.getEdge q :=
  congrArg (fun g : Graph => g.getEdge q) graph_trackRelation

@[simp] theorem entityRow_trackRelation :
    (trackRelation env p ids s).entityRow e = s.entityRow e := by
  obtain h | h := trackRelation_cases env p ids s <;> rw [h]
  rfl

theorem relationRow_trackRelation {q : Pair} :
    (trackRelation env p ids s).relationRow q =
      if q = p then relationRowAfter env s p ids else s.relationRow q := by
  unfold trackRelation relationRowAfter
  split
  · split
    · rename_i h
      rw [h]
    · rfl
  · rw [Store.relationRow_upsertRelationRow]

theorem sameDocuments_trackEntity : s.SameDocuments (trackEntity env e ids s) := by
  obtain h | h := trackEntity_cases env e ids s <;> rw [h] <;>
    exact ⟨rfl,rfl,rfl,rfl,rfl⟩

theorem sameDocuments_trackRelation : s.SameDocuments (trackRelation env p ids s) := by
  obtain h | h := trackRelation_cases env p ids s <;> rw [h] <;>
    exact ⟨rfl,rfl,rfl,rfl,rfl⟩

theorem rebuildSingleEntity_rebuilt :
    Rebuilt cfg env structuralFallback s [.entity e ids]
      (rebuildSingleEntity cfg env structuralFallback e ids s).1 := by
  have key : (∀ e', (rebuildSingleEntity cfg env structuralFallback e ids s).1.getNode e' =
        if e' = e then nodeAfter cfg env structuralFallback s e ids else s.getNode e') ∧
      (∀ e', (rebuildSingleEntity cfg env structuralFallback e ids s).1.entityRow e' =
        if e' = e then entityRowAfter env s e ids else s.entityRow e') ∧
      (∀ p, (rebuildSingleEntity cfg env structuralFallback e ids s).1.getEdge p = s.getEdge p) ∧
      (∀ p, (rebuildSingleEntity cfg env structuralFallback e ids s).1.relationRow p =
        s.relationRow p) ∧
      s.SameDocuments (rebuildSingleEntity cfg env structuralFallback e ids s).1 := by
    cases hcur : s.getNode e with
    | none =>
      rw [rebuildSingleEntity_absent hcur]
      refine ⟨fun e' => ?_,fun e' => ?_,fun p => rfl,fun p => rfl,rfl,rfl,rfl,rfl,rfl⟩
      · split
        · rename_i h
          rw [h,nodeAfter,hcur]
          simp
        · rfl
      · split
        · rename_i h
          rw [h,entityRowAfter,if_pos (.inl hcur)]
        · rfl
    | some current =>
      rw [rebuildSingleEntity_present hcur,nodeAfter]
      split
      · refine ⟨fun e' => ?_,fun _ => entityRow_trackEntity,fun _ => getEdge_trackEntity,
          fun _ => relationRow_trackEntity,sameDocuments_trackEntity⟩
        rw [Store.getNode_upsertNode,getNode_trackEntity,hcur]
        rfl
      · refine ⟨fun e' => ?_,fun _ => entityRow_trackEntity,fun _ => getEdge_trackEntity,
          fun _ => relationRow_trackEntity,sameDocuments_trackEntity⟩
        rw [getNode_trackEntity]
        split
        · rename_i h
          rw [h]
        · rfl
  obtain ⟨hnode,hrow,hedge,hrel,hdocs⟩ := key
  constructor
  · intro e' ids' hmem
    obtain ⟨rfl,rfl⟩ := Task.entity.inj (mem_singleton.mp hmem)
    rw [hnode,if_pos rfl]
  · intro e' hnot
    have hne : e' ≠ e := by simpa [Task.object] using hnot
    rw [hnode,if_neg hne]
  · intro p ids' hmem
    cases mem_singleton.mp hmem
  · exact fun p _ => hedge p
  · intro e' ids' hmem
    obtain ⟨rfl,rfl⟩ := Task.entity.inj (mem_singleton.mp hmem)
    rw [hrow,if_pos rfl]
  · intro e' hnot
    have hne : e' ≠ e := by simpa [Task.object] using hnot
    rw [hrow,if_neg hne]
  · intro p ids' hmem
    cases mem_singleton.mp hmem
  · exact fun p _ => hrel p
  · exact hdocs

theorem rebuildSingleRelationship_rebuilt :
    Rebuilt cfg env structuralFallback s [.relation p ids]
      (rebuildSingleRelationship cfg env structuralFallback p ids s).1 := by
  have key : (∀ q, (rebuildSingleRelationship cfg env structuralFallback p ids s).1.getEdge q =
        if q = p then edgeAfter cfg env structuralFallback s p ids else s.getEdge q) ∧
      (∀ q, (rebuildSingleRelationship cfg env structuralFallback p ids s).1.relationRow q =
        if q = p then relationRowAfter env s p ids else s.relationRow q) ∧
      (∀ e, (rebuildSingleRelationship cfg env structuralFallback p ids s).1.getNode e =
        s.getNode e) ∧
      (∀ e, (rebuildSingleRelationship cfg env structuralFallback p ids s).1.entityRow e =
        s.entityRow e) ∧
      s.SameDocuments (rebuildSingleRelationship cfg env structuralFallback p ids s).1 := by
    by_cases hcur : s.getEdge p = none
    · rw [rebuildSingleRelationship_absent hcur]
      refine ⟨fun q => ?_,fun q => ?_,fun e => rfl,fun e => rfl,rfl,rfl,rfl,rfl,rfl⟩
      · split
        · rename_i h
          rw [h,edgeAfter,hcur]
          simp
        · rfl
      · split
        · rename_i h
          rw [h,relationRowAfter,if_pos (.inl hcur)]
        · rfl
    · rw [rebuildSingleRelationship_present hcur,edgeAfter]
      split
      · have hthere : (trackRelation env p ids s).getEdge p ≠ none := by
          rw [getEdge_trackRelation]
          exact hcur
        refine ⟨fun q => ?_,fun _ => relationRow_trackRelation,fun e => ?_,
          fun _ => entityRow_trackRelation,sameDocuments_trackRelation⟩
        · obtain ⟨current,hcurrent⟩ := ne_none_iff_exists'.mp hcur
          rw [Store.getEdge_upsertEdge,getEdge_trackRelation,hcurrent]
          rfl
        · rw [getNode_upsertEdge_of_edge hthere,getNode_trackRelation]
      · refine ⟨fun q => ?_,fun _ => relationRow_trackRelation,fun _ => getNode_trackRelation,
          fun _ => entityRow_trackRelation,sameDocuments_trackRelation⟩
        rw [getEdge_trackRelation]
        split
        · rename_i h
          rw [h]
        · rfl
  obtain ⟨hedge,hrow,hnode,hent,hdocs⟩ := key
  constructor
  · intro e ids' hmem
    cases mem_singleton.mp hmem
  · exact fun e _ => hnode e
  · intro q ids' hmem
    obtain ⟨rfl,rfl⟩ := Task.relation.inj (mem_singleton.mp hmem)
    rw [hedge,if_pos rfl]
  · intro q hnot
    have hne : q ≠ p := by simpa [Task.object] using hnot
    rw [hedge,if_neg hne]
  · intro e ids' hmem
    cases mem_singleton.mp hmem
  · exact fun e _ => hent e
  · intro q ids' hmem
    obtain ⟨rfl,rfl⟩ := Task.relation.inj (mem_singleton.mp hmem)
    rw [hrow,if_pos rfl]
  · intro q hnot
    have hne : q ≠ p := by simpa [Task.object] using hnot
    rw [hrow,if_neg hne]
  · exact hdocs

theorem rebuildTask_rebuilt (t : Task) :
    Rebuilt cfg env structuralFallback s [t] (rebuildTask cfg env structuralFallback s t).1 := by
  cases t with
  | entity e ids => exact rebuildSingleEntity_rebuilt
  | relation p ids => exact rebuildSingleRelationship_rebuilt

namespace Rebuilt

theorem nil : Rebuilt cfg env structuralFallback s [] s := by
  constructor
  · exact fun _ _ h => absurd h not_mem_nil
  · exact fun _ _ => rfl
  · exact fun _ _ h => absurd h not_mem_nil
  · exact fun _ _ => rfl
  · exact fun _ _ h => absurd h not_mem_nil
  · exact fun _ _ => rfl
  · exact fun _ _ h => absurd h not_mem_nil
  · exact fun _ _ => rfl
  · exact ⟨rfl,rfl,rfl,rfl,rfl⟩

theorem node_none (h : Rebuilt cfg env structuralFallback s tasks s') :
    s'.getNode e = none ↔ s.getNode e = none := by
  by_cases hmem : .entity e ∈ tasks.map Task.object
  · obtain ⟨t,ht,hobj⟩ := mem_map.mp hmem
    cases t with
    | relation p ids => cases hobj
    | entity name ids =>
      obtain rfl := Object.entity.inj hobj
      rw [h.node_task name ids ht,nodeAfter]
      split
      · exact map_eq_none_iff
      · exact Iff.rfl
  · rw [h.node_other e hmem]

theorem edge_none (h : Rebuilt cfg env structuralFallback s tasks s') :
    s'.getEdge p = none ↔ s.getEdge p = none := by
  by_cases hmem : .relation p ∈ tasks.map Task.object
  · obtain ⟨t,ht,hobj⟩ := mem_map.mp hmem
    cases t with
    | entity name ids => cases hobj
    | relation q ids =>
      obtain rfl := Object.relation.inj hobj
      rw [h.edge_task q ids ht,edgeAfter]
      split
      · exact map_eq_none_iff
      · exact Iff.rfl
  · rw [h.edge_other p hmem]

theorem nodeEdges_eq_nil : s.graph.nodeEdges e = [] ↔ ∀ p, e ∈ p → s.getEdge p = none := by
  rw [eq_nil_iff_forall_not_mem]
  simp only [Graph.mem_nodeEdges,not_and]
  constructor
  · intro h p he
    by_contra hp
    exact h p hp he
  · intro h p hp he
    exact hp (h p he)

section

variable (h : Rebuilt cfg env structuralFallback s tasks s')

include h

theorem entityWritten_iff :
    entityWritten cfg env structuralFallback s' e ids ↔
      entityWritten cfg env structuralFallback s e ids := by
  have hedges : s'.graph.nodeEdges e = [] ↔ s.graph.nodeEdges e = [] := by
    rw [nodeEdges_eq_nil,nodeEdges_eq_nil]
    simp only [h.edge_none]
  unfold entityWritten
  rw [ne_eq,hedges]

theorem append
    (h' : Rebuilt cfg env structuralFallback s' tasks' s'')
    (hdisjoint : List.Disjoint (tasks.map Task.object) (tasks'.map Task.object)) :
    Rebuilt cfg env structuralFallback s (tasks ++ tasks') s'' := by
  have hobject : ∀ {t : Task} {ts : List Task}, t ∈ ts → t.object ∈ ts.map Task.object :=
    fun ht => mem_map.mpr ⟨_,ht,rfl⟩
  constructor
  · intro e ids hmem
    obtain hmem | hmem := mem_append.mp hmem
    · rw [h'.node_other e (hdisjoint (hobject hmem)),h.node_task e ids hmem]
    · have hnot : .entity e ∉ tasks.map Task.object := fun hin => hdisjoint hin (hobject hmem)
      rw [h'.node_task e ids hmem,nodeAfter,nodeAfter,h.node_other e hnot]
      simp only [h.entityWritten_iff]
  · intro e hnot
    rw [map_append,mem_append,not_or] at hnot
    rw [h'.node_other e hnot.2,h.node_other e hnot.1]
  · intro p ids hmem
    obtain hmem | hmem := mem_append.mp hmem
    · rw [h'.edge_other p (hdisjoint (hobject hmem)),h.edge_task p ids hmem]
    · have hnot : .relation p ∉ tasks.map Task.object := fun hin => hdisjoint hin (hobject hmem)
      rw [h'.edge_task p ids hmem,edgeAfter,edgeAfter,h.edge_other p hnot]
  · intro p hnot
    rw [map_append,mem_append,not_or] at hnot
    rw [h'.edge_other p hnot.2,h.edge_other p hnot.1]
  · intro e ids hmem
    obtain hmem | hmem := mem_append.mp hmem
    · rw [h'.entityRow_other e (hdisjoint (hobject hmem)),h.entityRow_task e ids hmem]
    · have hnot : .entity e ∉ tasks.map Task.object := fun hin => hdisjoint hin (hobject hmem)
      rw [h'.entityRow_task e ids hmem,entityRowAfter,entityRowAfter,h.entityRow_other e hnot,
        h.node_other e hnot]
  · intro e hnot
    rw [map_append,mem_append,not_or] at hnot
    rw [h'.entityRow_other e hnot.2,h.entityRow_other e hnot.1]
  · intro p ids hmem
    obtain hmem | hmem := mem_append.mp hmem
    · rw [h'.relationRow_other p (hdisjoint (hobject hmem)),h.relationRow_task p ids hmem]
    · have hnot : .relation p ∉ tasks.map Task.object := fun hin => hdisjoint hin (hobject hmem)
      rw [h'.relationRow_task p ids hmem,relationRowAfter,relationRowAfter,
        h.relationRow_other p hnot,h.edge_other p hnot]
  · intro p hnot
    rw [map_append,mem_append,not_or] at hnot
    rw [h'.relationRow_other p hnot.2,h.relationRow_other p hnot.1]
  · obtain ⟨h1,h2,h3,h4,h5⟩ := h.documents
    obtain ⟨h1',h2',h3',h4',h5'⟩ := h'.documents
    exact ⟨h1'.trans h1,h2'.trans h2,h3'.trans h3,h4'.trans h4,h5'.trans h5⟩

theorem perm (hperm : tasks.Perm tasks') :
    Rebuilt cfg env structuralFallback s tasks' s' := by
  constructor
  · exact fun e ids hmem => h.node_task e ids (hperm.mem_iff.mpr hmem)
  · exact fun e hnot => h.node_other e fun hin => hnot ((hperm.map Task.object).mem_iff.mp hin)
  · exact fun p ids hmem => h.edge_task p ids (hperm.mem_iff.mpr hmem)
  · exact fun p hnot => h.edge_other p fun hin => hnot ((hperm.map Task.object).mem_iff.mp hin)
  · exact fun e ids hmem => h.entityRow_task e ids (hperm.mem_iff.mpr hmem)
  · exact fun e hnot => h.entityRow_other e fun hin => hnot ((hperm.map Task.object).mem_iff.mp hin)
  · exact fun p ids hmem => h.relationRow_task p ids (hperm.mem_iff.mpr hmem)
  · exact fun p hnot => h.relationRow_other p fun hin =>
      hnot ((hperm.map Task.object).mem_iff.mp hin)
  · exact h.documents

end

end Rebuilt

theorem runTasks_rebuilt (hnodup : (tasks.map Task.object).Nodup)
    (h : runTasks cfg env structuralFallback tasks s = some s') :
    Rebuilt cfg env structuralFallback s tasks s' := by
  induction tasks generalizing s with
  | nil =>
    obtain rfl := some.inj h
    exact Rebuilt.nil
  | cons t ts ih =>
    rw [map_cons,nodup_cons] at hnodup
    simp only [runTasks] at h
    split at h
    · cases h
    · have hrest := ih hnodup.2 h
      have hdisjoint : List.Disjoint ([t].map Task.object) (ts.map Task.object) := by
        rw [map_singleton,singleton_disjoint]
        exact hnodup.1
      exact (rebuildTask_rebuilt t).append hrest hdisjoint

end

end LightRAG.Knowledge
