import LightRAG.Knowledge.Store

/-!
# Merging extracted knowledge

`merge_nodes_and_edges` writes the recovery anchors of a document and then merges its entities and
its relations into the graph.
-/

namespace LightRAG.Knowledge

/-- What `extract_entities` found in one chunk: each record by the `source_id` it carries. -/
structure ChunkResult where
  maybeNodes : List (Name × List ChunkId)
  maybeEdges : List ((Name × Name) × List ChunkId)
deriving DecidableEq

def allNodes (results : List ChunkResult) : Dict Name (List ChunkId) :=
  Dict.collect (results.flatMap ChunkResult.maybeNodes)

def allEdges (results : List ChunkResult) : Dict Pair (List ChunkId) :=
  Dict.collect ((results.flatMap ChunkResult.maybeEdges).map fun e => (s(e.1.1, e.1.2), e.2))

/-- `collect_kg_merge_candidates`; the order of a candidate list is of no account. -/
def collectKgMergeCandidates (results : List ChunkResult) : List Name × List Pair :=
  let pairs := (allEdges results).keys
  (((allNodes results).keys ++ pairs.flatMap fun p => [p.inf, p.sup]).dedup, pairs)

section

variable (cfg : KgConfig)

/-- The records a merge takes into account: under KEEP none of a chunk that the limit drops. -/
def keptRecords (existingFull sourceIds data : List ChunkId) : List ChunkId :=
  match cfg.sourceIdsLimitMethod with
  | .keep => data.filter fun c => ¬ (c ≠ "" ∧ c ∉ sourceIds ∧ c ∉ existingFull)
  | .fifo => data

/-- Under KEEP, a full object without new records is left alone. -/
def skipsMerge (limit : Nat) (existingFull sourceIds data : List ChunkId) : Bool :=
  cfg.sourceIdsLimitMethod = .keep ∧ limit ≤ existingFull.length ∧
    keptRecords cfg existingFull sourceIds data = []

def trackEntityIds (e : Name) (full : List ChunkId) (s : Store) : Store :=
  if full = [] then s else s.upsertEntityRow e full

def trackRelationIds (p : Pair) (full : List ChunkId) (s : Store) : Store :=
  if full = [] then s else s.upsertRelationRow p full

/-- The tracked chunks of an entity: its row where there is one, else its node. -/
def existingEntityIds (s : Store) (name : Name) : List ChunkId :=
  match s.entityRow name with
  | some row => truthy row
  | none => truthy (((s.getNode name).map Node.sourceId).getD [])

/-- `_merge_nodes_then_upsert`; `none` when it raises. -/
def mergeNodesThenUpsert (name : Name) (nodesData : List ChunkId) (s : Store) : Option Store :=
  let existingFull := existingEntityIds s name
  let full := mergeSourceIds existingFull (truthy nodesData)
  let tracked := trackEntityIds name full s
  let sourceIds := applySourceIdsLimit full cfg.maxSourceIdsPerEntity cfg.sourceIdsLimitMethod
  if skipsMerge cfg cfg.maxSourceIdsPerEntity existingFull sourceIds nodesData then
    match s.getNode name with
    | some _ => some tracked
    | none => none
  else some (tracked.upsertNode name ⟨true, sourceIds⟩)

/-- The tracked chunks of a relation, without the placeholders. -/
def existingRelationIds (s : Store) (p : Pair) : List ChunkId :=
  match s.relationRow p with
  | some row => evidenceOnly row
  | none => evidenceOnly (((s.getEdge p).bind Edge.sourceId).getD [])

/-- One end of a merged relation: it is created with all the chunks of the relation, or takes over
those that the limit of the relation keeps. -/
def mergeEndpoint (full sourceIds : List ChunkId) (s : Store) (e : Name) : Store :=
  match s.getNode e with
  | none =>
    trackEntityIds e (truthy full) (s.upsertNode e ⟨true, sourceIds⟩)
  | some node =>
    let existingFull := existingEntityIds s e
    let merged := mergeSourceIds existingFull (truthy sourceIds)
    let s := if merged = existingFull then s else s.upsertEntityRow e merged
    let limited := applySourceIdsLimit merged cfg.maxSourceIdsPerEntity cfg.sourceIdsLimitMethod
    if limited = node.sourceId then s else s.upsertNode e { node with sourceId := limited }

def fullRelationIds (s : Store) (p : Pair) (edgesData : List ChunkId) : List ChunkId :=
  mergeSourceIds (existingRelationIds s p) (truthy edgesData)

def keptRelationIds (s : Store) (p : Pair) (edgesData : List ChunkId) : List ChunkId :=
  applySourceIdsLimit (fullRelationIds s p edgesData) cfg.maxSourceIdsPerRelation
    cfg.sourceIdsLimitMethod

/-- `_merge_edges_then_upsert`; `none` when it raises. -/
def mergeEdgesThenUpsert (p : Pair) (edgesData : List ChunkId) (s : Store) : Option Store :=
  if p.inf = p.sup then some s
  else
    let full := fullRelationIds s p edgesData
    let tracked := trackRelationIds p full s
    let sourceIds := keptRelationIds cfg s p edgesData
    if skipsMerge cfg cfg.maxSourceIdsPerRelation (existingRelationIds s p) sourceIds
        edgesData then
      match s.getEdge p with
      | some _ => some tracked
      | none => none
    else
      let s := [p.inf, p.sup].foldl (mergeEndpoint cfg full sourceIds) tracked
      some (s.upsertEdge p ⟨some sourceIds⟩)

end

/-- A call of `merge_nodes_and_edges`. The objects are merged in any order, since each merge holds
the locks of the names it touches. -/
structure MergeCall where
  docId : DocId
  anchored : Bool
  chunkResults : List ChunkResult
  nodes : List (Name × List ChunkId)
  nodes_perm : nodes.Perm (allNodes chunkResults).entries
  edges : List (Pair × List ChunkId)
  edges_perm : edges.Perm (allEdges chunkResults).entries

def writeAnchors (docId : DocId) (results : List ChunkResult) (s : Store) : Store :=
  let candidates := collectKgMergeCandidates results
  { s with
    fullEntities := s.fullEntities.set docId candidates.1
    fullRelations := s.fullRelations.set docId candidates.2 }

/-- `_mark_graph_mutation_started`; it raises where the status row is missing. -/
def markGraphMutationStarted (docId : DocId) (s : Store) : Option Store :=
  match s.docStatus.get docId with
  | none => none
  | some row =>
    let row := { row with kgWriteState := some .graphMutationStarted }
    some { s with docStatus := s.docStatus.set docId row }

def prewriteAnchors (call : MergeCall) (s : Store) : Option Store :=
  if call.anchored then markGraphMutationStarted call.docId
    (writeAnchors call.docId call.chunkResults s)
  else some s

def mergeNodes (cfg : KgConfig) (nodes : List (Name × List ChunkId)) (s : Store) : Option Store :=
  nodes.foldlM (fun s e => mergeNodesThenUpsert cfg e.1 e.2 s) s

def mergeEdges (cfg : KgConfig) (edges : List (Pair × List ChunkId)) (s : Store) : Option Store :=
  edges.foldlM (fun s e => mergeEdgesThenUpsert cfg e.1 e.2 s) s

/-- `merge_nodes_and_edges`; `none` when it raises. -/
def mergeNodesAndEdges (cfg : KgConfig) (call : MergeCall) (s : Store) : Option Store :=
  (prewriteAnchors call s).bind fun s =>
    (mergeNodes cfg call.nodes s).bind fun s => mergeEdges cfg call.edges s

section

variable {s : Store} {e e' : Name} {p q : Pair} {full : List ChunkId}

def rowAfterMerge (row : Option (List ChunkId)) (full : List ChunkId) : Option (List ChunkId) :=
  if full = [] then row else some full

@[simp] theorem getNode_trackEntityIds : (trackEntityIds e full s).getNode e' = s.getNode e' := by
  unfold trackEntityIds
  split <;> rfl

@[simp] theorem getEdge_trackEntityIds : (trackEntityIds e full s).getEdge p = s.getEdge p := by
  unfold trackEntityIds
  split <;> rfl

@[simp] theorem relationRow_trackEntityIds :
    (trackEntityIds e full s).relationRow p = s.relationRow p := by
  unfold trackEntityIds
  split <;> rfl

theorem entityRow_trackEntityIds :
    (trackEntityIds e full s).entityRow e' =
      if e' = e then rowAfterMerge (s.entityRow e) full else s.entityRow e' := by
  unfold trackEntityIds rowAfterMerge
  split
  · split
    · rename_i heq
      rw [heq]
    · rfl
  · exact Store.entityRow_upsertEntityRow

@[simp] theorem getNode_trackRelationIds : (trackRelationIds p full s).getNode e = s.getNode e := by
  unfold trackRelationIds
  split <;> rfl

@[simp] theorem getEdge_trackRelationIds : (trackRelationIds p full s).getEdge q = s.getEdge q := by
  unfold trackRelationIds
  split <;> rfl

@[simp] theorem entityRow_trackRelationIds :
    (trackRelationIds p full s).entityRow e = s.entityRow e := by
  unfold trackRelationIds
  split <;> rfl

theorem relationRow_trackRelationIds :
    (trackRelationIds p full s).relationRow q =
      if q = p then rowAfterMerge (s.relationRow p) full else s.relationRow q := by
  unfold trackRelationIds rowAfterMerge
  split
  · split
    · rename_i heq
      rw [heq]
    · rfl
  · exact Store.relationRow_upsertRelationRow

theorem mergeEndpoint_frame (cfg : KgConfig) (full sourceIds : List ChunkId) (s : Store)
    (e : Name) :
    (mergeEndpoint cfg full sourceIds s e).getNode e ≠ none ∧
      (∀ e', e' ≠ e → (mergeEndpoint cfg full sourceIds s e).getNode e' = s.getNode e' ∧
        (mergeEndpoint cfg full sourceIds s e).entityRow e' = s.entityRow e') ∧
      ∀ q, (mergeEndpoint cfg full sourceIds s e).getEdge q = s.getEdge q ∧
        (mergeEndpoint cfg full sourceIds s e).relationRow q = s.relationRow q := by
  unfold mergeEndpoint
  cases hnode : s.getNode e with
  | none =>
    refine ⟨by simp,fun e' hne => ?_,fun q => by simp⟩
    simp [entityRow_trackEntityIds,hne]
  | some node =>
    dsimp only
    generalize mergeSourceIds (existingEntityIds s e) (truthy sourceIds) = merged
    have key : ∀ t : Store, t = s ∨ t = s.upsertEntityRow e merged →
        t.getNode e = some node ∧
          (∀ e', e' ≠ e → t.getNode e' = s.getNode e' ∧ t.entityRow e' = s.entityRow e') ∧
          ∀ q, t.getEdge q = s.getEdge q ∧ t.relationRow q = s.relationRow q := by
      rintro t (rfl | rfl)
      · exact ⟨hnode,fun _ _ => ⟨rfl,rfl⟩,fun _ => ⟨rfl,rfl⟩⟩
      · refine ⟨hnode,fun e' hne => ⟨rfl,?_⟩,fun _ => ⟨rfl,rfl⟩⟩
        rw [Store.entityRow_upsertEntityRow,if_neg hne]
    generalize ht : (if merged = existingEntityIds s e then s else s.upsertEntityRow e merged) = t
    obtain ⟨hnode',hother,hedges⟩ := key t (by
      rw [← ht]
      split
      · exact .inl rfl
      · exact .inr rfl)
    split
    · refine ⟨?_,hother,hedges⟩
      rw [hnode']
      exact Option.some_ne_none node
    · refine ⟨by simp,fun e' hne => ?_,hedges⟩
      rw [Store.getNode_upsertNode,if_neg hne]
      exact hother e' hne

end

end LightRAG.Knowledge
