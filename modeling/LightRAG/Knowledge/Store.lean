import LightRAG.Framework.Dict
import LightRAG.Knowledge.Sources
import Mathlib.Data.String.Basic
import Mathlib.Data.Sym.Sym2.Order

/-!
# The graph storage

An undirected graph of entities and relations. Only what ties an object to its chunks is kept of
its attributes.
-/

namespace LightRAG.Knowledge
open List

abbrev Name := String

/-- The two ends of a relation; `tuple(sorted((src, tgt)))` is `(p.inf, p.sup)`. -/
abbrev Pair := Sym2 Name

instance : LawfulBEq Pair := inferInstance

structure Node where
  /-- Whether the node carries its name under `entity_id`. -/
  hasEntityId : Bool
  sourceId : List ChunkId
deriving DecidableEq

structure Edge where
  /-- `none` where the edge has no `source_id` at all. -/
  sourceId : Option (List ChunkId)
deriving DecidableEq

structure Graph where
  nodes : Dict Name Node
  edges : Dict Pair Edge
  endpoints : ∀ p ∈ edges.keys, ∀ e ∈ p, e ∈ nodes.keys

theorem mem_pair {p : Pair} {e : Name} : e ∈ p ↔ e = p.inf ∨ e = p.sup := by
  induction p using Sym2.ind with
  | _ a b =>
    rw [Sym2.mem_iff,Sym2.inf_mk,Sym2.sup_mk]
    rcases le_total a b with hab | hba
    · rw [inf_eq_left.mpr hab,sup_eq_right.mpr hab]
    · rw [inf_eq_right.mpr hba,sup_eq_left.mpr hba,or_comm]

namespace Graph

def empty : Graph := ⟨Dict.empty, Dict.empty, fun _ h => absurd h not_mem_nil⟩

variable (g : Graph)

def getNode (e : Name) : Option Node := g.nodes.get e

def getEdge (p : Pair) : Option Edge := g.edges.get p

def hasNode (e : Name) : Bool := (g.getNode e).isSome

/-- `get_node_edges`. -/
def nodeEdges (e : Name) : List Pair := g.edges.keys.filter fun p => e ∈ p

def upsertNode (e : Name) (node : Node) : Graph where
  nodes := g.nodes.set e node
  edges := g.edges
  endpoints p hp e' he' := by
    rw [Dict.keys_set]
    have hold := g.endpoints p hp e' he'
    split
    · exact hold
    · exact mem_append_left _ hold

def ensureNode (e : Name) : Graph :=
  if g.hasNode e then g else g.upsertNode e ⟨false, []⟩

theorem mem_keys_upsertNode {g : Graph} {e e' : Name} {node : Node} :
    e' ∈ (g.upsertNode e node).nodes.keys ↔ e' = e ∨ e' ∈ g.nodes.keys := by
  rw [Dict.mem_keys,Dict.mem_keys,upsertNode,Dict.get_set]
  by_cases he : e' = e
  · simp [he]
  · simp [he]

theorem mem_keys_ensureNode {g : Graph} {e e' : Name} :
    e' ∈ (g.ensureNode e).nodes.keys ↔ e' = e ∨ e' ∈ g.nodes.keys := by
  unfold ensureNode
  split
  · rename_i h
    constructor
    · exact .inr
    · rintro (rfl | hmem)
      · rw [Dict.mem_keys]
        exact Option.isSome_iff_ne_none.mp h
      · exact hmem
  · exact mem_keys_upsertNode

def upsertEdge (p : Pair) (edge : Edge) : Graph where
  nodes := ((g.ensureNode p.inf).ensureNode p.sup).nodes
  edges := g.edges.set p edge
  endpoints q hq e he := by
    rw [mem_keys_ensureNode, mem_keys_ensureNode]
    rw [Dict.keys_set] at hq
    by_cases hpq : q = p
    · subst hpq
      rw [mem_pair] at he
      tauto
    · refine .inr (.inr (g.endpoints q ?_ e he))
      split at hq
      · exact hq
      · rw [mem_append, mem_singleton] at hq
        exact hq.resolve_right hpq

/-- `remove_nodes`: a node goes with its edges. -/
def removeNodes (es : List Name) : Graph where
  nodes := g.nodes.drop fun e => e ∈ es
  edges := g.edges.drop fun p => p.inf ∈ es ∨ p.sup ∈ es
  endpoints p hp e he := by
    rw [Dict.mem_keys, Dict.get_drop] at hp
    rw [Dict.mem_keys, Dict.get_drop]
    by_cases hgone : p.inf ∈ es ∨ p.sup ∈ es
    · rw [if_pos hgone] at hp
      exact absurd rfl hp
    · rw [if_neg hgone] at hp
      rw [if_neg]
      · exact Dict.mem_keys.mp (g.endpoints p (Dict.mem_keys.mpr hp) e he)
      · intro hmem
        rw [mem_pair] at he
        obtain rfl | rfl := he
        · exact hgone (.inl hmem)
        · exact hgone (.inr hmem)

def removeEdges (ps : List Pair) : Graph where
  nodes := g.nodes
  edges := g.edges.drop fun p => p ∈ ps
  endpoints p hp e he := by
    apply g.endpoints p _ e he
    rw [Dict.mem_keys, Dict.get_drop] at hp
    split at hp
    · exact absurd rfl hp
    · exact Dict.mem_keys.mpr hp

section

variable {g : Graph} {e e' : Name} {p q : Pair} {node : Node} {edge : Edge} {es : List Name}
  {ps : List Pair}

theorem hasNode_of_edge (h : g.getEdge p ≠ none) (he : e ∈ p) : g.hasNode e = true := by
  have hmem := g.endpoints p (Dict.mem_keys.mpr h) e he
  exact Option.isSome_iff_ne_none.mpr (Dict.mem_keys.mp hmem)

theorem mem_nodeEdges : p ∈ g.nodeEdges e ↔ g.getEdge p ≠ none ∧ e ∈ p := by
  rw [nodeEdges,mem_filter,Dict.mem_keys]
  simp [getEdge]

@[simp] theorem getNode_upsertNode :
    (g.upsertNode e node).getNode e' = if e' = e then some node else g.getNode e' := Dict.get_set

@[simp] theorem getEdge_upsertNode : (g.upsertNode e node).getEdge p = g.getEdge p := rfl

theorem getEdge_upsertEdge :
    (g.upsertEdge p edge).getEdge q = if q = p then some edge else g.getEdge q := Dict.get_set

theorem ensureNode_of_hasNode (h : g.hasNode e = true) : g.ensureNode e = g := if_pos h

theorem getNode_upsertEdge (h : ∀ e' ∈ p, g.hasNode e' = true) :
    (g.upsertEdge p edge).getNode e = g.getNode e := by
  have hinf := h p.inf (mem_pair.mpr (.inl rfl))
  have hsup := h p.sup (mem_pair.mpr (.inr rfl))
  unfold getNode upsertEdge
  simp only [ensureNode_of_hasNode hinf,ensureNode_of_hasNode hsup]

theorem getNode_removeNodes :
    (g.removeNodes es).getNode e = if e ∈ es then none else g.getNode e := Dict.get_drop

theorem mem_ends : (p.inf ∈ es ∨ p.sup ∈ es) ↔ ∃ e ∈ p, e ∈ es := by
  simp only [mem_pair]
  constructor
  · rintro (h | h)
    · exact ⟨p.inf,.inl rfl,h⟩
    · exact ⟨p.sup,.inr rfl,h⟩
  · rintro ⟨e,rfl | rfl,h⟩
    · exact .inl h
    · exact .inr h

theorem getEdge_removeNodes :
    (g.removeNodes es).getEdge p = if p.inf ∈ es ∨ p.sup ∈ es then none else g.getEdge p :=
  Dict.get_drop

theorem getEdge_removeEdges :
    (g.removeEdges ps).getEdge p = if p ∈ ps then none else g.getEdge p := Dict.get_drop

end

end Graph

end LightRAG.Knowledge

/-!
## The stores behind a document's knowledge

The graph, the tracking rows beside it, the recovery anchors of each document and what the status
row of a document says about its knowledge.
-/

namespace LightRAG.Knowledge

abbrev DocId := String

inductive KgWriteState
  | preGraph
  | graphMutationStarted
deriving DecidableEq

/-- `_KG_PURGE_PHASE_ORDER`. -/
inductive PurgePhase
  | prepared
  | derivedCommitted
  | anchorsPending
  | completed
deriving DecidableEq

def PurgePhase.index : PurgePhase → Nat
  | .prepared => 0
  | .derivedCommitted => 1
  | .anchorsPending => 2
  | .completed => 3

/-- What the digest of `make_kg_purge_operation_id` is taken of. -/
abbrev OperationId := DocId × Finset ChunkId

def makeKgPurgeOperationId (docId : DocId) (chunkIds : List ChunkId) : OperationId :=
  ⟨docId, chunkIds.toFinset⟩

/-- `metadata.kg_purge`. -/
structure PurgeJournal where
  operationId : OperationId
  phase : PurgePhase
deriving DecidableEq

/-- The candidates of an unfinished custom-chunk patch. -/
structure PatchJournal where
  entityNames : List Name
  relationPairs : List Pair
deriving DecidableEq

structure StatusRow where
  kgPurge : Option PurgeJournal
  kgWriteState : Option KgWriteState
  customChunkPatch : Option PatchJournal
deriving DecidableEq

structure Store where
  graph : Graph
  entityChunks : Dict Name (List ChunkId)
  relationChunks : Dict Pair (List ChunkId)
  fullEntities : Dict DocId (List Name)
  fullRelations : Dict DocId (List Pair)
  docStatus : Dict DocId StatusRow
  chunksVdb : List ChunkId
  textChunks : List ChunkId

/-- What the configuration says about source ids. -/
structure KgConfig where
  maxSourceIdsPerEntity : Nat
  maxSourceIdsPerRelation : Nat
  sourceIdsLimitMethod : LimitMethod
deriving DecidableEq

namespace Store

def getNode (s : Store) (e : Name) : Option Node := s.graph.getNode e

def getEdge (s : Store) (p : Pair) : Option Edge := s.graph.getEdge p

def entityRow (s : Store) (e : Name) : Option (List ChunkId) := s.entityChunks.get e

def relationRow (s : Store) (p : Pair) : Option (List ChunkId) := s.relationChunks.get p

def upsertNode (s : Store) (e : Name) (node : Node) : Store :=
  { s with graph := s.graph.upsertNode e node }

def upsertEdge (s : Store) (p : Pair) (edge : Edge) : Store :=
  { s with graph := s.graph.upsertEdge p edge }

def upsertEntityRow (s : Store) (e : Name) (ids : List ChunkId) : Store :=
  { s with entityChunks := s.entityChunks.set e ids }

def upsertRelationRow (s : Store) (p : Pair) (ids : List ChunkId) : Store :=
  { s with relationChunks := s.relationChunks.set p ids }

section

variable {s : Store} {e e' : Name} {p q : Pair} {node : Node} {edge : Edge} {ids : List ChunkId}

@[simp] theorem getNode_upsertNode :
    (s.upsertNode e node).getNode e' = if e' = e then some node else s.getNode e' :=
  Graph.getNode_upsertNode

@[simp] theorem getEdge_upsertNode : (s.upsertNode e node).getEdge p = s.getEdge p := rfl

@[simp] theorem entityRow_upsertNode : (s.upsertNode e node).entityRow e' = s.entityRow e' := rfl

@[simp] theorem relationRow_upsertNode :
    (s.upsertNode e node).relationRow p = s.relationRow p := rfl

@[simp] theorem getEdge_upsertEdge :
    (s.upsertEdge p edge).getEdge q = if q = p then some edge else s.getEdge q :=
  Graph.getEdge_upsertEdge

@[simp] theorem entityRow_upsertEdge : (s.upsertEdge p edge).entityRow e = s.entityRow e := rfl

@[simp] theorem relationRow_upsertEdge :
    (s.upsertEdge p edge).relationRow q = s.relationRow q := rfl

@[simp] theorem getNode_upsertEntityRow : (s.upsertEntityRow e ids).getNode e' = s.getNode e' := rfl

@[simp] theorem getEdge_upsertEntityRow : (s.upsertEntityRow e ids).getEdge p = s.getEdge p := rfl

@[simp] theorem entityRow_upsertEntityRow :
    (s.upsertEntityRow e ids).entityRow e' = if e' = e then some ids else s.entityRow e' :=
  Dict.get_set

@[simp] theorem relationRow_upsertEntityRow :
    (s.upsertEntityRow e ids).relationRow p = s.relationRow p := rfl

@[simp] theorem getNode_upsertRelationRow :
    (s.upsertRelationRow p ids).getNode e = s.getNode e := rfl

@[simp] theorem getEdge_upsertRelationRow :
    (s.upsertRelationRow p ids).getEdge q = s.getEdge q := rfl

@[simp] theorem entityRow_upsertRelationRow :
    (s.upsertRelationRow p ids).entityRow e = s.entityRow e := rfl

@[simp] theorem relationRow_upsertRelationRow :
    (s.upsertRelationRow p ids).relationRow q = if q = p then some ids else s.relationRow q :=
  Dict.get_set

end

theorem getNode_of_edge {s : Store} {p : Pair} {e : Name} (h : s.getEdge p ≠ none) (he : e ∈ p) :
    s.getNode e ≠ none :=
  Option.isSome_iff_ne_none.mp (Graph.hasNode_of_edge h he)

end Store

end LightRAG.Knowledge
