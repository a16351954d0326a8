import LightRAG.Framework.Run
import LightRAG.Knowledge.Rebuild

/-!
# What is on disk

The graph storage is durable from `index_done_callback` on. A tracking storage writes through, or is
durable from its own callback on.
-/

namespace LightRAG.Knowledge

namespace Store

variable (s : Store) (o : Object)

def upsertRow (ids : List ChunkId) : Store :=
  match o with
  | .entity e => s.upsertEntityRow e ids
  | .relation p => s.upsertRelationRow p ids

def deleteRow : Store :=
  match o with
  | .entity e => { s with entityChunks := s.entityChunks.drop fun e' => e' = e }
  | .relation p => { s with relationChunks := s.relationChunks.drop fun q => q = p }

def withGraph (f : Graph → Graph) : Store := { s with graph := f s.graph }

end Store

structure Stores where
  mem : Store
  disk : Store

/-- The tracking storages that are durable from their callback on. -/
structure Backend where
  entitiesDeferred : Bool
  relationsDeferred : Bool
deriving DecidableEq

def Backend.deferred (b : Backend) : Object → Bool
  | .entity _ => b.entitiesDeferred
  | .relation _ => b.relationsDeferred

inductive KgWrite
  | upsertRow (o : Object) (ids : List ChunkId)
  | deleteRow (o : Object)
  | upsertNode (e : Name) (sourceId : List ChunkId)
  | upsertEdge (p : Pair) (sourceId : Option (List ChunkId))
  | deleteNode (e : Name)
  | removeEdge (p : Pair)
  | persistTracking (entities relations : Bool)
  | commitGraph
deriving DecidableEq

namespace Stores

def writeRow (b : Backend) (o : Object) (f : Store → Store) (s : Stores) : Stores :=
  ⟨f s.mem, if b.deferred o then s.disk else f s.disk⟩

def writeGraph (f : Graph → Graph) (s : Stores) : Stores := ⟨s.mem.withGraph f, s.disk⟩

def persistTracking (entities relations : Bool) (s : Stores) : Stores where
  mem := s.mem
  disk := { s.disk with
    entityChunks := if entities then s.mem.entityChunks else s.disk.entityChunks
    relationChunks := if relations then s.mem.relationChunks else s.disk.relationChunks }

def commitGraph (s : Stores) : Stores := ⟨s.mem, { s.disk with graph := s.mem.graph }⟩

def reloadGraph (s : Stores) : Stores := ⟨{ s.mem with graph := s.disk.graph }, s.disk⟩

end Stores

namespace KgWrite

def write (b : Backend) : KgWrite → Stores → Stores
  | .upsertRow o ids => Stores.writeRow b o fun s => s.upsertRow o ids
  | .deleteRow o => Stores.writeRow b o fun s => s.deleteRow o
  | .upsertNode e sourceId => Stores.writeGraph fun g => g.upsertNode e ⟨true, sourceId⟩
  | .upsertEdge p sourceId => Stores.writeGraph fun g => g.upsertEdge p ⟨sourceId⟩
  | .deleteNode e => Stores.writeGraph fun g => g.removeNodes [e]
  | .removeEdge p => Stores.writeGraph fun g => g.removeEdges [p]
  | .persistTracking entities relations => Stores.persistTracking entities relations
  | .commitGraph => Stores.commitGraph

/-- The callbacks of two storages may get to either of them only, and the graph may decline. -/
inductive Partly : KgWrite → Stores → Stores → Prop
  | persist (s : Stores) {entities relations entities' relations' : Bool}
      (he : entities' = true → entities = true) (hr : relations' = true → relations = true) :
      Partly (.persistTracking entities relations) s (s.persistTracking entities' relations')
  | declined (s : Stores) : Partly .commitGraph s s.reloadGraph

end KgWrite

def kgWriter (b : Backend) : Writer Stores KgWrite := ⟨KgWrite.write b, KgWrite.Partly⟩

section

variable {s : Store} {o : Object} {ids : List ChunkId}

@[simp] theorem graph_upsertRow : (s.upsertRow o ids).graph = s.graph := by
  cases o <;> rfl

@[simp] theorem graph_deleteRow : (s.deleteRow o).graph = s.graph := by
  cases o <;> rfl

/-- Whether the callbacks get to the storage of an object. -/
def Object.among (entities relations : Bool) : Object → Bool
  | .entity _ => entities
  | .relation _ => relations

end

end LightRAG.Knowledge
