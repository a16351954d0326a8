import LightRAG.Storage.VectorStores

/-!
# The Faiss index and its metadata

`FaissVectorDBStorage` keeps the vectors in an `IndexFlatIP`, which numbers them, and the rows in
`_id_to_meta` under these numbers.
-/

namespace LightRAG.FaissIndex

open VectorStores (Row Fields rowIsStrictlyNewer)
open VectorStores.Storage (Redo)

variable {V F : Type}

/-- A row of `_id_to_meta`. -/
structure Metadata (V : Type) where
  id : String
  row : Row
  vector : Option V
deriving DecidableEq

/-- `_PendingFaissDoc` -/
structure PendingDoc (V : Type) where
  row : Row
  vector : Option V
deriving DecidableEq

/-- A materialized `_PendingFaissDoc`: its vector is set. -/
structure FlushedDoc (V : Type) where
  row : Row
  vector : V
deriving DecidableEq

def FlushedDoc.record (x : String) (doc : FlushedDoc V) : Metadata V := ⟨x, doc.row, some doc.vector⟩

/-- The two files; the metadata is stored without the vectors. -/
structure Files (V : Type) where
  index : List V
  metadata : Dict ℕ (String × Row)

structure Storage (V F : Type) where
  index : List V
  idToMeta : Dict ℕ (Metadata V)
  pendingUpserts : Dict String (PendingDoc V)
  pendingDeletes : List String
  unsavedDeletes : Dict String (List F)
  unsavedUpserts : Dict String (FlushedDoc V)
  indexDirty : Bool

structure Outcome (V F : Type) where
  storage : Storage V F
  returns : Bool

def Outcome.next (r : Outcome V F) (k : Storage V F → Outcome V F) : Outcome V F :=
  if r.returns then k r.storage else r

/-- The errors a flush meets: what the calls of the embedding function give, if they all return,
and which index operations raise. -/
structure Faults (V : Type) where
  embeddings : Option (List V)
  deletesFail : Bool
  replayFails : Bool
  writeFails : Bool

namespace Storage

def loadFaissIndex (files : Files V) (s : Storage V F) : Storage V F :=
  { s with
    index := files.index
    idToMeta := files.metadata.filterMap fun fid entry =>
      files.index[fid]?.map fun v => ⟨entry.1, entry.2, some v⟩ }

/-- `__post_init__` -/
def start (files : Files V) : Storage V F :=
  loadFaissIndex files ⟨[], .empty, .empty, [], .empty, .empty, false⟩

variable (s : Storage V F)

def files : Files V where
  index := s.index
  metadata := s.idToMeta.filterMap fun _ m => some (m.id, m.row)

def upsert (currentTime writeSeq : ℕ) (data : Dict String Fields) (s : Storage V F) :
    Storage V F :=
  let pending := data.filterMap fun _ fields =>
    some (PendingDoc.mk (Row.mk (some writeSeq) currentTime fields) none)
  { s with
    pendingDeletes := s.pendingDeletes.filter fun x => x ∉ pending.keys
    pendingUpserts := s.pendingUpserts.overwrite pending }

def delete (ids : List String) (s : Storage V F) : Storage V F :=
  { s with
    pendingUpserts := s.pendingUpserts.drop (· ∈ ids)
    unsavedUpserts := s.unsavedUpserts.drop (· ∈ ids)
    pendingDeletes := s.pendingDeletes ++ ids }

def dropPendingIndexOps : Storage V F :=
  { s with pendingUpserts := .empty, pendingDeletes := [] }

/-- `get_vectors_by_ids` keeps the vectors it computes for buffered rows. -/
def cacheVectors (vectors : Dict String V) (s : Storage V F) : Storage V F :=
  { s with
    pendingUpserts := s.pendingUpserts.filterMap fun x doc =>
      some { doc with vector := doc.vector.or (vectors.get x) } }

/-- The embedding of a flush is kept, also when the flush raises later. -/
def cache (docs : List (String × FlushedDoc V)) (s : Storage V F) : Storage V F :=
  { s with
    pendingUpserts := s.pendingUpserts.update
      (docs.map fun e => (e.1, ⟨e.2.row, some e.2.vector⟩)) }

def committed : Storage V F :=
  { s with unsavedDeletes := .empty, unsavedUpserts := .empty, indexDirty := false }

/-- `_find_faiss_ids_by_custom_id` -/
def findFaissIds (x : String) : List ℕ :=
  s.idToMeta.entries.filterMap fun e => if e.2.id = x then some e.1 else none

/-- A row that has no `__vector__` gets the one of the index. -/
def attach (dropFids : List ℕ) : Dict ℕ (Metadata V) :=
  s.idToMeta.filterMap fun fid m =>
    some (if fid ∈ dropFids then m else { m with vector := m.vector.or s.index[fid]? })

/-- The rows of a rebuilt index, in their new order. -/
def rebuilt (dropFids : List ℕ) (addRecords : List (Metadata V)) :
    List (Metadata V) :=
  ((s.attach dropFids).entries.filterMap fun e =>
    if e.1 ∈ dropFids ∨ e.2.vector = none then none else some e.2) ++ addRecords

/-- `_rebuild_index_locked`, and whether it returns. -/
def rebuildIndexLocked (fails : Bool) (dropFids : List ℕ) (addRecords : List (Metadata V))
    (s : Storage V F) : Outcome V F :=
  if dropFids = [] ∧ addRecords = [] then ⟨s, true⟩
  else if fails then ⟨{ s with idToMeta := s.attach dropFids }, false⟩
  else
    let rows := s.rebuilt dropFids addRecords
    ⟨{ s with index := rows.filterMap Metadata.vector, idToMeta := .numbered rows }, true⟩

def removeFaissIdsLocked (fails : Bool) (fids : List ℕ) (s : Storage V F) : Outcome V F :=
  if fids = [] then ⟨s, true⟩ else s.rebuildIndexLocked fails fids []

/-- New rows behind the others: `self._index.add` and their numbers. -/
def addRecords (fails : Bool) (records : List (Metadata V)) (s : Storage V F) :
    Outcome V F :=
  if fails then ⟨s, false⟩
  else
    ⟨{ s with
        index := s.index ++ records.filterMap Metadata.vector
        idToMeta := s.idToMeta.update (positions s.index.length records) }, true⟩

section

variable [DecidableEq F] (rowFingerprint : String → Row → F)

structure Removal (F : Type) where
  fid : ℕ
  id : String
  fingerprint : F

def removals (p : Metadata V → Bool) (s : Storage V F) : List (Removal F) :=
  s.idToMeta.entries.filterMap fun e =>
    if p e.2 then some ⟨e.1, e.2.id, rowFingerprint e.2.id e.2.row⟩ else none

/-- A queued delete takes away whatever row its id has, a logged one the versions it names. -/
def isDeleted (s : Storage V F) (m : Metadata V) : Bool :=
  decide (m.id ∈ s.pendingDeletes) ||
    decide (rowFingerprint m.id m.row ∈ (s.unsavedDeletes.get m.id).getD [])

def matched (s : Storage V F) : List (Removal F) :=
  s.removals rowFingerprint (s.isDeleted rowFingerprint)

def logRemovals (removals : List (Removal F)) (log : Dict String (List F)) :
    Dict String (List F) :=
  log.mergeWith (fun logged fingerprints => logged.getD [] ∪ fingerprints)
    (.collect (removals.map fun r => (r.id, [r.fingerprint])))

/-- The first part of `_flush_pending_locked`. -/
def applyDeletes (fails : Bool) (s : Storage V F) : Outcome V F :=
  if s.pendingDeletes = [] ∧ s.unsavedDeletes.keys = [] then ⟨s, true⟩
  else
    let removals := s.matched rowFingerprint
    (s.removeFaissIdsLocked fails (removals.map Removal.fid)).next fun s =>
      ⟨{ s with
          indexDirty := s.indexDirty || decide (removals ≠ [])
          unsavedDeletes := logRemovals removals s.unsavedDeletes
          pendingDeletes := [] }, true⟩

def residents (s : Storage V F) (x : String) : List (Metadata V) :=
  (s.findFaissIds x).filterMap s.idToMeta.get

def redo (s : Storage V F) (x : String) (doc : FlushedDoc V) : Redo :=
  if x ∈ s.pendingUpserts.keys then .skip
  else if (s.residents x).map (fun m => rowFingerprint m.id m.row) = [rowFingerprint x doc.row] then
    .skip
  else if (s.residents x).any fun m => rowIsStrictlyNewer (some m.row) doc.row then .superseded
  else .replay

/-- The second part of `_flush_pending_locked`. -/
def replayUpserts (fails : Bool) (s : Storage V F) : Outcome V F :=
  let replayed := s.unsavedUpserts.entries.filter fun e => s.redo rowFingerprint e.1 e.2 = .replay
  let kept : Storage V F :=
    { s with
      unsavedUpserts := s.unsavedUpserts.filterMap fun x doc =>
        if s.redo rowFingerprint x doc = .superseded then none else some doc }
  if replayed = [] then ⟨kept, true⟩
  else
    (kept.rebuildIndexLocked fails (replayed.flatMap fun e => s.findFaissIds e.1)
      (replayed.map fun e => e.2.record e.1)).next fun s => ⟨{ s with indexDirty := true }, true⟩

/-- The buffered upserts with their vectors, if there is exactly one embedding for each of them
that has no vector. -/
def embedded : List (String × PendingDoc V) → List V → Option (List (String × FlushedDoc V))
  | [], [] => some []
  | [], _ :: _ => none
  | (x, ⟨row, some v⟩) :: pending, vs =>
    (embedded pending vs).map fun docs => (x, ⟨row, v⟩) :: docs
  | (_, ⟨_, none⟩) :: _, [] => none
  | (x, ⟨row, none⟩) :: pending, v :: vs =>
    (embedded pending vs).map fun docs => (x, ⟨row, v⟩) :: docs

def embed (embeddings : Option (List V)) (pending : List (String × PendingDoc V)) :
    Option (List (String × FlushedDoc V)) :=
  if pending.all fun e => e.2.vector.isSome then embedded pending []
  else embeddings.bind (embedded pending)

/-- The last part of `_flush_pending_locked`, after the embedding. -/
def materialize (fails : Bool) (docs : List (String × FlushedDoc V)) (s : Storage V F) :
    Outcome V F :=
  let existingFids := docs.flatMap fun e => s.findFaissIds e.1
  let records := docs.map fun e => e.2.record e.1
  (if existingFids ≠ [] then s.rebuildIndexLocked fails existingFids records
    else s.addRecords fails records).next fun s =>
      ⟨{ s with
          indexDirty := true
          unsavedUpserts := s.unsavedUpserts.update docs
          pendingUpserts := s.pendingUpserts.drop (· ∈ docs.map Prod.fst) }, true⟩

def writePending (faults : Faults V) (s : Storage V F) : Outcome V F :=
  if s.pendingUpserts.keys = [] then ⟨s, true⟩
  else
    match embed faults.embeddings s.pendingUpserts.entries with
    | none => ⟨s, false⟩
    | some docs => (s.cache docs).materialize faults.writeFails docs

def buffered (s : Storage V F) : Bool :=
  decide (s.pendingUpserts.keys ≠ [] ∨ s.pendingDeletes ≠ [] ∨ s.unsavedDeletes.keys ≠ [] ∨
    s.unsavedUpserts.keys ≠ [])

/-- `_flush_pending_locked`, and whether it returns. -/
def flushPendingLocked (faults : Faults V) (s : Storage V F) : Outcome V F :=
  if s.buffered then
    ((s.applyDeletes rowFingerprint faults.deletesFail).next
      (replayUpserts rowFingerprint faults.replayFails)).next (writePending faults)
  else ⟨s, true⟩

def relations (entityName : String) (s : Storage V F) : List (Removal F) :=
  s.removals rowFingerprint fun m => m.row.mentions entityName

def pruneRelations (entityName : String) (s : Storage V F) : Storage V F :=
  { s with
    pendingUpserts := s.pendingUpserts.filterMap fun _ doc =>
      if doc.row.mentions entityName then none else some doc
    unsavedUpserts := s.unsavedUpserts.filterMap fun _ doc =>
      if doc.row.mentions entityName then none else some doc }

/-- `delete_entity_relation`, after its reload. -/
def deleteEntityRelation (fails : Bool) (entityName : String) (s : Storage V F) :
    Outcome V F :=
  let removals := s.relations rowFingerprint entityName
  (if removals = [] then ⟨s, true⟩
    else (s.removeFaissIdsLocked fails (removals.map Removal.fid)).next fun s =>
      ⟨{ s with
          pendingDeletes := s.pendingDeletes.filter fun x => x ∉ removals.map Removal.id
          unsavedDeletes := logRemovals removals s.unsavedDeletes
          indexDirty := true }, true⟩).next fun s => ⟨s.pruneRelations entityName, true⟩

end

end Storage
end LightRAG.FaissIndex
