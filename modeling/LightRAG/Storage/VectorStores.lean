import LightRAG.Framework.Dict
import LightRAG.Framework.Run

/-!
# File-backed vector stores

`NanoVectorDBStorage` and `FaissVectorDBStorage` keep all rows in memory and publish them as one
snapshot file.
-/

namespace LightRAG.VectorStores

inductive Backend
  | nano
  | faiss
deriving DecidableEq

/-- The `meta_fields` of a record. -/
structure Fields where
  srcId : Option String
  tgtId : Option String
  content : String
deriving DecidableEq

structure Row where
  writeSeq : Option ℕ
  createdAt : ℕ
  fields : Fields
deriving DecidableEq

namespace Row

def mentions (row : Row) (entityName : String) : Bool :=
  row.fields.srcId == some entityName || row.fields.tgtId == some entityName

end Row

def rowIsStrictlyNewer (candidate : Option Row) (reference : Row) : Bool :=
  match candidate with
  | none => false
  | some candidate =>
    match candidate.writeSeq, reference.writeSeq with
    | some candidateSeq, some referenceSeq => decide (referenceSeq < candidateSeq)
    | _, _ => decide (reference.createdAt < candidate.createdAt)

/-- The class, with the two digests it computes. -/
structure Impl (F : Type) where
  backend : Backend
  rowFingerprint : Row → F
  entityId : String → String

/-- The file on disk and what `stat` says of it. -/
structure File where
  rows : Dict String Row
  fingerprint : ℕ

structure Storage (F : Type) where
  client : Dict String Row
  loadedFingerprint : ℕ
  storageUpdated : Bool
  pendingUpserts : Dict String Row
  pendingDeletes : List String
  unsavedDeletes : Dict String (List F)
  unsavedUpserts : Dict String Row
  clientDirty : Bool

inductive SaveOutcome
  -- Of the pair of Faiss files the first may be replaced; the ids are those the pair then lacks.
  | failed (fingerprint : ℕ) (lost : List String)
  -- The file is written and its publication fails.
  | unannounced (fingerprint : ℕ) (updated : Bool)
  | announced (fingerprint : ℕ)
deriving DecidableEq

variable {F : Type} [DecidableEq F] (impl : Impl F)

namespace Storage

variable {impl} in
def load (file : File) : Storage F where
  client := file.rows
  loadedFingerprint := file.fingerprint
  storageUpdated := false
  pendingUpserts := .empty
  pendingDeletes := []
  unsavedDeletes := .empty
  unsavedUpserts := .empty
  clientDirty := false

/-- The two tests of `_reload_client_from_disk_locked`. -/
def reloadDue (file : File) (s : Storage F) : Bool :=
  s.storageUpdated || decide (file.fingerprint ≠ s.loadedFingerprint)

def reload (file : File) (s : Storage F) : Storage F :=
  if s.reloadDue file then
    { s with
      client := file.rows
      loadedFingerprint := file.fingerprint
      storageUpdated := false }
  else s

def upsert (currentTime writeSeq : ℕ) (data : Dict String Fields) (s : Storage F) : Storage F :=
  let pending := data.filterMap fun _ fields => some (Row.mk (some writeSeq) currentTime fields)
  { s with
    pendingDeletes := s.pendingDeletes.filter fun x => x ∉ pending.keys
    pendingUpserts := s.pendingUpserts.overwrite pending }

def delete (ids : List String) (s : Storage F) : Storage F :=
  { s with
    pendingUpserts := s.pendingUpserts.drop (· ∈ ids)
    unsavedUpserts := s.unsavedUpserts.drop (· ∈ ids)
    pendingDeletes := s.pendingDeletes ++ ids }

/-- What `_unsaved_deletes` holds for an id after the removal of one more of its rows: the Nano
dictionary has room for one fingerprint, the Faiss one for a set of them. -/
def logRemoval (backend : Backend) (logged : List F) (fingerprint : F) : List F :=
  match backend with
  | .nano => [fingerprint]
  | .faiss => logged.insert fingerprint

variable (s : Storage F)

/-- The rows the delete part of a flush removes, with their fingerprints. -/
def matched : Dict String F :=
  s.client.filterMap fun x row =>
    let fingerprint := impl.rowFingerprint row
    if x ∈ s.pendingDeletes then some fingerprint
    else if fingerprint ∈ (s.unsavedDeletes.get x).getD [] then some fingerprint
    else none

/-- The removal of rows of the client and its record in the redo log. -/
def remove (rows : Dict String F) (s : Storage F) : Storage F :=
  { s with
    client := s.client.drop (· ∈ rows.keys)
    pendingDeletes := s.pendingDeletes.filter fun x => x ∉ rows.keys
    unsavedDeletes := s.unsavedDeletes.mergeWith
      (fun logged => logRemoval impl.backend (logged.getD [])) rows
    clientDirty := s.clientDirty || decide (rows.keys ≠ []) }

/-- The first part of `_flush_pending_locked`. -/
def applyDeletes : Storage F :=
  { s.remove impl (s.matched impl) with pendingDeletes := [] }

inductive Redo
  | skip
  | superseded
  | replay
deriving DecidableEq

/-- What the flush does with an entry of the upsert redo log. -/
def redo (x : String) (record : Row) : Redo :=
  if x ∈ s.pendingUpserts.keys then .skip
  else
    match s.client.get x with
    | none => .replay
    | some resident =>
      if impl.rowFingerprint resident = impl.rowFingerprint record then .skip
      else if rowIsStrictlyNewer (some resident) record then .superseded
      else .replay

/-- The second part of `_flush_pending_locked`. -/
def replayUpserts : Storage F :=
  let replayData := s.unsavedUpserts.filterMap fun x record =>
    if s.redo impl x record = .replay then some record else none
  { s with
    client := s.client.overwrite replayData
    unsavedUpserts := s.unsavedUpserts.filterMap fun x record =>
      if s.redo impl x record = .superseded then none else some record
    clientDirty := s.clientDirty || decide (replayData.keys ≠ []) }

def materialize : Storage F :=
  { s with
    client := s.client.overwrite s.pendingUpserts
    unsavedUpserts := s.unsavedUpserts.overwrite s.pendingUpserts
    pendingUpserts := .empty
    clientDirty := true }

def buffered : Bool :=
  decide (s.pendingUpserts.keys ≠ [] ∨ s.pendingDeletes ≠ [] ∨ s.unsavedDeletes.keys ≠ [] ∨
    s.unsavedUpserts.keys ≠ [])

/-- `_flush_pending_locked`, and whether it returns; `embeds` says whether the call of the
embedding function gives a vector for each record. -/
def flushPendingLocked (embeds : Bool) (s : Storage F) : Storage F × Bool :=
  if s.buffered then
    let s := (s.applyDeletes impl).replayUpserts impl
    if s.pendingUpserts.keys = [] then (s, true)
    else if embeds then (s.materialize, true)
    else (s, false)
  else (s, true)

def saveLocked (outcome : SaveOutcome) (file : File) (s : Storage F) : Storage F × File :=
  match outcome with
  | .failed fingerprint lost =>
    match impl.backend with
    | .nano => (s, file)
    | .faiss =>
      ({ s with loadedFingerprint := fingerprint }, ⟨file.rows.drop (· ∈ lost), fingerprint⟩)
  | .unannounced fingerprint updated =>
    ({ s with loadedFingerprint := fingerprint, storageUpdated := updated },
      ⟨s.client, fingerprint⟩)
  | .announced fingerprint =>
    ({ s with
        loadedFingerprint := fingerprint
        storageUpdated := false
        unsavedDeletes := .empty
        unsavedUpserts := .empty
        clientDirty := false }, ⟨s.client, fingerprint⟩)

def indexDoneCallback (embeds : Bool) (outcome : SaveOutcome) (file : File) (s : Storage F) :
    Storage F × File :=
  let flushed := (s.reload file).flushPendingLocked impl embeds
  if flushed.2 then flushed.1.saveLocked impl outcome file else (flushed.1, file)

def reloadClean (file : File) (s : Storage F) : Storage F :=
  if s.reloadDue file then { s.reload file with clientDirty := false } else s

def finalize (embeds : Bool) (outcome : SaveOutcome) (file : File) (s : Storage F) :
    Storage F × File :=
  if s.buffered || s.clientDirty then
    let flushed := (s.reloadClean file).flushPendingLocked impl embeds
    if flushed.2 && flushed.1.clientDirty then flushed.1.saveLocked impl outcome file
    else (flushed.1, file)
  else (s, file)

/-- `delete_entity` of the Nano store, under the lock. -/
def removeEntity (x : String) (s : Storage F) : Storage F :=
  let rows := s.client.filterMap fun y row =>
    if y = x then some (impl.rowFingerprint row) else none
  { s.remove impl rows with
    pendingUpserts := s.pendingUpserts.drop (· = x)
    unsavedUpserts := s.unsavedUpserts.drop (· = x) }

def deleteEntity (entityName : String) (file : File) (s : Storage F) : Storage F :=
  match impl.backend with
  | .nano => (s.reload file).removeEntity impl (impl.entityId entityName)
  | .faiss => s.delete [impl.entityId entityName]

def removeRelations (entityName : String) (s : Storage F) : Storage F :=
  let rows := s.client.filterMap fun _ row =>
    if row.mentions entityName then some (impl.rowFingerprint row) else none
  let unrelated := fun (_ : String) (row : Row) => if row.mentions entityName then none else some row
  { s.remove impl rows with
    pendingUpserts := s.pendingUpserts.filterMap unrelated
    unsavedUpserts := s.unsavedUpserts.filterMap unrelated }

def deleteEntityRelation (entityName : String) (file : File) (s : Storage F) : Storage F :=
  (s.reload file).removeRelations impl entityName

/-- What a read of an id takes from the buffers under the lock. -/
inductive Peek (F : Type)
  | answered (row : Option Row)
  | deferred (redo : Option Row) (logged : List F)
deriving DecidableEq

/-- The first half of `get_by_id`, `get_by_ids` and `get_vectors_by_ids`. -/
def peek (x : String) : Peek F :=
  match s.pendingUpserts.get x with
  | some row => .answered (some row)
  | none =>
    if x ∈ s.pendingDeletes then .answered none
    else .deferred (s.unsavedUpserts.get x) ((s.unsavedDeletes.get x).getD [])

def resolve (x : String) : Peek F → Option Row
  | .answered row => row
  | .deferred (some redo) _ =>
    if rowIsStrictlyNewer (s.client.get x) redo then s.client.get x else some redo
  | .deferred none logged =>
    match s.client.get x with
    | some resident => if impl.rowFingerprint resident ∈ logged then none else some resident
    | none => none

def Peek.isDeferred : Peek F → Bool
  | .answered _ => false
  | .deferred _ _ => true

end Storage
end LightRAG.VectorStores
