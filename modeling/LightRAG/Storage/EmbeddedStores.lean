import LightRAG.Storage.FaissIndex

/-!
# Vector stores with their vectors

The file-backed stores once more, with what the embedding gives: a buffered upsert has no vector
yet, and the vector it gets goes with its row into the client, the redo log and the file.
-/

namespace LightRAG.EmbeddedStores

open VectorStores (Row Fields SaveOutcome rowIsStrictlyNewer)
open VectorStores.Storage (Redo logRemoval)
open FaissIndex (PendingDoc FlushedDoc)

/-- The class, with the digests it computes: the Nano one covers the vector too. -/
structure Impl (V F : Type) where
  backend : VectorStores.Backend
  rowFingerprint : FlushedDoc V → F
  entityId : String → String

structure File (V : Type) where
  rows : Dict String (FlushedDoc V)
  fingerprint : ℕ

structure Storage (V F : Type) where
  client : Dict String (FlushedDoc V)
  loadedFingerprint : ℕ
  storageUpdated : Bool
  pendingUpserts : Dict String (PendingDoc V)
  pendingDeletes : List String
  unsavedDeletes : Dict String (List F)
  unsavedUpserts : Dict String (FlushedDoc V)
  clientDirty : Bool

variable {V F : Type} [DecidableEq F] (impl : Impl V F)

namespace Storage

def load (file : File V) : Storage V F where
  client := file.rows
  loadedFingerprint := file.fingerprint
  storageUpdated := false
  pendingUpserts := .empty
  pendingDeletes := []
  unsavedDeletes := .empty
  unsavedUpserts := .empty
  clientDirty := false

def reloadDue (file : File V) (s : Storage V F) : Bool :=
  s.storageUpdated || decide (file.fingerprint ≠ s.loadedFingerprint)

def reload (file : File V) (s : Storage V F) : Storage V F :=
  if s.reloadDue file then
    { s with
      client := file.rows
      loadedFingerprint := file.fingerprint
      storageUpdated := false }
  else s

def reloadClean (file : File V) (s : Storage V F) : Storage V F :=
  if s.reloadDue file then { s.reload file with clientDirty := false } else s

def upsert (currentTime writeSeq : ℕ) (data : Dict String Fields) (s : Storage V F) :
    Storage V F :=
  let pending := data.filterMap fun _ fields =>
    some (PendingDoc.mk (Row.mk (some writeSeq) currentTime fields) none)
  { s with
    pendingDeletes := s.pendingDeletes.filter fun x => x ∉ pending.keys
    pendingUpserts := s.pendingUpserts.overwrite pending }

def delete (ids : List String) (s : Storage V F) : Storage V F :=
  { s with
    pendingUpserts := s.pendingUpserts.drop (· ∈ ids)
    unsavedUpserts := s.unsavedUpserts.drop (· ∈ ids)
    pendingDeletes := s.pendingDeletes ++ ids }

variable (s : Storage V F)

def dropPendingIndexOps : Storage V F :=
  { s with pendingUpserts := .empty, pendingDeletes := [] }

def matched : Dict String F :=
  s.client.filterMap fun x doc =>
    let fingerprint := impl.rowFingerprint doc
    if x ∈ s.pendingDeletes then some fingerprint
    else if fingerprint ∈ (s.unsavedDeletes.get x).getD [] then some fingerprint
    else none

/-- The removal of rows of the client and its record in the redo log. -/
def remove (rows : Dict String F) (s : Storage V F) : Storage V F :=
  { s with
    client := s.client.drop (· ∈ rows.keys)
    pendingDeletes := s.pendingDeletes.filter fun x => x ∉ rows.keys
    unsavedDeletes := s.unsavedDeletes.mergeWith
      (fun logged => logRemoval impl.backend (logged.getD [])) rows
    clientDirty := s.clientDirty || decide (rows.keys ≠ []) }

def applyDeletes : Storage V F :=
  { s.remove impl (s.matched impl) with pendingDeletes := [] }

def redo (x : String) (doc : FlushedDoc V) : Redo :=
  if x ∈ s.pendingUpserts.keys then .skip
  else
    match s.client.get x with
    | none => .replay
    | some resident =>
      if impl.rowFingerprint resident = impl.rowFingerprint doc then .skip
      else if rowIsStrictlyNewer (some resident.row) doc.row then .superseded
      else .replay

def replayUpserts : Storage V F :=
  let replayData := s.unsavedUpserts.filterMap fun x doc =>
    if s.redo impl x doc = .replay then some doc else none
  { s with
    client := s.client.overwrite replayData
    unsavedUpserts := s.unsavedUpserts.filterMap fun x doc =>
      if s.redo impl x doc = .superseded then none else some doc
    clientDirty := s.clientDirty || decide (replayData.keys ≠ []) }

def embed (p : String → Prop) [DecidablePred p] (vectors : String → V) (s : Storage V F) :
    Storage V F :=
  { s with
    pendingUpserts := s.pendingUpserts.filterMap fun x doc =>
      some (if p x then { doc with vector := some (doc.vector.getD (vectors x)) } else doc) }

def materialize : Storage V F :=
  let docs := s.pendingUpserts.filterMap fun _ doc =>
    doc.vector.map fun vector => FlushedDoc.mk doc.row vector
  { s with
    client := s.client.overwrite docs
    unsavedUpserts := s.unsavedUpserts.overwrite docs
    pendingUpserts := .empty
    clientDirty := true }

def buffered : Bool :=
  decide (s.pendingUpserts.keys ≠ [] ∨ s.pendingDeletes ≠ [] ∨ s.unsavedDeletes.keys ≠ [] ∨
    s.unsavedUpserts.keys ≠ [])

/-- Whether the embedding function is called for an id. -/
def toEmbed (x : String) : Bool :=
  (s.pendingUpserts.get x).any fun doc => doc.vector.isNone

def writePending (embeddings : Option (String → V)) (s : Storage V F) : Storage V F × Bool :=
  if s.pendingUpserts.keys = [] then (s, true)
  else if s.pendingUpserts.keys.any s.toEmbed then
    match embeddings with
    | none => (s, false)
    | some vectors => ((s.embed (fun _ => True) vectors).materialize, true)
  else (s.materialize, true)

/-- `_flush_pending_locked`, and whether it returns; the embeddings are `none` if the function
raises or does not give one for each document. -/
def flushPendingLocked (embeddings : Option (String → V)) (s : Storage V F) :
    Storage V F × Bool :=
  if s.buffered then ((s.applyDeletes impl).replayUpserts impl).writePending embeddings
  else (s, true)

def saveLocked (outcome : SaveOutcome) (file : File V) (s : Storage V F) :
    Storage V F × File V :=
  match outcome with
  | .failed fingerprint lost =>
    match impl.backend with
    | .nano => (s, file)
    | .faiss =>
      ({ s with loadedFingerprint := fingerprint }, ⟨file.rows.drop (· ∈ lost), fingerprint⟩)
  | .unannounced fingerprint updated =>
    ({ s with loadedFingerprint := fingerprint, storageUpdated := updated },
      ⟨s.client, fingerprint⟩)
  | .announced fingerprint =>
    ({ s with
        loadedFingerprint := fingerprint
        storageUpdated := false
        unsavedDeletes := .empty
        unsavedUpserts := .empty
        clientDirty := false }, ⟨s.client, fingerprint⟩)

def indexDoneCallback (embeddings : Option (String → V)) (outcome : SaveOutcome) (file : File V)
    (s : Storage V F) : Storage V F × File V :=
  let flushed := (s.reload file).flushPendingLocked impl embeddings
  if flushed.2 then flushed.1.saveLocked impl outcome file else (flushed.1, file)

def finalize (embeddings : Option (String → V)) (outcome : SaveOutcome) (file : File V)
    (s : Storage V F) : Storage V F × File V :=
  if s.buffered || s.clientDirty then
    let flushed := (s.reloadClean file).flushPendingLocked impl embeddings
    if flushed.2 && flushed.1.clientDirty then flushed.1.saveLocked impl outcome file
    else (flushed.1, file)
  else (s, file)

/-- `drop`, once the files are gone. If the client cannot be replaced, it is stale. -/
def drop (reset updated : Bool) (fingerprint : ℕ) (s : Storage V F) : Storage V F × File V :=
  let cleared : Storage V F :=
    { s with
      pendingUpserts := .empty
      pendingDeletes := []
      unsavedDeletes := .empty
      unsavedUpserts := .empty }
  if reset then
    ({ cleared with
        client := .empty
        clientDirty := false
        loadedFingerprint := fingerprint
        storageUpdated := updated }, ⟨.empty, fingerprint⟩)
  else
    match impl.backend with
    | .nano => ({ cleared with storageUpdated := true }, ⟨.empty, fingerprint⟩)
    | .faiss => ({ cleared with client := .empty, clientDirty := false, storageUpdated := true },
        ⟨.empty, fingerprint⟩)

/-- `delete_entity` of the Nano store. -/
def removeEntity (x : String) (s : Storage V F) : Storage V F :=
  let rows := s.client.filterMap fun y doc =>
    if y = x then some (impl.rowFingerprint doc) else none
  { s.remove impl rows with
    pendingUpserts := s.pendingUpserts.drop (· = x)
    unsavedUpserts := s.unsavedUpserts.drop (· = x) }

def removeRelations (entityName : String) (s : Storage V F) : Storage V F :=
  let rows := s.client.filterMap fun _ doc =>
    if doc.row.mentions entityName then some (impl.rowFingerprint doc) else none
  { s.remove impl rows with
    pendingUpserts := s.pendingUpserts.filterMap fun _ doc =>
      if doc.row.mentions entityName then none else some doc
    unsavedUpserts := s.unsavedUpserts.filterMap fun _ doc =>
      if doc.row.mentions entityName then none else some doc }

end Storage
end LightRAG.EmbeddedStores

/-!
## One id of a store with vectors

As the operations work on every id by itself, they are told by what they do to its slot.
-/

namespace LightRAG.EmbeddedStores

open VectorStores (Row Fields SaveOutcome rowIsStrictlyNewer)
open VectorStores.Storage (logRemoval)
open FaissIndex (PendingDoc FlushedDoc)

variable {V F : Type} [DecidableEq F]

@[ext]
structure Slot (V F : Type) where
  client : Option (FlushedDoc V)
  pending : Option (PendingDoc V)
  redo : Option (FlushedDoc V)
  queued : Bool
  logged : List F

def Storage.slot (s : Storage V F) (x : String) : Slot V F where
  client := s.client.get x
  pending := s.pendingUpserts.get x
  redo := s.unsavedUpserts.get x
  queued := decide (x ∈ s.pendingDeletes)
  logged := (s.unsavedDeletes.get x).getD []

variable (impl : Impl V F)

namespace Slot

def remove (doc : FlushedDoc V) (σ : Slot V F) : Slot V F :=
  { σ with
    client := none
    queued := false
    logged := logRemoval impl.backend σ.logged (impl.rowFingerprint doc) }

def applyDeletes (σ : Slot V F) : Slot V F :=
  match σ.client with
  | none => { σ with queued := false }
  | some doc =>
    if σ.queued ∨ impl.rowFingerprint doc ∈ σ.logged then σ.remove impl doc
    else { σ with queued := false }

def replayUpserts (σ : Slot V F) : Slot V F :=
  match σ.pending, σ.redo with
  | none, some doc =>
    match σ.client with
    | none => { σ with client := some doc }
    | some resident =>
      if impl.rowFingerprint resident = impl.rowFingerprint doc then σ
      else if rowIsStrictlyNewer (some resident.row) doc.row then { σ with redo := none }
      else { σ with client := some doc }
  | _, _ => σ

def embed (vector : V) (σ : Slot V F) : Slot V F :=
  { σ with pending := σ.pending.map fun doc => { doc with vector := some (doc.vector.getD vector) } }

def materialize (σ : Slot V F) : Slot V F :=
  match σ.pending with
  | some ⟨row, some vector⟩ =>
    { σ with client := some ⟨row, vector⟩, redo := some ⟨row, vector⟩, pending := none }
  | _ => { σ with pending := none }

/-- A removal from one of the other operations. -/
def taken (removed : Bool) (σ : Slot V F) : Slot V F :=
  match σ.client with
  | none => σ
  | some doc => if removed then σ.remove impl doc else σ

def prune (entityName : String) (σ : Slot V F) : Slot V F :=
  { σ.taken impl (σ.client.any fun doc => doc.row.mentions entityName) with
    pending := σ.pending.filter fun doc => ! doc.row.mentions entityName
    redo := σ.redo.filter fun doc => ! doc.row.mentions entityName }

end Slot

namespace Storage

variable (s : Storage V F) (x : String)

section

omit [DecidableEq F]

theorem slot_upsert (currentTime writeSeq : ℕ) (data : Dict String Fields) :
    (s.upsert currentTime writeSeq data).slot x =
      match data.get x with
      | none => s.slot x
      | some fields =>
        { s.slot x with
          queued := false
          pending := some ⟨Row.mk (some writeSeq) currentTime fields, none⟩ } := by
  simp only [slot,upsert,Dict.get_overwrite,Dict.get_filterMap,List.mem_filter,Dict.mem_keys]
  cases data.get x <;> simp

theorem slot_delete (ids : List String) :
    (s.delete ids).slot x =
      if x ∈ ids then { s.slot x with queued := true, pending := none, redo := none }
      else s.slot x := by
  simp only [slot,delete,Dict.get_drop]
  by_cases hx : x ∈ ids <;> simp [hx]

theorem slot_dropPendingIndexOps :
    s.dropPendingIndexOps.slot x = { s.slot x with pending := none, queued := false } := by
  simp [slot,dropPendingIndexOps,Dict.get,Dict.empty,Table.lookup]

theorem slot_reload (file : File V) :
    (s.reload file).slot x =
      if s.reloadDue file then { s.slot x with client := file.rows.get x } else s.slot x := by
  unfold reload
  split <;> rfl

theorem slot_reloadClean (file : File V) : (s.reloadClean file).slot x = (s.reload file).slot x := by
  unfold reloadClean
  split
  · rfl
  · rw [reload,if_neg ‹_›]

theorem slot_embed (p : String → Prop) [DecidablePred p] (vectors : String → V) :
    (s.embed p vectors).slot x = if p x then (s.slot x).embed (vectors x) else s.slot x := by
  have hpending : (s.embed p vectors).pendingUpserts.get x = (s.pendingUpserts.get x).map fun doc =>
      if p x then { doc with vector := some (doc.vector.getD (vectors x)) } else doc := by
    rw [embed,Dict.get_filterMap]
    cases s.pendingUpserts.get x <;> rfl
  rw [slot,hpending]
  split
  · rfl
  · rw [Option.map_id']
    rfl

theorem slot_materialize : s.materialize.slot x = (s.slot x).materialize := by
  simp only [slot,materialize,Dict.get_overwrite,Dict.get_filterMap]
  cases s.pendingUpserts.get x with
  | none => rfl
  | some doc =>
    obtain ⟨row,vector⟩ := doc
    cases vector <;> rfl

end

theorem slot_remove (rows : Dict String F) :
    (s.remove impl rows).slot x =
      match rows.get x with
      | none => s.slot x
      | some fingerprint =>
        { s.slot x with
          client := none
          queued := false
          logged := logRemoval impl.backend (s.slot x).logged fingerprint } := by
  simp only [slot,remove,Dict.get_drop,Dict.get_mergeWith,List.mem_filter,Dict.mem_keys]
  cases rows.get x <;> simp

theorem slot_applyDeletes : (s.applyDeletes impl).slot x = (s.slot x).applyDeletes impl := by
  have hslot : (s.applyDeletes impl).slot x =
      { (s.remove impl (s.matched impl)).slot x with queued := false } := by
    simp [slot,applyDeletes]
  rw [hslot,slot_remove,matched,Dict.get_filterMap]
  change _ = match s.client.get x with | none => _ | some doc => _
  cases s.client.get x with
  | none => rfl
  | some doc =>
    by_cases hqueued : x ∈ s.pendingDeletes
    · simp [slot,hqueued,Slot.remove]
    · by_cases hlogged : impl.rowFingerprint doc ∈ (s.unsavedDeletes.get x).getD []
      · simp [slot,hlogged,Slot.remove]
      · simp [slot,hqueued,hlogged]

theorem slot_replayUpserts : (s.replayUpserts impl).slot x = (s.slot x).replayUpserts impl := by
  simp only [slot,replayUpserts,Slot.replayUpserts,Dict.get_overwrite,Dict.get_filterMap,redo,
    Dict.mem_keys]
  cases s.pendingUpserts.get x with
  | some pending => cases s.unsavedUpserts.get x <;> simp
  | none =>
    cases s.unsavedUpserts.get x with
    | none => simp
    | some doc =>
      cases s.client.get x with
      | none => simp
      | some resident =>
        by_cases hequal : impl.rowFingerprint resident = impl.rowFingerprint doc
        · simp [hequal]
        · by_cases hnewer : rowIsStrictlyNewer (some resident.row) doc.row <;> simp [hequal,hnewer]

theorem slot_remove_filterMap (p : String → FlushedDoc V → Bool) :
    (s.remove impl (s.client.filterMap fun y doc =>
        if p y doc then some (impl.rowFingerprint doc) else none)).slot x =
      Slot.taken impl ((s.client.get x).any (p x)) (s.slot x) := by
  rw [slot_remove,Dict.get_filterMap,Slot.taken,show (s.slot x).client = s.client.get x from rfl]
  cases s.client.get x with
  | none => rfl
  | some doc => cases hp : p x doc <;> simp [hp,Slot.remove]

theorem slot_removeEntity (y : String) :
    (s.removeEntity impl y).slot x =
      if x = y then { Slot.taken impl true (s.slot x) with pending := none, redo := none }
      else s.slot x := by
  have hslot : (s.removeEntity impl y).slot x =
      { (s.remove impl (s.client.filterMap fun z doc =>
          if decide (z = y) then some (impl.rowFingerprint doc) else none)).slot x with
        pending := if x = y then none else (s.slot x).pending
        redo := if x = y then none else (s.slot x).redo } := by
    simp only [slot,removeEntity,Dict.get_drop,decide_eq_true_eq]
    rfl
  rw [hslot,slot_remove_filterMap]
  by_cases hx : x = y
  · subst hx
    rw [Slot.taken,Slot.taken,show (s.slot x).client = s.client.get x from rfl]
    cases s.client.get x <;> simp
  · have hnone : (s.client.get x).any (fun _ => decide (x = y)) = false := by
      cases s.client.get x <;> simp [hx]
    rw [hnone,if_neg hx,if_neg hx,if_neg hx,Slot.taken]
    cases (s.slot x).client <;> rfl

theorem slot_removeRelations (entityName : String) :
    (s.removeRelations impl entityName).slot x = (s.slot x).prune impl entityName := by
  have hfilter : ∀ {α : Type} (d : Dict String α) (p : α → Bool),
      (d.filterMap fun _ doc => if p doc then none else some doc).get x =
        (d.get x).filter fun doc => ! p doc := by
    intro α d p
    rw [Dict.get_filterMap]
    cases d.get x with
    | none => rfl
    | some doc => cases hp : p doc <;> simp [hp,Option.filter]
  have hslot : (s.removeRelations impl entityName).slot x =
      { (s.remove impl (s.client.filterMap fun _ doc =>
          if doc.row.mentions entityName then some (impl.rowFingerprint doc) else none)).slot x with
        pending := (s.slot x).pending.filter fun doc => ! doc.row.mentions entityName
        redo := (s.slot x).redo.filter fun doc => ! doc.row.mentions entityName } := by
    simp only [slot,removeRelations,hfilter]
    rfl
  rw [hslot,slot_remove_filterMap]
  rfl

end Storage
end LightRAG.EmbeddedStores

/-!
## What became of the upserts

For each id the ledger says what the last operation of this instance on it was since the last
published save, and what became of it; which row versions have been seen; and for which of them the
embedding function was called.
-/

namespace LightRAG.EmbeddedStores

open VectorStores (Row Fields SaveOutcome)
open FaissIndex (PendingDoc FlushedDoc)

/-- The last operation of this instance on an id since the last published save. -/
inductive Own (V : Type)
  | untouched
  -- An upsert, not materialized yet.
  | buffered (row : Row)
  | flushed (doc : FlushedDoc V)
  -- Its replay found a newer row.
  | superseded (doc newer : FlushedDoc V)
  -- A peer has changed the id after that.
  | overtaken
  -- A delete, or an upsert that was discarded.
  | gone

structure Ledger (V : Type) where
  own : Own V
  seen : List Row
  embedded : List (Row × V)
  calls : List Row

namespace Ledger

def start (row : Option (FlushedDoc V)) : Ledger V :=
  ⟨.untouched, row.toList.map FlushedDoc.row, [], []⟩

def see (rows : List Row) (l : Ledger V) : Ledger V := { l with seen := rows ++ l.seen }

def settle (own : Own V) (l : Ledger V) : Ledger V := { l with own := own }

def call (vector : Option V) (row : Row) (l : Ledger V) : Ledger V :=
  { l with
    calls := row :: l.calls
    embedded := (vector.toList.map fun v => (row, v)) ++ l.embedded }

end Ledger

variable {V F : Type}

/-- An entry that has left the redo log was superseded by the resident row. -/
def Own.replayed (σ : Slot V F) : Own V → Own V
  | .flushed doc =>
    match σ.redo, σ.client with
    | none, some resident => .superseded doc resident
    | _, _ => .flushed doc
  | own => own

/-- A buffered upsert with a vector is written. -/
def Own.materialized (σ : Slot V F) (own : Own V) : Own V :=
  match σ.pending with
  | some ⟨row, some vector⟩ => .flushed ⟨row, vector⟩
  | _ => own

/-- A commit of a peer. -/
def Own.passed [DecidableEq V] (row : Option (FlushedDoc V)) : Own V → Own V
  | .superseded doc newer => if row = some newer then .superseded doc newer else .overtaken
  | own => own

/-- The relations with an entity are deleted; `σ` is the slot before. -/
def Own.pruned (entityName : String) (σ : Slot V F) (own : Own V) : Own V :=
  match σ.pending, σ.redo with
  | some doc, _ => if doc.row.mentions entityName then .gone else own
  | none, some doc => if doc.row.mentions entityName then .gone else own
  | none, none => if σ.client.any fun doc => doc.row.mentions entityName then .gone else own

structure World (V F : Type) where
  storage : Storage V F
  file : File V
  ledger : String → Ledger V

inductive Action (V : Type)
  | upsert (currentTime writeSeq : ℕ) (data : Dict String Fields)
  | delete (ids : List String)
  | deleteEntity (entityName : String)
  | deleteEntityRelation (entityName : String)
  | dropPendingIndexOps
  | drop (reset updated : Bool) (fingerprint : ℕ)
  | indexDoneCallback (embeddings : Option (String → V)) (outcome : SaveOutcome)
  | finalize (embeddings : Option (String → V)) (outcome : SaveOutcome)
  -- The embeddings of `get_vectors_by_ids`, for the buffered rows that have none.
  | getVectorsByIds (ids : List String) (embeddings : Option (String → V))
  | read
  -- A peer commits a snapshot; its notification may not arrive.
  | peer (rows : Dict String (FlushedDoc V)) (fingerprint : ℕ) (notified : Bool)

namespace World

variable [DecidableEq F] (impl : Impl V F)

def start (file : File V) : World V F where
  storage := .load file
  file := file
  ledger x := .start (file.rows.get x)

def become (storage : Storage V F) (f : String → Ledger V → Ledger V) (w : World V F) :
    World V F :=
  { w with storage := storage, ledger := fun x => f x (w.ledger x) }

def reload (w : World V F) : World V F := { w with storage := w.storage.reload w.file }

def reloadClean (w : World V F) : World V F := { w with storage := w.storage.reloadClean w.file }

def applyDeletes (w : World V F) : World V F := { w with storage := w.storage.applyDeletes impl }

def replayUpserts (w : World V F) : World V F :=
  let storage := w.storage.replayUpserts impl
  w.become storage fun x l => l.settle (l.own.replayed (storage.slot x))

def embed (p : String → Prop) [DecidablePred p] (embeddings : Option (String → V))
    (w : World V F) : World V F :=
  let storage := match embeddings with
    | none => w.storage
    | some vectors => w.storage.embed p vectors
  w.become storage fun x l =>
    match w.storage.pendingUpserts.get x with
    | some ⟨row, none⟩ => if p x then l.call (embeddings.map fun vectors => vectors x) row else l
    | _ => l

def materialize (w : World V F) : World V F :=
  w.become w.storage.materialize fun x l => l.settle (l.own.materialized (w.storage.slot x))

def writePending (embeddings : Option (String → V)) (w : World V F) : World V F × Bool :=
  if w.storage.pendingUpserts.keys = [] then (w, true)
  else if w.storage.pendingUpserts.keys.any w.storage.toEmbed then
    match embeddings with
    | none => (w.embed (fun _ => True) none, false)
    | some vectors => ((w.embed (fun _ => True) (some vectors)).materialize, true)
  else (w.materialize, true)

def flush (embeddings : Option (String → V)) (w : World V F) : World V F × Bool :=
  if w.storage.buffered then ((w.applyDeletes impl).replayUpserts impl).writePending embeddings
  else (w, true)

def save (outcome : SaveOutcome) (w : World V F) : World V F :=
  let saved := w.storage.saveLocked impl outcome w.file
  { w with
    storage := saved.1
    file := saved.2
    ledger := match outcome with
      | .announced _ => fun x => (w.ledger x).settle .untouched
      | _ => w.ledger }

/-- What a flush starts from, if the call comes to it. -/
def flushBase (w : World V F) : Action V → Option (World V F)
  | .indexDoneCallback _ _ => some w.reload
  | .finalize _ _ =>
    if w.storage.buffered || w.storage.clientDirty then some w.reloadClean else none
  | _ => none

def flushed (w : World V F) (a : Action V) : Option (World V F × Bool) :=
  match a with
  | .indexDoneCallback embeddings _ => (w.flushBase a).map (flush impl embeddings)
  | .finalize embeddings _ => (w.flushBase a).map fun base =>
    let flushed := base.flush impl embeddings
    (flushed.1, flushed.2 && flushed.1.storage.clientDirty)
  | _ => none

def commit (outcome : SaveOutcome) (flushed : Option (World V F × Bool)) (w : World V F) :
    World V F :=
  match flushed with
  | none => w
  | some (w', true) => w'.save impl outcome
  | some (w', false) => w'

def upsert (currentTime writeSeq : ℕ) (data : Dict String Fields) (w : World V F) : World V F :=
  w.become (w.storage.upsert currentTime writeSeq data) fun x l =>
    match data.get x with
    | none => l
    | some fields =>
      let row := Row.mk (some writeSeq) currentTime fields
      (l.see [row]).settle (.buffered row)

def delete (ids : List String) (w : World V F) : World V F :=
  w.become (w.storage.delete ids) fun x l => if x ∈ ids then l.settle .gone else l

def deleteEntity (entityName : String) (w : World V F) : World V F :=
  match impl.backend with
  | .nano => w.reload.become (w.reload.storage.removeEntity impl (impl.entityId entityName))
      fun x l => if x = impl.entityId entityName then l.settle .gone else l
  | .faiss => w.delete [impl.entityId entityName]

def deleteEntityRelation (entityName : String) (w : World V F) : World V F :=
  w.reload.become (w.reload.storage.removeRelations impl entityName)
    fun x l => l.settle (l.own.pruned entityName (w.reload.storage.slot x))

def dropPendingIndexOps (w : World V F) : World V F :=
  w.become w.storage.dropPendingIndexOps fun x l =>
    if w.storage.pendingUpserts.get x = none then l else l.settle .gone

def drop (reset updated : Bool) (fingerprint : ℕ) (w : World V F) : World V F :=
  let dropped := w.storage.drop impl reset updated fingerprint
  ⟨dropped.1, dropped.2, fun x => (w.ledger x).settle .untouched⟩

variable [DecidableEq V]

/-- A snapshot of the file in which the rows may differ from those on disk. -/
def commitPeer (rows : Dict String (FlushedDoc V)) (fingerprint : ℕ) (notified : Bool)
    (w : World V F) : World V F where
  storage := { w.storage with storageUpdated := w.storage.storageUpdated || notified }
  file := ⟨rows, fingerprint⟩
  ledger x := ((w.ledger x).see ((rows.get x).toList.map FlushedDoc.row)).settle
    ((w.ledger x).own.passed (rows.get x))

def exec (w : World V F) : Action V → World V F
  | .upsert currentTime writeSeq data => w.upsert currentTime writeSeq data
  | .delete ids => w.delete ids
  | .deleteEntity entityName => w.deleteEntity impl entityName
  | .deleteEntityRelation entityName => w.deleteEntityRelation impl entityName
  | .dropPendingIndexOps => w.dropPendingIndexOps
  | .drop reset updated fingerprint => w.drop impl reset updated fingerprint
  | .indexDoneCallback embeddings outcome =>
    w.commit impl outcome (w.flushed impl (.indexDoneCallback embeddings outcome))
  | .finalize embeddings outcome =>
    w.commit impl outcome (w.flushed impl (.finalize embeddings outcome))
  | .getVectorsByIds ids embeddings => w.embed (· ∈ ids) embeddings
  | .read => w.reload
  | .peer rows fingerprint notified => w.commitPeer rows fingerprint notified

/-! The storage and the file change as the source says, whatever the ledger is. -/

section

omit [DecidableEq V]

omit [DecidableEq F] in
theorem writePending_storage (embeddings : Option (String → V)) (w : World V F) :
    (w.writePending embeddings).1.storage = (w.storage.writePending embeddings).1 ∧
      (w.writePending embeddings).2 = (w.storage.writePending embeddings).2 ∧
      (w.writePending embeddings).1.file = w.file := by
  unfold writePending Storage.writePending
  split
  · exact ⟨rfl,rfl,rfl⟩
  · split
    · cases embeddings <;> exact ⟨rfl,rfl,rfl⟩
    · exact ⟨rfl,rfl,rfl⟩

theorem flush_storage (embeddings : Option (String → V)) (w : World V F) :
    (w.flush impl embeddings).1.storage = (w.storage.flushPendingLocked impl embeddings).1 ∧
      (w.flush impl embeddings).2 = (w.storage.flushPendingLocked impl embeddings).2 ∧
      (w.flush impl embeddings).1.file = w.file := by
  rw [flush,Storage.flushPendingLocked]
  split
  · exact writePending_storage embeddings ((w.applyDeletes impl).replayUpserts impl)
  · exact ⟨rfl,rfl,rfl⟩

theorem indexDoneCallback_storage (embeddings : Option (String → V)) (outcome : SaveOutcome)
    (w : World V F) :
    let w' := w.commit impl outcome (w.flushed impl (.indexDoneCallback embeddings outcome))
    (w'.storage, w'.file) = w.storage.indexDoneCallback impl embeddings outcome w.file := by
  obtain ⟨hstorage,hok,hfile⟩ := flush_storage impl embeddings w.reload
  simp only [flushed,flushBase,Option.map_some,Storage.indexDoneCallback]
  rw [show w.storage.reload w.file = w.reload.storage from rfl,← hstorage,← hok]
  cases hret : w.reload.flush impl embeddings with
  | mk w' returned =>
    rw [hret] at hfile
    cases returned with
    | false => simp [commit,show w'.file = w.file from hfile]
    | true => simp [commit,save,show w'.file = w.file from hfile]

theorem finalize_storage (embeddings : Option (String → V)) (outcome : SaveOutcome)
    (w : World V F) :
    let w' := w.commit impl outcome (w.flushed impl (.finalize embeddings outcome))
    (w'.storage, w'.file) = w.storage.finalize impl embeddings outcome w.file := by
  obtain ⟨hstorage,hok,hfile⟩ := flush_storage impl embeddings w.reloadClean
  simp only [flushed,flushBase,Storage.finalize]
  rw [show w.storage.reloadClean w.file = w.reloadClean.storage from rfl,← hstorage,← hok]
  cases w.storage.buffered || w.storage.clientDirty with
  | false => rfl
  | true =>
    cases hret : w.reloadClean.flush impl embeddings with
    | mk w' returned =>
      rw [hret] at hfile
      simp only [if_true,Option.map_some,hret]
      cases returned && w'.storage.clientDirty with
      | false => simp [commit,show w'.file = w.file from hfile]
      | true => simp [commit,save,show w'.file = w.file from hfile]

end

end World
end LightRAG.EmbeddedStores
