import LightRAG.Storage.VectorStores

/-!
# What happened to the row versions of an id

The history of an id records the versions that this instance removed or replaced since its redo logs
were last retired, those of them that are behind a flushed delete, and those written after it.
-/

namespace LightRAG.VectorStores

structure History where
  seen : List Row
  removed : List Row
  deleted : List Row
  written : List Row
deriving DecidableEq

namespace History

def start (row : Option Row) : History := ⟨row.toList, [], [], []⟩

def write (row : Option Row) (h : History) : History :=
  { h with seen := row.toList ++ h.seen, written := row.toList ++ h.written }

def lost (before after : Option Row) : List Row :=
  match before with
  | none => []
  | some row => if after = some row then [] else [row]

def replace (before after : Option Row) (h : History) : History :=
  { h with removed := lost before after ++ h.removed }

def delete (h : History) : History := { h with deleted := h.removed, written := [] }

def retire (h : History) : History := { h with removed := [], deleted := [] }

end History

variable {F : Type} [DecidableEq F]

/-- A read that has looked into the buffers and waits for the client. -/
structure Read (F : Type) where
  peeks : List (String × Storage.Peek F)
  deleted : String → List Row

structure World (F : Type) where
  storage : Storage F
  file : File
  reads : List (Read F)
  history : String → History

inductive Action
  | upsert (currentTime writeSeq : ℕ) (data : Dict String Fields)
  | delete (ids : List String)
  | deleteEntity (entityName : String)
  | deleteEntityRelation (entityName : String)
  | indexDoneCallback (embeds : Bool) (outcome : SaveOutcome)
  | finalize (embeds : Bool) (outcome : SaveOutcome)
  -- A peer commits a snapshot; its notification may not arrive.
  | peer (rows : Dict String Row) (fingerprint : ℕ) (notified : Bool)
  -- The two halves of a read of some ids.
  | lookUp (ids : List String)
  | answer (i : ℕ)

namespace World

def start (file : File) : World F where
  storage := .load file
  file := file
  reads := []
  history x := .start (file.rows.get x)

/-- An operation on the storage that may remove or replace rows of the client; `deletes` are the
ids of which it flushes a delete. -/
def act (op : Storage F → Storage F) (deletes : String → Bool) (w : World F) : World F :=
  { w with
    storage := op w.storage
    history := fun x =>
      let h := (w.history x).replace (w.storage.client.get x) ((op w.storage).client.get x)
      if deletes x then h.delete else h }

def reload (w : World F) : World F := { w with storage := w.storage.reload w.file }

def reloadClean (w : World F) : World F := { w with storage := w.storage.reloadClean w.file }

variable (impl : Impl F)

def applyDeletes (w : World F) : World F :=
  w.act (Storage.applyDeletes impl) fun x => decide (x ∈ w.storage.pendingDeletes)

def replayUpserts (w : World F) : World F :=
  w.act (Storage.replayUpserts impl) fun _ => false

def materialize (w : World F) : World F := w.act Storage.materialize fun _ => false

def flush (embeds : Bool) (w : World F) : World F × Bool :=
  if w.storage.buffered then
    let w := (w.applyDeletes impl).replayUpserts impl
    if w.storage.pendingUpserts.keys = [] then (w, true)
    else if embeds then (w.materialize, true)
    else (w, false)
  else (w, true)

def save (outcome : SaveOutcome) (w : World F) : World F :=
  let saved := w.storage.saveLocked impl outcome w.file
  { w with
    storage := saved.1
    file := saved.2
    reads := match outcome with
      | .announced _ => w.reads.map fun read => { read with deleted := fun _ => [] }
      | _ => w.reads
    history := match outcome with
      | .announced _ => fun x => (w.history x).retire
      | _ => w.history }

/-- What a flush starts from, if the call comes to it. -/
def flushBase (w : World F) : Action → Option (World F)
  | .indexDoneCallback _ _ => some w.reload
  | .finalize _ _ =>
    if w.storage.buffered || w.storage.clientDirty then some w.reloadClean else none
  | _ => none

def flushed (w : World F) (a : Action) : Option (World F × Bool) :=
  match a with
  | .indexDoneCallback embeds _ => (w.flushBase a).map (flush impl embeds)
  | .finalize embeds _ => (w.flushBase a).map fun base =>
    let flushed := base.flush impl embeds
    (flushed.1, flushed.2 && flushed.1.storage.clientDirty)
  | _ => none

def commit (outcome : SaveOutcome) (flushed : Option (World F × Bool)) (w : World F) : World F :=
  match flushed with
  | none => w
  | some (w', true) => w'.save impl outcome
  | some (w', false) => w'

/-- A snapshot of the file in which the rows may differ from those on disk. -/
def commitPeer (rows : Dict String Row) (fingerprint : ℕ) (notified : Bool) (w : World F) :
    World F :=
  { w with
    storage := { w.storage with storageUpdated := w.storage.storageUpdated || notified }
    file := ⟨rows, fingerprint⟩
    history := fun x => (w.history x).write
      (if rows.get x = w.file.rows.get x then none else rows.get x) }

def beginRead (ids : List String) (w : World F) : World F :=
  { w with
    reads := w.reads ++ [⟨ids.map fun x => (x, w.storage.peek x), fun x => (w.history x).deleted⟩] }

def reloadFor (read : Read F) (w : World F) : World F :=
  if read.peeks.any fun e => e.2.isDeferred then w.reload else w

def endRead (i : ℕ) (w : World F) : World F :=
  match w.reads[i]? with
  | none => w
  | some read => { w.reloadFor read with reads := w.reads.eraseIdx i }

def exec (w : World F) : Action → World F
  | .upsert currentTime writeSeq data =>
    { w with
      storage := w.storage.upsert currentTime writeSeq data
      history := fun x => (w.history x).write
        ((data.get x).map (Row.mk (some writeSeq) currentTime)) }
  | .delete ids => { w with storage := w.storage.delete ids }
  | .deleteEntity entityName =>
    match impl.backend with
    | .nano =>
      let x := impl.entityId entityName
      w.reload.act (Storage.removeEntity impl x)
        fun y => decide (y = x ∧ w.reload.storage.client.get y ≠ none)
    | .faiss => { w with storage := w.storage.delete [impl.entityId entityName] }
  | .deleteEntityRelation entityName =>
    w.reload.act (Storage.removeRelations impl entityName)
      fun x => (w.reload.storage.client.get x).any fun row => row.mentions entityName
  | .indexDoneCallback embeds outcome =>
    w.commit impl outcome (w.flushed impl (.indexDoneCallback embeds outcome))
  | .finalize embeds outcome => w.commit impl outcome (w.flushed impl (.finalize embeds outcome))
  | .peer rows fingerprint notified => w.commitPeer rows fingerprint notified
  | .lookUp ids => w.beginRead ids
  | .answer i => w.endRead i

/-! The storage and the file change as the source says, whatever the history is. -/

theorem flush_cases (embeds : Bool) (w : World F) :
    let w' := (w.applyDeletes impl).replayUpserts impl
    let s' := (w.storage.applyDeletes impl).replayUpserts impl
    (w.storage.buffered = false ∧ w.flush impl embeds = (w, true)) ∨
      (w.storage.buffered = true ∧
        (s'.pendingUpserts.keys = [] ∧ w.flush impl embeds = (w', true) ∨
          s'.pendingUpserts.keys ≠ [] ∧
            w.flush impl embeds = if embeds then (w'.materialize, true) else (w', false))) := by
  intro w' s'
  cases hbuffered : w.storage.buffered with
  | false => exact .inl ⟨rfl,by rw [flush,hbuffered]; rfl⟩
  | true =>
    refine .inr ⟨rfl,?_⟩
    rw [flush,hbuffered]
    by_cases hkeys : s'.pendingUpserts.keys = []
    · exact .inl ⟨hkeys,if_pos hkeys⟩
    · exact .inr ⟨hkeys,if_neg hkeys⟩

theorem flush_storage (embeds : Bool) (w : World F) :
    (w.flush impl embeds).1.storage = (w.storage.flushPendingLocked impl embeds).1 ∧
      (w.flush impl embeds).2 = (w.storage.flushPendingLocked impl embeds).2 := by
  have hflush := flush_cases impl embeds w
  rw [Storage.flushPendingLocked]
  obtain ⟨hbuffered,heq⟩ | ⟨hbuffered,⟨hkeys,heq⟩ | ⟨hkeys,heq⟩⟩ := hflush
  · rw [heq,hbuffered]
    exact ⟨rfl,rfl⟩
  · rw [heq,hbuffered]
    rw [if_pos hkeys]
    exact ⟨rfl,rfl⟩
  · rw [heq,hbuffered]
    rw [if_neg hkeys]
    cases embeds <;> exact ⟨rfl,rfl⟩

theorem flush_file (embeds : Bool) (w : World F) : (w.flush impl embeds).1.file = w.file := by
  obtain ⟨-,heq⟩ | ⟨-,⟨-,heq⟩ | ⟨-,heq⟩⟩ := flush_cases impl embeds w
  · rw [heq]
  · rw [heq]
    rfl
  · rw [heq]
    cases embeds <;> rfl

/-- What an action other than the second half of a read does to the storage and the file. -/
def perform (file : File) (s : Storage F) : Action → Storage F × File
  | .upsert currentTime writeSeq data => (s.upsert currentTime writeSeq data, file)
  | .delete ids => (s.delete ids, file)
  | .deleteEntity entityName => (s.deleteEntity impl entityName file, file)
  | .deleteEntityRelation entityName => (s.deleteEntityRelation impl entityName file, file)
  | .indexDoneCallback embeds outcome => s.indexDoneCallback impl embeds outcome file
  | .finalize embeds outcome => s.finalize impl embeds outcome file
  | .peer rows fingerprint notified =>
    ({ s with storageUpdated := s.storageUpdated || notified }, ⟨rows, fingerprint⟩)
  | .lookUp _ => (s, file)
  | .answer _ => (s, file)

theorem exec_storage (w : World F) (a : Action) (h : ∀ i, a ≠ .answer i) :
    ((w.exec impl a).storage, (w.exec impl a).file) = perform impl w.file w.storage a := by
  cases a with
  | upsert currentTime writeSeq data => rfl
  | delete ids => rfl
  | deleteEntity entityName =>
    simp only [exec,perform,Storage.deleteEntity]
    cases impl.backend <;> rfl
  | deleteEntityRelation entityName => rfl
  | indexDoneCallback embeds outcome =>
    obtain ⟨hstorage,hok⟩ := flush_storage impl embeds w.reload
    have hfile := flush_file impl embeds w.reload
    simp only [exec,flushed,flushBase,Option.map_some,perform,Storage.indexDoneCallback]
    rw [show w.storage.reload w.file = w.reload.storage from rfl,← hstorage,← hok]
    cases hret : w.reload.flush impl embeds with
    | mk w' returned =>
      rw [hret] at hfile
      cases returned with
      | false => simp [commit,show w'.file = w.file from hfile]
      | true => simp [commit,save,show w'.file = w.file from hfile]
  | finalize embeds outcome =>
    obtain ⟨hstorage,hok⟩ := flush_storage impl embeds w.reloadClean
    have hfile := flush_file impl embeds w.reloadClean
    simp only [exec,flushed,flushBase,perform,Storage.finalize]
    rw [show w.storage.reloadClean w.file = w.reloadClean.storage from rfl,← hstorage,← hok]
    cases w.storage.buffered || w.storage.clientDirty with
    | false => rfl
    | true =>
      cases hret : w.reloadClean.flush impl embeds with
      | mk w' returned =>
        rw [hret] at hfile
        simp only [if_true,Option.map_some,hret]
        cases returned && w'.storage.clientDirty with
        | false => simp [commit,show w'.file = w.file from hfile]
        | true => simp [commit,save,show w'.file = w.file from hfile]
  | peer rows fingerprint notified => rfl
  | lookUp ids => rfl
  | answer i => exact absurd rfl (h i)

end World
end LightRAG.VectorStores

/-!
## One id of a vector store

The operations on a storage work on every id by itself: what one does to an id is told by what
the client and the four buffers hold for it.
-/

namespace LightRAG.VectorStores

variable {F : Type} [DecidableEq F]

/-- What the client and the buffers hold for an id. -/
@[ext]
structure Slot (F : Type) where
  client : Option Row
  pending : Option Row
  redo : Option Row
  queued : Bool
  logged : List F

def Storage.slot (s : Storage F) (x : String) : Slot F where
  client := s.client.get x
  pending := s.pendingUpserts.get x
  redo := s.unsavedUpserts.get x
  queued := decide (x ∈ s.pendingDeletes)
  logged := (s.unsavedDeletes.get x).getD []

variable (impl : Impl F)

namespace Slot

def remove (row : Row) (σ : Slot F) : Slot F :=
  { σ with
    client := none
    queued := false
    logged := Storage.logRemoval impl.backend σ.logged (impl.rowFingerprint row) }

/-- The delete redo log after the removal of the row of the client. -/
def loggedAfter (σ : Slot F) : List F :=
  match σ.client with
  | none => σ.logged
  | some row => Storage.logRemoval impl.backend σ.logged (impl.rowFingerprint row)

/-- The row of the client is removed, if there is one. -/
def take (σ : Slot F) : Slot F :=
  { σ with
    client := none
    queued := σ.queued && σ.client.isNone
    logged := σ.loggedAfter impl }

def applyDeletes (σ : Slot F) : Slot F :=
  match σ.client with
  | none => { σ with queued := false }
  | some row =>
    if σ.queued ∨ impl.rowFingerprint row ∈ σ.logged then σ.remove impl row
    else { σ with queued := false }

def replayUpserts (σ : Slot F) : Slot F :=
  match σ.pending, σ.redo with
  | none, some record =>
    match σ.client with
    | none => { σ with client := some record }
    | some resident =>
      if impl.rowFingerprint resident = impl.rowFingerprint record then σ
      else if rowIsStrictlyNewer (some resident) record then { σ with redo := none }
      else { σ with client := some record }
  | _, _ => σ

def materialize (σ : Slot F) : Slot F :=
  match σ.pending with
  | none => σ
  | some record => { σ with client := some record, redo := some record, pending := none }

variable {impl} {σ : Slot F} {row : Row}

theorem applyDeletes_client (h : (σ.applyDeletes impl).client = some row) :
    σ.client = some row ∧ impl.rowFingerprint row ∉ (σ.applyDeletes impl).logged := by
  obtain ⟨client,pending,redo,queued,logged⟩ := σ
  unfold applyDeletes at h ⊢
  cases client with
  | none => cases h
  | some resident =>
    dsimp only at h ⊢
    split at h
    · cases h
    · rename_i hnot
      rw [if_neg hnot]
      obtain rfl := Option.some.inj h
      exact ⟨rfl,fun hin => hnot (.inr hin)⟩

theorem replayUpserts_client (h : (σ.replayUpserts impl).client = some row) :
    σ.client = some row ∨ σ.redo = some row := by
  obtain ⟨client,pending,redo,queued,logged⟩ := σ
  unfold replayUpserts at h
  cases pending with
  | some pending => exact .inl h
  | none =>
    cases redo with
    | none => exact .inl h
    | some record =>
      cases client with
      | none => exact .inr h
      | some resident =>
        dsimp only at h
        split at h
        · exact .inl h
        · split at h
          · exact .inl h
          · exact .inr h

omit [DecidableEq F] in
theorem materialize_client (h : σ.materialize.client = some row) :
    σ.client = some row ∨ σ.pending = some row := by
  obtain ⟨client,pending,redo,queued,logged⟩ := σ
  cases pending with
  | none => exact .inl h
  | some record => exact .inr h

end Slot

namespace Storage

section Buffers

omit [DecidableEq F]
variable (s : Storage F) (x : String)

theorem slot_upsert (currentTime writeSeq : ℕ) (data : Dict String Fields) :
    (s.upsert currentTime writeSeq data).slot x =
      match data.get x with
      | none => s.slot x
      | some fields =>
        { s.slot x with
          queued := false
          pending := some (Row.mk (some writeSeq) currentTime fields) } := by
  simp only [slot,upsert,Dict.get_overwrite,Dict.get_filterMap,List.mem_filter,Dict.mem_keys]
  cases data.get x <;> simp

theorem slot_delete (ids : List String) :
    (s.delete ids).slot x =
      if x ∈ ids then { s.slot x with queued := true, pending := none, redo := none }
      else s.slot x := by
  simp only [slot,delete,Dict.get_drop]
  by_cases hx : x ∈ ids <;> simp [hx]

theorem slot_reload (file : File) :
    (s.reload file).slot x =
      if s.reloadDue file then { s.slot x with client := file.rows.get x } else s.slot x := by
  unfold reload
  split <;> rfl

theorem slot_reloadClean (file : File) : (s.reloadClean file).slot x = (s.reload file).slot x := by
  unfold reloadClean
  split
  · rfl
  · rw [reload,if_neg ‹_›]

theorem slot_materialize : s.materialize.slot x = (s.slot x).materialize := by
  simp only [slot,materialize,Dict.get_overwrite]
  cases s.pendingUpserts.get x <;> rfl

end Buffers

variable (s : Storage F) (x : String)

theorem slot_remove (rows : Dict String F) :
    (s.remove impl rows).slot x =
      match rows.get x with
      | none => s.slot x
      | some fingerprint =>
        { s.slot x with
          client := none
          queued := false
          logged := logRemoval impl.backend (s.slot x).logged fingerprint } := by
  simp only [slot,remove,Dict.get_drop,Dict.get_mergeWith,List.mem_filter,Dict.mem_keys]
  cases rows.get x <;> simp

theorem slot_applyDeletes : (s.applyDeletes impl).slot x = (s.slot x).applyDeletes impl := by
  have hslot : (s.applyDeletes impl).slot x =
      { (s.remove impl (s.matched impl)).slot x with queued := false } := by
    simp [slot,applyDeletes]
  rw [hslot,slot_remove,matched,Dict.get_filterMap]
  change _ = match s.client.get x with | none => _ | some row => _
  cases s.client.get x with
  | none => rfl
  | some row =>
    by_cases hqueued : x ∈ s.pendingDeletes
    · simp [slot,hqueued,Slot.remove]
    · by_cases hlogged : impl.rowFingerprint row ∈ (s.unsavedDeletes.get x).getD []
      · simp [slot,hlogged,Slot.remove]
      · simp [slot,hqueued,hlogged]

theorem slot_replayUpserts : (s.replayUpserts impl).slot x = (s.slot x).replayUpserts impl := by
  simp only [slot,replayUpserts,Slot.replayUpserts,Dict.get_overwrite,Dict.get_filterMap,redo,
    Dict.mem_keys]
  cases s.pendingUpserts.get x with
  | some pending => cases s.unsavedUpserts.get x <;> simp
  | none =>
    cases s.unsavedUpserts.get x with
    | none => simp
    | some record =>
      cases s.client.get x with
      | none => simp
      | some resident =>
        by_cases hequal : impl.rowFingerprint resident = impl.rowFingerprint record
        · simp [hequal]
        · by_cases hnewer : rowIsStrictlyNewer (some resident) record <;> simp [hequal,hnewer]

theorem slot_removeEntity (y : String) :
    (s.removeEntity impl y).slot x =
      if x = y then { (s.slot x).take impl with pending := none, redo := none } else s.slot x := by
  have hslot : (s.removeEntity impl y).slot x =
      { (s.remove impl (s.client.filterMap fun z row =>
          if z = y then some (impl.rowFingerprint row) else none)).slot x with
        pending := if x = y then none else (s.slot x).pending
        redo := if x = y then none else (s.slot x).redo } := by
    simp only [slot,removeEntity,Dict.get_drop]
    rfl
  rw [hslot,slot_remove,Dict.get_filterMap]
  by_cases hx : x = y
  · subst hx
    rw [Slot.take,Slot.loggedAfter]
    cases hclient : s.client.get x <;> simp [show (s.slot x).client = s.client.get x from rfl,
      hclient]
  · cases s.client.get x <;> simp [hx]

def unrelated (entityName : String) (row : Option Row) : Option Row :=
  row.filter fun row => ! row.mentions entityName

theorem unrelated_eq_some {entityName : String} {row : Option Row} {record : Row}
    (h : unrelated entityName row = some record) :
    row = some record ∧ record.mentions entityName = false := by
  obtain ⟨hrow,hnot⟩ := Option.filter_eq_some_iff.mp h
  exact ⟨hrow,by simpa using hnot⟩

theorem slot_removeRelations (entityName : String) :
    (s.removeRelations impl entityName).slot x =
      { (if (s.client.get x).any fun row => row.mentions entityName then (s.slot x).take impl
          else s.slot x) with
        pending := unrelated entityName (s.slot x).pending
        redo := unrelated entityName (s.slot x).redo } := by
  have hunrelated : ∀ d : Dict String Row, (d.filterMap fun _ row =>
      if row.mentions entityName then none else some row).get x =
        unrelated entityName (d.get x) := by
    intro d
    rw [Dict.get_filterMap,unrelated]
    cases d.get x with
    | none => rfl
    | some row => cases hrow : row.mentions entityName <;> simp [hrow,Option.filter]
  have hslot : (s.removeRelations impl entityName).slot x =
      { (s.remove impl (s.client.filterMap fun _ row =>
          if row.mentions entityName then some (impl.rowFingerprint row) else none)).slot x with
        pending := unrelated entityName (s.slot x).pending
        redo := unrelated entityName (s.slot x).redo } := by
    simp only [slot,removeRelations,hunrelated]
    rfl
  rw [hslot,slot_remove,Dict.get_filterMap,Slot.take,Slot.loggedAfter,
    show (s.slot x).client = s.client.get x from rfl]
  cases s.client.get x with
  | none => simp
  | some row => cases hrow : row.mentions entityName <;> simp [hrow]

end Storage
end LightRAG.VectorStores
