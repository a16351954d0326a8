import LightRAG.Storage.VectorStoreHistory

/-!
# Reading one's own writes

A read looks into the buffers and then at the client, and is meant to answer with what the next
flush would leave in the client.
-/

namespace LightRAG.VectorStores
open List Option Bool

variable {F : Type} [DecidableEq F] (impl : Impl F)

namespace Storage

variable (file : File)

/-- `get_by_id`, with the row that `_format_record` shapes. -/
def getById (s : Storage F) (x : String) : Option Row :=
  match s.pendingUpserts.get x with
  | some row => some row
  | none =>
    if x ∈ s.pendingDeletes then none
    else
      let resident := (s.reload file).client.get x
      match s.unsavedUpserts.get x with
      | some redo => if rowIsStrictlyNewer resident redo then resident else some redo
      | none => resident.filter fun row =>
          impl.rowFingerprint row ∉ (s.unsavedDeletes.get x).getD []

/-- What the reads of several ids gather under the lock. -/
structure Gathered (F : Type) where
  resultMap : Dict String Row
  remaining : List String
  logged : Dict String (List F)
  redoDocs : Dict String Row

def gather (s : Storage F) (ids : List String) : Gathered F :=
  let remaining := ids.filter fun x => s.pendingUpserts.get x = none ∧ x ∉ s.pendingDeletes
  { resultMap := Dict.empty.update (ids.filterMap fun x =>
      (s.pendingUpserts.get x).map fun row => (x, row))
    remaining := remaining
    logged := Dict.empty.update (remaining.filterMap fun x =>
      (if s.unsavedUpserts.get x = none then s.unsavedDeletes.get x else none).map
        fun logged => (x, logged))
    redoDocs := Dict.empty.update (remaining.filterMap fun x =>
      (s.unsavedUpserts.get x).map fun redo => (x, redo)) }

/-- The rest of the Nano reads: the rows found, then the entries of the redo log. -/
def fetchNano (client : Dict String Row) (g : Gathered F) : Dict String Row :=
  let found := client.filterMap fun x row => if x ∈ g.remaining then some row else none
  let plain := found.filterMap fun x row =>
    if x ∈ g.redoDocs.keys then none
    else if impl.rowFingerprint row ∈ (g.logged.get x).getD [] then none
    else some row
  (g.resultMap.overwrite plain).overwrite (g.redoDocs.filterMap fun x redo =>
    if rowIsStrictlyNewer (found.get x) redo then found.get x else some redo)

/-- The rest of the Faiss reads, with `_resolve_resident_rows`. -/
def fetchFaiss (client : Dict String Row) (g : Gathered F) : Dict String Row :=
  let resolved := client.filterMap fun x row =>
    if x ∉ g.remaining then none
    else if impl.rowFingerprint row ∈ (g.logged.get x).getD [] then none
    else some row
  g.resultMap.update (g.remaining.filterMap fun x =>
    (match g.redoDocs.get x with
    | some redo => if rowIsStrictlyNewer (resolved.get x) redo then resolved.get x else some redo
    | none => resolved.get x).map fun row => (x, row))

def fetch (s : Storage F) (ids : List String) : Dict String Row :=
  let g := s.gather ids
  if g.remaining = [] then g.resultMap
  else
    match impl.backend with
    | .nano => fetchNano impl (s.reload file).client g
    | .faiss => fetchFaiss impl (s.reload file).client g

def getByIds (s : Storage F) (ids : List String) : List (Option Row) :=
  ids.map (s.fetch impl file ids).get

/-- The keys of `get_vectors_by_ids`. -/
def getVectorsByIds (s : Storage F) (ids : List String) : List String :=
  (s.fetch impl file ids).keys

def flushedClient (s : Storage F) : Dict String Row :=
  ((s.reload file).flushPendingLocked impl true).1.client

def dropPendingIndexOps (s : Storage F) : Storage F :=
  { s with pendingUpserts := .empty, pendingDeletes := [] }

/-- `drop`, once the files are gone. If the client cannot be replaced, it is stale. -/
def drop (reset updated : Bool) (fingerprint : ℕ) (s : Storage F) : Storage F × File :=
  let cleared : Storage F :=
    { s with
      pendingUpserts := .empty
      pendingDeletes := []
      unsavedDeletes := .empty
      unsavedUpserts := .empty }
  if reset then
    ({ cleared with
        client := .empty
        clientDirty := false
        loadedFingerprint := fingerprint
        storageUpdated := updated }, ⟨.empty, fingerprint⟩)
  else
    match impl.backend with
    | .nano => ({ cleared with storageUpdated := true }, ⟨.empty, fingerprint⟩)
    | .faiss => ({ cleared with client := .empty, clientDirty := false, storageUpdated := true },
        ⟨.empty, fingerprint⟩)

end Storage

namespace Slot

variable {impl} {σ : Slot F}

def read (impl : Impl F) (σ : Slot F) : Option Row :=
  match σ.pending with
  | some row => some row
  | none =>
    if σ.queued then none
    else
      match σ.redo with
      | some redo => if rowIsStrictlyNewer σ.client redo then σ.client else some redo
      | none => σ.client.filter fun row => impl.rowFingerprint row ∉ σ.logged

def flush (impl : Impl F) (σ : Slot F) : Slot F :=
  ((σ.applyDeletes impl).replayUpserts impl).materialize

/-- A row that the delete log names is newer than the entry of the upsert log. -/
def Shadowed (impl : Impl F) (σ : Slot F) : Prop :=
  σ.pending = none ∧ ∃ resident redo, σ.client = some resident ∧ σ.redo = some redo ∧
    impl.rowFingerprint resident ∈ σ.logged ∧ rowIsStrictlyNewer (some resident) redo = true

omit [DecidableEq F] in
theorem not_newer_self (row : Row) : rowIsStrictlyNewer (some row) row = false := by
  obtain ⟨writeSeq,createdAt,fields⟩ := row
  cases writeSeq <;> simp [rowIsStrictlyNewer]

theorem read_of_no_redo (hpending : σ.pending = none) (hredo : σ.redo = none) :
    σ.read impl = (σ.flush impl).client := by
  obtain ⟨client,pending,redo,queued,logged⟩ := σ
  obtain rfl : pending = none := hpending
  obtain rfl : redo = none := hredo
  cases client with
  | none => cases queued <;> rfl
  | some resident =>
    cases queued with
    | true => simp [read,flush,applyDeletes,remove,replayUpserts,materialize]
    | false =>
      by_cases hlogged : impl.rowFingerprint resident ∈ logged
      · simp [read,flush,applyDeletes,remove,replayUpserts,materialize,hlogged]
      · simp [read,flush,applyDeletes,replayUpserts,materialize,hlogged]

theorem client_flush_of_pending {row : Row} (hpending : σ.pending = some row) :
    (σ.flush impl).client = some row := by
  obtain ⟨client,pending,redo,queued,logged⟩ := σ
  obtain rfl : pending = some row := hpending
  have hdeletes : ∀ τ : Slot F, (τ.applyDeletes impl).pending = τ.pending := by
    intro τ
    rw [applyDeletes]
    split
    · rfl
    · split <;> rfl
  have hdeleted := hdeletes ⟨client,some row,redo,queued,logged⟩
  rw [flush,materialize,replayUpserts]
  simp [hdeleted]

theorem read_of_redo (hinj : Function.Injective impl.rowFingerprint) {redo : Row}
    (hpending : σ.pending = none) (hqueued : σ.queued = false) (hredo : σ.redo = some redo) :
    σ.read impl = (σ.flush impl).client ↔ ¬ σ.Shadowed impl := by
  obtain ⟨client,pending,redo',queued,logged⟩ := σ
  obtain rfl : pending = none := hpending
  obtain rfl : queued = false := hqueued
  obtain rfl : redo' = some redo := hredo
  cases client with
  | none =>
    simp [read,flush,applyDeletes,replayUpserts,materialize,Shadowed,rowIsStrictlyNewer]
  | some resident =>
    by_cases hlogged : impl.rowFingerprint resident ∈ logged
    · cases hnewer : rowIsStrictlyNewer (some resident) redo with
      | false =>
        simp [read,flush,applyDeletes,remove,replayUpserts,materialize,Shadowed,hlogged,hnewer]
      | true =>
        have hne : resident ≠ redo := by
          rintro rfl
          rw [not_newer_self] at hnewer
          cases hnewer
        simp [read,flush,applyDeletes,remove,replayUpserts,materialize,Shadowed,hlogged,hne]
    · by_cases hequal : impl.rowFingerprint resident = impl.rowFingerprint redo
      · obtain rfl := hinj hequal
        simp [read,flush,applyDeletes,replayUpserts,materialize,Shadowed,hlogged]
      · cases hnewer : rowIsStrictlyNewer (some resident) redo with
        | false =>
          simp [read,flush,applyDeletes,replayUpserts,materialize,Shadowed,hlogged,hequal,hnewer]
        | true =>
          simp [read,flush,applyDeletes,replayUpserts,materialize,Shadowed,hlogged,hequal,hnewer]

theorem read_eq_flush_iff (hinj : Function.Injective impl.rowFingerprint)
    (hredo : σ.queued = true → σ.redo = none) :
    σ.read impl = (σ.flush impl).client ↔ ¬ σ.Shadowed impl := by
  cases hpending : σ.pending with
  | some row =>
    have hread : σ.read impl = some row := by rw [read,hpending]
    rw [hread,client_flush_of_pending hpending]
    simp [Shadowed,hpending]
  | none =>
    cases hlog : σ.redo with
    | none =>
      rw [read_of_no_redo hpending hlog]
      simp [Shadowed,hlog]
    | some redo =>
      apply read_of_redo hinj hpending _ hlog
      rw [← not_eq_true]
      intro hqueued
      rw [hredo hqueued] at hlog
      cases hlog

theorem isSome_of_redo (impl : Impl F) {redo : Row} (hpending : σ.pending = none)
    (hqueued : σ.queued = false) (hredo : σ.redo = some redo) :
    (σ.read impl).isSome = true ∧ (σ.flush impl).client.isSome = true := by
  obtain ⟨client,pending,redo',queued,logged⟩ := σ
  obtain rfl : pending = none := hpending
  obtain rfl : queued = false := hqueued
  obtain rfl : redo' = some redo := hredo
  cases client with
  | none => simp [read,flush,applyDeletes,replayUpserts,materialize,rowIsStrictlyNewer]
  | some resident =>
    constructor
    · cases hnewer : rowIsStrictlyNewer (some resident) redo <;> simp [read,hnewer]
    · by_cases hlogged : impl.rowFingerprint resident ∈ logged
      · simp [flush,applyDeletes,remove,replayUpserts,materialize,hlogged]
      · by_cases hequal : impl.rowFingerprint resident = impl.rowFingerprint redo
        · rw [hequal] at hlogged
          simp [flush,applyDeletes,replayUpserts,materialize,hlogged,hequal]
        · cases hnewer : rowIsStrictlyNewer (some resident) redo <;>
            simp [flush,applyDeletes,replayUpserts,materialize,hlogged,hequal,hnewer]

theorem isSome_read (impl : Impl F) (hredo : σ.queued = true → σ.redo = none) :
    (σ.read impl).isSome = (σ.flush impl).client.isSome := by
  cases hpending : σ.pending with
  | some row =>
    have hread : σ.read impl = some row := by rw [read,hpending]
    rw [hread,client_flush_of_pending hpending]
  | none =>
    cases hlog : σ.redo with
    | none => rw [read_of_no_redo hpending hlog]
    | some redo =>
      have hqueued : σ.queued = false := by
        rw [← not_eq_true]
        intro hqueued
        rw [hredo hqueued] at hlog
        cases hlog
      obtain ⟨hread,hflush⟩ := isSome_of_redo impl hpending hqueued hlog
      rw [hread,hflush]

end Slot

namespace Storage

variable {impl} {s : Storage F} {x : String} {ids : List String} {file : File}

theorem flushed_slot (impl : Impl F) (s : Storage F) (x : String) :
    ((s.flushPendingLocked impl true).1.slot x) = (s.slot x).flush impl := by
  have hparts : (((s.applyDeletes impl).replayUpserts impl).slot x) =
      ((s.slot x).applyDeletes impl).replayUpserts impl := by
    rw [slot_replayUpserts,slot_applyDeletes]
  rw [flushPendingLocked,Slot.flush,← hparts]
  split
  · dsimp only
    split
    · rename_i hkeys
      have hnone : (((s.applyDeletes impl).replayUpserts impl).slot x).pending = none := by
        apply Dict.get_eq_none.mpr
        rw [hkeys]
        exact not_mem_nil
      rw [Slot.materialize,hnone]
    · exact slot_materialize _ x
  · rename_i hbuffered
    have hempty : s.pendingUpserts.keys = [] ∧ s.pendingDeletes = [] ∧
        s.unsavedDeletes.keys = [] ∧ s.unsavedUpserts.keys = [] := by
      simpa [buffered] using hbuffered
    obtain ⟨hpending,hqueued,hlogged,hredo⟩ := hempty
    have hslot : s.slot x = ⟨s.client.get x,none,none,false,[]⟩ := by
      have hget : ∀ {β : Type} (d : Dict String β), d.keys = [] → d.get x = none := by
        intro β d hd
        apply Dict.get_eq_none.mpr
        rw [hd]
        exact not_mem_nil
      rw [slot,hget _ hpending,hget _ hlogged,hget _ hredo,hqueued]
      simp
    rw [hparts,hslot]
    cases s.client.get x <;> simp [Slot.applyDeletes,Slot.replayUpserts,Slot.materialize]

def freshSlot (file : File) (s : Storage F) (x : String) : Slot F := (s.reload file).slot x

theorem flushedClient_get : (s.flushedClient impl file).get x = ((s.freshSlot file x).flush impl).client := by
  have hslot := congrArg Slot.client (flushed_slot impl (s.reload file) x)
  exact hslot

omit [DecidableEq F] in
theorem freshSlot_eq : s.freshSlot file x =
    { s.slot x with client := (s.reload file).client.get x } := by
  rw [freshSlot,reload]
  split <;> rfl

theorem getById_eq : s.getById impl file x = (s.freshSlot file x).read impl := by
  rw [freshSlot_eq,getById,Slot.read]
  simp only [slot]
  cases s.pendingUpserts.get x with
  | some row => rfl
  | none =>
    by_cases hqueued : x ∈ s.pendingDeletes
    · simp [hqueued]
    · simp only [hqueued]
      cases s.unsavedUpserts.get x <;> rfl

section

omit [DecidableEq F]

theorem gather_resultMap (hx : x ∈ ids) :
    (s.gather ids).resultMap.get x = s.pendingUpserts.get x := by
  rw [gather,Dict.get_update_filterMap,if_pos hx]
  cases s.pendingUpserts.get x <;> rfl

theorem mem_remaining (hx : x ∈ ids) :
    x ∈ (s.gather ids).remaining ↔ s.pendingUpserts.get x = none ∧ x ∉ s.pendingDeletes := by
  simp [gather,hx]

theorem gather_redoDocs : (s.gather ids).redoDocs.get x =
    if x ∈ (s.gather ids).remaining then s.unsavedUpserts.get x else none := by
  rw [gather,Dict.get_update_filterMap]
  cases s.unsavedUpserts.get x <;> rfl

theorem gather_logged (hin : x ∈ (s.gather ids).remaining) :
    (s.gather ids).logged.get x =
      if s.unsavedUpserts.get x = none then s.unsavedDeletes.get x else none := by
  rw [gather] at hin ⊢
  rw [Dict.get_update_filterMap,if_pos hin]
  split
  · cases s.unsavedDeletes.get x <;> rfl
  · rfl

end

theorem read_of_not_remaining (hx : x ∈ ids) (hout : x ∉ (s.gather ids).remaining) :
    (s.freshSlot file x).read impl = s.pendingUpserts.get x := by
  rw [freshSlot_eq,Slot.read]
  simp only [slot]
  cases hpending : s.pendingUpserts.get x with
  | some row => rfl
  | none =>
    have hqueued : x ∈ s.pendingDeletes := by
      by_contra hnot
      exact hout ((mem_remaining hx).mpr ⟨hpending,hnot⟩)
    simp [hqueued]

theorem read_of_remaining (hx : x ∈ ids) (hin : x ∈ (s.gather ids).remaining) :
    (s.freshSlot file x).read impl =
      match s.unsavedUpserts.get x with
      | some redo =>
        if rowIsStrictlyNewer ((s.reload file).client.get x) redo then (s.reload file).client.get x
        else some redo
      | none => ((s.reload file).client.get x).filter fun row =>
          impl.rowFingerprint row ∉ (s.unsavedDeletes.get x).getD [] := by
  obtain ⟨hpending,hqueued⟩ := (mem_remaining hx).mp hin
  rw [freshSlot_eq,Slot.read]
  simp only [slot,hpending,hqueued,decide_false,false_eq_true,if_false]

theorem fetched_get (hx : x ∈ ids) :
    (fetchNano impl (s.reload file).client (s.gather ids)).get x = (s.freshSlot file x).read impl ∧
      (fetchFaiss impl (s.reload file).client (s.gather ids)).get x =
        (s.freshSlot file x).read impl := by
  rw [fetchFaiss,Dict.get_update_filterMap,Dict.get_filterMap]
  simp only [fetchNano,Dict.get_overwrite,Dict.get_filterMap,Dict.mem_keys,gather_resultMap hx]
  by_cases hin : x ∈ (s.gather ids).remaining
  · rw [read_of_remaining hx hin,gather_redoDocs,gather_logged hin,((mem_remaining hx).mp hin).1]
    cases hredo : s.unsavedUpserts.get x with
    | some redo =>
      cases (s.reload file).client.get x with
      | none => simp [hin]
      | some resident => cases hnewer : rowIsStrictlyNewer (some resident) redo <;> simp [hin]
    | none =>
      cases (s.reload file).client.get x with
      | none => simp
      | some resident =>
        by_cases hlogged : impl.rowFingerprint resident ∈ (s.unsavedDeletes.get x).getD []
        · simp [hin,Option.filter]
        · simp [hin,Option.filter]
  · rw [read_of_not_remaining hx hin,gather_redoDocs]
    cases (s.reload file).client.get x <;> simp [hin]

theorem fetch_get (hx : x ∈ ids) :
    (s.fetch impl file ids).get x = (s.freshSlot file x).read impl := by
  rw [fetch]
  split
  · rename_i hnone
    have hout : x ∉ (s.gather ids).remaining := by
      rw [hnone]
      exact not_mem_nil
    rw [gather_resultMap hx,read_of_not_remaining hx hout]
  · cases impl.backend with
    | nano => exact (fetched_get hx).1
    | faiss => exact (fetched_get hx).2

/-- No entry of the upsert log has an id with a queued delete. -/
def Evicted (s : Storage F) : Prop := ∀ x ∈ s.pendingDeletes, s.unsavedUpserts.get x = none

theorem pendingDeletes_flush (embeds : Bool) (s : Storage F) :
    (s.flushPendingLocked impl embeds).1.pendingDeletes = [] := by
  rw [flushPendingLocked]
  split
  · dsimp only
    split
    · rfl
    · split <;> rfl
  · rename_i hbuffered
    have hempty : s.pendingUpserts.keys = [] ∧ s.pendingDeletes = [] ∧
        s.unsavedDeletes.keys = [] ∧ s.unsavedUpserts.keys = [] := by
      simpa [buffered] using hbuffered
    exact hempty.2.1

omit [DecidableEq F] in
theorem pendingDeletes_saveLocked (outcome : SaveOutcome) :
    (s.saveLocked impl outcome file).1.pendingDeletes = s.pendingDeletes := by
  cases outcome with
  | failed fingerprint lost =>
    rw [saveLocked]
    cases impl.backend <;> rfl
  | unannounced fingerprint updated => rfl
  | announced fingerprint => rfl

omit [DecidableEq F] in
theorem Evicted.reload (h : s.Evicted) : (s.reload file).Evicted := by
  rw [Storage.reload]
  split
  · exact h
  · exact h

omit [DecidableEq F] in
theorem Evicted.of_slots (h : ∀ x, (s.slot x).queued = true → (s.slot x).redo = none) :
    s.Evicted := fun x hx => h x (decide_eq_true hx)

omit [DecidableEq F] in
theorem Evicted.slots (h : s.Evicted) (hqueued : (s.slot x).queued = true) :
    (s.slot x).redo = none := h x (of_decide_eq_true hqueued)

theorem Evicted.perform (h : s.Evicted) (a : Action) :
    (World.perform impl file s a).1.Evicted := by
  have hnone : ∀ {t : Storage F}, t.pendingDeletes = [] → t.Evicted := by
    intro t ht x hx
    rw [ht] at hx
    exact absurd hx not_mem_nil
  cases a with
  | upsert currentTime writeSeq data =>
    apply Evicted.of_slots
    intro x
    dsimp only [World.perform]
    rw [slot_upsert]
    split
    · exact h.slots
    · exact fun hqueued => absurd hqueued false_ne_true
  | delete ids =>
    apply Evicted.of_slots
    intro x
    dsimp only [World.perform]
    rw [slot_delete]
    split
    · exact fun _ => rfl
    · exact h.slots
  | deleteEntity entityName =>
    apply Evicted.of_slots
    intro x
    dsimp only [World.perform,deleteEntity]
    cases impl.backend with
    | nano =>
      rw [slot_removeEntity]
      split
      · exact fun _ => rfl
      · exact h.reload.slots
    | faiss =>
      rw [slot_delete]
      split
      · exact fun _ => rfl
      · exact h.slots
  | deleteEntityRelation entityName =>
    apply Evicted.of_slots
    intro x hqueued
    dsimp only [World.perform,deleteEntityRelation] at hqueued ⊢
    rw [slot_removeRelations] at hqueued ⊢
    have hbefore : ((s.reload file).slot x).queued = true := by
      split at hqueued
      · exact (and_eq_true_iff.mp hqueued).1
      · exact hqueued
    dsimp only
    rw [h.reload.slots hbefore,unrelated,filter_none]
  | indexDoneCallback embeds outcome =>
    apply hnone
    dsimp only [World.perform,indexDoneCallback]
    split
    · rw [pendingDeletes_saveLocked,pendingDeletes_flush]
    · rw [pendingDeletes_flush]
  | finalize embeds outcome =>
    dsimp only [World.perform,finalize]
    split
    · apply hnone
      split
      · rw [pendingDeletes_saveLocked,pendingDeletes_flush]
      · rw [pendingDeletes_flush]
    · exact h
  | peer rows fingerprint notified => exact h
  | lookUp ids => exact h
  | answer i => exact h

end Storage

/-- What may happen to a storage and its file between two reads. -/
inductive Event
  | act (a : Action)
  | reload
  | dropPendingIndexOps
  | drop (reset updated : Bool) (fingerprint : ℕ)

def Event.move (w : Storage F × File) : Event → Storage F × File
  | .act a => World.perform impl w.2 w.1 a
  | .reload => (w.1.reload w.2, w.2)
  | .dropPendingIndexOps => (w.1.dropPendingIndexOps, w.2)
  | .drop reset updated fingerprint => w.1.drop impl reset updated fingerprint

def Event.Step (w : Storage F × File) (e : Event) (w' : Storage F × File) : Prop :=
  w' = e.move impl w

namespace Storage

variable {impl} {file₀ file : File} {s : Storage F}

theorem Evicted.event {w w' : Storage F × File} {e : Event} (hstep : e.Step impl w w')
    (h : w.1.Evicted) : w'.1.Evicted := by
  obtain rfl := hstep
  cases e with
  | act a => exact h.perform a
  | reload => exact h.reload
  | dropPendingIndexOps => exact fun _ hx => absurd hx not_mem_nil
  | drop reset updated fingerprint =>
    intro x hx
    have hnone : (Event.move impl w (.drop reset updated fingerprint)).1.pendingDeletes = [] := by
      rw [Event.move,Storage.drop]
      cases reset with
      | true => rfl
      | false => cases impl.backend <;> rfl
    rw [hnone] at hx
    exact absurd hx not_mem_nil

/-- In every state that can be reached the reads answer with what the next flush would leave, but
for the ids for which a row that the delete log names is newer than the entry of the upsert log; and
the keys of `get_vectors_by_ids` are those of all rows the flush would leave. -/
theorem reads_agree_iff (hinj : Function.Injective impl.rowFingerprint) {es : List Event}
    (hrun : Run (fun w e w' => Event.Step impl w e w') (.load file₀, file₀) es (s, file)) :
    (∀ x, s.getById impl file x = (s.flushedClient impl file).get x ↔
      ¬ (s.freshSlot file x).Shadowed impl) ∧
    (∀ ids, s.getByIds impl file ids = ids.map (s.flushedClient impl file).get ↔
      ∀ x ∈ ids, ¬ (s.freshSlot file x).Shadowed impl) ∧
    ∀ ids, ∀ x ∈ ids, x ∈ s.getVectorsByIds impl file ids ↔
      (s.flushedClient impl file).get x ≠ none := by
  have hevicted : s.Evicted := by
    apply hrun.preserves (I := fun w => w.1.Evicted) (fun _ _ _ hstep h => h.event hstep)
    exact fun _ hx => absurd hx not_mem_nil
  have hslot : ∀ x, (s.freshSlot file x).queued = true → (s.freshSlot file x).redo = none :=
    fun x => hevicted.reload.slots
  have hone : ∀ x, (s.freshSlot file x).read impl = (s.flushedClient impl file).get x ↔
      ¬ (s.freshSlot file x).Shadowed impl := by
    intro x
    rw [flushedClient_get]
    exact Slot.read_eq_flush_iff hinj (hslot x)
  refine ⟨?_,?_,?_⟩
  · intro x
    rw [getById_eq]
    exact hone x
  · intro ids
    rw [getByIds,map_inj_left]
    constructor
    · intro h x hx
      rw [← hone,← fetch_get hx]
      exact h x hx
    · intro h x hx
      rw [fetch_get hx]
      exact (hone x).mpr (h x hx)
  · intro ids x hx
    have hsome := Slot.isSome_read impl (hslot x)
    rw [getVectorsByIds,Dict.mem_keys,fetch_get hx,flushedClient_get,ne_eq,ne_eq,
      ← isNone_iff_eq_none,← isNone_iff_eq_none,← not_isSome,
      ← not_isSome,hsome]

def readFields : Fields := ⟨none, none, "text"⟩

def peerRow : Row := ⟨some 9, 0, readFields⟩

def ownRow : Row := ⟨some 5, 0, readFields⟩

def readRows : Dict String Row := ⟨[("c", peerRow)], nodup_singleton _⟩

def readImpl (backend : Backend) : Impl Row := ⟨backend, id, fun name => "ent-" ++ name⟩

/-- The row of the peer is deleted and the id written again; both saves fail. -/
def rewritten : List Event :=
  [.act (.delete ["c"]), .act (.indexDoneCallback true (.failed 0 [])),
    .act (.upsert 0 5 ⟨[("c", readFields)], nodup_singleton _⟩),
    .act (.indexDoneCallback true (.failed 0 [])), .act (.peer readRows 1 true)]

def reached (backend : Backend) (es : List Event) : Storage Row × File :=
  es.foldl (Event.move (readImpl backend)) (.load ⟨readRows, 0⟩, ⟨readRows, 0⟩)

theorem run_reached (backend : Backend) (es : List Event) :
    Run (fun w e w' => Event.Step (readImpl backend) w e w')
      (.load ⟨readRows, 0⟩, ⟨readRows, 0⟩) es (reached backend es) := by
  rw [reached]
  generalize (Storage.load ⟨readRows,0⟩, (⟨readRows,0⟩ : File)) = w
  induction es generalizing w with
  | nil => exact .nil w
  | cons e es ih => exact .cons rfl (ih (e.move (readImpl backend) w))

/-- As long as no peer commits, nothing is shadowed. -/
theorem reads_agree_before :
    (reached .faiss (rewritten.take 4)).1.getById (readImpl .faiss)
        (reached .faiss (rewritten.take 4)).2 "c" =
      ((reached .faiss (rewritten.take 4)).1.flushedClient (readImpl .faiss)
        (reached .faiss (rewritten.take 4)).2).get "c" := by
  apply ((reads_agree_iff Function.injective_id (run_reached .faiss (rewritten.take 4))).1 "c").mpr
  rintro ⟨-,resident,redo,hresident,hredo,-,hnewer⟩
  have hclient : ((reached .faiss (rewritten.take 4)).1.freshSlot
      (reached .faiss (rewritten.take 4)).2 "c").client = some ownRow := by
    decide +kernel
  have hlog : ((reached .faiss (rewritten.take 4)).1.freshSlot
      (reached .faiss (rewritten.take 4)).2 "c").redo = some ownRow := by
    decide +kernel
  rw [← some.inj (hclient.symm.trans hresident),← some.inj (hlog.symm.trans hredo)] at hnewer
  cases hnewer

/-- The read answers with the row of the peer; the flush removes it and replays the other one. -/
theorem reads_disagree :
    (∃ w, Run (fun w e w' => Event.Step (readImpl .nano) w e w')
        (.load ⟨readRows, 0⟩, ⟨readRows, 0⟩) rewritten w ∧
      w.1.getById (readImpl .nano) w.2 "c" = some peerRow ∧
      w.1.getByIds (readImpl .nano) w.2 ["c"] = [some peerRow] ∧
      (w.1.flushedClient (readImpl .nano) w.2).get "c" = some ownRow) ∧
    (∃ w, Run (fun w e w' => Event.Step (readImpl .faiss) w e w')
        (.load ⟨readRows, 0⟩, ⟨readRows, 0⟩) rewritten w ∧
      w.1.getById (readImpl .faiss) w.2 "c" = some peerRow ∧
      w.1.getByIds (readImpl .faiss) w.2 ["c"] = [some peerRow] ∧
      (w.1.flushedClient (readImpl .faiss) w.2).get "c" = some ownRow) :=
  ⟨⟨reached .nano rewritten,run_reached .nano rewritten,by decide +kernel,by decide +kernel,
    by decide +kernel⟩,
   ⟨reached .faiss rewritten,run_reached .faiss rewritten,by decide +kernel,by decide +kernel,
    by decide +kernel⟩⟩

end Storage
end LightRAG.VectorStores
