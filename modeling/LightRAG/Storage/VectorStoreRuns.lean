import LightRAG.Storage.VectorStoreInvariant

/-!
# Runs of a vector store beside its peers

One instance buffers, flushes and saves, and peers commit snapshots that are based on the file.
-/

namespace LightRAG.VectorStores
open List Option

variable {F : Type} [DecidableEq F] (impl : Impl F)

namespace World

/-- Every write carries its own token, and a peer starts from the rows of the file. -/
def Allowed (w : World F) : Action → Prop
  | .upsert _ writeSeq data => ∀ x fields, data.get x = some fields →
    ∀ row ∈ (w.history x).seen, row.writeSeq ≠ some writeSeq
  | .peer rows _ _ => ∀ x row, rows.get x = some row → w.file.rows.get x = some row ∨
    ∃ writeSeq, row.writeSeq = some writeSeq ∧
      ∀ old ∈ (w.history x).seen, old.writeSeq ≠ some writeSeq
  | _ => True

def Step (w : World F) (a : Action) (w' : World F) : Prop := w.Allowed a ∧ w' = w.exec impl a

/-- The row on disk, if this instance ever removed or replaced it, is one that the delete redo log
names after the removal of the row of the client. -/
def Covered (w : World F) (x : String) : Prop :=
  Sound.Covered impl (w.storage.slot x) (w.file.rows.get x) (w.history x)

/-- A delete that is applied finds on disk no version that the redo log does not name, and no
record waits in a buffer that is older than a version behind a delete. -/
def Careful (w : World F) : Action → Prop
  | .upsert currentTime writeSeq data => ∀ x fields, data.get x = some fields →
    ∀ row, (w.storage.slot x).Resident (w.file.rows.get x) row → row ∈ (w.history x).deleted →
      rowIsStrictlyNewer (some row) ⟨some writeSeq, currentTime, fields⟩ = false
  | .deleteEntity entityName => impl.backend = .nano →
    w.reload.storage.client.get (impl.entityId entityName) ≠ none →
      w.reload.Covered impl (impl.entityId entityName)
  | .deleteEntityRelation entityName => ∀ x removed, w.reload.storage.client.get x = some removed →
    removed.mentions entityName = true →
      w.reload.Covered impl x ∧
        ∀ row record, w.file.rows.get x = some row →
          removed = row ∨ row ∈ (w.history x).removed →
          (w.storage.slot x).Buffered record → record.mentions entityName = false →
            rowIsStrictlyNewer (some row) record = false
  | .indexDoneCallback _ _ => ∀ x ∈ w.storage.pendingDeletes, w.reload.Covered impl x
  | .finalize _ _ => ∀ x ∈ w.storage.pendingDeletes, w.reload.Covered impl x
  | _ => True

def answers (w : World F) (read : Read F) : List (String × Option Row) :=
  read.peeks.map fun e => (e.1, (w.reloadFor read).storage.resolve impl e.1 e.2)

end World

def SaveOutcome.writes : SaveOutcome → Bool
  | .failed _ _ => false
  | .unannounced _ _ => true
  | .announced _ => true

def Action.outcome : Action → Option SaveOutcome
  | .indexDoneCallback _ outcome => some outcome
  | .finalize _ outcome => some outcome
  | _ => none

structure World.Kept (w : World F) (a : Action) : Prop where
  answered : ∀ i read, a = .answer i → w.reads[i]? = some read →
    ∀ x row, (x, some row) ∈ w.answers impl read → row ∉ read.deleted x
  published : ∀ w' outcome, w.flushed impl a = some (w', true) → a.outcome = some outcome →
    outcome.writes = true →
      ∀ x row, (w.exec impl a).file.rows.get x = some row → row ∉ (w'.history x).deleted
  replayed : ∀ base, w.flushBase a = some base → ∀ x row, base.storage.client.get x = some row →
    x ∉ base.storage.pendingDeletes → (base.storage.applyDeletes impl).client.get x = none →
      row ∉ (w.history x).written

/-- What a read of an id took from the buffers keeps the deleted versions from the reader. -/
def Storage.Peek.Hides (impl : Impl F) (σ : Slot F) (disk : Option Row) (deleted : List Row) :
    Storage.Peek F → Prop
  | .answered answer => ∀ row, answer = some row → row ∉ deleted
  | .deferred redo logged =>
    (∀ record, redo = some record → record ∉ deleted) ∧
      ∀ row, σ.Resident disk row → row ∈ deleted →
        impl.rowFingerprint row ∈ logged ∧
          ∀ record, redo = some record → rowIsStrictlyNewer (some row) record = false

namespace World

structure Inv (w : World F) : Prop where
  sound : ∀ x, Sound impl (w.storage.slot x) (w.file.rows.get x) (w.history x)
  begun : ∀ read ∈ w.reads, ∀ x, ∀ row ∈ read.deleted x, row ∈ (w.history x).removed
  hides : ∀ read ∈ w.reads, ∀ x peek, (x, peek) ∈ read.peeks →
    peek.Hides impl (w.storage.slot x) (w.file.rows.get x) (read.deleted x)

variable {impl} {w w' : World F}

omit [DecidableEq F] in
theorem pendingDeletes_reload : w.reload.storage.pendingDeletes = w.storage.pendingDeletes := by
  unfold reload Storage.reload
  split <;> rfl

omit [DecidableEq F] in
theorem covered_reloadClean (h : ∀ x ∈ w.storage.pendingDeletes, w.reload.Covered impl x) :
    ∀ x ∈ w.reloadClean.storage.pendingDeletes, w.reloadClean.Covered impl x := by
  intro x hx
  have hpending : w.reloadClean.storage.pendingDeletes = w.storage.pendingDeletes := by
    unfold reloadClean Storage.reloadClean Storage.reload
    split <;> rfl
  have hslot : w.reloadClean.storage.slot x = w.reload.storage.slot x :=
    Storage.slot_reloadClean _ x _
  rw [hpending] at hx
  have hcovered := h x hx
  unfold Covered at hcovered ⊢
  rw [hslot]
  exact hcovered

namespace Inv

section States

omit [DecidableEq F]

theorem start (file : File) : (World.start file : World F).Inv impl where
  sound x := Sound.start impl file x
  begun read hread := by cases hread
  hides read hread := by cases hread

theorem next (hinv : w.Inv impl) (hreads : ∀ read ∈ w'.reads, read ∈ w.reads)
    (hsound : ∀ x, Sound impl (w'.storage.slot x) (w'.file.rows.get x) (w'.history x))
    (hremoved : ∀ x, ∀ row ∈ (w.history x).removed, row ∈ (w'.history x).removed)
    (hresident : ∀ x, ∀ row ∈ (w.history x).removed,
      (w'.storage.slot x).Resident (w'.file.rows.get x) row →
        (w.storage.slot x).Resident (w.file.rows.get x) row) :
    w'.Inv impl where
  sound := hsound
  begun read hread x row hrow :=
    hremoved x row (hinv.begun read (hreads read hread) x row hrow)
  hides read hread x peek hpeek := by
    have hold := hinv.hides read (hreads read hread) x peek hpeek
    cases peek with
    | answered answer => exact hold
    | deferred redo logged =>
      refine ⟨hold.1,?_⟩
      intro row hrow hdeleted
      have hin := hinv.begun read (hreads read hread) x row hdeleted
      exact hold.2 row (hresident x row hin hrow) hdeleted

theorem act {op : Storage F → Storage F} {deletes : String → Bool} (hinv : w.Inv impl)
    (hsound : ∀ x, Sound impl ((op w.storage).slot x) (w.file.rows.get x)
      (if deletes x then
        ((w.history x).replace (w.storage.slot x).client ((op w.storage).slot x).client).delete
      else (w.history x).replace (w.storage.slot x).client ((op w.storage).slot x).client))
    (hresident : ∀ x row, ((op w.storage).slot x).Resident (w.file.rows.get x) row →
      (w.storage.slot x).Resident (w.file.rows.get x) row ∨ (w.storage.slot x).Buffered row) :
    (w.act op deletes).Inv impl := by
  apply hinv.next
  · exact fun read hread => hread
  · exact hsound
  · intro x row hrow
    change row ∈ (if deletes x then (History.replace _ _ (w.history x)).delete
      else History.replace _ _ (w.history x)).removed
    cases deletes x with
    | true => exact Sound.mem_replace.mpr (.inr hrow)
    | false => exact Sound.mem_replace.mpr (.inr hrow)
  · intro x row hrow hres
    obtain hres | hbuffered := hresident x row hres
    · exact hres
    · exact absurd hrow ((hinv.sound x).kept row hbuffered)

theorem reload (hinv : w.Inv impl) : w.reload.Inv impl := by
  have hresident : ∀ x row, (w.reload.storage.slot x).Resident (w.file.rows.get x) row →
      (w.storage.slot x).Resident (w.file.rows.get x) row := by
    intro x row hrow
    rw [World.reload,Storage.slot_reload] at hrow
    split at hrow
    · obtain hrow | hrow := hrow <;> exact .inr hrow
    · exact hrow
  apply hinv.next
  · exact fun read hread => hread
  · intro x
    apply (hinv.sound x).shrink
    · exact fun row hrow => .inl (hresident x row hrow)
    all_goals
      rw [World.reload,Storage.slot_reload]
      split
    · exact fun record hrecord => hrecord
    · exact fun record hrecord => hrecord
    · rfl
    · rfl
    · exact (hinv.sound x).queued
    · exact (hinv.sound x).queued
  · exact fun x row hrow => hrow
  · exact fun x row _ hrow => hresident x row hrow

theorem reloadClean (hinv : w.Inv impl) : w.reloadClean.Inv impl := by
  have hslot : ∀ x, w.reloadClean.storage.slot x = w.reload.storage.slot x :=
    fun x => Storage.slot_reloadClean _ x _
  have hreload := hinv.reload
  apply hreload.next
  · exact fun read hread => hread
  · intro x
    rw [hslot]
    exact hreload.sound x
  · exact fun x row hrow => hrow
  · intro x row _ hrow
    rw [hslot] at hrow
    exact hrow

theorem save (hinv : w.Inv impl) (outcome : SaveOutcome) : (w.save impl outcome).Inv impl := by
  cases outcome with
  | failed fingerprint lost =>
    have hresident : ∀ x row, ((w.save impl (.failed fingerprint lost)).storage.slot x).Resident
        ((w.save impl (.failed fingerprint lost)).file.rows.get x) row →
          (w.storage.slot x).Resident (w.file.rows.get x) row := by
      intro x row hrow
      simp only [World.save,Storage.saveLocked] at hrow
      cases hbackend : impl.backend with
      | nano =>
        rw [hbackend] at hrow
        exact hrow
      | faiss =>
        rw [hbackend] at hrow
        obtain hrow | hrow := hrow
        · exact .inl hrow
        · rw [Dict.get_drop] at hrow
          split at hrow
          · cases hrow
          · exact .inr hrow
    have hslot : ∀ x, (w.save impl (.failed fingerprint lost)).storage.slot x =
        w.storage.slot x := by
      intro x
      simp only [World.save,Storage.saveLocked]
      cases impl.backend <;> rfl
    apply hinv.next
    · exact fun read hread => hread
    · intro x
      apply (hinv.sound x).shrink
      · exact fun row hrow => .inl (hresident x row hrow)
      · rw [hslot]
        exact fun record hrecord => hrecord
      · rw [hslot]
      · rw [hslot]
        exact (hinv.sound x).queued
    · exact fun x row hrow => hrow
    · exact fun x row _ hrow => hresident x row hrow
  | unannounced fingerprint updated =>
    apply hinv.next
    · exact fun read hread => hread
    · intro x
      apply (hinv.sound x).shrink
      · rintro row (hrow | hrow) <;> exact .inl (.inl hrow)
      · exact fun record hrecord => hrecord
      · rfl
      · exact (hinv.sound x).queued
    · exact fun x row hrow => hrow
    · rintro x row - (hrow | hrow) <;> exact .inl hrow
  | announced fingerprint =>
    refine ⟨?_,?_,?_⟩
    · exact fun x => (hinv.sound x).retire
    · intro read hread x row hrow
      obtain ⟨old,-,rfl⟩ := mem_map.mp hread
      cases hrow
    · intro read hread x peek hpeek
      obtain ⟨old,hold,rfl⟩ := mem_map.mp hread
      cases peek with
      | answered answer => exact fun row _ => not_mem_nil
      | deferred redo logged =>
        exact ⟨fun record _ => not_mem_nil,fun row _ hin => absurd hin not_mem_nil⟩

end States

theorem applyDeletes (hinj : Function.Injective impl.rowFingerprint) (hinv : w.Inv impl)
    (hcovered : ∀ x ∈ w.storage.pendingDeletes, w.Covered impl x) :
    (w.applyDeletes impl).Inv impl := by
  apply hinv.act
  · intro x
    rw [Storage.slot_applyDeletes]
    exact (hinv.sound x).applyDeletes hinj fun hqueued => hcovered x (of_decide_eq_true hqueued)
  · intro x row hrow
    rw [Storage.slot_applyDeletes] at hrow
    obtain hrow | hrow := hrow
    · exact .inl (.inl (Slot.applyDeletes_client hrow).1)
    · exact .inl (.inr hrow)

theorem replayUpserts (hinv : w.Inv impl) : (w.replayUpserts impl).Inv impl := by
  apply hinv.act
  · intro x
    rw [Storage.slot_replayUpserts]
    exact (hinv.sound x).replayUpserts
  · intro x row hrow
    rw [Storage.slot_replayUpserts] at hrow
    obtain hrow | hrow := hrow
    · exact (Slot.replayUpserts_client hrow).imp .inl .inr
    · exact .inl (.inr hrow)

omit [DecidableEq F] in
theorem materialize (hinv : w.Inv impl) : w.materialize.Inv impl := by
  apply hinv.act
  · intro x
    rw [Storage.slot_materialize]
    exact (hinv.sound x).materialize
  · intro x row hrow
    rw [Storage.slot_materialize] at hrow
    obtain hrow | hrow := hrow
    · exact (Slot.materialize_client hrow).imp .inl .inl
    · exact .inl (.inr hrow)

theorem flush (hinj : Function.Injective impl.rowFingerprint) (hinv : w.Inv impl) (embeds : Bool)
    (hcovered : ∀ x ∈ w.storage.pendingDeletes, w.Covered impl x) :
    (w.flush impl embeds).1.Inv impl := by
  have hreplayed := (hinv.applyDeletes hinj hcovered).replayUpserts
  obtain ⟨-,heq⟩ | ⟨-,⟨-,heq⟩ | ⟨-,heq⟩⟩ := flush_cases impl embeds w
  · rwa [heq]
  · rwa [heq]
  · rw [heq]
    cases embeds with
    | true => exact hreplayed.materialize
    | false => exact hreplayed

/-- The client holds no version that is behind a flushed delete. -/
def Clean (w : World F) : Prop :=
  ∀ x row, w.storage.client.get x = some row → row ∉ (w.history x).deleted

theorem applyDeletes_clean (hinj : Function.Injective impl.rowFingerprint) (hinv : w.Inv impl)
    (hcovered : ∀ x ∈ w.storage.pendingDeletes, w.Covered impl x) :
    Clean (w.applyDeletes impl) := by
  intro x row hrow hin
  have hclient : ((w.storage.applyDeletes impl).slot x).client = some row := hrow
  have hnamed := (((hinv.applyDeletes hinj hcovered).sound x).named row (.inl hrow) hin).1
  have hlogged : ((w.storage.applyDeletes impl).slot x).logged =
      ((w.storage.slot x).applyDeletes impl).logged := by
    rw [Storage.slot_applyDeletes]
  rw [Storage.slot_applyDeletes] at hclient
  apply (Slot.applyDeletes_client hclient).2
  rwa [← hlogged]

omit [DecidableEq F] in
theorem Clean.act {op : Storage F → Storage F} (hinv : w.Inv impl) (hclean : Clean w)
    (hclient : ∀ x row, (op w.storage).client.get x = some row →
      w.storage.client.get x = some row ∨ (w.storage.slot x).Buffered row) :
    Clean (w.act op fun _ => false) := by
  intro x row hrow hin
  obtain hrow | hbuffered := hclient x row hrow
  · exact hclean x row hrow hin
  · exact (hinv.sound x).kept row hbuffered ((hinv.sound x).deleted row hin)

theorem flush_clean (hinj : Function.Injective impl.rowFingerprint) (hinv : w.Inv impl)
    (embeds : Bool) (hcovered : ∀ x ∈ w.storage.pendingDeletes, w.Covered impl x) :
    Clean (w.flush impl embeds).1 := by
  have happlied := hinv.applyDeletes hinj hcovered
  have hreplayed : Clean ((w.applyDeletes impl).replayUpserts impl) := by
    apply Clean.act happlied (applyDeletes_clean hinj hinv hcovered)
    intro x row hrow
    have hslot : (((w.storage.applyDeletes impl).replayUpserts impl).slot x).client = some row :=
      hrow
    rw [Storage.slot_replayUpserts] at hslot
    exact (Slot.replayUpserts_client hslot).imp_right .inr
  obtain ⟨hbuffered,heq⟩ | ⟨-,⟨-,heq⟩ | ⟨-,heq⟩⟩ := flush_cases impl embeds w
  · rw [heq]
    intro x row hrow hin
    have hnamed := ((hinv.sound x).named row (.inl hrow) hin).1
    have hempty : w.storage.unsavedDeletes.keys = [] := by
      rw [Storage.buffered,decide_eq_false_iff_not] at hbuffered
      tauto
    have hnone : w.storage.unsavedDeletes.get x = none := by
      rw [Dict.get_eq_none,hempty]
      exact not_mem_nil
    rw [Storage.slot,hnone] at hnamed
    cases hnamed
  · rwa [heq]
  · rw [heq]
    cases embeds with
    | true =>
      apply Clean.act happlied.replayUpserts hreplayed
      intro x row hrow
      have hslot : (((w.storage.applyDeletes impl).replayUpserts impl).materialize.slot x).client =
          some row := hrow
      rw [Storage.slot_materialize] at hslot
      exact (Slot.materialize_client hslot).imp_right .inl
    | false => exact hreplayed

theorem upsert (hinj : Function.Injective impl.rowFingerprint) (hinv : w.Inv impl)
    {currentTime writeSeq : ℕ} {data : Dict String Fields}
    (hallowed : w.Allowed (.upsert currentTime writeSeq data))
    (hcareful : w.Careful impl (.upsert currentTime writeSeq data)) :
    (w.exec impl (.upsert currentTime writeSeq data)).Inv impl := by
  have hslot : ∀ x, (w.exec impl (.upsert currentTime writeSeq data)).storage.slot x = _ :=
    fun x => Storage.slot_upsert w.storage x currentTime writeSeq data
  have hclient : ∀ x row,
      ((w.exec impl (.upsert currentTime writeSeq data)).storage.slot x).Resident
        (w.file.rows.get x) row → (w.storage.slot x).Resident (w.file.rows.get x) row :=
    fun x row hrow => hrow
  apply hinv.next
  · exact fun read hread => hread
  · intro x
    cases hdata : data.get x with
    | none =>
      have hsame : (w.exec impl (.upsert currentTime writeSeq data)).storage.slot x =
          w.storage.slot x := by
        rw [hslot,hdata]
      have hhistory : (w.exec impl (.upsert currentTime writeSeq data)).history x =
          w.history x := by
        simp [exec,hdata,History.write]
      rw [hsame,hhistory]
      exact hinv.sound x
    | some fields =>
      have hhistory : (w.exec impl (.upsert currentTime writeSeq data)).history x =
          (w.history x).write (some ⟨some writeSeq,currentTime,fields⟩) := by
        simp [exec,hdata]
      rw [hhistory]
      apply (hinv.sound x).write hinj fun hin => hallowed x fields hdata _ hin rfl
      · exact fun row hrow => .inl (hclient x row hrow)
      · intro row hrow
        rw [hslot,hdata] at hrow
        obtain hrow | hrow := hrow
        · exact .inr (some.inj hrow).symm
        · exact .inl (.inr hrow)
      · rw [hslot,hdata]
      · rw [hslot,hdata]
        exact fun hqueued => absurd hqueued Bool.false_ne_true
      · exact fun _ row hrow hin => hcareful x fields hdata row hrow hin
  · exact fun x row hrow => hrow
  · exact fun x row _ hrow => hclient x row hrow

omit [DecidableEq F] in
theorem delete (hinv : w.Inv impl) (ids : List String) :
    ({ w with storage := w.storage.delete ids } : World F).Inv impl := by
  have hslot : ∀ x, (w.storage.delete ids).slot x = _ := fun x => Storage.slot_delete w.storage x ids
  apply hinv.next
  · exact fun read hread => hread
  · intro x
    rw [hslot]
    split
    · apply (hinv.sound x).shrink
      · exact fun row hrow => .inl hrow
      · rintro record (hrecord | hrecord) <;> cases hrecord
      · rfl
      · exact fun _ => ⟨rfl,rfl⟩
    · exact hinv.sound x
  · exact fun x row hrow => hrow
  · exact fun x row _ hrow => hrow

theorem removeEntity (hinv : w.Inv impl) {x : String}
    (hcovered : w.storage.client.get x ≠ none → w.Covered impl x) :
    (w.act (Storage.removeEntity impl x)
      fun y => decide (y = x ∧ w.storage.client.get y ≠ none)).Inv impl := by
  apply hinv.act
  · intro y
    have hs := hinv.sound y
    rw [Storage.slot_removeEntity]
    by_cases hy : y = x
    · subst hy
      rw [if_pos rfl]
      have hnone : ∀ record, ¬ Slot.Buffered
          { (w.storage.slot y).take impl with pending := none, redo := none } record := by
        rintro record (hrecord | hrecord) <;> cases hrecord
      cases hclient : w.storage.client.get y with
      | none =>
        have hslot : (w.storage.slot y).client = none := hclient
        have hshrunk : Sound impl { (w.storage.slot y).take impl with pending := none, redo := none }
            (w.file.rows.get y) (w.history y) := by
          apply hs.shrink
          · rintro row (hrow | hrow)
            · cases hrow
            · exact .inl (.inr hrow)
          · exact fun record hrecord => absurd hrecord (hnone record)
          · rw [Slot.take,Slot.loggedAfter,hslot]
          · exact fun _ => ⟨rfl,rfl⟩
        rw [if_neg (by simp),hslot]
        exact hshrunk.unchanged
      | some row =>
        rw [if_pos (by simp)]
        apply hs.delete rfl
        · exact fun record hrecord => absurd hrecord (hnone record)
        · rfl
        · exact fun _ => ⟨rfl,rfl⟩
        · exact fun row _ => hnone row
        · exact hcovered (by rw [hclient]; exact some_ne_none _)
        · exact fun row record _ _ hrecord => absurd hrecord (hnone record)
    · rw [if_neg hy,if_neg (by simp [hy])]
      exact hs.unchanged
  · intro y row hrow
    rw [Storage.slot_removeEntity] at hrow
    split at hrow
    · obtain hrow | hrow := hrow
      · cases hrow
      · exact .inl (.inr hrow)
    · exact .inl hrow

theorem removeRelations (hinv : w.Inv impl) {entityName : String}
    (hcareful : ∀ x removed, w.storage.client.get x = some removed →
      removed.mentions entityName = true →
        w.Covered impl x ∧
          ∀ row record, w.file.rows.get x = some row →
            removed = row ∨ row ∈ (w.history x).removed →
            (w.storage.slot x).Buffered record → record.mentions entityName = false →
              rowIsStrictlyNewer (some row) record = false) :
    (w.act (Storage.removeRelations impl entityName)
      fun x => (w.storage.client.get x).any fun row => row.mentions entityName).Inv impl := by
  have hslot := fun x => Storage.slot_removeRelations impl w.storage x entityName
  have hbuffered : ∀ x record,
    ((w.storage.removeRelations impl entityName).slot x).Buffered record →
      (w.storage.slot x).Buffered record ∧ record.mentions entityName = false := by
    intro x record hrecord
    rw [hslot] at hrecord
    obtain hrecord | hrecord := hrecord
    · exact (Storage.unrelated_eq_some hrecord).imp_left .inl
    · exact (Storage.unrelated_eq_some hrecord).imp_left .inr
  have hqueued : ∀ x, ((w.storage.removeRelations impl entityName).slot x).queued = true →
      ((w.storage.removeRelations impl entityName).slot x).pending = none ∧
        ((w.storage.removeRelations impl entityName).slot x).redo = none := by
    intro x hqueued
    rw [hslot] at hqueued ⊢
    have hold : (w.storage.slot x).queued = true := by
      split at hqueued
      · exact (Bool.and_eq_true_iff.mp hqueued).1
      · exact hqueued
    obtain ⟨hpending,hredo⟩ := (hinv.sound x).queued hold
    simp [hpending,hredo,Storage.unrelated]
  apply hinv.act
  · intro x
    have hs := hinv.sound x
    cases hrelated : (w.storage.client.get x).any fun row => row.mentions entityName with
    | true =>
      obtain ⟨removed,hclient,hmentions⟩ := (any_eq_true _ _).mp hrelated
      have hcase := hslot x
      rw [hrelated] at hcase
      have hnone : ((w.storage.removeRelations impl entityName).slot x).client = none := by
        rw [hcase]
        rfl
      have hremoved : (w.storage.slot x).client = some removed := hclient
      rw [hnone]
      apply hs.delete hnone
      · exact fun record hrecord => (hbuffered x record hrecord).1
      · rw [hcase]
        rfl
      · exact hqueued x
      · intro row hrow hin
        obtain rfl := some.inj (hremoved.symm.trans hrow)
        rw [(hbuffered x _ hin).2] at hmentions
        cases hmentions
      · exact (hcareful x removed hclient hmentions).1
      · intro row record hrow hlost hrecord
        obtain ⟨hold,hunrelated⟩ := hbuffered x record hrecord
        rw [hremoved,some.injEq] at hlost
        exact (hcareful x removed hclient hmentions).2 row record hrow hlost hold hunrelated
    | false =>
      have hcase := hslot x
      rw [hrelated,if_neg (by simp)] at hcase
      have hshrunk : Sound impl ((w.storage.removeRelations impl entityName).slot x)
          (w.file.rows.get x) (w.history x) := by
        apply hs.shrink
        · intro row hrow
          rw [hcase] at hrow
          exact .inl hrow
        · exact fun record hrecord => (hbuffered x record hrecord).1
        · rw [hcase]
        · exact hqueued x
      have hsame := hshrunk.unchanged
      rw [hcase] at hsame ⊢
      exact hsame
  · intro x row hrow
    rw [hslot] at hrow
    split at hrow
    · obtain hrow | hrow := hrow
      · cases hrow
      · exact .inl (.inr hrow)
    · exact .inl hrow

omit [DecidableEq F] in
theorem commitPeer (hinj : Function.Injective impl.rowFingerprint) (hinv : w.Inv impl)
    {rows : Dict String Row} {fingerprint : ℕ} {notified : Bool}
    (hallowed : w.Allowed (.peer rows fingerprint notified)) :
    (w.commitPeer rows fingerprint notified).Inv impl := by
  have hnew : ∀ x row, rows.get x = some row → w.file.rows.get x = some row ∨
      row ∉ (w.history x).seen := by
    intro x row hrow
    obtain hold | ⟨writeSeq,hseq,hfresh⟩ := hallowed x row hrow
    · exact .inl hold
    · exact .inr fun hin => hfresh row hin hseq
  apply hinv.next
  · exact fun read hread => hread
  · intro x
    have hs := hinv.sound x
    change Sound impl (w.storage.slot x) (rows.get x) ((w.history x).write _)
    have hold : (∀ row, rows.get x = some row → w.file.rows.get x = some row) →
        Sound impl (w.storage.slot x) (rows.get x) (w.history x) := by
      intro hold
      apply hs.shrink
      · exact fun row hrow => .inl (hrow.imp_right (hold row))
      · exact fun record hrecord => hrecord
      · rfl
      · exact hs.queued
    split
    · rename_i hsame
      exact hold fun row hrow => hsame ▸ hrow
    · rename_i hdiffer
      cases hrow : rows.get x with
      | none =>
        rw [hrow] at hold
        exact hold nofun
      | some row =>
        have hfresh : row ∉ (w.history x).seen := by
          obtain hsame | hfresh := hnew x row hrow
          · exact absurd (hrow.trans hsame.symm) hdiffer
          · exact hfresh
        apply hs.write hinj hfresh
        · rintro row' (hrow' | hrow')
          · exact .inl (.inl hrow')
          · exact .inr (some.inj hrow').symm
        · exact fun record hrecord => .inl hrecord
        · rfl
        · exact hs.queued
        · exact fun hbuffered => absurd (hs.seen row (.inr (.inl hbuffered))) hfresh
  · exact fun x row hrow => hrow
  · rintro x row hin (hrow | hrow)
    · exact .inl hrow
    · obtain hold | hfresh := hnew x row hrow
      · exact .inr hold
      · exact absurd ((hinv.sound x).seen row (.inr (.inr hin))) hfresh

omit [DecidableEq F] in
theorem peek_hides (hinv : w.Inv impl) (x : String) :
    (w.storage.peek x).Hides impl (w.storage.slot x) (w.file.rows.get x)
      (w.history x).deleted := by
  have hs := hinv.sound x
  have hkept : ∀ record, (w.storage.slot x).Buffered record → record ∉ (w.history x).deleted :=
    fun record hrecord hin => hs.kept record hrecord (hs.deleted record hin)
  unfold Storage.peek
  split
  · rename_i record hpending
    rintro row hrow
    obtain rfl := some.inj hrow
    exact hkept record (.inl hpending)
  · split
    · exact nofun
    · refine ⟨fun record hredo => hkept record (.inr hredo),?_⟩
      intro row hrow hin
      obtain ⟨hnamed,horder⟩ := hs.named row hrow hin
      exact ⟨hnamed,fun record hredo => horder record (.inr hredo)⟩

omit [DecidableEq F] in
theorem beginRead (hinv : w.Inv impl) (ids : List String) : (w.beginRead ids).Inv impl where
  sound := hinv.sound
  begun read hread x row hrow := by
    obtain hread | hread := mem_append.mp hread
    · exact hinv.begun read hread x row hrow
    · obtain rfl := mem_singleton.mp hread
      exact (hinv.sound x).deleted row hrow
  hides read hread x peek hpeek := by
    obtain hread | hread := mem_append.mp hread
    · exact hinv.hides read hread x peek hpeek
    · obtain rfl := mem_singleton.mp hread
      obtain ⟨y,-,heq⟩ := mem_map.mp hpeek
      obtain ⟨rfl,rfl⟩ := Prod.mk.inj heq
      exact hinv.peek_hides y

omit [DecidableEq F] in
theorem reloadFor (hinv : w.Inv impl) (read : Read F) : (w.reloadFor read).Inv impl := by
  unfold World.reloadFor
  split
  · exact hinv.reload
  · exact hinv

omit [DecidableEq F] in
theorem endRead (hinv : w.Inv impl) (i : ℕ) : (w.endRead i).Inv impl := by
  unfold World.endRead
  split
  · exact hinv
  · rename_i read _
    apply (hinv.reloadFor read).next
    · intro old hold
      have hreads : (w.reloadFor read).reads = w.reads := by
        unfold World.reloadFor
        split <;> rfl
      rw [hreads]
      exact mem_of_mem_eraseIdx hold
    · exact (hinv.reloadFor read).sound
    · exact fun x row hrow => hrow
    · exact fun x row _ hrow => hrow

theorem exec (hinj : Function.Injective impl.rowFingerprint) (hinv : w.Inv impl) {a : Action}
    (hallowed : w.Allowed a) (hcareful : w.Careful impl a) : (w.exec impl a).Inv impl := by
  have hcommit : ∀ (outcome : SaveOutcome) (base : World F), base.Inv impl →
      ∀ embeds, (∀ x ∈ base.storage.pendingDeletes, base.Covered impl x) → ∀ saves : Bool,
        (w.commit impl outcome (some ((base.flush impl embeds).1, saves))).Inv impl := by
    intro outcome base hbase embeds hcovered saves
    have hflush := hbase.flush hinj embeds hcovered
    cases saves with
    | true => exact hflush.save outcome
    | false => exact hflush
  cases a with
  | upsert currentTime writeSeq data => exact hinv.upsert hinj hallowed hcareful
  | delete ids => exact hinv.delete ids
  | deleteEntity entityName =>
    simp only [World.exec]
    cases hbackend : impl.backend with
    | nano => exact hinv.reload.removeEntity fun hclient => hcareful hbackend hclient
    | faiss => exact hinv.delete [impl.entityId entityName]
  | deleteEntityRelation entityName =>
    apply hinv.reload.removeRelations
    intro x removed hclient hmentions
    obtain ⟨hcovered,horder⟩ := hcareful x removed hclient hmentions
    refine ⟨hcovered,?_⟩
    intro row record hrow hlost hrecord hunrelated
    apply horder row record hrow hlost _ hunrelated
    rwa [World.reload,Storage.slot_reload,apply_ite (fun σ => Slot.Buffered σ record),
      show Slot.Buffered { w.storage.slot x with client := w.file.rows.get x } record =
        (w.storage.slot x).Buffered record from rfl,ite_self] at hrecord
  | indexDoneCallback embeds outcome =>
    apply hcommit outcome w.reload hinv.reload embeds
    intro x hx
    rw [pendingDeletes_reload] at hx
    exact hcareful x hx
  | finalize embeds outcome =>
    simp only [World.exec,flushed,flushBase]
    split
    · apply hcommit outcome w.reloadClean hinv.reloadClean embeds
      exact covered_reloadClean hcareful
    · exact hinv
  | peer rows fingerprint notified => exact hinv.commitPeer hinj hallowed
  | lookUp ids => exact hinv.beginRead ids
  | answer i => exact hinv.endRead i

theorem answered (hinv : w.Inv impl) {read : Read F} (hread : read ∈ w.reads) {x : String}
    {row : Row} (h : (x, some row) ∈ w.answers impl read) : row ∉ read.deleted x := by
  obtain ⟨⟨y,peek⟩,hpeek,heq⟩ := mem_map.mp h
  obtain ⟨rfl,hanswer⟩ := Prod.mk.inj heq
  have hreads : (w.reloadFor read).reads = w.reads := by
    unfold World.reloadFor
    split <;> rfl
  have hhides := (hinv.reloadFor read).hides read (by rwa [hreads]) y peek hpeek
  intro hin
  cases peek with
  | answered answer => exact hhides row hanswer hin
  | deferred redo logged =>
    obtain ⟨hredo,hresident⟩ := hhides
    cases redo with
    | some record =>
      change (if rowIsStrictlyNewer ((w.reloadFor read).storage.client.get y) record then
        (w.reloadFor read).storage.client.get y else some record) = some row at hanswer
      split at hanswer
      · rename_i hnewer
        rw [hanswer] at hnewer
        have hold := (hresident row (.inl hanswer) hin).2 record rfl
        rw [hnewer] at hold
        cases hold
      · obtain rfl := some.inj hanswer
        exact hredo record rfl hin
    | none =>
      rw [Storage.resolve] at hanswer
      split at hanswer
      · rename_i resident hclient
        split at hanswer
        · cases hanswer
        · rename_i hlogged
          obtain rfl := some.inj hanswer
          exact hlogged (hresident resident (.inl hclient) hin).1
      · cases hanswer

theorem published (hinj : Function.Injective impl.rowFingerprint) (hinv : w.Inv impl) {a : Action}
    (hcareful : w.Careful impl a) {outcome : SaveOutcome}
    (hflushed : w.flushed impl a = some (w', true)) (houtcome : a.outcome = some outcome)
    (hwrites : outcome.writes = true) {x : String} {row : Row}
    (hrow : (w.exec impl a).file.rows.get x = some row) : row ∉ (w'.history x).deleted := by
  have hclean : Clean w' := by
    cases a with
    | indexDoneCallback embeds outcome =>
      obtain ⟨rfl,-⟩ := Prod.mk.inj (some.inj hflushed)
      apply hinv.reload.flush_clean hinj embeds
      intro x hx
      rw [pendingDeletes_reload] at hx
      exact hcareful x hx
    | finalize embeds outcome =>
      simp only [flushed,flushBase] at hflushed
      split at hflushed
      · obtain ⟨rfl,-⟩ := Prod.mk.inj (some.inj hflushed)
        exact hinv.reloadClean.flush_clean hinj embeds (covered_reloadClean hcareful)
      · cases hflushed
    | _ => cases houtcome
  have hexec : w.exec impl a = w'.save impl outcome := by
    cases a with
    | indexDoneCallback embeds outcome' =>
      obtain rfl := some.inj houtcome
      rw [World.exec,hflushed]
      rfl
    | finalize embeds outcome' =>
      obtain rfl := some.inj houtcome
      rw [World.exec,hflushed]
      rfl
    | _ => cases houtcome
  have hfile : (w'.save impl outcome).file.rows = w'.storage.client := by
    cases outcome with
    | failed fingerprint lost => cases hwrites
    | unannounced fingerprint updated => rfl
    | announced fingerprint => rfl
  rw [hexec,hfile] at hrow
  exact hclean x row hrow

theorem replayed (hinv : w.Inv impl) {a : Action} {base : World F} (hbase : w.flushBase a = some base)
    {x : String} {row : Row} (hclient : base.storage.client.get x = some row)
    (hqueued : x ∉ base.storage.pendingDeletes)
    (hremoved : (base.storage.applyDeletes impl).client.get x = none) :
    row ∉ (w.history x).written := by
  have hbaseInv : base.Inv impl ∧ base.history = w.history := by
    cases a with
    | indexDoneCallback embeds outcome =>
      obtain rfl := some.inj hbase
      exact ⟨hinv.reload,rfl⟩
    | finalize embeds outcome =>
      simp only [flushBase] at hbase
      split at hbase
      · obtain rfl := some.inj hbase
        exact ⟨hinv.reloadClean,rfl⟩
      · cases hbase
    | _ => cases hbase
  obtain ⟨hbaseInv,hhistory⟩ := hbaseInv
  have hs := hbaseInv.sound x
  have hgone : ((base.storage.slot x).applyDeletes impl).client = none := by
    rw [← Storage.slot_applyDeletes]
    exact hremoved
  have hslot : (base.storage.slot x).client = some row := hclient
  obtain heq | ⟨row',hrow',hlogged,-⟩ :=
    Sound.applyDeletes_unqueued (decide_eq_false hqueued) hs.single
  · rw [heq,hslot] at hgone
    cases hgone
  · obtain rfl := some.inj (hslot.symm.trans hrow')
    rw [← hhistory]
    exact fun hin => hs.written row hin hlogged

end Inv

def CarefulStep (impl : Impl F) (w : World F) (a : Action) (w' : World F) : Prop :=
  w.Careful impl a ∧ w.Step impl a w'

theorem Inv.run (hinj : Function.Injective impl.rowFingerprint) {file : File} {as : List Action}
    (hrun : Run (CarefulStep impl) (World.start file) as w) : w.Inv impl := by
  apply hrun.preserves _ (Inv.start file)
  rintro s a t ⟨hcareful,hallowed,rfl⟩ hinv
  exact hinv.exec hinj hallowed hcareful

end World

theorem deletes_kept {impl : Impl F} (hinj : Function.Injective impl.rowFingerprint) {file : File}
    {as : List Action} {w : World F} (hrun : Run (World.CarefulStep impl) (World.start file) as w)
    {a : Action} (hcareful : w.Careful impl a) : w.Kept impl a := by
  have hinv := World.Inv.run hinj hrun
  refine ⟨?_,?_,?_⟩
  · intro i read _ hread x row hrow
    exact hinv.answered (mem_of_getElem? hread) hrow
  · intro w' outcome hflushed houtcome hwrites x row hrow
    exact hinv.published hinj hcareful hflushed houtcome hwrites hrow
  · intro base hbase x row hclient hqueued hremoved
    exact hinv.replayed hbase hclient hqueued hremoved

def sampleFields : Fields := ⟨none, none, "text"⟩

def oldRow : Row := ⟨some 1, 0, sampleFields⟩

def sampleRows : Dict String Row := ⟨[("c", oldRow)], nodup_singleton _⟩

def sampleImpl (backend : Backend) : Impl Row := ⟨backend, id, fun name => "ent-" ++ name⟩

def ranWith (backend : Backend) (as : List Action) : World Row :=
  as.foldl (World.exec (sampleImpl backend)) (World.start ⟨sampleRows, 0⟩)

def deletedOnce : List Action :=
  [.delete ["c"], .indexDoneCallback true (.failed 0 []), .peer sampleRows 1 true, .lookUp ["c"]]

theorem deletedOnce_kept :
    ∃ w : World Row, Run (World.CarefulStep (sampleImpl .nano)) (World.start ⟨sampleRows, 0⟩)
      deletedOnce w ∧ w.Kept (sampleImpl .nano) (.answer 0) ∧
        (∃ read, w.reads[0]? = some read ∧ oldRow ∈ read.deleted "c" ∧
          w.answers (sampleImpl .nano) read = [("c", none)]) := by
  have hrun : Run (World.CarefulStep (sampleImpl .nano)) (World.start ⟨sampleRows,0⟩) deletedOnce
      (ranWith .nano deletedOnce) := by
    refine .cons ⟨trivial,trivial,rfl⟩ (.cons ⟨?_,trivial,rfl⟩
      (.cons ⟨trivial,?_,rfl⟩ (.cons ⟨trivial,trivial,rfl⟩ (.nil _))))
    · exact fun x _ row hrow _ => .inl hrow
    · exact fun x row hrow => .inl hrow
  exact ⟨_,hrun,deletes_kept Function.injective_id hrun trivial,_,rfl,by decide +kernel,by
    decide +kernel⟩

def replacedThenDeleted : List Action :=
  [.upsert 0 2 ⟨[("c", sampleFields)], nodup_singleton _⟩,
    .indexDoneCallback true (.failed 0 []), .delete ["c"],
    .indexDoneCallback true (.failed 0 []), .peer sampleRows 1 true, .lookUp ["c"]]

/-- Two versions that were deleted one after the other. -/
def deletedTwice : List Action :=
  [.delete ["c"], .indexDoneCallback true (.failed 0 []),
    .upsert 0 2 ⟨[("c", sampleFields)], nodup_singleton _⟩,
    .indexDoneCallback true (.failed 0 []), .delete ["c"],
    .indexDoneCallback true (.failed 0 []), .peer sampleRows 1 true, .lookUp ["c"]]

/-- After the run a read answers with a deleted version. -/
def ReturnsDeleted (backend : Backend) (as : List Action) : Prop :=
  ∃ w : World Row, Run (World.Step (sampleImpl backend)) (World.start ⟨sampleRows, 0⟩) as w ∧
    ¬ w.Kept (sampleImpl backend) (.answer 0)

theorem single_get {α : Type} {v v' : α} {x : String}
    (h : (⟨[("c", v)], nodup_singleton _⟩ : Dict String α).get x = some v') :
    x = "c" ∧ v' = v :=
  Prod.mk.inj (mem_singleton.mp (Dict.get_eq_some.mp h))

theorem returnsDeleted_of {backend : Backend} {as : List Action} {read : Read Row}
    (hrun : Run (World.Step (sampleImpl backend)) (World.start ⟨sampleRows, 0⟩) as
      (ranWith backend as))
    (hread : (ranWith backend as).reads[0]? = some read)
    (hanswer : ("c", some oldRow) ∈ (ranWith backend as).answers (sampleImpl backend) read)
    (hdeleted : oldRow ∈ read.deleted "c") : ReturnsDeleted backend as :=
  ⟨_,hrun,fun hkept => hkept.answered 0 read rfl hread "c" oldRow hanswer hdeleted⟩

theorem deleted_version_returns :
    ReturnsDeleted .nano replacedThenDeleted ∧ ReturnsDeleted .faiss replacedThenDeleted ∧
      ReturnsDeleted .nano deletedTwice := by
  refine ⟨?_,?_,?_⟩
  · refine returnsDeleted_of (.cons ⟨?_,rfl⟩ (.cons ⟨trivial,rfl⟩ (.cons ⟨trivial,rfl⟩
      (.cons ⟨trivial,rfl⟩ (.cons ⟨?_,rfl⟩ (.cons ⟨trivial,rfl⟩ (.nil _)))))))
      rfl (by decide +kernel) (by decide +kernel)
    · intro x fields hdata
      obtain ⟨rfl,-⟩ := single_get hdata
      decide +kernel
    · exact fun x row hrow => .inl hrow
  · refine returnsDeleted_of (.cons ⟨?_,rfl⟩ (.cons ⟨trivial,rfl⟩ (.cons ⟨trivial,rfl⟩
      (.cons ⟨trivial,rfl⟩ (.cons ⟨?_,rfl⟩ (.cons ⟨trivial,rfl⟩ (.nil _)))))))
      rfl (by decide +kernel) (by decide +kernel)
    · intro x fields hdata
      obtain ⟨rfl,-⟩ := single_get hdata
      decide +kernel
    · intro x row hrow
      obtain ⟨rfl,rfl⟩ := single_get hrow
      exact .inl (by decide +kernel)
  · refine returnsDeleted_of (.cons ⟨trivial,rfl⟩ (.cons ⟨trivial,rfl⟩ (.cons ⟨?_,rfl⟩
      (.cons ⟨trivial,rfl⟩ (.cons ⟨trivial,rfl⟩ (.cons ⟨trivial,rfl⟩ (.cons ⟨?_,rfl⟩
        (.cons ⟨trivial,rfl⟩ (.nil _)))))))))
      rfl (by decide +kernel) (by decide +kernel)
    · intro x fields hdata
      obtain ⟨rfl,-⟩ := single_get hdata
      decide +kernel
    · exact fun x row hrow => .inl hrow

end LightRAG.VectorStores
