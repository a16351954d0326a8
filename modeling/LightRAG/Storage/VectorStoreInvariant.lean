import LightRAG.Storage.VectorStoreHistory

/-!
# What the redo logs name

Of the row versions behind a flushed delete, those that a reload or a read can still meet are
named by the delete redo log, and no record waiting in a buffer is one of them.
-/

namespace LightRAG.VectorStores
open List Option

variable {F : Type}

namespace Slot

def Resident (σ : Slot F) (disk : Option Row) (row : Row) : Prop :=
  σ.client = some row ∨ disk = some row

def Buffered (σ : Slot F) (record : Row) : Prop := σ.pending = some record ∨ σ.redo = some record

end Slot

open Slot

variable {impl : Impl F} {σ σ' : Slot F} {disk disk' : Option Row} {h : History}

structure Sound (impl : Impl F) (σ : Slot F) (disk : Option Row) (h : History) : Prop where
  seen : ∀ row, σ.Resident disk row ∨ σ.Buffered row ∨ row ∈ h.removed → row ∈ h.seen
  single : impl.backend = .nano → σ.logged.length ≤ 1
  logged : ∀ fingerprint ∈ σ.logged, ∃ row ∈ h.removed, impl.rowFingerprint row = fingerprint
  kept : ∀ record, σ.Buffered record → record ∉ h.removed
  deleted : ∀ row ∈ h.deleted, row ∈ h.removed
  queued : σ.queued = true → σ.pending = none ∧ σ.redo = none
  named : ∀ row, σ.Resident disk row → row ∈ h.deleted →
    impl.rowFingerprint row ∈ σ.logged ∧
      ∀ record, σ.Buffered record → rowIsStrictlyNewer (some row) record = false
  written : ∀ row ∈ h.written, impl.rowFingerprint row ∉ σ.logged

namespace Sound

theorem start (impl : Impl F) (file : File) (x : String) :
    Sound impl ((Storage.load file : Storage F).slot x) (file.rows.get x)
      (.start (file.rows.get x)) where
  seen row hrow := by
    obtain hrow | hrow | hrow := hrow
    · have hget : file.rows.get x = some row := by
        obtain hrow | hrow := hrow <;> exact hrow
      simp [History.start,hget]
    · obtain hrow | hrow := hrow <;> cases hrow
    · cases hrow
  single _ := Nat.zero_le 1
  logged fingerprint hin := by cases hin
  kept record hrecord := by obtain hrecord | hrecord := hrecord <;> cases hrecord
  deleted row hin := by cases hin
  queued hqueued := by cases hqueued
  named row _ hin := by cases hin
  written row hin := by cases hin

theorem shrink (hs : Sound impl σ disk h)
    (hresident : ∀ row, σ'.Resident disk' row → σ.Resident disk row ∨ σ.Buffered row)
    (hbuffered : ∀ record, σ'.Buffered record → σ.Buffered record)
    (hlogged : σ'.logged = σ.logged)
    (hqueued : σ'.queued = true → σ'.pending = none ∧ σ'.redo = none) :
    Sound impl σ' disk' h where
  seen row hrow := by
    apply hs.seen
    obtain hrow | hrow | hrow := hrow
    · obtain hrow | hrow := hresident row hrow
      · exact .inl hrow
      · exact .inr (.inl hrow)
    · exact .inr (.inl (hbuffered row hrow))
    · exact .inr (.inr hrow)
  single := hlogged ▸ hs.single
  logged := hlogged ▸ hs.logged
  kept record hrecord := hs.kept record (hbuffered record hrecord)
  deleted := hs.deleted
  queued := hqueued
  named row hrow hin := by
    obtain hrow | hrow := hresident row hrow
    · obtain ⟨hnamed,horder⟩ := hs.named row hrow hin
      exact ⟨hlogged ▸ hnamed,fun record hrecord => horder record (hbuffered record hrecord)⟩
    · exact absurd (hs.deleted row hin) (hs.kept row hrow)
  written := hlogged ▸ hs.written

theorem mem_replace {before after : Option Row} {row : Row} :
    row ∈ (h.replace before after).removed ↔
      (before = some row ∧ after ≠ some row) ∨ row ∈ h.removed := by
  rw [History.replace,mem_append]
  apply or_congr_left
  cases before with
  | none => simp [History.lost]
  | some v =>
    rw [History.lost]
    split
    · rename_i hafter
      simp only [not_mem_nil,some.injEq,false_iff,not_and,not_not]
      rintro rfl
      exact hafter
    · rename_i hafter
      simp only [mem_singleton,some.injEq]
      constructor
      · rintro rfl
        exact ⟨rfl,hafter⟩
      · exact fun heq => heq.1.symm

theorem replace {before after : Option Row} (hs : Sound impl σ disk h)
    (hseen : ∀ row, before = some row → row ∈ h.seen)
    (hbuffered : ∀ row, before = some row → after ≠ some row → ¬ σ.Buffered row) :
    Sound impl σ disk (h.replace before after) where
  seen row hrow := by
    obtain hrow | hrow | hrow := hrow
    · exact hs.seen row (.inl hrow)
    · exact hs.seen row (.inr (.inl hrow))
    · obtain hrow | hrow := mem_replace.mp hrow
      · exact hseen row hrow.1
      · exact hs.seen row (.inr (.inr hrow))
  single := hs.single
  logged fingerprint hin := by
    obtain ⟨row,hrow,heq⟩ := hs.logged fingerprint hin
    exact ⟨row,mem_replace.mpr (.inr hrow),heq⟩
  kept record hrecord hin := by
    obtain hin | hin := mem_replace.mp hin
    · exact hbuffered record hin.1 hin.2 hrecord
    · exact hs.kept record hrecord hin
  deleted row hin := mem_replace.mpr (.inr (hs.deleted row hin))
  queued := hs.queued
  named := hs.named
  written := hs.written

theorem unchanged (hs : Sound impl σ disk h) :
    Sound impl σ disk (h.replace σ.client σ.client) :=
  hs.replace (fun row hrow => hs.seen row (.inl (.inl hrow))) fun _ hrow hne => absurd hrow hne

theorem write {record : Row} (hinj : Function.Injective impl.rowFingerprint)
    (hs : Sound impl σ disk h) (hfresh : record ∉ h.seen)
    (hresident : ∀ row, σ'.Resident disk' row → σ.Resident disk row ∨ row = record)
    (hbuffered : ∀ row, σ'.Buffered row → σ.Buffered row ∨ row = record)
    (hlogged : σ'.logged = σ.logged)
    (hqueued : σ'.queued = true → σ'.pending = none ∧ σ'.redo = none)
    (horder : σ'.Buffered record → ∀ row, σ.Resident disk row → row ∈ h.deleted →
      rowIsStrictlyNewer (some row) record = false) :
    Sound impl σ' disk' (h.write (some record)) where
  seen row hrow := by
    rw [History.write,toList_some,singleton_append,mem_cons]
    obtain hrow | hrow | hrow := hrow
    · obtain hrow | hrow := hresident row hrow
      · exact .inr (hs.seen row (.inl hrow))
      · exact .inl hrow
    · obtain hrow | hrow := hbuffered row hrow
      · exact .inr (hs.seen row (.inr (.inl hrow)))
      · exact .inl hrow
    · exact .inr (hs.seen row (.inr (.inr hrow)))
  single := hlogged ▸ hs.single
  logged := hlogged ▸ hs.logged
  kept row hrow hin := by
    obtain hrow | rfl := hbuffered row hrow
    · exact hs.kept row hrow hin
    · exact hfresh (hs.seen row (.inr (.inr hin)))
  deleted := hs.deleted
  queued := hqueued
  named row hrow hin := by
    have hremoved := hs.deleted row hin
    obtain hrow | rfl := hresident row hrow
    · obtain ⟨hnamed,hold⟩ := hs.named row hrow hin
      refine ⟨hlogged ▸ hnamed,?_⟩
      intro w hw
      obtain hw' | rfl := hbuffered w hw
      · exact hold w hw'
      · exact horder hw row hrow hin
    · exact absurd (hs.seen row (.inr (.inr hremoved))) hfresh
  written row hin := by
    simp only [History.write,toList_some,singleton_append,mem_cons] at hin
    rw [hlogged]
    obtain rfl | hin := hin
    · intro hin
      obtain ⟨old,hold,heq⟩ := hs.logged _ hin
      rw [hinj heq] at hold
      exact hfresh (hs.seen row (.inr (.inr hold)))
    · exact hs.written row hin

theorem retire (hs : Sound impl σ disk h) :
    Sound impl { σ with redo := none, logged := [] } σ.client h.retire where
  seen row hrow := by
    obtain hrow | hrow | hrow := hrow
    · obtain hrow | hrow := hrow <;> exact hs.seen row (.inl (.inl hrow))
    · obtain hrow | hrow := hrow
      · exact hs.seen row (.inr (.inl (.inl hrow)))
      · cases hrow
    · cases hrow
  single _ := Nat.zero_le 1
  logged f hf := by cases hf
  kept record _ hin := by cases hin
  deleted row hin := by cases hin
  queued hqueued := ⟨(hs.queued hqueued).1,rfl⟩
  named row _ hin := by cases hin
  written row _ hin := by cases hin

theorem materialize (hs : Sound impl σ disk h) :
    Sound impl σ.materialize disk (h.replace σ.client σ.materialize.client) := by
  have hseen : ∀ row, σ.client = some row → row ∈ h.seen :=
    fun row hrow => hs.seen row (.inl (.inl hrow))
  unfold Slot.materialize
  cases hpending : σ.pending with
  | none => exact hs.unchanged
  | some record =>
    have hshrunk : Sound impl { σ with client := some record, redo := some record, pending := none }
        disk h := by
      apply hs.shrink
      · rintro row (hrow | hrow)
        · exact .inr (.inl (hpending.trans hrow))
        · exact .inl (.inr hrow)
      · rintro row (hrow | hrow)
        · cases hrow
        · exact .inl (hpending.trans hrow)
      · rfl
      · intro hqueued
        rw [(hs.queued hqueued).1] at hpending
        cases hpending
    apply hshrunk.replace hseen
    rintro row hrow hne (hbuffered | hbuffered)
    · cases hbuffered
    · exact hne hbuffered

variable [DecidableEq F]

theorem mem_logRemoval {backend : Backend} {logged : List F} {f g : F} :
    g ∈ Storage.logRemoval backend logged f ↔ g = f ∨ backend = .faiss ∧ g ∈ logged := by
  cases backend with
  | nano => simp [Storage.logRemoval]
  | faiss => simp [Storage.logRemoval]

theorem mem_loggedAfter {f : F} :
    f ∈ σ.loggedAfter impl ↔
      (∃ row, σ.client = some row ∧ impl.rowFingerprint row = f) ∨
        (impl.backend = .nano → σ.client = none) ∧ f ∈ σ.logged := by
  unfold Slot.loggedAfter
  cases σ.client with
  | none => simp
  | some row =>
    rw [mem_logRemoval]
    cases impl.backend <;> simp [eq_comm]

theorem logRemoval_of_mem {backend : Backend} {logged : List F} {f : F} (hin : f ∈ logged)
    (hsingle : backend = .nano → logged.length ≤ 1) :
    Storage.logRemoval backend logged f = logged := by
  cases backend with
  | nano =>
    obtain ⟨g,rfl⟩ := length_eq_one_iff.mp
      (Nat.le_antisymm (hsingle rfl) (length_pos_of_mem hin))
    rw [mem_singleton.mp hin]
    rfl
  | faiss => exact insert_of_mem hin

/-- The row on disk, if this instance ever removed or replaced it, is one that the delete redo log
names after the removal of the row of the client. -/
def Covered (impl : Impl F) (σ : Slot F) (disk : Option Row) (h : History) : Prop :=
  ∀ row, disk = some row → σ.client = some row ∨ row ∈ h.removed →
    σ.client = some row ∨
      (impl.backend = .nano → σ.client = none) ∧ impl.rowFingerprint row ∈ σ.logged

theorem delete (hs : Sound impl σ disk h) (hclient : σ'.client = none)
    (hbuffered : ∀ record, σ'.Buffered record → σ.Buffered record)
    (hlogged : σ'.logged = σ.loggedAfter impl)
    (hqueued : σ'.queued = true → σ'.pending = none ∧ σ'.redo = none)
    (hlost : ∀ row, σ.client = some row → ¬ σ'.Buffered row)
    (hcovered : Covered impl σ disk h)
    (horder : ∀ row record, disk = some row → σ.client = some row ∨ row ∈ h.removed →
      σ'.Buffered record → rowIsStrictlyNewer (some row) record = false) :
    Sound impl σ' disk (h.replace σ.client none).delete where
  seen row hrow := by
    obtain hrow | hrow | hrow := hrow
    · obtain hrow | hrow := hrow
      · rw [hclient] at hrow
        cases hrow
      · exact hs.seen row (.inl (.inr hrow))
    · exact hs.seen row (.inr (.inl (hbuffered row hrow)))
    · obtain hrow | hrow := mem_replace.mp hrow
      · exact hs.seen row (.inl (.inl hrow.1))
      · exact hs.seen row (.inr (.inr hrow))
  single hnano := by
    rw [hlogged,Slot.loggedAfter]
    cases σ.client with
    | none => exact hs.single hnano
    | some row =>
      rw [hnano]
      exact Nat.le_refl 1
  logged f hf := by
    rw [hlogged,mem_loggedAfter] at hf
    obtain ⟨row,hrow,heq⟩ | ⟨-,hf⟩ := hf
    · exact ⟨row,mem_replace.mpr (.inl ⟨hrow,fun h => absurd h.symm (some_ne_none _)⟩),heq⟩
    · obtain ⟨row,hrow,heq⟩ := hs.logged f hf
      exact ⟨row,mem_replace.mpr (.inr hrow),heq⟩
  kept record hrecord hin := by
    obtain hin | hin := mem_replace.mp hin
    · exact hlost record hin.1 hrecord
    · exact hs.kept record (hbuffered record hrecord) hin
  deleted row hin := hin
  queued := hqueued
  named row hrow hin := by
    have hdisk : disk = some row := by
      obtain hrow | hrow := hrow
      · rw [hclient] at hrow
        cases hrow
      · exact hrow
    have hremoved : σ.client = some row ∨ row ∈ h.removed := by
      obtain hin | hin := mem_replace.mp hin
      · exact .inl hin.1
      · exact .inr hin
    refine ⟨?_,fun record hrecord => horder row record hdisk hremoved hrecord⟩
    rw [hlogged,mem_loggedAfter]
    obtain hnamed | hnamed := hcovered row hdisk hremoved
    · exact .inl ⟨row,hnamed,rfl⟩
    · exact .inr hnamed
  written row hin := by cases hin

theorem applyDeletes_queued (hqueued : σ.queued = true) :
    σ.applyDeletes impl =
      { σ with client := none, queued := false, logged := σ.loggedAfter impl } := by
  obtain ⟨client,pending,redo,queued,logged⟩ := σ
  unfold Slot.applyDeletes Slot.loggedAfter
  cases client with
  | none => rfl
  | some row => simp [show queued = true from hqueued,Slot.remove]

theorem applyDeletes_unqueued (hqueued : σ.queued = false)
    (hsingle : impl.backend = .nano → σ.logged.length ≤ 1) :
    σ.applyDeletes impl = σ ∨
      ∃ row, σ.client = some row ∧ impl.rowFingerprint row ∈ σ.logged ∧
        σ.applyDeletes impl = { σ with client := none } := by
  obtain ⟨client,pending,redo,queued,logged⟩ := σ
  obtain rfl : queued = false := hqueued
  unfold Slot.applyDeletes
  cases client with
  | none => exact .inl rfl
  | some row =>
    by_cases hin : impl.rowFingerprint row ∈ logged
    · refine .inr ⟨row,rfl,hin,?_⟩
      simp only [hin,or_true,if_true,Slot.remove,logRemoval_of_mem hin hsingle]
    · simp [hin]

theorem applyDeletes (hinj : Function.Injective impl.rowFingerprint) (hs : Sound impl σ disk h)
    (hcovered : σ.queued = true → Covered impl σ disk h) :
    Sound impl (σ.applyDeletes impl) disk
      (if σ.queued then (h.replace σ.client (σ.applyDeletes impl).client).delete
        else h.replace σ.client (σ.applyDeletes impl).client) := by
  cases hqueued : σ.queued with
  | true =>
    obtain ⟨hpending,hredo⟩ := hs.queued hqueued
    rw [applyDeletes_queued hqueued]
    have hbuffered : ∀ record, ¬ σ.Buffered record := by
      rintro record (hrecord | hrecord)
      · rw [hpending] at hrecord
        cases hrecord
      · rw [hredo] at hrecord
        cases hrecord
    apply hs.delete rfl
    · exact fun record hrecord => hrecord
    · rfl
    · exact nofun
    · exact fun row _ hrow => hbuffered row hrow
    · exact hcovered hqueued
    · exact fun row record _ _ hrecord => absurd hrecord (hbuffered record)
  | false =>
    obtain heq | ⟨row,hclient,hin,heq⟩ := applyDeletes_unqueued hqueued hs.single
    · rw [heq]
      exact hs.unchanged
    · rw [heq]
      have hshrunk : Sound impl { σ with client := none } disk h := by
        apply hs.shrink
        · rintro row (hrow | hrow)
          · cases hrow
          · exact .inl (.inr hrow)
        · exact fun record hrecord => hrecord
        · rfl
        · exact hs.queued
      apply hshrunk.replace
      · exact fun row hrow => hs.seen row (.inl (.inl hrow))
      · intro row' hrow' _ hbuffered
        obtain ⟨old,hold,hsame⟩ := hs.logged _ hin
        rw [hinj hsame,← some.inj (hclient.symm.trans hrow').symm] at hold
        exact hs.kept row' hbuffered hold

theorem replayUpserts_cases (impl : Impl F) (σ : Slot F) :
    σ.replayUpserts impl = σ ∨ σ.replayUpserts impl = { σ with redo := none } ∨
      ∃ record, σ.pending = none ∧ σ.redo = some record ∧
        σ.replayUpserts impl = { σ with client := some record } := by
  obtain ⟨client,pending,redo,queued,logged⟩ := σ
  unfold Slot.replayUpserts
  cases pending with
  | some pending => exact .inl rfl
  | none =>
    cases redo with
    | none => exact .inl rfl
    | some record =>
      cases client with
      | none => exact .inr (.inr ⟨record,rfl,rfl,rfl⟩)
      | some resident =>
        dsimp only
        split
        · exact .inl rfl
        · split
          · exact .inr (.inl rfl)
          · exact .inr (.inr ⟨record,rfl,rfl,rfl⟩)

theorem replayUpserts (hs : Sound impl σ disk h) :
    Sound impl (σ.replayUpserts impl) disk
      (h.replace σ.client (σ.replayUpserts impl).client) := by
  have hseen : ∀ row, σ.client = some row → row ∈ h.seen :=
    fun row hrow => hs.seen row (.inl (.inl hrow))
  obtain heq | heq | ⟨record,hpending,hredo,heq⟩ := replayUpserts_cases impl σ
  · rw [heq]
    exact hs.unchanged
  · rw [heq]
    have hshrunk : Sound impl { σ with redo := none } disk h := by
      apply hs.shrink
      · exact fun row hrow => .inl hrow
      · rintro record (hrecord | hrecord)
        · exact .inl hrecord
        · cases hrecord
      · rfl
      · exact fun hqueued => ⟨(hs.queued hqueued).1,rfl⟩
    exact hshrunk.unchanged
  · rw [heq]
    have hshrunk : Sound impl { σ with client := some record } disk h := by
      apply hs.shrink
      · rintro row (hrow | hrow)
        · exact .inr (.inr (hredo.trans hrow))
        · exact .inl (.inr hrow)
      · exact fun record hrecord => hrecord
      · rfl
      · exact hs.queued
    apply hshrunk.replace hseen
    rintro row hrow hne (hbuffered | hbuffered)
    · cases hpending.symm.trans hbuffered
    · exact hne (hredo.symm.trans hbuffered)

end Sound
end LightRAG.VectorStores
