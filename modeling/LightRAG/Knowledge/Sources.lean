import Mathlib.Data.List.Nodup
import Mathlib.Data.List.TakeDrop

/-!
# Lists of source ids

A chunk id holds no separator and no outer blank, so a joined `source_id` stands here as the list
of its fragments.
-/

namespace LightRAG.Knowledge
open List

abbrev ChunkId := String

/-- `SOURCE_IDS_LIMIT_METHOD`. -/
inductive LimitMethod
  | keep
  | fifo
deriving DecidableEq

def relationNoEvidenceSourceIds : List ChunkId := ["manual_creation", "UNKNOWN"]

def truthy (ids : List ChunkId) : List ChunkId := ids.filter fun c => c ≠ ""

def evidenceOnly (ids : List ChunkId) : List ChunkId :=
  ids.filter fun c => c ≠ "" ∧ c ∉ relationNoEvidenceSourceIds

/-- One id of `merge_source_ids`. -/
def appendNew (merged : List ChunkId) (c : ChunkId) : List ChunkId :=
  if c = "" ∨ c ∈ merged then merged else merged ++ [c]

def mergeSourceIds (existing new : List ChunkId) : List ChunkId :=
  (existing ++ new).foldl appendNew []

def subtractSourceIds (ids remove : List ChunkId) : List ChunkId :=
  ids.filter fun c => c ≠ "" ∧ c ∉ remove

def applySourceIdsLimit (ids : List ChunkId) (limit : Nat) (method : LimitMethod) :
    List ChunkId :=
  if limit = 0 then []
  else if ids.length ≤ limit then ids
  else match method with
    | .fifo => ids.drop (ids.length - limit)
    | .keep => ids.take limit

section

variable {ids existing new remove merged : List ChunkId} {limit : Nat} {method : LimitMethod}
  {c d : ChunkId}

theorem mem_truthy : c ∈ truthy ids ↔ c ∈ ids ∧ c ≠ "" := by
  simp [truthy]

theorem mem_evidenceOnly :
    c ∈ evidenceOnly ids ↔ c ∈ ids ∧ c ≠ "" ∧ c ∉ relationNoEvidenceSourceIds := by
  simp [evidenceOnly]

theorem mem_subtractSourceIds :
    c ∈ subtractSourceIds ids remove ↔ c ∈ ids ∧ c ≠ "" ∧ c ∉ remove := by
  simp [subtractSourceIds]

theorem applySourceIdsLimit_sublist :
    (applySourceIdsLimit ids limit method).Sublist ids := by
  unfold applySourceIdsLimit
  split
  · exact nil_sublist ids
  · split
    · exact List.Sublist.refl ids
    · cases method with
      | fifo => exact drop_sublist _ ids
      | keep => exact take_sublist _ ids

theorem mem_of_mem_limit (h : c ∈ applySourceIdsLimit ids limit method) : c ∈ ids :=
  applySourceIdsLimit_sublist.subset h

theorem mem_appendNew : d ∈ appendNew merged c ↔ d ∈ merged ∨ (d = c ∧ c ≠ "") := by
  unfold appendNew
  split
  · rename_i h
    constructor
    · exact .inl
    · rintro (hd | ⟨rfl,hne⟩)
      · exact hd
      · exact h.resolve_left hne
  · rename_i h
    rw [not_or] at h
    simp [h.1]

theorem mem_foldl_appendNew : d ∈ ids.foldl appendNew merged ↔ d ∈ merged ∨ (d ∈ ids ∧ d ≠ "") := by
  induction ids generalizing merged with
  | nil => simp
  | cons c ids ih =>
    rw [foldl_cons,ih,mem_appendNew,mem_cons]
    constructor
    · rintro ((hd | ⟨rfl,hne⟩) | ⟨hd,hne⟩)
      · exact .inl hd
      · exact .inr ⟨.inl rfl,hne⟩
      · exact .inr ⟨.inr hd,hne⟩
    · rintro (hd | ⟨rfl | hd,hne⟩)
      · exact .inl (.inl hd)
      · exact .inl (.inr ⟨rfl,hne⟩)
      · exact .inr ⟨hd,hne⟩

theorem mem_mergeSourceIds :
    c ∈ mergeSourceIds existing new ↔ (c ∈ existing ∨ c ∈ new) ∧ c ≠ "" := by
  rw [mergeSourceIds,mem_foldl_appendNew]
  simp

theorem nodup_appendNew (h : merged.Nodup) : (appendNew merged c).Nodup := by
  unfold appendNew
  split
  · exact h
  · rename_i hnew
    rw [not_or] at hnew
    rw [nodup_append]
    refine ⟨h,nodup_singleton c,?_⟩
    rintro a ha b hb rfl
    rw [mem_singleton] at hb
    subst hb
    exact hnew.2 ha

theorem nodup_foldl_appendNew (h : merged.Nodup) : (ids.foldl appendNew merged).Nodup := by
  induction ids generalizing merged with
  | nil => exact h
  | cons c ids ih => exact ih (nodup_appendNew h)

theorem nodup_mergeSourceIds : (mergeSourceIds existing new).Nodup :=
  nodup_foldl_appendNew nodup_nil

theorem prefix_foldl_appendNew : merged <+: ids.foldl appendNew merged := by
  induction ids generalizing merged with
  | nil => exact prefix_refl merged
  | cons c ids ih =>
    refine List.IsPrefix.trans ?_ ih
    unfold appendNew
    split
    · exact prefix_refl merged
    · exact prefix_append merged [c]

theorem foldl_appendNew_of_nodup (hnodup : (merged ++ ids).Nodup) (hids : ∀ c ∈ ids, c ≠ "") :
    ids.foldl appendNew merged = merged ++ ids := by
  induction ids generalizing merged with
  | nil => simp
  | cons c ids ih =>
    have hnew : ¬ (c = "" ∨ c ∈ merged) := by
      rintro (hempty | hin)
      · exact hids c mem_cons_self hempty
      · exact (nodup_append.mp hnodup).2.2 c hin c mem_cons_self rfl
    have hassoc : merged ++ c :: ids = merged ++ [c] ++ ids := by simp
    rw [foldl_cons,appendNew,if_neg hnew,hassoc]
    rw [hassoc] at hnodup
    exact ih hnodup fun c hc => hids c (mem_cons_of_mem _ hc)

theorem prefix_mergeSourceIds (new : List ChunkId) (hnodup : existing.Nodup)
    (hids : ∀ c ∈ existing, c ≠ "") :
    existing <+: mergeSourceIds existing new := by
  rw [mergeSourceIds,foldl_append,foldl_appendNew_of_nodup (by simpa using hnodup) hids]
  exact prefix_foldl_appendNew

theorem limit_subset_existing (hnodup : existing.Nodup) (hids : ∀ c ∈ existing, c ≠ "")
    (hfull : limit ≤ existing.length)
    (hc : c ∈ applySourceIdsLimit (mergeSourceIds existing new) limit .keep) : c ∈ existing := by
  obtain ⟨rest,hrest⟩ := prefix_mergeSourceIds new hnodup hids
  unfold applySourceIdsLimit at hc
  split at hc
  · cases hc
  · split at hc
    · rename_i hlength
      rw [← hrest,length_append] at hlength
      have hnil : rest = [] := length_eq_zero_iff.mp (by omega)
      rw [← hrest,hnil,append_nil] at hc
      exact hc
    · rw [← hrest,take_append_of_le_length hfull] at hc
      exact mem_of_mem_take hc

end

end LightRAG.Knowledge
