import LightRAG.Framework.Dict

/-!
# Stores with a deferred commit

An upsert reaches memory only. A commit of a snapshot store publishes everything or changes nothing;
a commit of a store with a buffer of operations lands each of them or rejects it for good.
-/

namespace LightRAG

inductive Backend
  | snapshot
  | perItem
deriving DecidableEq

/-- How a commit ends. -/
inductive Outcome (κ : Type)
  | lands
  | raises (rejected : List κ)

structure Deferred (κ ν : Type) where
  durable : Dict κ ν
  pending : Dict κ ν

namespace Deferred

variable {κ ν : Type} [DecidableEq κ]

def view (s : Deferred κ ν) (k : κ) : Option ν := (s.pending.get k).or (s.durable.get k)

def upsert (s : Deferred κ ν) (k : κ) (v : ν) : Deferred κ ν :=
  { s with pending := s.pending.set k v }

/-- `index_done_callback`. -/
def commit (b : Backend) (s : Deferred κ ν) : Outcome κ → Deferred κ ν
  | .lands => ⟨s.durable.update s.pending.entries, .empty⟩
  | .raises rejected =>
    match b with
    | .snapshot => s
    | .perItem =>
      ⟨s.durable.update (s.pending.entries.filter fun e => e.1 ∉ rejected), .empty⟩

/-- Only a buffer of operations can be dropped. -/
def drop (b : Backend) (s : Deferred κ ν) (p : κ → Prop) [DecidablePred p] : Deferred κ ν :=
  match b with
  | .snapshot => s
  | .perItem => { s with pending := s.pending.drop p }

/-- `has_pending_index_ops`. -/
def hasPending (b : Backend) (s : Deferred κ ν) : Bool :=
  match b with
  | .snapshot => false
  | .perItem => !s.pending.entries.isEmpty

def restart (s : Deferred κ ν) : Deferred κ ν := ⟨s.durable, .empty⟩

variable {b : Backend} {s : Deferred κ ν} {k k' : κ} {v : ν} {o : Outcome κ} {p : κ → Prop}
  [DecidablePred p]

theorem view_upsert : (s.upsert k v).view k' = if k' = k then some v else s.view k' := by
  unfold view upsert
  rw [Dict.get_set]
  split <;> rfl

theorem pending_upsert :
    (s.upsert k v).pending.get k' = if k' = k then some v else s.pending.get k' := Dict.get_set

theorem view_of_pending (h : s.pending.get k = some v) : s.view k = some v := by
  rw [view,h]
  rfl

theorem view_cases (h : s.view k = some v) :
    s.pending.get k = some v ∨ s.pending.get k = none ∧ s.durable.get k = some v := by
  unfold view at h
  cases hpending : s.pending.get k with
  | none =>
    rw [hpending] at h
    exact .inr ⟨rfl,h⟩
  | some v' =>
    rw [hpending] at h
    exact .inl h

theorem get_update_pending (q : κ × ν → Bool) :
    (s.durable.update (s.pending.entries.filter q)).get k = s.view k ∨
      (s.durable.update (s.pending.entries.filter q)).get k = s.durable.get k := by
  by_cases hmem : k ∈ (s.pending.entries.filter q).map Prod.fst
  · left
    obtain ⟨v,hv,hget⟩ := Dict.get_update_mem (d := s.durable) hmem
    rw [hget,view_of_pending (Dict.get_eq_some.mpr (List.mem_filter.mp hv).1)]
  · exact .inr (Dict.get_update_of_not_mem hmem)

theorem get_durable_lands : (s.commit b .lands).durable.get k = s.view k := by
  unfold commit view
  cases hpending : s.pending.get k with
  | none =>
    apply Dict.get_update_of_not_mem
    exact Dict.get_eq_none.mp hpending
  | some v =>
    have hin := Dict.get_eq_some.mp hpending
    rw [Dict.get_update_of_mem s.pending.nodup hin]
    rfl

theorem view_lands : (s.commit b .lands).view k = s.view k := by
  rw [view,get_durable_lands]
  rfl

theorem get_durable_commit : (s.commit b o).durable.get k = s.view k ∨
    (s.commit b o).durable.get k = s.durable.get k := by
  cases o with
  | lands => exact .inl get_durable_lands
  | raises rejected =>
    cases b with
    | snapshot => exact .inr rfl
    | perItem => exact get_update_pending _

theorem pending_commit : (∀ k, (s.commit b o).pending.get k = none) ∨ s.commit b o = s := by
  cases o with
  | lands => exact .inl fun _ => rfl
  | raises rejected =>
    cases b with
    | snapshot => exact .inr rfl
    | perItem => exact .inl fun _ => rfl

omit [DecidableEq κ] in
@[simp] theorem durable_drop : (s.drop b p).durable = s.durable := by
  cases b <;> rfl

theorem pending_drop (h : (s.drop b p).pending.get k = some v) :
    s.pending.get k = some v ∧ (b = .perItem → ¬ p k) := by
  cases b with
  | snapshot => exact ⟨h,fun hb => nomatch hb⟩
  | perItem =>
    rw [drop,Dict.get_drop] at h
    split at h
    · cases h
    · rename_i hp
      exact ⟨h,fun _ => hp⟩

end Deferred

end LightRAG
