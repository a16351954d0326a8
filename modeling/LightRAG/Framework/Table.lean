import Mathlib.Algebra.GroupWithZero.Nat
import Mathlib.Data.List.Nodup

/-!
# Tables of rows

A table is a list of rows. The statements `UPDATE … WHERE` and `DELETE … WHERE` are a
conditional map and a filter; a primary key is a projection whose values are pairwise distinct.
-/

namespace LightRAG.Table
open List Function

variable {α β : Type}

/-- `UPDATE … SET f WHERE p`. -/
def updateWhere (p : α → Bool) (f : α → α) (rows : List α) : List α :=
  rows.map fun r => if p r then f r else r

/-- `DELETE … WHERE p`. -/
def deleteWhere (p : α → Bool) (rows : List α) : List α := rows.filter fun r => !p r

variable {rows : List α} {p : α → Bool}

theorem mem_updateWhere {f : α → α} {r : α} :
    r ∈ updateWhere p f rows ↔
      ∃ r₀ ∈ rows, (p r₀ = true ∧ f r₀ = r) ∨ (p r₀ = false ∧ r₀ = r) := by
  simp only [updateWhere,mem_map]
  constructor
  · rintro ⟨r₀,hr₀,rfl⟩
    refine ⟨r₀,hr₀,?_⟩
    cases hp : p r₀ <;> simp
  · rintro ⟨r₀,hr₀,⟨hp,rfl⟩ | ⟨hp,rfl⟩⟩
    · exact ⟨r₀,hr₀,by simp [hp]⟩
    · exact ⟨r₀,hr₀,by simp [hp]⟩

@[simp] theorem mem_deleteWhere {r : α} :
    r ∈ deleteWhere p rows ↔ r ∈ rows ∧ p r = false := by
  simp [deleteWhere]

theorem length_deleteWhere_le (p : α → Bool) (rows : List α) :
    (deleteWhere p rows).length ≤ rows.length :=
  length_filter_le _ _

@[simp] theorem length_updateWhere (p : α → Bool) (f : α → α) (rows : List α) :
    (updateWhere p f rows).length = rows.length :=
  length_map _

variable {key : α → β}

theorem map_updateWhere {f : α → α}
    (hkey : ∀ r, key (f r) = key r) : (updateWhere p f rows).map key = rows.map key := by
  simp only [updateWhere,map_map]
  apply map_congr_left
  intro r _
  cases hp : p r <;> simp [hp,hkey]

theorem eq_of_key (hnd : (rows.map key).Nodup) {r r' : α}
    (hr : r ∈ rows) (hr' : r' ∈ rows) (hk : key r = key r') : r = r' :=
  inj_on_of_nodup_map hnd hr hr' hk

theorem nodup_append_new {r : α} (hnd : (rows.map key).Nodup)
    (hnew : ∀ r' ∈ rows, key r' ≠ key r) : ((rows ++ [r]).map key).Nodup := by
  rw [map_append,nodup_append]
  refine ⟨hnd,by simp,?_⟩
  intro a ha b hb hab
  obtain ⟨r',hr',rfl⟩ := mem_map.mp ha
  simp only [map_cons,map_nil,mem_singleton] at hb
  exact hnew r' hr' (hab.trans hb)

theorem nodup_deleteWhere (hnd : (rows.map key).Nodup) : ((deleteWhere p rows).map key).Nodup :=
  hnd.sublist (filter_sublist.map key)

section Lookup

variable [DecidableEq β] {key : α → β} {rows : List α} {p : α → Bool}

def lookup (key : α → β) (rows : List α) (k : β) : Option α := rows.find? fun r => key r = k

theorem lookup_eq_none {k : β} : lookup key rows k = none ↔ ∀ r ∈ rows, key r ≠ k := by
  simp [lookup]

theorem mem_of_lookup {k : β} {r : α} (h : lookup key rows k = some r) : r ∈ rows ∧ key r = k := by
  have hkey := List.find?_some h
  exact ⟨mem_of_find?_eq_some h,by simpa using hkey⟩

theorem lookup_eq_some (hnd : (rows.map key).Nodup) {k : β} {r : α} :
    lookup key rows k = some r ↔ r ∈ rows ∧ key r = k := by
  constructor
  · exact mem_of_lookup
  rintro ⟨hr,rfl⟩
  cases hfound : lookup key rows (key r) with
  | none => exact absurd rfl (lookup_eq_none.mp hfound r hr)
  | some r' =>
    obtain ⟨hr',hk⟩ := mem_of_lookup hfound
    rw [eq_of_key hnd hr' hr hk]

theorem lookup_updateWhere {f : α → α} (hkey : ∀ r, key (f r) = key r) (k : β) :
    lookup key (updateWhere p f rows) k =
      (lookup key rows k).map fun r => if p r then f r else r := by
  have hsame : ∀ r, key (if p r then f r else r) = key r := by
    intro r
    cases hp : p r <;> simp [hkey]
  simp only [lookup,updateWhere,List.find?_map,comp_def,hsame]

theorem lookup_append_new {r : α} (hnew : lookup key rows (key r) = none) (k : β) :
    lookup key (rows ++ [r]) k = if k = key r then some r else lookup key rows k := by
  by_cases hk : k = key r
  · subst k
    simp only [lookup] at hnew ⊢
    simp [hnew]
  · have hne : key r ≠ k := fun h => hk h.symm
    simp [lookup,hk,hne]

theorem lookup_deleteWhere (hnd : (rows.map key).Nodup) (k : β) :
    lookup key (deleteWhere p rows) k = (lookup key rows k).filter fun r => !p r := by
  apply Option.ext
  intro r
  rw [lookup_eq_some (nodup_deleteWhere hnd),mem_deleteWhere,Option.filter_eq_some_iff,
    lookup_eq_some hnd]
  constructor
  · rintro ⟨⟨hr,hp⟩,hk⟩
    exact ⟨⟨hr,hk⟩,by simp [hp]⟩
  · rintro ⟨⟨hr,hk⟩,hp⟩
    exact ⟨⟨hr,by simpa using hp⟩,hk⟩

theorem lookup_map {f : α → α} (hkey : ∀ r, key (f r) = key r) (k : β) :
    lookup key (rows.map f) k = (lookup key rows k).map f := by
  simp only [lookup,List.find?_map,comp_def,hkey]

def replace (key : α → β) (r : α) (rows : List α) : List α :=
  updateWhere (fun row => key row = key r) (fun _ => r) rows

theorem map_replace (key : α → β) (r : α) (rows : List α) :
    (replace key r rows).map key = rows.map key := by
  simp only [replace,updateWhere,map_map]
  apply map_congr_left
  intro row _
  by_cases hrow : key row = key r <;> simp [hrow]

theorem mem_replace {r row : α} (h : row ∈ replace key r rows) : row = r ∨ row ∈ rows := by
  rw [replace,mem_updateWhere] at h
  obtain ⟨row₀,hrow₀,⟨-,rfl⟩ | ⟨-,rfl⟩⟩ := h
  · exact .inl rfl
  · exact .inr hrow₀

theorem lookup_replace (r : α) (k : β) :
    lookup key (replace key r rows) k =
      if k = key r then (lookup key rows k).map fun _ => r else lookup key rows k := by
  induction rows with
  | nil => simp [replace,updateWhere,lookup]
  | cons row rows ih =>
    have hcons : replace key r (row :: rows) =
        (if key row = key r then r else row) :: replace key r rows := by
      simp [replace,updateWhere]
    simp only [lookup] at ih ⊢
    rw [hcons,List.find?_cons,List.find?_cons]
    by_cases hrow : key row = key r
    · rw [if_pos hrow]
      by_cases hk : k = key r
      · simp [hk,hrow]
      · have hne : ¬key r = k := fun h => hk h.symm
        simp only [hrow,hne,decide_false]
        rw [ih]
    · rw [if_neg hrow]
      by_cases hk : key row = k
      · have hne : ¬k = key r := fun h => hrow (hk.trans h)
        simp [hk,hne]
      · simp only [hk,decide_false]
        rw [ih]

theorem sum_updateWhere {f : α → α} (hnd : (rows.map key).Nodup) {k : β} {r : α}
    (hr : lookup key rows k = some r) (w : α → Nat) :
    ((updateWhere (fun row => key row = k) f rows).map w).sum + w r =
      (rows.map w).sum + w (f r) := by
  induction rows with
  | nil => simp [lookup] at hr
  | cons row rows ih =>
    rw [map_cons,nodup_cons] at hnd
    by_cases hrow : key row = k
    · have hsame : row = r := by simpa [lookup,hrow] using hr
      subst hsame
      have hothers : updateWhere (fun row => key row = k) f rows = rows := by
        conv_rhs => rw [← map_id rows]
        apply map_congr_left
        intro other hother
        have hne : ¬key other = k := by
          intro hk
          apply hnd.1
          rw [hrow,← hk]
          exact mem_map_of_mem hother
        simp [hne]
      have hcons : updateWhere (fun row => key row = k) f (row :: rows) = f row :: rows := by
        conv_rhs => rw [← hothers]
        simp [updateWhere,hrow]
      rw [hcons]
      simp only [map_cons,sum_cons]
      omega
    · have hrest : lookup key rows k = some r := by simpa [lookup,hrow] using hr
      have hsum := ih hnd.2 hrest
      have hcons : updateWhere (fun row => key row = k) f (row :: rows) =
          row :: updateWhere (fun row => key row = k) f rows := by
        simp [updateWhere,hrow]
      rw [hcons]
      simp only [map_cons,sum_cons]
      omega

end Lookup

section First

variable {key : α → Nat} {rows : List α}

/-- `ORDER BY key LIMIT 1`. -/
def first (key : α → Nat) (rows : List α) : Option α :=
  rows.foldl (fun best r => if best.any fun b => key b ≤ key r then best else some r) none

theorem of_first {r : α} (h : first key rows = some r) :
    r ∈ rows ∧ ∀ r' ∈ rows, key r ≤ key r' := by
  have hgen : ∀ best, rows.foldl
      (fun best r => if best.any fun b => key b ≤ key r then best else some r) best = some r →
      (best = some r ∨ r ∈ rows) ∧ (∀ b, best = some b → key r ≤ key b) ∧
        ∀ r' ∈ rows, key r ≤ key r' := by
    clear h
    induction rows with
    | nil =>
      intro best hbest
      have hsame : best = some r := hbest
      subst hsame
      refine ⟨.inl rfl,?_,by simp⟩
      intro b hb
      cases hb
      exact Nat.le_refl _
    | cons x rows ih =>
      intro best hfold
      rw [foldl_cons] at hfold
      by_cases hkeep : (best.any fun b => key b ≤ key x) = true
      · rw [if_pos hkeep] at hfold
        obtain ⟨hmem,hbest,hrows⟩ := ih best hfold
        obtain ⟨b,rfl,hb⟩ := (Option.any_eq_true _ _).mp hkeep
        have hle := hbest b rfl
        have hx : key b ≤ key x := by simpa using hb
        refine ⟨?_,hbest,?_⟩
        · rcases hmem with hm | hm
          · exact .inl hm
          · exact .inr (mem_cons_of_mem _ hm)
        · intro r' hr'
          rcases mem_cons.mp hr' with rfl | hin
          · omega
          · exact hrows r' hin
      · rw [if_neg hkeep] at hfold
        obtain ⟨hmem,hbest,hrows⟩ := ih (some x) hfold
        have hle := hbest x rfl
        refine ⟨?_,?_,?_⟩
        · rcases hmem with hm | hm
          · exact .inr (by rw [Option.some.inj hm]; exact mem_cons_self)
          · exact .inr (mem_cons_of_mem _ hm)
        · rintro b rfl
          have hx : ¬key b ≤ key x := by simpa using hkeep
          omega
        · intro r' hr'
          rcases mem_cons.mp hr' with rfl | hin
          · exact hle
          · exact hrows r' hin
  obtain ⟨hmem,-,hmin⟩ := hgen none h
  rcases hmem with hm | hm
  · cases hm
  · exact ⟨hm,hmin⟩

end First

end LightRAG.Table
