import Mathlib.Data.Finset.Card
import LightRAG.Framework.Table

/-!
# Bounded insertion-ordered maps

A map that keeps the entries added last. A key that is present is not added again, and adding
past the capacity drops the oldest entries.
-/

namespace LightRAG.Recent
open Table List

variable {κ ν : Type} [DecidableEq κ] {capacity : Nat} {entries : List (κ × ν)}

def add (capacity : Nat) (entries : List (κ × ν)) (e : κ × ν) : List (κ × ν) :=
  if entries.any fun p => p.1 = e.1 then entries
  else (entries ++ [e]).drop ((entries ++ [e]).length - capacity)

variable {e : κ × ν}

theorem add_of_mem (h : e.1 ∈ entries.map Prod.fst) :
    add capacity entries e = entries := by
  obtain ⟨p,hp,hkey⟩ := mem_map.mp h
  have hany : (entries.any fun p => decide (p.1 = e.1)) = true :=
    any_eq_true.mpr ⟨p,hp,decide_eq_true hkey⟩
  rw [add,if_pos hany]

theorem add_of_not_mem (h : e.1 ∉ entries.map Prod.fst) :
    add capacity entries e = (entries ++ [e]).drop ((entries ++ [e]).length - capacity) := by
  have hany : ¬(entries.any fun p => decide (p.1 = e.1)) = true := by
    intro hany
    obtain ⟨p,hp,hkey⟩ := any_eq_true.mp hany
    exact h (mem_map.mpr ⟨p,hp,of_decide_eq_true hkey⟩)
  rw [add,if_neg hany]

theorem nodup_add (capacity : Nat) (hnd : (entries.map Prod.fst).Nodup) (e : κ × ν) :
    ((add capacity entries e).map Prod.fst).Nodup := by
  by_cases h : e.1 ∈ entries.map Prod.fst
  · rw [add_of_mem h]
    exact hnd
  · rw [add_of_not_mem h,map_drop]
    have hgrown : ((entries ++ [e]).map Prod.fst).Nodup := by
      apply nodup_append_new hnd
      intro p hp hkey
      exact h (mem_map.mpr ⟨p,hp,hkey⟩)
    exact hgrown.sublist (drop_sublist _ _)

theorem mem_add {k : κ} (h : k ∈ (add capacity entries e).map Prod.fst) :
    k ∈ entries.map Prod.fst ∨ k = e.1 := by
  by_cases he : e.1 ∈ entries.map Prod.fst
  · rw [add_of_mem he] at h
    exact .inl h
  · rw [add_of_not_mem he,map_drop] at h
    have hgrown := mem_of_mem_drop h
    rw [map_append,mem_append] at hgrown
    rcases hgrown with hold | hnew
    · exact .inl hold
    · exact .inr (by simpa using hnew)

theorem add_keeps {older newer : List (κ × ν)} {k : κ} {v : ν}
    (he : e.1 ∉ (older ++ (k, v) :: newer).map Prod.fst) (hroom : newer.length + 2 ≤ capacity) :
    ∃ older', add capacity (older ++ (k, v) :: newer) e = older' ++ (k, v) :: (newer ++ [e]) := by
  rw [add_of_not_mem he,append_assoc,drop_append_of_le_length]
  · exact ⟨_,rfl⟩
  · simp only [length_append,length_cons,length_nil]
    omega

theorem foldl_keeps {post : List (κ × ν)} {k : κ} {v : ν} (seen : List κ)
    (hrecent : (k :: (seen ++ post.map Prod.fst)).toFinset.card ≤ capacity)
    {older newer : List (κ × ν)} (hseen : newer.map Prod.fst ⊆ seen)
    (hnd : ((older ++ (k, v) :: newer).map Prod.fst).Nodup) :
    ∃ older' newer', post.foldl (add capacity) (older ++ (k, v) :: newer) =
      older' ++ (k, v) :: newer' := by
  induction post generalizing seen older newer with
  | nil => exact ⟨older,newer,rfl⟩
  | cons e post ih =>
    rw [foldl_cons]
    have hshift : seen ++ (e :: post).map Prod.fst = (seen ++ [e.1]) ++ post.map Prod.fst := by simp
    by_cases he : e.1 ∈ (older ++ (k, v) :: newer).map Prod.fst
    · rw [add_of_mem he]
      rw [hshift] at hrecent
      exact ih (seen ++ [e.1]) hrecent (fun x hx => mem_append_left _ (hseen hx)) hnd
    · have hdistinct : (k :: (newer.map Prod.fst ++ [e.1])).Nodup := by
        have hall : ((older ++ (k, v) :: newer ++ [e]).map Prod.fst).Nodup :=
          nodup_append_new hnd fun p hp hkey => he (mem_map.mpr ⟨p,hp,hkey⟩)
        have hsub : (k :: (newer.map Prod.fst ++ [e.1])).Sublist
            ((older ++ (k, v) :: newer ++ [e]).map Prod.fst) := by
          simp
        exact hall.sublist hsub
      have hfew : (k :: (newer.map Prod.fst ++ [e.1])).length ≤ capacity := by
        rw [← toFinset_card_of_nodup hdistinct]
        refine (Finset.card_le_card ?_).trans hrecent
        intro x hx
        rw [mem_toFinset] at hx ⊢
        rw [hshift]
        simp only [mem_cons,mem_append,not_mem_nil,or_false] at hx ⊢
        rcases hx with rfl | hnew | rfl
        · exact .inl rfl
        · exact .inr (.inl (.inl (hseen hnew)))
        · exact .inr (.inl (.inr rfl))
      have hroom : newer.length + 2 ≤ capacity := by
        simp only [length_cons,length_append,length_map] at hfew
        omega
      have hnd' := nodup_add capacity hnd e
      obtain ⟨older',hkept⟩ := add_keeps he hroom
      rw [hkept] at hnd' ⊢
      rw [hshift] at hrecent
      apply ih (seen ++ [e.1]) hrecent
      · simp only [map_append]
        exact append_subset.mpr ⟨fun x hx => mem_append_left _ (hseen hx),subset_append_right _ _⟩
      · exact hnd'

theorem nodup_foldl (capacity : Nat) (events : List (κ × ν))
    (hnd : (entries.map Prod.fst).Nodup) :
    ((events.foldl (add capacity) entries).map Prod.fst).Nodup := by
  induction events generalizing entries with
  | nil => exact hnd
  | cons e events ih => exact ih (nodup_add capacity hnd e)

theorem mem_foldl {events : List (κ × ν)} {k : κ}
    (h : k ∈ (events.foldl (add capacity) entries).map Prod.fst) :
    k ∈ entries.map Prod.fst ∨ k ∈ events.map Prod.fst := by
  induction events generalizing entries with
  | nil => exact .inl h
  | cons e events ih =>
    rcases ih h with hold | hlater
    · rcases mem_add hold with hentry | rfl
      · exact .inl hentry
      · exact .inr mem_cons_self
    · exact .inr (mem_cons_of_mem _ hlater)

theorem lookup_of_recent (hpos : 1 ≤ capacity) {pre post : List (κ × ν)} {k : κ} {v : ν}
    (hfirst : k ∉ pre.map Prod.fst)
    (hrecent : (k :: post.map Prod.fst).toFinset.card ≤ capacity) :
    lookup Prod.fst ((pre ++ (k, v) :: post).foldl (add capacity) []) k = some (k, v) := by
  have hnd := @nodup_foldl κ ν _ [] capacity (pre ++ (k, v) :: post) nodup_nil
  rw [lookup_eq_some hnd]
  rw [foldl_append,foldl_cons]
  have hbefore := @nodup_foldl κ ν _ [] capacity pre nodup_nil
  have hnew : (k, v).1 ∉ (pre.foldl (add capacity) []).map Prod.fst := by
    intro hmem
    rcases mem_foldl hmem with hempty | hpre
    · cases hempty
    · exact hfirst hpre
  have hnd' := nodup_add capacity hbefore (k, v)
  rw [add_of_not_mem hnew,drop_append_of_le_length] at hnd' ⊢
  · obtain ⟨older,newer,hkept⟩ := foldl_keeps [] hrecent (nil_subset _) hnd'
    rw [hkept]
    simp
  · rw [length_append,length_singleton]
    omega
  · rw [length_append,length_singleton]
    omega

end LightRAG.Recent
