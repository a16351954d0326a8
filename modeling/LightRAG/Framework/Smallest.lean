import Mathlib.Data.List.Sort

/-!
# The rows with the smallest keys

The first rows of a list in the order of their keys, by how many rows come before each; the first
rows of a union are among the first rows of its parts.
-/

namespace LightRAG.Smallest
open List

variable {α β κ : Type} [LinearOrder κ]

def sorted (key : α → κ) (xs : List α) : List α := xs.insertionSort fun a b => key a ≤ key b

/-- The `n` rows with the smallest keys. -/
def smallest (key : α → κ) (n : ℕ) (xs : List α) : List α := (sorted key xs).take n

def Ascending (key : α → κ) (xs : List α) : Prop := xs.Pairwise fun a b => key a < key b

section

variable {key : α → κ} {xs ys : List α} {x y : α} {n : ℕ}

theorem perm_sorted (key : α → κ) (xs : List α) : (sorted key xs).Perm xs :=
  perm_insertionSort _ xs

theorem mem_sorted : x ∈ sorted key xs ↔ x ∈ xs := (perm_sorted key xs).mem_iff

theorem ascending_sorted (hnd : (xs.map key).Nodup) : Ascending key (sorted key xs) := by
  have hle : (sorted key xs).Pairwise fun a b => key a ≤ key b :=
    pairwise_insertionSort (fun a b => key a ≤ key b) xs
  have hne : ((sorted key xs).map key).Nodup := ((perm_sorted key xs).map key).nodup_iff.mpr hnd
  rw [List.Nodup,pairwise_map] at hne
  exact (hle.and hne).imp fun h => lt_of_le_of_ne h.1 h.2

theorem Ascending.nodup (h : Ascending key xs) : xs.Nodup := by
  apply h.imp
  rintro a b hlt rfl
  exact lt_irrefl _ hlt

theorem Ascending.take (h : Ascending key xs) (n : ℕ) : Ascending key (xs.take n) :=
  h.sublist (take_sublist n xs)

theorem Ascending.ext (hxs : Ascending key xs) (hys : Ascending key ys)
    (hmem : ∀ x, x ∈ xs ↔ x ∈ ys) : xs = ys := by
  have hperm : xs.Perm ys := (perm_ext_iff_of_nodup hxs.nodup hys.nodup).mpr hmem
  apply hperm.eq_of_pairwise ?_ hxs hys
  intro a b _ _ hab hba
  exact absurd hab (lt_asymm hba)

theorem sorted_of_ascending (h : Ascending key xs) : sorted key xs = xs :=
  (h.imp le_of_lt).insertionSort_eq

theorem Ascending.mem_take (h : Ascending key xs) :
    x ∈ xs.take n ↔ x ∈ xs ∧ xs.countP (fun y => key y < key x) < n := by
  induction xs generalizing n with
  | nil => simp
  | cons a xs ih =>
    obtain ⟨hfirst,hrest⟩ := pairwise_cons.mp h
    cases n with
    | zero => simp
    | succ n =>
      rw [take_succ_cons,mem_cons,mem_cons,ih hrest,countP_cons]
      constructor
      · rintro (rfl | ⟨hin,hlt⟩)
        · have hnone : xs.countP (fun y => key y < key x) = 0 := by
            rw [countP_eq_zero]
            intro y hy
            simp only [decide_eq_true_eq,not_lt]
            exact (hfirst y hy).le
          exact ⟨.inl rfl,by simp [hnone]⟩
        · refine ⟨.inr hin,?_⟩
          simp only [hfirst x hin,decide_true,if_true]
          omega
      · rintro ⟨rfl | hin,hlt⟩
        · exact .inl rfl
        · right
          simp only [hfirst x hin,decide_true,if_true] at hlt
          exact ⟨hin,by omega⟩

theorem ascending_smallest (hnd : (xs.map key).Nodup) (n : ℕ) :
    Ascending key (smallest key n xs) := (ascending_sorted hnd).take n

theorem mem_smallest (hnd : (xs.map key).Nodup) :
    x ∈ smallest key n xs ↔ x ∈ xs ∧ xs.countP (fun y => key y < key x) < n := by
  unfold smallest
  rw [(ascending_sorted hnd).mem_take,mem_sorted,(perm_sorted key xs).countP_eq]

theorem mem_of_mem_smallest (h : x ∈ smallest key n xs) : x ∈ xs :=
  mem_sorted.mp (mem_of_mem_take h)

theorem length_smallest (key : α → κ) (n : ℕ) (xs : List α) :
    (smallest key n xs).length = min n xs.length := by
  rw [smallest,length_take,(perm_sorted key xs).length_eq]

theorem mem_smallest_of_lt (hnd : (xs.map key).Nodup) (hx : x ∈ smallest key n xs) (hy : y ∈ xs)
    (hlt : key y < key x) : y ∈ smallest key n xs := by
  rw [mem_smallest hnd] at hx ⊢
  refine ⟨hy,Nat.lt_of_le_of_lt ?_ hx.2⟩
  apply countP_mono_left
  intro z _ hz
  simp only [decide_eq_true_eq] at hz ⊢
  exact hz.trans hlt

theorem smallest_of_length_lt (h : (smallest key n xs).length < n) (hx : x ∈ xs) :
    x ∈ smallest key n xs := by
  rw [length_smallest] at h
  have hall : smallest key n xs = sorted key xs := by
    apply take_of_length_le
    rw [(perm_sorted key xs).length_eq]
    omega
  rw [hall]
  exact mem_sorted.mpr hx

theorem smallest_congr (hnd : (xs.map key).Nodup) (hys : (ys.map key).Nodup)
    (hmem : ∀ x, x ∈ xs ↔ x ∈ ys) (n : ℕ) : smallest key n xs = smallest key n ys := by
  unfold smallest
  congr 1
  apply (ascending_sorted hnd).ext (ascending_sorted hys)
  intro x
  rw [mem_sorted,mem_sorted,hmem]

theorem countP_le_of_subset {p : α → Bool} (hnd : xs.Nodup) (hsub : ∀ x ∈ xs, x ∈ ys) :
    xs.countP p ≤ ys.countP p := by
  rw [countP_eq_length_filter,countP_eq_length_filter]
  apply List.Subperm.length_le
  apply subperm_of_subset (hnd.filter p)
  intro x hx
  rw [mem_filter] at hx ⊢
  exact ⟨hsub x hx.1,hx.2⟩

theorem nodup_flatMap_smallest {parts : List β} {part : β → List α}
    (hnd : ((parts.flatMap part).map key).Nodup) (n : ℕ) :
    ((parts.flatMap fun b => smallest key n (part b)).map key).Nodup := by
  rw [map_flatMap,nodup_flatMap] at hnd ⊢
  constructor
  · intro b hb
    have hasc := ascending_smallest (hnd.1 b hb) n
    exact pairwise_map.mpr (hasc.imp fun h => h.ne)
  · apply hnd.2.imp
    intro b c hdisjoint k hb hc
    obtain ⟨x,hx,rfl⟩ := mem_map.mp hb
    obtain ⟨y,hy,hxy⟩ := mem_map.mp hc
    apply hdisjoint (mem_map.mpr ⟨x,mem_of_mem_smallest hx,rfl⟩)
    rw [← hxy]
    exact mem_map.mpr ⟨y,mem_of_mem_smallest hy,rfl⟩

theorem smallest_flatMap {parts : List β} {part : β → List α}
    (hnd : ((parts.flatMap part).map key).Nodup) (n : ℕ) :
    smallest key n (parts.flatMap fun b => smallest key n (part b)) =
      smallest key n (parts.flatMap part) := by
  have hpart : ∀ b ∈ parts, ((part b).map key).Nodup := by
    intro b hb
    rw [map_flatMap] at hnd
    exact (nodup_flatMap.mp hnd).1 b hb
  have hnd' := nodup_flatMap_smallest hnd n
  generalize hY : (parts.flatMap fun b => smallest key n (part b)) = Y at hnd' ⊢
  generalize hX : parts.flatMap part = X at hnd ⊢
  have hsub : ∀ x ∈ Y, x ∈ X := by
    subst hX hY
    intro x hx
    obtain ⟨b,hb,hxb⟩ := mem_flatMap.mp hx
    exact mem_flatMap.mpr ⟨b,hb,mem_of_mem_smallest hxb⟩
  have hfirst : ∀ x, x ∈ smallest key n X → x ∈ smallest key n Y := by
    intro x hx
    obtain ⟨hin,hcount⟩ := (mem_smallest hnd).mp hx
    have hY' : x ∈ Y := by
      subst hX hY
      obtain ⟨b,hb,hxb⟩ := mem_flatMap.mp hin
      refine mem_flatMap.mpr ⟨b,hb,(mem_smallest (hpart b hb)).mpr ⟨hxb,?_⟩⟩
      apply Nat.lt_of_le_of_lt ?_ hcount
      apply countP_le_of_subset (List.Nodup.of_map key (hpart b hb))
      exact fun y hy => mem_flatMap.mpr ⟨b,hb,hy⟩
    refine (mem_smallest hnd').mpr ⟨hY',Nat.lt_of_le_of_lt ?_ hcount⟩
    exact countP_le_of_subset (List.Nodup.of_map key hnd') hsub
  apply (ascending_smallest hnd' n).ext (ascending_smallest hnd n)
  intro x
  refine ⟨?_,hfirst x⟩
  intro hx
  obtain ⟨hin,hcount⟩ := (mem_smallest hnd').mp hx
  refine (mem_smallest hnd).mpr ⟨hsub x hin,?_⟩
  by_contra hmany
  -- the first rows all come before x, and there are n of them
  have hbefore : ∀ y ∈ smallest key n X, key y < key x := by
    intro y hy
    by_contra hge
    have hmono : X.countP (fun z => key z < key x) ≤ X.countP (fun z => key z < key y) := by
      apply countP_mono_left
      intro z _ hz
      simp only [decide_eq_true_eq] at hz ⊢
      exact lt_of_lt_of_le hz (not_lt.mp hge)
    have := ((mem_smallest hnd).mp hy).2
    omega
  have hlength : (smallest key n X).length = n := by
    rw [length_smallest]
    have := countP_le_length (p := fun z => decide (key z < key x)) (l := X)
    omega
  have hall : (smallest key n X).countP (fun z => key z < key x) = n := by
    apply Eq.trans ?_ hlength
    rw [countP_eq_length]
    intro y hy
    simp only [decide_eq_true_eq]
    exact hbefore y hy
  have hfew : (smallest key n X).countP (fun z => key z < key x) ≤
      Y.countP fun z => key z < key x := by
    apply countP_le_of_subset (ascending_smallest hnd n).nodup
    exact fun y hy => mem_of_mem_smallest (hfirst y hy)
  omega

theorem smallest_map {γ κ' : Type} [LinearOrder κ'] {key' : γ → κ'} {f : α → γ}
    (hnd : (xs.map key).Nodup)
    (horder : ∀ x ∈ xs, ∀ y ∈ xs, key x < key y → key' (f x) < key' (f y)) (n : ℕ) :
    smallest key' n (xs.map f) = (smallest key n xs).map f := by
  have hasc : Ascending key' ((sorted key xs).map f) := by
    rw [Ascending,pairwise_map]
    apply (ascending_sorted hnd).imp_of_mem
    intro a b ha hb hlt
    exact horder a (mem_sorted.mp ha) b (mem_sorted.mp hb) hlt
  have hkeys : ((xs.map f).map key').Nodup := by
    have hperm : ((xs.map f).map key').Perm (((sorted key xs).map f).map key') :=
      (((perm_sorted key xs).map f).map key').symm
    rw [hperm.nodup_iff]
    exact pairwise_map.mpr (hasc.imp fun h => h.ne)
  unfold smallest
  rw [map_take]
  congr 1
  apply (ascending_sorted hkeys).ext hasc
  intro x
  rw [mem_sorted,mem_map,mem_map]
  simp only [mem_sorted]

end

end LightRAG.Smallest

/-!
## Pages by key

A reader of rows in the order of their keys remembers the last key that it has read. A page reads
the rows with the smallest keys ahead, and is the last one if there are fewer than it may take.
-/

namespace LightRAG.Keyset
open List

open Smallest (Ascending smallest)

inductive Position (κ : Type)
  | start
  | after (k : κ)
  | finish
deriving DecidableEq

variable {α κ : Type} [LinearOrder κ]

/-- A key is ahead of the reader. -/
def Position.Ahead : Position κ → κ → Prop
  | .start, _ => True
  | .after last, k => last < k
  | .finish, _ => False

/-- Where the reader is after a page of these keys. -/
def next (limit : ℕ) (keys : List κ) : Position κ :=
  if keys.length < limit then .finish
  else
    match keys.getLast? with
    | some k => .after k
    | none => .finish

/-- A reader goes past some keys. -/
structure Passes (p : Position κ) (keys : List κ) (p' : Position κ) : Prop where
  ascending : keys.Pairwise (· < ·)
  ahead : ∀ k ∈ keys, p.Ahead k
  narrows : ∀ k, p'.Ahead k → p.Ahead k
  later : ∀ k ∈ keys, ∀ k', p'.Ahead k' → k < k'

structure Read (p : Position κ) (keys : List κ) : Prop where
  ascending : keys.Pairwise (· < ·)
  behind : ∀ k ∈ keys, ∀ k', p.Ahead k' → k < k'

section

variable {p p' : Position κ} {keys keys' : List κ} {key : α → κ} {rows : List α} {x : α}
  {k : κ} {limit : ℕ}

theorem Position.Ahead.of_lt {k' : κ} (h : p.Ahead k) (hlt : k < k') : p.Ahead k' := by
  cases p with
  | start => trivial
  | after last => exact lt_trans (show last < k from h) hlt
  | finish => exact h

omit [LinearOrder κ] in
theorem next_cases (hlimit : 0 < limit) (keys : List κ) :
    (next limit keys = .finish ∧ keys.length < limit) ∨
      ∃ front last, keys = front ++ [last] ∧ next limit keys = .after last := by
  unfold next
  by_cases hshort : keys.length < limit
  · rw [if_pos hshort]
    exact .inl ⟨rfl,hshort⟩
  · rw [if_neg hshort]
    cases hlast : keys.getLast? with
    | none =>
      rw [List.getLast?_eq_none_iff] at hlast
      rw [hlast,length_nil] at hshort
      omega
    | some last =>
      obtain ⟨front,hfront⟩ := List.getLast?_eq_some_iff.mp hlast
      exact .inr ⟨front,last,hfront,rfl⟩

theorem passes_next (hlimit : 0 < limit) (hasc : keys.Pairwise (· < ·))
    (hahead : ∀ k ∈ keys, p.Ahead k) : Passes p keys (next limit keys) := by
  rcases next_cases hlimit keys with ⟨hnext,-⟩ | ⟨front,last,hkeys,hnext⟩
  · rw [hnext]
    exact ⟨hasc,hahead,fun _ h => h.elim,fun _ _ _ h => h.elim⟩
  · rw [hnext]
    have hlast : last ∈ keys := by simp [hkeys]
    refine ⟨hasc,hahead,fun k hk => (hahead last hlast).of_lt hk,?_⟩
    intro k hk k' hk'
    rw [hkeys] at hk hasc
    cases mem_append.mp hk with
    | inl hfront =>
      exact lt_trans ((pairwise_append.mp hasc).2.2 k hfront last (by simp)) hk'
    | inr hsame =>
      rw [mem_singleton.mp hsame]
      exact hk'

theorem passes_page (hlimit : 0 < limit) (hnd : (rows.map key).Nodup)
    (hahead : ∀ x ∈ rows, p.Ahead (key x)) :
    Passes p ((smallest key limit rows).map key) (next limit ((smallest key limit rows).map key)) := by
  apply passes_next hlimit (pairwise_map.mpr (Smallest.ascending_smallest hnd limit))
  intro k hk
  obtain ⟨x,hx,rfl⟩ := mem_map.mp hk
  exact hahead x (Smallest.mem_of_mem_smallest hx)

theorem mem_page_or_ahead (hlimit : 0 < limit) (hnd : (rows.map key).Nodup) (hx : x ∈ rows) :
    x ∈ smallest key limit rows ∨
      (next limit ((smallest key limit rows).map key)).Ahead (key x) := by
  by_cases hin : x ∈ smallest key limit rows
  · exact .inl hin
  right
  rcases next_cases hlimit ((smallest key limit rows).map key) with
    ⟨-,hshort⟩ | ⟨front,last,hkeys,hnext⟩
  · rw [length_map] at hshort
    exact absurd (Smallest.smallest_of_length_lt hshort hx) hin
  · rw [hnext]
    have hlast : last ∈ (smallest key limit rows).map key := by simp [hkeys]
    obtain ⟨y,hy,rfl⟩ := mem_map.mp hlast
    by_contra hge
    rcases lt_or_eq_of_le (not_lt.mp hge) with hlt | heq
    · exact hin (Smallest.mem_smallest_of_lt hnd hy hx hlt)
    · have hsame := inj_on_of_nodup_map hnd hx (Smallest.mem_of_mem_smallest hy) heq
      exact hin (hsame ▸ hy)

theorem read_start : Read (.start : Position κ) [] :=
  ⟨List.Pairwise.nil,fun _ hk => absurd hk not_mem_nil⟩

theorem Read.pass (h : Read p keys) (hpass : Passes p keys' p') : Read p' (keys ++ keys') := by
  constructor
  · refine pairwise_append.mpr ⟨h.ascending,hpass.ascending,?_⟩
    exact fun k hk k' hk' => h.behind k hk k' (hpass.ahead k' hk')
  · intro k hk k' hk'
    cases mem_append.mp hk with
    | inl hold => exact h.behind k hold k' (hpass.narrows k' hk')
    | inr hnew => exact hpass.later k hnew k' hk'

theorem Read.nodup (h : Read p keys) : keys.Nodup := h.ascending.imp fun hlt => ne_of_lt hlt

end
end LightRAG.Keyset
