import Mathlib.Data.List.Basic

/-!
# Occurrences in a list

The first and the last position whose suffix has a property, as a search from the front gives them.
-/

namespace LightRAG.Occurrences
open List Option

variable {α : Type} (p : List α → Bool) {s : List α} {c : α} {i j k : ℕ}

/-- The first position with `p`, for a list whose positions begin at `i`. -/
def firstSuffix : ℕ → List α → Option ℕ
  | i, [] => if p [] then some i else none
  | i, c :: cs => if p (c :: cs) then some i else firstSuffix (i + 1) cs

/-- The last position with `p`. -/
def lastSuffix : ℕ → List α → Option ℕ
  | i, [] => if p [] then some i else none
  | i, c :: cs => (lastSuffix (i + 1) cs).or (if p (c :: cs) then some i else none)

/-- `s.find(…, i)`. -/
def find (s : List α) (i : ℕ) : Option ℕ := firstSuffix p i (s.drop i)

/-- `s.rfind(…)`. -/
def rfind (s : List α) : Option ℕ := lastSuffix p 0 s

/-- The property at a position of a list. -/
def At (s : List α) (i : ℕ) : Prop := p (s.drop i) = true

instance : Decidable (At p s i) := inferInstanceAs (Decidable (p (s.drop i) = true))

variable {p}

theorem drop_cons_sub (h : i < k) : (c :: s).drop (k - i) = s.drop (k - (i + 1)) := by
  obtain ⟨d,rfl⟩ : ∃ d, k = i + 1 + d := ⟨k - (i + 1),by omega⟩
  rw [show i + 1 + d - i = d + 1 by omega,show i + 1 + d - (i + 1) = d by omega,drop_succ_cons]

theorem forall_positions_cons {q : List α → Prop} :
    (∀ k, i ≤ k → k ≤ i + (c :: s).length → q ((c :: s).drop (k - i))) ↔
      q (c :: s) ∧ ∀ k, i + 1 ≤ k → k ≤ i + 1 + s.length → q (s.drop (k - (i + 1))) := by
  rw [length_cons]
  constructor
  · intro h
    constructor
    · simpa using h i (Nat.le_refl i) (by omega)
    · intro k hk hle
      rw [← drop_cons_sub (c := c) hk]
      exact h k (by omega) (by omega)
  · rintro ⟨hhead,htail⟩ k hk hle
    rcases Nat.lt_or_ge i k with hlt | hge
    · rw [drop_cons_sub hlt]
      exact htail k hlt (by omega)
    · obtain rfl : k = i := by omega
      simpa using hhead

theorem firstSuffix_eq_none : firstSuffix p i s = none ↔
    ∀ k, i ≤ k → k ≤ i + s.length → p (s.drop (k - i)) = false := by
  induction s generalizing i with
  | nil =>
    rw [firstSuffix]
    constructor
    · intro h k _ _
      simpa using h
    · intro h
      simpa using h i (Nat.le_refl i) (by simp)
  | cons c s ih =>
    rw [firstSuffix,forall_positions_cons (q := fun t => p t = false),← ih]
    cases p (c :: s) <;> simp

theorem lastSuffix_eq_none : lastSuffix p i s = none ↔
    ∀ k, i ≤ k → k ≤ i + s.length → p (s.drop (k - i)) = false := by
  induction s generalizing i with
  | nil =>
    rw [lastSuffix]
    constructor
    · intro h k _ _
      simpa using h
    · intro h
      simpa using h i (Nat.le_refl i) (by simp)
  | cons c s ih =>
    rw [lastSuffix,forall_positions_cons (q := fun t => p t = false),← ih]
    cases p (c :: s) <;> simp

theorem firstSuffix_spec (h : firstSuffix p i s = some j) :
    i ≤ j ∧ p (s.drop (j - i)) = true ∧ ∀ k, i ≤ k → k < j → p (s.drop (k - i)) = false := by
  induction s generalizing i with
  | nil =>
    rw [firstSuffix] at h
    split at h
    · rename_i hp
      obtain rfl := some.inj h
      exact ⟨Nat.le_refl i,by simpa using hp,fun k hk hlt => absurd hk (by omega)⟩
    · cases h
  | cons c s ih =>
    rw [firstSuffix] at h
    split at h
    · rename_i hp
      obtain rfl := some.inj h
      exact ⟨Nat.le_refl i,by simpa using hp,fun k hk hlt => absurd hk (by omega)⟩
    · rename_i hp
      obtain ⟨hle,hj,hbefore⟩ := ih h
      refine ⟨by omega,by rw [drop_cons_sub hle]; exact hj,fun k hk hlt => ?_⟩
      rcases Nat.lt_or_ge i k with hik | hik
      · rw [drop_cons_sub hik]
        exact hbefore k hik hlt
      · obtain rfl : k = i := by omega
        simpa using hp

theorem lastSuffix_spec (h : lastSuffix p i s = some j) :
    i ≤ j ∧ p (s.drop (j - i)) = true ∧
      ∀ k, j < k → k ≤ i + s.length → p (s.drop (k - i)) = false := by
  induction s generalizing i with
  | nil =>
    rw [lastSuffix] at h
    split at h
    · rename_i hp
      obtain rfl := some.inj h
      exact ⟨Nat.le_refl i,by simpa using hp,fun k hk hle => absurd hle (by simp; omega)⟩
    · cases h
  | cons c s ih =>
    rw [lastSuffix] at h
    rw [length_cons]
    cases hlast : lastSuffix p (i + 1) s with
    | some m =>
      rw [hlast] at h
      obtain rfl := some.inj h
      obtain ⟨hle,hm,hafter⟩ := ih hlast
      refine ⟨by omega,by rw [drop_cons_sub hle]; exact hm,fun k hk hkl => ?_⟩
      rw [drop_cons_sub (by omega)]
      exact hafter k hk (by omega)
    | none =>
      rw [hlast] at h
      split at h
      · rename_i hp
        obtain rfl := some.inj h
        refine ⟨Nat.le_refl i,by simpa using hp,fun k hk hkl => ?_⟩
        rw [drop_cons_sub hk]
        exact lastSuffix_eq_none.mp hlast k hk (by omega)
      · cases h

theorem At.lt (hnil : p [] = false) (h : At p s i) : i < s.length := by
  by_contra hge
  rw [At,drop_eq_nil_of_le (by omega),hnil] at h
  cases h

theorem drop_drop_sub (h : i ≤ k) : (s.drop i).drop (k - i) = s.drop k := by
  rw [drop_drop,Nat.add_sub_cancel' h]

theorem find_eq_none (hnil : p [] = false) : find p s i = none ↔ ∀ k, i ≤ k → ¬ At p s k := by
  rw [find,firstSuffix_eq_none]
  constructor
  · intro h k hk hat
    have hlt := At.lt hnil hat
    have hfalse := h k hk (by rw [length_drop]; omega)
    rw [drop_drop_sub hk,hat] at hfalse
    cases hfalse
  · intro h k hk _
    rw [drop_drop_sub hk,← Bool.not_eq_true]
    exact h k hk

theorem rfind_eq_none (hnil : p [] = false) : rfind p s = none ↔ ∀ k, ¬ At p s k := by
  rw [rfind,lastSuffix_eq_none]
  constructor
  · intro h k hat
    have hlt := At.lt hnil hat
    have hfalse := h k (Nat.zero_le k) (by omega)
    rw [Nat.sub_zero,hat] at hfalse
    cases hfalse
  · intro h k _ _
    rw [← Bool.not_eq_true]
    exact h k

theorem find_eq_some (hnil : p [] = false) : find p s i = some j ↔
    i ≤ j ∧ At p s j ∧ ∀ k, i ≤ k → k < j → ¬ At p s k := by
  constructor
  · intro h
    obtain ⟨hle,hj,hbefore⟩ := firstSuffix_spec h
    rw [drop_drop_sub hle] at hj
    refine ⟨hle,hj,fun k hk hlt hat => ?_⟩
    have hfalse := hbefore k hk hlt
    rw [drop_drop_sub hk,hat] at hfalse
    cases hfalse
  · rintro ⟨hle,hj,hbefore⟩
    cases hfound : find p s i with
    | none => exact absurd hj ((find_eq_none hnil).mp hfound j hle)
    | some m =>
      obtain ⟨hm,hat,hfirst⟩ := firstSuffix_spec hfound
      rw [drop_drop_sub hm] at hat
      rcases Nat.lt_trichotomy m j with hlt | rfl | hgt
      · exact absurd hat (hbefore m hm hlt)
      · rfl
      · have hfalse := hfirst j hle hgt
        rw [drop_drop_sub hle,hj] at hfalse
        cases hfalse

theorem rfind_eq_some (hnil : p [] = false) : rfind p s = some j ↔
    At p s j ∧ ∀ k, j < k → ¬ At p s k := by
  have hafter : ∀ m, rfind p s = some m → At p s m ∧ ∀ k, m < k → ¬ At p s k := by
    intro m h
    obtain ⟨-,hm,hlast⟩ := lastSuffix_spec h
    refine ⟨hm,fun k hk hat => ?_⟩
    have hlt := At.lt hnil hat
    have hfalse := hlast k hk (by omega)
    rw [Nat.sub_zero,hat] at hfalse
    cases hfalse
  constructor
  · exact hafter j
  · rintro ⟨hj,hlast⟩
    cases hfound : rfind p s with
    | none => exact absurd hj ((rfind_eq_none hnil).mp hfound j)
    | some m =>
      obtain ⟨hat,hmax⟩ := hafter m hfound
      rcases Nat.lt_trichotomy m j with hlt | rfl | hgt
      · exact absurd hj (hmax j hlt)
      · rfl
      · exact absurd hat (hlast m hgt)

end LightRAG.Occurrences
