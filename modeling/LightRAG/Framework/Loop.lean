import Mathlib.Algebra.Group.Nat.Defs
import Mathlib.Data.List.Basic
import Mathlib.Logic.Relation

/-!
# Loops that collect

`while not done: item = step(); items.append(item)`, where a step may raise, and a search that
retreats from a target by growing steps until an attempt is accepted.
-/

namespace LightRAG
open Option

structure Loop (σ ε α : Type) where
  done : σ → Bool
  step : σ → Except ε (α × σ)

namespace Loop

variable {σ ε α : Type} (l : Loop σ ε α)

/-- The items of the loop; nothing when the fuel is out. -/
def run : ℕ → σ → Option (Except ε (List α))
  | 0, s => if l.done s then some (.ok []) else none
  | fuel + 1, s =>
    if l.done s then some (.ok [])
    else
      match l.step s with
      | .error e => some (.error e)
      | .ok (item, t) => (run fuel t).map fun rest => rest.map (item :: ·)

/-- The states at which the loop comes by. -/
inductive Reached (s : σ) : σ → Prop
  | start : Reached s s
  | next {t u : σ} {item : α} : Reached s t → l.done t = false → l.step t = .ok (item, u) →
      Reached s u

variable {l} {s t u : σ} {item : α} {items : List α} {e : ε} {fuel : ℕ}

theorem Reached.head (hdone : l.done s = false) (hstep : l.step s = .ok (item, t))
    (h : l.Reached t u) : l.Reached s u := by
  induction h with
  | start => exact .next .start hdone hstep
  | next _ hd hs ih => exact .next ih hd hs

theorem Reached.cases_head (hstep : l.step s = .ok (item, t)) (h : l.Reached s u) :
    u = s ∨ l.Reached t u := by
  induction h with
  | start => exact .inl rfl
  | next _ hd hs ih =>
    rcases ih with rfl | hreached
    · rw [hstep] at hs
      cases hs
      exact .inr .start
    · exact .inr (.next hreached hd hs)

theorem Reached.of_done (hdone : l.done s = true) (h : l.Reached s t) : t = s := by
  induction h with
  | start => rfl
  | next _ hd _ ih =>
    rw [ih,hdone] at hd
    cases hd

theorem Reached.preserves (P : σ → Prop) (hs : P s)
    (hstep : ∀ t item u, P t → l.done t = false → l.step t = .ok (item, u) → P u)
    (h : l.Reached s t) : P t := by
  induction h with
  | start => exact hs
  | next _ hd hn ih => exact hstep _ _ _ ih hd hn

theorem run_done (hdone : l.done s = true) (fuel : ℕ) : l.run fuel s = some (.ok []) := by
  cases fuel with
  | zero => exact if_pos hdone
  | succ fuel => exact if_pos hdone

theorem run_step (hdone : l.done s = false) (hstep : l.step s = .ok (item, t)) (fuel : ℕ) :
    l.run (fuel + 1) s = (l.run fuel t).map fun rest => rest.map (item :: ·) := by
  rw [run,hdone,if_neg Bool.false_ne_true,hstep]

theorem run_error (hdone : l.done s = false) (hstep : l.step s = .error e) (fuel : ℕ) :
    l.run (fuel + 1) s = some (.error e) := by
  rw [run,hdone,if_neg Bool.false_ne_true,hstep]

theorem run_mono {result : Except ε (List α)} (h : l.run fuel s = some result) {more : ℕ}
    (hle : fuel ≤ more) : l.run more s = some result := by
  induction fuel generalizing s more result with
  | zero =>
    rw [run] at h
    split at h
    · rename_i hdone
      rw [run_done hdone]
      exact h
    · cases h
  | succ fuel ih =>
    obtain ⟨more,rfl⟩ : ∃ k, more = k + 1 := ⟨more - 1,by omega⟩
    cases hdone : l.done s with
    | true =>
      rw [run_done hdone] at h ⊢
      exact h
    | false =>
      cases hnext : l.step s with
      | error e =>
        rw [run_error hdone hnext] at h ⊢
        exact h
      | ok next =>
        obtain ⟨item,t⟩ := next
        rw [run_step hdone hnext,map_eq_some_iff] at h
        obtain ⟨rest,hrest,hmap⟩ := h
        rw [run_step hdone hnext,ih hrest (Nat.le_of_succ_le_succ hle),map_some,hmap]

theorem run_ends (P : σ → Prop) (measure : σ → ℕ)
    (hstep : ∀ t item u, P t → l.done t = false → l.step t = .ok (item, u) →
      P u ∧ measure u < measure t) (hs : P s) :
    ∃ result, ∀ fuel > measure s, l.run fuel s = some result := by
  have hends : ∀ fuel s, P s → measure s < fuel → ∃ result, l.run fuel s = some result := by
    intro fuel
    induction fuel with
    | zero => exact fun s _ hfuel => absurd hfuel (Nat.not_lt_zero _)
    | succ fuel ih =>
      intro s hs hfuel
      cases hdone : l.done s with
      | true => exact ⟨_,run_done hdone _⟩
      | false =>
        cases hnext : l.step s with
        | error e => exact ⟨_,run_error hdone hnext fuel⟩
        | ok next =>
          obtain ⟨item,t⟩ := next
          obtain ⟨ht,hlt⟩ := hstep s item t hs hdone hnext
          obtain ⟨rest,hrest⟩ := ih t ht (by omega)
          exact ⟨_,by rw [run_step hdone hnext,hrest,map_some]⟩
  obtain ⟨result,hresult⟩ := hends (measure s + 1) s hs (Nat.lt_succ_self _)
  exact ⟨result,fun fuel hfuel => run_mono hresult hfuel⟩

theorem raises_at (h : l.run fuel s = some (.error e)) :
    ∃ t, l.Reached s t ∧ l.done t = false ∧ l.step t = .error e := by
  induction fuel generalizing s with
  | zero =>
    rw [run] at h
    split at h
    · cases h
    · cases h
  | succ fuel ih =>
    cases hdone : l.done s with
    | true =>
      rw [run_done hdone] at h
      cases h
    | false =>
      cases hnext : l.step s with
      | error e' =>
        rw [run_error hdone hnext] at h
        cases h
        exact ⟨s,.start,hdone,hnext⟩
      | ok next =>
        obtain ⟨item,t⟩ := next
        rw [run_step hdone hnext,map_eq_some_iff] at h
        obtain ⟨rest,hrest,hmap⟩ := h
        cases rest with
        | ok rest => cases hmap
        | error e' =>
          cases hmap
          obtain ⟨u,hreached,hu⟩ := ih hrest
          exact ⟨u,hreached.head hdone hnext,hu⟩

theorem run_ok_cases (h : l.run fuel s = some (.ok items)) :
    (l.done s = true ∧ items = []) ∨
      ∃ item t rest fuel', l.done s = false ∧ l.step s = .ok (item, t) ∧
        l.run fuel' t = some (.ok rest) ∧ items = item :: rest := by
  cases hdone : l.done s with
  | true =>
    rw [run_done hdone] at h
    cases h
    exact .inl ⟨rfl,rfl⟩
  | false =>
    cases fuel with
    | zero =>
      rw [run,hdone,if_neg Bool.false_ne_true] at h
      cases h
    | succ fuel =>
      cases hnext : l.step s with
      | error e =>
        rw [run_error hdone hnext] at h
        cases h
      | ok next =>
        obtain ⟨item,t⟩ := next
        rw [run_step hdone hnext,map_eq_some_iff] at h
        obtain ⟨rest,hrest,hmap⟩ := h
        cases rest with
        | error e => cases hmap
        | ok rest =>
          cases hmap
          exact .inr ⟨item,t,rest,fuel,rfl,rfl,hrest,rfl⟩

end Loop

namespace Retreat

variable {ε α : Type} (attempt : ℕ → Except ε α) (accepts : α → Bool)

/-- Attempts at `target`, `target - 1`, `target - 3`, `target - 7`, … until one is accepted; the
attempt at zero is final. -/
def search (target k : ℕ) : Except ε (ℕ × α) :=
  if _h : target = 0 then (attempt 0).map fun a => (0, a)
  else
    match attempt target with
    | .error _ => search (target - 2 ^ k) (k + 1)
    | .ok a => if accepts a then .ok (target, a) else search (target - 2 ^ k) (k + 1)
termination_by target
decreasing_by
  all_goals
    have := Nat.two_pow_pos k
    omega

variable {attempt accepts} {target k n : ℕ} {a : α} {e : ε}

theorem search_zero : search attempt accepts 0 k = (attempt 0).map fun a => (0, a) := by
  rw [search,dif_pos rfl]

theorem search_ok (h : search attempt accepts target k = .ok (n, a)) :
    attempt n = .ok a ∧ n ≤ target ∧ (n ≠ 0 → accepts a = true) := by
  fun_induction search attempt accepts target k with
  | case1 k =>
    cases hzero : attempt 0 with
    | error e =>
      rw [hzero] at h
      cases h
    | ok b =>
      rw [hzero] at h
      cases h
      exact ⟨hzero,Nat.le_refl _,fun hne => absurd rfl hne⟩
  | case2 target k htarget e he ih =>
    obtain ⟨hok,hle,haccepts⟩ := ih h
    exact ⟨hok,Nat.le_trans hle (Nat.sub_le _ _),haccepts⟩
  | case3 target k htarget b hb haccepts =>
    cases h
    exact ⟨hb,Nat.le_refl _,fun _ => haccepts⟩
  | case4 target k htarget b hb haccepts ih =>
    obtain ⟨hok,hle,haccepts⟩ := ih h
    exact ⟨hok,Nat.le_trans hle (Nat.sub_le _ _),haccepts⟩

theorem search_error (h : search attempt accepts target k = .error e) : attempt 0 = .error e := by
  fun_induction search attempt accepts target k with
  | case1 k =>
    cases hzero : attempt 0 with
    | error e' =>
      rw [hzero] at h
      cases h
      rfl
    | ok b =>
      rw [hzero] at h
      cases h
  | case2 target k htarget e' he ih => exact ih h
  | case3 target k htarget b hb haccepts => cases h
  | case4 target k htarget b hb haccepts ih => exact ih h

end Retreat

end LightRAG

/-!
## Repeating a pass until nothing changes

`while changed: changed = False; x = pass(x)`, for a pass that says whether it changed anything.
-/

namespace LightRAG.Stable

variable {α : Type} (pass : α → α × Bool)

/-- The loop, with at most `fuel` rounds before the last. -/
def untilStable : (fuel : ℕ) → α → α
  | 0, x => (pass x).1
  | fuel + 1, x => if (pass x).2 then untilStable fuel (pass x).1 else (pass x).1

variable {pass}

theorem untilStable_related {r : α → α → Prop} (hpass : ∀ x, Relation.ReflTransGen r x (pass x).1)
    (fuel : ℕ) (x : α) : Relation.ReflTransGen r x (untilStable pass fuel x) := by
  induction fuel generalizing x with
  | zero => exact hpass x
  | succ fuel ih =>
    rw [untilStable]
    split
    · exact (hpass x).trans (ih _)
    · exact hpass x

theorem untilStable_settles {size : α → ℕ}
    (hpass : ∀ x, (pass x).2 = true → size (pass x).1 < size x) {fuel : ℕ} {x : α}
    (hfuel : size x ≤ fuel) :
    ∃ y, (pass y).2 = false ∧ untilStable pass fuel x = (pass y).1 := by
  induction fuel generalizing x with
  | zero =>
    have hstable : (pass x).2 = false := by
      rw [← Bool.not_eq_true]
      intro hchanged
      have hless := hpass x hchanged
      omega
    exact ⟨x,hstable,rfl⟩
  | succ fuel ih =>
    rw [untilStable]
    split
    · next hchanged =>
      have hless := hpass x hchanged
      exact ih (by omega)
    · next hstable => exact ⟨x,Bool.not_eq_true _ |>.mp hstable,rfl⟩

end LightRAG.Stable
