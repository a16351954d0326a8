import Mathlib.Data.List.Basic

/-!
# Calls with given answers

Calls are made one after the other, each with the answer it gets, until one of them stops the run.
-/

namespace LightRAG
open List

structure Calls (σ α β ε : Type) where
  stops : α → β → σ → Option ε
  perform : α → β → σ → σ

namespace Calls

variable {σ α β ε : Type} (C : Calls σ α β ε)

/-- The `i`-th call gets the answer `f i`. -/
def run : List α → (ℕ → β) → σ → Option ε × σ
  | [], _, s => (none, s)
  | a :: as, f, s =>
    match C.stops a (f 0) s with
    | some e => (some e, C.perform a (f 0) s)
    | none => run as (fun i => f (i + 1)) (C.perform a (f 0) s)

variable {C} {a : α} {as bs : List α} {f : ℕ → β} {s t : σ} {e : ε} {I : σ → Prop}

theorem run_cons_none (h : C.stops a (f 0) s = none) :
    C.run (a :: as) f s = C.run as (fun i => f (i + 1)) (C.perform a (f 0) s) := by
  rw [run,h]

theorem run_cons_some (h : C.stops a (f 0) s = some e) :
    C.run (a :: as) f s = (some e, C.perform a (f 0) s) := by
  rw [run,h]

theorem run_append_none (h : C.run as f s = (none, t)) :
    C.run (as ++ bs) f s = C.run bs (fun i => f (i + as.length)) t := by
  induction as generalizing f s with
  | nil =>
    obtain rfl : s = t := congrArg Prod.snd h
    rfl
  | cons a as ih =>
    rw [cons_append]
    cases hstops : C.stops a (f 0) s with
    | some e =>
      rw [run_cons_some hstops] at h
      cases congrArg Prod.fst h
    | none =>
      rw [run_cons_none hstops] at h ⊢
      rw [ih h]
      rfl

theorem run_append_some (h : C.run as f s = (some e, t)) :
    C.run (as ++ bs) f s = (some e, t) := by
  induction as generalizing f s with
  | nil => cases congrArg Prod.fst h
  | cons a as ih =>
    rw [cons_append]
    cases hstops : C.stops a (f 0) s with
    | some e =>
      rw [run_cons_some hstops] at h ⊢
      exact h
    | none =>
      rw [run_cons_none hstops] at h ⊢
      exact ih h

theorem run_keeps (h : ∀ a ∈ as, ∀ b s, I s → I (C.perform a b s)) (hs : I s) :
    I (C.run as f s).2 := by
  induction as generalizing f s with
  | nil => exact hs
  | cons a as ih =>
    have hstep := h a mem_cons_self (f 0) s hs
    cases hstops : C.stops a (f 0) s with
    | some e =>
      rw [run_cons_some hstops]
      exact hstep
    | none =>
      rw [run_cons_none hstops]
      exact ih (fun b hb => h b (mem_cons_of_mem _ hb)) hstep

end Calls

end LightRAG
