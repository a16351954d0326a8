import Mathlib.Logic.Basic

/-!
# Runs of a transition system

A run is a finite sequence of labelled steps. An invariant of the steps is an invariant of
every run, and a property of the steps that are taken carries along the run.
-/

namespace LightRAG

variable {σ α : Type}

/-- `Run step s as t`: the actions `as` lead from `s` to `t`. -/
inductive Run (step : σ → α → σ → Prop) : σ → List α → σ → Prop
  | nil (s : σ) : Run step s [] s
  | cons {s t u : σ} {a : α} {as : List α} : step s a t → Run step t as u → Run step s (a :: as) u

namespace Run

variable {step step' : σ → α → σ → Prop} {s t u : σ} {a : α} {as bs : List α}

theorem append (h : Run step s as t) (h' : Run step t bs u) : Run step s (as ++ bs) u := by
  induction h with
  | nil => exact h'
  | cons hstep _ ih => exact .cons hstep (ih h')

theorem snoc (h : Run step s as t) (h' : step t a u) : Run step s (as ++ [a]) u :=
  h.append (.cons h' (.nil u))

theorem mono (himp : ∀ s a t, step s a t → step' s a t) (h : Run step s as t) :
    Run step' s as t := by
  induction h with
  | nil => exact .nil _
  | cons hstep _ ih => exact .cons (himp _ _ _ hstep) ih

theorem preserves {I : σ → Prop} (hstep : ∀ s a t, step s a t → I s → I t)
    (h : Run step s as t) (hs : I s) : I t := by
  induction h with
  | nil => exact hs
  | cons ha _ ih => exact ih (hstep _ _ _ ha hs)

theorem accumulates {I : List α → σ → Prop}
    (hstep : ∀ as s a t, I as s → step s a t → I (as ++ [a]) t)
    (h : Run step s as t) (hs : I [] s) : I as t := by
  have hgen : ∀ bs, I bs s → I (bs ++ as) t := by
    clear hs
    induction h with
    | nil =>
      intro bs hbs
      rwa [List.append_nil]
    | cons ha _ ih =>
      intro bs hbs
      have hnext := ih (bs ++ [_]) (hstep bs _ _ _ hbs ha)
      rwa [List.append_assoc] at hnext
  exact hgen [] hs

end Run

/-- The states of the runs that start in an initial state. -/
def Reachable (init : σ → Prop) (step : σ → α → σ → Prop) (s : σ) : Prop :=
  ∃ s₀ as, init s₀ ∧ Run step s₀ as s

namespace Reachable

variable {init : σ → Prop} {step : σ → α → σ → Prop} {s t : σ} {a : α} {as : List α}

theorem run (h : Reachable init step s) (h' : Run step s as t) : Reachable init step t := by
  obtain ⟨s₀,bs,hinit,hrun⟩ := h
  exact ⟨s₀,bs ++ as,hinit,hrun.append h'⟩

theorem next (h : Reachable init step s) (h' : step s a t) : Reachable init step t :=
  h.run (.cons h' (.nil t))

theorem invariant {I : σ → Prop} (hinit : ∀ s, init s → I s)
    (hstep : ∀ s a t, step s a t → I s → I t) (h : Reachable init step s) : I s := by
  obtain ⟨s₀,as,hs₀,hrun⟩ := h
  exact hrun.preserves hstep (hinit s₀ hs₀)

end Reachable
end LightRAG

/-!
## Writes that may be cut

A list of writes is carried out in its order. It may be cut between two writes, or within a write,
which then leaves a part of its effect behind.
-/

namespace LightRAG

/-- What a write does, and what it may leave behind when it is cut. -/
structure Writer (σ ω : Type) where
  write : ω → σ → σ
  partly : ω → σ → σ → Prop

namespace Writer

variable {σ ω : Type} (W : Writer σ ω)

def run (ws : List ω) (s : σ) : σ := ws.foldl (fun s w => W.write w s) s

/-- The states that a cut of the writes may leave behind. -/
inductive Cut : σ → List ω → σ → Prop
  | before (s : σ) (ws : List ω) : Cut s ws s
  | within {s t : σ} {w : ω} {ws : List ω} : W.partly w s t → Cut s (w :: ws) t
  | after {s t : σ} {w : ω} {ws : List ω} : Cut (W.write w s) ws t → Cut s (w :: ws) t

variable {W} {s t : σ} {w : ω} {ws vs : List ω} {I J : σ → Prop}

@[simp] theorem run_nil : W.run [] s = s := rfl

@[simp] theorem run_cons : W.run (w :: ws) s = W.run ws (W.write w s) := rfl

end Writer

end LightRAG
