import LightRAG.Framework.Run
import Mathlib.Logic.Function.Basic

/-!
# Interleaved procedures

A procedure takes atomic actions one after the other and goes on with their answers. Parties run
procedures over one shared state: between two actions of a procedure the other parties take any
number of theirs, and a procedure can be given up before any of its actions.

A `Contract` says what each party may rely on between two of its actions and what an action needs
when it is taken. A procedure is `Safe` when it takes each of its actions where the contract allows
it. Safety is pushed through a procedure by the rules below, so that a fact about every
interleaving of a pool of procedures is proved for one procedure at a time.
-/

namespace LightRAG
open Function

/-- A procedure over the actions `Q`, where `A q` is the type of the answers to `q`. -/
inductive Proc (Q : Type) (A : Q → Type) (α : Type) : Type
  | done (a : α)
  | act (q : Q) (next : A q → Proc Q A α)

namespace Proc

variable {Q : Type} {A : Q → Type} {α β : Type}

def bind : Proc Q A α → (α → Proc Q A β) → Proc Q A β
  | .done a, f => f a
  | .act q next, f => .act q fun a => (next a).bind f

instance : Monad (Proc Q A) where
  pure := .done
  bind := Proc.bind

def ask (q : Q) : Proc Q A (A q) := .act q .done

end Proc

/-- What the parties `ι` agree on over the state `σ`: the effect of an action, an invariant, what
the steps of the others keep for a party, and what an action needs. -/
structure Contract (ι σ Q : Type) (A : Q → Type) where
  perform : ι → (q : Q) → σ → A q → σ → Prop
  inv : σ → Prop
  keeps : ι → σ → σ → Prop
  needs : ι → Q → σ → Prop
  refl : ∀ i s, keeps i s s
  trans : ∀ {i s t u}, keeps i s t → keeps i t u → keeps i s u
  step : ∀ {i q s a t}, inv s → needs i q s → perform i q s a t →
    inv t ∧ ∀ j, j ≠ i → keeps j s t

namespace Contract

variable {ι σ Q : Type} {A : Q → Type} {α β : Type} (c : Contract ι σ Q A)

/-- The party takes each action of the procedure where the contract allows it, whatever the
others do in between, and ends in a result that satisfies `post`. -/
def Safe (i : ι) : Proc Q A α → (α → σ → Prop) → σ → Prop
  | .done a, post, s => post a s
  | .act q next, post, s => ∀ t, c.keeps i s t → c.inv t →
      c.needs i q t ∧ ∀ a u, c.perform i q t a u → Safe i (next a) post u

variable {c} {i : ι} {s t : σ}

theorem safe_ask {q : Q} {post : A q → σ → Prop} :
    c.Safe i (.ask q) post s ↔ ∀ t, c.keeps i s t → c.inv t →
      c.needs i q t ∧ ∀ a u, c.perform i q t a u → post a u := Iff.rfl

theorem safe_bind (p : Proc Q A α) (f : α → Proc Q A β) (post : β → σ → Prop) :
    c.Safe i (p >>= f) post s ↔ c.Safe i p (fun a t => c.Safe i (f a) post t) s := by
  induction p generalizing s with
  | done a => rfl
  | act q next ih =>
    constructor
    · intro h t hkeeps hinv
      have hact := h t hkeeps hinv
      exact ⟨hact.1,fun a u hu => (ih a).mp (hact.2 a u hu)⟩
    · intro h t hkeeps hinv
      have hact := h t hkeeps hinv
      exact ⟨hact.1,fun a u hu => (ih a).mpr (hact.2 a u hu)⟩

theorem Safe.mono {p : Proc Q A α} {post post' : α → σ → Prop}
    (h : c.Safe i p post s) (himp : ∀ a t, post a t → post' a t) : c.Safe i p post' s := by
  induction p generalizing s with
  | done a => exact himp a s h
  | act q next ih =>
    intro t hkeeps hinv
    have hact := h t hkeeps hinv
    exact ⟨hact.1,fun a u hu => ih a (hact.2 a u hu)⟩

theorem Safe.interfere {p : Proc Q A α} (h : c.Safe i p (fun _ _ => True) s)
    (hkeeps : c.keeps i s t) : c.Safe i p (fun _ _ => True) t := by
  cases p with
  | done a => exact trivial
  | act q next =>
    intro u hu hinv
    exact h u (c.trans hkeeps hu) hinv

end Contract

/-- The shared state and the procedures the parties are in. -/
structure Pool (ι σ Q : Type) (A : Q → Type) (α : Type) where
  shared : σ
  running : ι → Option (Proc Q A α)

namespace Pool

variable {ι σ Q : Type} {A : Q → Type} {α : Type}

/-- What happens in a pool: a party enters a procedure, takes an action, leaves its procedure
after the last action or before it, or the surroundings change the state. -/
inductive Event (ι Q : Type) (A : Q → Type)
  | enter (i : ι)
  | act (i : ι) (q : Q) (a : A q)
  | leave (i : ι)
  | outside

inductive Step [DecidableEq ι] (c : Contract ι σ Q A) (enters : ι → σ → Proc Q A α → Prop)
    (outside : σ → σ → Prop) : Pool ι σ Q A α → Event ι Q A → Pool ι σ Q A α → Prop
  | enter {P : Pool ι σ Q A α} {i : ι} {p : Proc Q A α} (hidle : P.running i = none)
      (henters : enters i P.shared p) :
      Step c enters outside P (.enter i) ⟨P.shared, Function.update P.running i (some p)⟩
  | act {P : Pool ι σ Q A α} {i : ι} {q : Q} {next : A q → Proc Q A α} {a : A q} {t : σ}
      (hrunning : P.running i = some (.act q next)) (hperform : c.perform i q P.shared a t) :
      Step c enters outside P (.act i q a) ⟨t, Function.update P.running i (some (next a))⟩
  | leave {P : Pool ι σ Q A α} (i : ι) :
      Step c enters outside P (.leave i) ⟨P.shared, Function.update P.running i none⟩
  | outside {P : Pool ι σ Q A α} {t : σ} (houtside : outside P.shared t) :
      Step c enters outside P .outside ⟨t, P.running⟩

/-- The invariant holds and every procedure in the pool is safe. -/
structure Sound (c : Contract ι σ Q A) (P : Pool ι σ Q A α) : Prop where
  inv : c.inv P.shared
  safe : ∀ i p, P.running i = some p → c.Safe i p (fun _ _ => True) P.shared

variable {c : Contract ι σ Q A} {enters : ι → σ → Proc Q A α → Prop} {outside : σ → σ → Prop}
  {P P' : Pool ι σ Q A α}

theorem Sound.allowed (h : Sound c P) {i : ι} {q : Q} {next : A q → Proc Q A α}
    (hrunning : P.running i = some (.act q next)) :
    c.needs i q P.shared ∧
      ∀ a u, c.perform i q P.shared a u → c.Safe i (next a) (fun _ _ => True) u :=
  h.safe i _ hrunning P.shared (c.refl i _) h.inv

variable [DecidableEq ι]

theorem Sound.update (h : Sound c P) {t : σ} {i : ι} {next : Option (Proc Q A α)}
    (hinv : c.inv t) (hkeeps : ∀ j, j ≠ i → c.keeps j P.shared t)
    (hnext : ∀ p, next = some p → c.Safe i p (fun _ _ => True) t) :
    Sound c ⟨t, Function.update P.running i next⟩ := by
  refine ⟨hinv,?_⟩
  intro j p hp
  by_cases hj : j = i
  · subst hj
    have hsame : Function.update P.running j next j = some p := hp
    rw [update_self] at hsame
    exact hnext p hsame
  · have hother : Function.update P.running i next j = some p := hp
    rw [update_of_ne hj] at hother
    exact (h.safe j p hother).interfere (hkeeps j hj)

theorem Sound.step (henters : ∀ i s p, enters i s p → c.inv s → c.Safe i p (fun _ _ => True) s)
    (houtside : ∀ s t, outside s t → c.inv s → c.inv t ∧ ∀ j, c.keeps j s t)
    {e : Event ι Q A} (h : Sound c P) (hstep : Step c enters outside P e P') : Sound c P' := by
  cases hstep with
  | enter hidle hp =>
    apply h.update h.inv fun j _ => c.refl j _
    intro p hnext
    cases hnext
    exact henters _ _ _ hp h.inv
  | act hrunning hperform =>
    have hallowed := h.allowed hrunning
    have hkept := c.step h.inv hallowed.1 hperform
    apply h.update hkept.1 hkept.2
    intro p hnext
    cases hnext
    exact hallowed.2 _ _ hperform
  | leave i =>
    apply h.update h.inv fun j _ => c.refl j _
    intro p hnext
    cases hnext
  | outside ht =>
    have hkept := houtside _ _ ht h.inv
    exact ⟨hkept.1,fun i p hp => (h.safe i p hp).interfere (hkept.2 i)⟩

theorem Sound.run (henters : ∀ i s p, enters i s p → c.inv s → c.Safe i p (fun _ _ => True) s)
    (houtside : ∀ s t, outside s t → c.inv s → c.inv t ∧ ∀ j, c.keeps j s t)
    {events : List (Event ι Q A)} (h : Sound c P)
    (hrun : Run (Step c enters outside) P events P') : Sound c P' :=
  hrun.preserves (fun _ _ _ hstep hsound => hsound.step henters houtside hstep) h

end Pool
end LightRAG

/-!
## Procedures that raise

A trial is a procedure over actions whose answers may be errors; it ends in a value or in an
error. An error that no handler takes ends it.
-/

namespace LightRAG

/-- A procedure that may raise, where `V q` is the type of the values that `q` answers with. -/
def Trial (Q : Type) (V : Q → Type) (ε α : Type) : Type :=
  Proc Q (fun q => Except ε (V q)) (Except ε α)

namespace Trial

variable {Q : Type} {V : Q → Type} {ε α β : Type}

def bind (x : Trial Q V ε α) (f : α → Trial Q V ε β) : Trial Q V ε β :=
  Proc.bind x fun
    | .ok a => f a
    | .error e => .done (.error e)

instance : Monad (Trial Q V ε) where
  pure a := .done (.ok a)
  bind := Trial.bind

def raise (e : ε) : Trial Q V ε α := .done (.error e)

def call (q : Q) : Trial Q V ε (V q) := .act q .done

/-- Go on with `h` after an error. -/
def handle (x : Trial Q V ε α) (h : ε → Trial Q V ε α) : Trial Q V ε α :=
  Proc.bind x fun
    | .ok a => .done (.ok a)
    | .error e => h e

/-- The party takes each action of the trial where the contract allows it, whatever the others do
in between, and ends in a value or an error that satisfies `post`. -/
def Ends {ι σ : Type} (c : Contract ι σ Q fun q => Except ε (V q)) (i : ι) (x : Trial Q V ε α)
    (post : Except ε α → σ → Prop) (s : σ) : Prop := c.Safe i x post s

section Rules

variable {ι σ : Type} {c : Contract ι σ Q fun q => Except ε (V q)} {i : ι} {s : σ}
  {post post' : Except ε α → σ → Prop}

theorem Ends.mono {x : Trial Q V ε α} (h : Ends c i x post s)
    (himp : ∀ r t, post r t → post' r t) : Ends c i x post' s := Contract.Safe.mono h himp

theorem ends_bind (x : Trial Q V ε α) (f : α → Trial Q V ε β) {post : Except ε β → σ → Prop} :
    Ends c i (x >>= f) post s ↔
      Ends c i x (fun r t =>
        match r with
        | .ok a => Ends c i (f a) post t
        | .error e => post (.error e) t) s := by
  apply (Contract.safe_bind x _ post).trans
  constructor
  · intro h
    apply h.mono
    intro r t hr
    cases r with
    | ok a => exact hr
    | error e => exact hr
  · intro h
    apply h.mono
    intro r t hr
    cases r with
    | ok a => exact hr
    | error e => exact hr

theorem ends_handle (x : Trial Q V ε α) (h : ε → Trial Q V ε α) :
    Ends c i (x.handle h) post s ↔
      Ends c i x (fun r t =>
        match r with
        | .ok a => post (.ok a) t
        | .error e => Ends c i (h e) post t) s := by
  apply (Contract.safe_bind x _ post).trans
  constructor
  · intro hx
    apply hx.mono
    intro r t hr
    cases r with
    | ok a => exact hr
    | error e => exact hr
  · intro hx
    apply hx.mono
    intro r t hr
    cases r with
    | ok a => exact hr
    | error e => exact hr

end Rules

end Trial
end LightRAG
