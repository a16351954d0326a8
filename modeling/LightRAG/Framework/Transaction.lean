import Mathlib.Logic.Basic

/-!
# Transaction bodies

A transaction body reads and writes one state and ends in a value or an error. Whether the
state it leaves is kept is decided by the caller: `Tx.commit` keeps it after a value and after
the errors that are raised only once the commit is through, and rolls back after the others.

Bodies are reasoned about with `Tx.Post`, the postcondition of one run from one state. The
rules below push it through the operations of the monad, so the specification of a body is an
elimination rule: it names the few ways the body can end.
-/

namespace LightRAG

/-- A body of a transaction over `σ`, which may end in an error `ε`. -/
def Tx (σ ε α : Type) : Type := σ → Except ε α × σ

namespace Tx

variable {σ ε α β : Type}

instance : Monad (Tx σ ε) where
  pure a := fun s => (.ok a, s)
  bind x f := fun s =>
    match x s with
    | (.ok a, s') => f a s'
    | (.error e, s') => (.error e, s')

def raise (e : ε) : Tx σ ε α := fun s => (.error e, s)

def fetch (f : σ → α) : Tx σ ε α := fun s => (.ok (f s), s)

def execute (f : σ → σ) : Tx σ ε Unit := fun s => (.ok (), f s)

/-- The same body with its value read as another. -/
def returning (f : α → β) (x : Tx σ ε α) : Tx σ ε β := do
  let a ← x
  return f a

/-- Run a body and decide what is kept: its final state after a value or a `delayed` error,
the state before it after every other error. -/
def commit (delayed : ε → Bool) (x : Tx σ ε α) (s : σ) : Except ε α × σ :=
  match x s with
  | (.ok a, s') => (.ok a, s')
  | (.error e, s') => (.error e, if delayed e then s' else s)

theorem pure_apply (a : α) (s : σ) : (pure a : Tx σ ε α) s = (.ok a, s) := rfl

theorem fetch_apply (f : σ → α) (s : σ) : (fetch f : Tx σ ε α) s = (.ok (f s), s) := rfl

theorem execute_apply (f : σ → σ) (s : σ) : (execute f : Tx σ ε Unit) s = (.ok (), f s) := rfl

theorem bind_apply (x : Tx σ ε α) (f : α → Tx σ ε β) (s : σ) :
    (x >>= f) s =
      match x s with
      | (.ok a, s') => f a s'
      | (.error e, s') => (.error e, s') := rfl

/-- The body, run from `s`, ends in a result and a state that satisfy `Q`. -/
def Post (x : Tx σ ε α) (s : σ) (Q : Except ε α → σ → Prop) : Prop := Q (x s).1 (x s).2

@[simp] theorem post_pure (a : α) (s : σ) (Q : Except ε α → σ → Prop) :
    (pure a : Tx σ ε α).Post s Q ↔ Q (.ok a) s := Iff.rfl

@[simp] theorem post_raise (e : ε) (s : σ) (Q : Except ε α → σ → Prop) :
    (raise e : Tx σ ε α).Post s Q ↔ Q (.error e) s := Iff.rfl

@[simp] theorem post_fetch (f : σ → α) (s : σ) (Q : Except ε α → σ → Prop) :
    (fetch f : Tx σ ε α).Post s Q ↔ Q (.ok (f s)) s := Iff.rfl

@[simp] theorem post_execute (f : σ → σ) (s : σ) (Q : Except ε Unit → σ → Prop) :
    (execute f : Tx σ ε Unit).Post s Q ↔ Q (.ok ()) (f s) := Iff.rfl

@[simp] theorem post_bind (x : Tx σ ε α) (f : α → Tx σ ε β) (s : σ)
    (Q : Except ε β → σ → Prop) :
    (x >>= f).Post s Q ↔ x.Post s fun r s' =>
      match r with
      | .ok a => (f a).Post s' Q
      | .error e => Q (.error e) s' := by
  simp only [Post,bind]
  rcases x s with ⟨_ | _,_⟩ <;> rfl

@[simp] theorem post_ite (c : Prop) [Decidable c] (x y : Tx σ ε α) (s : σ)
    (Q : Except ε α → σ → Prop) :
    (if c then x else y).Post s Q ↔ if c then x.Post s Q else y.Post s Q := by
  split <;> rfl

@[simp] theorem post_returning (f : α → β) (x : Tx σ ε α) (s : σ) (Q : Except ε β → σ → Prop) :
    (x.returning f).Post s Q ↔ x.Post s fun r s' =>
      match r with
      | .ok a => Q (.ok (f a)) s'
      | .error e => Q (.error e) s' := by
  unfold returning
  rw [post_bind]
  rfl

theorem Post.commit {x : Tx σ ε α} {s : σ} {Q : Except ε α → σ → Prop} (delayed : ε → Bool)
    (h : x.Post s fun r s' =>
      match r with
      | .ok a => Q (.ok a) s'
      | .error e => Q (.error e) (if delayed e then s' else s)) :
    Q (x.commit delayed s).1 (x.commit delayed s).2 := by
  unfold Post at h
  unfold Tx.commit
  rcases hx : x s with ⟨e | a,s'⟩
  · rwa [hx] at h
  · rwa [hx] at h

end Tx
end LightRAG
