import LightRAG.Storage.CommitSubmission
import Mathlib.Tactic.Common

/-!
# What a commit reports

Every call is, at each of its awaits and at its end, in one of a few situations, and in each of
them the outcome follows from what the write, the hook and the cancellations were.
-/

namespace LightRAG.CommitSubmission

variable {V : Type}

/-- A cancellation is kept for as long as there was one, and none is stamped yet. -/
structure Withheld (pending : Option CancelledError) (interrupts : ℕ) : Prop where
  isNone_iff : pending = none ↔ interrupts = 0
  unstamped : ∀ e ∈ pending, e.stamped = false

/-- The first cancellation, else what the write raised. -/
def failure (e : Exc V) : Option CancelledError → Outcome V
  | some c => .raised (.cancelledError c)
  | none => .raised e

inductive Situation : Call V → Prop
  | waitingPermit : Situation .start
  | unpermitted (msg : String) :
      Situation ⟨.ended (.raised (.cancelledError ⟨msg, false⟩)), false, 0, .notStarted,
        .notStarted, 0⟩
  | refused (e : Exc V) : Situation ⟨.ended (.raised e), true, 1, .refused e, .notStarted, 0⟩
  | writing (p : Option CancelledError) (n : ℕ) : Withheld p n →
      Situation ⟨.waitingWrite p, true, 0, .running, .notStarted, n⟩
  | written (p : Option CancelledError) (n : ℕ) (e : Ending V) : Withheld p n →
      Situation ⟨.waitingWrite p, true, 1, .done e, .notStarted, n⟩
  | writeCancelled (msg : String) (n : ℕ) :
      Situation ⟨.ended (.raised (.cancelledError ⟨msg, false⟩)), true, 1, .done .cancelled,
        .notStarted, n⟩
  | writeFailed (p : Option CancelledError) (n : ℕ) (e : Exc V) : Withheld p n →
      Situation ⟨.ended (failure e p), true, 1, .done (.error e), .notStarted, n⟩
  | hooking (p : Option CancelledError) (n : ℕ) (v : V) : (p = none ↔ n = 0) →
      Situation ⟨.waitingHook (.result v) p, true, 1, .done (.result v), .running, n⟩
  | hooked (p : Option CancelledError) (n : ℕ) (v : V) (e : Ending V) : (p = none ↔ n = 0) →
      Situation ⟨.waitingHook (.result v) p, true, 1, .done (.result v), .done e.ofTask, n⟩
  | hookCancelled (msg : String) (n : ℕ) (v : V) :
      Situation ⟨.ended (.raised (.cancelledError ⟨msg, false⟩)), true, 1, .done (.result v),
        .done .cancelled, n⟩
  | hookReturned (p : Option CancelledError) (n : ℕ) (v w : V) : (p = none ↔ n = 0) →
      Situation ⟨.ended (conclude (.result v) none p), true, 1, .done (.result v),
        .done (.result w), n⟩
  | hookFailed (p : Option CancelledError) (n : ℕ) (v : V) (e : Exc V) : (p = none ↔ n = 0) →
      (∀ c, e ≠ .cancelledError c) →
      Situation ⟨.ended (conclude (.result v) (some e) p), true, 1, .done (.result v),
        .done (.error e), n⟩

theorem Withheld.none_zero : Withheld none 0 := ⟨by simp,by simp⟩

theorem or_none_iff (p : Option CancelledError) (e : CancelledError) (n : ℕ) :
    p.or (some e) = none ↔ n + 1 = 0 := by
  cases p <;> simp

theorem Withheld.interrupt {p : Option CancelledError} {n : ℕ} (h : Withheld p n) (msg : String) :
    Withheld (p.or (some ⟨msg, false⟩)) (n + 1) := by
  constructor
  · exact or_none_iff p _ n
  · intro e he
    cases p with
    | none =>
      obtain rfl : (⟨msg,false⟩ : CancelledError) = e := by simpa using he
      rfl
    | some c => exact h.unstamped e (by simpa using he)

theorem map_none_iff {p : Option CancelledError} {n : ℕ} (h : p = none ↔ n = 0) :
    p.map CancelledError.stamp = none ↔ n = 0 := by
  rw [← h]
  cases p <;> simp

section Resumed

variable {p : Option CancelledError} {n : ℕ} {v : V}

theorem written_interrupted (e : Ending V) (h : Withheld p n) (msg : String) :
    Situation ({ (⟨.waitingWrite p, true, 1, .done e, .notStarted, n⟩ : Call V).resume (some msg)
      with interrupts := n + 1 }) := by
  cases e with
  | result v => exact .hooking _ _ v (map_none_iff (or_none_iff p _ n))
  | error e =>
    have hsituation := Situation.writeFailed (V := V) _ _ e (h.interrupt msg)
    cases p <;> exact hsituation
  | cancelled => exact .writeCancelled msg _

theorem written_resumed (e : Ending V) (h : Withheld p n) :
    Situation ((⟨.waitingWrite p, true, 1, .done e, .notStarted, n⟩ : Call V).resume none) := by
  cases e with
  | result v => exact .hooking _ _ v (map_none_iff h.isNone_iff)
  | error e =>
    have hsituation := Situation.writeFailed (V := V) _ _ e h
    cases e <;> cases p <;> exact hsituation
  | cancelled => exact .writeCancelled "" _

theorem hooked_interrupted (e : Ending V) (msg : String) :
    Situation ({ (⟨.waitingHook (.result v) p, true, 1, .done (.result v), .done e.ofTask, n⟩ :
      Call V).resume (some msg) with interrupts := n + 1 }) := by
  have hpending := or_none_iff p ⟨msg,false⟩ n
  cases e with
  | result w => exact .hookReturned _ _ v w (map_none_iff hpending)
  | error e =>
    cases e with
    | cancelledError c => exact .hookCancelled msg _ v
    | _ => exact .hookFailed _ _ v _ hpending (by simp)
  | cancelled => exact .hookCancelled msg _ v

theorem hooked_resumed (e : Ending V) (h : p = none ↔ n = 0) :
    Situation ((⟨.waitingHook (.result v) p, true, 1, .done (.result v), .done e.ofTask, n⟩ :
      Call V).resume none) := by
  cases e with
  | result w => exact .hookReturned _ _ v w (map_none_iff h)
  | error e =>
    cases e with
    | cancelledError c => exact .hookCancelled "" _ v
    | _ => exact .hookFailed _ _ v _ h (by simp)
  | cancelled => exact .hookCancelled "" _ v

end Resumed

theorem Situation.step {c d : Call V} {a : Event V} (h : Situation c) (hstep : Step c a d) :
    Situation d := by
  cases hstep with
  | submitted hphase =>
    cases h with
    | waitingPermit => exact .writing none 0 .none_zero
    | _ => exact absurd hphase (by simp)
  | refused e hphase =>
    cases h with
    | waitingPermit => exact .refused e
    | _ => exact absurd hphase (by simp)
  | unpermitted msg hphase =>
    cases h with
    | waitingPermit => exact .unpermitted msg
    | _ => exact absurd hphase (by simp)
  | finishWrite e hfn =>
    cases h with
    | writing p n hp => exact .written p n e hp
    | _ => exact absurd hfn (by simp [Call.start])
  | finishHook e hhook =>
    cases h with
    | hooking p n v hp => exact .hooked p n v e hp
    | _ => exact absurd hhook (by simp [Call.start])
  | cancel msg hphase =>
    cases h with
    | writing p n hp => exact .writing _ _ (hp.interrupt msg)
    | written p n e hp => exact written_interrupted e hp msg
    | hooking p n v hp => exact .hooking _ _ v (or_none_iff p _ n)
    | hooked p n v e hp => exact hooked_interrupted e msg
    | _ => exact absurd hphase (by simp [Call.start])
  | wakeWrite p e hphase hfn =>
    cases h with
    | written p n e hp => exact written_resumed e hp
    | writing p n hp => exact absurd hfn (by simp)
    | _ => exact absurd hphase (by simp [Call.start])
  | wakeHook w p e hphase hhook =>
    cases h with
    | hooked p n v e hp => exact hooked_resumed e hp
    | hooking p n v hp => exact absurd hhook (by simp)
    | _ => exact absurd hphase (by simp [Call.start])

theorem Situation.run {c : Call V} {as : List (Event V)} (h : Run Step .start as c) :
    Situation c :=
  h.preserves (fun _ _ _ hstep hc => hc.step hstep) .waitingPermit

structure Reported (c : Call V) (o : Outcome V) : Prop where
  permit : c.releases = if c.acquired then 1 else 0
  hook_iff : c.hook.Started ↔ c.fn.Succeeded
  fn_over : c.fn ≠ .running
  hook_over : c.hook ≠ .running
  value_iff : ∀ v, o = .value v ↔
    c.fn = .done (.result v) ∧ c.hook.Succeeded ∧ c.interrupts = 0
  bookkeeping_iff : (∃ text v, o = .raised (.commitBookkeepingError text v)) ↔
    c.fn.Succeeded ∧ c.hook.Excepted ∧ c.interrupts = 0
  stamp_iff : ∀ e, o = .raised (.cancelledError e) → (e.stamped = true ↔ c.fn.Succeeded)

/-- An exception that says of itself that a write is durable. -/
def Exc.ClaimsCommit : Exc V → Prop
  | .commitBookkeepingError _ _ => True
  | .cancelledError e => e.stamped = true
  | _ => False

/-- The hook of a durable write is not cancelled, and what is raised in place of the write, with
no cancellation before it, does not claim a commit. -/
structure Plain (c : Call V) : Prop where
  hook : c.fn.Succeeded → c.hook ≠ .done .cancelled
  refused : ∀ e, c.fn = .refused e → ¬ e.ClaimsCommit
  failed : ∀ e, c.fn = .done (.error e) → c.interrupts = 0 → ¬ e.ClaimsCommit

theorem Work.not_succeeded_error (e : Exc V) : ¬ (Work.done (.error e)).Succeeded := by
  intro h
  cases h with
  | intro v hv => simp at hv

theorem reported_uncommitted {c : Call V} (e : Exc V)
    (hpermit : c.releases = if c.acquired then 1 else 0) (hfn : ¬ c.fn.Succeeded)
    (hover : c.fn ≠ .running) (hhook : c.hook = .notStarted) :
    Reported c (.raised e) ↔ ¬ e.ClaimsCommit := by
  constructor
  · intro hreported hclaims
    cases e with
    | commitBookkeepingError text v =>
      exact hfn (hreported.bookkeeping_iff.mp ⟨text,v,rfl⟩).1
    | cancelledError e => exact hfn ((hreported.stamp_iff e rfl).mp hclaims)
    | exception text => exact hclaims
    | baseException text => exact hclaims
  · intro hclaims
    constructor
    · exact hpermit
    · simp [hhook,hfn,Work.Started]
    · exact hover
    · simp [hhook]
    · intro v
      simp only [reduceCtorEq,false_iff]
      intro h
      exact hfn ⟨v,h.1⟩
    · constructor
      · intro h
        obtain ⟨text,v,he⟩ := h
        obtain rfl := Outcome.raised.inj he
        exact absurd trivial hclaims
      · intro h
        exact absurd h.1 hfn
    · intro e' he
      obtain rfl := Outcome.raised.inj he
      simp only [hfn,iff_false]
      exact hclaims

section Committed

variable {n : ℕ} {v : V}

theorem reported_cancelled {e : CancelledError} {hook : Ending V} (he : e.stamped = true)
    (hn : n ≠ 0) :
    Reported ⟨.ended (.raised (.cancelledError e)), true, 1, .done (.result v), .done hook, n⟩
      (.raised (.cancelledError e)) := by
  constructor <;> simp [Work.Started,Work.Succeeded,hn,he]

theorem reported_value (w : V) :
    Reported ⟨.ended (.value v), true, 1, .done (.result v), .done (.result w), 0⟩ (.value v) := by
  constructor <;> simp [Work.Started,Work.Succeeded,Work.Excepted]

theorem reported_failure {e : Exc V} (he : ∀ c, e ≠ .cancelledError c) :
    Reported ⟨.ended (conclude (.result v) (some e) none), true, 1, .done (.result v),
      .done (.error e), 0⟩ (conclude (.result v) (some e) none) := by
  cases e with
  | cancelledError c => exact absurd rfl (he c)
  | _ =>
    constructor <;>
      simp [conclude,bookkeepingFailed,Work.Started,Work.Succeeded,Work.Excepted]

end Committed

def hooked (e : Ending ℕ) : Call ℕ :=
  ⟨.waitingHook (.result 7) none, true, 1, .done (.result 7), .done e.ofTask, 0⟩

theorem run_hooked (e : Ending ℕ) : Run Step .start
    [.permit none, .finishWrite (.result 7), .wake, .finishHook e, .wake]
    ((hooked e).resume none) := by
  apply Run.cons (.submitted rfl)
  apply Run.cons (.finishWrite _ rfl)
  apply Run.cons (.wakeWrite _ _ rfl rfl)
  apply Run.cons (.finishHook _ rfl)
  exact .cons (.wakeHook _ _ _ rfl rfl) (.nil _)

end LightRAG.CommitSubmission
