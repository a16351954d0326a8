import LightRAG.Framework.Run
import Mathlib.Data.Nat.Notation

/-!
# A write and its bookkeeping on the storage executor

A call that waits for its write and for the hook after it, as steps: the permit, the end of the
write and of the hook, which come from outside, and the resumptions of the caller, which a
cancellation can bring about at any await.
-/

namespace LightRAG.CommitSubmission

/-- An `asyncio.CancelledError` and the stamp that its write is durable. -/
structure CancelledError where
  message : String
  stamped : Bool
deriving DecidableEq

def CancelledError.stamp (e : CancelledError) : CancelledError := { e with stamped := true }

/-- The exceptions by the classes that the code tells apart. -/
inductive Exc (V : Type)
  | exception (text : String)
  | commitBookkeepingError (text : String) (result : V)
  | baseException (text : String)
  | cancelledError (e : CancelledError)
deriving DecidableEq

inductive Ending (V : Type)
  | result (v : V)
  | error (e : Exc V)
  | cancelled
deriving DecidableEq

def Ending.ofTask {V : Type} : Ending V → Ending V
  | .error (.cancelledError _) => .cancelled
  | e => e

/-- Something that is submitted to the executor or to the loop. -/
inductive Work (V : Type)
  | notStarted
  | refused (e : Exc V)
  | running
  | done (e : Ending V)
deriving DecidableEq

variable {V : Type}

namespace Work

def ending : Work V → Option (Ending V)
  | done e => some e
  | _ => none

def Succeeded (w : Work V) : Prop := ∃ v, w = .done (.result v)

def Started (w : Work V) : Prop := w = .running ∨ ∃ e, w = .done e

/-- It ended with an `Exception`. -/
def Excepted (w : Work V) : Prop :=
  (∃ text, w = .done (.error (.exception text))) ∨
    ∃ text v, w = .done (.error (.commitBookkeepingError text v))

end Work

/-- What `await asyncio.shield(future)` raises: a cancellation of the caller, else the failure of
the future. -/
def thrown (future : Option (Ending V)) (interrupt : Option String) : Option (Exc V) :=
  match interrupt, future with
  | some msg, _ => some (.cancelledError ⟨msg, false⟩)
  | none, some (.error e) => some e
  | none, some .cancelled => some (.cancelledError ⟨"", false⟩)
  | none, _ => none

/-- How a round of the loop goes on. -/
inductive Round (V : Type)
  | again (pending : Option CancelledError)
  | leave (pending : Option CancelledError) (e : Ending V)
  | raised (e : CancelledError)

/-- The test of the loop, and what stands after it. -/
def Round.check (future : Option (Ending V)) (pending : Option CancelledError) : Round V :=
  match future with
  | none => .again pending
  | some (.result v) => .leave (pending.map CancelledError.stamp) (.result v)
  | some e => .leave pending e

/-- `_wait_deferring_cancellation`: the loop from one resumption of its await to the next. -/
def waitRound (future : Option (Ending V)) (pending : Option CancelledError)
    (interrupt : Option String) : Round V :=
  match thrown future interrupt, future with
  | some (.cancelledError e), some .cancelled => .raised e
  | some (.cancelledError e), f => .check f (pending.or (some e))
  | _, f => .check f pending

inductive Outcome (V : Type)
  | value (v : V)
  | raised (e : Exc V)
deriving DecidableEq

inductive Phase (V : Type)
  | waitingPermit
  | waitingWrite (pending : Option CancelledError)
  | waitingHook (write : Ending V) (pending : Option CancelledError)
  | ended (o : Outcome V)
deriving DecidableEq

/-- A call of `_bounded_submit_impl` with `wait_for_completion` and `on_committed`; `interrupts`
counts the cancellations that it got after the permit. -/
structure Call (V : Type) where
  phase : Phase V
  acquired : Bool
  releases : ℕ
  fn : Work V
  hook : Work V
  interrupts : ℕ
deriving DecidableEq

def Call.start : Call V := ⟨.waitingPermit, false, 0, .notStarted, .notStarted, 0⟩

/-- `async_future.result()`. -/
def resultOf : Ending V → Outcome V
  | .result v => .value v
  | .error e => .raised e
  | .cancelled => .raised (.cancelledError ⟨"", false⟩)

/-- The text of a `CommitBookkeepingError`. -/
def bookkeepingText (text : String) : String :=
  "The offloaded write landed, but its commit bookkeeping failed: " ++ text

/-- A failure of the hook that is an `Exception` is told apart from one of the write. -/
def bookkeepingFailed (text : String) : Ending V → Outcome V
  | .result v => .raised (.commitBookkeepingError (bookkeepingText text) v)
  | write => resultOf write

def conclude (write : Ending V) (commit : Option (Exc V)) (pending : Option CancelledError) :
    Outcome V :=
  let pending := match write with
    | .result _ => pending.map CancelledError.stamp
    | _ => pending
  match pending, commit with
  | some e, _ => .raised (.cancelledError e)
  | none, some (.exception text) => bookkeepingFailed text write
  | none, some (.commitBookkeepingError text _) => bookkeepingFailed text write
  | none, some e => .raised e
  | none, none => resultOf write

namespace Call

def afterWrite (c : Call V) (pending : Option CancelledError) : Ending V → Call V
  | .error e => { c with phase := .ended (conclude (.error e) none pending) }
  | write => { c with hook := .running, phase := .waitingHook write pending }

def afterHook (c : Call V) (write : Ending V) (pending : Option CancelledError) :
    Ending V → Call V
  | .error e => { c with phase := .ended (conclude write (some e) pending) }
  | _ => { c with phase := .ended (conclude write none pending) }

def resume (c : Call V) (interrupt : Option String) : Call V :=
  match c.phase with
  | .waitingWrite pending =>
    match waitRound c.fn.ending pending interrupt with
    | .again pending => { c with phase := .waitingWrite pending }
    | .leave pending e => c.afterWrite pending e
    | .raised e => { c with phase := .ended (.raised (.cancelledError e)) }
  | .waitingHook write pending =>
    match waitRound c.hook.ending pending interrupt with
    | .again pending => { c with phase := .waitingHook write pending }
    | .leave pending e => c.afterHook write pending e
    | .raised e => { c with phase := .ended (.raised (.cancelledError e)) }
  | _ => c

end Call

inductive Event (V : Type)
  | permit (refusal : Option (Exc V))
  | finishWrite (e : Ending V)
  | finishHook (e : Ending V)
  | cancel (message : String)
  | wake
deriving DecidableEq

/-- One step. The permit is posted back when the worker is done, whoever waits for it. -/
inductive Step : Call V → Event V → Call V → Prop
  | submitted {c : Call V} : c.phase = .waitingPermit →
      Step c (.permit none)
        { c with phase := .waitingWrite none, acquired := true, fn := .running }
  | refused {c : Call V} (e : Exc V) : c.phase = .waitingPermit →
      Step c (.permit (some e))
        { c with phase := .ended (.raised e), acquired := true, releases := c.releases + 1,
                 fn := .refused e }
  | unpermitted {c : Call V} (msg : String) : c.phase = .waitingPermit →
      Step c (.cancel msg)
        { c with phase := .ended (.raised (.cancelledError ⟨msg, false⟩)) }
  | finishWrite {c : Call V} (e : Ending V) : c.fn = .running →
      Step c (.finishWrite e) { c with fn := .done e, releases := c.releases + 1 }
  | finishHook {c : Call V} (e : Ending V) : c.hook = .running →
      Step c (.finishHook e) { c with hook := .done e.ofTask }
  | cancel {c : Call V} (msg : String) :
      (∃ p, c.phase = .waitingWrite p) ∨ (∃ w p, c.phase = .waitingHook w p) →
      Step c (.cancel msg) { c.resume (some msg) with interrupts := c.interrupts + 1 }
  | wakeWrite {c : Call V} (p : Option CancelledError) (e : Ending V) :
      c.phase = .waitingWrite p → c.fn = .done e → Step c .wake (c.resume none)
  | wakeHook {c : Call V} (w : Ending V) (p : Option CancelledError) (e : Ending V) :
      c.phase = .waitingHook w p → c.hook = .done e → Step c .wake (c.resume none)

end LightRAG.CommitSubmission
