import Mathlib.Logic.Function.Basic
import Mathlib.Order.Lattice
import LightRAG.Framework.Run

/-!
# Query usage accounting

`query_usage_scope` and `account_openai_call`.
-/

namespace LightRAG.QueryAccounting

/-- `value.rstrip("/")`. -/
def stripSlashes (s : String) : String :=
  String.ofList (s.toList.reverse.dropWhile fun c => c = '/').reverse

/-- An entry of `quote["models"]`. -/
structure QuotedModel where
  kind : String
  model : String
  origin : String
  inputCeiling : Int
  outputCeiling : Int
deriving DecidableEq

structure Quote (T : Type) where
  queryId : String
  leaseId : String
  maxCalls : Int
  deadline : T
  models : List QuotedModel

/-- What the digest of `call_id` is taken of. -/
abbrev CallId := String × Nat

/-- A value of a payload or of a response: an `int`, or something else. -/
inductive Value
  | int (n : Int)
  | other
deriving DecidableEq

structure Payload where
  model : Option String
  stream : Bool
  /-- One of `extra_body`, `extra_headers`, `extra_query` and `max_completion_tokens`. -/
  overrides : Bool
  n : Option Value
  maxTokens : Option Value
  /-- The bytes of the payload with `max_tokens` filled in, where it serialises. -/
  size : Option Int → Option Nat

structure Client where
  maxRetries : Int
  baseUrl : String
  hasClose : Bool

structure RawUsage where
  promptTokens : Option Value
  completionTokens : Option Value
  totalTokens : Option Value
deriving DecidableEq

/-- What the provider answers. -/
structure Response where
  model : Option String
  usage : Option RawUsage
deriving DecidableEq

structure Usage where
  promptTokens : Int
  completionTokens : Int
  totalTokens : Int
  model : String
deriving DecidableEq

section

variable {T : Type} [LinearOrder T]

/-- The turns of the loop of `_validate_quote`. -/
def validateModels (seen : List (String × String × String)) : List QuotedModel → Bool
  | [] => true
  | m :: ms =>
    (m.kind, m.model, m.origin) ∉ seen && (m.kind = "llm" || m.kind = "embedding") &&
      (0 < m.model.length && m.model.length ≤ 255 && 0 < m.origin.length && m.origin.length ≤ 255) &&
      (0 < m.inputCeiling && m.inputCeiling ≤ 1048576) &&
      (0 ≤ m.outputCeiling && m.outputCeiling ≤ 32768) &&
      (decide (m.outputCeiling = 0) == decide (m.kind = "embedding")) &&
      validateModels ((m.kind, m.model, m.origin) :: seen) ms

def validateQuote (quote : Quote T) (queryId : String) (now : T) : Bool :=
  quote.queryId = queryId && (0 < quote.leaseId.length && quote.leaseId.length ≤ 255) &&
    (1 ≤ quote.maxCalls && quote.maxCalls ≤ 16) && now < quote.deadline &&
    (1 ≤ quote.models.length && quote.models.length ≤ 16) && validateModels [] quote.models

/-- `QueryUsageContext`. -/
structure Scope (T : Type) where
  quote : Quote T
  count : Nat
  closed : Bool
  failed : Bool

/-- The test that `limits` and the end of the reservation make. -/
def Scope.refuses (s : Scope T) (now : T) : Bool := s.closed || s.failed || s.quote.deadline ≤ now

def Scope.limits (s : Scope T) (now : T) (kind : String) (model : Option String) (origin : String) :
    Option QuotedModel :=
  if s.refuses now then none
  else
    match s.quote.models.filter fun m =>
      m.kind = kind ∧ some m.model = model ∧ stripSlashes m.origin = stripSlashes origin with
    | [m] => some m
    | _ => none

/-- `max_tokens` after `setdefault`, where it keeps to the ceiling. -/
def outputLimit (limits : QuotedModel) (payload : Payload) : Option Int :=
  match payload.maxTokens.getD (.int limits.outputCeiling) with
  | .int output => if 0 < output ∧ output ≤ limits.outputCeiling then some output else none
  | .other => none

/-- The checks of `_account_scoped_openai_call` before the lock: the size and the output limit
that are reserved. -/
def checkPayload (limits : QuotedModel) (kind : String) (client : Client) (payload : Payload) :
    Option (Nat × Int) := do
  guard (client.maxRetries = 0 ∧ payload.stream = false ∧ payload.overrides = false)
  let output ← if kind = "llm" then do
      guard (payload.n.getD (.int 1) = .int 1)
      outputLimit limits payload
    else some 0
  let size ← payload.size (if kind = "llm" then some output else none)
  guard ((size : Int) ≤ limits.inputCeiling)
  return (size, output)

def rawUsage (response : Response) (kind : String) (expectedModel : Option String) :
    Option Usage :=
  match response.usage, response.model with
  | some usage, some model =>
    if some model ≠ expectedModel then none
    else
      let completion := if kind = "embedding" then some (.int 0) else usage.completionTokens
      match usage.promptTokens, completion, usage.totalTokens with
      | some (.int p), some (.int c), some (.int t) =>
        if 0 ≤ p ∧ 0 ≤ c ∧ 0 ≤ t ∧ t = p + c then some ⟨p, c, t, model⟩ else none
      | _, _, _ => none
  | _, _ => none

/-- Why a reservation is settled: the scope refused the send, the send raised, it answered. -/
inductive Cause
  | refused
  | broke (cancelled : Bool)
  | answered
deriving DecidableEq

/-- The await that a call is at, or how it ended. -/
inductive Phase
  | waitingSlot
  | waitingLock (size : Nat) (output : Int)
  | reserving
  | sending
  /-- In `_finish_owned`; the answer is that of `settle_call`. -/
  | settling (cause : Cause) (answer : Option Bool)
  | closingClient
  | returned
  | raised
deriving DecidableEq

/-- One `account_openai_call`, and what the authority and the provider have seen of it. -/
structure Call where
  kind : String
  client : Client
  payload : Payload
  phase : Phase
  id : Option CallId
  /-- `reserve_call` returned. -/
  granted : Bool
  sends : Nat
  response : Option Response
  /-- The requests of `settle_call`. -/
  settles : List (Option Usage)
  /-- `settle_call` returned. -/
  settled : Bool
  cancelled : Bool

inductive Status
  | completed
  | cancelled
  | failed
  | unknown
deriving DecidableEq

/-- How the body of the scope ends. -/
inductive Ending
  | normally
  | cancelled
  | raising
deriving DecidableEq

/-- `openai_accounting_transport` of the authority. -/
inductive Owner
  | absent
  | transport
  | untrusted
deriving DecidableEq

structure World (T : Type) where
  owner : Owner
  scope : Scope T
  lock : Option Nat
  calls : Nat → Option Call
  /-- The requests of `reserve_call`. -/
  requested : List CallId
  /-- The requests of `finish`. -/
  finishes : List Status

def World.opened (owner : Owner) (quote : Quote T) : World T :=
  ⟨owner, ⟨quote, 0, false, false⟩, none, fun _ => none, [], []⟩

namespace Call

def new (kind : String) (client : Client) (payload : Payload) : Call :=
  ⟨kind, client, payload, .waitingSlot, none, false, 0, none, [], false, false⟩

variable (c : Call)

def limits (scope : Scope T) (now : T) : Option QuotedModel :=
  scope.limits now c.kind c.payload.model c.client.baseUrl

/-- `_account_scoped_openai_call` up to the lock. -/
def account (scope : Scope T) (now : T) : Call :=
  match (c.limits scope now).bind fun limits => checkPayload limits c.kind c.client c.payload with
  | none => { c with phase := .raised }
  | some (size, output) => { c with phase := .waitingLock size output }

/-- `account_openai_call` up to its first await. -/
def start (owner : Owner) (scope : Scope T) (now : T) : Call :=
  match owner with
  | .absent => c.account scope now
  | .untrusted => { c with phase := .raised }
  | .transport =>
    if (c.limits scope now).isSome then { c with phase := .waitingSlot }
    else { c with phase := .raised }

/-- The request of `settle_call`. -/
def settle (cause : Cause) (usage : Option Usage) : Call :=
  { c with phase := .settling cause none, settles := c.settles ++ [usage] }

/-- What follows `reserve_call`: the send, or the settlement of a call that is not sent. -/
def proceed (refused : Bool) : Call :=
  if refused then { c with granted := true }.settle .refused none
  else { c with granted := true, phase := .sending, sends := c.sends + 1 }

/-- The end of `_finish_owned` around `settle_call`. -/
def resume (cause : Cause) (ok : Bool) : Call :=
  match cause with
  | .refused => { c with phase := .raised }
  | .broke cancelled =>
    { c with phase := if cancelled ∧ c.client.hasClose then .closingClient else .raised }
  | .answered =>
    { c with phase := if ok ∧ ¬ c.cancelled ∧ c.settles ≠ [none] then .returned else .raised }

end Call

namespace World

variable (w : World T)

def setCall (i : Nat) (c : Call) : World T :=
  { w with calls := Function.update w.calls i (some c) }

def fail : World T := { w with scope := { w.scope with failed := true } }

/-- `scope.failed` is set where `refused` or the like holds. -/
def failIf (b : Bool) : World T := if b then w.fail else w

end World

inductive Event (T : Type)
  | call (i : Nat) (kind : String) (client : Client) (payload : Payload) (now : T)
  | slot (i : Nat) (now : T)
  | leave (i : Nat)
  | acquire (i : Nat) (now : T)
  | reserved (i : Nat) (now : T)
  | unreserved (i : Nat)
  | answered (i : Nat) (response : Response)
  | broke (i : Nat) (cancelled : Bool)
  | cancel (i : Nat)
  | settled (i : Nat) (ok : Bool)
  | resume (i : Nat)
  | closed (i : Nat)
  | finish (ending : Ending)

/-- The segment of a call that runs from one await to the next. -/
inductive Moves (w : World T) (i : Nat) (c : Call) : Event T → World T → Prop
  | slot (now : T) (hphase : c.phase = .waitingSlot) :
      Moves w i c (.slot i now) (w.setCall i (c.account w.scope now))
  -- the wait timed out or was cancelled, or the transport is closed
  | leaveSlot (hphase : c.phase = .waitingSlot) :
      Moves w i c (.leave i) (w.setCall i { c with phase := .raised })
  | leaveLock {size : Nat} {output : Int} (hphase : c.phase = .waitingLock size output) :
      Moves w i c (.leave i) (w.setCall i { c with phase := .raised })
  | exhausted {size : Nat} {output : Int} (now : T) (hphase : c.phase = .waitingLock size output)
      (hlock : w.lock = none)
      (hno : c.limits w.scope now = none ∨ w.scope.quote.maxCalls ≤ w.scope.count) :
      Moves w i c (.acquire i now) (w.setCall i { c with phase := .raised })
  | reserve {size : Nat} {output : Int} (now : T) (hphase : c.phase = .waitingLock size output)
      (hlock : w.lock = none) (hlimits : (c.limits w.scope now).isSome)
      (hcount : ¬ w.scope.quote.maxCalls ≤ w.scope.count) :
      Moves w i c (.acquire i now)
        ({ w with
            scope := { w.scope with count := w.scope.count + 1 }
            lock := some i
            requested := w.requested ++ [(w.scope.quote.queryId, w.scope.count + 1)] }.setCall i
          { c with phase := .reserving, id := some (w.scope.quote.queryId, w.scope.count + 1) })
  | reserved (now : T) (hphase : c.phase = .reserving) :
      Moves w i c (.reserved i now)
        (({ w with lock := none }.failIf (w.scope.refuses now)).setCall i
          (c.proceed (w.scope.refuses now)))
  -- it raised or was cancelled
  | unreserved (hphase : c.phase = .reserving) :
      Moves w i c (.unreserved i)
        ({ w with lock := none }.fail.setCall i { c with phase := .raised })
  | answered (response : Response) (hphase : c.phase = .sending) :
      Moves w i c (.answered i response)
        (w.setCall i ({ c with response := some response }.settle .answered
          (rawUsage response c.kind c.payload.model)))
  | broke (cancelled : Bool) (hphase : c.phase = .sending) :
      Moves w i c (.broke i cancelled)
        (w.fail.setCall i ({ c with cancelled := cancelled }.settle (.broke cancelled) none))
  | cancel (hphase : (∃ cause answer, c.phase = .settling cause answer) ∨ c.phase = .closingClient) :
      Moves w i c (.cancel i) (w.setCall i { c with cancelled := true })
  | settled {cause : Cause} (ok : Bool) (hphase : c.phase = .settling cause none) :
      Moves w i c (.settled i ok)
        (w.setCall i { c with phase := .settling cause (some ok), settled := ok })
  | resume {cause : Cause} {ok : Bool} (hphase : c.phase = .settling cause (some ok)) :
      Moves w i c (.resume i)
        ((w.failIf ((c.resume cause ok).phase ≠ .returned)).setCall i (c.resume cause ok))
  | closed (hphase : c.phase = .closingClient) :
      Moves w i c (.closed i) (w.setCall i { c with phase := .raised })

/-- The argument of `finish`. -/
def finishStatus (failed : Bool) : Ending → Status
  | .normally => if failed then .unknown else .completed
  | .cancelled => .cancelled
  | .raising => .failed

inductive Step (w : World T) : Event T → World T → Prop
  | call {i : Nat} (kind : String) (client : Client) (payload : Payload) (now : T)
      (hfresh : w.calls i = none) :
      Step w (.call i kind client payload now)
        (w.setCall i ((Call.new kind client payload).start w.owner w.scope now))
  | moves {i : Nat} {c : Call} {e : Event T} {w' : World T} (hcall : w.calls i = some c)
      (hmoves : Moves w i c e w') : Step w e w'
  | finish (ending : Ending) (hopen : w.scope.closed = false) :
      Step w (.finish ending)
        { w with
          scope := { w.scope with closed := true }
          finishes := w.finishes ++ [finishStatus w.scope.failed ending] }

end

end LightRAG.QueryAccounting
