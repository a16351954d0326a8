import LightRAG.Framework.Dict
import LightRAG.Framework.Run
import Mathlib.Algebra.Order.Field.Rat

/-!
# The login limiter

The table of the limiter, the calls of a login request on it, and the requests of a server as steps:
the check with the reservation is one step, the outcome with the release is another.
-/

namespace LightRAG.LoginRateLimit

/-- `_Entry`: the confirmed failures, oldest first, and the reservations in flight. -/
structure Entry where
  failures : List ℚ
  pending : ℕ
deriving DecidableEq

def Entry.idle (e : Entry) : Bool := e.failures.isEmpty && e.pending == 0

/-- An enabled `LoginRateLimiter`. -/
structure Limiter where
  maxAttempts : ℕ
  windowSeconds : ℚ
  maxTrackedKeys : ℕ
  maxAttempts_pos : 0 < maxAttempts
  windowSeconds_pos : 0 < windowSeconds
  maxTrackedKeys_pos : 0 < maxTrackedKeys

/-- `_entries`, the least recently active key first. -/
abbrev Entries := Dict String Entry

def touch (es : Entries) (key : String) (e : Entry) : Entries := (es.drop (· = key)).set key e

def erase (es : Entries) (key : String) : Entries := es.drop (· = key)

def release (es : Entries) (key : String) : Entries :=
  match es.get key with
  | none => es
  | some e =>
    let e' : Entry := { e with pending := e.pending - 1 }
    if e'.idle then erase es key else es.set key e'

def reset (es : Entries) (key : String) : Entries :=
  match es.get key with
  | none => es
  | some e => if e.pending = 0 then erase es key else es.set key { e with failures := [] }

namespace Limiter

variable (l : Limiter)

def prune (e : Entry) (now : ℚ) : Entry :=
  { e with failures := e.failures.dropWhile fun f => f ≤ now - l.windowSeconds }

variable (es : Entries)

def liveEntry (key : String) (now : ℚ) : Option Entry × Entries :=
  match es.get key with
  | none => (none, es)
  | some e =>
    let e' := l.prune e now
    if e'.idle then (none, erase es key) else (some e', es.set key e')

/-- `retry_after`: the seconds to wait, or that an attempt is allowed. -/
def retryAfter (key : String) (now : ℚ) : Option ℚ × Entries :=
  match l.liveEntry es key now with
  | (none, es) => (none, es)
  | (some e, es) =>
    if e.failures.length + e.pending < l.maxAttempts then (none, es)
    else if l.maxAttempts ≤ e.failures.length then
      (some (max 0 (l.windowSeconds - (now - e.failures.headD now))), es)
    else (some 1, es)

/-- The loop of `_make_room` on the entries in their order. -/
def roomIn (now : ℚ) : List (String × Entry) → Bool × List (String × Entry)
  | [] => (true, [])
  | (key, e) :: rest =>
    if rest.length + 1 < l.maxTrackedKeys then (true, (key, e) :: rest)
    else if (l.prune e now).idle then roomIn now rest
    else (false, (key, l.prune e now) :: rest)

theorem keys_roomIn (now : ℚ) (entries : List (String × Entry)) :
    ((l.roomIn now entries).2.map Prod.fst).Sublist (entries.map Prod.fst) := by
  induction entries with
  | nil => exact List.Sublist.refl _
  | cons x rest ih =>
    unfold roomIn
    split
    · exact List.Sublist.refl _
    · split
      · exact ih.cons _
      · exact List.Sublist.refl _

def makeRoom (now : ℚ) : Bool × Entries :=
  ((l.roomIn now es.entries).1,
    ⟨(l.roomIn now es.entries).2, es.nodup.sublist (l.keys_roomIn now es.entries)⟩)

def reserveAttempt (key : String) (now : ℚ) : Entries :=
  match l.liveEntry es key now with
  | (some e, es) => touch es key { e with pending := e.pending + 1 }
  | (none, es) =>
    match l.makeRoom es now with
    | (false, es) => es
    | (true, es) => touch es key ⟨[], 1⟩

def commitFailure (key : String) (now : ℚ) : Entries :=
  match es.get key with
  | none => es
  | some e =>
    let e' := l.prune e now
    touch es key { e' with failures := e'.failures ++ [now] }

end Limiter

/-- A request between its two steps, and whether its key was tracked when it was reserved. -/
structure Attempt where
  key : String
  tracked : Bool
deriving DecidableEq

structure Verified where
  key : String
  tracked : Bool
  correct : Bool
  time : ℚ
deriving DecidableEq

/-- The table and, next to it, the requests in flight, the time of the last step and what has been
verified, newest first. -/
structure Server where
  entries : Entries
  inFlight : List Attempt
  clock : ℚ
  verified : List Verified

inductive Request
  | login (key : String) (checked reserved : ℚ)
  /-- The outcome of the `i`th request in flight, and its release. -/
  | finish (i : ℕ) (correct : Bool) (now : ℚ)

namespace Limiter

variable (l : Limiter)

def login (s : Server) (key : String) (checked reserved : ℚ) : Server :=
  match l.retryAfter s.entries key checked with
  | (some _, es) => { s with entries := es, clock := reserved }
  | (none, es) =>
    let es' := l.reserveAttempt es key reserved
    { s with
      entries := es'
      inFlight := s.inFlight ++ [⟨key, (es'.get key).isSome⟩]
      clock := reserved }

def finish (s : Server) (i : ℕ) (a : Attempt) (correct : Bool) (now : ℚ) : Server where
  entries :=
    release (if correct then reset s.entries a.key else l.commitFailure s.entries a.key now) a.key
  inFlight := s.inFlight.eraseIdx i
  clock := now
  verified := ⟨a.key, a.tracked, correct, now⟩ :: s.verified

inductive Step : Server → Request → Server → Prop
  | login {s : Server} {key : String} {checked reserved : ℚ} (hchecked : s.clock ≤ checked)
      (hreserved : checked ≤ reserved) :
      Step s (.login key checked reserved) (l.login s key checked reserved)
  | finish {s : Server} {i : ℕ} {a : Attempt} {correct : Bool} {now : ℚ}
      (ha : s.inFlight[i]? = some a) (hnow : s.clock ≤ now) :
      Step s (.finish i correct now) (l.finish s i a correct now)

end Limiter

def start (clock : ℚ) : Server := ⟨Dict.empty, [], clock, []⟩

def reserved (inFlight : List Attempt) (key : String) : ℕ :=
  inFlight.countP fun a => a.key = key && a.tracked

/-- A tracked attempt on the key that was verified as wrong from `lo` to `hi`. -/
def Verified.wrong (v : Verified) (key : String) (lo hi : ℚ) : Bool :=
  v.key = key && v.tracked && !v.correct && lo ≤ v.time && v.time ≤ hi

def wrongIn (log : List Verified) (key : String) (lo hi : ℚ) : List Verified :=
  log.filter fun v => v.wrong key lo hi

def Unsuccessful (log : List Verified) (key : String) (lo hi : ℚ) : Prop :=
  ∀ v ∈ log, v.key = key → v.correct = true → lo ≤ v.time → hi < v.time

namespace Limiter

variable (l : Limiter)

def inWindow (e : Entry) (now : ℚ) : Prop := ∃ f ∈ e.failures, now - l.windowSeconds < f

def live (e : Entry) (now : ℚ) : Prop := l.inWindow e now ∨ 0 < e.pending

structure Protected (s : Server) : Prop where
  pending : ∀ key e, s.entries.get key = some e → e.pending = reserved s.inFlight key
  limited : ∀ key lo hi, hi < lo + l.windowSeconds → Unsuccessful s.verified key lo hi →
    (wrongIn s.verified key lo hi).length ≤ l.maxAttempts

structure ProtectedStep (s : Server) (r : Request) (t : Server) : Prop where
  recorded : ∀ i now a, r = .finish i false now → s.inFlight[i]? = some a → a.tracked = true →
    ∃ e, t.entries.get a.key = some e ∧ now ∈ e.failures
  kept : ∀ key e, s.entries.get key = some e →
    l.inWindow e t.clock ∨ 0 < reserved s.inFlight key → t.entries.get key = none →
    ∃ i correct now a, r = .finish i correct now ∧ s.inFlight[i]? = some a ∧ a.key = key
  untracked : ∀ key checked reserved, r = .login key checked reserved →
    t.inFlight = s.inFlight ++ [⟨key, false⟩] →
    s.entries.entries.length = l.maxTrackedKeys ∧
      ∀ x ∈ s.entries.entries, l.live x.2 reserved

/-- No untracked attempt is released into the reservation of another one, and where a reservation
alone keeps the least recently active entry of a full table, no other entry is idle. -/
def Undisturbed (s : Server) : Request → Prop
  | .login key _ reserved =>
    s.entries.get key = none → s.entries.entries.length = l.maxTrackedKeys →
      ∀ x ∈ s.entries.entries.head?, ¬ l.inWindow x.2 reserved → 0 < x.2.pending →
        ∀ y ∈ s.entries.entries, l.live y.2 reserved
  | .finish i _ _ =>
    ∀ a, s.inFlight[i]? = some a → a.tracked = false →
      ∀ e, s.entries.get a.key = some e → e.pending = 0

def UndisturbedStep (s : Server) (r : Request) (t : Server) : Prop :=
  l.Step s r t ∧ l.Undisturbed s r

end Limiter

end LightRAG.LoginRateLimit
