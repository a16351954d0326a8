import LightRAG.Framework.Table
import LightRAG.Framework.Utf8
import Mathlib.Algebra.BigOperators.Group.List.Basic
import Mathlib.Algebra.Ring.Int.Defs
import Mathlib.Data.List.Lex
import Mathlib.Order.Fin.Basic

/-!
# The bounded scan-job store

One workspace's job records. Every limit is checked inside the store, and every operation reads
the clock at most once.
-/

namespace LightRAG.ScanJobs
open Table Utf8

/-- `ScanJobStatus`. -/
inductive Status
  | running
  | completed
  | failed
  | cancelled
  | abandoned
deriving DecidableEq

def Status.all : List Status := [.running, .completed, .failed, .cancelled, .abandoned]

def Status.value : Status → String
  | .running => "running"
  | .completed => "completed"
  | .failed => "failed"
  | .cancelled => "cancelled"
  | .abandoned => "abandoned"

/-- Membership in `_TERMINAL_STATUSES`. -/
def Status.isTerminal (s : Status) : Bool := s ≠ .running

def statusMaxBytes : Nat := (Status.all.map fun s => size (ofString s.value)).foldl max 0

inductive CreateOutcome
  | accepted
  | alreadyExists
  | capacityExceeded
  | invalidIdentifier
deriving DecidableEq

inductive UpdateConflict
  | notFound
  | owner
  | version
  | terminal
  | invalidStatus
deriving DecidableEq

structure Limits (T : Type) where
  capacity : Nat
  sampleLimit : Nat
  sampleMaxBytes : Nat
  recordMaxBytes : Nat
  maxCounterKeys : Nat
  counterKeyMaxBytes : Nat
  counterValueMax : Nat
  identifierMaxBytes : Nat
  leaseSeconds : T
  ttlSeconds : T
deriving DecidableEq

/-- The limits `__init__` makes of its arguments. -/
def Limits.new {T : Type} (capacity sampleLimit sampleMaxBytes recordMaxBytes maxCounterKeys
    counterKeyMaxBytes counterValueMax identifierMaxBytes : Int) (leaseSeconds ttlSeconds : T) :
    Limits T where
  capacity := (max 1 capacity).toNat
  sampleLimit := (max 0 sampleLimit).toNat
  sampleMaxBytes := (max 1 sampleMaxBytes).toNat
  recordMaxBytes := (max 1 recordMaxBytes).toNat
  maxCounterKeys := (max 1 maxCounterKeys).toNat
  counterKeyMaxBytes := (max 1 counterKeyMaxBytes).toNat
  counterValueMax := (max 1 counterValueMax).toNat
  identifierMaxBytes := (max 1 identifierMaxBytes).toNat
  leaseSeconds := leaseSeconds
  ttlSeconds := ttlSeconds

def Limits.default {T : Type} [OfNat T 60] [OfNat T 3600] : Limits T :=
  .new 128 20 512 65536 32 64 (2 ^ 53) 128 60 3600

/-- `_cap_sample`: the text, or what of it fits in `maxBytes` bytes. -/
def capSample (text : Str) (maxBytes : Nat) : Str × Bool :=
  let raw := encode text
  if raw.length ≤ maxBytes then (text, false) else (decode (raw.take maxBytes), true)

structure SampleBucket where
  items : List Str
  truncated : Bool
  dropped : Nat
deriving DecidableEq

def SampleBucket.empty : SampleBucket := ⟨[], false, 0⟩

def SampleBucket.approxBytes (b : SampleBucket) : Nat := (b.items.map size).sum

def sampleBuckets : List Str := ["processed", "warning", "error"].map ofString

def newSamples : List (Str × SampleBucket) := sampleBuckets.map fun bucket => (bucket, .empty)

/-- `_ScanJobRecord`. -/
structure Record (T : Type) where
  trackId : Str
  workspace : Str
  ownerToken : Str
  status : Status
  counts : List (Str × Int)
  samples : List (Str × SampleBucket)
  createdAt : T
  updatedAt : T
  leaseExpiresAt : T
  version : Int
  message : Str
  countersDropped : Nat
deriving DecidableEq

/-- What `to_public` shows of a record. -/
structure Public (T : Type) where
  trackId : Str
  status : Status
  counts : List (Str × Int)
  countersDropped : Nat
  samples : List (Str × SampleBucket)
  createdAt : T
  updatedAt : T
  version : Int
  message : Str
deriving DecidableEq

namespace Record

variable {T : Type}

def approxBytes (r : Record T) : Nat :=
  let countsBytes := (r.counts.map fun p => size p.1 + 8).sum
  let sampleBytes := (r.samples.map fun p => p.2.approxBytes).sum
  let scalarBytes := statusMaxBytes +
    (size r.trackId + size r.workspace + size r.ownerToken + size r.message)
  countsBytes + sampleBytes + scalarBytes + 128

def toPublic (r : Record T) : Public T where
  trackId := r.trackId
  status := r.status
  counts := r.counts
  countersDropped := r.countersDropped
  samples := r.samples
  createdAt := r.createdAt
  updatedAt := r.updatedAt
  version := r.version
  message := r.message

/-- `_fit_message_locked`. -/
def fitMessage (l : Limits T) (message : Str) (r : Record T) : Str :=
  let remaining : Int := l.recordMaxBytes - (r.approxBytes - size r.message)
  let budget : Int := min l.sampleMaxBytes remaining
  if budget ≤ 0 then [] else (capSample message budget.toNat).1

def abandonMessage : Str := ofString "Lease expired: owner presumed dead; job abandoned."

def finish (status : Status) (now : T) (r : Record T) : Record T :=
  { r with status := status, updatedAt := now, version := r.version + 1 }

def withMessage (l : Limits T) (message : Str) (r : Record T) : Record T :=
  { r with message := r.fitMessage l message }

/-- `_maybe_abandon_locked`. -/
def maybeAbandon [LE T] [DecidableLE T] (l : Limits T) (now : T) (r : Record T) : Record T :=
  if r.status = .running ∧ r.leaseExpiresAt ≤ now then
    (r.finish .abandoned now).withMessage l abandonMessage
  else r

end Record

/-- A value of `count_deltas`; what is no integer is ignored. -/
inductive Delta
  | int (n : Int)
  | other
deriving DecidableEq

namespace Record

variable {T : Type}

/-- One turn of the loop over `count_deltas`. -/
def applyDelta (l : Limits T) (r : Record T) (change : Str × Delta) : Record T :=
  match change with
  | (_, .other) => r
  | (key, .int delta) =>
    if l.counterValueMax < delta.natAbs then { r with countersDropped := r.countersDropped + 1 }
    else
      match lookup Prod.fst r.counts key with
      | some (_, value) =>
        if l.counterValueMax < (value + delta).natAbs then
          { r with countersDropped := r.countersDropped + 1 }
        else
          { r with counts := updateWhere (fun p => p.1 = key) (fun p => (p.1, p.2 + delta)) r.counts }
      | none =>
        if l.counterKeyMaxBytes < size key ∨ l.maxCounterKeys ≤ r.counts.length ∨
            l.recordMaxBytes < r.approxBytes + size key + 8 then
          { r with countersDropped := r.countersDropped + 1 }
        else { r with counts := r.counts ++ [(key, delta)] }

def setBucket (name : Str) (bucket : SampleBucket) (r : Record T) : Record T :=
  { r with samples := updateWhere (fun p => p.1 = name) (fun p => (p.1, bucket)) r.samples }

/-- The sample of an update; a bucket that does not exist takes none. -/
def addSample (l : Limits T) (r : Record T) (sample : Str × Str) : Record T :=
  match lookup Prod.fst r.samples sample.1 with
  | none => r
  | some (name, bucket) =>
    let capped := capSample sample.2 l.sampleMaxBytes
    if l.sampleLimit ≤ bucket.items.length then
      r.setBucket name { bucket with dropped := bucket.dropped + 1 }
    else if l.recordMaxBytes < r.approxBytes + size capped.1 then
      r.setBucket name { bucket with dropped := bucket.dropped + 1 }
    else
      r.setBucket name { bucket with
        items := bucket.items ++ [capped.1]
        truncated := bucket.truncated || capped.2 }

def apply [Add T] (l : Limits T) (deltas : Option (List (Str × Delta)))
    (sample : Option (Str × Str)) (now : T) (r : Record T) : Record T :=
  let counted := (deltas.getD []).foldl (applyDelta l) r
  let sampled := sample.elim counted (addSample l counted)
  { sampled with
    version := sampled.version + 1
    updatedAt := now
    leaseExpiresAt := now + l.leaseSeconds }

end Record

structure CreateResult (T : Type) where
  outcome : CreateOutcome
  record : Option (Public T)
  message : String
deriving DecidableEq

structure UpdateResult (T : Type) where
  ok : Bool
  conflict : Option UpdateConflict
  record : Option (Public T)
deriving DecidableEq

/-- `AsyncioScanJobStore`. -/
structure Store (T : Type) where
  workspace : Str
  limits : Limits T
  jobs : List (Record T)
deriving DecidableEq

namespace Store

variable {T : Type}

def new (workspace : Str) (limits : Limits T) : Store T := ⟨workspace, limits, []⟩

def job (s : Store T) (trackId : Str) : Option (Record T) := lookup Record.trackId s.jobs trackId

def put (r : Record T) (s : Store T) : Store T :=
  { s with jobs := replace Record.trackId r s.jobs }

section Clock

variable [LinearOrder T] [Sub T]

def isExpired (l : Limits T) (now : T) (r : Record T) : Bool :=
  r.status.isTerminal && l.ttlSeconds ≤ now - r.updatedAt

/-- `_reap_locked`. -/
def reap (now : T) (s : Store T) : Store T :=
  let jobs := s.jobs.map fun r => r.maybeAbandon s.limits now
  { s with jobs := deleteWhere (isExpired s.limits now) jobs }

/-- The order of the pairs `(updated_at, track_id)`. -/
def isEarlier (a b : T × Str) : Bool := a.1 < b.1 || a.1 = b.1 && a.2 ≤ b.2

/-- `_evict_one_terminal_locked`; `none` when no job is terminal. -/
def evictOneTerminal (s : Store T) : Option (Store T) :=
  let terminal := s.jobs.filterMap fun r =>
    if r.status.isTerminal then some (r.updatedAt, r.trackId) else none
  match terminal.mergeSort isEarlier with
  | [] => none
  | (_, trackId) :: _ =>
    some { s with jobs := deleteWhere (fun r => r.trackId = trackId) s.jobs }

variable [Add T]

def tooLong (label : String) (s : Store T) : CreateResult T :=
  ⟨.invalidIdentifier, none,
    label ++ " exceeds " ++ toString s.limits.identifierMaxBytes ++ " UTF-8 bytes"⟩

def tooLarge (baseBytes : Nat) (s : Store T) : CreateResult T :=
  ⟨.invalidIdentifier, none,
    "an empty job record for this workspace/track_id already measures " ++ toString baseBytes ++
      " bytes, over the " ++ toString s.limits.recordMaxBytes ++ "-byte record ceiling"⟩

variable (trackId ownerToken : Str)

def fresh (now : T) (s : Store T) : Record T where
  trackId := trackId
  workspace := s.workspace
  ownerToken := ownerToken
  status := .running
  counts := []
  samples := newSamples
  createdAt := now
  updatedAt := now
  leaseExpiresAt := now + s.limits.leaseSeconds
  version := 1
  message := []
  countersDropped := 0

/-- Seat a record, over the oldest terminal one when the store is full. -/
def seat (r : Record T) (s : Store T) : CreateResult T × Store T :=
  if s.jobs.length < s.limits.capacity then
    (⟨.accepted, some r.toPublic, ""⟩, { s with jobs := s.jobs ++ [r] })
  else
    match s.evictOneTerminal with
    | none => (⟨.capacityExceeded, none, ""⟩, s)
    | some s => (⟨.accepted, some r.toPublic, ""⟩, { s with jobs := s.jobs ++ [r] })

def create (now : T) (s : Store T) : CreateResult T × Store T :=
  if s.limits.identifierMaxBytes < size trackId then (s.tooLong "track_id", s)
  else if s.limits.identifierMaxBytes < size ownerToken then (s.tooLong "owner_token", s)
  else
    let s := s.reap now
    match s.job trackId with
    | some existing => (⟨.alreadyExists, some existing.toPublic, ""⟩, s)
    | none =>
      let r := s.fresh trackId ownerToken now
      if s.limits.recordMaxBytes < r.approxBytes then (s.tooLarge r.approxBytes, s)
      else s.seat r

/-- The checks that `update` and `set_status` share, and the change that they make. -/
def guarded (expectedVersion : Int) (now : T)
    (change : Record T → Record T) (s : Store T) : UpdateResult T × Store T :=
  match s.job trackId with
  | none => (⟨false, some .notFound, none⟩, s)
  | some r =>
    let r := r.maybeAbandon s.limits now
    let s := s.put r
    if r.ownerToken ≠ ownerToken then (⟨false, some .owner, none⟩, s)
    else if r.status ≠ .running then (⟨false, some .terminal, some r.toPublic⟩, s)
    else if r.version ≠ expectedVersion then (⟨false, some .version, some r.toPublic⟩, s)
    else (⟨true, none, some (change r).toPublic⟩, s.put (change r))

def update (countDeltas : Option (List (Str × Delta)))
    (sample : Option (Str × Str)) (expectedVersion : Int) (now : T) (s : Store T) :
    UpdateResult T × Store T :=
  s.guarded trackId ownerToken expectedVersion now fun r => r.apply s.limits countDeltas sample now

def setStatus (status : Status) (expectedVersion : Int)
    (message : Str) (now : T) (s : Store T) : UpdateResult T × Store T :=
  if !status.isTerminal then (⟨false, some .invalidStatus, none⟩, s)
  else
    s.guarded trackId ownerToken expectedVersion now fun r =>
      let r := r.finish status now
      if message = [] then r else r.withMessage s.limits message

def get (trackId : Str) (now : T) (s : Store T) : Option (Public T) × Store T :=
  match s.job trackId with
  | none => (none, s)
  | some r =>
    let r := r.maybeAbandon s.limits now
    (some r.toPublic, s.put r)

def cancel (message : Str) (now : T) (s : Store T) :
    UpdateResult T × Store T :=
  match s.job trackId with
  | none => (⟨false, some .notFound, none⟩, s)
  | some r =>
    if r.ownerToken ≠ ownerToken then (⟨false, some .owner, none⟩, s)
    else if r.status ≠ .running then (⟨true, some .terminal, some r.toPublic⟩, s)
    else
      let r := r.finish .cancelled now
      let r := if message = [] then r else r.withMessage s.limits message
      (⟨true, none, some r.toPublic⟩, s.put r)

def removeTerminal (trackId : Str) (s : Store T) : Bool × Store T :=
  match s.job trackId with
  | none => (false, s)
  | some r =>
    if r.status.isTerminal then
      (true, { s with jobs := deleteWhere (fun r => r.trackId = trackId) s.jobs })
    else (false, s)

def snapshot (now : T) (s : Store T) : List (Public T) × Store T :=
  let s := s.reap now
  (s.jobs.map Record.toPublic, s)

end Clock
end Store

inductive Call (T : Type)
  | create (trackId ownerToken : Str) (now : T)
  | update (trackId ownerToken : Str) (countDeltas : Option (List (Str × Delta)))
      (sample : Option (Str × Str)) (expectedVersion : Int) (now : T)
  | setStatus (trackId ownerToken : Str) (status : Status) (expectedVersion : Int)
      (message : Str) (now : T)
  | cancel (trackId ownerToken : Str) (message : Str) (now : T)
  | get (trackId : Str) (now : T)
  | removeTerminal (trackId : Str)
  | snapshot (now : T)

inductive Result (T : Type)
  | created (r : CreateResult T)
  | updated (r : UpdateResult T)
  | found (r : Option (Public T))
  | removed (r : Bool)
  | jobs (r : List (Public T))

variable {T : Type} [LinearOrder T] [Sub T] [Add T]

def Store.call (s : Store T) : Call T → Result T × Store T
  | .create trackId ownerToken now => (s.create trackId ownerToken now).map .created id
  | .update trackId ownerToken countDeltas sample expectedVersion now =>
    (s.update trackId ownerToken countDeltas sample expectedVersion now).map .updated id
  | .setStatus trackId ownerToken status expectedVersion message now =>
    (s.setStatus trackId ownerToken status expectedVersion message now).map .updated id
  | .cancel trackId ownerToken message now =>
    (s.cancel trackId ownerToken message now).map .updated id
  | .get trackId now => (s.get trackId now).map .found id
  | .removeTerminal trackId => (s.removeTerminal trackId).map .removed id
  | .snapshot now => (s.snapshot now).map .jobs id

def Store.run (s : Store T) (calls : List (Call T)) : Store T :=
  calls.foldl (fun s c => (s.call c).2) s

end LightRAG.ScanJobs

/-!
## The bounds of a job record

Every change of a record measures what it adds, so no record grows past its limits.
-/

namespace LightRAG.ScanJobs
open Table Utf8 List

structure Record.Bounded {T : Type} (l : Limits T) (r : Record T) : Prop where
  bytes : r.approxBytes ≤ l.recordMaxBytes
  counters : r.counts.length ≤ l.maxCounterKeys
  values : ∀ p ∈ r.counts, p.2.natAbs ≤ l.counterValueMax
  samples : ∀ p ∈ r.samples, p.2.items.length ≤ l.sampleLimit
  items : ∀ p ∈ r.samples, ∀ item ∈ p.2.items, size item ≤ l.sampleMaxBytes

structure Record.Sound {T : Type} (l : Limits T) (r : Record T) : Prop extends r.Bounded l where
  keys : (r.counts.map Prod.fst).Nodup
  buckets : (r.samples.map Prod.fst).Nodup

theorem size_capSample (text : Str) (maxBytes : Nat) : size (capSample text maxBytes).1 ≤ maxBytes := by
  simp only [capSample]
  split
  · rename_i hfits
    exact hfits
  · refine (size_decode _).trans ?_
    rw [length_take]
    exact min_le_left _ _

section Record

variable {T : Type} {l : Limits T} {r : Record T}

theorem approxBytes_message (message : Str) :
    { r with message := message }.approxBytes + size r.message =
      r.approxBytes + size message := by
  simp only [Record.approxBytes]
  omega

theorem approxBytes_newCounter (key : Str) (delta : Int) :
    { r with counts := r.counts ++ [(key, delta)] }.approxBytes =
      r.approxBytes + size key + 8 := by
  simp only [Record.approxBytes,map_append,map_cons,map_nil,sum_append,sum_cons,sum_nil]
  omega

theorem approxBytes_counter (p : Str × Int → Bool) (f : Int → Int) :
    { r with counts := updateWhere p (fun p => (p.1, f p.2)) r.counts }.approxBytes =
      r.approxBytes := by
  have hsizes : (updateWhere p (fun p => (p.1, f p.2)) r.counts).map (fun p => size p.1 + 8) =
      r.counts.map fun p => size p.1 + 8 := map_updateWhere fun _ => rfl
  simp only [Record.approxBytes,hsizes]

theorem approxBytes_setBucket (hr : r.Sound l) {name : Str} {old : SampleBucket}
    (hold : lookup Prod.fst r.samples name = some (name, old)) (bucket : SampleBucket) :
    (r.setBucket name bucket).approxBytes + old.approxBytes =
      r.approxBytes + bucket.approxBytes := by
  have hsum := sum_updateWhere (f := fun p => (p.1, bucket)) hr.buckets hold
    fun p => p.2.approxBytes
  simp only [Record.approxBytes,Record.setBucket]
  dsimp only at hsum
  omega

/-- What one turn of the loop over the deltas does. -/
inductive Counted (l : Limits T) (r : Record T) : Str × Delta → Record T → Prop
  | ignored (key : Str) : Counted l r (key, .other) r
  | tallied (key : Str) (delta : Int) :
    Counted l r (key, .int delta) { r with countersDropped := r.countersDropped + 1 }
  | added {key : Str} {value : Int} (delta : Int)
    (hkey : lookup Prod.fst r.counts key = some (key, value))
    (hvalue : (value + delta).natAbs ≤ l.counterValueMax) :
    Counted l r (key, .int delta)
      { r with counts := updateWhere (fun p => p.1 = key) (fun p => (p.1, p.2 + delta)) r.counts }
  | opened {key : Str} (delta : Int) (hnew : lookup Prod.fst r.counts key = none)
    (hvalue : delta.natAbs ≤ l.counterValueMax) (hkeys : r.counts.length < l.maxCounterKeys)
    (hbytes : r.approxBytes + size key + 8 ≤ l.recordMaxBytes) :
    Counted l r (key, .int delta) { r with counts := r.counts ++ [(key, delta)] }

theorem counted_applyDelta (change : Str × Delta) : Counted l r change (r.applyDelta l change) := by
  obtain ⟨key,delta⟩ := change
  cases delta with
  | other => exact .ignored key
  | int delta =>
    simp only [Record.applyDelta]
    by_cases hdelta : l.counterValueMax < delta.natAbs
    · rw [if_pos hdelta]
      exact .tallied key delta
    · rw [if_neg hdelta]
      cases hlookup : lookup Prod.fst r.counts key with
      | some p =>
        obtain ⟨key',value⟩ := p
        have hkey : key' = key := (mem_of_lookup hlookup).2
        subst hkey
        by_cases hvalue : l.counterValueMax < (value + delta).natAbs
        · simp only [if_pos hvalue]
          exact .tallied key' delta
        · simp only [if_neg hvalue]
          exact .added delta hlookup (Nat.le_of_not_lt hvalue)
      | none =>
        by_cases hbound : l.counterKeyMaxBytes < size key ∨ l.maxCounterKeys ≤ r.counts.length ∨
            l.recordMaxBytes < r.approxBytes + size key + 8
        · simp only [if_pos hbound]
          exact .tallied key delta
        · simp only [if_neg hbound]
          exact .opened delta hlookup (by omega) (by omega) (by omega)

theorem Record.Sound.applyDelta (hr : r.Sound l) (change : Str × Delta) :
    (r.applyDelta l change).Sound l := by
  have hcounted := counted_applyDelta (l := l) (r := r) change
  generalize r.applyDelta l change = r' at hcounted
  cases hcounted with
  | ignored key => exact hr
  | tallied key delta => exact { hr with }
  | @added key value delta hkey hvalue =>
    have hkeys : (updateWhere (fun p : Str × Int => decide (p.1 = key))
        (fun p => (p.1, p.2 + delta)) r.counts).map Prod.fst = r.counts.map Prod.fst :=
      map_updateWhere fun _ => rfl
    refine { hr with bytes := ?_, counters := ?_, values := ?_, keys := ?_ }
    · rw [approxBytes_counter (f := fun v => v + delta)]
      exact hr.bytes
    · rw [length_updateWhere]
      exact hr.counters
    · intro p hp
      obtain ⟨p₀,hp₀,⟨hpkey,rfl⟩ | ⟨-,rfl⟩⟩ := mem_updateWhere.mp hp
      · have hsame : p₀ = (key, value) :=
          eq_of_key hr.keys hp₀ (mem_of_lookup hkey).1 (of_decide_eq_true hpkey)
        rw [hsame]
        exact hvalue
      · exact hr.values p₀ hp₀
    · rw [hkeys]
      exact hr.keys
  | @opened key delta hnew hvalue hkeys hbytes =>
    refine { hr with bytes := ?_, counters := ?_, values := ?_, keys := ?_ }
    · rw [approxBytes_newCounter]
      exact hbytes
    · rw [length_append]
      exact hkeys
    · intro p hp
      rcases mem_append.mp hp with hold | hone
      · exact hr.values p hold
      · rw [mem_singleton.mp hone]
        exact hvalue
    · exact nodup_append_new hr.keys fun p hp hkey => lookup_eq_none.mp hnew p hp hkey

theorem Record.Sound.setBucket (hr : r.Sound l) {name : Str} {old bucket : SampleBucket}
    (hold : lookup Prod.fst r.samples name = some (name, old))
    (hbytes : r.approxBytes + bucket.approxBytes ≤ l.recordMaxBytes + old.approxBytes)
    (hlimit : bucket.items.length ≤ l.sampleLimit)
    (hitems : ∀ item ∈ bucket.items, size item ≤ l.sampleMaxBytes) :
    (r.setBucket name bucket).Sound l := by
  have hnames : (r.setBucket name bucket).samples.map Prod.fst = r.samples.map Prod.fst :=
    map_updateWhere fun _ => rfl
  refine { hr with bytes := ?_, samples := ?_, items := ?_, buckets := ?_ }
  · have hbucket := approxBytes_setBucket hr hold bucket
    omega
  · intro p hp
    obtain ⟨p₀,hp₀,⟨-,rfl⟩ | ⟨-,rfl⟩⟩ := mem_updateWhere.mp hp
    · exact hlimit
    · exact hr.samples p₀ hp₀
  · intro p hp
    obtain ⟨p₀,hp₀,⟨-,rfl⟩ | ⟨-,rfl⟩⟩ := mem_updateWhere.mp hp
    · exact hitems
    · exact hr.items p₀ hp₀
  · rw [hnames]
    exact hr.buckets

theorem Record.Sound.addSample (hr : r.Sound l) (sample : Str × Str) :
    (r.addSample l sample).Sound l := by
  simp only [Record.addSample]
  cases hlookup : lookup Prod.fst r.samples sample.1 with
  | none => exact hr
  | some p =>
    obtain ⟨name,bucket⟩ := p
    obtain ⟨hmem,hname⟩ := mem_of_lookup hlookup
    rw [← hname] at hlookup
    have hdropped : (r.setBucket name { bucket with dropped := bucket.dropped + 1 }).Sound l := by
      apply hr.setBucket hlookup
      · exact Nat.add_le_add_right hr.bytes _
      · exact hr.samples _ hmem
      · exact hr.items _ hmem
    dsimp only
    by_cases hfull : l.sampleLimit ≤ bucket.items.length
    · rw [if_pos hfull]
      exact hdropped
    · rw [if_neg hfull]
      by_cases hbytes : l.recordMaxBytes < r.approxBytes + size (capSample sample.2 l.sampleMaxBytes).1
      · rw [if_pos hbytes]
        exact hdropped
      · rw [if_neg hbytes]
        apply hr.setBucket hlookup
        · simp only [SampleBucket.approxBytes,map_append,map_cons,map_nil,
            sum_append,sum_cons,sum_nil]
          omega
        · rw [length_append,length_singleton]
          omega
        · intro item hitem
          rcases mem_append.mp hitem with hold | hnew
          · exact hr.items _ hmem item hold
          · rw [mem_singleton.mp hnew]
            exact size_capSample _ _

theorem size_fitMessage (hr : r.approxBytes ≤ l.recordMaxBytes) (message : Str) :
    size (r.fitMessage l message) + r.approxBytes ≤ l.recordMaxBytes + size r.message := by
  simp only [Record.fitMessage]
  split
  · rw [size_nil]
    omega
  · have hcap := size_capSample message
      (min (l.sampleMaxBytes : Int) (l.recordMaxBytes - (r.approxBytes - size r.message))).toNat
    omega

theorem Record.Sound.withMessage (hr : r.Sound l) (message : Str) :
    (r.withMessage l message).Sound l := by
  refine { hr with bytes := ?_ }
  have hmessage := approxBytes_message (r := r) (r.fitMessage l message)
  have hfits := size_fitMessage hr.bytes message
  rw [Record.withMessage]
  omega

theorem Record.Sound.finish (hr : r.Sound l) (status : Status) (now : T) :
    (r.finish status now).Sound l :=
  { hr with }

theorem Record.Sound.apply [Add T] (hr : r.Sound l) (deltas : Option (List (Str × Delta)))
    (sample : Option (Str × Str)) (now : T) : (r.apply l deltas sample now).Sound l := by
  have hcounted : ((deltas.getD []).foldl (Record.applyDelta l) r).Sound l := by
    generalize deltas.getD [] = deltas
    induction deltas generalizing r with
    | nil => exact hr
    | cons change deltas ih => exact ih (hr.applyDelta change)
  cases sample with
  | none => exact { hcounted with }
  | some sample => exact { hcounted.addSample sample with }

end Record
end LightRAG.ScanJobs
