import Mathlib.Data.Finset.Basic
import LightRAG.Framework.Run

/-!
# The scheduling sidecar of the Redis document status

`RedisDocStatusStorage` keeps a sorted set of members for each status and a set of document ids for
each source beside the rows.
-/

namespace LightRAG.RedisSidecar

abbrev DocId := String

abbrev CreatedAt := { s : String // '|' ∉ s.toList }

/-- What the sidecar is derived from: a field that is not a string counts as absent. -/
structure Row where
  status : Option String
  createdAt : Option CreatedAt
  filePath : Option String
  isDuplicate : Bool
deriving DecidableEq

namespace Row

variable (row : Row)

def statusValue : String := row.status.getD ""

def created : String := (row.createdAt.map Subtype.val).getD ""

def basenameOf : Option String :=
  if row.isDuplicate then none
  else
    match row.filePath with
    | none => none
    | some filePath =>
      if filePath = "" ∨ filePath = "unknown_source" ∨ filePath = "no-file-path" then none
      else some filePath

end Row

def zsetMember (created : String) (id : DocId) : String := created ++ "|" ++ id

def splitMember (member : String) : String × DocId :=
  (String.ofList (member.toList.takeWhile fun c => c ≠ '|'),
    String.ofList ((member.toList.dropWhile fun c => c ≠ '|').drop 1))

def Row.member (row : Row) (id : DocId) : String := zsetMember row.created id

/-- The fields of `update_doc_status_fields`; `created_at` is not among them. -/
structure Fields where
  status : Option (Option String)
  filePath : Option (Option String)
  isDuplicate : Option Bool

inductive Op
  | upsert (new : Row)
  | update (fields : Fields)
  | demote
  | delete

/-- `mutate`, and what `delete` does: `none` where the write is aborted. -/
def Op.mutate : Op → Option Row → Option (Option Row)
  | .upsert new, _ => some (some new)
  | .update fields, old => old.map fun row => some {
      status := fields.status.getD row.status
      createdAt := row.createdAt
      filePath := fields.filePath.getD row.filePath
      isDuplicate := fields.isDuplicate.getD row.isDuplicate }
  | .demote, old => old.map fun row => some { row with isDuplicate := true }
  | .delete, old => old.map fun _ => none

/-- The rows and the sidecar. What `WATCH` and `SSCAN` promise is said with how often a row was
written and how often a member was removed from a set. -/
structure Redis where
  rows : DocId → Option Row
  writes : DocId → Nat
  zset : String → Finset String
  basename : String → Finset DocId
  removals : String → DocId → Nat

namespace Redis

variable (r : Redis)

def zrem (status member : String) : Redis :=
  { r with zset := Function.update r.zset status ((r.zset status).erase member) }

def zadd (status member : String) : Redis :=
  { r with zset := Function.update r.zset status (insert member (r.zset status)) }

def srem (key : String) (id : DocId) : Redis :=
  { r with
    basename := Function.update r.basename key ((r.basename key).erase id)
    removals := Function.update r.removals key
      (Function.update (r.removals key) id (r.removals key id + 1)) }

def sadd (key : String) (id : DocId) : Redis :=
  { r with basename := Function.update r.basename key (insert id (r.basename key)) }

def setRow (id : DocId) (row : Option Row) : Redis :=
  { r with
    rows := Function.update r.rows id row
    writes := Function.update r.writes id (r.writes id + 1) }

/-- The status part of `_queue_index_ops`. -/
def indexStatus (id : DocId) (old new : Option Row) : Redis :=
  let r := match old with
    | some row => if row.statusValue = "" then r else r.zrem row.statusValue (row.member id)
    | none => r
  match new with
  | some row => if row.statusValue = "" then r else r.zadd row.statusValue (row.member id)
  | none => r

/-- The source part of `_queue_index_ops`. -/
def indexBasename (id : DocId) (old new : Option Row) : Redis :=
  let oldBasename := old.bind Row.basenameOf
  let newBasename := new.bind Row.basenameOf
  if oldBasename = newBasename then
    match newBasename with
    | some key => r.sadd key id
    | none => r
  else
    let r := match oldBasename with
      | some key => r.srem key id
      | none => r
    match newBasename with
    | some key => r.sadd key id
    | none => r

def exec (id : DocId) (old new : Option Row) : Redis :=
  ((r.setRow id new).indexStatus id old new).indexBasename id old new

end Redis

/-- `_scan_source_candidates` between two commands; `start` and `marks` are the set and its
removals when it began. -/
structure Scan where
  canonical : String
  limit : Option Nat
  start : Finset DocId
  marks : DocId → Nat
  returned : List DocId
  pending : List DocId
  finished : Bool
  candidates : List (DocId × Row)

def Scan.begin (canonical : String) (limit : Option Nat) (r : Redis) : Scan :=
  ⟨canonical, limit, r.basename canonical, r.removals canonical, [], [], false, []⟩

/-- `SourceAbsent`, `SourceUnique` and `SourceConflict`. -/
inductive Resolution
  | absent
  | unique (id : DocId)
  | conflict

/-- The answer of `resolve_doc_source_strict`. -/
def Scan.resolution (s : Scan) : Resolution :=
  match s.candidates with
  | [] => .absent
  | [candidate] => .unique candidate.1
  | _ => .conflict

inductive Client
  | idle
  | watching (id : DocId) (op : Op) (mark : Nat)
  | mutating (id : DocId) (op : Op) (mark : Nat) (old : Option Row)
  | scanning (s : Scan)
  | healing (s : Scan) (id : DocId)
  | resolved (s : Scan)

structure World where
  redis : Redis
  clients : Nat → Client

def World.setClient (w : World) (c : Nat) (client : Client) : World :=
  { w with clients := Function.update w.clients c client }

def World.setRedis (w : World) (r : Redis) : World := { w with redis := r }

inductive Event
  | watch (c : Nat) (id : DocId) (op : Op)
  | get (c : Nat)
  | exec (c : Nat)
  | give (c : Nat)
  | resolve (c : Nat) (canonical : String) (limit : Option Nat)
  | sscan (c : Nat) (batch : List DocId) (finished : Bool)
  | check (c : Nat)
  | heal (c : Nat) (canonical : String) (id : DocId)
  | done (c : Nat)

def Event.isExec : Event → Bool
  | .exec _ => true
  | _ => false

/-- The document is a primary of the source. -/
def Redis.Primary (r : Redis) (canonical : String) (id : DocId) : Prop :=
  ∃ row, r.rows id = some row ∧ row.basenameOf = some canonical

def Scan.found (s : Scan) (id : DocId) (row : Row) (pending : List DocId) : Client :=
  let s := { s with pending := pending, candidates := s.candidates ++ [(id, row)] }
  if s.limit.any fun limit => limit ≤ s.candidates.length then .resolved s else .scanning s

inductive Step (w : World) : Event → World → Prop
  | watch {c : Nat} (id : DocId) (op : Op) (hclient : w.clients c = .idle) :
      Step w (.watch c id op) (w.setClient c (.watching id op (w.redis.writes id)))
  | get {c : Nat} {id : DocId} {op : Op} {mark : Nat}
      (hclient : w.clients c = .watching id op mark) :
      Step w (.get c) (w.setClient c (.mutating id op mark (w.redis.rows id)))
  -- the transaction fails unless the row is as it was watched
  | exec {c : Nat} {id : DocId} {op : Op} {mark : Nat} {old new : Option Row}
      (hclient : w.clients c = .mutating id op mark old) (hwatch : w.redis.writes id = mark)
      (hmutate : op.mutate old = some new) :
      Step w (.exec c) ((w.setRedis (w.redis.exec id old new)).setClient c .idle)
  -- aborted, refused by the watch, cancelled or dead; or it goes on after a resolution
  | give {c : Nat} : Step w (.give c) (w.setClient c .idle)
  -- no row has the empty or the unknown source, of which it answers at once
  | resolve {c : Nat} (canonical : String) (limit : Option Nat) (hclient : w.clients c = .idle) :
      Step w (.resolve c canonical limit)
        (w.setClient c (.scanning (.begin canonical limit w.redis)))
  -- a full iteration returns whatever was in the set from its start to its end
  | sscan {c : Nat} {s : Scan} (batch : List DocId) (finished : Bool)
      (hclient : w.clients c = .scanning s) (hpending : s.pending = [])
      (hmore : s.finished = false) (hbatch : ∀ id ∈ batch, id ∈ w.redis.basename s.canonical)
      (hfull : finished = true → ∀ id ∈ s.start, w.redis.removals s.canonical id = s.marks id →
        id ∈ s.returned ++ batch) :
      Step w (.sscan c batch finished)
        (w.setClient c (.scanning
          { s with returned := s.returned ++ batch, pending := batch, finished := finished }))
  | checkPrimary {c : Nat} {s : Scan} {id : DocId} {pending : List DocId} {row : Row}
      (hclient : w.clients c = .scanning s) (hpending : s.pending = id :: pending)
      (hrow : w.redis.rows id = some row) (hprimary : row.basenameOf = some s.canonical) :
      Step w (.check c) (w.setClient c (s.found id row pending))
  | checkStale {c : Nat} {s : Scan} {id : DocId} {pending : List DocId}
      (hclient : w.clients c = .scanning s) (hpending : s.pending = id :: pending)
      (hstale : ¬ w.redis.Primary s.canonical id) :
      Step w (.check c) (w.setClient c (.healing { s with pending := pending } id))
  | heal {c : Nat} {s : Scan} {id : DocId} (hclient : w.clients c = .healing s id) :
      Step w (.heal c s.canonical id)
        ((w.setRedis (w.redis.srem s.canonical id)).setClient c (.scanning s))
  | done {c : Nat} {s : Scan} (hclient : w.clients c = .scanning s) (hpending : s.pending = [])
      (hfinished : s.finished = true) :
      Step w (.done c) (w.setClient c (.resolved s))

/-- No member is removed for a document that is a primary of the source again. -/
def HealsStale (w : World) : Event → Prop
  | .heal _ canonical id => ¬ w.redis.Primary canonical id
  | _ => True

/-- The sorted sets are those of the rows. -/
def Redis.StatusMirror (r : Redis) : Prop :=
  ∀ status member, member ∈ r.zset status ↔
    status ≠ "" ∧ ∃ id row, r.rows id = some row ∧ row.statusValue = status ∧ member = row.member id

/-- Each primary is a member of the set of its source. -/
def Redis.BasenameMirror (r : Redis) : Prop :=
  ∀ canonical id, r.Primary canonical id → id ∈ r.basename canonical

end LightRAG.RedisSidecar
