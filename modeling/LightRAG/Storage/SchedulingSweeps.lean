import LightRAG.Framework.Dict
import LightRAG.Framework.Smallest
import LightRAG.Storage.RedisSidecarRuns
import Mathlib.Data.Prod.Lex
import Mathlib.Data.String.Basic

/-!
# The scheduling sweeps of the Redis and the JSON document status

Both backends read the documents of some statuses page by page.
-/

namespace LightRAG.SchedulingSweeps

open RedisSidecar (DocId zsetMember splitMember)
open Smallest (smallest)

inductive DocStatus
  | pending
  | parsing
  | analyzing
  | processing
  | preprocessed
  | processed
  | failed
deriving DecidableEq

structure Row where
  status : DocStatus
  createdAt : String
  updatedAt : Option String := none
  filePath : Option String := none
  trackId : Option String := none
  hasCustomChunkJournal : Bool := false
deriving DecidableEq

structure DocSchedulingRecord where
  id : DocId
  status : DocStatus
  createdAt : String
  updatedAt : String
  filePath : String
  trackId : Option String
  hasCustomChunkJournal : Bool
deriving DecidableEq

/-- `_scheduling_record_from_row` of a row with a status and a timestamp. -/
def schedulingRecord (id : DocId) (row : Row) : DocSchedulingRecord where
  id := id
  status := row.status
  createdAt := row.createdAt
  updatedAt := row.updatedAt.getD row.createdAt
  filePath := match row.filePath with
    | some path => if path = "" then "no-file-path" else path
    | none => "no-file-path"
  trackId := row.trackId
  hasCustomChunkJournal := row.hasCustomChunkJournal

abbrev Key := String ×ₗ String

def sortKey (id : DocId) (row : Row) : Key := toLex (row.createdAt, id)

def Row.member (row : Row) (id : DocId) : String := zsetMember row.createdAt id

inductive Write
  | put (id : DocId) (row : Row)
  | delete (id : DocId)
deriving DecidableEq

structure RedisStore where
  rows : Dict DocId Row
  zset : DocStatus → List String

namespace RedisStore

def empty : RedisStore := ⟨.empty, fun _ => []⟩

def zadd (r : RedisStore) (status : DocStatus) (member : String) : RedisStore :=
  if member ∈ r.zset status then r
  else
    let members := (r.zset status).orderedInsert (fun a b => a ≤ b) member
    { r with zset := Function.update r.zset status members }

def zrem (r : RedisStore) (status : DocStatus) (member : String) : RedisStore :=
  { r with zset := Function.update r.zset status ((r.zset status).erase member) }

def unindex (r : RedisStore) (id : DocId) : RedisStore :=
  match r.rows.get id with
  | some row => r.zrem row.status (row.member id)
  | none => r

def write (r : RedisStore) : Write → RedisStore
  | .put id row =>
    let indexed := (r.unindex id).zadd row.status (row.member id)
    { indexed with rows := r.rows.set id row }
  | .delete id =>
    let indexed := r.unindex id
    { indexed with rows := r.rows.drop fun i => i = id }

end RedisStore

def jsonWrite (data : Dict DocId Row) : Write → Dict DocId Row
  | .put id row => data.set id row
  | .delete id => data.drop fun i => i = id

inductive Cursor (α : Type)
  | start
  | after (a : α)
  | finish

def Cursor.isFinish {α : Type} : Cursor α → Bool
  | .finish => true
  | _ => false

structure Page (α : Type) where
  docs : Dict DocId DocSchedulingRecord
  next : Cursor α

abbrev Positions := DocStatus → Option String

/-- `last` is before `x`, or there is none. -/
def Before {α : Type} [LT α] (last : Option α) (x : α) : Prop := ∀ l, last = some l → l < x

instance {α : Type} [LT α] [DecidableRel fun a b : α => a < b] (last : Option α) (x : α) :
    Decidable (Before last x) :=
  match last with
  | none => isTrue fun _ h => nomatch h
  | some l => decidable_of_iff (l < x) ⟨fun h _ heq => Option.some.inj heq ▸ h, fun h => h l rfl⟩

/-- `ZRANGEBYLEX (last + LIMIT 0 limit`. -/
def zrangebylex (members : List String) (last : Option String) (limit : ℕ) : List String :=
  (members.filter fun m => Before last m).take limit

def collectDocs (rows : Dict DocId Row) (docs : Dict DocId DocSchedulingRecord) :
    List DocId → Dict DocId DocSchedulingRecord
  | [] => docs
  | id :: ids =>
    match rows.get id with
    | none => collectDocs rows docs ids
    | some row => collectDocs rows (docs.set id (schedulingRecord id row)) ids

namespace RedisStore

variable (r : RedisStore)

/-- The members after the position of a status, up to `limit` of them. -/
def prefetch (positions : Positions) (limit : ℕ) (status : DocStatus) :
    List (String × DocStatus) :=
  (zrangebylex (r.zset status) (positions status) limit).map fun member => (member, status)

def window (statuses : List DocStatus) (positions : Positions) (limit : ℕ) :
    List (String × DocStatus) :=
  smallest Prod.fst limit (statuses.dedup.flatMap (r.prefetch positions limit))

def advance (positions : Positions) : List (String × DocStatus) → Positions
  | [] => positions
  | (member, status) :: window => advance (Function.update positions status (some member)) window

def exhausted (statuses : List DocStatus) (positions : Positions) (limit : ℕ) : Bool :=
  statuses.all fun status =>
    (r.prefetch positions limit status).length < limit &&
      (r.window statuses positions limit).countP (fun e => e.2 = status) =
        (r.prefetch positions limit status).length

/-- `RedisDocStatusStorage.get_docs_by_statuses_page`; nothing when it raises. -/
def getDocsByStatusesPage (statuses : List DocStatus) (limit : ℕ) (position : Cursor Positions)
    (strict : Bool) : Option (Page Positions) :=
  if limit = 0 then none
  else if statuses = [] ∨ position.isFinish then some ⟨.empty, .finish⟩
  else
    let positions := match position with
      | .after positions => positions
      | _ => fun _ => none
    let window := r.window statuses positions limit
    let ids := window.map fun e => (splitMember e.1).2
    if strict ∧ ∃ id ∈ ids, r.rows.get id = none then none
    else
      let next := if r.exhausted statuses positions limit then .finish
        else .after (advance positions window)
      some ⟨collectDocs r.rows .empty ids, next⟩

end RedisStore

def jsonCandidates (data : Dict DocId Row) (statuses : List DocStatus) (last : Option Key) :
    List (DocId × Row) :=
  data.entries.filter fun e => e.2.status ∈ statuses ∧ Before last (sortKey e.1 e.2)

def jsonSelected (data : Dict DocId Row) (statuses : List DocStatus) (last : Option Key)
    (limit : ℕ) : List (DocId × Row) :=
  smallest (fun e => sortKey e.1 e.2) limit (jsonCandidates data statuses last)

/-- `JsonDocStatusStorage.get_docs_by_statuses_page`; nothing when it raises. -/
def jsonPage (data : Dict DocId Row) (statuses : List DocStatus) (limit : ℕ)
    (position : Cursor Key) : Option (Page Key) :=
  if limit = 0 then none
  else if statuses = [] ∨ position.isFinish then some ⟨.empty, .finish⟩
  else
    let last := match position with
      | .after key => some key
      | _ => none
    let selected := jsonSelected data statuses last limit
    let next := if selected.length < limit then .finish
      else
        match selected.getLast? with
        | some e => .after (sortKey e.1 e.2)
        | none => .finish
    some ⟨collectDocs data .empty (selected.map Prod.fst), next⟩

structure Sweeps where
  redis : RedisStore
  json : Dict DocId Row
  redisCursor : Cursor Positions
  jsonCursor : Cursor Key
  redisDocs : List DocSchedulingRecord
  jsonDocs : List DocSchedulingRecord

inductive Event
  | page (limit : ℕ) (strict : Bool)
  | write (w : Write)
deriving DecidableEq

namespace Sweeps

/-- Two stores that hold what the writes have left, before the first page. -/
def begin (writes : List Write) : Sweeps where
  redis := writes.foldl RedisStore.write .empty
  json := writes.foldl jsonWrite .empty
  redisCursor := .start
  jsonCursor := .start
  redisDocs := []
  jsonDocs := []

variable (statuses : List DocStatus)

def pageRedis (limit : ℕ) (strict : Bool) (s : Sweeps) : Sweeps :=
  match s.redis.getDocsByStatusesPage statuses limit s.redisCursor strict with
  | none => s
  | some page =>
    { s with
      redisCursor := page.next
      redisDocs := s.redisDocs ++ page.docs.entries.map Prod.snd }

def pageJson (limit : ℕ) (s : Sweeps) : Sweeps :=
  match jsonPage s.json statuses limit s.jsonCursor with
  | none => s
  | some page =>
    { s with
      jsonCursor := page.next
      jsonDocs := s.jsonDocs ++ page.docs.entries.map Prod.snd }

def step (s : Sweeps) : Event → Sweeps
  | .page limit strict => (s.pageRedis statuses limit strict).pageJson statuses limit
  | .write w => { s with redis := s.redis.write w, json := jsonWrite s.json w }

def run (s : Sweeps) (events : List Event) : Sweeps := events.foldl (step statuses) s

end Sweeps

def Cursor.RedisAhead (cursor : Cursor Positions) (status : DocStatus) (member : String) : Prop :=
  match cursor with
  | .start => True
  | .after positions => Before (positions status) member
  | .finish => False

def Cursor.JsonAhead (cursor : Cursor Key) (key : Key) : Prop :=
  match cursor with
  | .start => True
  | .after last => Before (some last) key
  | .finish => False

/-- The texts of timestamps of one format: without the separator of the members, and ordered before
it as they are on their own. -/
structure Format (timestamps : Set String) : Prop where
  bar : ∀ c ∈ timestamps, '|' ∉ c.toList
  order : ∀ c ∈ timestamps, ∀ c' ∈ timestamps, c < c' → c ++ "|" < c' ++ "|"

namespace Sweeps

variable (statuses : List DocStatus) (timestamps : Set String)

/-- A row can be listed: both sweeps or neither have passed its place, and a delivered document does
not come ahead of them again. -/
structure Admits (s : Sweeps) (id : DocId) (row : Row) : Prop where
  passed : s.jsonCursor.JsonAhead (sortKey id row) ↔
    s.redisCursor.RedisAhead row.status (row.member id)
  fresh : s.jsonCursor.JsonAhead (sortKey id row) → id ∉ s.jsonDocs.map DocSchedulingRecord.id

/-- A write of a row with a timestamp of the format that can be listed, if its status is swept. -/
def Orderly (s : Sweeps) : Event → Prop
  | .page _ _ => True
  | .write (.put id row) =>
    row.createdAt ∈ timestamps ∧ (row.status ∈ statuses → s.Admits id row)
  | .write (.delete _) => True

def OrderlyRun (s : Sweeps) : List Event → Prop
  | [] => True
  | e :: es => s.Orderly statuses timestamps e ∧ OrderlyRun (s.step statuses e) es

def Stays (id : DocId) (createdAt : String) (s : Sweeps) : List Event → Prop
  | [] => ∃ row, s.json.get id = some row ∧ row.status ∈ statuses ∧ row.createdAt = createdAt
  | e :: es =>
    (∃ row, s.json.get id = some row ∧ row.status ∈ statuses ∧ row.createdAt = createdAt) ∧
      Stays id createdAt (s.step statuses e) es

def InsertsNothing (s : Sweeps) : Event → Prop
  | .write (.put id row) => ∃ old, s.json.get id = some old ∧ old.createdAt = row.createdAt
  | _ => True

def QuietRun (s : Sweeps) : List Event → Prop
  | [] => True
  | e :: es => s.InsertsNothing e ∧ QuietRun (s.step statuses e) es

end Sweeps

def Event.isPage : Event → Bool
  | .page limit _ => 0 < limit
  | .write _ => false

end LightRAG.SchedulingSweeps

/-!
## The sorted sets of the scheduling sweeps

The members of one format are in the order of the keys; the sorted sets hold the members of the rows
after every write.
-/

namespace LightRAG.SchedulingSweeps
open List Option Function

open RedisSidecar (DocId zsetMember splitMember splitMember_zsetMember)
open Smallest (Ascending)

theorem append_lt_append {a b : List Char} (x y : List Char) (hlt : a < b) (hp : ¬ a <+: b) :
    a ++ x < b ++ y := by
  induction a generalizing b with
  | nil => exact absurd nil_prefix hp
  | cons c a ih =>
    cases b with
    | nil => cases hlt
    | cons d b =>
      rw [cons_append,cons_append,cons_lt_cons_iff]
      rw [cons_lt_cons_iff] at hlt
      obtain hlt | ⟨rfl,hlt⟩ := hlt
      · exact .inl hlt
      · exact .inr ⟨rfl,ih hlt fun h => hp ((prefix_cons_inj c).mpr h)⟩

theorem toList_member (row : Row) (id : DocId) :
    (row.member id).toList = (row.createdAt.toList ++ ['|']) ++ id.toList := by
  simp [Row.member,zsetMember]

section

variable {timestamps : Set String} {row row' : Row} {id id' : DocId}

theorem Format.split (hf : Format timestamps) (h : row.createdAt ∈ timestamps) :
    splitMember (row.member id) = (row.createdAt, id) :=
  splitMember_zsetMember (hf.bar _ h)

theorem Format.member_lt (hf : Format timestamps) (h : row.createdAt ∈ timestamps)
    (h' : row'.createdAt ∈ timestamps) (hlt : sortKey id row < sortKey id' row') :
    row.member id < row'.member id' := by
  rw [sortKey,sortKey,Prod.Lex.toLex_lt_toLex] at hlt
  rw [String.lt_iff_toList_lt,toList_member,toList_member]
  obtain hlt | ⟨heq,hlt⟩ := hlt
  · have hbar := hf.order _ h _ h' hlt
    rw [String.lt_iff_toList_lt,String.toList_append,String.toList_append] at hbar
    apply append_lt_append _ _ hbar
    intro hpre
    obtain heq | hpre := prefix_concat_iff.mp hpre
    · exact lt_irrefl _ (heq ▸ hbar)
    · exact hf.bar _ h' (hpre.subset (by simp))
  · simp only at heq hlt
    rw [heq]
    exact append_left_lt (String.lt_iff_toList_lt.mp hlt)

theorem Format.member_inj (hf : Format timestamps) (h : row.createdAt ∈ timestamps)
    (h' : row'.createdAt ∈ timestamps) (heq : row.member id = row'.member id') : id = id' := by
  have hsplit := congrArg splitMember heq
  rw [hf.split h,hf.split h'] at hsplit
  exact (Prod.mk.inj hsplit).2

end

structure RedisStore.Indexed (timestamps : Set String) (r : RedisStore) : Prop where
  mirror : ∀ status member, member ∈ r.zset status ↔
    ∃ id row, r.rows.get id = some row ∧ row.status = status ∧ row.member id = member
  ascending : ∀ status, Ascending (fun m => m) (r.zset status)
  format : ∀ id row, r.rows.get id = some row → row.createdAt ∈ timestamps

namespace RedisStore

variable {timestamps : Set String} {r : RedisStore} {status status' : DocStatus}
  {member member' : String} {id : DocId} {row : Row} {w : Write}

theorem indexed_empty : empty.Indexed timestamps where
  mirror status member := by simp [empty,Dict.get,Dict.empty,Table.lookup]
  ascending status := List.Pairwise.nil
  format id row h := by simp [empty,Dict.get,Dict.empty,Table.lookup] at h

theorem rows_write : (r.write w).rows = jsonWrite r.rows w := by
  cases w with
  | put id row => rfl
  | delete id => rfl

theorem mem_zadd : member' ∈ (r.zadd status member).zset status' ↔
    status' = status ∧ member' = member ∨ member' ∈ r.zset status' := by
  unfold zadd
  split
  · rename_i hmem
    constructor
    · exact .inr
    · rintro (⟨rfl,rfl⟩ | h)
      · exact hmem
      · exact h
  · by_cases hstatus : status' = status
    · subst hstatus
      simp
    · simp [hstatus]

theorem ascending_zadd (h : ∀ status, Ascending (fun m => m) (r.zset status))
    (status' : DocStatus) : Ascending (fun m => m) ((r.zadd status member).zset status') := by
  unfold zadd
  split
  · exact h status'
  · rename_i hnot
    by_cases hstatus : status' = status
    · subst hstatus
      simp only [update_self]
      have hle : (r.zset status').Pairwise fun a b => a ≤ b := (h status').imp le_of_lt
      have hle' := List.Pairwise.orderedInsert member _ hle
      have hnd : ((r.zset status').orderedInsert (fun a b => a ≤ b) member).Nodup := by
        rw [(perm_orderedInsert _ _ _).nodup_iff,nodup_cons]
        exact ⟨hnot,(h status').nodup⟩
      exact (hle'.and hnd).imp fun h => lt_of_le_of_ne h.1 h.2
    · simp only [update_of_ne hstatus]
      exact h status'

theorem ascending_unindex (h : ∀ status, Ascending (fun m => m) (r.zset status))
    (status : DocStatus) : Ascending (fun m => m) ((r.unindex id).zset status) := by
  unfold unindex
  split
  · rename_i row hrow
    unfold zrem
    by_cases hstatus : status = row.status
    · subst hstatus
      simp only [update_self]
      exact (h _).sublist erase_sublist
    · simp only [update_of_ne hstatus]
      exact h status
  · exact h status

theorem Indexed.mem_unindex (hf : Format timestamps) (h : r.Indexed timestamps) :
    member ∈ (r.unindex id).zset status ↔ ∃ id' row, id' ≠ id ∧ r.rows.get id' = some row ∧
      row.status = status ∧ row.member id' = member := by
  have hother : member ∈ r.zset status → (∀ row, r.rows.get id = some row →
      row.status = status → row.member id ≠ member) → ∃ id' row, id' ≠ id ∧
      r.rows.get id' = some row ∧ row.status = status ∧ row.member id' = member := by
    intro hmem hne
    obtain ⟨id',row,hrow,hstatus,hmember⟩ := (h.mirror _ _).mp hmem
    refine ⟨id',row,?_,hrow,hstatus,hmember⟩
    rintro rfl
    exact hne row hrow hstatus hmember
  unfold unindex
  cases hrow : r.rows.get id with
  | none =>
    constructor
    · intro hmem
      apply hother hmem
      intro row hsome
      rw [hrow] at hsome
      cases hsome
    · rintro ⟨id',row,-,hrest⟩
      exact (h.mirror _ _).mpr ⟨id',row,hrest⟩
  | some row =>
    unfold zrem
    by_cases hstatus : status = row.status
    · subst hstatus
      simp only [update_self]
      rw [(h.ascending row.status).nodup.mem_erase_iff]
      constructor
      · rintro ⟨hne,hmem⟩
        apply hother hmem
        intro row' hsome _
        rw [hrow] at hsome
        obtain rfl := some.inj hsome
        exact hne.symm
      · rintro ⟨id',row',hid,hrow',hstatus,rfl⟩
        refine ⟨?_,(h.mirror _ _).mpr ⟨id',row',hrow',hstatus,rfl⟩⟩
        intro heq
        exact hid (hf.member_inj (h.format _ _ hrow') (h.format _ _ hrow) heq)
    · simp only [update_of_ne hstatus]
      constructor
      · intro hmem
        apply hother hmem
        intro row' hsome hstatus'
        rw [hrow] at hsome
        obtain rfl := some.inj hsome
        exact absurd hstatus'.symm hstatus
      · rintro ⟨id',row,-,hrest⟩
        exact (h.mirror _ _).mpr ⟨id',row,hrest⟩

theorem Indexed.write (hf : Format timestamps) (h : r.Indexed timestamps)
    (hw : ∀ id row, w = .put id row → row.createdAt ∈ timestamps) :
    (r.write w).Indexed timestamps := by
  cases w with
  | put id row =>
    have hrow := hw id row rfl
    constructor
    · intro status member
      change member ∈ ((r.unindex id).zadd row.status (row.member id)).zset status ↔
        ∃ id' row', (r.rows.set id row).get id' = some row' ∧ _
      rw [mem_zadd,h.mem_unindex hf]
      constructor
      · rintro (⟨rfl,rfl⟩ | ⟨id',row',hne,hget,hrest⟩)
        · exact ⟨id,row,by rw [Dict.get_set,if_pos rfl],rfl,rfl⟩
        · exact ⟨id',row',by rw [Dict.get_set,if_neg hne,hget],hrest⟩
      · rintro ⟨id',row',hget,hstatus,hmember⟩
        rw [Dict.get_set] at hget
        split at hget
        · rename_i heq
          subst heq
          obtain rfl := some.inj hget
          exact .inl ⟨hstatus.symm,hmember.symm⟩
        · rename_i hne
          exact .inr ⟨id',row',hne,hget,hstatus,hmember⟩
    · exact ascending_zadd (ascending_unindex h.ascending)
    · intro id' row' hget
      change (r.rows.set id row).get id' = some row' at hget
      rw [Dict.get_set] at hget
      split at hget
      · obtain rfl := some.inj hget
        exact hrow
      · exact h.format id' row' hget
  | delete id =>
    have hget : ∀ id' row', (r.rows.drop fun i => i = id).get id' = some row' ↔
        id' ≠ id ∧ r.rows.get id' = some row' := by
      intro id' row'
      rw [Dict.get_drop]
      by_cases heq : id' = id <;> simp [heq]
    constructor
    · intro status member
      change member ∈ (r.unindex id).zset status ↔
        ∃ id' row', (r.rows.drop fun i => i = id).get id' = some row' ∧ _
      rw [h.mem_unindex hf]
      constructor
      · rintro ⟨id',row',hne,hrow,hrest⟩
        exact ⟨id',row',(hget _ _).mpr ⟨hne,hrow⟩,hrest⟩
      · rintro ⟨id',row',hrow,hrest⟩
        obtain ⟨hne,hrow⟩ := (hget _ _).mp hrow
        exact ⟨id',row',hne,hrow,hrest⟩
    · exact ascending_unindex h.ascending
    · intro id' row' hrow
      exact h.format id' row' ((hget _ _).mp hrow).2

theorem indexed_writes (hf : Format timestamps) (writes : List Write)
    (hw : ∀ w ∈ writes, ∀ id row, w = .put id row → row.createdAt ∈ timestamps)
    (h : r.Indexed timestamps) : (writes.foldl write r).Indexed timestamps ∧
      (writes.foldl write r).rows = writes.foldl jsonWrite r.rows := by
  induction writes generalizing r with
  | nil => exact ⟨h,rfl⟩
  | cons w writes ih =>
    rw [foldl_cons,foldl_cons,← rows_write]
    apply ih
    · exact fun w hmem => hw w (mem_cons_of_mem _ hmem)
    · exact h.write hf (hw w mem_cons_self)

end RedisStore

end LightRAG.SchedulingSweeps
