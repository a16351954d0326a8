import LightRAG.Framework.Deferred

/-!
# Reachability of the extraction cache

An extract row of `llm_response_cache` is found again only through the `llm_cache_list` of its
chunk.
-/

namespace LightRAG.CacheReachability

abbrev ChunkId := String

inductive CacheType
  | extract
  | query
  | keywords
  | summary
deriving DecidableEq

/-- The flattened key `mode:cache_type:hash`. -/
structure CacheKey where
  cacheType : CacheType
  hash : String
deriving DecidableEq

structure CacheRow where
  content : String
  chunkId : Option ChunkId
deriving DecidableEq

def WrittenFor (k : CacheKey) (row : CacheRow) (c : ChunkId) : Prop :=
  k.cacheType = .extract ∧ row.chunkId = some c

inductive Place
  | idle
  -- `use_llm_func_with_cache` after the answer of the model
  | attachWait (c : ChunkId) (k : CacheKey) (content : String)
  | attachRead (c : ChunkId) (k : CacheKey) (content : String)
  | attachUpsert (c : ChunkId) (k : CacheKey) (content : String) (list : List CacheKey)
  | saveRead (c : ChunkId) (k : CacheKey) (content : String)
  | saveUpsert (c : ChunkId) (k : CacheKey) (content : String)
  -- `use_llm_func_with_cache` on a hit
  | hitRead (c : ChunkId) (k : CacheKey)
  | hitUpsert (c : ChunkId) (k : CacheKey) (list : List CacheKey)
  -- `_flush_storages` with both stores, and `_query_done`
  | pairWait
  | pairChunks
  | pairQuarantine
  | pairCache
  -- `_flush_storages` with one of the stores
  | loneChunks
  | loneQuarantine
  | loneCache
  -- `_discard_pending_index_ops`
  | discardWait
  | discardChunks
  | discardCheck
  | discardDropChunks (referencesCommitted : Bool)
  | discardFlush
  | discardDropRows (referencesCommitted : Bool)
deriving DecidableEq

abbrev TaskId := ℕ

structure State where
  backend : Backend
  /-- The `llm_cache_list` of each chunk row. -/
  chunks : Deferred ChunkId (List CacheKey)
  rows : Deferred CacheKey CacheRow
  fence : Option TaskId
  chunkReferenceCommitFailed : Bool
  tasks : Dict TaskId Place

/-- How the await of a task ends. -/
inductive Answer
  | ok
  | fails (chunks : List ChunkId) (rows : List CacheKey)
deriving DecidableEq

def Answer.chunks : Answer → Outcome ChunkId
  | .ok => .lands
  | .fails chunks _ => .raises chunks

def Answer.rows : Answer → Outcome CacheKey
  | .ok => .lands
  | .fails _ rows => .raises rows

inductive Event
  | miss (t : TaskId) (c : ChunkId) (hash content : String)
  | hit (t : TaskId) (c : ChunkId) (hash : String)
  | query (k : CacheKey) (content : String)
  | flushStorages (t : TaskId) (chunks cache : Bool)
  | queryDone (t : TaskId)
  | discardPendingIndexOps (t : TaskId)
  | resume (t : TaskId) (answer : Answer)
  | crash
deriving DecidableEq

namespace State

variable (s : State)
variable (t : TaskId)

def place : Place := (s.tasks.get t).getD .idle

def goto (p : Place) : State := { s with tasks := s.tasks.set t p }

def spawn (p : Place) : State := if s.place t = .idle then s.goto t p else s

def acquire (p : Place) : State :=
  if s.fence = none then { s with fence := some t }.goto t p else s

def release : State := { s with fence := none }.goto t .idle

/-- `drop_pending_upserts` of the types that a reference is recorded for. -/
def quarantine : State :=
  { s with rows := s.rows.drop s.backend fun k : CacheKey => k.cacheType = .extract }

def resume (a : Answer) : State :=
  match s.place t with
  | .idle => s
  | .attachWait c k content => s.acquire t (.attachRead c k content)
  | .attachRead c k content =>
    match a, s.chunks.view c with
    | .ok, some list =>
      if k ∈ list then s.goto t (.saveRead c k content)
      else s.goto t (.attachUpsert c k content list)
    | _, _ => s.release t
  | .attachUpsert c k content list =>
    match a with
    | .ok => { s with chunks := s.chunks.upsert c (list ++ [k]) }.goto t (.saveRead c k content)
    | .fails _ _ => s.release t
  | .saveRead c k content =>
    match a with
    | .ok =>
      if (s.rows.view k).map CacheRow.content = some content then s.release t
      else s.goto t (.saveUpsert c k content)
    | .fails _ _ => s.release t
  | .saveUpsert c k content =>
    match a with
    | .ok => { s with rows := s.rows.upsert k ⟨content, some c⟩ }.release t
    | .fails _ _ => s.release t
  | .hitRead c k =>
    match a, s.chunks.view c with
    | .ok, some list =>
      if k ∈ list then s.goto t .idle else s.goto t (.hitUpsert c k list)
    | _, _ => s.goto t .idle
  | .hitUpsert c k list =>
    match a with
    | .ok => { s with chunks := s.chunks.upsert c (list ++ [k]) }.goto t .idle
    | .fails _ _ => s.goto t .idle
  | .pairWait => s.acquire t .pairChunks
  | .pairChunks =>
    let committed := { s with chunks := s.chunks.commit s.backend a.chunks }
    match a with
    | .ok => committed.goto t .pairCache
    | .fails _ _ =>
      { committed with chunkReferenceCommitFailed := true }.goto t .pairQuarantine
  | .pairQuarantine => s.quarantine.release t
  | .pairCache =>
    let committed := { s with rows := s.rows.commit s.backend a.rows }
    match a with
    | .ok => { committed with chunkReferenceCommitFailed := false }.release t
    | .fails _ _ => committed.release t
  | .loneChunks =>
    let committed := { s with chunks := s.chunks.commit s.backend a.chunks }
    match a with
    | .ok => committed.goto t .idle
    | .fails _ _ =>
      { committed with chunkReferenceCommitFailed := true }.goto t .loneQuarantine
  | .loneQuarantine => s.quarantine.goto t .idle
  | .loneCache => { s with rows := s.rows.commit s.backend a.rows }.goto t .idle
  | .discardWait =>
    s.acquire t
      (if s.chunkReferenceCommitFailed then .discardDropChunks false else .discardChunks)
  | .discardChunks =>
    let committed := { s with chunks := s.chunks.commit s.backend a.chunks }
    match a with
    | .ok => committed.goto t .discardCheck
    | .fails _ _ => committed.goto t (.discardDropChunks false)
  | .discardCheck => s.goto t (.discardDropChunks (!s.chunks.hasPending s.backend))
  | .discardDropChunks referencesCommitted =>
    { s with chunks := s.chunks.drop s.backend fun _ => True }.goto t
      (if referencesCommitted then .discardFlush else .discardDropRows false)
  | .discardFlush =>
    { s with rows := s.rows.commit s.backend a.rows }.goto t (.discardDropRows true)
  | .discardDropRows referencesCommitted =>
    { s with rows := s.rows.drop s.backend fun k : CacheKey =>
        referencesCommitted = true ∨ k.cacheType = CacheType.extract }.release t

def step : Event → State
  | .miss t c hash content => s.spawn t (.attachWait c ⟨.extract, hash⟩ content)
  | .hit t c hash =>
    if s.rows.view ⟨CacheType.extract, hash⟩ = none then s else s.spawn t (.hitRead c ⟨.extract, hash⟩)
  | .query k content =>
    if k.cacheType = .extract then s else { s with rows := s.rows.upsert k ⟨content, none⟩ }
  | .flushStorages t chunks cache =>
    match chunks, cache with
    | true, true => s.spawn t .pairWait
    | true, false => s.spawn t .loneChunks
    | false, true => s.spawn t .loneCache
    | false, false => s
  | .queryDone t => s.spawn t .pairWait
  | .discardPendingIndexOps t => s.spawn t .discardWait
  | .resume t a => s.resume t a
  | .crash =>
    { s with
      chunks := s.chunks.restart
      rows := s.rows.restart
      fence := none
      chunkReferenceCommitFailed := false
      tasks := .empty }

def run (events : List Event) : State := events.foldl step s

end State

def Lists (list : Option (List CacheKey)) (k : CacheKey) : Prop := ∃ l, list = some l ∧ k ∈ l

def State.Reachable (s : State) : Prop :=
  ∀ k row c, s.rows.durable.get k = some row → WrittenFor k row c →
    Lists (s.chunks.durable.get c) k

/-- A `_flush_storages` that has lost references outside the fence has not quarantined the rows. -/
def State.Unquarantined (s : State) : Prop := ∃ e ∈ s.tasks.entries, e.2 = .loneQuarantine

/-- The steps that the fence does not order: a cache that is flushed without the chunks has no
extract row to publish; chunks that are flushed without the cache lose no operation while a task is
in the fence, and none enters it before the quarantine; a hit does not write back a row that has got
other keys since it was read. -/
def State.OrderedAt (s : State) (a : Answer) : Place → Prop
  | .loneCache => ∀ k ∈ s.rows.pending.keys, k.cacheType ≠ .extract
  | .loneChunks => s.backend = .perItem → a ≠ .ok → s.fence = none
  | .attachWait _ _ _ => s.backend = .perItem → ¬ s.Unquarantined
  | .pairWait => s.backend = .perItem → ¬ s.Unquarantined
  | .discardWait => s.backend = .perItem → ¬ s.Unquarantined
  | .hitUpsert c _ list => a = .ok → ∀ k ∈ (s.chunks.view c).getD [], k ∈ list
  | _ => True

def State.Ordered (s : State) : Event → Prop
  | .resume t a => s.OrderedAt a (s.place t)
  | _ => True

def State.OrderedRun (s : State) : List Event → Prop
  | [] => True
  | e :: es => s.Ordered e ∧ OrderedRun (s.step e) es

section

variable {s : State}

instance : Decidable s.Unquarantined := inferInstanceAs (Decidable (∃ e ∈ s.tasks.entries, _))

instance (a : Answer) (p : Place) : Decidable (s.OrderedAt a p) :=
  match p with
  | .loneCache =>
    inferInstanceAs (Decidable (∀ k ∈ s.rows.pending.keys, k.cacheType ≠ CacheType.extract))
  | .loneChunks =>
    inferInstanceAs (Decidable (s.backend = .perItem → a ≠ .ok → s.fence = none))
  | .attachWait _ _ _ => inferInstanceAs (Decidable (s.backend = .perItem → ¬ s.Unquarantined))
  | .pairWait => inferInstanceAs (Decidable (s.backend = .perItem → ¬ s.Unquarantined))
  | .discardWait => inferInstanceAs (Decidable (s.backend = .perItem → ¬ s.Unquarantined))
  | .hitUpsert c _ list =>
    inferInstanceAs (Decidable (a = .ok → ∀ k ∈ (s.chunks.view c).getD [], k ∈ list))
  | .idle => isTrue trivial
  | .attachRead _ _ _ => isTrue trivial
  | .attachUpsert _ _ _ _ => isTrue trivial
  | .saveRead _ _ _ => isTrue trivial
  | .saveUpsert _ _ _ => isTrue trivial
  | .hitRead _ _ => isTrue trivial
  | .pairChunks => isTrue trivial
  | .pairQuarantine => isTrue trivial
  | .pairCache => isTrue trivial
  | .loneQuarantine => isTrue trivial
  | .discardChunks => isTrue trivial
  | .discardCheck => isTrue trivial
  | .discardDropChunks _ => isTrue trivial
  | .discardFlush => isTrue trivial
  | .discardDropRows _ => isTrue trivial

instance (e : Event) : Decidable (s.Ordered e) :=
  match e with
  | .resume t a => inferInstanceAs (Decidable (s.OrderedAt a (s.place t)))
  | .miss _ _ _ _ => isTrue trivial
  | .hit _ _ _ => isTrue trivial
  | .query _ _ => isTrue trivial
  | .flushStorages _ _ _ => isTrue trivial
  | .queryDone _ => isTrue trivial
  | .discardPendingIndexOps _ => isTrue trivial
  | .crash => isTrue trivial

instance decidableOrderedRun : (s : State) → (es : List Event) → Decidable (s.OrderedRun es)
  | _, [] => isTrue trivial
  | s, e :: es =>
    have := decidableOrderedRun (s.step e) es
    inferInstanceAs (Decidable (_ ∧ _))

end

/-- No task has begun; the durable extract rows are reachable and stay so when the chunk rows that
are pending land. -/
structure State.Initial (s : State) : Prop where
  reachable : s.Reachable
  pending : ∀ k row c l, s.rows.durable.get k = some row → WrittenFor k row c →
    s.chunks.pending.get c = some l → k ∈ l
  rows : s.rows.pending = .empty
  fence : s.fence = none
  tasks : s.tasks = .empty

end LightRAG.CacheReachability
