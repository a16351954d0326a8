import LightRAG.Framework.Dict
import LightRAG.Framework.Scan
import LightRAG.Storage.RedisSidecar
import Mathlib.Data.Finset.Card

/-!
# The rebuild of the scheduling sidecar

The start of `RedisDocStatusStorage` rebuilds the status sets and the basename sets from the rows:
into a temporary keyspace, which is then renamed key by key.
-/

namespace LightRAG.SidecarRebuild

open RedisSidecar (DocId zsetMember)

structure Row where
  status : Option String
  createdAt : Option String
  filePath : Option String
  isDuplicate : Bool
deriving DecidableEq

namespace Row

variable (row : Row)

def statusValue : String := row.status.getD ""

def member (id : DocId) : String := zsetMember (row.createdAt.getD "") id

def basenameOf : Option String :=
  if row.isDuplicate then none
  else
    match row.filePath with
    | none => none
    | some filePath =>
      if filePath = "" ∨ filePath = "unknown_source" ∨ filePath = "no-file-path" then none
      else some filePath

end Row

/-- The primary rows; nothing where a row cannot be decoded. -/
abbrev Rows := Dict DocId (Option Row)

inductive Family
  | status
  | basename
deriving DecidableEq

instance : Fintype Family := ⟨{.status, .basename}, fun family => by cases family <;> simp⟩

/-- The keys of a family as pairs of a name and a member; a key without members does not exist. -/
abbrev Index := Finset (String × String)

def Index.names (index : Index) : Finset String := index.image Prod.fst

def rowEntries (family : Family) (id : DocId) : Option Row → List (String × String)
  | none => []
  | some row =>
    match family with
    | .status => if row.statusValue = "" then [] else [(row.statusValue, row.member id)]
    | .basename =>
      match row.basenameOf with
      | some basename => [(basename, id)]
      | none => []

def derived (rows : Rows) (family : Family) : Index :=
  (rows.entries.flatMap fun e => rowEntries family e.1 e.2).toFinset

inductive Pattern
  | official (family : Family)
  | temp (family : Family)
  | primary
deriving DecidableEq

structure Keys where
  official : Family → Index
  temp : Family → Index

namespace Keys

variable (k : Keys)

def names (rows : Rows) : Pattern → Finset String
  | .official family => (k.official family).names
  | .temp family => (k.temp family).names
  | .primary => rows.keys.toFinset

def delete (pattern : Pattern) (names : List String) : Keys :=
  match pattern with
  | .official family =>
    let index := (k.official family).filter fun e => e.1 ∉ names
    { k with official := Function.update k.official family index }
  | .temp family =>
    let index := (k.temp family).filter fun e => e.1 ∉ names
    { k with temp := Function.update k.temp family index }
  | .primary => k

/-- The transaction that adds what the rows of a page say to the temporary keyspace. -/
def write (rows : Rows) (ids : List DocId) : Keys :=
  { k with temp := fun family => k.temp family ∪
      (ids.flatMap fun id => rowEntries family id ((rows.get id).join)).toFinset }

/-- `RENAME` of a temporary key to its official name; nothing when there is no such key. -/
def rename (family : Family) (name : String) : Keys :=
  if name ∈ (k.temp family).names then
    let replaced := (k.official family).filter (fun e => e.1 ≠ name) ∪
      (k.temp family).filter fun e => e.1 = name
    let others := (k.temp family).filter fun e => e.1 ≠ name
    { official := Function.update k.official family replaced
      temp := Function.update k.temp family others }
  else k

end Keys

/-- The uses of `_any_key`. -/
inductive Probe
  | temp (family : Family)
  | built
  | rows (interrupted : Bool)
  | writer
  | left (family : Family)
deriving DecidableEq

def Probe.pattern : Probe → Pattern
  | .temp family => .temp family
  | .built => .official .status
  | .rows _ => .primary
  | .writer => .official .status
  | .left family => .temp family

/-- Where an attempt is: before a page of a `SCAN`, or before the commands that a page calls for. -/
inductive Phase
  | idle
  | done
  | probe (p : Probe) (scan : Scan String)
  | clear (interrupted : Bool) (pattern : Pattern) (scan : Scan String) (rest : List Pattern)
  | delete (interrupted : Bool) (pattern : Pattern) (scan : Scan String) (rest : List Pattern)
      (names : List String) (last : Bool)
  | build (scan : Scan String)
  | write (scan : Scan String) (ids : List DocId) (last : Bool)
  | publish (family : Family) (scan : Scan String) (rest : List Family) (renamed : ℕ)
  | rename (family : Family) (scan : Scan String) (rest : List Family) (renamed : ℕ)
      (name : String) (names : List String) (last : Bool)
deriving DecidableEq

structure State where
  keys : Keys
  phase : Phase
  passes : ℕ

def Keys.idle (k : Keys) : State := ⟨k, .idle, 0⟩

inductive Event
  | start
  | crash
  | page (names : List String) (last : Bool)
  | command
deriving DecidableEq

/-- What `_do_rebuild` deletes. -/
def stalePatterns (recoverStaleOfficial : Bool) : List Pattern :=
  [.temp .status, .temp .basename, .official .basename] ++
    if recoverStaleOfficial then [.official .status] else []

namespace State

variable (rows : Rows) (s : State)

def probe (p : Probe) : State :=
  { s with phase := .probe p (.begin (s.keys.names rows p.pattern)) }

/-- `_delete_by_patterns`, and then the stream of the rows. -/
def deleteByPatterns (interrupted : Bool) : List Pattern → State
  | [] => { s with phase := .build (.begin (s.keys.names rows .primary)) }
  | pattern :: rest =>
    { s with phase := .clear interrupted pattern (.begin (s.keys.names rows pattern)) rest }

def afterDelete (interrupted : Bool) (pattern : Pattern) (scan : Scan String)
    (rest : List Pattern) (last : Bool) : State :=
  if last then s.deleteByPatterns rows interrupted rest
  else { s with phase := .clear interrupted pattern scan rest }

def afterWrite (scan : Scan String) (last : Bool) : State :=
  if last then s.probe rows .writer else { s with phase := .build scan }

def publishPass (family : Family) (rest : List Family) : State :=
  { s with
    phase := .publish family (.begin (s.keys.names rows (.temp family))) rest 0
    passes := s.passes + 1 }

/-- A pass that has renamed nothing ends the loop of its pattern. -/
def afterRenames (family : Family) (scan : Scan String) (rest : List Family) (renamed : ℕ)
    (last : Bool) : State :=
  if last then
    if renamed = 0 then
      match rest with
      | [] => s.probe rows (.left .status)
      | next :: rest => s.publishPass rows next rest
    else s.publishPass rows family rest
  else { s with phase := .publish family scan rest renamed }

def answer : Probe → Bool → State
  | .temp _, true => s.probe rows (.rows true)
  | .temp .status, false => s.probe rows (.temp .basename)
  | .temp .basename, false => s.probe rows .built
  | .built, true => { s with phase := .done }
  | .built, false => s.probe rows (.rows false)
  | .rows interrupted, true => s.deleteByPatterns rows interrupted (stalePatterns interrupted)
  | .rows _, false => { s with phase := .done }
  | .writer, true => { s with phase := .idle }
  | .writer, false => s.publishPass rows .status [.basename]
  | .left _, true => { s with phase := .idle }
  | .left .status, false => s.probe rows (.left .basename)
  | .left .basename, false => { s with phase := .done }

/-- `initialize` begins. -/
def start : State :=
  match s.phase with
  | .idle | .done => { s with passes := 0 }.probe rows (.temp .status)
  | _ => s

/-- A page of the `SCAN` in progress. -/
def page (names : List String) (last : Bool) : State :=
  match s.phase with
  | .probe p _ =>
    if names ≠ [] then s.answer rows p true
    else if last then s.answer rows p false
    else s
  | .clear interrupted pattern scan rest =>
    if names = [] then s.afterDelete rows interrupted pattern (scan.page names) rest last
    else { s with phase := .delete interrupted pattern (scan.page names) rest names last }
  | .build scan =>
    if names = [] then s.afterWrite rows (scan.page names) last
    else { s with phase := .write (scan.page names) names last }
  | .publish family scan rest renamed =>
    match names with
    | [] => s.afterRenames rows family (scan.page []) rest renamed last
    | name :: names =>
      { s with
        phase := .rename family (scan.page (name :: names)) rest renamed name names last }
  | _ => s

def command : State :=
  match s.phase with
  | .delete interrupted pattern scan rest names last =>
    { s with keys := s.keys.delete pattern names }.afterDelete rows interrupted pattern scan rest
      last
  | .write scan ids last => { s with keys := s.keys.write rows ids }.afterWrite rows scan last
  | .rename family scan rest renamed name names last =>
    let renamed := if name ∈ (s.keys.temp family).names then renamed + 1 else renamed
    let s := { s with keys := s.keys.rename family name }
    match names with
    | [] => s.afterRenames rows family scan rest renamed last
    | name :: names =>
      { s with phase := .rename family scan rest renamed name names last }
  | _ => s

def step : Event → State
  | .start => s.start rows
  | .crash => { s with phase := .idle }
  | .page names last => s.page rows names last
  | .command => s.command rows

def run (events : List Event) : State := events.foldl (fun s e => s.step rows e) s

end State

/-- The `SCAN` whose page is next. -/
def Phase.scanning : Phase → Option (Pattern × Scan String)
  | .probe p scan => some (p.pattern, scan)
  | .clear _ pattern scan _ => some (pattern, scan)
  | .build scan => some (.primary, scan)
  | .publish family scan _ _ => some (.temp family, scan)
  | _ => none

/-- The page is one that `SCAN` promises. -/
def State.Promised (rows : Rows) (s : State) : Event → Prop
  | .page names last => ∀ pattern scan, s.phase.scanning = some (pattern, scan) →
      scan.Promise (s.keys.names rows pattern) names last
  | _ => True

def State.PromisedRun (rows : Rows) (s : State) : List Event → Prop
  | [] => True
  | e :: es => s.Promised rows e ∧ PromisedRun rows (s.step rows e) es

/-- The official keys are those of the decodable rows, and there are no temporary ones. -/
def Keys.Complete (rows : Rows) (k : Keys) : Prop :=
  (∀ family, k.official family = derived rows family) ∧ ∀ family, k.temp family = ∅

def Keys.Absent (k : Keys) : Prop := ∀ family, k.official family = ∅ ∧ k.temp family = ∅

/-- The next attempt sees that the index is not complete, or it is. -/
def Keys.Recognised (rows : Rows) (k : Keys) : Prop :=
  (∃ family, k.temp family ≠ ∅) ∨ k.official .status = ∅ ∨ k.Complete rows

def Phase.Clearing : Phase → Prop
  | .clear _ _ _ _ => True
  | .delete _ _ _ _ _ _ => True
  | _ => False

/-- The deletions have removed the temporary keys and not yet the official status keys. -/
def State.Exposed (s : State) : Prop :=
  s.phase.Clearing ∧ (∀ family, s.keys.temp family = ∅) ∧ s.keys.official .status ≠ ∅

/-- No crash comes while the half-published index cannot be told from a complete one. -/
def State.Covered (s : State) (e : Event) : Prop := e = .crash → ¬ s.Exposed

def State.CoveredRun (rows : Rows) (s : State) : List Event → Prop
  | [] => True
  | e :: es => s.Covered e ∧ CoveredRun rows (s.step rows e) es

/-- The keys before the first attempt: a complete index, none, or what attempts have left. -/
inductive Initial (rows : Rows) : Keys → Prop
  | complete {k : Keys} : k.Complete rows → Initial rows k
  | absent {k : Keys} : k.Absent → Initial rows k
  | left {k : Keys} {events : List Event} : Initial rows k → k.idle.PromisedRun rows events →
      k.idle.CoveredRun rows events → (k.idle.run rows events).phase = .idle →
      Initial rows (k.idle.run rows events).keys

section

variable {rows : Rows} {s : State}

instance {k : Keys} : Decidable (k.Complete rows) := inferInstanceAs (Decidable (_ ∧ _))

instance (e : Event) : Decidable (s.Promised rows e) :=
  match e with
  | .start => isTrue trivial
  | .crash => isTrue trivial
  | .command => isTrue trivial
  | .page names last =>
    match hscan : s.phase.scanning with
    | none => isTrue fun pattern scan h => by rw [hscan] at h; cases h
    | some (pattern, scan) =>
      decidable_of_iff (scan.Promise (s.keys.names rows pattern) names last) (by
        constructor
        · intro h pattern' scan' heq
          rw [hscan] at heq
          cases heq
          exact h
        · exact fun h => h _ _ hscan)

instance : Decidable s.phase.Clearing :=
  match s.phase with
  | .clear _ _ _ _ => isTrue trivial
  | .delete _ _ _ _ _ _ => isTrue trivial
  | .idle => isFalse id
  | .done => isFalse id
  | .probe _ _ => isFalse id
  | .build _ => isFalse id
  | .write _ _ _ => isFalse id
  | .publish _ _ _ _ => isFalse id
  | .rename _ _ _ _ _ _ _ => isFalse id

instance : Decidable s.Exposed := inferInstanceAs (Decidable (_ ∧ _ ∧ _))

instance (e : Event) : Decidable (s.Covered e) := inferInstanceAs (Decidable (_ → _))

instance decidablePromisedRun : (s : State) → (es : List Event) →
    Decidable (s.PromisedRun rows es)
  | _, [] => isTrue trivial
  | s, e :: es =>
    have := decidablePromisedRun (s.step rows e) es
    inferInstanceAs (Decidable (_ ∧ _))

instance decidableCoveredRun : (s : State) → (es : List Event) → Decidable (s.CoveredRun rows es)
  | _, [] => isTrue trivial
  | s, e :: es =>
    have := decidableCoveredRun (s.step rows e) es
    inferInstanceAs (Decidable (_ ∧ _))

end

end LightRAG.SidecarRebuild

/-!
## The invariant of the sidecar rebuild

What the commands do to the keys, and what holds at each place of an attempt.
-/

namespace LightRAG.SidecarRebuild
open List Function

open RedisSidecar (DocId)

section

variable {rows : Rows} {k : Keys} {index : Index} {family other : Family} {pattern : Pattern}
  {names : List String} {ids : List DocId} {name : String} {e : String × String} {id : DocId}

theorem mem_names : name ∈ index.names ↔ ∃ member, (name, member) ∈ index := by
  simp [Index.names]

theorem names_eq_empty : index.names = ∅ ↔ index = ∅ := Finset.image_eq_empty

theorem mem_derived :
    e ∈ derived rows family ↔ ∃ id, e ∈ rowEntries family id (rows.get id).join := by
  simp only [derived,mem_toFinset,mem_flatMap]
  constructor
  · rintro ⟨⟨id,raw⟩,hin,he⟩
    refine ⟨id,?_⟩
    rw [Dict.get_eq_some.mpr hin]
    exact he
  · rintro ⟨id,he⟩
    cases hget : rows.get id with
    | none =>
      rw [hget] at he
      cases he
    | some raw =>
      rw [hget] at he
      exact ⟨(id, raw),Dict.get_eq_some.mp hget,he⟩

theorem derived_nil (h : rows.entries = []) : derived rows family = ∅ := by
  simp [derived,h]

theorem mem_temp_delete : e ∈ (k.delete pattern names).temp family ↔
    e ∈ k.temp family ∧ ¬ (pattern = .temp family ∧ e.1 ∈ names) := by
  cases pattern with
  | official other => simp [Keys.delete]
  | primary => simp [Keys.delete]
  | temp other =>
    by_cases heq : other = family
    · subst heq
      simp [Keys.delete]
    · simp [Keys.delete,heq,update_of_ne (Ne.symm heq)]

theorem mem_official_delete : e ∈ (k.delete pattern names).official family ↔
    e ∈ k.official family ∧ ¬ (pattern = .official family ∧ e.1 ∈ names) := by
  cases pattern with
  | temp other => simp [Keys.delete]
  | primary => simp [Keys.delete]
  | official other =>
    by_cases heq : other = family
    · subst heq
      simp [Keys.delete]
    · simp [Keys.delete,heq,update_of_ne (Ne.symm heq)]

theorem mem_names_delete {other : Pattern} (h : name ∈ (k.delete pattern names).names rows other) :
    name ∈ k.names rows other ∧ (other = pattern → other ≠ .primary → name ∉ names) := by
  cases other with
  | primary => exact ⟨h,fun _ hne => absurd rfl hne⟩
  | official family =>
    obtain ⟨member,hin⟩ := mem_names.mp h
    obtain ⟨hin,hnot⟩ := mem_official_delete.mp hin
    exact ⟨mem_names.mpr ⟨member,hin⟩,fun heq _ hname => hnot ⟨heq.symm,hname⟩⟩
  | temp family =>
    obtain ⟨member,hin⟩ := mem_names.mp h
    obtain ⟨hin,hnot⟩ := mem_temp_delete.mp hin
    exact ⟨mem_names.mpr ⟨member,hin⟩,fun heq _ hname => hnot ⟨heq.symm,hname⟩⟩

theorem mem_temp_write : e ∈ (k.write rows ids).temp family ↔
    e ∈ k.temp family ∨ ∃ id ∈ ids, e ∈ rowEntries family id (rows.get id).join := by
  simp [Keys.write]

theorem mem_temp_rename : e ∈ (k.rename family name).temp other ↔
    e ∈ k.temp other ∧ ¬ (other = family ∧ e.1 = name) := by
  unfold Keys.rename
  split
  · by_cases heq : other = family
    · subst heq
      simp
    · simp [heq]
  · rename_i hnot
    constructor
    · intro hin
      refine ⟨hin,?_⟩
      rintro ⟨rfl,rfl⟩
      exact hnot (mem_names.mpr ⟨e.2,hin⟩)
    · exact And.left

theorem mem_official_rename
    (hapart : Disjoint (k.official family).names (k.temp family).names) :
    e ∈ (k.rename family name).official other ↔
      e ∈ k.official other ∨ other = family ∧ e ∈ k.temp other ∧ e.1 = name := by
  unfold Keys.rename
  split
  · rename_i hname
    by_cases heq : other = family
    · subst heq
      simp only [update_self,Finset.mem_union,Finset.mem_filter,true_and]
      refine or_congr_left ⟨And.left,fun hin => ⟨hin,?_⟩⟩
      rintro rfl
      exact Finset.disjoint_left.mp hapart (mem_names.mpr ⟨e.2,hin⟩) hname
    · simp [heq]
  · rename_i hnot
    constructor
    · exact .inl
    · rintro (hin | ⟨rfl,hin,rfl⟩)
      · exact hin
      · exact absurd (mem_names.mpr ⟨e.2,hin⟩) hnot

theorem names_temp_rename : ((k.rename family name).temp other).names =
    if other = family then (k.temp other).names.erase name else (k.temp other).names := by
  ext n
  rw [mem_names]
  simp only [mem_temp_rename,not_and]
  split
  · rename_i heq
    rw [Finset.mem_erase,mem_names]
    constructor
    · rintro ⟨member,hin,hne⟩
      exact ⟨hne heq,member,hin⟩
    · rintro ⟨hne,member,hin⟩
      exact ⟨member,hin,fun _ => hne⟩
  · rename_i hne
    rw [mem_names]
    simp [hne]

end

/-- The next attempt sees what has to be done; without rows there is no key. -/
structure Keys.Recoverable (rows : Rows) (k : Keys) : Prop where
  recognised : k.Recognised rows
  blank : rows.entries = [] → k.Absent

/-- The patterns before `todo` have been deleted. -/
structure Keys.Cleared (rows : Rows) (interrupted : Bool) (todo : List Pattern) (k : Keys) :
    Prop where
  some : rows.entries ≠ []
  finished : ∃ finished, stalePatterns interrupted = finished ++ todo ∧
    ∀ pattern ∈ finished, k.names rows pattern = ∅
  status : interrupted = false → k.official .status = ∅

structure Keys.Building (rows : Rows) (k : Keys) : Prop where
  some : rows.entries ≠ []
  official : ∀ family, k.official family = ∅
  temp : ∀ family, k.temp family ⊆ derived rows family

/-- The documents whose entries are not all in the temporary keys. -/
def Keys.unwritten (rows : Rows) (k : Keys) : Finset DocId :=
  rows.keys.toFinset.filter fun id =>
    ∃ family ∈ [Family.status, .basename],
      ∃ e ∈ rowEntries family id (rows.get id).join, e ∉ k.temp family

/-- Every key of the index is an official or a temporary one, and the families before `family` have
been published. -/
structure Keys.Publishing (rows : Rows) (family : Family) (rest : List Family) (k : Keys) :
    Prop where
  some : rows.entries ≠ []
  split : ∀ other, k.official other ∪ k.temp other = derived rows other
  apart : ∀ other, Disjoint (k.official other).names (k.temp other).names
  order : family = .status ∧ rest = [.basename] ∨
    family = .basename ∧ rest = [] ∧ k.temp .status = ∅

def Keys.tempKeys (k : Keys) : ℕ := (k.temp .status).names.card + (k.temp .basename).names.card

def maxPasses (rows : Rows) : ℕ :=
  (derived rows .status).names.card + (derived rows .basename).names.card + 2

def Probe.Holds (rows : Rows) (s : State) : Probe → Prop
  | .temp .status => s.keys.Recoverable rows ∧ s.passes = 0
  | .temp .basename => s.keys.Recoverable rows ∧ s.keys.temp .status = ∅ ∧ s.passes = 0
  | .built => s.keys.Recoverable rows ∧ (∀ family, s.keys.temp family = ∅) ∧ s.passes = 0
  | .rows interrupted => s.keys.Recoverable rows ∧
      (interrupted = false → s.keys.official .status = ∅) ∧ s.passes = 0
  | .writer => rows.entries ≠ [] ∧ (∀ family, s.keys.official family = ∅) ∧
      (∀ family, s.keys.temp family = derived rows family) ∧ s.passes = 0
  | .left _ => s.keys.Complete rows ∧ s.passes ≤ maxPasses rows

def State.Inv (rows : Rows) (s : State) : Prop :=
  match s.phase with
  | .idle => s.keys.Recoverable rows ∧ s.passes ≤ maxPasses rows
  | .done => s.keys.Complete rows ∧ s.passes ≤ maxPasses rows
  | .probe p scan => scan = .begin (s.keys.names rows p.pattern) ∧ p.Holds rows s
  | .clear interrupted pattern scan rest => s.keys.Cleared rows interrupted (pattern :: rest) ∧
      scan.Covers (s.keys.names rows pattern) [] ∧ s.passes = 0
  | .delete interrupted pattern scan rest names last =>
    s.keys.Cleared rows interrupted (pattern :: rest) ∧
      scan.Covers (s.keys.names rows pattern) names ∧
      (last = true → ∀ n ∈ s.keys.names rows pattern, n ∉ scan.missing) ∧ s.passes = 0
  | .build scan => s.keys.Building rows ∧ scan.Covers (s.keys.unwritten rows) [] ∧ s.passes = 0
  | .write scan ids last => s.keys.Building rows ∧ scan.Covers (s.keys.unwritten rows) ids ∧
      (last = true → ∀ id ∈ rows.keys, id ∉ scan.missing) ∧ s.passes = 0
  | .publish family scan rest renamed => s.keys.Publishing rows family rest ∧
      scan.Covers (s.keys.temp family).names [] ∧
      s.passes + s.keys.tempKeys + rest.length + renamed ≤ maxPasses rows
  | .rename family scan rest renamed name names last => s.keys.Publishing rows family rest ∧
      scan.Covers (s.keys.temp family).names (name :: names) ∧
      (last = true → ∀ n ∈ (s.keys.temp family).names, n ∉ scan.missing) ∧
      s.passes + s.keys.tempKeys + rest.length + renamed ≤ maxPasses rows

section

variable {rows : Rows} {s : State} {k : Keys} {family : Family} {rest : List Family}
  {pattern : Pattern} {todo : List Pattern} {interrupted last : Bool} {scan : Scan String}
  {names : List String} {name : String} {ids : List DocId} {renamed : ℕ} {p : Probe}
  {found : Bool} {event : Event} {events more : List Event}

theorem Keys.Complete.recoverable (h : k.Complete rows) : k.Recoverable rows where
  recognised := .inr (.inr h)
  blank hnil family := by
    rw [h.1,h.2,derived_nil hnil]
    exact ⟨rfl,rfl⟩

theorem Keys.Absent.recoverable (h : k.Absent) : k.Recoverable rows where
  recognised := .inr (.inl (h .status).1)
  blank _ := h

theorem ne_primary (h : pattern ∈ stalePatterns interrupted) : pattern ≠ .primary := by
  rintro rfl
  cases interrupted <;> simp [stalePatterns] at h

theorem Keys.Cleared.absent (h : k.Cleared rows interrupted []) : k.Absent := by
  obtain ⟨finished,heq,hempty⟩ := h.finished
  rw [append_nil] at heq
  subst heq
  have htemp : ∀ family, k.temp family = ∅ := by
    intro family
    rw [← names_eq_empty]
    apply hempty (.temp family)
    cases family <;> simp [stalePatterns]
  have hbasename : k.official .basename = ∅ := by
    rw [← names_eq_empty]
    exact hempty (.official .basename) (by simp [stalePatterns])
  have hstatus : k.official .status = ∅ := by
    cases interrupted with
    | false => exact h.status rfl
    | true =>
      rw [← names_eq_empty]
      exact hempty (.official .status) (by simp [stalePatterns])
  intro family
  cases family with
  | status => exact ⟨hstatus,htemp _⟩
  | basename => exact ⟨hbasename,htemp _⟩

theorem Keys.Cleared.next (h : k.Cleared rows interrupted (pattern :: todo))
    (hempty : k.names rows pattern = ∅) : k.Cleared rows interrupted todo := by
  obtain ⟨finished,heq,hfinished⟩ := h.finished
  refine ⟨h.some,⟨finished ++ [pattern],by simp [heq],?_⟩,h.status⟩
  intro p hp
  rw [mem_append,mem_singleton] at hp
  obtain hp | rfl := hp
  · exact hfinished p hp
  · exact hempty

theorem Keys.Cleared.delete (h : k.Cleared rows interrupted todo) (names : List String) :
    (k.delete pattern names).Cleared rows interrupted todo := by
  obtain ⟨finished,heq,hfinished⟩ := h.finished
  refine ⟨h.some,⟨finished,heq,?_⟩,?_⟩
  · intro p hp
    rw [Finset.eq_empty_iff_forall_notMem]
    intro n hn
    have hin := (mem_names_delete hn).1
    rw [hfinished p hp] at hin
    cases hin
  · intro hinterrupted
    rw [Finset.eq_empty_iff_forall_notMem]
    intro e he
    have hin := (mem_official_delete.mp he).1
    rw [h.status hinterrupted] at hin
    cases hin

theorem Keys.Building.write (h : k.Building rows) (ids : List DocId) :
    (k.write rows ids).Building rows where
  some := h.some
  official := h.official
  temp family := by
    intro e he
    obtain hin | ⟨id,-,hentry⟩ := mem_temp_write.mp he
    · exact h.temp family hin
    · exact mem_derived.mpr ⟨id,hentry⟩

theorem mem_unwritten {id : DocId} : id ∈ k.unwritten rows ↔
    ∃ family, ∃ e ∈ rowEntries family id (rows.get id).join, e ∉ k.temp family := by
  simp only [Keys.unwritten,Finset.mem_filter,mem_toFinset,mem_cons,
    not_mem_nil,or_false,exists_eq_or_imp,exists_eq_left]
  constructor
  · rintro ⟨-,h | h⟩
    · exact ⟨.status,h⟩
    · exact ⟨.basename,h⟩
  · rintro ⟨family,e,he,hnot⟩
    refine ⟨?_,?_⟩
    · rw [Dict.mem_keys]
      intro hnone
      rw [hnone] at he
      cases he
    · cases family with
      | status => exact .inl ⟨e,he,hnot⟩
      | basename => exact .inr ⟨e,he,hnot⟩

theorem Keys.Building.built (h : k.Building rows) (hall : k.unwritten rows = ∅)
    (family : Family) : k.temp family = derived rows family := by
  apply Finset.Subset.antisymm (h.temp family)
  intro e he
  obtain ⟨id,hentry⟩ := mem_derived.mp he
  by_contra hnot
  have hin : id ∈ k.unwritten rows := mem_unwritten.mpr ⟨family,e,hentry,hnot⟩
  rw [hall] at hin
  cases hin

theorem Keys.Publishing.rename (h : k.Publishing rows family rest) (name : String) :
    (k.rename family name).Publishing rows family rest where
  some := h.some
  split other := by
    rw [← h.split other]
    ext e
    rw [Finset.mem_union,Finset.mem_union,mem_official_rename (h.apart family),mem_temp_rename]
    by_cases hname : other = family ∧ e.1 = name
    · obtain ⟨rfl,rfl⟩ := hname
      simp
    · simp only [hname,not_false_eq_true,and_true]
      constructor
      · rintro ((hin | ⟨hother,hin,heq⟩) | hin)
        · exact .inl hin
        · exact .inr hin
        · exact .inr hin
      · rintro (hin | hin)
        · exact .inl (.inl hin)
        · exact .inr hin
  apart other := by
    rw [Finset.disjoint_left]
    intro n hn hn'
    rw [mem_names] at hn hn'
    obtain ⟨member,hin⟩ := hn
    obtain ⟨member',hin'⟩ := hn'
    obtain ⟨hin',hnot⟩ := mem_temp_rename.mp hin'
    obtain hin | ⟨hother,-,heq⟩ := (mem_official_rename (h.apart family)).mp hin
    · exact Finset.disjoint_left.mp (h.apart other) (mem_names.mpr ⟨member,hin⟩)
        (mem_names.mpr ⟨member',hin'⟩)
    · exact hnot ⟨hother,heq⟩
  order := by
    obtain ⟨rfl,rfl⟩ | ⟨rfl,rfl,hempty⟩ := h.order
    · exact .inl ⟨rfl,rfl⟩
    · refine .inr ⟨rfl,rfl,?_⟩
      rw [Finset.eq_empty_iff_forall_notMem]
      intro e he
      have hin := (mem_temp_rename.mp he).1
      rw [hempty] at hin
      cases hin

theorem tempKeys_rename (h : name ∈ (k.temp family).names) :
    (k.rename family name).tempKeys + 1 = k.tempKeys := by
  have hpos := Finset.card_pos.mpr ⟨name,h⟩
  unfold Keys.tempKeys
  rw [names_temp_rename,names_temp_rename]
  cases family with
  | status =>
    simp only [if_true,reduceCtorEq,if_false,Finset.card_erase_of_mem h]
    omega
  | basename =>
    simp only [if_true,reduceCtorEq,if_false,Finset.card_erase_of_mem h]
    omega

theorem rename_of_not_mem (h : name ∉ (k.temp family).names) : k.rename family name = k :=
  if_neg h

end

end LightRAG.SidecarRebuild
