import LightRAG.Storage.JsonStatusSweeps

/-!
# Sweeps while rows are written

Every row that a sweep reads is read once, in the order of the keys; a document that stays is
returned once; and a relaxed sweep ends.
-/

namespace LightRAG.JsonStatus
open List

open Keyset (Position Passes Read)
open RedisSidecar (DocId)
open SchedulingSweeps (DocStatus Key)
open Smallest (smallest)

structure Sweep where
  data : Dict DocId Json
  position : Position String
  returned : List DocSchedulingRecord
  read : List Key

inductive Event
  | insert (docId : DocId) (row : Json)
  | update (docId : DocId) (row : Json)
  | delete (docId : DocId)
  | page (limit : ℕ)

namespace Sweep

variable (statuses : List DocStatus) (strict : Bool)

def begin (data : Dict DocId Json) : Sweep := ⟨data, .start, [], []⟩

variable (s : Sweep)

def selectedKeys (limit : ℕ) : List Key :=
  if statuses = [] ∨ s.position = .finish then []
  else
    match selectedRows s.data statuses limit s.position strict with
    | .ok selected => selected.map entryKey
    | .error _ => []

def readPage (limit : ℕ) : Sweep :=
  match getDocsByStatusesPage s.data statuses limit s.position strict with
  | .error _ => s
  | .ok page =>
    { s with
      position := page.nextPosition
      returned := s.returned ++ page.docs
      read := s.read ++ s.selectedKeys statuses strict limit }

/-- Rows are inserted under new ids, and an update keeps `created_at`. -/
def step : Event → Sweep
  | .insert docId row => if docId ∈ s.data.keys then s else { s with data := s.data.set docId row }
  | .update docId row =>
    match s.data.get docId with
    | some old =>
      if row.field "created_at" = old.field "created_at" then
        { s with data := s.data.set docId row }
      else s
    | none => s
  | .delete docId => { s with data := s.data.drop fun id => id = docId }
  | .page limit => s.readPage statuses strict limit

def run (events : List Event) : Sweep := events.foldl (step statuses strict) s

/-- The document has a row of a swept status that can be used. -/
def Listed (docId : DocId) : Prop :=
  ∃ row, s.data.get docId = some row ∧ inStatuses statuses row = some true ∧
    (schedulingRecordFromRow docId row).isSome

def Stays (docId : DocId) (s : Sweep) : List Event → Prop
  | [] => s.Listed statuses docId
  | e :: es => s.Listed statuses docId ∧ Stays docId (s.step statuses strict e) es

end Sweep

def insertedKeys : List Event → List Key
  | [] => []
  | .insert docId row :: events => rowSortKey docId row :: insertedKeys events
  | _ :: events => insertedKeys events

def pages : List Event → ℕ
  | [] => 0
  | .page limit :: events => (if 0 < limit then 1 else 0) + pages events
  | _ :: events => pages events

def HashableStatus (row : Json) : Prop := ∀ statuses, inStatuses statuses row ≠ none

def HashableStatuses : List Event → Prop
  | [] => True
  | .insert _ row :: events => HashableStatus row ∧ HashableStatuses events
  | .update _ row :: events => HashableStatus row ∧ HashableStatuses events
  | _ :: events => HashableStatuses events

namespace Sweep

variable {statuses : List DocStatus} {strict : Bool} {s s' : Sweep} {p : Position Key}
  {docId : DocId} {limit : ℕ} {event : Event} {events : List Event}

theorem selectedKeys_eq (hp : s.position = encodePosition p) {page : DocStatusPage}
    (h : getDocsByStatusesPage s.data statuses limit s.position strict = .ok page) :
    s.selectedKeys statuses strict limit = (pageRows s.data statuses limit p).map entryKey := by
  unfold selectedKeys
  rw [hp] at h ⊢
  by_cases hend : statuses = [] ∨ encodePosition p = .finish
  · rw [if_pos hend,pageRows_nil (hend.imp id encodePosition_eq_finish.mp),map_nil]
  · rw [if_neg hend]
    have hp : p ≠ .finish := fun heq => hend (.inr (encodePosition_eq_finish.mpr heq))
    unfold getDocsByStatusesPage at h
    by_cases hzero : limit = 0
    · rw [if_pos hzero] at h
      cases h
    rw [if_neg hzero,if_neg hend] at h
    cases hselected : selectedRows s.data statuses limit (encodePosition p) strict with
    | error _ =>
      simp only [hselected] at h
      cases h
    | ok found => rw [selectedRows_ok hp hselected]

theorem readPage_cases (statuses : List DocStatus) (strict : Bool)
    (hp : s.position = encodePosition p) (limit : ℕ) :
    s.readPage statuses strict limit = s ∨
      0 < limit ∧ s.readPage statuses strict limit =
        { s with
          position := encodePosition
            (Keyset.next limit ((pageRows s.data statuses limit p).map entryKey))
          returned := s.returned ++ (pageRows s.data statuses limit p).filterMap
            (fun e => schedulingRecordFromRow e.1 e.2)
          read := s.read ++ (pageRows s.data statuses limit p).map entryKey } := by
  unfold readPage
  cases hpage : getDocsByStatusesPage s.data statuses limit s.position strict with
  | error _ => exact .inl rfl
  | ok page =>
    rw [selectedKeys_eq hp hpage]
    rw [hp] at hpage
    obtain ⟨hlimit,hdocs,hnext⟩ := page_ok hpage
    right
    refine ⟨hlimit,?_⟩
    dsimp only
    rw [hdocs,hnext]

theorem step_data (statuses : List DocStatus) (strict : Bool) (s : Sweep)
    (h : ∀ limit, event ≠ .page limit) :
    ∃ data, s.step statuses strict event = { s with data := data } := by
  cases event with
  | insert docId row =>
    rw [step]
    split
    · exact ⟨s.data,rfl⟩
    · exact ⟨_,rfl⟩
  | update docId row =>
    rw [step]
    split
    · split
      · exact ⟨_,rfl⟩
      · exact ⟨s.data,rfl⟩
    · exact ⟨s.data,rfl⟩
  | delete docId => exact ⟨_,rfl⟩
  | page limit => exact absurd rfl (h limit)

/-- The records that were returned are among the rows that were read, in order. -/
structure Kept (p : Position Key) (s : Sweep) : Prop where
  position : s.position = encodePosition p
  read : Read p s.read
  returned : (s.returned.map recordKey).Sublist s.read

theorem kept_begin (data : Dict DocId Json) : Kept .start (begin data) :=
  ⟨rfl,Keyset.read_start,List.Sublist.refl []⟩

theorem passes_page (hlimit : 0 < limit) (data : Dict DocId Json) (statuses : List DocStatus)
    (p : Position Key) : Passes p ((pageRows data statuses limit p).map entryKey)
      (Keyset.next limit ((pageRows data statuses limit p).map entryKey)) :=
  Keyset.passes_page hlimit nodup_aheadRows fun _ he => (mem_aheadRows.mp he).2.2

theorem sublist_records (es : List (DocId × Json)) :
    ((es.filterMap fun e => schedulingRecordFromRow e.1 e.2).map recordKey).Sublist
      (es.map entryKey) := by
  induction es with
  | nil => exact List.Sublist.refl []
  | cons e es ih =>
    rw [filterMap_cons]
    cases hrecord : schedulingRecordFromRow e.1 e.2 with
    | none => exact ih.cons _
    | some record =>
      rw [map_cons,(recordKey_eq hrecord).1]
      exact ih.cons_cons _

def afterPage (statuses : List DocStatus) (limit : ℕ) (p : Position Key) (s : Sweep) : Sweep :=
  { s with
    position := encodePosition
      (Keyset.next limit ((pageRows s.data statuses limit p).map entryKey))
    returned := s.returned ++ (pageRows s.data statuses limit p).filterMap
      (fun e => schedulingRecordFromRow e.1 e.2)
    read := s.read ++ (pageRows s.data statuses limit p).map entryKey }

theorem Kept.page (h : Kept p s) (statuses : List DocStatus) (hlimit : 0 < limit) :
    Kept (Keyset.next limit ((pageRows s.data statuses limit p).map entryKey))
      (s.afterPage statuses limit p) := by
  refine ⟨rfl,h.read.pass (passes_page hlimit s.data statuses p),?_⟩
  rw [afterPage,map_append]
  exact h.returned.append (sublist_records _)

theorem step_cases (statuses : List DocStatus) (strict : Bool) (h : s.position = encodePosition p)
    (event : Event) :
    (∃ data, s.step statuses strict event = { s with data := data }) ∨
      ∃ limit, event = .page limit ∧ 0 < limit ∧
        s.step statuses strict event = s.afterPage statuses limit p := by
  by_cases hpage : ∃ limit, event = .page limit
  · obtain ⟨limit,rfl⟩ := hpage
    cases readPage_cases statuses strict h limit with
    | inl hsame => exact .inl ⟨s.data,hsame⟩
    | inr hread => exact .inr ⟨limit,rfl,hread⟩
  · exact .inl (step_data statuses strict s fun limit heq => hpage ⟨limit,heq⟩)

theorem Kept.step (h : Kept p s) (statuses : List DocStatus) (strict : Bool) (event : Event) :
    ∃ p', Kept p' (s.step statuses strict event) := by
  rcases step_cases statuses strict h.position event with ⟨data,hdata⟩ | ⟨limit,-,hlimit,hpage⟩
  · rw [hdata]
    exact ⟨p,h.position,h.read,h.returned⟩
  · rw [hpage]
    exact ⟨_,h.page statuses hlimit⟩

theorem Kept.run (h : Kept p s) (statuses : List DocStatus) (strict : Bool)
    (events : List Event) : ∃ p', Kept p' (s.run statuses strict events) := by
  induction events generalizing p s with
  | nil => exact ⟨p,h⟩
  | cons event events ih =>
    obtain ⟨p',hstep⟩ := h.step statuses strict event
    exact ih hstep

structure Known (keys : List Key) (s : Sweep) : Prop where
  rows : ∀ e ∈ s.data.entries, entryKey e ∈ keys
  read : ∀ k ∈ s.read, k ∈ keys

theorem rowSortKey_of_created {row old : Json}
    (h : row.field "created_at" = old.field "created_at") (docId : DocId) :
    rowSortKey docId row = rowSortKey docId old := by
  unfold rowSortKey
  rw [h]

theorem mem_set {data : Dict DocId Json} {row : Json} {e : DocId × Json}
    (h : e ∈ (data.set docId row).entries) : e ∈ data.entries ∨ e = (docId, row) := by
  have hget := Dict.get_eq_some.mpr (show (e.1, e.2) ∈ (data.set docId row).entries from h)
  rw [Dict.get_set] at hget
  by_cases hid : e.1 = docId
  · rw [if_pos hid] at hget
    exact .inr (Prod.ext hid (Option.some.inj hget).symm)
  · rw [if_neg hid] at hget
    exact .inl (Dict.get_eq_some.mp hget)

theorem mem_drop {data : Dict DocId Json} {e : DocId × Json}
    (h : e ∈ (data.drop fun id => id = docId).entries) : e ∈ data.entries ∧ e.1 ≠ docId := by
  have hget := Dict.get_eq_some.mpr
    (show (e.1, e.2) ∈ (data.drop fun id => id = docId).entries from h)
  rw [Dict.get_drop] at hget
  by_cases hid : e.1 = docId
  · rw [if_pos hid] at hget
    cases hget
  · rw [if_neg hid] at hget
    exact ⟨Dict.get_eq_some.mp hget,hid⟩

variable {keys : List Key}

theorem Known.write (h : Known keys s) {row : Json}
    (hkey : rowSortKey docId row ∈ keys) : Known keys { s with data := s.data.set docId row } := by
  refine ⟨?_,h.read⟩
  intro e he
  cases mem_set he with
  | inl hold => exact h.rows e hold
  | inr hnew =>
    rw [hnew]
    exact hkey

theorem Known.step (h : Known keys s) (hp : s.position = encodePosition p)
    (hevent : ∀ docId row, event = .insert docId row → rowSortKey docId row ∈ keys) :
    Known keys (s.step statuses strict event) := by
  cases event with
  | insert docId row =>
    rw [Sweep.step]
    split
    · exact h
    · exact h.write (hevent docId row rfl)
  | update docId row =>
    rw [Sweep.step]
    split
    · rename_i old hold
      split
      · rename_i hcreated
        apply h.write
        rw [rowSortKey_of_created hcreated]
        exact h.rows (docId, old) (Dict.get_eq_some.mp hold)
      · exact h
    · exact h
  | delete docId => exact ⟨fun e he => h.rows e (mem_drop he).1,h.read⟩
  | page limit =>
    rw [Sweep.step]
    rcases readPage_cases statuses strict hp limit with hsame | ⟨-,hread⟩
    · rwa [hsame]
    · rw [hread]
      refine ⟨h.rows,?_⟩
      intro k hk
      cases mem_append.mp hk with
      | inl hold => exact h.read k hold
      | inr hnew =>
        obtain ⟨e,he,rfl⟩ := mem_map.mp hnew
        exact h.rows e (mem_aheadRows.mp (Smallest.mem_of_mem_smallest he)).1

theorem Known.run (h : Known keys s) (hkept : Kept p s)
    (hevents : ∀ k ∈ insertedKeys events, k ∈ keys) :
    Known keys (s.run statuses strict events) := by
  induction events generalizing p s with
  | nil => exact h
  | cons event events ih =>
    obtain ⟨p',hstep⟩ := hkept.step statuses strict event
    apply ih (h.step hkept.position _) hstep
    · intro k hk
      apply hevents
      cases event with
      | insert docId row => exact mem_cons_of_mem _ hk
      | _ => exact hk
    · rintro docId row rfl
      exact hevents _ mem_cons_self

structure Returned (p : Position Key) (docId : DocId) (k : Key) (s : Sweep) : Prop where
  pending : p.Ahead k ∨ k ∈ s.returned.map recordKey
  own : ∀ r ∈ s.returned, r.id = docId → recordKey r = k

def HasKey (s : Sweep) (docId : DocId) (k : Key) : Prop :=
  ∃ row, s.data.get docId = some row ∧ rowSortKey docId row = k

theorem HasKey.step {k : Key} (h : s.HasKey docId k)
    (hlisted : (s.step statuses strict event).Listed statuses docId) :
    (s.step statuses strict event).HasKey docId k := by
  obtain ⟨row,hrow,hkey⟩ := h
  cases event with
  | insert docId' row' =>
    rw [Sweep.step]
    split
    · exact ⟨row,hrow,hkey⟩
    · rename_i hnew
      refine ⟨row,?_,hkey⟩
      have hne : docId ≠ docId' := by
        rintro rfl
        apply hnew
        rw [Dict.mem_keys,hrow]
        exact fun h => nomatch h
      rw [Dict.get_set,if_neg hne]
      exact hrow
  | update docId' row' =>
    rw [Sweep.step]
    split
    · rename_i old hold
      split
      · rename_i hcreated
        by_cases hid : docId = docId'
        · subst hid
          rw [hrow] at hold
          obtain rfl := Option.some.inj hold
          refine ⟨row',?_,?_⟩
          · rw [Dict.get_set,if_pos rfl]
          · rw [rowSortKey_of_created hcreated,hkey]
        · refine ⟨row,?_,hkey⟩
          rw [Dict.get_set,if_neg hid]
          exact hrow
      · exact ⟨row,hrow,hkey⟩
    · exact ⟨row,hrow,hkey⟩
  | delete docId' =>
    obtain ⟨row',hrow',-⟩ := hlisted
    rw [Sweep.step,Dict.get_drop] at hrow'
    by_cases hid : docId = docId'
    · rw [if_pos hid] at hrow'
      cases hrow'
    · refine ⟨row,?_,hkey⟩
      rw [Sweep.step,Dict.get_drop,if_neg hid]
      exact hrow
  | page limit =>
    refine ⟨row,?_,hkey⟩
    rw [Sweep.step,readPage]
    split
    · exact hrow
    · exact hrow

theorem exists_row_of_record {es : List (DocId × Json)} {r : DocSchedulingRecord}
    (h : r ∈ es.filterMap fun e => schedulingRecordFromRow e.1 e.2) :
    ∃ e ∈ es, schedulingRecordFromRow e.1 e.2 = some r ∧ recordKey r = entryKey e ∧ r.id = e.1 := by
  obtain ⟨e,he,hrecord⟩ := mem_filterMap.mp h
  obtain ⟨hkey,hid⟩ := recordKey_eq hrecord
  exact ⟨e,he,hrecord,hkey,hid⟩

theorem Returned.page {k : Key} (h : Returned p docId k s) (hlisted : s.Listed statuses docId)
    (hkey : s.HasKey docId k) (hlimit : 0 < limit) :
    Returned (Keyset.next limit ((pageRows s.data statuses limit p).map entryKey)) docId k
      (s.afterPage statuses limit p) := by
  obtain ⟨row,hrow,hin,husable⟩ := hlisted
  obtain ⟨row',hrow',rfl⟩ := hkey
  rw [hrow] at hrow'
  obtain rfl := Option.some.inj hrow'
  constructor
  · rw [afterPage,map_append,mem_append]
    cases h.pending with
    | inr hold => exact .inr (.inl hold)
    | inl hahead =>
      have hmem : (docId, row) ∈ aheadRows s.data statuses p :=
        mem_aheadRows.mpr ⟨Dict.get_eq_some.mp hrow,hin,hahead⟩
      cases Keyset.mem_page_or_ahead hlimit nodup_aheadRows hmem with
      | inr hlater => exact .inl hlater
      | inl hpage =>
        obtain ⟨record,hrecord⟩ := Option.isSome_iff_exists.mp husable
        refine .inr (.inr (mem_map.mpr ⟨record,?_,(recordKey_eq hrecord).1⟩))
        exact mem_filterMap.mpr ⟨(docId, row),hpage,hrecord⟩
  · intro r hr hid
    cases mem_append.mp hr with
    | inl hold => exact h.own r hold hid
    | inr hnew =>
      obtain ⟨e,he,-,hkey,hown⟩ := exists_row_of_record hnew
      have hentry := (mem_aheadRows.mp (Smallest.mem_of_mem_smallest he)).1
      have hget := Dict.get_eq_some.mpr (show (e.1, e.2) ∈ s.data.entries from hentry)
      rw [← hown,hid,hrow] at hget
      rw [hkey,entryKey,← hown,hid,Option.some.inj hget]

theorem Returned.step {k : Key} (h : Returned p docId k s) (strict : Bool) (hkept : Kept p s)
    (hlisted : s.Listed statuses docId) (hkey : s.HasKey docId k) (event : Event) :
    ∃ p', Kept p' (s.step statuses strict event) ∧
      Returned p' docId k (s.step statuses strict event) := by
  rcases step_cases statuses strict hkept.position event with
    ⟨data,hdata⟩ | ⟨limit,-,hlimit,hpage⟩
  · rw [hdata]
    exact ⟨p,⟨hkept.position,hkept.read,hkept.returned⟩,⟨h.pending,h.own⟩⟩
  · rw [hpage]
    exact ⟨_,hkept.page statuses hlimit,h.page hlisted hkey hlimit⟩

theorem Stays.listed (h : s.Stays statuses strict docId events) : s.Listed statuses docId := by
  cases events with
  | nil => exact h
  | cons event events => exact h.1

theorem Returned.run {k : Key} (h : Returned p docId k s) (hkept : Kept p s)
    (hkey : s.HasKey docId k) (hstays : s.Stays statuses strict docId events) :
    ∃ p', Kept p' (s.run statuses strict events) ∧
      Returned p' docId k (s.run statuses strict events) := by
  induction events generalizing p s with
  | nil => exact ⟨p,hkept,h⟩
  | cons event events ih =>
    obtain ⟨hlisted,hrest⟩ := hstays
    obtain ⟨p',hkept',h'⟩ := h.step strict hkept hlisted hkey event
    exact ih h' hkept' (hkey.step hrest.listed) hrest

theorem Returned.count {k : Key} (h : Returned p docId k s) (hkept : Kept p s)
    (hk : (ofLex k).2 = docId) (hend : ¬ p.Ahead k) :
    (s.returned.map DocSchedulingRecord.id).count docId = 1 := by
  have hmem : k ∈ s.returned.map recordKey := h.pending.resolve_left hend
  have hnd : (s.returned.map recordKey).Nodup := hkept.read.nodup.sublist hkept.returned
  have hcount := count_eq_one_of_mem hnd hmem
  rw [count_eq_countP,countP_map] at hcount ⊢
  rw [← hcount]
  apply countP_congr
  intro r hr
  simp only [Function.comp,beq_iff_eq]
  constructor
  · exact h.own r hr
  · intro heq
    rw [← hk,← heq]
    rfl

/-- After so many pages the sweep has ended or has read as many rows. -/
def Advanced (n : ℕ) (s : Sweep) : Prop := s.position = .finish ∨ n ≤ s.read.length

theorem next_length (h : Keyset.next limit keys ≠ .finish) :
    limit ≤ keys.length := by
  by_contra hless
  exact h (if_pos (not_le.mp hless))

theorem Advanced.step {n : ℕ} (h : Advanced n s) (hp : s.position = encodePosition p)
    (hhash : ∀ e ∈ s.data.entries, HashableStatus e.2) :
    Advanced (n + pages [event]) (s.step statuses false event) := by
  by_cases hpage : ∃ limit, event = .page limit ∧ 0 < limit
  · obtain ⟨limit,rfl,hlimit⟩ := hpage
    have hstatuses : ∀ e ∈ s.data.entries, inStatuses statuses e.2 ≠ none :=
      fun e he => hhash e he statuses
    obtain ⟨page,hok⟩ := page_relaxed (p := p) hlimit hstatuses
    obtain ⟨-,-,hnext⟩ := page_ok hok
    rw [← hp] at hok
    have hkeys := selectedKeys_eq hp hok
    rw [Sweep.step,readPage,hok]
    dsimp only
    rw [hkeys,hnext]
    by_cases hfinish : Keyset.next limit ((pageRows s.data statuses limit p).map entryKey) = .finish
    · exact .inl (encodePosition_eq_finish.mpr hfinish)
    · right
      have hlength := next_length hfinish
      cases h with
      | inl hended =>
        rw [hp,encodePosition_eq_finish] at hended
        rw [pageRows_nil (.inr hended),map_nil,length_nil] at hlength
        omega
      | inr hread =>
        simp only [pages,if_pos hlimit,length_append]
        omega
  · have hnone : pages [event] = 0 := by
      cases event with
      | page limit =>
        have hzero : ¬ 0 < limit := fun hlimit => hpage ⟨limit,rfl,hlimit⟩
        simp [pages,hzero]
      | _ => rfl
    rw [hnone]
    rcases step_cases statuses false hp event with ⟨data,hdata⟩ | ⟨limit,hevent,hlimit,-⟩
    · rw [hdata]
      exact h
    · exact absurd ⟨limit,hevent,hlimit⟩ hpage

theorem pages_cons : pages (event :: events) = pages [event] + pages events := by
  cases event <;> simp [pages]

theorem hashable_step (hhash : ∀ e ∈ s.data.entries, HashableStatus e.2)
    (hevent : HashableStatuses [event]) :
    ∀ e ∈ (s.step statuses strict event).data.entries, HashableStatus e.2 := by
  have hset : ∀ docId row, HashableStatus row →
      ∀ e ∈ (s.data.set docId row).entries, HashableStatus e.2 := by
    intro docId row hrow e he
    cases mem_set he with
    | inl hold => exact hhash e hold
    | inr hnew =>
      rw [hnew]
      exact hrow
  cases event with
  | insert docId row =>
    rw [Sweep.step]
    split
    · exact hhash
    · exact hset docId row hevent.1
  | update docId row =>
    rw [Sweep.step]
    split
    · split
      · exact hset docId row hevent.1
      · exact hhash
    · exact hhash
  | delete docId => exact fun e he => hhash e (mem_drop he).1
  | page limit =>
    rw [Sweep.step,readPage]
    split
    · exact hhash
    · exact hhash

theorem hashableStatuses_cons (h : HashableStatuses (event :: events)) :
    HashableStatuses [event] ∧ HashableStatuses events := by
  cases event with
  | insert _ _ => exact ⟨⟨h.1,trivial⟩,h.2⟩
  | update _ _ => exact ⟨⟨h.1,trivial⟩,h.2⟩
  | delete _ => exact ⟨trivial,h⟩
  | page _ => exact ⟨trivial,h⟩

theorem Advanced.run {n : ℕ} (h : Advanced n s) (hkept : Kept p s)
    (hhash : ∀ e ∈ s.data.entries, HashableStatus e.2) (hevents : HashableStatuses events) :
    Advanced (n + pages events) (s.run statuses false events) := by
  induction events generalizing n p s with
  | nil => exact h
  | cons event events ih =>
    obtain ⟨hevent,hrest⟩ := hashableStatuses_cons hevents
    obtain ⟨p',hkept'⟩ := hkept.step statuses false event
    rw [pages_cons,← Nat.add_assoc]
    exact ih (h.step hkept.position hhash) hkept' (hashable_step hhash hevent) hrest

end Sweep

def knownKeys (data : Dict DocId Json) (events : List Event) : List Key :=
  data.entries.map entryKey ++ insertedKeys events

structure Guarantee (statuses : List DocStatus) (strict : Bool) (data : Dict DocId Json)
    (events : List Event) (s : Sweep) : Prop where
  read : s.read.Pairwise (· < ·)
  returned : (s.returned.map recordKey).Sublist s.read
  once : ((knownKeys data events).map fun k => (ofLex k).2).Nodup →
    (s.returned.map DocSchedulingRecord.id).Nodup
  all : s.position = .finish → ∀ docId, (Sweep.begin data).Stays statuses strict docId events →
    (s.returned.map DocSchedulingRecord.id).count docId = 1
  ends : strict = false → (∀ e ∈ data.entries, HashableStatus e.2) → HashableStatuses events →
    (knownKeys data events).length < pages events → s.position = .finish

theorem sweep_guarantee (statuses : List DocStatus) (strict : Bool) (data : Dict DocId Json)
    (events : List Event) :
    Guarantee statuses strict data events ((Sweep.begin data).run statuses strict events) := by
  have hbegin := Sweep.kept_begin data
  obtain ⟨p,hkept⟩ := hbegin.run statuses strict events
  have hknown : Sweep.Known (knownKeys data events)
      ((Sweep.begin data).run statuses strict events) := by
    apply Sweep.Known.run _ hbegin
    · exact fun k hk => mem_append_right _ hk
    · exact ⟨fun e he => mem_append_left _ (mem_map_of_mem he),fun k hk => absurd hk not_mem_nil⟩
  have hsubset : ∀ k ∈ (((Sweep.begin data).run statuses strict events).returned.map recordKey),
      k ∈ knownKeys data events := fun k hk => hknown.read k (hkept.returned.subset hk)
  constructor
  case read => exact hkept.read.ascending
  case returned => exact hkept.returned
  case once =>
    intro hids
    have hnd := hkept.read.nodup.sublist hkept.returned
    have hmap : ∀ rs : List DocSchedulingRecord,
        rs.map DocSchedulingRecord.id = (rs.map recordKey).map fun k => (ofLex k).2 := by
      intro rs
      rw [map_map]
      rfl
    rw [hmap]
    apply List.Nodup.map_on _ hnd
    intro a ha b hb heq
    exact inj_on_of_nodup_map hids (hsubset a ha) (hsubset b hb) heq
  case all =>
    intro hend docId hstays
    obtain ⟨row,hrow,-⟩ := hstays.listed
    have hstart : Sweep.Returned .start docId (rowSortKey docId row) (Sweep.begin data) :=
      ⟨.inl trivial,fun r hr => absurd hr not_mem_nil⟩
    obtain ⟨p',hkept',hreturned⟩ := hstart.run hbegin ⟨row,hrow,rfl⟩ hstays
    apply hreturned.count hkept' (snd_rowSortKey docId row)
    rw [hkept'.position,encodePosition_eq_finish] at hend
    rw [hend]
    exact id
  case ends =>
    rintro rfl hhash hevents hmany
    have hstart : Sweep.Advanced 0 (Sweep.begin data) := .inr (Nat.zero_le _)
    have hadvanced : Sweep.Advanced (0 + pages events)
        ((Sweep.begin data).run statuses false events) := hstart.run hbegin hhash hevents
    cases hadvanced with
    | inl hend => exact hend
    | inr hread =>
      have hle := (hkept.read.nodup.subperm hknown.read).length_le
      omega

def pendingRow (created : String) : Json :=
  .object [("status", .string "pending"), ("created_at", .string created)]

def brokenRow : Json := .object [("status", .array []), ("created_at", .string "1")]

/-- A document that is deleted and inserted again after its page is returned again, and a row whose
status is a list makes a relaxed page raise. -/
theorem reinserted_returned_twice :
    ¬ (((Sweep.begin ⟨[("doc", pendingRow "1")], by decide⟩).run [.pending] false
      [.page 1, .delete "doc", .insert "doc" (pendingRow "2"), .page 1]).returned.map
        DocSchedulingRecord.id).Nodup ∧
      getDocsByStatusesPage ⟨[("doc", brokenRow)], by decide⟩ [.pending] 1 .start false =
        .error (.unhashableStatus "doc") := by
  refine ⟨?_,rfl⟩
  decide +kernel

end LightRAG.JsonStatus
