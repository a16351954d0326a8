import LightRAG.Storage.SchedulingSweepPages

/-!
# Runs of the two scheduling sweeps

While no write lists a row that only one of the sweeps has passed, both deliver the same documents
in the same order, each once, and both end.
-/

namespace LightRAG.SchedulingSweeps
open List

open RedisSidecar (DocId)

/-- Both stores have the same rows, and both sweeps the same of them ahead. -/
structure Sweeps.Aligned (statuses : List DocStatus) (timestamps : Set String) (s : Sweeps) :
    Prop where
  rows : s.redis.rows = s.json
  indexed : s.redis.Indexed timestamps
  docs : s.redisDocs = s.jsonDocs
  ahead : ∀ e ∈ s.json.entries, e.2.status ∈ statuses →
    (s.jsonCursor.JsonAhead (entryKey e) ↔
      s.redisCursor.RedisAhead e.2.status (e.2.member e.1))
  nodup : (s.jsonDocs.map DocSchedulingRecord.id).Nodup
  passed : ∀ e ∈ s.json.entries, e.2.status ∈ statuses →
    e.1 ∈ s.jsonDocs.map DocSchedulingRecord.id → ¬ s.jsonCursor.JsonAhead (entryKey e)
  ended : s.jsonCursor.isFinish = true → s.redisCursor.isFinish = true

namespace Sweeps

variable {statuses : List DocStatus} {timestamps : Set String} {s : Sweeps} {limit : ℕ}
  {strict : Bool} {id : DocId} {createdAt : String} {events more : List Event} {event : Event}

section

variable (hf : Format timestamps)

include hf

theorem Aligned.page_spec (h : s.Aligned statuses timestamps)
    (hlimit : limit ≠ 0) (strict : Bool) :
    ∃ next : Cursor Positions, s.step statuses (.page limit strict) =
      { s with
        redisCursor := next
        redisDocs := s.redisDocs ++ (chosen s.json statuses s.jsonCursor limit).map
          fun e => schedulingRecord e.1 e.2
        jsonCursor := jsonNext limit (chosen s.json statuses s.jsonCursor limit)
        jsonDocs := s.jsonDocs ++ (chosen s.json statuses s.jsonCursor limit).map
          fun e => schedulingRecord e.1 e.2 } ∧
      (∀ e ∈ s.json.entries, e.2.status ∈ statuses →
        (next.RedisAhead e.2.status (e.2.member e.1) ↔ s.jsonCursor.JsonAhead (entryKey e) ∧
          e ∉ chosen s.json statuses s.jsonCursor limit)) ∧
      ((chosen s.json statuses s.jsonCursor limit).length < limit → next.isFinish = true) := by
  have hahead := h.ahead
  have hindexed := h.indexed
  rw [← h.rows] at hahead
  obtain ⟨page,hpage,hdocs,hnext,hend⟩ := hindexed.page hf hlimit strict hahead
  rw [h.rows] at hdocs hnext hend
  refine ⟨page.next,?_,hnext,hend⟩
  simp only [step,pageRedis,hpage,hdocs,pageJson,jsonPage_eq hlimit,docs_chosen]

theorem Aligned.page (h : s.Aligned statuses timestamps) :
    (s.step statuses (.page limit strict)).Aligned statuses timestamps := by
  by_cases hlimit : limit = 0
  · rw [hlimit]
    exact h
  · obtain ⟨next,heq,hnext,hend⟩ := h.page_spec hf hlimit strict
    have hchosen : ∀ e ∈ chosen s.json statuses s.jsonCursor limit, e ∈ s.json.entries ∧
        e.2.status ∈ statuses ∧ s.jsonCursor.JsonAhead (entryKey e) :=
      fun e he => mem_aheadRows.mp (mem_chosen_aheadRows he)
    have hids : ((chosen s.json statuses s.jsonCursor limit).map
        fun e => schedulingRecord e.1 e.2).map DocSchedulingRecord.id =
          (chosen s.json statuses s.jsonCursor limit).map Prod.fst := by
      rw [map_map]
      rfl
    rw [heq]
    constructor
    · exact h.rows
    · exact h.indexed
    · simp only [h.docs]
    · intro e he hstatus
      rw [jsonNext_ahead hlimit he hstatus,hnext e he hstatus]
    · simp only [map_append,hids]
      rw [nodup_append]
      refine ⟨h.nodup,nodup_ids_chosen,?_⟩
      rintro id hid _ hnew rfl
      obtain ⟨e,he,rfl⟩ := mem_map.mp hnew
      obtain ⟨hin,hstatus,hkey⟩ := hchosen e he
      exact h.passed e hin hstatus hid hkey
    · intro e he hstatus hid
      simp only [map_append,hids,mem_append] at hid
      simp only [jsonNext_ahead hlimit he hstatus,not_and,not_not]
      intro hkey
      obtain hid | hid := hid
      · exact absurd hkey (h.passed e he hstatus hid)
      · obtain ⟨e',he',hsame⟩ := mem_map.mp hid
        have hget := Dict.get_eq_some.mpr (show (e.1, e.2) ∈ s.json.entries from he)
        rw [← hsame,Dict.get_eq_some.mpr
          (show (e'.1, e'.2) ∈ s.json.entries from (hchosen e' he').1)] at hget
        have heq : e' = e := Prod.ext hsame (Option.some.inj hget)
        exact heq ▸ he'
    · intro hfinish
      obtain ⟨-,hshort⟩ | ⟨last,-,-,hafter⟩ :=
        @jsonNext_chosen s.json statuses s.jsonCursor limit hlimit
      · exact hend hshort
      · rw [hafter] at hfinish
        cases hfinish

theorem Aligned.write (h : s.Aligned statuses timestamps) {w : Write}
    (hw : s.Orderly statuses timestamps (.write w)) :
    (s.step statuses (.write w)).Aligned statuses timestamps := by
  -- a swept row after the write was there or has been admitted
  have hrow : ∀ e ∈ (jsonWrite s.json w).entries, e.2.status ∈ statuses →
      e ∈ s.json.entries ∨ s.Admits e.1 e.2 := by
    intro e he hstatus
    have hget := Dict.get_eq_some.mpr (show (e.1, e.2) ∈ (jsonWrite s.json w).entries from he)
    cases w with
    | put id row =>
      rw [jsonWrite,Dict.get_set] at hget
      split at hget
      · rename_i hid
        obtain rfl := Option.some.inj hget
        rw [hid]
        exact .inr (hw.2 hstatus)
      · exact .inl (Dict.get_eq_some.mp hget)
    | delete id =>
      rw [jsonWrite,Dict.get_drop] at hget
      split at hget
      · cases hget
      · exact .inl (Dict.get_eq_some.mp hget)
  constructor
  · change (s.redis.write w).rows = jsonWrite s.json w
    rw [RedisStore.rows_write,h.rows]
  · apply h.indexed.write hf
    rintro id row rfl
    exact hw.1
  · exact h.docs
  · intro e he hstatus
    obtain hin | hadmits := hrow e he hstatus
    · exact h.ahead e hin hstatus
    · exact hadmits.passed
  · exact h.nodup
  · intro e he hstatus hid hkey
    obtain hin | hadmits := hrow e he hstatus
    · exact h.passed e hin hstatus hid hkey
    · exact hadmits.fresh hkey hid
  · exact h.ended

theorem Aligned.step (h : s.Aligned statuses timestamps)
    (horderly : s.Orderly statuses timestamps event) :
    (s.step statuses event).Aligned statuses timestamps := by
  cases event with
  | page limit strict => exact h.page hf
  | write w => exact h.write hf horderly

theorem Aligned.run (h : s.Aligned statuses timestamps)
    (hrun : s.OrderlyRun statuses timestamps events) :
    (s.run statuses events).Aligned statuses timestamps := by
  induction events generalizing s with
  | nil => exact h
  | cons event events ih => exact ih (h.step hf hrun.1) hrun.2

theorem aligned_begin (writes : List Write)
    (hw : ∀ w ∈ writes, ∀ id row, w = .put id row → row.createdAt ∈ timestamps) :
    (begin writes).Aligned statuses timestamps := by
  obtain ⟨hindexed,hrows⟩ :=
    RedisStore.indexed_writes hf writes hw RedisStore.indexed_empty
  constructor
  · exact hrows
  · exact hindexed
  · rfl
  · intro e _ _
    exact Iff.rfl
  · exact nodup_nil
  · intro e _ _ hid
    cases hid
  · intro hfinish
    cases hfinish

end

def Owes (s : Sweeps) (id : DocId) (createdAt : String) : Prop :=
  s.jsonCursor.JsonAhead (toLex (createdAt, id)) ∨ id ∈ s.jsonDocs.map DocSchedulingRecord.id

theorem Stays.here (h : s.Stays statuses id createdAt events) :
    ∃ row, s.json.get id = some row ∧ row.status ∈ statuses ∧ row.createdAt = createdAt := by
  cases events with
  | nil => exact h
  | cons event events => exact h.1

theorem Aligned.owes_step (hf : Format timestamps) (h : s.Aligned statuses timestamps)
    (hhere : ∃ row, s.json.get id = some row ∧ row.status ∈ statuses ∧ row.createdAt = createdAt)
    (howes : s.Owes id createdAt) : (s.step statuses event).Owes id createdAt := by
  cases event with
  | write w => exact howes
  | page limit strict =>
    by_cases hlimit : limit = 0
    · rw [hlimit]
      exact howes
    · obtain ⟨next,heq,-⟩ := h.page_spec hf hlimit strict
      obtain ⟨row,hget,hstatus,rfl⟩ := hhere
      have hin := Dict.get_eq_some.mp hget
      have hkey := @jsonNext_ahead _ _ s.jsonCursor _ _ hlimit hin hstatus
      rw [heq,Owes]
      simp only [map_append,mem_append]
      by_cases hchosen : (id, row) ∈ chosen s.json statuses s.jsonCursor limit
      · right
        right
        rw [map_map]
        exact mem_map.mpr ⟨_,hchosen,rfl⟩
      · obtain hahead | hdelivered := howes
        · exact .inl (hkey.mpr ⟨hahead,hchosen⟩)
        · exact .inr (.inl hdelivered)

theorem Aligned.owes_run (hf : Format timestamps) (h : s.Aligned statuses timestamps)
    (hrun : s.OrderlyRun statuses timestamps events) (hstays : s.Stays statuses id createdAt events)
    (howes : s.Owes id createdAt) : (s.run statuses events).Owes id createdAt ∧
      ∃ row, (s.run statuses events).json.get id = some row ∧ row.status ∈ statuses ∧
        row.createdAt = createdAt := by
  induction events generalizing s with
  | nil => exact ⟨howes,hstays⟩
  | cons event events ih =>
    exact ih (h.step hf hrun.1) hrun.2 hstays.2 (h.owes_step hf hstays.here howes)

theorem Aligned.delivered (h : s.Aligned statuses timestamps)
    (hend : s.redisCursor.isFinish = true) (howes : s.Owes id createdAt)
    (hhere : ∃ row, s.json.get id = some row ∧ row.status ∈ statuses ∧ row.createdAt = createdAt) :
    (s.jsonDocs.map DocSchedulingRecord.id).count id = 1 := by
  obtain ⟨row,hget,hstatus,rfl⟩ := hhere
  obtain hahead | hdelivered := howes
  · have hredis := (h.ahead _ (Dict.get_eq_some.mp hget) hstatus).mp hahead
    cases hcursor : s.redisCursor with
    | start => simp [hcursor,Cursor.isFinish] at hend
    | after positions => simp [hcursor,Cursor.isFinish] at hend
    | finish =>
      rw [hcursor] at hredis
      exact hredis.elim
  · exact count_eq_one_of_mem h.nodup hdelivered

/-- The documents whose place JSON has ahead, in any status. -/
def unread (s : Sweeps) (id : DocId) : Bool :=
  match s.json.get id with
  | some row => s.jsonCursor.JsonAhead (sortKey id row)
  | none => false

theorem countP_lt {α : Type} {p q : α → Bool} {xs : List α} {x : α} (hx : x ∈ xs)
    (himp : ∀ y ∈ xs, p y → q y) (hq : q x = true) (hp : p x = false) :
    xs.countP p < xs.countP q := by
  induction xs with
  | nil => cases hx
  | cons y xs ih =>
    have hle : xs.countP p ≤ xs.countP q :=
      countP_mono_left fun z hz => himp z (mem_cons_of_mem _ hz)
    rw [countP_cons,countP_cons]
    rw [mem_cons] at hx
    obtain rfl | hx := hx
    · simp only [hp,hq,if_true,Bool.false_eq_true,if_false]
      omega
    · have hlt := ih hx fun z hz => himp z (mem_cons_of_mem _ hz)
      have hy := himp y mem_cons_self
      by_cases hpy : p y = true
      · simp only [hpy,hy hpy]
        omega
      · simp only [hpy,Bool.false_eq_true,if_false]
        omega

theorem Aligned.unread_page (hf : Format timestamps) (h : s.Aligned statuses timestamps)
    (hlimit : limit ≠ 0) :
    (s.step statuses (.page limit strict)).jsonCursor.isFinish = true ∨
      (s.step statuses (.page limit strict)).json.keys.countP
          (s.step statuses (.page limit strict)).unread < s.json.keys.countP s.unread := by
  obtain ⟨next,heq,-⟩ := h.page_spec hf hlimit strict
  rw [heq]
  obtain ⟨hfinish,-⟩ | ⟨last,hlast,-,hafter⟩ :=
    @jsonNext_chosen s.json statuses s.jsonCursor limit hlimit
  · left
    simp only [hfinish,Cursor.isFinish]
  · right
    obtain ⟨hin,hstatus,hkey⟩ := mem_aheadRows.mp (mem_chosen_aheadRows hlast)
    have hget := Dict.get_eq_some.mpr (show (last.1, last.2) ∈ s.json.entries from hin)
    apply countP_lt (x := last.1) (mem_map_of_mem hin)
    · intro id _
      unfold unread
      cases s.json.get id with
      | none => exact fun hfalse => hfalse
      | some row =>
        simp only [decide_eq_true_eq]
        exact jsonAhead_of_next hlimit
    · simp only [unread,hget,decide_eq_true_eq]
      exact hkey
    · simp only [unread,hget,hafter,decide_eq_false_iff_not]
      intro hlt
      exact lt_irrefl _ (hlt _ rfl)

theorem unread_write {w : Write} (hquiet : s.InsertsNothing (.write w)) :
    (s.step statuses (.write w)).json.keys.countP (s.step statuses (.write w)).unread ≤
      s.json.keys.countP s.unread := by
  cases w with
  | put id row =>
    obtain ⟨old,hold,hcreated⟩ := hquiet
    have hkeys : (jsonWrite s.json (.put id row)).keys = s.json.keys := by
      rw [jsonWrite,Dict.keys_set,if_pos (Dict.mem_keys.mpr (by simp [hold]))]
    simp only [step,hkeys]
    apply countP_mono_left
    intro id' _
    simp only [unread,jsonWrite,Dict.get_set]
    split
    · rename_i hid
      split at hid
      · rename_i heq
        obtain rfl := Option.some.inj hid
        rw [heq,hold]
        simp only [sortKey,hcreated]
        exact fun hahead => hahead
      · rw [hid]
        exact fun hahead => hahead
    · simp
  | delete id =>
    simp only [step]
    have hsub : (jsonWrite s.json (.delete id)).keys.Sublist s.json.keys :=
      filter_sublist.map Prod.fst
    apply (List.Sublist.countP_le hsub).trans'
    apply countP_mono_left
    intro id' _
    simp only [unread,jsonWrite,Dict.get_drop]
    split
    · rename_i hid
      split at hid
      · cases hid
      · rw [hid]
        exact fun hahead => hahead
    · simp

theorem jsonFinish_step (hfinish : s.jsonCursor.isFinish = true)
    (hf : Format timestamps) (h : s.Aligned statuses timestamps) :
    (s.step statuses event).jsonCursor.isFinish = true := by
  cases event with
  | write w => exact hfinish
  | page limit strict =>
    by_cases hlimit : limit = 0
    · rw [hlimit]
      exact hfinish
    · obtain ⟨next,heq,-⟩ := h.page_spec hf hlimit strict
      have hcursor : s.jsonCursor = .finish := by
        cases hcursor : s.jsonCursor with
        | start => simp [hcursor,Cursor.isFinish] at hfinish
        | after key => simp [hcursor,Cursor.isFinish] at hfinish
        | finish => rfl
      rw [heq]
      simp only [chosen_nil (.inr hcursor),jsonNext,length_nil,
        if_pos (Nat.pos_of_ne_zero hlimit),Cursor.isFinish]

theorem Aligned.ends (hf : Format timestamps) (h : s.Aligned statuses timestamps)
    (hrun : s.OrderlyRun statuses timestamps events) (hquiet : s.QuietRun statuses events)
    (hpages : s.jsonCursor.isFinish = true ∨
      s.json.keys.countP s.unread < events.countP Event.isPage) :
    (s.run statuses events).jsonCursor.isFinish = true := by
  induction events generalizing s with
  | nil =>
    obtain hfinish | hlt := hpages
    · exact hfinish
    · simp at hlt
  | cons event events ih =>
    apply ih (h.step hf hrun.1) hrun.2 hquiet.2
    obtain hfinish | hlt := hpages
    · exact .inl (jsonFinish_step hfinish hf h)
    · rw [countP_cons] at hlt
      cases event with
      | write w =>
        have hle := @unread_write statuses _ _ hquiet.1
        simp only [Event.isPage,Bool.false_eq_true,if_false] at hlt
        omega
      | page limit strict =>
        by_cases hlimit : limit = 0
        · subst hlimit
          exact .inr hlt
        · obtain hfinish | hless := @h.unread_page _ _ _ _ strict hf hlimit
          · exact .inl hfinish
          · have hone : (if (Event.page limit strict).isPage = true then 1 else 0) ≤ 1 := by
              split <;> omega
            omega

theorem sweeps_agree (statuses : List DocStatus) (timestamps : Set String)
    (hf : Format timestamps) (writes : List Write)
    (hw : ∀ w ∈ writes, ∀ id row, w = .put id row → row.createdAt ∈ timestamps)
    (events : List Event) (hrun : (begin writes).OrderlyRun statuses timestamps events) :
    let s := (begin writes).run statuses events
    s.redisDocs = s.jsonDocs ∧
    (s.redisDocs.map DocSchedulingRecord.id).Nodup ∧
    (∀ id createdAt, (begin writes).Stays statuses id createdAt events →
      s.redisCursor.isFinish = true →
      (s.redisDocs.map DocSchedulingRecord.id).count id = 1) ∧
    ∀ more, s.OrderlyRun statuses timestamps more → s.QuietRun statuses more →
      s.json.keys.length < more.countP Event.isPage →
      (s.run statuses more).redisCursor.isFinish = true ∧
        (s.run statuses more).jsonCursor.isFinish = true := by
  have hbegin : (begin writes).Aligned statuses timestamps := aligned_begin hf writes hw
  have h := hbegin.run hf hrun
  refine ⟨h.docs,h.docs ▸ h.nodup,?_,?_⟩
  · intro id createdAt hstays hend
    obtain ⟨howes,hhere⟩ := hbegin.owes_run hf hrun hstays (.inl trivial)
    rw [h.docs]
    exact h.delivered hend howes hhere
  · intro more hmore hquiet hpages
    have hend := h.ends hf hmore hquiet
      (.inr (countP_le_length.trans_lt hpages))
    exact ⟨(h.run hf hmore).ended hend,hend⟩

theorem moved_document_twice :
    let row : DocStatus → String → Row := fun status createdAt =>
      { status := status, createdAt := createdAt }
    let s := (begin [.put "a" (row .pending "1"), .put "b" (row .pending "2")]).run
      [.pending, .processing]
      [.page 1 true, .write (.put "a" (row .processing "1")), .page 1 true]
    s.redisDocs.map DocSchedulingRecord.id = ["a", "a"] ∧
      s.jsonDocs.map DocSchedulingRecord.id = ["a", "b"] := by
  decide +kernel

theorem format_digits : Format {"1", "2"} where
  bar := by
    rintro _ (rfl | rfl) <;> decide
  order := by
    rintro _ (rfl | rfl) _ (rfl | rfl) <;> decide

theorem sweeps_agree_moved_ahead :
    let row : DocStatus → String → Row := fun status createdAt =>
      { status := status, createdAt := createdAt }
    let writes := [.put "a" (row .pending "1"), .put "b" (row .pending "2")]
    let s := (begin writes).run [.pending, .processing]
      [.page 1 true, .write (.put "b" (row .processing "2")), .page 1 true]
    s.redisDocs = s.jsonDocs ∧ (s.redisDocs.map DocSchedulingRecord.id).Nodup := by
  intro row writes s
  have h := sweeps_agree [.pending, .processing] {"1", "2"} format_digits writes
    (by simp [writes,row]) [.page 1 true, .write (.put "b" (row .processing "2")), .page 1 true]
    ⟨trivial,⟨.inr rfl,fun _ => ⟨by decide +kernel,by decide +kernel⟩⟩,trivial,trivial⟩
  exact ⟨h.1,h.2.1⟩

end Sweeps

end LightRAG.SchedulingSweeps
