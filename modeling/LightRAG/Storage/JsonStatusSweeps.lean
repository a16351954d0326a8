import LightRAG.Framework.Json
import LightRAG.Query.KeywordJson
import LightRAG.Storage.SchedulingSweeps

/-!
# The cursor of a sweep of the JSON document status

The key of the last row that was read, as a JSON text, and the key that is read back from it.
-/

namespace LightRAG.JsonStatus

open LlmCache (readChar readString hexValue_hexDigit eq_ofNat_of_toNat unitValue)
open QueryPrompt (escapeChar dumpsText)
open SchedulingSweeps (Key)

def encodeCursor (key : Key) : String :=
  "[" ++ (dumpsText (ofLex key).1 ++ (", " ++ (dumpsText (ofLex key).2 ++ "]")))

/-- `_decode_cursor` of a list of two strings; nothing for a malformed cursor. -/
def decodeCursor (opaqueText : String) : Option Key :=
  match opaqueText.toList with
  | '[' :: text =>
    (readString text).bind fun created =>
      match created.2 with
      | ',' :: ' ' :: text =>
        (readString text).bind fun docId =>
          if docId.2 = [']'] then some (toLex (created.1, docId.1)) else none
      | _ => none
  | _ => none

theorem readChar_control {c : Char} (h : c.toNat < 32) (rest : List Char) :
    readChar (['\\', 'u', '0', '0', QueryPrompt.hexDigit (c.toNat / 16),
      QueryPrompt.hexDigit (c.toNat % 16)] ++ rest) = some (c, rest) := by
  have hvalue : unitValue '0' '0' (QueryPrompt.hexDigit (c.toNat / 16))
      (QueryPrompt.hexDigit (c.toNat % 16)) = c.toNat := by
    have hzero : LlmCache.hexValue '0' = 0 := by decide
    unfold unitValue
    rw [hexValue_hexDigit (by omega),hexValue_hexDigit (by omega)]
    omega
  simp only [List.cons_append,List.nil_append,readChar,LlmCache.readEscape]
  rw [hvalue,if_neg (by omega),Char.ofNat_toNat]

theorem readChar_escapeChar (c : Char) (rest : List Char) :
    readChar (escapeChar c ++ rest) = some (c, rest) := by
  unfold escapeChar
  split
  · rename_i h
    rw [h]
    rfl
  split
  · rename_i h
    rw [h]
    rfl
  rename_i hslash
  split
  · rename_i h
    rw [eq_ofNat_of_toNat h]
    rfl
  split
  · rename_i h
    rw [eq_ofNat_of_toNat h]
    rfl
  split
  · rename_i h
    rw [eq_ofNat_of_toNat h]
    rfl
  split
  · rename_i h
    rw [eq_ofNat_of_toNat h]
    rfl
  split
  · rename_i h
    rw [eq_ofNat_of_toNat h]
    rfl
  split
  · rename_i h
    exact readChar_control h rest
  · rw [List.singleton_append,readChar]
    exact fun hc => hslash hc

theorem escapeChar_ne (c : Char) : ∃ d ds, escapeChar c = d :: ds ∧ d ≠ '"' := by
  by_cases hquote : c = '"'
  · exact ⟨'\\',['"'],if_pos hquote,by decide⟩
  unfold escapeChar
  split_ifs
  all_goals first
    | exact ⟨'\\',_,rfl,by decide⟩
    | exact ⟨c,[],rfl,hquote⟩

theorem readBack_escapeChar : LlmCache.ReadBack escapeChar :=
  ⟨readChar_escapeChar,escapeChar_ne⟩

theorem readString_dumpsText (s : String) (rest : List Char) :
    readString ((dumpsText s).toList ++ rest) = some (s, rest) := by
  have hlist : (dumpsText s).toList ++ rest =
      '"' :: (s.toList.flatMap escapeChar ++ '"' :: rest) := by
    simp [dumpsText]
  rw [hlist]
  exact readBack_escapeChar.readString s rest

theorem decodeCursor_encodeCursor (key : Key) : decodeCursor (encodeCursor key) = some key := by
  have hlist : (encodeCursor key).toList = '[' :: ((dumpsText (ofLex key).1).toList ++
      (',' :: ' ' :: ((dumpsText (ofLex key).2).toList ++ [']']))) := by
    simp [encodeCursor]
  rw [decodeCursor,hlist]
  simp only [readString_dumpsText,Option.bind_some]
  simp

end LightRAG.JsonStatus

/-!
## Pages over the raw rows of the JSON document status

`JsonDocStatusStorage.get_docs_by_statuses_page`: the stored rows are any JSON values, and a row that
cannot be used is skipped or raised.
-/

namespace LightRAG.JsonStatus

open Keyset (Position)
open RedisSidecar (DocId)
open SchedulingSweeps (DocStatus Key)
open Smallest (smallest)

def statusValue : DocStatus → String
  | .pending => "pending"
  | .parsing => "parsing"
  | .analyzing => "analyzing"
  | .processing => "processing"
  | .preprocessed => "preprocessed"
  | .processed => "processed"
  | .failed => "failed"

def allStatuses : List DocStatus :=
  [.pending, .parsing, .analyzing, .processing, .preprocessed, .processed, .failed]

def docStatus (value : Json) : Option DocStatus :=
  allStatuses.find? fun status => value = .string (statusValue status)

structure DocSchedulingRecord where
  id : DocId
  status : DocStatus
  createdAt : String
  updatedAt : String
  filePath : Json
  trackId : Json
  hasCustomChunkJournal : Bool

def rowSortKey (docId : DocId) (row : Json) : Key :=
  match row.field "created_at" with
  | some (.string created) => toLex (created, docId)
  | _ => toLex ("", docId)

def customChunkPatchMetadataKey : String := "custom_chunk_patch"

def hasJournal (row : Json) : Bool :=
  match (row.field "metadata").bind (Json.field customChunkPatchMetadataKey) with
  | some journal => journal.isObject
  | none => false

/-- `row.get("file_path") or "no-file-path"`. -/
def filePathOf (row : Json) : Json :=
  match row.field "file_path" with
  | some path => if path.truthy then path else .string "no-file-path"
  | none => .string "no-file-path"

/-- `_scheduling_record_from_row`; nothing for a row that cannot be used. -/
def schedulingRecordFromRow (docId : DocId) (row : Json) : Option DocSchedulingRecord :=
  match (row.field "status").bind docStatus, row.field "created_at" with
  | some status, some (.string createdAt) =>
    match (row.field "updated_at").getD (.string createdAt) with
    | .string updatedAt =>
      some ⟨docId, status, createdAt, updatedAt, filePathOf row,
        (row.field "track_id").getD .null, hasJournal row⟩
    | _ => none
  | _, _ => none

/-- `row.get("status") in status_values`; nothing for a status that has no hash. -/
def inStatuses (statuses : List DocStatus) (row : Json) : Option Bool :=
  match row.field "status" with
  | some (.array _) => none
  | some (.object _) => none
  | some (.string s) => some (s ∈ statuses.map statusValue)
  | _ => some false

inductive PageError
  | limit
  | malformedCursor
  | notMapping (docId : DocId)
  | unhashableStatus (docId : DocId)
  | unusableRow (docId : DocId)
deriving DecidableEq

structure DocStatusPage where
  docs : List DocSchedulingRecord
  nextPosition : Position String

def isAfter (last : Option Key) (key : Key) : Bool :=
  match last with
  | some last => last < key
  | none => true

def candidates (statuses : List DocStatus) (last : Option Key) (strict : Bool) :
    List (DocId × Json) → Except PageError (List (DocId × Json))
  | [] => .ok []
  | e :: rest =>
    if ! e.2.isObject then
      if strict then .error (.notMapping e.1) else candidates statuses last strict rest
    else
      match inStatuses statuses e.2 with
      | none => .error (.unhashableStatus e.1)
      | some false => candidates statuses last strict rest
      | some true =>
        if isAfter last (rowSortKey e.1 e.2) then
          (candidates statuses last strict rest).map (e :: ·)
        else candidates statuses last strict rest

/-- The records of the selected rows; a relaxed page skips those that cannot be used. -/
def records (strict : Bool) : List (DocId × Json) → Except PageError (List DocSchedulingRecord)
  | [] => .ok []
  | e :: rest =>
    match schedulingRecordFromRow e.1 e.2 with
    | some record => (records strict rest).map (record :: ·)
    | none => if strict then .error (.unusableRow e.1) else records strict rest

def lastKey : Position String → Except PageError (Option Key)
  | .after text =>
    match decodeCursor text with
    | some key => .ok (some key)
    | none => .error .malformedCursor
  | _ => .ok none

def entryKey (e : DocId × Json) : Key := rowSortKey e.1 e.2

def nextPosition (limit : ℕ) (selected : List (DocId × Json)) : Position String :=
  if selected.length < limit then .finish
  else
    match selected.getLast? with
    | some e => .after (encodeCursor (entryKey e))
    | none => .finish

def selectedRows (data : Dict DocId Json) (statuses : List DocStatus) (limit : ℕ)
    (position : Position String) (strict : Bool) : Except PageError (List (DocId × Json)) :=
  (lastKey position).bind fun last =>
    (candidates statuses last strict data.entries).map (smallest entryKey limit)

def getDocsByStatusesPage (data : Dict DocId Json) (statuses : List DocStatus) (limit : ℕ)
    (position : Position String) (strict : Bool) : Except PageError DocStatusPage :=
  if limit = 0 then .error .limit
  else if statuses = [] ∨ position = .finish then .ok ⟨[], .finish⟩
  else
    (selectedRows data statuses limit position strict).bind fun selected =>
      (records strict selected).map fun docs => ⟨docs, nextPosition limit selected⟩

end LightRAG.JsonStatus

/-!
## Sweeps over the JSON document status

A sweep reads pages from the start while rows are written.
-/

namespace LightRAG.JsonStatus
open List

open Keyset (Position Passes Read)
open RedisSidecar (DocId)
open SchedulingSweeps (DocStatus Key)
open Smallest (smallest)

instance (p : Position Key) (k : Key) : Decidable (p.Ahead k) :=
  match p with
  | .start => isTrue trivial
  | .after last => inferInstanceAs (Decidable (last < k))
  | .finish => isFalse id

def encodePosition : Position Key → Position String
  | .start => .start
  | .after k => .after (encodeCursor k)
  | .finish => .finish

def aheadRows (data : Dict DocId Json) (statuses : List DocStatus) (p : Position Key) :
    List (DocId × Json) :=
  data.entries.filter fun e => inStatuses statuses e.2 = some true ∧ p.Ahead (entryKey e)

def pageRows (data : Dict DocId Json) (statuses : List DocStatus) (limit : ℕ) (p : Position Key) :
    List (DocId × Json) := smallest entryKey limit (aheadRows data statuses p)

def recordKey (r : DocSchedulingRecord) : Key := toLex (r.createdAt, r.id)

section

variable {data : Dict DocId Json} {statuses : List DocStatus} {limit : ℕ} {strict : Bool}
  {p : Position Key} {last : Option Key} {e e' : DocId × Json} {es cs : List (DocId × Json)}
  {record : DocSchedulingRecord} {rs : List DocSchedulingRecord}

theorem encodePosition_eq_finish : encodePosition p = .finish ↔ p = .finish := by
  cases p <;> simp [encodePosition]

theorem snd_rowSortKey (docId : DocId) (row : Json) : (ofLex (rowSortKey docId row)).2 = docId := by
  unfold rowSortKey
  split <;> rfl

theorem nodup_entryKey : (data.entries.map entryKey).Nodup := by
  apply List.Nodup.map_on _ (List.Nodup.of_map _ data.nodup)
  intro e he e' he' heq
  apply inj_on_of_nodup_map data.nodup he he'
  rw [← snd_rowSortKey e.1 e.2,← snd_rowSortKey e'.1 e'.2]
  exact congrArg (fun k => (ofLex k).2) heq

theorem mem_aheadRows : e ∈ aheadRows data statuses p ↔
    e ∈ data.entries ∧ inStatuses statuses e.2 = some true ∧ p.Ahead (entryKey e) := by
  rw [aheadRows,mem_filter,decide_eq_true_eq]

theorem nodup_aheadRows : ((aheadRows data statuses p).map entryKey).Nodup :=
  nodup_entryKey.sublist (filter_sublist.map _)

theorem inStatuses_nil (row : Json) : inStatuses [] row ≠ some true := by
  unfold inStatuses
  split <;> simp

theorem inStatuses_of_not_object {row : Json} (h : row.isObject = false) :
    inStatuses statuses row = some false := by
  cases row with
  | object fields => cases h
  | _ => rfl

theorem aheadRows_nil (h : statuses = [] ∨ p = .finish) : aheadRows data statuses p = [] := by
  apply filter_eq_nil_iff.mpr
  intro e _ he
  rw [decide_eq_true_eq] at he
  cases h with
  | inl hnil =>
    rw [hnil] at he
    exact inStatuses_nil _ he.1
  | inr hfinish =>
    rw [hfinish] at he
    exact he.2

theorem candidates_ok (h : candidates statuses last strict es = .ok cs) :
    cs = es.filter fun e => inStatuses statuses e.2 = some true ∧ isAfter last (entryKey e) := by
  induction es generalizing cs with
  | nil =>
    cases h
    rfl
  | cons e es ih =>
    rw [candidates] at h
    rw [filter_cons]
    by_cases hobject : e.2.isObject = true
    · rw [if_neg (by rw [hobject]; decide)] at h
      cases hin : inStatuses statuses e.2 with
      | none =>
        rw [hin] at h
        cases h
      | some b =>
        rw [hin] at h
        cases b with
        | false => simpa using ih h
        | true =>
          by_cases hafter : isAfter last (entryKey e) = true
          · rw [entryKey] at hafter
            rw [if_pos hafter] at h
            cases hrest : candidates statuses last strict es with
            | error _ =>
              rw [hrest] at h
              cases h
            | ok rest =>
              rw [hrest] at h
              cases h
              rw [if_pos (by simpa [entryKey] using hafter),ih hrest]
          · rw [if_neg (show ¬ isAfter last (rowSortKey e.1 e.2) = true from hafter)] at h
            rw [if_neg (by simpa using hafter)]
            exact ih h
    · rw [Bool.not_eq_true] at hobject
      rw [if_pos (by rw [hobject]; decide)] at h
      rw [inStatuses_of_not_object hobject]
      cases strict with
      | true => cases h
      | false => simpa using ih h

theorem candidates_relaxed (last : Option Key)
    (h : ∀ e ∈ es, inStatuses statuses e.2 ≠ none) :
    ∃ cs, candidates statuses last false es = .ok cs := by
  induction es with
  | nil => exact ⟨[],rfl⟩
  | cons e es ih =>
    obtain ⟨cs,hcs⟩ := ih fun e' he' => h e' (mem_cons_of_mem _ he')
    rw [candidates,hcs]
    by_cases hobject : (! e.2.isObject) = true
    · exact ⟨cs,by rw [if_pos hobject]; rfl⟩
    rw [if_neg hobject]
    cases hin : inStatuses statuses e.2 with
    | none => exact absurd hin (h e mem_cons_self)
    | some b =>
      cases b with
      | false => exact ⟨cs,rfl⟩
      | true =>
        dsimp only
        split
        · exact ⟨e :: cs,rfl⟩
        · exact ⟨cs,rfl⟩

theorem records_ok (h : records strict es = .ok rs) :
    rs = es.filterMap fun e => schedulingRecordFromRow e.1 e.2 := by
  induction es generalizing rs with
  | nil =>
    cases h
    rfl
  | cons e es ih =>
    rw [records] at h
    rw [filterMap_cons]
    cases hrecord : schedulingRecordFromRow e.1 e.2 with
    | none =>
      rw [hrecord] at h
      cases strict with
      | true => cases h
      | false => exact ih h
    | some record =>
      rw [hrecord] at h
      cases hrest : records strict es with
      | error _ =>
        rw [hrest] at h
        cases h
      | ok rest =>
        rw [hrest] at h
        cases h
        rw [ih hrest]

theorem records_relaxed (es : List (DocId × Json)) : ∃ rs, records false es = .ok rs := by
  induction es with
  | nil => exact ⟨[],rfl⟩
  | cons e es ih =>
    obtain ⟨rs,hrs⟩ := ih
    rw [records,hrs]
    cases schedulingRecordFromRow e.1 e.2 with
    | none => exact ⟨rs,rfl⟩
    | some record => exact ⟨record :: rs,rfl⟩

theorem recordKey_eq {docId : DocId} {row : Json}
    (h : schedulingRecordFromRow docId row = some record) :
    recordKey record = rowSortKey docId row ∧ record.id = docId := by
  unfold schedulingRecordFromRow at h
  unfold rowSortKey
  split at h
  · rename_i hcreated
    split at h
    · cases h
      rw [hcreated]
      exact ⟨rfl,rfl⟩
    · cases h
  · cases h

theorem lastKey_encode (hp : p ≠ .finish) : ∃ last, lastKey (encodePosition p) = .ok last ∧
    ∀ k, isAfter last k = true ↔ p.Ahead k := by
  cases p with
  | start => exact ⟨none,rfl,fun k => ⟨fun _ => trivial,fun _ => rfl⟩⟩
  | after k =>
    refine ⟨some k,?_,fun k' => decide_eq_true_iff⟩
    rw [encodePosition,lastKey,decodeCursor_encodeCursor]
  | finish => exact absurd rfl hp

theorem selectedRows_ok (hp : p ≠ .finish)
    (h : selectedRows data statuses limit (encodePosition p) strict = .ok cs) :
    cs = pageRows data statuses limit p := by
  obtain ⟨last,hlast,hafter⟩ := lastKey_encode hp
  rw [selectedRows,hlast] at h
  cases hcandidates : candidates statuses last strict data.entries with
  | error _ =>
    simp only [Except.bind,hcandidates] at h
    cases h
  | ok found =>
    simp only [Except.bind,hcandidates] at h
    cases h
    rw [candidates_ok hcandidates,pageRows,aheadRows]
    simp only [hafter]

theorem nextPosition_eq (limit : ℕ) (es : List (DocId × Json)) :
    nextPosition limit es = encodePosition (Keyset.next limit (es.map entryKey)) := by
  unfold nextPosition Keyset.next
  rw [length_map]
  split
  · rfl
  · rw [List.getLast?_map]
    cases es.getLast? <;> rfl

theorem pageRows_nil (h : statuses = [] ∨ p = .finish) : pageRows data statuses limit p = [] := by
  rw [pageRows,aheadRows_nil h]
  simp [smallest,Smallest.sorted]

theorem page_ok {page : DocStatusPage}
    (h : getDocsByStatusesPage data statuses limit (encodePosition p) strict = .ok page) :
    0 < limit ∧
      page.docs = (pageRows data statuses limit p).filterMap
        (fun e => schedulingRecordFromRow e.1 e.2) ∧
      page.nextPosition =
        encodePosition (Keyset.next limit ((pageRows data statuses limit p).map entryKey)) := by
  unfold getDocsByStatusesPage at h
  by_cases hzero : limit = 0
  · rw [if_pos hzero] at h
    cases h
  rw [if_neg hzero] at h
  have hlimit : 0 < limit := Nat.pos_of_ne_zero hzero
  refine ⟨hlimit,?_⟩
  by_cases hend : statuses = [] ∨ encodePosition p = .finish
  · rw [if_pos hend] at h
    cases h
    rw [pageRows_nil (hend.imp id encodePosition_eq_finish.mp),Keyset.next,map_nil,
      length_nil,if_pos hlimit]
    exact ⟨rfl,rfl⟩
  · rw [if_neg hend] at h
    have hp : p ≠ .finish := fun heq => hend (.inr (encodePosition_eq_finish.mpr heq))
    cases hselected : selectedRows data statuses limit (encodePosition p) strict with
    | error _ =>
      simp only [hselected] at h
      cases h
    | ok found =>
      obtain rfl := selectedRows_ok hp hselected
      cases hdocs : records strict (pageRows data statuses limit p) with
      | error _ =>
        simp only [Except.bind,hselected,hdocs] at h
        cases h
      | ok docs =>
        simp only [Except.bind,hselected,hdocs] at h
        cases h
        exact ⟨records_ok hdocs,nextPosition_eq limit _⟩

theorem page_relaxed (hlimit : 0 < limit)
    (hhash : ∀ e ∈ data.entries, inStatuses statuses e.2 ≠ none) :
    ∃ page, getDocsByStatusesPage data statuses limit (encodePosition p) false = .ok page := by
  unfold getDocsByStatusesPage
  rw [if_neg (by omega)]
  by_cases hend : statuses = [] ∨ encodePosition p = .finish
  · exact ⟨_,if_pos hend⟩
  · rw [if_neg hend]
    have hp : p ≠ .finish := fun heq => hend (.inr (encodePosition_eq_finish.mpr heq))
    obtain ⟨last,hlast,-⟩ := lastKey_encode hp
    obtain ⟨found,hfound⟩ := candidates_relaxed last hhash
    obtain ⟨docs,hdocs⟩ := records_relaxed (smallest entryKey limit found)
    rw [selectedRows,hlast]
    simp only [Except.bind,hfound]
    rw [show Except.map (smallest entryKey limit) (.ok found : Except PageError _) =
      .ok (smallest entryKey limit found) from rfl]
    simp only [hdocs]
    exact ⟨_,rfl⟩

end

end LightRAG.JsonStatus
