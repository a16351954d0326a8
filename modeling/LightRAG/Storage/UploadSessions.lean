import LightRAG.Framework.Dict
import LightRAG.Framework.Run

/-!
# Upload sessions

The records of presigned uploads in a namespace of a `BaseKVStorage`, and the operations on them.
-/

namespace LightRAG.UploadSessions

abbrev Time := Int

inductive Value
  | null
  | text (s : String)
  | int (n : Int)
deriving DecidableEq

abbrev Record := Dict String Value

/-- `datetime.isoformat` and `datetime.fromisoformat`. -/
structure Calendar where
  isoformat : Time → String
  fromisoformat : String → Option Time

inductive Status
  | issued
  | completed
  | aborted
  | expired
deriving DecidableEq

def Status.text : Status → String
  | .issued => "issued"
  | .completed => "completed"
  | .aborted => "aborted"
  | .expired => "expired"

structure UploadSession where
  uploadId : String
  workspace : String
  bucket : String
  objectKey : String
  filename : String
  canonicalFilePath : String
  contentType : String
  declaredSize : Int
  checksumSha256 : Option String
  status : Status
  createdAt : Time
  expiresAt : Time
  completedAt : Option Time
  objectEtag : Option String
  objectSize : Option Int
  objectContentType : Option String
  trackId : Option String
  enqueuedAt : Option Time
deriving DecidableEq

inductive Error
  | typeError
  | notFound
  | expired
  | mismatch
  | conflict
deriving DecidableEq

/-- The parameters of `UploadSession.__init__`. -/
def fields : List String :=
  ["upload_id", "workspace", "bucket", "object_key", "filename", "canonical_file_path",
    "content_type", "declared_size", "checksum_sha256", "status", "created_at", "expires_at",
    "completed_at", "object_etag", "object_size", "object_content_type", "track_id", "enqueued_at"]

def optText : Option String → Value
  | none => .null
  | some s => .text s

def optTime (c : Calendar) : Option Time → Value
  | none => .null
  | some t => .text (c.isoformat t)

/-- The items of `asdict`. -/
def UploadSession.entries (c : Calendar) (s : UploadSession) : List (String × Value) :=
  [ ("upload_id", .text s.uploadId), ("workspace", .text s.workspace), ("bucket", .text s.bucket),
    ("object_key", .text s.objectKey), ("filename", .text s.filename),
    ("canonical_file_path", .text s.canonicalFilePath), ("content_type", .text s.contentType),
    ("declared_size", .int s.declaredSize), ("checksum_sha256", optText s.checksumSha256),
    ("status", .text s.status.text), ("created_at", .text (c.isoformat s.createdAt)),
    ("expires_at", .text (c.isoformat s.expiresAt)), ("completed_at", optTime c s.completedAt),
    ("object_etag", optText s.objectEtag),
    ("object_size", (s.objectSize.map Value.int).getD .null),
    ("object_content_type", optText s.objectContentType), ("track_id", optText s.trackId),
    ("enqueued_at", optTime c s.enqueuedAt)]

def UploadSession.toRecord (c : Calendar) (s : UploadSession) : Record :=
  Dict.empty.update (s.entries c)

section Parsing

variable (c : Calendar) (data : Record)

def text (key : String) : Except Error String :=
  match data.get key with
  | some (.text s) => .ok s
  | _ => .error .typeError

def int (key : String) : Except Error Int :=
  match data.get key with
  | some (.int n) => .ok n
  | _ => .error .typeError

def time (key : String) : Except Error Time :=
  match data.get key with
  | some (.text s) => ((c.fromisoformat s).map Except.ok).getD (.error .typeError)
  | _ => .error .typeError

/-- A parameter with the default `None`. -/
def orNone {α : Type} (parse : String → Except Error α) (key : String) : Except Error (Option α) :=
  match data.get key with
  | none | some .null => .ok none
  | _ => (parse key).map some

def status (key : String) : Except Error Status := do
  match ← text data key with
  | "issued" => .ok .issued
  | "completed" => .ok .completed
  | "aborted" => .ok .aborted
  | "expired" => .ok .expired
  | _ => .error .typeError

end Parsing

/-- `from_record`: a keyword that is no field is a `TypeError`. -/
def fromRecord (c : Calendar) (record : Record) : Except Error UploadSession := do
  let data := record.drop fun key => key = "_id" ∨ key = "id"
  if ¬ data.keys ⊆ fields then throw .typeError
  return {
    uploadId := ← text data "upload_id"
    workspace := ← text data "workspace"
    bucket := ← text data "bucket"
    objectKey := ← text data "object_key"
    filename := ← text data "filename"
    canonicalFilePath := ← text data "canonical_file_path"
    contentType := ← text data "content_type"
    declaredSize := ← int data "declared_size"
    checksumSha256 := ← orNone data (text data) "checksum_sha256"
    status := ← status data "status"
    createdAt := ← time c data "created_at"
    expiresAt := ← time c data "expires_at"
    completedAt := ← orNone data (time c data) "completed_at"
    objectEtag := ← orNone data (text data) "object_etag"
    objectSize := ← orNone data (int data) "object_size"
    objectContentType := ← orNone data (text data) "object_content_type"
    trackId := ← orNone data (text data) "track_id"
    enqueuedAt := ← orNone data (time c data) "enqueued_at" }

section

variable {c : Calendar} {s : UploadSession} {key : String} {data : Record}

theorem entries_keys : (s.entries c).map Prod.fst = fields := rfl

theorem get_toRecord {value : Value} (h : (key, value) ∈ s.entries c) :
    (s.toRecord c).get key = some value := by
  refine Dict.get_update_of_mem ?_ h
  rw [entries_keys]
  decide

theorem text_of_get {value : String} (h : data.get key = some (.text value)) :
    text data key = .ok value := by
  rw [text,h]

theorem int_of_get {value : Int} (h : data.get key = some (.int value)) :
    int data key = .ok value := by
  rw [int,h]

theorem orNone_text {value : Option String} (h : data.get key = some (optText value)) :
    orNone data (text data) key = .ok value := by
  cases value with
  | none => simp [orNone,h,optText]
  | some value =>
    simp only [orNone,h,text_of_get h]
    rfl

/-- The times of a session are read back from their texts. -/
def UploadSession.Dated (c : Calendar) (s : UploadSession) : Prop :=
  ∀ t ∈ [s.createdAt, s.expiresAt] ++ s.completedAt.toList ++ s.enqueuedAt.toList,
    c.fromisoformat (c.isoformat t) = some t

theorem time_of_get {t : Time} (hparses : c.fromisoformat (c.isoformat t) = some t)
    (h : data.get key = some (.text (c.isoformat t))) : time c data key = .ok t := by
  simp only [time,h,hparses]
  rfl

theorem orNone_time {value : Option Time}
    (hparses : ∀ t ∈ value.toList, c.fromisoformat (c.isoformat t) = some t)
    (h : data.get key = some (optTime c value)) : orNone data (time c data) key = .ok value := by
  cases value with
  | none => simp [orNone,h,optTime]
  | some t =>
    simp only [orNone,h,time_of_get (hparses t (by simp)) h]
    rfl

theorem orNone_int {value : Option Int}
    (h : data.get key = some ((value.map Value.int).getD .null)) :
    orNone data (int data) key = .ok value := by
  cases value with
  | none => simp [orNone,h]
  | some n =>
    simp only [orNone,h,int]
    rfl

theorem status_of_get {value : Status} (h : data.get key = some (.text value.text)) :
    status data key = .ok value := by
  rw [status,text_of_get h]
  cases value <;> rfl

end

/-- A `BaseKVStorage`: the row that `upsert` stores over an old one, and the row that a read
returns of a stored one. -/
structure KvStorage where
  stored : Option Record → Record → Record
  read : String → Record → Record

/-- The contract of `BaseKVStorage`: the storage stamps its rows, and keeps and returns the rest. -/
structure KvStorage.Lawful (b : KvStorage) : Prop where
  stamped : ∀ old v, (b.stored old v).get "create_time" ≠ none ∧
    (b.stored old v).get "update_time" ≠ none
  kept : ∀ old v key, key ≠ "create_time" → key ≠ "update_time" → key ≠ "_id" →
    (b.stored old v).get key = v.get key
  returned : ∀ id row key, key ≠ "_id" → row.get key ≠ none → (b.read id row).get key = row.get key

def normalizeKvCreateTime : Option Value → Int
  | some (.int n) => n
  | some (.text s) => (s.toInt?).getD 0
  | _ => 0

/-- `JsonKVStorage.upsert` and `get_by_id` at a time. -/
def jsonKvStorage (currentTime : Int) : KvStorage where
  stored old v :=
    let createTime := match old with
      | some existing => normalizeKvCreateTime (existing.get "create_time")
      | none => currentTime
    ((v.set "update_time" (.int currentTime)).set "create_time" (.int createTime)).set "_id" .null
  read id row :=
    let row := if (row.get "create_time").isSome then row else row.set "create_time" (.int 0)
    let row := if (row.get "update_time").isSome then row else row.set "update_time" (.int 0)
    row.set "_id" (.text id)

theorem jsonKvStorage_lawful (currentTime : Int) : (jsonKvStorage currentTime).Lawful where
  stamped old v := by
    simp [jsonKvStorage,Dict.get_set]
  kept old v key hc hu hid := by
    simp [jsonKvStorage,Dict.get_set,hc,hu,hid]
  returned id row key hid hrow := by
    simp only [jsonKvStorage,Dict.get_set,if_neg hid]
    have hset : ∀ (r : Record) (k : String) (x : Value), r.get key = row.get key →
        (if (r.get k).isSome then r else r.set k x).get key = row.get key := by
      intro r k x hr
      split
      · exact hr
      · rename_i hnone
        rw [Dict.get_set,if_neg]
        · exact hr
        · rintro rfl
          rw [hr] at hnone
          exact hnone (Option.isSome_iff_ne_none.mpr hrow)
    exact hset _ _ _ (hset _ _ _ rfl)

/-- The rows of the namespace `upload_sessions`. -/
abbrev Rows := Dict String Record

structure ObjectMetadata where
  key : String
  size : Int
  contentType : Option String
  checksumSha256 : Option String
  etag : Option String

/-- The manager: its storage, its clock at the moment of the call, and the release retention. -/
structure Manager where
  calendar : Calendar
  storage : KvStorage
  now : Time
  acceptedBeforeExpiry : String → Bool
  sourceCleanup : String → Bool

namespace Manager

variable (m : Manager) (rows : Rows)

/-- `KVUploadSessionStore.get`; a row without any field counts as none. -/
def get (uploadId : String) : Except Error (Option UploadSession) :=
  match rows.get uploadId with
  | none => .ok none
  | some row =>
    if (m.storage.read uploadId row).keys = [] then .ok none
    else (fromRecord m.calendar (m.storage.read uploadId row)).map some

def put (session : UploadSession) : Rows :=
  rows.set session.uploadId
    (m.storage.stored (rows.get session.uploadId) (session.toRecord m.calendar))

def list : Except Error (List UploadSession) :=
  rows.entries.mapM fun e => fromRecord m.calendar e.2

def getSession (uploadId : String) : Except Error UploadSession := do
  match ← m.get rows uploadId with
  | none => throw .notFound
  | some session => return session

def validateCompletion (session : UploadSession) (workspace objectKey : String)
    (metadata : ObjectMetadata) : Except Error Unit :=
  if session.workspace ≠ workspace then throw .mismatch
  else if objectKey ≠ session.objectKey ∨ metadata.key ≠ session.objectKey then throw .mismatch
  else if metadata.size ≠ session.declaredSize then throw .mismatch
  else if metadata.contentType.any fun t => t ≠ "" ∧ t ≠ session.contentType then throw .mismatch
  else if (session.checksumSha256.getD "") ≠ "" ∧
      (metadata.checksumSha256.getD "").toLower ≠ (session.checksumSha256.getD "").toLower then
    throw .mismatch
  else pure ()

def completeSession (uploadId workspace objectKey : String) (metadata : ObjectMetadata) :
    Rows × Except Error UploadSession :=
  match m.getSession rows uploadId with
  | .error e => (rows, .error e)
  | .ok session =>
    match session.status with
    | .completed => (rows, (validateCompletion session workspace objectKey metadata).map fun _ =>
        session)
    | .issued =>
      if session.expiresAt < m.now ∧ m.acceptedBeforeExpiry uploadId = false then
        (m.put rows { session with status := .expired }, .error .expired)
      else
        match validateCompletion session workspace objectKey metadata with
        | .error e => (rows, .error e)
        | .ok () =>
          let completed := { session with
            status := .completed
            completedAt := some m.now
            objectEtag := metadata.etag
            objectSize := some metadata.size
            objectContentType := metadata.contentType }
          (m.put rows completed, .ok completed)
    | _ => (rows, .error .conflict)

def abortSession (uploadId workspace : String) : Rows × Except Error UploadSession :=
  match m.getSession rows uploadId with
  | .error e => (rows, .error e)
  | .ok session =>
    if session.workspace ≠ workspace then (rows, .error .mismatch)
    else if session.status = .completed then (rows, .error .conflict)
    else
      let aborted := { session with status := .aborted }
      (m.put rows aborted, .ok aborted)

def markEnqueued (uploadId workspace trackId : String) : Rows × Except Error UploadSession :=
  match m.getSession rows uploadId with
  | .error e => (rows, .error e)
  | .ok session =>
    if session.workspace ≠ workspace then (rows, .error .mismatch)
    else if session.status ≠ .completed then (rows, .error .conflict)
    else if (session.trackId.getD "") ≠ "" then
      (rows, if session.trackId = some trackId then .ok session else .error .conflict)
    else
      let enqueued := { session with trackId := some trackId, enqueuedAt := some m.now }
      (m.put rows enqueued, .ok enqueued)

/-- `cleanup_abandoned_uploads`: the rows after it, and the sessions whose prefix it deleted. -/
def cleanupAbandonedUploads (limit : Time) : Rows × Except Error (List UploadSession) :=
  match m.list rows with
  | .error e => (rows, .error e)
  | .ok sessions =>
    let abandoned := (sessions.filter fun session =>
      session.status = .issued ∧ session.expiresAt < limit ∧ m.sourceCleanup session.uploadId).map
        fun session => { session with status := .expired }
    (abandoned.foldl m.put rows, .ok abandoned)

end Manager

/-- A request to the sessions of a namespace; `create_session` puts a new one. -/
inductive Call
  | create (session : UploadSession)
  | complete (uploadId workspace objectKey : String) (metadata : ObjectMetadata)
  | abort (uploadId workspace : String)
  | markEnqueued (uploadId workspace trackId : String)
  | cleanup (limit : Time)

def Manager.perform (m : Manager) (rows : Rows) : Call → Rows × Bool
  | .create session => (m.put rows session, true)
  | .complete uploadId workspace objectKey metadata =>
    (m.completeSession rows uploadId workspace objectKey metadata).map id Except.toBool
  | .abort uploadId workspace => (m.abortSession rows uploadId workspace).map id Except.toBool
  | .markEnqueued uploadId workspace trackId =>
    (m.markEnqueued rows uploadId workspace trackId).map id Except.toBool
  | .cleanup limit => (m.cleanupAbandonedUploads rows limit).map id Except.toBool

/-- A call of any process; the processes differ in the clock and the retention only. -/
def Step (storage : KvStorage) (calendar : Calendar) (rows : Rows) (call : Call) (rows' : Rows) :
    Prop :=
  ∃ m : Manager, m.storage = storage ∧ m.calendar = calendar ∧ rows' = (m.perform rows call).1

section

variable {m : Manager} {rows rows' : Rows} {row record : Record} {c : Calendar} {b : KvStorage}
  {uploadId : String} {session : UploadSession} {calls : List Call}

theorem fromRecord_stamped (h : record.get "create_time" ≠ none) :
    fromRecord c record = .error .typeError := by
  have hdata : "create_time" ∈ (record.drop fun key => key = "_id" ∨ key = "id").keys := by
    rw [Dict.mem_keys,Dict.get_drop]
    exact h
  have hunknown : ¬ (record.drop fun key => key = "_id" ∨ key = "id").keys ⊆ fields := by
    intro hsub
    exact absurd (hsub hdata) (by decide)
  unfold fromRecord
  simp only [if_pos hunknown]
  rfl

def Stamped (row : Record) : Prop := row.get "create_time" ≠ none

theorem get_stamped (h : m.storage.Lawful) (hrow : rows.get uploadId = some row)
    (hstamped : Stamped row) : m.get rows uploadId = .error .typeError := by
  have hread : (m.storage.read uploadId row).get "create_time" ≠ none := by
    rw [h.returned uploadId row _ (by decide) hstamped]
    exact hstamped
  have hkeys : (m.storage.read uploadId row).keys ≠ [] := by
    have hmem := Dict.mem_keys.mpr hread
    intro hnil
    rw [hnil] at hmem
    cases hmem
  unfold Manager.get
  simp only [hrow,if_neg hkeys,fromRecord_stamped hread]
  rfl

def AllStamped (rows : Rows) : Prop := ∀ uploadId row, rows.get uploadId = some row → Stamped row

theorem allStamped_put (h : m.storage.Lawful) (hrows : AllStamped rows) :
    AllStamped (m.put rows session) := by
  intro uploadId row hrow
  rw [Manager.put,Dict.get_set] at hrow
  split at hrow
  · rw [← Option.some.inj hrow]
    exact (h.stamped _ _).1
  · exact hrows uploadId row hrow

theorem getSession_stamped (uploadId : String) (h : m.storage.Lawful)
    (hrows : AllStamped rows) :
    ∃ e, m.getSession rows uploadId = .error e ∧
      (rows.get uploadId ≠ none → e = .typeError) := by
  unfold Manager.getSession
  cases hrow : rows.get uploadId with
  | none =>
    have hget : m.get rows uploadId = .ok none := by
      unfold Manager.get
      rw [hrow]
    rw [hget]
    exact ⟨.notFound,rfl,fun hne => absurd rfl hne⟩
  | some row =>
    rw [get_stamped h hrow (hrows uploadId row hrow)]
    exact ⟨.typeError,rfl,fun _ => rfl⟩

theorem list_stamped (hrows : AllStamped rows) (hsome : rows.entries ≠ []) :
    m.list rows = .error .typeError := by
  unfold Manager.list
  match hentries : rows.entries with
  | [] => exact absurd hentries hsome
  | e :: es =>
    have hget : rows.get e.1 = some e.2 := by
      rw [Dict.get_eq_some,hentries]
      exact List.mem_cons_self
    rw [List.mapM_cons,fromRecord_stamped (hrows e.1 e.2 hget)]
    rfl

theorem perform_stamped (h : m.storage.Lawful) (hrows : AllStamped rows) (call : Call) :
    (∃ session, call = .create session) ∨
      (m.perform rows call).1 = rows ∧
        ((m.perform rows call).2 = true → ∃ limit, call = .cleanup limit ∧ rows.entries = []) := by
  cases call with
  | create session => exact .inl ⟨session,rfl⟩
  | complete uploadId workspace objectKey metadata =>
    obtain ⟨e,he,-⟩ := getSession_stamped uploadId h hrows
    simp only [Manager.perform,Manager.completeSession,he]
    exact .inr ⟨rfl,fun hok => nomatch hok⟩
  | abort uploadId workspace =>
    obtain ⟨e,he,-⟩ := getSession_stamped uploadId h hrows
    simp only [Manager.perform,Manager.abortSession,he]
    exact .inr ⟨rfl,fun hok => nomatch hok⟩
  | markEnqueued uploadId workspace trackId =>
    obtain ⟨e,he,-⟩ := getSession_stamped uploadId h hrows
    simp only [Manager.perform,Manager.markEnqueued,he]
    exact .inr ⟨rfl,fun hok => nomatch hok⟩
  | cleanup limit =>
    by_cases hsome : rows.entries = []
    · refine .inr ⟨?_,fun _ => ⟨limit,rfl,hsome⟩⟩
      simp only [Manager.perform,Manager.cleanupAbandonedUploads,Manager.list,hsome]
      rfl
    · simp only [Manager.perform,Manager.cleanupAbandonedUploads,list_stamped hrows hsome]
      exact .inr ⟨rfl,fun hok => nomatch hok⟩

theorem run_stamped (h : b.Lawful) (hrun : Run (Step b c) Dict.empty calls rows) :
    AllStamped rows := by
  refine hrun.preserves (I := AllStamped) ?_ fun uploadId row hrow => nomatch hrow
  rintro rows call rows' ⟨m,rfl,rfl,rfl⟩ hrows
  obtain ⟨session,rfl⟩ | ⟨hsame,-⟩ := perform_stamped h hrows call
  · exact allStamped_put h hrows
  · rw [hsame]
    exact hrows

end

private def unixCalendar : Calendar where
  isoformat t := if t = 0 then "1970-01-01T00:00:00+00:00" else "1970-01-01T00:15:00+00:00"
  fromisoformat s :=
    if s = "1970-01-01T00:00:00+00:00" then some 0
    else if s = "1970-01-01T00:15:00+00:00" then some 900
    else none

private def jsonManager : Manager :=
  ⟨unixCalendar, jsonKvStorage 0, 0, fun _ => false, fun _ => true⟩

private def smallUpload : UploadSession where
  uploadId := "upload_a"
  workspace := ""
  bucket := "b"
  objectKey := "uploads/default/upload_a/a.txt"
  filename := "a.txt"
  canonicalFilePath := "a.txt"
  contentType := "text/plain"
  declaredSize := 1
  checksumSha256 := none
  status := .issued
  createdAt := 0
  expiresAt := 900
  completedAt := none
  objectEtag := none
  objectSize := none
  objectContentType := none
  trackId := none
  enqueuedAt := none

end LightRAG.UploadSessions
