import LightRAG.Framework.Recent
import LightRAG.Framework.Transaction

/-!
# The pipeline ingress

One ingress of a workspace has a bounded document channel, an auto-rescan flag and a sticky manual
channel.
-/

namespace LightRAG.Pipeline
open Tx Table

inductive Kind
  | document
  | rescan
deriving DecidableEq

/-- `PipelineIngressMessage`. -/
structure Message where
  kind : Kind
  docId : Option String
  retryFailed : Bool
  requestId : Option String
deriving DecidableEq

/-- `ManualRetryPublishResult`. -/
inductive PublishResult
  | accepted
  | alreadyTerminal
  | capacityExceeded
deriving DecidableEq

inductive TerminalState
  | acked
  | cancelledByClear
deriving DecidableEq

/-- A `ValueError`: its text, and the message and the request id that the text quotes. -/
structure ValueError where
  text : String
  message : Option Message
  requestId : Option String
deriving DecidableEq

def truthy (s : Option String) : Bool := s.any fun s => s ≠ ""

def validateDocumentMessage (msg : Message) : Except ValueError Unit :=
  if msg.kind ≠ .document || !truthy msg.docId then
    .error ⟨"document channel requires kind='document' with a non-empty doc_id", some msg, none⟩
  else if msg.retryFailed || msg.requestId.isSome then
    .error ⟨"document messages must not carry control fields (retry_failed/request_id)", some msg,
      none⟩
  else .ok ()

def validateManualRequest (requestId : String) (msg : Message) : Except ValueError Unit :=
  if requestId = "" then .error ⟨"manual retry requires a non-empty request_id", none, none⟩
  else if msg.kind ≠ .rescan || !msg.retryFailed || msg.requestId ≠ some requestId then
    .error ⟨"manual retry message must be kind='rescan' with retry_failed=True and a matching " ++
      "request_id", some msg, some requestId⟩
  else .ok ()

def validateDocuments : List Message → Except ValueError Unit
  | [] => .ok ()
  | msg :: msgs =>
    match validateDocumentMessage msg with
    | .error e => .error e
    | .ok () => validateDocuments msgs

def checked {σ : Type} (r : Except ValueError Unit) : Tx σ ValueError Unit := fun s => (r, s)

/-- `_BoundedTerminalIds`. -/
structure TerminalIds where
  capacity : Nat
  ids : List (String × TerminalState)
deriving DecidableEq

namespace TerminalIds

/-- `TERMINAL_MANUAL_REQUEST_IDS_CAPACITY`. -/
def defaultCapacity : Int := 4096

def new (capacity : Int) : TerminalIds := ⟨(max 1 capacity).toNat, []⟩

def add (requestId : String) (state : TerminalState) (t : TerminalIds) : TerminalIds :=
  { t with ids := Recent.add t.capacity t.ids (requestId, state) }

def contains (requestId : String) (t : TerminalIds) : Bool :=
  t.ids.any fun p => p.1 = requestId

def get (requestId : String) (t : TerminalIds) : Option TerminalState :=
  (lookup Prod.fst t.ids requestId).map Prod.snd

def addAll (requestIds : List String) (state : TerminalState) (t : TerminalIds) : TerminalIds :=
  requestIds.foldl (fun t requestId => t.add requestId state) t

end TerminalIds

structure Counts where
  documents : Nat
  documentOverflows : Nat
  autoRescanPending : Bool
  manualRetries : Nat
  manualRetriesCapacity : Nat
  terminalManualRequestIds : Nat
deriving DecidableEq

def documentChannelCapacity : Int := 4096

/-- `PipelineIngressMailbox`. -/
structure Mailbox where
  documentCapacity : Nat
  manualCapacity : Nat
  documents : List Message
  documentOverflows : Nat
  autoRescanPending : Bool
  manualRetries : List (String × Message)
  terminalIds : TerminalIds
deriving DecidableEq

namespace Mailbox

/-- `__init__`, where `configured` is the value of `MAX_UNACKED_MANUAL_RETRIES`. -/
def new (documentCapacity : Int) (manualCapacity : Option Int) (configured : Int) : Mailbox where
  documentCapacity := (max 1 documentCapacity).toNat
  manualCapacity := (max 1 (manualCapacity.getD configured)).toNat
  documents := []
  documentOverflows := 0
  autoRescanPending := false
  manualRetries := []
  terminalIds := .new TerminalIds.defaultCapacity

abbrev Body := Tx Mailbox ValueError

def putDocumentLocked (msg : Message) (m : Mailbox) : Mailbox :=
  if m.documentCapacity ≤ m.documents.length then
    { m with documentOverflows := m.documentOverflows + 1, autoRescanPending := true }
  else { m with documents := m.documents ++ [msg] }

def putDocument (msg : Message) : Body Unit := do
  checked (validateDocumentMessage msg)
  execute (putDocumentLocked msg)

def putDocuments (msgs : List Message) : Body Unit := do
  checked (validateDocuments msgs)
  execute fun m => msgs.foldl (fun m msg => m.putDocumentLocked msg) m

def requestAutoRescan : Body Unit := execute fun m => { m with autoRescanPending := true }

def isPending (requestId : String) (m : Mailbox) : Bool :=
  m.manualRetries.any fun p => p.1 = requestId

def requestManualRetry (requestId : String) (msg : Message) : Body PublishResult := do
  checked (validateManualRequest requestId msg)
  let m ← fetch id
  if m.terminalIds.contains requestId then
    return .alreadyTerminal
  if !m.isPending requestId then
    if m.manualCapacity ≤ m.manualRetries.length then
      return .capacityExceeded
    execute fun m => { m with manualRetries := m.manualRetries ++ [(requestId, msg)] }
  return .accepted

def consumeAutoRescan : Body Bool := do
  let pending ← fetch autoRescanPending
  execute fun m => { m with autoRescanPending := false }
  return pending

def drainDocuments (limit : Option Int) : Body (List Message) := do
  let documents ← fetch documents
  if limit.all fun limit => (documents.length : Int) ≤ limit then
    execute fun m => { m with documents := [] }
    return documents
  else
    let n := (max 0 (limit.getD 0)).toNat
    execute fun m => { m with documents := m.documents.drop n }
    return documents.take n

def peekNextManualRetry : Body (Option Message) := fetch fun m => m.manualRetries.head?.map Prod.snd

def snapshotManualRetries : Body (List Message) := fetch fun m => m.manualRetries.map Prod.snd

def ackManualRetry (requestId : String) : Body Bool := do
  execute fun m => { m with
    manualRetries := deleteWhere (fun p => p.1 = requestId) m.manualRetries
    terminalIds := m.terminalIds.add requestId .acked }
  return true

/-- Every pending request becomes `CANCELLED_BY_CLEAR`. -/
def cancelLocked (m : Mailbox) : Mailbox :=
  { m with
    manualRetries := []
    terminalIds := m.terminalIds.addAll (m.manualRetries.map Prod.fst) .cancelledByClear }

def cancelManualRetries : Body Nat := do
  let cancelled ← fetch fun m => m.manualRetries.length
  execute cancelLocked
  return cancelled

def clear : Body Unit :=
  execute fun m => { m.cancelLocked with documents := [], autoRescanPending := false }

/-- `_has_work_locked`. -/
def hasWork (m : Mailbox) : Bool :=
  !m.documents.isEmpty || m.autoRescanPending || !m.manualRetries.isEmpty

def counts (m : Mailbox) : Counts where
  documents := m.documents.length
  documentOverflows := m.documentOverflows
  autoRescanPending := m.autoRescanPending
  manualRetries := m.manualRetries.length
  manualRetriesCapacity := m.manualCapacity
  terminalManualRequestIds := m.terminalIds.ids.length

end Mailbox

/-- What the ingress uses of an unbounded `asyncio.Queue`. -/
structure AsyncQueue where
  items : List Message
  unfinished : Nat
deriving DecidableEq

namespace AsyncQueue

def empty : AsyncQueue := ⟨[], 0⟩

def putNowait (msg : Message) (q : AsyncQueue) : AsyncQueue := ⟨q.items ++ [msg], q.unfinished + 1⟩

/-- `get_nowait`; `none` is `QueueEmpty`. -/
def getNowait (q : AsyncQueue) : Option (Message × AsyncQueue) :=
  match q.items with
  | [] => none
  | msg :: items => some (msg, { q with items := items })

end AsyncQueue

/-- `AsyncioPipelineIngress`. -/
structure AsyncioIngress where
  documentCapacity : Nat
  manualCapacity : Nat
  documentMessages : AsyncQueue
  documentOverflows : Nat
  autoRescanPending : Bool
  manualRetries : List (String × Message)
  terminalIds : TerminalIds
  workEvent : Bool
deriving DecidableEq

namespace AsyncioIngress

def new (documentCapacity : Int) (manualCapacity : Option Int) (configured : Int) :
    AsyncioIngress where
  documentCapacity := (max 1 documentCapacity).toNat
  manualCapacity := (max 1 (manualCapacity.getD configured)).toNat
  documentMessages := .empty
  documentOverflows := 0
  autoRescanPending := false
  manualRetries := []
  terminalIds := .new TerminalIds.defaultCapacity
  workEvent := false

abbrev Body := Tx AsyncioIngress ValueError

def hasWork (a : AsyncioIngress) : Bool :=
  !a.documentMessages.items.isEmpty || a.autoRescanPending || !a.manualRetries.isEmpty

def maybeClearEvent : Body Unit :=
  execute fun a => if a.hasWork then a else { a with workEvent := false }

/-- `task_done` of the queue. -/
def taskDone : Body Unit := do
  let unfinished ← fetch fun a => a.documentMessages.unfinished
  if unfinished = 0 then
    raise ⟨"task_done() called too many times", none, none⟩
  execute fun a => { a with
    documentMessages := { a.documentMessages with unfinished := unfinished - 1 } }

/-- Every item of the old queue moves to a new one, and the new event is set when there is
work. -/
def rebindToCurrentLoop : Body Unit :=
  execute fun a =>
    let moved := { a with
      documentMessages := a.documentMessages.items.foldl (fun q msg => q.putNowait msg) .empty
      workEvent := false }
    if moved.hasWork then { moved with workEvent := true } else moved

def putDocument (msg : Message) : Body Unit := do
  checked (validateDocumentMessage msg)
  let full ← fetch fun a => (a.documentCapacity ≤ a.documentMessages.items.length : Bool)
  if full then
    execute fun a =>
      { a with documentOverflows := a.documentOverflows + 1, autoRescanPending := true }
  else
    execute fun a => { a with documentMessages := a.documentMessages.putNowait msg }
  execute fun a => { a with workEvent := true }

/-- The second loop of `put_documents`. -/
def putEach : List Message → Body Unit
  | [] => pure ()
  | msg :: msgs => do
    putDocument msg
    putEach msgs

def putDocuments (msgs : List Message) : Body Unit := do
  checked (validateDocuments msgs)
  putEach msgs

def requestAutoRescan : Body Unit :=
  execute fun a => { a with autoRescanPending := true, workEvent := true }

def isPending (requestId : String) (a : AsyncioIngress) : Bool :=
  a.manualRetries.any fun p => p.1 = requestId

def requestManualRetry (requestId : String) (msg : Message) : Body PublishResult := do
  checked (validateManualRequest requestId msg)
  let a ← fetch id
  if a.terminalIds.contains requestId then
    return .alreadyTerminal
  if !a.isPending requestId then
    if a.manualCapacity ≤ a.manualRetries.length then
      return .capacityExceeded
    execute fun a =>
      { a with manualRetries := a.manualRetries ++ [(requestId, msg)], workEvent := true }
  return .accepted

def consumeAutoRescan : Body Bool := do
  let pending ← fetch autoRescanPending
  execute fun a => { a with autoRescanPending := false }
  maybeClearEvent
  return pending

/-- `get_document`; `none` means that the call still waits. -/
def getDocument : Body (Option Message) := do
  let next ← fetch fun a => a.documentMessages.getNowait
  match next with
  | none => return none
  | some (msg, queue) =>
    execute fun a => { a with documentMessages := queue }
    taskDone
    maybeClearEvent
    return some msg

/-- The loop of `drain_documents`; a queue of `n` items ends it within `n + 1` turns. -/
def drainLoop (limit : Option Int) : Nat → List Message → Body (List Message)
  | 0, drained => pure drained
  | turns + 1, drained => do
    if limit.all fun limit => (drained.length : Int) < limit then
      let next ← fetch fun a => a.documentMessages.getNowait
      match next with
      | none => pure drained
      | some (msg, queue) =>
        execute fun a => { a with documentMessages := queue }
        taskDone
        drainLoop limit turns (drained ++ [msg])
    else pure drained

def drainDocuments (limit : Option Int) : Body (List Message) := do
  let size ← fetch fun a => a.documentMessages.items.length
  let drained ← drainLoop limit (size + 1) []
  maybeClearEvent
  return drained

def peekNextManualRetry : Body (Option Message) := fetch fun a => a.manualRetries.head?.map Prod.snd

def snapshotManualRetries : Body (List Message) := fetch fun a => a.manualRetries.map Prod.snd

def ackManualRetry (requestId : String) : Body Bool := do
  execute fun a => { a with
    manualRetries := deleteWhere (fun p => p.1 = requestId) a.manualRetries
    terminalIds := a.terminalIds.add requestId .acked }
  maybeClearEvent
  return true

def cancelLocked (a : AsyncioIngress) : AsyncioIngress :=
  { a with
    manualRetries := []
    terminalIds := a.terminalIds.addAll (a.manualRetries.map Prod.fst) .cancelledByClear }

def cancelManualRetries : Body Nat := do
  let cancelled ← fetch fun a => a.manualRetries.length
  execute cancelLocked
  maybeClearEvent
  return cancelled

def clear : Body Unit := do
  execute cancelLocked
  let _ ← drainDocuments none
  execute fun a => { a with autoRescanPending := false }
  maybeClearEvent

/-- One round of `wait_for_items`, up to its await: it ends at once when there is work. -/
def waitForItems : Body Bool := do
  let work ← fetch hasWork
  if !work then
    execute fun a => { a with workEvent := false }
  return work

def counts (a : AsyncioIngress) : Counts where
  documents := a.documentMessages.items.length
  documentOverflows := a.documentOverflows
  autoRescanPending := a.autoRescanPending
  manualRetries := a.manualRetries.length
  manualRetriesCapacity := a.manualCapacity
  terminalManualRequestIds := a.terminalIds.ids.length

end AsyncioIngress

inductive Op
  | putDocument (msg : Message)
  | putDocuments (msgs : List Message)
  | requestAutoRescan
  | requestManualRetry (requestId : String) (msg : Message)
  | consumeAutoRescan
  | drainDocuments (limit : Option Int)
  | peekNextManualRetry
  | snapshotManualRetries
  | ackManualRetry (requestId : String)
  | cancelManualRetries
  | clear
  | hasWork
  | counts
deriving DecidableEq

inductive Result
  | done
  | flag (value : Bool)
  | published (result : PublishResult)
  | message (msg : Option Message)
  | messages (msgs : List Message)
  | number (n : Nat)
  | counts (c : Counts)
deriving DecidableEq

def Mailbox.perform : Op → Mailbox.Body Result
  | .putDocument msg => (putDocument msg).returning fun _ => .done
  | .putDocuments msgs => (putDocuments msgs).returning fun _ => .done
  | .requestAutoRescan => requestAutoRescan.returning fun _ => .done
  | .requestManualRetry requestId msg => (requestManualRetry requestId msg).returning .published
  | .consumeAutoRescan => consumeAutoRescan.returning .flag
  | .drainDocuments limit => (drainDocuments limit).returning .messages
  | .peekNextManualRetry => peekNextManualRetry.returning .message
  | .snapshotManualRetries => snapshotManualRetries.returning .messages
  | .ackManualRetry requestId => (ackManualRetry requestId).returning .flag
  | .cancelManualRetries => cancelManualRetries.returning .number
  | .clear => clear.returning fun _ => .done
  | .hasWork => (fetch hasWork).returning .flag
  | .counts => (fetch counts).returning .counts

def AsyncioIngress.perform : Op → AsyncioIngress.Body Result
  | .putDocument msg => (putDocument msg).returning fun _ => .done
  | .putDocuments msgs => (putDocuments msgs).returning fun _ => .done
  | .requestAutoRescan => requestAutoRescan.returning fun _ => .done
  | .requestManualRetry requestId msg => (requestManualRetry requestId msg).returning .published
  | .consumeAutoRescan => consumeAutoRescan.returning .flag
  | .drainDocuments limit => (drainDocuments limit).returning .messages
  | .peekNextManualRetry => peekNextManualRetry.returning .message
  | .snapshotManualRetries => snapshotManualRetries.returning .messages
  | .ackManualRetry requestId => (ackManualRetry requestId).returning .flag
  | .cancelManualRetries => cancelManualRetries.returning .number
  | .clear => clear.returning fun _ => .done
  | .hasWork => (fetch hasWork).returning .flag
  | .counts => (fetch counts).returning .counts

/-- What an event loop runs on the asyncio variant. -/
inductive Call
  | op (o : Op)
  | rebindToCurrentLoop
  | getDocument
  | waitForItems
deriving DecidableEq

def AsyncioIngress.call : Call → AsyncioIngress.Body Result
  | .op o => perform o
  | .rebindToCurrentLoop => rebindToCurrentLoop.returning fun _ => .done
  | .getDocument => getDocument.returning .message
  | .waitForItems => waitForItems.returning .flag

/-- The results of a list of operations, each beside its operation, and the final state. -/
def trace {σ ο : Type} (perform : ο → Tx σ ValueError Result) :
    List ο → σ → List (ο × Except ValueError Result) × σ
  | [], s => ([], s)
  | o :: ops, s =>
    let rest := trace perform ops (perform o s).2
    ((o, (perform o s).1) :: rest.1, rest.2)

end LightRAG.Pipeline
