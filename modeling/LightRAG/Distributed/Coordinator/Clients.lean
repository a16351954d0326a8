import LightRAG.Distributed.Coordinator.Transactions
import LightRAG.Framework.Run

/-!
# What a transaction can write

Each body ends in one of three ways: it refuses and writes nothing, it writes the fence and refuses,
or it passes its checks and makes its one write.
-/

namespace LightRAG.Coordination
open Tx Table List

/-- The scope admits work: it is unfenced and no active owner has lost its witness. -/
structure ScopeClear (row : WorkspaceRow) (db : Db) : Prop where
  unfenced : row.fenced = false
  witnessed : db.orphans = []

def Db.Active (db : Db) (operationId : Uuid) : Prop :=
  ∃ o ∈ db.operations, o.id = operationId ∧ o.state = .active

/-- The permit passes `_validate` of its own coordinator. -/
structure Live (coordinator : Coordinator) (operation : Operation) (row : WorkspaceRow)
    (db : Db) : Prop where
  owner : operation.ownerId = coordinator.ownerId
  generation : operation.generation = row.generation
  active : db.Active operation.id

section Posts

variable {α : Type} {self : Coordinator} {row : WorkspaceRow} {operation : Operation} {db : Db}
variable {Q : Except Failure Unit → Db → Prop}

theorem checkScope_post (hfenced : ∀ m, Q (.error (.workspaceFenced m)) db)
    (horphan : ∀ m reason, Q (.error (.workspaceFenced m)) (db.fence reason))
    (hok : ScopeClear row db → Q (.ok ()) db) : (checkScope row).Post db Q := by
  unfold checkScope
  simp only [post_bind,post_ite,post_fetch]
  split
  · exact hfenced _
  · rename_i hf
    split
    · exact horphan _ _
    · rename_i ho
      exact hok ⟨by simpa using hf,by simpa using ho⟩

theorem validate_post {checkFence : Bool}
    (hrefused : ∀ f, Q (.error f) db)
    (hfenced : checkFence = true → Live self operation row db →
      ∀ m reason, Q (.error (.workspaceFenced m)) (db.fence reason))
    (hok : Live self operation row db → (checkFence = true → ScopeClear row db) → Q (.ok ()) db) :
    (validate self row operation checkFence).Post db Q := by
  unfold validate
  simp only [post_bind,post_ite,post_fetch]
  split
  · exact hrefused _
  rename_i howner
  split
  · exact hrefused _
  rename_i hgen
  split
  · exact hrefused _
  rename_i hfound
  have hlive : Live self operation row db := by
    refine ⟨not_not.mp howner,not_not.mp hgen,?_⟩
    simp only [Bool.not_eq_true',Bool.not_eq_false,any_eq_true,decide_eq_true_eq] at hfound
    obtain ⟨o,ho,hid,_,_,hstate⟩ := hfound
    exact ⟨o,ho,hid,hstate⟩
  cases checkFence with
  | false => exact hok hlive (by intro h; cases h)
  | true =>
    apply checkScope_post
    · intro m
      exact hrefused _
    · exact hfenced rfl hlive
    · intro hclear
      exact hok hlive fun _ => hclear

/-- A body refuses without a write, or fences the scope for a live permit and refuses. -/
structure Refusals {β : Type} (coordinator : Coordinator) (operation : Operation)
    (row : WorkspaceRow) (db : Db) (Q : Except Failure β → Db → Prop) : Prop where
  refused : ∀ f, Q (.error f) db
  fenced : Live coordinator operation row db →
    ∀ m reason, Q (.error (.workspaceFenced m)) (db.fence reason)

theorem validated_post {β : Type} {k : Unit → Tx Db Failure β}
    {Q : Except Failure β → Db → Prop} (hrefusals : Refusals self operation row db Q)
    (hok : Live self operation row db → ScopeClear row db → (k ()).Post db Q) :
    (validate self row operation true >>= k).Post db Q := by
  rw [post_bind]
  exact validate_post hrefusals.refused (fun _ => hrefusals.fenced) fun hlive hclear =>
    hok hlive (hclear rfl)

variable {now : Nat}

theorem admitOperation_post {Q : Except Failure (Option Operation) → Db → Prop} {kind : String}
    {exclusive : Bool} {metadata : Metadata} {id : Uuid} (hrefused : ∀ f, Q (.error f) db)
    (hfenced : ∀ m reason, Q (.error (.workspaceFenced m)) (db.fence reason))
    (hbusy : ScopeClear row db → Q (.ok none) db)
    (hok : ScopeClear row db →
      (∀ o ∈ db.operations, o.state = .active → exclusive = false ∧ o.exclusive = false) →
      (∀ o ∈ db.operations, o.id ≠ id) →
      Q (.ok (some ⟨id, row.generation, self.ownerId⟩))
        (db.insertOperation ⟨id, row.generation, self.ownerId, self.witness, kind, exclusive,
          .active, "admitted", metadata, now, none⟩)) :
    (admitOperation self kind exclusive metadata id now row).Post db Q := by
  unfold admitOperation
  simp only [post_bind,post_ite,post_fetch]
  apply checkScope_post
  · intro m
    exact hrefused _
  · exact hfenced
  intro hclear
  dsimp only
  split
  · exact hbusy hclear
  rename_i hconflict
  split
  · exact hrefused _
  rename_i hfresh
  apply hok hclear
  · intro o ho hstate
    simp only [any_eq_true,not_exists,not_and,decide_eq_true_eq] at hconflict
    have h := hconflict o ho hstate
    simpa using h
  · intro o ho hid
    exact hfresh (any_eq_true.mpr ⟨o,ho,by simpa using hid⟩)

theorem finishOperation_post (hrefusals : Refusals self operation row db Q)
    (hok : Live self operation row db → ScopeClear row db →
      (∀ m ∈ db.mutations, m.operationId = operation.id → m.state ≠ .pending) →
      (∀ l ∈ db.resourceLocks, l.operationId ≠ operation.id) →
      Q (.ok ()) (db.completeOperation operation.id now)) :
    (finishOperation self operation now row).Post db Q := by
  unfold finishOperation
  apply validated_post hrefusals
  intro hlive hclear
  simp only [post_bind,post_fetch]
  split
  · exact hrefusals.fenced hlive _ _
  rename_i hdone
  simp only [Bool.or_eq_true,not_or,any_eq_true,not_exists,not_and,decide_eq_true_eq] at hdone
  exact hok hlive hclear hdone.1 hdone.2

theorem fenceUncertain_post {reason : String}
    (hrefused : ∀ f, Q (.error f) db)
    (hok : Live self operation row db → Q (.ok ()) ((db.fence reason).markUncertain operation.id)) :
    (fenceUncertain self operation reason row).Post db Q := by
  unfold fenceUncertain
  simp only [post_bind]
  apply validate_post
  · exact hrefused
  · intro h
    cases h
  · intro hlive _
    exact hok hlive

theorem acquireLock_post {Q : Except Failure (Option Unit) → Db → Prop} {taskId : Uuid}
    {ordered : List String}
    (hrefusals : Refusals self operation row db Q)
    (hbusy : Live self operation row db → ScopeClear row db → Q (.ok none) db)
    (hok : Live self operation row db → ScopeClear row db →
      (∀ r ∈ db.resourceLocks, r.resourceKey ∈ ordered →
        r.operationId = operation.id ∧ r.taskId = taskId) →
      Q (.ok (some ())) (db.acquireLocks operation.id taskId ordered)) :
    (acquireLock self operation taskId ordered row).Post db Q := by
  unfold acquireLock
  apply validated_post hrefusals
  intro hlive hclear
  simp only [post_bind,post_fetch]
  split
  · exact hbusy hlive hclear
  rename_i hfree
  apply hok hlive hclear
  intro r hr hkey
  by_contra hother
  apply hfree
  refine any_eq_true.mpr ⟨r,mem_filter.mpr ⟨hr,by simpa using hkey⟩,?_⟩
  simp only [Bool.or_eq_true,decide_eq_true_eq]
  exact not_and_or.mp hother

theorem releaseLock_post {taskId : Uuid} {ordered : List String}
    (hrefusals : Refusals self operation row db Q)
    (hok : Live self operation row db → ScopeClear row db →
      Q (.ok ()) (db.releaseLocks operation.id taskId ordered)) :
    (releaseLock self operation taskId ordered row).Post db Q := by
  unfold releaseLock
  apply validated_post hrefusals
  intro hlive hclear
  exact hok hlive hclear

variable {docId : String}

theorem tryClaimDocument_post {Q : Except Failure Bool → Db → Prop}
    (hrefusals : Refusals self operation row db Q)
    (htaken : Live self operation row db → ScopeClear row db → Q (.ok false) db)
    (hok : Live self operation row db → ScopeClear row db →
      (∀ c ∈ db.documentClaims, c.docId ≠ docId) →
      Q (.ok true) (db.insertClaim ⟨docId, operation.id, "claimed", now⟩)) :
    (tryClaimDocument self operation docId now row).Post db Q := by
  unfold tryClaimDocument
  apply validated_post hrefusals
  intro hlive hclear
  simp only [post_bind,post_fetch]
  split
  · exact htaken hlive hclear
  rename_i hfree
  apply hok hlive hclear
  intro c hc hdoc
  exact hfree (any_eq_true.mpr ⟨c,hc,by simpa using hdoc⟩)

theorem claim_post (hrefused : ∀ f, Q (.error f) db) (hok : Q (.ok ()) db) :
    (claim operation docId).Post db Q := by
  unfold claim
  simp only [post_bind,post_fetch]
  split
  · exact hrefused _
  · exact hok

theorem assertClaim_post (hrefusals : Refusals self operation row db Q)
    (hok : Live self operation row db → ScopeClear row db → Q (.ok ()) db) :
    (assertClaim self operation docId row).Post db Q := by
  unfold assertClaim
  apply validated_post hrefusals
  intro hlive hclear
  exact claim_post hrefusals.refused (hok hlive hclear)

theorem releaseClaim_post (hrefusals : Refusals self operation row db Q)
    (hok : Live self operation row db → ScopeClear row db → Q (.ok ()) (db.deleteClaim docId)) :
    (releaseClaim self operation docId row).Post db Q := by
  unfold releaseClaim
  apply validated_post hrefusals
  intro hlive hclear
  simp only [post_bind,post_fetch]
  apply claim_post
  · exact hrefusals.refused
  dsimp only
  split
  · exact hrefusals.refused _
  · exact hok hlive hclear

/-- The write of `set_phase`: the claim's phase when a document is named, then the ticket's. -/
def Db.setPhase (operationId : Uuid) (docId : Option String) (phase : String)
    (metadata : Metadata) (now : Nat) (db : Db) : Db :=
  ((docId.elim db fun docId => db.setClaimPhase docId phase now)).setOperationPhase operationId
    phase metadata now

theorem setPhase_post {phase : String} {docId : Option String} {metadata : Metadata}
    (hrefusals : Refusals self operation row db Q)
    (hok : Live self operation row db → ScopeClear row db →
      Q (.ok ()) (db.setPhase operation.id docId phase metadata now)) :
    (setPhase self operation phase docId metadata now row).Post db Q := by
  unfold setPhase
  apply validated_post hrefusals
  intro hlive hclear
  cases docId with
  | none => exact hok hlive hclear
  | some docId =>
    simp only [post_bind]
    exact claim_post hrefusals.refused (hok hlive hclear)

theorem heartbeat_post (hrefusals : Refusals self operation row db Q)
    (hok : Live self operation row db → ScopeClear row db →
      Q (.ok ()) (db.heartbeat operation.id now)) :
    (heartbeat self operation now row).Post db Q := by
  unfold heartbeat
  apply validated_post hrefusals
  intro hlive hclear
  exact hok hlive hclear

theorem publishMutation_post {backend nameSpace method : String} {id : Uuid}
    (hrefusals : Refusals self operation row db Q)
    (hok : Live self operation row db → ScopeClear row db → (∀ m ∈ db.mutations, m.id ≠ id) →
      Q (.ok ()) (db.insertMutation
        ⟨id, operation.id, backend, nameSpace, method, .pending, none, none⟩)) :
    (publishMutation self operation backend nameSpace method id row).Post db Q := by
  unfold publishMutation
  apply validated_post hrefusals
  intro hlive hclear
  simp only [post_bind,post_fetch]
  split
  · exact hrefusals.refused _
  rename_i hfresh
  apply hok hlive hclear
  intro m hm hid
  exact hfresh (any_eq_true.mpr ⟨m,hm,by simpa using hid⟩)

theorem ackMutation_post {id : Uuid} (hrefused : ∀ f, Q (.error f) db)
    (hok : Live self operation row db → Q (.ok ()) (db.acknowledge id operation.id now)) :
    (ackMutation self operation id now row).Post db Q := by
  unfold ackMutation
  simp only [post_bind]
  apply validate_post
  · exact hrefused
  · intro h
    cases h
  · intro hlive _
    exact hok hlive

theorem snapshot_post {Q : Except Failure Snapshot → Db → Prop}
    (hrow : db.workspace = some row)
    (hok : Q (.ok ⟨{ row with fenced := row.fenced || decide (db.orphans ≠ []) }, db.operations,
      db.resourceLocks, db.documentClaims, db.mutations, db.orphans⟩) db) :
    snapshot.Post db Q := by
  unfold snapshot
  simp only [post_bind,post_fetch,id,hrow]
  exact hok

theorem recoverBody_post {Q : Except Failure Snapshot → Db → Prop} {expectedGeneration : Nat}
    {actor reason : String} {confirmations : Confirmations} (hrow : db.workspace = some row)
    (hrefused : ∀ f, Q (.error f) db)
    (hok : row.generation = expectedGeneration →
      (∀ o ∈ db.operations, o.state = .active → o.id ∈ db.orphans) →
      ∀ before after, Q (.ok after) ((db.insertAudit ⟨expectedGeneration, expectedGeneration + 1,
        actor, reason, confirmations, before⟩).recoverScope now)) :
    (recoverBody expectedGeneration actor reason confirmations now row).Post db Q := by
  unfold recoverBody
  simp only [post_bind,post_ite]
  split
  · exact hrefused _
  rename_i hgen
  apply snapshot_post hrow
  dsimp only
  split
  · exact hrefused _
  rename_i hlive
  have hnext : ∀ a, ((db.insertAudit a).recoverScope now).workspace = some { row with
      generation := row.generation + 1, fenced := false, fenceReason := none } := by
    simp [Db.recoverScope,Db.insertAudit,hrow]
  apply snapshot_post (hnext _)
  apply hok (not_not.mp hgen)
  intro o ho hstate
  simp only [any_eq_true,not_exists,not_and,Bool.and_eq_true,decide_eq_true_eq,not_not] at hlive
  exact hlive o ho hstate

end Posts
end LightRAG.Coordination

/-!
## Coordinators and their contexts

Any number of coordinators work on one scope.
-/

namespace LightRAG.Coordination

namespace Coordinator

variable {α : Type}

/-- The checks `_label` makes before any transaction; the first blank value raises. -/
def labelled (values : List (String × String)) (self : Coordinator) (db : Db)
    (call : Ended α) : Ended α :=
  match values.find? fun v => Text.isBlank v.1 with
  | some v => ⟨.error (.value (v.2 ++ " must be non-empty")), none, self, db⟩
  | none => call

/-- The registration a writer's `initialize` executes; a read-only one executes none. -/
def registration (self : Coordinator) (readOnly : Bool) (db : Db) : Db :=
  match readOnly, self.manifestHash with
  | false, some manifestHash => db.register manifestHash
  | _, _ => db

/-- The first part of `initialize`: open the pool and register the scope. -/
def initializeScope (readOnly : Bool) (fate : Fate) (self : Coordinator) (db : Db) : Ended Unit :=
  if self.broken then
    ⟨.error (.unavailable "Create a new coordinator after closure or failure"), none, self, db⟩
  else if self.pool then ⟨.ok (), none, self, db⟩
  else
    let opened := { self with pool := true, readOnly := readOnly }
    let written := self.registration readOnly db
    if !readOnly && self.manifestHash.isNone then
      ⟨.error (.value "Writer initialization requires a deployment manifest"), none, self, db⟩
    else if !readOnly && written.workspace.map (·.manifestHash) ≠ self.manifestHash then
      ⟨.error (.configurationMismatch "Workspace deployment manifest mismatch"), none,
        opened.quarantine, db⟩
    else match fate with
      | .delivered => ⟨.ok (), some (), opened, written⟩
      | .lostBeforeCommit cancelled =>
        ⟨.error (lostFailure cancelled), none, opened.quarantine, db⟩
      | .lostAfterCommit cancelled =>
        ⟨.error (lostFailure cancelled), some (), opened.quarantine, written⟩

/-- The second part of `initialize`: the dedicated session takes the witness. -/
def takeWitness (self : Coordinator) (db : Db) : Ended Unit :=
  if witnessLock self.witness ∈ db.pgLocks then
    ⟨.error (.unavailable "Could not establish owner witness"), none, self.quarantine, db⟩
  else ⟨.ok (), some (), { self with witnessConnection := .connected },
    db.grantWitness self.witness⟩

/-- The last part of `initialize`: orphans are discovered, and a fenced scope is accepted. -/
def discoverOrphans (fate : Fate) (self : Coordinator) (db : Db) : Ended Unit :=
  let e := transaction false checkScope fate self db
  match e.result with
  | .ok () => e
  | .error (.workspaceFenced _) => { e with result := .ok () }
  | .error _ => { e with self := e.self.quarantine }

/-- `_mark_uncertain`: a fence whose durability is not confirmed removes the witness. -/
def markUncertain (operation : Operation) (reason : String) (fate : Fate) (self : Coordinator)
    (db : Db) : Ended Unit :=
  let e := transaction false (fenceUncertain self operation reason) fate self db
  match e.result with
  | .ok () => e
  | .error _ => { e with result := .ok (), self := e.self.quarantine }

def recover (expectedGeneration : Nat) (actor reason : String) (confirmations : Confirmations)
    (fate : Fate) (now : Nat) (self : Coordinator) (db : Db) : Ended Snapshot :=
  if !(confirmations.writersStopped && confirmations.inflightFinished &&
      confirmations.stateAudited) then
    ⟨.error (.value "Recovery requires all three explicit confirmations"), none, self, db⟩
  else labelled [(actor, "actor"), (reason, "reason")] self db <|
    if expectedGeneration < 1 then
      ⟨.error (.value "expected_generation must be a positive integer"), none, self, db⟩
    else
      transaction true (recoverBody expectedGeneration actor reason confirmations now) fate self db

end Coordinator

structure OperationContext where
  coordinator : Nat
  operation : Operation
deriving DecidableEq

structure LockContext where
  coordinator : Nat
  operation : Operation
  taskId : Uuid
  keys : List String
deriving DecidableEq

structure MutationContext where
  coordinator : Nat
  operation : Operation
  id : Uuid
deriving DecidableEq

/-- The database, the coordinators created so far, every witness drawn so far, the contexts
whose bodies run, innermost first, and the lock contexts that ended without giving their keys
back. -/
structure World where
  db : Db
  coordinators : Nat → Option Coordinator
  drawn : List Nat
  operations : List OperationContext
  locks : List LockContext
  retained : List LockContext
  mutations : List MutationContext

inductive Call
  | takeWitness
  | discoverOrphans
  | enterOperation (kind : String) (exclusive : Bool) (metadata : Metadata) (id : Uuid)
  | exitOperation (operation : Operation)
  | raiseOperation (operation : Operation)
  | enterLock (operation : Operation) (taskId : Uuid) (keys : List String)
  | exitLock (operation : Operation) (taskId : Uuid) (keys : List String)
  | raiseLock (operation : Operation) (taskId : Uuid) (keys : List String)
  | tryClaimDocument (operation : Operation) (docId : String)
  | assertClaim (operation : Operation) (docId : String)
  | releaseClaim (operation : Operation) (docId : String)
  | setPhase (operation : Operation) (phase : String) (docId : Option String)
      (metadata : Metadata)
  | heartbeat (operation : Operation)
  | publish (operation : Operation) (backend nameSpace method : String) (id : Uuid)
  | ack (operation : Operation) (id : Uuid)
  | raiseMutation (operation : Operation) (id : Uuid)
  | recover (expectedGeneration : Nat) (actor reason : String) (confirmations : Confirmations)
deriving DecidableEq

inductive Action
  | create (i : Nat) (ownerId : Uuid) (witness : Nat) (manifestHash : Option String)
  | initializeScope (i : Nat) (readOnly : Bool) (fate : Fate)
  | call (i : Nat) (fate : Fate) (now : Nat) (call : Call)
  | quarantine (i : Nat)
  | witnessCloses (i : Nat)
  | witnessLost (i : Nat)
deriving DecidableEq

/-- The value a call returns: done or granted, not granted, or a permit. -/
inductive Answer
  | done
  | denied
  | permit (operation : Operation)
deriving DecidableEq

abbrev Reply := Except Failure Answer

def Ended.answer {α : Type} (e : Ended α) (f : α → Answer) : Ended Answer :=
  ⟨e.result.map f, e.kept.map f, e.self, e.db⟩

/-- The transactions of one call; the context exits by exception run `_mark_uncertain`. -/
def Coordinator.perform (self : Coordinator) (fate : Fate) (now : Nat) (db : Db) : Call → Ended Answer
  | .takeWitness => (self.takeWitness db).answer fun _ => .done
  | .discoverOrphans => (self.discoverOrphans fate db).answer fun _ => .done
  | .enterOperation kind exclusive metadata id =>
    self.labelled [(kind, "kind")] db <|
      (transaction false (admitOperation self kind exclusive metadata id now) fate self db).answer
        fun op => op.elim .denied .permit
  | .exitOperation op =>
    (transaction false (finishOperation self op now) fate self db).answer fun _ => .done
  | .raiseOperation op =>
    (self.markUncertain op "Operation exited without confirmed completion" fate db).answer
      fun _ => .done
  | .enterLock op taskId keys =>
    self.labelled (keys.map fun key => (key, "resource key")) db <|
      (transaction false (acquireLock self op taskId (orderedKeys keys)) fate self db).answer
        fun acquired => acquired.elim .denied fun _ => .done
  | .exitLock op taskId keys =>
    (transaction false (releaseLock self op taskId keys) fate self db).answer fun _ => .done
  | .raiseLock op _ _ =>
    (self.markUncertain op "Resource owner exited without confirmed completion" fate db).answer
      fun _ => .done
  | .tryClaimDocument op docId =>
    self.labelled [(docId, "doc_id")] db <|
      (transaction false (tryClaimDocument self op docId now) fate self db).answer
        fun claimed => if claimed then .done else .denied
  | .assertClaim op docId =>
    (transaction false (assertClaim self op docId) fate self db).answer fun _ => .done
  | .releaseClaim op docId =>
    (transaction false (releaseClaim self op docId) fate self db).answer fun _ => .done
  | .setPhase op phase docId metadata =>
    self.labelled [(phase, "phase")] db <|
      (transaction false (setPhase self op phase docId metadata now) fate self db).answer
        fun _ => .done
  | .heartbeat op => (transaction false (heartbeat self op now) fate self db).answer fun _ => .done
  | .publish op backend nameSpace method id =>
    self.labelled [(backend, "backend"), (nameSpace, "namespace"), (method, "method")] db <|
      (transaction false (publishMutation self op backend nameSpace method id) fate self db).answer
        fun _ => .done
  | .ack op id => (transaction false (ackMutation self op id now) fate self db).answer fun _ => .done
  | .raiseMutation op _ =>
    (self.markUncertain op "Storage mutation acknowledgement is uncertain" fate db).answer
      fun _ => .done
  | .recover expectedGeneration actor reason confirmations =>
    (self.recover expectedGeneration actor reason confirmations fate now db).answer fun _ => .done

/-- A context left by an exception raises it again, whatever became of the fence. -/
def Call.reply (e : Ended Answer) : Call → Reply
  | .raiseOperation _ | .raiseLock _ _ _ | .raiseMutation _ _ => .error .body
  | _ => e.result

namespace World

def init : World :=
  ⟨⟨none, [], [], [], [], [], []⟩, fun _ => none, [], [], [], [], []⟩

variable (w : World)

/-- An exit needs its context; the witness is taken once, after the pool is open. -/
def Enabled (i : Nat) (self : Coordinator) : Call → Prop
  | .takeWitness => self.pool = true ∧ self.broken = false ∧ self.readOnly = false ∧
      self.witnessConnection = .absent
  | .exitOperation op | .raiseOperation op => ⟨i, op⟩ ∈ w.operations
  | .exitLock op taskId keys | .raiseLock op taskId keys => ⟨i, op, taskId, keys⟩ ∈ w.locks
  | .ack op id | .raiseMutation op id => ⟨i, op, id⟩ ∈ w.mutations
  | _ => True

instance (w : World) (i : Nat) (self : Coordinator) (c : Call) : Decidable (w.Enabled i self c) := by
  cases c <;> dsimp only [Enabled] <;> infer_instance

/-- The contexts a call opens and closes. A lock context that was acquired without a response,
or that ends without its exit transaction being kept, retains its keys. -/
def contexts (i : Nat) (e : Ended Answer) : Call → World
  | .enterOperation _ _ _ _ =>
    match e.result with
    | .ok (.permit op) => { w with operations := ⟨i, op⟩ :: w.operations }
    | _ => w
  | .exitOperation op | .raiseOperation op =>
    { w with operations := w.operations.erase ⟨i, op⟩ }
  | .enterLock op taskId keys =>
    if e.kept = some .done then
      match e.result with
      | .ok _ => { w with locks := ⟨i, op, taskId, orderedKeys keys⟩ :: w.locks }
      | .error _ => { w with retained := ⟨i, op, taskId, orderedKeys keys⟩ :: w.retained }
    else w
  | .exitLock op taskId keys =>
    if e.kept = some .done then { w with locks := w.locks.erase ⟨i, op, taskId, keys⟩ }
    else { w with
      locks := w.locks.erase ⟨i, op, taskId, keys⟩
      retained := ⟨i, op, taskId, keys⟩ :: w.retained }
  | .raiseLock op taskId keys =>
    { w with
      locks := w.locks.erase ⟨i, op, taskId, keys⟩
      retained := ⟨i, op, taskId, keys⟩ :: w.retained }
  | .publish op _ _ _ id =>
    match e.result with
    | .ok _ => { w with mutations := ⟨i, op, id⟩ :: w.mutations }
    | .error _ => w
  | .ack op id | .raiseMutation op id => { w with mutations := w.mutations.erase ⟨i, op, id⟩ }
  | _ => w

/-- The database and the coordinator after a call of coordinator `i`. -/
def ended {α : Type} (i : Nat) (e : Ended α) : World :=
  { w with db := e.db, coordinators := Function.update w.coordinators i (some e.self) }

def runCall (i : Nat) (fate : Fate) (now : Nat) (self : Coordinator) (c : Call) :
    Option (Reply × World) :=
  if w.Enabled i self c then
    let e := self.perform fate now w.db c
    some (c.reply e, (w.contexts i e c).ended i e)
  else none

/-- One step. A witness is a fresh draw of 63 random bits, as an owner id is a fresh UUID. -/
def step : Action → Option (Reply × World)
  | .create i ownerId witness manifestHash =>
    if (w.coordinators i).isNone ∧ witness ∉ w.drawn then
      some (.ok .done, { w with
        coordinators := Function.update w.coordinators i
          (some ⟨ownerId, witness, manifestHash, false, false, false, .absent⟩)
        drawn := witness :: w.drawn })
    else none
  | .initializeScope i readOnly fate =>
    (w.coordinators i).map fun self =>
      let e := self.initializeScope readOnly fate w.db
      (e.result.map fun _ => .done, w.ended i e)
  | .call i fate now call => (w.coordinators i).bind fun self => w.runCall i fate now self call
  | .quarantine i =>
    (w.coordinators i).map fun self => (.ok .done, { w with
      coordinators := Function.update w.coordinators i (some self.quarantine) })
  | .witnessCloses i =>
    (w.coordinators i).map fun self => (.ok .done, { w with
      coordinators := Function.update w.coordinators i
        (some { self with witnessConnection := self.witnessConnection.terminate }) })
  | .witnessLost i =>
    (w.coordinators i).map fun self => (.ok .done, { w with db := w.db.dropWitness self.witness })

def Step (a : Action) (w' : World) : Prop := ∃ r, w.step a = some (r, w')

/-- The states of any number of coordinators, operations and contexts in any interleaving. -/
def Reachable (w : World) : Prop := LightRAG.Reachable (· = World.init) World.Step w

def run : World → List Action → Option World
  | w, [] => some w
  | w, a :: as => (w.step a).bind fun r => run r.2 as

theorem run_steps {w w' : World} {as : List Action} (h : w.run as = some w') :
    Run World.Step w as w' := by
  induction as generalizing w with
  | nil =>
    cases h
    exact .nil _
  | cons a as ih =>
    simp only [run,Option.bind_eq_some_iff] at h
    obtain ⟨⟨r,w₁⟩,hstep,hrest⟩ := h
    exact .cons ⟨r,hstep⟩ (ih hrest)

theorem reachable_run {w : World} {as : List Action} (h : init.run as = some w) : w.Reachable :=
  ⟨init,as,rfl,run_steps h⟩

end World
end LightRAG.Coordination
