import LightRAG.Distributed.Coordinator.Clients

/-!
# What a step writes

Every step of the world changes the database by at most one `Effect`, and the checks of the
transaction that made it are facts about the database it was made on.
-/

namespace LightRAG.Coordination
open Tx Table Option Function

/-- The writes of the transactions and of their surroundings. -/
inductive Effect
  | register (manifestHash : String)
  | grantWitness (witness : Nat)
  | dropWitness (witness : Nat)
  | fence (reason : String)
  | enter (o : OperationRow)
  | finish (operationId : Uuid) (now : Nat)
  | uncertain (operationId : Uuid) (reason : String)
  | acquire (operationId taskId : Uuid) (keys : List String)
  | release (operationId taskId : Uuid) (keys : List String)
  | claim (c : ClaimRow)
  | unclaim (docId : String)
  | phase (operationId : Uuid) (docId : Option String) (phase : String) (metadata : Metadata)
      (now : Nat)
  | heartbeat (operationId : Uuid) (now : Nat)
  | publish (m : MutationRow)
  | acknowledge (id operationId : Uuid) (now : Nat)
  | recover (a : AuditRow) (now : Nat)

namespace Effect

def apply : Effect → Db → Db
  | register manifestHash, db => db.register manifestHash
  | grantWitness witness, db => db.grantWitness witness
  | dropWitness witness, db => db.dropWitness witness
  | fence reason, db => db.fence reason
  | enter o, db => db.insertOperation o
  | finish operationId now, db => db.completeOperation operationId now
  | uncertain operationId reason, db => (db.fence reason).markUncertain operationId
  | acquire operationId taskId keys, db => db.acquireLocks operationId taskId keys
  | release operationId taskId keys, db => db.releaseLocks operationId taskId keys
  | claim c, db => db.insertClaim c
  | unclaim docId, db => db.deleteClaim docId
  | phase operationId docId name metadata now, db =>
    db.setPhase operationId docId name metadata now
  | heartbeat operationId now, db => db.heartbeat operationId now
  | publish m, db => db.insertMutation m
  | acknowledge id operationId now, db => db.acknowledge id operationId now
  | recover a now, db => (db.insertAudit a).recoverScope now

end Effect

def Db.Clear (db : Db) : Prop := ∃ row, db.workspace = some row ∧ ScopeClear row db

/-- The facts under which an effect is written. -/
def Effect.Allowed (db : Db) : Effect → Prop
  | .register _ | .dropWitness _ | .fence _ => True
  | .grantWitness witness => witnessLock witness ∉ db.pgLocks
  | .enter o => (∃ row, db.workspace = some row ∧ ScopeClear row db ∧
      o.generation = row.generation) ∧ o.state = .active ∧
      (∀ p ∈ db.operations, p.state = .active → o.exclusive = false ∧ p.exclusive = false) ∧
      ∀ p ∈ db.operations, p.id ≠ o.id
  | .finish operationId _ => db.Active operationId ∧ db.Clear ∧
      (∀ m ∈ db.mutations, m.operationId = operationId → m.state ≠ .pending) ∧
      ∀ l ∈ db.resourceLocks, l.operationId ≠ operationId
  | .uncertain operationId _ => db.Active operationId
  | .acquire operationId taskId keys => db.Active operationId ∧ db.Clear ∧
      ∀ r ∈ db.resourceLocks, r.resourceKey ∈ keys →
        r.operationId = operationId ∧ r.taskId = taskId
  | .release operationId _ _ => db.Active operationId ∧ db.Clear
  | .claim c => db.Active c.operationId ∧ db.Clear ∧ ∀ p ∈ db.documentClaims, p.docId ≠ c.docId
  | .unclaim _ => db.Clear
  | .phase operationId _ _ _ _ => db.Active operationId ∧ db.Clear
  | .heartbeat operationId _ => db.Active operationId ∧ db.Clear
  | .publish m => db.Active m.operationId ∧ db.Clear ∧ m.state = .pending ∧
      ∀ p ∈ db.mutations, p.id ≠ m.id
  | .acknowledge _ operationId _ => db.Active operationId
  | .recover a _ => (∃ row, db.workspace = some row ∧ row.generation = a.oldGeneration) ∧
      a.newGeneration = a.oldGeneration + 1 ∧
      ∀ o ∈ db.operations, o.state = .active → o.id ∈ db.orphans

/-- The coordinator passes the checks `_transaction` makes before it opens a connection. -/
structure Coordinator.Usable (coordinator : Coordinator) (administrative : Bool) : Prop where
  pool : coordinator.pool = true
  unbroken : coordinator.broken = false
  writer : administrative = false → coordinator.readOnly = false
  connected : administrative = false → coordinator.witnessConnection = .connected

section Transaction

variable {α : Type} {administrative : Bool} {body : WorkspaceRow → Tx Db Failure α} {fate : Fate}
  {self : Coordinator} {db : Db}

theorem transaction_result {a : α}
    (h : (transaction administrative body fate self db).result = .ok a) :
    (transaction administrative body fate self db).kept = some a := by
  revert h
  unfold transaction
  split
  · intro h
    cases h
  split
  · intro h
    cases h
  split
  · intro h
    cases h
  · intro h
    cases h
  · intro h
    cases h
  · split
    · intro h
      cases h
      rfl
    · split <;> (intro h; cases h)
  · split <;> (intro h; cases h)

theorem transaction_post {Q : Option α → Db → Prop} (hstay : Q none db)
    (hbody : self.Usable administrative → ∀ row, db.workspace = some row →
      (body row).Post db fun r db' =>
        match r with
        | .ok a => Q (some a) db'
        | .error f => f.delayed = true → Q none db') :
    Q (transaction administrative body fate self db).kept
      (transaction administrative body fate self db).db := by
  have hcommit : self.Usable administrative → ∀ row, db.workspace = some row → ∀ r db',
      (body row).commit Failure.delayed db = (r, db') →
      (∀ a, r = .ok a → Q (some a) db') ∧ (∀ f, r = .error f → Q none db') := by
    intro husable row hrow r db' hrun
    have h := hbody husable row hrow
    unfold Post at h
    unfold commit at hrun
    rcases hx : body row db with ⟨f | a,db₁⟩
    · rw [hx] at h hrun
      obtain ⟨rfl,rfl⟩ := Prod.mk.inj hrun
      refine ⟨by rintro a ⟨⟩,?_⟩
      cases hd : f.delayed with
      | true => simpa [hd] using h hd
      | false => simpa [hd] using hstay
    · rw [hx] at h hrun
      obtain ⟨rfl,rfl⟩ := Prod.mk.inj hrun
      refine ⟨?_,by rintro f ⟨⟩⟩
      rintro a ⟨⟩
      exact h
  unfold transaction
  split
  · exact hstay
  rename_i hopen
  split
  · exact hstay
  rename_i hwriter
  have husable : self.Usable administrative := by
    simp only [Bool.or_eq_true,Bool.not_eq_true',not_or,Bool.not_eq_false,Bool.not_eq_true] at hopen
    refine ⟨hopen.1,hopen.2,?_,?_⟩
    · intro hadmin
      simp only [hadmin,Bool.not_false,Bool.true_and,Bool.or_eq_true,not_or,
        Bool.not_eq_true] at hwriter
      exact hwriter.1
    · intro hadmin
      simp only [hadmin,Bool.not_false,Bool.true_and,Bool.or_eq_true,not_or,
        decide_eq_true_eq,not_not] at hwriter
      exact hwriter.2
  split
  · exact hstay
  · exact hstay
  · exact hstay
  · rename_i row hrow
    split
    · rename_i hrun
      exact (hcommit husable row hrow _ _ hrun).1 _ rfl
    · rename_i hrun
      split
      · exact (hcommit husable row hrow _ _ hrun).2 _ rfl
      · exact (hcommit husable row hrow _ _ hrun).2 _ rfl
  · rename_i row _ hrow
    split
    · rename_i hrun
      exact (hcommit husable row hrow _ _ hrun).1 _ rfl
    · rename_i hrun
      exact (hcommit husable row hrow _ _ hrun).2 _ rfl

end Transaction

/-- Its owner id and its witness never change, broken is forever, and its witness connection is
opened once. -/
structure Coordinator.Evolves (before after : Coordinator) : Prop where
  ownerId : after.ownerId = before.ownerId
  witness : after.witness = before.witness
  broken : before.broken = true → after.broken = true
  absent : after.witnessConnection = .absent → before.witnessConnection = .absent

theorem WitnessConnection.absent_of_terminate {c : WitnessConnection}
    (h : c.terminate = .absent) : c = .absent := by
  cases c with
  | absent => rfl
  | connected => cases h
  | closed => cases h

namespace Coordinator.Evolves

theorem refl (self : Coordinator) : self.Evolves self := ⟨rfl,rfl,fun h => h,fun h => h⟩

theorem quarantine (self : Coordinator) : self.Evolves self.quarantine :=
  ⟨rfl,rfl,fun _ => rfl,WitnessConnection.absent_of_terminate⟩

theorem trans {a b c : Coordinator} (hab : a.Evolves b) (hbc : b.Evolves c) : a.Evolves c :=
  ⟨hbc.ownerId.trans hab.ownerId,hbc.witness.trans hab.witness,
    fun h => hbc.broken (hab.broken h),fun h => hab.absent (hbc.absent h)⟩

end Coordinator.Evolves

section Life

variable {α : Type} {fate : Fate} {self : Coordinator} {db : Db}

theorem transaction_evolves {administrative : Bool} {body : WorkspaceRow → Tx Db Failure α} :
    self.Evolves (transaction administrative body fate self db).self := by
  unfold transaction
  repeat' split
  all_goals first | exact .refl self | exact .quarantine self

theorem answer_evolves {administrative : Bool} {body : WorkspaceRow → Tx Db Failure α}
    {f : α → Answer} :
    self.Evolves ((transaction administrative body fate self db).answer f).self :=
  @transaction_evolves _ fate self db administrative body

theorem labelled_evolves {values : List (String × String)} {e : Ended α}
    (h : self.Evolves e.self) : self.Evolves (self.labelled values db e).self := by
  unfold Coordinator.labelled
  split
  · exact .refl self
  · exact h

theorem markUncertain_evolves {operation : Operation} {reason : String} :
    self.Evolves (self.markUncertain operation reason fate db).self := by
  unfold Coordinator.markUncertain
  dsimp only
  split
  · exact transaction_evolves
  · exact transaction_evolves.trans (.quarantine _)

theorem perform_evolves (self : Coordinator) (fate : Fate) (now : Nat) (db : Db) (c : Call) :
    self.Evolves (self.perform fate now db c).self := by
  cases c with
  | takeWitness =>
    simp only [Coordinator.perform,Coordinator.takeWitness]
    split
    · exact .quarantine self
    · exact ⟨rfl,rfl,fun h => h,nofun⟩
  | discoverOrphans =>
    simp only [Coordinator.perform,Ended.answer,Coordinator.discoverOrphans]
    split
    · exact transaction_evolves
    · exact transaction_evolves
    · exact transaction_evolves.trans (.quarantine _)
  | enterOperation _ _ _ _ => exact labelled_evolves answer_evolves
  | enterLock _ _ _ => exact labelled_evolves answer_evolves
  | tryClaimDocument _ _ => exact labelled_evolves answer_evolves
  | setPhase _ _ _ _ => exact labelled_evolves answer_evolves
  | publish _ _ _ _ _ => exact labelled_evolves answer_evolves
  | raiseOperation _ => exact markUncertain_evolves
  | raiseLock _ _ _ => exact markUncertain_evolves
  | raiseMutation _ _ => exact markUncertain_evolves
  | recover _ _ _ _ =>
    simp only [Coordinator.perform,Ended.answer,Coordinator.recover]
    split
    · exact .refl self
    apply labelled_evolves
    split
    · exact .refl self
    · exact transaction_evolves
  | exitOperation _ => exact answer_evolves
  | exitLock _ _ _ => exact answer_evolves
  | assertClaim _ _ => exact answer_evolves
  | releaseClaim _ _ => exact answer_evolves
  | heartbeat _ => exact answer_evolves
  | ack _ _ => exact answer_evolves

theorem initializeScope_evolves (self : Coordinator) (readOnly : Bool) (fate : Fate) (db : Db) :
    self.Evolves (self.initializeScope readOnly fate db).self := by
  have hopened : self.Evolves { self with pool := true, readOnly := readOnly } :=
    ⟨rfl,rfl,fun h => h,fun h => h⟩
  unfold Coordinator.initializeScope
  split
  · exact .refl self
  split
  · exact .refl self
  dsimp only
  split
  · exact .refl self
  split
  · exact hopened.trans (.quarantine _)
  cases fate with
  | delivered => exact hopened
  | lostBeforeCommit cancelled => exact hopened.trans (.quarantine _)
  | lostAfterCommit cancelled => exact hopened.trans (.quarantine _)

end Life

namespace Call

def permit : Call → Option Operation
  | exitOperation op | raiseOperation op | enterLock op _ _ | exitLock op _ _ | raiseLock op _ _
  | tryClaimDocument op _ | assertClaim op _ | releaseClaim op _ | setPhase op _ _ _
  | heartbeat op | publish op _ _ _ _ | ack op _ | raiseMutation op _ => some op
  | takeWitness | discoverOrphans | enterOperation _ _ _ _ | recover _ _ _ _ => none

def guarded : Call → Bool
  | enterOperation _ _ _ _ | exitOperation _ | enterLock _ _ _ | exitLock _ _ _
  | tryClaimDocument _ _ | assertClaim _ _ | releaseClaim _ _ | setPhase _ _ _ _
  | heartbeat _ | publish _ _ _ _ _ => true
  | takeWitness | discoverOrphans | raiseOperation _ | raiseLock _ _ _ | ack _ _
  | raiseMutation _ _ | recover _ _ _ _ => false

def reads : Call → Bool
  | discoverOrphans | assertClaim _ _ => true
  | _ => false

def tries : Call → Bool
  | enterOperation _ _ _ _ | enterLock _ _ _ | tryClaimDocument _ _ => true
  | _ => false

def isLock : Call → Bool
  | enterLock _ _ _ | exitLock _ _ _ => true
  | _ => false

def isRecover : Call → Bool
  | recover _ _ _ _ => true
  | _ => false

def isRaise : Call → Bool
  | raiseOperation _ | raiseLock _ _ _ | raiseMutation _ _ => true
  | _ => false

/-- The checks that precede every write of a call. -/
structure Ready (c : Call) (coordinator : Coordinator) (db : Db) : Prop where
  usable : c ≠ .takeWitness → coordinator.Usable c.isRecover
  permitted : ∀ op, c.permit = some op →
    ∃ row, db.workspace = some row ∧ Live coordinator op row db

end Call

variable (self : Coordinator)

def Effect.Of (c : Call) : Effect → Prop
  | .register _ | .dropWitness _ | .fence _ => False
  | .grantWitness witness => c = .takeWitness ∧ witness = self.witness
  | .enter o => (∃ kind metadata, c = .enterOperation kind o.exclusive metadata o.id) ∧
      o.ownerId = self.ownerId ∧ o.witness = self.witness
  | .finish id _ => ∃ op, c = .exitOperation op ∧ op.id = id
  | .uncertain id _ => c.isRaise = true ∧ ∃ op, c.permit = some op ∧ op.id = id
  | .acquire id taskId keys => ∃ op given, c = .enterLock op taskId given ∧ op.id = id ∧
      keys = orderedKeys given
  | .release id taskId keys => ∃ op, c = .exitLock op taskId keys ∧ op.id = id
  | .claim r => ∃ op, c = .tryClaimDocument op r.docId ∧ op.id = r.operationId
  | .unclaim docId => ∃ op, c = .releaseClaim op docId
  | .phase id docId name metadata _ => ∃ op, c = .setPhase op name docId metadata ∧ op.id = id
  | .heartbeat id _ => ∃ op, c = .heartbeat op ∧ op.id = id
  | .publish m => ∃ op, c = .publish op m.backend m.nameSpace m.method m.id ∧
      op.id = m.operationId
  | .acknowledge id operationId _ => ∃ op, c = .ack op id ∧ op.id = operationId
  | .recover a _ => c = .recover a.oldGeneration a.actor a.reason a.confirmations

/-- The ways a call can end: what it answers, unless its writes were rolled back, and the
tables it leaves. -/
inductive Outcome (coordinator : Coordinator) (c : Call) (db : Db) : Option Answer → Db → Prop
  | refused : Outcome coordinator c db none db
  | fenced (reason : String) (hready : c.Ready coordinator db)
      (hchecks : c.guarded = true ∨ c = .discoverOrphans) :
      Outcome coordinator c db none (db.fence reason)
  | answered (a : Answer) (hready : c.Ready coordinator db) (hclear : c.guarded = true → db.Clear)
      (hquiet : c.reads = true ∨ c.tries = true ∧ a = .denied) : Outcome coordinator c db (some a) db
  | wrote (a : Answer) (e : Effect) (hready : c.Ready coordinator db)
      (hclear : c.guarded = true → db.Clear) (hdone : c.isLock = true → a = .done)
      (hof : e.Of coordinator c) (hallowed : e.Allowed db) :
      Outcome coordinator c db (some a) (e.apply db)

theorem Outcome.effect {self : Coordinator} {c : Call} {db db' : Db} {kept : Option Answer}
    (h : Outcome self c db kept db') :
    db' = db ∨ (∃ reason, c.Ready self db ∧ (c.guarded = true ∨ c = .discoverOrphans) ∧
        db' = db.fence reason) ∨
      ∃ e : Effect, e.Allowed db ∧ c.Ready self db ∧ e.Of self c ∧ db' = e.apply db := by
  cases h with
  | refused => exact .inl rfl
  | fenced reason hready hchecks => exact .inr (.inl ⟨reason,hready,hchecks,rfl⟩)
  | answered _ _ _ _ => exact .inl rfl
  | wrote a e hready _ _ hof hallowed => exact .inr (.inr ⟨e,hallowed,hready,hof,rfl⟩)

/-- What a body may leave for the wrapper. -/
def Ends {α : Type} (c : Call) (f : α → Answer) (db : Db)
    (r : Except Failure α) (db' : Db) : Prop :=
  match r with
  | .ok a => Outcome self c db (some (f a)) db'
  | .error e => e.delayed = true → Outcome self c db none db'

section Ends

variable {α : Type} {self : Coordinator} {c : Call} {f : α → Answer} {db : Db}

theorem ends_refused (e : Failure) : Ends self c f db (.error e) db := fun _ => .refused

theorem ends_fenced (hchecks : c.guarded = true ∨ c = .discoverOrphans)
    (hready : c.Ready self db) (m reason : String) :
    Ends self c f db (.error (.workspaceFenced m)) (db.fence reason) :=
  fun _ => .fenced reason hready hchecks

theorem transaction_outcome {body : WorkspaceRow → Tx Db Failure α} {fate : Fate}
    (hbody : self.Usable c.isRecover → ∀ row, db.workspace = some row →
      (body row).Post db (Ends self c f db)) :
    let e := (transaction c.isRecover body fate self db).answer f
    Outcome self c db e.kept e.db :=
  transaction_post (Q := fun kept db' => Outcome self c db (kept.map f) db') .refused hbody

theorem labelled_outcome {values : List (String × String)} {e : Ended Answer}
    (h : Outcome self c db e.kept e.db) :
    Outcome self c db (self.labelled values db e).kept (self.labelled values db e).db := by
  unfold Coordinator.labelled
  split
  · exact .refused
  · exact h

theorem ready_of_live {op : Operation} {row : WorkspaceRow} (husable : self.Usable c.isRecover)
    (hrow : db.workspace = some row) (hop : c.permit = some op) (hlive : Live self op row db) :
    c.Ready self db where
  usable := fun _ => husable
  permitted := by
    intro op' hop'
    rw [hop] at hop'
    cases hop'
    exact ⟨row,hrow,hlive⟩

theorem ready_of_usable (husable : self.Usable c.isRecover) (hop : c.permit = none) :
    c.Ready self db where
  usable := fun _ => husable
  permitted := by
    intro op' hop'
    rw [hop] at hop'
    cases hop'

theorem permit_outcome {op : Operation} {body : WorkspaceRow → Tx Db Failure α} {fate : Fate}
    (hop : c.permit = some op) (hguarded : c.guarded = true)
    (hbody : ∀ row, db.workspace = some row → (Live self op row db → c.Ready self db) →
      Refusals self op row db (Ends self c f db) → (body row).Post db (Ends self c f db)) :
    let e := (transaction c.isRecover body fate self db).answer f
    Outcome self c db e.kept e.db := by
  apply transaction_outcome
  intro husable row hrow
  have hready := ready_of_live husable hrow hop
  exact hbody row hrow hready
    ⟨ends_refused,fun hlive => ends_fenced (.inl hguarded) (hready hlive)⟩

theorem markUncertain_kept {operation : Operation} {reason : String} {fate : Fate} :
    (self.markUncertain operation reason fate db).kept =
        (transaction false (fenceUncertain self operation reason) fate self db).kept ∧
      (self.markUncertain operation reason fate db).db =
        (transaction false (fenceUncertain self operation reason) fate self db).db := by
  unfold Coordinator.markUncertain
  dsimp only
  split <;> exact ⟨rfl,rfl⟩

theorem markUncertain_outcome {operation : Operation} {reason : String} {fate : Fate}
    (hop : c.permit = some operation) (hraise : c.isRaise = true) (f : Unit → Answer) :
    let e := (self.markUncertain operation reason fate db).answer f
    Outcome self c db e.kept e.db := by
  have hplain : c.isRecover = false ∧ c.guarded = false ∧ c.isLock = false := by
    cases c <;> first | exact ⟨rfl,rfl,rfl⟩ | cases hraise
  obtain ⟨hrecover,hguarded,hlock⟩ := hplain
  have h := fun hbody => @transaction_outcome _ self c f db (fenceUncertain self operation reason)
    fate hbody
  rw [hrecover] at h
  simp only [Ended.answer,markUncertain_kept.1,markUncertain_kept.2] at h ⊢
  apply h
  intro husable row hrow
  apply fenceUncertain_post ends_refused
  intro hlive
  have hready := ready_of_live (c := c) (by rw [hrecover]; exact husable) hrow hop hlive
  exact .wrote _ (.uncertain operation.id reason) hready (by simp [hguarded]) (by simp [hlock])
    ⟨hraise,operation,hop,rfl⟩ hlive.active

end Ends

theorem perform_outcome (fate : Fate) (now : Nat) (db : Db) (c : Call) :
    Outcome self c db (self.perform fate now db c).kept (self.perform fate now db c).db := by
  cases c with
  | takeWitness =>
    simp only [Coordinator.perform,Coordinator.takeWitness]
    split
    · exact .refused
    · rename_i hfree
      exact .wrote _ (.grantWitness self.witness) ⟨fun h => absurd rfl h,nofun⟩ nofun nofun
        ⟨rfl,rfl⟩ hfree
  | discoverOrphans =>
    have h := @transaction_outcome _ self .discoverOrphans (fun _ => .done) db checkScope fate <| by
        intro husable row hrow
        have hready : Call.discoverOrphans.Ready self db := ready_of_usable husable rfl
        exact checkScope_post (fun m => ends_refused _) (ends_fenced (.inr rfl) hready)
          fun _ => .answered _ hready nofun (.inl rfl)
    simp only [Coordinator.perform,Coordinator.discoverOrphans]
    split <;> exact h
  | enterOperation kind exclusive metadata id =>
    apply labelled_outcome
    apply transaction_outcome
    intro husable row hrow
    have hready : (Call.enterOperation kind exclusive metadata id).Ready self db :=
      ready_of_usable husable rfl
    apply admitOperation_post ends_refused (ends_fenced (.inl rfl) hready)
    · intro hclear
      exact .answered _ hready (fun _ => ⟨row,hrow,hclear⟩) (.inr ⟨rfl,rfl⟩)
    · intro hclear hfree hfresh
      exact .wrote _ (.enter _) hready (fun _ => ⟨row,hrow,hclear⟩) nofun
        ⟨⟨kind,metadata,rfl⟩,rfl,rfl⟩ ⟨⟨row,hrow,hclear,rfl⟩,rfl,hfree,hfresh⟩
  | exitOperation op =>
    apply permit_outcome (c := .exitOperation op) rfl rfl
    intro row hrow hready hrefusals
    apply finishOperation_post hrefusals
    intro hlive hclear hpending hlocked
    exact .wrote _ (.finish op.id now) (hready hlive) (fun _ => ⟨row,hrow,hclear⟩) nofun
      ⟨op,rfl,rfl⟩ ⟨hlive.active,⟨row,hrow,hclear⟩,hpending,hlocked⟩
  | raiseOperation op => exact markUncertain_outcome rfl rfl _
  | enterLock op taskId keys =>
    apply labelled_outcome
    apply permit_outcome (c := .enterLock op taskId keys) rfl rfl
    intro row hrow hready hrefusals
    apply acquireLock_post hrefusals
    · intro hlive hclear
      exact .answered _ (hready hlive) (fun _ => ⟨row,hrow,hclear⟩) (.inr ⟨rfl,rfl⟩)
    · intro hlive hclear hfree
      exact .wrote _ (.acquire op.id taskId (orderedKeys keys)) (hready hlive)
        (fun _ => ⟨row,hrow,hclear⟩) (fun _ => rfl) ⟨op,keys,rfl,rfl,rfl⟩
        ⟨hlive.active,⟨row,hrow,hclear⟩,hfree⟩
  | exitLock op taskId keys =>
    apply permit_outcome (c := .exitLock op taskId keys) rfl rfl
    intro row hrow hready hrefusals
    apply releaseLock_post hrefusals
    intro hlive hclear
    exact .wrote _ (.release op.id taskId keys) (hready hlive) (fun _ => ⟨row,hrow,hclear⟩)
      (fun _ => rfl) ⟨op,rfl,rfl⟩ ⟨hlive.active,row,hrow,hclear⟩
  | raiseLock op taskId keys => exact markUncertain_outcome rfl rfl _
  | tryClaimDocument op docId =>
    apply labelled_outcome
    apply permit_outcome (c := .tryClaimDocument op docId) rfl rfl
    intro row hrow hready hrefusals
    apply tryClaimDocument_post hrefusals
    · intro hlive hclear
      exact .answered _ (hready hlive) (fun _ => ⟨row,hrow,hclear⟩) (.inr ⟨rfl,rfl⟩)
    · intro hlive hclear hfree
      exact .wrote _ (.claim _) (hready hlive) (fun _ => ⟨row,hrow,hclear⟩) nofun
        ⟨op,rfl,rfl⟩ ⟨hlive.active,⟨row,hrow,hclear⟩,hfree⟩
  | assertClaim op docId =>
    apply permit_outcome (c := .assertClaim op docId) rfl rfl
    intro row hrow hready hrefusals
    apply assertClaim_post hrefusals
    intro hlive hclear
    exact .answered _ (hready hlive) (fun _ => ⟨row,hrow,hclear⟩) (.inl rfl)
  | releaseClaim op docId =>
    apply permit_outcome (c := .releaseClaim op docId) rfl rfl
    intro row hrow hready hrefusals
    apply releaseClaim_post hrefusals
    intro hlive hclear
    exact .wrote _ (.unclaim docId) (hready hlive) (fun _ => ⟨row,hrow,hclear⟩) nofun
      ⟨op,rfl⟩ ⟨row,hrow,hclear⟩
  | setPhase op phase docId metadata =>
    apply labelled_outcome
    apply permit_outcome (c := .setPhase op phase docId metadata) rfl rfl
    intro row hrow hready hrefusals
    apply setPhase_post hrefusals
    intro hlive hclear
    exact .wrote _ (.phase op.id docId phase metadata now) (hready hlive)
      (fun _ => ⟨row,hrow,hclear⟩) nofun ⟨op,rfl,rfl⟩ ⟨hlive.active,row,hrow,hclear⟩
  | heartbeat op =>
    apply permit_outcome (c := .heartbeat op) rfl rfl
    intro row hrow hready hrefusals
    apply heartbeat_post hrefusals
    intro hlive hclear
    exact .wrote _ (.heartbeat op.id now) (hready hlive) (fun _ => ⟨row,hrow,hclear⟩) nofun
      ⟨op,rfl,rfl⟩ ⟨hlive.active,row,hrow,hclear⟩
  | publish op backend nameSpace method id =>
    apply labelled_outcome
    apply permit_outcome (c := .publish op backend nameSpace method id) rfl rfl
    intro row hrow hready hrefusals
    apply publishMutation_post hrefusals
    intro hlive hclear hfresh
    exact .wrote _ (.publish _) (hready hlive) (fun _ => ⟨row,hrow,hclear⟩) nofun
      ⟨op,rfl,rfl⟩ ⟨hlive.active,⟨row,hrow,hclear⟩,rfl,hfresh⟩
  | ack op id =>
    apply transaction_outcome
    intro husable row hrow
    apply ackMutation_post ends_refused
    intro hlive
    exact .wrote _ (.acknowledge id op.id now) (ready_of_live husable hrow rfl hlive) nofun nofun
      ⟨op,rfl,rfl⟩ hlive.active
  | raiseMutation op id => exact markUncertain_outcome rfl rfl _
  | recover expectedGeneration actor reason confirmations =>
    have h := @transaction_outcome _ self
      (.recover expectedGeneration actor reason confirmations) (fun _ => .done) db
      (recoverBody expectedGeneration actor reason confirmations now) fate <| by
        intro husable row hrow
        apply recoverBody_post hrow ends_refused
        intro hgen horphans before after
        exact .wrote _ (.recover _ now) (ready_of_usable husable rfl) nofun nofun rfl
          ⟨⟨row,hrow,hgen⟩,rfl,horphans⟩
    simp only [Coordinator.perform,Coordinator.recover]
    split
    · exact .refused
    unfold Coordinator.labelled
    split
    · exact .refused
    split
    · exact .refused
    · exact h

theorem labelled_result {α : Type} {values : List (String × String)} {self : Coordinator} {db : Db}
    {e : Ended α} {a : α} (h : (self.labelled values db e).result = .ok a)
    (hkept : e.result = .ok a → e.kept = some a) : (self.labelled values db e).kept = some a := by
  unfold Coordinator.labelled at h ⊢
  split
  · rename_i hblank
    rw [hblank] at h
    cases h
  · rename_i hlabels
    rw [hlabels] at h
    exact hkept h

theorem answer_result {α : Type} {administrative : Bool} {body : WorkspaceRow → Tx Db Failure α}
    {fate : Fate} {self : Coordinator} {db : Db} {f : α → Answer} {a : Answer}
    (h : ((transaction administrative body fate self db).answer f).result = .ok a) :
    ((transaction administrative body fate self db).answer f).kept = some a := by
  simp only [Ended.answer] at h ⊢
  cases hr : (transaction administrative body fate self db).result with
  | error e =>
    rw [hr] at h
    cases h
  | ok b =>
    rw [hr] at h
    cases h
    rw [transaction_result hr]
    rfl

theorem perform_result {self : Coordinator} {fate : Fate} {now : Nat} {db : Db} {c : Call}
    {a : Answer} (hc : c.guarded = true ∨ ∃ op id, c = .ack op id)
    (h : (self.perform fate now db c).result = .ok a) :
    (self.perform fate now db c).kept = some a := by
  cases c with
  | takeWitness => simp [Call.guarded] at hc
  | discoverOrphans => simp [Call.guarded] at hc
  | raiseOperation op => simp [Call.guarded] at hc
  | raiseLock op taskId keys => simp [Call.guarded] at hc
  | raiseMutation op id => simp [Call.guarded] at hc
  | recover expectedGeneration actor reason confirmations => simp [Call.guarded] at hc
  | enterOperation kind exclusive metadata id => exact labelled_result h answer_result
  | enterLock op taskId keys => exact labelled_result h answer_result
  | tryClaimDocument op docId => exact labelled_result h answer_result
  | setPhase op phase docId metadata => exact labelled_result h answer_result
  | publish op backend nameSpace method id => exact labelled_result h answer_result
  | exitOperation op => exact answer_result h
  | exitLock op taskId keys => exact answer_result h
  | assertClaim op docId => exact answer_result h
  | releaseClaim op docId => exact answer_result h
  | heartbeat op => exact answer_result h
  | ack op id => exact answer_result h

theorem registration_cases (readOnly : Bool) (db : Db) :
    self.registration readOnly db = db ∨
      ∃ manifestHash, self.registration readOnly db = db.register manifestHash := by
  unfold Coordinator.registration
  split
  · exact .inr ⟨_,rfl⟩
  · exact .inl rfl

theorem initializeScope_db (readOnly : Bool) (fate : Fate) (db : Db) :
    (self.initializeScope readOnly fate db).db = db ∨
      ∃ manifestHash, (self.initializeScope readOnly fate db).db = db.register manifestHash := by
  unfold Coordinator.initializeScope
  split
  · exact .inl rfl
  split
  · exact .inl rfl
  dsimp only
  split
  · exact .inl rfl
  split
  · exact .inl rfl
  cases fate with
  | delivered => exact registration_cases self readOnly db
  | lostBeforeCommit cancelled => exact .inl rfl
  | lostAfterCommit cancelled => exact registration_cases self readOnly db

namespace World

@[simp] theorem contexts_coordinators (w : World) (i : Nat) (e : Ended Answer) (c : Call) :
    (w.contexts i e c).coordinators = w.coordinators := by
  cases c <;> simp only [contexts] <;> repeat' split
  all_goals rfl

@[simp] theorem contexts_drawn (w : World) (i : Nat) (e : Ended Answer) (c : Call) :
    (w.contexts i e c).drawn = w.drawn := by
  cases c <;> simp only [contexts] <;> repeat' split
  all_goals rfl

variable {w w' : World}

theorem step_call {i : Nat} {fate : Fate} {now : Nat} {c : Call} {r : Reply}
    (h : w.step (.call i fate now c) = some (r, w')) :
    ∃ self, w.coordinators i = some self ∧ w.Enabled i self c ∧
      r = c.reply (self.perform fate now w.db c) ∧
      w' = (w.contexts i (self.perform fate now w.db c) c).ended i
        (self.perform fate now w.db c) := by
  simp only [step,bind_eq_some_iff,runCall] at h
  obtain ⟨self,hself,h⟩ := h
  split at h
  · rename_i henabled
    obtain ⟨rfl,rfl⟩ := Prod.mk.inj (some.inj h)
    exact ⟨self,hself,henabled,rfl,rfl⟩
  · cases h

/-- Where an effect comes from: a call of coordinator `i`, or the surroundings, which only
register the scope and end sessions. -/
inductive Made (w : World) (i : Nat) (owner : Coordinator) : Action → Effect → Prop
  | registered (a : Action) (manifestHash : String) : Made w i owner a (.register manifestHash)
  | dropped (a : Action) (witness : Nat) : Made w i owner a (.dropWitness witness)
  | fenced (fate : Fate) (now : Nat) (c : Call) (reason : String) (hready : c.Ready owner w.db) :
      Made w i owner (.call i fate now c) (.fence reason)
  | called (fate : Fate) (now : Nat) (c : Call) (e : Effect) (henabled : w.Enabled i owner c)
      (hready : c.Ready owner w.db) (hof : e.Of owner c) : Made w i owner (.call i fate now c) e

variable {a : Action}

theorem Made.grant {w : World} {i : Nat} {owner : Coordinator} {witness : Nat}
    (h : w.Made i owner a (.grantWitness witness)) :
    witness = owner.witness ∧ owner.witnessConnection = .absent := by
  cases h with
  | called fate now c _ henabled _ hof =>
    obtain ⟨rfl,hwitness⟩ := hof
    exact ⟨hwitness,henabled.2.2.2⟩

theorem Made.enter {w : World} {i : Nat} {owner : Coordinator} {o : OperationRow}
    (h : w.Made i owner a (.enter o)) :
    o.witness = owner.witness ∧ owner.witnessConnection = .connected := by
  cases h with
  | called fate now c _ _ hready hof =>
    obtain ⟨⟨kind,metadata,rfl⟩,-,hwitness⟩ := hof
    exact ⟨hwitness,(hready.usable nofun).connected rfl⟩

theorem step_cases (h : w.Step a w') :
    (∃ i created, w.coordinators i = none ∧ created.witness ∉ w.drawn ∧
      w' = { w with
        coordinators := Function.update w.coordinators i (some created)
        drawn := created.witness :: w.drawn }) ∨
    ∃ i before after, w.coordinators i = some before ∧ before.Evolves after ∧
      w'.coordinators = Function.update w.coordinators i (some after) ∧ w'.drawn = w.drawn ∧
      (w'.db = w.db ∨ ∃ e : Effect, e.Allowed w.db ∧ w.Made i before a e ∧
        w'.db = e.apply w.db) := by
  obtain ⟨r,h⟩ := h
  cases a with
  | create i ownerId witness manifestHash =>
    simp only [step] at h
    split at h
    · rename_i hfresh
      obtain ⟨-,rfl⟩ := Prod.mk.inj (some.inj h)
      exact .inl ⟨i,_,isNone_iff_eq_none.mp hfresh.1,hfresh.2,rfl⟩
    · cases h
  | initializeScope i readOnly fate =>
    simp only [step,map_eq_some_iff] at h
    obtain ⟨self,hself,h⟩ := h
    obtain ⟨-,rfl⟩ := Prod.mk.inj h
    refine .inr ⟨i,self,_,hself,initializeScope_evolves self readOnly fate w.db,rfl,rfl,?_⟩
    rcases initializeScope_db self readOnly fate w.db with hsame | ⟨manifestHash,hwritten⟩
    · exact .inl hsame
    · exact .inr ⟨.register manifestHash,trivial,.registered _ _,hwritten⟩
  | call i fate now c =>
    obtain ⟨self,hself,henabled,-,rfl⟩ := step_call h
    refine .inr ⟨i,self,_,hself,perform_evolves self fate now w.db c,?_,?_,?_⟩
    · simp only [ended,contexts_coordinators]
    · simp only [ended,contexts_drawn]
    · rcases (perform_outcome self fate now w.db c).effect with
        hsame | ⟨reason,hready,-,hfenced⟩ | ⟨e,hallowed,hready,hof,happly⟩
      · exact .inl hsame
      · exact .inr ⟨.fence reason,trivial,.fenced fate now c reason hready,hfenced⟩
      · exact .inr ⟨e,hallowed,.called fate now c e henabled hready hof,happly⟩
  | quarantine i =>
    simp only [step,map_eq_some_iff] at h
    obtain ⟨self,hself,h⟩ := h
    obtain ⟨-,rfl⟩ := Prod.mk.inj h
    exact .inr ⟨i,self,_,hself,.quarantine self,rfl,rfl,.inl rfl⟩
  | witnessCloses i =>
    simp only [step,map_eq_some_iff] at h
    obtain ⟨self,hself,h⟩ := h
    obtain ⟨-,rfl⟩ := Prod.mk.inj h
    have hevolves : self.Evolves
        { self with witnessConnection := self.witnessConnection.terminate } :=
      ⟨rfl,rfl,fun h => h,WitnessConnection.absent_of_terminate⟩
    exact .inr ⟨i,self,_,hself,hevolves,rfl,rfl,.inl rfl⟩
  | witnessLost i =>
    simp only [step,map_eq_some_iff] at h
    obtain ⟨self,hself,h⟩ := h
    obtain ⟨-,rfl⟩ := Prod.mk.inj h
    refine .inr ⟨i,self,self,hself,.refl self,?_,rfl,?_⟩
    · exact (update_eq_self_iff.mpr hself.symm).symm
    · exact .inr ⟨.dropWitness self.witness,trivial,.dropped _ _,rfl⟩

theorem step_contexts (h : w.Step a w') :
    (∃ i fate now c, a = .call i fate now c) ∨ (∀ i fate now c, a ≠ .call i fate now c) ∧
      w'.locks = w.locks ∧ w'.retained = w.retained ∧ w'.mutations = w.mutations := by
  obtain ⟨r,h⟩ := h
  cases a with
  | call i fate now c => exact .inl ⟨i,fate,now,c,rfl⟩
  | create i ownerId witness manifestHash =>
    simp only [step] at h
    split at h
    · obtain ⟨-,rfl⟩ := Prod.mk.inj (some.inj h)
      exact .inr ⟨nofun,rfl,rfl,rfl⟩
    · cases h
  | _ =>
    simp only [step,map_eq_some_iff] at h
    obtain ⟨self,-,h⟩ := h
    obtain ⟨-,rfl⟩ := Prod.mk.inj h
    exact .inr ⟨nofun,rfl,rfl,rfl⟩

theorem step_coordinators {j : Nat} {self : Coordinator}
    (h : w.Step a w') (hself : w.coordinators j = some self) :
    ∃ after, w'.coordinators j = some after ∧ self.Evolves after := by
  rcases step_cases h with ⟨i,created,hnone,-,rfl⟩ |
    ⟨i,before,after,hbefore,hevolves,hupdate,-,-⟩
  · have hne : j ≠ i := by
      rintro rfl
      rw [hnone] at hself
      cases hself
    exact ⟨self,by simp only [update_of_ne hne,hself],.refl self⟩
  · rw [hupdate]
    by_cases hj : j = i
    · subst j
      rw [hbefore] at hself
      cases hself
      exact ⟨after,update_self ..,hevolves⟩
    · exact ⟨self,by rw [update_of_ne hj,hself],.refl self⟩

theorem step_effect (h : w.Step a w') :
    w'.db = w.db ∨ ∃ e : Effect, e.Allowed w.db ∧ w'.db = e.apply w.db := by
  rcases step_cases h with ⟨i,created,-,-,rfl⟩ | ⟨i,before,after,-,-,-,-,hdb⟩
  · exact .inl rfl
  · rcases hdb with hsame | ⟨e,hallowed,-,happly⟩
    · exact .inl hsame
    · exact .inr ⟨e,hallowed,happly⟩

end World
end LightRAG.Coordination
