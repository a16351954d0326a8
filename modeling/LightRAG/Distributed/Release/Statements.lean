import LightRAG.Distributed.Release.Runs

/-!
# Stored functions statement by statement

Under READ COMMITTED a statement sees what was committed before it began and what its own
transaction wrote.
-/

namespace LightRAG.Release
open Table

/-- The arguments of `register_instance`. -/
structure Registration where
  scope : String
  instanceId : String
  slot : Slot
  config : String
  profile : String
  owner : Uuid
deriving DecidableEq

/-- The arguments of `admit_writer`. -/
structure Admission where
  scope : String
  instanceId : String
  epoch : Nat
  id : Uuid
  kind : String
  command : Option Uuid
  parent : Option Uuid
deriving DecidableEq

/-- Where the transaction of a session stands: the statements that ran and what they returned. -/
inductive Session
  | idle
  | register (a : Registration)
  | registerLocked (a : Registration)
  | registerInserted (a : Registration) (inserted : Option InstanceRow)
  | registered (inserted : Option InstanceRow)
  | admission (a : Admission)
  | admitLocked (a : Admission) (s : ScopeRow)
  | admitRead (a : Admission) (s : ScopeRow) (i : InstanceRow)
  | admitParent (a : Admission) (s : ScopeRow) (i : InstanceRow) (parentValid : Bool)
  | admitPassed (a : Admission) (i : InstanceRow)
  | admitInserted (t : TicketRow)
  | finish (instanceId : String) (ticket : Option Uuid) (uncertain : Bool)
  | finishUpdated (instanceId : String) (ticket : Uuid) (uncertain : Bool)
  | finishMissed
  | close (instanceId : String) (status : InstanceStatus)
  | closeChecked (instanceId : String)
  | closeUpdated (instanceId : String)
deriving DecidableEq

namespace Session

/-- The row lock of the scope, from `SELECT … FOR UPDATE` to the end of the transaction. -/
def locksScope : Session → Bool
  | registerLocked _ | registerInserted _ _ | registered _ | admitLocked _ _ | admitRead _ _ _
  | admitParent _ _ _ _ | admitPassed _ _ | admitInserted _ => true
  | _ => false

def locksTicket (id : Uuid) : Session → Bool
  | finishUpdated _ ticket _ => ticket = id
  | _ => false

def locksInstance (id : String) : Session → Bool
  | closeUpdated instanceId => instanceId = id
  | _ => false

/-- The transaction of a call begins. -/
def ofCall : Call → Option Session
  | .registerInstance scope instanceId slot config profile owner =>
    some (register ⟨scope, instanceId, slot, config, profile, owner⟩)
  | .admitWriter scope instanceId epoch id kind command parent =>
    some (admission ⟨scope, instanceId, epoch, id, kind, command, parent⟩)
  | .finishTicket instanceId ticket uncertain => some (finish instanceId ticket uncertain)
  | .closeInstance instanceId status => some (close instanceId status)
  | _ => none

end Session

/-- The committed rows, and the session of every connection. -/
structure Server where
  db : Db
  sessions : List Session

namespace Server

variable (server : Server)

def becomes (n : Nat) (s : Session) : Server :=
  { server with sessions := server.sessions.set n s }

/-- `COMMIT`. -/
def commits (n : Nat) (write : Db → Db) : Server :=
  ⟨write server.db, server.sessions.set n .idle⟩

/-- The next statement of session `n`, or its `COMMIT`. A function that raises or returns `NULL`
ends its transaction without a write; `none` waits for a row lock. -/
def next (n : Nat) : Session → Option Server
  | .idle => none
  | .register a =>
    if server.sessions.any (·.locksScope) then none
    else
      let s := server.db.scope
      some (server.becomes n
        (if s.scope ≠ a.scope ∨ a.profile ≠ s.profileHash ∨ a.config ≠ s.configFor a.slot then .idle
        else .registerLocked a))
  | .registerLocked a =>
    let new : InstanceRow := ⟨a.instanceId, a.slot, a.config, a.profile, a.owner, false, false⟩
    some (server.becomes n (.registerInserted a
      (if (server.db.getInstance a.instanceId).isNone then some new else none)))
  | .registerInserted a inserted =>
    some (server.becomes n (match inserted.or (server.db.getInstance a.instanceId) with
      | none => .idle
      | some i =>
        if i.slot ≠ a.slot ∨ i.configHash ≠ a.config ∨ i.coordinatorOwner ≠ a.owner ∨ i.closed
        then .idle
        else .registered inserted))
  | .registered inserted =>
    some (server.commits n fun db => inserted.elim db fun i => db.insertInstance i)
  | .admission a =>
    if server.sessions.any (·.locksScope) then none
    else some (server.becomes n
      (if server.db.scope.scope ≠ a.scope then .idle else .admitLocked a server.db.scope))
  | .admitLocked a s =>
    some (server.becomes n (match server.db.getInstance a.instanceId with
      | none => .idle
      | some i =>
        if i.closed ∨ i.retiring ∨ i.slot ≠ s.activeSlot ∨ a.epoch ≠ s.epoch then .idle
        else .admitRead a s i))
  | .admitRead a s i =>
    some (server.becomes n (.admitParent a s i (server.db.tickets.any fun t =>
      some t.id = a.parent ∧ t.instanceId = a.instanceId ∧ t.epoch = a.epoch ∧
        t.state = .active)))
  | .admitParent a s i parentValid =>
    some (server.becomes n
      (if !parentValid && (!s.gateOpen || server.db.uncertain) then .idle else .admitPassed a i))
  | .admitPassed a i =>
    some (server.becomes n
      (if (server.db.tickets.any fun t => t.id = a.id) ||
          !(a.command.all fun c => server.db.commands.any fun r => r.id = c) then .idle
      else .admitInserted ⟨a.id, a.instanceId, i.slot, a.epoch, a.command, a.kind, .active⟩))
  | .admitInserted t => some (server.commits n (Db.insertTicket t))
  | .finish instanceId ticket uncertain =>
    match ticket with
    | none => some (server.becomes n .finishMissed)
    | some id =>
      if server.sessions.any (·.locksTicket id) then none
      else some (server.becomes n
        (if server.db.tickets.any fun t => t.id = id ∧ t.instanceId = instanceId ∧ t.state = .active
        then .finishUpdated instanceId id uncertain
        else .finishMissed))
  | .finishUpdated instanceId id uncertain =>
    some (server.commits n (Db.settleTicket instanceId id (settledState uncertain)))
  -- the second `EXISTS` decides between an error and nothing to do
  | .finishMissed => some (server.becomes n .idle)
  | .close instanceId status =>
    some (server.becomes n
      (if !server.db.quiescent instanceId || status ≠ ⟨0, 0, 0, 0, 0, 0⟩ then .idle
      else .closeChecked instanceId))
  | .closeChecked instanceId =>
    if server.sessions.any (·.locksInstance instanceId) then none
    else some (server.becomes n
      (if server.db.instances.any fun i => i.instanceId = instanceId then .closeUpdated instanceId
      else .idle))
  | .closeUpdated instanceId => some (server.commits n (Db.closeInstance instanceId))

/-- A session that is idle takes a call, runs its next statement, or loses its connection. -/
inductive Action
  | start (n : Nat) (c : Call)
  | run (n : Nat)
  | cancel (n : Nat)
deriving DecidableEq

def step : Action → Option Server
  | .start n c =>
    if server.sessions[n]? = some .idle then (Session.ofCall c).map (server.becomes n) else none
  | .run n => server.sessions[n]?.bind (server.next n)
  | .cancel n => server.sessions[n]?.map fun _ => server.becomes n .idle

def Step (a : Action) (server' : Server) : Prop := server.step a = some server'

/-- Any number of connections to an enrolled scope. -/
def Init : Prop :=
  server.db.Enrolled ∧ ∀ s ∈ server.sessions, s = .idle

/-- The server after a list of actions, if each of them is enabled in a state that is `ok`. -/
def execute (ok : Server → Bool) : Server → List Action → Option Server
  | server, [] => some server
  | server, a :: as =>
    if ok server then (server.step a).bind fun server' => execute ok server' as else none

theorem execute_run {ok : Server → Bool} {server server' : Server} {as : List Action}
    (h : server.execute ok as = some server') :
    Run (fun s a s' => s.Step a s' ∧ ok s = true) server as server' := by
  induction as generalizing server with
  | nil =>
    cases h
    exact .nil _
  | cons a as ih =>
    simp only [execute] at h
    split at h
    · rename_i hok
      obtain ⟨server₁,hstep,hrest⟩ := Option.bind_eq_some_iff.mp h
      exact .cons ⟨hstep,hok⟩ (ih hrest)
    · cases h

end Server

/-- The statements of one session until it is idle or `fuel` statements have run. -/
def Server.drain : Nat → Server → Server
  | 0, server => server
  | fuel + 1, server =>
    match server.step (.run 0) with
    | none => server
    | some server' => drain fuel server'

section Alone

variable {db db' : Db} {now : Nat}

theorem drain_next {fuel : Nat} {s : Session} {s' : Session}
    (h : (Server.mk db [s]).next 0 s = some ⟨db', [s']⟩) :
    (Server.mk db [s]).drain (fuel + 1) = (Server.mk db' [s']).drain fuel := by
  simp [Server.drain,Server.step,h]

theorem drain_idle (fuel : Nat) : (Server.mk db [.idle]).drain fuel = ⟨db, [.idle]⟩ := by
  cases fuel <;> simp [Server.drain,Server.step,Server.next]

theorem closeInstance_alone {instanceId : String} {status : InstanceStatus} :
    (Server.mk db [.close instanceId status]).drain 3 =
      ⟨(db.perform now (.closeInstance instanceId status)).2, [.idle]⟩ := by
  refine perform_post (f := fun _ => Reply.done) (x := closeInstance instanceId status)
    (Q := fun _ db' => (Server.mk db [.close instanceId status]).drain 3 = ⟨db',[.idle]⟩) rfl ?_
  unfold closeInstance assertInstanceQuiescent
  simp only [Tx.post_bind,Tx.post_ite,Tx.post_raise,Tx.post_fetch,Tx.post_execute,Tx.post_pure]
  split
  · rename_i hbusy
    have hcheck : (Server.mk db [.close instanceId status]).next 0 (.close instanceId status) =
        some ⟨db,[.idle]⟩ := by
      rw [Server.next,if_pos hbusy]
      rfl
    rw [drain_next hcheck,drain_idle]
  rename_i hquiet
  have hcheck : (Server.mk db [.close instanceId status]).next 0 (.close instanceId status) =
      some ⟨db,[.closeChecked instanceId]⟩ := by
    rw [Server.next,if_neg hquiet]
    rfl
  rw [drain_next hcheck]
  split
  · rename_i hmissing
    have hupdate : (Server.mk db [.closeChecked instanceId]).next 0 (.closeChecked instanceId) =
        some ⟨db,[.idle]⟩ := by
      rw [Server.next,if_neg (by simp [Session.locksInstance]),if_neg (by simpa using hmissing)]
      rfl
    rw [drain_next hupdate,drain_idle]
  · rename_i hfound
    have hupdate : (Server.mk db [.closeChecked instanceId]).next 0 (.closeChecked instanceId) =
        some ⟨db,[.closeUpdated instanceId]⟩ := by
      rw [Server.next,if_neg (by simp [Session.locksInstance]),if_pos (by simpa using hfound)]
      rfl
    have hcommit : (Server.mk db [.closeUpdated instanceId]).next 0 (.closeUpdated instanceId) =
        some ⟨db.closeInstance instanceId,[.idle]⟩ := rfl
    rw [drain_next hupdate,drain_next hcommit,drain_idle]

theorem finishTicket_alone {instanceId : String} {ticket : Option Uuid} {uncertain : Bool} :
    (Server.mk db [.finish instanceId ticket uncertain]).drain 2 =
      ⟨(db.perform now (.finishTicket instanceId ticket uncertain)).2, [.idle]⟩ := by
  refine perform_post (f := fun _ => Reply.done) (x := finishTicket instanceId ticket uncertain)
    (Q := fun _ db' => (Server.mk db [.finish instanceId ticket uncertain]).drain 2 =
      ⟨db',[.idle]⟩) rfl ?_
  unfold finishTicket
  simp only [Tx.post_bind,Tx.post_fetch]
  have hmiss : (Server.mk db [.finishMissed]).next 0 .finishMissed = some ⟨db,[.idle]⟩ := rfl
  cases ticket with
  | none =>
    have hupdate : (Server.mk db [.finish instanceId none uncertain]).next 0
        (.finish instanceId none uncertain) = some ⟨db,[.finishMissed]⟩ := rfl
    rw [drain_next hupdate,drain_next hmiss,drain_idle]
    simp
  | some id =>
    simp only [Option.some.injEq]
    by_cases hopen : (db.tickets.any fun t =>
        t.id = id ∧ t.instanceId = instanceId ∧ t.state = .active) = true
    · have hupdate : (Server.mk db [.finish instanceId (some id) uncertain]).next 0
          (.finish instanceId (some id) uncertain) =
            some ⟨db,[.finishUpdated instanceId id uncertain]⟩ := by
        rw [Server.next,if_pos hopen]
        rfl
      rw [drain_next hupdate]
      rw [if_pos hopen]
      rfl
    · have hupdate : (Server.mk db [.finish instanceId (some id) uncertain]).next 0
          (.finish instanceId (some id) uncertain) = some ⟨db,[.finishMissed]⟩ := by
        rw [Server.next,if_neg hopen]
        rfl
      rw [drain_next hupdate,drain_next hmiss,if_neg hopen]
      split <;> trivial

theorem getInstance_insertInstance {i : InstanceRow} (hnew : db.getInstance i.instanceId = none)
    (id : String) : (db.insertInstance i).getInstance id =
      if id = i.instanceId then some i else db.getInstance id := by
  apply lookup_append_new
  exact hnew

theorem registerInstance_alone (a : Registration) :
    (Server.mk db [.register a]).drain 4 = ⟨(db.perform now (.registerInstance a.scope a.instanceId
      a.slot a.config a.profile a.owner)).2, [.idle]⟩ := by
  refine perform_post (f := fun _ => Reply.done)
    (Q := fun _ db' => (Server.mk db [.register a]).drain 4 = ⟨db',[.idle]⟩) rfl ?_
  unfold registerInstance strictScope strictInstance
  simp only [Tx.post_bind,Tx.post_ite,Tx.post_raise,Tx.post_fetch,Tx.post_execute,Tx.post_pure]
  have hlock : (Server.mk db [.register a]).next 0 (.register a) = some ⟨db,[if
      db.scope.scope ≠ a.scope ∨ a.profile ≠ db.scope.profileHash ∨ a.config ≠ db.scope.configFor a.slot
        then .idle else .registerLocked a]⟩ := by
    rfl
  rw [drain_next hlock]
  split
  · rename_i hscope
    rw [if_pos (.inl hscope),drain_idle]
  rename_i hscope
  split
  · rename_i hprofile
    rw [if_pos (.inr (by simpa using hprofile)),drain_idle]
  rename_i hprofile
  rw [if_neg (not_or.mpr ⟨hscope,by simpa using hprofile⟩)]
  let i : InstanceRow := ⟨a.instanceId,a.slot,a.config,a.profile,a.owner,false,false⟩
  split
  · rename_i hnew
    have hnone : db.getInstance a.instanceId = none := by simpa using hnew
    have hinsert : (Server.mk db [.registerLocked a]).next 0 (.registerLocked a) =
        some ⟨db,[.registerInserted a (some i)]⟩ := by
      rw [Server.next,if_pos hnew]
      rfl
    have hcheck : (Server.mk db [.registerInserted a (some i)]).next 0
        (.registerInserted a (some i)) = some ⟨db,[.registered (some i)]⟩ := by
      simp [Server.next,Server.becomes,i]
    have hcommit : (Server.mk db [.registered (some i)]).next 0 (.registered (some i)) =
        some ⟨db.insertInstance i,[.idle]⟩ := rfl
    rw [getInstance_insertInstance hnone,if_pos rfl]
    simp only [Tx.post_pure]
    rw [if_neg (by simp),drain_next hinsert,drain_next hcheck,drain_next hcommit,drain_idle]
  · rename_i hold
    have hinsert : (Server.mk db [.registerLocked a]).next 0 (.registerLocked a) =
        some ⟨db,[.registerInserted a none]⟩ := by
      rw [Server.next,if_neg hold]
      rfl
    rw [drain_next hinsert]
    cases hfound : db.getInstance a.instanceId with
    | none => simp [hfound] at hold
    | some i =>
      simp only [Tx.post_pure]
      have hcheck : (Server.mk db [.registerInserted a none]).next 0 (.registerInserted a none) =
          some ⟨db,[if i.slot ≠ a.slot ∨ i.configHash ≠ a.config ∨ i.coordinatorOwner ≠ a.owner ∨
            i.closed = true then .idle else .registered none]⟩ := by
        simp only [Server.next]
        split <;> simp_all [Server.becomes]
      rw [drain_next hcheck]
      split
      · rename_i hconflict
        rw [if_pos (by simpa [or_assoc] using hconflict),drain_idle]
      · rename_i hsame
        have hcommit : (Server.mk db [.registered none]).next 0 (.registered none) =
            some ⟨db,[.idle]⟩ := rfl
        rw [if_neg (by simpa [or_assoc] using hsame),drain_next hcommit,drain_idle]

theorem admitWriter_alone (a : Admission) :
    (Server.mk db [.admission a]).drain 6 =
      ⟨(db.perform now (.admitWriter a.scope a.instanceId a.epoch a.id a.kind a.command
        a.parent)).2, [.idle]⟩ := by
  refine perform_post (f := Reply.ticket)
    (Q := fun _ db' => (Server.mk db [.admission a]).drain 6 = ⟨db',[.idle]⟩) rfl ?_
  unfold admitWriter strictScope strictInstance
  simp only [Tx.post_bind,Tx.post_ite,Tx.post_raise,Tx.post_fetch,Tx.post_execute,Tx.post_pure]
  have hlock : (Server.mk db [.admission a]).next 0 (.admission a) =
      some ⟨db,[if db.scope.scope ≠ a.scope then .idle else .admitLocked a db.scope]⟩ := by
    rfl
  rw [drain_next hlock]
  split
  · rw [drain_idle]
  cases hfound : db.getInstance a.instanceId with
  | none =>
    have hread : (Server.mk db [.admitLocked a db.scope]).next 0 (.admitLocked a db.scope) =
        some ⟨db,[.idle]⟩ := by
      simp only [Server.next,hfound]
      rfl
    simp only [Tx.post_raise]
    rw [drain_next hread,drain_idle]
  | some i =>
    simp only [Tx.post_pure]
    have hread : (Server.mk db [.admitLocked a db.scope]).next 0 (.admitLocked a db.scope) =
        some ⟨db,[if i.closed ∨ i.retiring ∨ i.slot ≠ db.scope.activeSlot ∨ a.epoch ≠ db.scope.epoch
          then .idle else .admitRead a db.scope i]⟩ := by
      simp only [Server.next]
      split <;> simp_all [Server.becomes]
    rw [drain_next hread]
    split
    · rename_i hidle
      rw [if_pos (by simpa [or_assoc] using hidle),drain_idle]
    rename_i hworks
    have hworks' : ¬ (i.closed ∨ i.retiring ∨ i.slot ≠ db.scope.activeSlot ∨
        a.epoch ≠ db.scope.epoch) := by
      simpa [or_assoc] using hworks
    have hparent : (Server.mk db [.admitRead a db.scope i]).next 0 (.admitRead a db.scope i) =
        some ⟨db,[.admitParent a db.scope i (db.tickets.any fun t =>
          some t.id = a.parent ∧ t.instanceId = a.instanceId ∧ t.epoch = a.epoch ∧
            t.state = .active)]⟩ := rfl
    rw [if_neg hworks',drain_next hparent]
    generalize (db.tickets.any fun t => (some t.id = a.parent ∧ t.instanceId = a.instanceId ∧
      t.epoch = a.epoch ∧ t.state = .active : Bool)) = parentValid
    split
    · rename_i hclosed
      have hgate : (Server.mk db [.admitParent a db.scope i parentValid]).next 0
          (.admitParent a db.scope i parentValid) = some ⟨db,[.idle]⟩ := by
        rw [Server.next,if_pos hclosed]
        rfl
      rw [drain_next hgate,drain_idle]
    rename_i hopen
    have hgate : (Server.mk db [.admitParent a db.scope i parentValid]).next 0
        (.admitParent a db.scope i parentValid) = some ⟨db,[.admitPassed a i]⟩ := by
      rw [Server.next,if_neg hopen]
      rfl
    let t : TicketRow := ⟨a.id,a.instanceId,i.slot,a.epoch,a.command,a.kind,.active⟩
    have hinsert : (Server.mk db [.admitPassed a i]).next 0 (.admitPassed a i) =
        some ⟨db,[if db.tickets.any (fun t => t.id = a.id) ||
          !(a.command.all fun c => db.commands.any fun r => r.id = c) then .idle
            else .admitInserted t]⟩ := by
      rfl
    rw [drain_next hgate,drain_next hinsert]
    split
    · rename_i hduplicate
      rw [if_pos (by simp only [hduplicate,Bool.true_or]),drain_idle]
    rename_i hfresh
    split
    · rename_i hunknown
      rw [if_pos (by simp only [hunknown,Bool.or_true]),drain_idle]
    · rename_i hknown
      have hcommit : (Server.mk db [.admitInserted t]).next 0 (.admitInserted t) =
          some ⟨db.insertTicket t,[.idle]⟩ := rfl
      rw [if_neg,drain_next hcommit,drain_idle]
      rw [Bool.or_eq_true]
      exact not_or.mpr ⟨hfresh,hknown⟩

theorem drain_add (n m : Nat) (server : Server) :
    server.drain (n + m) = (server.drain n).drain m := by
  induction n generalizing server with
  | zero =>
    rw [Nat.zero_add]
    rfl
  | succ n ih =>
    rw [Nat.succ_add]
    cases hstep : server.step (.run 0) with
    | none =>
      have hstuck : ∀ k, server.drain k = server := by
        intro k
        cases k with
        | zero => rfl
        | succ k => simp [Server.drain,hstep]
      simp only [hstuck]
    | some server' => simpa [Server.drain,hstep] using ih server'

theorem drain_call {c : Call} {s : Session} (h : Session.ofCall c = some s) :
    (Server.mk db [s]).drain 6 = ⟨(db.perform now c).2, [.idle]⟩ := by
  cases c with
  | registerInstance scope instanceId slot config profile owner =>
    cases h
    rw [drain_add 4 2,registerInstance_alone ⟨scope,instanceId,slot,config,profile,owner⟩,
      drain_idle]
  | admitWriter scope instanceId epoch id kind command parent =>
    cases h
    exact admitWriter_alone ⟨scope,instanceId,epoch,id,kind,command,parent⟩
  | finishTicket instanceId ticket uncertain =>
    cases h
    rw [drain_add 2 4,finishTicket_alone,drain_idle]
  | closeInstance instanceId status =>
    cases h
    rw [drain_add 3 3,closeInstance_alone,drain_idle]
  | _ => cases h

theorem drain_call_close :
    (Server.mk enrolledDb [.close "a" ⟨0, 0, 0, 0, 0, 0⟩]).drain 6 =
      ⟨(enrolledDb.perform 0 (.closeInstance "a" ⟨0, 0, 0, 0, 0, 0⟩)).2, [.idle]⟩ :=
  drain_call rfl

end Alone
end LightRAG.Release
