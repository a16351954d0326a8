import LightRAG.Distributed.Release.Writers

/-!
# The command queue

Commands are numbered as they are enqueued and claimed in that order, each with a ticket of its
own; the executor that claimed a command is the one that finishes it.
-/

namespace LightRAG.Release
open Table List

def Event.claimed : Event → Option CommandRow
  | .call _ (.claimCommand _ _ _ _) (.ok (.claimed c)) => c
  | _ => none

/-- The parent argument of a direct admission. -/
def Event.admits : Event → Option (Option Uuid)
  | .call _ (.admitWriter _ _ _ _ _ _ parent) _ => some parent
  | _ => none

inductive CommandsStep (db : Db) (e : Event) (db' : Db) : Prop
  | same (hclaimed : e.claimed = none) (hcommands : db'.commands = db.commands)
  | enqueued (row : CommandRow) (hclaimed : e.claimed = none)
      (hcommands : db'.commands = db.commands ++ [row]) (hqueued : row.state = .queued)
      (hdrawn : row.sequence = db.nextSequence ∧ db'.nextSequence = db.nextSequence + 1)
      (hkey : ∀ c ∈ db.commands, c.key ≠ row.key) (hid : ∀ c ∈ db.commands, c.id ≠ row.id)
      (hclean : db.cleanupOwns row.envelope.sourceRefs = false)
      (hroom : (db.commands.countP fun c => c.state.unfinished) < db.scope.policy.queueCapacity)
  | claimed (c : CommandRow) (t : TicketRow) (i : InstanceRow) (hnext : db.nextQueued = some c)
      (hclaimed : e.claimed = some (c.claimedBy t.instanceId t.epoch t.id))
      (hcommands : db'.commands = updateWhere (fun r => r.id = c.id)
        (fun r => r.claimedBy t.instanceId t.epoch t.id) db.commands)
      (htickets : db'.tickets = db.tickets ++ [t]) (hcommand : t.commandId = some c.id)
      (hadmits : db.Admits t none i)
  | finished (c : CommandRow) (t : TicketRow) (now : Nat) (state : CommandState) (result : String)
      (hevent : e = .call now (.finishCommand t.instanceId c.id state result) (.ok .done))
      (hterminal : state.isTerminal = true) (hfound : lookup CommandRow.id db.commands c.id = some c)
      (hexecuting : c.state = .executing) (hexecutor : ∀ i, c.executor = some i → i = t.instanceId)
      (hcommands : db'.commands = updateWhere (fun r => r.id = c.id)
        (fun r => { r with state := state, result := some result }) db.commands)
      (hticket : t ∈ db.tickets) (hrecorded : c.ticketId = some t.id)
      (hopen : t.state = .active ∨ t.state = settledState (state = .uncertain))
      (htickets : db'.tickets =
        (db.settleTicket t.instanceId t.id (settledState (state = .uncertain))).tickets)

section Steps

variable {db db' : Db} {e : Event}

theorem claimed_of_quiet {now : Nat} {c : Call} {result : Except Failure Reply}
    (hquiet : ∀ r, result = .ok r → c.quiet r = true) :
    (Event.call now c result).claimed = none := by
  cases result with
  | error f => cases c <;> rfl
  | ok r =>
    have hq := hquiet r rfl
    cases c <;> try rfl
    cases r <;> try rfl
    rename_i row
    cases row with
    | none => rfl
    | some row => cases hq

theorem commands_step (hstep : Step db e db') : CommandsStep db e db' := by
  cases hstep.change with
  | none hquiet => exact .same (claimed_of_quiet hquiet) rfl
  | closes _ | coordination _ | draws => exact .same rfl rfl
  | wrote hwrites =>
    cases hwrites with
    | enqueueCommand hnew hclean hroom hfresh =>
      exact .enqueued _ rfl rfl rfl ⟨rfl,rfl⟩ hnew hfresh hclean hroom
    | claimCommand _ hnext hcommand _ hadmits =>
      exact .claimed _ _ _ hnext rfl rfl rfl hcommand hadmits
    | finishCommand hterminal hfound hexecutor hexecuting hticket hrecorded hopen =>
      exact .finished _ _ _ _ _ rfl hterminal hfound hexecuting hexecutor rfl hticket hrecorded
        hopen rfl
    | _ => exact .same rfl rfl

theorem policy_step (hstep : Step db e db') :
    db'.scope.policy = db.scope.policy ∧ db.nextSequence ≤ db'.nextSequence := by
  cases hstep.change with
  | none _ | closes _ | coordination _ => exact ⟨rfl,Nat.le_refl _⟩
  | draws => exact ⟨rfl,Nat.le_succ _⟩
  | wrote hwrites =>
    cases hwrites with
    | enqueueCommand => exact ⟨rfl,Nat.le_succ _⟩
    | _ => exact ⟨rfl,Nat.le_refl _⟩

theorem grants_step (hstep : Step db e db') {t : TicketRow} (ht : t ∈ db'.tickets)
    (hnew : ∀ t₀ ∈ db.tickets, t₀.id ≠ t.id) :
    (∃ parent i, e.admits = some parent ∧ db.Admits t parent i) ∨
    (∃ (c : CommandRow) (i : InstanceRow), e.claimed = some (c.claimedBy t.instanceId t.epoch t.id) ∧
      t.commandId = some c.id ∧ db.Admits t none i) := by
  have hold : t ∉ db.tickets := fun h => hnew t h rfl
  cases hstep.change with
  | none _ | closes _ | coordination _ | draws => exact absurd ht hold
  | wrote hwrites =>
    cases hwrites with
    | admitWriter _ hadmits =>
      rcases mem_append.mp ht with h | h
      · exact absurd h hold
      · rw [mem_singleton] at h
        subst h
        exact .inl ⟨_,_,rfl,hadmits⟩
    | claimCommand _ _ hcommand _ hadmits =>
      rcases mem_append.mp ht with h | h
      · exact absurd h hold
      · rw [mem_singleton] at h
        subst h
        exact .inr ⟨_,_,rfl,hcommand,hadmits⟩
    | finishTicket =>
      obtain ⟨t₀,ht₀,⟨_,rfl⟩ | ⟨_,rfl⟩⟩ := mem_updateWhere.mp ht
      · exact absurd rfl (hnew t₀ ht₀)
      · exact absurd ht₀ hold
    | finishCommand =>
      obtain ⟨t₀,ht₀,⟨_,rfl⟩ | ⟨_,rfl⟩⟩ := mem_updateWhere.mp ht
      · exact absurd rfl (hnew t₀ ht₀)
      · exact absurd ht₀ hold
    | _ => exact absurd ht hold

theorem ids_settleTicket {instanceId : String} {ticket : Uuid} {state : TicketState} :
    (db.settleTicket instanceId ticket state).tickets.map TicketRow.id =
      db.tickets.map TicketRow.id :=
  map_updateWhere fun _ => rfl

theorem ticketIds_step (h : (db.tickets.map TicketRow.id).Nodup) (hstep : Step db e db') :
    (db'.tickets.map TicketRow.id).Nodup := by
  cases hstep.change with
  | none _ | closes _ | coordination _ | draws => exact h
  | wrote hwrites =>
    cases hwrites with
    | admitWriter _ hadmits => exact nodup_append_new h hadmits.fresh
    | claimCommand _ _ _ _ hadmits => exact nodup_append_new h hadmits.fresh
    | finishTicket => rwa [ids_settleTicket]
    | finishCommand =>
      rw [ids_settleTicket]
      exact h
    | _ => exact h

theorem of_nextQueued {c : CommandRow} (h : db.nextQueued = some c) :
    c ∈ db.commands ∧ c.state = .queued ∧
      ∀ c' ∈ db.commands, c'.state = .queued → c.sequence ≤ c'.sequence := by
  obtain ⟨hmem,hmin⟩ := of_first h
  have hc := mem_filter.mp hmem
  refine ⟨hc.1,by simpa using hc.2,?_⟩
  intro c' hc' hqueued
  exact hmin c' (mem_filter.mpr ⟨hc',by simp [hqueued]⟩)

end Steps

structure Queue (db : Db) : Prop where
  keys : (db.commands.map CommandRow.key).Nodup
  ids : (db.commands.map CommandRow.id).Nodup
  order : (db.commands.map CommandRow.sequence).Nodup
  drawn : ∀ c ∈ db.commands, c.sequence < db.nextSequence
  fifo : ∀ c ∈ db.commands, ∀ c' ∈ db.commands, c.state = .queued → c'.state ≠ .queued →
    c'.sequence < c.sequence
  executed : ∀ c ∈ db.commands, c.state = .executing → ∃ i, c.executor = some i
  room : (db.commands.countP fun c => c.state.unfinished) ≤ db.scope.policy.queueCapacity
  tickets : (db.tickets.map TicketRow.id).Nodup

/-- An update of one command that keeps what the queue orders by and frees no slot. -/
structure Moves (c : CommandRow) (f : CommandRow → CommandRow) : Prop where
  key : ∀ r, (f r).key = r.key
  id : ∀ r, (f r).id = r.id
  sequence : ∀ r, (f r).sequence = r.sequence
  left : (f c).state ≠ .queued
  unfinished : c.state.unfinished = true
  executed : (f c).state = .executing → ∃ i, (f c).executor = some i

namespace Queue

variable {db db' : Db} {e : Event}

theorem enrolled (h : db.Enrolled) : Queue db := by
  refine ⟨?_,?_,?_,?_,?_,?_,?_,?_⟩ <;> simp [h.commands,h.tickets]

theorem mem_update {c r : CommandRow} {f : CommandRow → CommandRow} (h : Queue db)
    (hc : c ∈ db.commands) (hr : r ∈ updateWhere (fun r => r.id = c.id) f db.commands) :
    r = f c ∨ r ∈ db.commands ∧ r ≠ c := by
  obtain ⟨r₀,hr₀,⟨hpick,rfl⟩ | ⟨hpick,rfl⟩⟩ := mem_updateWhere.mp hr
  · have hid : r₀.id = c.id := by simpa using hpick
    left
    rw [eq_of_key h.ids hr₀ hc hid]
  · right
    refine ⟨hr₀,?_⟩
    rintro rfl
    simp at hpick

theorem update (h : Queue db) {c : CommandRow} {f : CommandRow → CommandRow}
    (hc : c ∈ db.commands) (hmoves : Moves c f)
    (hfirst : ∀ r ∈ db.commands, r ≠ c → r.state = .queued → c.sequence < r.sequence)
    (hcommands : db'.commands = updateWhere (fun r => r.id = c.id) f db.commands)
    (hdrawn : db.nextSequence ≤ db'.nextSequence)
    (hpolicy : db'.scope.policy = db.scope.policy)
    (htickets : (db'.tickets.map TicketRow.id).Nodup) : Queue db' := by
  refine ⟨?_,?_,?_,?_,?_,?_,?_,htickets⟩
  · rw [hcommands,map_updateWhere hmoves.key]
    exact h.keys
  · rw [hcommands,map_updateWhere hmoves.id]
    exact h.ids
  · rw [hcommands,map_updateWhere hmoves.sequence]
    exact h.order
  · intro r hr
    rw [hcommands] at hr
    rcases h.mem_update hc hr with rfl | ⟨hold,_⟩
    · have hbound := h.drawn c hc
      rw [hmoves.sequence]
      omega
    · have hbound := h.drawn r hold
      omega
  · intro r hr r' hr' hqueued hleft
    rw [hcommands] at hr hr'
    rcases h.mem_update hc hr with rfl | ⟨hold,hne⟩
    · exact absurd hqueued hmoves.left
    rcases h.mem_update hc hr' with rfl | ⟨hold',_⟩
    · rw [hmoves.sequence]
      exact hfirst r hold hne hqueued
    · exact h.fifo r hold r' hold' hqueued hleft
  · intro r hr hexecuting
    rw [hcommands] at hr
    rcases h.mem_update hc hr with rfl | ⟨hold,_⟩
    · exact hmoves.executed hexecuting
    · exact h.executed r hold hexecuting
  · rw [hcommands,hpolicy]
    have hless : ((updateWhere (fun r => r.id = c.id) f db.commands).countP
        fun r => r.state.unfinished) ≤ db.commands.countP fun r => r.state.unfinished := by
      rw [updateWhere,countP_map]
      apply countP_mono_left
      intro r hr hopen
      by_cases hid : r.id = c.id
      · rw [eq_of_key h.ids hr hc hid]
        exact hmoves.unfinished
      · simpa [hid] using hopen
    exact hless.trans h.room

theorem step (h : Queue db) (hstep : Step db e db') : Queue db' := by
  obtain ⟨hpolicy,hdrawn⟩ := policy_step hstep
  have htickets := ticketIds_step h.tickets hstep
  cases commands_step hstep with
  | same _ hcommands =>
    obtain ⟨keys,ids,order,drawn,fifo,executed,room,_⟩ := h
    rw [← hcommands] at keys ids order drawn fifo executed room
    rw [← hpolicy] at room
    exact ⟨keys,ids,order,fun c hc => (drawn c hc).trans_le hdrawn,fifo,executed,room,htickets⟩
  | enqueued row _ hcommands hqueued hsequence hkey hid _ hroom =>
    refine ⟨?_,?_,?_,?_,?_,?_,?_,htickets⟩
    · rw [hcommands]
      exact nodup_append_new h.keys hkey
    · rw [hcommands]
      exact nodup_append_new h.ids hid
    · rw [hcommands]
      apply nodup_append_new h.order
      intro c hc
      have hbound := h.drawn c hc
      omega
    · intro c hc
      rw [hcommands] at hc
      rcases mem_append.mp hc with hold | hnew
      · have hbound := h.drawn c hold
        omega
      · rw [mem_singleton] at hnew
        subst hnew
        omega
    · intro c hc c' hc' hq hleft
      rw [hcommands] at hc hc'
      have hold' : c' ∈ db.commands := by
        rcases mem_append.mp hc' with hold | hnew
        · exact hold
        · rw [mem_singleton] at hnew
          subst hnew
          exact absurd hqueued hleft
      rcases mem_append.mp hc with hold | hnew
      · exact h.fifo c hold c' hold' hq hleft
      · rw [mem_singleton] at hnew
        subst hnew
        have hbound := h.drawn c' hold'
        omega
    · intro c hc hexecuting
      rw [hcommands] at hc
      rcases mem_append.mp hc with hold | hnew
      · exact h.executed c hold hexecuting
      · rw [mem_singleton] at hnew
        subst hnew
        rw [hqueued] at hexecuting
        cases hexecuting
    · rw [hcommands,hpolicy,countP_append,countP_singleton]
      split <;> omega
  | claimed c t i hnext _ hcommands _ _ _ =>
    obtain ⟨hc,hqueued,hmin⟩ := of_nextQueued hnext
    have hmoves : Moves c fun r => r.claimedBy t.instanceId t.epoch t.id :=
      ⟨fun _ => rfl,fun _ => rfl,fun _ => rfl,nofun,by rw [hqueued]; rfl,fun _ => ⟨_,rfl⟩⟩
    apply h.update hc hmoves _ hcommands hdrawn hpolicy htickets
    intro r hr hne hq
    have hle := hmin r hr hq
    have hother : c.sequence ≠ r.sequence := fun heq => hne (eq_of_key h.order hr hc heq.symm)
    omega
  | finished c t now state result _ hterminal hfound hexecuting _ hcommands _ _ _ _ =>
    have hc := (mem_of_lookup hfound).1
    have hmoves : Moves c fun r => { r with state := state, result := some result } := by
      refine ⟨fun _ => rfl,fun _ => rfl,fun _ => rfl,?_,by rw [hexecuting]; rfl,?_⟩
      · cases state <;> simp [CommandState.isTerminal] at hterminal ⊢
      · cases state <;> simp [CommandState.isTerminal] at hterminal ⊢
    apply h.update hc hmoves _ hcommands hdrawn hpolicy htickets
    intro r hr _ hq
    exact h.fifo r hr c hc hq (by rw [hexecuting]; decide)

end Queue

/-- What `enqueue_command` checks of an instance and of an envelope. -/
def Db.identifies (db : Db) (scope instanceId principal key hash : String)
    (envelope : CommandEnvelope) : Bool :=
  db.scope.scope = scope && (db.instances.any fun i => i.instanceId = instanceId ∧ !i.closed) &&
    envelope.scope = scope && envelope.principalId = principal && envelope.payloadHash = hash &&
    envelope.idempotencyKey = key

/-- The call found the command under its key: it changes nothing, refuses another payload and
returns the row to an instance that identifies itself. -/
structure Retried (db : Db) (c : CommandRow) (hash : String) (identified : Bool)
    (result : Except Failure Reply) (db' : Db) : Prop where
  unchanged : db' = db
  refused : c.payloadHash ≠ hash → ∃ f, result = .error f
  returned : c.payloadHash = hash → identified = true → result = .ok (.command c)

theorem enqueue_retried {db : Db} {now : Nat} {scope instanceId principal key hash : String}
    {id : Uuid} {envelope : CommandEnvelope} {c : CommandRow} (h : Queue db)
    (hc : c ∈ db.commands) (hkey : c.key = (principal, key)) :
    let r := db.perform now (.enqueueCommand scope instanceId id principal key hash envelope)
    Retried db c hash (db.identifies scope instanceId principal key hash envelope) r.1 r.2 := by
  have hfound : lookup CommandRow.key db.commands (principal, key) = some c :=
    (lookup_eq_some h.keys).mpr ⟨hc,hkey⟩
  apply perform_post (f := Reply.command)
    (x := enqueueCommand scope instanceId id principal key hash envelope) rfl
  have hrefused : ∀ f : Failure,
      db.identifies scope instanceId principal key hash envelope = false →
        Retried db c hash (db.identifies scope instanceId principal key hash envelope)
          (.error f) db := by
    intro f hno
    refine ⟨rfl,fun _ => ⟨f,rfl⟩,?_⟩
    intro _ hyes
    rw [hno] at hyes
    cases hyes
  unfold enqueueCommand strictScope
  simp only [Tx.post_bind,Tx.post_ite,Tx.post_fetch,Tx.post_pure]
  split
  · rename_i hscope
    apply hrefused
    simp [Db.identifies,hscope]
  split
  · rename_i hidentity
    apply hrefused
    by_contra hyes
    simp only [Db.identifies,Bool.not_eq_false,Bool.and_eq_true] at hyes
    obtain ⟨⟨⟨⟨⟨_,hregistered⟩,hscope⟩,hprincipal⟩,hhash⟩,hkeyed⟩ := hyes
    rw [hregistered] at hidentity
    simp [hscope,hprincipal,hhash,hkeyed] at hidentity
  rw [hfound]
  simp only [Tx.post_ite]
  split
  · rename_i hhash
    exact ⟨rfl,fun _ => ⟨_,rfl⟩,fun heq => absurd heq hhash⟩
  · rename_i hhash
    exact ⟨rfl,fun hne => absurd hne hhash,fun _ _ => rfl⟩

section Life

variable {db db' : Db} {e : Event}

/-- In the step that claims a command, the row moves from `QUEUED` to `EXECUTING` and a ticket for
it is granted. -/
structure ClaimStep (db db' : Db) (before after : CommandRow) : Prop where
  queued : before ∈ db.commands ∧ before.state = .queued
  executing : after ∈ db'.commands ∧ after.state = .executing
  same : after.id = before.id ∧ after.sequence = before.sequence
  ticket : ∃ t ∈ db'.tickets, (∀ t₀ ∈ db.tickets, t₀.id ≠ t.id) ∧ t.commandId = some after.id ∧
    after.ticketId = some t.id ∧ after.executor = some t.instanceId

theorem claimStep_of_claimed (hstep : Step db e db') {after : CommandRow}
    (hclaimed : e.claimed = some after) : ∃ before, ClaimStep db db' before after := by
  cases commands_step hstep with
  | same hnone _ =>
    rw [hnone] at hclaimed
    cases hclaimed
  | enqueued row hnone _ _ _ _ _ _ _ =>
    rw [hnone] at hclaimed
    cases hclaimed
  | finished c t now state result hevent _ _ _ _ _ _ _ _ _ =>
    rw [hevent] at hclaimed
    cases hclaimed
  | claimed c t i hnext hsome hcommands htickets hcommand hadmits =>
    rw [hsome] at hclaimed
    cases hclaimed
    obtain ⟨hc,hqueued,_⟩ := of_nextQueued hnext
    refine ⟨c,⟨hc,hqueued⟩,⟨?_,rfl⟩,⟨rfl,rfl⟩,t,?_,hadmits.fresh,hcommand,rfl,rfl⟩
    · rw [hcommands]
      exact mem_updateWhere.mpr ⟨c,hc,.inl ⟨by simp,rfl⟩⟩
    · rw [htickets]
      simp

theorem claimed_of_left (h : Queue db) (hstep : Step db e db') {c c' : CommandRow}
    (hc : c ∈ db.commands) (hc' : c' ∈ db'.commands) (hid : c'.id = c.id)
    (hqueued : c.state = .queued) (hleft : c'.state ≠ .queued) : e.claimed = some c' := by
  have hkept : c' ∉ db.commands := by
    intro hin
    rw [eq_of_key h.ids hin hc hid] at hleft
    exact hleft hqueued
  cases commands_step hstep with
  | same _ hcommands =>
    rw [hcommands] at hc'
    exact absurd hc' hkept
  | enqueued row _ hcommands hstate _ _ _ _ _ =>
    rw [hcommands] at hc'
    rcases mem_append.mp hc' with hold | hnew
    · exact absurd hold hkept
    · rw [mem_singleton] at hnew
      subst hnew
      exact absurd hstate hleft
  | claimed c₀ t i hnext hsome hcommands _ _ _ =>
    rw [hcommands] at hc'
    rcases h.mem_update (of_nextQueued hnext).1 hc' with rfl | ⟨hold,_⟩
    · exact hsome
    · exact absurd hold hkept
  | finished c₀ t now state result _ _ hfound hexecuting _ hcommands _ _ _ _ =>
    have hc₀ := (mem_of_lookup hfound).1
    rw [hcommands] at hc'
    rcases h.mem_update hc₀ hc' with rfl | ⟨hold,_⟩
    · have hsame : c₀ = c := eq_of_key h.ids hc₀ hc hid
      rw [hsame,hqueued] at hexecuting
      cases hexecuting
    · exact absurd hold hkept

/-- An executing command is finished by its executor, which settles the recorded ticket. -/
structure FinishStep (db db' : Db) (e : Event) (before after : CommandRow) : Prop where
  executor : ∃ instanceId now result, before.executor = some instanceId ∧
    e = .call now (.finishCommand instanceId before.id after.state result) (.ok .done)
  terminal : after.state.isTerminal = true
  settled : ∃ t ∈ db'.tickets, before.ticketId = some t.id ∧
    ∀ t' ∈ db'.tickets, t'.id = t.id → t'.state = settledState (after.state = .uncertain)

theorem settled_after {t : TicketRow} {state : TicketState} (ht : t ∈ db.tickets)
    (hopen : t.state = .active ∨ t.state = state) :
    { t with state := state } ∈ (db.settleTicket t.instanceId t.id state).tickets := by
  apply mem_updateWhere.mpr
  refine ⟨t,ht,?_⟩
  rcases hopen with hactive | hsettled
  · exact .inl ⟨by simp [hactive],rfl⟩
  · by_cases hactive : t.state = .active
    · exact .inl ⟨by simp [hactive],rfl⟩
    · refine .inr ⟨by simp [hactive],?_⟩
      rw [← hsettled]

theorem finishStep_of_left (h : Queue db) (hstep : Step db e db') {c c' : CommandRow}
    (hc : c ∈ db.commands) (hc' : c' ∈ db'.commands) (hid : c'.id = c.id)
    (hexecuting : c.state = .executing) (hleft : c'.state ≠ .executing) :
    FinishStep db db' e c c' := by
  have hkept : c' ∉ db.commands := by
    intro hin
    rw [eq_of_key h.ids hin hc hid] at hleft
    exact hleft hexecuting
  cases commands_step hstep with
  | same _ hcommands =>
    rw [hcommands] at hc'
    exact absurd hc' hkept
  | enqueued row _ hcommands _ _ _ hnew _ _ =>
    rw [hcommands] at hc'
    rcases mem_append.mp hc' with hold | hadded
    · exact absurd hold hkept
    · rw [mem_singleton] at hadded
      subst hadded
      exact absurd hid.symm (hnew c hc)
  | claimed c₀ t i hnext _ hcommands _ _ _ =>
    rw [hcommands] at hc'
    rcases h.mem_update (of_nextQueued hnext).1 hc' with rfl | ⟨hold,_⟩
    · exact absurd rfl hleft
    · exact absurd hold hkept
  | finished c₀ t now state result hevent hterminal hfound _ hexecutor hcommands hticket hrecorded
      hopen htickets =>
    have hc₀ := (mem_of_lookup hfound).1
    rw [hcommands] at hc'
    rcases h.mem_update hc₀ hc' with rfl | ⟨hold,_⟩
    · have hsame : c₀ = c := eq_of_key h.ids hc₀ hc hid
      subst hsame
      obtain ⟨instanceId,hby⟩ := h.executed c₀ hc hexecuting
      obtain rfl := hexecutor instanceId hby
      have hafter := settled_after hticket hopen
      rw [← htickets] at hafter
      refine ⟨⟨_,now,result,hby,hevent⟩,hterminal,_,hafter,hrecorded,?_⟩
      intro t' ht' hsameId
      rw [eq_of_key (ticketIds_step h.tickets hstep) ht' hafter hsameId]
    · exact absurd hold hkept

theorem finished_kept (h : Queue db) (hstep : Step db e db') {c : CommandRow}
    (hc : c ∈ db.commands) (hterminal : c.state.isTerminal = true) : c ∈ db'.commands := by
  have hother : ∀ c₀ ∈ db.commands, c₀.state.isTerminal = false → c.id ≠ c₀.id := by
    intro c₀ hc₀ hno hid
    rw [eq_of_key h.ids hc hc₀ hid,hno] at hterminal
    cases hterminal
  cases commands_step hstep with
  | same _ hcommands => rwa [hcommands]
  | enqueued row _ hcommands _ _ _ _ _ _ =>
    rw [hcommands]
    exact mem_append_left _ hc
  | claimed c₀ t i hnext _ hcommands _ _ _ =>
    obtain ⟨hc₀,hqueued,_⟩ := of_nextQueued hnext
    have hne := hother c₀ hc₀ (by rw [hqueued]; rfl)
    rw [hcommands]
    exact mem_updateWhere.mpr ⟨c,hc,.inr ⟨by simp [hne],rfl⟩⟩
  | finished c₀ t now state result _ _ hfound hexecuting _ hcommands _ _ _ _ =>
    have hne := hother c₀ (mem_of_lookup hfound).1 (by rw [hexecuting]; rfl)
    rw [hcommands]
    exact mem_updateWhere.mpr ⟨c,hc,.inr ⟨by simp [hne],rfl⟩⟩

theorem left_kept (hstep : Step db e db') {c : CommandRow} (hc : c ∈ db.commands)
    (hleft : c.state ≠ .queued) :
    ∃ c' ∈ db'.commands, c'.id = c.id ∧ c'.sequence = c.sequence ∧ c'.state ≠ .queued := by
  cases commands_step hstep with
  | same _ hcommands =>
    rw [hcommands]
    exact ⟨c,hc,rfl,rfl,hleft⟩
  | enqueued row _ hcommands _ _ _ _ _ _ =>
    rw [hcommands]
    exact ⟨c,mem_append_left _ hc,rfl,rfl,hleft⟩
  | claimed c₀ t i _ _ hcommands _ _ _ =>
    simp only [hcommands,mem_updateWhere]
    by_cases hid : c.id = c₀.id
    · exact ⟨_,⟨c,hc,.inl ⟨by simp [hid],rfl⟩⟩,rfl,rfl,nofun⟩
    · exact ⟨c,⟨c,hc,.inr ⟨by simp [hid],rfl⟩⟩,rfl,rfl,hleft⟩
  | finished c₀ t now state result _ hterminal _ _ _ hcommands _ _ _ _ =>
    simp only [hcommands,mem_updateWhere]
    by_cases hid : c.id = c₀.id
    · refine ⟨_,⟨c,hc,.inl ⟨by simp [hid],rfl⟩⟩,rfl,rfl,?_⟩
      rintro rfl
      cases hterminal
    · exact ⟨c,⟨c,hc,.inr ⟨by simp [hid],rfl⟩⟩,rfl,rfl,hleft⟩

theorem frozen (hstep : Step db e db') (huncertain : db.uncertain = true) :
    e.claimed = none ∧ ∀ t ∈ db'.tickets, (∀ t₀ ∈ db.tickets, t₀.id ≠ t.id) →
      ∃ p ∈ db.tickets, e.admits = some (some p.id) ∧ p.state = .active ∧
        p.instanceId = t.instanceId := by
  have hroot : ∀ t i, ¬db.Admits t none i := by
    intro t i hadmits
    rcases hadmits.entitled with ⟨p,_,hid,_⟩ | ⟨_,hcertain⟩
    · cases hid
    · rw [huncertain] at hcertain
      cases hcertain
  refine ⟨?_,?_⟩
  · cases commands_step hstep with
    | same hnone _ => exact hnone
    | enqueued row hnone _ _ _ _ _ _ _ => exact hnone
    | claimed c t i _ _ _ _ _ hadmits => exact absurd hadmits (hroot t i)
    | finished c t now state result hevent _ _ _ _ _ _ _ _ _ =>
      rw [hevent]
      rfl
  · intro t ht hnew
    rcases grants_step hstep ht hnew with ⟨parent,i,he,hadmits⟩ | ⟨c,i,_,_,hadmits⟩
    · rcases hadmits.entitled with ⟨p,hp,hid,howner,_,hactive⟩ | ⟨_,hcertain⟩
      · subst hid
        exact ⟨p,hp,he,hactive,howner⟩
      · rw [huncertain] at hcertain
        cases hcertain
    · exact absurd hadmits (hroot t i)

end Life

/-- The claims of a run come in the order of the sequence, each of a command that left the
queue. -/
structure Claimed (events : List Event) (db : Db) : Prop where
  queue : Queue db
  gone : ∀ a ∈ events.filterMap Event.claimed, ∃ c ∈ db.commands, c.id = a.id ∧
    c.sequence = a.sequence ∧ c.state ≠ .queued
  order : (events.filterMap Event.claimed).Pairwise fun a b => a.sequence < b.sequence ∧ a.id ≠ b.id

theorem Claimed.step {events : List Event} {db db' : Db} {e : Event} (h : Claimed events db)
    (hstep : Step db e db') : Claimed (events ++ [e]) db' := by
  have hstays : ∀ a ∈ events.filterMap Event.claimed, ∃ c ∈ db'.commands, c.id = a.id ∧
      c.sequence = a.sequence ∧ c.state ≠ .queued := by
    intro a ha
    obtain ⟨c,hc,hid,hseq,hleft⟩ := h.gone a ha
    obtain ⟨c',hc',hid',hseq',hleft'⟩ := left_kept hstep hc hleft
    exact ⟨c',hc',hid'.trans hid,hseq'.trans hseq,hleft'⟩
  cases hclaimed : e.claimed with
  | none =>
    have hsame : (events ++ [e]).filterMap Event.claimed = events.filterMap Event.claimed := by
      simp [hclaimed]
    refine ⟨h.queue.step hstep,?_,?_⟩
    · rwa [hsame]
    · rw [hsame]
      exact h.order
  | some after =>
    have hmore : (events ++ [e]).filterMap Event.claimed =
        events.filterMap Event.claimed ++ [after] := by
      simp [hclaimed]
    obtain ⟨before,hclaim⟩ := claimStep_of_claimed hstep hclaimed
    obtain ⟨hbefore,hqueued⟩ := hclaim.queued
    obtain ⟨hid,hseq⟩ := hclaim.same
    refine ⟨h.queue.step hstep,?_,?_⟩
    · intro a ha
      rw [hmore] at ha
      rcases mem_append.mp ha with hold | hnew
      · exact hstays a hold
      · rw [mem_singleton] at hnew
        subst hnew
        refine ⟨a,hclaim.executing.1,rfl,rfl,?_⟩
        rw [hclaim.executing.2]
        decide
    · rw [hmore,pairwise_append]
      refine ⟨h.order,pairwise_singleton _ _,?_⟩
      intro a ha b hb
      rw [mem_singleton] at hb
      subst hb
      obtain ⟨c,hc,hcid,hcseq,hleft⟩ := h.gone a ha
      have hless := h.queue.fifo before hbefore c hc hqueued hleft
      refine ⟨by omega,?_⟩
      intro hsame
      have heq : c = before := eq_of_key h.queue.ids hc hbefore (by rw [hcid,hsame,hid])
      rw [heq] at hleft
      exact hleft hqueued

theorem Claimed.run {db₀ db : Db} {events : List Event} (hinit : db₀.Enrolled)
    (hrun : Run Step db₀ events db) : Claimed events db := by
  apply hrun.accumulates fun _ _ _ _ h hstep => h.step hstep
  exact ⟨Queue.enrolled hinit,by simp,List.Pairwise.nil⟩

/-- The command queue, in every state that any interleaving of calls reaches and in every step
from there. -/
structure CommandQueue (events : List Event) (db : Db) : Prop where
  unique : (db.commands.map fun c => (c.principalId, c.idempotencyKey)).Nodup
  retried : ∀ c ∈ db.commands, ∀ now scope instanceId id hash envelope,
    let r := db.perform now
      (.enqueueCommand scope instanceId id c.principalId c.idempotencyKey hash envelope)
    Retried db c hash
      (db.identifies scope instanceId c.principalId c.idempotencyKey hash envelope) r.1 r.2
  claims : ∀ e db', Step db e db' →
    (∀ c ∈ db.commands, ∀ c' ∈ db'.commands, c'.id = c.id → c.state = .queued →
      c'.state ≠ .queued → e.claimed = some c') ∧
    (∀ after, e.claimed = some after → ∃ before, ClaimStep db db' before after) ∧
    (∀ t ∈ db'.tickets, (∀ t₀ ∈ db.tickets, t₀.id ≠ t.id) → t.commandId.isSome = true →
      e.admits = none → ∃ after, e.claimed = some after ∧ t.commandId = some after.id ∧
        after.ticketId = some t.id)
  finishes : ∀ e db', Step db e db' → ∀ c ∈ db.commands, ∀ c' ∈ db'.commands, c'.id = c.id →
    c.state = .executing → c'.state ≠ .executing → FinishStep db db' e c c'
  finished : ∀ e db', Step db e db' → ∀ c ∈ db.commands, c.state.isTerminal = true →
    c ∈ db'.commands
  order : (events.filterMap Event.claimed).Pairwise fun a b => a.sequence < b.sequence ∧ a.id ≠ b.id
  frozen : db.uncertain = true → ∀ e db', Step db e db' → e.claimed = none ∧
    ∀ t ∈ db'.tickets, (∀ t₀ ∈ db.tickets, t₀.id ≠ t.id) →
      ∃ p ∈ db.tickets, e.admits = some (some p.id) ∧ p.state = .active ∧
        p.instanceId = t.instanceId
  bounded : (db.commands.countP fun c => c.state.unfinished) ≤ db.scope.policy.queueCapacity

theorem command_queue {db₀ db : Db} {events : List Event} (hinit : db₀.Enrolled)
    (hrun : Run Step db₀ events db) : CommandQueue events db := by
  have h := Claimed.run hinit hrun
  refine ⟨h.queue.keys,?_,?_,?_,?_,h.order,?_,h.queue.room⟩
  · intro c hc now scope instanceId id hash envelope
    exact enqueue_retried h.queue hc rfl
  · intro e db' hstep
    refine ⟨?_,?_,?_⟩
    · intro c hc c' hc' hid hqueued hleft
      exact claimed_of_left h.queue hstep hc hc' hid hqueued hleft
    · intro after hclaimed
      exact claimStep_of_claimed hstep hclaimed
    · intro t ht hnew _ hdirect
      rcases grants_step hstep ht hnew with ⟨parent,i,he,_⟩ | ⟨c,i,he,hcommand,_⟩
      · rw [hdirect] at he
        cases he
      · exact ⟨_,he,hcommand,rfl⟩
  · intro e db' hstep c hc c' hc' hid hexecuting hleft
    exact finishStep_of_left h.queue hstep hc hc' hid hexecuting hleft
  · intro e db' hstep c hc hterminal
    exact finished_kept h.queue hstep hc hterminal
  · intro huncertain e db' hstep
    exact frozen hstep huncertain

/-- Two commands of one principal are claimed; the first of them ends uncertain. -/
def twoCommands : List (Nat × Call) :=
  [(0, .registerInstance "prod/main" "blue-1" .blue "config" "profile" 3),
    (1, .enqueueCommand "prod/main" "blue-1" 30 "ann" "k1" "h1"
      ⟨"insert", "prod/main", "ann", "k1", "h1", ["s1"], 90⟩),
    (2, .enqueueCommand "prod/main" "blue-1" 31 "ann" "k2" "h2"
      ⟨"delete", "prod/main", "ann", "k2", "h2", [], 90⟩),
    (3, .claimCommand "prod/main" "blue-1" 1 40),
    (4, .claimCommand "prod/main" "blue-1" 1 41),
    (5, .finishCommand "blue-1" 30 .uncertain "lost")]

theorem command_queue_twoCommands :
    let run := enrolledDb.execute twoCommands
    (run.1.filterMap Event.claimed).map CommandRow.id = [30, 31] ∧
      (run.1.filterMap Event.claimed).Pairwise (fun a b => a.sequence < b.sequence ∧ a.id ≠ b.id) ∧
      ∀ e db', Step run.2 e db' → e.claimed = none := by
  intro run
  have hids : (run.1.filterMap Event.claimed).map CommandRow.id = [30, 31] := by decide +kernel
  have huncertain : run.2.uncertain = true := by decide +kernel
  have h := command_queue enrolledDb_enrolled (run_execute enrolledDb twoCommands)
  exact ⟨hids,h.order,fun e db' hstep => (h.frozen huncertain e db' hstep).1⟩

end LightRAG.Release
