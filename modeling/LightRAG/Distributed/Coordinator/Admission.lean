import LightRAG.Distributed.Coordinator.Steps

/-!
# The admission invariant

An exclusive ticket is alone, every active ticket carries the current generation, and every lock,
claim and pending mutation belongs to an active ticket.
-/

namespace LightRAG.Coordination
open Table List Function

/-- The columns of an operation that decide what it may do. -/
structure Ticket where
  id : Uuid
  generation : Nat
  witness : Nat
  exclusive : Bool
  state : OperationState

def OperationRow.ticket (o : OperationRow) : Ticket :=
  ⟨o.id, o.generation, o.witness, o.exclusive, o.state⟩

def Db.generation (db : Db) : Option Nat := db.workspace.map (·.generation)

structure Admitted (db : Db) : Prop where
  ids : (db.operations.map (·.id)).Nodup
  exclusive : ∀ o ∈ db.operations, o.state = .active → o.exclusive = true →
    ∀ p ∈ db.operations, p.state = .active → p.id = o.id
  generation : ∀ o ∈ db.operations, o.state = .active → db.generation = some o.generation
  locks : ∀ l ∈ db.resourceLocks, db.Active l.operationId
  claims : ∀ c ∈ db.documentClaims, db.Active c.operationId
  pending : ∀ m ∈ db.mutations, m.state = .pending → db.Active m.operationId

section Tickets

variable {db db' : Db}

def Effect.movesTickets : Effect → Bool
  | enter _ | finish _ _ | recover _ _ => true
  | _ => false

theorem apply_tickets {e : Effect} (h : e.movesTickets = false) :
    (e.apply db).operations.map (·.ticket) = db.operations.map (·.ticket) := by
  cases e with
  | enter _ => cases h
  | finish _ _ => cases h
  | recover _ _ => cases h
  | uncertain operationId reason => exact map_updateWhere fun _ => rfl
  | phase operationId docId phase metadata now =>
    cases docId <;> exact map_updateWhere fun _ => rfl
  | heartbeat operationId now => exact map_updateWhere fun _ => rfl
  | _ => rfl

theorem exists_ticket (h : db'.operations.map (·.ticket) = db.operations.map (·.ticket))
    {o : OperationRow} (ho : o ∈ db'.operations) : ∃ p ∈ db.operations, p.ticket = o.ticket := by
  have hmem : o.ticket ∈ db'.operations.map (·.ticket) := mem_map_of_mem ho
  rw [h] at hmem
  exact mem_map.mp hmem

theorem active_of_tickets (h : db'.operations.map (·.ticket) = db.operations.map (·.ticket))
    {operationId : Uuid} (hactive : db.Active operationId) : db'.Active operationId := by
  obtain ⟨o,ho,hid,hstate⟩ := hactive
  obtain ⟨p,hp,hticket⟩ := exists_ticket h.symm ho
  exact ⟨p,hp,(congrArg Ticket.id hticket).trans hid,(congrArg Ticket.state hticket).trans hstate⟩

/-- The invariant is kept by every write that keeps the tickets and the generation, and gives
locks, claims and pending mutations to active tickets only. -/
theorem Admitted.of_tickets (h : Admitted db)
    (htickets : db'.operations.map (·.ticket) = db.operations.map (·.ticket))
    (hgeneration : ∀ g, db.generation = some g → db'.generation = some g)
    (hlocks : ∀ l ∈ db'.resourceLocks, db.Active l.operationId)
    (hclaims : ∀ c ∈ db'.documentClaims, db.Active c.operationId)
    (hpending : ∀ m ∈ db'.mutations, m.state = .pending → db.Active m.operationId) :
    Admitted db' where
  ids := by
    have hids : ∀ rows : List OperationRow, rows.map (·.id) = (rows.map (·.ticket)).map (·.id) := by
      intro rows
      rw [map_map]
      rfl
    rw [hids,htickets,← hids]
    exact h.ids
  exclusive := by
    intro o ho hstate hexclusive p hp hpstate
    obtain ⟨o₀,ho₀,hto⟩ := exists_ticket htickets ho
    obtain ⟨p₀,hp₀,htp⟩ := exists_ticket htickets hp
    have hido : o₀.id = o.id := congrArg Ticket.id hto
    have hidp : p₀.id = p.id := congrArg Ticket.id htp
    rw [← hido,← hidp]
    exact h.exclusive o₀ ho₀ ((congrArg Ticket.state hto).trans hstate)
      ((congrArg Ticket.exclusive hto).trans hexclusive) p₀ hp₀
      ((congrArg Ticket.state htp).trans hpstate)
  generation := by
    intro o ho hstate
    obtain ⟨o₀,ho₀,hto⟩ := exists_ticket htickets ho
    have hgen : o₀.generation = o.generation := congrArg Ticket.generation hto
    rw [← hgen]
    exact hgeneration _ (h.generation o₀ ho₀ ((congrArg Ticket.state hto).trans hstate))
  locks := fun l hl => active_of_tickets htickets (hlocks l hl)
  claims := fun c hc => active_of_tickets htickets (hclaims c hc)
  pending := fun m hm hstate => active_of_tickets htickets (hpending m hm hstate)

end Tickets

section Rows

variable {db : Db} {operationId taskId : Uuid} {keys : List String}

theorem mem_acquire_operation {rows : List LockRow} {l : LockRow}
    (hl : l ∈ keys.foldl (Db.upsertLock operationId taskId) rows) :
    l.operationId = operationId ∨ ∃ l₀ ∈ rows, l₀.operationId = l.operationId := by
  induction keys generalizing rows with
  | nil => exact .inr ⟨l,hl,rfl⟩
  | cons key keys ih =>
    rcases ih hl with hop | ⟨l₀,hl₀,hop⟩
    · exact .inl hop
    unfold Db.upsertLock at hl₀
    split at hl₀
    · obtain ⟨l₁,hl₁,⟨-,rfl⟩ | ⟨-,rfl⟩⟩ := mem_updateWhere.mp hl₀
      · exact .inr ⟨l₁,hl₁,hop⟩
      · exact .inr ⟨l₁,hl₁,hop⟩
    · rcases mem_append.mp hl₀ with hl₀ | hl₀
      · exact .inr ⟨l₀,hl₀,hop⟩
      · rw [mem_singleton] at hl₀
        subst l₀
        exact .inl hop.symm

theorem mem_release_operation {l : LockRow}
    (hl : l ∈ (db.releaseLocks operationId taskId keys).resourceLocks) :
    ∃ l₀ ∈ db.resourceLocks, l₀.operationId = l.operationId ∧ l₀.taskId = l.taskId ∧
      l₀.resourceKey = l.resourceKey := by
  obtain ⟨l₀,hl₀,⟨-,rfl⟩ | ⟨-,rfl⟩⟩ := mem_updateWhere.mp (mem_deleteWhere.mp hl).1
  · exact ⟨l₀,hl₀,rfl,rfl,rfl⟩
  · exact ⟨l₀,hl₀,rfl,rfl,rfl⟩

theorem mem_update_claims {p : ClaimRow → Bool} {f : ClaimRow → ClaimRow}
    (hf : ∀ c, (f c).operationId = c.operationId) {rows : List ClaimRow} {c : ClaimRow}
    (hc : c ∈ updateWhere p f rows) : ∃ c₀ ∈ rows, c₀.operationId = c.operationId := by
  obtain ⟨c₀,hc₀,⟨-,rfl⟩ | ⟨-,rfl⟩⟩ := mem_updateWhere.mp hc
  · exact ⟨c₀,hc₀,(hf c₀).symm⟩
  · exact ⟨c₀,hc₀,rfl⟩

theorem mem_acknowledge_pending {id : Uuid} {now : Nat} {m : MutationRow}
    (hm : m ∈ (db.acknowledge id operationId now).mutations) (hstate : m.state = .pending) :
    m ∈ db.mutations := by
  obtain ⟨m₀,hm₀,⟨-,rfl⟩ | ⟨-,rfl⟩⟩ := mem_updateWhere.mp hm
  · cases hstate
  · exact hm₀

end Rows

section Preservation

variable {db : Db}

theorem Admitted.enter (h : Admitted db) {o : OperationRow}
    (hallowed : (Effect.enter o).Allowed db) : Admitted (db.insertOperation o) := by
  obtain ⟨⟨row,hrow,-,hgen⟩,hstate,hfree,hfresh⟩ := hallowed
  have hactive : ∀ operationId, db.Active operationId →
      (db.insertOperation o).Active operationId := by
    rintro operationId ⟨p,hp,hid,hpstate⟩
    exact ⟨p,mem_append_left _ hp,hid,hpstate⟩
  refine ⟨nodup_append_new h.ids hfresh,?_,?_,fun l hl => hactive _ (h.locks l hl),
    fun c hc => hactive _ (h.claims c hc),fun m hm hs => hactive _ (h.pending m hm hs)⟩
  · intro p hp hpstate hexclusive q hq hqstate
    simp only [Db.insertOperation,mem_append,mem_singleton] at hp hq
    rcases hp with hp | rfl
    · have hnot := (hfree p hp hpstate).2
      rw [hexclusive] at hnot
      cases hnot
    · rcases hq with hq | rfl
      · have hnot := (hfree q hq hqstate).1
        rw [hexclusive] at hnot
        cases hnot
      · rfl
  · intro p hp hpstate
    simp only [Db.insertOperation,mem_append,mem_singleton] at hp
    rcases hp with hp | rfl
    · exact h.generation p hp hpstate
    · simp only [Db.generation,Db.insertOperation,hrow,Option.map_some,hgen]

variable {now : Nat}

theorem active_complete {operationId other : Uuid} (hne : other ≠ operationId)
    (hactive : db.Active other) : (db.completeOperation operationId now).Active other := by
  obtain ⟨o,ho,rfl,hstate⟩ := hactive
  exact ⟨o,mem_updateWhere.mpr ⟨o,ho,.inr ⟨by simpa using hne,rfl⟩⟩,rfl,hstate⟩

theorem mem_complete_active {operationId : Uuid} {o : OperationRow}
    (ho : o ∈ (db.completeOperation operationId now).operations) (hstate : o.state = .active) :
    o ∈ db.operations := by
  obtain ⟨o₀,ho₀,⟨-,rfl⟩ | ⟨-,rfl⟩⟩ := mem_updateWhere.mp ho
  · cases hstate
  · exact ho₀

theorem Admitted.finish (h : Admitted db) {operationId : Uuid}
    (hallowed : (Effect.finish operationId now).Allowed db) :
    Admitted (db.completeOperation operationId now) := by
  obtain ⟨-,-,hpending,hlocked⟩ := hallowed
  refine ⟨?_,?_,?_,?_,?_,?_⟩
  · have hids : (db.completeOperation operationId now).operations.map (·.id) =
        db.operations.map (·.id) := map_updateWhere fun _ => rfl
    rw [hids]
    exact h.ids
  · intro o ho hstate hexclusive p hp hpstate
    exact h.exclusive o (mem_complete_active ho hstate) hstate hexclusive p
      (mem_complete_active hp hpstate) hpstate
  · intro o ho hstate
    exact h.generation o (mem_complete_active ho hstate) hstate
  · intro l hl
    exact active_complete (hlocked l hl) (h.locks l hl)
  · intro c hc
    obtain ⟨hc,hne⟩ := mem_deleteWhere.mp hc
    exact active_complete (by simpa using hne) (h.claims c hc)
  · intro m hm hstate
    exact active_complete (fun hop => hpending m hm hop hstate) (h.pending m hm hstate)

theorem recover_not_active {a : AuditRow} {o : OperationRow}
    (ho : o ∈ ((db.insertAudit a).recoverScope now).operations) : o.state ≠ .active := by
  obtain ⟨o₀,-,⟨-,rfl⟩ | ⟨hp,rfl⟩⟩ := mem_updateWhere.mp ho
  · simp
  · simpa using hp

theorem recover_not_pending (h : Admitted db) {a : AuditRow} {m : MutationRow}
    (hm : m ∈ ((db.insertAudit a).recoverScope now).mutations) : m.state ≠ .pending := by
  obtain ⟨m₀,hm₀,⟨-,rfl⟩ | ⟨hp,rfl⟩⟩ := mem_updateWhere.mp hm
  · simp
  · intro hstate
    obtain ⟨o,ho,hid,-⟩ := h.pending m₀ hm₀ hstate
    have hown : db.operations.any (fun o => o.id = m₀.operationId) = true :=
      any_eq_true.mpr ⟨o,ho,by simpa using hid⟩
    simp only [Db.insertAudit,hown,hstate,and_self,decide_true,Bool.true_eq_false] at hp

theorem Admitted.recover (h : Admitted db) {a : AuditRow} :
    Admitted ((db.insertAudit a).recoverScope now) := by
  refine ⟨?_,?_,?_,?_,?_,?_⟩
  · have hids : ((db.insertAudit a).recoverScope now).operations.map (·.id) =
        db.operations.map (·.id) := map_updateWhere fun _ => rfl
    rw [hids]
    exact h.ids
  · intro o ho hstate
    exact absurd hstate (recover_not_active ho)
  · intro o ho hstate
    exact absurd hstate (recover_not_active ho)
  · intro l hl
    cases hl
  · intro c hc
    cases hc
  · intro m hm hstate
    exact absurd hstate (recover_not_pending h hm)

theorem Admitted.effect (h : Admitted db) {e : Effect} (hallowed : e.Allowed db) :
    Admitted (e.apply db) := by
  cases e with
  | register manifestHash =>
    refine h.of_tickets (apply_tickets rfl) ?_ h.locks h.claims h.pending
    intro g hg
    simp only [Db.generation,Option.map_eq_some_iff] at hg
    obtain ⟨row,hrow,rfl⟩ := hg
    simp [Db.generation,Effect.apply,Db.register,hrow]
  | grantWitness witness =>
    exact h.of_tickets (apply_tickets rfl) (fun _ hg => hg) h.locks h.claims h.pending
  | dropWitness witness =>
    exact h.of_tickets (apply_tickets rfl) (fun _ hg => hg) h.locks h.claims h.pending
  | fence reason =>
    refine h.of_tickets (apply_tickets rfl) ?_ h.locks h.claims h.pending
    intro g hg
    rw [← hg]
    simp [Db.generation,Effect.apply,Db.fence,comp_def]
  | enter o => exact h.enter hallowed
  | finish operationId now => exact h.finish hallowed
  | uncertain operationId reason =>
    refine h.of_tickets (apply_tickets rfl) ?_ h.locks h.claims h.pending
    intro g hg
    rw [← hg]
    simp [Db.generation,Effect.apply,Db.markUncertain,Db.fence,comp_def]
  | acquire operationId taskId keys =>
    refine h.of_tickets (apply_tickets rfl) (fun _ hg => hg) ?_ h.claims h.pending
    intro l hl
    rcases mem_acquire_operation hl with hop | ⟨l₀,hl₀,hop⟩
    · rw [hop]
      exact hallowed.1
    · rw [← hop]
      exact h.locks l₀ hl₀
  | release operationId taskId keys =>
    refine h.of_tickets (apply_tickets rfl) (fun _ hg => hg) ?_ h.claims h.pending
    intro l hl
    obtain ⟨l₀,hl₀,hop,-⟩ := mem_release_operation hl
    rw [← hop]
    exact h.locks l₀ hl₀
  | claim c =>
    refine h.of_tickets (apply_tickets rfl) (fun _ hg => hg) h.locks ?_ h.pending
    intro p hp
    rcases mem_append.mp hp with hp | hp
    · exact h.claims p hp
    · rw [mem_singleton] at hp
      subst p
      exact hallowed.1
  | unclaim docId =>
    refine h.of_tickets (apply_tickets rfl) (fun _ hg => hg) h.locks ?_ h.pending
    intro c hc
    exact h.claims c (mem_deleteWhere.mp hc).1
  | phase operationId docId phase metadata now =>
    have hclaims : ∀ c ∈ (db.setPhase operationId docId phase metadata now).documentClaims,
        db.Active c.operationId := by
      intro c hc
      cases docId with
      | none => exact h.claims c hc
      | some docId =>
        obtain ⟨c₀,hc₀,hop⟩ := mem_update_claims
          (f := fun c => { c with phase := phase, heartbeatAt := now }) (fun _ => rfl) hc
        rw [← hop]
        exact h.claims c₀ hc₀
    have htickets := @apply_tickets db (.phase operationId docId phase metadata now) rfl
    cases docId with
    | none => exact h.of_tickets htickets (fun _ hg => hg) h.locks hclaims h.pending
    | some docId => exact h.of_tickets htickets (fun _ hg => hg) h.locks hclaims h.pending
  | heartbeat operationId now =>
    refine h.of_tickets (apply_tickets rfl) (fun _ hg => hg) h.locks ?_ h.pending
    intro c hc
    obtain ⟨c₀,hc₀,hop⟩ := mem_update_claims
      (f := fun c => { c with heartbeatAt := now }) (fun _ => rfl) hc
    rw [← hop]
    exact h.claims c₀ hc₀
  | publish m =>
    refine h.of_tickets (apply_tickets rfl) (fun _ hg => hg) h.locks h.claims ?_
    intro p hp hstate
    rcases mem_append.mp hp with hp | hp
    · exact h.pending p hp hstate
    · rw [mem_singleton] at hp
      subst p
      exact hallowed.1
  | acknowledge id operationId now =>
    refine h.of_tickets (apply_tickets rfl) (fun _ hg => hg) h.locks h.claims ?_
    intro m hm hstate
    exact h.pending m (mem_acknowledge_pending hm hstate) hstate
  | recover a now => exact h.recover

end Preservation

theorem Admitted.step {w w' : World} {a : Action} (h : Admitted w.db)
    (hstep : World.Step w a w') : Admitted w'.db := by
  rcases World.step_effect hstep with hsame | ⟨e,hallowed,happly⟩
  · rw [hsame]
    exact h
  · rw [happly]
    exact h.effect hallowed

theorem reachable_admitted {w : World} (h : w.Reachable) : Admitted w.db := by
  apply h.invariant
  · rintro w rfl
    exact ⟨nodup_nil,nofun,nofun,nofun,nofun,nofun⟩
  · intro w a w' hstep hw
    exact hw.step hstep

theorem admission_invariant {w : World} (h : w.Reachable) :
    (∀ o ∈ w.db.operations, o.state = .active → o.exclusive = true →
      ∀ p ∈ w.db.operations, p.state = .active → p = o) ∧
    (∀ o ∈ w.db.operations, o.state = .active →
      ∃ row, w.db.workspace = some row ∧ o.generation = row.generation) ∧
    ((∀ l ∈ w.db.resourceLocks, w.db.Active l.operationId) ∧
      ∀ c ∈ w.db.documentClaims, w.db.Active c.operationId) ∧
    (∀ m ∈ w.db.mutations, m.state = .pending → w.db.Active m.operationId) ∧
    ∀ o ∈ w.db.operations, o.state = .completed →
      (∀ m ∈ w.db.mutations, m.operationId = o.id → m.state ≠ .pending) ∧
      (∀ l ∈ w.db.resourceLocks, l.operationId ≠ o.id) ∧
      ∀ c ∈ w.db.documentClaims, c.operationId ≠ o.id := by
  have hinv := reachable_admitted h
  have hcompleted : ∀ o ∈ w.db.operations, o.state = .completed → ¬ w.db.Active o.id := by
    rintro o ho hstate ⟨p,hp,hid,hpstate⟩
    have hsame : p = o := eq_of_key hinv.ids hp ho hid
    rw [hsame,hstate] at hpstate
    cases hpstate
  refine ⟨?_,?_,⟨hinv.locks,hinv.claims⟩,hinv.pending,?_⟩
  · intro o ho hstate hexclusive p hp hpstate
    exact eq_of_key hinv.ids hp ho (hinv.exclusive o ho hstate hexclusive p hp hpstate)
  · intro o ho hstate
    obtain ⟨row,hrow,hgen⟩ := Option.map_eq_some_iff.mp (hinv.generation o ho hstate)
    exact ⟨row,hrow,hgen.symm⟩
  · intro o ho hstate
    refine ⟨?_,?_,?_⟩
    · intro m hm hop hpending
      exact hcompleted o ho hstate (hop ▸ hinv.pending m hm hpending)
    · intro l hl hop
      exact hcompleted o ho hstate (hop ▸ hinv.locks l hl)
    · intro c hc hop
      exact hcompleted o ho hstate (hop ▸ hinv.claims c hc)

def busyWriter : List Action :=
  [.create 0 7 5 (some "manifest"), .initializeScope 0 false .delivered,
    .call 0 .delivered 1 .takeWitness, .call 0 .delivered 2 .discoverOrphans,
    .call 0 .delivered 3 (.enterOperation "insert" true [] 11),
    .call 0 .delivered 4 (.enterLock ⟨11, 1, 7⟩ 1 ["b", "a"]),
    .call 0 .delivered 5 (.tryClaimDocument ⟨11, 1, 7⟩ "doc"),
    .call 0 .delivered 6 (.publish ⟨11, 1, 7⟩ "postgres" "chunks" "upsert" 21)]

theorem admission_invariant_busyWriter :
    ∃ w, World.init.run busyWriter = some w ∧ w.db.resourceLocks.length = 2 ∧
      (∃ o ∈ w.db.operations, o.state = .active ∧ o.exclusive = true ∧
        ∀ p ∈ w.db.operations, p.state = .active → p = o) ∧
      ∀ m ∈ w.db.mutations, m.state = .pending → w.db.Active m.operationId := by
  have hrun : (World.init.run busyWriter).isSome = true := by decide
  obtain ⟨w,hw⟩ := Option.isSome_iff_exists.mp hrun
  have hdb : (World.init.run busyWriter).map (·.db.operations) = some
      [⟨11,1,7,5,"insert",true,.active,"admitted",[],3,none⟩] := by decide
  have hlocks : (World.init.run busyWriter).map (·.db.resourceLocks.length) = some 2 := by decide
  rw [hw,Option.map_some,Option.some.injEq] at hdb hlocks
  obtain ⟨halone,-,-,hpending,-⟩ := admission_invariant (World.reachable_run hw)
  have ho : ⟨11,1,7,5,"insert",true,.active,"admitted",[],3,none⟩ ∈ w.db.operations := by
    rw [hdb]
    exact mem_singleton.mpr rfl
  exact ⟨w,hw,hlocks,⟨_,ho,rfl,rfl,halone _ ho rfl rfl⟩,hpending⟩

end LightRAG.Coordination
