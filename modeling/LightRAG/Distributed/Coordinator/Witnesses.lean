import LightRAG.Distributed.Coordinator.Admission

/-!
# Orphans stay orphans

The witness of a ticket belongs to the coordinator that opened it, which takes it once.
-/

namespace LightRAG.Coordination
open Table List Function

section Rows

variable {db : Db} {e : Effect}

theorem mem_apply_operations {o : OperationRow} (ho : o ∈ (e.apply db).operations) :
    e = .enter o ∨ ∃ o₀ ∈ db.operations, o₀.id = o.id ∧ o₀.generation = o.generation ∧
      o₀.witness = o.witness := by
  by_cases hmoves : e.movesTickets = false
  · obtain ⟨o₀,ho₀,hticket⟩ := exists_ticket (apply_tickets hmoves) ho
    exact .inr ⟨o₀,ho₀,congrArg Ticket.id hticket,congrArg Ticket.generation hticket,
      congrArg Ticket.witness hticket⟩
  cases e with
  | enter p =>
    rcases mem_append.mp ho with ho | ho
    · exact .inr ⟨o,ho,rfl,rfl,rfl⟩
    · rw [mem_singleton] at ho
      subst p
      exact .inl rfl
  | finish operationId now =>
    obtain ⟨o₀,ho₀,⟨-,rfl⟩ | ⟨-,rfl⟩⟩ := mem_updateWhere.mp ho
    · exact .inr ⟨o₀,ho₀,rfl,rfl,rfl⟩
    · exact .inr ⟨o₀,ho₀,rfl,rfl,rfl⟩
  | recover a now =>
    obtain ⟨o₀,ho₀,⟨-,rfl⟩ | ⟨-,rfl⟩⟩ := mem_updateWhere.mp ho
    · exact .inr ⟨o₀,ho₀,rfl,rfl,rfl⟩
    · exact .inr ⟨o₀,ho₀,rfl,rfl,rfl⟩
  | _ => exact absurd rfl hmoves

theorem mem_apply_pgLocks {l : AdvisoryLock} (hl : l ∈ (e.apply db).pgLocks) :
    l ∈ db.pgLocks ∨ ∃ witness, e = .grantWitness witness ∧ l = witnessLock witness := by
  cases e with
  | grantWitness witness =>
    rcases mem_append.mp hl with hl | hl
    · exact .inl hl
    · exact .inr ⟨witness,rfl,mem_singleton.mp hl⟩
  | dropWitness witness => exact .inl (mem_deleteWhere.mp hl).1
  | phase operationId docId phase metadata now => cases docId <;> exact .inl hl
  | _ => exact .inl hl

theorem audit_recover {a : AuditRow} {now : Nat} :
    ((Effect.recover a now).apply db).recoveryAudit ≠ db.recoveryAudit := by
  intro h
  have hlength : (db.recoveryAudit ++ [a]).length = db.recoveryAudit.length := congrArg _ h
  rw [length_append,length_singleton] at hlength
  omega

end Rows

structure Witnessed (w : World) : Prop where
  drawn : ∀ i self, w.coordinators i = some self → self.witness ∈ w.drawn
  distinct : ∀ i j a b, w.coordinators i = some a → w.coordinators j = some b →
    a.witness = b.witness → i = j
  tickets : ∀ o ∈ w.db.operations, o.witness ∈ w.drawn ∧
    ∀ i self, w.coordinators i = some self → self.witnessConnection = .absent →
      o.witness ≠ self.witness

variable {w w' : World}

theorem evolves_of_update {i j : Nat} {before after self : Coordinator}
    (hbefore : w.coordinators i = some before) (hevolves : before.Evolves after)
    (hupdate : w'.coordinators = Function.update w.coordinators i (some after))
    (hself : w'.coordinators j = some self) :
    ∃ prior, w.coordinators j = some prior ∧ prior.Evolves self := by
  rw [hupdate] at hself
  by_cases hj : j = i
  · subst j
    rw [update_self] at hself
    cases hself
    exact ⟨before,hbefore,hevolves⟩
  · rw [update_of_ne hj] at hself
    exact ⟨self,hself,.refl self⟩

theorem Witnessed.create {w : World} (h : Witnessed w) {i : Nat} {created : Coordinator}
    (hfresh : created.witness ∉ w.drawn) :
    Witnessed { w with
      coordinators := Function.update w.coordinators i (some created)
      drawn := created.witness :: w.drawn } := by
  have hcase : ∀ j self, Function.update w.coordinators i (some created) j = some self →
      (j = i ∧ self = created) ∨ w.coordinators j = some self := by
    intro j self hself
    by_cases hj : j = i
    · subst j
      rw [update_self] at hself
      exact .inl ⟨rfl,(Option.some.inj hself).symm⟩
    · rw [update_of_ne hj] at hself
      exact .inr hself
  refine ⟨?_,?_,?_⟩
  · intro j self hself
    rcases hcase j self hself with ⟨-,rfl⟩ | hold
    · exact mem_cons_self
    · exact mem_cons_of_mem _ (h.drawn j self hold)
  · intro j k a b ha hb hsame
    rcases hcase j a ha with ⟨rfl,rfl⟩ | hold
    · rcases hcase k b hb with ⟨rfl,-⟩ | hold'
      · rfl
      · exact absurd (hsame ▸ h.drawn k b hold') hfresh
    · rcases hcase k b hb with ⟨rfl,rfl⟩ | hold'
      · exact absurd (hsame ▸ h.drawn j a hold) hfresh
      · exact h.distinct j k a b hold hold' hsame
  · intro o ho
    obtain ⟨hdrawn,hunused⟩ := h.tickets o ho
    refine ⟨mem_cons_of_mem _ hdrawn,?_⟩
    intro j self hself habsent
    rcases hcase j self hself with ⟨-,rfl⟩ | hold
    · intro hsame
      exact hfresh (hsame ▸ hdrawn)
    · exact hunused j self hold habsent

theorem Witnessed.step {a : Action} (h : Witnessed w) (hstep : w.Step a w') :
    Witnessed w' := by
  rcases World.step_cases hstep with ⟨i,created,-,hfresh,rfl⟩ |
    ⟨i,before,after,hbefore,hevolves,hupdate,hdrawn,hdb⟩
  · exact h.create hfresh
  have hprior := fun j self =>
    @evolves_of_update w w' i j before after self hbefore hevolves hupdate
  refine ⟨?_,?_,?_⟩
  · intro j self hself
    obtain ⟨prior,hj,hlife⟩ := hprior j self hself
    rw [hdrawn,hlife.witness]
    exact h.drawn j prior hj
  · intro j k a b ha hb hsame
    obtain ⟨a₀,ha₀,hlife⟩ := hprior j a ha
    obtain ⟨b₀,hb₀,hlife'⟩ := hprior k b hb
    rw [hlife.witness,hlife'.witness] at hsame
    exact h.distinct j k a₀ b₀ ha₀ hb₀ hsame
  · intro o ho
    have hold : ∀ o₀ ∈ w.db.operations, o₀.witness = o.witness → o.witness ∈ w'.drawn ∧
        ∀ j self, w'.coordinators j = some self → self.witnessConnection = .absent →
          o.witness ≠ self.witness := by
      intro o₀ ho₀ hwitness
      rw [← hwitness,hdrawn]
      refine ⟨(h.tickets o₀ ho₀).1,?_⟩
      intro j self hself habsent
      obtain ⟨prior,hj,hlife⟩ := hprior j self hself
      rw [hlife.witness]
      exact (h.tickets o₀ ho₀).2 j prior hj (hlife.absent habsent)
    rcases hdb with hsame | ⟨e,-,hmade,happly⟩
    · exact hold o (hsame ▸ ho) rfl
    rcases mem_apply_operations (happly ▸ ho) with rfl | ⟨o₀,ho₀,-,-,hwitness⟩
    · obtain ⟨hwitness,hconnected⟩ := hmade.enter
      rw [hwitness,hdrawn]
      refine ⟨h.drawn i before hbefore,?_⟩
      intro j self hself habsent hsame
      obtain ⟨prior,hj,hlife⟩ := hprior j self hself
      rw [hlife.witness] at hsame
      have hij : i = j := h.distinct i j before prior hbefore hj hsame
      subst j
      rw [hbefore] at hj
      cases hj
      rw [hlife.absent habsent] at hconnected
      cases hconnected
    · exact hold o₀ ho₀ hwitness

theorem reachable_witnessed {w : World} (h : w.Reachable) : Witnessed w := by
  apply h.invariant
  · rintro w rfl
    refine ⟨fun i self hself => ?_,fun i j a b ha _ _ => ?_,fun o ho => ?_⟩
    · cases hself
    · cases ha
    · cases ho
  · intro w a w' hstep hw
    exact hw.step hstep

namespace Db

def Fenced (db : Db) : Prop := ∃ row, db.workspace = some row ∧ row.fenced = true

def Orphaned (db : Db) (operationId : Uuid) : Prop :=
  ∃ o ∈ db.operations, o.id = operationId ∧ o.state = .active ∧ db.isOrphan o = true

def Blocked (db : Db) : Prop := db.Fenced ∨ ∃ operationId, db.Orphaned operationId

theorem isOrphan_iff {db : Db} {o : OperationRow} :
    db.isOrphan o = true ↔ witnessLock o.witness ∉ db.pgLocks := by
  simp only [isOrphan,Bool.not_eq_true',any_eq_false,decide_eq_true_eq]
  constructor
  · intro h hmem
    exact h _ hmem ⟨rfl,rfl⟩
  · rintro h ⟨classid,objid⟩ hl ⟨hclass,hobj⟩
    simp only at hclass hobj
    subst classid objid
    exact h hl

theorem mem_orphans {db : Db} {operationId : Uuid} :
    operationId ∈ db.orphans ↔ db.Orphaned operationId := by
  simp only [orphans,mem_map,mem_filter,decide_eq_true_eq]
  constructor
  · rintro ⟨o,⟨ho,hstate,horphan⟩,hid⟩
    exact ⟨o,ho,hid,hstate,horphan⟩
  · rintro ⟨o,ho,hid,hstate,horphan⟩
    exact ⟨o,⟨ho,hstate,horphan⟩,hid⟩

theorem Blocked.not_clear {db : Db} (h : db.Blocked) : ¬ db.Clear := by
  rintro ⟨row,hrow,hclear⟩
  rcases h with ⟨row',hrow',hfenced⟩ | ⟨operationId,horphan⟩
  · rw [hrow] at hrow'
    cases hrow'
    rw [hclear.unfenced] at hfenced
    cases hfenced
  · have hmem := mem_orphans.mpr horphan
    rw [hclear.witnessed] at hmem
    cases hmem

end Db

section Blocked

variable {db : Db} {e : Effect}

theorem fenced_apply (h : db.Fenced) (hrecover : ∀ a now, e ≠ .recover a now) :
    (e.apply db).Fenced := by
  obtain ⟨row,hrow,hfenced⟩ := h
  cases e with
  | register manifestHash =>
    exact ⟨row,by simp [Effect.apply,Db.register,hrow],hfenced⟩
  | fence reason =>
    exact ⟨_,by simp only [Effect.apply,Db.fence,hrow]; rfl,rfl⟩
  | uncertain operationId reason =>
    exact ⟨_,by simp only [Effect.apply,Db.fence,hrow]; rfl,rfl⟩
  | recover a now => exact absurd rfl (hrecover a now)
  | phase operationId docId phase metadata now => cases docId <;> exact ⟨row,hrow,hfenced⟩
  | _ => exact ⟨row,hrow,hfenced⟩

theorem orphaned_apply {operationId : Uuid} (h : db.Orphaned operationId)
    (hmoves : e.movesTickets = false)
    (hgrant : ∀ witness, e = .grantWitness witness → ∀ o ∈ db.operations, o.witness ≠ witness) :
    (e.apply db).Orphaned operationId := by
  obtain ⟨o,ho,hid,hstate,horphan⟩ := h
  obtain ⟨p,hp,hticket⟩ := exists_ticket (apply_tickets hmoves).symm ho
  refine ⟨p,hp,(congrArg Ticket.id hticket).trans hid,
    (congrArg Ticket.state hticket).trans hstate,?_⟩
  have hwitness : p.witness = o.witness := congrArg Ticket.witness hticket
  rw [Db.isOrphan_iff] at horphan ⊢
  rw [hwitness]
  intro hmem
  rcases mem_apply_pgLocks hmem with hmem | ⟨witness,rfl,hlock⟩
  · exact horphan hmem
  · exact hgrant witness rfl o ho (witnessLock_injective hlock)

theorem movesTickets_of_blocked (hblocked : db.Blocked) (hallowed : e.Allowed db)
    (hrecover : ∀ a now, e ≠ .recover a now) : e.movesTickets = false := by
  cases e with
  | enter o =>
    obtain ⟨⟨row,hrow,hclear,-⟩,-⟩ := hallowed
    exact absurd ⟨row,hrow,hclear⟩ hblocked.not_clear
  | finish operationId now => exact absurd hallowed.2.1 hblocked.not_clear
  | recover a now => exact absurd rfl (hrecover a now)
  | _ => rfl

end Blocked

def World.StepUnrecovered (w : World) (a : Action) (w' : World) : Prop :=
  w.Step a w' ∧ w'.db.recoveryAudit = w.db.recoveryAudit

theorem World.StepUnrecovered.effect {a : Action} (h : w.StepUnrecovered a w')
    (hw : Witnessed w) :
    w'.db = w.db ∨ ∃ e : Effect, e.Allowed w.db ∧ (∀ a now, e ≠ .recover a now) ∧
      (∀ witness, e = .grantWitness witness → ∀ o ∈ w.db.operations, o.witness ≠ witness) ∧
      w'.db = e.apply w.db := by
  obtain ⟨hstep,haudit⟩ := h
  rcases step_cases hstep with ⟨i,created,-,-,rfl⟩ | ⟨i,before,after,hbefore,-,-,-,hdb⟩
  · exact .inl rfl
  rcases hdb with hsame | ⟨e,hallowed,hmade,happly⟩
  · exact .inl hsame
  refine .inr ⟨e,hallowed,?_,?_,happly⟩
  · rintro a now rfl
    rw [happly] at haudit
    exact audit_recover haudit
  · rintro witness rfl o ho
    obtain ⟨rfl,habsent⟩ := hmade.grant
    exact (hw.tickets o ho).2 i before hbefore habsent

theorem blocked_step {a : Action} (h : w.StepUnrecovered a w') (hw : Witnessed w)
    (hblocked : w.db.Blocked) : w'.db.Blocked := by
  rcases h.effect hw with hsame | ⟨e,hallowed,hrecover,hgrant,happly⟩
  · rw [hsame]
    exact hblocked
  rw [happly]
  rcases hblocked with hfenced | ⟨operationId,horphan⟩
  · exact .inl (fenced_apply hfenced hrecover)
  · have hmoves := movesTickets_of_blocked (.inr ⟨operationId,horphan⟩) hallowed hrecover
    exact .inr ⟨operationId,orphaned_apply horphan hmoves hgrant⟩

theorem blocked_run {as : List Action} (hw : w.Reachable)
    (h : Run World.StepUnrecovered w as w') (hblocked : w.db.Blocked) :
    w'.Reachable ∧ w'.db.Blocked := by
  apply h.preserves (I := fun w => w.Reachable ∧ w.db.Blocked)
  · rintro w a w' hstep ⟨hreach,hblocked⟩
    exact ⟨hreach.next hstep.1,blocked_step hstep (reachable_witnessed hreach) hblocked⟩
  · exact ⟨hw,hblocked⟩

end LightRAG.Coordination

/-!
## Recovery opens a generation

A recovery commits on the generation it audited, with every active owner gone, and opens the next
one.
-/

namespace LightRAG.Coordination
open Table Option

theorem generation_apply {db : Db} {e : Effect} {g : Nat} (h : db.generation = some g) :
    ∃ g', (e.apply db).generation = some g' ∧ g ≤ g' := by
  obtain ⟨row,hrow,rfl⟩ := map_eq_some_iff.mp h
  cases e with
  | register manifestHash =>
    simp [Db.generation,Effect.apply,Db.register,hrow]
  | fence reason =>
    simp [Db.generation,Effect.apply,Db.fence,hrow]
  | uncertain operationId reason =>
    simp [Db.generation,Effect.apply,Db.markUncertain,Db.fence,hrow]
  | recover a now =>
    simp [Db.generation,Effect.apply,Db.recoverScope,Db.insertAudit,hrow]
  | phase operationId docId phase metadata now =>
    cases docId <;> exact ⟨row.generation,h,le_refl _⟩
  | _ => exact ⟨row.generation,h,le_refl _⟩

theorem generation_run {w w' : World} {as : List Action} {g : Nat} (hw : w.Reachable)
    (h : Run World.Step w as w') (hgen : ∃ g', w.db.generation = some g' ∧ g ≤ g') :
    w'.Reachable ∧ ∃ g', w'.db.generation = some g' ∧ g ≤ g' := by
  apply h.preserves (I := fun w => w.Reachable ∧ ∃ g', w.db.generation = some g' ∧ g ≤ g')
  · rintro w a w' hstep ⟨hreach,g₁,hg₁,hle⟩
    refine ⟨hreach.next hstep,?_⟩
    rcases World.step_effect hstep with hsame | ⟨e,-,happly⟩
    · rw [hsame]
      exact ⟨g₁,hg₁,hle⟩
    · rw [happly]
      obtain ⟨g₂,hg₂,hle'⟩ := generation_apply (e := e) hg₁
      exact ⟨g₂,hg₂,by omega⟩
  · exact ⟨hw,hgen⟩

/-- The permit, or the ticket it names, is of a generation up to `g`. -/
def Db.Obsolete (db : Db) (g : Nat) (op : Operation) : Prop :=
  op.generation ≤ g ∨ ∃ o ∈ db.operations, o.id = op.id ∧ o.generation ≤ g

theorem not_ready_of_obsolete {db : Db} {g current : Nat} {c : Call} {op : Operation}
    {self : Coordinator} (hadmitted : Admitted db) (hgen : db.generation = some current)
    (hlt : g < current) (hop : c.permit = some op) (hobsolete : db.Obsolete g op) :
    ¬ c.Ready self db := by
  intro hready
  obtain ⟨row,hrow,hlive⟩ := hready.permitted op hop
  have hcurrent : row.generation = current := by
    simpa [Db.generation,hrow] using hgen
  rcases hobsolete with hle | ⟨o,ho,hid,hle⟩
  · have hsame := hlive.generation
    omega
  · obtain ⟨p,hp,hpid,hactive⟩ := hlive.active
    have hsame : p = o := eq_of_key hadmitted.ids hp ho (hpid.trans hid.symm)
    subst p
    have hogen := hadmitted.generation o hp hactive
    rw [hgen] at hogen
    cases hogen
    omega

theorem obsolete_call {w w' : World} {i : Nat} {fate : Fate} {now g current : Nat} {c : Call}
    {op : Operation} {r : Reply} (hw : w.Reachable) (hgen : w.db.generation = some current)
    (hlt : g < current) (hop : c.permit = some op) (hobsolete : w.db.Obsolete g op)
    (h : w.step (.call i fate now c) = some (r, w')) : w'.db = w.db := by
  have hnot : ∀ self, ¬ c.Ready self w.db := fun self =>
    not_ready_of_obsolete (reachable_admitted hw) hgen hlt hop hobsolete
  obtain ⟨self,-,-,-,rfl⟩ := World.step_call h
  rcases (perform_outcome self fate now w.db c).effect with
    hsame | ⟨reason,hready,-,-⟩ | ⟨e,-,hready,-,-⟩
  · exact hsame
  · exact absurd hready (hnot self)
  · exact absurd hready (hnot self)

theorem recover_call {w w' : World} {i : Nat} {fate : Fate} {now expectedGeneration : Nat}
    {actor reason : String} {confirmations : Confirmations} {r : Reply}
    (h : w.step (.call i fate now (.recover expectedGeneration actor reason confirmations)) =
      some (r, w')) :
    w'.db = w.db ∨ ∃ a now', a.oldGeneration = expectedGeneration ∧
      (Effect.recover a now').Allowed w.db ∧ w'.db = (Effect.recover a now').apply w.db := by
  obtain ⟨self,-,-,-,rfl⟩ := World.step_call h
  rcases (perform_outcome self fate now w.db _).effect with
    hsame | ⟨reason',-,hchecks,-⟩ | ⟨e,hallowed,-,hof,happly⟩
  · exact .inl hsame
  · simp [Call.guarded] at hchecks
  · cases e with
    | recover a now' =>
      have hold : a.oldGeneration = expectedGeneration := by
        simp only [Effect.Of,Call.recover.injEq] at hof
        exact hof.1.symm
      exact .inr ⟨a,now',hold,hallowed,happly⟩
    | _ => simp [Effect.Of,Call.isRaise] at hof

/-- A committed recovery was of the stored generation, with every active owner gone; it leaves
an open scope of the next generation without locks, claims or pending mutations; nothing that
an older permit does later changes a row, and no other recovery of that generation commits. -/
theorem recovery_fences_older_generations {w w' : World} (hw : w.Reachable) {i : Nat}
    {fate : Fate} {now expectedGeneration : Nat} {actor reason : String}
    {confirmations : Confirmations} {r : Reply}
    (hstep : w.step (.call i fate now
      (.recover expectedGeneration actor reason confirmations)) = some (r, w'))
    (hcommitted : w'.db.recoveryAudit ≠ w.db.recoveryAudit) :
    (∃ row, w.db.workspace = some row ∧ row.generation = expectedGeneration ∧
      w'.db.workspace = some { row with
        generation := expectedGeneration + 1, fenced := false, fenceReason := none }) ∧
    (∀ o ∈ w.db.operations, o.state = .active → w.db.isOrphan o = true) ∧
    (w'.db.resourceLocks = [] ∧ w'.db.documentClaims = [] ∧
      (∀ m ∈ w'.db.mutations, m.state ≠ .pending) ∧
      ∀ o ∈ w'.db.operations, o.state ≠ .active) ∧
    (∀ as w₁, Run World.Step w' as w₁ →
      ∀ j fate' now' c op r' w₂, w₁.step (.call j fate' now' c) = some (r', w₂) →
        c.permit = some op → w₁.db.Obsolete expectedGeneration op → w₂.db = w₁.db) ∧
    ∀ as w₁, Run World.Step w' as w₁ →
      ∀ j fate' now' actor' reason' confirmations' r' w₂,
        w₁.step (.call j fate' now'
          (.recover expectedGeneration actor' reason' confirmations')) = some (r', w₂) →
        w₂.db = w₁.db := by
  have hadmitted := reachable_admitted hw
  rcases recover_call hstep with hsame | ⟨a,now₁,hold,hallowed,happly⟩
  · rw [hsame] at hcommitted
    exact absurd rfl hcommitted
  obtain ⟨⟨row,hrow,hgen⟩,-,horphans⟩ := hallowed
  rw [hold] at hgen
  have hworkspace : w'.db.workspace = some { row with
      generation := expectedGeneration + 1, fenced := false, fenceReason := none } := by
    rw [happly]
    simp [Effect.apply,Db.recoverScope,Db.insertAudit,hrow,hgen]
  have hlater : ∀ as w₁, Run World.Step w' as w₁ → w₁.Reachable ∧
      ∃ g, w₁.db.generation = some g ∧ expectedGeneration + 1 ≤ g := by
    intro as w₁ hrun
    apply generation_run (LightRAG.Reachable.next hw ⟨r,hstep⟩) hrun
    exact ⟨expectedGeneration + 1,by simp [Db.generation,hworkspace],le_refl _⟩
  refine ⟨⟨row,hrow,hgen,hworkspace⟩,?_,⟨?_,?_,?_,?_⟩,?_,?_⟩
  · intro o ho hactive
    obtain ⟨p,hp,hid,-,horphan⟩ := Db.mem_orphans.mp (horphans o ho hactive)
    rw [eq_of_key hadmitted.ids ho hp hid.symm]
    exact horphan
  · rw [happly]
    rfl
  · rw [happly]
    rfl
  · intro m hm
    rw [happly] at hm
    exact recover_not_pending hadmitted hm
  · intro o ho
    rw [happly] at ho
    exact recover_not_active ho
  · intro as w₁ hrun j fate' now' c op r' w₂ hcall hop hobsolete
    obtain ⟨hreach,g,hg,hle⟩ := hlater as w₁ hrun
    exact obsolete_call hreach hg (by omega) hop hobsolete hcall
  · intro as w₁ hrun j fate' now' actor' reason' confirmations' r' w₂ hcall
    obtain ⟨-,g,hg,hle⟩ := hlater as w₁ hrun
    rcases recover_call hcall with hsame | ⟨a',-,hold',⟨⟨row',hrow',hgen'⟩,-⟩,-⟩
    · exact hsame
    · have hstored : row'.generation = g := by
        simpa [Db.generation,hrow'] using hg
      omega

def orphanedWriter : List Action :=
  busyWriter ++ [.witnessLost 0, .create 1 8 6 none, .initializeScope 1 true .delivered]

def auditedRecovery : Action :=
  .call 1 .delivered 9 (.recover 1 "operator" "writer is gone" ⟨true, true, true⟩)

theorem recovery_fences_older_generations_orphanedWriter :
    ∃ w w' r, World.init.run orphanedWriter = some w ∧ w.step auditedRecovery = some (r, w') ∧
      w'.db.generation = some 2 ∧
      ∀ as w₁, Run World.Step w' as w₁ → ∀ fate now r' w₂,
        w₁.step (.call 0 fate now (.ack ⟨11, 1, 7⟩ 21)) = some (r', w₂) → w₂.db = w₁.db := by
  have hrun : (World.init.run orphanedWriter).isSome = true := by decide
  have hnext : ((World.init.run orphanedWriter).bind (·.step auditedRecovery)).isSome = true := by
    decide
  have haudit : (World.init.run orphanedWriter).map (·.db.recoveryAudit.length) = some 0 := by
    decide
  have haudit' : ((World.init.run orphanedWriter).bind (·.step auditedRecovery)).map
      (·.2.db.recoveryAudit.length) = some 1 := by decide
  have hgen : ((World.init.run orphanedWriter).bind (·.step auditedRecovery)).map
      (·.2.db.generation) = some (some 2) := by decide
  obtain ⟨w,hw⟩ := isSome_iff_exists.mp hrun
  obtain ⟨⟨r,w'⟩,hstep⟩ := isSome_iff_exists.mp hnext
  rw [hw,bind_some] at hstep
  rw [hw,map_some,some.injEq] at haudit
  rw [hw,bind_some,hstep,map_some,some.injEq] at haudit' hgen
  have hcommitted : w'.db.recoveryAudit ≠ w.db.recoveryAudit := by
    intro hsame
    rw [hsame,haudit] at haudit'
    cases haudit'
  obtain ⟨-,-,-,hobsolete,-⟩ :=
    recovery_fences_older_generations (World.reachable_run hw) hstep hcommitted
  refine ⟨w,w',r,hw,hstep,hgen,?_⟩
  intro as w₁ hrun' fate now r' w₂ hcall
  exact hobsolete as w₁ hrun' 0 fate now _ _ r' w₂ hcall rfl (.inl (le_refl _))

end LightRAG.Coordination
