import LightRAG.Distributed.Coordinator.Witnesses

/-!
# The barrier behind an uncertain write

A mutation is published before its body runs and acknowledged after a confirmed return.
-/

namespace LightRAG.Coordination
open Table List Option

section Rows

variable {db : Db} {e : Effect}

/-- What has become of a published mutation of an operation: acknowledged, pending, or settled
by the recovery of the operation. -/
inductive Published (db : Db) (id operationId : Uuid) : Prop
  | acked (m : MutationRow) (hm : m ∈ db.mutations) (hid : m.id = id) (hstate : m.state = .ack)
  | pending (m : MutationRow) (hm : m ∈ db.mutations) (hid : m.id = id)
      (hop : m.operationId = operationId) (hstate : m.state = .pending)
  | recovered (o : OperationRow) (ho : o ∈ db.operations) (hid : o.id = operationId)
      (hstate : o.state = .recovered)

def Effect.movesMutations : Effect → Bool
  | publish _ | acknowledge _ _ _ | recover _ _ => true
  | _ => false

theorem apply_mutations (h : e.movesMutations = false) :
    (e.apply db).mutations = db.mutations := by
  cases e with
  | publish m => cases h
  | acknowledge id operationId now => cases h
  | recover a now => cases h
  | phase operationId docId phase metadata now => cases docId <;> rfl
  | _ => rfl

theorem exists_apply_mutations {m : MutationRow} (hm : m ∈ db.mutations) :
    ∃ m' ∈ (e.apply db).mutations, m'.id = m.id := by
  by_cases hmoves : e.movesMutations = false
  · rw [apply_mutations hmoves]
    exact ⟨m,hm,rfl⟩
  have hkept : ∀ (p : MutationRow → Bool) (f : MutationRow → MutationRow),
      (∀ r, (f r).id = r.id) → ∃ m' ∈ updateWhere p f db.mutations, m'.id = m.id := by
    intro p f hf
    cases hp : p m with
    | true => exact ⟨f m,mem_updateWhere.mpr ⟨m,hm,.inl ⟨hp,rfl⟩⟩,hf m⟩
    | false => exact ⟨m,mem_updateWhere.mpr ⟨m,hm,.inr ⟨hp,rfl⟩⟩,rfl⟩
  cases e with
  | publish p => exact ⟨m,mem_append_left _ hm,rfl⟩
  | acknowledge id operationId now => exact hkept _ _ fun _ => rfl
  | recover a now => exact hkept _ _ fun _ => rfl
  | _ => exact absurd rfl hmoves

theorem mem_apply_ack {m : MutationRow} (hm : m ∈ (e.apply db).mutations)
    (hstate : m.state = .ack) :
    m ∈ db.mutations ∨ (∃ p, e = .publish p ∧ m = p) ∨
      ∃ operationId now, e = .acknowledge m.id operationId now := by
  by_cases hmoves : e.movesMutations = false
  · rw [apply_mutations hmoves] at hm
    exact .inl hm
  cases e with
  | publish p =>
    rcases mem_append.mp hm with hm | hm
    · exact .inl hm
    · exact .inr (.inl ⟨p,rfl,mem_singleton.mp hm⟩)
  | acknowledge id operationId now =>
    obtain ⟨m₀,hm₀,⟨hp,rfl⟩ | ⟨-,rfl⟩⟩ := mem_updateWhere.mp hm
    · rw [decide_eq_true_eq] at hp
      exact .inr (.inr ⟨operationId,now,by rw [hp.1]⟩)
    · exact .inl hm₀
  | recover a now =>
    obtain ⟨m₀,hm₀,⟨-,rfl⟩ | ⟨-,rfl⟩⟩ := mem_updateWhere.mp hm
    · cases hstate
    · exact .inl hm₀
  | _ => exact absurd rfl hmoves

theorem mem_acknowledge_other {id operationId : Uuid} {now : Nat} {m : MutationRow}
    (hm : m ∈ db.mutations) (hne : m.id ≠ id) :
    m ∈ (db.acknowledge id operationId now).mutations := by
  refine mem_updateWhere.mpr ⟨m,hm,.inr ⟨?_,rfl⟩⟩
  rw [decide_eq_false_iff_not]
  exact fun h => hne h.1

theorem exists_apply_recovered (hids : (db.operations.map (·.id)).Nodup) (hallowed : e.Allowed db)
    {o : OperationRow} (ho : o ∈ db.operations) (hstate : o.state = .recovered) :
    ∃ p ∈ (e.apply db).operations, p.id = o.id ∧ p.state = .recovered := by
  by_cases hmoves : e.movesTickets = false
  · obtain ⟨p,hp,hticket⟩ := exists_ticket (apply_tickets hmoves).symm ho
    exact ⟨p,hp,congrArg Ticket.id hticket,(congrArg Ticket.state hticket).trans hstate⟩
  cases e with
  | enter p => exact ⟨o,mem_append_left _ ho,rfl,hstate⟩
  | finish operationId now =>
    have hne : o.id ≠ operationId := by
      rintro rfl
      obtain ⟨⟨p,hp,hid,hactive⟩,-⟩ := hallowed
      rw [eq_of_key hids hp ho hid,hstate] at hactive
      cases hactive
    exact ⟨o,mem_updateWhere.mpr ⟨o,ho,.inr ⟨decide_eq_false hne,rfl⟩⟩,rfl,hstate⟩
  | recover a now =>
    refine ⟨o,mem_updateWhere.mpr ⟨o,ho,.inr ⟨?_,rfl⟩⟩,rfl,hstate⟩
    rw [hstate]
    rfl
  | _ => exact absurd rfl hmoves

theorem Published.apply {id operationId : Uuid} (h : Published db id operationId)
    (hadmitted : Admitted db) (hallowed : e.Allowed db) :
    Published (e.apply db) id operationId := by
  by_cases hmoves : e.movesMutations = false
  · cases h with
    | acked m hm hid hstate =>
      rw [← apply_mutations hmoves] at hm
      exact .acked m hm hid hstate
    | pending m hm hid hop hstate =>
      rw [← apply_mutations hmoves] at hm
      exact .pending m hm hid hop hstate
    | recovered o ho hid hstate =>
      obtain ⟨p,hp,hpid,hpstate⟩ := exists_apply_recovered hadmitted.ids hallowed ho hstate
      exact .recovered p hp (hpid.trans hid) hpstate
  cases h with
  | recovered o ho hid hstate =>
    obtain ⟨p,hp,hpid,hpstate⟩ := exists_apply_recovered hadmitted.ids hallowed ho hstate
    exact .recovered p hp (hpid.trans hid) hpstate
  | acked m hm hid hstate =>
    cases e with
    | publish p => exact .acked m (mem_append_left _ hm) hid hstate
    | acknowledge _ _ _ =>
      refine .acked m (mem_updateWhere.mpr ⟨m,hm,.inr ⟨?_,rfl⟩⟩) hid hstate
      simp [hstate]
    | recover _ _ =>
      refine .acked m (mem_updateWhere.mpr ⟨m,hm,.inr ⟨?_,rfl⟩⟩) hid hstate
      simp [hstate]
    | _ => exact absurd rfl hmoves
  | pending m hm hid hop hstate =>
    cases e with
    | publish p => exact .pending m (mem_append_left _ hm) hid hop hstate
    | acknowledge acked owner now =>
      by_cases hmatch : m.id = acked ∧ m.operationId = owner
      · refine .acked _ (mem_updateWhere.mpr ⟨m,hm,.inl ⟨?_,rfl⟩⟩) hid rfl
        simp [hmatch,hstate]
      · refine .pending m (mem_updateWhere.mpr ⟨m,hm,.inr ⟨?_,rfl⟩⟩) hid hop hstate
        rw [decide_eq_false_iff_not]
        exact fun h => hmatch ⟨h.1,h.2.1⟩
    | recover a now =>
      -- its operation is active, so the recovery settles it
      obtain ⟨o,ho,hoid,hactive⟩ := hadmitted.pending m hm hstate
      refine .recovered _ (mem_updateWhere.mpr ⟨o,ho,.inl ⟨?_,rfl⟩⟩) (hoid.trans hop) rfl
      exact decide_eq_true hactive
    | _ => exact absurd rfl hmoves

end Rows

theorem Published.not_completed {db : Db} {id operationId : Uuid}
    (h : Published db id operationId) (hadmitted : Admitted db) :
    (∃ m ∈ db.mutations, m.id = id ∧ m.state = .ack) ∨
      ∀ o ∈ db.operations, o.id = operationId → o.state ≠ .completed := by
  cases h with
  | acked m hm hid hstate => exact .inl ⟨m,hm,hid,hstate⟩
  | pending m hm hid hop hstate =>
    obtain ⟨p,hp,hpid,hactive⟩ := hadmitted.pending m hm hstate
    refine .inr fun o ho hoid hcompleted => ?_
    have hsame : p = o := eq_of_key hadmitted.ids hp ho (hpid.trans (hop.trans hoid.symm))
    rw [hsame,hcompleted] at hactive
    cases hactive
  | recovered p hp hpid hrecovered =>
    refine .inr fun o ho hoid hcompleted => ?_
    have hsame : p = o := eq_of_key hadmitted.ids hp ho (hpid.trans hoid.symm)
    rw [hsame,hcompleted] at hrecovered
    cases hrecovered

theorem published_run {w w' : World} {as : List Action} {id operationId : Uuid}
    (hw : w.Reachable) (h : Run World.Step w as w') (hpublished : Published w.db id operationId) :
    w'.Reachable ∧ Published w'.db id operationId := by
  apply h.preserves (I := fun w => w.Reachable ∧ Published w.db id operationId)
  · rintro w a w' hstep ⟨hreach,hpublished⟩
    refine ⟨hreach.next hstep,?_⟩
    rcases World.step_effect hstep with hsame | ⟨e,hallowed,happly⟩
    · rw [hsame]
      exact hpublished
    · rw [happly]
      exact hpublished.apply (reachable_admitted hreach) hallowed
  · exact ⟨hw,hpublished⟩

/-- No ACK of the mutation can commit: every context that would send it belongs to a broken
coordinator. -/
def World.Abandoned (w : World) (id : Uuid) : Prop :=
  ∀ ctx ∈ w.mutations, ctx.id = id →
    ∃ self, w.coordinators ctx.coordinator = some self ∧ self.broken = true

theorem publish_of_call {self : Coordinator} {op : Operation} {backend nameSpace method : String}
    {id : Uuid} {e : Effect} (hof : e.Of self (.publish op backend nameSpace method id)) :
    ∃ m, e = .publish m ∧ m.id = id ∧ m.operationId = op.id := by
  cases e with
  | publish m =>
    obtain ⟨op',hcall,hop⟩ := hof
    cases hcall
    exact ⟨m,rfl,rfl,hop.symm⟩
  | _ => simp [Effect.Of,Call.isRaise] at hof

theorem acknowledge_of_call {self : Coordinator} {op : Operation} {id : Uuid} {e : Effect}
    (hof : e.Of self (.ack op id)) : ∃ now, e = .acknowledge id op.id now := by
  cases e with
  | acknowledge acked operationId now =>
    obtain ⟨op',hcall,hop⟩ := hof
    cases hcall
    subst operationId
    exact ⟨now,rfl⟩
  | _ => simp [Effect.Of,Call.isRaise] at hof

namespace World

theorem contexts_mutations (w : World) (i : Nat) (e : Ended Answer) (c : Call) :
    (w.contexts i e c).mutations.Sublist w.mutations ∨
      ∃ op backend nameSpace method id, c = .publish op backend nameSpace method id ∧
        (w.contexts i e c).mutations = ⟨i, op, id⟩ :: w.mutations ∧ ∃ a, e.result = .ok a := by
  cases c with
  | publish op backend nameSpace method id =>
    simp only [contexts]
    split
    · rename_i a hresult
      exact .inr ⟨op,backend,nameSpace,method,id,rfl,rfl,a,hresult⟩
    · exact .inl (List.Sublist.refl _)
  | ack op id => exact .inl erase_sublist
  | raiseMutation op id => exact .inl erase_sublist
  | enterOperation kind exclusive metadata id =>
    simp only [contexts]
    split <;> exact .inl (List.Sublist.refl _)
  | enterLock op taskId keys =>
    simp only [contexts]
    repeat' split
    all_goals exact .inl (List.Sublist.refl _)
  | exitLock op taskId keys =>
    simp only [contexts]
    split <;> exact .inl (List.Sublist.refl _)
  | _ => exact .inl (List.Sublist.refl _)

variable {w w' : World} {a : Action}

theorem step_mutations (h : w.Step a w') :
    w'.mutations.Sublist w.mutations ∨ ∃ ctx, w'.mutations = ctx :: w.mutations ∧
      (∀ m ∈ w.db.mutations, m.id ≠ ctx.id) ∧ ∃ m ∈ w'.db.mutations, m.id = ctx.id := by
  rcases step_contexts h with ⟨i,fate,now,c,rfl⟩ | ⟨-,-,-,hsame⟩
  · obtain ⟨r,h⟩ := h
    obtain ⟨self,-,-,-,rfl⟩ := step_call h
    rcases contexts_mutations w i (self.perform fate now w.db c) c with
      hsub | ⟨op,b,n,m,id,rfl,hcons,a,hresult⟩
    · exact .inl hsub
    refine .inr ⟨⟨i,op,id⟩,hcons,?_⟩
    have hkept := perform_result (.inl rfl) hresult
    have houtcome := perform_outcome self fate now w.db (.publish op b n m id)
    rw [hkept] at houtcome
    simp only [ended]
    generalize (self.perform fate now w.db (.publish op b n m id)).db = db' at houtcome ⊢
    cases houtcome with
    | answered _ _ _ hquiet => simp [Call.reads,Call.tries] at hquiet
    | wrote _ e _ _ _ hof hallowed =>
      obtain ⟨m,rfl,rfl,-⟩ := publish_of_call hof
      exact ⟨hallowed.2.2.2,m,mem_append_right _ mem_cons_self,rfl⟩
  · rw [hsame]
    exact .inl (List.Sublist.refl _)

theorem published_step {id : Uuid} (h : w.Step a w')
    (hpublished : ∃ m ∈ w.db.mutations, m.id = id) : ∃ m ∈ w'.db.mutations, m.id = id := by
  obtain ⟨m,hm,hid⟩ := hpublished
  rcases step_effect h with hsame | ⟨e,-,happly⟩
  · rw [hsame]
    exact ⟨m,hm,hid⟩
  · rw [happly]
    obtain ⟨m',hm',hid'⟩ := exists_apply_mutations (e := e) hm
    exact ⟨m',hm',hid'.trans hid⟩

structure InFlight (w : World) : Prop where
  rows : (w.db.mutations.map (·.id)).Nodup
  ids : (w.mutations.map (·.id)).Nodup
  published : ∀ ctx ∈ w.mutations, ∃ m ∈ w.db.mutations, m.id = ctx.id

theorem nodup_apply_mutations {db : Db} {e : Effect} (hallowed : e.Allowed db)
    (h : (db.mutations.map (·.id)).Nodup) : ((e.apply db).mutations.map (·.id)).Nodup := by
  by_cases hmoves : e.movesMutations = false
  · rw [apply_mutations hmoves]
    exact h
  have hkept : ∀ (p : MutationRow → Bool) (f : MutationRow → MutationRow),
      (∀ r, (f r).id = r.id) → ((updateWhere p f db.mutations).map (·.id)).Nodup := by
    intro p f hf
    rw [map_updateWhere hf]
    exact h
  cases e with
  | publish m => exact nodup_append_new h hallowed.2.2.2
  | acknowledge id operationId now => exact hkept _ _ fun _ => rfl
  | recover a now => exact hkept _ _ fun _ => rfl
  | _ => exact absurd rfl hmoves

theorem InFlight.step (h : InFlight w) (hstep : w.Step a w') :
    InFlight w' := by
  have hrows : (w'.db.mutations.map (·.id)).Nodup := by
    rcases step_effect hstep with hsame | ⟨e,hallowed,happly⟩
    · rw [hsame]
      exact h.rows
    · rw [happly]
      exact nodup_apply_mutations hallowed h.rows
  rcases step_mutations hstep with hsub | ⟨opened,hopened,hfresh,hrow⟩
  · refine ⟨hrows,h.ids.sublist (hsub.map _),?_⟩
    intro ctx hctx
    exact published_step hstep (h.published ctx (hsub.subset hctx))
  refine ⟨hrows,?_,?_⟩
  · rw [hopened,map_cons,nodup_cons]
    refine ⟨?_,h.ids⟩
    intro hmem
    obtain ⟨ctx,hctx,hid⟩ := mem_map.mp hmem
    obtain ⟨m,hm,hmid⟩ := h.published ctx hctx
    exact hfresh m hm (hmid.trans hid)
  · intro ctx hctx
    rw [hopened] at hctx
    rcases mem_cons.mp hctx with rfl | hctx
    · exact hrow
    · exact published_step hstep (h.published ctx hctx)

theorem reachable_inFlight {w : World} (h : w.Reachable) : InFlight w := by
  apply h.invariant
  · rintro w rfl
    refine ⟨nodup_nil,nodup_nil,?_⟩
    intro ctx hctx
    cases hctx
  · intro w a w' hstep hw
    exact hw.step hstep

structure Lost (w : World) (id : Uuid) : Prop where
  published : ∃ m ∈ w.db.mutations, m.id = id
  unacked : ∀ m ∈ w.db.mutations, m.id = id → m.state ≠ .ack
  abandoned : w.Abandoned id

theorem Lost.step {id : Uuid} (h : w.Lost id) (hstep : w.Step a w') :
    w'.Lost id := by
  refine ⟨published_step hstep h.published,?_,?_⟩
  · intro m hm hid hstate
    rcases step_cases hstep with ⟨i,created,-,-,rfl⟩ |
      ⟨i,before,after,hbefore,-,-,-,hsame | ⟨e,hallowed,hmade,happly⟩⟩
    · exact h.unacked m hm hid hstate
    · exact h.unacked m (hsame ▸ hm) hid hstate
    rcases mem_apply_ack (happly ▸ hm) hstate with hold | ⟨p,rfl,rfl⟩ | ⟨op,now,rfl⟩
    · exact h.unacked m hold hid hstate
    · rw [hallowed.2.2.1] at hstate
      cases hstate
    · cases hmade with
      | called fate now c _ henabled hready hof =>
        -- the ACK was sent from an open context of a coordinator that is not broken
        obtain ⟨op,rfl,-⟩ := hof
        obtain ⟨self,hself,hbroken⟩ := h.abandoned ⟨i,op,m.id⟩ henabled hid
        rw [hbefore] at hself
        cases hself
        rw [(hready.usable nofun).unbroken] at hbroken
        cases hbroken
  · have hold : ∀ ctx ∈ w.mutations, ctx.id = id →
        ∃ self, w'.coordinators ctx.coordinator = some self ∧ self.broken = true := by
      intro ctx hctx hid
      obtain ⟨self,hself,hbroken⟩ := h.abandoned ctx hctx hid
      obtain ⟨after,hafter,hevolves⟩ := step_coordinators hstep hself
      exact ⟨after,hafter,hevolves.broken hbroken⟩
    intro ctx hctx hid
    rcases step_mutations hstep with hsub | ⟨opened,hopened,hfresh,-⟩
    · exact hold ctx (hsub.subset hctx) hid
    rw [hopened] at hctx
    rcases mem_cons.mp hctx with rfl | hctx
    · obtain ⟨m,hm,hmid⟩ := h.published
      exact absurd (hmid.trans hid.symm) (hfresh m hm)
    · exact hold ctx hctx hid

theorem Lost.run {as : List Action} {id : Uuid} (h : w.Lost id)
    (hrun : Run Step w as w') : w'.Lost id :=
  hrun.preserves (I := fun w => w.Lost id) (fun _ _ _ hstep hlost => hlost.step hstep) h

/-- The steps that end a mutation context, whether or not its ACK commits: its body raises, its
ACK is sent, its coordinator is quarantined. -/
def Leaves (ctx : MutationContext) : Action → Prop
  | .call i _ _ (.raiseMutation op id) | .call i _ _ (.ack op id) => ctx = ⟨i, op, id⟩
  | .quarantine i => i = ctx.coordinator
  | _ => False

theorem abandoned_of_erase {ctx : MutationContext} (hflight : InFlight w)
    (hctx : ctx ∈ w.mutations) (hleft : w'.mutations = w.mutations.erase ctx) :
    w'.Abandoned ctx.id := by
  intro other hother hid
  have hnodup : w.mutations.Nodup := List.Nodup.of_map _ hflight.ids
  rw [hleft,hnodup.mem_erase_iff] at hother
  exact absurd (eq_of_key hflight.ids hother.2 hctx hid) hother.1

theorem abandoned_of_leaves {ctx : MutationContext}
    (hflight : InFlight w) (hctx : ctx ∈ w.mutations) (hleaves : Leaves ctx a)
    (hstep : w.Step a w') : w'.Abandoned ctx.id := by
  obtain ⟨r,hstep⟩ := hstep
  cases a with
  | call i fate now c =>
    obtain ⟨self,-,-,-,rfl⟩ := step_call hstep
    cases c with
    | raiseMutation op id =>
      obtain rfl : ctx = ⟨i,op,id⟩ := hleaves
      exact abandoned_of_erase hflight hctx rfl
    | ack op id =>
      obtain rfl : ctx = ⟨i,op,id⟩ := hleaves
      exact abandoned_of_erase hflight hctx rfl
    | _ => exact hleaves.elim
  | quarantine i =>
    obtain rfl : i = ctx.coordinator := hleaves
    simp only [step,map_eq_some_iff] at hstep
    obtain ⟨self,hself,hstep⟩ := hstep
    obtain ⟨-,rfl⟩ := Prod.mk.inj hstep
    intro other hother hid
    have hsame : other = ctx := eq_of_key hflight.ids hother hctx hid
    subst other
    exact ⟨self.quarantine,Function.update_self ..,rfl⟩
  | _ => exact hleaves.elim

/-- The scope takes no work: the calls that check it are refused and write at most the fence,
and of the others only an ACK does work of a client. It acknowledges its own row alone. -/
structure Barred (w : World) : Prop where
  refused : ∀ i fate now c r w', w.step (.call i fate now c) = some (r, w') →
    c.guarded = true → (∃ f, r = .error f) ∧
      (w'.db = w.db ∨ ∃ reason, w'.db = w.db.fence reason)
  answered : ∀ i fate now c a w', w.step (.call i fate now c) = some (.ok a, w') →
    c = .takeWitness ∨ c = .discoverOrphans ∨ c.isRecover = true ∨ ∃ op id, c = .ack op id
  acked : ∀ i fate now op id r w', w.step (.call i fate now (.ack op id)) = some (r, w') →
    (w.db.Fenced → w'.db.Fenced) ∧
      ∀ m ∈ w.db.mutations, m.state = .pending → m.id ≠ id → m ∈ w'.db.mutations

theorem reply_of_guarded {e : Ended Answer} {c : Call} (h : c.guarded = true) :
    c.reply e = e.result := by
  cases c with
  | raiseOperation op => cases h
  | raiseLock op taskId keys => cases h
  | raiseMutation op id => cases h
  | _ => rfl

theorem barred_of_blocked {w : World} (hblocked : w.db.Blocked) : w.Barred := by
  refine ⟨?_,?_,?_⟩
  · intro i fate now c r w' h hguarded
    obtain ⟨self,-,-,rfl,rfl⟩ := step_call h
    rw [reply_of_guarded hguarded]
    have houtcome := perform_outcome self fate now w.db c
    have hnone : (self.perform fate now w.db c).kept = none ∧
        ((self.perform fate now w.db c).db = w.db ∨
          ∃ reason, (self.perform fate now w.db c).db = w.db.fence reason) := by
      generalize (self.perform fate now w.db c).kept = kept at houtcome ⊢
      generalize (self.perform fate now w.db c).db = db' at houtcome ⊢
      cases houtcome with
      | refused => exact ⟨rfl,.inl rfl⟩
      | fenced reason _ _ => exact ⟨rfl,.inr ⟨reason,rfl⟩⟩
      | answered _ _ hclear _ => exact absurd (hclear hguarded) hblocked.not_clear
      | wrote _ _ _ hclear _ _ _ => exact absurd (hclear hguarded) hblocked.not_clear
    refine ⟨?_,hnone.2⟩
    cases hresult : (self.perform fate now w.db c).result with
    | error f => exact ⟨f,rfl⟩
    | ok a =>
      have hkept := perform_result (.inl hguarded) hresult
      rw [hnone.1] at hkept
      cases hkept
  · intro i fate now c a w' h
    by_cases hguarded : c.guarded = true
    · obtain ⟨self,-,-,hreply,-⟩ := step_call h
      have houtcome := perform_outcome self fate now w.db c
      rw [reply_of_guarded hguarded] at hreply
      rw [perform_result (.inl hguarded) hreply.symm] at houtcome
      generalize (self.perform fate now w.db c).db = db' at houtcome
      cases houtcome with
      | answered _ _ hclear _ => exact absurd (hclear hguarded) hblocked.not_clear
      | wrote _ _ _ hclear _ _ _ => exact absurd (hclear hguarded) hblocked.not_clear
    obtain ⟨self,-,-,hreply,-⟩ := step_call h
    cases c with
    | takeWitness => exact .inl rfl
    | discoverOrphans => exact .inr (.inl rfl)
    | recover expectedGeneration actor reason confirmations => exact .inr (.inr (.inl rfl))
    | ack op id => exact .inr (.inr (.inr ⟨op,id,rfl⟩))
    | raiseOperation op => cases hreply
    | raiseLock op taskId keys => cases hreply
    | raiseMutation op id => cases hreply
    | _ => exact absurd rfl hguarded
  · intro i fate now op id r w' h
    obtain ⟨self,-,-,-,rfl⟩ := step_call h
    simp only [ended]
    rcases (perform_outcome self fate now w.db (.ack op id)).effect with
      hsame | ⟨reason,-,hchecks,-⟩ | ⟨e,hallowed,-,hof,happly⟩
    · rw [hsame]
      exact ⟨fun h => h,fun m hm _ _ => hm⟩
    · simp [Call.guarded] at hchecks
    · rw [happly]
      obtain ⟨now',rfl⟩ := acknowledge_of_call hof
      refine ⟨fun h => fenced_apply h ?_,fun m hm _ hne => mem_acknowledge_other hm hne⟩
      intro a now heq
      cases heq

end World

/-- A mutation published and not acknowledged holds its operation back, whatever became of its
context; a context that ends without the ACK has lost it for good; and behind a fence, or an
owner whose witness is gone, the scope is barred until a recovery commits. -/
theorem uncertain_write_barrier {w : World} (hw : w.Reachable) {m : MutationRow}
    (hm : m ∈ w.db.mutations) (hpending : m.state = .pending) :
    (∀ as w', Run World.Step w as w' →
      (∃ p ∈ w'.db.mutations, p.id = m.id ∧ p.state = .ack) ∨
        ∀ o ∈ w'.db.operations, o.id = m.operationId → o.state ≠ .completed) ∧
    (∀ ctx ∈ w.mutations, ctx.id = m.id → ∀ a w', World.Leaves ctx a → w.Step a w' →
      w'.Abandoned m.id) ∧
    (w.Abandoned m.id → ∀ as w', Run World.Step w as w' →
      (∀ p ∈ w'.db.mutations, p.id = m.id → p.state ≠ .ack) ∧
        ∀ o ∈ w'.db.operations, o.id = m.operationId → o.state ≠ .completed) ∧
    (w.db.Fenced ∨ (∃ o ∈ w.db.operations, o.id = m.operationId ∧ w.db.isOrphan o = true) →
      ∀ as w', Run World.StepUnrecovered w as w' → w'.Barred) := by
  have hadmitted := reachable_admitted hw
  have hflight := World.reachable_inFlight hw
  have hrun : ∀ as w', Run World.Step w as w' →
      (∃ p ∈ w'.db.mutations, p.id = m.id ∧ p.state = .ack) ∨
        ∀ o ∈ w'.db.operations, o.id = m.operationId → o.state ≠ .completed := by
    intro as w' hrun
    obtain ⟨hreach,hpublished⟩ := published_run hw hrun (.pending m hm rfl rfl hpending)
    exact hpublished.not_completed (reachable_admitted hreach)
  refine ⟨hrun,?_,?_,?_⟩
  · intro ctx hctx hid a w' hleaves hstep
    exact hid ▸ World.abandoned_of_leaves hflight hctx hleaves hstep
  · intro habandoned as w' hrun'
    have hunacked : ∀ p ∈ w.db.mutations, p.id = m.id → p.state ≠ .ack := by
      intro p hp hid hstate
      rw [eq_of_key hflight.rows hp hm hid,hpending] at hstate
      cases hstate
    have hlost : w'.Lost m.id := World.Lost.run ⟨⟨m,hm,rfl⟩,hunacked,habandoned⟩ hrun'
    refine ⟨hlost.unacked,?_⟩
    rcases hrun as w' hrun' with ⟨p,hp,hid,hstate⟩ | hopen
    · exact absurd hstate (hlost.unacked p hp hid)
    · exact hopen
  · intro hcause as w' hrun'
    have hblocked : w.db.Blocked := by
      rcases hcause with hfenced | ⟨o,ho,hid,horphan⟩
      · exact .inl hfenced
      obtain ⟨p,hp,hpid,hactive⟩ := hadmitted.pending m hm hpending
      have hsame : p = o := eq_of_key hadmitted.ids hp ho (hpid.trans hid.symm)
      subst p
      exact .inr ⟨m.operationId,o,ho,hid,hactive,horphan⟩
    exact World.barred_of_blocked (blocked_run hw hrun' hblocked).2

def uncertainWrite : List Action :=
  busyWriter ++ [.call 0 .delivered 7 (.raiseMutation ⟨11, 1, 7⟩ 21)]

theorem uncertain_write_barrier_uncertainWrite :
    ∃ w, World.init.run uncertainWrite = some w ∧
      (∀ as w', Run World.Step w as w' →
        ∀ o ∈ w'.db.operations, o.id = 11 → o.state ≠ .completed) ∧
      ∀ as w', Run World.StepUnrecovered w as w' → w'.Barred := by
  have hrun : (World.init.run uncertainWrite).isSome = true := by decide
  obtain ⟨w,hw⟩ := isSome_iff_exists.mp hrun
  have hrow : (World.init.run uncertainWrite).map (·.db.mutations) = some
      [⟨21,11,"postgres","chunks","upsert",.pending,none,none⟩] := by decide
  have hworkspace : (World.init.run uncertainWrite).map (·.db.workspace) = some (some
      ⟨"manifest",1,true,some "Storage mutation acknowledgement is uncertain"⟩) := by decide
  have hcontexts : (World.init.run uncertainWrite).map (·.mutations) = some [] := by decide
  rw [hw,map_some,some.injEq] at hrow hworkspace hcontexts
  obtain ⟨-,-,hlost,hbarred⟩ := uncertain_write_barrier (World.reachable_run hw)
    (hrow ▸ mem_singleton.mpr rfl) rfl
  refine ⟨w,hw,?_,hbarred (.inl ⟨_,hworkspace,rfl⟩)⟩
  have habandoned : w.Abandoned 21 := by
    intro ctx hctx
    rw [hcontexts] at hctx
    cases hctx
  intro as w' hrun'
  exact (hlost habandoned as w' hrun').2

end LightRAG.Coordination
