import LightRAG.Distributed.Release.Handover

/-!
# A single writer slot

Every unfinished ticket belongs to the active slot at the current epoch, and every instance that
works in the active slot runs the configuration of the scope.
-/

namespace LightRAG.Release
open Table List

/-- A ticket row is an earlier one, possibly settled since, or it is granted in this step. -/
inductive TicketRow.From (db : Db) (t : TicketRow) : Prop
  | kept (t₀ : TicketRow) (hmem : t₀ ∈ db.tickets) (hsame : t = { t₀ with state := t.state })
      (hstate : t.state = t₀.state ∨ t₀.state = .active)
  | granted (parent : Option Uuid) (i : InstanceRow) (hadmits : db.Admits t parent i)

/-- An instance row is an earlier one, possibly retired or closed since, or it is registered in
this step for the configuration of its slot. -/
inductive InstanceRow.From (db : Db) (i : InstanceRow) : Prop
  | kept (i₀ : InstanceRow) (hmem : i₀ ∈ db.instances)
      (hsame : i = { i₀ with retiring := i.retiring, closed := i.closed })
      (hretiring : i₀.retiring = true → i.retiring = true)
      (hclosed : i₀.closed = true → i.closed = true)
  | registered (hnew : db.getInstance i.instanceId = none)
      (hconfig : i.configHash = db.scope.configFor i.slot)

section Rows

variable {db db' : Db} {e : Event}

theorem ticket_kept {t : TicketRow} (h : t ∈ db.tickets) : t.From db := .kept t h rfl (.inl rfl)

theorem instance_kept {i : InstanceRow} (h : i ∈ db.instances) : i.From db :=
  .kept i h rfl (fun hr => hr) (fun hc => hc)

theorem ticket_settled {instanceId : String} {ticket : Uuid} {state : TicketState} {t : TicketRow}
    (h : t ∈ (db.settleTicket instanceId ticket state).tickets) : t.From db := by
  obtain ⟨t₀,ht₀,⟨hpick,rfl⟩ | ⟨_,rfl⟩⟩ := mem_updateWhere.mp h
  · have hactive : t₀.state = .active := (of_decide_eq_true hpick).2.2
    exact .kept t₀ ht₀ rfl (.inr hactive)
  · exact ticket_kept ht₀

theorem ticket_inserted {t t' : TicketRow} {parent : Option Uuid} {i : InstanceRow}
    (hadmits : db.Admits t' parent i) (h : t ∈ (db.insertTicket t').tickets) : t.From db := by
  rcases mem_append.mp h with hold | hnew
  · exact ticket_kept hold
  · rw [mem_singleton] at hnew
    subst hnew
    exact .granted parent i hadmits

theorem instance_closed {instanceId : String} {i : InstanceRow}
    (h : i ∈ (db.closeInstance instanceId).instances) : i.From db := by
  obtain ⟨i₀,hi₀,⟨_,rfl⟩ | ⟨_,rfl⟩⟩ := mem_updateWhere.mp h
  · exact .kept i₀ hi₀ rfl (fun _ => rfl) (fun _ => rfl)
  · exact instance_kept hi₀

theorem tickets_step (hstep : Step db e db') : ∀ t ∈ db'.tickets, t.From db := by
  intro t ht
  cases hstep.change with
  | none _ | closes _ | coordination _ | draws => exact ticket_kept ht
  | wrote hwrites =>
    cases hwrites with
    | admitWriter _ hadmits => exact ticket_inserted hadmits ht
    | claimCommand _ _ _ _ hadmits => exact ticket_inserted hadmits ht
    | finishTicket => exact ticket_settled ht
    | finishCommand => exact ticket_settled ht
    | _ => exact ticket_kept ht

theorem instances_step (hstep : Step db e db') : ∀ i ∈ db'.instances, i.From db := by
  intro i hi
  cases hstep.change with
  | none _ | coordination _ | draws => exact instance_kept hi
  | closes _ => exact instance_closed hi
  | wrote hwrites =>
    cases hwrites with
    | closeInstance => exact instance_closed hi
    | retireOldInstances =>
      obtain ⟨i₀,hi₀,⟨_,rfl⟩ | ⟨_,rfl⟩⟩ := mem_updateWhere.mp hi
      · exact .kept i₀ hi₀ rfl (fun _ => rfl) (fun hc => hc)
      · exact instance_kept hi₀
    | registerInstance hnew _ hconfig =>
      rcases mem_append.mp hi with hold | hadded
      · exact instance_kept hold
      · rw [mem_singleton] at hadded
        subst hadded
        exact .registered hnew hconfig
    | _ => exact instance_kept hi

end Rows

structure SingleWriter (db : Db) : Prop where
  tickets : ∀ t ∈ db.tickets, t.state ≠ .completed →
    t.epoch = db.scope.epoch ∧ t.slot = db.scope.activeSlot
  config : ∀ i ∈ db.instances, i.slot = db.scope.activeSlot → i.closed = false →
    i.retiring = false → i.configHash = db.scope.configHash

def ScopeRow.writer (s : ScopeRow) : Nat × Slot × String := (s.epoch, s.activeSlot, s.configHash)

inductive WriterStep (db db' : Db) : Prop
  | stays (hsame : db'.scope.writer = db.scope.writer)
  | moves (htickets : db'.tickets = db.tickets) (hinstances : db'.instances = db.instances)
      (hdrained : ∀ t ∈ db.tickets, t.state = .completed)
      (hcandidates : ∀ i ∈ db.candidates db'.scope.activeSlot,
        i.configHash = db'.scope.configHash)

section Writer

variable {db db' : Db} {e : Event}

theorem config_of_sameCandidates {candidates : List InstanceRow} {expected : List String}
    {configHash : String}
    (h : ReleaseStore.sameCandidates candidates expected configHash = true) :
    ∀ i ∈ candidates, i.configHash = configHash := by
  simp only [ReleaseStore.sameCandidates,Bool.and_eq_true] at h
  intro i hi
  have hconfig := all_eq_true.mp h.2 i hi
  simpa using hconfig

theorem writer_step (hstep : Step db e db') : WriterStep db db' := by
  cases hstep.change with
  | none _ | closes _ | coordination _ | draws => exact .stays rfl
  | wrote hwrites =>
    cases hwrites with
    | transferWriter _ _ _ hcandidate _ hsame hdrained =>
      refine .moves rfl rfl (tickets_of_empty hdrained) ?_
      show ∀ i ∈ db.candidates (db.scope.candidateSlot.getD db.scope.activeSlot), _
      rw [hcandidate]
      exact config_of_sameCandidates hsame
    | reverseTransfer _ _ _ _ _ hsame hdrained =>
      exact .moves rfl rfl (tickets_of_empty hdrained) (config_of_sameCandidates hsame)
    | _ => exact .stays rfl

namespace SingleWriter

theorem enrolled (h : db.Enrolled) : SingleWriter db := by
  refine ⟨?_,?_⟩
  · simp [h.tickets]
  · simp [h.instances]

theorem step (h : SingleWriter db) (hstep : Step db e db') : SingleWriter db' := by
  cases writer_step hstep with
  | stays hsame =>
    simp only [ScopeRow.writer,Prod.mk.injEq] at hsame
    obtain ⟨hepoch,hslot,hconfig⟩ := hsame
    refine ⟨?_,?_⟩
    · intro t ht hopen
      rw [hepoch,hslot]
      cases tickets_step hstep t ht with
      | kept t₀ ht₀ hsame hstate =>
        have hold := h.tickets t₀ ht₀ <| by
          rcases hstate with hs | hs
          · rwa [← hs]
          · rw [hs]
            decide
        rw [hsame]
        exact hold
      | granted parent i hadmits => exact ⟨hadmits.epoch,hadmits.slot.2⟩
    · intro i hi hactive hclosed hretiring
      rw [hslot] at hactive
      rw [hconfig]
      cases instances_step hstep i hi with
      | kept i₀ hi₀ hsame hr hc =>
        have hworks : i₀.closed = false ∧ i₀.retiring = false := by
          refine ⟨?_,?_⟩
          · by_contra hno
            rw [hc (by simpa using hno)] at hclosed
            cases hclosed
          · by_contra hno
            rw [hr (by simpa using hno)] at hretiring
            cases hretiring
        rw [hsame] at hactive ⊢
        exact h.config i₀ hi₀ hactive hworks.1 hworks.2
      | registered _ hregistered => rw [hregistered,ScopeRow.configFor,if_pos hactive]
  | moves htickets hinstances hdrained hcandidates =>
    refine ⟨?_,?_⟩
    · intro t ht hopen
      rw [htickets] at ht
      exact absurd (hdrained t ht) hopen
    · intro i hi hactive hclosed hretiring
      rw [hinstances] at hi
      apply hcandidates
      simp only [Db.candidates,mem_filter,decide_eq_true_eq]
      exact ⟨hi,hactive,by simp [hclosed],by simp [hretiring]⟩

theorem run {db₀ : Db} {events : List Event} (hinit : db₀.Enrolled)
    (hrun : Run Step db₀ events db) : SingleWriter db :=
  hrun.preserves (fun _ _ _ hstep hi => hi.step hstep) (enrolled hinit)

end SingleWriter

theorem epoch_run {events : List Event} (h : Lockstep db) (hrun : Run Step db events db') :
    db.scope.epoch ≤ db'.scope.epoch := by
  induction hrun with
  | nil => exact Nat.le_refl _
  | cons hstep _ ih =>
    have hraised := (Raises.step h hstep).epoch
    have hrest := ih (h.step hstep)
    omega

theorem drained_by_move (h : Lockstep db) (hstep : Step db e db') (hmoves : e.moves.isSome = true) :
    ∀ t ∈ db'.tickets, t.state = .completed := by
  cases writer_step hstep with
  | stays hsame =>
    have hraised := (Raises.step h hstep).epoch
    rw [if_pos hmoves] at hraised
    have hepoch : db'.scope.epoch = db.scope.epoch := congrArg Prod.fst hsame
    omega
  | moves htickets _ hdrained _ => rwa [htickets]

theorem drained_after_move (h : Lockstep db) (hwriter : SingleWriter db) (hstep : Step db e db')
    (hmoves : e.moves.isSome = true) {events : List Event} {db'' : Db}
    (hrun : Run Step db' events db'') {t : TicketRow} (ht : t ∈ db''.tickets)
    (hold : t.epoch ≤ db.scope.epoch ∨ t.slot ≠ db''.scope.activeSlot) : t.state = .completed := by
  by_contra hopen
  have hlater : SingleWriter db'' :=
    hrun.preserves (fun _ _ _ hs hi => hi.step hs) (hwriter.step hstep)
  have hcurrent := hlater.tickets t ht hopen
  have hraised := (Raises.step h hstep).epoch
  rw [if_pos hmoves] at hraised
  have hmono := epoch_run (h.step hstep) hrun
  rcases hold with hepoch | hslot
  · omega
  · exact hslot hcurrent.2

theorem granted_config (h : SingleWriter db) (hstep : Step db e db') {t : TicketRow}
    (ht : t ∈ db'.tickets) (hnew : ∀ t₀ ∈ db.tickets, t₀.id ≠ t.id) :
    ∃ i, db.getInstance t.instanceId = some i ∧ i.slot = db.scope.activeSlot ∧
      i.configHash = db.scope.configHash := by
  cases tickets_step hstep t ht with
  | kept t₀ ht₀ hsame _ =>
    have hid : t₀.id = t.id := by rw [hsame]
    exact absurd hid (hnew t₀ ht₀)
  | granted parent i hadmits =>
    have hi := mem_of_lookup hadmits.registered
    have hconfig := h.config i hi.1 hadmits.slot.1 hadmits.working.1 hadmits.working.2
    exact ⟨i,hadmits.registered,hadmits.slot.1,hconfig⟩

end Writer

/-- A single active writer slot, in every state that any interleaving of calls reaches and in
every continuation from there. -/
theorem single_active_writer {db₀ db : Db} {events : List Event} (hinit : db₀.Enrolled)
    (hrun : Run Step db₀ events db) :
    (∀ t ∈ db.tickets, t.state = .active ∨ t.state = .uncertain →
      t.epoch = db.scope.epoch ∧ t.slot = db.scope.activeSlot) ∧
    (∀ i ∈ db.instances, i.slot = db.scope.activeSlot → i.closed = false → i.retiring = false →
      i.configHash = db.scope.configHash) ∧
    (∀ e db', Step db e db' → e.moves.isSome = true →
      (∀ t ∈ db'.tickets, t.state = .completed) ∧
      ∀ events' db'', Run Step db' events' db'' → ∀ t ∈ db''.tickets,
        t.epoch ≤ db.scope.epoch ∨ t.slot ≠ db''.scope.activeSlot → t.state = .completed) ∧
    (∀ e db', Step db e db' → ∀ t ∈ db'.tickets, (∀ t₀ ∈ db.tickets, t₀.id ≠ t.id) →
      ∃ i, db.getInstance t.instanceId = some i ∧ i.slot = db.scope.activeSlot ∧
        i.configHash = db.scope.configHash) := by
  have hlock := Lockstep.run hinit hrun
  have hwriter := SingleWriter.run hinit hrun
  refine ⟨?_,hwriter.config,?_,?_⟩
  · intro t ht hopen
    apply hwriter.tickets t ht
    rcases hopen with hs | hs <;> simp [hs]
  · intro e db' hstep hmoves
    refine ⟨drained_by_move hlock hstep hmoves,?_⟩
    · intro events' db'' hrest t ht hold
      exact drained_after_move hlock hwriter hstep hmoves hrest ht hold
  · intro e db' hstep t ht hnew
    exact granted_config hwriter hstep ht hnew

/-- Green has the writer and a ticket after `upgrade`; the ticket of blue stays completed. -/
theorem single_active_writer_upgrade :
    let db := (enrolledDb.execute
      ([(0, .registerInstance "prod/main" "blue-1" .blue "config" "profile" 3),
        (0, .admitWriter "prod/main" "blue-1" 1 20 "insert" none none),
        (0, .finishTicket "blue-1" (some 20) false)] ++ upgradeCalls ++
        [(6, .admitWriter "prod/main" "green-1" 2 21 "insert" none none)])).2
    db.tickets.map (fun t => (t.id, t.epoch, t.slot)) = [(20, 1, .blue), (21, 2, .green)] ∧
      ∀ t ∈ db.tickets, t.state = .active ∨ t.state = .uncertain →
        t.epoch = db.scope.epoch ∧ t.slot = db.scope.activeSlot := by
  refine ⟨by decide +kernel,?_⟩
  exact (single_active_writer enrolledDb_enrolled (run_execute enrolledDb _)).1

end LightRAG.Release
