import LightRAG.Distributed.Delivery.Reads

/-!
# Deliveries and the read route

Every invocation of a runner keeps to its contract.
-/

namespace LightRAG.Delivery
open Release Trial

variable {config : Config} {w : World} {identity : ReleaseIdentity} {α β : Type}

theorem yields_last {q : Action} (h : ∀ t, w.Keeps t → t.Sound → t.Needs q) :
    Yields config (ask q) (fun _ _ => True) w :=
  yields_ask fun t hkeeps hsound => ⟨h t hkeeps hsound,fun _ _ _ _ => trivial⟩

theorem World.Sound.every_slot (h : w.Sound) (hother : w.observedUp w.db.scope.activeSlot.other = true) :
    ∀ s, w.observedUp s = true := by
  intro s
  by_cases hs : s = w.db.scope.activeSlot
  · rw [hs]
    exact h.active
  · rw [Slot.eq_other hs]
    exact hother

variable {target : Slot}

theorem World.Sound.target_up (h : w.Sound) (hselector : w.service.selector = .slot target) :
    w.observedUp target = true := by
  apply h.selected
  rw [hselector]
  exact decide_eq_true rfl

theorem applied_selector {w' : World} {version : Nat} {old target : Selector}
    (h : w.applied config (.selector version old target) = some w') : w.Steady w' := by
  simp only [World.applied,Option.ite_none_right_eq_some] at h
  obtain ⟨-,hw'⟩ := h
  cases hw'
  exact ⟨rfl,fun _ => id⟩

theorem yields_patchSelector {version : Nat} {old target : Selector}
    (hgated : w.db.scope.phase.gated = true)
    (hup : ∀ s, target.selects s = true → w.observedUp s = true) :
    Yields config (ask (.patch (.selector version old target))) (fun _ t => w.Steady t) w := by
  apply yields_ask
  intro t hkeeps _
  refine ⟨⟨?_,?_⟩,?_⟩
  · rw [hkeeps.scope]
    exact hgated
  · rw [hkeeps.observedUp]
    exact hup
  · intro _ u _ hperforms
    obtain ⟨now,rounds,heffect⟩ := effect_of_performs hperforms
    simp only [World.effect] at heffect
    split at heffect
    · cases heffect
    · rename_i w' happlied
      cases heffect
      exact hkeeps.quiet.toSteady.trans (applied_selector happlied)

theorem yields_switchReadRoute (h : w.service.selector = .slot target ∨
      w.db.scope.phase.gated = true ∧ ∀ s, w.observedUp s = true) :
    Yields config (Transport.switchReadRoute identity target) (fun _ t => w.Steady t) w := by
  apply yields_bind
  apply yields_ask
  intro t hkeeps _
  refine ⟨trivial,?_⟩
  intro svc u _ hperforms
  obtain ⟨now,rounds,heffect⟩ := effect_of_performs hperforms
  cases heffect
  have hsteady : w.Steady t := hkeeps.quiet.toSteady
  split
  · apply (reads_waitObserve [target]).yields.mono
    intro _ v hv
    exact hsteady.trans hv.1.toSteady
  rename_i hother
  rw [hkeeps.selector] at hother
  obtain hselector | ⟨hgated,hup⟩ := h
  · exact absurd hselector hother
  have hboth : Yields config (Transport.selectBoth t.service) (fun _ u => w.Steady u) t := by
    unfold Transport.selectBoth
    split
    · exact yields_pure hsteady
    · apply (yields_patchSelector _ _).mono
      · intro _ v hv
        exact hsteady.trans hv
      · rw [hsteady.scope]
        exact hgated
      · intro s _
        exact hsteady.observedUp s (hup s)
  apply hboth.bind
  intro _ v hv
  apply (reads_waitObserve [.blue, .green]).yields.bind
  intro _ v₁ hv₁
  have hsteady₁ := hv.trans hv₁.1.toSteady
  apply yields_bind
  apply yields_ask
  intro t₂ hkeeps₂ _
  refine ⟨trivial,?_⟩
  intro svc₂ v₂ _ hperforms₂
  have hsteady₂ := hsteady₁.trans (hkeeps₂.quiet.trans (quiet_performs rfl hperforms₂)).toSteady
  apply (yields_patchSelector _ _).bind
  · intro _ v₃ hv₃
    apply (reads_waitObserve [target]).yields.mono
    intro _ v₄ hv₄
    exact (hsteady₂.trans hv₃).trans hv₄.1.toSteady
  · rw [hsteady₂.scope]
    exact hgated
  · intro s _
    exact hsteady₂.observedUp s (hup s)

section Row

variable {db : Db} {now epoch : Nat}

def ReturnsRow (rowOf : α → Option ScopeRow) (r : Except Failure α) (db : Db) : Prop :=
  match r with
  | .ok a => ∀ row, rowOf a = some row → row = db.scope
  | .error _ => True

def replyRow : Reply → Option ScopeRow
  | .begun (.current row) => some row
  | .scope row => some row
  | _ => none

theorem begin_row (db : Db) (now : Nat) (identity : ReleaseIdentity) (epoch : Nat) :
    ReturnsRow replyRow (db.perform now (.begin identity epoch)).1
      (db.perform now (.begin identity epoch)).2 := by
  refine perform_post (Q := ReturnsRow replyRow) rfl ?_
  unfold ReleaseStore.begin
  rw [Tx.post_bind]
  apply lockScope_post
  · intro f
    trivial
  simp only [Tx.post_bind,Tx.post_ite,Tx.post_raise,Tx.post_fetch]
  split
  · trivial
  split
  · trivial
  split
  · rintro row ⟨⟩
  split
  · split
    · trivial
    split
    · trivial
    · split
      · trivial
      · rintro row ⟨⟩
        rfl
  simp only [Tx.post_bind,Tx.post_ite,Tx.post_fetch]
  split
  · trivial
  split
  · trivial
  split
  · trivial
  split
  · trivial
  · rintro row ⟨⟩
    rfl

theorem beginRollback_row (db : Db) (now : Nat) (identity : ReleaseIdentity) (epoch : Nat)
    (approval : Option Approval) :
    ReturnsRow replyRow (db.perform now (.beginRollback identity epoch approval)).1
      (db.perform now (.beginRollback identity epoch approval)).2 := by
  refine perform_post (Q := ReturnsRow replyRow) rfl ?_
  unfold ReleaseStore.beginRollback
  rw [Tx.post_bind]
  apply lockScope_post
  · intro f
    trivial
  simp only [Tx.post_bind,Tx.post_fetch]
  split
  · trivial
  · split
    · trivial
    · trivial
  simp only [Tx.post_bind,Tx.post_ite]
  split
  · trivial
  split
  · trivial
  split
  · split
    · trivial
    · rintro row ⟨⟩
      rfl
  split
  · trivial
  simp only [Tx.post_fetch]
  split
  · trivial
  · rintro row ⟨⟩
    rfl

theorem abortBeforeTransfer_row {row : ScopeRow}
    (h : (db.perform now (.abortBeforeTransfer identity epoch)).1 = .ok (.scope row)) :
    row = (db.perform now (.abortBeforeTransfer identity epoch)).2.scope ∧
      row.phase = .aborting := by
  have houtcome := perform_outcome db now (.abortBeforeTransfer identity epoch)
  generalize (db.perform now (.abortBeforeTransfer identity epoch)).1 = r at *
  generalize (db.perform now (.abortBeforeTransfer identity epoch)).2 = db' at *
  cases houtcome with
  | refused => cases h
  | answered _ hquiet => cases hquiet
  | wrote _ _ hwrites =>
    cases hwrites with
    | abortBeforeTransfer =>
      cases h
      exact ⟨rfl,rfl⟩

end Row

variable {slot : Slot}

theorem World.Quiet.inactive {t : World} (h : w.Quiet t) (hinactive : w.Inactive slot) :
    t.Inactive slot := by
  obtain ⟨hne,hunselected⟩ := hinactive
  constructor
  · rw [h.scope]
    exact hne
  · rw [h.selector]
    exact hunselected

theorem World.Sound.inactive (h : w.Sound) (hopen : w.db.scope.phase.gated = false)
    (hne : slot ≠ w.db.scope.activeSlot) : w.Inactive slot := by
  refine ⟨hne,?_⟩
  rw [h.settled hopen]
  exact decide_eq_false (Ne.symm hne)

theorem yields_keepsRow {c : Call} (hc : keepsRow c = true) (hrunner : instanceCall c = false) :
    Yields config (ask (.store c)) (fun _ t => w.Quiet t) w := by
  apply yields_ask
  intro t hkeeps _
  constructor
  · cases c <;> trivial
  · intro _ u _ hperforms
    obtain ⟨now,rounds,heffect⟩ := effect_of_performs hperforms
    simp only [World.effect,Prod.mk.injEq] at heffect
    obtain ⟨-,rfl⟩ := heffect
    exact hkeeps.quiet.trans ⟨⟨scope_of_keepsRow hc,fun _ => id⟩,rfl⟩

theorem yields_putSlot (hinactive : w.Inactive slot) :
    Yields config (Transport.putSlot config identity slot) (fun _ _ => True) w := by
  apply yields_bind
  apply yields_ask
  intro t hkeeps _
  refine ⟨trivial,?_⟩
  intro existing u _ hperforms
  have hinactive' := (hkeeps.quiet.trans (quiet_performs rfl hperforms)).inactive hinactive
  have hneeds : ∀ v, u.Keeps v → v.Inactive slot := fun v hv => hv.quiet.inactive hinactive'
  cases existing with
  | none => exact yields_last fun v hv _ => hneeds v hv
  | some d =>
    dsimp only
    split
    · exact yields_raise _
    split
    · exact yields_last fun v hv _ => hneeds v hv
    · exact yields_pure trivial

theorem reads_baselineDigest (baseline : List Pod) :
    Reads config (Transport.baselineDigest baseline) (fun _ _ => True) w := by
  unfold Transport.baselineDigest
  split
  · exact reads_pure trivial
  · exact reads_raise _

theorem yields_prepare (slot : Slot) :
    Yields config (Transport.prepare config identity slot) (fun _ _ => True) w := by
  apply yields_bind
  apply yields_ask
  intro t _ hsound
  refine ⟨trivial,?_⟩
  intro row u _ hperforms
  obtain ⟨now,rounds,heffect⟩ := effect_of_performs hperforms
  simp only [World.effect,Prod.mk.injEq] at heffect
  obtain ⟨hrow,rfl⟩ := heffect
  split at hrow
  swap
  · cases hrow
  cases hrow
  split
  · exact yields_raise _
  rename_i hprepared
  simp only [Bool.or_eq_true,decide_eq_true_eq,not_or,not_not] at hprepared
  have hinactive : t.Inactive slot :=
    hsound.inactive (by rw [hprepared.2]; rfl) (Ne.symm hprepared.1)
  apply (reads_verifiedPods _ _ _).yields.bind
  intro baseline t₁ h₁
  apply (reads_baselineDigest baseline).yields.bind
  intro digest t₂ h₂
  apply (yields_keepsRow rfl rfl).bind
  intro _ t₃ h₃
  apply (yields_putSlot (((h₁.1.trans h₂.1).trans h₃).inactive hinactive)).bind
  intro _ t₄ _
  apply yields_bind
  apply yields_ask
  intro t₅ _ _
  refine ⟨trivial,?_⟩
  intro rounds t₆ _ _
  apply (reads_retrying (fun t₇ _ => reads_verifyCandidate slot) rounds).yields.bind
  intro _ t₇ _
  exact yields_pure trivial

theorem reads_waitClosed (slot : Slot) (n : Nat) :
    Reads config (Transport.waitClosed slot n) (fun _ t => t.closedSeen = some slot) w := by
  have hseen : ∀ (t : World) (k : Nat) (u : World), Performs config (.unfinished slot) t (.ok k) u →
      k = 0 → u.closedSeen = some slot := by
    rintro t k u hperforms rfl
    obtain ⟨now,rounds,heffect⟩ := effect_of_performs hperforms
    simp only [World.effect,Prod.mk.injEq,Except.ok.injEq] at heffect
    rw [← heffect.2]
    exact if_pos heffect.1
  induction n generalizing w with
  | zero =>
    apply reads_bind
    apply reads_ask rfl
    intro t k u _ hperforms
    split
    · rename_i hk
      exact reads_pure (hseen t k u hperforms hk)
    · exact reads_raise _
  | succ n ih =>
    apply reads_bind
    apply reads_ask rfl
    intro t k u _ hperforms
    split
    · rename_i hk
      exact reads_pure (hseen t k u hperforms hk)
    · exact ih

theorem yields_waitClosedAndScale (hinactive : w.Inactive slot) :
    Yields config (Transport.waitClosedAndScale slot) (fun _ _ => True) w := by
  apply yields_bind
  apply (reads_ask rfl fun _ _ _ _ _ => trivial : Reads config (ask .rounds) (fun _ _ => True)
    w).yields.mono
  intro rounds t h
  apply (reads_waitClosed slot rounds).yields.bind
  intro _ t₁ h₁
  apply yields_bind
  apply yields_ask
  intro t₂ hkeeps₂ _
  refine ⟨trivial,?_⟩
  intro deployment t₃ _ hperforms
  obtain ⟨now,_,heffect⟩ := effect_of_performs hperforms
  cases heffect
  have hinactive' := ((h.1.trans h₁.1).trans hkeeps₂.quiet).inactive hinactive
  cases t₂.deployments slot with
  | none => exact yields_raise _
  | some d =>
    dsimp only
    split
    · apply yields_last
      intro v hv _
      refine ⟨hv.quiet.inactive hinactive',?_⟩
      rw [hv.closedSeen,hkeeps₂.closedSeen]
      exact h₁.2
    · exact yields_pure trivial

theorem yields_handle {x : Runner α} {h : Failure → Runner α} {Q : α → World → Prop}
    (hx : Yields config x Q w) (hh : ∀ e t, Yields config (h e) Q t) :
    Yields config (x.handle h) Q w := by
  refine (ends_handle x h).mpr (Ends.mono hx ?_)
  intro r t hr
  cases r with
  | ok a => exact hr
  | error e => exact hh e t

theorem reads_handle {x : Runner α} {h : Failure → Runner α} {Q : α → World → Prop}
    (hx : Reads config x Q w) (hh : ∀ e t, w.Quiet t → Reads config (h e) Q t) :
    Reads config (x.handle h) Q w := by
  refine (ends_handle x h).mpr (Ends.mono hx ?_)
  rintro r t ⟨hquiet,hr⟩
  cases r with
  | ok a => exact ⟨hquiet,hr⟩
  | error e =>
    apply Ends.mono (hh e t hquiet)
    rintro r' u ⟨hquiet',hr'⟩
    exact ⟨hquiet.trans hquiet',hr'⟩

theorem reads_any {q : Action} (hq : q.quiet = true) :
    Reads config (ask q) (fun _ _ => True) w :=
  reads_ask hq fun _ _ _ _ _ => trivial

theorem reads_waitForDrain (epoch n : Nat) :
    Reads config (Orchestrator.waitForDrain identity epoch n) (fun _ _ => True) w := by
  induction n generalizing w with
  | zero => exact reads_raise _
  | succ n ih =>
    have hdrained : Reads config (Orchestrator.drained identity epoch) (fun _ _ => True) w := by
      apply reads_handle
      · apply (reads_any rfl).bind
        intro _ t _ _
        exact reads_pure trivial
      · intro e t _
        cases e with
        | draining => exact reads_pure trivial
        | _ => exact reads_raise _
    apply hdrained.bind
    intro empty t _ _
    split
    · exact reads_pure trivial
    · exact ih

theorem reads_report : Reads config (Orchestrator.report identity) (fun _ _ => True) w := by
  apply (reads_any rfl).bind
  intro row t _ _
  apply (reads_any rfl).bind
  intro _ u _ _
  exact reads_pure trivial

/-- What is known of the row that an invocation goes on with. -/
structure World.Current (w : World) (row : ScopeRow) : Prop where
  row : row = w.db.scope
  sound : w.Sound

theorem yields_begin (epoch : Nat) :
    Yields config (Orchestrator.begin identity epoch)
      (fun b t => ∀ row, b = .current row → t.Current row) w := by
  apply yields_bind
  apply yields_ask
  intro t _ _
  refine ⟨trivial,?_⟩
  intro reply u hsound hperforms
  obtain ⟨now,rounds,heffect⟩ := effect_of_performs hperforms
  simp only [World.effect,Prod.mk.injEq] at heffect
  obtain ⟨hreply,rfl⟩ := heffect
  cases reply with
  | begun b =>
    apply yields_pure
    rintro row rfl
    refine ⟨?_,hsound⟩
    have hrow := begin_row t.db now identity epoch
    rw [hreply] at hrow
    exact hrow row rfl
  | _ => exact yields_raise _

variable {row : ScopeRow}

theorem World.Current.candidate (h : w.Current row)
    (hphase : row.phase.atRest = false) (hslot : row.candidateSlot = some slot) :
    slot ≠ w.db.scope.activeSlot := by
  rw [h.row] at hphase hslot
  obtain ⟨c,hc,hne⟩ := h.sound.lockstep.scope.candidate hphase
  rw [hslot] at hc
  cases hc
  exact hne

theorem yields_namedSlot {slot : Option Slot} {β : Type} {f : Slot → Runner β}
    {R : β → World → Prop} (h : ∀ s, slot = some s → Yields config (f s) R w) :
    Yields config (namedSlot slot >>= f) R w := by
  apply yields_bind
  cases slot with
  | none => exact yields_raise _
  | some s => exact yields_pure (h s rfl)

theorem World.Current.inactive (h : w.Current row)
    (hphase : row.phase.atRest = false) (hopen : row.phase.gated = false)
    (hslot : row.candidateSlot = some slot) : w.Inactive slot := by
  apply h.sound.inactive
  · rw [← h.row]
    exact hopen
  · exact h.candidate hphase hslot

theorem yields_finishAbort (h : ∀ slot, row.candidateSlot = some slot → w.Inactive slot) :
    Yields config (Orchestrator.finishAbort identity row) (fun _ _ => True) w := by
  apply (yields_keepsRow rfl rfl).bind
  intro _ t ht
  apply yields_namedSlot
  intro candidate hcandidate
  apply (yields_waitClosedAndScale (ht.inactive (h candidate hcandidate))).bind
  intro _ t₁ _
  apply (reads_verifyRoute _).yields.bind
  intro _ t₂ _
  apply yields_bind
  apply yields_bind
  apply (yields_ask (q := .store (.finishAbort identity row.epoch)) fun _ _ _ =>
    ⟨trivial,fun _ _ _ _ => trivial⟩ : Yields config _ (fun _ _ => True) t₂).mono
  intro reply t₃ _
  cases reply with
  | scope result =>
    apply yields_pure
    apply reads_report.yields.bind
    intro _ t₄ _
    exact yields_pure trivial
  | _ => exact yields_raise _

theorem World.Sound.switchable (h : w.Sound) :
    w.service.selector = .slot w.db.scope.activeSlot ∨
      w.db.scope.phase.gated = true ∧ ∀ s, w.observedUp s = true := by
  cases hgated : w.db.scope.phase.gated with
  | false => exact .inl (h.settled hgated)
  | true =>
    cases hselector : w.service.selector with
    | common =>
      refine .inr ⟨rfl,fun s => h.selected s ?_⟩
      rw [hselector]
      rfl
    | slot s =>
      by_cases hs : s = w.db.scope.activeSlot
      · exact .inl (by rw [hs])
      · refine .inr ⟨rfl,h.every_slot ?_⟩
        rw [← Slot.eq_other hs]
        exact h.target_up hselector

theorem yields_abortBeforeTransfer (epoch : Nat) :
    Yields config (Orchestrator.abortBeforeTransfer identity epoch) (fun _ _ => True) w := by
  apply (yields_begin epoch).bind
  intro b t hb
  cases b with
  | finished phase =>
    dsimp only
    split
    · exact yields_pure trivial
    · exact yields_raise _
  | current row =>
    have hcurrent := hb row rfl
    dsimp only
    split
    · exact yields_raise _
    split
    · have hswitch := hcurrent.sound.switchable
      have hactive : row.activeSlot = t.db.scope.activeSlot := by rw [hcurrent.row]
      rw [← hactive] at hswitch
      apply (yields_switchReadRoute hswitch).bind
      intro _ t₁ h₁
      apply (reads_verifyRoute _).yields.bind
      intro _ t₂ h₂
      apply yields_bind
      apply yields_bind
      apply yields_ask
      intro t₃ hkeeps _
      constructor
      · show t₃.service.selector = .slot t₃.db.scope.activeSlot
        rw [hkeeps.selector,h₂.2.1.selector,hkeeps.scope,h₂.1.scope,h₁.scope,hcurrent.row]
      intro reply u hsound hperforms
      obtain ⟨now,rounds,heffect⟩ := effect_of_performs hperforms
      simp only [World.effect,Prod.mk.injEq] at heffect
      obtain ⟨hreply,rfl⟩ := heffect
      cases reply with
      | scope aborting =>
        have hrow := abortBeforeTransfer_row hreply
        have hcurrent' : World.Current { t₃ with db := _ } aborting := ⟨hrow.1,hsound⟩
        exact yields_pure (yields_finishAbort fun slot hslot =>
          hcurrent'.inactive (by rw [hrow.2]; rfl) (by rw [hrow.2]; rfl) hslot)
      | _ => exact yields_raise _
    · rename_i hphase
      rw [not_not] at hphase
      apply (reads_verifyRoute _).yields.bind
      intro _ t₁ h₁
      exact yields_finishAbort fun slot hslot => h₁.1.inactive
        (hcurrent.inactive (by rw [hphase]; rfl) (by rw [hphase]; rfl) hslot)

theorem yields_close {q : Action} (h : ∀ t : World, t.Needs q) :
    Yields config (ask q >>= fun _ => pure ()) (fun _ _ => True) w := by
  apply (yields_last fun t _ _ => h t).bind
  intro _ t _
  exact yields_pure trivial

theorem World.Current.every_slot {t : World} (h : w.Current row)
    (hphase : row.phase.atRest = false) (htarget : row.candidateSlot = some target)
    (ht : w.Quiet t) (hup : t.observedUp target = true) : ∀ s, t.observedUp s = true := by
  intro s
  have hother := Slot.eq_other (h.candidate hphase htarget)
  by_cases hs : s = w.db.scope.activeSlot
  · rw [hs]
    exact ht.observedUp _ h.sound.active
  · rw [Slot.eq_other hs,← hother]
    exact hup

theorem yields_transfer {c : Call}
    (hc : ∀ t : World, (∀ s, t.db.scope.candidateSlot = some s → t.RoutedTo s ∧ t.observedUp s = true) →
      t.Needs (.store c))
    (hrow : w.db.scope.candidateSlot = row.candidateSlot) (htarget : row.candidateSlot = some target)
    (hrouted : w.RoutedTo target) (hup : w.observedUp target = true) :
    Yields config (ask (.store c) >>= fun _ => pure ()) (fun _ _ => True) w := by
  apply (yields_last _).bind
  · intro _ t _
    exact yields_pure trivial
  · intro t hkeeps _
    apply hc
    intro s hs
    rw [hkeeps.scope,hrow,htarget] at hs
    cases hs
    refine ⟨⟨?_,?_⟩,?_⟩
    · rw [hkeeps.selector]
      exact hrouted.selector
    · rw [hkeeps.route]
      exact hrouted.observed
    · rw [hkeeps.observedUp]
      exact hup

theorem yields_advancePhase (h : w.Current row) :
    Yields config (Orchestrator.advancePhase config identity row) (fun _ _ => True) w := by
  unfold Orchestrator.advancePhase
  split
  · apply yields_namedSlot
    intro target _
    apply (yields_prepare target).bind
    intro _ t _
    apply (reads_verifyCandidate target).yields.bind
    intro _ t₁ _
    exact yields_close fun _ => trivial
  · rename_i hphase
    apply yields_namedSlot
    intro target htarget
    apply (reads_verifyCandidate target).yields.bind
    intro _ t ht
    apply yields_bind
    have hrest : row.phase.atRest = false := by rw [hphase]; rfl
    apply (yields_switchReadRoute (.inr ⟨?_,h.every_slot hrest htarget ht.1 ht.2⟩)).mono
    · intro _ t₁ _
      apply (reads_verifyRoute target).yields.bind
      intro _ t₂ _
      apply (reads_any rfl).yields.bind
      intro _ t₃ _
      exact yields_close fun _ => trivial
    · rw [ht.1.scope,← h.row,hphase]
      rfl
  · apply (reads_any rfl).yields.bind
    intro rounds t ht
    apply (reads_waitForDrain _ rounds).yields.bind
    intro _ t₁ h₁
    apply yields_namedSlot
    intro target htarget
    apply (reads_verifyCandidate target).yields.bind
    intro instances t₂ h₂
    apply (reads_verifyRoute target).yields.bind
    intro _ t₃ h₃
    apply yields_transfer (fun _ => id) _ htarget h₃.2.1 h₃.2.2
    rw [h₃.1.scope,h₂.1.scope,h₁.1.scope,ht.1.scope,h.row]
  · apply (reads_verifyRoute _).yields.bind
    intro _ t _
    exact yields_close fun _ => trivial
  · rename_i hphase
    apply (reads_verifyRoute _).yields.bind
    intro _ t ht
    apply (yields_keepsRow rfl rfl).bind
    intro _ t₁ h₁
    apply yields_namedSlot
    intro old hold
    have hinactive := h.inactive (by rw [hphase]; rfl) (by rw [hphase]; rfl) hold
    apply (yields_waitClosedAndScale ((ht.1.trans h₁).inactive hinactive)).bind
    intro _ t₂ _
    exact yields_close fun _ => trivial
  · exact yields_raise _

theorem yields_advance (epoch : Nat) :
    Yields config (Orchestrator.advance config identity epoch) (fun _ _ => True) w := by
  apply (yields_begin epoch).bind
  intro b t hb
  cases b with
  | finished phase => exact yields_pure trivial
  | current row =>
    dsimp only
    split
    · exact yields_pure trivial
    split
    · exact yields_abortBeforeTransfer epoch
    · apply (yields_advancePhase (hb row rfl)).bind
      intro _ t₁ _
      apply reads_report.yields.mono
      intro _ _ _
      trivial

theorem yields_run (epoch turns : Nat) :
    Yields config (Orchestrator.run config identity epoch turns) (fun _ _ => True) w := by
  induction turns generalizing w with
  | zero => exact yields_raise _
  | succ turns ih =>
    apply yields_bind
    have hturn : Yields config (Orchestrator.advanceOrAbort config identity epoch)
        (fun _ _ => True) w := by
      apply yields_handle (yields_advance epoch)
      intro e t
      cases e with
      | budgetExceeded message =>
        apply (reads_any rfl).yields.bind
        intro row t₁ _
        split
        · exact yields_raise _
        · exact yields_abortBeforeTransfer epoch
      | _ => exact yields_raise _
    apply hturn.mono
    intro phase t _
    split
    · exact yields_pure trivial
    · exact ih

theorem yields_rollbackPhase (h : w.Current row) :
    Yields config (Orchestrator.rollbackPhase identity row) (fun _ _ => True) w := by
  unfold Orchestrator.rollbackPhase
  split
  · rename_i hphase
    apply (reads_any rfl).yields.bind
    intro rounds t ht
    apply (reads_waitForDrain _ rounds).yields.bind
    intro _ t₁ h₁
    apply yields_namedSlot
    intro target htarget
    apply (reads_verifyRollbackCandidate target).yields.bind
    intro instances t₂ h₂
    have hquiet := (ht.1.trans h₁.1).trans h₂.1
    have hrest : row.phase.atRest = false := by rw [hphase]; rfl
    apply (yields_switchReadRoute (.inr ⟨?_,h.every_slot hrest htarget hquiet h₂.2⟩)).bind
    · intro _ t₃ h₃
      apply (reads_verifyRoute target).yields.bind
      intro _ t₄ h₄
      apply yields_transfer (fun _ => id) _ htarget h₄.2.1 h₄.2.2
      rw [h₄.1.scope,h₃.scope,hquiet.scope,h.row]
    · rw [hquiet.scope,← h.row,hphase]
      rfl
  · apply (reads_verifyRoute _).yields.bind
    intro _ t _
    exact yields_close fun _ => trivial
  · rename_i hphase
    apply (reads_verifyRoute _).yields.bind
    intro _ t ht
    apply (yields_keepsRow rfl rfl).bind
    intro _ t₁ h₁
    apply yields_namedSlot
    intro old hold
    have hinactive := h.inactive (by rw [hphase]; rfl) (by rw [hphase]; rfl) hold
    apply (yields_waitClosedAndScale ((ht.1.trans h₁).inactive hinactive)).bind
    intro _ t₂ _
    exact yields_close fun _ => trivial
  · exact yields_pure trivial

theorem yields_rollbackAfterTransfer (epoch : Nat) (approval : Option Approval) :
    Yields config (Orchestrator.rollbackAfterTransfer identity epoch approval) (fun _ _ => True)
      w := by
  apply yields_bind
  apply yields_bind
  apply yields_ask
  intro t _ _
  refine ⟨trivial,?_⟩
  intro reply u hsound hperforms
  obtain ⟨now,rounds,heffect⟩ := effect_of_performs hperforms
  simp only [World.effect,Prod.mk.injEq] at heffect
  obtain ⟨hreply,rfl⟩ := heffect
  cases reply with
  | scope row =>
    apply yields_pure
    have hrow := beginRollback_row t.db now identity epoch approval
    rw [hreply] at hrow
    have hcurrent : World.Current { t with db := _ } row := ⟨hrow row rfl,hsound⟩
    split
    · apply (reads_any rfl).yields.bind
      intro _ t₁ _
      exact yields_pure trivial
    · apply (yields_rollbackPhase hcurrent).bind
      intro _ t₁ _
      apply (reads_any rfl).yields.bind
      intro _ t₂ _
      exact yields_pure trivial
  | _ => exact yields_raise _

theorem Invocation.safe (invocation : Invocation) (epoch : Nat) :
    (runnerContract config).Safe () (invocation.runner config identity epoch) (fun _ _ => True)
      w := by
  have hyields : Yields config (invocation.runner config identity epoch) (fun _ _ => True) w := by
    cases invocation with
    | advance => exact yields_advance epoch
    | run turns => exact yields_run epoch turns
    | abort => exact yields_abortBeforeTransfer epoch
    | rollback approval => exact yields_rollbackAfterTransfer epoch approval
  exact Ends.mono hyields fun _ _ _ => trivial

end LightRAG.Delivery
