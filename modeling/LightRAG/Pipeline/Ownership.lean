import LightRAG.Pipeline.HolderRuns

/-!
# Steps of a run that has lost its slot

A processing run whose reservation was reclaimed or force-reset goes on until it asks for the slot
again.
-/

namespace LightRAG.Reservations
open Table Pipeline List

/-- No signal is taken from the ingress. -/
structure SignalsKept (m m' : Mailbox) : Prop where
  autoRescan : m.autoRescanPending = true → m'.autoRescanPending = true
  documents : m.documents <+: m'.documents
  manualRetries : m.manualRetries <+: m'.manualRetries

/-- Neither the busy slot nor a manual field changes, and no signal is consumed. -/
structure World.Untouched (w w' : World) : Prop where
  slot : SameBusySlot w.status w'.status
  signals : SignalsKept w.ingress w'.ingress

/-- The token of the run on whose behalf the step is taken, once the run was granted its slot. -/
def Event.runToken : Event → Option String
  | .takeOver _ token => some token
  | .run token _ => some token
  | .releaseScanReset token => some token
  | _ => none

namespace World

/-- The world after the reclaim of dead owners that the step begins with. -/
def reclaimed (w : World) : Event → World
  | .takeOver os _ => w.setStatus (w.status.reconcile os)
  | .run _ (.reap os) => w.setStatus (w.status.reconcile os)
  | _ => w

/-- The step is taken on behalf of a run whose token is not the one in `busy_owner`. -/
def Stray (w : World) (e : Event) : Prop :=
  ∃ token, e.runToken = some token ∧ (w.reclaimed e).status.ownedBy .busyOwner token = false

/-- Along the events no stray step touches the slot or the signals. -/
def KeepsOff (w : World) : List Event → Prop
  | [] => True
  | e :: es => (w.Stray e → (w.reclaimed e).Untouched (w.next e)) ∧ (w.next e).KeepsOff es

/-- The decision neither releases the slot nor consumes the auto-rescan flag. -/
def DecisionHolds (w : World) (sweepDone : Bool) : Prop :=
  w.status.cancellationRequested = true ∨
    (w.status.manualPhase ≠ .drainToIdle ∧ w.ingress.manualRetries ≠ []) ∨
    sweepDone = false ∨
    w.ingress.autoRescanPending = false ∧
      (w.status.manualPhase = .drainToIdle ∨ w.ingress.documents ≠ [] ∨
        w.status.busy = false ∧ w.status.busyOwner = none)

/-- What has to hold before a stray step for it to leave the slot and the signals alone. -/
def Harmless (w : World) : Event → Prop
  | .takeOver os _ => (w.status.reconcile os).recoveryRequired.isSome = true
  | .run _ .absorbAutoRescan => w.ingress.autoRescanPending = false
  | .run _ (.decide sweepDone) => w.DecisionHolds sweepDone
  | .run _ (.drainDocuments limit) => w.ingress.documents = [] ∨ ∃ n, limit = some n ∧ n ≤ 0
  | .run _ (.ackManualRetry requestId) => w.ingress.isPending requestId = false
  | _ => True

def StrayHarmless (w : World) : List Event → Prop
  | [] => True
  | e :: es => (w.Stray e → w.Harmless e) ∧ (w.next e).StrayHarmless es

end World

section Ingress

variable {m : Mailbox}

theorem signalsKept_refl (m : Mailbox) : SignalsKept m m :=
  ⟨id,prefix_rfl,prefix_rfl⟩

theorem signalsKept_requestAutoRescan (m : Mailbox) :
    SignalsKept m (Mailbox.after m .requestAutoRescan) :=
  ⟨fun _ => rfl,prefix_rfl,prefix_rfl⟩

theorem signalsKept_putDocumentLocked (m : Mailbox) (msg : Message) :
    SignalsKept m (m.putDocumentLocked msg) := by
  unfold Mailbox.putDocumentLocked
  by_cases hfull : m.documentCapacity ≤ m.documents.length
  · rw [if_pos hfull]
    exact ⟨fun _ => rfl,prefix_rfl,prefix_rfl⟩
  · rw [if_neg hfull]
    exact ⟨id,prefix_append _ _,prefix_rfl⟩

theorem SignalsKept.trans {m₁ m₂ m₃ : Mailbox} (h : SignalsKept m₁ m₂) (h' : SignalsKept m₂ m₃) :
    SignalsKept m₁ m₃ :=
  ⟨fun hm => h'.autoRescan (h.autoRescan hm),h.documents.trans h'.documents,
    h.manualRetries.trans h'.manualRetries⟩

theorem signalsKept_putDocuments (m : Mailbox) (msgs : List Message) :
    SignalsKept m (Mailbox.after m (.putDocuments msgs)) := by
  have hfold : ∀ m : Mailbox,
      SignalsKept m (msgs.foldl (fun m msg => m.putDocumentLocked msg) m) := by
    induction msgs with
    | nil => exact signalsKept_refl
    | cons msg msgs ih =>
      intro m
      exact (signalsKept_putDocumentLocked m msg).trans (ih _)
  unfold Mailbox.after
  cases hvalid : validateDocuments msgs with
  | error e =>
    rw [show (Mailbox.perform (.putDocuments msgs) m).2 = m by
      simp [Mailbox.perform,Tx.returning,Mailbox.putDocuments,Tx.bind_apply,checked,hvalid]]
    exact signalsKept_refl m
  | ok =>
    rw [show (Mailbox.perform (.putDocuments msgs) m).2 =
        msgs.foldl (fun m msg => m.putDocumentLocked msg) m by
      simp [Mailbox.perform,Tx.returning,Mailbox.putDocuments,Tx.bind_apply,checked,hvalid,
        Tx.execute,Tx.pure_apply]]
    exact hfold m

theorem signalsKept_consumeAutoRescan :
    SignalsKept m (Mailbox.after m .consumeAutoRescan) ↔ m.autoRescanPending = false := by
  constructor
  · intro h
    cases hflag : m.autoRescanPending with
    | false => rfl
    | true => exact Bool.noConfusion (h.autoRescan hflag)
  · intro hflag
    exact ⟨fun h => absurd (h.symm.trans hflag) (by decide),prefix_rfl,prefix_rfl⟩

theorem after_drainDocuments (m : Mailbox) (limit : Option Int) :
    Mailbox.after m (.drainDocuments limit) =
      { m with
        documents := m.documents.drop
          ((limit.map fun n => (max 0 n).toNat).getD m.documents.length) } := by
  have hperform : Mailbox.after m (.drainDocuments limit) =
      if limit.all fun n => (m.documents.length : Int) ≤ n then { m with documents := [] }
      else { m with documents := m.documents.drop (max 0 (limit.getD 0)).toNat } := by
    cases hall : limit.all fun n => (m.documents.length : Int) ≤ n with
    | false =>
      simp [Mailbox.after,Mailbox.perform,Tx.returning,Mailbox.drainDocuments,Tx.bind_apply,
        Tx.fetch_apply,Tx.execute_apply,Tx.pure_apply,hall]
    | true =>
      simp [Mailbox.after,Mailbox.perform,Tx.returning,Mailbox.drainDocuments,Tx.bind_apply,
        Tx.fetch_apply,Tx.execute_apply,Tx.pure_apply,hall]
  rw [hperform]
  cases limit with
  | none => simp
  | some n =>
    simp only [Option.all_some,Option.map_some,Option.getD_some,decide_eq_true_eq]
    by_cases hall : (m.documents.length : Int) ≤ n
    · have hdrop : m.documents.drop (max 0 n).toNat = [] := drop_eq_nil_of_le (by omega)
      rw [if_pos hall,hdrop]
    · rw [if_neg hall]

theorem drop_keeps_iff {α : Type} (xs : List α) (n : Nat) :
    xs <+: xs.drop n ↔ xs = [] ∨ n = 0 := by
  constructor
  · intro h
    have hlength := h.length_le
    rw [length_drop] at hlength
    cases xs with
    | nil => exact .inl rfl
    | cons x xs =>
      rw [length_cons] at hlength
      exact .inr (by omega)
  · rintro (rfl | rfl)
    · exact nil_prefix
    · exact prefix_rfl

theorem signalsKept_drainDocuments (limit : Option Int) :
    SignalsKept m (Mailbox.after m (.drainDocuments limit)) ↔
      m.documents = [] ∨ ∃ n, limit = some n ∧ n ≤ 0 := by
  rw [after_drainDocuments]
  have hdocuments := drop_keeps_iff m.documents
    ((limit.map fun n => (max 0 n).toNat).getD m.documents.length)
  constructor
  · intro h
    obtain hnil | hzero := hdocuments.mp h.documents
    · exact .inl hnil
    cases limit with
    | none => exact .inl (length_eq_zero_iff.mp hzero)
    | some n =>
      rw [Option.map_some,Option.getD_some] at hzero
      exact .inr ⟨n,rfl,by omega⟩
  · intro h
    refine ⟨id,hdocuments.mpr ?_,prefix_rfl⟩
    obtain hnil | ⟨n,rfl,hn⟩ := h
    · exact .inl hnil
    · rw [Option.map_some,Option.getD_some]
      omega

theorem signalsKept_ackManualRetry (requestId : String) :
    SignalsKept m (Mailbox.after m (.ackManualRetry requestId)) ↔ m.isPending requestId = false := by
  have hretries : (Mailbox.after m (.ackManualRetry requestId)).manualRetries =
      deleteWhere (fun p => p.1 = requestId) m.manualRetries := rfl
  constructor
  · intro h
    rw [Mailbox.isPending,any_eq_false]
    intro p hp
    have hmem := h.manualRetries.subset hp
    rw [hretries,mem_deleteWhere] at hmem
    simpa using hmem.2
  · intro hpending
    refine ⟨id,prefix_rfl,?_⟩
    have hsame : deleteWhere (fun p => p.1 = requestId) m.manualRetries = m.manualRetries := by
      rw [Mailbox.isPending,any_eq_false] at hpending
      apply filter_eq_self.mpr
      intro p hp
      simpa using hpending p hp
    rw [hretries,hsame]

end Ingress

namespace World

variable {w w' : World} {op : Operation} {e : Event} {token : String}

theorem untouched_refl (w : World) : w.Untouched w :=
  ⟨⟨rfl,rfl,rfl,rfl,rfl,rfl,rfl⟩,signalsKept_refl _⟩

theorem untouched_setStatus {s : PipelineStatus} (h : SameBusySlot w.status s) :
    w.Untouched (w.setStatus s) :=
  ⟨h,signalsKept_refl _⟩

theorem untouched_setStage {stage : Stage} :
    w.Untouched (w'.setStage token stage) ↔ w.Untouched w' :=
  ⟨fun h => ⟨h.slot,h.signals⟩,fun h => ⟨h.slot,h.signals⟩⟩

theorem untouched_reservationLock {action : PipelineStatus → PipelineStatus}
    (hstray : w.status.ownedBy .busyOwner token = false) :
    w.Untouched (w.setStatus (withReservationLock .busyOwner token action w.status)) := by
  have hskip : withReservationLock .busyOwner token action w.status = w.status := by
    unfold withReservationLock
    simp [hstray]
  rw [hskip]
  exact untouched_refl w

theorem sameBusySlot_finalize {s : PipelineStatus} (released : Bool)
    (hstray : s.ownedBy .busyOwner token = false) :
    SameBusySlot s (finalize token released s) := by
  unfold finalize
  simp only [hstray,Bool.and_false]
  split
  · exact ⟨rfl,rfl,rfl,rfl,rfl,rfl,rfl⟩
  · exact ⟨rfl,rfl,rfl,rfl,rfl,rfl,rfl⟩

theorem untouched_decide_iff (op : Operation) (sweepDone : Bool) :
    w.Untouched (w.runStep op (.decide sweepDone)) ↔
      SameBusySlot w.status (decidePipelineNextStep sweepDone w.status w.ingress).2.1 ∧
        SignalsKept w.ingress (decidePipelineNextStep sweepDone w.status w.ingress).2.2 := by
  unfold World.runStep
  dsimp only
  rcases decidePipelineNextStep sweepDone w.status w.ingress with ⟨step,s,m⟩
  cases step with
  | released => exact untouched_setStage.trans ⟨fun h => ⟨h.slot,h.signals⟩,fun h => ⟨h.1,h.2⟩⟩
  | _ => exact ⟨fun h => ⟨h.slot,h.signals⟩,fun h => ⟨h.1,h.2⟩⟩

theorem decision_keeps (op : Operation) (sweepDone : Bool) :
    w.Untouched (w.runStep op (.decide sweepDone)) ↔ w.DecisionHolds sweepDone := by
  rw [untouched_decide_iff]
  have hsame : SameBusySlot w.status w.status := ⟨rfl,rfl,rfl,rfl,rfl,rfl,rfl⟩
  have hkept := signalsKept_refl w.ingress
  have hconsumed := signalsKept_consumeAutoRescan (m := w.ingress)
  have hdocuments : w.ingress.counts.documents ≠ 0 ↔ w.ingress.documents ≠ [] := by
    simp [Mailbox.counts]
  unfold decidePipelineNextStep DecisionHolds
  by_cases hcancel : w.status.cancellationRequested = true
  · rw [if_pos hcancel]
    exact iff_of_true ⟨hsame,hkept⟩ (.inl hcancel)
  rw [if_neg hcancel]
  by_cases hphase : w.status.manualPhase = .drainToIdle
  · rw [if_pos hphase]
    cases sweepDone with
    | false => exact iff_of_true ⟨hsame,hkept⟩ (.inr (.inr (.inl rfl)))
    | true =>
      cases hflag : w.ingress.autoRescanPending with
      | true =>
        apply iff_of_false
        · intro h
          have hkeep := hconsumed.mp h.2
          simp [hflag] at hkeep
        · simp [hcancel,hphase]
      | false =>
        refine iff_of_true ?_ (.inr (.inr (.inr ⟨rfl,.inl hphase⟩)))
        simp only [Bool.not_true,Bool.false_eq_true,if_false]
        split
        · exact ⟨hsame,hkept⟩
        · split <;> exact ⟨hsame,hkept⟩
  rw [if_neg hphase]
  cases hretries : w.ingress.manualRetries with
  | cons request requests =>
    exact iff_of_true ⟨hsame,hkept⟩ (.inr (.inl ⟨hphase,by simp⟩))
  | nil =>
    cases sweepDone with
    | false => exact iff_of_true ⟨hsame,hkept⟩ (.inr (.inr (.inl rfl)))
    | true =>
      cases hflag : w.ingress.autoRescanPending with
      | true =>
        apply iff_of_false
        · intro h
          have hkeep := hconsumed.mp h.2
          simp [hflag] at hkeep
        · simp [hcancel]
      | false =>
        by_cases hmessages : w.ingress.counts.documents ≠ 0
        · refine iff_of_true ?_ (.inr (.inr (.inr ⟨rfl,.inr (.inl (hdocuments.mp hmessages))⟩)))
          simp [hmessages,hsame,hkept]
        · have hnil : w.ingress.documents = [] := by
            by_contra hne
            exact hmessages (hdocuments.mpr hne)
          simp only [if_neg hmessages]
          constructor
          · intro h
            have hslot := h.1
            exact .inr (.inr (.inr ⟨trivial,.inr (.inr ⟨hslot.busy.symm,hslot.busyOwner.symm⟩)⟩))
          · rintro (h | ⟨-,h⟩ | h | ⟨-,h | h | ⟨hbusy,howner⟩⟩)
            · exact absurd h hcancel
            · exact absurd rfl h
            · cases h
            · exact absurd h hphase
            · exact absurd hnil h
            · exact ⟨⟨hbusy.symm,rfl,howner.symm,rfl,rfl,rfl,rfl⟩,hkept⟩

theorem untouched_runStep {step : RunStep}
    (hstray : (w.reclaimed (.run op.token step)).status.ownedBy .busyOwner op.token = false) :
    (w.reclaimed (.run op.token step)).Untouched (w.runStep op step) ↔
      w.Harmless (.run op.token step) := by
  cases step with
  | absorbAutoRescan =>
    have hsignals := signalsKept_consumeAutoRescan (m := w.ingress)
    exact ⟨fun h => hsignals.mp h.signals,fun h => ⟨⟨rfl,rfl,rfl,rfl,rfl,rfl,rfl⟩,hsignals.mpr h⟩⟩
  | beginManualDrain requestId => exact iff_of_true (untouched_reservationLock hstray) trivial
  | decide sweepDone => exact decision_keeps op sweepDone
  | drainDocuments limit =>
    have hsignals := signalsKept_drainDocuments (m := w.ingress) limit
    exact ⟨fun h => hsignals.mp h.signals,fun h => ⟨⟨rfl,rfl,rfl,rfl,rfl,rfl,rfl⟩,hsignals.mpr h⟩⟩
  | republish msgs =>
    exact iff_of_true
      ⟨⟨rfl,rfl,rfl,rfl,rfl,rfl,rfl⟩,signalsKept_putDocuments w.ingress msgs⟩ trivial
  | rearmAutoRescan =>
    exact iff_of_true
      ⟨⟨rfl,rfl,rfl,rfl,rfl,rfl,rfl⟩,signalsKept_requestAutoRescan w.ingress⟩ trivial
  | enterReset =>
    refine iff_of_true ?_ trivial
    have hnot : w.status.ownedBy .busyOwner op.token = false := hstray
    show w.Untouched (if w.status.ownedBy .busyOwner op.token then
      (w.setStatus w.status.enterReset).setStage op.token .resetting else w)
    rw [hnot]
    exact untouched_refl w
  | checkFreezeOwner =>
    refine iff_of_true ?_ trivial
    have hnot : w.status.ownedBy .busyOwner op.token = false := hstray
    show w.Untouched (if w.status.ownedBy .busyOwner op.token then w
      else w.setStage op.token .running)
    rw [hnot]
    exact untouched_setStage.mpr (untouched_refl w)
  | ackManualRetry requestId =>
    have hsignals := signalsKept_ackManualRetry (m := w.ingress) requestId
    exact ⟨fun h => hsignals.mp h.signals,fun h => ⟨⟨rfl,rfl,rfl,rfl,rfl,rfl,rfl⟩,hsignals.mpr h⟩⟩
  | endManualDrain =>
    exact iff_of_true (untouched_setStage.mpr (untouched_reservationLock hstray)) trivial
  | reap os => exact iff_of_true (untouched_refl _) trivial
  | fence kind message operationRecord =>
    have hslot : SameBusySlot w.status
        (fenceWorkspaceForRecovery kind message operationRecord w.status) := by
      unfold fenceWorkspaceForRecovery
      split <;> exact ⟨rfl,rfl,rfl,rfl,rfl,rfl,rfl⟩
    exact iff_of_true (untouched_setStage.mpr (untouched_setStatus hslot)) trivial
  | abort reason =>
    exact iff_of_true (untouched_setStatus ⟨rfl,rfl,rfl,rfl,rfl,rfl,rfl⟩) trivial
  | clearCancellation =>
    refine iff_of_true ?_ trivial
    show w.Untouched (if w.status.cancellationRequested then
      (w.setStatus { w.status with
        cancellationRequested := false
        cancellationReason := none }).setStage op.token .unwinding else w)
    split
    · exact untouched_setStage.mpr (untouched_setStatus ⟨rfl,rfl,rfl,rfl,rfl,rfl,rfl⟩)
    · exact untouched_refl w
  | finalize uncommittedWakeup =>
    have hslot := sameBusySlot_finalize (op.stage = Stage.released) hstray
    refine iff_of_true ?_ trivial
    cases uncommittedWakeup with
    | false => exact untouched_setStage.mpr ⟨hslot,signalsKept_refl w.ingress⟩
    | true => exact untouched_setStage.mpr ⟨hslot,signalsKept_requestAutoRescan w.ingress⟩

theorem untouched_takeOver {os : Os}
    (hstray : (w.status.reconcile os).ownedBy .busyOwner token = false) :
    (w.setStatus (w.status.reconcile os)).Untouched (w.next (.takeOver os token)) ↔
      (w.status.reconcile os).recoveryRequired.isSome = true := by
  unfold World.next acquireProcessingReservation
  dsimp only
  generalize w.status.reconcile os = s at hstray
  by_cases hfence : s.recoveryRequired.isSome = true
  · rw [if_pos hfence]
    exact iff_of_true (untouched_refl (w.setStatus s)) hfence
  · rw [if_neg hfence]
    apply iff_of_false _ hfence
    intro h
    have howner : s.busyOwner = some (makeOwnerRecord os.self token .processing) :=
      h.slot.busyOwner.symm
    have howned : s.ownedBy .busyOwner token = true := ownedBy_busyOwner.mpr ⟨_,howner,rfl⟩
    rw [hstray] at howned
    cases howned

theorem untouched_iff_harmless (henabled : w.Enabled e) (hstray : w.Stray e) :
    (w.reclaimed e).Untouched (w.next e) ↔ w.Harmless e := by
  obtain ⟨token,htoken,hnot⟩ := hstray
  cases e with
  | takeOver os token =>
    cases htoken
    exact untouched_takeOver hnot
  | run token step =>
    cases htoken
    obtain ⟨-,op,hlookup,-⟩ := henabled
    obtain ⟨-,rfl⟩ := mem_of_lookup hlookup
    simp only [World.next,hlookup]
    exact untouched_runStep hnot
  | releaseScanReset token =>
    cases htoken
    exact iff_of_true (untouched_setStage.mpr (untouched_reservationLock hnot)) trivial
  | _ => cases htoken

end World

/-- Along every run, the steps on behalf of runs that have lost the slot leave its holder, the
manual fields and the signals alone exactly when each of them is harmless where it is taken. -/
theorem stray_runs_keep_off {w w' : World} {es : List Event} (hrun : Run World.Step w es w') :
    w.KeepsOff es ↔ w.StrayHarmless es := by
  induction hrun with
  | nil => exact Iff.rfl
  | cons hstep _ ih =>
    obtain ⟨henabled,rfl⟩ := hstep
    exact and_congr (forall_congr' (World.untouched_iff_harmless henabled)) ih

/-! A run whose record lost its pid is fenced and force-reset, and a clear takes the slot. The run
then decides, or goes to its finalizer. -/

def afterForceReset : List Event := [
  .acquireRun workerOs "run",
  .forgetIdentity .busyOwner,
  .reserve workerOs .endpoint "upload" 1 0 none,
  .forceReset,
  .acquireJob workerOs "clear" .clear]

theorem afterForceReset_run :
    Run World.Step idlePipeline afterForceReset (afterForceReset.foldl World.next idlePipeline) :=
  .cons ⟨⟨workerOs_truthful,by decide⟩,rfl⟩ <|
  .cons ⟨trivial,rfl⟩ <|
  .cons ⟨⟨workerOs_truthful,nofun⟩,rfl⟩ <|
  .cons ⟨trivial,rfl⟩ <|
  .cons ⟨⟨workerOs_truthful,by decide⟩,rfl⟩ <| .nil _

def strayRun (step : RunStep) : List Event := afterForceReset ++ [.run "run" step]

theorem strayRun_run {step : RunStep}
    (hallowed : step.allowedIn ⟨"run", worker, .run, .running⟩) (hreap : ∀ os, step ≠ .reap os) :
    Run World.Step idlePipeline (strayRun step)
      ((afterForceReset.foldl World.next idlePipeline).next (.run "run" step)) :=
  afterForceReset_run.snoc ⟨⟨fun os h => absurd h (hreap os),_,rfl,hallowed⟩,rfl⟩

/-- The decision of the stray run clears `busy` under the clear job. -/
theorem stray_decision_clears_busy :
    idlePipeline.Initial ∧
      Run World.Step idlePipeline (strayRun (.decide true))
        ((afterForceReset.foldl World.next idlePipeline).next (.run "run" (.decide true))) ∧
      ¬ idlePipeline.KeepsOff (strayRun (.decide true)) := by
  refine ⟨idlePipeline_initial,strayRun_run ⟨rfl,nofun⟩ nofun,?_⟩
  rintro ⟨-,-,-,-,-,hdecide,-⟩
  have hbusy := (hdecide ⟨"run",rfl,rfl⟩).slot.busy
  exact Bool.noConfusion hbusy

theorem strayFinalizer_run :
    Run World.Step idlePipeline (strayRun (.finalize true))
      ((afterForceReset.foldl World.next idlePipeline).next (.run "run" (.finalize true))) :=
  strayRun_run ⟨nofun,nofun,nofun,nofun⟩ nofun

theorem stray_runs_keep_off_finalizer : idlePipeline.KeepsOff (strayRun (.finalize true)) :=
  (stray_runs_keep_off strayFinalizer_run).mpr ⟨fun _ => trivial,fun _ => trivial,
    fun _ => trivial,fun _ => trivial,fun _ => trivial,fun _ => trivial,trivial⟩

end LightRAG.Reservations
