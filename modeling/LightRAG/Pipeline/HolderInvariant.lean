import LightRAG.Pipeline.Holders

/-!
# The exclusions of the pipeline status

What no `pipeline_status_lock` section breaks on the status map alone: a destructive job and a
scan classification exclude every enqueue token and each other, a flag has an owner record, and
a freeze has an owner in the busy slot.
-/

namespace LightRAG.Reservations
open Table Pipeline List

/-- The holders of the pipeline exclude one another. -/
structure PipelineStatus.Exclusive (s : PipelineStatus) : Prop where
  enqueues : s.destructiveBusy = true ∨ s.scanningExclusive = true → s.pendingEnqueueTokens = []
  scanning : ¬(s.destructiveBusy = true ∧ s.scanning = true)
  busyOwner : s.busy = true ∨ s.destructiveBusy = true → s.busyOwner.isSome = true
  scanningOwner : s.scanning = true ∨ s.scanningExclusive = true → s.scanningOwner.isSome = true
  freeze : s.manualFreezeRequested = true → s.busy = true ∧ s.manualOwner.isSome = true

/-- With the facts about single flags that the sections keep. -/
structure PipelineStatus.Sound (s : PipelineStatus) : Prop extends s.Exclusive where
  destructive : s.destructiveBusy = true → s.busy = true
  exclusive : s.scanningExclusive = true → s.scanning = true
  counted : s.pendingEnqueues = s.pendingEnqueueTokens.length
  keys : (s.pendingEnqueueTokens.map Prod.fst).Nodup

structure SameBusySlot (s s' : PipelineStatus) : Prop where
  busy : s'.busy = s.busy
  destructiveBusy : s'.destructiveBusy = s.destructiveBusy
  busyOwner : s'.busyOwner = s.busyOwner
  freeze : s'.manualFreezeRequested = s.manualFreezeRequested
  phase : s'.manualPhase = s.manualPhase
  manualOwner : s'.manualOwner = s.manualOwner
  resetting : s'.manualResetting = s.manualResetting

structure SameScanSlot (s s' : PipelineStatus) : Prop where
  scanning : s'.scanning = s.scanning
  scanningExclusive : s'.scanningExclusive = s.scanningExclusive
  scanningOwner : s'.scanningOwner = s.scanningOwner

structure SameTokens (s s' : PipelineStatus) : Prop where
  tokens : s'.pendingEnqueueTokens = s.pendingEnqueueTokens
  count : s'.pendingEnqueues = s.pendingEnqueues

namespace PipelineStatus

variable {s s' : PipelineStatus} {os : Os}

theorem sound_initial : PipelineStatus.initial.Sound := by
  refine { enqueues := ?_, scanning := ?_, busyOwner := ?_, scanningOwner := ?_, freeze := ?_,
           destructive := ?_, exclusive := ?_, counted := rfl, keys := nodup_nil }
  all_goals simp [PipelineStatus.initial]

section

variable (h : s.Sound)

include h

theorem Sound.of_same (hbusy : SameBusySlot s s') (hscan : SameScanSlot s s')
    (htokens : SameTokens s s') : s'.Sound := by
  obtain ⟨hb,hd,ho,hf,-,hm,-⟩ := hbusy
  obtain ⟨hs,he,hso⟩ := hscan
  obtain ⟨ht,hc⟩ := htokens
  refine { enqueues := ?_, scanning := ?_, busyOwner := ?_, scanningOwner := ?_, freeze := ?_,
           destructive := ?_, exclusive := ?_, counted := ?_, keys := ?_ }
  · rw [hd,he,ht]
    exact h.enqueues
  · rw [hd,hs]
    exact h.scanning
  · rw [hb,hd,ho]
    exact h.busyOwner
  · rw [hs,he,hso]
    exact h.scanningOwner
  · rw [hf,hb,hm]
    exact h.freeze
  · rw [hd,hb]
    exact h.destructive
  · rw [he,hs]
    exact h.exclusive
  · rw [hc,ht]
    exact h.counted
  · rw [ht]
    exact h.keys

theorem Sound.busySlot (hscan : SameScanSlot s s') (htokens : SameTokens s s')
    (hdestructive : s'.destructiveBusy = true →
      s'.busy = true ∧ s.pendingEnqueueTokens = [] ∧ s.scanning = false)
    (howner : s'.busy = true → s'.busyOwner.isSome = true)
    (hfreeze : s'.manualFreezeRequested = true → s'.busy = true ∧ s'.manualOwner.isSome = true) :
    s'.Sound := by
  obtain ⟨hs,he,hso⟩ := hscan
  obtain ⟨ht,hc⟩ := htokens
  refine { enqueues := ?_, scanning := ?_, busyOwner := ?_, scanningOwner := ?_, freeze := hfreeze,
           destructive := fun hd => (hdestructive hd).1, exclusive := ?_, counted := ?_, keys := ?_ }
  · rw [ht]
    rintro (hd | hx)
    · exact (hdestructive hd).2.1
    · exact h.enqueues (.inr (he ▸ hx))
  · rintro ⟨hd,hscanning⟩
    rw [hs,(hdestructive hd).2.2] at hscanning
    cases hscanning
  · rintro (hb | hd)
    · exact howner hb
    · exact howner (hdestructive hd).1
  · rw [hs,he,hso]
    exact h.scanningOwner
  · rw [he,hs]
    exact h.exclusive
  · rw [hc,ht]
    exact h.counted
  · rw [ht]
    exact h.keys

theorem Sound.of_destructive (hd : s.destructiveBusy = true) :
    s.busy = true ∧ s.pendingEnqueueTokens = [] ∧ s.scanning = false := by
  refine ⟨h.destructive hd,h.enqueues (.inl hd),?_⟩
  cases hs : s.scanning with
  | false => rfl
  | true => exact absurd ⟨hd,hs⟩ h.scanning

theorem Sound.freed (hscan : SameScanSlot s s') (htokens : SameTokens s s')
    (hbusy : s'.busy = false) (hdestructive : s'.destructiveBusy = false)
    (hfreeze : s'.manualFreezeRequested = false) : s'.Sound := by
  apply h.busySlot hscan htokens
  · simp [hdestructive]
  · simp [hbusy]
  · simp [hfreeze]

theorem Sound.beginManualDrain (hbusy : s.busy = true) (owner : ManualOwner) :
    (s.beginManualDrain owner).Sound := by
  apply h.busySlot
  · exact ⟨rfl,rfl,rfl⟩
  · exact ⟨rfl,rfl⟩
  · exact h.of_destructive
  · exact fun hb => h.busyOwner (.inl hb)
  · exact fun _ => ⟨hbusy,rfl⟩

theorem Sound.enterReset : s.enterReset.Sound := by
  apply h.busySlot
  · exact ⟨rfl,rfl,rfl⟩
  · exact ⟨rfl,rfl⟩
  · exact h.of_destructive
  · exact fun hb => h.busyOwner (.inl hb)
  · exact h.freeze

theorem Sound.clearManual : s.clearManual.Sound := by
  apply h.busySlot
  · exact ⟨rfl,rfl,rfl⟩
  · exact ⟨rfl,rfl⟩
  · exact h.of_destructive
  · exact fun hb => h.busyOwner (.inl hb)
  · exact fun hf => Bool.noConfusion hf

theorem Sound.scanSlot (hbusy : SameBusySlot s s') (htokens : SameTokens s s')
    (hscanning : s'.scanning = true → s.destructiveBusy = false ∧ s'.scanningOwner.isSome = true)
    (hexclusive : s'.scanningExclusive = true →
      s'.scanning = true ∧ s.pendingEnqueueTokens = []) : s'.Sound := by
  obtain ⟨hb,hd,ho,hf,-,hm,-⟩ := hbusy
  obtain ⟨ht,hc⟩ := htokens
  refine { enqueues := ?_, scanning := ?_, busyOwner := ?_, scanningOwner := ?_, freeze := ?_,
           destructive := ?_, exclusive := fun he => (hexclusive he).1, counted := ?_, keys := ?_ }
  · rw [ht,hd]
    rintro (hdestructive | hx)
    · exact h.enqueues (.inl hdestructive)
    · exact (hexclusive hx).2
  · rintro ⟨hdestructive,hs⟩
    rw [hd,(hscanning hs).1] at hdestructive
    cases hdestructive
  · rw [hb,hd,ho]
    exact h.busyOwner
  · rintro (hs | hx)
    · exact (hscanning hs).2
    · exact (hscanning (hexclusive hx).1).2
  · rw [hf,hb,hm]
    exact h.freeze
  · rw [hd,hb]
    exact h.destructive
  · rw [hc,ht]
    exact h.counted
  · rw [ht]
    exact h.keys

theorem Sound.not_destructive (hs : s.scanning = true) :
    s.destructiveBusy = false := by
  have hnot := h.scanning
  cases hd : s.destructiveBusy with
  | true => exact absurd ⟨hd,hs⟩ hnot
  | false => rfl

theorem Sound.transitionScan (token : String) :
    (transitionScanningReservation token s).2.Sound := by
  unfold transitionScanningReservation
  by_cases hown : (!s.ownedBy .scanningOwner token) = true
  · rw [if_pos hown]
    exact h
  rw [if_neg hown]
  by_cases hexclusive : (!s.scanningExclusive) = true
  · rw [if_pos hexclusive]
    exact h
  rw [if_neg hexclusive]
  apply h.scanSlot
  · exact ⟨rfl,rfl,rfl,rfl,rfl,rfl,rfl⟩
  · exact ⟨rfl,rfl⟩
  · exact fun hs => ⟨h.not_destructive hs,h.scanningOwner (.inl hs)⟩
  · exact fun hx => Bool.noConfusion hx

theorem Sound.releaseScanning (token : String) :
    (withReservationLock .scanningOwner token (·.releaseScanningAction) s).Sound := by
  unfold withReservationLock
  by_cases hown : s.ownedBy .scanningOwner token = true
  · rw [if_pos hown]
    apply h.scanSlot
    · exact ⟨rfl,rfl,rfl,rfl,rfl,rfl,rfl⟩
    · exact ⟨rfl,rfl⟩
    · exact fun hs => Bool.noConfusion hs
    · exact fun hx => Bool.noConfusion hx
  · rw [if_neg hown]
    exact h

theorem Sound.withTokens (hbusy : SameBusySlot s s') (hscan : SameScanSlot s s')
    (hcount : s'.pendingEnqueues = s'.pendingEnqueueTokens.length)
    (hkeys : (s'.pendingEnqueueTokens.map Prod.fst).Nodup)
    (hempty : s.destructiveBusy = true ∨ s.scanningExclusive = true →
      s'.pendingEnqueueTokens = []) : s'.Sound := by
  obtain ⟨hb,hd,ho,hf,-,hm,-⟩ := hbusy
  obtain ⟨hs,he,hso⟩ := hscan
  refine { enqueues := ?_, scanning := ?_, busyOwner := ?_, scanningOwner := ?_, freeze := ?_,
           destructive := ?_, exclusive := ?_, counted := hcount, keys := hkeys }
  · rw [hd,he]
    exact hempty
  · rw [hd,hs]
    exact h.scanning
  · rw [hb,hd,ho]
    exact h.busyOwner
  · rw [hs,he,hso]
    exact h.scanningOwner
  · rw [hf,hb,hm]
    exact h.freeze
  · rw [hd,hb]
    exact h.destructive
  · rw [he,hs]
    exact h.exclusive

end

theorem map_setToken (token : String) (m : EnqueueMeta) (tokens : List (String × EnqueueMeta)) :
    (setToken token m tokens).map Prod.fst = tokens.map Prod.fst ∨
      (∀ t ∈ tokens, t.1 ≠ token) ∧ setToken token m tokens = tokens ++ [(token, m)] := by
  unfold setToken
  by_cases hany : (tokens.any fun t => t.1 = token) = true
  · rw [if_pos hany]
    exact .inl (map_replace Prod.fst (token, m) tokens)
  · rw [if_neg hany]
    refine .inr ⟨?_,rfl⟩
    intro t ht heq
    exact hany (any_eq_true.mpr ⟨t,ht,decide_eq_true heq⟩)

theorem nodup_setToken {tokens : List (String × EnqueueMeta)} (token : String) (m : EnqueueMeta)
    (h : (tokens.map Prod.fst).Nodup) : ((setToken token m tokens).map Prod.fst).Nodup := by
  obtain hsame | ⟨hnew,happend⟩ := map_setToken token m tokens
  · rw [hsame]
    exact h
  · rw [happend]
    exact nodup_append_new h hnew

theorem Sound.register (h : s.Sound) (token : String) (weight : Int)
    (hfences : s.pendingEnqueueTokens = [] →
      s.destructiveBusy = false ∧ s.scanningExclusive = false) :
    (s.register os token weight).Sound := by
  apply h.withTokens
  · exact ⟨rfl,rfl,rfl,rfl,rfl,rfl,rfl⟩
  · exact ⟨rfl,rfl,rfl⟩
  · rfl
  · exact nodup_setToken token _ h.keys
  · intro hfence
    obtain ⟨hd,hx⟩ := hfences (h.enqueues hfence)
    rw [hd,hx] at hfence
    simp at hfence

theorem Sound.releaseTokenSet (h : s.Sound) (token : String) :
    (releaseTokenSetReservation token s).Sound := by
  unfold releaseTokenSetReservation
  by_cases hany : (s.pendingEnqueueTokens.any fun t => t.1 = token) = true
  · rw [if_pos hany]
    apply h.withTokens
    · exact ⟨rfl,rfl,rfl,rfl,rfl,rfl,rfl⟩
    · exact ⟨rfl,rfl,rfl⟩
    · rfl
    · exact nodup_deleteWhere h.keys
    · intro hfence
      have hempty := h.enqueues hfence
      simp [hempty,deleteWhere]
  · rw [if_neg hany]
    exact h

theorem reclaim_busyOwner (rec : Owner) (s : PipelineStatus) :
    (s.reclaim .busyOwner rec).busy = false ∧ (s.reclaim .busyOwner rec).destructiveBusy = false ∧
      (s.reclaim .busyOwner rec).busyOwner = none ∧
      (s.reclaim .busyOwner rec).manualFreezeRequested = false ∧
      SameScanSlot s (s.reclaim .busyOwner rec) ∧ SameTokens s (s.reclaim .busyOwner rec) := by
  unfold PipelineStatus.reclaim
  cases rec.kind.any HolderKind.rerunnable
  · exact ⟨rfl,rfl,rfl,rfl,⟨rfl,rfl,rfl⟩,⟨rfl,rfl⟩⟩
  · exact ⟨rfl,rfl,rfl,rfl,⟨rfl,rfl,rfl⟩,⟨rfl,rfl⟩⟩

theorem reclaim_scanningOwner (rec : Owner) (s : PipelineStatus) :
    (s.reclaim .scanningOwner rec).scanning = false ∧
      (s.reclaim .scanningOwner rec).scanningExclusive = false ∧
      SameBusySlot s (s.reclaim .scanningOwner rec) ∧
      SameTokens s (s.reclaim .scanningOwner rec) := by
  unfold PipelineStatus.reclaim
  cases rec.kind.any HolderKind.rerunnable
  · exact ⟨rfl,rfl,⟨rfl,rfl,rfl,rfl,rfl,rfl,rfl⟩,⟨rfl,rfl⟩⟩
  · exact ⟨rfl,rfl,⟨rfl,rfl,rfl,rfl,rfl,rfl,rfl⟩,⟨rfl,rfl⟩⟩

theorem Sound.reclaim (h : s.Sound) (key : OwnerKey) (rec : Owner) : (s.reclaim key rec).Sound := by
  cases key with
  | busyOwner =>
    obtain ⟨hbusy,hdestructive,-,hfreeze,hscan,htokens⟩ := reclaim_busyOwner rec s
    exact h.freed hscan htokens hbusy hdestructive hfreeze
  | scanningOwner =>
    obtain ⟨hscanning,hexclusive,hbusy,htokens⟩ := reclaim_scanningOwner rec s
    apply h.scanSlot hbusy htokens
    · simp [hscanning]
    · simp [hexclusive]

theorem reconcileOwner_cases (os : Os) (key : OwnerKey) (s : PipelineStatus) :
    s.reconcileOwner os key = s ∨
      (∃ rec, s.owner key = some rec ∧ rec.unprobeable = true ∧ s.recoveryRequired = none ∧
        s.holds key = true ∧ s.reconcileOwner os key = s.fenceUnprobeable key rec) ∨
      ∃ rec, s.owner key = some rec ∧ os.processAlive rec.pid rec.processStartId = false ∧
        s.holds key = true ∧ s.reconcileOwner os key = s.reclaim key rec := by
  unfold PipelineStatus.reconcileOwner
  cases howner : s.owner key with
  | none => exact .inl rfl
  | some rec =>
    cases hholds : s.holds key with
    | false => exact .inl rfl
    | true =>
      cases halive : os.processAlive rec.pid rec.processStartId with
      | false => exact .inr (.inr ⟨rec,rfl,halive,rfl,by simp [halive]⟩)
      | true =>
        by_cases hfence : (rec.unprobeable && s.recoveryRequired.isNone) = true
        · rw [Bool.and_eq_true,Option.isNone_iff_eq_none] at hfence
          exact .inr (.inl ⟨rec,rfl,hfence.1,hfence.2,rfl,by simp [halive,hfence.1,hfence.2]⟩)
        · exact .inl (by simp [halive,hfence])

theorem reconcileTokens_spec (os : Os) (s : PipelineStatus) :
    (s.reconcileTokens os).pendingEnqueueTokens = s.aliveTokens os ∧
      (s.reconcileTokens os).pendingEnqueues = (s.aliveTokens os).length ∧
      SameBusySlot s (s.reconcileTokens os) ∧ SameScanSlot s (s.reconcileTokens os) := by
  unfold PipelineStatus.reconcileTokens
  by_cases hchange : (s.aliveTokens os).length ≠ s.pendingEnqueueTokens.length ∨
      s.pendingEnqueues ≠ (s.aliveTokens os).length
  · rw [if_pos hchange]
    exact ⟨rfl,rfl,⟨rfl,rfl,rfl,rfl,rfl,rfl,rfl⟩,⟨rfl,rfl,rfl⟩⟩
  · rw [if_neg hchange]
    rw [not_or,not_not,not_not] at hchange
    have hall : s.aliveTokens os = s.pendingEnqueueTokens :=
      filter_sublist.eq_of_length hchange.1
    exact ⟨hall.symm,hchange.2,⟨rfl,rfl,rfl,rfl,rfl,rfl,rfl⟩,⟨rfl,rfl,rfl⟩⟩

theorem Sound.reconcileTokens (h : s.Sound) : (s.reconcileTokens os).Sound := by
  obtain ⟨htokens,hcount,hbusy,hscan⟩ := reconcileTokens_spec os s
  have hsub : (s.aliveTokens os).Sublist s.pendingEnqueueTokens := filter_sublist
  apply h.withTokens hbusy hscan
  · rw [hcount,htokens]
  · rw [htokens]
    exact h.keys.sublist (hsub.map Prod.fst)
  · intro hfence
    rw [htokens]
    have hempty := h.enqueues hfence
    rw [hempty] at hsub
    exact sublist_nil.mp hsub

end PipelineStatus

end LightRAG.Reservations

/-!
## The invariant of the holders

An operation that has not left owns the busy slot under its own token, in a state of the slot that
fits its stage, and every handler that holds a reservation is registered under its own process.
-/

namespace LightRAG.Reservations
open Table Pipeline

def Stage.gone : Stage → Bool
  | .released | .left => true
  | .holding | .handoff | .running | .resetting | .unwinding => false

def Operation.destructive (op : Operation) : Bool :=
  match op.role with
  | .job job => job.destructive
  | _ => false

def Owner.Of (rec : Owner) (p : Process) : Prop :=
  rec.pid = none ∨ rec.pid = some p.pid ∧ rec.processStartId = p.startId

def Operation.Owns (op : Operation) (s : PipelineStatus) : Prop :=
  s.busy = true ∧ ∃ rec, s.busyOwner = some rec ∧ rec.token = op.token ∧ rec.Of op.process

structure Operation.Fits (op : Operation) (s : PipelineStatus) : Prop where
  gone : op.stage.gone = true → s.ownedBy .busyOwner op.token = false
  owns : op.stage.gone = false → op.Owns s
  plain : op.stage.gone = false → op.destructive = false → s.destructiveBusy = false
  role : op.destructive = true → op.stage = .holding ∨ op.stage = .left
  idle : op.stage = .holding ∨ op.stage = .handoff → s.manualFreezeRequested = false
  draining : op.stage = .running → s.manualFreezeRequested = true → s.manualPhase = .drainToIdle

def Registered (tokens : List (String × EnqueueMeta)) (token : String) (p : Process) : Prop :=
  ∃ m, (token, m) ∈ tokens ∧ m.pid = some p.pid ∧ m.processStartId = p.startId

structure World.Sound (w : World) : Prop where
  status : w.status.Sound
  pids : (w.live.map Process.pid).Nodup
  tokens : (w.operations.map Operation.token).Nodup
  drawn : ∀ op ∈ w.operations, op.token ∈ w.drawn
  owner : ∀ rec, w.status.busyOwner = some rec → rec.token ∈ w.drawn
  live : ∀ op ∈ w.operations, op.process ∈ w.live
  fits : ∀ op ∈ w.operations, op.Fits w.status
  registered : ∀ r ∈ w.reservations,
    r.2 ∈ w.live ∧ Registered w.status.pendingEnqueueTokens r.1 r.2

theorem World.Initial.sound {w : World} (h : w.Initial) : w.Sound := by
  refine ⟨?_,h.pids,?_,?_,?_,?_,?_,?_⟩
  · rw [h.status]
    exact PipelineStatus.sound_initial
  · simp [h.operations]
  · simp [h.operations]
  · simp [h.status,PipelineStatus.initial]
  · simp [h.operations]
  · simp [h.operations]
  · simp [h.reservations]

section Liveness

variable {os : Os} {live : List Process} {p : Process}

theorem Os.Truthful.processAlive (h : os.Truthful live) (hpids : (live.map Process.pid).Nodup)
    (hp : p ∈ live) : os.processAlive (some p.pid) p.startId = true := by
  unfold Os.processAlive
  dsimp only
  by_cases hself : p.pid = os.self.pid
  · have heq : p = os.self := eq_of_key hpids hp h.self hself
    rw [if_pos hself,heq]
    cases os.self.startId with
    | none => rfl
    | some startId => simp
  · rw [if_neg hself,h.alive p hp]
    cases hstart : p.startId with
    | none => rfl
    | some startId =>
      cases hnow : os.procStarttime p.pid with
      | none => rfl
      | some now =>
        have heq := h.start p hp now startId hnow hstart
        simp [heq]

theorem Owner.Of.processAlive {rec : Owner} (hof : rec.Of p) (h : os.Truthful live)
    (hpids : (live.map Process.pid).Nodup) (hp : p ∈ live) :
    os.processAlive rec.pid rec.processStartId = true := by
  obtain hnone | ⟨hpid,hstart⟩ := hof
  · rw [hnone]
    rfl
  · rw [hpid,hstart]
    exact h.processAlive hpids hp

end Liveness

variable {w : World} {s' : PipelineStatus} {op : Operation} {os : Os}

theorem ownedBy_busyOwner {s : PipelineStatus} {token : String} :
    s.ownedBy .busyOwner token = true ↔ ∃ rec, s.busyOwner = some rec ∧ rec.token = token := by
  simp [PipelineStatus.ownedBy,PipelineStatus.owner]

theorem Operation.Fits.of_same {s : PipelineStatus} (h : op.Fits s) (hslot : SameBusySlot s s') :
    op.Fits s' := by
  obtain ⟨hb,hd,ho,hf,hp,-,-⟩ := hslot
  refine ⟨?_,?_,?_,h.role,?_,?_⟩
  · unfold PipelineStatus.ownedBy PipelineStatus.owner
    rw [ho]
    exact h.gone
  · unfold Operation.Owns
    rw [hb,ho]
    exact h.owns
  · rw [hd]
    exact h.plain
  · rw [hf]
    exact h.idle
  · rw [hf,hp]
    exact h.draining

theorem Operation.Fits.of_gone {s : PipelineStatus} (h : op.Fits s)
    (hgone : op.stage.gone = true) (hnot : s'.ownedBy .busyOwner op.token = false) :
    op.Fits s' := by
  refine ⟨fun _ => hnot,?_,?_,h.role,?_,?_⟩
  · simp [hgone]
  · simp [hgone]
  · rintro (hs | hs)
    · simp [hs,Stage.gone] at hgone
    · simp [hs,Stage.gone] at hgone
  · intro hs
    simp [hs,Stage.gone] at hgone

theorem Operation.fits_left (hstage : op.stage = .left)
    (hnot : s'.ownedBy .busyOwner op.token = false) : op.Fits s' := by
  refine ⟨fun _ => hnot,?_,?_,fun _ => .inr hstage,?_,?_⟩
  · simp [hstage,Stage.gone]
  · simp [hstage,Stage.gone]
  · simp [hstage]
  · simp [hstage]

namespace World

theorem Sound.setStatus (h : w.Sound) (hs : s'.Sound) (hslot : SameBusySlot w.status s')
    (hregistered : ∀ r ∈ w.reservations, Registered s'.pendingEnqueueTokens r.1 r.2) :
    (w.setStatus s').Sound := by
  refine ⟨hs,h.pids,h.tokens,h.drawn,?_,h.live,?_,?_⟩
  · intro rec hrec
    exact h.owner rec (hslot.busyOwner ▸ hrec)
  · intro op hop
    exact (h.fits op hop).of_same hslot
  · intro r hr
    exact ⟨(h.registered r hr).1,hregistered r hr⟩

theorem Sound.setSlots (h : w.Sound) (hs : s'.Sound) (hslot : SameBusySlot w.status s')
    (htokens : s'.pendingEnqueueTokens = w.status.pendingEnqueueTokens) :
    (w.setStatus s').Sound := by
  apply h.setStatus hs hslot
  intro r hr
  rw [htokens]
  exact (h.registered r hr).2

theorem Sound.setOther (h : w.Sound) (hslot : SameBusySlot w.status s')
    (hscan : SameScanSlot w.status s') (htokens : SameTokens w.status s') :
    (w.setStatus s').Sound :=
  h.setSlots (h.status.of_same hslot hscan htokens) hslot htokens.tokens

theorem Sound.setIngress (h : w.Sound) (m : Mailbox) : ({ w with ingress := m } : World).Sound :=
  ⟨h.status,h.pids,h.tokens,h.drawn,h.owner,h.live,h.fits,h.registered⟩

theorem Sound.gone_of_free (h : w.Sound) (hfree : w.status.busy = false) :
    ∀ op ∈ w.operations, op.stage.gone = true := by
  intro op hop
  cases hgone : op.stage.gone with
  | true => rfl
  | false =>
    have hbusy := ((h.fits op hop).owns hgone).1
    rw [hfree] at hbusy
    cases hbusy

theorem Sound.vacate (h : w.Sound) (hs : s'.Sound)
    (hgone : ∀ op ∈ w.operations, op.stage.gone = true) (hfree : s'.busyOwner = none)
    (htokens : s'.pendingEnqueueTokens = w.status.pendingEnqueueTokens) :
    (w.setStatus s').Sound := by
  refine ⟨hs,h.pids,h.tokens,h.drawn,?_,h.live,?_,?_⟩
  · intro rec hrec
    rw [show (w.setStatus s').status.busyOwner = none from hfree] at hrec
    cases hrec
  · intro op hop
    apply (h.fits op hop).of_gone (hgone op hop)
    simp [World.setStatus,PipelineStatus.ownedBy,PipelineStatus.owner,hfree]
  · intro r hr
    rw [show (w.setStatus s').status.pendingEnqueueTokens = _ from htokens]
    exact h.registered r hr

theorem mem_setStage {token : String} {stage : Stage} {op' : Operation}
    (h : op' ∈ (w.setStage token stage).operations) :
    (op' ∈ w.operations ∧ op'.token ≠ token) ∨
      ∃ op ∈ w.operations, op.token = token ∧ op' = { op with stage := stage } := by
  obtain ⟨op,hop,⟨htoken,rfl⟩ | ⟨htoken,rfl⟩⟩ := mem_updateWhere.mp h
  · exact .inr ⟨op,hop,of_decide_eq_true htoken,rfl⟩
  · exact .inl ⟨hop,of_decide_eq_false htoken⟩

theorem Sound.eq_of_token (h : w.Sound) {op' : Operation} (hop : op ∈ w.operations)
    (hop' : op' ∈ w.operations) (htoken : op'.token = op.token) : op' = op :=
  eq_of_key h.tokens hop' hop htoken

theorem Sound.only_owner (h : w.Sound) (hop : op ∈ w.operations)
    (howned : w.status.ownedBy .busyOwner op.token = true) :
    op.stage.gone = false ∧
      ∀ op' ∈ w.operations, op'.token ≠ op.token → op'.stage.gone = true := by
  constructor
  · cases hgone : op.stage.gone with
    | false => rfl
    | true =>
      rw [(h.fits op hop).gone hgone] at howned
      cases howned
  · intro op' hop' hne
    cases hgone : op'.stage.gone with
    | true => rfl
    | false =>
      obtain ⟨-,rec',hrec',htoken',-⟩ := (h.fits op' hop').owns hgone
      obtain ⟨rec,hrec,htoken⟩ := ownedBy_busyOwner.mp howned
      rw [hrec] at hrec'
      cases hrec'
      exact absurd (htoken'.symm.trans htoken) hne

theorem tokens_setStage (token : String) (stage : Stage) (w : World) :
    (w.setStage token stage).operations.map Operation.token = w.operations.map Operation.token :=
  map_updateWhere fun _ => rfl

theorem Sound.enterStage (h : w.Sound) {token : String} {stage : Stage} (hs : s'.Sound)
    (howner : ∀ rec, s'.busyOwner = some rec → rec.token ∈ w.drawn)
    (htokens : s'.pendingEnqueueTokens = w.status.pendingEnqueueTokens)
    (hothers : ∀ op ∈ w.operations, op.token ≠ token → op.Fits s')
    (hfits : ∀ op ∈ w.operations, op.token = token →
      ({ op with stage := stage } : Operation).Fits s') :
    ((w.setStatus s').setStage token stage).Sound := by
  refine ⟨hs,h.pids,?_,?_,howner,?_,?_,?_⟩
  · rw [tokens_setStage]
    exact h.tokens
  · intro op' hop'
    obtain ⟨hmem,-⟩ | ⟨op₀,hmem,-,rfl⟩ := mem_setStage hop'
    · exact h.drawn op' hmem
    · exact h.drawn op₀ hmem
  · intro op' hop'
    obtain ⟨hmem,-⟩ | ⟨op₀,hmem,-,rfl⟩ := mem_setStage hop'
    · exact h.live op' hmem
    · exact h.live op₀ hmem
  · intro op' hop'
    obtain ⟨hmem,hne⟩ | ⟨op₀,hmem,htoken,rfl⟩ := mem_setStage hop'
    · exact hothers op' hmem hne
    · exact hfits op₀ hmem htoken
  · intro r hr
    rw [show ((w.setStatus s').setStage token stage).status.pendingEnqueueTokens = _ from htokens]
    exact h.registered r hr

theorem Sound.act (h : w.Sound) (hop : op ∈ w.operations)
    (howned : w.status.ownedBy .busyOwner op.token = true) {stage : Stage} (hs : s'.Sound)
    (howner : ∀ rec, s'.busyOwner = some rec → rec.token = op.token)
    (htokens : s'.pendingEnqueueTokens = w.status.pendingEnqueueTokens)
    (hfits : ({ op with stage := stage } : Operation).Fits s') :
    ((w.setStatus s').setStage op.token stage).Sound := by
  obtain ⟨-,hothers⟩ := h.only_owner hop howned
  apply h.enterStage hs _ htokens
  · intro op' hop' hne
    apply (h.fits op' hop').of_gone (hothers op' hop' hne)
    cases hown : s'.ownedBy .busyOwner op'.token with
    | false => rfl
    | true =>
      obtain ⟨rec,hrec,heq⟩ := ownedBy_busyOwner.mp hown
      exact absurd (heq.symm.trans (howner rec hrec)) hne
  · intro op' hop' htoken
    rw [h.eq_of_token hop hop' htoken]
    exact hfits
  · intro rec hrec
    rw [howner rec hrec]
    exact h.drawn op hop

theorem Sound.actInStage (h : w.Sound) (hop : op ∈ w.operations)
    (howned : w.status.ownedBy .busyOwner op.token = true) (hs : s'.Sound)
    (howner : s'.busyOwner = w.status.busyOwner)
    (htokens : s'.pendingEnqueueTokens = w.status.pendingEnqueueTokens) (hfits : op.Fits s') :
    (w.setStatus s').Sound := by
  obtain ⟨-,hothers⟩ := h.only_owner hop howned
  refine ⟨hs,h.pids,h.tokens,h.drawn,?_,h.live,?_,?_⟩
  · intro rec hrec
    exact h.owner rec (howner ▸ hrec)
  · intro op' hop'
    by_cases htoken : op'.token = op.token
    · rw [h.eq_of_token hop hop' htoken]
      exact hfits
    · have hgone := hothers op' hop' htoken
      apply (h.fits op' hop').of_gone hgone
      have hnot := (h.fits op' hop').gone hgone
      unfold PipelineStatus.ownedBy PipelineStatus.owner at hnot ⊢
      rw [show (w.setStatus s').status.busyOwner = _ from howner]
      exact hnot
  · intro r hr
    rw [show (w.setStatus s').status.pendingEnqueueTokens = _ from htokens]
    exact h.registered r hr

theorem Sound.leave (h : w.Sound) (hop : op ∈ w.operations)
    (hnot : w.status.ownedBy .busyOwner op.token = false) : (w.setStage op.token .left).Sound := by
  apply h.enterStage h.status h.owner rfl
  · intro op' hop' _
    exact h.fits op' hop'
  · intro op' hop' htoken
    apply Operation.fits_left rfl
    rw [h.eq_of_token hop hop' htoken]
    exact hnot

theorem Sound.release (h : w.Sound) (hop : op ∈ w.operations)
    {action : PipelineStatus → PipelineStatus}
    (howned : w.status.ownedBy .busyOwner op.token = true →
      (action w.status).Sound ∧ (action w.status).busyOwner = none ∧
        (action w.status).pendingEnqueueTokens = w.status.pendingEnqueueTokens) :
    ((w.setStatus (withReservationLock .busyOwner op.token action w.status)).setStage op.token
      .left).Sound := by
  unfold withReservationLock
  cases hown : w.status.ownedBy .busyOwner op.token with
  | false => exact h.leave hop hown
  | true =>
    obtain ⟨hs,hfree,htokens⟩ := howned hown
    apply h.act hop hown hs _ htokens
    · apply Operation.fits_left rfl
      simp [PipelineStatus.ownedBy,PipelineStatus.owner,hfree]
    · intro rec hrec
      rw [hfree] at hrec
      cases hrec

end World
end LightRAG.Reservations
