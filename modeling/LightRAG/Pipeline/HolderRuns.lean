import LightRAG.Pipeline.HolderInvariant

/-!
# Runs of the holders

What each section does to the invariant of the holders, and the exclusions of the status map in
every run without a force reset.
-/

namespace LightRAG.Reservations
open Table Pipeline List

variable {w : World} {s s' : PipelineStatus} {op : Operation} {os : Os}

namespace World

theorem Sound.reconcileOwner (h : w.Sound) (hos : os.Truthful w.live) (key : OwnerKey) :
    (w.setStatus (w.status.reconcileOwner os key)).Sound := by
  obtain heq | ⟨rec,-,-,-,-,heq⟩ | ⟨rec,hrec,hdead,-,heq⟩ :=
    PipelineStatus.reconcileOwner_cases os key w.status
  · rw [heq]
    exact h
  · rw [heq]
    exact h.setOther ⟨rfl,rfl,rfl,rfl,rfl,rfl,rfl⟩ ⟨rfl,rfl,rfl⟩ ⟨rfl,rfl⟩
  rw [heq]
  have hsound := h.status.reclaim key rec
  cases key with
  | scanningOwner =>
    obtain ⟨-,-,hslot,htokens⟩ := PipelineStatus.reclaim_scanningOwner rec w.status
    exact h.setSlots hsound hslot htokens.tokens
  | busyOwner =>
    obtain ⟨-,-,hfree,-,-,htokens⟩ := PipelineStatus.reclaim_busyOwner rec w.status
    apply h.vacate hsound _ hfree htokens.tokens
    -- the owner is dead, so no operation of a live process owns the slot
    intro op hop
    cases hgone : op.stage.gone with
    | true => rfl
    | false =>
      obtain ⟨-,rec',hrec',-,hof⟩ := (h.fits op hop).owns hgone
      rw [show w.status.busyOwner = some rec from hrec] at hrec'
      cases hrec'
      rw [hof.processAlive hos h.pids (h.live op hop)] at hdead
      cases hdead

theorem Sound.reconcileTokens (h : w.Sound) (hos : os.Truthful w.live) :
    (w.setStatus (w.status.reconcileTokens os)).Sound := by
  obtain ⟨htokens,-,hslot,-⟩ := PipelineStatus.reconcileTokens_spec os w.status
  apply h.setStatus h.status.reconcileTokens hslot
  intro r hr
  obtain ⟨hlive,m,hm,hpid,hstart⟩ := h.registered r hr
  refine ⟨m,?_,hpid,hstart⟩
  rw [htokens]
  apply mem_filter.mpr
  refine ⟨hm,?_⟩
  rw [hpid,hstart]
  exact hos.processAlive h.pids hlive

theorem Sound.reconcile (h : w.Sound) (hos : os.Truthful w.live) :
    (w.setStatus (w.status.reconcile os)).Sound := by
  unfold PipelineStatus.reconcile
  cases os.recoveryEnabled with
  | false => exact h
  | true =>
    have hbusy := h.reconcileOwner hos .busyOwner
    have hscan := hbusy.reconcileOwner hos .scanningOwner
    exact hscan.reconcileTokens hos

end World

theorem not_flag_of_rejectedBy {rejectWhen : RejectWhen} (h : s.rejectedBy rejectWhen = none)
    {f : StatusFlag} (hf : f ∈ rejectWhen.map Prod.fst) : s.flag f = false := by
  obtain ⟨entry,hentry,rfl⟩ := mem_map.mp hf
  have hnot := List.find?_eq_none.mp h entry hentry
  simpa using hnot

theorem PipelineStatus.Sound.of_free (h : s.Sound) (hfree : s.busy = false) :
    s.destructiveBusy = false ∧ s.manualFreezeRequested = false := by
  constructor
  · cases hd : s.destructiveBusy with
    | false => rfl
    | true => exact absurd ((h.destructive hd).symm.trans hfree) (by decide)
  · cases hf : s.manualFreezeRequested with
    | false => rfl
    | true => exact absurd ((h.freeze hf).1.symm.trans hfree) (by decide)

theorem PipelineStatus.Sound.no_tokens (h : s.Sound) (hcount : s.flag .pendingEnqueues = false) :
    s.pendingEnqueueTokens = [] := by
  have hzero : s.pendingEnqueues = 0 := by simpa [PipelineStatus.flag] using hcount
  exact length_eq_zero_iff.mp (h.counted.symm.trans hzero)

theorem acquireReservation_cases (os : Os) (key : OwnerKey) (token : String) (kind : HolderKind)
    (flags : PipelineStatus → PipelineStatus) (rejectWhen : RejectWhen)
    (manualPending : Option (Option Message)) (status : PipelineStatus) :
    let r := acquireReservation os key token kind flags rejectWhen manualPending status
    (r.1.acquired = false ∧ r.2 = status.reconcile os) ∨
      (r.1.acquired = true ∧ (status.reconcile os).rejectedBy rejectWhen = none ∧
        r.2 = (flags (status.reconcile os)).setOwner key
          (some (makeOwnerRecord os.self token kind))) := by
  unfold acquireReservation
  by_cases hfence : (status.reconcile os).recoveryRequired.isSome = true
  · rw [if_pos hfence]
    exact .inl ⟨rfl,rfl⟩
  rw [if_neg hfence]
  cases hreject : (status.reconcile os).rejectedBy rejectWhen with
  | some entry => exact .inl ⟨rfl,rfl⟩
  | none =>
    match manualPending with
    | some (some pending) => exact .inl ⟨rfl,rfl⟩
    | some none => exact .inr ⟨rfl,rfl,rfl⟩
    | none => exact .inr ⟨rfl,rfl,rfl⟩

/-- `acquire_processing_reservation` ends with the reconciled map, perhaps with the deferred
mark, or with the busy slot, which was free or already held. -/
theorem acquireProcessingReservation_cases (os : Os) (token : String) (alreadyHeld : Bool)
    (scanResetOwnerToken : Option String) (flags : PipelineStatus → PipelineStatus)
    (status : PipelineStatus) :
    let r := acquireProcessingReservation os token alreadyHeld scanResetOwnerToken flags status
    (r.1.acquired = false ∧ ∃ deferred, r.2.2 =
      { status.reconcile os with scanDeferredProcessing := deferred }) ∨
      (r.1.acquired = true ∧ (alreadyHeld = true ∨ (status.reconcile os).busy = false) ∧
        ∃ deferred, r.2.2 = { flags (status.reconcile os) with
          busy := true
          busyOwner := some (makeOwnerRecord os.self token .processing)
          scanDeferredProcessing := deferred }) := by
  unfold acquireProcessingReservation
  generalize status.reconcile os = s
  by_cases hfence : s.recoveryRequired.isSome = true
  · rw [if_pos hfence]
    exact .inl ⟨rfl,s.scanDeferredProcessing,rfl⟩
  rw [if_neg hfence]
  by_cases hscan : (!alreadyHeld && !(scanResetOwnerToken.any fun token =>
      s.ownedBy .scanningOwner token) &&
      s.scanningExclusive) = true
  · rw [if_pos hscan]
    exact .inl ⟨rfl,true,rfl⟩
  rw [if_neg hscan]
  by_cases hbusy : (!alreadyHeld && s.busy) = true
  · rw [if_pos hbusy]
    exact .inl ⟨rfl,s.scanDeferredProcessing,rfl⟩
  rw [if_neg hbusy]
  refine .inr ⟨rfl,?_,_,rfl⟩
  cases alreadyHeld with
  | true => exact .inl rfl
  | false =>
    simpa using hbusy

/-- `acquire_enqueue_reservation` leaves the map, reconciles it, or registers the token on a map
that has it already or that no flag of the list rejects. -/
theorem acquireEnqueueReservation_cases (os : Os) (token : String) (rejectWhen : RejectWhen)
    (weight capacity : Int) (activeCount : Option Int) (status : PipelineStatus) :
    let r := acquireEnqueueReservation os token rejectWhen weight capacity activeCount status
    ((∀ result, r.1 = .ok result → result.acquired = false) ∧
      (r.2 = status ∨ r.2 = status.reconcile os)) ∨
      ((∃ result, r.1 = .ok result ∧ result.acquired = true) ∧
        (((status.reconcile os).pendingEnqueueTokens.any fun t => t.1 = token) = true ∨
          (status.reconcile os).rejectedBy rejectWhen = none) ∧
        r.2 = (status.reconcile os).register os token weight) := by
  unfold acquireEnqueueReservation
  dsimp only
  by_cases hcount : 0 < capacity ∧ activeCount.isNone
  · rw [if_pos hcount]
    refine .inl ⟨?_,.inl rfl⟩
    rintro result ⟨⟩
  rw [if_neg hcount]
  by_cases hfence : (status.reconcile os).recoveryRequired.isSome = true
  · rw [if_pos hfence]
    refine .inl ⟨?_,.inr rfl⟩
    rintro result ⟨⟩
    rfl
  rw [if_neg hfence]
  cases hreject : (if ((status.reconcile os).pendingEnqueueTokens.any fun t => t.1 = token) = true
      then none else (status.reconcile os).rejectedBy rejectWhen) with
  | some entry =>
    refine .inl ⟨?_,.inr rfl⟩
    rintro result ⟨⟩
    rfl
  | none =>
    dsimp only
    split
    · refine .inl ⟨?_,.inr rfl⟩
      rintro result ⟨⟩
    · refine .inr ⟨⟨_,rfl,rfl⟩,?_,rfl⟩
      by_cases hany : ((status.reconcile os).pendingEnqueueTokens.any fun t => t.1 = token) = true
      · exact .inl hany
      · rw [if_neg hany] at hreject
        exact .inr hreject

namespace World

theorem Sound.starts (h : w.Sound) {token : String} {p : Process} (hnew : token ∉ w.drawn)
    (hp : p ∈ w.live) (role : Role) (stage : Stage) :
    let operations := w.operations ++ [Operation.mk token p role stage]
    (operations.map Operation.token).Nodup ∧ (∀ op ∈ operations, op.token ∈ token :: w.drawn) ∧
      ∀ op ∈ operations, op.process ∈ w.live := by
  refine ⟨nodup_append_new h.tokens ?_,?_,?_⟩
  · intro op hop heq
    have htoken : op.token = token := heq
    exact hnew (htoken ▸ h.drawn op hop)
  · intro op hop
    obtain hold | rfl := mem_append.mp hop |>.imp_right mem_singleton.mp
    · exact mem_cons_of_mem _ (h.drawn op hold)
    · exact mem_cons_self
  · intro op hop
    obtain hold | rfl := mem_append.mp hop |>.imp_right mem_singleton.mp
    · exact h.live op hold
    · exact hp

theorem Sound.refused (h : w.Sound) {token : String} {p : Process} {role : Role} {stage : Stage}
    (hnew : token ∉ w.drawn) (hp : p ∈ w.live) : (w.start token p role stage false).Sound := by
  obtain ⟨htokens,hdrawn,hlive⟩ := h.starts hnew hp role .left
  refine ⟨h.status,h.pids,htokens,hdrawn,?_,hlive,?_,h.registered⟩
  · intro rec hrec
    exact mem_cons_of_mem _ (h.owner rec hrec)
  · intro op hop
    obtain hold | rfl := mem_append.mp hop |>.imp_right mem_singleton.mp
    · exact h.fits op hold
    · apply Operation.fits_left rfl
      cases hown : w.status.ownedBy .busyOwner token with
      | false => exact hown
      | true =>
        obtain ⟨rec,hrec,rfl⟩ := ownedBy_busyOwner.mp hown
        exact absurd (h.owner rec hrec) hnew

theorem Sound.granted (h : w.Sound) {token : String} {p : Process} {role : Role} {stage : Stage}
    {kind : HolderKind} (hnew : token ∉ w.drawn) (hp : p ∈ w.live)
    (hfree : w.status.busy = false) (hs : s'.Sound) (hbusy : s'.busy = true)
    (howner : s'.busyOwner = some (makeOwnerRecord p token kind))
    (htokens : s'.pendingEnqueueTokens = w.status.pendingEnqueueTokens)
    (hstage : stage.gone = false)
    (hplain : (⟨token, p, role, stage⟩ : Operation).destructive = false →
      s'.destructiveBusy = false)
    (hrole : (⟨token, p, role, stage⟩ : Operation).destructive = true → stage = .holding)
    (hidle : s'.manualFreezeRequested = false) :
    ((w.setStatus s').start token p role stage true).Sound := by
  obtain ⟨hdistinct,hdrawn,hlive⟩ := h.starts hnew hp role stage
  refine ⟨hs,h.pids,hdistinct,hdrawn,?_,hlive,?_,?_⟩
  · intro rec hrec
    have heq : some rec = some (makeOwnerRecord p token kind) := hrec.symm.trans howner
    cases heq
    exact mem_cons_self
  · intro op hop
    obtain hold | rfl := mem_append.mp hop |>.imp_right mem_singleton.mp
    · apply (h.fits op hold).of_gone (h.gone_of_free hfree op hold)
      cases hown : s'.ownedBy .busyOwner op.token with
      | false => exact hown
      | true =>
        obtain ⟨rec,hrec,htoken⟩ := ownedBy_busyOwner.mp hown
        rw [howner] at hrec
        cases hrec
        have heq : token = op.token := htoken
        exact absurd (heq ▸ h.drawn op hold) hnew
    · refine ⟨?_,?_,fun _ => hplain,fun hd => .inl (hrole hd),fun _ => hidle,?_⟩
      · intro hgone
        exact absurd (hgone.symm.trans hstage) (by decide)
      · intro _
        exact ⟨hbusy,_,howner,rfl,.inr ⟨rfl,rfl⟩⟩
      · intro _ hfreeze
        exact absurd (hfreeze.symm.trans hidle) (by decide)
  · intro r hr
    rw [show ((w.setStatus s').start token p role stage true).status.pendingEnqueueTokens = _
      from htokens]
    exact h.registered r hr

end World

theorem mem_setToken (token : String) (m : EnqueueMeta) (tokens : List (String × EnqueueMeta)) :
    (token, m) ∈ setToken token m tokens := by
  unfold setToken
  by_cases hany : (tokens.any fun t => t.1 = token) = true
  · rw [if_pos hany]
    obtain ⟨t,ht,heq⟩ := any_eq_true.mp hany
    exact mem_updateWhere.mpr ⟨t,ht,.inl ⟨heq,rfl⟩⟩
  · rw [if_neg hany]
    simp

theorem mem_setToken_of_ne {token : String} {m : EnqueueMeta} {t : String × EnqueueMeta}
    {tokens : List (String × EnqueueMeta)} (ht : t ∈ tokens) (hne : t.1 ≠ token) :
    t ∈ setToken token m tokens := by
  unfold setToken
  by_cases hany : (tokens.any fun t => t.1 = token) = true
  · rw [if_pos hany]
    exact mem_updateWhere.mpr ⟨t,ht,.inr ⟨by simp [hne],rfl⟩⟩
  · rw [if_neg hany]
    exact mem_append_left _ ht

theorem Registered.setToken {tokens : List (String × EnqueueMeta)} {token token' : String}
    {p : Process} (h : Registered tokens token p) (weight : Int)
    (hsame : token = token' → p = os.self) :
    Registered (setToken token' ⟨some os.self.pid, os.self.startId, weight⟩ tokens) token p := by
  by_cases htoken : token = token'
  · subst htoken
    rw [hsame rfl]
    exact ⟨_,mem_setToken _ _ _,rfl,rfl⟩
  · obtain ⟨m,hm,hpid,hstart⟩ := h
    exact ⟨m,mem_setToken_of_ne hm htoken,hpid,hstart⟩

theorem Registered.unique {tokens : List (String × EnqueueMeta)} {token : String} {p q : Process}
    (hkeys : (tokens.map Prod.fst).Nodup) (h : Registered tokens token p)
    (h' : Registered tokens token q) : p = q := by
  obtain ⟨m,hm,hpid,hstart⟩ := h
  obtain ⟨m',hm',hpid',hstart'⟩ := h'
  have heq : (token, m) = (token, m') := eq_of_key hkeys hm hm' rfl
  cases q
  simp_all

namespace World

variable {token : String}

theorem Sound.register (h : w.Sound) {weight : Int}
    (hfences : w.status.pendingEnqueueTokens = [] →
      w.status.destructiveBusy = false ∧ w.status.scanningExclusive = false)
    (hown : ∀ p, (token, p) ∈ w.reservations → p = os.self) :
    (w.setStatus (w.status.register os token weight)).Sound := by
  apply h.setStatus (h.status.register token weight hfences) ⟨rfl,rfl,rfl,rfl,rfl,rfl,rfl⟩
  intro r hr
  apply (h.registered r hr).2.setToken
  intro htoken
  apply hown
  rw [← htoken]
  exact hr

theorem not_fenced (caller : EnqueueCaller) (h : s.rejectedBy caller.rejectWhen = none) :
    s.destructiveBusy = false ∧ s.scanningExclusive = false := by
  constructor
  · apply not_flag_of_rejectedBy h (f := .destructiveBusy)
    cases caller <;> decide
  · apply not_flag_of_rejectedBy h (f := .scanningExclusive)
    cases caller <;> decide

section

variable (h : w.Sound)

include h

theorem Sound.reserve {caller : EnqueueCaller}
    {weight capacity : Int} {activeCount : Option Int}
    (he : w.Enabled (.reserve os caller token weight capacity activeCount)) :
    (w.next (.reserve os caller token weight capacity activeCount)).Sound := by
  obtain ⟨hos,hown⟩ := he
  have hrec := h.reconcile hos
  rw [World.next]
  obtain ⟨hnot,hstatus⟩ | ⟨⟨result,hok,hacquired⟩,hfences,hstatus⟩ :=
    acquireEnqueueReservation_cases os token caller.rejectWhen weight capacity activeCount w.status
  · have hsound : (w.setStatus (acquireEnqueueReservation os token caller.rejectWhen weight
        capacity activeCount w.status).2).Sound := by
      obtain heq | heq := hstatus
      · rw [heq]
        exact h
      · rw [heq]
        exact hrec
    rcases hr : acquireEnqueueReservation os token caller.rejectWhen weight capacity activeCount
      w.status with ⟨_ | result,s⟩
    · rw [hr] at hsound
      exact hsound
    · rw [hr] at hsound
      have hrefused : result.acquired = false := hnot result (by rw [hr])
      simp only [hrefused]
      exact hsound
  · rcases hr : acquireEnqueueReservation os token caller.rejectWhen weight capacity activeCount
      w.status with ⟨_ | result',s⟩
    · rw [hr] at hok
      cases hok
    · rw [hr] at hok hstatus
      cases hok
      have hs : s = (w.status.reconcile os).register os token weight := hstatus
      simp only [hacquired]
      have hregistered : ((w.setStatus (w.status.reconcile os)).setStatus
          ((w.status.reconcile os).register os token weight)).Sound := by
        apply hrec.register _ hown
        intro hempty
        obtain hany | hreject := hfences
        · rw [show (w.status.reconcile os).pendingEnqueueTokens = [] from hempty] at hany
          cases hany
        · exact not_fenced caller hreject
      subst hs
      refine ⟨hregistered.status,hregistered.pids,hregistered.tokens,hregistered.drawn,
        hregistered.owner,hregistered.live,hregistered.fits,?_⟩
      intro r hmem
      obtain rfl | hold := mem_cons.mp hmem
      · exact ⟨hos.self,_,mem_setToken _ _ _,rfl,rfl⟩
      · exact hregistered.registered r hold

theorem Sound.reweight {weight capacity : Int}
    {activeCount : Option Int} (he : w.Enabled (.reweight os token weight capacity activeCount)) :
    (w.next (.reweight os token weight capacity activeCount)).Sound := by
  obtain ⟨hos,hheld⟩ := he
  have hrec := h.reconcile hos
  show (w.setStatus (acquireEnqueueReservation os token [] weight capacity activeCount
    w.status).2).Sound
  obtain ⟨-,heq | heq⟩ | ⟨-,-,heq⟩ :=
    acquireEnqueueReservation_cases os token [] weight capacity activeCount w.status
  · rw [heq]
    exact h
  · rw [heq]
    exact hrec
  · rw [heq]
    have hregistered := (hrec.registered (token, os.self) hheld).2
    apply hrec.register
    · -- the handler's own token is in the set, so no fence could be raised
      intro hempty
      obtain ⟨m,hm,-⟩ := hregistered
      rw [hempty] at hm
      cases hm
    · intro p hp
      exact (hrec.registered (token, p) hp).2.unique hrec.status.keys hregistered

theorem Sound.releaseEnqueue (token : String) :
    (w.next (.releaseEnqueue token)).Sound := by
  have hs := h.status.releaseTokenSet token
  have hslots : SameBusySlot w.status (releaseTokenSetReservation token w.status) := by
    unfold releaseTokenSetReservation
    split <;> exact ⟨rfl,rfl,rfl,rfl,rfl,rfl,rfl⟩
  refine ⟨hs,h.pids,h.tokens,h.drawn,?_,h.live,?_,?_⟩
  · intro rec hrec
    exact h.owner rec (hslots.busyOwner ▸ hrec)
  · intro op hop
    exact (h.fits op hop).of_same hslots
  · intro r hr
    obtain ⟨hold,hne⟩ := mem_deleteWhere.mp hr
    obtain ⟨hlive,m,hm,hpid,hstart⟩ := h.registered r hold
    refine ⟨hlive,m,?_,hpid,hstart⟩
    show (r.1, m) ∈ (releaseTokenSetReservation token w.status).pendingEnqueueTokens
    unfold releaseTokenSetReservation
    split
    · exact mem_deleteWhere.mpr ⟨hm,hne⟩
    · exact hm

theorem Sound.spawn {p : Process} (he : w.Enabled (.spawn p)) :
    (w.next (.spawn p)).Sound := by
  refine ⟨h.status,?_,h.tokens,h.drawn,h.owner,?_,h.fits,?_⟩
  · apply nodup_append_new h.pids
    intro q hq heq
    exact he (heq ▸ mem_map_of_mem hq)
  · intro op hop
    exact mem_append_left _ (h.live op hop)
  · intro r hr
    exact ⟨mem_append_left _ (h.registered r hr).1,(h.registered r hr).2⟩

theorem Sound.die (p : Process) : (w.next (.die p)).Sound := by
  refine ⟨h.status,nodup_deleteWhere h.pids,nodup_deleteWhere h.tokens,?_,h.owner,?_,?_,?_⟩
  · intro op hop
    exact h.drawn op (mem_deleteWhere.mp hop).1
  · intro op hop
    obtain ⟨hold,hne⟩ := mem_deleteWhere.mp hop
    exact mem_deleteWhere.mpr ⟨h.live op hold,hne⟩
  · intro op hop
    exact h.fits op (mem_deleteWhere.mp hop).1
  · intro r hr
    obtain ⟨hold,hne⟩ := mem_deleteWhere.mp hr
    exact ⟨mem_deleteWhere.mpr ⟨(h.registered r hold).1,hne⟩,(h.registered r hold).2⟩

theorem Sound.acquireScan
    (he : w.Enabled (.acquireScan os token)) : (w.next (.acquireScan os token)).Sound := by
  have hrec := h.reconcile he
  show (w.setStatus (acquireReservation os .scanningOwner token .scan scanFlags scanRejectWhen
    (some (w.ingress.manualRetries.head?.map Prod.snd)) w.status).2).Sound
  obtain ⟨-,heq⟩ | ⟨-,hreject,heq⟩ := acquireReservation_cases os .scanningOwner token .scan
    scanFlags scanRejectWhen (some (w.ingress.manualRetries.head?.map Prod.snd)) w.status
  · rw [heq]
    exact hrec
  · rw [heq]
    have hbusy : (w.status.reconcile os).busy = false :=
      not_flag_of_rejectedBy hreject (f := .busy) (by decide)
    have hcount : (w.status.reconcile os).flag .pendingEnqueues = false :=
      not_flag_of_rejectedBy hreject (by decide)
    have hdestructive := (hrec.status.of_free hbusy).1
    have hempty := hrec.status.no_tokens hcount
    have hslot : SameBusySlot (w.status.reconcile os)
        ((scanFlags (w.status.reconcile os)).setOwner .scanningOwner
          (some (makeOwnerRecord os.self token .scan))) := ⟨rfl,rfl,rfl,rfl,rfl,rfl,rfl⟩
    apply hrec.setSlots _ hslot rfl
    apply hrec.status.scanSlot hslot
    · exact ⟨rfl,rfl⟩
    · exact fun _ => ⟨hdestructive,rfl⟩
    · exact fun _ => ⟨rfl,hempty⟩

theorem Sound.transitionScan (token : String) :
    (w.next (.transitionScan token)).Sound := by
  apply h.setSlots (h.status.transitionScan token)
  · unfold transitionScanningReservation
    split
    · exact ⟨rfl,rfl,rfl,rfl,rfl,rfl,rfl⟩
    · split <;> exact ⟨rfl,rfl,rfl,rfl,rfl,rfl,rfl⟩
  · unfold transitionScanningReservation
    split
    · rfl
    · split <;> rfl

theorem Sound.releaseScan (token : String) :
    (w.next (.releaseScan token)).Sound := by
  apply h.setSlots (h.status.releaseScanning token)
  · unfold withReservationLock
    split <;> exact ⟨rfl,rfl,rfl,rfl,rfl,rfl,rfl⟩
  · unfold withReservationLock
    split <;> rfl

end

variable {job : BusyJob}

theorem Sound.acquireJob (h : w.Sound)
    (he : w.Enabled (.acquireJob os token job)) : (w.next (.acquireJob os token job)).Sound := by
  obtain ⟨hos,hnew⟩ := he
  have hrec := h.reconcile hos
  show ((w.setStatus (acquireReservation os .busyOwner token job.kind job.flags job.rejectWhen none
    w.status).2).start token os.self (.job job) .holding (acquireReservation os .busyOwner token
      job.kind job.flags job.rejectWhen none w.status).1.acquired).Sound
  obtain ⟨hacquired,heq⟩ | ⟨hacquired,hreject,heq⟩ := acquireReservation_cases os .busyOwner token
    job.kind job.flags job.rejectWhen none w.status
  · rw [hacquired,heq]
    exact hrec.refused hnew hos.self
  rw [hacquired,heq]
  have hbusy : (w.status.reconcile os).busy = false := by
    apply not_flag_of_rejectedBy hreject (f := .busy)
    cases job <;> exact mem_cons_self
  have hplain : (w.status.reconcile os).destructiveBusy = false := (hrec.status.of_free hbusy).1
  have hidle : (w.status.reconcile os).manualFreezeRequested = false :=
    (hrec.status.of_free hbusy).2
  -- a destructive job is refused by a scan and by every token
  have hexcluded : job.destructive = true →
      (w.status.reconcile os).pendingEnqueueTokens = [] ∧
        (w.status.reconcile os).scanning = false := by
    intro hdestructive
    have hlist : job.rejectWhen = destructiveRejectWhen := by
      cases job <;> first | rfl | cases hdestructive
    rw [hlist] at hreject
    have hcount : (w.status.reconcile os).flag .pendingEnqueues = false :=
      not_flag_of_rejectedBy hreject (by decide)
    refine ⟨hrec.status.no_tokens hcount,?_⟩
    exact not_flag_of_rejectedBy hreject (f := .scanning) (by decide)
  generalize w.status.reconcile os = s at *
  have hflags : ∃ s', s' = (job.flags s).setOwner .busyOwner
      (some (makeOwnerRecord os.self token job.kind)) ∧ s'.busy = true ∧ SameScanSlot s s' ∧
      SameTokens s s' ∧ s'.manualFreezeRequested = s.manualFreezeRequested ∧
      s'.destructiveBusy = (job.destructive || s.destructiveBusy) ∧
      s'.busyOwner = some (makeOwnerRecord os.self token job.kind) := by
    refine ⟨_,rfl,?_⟩
    cases job <;> exact ⟨rfl,⟨rfl,rfl,rfl⟩,⟨rfl,rfl⟩,rfl,rfl,rfl⟩
  obtain ⟨s',hs',hb,hscan,htokens,hf,hd,ho⟩ := hflags
  rw [← hs']
  have hsound : s'.Sound := by
    apply hrec.status.busySlot hscan htokens
    · intro hdestructive
      rw [hd,hplain,Bool.or_false] at hdestructive
      exact ⟨hb,hexcluded hdestructive⟩
    · intro _
      rw [ho]
      rfl
    · rw [hf,hidle]
      exact fun hfreeze => Bool.noConfusion hfreeze
  apply hrec.granted hnew hos.self hbusy hsound hb ho htokens.tokens rfl
  · intro hdestructive
    rw [hd,hplain,show job.destructive = false from hdestructive]
    rfl
  · exact fun _ => rfl
  · rw [hf,hidle]

theorem Sound.holding (h : w.Sound) (hop : op ∈ w.operations)
    (hstage : op.stage ≠ .running ∧ op.stage ≠ .resetting ∧ op.stage ≠ .unwinding)
    (howned : w.status.ownedBy .busyOwner op.token = true) :
    w.status.manualFreezeRequested = false ∧
      (op.destructive = false → w.status.destructiveBusy = false) := by
  obtain ⟨hgone,-⟩ := h.only_owner hop howned
  have hfits := h.fits op hop
  refine ⟨?_,hfits.plain hgone⟩
  apply hfits.idle
  cases hstage' : op.stage <;> simp_all [Stage.gone]

theorem Sound.releaseDestructive (h : w.Sound) (hop : op ∈ w.operations)
    (hstage : op.stage = .holding ∨ op.stage = .left) (action : PipelineStatus → PipelineStatus)
    (haction : action = PipelineStatus.releaseDestructiveAction ∨
      action = PipelineStatus.deleteRelease) :
    ((w.setStatus (withReservationLock .busyOwner op.token action w.status)).setStage op.token
      .left).Sound := by
  apply h.release hop
  intro howned
  have hstage' : op.stage ≠ .running ∧ op.stage ≠ .resetting ∧ op.stage ≠ .unwinding := by
    obtain hs | hs := hstage <;> simp [hs]
  obtain ⟨hidle,-⟩ := h.holding hop hstage' howned
  obtain rfl | rfl := haction
  · exact ⟨h.status.freed ⟨rfl,rfl,rfl⟩ ⟨rfl,rfl⟩ rfl rfl hidle,rfl,rfl⟩
  · exact ⟨h.status.freed ⟨rfl,rfl,rfl⟩ ⟨rfl,rfl⟩ rfl rfl hidle,rfl,rfl⟩

theorem Sound.releaseAdmin (h : w.Sound) (hop : op ∈ w.operations)
    (hstage : op.stage = .holding ∨ op.stage = .left) (hrole : op.role = .job .admin) :
    ((w.setStatus (withReservationLock .busyOwner op.token (·.releaseAdminBusy)
      w.status)).setStage op.token .left).Sound := by
  apply h.release hop
  intro howned
  have hstage' : op.stage ≠ .running ∧ op.stage ≠ .resetting ∧ op.stage ≠ .unwinding := by
    obtain hs | hs := hstage <;> simp [hs]
  obtain ⟨hidle,hplain⟩ := h.holding hop hstage' howned
  have hnot := hplain (by simp [Operation.destructive,hrole,BusyJob.destructive])
  exact ⟨h.status.freed ⟨rfl,rfl,rfl⟩ ⟨rfl,rfl⟩ rfl hnot hidle,rfl,rfl⟩

theorem endJob_slots (job : BusyJob) (s : PipelineStatus) :
    SameBusySlot s (s.endJob job) ∧ SameScanSlot s (s.endJob job) ∧ SameTokens s (s.endJob job) := by
  cases job <;>
    exact ⟨⟨rfl,rfl,rfl,rfl,rfl,rfl,rfl⟩,⟨rfl,rfl,rfl⟩,⟨rfl,rfl⟩⟩

theorem not_destructive_of_handsOff (h : job.handsOff = true) :
    job.destructive = false := by
  cases job <;> first | rfl | cases h

theorem Sound.terminal (h : w.Sound) (hop : op ∈ w.operations)
    (hrole : op.role = .job job) (hhands : job.handsOff = true)
    (hstage : op.stage ≠ .running ∧ op.stage ≠ .resetting ∧ op.stage ≠ .unwinding) :
    ((w.setStatus (withReservationLock .busyOwner op.token (·.terminalRelease job)
      w.status)).setStage op.token .left).Sound := by
  apply h.release hop
  intro howned
  obtain ⟨hidle,hplain⟩ := h.holding hop hstage howned
  have hnot := hplain (by
    simp only [Operation.destructive,hrole]
    exact not_destructive_of_handsOff hhands)
  cases job <;>
    exact ⟨h.status.freed ⟨rfl,rfl,rfl⟩ ⟨rfl,rfl⟩ rfl hnot hidle,rfl,rfl⟩

theorem Sound.exitJob (h : w.Sound) (hop : op ∈ w.operations)
    (hrole : op.role = .job job) (hhands : job.handsOff = true)
    (hstage : op.stage = .holding ∨ op.stage = .handoff) (probeFails : Bool) :
    (w.exitJob op job probeFails).Sound := by
  have hstage' : op.stage ≠ .running ∧ op.stage ≠ .resetting ∧ op.stage ≠ .unwinding := by
    obtain hs | hs := hstage <;> simp [hs]
  unfold World.exitJob
  cases howned : w.status.ownedBy .busyOwner op.token with
  | false => exact h.leave hop howned
  | true =>
    by_cases hwork : (probeFails || w.ingress.hasWork) = true
    · rw [if_pos hwork]
      obtain ⟨hslot,hscan,htokens⟩ := endJob_slots job w.status
      apply h.act hop howned (h.status.of_same hslot hscan htokens) _ htokens.tokens
      · have hfits := (h.fits op hop).of_same hslot
        have hgone : op.stage.gone = false := by
          obtain hs | hs := hstage <;> simp [hs,Stage.gone]
        have hplain : op.destructive = false := by
          simp only [Operation.destructive,hrole]
          exact not_destructive_of_handsOff hhands
        refine ⟨fun hgone' => Bool.noConfusion hgone',fun _ => hfits.owns hgone,
          fun _ => hfits.plain hgone,?_,fun _ => hfits.idle hstage,?_⟩
        · intro hd
          exact absurd (hplain.symm.trans hd) (by decide)
        · intro hrunning
          cases hrunning
      · intro rec hrec
        rw [hslot.busyOwner] at hrec
        obtain ⟨rec',hrec',htoken⟩ := ownedBy_busyOwner.mp howned
        rw [hrec] at hrec'
        cases hrec'
        exact htoken
    · rw [if_neg hwork]
      have hterminal := h.terminal hop hrole hhands hstage'
      unfold withReservationLock at hterminal
      rw [howned] at hterminal
      exact hterminal

theorem Sound.acquireRunSlot (h : w.Sound) (hos : os.Truthful w.live)
    (hnew : token ∉ w.drawn) (scanOwnerToken : Option String) {role : Role}
    (hrole : role = .run ∨ role = .scanReset) (m : Mailbox) :
    let r := acquireProcessingReservation os token false scanOwnerToken processingFlags w.status
    (({ w with status := r.2.2, ingress := m } : World).start token os.self role .running
      r.1.acquired).Sound := by
  dsimp only
  have hrec := h.reconcile hos
  obtain ⟨hacquired,deferred,heq⟩ | ⟨hacquired,hfree,deferred,heq⟩ :=
    acquireProcessingReservation_cases os token false scanOwnerToken processingFlags w.status
  · rw [hacquired,heq]
    have hsound : (w.setStatus
        { w.status.reconcile os with scanDeferredProcessing := deferred }).Sound :=
      hrec.setOther ⟨rfl,rfl,rfl,rfl,rfl,rfl,rfl⟩ ⟨rfl,rfl,rfl⟩ ⟨rfl,rfl⟩
    exact (hsound.setIngress m).refused hnew hos.self
  rw [hacquired,heq]
  obtain hheld | hbusy := hfree
  · cases hheld
  have hplain : (w.status.reconcile os).destructiveBusy = false := (hrec.status.of_free hbusy).1
  have hidle : (w.status.reconcile os).manualFreezeRequested = false :=
    (hrec.status.of_free hbusy).2
  have hsound : ({ processingFlags (w.status.reconcile os) with
      busy := true
      busyOwner := some (makeOwnerRecord os.self token .processing)
      scanDeferredProcessing := deferred } : PipelineStatus).Sound := by
    apply hrec.status.busySlot
    · exact ⟨rfl,rfl,rfl⟩
    · exact ⟨rfl,rfl⟩
    · intro hd
      exact absurd (hplain.symm.trans hd) (by decide)
    · exact fun _ => rfl
    · intro hf
      exact absurd (hidle.symm.trans hf) (by decide)
  apply (hrec.setIngress m).granted hnew hos.self hbusy hsound
  · rfl
  · rfl
  · rfl
  · rfl
  · exact fun _ => hplain
  · intro hd
    obtain rfl | rfl := hrole <;> cases hd
  · exact hidle

theorem Sound.takeOver (h : w.Sound) (he : w.Enabled (.takeOver os token)) :
    (w.next (.takeOver os token)).Sound := by
  obtain ⟨hos,op,hlookup,hprocess,hstage⟩ := he
  obtain ⟨hop,rfl⟩ := mem_of_lookup hlookup
  have hrec := h.reconcile hos
  show (if (acquireProcessingReservation os op.token true none processingFlags
      w.status).1.acquired then
      (w.setStatus (acquireProcessingReservation os op.token true none processingFlags
        w.status).2.2).setStage op.token .running
    else w.setStatus (acquireProcessingReservation os op.token true none processingFlags
      w.status).2.2).Sound
  obtain ⟨hacquired,deferred,heq⟩ | ⟨hacquired,-,deferred,heq⟩ :=
    acquireProcessingReservation_cases os op.token true none processingFlags w.status
  · rw [hacquired,heq]
    exact hrec.setOther ⟨rfl,rfl,rfl,rfl,rfl,rfl,rfl⟩ ⟨rfl,rfl,rfl⟩ ⟨rfl,rfl⟩
  rw [hacquired,heq]
  have hfits := hrec.fits op hop
  have hgone : op.stage.gone = false := by rw [hstage]; rfl
  obtain ⟨-,rec,hrecord,htoken,-⟩ := hfits.owns hgone
  have howned : (w.setStatus (w.status.reconcile os)).status.ownedBy .busyOwner op.token = true :=
    ownedBy_busyOwner.mpr ⟨rec,hrecord,htoken⟩
  have hplain : op.destructive = false := by
    cases hd : op.destructive with
    | false => rfl
    | true =>
      have hleft := hfits.role hd
      rw [hstage] at hleft
      simp at hleft
  have hnot : (w.status.reconcile os).destructiveBusy = false := hfits.plain hgone hplain
  have hidle : (w.status.reconcile os).manualFreezeRequested = false := hfits.idle (.inr hstage)
  apply hrec.act hop howned
  · apply hrec.status.busySlot
    · exact ⟨rfl,rfl,rfl⟩
    · exact ⟨rfl,rfl⟩
    · intro hd
      exact absurd (hnot.symm.trans hd) (by decide)
    · exact fun _ => rfl
    · intro hf
      exact absurd (hidle.symm.trans hf) (by decide)
  · rintro rec' ⟨⟩
    rfl
  · rfl
  · refine ⟨fun hgone' => Bool.noConfusion hgone',?_,fun _ _ => hnot,?_,?_,?_⟩
    · intro _
      exact ⟨rfl,_,rfl,rfl,.inr (by rw [hprocess]; exact ⟨rfl,rfl⟩)⟩
    · intro hd
      exact absurd (hplain.symm.trans hd) (by decide)
    · simp
    · intro _ hf
      exact absurd (hidle.symm.trans hf) (by decide)

theorem decide_cases (sweepDone : Bool) (s : PipelineStatus) (m : Mailbox) :
    let r := decidePipelineNextStep sweepDone s m
    (r.1 ≠ .released ∧ r.2.1 = s) ∨
      (r.1 = .released ∧ s.manualPhase ≠ .drainToIdle ∧
        r.2.1 = { s with busy := false, busyOwner := none }) := by
  unfold decidePipelineNextStep
  by_cases hcancel : s.cancellationRequested = true
  · rw [if_pos hcancel]
    exact .inl ⟨nofun,rfl⟩
  rw [if_neg hcancel]
  by_cases hdrain : s.manualPhase = .drainToIdle
  · left
    repeat' split
    all_goals exact ⟨nofun,rfl⟩
  rw [if_neg hdrain]
  cases m.manualRetries.head? with
  | some request => exact .inl ⟨nofun,rfl⟩
  | none =>
    dsimp only
    split
    · exact .inl ⟨nofun,rfl⟩
    split
    · exact .inl ⟨nofun,rfl⟩
    split
    · exact .inl ⟨nofun,rfl⟩
    · exact .inr ⟨rfl,hdrain,rfl⟩

section

variable (h : w.Sound)

include h

theorem Sound.running (hop : op ∈ w.operations)
    (hstage : op.stage = .running ∨ op.stage = .resetting ∨ op.stage = .unwinding) :
    op.Owns w.status ∧ w.status.destructiveBusy = false ∧ op.destructive = false ∧
      w.status.ownedBy .busyOwner op.token = true := by
  have hfits := h.fits op hop
  have hgone : op.stage.gone = false := by
    obtain hs | hs | hs := hstage <;> rw [hs] <;> rfl
  have hplain : op.destructive = false := by
    cases hd : op.destructive with
    | false => rfl
    | true =>
      have hleft := hfits.role hd
      obtain hs | hs | hs := hstage <;> simp [hs] at hleft
  have howns := hfits.owns hgone
  obtain ⟨-,rec,hrec,htoken,-⟩ := howns
  exact ⟨hfits.owns hgone,hfits.plain hgone hplain,hplain,ownedBy_busyOwner.mpr ⟨rec,hrec,htoken⟩⟩

theorem Sound.runStage (hop : op ∈ w.operations)
    (hstage : op.stage = .running ∨ op.stage = .resetting ∨ op.stage = .unwinding)
    {stage : Stage} (hs : s'.Sound) (hbusy : s'.busy = w.status.busy)
    (hdestructive : s'.destructiveBusy = w.status.destructiveBusy)
    (howner : s'.busyOwner = w.status.busyOwner)
    (htokens : s'.pendingEnqueueTokens = w.status.pendingEnqueueTokens)
    (hnext : stage = .resetting ∨ stage = .unwinding ∨
      (stage = .running ∧ (s'.manualFreezeRequested = true → s'.manualPhase = .drainToIdle))) :
    ((w.setStatus s').setStage op.token stage).Sound := by
  obtain ⟨howns,hnot,hplain,howned⟩ := h.running hop hstage
  apply h.act hop howned hs _ htokens
  · have hgone : stage.gone = false := by
      obtain rfl | rfl | ⟨rfl,-⟩ := hnext <;> rfl
    refine ⟨?_,?_,?_,?_,?_,?_⟩
    · intro hgone'
      exact absurd (hgone.symm.trans hgone') (by decide)
    · intro _
      unfold Operation.Owns at howns ⊢
      rw [hbusy,howner]
      exact howns
    · intro _ _
      rw [hdestructive]
      exact hnot
    · intro hd
      exact absurd (hplain.symm.trans hd) (by decide)
    · obtain rfl | rfl | ⟨rfl,-⟩ := hnext <;> simp
    · obtain rfl | rfl | ⟨rfl,hdrain⟩ := hnext
      · simp
      · simp
      · exact fun _ => hdrain
  · intro rec hrec
    rw [howner] at hrec
    obtain ⟨rec',hrec',htoken⟩ := ownedBy_busyOwner.mp howned
    rw [hrec] at hrec'
    cases hrec'
    exact htoken

theorem Sound.runRelease (hop : op ∈ w.operations)
    (hstage : op.stage = .running ∨ op.stage = .resetting ∨ op.stage = .unwinding)
    {stage : Stage} (hnext : stage.gone = true) (hs : s'.Sound) (hfree : s'.busyOwner = none)
    (htokens : s'.pendingEnqueueTokens = w.status.pendingEnqueueTokens) :
    ((w.setStatus s').setStage op.token stage).Sound := by
  obtain ⟨-,-,hplain,howned⟩ := h.running hop hstage
  apply h.act hop howned hs _ htokens
  · refine ⟨?_,?_,?_,?_,?_,?_⟩
    · simp [PipelineStatus.ownedBy,PipelineStatus.owner,hfree]
    · intro hgone
      exact absurd (hnext.symm.trans hgone) (by decide)
    · intro hgone
      exact absurd (hnext.symm.trans hgone) (by decide)
    · intro hd
      exact absurd (hplain.symm.trans hd) (by decide)
    · rintro (rfl | rfl) <;> cases hnext
    · rintro rfl
      cases hnext
  · intro rec hrec
    rw [hfree] at hrec
    cases hrec

theorem Sound.finalized (hop : op ∈ w.operations)
    (hstage : op.stage = .running ∨ op.stage = .resetting ∨ op.stage = .unwinding ∨
      op.stage = .released) :
    ((w.setStatus (finalize op.token (op.stage = Stage.released) w.status)).setStage op.token
      .left).Sound := by
  by_cases hreleased : op.stage = .released
  · have hgone : op.stage.gone = true := by rw [hreleased]; rfl
    have hnot := (h.fits op hop).gone hgone
    have hslots : ∀ s', s' = finalize op.token (op.stage = Stage.released) w.status →
        SameBusySlot w.status s' ∧ SameScanSlot w.status s' ∧ SameTokens w.status s' := by
      rintro s' rfl
      unfold finalize
      simp only [hreleased,decide_true,Bool.not_true,Bool.false_and,Bool.not_false,
        Bool.true_and,Bool.or_false,if_false,Bool.false_eq_true]
      split
      · exact ⟨⟨rfl,rfl,rfl,rfl,rfl,rfl,rfl⟩,⟨rfl,rfl,rfl⟩,⟨rfl,rfl⟩⟩
      · exact ⟨⟨rfl,rfl,rfl,rfl,rfl,rfl,rfl⟩,⟨rfl,rfl,rfl⟩,⟨rfl,rfl⟩⟩
    obtain ⟨hslot,hscan,htokens⟩ := hslots _ rfl
    have hsound := h.setOther hslot hscan htokens
    apply hsound.leave hop
    unfold PipelineStatus.ownedBy PipelineStatus.owner at hnot ⊢
    rw [show (w.setStatus (finalize op.token (op.stage = Stage.released)
      w.status)).status.busyOwner = _ from hslot.busyOwner]
    exact hnot
  · have hstage' : op.stage = .running ∨ op.stage = .resetting ∨ op.stage = .unwinding := by
      tauto
    obtain ⟨-,hplain,-,howned⟩ := h.running hop hstage'
    have heq : finalize op.token (op.stage = Stage.released) w.status =
        { w.status.releaseRun with cancellationRequested := false, cancellationReason := none } := by
      unfold finalize
      simp [hreleased,howned]
    rw [heq]
    have hsound : ({ w.status.releaseRun with
        cancellationRequested := false
        cancellationReason := none } : PipelineStatus).Sound :=
      h.status.freed ⟨rfl,rfl,rfl⟩ ⟨rfl,rfl⟩ rfl hplain rfl
    exact h.runRelease hop hstage' rfl hsound rfl rfl

theorem Sound.decided (hop : op ∈ w.operations) (hstage : op.stage = .running)
    (sweepDone : Bool) : (w.runStep op (.decide sweepDone)).Sound := by
  have hcases := decide_cases sweepDone w.status w.ingress
  rw [World.runStep]
  rcases hr : decidePipelineNextStep sweepDone w.status w.ingress with ⟨step,s,m⟩
  rw [hr] at hcases
  obtain ⟨hstep,rfl⟩ | ⟨rfl,hphase,rfl⟩ := hcases
  · cases step with
    | released => exact absurd rfl hstep
    | _ => exact h.setIngress m
  · obtain ⟨-,hplain,-,-⟩ := h.running hop (.inl hstage)
    -- outside of a drain a run in its loop has frozen nothing
    have hidle : w.status.manualFreezeRequested = false := by
      cases hf : w.status.manualFreezeRequested with
      | false => rfl
      | true => exact absurd ((h.fits op hop).draining hstage hf) hphase
    have hsound : ({ w.status with busy := false, busyOwner := none } : PipelineStatus).Sound :=
      h.status.freed ⟨rfl,rfl,rfl⟩ ⟨rfl,rfl⟩ rfl hplain hidle
    exact (h.runRelease hop (.inl hstage) rfl hsound rfl rfl).setIngress m

theorem Sound.beginManualDrain (hop : op ∈ w.operations)
    (hstage : op.stage = .running) (requestId : String) :
    (w.runStep op (.beginManualDrain requestId)).Sound := by
  obtain ⟨howns,hnot,hplain,howned⟩ := h.running hop (.inl hstage)
  show (w.setStatus (withReservationLock .busyOwner op.token
    (·.beginManualDrain (makeManualOwnerRecord op.process requestId op.token)) w.status)).Sound
  unfold withReservationLock
  rw [howned]
  apply h.actInStage hop howned (h.status.beginManualDrain howns.1 _) rfl rfl
  refine ⟨(h.fits op hop).gone,fun _ => howns,fun _ _ => hnot,(h.fits op hop).role,?_,?_⟩
  · simp [hstage]
  · exact fun _ _ => rfl

theorem Sound.runStep (hop : op ∈ w.operations) {step : RunStep}
    (hallowed : step.allowedIn op) (hos : ∀ os, step = .reap os → os.Truthful w.live) :
    (w.runStep op step).Sound := by
  cases step with
  | absorbAutoRescan => exact h.setIngress _
  | beginManualDrain requestId => exact h.beginManualDrain hop hallowed requestId
  | decide sweepDone => exact h.decided hop hallowed.1 sweepDone
  | drainDocuments limit => exact h.setIngress _
  | republish msgs => exact h.setIngress _
  | rearmAutoRescan => exact h.setIngress _
  | enterReset =>
    have hstage : op.stage = .running := hallowed
    show (if w.status.ownedBy .busyOwner op.token then
      (w.setStatus w.status.enterReset).setStage op.token .resetting else w).Sound
    split
    · exact h.runStage hop (.inl hstage) h.status.enterReset rfl rfl rfl rfl (.inl rfl)
    · exact h
  | checkFreezeOwner =>
    obtain ⟨-,-,-,howned⟩ := h.running hop (.inr (.inl hallowed.1))
    show (if w.status.ownedBy .busyOwner op.token then w else w.setStage op.token .running).Sound
    rw [howned]
    exact h
  | ackManualRetry requestId => exact h.setIngress _
  | endManualDrain =>
    have hstage : op.stage = .resetting := hallowed.1
    obtain ⟨-,-,-,howned⟩ := h.running hop (.inr (.inl hstage))
    show ((w.setStatus (withReservationLock .busyOwner op.token (·.clearManual)
      w.status)).setStage op.token .running).Sound
    unfold withReservationLock
    rw [howned]
    exact h.runStage hop (.inr (.inl hstage)) h.status.clearManual rfl rfl rfl rfl
      (.inr (.inr ⟨rfl,nofun⟩))
  | reap os => exact h.reconcile (hos os rfl)
  | fence kind message operationRecord =>
    have hsame : SameBusySlot w.status
        (fenceWorkspaceForRecovery kind message operationRecord w.status) ∧
        SameScanSlot w.status (fenceWorkspaceForRecovery kind message operationRecord w.status) ∧
        SameTokens w.status
          (fenceWorkspaceForRecovery kind message operationRecord w.status) := by
      unfold fenceWorkspaceForRecovery
      split <;> exact ⟨⟨rfl,rfl,rfl,rfl,rfl,rfl,rfl⟩,⟨rfl,rfl,rfl⟩,⟨rfl,rfl⟩⟩
    obtain ⟨hslot,hscan,htokens⟩ := hsame
    exact h.runStage hop (.inl hallowed) (h.status.of_same hslot hscan htokens) hslot.busy
      hslot.destructiveBusy hslot.busyOwner htokens.tokens (.inr (.inl rfl))
  | abort reason => exact h.setOther ⟨rfl,rfl,rfl,rfl,rfl,rfl,rfl⟩ ⟨rfl,rfl,rfl⟩ ⟨rfl,rfl⟩
  | clearCancellation =>
    have hstage : op.stage = .running := hallowed
    show (if w.status.cancellationRequested then
      (w.setStatus { w.status with
        cancellationRequested := false
        cancellationReason := none }).setStage op.token .unwinding else w).Sound
    split
    · have hsound : ({ w.status with
          cancellationRequested := false
          cancellationReason := none } : PipelineStatus).Sound :=
        h.status.of_same ⟨rfl,rfl,rfl,rfl,rfl,rfl,rfl⟩ ⟨rfl,rfl,rfl⟩ ⟨rfl,rfl⟩
      exact h.runStage hop (.inl hstage) hsound rfl rfl rfl rfl (.inr (.inl rfl))
    · exact h
  | finalize uncommittedWakeup =>
    obtain ⟨hholding,hhandoff,hleft,-⟩ := hallowed
    have hstage : op.stage = .running ∨ op.stage = .resetting ∨ op.stage = .unwinding ∨
        op.stage = .released := by
      cases hs : op.stage <;> simp_all
    exact (h.finalized hop hstage).setIngress _

theorem Sound.releaseJob {finished : Bool}
    (he : w.Enabled (.releaseJob token finished)) : (w.next (.releaseJob token finished)).Sound := by
  obtain ⟨op,hlookup,hstage⟩ := he
  obtain ⟨hop,rfl⟩ := mem_of_lookup hlookup
  simp only [World.next,hlookup]
  obtain ⟨token,process,role,stage⟩ := op
  match role with
  | .run => exact h
  | .scanReset => exact h
  | .job .admin => exact h.releaseAdmin hop hstage rfl
  | .job .clear => exact h.releaseDestructive hop hstage _ (.inl rfl)
  | .job (.deleteBatch docIds) =>
    cases finished with
    | true => exact h.releaseDestructive hop hstage _ (.inr rfl)
    | false => exact h.releaseDestructive hop hstage _ (.inl rfl)
  | .job (.singleDelete docId) => exact h
  | .job (.customChunks docId) => exact h

theorem Sound.releaseScanReset
    (he : w.Enabled (.releaseScanReset token)) : (w.next (.releaseScanReset token)).Sound := by
  obtain ⟨op,hlookup,hrole⟩ := he
  obtain ⟨hop,rfl⟩ := mem_of_lookup hlookup
  apply h.release hop
  intro howned
  obtain ⟨hgone,-⟩ := h.only_owner hop howned
  have hplain : w.status.destructiveBusy = false := by
    apply (h.fits op hop).plain hgone
    simp [Operation.destructive,hrole]
  exact ⟨h.status.freed ⟨rfl,rfl,rfl⟩ ⟨rfl,rfl⟩ rfl hplain rfl,rfl,rfl⟩

theorem Sound.forgetIdentity (key : OwnerKey) :
    (w.next (.forgetIdentity key)).Sound := by
  cases key with
  | scanningOwner =>
    have hslot : SameBusySlot w.status (w.next (.forgetIdentity .scanningOwner)).status :=
      ⟨rfl,rfl,rfl,rfl,rfl,rfl,rfl⟩
    have hsound : (w.next (.forgetIdentity .scanningOwner)).status.Sound := by
      apply h.status.scanSlot hslot
      · exact ⟨rfl,rfl⟩
      · intro hs
        refine ⟨h.status.not_destructive hs,?_⟩
        have hsome := h.status.scanningOwner (.inl hs)
        rw [show (w.next (.forgetIdentity .scanningOwner)).status.scanningOwner =
          w.status.scanningOwner.map fun rec => { rec with pid := none } from rfl,Option.isSome_map]
        exact hsome
      · exact fun hx => ⟨h.status.exclusive hx,h.status.enqueues (.inr hx)⟩
    exact h.setSlots hsound hslot rfl
  | busyOwner =>
    have howner : (w.next (.forgetIdentity .busyOwner)).status.busyOwner =
        w.status.busyOwner.map fun rec => { rec with pid := none } := rfl
    have hsound : (w.next (.forgetIdentity .busyOwner)).status.Sound := by
      apply h.status.busySlot
      · exact ⟨rfl,rfl,rfl⟩
      · exact ⟨rfl,rfl⟩
      · exact h.status.of_destructive
      · intro hb
        rw [howner,Option.isSome_map]
        exact h.status.busyOwner (.inl hb)
      · exact h.status.freeze
    have htoken : ∀ token, (w.next (.forgetIdentity .busyOwner)).status.ownedBy .busyOwner token =
        w.status.ownedBy .busyOwner token := by
      intro token
      simp only [PipelineStatus.ownedBy,PipelineStatus.owner,howner,Option.map_map]
      rfl
    refine ⟨hsound,h.pids,h.tokens,h.drawn,?_,h.live,?_,h.registered⟩
    · intro rec hrec
      obtain ⟨rec',hrec',rfl⟩ := Option.map_eq_some_iff.mp hrec
      exact h.owner rec' hrec'
    · intro op hop
      have hfits := h.fits op hop
      refine ⟨?_,?_,hfits.plain,hfits.role,hfits.idle,hfits.draining⟩
      · rw [htoken]
        exact hfits.gone
      · intro hgone
        obtain ⟨hbusy,rec,hrec,heq,-⟩ := hfits.owns hgone
        exact ⟨hbusy,{ rec with pid := none },by rw [howner,hrec]; rfl,heq,.inl rfl⟩

theorem Sound.next {e : Event} (he : w.Enabled e) (hreset : e ≠ .forceReset) :
    (w.next e).Sound := by
  cases e with
  | spawn p => exact h.spawn he
  | die p => exact h.die p
  | ingress op => exact h.setIngress _
  | reserve os caller token weight capacity activeCount => exact h.reserve he
  | reweight os token weight capacity activeCount => exact h.reweight he
  | releaseEnqueue token => exact h.releaseEnqueue token
  | check os rejectWhen exempt =>
    have hsame : (checkPipelineStatusMutation os rejectWhen exempt w.status).2 =
        w.status.reconcile os := by
      unfold checkPipelineStatusMutation
      dsimp only
      split
      · rfl
      · split <;> rfl
    show (w.setStatus (checkPipelineStatusMutation os rejectWhen exempt w.status).2).Sound
    rw [hsame]
    exact h.reconcile he
  | acquireScan os token => exact h.acquireScan he
  | transitionScan token => exact h.transitionScan token
  | releaseScan token => exact h.releaseScan token
  | acquireJob os token job => exact h.acquireJob he
  | releaseJob token finished => exact h.releaseJob he
  | exitJob token probeFails =>
    obtain ⟨op,hlookup,⟨job,hrole,hhands⟩,hstage⟩ := he
    obtain ⟨hop,-⟩ := mem_of_lookup hlookup
    simp only [World.next,hlookup,hrole]
    exact h.exitJob hop hrole hhands hstage probeFails
  | terminalRelease token =>
    obtain ⟨op,hlookup,⟨job,hrole,hhands⟩,hstage⟩ := he
    obtain ⟨hop,rfl⟩ := mem_of_lookup hlookup
    simp only [World.next,hlookup]
    obtain ⟨token,process,role,stage⟩ := op
    have hrole' : role = .job job := hrole
    subst hrole'
    exact h.terminal hop rfl hhands hstage
  | acquireRun os token => exact h.acquireRunSlot he.1 he.2 none (.inl rfl) _
  | acquireScanReset os token scanOwnerToken =>
    exact h.acquireRunSlot he.1 he.2 scanOwnerToken (.inr rfl) _
  | takeOver os token => exact h.takeOver he
  | run token step =>
    obtain ⟨hos,op,hlookup,hallowed⟩ := he
    obtain ⟨hop,-⟩ := mem_of_lookup hlookup
    simp only [World.next,hlookup]
    exact h.runStep hop hallowed hos
  | releaseScanReset token => exact h.releaseScanReset he
  | reap os => exact h.reconcile he
  | forgetIdentity key => exact h.forgetIdentity key
  | cancelPipeline =>
    unfold World.next
    dsimp only
    split
    · exact h.setOther ⟨rfl,rfl,rfl,rfl,rfl,rfl,rfl⟩ ⟨rfl,rfl,rfl⟩ ⟨rfl,rfl⟩
    · exact h
  | forceReset => exact absurd rfl hreset

theorem Sound.run {w' : World} {es : List Event} (hrun : Run World.Step w es w')
    (hreset : Event.forceReset ∉ es) : w'.Sound := by
  induction hrun with
  | nil => exact h
  | cons hstep _ ih =>
    obtain ⟨he,rfl⟩ := hstep
    rw [mem_cons,not_or] at hreset
    exact ih (h.next he (Ne.symm hreset.1)) hreset.2

end

end World

/-- Whatever the processes do short of a force reset, the holders of the pipeline exclude one
another. -/
theorem pipeline_reservations_exclusive {w w' : World} {es : List Event} (hinit : w.Initial)
    (hrun : Run World.Step w es w') (hreset : Event.forceReset ∉ es) : w'.status.Exclusive :=
  (hinit.sound.run hrun hreset).status.toExclusive

/-! A scan reserves the idle pipeline, runs its reset under its own fence, and lets an upload in
once it has narrowed its reservation. -/

def worker : Process := ⟨10, some "8841"⟩

def workerOs : Os := ⟨true, worker, fun _ => true, fun _ => none⟩

theorem workerOs_truthful : workerOs.Truthful [worker] :=
  ⟨mem_singleton.mpr rfl,fun _ _ => rfl,nofun⟩

def idlePipeline : World := ⟨.initial, Mailbox.new 8 none 8, [worker], [], [], []⟩

def scanWithReset : List Event := [
  .reserve workerOs .endpoint "upload" 1 0 none,
  .releaseEnqueue "upload",
  .acquireScan workerOs "scan",
  .acquireScanReset workerOs "reset" (some "scan"),
  .run "reset" (.beginManualDrain "retry"),
  .run "reset" .enterReset,
  .releaseScanReset "reset",
  .transitionScan "scan",
  .reserve workerOs .endpoint "text" 1 0 none]

theorem idlePipeline_initial : idlePipeline.Initial := ⟨rfl,rfl,rfl,rfl,by decide⟩

theorem scanWithReset_run :
    Run World.Step idlePipeline scanWithReset (scanWithReset.foldl World.next idlePipeline) :=
  .cons ⟨⟨workerOs_truthful,nofun⟩,rfl⟩ <|
  .cons ⟨trivial,rfl⟩ <|
  .cons ⟨workerOs_truthful,rfl⟩ <|
  .cons ⟨⟨workerOs_truthful,by decide⟩,rfl⟩ <|
  .cons ⟨⟨nofun,_,rfl,rfl⟩,rfl⟩ <|
  .cons ⟨⟨nofun,_,rfl,rfl⟩,rfl⟩ <|
  .cons ⟨⟨_,rfl,rfl⟩,rfl⟩ <|
  .cons ⟨trivial,rfl⟩ <|
  .cons ⟨⟨workerOs_truthful,nofun⟩,rfl⟩ <| .nil _

theorem pipeline_reservations_exclusive_scanWithReset :
    let w := scanWithReset.foldl World.next idlePipeline
    w.status.scanning = true ∧ w.status.pendingEnqueues = 1 ∧ w.status.Exclusive :=
  ⟨rfl,rfl,pipeline_reservations_exclusive idlePipeline_initial scanWithReset_run (by
    simp [scanWithReset])⟩

end LightRAG.Reservations
