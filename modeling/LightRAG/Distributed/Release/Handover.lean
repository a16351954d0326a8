import LightRAG.Distributed.Release.Runs

/-!
# The release state machine

The row of the scope and the rows of its releases move in lock step: the owner's row has the
phase and the identity of the scope, every other release is over, and the epoch of the scope is
the one the owner began at, raised as often as its phase says.
-/

namespace LightRAG.Release
open Table Option

/-- What `begin` remembered still fits the scope. -/
structure Previous.Matches (p : Previous) (s : ScopeRow) : Prop where
  epoch : p.epoch + s.phase.raised = s.epoch
  active : s.phase.raised = 0 → s.activeSlot = p.activeSlot
  candidate : s.phase.raised = 1 → s.candidateSlot = some p.activeSlot

structure ScopeRow.Consistent (s : ScopeRow) : Prop where
  owner : s.owner = none ↔ s.phase.atRest = true
  gate : s.gateOpen = false ↔ s.phase.gated = true
  candidate : s.phase.atRest = false → ∃ c, s.candidateSlot = some c ∧ c ≠ s.activeSlot

structure Lockstep (db : Db) : Prop where
  keys : (db.releases.map ReleaseRow.releaseId).Nodup
  scope : db.scope.Consistent
  recorded : ∀ id, db.scope.owner = some id → ∃ r, db.release id = some r ∧
    r.phase = db.scope.phase ∧ db.scope.identity = some r.identity ∧ r.previous.Matches db.scope
  others : ∀ r ∈ db.releases, db.scope.owner ≠ some r.releaseId → r.phase.atRest = true

section Releases

variable {db : Db} {id : String} {g : ReleaseRow → ReleaseRow}

theorem release_updateRelease (hid : ∀ r, (g r).releaseId = r.releaseId) (id' : String) :
    (db.updateRelease id g).release id' =
      if id' = id then (db.release id').map g else db.release id' := by
  simp only [Db.release,Db.updateRelease]
  rw [lookup_updateWhere hid]
  cases hfound : lookup ReleaseRow.releaseId db.releases id' with
  | none => simp
  | some r =>
    have hkey := (mem_of_lookup hfound).2
    by_cases h : id' = id <;> simp [hkey,h]

theorem keys_updateRelease (hid : ∀ r, (g r).releaseId = r.releaseId) :
    (db.updateRelease id g).releases.map ReleaseRow.releaseId =
      db.releases.map ReleaseRow.releaseId :=
  map_updateWhere hid

theorem release_beginRelease {identity : ReleaseIdentity} {now : Nat}
    (hnew : db.release identity.releaseId = none) (id : String) :
    (db.beginRelease identity now).release id =
      if id = identity.releaseId then
        some ⟨identity.releaseId, identity, .prepared,
          ⟨db.scope.epoch, db.scope.activeSlot, db.scope.configHash, none⟩, none, now⟩
      else db.release id := by
  apply lookup_append_new
  exact hnew

end Releases

namespace Lockstep

variable {db db' : Db} {identity : ReleaseIdentity} {epoch : Nat}

theorem congr (h : Lockstep db) (hscope : db'.scope = db.scope)
    (hreleases : db'.releases = db.releases) : Lockstep db' where
  keys := by
    rw [hreleases]
    exact h.keys
  scope := by
    rw [hscope]
    exact h.scope
  recorded := by
    simp only [Db.release,hscope,hreleases]
    exact h.recorded
  others := by
    rw [hscope,hreleases]
    exact h.others

theorem enrolled (h : db.Enrolled) : Lockstep db := by
  obtain ⟨scope,profileHash,configHash,activeSlot,policy,-,hscope⟩ := h.scope
  refine ⟨?_,⟨?_,?_,?_⟩,?_,?_⟩
  · rw [h.releases]
    exact List.nodup_nil
  · rw [hscope]
    exact ⟨fun _ => rfl,fun _ => rfl⟩
  · simp [hscope,ScopeRow.enrolled,Phase.gated]
  · simp [hscope,ScopeRow.enrolled,Phase.atRest]
  · simp [hscope,ScopeRow.enrolled]
  · simp [h.releases]

theorem advance (h : Lockstep db) (howns : db.Owns identity epoch) {f : ScopeRow → ScopeRow}
    {g : ReleaseRow → ReleaseRow} (hid : ∀ r, (g r).releaseId = r.releaseId)
    (hidentity : ∀ r, (g r).identity = r.identity)
    (hphase : ∀ r, r.phase = db.scope.phase → (g r).phase = (f db.scope).phase)
    (hkept : (f db.scope).identity = db.scope.identity)
    (hmatches : ∀ r, r.previous.Matches db.scope → (g r).previous.Matches (f db.scope))
    (hscope : (f db.scope).Consistent)
    (howner : (f db.scope).owner = none ∨ (f db.scope).owner = db.scope.owner) :
    Lockstep ((db.updateScope f).updateRelease identity.releaseId g) := by
  obtain ⟨r,hr,hrphase,hridentity,hrmatches⟩ := h.recorded _ howns.owner
  refine ⟨?_,hscope,?_,?_⟩
  · rw [keys_updateRelease hid]
    exact h.keys
  · intro id hown
    have howned : id = identity.releaseId := by
      have hsome : (f db.scope).owner = some id := hown
      rcases howner with hnone | hsame
      · rw [hnone] at hsome
        cases hsome
      · rw [hsame,howns.owner] at hsome
        exact (some.inj hsome).symm
    subst howned
    refine ⟨g r,?_,hphase r hrphase,?_,hmatches r hrmatches⟩
    · rw [release_updateRelease hid,if_pos rfl]
      show Option.map g (db.release identity.releaseId) = some (g r)
      rw [hr]
      rfl
    · rw [hidentity]
      exact hkept.trans hridentity
  · intro r' hr' hnot
    obtain ⟨r₀,hr₀,⟨hpick,rfl⟩ | ⟨hpick,rfl⟩⟩ := mem_updateWhere.mp hr'
    · have hkey : r₀.releaseId = identity.releaseId := by simpa using hpick
      have hown : r₀ = r := by
        have hfound := mem_of_lookup hr
        exact eq_of_key h.keys hr₀ hfound.1 (hkey.trans hfound.2.symm)
      subst hown
      have hnone : (f db.scope).owner = none := by
        rcases howner with hnone | hsame
        · exact hnone
        · apply absurd _ hnot
          show (f db.scope).owner = some (g r₀).releaseId
          rw [hid,hkey,hsame,howns.owner]
      rw [hphase r₀ hrphase]
      exact hscope.owner.mp hnone
    · apply h.others r₀ hr₀
      intro hown
      rw [howns.owner] at hown
      have hkey : r₀.releaseId = identity.releaseId := (some.inj hown).symm
      simp [hkey] at hpick

theorem beginRelease (h : Lockstep db) {now : Nat} (howner : db.scope.owner = none)
    (hgate : db.scope.gateOpen = true) (hnew : db.release identity.releaseId = none) :
    Lockstep (db.beginRelease identity now) := by
  refine ⟨?_,⟨?_,?_,?_⟩,?_,?_⟩
  · apply nodup_append_new h.keys
    exact lookup_eq_none.mp hnew
  · simp [Db.beginRelease,Phase.atRest]
  · simp [Db.beginRelease,Phase.gated,hgate]
  · intro _
    exact ⟨_,rfl,Slot.other_ne _⟩
  · intro id hown
    have howned : identity.releaseId = id := some.inj hown
    subst howned
    rw [release_beginRelease hnew,if_pos rfl]
    refine ⟨_,rfl,rfl,rfl,⟨rfl,fun _ => rfl,?_⟩⟩
    intro hraised
    cases hraised
  · intro r hr hnot
    rcases List.mem_append.mp hr with hold | hadded
    · apply h.others r hold
      rw [howner]
      exact nofun
    · rw [List.mem_singleton] at hadded
      subst hadded
      exact absurd rfl hnot

theorem writes (h : Lockstep db) {now : Nat} {c : Call} {r : Reply}
    (hwrites : Writes db now c r db') : Lockstep db' := by
  cases hwrites with
  | begin howner _ hgate _ hnew => exact h.beginRelease howner hgate hnew
  | transition howns hadvances _ =>
    refine h.advance howns (fun _ => rfl) (fun _ => rfl) (fun _ _ => rfl) rfl ?_ ?_ ?_
    · intro r hr
      obtain ⟨hepoch,hactive,hcandidate⟩ := hr
      generalize db.scope.phase = phase at *
      cases hadvances with
      | drain => exact ⟨hepoch,hactive,nofun⟩
      | switchRead => exact ⟨hepoch,hactive,nofun⟩
      | retire => exact ⟨hepoch,nofun,hcandidate⟩
      | complete => exact ⟨hepoch,nofun,hcandidate⟩
    · obtain ⟨howner,hgate,hcandidate⟩ := h.scope
      generalize db.scope.phase = phase at *
      cases hadvances with
      | drain => exact ⟨howner,⟨fun _ => rfl,fun _ => rfl⟩,hcandidate⟩
      | switchRead => exact ⟨howner,hgate,hcandidate⟩
      | retire => exact ⟨howner,hgate,hcandidate⟩
      | complete => exact ⟨⟨fun _ => rfl,fun _ => rfl⟩,hgate,nofun⟩
    · generalize db.scope.phase = phase at *
      cases hadvances with
      | complete => exact .inl rfl
      | _ => exact .inr rfl
  | captureBaseline howns hphase =>
    refine h.advance (f := fun s => s) howns (fun _ => rfl) (fun _ => rfl) (fun _ hr => hr) rfl
      ?_ ?_ ?_
    · intro r hr
      exact ⟨hr.epoch,hr.active,hr.candidate⟩
    · exact h.scope
    · exact .inr rfl
  | transferWriter howns hphase _ hcandidate _ _ _ =>
    refine h.advance howns (fun _ => rfl) (fun _ => rfl) (fun _ _ => rfl) rfl ?_ ?_ ?_
    · intro r hr
      have hepoch := hr.epoch
      have hactive := hr.active (by rw [hphase]; rfl)
      rw [hphase] at hepoch
      refine ⟨?_,nofun,?_⟩
      · rw [← hepoch]
        rfl
      · intro _
        show some db.scope.activeSlot = some r.previous.activeSlot
        rw [hactive]
    · have hother := h.scope.candidate (by rw [hphase]; rfl)
      rw [hcandidate] at hother
      refine ⟨?_,?_,?_⟩
      · show db.scope.owner = none ↔ _
        rw [howns.owner]
        exact ⟨nofun,nofun⟩
      · exact ⟨nofun,nofun⟩
      · intro _
        refine ⟨db.scope.activeSlot,rfl,?_⟩
        obtain ⟨c,hc,hne⟩ := hother
        cases hc
        show db.scope.activeSlot ≠ db.scope.candidateSlot.getD db.scope.activeSlot
        rw [hcandidate]
        exact fun heq => hne heq.symm
    · exact .inr rfl
  | beginRollback howns hphase =>
    refine h.advance howns (fun _ => rfl) (fun _ => rfl) (fun _ _ => rfl) rfl ?_ ?_ ?_
    · intro r hr
      obtain ⟨hepoch,_,hcandidate⟩ := hr
      rw [hphase] at hepoch hcandidate
      exact ⟨hepoch,nofun,hcandidate⟩
    · obtain ⟨howner,_,hcandidate⟩ := h.scope
      rw [hphase] at howner hcandidate
      exact ⟨howner,⟨fun _ => rfl,fun _ => rfl⟩,hcandidate⟩
    · exact .inr rfl
  | reverseTransfer howns hphase _ hrecord _ _ _ =>
    obtain ⟨r,hr,_,_,hmatch⟩ := h.recorded _ howns.owner
    rw [hrecord] at hr
    cases hr
    have hback := hmatch.candidate (by rw [hphase]; rfl)
    refine h.advance howns (fun _ => rfl) (fun _ => rfl) (fun _ _ => rfl) rfl ?_ ?_ ?_
    · intro r hr
      have hepoch := hr.epoch
      rw [hphase] at hepoch
      refine ⟨?_,nofun,nofun⟩
      show r.previous.epoch + 2 = db.scope.epoch + 1
      rw [← hepoch]
      rfl
    · refine ⟨?_,⟨nofun,nofun⟩,?_⟩
      · show db.scope.owner = none ↔ _
        rw [howns.owner]
        exact ⟨nofun,nofun⟩
      · intro _
        obtain ⟨c,hc,hne⟩ := h.scope.candidate (by rw [hphase]; rfl)
        rw [hback] at hc
        cases hc
        exact ⟨db.scope.activeSlot,rfl,fun heq => hne heq.symm⟩
    · exact .inr rfl
  | reopenRollback howns hphase =>
    refine h.advance howns (fun _ => rfl) (fun _ => rfl) (fun _ _ => rfl) rfl ?_ ?_ ?_
    · intro r hr
      have hepoch := hr.epoch
      rw [hphase] at hepoch
      exact ⟨hepoch,nofun,nofun⟩
    · obtain ⟨howner,hgate,hcandidate⟩ := h.scope
      rw [hphase] at howner hgate hcandidate
      exact ⟨howner,hgate,hcandidate⟩
    · exact .inr rfl
  | finishRollback howns hphase _ =>
    refine h.advance howns (fun _ => rfl) (fun _ => rfl) (fun _ _ => rfl) rfl ?_ ?_ ?_
    · intro r hr
      have hepoch := hr.epoch
      rw [hphase] at hepoch
      exact ⟨hepoch,nofun,nofun⟩
    · obtain ⟨_,hgate,_⟩ := h.scope
      rw [hphase] at hgate
      exact ⟨⟨fun _ => rfl,fun _ => rfl⟩,hgate,nofun⟩
    · exact .inl rfl
  | abortBeforeTransfer howns hphase _ =>
    have hbefore : db.scope.phase.raised = 0 := by
      generalize db.scope.phase = phase at hphase
      cases phase <;> first | rfl | exact absurd hphase (by decide)
    refine h.advance howns (fun _ => rfl) (fun _ => rfl) (fun _ _ => rfl) rfl ?_ ?_ ?_
    · intro r hr
      have hepoch := hr.epoch
      rw [hbefore] at hepoch
      exact ⟨hepoch,fun _ => hr.active hbefore,nofun⟩
    · refine ⟨?_,⟨nofun,nofun⟩,?_⟩
      · show db.scope.owner = none ↔ _
        rw [howns.owner]
        exact ⟨nofun,nofun⟩
      · intro _
        apply h.scope.candidate
        generalize db.scope.phase = phase at hphase
        cases phase <;> first | rfl | exact absurd hphase (by decide)
    · exact .inr rfl
  | finishAbort howns hphase _ _ =>
    refine h.advance howns (fun _ => rfl) (fun _ => rfl) (fun _ _ => rfl) rfl ?_ ?_ ?_
    · intro r hr
      obtain ⟨hepoch,hactive,hcandidate⟩ := hr
      rw [hphase] at hepoch hactive
      exact ⟨hepoch,hactive,nofun⟩
    · obtain ⟨_,hgate,_⟩ := h.scope
      rw [hphase] at hgate
      exact ⟨⟨fun _ => rfl,fun _ => rfl⟩,hgate,nofun⟩
    · exact .inl rfl
  | _ => exact h.congr rfl rfl

theorem step (h : Lockstep db) {e : Event} (hstep : Step db e db') : Lockstep db' := by
  cases hstep.change with
  | none _ => exact h
  | wrote hwrites => exact h.writes hwrites
  | closes instanceId => exact h.congr rfl rfl
  | coordination tables => exact h.congr rfl rfl
  | draws => exact h.congr rfl rfl

theorem run {events : List Event} (h : db.Enrolled) (hrun : Run Step db events db') :
    Lockstep db' :=
  hrun.preserves (fun _ _ _ hstep hi => hi.step hstep) (enrolled h)

end Lockstep

def Event.moves : Event → Option String
  | .call _ (.transferWriter identity _ _) (.ok _) => some identity.releaseId
  | .call _ (.reverseTransfer identity _ _) (.ok _) => some identity.releaseId
  | _ => none

def Db.raisedBy (db : Db) (id : String) : Nat := (db.release id).elim 0 fun r => r.phase.raised

/-- What a step adds to the epoch and to the count of each release. -/
structure Raises (db : Db) (e : Event) (db' : Db) : Prop where
  epoch : db'.scope.epoch = db.scope.epoch + if e.moves.isSome then 1 else 0
  raised : ∀ id, db'.raisedBy id = db.raisedBy id + if e.moves = some id then 1 else 0

namespace Raises

variable {db db' : Db} {identity : ReleaseIdentity} {epoch : Nat} {e : Event}

theorem unmoved (he : e.moves = none) (hepoch : db'.scope.epoch = db.scope.epoch)
    (hreleases : db'.releases = db.releases) : Raises db e db' := by
  refine ⟨?_,?_⟩
  · simp [he,hepoch]
  · simp [he,Db.raisedBy,Db.release,hreleases]

theorem advance (h : Lockstep db) (howns : db.Owns identity epoch) {f : ScopeRow → ScopeRow}
    {g : ReleaseRow → ReleaseRow} (hid : ∀ r, (g r).releaseId = r.releaseId)
    (hmoves : e.moves = none ∨ e.moves = some identity.releaseId)
    (hepoch : (f db.scope).epoch = db.scope.epoch + if e.moves.isSome then 1 else 0)
    (hraised : ∀ r, r.phase = db.scope.phase →
      (g r).phase.raised = r.phase.raised + if e.moves.isSome then 1 else 0) :
    Raises db e ((db.updateScope f).updateRelease identity.releaseId g) := by
  refine ⟨hepoch,?_⟩
  intro id
  obtain ⟨r,hr,hphase,_,_⟩ := h.recorded _ howns.owner
  have hrelease : ∀ id, (db.updateScope f).release id = db.release id := fun _ => rfl
  simp only [Db.raisedBy,release_updateRelease hid,hrelease]
  by_cases hown : id = identity.releaseId
  · subst hown
    have hrow := hraised r hphase
    rw [if_pos rfl,hr]
    show (g r).phase.raised = r.phase.raised + _
    rw [hrow]
    rcases hmoves with hm | hm <;> simp [hm]
  · have hother : e.moves ≠ some id := by
      rcases hmoves with hm | hm
      · simp [hm]
      · rw [hm]
        exact fun heq => hown (some.inj heq).symm
    rw [if_neg hown,if_neg hother]
    rfl

theorem writes (h : Lockstep db) {now : Nat} {c : Call} {r : Reply}
    (hwrites : Writes db now c r db') : Raises db (.call now c (.ok r)) db' := by
  cases hwrites with
  | begin howner _ _ _ hnew =>
    refine ⟨rfl,?_⟩
    intro id
    simp only [Db.raisedBy,release_beginRelease hnew]
    split
    · rename_i hid
      rw [hid,hnew]
      rfl
    · rfl
  | transition howns hadvances _ =>
    refine advance h howns (fun _ => rfl) (.inl rfl) rfl ?_
    intro r hr
    rw [hr]
    generalize db.scope.phase = phase at *
    cases hadvances <;> rfl
  | captureBaseline howns hphase =>
    refine advance (f := fun s => s) h howns (fun _ => rfl) (.inl rfl) rfl ?_
    intro r _
    rfl
  | transferWriter howns hphase _ _ _ _ _ =>
    refine advance h howns (fun _ => rfl) (.inr rfl) rfl ?_
    intro r hr
    rw [hr,hphase]
    rfl
  | beginRollback howns hphase =>
    refine advance h howns (fun _ => rfl) (.inl rfl) rfl ?_
    intro r hr
    rw [hr,hphase]
    rfl
  | reverseTransfer howns hphase _ _ _ _ _ =>
    refine advance h howns (fun _ => rfl) (.inr rfl) rfl ?_
    intro r hr
    rw [hr,hphase]
    rfl
  | reopenRollback howns hphase =>
    refine advance h howns (fun _ => rfl) (.inl rfl) rfl ?_
    intro r hr
    rw [hr,hphase]
    rfl
  | finishRollback howns hphase _ =>
    refine advance h howns (fun _ => rfl) (.inl rfl) rfl ?_
    intro r hr
    rw [hr,hphase]
    rfl
  | abortBeforeTransfer howns hphase _ =>
    refine advance h howns (fun _ => rfl) (.inl rfl) rfl ?_
    intro r hr
    rw [hr]
    generalize db.scope.phase = phase at hphase
    cases phase <;> first | rfl | exact absurd hphase (by decide)
  | finishAbort howns hphase _ _ =>
    refine advance h howns (fun _ => rfl) (.inl rfl) rfl ?_
    intro r hr
    rw [hr,hphase]
    rfl
  | _ => exact unmoved rfl rfl rfl

theorem step (h : Lockstep db) (hstep : Step db e db') : Raises db e db' := by
  cases hstep.change with
  | none hquiet =>
    refine unmoved ?_ rfl rfl
    rename_i now c result
    cases result with
    | error f => cases c <;> rfl
    | ok r =>
      have hq := hquiet r rfl
      cases c <;> first | rfl | cases r <;> cases hq
  | wrote hwrites => exact writes h hwrites
  | closes instanceId => exact unmoved rfl rfl rfl
  | coordination tables => exact unmoved rfl rfl rfl
  | draws => exact unmoved rfl rfl rfl

end Raises

theorem raisedBy_run {db₀ db : Db} {events : List Event} (hinit : db₀.Enrolled)
    (hrun : Run Step db₀ events db) (id : String) :
    events.countP (fun e => e.moves = some id) = db.raisedBy id := by
  have hall : Lockstep db ∧ events.countP (fun e => e.moves = some id) = db.raisedBy id := by
    refine hrun.accumulates
      (I := fun es d => Lockstep d ∧ es.countP (fun e => e.moves = some id) = d.raisedBy id) ?_ ?_
    · rintro es d e d' ⟨hlock,hcount⟩ hstep
      refine ⟨hlock.step hstep,?_⟩
      have hraised := (Raises.step hlock hstep).raised id
      rw [List.countP_append,hcount,hraised]
      simp
    · refine ⟨Lockstep.enrolled hinit,?_⟩
      simp [Db.raisedBy,Db.release,hinit.releases,lookup]
  exact hall.2

theorem Phase.atRest_iff {p : Phase} :
    p.atRest = true ↔ p ∈ [Phase.idle, .completed, .aborted, .rolledBack] := by
  cases p <;> decide

theorem Phase.gated_iff {p : Phase} :
    p.gated = true ↔ p ∈ [Phase.draining, .readSwitched, .rollbackDraining] := by
  cases p <;> decide

/-- The release state machine, in every state that any interleaving of calls reaches and in
every step from there. -/
theorem release_state_machine {db₀ db : Db} {events : List Event} (hinit : db₀.Enrolled)
    (hrun : Run Step db₀ events db) :
    (db.scope.owner = none ↔ db.scope.phase ∈ [Phase.idle, .completed, .aborted, .rolledBack]) ∧
    (∀ id, db.scope.owner = some id →
      (∃ r, db.release id = some r ∧ r.phase = db.scope.phase ∧
        db.scope.identity = some r.identity) ∧
      ∀ r ∈ db.releases, r.releaseId ≠ id →
        r.phase ∈ [Phase.idle, .completed, .aborted, .rolledBack]) ∧
    (db.scope.gateOpen = false ↔
      db.scope.phase ∈ [Phase.draining, .readSwitched, .rollbackDraining]) ∧
    (db.scope.phase ∉ [Phase.idle, .completed, .aborted, .rolledBack] →
      ∃ c, db.scope.candidateSlot = some c ∧ c ≠ db.scope.activeSlot) ∧
    (∀ e db', Step db e db' →
      db'.scope.epoch = db.scope.epoch + if e.moves.isSome then 1 else 0) ∧
    (∀ r ∈ db.releases,
      (r.phase = .completed → events.countP (fun e => e.moves = some r.releaseId) = 1) ∧
      (r.phase = .aborted → events.countP (fun e => e.moves = some r.releaseId) = 0) ∧
      (r.phase = .rolledBack → events.countP (fun e => e.moves = some r.releaseId) = 2)) := by
  have h := Lockstep.run hinit hrun
  refine ⟨?_,?_,?_,?_,?_,?_⟩
  · rw [← Phase.atRest_iff]
    exact h.scope.owner
  · intro id hown
    obtain ⟨r,hr,hphase,hidentity,_⟩ := h.recorded id hown
    refine ⟨⟨r,hr,hphase,hidentity⟩,?_⟩
    intro r' hr' hne
    rw [← Phase.atRest_iff]
    apply h.others r' hr'
    rw [hown]
    exact fun heq => hne (some.inj heq).symm
  · rw [← Phase.gated_iff]
    exact h.scope.gate
  · intro hphase
    rw [← Phase.atRest_iff,Bool.not_eq_true] at hphase
    exact h.scope.candidate hphase
  · intro e db' hstep
    exact (Raises.step h hstep).epoch
  · intro r hr
    have hrow : db.release r.releaseId = some r := (lookup_eq_some h.keys).mpr ⟨hr,rfl⟩
    have hcount := raisedBy_run hinit hrun r.releaseId
    rw [Db.raisedBy,hrow] at hcount
    rw [hcount]
    refine ⟨?_,?_,?_⟩ <;>
    · intro hphase
      show r.phase.raised = _
      rw [hphase]
      rfl

/-- The forward path ends in a completed release, which moved the writer once. -/
theorem release_state_machine_upgrade :
    let run := enrolledDb.execute (upgradeCalls ++
      [(6, .transition upgrade 2 .writerSwitched .retiring),
        (7, .transition upgrade 2 .retiring .completed)])
    run.2.scope.owner = none ∧ run.2.scope.epoch = 2 ∧
      run.1.countP (fun e => e.moves = some "r1") = 1 := by
  intro run
  have h := release_state_machine enrolledDb_enrolled (run_execute enrolledDb (upgradeCalls ++
      [(6, .transition upgrade 2 .writerSwitched .retiring),
        (7, .transition upgrade 2 .retiring .completed)]))
  have hphase : run.2.scope.phase = .completed := by decide +kernel
  have hepoch : run.2.scope.epoch = 2 := by decide +kernel
  have howner : run.2.scope.owner = none := h.1.mpr (by rw [hphase]; decide)
  refine ⟨howner,hepoch,?_⟩
  obtain ⟨r,hr,heq⟩ : ∃ r ∈ run.2.releases, (r.releaseId, r.phase) = ("r1", Phase.completed) := by
    rw [← List.mem_map]
    exact List.mem_singleton.mpr rfl
  have hid : r.releaseId = "r1" := congrArg Prod.fst heq
  have hcount := (h.2.2.2.2.2 r hr).1 (congrArg Prod.snd heq)
  rwa [hid] at hcount

end LightRAG.Release
