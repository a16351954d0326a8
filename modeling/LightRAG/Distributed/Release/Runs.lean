import LightRAG.Distributed.Release.Functions
import LightRAG.Framework.Run

/-!
# The outcome of a call

One rule for each body: it ends in one of the ways of `Outcome`.
-/

namespace LightRAG.Release
open Tx Table List

section Posts

variable {α : Type} {db : Db} {now : Nat} {identity : ReleaseIdentity} {epoch : Nat}

theorem lockScope_post {scope : String} {Q : Except Failure ScopeRow → Db → Prop}
    (hrefused : ∀ f, Q (.error f) db) (hok : Q (.ok db.scope) db) :
    (lockScope scope).Post db Q := by
  unfold lockScope
  simp only [post_bind,post_fetch]
  split
  · exact hrefused _
  · exact hok

theorem owns_of_ownedBy (h : db.scope.ownedBy identity epoch = true) : db.Owns identity epoch := by
  have hall := of_decide_eq_true h
  exact ⟨hall.1,hall.2.1,hall.2.2⟩

theorem validateTransition_post {next : Phase} {Q : Except Failure Unit → Db → Prop}
    (hrefused : ∀ f, Q (.error f) db)
    (hok : db.Owns identity epoch →
      db.scope.phase.Advances next ∨ db.scope.phase = .readSwitched ∧ next = .writerSwitched →
      Q (.ok ()) db) :
    (validateTransition db.scope identity epoch next).Post db Q := by
  unfold validateTransition
  simp only [post_ite]
  split
  · exact hrefused _
  rename_i howned
  split
  · exact hrefused _
  rename_i hnext
  apply hok (owns_of_ownedBy (by simpa using howned))
  generalize db.scope.phase = phase at hnext
  cases phase <;> cases next <;>
    first
    | exact absurd (by decide) hnext
    | exact .inr ⟨rfl,rfl⟩
    | exact .inl (by constructor)

theorem begin_ends :
    (ReleaseStore.begin identity epoch now).Post db
      (Ends db now (.begin identity epoch) .begun) := by
  unfold ReleaseStore.begin
  rw [post_bind]
  apply lockScope_post fun _ => trivial
  simp only [post_bind,post_ite,post_raise,post_fetch]
  split
  · trivial
  split
  · trivial
  split
  · exact .answered _ rfl
  split
  · split
    · trivial
    split
    · trivial
    · split
      · trivial
      · exact .answered _ rfl
  rename_i hnotOwner
  simp only [post_bind,post_ite,post_raise,post_fetch]
  split
  · trivial
  rename_i hfree
  split
  · trivial
  rename_i hopen
  split
  · trivial
  split
  · trivial
  rename_i hnew
  simp only [Bool.or_eq_true,decide_eq_true_eq,not_or,not_not,Bool.not_eq_true',
    Bool.not_eq_false] at hfree hopen
  have howner : db.scope.owner = none := by
    cases ho : db.scope.owner with
    | none => rfl
    | some o =>
      have hsame : o = identity.releaseId := by simpa [ho] using hfree.2
      exact absurd (by rw [ho,hsame]) hnotOwner
  have hrest : db.scope.phase.atRest = true := by
    have hmem := hopen.2
    generalize db.scope.phase = phase at hmem
    cases phase <;> first | rfl | exact absurd hmem (by decide)
  have hfresh : db.release identity.releaseId = none := by simpa using hnew
  exact .wrote _ _ (.begin howner hfree.1 hopen.1 hrest hfresh)

theorem transition_ends {expected next : Phase} :
    (ReleaseStore.transition identity epoch expected next now).Post db
      (Ends db now (.transition identity epoch expected next) .scope) := by
  unfold ReleaseStore.transition
  rw [post_bind]
  apply lockScope_post fun _ => trivial
  simp only [post_bind,post_ite,post_raise,post_fetch]
  split
  · trivial
  rename_i hexpected
  obtain rfl := not_not.mp hexpected
  apply validateTransition_post fun _ => trivial
  intro howns hadvances
  dsimp only
  split
  · trivial
  rename_i hnotSwitched
  split
  · trivial
  rename_i hretired
  have hforward : db.scope.phase.Advances next := by
    rcases hadvances with h | ⟨_,h⟩
    · exact h
    · exact absurd h hnotSwitched
  have hclosed : next = .completed → db.unclosedOutside db.scope.activeSlot = false := by
    simpa using hretired
  exact .wrote _ _ (.transition howns hforward hclosed)

theorem captureBaseline_ends {digest : String} :
    (ReleaseStore.captureBaseline identity epoch digest).Post db
      (Ends db now (.captureBaseline identity epoch digest) fun _ => .done) := by
  unfold ReleaseStore.captureBaseline
  simp only [post_bind,post_ite,post_raise,post_fetch]
  split
  · trivial
  apply lockScope_post fun _ => trivial
  dsimp only
  split
  · trivial
  rename_i howned
  split
  · trivial
  split
  · trivial
  simp only [Bool.or_eq_true,not_or,Bool.not_eq_true',Bool.not_eq_false,decide_eq_true_eq,
    not_not] at howned
  exact .wrote _ _ (.captureBaseline (owns_of_ownedBy howned.1) howned.2)

theorem waitForDrain_ends :
    (ReleaseStore.waitForDrain identity epoch now).Post db
      (Ends db now (.waitForDrain identity epoch) .evidence) := by
  unfold ReleaseStore.waitForDrain
  rw [post_bind]
  apply lockScope_post fun _ => trivial
  simp only [post_bind,post_ite,post_raise,post_fetch]
  split
  · trivial
  split
  · trivial
  apply collectDrainEvidence_post fun _ => trivial
  apply requireEmpty_post
  · intro f
    trivial
  · intro _
    exact .answered _ rfl

theorem transferWriter_ends {expected : List String} :
    (ReleaseStore.transferWriter identity epoch expected now).Post db
      (Ends db now (.transferWriter identity epoch expected) .scope) := by
  unfold ReleaseStore.transferWriter
  rw [post_bind]
  apply lockScope_post fun _ => trivial
  dsimp only
  rw [post_bind]
  apply validateTransition_post fun _ => trivial
  intro howns hadvances
  have hphase : db.scope.phase = .readSwitched := by
    rcases hadvances with h | ⟨h,_⟩
    · exact absurd h Phase.not_advances_writerSwitched
    · exact h
  simp only [post_bind,post_ite,post_raise,post_fetch]
  split
  · trivial
  rename_i hopen
  split
  · trivial
  split
  · trivial
  rename_i hsame
  apply collectDrainEvidence_post fun _ => trivial
  apply requireEmpty_post
  · intro f
    trivial
  intro hdrained
  simp only [Bool.or_eq_true,not_or,Bool.not_eq_true,decide_eq_true_eq] at hopen
  simp only [Bool.not_eq_true',Bool.not_eq_false] at hsame
  cases hcandidate : db.scope.candidateSlot with
  | none =>
    obtain ⟨id,ids,rfl⟩ := exists_cons_of_ne_nil hopen.2
    simp [hcandidate,ReleaseStore.sameCandidates] at hsame
  | some c =>
    rw [hcandidate] at hsame
    exact .wrote _ _ (.transferWriter howns hphase hopen.1 hcandidate hopen.2 hsame hdrained)

theorem beginRollback_ends {approval : Option Approval} :
    (ReleaseStore.beginRollback identity epoch approval now).Post db
      (Ends db now (.beginRollback identity epoch approval) .scope) := by
  unfold ReleaseStore.beginRollback
  rw [post_bind]
  apply lockScope_post fun _ => trivial
  dsimp only
  rw [post_bind,post_fetch]
  dsimp only
  split
  · trivial
  · split <;> trivial
  simp only [post_bind,post_ite,post_raise,post_fetch]
  split
  · trivial
  rename_i hidentity
  split
  · trivial
  split
  · split
    · trivial
    · exact .answered _ rfl
  split
  · trivial
  rename_i howned
  split
  · trivial
  simp only [Bool.or_eq_true,not_or,decide_eq_true_eq,not_not] at howned
  exact .wrote _ _ (.beginRollback ⟨howned.1.1,howned.1.2,not_not.mp hidentity⟩ howned.2)

theorem reverseTransfer_ends {expected : List String} :
    (ReleaseStore.reverseTransfer identity epoch expected now).Post db
      (Ends db now (.reverseTransfer identity epoch expected) .scope) := by
  unfold ReleaseStore.reverseTransfer
  rw [post_bind]
  apply lockScope_post fun _ => trivial
  simp only [post_bind,post_ite,post_raise,post_fetch]
  split
  · trivial
  rename_i howned
  split
  · trivial
  rename_i r hrecord
  simp only [post_bind,post_ite,post_raise,post_fetch]
  split
  · trivial
  split
  · trivial
  rename_i hsame
  apply collectDrainEvidence_post fun _ => trivial
  apply requireEmpty_post
  · intro f
    trivial
  intro hdrained
  simp only [Bool.or_eq_true,not_or,Bool.not_eq_true',Bool.not_eq_false,Bool.not_eq_true,
    decide_eq_true_eq,not_not] at howned hsame
  exact .wrote _ _ (.reverseTransfer (owns_of_ownedBy howned.1.1) howned.1.2 howned.2 hrecord
    hsame.1 hsame.2 hdrained)

theorem finishRollback_ends :
    (ReleaseStore.finishRollback identity epoch now).Post db
      (Ends db now (.finishRollback identity epoch) .scope) := by
  unfold ReleaseStore.finishRollback
  rw [post_bind]
  apply lockScope_post fun _ => trivial
  simp only [post_bind,post_ite,post_raise,post_fetch]
  split
  · trivial
  rename_i howned
  simp only [Bool.or_eq_true,not_or,Bool.not_eq_true',Bool.not_eq_false] at howned
  have howns := owns_of_ownedBy howned.1
  by_cases hphase : db.scope.phase = .rollbackWriterSwitched
  · rw [if_pos hphase]
    exact .wrote _ _ (.reopenRollback howns hphase)
  have hlast : db.scope.phase = .rollbackRetiring := by simpa [hphase] using howned.2
  rw [if_neg hphase]
  split
  · trivial
  rename_i hretired
  have hclosed : db.unclosedOutside db.scope.activeSlot = false := by simpa using hretired
  exact .wrote _ _ (.finishRollback howns hlast hclosed)

theorem retireOldInstances_ends :
    (ReleaseStore.retireOldInstances identity epoch).Post db
      (Ends db now (.retireOldInstances identity epoch) fun _ => .done) := by
  unfold ReleaseStore.retireOldInstances
  rw [post_bind]
  apply lockScope_post fun _ => trivial
  simp only [post_ite]
  split
  · trivial
  rename_i howned
  simp only [Bool.or_eq_true,not_or,Bool.not_eq_true',Bool.not_eq_false,decide_eq_true_eq,
    not_not] at howned
  exact .wrote _ _ (.retireOldInstances (owns_of_ownedBy howned.1) howned.2)

theorem abortBeforeTransfer_ends :
    (ReleaseStore.abortBeforeTransfer identity epoch now).Post db
      (Ends db now (.abortBeforeTransfer identity epoch) .scope) := by
  unfold ReleaseStore.abortBeforeTransfer
  rw [post_bind]
  apply lockScope_post fun _ => trivial
  simp only [post_bind,post_ite,post_raise,post_fetch]
  split
  · trivial
  rename_i howned
  split
  · trivial
  rename_i hcertain
  apply collectDrainEvidence_post fun _ => trivial
  simp only [post_execute]
  split
  · trivial
  simp only [Bool.or_eq_true,not_or,Bool.not_eq_true',Bool.not_eq_false,decide_eq_true_eq,
    not_not] at howned
  exact .wrote _ _ (.abortBeforeTransfer (owns_of_ownedBy howned.1) howned.2 (by simpa using hcertain))

theorem finishAbort_ends :
    (ReleaseStore.finishAbort identity epoch now).Post db
      (Ends db now (.finishAbort identity epoch) .scope) := by
  unfold ReleaseStore.finishAbort
  rw [post_bind]
  apply lockScope_post fun _ => trivial
  simp only [post_bind,post_ite,post_raise,post_fetch]
  split
  · trivial
  rename_i howned
  split
  · trivial
  rename_i hretired
  apply collectDrainEvidence_post fun _ => trivial
  simp only [post_execute]
  split
  · trivial
  simp only [Bool.or_eq_true,not_or,Bool.not_eq_true',Bool.not_eq_false,decide_eq_true_eq,
    not_not] at howned
  exact .wrote _ _ (.finishAbort (owns_of_ownedBy howned.1.1) howned.1.2 howned.2
    (by simpa using hretired))

theorem strictScope_post {scope : String} {Q : Except Failure ScopeRow → Db → Prop}
    (hrefused : ∀ f, Q (.error f) db) (hok : db.scope.scope = scope → Q (.ok db.scope) db) :
    (strictScope scope).Post db Q := by
  unfold strictScope
  simp only [post_bind,post_fetch]
  split
  · exact hrefused _
  · rename_i hscope
    exact hok (not_not.mp hscope)

variable {instanceId : String}

theorem strictInstance_post {Q : Except Failure InstanceRow → Db → Prop}
    (hrefused : ∀ f, Q (.error f) db)
    (hok : ∀ i, db.getInstance instanceId = some i → Q (.ok i) db) :
    (strictInstance instanceId).Post db Q := by
  unfold strictInstance
  simp only [post_bind,post_fetch]
  split
  · exact hrefused _
  · rename_i i hfound
    exact hok i hfound

theorem registerInstance_ends {scope instanceId config profile : String} {slot : Slot}
    {owner : Uuid} :
    (registerInstance scope instanceId slot config profile owner).Post db
      (Ends db now (.registerInstance scope instanceId slot config profile owner)
        fun _ => .done) := by
  unfold registerInstance
  rw [post_bind]
  apply strictScope_post fun _ => trivial
  intro hscope
  simp only [post_bind,post_ite,post_raise,post_fetch,post_execute]
  split
  · trivial
  rename_i hprofile
  simp only [Bool.or_eq_true,decide_eq_true_eq,not_or,not_not] at hprofile
  split
  · rename_i hnew
    simp only [Option.isNone_iff_eq_none] at hnew
    apply strictInstance_post fun _ => trivial
    intro i _
    simp only [post_pure]
    split
    · trivial
    · exact .wrote _ _ (.registerInstance hnew hprofile.1 hprofile.2)
  · apply strictInstance_post
    · intro f
      trivial
    intro i _
    simp only [post_pure]
    split
    · trivial
    · exact .answered _ rfl

theorem admitWriter_post {scope instanceId kind : String} {id : Uuid} {command parent : Option Uuid}
    {Q : Except Failure (Option Uuid) → Db → Prop} (hrefused : ∀ f, Q (.error f) db)
    (hdenied : Q (.ok none) db)
    (hok : ∀ t i, db.scope.scope = scope → t.id = id → t.instanceId = instanceId → t.epoch = epoch →
      t.commandId = command → t.kind = kind → db.Admits t parent i →
      Q (.ok (some id)) (db.insertTicket t)) :
    (admitWriter scope instanceId epoch id kind command parent).Post db Q := by
  unfold admitWriter
  rw [post_bind]
  apply strictScope_post hrefused
  intro hscope
  dsimp only
  rw [post_bind]
  apply strictInstance_post hrefused
  intro i hregistered
  simp only [post_bind,post_ite,post_fetch]
  split
  · exact hdenied
  rename_i hworks
  split
  · exact hdenied
  rename_i hentitled
  split
  · exact hrefused _
  rename_i hfresh
  split
  · exact hrefused _
  simp only [Bool.or_eq_true,not_or,Bool.not_eq_true,decide_eq_true_eq,not_not] at hworks
  obtain ⟨⟨⟨hclosed,hretiring⟩,hslot⟩,hepoch⟩ := hworks
  apply hok ⟨id,instanceId,i.slot,epoch,command,kind,.active⟩ i hscope rfl rfl rfl rfl rfl
  refine ⟨hregistered,⟨hclosed,hretiring⟩,⟨hslot,hslot⟩,hepoch,rfl,?_,?_⟩
  · simp only [Bool.and_eq_true,Bool.or_eq_true,Bool.not_eq_true',not_and_or,not_or,
      Bool.not_eq_false,Bool.not_eq_true] at hentitled
    rcases hentitled with hparent | hroot
    · exact .inl (by simpa using hparent)
    · exact .inr hroot
  · intro p hp hid
    exact hfresh (any_eq_true.mpr ⟨p,hp,by simpa using hid⟩)

theorem admitWriter_ends {scope instanceId kind : String} {id : Uuid}
    {command parent : Option Uuid} :
    (admitWriter scope instanceId epoch id kind command parent).Post db
      (Ends db now (.admitWriter scope instanceId epoch id kind command parent) .ticket) := by
  apply admitWriter_post fun _ => trivial
  · exact .answered _ rfl
  rintro t i - rfl rfl rfl rfl rfl hadmits
  rw [hadmits.epoch]
  exact .wrote _ _ (.admitWriter rfl hadmits)

variable {ticket : Uuid}

theorem settleTicket_of_settled {state : TicketState}
    (h : ∀ t ∈ db.tickets, t.id = ticket → t.instanceId = instanceId → t.state ≠ .active) :
    db.settleTicket instanceId ticket state = db := by
  have hsame : (db.settleTicket instanceId ticket state).tickets = db.tickets := by
    simp only [Db.settleTicket,updateWhere]
    rw [map_congr_left (g := id),map_id]
    intro t ht
    rw [if_neg]
    · rfl
    intro hp
    simp only [decide_eq_true_eq] at hp
    exact h t ht hp.1 hp.2.1 hp.2.2
  rw [Db.settleTicket] at hsame ⊢
  simp only at hsame
  rw [hsame]

theorem finishTicket_post {ticket : Option Uuid} {uncertain : Bool}
    {Q : Except Failure Unit → Db → Prop} (hrefused : ∀ f, Q (.error f) db)
    (hok : ∀ t ∈ db.tickets, ticket = some t.id → t.instanceId = instanceId →
      t.state = .active ∨ t.state = settledState uncertain →
      Q (.ok ()) (db.settleTicket instanceId t.id (settledState uncertain))) :
    (finishTicket instanceId ticket uncertain).Post db Q := by
  unfold finishTicket
  simp only [post_bind,post_fetch]
  split
  · rename_i hopen
    simp only [any_eq_true,decide_eq_true_eq] at hopen
    obtain ⟨t,ht,hid,howner,hactive⟩ := hopen
    subst hid
    exact hok t ht rfl howner (.inl hactive)
  rename_i hnotOpen
  split
  · exact hrefused _
  rename_i hsettled
  simp only [Bool.not_eq_true',Bool.not_eq_false,any_eq_true,decide_eq_true_eq] at hsettled
  obtain ⟨t,ht,hid,howner,hstate⟩ := hsettled
  have hsame : db.settleTicket instanceId t.id (settledState uncertain) = db := by
    apply settleTicket_of_settled
    intro p hp hpid hpowner hactive
    apply hnotOpen
    rw [any_eq_true]
    exact ⟨p,hp,by simp [hpid,hid,hpowner,hactive]⟩
  have hdone := hok t ht hid.symm howner (.inr hstate)
  rwa [hsame] at hdone

theorem finishTicket_ends {ticket : Option Uuid} {uncertain : Bool} :
    (finishTicket instanceId ticket uncertain).Post db
      (Ends db now (.finishTicket instanceId ticket uncertain) fun _ => .done) := by
  apply finishTicket_post fun _ => trivial
  rintro t - rfl - -
  exact .wrote _ _ .finishTicket

theorem enqueueCommand_ends {scope instanceId principal key hash : String} {id : Uuid}
    {envelope : CommandEnvelope} :
    (enqueueCommand scope instanceId id principal key hash envelope).Post db
      (Ends db now (.enqueueCommand scope instanceId id principal key hash envelope)
        .command) := by
  unfold enqueueCommand
  rw [post_bind]
  apply strictScope_post fun _ => trivial
  rintro rfl
  simp only [post_bind,post_ite,post_raise,post_fetch]
  split
  · trivial
  split
  · split
    · trivial
    · exact .answered _ rfl
  rename_i hnone
  simp only [post_bind,post_ite,post_raise,post_fetch]
  split
  · trivial
  rename_i hclean
  split
  · trivial
  rename_i hroom
  split
  · trivial
  rename_i hfresh
  have hnew : ∀ c ∈ db.commands, c.key ≠ (principal, key) := lookup_eq_none.mp hnone
  have hunused : ∀ c ∈ db.commands, c.id ≠ id := by
    intro c hc hid
    exact hfresh (any_eq_true.mpr ⟨c,hc,by simpa using hid⟩)
  simp only [Bool.or_eq_true,decide_eq_true_eq,not_or,Nat.not_le] at hroom
  exact .wrote _ _ (.enqueueCommand hnew (by simpa using hclean) hroom.1 hunused)

theorem claimCommand_ends {scope instanceId : String} :
    (claimCommand scope instanceId epoch ticket).Post db
      (Ends db now (.claimCommand scope instanceId epoch ticket) .claimed) := by
  unfold claimCommand
  rw [post_bind]
  apply strictScope_post fun _ => trivial
  intro hscope
  simp only [post_bind,post_ite,post_fetch]
  split
  · exact .answered _ rfl
  rename_i hopen
  simp only [Bool.or_eq_true,Bool.not_eq_true',not_or,Bool.not_eq_false] at hopen
  split
  · exact .answered _ rfl
  rename_i c hnext
  rw [post_bind]
  apply admitWriter_post fun _ => trivial
  · exact .answered _ rfl
  rintro t i - rfl rfl rfl hcommand hkind hadmits
  rw [hadmits.epoch]
  have hwrites := @Writes.claimCommand db now scope t c i hopen.1 hnext hcommand hkind hadmits
  rw [hadmits.epoch] at hwrites
  exact .wrote _ _ hwrites

theorem finishCommand_ends {instanceId result : String} {id : Uuid} {state : CommandState} :
    (finishCommand instanceId id state result).Post db
      (Ends db now (.finishCommand instanceId id state result) fun _ => .done) := by
  unfold finishCommand
  simp only [post_bind,post_ite,post_raise,post_fetch]
  split
  · trivial
  rename_i hterminal
  split
  · trivial
  rename_i c hfound
  split
  · trivial
  rename_i hexecutor
  simp only [Bool.or_eq_true,not_or,Bool.not_eq_true,decide_eq_true_eq,not_not,
    Option.any_eq_false] at hexecutor
  apply finishTicket_post fun _ => trivial
  rintro t ht hrecorded rfl hopen
  obtain rfl := (mem_of_lookup hfound).2
  have hown : ∀ e, c.executor = some e → e = t.instanceId := by
    intro e he
    have hsame := hexecutor.1 e he
    simpa using hsame
  exact .wrote _ _ (.finishCommand (by simpa using hterminal) hfound hown hexecutor.2 ht hrecorded
    hopen)

theorem assertTicket_post {Q : Except Failure Unit → Db → Prop}
    (hrefused : ∀ f, Q (.error f) db)
    (hok : db.ticketLive instanceId ticket = true → Q (.ok ()) db) :
    (assertTicket instanceId ticket).Post db Q := by
  unfold assertTicket
  simp only [post_bind,post_fetch]
  split
  · exact hrefused _
  · rename_i hlive
    exact hok (by simpa using hlive)

theorem assertTicket_ends :
    (assertTicket instanceId ticket).Post db
      (Ends db now (.assertTicket instanceId ticket) fun _ => .done) := by
  apply assertTicket_post fun _ => trivial
  · intro _
    exact .answered _ rfl

theorem closeInstance_ends {status : InstanceStatus} :
    (closeInstance instanceId status).Post db
      (Ends db now (.closeInstance instanceId status) fun _ => .done) := by
  unfold closeInstance assertInstanceQuiescent
  simp only [post_bind,post_ite,post_raise,post_fetch,post_execute,post_pure]
  split
  · trivial
  rename_i hquiescent
  simp only [Bool.or_eq_true,Bool.not_eq_true',not_or,Bool.not_eq_false] at hquiescent
  split
  · trivial
  · exact .wrote _ _ (.closeInstance hquiescent.1)

theorem claimSourceCleanup_ends {instanceId sourceRef : String} :
    (claimSourceCleanup instanceId ticket sourceRef).Post db
      (Ends db now (.claimSourceCleanup instanceId ticket sourceRef) .granted) := by
  unfold claimSourceCleanup
  rw [post_bind]
  apply assertTicket_post fun _ => trivial
  intro _
  simp only [post_bind,post_ite,post_fetch]
  split
  · exact .answered _ rfl
  rename_i hfree
  split
  · exact .answered _ rfl
  rename_i hnew
  have hunowned : ∀ r ∈ db.sourceCleanup, r.sourceRef ≠ sourceRef := by
    intro r hr href
    exact hnew (any_eq_true.mpr ⟨r,hr,by simpa using href⟩)
  exact .wrote _ _ (.claimSourceCleanup (by simpa using hfree) hunowned)

theorem finishSourceCleanup_ends {instanceId sourceRef : String} :
    (finishSourceCleanup instanceId ticket sourceRef).Post db
      (Ends db now (.finishSourceCleanup instanceId ticket sourceRef) fun _ => .done) := by
  unfold finishSourceCleanup
  rw [post_bind]
  apply assertTicket_post fun _ => trivial
  intro _
  simp only [post_bind,post_fetch,post_execute]
  split
  · trivial
  · exact .wrote _ _ .finishSourceCleanup

theorem perform_post {c : Call} {f : α → Reply} {x : Tx Db Failure α}
    {Q : Except Failure Reply → Db → Prop} (hbody : bodyOf now c = x.returning f)
    (h : x.Post db fun r db' =>
      match r with
      | .ok a => Q (.ok (f a)) db'
      | .error e => Q (.error e) db) :
    Q (db.perform now c).1 (db.perform now c).2 := by
  unfold Db.perform
  rw [hbody]
  apply Post.commit
  rw [post_returning]
  unfold Post at h ⊢
  cases hr : (x db).1 with
  | error e =>
    rw [hr] at h
    exact h
  | ok a =>
    rw [hr] at h
    exact h

theorem returning_outcome {c : Call} {f : α → Reply} {x : Tx Db Failure α}
    (hbody : bodyOf now c = x.returning f) (h : x.Post db (Ends db now c f)) :
    Outcome db now c (db.perform now c).1 (db.perform now c).2 := by
  apply perform_post hbody
  unfold Post at h ⊢
  cases hr : (x db).1 with
  | error e => exact .refused e
  | ok a =>
    rw [hr] at h
    exact h

theorem perform_outcome (db : Db) (now : Nat) (c : Call) :
    Outcome db now c (db.perform now c).1 (db.perform now c).2 := by
  cases c with
  | begin => exact returning_outcome rfl begin_ends
  | transition => exact returning_outcome rfl transition_ends
  | captureBaseline => exact returning_outcome rfl captureBaseline_ends
  | waitForDrain => exact returning_outcome rfl waitForDrain_ends
  | transferWriter => exact returning_outcome rfl transferWriter_ends
  | beginRollback => exact returning_outcome rfl beginRollback_ends
  | reverseTransfer => exact returning_outcome rfl reverseTransfer_ends
  | finishRollback => exact returning_outcome rfl finishRollback_ends
  | retireOldInstances => exact returning_outcome rfl retireOldInstances_ends
  | abortBeforeTransfer => exact returning_outcome rfl abortBeforeTransfer_ends
  | finishAbort => exact returning_outcome rfl finishAbort_ends
  | registerInstance => exact returning_outcome rfl registerInstance_ends
  | admitWriter => exact returning_outcome rfl admitWriter_ends
  | finishTicket => exact returning_outcome rfl finishTicket_ends
  | enqueueCommand => exact returning_outcome rfl enqueueCommand_ends
  | claimCommand => exact returning_outcome rfl claimCommand_ends
  | finishCommand => exact returning_outcome rfl finishCommand_ends
  | assertTicket => exact returning_outcome rfl assertTicket_ends
  | closeInstance => exact returning_outcome rfl closeInstance_ends
  | claimSourceCleanup => exact returning_outcome rfl claimSourceCleanup_ends
  | finishSourceCleanup => exact returning_outcome rfl finishSourceCleanup_ends

end Posts

end LightRAG.Release

/-!
## Runs of a scope

Every interleaving of calls, together with what else can change the rows of the scope.
-/

namespace LightRAG.Release

/-- One step of the database: a call with what it returned, the update of a `close_instance`
whose check is an earlier statement, a change of the coordination tables, or a sequence value
drawn for another scope or by a call that is rolled back. -/
inductive Event
  | call (now : Nat) (c : Call) (result : Except Failure Reply)
  | closes (instanceId : String)
  | coordination (tables : Coordination.Db)
  | draws

inductive Step (db : Db) : Event → Db → Prop
  | call (now : Nat) (c : Call) : Step db (.call now c (db.perform now c).1) (db.perform now c).2
  | closes (instanceId : String) : Step db (.closes instanceId) (db.closeInstance instanceId)
  | coordination (tables : Coordination.Db) :
      Step db (.coordination tables) { db with coordination := tables }
  | draws : Step db .draws { db with nextSequence := db.nextSequence + 1 }

/-- What `onboard` leaves: the scope is enrolled and has no other row. -/
structure Db.Enrolled (db : Db) : Prop where
  scope : ∃ scope profileHash configHash activeSlot policy,
    1 ≤ policy.queueCapacity ∧
      db.scope = .enrolled scope profileHash configHash activeSlot policy
  releases : db.releases = []
  instances : db.instances = []
  commands : db.commands = []
  tickets : db.tickets = []
  sourceCleanup : db.sourceCleanup = []

inductive Change (db : Db) : Event → Db → Prop
  | none {now : Nat} {c : Call} {result : Except Failure Reply}
      (hquiet : ∀ r, result = .ok r → c.quiet r = true) : Change db (.call now c result) db
  | wrote {now : Nat} {c : Call} {r : Reply} {db' : Db} (hwrites : Writes db now c r db') :
      Change db (.call now c (.ok r)) db'
  | closes (instanceId : String) : Change db (.closes instanceId) (db.closeInstance instanceId)
  | coordination (tables : Coordination.Db) :
      Change db (.coordination tables) { db with coordination := tables }
  | draws : Change db .draws { db with nextSequence := db.nextSequence + 1 }

theorem Outcome.change {db db' : Db} {now : Nat} {c : Call} {result : Except Failure Reply}
    (h : Outcome db now c result db') : Change db (.call now c result) db' := by
  cases h with
  | refused f =>
    apply Change.none
    intro r hr
    cases hr
  | answered r hquiet =>
    apply Change.none
    intro r' hr
    cases hr
    exact hquiet
  | wrote r _ hwrites => exact .wrote hwrites

theorem Step.change {db db' : Db} {e : Event} (h : Step db e db') : Change db e db' := by
  cases h with
  | call now c => exact (perform_outcome db now c).change
  | closes instanceId => exact .closes instanceId
  | coordination tables => exact .coordination tables
  | draws => exact .draws

def Db.execute (db : Db) : List (Nat × Call) → List Event × Db
  | [] => ([], db)
  | (now, c) :: calls =>
    let rest := (db.perform now c).2.execute calls
    (.call now c (db.perform now c).1 :: rest.1, rest.2)

theorem run_execute (db : Db) (calls : List (Nat × Call)) :
    Run Step db (db.execute calls).1 (db.execute calls).2 := by
  induction calls generalizing db with
  | nil => exact .nil _
  | cons call calls ih => exact .cons (.call _ _) (ih _)

/-- A scope after `onboard`: blue is active. -/
def enrolledDb : Db where
  coordination := ⟨some ⟨"manifest", 1, false, none⟩, [], [], [], [], [], []⟩
  scope := .enrolled "prod/main" "profile" "config" .blue ⟨2, none, none, false⟩
  releases := []
  instances := []
  commands := []
  tickets := []
  sourceCleanup := []
  nextSequence := 1

theorem enrolledDb_enrolled : enrolledDb.Enrolled where
  scope := ⟨_,_,_,_,_,by decide,rfl⟩
  releases := rfl
  instances := rfl
  commands := rfl
  tickets := rfl
  sourceCleanup := rfl

def upgrade : ReleaseIdentity where
  scope := "prod/main"
  releaseId := "r1"
  tag := "v1.2.0"
  commit := "aaaaaaaaaaaaaaaaaaaaaaaaaaaaaaaaaaaaaaaa"
  digest := "sha256:bbbbbbbbbbbbbbbbbbbbbbbbbbbbbbbbbbbbbbbbbbbbbbbbbbbbbbbbbbbbbbbb"
  configHash := "cccccccccccccccccccccccccccccccccccccccccccccccccccccccccccccccc"
  protocolVersion := 1
  valid := by decide

/-- The forward path of `upgrade`, from blue to green. -/
def upgradeCalls : List (Nat × Call) :=
  [(1, .begin upgrade 1),
    (2, .registerInstance "prod/main" "green-1" .green upgrade.configHash "profile" 7),
    (3, .transition upgrade 1 .prepared .draining),
    (4, .transition upgrade 1 .draining .readSwitched),
    (5, .transferWriter upgrade 1 ["green-1"])]

end LightRAG.Release
