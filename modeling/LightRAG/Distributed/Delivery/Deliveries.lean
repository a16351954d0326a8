import LightRAG.Distributed.Delivery.Routing

/-!
# Runs of deliveries

Every run of invocations, each cut or failing wherever it may, beside instances that register, work
and close.
-/

namespace LightRAG.Delivery
open Release Trial Table List

variable {config : Config} {w w' : World} {s s' : System}

def ClosedBut (db : Db) (slot : Slot) (ids : List String) : Prop :=
  ∀ i ∈ db.instances, i.slot = slot → i.instanceId ∉ ids → i.closed = true

def AllClosed (db : Db) (slot : Slot) : Prop :=
  ∀ i ∈ db.instances, i.slot = slot → i.closed = true

theorem closedBut_updateWhere {db : Db} {slot : Slot} {ids : List String} {p : InstanceRow → Bool}
    {f : InstanceRow → InstanceRow} (h : ClosedBut db slot ids) (hslot : ∀ i, (f i).slot = i.slot)
    (hid : ∀ i, (f i).instanceId = i.instanceId)
    (hclosed : ∀ i, i.closed = true → (f i).closed = true) :
    ClosedBut { db with instances := updateWhere p f db.instances } slot ids := by
  intro i hi his hnot
  obtain ⟨i₀,hi₀,⟨-,rfl⟩ | ⟨-,rfl⟩⟩ := mem_updateWhere.mp hi
  · rw [hslot] at his
    rw [hid] at hnot
    exact hclosed i₀ (h i₀ hi₀ his hnot)
  · exact h i₀ hi₀ his hnot

theorem closedBut_step {db db' : Db} {e : Release.Event} {slot : Slot} {ids : List String}
    (hstep : Release.Step db e db') (h : ClosedBut db slot ids) :
    ClosedBut db' slot (joinedBy e ++ ids) := by
  have hweaken : ClosedBut db slot (joinedBy e ++ ids) := by
    intro i hi his hnot
    apply h i hi his
    intro hmem
    exact hnot (mem_append_right _ hmem)
  cases hstep.change with
  | none _ | coordination _ | draws => exact hweaken
  | closes _ => exact closedBut_updateWhere h (fun _ => rfl) (fun _ => rfl) (fun _ _ => rfl)
  | wrote hwrites =>
    cases hwrites with
    | closeInstance =>
      exact closedBut_updateWhere h (fun _ => rfl) (fun _ => rfl) (fun _ _ => rfl)
    | retireOldInstances =>
      exact closedBut_updateWhere h (fun _ => rfl) (fun _ => rfl) (fun _ hc => hc)
    | registerInstance =>
      intro i hi his hnot
      obtain hold | rfl := mem_append.mp hi |>.imp_right mem_singleton.mp
      · exact hweaken i hold his hnot
      · exact absurd mem_cons_self hnot
    | _ => exact h

/-- The slot whose instances were found closed has no open one but those that have registered
since. -/
def World.SeenClosed (w : World) : Prop :=
  ∀ slot, w.closedSeen = some slot → ClosedBut w.db slot w.joined

theorem World.applied_frame {p : Patch} (h : w.applied config p = some w') :
    w'.db = w.db ∧ w'.closedSeen = w.closedSeen ∧ w'.joined = w.joined := by
  cases p with
  | selector version old target =>
    simp only [World.applied,Option.ite_none_right_eq_some] at h
    obtain ⟨-,hw'⟩ := h
    cases hw'
    exact ⟨rfl,rfl,rfl⟩
  | spec slot version container | scale slot version =>
    simp only [World.applied] at h
    cases hd : w.deployments slot with
    | none => simp [hd] at h
    | some d =>
      simp only [hd,Option.ite_none_right_eq_some] at h
      obtain ⟨-,hw'⟩ := h
      cases hw'
      exact ⟨rfl,rfl,rfl⟩

namespace World.SeenClosed

theorem frame (h : w.SeenClosed) (hdb : w'.db = w.db) (hseen : w'.closedSeen = w.closedSeen)
    (hjoined : w'.joined = w.joined) : w'.SeenClosed := by
  intro slot hslot
  rw [hseen] at hslot
  rw [hdb,hjoined]
  exact h slot hslot

theorem effect (h : w.SeenClosed) {q : Action} (hneeds : w.Needs q) (now rounds : Nat) :
    (w.effect config now rounds q).2.SeenClosed := by
  cases q with
  | store c =>
    intro slot hslot
    have hkept := closedBut_step (.call now c) (h slot hslot)
    cases c <;> first | exact hneeds.elim | exact hkept
  | unfinished slot =>
    intro slot' hslot' i hi his _
    simp only [World.effect] at hslot'
    split at hslot'
    · rename_i hcount
      cases hslot'
      have hnone := countP_eq_zero.mp hcount i hi
      simpa [his] using hnone
    · cases hslot'
  | verifiedPods slot configHash digest =>
    unfold World.effect
    dsimp only
    split
    · exact h
    · split <;> exact h
  | observeRoute slots pods =>
    unfold World.effect
    dsimp only
    split <;> exact h
  | createDeployment slot container =>
    unfold World.effect
    dsimp only
    split <;> exact h
  | patch p =>
    unfold World.effect
    dsimp only
    split
    · exact h
    · rename_i w' happlied
      obtain ⟨hdb,hseen,hjoined⟩ := World.applied_frame happlied
      exact h.frame hdb hseen hjoined
  | _ => exact h

theorem performs (h : w.SeenClosed) {q : Action} (hneeds : w.Needs q)
    {a : Except Failure q.Value} (hperforms : Performs config q w a w') : w'.SeenClosed := by
  cases hperforms with
  | done now rounds => exact h.effect hneeds now rounds
  | failed => cases q <;> exact h
  | effected _ _ now rounds => exact h.effect hneeds now rounds

theorem outside (h : w.SeenClosed) {e : Surroundings} (hstep : e.Step w w') : w'.SeenClosed := by
  cases hstep with
  | @database e db he hdb =>
    intro slot hslot
    exact closedBut_step hdb (h slot hslot)
  | pods | endpoints | touchService | touchDeployment => exact h

end World.SeenClosed

def transfers : Call → Bool
  | .transferWriter _ _ _ | .reverseTransfer _ _ _ => true
  | _ => false

/-- What a delivery owes the readers at an action: the writer moves to the slot that the read
route was observed on, the Deployment of the active slot stays, and a slot is scaled down only
when nothing of it is in use. -/
def World.Respects (w : World) : Action → Prop
  | .store c => ∀ now reply, (w.db.perform now c).1 = .ok reply →
      if transfers c then w.RoutedTo (w.db.perform now c).2.scope.activeSlot
      else (w.db.perform now c).2.scope.activeSlot = w.db.scope.activeSlot
  | .createDeployment slot _ | .patch (.spec slot _ _) => slot ≠ w.db.scope.activeSlot
  | .patch (.scale slot _) => w.Inactive slot ∧ AllClosed w.db slot
  | _ => True

/-- The instances that have registered in a slot since the runner counted its open ones are
closed when it is scaled down. -/
def World.Undisturbed (w : World) : Action → Prop
  | .patch (.scale slot _) => ∀ i ∈ w.db.instances, i.slot = slot → i.instanceId ∈ w.joined →
      i.closed = true
  | _ => True

theorem World.Sound.respects_store (h : w.Sound) {c : Call} (hneeds : w.Needs (.store c)) :
    w.Respects (.store c) := by
  intro now reply hreply
  have houtcome := perform_outcome w.db now c
  rw [hreply] at houtcome
  generalize (w.db.perform now c).2 = db at *
  cases houtcome with
  | answered _ hquiet =>
    cases c with
    | transferWriter | reverseTransfer => cases reply <;> cases hquiet
    | _ => rfl
  | wrote _ _ hwrites =>
    cases hwrites with
    | transferWriter _ _ _ hcandidate _ _ _ =>
      show w.RoutedTo (w.db.scope.candidateSlot.getD w.db.scope.activeSlot)
      rw [hcandidate]
      exact (hneeds _ hcandidate).1
    | reverseTransfer howns hphase _ hrecord _ _ _ =>
      exact (hneeds _ (World.candidate_of_rollback h.lockstep howns hphase hrecord)).1
    | _ => rfl

theorem World.Sound.respects (h : w.Sound) (hseen : w.SeenClosed) {q : Action}
    (hneeds : w.Needs q) : w.Respects q ↔ w.Undisturbed q := by
  cases q with
  | store c => exact iff_of_true (h.respects_store hneeds) trivial
  | createDeployment slot container => exact iff_of_true hneeds.notActive trivial
  | patch p =>
    cases p with
    | selector => exact Iff.rfl
    | spec slot version container => exact iff_of_true hneeds.notActive trivial
    | scale slot version =>
      constructor
      · intro hrespects i hi his _
        exact hrespects.2 i hi his
      · intro hundisturbed
        refine ⟨hneeds.1,?_⟩
        intro i hi his
        by_cases hjoined : i.instanceId ∈ w.joined
        · exact hundisturbed i hi his hjoined
        · exact hseen slot hneeds.2 i hi his hjoined
  | _ => exact Iff.rfl

namespace System

/-- The Service selects the slot of a scope that was just enrolled, which was observed up, and no
runner is active. -/
structure Initial (s : System) : Prop where
  enrolled : s.world.db.Enrolled
  selector : s.world.service.selector = .slot s.world.db.scope.activeSlot
  observed : s.world.observedUp s.world.db.scope.activeSlot = true
  unseen : s.world.closedSeen = none
  idle : s.runner = none

/-- The invariant holds and the runner keeps to its contract. -/
structure Sound (config : Config) (s : System) : Prop where
  world : s.world.Sound
  seen : s.world.SeenClosed
  safe : ∀ p, s.runner = some p → (runnerContract config).Safe () p (fun _ _ => True) s.world

theorem Initial.sound (h : s.Initial) : s.Sound config := by
  refine ⟨⟨.enrolled h.enrolled,?_,h.observed,fun _ => h.selector⟩,?_,?_⟩
  · intro slot hslot
    rw [h.selector] at hslot
    obtain rfl : s.world.db.scope.activeSlot = slot := of_decide_eq_true hslot
    exact h.observed
  · intro slot hslot
    rw [h.unseen] at hslot
    cases hslot
  · intro p hp
    rw [h.idle] at hp
    cases hp

theorem Sound.allowed (h : s.Sound config) {q : Action}
    {next : Except Failure q.Value → Runner Phase} (hrunner : s.runner = some (.act q next)) :
    s.world.Needs q ∧ ∀ a w, Performs config q s.world a w →
      (runnerContract config).Safe () (next a) (fun _ _ => True) w :=
  h.safe _ hrunner s.world (World.Keeps.refl _) h.world

theorem Sound.step {e : Event} (h : s.Sound config) (hstep : Step config s e s') :
    s'.Sound config := by
  cases hstep with
  | @invoke invocation identity epoch hidle =>
    refine ⟨h.world,h.seen,?_⟩
    intro p hp
    cases hp
    exact invocation.safe epoch
  | act hrunner hperforms =>
    have hallowed := h.allowed hrunner
    refine ⟨h.world.performs hallowed.1 hperforms,h.seen.performs hallowed.1 hperforms,?_⟩
    intro p hp
    cases hp
    exact hallowed.2 _ _ hperforms
  | leave =>
    refine ⟨⟨h.world.lockstep,h.world.selected,h.world.active,h.world.settled⟩,?_,?_⟩
    · intro slot hslot
      cases hslot
    · intro p hp
      cases hp
  | outside he =>
    have hkeeps := he.keeps h.world
    refine ⟨hkeeps.1,h.seen.outside he,?_⟩
    intro p hp
    exact (h.safe p hp).interfere hkeeps.2

theorem Sound.run {events : List Event} (h : s.Sound config)
    (hrun : Run (Step config) s events s') : s'.Sound config :=
  hrun.preserves (fun _ _ _ hstep hsound => hsound.step hstep) h

/-- In every run of invocations, cut or failing wherever they may, the Service selects slots that
were observed fully up and not written since, and each action respects the readers unless it
scales down a slot in which an open instance has registered since the runner counted. -/
theorem deliveries_keep_the_route {events : List Event} (hinit : s.Initial)
    (hrun : Run (Step config) s events s') :
    (∀ slot, s'.world.service.selector.selects slot = true → s'.world.observedUp slot = true) ∧
      ∀ q next, s'.runner = some (.act q next) →
        (s'.world.Respects q ↔ s'.world.Undisturbed q) := by
  have hsound := hinit.sound.run hrun
  refine ⟨hsound.world.selected,?_⟩
  intro q next hrunner
  exact hsound.world.respects hsound.seen (hsound.allowed hrunner).1

def exampleConfig : Config where
  replicas := 1
  profileHash := "profile"
  container identity _ := .leaf identity.tag

def examplePod (uid : String) (slot : Slot) (digest configHash : String) : Pod where
  uid := uid
  ip := uid
  digest := some digest
  containerReady := true
  runningDigest := some digest
  status := some ⟨uid, slot, 1, "profile", true, true, configHash, "formats", "1"⟩

def baselineDigest : String :=
  "sha256:dddddddddddddddddddddddddddddddddddddddddddddddddddddddddddddddd"

def enrolled : System where
  world :=
    { db := enrolledDb
      service := ⟨.slot .blue, 1⟩
      deployments
        | .blue => some ⟨1, .leaf "v1.0.0", 1⟩
        | .green => none
      pods
        | .blue => [examplePod "blue-1" .blue baselineDigest "config"]
        | .green => []
      endpoints := [⟨some "blue-1", true, ["blue-1"]⟩]
      late := []
      observedUp
        | .blue => true
        | .green => false
      route := [.blue]
      closedSeen := none
      joined := [] }
  runner := none

theorem enrolled_initial : enrolled.Initial := ⟨enrolledDb_enrolled,rfl,rfl,rfl,rfl⟩

/-- A delivery is cut when it has created the Deployment of green; the abort has counted the open
instances of green. -/
def abortCounts : List Move :=
  [.invoke .advance upgrade 1] ++ List.replicate 6 (.act 1 0) ++
    [.leave, .invoke .abort upgrade 1] ++ List.replicate 16 (.act 2 0)

/-- The first instance of green registers, and the abort reads the Deployment. -/
def abortLate : List Move :=
  abortCounts ++
    [.call 3 (.registerInstance "prod/main" "green-1" .green upgrade.configHash "profile" 7),
      .act 3 0]

theorem scales_an_open_instance :
    ∃ events s next, Run (Step exampleConfig) enrolled events s ∧
      s.runner = some (.act (.patch (.scale .green 1)) next) ∧
      ¬s.world.Respects (.patch (.scale .green 1)) := by
  obtain ⟨events,s,next,hrun,hrunner,hinstances⟩ :=
    run_to_scaling (fun w => w.db.instances)
      (show (enrolled.moves exampleConfig abortLate).map
          (fun r => (r.2.scaling, r.2.world.db.instances)) =
        some (some (.green, 1),
          [⟨"green-1",.green,upgrade.configHash,"profile",7,false,false⟩])
        by decide)
  refine ⟨events,s,next,hrun,hrunner,?_⟩
  intro hrespects
  have hopen := hrespects.2 ⟨"green-1",.green,upgrade.configHash,"profile",7,false,false⟩
  rw [hinstances] at hopen
  cases hopen mem_cons_self rfl

/-- Without an instance of green the same abort scales down a closed slot. -/
theorem deliveries_keep_the_route_abort :
    ∃ events s next, Run (Step exampleConfig) enrolled events s ∧
      s.runner = some (.act (.patch (.scale .green 1)) next) ∧
      s.world.Respects (.patch (.scale .green 1)) := by
  obtain ⟨events,s,next,hrun,hrunner,hinstances⟩ :=
    run_to_scaling (fun w => w.db.instances)
      (show (enrolled.moves exampleConfig (abortCounts ++ [.act 3 0])).map
          (fun r => (r.2.scaling, r.2.world.db.instances)) = some (some (.green, 1), [])
        by decide)
  refine ⟨events,s,next,hrun,hrunner,?_⟩
  apply ((deliveries_keep_the_route enrolled_initial hrun).2 _ next hrunner).mpr
  intro i hi
  rw [hinstances] at hi
  cases hi

end System

end LightRAG.Delivery
