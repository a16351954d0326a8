import LightRAG.Distributed.Delivery.Orchestrator
import LightRAG.Distributed.Release.Handover

/-!
# The contract of a delivery runner

The read route is the active slot's whenever the write gate is open; the runner moves it only under
the closed gate, between slots it has seen fully up.
-/

namespace LightRAG.Delivery
open Release Trial Table Option Function

namespace World

/-- The Service selects slots that were observed fully up, and with an open gate the active slot
alone. -/
structure Sound (w : World) : Prop where
  lockstep : Lockstep w.db
  selected : ∀ s, w.service.selector.selects s = true → w.observedUp s = true
  active : w.observedUp w.db.scope.activeSlot = true
  settled : w.db.scope.phase.gated = false → w.service.selector = .slot w.db.scope.activeSlot

structure Keeps (w w' : World) : Prop where
  scope : w'.db.scope = w.db.scope
  selector : w'.service.selector = w.service.selector
  observedUp : w'.observedUp = w.observedUp
  route : w'.route = w.route
  closedSeen : w'.closedSeen = w.closedSeen

theorem Keeps.refl (w : World) : w.Keeps w := ⟨rfl,rfl,rfl,rfl,rfl⟩

theorem Keeps.trans {w₁ w₂ w₃ : World} (h : w₁.Keeps w₂) (h' : w₂.Keeps w₃) : w₁.Keeps w₃ :=
  ⟨h'.scope.trans h.scope,h'.selector.trans h.selector,h'.observedUp.trans h.observedUp,
    h'.route.trans h.route,h'.closedSeen.trans h.closedSeen⟩

structure RoutedTo (w : World) (s : Slot) : Prop where
  selector : w.service.selector = .slot s
  observed : w.route = [s]

structure Inactive (w : World) (s : Slot) : Prop where
  notActive : s ≠ w.db.scope.activeSlot
  unselected : w.service.selector.selects s = false

/-- What the runner has to have established when it issues an action. -/
def Needs (w : World) : Action → Prop
  | .store (.transferWriter _ _ _) | .store (.reverseTransfer _ _ _) =>
    ∀ s, w.db.scope.candidateSlot = some s → w.RoutedTo s ∧ w.observedUp s = true
  | .store (.abortBeforeTransfer _ _) => w.service.selector = .slot w.db.scope.activeSlot
  | .store (.registerInstance _ _ _ _ _ _) => False
  | .createDeployment slot _ | .patch (.spec slot _ _) => w.Inactive slot
  | .patch (.scale slot _) => w.Inactive slot ∧ w.closedSeen = some slot
  | .patch (.selector _ _ target) =>
    w.db.scope.phase.gated = true ∧ ∀ s, target.selects s = true → w.observedUp s = true
  | _ => True

section Store

variable {w : World} {config : Config} {now rounds : Nat}

theorem Sound.setDb (h : w.Sound) {db : Db} (hlock : Lockstep db)
    (hactive : db.scope.activeSlot = w.db.scope.activeSlot)
    (hgate : db.scope.phase.gated = false → w.db.scope.phase.gated = false) :
    ({ w with db := db } : World).Sound := by
  refine ⟨hlock,h.selected,?_,?_⟩
  · rw [hactive]
    exact h.active
  · intro hopen
    show w.service.selector = .slot db.scope.activeSlot
    rw [hactive]
    exact h.settled (hgate hopen)

theorem Sound.moveTo (h : w.Sound) {db : Db} (hlock : Lockstep db)
    (hselector : w.service.selector = .slot db.scope.activeSlot) :
    ({ w with db := db } : World).Sound := by
  refine ⟨hlock,h.selected,?_,fun _ => hselector⟩
  apply h.selected
  rw [hselector]
  exact decide_eq_true rfl

theorem candidate_of_rollback {identity : ReleaseIdentity} {epoch : Nat} {r : ReleaseRow}
    (h : Lockstep w.db) (howns : w.db.Owns identity epoch)
    (hphase : w.db.scope.phase = .rollbackDraining)
    (hrecord : w.db.release identity.releaseId = some r) :
    w.db.scope.candidateSlot = some r.previous.activeSlot := by
  obtain ⟨r',hr',-,-,hmatches⟩ := h.recorded _ howns.owner
  rw [hrecord] at hr'
  cases hr'
  apply hmatches.candidate
  rw [hphase]
  rfl

theorem gated_of_advances {p next : Phase} (h : p.Advances next) (hopen : next.gated = false) :
    p.gated = false := by
  cases h with
  | drain => rfl
  | switchRead => cases hopen
  | retire => rfl
  | complete => rfl

theorem gated_of_atRest {p : Phase} (h : p.atRest = true) : p.gated = false := by
  cases p <;> first | rfl | cases h

theorem Sound.store (h : w.Sound) {c : Call} (hneeds : w.Needs (.store c)) :
    ({ w with db := (w.db.perform now c).2 } : World).Sound := by
  have hlock := h.lockstep.step (.call now c : Release.Step w.db _ _)
  have houtcome := perform_outcome w.db now c
  generalize (w.db.perform now c).1 = r at *
  generalize (w.db.perform now c).2 = db at *
  cases houtcome with
  | refused => exact h
  | answered => exact h
  | wrote _ _ hwrites =>
    cases hwrites with
    | begin _ _ _ hrest => exact h.setDb hlock rfl fun _ => gated_of_atRest hrest
    | transition _ hadvances _ => exact h.setDb hlock rfl (gated_of_advances hadvances)
    | transferWriter _ _ _ hcandidate _ _ _ =>
      apply h.moveTo hlock
      show _ = Selector.slot (w.db.scope.candidateSlot.getD w.db.scope.activeSlot)
      rw [hcandidate]
      exact (hneeds _ hcandidate).1.selector
    | beginRollback => exact h.setDb hlock rfl fun hopen => Bool.noConfusion hopen
    | reverseTransfer howns hphase _ hrecord _ _ _ =>
      apply h.moveTo hlock
      exact (hneeds _ (candidate_of_rollback h.lockstep howns hphase hrecord)).1.selector
    | reopenRollback _ hphase => exact h.setDb hlock rfl fun _ => by rw [hphase]; rfl
    | finishRollback _ hphase _ => exact h.setDb hlock rfl fun _ => by rw [hphase]; rfl
    | abortBeforeTransfer => exact h.moveTo hlock hneeds
    | finishAbort _ hphase _ _ => exact h.setDb hlock rfl fun _ => by rw [hphase]; rfl
    | _ => exact h.setDb hlock rfl id

end Store

section Cluster

variable {w : World} {config : Config} {slot : Slot}

theorem Sound.putDeployment (h : w.Sound) (hinactive : w.Inactive slot) (d : Deployment) :
    (w.putDeployment slot d).Sound := by
  refine ⟨h.lockstep,?_,?_,h.settled⟩
  · intro s hs
    have hne : s ≠ slot := by
      rintro rfl
      have hselected : w.service.selector.selects s = true := hs
      rw [hinactive.unselected] at hselected
      cases hselected
    show Function.update w.observedUp slot false s = true
    rw [update_of_ne hne]
    exact h.selected s hs
  · show Function.update w.observedUp slot false w.db.scope.activeSlot = true
    rw [update_of_ne (Ne.symm hinactive.notActive)]
    exact h.active

theorem Sound.observe (h : w.Sound) (slot : Slot) :
    ({ w with observedUp := Function.update w.observedUp slot true } : World).Sound := by
  have hgrows : ∀ s, w.observedUp s = true →
      Function.update w.observedUp slot true s = true := by
    intro s hs
    by_cases hslot : s = slot
    · rw [hslot,update_self]
    · rw [update_of_ne hslot]
      exact hs
  exact ⟨h.lockstep,fun s hs => hgrows s (h.selected s hs),hgrows _ h.active,h.settled⟩

theorem Sound.select (h : w.Sound) (hgated : w.db.scope.phase.gated = true) {target : Selector}
    (hup : ∀ s, target.selects s = true → w.observedUp s = true) (version : Nat) :
    ({ w with service := ⟨target, version⟩, route := [] } : World).Sound := by
  refine ⟨h.lockstep,hup,h.active,?_⟩
  intro hopen
  have hopen' : w.db.scope.phase.gated = false := hopen
  rw [hgated] at hopen'
  cases hopen'

theorem Sound.applied (h : w.Sound) {p : Patch} (hneeds : w.Needs (.patch p)) {w' : World}
    (happlied : w.applied config p = some w') : w'.Sound := by
  cases p with
  | selector version old target =>
    simp only [World.applied,ite_none_right_eq_some] at happlied
    obtain ⟨-,hw'⟩ := happlied
    cases hw'
    exact h.select hneeds.1 hneeds.2 _
  | spec slot version container =>
    simp only [World.applied] at happlied
    cases hd : w.deployments slot with
    | none => simp [hd] at happlied
    | some d =>
      simp only [hd,ite_none_right_eq_some] at happlied
      obtain ⟨-,hw'⟩ := happlied
      cases hw'
      exact h.putDeployment hneeds _
  | scale slot version =>
    simp only [World.applied] at happlied
    cases hd : w.deployments slot with
    | none => simp [hd] at happlied
    | some d =>
      simp only [hd,ite_none_right_eq_some] at happlied
      obtain ⟨-,hw'⟩ := happlied
      cases hw'
      exact h.putDeployment hneeds.1 _

theorem Sound.effect (h : w.Sound) {q : Action} (hneeds : w.Needs q) (now rounds : Nat) :
    (w.effect config now rounds q).2.Sound := by
  cases q with
  | store c => exact h.store hneeds
  | unfinished slot => exact ⟨h.lockstep,h.selected,h.active,h.settled⟩
  | verifiedPods slot configHash digest =>
    unfold World.effect
    dsimp only
    split
    · exact h
    · split
      · exact h
      · exact h.observe slot
  | observeRoute slots pods =>
    unfold World.effect
    dsimp only
    split
    · exact h
    · exact ⟨h.lockstep,h.selected,h.active,h.settled⟩
  | createDeployment slot container =>
    unfold World.effect
    dsimp only
    split
    · exact h
    · exact h.putDeployment hneeds _
  | patch p =>
    unfold World.effect
    dsimp only
    split
    · exact h
    · rename_i w' happlied
      exact h.applied hneeds happlied
  | _ => exact h

theorem Sound.lost (h : w.Sound) (q : Action) : (w.lost q).Sound := by
  cases q with
  | patch p => exact ⟨h.lockstep,h.selected,h.active,h.settled⟩
  | _ => exact h

theorem Sound.performs (h : w.Sound) {q : Action} (hneeds : w.Needs q)
    {a : Except Failure q.Value} {w' : World} (hperforms : Performs config q w a w') : w'.Sound := by
  cases hperforms with
  | done now rounds => exact h.effect hneeds now rounds
  | failed => exact h.lost q
  | effected _ _ now rounds => exact h.effect hneeds now rounds

end Cluster

end World

def runnerContract (config : Config) :
    Contract Unit World Action fun q => Except Failure q.Value where
  perform _ q w a w' := Performs config q w a w'
  inv := World.Sound
  keeps _ w w' := w.Keeps w'
  needs _ q w := w.Needs q
  refl _ := World.Keeps.refl
  trans h h' := h.trans h'
  step hinv hneeds hperform := ⟨hinv.performs hneeds hperform, fun _ hne => absurd rfl hne⟩

/-- The transactions of the runner, and the calls of the instances, that leave the row of the
scope. -/
def keepsRow : Call → Bool
  | .captureBaseline _ _ _ | .retireOldInstances _ _ => true
  | c => instanceCall c

theorem scope_of_keepsRow {db : Db} {now : Nat} {c : Call} (hc : keepsRow c = true) :
    (db.perform now c).2.scope = db.scope := by
  have houtcome := perform_outcome db now c
  generalize (db.perform now c).1 = r at *
  generalize (db.perform now c).2 = db' at *
  cases houtcome with
  | refused => rfl
  | answered => rfl
  | wrote _ _ hwrites => cases hwrites <;> first | rfl | cases hc

theorem Surroundings.Step.keeps {w w' : World} {e : Surroundings} (h : e.Step w w')
    (hsound : w.Sound) : w'.Sound ∧ w.Keeps w' := by
  cases h with
  | @database e db he hstep =>
    have hlock := hsound.lockstep.step hstep
    have hscope : db.scope = w.db.scope := by
      cases hstep with
      | call now c =>
        apply scope_of_keepsRow
        cases c <;> first | rfl | exact he
      | closes => rfl
      | coordination => rfl
      | draws => rfl
    have hdb : ({ w with db := db } : World).Sound := by
      apply hsound.setDb hlock
      · rw [hscope]
      · rw [hscope]
        exact id
    exact ⟨⟨hdb.lockstep,hdb.selected,hdb.active,hdb.settled⟩,hscope,rfl,rfl,rfl,rfl⟩
  | pods =>
    exact ⟨⟨hsound.lockstep,hsound.selected,hsound.active,hsound.settled⟩,⟨rfl,rfl,rfl,rfl,rfl⟩⟩
  | endpoints =>
    exact ⟨⟨hsound.lockstep,hsound.selected,hsound.active,hsound.settled⟩,⟨rfl,rfl,rfl,rfl,rfl⟩⟩
  | touchService =>
    exact ⟨⟨hsound.lockstep,hsound.selected,hsound.active,hsound.settled⟩,⟨rfl,rfl,rfl,rfl,rfl⟩⟩
  | touchDeployment =>
    exact ⟨⟨hsound.lockstep,hsound.selected,hsound.active,hsound.settled⟩,⟨rfl,rfl,rfl,rfl,rfl⟩⟩

end LightRAG.Delivery
