import LightRAG.Distributed.Delivery.Contract

/-!
# What the transport establishes

The procedures that only read leave the row of the scope and the selector, and what they return says
what they have seen.
-/

namespace LightRAG.Delivery
open Release Trial Function

namespace World

/-- The row of the scope stays, and no slot is written. -/
structure Steady (w w' : World) : Prop where
  scope : w'.db.scope = w.db.scope
  observedUp : ∀ s, w.observedUp s = true → w'.observedUp s = true

/-- Nothing but what the runner has seen changes. -/
structure Quiet (w w' : World) : Prop extends w.Steady w' where
  selector : w'.service.selector = w.service.selector

variable {w w₁ w₂ w₃ : World}

theorem Steady.trans (h : w₁.Steady w₂) (h' : w₂.Steady w₃) : w₁.Steady w₃ :=
  ⟨h'.scope.trans h.scope,fun s hs => h'.observedUp s (h.observedUp s hs)⟩

theorem Quiet.refl (w : World) : w.Quiet w := ⟨⟨rfl,fun _ => id⟩,rfl⟩

theorem Quiet.trans (h : w₁.Quiet w₂) (h' : w₂.Quiet w₃) : w₁.Quiet w₃ :=
  ⟨h.toSteady.trans h'.toSteady,h'.selector.trans h.selector⟩

theorem Keeps.quiet (h : w₁.Keeps w₂) : w₁.Quiet w₂ :=
  ⟨⟨h.scope,fun s hs => by rw [h.observedUp]; exact hs⟩,h.selector⟩

end World

/-- The actions that write neither the database nor the cluster. -/
def Action.quiet : Action → Bool
  | .store (.waitForDrain _ _) => true
  | .store _ | .createDeployment _ _ | .patch _ => false
  | _ => true

variable {config : Config} {w : World} {α β : Type}

theorem quiet_performs {q : Action} (hq : q.quiet = true) {a : Except Failure q.Value} {w' : World}
    (h : Performs config q w a w') : w.Quiet w' := by
  have heffect : ∀ now rounds, w.Quiet (w.effect config now rounds q).2 := by
    intro now rounds
    cases q with
    | store c =>
      cases c with
      | waitForDrain identity epoch =>
        have houtcome := perform_outcome w.db now (.waitForDrain identity epoch)
        show w.Quiet { w with db := (w.db.perform now (.waitForDrain identity epoch)).2 }
        generalize (w.db.perform now (.waitForDrain identity epoch)).1 = r at *
        generalize (w.db.perform now (.waitForDrain identity epoch)).2 = db at *
        cases houtcome with
        | refused => exact .refl w
        | answered => exact .refl w
        | wrote _ _ hwrites => cases hwrites
      | _ => cases hq
    | verifiedPods slot configHash digest =>
      unfold World.effect
      dsimp only
      split
      · exact .refl w
      · split
        · exact .refl w
        · refine ⟨⟨rfl,?_⟩,rfl⟩
          intro s hs
          show Function.update w.observedUp slot true s = true
          by_cases hslot : s = slot
          · rw [hslot,update_self]
          · rw [update_of_ne hslot]
            exact hs
    | observeRoute slots pods =>
      unfold World.effect
      dsimp only
      split
      · exact .refl w
      · exact ⟨⟨rfl,fun _ => id⟩,rfl⟩
    | unfinished slot => exact ⟨⟨rfl,fun _ => id⟩,rfl⟩
    | createDeployment => cases hq
    | patch => cases hq
    | _ => exact .refl w
  cases h with
  | done now rounds => exact heffect now rounds
  | failed =>
    cases q with
    | patch => cases hq
    | _ => exact .refl w
  | effected _ _ now rounds => exact heffect now rounds

theorem effect_of_performs {q : Action} {a : q.Value} {w' : World}
    (h : Performs config q w (.ok a) w') :
    ∃ now rounds, w.effect config now rounds q = (.ok a, w') := by
  generalize hr : (Except.ok a : Except Failure q.Value) = r at h
  cases h with
  | done now rounds => exact ⟨now,rounds,rfl⟩
  | failed => cases hr
  | effected => cases hr

/-- The runner may take the actions of the procedure, and a value it returns satisfies `Q`. -/
def Yields (config : Config) (x : Runner α) (Q : α → World → Prop) (w : World) : Prop :=
  Ends (runnerContract config) () x (fun r t => ∀ a, r = .ok a → Q a t) w

/-- The same for a procedure that stays quiet, however it ends. -/
def Reads (config : Config) (x : Runner α) (Q : α → World → Prop) (w : World) : Prop :=
  Ends (runnerContract config) () x (fun r t => w.Quiet t ∧ ∀ a, r = .ok a → Q a t) w

section Rules

variable {Q : α → World → Prop} {R : β → World → Prop} {x : Runner α} {f : α → Runner β}

theorem yields_pure {a : α} (h : Q a w) : Yields config (pure a) Q w := by
  rintro _ ⟨⟩
  exact h

theorem yields_raise (e : Failure) : Yields config (raise e : Runner α) Q w := by
  rintro _ ⟨⟩

theorem yields_bind (h : Yields config x (fun a t => Yields config (f a) R t) w) :
    Yields config (x >>= f) R w := by
  refine (ends_bind x f).mpr (Ends.mono h ?_)
  intro r t hr
  cases r with
  | ok a => exact hr a rfl
  | error e =>
    rintro _ ⟨⟩

theorem Yields.mono {Q' : α → World → Prop} (h : Yields config x Q w)
    (himp : ∀ a t, Q a t → Q' a t) : Yields config x Q' w :=
  Ends.mono h fun _ t hr a ha => himp a t (hr a ha)

theorem Yields.bind (h : Yields config x Q w) (hf : ∀ a t, Q a t → Yields config (f a) R t) :
    Yields config (x >>= f) R w := yields_bind (h.mono hf)

theorem yields_ask {q : Action} {Q : q.Value → World → Prop}
    (h : ∀ t, w.Keeps t → t.Sound → t.Needs q ∧
      ∀ a u, u.Sound → Performs config q t (.ok a) u → Q a u) : Yields config (ask q) Q w := by
  intro t hkeeps hsound
  obtain ⟨hneeds,hpost⟩ := h t hkeeps hsound
  refine ⟨hneeds,?_⟩
  rintro _ u hperforms a rfl
  exact hpost a u (hsound.performs hneeds hperforms) hperforms

theorem Reads.yields (h : Reads config x Q w) :
    Yields config x (fun a t => w.Quiet t ∧ Q a t) w :=
  Ends.mono h fun _ _ hr a ha => ⟨hr.1,hr.2 a ha⟩

theorem reads_pure {a : α} (h : Q a w) : Reads config (pure a) Q w := by
  refine ⟨.refl w,?_⟩
  rintro _ ⟨⟩
  exact h

theorem reads_raise (e : Failure) : Reads config (raise e : Runner α) Q w := by
  refine ⟨.refl w,?_⟩
  rintro _ ⟨⟩

theorem reads_bind (h : Reads config x (fun a t => Reads config (f a) R t) w) :
    Reads config (x >>= f) R w := by
  refine (ends_bind x f).mpr (Ends.mono h ?_)
  rintro r t ⟨hquiet,hr⟩
  cases r with
  | ok a =>
    apply Ends.mono (hr a rfl)
    rintro r' u ⟨hquiet',hr'⟩
    exact ⟨hquiet.trans hquiet',hr'⟩
  | error e =>
    refine ⟨hquiet,?_⟩
    rintro _ ⟨⟩

theorem Reads.mono {Q' : α → World → Prop} (h : Reads config x Q w)
    (himp : ∀ a t, w.Quiet t → Q a t → Q' a t) : Reads config x Q' w :=
  Ends.mono h fun _ t hr => ⟨hr.1,fun a ha => himp a t hr.1 (hr.2 a ha)⟩

theorem Reads.bind (h : Reads config x Q w)
    (hf : ∀ a t, w.Quiet t → Q a t → Reads config (f a) R t) : Reads config (x >>= f) R w :=
  reads_bind (h.mono hf)

theorem reads_ask {q : Action} (hq : q.quiet = true) {Q : q.Value → World → Prop}
    (h : ∀ t a u, w.Keeps t → Performs config q t (.ok a) u → Q a u) :
    Reads config (ask q) Q w := by
  intro t hkeeps _
  constructor
  · cases q with
    | store c => cases c <;> trivial
    | createDeployment => cases hq
    | patch => cases hq
    | _ => trivial
  · intro r u hperforms
    refine ⟨hkeeps.quiet.trans (quiet_performs hq hperforms),?_⟩
    rintro a rfl
    exact h t a u hkeeps hperforms

theorem reads_retrying (h : ∀ t, w.Quiet t → Reads config x Q t) (n : Nat) :
    Reads config (retrying x n) Q w := by
  induction n generalizing w with
  | zero => exact h w (.refl w)
  | succ n ih =>
    refine (ends_handle x _).mpr (Ends.mono (h w (.refl w)) ?_)
    rintro r t ⟨hquiet,hr⟩
    cases r with
    | ok a => exact ⟨hquiet,hr⟩
    | error e =>
      cases e with
      | unavailable message =>
        have hagain := ih fun u hu => h u (hquiet.trans hu)
        apply Ends.mono hagain
        rintro r' u ⟨hquiet',hr'⟩
        exact ⟨hquiet.trans hquiet',hr'⟩
      | _ =>
        refine ⟨hquiet,?_⟩
        rintro _ ⟨⟩

end Rules

section Observations

variable {identity : ReleaseIdentity}

theorem reads_expectedSlot (slot : Slot) :
    Reads config (Transport.expectedSlot identity slot) (fun _ _ => True) w := by
  apply reads_bind
  apply reads_ask rfl
  intro t previous u _ _
  cases previous with
  | none => exact reads_raise _
  | some previous =>
    dsimp only
    split
    · exact reads_pure trivial
    · cases previous.digest with
      | none => exact reads_raise _
      | some digest => exact reads_pure trivial

theorem reads_verifiedPods (slot : Slot) (configHash digest : Option String) :
    Reads config (ask (.verifiedPods slot configHash digest))
      (fun _ t => t.observedUp slot = true) w := by
  apply reads_ask rfl
  intro t pods u _ hperforms
  obtain ⟨now,rounds,heffect⟩ := effect_of_performs hperforms
  simp only [World.effect] at heffect
  split at heffect
  · cases heffect
  · split at heffect
    · cases heffect
    · cases heffect
      exact update_self ..

theorem reads_expectedPods (slot : Slot) :
    Reads config (Transport.expectedPods identity slot) (fun _ t => t.observedUp slot = true) w := by
  apply (reads_expectedSlot slot).bind
  intro expected t _ _
  exact reads_verifiedPods slot _ _

theorem reads_gatherPods (slots : List Slot) :
    Reads config (Transport.gatherPods identity slots)
      (fun _ t => ∀ s ∈ slots, t.observedUp s = true) w := by
  induction slots generalizing w with
  | nil => exact reads_pure (by simp)
  | cons slot slots ih =>
    apply (reads_expectedPods slot).bind
    intro pods t _ hslot
    apply ih.bind
    intro rest u hquiet hslots
    apply reads_pure
    intro s hs
    obtain rfl | hs := List.mem_cons.mp hs
    · exact hquiet.observedUp _ hslot
    · exact hslots s hs

theorem reads_observe (slots : List Slot) :
    Reads config (Transport.observe identity slots)
      (fun _ t => t.route = slots ∧ ∀ s ∈ slots, t.observedUp s = true) w := by
  apply (reads_gatherPods slots).bind
  intro pods t _ hslots
  apply reads_ask rfl
  intro t' _ u hkeeps hperforms
  obtain ⟨now,rounds,heffect⟩ := effect_of_performs hperforms
  simp only [World.effect] at heffect
  split at heffect
  · cases heffect
  · cases heffect
    refine ⟨rfl,?_⟩
    intro s hs
    show t'.observedUp s = true
    rw [hkeeps.observedUp]
    exact hslots s hs

theorem reads_waitObserve (slots : List Slot) :
    Reads config (Transport.waitObserve identity slots)
      (fun _ t => t.route = slots ∧ ∀ s ∈ slots, t.observedUp s = true) w := by
  apply reads_bind
  apply reads_ask rfl
  intro t rounds u _ _
  apply reads_retrying
  intro v _
  exact reads_observe slots

theorem reads_verifyCandidate (slot : Slot) :
    Reads config (Transport.verifyCandidate identity slot)
      (fun _ t => t.observedUp slot = true) w := by
  apply reads_bind
  apply reads_ask rfl
  intro t current u _ _
  apply (reads_verifiedPods slot _ _).bind
  intro candidates v _ hup
  split
  · apply (reads_expectedPods _).bind
    intro old v' hquiet _
    split
    · exact reads_raise _
    · exact reads_pure (hquiet.observedUp _ hup)
  · exact reads_pure hup

theorem reads_verifyRollbackCandidate (target : Slot) :
    Reads config (Transport.verifyRollbackCandidate identity target)
      (fun _ t => t.observedUp target = true) w := by
  apply (reads_expectedPods target).bind
  intro pods t _ hup
  apply reads_bind
  apply reads_ask rfl
  intro t' current u hkeeps hperforms
  have hup' : u.observedUp target = true := by
    apply (quiet_performs rfl hperforms).observedUp
    rw [hkeeps.observedUp]
    exact hup
  apply (reads_verifiedPods _ _ _).bind
  intro active v hquiet _
  split
  · exact reads_raise _
  · exact reads_pure (hquiet.observedUp _ hup')

theorem reads_verifyRoute (target : Slot) :
    Reads config (Transport.verifyRoute identity target)
      (fun _ t => t.RoutedTo target ∧ t.observedUp target = true) w := by
  apply reads_bind
  apply reads_ask rfl
  intro t svc u _ hperforms
  obtain ⟨now,rounds,heffect⟩ := effect_of_performs hperforms
  cases heffect
  split
  · exact reads_raise _
  rename_i hselector
  rw [not_not] at hselector
  apply (reads_waitObserve [target]).bind
  intro _ v hquiet hseen
  apply reads_ask rfl
  intro t' _ v' hkeeps hperforms'
  obtain ⟨now',rounds',heffect'⟩ := effect_of_performs hperforms'
  cases heffect'
  refine ⟨⟨?_,?_⟩,?_⟩
  · rw [hkeeps.selector,hquiet.selector]
    exact hselector
  · rw [hkeeps.route]
    exact hseen.1
  · rw [hkeeps.observedUp]
    exact hseen.2 target (by simp)

end Observations

end LightRAG.Delivery
