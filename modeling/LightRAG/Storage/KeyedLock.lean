import LightRAG.Framework.Procedure

/-!
# The multiprocess keyed lock

The holder table of the manager server. A holder record is the lock of its key.
-/

namespace LightRAG.KeyedLock
open Proc Function

abbrev Process := Nat

/-- What a client sends with `try_acquire`. -/
structure Claimant where
  ownerPid : Option Nat
  leaseId : String
deriving DecidableEq

/-- A holder record: the claimant and the stamp of the server. -/
structure Record extends Claimant where
  startDelta : Option Int
deriving DecidableEq

/-- What the server reads about processes while it probes one record. -/
structure Readings where
  linux : Bool
  pidAlive : Nat → Bool
  startDelta : Nat → Option Int
  tolerance : Int

def holderDead (readings : Readings) (record : Record) : Bool :=
  match record.ownerPid with
  | none => false
  | some pid =>
    if !readings.pidAlive pid then true
    else
      match record.startDelta, readings.startDelta pid with
      | some d0, some d1 =>
        if readings.linux then d1 ≠ d0 else d0 + readings.tolerance < d1
      | _, _ => false

/-- The table of the server and the processes that died. The history variable `granted` holds
the leases of a key whose `try_acquire` returned `True` and that were not released since. -/
structure World where
  holders : String → Option Record
  dead : Process → Bool
  granted : String → String → Bool

namespace World

def hold (key : String) (record : Record) (w : World) : World :=
  { w with
    holders := Function.update w.holders key (some record)
    granted := Function.update w.granted key
      (Function.update (w.granted key) record.leaseId true) }

/-- The block of `try_acquire` for an empty slot. -/
def claim (key : String) (candidate : Record) (w : World) : Bool × World :=
  match w.holders key with
  | none => (true, w.hold key candidate)
  | some _ => (false, w)

/-- The block of `try_acquire` for a dead holder: only the probed record is replaced. -/
def reclaim (key : String) (snap candidate : Record) (w : World) : Bool × World :=
  match w.holders key with
  | some cur => if cur.leaseId = snap.leaseId then (true, w.hold key candidate) else (false, w)
  | none => (false, w)

/-- The block of `release`. -/
def pop (key leaseId : String) (w : World) : Bool × World :=
  let released := { w with
    granted := Function.update w.granted key (Function.update (w.granted key) leaseId false) }
  match w.holders key with
  | some cur =>
    if cur.leaseId = leaseId then
      (true, { released with holders := Function.update w.holders key none })
    else (false, released)
  | none => (false, released)

end World

/-- The atomic steps of the calls: the blocks under the lock of the table, and the readings
between them. -/
inductive Action
  | get (key : String)
  | probe (snap : Record)
  | sample (ownerPid : Option Nat)
  | claim (key : String) (candidate : Record)
  | reclaim (key : String) (snap candidate : Record)
  | pop (key leaseId : String)
deriving DecidableEq

abbrev Answer : Action → Type
  | .get _ => Option Record
  | .sample _ => Option Int
  | _ => Bool

abbrev Call := Proc Action Answer

def get (key : String) : Call (Option Record) := ask (Action.get key)

def probe (snap : Record) : Call Bool := ask (Action.probe snap)

def sample (ownerPid : Option Nat) : Call (Option Int) := ask (Action.sample ownerPid)

def tryAcquire (key : String) (record : Claimant) : Call Bool := do
  let snap ← get key
  match snap with
  | none =>
    let startDelta ← sample record.ownerPid
    ask (Action.claim key ⟨record, startDelta⟩)
  | some snap =>
    let dead ← probe snap
    if dead = true then
      let startDelta ← sample record.ownerPid
      ask (Action.reclaim key snap ⟨record, startDelta⟩)
    else
      pure false

def release (key leaseId : String) : Call Bool := ask (Action.pop key leaseId)

/-- The polls of `_KeyedLeaseLock.acquire`, given up after some number of them. -/
def pollAcquire (key : String) (record : Claimant) : Nat → Call Bool
  | 0 => pure false
  | polls + 1 => do
    let granted ← tryAcquire key record
    if granted = true then pure true else pollAcquire key record polls

section Interleavings

-- Lease ids are unique: each belongs to the process that drew it.
variable (owner : String → Process)

/-- One atomic step of a call. A probe reads anything, but finds only dead owners dead. -/
inductive Perform (w : World) : (q : Action) → Answer q → World → Prop
  | get (key : String) : Perform w (.get key) (w.holders key) w
  | probe (readings : Readings) (snap : Record)
      (htruthful : holderDead readings snap = true → w.dead (owner snap.leaseId) = true) :
      Perform w (.probe snap) (holderDead readings snap) w
  | sample (ownerPid : Option Nat) (startDelta : Option Int) :
      Perform w (.sample ownerPid) startDelta w
  | claim (key : String) (candidate : Record) :
      Perform w (.claim key candidate) (w.claim key candidate).1 (w.claim key candidate).2
  | reclaim (key : String) (snap candidate : Record) :
      Perform w (.reclaim key snap candidate) (w.reclaim key snap candidate).1
        (w.reclaim key snap candidate).2
  | pop (key leaseId : String) :
      Perform w (.pop key leaseId) (w.pop key leaseId).1 (w.pop key leaseId).2

inductive Enters : Process × Nat → World → Call Bool → Prop
  | tryAcquire {i : Process × Nat} {w : World} (key : String) (record : Claimant)
      (hown : owner record.leaseId = i.1) : Enters i w (tryAcquire key record)
  | pollAcquire {i : Process × Nat} {w : World} (key : String) (record : Claimant) (polls : Nat)
      (hown : owner record.leaseId = i.1) : Enters i w (pollAcquire key record polls)
  | release {i : Process × Nat} {w : World} (key leaseId : String)
      (hown : owner leaseId = i.1) : Enters i w (release key leaseId)

inductive Dies (w : World) : World → Prop
  | mk (p : Process) : Dies w { w with dead := Function.update w.dead p true }

/-- A lease that a live process holds is the one in the slot. -/
def World.Exclusive (w : World) : Prop :=
  ∀ key leaseId, w.granted key leaseId = true → w.dead (owner leaseId) = false →
    ∃ record, w.holders key = some record ∧ record.leaseId = leaseId

/-- A record is replaced only where its owner died, and released by its owner. -/
def Needs (i : Process × Nat) (q : Action) (w : World) : Prop :=
  match q with
  | .reclaim _ snap _ => w.dead (owner snap.leaseId) = true
  | .pop _ leaseId => owner leaseId = i.1
  | _ => True

variable {owner} {w w' : World} {key : String}

theorem World.Exclusive.hold (h : w.Exclusive owner) {candidate : Record}
    (hdead : ∀ cur, w.holders key = some cur → w.dead (owner cur.leaseId) = true) :
    (w.hold key candidate).Exclusive owner := by
  intro k leaseId hgranted halive
  simp only [World.hold] at hgranted halive ⊢
  by_cases hk : k = key
  · subst hk
    rw [update_self] at hgranted ⊢
    refine ⟨candidate,rfl,?_⟩
    by_cases hlease : leaseId = candidate.leaseId
    · exact hlease.symm
    · rw [update_of_ne hlease] at hgranted
      obtain ⟨cur,hcur,hheld⟩ := h k leaseId hgranted halive
      have hgone := hdead cur hcur
      rw [hheld,halive] at hgone
      cases hgone
  · rw [update_of_ne hk] at hgranted ⊢
    exact h k leaseId hgranted halive

theorem World.Exclusive.claim (h : w.Exclusive owner) (candidate : Record) :
    (w.claim key candidate).2.Exclusive owner := by
  unfold World.claim
  split
  · rename_i hempty
    apply h.hold
    intro cur hcur
    rw [hempty] at hcur
    cases hcur
  · exact h

theorem World.Exclusive.reclaim (h : w.Exclusive owner) {snap : Record} (candidate : Record)
    (hdead : w.dead (owner snap.leaseId) = true) :
    (w.reclaim key snap candidate).2.Exclusive owner := by
  unfold World.reclaim
  split
  · rename_i cur hcur
    split
    · rename_i hsame
      apply h.hold
      intro cur' hcur'
      rw [hcur] at hcur'
      cases hcur'
      rw [hsame]
      exact hdead
    · exact h
  · exact h

theorem granted_pop (k leaseId leaseId' : String) :
    (w.pop key leaseId).2.granted k leaseId' =
      if k = key ∧ leaseId' = leaseId then false else w.granted k leaseId' := by
  have hreleased : (w.pop key leaseId).2.granted =
      Function.update w.granted key (Function.update (w.granted key) leaseId false) := by
    unfold World.pop
    split
    · split <;> rfl
    · rfl
  rw [hreleased]
  by_cases hk : k = key
  · subst hk
    by_cases hlease : leaseId' = leaseId
    · simp [hlease]
    · simp [hlease]
  · simp [hk]

theorem dead_pop (leaseId : String) : (w.pop key leaseId).2.dead = w.dead := by
  unfold World.pop
  split
  · split <;> rfl
  · rfl

theorem holders_pop (k leaseId : String) :
    (w.pop key leaseId).2.holders k =
      if k = key ∧ (w.holders key).any (fun cur => cur.leaseId = leaseId) then none
      else w.holders k := by
  unfold World.pop
  cases hheld : w.holders key with
  | none => simp
  | some cur =>
    by_cases hlease : cur.leaseId = leaseId
    · by_cases hk : k = key
      · subst hk
        simp [hlease]
      · simp [hlease,hk]
    · simp [hlease]

theorem World.Exclusive.pop (h : w.Exclusive owner) (leaseId : String) :
    (w.pop key leaseId).2.Exclusive owner := by
  intro k leaseId' hgranted halive
  rw [granted_pop] at hgranted
  rw [dead_pop] at halive
  split at hgranted
  · cases hgranted
  · rename_i hother
    obtain ⟨record,hrecord,hlease⟩ := h k leaseId' hgranted halive
    refine ⟨record,?_,hlease⟩
    rw [holders_pop,if_neg]
    · exact hrecord
    · rintro ⟨rfl,hany⟩
      rw [hrecord] at hany
      simp only [Option.any_some,decide_eq_true_eq] at hany
      exact hother ⟨rfl,hlease.symm.trans hany⟩

theorem Perform.dead {q : Action} {a : Answer q} (h : Perform owner w q a w') :
    w'.dead = w.dead := by
  cases h with
  | get | probe | sample => rfl
  | claim key candidate =>
    unfold World.claim
    split <;> rfl
  | reclaim key snap candidate =>
    unfold World.reclaim
    split
    · split <;> rfl
    · rfl
  | pop key leaseId => exact dead_pop leaseId

variable (owner) in
def lockContract : Contract (Process × Nat) World Action Answer where
  perform := fun _ q w a w' => Perform owner w q a w'
  inv := World.Exclusive owner
  keeps := fun _ w w' => ∀ p, w.dead p = true → w'.dead p = true
  needs := Needs owner
  refl := fun _ _ _ hp => hp
  trans := fun h h' p hp => h' p (h p hp)
  step := by
    intro i q w a w' hinv hneeds hperform
    refine ⟨?_, ?_⟩
    · cases hperform with
      | get | probe | sample => exact hinv
      | claim key candidate => exact hinv.claim candidate
      | reclaim key snap candidate => exact hinv.reclaim candidate hneeds
      | pop key leaseId => exact hinv.pop leaseId
    · intro j _ p hp
      rw [hperform.dead]
      exact hp

section Calls

variable {i : Process × Nat} {record : Claimant} {post : Bool → World → Prop}

theorem tryAcquire_safe (hpost : ∀ a t, post a t) :
    (lockContract owner).Safe i (tryAcquire key record) post w := by
  unfold tryAcquire get
  rw [Contract.safe_bind,Contract.safe_ask]
  intro w₁ _ _
  refine ⟨trivial,?_⟩
  intro snap w₂ _
  cases snap with
  | none =>
    intro w₃ _ _
    refine ⟨trivial,?_⟩
    intro startDelta w₄ _ w₅ _ _
    exact ⟨trivial,fun a u _ => hpost a u⟩
  | some snap =>
    dsimp only
    rw [probe,Contract.safe_bind,Contract.safe_ask]
    intro w₃ _ _
    refine ⟨trivial,?_⟩
    intro dead w₄ hprobe
    split
    · rename_i hdead
      have hgone : w₄.dead (owner snap.leaseId) = true := by
        cases hprobe with
        | probe readings snap htruthful => exact htruthful hdead
      intro w₅ hkeeps₅ _
      refine ⟨trivial,?_⟩
      intro startDelta w₆ hsample w₇ hkeeps₇ _
      have hstill : w₇.dead (owner snap.leaseId) = true := by
        apply hkeeps₇
        rw [hsample.dead]
        exact hkeeps₅ _ hgone
      exact ⟨hstill,fun a u _ => hpost a u⟩
    · exact hpost false w₄

theorem pollAcquire_safe (polls : Nat) :
    (lockContract owner).Safe i (pollAcquire key record polls) (fun _ _ => True) w := by
  induction polls generalizing w with
  | zero => exact trivial
  | succ polls ih =>
    rw [pollAcquire,Contract.safe_bind]
    apply tryAcquire_safe
    intro granted t
    split
    · exact trivial
    · exact ih

theorem enters_safe {p : Call Bool} (h : Enters owner i w p) :
    (lockContract owner).Safe i p (fun _ _ => True) w := by
  cases h with
  | tryAcquire key record _ => exact tryAcquire_safe fun _ _ => trivial
  | pollAcquire key record polls _ => exact pollAcquire_safe polls
  | release key leaseId hown =>
    intro t _ _
    exact ⟨hown,fun _ _ _ => trivial⟩

theorem dies_kept (h : Dies w w') (hinv : w.Exclusive owner) :
    w'.Exclusive owner ∧ ∀ p, w.dead p = true → w'.dead p = true := by
  obtain ⟨p⟩ := h
  have hmore : ∀ p', w.dead p' = true → Function.update w.dead p true p' = true := by
    intro p' hp'
    by_cases h : p' = p
    · rw [h,update_self]
    · rw [update_of_ne h]
      exact hp'
  refine ⟨?_,hmore⟩
  intro k leaseId hgranted halive
  apply hinv k leaseId hgranted
  rw [Bool.eq_false_iff] at halive ⊢
  exact fun hdead => halive (hmore _ hdead)

end Calls

abbrev Clients := Pool (Process × Nat) World Action Answer Bool

abbrev Event := Pool.Event (Process × Nat) Action Answer

variable (owner) in
abbrev Step : Clients → Event → Clients → Prop :=
  Pool.Step (lockContract owner) (Enters owner) Dies

structure Clients.Initial (P : Clients) : Prop where
  holders : ∀ key, P.shared.holders key = none
  granted : ∀ key leaseId, P.shared.granted key leaseId = false
  running : ∀ i, P.running i = none

theorem Clients.Initial.sound {P : Clients} (h : P.Initial) :
    Pool.Sound (lockContract owner) P where
  inv := by
    intro key leaseId hgranted
    rw [h.granted] at hgranted
    cases hgranted
  safe := by
    intro i p hp
    rw [h.running] at hp
    cases hp

theorem kept_of_alive {P P' : Clients} {e : Event} {record : Record}
    (hsound : Pool.Sound (lockContract owner) P) (hstep : Step owner P e P')
    (hheld : P.shared.holders key = some record)
    (halive : P.shared.dead (owner record.leaseId) = false)
    (hchanged : P'.shared.holders key ≠ some record) :
    ∃ n, e = .act (owner record.leaseId, n) (.pop key record.leaseId) true := by
  have hreplaced : ∀ k candidate, k ≠ key → (P.shared.hold k candidate).holders key =
      P.shared.holders key := by
    intro k candidate hk
    exact update_of_ne (Ne.symm hk) ..
  cases hstep with
  | enter => exact absurd hheld hchanged
  | leave => exact absurd hheld hchanged
  | outside hdies =>
    obtain ⟨p⟩ := hdies
    exact absurd hheld hchanged
  | act hrunning hperform =>
    have hneeds := (hsound.allowed hrunning).1
    rename_i i q next a t
    cases hperform with
    | get | probe | sample => exact absurd hheld hchanged
    | claim k candidate =>
      exfalso
      apply hchanged
      show (P.shared.claim k candidate).2.holders key = some record
      unfold World.claim
      split
      · rename_i hempty
        rw [hreplaced,hheld]
        rintro rfl
        rw [hheld] at hempty
        cases hempty
      · exact hheld
    | reclaim k snap candidate =>
      exfalso
      apply hchanged
      show (P.shared.reclaim k snap candidate).2.holders key = some record
      unfold World.reclaim
      split
      · rename_i cur hcur
        split
        · rename_i hsame
          rw [hreplaced,hheld]
          rintro rfl
          rw [hheld] at hcur
          cases hcur
          have hgone : P.shared.dead (owner snap.leaseId) = true := hneeds
          rw [← hsame,halive] at hgone
          cases hgone
        · exact hheld
      · exact hheld
    | pop k leaseId =>
      have hpopped : (P.shared.pop k leaseId).2.holders key ≠ some record := hchanged
      rw [holders_pop] at hpopped
      split at hpopped
      · rename_i hremoved
        obtain ⟨rfl,hany⟩ := hremoved
        rw [hheld] at hany
        simp only [Option.any_some,decide_eq_true_eq] at hany
        subst hany
        have hown : owner record.leaseId = i.1 := hneeds
        refine ⟨i.2,?_⟩
        rw [hown]
        simp [World.pop,hheld]
      · exact absurd hheld hpopped

/-- Mutual exclusion of the keyed lock, in every state that any interleaving of calls and deaths
reaches and in every step from there. -/
theorem keyed_lock_mutual_exclusion (owner : String → Process) {P₀ P : Clients}
    {events : List Event} (hinit : P₀.Initial) (hrun : Run (Step owner) P₀ events P) :
    (∀ key leaseId leaseId', P.shared.granted key leaseId = true →
      P.shared.dead (owner leaseId) = false → P.shared.granted key leaseId' = true →
      P.shared.dead (owner leaseId') = false → leaseId = leaseId') ∧
    (∀ i key leaseId a P', Step owner P (.act i (.pop key leaseId) a) P' →
      (∀ record, P.shared.holders key = some record → record.leaseId ≠ leaseId) →
      P'.shared.holders = P.shared.holders ∧ a = false) ∧
    (∀ e P' key record, Step owner P e P' → P.shared.holders key = some record →
      P.shared.dead (owner record.leaseId) = false → P'.shared.holders key ≠ some record →
      ∃ n, e = .act (owner record.leaseId, n) (.pop key record.leaseId) true) := by
  have hsound : Pool.Sound (lockContract owner) P :=
    hinit.sound.run (fun _ _ _ henters _ => enters_safe henters)
      (fun _ _ hdies hinv => ⟨(dies_kept hdies hinv).1,fun _ => (dies_kept hdies hinv).2⟩) hrun
  refine ⟨?_,?_,?_⟩
  · intro key leaseId leaseId' hgranted halive hgranted' halive'
    obtain ⟨record,hrecord,hlease⟩ := hsound.inv key leaseId hgranted halive
    obtain ⟨record',hrecord',hlease'⟩ := hsound.inv key leaseId' hgranted' halive'
    rw [hrecord] at hrecord'
    cases hrecord'
    rw [← hlease,hlease']
  · intro i key leaseId a P' hstep hother
    cases hstep with
    | act hrunning hperform =>
      cases hperform with
      | pop =>
        have hnone : (P.shared.holders key).any (fun cur => cur.leaseId = leaseId) = false := by
          cases hheld : P.shared.holders key with
          | none => rfl
          | some record => simpa using hother record hheld
        refine ⟨?_,?_⟩
        · funext k
          rw [holders_pop,hnone]
          simp
        · cases hheld : P.shared.holders key with
          | none => simp [World.pop,hheld]
          | some record => simp [World.pop,hheld,hother record hheld]
  · intro e P' key record hstep hheld halive hchanged
    exact kept_of_alive hsound hstep hheld halive hchanged

end Interleavings

def idle : Clients := ⟨⟨fun _ => none, fun _ => false, fun _ _ => false⟩, fun _ => none⟩

theorem idle_initial : idle.Initial := ⟨fun _ => rfl,fun _ _ => rfl,fun _ => rfl⟩

/-- The first process takes the lock, and the second one finds it alive. -/
def twoAttempts (held : Record) (dead : Bool) : List Event :=
  [.enter (0, 0), .act (0, 0) (.get "doc") none, .act (0, 0) (.sample (some 100)) (some 7),
    .act (0, 0) (.claim "doc" held) true, .enter (1, 0), .act (1, 0) (.get "doc") (some held),
    .act (1, 0) (.probe held) dead]

theorem keyed_lock_mutual_exclusion_twoAttempts :
    let owner := fun leaseId => if leaseId = "a" then 0 else 1
    let held : Record := ⟨⟨some 100,"a"⟩,some 7⟩
    ∃ P : Clients, Run (Step owner) idle (twoAttempts held false) P ∧
      P.shared.granted "doc" "a" = true ∧
      ∀ leaseId, P.shared.granted "doc" leaseId = true →
        P.shared.dead (owner leaseId) = false → leaseId = "a" := by
  intro owner held
  have hprobe : ∀ w, Perform owner w (.probe held) false w := by
    intro w
    have halive : holderDead ⟨true,fun _ => true,fun _ => none,0⟩ held = false := by decide
    have hstep : Perform owner w (.probe held)
        (holderDead ⟨true,fun _ => true,fun _ => none,0⟩ held) w := by
      apply Perform.probe
      intro hdead
      cases hdead
    rwa [halive] at hstep
  obtain ⟨P,hrun,hgranted,halive⟩ : ∃ P : Clients,
      Run (Step owner) idle (twoAttempts held false) P ∧ P.shared.granted "doc" "a" = true ∧
        P.shared.dead 0 = false :=
    ⟨_,.cons (.enter rfl (.tryAcquire "doc" ⟨some 100,"a"⟩ rfl)) <|
      .cons (.act rfl (.get "doc")) <|
      .cons (.act rfl (.sample (some 100) (some 7))) <|
      .cons (.act rfl (.claim "doc" held)) <|
      .cons (.enter rfl (.tryAcquire "doc" ⟨some 200,"b"⟩ rfl)) <|
      .cons (.act rfl (.get "doc")) <|
      .cons (.act rfl (hprobe _)) <| .nil _,rfl,rfl⟩
  refine ⟨P,hrun,hgranted,?_⟩
  intro leaseId hother hlive
  exact (keyed_lock_mutual_exclusion owner idle_initial hrun).1 "doc" leaseId "a" hother hlive
    hgranted halive

end LightRAG.KeyedLock
