import LightRAG.Framework.Run
import LightRAG.Framework.Table

/-!
# The global concurrency gate

The state of a group is one value under one key.
-/

namespace LightRAG.Gate
open Table List

/-- An entry of `leases`, with its key. -/
structure Lease (T : Type) where
  leaseId : String
  pid : Nat
  updatedAt : T
  suspectSince : Option T
deriving DecidableEq

/-- An entry of `waiters`; its key is the text of the pid. -/
structure Waiter (T : Type) where
  pid : Nat
  waitStart : T
  lastPoll : T
deriving DecidableEq

structure GateState (T : Type) where
  leases : List (Lease T)
  waiters : List (Waiter T)
deriving DecidableEq

/-- `_global_concurrency_limits` and the three intervals. -/
structure Settings (T : Type) where
  limits : String → Option Int
  heartbeatTtl : T
  suspectGrace : T
  waiterStaleTtl : T

/-- The namespace of the leases, the pids that are alive and the lease ids drawn so far. -/
structure World (T : Type) where
  ns : String → Option (GateState T)
  alive : Nat → Bool
  drawn : List String

section Operations

variable {T : Type}
variable (s : Settings T)

/-- `get_global_concurrency_limit`. -/
def Settings.limit (group : String) : Option Int :=
  if group = "" then none else s.limits group

/-- `_load_gate_state`. -/
def World.load (w : World T) (group : String) : GateState T := (w.ns group).getD ⟨[], []⟩

/-- `ns[group] = state`. -/
def World.store (w : World T) (group : String) (state : GateState T) : World T :=
  { w with ns := Function.update w.ns group (some state) }

def World.leases (w : World T) (group : String) : List (Lease T) := (w.load group).leases

theorem leases_store (w : World T) (group group' : String) (state : GateState T) :
    (w.store group' state).leases group = if group = group' then state.leases else w.leases group := by
  unfold World.leases World.load World.store
  by_cases h : group = group'
  · simp [h]
  · simp [h]

structure World.Initial (w : World T) : Prop where
  ns : ∀ group, w.ns group = none
  drawn : w.drawn = []

theorem World.Initial.leases {w : World T} (h : w.Initial) (group : String) :
    w.leases group = [] := by
  unfold World.leases World.load
  rw [h.ns]
  rfl

/-- The accumulators of the loop over the leases. -/
structure Reaped (T : Type) where
  leases : List (Lease T)
  live : Nat
  changed : Bool
  reclaimedPids : List Nat

def Reaped.reclaim (r : Reaped T) (lease : Lease T) : Reaped T :=
  { r with changed := true, reclaimedPids := lease.pid :: r.reclaimedPids }

def Reaped.keep (r : Reaped T) (lease : Lease T) (changed : Bool) : Reaped T :=
  { r with leases := r.leases ++ [lease], live := r.live + 1, changed := r.changed || changed }

variable [Sub T] [LT T] [DecidableLT T]

def Settings.reapLease (alive : Nat → Bool) (now : T) (r : Reaped T)
    (lease : Lease T) : Reaped T :=
  if !alive lease.pid then r.reclaim lease
  else if s.heartbeatTtl < now - lease.updatedAt then
    match lease.suspectSince with
    | none => r.keep { lease with suspectSince := some now } true
    | some suspectSince =>
      if s.suspectGrace < now - suspectSince then r.reclaim lease else r.keep lease false
  else if lease.suspectSince.isSome then r.keep { lease with suspectSince := none } true
  else r.keep lease false

def Settings.reapLeases (alive : Nat → Bool) (now : T) (leases : List (Lease T)) :
    Reaped T :=
  leases.foldl (s.reapLease alive now) ⟨[], 0, false, []⟩

/-- The waiter occupies its seat no longer. -/
def Settings.dropsWaiter (alive : Nat → Bool) (now : T) (reclaimedPids : List Nat)
    (waiter : Waiter T) : Bool :=
  waiter.pid ∈ reclaimedPids || !alive waiter.pid || s.waiterStaleTtl < now - waiter.lastPoll

/-- `_reap_gate_state`: the state, the number of live leases and whether anything changed. -/
def Settings.reap (alive : Nat → Bool) (now : T) (state : GateState T) :
    GateState T × Nat × Bool :=
  let r := s.reapLeases alive now state.leases
  let drops := s.dropsWaiter alive now r.reclaimedPids
  (⟨r.leases, deleteWhere drops state.waiters⟩, r.live, r.changed || state.waiters.any drops)

/-- The refreshed or new record of a waiter, under its key. -/
def setWaiter (pid : Nat) (now : T) (waiters : List (Waiter T)) : List (Waiter T) :=
  if waiters.any fun waiter => waiter.pid = pid then
    updateWhere (fun waiter => waiter.pid = pid) (fun waiter => { waiter with lastPoll := now })
      waiters
  else waiters ++ [⟨pid, now, now⟩]

def isLongestLiveWaiter [LE T] [DecidableLE T] (waiters : List (Waiter T)) (pid : Nat) : Bool :=
  let myStart := (waiters.filter fun waiter => waiter.pid = pid).getLast?.map (·.waitStart)
  let othersMin := (waiters.filter fun waiter => waiter.pid ≠ pid).foldl
    (fun least waiter =>
      if least.any fun t => ¬waiter.waitStart < t then least else some waiter.waitStart) none
  match myStart, othersMin with
  | none, _ => false
  | some _, none => true
  | some myStart, some othersMin => myStart ≤ othersMin

/-- `_acquire_global_slot`, which draws `leaseId` when it finds a free slot. -/
def World.acquire [LE T] [DecidableLE T] (s : Settings T) (group : String) (trackWait : Bool)
    (now : T) (pid : Nat) (leaseId : String) (w : World T) : (Option String × Bool) × World T :=
  match s.limit group with
  | none => ((none, false), w)
  | some limit =>
    if limit ≤ 0 then ((none, false), w)
    else
      let (state, inUse, changed) := s.reap w.alive now (w.load group)
      if limit ≤ (inUse : Int) then
        if !trackWait then
          ((none, false), if changed then w.store group state else w)
        else
          let state := { state with waiters := setWaiter pid now state.waiters }
          ((none, isLongestLiveWaiter state.waiters pid), w.store group state)
      else
        let state := {
          leases := state.leases ++ [⟨leaseId, pid, now, none⟩]
          waiters := deleteWhere (fun waiter => waiter.pid = pid) state.waiters : GateState T }
        ((some leaseId, true), { w.store group state with drawn := leaseId :: w.drawn })

omit [Sub T] [LT T] [DecidableLT T] in
/-- `clear_slot_waiter`. -/
def World.clearWaiter (group : String) (pid : Nat) (w : World T) : World T :=
  let state := w.load group
  if state.waiters.any fun waiter => waiter.pid = pid then
    w.store group { state with
      waiters := deleteWhere (fun waiter => waiter.pid = pid) state.waiters }
  else w

/-- `release_global_slot`. -/
def World.release (group leaseId : String) (w : World T) : World T :=
  let state := w.load group
  if state.leases.any fun lease => lease.leaseId = leaseId then
    w.store group { state with
      leases := deleteWhere (fun lease => lease.leaseId = leaseId) state.leases }
  else w

/-- `renew_global_slots`. -/
def World.renew (group : String) (pid : Nat) (leaseIds : List String) (now : T) (w : World T) :
    World T :=
  let state := w.load group
  if state.leases.any fun lease => lease.leaseId ∈ leaseIds then
    w.store group { state with
      leases := updateWhere (fun lease => lease.leaseId ∈ leaseIds)
        (fun lease => ⟨lease.leaseId, pid, now, none⟩) state.leases }
  else w

/-- `reconcile_global_slots`. -/
def World.reconcile (group : String) (now : T) (w : World T) : Nat × World T :=
  let (state, live, changed) := s.reap w.alive now (w.load group)
  (live, if changed then w.store group state else w)

end Operations

/-- An operation of some process, or a change of what is alive. -/
inductive Event (T : Type)
  | acquire (group : String) (trackWait : Bool) (now : T) (pid : Nat) (leaseId : String)
  | clearWaiter (group : String) (pid : Nat)
  | release (group leaseId : String)
  | renew (group : String) (pid : Nat) (leaseIds : List String) (now : T)
  | reconcile (group : String) (now : T)
  | processes (alive : Nat → Bool)

def Event.reaps {T : Type} (group : String) : Event T → Option T
  | .acquire g _ now _ _ => if g = group then some now else none
  | .reconcile g now => if g = group then some now else none
  | _ => none

def Event.renews {T : Type} (group leaseId : String) : Event T → Bool
  | .renew g _ leaseIds _ => g = group && leaseId ∈ leaseIds
  | _ => false

section Runs

variable {T : Type} [Sub T] [LT T] [DecidableLT T]

/-- What a reap leaves of a lease. -/
def Settings.survive (s : Settings T) (alive : Nat → Bool) (now : T) (lease : Lease T) :
    Option (Lease T) :=
  if !alive lease.pid then none
  else if s.heartbeatTtl < now - lease.updatedAt then
    match lease.suspectSince with
    | none => some { lease with suspectSince := some now }
    | some suspectSince => if s.suspectGrace < now - suspectSince then none else some lease
  else some { lease with suspectSince := none }

theorem reapLease_leases (s : Settings T) (alive : Nat → Bool) (now : T) (r : Reaped T)
    (lease : Lease T) :
    (s.reapLease alive now r lease).leases = r.leases ++ (s.survive alive now lease).toList ∧
      (s.reapLease alive now r lease).live =
        r.live + (s.survive alive now lease).toList.length := by
  obtain ⟨leaseId,pid,updatedAt,suspectSince⟩ := lease
  simp only [Settings.reapLease,Settings.survive]
  by_cases hdead : (!alive pid) = true
  · simp [hdead,Reaped.reclaim]
  · by_cases hexpired : s.heartbeatTtl < now - updatedAt
    · cases suspectSince with
      | none => simp [hdead,hexpired,Reaped.keep]
      | some suspectSince =>
        by_cases hgrace : s.suspectGrace < now - suspectSince
        · simp [hexpired,hgrace,Reaped.reclaim]
        · simp [hdead,hexpired,hgrace,Reaped.keep]
    · cases suspectSince with
      | none => simp [hdead,hexpired,Reaped.keep]
      | some suspectSince => simp [hdead,hexpired,Reaped.keep]

theorem reapLeases_eq (s : Settings T) (alive : Nat → Bool) (now : T) (leases : List (Lease T)) :
    (s.reapLeases alive now leases).leases = leases.filterMap (s.survive alive now) ∧
      (s.reapLeases alive now leases).live = (s.reapLeases alive now leases).leases.length := by
  have hgen : ∀ r : Reaped T, r.live = r.leases.length →
      (leases.foldl (s.reapLease alive now) r).leases =
          r.leases ++ leases.filterMap (s.survive alive now) ∧
        (leases.foldl (s.reapLease alive now) r).live =
          (leases.foldl (s.reapLease alive now) r).leases.length := by
    induction leases with
    | nil => simp
    | cons lease leases ih =>
      intro r hr
      have hturn := reapLease_leases s alive now r lease
      have hlive : (s.reapLease alive now r lease).live =
          (s.reapLease alive now r lease).leases.length := by
        rw [hturn.1,hturn.2,length_append,hr]
      have hrest := ih (s.reapLease alive now r lease) hlive
      rw [foldl_cons]
      refine ⟨?_,hrest.2⟩
      rw [hrest.1,hturn.1]
      cases hleft : s.survive alive now lease with
      | none => simp [hleft]
      | some left => simp [hleft]
  have h := hgen ⟨[],0,false,[]⟩ rfl
  exact h

theorem reap_eq (s : Settings T) (w : World T) (group : String) (now : T) :
    ∃ waiters changed, s.reap w.alive now (w.load group) =
      (⟨(w.leases group).filterMap (s.survive w.alive now), waiters⟩,
        ((w.leases group).filterMap (s.survive w.alive now)).length, changed) := by
  have hreap := reapLeases_eq s w.alive now (w.load group).leases
  unfold Settings.reap World.leases
  dsimp only
  rw [hreap.2,hreap.1]
  exact ⟨_,_,rfl⟩

variable {s : Settings T}

theorem survive_eq_none {alive : Nat → Bool} {now : T} {lease : Lease T}
    (h : s.survive alive now lease = none) :
    alive lease.pid = false ∨ ∃ t, lease.suspectSince = some t ∧ s.suspectGrace < now - t ∧
      s.heartbeatTtl < now - lease.updatedAt := by
  unfold Settings.survive at h
  split at h
  · rename_i hdead
    exact .inl (by simpa using hdead)
  · split at h
    · rename_i hexpired
      split at h
      · cases h
      · rename_i t ht
        split at h
        · rename_i hgrace
          exact .inr ⟨t,ht,hgrace,hexpired⟩
        · cases h
    · cases h

theorem leaseId_survive {alive : Nat → Bool} {now : T} {lease left : Lease T}
    (h : s.survive alive now lease = some left) : left.leaseId = lease.leaseId := by
  unfold Settings.survive at h
  split at h
  · cases h
  · split at h
    · split at h
      · cases h
        rfl
      · split at h
        · cases h
        · cases h
          rfl
    · cases h
      rfl

variable [LE T] [DecidableLE T]

inductive Step (s : Settings T) (w : World T) : Event T → World T → Prop
  | acquire (group : String) (trackWait : Bool) (now : T) (pid : Nat) (leaseId : String)
      (hfresh : leaseId ∉ w.drawn) :
      Step s w (.acquire group trackWait now pid leaseId)
        (w.acquire s group trackWait now pid leaseId).2
  | clearWaiter (group : String) (pid : Nat) :
      Step s w (.clearWaiter group pid) (w.clearWaiter group pid)
  | release (group leaseId : String) : Step s w (.release group leaseId) (w.release group leaseId)
  | renew (group : String) (pid : Nat) (leaseIds : List String) (now : T) :
      Step s w (.renew group pid leaseIds now) (w.renew group pid leaseIds now)
  | reconcile (group : String) (now : T) :
      Step s w (.reconcile group now) (w.reconcile s group now).2
  | processes (alive : Nat → Bool) : Step s w (.processes alive) { w with alive := alive }

theorem acquire_cases (s : Settings T) (w : World T) (group : String) (trackWait : Bool) (now : T)
    (pid : Nat) (leaseId : String) :
    let reaped := (w.leases group).filterMap (s.survive w.alive now)
    let w' := (w.acquire s group trackWait now pid leaseId).2
    w' = w ∨ (∃ waiters, w' = w.store group ⟨reaped,waiters⟩) ∨
      ∃ limit waiters, s.limit group = some limit ∧ (reaped.length : Int) < limit ∧
        w' = { w.store group ⟨reaped ++ [⟨leaseId,pid,now,none⟩],waiters⟩ with
          drawn := leaseId :: w.drawn } := by
  intro reaped w'
  obtain ⟨waiters,changed,hreap⟩ := reap_eq s w group now
  simp only [w',World.acquire,hreap]
  cases hlimit : s.limit group with
  | none => exact .inl rfl
  | some limit =>
    by_cases hpositive : limit ≤ 0
    · exact .inl (by simp [hpositive])
    · by_cases hfull :
          limit ≤ (((w.leases group).filterMap (s.survive w.alive now)).length : Int)
      · cases trackWait with
        | false =>
          cases changed with
          | false => exact .inl (by simp [hfull])
          | true => exact .inr (.inl ⟨waiters,by simp [reaped,hpositive,hfull]⟩)
        | true => exact .inr (.inl ⟨setWaiter pid now waiters,by simp [reaped,hpositive,hfull]⟩)
      · refine .inr (.inr ⟨limit,deleteWhere (fun waiter => waiter.pid = pid) waiters,rfl,?_,?_⟩)
        · show (((w.leases group).filterMap (s.survive w.alive now)).length : Int) < limit
          omega
        · simp [reaped,hpositive,hfull]

inductive Change (s : Settings T) (w w' : World T) (group : String) :
    Event T → List (Lease T) → Prop
  | none {e : Event T} (hrenews : ∀ lease ∈ w.leases group, e.renews group lease.leaseId = false) :
      Change s w w' group e (w.leases group)
  | reaped {e : Event T} {now : T} (hreaps : e.reaps group = some now) :
      Change s w w' group e ((w.leases group).filterMap (s.survive w.alive now))
  | granted {trackWait : Bool} {now : T} {pid : Nat} {leaseId : String} {limit : Int}
      (hlimit : s.limit group = some limit)
      (hroom : (((w.leases group).filterMap (s.survive w.alive now)).length : Int) < limit)
      (hfresh : leaseId ∉ w.drawn) (hdrawn : w'.drawn = leaseId :: w.drawn) :
      Change s w w' group (.acquire group trackWait now pid leaseId)
        ((w.leases group).filterMap (s.survive w.alive now) ++ [⟨leaseId, pid, now, Option.none⟩])
  | released {leaseId : String} :
      Change s w w' group (.release group leaseId)
        (deleteWhere (fun lease => lease.leaseId = leaseId) (w.leases group))
  | renewed {pid : Nat} {leaseIds : List String} {now : T} :
      Change s w w' group (.renew group pid leaseIds now)
        (updateWhere (fun lease => lease.leaseId ∈ leaseIds)
          (fun lease => ⟨lease.leaseId, pid, now, Option.none⟩) (w.leases group))

variable {w w' : World T} {e : Event T}

theorem Step.change (h : Step s w e w')
    (group : String) : Change s w w' group e (w'.leases group) := by
  cases h with
  | acquire group' trackWait now pid leaseId hfresh =>
    have hcases := acquire_cases s w group' trackWait now pid leaseId
    rcases hcases with hsame | ⟨waiters,hreaped⟩ | ⟨limit,waiters,hlimit,hroom,hgranted⟩
    · rw [hsame]
      exact .none fun _ _ => rfl
    · rw [hreaped,leases_store]
      split
      · rename_i hg
        subst hg
        exact .reaped (if_pos rfl)
      · exact .none fun _ _ => rfl
    · have hdrawn := congrArg World.drawn hgranted
      have hleases := congrArg (fun w' => World.leases w' group) hgranted
      rw [hleases]
      show Change s w _ group _ ((w.store group' _).leases group)
      rw [leases_store]
      split
      · rename_i hg
        subst hg
        exact .granted hlimit hroom hfresh hdrawn
      · exact .none fun _ _ => rfl
  | clearWaiter group' pid =>
    unfold World.clearWaiter
    dsimp only
    split
    · rw [leases_store]
      split
      · rename_i hg
        subst hg
        exact .none fun _ _ => rfl
      · exact .none fun _ _ => rfl
    · exact .none fun _ _ => rfl
  | release group' leaseId =>
    unfold World.release
    dsimp only
    split
    · rw [leases_store]
      split
      · rename_i hg
        subst hg
        exact .released
      · exact .none fun _ _ => rfl
    · exact .none fun _ _ => rfl
  | renew group' pid leaseIds now =>
    unfold World.renew
    dsimp only
    split
    · rw [leases_store]
      split
      · rename_i hg
        subst hg
        exact .renewed
      · rename_i hg
        apply Change.none
        simp [Event.renews,Ne.symm hg]
    · rename_i hunknown
      apply Change.none
      intro lease hlease
      by_cases hg : group' = group
      · subst hg
        simp only [any_eq_true,not_exists,not_and] at hunknown
        simp [Event.renews,hunknown lease hlease]
      · simp [Event.renews,hg]
  | reconcile group' now =>
    obtain ⟨waiters,changed,hreap⟩ := reap_eq s w group' now
    simp only [World.reconcile,hreap]
    cases changed with
    | false => exact .none fun _ _ => rfl
    | true =>
      rw [if_pos rfl,leases_store]
      split
      · rename_i hg
        subst hg
        exact .reaped (if_pos rfl)
      · exact .none fun _ _ => rfl
  | processes alive => exact .none fun _ _ => rfl

theorem Step.drawn (h : Step s w e w') :
    w.drawn ⊆ w'.drawn := by
  cases h with
  | acquire group trackWait now pid leaseId hfresh =>
    have hcases := acquire_cases s w group trackWait now pid leaseId
    rcases hcases with hsame | ⟨waiters,hreaped⟩ | ⟨limit,waiters,_,_,hgranted⟩
    · rw [hsame]
      exact List.Subset.refl _
    · rw [hreaped]
      exact List.Subset.refl _
    · rw [hgranted]
      exact subset_cons_self _ _
  | clearWaiter group pid =>
    unfold World.clearWaiter
    dsimp only
    split <;> exact List.Subset.refl _
  | release group leaseId =>
    unfold World.release
    dsimp only
    split <;> exact List.Subset.refl _
  | renew group pid leaseIds now =>
    unfold World.renew
    dsimp only
    split <;> exact List.Subset.refl _
  | reconcile group now =>
    unfold World.reconcile
    dsimp only
    split <;> exact List.Subset.refl _
  | processes alive => exact List.Subset.refl _

/-- What an event makes of a lease that is stored afterwards. -/
inductive Origin (s : Settings T) (w w' : World T) (group : String) (e : Event T)
    (lease : Lease T) : Prop
  | kept (hmem : lease ∈ w.leases group) (hrenews : e.renews group lease.leaseId = false)
  | cleared (before : Lease T) (hmem : before ∈ w.leases group)
      (hsame : lease.leaseId = before.leaseId) (hclear : lease.suspectSince = none)
  | marked {now : T} (before : Lease T) (hmem : before ∈ w.leases group)
      (hreaps : e.reaps group = some now) (hexpired : s.heartbeatTtl < now - lease.updatedAt)
      (hbefore : before.suspectSince = none)
      (hmarked : lease = { before with suspectSince := some now })
  | drawn (hfresh : lease.leaseId ∉ w.drawn) (hdrawn : lease.leaseId ∈ w'.drawn)
      (hclear : lease.suspectSince = none)

omit [LE T] [DecidableLE T] in
theorem origin_of_survive {group : String} {now : T}
    {before lease : Lease T} (hreaps : e.reaps group = some now) (hmem : before ∈ w.leases group)
    (hsurvive : s.survive w.alive now before = some lease) : Origin s w w' group e lease := by
  have hplain : ∀ l, e.renews group l = false := by
    intro l
    cases e with
    | renew => cases hreaps
    | _ => rfl
  unfold Settings.survive at hsurvive
  split at hsurvive
  · cases hsurvive
  · split at hsurvive
    · rename_i hexpired
      split at hsurvive
      · rename_i hbefore
        cases hsurvive
        exact .marked before hmem hreaps hexpired hbefore rfl
      · split at hsurvive
        · cases hsurvive
        · cases hsurvive
          exact .kept hmem (hplain _)
    · cases hsurvive
      exact .cleared before hmem rfl rfl

theorem Step.origin (h : Step s w e w')
    {group : String} {lease : Lease T} (hlease : lease ∈ w'.leases group) :
    Origin s w w' group e lease := by
  have hchange := h.change group
  generalize w'.leases group = leases at hchange hlease
  cases hchange with
  | none hrenews => exact .kept hlease (hrenews lease hlease)
  | reaped hreaps =>
    obtain ⟨before,hmem,hsurvive⟩ := mem_filterMap.mp hlease
    exact origin_of_survive hreaps hmem hsurvive
  | granted hlimit hroom hfresh hdrawn =>
    rcases mem_append.mp hlease with hold | hnew
    · obtain ⟨before,hmem,hsurvive⟩ := mem_filterMap.mp hold
      exact origin_of_survive (if_pos rfl) hmem hsurvive
    · rw [mem_singleton] at hnew
      subst hnew
      refine .drawn hfresh ?_ rfl
      rw [hdrawn]
      exact mem_cons_self
  | released => exact .kept (mem_deleteWhere.mp hlease).1 rfl
  | renewed =>
    obtain ⟨before,hmem,⟨hpick,rfl⟩ | ⟨hpick,rfl⟩⟩ := mem_updateWhere.mp hlease
    · exact .cleared before hmem rfl rfl
    · refine .kept hmem ?_
      have hother : before.leaseId ∉ _ := of_decide_eq_false hpick
      simp [Event.renews,hother]

def World.AllDrawn (w : World T) : Prop :=
  ∀ group, ∀ lease ∈ w.leases group, lease.leaseId ∈ w.drawn

theorem World.AllDrawn.step (h : w.AllDrawn)
    (hstep : Step s w e w') : w'.AllDrawn := by
  intro group lease hlease
  cases hstep.origin hlease with
  | kept hmem _ => exact hstep.drawn (h group lease hmem)
  | cleared before hmem hsame _ =>
    rw [hsame]
    exact hstep.drawn (h group before hmem)
  | marked before hmem _ _ _ hmarked =>
    rw [hmarked]
    exact hstep.drawn (h group before hmem)
  | drawn _ hdrawn _ => exact hdrawn

def World.leaseIds (w : World T) (group : String) : List String :=
  (w.leases group).map (·.leaseId)

theorem gone_step {group leaseId : String}
    (hstep : Step s w e w') (hdrawn : leaseId ∈ w.drawn) (hgone : leaseId ∉ w.leaseIds group) :
    leaseId ∉ w'.leaseIds group := by
  have habsent : ∀ lease ∈ w.leases group, lease.leaseId ≠ leaseId := by
    intro lease hlease heq
    exact hgone (mem_map.mpr ⟨lease,hlease,heq⟩)
  intro hback
  obtain ⟨lease,hlease,rfl⟩ := mem_map.mp hback
  cases hstep.origin hlease with
  | kept hmem _ => exact habsent lease hmem rfl
  | cleared before hmem hsame _ => exact habsent before hmem hsame.symm
  | marked before hmem _ _ _ hmarked => exact habsent before hmem (by rw [hmarked])
  | drawn hfresh _ _ => exact hfresh hdrawn

theorem gone_run {events : List (Event T)}
    {group leaseId : String} (hrun : Run (Step s) w events w') (hdrawn : leaseId ∈ w.drawn)
    (hgone : leaseId ∉ w.leaseIds group) : leaseId ∉ w'.leaseIds group := by
  have h : leaseId ∈ w'.drawn ∧ leaseId ∉ w'.leaseIds group := by
    refine hrun.preserves (I := fun w => leaseId ∈ w.drawn ∧ leaseId ∉ w.leaseIds group) ?_
      ⟨hdrawn,hgone⟩
    intro w e w' hstep h
    exact ⟨hstep.drawn h.1,gone_step hstep h.1 h.2⟩
  exact h.2

def World.Bounded (s : Settings T) (w : World T) : Prop :=
  ∀ group limit, s.limit group = some limit → 0 < limit →
    ((w.leases group).length : Int) ≤ limit

theorem World.Bounded.step (h : w.Bounded s)
    (hstep : Step s w e w') : w'.Bounded s := by
  intro group limit hlimit hpositive
  have hbefore := h group limit hlimit hpositive
  have hchange := hstep.change group
  generalize w'.leases group = leases at hchange
  cases hchange with
  | none _ => exact hbefore
  | reaped _ =>
    rename_i now _
    have hfewer := length_filterMap_le (s.survive w.alive now) (w.leases group)
    omega
  | granted hlimit' hroom _ _ =>
    rw [hlimit] at hlimit'
    cases hlimit'
    rw [length_append,length_singleton]
    omega
  | released =>
    rename_i leaseId
    have hfewer := length_deleteWhere_le (fun lease => lease.leaseId = leaseId) (w.leases group)
    omega
  | renewed =>
    rw [length_updateWhere]
    exact hbefore

/-- Some reap in the history saw the heartbeat of the lease expired and marked it at `t`, and no
renewal came since. -/
def MarkedSuspect (s : Settings T) (w₀ : World T) (events : List (Event T)) (w : World T)
    (group : String) (lease : Lease T) (t : T) : Prop :=
  ∃ pre mark post w₁ w₂, events = pre ++ mark :: post ∧
    Run (Step s) w₀ pre w₁ ∧ Step s w₁ mark w₂ ∧ Run (Step s) w₂ post w ∧
    mark.reaps group = some t ∧ s.heartbeatTtl < t - lease.updatedAt ∧
    { lease with suspectSince := none } ∈ w₁.leases group ∧ lease ∈ w₂.leases group ∧
    lease.suspectSince = some t ∧ ∀ e ∈ post, e.renews group lease.leaseId = false

/-- The history explains every suspect mark. -/
structure Explained (s : Settings T) (w₀ : World T) (events : List (Event T)) (w : World T) :
    Prop where
  run : Run (Step s) w₀ events w
  marks : ∀ group, ∀ lease ∈ w.leases group, ∀ t, lease.suspectSince = some t →
    MarkedSuspect s w₀ events w group lease t

theorem Explained.step {w₀ w w' : World T} {events : List (Event T)}
    (h : Explained s w₀ events w) (hstep : Step s w e w') :
    Explained s w₀ (events ++ [e]) w' := by
  refine ⟨h.run.snoc hstep,?_⟩
  intro group lease hlease t ht
  cases hstep.origin hlease with
  | kept hmem hrenews =>
    obtain ⟨pre,mark,post,w₁,w₂,rfl,hpre,hmark,hpost,hrest⟩ := h.marks group lease hmem t ht
    obtain ⟨hreaps,hexpired,hbefore,hafter,hsince,hunrenewed⟩ := hrest
    refine ⟨pre,mark,post ++ [e],w₁,w₂,by simp,hpre,hmark,hpost.snoc hstep,hreaps,
      hexpired,hbefore,hafter,hsince,?_⟩
    intro e' he'
    rcases mem_append.mp he' with hold | hlast
    · exact hunrenewed e' hold
    · rw [mem_singleton] at hlast
      rw [hlast]
      exact hrenews
  | cleared _ _ _ hclear =>
    rw [hclear] at ht
    cases ht
  | marked before hmem hreaps hexpired hbefore hmarked =>
    have hsince : lease.suspectSince = some _ := congrArg Lease.suspectSince hmarked
    rw [hsince] at ht
    cases ht
    refine ⟨events,e,[],w,w',rfl,h.run,hstep,.nil _,hreaps,hexpired,?_,hlease,hsince,by simp⟩
    have hsame : { lease with suspectSince := none } = before := by
      rw [hmarked]
      obtain ⟨leaseId,pid,updatedAt,suspectSince⟩ := before
      cases hbefore
      rfl
    rw [hsame]
    exact hmem
  | drawn _ _ hclear =>
    rw [hclear] at ht
    cases ht

theorem left_step {group : String}
    {lease : Lease T} (hstep : Step s w e w') (hmem : lease ∈ w.leases group)
    (hgone : lease.leaseId ∉ w'.leaseIds group) :
    e = .release group lease.leaseId ∨ ∃ now, e.reaps group = some now ∧
      s.survive w.alive now lease = none := by
  have habsent : ∀ lease' ∈ w'.leases group, lease'.leaseId ≠ lease.leaseId := by
    intro lease' hlease' heq
    exact hgone (mem_map.mpr ⟨lease',hlease',heq⟩)
  have hreaped : ∀ now, (∀ left, s.survive w.alive now lease = some left →
      left ∈ w'.leases group) → s.survive w.alive now lease = none := by
    intro now hall
    cases hleft : s.survive w.alive now lease with
    | none => rfl
    | some left => exact absurd (leaseId_survive hleft) (habsent left (hall left hleft))
  have hchange := hstep.change group
  generalize w'.leases group = leases at hchange habsent hreaped
  cases hchange with
  | none _ => exact absurd rfl (habsent lease hmem)
  | reaped hreaps =>
    refine .inr ⟨_,hreaps,hreaped _ ?_⟩
    intro left hleft
    exact mem_filterMap.mpr ⟨lease,hmem,hleft⟩
  | granted _ _ _ _ =>
    refine .inr ⟨_,if_pos rfl,hreaped _ ?_⟩
    intro left hleft
    exact mem_append_left _ (mem_filterMap.mpr ⟨lease,hmem,hleft⟩)
  | released =>
    rename_i leaseId
    by_cases hown : lease.leaseId = leaseId
    · rw [hown]
      exact .inl rfl
    · exact absurd rfl (habsent lease (mem_deleteWhere.mpr ⟨hmem,decide_eq_false hown⟩))
  | renewed =>
    rename_i pid leaseIds now
    by_cases hlisted : lease.leaseId ∈ leaseIds
    · have hrow : (⟨lease.leaseId,pid,now,none⟩ : Lease T) ∈
          updateWhere (fun lease => lease.leaseId ∈ leaseIds)
            (fun lease => ⟨lease.leaseId,pid,now,none⟩) (w.leases group) :=
        mem_updateWhere.mpr ⟨lease,hmem,.inl ⟨decide_eq_true hlisted,rfl⟩⟩
      exact absurd rfl (habsent _ hrow :)
    · have hrow : lease ∈ updateWhere (fun lease => lease.leaseId ∈ leaseIds)
            (fun lease => ⟨lease.leaseId,pid,now,none⟩) (w.leases group) :=
        mem_updateWhere.mpr ⟨lease,hmem,.inr ⟨decide_eq_false hlisted,rfl⟩⟩
      exact absurd rfl (habsent _ hrow)

/-- The laws of the gate, in every state that any interleaving of operations reaches and in every
run and step from there. -/
theorem global_concurrency_gate (s : Settings T) {w₀ w : World T} {events : List (Event T)}
    (hinit : w₀.Initial) (hrun : Run (Step s) w₀ events w) :
    (∀ group limit, s.limit group = some limit → 0 < limit →
      ((w.leases group).length : Int) ≤ limit) ∧
    (∀ group leaseId events' w' events'' w'', leaseId ∈ w.leaseIds group →
      Run (Step s) w events' w' → leaseId ∉ w'.leaseIds group → Run (Step s) w' events'' w'' →
      leaseId ∉ w''.leaseIds group) ∧
    (∀ e w' group, ∀ lease ∈ w.leases group, Step s w e w' →
      lease.leaseId ∉ w'.leaseIds group →
      e = .release group lease.leaseId ∨
      ∃ now, e.reaps group = some now ∧
        (w.alive lease.pid = false ∨
          ∃ t, s.suspectGrace < now - t ∧ s.heartbeatTtl < now - lease.updatedAt ∧
            MarkedSuspect s w₀ events w group lease t)) := by
  have hdrawn : w.AllDrawn := by
    refine hrun.preserves (fun _ _ _ hstep h => h.step hstep) ?_
    intro group lease hlease
    rw [hinit.leases] at hlease
    cases hlease
  have hbounded : w.Bounded s := by
    refine hrun.preserves (fun _ _ _ hstep h => h.step hstep) ?_
    intro group limit _ hpositive
    rw [hinit.leases]
    exact Int.le_of_lt hpositive
  have hexplained : Explained s w₀ events w := by
    refine hrun.accumulates (fun _ _ _ _ h hstep => h.step hstep) ⟨.nil _,?_⟩
    intro group lease hlease
    rw [hinit.leases] at hlease
    cases hlease
  refine ⟨hbounded,?_,?_⟩
  · intro group leaseId events' w' events'' w'' hstored hrun' hgone hrun''
    have hknown : leaseId ∈ w'.drawn := by
      refine hrun'.preserves (I := fun w => leaseId ∈ w.drawn) ?_ ?_
      · intro w e w' hstep h
        exact hstep.drawn h
      · obtain ⟨lease,hlease,rfl⟩ := mem_map.mp hstored
        exact hdrawn group lease hlease
    exact gone_run hrun'' hknown hgone
  · intro e w' group lease hmem hstep hgone
    rcases left_step hstep hmem hgone with hrelease | ⟨now,hreaps,hnone⟩
    · exact .inl hrelease
    · refine .inr ⟨now,hreaps,?_⟩
      rcases survive_eq_none hnone with hdead | ⟨t,ht,hgrace,hexpired⟩
      · exact .inl hdead
      · exact .inr ⟨t,hgrace,hexpired,hexplained.marks group lease hmem t ht⟩

end Runs

def oneSlot : Settings Int := ⟨fun _ => some 1, 10, 5, 30⟩

def emptyGate : World Int := ⟨fun _ => none, fun _ => true, []⟩

theorem emptyGate_initial : emptyGate.Initial := ⟨fun _ => rfl,rfl⟩

/-- A process takes the slot and stalls: one reap marks its lease and a later one reclaims it. -/
theorem global_concurrency_gate_stalled :
    ∃ w w' : World Int, Run (Step oneSlot) emptyGate
        [.acquire "llm" true 0 7 "a", .acquire "llm" true 20 8 "b"] w ∧
      Step oneSlot w (.reconcile "llm" 30) w' ∧
      w.leases "llm" = [⟨"a", 7, 0, some 20⟩] ∧ w'.leases "llm" = [] ∧
      ((w.leases "llm").length : Int) ≤ 1 ∧
      ∃ t, 5 < 30 - t ∧ MarkedSuspect oneSlot emptyGate
        [.acquire "llm" true 0 7 "a", .acquire "llm" true 20 8 "b"] w "llm" ⟨"a", 7, 0, some 20⟩ t := by
  let w₁ := (emptyGate.acquire oneSlot "llm" true 0 7 "a").2
  let w₂ := (w₁.acquire oneSlot "llm" true 20 8 "b").2
  have hrun : Run (Step oneSlot) emptyGate
      [.acquire "llm" true 0 7 "a", .acquire "llm" true 20 8 "b"] w₂ :=
    .cons (.acquire "llm" true 0 7 "a" (by decide)) <|
      .cons (.acquire "llm" true 20 8 "b" (by decide)) <| .nil _
  have hstep : Step oneSlot w₂ (.reconcile "llm" 30) (w₂.reconcile oneSlot "llm" 30).2 :=
    .reconcile "llm" 30
  have hmarked : w₂.leases "llm" = [⟨"a",7,0,some 20⟩] := by decide
  have hgone : (w₂.reconcile oneSlot "llm" 30).2.leases "llm" = [] := by decide
  have h := global_concurrency_gate oneSlot emptyGate_initial hrun
  refine ⟨w₂,_,hrun,hstep,hmarked,hgone,h.1 "llm" 1 rfl (by decide),?_⟩
  have hleft := h.2.2 (.reconcile "llm" 30) _ "llm" ⟨"a",7,0,some 20⟩ (by rw [hmarked]; simp)
    hstep (by simp [World.leaseIds,hgone])
  rcases hleft with hrelease | ⟨now,hnow,hdead | ⟨t,hgrace,_,hexplained⟩⟩
  · cases hrelease
  · cases hdead
  · cases hnow
    exact ⟨t,hgrace,hexplained⟩

end LightRAG.Gate
