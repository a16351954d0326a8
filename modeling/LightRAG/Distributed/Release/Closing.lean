import LightRAG.Distributed.Release.Statements

/-!
# Closed instances and unfinished tickets

`close_instance` looks for unfinished tickets in one statement and closes the instance in another,
and takes no lock that an admission would wait for.
-/

namespace LightRAG.Release
open Table List

namespace Session

/-- The instance of an admission that found it at work and is not over. -/
def admits : Session → Option String
  | admitRead a _ _ | admitParent a _ _ _ | admitPassed a _ => some a.instanceId
  | admitInserted t => some t.instanceId
  | _ => none

/-- The instance of a close that found no unfinished work and is not over. -/
def closes : Session → Option String
  | closeChecked instanceId | closeUpdated instanceId => some instanceId
  | _ => none

def inserts : Session → Option InstanceRow
  | registerInserted _ inserted | registered inserted => inserted
  | _ => none

end Session

/-- A statement writes nothing, and its session goes on as far as what it read allows, or it is
the `COMMIT` of a write. -/
inductive Moved (server : Server) (s : Session) : Db → Session → Prop
  | quiet (s' : Session)
      (hadmits : ∀ id, s'.admits = some id → s.admits = some id ∨
        ∃ i, server.db.getInstance id = some i ∧ i.closed = false)
      (hcloses : ∀ id, s'.closes = some id → s.closes = some id ∨ server.db.quiescent id = true)
      (hlocks : s'.locksScope = true → s.locksScope = true ∨
        server.sessions.any (·.locksScope) = false)
      (hinserts : ∀ i, s'.inserts = some i → s.inserts = some i ∨
        i.closed = false ∧ server.db.getInstance i.instanceId = none)
      (hholds : ∀ i, s'.inserts = some i → s'.locksScope = true) : Moved server s server.db s'
  | registered (i : InstanceRow) (hs : s = .registered (some i)) :
      Moved server s (server.db.insertInstance i) .idle
  | admitted (t : TicketRow) (hs : s = .admitInserted t) :
      Moved server s (server.db.insertTicket t) .idle
  | settled (instanceId : String) (id : Uuid) (state : TicketState) :
      Moved server s (server.db.settleTicket instanceId id state) .idle
  | closed (instanceId : String) (hs : s = .closeUpdated instanceId) :
      Moved server s (server.db.closeInstance instanceId) .idle

section Steps

variable {server server' : Server} {n : Nat} {s : Session}

theorem moved_plain {s' : Session} (hadmits : s'.admits = none)
    (hcloses : s'.closes = none) (hlocks : s'.locksScope = false)
    (hinserts : s'.inserts = none) : Moved server s server.db s' := by
  refine .quiet s' ?_ ?_ ?_ ?_ ?_
  · intro id hid
    simp [hadmits] at hid
  · intro id hid
    simp [hcloses] at hid
  · simp [hlocks]
  · simp [hinserts]
  · simp [hinserts]

theorem moved_idle : Moved server s server.db .idle :=
  moved_plain rfl rfl rfl rfl

theorem moved_admission {s' : Session} (hadmits : ∀ id, s'.admits = some id → s.admits = some id ∨
      ∃ i, server.db.getInstance id = some i ∧ i.closed = false)
    (hcloses : s'.closes = none)
    (hlocks : s.locksScope = true ∨ server.sessions.any (·.locksScope) = false)
    (hinserts : s'.inserts = none) : Moved server s server.db s' := by
  refine .quiet s' hadmits ?_ (fun _ => hlocks) ?_ ?_
  · intro id hid
    simp [hcloses] at hid
  · simp [hinserts]
  · simp [hinserts]

theorem moved_close {s' : Session} (hadmits : s'.admits = none)
    (hcloses : ∀ id, s'.closes = some id → s.closes = some id ∨ server.db.quiescent id = true)
    (hlocks : s'.locksScope = false) (hinserts : s'.inserts = none) :
    Moved server s server.db s' := by
  refine .quiet s' ?_ hcloses ?_ ?_ ?_
  · intro id hid
    simp [hadmits] at hid
  · simp [hlocks]
  · simp [hinserts]
  · simp [hinserts]

theorem next_moved (h : server.next n s = some server') :
    ∃ s', Moved server s server'.db s' ∧ server'.sessions = server.sessions.set n s' := by
  cases s with
  | idle => cases h
  | register a =>
    simp only [Server.next] at h
    split at h
    · cases h
    rename_i hfree
    cases h
    refine ⟨_,?_,rfl⟩
    split
    · exact moved_idle
    · exact moved_admission (fun id hid => by simp [Session.admits] at hid) rfl
        (.inr (by simpa using hfree)) rfl
  | registerLocked a =>
    cases h
    refine ⟨_,.quiet _ ?_ ?_ (fun _ => .inl rfl) ?_ (fun _ _ => rfl),rfl⟩
    · simp [Session.admits]
    · simp [Session.closes]
    · intro i hi
      right
      split at hi
      · rename_i hnew
        cases hi
        exact ⟨rfl,by simpa using hnew⟩
      · cases hi
  | registerInserted a inserted =>
    cases h
    refine ⟨_,?_,rfl⟩
    split
    · exact moved_idle
    split
    · exact moved_idle
    · refine .quiet _ ?_ ?_ (fun _ => .inl rfl) (fun i hi => .inl hi) (fun _ _ => rfl)
      · simp [Session.admits]
      · simp [Session.closes]
  | registered inserted =>
    cases h
    refine ⟨.idle,?_,rfl⟩
    cases inserted with
    | none => exact moved_idle
    | some i => exact .registered i rfl
  | admission a =>
    simp only [Server.next] at h
    split at h
    · cases h
    rename_i hfree
    cases h
    refine ⟨_,?_,rfl⟩
    split
    · exact moved_idle
    · exact moved_admission (fun id hid => by simp [Session.admits] at hid) rfl
        (.inr (by simpa using hfree)) rfl
  | admitLocked a s =>
    cases h
    refine ⟨_,?_,rfl⟩
    split
    · exact moved_idle
    rename_i i hfound
    split
    · exact moved_idle
    rename_i hworks
    refine moved_admission ?_ rfl (.inl rfl) rfl
    intro id hid
    right
    have hsame : a.instanceId = id := by simpa [Session.admits] using hid
    subst hsame
    exact ⟨i,hfound,by simpa using fun hc => hworks (.inl hc)⟩
  | admitRead a s i =>
    cases h
    refine ⟨_,?_,rfl⟩
    exact moved_admission (fun id hid => .inl hid) rfl (.inl rfl) rfl
  | admitParent a s i parentValid =>
    cases h
    refine ⟨_,?_,rfl⟩
    split
    · exact moved_idle
    · exact moved_admission (fun id hid => .inl hid) rfl (.inl rfl) rfl
  | admitPassed a i =>
    cases h
    refine ⟨_,?_,rfl⟩
    split
    · exact moved_idle
    · exact moved_admission (fun id hid => .inl hid) rfl (.inl rfl) rfl
  | admitInserted t =>
    cases h
    exact ⟨_,.admitted t rfl,rfl⟩
  | finish instanceId ticket uncertain =>
    simp only [Server.next] at h
    split at h
    · cases h
      exact ⟨_,moved_plain rfl rfl rfl rfl,rfl⟩
    split at h
    · cases h
    cases h
    refine ⟨_,?_,rfl⟩
    split
    · exact moved_plain rfl rfl rfl rfl
    · exact moved_plain rfl rfl rfl rfl
  | finishUpdated instanceId ticket uncertain =>
    cases h
    exact ⟨_,.settled _ _ _,rfl⟩
  | finishMissed =>
    cases h
    exact ⟨_,moved_idle,rfl⟩
  | close instanceId status =>
    cases h
    refine ⟨_,?_,rfl⟩
    split
    · exact moved_idle
    rename_i hquiescent
    refine moved_close rfl ?_ rfl rfl
    intro id hid
    right
    have hsame : instanceId = id := by simpa [Session.closes] using hid
    subst hsame
    simp only [Bool.or_eq_true,not_or,Bool.not_eq_true',Bool.not_eq_false] at hquiescent
    exact hquiescent.1
  | closeChecked instanceId =>
    simp only [Server.next] at h
    split at h
    · cases h
    cases h
    refine ⟨_,?_,rfl⟩
    split
    · exact moved_close rfl (fun id hid => .inl hid) rfl rfl
    · exact moved_idle
  | closeUpdated instanceId =>
    cases h
    exact ⟨_,.closed instanceId rfl,rfl⟩

theorem step_moved {a : Server.Action} (h : server.Step a server') :
    ∃ n s s', server.sessions[n]? = some s ∧ Moved server s server'.db s' ∧
      server'.sessions = server.sessions.set n s' := by
  cases a with
  | start n c =>
    simp only [Server.Step,Server.step] at h
    split at h
    · rename_i hidle
      obtain ⟨s',hs',rfl⟩ := Option.map_eq_some_iff.mp h
      refine ⟨n,.idle,s',hidle,?_,rfl⟩
      cases c <;> cases hs' <;> exact moved_plain rfl rfl rfl rfl
    · cases h
  | run n =>
    simp only [Server.Step,Server.step,Option.bind_eq_some_iff] at h
    obtain ⟨s,hs,hnext⟩ := h
    obtain ⟨s',hmoved,hsessions⟩ := next_moved hnext
    exact ⟨n,s,s',hs,hmoved,hsessions⟩
  | cancel n =>
    obtain ⟨s,hs,rfl⟩ := Option.map_eq_some_iff.mp h
    exact ⟨n,s,.idle,hs,moved_idle,rfl⟩

end Steps

/-- An instance closes while an admission of a ticket for it is on its way. -/
def Server.Overlaps (server : Server) : Prop :=
  ∃ s ∈ server.sessions, ∃ t ∈ server.sessions, s.admits.isSome = true ∧ t.closes = s.admits

instance (server : Server) : Decidable server.Overlaps :=
  inferInstanceAs (Decidable (∃ s ∈ server.sessions, ∃ t ∈ server.sessions, _ ∧ _))

theorem overlaps_of {server : Server} {s t : Session} {id : String} (hs : s ∈ server.sessions)
    (ht : t ∈ server.sessions) (hadmits : s.admits = some id) (hcloses : t.closes = some id) :
    server.Overlaps :=
  ⟨s,hs,t,ht,by simp [hadmits],hcloses.trans hadmits.symm⟩

def Db.ClosedQuiet (db : Db) : Prop :=
  ∀ i ∈ db.instances, i.closed = true →
    ∀ t ∈ db.tickets, t.instanceId = i.instanceId → t.state = .completed

/-- What the transaction of a session relies on. -/
structure Session.Settled (db : Db) (s : Session) : Prop where
  admitting : ∀ id, s.admits = some id → ∀ i ∈ db.instances, i.instanceId = id → i.closed = false
  closing : ∀ id, s.closes = some id → ∀ t ∈ db.tickets, t.instanceId = id → t.state = .completed
  inserting : ∀ i, s.inserts = some i →
    i.closed = false ∧ db.getInstance i.instanceId = none ∧ s.locksScope = true

structure Server.Settled (server : Server) : Prop where
  quiet : server.db.ClosedQuiet
  sessions : ∀ s ∈ server.sessions, s.Settled server.db
  exclusive : ∀ (n m : Nat) (s t : Session), server.sessions[n]? = some s →
    server.sessions[m]? = some t → s.locksScope = true → t.locksScope = true → n = m
  keys : (server.db.instances.map InstanceRow.instanceId).Nodup

section Settled

variable {server server' : Server}

theorem getElem?_moved {n m : Nat} {s' t : Session} {sessions : List Session}
    (ht : (sessions.set n s')[m]? = some t) : (m = n ∧ t = s') ∨ m ≠ n ∧ sessions[m]? = some t := by
  by_cases hm : n = m
  · subst hm
    rw [List.getElem?_set_self'] at ht
    obtain ⟨_,_,rfl⟩ := Option.map_eq_some_iff.mp ht
    exact .inl ⟨rfl,rfl⟩
  · rw [List.getElem?_set_ne hm] at ht
    exact .inr ⟨fun heq => hm heq.symm,ht⟩

theorem mem_moved {n : Nat} {s' t : Session} {sessions : List Session}
    (ht : t ∈ sessions.set n s') : t = s' ∨ ∃ m, m ≠ n ∧ sessions[m]? = some t := by
  obtain ⟨m,hm⟩ := mem_iff_getElem?.mp ht
  rcases getElem?_moved hm with ⟨_,h⟩ | ⟨hne,h⟩
  · exact .inl h
  · exact .inr ⟨m,hne,h⟩

theorem quiet_of_quiescent {db : Db} {id : String} (h : db.quiescent id = true) :
    ∀ t ∈ db.tickets, t.instanceId = id → t.state = .completed := by
  simp only [Db.quiescent,Bool.and_eq_true,all_eq_true] at h
  intro t ht hid
  have hone := h.1 t ht
  simpa [hid] using hone

theorem settled_idle {db : Db} : Session.Settled db .idle := by
  refine ⟨?_,?_,?_⟩
  · simp [Session.admits]
  · simp [Session.closes]
  · simp [Session.inserts]

namespace Server.Settled

theorem init (h : server.Init) : server.Settled := by
  obtain ⟨henrolled,hidle⟩ := h
  refine ⟨?_,?_,?_,?_⟩
  · simp [Db.ClosedQuiet,henrolled.instances]
  · intro s hs
    rw [hidle s hs]
    exact settled_idle
  · intro n m s t hs _ hlock _
    rw [hidle s (mem_of_getElem? hs)] at hlock
    cases hlock
  · simp [henrolled.instances]

theorem exclusive_moved (h : server.Settled) {n : Nat} {s s' : Session}
    (hs : server.sessions[n]? = some s)
    (hsessions : server'.sessions = server.sessions.set n s')
    (hlocks : s'.locksScope = true → s.locksScope = true ∨
      server.sessions.any (·.locksScope) = false) :
    ∀ (k m : Nat) (t u : Session), server'.sessions[k]? = some t → server'.sessions[m]? = some u →
      t.locksScope = true → u.locksScope = true → k = m := by
  have hother : ∀ m u, m ≠ n → server.sessions[m]? = some u → u.locksScope = true →
      s'.locksScope = true → False := by
    intro m u hne hu hlock hlock'
    rcases hlocks hlock' with hself | hfree
    · exact hne (h.exclusive m n u s hu hs hlock hself)
    · rw [any_eq_false] at hfree
      exact hfree u (mem_of_getElem? hu) hlock
  intro k m t u ht hu hlt hlu
  rw [hsessions] at ht hu
  rcases getElem?_moved ht with ⟨hk,htself⟩ | ⟨hk,htold⟩
  · rcases getElem?_moved hu with ⟨hm,_⟩ | ⟨hm,huold⟩
    · rw [hk,hm]
    · rw [htself] at hlt
      exact absurd hlt (hother m u hm huold hlu)
  · rcases getElem?_moved hu with ⟨hm,huself⟩ | ⟨_,huold⟩
    · rw [huself] at hlu
      exact absurd hlu (hother k t hk htold hlt)
    · exact h.exclusive k m t u htold huold hlt hlu

theorem of_moved (h : server.Settled) {n : Nat} {s s' : Session}
    (hs : server.sessions[n]? = some s) (hsessions : server'.sessions = server.sessions.set n s')
    (hquiet : server'.db.ClosedQuiet)
    (hothers : ∀ m t, m ≠ n → server.sessions[m]? = some t → t.Settled server'.db)
    (hself : s'.Settled server'.db)
    (hlocks : s'.locksScope = true → s.locksScope = true ∨
      server.sessions.any (·.locksScope) = false)
    (hkeys : (server'.db.instances.map InstanceRow.instanceId).Nodup) : server'.Settled := by
  refine ⟨hquiet,?_,exclusive_moved h hs hsessions hlocks,hkeys⟩
  intro t ht
  rw [hsessions] at ht
  rcases mem_moved ht with rfl | ⟨m,hne,hm⟩
  · exact hself
  · exact hothers m t hne hm

section Commits

variable {n : Nat}

theorem registered (h : server.Settled) {i : InstanceRow}
    (hs : server.sessions[n]? = some (.registered (some i))) :
    (server.commits n (Db.insertInstance i)).Settled := by
  have hself := h.sessions _ (mem_of_getElem? hs)
  obtain ⟨hopen,hfresh,hlock⟩ := hself.inserting i rfl
  have hrows : ∀ i' ∈ (server.db.insertInstance i).instances, i' ∈ server.db.instances ∨ i' = i := by
    simpa [Db.insertInstance] using hi'
  refine h.of_moved hs rfl ?_ ?_ settled_idle (by simp [Session.locksScope]) ?_
  · intro i' hi' hclosed t ht
    rcases hrows i' hi' with hold | rfl
    · exact h.quiet i' hold hclosed t ht
    · rw [hopen] at hclosed
      cases hclosed
  · intro m t hne hm
    have hsettled := h.sessions t (mem_of_getElem? hm)
    refine ⟨?_,hsettled.closing,?_⟩
    · intro id hid i' hi' hsame
      rcases hrows i' hi' with hold | rfl
      · exact hsettled.admitting id hid i' hold hsame
      · exact hopen
    · -- the lock of the scope admits one registration at a time
      intro i' hi'
      have hlock' := (hsettled.inserting i' hi').2.2
      exact absurd (h.exclusive m n t _ hm hs hlock' hlock) hne
  · exact nodup_append_new h.keys (lookup_eq_none.mp hfresh)

theorem admitted (h : server.Settled) {t : TicketRow}
    (hs : server.sessions[n]? = some (.admitInserted t))
    (hserial : ¬server.Overlaps) :
    (server.commits n (Db.insertTicket t)).Settled := by
  have hmem := mem_of_getElem? hs
  have hadmits : (Session.admitInserted t).admits = some t.instanceId := rfl
  have hrows : ∀ t' ∈ (server.db.insertTicket t).tickets, t' ∈ server.db.tickets ∨ t' = t := by
    simpa [Db.insertTicket] using ht'
  refine h.of_moved hs rfl ?_ ?_ settled_idle (by simp [Session.locksScope]) h.keys
  · intro i hi hclosed t' ht' hsame
    rcases hrows t' ht' with hold | rfl
    · exact h.quiet i hi hclosed t' hold hsame
    · have hopen := (h.sessions _ hmem).admitting _ hadmits i hi hsame.symm
      rw [hopen] at hclosed
      cases hclosed
  · intro m u _ hm
    have hu := mem_of_getElem? hm
    have hsettled := h.sessions u hu
    refine ⟨hsettled.admitting,?_,hsettled.inserting⟩
    intro id hid t' ht' hsame
    rcases hrows t' ht' with hold | rfl
    · exact hsettled.closing id hid t' hold hsame
    · subst hsame
      exact absurd (overlaps_of hmem hu hadmits hid) hserial

theorem settled (h : server.Settled) {s : Session} (hs : server.sessions[n]? = some s)
    (instanceId : String) (id : Uuid) (state : TicketState) :
    (server.commits n (Db.settleTicket instanceId id state)).Settled := by
  -- only active tickets are settled, and those belong to no quiet instance
  have hrows : ∀ t' ∈ (server.db.settleTicket instanceId id state).tickets,
      t' ∈ server.db.tickets ∨
        ∃ t ∈ server.db.tickets, t.state = .active ∧ t'.instanceId = t.instanceId := by
    intro t' ht'
    obtain ⟨t,ht,⟨hpick,rfl⟩ | ⟨_,rfl⟩⟩ := mem_updateWhere.mp ht'
    · exact .inr ⟨t,ht,(of_decide_eq_true hpick).2.2,rfl⟩
    · exact .inl ht
  refine h.of_moved hs rfl ?_ ?_ settled_idle (by simp [Session.locksScope]) h.keys
  · intro i hi hclosed t' ht' hsame
    rcases hrows t' ht' with hold | ⟨t,ht,hactive,howner⟩
    · exact h.quiet i hi hclosed t' hold hsame
    · have hdone := h.quiet i hi hclosed t ht (howner.symm.trans hsame)
      rw [hactive] at hdone
      cases hdone
  · intro m u _ hm
    have hsettled := h.sessions u (mem_of_getElem? hm)
    refine ⟨hsettled.admitting,?_,hsettled.inserting⟩
    intro id' hid t' ht' hsame
    rcases hrows t' ht' with hold | ⟨t,ht,hactive,howner⟩
    · exact hsettled.closing id' hid t' hold hsame
    · have hdone := hsettled.closing id' hid t ht (howner.symm.trans hsame)
      rw [hactive] at hdone
      cases hdone

theorem closed (h : server.Settled) {instanceId : String}
    (hs : server.sessions[n]? = some (.closeUpdated instanceId))
    (hserial : ¬server.Overlaps) :
    (server.commits n (Db.closeInstance instanceId)).Settled := by
  have hmem := mem_of_getElem? hs
  have hcloses : (Session.closeUpdated instanceId).closes = some instanceId := rfl
  have hrows : ∀ i' ∈ (server.db.closeInstance instanceId).instances,
      i' ∈ server.db.instances ∨ i'.instanceId = instanceId := by
    intro i' hi'
    obtain ⟨i,hi,⟨hpick,rfl⟩ | ⟨_,rfl⟩⟩ := mem_updateWhere.mp hi'
    · exact .inr (by simpa using hpick)
    · exact .inl hi
  have hids : (server.db.closeInstance instanceId).instances.map InstanceRow.instanceId =
      server.db.instances.map InstanceRow.instanceId :=
    map_updateWhere fun _ => rfl
  refine h.of_moved hs rfl ?_ ?_ settled_idle (by simp [Session.locksScope]) ?_
  · intro i' hi' hclosed t ht hsame
    rcases hrows i' hi' with hold | hthis
    · exact h.quiet i' hold hclosed t ht hsame
    · exact (h.sessions _ hmem).closing _ hcloses t ht (hsame.trans hthis)
  · intro m u _ hm
    have hu := mem_of_getElem? hm
    have hsettled := h.sessions u hu
    refine ⟨?_,hsettled.closing,?_⟩
    · intro id hid i' hi' hsame
      rcases hrows i' hi' with hold | hthis
      · exact hsettled.admitting id hid i' hold hsame
      · subst hsame
        rw [hthis] at hid
        exact absurd (overlaps_of hu hmem hid hcloses) hserial
    · intro i hi
      obtain ⟨hopen,hfresh,hlock⟩ := hsettled.inserting i hi
      refine ⟨hopen,?_,hlock⟩
      show lookup InstanceRow.instanceId _ _ = none
      rw [Db.getInstance,lookup_eq_none] at hfresh
      rw [lookup_eq_none]
      intro i' hi' hid
      have hin : i'.instanceId ∈ server.db.instances.map InstanceRow.instanceId := by
        rw [← hids]
        exact mem_map_of_mem hi'
      obtain ⟨i₀,hi₀,heq⟩ := mem_map.mp hin
      exact hfresh i₀ hi₀ (heq.trans hid)
  · show (List.map InstanceRow.instanceId (server.db.closeInstance instanceId).instances).Nodup
    rw [hids]
    exact h.keys

end Commits

theorem quietly (h : server.Settled) {n : Nat} {s s' : Session}
    (hs : server.sessions[n]? = some s)
    (hadmits : ∀ id, s'.admits = some id → s.admits = some id ∨
      ∃ i, server.db.getInstance id = some i ∧ i.closed = false)
    (hcloses : ∀ id, s'.closes = some id → s.closes = some id ∨ server.db.quiescent id = true)
    (hlocks : s'.locksScope = true → s.locksScope = true ∨
      server.sessions.any (·.locksScope) = false)
    (hinserts : ∀ i, s'.inserts = some i → s.inserts = some i ∨
      i.closed = false ∧ server.db.getInstance i.instanceId = none)
    (hholds : ∀ i, s'.inserts = some i → s'.locksScope = true) :
    (server.becomes n s').Settled := by
  have hbefore := h.sessions s (mem_of_getElem? hs)
  refine h.of_moved hs rfl h.quiet ?_ ⟨?_,?_,?_⟩ hlocks h.keys
  · intro m t _ hm
    exact h.sessions t (mem_of_getElem? hm)
  · intro id hid i hi hsame
    rcases hadmits id hid with hold | ⟨i₀,hfound,hopen⟩
    · exact hbefore.admitting id hold i hi hsame
    · have hfirst := mem_of_lookup hfound
      rw [eq_of_key h.keys hi hfirst.1 (hsame.trans hfirst.2.symm)]
      exact hopen
  · intro id hid
    rcases hcloses id hid with hold | hquiescent
    · exact hbefore.closing id hold
    · exact quiet_of_quiescent hquiescent
  · intro i hi
    rcases hinserts i hi with hold | hnew
    · have hwas := hbefore.inserting i hold
      exact ⟨hwas.1,hwas.2.1,hholds i hi⟩
    · exact ⟨hnew.1,hnew.2,hholds i hi⟩

theorem step (h : server.Settled) {a : Server.Action} (hstep : server.Step a server')
    (hserial : ¬server.Overlaps) : server'.Settled := by
  obtain ⟨n,s,s',hs,hmoved,hsessions⟩ := step_moved hstep
  obtain ⟨db',sessions'⟩ := server'
  subst hsessions
  cases hmoved with
  | quiet _ hadmits hcloses hlocks hinserts hholds =>
    exact h.quietly hs hadmits hcloses hlocks hinserts hholds
  | registered i hs' =>
    subst hs'
    exact h.registered hs
  | admitted t hs' =>
    subst hs'
    exact h.admitted hs hserial
  | settled instanceId id state => exact h.settled hs instanceId id state
  | closed instanceId hs' =>
    subst hs'
    exact h.closed hs hserial

end Server.Settled

end Settled

/-- A step from a state in which no instance closes while an admission for it is on its way. -/
def Server.SerialStep (server : Server) (a : Server.Action) (server' : Server) : Prop :=
  server.Step a server' ∧ ¬server.Overlaps

def twoConnections : Server := ⟨enrolledDb, [.idle, .idle]⟩

theorem twoConnections_init : twoConnections.Init := by
  refine ⟨enrolledDb_enrolled,?_⟩
  simp [twoConnections]

/-- `blue-1` registers and begins to close. -/
def closingBlue : List Server.Action :=
  [.start 0 (.registerInstance "prod/main" "blue-1" .blue "config" "profile" 3),
    .run 0, .run 0, .run 0, .run 0,
    .start 0 (.closeInstance "blue-1" ⟨0, 0, 0, 0, 0, 0⟩), .run 0]

/-- The other connection admits a ticket for `blue-1`. -/
def admittingBlue : List Server.Action :=
  [.start 1 (.admitWriter "prod/main" "blue-1" 1 40 "insert" none none),
    .run 1, .run 1, .run 1, .run 1, .run 1, .run 1]

/-- A ticket that is admitted between the two statements of a close outlives its instance. -/
theorem closed_instance_owns_ticket :
    ¬∀ server₀ server as, Server.Init server₀ → Run Server.Step server₀ as server →
      server.db.ClosedQuiet := by
  intro hclaim
  have hends : (twoConnections.execute (fun _ => true)
      (closingBlue ++ admittingBlue ++ [.run 0, .run 0])).map
        (fun s => (s.db.instances, s.db.tickets)) =
      some ([⟨"blue-1",.blue,"config","profile",3,true,true⟩],
        [⟨40,"blue-1",.blue,1,none,"insert",.active⟩]) := by decide +kernel
  obtain ⟨server,hserver,hrows⟩ := Option.map_eq_some_iff.mp hends
  rw [Prod.mk.injEq] at hrows
  have hrun := (Server.execute_run hserver).mono fun _ _ _ h => h.1
  have hquiet := hclaim _ server _ twoConnections_init hrun
  unfold Db.ClosedQuiet at hquiet
  rw [hrows.1,hrows.2] at hquiet
  have hdone := hquiet _ (mem_singleton.mpr rfl) rfl _ (mem_singleton.mpr rfl) rfl
  cases hdone

/-- In every run whose steps keep the closes and the admissions of an instance apart, a closed
instance owns no unfinished ticket. -/
theorem closed_instances_quiet {server₀ server : Server} {as : List Server.Action}
    (hinit : server₀.Init) (hrun : Run Server.SerialStep server₀ as server) :
    server.db.ClosedQuiet := by
  have hsettled : server.Settled :=
    hrun.preserves (fun _ _ _ hstep h => h.step hstep.1 hstep.2) (.init hinit)
  exact hsettled.quiet

/-- When `blue-1` has closed first, the admission finds it closed. -/
theorem closed_instances_quiet_closingBlue :
    ∃ server, twoConnections.execute (fun s => ¬s.Overlaps)
        (closingBlue ++ [.run 0, .run 0, .start 1
          (.admitWriter "prod/main" "blue-1" 1 40 "insert" none none), .run 1, .run 1]) =
        some server ∧
      server.db.instances.map (·.closed) = [true] ∧ server.db.ClosedQuiet := by
  have hends : (twoConnections.execute (fun s => ¬s.Overlaps)
        (closingBlue ++ [.run 0, .run 0, .start 1
          (.admitWriter "prod/main" "blue-1" 1 40 "insert" none none), .run 1, .run 1])).map
        (fun s => s.db.instances.map (·.closed)) = some [true] := by decide +kernel
  obtain ⟨server,hserver,hrows⟩ := Option.map_eq_some_iff.mp hends
  have hrun : Run Server.SerialStep twoConnections _ server :=
    (Server.execute_run hserver).mono fun _ _ _ h => ⟨h.1,by simpa using h.2⟩
  exact ⟨server,hserver,hrows,closed_instances_quiet twoConnections_init hrun⟩

end LightRAG.Release
