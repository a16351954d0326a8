import LightRAG.Storage.KeyedContexts

/-!
# The invariant of keyed locks

Each lock is taken for at most one entry, its deque names the contexts that wait at it, and a lock
that is free with waiters has woken one of them or will.
-/

namespace LightRAG.KeyedContexts
open List Function

/-- The context is suspended in `acquire` of the lock. -/
def Context.Awaits (c : Context) (lock : LockId) : Prop :=
  (∃ cancelled, c.stage = .waiting cancelled) ∧
    ∃ e entries, c.entries = e :: entries ∧ e.lock = lock

def Context.Shaped (multiprocess : Bool) (c : Context) : Prop :=
  match c.stage with
  | .acquiring | .inside | .exiting => ∀ e ∈ c.entries, e.gate = true ∧ e.entered = true
  | .waiting _ => ∃ e entries, c.entries = e :: entries ∧ e.gate = false ∧ e.entered = false ∧
      ∀ f ∈ entries, f.gate = true ∧ f.entered = true
  | .polling => multiprocess = true ∧ ∃ e entries, c.entries = e :: entries ∧ e.gate = true ∧
      e.entered = false ∧ ∀ f ∈ entries, f.gate = true ∧ f.entered = true
  | .rollback => ∀ e ∈ c.entries, e.gate = e.entered

/-- A lock is taken for as many entries as it is locked. -/
def Gates (w : World) (contexts : List Context) : Prop :=
  ∀ lock, lock < w.nextLock →
    tally (gateCount lock) contexts = if (w.locks lock).locked then 1 else 0

/-- A lock wakes the first of its waiters when it is free, and only then. -/
structure AsyncLock.Fair (l : AsyncLock) : Prop where
  names : (l.waiters.map Prod.fst).Nodup
  first : ∀ p ∈ l.waiters.tail, p.2 ≠ .done
  free : ∀ p ∈ l.waiters, p.2 = .done → l.locked = false
  woken : l.locked = false → l.waiters ≠ [] → ∃ p ∈ l.waiters, p.2 ≠ .pending

structure Waits (w : World) (contexts : List Context) : Prop where
  fair : ∀ lock, lock < w.nextLock → (w.locks lock).Fair
  known : ∀ lock, lock < w.nextLock → ∀ p ∈ (w.locks lock).waiters, ∃ c ∈ contexts,
    c.id = p.1 ∧ c.Awaits lock ∧ (p.2 = .cancelled → c.stage = .waiting true)
  queued : ∀ c ∈ contexts, ∀ lock, c.Awaits lock → ∃ f, (c.id, f) ∈ (w.locks lock).waiters

structure Leases (w : World) (contexts : List Context) : Prop where
  counted : ∀ key, tally (leaseCount key) contexts = if (w.holders key).isSome then 1 else 0
  named : ∀ c ∈ contexts, ∀ e ∈ c.entries, e.entered = true → w.holders e.key = some c.id

structure Sound (multiprocess : Bool) (w : World) (contexts : List Context) : Prop where
  ids : (contexts.map Context.id).Nodup
  processes : multiprocess = false → ∀ c ∈ contexts, c.process = 0
  shaped : ∀ c ∈ contexts, c.Shaped multiprocess
  references : References w contexts
  gates : Gates w contexts
  waits : Waits w contexts
  leases : multiprocess = true → Leases w contexts

namespace AsyncLock

/-- What a step of one waiter leaves of the others. -/
structure Passes (id : ContextId) (l l' : AsyncLock) : Prop where
  fair : l.Fair → l'.Fair
  others : ∀ p ∈ l'.waiters, p.1 ≠ id →
    ∃ q ∈ l.waiters, q.1 = p.1 ∧ (p.2 = .cancelled → q.2 = .cancelled)
  stays : ∀ p ∈ l.waiters, p.1 ≠ id → ∃ f, (p.1, f) ∈ l'.waiters

variable {l : AsyncLock} {id : ContextId}

theorem fair_new : new.Fair where
  names := nodup_nil
  first := by simp [new]
  free := by simp [new]
  woken _ hne := absurd rfl hne

theorem mem_names {id : ContextId} : id ∈ l.waiters.map Prod.fst ↔ ∃ f, (id, f) ∈ l.waiters := by
  simp

theorem locked_wakeUpFirst : l.wakeUpFirst.locked = l.locked := by
  unfold wakeUpFirst
  split <;> rfl

theorem names_wakeUpFirst : l.wakeUpFirst.waiters.map Prod.fst = l.waiters.map Prod.fst := by
  unfold wakeUpFirst
  split
  · rename_i id rest heq
    simp [heq]
  · rfl

variable {p : ContextId × Future}

theorem mem_wakeUpFirst (h : p ∈ l.wakeUpFirst.waiters) :
    ∃ q ∈ l.waiters, q.1 = p.1 ∧ (p.2 = .cancelled → q.2 = .cancelled) := by
  unfold wakeUpFirst at h
  split at h
  · rename_i id rest heq
    obtain rfl | h := mem_cons.mp h
    · exact ⟨(id, .pending),by simp [heq],rfl,fun hc => by cases hc⟩
    · exact ⟨p,by simp [heq,h],rfl,fun hc => hc⟩
  · exact ⟨p,h,rfl,fun hc => hc⟩

theorem fair_wakeUpFirst (hnames : (l.waiters.map Prod.fst).Nodup)
    (hfirst : ∀ p ∈ l.waiters.tail, p.2 ≠ .done) (hfree : l.locked = false) :
    l.wakeUpFirst.Fair := by
  refine ⟨?_,?_,?_,?_⟩
  · rw [names_wakeUpFirst]
    exact hnames
  · intro p hp
    apply hfirst
    unfold wakeUpFirst at hp
    split at hp
    · rename_i id rest heq
      rw [heq]
      exact hp
    · exact hp
  · intro _ _ _
    rw [locked_wakeUpFirst]
    exact hfree
  · intro _ hne
    unfold wakeUpFirst at hne ⊢
    split
    · rename_i id rest heq
      exact ⟨(id, .done),mem_cons_self,by simp⟩
    · rename_i hsome
      cases hw : l.waiters with
      | nil => simp [hw] at hne
      | cons p rest =>
        refine ⟨p,mem_cons_self,?_⟩
        intro hpending
        apply hsome p.1 rest
        rw [hw,← hpending]

theorem passes_release (id : ContextId) : Passes id l l.release where
  fair h := fair_wakeUpFirst h.names h.first rfl
  others p hp _ := by
    have hwoken : p ∈ (wakeUpFirst { l with locked := false }).waiters := hp
    obtain ⟨q,hq,hsame⟩ := mem_wakeUpFirst hwoken
    exact ⟨q,hq,hsame⟩
  stays p hp _ := by
    have hname : p.1 ∈ l.release.waiters.map Prod.fst := by
      unfold release
      rw [names_wakeUpFirst]
      exact mem_map_of_mem hp
    exact mem_names.mp hname

theorem locked_release : l.release.locked = false := by
  unfold release
  rw [locked_wakeUpFirst]

theorem mem_remove :
    p ∈ (l.remove id).waiters ↔ p ∈ l.waiters ∧ p.1 ≠ id := by
  simp [remove]

theorem names_remove (h : l.Fair) : ((l.remove id).waiters.map Prod.fst).Nodup :=
  h.names.sublist (filter_sublist.map _)

theorem tail_remove (h : p ∈ (l.remove id).waiters.tail) :
    p ∈ l.waiters.tail := by
  unfold remove at h
  cases hw : l.waiters with
  | nil => simp [hw] at h
  | cons q rest =>
    simp only [hw,filter_cons] at h
    split at h
    · exact mem_of_mem_filter h
    · exact mem_of_mem_filter (mem_of_mem_tail h)

theorem first_remove (h : l.Fair) : ∀ p ∈ (l.remove id).waiters.tail, p.2 ≠ .done :=
  fun p hp => h.first p (tail_remove hp)

theorem not_done_remove (h : l.Fair) (hdone : (id, .done) ∈ l.waiters) :
    ∀ p ∈ (l.remove id).waiters, p.2 ≠ .done := by
  intro p hp
  obtain ⟨hp,hne⟩ := mem_remove.mp hp
  cases hw : l.waiters with
  | nil => simp [hw] at hp
  | cons q rest =>
    have hfirst := h.first
    rw [hw] at hp hdone hfirst
    have hq : q = (id, .done) := by
      obtain heq | htail := mem_cons.mp hdone
      · exact heq.symm
      · exact absurd rfl (hfirst _ htail)
    obtain rfl | hp := mem_cons.mp hp
    · rw [hq] at hne
      exact absurd rfl hne
    · exact hfirst p hp

theorem passes_resume (hdone : (id, .done) ∈ l.waiters) : Passes id l (l.resume id) where
  fair h := by
    refine ⟨names_remove h,first_remove h,?_,fun hfree => by cases hfree⟩
    intro p hp hpdone
    exact absurd hpdone (not_done_remove h hdone p hp)
  others p hp _ := ⟨p,(mem_remove.mp hp).1,rfl,fun hc => hc⟩
  stays p hp hne := ⟨p.2,mem_remove.mpr ⟨hp,hne⟩⟩

theorem passes_abandon : Passes id l (l.abandon id) := by
  unfold abandon
  split
  · rename_i hlocked
    refine ⟨?_,?_,?_⟩
    · intro h
      refine ⟨names_remove h,first_remove h,?_,?_⟩
      · intro p hp hdone
        exact h.free p (mem_remove.mp hp).1 hdone
      · intro hfree
        rw [hlocked] at hfree
        cases hfree
    · intro p hp _
      exact ⟨p,(mem_remove.mp hp).1,rfl,fun hc => hc⟩
    · intro p hp hne
      exact ⟨p.2,mem_remove.mpr ⟨hp,hne⟩⟩
  · rename_i hfree
    refine ⟨?_,?_,?_⟩
    · intro h
      exact fair_wakeUpFirst (names_remove h) (first_remove h) (by simpa using hfree)
    · intro p hp _
      obtain ⟨q,hq,hname,hcancelled⟩ := mem_wakeUpFirst hp
      exact ⟨q,(mem_remove.mp hq).1,hname,hcancelled⟩
    · intro p hp hne
      rw [← mem_names,names_wakeUpFirst]
      exact mem_map_of_mem (mem_remove.mpr ⟨hp,hne⟩)

theorem locked_abandon : (l.abandon id).locked = l.locked := by
  unfold abandon
  split
  · rfl
  · rw [locked_wakeUpFirst]
    rfl

theorem not_mem_abandon {f : Future} : (id, f) ∉ (l.abandon id).waiters := by
  intro h
  unfold abandon at h
  split at h
  · exact (mem_remove.mp h).2 rfl
  · obtain ⟨q,hq,hname,-⟩ := mem_wakeUpFirst h
    exact (mem_remove.mp hq).2 hname

theorem mem_cancel (h : p ∈ (l.cancel id).waiters) :
    p ∈ l.waiters ∨ p = (id, .cancelled) := by
  obtain ⟨q,hq,rfl⟩ := mem_map.mp h
  split
  · exact .inr rfl
  · exact .inl hq

theorem names_cancel : (l.cancel id).waiters.map Prod.fst = l.waiters.map Prod.fst := by
  show (List.map _ _).map _ = _
  rw [map_map]
  apply map_congr_left
  intro p _
  simp only [comp_apply]
  split
  · rename_i h
    exact h.1.symm
  · rfl

theorem passes_cancel : Passes id l (l.cancel id) where
  fair h := by
    refine ⟨?_,?_,?_,?_⟩
    · rw [names_cancel]
      exact h.names
    · intro p hp
      have htail : p ∈ l.waiters.tail.map fun w =>
          if w.1 = id ∧ w.2 = .pending then (id, .cancelled) else w := by
        rw [map_tail]
        exact hp
      obtain ⟨q,hq,rfl⟩ := mem_map.mp htail
      split
      · simp
      · exact h.first q hq
    · intro p hp hdone
      obtain hp | rfl := mem_cancel hp
      · exact h.free p hp hdone
      · cases hdone
    · intro hfree hne
      have hsome : l.waiters ≠ [] := by
        intro hnil
        simp [cancel,hnil] at hne
      obtain ⟨p,hp,hpending⟩ := h.woken hfree hsome
      refine ⟨p,mem_map.mpr ⟨p,hp,?_⟩,hpending⟩
      rw [if_neg]
      exact fun hand => hpending hand.2
  others p hp hne := by
    obtain hp | rfl := mem_cancel hp
    · exact ⟨p,hp,rfl,fun hc => hc⟩
    · exact absurd rfl hne
  stays p hp _ := by
    rw [← mem_names,names_cancel]
    exact mem_map_of_mem hp

theorem acquire_cases (id : ContextId) (l : AsyncLock) :
    l.locked = false ∧ l.acquire id = (true, { l with locked := true }) ∨
      l.acquire id = (false, { l with waiters := l.waiters ++ [(id, .pending)] }) := by
  unfold acquire
  split
  · rename_i hfree
    simp only [Bool.and_eq_true,Bool.not_eq_true'] at hfree
    exact .inl ⟨hfree.1,rfl⟩
  · exact .inr rfl

theorem passes_acquire (hnew : ∀ f, (id, f) ∉ l.waiters) : Passes id l (l.acquire id).2 := by
  unfold acquire
  split
  · rename_i hfree
    simp only [Bool.and_eq_true,all_eq_true,decide_eq_true_eq] at hfree
    refine ⟨?_,fun p hp _ => ⟨p,hp,rfl,fun hc => hc⟩,fun p hp _ => ⟨p.2,hp⟩⟩
    intro h
    refine ⟨h.names,h.first,?_,fun hfree => by cases hfree⟩
    intro p hp hdone
    rw [hfree.2 p hp] at hdone
    cases hdone
  · rename_i hbusy
    refine ⟨?_,?_,?_⟩
    · intro h
      refine ⟨?_,?_,?_,?_⟩
      · simp only [map_append]
        apply List.Nodup.append h.names (nodup_singleton _)
        intro p hp hid
        obtain rfl := mem_singleton.mp hid
        obtain ⟨f,hf⟩ := mem_names.mp hp
        exact hnew f hf
      · intro p hp
        cases hw : l.waiters with
        | nil => simp [hw] at hp
        | cons q rest =>
          simp only [hw] at hp
          obtain hp | rfl := mem_append.mp hp |>.imp_right mem_singleton.mp
          · exact h.first p (by simp [hw,hp])
          · simp
      · intro p hp hdone
        obtain hp | rfl := mem_append.mp hp |>.imp_right mem_singleton.mp
        · exact h.free p hp hdone
        · cases hdone
      · intro hfree _
        have hlocked : l.locked = false := hfree
        simp only [hlocked,Bool.not_false,Bool.true_and,all_eq_true,not_forall] at hbusy
        obtain ⟨q,hq,-⟩ := hbusy
        obtain ⟨p,hp,hpending⟩ := h.woken hlocked (ne_nil_of_mem hq)
        exact ⟨p,mem_append_left _ hp,hpending⟩
    · intro p hp hne
      obtain hp | rfl := mem_append.mp hp |>.imp_right mem_singleton.mp
      · exact ⟨p,hp,rfl,fun hc => hc⟩
      · exact absurd rfl hne
    · intro p hp _
      exact ⟨p.2,mem_append_left _ hp⟩

end AsyncLock

section Update

variable {multiprocess : Bool} {w : World} {before after contexts : List Context}
  {c c' d : Context} {lock : LockId} {l : AsyncLock}

theorem mem_mid : d ∈ before ++ c :: after ↔ d = c ∨ d ∈ before ++ after := by
  simp only [mem_append,mem_cons]
  tauto

theorem id_ne (hids : ((before ++ c :: after).map Context.id).Nodup) (hd : d ∈ before ++ after) :
    d.id ≠ c.id := by
  rw [(perm_middle.map Context.id).nodup_iff,map_cons,nodup_cons] at hids
  intro hid
  apply hids.1
  rw [← hid]
  exact mem_map_of_mem hd

theorem ids_mid (hids : ((before ++ c :: after).map Context.id).Nodup) (hid : c'.id = c.id) :
    ((before ++ c' :: after).map Context.id).Nodup := by
  rw [map_append,map_cons,hid,← map_cons,← map_append]
  exact hids

@[simp] theorem locks_setLock (lock' : LockId) :
    (w.setLock lock l).locks lock' = if lock' = lock then l else w.locks lock' := by
  unfold World.setLock
  by_cases h : lock' = lock
  · subst h
    simp
  · simp [h]

theorem Gates.update (h : Gates w (before ++ c :: after)) (c' : Context)
    (hothers : ∀ lock', lock' ≠ lock → gateCount lock' c' = gateCount lock' c)
    (hself : gateCount lock c' + (if (w.locks lock).locked then 1 else 0) =
      gateCount lock c + if l.locked then 1 else 0) :
    Gates (w.setLock lock l) (before ++ c' :: after) := by
  intro lock' hlt
  have hold := h lock' hlt
  rw [tally_mid] at hold ⊢
  rw [locks_setLock]
  by_cases hlock : lock' = lock
  · subst hlock
    rw [if_pos rfl]
    omega
  · rw [if_neg hlock,hothers lock' hlock]
    exact hold

theorem Gates.same (h : Gates w (before ++ c :: after)) (c' : Context)
    (hgates : ∀ lock, gateCount lock c' = gateCount lock c) : Gates w (before ++ c' :: after) := by
  intro lock hlt
  rw [tally_mid,hgates,← tally_mid]
  exact h lock hlt

theorem Waits.update (h : Waits w (before ++ c :: after)) (c' : Context)
    (hids : ((before ++ c :: after).map Context.id).Nodup)
    (hpasses : AsyncLock.Passes c.id (w.locks lock) l) (hid : c'.id = c.id)
    (hbefore : ∀ lock', c.Awaits lock' → lock' = lock)
    (hself : ∀ f, (c.id, f) ∈ l.waiters →
      c'.Awaits lock ∧ (f = .cancelled → c'.stage = .waiting true))
    (hqueued : ∀ lock', c'.Awaits lock' → lock' = lock ∧ ∃ f, (c.id, f) ∈ l.waiters) :
    Waits (w.setLock lock l) (before ++ c' :: after) := by
  refine ⟨?_,?_,?_⟩
  · intro lock' hlt
    rw [locks_setLock]
    split
    · rename_i hlock
      exact hpasses.fair (hlock ▸ h.fair lock' hlt)
    · exact h.fair lock' hlt
  · intro lock' hlt p hp
    rw [locks_setLock] at hp
    split at hp
    · rename_i hlock
      subst hlock
      by_cases hpid : p.1 = c.id
      · obtain ⟨hawaits,hcancelled⟩ := hself p.2 (by rw [← hpid]; exact hp)
        exact ⟨c',by simp,hid.trans hpid.symm,hawaits,hcancelled⟩
      · obtain ⟨q,hq,hname,hcancelled⟩ := hpasses.others p hp hpid
        obtain ⟨d,hd,hdid,hawaits,hstage⟩ := h.known lock' hlt q hq
        obtain rfl | hd := mem_mid.mp hd
        · exact absurd (hname.symm.trans hdid.symm) hpid
        · exact ⟨d,mem_mid.mpr (.inr hd),hdid.trans hname,hawaits,fun hc => hstage (hcancelled hc)⟩
    · rename_i hlock
      obtain ⟨d,hd,hdid,hawaits,hstage⟩ := h.known lock' hlt p hp
      obtain rfl | hd := mem_mid.mp hd
      · exact absurd (hbefore lock' hawaits) hlock
      · exact ⟨d,mem_mid.mpr (.inr hd),hdid,hawaits,hstage⟩
  · intro d hd lock' hawaits
    rw [locks_setLock]
    obtain rfl | hd := mem_mid.mp hd
    · obtain ⟨rfl,f,hf⟩ := hqueued lock' hawaits
      rw [if_pos rfl,hid]
      exact ⟨f,hf⟩
    · obtain ⟨f,hf⟩ := h.queued d (mem_mid.mpr (.inr hd)) lock' hawaits
      split
      · rename_i hlock
        subst hlock
        exact hpasses.stays _ hf (id_ne hids hd)
      · exact ⟨f,hf⟩

theorem Waits.same (h : Waits w (before ++ c :: after)) (c' : Context)
    (hbefore : ∀ lock, ¬c.Awaits lock) (hafter : ∀ lock, ¬c'.Awaits lock) :
    Waits w (before ++ c' :: after) := by
  refine ⟨h.fair,?_,?_⟩
  · intro lock hlt p hp
    obtain ⟨d,hd,hdid,hawaits,hstage⟩ := h.known lock hlt p hp
    obtain rfl | hd := mem_mid.mp hd
    · exact absurd hawaits (hbefore lock)
    · exact ⟨d,mem_mid.mpr (.inr hd),hdid,hawaits,hstage⟩
  · intro d hd lock hawaits
    obtain rfl | hd := mem_mid.mp hd
    · exact absurd hawaits (hafter lock)
    · exact h.queued d (mem_mid.mpr (.inr hd)) lock hawaits

theorem not_awaits (h : ∀ cancelled, c.stage ≠ .waiting cancelled) (lock : LockId) :
    ¬c.Awaits lock := by
  rintro ⟨⟨cancelled,hstage⟩,-⟩
  exact h cancelled hstage

theorem Leases.same (h : Leases w (before ++ c :: after)) (c' : Context) (hid : c'.id = c.id)
    (hleases : ∀ key, leaseCount key c' = leaseCount key c)
    (hentered : ∀ e ∈ c'.entries, e.entered = true → e ∈ c.entries) :
    Leases w (before ++ c' :: after) := by
  refine ⟨?_,?_⟩
  · intro key
    rw [tally_mid,hleases,← tally_mid]
    exact h.counted key
  · intro d hd e he hin
    obtain rfl | hd := mem_mid.mp hd
    · rw [hid]
      exact h.named c (by simp) e (hentered e he hin) hin
    · exact h.named d (mem_mid.mpr (.inr hd)) e he hin

theorem Leases.hold (h : Leases w (before ++ c :: after)) {e : Entry} {entries : List Entry}
    (hentries : c.entries = e :: entries) (hout : e.entered = false)
    (hfree : w.holders e.key = none) (hid : c'.id = c.id)
    (hentered : c'.entries = { e with entered := true } :: entries) :
    Leases { w with holders := Function.update w.holders e.key (some c.id) }
      (before ++ c' :: after) := by
  have hleases : ∀ key, leaseCount key c' = leaseCount key c + if key = e.key then 1 else 0 := by
    intro key
    unfold leaseCount
    rw [hentered,hentries]
    by_cases hkey : key = e.key
    · simp [hkey,hout]
    · simp [hkey,Ne.symm hkey]
  refine ⟨?_,?_⟩
  · intro key
    have hcounted := h.counted key
    rw [tally_mid] at hcounted ⊢
    rw [hleases]
    show _ = if (Function.update w.holders e.key (some c.id) key).isSome then 1 else 0
    by_cases hkey : key = e.key
    · subst hkey
      rw [hfree] at hcounted
      simp only [Option.isSome_none,Bool.false_eq_true,↓reduceIte] at hcounted
      simp only [update_self,Option.isSome_some]
      omega
    · rw [update_of_ne hkey,if_neg hkey]
      omega
  · intro d hd f hf hin
    show Function.update w.holders e.key (some c.id) f.key = some d.id
    by_cases hkey : f.key = e.key
    · rw [hkey,update_self]
      obtain rfl | hd := mem_mid.mp hd
      · rw [hid]
      · have hheld := h.named d (mem_mid.mpr (.inr hd)) f hf hin
        rw [hkey,hfree] at hheld
        cases hheld
    · rw [update_of_ne hkey]
      obtain rfl | hd := mem_mid.mp hd
      · rw [hentered] at hf
        obtain rfl | hf := mem_cons.mp hf
        · exact absurd rfl hkey
        · rw [hid]
          exact h.named c (by simp) f (by simp [hentries,hf]) hin
      · exact h.named d (mem_mid.mpr (.inr hd)) f hf hin

theorem Leases.release (h : Leases w (before ++ c :: after)) {e : Entry} {entries : List Entry}
    (hentries : c.entries = e :: entries) (hin : e.entered = true) (hid : c'.id = c.id)
    (hrest : c'.entries = entries) :
    Leases (w.releaseHolder e.key c.id) (before ++ c' :: after) := by
  have hheld : w.holders e.key = some c.id := h.named c (by simp) e (by simp [hentries]) hin
  have hleases : ∀ key, leaseCount key c = leaseCount key c' + if key = e.key then 1 else 0 := by
    intro key
    unfold leaseCount
    rw [hrest,hentries]
    by_cases hkey : key = e.key
    · simp [hkey,hin]
    · simp [hkey,Ne.symm hkey]
  have hnone : tally (leaseCount e.key) (before ++ c' :: after) = 0 := by
    have hcounted := h.counted e.key
    rw [tally_mid,hleases,hheld] at hcounted
    rw [tally_mid]
    simp only [Option.isSome_some] at hcounted
    omega
  unfold World.releaseHolder
  rw [if_pos hheld]
  refine ⟨?_,?_⟩
  · intro key
    show _ = if (Function.update w.holders e.key none key).isSome then 1 else 0
    by_cases hkey : key = e.key
    · subst hkey
      rw [hnone,update_self]
      rfl
    · have hcounted := h.counted key
      rw [update_of_ne hkey]
      rw [tally_mid] at hcounted ⊢
      rw [hleases,if_neg hkey] at hcounted
      exact hcounted
  · intro d hd f hf hfin
    show Function.update w.holders e.key none f.key = some d.id
    have hkey : f.key ≠ e.key := by
      intro hkey
      have hpos := leases_pos hf hfin
      have hle := le_tally (f := leaseCount f.key) hd
      rw [hkey] at hpos hle
      omega
    rw [update_of_ne hkey]
    obtain rfl | hd := mem_mid.mp hd
    · rw [hid]
      exact h.named c (by simp) f (by rw [hentries]; exact mem_cons_of_mem _ (hrest ▸ hf)) hfin
    · exact h.named d (mem_mid.mpr (.inr hd)) f hf hfin

end Update

end LightRAG.KeyedContexts
