import LightRAG.Framework.Run
import Mathlib.Algebra.GroupWithZero.Nat
import Mathlib.Data.List.Sort

/-!
# Contexts of keyed locks

`KeyedUnifiedLock`: a context takes the locks of its keys one after the other.
-/

namespace LightRAG.KeyedContexts

abbrev Key := String

abbrev Process := Nat

abbrev ContextId := Nat

/-- The identity of an `asyncio.Lock` object. -/
abbrev LockId := Nat

def combinedKey (factoryName key : String) : Key := factoryName ++ ":" ++ key

inductive Future
  | pending
  | done
  | cancelled
deriving DecidableEq

/-- `asyncio.Lock`: the deque holds the future of each waiter. -/
structure AsyncLock where
  locked : Bool
  waiters : List (ContextId × Future)
deriving DecidableEq

namespace AsyncLock

def new : AsyncLock := ⟨false, []⟩

def wakeUpFirst (l : AsyncLock) : AsyncLock :=
  match l.waiters with
  | (id, .pending) :: rest => { l with waiters := (id, .done) :: rest }
  | _ => l

variable (id : ContextId)

def acquire (l : AsyncLock) : Bool × AsyncLock :=
  if !l.locked && l.waiters.all fun w => w.2 = .cancelled then (true, { l with locked := true })
  else (false, { l with waiters := l.waiters ++ [(id, .pending)] })

def release (l : AsyncLock) : AsyncLock := wakeUpFirst { l with locked := false }

def remove (l : AsyncLock) : AsyncLock :=
  { l with waiters := l.waiters.filter fun w => w.1 ≠ id }

/-- The rest of `acquire` when the future of the waiter is done. -/
def resume (l : AsyncLock) : AsyncLock := { l.remove id with locked := true }

/-- The rest of `acquire` when its task was cancelled. -/
def abandon (l : AsyncLock) : AsyncLock :=
  if (l.remove id).locked then l.remove id else (l.remove id).wakeUpFirst

/-- The task of a waiter is cancelled: a future that is done stays done. -/
def cancel (l : AsyncLock) : AsyncLock :=
  { l with waiters := l.waiters.map fun w =>
      if w.1 = id ∧ w.2 = .pending then (id, .cancelled) else w }

end AsyncLock

/-- An element of `self._ul`; `gate` says that the lock of the event loop is held for it. -/
structure Entry where
  key : Key
  lock : LockId
  gate : Bool
  entered : Bool
deriving DecidableEq

/-- Where a context is: between two locks, at the lock of its last entry, at the holder table for
it, in the critical section, or releasing its entries after a failure or at the end. -/
inductive Stage
  | acquiring
  | waiting (cancelled : Bool)
  | polling
  | inside
  | rollback
  | exiting
deriving DecidableEq

/-- `_KeyedLockContext`: its keys, those it has not come to, and its entries, the last one first. -/
structure Context where
  id : ContextId
  process : Process
  keys : List Key
  todo : List Key
  entries : List Entry
  stage : Stage
deriving DecidableEq

/-- The lock objects, the table of each process with the references of each key, the holder table,
and the contexts that are not over. -/
structure World where
  locks : LockId → AsyncLock
  nextLock : LockId
  table : Process → Key → Option (LockId × Nat)
  holders : Key → Option ContextId
  contexts : List Context

namespace World

def setLock (lock : LockId) (l : AsyncLock) (w : World) : World :=
  { w with locks := Function.update w.locks lock l }

def setTable (process : Process) (key : Key) (entry : Option (LockId × Nat)) (w : World) : World :=
  { w with
    table := Function.update w.table process (Function.update (w.table process) key entry) }

/-- `_get_or_create_async_lock`. -/
def getOrCreate (process : Process) (key : Key) (w : World) : LockId × World :=
  match w.table process key with
  | some (lock, count) => (lock, w.setTable process key (some (lock, count + 1)))
  | none =>
    (w.nextLock, { (w.setTable process key (some (w.nextLock, 1))).setLock w.nextLock .new with
      nextLock := w.nextLock + 1 })

/-- `_release_async_lock`. -/
def releaseRef (process : Process) (key : Key) (w : World) : World :=
  match w.table process key with
  | some (lock, count) =>
    w.setTable process key (if count - 1 = 0 then none else some (lock, count - 1))
  | none => w

def releaseHolder (key : Key) (id : ContextId) (w : World) : World :=
  if w.holders key = some id then { w with holders := Function.update w.holders key none } else w

end World

section Steps

-- With several processes each lock of an event loop is the gate to the holder table.
variable (multiprocess : Bool)

def Context.gated (c : Context) : Context :=
  match c.entries with
  | [] => c
  | e :: entries =>
    if multiprocess then
      { c with entries := { e with gate := true } :: entries, stage := .polling }
    else { c with entries := { e with gate := true, entered := true } :: entries, stage := .acquiring }

def World.take (c : Context) (key : Key) (todo : List Key) (w : World) : Context × World :=
  let (lock, w) := w.getOrCreate c.process key
  let r := (w.locks lock).acquire c.id
  let c := { c with todo := todo, entries := ⟨key, lock, false, false⟩ :: c.entries,
                    stage := .waiting false }
  (if r.1 then c.gated multiprocess else c, w.setLock lock r.2)

/-- `UnifiedLock.__aexit__` of an entry, where it was entered, and the release of its reference. -/
def World.releaseEntry (c : Context) (e : Entry) (w : World) : World :=
  let released :=
    if e.entered then
      let w := if multiprocess then w.releaseHolder e.key c.id else w
      w.setLock e.lock (w.locks e.lock).release
    else w
  released.releaseRef c.process e.key

end Steps

inductive Event
  | enter (id : ContextId) (process : Process) (nameSpace : String) (keys : List String)
  | take (id : ContextId)
  | inside (id : ContextId)
  | resume (id : ContextId)
  | cancel (id : ContextId)
  | abandon (id : ContextId)
  | poll (id : ContextId)
  | fail (id : ContextId)
  | exit (id : ContextId)
  | release (id : ContextId)
  | leave (id : ContextId)
deriving DecidableEq

/-- One step of a context: what it becomes, if it goes on, and the world without it. -/
inductive Moves (multiprocess : Bool) (w : World) (c : Context) : Event → Option Context → World → Prop
  | take {key : Key} {todo : List Key} (hstage : c.stage = .acquiring)
      (htodo : c.todo = key :: todo) :
      Moves multiprocess w c (.take c.id) (some (w.take multiprocess c key todo).1)
        (w.take multiprocess c key todo).2
  | inside (hstage : c.stage = .acquiring) (htodo : c.todo = []) :
      Moves multiprocess w c (.inside c.id) (some { c with stage := .inside }) w
  | resume {e : Entry} {entries : List Entry} (hstage : c.stage = .waiting false)
      (hentries : c.entries = e :: entries) (hdone : (c.id, .done) ∈ (w.locks e.lock).waiters) :
      Moves multiprocess w c (.resume c.id) (some (c.gated multiprocess))
        (w.setLock e.lock ((w.locks e.lock).resume c.id))
  | cancel {e : Entry} {entries : List Entry} (hstage : c.stage = .waiting false)
      (hentries : c.entries = e :: entries) :
      Moves multiprocess w c (.cancel c.id) (some { c with stage := .waiting true })
        (w.setLock e.lock ((w.locks e.lock).cancel c.id))
  | abandon {e : Entry} {entries : List Entry} (hstage : c.stage = .waiting true)
      (hentries : c.entries = e :: entries) :
      Moves multiprocess w c (.abandon c.id) (some { c with stage := .rollback })
        (w.setLock e.lock ((w.locks e.lock).abandon c.id))
  | poll {e : Entry} {entries : List Entry} (hstage : c.stage = .polling)
      (hentries : c.entries = e :: entries) (hfree : w.holders e.key = none) :
      Moves multiprocess w c (.poll c.id)
        (some { c with entries := { e with entered := true } :: entries, stage := .acquiring })
        { w with holders := Function.update w.holders e.key (some c.id) }
  -- cancelled while it sleeps between two polls, or its request of the table failed
  | fail {e : Entry} {entries : List Entry} (hstage : c.stage = .polling)
      (hentries : c.entries = e :: entries) :
      Moves multiprocess w c (.fail c.id)
        (some { c with entries := { e with gate := false } :: entries, stage := .rollback })
        (w.setLock e.lock (w.locks e.lock).release)
  | exit (hstage : c.stage = .inside) :
      Moves multiprocess w c (.exit c.id) (some { c with stage := .exiting }) w
  | release {e : Entry} {entries : List Entry} (hstage : c.stage = .rollback ∨ c.stage = .exiting)
      (hentries : c.entries = e :: entries) :
      Moves multiprocess w c (.release c.id) (some { c with entries := entries })
        (w.releaseEntry multiprocess c e)
  | leave (hstage : c.stage = .rollback ∨ c.stage = .exiting) (hentries : c.entries = []) :
      Moves multiprocess w c (.leave c.id) none w

def sortedKeys (keys : List String) : List String := keys.mergeSort fun a b => decide (a ≤ b)

/-- A new context enters, or a context takes a step. -/
inductive Step (multiprocess : Bool) (w : World) : Event → World → Prop
  | enter {id : ContextId} {process : Process} (nameSpace : String) (keys : List String)
      (hfresh : id ∉ w.contexts.map Context.id) (hprocess : multiprocess = false → process = 0) :
      Step multiprocess w (.enter id process nameSpace keys)
        { w with contexts := w.contexts ++
          [⟨id, process, (sortedKeys keys).map (combinedKey nameSpace),
            (sortedKeys keys).map (combinedKey nameSpace), [], .acquiring⟩] }
  | moves {before after : List Context} {c : Context} {c' : Option Context} {e : Event} {w' : World}
      (hcontexts : w.contexts = before ++ c :: after) (hmoves : Moves multiprocess w c e c' w') :
      Step multiprocess w e { w' with contexts := before ++ c'.toList ++ after }

structure World.Initial (w : World) : Prop where
  nextLock : w.nextLock = 0
  table : ∀ process key, w.table process key = none
  holders : ∀ key, w.holders key = none
  contexts : w.contexts = []

/-- The steps of a context that nothing interrupts. -/
def Event.advances : Event → Bool
  | .enter _ _ _ _ | .cancel _ | .fail _ => false
  | _ => true

def Event.context : Event → ContextId
  | .enter id _ _ _ | .take id | .inside id | .resume id | .cancel id | .abandon id | .poll id
  | .fail id | .exit id | .release id | .leave id => id

end LightRAG.KeyedContexts

/-!
## References of keyed locks

A key has an entry in the table of a process exactly while contexts of the process hold or await it.
-/

namespace LightRAG.KeyedContexts
open List Option

def tally (f : Context → Nat) (contexts : List Context) : Nat := (contexts.map f).sum

section Tally

variable {f : Context → Nat} {before after contexts : List Context} {c : Context}

theorem tally_append : tally f (before ++ after) = tally f before + tally f after := by
  unfold tally
  rw [map_append,sum_append]

theorem tally_cons : tally f (c :: after) = f c + tally f after := by
  unfold tally
  rw [map_cons,sum_cons]

theorem tally_nil : tally f [] = 0 := rfl

theorem tally_mid : tally f (before ++ c :: after) = f c + tally f (before ++ after) := by
  rw [tally_append,tally_cons,tally_append]
  omega

theorem le_tally (h : c ∈ contexts) : f c ≤ tally f contexts := by
  obtain ⟨before,after,rfl⟩ := append_of_mem h
  rw [tally_mid]
  omega

theorem tally_eq_zero (h : ∀ c ∈ contexts, f c = 0) : tally f contexts = 0 := by
  induction contexts with
  | nil => rfl
  | cons c contexts ih =>
    rw [tally_cons,h c mem_cons_self,ih fun d hd => h d (mem_cons_of_mem _ hd)]

theorem add_le_tally {d : Context} (hc : c ∈ contexts) (hd : d ∈ contexts) (hne : c ≠ d) :
    f c + f d ≤ tally f contexts := by
  obtain ⟨before,after,rfl⟩ := append_of_mem hc
  have hrest : d ∈ before ++ after := by
    simp only [mem_append,mem_cons] at hd ⊢
    obtain hd | rfl | hd := hd
    · exact .inl hd
    · exact absurd rfl hne
    · exact .inr hd
  rw [tally_mid]
  have hle := le_tally (f := f) hrest
  omega

end Tally

def refCount (process : Process) (key : Key) (c : Context) : Nat :=
  if c.process = process then c.entries.countP fun e => e.key = key else 0

def gateCount (lock : LockId) (c : Context) : Nat := c.entries.countP fun e => e.lock = lock ∧ e.gate

def leaseCount (key : Key) (c : Context) : Nat := c.entries.countP fun e => e.key = key ∧ e.entered

theorem refs_pos {c : Context} {e : Entry} (he : e ∈ c.entries) : 1 ≤ refCount c.process e.key c := by
  unfold refCount
  rw [if_pos rfl]
  exact countP_pos_iff.mpr ⟨e,he,by simp⟩

theorem gates_pos {c : Context} {e : Entry} (he : e ∈ c.entries) (hgate : e.gate = true) :
    1 ≤ gateCount e.lock c :=
  countP_pos_iff.mpr ⟨e,he,by simp [hgate]⟩

theorem leases_pos {c : Context} {e : Entry} (he : e ∈ c.entries) (hentered : e.entered = true) :
    1 ≤ leaseCount e.key c :=
  countP_pos_iff.mpr ⟨e,he,by simp [hentered]⟩

section Table

variable {w : World} {process : Process} {key : Key}

@[simp] theorem table_setTable (entry : Option (LockId × Nat)) (process' : Process) (key' : Key) :
    (w.setTable process key entry).table process' key' =
      if process' = process ∧ key' = key then entry else w.table process' key' := by
  unfold World.setTable
  by_cases hp : process' = process
  · subst hp
    by_cases hk : key' = key
    · subst hk
      simp
    · simp [hk]
  · simp [hp]

structure References (w : World) (contexts : List Context) : Prop where
  shared : ∀ c ∈ contexts, ∀ e ∈ c.entries, ∃ n, w.table c.process e.key = some (e.lock, n)
  counted : ∀ process key,
    tally (refCount process key) contexts = (w.table process key).elim 0 Prod.snd
  positive : ∀ process key lock n, w.table process key = some (lock, n) →
    0 < n ∧ lock < w.nextLock
  distinct : ∀ process key process' key' lock n n', w.table process key = some (lock, n) →
    w.table process' key' = some (lock, n') → process = process' ∧ key = key'

namespace References

variable {contexts before after : List Context} {c c' : Context}

theorem congr {w' : World} (h : References w contexts) (htable : w'.table = w.table)
    (hnext : w'.nextLock = w.nextLock) : References w' contexts := by
  refine ⟨?_,?_,?_,?_⟩
  · rw [htable]
    exact h.shared
  · rw [htable]
    exact h.counted
  · rw [htable,hnext]
    exact h.positive
  · rw [htable]
    exact h.distinct

theorem same (h : References w (before ++ c :: after)) (c' : Context) (hprocess : c'.process = c.process)
    (hentries : c'.entries.map (fun e => (e.key, e.lock)) =
      c.entries.map fun e => (e.key, e.lock)) : References w (before ++ c' :: after) := by
  have hrefs : ∀ process key, refCount process key c' = refCount process key c := by
    intro process key
    have hcount : ∀ entries : List Entry, entries.countP (fun e => e.key = key) =
        (entries.map fun e => (e.key, e.lock)).countP fun p => p.1 = key := by
      intro entries
      rw [countP_map]
      rfl
    unfold refCount
    rw [hprocess,hcount,hcount,hentries]
  refine ⟨?_,?_,h.positive,h.distinct⟩
  · intro d hd e he
    by_cases hdc : d = c'
    · subst hdc
      have hpair : (e.key, e.lock) ∈ c.entries.map fun e => (e.key, e.lock) := by
        rw [← hentries]
        exact mem_map_of_mem he
      obtain ⟨e₀,he₀,heq⟩ := mem_map.mp hpair
      simp only [Prod.mk.injEq] at heq
      obtain ⟨n,hn⟩ := h.shared c (by simp) e₀ he₀
      rw [hprocess,← heq.1,← heq.2]
      exact ⟨n,hn⟩
    · apply h.shared d _ e he
      simp only [mem_append,mem_cons] at hd ⊢
      tauto
  · intro process key
    rw [tally_mid,hrefs,← tally_mid]
    exact h.counted process key

theorem getOrCreate (h : References w (before ++ c :: after)) {gate entered : Bool}
    (hprocess : c'.process = c.process)
    (hentries : c'.entries = ⟨key, (w.getOrCreate c.process key).1, gate, entered⟩ :: c.entries) :
    References (w.getOrCreate c.process key).2 (before ++ c' :: after) := by
  have hrefs : ∀ p k, refCount p k c' = refCount p k c + if p = c.process ∧ k = key then 1 else 0 := by
    intro p k
    unfold refCount
    rw [hprocess,hentries,countP_cons]
    by_cases hp : c.process = p
    · subst hp
      simp [eq_comm]
    · simp [hp,Ne.symm hp]
  have hold : ∀ d ∈ before ++ c' :: after, ∀ e ∈ d.entries,
      d = c' ∧ e = ⟨key,(w.getOrCreate c.process key).1,gate,entered⟩ ∨
        ∃ n, w.table d.process e.key = some (e.lock, n) := by
    intro d hd e he
    by_cases hdc : d = c'
    · subst hdc
      rw [hentries] at he
      obtain rfl | he := mem_cons.mp he
      · exact .inl ⟨rfl,rfl⟩
      · right
        rw [hprocess]
        exact h.shared c (by simp) e he
    · right
      apply h.shared d _ e he
      simp only [mem_append,mem_cons] at hd ⊢
      tauto
  unfold World.getOrCreate at *
  cases hfound : w.table c.process key with
  | some entry =>
    obtain ⟨lock,n⟩ := entry
    simp only [hfound] at hold hentries ⊢
    have hpos := h.positive c.process key lock n hfound
    refine ⟨?_,?_,?_,?_⟩
    · intro d hd e he
      rw [table_setTable]
      obtain ⟨rfl,rfl⟩ | ⟨m,hm⟩ := hold d hd e he
      · rw [hprocess,if_pos ⟨rfl,rfl⟩]
        exact ⟨n + 1,rfl⟩
      · split
        · rename_i heq
          rw [heq.1,heq.2,hfound] at hm
          cases hm
          exact ⟨n + 1,rfl⟩
        · exact ⟨m,hm⟩
    · intro p k
      have hcounted := h.counted p k
      rw [tally_mid] at hcounted ⊢
      rw [hrefs,table_setTable]
      split
      · rename_i heq
        rw [heq.1,heq.2,hfound] at hcounted
        simp only [elim_some] at hcounted ⊢
        rw [heq.1,heq.2]
        omega
      · omega
    · intro p k l m hm
      rw [table_setTable] at hm
      split at hm
      · cases hm
        exact ⟨by omega,hpos.2⟩
      · exact h.positive p k l m hm
    · intro p k p' k' l m m' hm hm'
      rw [table_setTable] at hm hm'
      split at hm <;> split at hm'
      · rename_i heq heq'
        exact ⟨heq.1.trans heq'.1.symm,heq.2.trans heq'.2.symm⟩
      · rename_i heq _
        cases hm
        rw [heq.1,heq.2]
        exact h.distinct _ _ _ _ _ _ _ hfound hm'
      · rename_i _ heq'
        cases hm'
        rw [heq'.1,heq'.2]
        exact h.distinct _ _ _ _ _ _ _ hm hfound
      · exact h.distinct _ _ _ _ _ _ _ hm hm'
  | none =>
    simp only [hfound] at hold hentries ⊢
    refine ⟨?_,?_,?_,?_⟩
    · intro d hd e he
      show ∃ m, (w.setTable c.process key (some (w.nextLock, 1))).table d.process e.key = _
      rw [table_setTable]
      obtain ⟨rfl,rfl⟩ | ⟨m,hm⟩ := hold d hd e he
      · rw [hprocess,if_pos ⟨rfl,rfl⟩]
        exact ⟨1,rfl⟩
      · split
        · rename_i heq
          rw [heq.1,heq.2,hfound] at hm
          cases hm
        · exact ⟨m,hm⟩
    · intro p k
      show _ = ((w.setTable c.process key (some (w.nextLock, 1))).table p k).elim 0 Prod.snd
      have hcounted := h.counted p k
      rw [tally_mid] at hcounted ⊢
      rw [hrefs,table_setTable]
      split
      · rename_i heq
        rw [heq.1,heq.2,hfound] at hcounted
        simp only [elim_some,elim_none] at hcounted ⊢
        rw [heq.1,heq.2]
        omega
      · omega
    · intro p k l m hm
      have hm' : (w.setTable c.process key (some (w.nextLock, 1))).table p k = some (l, m) := hm
      rw [table_setTable] at hm'
      show _ ∧ l < w.nextLock + 1
      split at hm'
      · cases hm'
        exact ⟨Nat.one_pos,Nat.lt_succ_self _⟩
      · have hpos := h.positive p k l m hm'
        exact ⟨hpos.1,Nat.lt_succ_of_lt hpos.2⟩
    · intro p k p' k' l m m' hm hm'
      have hold : (w.setTable c.process key (some (w.nextLock, 1))).table p k = some (l, m) := hm
      have hold' : (w.setTable c.process key (some (w.nextLock, 1))).table p' k' = some (l, m') :=
        hm'
      rw [table_setTable] at hold hold'
      split at hold <;> split at hold'
      · rename_i heq heq'
        exact ⟨heq.1.trans heq'.1.symm,heq.2.trans heq'.2.symm⟩
      · cases hold
        exact absurd (h.positive p' k' _ m' hold').2 (Nat.lt_irrefl _)
      · cases hold'
        exact absurd (h.positive p k _ m hold).2 (Nat.lt_irrefl _)
      · exact h.distinct _ _ _ _ _ _ _ hold hold'

theorem releaseRef (h : References w (before ++ c :: after)) {e : Entry} {entries : List Entry}
    (hentries : c.entries = e :: entries) (hprocess : c'.process = c.process)
    (hrest : c'.entries = entries) :
    References (w.releaseRef c.process e.key) (before ++ c' :: after) := by
  have hrefs : ∀ p k, refCount p k c = refCount p k c' + if p = c.process ∧ k = e.key then 1 else 0 := by
    intro p k
    unfold refCount
    rw [hprocess,hrest,hentries,countP_cons]
    by_cases hp : c.process = p
    · subst hp
      simp [eq_comm]
    · simp [hp,Ne.symm hp]
  obtain ⟨n,hn⟩ := h.shared c (by simp) e (by simp [hentries])
  have hpos := h.positive _ _ _ _ hn
  have htally := h.counted c.process e.key
  rw [tally_mid,hrefs,if_pos ⟨rfl,rfl⟩,hn,elim_some] at htally
  have hold : ∀ d ∈ before ++ c' :: after, ∀ f ∈ d.entries,
      ∃ m, w.table d.process f.key = some (f.lock, m) := by
    intro d hd f hf
    by_cases hdc : d = c'
    · subst hdc
      rw [hprocess]
      apply h.shared c (by simp) f
      rw [hentries]
      exact mem_cons_of_mem _ (hrest ▸ hf)
    · apply h.shared d _ f hf
      simp only [mem_append,mem_cons] at hd ⊢
      tauto
  unfold World.releaseRef
  rw [hn]
  refine ⟨?_,?_,?_,?_⟩
  · intro d hd f hf
    rw [table_setTable]
    obtain ⟨m,hm⟩ := hold d hd f hf
    split
    · rename_i heq
      have hmore : 1 ≤ tally (refCount c.process e.key) (before ++ c' :: after) := by
        apply le_trans _ (le_tally hd)
        rw [← heq.1,← heq.2]
        exact refs_pos hf
      rw [tally_mid] at hmore
      rw [heq.1,heq.2,hn] at hm
      simp only [some.injEq,Prod.mk.injEq] at hm
      rw [if_neg (by omega),hm.1]
      exact ⟨n - 1,rfl⟩
    · exact ⟨m,hm⟩
  · intro p k
    rw [table_setTable]
    have hcounted := h.counted p k
    rw [tally_mid] at hcounted ⊢
    rw [hrefs] at hcounted
    split
    · rename_i heq
      rw [heq.1,heq.2]
      by_cases hone : n - 1 = 0
      · rw [if_pos hone,elim_none]
        omega
      · rw [if_neg hone,elim_some]
        show _ = n - 1
        omega
    · rename_i hne
      rw [if_neg hne] at hcounted
      exact hcounted
  · intro p k l m hm
    rw [table_setTable] at hm
    split at hm
    · split at hm
      · cases hm
      · cases hm
        exact ⟨by omega,hpos.2⟩
    · exact h.positive p k l m hm
  · have hkept : ∀ p k l m, (w.setTable c.process e.key
        (if n - 1 = 0 then none else some (e.lock, n - 1))).table p k = some (l, m) →
        ∃ m', w.table p k = some (l, m') := by
      intro p k l m hm
      rw [table_setTable] at hm
      split at hm
      · rename_i heq
        split at hm
        · cases hm
        · cases hm
          rw [heq.1,heq.2]
          exact ⟨n,hn⟩
      · exact ⟨m,hm⟩
    intro p k p' k' l m m' hm hm'
    obtain ⟨m₁,hm₁⟩ := hkept _ _ _ _ hm
    obtain ⟨m₂,hm₂⟩ := hkept _ _ _ _ hm'
    exact h.distinct _ _ _ _ _ _ _ hm₁ hm₂

theorem enter (h : References w contexts) (hentries : c.entries = []) :
    References w (contexts ++ [c]) := by
  refine ⟨?_,?_,h.positive,h.distinct⟩
  · intro d hd e he
    obtain hd | rfl := mem_append.mp hd |>.imp_right mem_singleton.mp
    · exact h.shared d hd e he
    · rw [hentries] at he
      cases he
  · intro process key
    rw [tally_append,tally_cons,tally_nil,h.counted]
    simp [refCount,hentries]

theorem leave (h : References w (before ++ c :: after)) (hentries : c.entries = []) :
    References w (before ++ after) := by
  refine ⟨?_,?_,h.positive,h.distinct⟩
  · intro d hd
    apply h.shared d
    simp only [mem_append] at hd ⊢
    tauto
  · intro process key
    rw [← h.counted,tally_mid]
    simp [refCount,hentries]

end References

end Table

end LightRAG.KeyedContexts
