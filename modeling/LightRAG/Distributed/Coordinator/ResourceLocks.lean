import LightRAG.Distributed.Coordinator.Admission
import Mathlib.Data.List.Dedup

/-!
# Depths of resource locks

A lock row counts the contexts of one task that hold its key.
-/

namespace LightRAG.Coordination
open Table List Option

def Db.lockOn (db : Db) (key : String) : Option LockRow :=
  lookup LockRow.resourceKey db.resourceLocks key

def deepened (operationId taskId : Uuid) (key : String) : Option LockRow → LockRow
  | some l => { l with depth := l.depth + 1 }
  | none => ⟨key, operationId, taskId, 1⟩

def lifted (operationId taskId : Uuid) (keys : List String) (l : LockRow) : LockRow :=
  if l.operationId = operationId ∧ l.taskId = taskId ∧ l.resourceKey ∈ keys then
    { l with depth := l.depth - 1 }
  else l

section Rows

variable {operationId taskId : Uuid} {rows : List LockRow} {db : Db}

theorem keys_updateDepth (p : LockRow → Bool) (f : LockRow → Int) :
    (updateWhere p (fun l => { l with depth := f l }) rows).map (·.resourceKey) =
      rows.map (·.resourceKey) :=
  map_updateWhere fun _ => rfl

theorem lookup_updateDepth (p : LockRow → Bool) (f : LockRow → Int) (k : String) :
    lookup LockRow.resourceKey (updateWhere p (fun l => { l with depth := f l }) rows) k =
      (lookup LockRow.resourceKey rows k).map fun l =>
        if p l then { l with depth := f l } else l :=
  lookup_updateWhere (f := fun l : LockRow => { l with depth := f l }) (fun _ => rfl) k

theorem upsertLock_nodup (key : String) (hnd : (rows.map (·.resourceKey)).Nodup) :
    ((Db.upsertLock operationId taskId rows key).map (·.resourceKey)).Nodup := by
  unfold Db.upsertLock
  split
  · rw [keys_updateDepth]
    exact hnd
  · rename_i hfresh
    apply nodup_append_new hnd
    intro l hl hkey
    exact hfresh (any_eq_true.mpr ⟨l,hl,decide_eq_true hkey⟩)

theorem lookup_upsertLock (key k : String) :
    lookup LockRow.resourceKey (Db.upsertLock operationId taskId rows key) k =
      if k = key then some (deepened operationId taskId key (lookup LockRow.resourceKey rows key))
      else lookup LockRow.resourceKey rows k := by
  unfold Db.upsertLock
  split
  · rename_i hany
    rw [lookup_updateDepth]
    by_cases hk : k = key
    · subst k
      cases hrow : lookup LockRow.resourceKey rows key with
      | none =>
        obtain ⟨l,hl,hkey⟩ := any_eq_true.mp hany
        exact absurd (of_decide_eq_true hkey) (lookup_eq_none.mp hrow l hl)
      | some l =>
        have hkey : l.resourceKey = key := (mem_of_lookup hrow).2
        simp only [map_some,hkey,decide_true,if_true,deepened]
    · rw [if_neg hk]
      cases hrow : lookup LockRow.resourceKey rows k with
      | none => rfl
      | some l =>
        have hkey : l.resourceKey ≠ key := fun h => hk ((mem_of_lookup hrow).2 ▸ h)
        simp only [map_some,hkey,decide_false,Bool.false_eq_true,if_false]
  · rename_i hany
    have hnone : lookup LockRow.resourceKey rows key = none := by
      rw [lookup_eq_none]
      intro l hl hkey
      exact hany (any_eq_true.mpr ⟨l,hl,decide_eq_true hkey⟩)
    rw [lookup_append_new hnone,hnone]
    rfl

theorem acquire_nodup (keys : List String) (hnd : (rows.map (·.resourceKey)).Nodup) :
    ((keys.foldl (Db.upsertLock operationId taskId) rows).map (·.resourceKey)).Nodup := by
  induction keys generalizing rows with
  | nil => exact hnd
  | cons key keys ih => exact ih (upsertLock_nodup key hnd)

theorem lookup_acquire {keys : List String} (hkeys : keys.Nodup) (k : String) :
    lookup LockRow.resourceKey (keys.foldl (Db.upsertLock operationId taskId) rows) k =
      if k ∈ keys then some (deepened operationId taskId k (lookup LockRow.resourceKey rows k))
      else lookup LockRow.resourceKey rows k := by
  induction keys generalizing rows with
  | nil => simp
  | cons key keys ih =>
    obtain ⟨hnew,hrest⟩ := nodup_cons.mp hkeys
    rw [foldl_cons,ih hrest,lookup_upsertLock]
    by_cases hk : k = key
    · subst k
      simp only [if_neg hnew,mem_cons_self]
    · simp only [mem_cons,hk,if_false,false_or]

theorem lockOn_acquire {keys : List String} (hkeys : keys.Nodup) (k : String) :
    (db.acquireLocks operationId taskId keys).lockOn k =
      if k ∈ keys then some (deepened operationId taskId k (db.lockOn k)) else db.lockOn k :=
  lookup_acquire hkeys k

theorem lockOn_release (hnd : (db.resourceLocks.map (·.resourceKey)).Nodup)
    (keys : List String) (k : String) :
    (db.releaseLocks operationId taskId keys).lockOn k =
      ((db.lockOn k).map (lifted operationId taskId keys)).filter fun l =>
        !decide (l.operationId = operationId ∧ l.taskId = taskId ∧ l.depth = 0) := by
  simp only [Db.lockOn,Db.releaseLocks]
  rw [lookup_deleteWhere,lookup_updateDepth]
  · simp only [decide_eq_true_eq]
    rfl
  · rw [keys_updateDepth]
    exact hnd

theorem release_nodup (hnd : (db.resourceLocks.map (·.resourceKey)).Nodup) (keys : List String) :
    ((db.releaseLocks operationId taskId keys).resourceLocks.map (·.resourceKey)).Nodup := by
  apply nodup_deleteWhere
  rw [keys_updateDepth]
  exact hnd

theorem orderedKeys_nodup (keys : List String) : (orderedKeys keys).Nodup :=
  (perm_insertionSort _ _).nodup_iff.mpr (List.nodup_dedup keys)

theorem mem_orderedKeys {keys : List String} {k : String} : k ∈ orderedKeys keys ↔ k ∈ keys := by
  simp [orderedKeys]

end Rows

def LockContext.isOf (ctx : LockContext) (operationId taskId : Uuid) : Bool :=
  ctx.operation.id = operationId ∧ ctx.taskId = taskId

def contextsOn (held : List LockContext) (operationId taskId : Uuid) (key : String) : Nat :=
  held.countP fun ctx => ctx.operation.id = operationId ∧ ctx.taskId = taskId ∧ key ∈ ctx.keys

def World.held (w : World) : List LockContext := w.locks ++ w.retained

structure Held (db : Db) (held : List LockContext) : Prop where
  keys : (db.resourceLocks.map (·.resourceKey)).Nodup
  depth : ∀ key l, db.lockOn key = some l →
    l.depth = contextsOn held l.operationId l.taskId key ∧ 1 ≤ l.depth
  rows : ∀ ctx ∈ held, db.Active ctx.operation.id → ∀ key ∈ ctx.keys,
    ∃ l, db.lockOn key = some l ∧ l.operationId = ctx.operation.id ∧ l.taskId = ctx.taskId
  known : ∀ ctx ∈ held, ∃ o ∈ db.operations, o.id = ctx.operation.id

section Invariant

variable {db db' : Db} {held held' : List LockContext} {operationId taskId : Uuid}
  {keys : List String} {ctx : LockContext}

theorem contextsOn_cons (key : String) :
    contextsOn (ctx :: held) operationId taskId key = contextsOn held operationId taskId key +
      if ctx.operation.id = operationId ∧ ctx.taskId = taskId ∧ key ∈ ctx.keys then 1 else 0 := by
  simp only [contextsOn,countP_cons,decide_eq_true_eq]

theorem contextsOn_perm (h : held'.Perm held) (key : String) :
    contextsOn held' operationId taskId key = contextsOn held operationId taskId key :=
  h.countP_eq _

theorem contextsOn_pos {key : String} (h : 0 < contextsOn held operationId taskId key) :
    ∃ ctx ∈ held, ctx.operation.id = operationId ∧ ctx.taskId = taskId ∧ key ∈ ctx.keys := by
  obtain ⟨ctx,hctx,hmatch⟩ := countP_pos_iff.mp h
  exact ⟨ctx,hctx,of_decide_eq_true hmatch⟩

theorem Held.perm (h : Held db held) (hperm : held'.Perm held) : Held db held' where
  keys := h.keys
  depth := by
    intro key l hl
    rw [contextsOn_perm hperm]
    exact h.depth key l hl
  rows := fun ctx hctx => h.rows ctx (hperm.mem_iff.mp hctx)
  known := fun ctx hctx => h.known ctx (hperm.mem_iff.mp hctx)

/-- The invariant is kept by every write that keeps the lock rows and the known tickets and
activates none of the tickets that contexts belong to. -/
theorem Held.of_rows (h : Held db held) (hrows : db'.resourceLocks = db.resourceLocks)
    (hactive : ∀ ctx ∈ held, db'.Active ctx.operation.id → db.Active ctx.operation.id)
    (hknown : ∀ o ∈ db.operations, ∃ o' ∈ db'.operations, o'.id = o.id) : Held db' held where
  keys := hrows ▸ h.keys
  depth := by
    intro key l hl
    rw [Db.lockOn,hrows] at hl
    exact h.depth key l hl
  rows := by
    intro ctx hctx hact key hkey
    rw [Db.lockOn,hrows]
    exact h.rows ctx hctx (hactive ctx hctx hact) key hkey
  known := by
    intro ctx hctx
    obtain ⟨o,ho,hid⟩ := h.known ctx hctx
    obtain ⟨o',ho',hid'⟩ := hknown o ho
    exact ⟨o',ho',hid'.trans hid⟩

theorem Held.acquire (h : Held db held) (hactive : db.Active ctx.operation.id)
    (hkeys : ctx.keys.Nodup)
    (hfree : ∀ l ∈ db.resourceLocks, l.resourceKey ∈ ctx.keys →
      l.operationId = ctx.operation.id ∧ l.taskId = ctx.taskId) :
    Held (db.acquireLocks ctx.operation.id ctx.taskId ctx.keys) (ctx :: held) where
  keys := acquire_nodup ctx.keys h.keys
  depth := by
    intro key l hl
    rw [lockOn_acquire hkeys] at hl
    rw [contextsOn_cons]
    by_cases hkey : key ∈ ctx.keys
    · rw [if_pos hkey,some.injEq] at hl
      subst l
      cases hrow : db.lockOn key with
      | some l =>
        obtain ⟨hl,hlkey⟩ := mem_of_lookup hrow
        obtain ⟨hop,htask⟩ := hfree l hl (hlkey ▸ hkey)
        obtain ⟨hdepth,hpos⟩ := h.depth key l hrow
        rw [if_pos ⟨hop.symm,htask.symm,hkey⟩]
        simp only [deepened]
        omega
      | none =>
        -- a context of the task on this key would have left a row
        have hzero : contextsOn held ctx.operation.id ctx.taskId key = 0 := by
          by_contra hpos
          obtain ⟨other,hother,hop,htask,hother_key⟩ := contextsOn_pos (Nat.pos_of_ne_zero hpos)
          obtain ⟨l,hl,-⟩ := h.rows other hother (hop ▸ hactive) key hother_key
          rw [hrow] at hl
          cases hl
        simp [deepened,hzero,hkey]
    · rw [if_neg hkey] at hl
      rw [if_neg fun hmatch => hkey hmatch.2.2]
      exact h.depth key l hl
  rows := by
    intro other hother hact key hkey
    rw [lockOn_acquire hkeys]
    by_cases hmem : key ∈ ctx.keys
    · rw [if_pos hmem]
      refine ⟨_,rfl,?_⟩
      cases hrow : db.lockOn key with
      | some l =>
        obtain ⟨hl,hlkey⟩ := mem_of_lookup hrow
        rcases mem_cons.mp hother with rfl | hother
        · exact hfree l hl (hlkey ▸ hmem)
        · obtain ⟨l',hl',howner⟩ := h.rows other hother hact key hkey
          rw [hrow] at hl'
          cases hl'
          exact howner
      | none =>
        rcases mem_cons.mp hother with rfl | hother
        · exact ⟨rfl,rfl⟩
        · obtain ⟨l',hl',-⟩ := h.rows other hother hact key hkey
          rw [hrow] at hl'
          cases hl'
    · rw [if_neg hmem]
      rcases mem_cons.mp hother with rfl | hother
      · exact absurd hkey hmem
      · exact h.rows other hother hact key hkey
  known := by
    intro other hother
    rcases mem_cons.mp hother with rfl | hother
    · obtain ⟨o,ho,hid,-⟩ := hactive
      exact ⟨o,ho,hid⟩
    · exact h.known other hother

theorem Held.depth_of_held (h : Held db (ctx :: held)) (hactive : db.Active ctx.operation.id)
    {key : String} (hkey : key ∈ ctx.keys) :
    db.lockOn key = some ⟨key, ctx.operation.id, ctx.taskId,
      contextsOn held ctx.operation.id ctx.taskId key + 1⟩ := by
  obtain ⟨l,hl,hop,htask⟩ := h.rows ctx mem_cons_self hactive key hkey
  have hlkey : l.resourceKey = key := (mem_of_lookup hl).2
  obtain ⟨hdepth,-⟩ := h.depth key l hl
  rw [hop,htask,contextsOn_cons,if_pos ⟨rfl,rfl,hkey⟩] at hdepth
  rw [hl]
  cases l
  simp only at hlkey hop htask hdepth
  subst hlkey hop htask
  rw [hdepth]
  rfl

theorem Held.lockOn_release (h : Held db (ctx :: held)) (hactive : db.Active ctx.operation.id)
    (key : String) :
    (db.releaseLocks ctx.operation.id ctx.taskId ctx.keys).lockOn key =
      if key ∈ ctx.keys then
        if contextsOn held ctx.operation.id ctx.taskId key = 0 then none
        else some ⟨key, ctx.operation.id, ctx.taskId,
          contextsOn held ctx.operation.id ctx.taskId key⟩
      else db.lockOn key := by
  rw [Coordination.lockOn_release h.keys]
  by_cases hkey : key ∈ ctx.keys
  · rw [h.depth_of_held hactive hkey]
    simp only [map_some,lifted,hkey]
    by_cases hzero : contextsOn held ctx.operation.id ctx.taskId key = 0
    · simp [hzero]
    · simp [hzero]
  · rw [if_neg hkey]
    cases hrow : db.lockOn key with
    | none => rfl
    | some l =>
      have hlkey : l.resourceKey ∉ ctx.keys := (mem_of_lookup hrow).2 ▸ hkey
      have hpos : l.depth ≠ 0 := by
        have := (h.depth key l hrow).2
        omega
      simp [lifted,hlkey,hpos]

theorem Held.release (h : Held db (ctx :: held)) (hactive : db.Active ctx.operation.id) :
    Held (db.releaseLocks ctx.operation.id ctx.taskId ctx.keys) held where
  keys := release_nodup h.keys ctx.keys
  depth := by
    intro key l hl
    rw [h.lockOn_release hactive] at hl
    by_cases hkey : key ∈ ctx.keys
    · rw [if_pos hkey] at hl
      split at hl
      · cases hl
      · cases hl
        dsimp only
        omega
    · rw [if_neg hkey] at hl
      have hdepth := h.depth key l hl
      rw [contextsOn_cons,if_neg fun hmatch => hkey hmatch.2.2] at hdepth
      exact hdepth
  rows := by
    intro other hother hact key hkey
    obtain ⟨l,hl,hop,htask⟩ := h.rows other (mem_cons_of_mem _ hother) hact key hkey
    rw [h.lockOn_release hactive]
    by_cases hmem : key ∈ ctx.keys
    · rw [if_pos hmem]
      rw [h.depth_of_held hactive hmem,some.injEq] at hl
      subst l
      have hcount : contextsOn held ctx.operation.id ctx.taskId key ≠ 0 := by
        have hpos : 0 < contextsOn held ctx.operation.id ctx.taskId key :=
          countP_pos_iff.mpr ⟨other,hother,decide_eq_true ⟨hop.symm,htask.symm,hkey⟩⟩
        omega
      rw [if_neg hcount]
      exact ⟨_,rfl,hop,htask⟩
    · rw [if_neg hmem]
      exact ⟨l,hl,hop,htask⟩
  known := fun other hother => h.known other (mem_cons_of_mem _ hother)

end Invariant

section Effects

variable {db : Db} {e : Effect} {held : List LockContext}

/-- The effects that write lock rows, a recovery apart. -/
def Effect.movesLocks : Effect → Bool
  | acquire _ _ _ | release _ _ _ => true
  | _ => false

theorem active_of_apply {operationId : Uuid} (h : (e.apply db).Active operationId) :
    db.Active operationId ∨ ∃ o, e = .enter o ∧ o.id = operationId := by
  by_cases hmoves : e.movesTickets = false
  · exact .inl (active_of_tickets (apply_tickets hmoves).symm h)
  obtain ⟨o,ho,hid,hstate⟩ := h
  cases e with
  | enter p =>
    rcases mem_append.mp ho with ho | ho
    · exact .inl ⟨o,ho,hid,hstate⟩
    · rw [mem_singleton] at ho
      subst p
      exact .inr ⟨o,rfl,hid⟩
  | finish operationId now => exact .inl ⟨o,mem_complete_active ho hstate,hid,hstate⟩
  | recover a now => exact absurd hstate (recover_not_active ho)
  | _ => exact absurd rfl hmoves

theorem exists_apply_operations {o : OperationRow} (ho : o ∈ db.operations) :
    ∃ o' ∈ (e.apply db).operations, o'.id = o.id := by
  by_cases hmoves : e.movesTickets = false
  · obtain ⟨o',ho',hticket⟩ := exists_ticket (apply_tickets hmoves).symm ho
    exact ⟨o',ho',congrArg Ticket.id hticket⟩
  have hkept : ∀ (p : OperationRow → Bool) (f : OperationRow → OperationRow),
      (∀ r, (f r).id = r.id) → ∃ o' ∈ updateWhere p f db.operations, o'.id = o.id := by
    intro p f hf
    cases hp : p o with
    | true => exact ⟨f o,mem_updateWhere.mpr ⟨o,ho,.inl ⟨hp,rfl⟩⟩,hf o⟩
    | false => exact ⟨o,mem_updateWhere.mpr ⟨o,ho,.inr ⟨hp,rfl⟩⟩,rfl⟩
  cases e with
  | enter p => exact ⟨o,mem_append_left _ ho,rfl⟩
  | finish operationId now => exact hkept _ _ fun _ => rfl
  | recover a now => exact hkept _ _ fun _ => rfl
  | _ => exact absurd rfl hmoves

theorem Held.plain (h : Held db held) (hallowed : e.Allowed db) (hlocks : e.movesLocks = false) :
    Held (e.apply db) held := by
  have hknown : ∀ o ∈ db.operations, ∃ o' ∈ (e.apply db).operations, o'.id = o.id :=
    fun o ho => exists_apply_operations ho
  have hactive : ∀ ctx ∈ held, (e.apply db).Active ctx.operation.id →
      db.Active ctx.operation.id := by
    intro ctx hctx hact
    rcases active_of_apply hact with hold | ⟨o,rfl,hid⟩
    · exact hold
    · obtain ⟨p,hp,hpid⟩ := h.known ctx hctx
      exact absurd (hpid.trans hid.symm) (hallowed.2.2.2 p hp)
  cases e with
  | acquire operationId taskId keys => cases hlocks
  | release operationId taskId keys => cases hlocks
  | recover a now =>
    refine ⟨nodup_nil,?_,?_,?_⟩
    · intro key l hl
      cases hl
    · rintro ctx hctx ⟨o,ho,-,hstate⟩
      exact absurd hstate (recover_not_active ho)
    · intro ctx hctx
      obtain ⟨o,ho,hid⟩ := h.known ctx hctx
      obtain ⟨o',ho',hid'⟩ := hknown o ho
      exact ⟨o',ho',hid'.trans hid⟩
  | phase operationId docId phase metadata now =>
    have hrows : ((Effect.phase operationId docId phase metadata now).apply db).resourceLocks =
        db.resourceLocks := by
      cases docId <;> rfl
    exact h.of_rows hrows hactive hknown
  | _ => exact h.of_rows rfl hactive hknown

end Effects

theorem lock_outcome {self : Coordinator} {c : Call} {db db' : Db} {kept : Option Answer}
    (h : Outcome self c db kept db') (hlock : c.isLock = true) :
    (kept ≠ some .done ∧ db'.resourceLocks = db.resourceLocks ∧
        db'.operations = db.operations) ∨
      (kept = some .done ∧ (∀ op, c.permit = some op → db.Active op.id) ∧
        ∃ e : Effect, e.Of self c ∧ e.Allowed db ∧ db' = e.apply db) := by
  cases h with
  | refused => exact .inl ⟨nofun,rfl,rfl⟩
  | fenced reason _ _ => exact .inl ⟨nofun,rfl,rfl⟩
  | answered a _ _ hquiet =>
    rcases hquiet with hreads | ⟨-,rfl⟩
    · cases c <;> simp [Call.isLock,Call.reads] at hlock hreads
    · exact .inl ⟨nofun,rfl,rfl⟩
  | wrote a e hready _ hdone hof hallowed =>
    refine .inr ⟨by rw [hdone hlock],?_,e,hof,hallowed,rfl⟩
    intro op hop
    obtain ⟨row,-,hlive⟩ := hready.permitted op hop
    exact hlive.active

theorem acquire_of_call {self : Coordinator} {op : Operation} {taskId : Uuid} {given : List String}
    {e : Effect} (hof : e.Of self (.enterLock op taskId given)) :
    e = .acquire op.id taskId (orderedKeys given) := by
  cases e with
  | acquire operationId task keys =>
    obtain ⟨op',given',hcall,rfl,rfl⟩ := hof
    cases hcall
    rfl
  | _ => simp [Effect.Of,Call.isRaise] at hof

theorem release_of_call {self : Coordinator} {op : Operation} {taskId : Uuid} {keys : List String}
    {e : Effect} (hof : e.Of self (.exitLock op taskId keys)) : e = .release op.id taskId keys := by
  cases e with
  | release operationId task keys' =>
    obtain ⟨op',hcall,rfl⟩ := hof
    cases hcall
    rfl
  | _ => simp [Effect.Of,Call.isRaise] at hof

namespace World

theorem contexts_held {w : World} {i : Nat} {self : Coordinator} {c : Call} (e : Ended Answer)
    (henabled : w.Enabled i self c) :
    (∃ op taskId given, c = .enterLock op taskId given ∧ e.kept = some .done ∧
      (w.contexts i e c).held.Perm (⟨i, op, taskId, orderedKeys given⟩ :: w.held)) ∨
    (∃ op taskId keys, c = .exitLock op taskId keys ∧ e.kept = some .done ∧
      w.held.Perm (⟨i, op, taskId, keys⟩ :: (w.contexts i e c).held)) ∨
    ((c.isLock = true → e.kept ≠ some .done) ∧ (w.contexts i e c).held.Perm w.held) := by
  have hmoved : ∀ ctx ∈ w.locks,
      (w.locks.erase ctx ++ ctx :: w.retained).Perm (w.locks ++ w.retained) := by
    intro ctx hctx
    refine perm_middle.trans ?_
    exact ((perm_cons_erase hctx).symm.append_right w.retained)
  cases c with
  | enterLock op taskId given =>
    by_cases hkept : e.kept = some .done
    · refine .inl ⟨op,taskId,given,rfl,hkept,?_⟩
      simp only [contexts,if_pos hkept]
      split
      · exact List.Perm.refl _
      · exact perm_middle
    · refine .inr (.inr ⟨fun _ => hkept,?_⟩)
      simp only [contexts,if_neg hkept]
      exact List.Perm.refl _
  | exitLock op taskId keys =>
    by_cases hkept : e.kept = some .done
    · refine .inr (.inl ⟨op,taskId,keys,rfl,hkept,?_⟩)
      simp only [contexts,if_pos hkept]
      exact (perm_cons_erase henabled).append_right w.retained
    · refine .inr (.inr ⟨fun _ => hkept,?_⟩)
      simp only [contexts,if_neg hkept]
      exact hmoved _ henabled
  | raiseLock op taskId keys =>
    exact .inr (.inr ⟨fun h => absurd h Bool.false_ne_true,hmoved _ henabled⟩)
  | enterOperation kind exclusive metadata id =>
    refine .inr (.inr ⟨fun h => absurd h Bool.false_ne_true,?_⟩)
    simp only [contexts]
    split <;> exact List.Perm.refl _
  | publish op backend nameSpace method id =>
    refine .inr (.inr ⟨fun h => absurd h Bool.false_ne_true,?_⟩)
    simp only [contexts]
    split <;> exact List.Perm.refl _
  | _ => exact .inr (.inr ⟨fun h => absurd h Bool.false_ne_true,List.Perm.refl _⟩)

theorem movesLocks_of_call {self : Coordinator} {c : Call} {e : Effect} (hof : e.Of self c)
    (hlock : c.isLock = false) : e.movesLocks = false := by
  cases e with
  | acquire operationId taskId keys =>
    obtain ⟨op,given,rfl,-⟩ := hof
    cases hlock
  | release operationId taskId keys =>
    obtain ⟨op,rfl,-⟩ := hof
    cases hlock
  | _ => rfl

theorem held_call {w : World} {i : Nat} {fate : Fate} {now : Nat} {self : Coordinator} {c : Call}
    (h : Held w.db w.held) (henabled : w.Enabled i self c) :
    Held (self.perform fate now w.db c).db
      (w.contexts i (self.perform fate now w.db c) c).held := by
  have houtcome := perform_outcome self fate now w.db c
  rcases contexts_held (self.perform fate now w.db c) henabled with
    ⟨op,taskId,given,rfl,hkept,hperm⟩ | ⟨op,taskId,keys,rfl,hkept,hperm⟩ | ⟨hkept,hperm⟩
  · rcases lock_outcome houtcome rfl with ⟨hnot,-⟩ | ⟨-,hactive,e,hof,hallowed,happly⟩
    · exact absurd hkept hnot
    rw [happly]
    rw [acquire_of_call hof] at hallowed ⊢
    exact (h.acquire (hactive op rfl)
      (orderedKeys_nodup given) hallowed.2.2).perm hperm
  · rcases lock_outcome houtcome rfl with ⟨hnot,-⟩ | ⟨-,hactive,e,hof,-,happly⟩
    · exact absurd hkept hnot
    rw [happly,release_of_call hof]
    exact (h.perm hperm.symm).release (hactive op rfl)
  · refine Held.perm ?_ hperm
    by_cases hlock : c.isLock = true
    · rcases lock_outcome houtcome hlock with ⟨-,hrows,hoperations⟩ | ⟨hdone,-⟩
      · refine h.of_rows hrows ?_ ?_
        · intro ctx _ hact
          rw [Db.Active,hoperations] at hact
          exact hact
        · intro o ho
          exact ⟨o,hoperations ▸ ho,rfl⟩
      · exact absurd hdone (hkept hlock)
    rcases houtcome.effect with hsame | ⟨reason,-,-,hfence⟩ | ⟨e,hallowed,-,hof,happly⟩
    · rw [hsame]
      exact h
    · rw [hfence]
      exact h.plain (e := .fence reason) trivial rfl
    · rw [happly]
      exact h.plain hallowed (movesLocks_of_call hof (Bool.not_eq_true _ ▸ hlock))

variable {w w' : World}

theorem held_step {a : Action} (h : Held w.db w.held) (hstep : w.Step a w') :
    Held w'.db w'.held := by
  rcases step_contexts hstep with ⟨i,fate,now,c,rfl⟩ | ⟨hambient,hlocks,hretained,-⟩
  · obtain ⟨r,hstep⟩ := hstep
    obtain ⟨self,-,henabled,-,rfl⟩ := step_call hstep
    exact held_call h henabled
  have hsame : w'.held = w.held := by
    rw [held,hlocks,hretained]
    rfl
  rw [hsame]
  rcases step_cases hstep with ⟨i,created,-,-,rfl⟩ |
    ⟨i,before,after,-,-,-,-,hdb | ⟨e,hallowed,hmade,happly⟩⟩
  · exact h
  · rw [hdb]
    exact h
  rw [happly]
  cases hmade with
  | registered => exact h.plain hallowed rfl
  | dropped => exact h.plain hallowed rfl
  | fenced fate now c reason _ => exact absurd rfl (hambient i fate now c)
  | called fate now c _ _ _ _ => exact absurd rfl (hambient i fate now c)

theorem reachable_held {w : World} (h : w.Reachable) : Held w.db w.held := by
  apply h.invariant (I := fun w => Held w.db w.held)
  · rintro w rfl
    refine ⟨nodup_nil,?_,?_,?_⟩
    · intro key l hl
      cases hl
    · intro ctx hctx
      cases hctx
    · intro ctx hctx
      cases hctx
  · intro w a w' hstep hw
    exact held_step hw hstep

def heldBy (w : World) (operationId taskId : Uuid) : List LockContext :=
  w.held.filter (·.isOf operationId taskId)

/-- A run between two points of one task: steps that open and close none of its lock contexts,
and whole contexts, each entered and left normally around such a run. -/
inductive Nested (operationId taskId : Uuid) : World → World → Prop
  | nil (w : World) : Nested operationId taskId w w
  | other {w w₁ w' : World} {a : Action} (hstep : w.Step a w₁)
      (hheld : w₁.heldBy operationId taskId = w.heldBy operationId taskId)
      (rest : Nested operationId taskId w₁ w') : Nested operationId taskId w w'
  | context {w w₁ w₂ w₃ w' : World} {i : Nat} {fate fate' : Fate} {now now' : Nat}
      {op : Operation} {given : List String} (hop : op.id = operationId)
      (henter : w.step (.call i fate now (.enterLock op taskId given)) = some (.ok .done, w₁))
      (body : Nested operationId taskId w₁ w₂)
      (hexit : w₂.step (.call i fate' now' (.exitLock op taskId (orderedKeys given))) =
        some (.ok .done, w₃))
      (rest : Nested operationId taskId w₃ w') : Nested operationId taskId w w'

theorem enter_done {i : Nat} {fate : Fate} {now : Nat} {op : Operation}
    {taskId : Uuid} {given : List String}
    (h : w.step (.call i fate now (.enterLock op taskId given)) = some (.ok .done, w')) :
    w.db.Active op.id ∧ w'.db = w.db.acquireLocks op.id taskId (orderedKeys given) ∧
      w'.held.Perm (⟨i, op, taskId, orderedKeys given⟩ :: w.held) := by
  obtain ⟨self,-,henabled,hreply,rfl⟩ := step_call h
  have hkept := perform_result (.inl rfl) hreply.symm
  rcases lock_outcome (perform_outcome self fate now w.db (.enterLock op taskId given)) rfl with
    ⟨hnot,-⟩ | ⟨-,hactive,e,hof,-,happly⟩
  · exact absurd hkept hnot
  refine ⟨hactive op rfl,?_,?_⟩
  · rw [acquire_of_call hof] at happly
    exact happly
  · rcases contexts_held (self.perform fate now w.db (.enterLock op taskId given)) henabled with
      ⟨op',taskId',given',hcall,-,hperm⟩ | ⟨op',taskId',keys,hcall,-⟩ | ⟨hnot,-⟩
    · cases hcall
      exact hperm
    · cases hcall
    · exact absurd hkept (hnot rfl)

theorem exit_done {i : Nat} {fate : Fate} {now : Nat} {op : Operation}
    {taskId : Uuid} {keys : List String}
    (h : w.step (.call i fate now (.exitLock op taskId keys)) = some (.ok .done, w')) :
    w.db.Active op.id ∧ w'.db = w.db.releaseLocks op.id taskId keys ∧
      w.held.Perm (⟨i, op, taskId, keys⟩ :: w'.held) := by
  obtain ⟨self,-,henabled,hreply,rfl⟩ := step_call h
  have hkept := perform_result (.inl rfl) hreply.symm
  rcases lock_outcome (perform_outcome self fate now w.db (.exitLock op taskId keys)) rfl with
    ⟨hnot,-⟩ | ⟨-,hactive,e,hof,-,happly⟩
  · exact absurd hkept hnot
  refine ⟨hactive op rfl,?_,?_⟩
  · rw [release_of_call hof] at happly
    exact happly
  · rcases contexts_held (self.perform fate now w.db (.exitLock op taskId keys)) henabled with
      ⟨op',taskId',given',hcall,-⟩ | ⟨op',taskId',keys',hcall,-,hperm⟩ | ⟨hnot,-⟩
    · cases hcall
    · cases hcall
      exact hperm
    · exact absurd hkept (hnot rfl)

theorem filter_isOf {operationId taskId : Uuid} {ctx : LockContext} (held : List LockContext)
    (h : ctx.isOf operationId taskId = true) :
    (ctx :: held).filter (·.isOf operationId taskId) =
      ctx :: held.filter (·.isOf operationId taskId) :=
  filter_cons_of_pos h

theorem Nested.heldBy {operationId taskId : Uuid} (h : Nested operationId taskId w w') :
    (w'.heldBy operationId taskId).Perm (w.heldBy operationId taskId) := by
  induction h with
  | nil w => exact List.Perm.refl _
  | other _ hheld _ ih => exact hheld ▸ ih
  | @context w w₁ w₂ w₃ w' i fate fate' now now' op given hop henter _ hexit _ ihbody ihrest =>
    obtain ⟨-,-,hentered⟩ := enter_done henter
    obtain ⟨-,-,hleft⟩ := exit_done hexit
    have hmine : LockContext.isOf ⟨i,op,taskId,orderedKeys given⟩ operationId taskId = true := by
      simp [LockContext.isOf,hop]
    have hentered' := hentered.filter (·.isOf operationId taskId)
    have hleft' := hleft.filter (·.isOf operationId taskId)
    rw [filter_isOf _ hmine] at hentered' hleft'
    exact ihrest.trans (List.Perm.cons_inv (hleft'.symm.trans (ihbody.trans hentered')))

theorem Nested.reachable {operationId taskId : Uuid}
    (h : Nested operationId taskId w w') (hw : w.Reachable) : w'.Reachable := by
  induction h with
  | nil w => exact hw
  | other hstep _ _ ih => exact ih (hw.next hstep)
  | context _ henter _ hexit _ ihbody ihrest =>
    exact ihrest ((ihbody (LightRAG.Reachable.next hw ⟨_,henter⟩)).next ⟨_,hexit⟩)

theorem contextsOn_heldBy (w : World) (operationId taskId : Uuid) (key : String) :
    contextsOn w.held operationId taskId key =
      (w.heldBy operationId taskId).countP fun ctx => key ∈ ctx.keys := by
  rw [heldBy,countP_filter]
  apply countP_congr
  simp only [LockContext.isOf,decide_eq_true_eq,Bool.and_eq_true]
  tauto

end World

theorem lockOn_of_count {db db' : Db} {held held' : List LockContext} {operationId taskId : Uuid}
    {key : String} {l : LockRow} (h : Held db held) (h' : Held db' held')
    (hactive : db'.Active operationId)
    (hcount : contextsOn held operationId taskId key = contextsOn held' operationId taskId key)
    (hl : db.lockOn key = some l) (hop : l.operationId = operationId) (htask : l.taskId = taskId) :
    db'.lockOn key = some l := by
  obtain ⟨hdepth,hpos⟩ := h.depth key l hl
  rw [hop,htask] at hdepth
  have hheld : 0 < contextsOn held' operationId taskId key := by omega
  obtain ⟨ctx,hctx,hcop,hctask,hckey⟩ := contextsOn_pos hheld
  obtain ⟨l',hl',hop',htask'⟩ := h'.rows ctx hctx (hcop ▸ hactive) key hckey
  obtain ⟨hdepth',-⟩ := h'.depth key l' hl'
  have hkey : l.resourceKey = key := (mem_of_lookup hl).2
  have hkey' : l'.resourceKey = key := (mem_of_lookup hl').2
  cases l
  cases l'
  simp_all

/-- Each key has one row, whose depth counts the contexts of its owner that hold the key; an
acquisition deepens all of its keys or none; a normal exit undoes exactly its acquisition, and
after contexts nested in between it restores the rows the task had before entering. -/
theorem reentrant_resource_locks {w : World} (hw : w.Reachable) :
    ((w.db.resourceLocks.map (·.resourceKey)).Nodup ∧
      ∀ l ∈ w.db.resourceLocks,
        l.depth = contextsOn w.held l.operationId l.taskId l.resourceKey ∧ 1 ≤ l.depth) ∧
    (∀ i fate now op taskId given r w',
      w.step (.call i fate now (.enterLock op taskId given)) = some (r, w') →
        (∀ key, w'.db.lockOn key = w.db.lockOn key) ∨
        (∀ key ∈ given, ∀ l, w.db.lockOn key = some l →
          l.operationId = op.id ∧ l.taskId = taskId) ∧
        ∀ key, w'.db.lockOn key =
          if key ∈ given then some (deepened op.id taskId key (w.db.lockOn key))
          else w.db.lockOn key) ∧
    (∀ i fate now op taskId keys w',
      w.step (.call i fate now (.exitLock op taskId keys)) = some (.ok .done, w') →
        ∀ key,
          (key ∈ keys → w.db.lockOn key = some (deepened op.id taskId key (w'.db.lockOn key)) ∧
            ∀ l, w'.db.lockOn key = some l → l.operationId = op.id ∧ l.taskId = taskId) ∧
          (key ∉ keys → w'.db.lockOn key = w.db.lockOn key)) ∧
    ∀ i fate fate' now now' op taskId given w₁ w₂ w₃,
      w.step (.call i fate now (.enterLock op taskId given)) = some (.ok .done, w₁) →
      World.Nested op.id taskId w₁ w₂ →
      w₂.step (.call i fate' now' (.exitLock op taskId (orderedKeys given))) =
        some (.ok .done, w₃) →
      ∀ key l, l.operationId = op.id → l.taskId = taskId →
        (w₃.db.lockOn key = some l ↔ w.db.lockOn key = some l) := by
  have hheld := World.reachable_held hw
  refine ⟨⟨hheld.keys,?_⟩,?_,?_,?_⟩
  · intro l hl
    exact hheld.depth _ l ((lookup_eq_some hheld.keys).mpr ⟨hl,rfl⟩)
  · intro i fate now op taskId given r w' hstep
    obtain ⟨self,-,-,-,rfl⟩ := World.step_call hstep
    simp only [World.ended]
    rcases lock_outcome (perform_outcome self fate now w.db (.enterLock op taskId given)) rfl with
      ⟨-,hrows,-⟩ | ⟨-,-,e,hof,hallowed,happly⟩
    · refine .inl fun key => ?_
      rw [Db.lockOn,hrows]
      rfl
    refine .inr ?_
    rw [acquire_of_call hof] at hallowed happly
    refine ⟨?_,?_⟩
    · intro key hkey l hl
      obtain ⟨hmem,rfl⟩ := mem_of_lookup hl
      exact hallowed.2.2 l hmem (mem_orderedKeys.mpr hkey)
    · intro key
      rw [happly]
      have hdeepened := @lockOn_acquire op.id taskId w.db _
        (orderedKeys_nodup given) key
      simp only [mem_orderedKeys] at hdeepened
      exact hdeepened
  · intro i fate now op taskId keys w' hstep key
    obtain ⟨hactive,hdb,hperm⟩ := World.exit_done hstep
    have hbefore := hheld.perm hperm.symm
    have hafter := hbefore.lockOn_release hactive key
    rw [← hdb] at hafter
    refine ⟨?_,?_⟩
    · intro hkey
      rw [if_pos hkey] at hafter
      rw [hafter,hbefore.depth_of_held hactive hkey]
      split
      · rename_i hzero
        exact ⟨by simp [deepened,hzero],fun _ hl => absurd hl.symm (some_ne_none _)⟩
      · refine ⟨rfl,?_⟩
        intro l hl
        cases hl
        exact ⟨rfl,rfl⟩
    · intro hkey
      rw [if_neg hkey] at hafter
      exact hafter
  · intro i fate fate' now now' op taskId given w₁ w₂ w₃ henter hnested hexit key l hop htask
    obtain ⟨hactive,-,hentered⟩ := World.enter_done henter
    obtain ⟨hactive₂,hdb,-⟩ := World.exit_done hexit
    have hreach : w₃.Reachable := (hnested.reachable (LightRAG.Reachable.next hw ⟨_,henter⟩)).next
      ⟨_,hexit⟩
    have hheld₃ := World.reachable_held hreach
    have hactive₃ : w₃.db.Active op.id := by
      rw [hdb]
      exact hactive₂
    have hsame := (World.Nested.context rfl henter hnested hexit (.nil w₃)).heldBy
    have hcount : contextsOn w₃.held op.id taskId key = contextsOn w.held op.id taskId key := by
      rw [World.contextsOn_heldBy,World.contextsOn_heldBy]
      exact hsame.countP_eq _
    constructor
    · intro hl
      exact lockOn_of_count hheld₃ hheld hactive hcount hl hop htask
    · intro hl
      exact lockOn_of_count hheld hheld₃ hactive₃ hcount.symm hl hop htask

theorem reentrant_resource_locks_busyWriter :
    ∃ w w₁ w₃, World.init.run busyWriter = some w ∧
      w.step (.call 0 .delivered 7 (.enterLock ⟨11, 1, 7⟩ 1 ["a", "c", "a"])) =
        some (.ok .done, w₁) ∧
      w₁.step (.call 0 .delivered 8 (.exitLock ⟨11, 1, 7⟩ 1 ["a", "c"])) = some (.ok .done, w₃) ∧
      w₁.db.lockOn "a" = some ⟨"a", 11, 1, 2⟩ ∧ w₃.db.lockOn "a" = some ⟨"a", 11, 1, 1⟩ := by
  have hrun : (World.init.run busyWriter).isSome = true := by decide
  have hrow : (World.init.run busyWriter).map (·.db.lockOn "a") = some (some ⟨"a",11,1,1⟩) := by
    decide
  have henter : ((World.init.run busyWriter).bind
      (·.step (.call 0 .delivered 7 (.enterLock ⟨11,1,7⟩ 1 ["a", "c", "a"])))).map (·.1) =
        some (.ok .done) := by decide
  have hdeep : ((World.init.run busyWriter).bind
      (·.step (.call 0 .delivered 7 (.enterLock ⟨11,1,7⟩ 1 ["a", "c", "a"])))).map
        (·.2.db.lockOn "a") = some (some ⟨"a",11,1,2⟩) := by decide
  have hexit : (((World.init.run busyWriter).bind
      (·.step (.call 0 .delivered 7 (.enterLock ⟨11,1,7⟩ 1 ["a", "c", "a"])))).bind
        (·.2.step (.call 0 .delivered 8 (.exitLock ⟨11,1,7⟩ 1 ["a", "c"])))).map (·.1) =
          some (.ok .done) := by decide
  obtain ⟨w,hw⟩ := isSome_iff_exists.mp hrun
  rw [hw,map_some,some.injEq] at hrow
  rw [hw] at henter hdeep hexit
  obtain ⟨⟨r₁,w₁⟩,hstep,rfl⟩ := map_eq_some_iff.mp henter
  rw [hstep,map_some,some.injEq] at hdeep
  rw [hstep] at hexit
  obtain ⟨⟨r₃,w₃⟩,hstep₃,rfl⟩ := map_eq_some_iff.mp hexit
  refine ⟨w,w₁,w₃,hw,hstep,hstep₃,hdeep,?_⟩
  have hkeys : orderedKeys ["a", "c", "a"] = ["a", "c"] := by decide
  obtain ⟨-,-,-,hrestored⟩ := reentrant_resource_locks (World.reachable_run hw)
  exact (hrestored 0 .delivered .delivered 7 8 _ 1 _ w₁ w₁ w₃ hstep (.nil w₁)
    (hkeys ▸ hstep₃) "a" _ rfl rfl).mpr hrow

end LightRAG.Coordination
