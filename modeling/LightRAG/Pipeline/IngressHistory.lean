import LightRAG.Pipeline.IngressEquivalence

/-!
# What the ingress loses and what it keeps

Manual requests stay until they are acknowledged or cancelled and are refused afterwards; a
document notification may be dropped, but then a rescan is pending.
-/

namespace LightRAG.Pipeline
open Tx Table List

/-- What happened so far: the manual requests that were accepted and not retired since, every
retirement, and the document messages since the last clear. -/
structure History where
  pendingIds : List String
  terminalEvents : List (String × TerminalState)
  published : List Message
  returned : List Message
  dropped : List Message
  droppedLast : Bool
deriving DecidableEq

namespace History

def empty : History := ⟨[], [], [], [], [], false⟩

/-- A message is published; it is dropped when it meets a full queue. -/
def publish (m : Mailbox) (msg : Message) (h : History) : History :=
  { h with
    published := h.published ++ [msg]
    dropped := if m.documentCapacity ≤ m.documents.length then h.dropped ++ [msg] else h.dropped
    droppedLast := if m.documentCapacity ≤ m.documents.length then true else h.droppedLast }

def publishAll : List Message → Mailbox → History → History
  | [], _, h => h
  | msg :: msgs, m, h => publishAll msgs (m.putDocumentLocked msg) (h.publish m msg)

def accept (requestId : String) (h : History) : History :=
  { h with pendingIds :=
      if requestId ∈ h.pendingIds then h.pendingIds else h.pendingIds ++ [requestId] }

def ack (requestId : String) (h : History) : History :=
  { h with
    pendingIds := h.pendingIds.filter fun x => x ≠ requestId
    terminalEvents := h.terminalEvents ++ [(requestId, .acked)] }

def cancel (h : History) : History :=
  { h with
    pendingIds := []
    terminalEvents := h.terminalEvents ++ h.pendingIds.map fun x => (x, .cancelledByClear) }

/-- Record what an operation returned in the state `m`. -/
def record (m : Mailbox) (h : History) : Op → Except ValueError Result → History
  | .putDocument msg, .ok _ => h.publish m msg
  | .putDocuments msgs, .ok _ => publishAll msgs m h
  | .requestManualRetry requestId _, .ok (.published .accepted) => h.accept requestId
  | .consumeAutoRescan, .ok _ => { h with droppedLast := false }
  | .drainDocuments _, .ok (.messages msgs) => { h with returned := h.returned ++ msgs }
  | .ackManualRetry requestId, .ok _ => h.ack requestId
  | .cancelManualRetries, .ok _ => h.cancel
  | .clear, .ok _ =>
    { h.cancel with published := [], returned := [], dropped := [], droppedLast := false }
  | _, _ => h

def recordCall (a : AsyncioIngress) (h : History) : Call → Except ValueError Result → History
  | .op o, r => record a.view h o r
  | .getDocument, .ok (.message (some msg)) => { h with returned := h.returned ++ [msg] }
  | _, _ => h

/-- The first terminal event of `x` is `(x, st)`, and it lies within the last `capacity` distinct
terminal ids. -/
def WithinLast (h : History) (capacity : Nat) (x : String) (st : TerminalState) : Prop :=
  ∃ pre post, h.terminalEvents = pre ++ (x, st) :: post ∧ x ∉ pre.map Prod.fst ∧
    (x :: post.map Prod.fst).toFinset.card ≤ capacity

end History

def recorded {σ ο : Type} (perform : ο → Tx σ ValueError Result)
    (record : σ → History → ο → Except ValueError Result → History) :
    List ο → History → σ → History × σ
  | [], h, s => (h, s)
  | o :: ops, h, s => recorded perform record ops (record s h o (perform o s).1) (perform o s).2

structure Lawful (h : History) (m : Mailbox) : Prop where
  disjoint : ∀ x, m.isPending x = true → m.terminalIds.contains x = false
  pending : m.manualRetries.map Prod.fst = h.pendingIds
  bounded : m.manualRetries.length ≤ m.manualCapacity
  kept : ∀ x st, h.WithinLast m.terminalIds.capacity x st →
    m.terminalIds.get x = some st ∧ m.isPending x = false
  ledger : h.published.Perm (h.returned ++ m.documents ++ h.dropped)
  dirty : h.droppedLast = true → m.autoRescanPending = true

structure Accounted (h : History) (m : Mailbox) : Prop where
  positive : 1 ≤ m.terminalIds.capacity
  pending : m.manualRetries.map Prod.fst = h.pendingIds
  terminal : m.terminalIds.ids = h.terminalEvents.foldl (Recent.add m.terminalIds.capacity) []
  disjoint : ∀ x ∈ h.pendingIds, x ∉ m.terminalIds.ids.map Prod.fst
  nodup : h.pendingIds.Nodup
  bounded : m.manualRetries.length ≤ m.manualCapacity
  ledger : h.published.Perm (h.returned ++ m.documents ++ h.dropped)
  dirty : h.droppedLast = true → m.autoRescanPending = true

section Invariant

variable {h : History} {m : Mailbox} {requestId x : String} {msg : Message}

theorem isPending_iff : m.isPending x = true ↔ x ∈ m.manualRetries.map Prod.fst := by
  simp [Mailbox.isPending]

theorem contains_iff (t : TerminalIds) : t.contains x = true ↔ x ∈ t.ids.map Prod.fst := by
  simp [TerminalIds.contains]

theorem addAll_eq (requestIds : List String) (st : TerminalState) (t : TerminalIds) :
    t.addAll requestIds st = ⟨t.capacity,
      (requestIds.map fun x => (x, st)).foldl (Recent.add t.capacity) t.ids⟩ := by
  induction requestIds generalizing t with
  | nil => rfl
  | cons requestId requestIds ih => exact ih (t.add requestId st)

theorem Accounted.lawful (hm : Accounted h m) : Lawful h m where
  disjoint x hx := by
    rw [isPending_iff,hm.pending] at hx
    have hnot := hm.disjoint x hx
    rw [← contains_iff] at hnot
    exact Bool.eq_false_of_not_eq_true hnot
  pending := hm.pending
  bounded := hm.bounded
  kept x st hrecent := by
    obtain ⟨pre,post,hevents,hfirst,hcard⟩ := hrecent
    have hlookup := Recent.lookup_of_recent (v := st) hm.positive hfirst hcard
    have hget : m.terminalIds.get x = some st := by
      rw [TerminalIds.get,hm.terminal,hevents,hlookup]
      rfl
    refine ⟨hget,?_⟩
    by_contra hpending
    rw [Bool.not_eq_false,isPending_iff,hm.pending] at hpending
    apply hm.disjoint x hpending
    rw [hm.terminal,hevents]
    exact mem_map.mpr ⟨_,(mem_of_lookup hlookup).1,rfl⟩
  ledger := hm.ledger
  dirty := hm.dirty

theorem Accounted.publish (hm : Accounted h m) :
    Accounted (h.publish m msg) (m.putDocumentLocked msg) := by
  by_cases hfull : m.documentCapacity ≤ m.documents.length
  · have hput : m.putDocumentLocked msg =
        { m with documentOverflows := m.documentOverflows + 1, autoRescanPending := true } := by
      simp [Mailbox.putDocumentLocked,hfull]
    rw [hput]
    refine { hm with ledger := ?_, dirty := fun _ => rfl }
    simp only [History.publish,hfull,if_true]
    rw [← append_assoc]
    exact hm.ledger.append_right _
  · have hput : m.putDocumentLocked msg = { m with documents := m.documents ++ [msg] } := by
      simp [Mailbox.putDocumentLocked,hfull]
    rw [hput]
    refine { hm with ledger := ?_, dirty := ?_ }
    · simp only [History.publish,hfull]
      refine (hm.ledger.append_right [msg]).trans ?_
      simp only [append_assoc]
      refine (perm_append_comm.append_left m.documents).append_left h.returned
    · simp only [History.publish,hfull]
      exact hm.dirty

theorem Accounted.publishAll (msgs : List Message) (hm : Accounted h m) :
    Accounted (h.publishAll msgs m) (msgs.foldl (fun m msg => m.putDocumentLocked msg) m) := by
  induction msgs generalizing h m with
  | nil => exact hm
  | cons msg msgs ih => exact ih hm.publish

theorem Accounted.accept (hm : Accounted h m) (hterminal : ¬m.terminalIds.contains x = true)
    (hpending : ¬m.isPending x = true) (hroom : ¬m.manualCapacity ≤ m.manualRetries.length) :
    Accounted (h.accept x) { m with manualRetries := m.manualRetries ++ [(x, msg)] } := by
  rw [isPending_iff,hm.pending] at hpending
  rw [contains_iff] at hterminal
  refine { hm with pending := ?_, disjoint := ?_, nodup := ?_, bounded := ?_ }
  · simp only [History.accept,if_neg hpending,map_append,hm.pending,map_cons,map_nil]
  · intro y hy
    simp only [History.accept,if_neg hpending,mem_append,mem_singleton] at hy
    rcases hy with hy | rfl
    · exact hm.disjoint y hy
    · exact hterminal
  · simp only [History.accept,if_neg hpending]
    rw [← concat_eq_append]
    exact hm.nodup.concat hpending
  · show (m.manualRetries ++ [(x, msg)]).length ≤ m.manualCapacity
    rw [length_append,length_singleton]
    omega

theorem Accounted.accept_pending (hm : Accounted h m) (hpending : m.isPending x = true) :
    Accounted (h.accept x) m := by
  rw [isPending_iff,hm.pending] at hpending
  have hsame : h.accept x = h := by
    rw [History.accept,if_pos hpending]
  rw [hsame]
  exact hm

theorem Accounted.ack (hm : Accounted h m) :
    Accounted (h.ack x) { m with
      manualRetries := deleteWhere (fun p => p.1 = x) m.manualRetries
      terminalIds := m.terminalIds.add x .acked } := by
  refine { hm with pending := ?_, terminal := ?_, disjoint := ?_, nodup := ?_, bounded := ?_ }
  · simp only [History.ack,← hm.pending,filter_map]
    congr 1
    apply filter_congr
    simp
  · show Recent.add m.terminalIds.capacity m.terminalIds.ids (x, .acked) =
      (h.terminalEvents ++ [(x, TerminalState.acked)]).foldl (Recent.add m.terminalIds.capacity) []
    rw [foldl_append,← hm.terminal]
    rfl
  · intro y hy hterminal
    simp only [History.ack,mem_filter,decide_eq_true_eq] at hy
    rcases Recent.mem_add hterminal with hold | hnew
    · exact hm.disjoint y hy.1 hold
    · exact hy.2 hnew
  · exact hm.nodup.sublist filter_sublist
  · exact (length_deleteWhere_le _ _).trans hm.bounded

theorem Accounted.cancel (hm : Accounted h m) : Accounted h.cancel m.cancelLocked := by
  refine { hm with positive := ?_, pending := rfl, terminal := ?_, disjoint := ?_, nodup := ?_,
                   bounded := ?_ }
  · show 1 ≤ (m.terminalIds.addAll (m.manualRetries.map Prod.fst) .cancelledByClear).capacity
    rw [addAll_eq]
    exact hm.positive
  · show (m.terminalIds.addAll (m.manualRetries.map Prod.fst) .cancelledByClear).ids =
      (h.terminalEvents ++ h.pendingIds.map fun x => (x, TerminalState.cancelledByClear)).foldl
        (Recent.add (m.terminalIds.addAll (m.manualRetries.map Prod.fst) .cancelledByClear).capacity)
        []
    rw [addAll_eq,foldl_append,← hm.terminal,hm.pending]
  · intro y hy
    cases hy
  · exact nodup_nil
  · exact Nat.zero_le _

theorem Accounted.drain (n : Nat) (hm : Accounted h m) :
    Accounted { h with returned := h.returned ++ m.documents.take n }
      { m with documents := m.documents.drop n } := by
  refine { hm with ledger := ?_ }
  show h.published.Perm (h.returned ++ m.documents.take n ++ m.documents.drop n ++ h.dropped)
  rw [append_assoc h.returned,take_append_drop]
  exact hm.ledger

theorem perform_manual_cases (hvalid : validateManualRequest x msg = .ok ()) (m : Mailbox) :
    m.terminalIds.contains x = true ∧
      Mailbox.perform (.requestManualRetry x msg) m = (.ok (.published .alreadyTerminal), m) ∨
    ¬m.terminalIds.contains x = true ∧ m.isPending x = true ∧
      Mailbox.perform (.requestManualRetry x msg) m = (.ok (.published .accepted), m) ∨
    ¬m.terminalIds.contains x = true ∧ ¬m.isPending x = true ∧
      m.manualCapacity ≤ m.manualRetries.length ∧
      Mailbox.perform (.requestManualRetry x msg) m = (.ok (.published .capacityExceeded), m) ∨
    ¬m.terminalIds.contains x = true ∧ ¬m.isPending x = true ∧
      ¬m.manualCapacity ≤ m.manualRetries.length ∧
      Mailbox.perform (.requestManualRetry x msg) m = (.ok (.published .accepted),
        { m with manualRetries := m.manualRetries ++ [(x, msg)] }) := by
  simp only [Mailbox.perform,Tx.returning,Mailbox.requestManualRetry,bind_apply,checked,
    hvalid,fetch_apply]
  by_cases hterminal : m.terminalIds.contains x = true
  · exact .inl ⟨hterminal,by simp [hterminal,pure_apply]⟩
  · refine .inr ?_
    by_cases hpending : m.isPending x = true
    · exact .inl ⟨hterminal,hpending,by simp [hterminal,hpending,pure_apply]⟩
    · refine .inr ?_
      by_cases hfull : m.manualCapacity ≤ m.manualRetries.length
      · exact .inl ⟨hterminal,hpending,hfull,by simp [hterminal,hpending,hfull,pure_apply]⟩
      · exact .inr ⟨hterminal,hpending,hfull,by
          simp [hterminal,hpending,hfull,pure_apply,bind_apply,execute_apply]⟩

theorem Accounted.perform (o : Op) (hm : Accounted h m) :
    Accounted (History.record m h o (Mailbox.perform o m).1) (Mailbox.perform o m).2 := by
  cases hvalidation : validation o with
  | error e =>
    rw [mailbox_perform_of_invalid hvalidation]
    have hsame : History.record m h o (.error e) = h := by
      cases o <;> rfl
    rw [hsame]
    exact hm
  | ok _ =>
    cases o with
    | putDocument msg =>
      have hrun : Mailbox.perform (.putDocument msg) m = (.ok .done, m.putDocumentLocked msg) := by
        have hvalid : validateDocumentMessage msg = .ok () := hvalidation
        simp [Mailbox.perform,Tx.returning,Mailbox.putDocument,bind_apply,checked,hvalid,
          execute_apply,pure_apply]
      rw [hrun]
      exact hm.publish
    | putDocuments msgs =>
      have hrun : Mailbox.perform (.putDocuments msgs) m =
          (.ok .done, msgs.foldl (fun m msg => m.putDocumentLocked msg) m) := by
        have hvalid : validateDocuments msgs = .ok () := hvalidation
        simp [Mailbox.perform,Tx.returning,Mailbox.putDocuments,bind_apply,checked,hvalid,
          execute_apply,pure_apply]
      rw [hrun]
      exact hm.publishAll msgs
    | requestAutoRescan => exact { hm with dirty := fun _ => rfl }
    | requestManualRetry requestId msg =>
      rcases perform_manual_cases hvalidation m with ⟨_,hrun⟩ | ⟨_,hpending,hrun⟩ |
        ⟨_,_,_,hrun⟩ | ⟨hterminal,hpending,hroom,hrun⟩
      · rw [hrun]
        exact hm
      · rw [hrun]
        exact hm.accept_pending hpending
      · rw [hrun]
        exact hm
      · rw [hrun]
        exact hm.accept hterminal hpending hroom
    | consumeAutoRescan => exact { hm with dirty := fun hlast => by cases hlast }
    | drainDocuments limit =>
      have hrun : Mailbox.perform (.drainDocuments limit) m =
          (.ok (.messages (m.documents.take (quota limit [] m.documents))),
            { m with documents := m.documents.drop (quota limit [] m.documents) }) := by
        simp only [Mailbox.perform,Tx.returning,bind_apply]
        rw [mailbox_drainDocuments_apply]
        rfl
      rw [hrun]
      exact hm.drain _
    | peekNextManualRetry => exact hm
    | snapshotManualRetries => exact hm
    | ackManualRetry requestId => exact hm.ack
    | cancelManualRetries => exact hm.cancel
    | clear =>
      have hcancel := hm.cancel
      exact { hcancel with ledger := .refl _, dirty := fun hlast => by cases hlast }
    | hasWork => exact hm
    | counts => exact hm

theorem accounted_recorded (ops : List Op) (hm : Accounted h m) :
    Accounted (recorded Mailbox.perform History.record ops h m).1
      (recorded Mailbox.perform History.record ops h m).2 := by
  induction ops generalizing h m with
  | nil => exact hm
  | cons o ops ih => exact ih (hm.perform o)

theorem accounted_new (documentCapacity : Int) (manualCapacity : Option Int) (configured : Int) :
    Accounted .empty (.new documentCapacity manualCapacity configured) where
  positive := show 1 ≤ (max 1 TerminalIds.defaultCapacity).toNat by decide
  pending := rfl
  terminal := rfl
  disjoint x hx := by cases hx
  nodup := nodup_nil
  bounded := Nat.zero_le _
  ledger := .refl _
  dirty hlast := by cases hlast

end Invariant

section Asyncio

variable {h : History} {a : AsyncioIngress}

theorem getDocument_apply {msg : Message} {items : List Message}
    (hqueue : a.documentMessages = ⟨msg :: items, items.length + 1⟩) :
    AsyncioIngress.getDocument a = (.ok (some msg), (AsyncioIngress.maybeClearEvent
      { a with documentMessages := ⟨items, items.length⟩ }).2) := by
  have hnext : a.documentMessages.getNowait = some (msg, ⟨items,items.length + 1⟩) := by
    rw [hqueue]
    rfl
  simp only [AsyncioIngress.getDocument,bind_apply,fetch_apply,hnext,execute_apply]
  rfl

theorem Accounted.call (c : Call) (hm : Accounted h a.view) (hs : a.Settled) :
    Accounted (History.recordCall a h c (AsyncioIngress.call c a).1)
        (AsyncioIngress.call c a).2.view ∧
      (AsyncioIngress.call c a).2.Settled := by
  cases c with
  | op o =>
    have hop := agrees_perform o hs
    have hnext := hm.perform o
    rw [← hop.result,← hop.view] at hnext
    exact ⟨hnext,hop.settled⟩
  | rebindToCurrentLoop =>
    have hrebind := rebind_apply a
    have hview : (AsyncioIngress.call .rebindToCurrentLoop a).2.view = a.view := hrebind.1
    rw [hview]
    exact ⟨hm,hrebind.2⟩
  | getDocument =>
    cases hitems : a.documentMessages.items with
    | nil =>
      have hnext : a.documentMessages.getNowait = none := by
        rw [AsyncQueue.getNowait,hitems]
      have hrun : AsyncioIngress.call .getDocument a = (.ok (.message none), a) := by
        simp [AsyncioIngress.call,Tx.returning,AsyncioIngress.getDocument,bind_apply,
          fetch_apply,hnext,pure_apply]
      rw [hrun]
      exact ⟨hm,hs⟩
    | cons msg items =>
      have hqueue : a.documentMessages = ⟨msg :: items,items.length + 1⟩ := by
        rw [← length_cons (a := msg),← hitems,← hs.unfinished]
      have hrun : AsyncioIngress.call .getDocument a = (.ok (.message (some msg)),
          (AsyncioIngress.maybeClearEvent
            { a with documentMessages := ⟨items,items.length⟩ }).2) := by
        simp only [AsyncioIngress.call,Tx.returning,bind_apply]
        rw [getDocument_apply hqueue]
        rfl
      rw [hrun]
      have hnext := hm.drain 1
      have hdocuments : a.view.documents = msg :: items := hitems
      rw [hdocuments] at hnext
      rw [view_maybeClear]
      refine ⟨hnext,settled_maybeClear rfl fun _ => hs.event ?_⟩
      simp [AsyncioIngress.hasWork,hitems]
  | waitForItems =>
    by_cases hwork : a.hasWork = true
    · have hrun : AsyncioIngress.call .waitForItems a = (.ok (.flag true), a) := by
        simp [AsyncioIngress.call,Tx.returning,AsyncioIngress.waitForItems,bind_apply,
          fetch_apply,hwork,pure_apply]
      rw [hrun]
      exact ⟨hm,hs⟩
    · have hrun : AsyncioIngress.call .waitForItems a =
          (.ok (.flag a.hasWork), { a with workEvent := false }) := by
        simp [AsyncioIngress.call,Tx.returning,AsyncioIngress.waitForItems,bind_apply,
          fetch_apply,hwork,pure_apply,execute_apply]
      rw [hrun]
      exact ⟨hm,hs.unfinished,fun hafter => absurd hafter hwork⟩

theorem accounted_recordedCalls (calls : List Call) (hm : Accounted h a.view) (hs : a.Settled) :
    Accounted (recorded AsyncioIngress.call History.recordCall calls h a).1
        (recorded AsyncioIngress.call History.recordCall calls h a).2.view ∧
      (recorded AsyncioIngress.call History.recordCall calls h a).2.Settled := by
  induction calls generalizing h a with
  | nil => exact ⟨hm,hs⟩
  | cons c calls ih =>
    have hnext := hm.call c hs
    exact ih hnext.1 hnext.2

theorem refused_of_terminal {x : String} {msg : Message}
    (hvalid : validateManualRequest x msg = .ok ()) (hterminal : a.terminalIds.contains x = true) :
    AsyncioIngress.perform (.requestManualRetry x msg) a =
      (.ok (.published .alreadyTerminal), a) := by
  simp [AsyncioIngress.perform,Tx.returning,AsyncioIngress.requestManualRetry,bind_apply,
    checked,hvalid,fetch_apply,hterminal,pure_apply]

end Asyncio

theorem contains_of_get {t : TerminalIds} {x : String} {st : TerminalState}
    (h : t.get x = some st) : t.contains x = true := by
  rw [TerminalIds.get,Option.map_eq_some_iff] at h
  obtain ⟨p,hp,-⟩ := h
  have hmem := mem_of_lookup hp
  rw [contains_iff]
  exact mem_map.mpr ⟨p,hmem⟩

/-- Over every sequence of operations from the empty state, of the mailbox and of the asyncio
variant with its rebinds, `get_document` and `wait_for_items`, the channels keep their laws and a
recently retired id is refused; work in the asyncio variant sets its event. -/
theorem ingress_history (documentCapacity : Int) (manualCapacity : Option Int)
    (configured : Int) :
    (∀ ops : List Op,
      let mailbox := recorded Mailbox.perform History.record ops .empty
        (.new documentCapacity manualCapacity configured)
      Lawful mailbox.1 mailbox.2 ∧
        ∀ x st msg, mailbox.1.WithinLast mailbox.2.terminalIds.capacity x st →
          validateManualRequest x msg = .ok () →
          Mailbox.perform (.requestManualRetry x msg) mailbox.2 =
            (.ok (.published .alreadyTerminal), mailbox.2)) ∧
    ∀ calls : List Call,
      let asyncio := recorded AsyncioIngress.call History.recordCall calls .empty
        (.new documentCapacity manualCapacity configured)
      Lawful asyncio.1 asyncio.2.view ∧
        (∀ x st msg, asyncio.1.WithinLast asyncio.2.terminalIds.capacity x st →
          validateManualRequest x msg = .ok () →
          AsyncioIngress.perform (.requestManualRetry x msg) asyncio.2 =
            (.ok (.published .alreadyTerminal), asyncio.2)) ∧
        (asyncio.2.hasWork = true → asyncio.2.workEvent = true) := by
  have hnew := accounted_new documentCapacity manualCapacity configured
  refine ⟨?_,?_⟩
  · intro ops mailbox
    have hlaws := (accounted_recorded ops hnew).lawful
    refine ⟨hlaws,?_⟩
    intro x st msg hrecent hvalid
    have hterminal := contains_of_get (hlaws.kept x st hrecent).1
    rcases perform_manual_cases hvalid mailbox.2 with ⟨_,hrun⟩ | ⟨hnot,_⟩ | ⟨hnot,_⟩ | ⟨hnot,_⟩
    · exact hrun
    · exact absurd hterminal hnot
    · exact absurd hterminal hnot
    · exact absurd hterminal hnot
  · intro calls asyncio
    have hrun := accounted_recordedCalls calls hnew
      (settled_new documentCapacity manualCapacity configured)
    have hlaws := hrun.1.lawful
    refine ⟨hlaws,?_,hrun.2.event⟩
    intro x st msg hrecent hvalid
    exact refused_of_terminal hvalid (contains_of_get (hlaws.kept x st hrecent).1)

end LightRAG.Pipeline
