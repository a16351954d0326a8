import LightRAG.Pipeline.Ingress

/-!
# Both variants of the ingress behave alike

The asyncio variant simulates the mailbox: read as a mailbox, its state follows the same
operations with the same results.
-/

namespace LightRAG.Pipeline
open Tx Table List

def AsyncioIngress.view (a : AsyncioIngress) : Mailbox where
  documentCapacity := a.documentCapacity
  manualCapacity := a.manualCapacity
  documents := a.documentMessages.items
  documentOverflows := a.documentOverflows
  autoRescanPending := a.autoRescanPending
  manualRetries := a.manualRetries
  terminalIds := a.terminalIds

/-- Every queued item is unfinished, so `task_done` never raises, and the event is set while there
is work. -/
structure AsyncioIngress.Settled (a : AsyncioIngress) : Prop where
  unfinished : a.documentMessages.unfinished = a.documentMessages.items.length
  event : a.hasWork = true → a.workEvent = true

/-- From `a`, both bodies end in the same result and in states that agree. -/
structure Agrees {α : Type} (x : AsyncioIngress.Body α) (y : Mailbox.Body α) (a : AsyncioIngress) :
    Prop where
  result : (x a).1 = (y a.view).1
  view : (x a).2.view = (y a.view).2
  settled : (x a).2.Settled

section Agreement

variable {α β : Type} {x : AsyncioIngress.Body α} {y : Mailbox.Body α} {a b : AsyncioIngress}

theorem Agrees.returning (h : Agrees x y a) (f : α → β) :
    Agrees (x.returning f) (y.returning f) a := by
  obtain ⟨hresult,hview,hsettled⟩ := h
  simp only [Tx.returning]
  generalize hx : x a = rx at hresult hview hsettled
  generalize hy : y a.view = ry at hresult hview
  obtain ⟨rx,sx⟩ := rx
  obtain ⟨ry,sy⟩ := ry
  subst hresult hview
  cases rx with
  | error e => exact ⟨by simp [bind_apply,hx,hy],by simp [bind_apply,hx,hy],
      by simpa [bind_apply,hx] using hsettled⟩
  | ok v => exact ⟨by simp [bind_apply,pure_apply,hx,hy],
      by simp [bind_apply,pure_apply,hx,hy],by simpa [bind_apply,pure_apply,hx] using hsettled⟩

theorem Agrees.of_eq {r : Except ValueError α} (hx : x a = (r, b)) (hy : y a.view = (r, b.view))
    (hsettled : b.Settled) : Agrees x y a := by
  refine ⟨?_,?_,?_⟩
  · rw [hx,hy]
  · rw [hx,hy]
  · rw [hx]
    exact hsettled

theorem settled_maybeClear (hunfinished :
      a.documentMessages.unfinished = a.documentMessages.items.length)
    (hevent : a.hasWork = true → a.workEvent = true) :
    ((AsyncioIngress.maybeClearEvent a).2).Settled := by
  rw [AsyncioIngress.maybeClearEvent,execute_apply]
  split
  · exact ⟨hunfinished,hevent⟩
  · rename_i hidle
    refine ⟨hunfinished,?_⟩
    intro hwork
    exact absurd hwork hidle

theorem view_maybeClear (a : AsyncioIngress) :
    ((AsyncioIngress.maybeClearEvent a).2).view = a.view := by
  rw [AsyncioIngress.maybeClearEvent,execute_apply]
  split <;> rfl

/-- How many items the loop of `drain_documents` still takes. -/
def quota (limit : Option Int) (drained items : List Message) : Nat :=
  limit.elim items.length fun limit => (limit - drained.length).toNat

theorem taskDone_apply {items : List Message}
    (h : a.documentMessages = ⟨items, items.length + 1⟩) :
    AsyncioIngress.taskDone a = (.ok (), { a with documentMessages := ⟨items, items.length⟩ }) := by
  simp [AsyncioIngress.taskDone,bind_apply,fetch_apply,execute_apply,h]

theorem drainLoop_apply (limit : Option Int) (turns : Nat) (drained items : List Message)
    (hqueue : a.documentMessages = ⟨items, items.length⟩) (hturns : items.length < turns) :
    AsyncioIngress.drainLoop limit turns drained a =
      (.ok (drained ++ items.take (quota limit drained items)),
        { a with documentMessages :=
          ⟨items.drop (quota limit drained items), (items.drop (quota limit drained items)).length⟩ }) := by
  induction turns generalizing drained items a with
  | zero => omega
  | succ turns ih =>
    rw [AsyncioIngress.drainLoop]
    by_cases hmore : (limit.all fun limit => decide ((drained.length : Int) < limit)) = true
    · rw [if_pos hmore,bind_apply,fetch_apply]
      simp only [AsyncQueue.getNowait,hqueue]
      cases items with
      | nil =>
        show (Except.ok drained, a) = _
        have hsame : { a with documentMessages := ⟨[],0⟩ } = a := by
          rw [show (⟨[],0⟩ : AsyncQueue) = a.documentMessages from hqueue.symm]
        simp [hsame]
      | cons msg items =>
        simp only [bind_apply,execute_apply]
        have hdone : AsyncioIngress.taskDone
            { a with documentMessages := ⟨items,(msg :: items).length⟩ } =
              (.ok (), { a with documentMessages := ⟨items,items.length⟩ }) :=
          taskDone_apply rfl
        rw [hdone]
        dsimp only
        have hrest := @ih { a with documentMessages := ⟨items,items.length⟩ } (drained ++ [msg])
          items rfl (by simpa using hturns)
        rw [hrest]
        have hquota : quota limit drained (msg :: items) =
            quota limit (drained ++ [msg]) items + 1 := by
          cases limit with
          | none => rfl
          | some limit =>
            simp only [Option.all_some,decide_eq_true_eq] at hmore
            simp only [quota,Option.elim_some,length_append,length_singleton]
            omega
        rw [hquota]
        simp
    · rw [if_neg hmore,pure_apply]
      cases limit with
      | none => simp at hmore
      | some limit =>
        simp only [Option.all_some,decide_eq_true_eq] at hmore
        have hnone : quota (some limit) drained items = 0 := by
          simp only [quota,Option.elim_some]
          omega
        rw [hnone]
        simp [← hqueue]

end Agreement

section Operations

variable {a : AsyncioIngress} {msg : Message} {msgs : List Message} {requestId : String}

theorem putDocument_apply (hvalid : validateDocumentMessage msg = .ok ()) (h : a.Settled) :
    ∃ a', AsyncioIngress.putDocument msg a = (.ok (), a') ∧
      a'.view = a.view.putDocumentLocked msg ∧ a'.Settled := by
  simp only [AsyncioIngress.putDocument,bind_apply,checked,hvalid,fetch_apply,decide_eq_true_eq]
  by_cases hfull : a.documentCapacity ≤ a.documentMessages.items.length
  · rw [if_pos hfull]
    refine ⟨_,rfl,?_,⟨h.unfinished,fun _ => rfl⟩⟩
    simp [AsyncioIngress.view,Mailbox.putDocumentLocked,hfull]
  · rw [if_neg hfull]
    refine ⟨_,rfl,?_,⟨?_,fun _ => rfl⟩⟩
    · simp [AsyncioIngress.view,Mailbox.putDocumentLocked,hfull,AsyncQueue.putNowait]
    · have hunfinished := h.unfinished
      simp [AsyncQueue.putNowait,hunfinished]

theorem putEach_apply (hvalid : validateDocuments msgs = .ok ()) (h : a.Settled) :
    ∃ a', AsyncioIngress.putEach msgs a = (.ok (), a') ∧
      a'.view = msgs.foldl (fun m msg => m.putDocumentLocked msg) a.view ∧ a'.Settled := by
  induction msgs generalizing a with
  | nil => exact ⟨a,rfl,rfl,h⟩
  | cons msg msgs ih =>
    rw [validateDocuments] at hvalid
    cases hmsg : validateDocumentMessage msg with
    | error e =>
      rw [hmsg] at hvalid
      cases hvalid
    | ok _ =>
      rw [hmsg] at hvalid
      obtain ⟨a₁,hput,hview,hsettled⟩ := putDocument_apply hmsg h
      obtain ⟨a₂,hrest,hview',hsettled'⟩ := ih hvalid hsettled
      refine ⟨a₂,?_,?_,hsettled'⟩
      · rw [AsyncioIngress.putEach,bind_apply,hput]
        exact hrest
      · rw [hview',hview]
        rfl

theorem agrees_putDocument (h : a.Settled) :
    Agrees (AsyncioIngress.putDocument msg) (Mailbox.putDocument msg) a := by
  cases hvalid : validateDocumentMessage msg with
  | error e =>
    refine .of_eq (r := .error e) (b := a) ?_ ?_ h
    · simp [AsyncioIngress.putDocument,bind_apply,checked,hvalid]
    · simp [Mailbox.putDocument,bind_apply,checked,hvalid]
  | ok _ =>
    obtain ⟨a',hput,hview,hsettled⟩ := putDocument_apply hvalid h
    refine .of_eq hput ?_ hsettled
    rw [hview]
    simp [Mailbox.putDocument,bind_apply,checked,hvalid,execute_apply]

theorem agrees_putDocuments (h : a.Settled) :
    Agrees (AsyncioIngress.putDocuments msgs) (Mailbox.putDocuments msgs) a := by
  cases hvalid : validateDocuments msgs with
  | error e =>
    refine .of_eq (r := .error e) (b := a) ?_ ?_ h
    · simp [AsyncioIngress.putDocuments,bind_apply,checked,hvalid]
    · simp [Mailbox.putDocuments,bind_apply,checked,hvalid]
  | ok _ =>
    obtain ⟨a',hput,hview,hsettled⟩ := putEach_apply hvalid h
    refine .of_eq (r := .ok ()) (b := a') ?_ ?_ hsettled
    · simp [AsyncioIngress.putDocuments,bind_apply,checked,hvalid,hput]
    · rw [hview]
      simp [Mailbox.putDocuments,bind_apply,checked,hvalid,execute_apply]

theorem agrees_requestAutoRescan (h : a.Settled) :
    Agrees AsyncioIngress.requestAutoRescan Mailbox.requestAutoRescan a :=
  .of_eq rfl rfl ⟨h.unfinished,fun _ => rfl⟩

theorem agrees_requestManualRetry (h : a.Settled) :
    Agrees (AsyncioIngress.requestManualRetry requestId msg)
      (Mailbox.requestManualRetry requestId msg) a := by
  cases hvalid : validateManualRequest requestId msg with
  | error e =>
    refine .of_eq (r := .error e) (b := a) ?_ ?_ h
    · simp [AsyncioIngress.requestManualRetry,bind_apply,checked,hvalid]
    · simp [Mailbox.requestManualRetry,bind_apply,checked,hvalid]
  | ok _ =>
    by_cases hterminal : a.terminalIds.contains requestId = true
    · refine .of_eq (r := .ok .alreadyTerminal) (b := a) ?_ ?_ h
      · simp [AsyncioIngress.requestManualRetry,bind_apply,checked,hvalid,fetch_apply,
          hterminal,pure_apply]
      · simp [Mailbox.requestManualRetry,bind_apply,checked,hvalid,fetch_apply,
          AsyncioIngress.view,hterminal,pure_apply]
    · by_cases hpending : a.isPending requestId = true
      · have hpending' : a.view.isPending requestId = true := hpending
        refine .of_eq (r := .ok .accepted) (b := a) ?_ ?_ h
        · simp [AsyncioIngress.requestManualRetry,bind_apply,checked,hvalid,fetch_apply,
            hterminal,hpending,pure_apply]
        · have hterminal' : ¬a.view.terminalIds.contains requestId = true := hterminal
          simp [Mailbox.requestManualRetry,bind_apply,checked,hvalid,fetch_apply,
            hterminal',hpending',pure_apply]
      · have hterminal' : ¬a.view.terminalIds.contains requestId = true := hterminal
        have hpending' : ¬a.view.isPending requestId = true := hpending
        by_cases hfull : a.manualCapacity ≤ a.manualRetries.length
        · have hfull' : a.view.manualCapacity ≤ a.view.manualRetries.length := hfull
          refine .of_eq (r := .ok .capacityExceeded) (b := a) ?_ ?_ h
          · simp [AsyncioIngress.requestManualRetry,bind_apply,checked,hvalid,fetch_apply,
              hterminal,hpending,hfull,pure_apply]
          · simp [Mailbox.requestManualRetry,bind_apply,checked,hvalid,fetch_apply,
              hterminal',hpending',hfull',pure_apply]
        · have hfull' : ¬a.view.manualCapacity ≤ a.view.manualRetries.length := hfull
          refine .of_eq (r := .ok .accepted) (b := { a with
            manualRetries := a.manualRetries ++ [(requestId, msg)], workEvent := true }) ?_ ?_
              ⟨h.unfinished,fun _ => rfl⟩
          · simp [AsyncioIngress.requestManualRetry,bind_apply,checked,hvalid,fetch_apply,
              hterminal,hpending,hfull,pure_apply,execute_apply]
          · simp [Mailbox.requestManualRetry,bind_apply,checked,hvalid,fetch_apply,hterminal',
              hpending',hfull']
            rfl

theorem Agrees.maybeClear {α : Type} {v : α} {x : AsyncioIngress.Body α} {y : Mailbox.Body α}
    {a b : AsyncioIngress} (hx : x a = (.ok v, (AsyncioIngress.maybeClearEvent b).2))
    (hy : y a.view = (.ok v, b.view))
    (hunfinished : b.documentMessages.unfinished = b.documentMessages.items.length)
    (hevent : b.hasWork = true → b.workEvent = true) : Agrees x y a := by
  refine .of_eq hx ?_ (settled_maybeClear hunfinished hevent)
  rw [hy,view_maybeClear]

theorem agrees_consumeAutoRescan (h : a.Settled) :
    Agrees AsyncioIngress.consumeAutoRescan Mailbox.consumeAutoRescan a := by
  refine .maybeClear (b := { a with autoRescanPending := false }) rfl rfl h.unfinished ?_
  intro hwork
  apply h.event
  simp only [AsyncioIngress.hasWork,Bool.or_eq_true,Bool.or_false] at hwork ⊢
  exact hwork.imp_left .inl

theorem mailbox_drainDocuments_apply (limit : Option Int) (m : Mailbox) :
    Mailbox.drainDocuments limit m = (.ok (m.documents.take (quota limit [] m.documents)),
      { m with documents := m.documents.drop (quota limit [] m.documents) }) := by
  simp only [Mailbox.drainDocuments,bind_apply,fetch_apply]
  by_cases hall : (limit.all fun limit => decide ((m.documents.length : Int) ≤ limit)) = true
  · rw [if_pos hall]
    have hquota : m.documents.length ≤ quota limit [] m.documents := by
      cases limit with
      | none => exact le_rfl
      | some limit =>
        simp only [Option.all_some,decide_eq_true_eq] at hall
        simp only [quota,Option.elim_some,length_nil]
        omega
    rw [take_of_length_le hquota,drop_of_length_le hquota]
    rfl
  · rw [if_neg hall]
    cases limit with
    | none => simp at hall
    | some limit =>
      have hquota : (max 0 limit).toNat = quota (some limit) [] m.documents := by
        simp only [quota,Option.elim_some,length_nil]
        omega
      simp only [Option.getD_some,hquota]
      rfl

theorem drainDocuments_apply (limit : Option Int) (h : a.Settled) :
    AsyncioIngress.drainDocuments limit a =
      (.ok (a.documentMessages.items.take (quota limit [] a.documentMessages.items)),
        (AsyncioIngress.maybeClearEvent { a with documentMessages :=
          ⟨a.documentMessages.items.drop (quota limit [] a.documentMessages.items),
            (a.documentMessages.items.drop
              (quota limit [] a.documentMessages.items)).length⟩ }).2) := by
  have hqueue : a.documentMessages =
      ⟨a.documentMessages.items,a.documentMessages.items.length⟩ := by
    rw [← h.unfinished]
  have hloop := drainLoop_apply limit (a.documentMessages.items.length + 1) []
    a.documentMessages.items hqueue (Nat.lt_succ_self _)
  simp only [AsyncioIngress.drainDocuments,bind_apply,fetch_apply]
  rw [hloop]
  rfl

theorem agrees_drainDocuments (limit : Option Int) (h : a.Settled) :
    Agrees (AsyncioIngress.drainDocuments limit) (Mailbox.drainDocuments limit) a := by
  refine .maybeClear (drainDocuments_apply limit h) (mailbox_drainDocuments_apply limit a.view)
    rfl ?_
  · intro hwork
    apply h.event
    simp only [AsyncioIngress.hasWork,Bool.or_eq_true,Bool.not_eq_true',isEmpty_eq_false_iff]
      at hwork ⊢
    refine hwork.imp_left (.imp_left ?_)
    intro hrest hnone
    apply hrest
    rw [hnone,drop_nil]

theorem agrees_peekNextManualRetry (h : a.Settled) :
    Agrees AsyncioIngress.peekNextManualRetry Mailbox.peekNextManualRetry a :=
  .of_eq rfl rfl h

theorem agrees_snapshotManualRetries (h : a.Settled) :
    Agrees AsyncioIngress.snapshotManualRetries Mailbox.snapshotManualRetries a :=
  .of_eq rfl rfl h

theorem agrees_ackManualRetry (h : a.Settled) :
    Agrees (AsyncioIngress.ackManualRetry requestId) (Mailbox.ackManualRetry requestId) a := by
  refine .maybeClear (b := { a with
    manualRetries := deleteWhere (fun p => p.1 = requestId) a.manualRetries
    terminalIds := a.terminalIds.add requestId .acked }) rfl rfl h.unfinished ?_
  intro hwork
  apply h.event
  simp only [AsyncioIngress.hasWork,Bool.or_eq_true,Bool.not_eq_true',isEmpty_eq_false_iff]
    at hwork ⊢
  refine hwork.imp_right ?_
  intro hrest hnone
  apply hrest
  rw [hnone]
  rfl

theorem agrees_cancelManualRetries (h : a.Settled) :
    Agrees AsyncioIngress.cancelManualRetries Mailbox.cancelManualRetries a := by
  refine .maybeClear (b := a.cancelLocked) rfl rfl h.unfinished ?_
  intro hwork
  apply h.event
  simp only [AsyncioIngress.hasWork,Bool.or_eq_true] at hwork ⊢
  rcases hwork with hwork | hwork
  · exact .inl hwork
  · cases hwork

theorem settled_cancelLocked (h : a.Settled) : a.cancelLocked.Settled := by
  refine ⟨h.unfinished,?_⟩
  intro hwork
  apply h.event
  simp only [AsyncioIngress.hasWork,Bool.or_eq_true] at hwork ⊢
  rcases hwork with hwork | hwork
  · exact .inl hwork
  · cases hwork

theorem agrees_clear (h : a.Settled) : Agrees AsyncioIngress.clear Mailbox.clear a := by
  have hcancel := settled_cancelLocked h
  have hdrain := agrees_drainDocuments none hcancel
  cases hrun : AsyncioIngress.drainDocuments none a.cancelLocked with
  | mk r b =>
    have hmailbox : Mailbox.drainDocuments none a.cancelLocked.view =
        (.ok a.documentMessages.items, { a.cancelLocked.view with documents := [] }) := rfl
    have hresult : r = .ok a.documentMessages.items := by
      have hresult := hdrain.result
      rw [hrun] at hresult
      exact hresult
    have hview : b.view = { a.cancelLocked.view with documents := [] } := by
      have hview := hdrain.view
      rw [hrun] at hview
      exact hview
    have hsettled : b.Settled := by
      have hsettled := hdrain.settled
      rw [hrun] at hsettled
      exact hsettled
    refine .maybeClear (v := ()) (b := { b with autoRescanPending := false }) ?_ ?_ hsettled.unfinished ?_
    · simp only [AsyncioIngress.clear,bind_apply,execute_apply,hrun,hresult]
      rfl
    · have hflag : ({ b with autoRescanPending := false } : AsyncioIngress).view =
          { b.view with autoRescanPending := false } := rfl
      rw [hflag,hview]
      rfl
    · intro hwork
      apply hsettled.event
      simp only [AsyncioIngress.hasWork,Bool.or_eq_true,Bool.or_false] at hwork ⊢
      exact hwork.imp_left .inl

theorem agrees_perform (o : Op) (h : a.Settled) :
    Agrees (AsyncioIngress.perform o) (Mailbox.perform o) a := by
  cases o with
  | putDocument msg => exact (agrees_putDocument h).returning _
  | putDocuments msgs => exact (agrees_putDocuments h).returning _
  | requestAutoRescan => exact (agrees_requestAutoRescan h).returning _
  | requestManualRetry requestId msg => exact (agrees_requestManualRetry h).returning _
  | consumeAutoRescan => exact (agrees_consumeAutoRescan h).returning _
  | drainDocuments limit => exact (agrees_drainDocuments limit h).returning _
  | peekNextManualRetry => exact (agrees_peekNextManualRetry h).returning _
  | snapshotManualRetries => exact (agrees_snapshotManualRetries h).returning _
  | ackManualRetry requestId => exact (agrees_ackManualRetry h).returning _
  | cancelManualRetries => exact (agrees_cancelManualRetries h).returning _
  | clear => exact (agrees_clear h).returning _
  | hasWork => exact .of_eq rfl rfl h
  | counts => exact .of_eq rfl rfl h

end Operations

theorem foldl_putNowait (items : List Message) (q : AsyncQueue) :
    items.foldl (fun (q : AsyncQueue) msg => q.putNowait msg) q =
      ⟨q.items ++ items, q.unfinished + items.length⟩ := by
  induction items generalizing q with
  | nil => simp
  | cons msg items ih =>
    rw [foldl_cons,ih]
    simp only [AsyncQueue.putNowait,append_assoc,singleton_append,length_cons,
      AsyncQueue.mk.injEq,true_and]
    omega

theorem rebind_apply (a : AsyncioIngress) :
    (AsyncioIngress.rebindToCurrentLoop a).2.view = a.view ∧
      (AsyncioIngress.rebindToCurrentLoop a).2.Settled := by
  have hmoved : a.documentMessages.items.foldl (fun (q : AsyncQueue) msg => q.putNowait msg)
      .empty = ⟨a.documentMessages.items,a.documentMessages.items.length⟩ := by
    rw [foldl_putNowait]
    simp [AsyncQueue.empty]
  rw [AsyncioIngress.rebindToCurrentLoop,execute_apply]
  simp only [hmoved]
  split
  · exact ⟨rfl,rfl,fun _ => rfl⟩
  · rename_i hidle
    exact ⟨rfl,rfl,fun hwork => absurd hwork hidle⟩

def AsyncioIngress.performOrRebind : Option Op → AsyncioIngress.Body Result
  | some o => perform o
  | none => rebindToCurrentLoop.returning fun _ => .done

def observed (results : List (Option Op × Except ValueError Result)) :
    List (Op × Except ValueError Result) :=
  results.filterMap fun p => p.1.map fun o => (o, p.2)

theorem trace_agrees (calls : List (Option Op)) {a : AsyncioIngress} (h : a.Settled) :
    observed (trace AsyncioIngress.performOrRebind calls a).1 =
        (trace Mailbox.perform (calls.filterMap id) a.view).1 ∧
      (trace AsyncioIngress.performOrRebind calls a).2.view =
        (trace Mailbox.perform (calls.filterMap id) a.view).2 ∧
      (trace AsyncioIngress.performOrRebind calls a).2.Settled := by
  induction calls generalizing a with
  | nil => exact ⟨rfl,rfl,h⟩
  | cons call calls ih =>
    cases call with
    | none =>
      have hrebind := rebind_apply a
      have hrest := ih hrebind.2
      rw [hrebind.1] at hrest
      exact hrest
    | some o =>
      have hop := agrees_perform o h
      have hrest := ih hop.settled
      rw [hop.view] at hrest
      have hhead : observed (trace AsyncioIngress.performOrRebind (some o :: calls) a).1 =
          (o, (AsyncioIngress.perform o a).1) :: observed (trace AsyncioIngress.performOrRebind
            calls (AsyncioIngress.perform o a).2).1 := rfl
      refine ⟨?_,hrest.2.1,hrest.2.2⟩
      rw [hhead,hrest.1,hop.result]
      rfl

def validation : Op → Except ValueError Unit
  | .putDocument msg => validateDocumentMessage msg
  | .putDocuments msgs => validateDocuments msgs
  | .requestManualRetry requestId msg => validateManualRequest requestId msg
  | _ => .ok ()

section Errors

variable {o : Op} {e : ValueError}

theorem mailbox_perform_of_invalid (h : validation o = .error e) (m : Mailbox) :
    Mailbox.perform o m = (.error e, m) := by
  cases o with
  | putDocument msg =>
    have hvalid : validateDocumentMessage msg = .error e := h
    simp [Mailbox.perform,Tx.returning,Mailbox.putDocument,bind_apply,checked,hvalid]
  | putDocuments msgs =>
    have hvalid : validateDocuments msgs = .error e := h
    simp [Mailbox.perform,Tx.returning,Mailbox.putDocuments,bind_apply,checked,hvalid]
  | requestManualRetry requestId msg =>
    have hvalid : validateManualRequest requestId msg = .error e := h
    simp [Mailbox.perform,Tx.returning,Mailbox.requestManualRetry,bind_apply,checked,hvalid]
  | _ => cases h

theorem asyncio_perform_of_invalid (h : validation o = .error e) (a : AsyncioIngress) :
    AsyncioIngress.perform o a = (.error e, a) := by
  cases o with
  | putDocument msg =>
    have hvalid : validateDocumentMessage msg = .error e := h
    simp [AsyncioIngress.perform,Tx.returning,AsyncioIngress.putDocument,bind_apply,checked,hvalid]
  | putDocuments msgs =>
    have hvalid : validateDocuments msgs = .error e := h
    simp [AsyncioIngress.perform,Tx.returning,AsyncioIngress.putDocuments,bind_apply,checked,hvalid]
  | requestManualRetry requestId msg =>
    have hvalid : validateManualRequest requestId msg = .error e := h
    simp [AsyncioIngress.perform,Tx.returning,AsyncioIngress.requestManualRetry,bind_apply,
      checked,hvalid]
  | _ => cases h

theorem mailbox_perform_of_valid (h : validation o = .ok ()) (m : Mailbox) :
    ∃ r, (Mailbox.perform o m).1 = .ok r := by
  cases o with
  | putDocument msg =>
    have hvalid : validateDocumentMessage msg = .ok () := h
    simp [Mailbox.perform,Tx.returning,Mailbox.putDocument,bind_apply,checked,hvalid,
      execute_apply,pure_apply]
  | putDocuments msgs =>
    have hvalid : validateDocuments msgs = .ok () := h
    simp [Mailbox.perform,Tx.returning,Mailbox.putDocuments,bind_apply,checked,hvalid,
      execute_apply,pure_apply]
  | requestManualRetry requestId msg =>
    have hvalid : validateManualRequest requestId msg = .ok () := h
    simp only [Mailbox.perform,Tx.returning,Mailbox.requestManualRetry,bind_apply,checked,
      hvalid,fetch_apply]
    by_cases hterminal : m.terminalIds.contains requestId = true
    · exact ⟨.published .alreadyTerminal,by simp [hterminal,pure_apply]⟩
    · by_cases hpending : m.isPending requestId = true
      · exact ⟨.published .accepted,by simp [hterminal,hpending,pure_apply]⟩
      · by_cases hfull : m.manualCapacity ≤ m.manualRetries.length
        · exact ⟨.published .capacityExceeded,by simp [hterminal,hpending,hfull,pure_apply]⟩
        · exact ⟨.published .accepted,by
            simp [hterminal,hpending,hfull,pure_apply,bind_apply,execute_apply]⟩
  | drainDocuments limit =>
    refine ⟨.messages (m.documents.take (quota limit [] m.documents)),?_⟩
    simp only [Mailbox.perform,Tx.returning,bind_apply]
    rw [mailbox_drainDocuments_apply]
    rfl
  | _ => exact ⟨_,rfl⟩

end Errors

theorem settled_new (documentCapacity : Int) (manualCapacity : Option Int) (configured : Int) :
    (AsyncioIngress.new documentCapacity manualCapacity configured).Settled where
  unfinished := rfl
  event hwork := by cases hwork

/-- With rebinds anywhere between the operations, both variants return and raise the same and end
in the same mailbox state; what raises leaves either state as it was. -/
theorem ingress_equivalent (documentCapacity : Int) (manualCapacity : Option Int)
    (configured : Int) (calls : List (Option Op)) :
    let asyncio := trace AsyncioIngress.performOrRebind calls
      (.new documentCapacity manualCapacity configured)
    let mailbox := trace Mailbox.perform (calls.filterMap id)
      (.new documentCapacity manualCapacity configured)
    observed asyncio.1 = mailbox.1 ∧ asyncio.2.view = mailbox.2 ∧
      ∀ (o : Op) (e : ValueError),
        ((AsyncioIngress.perform o asyncio.2).1 = .error e ↔
          (Mailbox.perform o mailbox.2).1 = .error e) ∧
        ((Mailbox.perform o mailbox.2).1 = .error e →
          (AsyncioIngress.perform o asyncio.2).2 = asyncio.2 ∧
            (Mailbox.perform o mailbox.2).2 = mailbox.2) := by
  intro asyncio mailbox
  have hagrees := trace_agrees calls (settled_new documentCapacity manualCapacity configured)
  refine ⟨hagrees.1,hagrees.2.1,?_⟩
  intro o e
  have hview : asyncio.2.view = mailbox.2 := hagrees.2.1
  have hop := agrees_perform o hagrees.2.2
  have hresult : (AsyncioIngress.perform o asyncio.2).1 = (Mailbox.perform o mailbox.2).1 := by
    rw [← hview]
    exact hop.result
  rw [hresult]
  refine ⟨Iff.rfl,?_⟩
  intro hraises
  cases hvalid : validation o with
  | error e' =>
    rw [asyncio_perform_of_invalid hvalid,mailbox_perform_of_invalid hvalid]
    exact ⟨rfl,rfl⟩
  | ok _ =>
    have hreturns := mailbox_perform_of_valid hvalid mailbox.2
    rw [hraises] at hreturns
    obtain ⟨r,hr⟩ := hreturns
    cases hr

end LightRAG.Pipeline
