import LightRAG.Storage.EmbeddedStoreRuns
import LightRAG.Storage.VectorStoreRuns

/-!
# What a published file has

The last upsert of each id is in the file when a save is published, and every other row is there
as it was.
-/

namespace LightRAG.EmbeddedStores
open List Option

open VectorStores (Row Fields SaveOutcome rowIsStrictlyNewer)
open FaissIndex (PendingDoc FlushedDoc)

variable {V F : Type} {impl : Impl V F}

def Action.outcome : Action V → Option SaveOutcome
  | .indexDoneCallback _ outcome => some outcome
  | .finalize _ outcome => some outcome
  | _ => none

/-- What the file has at an id, by the last operation of this instance on it. `resident` is the
row the replay met, `disk` the row of the file before. -/
def Own.Published (resident disk : Option (FlushedDoc V)) (embedded : List (Row × V))
    (row : Option (FlushedDoc V)) : Own V → Prop
  | .untouched => ∀ doc, disk = some doc → row = some doc
  | .buffered upserted => ∃ vector, (upserted, vector) ∈ embedded ∧ row = some ⟨upserted, vector⟩
  | .flushed doc => (doc.row, doc.vector) ∈ embedded ∧
    (row = some doc ∨ ∃ newer, resident = some newer ∧
      rowIsStrictlyNewer (some newer.row) doc.row = true ∧ row = some newer)
  | .superseded doc newer => rowIsStrictlyNewer (some newer.row) doc.row = true ∧ row = some newer
  | .overtaken => True
  | .gone => True

namespace World

variable [DecidableEq F] {w w' : World V F} {x : String}

/-- The conditions of the environment. Write tokens are distinct, a commit of a peer is notified
or changes the fingerprint and has new rows or those of the file, and ids are asked for once. -/
def Allowed (w : World V F) : Action V → Prop
  | .upsert currentTime writeSeq data => ∀ x fields, data.get x = some fields →
    Row.mk (some writeSeq) currentTime fields ∉ (w.ledger x).seen
  | .getVectorsByIds ids _ => ids.Nodup
  | .peer rows fingerprint notified =>
    (notified = true ∨ fingerprint ≠ w.storage.loadedFingerprint) ∧
      ∀ x doc, rows.get x = some doc →
        w.file.rows.get x = some doc ∨ doc.row ∉ (w.ledger x).seen
  | _ => True

structure Kept [DecidableEq V] (impl : Impl V F) (w : World V F) (a : Action V) : Prop where
  published : ∀ base w' outcome, w.flushBase a = some base → w.flushed impl a = some (w', true) →
    a.outcome = some outcome → outcome.writes = true → ∀ x,
      (w.ledger x).own.Published ((base.storage.applyDeletes impl).client.get x)
        (w.file.rows.get x) (w'.ledger x).embedded ((w.exec impl a).file.rows.get x)
  once : ∀ x, (((w.exec impl a).ledger x).embedded.map Prod.fst).Nodup
  called : ∀ x, ((w.exec impl a).ledger x).calls = (w.ledger x).calls ∨
    ∃ row, ((w.exec impl a).ledger x).calls = row :: (w.ledger x).calls ∧
      row ∉ (w.ledger x).embedded.map Prod.fst

def Step [DecidableEq V] (impl : Impl V F) (w : World V F) (a : Action V) (w' : World V F) : Prop :=
  w.Allowed a ∧ w' = w.exec impl a

omit [DecidableEq F] in
theorem embed_slot (vectors : String → V) (w : World V F) (x : String) :
    ((w.embed (fun _ => True) (some vectors)).storage.slot x) = (w.storage.slot x).embed (vectors x) ∧
      ((w.embed (fun _ => True) (some vectors)).ledger x).own = (w.ledger x).own := by
  constructor
  · change (w.storage.embed (fun _ => True) vectors).slot x = _
    rw [Storage.slot_embed,if_pos trivial]
  · simp only [World.embed,become]
    split <;> rfl

omit [DecidableEq F] in
theorem materialize_slot (hembedded : w.Embedded) (x : String) :
    ((w.storage.slot x).pending = none →
      (w.materialize.storage.slot x).client = (w.storage.slot x).client ∧
        (w.materialize.ledger x).own = (w.ledger x).own) ∧
    ∀ row vector, (w.storage.slot x).pending = some ⟨row, vector⟩ → ∃ v,
      (w.materialize.storage.slot x).client = some ⟨row, v⟩ ∧
        (w.materialize.ledger x).own = .flushed ⟨row, v⟩ := by
  have hslot : w.materialize.storage.slot x = (w.storage.slot x).materialize :=
    Storage.slot_materialize w.storage x
  have hown : (w.materialize.ledger x).own = (w.ledger x).own.materialized (w.storage.slot x) := rfl
  constructor
  · intro hpending
    rw [hslot,hown,Slot.materialize,Own.materialized,hpending]
    exact ⟨rfl,rfl⟩
  · intro row vector hpending
    cases vector with
    | none => exact absurd hpending (hembedded x row)
    | some v =>
      refine ⟨v,?_⟩
      rw [hslot,hown,Slot.materialize,Own.materialized,hpending]
      exact ⟨rfl,rfl⟩

variable {embeddings : Option (String → V)}

omit [DecidableEq F] in
theorem writePending_slot (hret : (w.writePending embeddings).2 = true) (x : String) :
    ((w.storage.slot x).pending = none →
      ((w.writePending embeddings).1.storage.slot x).client = (w.storage.slot x).client ∧
        ((w.writePending embeddings).1.ledger x).own = (w.ledger x).own) ∧
    ∀ row vector, (w.storage.slot x).pending = some ⟨row, vector⟩ → ∃ v,
      ((w.writePending embeddings).1.storage.slot x).client = some ⟨row, v⟩ ∧
        ((w.writePending embeddings).1.ledger x).own = .flushed ⟨row, v⟩ := by
  unfold World.writePending at hret ⊢
  split
  · rename_i hkeys
    refine ⟨fun _ => ⟨rfl,rfl⟩,fun row vector hpending => ?_⟩
    have hnone : w.storage.pendingUpserts.get x = none := by
      apply Dict.get_eq_none.mpr
      rw [hkeys]
      exact not_mem_nil
    exact absurd (hpending.symm.trans hnone) (some_ne_none _)
  · rename_i hkeys
    rw [if_neg hkeys] at hret
    split
    · rename_i hany
      rw [if_pos hany] at hret
      cases embeddings with
      | none => cases hret
      | some vectors =>
        obtain ⟨hslot,hown⟩ := embed_slot vectors w x
        obtain ⟨hkept,hwritten⟩ := materialize_slot (embedded_embed vectors w) x
        constructor
        · intro hpending
          have hnone : ((w.embed (fun _ => True) (some vectors)).storage.slot x).pending = none := by
            rw [hslot,Slot.embed,hpending]
            rfl
          obtain ⟨hclient,hsame⟩ := hkept hnone
          exact ⟨hclient,hsame.trans hown⟩
        · intro row vector hpending
          apply hwritten row (some (vector.getD (vectors x)))
          rw [hslot,Slot.embed,hpending]
          rfl
    · rename_i hany
      exact materialize_slot (embedded_of_not_toEmbed hany) x

omit [DecidableEq F] in
theorem mem_embedded_embed (p : String → Prop) [DecidablePred p]
    {e : Row × V} (h : e ∈ (w.ledger x).embedded) :
    e ∈ ((w.embed p embeddings).ledger x).embedded := by
  simp only [World.embed,become]
  split
  · split
    · exact mem_append_right _ h
    · exact h
  · exact h

omit [DecidableEq F] in
theorem mem_embedded_writePending {e : Row × V}
    (h : e ∈ (w.ledger x).embedded) :
    e ∈ ((w.writePending embeddings).1.ledger x).embedded := by
  unfold World.writePending
  split
  · exact h
  · split
    · cases embeddings with
      | none => exact mem_embedded_embed (fun _ => True) h
      | some vectors => exact mem_embedded_embed (fun _ => True) h
    · exact h

theorem Inv.flush_published
    (hrow : ∀ doc doc', impl.rowFingerprint doc = impl.rowFingerprint doc' → doc.row = doc'.row)
    (h : w.Inv impl) (hcurrent : w.Current)
    (hret : (w.flush impl embeddings).2 = true) (x : String) :
    (w.ledger x).own.Published ((w.storage.applyDeletes impl).client.get x) (w.file.rows.get x)
      ((w.flush impl embeddings).1.ledger x).embedded
      ((w.flush impl embeddings).1.storage.client.get x) := by
  obtain ⟨hinv,hcurrent',-⟩ := h.flush hcurrent embeddings
  have hfile := (flush_storage impl embeddings w).2.2
  have hsound := hinv x
  rw [hcurrent',hfile] at hsound
  have howned := (h x).own
  rw [hcurrent] at howned
  rw [World.flush] at hret hsound ⊢
  cases hbuffered : w.storage.buffered with
  | false =>
    have hempty : w.storage.pendingUpserts.keys = [] ∧ w.storage.pendingDeletes = [] ∧
        w.storage.unsavedDeletes.keys = [] ∧ w.storage.unsavedUpserts.keys = [] := by
      simpa [Storage.buffered] using hbuffered
    have hnone : ∀ {α : Type} (d : Dict String α), d.keys = [] → d.get x = none := by
      intro α d hd
      apply Dict.get_eq_none.mpr
      rw [hd]
      exact not_mem_nil
    cases hown : (w.ledger x).own with
    | untouched =>
      rw [hown] at howned
      exact howned.2.2.2.2 rfl
    | buffered row =>
      rw [hown] at howned
      obtain ⟨vector,hpending⟩ := howned
      exact absurd (hpending.symm.trans (hnone _ hempty.1)) (some_ne_none _)
    | flushed doc =>
      rw [hown] at howned
      exact absurd (howned.2.1.symm.trans (hnone _ hempty.2.2.2)) (some_ne_none _)
    | superseded doc newer =>
      rw [hown] at howned
      exact ⟨howned.1,howned.2.2.2.2.2.1 rfl⟩
    | overtaken => trivial
    | gone => trivial
  | true =>
    rw [hbuffered] at hret hsound
    simp only [if_true] at hret hsound ⊢
    obtain ⟨hkept,hwritten⟩ := writePending_slot hret x
    have hledger : (((w.applyDeletes impl).replayUpserts impl).ledger x).own =
        (w.ledger x).own.replayed (((w.applyDeletes impl).replayUpserts impl).storage.slot x) := rfl
    rw [hledger] at hkept
    have howned' := hsound.own
    cases hown : (w.ledger x).own with
    | untouched =>
      rw [hown] at howned hkept
      rw [(hkept howned.1).2] at howned'
      exact howned'.2.2.2.2 rfl
    | buffered row =>
      rw [hown] at howned
      obtain ⟨vector,hrow'⟩ := howned
      obtain ⟨v,hclient,hflushed⟩ := hwritten row vector hrow'
      rw [hflushed] at howned'
      exact ⟨v,howned'.2.2.1,hclient⟩
    | flushed doc =>
      rw [hown] at howned
      refine ⟨mem_embedded_writePending howned.2.2.1,?_⟩
      have hreplayed : ((w.applyDeletes impl).replayUpserts impl).storage.slot x =
          ((w.storage.applyDeletes impl).slot x).replayUpserts impl :=
        Storage.slot_replayUpserts impl (w.storage.applyDeletes impl) x
      have hclient := (hkept howned.1).1
      rw [hreplayed] at hclient
      have hdeleted := (h.applyDeletes hcurrent) x
      have hdue : (w.applyDeletes impl).storage.reloadDue (w.applyDeletes impl).file = false :=
        hcurrent
      rw [hdue] at hdeleted
      obtain hdoc | ⟨newer,hresident,hnewer,hstay⟩ := hdeleted.client_of_flushed hrow hown
      · exact .inl (hclient.trans hdoc)
      · exact .inr ⟨newer,hresident,hnewer,hclient.trans hstay⟩
    | superseded doc newer =>
      rw [hown] at howned hkept
      rw [(hkept howned.2.1).2] at howned'
      exact ⟨howned.1,howned'.2.2.2.2.2.1 rfl⟩
    | overtaken => trivial
    | gone => trivial

/-- The embedding function is called at most once more for an id, for a row without a vector. -/
def Calls (w w' : World V F) : Prop :=
  ∀ x, (w'.ledger x).calls = (w.ledger x).calls ∨
    ∃ row, (w'.ledger x).calls = row :: (w.ledger x).calls ∧
      row ∉ (w.ledger x).embedded.map Prod.fst

omit [DecidableEq F] in
theorem calls_embed (h : w.Inv impl) (p : String → Prop) [DecidablePred p]
    (embeddings : Option (String → V)) : w.Calls (w.embed p embeddings) := by
  intro x
  simp only [World.embed,become]
  split
  · rename_i row hpending
    split
    · exact .inr ⟨row,rfl,(h x).waiting row hpending⟩
    · exact .inl rfl
  · exact .inl rfl

omit [DecidableEq F] in
theorem calls_writePending (h : w.Inv impl) (embeddings : Option (String → V)) :
    w.Calls (w.writePending embeddings).1 := by
  unfold World.writePending
  split
  · exact fun _ => .inl rfl
  · split
    · cases embeddings with
      | none => exact calls_embed h (fun _ => True) none
      | some vectors => exact calls_embed h (fun _ => True) (some vectors)
    · exact fun _ => .inl rfl

theorem calls_flush (h : w.Inv impl) (hcurrent : w.Current) (embeddings : Option (String → V)) :
    w.Calls (w.flush impl embeddings).1 := by
  rw [World.flush]
  split
  · exact calls_writePending (h.replayed hcurrent) embeddings
  · exact fun _ => .inl rfl

variable {a : Action V}

omit [DecidableEq F] in
theorem Inv.flushBase (h : w.Inv impl) {base : World V F}
    (hbase : w.flushBase a = some base) :
    base.Inv impl ∧ base.Current ∧ base.ledger = w.ledger ∧ base.file = w.file := by
  cases a with
  | indexDoneCallback embeddings outcome =>
    obtain rfl := some.inj hbase
    exact ⟨h.reload.1,h.reload.2,rfl,rfl⟩
  | finalize embeddings outcome =>
    simp only [World.flushBase] at hbase
    split at hbase
    · obtain rfl := some.inj hbase
      exact ⟨h.reloadClean.1,h.reloadClean.2,rfl,rfl⟩
    · cases hbase
  | _ => cases hbase

variable [DecidableEq V]
variable {outcome : SaveOutcome}

theorem exec_flushed (houtcome : a.outcome = some outcome) :
    w.exec impl a = w.commit impl outcome (w.flushed impl a) := by
  cases a with
  | indexDoneCallback embeddings outcome' =>
    obtain rfl := some.inj houtcome
    rfl
  | finalize embeddings outcome' =>
    obtain rfl := some.inj houtcome
    rfl
  | _ => cases houtcome

omit [DecidableEq V] in
theorem flushed_eq (impl : Impl V F) (w : World V F) (houtcome : a.outcome = some outcome) :
    w.flushed impl a = none ∨ ∃ base embeddings saves, w.flushBase a = some base ∧
      w.flushed impl a = some ((base.flush impl embeddings).1, saves) ∧
        (saves = true → (base.flush impl embeddings).2 = true) := by
  cases a with
  | indexDoneCallback embeddings outcome' =>
    exact .inr ⟨w.reload,embeddings,_,rfl,rfl,id⟩
  | finalize embeddings outcome' =>
    simp only [flushed,World.flushBase]
    split
    · refine .inr ⟨w.reloadClean,embeddings,_,rfl,rfl,?_⟩
      intro hsaves
      rw [Bool.and_eq_true] at hsaves
      exact hsaves.1
    · exact .inl rfl
  | _ => cases houtcome

theorem Inv.commit (h : w.Inv impl) (houtcome : a.outcome = some outcome) :
    (w.exec impl a).Inv impl ∧ w.Calls (w.exec impl a) := by
  rw [exec_flushed houtcome]
  obtain hnone | ⟨base,embeddings,saves,hbase,hflushed,hret⟩ :=
    flushed_eq impl w houtcome
  · rw [hnone]
    exact ⟨h,fun _ => .inl rfl⟩
  · rw [hflushed]
    obtain ⟨hinv,hcurrent,hledger,-⟩ := h.flushBase hbase
    obtain ⟨hinv',hcurrent',hdrained⟩ := hinv.flush hcurrent embeddings
    have hcalls : w.Calls (base.flush impl embeddings).1 := by
      have hbaseCalls := calls_flush hinv hcurrent embeddings
      rwa [World.Calls,hledger] at hbaseCalls
    cases saves with
    | false => exact ⟨hinv',hcalls⟩
    | true =>
      refine ⟨hinv'.save hcurrent' (hdrained (hret rfl)) outcome,?_⟩
      cases outcome <;> exact hcalls

theorem Inv.exec (h : w.Inv impl) (hallowed : w.Allowed a) :
    (w.exec impl a).Inv impl ∧ w.Calls (w.exec impl a) := by
  have hquiet : ∀ w' : World V F, (∀ x, (w'.ledger x).calls = (w.ledger x).calls) → w.Calls w' :=
    fun w' hcalls x => .inl (hcalls x)
  cases a with
  | upsert currentTime writeSeq data =>
    refine ⟨h.upsert hallowed,hquiet _ fun x => ?_⟩
    simp only [World.exec,World.upsert,become]
    split <;> rfl
  | delete ids =>
    refine ⟨h.delete ids,hquiet _ fun x => ?_⟩
    simp only [World.exec,World.delete,become]
    split <;> rfl
  | deleteEntity entityName =>
    simp only [World.exec,World.deleteEntity]
    cases impl.backend with
    | nano =>
      refine ⟨h.reload.1.removeEntity h.reload.2 _,hquiet _ fun x => ?_⟩
      simp only [become]
      split <;> rfl
    | faiss =>
      refine ⟨h.delete _,hquiet _ fun x => ?_⟩
      simp only [World.delete,become]
      split <;> rfl
  | deleteEntityRelation entityName =>
    exact ⟨h.reload.1.removeRelations h.reload.2 entityName,hquiet _ fun _ => rfl⟩
  | dropPendingIndexOps =>
    refine ⟨h.dropPendingIndexOps,hquiet _ fun x => ?_⟩
    simp only [World.exec,World.dropPendingIndexOps,become]
    split <;> rfl
  | drop reset updated fingerprint =>
    exact ⟨h.drop reset updated fingerprint,hquiet _ fun _ => rfl⟩
  | indexDoneCallback embeddings outcome => exact h.commit rfl
  | finalize embeddings outcome => exact h.commit rfl
  | getVectorsByIds ids embeddings => exact ⟨h.embed _ embeddings,calls_embed h _ embeddings⟩
  | read => exact ⟨h.reload.1,hquiet _ fun _ => rfl⟩
  | peer rows fingerprint notified =>
    exact ⟨h.commitPeer hallowed.1 hallowed.2,hquiet _ fun _ => rfl⟩

theorem Inv.run {file : File V} {as : List (Action V)}
    (hrun : Run (Step impl) (World.start file) as w) : w.Inv impl := by
  apply hrun.preserves _ (Inv.start file)
  rintro s a t ⟨hallowed,rfl⟩ hinv
  exact (hinv.exec hallowed).1

theorem Inv.published
    (hrow : ∀ doc doc', impl.rowFingerprint doc = impl.rowFingerprint doc' → doc.row = doc'.row)
    (h : w.Inv impl) {base w' : World V F}
    (hbase : w.flushBase a = some base) (hflushed : w.flushed impl a = some (w', true))
    (houtcome : a.outcome = some outcome) (hwrites : outcome.writes = true) (x : String) :
    (w.ledger x).own.Published ((base.storage.applyDeletes impl).client.get x)
      (w.file.rows.get x) (w'.ledger x).embedded ((w.exec impl a).file.rows.get x) := by
  obtain ⟨hinv,hcurrent,hledger,hfile⟩ := h.flushBase hbase
  obtain hnone | ⟨base',embeddings,saves,hbase',hflushed',hret⟩ :=
    flushed_eq impl w houtcome
  · rw [hnone] at hflushed
    cases hflushed
  obtain rfl := some.inj (hbase.symm.trans hbase')
  rw [hflushed'] at hflushed
  obtain ⟨rfl,rfl⟩ := Prod.mk.inj (some.inj hflushed)
  have hrows : (w.exec impl a).file.rows = (base.flush impl embeddings).1.storage.client := by
    rw [exec_flushed houtcome,hflushed']
    cases outcome with
    | failed fingerprint lost => cases hwrites
    | unannounced fingerprint updated => rfl
    | announced fingerprint => rfl
  rw [hrows,← hledger,← hfile]
  exact hinv.flush_published hrow hcurrent (hret rfl) x

end World

/-- Accepted upserts survive failed saves and the commits of peers. -/
theorem upserts_kept [DecidableEq V] [DecidableEq F] {impl : Impl V F}
    (hrow : ∀ doc doc', impl.rowFingerprint doc = impl.rowFingerprint doc' → doc.row = doc'.row)
    {file : File V} {as : List (Action V)} {w : World V F}
    (hrun : Run (World.Step impl) (World.start file) as w) {a : Action V}
    (hallowed : w.Allowed a) : w.Kept impl a := by
  have hinv := World.Inv.run hrun
  obtain ⟨hinv',hcalls⟩ := hinv.exec hallowed
  constructor
  case published =>
    intro base w' outcome hbase hflushed houtcome hwrites x
    exact hinv.published hrow hbase hflushed houtcome hwrites x
  case once => exact fun x => (hinv' x).once
  case called => exact hcalls

def sampleFields : Fields := ⟨none, none, "text"⟩

def sampleRow (writeSeq : ℕ) : Row := ⟨some writeSeq, 0, sampleFields⟩

def sampleRows (vectors : List (String × FlushedDoc ℕ)) (h : (vectors.map Prod.fst).Nodup) :
    Dict String (FlushedDoc ℕ) := ⟨vectors, h⟩

def sampleImpl : Impl ℕ (FlushedDoc ℕ) := ⟨.nano, id, fun name => "ent-" ++ name⟩

def sampleFile : File ℕ := ⟨sampleRows [("c", ⟨sampleRow 1, 10⟩)] (nodup_singleton _), 0⟩

def ran (as : List (Action ℕ)) : World ℕ (FlushedDoc ℕ) :=
  as.foldl (World.exec sampleImpl) (World.start sampleFile)

def sampleUpsert (writeSeq : ℕ) (x : String) : Action ℕ :=
  .upsert 0 writeSeq ⟨[(x, sampleFields)], nodup_singleton _⟩

def peerRows : Dict String (FlushedDoc ℕ) :=
  sampleRows [("c", ⟨sampleRow 1, 10⟩), ("d", ⟨sampleRow 2, 20⟩)] (by decide)

def savedLate : List (Action ℕ) :=
  [sampleUpsert 5 "c", .indexDoneCallback (some fun _ => 50) (.failed 0 []), .peer peerRows 1 true]

theorem single_get {α : Type} {v v' : α} {x y : String}
    (h : (⟨[(y, v)], nodup_singleton _⟩ : Dict String α).get x = some v') : x = y ∧ v' = v :=
  Prod.mk.inj (mem_singleton.mp (Dict.get_eq_some.mp h))

theorem allowed_sampleUpsert {w : World ℕ (FlushedDoc ℕ)} {writeSeq : ℕ} {x : String}
    (hfresh : sampleRow writeSeq ∉ (w.ledger x).seen) : w.Allowed (sampleUpsert writeSeq x) := by
  intro y fields hdata
  obtain ⟨rfl,rfl⟩ := single_get hdata
  exact hfresh

theorem allowed_peer {w : World ℕ (FlushedDoc ℕ)} {rows : Dict String (FlushedDoc ℕ)}
    {fingerprint : ℕ} (hrows : ∀ e ∈ rows.entries,
      w.file.rows.get e.1 = some e.2 ∨ e.2.row ∉ (w.ledger e.1).seen) :
    w.Allowed (.peer rows fingerprint true) :=
  ⟨.inl rfl,fun x doc hdoc => hrows (x, doc) (Dict.get_eq_some.mp hdoc)⟩

theorem upserts_kept_late :
    Run (World.Step sampleImpl) (World.start sampleFile) savedLate (ran savedLate) ∧
      (ran savedLate).Kept sampleImpl (.indexDoneCallback none (.announced 2)) ∧
      ((ran savedLate).exec sampleImpl (.indexDoneCallback none (.announced 2))).file.rows.get "c" =
        some ⟨sampleRow 5, 50⟩ ∧
      ((ran savedLate).exec sampleImpl (.indexDoneCallback none (.announced 2))).file.rows.get "d" =
        some ⟨sampleRow 2, 20⟩ := by
  have hrun : Run (World.Step sampleImpl) (World.start sampleFile) savedLate (ran savedLate) := by
    refine .cons ⟨allowed_sampleUpsert (by decide),rfl⟩ (.cons ⟨trivial,rfl⟩
      (.cons ⟨allowed_peer (by decide),rfl⟩ (.nil _)))
  exact ⟨hrun,upserts_kept (fun doc doc' heq => congrArg FlushedDoc.row heq) hrun trivial,
    by decide +kernel,by decide +kernel⟩

/-- The embedding fails, and the next save asks again. -/
def embeddedTwice : List (Action ℕ) :=
  [sampleUpsert 5 "c", .indexDoneCallback none (.failed 0 []),
    .indexDoneCallback (some fun _ => 50) (.announced 1)]

/-- A peer deletes the row that superseded an upsert, before that is saved. -/
def overtakenUpsert : List (Action ℕ) :=
  [sampleUpsert 5 "c", .indexDoneCallback (some fun _ => 50) (.failed 0 []),
    .peer (sampleRows [("c", ⟨sampleRow 9, 90⟩)] (nodup_singleton _)) 1 true,
    .indexDoneCallback none (.failed 1 []), .peer .empty 2 true,
    .indexDoneCallback none (.announced 3)]

/-- The commit of a peer is not notified and leaves time and size of the file as they were. -/
def unseenCommit : List (Action ℕ) :=
  [.peer peerRows 0 false, sampleUpsert 5 "c",
    .indexDoneCallback (some fun _ => 50) (.announced 1)]

/-- Two calls for one upsert, a published file with neither the upsert nor the newer row, and one
without the row of a peer. -/
theorem upserts_lost :
    (Run (World.Step sampleImpl) (World.start sampleFile) embeddedTwice (ran embeddedTwice) ∧
      ((ran embeddedTwice).ledger "c").calls = [sampleRow 5, sampleRow 5]) ∧
    (Run (World.Step sampleImpl) (World.start sampleFile) overtakenUpsert (ran overtakenUpsert) ∧
      (ran overtakenUpsert).file.rows.get "c" = none) ∧
    (ran unseenCommit).file.rows.get "d" = none := by
  refine ⟨⟨?_,by decide +kernel⟩,⟨?_,by decide +kernel⟩,by decide +kernel⟩
  · exact .cons ⟨allowed_sampleUpsert (by decide),rfl⟩ (.cons ⟨trivial,rfl⟩
      (.cons ⟨trivial,rfl⟩ (.nil _)))
  · refine .cons ⟨allowed_sampleUpsert (by decide),rfl⟩ (.cons ⟨trivial,rfl⟩
      (.cons ⟨allowed_peer ?_,rfl⟩ (.cons ⟨trivial,rfl⟩ (.cons ⟨allowed_peer ?_,rfl⟩
        (.cons ⟨trivial,rfl⟩ (.nil _))))))
    · decide
    · exact fun e he => absurd he not_mem_nil

end LightRAG.EmbeddedStores
