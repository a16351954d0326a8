import LightRAG.Storage.EmbeddedStoreInvariant

/-!
# Upserts survive

In every run a published file has the last upsert of each id, with the one vector it got, also
after failed saves and between the commits of peers.
-/

namespace LightRAG.EmbeddedStores
open Option Bool

open VectorStores (Row Fields SaveOutcome rowIsStrictlyNewer)
open FaissIndex (PendingDoc FlushedDoc)

variable {V F : Type} {impl : Impl V F}

namespace Sound

variable [DecidableEq F] {σ : Slot V F} {disk : Option (FlushedDoc V)} {l : Ledger V}

theorem applyDeletes_clean (impl : Impl V F) (σ : Slot V F) :
    (σ.applyDeletes impl).queued = false ∧ ∀ doc, (σ.applyDeletes impl).client = some doc →
      impl.rowFingerprint doc ∉ (σ.applyDeletes impl).logged := by
  rcases applyDeletes_cases impl σ with ⟨doc,-,-,heq⟩ | ⟨hlogged,heq⟩
  · rw [heq]
    exact ⟨rfl,fun _ hdoc => nomatch hdoc⟩
  · rw [heq]
    exact ⟨rfl,hlogged⟩

theorem client_of_flushed (hrow : ∀ doc doc', impl.rowFingerprint doc = impl.rowFingerprint doc' →
    doc.row = doc'.row) (h : Sound impl σ disk false l) {doc : FlushedDoc V}
    (hown : l.own = .flushed doc) :
    (σ.replayUpserts impl).client = some doc ∨
      ∃ newer, σ.client = some newer ∧ rowIsStrictlyNewer (some newer.row) doc.row = true ∧
        (σ.replayUpserts impl).client = some newer := by
  have howned := h.own
  rw [hown] at howned
  obtain ⟨hpending,hredo,-,hsame⟩ := howned
  rcases replayUpserts_cases impl σ with ⟨hnone,-⟩ | ⟨doc',-,hredo',hcases⟩
  · rw [hpending,hredo] at hnone
    exact absurd hnone (by simp)
  · obtain rfl := some.inj (hredo.symm.trans hredo')
    rcases hcases with ⟨resident,hclient,hequal,heq⟩ | ⟨resident,hclient,hnewer,heq⟩ | heq
    · left
      rw [heq,hclient,hsame resident (.inl hclient) (hrow resident doc hequal)]
    · right
      refine ⟨resident,hclient,hnewer,?_⟩
      rw [heq]
      exact hclient
    · left
      rw [heq]

end Sound

namespace World

variable {w : World V F} {x : String}

def Inv (impl : Impl V F) (w : World V F) : Prop :=
  ∀ x, Sound impl (w.storage.slot x) (w.file.rows.get x) (w.storage.reloadDue w.file) (w.ledger x)

/-- The client needs no reload. -/
def Current (w : World V F) : Prop := w.storage.reloadDue w.file = false

theorem reloadDue_reload (file : File V) (s : Storage V F) :
    (s.reload file).reloadDue file = false := by
  rw [Storage.reload]
  split
  · simp [Storage.reloadDue]
  · rename_i hnot
    rwa [not_eq_true] at hnot

theorem reloadDue_reloadClean (file : File V) (s : Storage V F) :
    (s.reloadClean file).reloadDue file = false := by
  rw [Storage.reloadClean]
  split
  · exact reloadDue_reload file s
  · rename_i hnot
    rwa [not_eq_true] at hnot

theorem Inv.start (file : File V) : (World.start file : World V F).Inv impl := by
  intro x
  have hdue : (Storage.load file : Storage V F).reloadDue file = false := by
    simp [Storage.load,Storage.reloadDue]
  change Sound impl _ _ ((Storage.load file : Storage V F).reloadDue file) _
  rw [hdue]
  exact .start file x

theorem Inv.reload (h : w.Inv impl) : w.reload.Inv impl ∧ w.reload.Current := by
  refine ⟨?_,reloadDue_reload w.file w.storage⟩
  intro x
  change Sound impl ((w.storage.reload w.file).slot x) (w.file.rows.get x)
    ((w.storage.reload w.file).reloadDue w.file) (w.ledger x)
  rw [reloadDue_reload,Storage.slot_reload]
  exact (h x).reload

theorem Inv.reloadClean (h : w.Inv impl) : w.reloadClean.Inv impl ∧ w.reloadClean.Current := by
  refine ⟨?_,reloadDue_reloadClean w.file w.storage⟩
  intro x
  change Sound impl ((w.storage.reloadClean w.file).slot x) (w.file.rows.get x)
    ((w.storage.reloadClean w.file).reloadDue w.file) (w.ledger x)
  rw [reloadDue_reloadClean,Storage.slot_reloadClean,Storage.slot_reload]
  exact (h x).reload

theorem Inv.embed (h : w.Inv impl) (p : String → Prop) [DecidablePred p]
    (embeddings : Option (String → V)) : (w.embed p embeddings).Inv impl := by
  intro x
  have hsound := h x
  have hdue : (w.embed p embeddings).storage.reloadDue w.file = w.storage.reloadDue w.file := by
    cases embeddings <;> rfl
  change Sound impl ((w.embed p embeddings).storage.slot x) (w.file.rows.get x)
    ((w.embed p embeddings).storage.reloadDue w.file) ((w.embed p embeddings).ledger x)
  have hslot : (w.embed p embeddings).storage.slot x =
      match embeddings with
      | none => w.storage.slot x
      | some vectors => if p x then (w.storage.slot x).embed (vectors x) else w.storage.slot x := by
    cases embeddings with
    | none => rfl
    | some vectors => exact Storage.slot_embed w.storage x p vectors
  rw [hslot]
  simp only [World.embed,become]
  cases hpending : w.storage.pendingUpserts.get x with
  | none =>
    have hsame : ∀ v, (w.storage.slot x).embed v = w.storage.slot x := by
      simp [Slot.embed,Storage.slot,hpending]
    cases embeddings with
    | none => exact hsound
    | some vectors =>
      dsimp only
      rw [hsame,ite_self]
      exact hsound
  | some doc =>
    obtain ⟨row,vector⟩ := doc
    cases vector with
    | some vector =>
      have hsame : ∀ v, (w.storage.slot x).embed v = w.storage.slot x := by
        simp [Slot.embed,Storage.slot,hpending]
      cases embeddings with
      | none => exact hsound
      | some vectors =>
        dsimp only
        rw [hsame,ite_self]
        exact hsound
    | none =>
      dsimp only
      by_cases hp : p x
      · rw [if_pos hp]
        cases embeddings with
        | none => exact hsound.calls row
        | some vectors =>
          dsimp only
          rw [if_pos hp]
          exact hsound.embed hpending (vectors x)
      · rw [if_neg hp]
        cases embeddings with
        | none => exact hsound
        | some vectors =>
          dsimp only
          rw [if_neg hp]
          exact hsound

theorem Inv.materialize (h : w.Inv impl)
    (hvectors : ∀ x row, w.storage.pendingUpserts.get x ≠ some ⟨row, none⟩) :
    w.materialize.Inv impl := by
  intro x
  change Sound impl (w.storage.materialize.slot x) (w.file.rows.get x)
    (w.storage.reloadDue w.file) ((w.ledger x).settle ((w.ledger x).own.materialized (w.storage.slot x)))
  rw [Storage.slot_materialize]
  exact (h x).materialize (hvectors x)

/-- Every buffered row has its vector. -/
def Embedded (w : World V F) : Prop :=
  ∀ x row, w.storage.pendingUpserts.get x ≠ some ⟨row, none⟩

theorem embedded_embed (vectors : String → V) (w : World V F) :
    (w.embed (fun _ => True) (some vectors)).Embedded := by
  intro x row hrow
  change (w.storage.embed (fun _ => True) vectors).pendingUpserts.get x = _ at hrow
  rw [Storage.embed,Dict.get_filterMap] at hrow
  obtain ⟨doc,-,hdoc⟩ := bind_eq_some_iff.mp hrow
  cases (PendingDoc.mk.inj (some.inj hdoc)).2

theorem embedded_of_not_toEmbed (h : ¬ w.storage.pendingUpserts.keys.any w.storage.toEmbed) :
    w.Embedded := by
  intro x row hrow
  apply h
  rw [List.any_eq_true]
  refine ⟨x,?_,?_⟩
  · rw [Dict.mem_keys,hrow]
    exact some_ne_none _
  · rw [Storage.toEmbed,hrow]
    rfl

/-- What a flush that returns leaves in the buffers. -/
def Drained (w : World V F) : Prop :=
  ∀ x, (w.storage.slot x).pending = none ∧ (w.storage.slot x).queued = false

theorem Inv.writePending (h : w.Inv impl) (hcurrent : w.Current)
    (hqueued : ∀ x, (w.storage.slot x).queued = false) (embeddings : Option (String → V)) :
    (w.writePending embeddings).1.Inv impl ∧ (w.writePending embeddings).1.Current ∧
      ((w.writePending embeddings).2 = true → (w.writePending embeddings).1.Drained) := by
  have hdrained : ∀ w' : World V F, (∀ x, (w'.storage.slot x).queued = false) →
      w'.materialize.Drained := fun w' hw' x => ⟨rfl,hw' x⟩
  unfold World.writePending
  split
  · rename_i hkeys
    refine ⟨h,hcurrent,fun _ x => ⟨?_,hqueued x⟩⟩
    apply Dict.get_eq_none.mpr
    rw [hkeys]
    exact List.not_mem_nil
  · split
    · cases embeddings with
      | none => exact ⟨h.embed _ none,hcurrent,fun h => absurd h Bool.false_ne_true⟩
      | some vectors =>
        have hembedded := embedded_embed vectors w
        exact ⟨(h.embed _ (some vectors)).materialize hembedded,hcurrent,
          fun _ => hdrained _ hqueued⟩
    · rename_i hnone
      exact ⟨h.materialize (embedded_of_not_toEmbed hnone),hcurrent,fun _ => hdrained w hqueued⟩

section

variable [DecidableEq F]

theorem Inv.applyDeletes (h : w.Inv impl) (hcurrent : w.Current) :
    (w.applyDeletes impl).Inv impl := by
  intro x
  change Sound impl ((w.storage.applyDeletes impl).slot x) (w.file.rows.get x)
    (w.storage.reloadDue w.file) (w.ledger x)
  have hsound := h x
  rw [hcurrent] at hsound ⊢
  rw [Storage.slot_applyDeletes]
  exact hsound.applyDeletes

theorem Inv.replayUpserts (h : w.Inv impl) (hcurrent : w.Current)
    (hclean : ∀ x, (w.storage.slot x).queued = false ∧ ∀ doc, (w.storage.slot x).client = some doc →
      impl.rowFingerprint doc ∉ (w.storage.slot x).logged) :
    (w.replayUpserts impl).Inv impl := by
  intro x
  change Sound impl ((w.storage.replayUpserts impl).slot x) (w.file.rows.get x)
    (w.storage.reloadDue w.file)
    ((w.ledger x).settle ((w.ledger x).own.replayed ((w.storage.replayUpserts impl).slot x)))
  have hsound := h x
  rw [hcurrent] at hsound ⊢
  rw [Storage.slot_replayUpserts]
  exact hsound.replayUpserts (hclean x).1 (hclean x).2

theorem clean_applyDeletes (impl : Impl V F) (w : World V F) (x : String) :
    (((w.applyDeletes impl).storage.slot x).queued = false ∧
      ∀ doc, ((w.applyDeletes impl).storage.slot x).client = some doc →
        impl.rowFingerprint doc ∉ ((w.applyDeletes impl).storage.slot x).logged) := by
  have hslot : (w.applyDeletes impl).storage.slot x = (w.storage.slot x).applyDeletes impl :=
    Storage.slot_applyDeletes impl w.storage x
  rw [hslot]
  exact Sound.applyDeletes_clean impl _

theorem Inv.replayed (h : w.Inv impl) (hcurrent : w.Current) :
    ((w.applyDeletes impl).replayUpserts impl).Inv impl :=
  (h.applyDeletes hcurrent).replayUpserts hcurrent (clean_applyDeletes impl w)

theorem queued_replayed (impl : Impl V F) (w : World V F) (x : String) :
    (((w.applyDeletes impl).replayUpserts impl).storage.slot x).queued = false :=
  (clean_applyDeletes impl w x).1

theorem Inv.flush (h : w.Inv impl) (hcurrent : w.Current) (embeddings : Option (String → V)) :
    (w.flush impl embeddings).1.Inv impl ∧ (w.flush impl embeddings).1.Current ∧
      ((w.flush impl embeddings).2 = true → (w.flush impl embeddings).1.Drained) := by
  rw [World.flush]
  split
  · exact (h.replayed hcurrent).writePending hcurrent (queued_replayed impl w) embeddings
  · rename_i hbuffered
    refine ⟨h,hcurrent,fun _ x => ?_⟩
    have hempty : w.storage.pendingUpserts.keys = [] ∧ w.storage.pendingDeletes = [] ∧
        w.storage.unsavedDeletes.keys = [] ∧ w.storage.unsavedUpserts.keys = [] := by
      simpa [Storage.buffered] using hbuffered
    constructor
    · apply Dict.get_eq_none.mpr
      rw [hempty.1]
      exact List.not_mem_nil
    · rw [Storage.slot,hempty.2.1]
      rfl

end

theorem Inv.save (h : w.Inv impl) (hcurrent : w.Current) (hdrained : w.Drained)
    (outcome : SaveOutcome) : (w.save impl outcome).Inv impl := by
  intro x
  have hsound := h x
  rw [hcurrent] at hsound
  cases outcome with
  | failed fingerprint lost =>
    cases hbackend : impl.backend with
    | nano =>
      have hsame : w.save impl (.failed fingerprint lost) = w := by
        simp [World.save,Storage.saveLocked,hbackend]
      rw [hsame,hcurrent]
      exact hsound
    | faiss =>
      have hupdated : w.storage.storageUpdated = false := by
        have hdue := hcurrent
        rw [Current,Storage.reloadDue,or_eq_false_iff] at hdue
        exact hdue.1
      have hdue : (w.save impl (.failed fingerprint lost)).storage.reloadDue
          (w.save impl (.failed fingerprint lost)).file = false := by
        simp [World.save,Storage.saveLocked,hbackend,Storage.reloadDue,hupdated]
      have hdisk : (w.save impl (.failed fingerprint lost)).file.rows.get x =
          if x ∈ lost then none else w.file.rows.get x := by
        simp [World.save,Storage.saveLocked,hbackend,Dict.get_drop]
      have hslot : (w.save impl (.failed fingerprint lost)).storage.slot x = w.storage.slot x := by
        simp [World.save,Storage.saveLocked,hbackend,Storage.slot]
      rw [hdue,hdisk,hslot]
      apply hsound.lose
      split
      · exact .inl rfl
      · exact .inr rfl
  | unannounced fingerprint updated => exact hsound.written _
  | announced fingerprint =>
    have hdue : (w.save impl (.announced fingerprint)).storage.reloadDue
        (w.save impl (.announced fingerprint)).file = false := by
      simp [World.save,Storage.saveLocked,Storage.reloadDue]
    rw [hdue]
    exact hsound.published (hdrained x).1 (hdrained x).2

theorem Inv.upsert (h : w.Inv impl) {currentTime writeSeq : ℕ} {data : Dict String Fields}
    (hfresh : ∀ x fields, data.get x = some fields →
      Row.mk (some writeSeq) currentTime fields ∉ (w.ledger x).seen) :
    (w.upsert currentTime writeSeq data).Inv impl := by
  intro x
  change Sound impl ((w.storage.upsert currentTime writeSeq data).slot x) (w.file.rows.get x)
    (w.storage.reloadDue w.file) ((w.upsert currentTime writeSeq data).ledger x)
  rw [Storage.slot_upsert]
  simp only [World.upsert,become]
  cases hdata : data.get x with
  | none => exact h x
  | some fields => exact (h x).upsert (hfresh x fields hdata)

theorem Inv.delete (h : w.Inv impl) (ids : List String) : (w.delete ids).Inv impl := by
  intro x
  change Sound impl ((w.storage.delete ids).slot x) (w.file.rows.get x)
    (w.storage.reloadDue w.file) ((w.delete ids).ledger x)
  rw [Storage.slot_delete]
  simp only [World.delete,become]
  by_cases hx : x ∈ ids
  · rw [if_pos hx,if_pos hx]
    exact (h x).gone (.inr rfl) rfl (.inl rfl)
  · rw [if_neg hx,if_neg hx]
    exact h x

theorem Inv.dropPendingIndexOps (h : w.Inv impl) : w.dropPendingIndexOps.Inv impl := by
  intro x
  change Sound impl (w.storage.dropPendingIndexOps.slot x) (w.file.rows.get x)
    (w.storage.reloadDue w.file) (w.dropPendingIndexOps.ledger x)
  rw [Storage.slot_dropPendingIndexOps]
  simp only [World.dropPendingIndexOps,become]
  cases hpending : w.storage.pendingUpserts.get x with
  | none =>
    have hslot : { w.storage.slot x with pending := none, queued := false } =
        { w.storage.slot x with queued := false } := by
      rw [Slot.mk.injEq]
      exact ⟨rfl,hpending.symm,rfl,rfl,rfl⟩
    rw [hslot]
    exact (h x).unqueue
  | some doc =>
    exact (h x).gone (.inr rfl) rfl (.inr rfl)

theorem Inv.drop (h : w.Inv impl) (reset updated : Bool) (fingerprint : ℕ) :
    (w.drop impl reset updated fingerprint).Inv impl := by
  intro x
  have hfile : (w.drop impl reset updated fingerprint).file.rows.get x = none := by
    simp only [World.drop,Storage.drop]
    cases reset with
    | true => rfl
    | false => cases impl.backend <;> rfl
  rw [hfile]
  apply (h x).dropped
  · simp only [World.drop,Storage.drop]
    cases reset with
    | true => exact .inl rfl
    | false =>
      cases impl.backend with
      | nano => exact .inr rfl
      | faiss => exact .inl rfl
  all_goals
    simp only [World.drop,Storage.drop]
    cases reset with
    | true => rfl
    | false => cases impl.backend <;> rfl

section

variable [DecidableEq F]

theorem Inv.removeEntity (h : w.Inv impl) (hcurrent : w.Current) (x : String) :
    (w.become (w.storage.removeEntity impl x)
      fun y l => if y = x then l.settle .gone else l).Inv impl := by
  intro y
  change Sound impl ((w.storage.removeEntity impl x).slot y) (w.file.rows.get y)
    (w.storage.reloadDue w.file) (if y = x then (w.ledger y).settle .gone else w.ledger y)
  rw [Storage.slot_removeEntity,hcurrent]
  have hsound := h y
  rw [hcurrent] at hsound
  by_cases hy : y = x
  · rw [if_pos hy,if_pos hy]
    exact hsound.gone (Sound.taken_client impl true _) rfl (.inl rfl)
  · rw [if_neg hy,if_neg hy]
    exact hsound

theorem Inv.removeRelations (h : w.Inv impl) (hcurrent : w.Current) (entityName : String) :
    (w.become (w.storage.removeRelations impl entityName)
      fun x l => l.settle (l.own.pruned entityName (w.storage.slot x))).Inv impl := by
  intro x
  change Sound impl ((w.storage.removeRelations impl entityName).slot x) (w.file.rows.get x)
    (w.storage.reloadDue w.file) _
  rw [Storage.slot_removeRelations,hcurrent]
  have hsound := h x
  rw [hcurrent] at hsound
  exact hsound.prune entityName

end

theorem Inv.commitPeer [DecidableEq V] (h : w.Inv impl) {rows : Dict String (FlushedDoc V)}
    {fingerprint : ℕ} {notified : Bool}
    (hseen : notified = true ∨ fingerprint ≠ w.storage.loadedFingerprint)
    (hrows : ∀ x doc, rows.get x = some doc →
      w.file.rows.get x = some doc ∨ doc.row ∉ (w.ledger x).seen) :
    (w.commitPeer rows fingerprint notified).Inv impl := by
  intro x
  have hdue : (w.commitPeer rows fingerprint notified).storage.reloadDue
      (w.commitPeer rows fingerprint notified).file = true := by
    simp only [World.commitPeer,Storage.reloadDue]
    cases hseen with
    | inl hnotified => simp [hnotified]
    | inr hmoved => simp [hmoved]
  rw [hdue]
  exact (h x).peer fun doc hdoc => hrows x doc hdoc

end World
end LightRAG.EmbeddedStores
