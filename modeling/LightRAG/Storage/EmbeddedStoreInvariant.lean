import LightRAG.Storage.EmbeddedStores

/-!
# What the ledger says of a slot

An upsert that is told of in the ledger is where the ledger says: in the buffer, in the redo log
with the only vector it ever got, or behind a row of a peer that is newer.
-/

namespace LightRAG.EmbeddedStores
open List Option Bool

open VectorStores (Row Fields SaveOutcome rowIsStrictlyNewer)
open VectorStores.Storage (logRemoval)
open FaissIndex (PendingDoc FlushedDoc)

variable {V F : Type}

/-- The place of the last operation on the id; `due` says that the client is to be reloaded. -/
def Owned (impl : Impl V F) (σ : Slot V F) (disk : Option (FlushedDoc V)) (due : Bool)
    (embedded : List (Row × V)) : Own V → Prop
  | .untouched => σ.pending = none ∧ σ.redo = none ∧ σ.queued = false ∧ σ.logged = [] ∧
    (due = false → ∀ doc, disk = some doc → σ.client = some doc)
  | .buffered row => ∃ vector, σ.pending = some ⟨row, vector⟩
  | .flushed doc => σ.pending = none ∧ σ.redo = some doc ∧ (doc.row, doc.vector) ∈ embedded ∧
    ∀ doc', σ.client = some doc' ∨ disk = some doc' → doc'.row = doc.row → doc' = doc
  | .superseded doc newer => rowIsStrictlyNewer (some newer.row) doc.row = true ∧
    σ.pending = none ∧ σ.redo = none ∧ σ.queued = false ∧
    impl.rowFingerprint newer ∉ σ.logged ∧ (due = false → σ.client = some newer) ∧
    (due = true → disk = some newer)
  | .overtaken => σ.pending = none
  | .gone => σ.pending = none

structure Sound (impl : Impl V F) (σ : Slot V F) (disk : Option (FlushedDoc V)) (due : Bool)
    (l : Ledger V) : Prop where
  diskSeen : ∀ doc, disk = some doc → doc.row ∈ l.seen
  clientSeen : ∀ doc, σ.client = some doc → doc.row ∈ l.seen
  pendingSeen : ∀ doc, σ.pending = some doc → doc.row ∈ l.seen
  redoSeen : ∀ doc, σ.redo = some doc → doc.row ∈ l.seen
  embeddedSeen : ∀ e ∈ l.embedded, e.1 ∈ l.seen
  once : (l.embedded.map Prod.fst).Nodup
  waiting : ∀ row, σ.pending = some ⟨row, none⟩ → row ∉ l.embedded.map Prod.fst
  cached : ∀ row vector, σ.pending = some ⟨row, some vector⟩ → (row, vector) ∈ l.embedded
  fresh : ∀ doc doc', σ.pending = some doc → σ.client = some doc' ∨ disk = some doc' →
    doc'.row ≠ doc.row
  own : Owned impl σ disk due l.embedded l.own

variable {impl : Impl V F} {σ σ' : Slot V F} {disk disk' : Option (FlushedDoc V)} {due due' : Bool}
  {l : Ledger V} {embedded embedded' : List (Row × V)} {own : Own V}

theorem Owned.change (h : Owned impl σ disk due embedded own)
    (hnone : σ.pending = none → σ'.pending = none)
    (hsome : ∀ row vector, σ.pending = some ⟨row, vector⟩ →
      ∃ vector', σ'.pending = some ⟨row, vector'⟩)
    (huntouched : Owned impl σ disk due embedded .untouched →
      Owned impl σ' disk' due' embedded' .untouched)
    (hflushed : ∀ doc, Owned impl σ disk due embedded (.flushed doc) →
      Owned impl σ' disk' due' embedded' (.flushed doc))
    (hsuperseded : ∀ doc newer, Owned impl σ disk due embedded (.superseded doc newer) →
      Owned impl σ' disk' due' embedded' (.superseded doc newer)) :
    Owned impl σ' disk' due' embedded' own := by
  cases own with
  | untouched => exact huntouched h
  | buffered row =>
    obtain ⟨vector,hrow⟩ := h
    exact hsome row vector hrow
  | flushed doc => exact hflushed doc h
  | superseded doc newer => exact hsuperseded doc newer h
  | overtaken => exact hnone h
  | gone => exact hnone h

namespace Sound

theorem start (file : File V) (x : String) :
    Sound impl ((Storage.load file : Storage V F).slot x) (file.rows.get x) false
      (.start (file.rows.get x)) := by
  have hseen : ∀ doc, file.rows.get x = some doc →
      doc.row ∈ (Ledger.start (file.rows.get x)).seen := by
    intro doc hdoc
    rw [hdoc]
    exact mem_singleton_self _
  constructor
  case diskSeen => exact hseen
  case clientSeen => exact hseen
  case pendingSeen => exact fun _ hdoc => nomatch hdoc
  case redoSeen => exact fun _ hdoc => nomatch hdoc
  case embeddedSeen => exact fun _ he => absurd he not_mem_nil
  case once => exact nodup_nil
  case waiting => exact fun _ hdoc => nomatch hdoc
  case cached => exact fun _ _ hdoc => nomatch hdoc
  case fresh => exact fun _ _ hdoc => nomatch hdoc
  case own => exact ⟨rfl,rfl,rfl,rfl,fun _ _ hdoc => hdoc⟩

section

variable (h : Sound impl σ disk due l)

include h

theorem calls (row : Row) :
    Sound impl σ disk due (l.call none row) := { h with }

theorem own_of_pending {doc : PendingDoc V}
    (hpending : σ.pending = some doc) : l.own = .buffered doc.row := by
  have howned := h.own
  cases hown : l.own with
  | untouched =>
    rw [hown] at howned
    exact absurd (hpending.symm.trans howned.1) (some_ne_none doc)
  | buffered row =>
    rw [hown] at howned
    obtain ⟨vector,hrow⟩ := howned
    rw [some.inj (hpending.symm.trans hrow)]
  | flushed doc' =>
    rw [hown] at howned
    exact absurd (hpending.symm.trans howned.1) (some_ne_none doc)
  | superseded doc' newer =>
    rw [hown] at howned
    exact absurd (hpending.symm.trans howned.2.1) (some_ne_none doc)
  | overtaken =>
    rw [hown] at howned
    exact absurd (hpending.symm.trans howned) (some_ne_none doc)
  | gone =>
    rw [hown] at howned
    exact absurd (hpending.symm.trans howned) (some_ne_none doc)

theorem reload :
    Sound impl (if due then { σ with client := disk } else σ) disk false l := by
  cases due with
  | false => exact h
  | true =>
    refine { h with clientSeen := h.diskSeen, fresh := ?_, own := ?_ }
    · intro doc doc' hpending hdoc'
      exact h.fresh doc doc' hpending (.inr (hdoc'.elim id id))
    · apply h.own.change
      · exact id
      · exact fun row vector hrow => ⟨vector,hrow⟩
      · rintro ⟨hpending,hredo,hqueued,hlogged,-⟩
        exact ⟨hpending,hredo,hqueued,hlogged,fun _ _ hdoc => hdoc⟩
      · rintro doc ⟨hpending,hredo,hembedded,hsame⟩
        exact ⟨hpending,hredo,hembedded,fun doc' hdoc' => hsame doc' (.inr (hdoc'.elim id id))⟩
      · rintro doc newer ⟨hnewer,hpending,hredo,hqueued,hlogged,-,hdisk⟩
        exact ⟨hnewer,hpending,hredo,hqueued,hlogged,fun _ => hdisk rfl,fun hfalse => nomatch hfalse⟩

theorem shrink (hclient : σ'.client = none ∨ σ'.client = σ.client)
    (hpending : σ'.pending = σ.pending) (hredo : σ'.redo = none ∨ σ'.redo = σ.redo)
    (hown : Owned impl σ' disk due l.embedded l.own) : Sound impl σ' disk due l := by
  have hsub : ∀ {a a' : Option (FlushedDoc V)}, a' = none ∨ a' = a → ∀ doc, a' = some doc →
      a = some doc := by
    intro a a' hcases doc hdoc
    cases hcases with
    | inl hnone => exact absurd (hdoc.symm.trans hnone) (some_ne_none doc)
    | inr hsame => rwa [← hsame]
  constructor
  case diskSeen => exact h.diskSeen
  case clientSeen => exact fun doc hdoc => h.clientSeen doc (hsub hclient doc hdoc)
  case pendingSeen =>
    rw [hpending]
    exact h.pendingSeen
  case redoSeen => exact fun doc hdoc => h.redoSeen doc (hsub hredo doc hdoc)
  case embeddedSeen => exact h.embeddedSeen
  case once => exact h.once
  case waiting =>
    rw [hpending]
    exact h.waiting
  case cached =>
    rw [hpending]
    exact h.cached
  case fresh =>
    intro doc doc' hdoc hdoc'
    rw [hpending] at hdoc
    exact h.fresh doc doc' hdoc (hdoc'.imp_left (hsub hclient doc'))
  case own => exact hown

end

section

variable [DecidableEq F]

theorem applyDeletes_cases (impl : Impl V F) (σ : Slot V F) :
    (∃ doc, σ.client = some doc ∧ (σ.queued = true ∨ impl.rowFingerprint doc ∈ σ.logged) ∧
      σ.applyDeletes impl = σ.remove impl doc) ∨
    ((∀ doc, σ.client = some doc → impl.rowFingerprint doc ∉ σ.logged) ∧
      σ.applyDeletes impl = { σ with queued := false }) := by
  rw [Slot.applyDeletes]
  cases hclient : σ.client with
  | none =>
    right
    constructor
    · exact fun _ hdoc => nomatch hdoc
    · rfl
  | some doc =>
    dsimp only
    split
    · rename_i hremoved
      exact .inl ⟨doc,rfl,hremoved,rfl⟩
    · rename_i hkept
      refine .inr ⟨?_,rfl⟩
      intro doc' hdoc'
      rw [← some.inj hdoc']
      exact fun hlogged => hkept (.inr hlogged)

theorem applyDeletes (h : Sound impl σ disk false l) :
    Sound impl (σ.applyDeletes impl) disk false l := by
  rcases applyDeletes_cases impl σ with ⟨doc,hclient,hremoved,heq⟩ | ⟨hlogged,heq⟩
  · rw [heq]
    refine h.shrink (.inl rfl) rfl (.inr rfl) ?_
    apply h.own.change
    · exact id
    · exact fun row vector hrow => ⟨vector,hrow⟩
    · rintro ⟨-,-,hqueued,hnone,-⟩
      rw [hqueued,hnone] at hremoved
      cases hremoved with
      | inl hfalse => exact absurd hfalse false_ne_true
      | inr hin => exact absurd hin not_mem_nil
    · rintro doc' ⟨hpending,hredo,hembedded,hsame⟩
      refine ⟨hpending,hredo,hembedded,?_⟩
      rintro doc'' (hdoc'' | hdoc'')
      · exact nomatch hdoc''
      · exact hsame doc'' (.inr hdoc'')
    · rintro - newer ⟨-,-,-,hqueued,hnot,hresident,-⟩
      rw [some.inj (hclient.symm.trans (hresident rfl)),hqueued] at hremoved
      cases hremoved with
      | inl hfalse => exact absurd hfalse false_ne_true
      | inr hin => exact absurd hin hnot
  · rw [heq]
    refine h.shrink (.inr rfl) rfl (.inr rfl) ?_
    apply h.own.change
    · exact id
    · exact fun row vector hrow => ⟨vector,hrow⟩
    · rintro ⟨hpending,hredo,-,hnone,hdisk⟩
      exact ⟨hpending,hredo,rfl,hnone,hdisk⟩
    · exact fun doc' howned => howned
    · rintro doc newer ⟨hnewer,hpending,hredo,-,hnot,hresident,hdue⟩
      exact ⟨hnewer,hpending,hredo,rfl,hnot,hresident,hdue⟩

theorem replayUpserts_cases (impl : Impl V F) (σ : Slot V F) :
    ((σ.pending ≠ none ∨ σ.redo = none) ∧ σ.replayUpserts impl = σ) ∨
    ∃ doc, σ.pending = none ∧ σ.redo = some doc ∧
      ((∃ resident, σ.client = some resident ∧
          impl.rowFingerprint resident = impl.rowFingerprint doc ∧ σ.replayUpserts impl = σ) ∨
        (∃ resident, σ.client = some resident ∧
          rowIsStrictlyNewer (some resident.row) doc.row = true ∧
          σ.replayUpserts impl = { σ with redo := none }) ∨
        σ.replayUpserts impl = { σ with client := some doc }) := by
  rw [Slot.replayUpserts]
  cases hpending : σ.pending with
  | some pending =>
    left
    cases σ.redo <;> exact ⟨.inl (some_ne_none _),rfl⟩
  | none =>
    cases hredo : σ.redo with
    | none => exact .inl ⟨.inr rfl,rfl⟩
    | some doc =>
      right
      refine ⟨doc,rfl,rfl,?_⟩
      cases hclient : σ.client with
      | none => exact .inr (.inr rfl)
      | some resident =>
        dsimp only
        split
        · rename_i hequal
          exact .inl ⟨resident,rfl,hequal,rfl⟩
        · split
          · rename_i hnewer
            exact .inr (.inl ⟨resident,rfl,hnewer,rfl⟩)
          · exact .inr (.inr rfl)

omit [DecidableEq F] in
theorem replayed_eq (h : Owned impl σ disk due embedded own) (hredo : σ'.redo = σ.redo) :
    own.replayed σ' = own := by
  cases own with
  | flushed doc =>
    obtain ⟨-,hsome,-⟩ := h
    rw [Own.replayed,hredo,hsome]
  | _ => rfl

theorem replayUpserts (h : Sound impl σ disk false l) (hqueued : σ.queued = false)
    (hlogged : ∀ doc, σ.client = some doc → impl.rowFingerprint doc ∉ σ.logged) :
    Sound impl (σ.replayUpserts impl) disk false
      (l.settle (l.own.replayed (σ.replayUpserts impl))) := by
  rcases replayUpserts_cases impl σ with ⟨-,heq⟩ | ⟨doc,hpending,hredo,⟨-,-,-,heq⟩ |
    ⟨resident,hclient,hnewer,heq⟩ | heq⟩
  · rw [heq,replayed_eq h.own rfl]
    exact h
  · rw [heq,replayed_eq h.own rfl]
    exact h
  · rw [heq]
    refine { h with redoSeen := ?_, own := ?_ }
    · exact fun _ hdoc => nomatch hdoc
    have howned := h.own
    cases hown : l.own with
    | untouched =>
      rw [hown] at howned
      exact absurd (hredo.symm.trans howned.2.1) (some_ne_none doc)
    | buffered row =>
      rw [hown] at howned
      obtain ⟨vector,hrow⟩ := howned
      exact absurd (hrow.symm.trans hpending) (some_ne_none _)
    | flushed doc' =>
      rw [hown] at howned
      obtain rfl := some.inj (hredo.symm.trans howned.2.1)
      rw [hclient]
      exact ⟨hnewer,hpending,rfl,hqueued,hlogged resident hclient,fun _ => rfl,
        fun hfalse => nomatch hfalse⟩
    | superseded doc' newer =>
      rw [hown] at howned
      exact absurd (hredo.symm.trans howned.2.2.1) (some_ne_none doc)
    | overtaken => exact hpending
    | gone => exact hpending
  · have hstay : l.own.replayed { σ with client := some doc } = l.own := replayed_eq h.own rfl
    rw [heq,hstay]
    refine { h with clientSeen := ?_, fresh := ?_, own := ?_ }
    · intro doc' hdoc'
      rw [← some.inj hdoc']
      exact h.redoSeen doc hredo
    · intro doc' _ hdoc'
      exact absurd (hdoc'.symm.trans hpending) (some_ne_none doc')
    · apply h.own.change
      · exact id
      · exact fun row vector hrow => ⟨vector,hrow⟩
      · rintro ⟨-,hnone,-⟩
        exact absurd (hredo.symm.trans hnone) (some_ne_none doc)
      · rintro doc' ⟨-,hsome,hembedded,hsame⟩
        obtain rfl := some.inj (hredo.symm.trans hsome)
        refine ⟨hpending,hredo,hembedded,?_⟩
        rintro doc'' (hdoc'' | hdoc'') hrow
        · exact (some.inj hdoc'').symm
        · exact hsame doc'' (.inr hdoc'') hrow
      · rintro doc' newer ⟨-,-,hnone,-⟩
        exact absurd (hredo.symm.trans hnone) (some_ne_none doc)

omit [DecidableEq F] in
theorem embed (h : Sound impl σ disk due l) {row : Row} (hpending : σ.pending = some ⟨row, none⟩)
    (vector : V) : Sound impl (σ.embed vector) disk due (l.call (some vector) row) := by
  have hembed : (σ.embed vector).pending = some ⟨row,some vector⟩ := by
    rw [Slot.embed,hpending]
    rfl
  have hembedded : (l.call (some vector) row).embedded = (row, vector) :: l.embedded := rfl
  constructor
  case diskSeen => exact h.diskSeen
  case clientSeen => exact h.clientSeen
  case pendingSeen =>
    intro doc hdoc
    rw [← some.inj (hembed.symm.trans hdoc)]
    exact h.pendingSeen ⟨row,none⟩ hpending
  case redoSeen => exact h.redoSeen
  case embeddedSeen =>
    intro e he
    rw [hembedded,mem_cons] at he
    cases he with
    | inl heq =>
      rw [heq]
      exact h.pendingSeen ⟨row,none⟩ hpending
    | inr hin => exact h.embeddedSeen e hin
  case once =>
    rw [hembedded,map_cons,nodup_cons]
    exact ⟨h.waiting row hpending,h.once⟩
  case waiting =>
    intro row' hrow'
    exact absurd (some.inj (hembed.symm.trans hrow')) (by simp)
  case cached =>
    intro row' vector' hrow'
    obtain ⟨rfl,hvector⟩ := PendingDoc.mk.inj (some.inj (hembed.symm.trans hrow'))
    rw [some.inj hvector]
    exact mem_cons_self
  case fresh =>
    intro doc doc' hdoc hdoc'
    rw [← some.inj (hembed.symm.trans hdoc)]
    exact h.fresh ⟨row,none⟩ doc' hpending hdoc'
  case own =>
    apply h.own.change
    · exact fun hnone => absurd (hpending.symm.trans hnone) (some_ne_none _)
    · intro row' vector' hrow'
      obtain ⟨rfl,-⟩ := PendingDoc.mk.inj (some.inj (hpending.symm.trans hrow'))
      exact ⟨some vector,hembed⟩
    · exact fun howned => absurd (hpending.symm.trans howned.1) (some_ne_none _)
    · exact fun _ howned => absurd (hpending.symm.trans howned.1) (some_ne_none _)
    · exact fun _ _ howned => absurd (hpending.symm.trans howned.2.1) (some_ne_none _)

omit [DecidableEq F] in
theorem materialize (h : Sound impl σ disk due l)
    (hvectors : ∀ row, σ.pending ≠ some ⟨row, none⟩) :
    Sound impl σ.materialize disk due (l.settle (l.own.materialized σ)) := by
  cases hpending : σ.pending with
  | none =>
    have hslot : σ.materialize = σ := by
      rw [Slot.materialize,hpending]
      dsimp only
      rw [← hpending]
    rw [hslot,Own.materialized,hpending]
    exact h
  | some doc =>
    obtain ⟨row,vector⟩ := doc
    cases vector with
    | none => exact absurd hpending (hvectors row)
    | some vector =>
      rw [Slot.materialize,Own.materialized,hpending]
      constructor
      case diskSeen => exact h.diskSeen
      case clientSeen =>
        intro doc hdoc
        rw [← some.inj hdoc]
        exact h.pendingSeen _ hpending
      case pendingSeen => exact fun _ hdoc => nomatch hdoc
      case redoSeen =>
        intro doc hdoc
        rw [← some.inj hdoc]
        exact h.pendingSeen _ hpending
      case embeddedSeen => exact h.embeddedSeen
      case once => exact h.once
      case waiting => exact fun _ hdoc => nomatch hdoc
      case cached => exact fun _ _ hdoc => nomatch hdoc
      case fresh => exact fun _ _ hdoc => nomatch hdoc
      case own =>
        refine ⟨rfl,rfl,h.cached row vector hpending,?_⟩
        rintro doc' (hdoc' | hdoc') hrow
        · exact (some.inj hdoc').symm
        · exact absurd hrow (h.fresh ⟨row,some vector⟩ doc' hpending (.inr hdoc'))

end

theorem lose (h : Sound impl σ disk false l) (hlost : disk' = none ∨ disk' = disk) :
    Sound impl σ disk' false l := by
  have hsub : ∀ doc, disk' = some doc → disk = some doc := by
    intro doc hdoc
    cases hlost with
    | inl hnone => exact absurd (hdoc.symm.trans hnone) (some_ne_none doc)
    | inr hsame => rwa [← hsame]
  refine { h with diskSeen := ?_, fresh := ?_, own := ?_ }
  · exact fun doc hdoc => h.diskSeen doc (hsub doc hdoc)
  · intro doc doc' hdoc hdoc'
    exact h.fresh doc doc' hdoc (hdoc'.imp_right (hsub doc'))
  · apply h.own.change
    · exact id
    · exact fun row vector hrow => ⟨vector,hrow⟩
    · rintro ⟨hpending,hredo,hqueued,hlogged,hdisk⟩
      exact ⟨hpending,hredo,hqueued,hlogged,fun hdue doc hdoc => hdisk hdue doc (hsub doc hdoc)⟩
    · rintro doc ⟨hpending,hredo,hembedded,hsame⟩
      exact ⟨hpending,hredo,hembedded,fun doc' hdoc' => hsame doc' (hdoc'.imp_right (hsub doc'))⟩
    · rintro doc newer ⟨hnewer,hpending,hredo,hqueued,hlogged,hresident,-⟩
      exact ⟨hnewer,hpending,hredo,hqueued,hlogged,hresident,fun hfalse => nomatch hfalse⟩

theorem written (h : Sound impl σ disk false l) (due' : Bool) :
    Sound impl σ σ.client due' l := by
  refine { h with diskSeen := h.clientSeen, fresh := ?_, own := ?_ }
  · intro doc doc' hdoc hdoc'
    exact h.fresh doc doc' hdoc (.inl (hdoc'.elim id id))
  · apply h.own.change
    · exact id
    · exact fun row vector hrow => ⟨vector,hrow⟩
    · rintro ⟨hpending,hredo,hqueued,hlogged,-⟩
      exact ⟨hpending,hredo,hqueued,hlogged,fun _ _ hdoc => hdoc⟩
    · rintro doc ⟨hpending,hredo,hembedded,hsame⟩
      exact ⟨hpending,hredo,hembedded,fun doc' hdoc' => hsame doc' (.inl (hdoc'.elim id id))⟩
    · rintro doc newer ⟨hnewer,hpending,hredo,hqueued,hlogged,hresident,-⟩
      exact ⟨hnewer,hpending,hredo,hqueued,hlogged,fun _ => hresident rfl,fun _ => hresident rfl⟩

section

variable (h : Sound impl σ disk due l)

include h

theorem published (hpending : σ.pending = none)
    (hqueued : σ.queued = false) :
    Sound impl { σ with redo := none, logged := [] } σ.client false (l.settle .untouched) where
  diskSeen := h.clientSeen
  clientSeen := h.clientSeen
  pendingSeen := h.pendingSeen
  redoSeen _ hdoc := nomatch hdoc
  embeddedSeen := h.embeddedSeen
  once := h.once
  waiting := h.waiting
  cached := h.cached
  fresh doc _ hdoc _ := absurd (hdoc.symm.trans hpending) (some_ne_none doc)
  own := ⟨hpending,rfl,hqueued,rfl,fun _ _ hdoc => hdoc⟩

theorem upsert {row : Row} (hfresh : row ∉ l.seen) :
    Sound impl { σ with queued := false, pending := some ⟨row, none⟩ } disk due
      ((l.see [row]).settle (.buffered row)) where
  diskSeen doc hdoc := mem_cons_of_mem _ (h.diskSeen doc hdoc)
  clientSeen doc hdoc := mem_cons_of_mem _ (h.clientSeen doc hdoc)
  pendingSeen doc hdoc := by
    rw [← some.inj hdoc]
    exact mem_cons_self
  redoSeen doc hdoc := mem_cons_of_mem _ (h.redoSeen doc hdoc)
  embeddedSeen e he := mem_cons_of_mem _ (h.embeddedSeen e he)
  once := h.once
  waiting row' hrow' hin := by
    obtain ⟨rfl,-⟩ := PendingDoc.mk.inj (some.inj hrow')
    obtain ⟨e,he,heq⟩ := mem_map.mp hin
    apply hfresh
    rw [← heq]
    exact h.embeddedSeen e he
  cached row' vector hrow' := by
    have hvector := (PendingDoc.mk.inj (some.inj hrow')).2
    cases hvector
  fresh doc doc' hdoc hdoc' heq := by
    apply hfresh
    rw [← some.inj hdoc] at heq
    change doc'.row = row at heq
    rw [← heq]
    exact hdoc'.elim (h.clientSeen doc') (h.diskSeen doc')
  own := ⟨none,rfl⟩

theorem gone (hclient : σ'.client = none ∨ σ'.client = σ.client)
    (hpending : σ'.pending = none) (hredo : σ'.redo = none ∨ σ'.redo = σ.redo) :
    Sound impl σ' disk due (l.settle .gone) where
  diskSeen := h.diskSeen
  clientSeen doc hdoc := by
    cases hclient with
    | inl hnone => exact absurd (hdoc.symm.trans hnone) (some_ne_none doc)
    | inr hsame => exact h.clientSeen doc (hsame.symm.trans hdoc)
  pendingSeen doc hdoc := absurd (hdoc.symm.trans hpending) (some_ne_none doc)
  redoSeen doc hdoc := by
    cases hredo with
    | inl hnone => exact absurd (hdoc.symm.trans hnone) (some_ne_none doc)
    | inr hsame => exact h.redoSeen doc (hsame.symm.trans hdoc)
  embeddedSeen := h.embeddedSeen
  once := h.once
  waiting row hrow := absurd (hrow.symm.trans hpending) (some_ne_none _)
  cached row vector hrow := absurd (hrow.symm.trans hpending) (some_ne_none _)
  fresh doc doc' hdoc _ := absurd (hdoc.symm.trans hpending) (some_ne_none doc)
  own := hpending

theorem unqueue :
    Sound impl { σ with queued := false } disk due l := by
  refine { h with own := ?_ }
  apply h.own.change
  · exact id
  · exact fun row vector hrow => ⟨vector,hrow⟩
  · rintro ⟨hpending,hredo,-,hlogged,hdisk⟩
    exact ⟨hpending,hredo,rfl,hlogged,hdisk⟩
  · exact fun _ howned => howned
  · rintro doc newer ⟨hnewer,hpending,hredo,-,hlogged,hresident,hdue⟩
    exact ⟨hnewer,hpending,hredo,rfl,hlogged,hresident,hdue⟩

theorem dropped (hclient : σ'.client = none ∨ σ'.client = σ.client)
    (hpending : σ'.pending = none) (hredo : σ'.redo = none) (hqueued : σ'.queued = false)
    (hlogged : σ'.logged = []) (due' : Bool) :
    Sound impl σ' none due' (l.settle .untouched) := by
  have hgone : Sound impl σ' disk due (l.settle .gone) := h.gone hclient hpending (.inl hredo)
  refine { hgone with diskSeen := ?_, fresh := ?_, own := ?_ }
  · exact fun _ hdoc => nomatch hdoc
  · exact fun doc _ hdoc _ => absurd (hdoc.symm.trans hpending) (some_ne_none doc)
  · exact ⟨hpending,hredo,hqueued,hlogged,fun _ _ hdoc => nomatch hdoc⟩

end

theorem taken_client [DecidableEq F] (impl : Impl V F) (removed : Bool) (σ : Slot V F) :
    (σ.taken impl removed).client = none ∨ (σ.taken impl removed).client = σ.client := by
  rw [Slot.taken]
  cases hclient : σ.client with
  | none => exact .inr hclient
  | some doc =>
    cases removed with
    | true => exact .inl rfl
    | false => exact .inr hclient

theorem filter_cases {α : Type} (a : Option α) (p : α → Bool) :
    a.filter p = none ∨ a.filter p = a := by
  cases a with
  | none => exact .inl rfl
  | some v =>
    cases hp : p v with
    | true => exact .inr (by rw [Option.filter,if_pos hp])
    | false => exact .inl (by rw [Option.filter,hp]; rfl)

theorem prune [DecidableEq F] (h : Sound impl σ disk false l) (entityName : String) :
    Sound impl (σ.prune impl entityName) disk false (l.settle (l.own.pruned entityName σ)) := by
  have hclient : (σ.prune impl entityName).client = none ∨
      (σ.prune impl entityName).client = σ.client := taken_client impl _ σ
  have hredo : (σ.prune impl entityName).redo = none ∨
      (σ.prune impl entityName).redo = σ.redo := filter_cases σ.redo _
  cases hpending : σ.pending with
  | some doc =>
    cases hmentions : doc.row.mentions entityName with
    | true =>
      have hgone : l.own.pruned entityName σ = .gone := by
        rw [Own.pruned,hpending]
        exact if_pos hmentions
      rw [hgone]
      refine h.gone hclient ?_ hredo
      rw [Slot.prune,hpending]
      simp [hmentions]
    | false =>
      have hstay : l.own.pruned entityName σ = l.own := by
        rw [Own.pruned,hpending]
        exact if_neg (by rw [hmentions]; exact false_ne_true)
      have hkept : (σ.prune impl entityName).pending = σ.pending := by
        rw [Slot.prune,hpending]
        simp [hmentions]
      rw [hstay]
      apply h.shrink hclient hkept hredo
      rw [h.own_of_pending hpending]
      exact ⟨doc.vector,hkept.trans hpending⟩
  | none =>
    have hkept : (σ.prune impl entityName).pending = σ.pending := by
      rw [Slot.prune,hpending]
      rfl
    cases hlog : σ.redo with
    | some doc =>
      cases hmentions : doc.row.mentions entityName with
      | true =>
        have hgone : l.own.pruned entityName σ = .gone := by
          rw [Own.pruned,hpending,hlog]
          exact if_pos hmentions
        rw [hgone]
        exact h.gone hclient (hkept.trans hpending) hredo
      | false =>
        have hstay : l.own.pruned entityName σ = l.own := by
          rw [Own.pruned,hpending,hlog]
          exact if_neg (by rw [hmentions]; exact false_ne_true)
        have hsame : (σ.prune impl entityName).redo = σ.redo := by
          rw [Slot.prune,hlog]
          simp [hmentions]
        rw [hstay]
        apply h.shrink hclient hkept hredo
        apply h.own.change
        · exact fun hnone => hkept.trans hnone
        · exact fun row vector hrow => ⟨vector,hkept.trans hrow⟩
        · rintro ⟨-,hnone,-⟩
          exact absurd (hlog.symm.trans hnone) (some_ne_none doc)
        · rintro doc' ⟨hnone,hsome,hembedded,hequal⟩
          refine ⟨hkept.trans hnone,hsame.trans hsome,hembedded,?_⟩
          rintro doc'' (hdoc'' | hdoc'')
          · cases hclient with
            | inl hgone => exact absurd (hdoc''.symm.trans hgone) (some_ne_none doc'')
            | inr hin => exact hequal doc'' (.inl (hin.symm.trans hdoc''))
          · exact hequal doc'' (.inr hdoc'')
        · rintro doc' newer ⟨-,-,hnone,-⟩
          exact absurd (hlog.symm.trans hnone) (some_ne_none doc)
    | none =>
      cases hmentions : σ.client.any fun doc => doc.row.mentions entityName with
      | true =>
        have hgone : l.own.pruned entityName σ = .gone := by
          rw [Own.pruned,hpending,hlog]
          exact if_pos hmentions
        rw [hgone]
        exact h.gone hclient (hkept.trans hpending) hredo
      | false =>
        have hstay : l.own.pruned entityName σ = l.own := by
          rw [Own.pruned,hpending,hlog]
          exact if_neg (by rw [hmentions]; exact false_ne_true)
        have hslot : σ.prune impl entityName = σ := by
          have htaken : σ.taken impl false = σ := by
            rw [Slot.taken]
            cases σ.client <;> rfl
          rw [Slot.prune,hmentions,htaken]
          ext1
          all_goals simp [hpending,hlog]
        rw [hstay,hslot]
        exact h

theorem peer [DecidableEq V] (h : Sound impl σ disk due l)
    (hrow : ∀ doc, disk' = some doc → disk = some doc ∨ doc.row ∉ l.seen) :
    Sound impl σ disk' true
      ((l.see (disk'.toList.map FlushedDoc.row)).settle (l.own.passed disk')) := by
  have hseen : ∀ row ∈ l.seen, row ∈ (l.see (disk'.toList.map FlushedDoc.row)).seen :=
    fun row hin => mem_append_right _ hin
  constructor
  case diskSeen =>
    intro doc hdoc
    apply mem_append_left
    rw [hdoc]
    exact mem_singleton_self _
  case clientSeen => exact fun doc hdoc => hseen _ (h.clientSeen doc hdoc)
  case pendingSeen => exact fun doc hdoc => hseen _ (h.pendingSeen doc hdoc)
  case redoSeen => exact fun doc hdoc => hseen _ (h.redoSeen doc hdoc)
  case embeddedSeen => exact fun e he => hseen _ (h.embeddedSeen e he)
  case once => exact h.once
  case waiting => exact h.waiting
  case cached => exact h.cached
  case fresh =>
    intro doc doc' hdoc hdoc' heq
    cases hdoc' with
    | inl hin => exact h.fresh doc doc' hdoc (.inl hin) heq
    | inr hin =>
      cases hrow doc' hin with
      | inl hold => exact h.fresh doc doc' hdoc (.inr hold) heq
      | inr hnew =>
        apply hnew
        rw [heq]
        exact h.pendingSeen doc hdoc
  case own =>
    have howned : Owned impl σ disk due l.embedded l.own := h.own
    cases hown : l.own with
    | untouched =>
      rw [hown] at howned
      obtain ⟨hpending,hredo,hqueued,hlogged,-⟩ := howned
      exact ⟨hpending,hredo,hqueued,hlogged,fun hfalse => nomatch hfalse⟩
    | buffered row =>
      rw [hown] at howned
      exact howned
    | flushed doc =>
      rw [hown] at howned
      obtain ⟨hpending,hredo,hembedded,hsame⟩ := howned
      refine ⟨hpending,hredo,hembedded,?_⟩
      rintro doc' (hdoc' | hdoc') heq
      · exact hsame doc' (.inl hdoc') heq
      · cases hrow doc' hdoc' with
        | inl hold => exact hsame doc' (.inr hold) heq
        | inr hnew =>
          apply absurd _ hnew
          rw [heq]
          exact h.redoSeen doc hredo
    | superseded doc' newer =>
      rw [hown] at howned
      obtain ⟨hnewer,hpending,hredo,hqueued,hlogged,-,-⟩ := howned
      rw [Own.passed]
      split
      · rename_i hsame
        exact ⟨hnewer,hpending,hredo,hqueued,hlogged,
          fun hfalse => absurd hfalse.symm false_ne_true,fun _ => hsame⟩
      · exact hpending
    | overtaken =>
      rw [hown] at howned
      exact howned
    | gone =>
      rw [hown] at howned
      exact howned

end Sound
end LightRAG.EmbeddedStores
