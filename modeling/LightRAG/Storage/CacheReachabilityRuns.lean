import LightRAG.Storage.CacheReachability

/-!
# The extraction cache stays reachable

What the operations of the two stores keep, what holds while a task is in the fence, and the durable
states of every run whose unfenced steps are ordered.
-/

namespace LightRAG.CacheReachability

open Deferred Option

/-- The durable extract rows are listed, and stay listed when the pending chunk rows land. -/
structure Listed (chunks : Deferred ChunkId (List CacheKey)) (rows : Deferred CacheKey CacheRow) :
    Prop where
  durable : ∀ k row c, rows.durable.get k = some row → WrittenFor k row c →
    Lists (chunks.durable.get c) k
  pending : ∀ k row c l, rows.durable.get k = some row → WrittenFor k row c →
    chunks.pending.get c = some l → k ∈ l

def Reached (chunks : Deferred ChunkId (List CacheKey)) (rows : Deferred CacheKey CacheRow) :
    Prop :=
  ∀ k row c, rows.pending.get k = some row → WrittenFor k row c → Lists (chunks.view c) k

def Committed (chunks : Deferred ChunkId (List CacheKey)) (rows : Deferred CacheKey CacheRow) :
    Prop :=
  ∀ k row c, rows.pending.get k = some row → WrittenFor k row c → Lists (chunks.durable.get c) k

section

variable {chunks : Deferred ChunkId (List CacheKey)} {rows rows' : Deferred CacheKey CacheRow}
  {b : Backend} {k : CacheKey} {row : CacheRow} {c : ChunkId} {list : List CacheKey}

theorem Listed.view (h : Listed chunks rows) (hrow : rows.durable.get k = some row)
    (hwritten : WrittenFor k row c) : Lists (chunks.view c) k := by
  cases hpending : chunks.pending.get c with
  | some l => exact ⟨l,view_of_pending hpending,h.pending k row c l hrow hwritten hpending⟩
  | none =>
    rw [Deferred.view,hpending]
    exact h.durable k row c hrow hwritten

theorem Listed.restart (h : Listed chunks rows) : Listed chunks.restart rows.restart where
  durable := h.durable
  pending _ _ _ _ _ _ hpending := nomatch hpending

theorem Listed.upsertChunk (h : Listed chunks rows)
    (hlist : ∀ k row, rows.durable.get k = some row → WrittenFor k row c → k ∈ list) :
    Listed (chunks.upsert c list) rows where
  durable := h.durable
  pending k row c' l hrow hwritten hpending := by
    rw [pending_upsert] at hpending
    split at hpending
    · rename_i heq
      subst heq
      obtain rfl := some.inj hpending
      exact hlist k row hrow hwritten
    · exact h.pending k row c' l hrow hwritten hpending

theorem Reached.upsertChunk (h : Reached chunks rows)
    (hlist : ∀ k row, rows.pending.get k = some row → WrittenFor k row c → k ∈ list) :
    Reached (chunks.upsert c list) rows := by
  intro k row c' hrow hwritten
  rw [view_upsert]
  split
  · rename_i heq
    subst heq
    exact ⟨list,rfl,hlist k row hrow hwritten⟩
  · exact h k row c' hrow hwritten

theorem Listed.commitChunks (h : Listed chunks rows) (o : Outcome ChunkId) :
    Listed (chunks.commit b o) rows where
  durable k row c hrow hwritten := by
    obtain hview | hsame := @get_durable_commit _ _ _ b chunks c o
    · rw [hview]
      exact h.view hrow hwritten
    · rw [hsame]
      exact h.durable k row c hrow hwritten
  pending k row c l hrow hwritten hpending := by
    obtain hnone | hsame := @pending_commit _ _ _ b chunks o
    · rw [hnone] at hpending
      cases hpending
    · rw [hsame] at hpending
      exact h.pending k row c l hrow hwritten hpending

theorem Reached.chunksLand (h : Reached chunks rows) : Reached (chunks.commit b .lands) rows := by
  intro k row c hrow hwritten
  rw [view_lands]
  exact h k row c hrow hwritten

theorem Reached.committed (h : Reached chunks rows) :
    Committed (chunks.commit b .lands) rows := by
  intro k row c hrow hwritten
  rw [get_durable_lands]
  exact h k row c hrow hwritten

theorem Committed.commitChunks (h : Committed chunks rows) (hreached : Reached chunks rows)
    (o : Outcome ChunkId) : Committed (chunks.commit b o) rows := by
  intro k row c hrow hwritten
  obtain hview | hsame := @get_durable_commit _ _ _ b chunks c o
  · rw [hview]
    exact hreached k row c hrow hwritten
  · rw [hsame]
    exact h k row c hrow hwritten

theorem Listed.dropChunks (h : Listed chunks rows) (p : ChunkId → Prop) [DecidablePred p] :
    Listed (chunks.drop b p) rows where
  durable := by
    rw [durable_drop]
    exact h.durable
  pending k row c l hrow hwritten hpending :=
    h.pending k row c l hrow hwritten (pending_drop hpending).1

theorem Committed.dropChunks (h : Committed chunks rows) (p : ChunkId → Prop) [DecidablePred p] :
    Committed (chunks.drop b p) rows := by
  unfold Committed
  rw [durable_drop]
  exact h

theorem Reached.dropChunks (h : Reached chunks rows) (hcommitted : Committed chunks rows) :
    Reached (chunks.drop b fun _ => True) rows := by
  cases b with
  | snapshot => exact h
  | perItem =>
    intro k row c hrow hwritten
    have hview : (chunks.drop .perItem fun _ => True).view c = chunks.durable.get c := by
      rw [Deferred.view,drop,Dict.get_drop]
      rfl
    rw [hview]
    exact hcommitted k row c hrow hwritten

theorem Listed.commitRows (h : Listed chunks rows) (hreached : Reached chunks rows)
    (hcommitted : Committed chunks rows) (o : Outcome CacheKey) :
    Listed chunks (rows.commit b o) := by
  have hcases : ∀ k row, (rows.commit b o).durable.get k = some row →
      rows.pending.get k = some row ∨ rows.durable.get k = some row := by
    intro k row hrow
    obtain hview | hsame := @get_durable_commit _ _ _ b rows k o
    · rw [hview] at hrow
      obtain hpending | ⟨-,hdurable⟩ := view_cases hrow
      · exact .inl hpending
      · exact .inr hdurable
    · rw [hsame] at hrow
      exact .inr hrow
  constructor
  · intro k row c hrow hwritten
    obtain hpending | hdurable := hcases k row hrow
    · exact hcommitted k row c hpending hwritten
    · exact h.durable k row c hdurable hwritten
  · intro k row c l hrow hwritten hl
    obtain hpending | hdurable := hcases k row hrow
    · obtain ⟨l',hl',hk⟩ := hreached k row c hpending hwritten
      rw [view_of_pending hl] at hl'
      exact some.inj hl' ▸ hk
    · exact h.pending k row c l hdurable hwritten hl

theorem Reached.mono (h : Reached chunks rows)
    (hsub : ∀ k row, rows'.pending.get k = some row → rows.pending.get k = some row) :
    Reached chunks rows' := fun k row c hrow => h k row c (hsub k row hrow)

theorem Committed.mono (h : Committed chunks rows)
    (hsub : ∀ k row, rows'.pending.get k = some row → rows.pending.get k = some row) :
    Committed chunks rows' := fun k row c hrow => h k row c (hsub k row hrow)

theorem pending_commitRows (o : Outcome CacheKey) :
    ∀ k row, (rows.commit b o).pending.get k = some row → rows.pending.get k = some row := by
  intro k row hrow
  obtain hnone | hsame := @pending_commit _ _ _ b rows o
  · rw [hnone] at hrow
    cases hrow
  · rw [hsame] at hrow
    exact hrow

theorem Listed.dropRows (h : Listed chunks rows) (p : CacheKey → Prop) [DecidablePred p] :
    Listed chunks (rows.drop b p) where
  durable := by
    rw [durable_drop]
    exact h.durable
  pending := by
    rw [durable_drop]
    exact h.pending

theorem reached_dropRows {p : CacheKey → Prop} [DecidablePred p]
    (hp : ∀ k : CacheKey, k.cacheType = .extract → p k) :
    Reached chunks (rows.drop .perItem p) := by
  intro k row c hrow hwritten
  exact absurd (hp k hwritten.1) ((pending_drop hrow).2 rfl)

theorem Reached.upsertRow (h : Reached chunks rows)
    (hk : ∀ c, WrittenFor k row c → Lists (chunks.view c) k) :
    Reached chunks (rows.upsert k row) := by
  intro k' row' c hrow hwritten
  rw [pending_upsert] at hrow
  split at hrow
  · rename_i heq
    subst heq
    obtain rfl := some.inj hrow
    exact hk c hwritten
  · exact h k' row' c hrow hwritten

end

def Place.InFence : Place → Prop
  | .attachRead _ _ _ | .attachUpsert _ _ _ _ | .saveRead _ _ _ | .saveUpsert _ _ _ => True
  | .pairChunks | .pairQuarantine | .pairCache => True
  | .discardChunks | .discardCheck | .discardDropChunks _ | .discardFlush => True
  | .discardDropRows _ => True
  | _ => False

/-- References may have been lost, and the rows that they name have not been dropped. -/
def Place.Loses : Place → Prop
  | .pairQuarantine | .loneQuarantine => True
  | .discardDropChunks false | .discardDropRows false => True
  | _ => False

def Place.Holds (chunks : Deferred ChunkId (List CacheKey)) (rows : Deferred CacheKey CacheRow) :
    Place → Prop
  | .attachUpsert c _ _ list => ∀ k row, rows.durable.get k = some row ∨
      rows.pending.get k = some row → WrittenFor k row c → k ∈ list
  | .saveRead c k _ | .saveUpsert c k _ => Lists (chunks.view c) k
  | .pairCache | .discardCheck | .discardDropChunks true | .discardFlush => Committed chunks rows
  | .discardDropRows true => Committed chunks rows
  | _ => True

def State.Exempt (s : State) : Prop := s.backend = .perItem ∧ ∃ t, (s.place t).Loses

structure State.Inv (s : State) : Prop where
  listed : Listed s.chunks s.rows
  reached : ¬ s.Exempt → Reached s.chunks s.rows
  alone : s.backend = .perItem → s.Unquarantined → s.fence = none
  held : ∀ t, (s.place t).InFence ↔ s.fence = some t
  holds : ∀ t, (s.place t).Holds s.chunks s.rows

section

variable {s : State} {t t' : TaskId} {p : Place} {chunks : Deferred ChunkId (List CacheKey)}
  {rows : Deferred CacheKey CacheRow} {flag : Bool} {a : Answer} {event : Event}
  {events : List Event}

theorem place_goto : (s.goto t p).place t' = if t' = t then p else s.place t' := by
  unfold State.place State.goto
  rw [Dict.get_set]
  split <;> rfl

theorem unquarantined_iff : s.Unquarantined ↔ ∃ t, s.place t = .loneQuarantine := by
  constructor
  · rintro ⟨e,he,heq⟩
    refine ⟨e.1,?_⟩
    rw [State.place,Dict.get_eq_some.mpr (show (e.1, e.2) ∈ s.tasks.entries from he)]
    exact heq
  · rintro ⟨t,heq⟩
    cases hget : s.tasks.get t with
    | none => simp [State.place,hget] at heq
    | some p =>
      rw [State.place,hget] at heq
      exact ⟨(t, p),Dict.get_eq_some.mp hget,heq⟩

theorem Place.holds_outside (h : ¬ p.InFence) : p.Holds chunks rows := by
  cases p <;> first | trivial | exact absurd trivial h

theorem Place.loses_cases (h : p.Loses) : p = .loneQuarantine ∨ p.InFence := by
  cases p <;> first | exact h.elim | exact .inl rfl | exact .inr trivial

theorem State.Inv.only (h : s.Inv) (hin : (s.place t).InFence) (hne : t' ≠ t) :
    ¬ (s.place t').InFence := by
  intro hin'
  have hsame := (h.held t').mp hin'
  rw [(h.held t).mp hin] at hsame
  exact hne (some.inj hsame).symm

theorem State.Inv.reached_snapshot (h : s.Inv) (hb : s.backend = .snapshot) :
    Reached s.chunks s.rows := by
  apply h.reached
  rintro ⟨hb',-⟩
  rw [hb] at hb'
  cases hb'

theorem State.Inv.inside (h : s.Inv) (hplace : s.place t = p) (hin : p.InFence) :
    (s.place t).InFence ∧ p.Holds s.chunks s.rows ∧ (¬ p.Loses → Reached s.chunks s.rows) := by
  subst hplace
  refine ⟨hin,h.holds t,fun hkeeps => h.reached ?_⟩
  rintro ⟨hb,t',hloses⟩
  have hfence := (h.held t).mp hin
  obtain hlone | hin' := Place.loses_cases hloses
  · rw [h.alone hb (unquarantined_iff.mpr ⟨t',hlone⟩)] at hfence
    cases hfence
  · by_cases hsame : t' = t
    · exact hkeeps (hsame ▸ hloses)
    · exact h.only hin hsame hin'

theorem not_exempt_of_goto {f : Option TaskId} (hkeeps : ¬ (s.place t).Loses)
    (hnot : ¬ (State.goto { s with
      chunks := chunks, rows := rows, fence := f, chunkReferenceCommitFailed := flag } t p).Exempt) :
    ¬ s.Exempt := by
  rintro ⟨hb,t',hloses⟩
  refine hnot ⟨hb,t',?_⟩
  rw [place_goto]
  split
  · rename_i heq
    exact absurd (heq ▸ hloses) hkeeps
  · exact hloses

theorem State.goto_inv {f : Option TaskId} (hlisted : Listed chunks rows)
    (hreached : ¬ (State.goto { s with
      chunks := chunks, rows := rows, fence := f, chunkReferenceCommitFailed := flag } t p).Exempt →
      Reached chunks rows)
    (hlone : s.backend = .perItem → p = .loneQuarantine ∨ s.Unquarantined → f = none)
    (hat : p.InFence ↔ f = some t)
    (hothers : ∀ t', t' ≠ t → ((s.place t').InFence ↔ f = some t'))
    (hholds : p.Holds chunks rows)
    (hkept : ∀ t', t' ≠ t → (s.place t').InFence → (s.place t').Holds chunks rows) :
    (State.goto { s with
      chunks := chunks, rows := rows, fence := f, chunkReferenceCommitFailed := flag } t p).Inv where
  listed := hlisted
  reached := hreached
  alone hb hun := by
    obtain ⟨t',hquarantine⟩ := unquarantined_iff.mp hun
    rw [place_goto] at hquarantine
    split at hquarantine
    · exact hlone hb (.inl hquarantine)
    · exact hlone hb (.inr (unquarantined_iff.mpr ⟨t',hquarantine⟩))
  held t' := by
    rw [place_goto]
    split
    · rename_i heq
      exact heq ▸ hat
    · rename_i hne
      exact hothers t' hne
  holds t' := by
    rw [place_goto]
    split
    · exact hholds
    · rename_i hne
      by_cases hin : (s.place t').InFence
      · exact hkept t' hne hin
      · exact Place.holds_outside hin

theorem State.Inv.stay (h : s.Inv) (hin : (s.place t).InFence) (hin' : p.InFence)
    (hlisted : Listed chunks rows)
    (hreached : ¬ (s.backend = .perItem ∧ p.Loses) → Reached chunks rows)
    (hholds : p.Holds chunks rows) :
    (State.goto { s with
      chunks := chunks, rows := rows, chunkReferenceCommitFailed := flag } t p).Inv := by
  refine State.goto_inv hlisted ?_ ?_ (iff_of_true hin' ((h.held t).mp hin)) (fun t' _ => h.held t') hholds
    fun t' hne hother => absurd hother (h.only hin hne)
  · intro hexempt
    refine hreached fun hloses => hexempt ⟨hloses.1,t,?_⟩
    rw [place_goto,if_pos rfl]
    exact hloses.2
  · rintro hb (rfl | hun)
    · exact hin'.elim
    · exact h.alone hb hun

theorem State.Inv.leave (h : s.Inv) (hin : (s.place t).InFence) (hlisted : Listed chunks rows)
    (hreached : Reached chunks rows) :
    (State.release { s with
      chunks := chunks, rows := rows, chunkReferenceCommitFailed := flag } t).Inv :=
  State.goto_inv hlisted (fun _ => hreached) (fun _ _ => rfl) (iff_of_false id nofun)
    (fun _ hne => iff_of_false (h.only hin hne) nofun) trivial
    fun _ hne hother => absurd hother (h.only hin hne)

theorem State.Inv.enter (h : s.Inv) (hout : ¬ (s.place t).Loses) (hin : p.InFence)
    (hun : s.backend = .perItem → ¬ s.Unquarantined) (hholds : p.Holds s.chunks s.rows) :
    (s.acquire t p).Inv := by
  unfold State.acquire
  split
  · rename_i hfence
    have hnobody : ∀ t', ¬ (s.place t').InFence := by
      intro t' hin'
      have hsome := (h.held t').mp hin'
      rw [hfence] at hsome
      cases hsome
    refine State.goto_inv h.listed ?_ ?_ (iff_of_true hin rfl) ?_ hholds
      fun t' _ hin' => (hnobody t' hin').elim
    · exact fun hnot => h.reached (not_exempt_of_goto hout hnot)
    · rintro hb (rfl | hun')
      · exact hin.elim
      · exact absurd hun' (hun hb)
    · exact fun t' hne => iff_of_false (hnobody t') fun hsome => hne (some.inj hsome).symm
  · exact h

theorem State.Inv.outside (h : s.Inv) (hout : ¬ (s.place t).InFence) (hout' : ¬ p.InFence)
    (hlone : p = .loneQuarantine → s.backend = .perItem → s.fence = none)
    (hlisted : Listed chunks rows)
    (hreached : ¬ (State.goto { s with
      chunks := chunks, rows := rows, chunkReferenceCommitFailed := flag } t p).Exempt →
      Reached chunks rows)
    (hholds : ∀ t', (s.place t').InFence → (s.place t').Holds chunks rows) :
    (State.goto { s with
      chunks := chunks, rows := rows, chunkReferenceCommitFailed := flag } t p).Inv := by
  refine State.goto_inv hlisted hreached ?_ ?_ (fun t' _ => h.held t') (Place.holds_outside hout')
    fun t' _ => hholds t'
  · rintro hb (hp | hun)
    · exact hlone hp hb
    · exact h.alone hb hun
  · exact iff_of_false hout' fun hsome => hout ((h.held t).mpr hsome)

theorem State.Inv.move (h : s.Inv) (hout : ¬ (s.place t).InFence) (hkeeps : ¬ (s.place t).Loses)
    (hout' : ¬ p.InFence) (hkeeps' : ¬ p.Loses) : (s.goto t p).Inv := by
  refine h.outside (p := p) hout hout' ?_ h.listed ?_ fun t' _ => h.holds t'
  · rintro rfl
    exact absurd trivial hkeeps'
  · exact fun hnot => h.reached (not_exempt_of_goto hkeeps hnot)

theorem Place.Holds.mono {chunks' : Deferred ChunkId (List CacheKey)}
    {rows' : Deferred CacheKey CacheRow} (hholds : p.Holds chunks rows)
    (hviews : ∀ c k, Lists (chunks.view c) k → Lists (chunks'.view c) k)
    (hdurable : ∀ k row c, WrittenFor k row c → rows'.durable.get k = some row →
      rows.durable.get k = some row)
    (hpending : ∀ k row c, WrittenFor k row c → rows'.pending.get k = some row →
      rows.pending.get k = some row)
    (hcommitted : p.InFence → ¬ p.Loses → Committed chunks rows → Committed chunks' rows') :
    p.Holds chunks' rows' := by
  cases p with
  | attachUpsert c k content list =>
    intro k' row hrow hwritten
    refine hholds k' row ?_ hwritten
    exact hrow.imp (hdurable k' row c hwritten) (hpending k' row c hwritten)
  | saveRead c k content => exact hviews c k hholds
  | saveUpsert c k content => exact hviews c k hholds
  | pairCache => exact hcommitted trivial id hholds
  | discardCheck => exact hcommitted trivial id hholds
  | discardFlush => exact hcommitted trivial id hholds
  | discardDropChunks committed =>
    cases committed with
    | true => exact hcommitted trivial id hholds
    | false => trivial
  | discardDropRows committed =>
    cases committed with
    | true => exact hcommitted trivial id hholds
    | false => trivial
  | _ => trivial

theorem State.Inv.resumeAttach (h : s.Inv) {c : ChunkId} {k : CacheKey} {content : String}
    (hplace : s.place t = .attachRead c k content) : (s.resume t a).Inv := by
  obtain ⟨hin,-,hreached⟩ := h.inside hplace trivial
  unfold State.resume
  rw [hplace]
  cases a with
  | fails _ _ => exact h.leave hin h.listed (hreached id)
  | ok =>
    simp only
    cases hview : s.chunks.view c with
    | none => exact h.leave hin h.listed (hreached id)
    | some list =>
      simp only
      split
      · rename_i hk
        exact h.stay hin trivial h.listed (fun _ => hreached id) ⟨list,hview,hk⟩
      · refine h.stay hin trivial h.listed (fun _ => hreached id) ?_
        -- what the row lists at the read lists every row of the chunk
        intro k' row hrow hwritten
        have hlists : Lists (s.chunks.view c) k' := by
          obtain hdurable | hpending := hrow
          · exact h.listed.view hdurable hwritten
          · exact hreached id k' row c hpending hwritten
        obtain ⟨l,hl,hk'⟩ := hlists
        rw [hview] at hl
        exact some.inj hl ▸ hk'

theorem State.Inv.resumeSave (h : s.Inv) {c : ChunkId} {k : CacheKey} {content : String}
    {list : List CacheKey} (hplace : s.place t = .attachUpsert c k content list ∨
      s.place t = .saveRead c k content ∨ s.place t = .saveUpsert c k content) :
    (s.resume t a).Inv := by
  obtain hplace | hplace | hplace := hplace <;> obtain ⟨hin,hholds,hreached⟩ :=
    h.inside hplace trivial <;> unfold State.resume <;> rw [hplace] <;> cases a
  case inl.fails => exact h.leave hin h.listed (hreached id)
  case inr.inl.fails => exact h.leave hin h.listed (hreached id)
  case inr.inr.fails => exact h.leave hin h.listed (hreached id)
  case inl.ok =>
    refine h.stay hin trivial (h.listed.upsertChunk ?_) (fun _ => (hreached id).upsertChunk ?_) ?_
    · intro k' row hrow hwritten
      exact List.mem_append_left _ (hholds k' row (.inl hrow) hwritten)
    · intro k' row hrow hwritten
      exact List.mem_append_left _ (hholds k' row (.inr hrow) hwritten)
    · refine ⟨list ++ [k],?_,by simp⟩
      rw [view_upsert,if_pos rfl]
  case inr.inl.ok =>
    simp only
    split
    · exact h.leave hin h.listed (hreached id)
    · exact h.stay hin trivial h.listed (fun _ => hreached id) hholds
  case inr.inr.ok =>
    refine h.leave hin ⟨h.listed.durable,h.listed.pending⟩ ((hreached id).upsertRow ?_)
    rintro c' ⟨-,hc⟩
    rw [← some.inj hc]
    exact hholds

theorem State.Inv.lose (h : s.Inv) (hin : (s.place t).InFence) (hreached : Reached s.chunks s.rows)
    {ids : List ChunkId} (hin' : p.InFence) (hloses : p.Loses)
    (hholds : p.Holds (s.chunks.commit s.backend (.raises ids)) s.rows) :
    (State.goto { s with
      chunks := s.chunks.commit s.backend (.raises ids),
      chunkReferenceCommitFailed := flag } t p).Inv := by
  refine h.stay hin hin' (h.listed.commitChunks _) ?_ hholds
  intro hkeeps
  cases hb : s.backend with
  | snapshot => exact hreached
  | perItem => exact absurd ⟨hb,hloses⟩ hkeeps

theorem State.Inv.resumePair (h : s.Inv) (hplace : s.place t = .pairChunks ∨
    s.place t = .pairQuarantine ∨ s.place t = .pairCache) : (s.resume t a).Inv := by
  obtain hplace | hplace | hplace := hplace <;> obtain ⟨hin,hholds,hreached⟩ :=
    h.inside hplace trivial <;> unfold State.resume <;> rw [hplace]
  · cases a with
    | ok =>
      exact h.stay hin trivial (h.listed.commitChunks _) (fun _ => (hreached id).chunksLand)
        (hreached id).committed
    | fails ids keys => exact h.lose hin (hreached id) (p := .pairQuarantine) trivial trivial trivial
  · apply h.leave hin (h.listed.dropRows _)
    cases hb : s.backend with
    | perItem => exact reached_dropRows fun _ hk => hk
    | snapshot => exact h.reached_snapshot hb
  · have hlisted := h.listed.commitRows (b := s.backend) (hreached id) hholds a.rows
    have hreached' := (hreached id).mono (pending_commitRows (b := s.backend) a.rows)
    cases a with
    | ok => exact h.leave hin hlisted hreached'
    | fails ids keys => exact h.leave hin hlisted hreached'

theorem State.Inv.resumeDiscard (h : s.Inv) {committed : Bool}
    (hplace : s.place t = .discardChunks ∨ s.place t = .discardCheck ∨
      s.place t = .discardDropChunks committed ∨ s.place t = .discardFlush ∨
      s.place t = .discardDropRows committed) : (s.resume t a).Inv := by
  obtain hplace | hplace | hplace | hplace | hplace := hplace <;> obtain ⟨hin,hholds,hreached⟩ :=
    h.inside hplace trivial <;> unfold State.resume <;> rw [hplace]
  · cases a with
    | ok =>
      exact h.stay hin trivial (h.listed.commitChunks _) (fun _ => (hreached id).chunksLand)
        (hreached id).committed
    | fails ids keys => exact h.lose hin (hreached id) (p := .discardDropChunks false) trivial trivial trivial
  · cases hpending : s.chunks.hasPending s.backend with
    | true => exact h.stay hin trivial h.listed (fun _ => hreached id) trivial
    | false => exact h.stay hin trivial h.listed (fun _ => hreached id) hholds
  · cases committed with
    | true =>
      exact h.stay hin trivial (h.listed.dropChunks _) (fun _ => (hreached id).dropChunks hholds)
        (hholds.dropChunks _)
    | false =>
      refine h.stay hin trivial (h.listed.dropChunks _) ?_ trivial
      intro hkeeps
      cases hb : s.backend with
      | snapshot => exact h.reached_snapshot hb
      | perItem => exact absurd ⟨hb,trivial⟩ hkeeps
  · exact h.stay hin trivial (h.listed.commitRows (hreached id) hholds _)
      (fun _ => (hreached id).mono (pending_commitRows _)) (Committed.mono hholds (pending_commitRows _))
  · apply h.leave hin (h.listed.dropRows _)
    cases hb : s.backend with
    | snapshot => exact h.reached_snapshot hb
    | perItem => exact reached_dropRows fun _ hk => .inr hk

theorem State.Inv.resumeHit (h : s.Inv) {c : ChunkId} {k : CacheKey} {list : List CacheKey}
    (hplace : s.place t = .hitRead c k ∨ s.place t = .hitUpsert c k list)
    (hordered : s.Ordered (.resume t a)) : (s.resume t a).Inv := by
  have hout : ¬ (s.place t).InFence := by rcases hplace with heq | heq <;> exact heq ▸ id
  have hkeeps : ¬ (s.place t).Loses := by rcases hplace with heq | heq <;> exact heq ▸ id
  have hmove : ∀ p : Place, ¬ p.InFence → ¬ p.Loses → (s.goto t p).Inv :=
    fun p => h.move hout hkeeps
  obtain hplace | hplace := hplace
  · unfold State.resume
    rw [hplace]
    cases a with
    | fails _ _ => exact hmove _ id id
    | ok =>
      simp only
      cases s.chunks.view c with
      | none => exact hmove _ id id
      | some list =>
        simp only
        split
        · exact hmove _ id id
        · exact hmove _ id id
  · simp only [State.Ordered,hplace,State.OrderedAt] at hordered
    unfold State.resume
    rw [hplace]
    cases a with
    | fails _ _ => exact hmove _ id id
    | ok =>
      -- the row that is written back lists what the row lists now
      have hfresh : ∀ k', Lists (s.chunks.view c) k' → k' ∈ list ++ [k] := by
        rintro k' ⟨l,hl,hk'⟩
        rw [hl] at hordered
        exact List.mem_append_left _ (hordered rfl k' hk')
      refine h.outside hout id nofun (h.listed.upsertChunk ?_) ?_ ?_
      · intro k' row hrow hwritten
        exact hfresh k' (h.listed.view hrow hwritten)
      · intro hexempt
        have hreached := h.reached (not_exempt_of_goto hkeeps hexempt)
        apply hreached.upsertChunk
        intro k' row hrow hwritten
        exact hfresh k' (hreached k' row c hrow hwritten)
      · intro t' _
        refine (h.holds t').mono ?_ (fun _ _ _ _ => id) (fun _ _ _ _ => id)
          fun _ _ => id
        intro c' k' hlists
        rw [view_upsert]
        split
        · rename_i heq
          exact ⟨_,rfl,hfresh k' (heq ▸ hlists)⟩
        · exact hlists

theorem State.Inv.holds_chunksLand (h : s.Inv) :
    (s.place t').Holds (s.chunks.commit s.backend .lands) s.rows := by
  refine (h.holds t').mono ?_ (fun _ _ _ _ => id) (fun _ _ _ _ => id) ?_
  · intro c k hlists
    rw [view_lands]
    exact hlists
  · intro hin hkeeps hcommitted
    exact hcommitted.commitChunks ((h.inside rfl hin).2.2 hkeeps) _

theorem durable_commitRows {b : Backend} {o : Outcome CacheKey} {k : CacheKey} {row : CacheRow}
    (hnone : ∀ k ∈ rows.pending.keys, k.cacheType ≠ .extract) (hk : k.cacheType = .extract)
    (hrow : (rows.commit b o).durable.get k = some row) : rows.durable.get k = some row := by
  obtain hview | hsame := @get_durable_commit _ _ _ b rows k o
  · rw [hview] at hrow
    obtain hpending | ⟨-,hdurable⟩ := view_cases hrow
    · exact absurd hk (hnone k (Dict.mem_keys.mpr (by simp [hpending])))
    · exact hdurable
  · rwa [hsame] at hrow

section

variable (h : s.Inv)

include h

theorem State.Inv.resumeLoneChunks (hplace : s.place t = .loneChunks)
    (hordered : s.Ordered (.resume t a)) : (s.resume t a).Inv := by
  have hout : ¬ (s.place t).InFence := hplace ▸ id
  have hkeeps : ¬ (s.place t).Loses := hplace ▸ id
  simp only [State.Ordered,hplace] at hordered
  unfold State.resume
  rw [hplace]
  cases a with
  | ok =>
    exact h.outside hout id nofun (h.listed.commitChunks (b := s.backend) .lands)
      (fun hnot => (h.reached (not_exempt_of_goto hkeeps hnot)).chunksLand)
      fun t' _ => h.holds_chunksLand
  | fails ids keys =>
    have hfence : s.backend = .perItem → s.fence = none := fun hb => hordered hb (by simp)
    refine h.outside hout id (fun _ => hfence)
      (h.listed.commitChunks (b := s.backend) (.raises ids)) ?_ ?_
    · intro hnot
      cases hb : s.backend with
      | snapshot => exact h.reached_snapshot hb
      | perItem =>
        refine absurd ⟨hb,t,?_⟩ hnot
        rw [place_goto,if_pos rfl]
        trivial
    · intro t' hin
      cases hb : s.backend with
      | perItem => exact nomatch (hfence hb).symm.trans ((h.held t').mp hin)
      | snapshot => exact h.holds t'

theorem State.Inv.resumeLoneQuarantine (hplace : s.place t = .loneQuarantine) :
    (s.resume t a).Inv := by
  unfold State.resume
  rw [hplace]
  refine h.outside (hplace ▸ id) id nofun (h.listed.dropRows _) ?_ ?_
  · intro _
    cases hb : s.backend with
    | perItem => exact reached_dropRows fun _ hk => hk
    | snapshot => exact h.reached_snapshot hb
  · intro t' hin
    cases hb : s.backend with
    | perItem =>
      have hnone := h.alone hb (unquarantined_iff.mpr ⟨t,hplace⟩)
      exact nomatch hnone.symm.trans ((h.held t').mp hin)
    | snapshot => exact h.holds t'

theorem State.Inv.resumeLoneCache (hplace : s.place t = .loneCache)
    (hordered : s.Ordered (.resume t a)) : (s.resume t a).Inv := by
  have hkeeps : ¬ (s.place t).Loses := hplace ▸ id
  simp only [State.Ordered,hplace] at hordered
  unfold State.resume
  rw [hplace]
  refine h.outside (hplace ▸ id) id nofun ⟨?_,?_⟩ ?_ ?_
  · intro k row c hrow hwritten
    exact h.listed.durable k row c (durable_commitRows hordered hwritten.1 hrow) hwritten
  · intro k row c l hrow hwritten
    exact h.listed.pending k row c l (durable_commitRows hordered hwritten.1 hrow) hwritten
  · intro hnot
    exact (h.reached (not_exempt_of_goto hkeeps hnot)).mono (pending_commitRows _)
  · intro t' _
    exact (h.holds t').mono (fun _ _ => id)
      (fun _ _ _ hwritten => durable_commitRows hordered hwritten.1)
      (fun k row _ _ => pending_commitRows _ k row) fun _ _ hc => hc.mono (pending_commitRows _)

theorem State.Inv.resume (hordered : s.Ordered (.resume t a)) :
    (s.resume t a).Inv := by
  have hordered' := hordered
  cases hplace : s.place t with
  | attachRead c k content => exact h.resumeAttach hplace
  | attachUpsert c k content list => exact h.resumeSave (.inl hplace)
  | saveRead c k content => exact @State.Inv.resumeSave _ _ _ h c k content [] (.inr (.inl hplace))
  | saveUpsert c k content =>
    exact @State.Inv.resumeSave _ _ _ h c k content [] (.inr (.inr hplace))
  | hitRead c k => exact @State.Inv.resumeHit _ _ _ h c k [] (.inl hplace) hordered
  | hitUpsert c k list => exact h.resumeHit (.inr hplace) hordered
  | pairChunks => exact h.resumePair (.inl hplace)
  | pairQuarantine => exact h.resumePair (.inr (.inl hplace))
  | pairCache => exact h.resumePair (.inr (.inr hplace))
  | loneChunks => exact h.resumeLoneChunks hplace hordered
  | loneQuarantine => exact h.resumeLoneQuarantine hplace
  | loneCache => exact h.resumeLoneCache hplace hordered
  | discardChunks => exact @State.Inv.resumeDiscard _ _ _ h true (.inl hplace)
  | discardCheck => exact @State.Inv.resumeDiscard _ _ _ h true (.inr (.inl hplace))
  | discardDropChunks committed => exact h.resumeDiscard (.inr (.inr (.inl hplace)))
  | discardFlush =>
    exact @State.Inv.resumeDiscard _ _ _ h true (.inr (.inr (.inr (.inl hplace))))
  | discardDropRows committed => exact h.resumeDiscard (.inr (.inr (.inr (.inr hplace))))
  | _ =>
    simp only [State.Ordered,hplace] at hordered'
    unfold State.resume
    rw [hplace]
    first
      | exact h
      | exact h.enter (hplace ▸ id) trivial hordered' trivial
      | cases s.chunkReferenceCommitFailed <;>
          exact h.enter (hplace ▸ id) trivial hordered' trivial

theorem State.Inv.spawn (hout : ¬ p.InFence) (hkeeps : ¬ p.Loses) :
    (s.spawn t p).Inv := by
  unfold State.spawn
  split
  · rename_i hidle
    exact h.move (hidle ▸ id) (hidle ▸ id) hout hkeeps
  · exact h

theorem State.Inv.crash : (s.step .crash).Inv where
  listed := h.listed.restart
  reached _ _ _ _ hrow := nomatch hrow
  alone _ _ := rfl
  held _ := iff_of_false id nofun
  holds _ := trivial

theorem State.Inv.query {k : CacheKey} {content : String} :
    (s.step (.query k content)).Inv := by
  unfold State.step
  simp only
  split
  · exact h
  · rename_i hk
    have hrow : ∀ k' row c, WrittenFor k' row c →
        (s.rows.upsert k ⟨content,none⟩).pending.get k' = some row →
        s.rows.pending.get k' = some row := by
      intro k' row c hwritten hget
      rw [pending_upsert] at hget
      split at hget
      · rename_i heq
        exact absurd hwritten.1 (heq ▸ hk)
      · exact hget
    constructor
    · exact ⟨h.listed.durable,h.listed.pending⟩
    · exact fun hnot k' row c hget hwritten =>
        h.reached hnot k' row c (hrow k' row c hwritten hget) hwritten
    · exact h.alone
    · exact h.held
    · intro t
      exact (h.holds t).mono (fun _ _ => id) (fun _ _ _ _ => id) hrow
        fun _ _ hcommitted k' row c hget hwritten =>
          hcommitted k' row c (hrow k' row c hwritten hget) hwritten

theorem State.Inv.step (hordered : s.Ordered event) : (s.step event).Inv := by
  cases event with
  | hit t c hash =>
    unfold State.step
    simp only
    split
    · exact h
    · exact h.spawn id id
  | query k content => exact h.query
  | flushStorages t chunks cache =>
    cases chunks <;> cases cache
    · exact h
    all_goals exact h.spawn id id
  | resume t a => exact h.resume hordered
  | crash => exact h.crash
  | _ => exact h.spawn id id

theorem State.Inv.run (hordered : s.OrderedRun events) : (s.run events).Inv := by
  induction events generalizing s with
  | nil => exact h
  | cons event events ih => exact ih (h.step hordered.1) hordered.2

end

theorem State.Initial.inv (h : s.Initial) : s.Inv where
  listed := ⟨h.reachable,h.pending⟩
  reached _ k row c hrow _ := by
    rw [h.rows] at hrow
    cases hrow
  alone _ _ := h.fence
  held t := by
    rw [State.place,h.tasks,h.fence]
    exact iff_of_false id nofun
  holds t := by
    rw [State.place,h.tasks]
    trivial

theorem extract_rows_reachable (s : State) (hs : s.Initial) (events : List Event)
    (hordered : s.OrderedRun events) : (s.run events).Reachable :=
  (hs.inv.run hordered).listed.durable

end

/-- Two chunks; the row of the first answers a prompt of the second as well. -/
def sharedPrompt : State where
  backend := .snapshot
  chunks := ⟨⟨[("c1", [⟨.extract, "p"⟩]), ("c2", [])], by decide⟩, .empty⟩
  rows := ⟨⟨[(⟨.extract, "p"⟩, ⟨"x", some "c1"⟩)], by decide⟩, .empty⟩
  fence := none
  chunkReferenceCommitFailed := false
  tasks := .empty

theorem sharedPrompt_initial : sharedPrompt.Initial where
  reachable := by
    intro k row c hrow hwritten
    have hin := Dict.get_eq_some.mp hrow
    simp only [sharedPrompt,List.mem_singleton] at hin
    obtain ⟨rfl,rfl⟩ := hin
    obtain rfl := some.inj hwritten.2
    exact ⟨[⟨.extract,"p"⟩],rfl,by simp⟩
  pending _ _ _ _ _ _ hpending := nomatch hpending
  rows := rfl
  fence := rfl
  tasks := rfl

def writerOfRow : List Event :=
  [.miss 1 "c2" "q" "y", .resume 1 .ok, .resume 1 .ok, .resume 1 .ok, .resume 1 .ok, .resume 1 .ok]

def commitPair : List Event := [.queryDone 2, .resume 2 .ok, .resume 2 .ok, .resume 2 .ok]

theorem hit_loses_reference :
    sharedPrompt.Initial ∧ ¬ (sharedPrompt.run ([.hit 0 "c2" "p", .resume 0 .ok] ++
      writerOfRow ++ [.resume 0 .ok] ++ commitPair)).Reachable := by
  refine ⟨sharedPrompt_initial,?_⟩
  intro h
  have hlists := h ⟨.extract,"q"⟩ ⟨"y",some "c2"⟩ "c2" (by decide +kernel) ⟨rfl,rfl⟩
  obtain ⟨l,hl,hmem⟩ := hlists
  have hdurable : (sharedPrompt.run ([.hit 0 "c2" "p", .resume 0 .ok] ++ writerOfRow ++
      [.resume 0 .ok] ++ commitPair)).chunks.durable.get "c2" = some [⟨.extract,"p"⟩] := by
    decide +kernel
  rw [← some.inj hl] at hmem
  simp at hmem

theorem extract_rows_reachable_shared :
    (sharedPrompt.run ([.hit 0 "c2" "p", .resume 0 .ok, .resume 0 .ok] ++ writerOfRow ++
      commitPair)).Reachable :=
  extract_rows_reachable sharedPrompt sharedPrompt_initial _ (by decide +kernel)

end LightRAG.CacheReachability
