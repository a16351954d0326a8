import LightRAG.Knowledge.Attribution
import LightRAG.Knowledge.Rebuild

/-!
# Attribution through a merge call

A call merges each object of its chunk results once, so its attribution is that of its records.
-/

namespace LightRAG.Knowledge
open List Option

/-- Each relation merge of a call gets its chunks to both ends when it comes to run. -/
def KeepsAll (cfg : KgConfig) : List (Pair × List ChunkId) → Store → Prop
  | [], _ => True
  | e :: es, s => KeepsChunks cfg e.1 e.2 s ∧
      ∀ s', mergeEdgesThenUpsert cfg e.1 e.2 s = some s' → KeepsAll cfg es s'

section

variable {cfg : KgConfig} {s s' s'' : Store} {a : Attribution} {e : Name} {p : Pair}
  {data : List ChunkId} {c : ChunkId} {results : List ChunkResult}
  {nodes : List (Name × List ChunkId)} {edges : List (Pair × List ChunkId)}

theorem Store.SameDocuments.trans (h : s.SameDocuments s') (h' : s'.SameDocuments s'') :
    s.SameDocuments s'' := by
  obtain ⟨h1,h2,h3,h4,h5⟩ := h
  obtain ⟨h1',h2',h3',h4',h5'⟩ := h'
  exact ⟨h1'.trans h1,h2'.trans h2,h3'.trans h3,h4'.trans h4,h5'.trans h5⟩

theorem Store.SameDocuments.refl (s : Store) : s.SameDocuments s := ⟨rfl,rfl,rfl,rfl,rfl⟩

theorem sameDocuments_trackEntityIds {full : List ChunkId} :
    s.SameDocuments (trackEntityIds e full s) := by
  unfold trackEntityIds
  split <;> exact ⟨rfl,rfl,rfl,rfl,rfl⟩

theorem sameDocuments_trackRelationIds {full : List ChunkId} :
    s.SameDocuments (trackRelationIds p full s) := by
  unfold trackRelationIds
  split <;> exact ⟨rfl,rfl,rfl,rfl,rfl⟩

theorem sameDocuments_mergeEndpoint (cfg : KgConfig) (full sourceIds : List ChunkId) (s : Store)
    (e : Name) : s.SameDocuments (mergeEndpoint cfg full sourceIds s e) := by
  unfold mergeEndpoint
  cases s.getNode e with
  | none => exact sameDocuments_trackEntityIds (s := s.upsertNode e ⟨true,sourceIds⟩)
  | some node =>
    dsimp only
    split <;> split <;> exact ⟨rfl,rfl,rfl,rfl,rfl⟩

theorem sameDocuments_mergeNodes (h : mergeNodesThenUpsert cfg e data s = some s') :
    s.SameDocuments s' := by
  unfold mergeNodesThenUpsert at h
  dsimp only at h
  split at h
  · split at h
    · obtain rfl := some.inj h
      exact sameDocuments_trackEntityIds
    · cases h
  · obtain rfl := some.inj h
    exact sameDocuments_trackEntityIds

theorem sameDocuments_mergeEdges (h : mergeEdgesThenUpsert cfg p data s = some s') :
    s.SameDocuments s' := by
  unfold mergeEdgesThenUpsert at h
  dsimp only at h
  split at h
  · obtain rfl := some.inj h
    exact Store.SameDocuments.refl s
  · split at h
    · split at h
      · obtain rfl := some.inj h
        exact sameDocuments_trackRelationIds
      · cases h
    · obtain rfl := some.inj h
      generalize fullRelationIds s p data = full
      generalize keptRelationIds cfg s p data = kept
      have htracked : s.SameDocuments (trackRelationIds p full s) := sameDocuments_trackRelationIds
      have hfirst := sameDocuments_mergeEndpoint cfg full kept (trackRelationIds p full s) p.inf
      have hsecond := sameDocuments_mergeEndpoint cfg full kept
        (mergeEndpoint cfg full kept (trackRelationIds p full s) p.inf) p.sup
      exact (htracked.trans hfirst).trans hsecond

theorem entities_foldl_addEntity :
    (nodes.foldl (fun a e => a.addEntity e.1 e.2) a).entities e =
      a.entities e ∪ {c | ∃ data, (e, data) ∈ nodes ∧ c ∈ chunksOf data} := by
  induction nodes generalizing a with
  | nil => simp
  | cons x xs ih =>
    rw [foldl_cons,ih]
    ext c
    simp only [mem_cons]
    constructor
    · rintro ((hc | ⟨rfl,hc⟩) | ⟨data,hin,hc⟩)
      · exact .inl hc
      · exact .inr ⟨x.2,.inl rfl,hc⟩
      · exact .inr ⟨data,.inr hin,hc⟩
    · rintro (hc | ⟨data,rfl | hin,hc⟩)
      · exact .inl (.inl hc)
      · exact .inl (.inr ⟨rfl,hc⟩)
      · exact .inr ⟨data,hin,hc⟩

theorem relations_foldl_addEntity :
    (nodes.foldl (fun a e => a.addEntity e.1 e.2) a).relations p = a.relations p := by
  induction nodes generalizing a with
  | nil => rfl
  | cons x xs ih =>
    rw [foldl_cons,ih]
    rfl

theorem entities_foldl_addRelation :
    (edges.foldl (fun a e => a.addRelation e.1 e.2) a).entities e = a.entities e ∪
      {c | ∃ p data, (p, data) ∈ edges ∧ p.inf ≠ p.sup ∧ e ∈ p ∧ c ∈ chunksOf data} := by
  induction edges generalizing a with
  | nil => simp
  | cons x xs ih =>
    rw [foldl_cons,ih]
    ext c
    simp only [mem_cons]
    constructor
    · rintro ((hc | ⟨hp,he,hc⟩) | ⟨p,data,hin,hc⟩)
      · exact .inl hc
      · exact .inr ⟨x.1,x.2,.inl rfl,hp,he,hc⟩
      · exact .inr ⟨p,data,.inr hin,hc⟩
    · rintro (hc | ⟨p,data,rfl | hin,hc⟩)
      · exact .inl (.inl hc)
      · exact .inl (.inr hc)
      · exact .inr ⟨p,data,hin,hc⟩

theorem relations_foldl_addRelation :
    (edges.foldl (fun a e => a.addRelation e.1 e.2) a).relations p = a.relations p ∪
      {c | ∃ data, (p, data) ∈ edges ∧ p.inf ≠ p.sup ∧ c ∈ chunksOf data} := by
  induction edges generalizing a with
  | nil => simp
  | cons x xs ih =>
    rw [foldl_cons,ih]
    ext c
    simp only [mem_cons]
    constructor
    · rintro ((hc | ⟨hp,rfl,hc⟩) | ⟨data,hin,hc⟩)
      · exact .inl hc
      · exact .inr ⟨x.2,.inl rfl,hp,hc⟩
      · exact .inr ⟨data,.inr hin,hc⟩
    · rintro (hc | ⟨data,rfl | hin,hp,hc⟩)
      · exact .inl (.inl hc)
      · exact .inl (.inr ⟨hp,rfl,hc⟩)
      · exact .inr ⟨data,hin,hp,hc⟩

theorem exists_entry {α : Type} [DecidableEq α] {d : Dict α (List ChunkId)} {k : α}
    {es : List (α × List ChunkId)} (hperm : es.Perm d.entries) :
    (∃ data, (k, data) ∈ es ∧ c ∈ chunksOf data) ↔ c ≠ "" ∧ c ∈ (d.get k).getD [] := by
  simp only [hperm.mem_iff,← Dict.get_eq_some]
  constructor
  · rintro ⟨data,hget,hc⟩
    rw [hget]
    exact ⟨hc.2,hc.1⟩
  · rintro ⟨hne,hc⟩
    cases hget : d.get k with
    | none =>
      rw [hget] at hc
      cases hc
    | some data =>
      rw [hget] at hc
      exact ⟨data,rfl,hc,hne⟩

theorem foldl_eq_merge (hnodes : nodes.Perm (allNodes results).entries)
    (hedges : edges.Perm (allEdges results).entries) :
    edges.foldl (fun a e => a.addRelation e.1 e.2)
      (nodes.foldl (fun a e => a.addEntity e.1 e.2) a) = a.merge results := by
  rw [Attribution.mk.injEq]
  constructor
  · funext e
    rw [entities_foldl_addRelation,entities_foldl_addEntity]
    ext c
    simp only [Set.mem_union,Set.mem_ofPred_eq,exists_entry hnodes]
    have hrelations : (∃ p data, (p, data) ∈ edges ∧ p.inf ≠ p.sup ∧ e ∈ p ∧ c ∈ chunksOf data) ↔
        ∃ p, p.inf ≠ p.sup ∧ e ∈ p ∧ c ≠ "" ∧ c ∈ ((allEdges results).get p).getD [] := by
      simp only [← exists_entry hedges]
      constructor
      · rintro ⟨p,data,hin,hp,he,hc⟩
        exact ⟨p,hp,he,data,hin,hc⟩
      · rintro ⟨p,hp,he,data,hin,hc⟩
        exact ⟨p,data,hin,hp,he,hc⟩
    rw [hrelations]
    constructor
    · rintro ((hc | ⟨hne,hc⟩) | ⟨p,hp,he,hne,hc⟩)
      · exact .inl hc
      · exact .inr ⟨hne,.inl hc⟩
      · exact .inr ⟨hne,.inr ⟨p,hp,he,hc⟩⟩
    · rintro (hc | ⟨hne,hc | ⟨p,hp,he,hc⟩⟩)
      · exact .inl (.inl hc)
      · exact .inl (.inr ⟨hne,hc⟩)
      · exact .inr ⟨p,hp,he,hne,hc⟩
  · funext p
    rw [relations_foldl_addRelation,relations_foldl_addEntity]
    ext c
    have hrecords := exists_entry (c := c) (k := p) hedges
    constructor
    · rintro (hc | ⟨data,hin,hp,hc⟩)
      · exact .inl hc
      · have h := hrecords.mp ⟨data,hin,hc⟩
        exact .inr ⟨h.1,hp,h.2⟩
    · rintro (hc | ⟨hne,hp,hc⟩)
      · exact .inl hc
      · obtain ⟨data,hin,hc'⟩ := hrecords.mpr ⟨hne,hc⟩
        exact .inr ⟨data,hin,hp,hc'⟩

theorem Tracked.mergeNodesAll (h : Tracked s a) (hmerge : LightRAG.Knowledge.mergeNodes cfg nodes s = some s') :
    Tracked s' (nodes.foldl (fun a e => a.addEntity e.1 e.2) a) ∧ s.SameDocuments s' := by
  unfold LightRAG.Knowledge.mergeNodes at hmerge
  induction nodes generalizing s a with
  | nil =>
    obtain rfl := some.inj hmerge
    exact ⟨h,Store.SameDocuments.refl s⟩
  | cons x xs ih =>
    obtain ⟨s₁,hstep,hrest⟩ := bind_eq_some_iff.mp hmerge
    obtain ⟨htracked,hdocuments⟩ := ih (h.mergeNodes hstep) hrest
    exact ⟨htracked,(sameDocuments_mergeNodes hstep).trans hdocuments⟩

theorem Tracked.mergeEdgesAll (h : Tracked s a) (hkeeps : KeepsAll cfg edges s)
    (hplace : ∀ x ∈ edges, ∀ c ∈ chunksOf x.2, c ∉ relationNoEvidenceSourceIds)
    (hmerge : LightRAG.Knowledge.mergeEdges cfg edges s = some s') :
    Tracked s' (edges.foldl (fun a e => a.addRelation e.1 e.2) a) ∧ s.SameDocuments s' := by
  unfold LightRAG.Knowledge.mergeEdges at hmerge
  induction edges generalizing s a with
  | nil =>
    obtain rfl := some.inj hmerge
    exact ⟨h,Store.SameDocuments.refl s⟩
  | cons x xs ih =>
    obtain ⟨s₁,hstep,hrest⟩ := bind_eq_some_iff.mp hmerge
    have hfirst := h.mergeEdges (hplace x mem_cons_self) hkeeps.1 hstep
    obtain ⟨htracked,hdocuments⟩ := ih hfirst (hkeeps.2 s₁ hstep)
      (fun y hy => hplace y (mem_cons_of_mem _ hy)) hrest
    exact ⟨htracked,(sameDocuments_mergeEdges hstep).trans hdocuments⟩

end

end LightRAG.Knowledge
