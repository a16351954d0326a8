import LightRAG.Knowledge.Merge

/-!
# Attribution

Which chunks were merged into which object and not purged since. The tracking rows are exact when
they say just that.
-/

namespace LightRAG.Knowledge
open List Option

structure Attribution where
  entities : Name → Set ChunkId
  relations : Pair → Set ChunkId

def chunksOf (data : List ChunkId) : Set ChunkId := {c | c ∈ data ∧ c ≠ ""}

namespace Attribution

def none : Attribution := ⟨fun _ => ∅, fun _ => ∅⟩

def addEntity (a : Attribution) (e : Name) (data : List ChunkId) : Attribution where
  entities e' := a.entities e' ∪ {c | e' = e ∧ c ∈ chunksOf data}
  relations := a.relations

/-- A relation merge counts for the relation and for both its ends; a loop is not merged. -/
def addRelation (a : Attribution) (p : Pair) (data : List ChunkId) : Attribution where
  entities e := a.entities e ∪ {c | p.inf ≠ p.sup ∧ e ∈ p ∧ c ∈ chunksOf data}
  relations q := a.relations q ∪ {c | p.inf ≠ p.sup ∧ q = p ∧ c ∈ chunksOf data}

def purge (a : Attribution) (chunkIds : List ChunkId) : Attribution where
  entities e := {c | c ∈ a.entities e ∧ c ∉ chunkIds}
  relations p := {c | c ∈ a.relations p ∧ c ∉ chunkIds}

/-- The chunks of a whole merge call: those of each record of an object, and for an entity those
of the records of each relation it is an end of. -/
def merge (a : Attribution) (results : List ChunkResult) : Attribution where
  entities e := a.entities e ∪
    {c | c ≠ "" ∧ (c ∈ ((allNodes results).get e).getD [] ∨
      ∃ p, p.inf ≠ p.sup ∧ e ∈ p ∧ c ∈ ((allEdges results).get p).getD [])}
  relations p := a.relations p ∪
    {c | c ≠ "" ∧ p.inf ≠ p.sup ∧ c ∈ ((allEdges results).get p).getD []}

end Attribution

/-- The tracking rows are free of duplicates and name the attributed chunks. -/
structure Exact (s : Store) (a : Attribution) : Prop where
  entity_nodup : ∀ e, ((s.entityRow e).getD []).Nodup
  entity_mem : ∀ e c, c ∈ (s.entityRow e).getD [] ↔ c ∈ a.entities e
  relation_nodup : ∀ p, ((s.relationRow p).getD []).Nodup
  relation_mem : ∀ p c, c ∈ (s.relationRow p).getD [] ↔ c ∈ a.relations p
  ends : ∀ p, ∀ e ∈ p, a.relations p ⊆ a.entities e

structure EntityTracked (row : Option (List ChunkId)) (node : Option Node) (chunks : Set ChunkId) :
    Prop where
  nodup : (row.getD []).Nodup
  mem : ∀ c, c ∈ row.getD [] ↔ c ∈ chunks
  ids : ∀ c ∈ chunks, c ≠ ""
  present : row ≠ none → node ≠ none
  rowless : ∀ n, node = some n → row = none → truthy n.sourceId = []
  label : ∀ n, node = some n → n.hasEntityId = true
  nonempty : row ≠ some []

structure RelationTracked (row : Option (List ChunkId)) (edge : Option Edge)
    (chunks : Set ChunkId) : Prop where
  nodup : (row.getD []).Nodup
  mem : ∀ c, c ∈ row.getD [] ↔ c ∈ chunks
  ids : ∀ c ∈ chunks, c ≠ "" ∧ c ∉ relationNoEvidenceSourceIds
  present : row ≠ none → edge ≠ none
  rowless : ∀ d, edge = some d → ∃ ids, d.sourceId = some ids ∧ (row = none → truthy ids = [])
  nonempty : row ≠ some []

structure Tracked (s : Store) (a : Attribution) : Prop where
  entity : ∀ e, EntityTracked (s.entityRow e) (s.getNode e) (a.entities e)
  relation : ∀ p, RelationTracked (s.relationRow p) (s.getEdge p) (a.relations p)
  ends : ∀ p, ∀ e ∈ p, a.relations p ⊆ a.entities e

theorem Tracked.exact {s : Store} {a : Attribution} (h : Tracked s a) : Exact s a where
  entity_nodup e := (h.entity e).nodup
  entity_mem e := (h.entity e).mem
  relation_nodup p := (h.relation p).nodup
  relation_mem p := (h.relation p).mem
  ends := h.ends

section

variable {s s' : Store} {a : Attribution} {cfg : KgConfig} {e : Name} {p : Pair}
  {data existing sourceIds : List ChunkId} {c : ChunkId} {row : Option (List ChunkId)}
  {node : Option Node} {edge : Option Edge} {chunks : Set ChunkId}

theorem truthy_eq_self (h : ∀ c ∈ data, c ≠ "") : truthy data = data := by
  unfold truthy
  simpa using h

theorem mem_merge_truthy (data : List ChunkId) (c : ChunkId) (h : ∀ c ∈ existing, c ≠ "") :
    c ∈ mergeSourceIds existing (truthy data) ↔ c ∈ existing ∨ c ∈ chunksOf data := by
  rw [mem_mergeSourceIds,mem_truthy]
  constructor
  · rintro ⟨hc | hc,-⟩
    · exact .inl hc
    · exact .inr hc
  · rintro (hc | hc)
    · exact ⟨.inl hc,h c hc⟩
    · exact ⟨.inr hc,hc.2⟩

namespace EntityTracked

variable (h : EntityTracked row node chunks)

include h

theorem row_ids : ∀ c ∈ row.getD [], c ≠ "" := fun c hc => h.ids c ((h.mem c).mp hc)

theorem extend {row' : Option (List ChunkId)} {n : Node} (hnodup : (row'.getD []).Nodup)
    (hmem : ∀ c, c ∈ row'.getD [] ↔ c ∈ row.getD [] ∨ c ∈ chunksOf data)
    (hnonempty : row' ≠ some []) (hlabel : n.hasEntityId = true)
    (hsources : ∀ c ∈ truthy n.sourceId, row' ≠ none) :
    EntityTracked row' (some n) (chunks ∪ chunksOf data) := by
  constructor
  · exact hnodup
  · intro c
    rw [hmem,h.mem]
    rfl
  · rintro c (hc | hc)
    · exact h.ids c hc
    · exact hc.2
  · exact fun _ => some_ne_none n
  · intro n' hn hnone
    obtain rfl := some.inj hn
    rw [eq_nil_iff_forall_not_mem]
    exact fun c hc => hsources c hc hnone
  · intro n' hn
    obtain rfl := some.inj hn
    exact hlabel
  · exact hnonempty

end EntityTracked

section

variable {full : List ChunkId}

theorem getD_rowAfterMerge (row : Option (List ChunkId)) (full : List ChunkId)
    (h : full = [] → row.getD [] = []) :
    (rowAfterMerge row full).getD [] = full := by
  unfold rowAfterMerge
  split
  · rename_i hnil
    rw [h hnil,hnil]
  · rfl

theorem rowAfterMerge_ne_nil (full : List ChunkId) (h : row ≠ some []) :
    rowAfterMerge row full ≠ some [] := by
  unfold rowAfterMerge
  split
  · exact h
  · rename_i hne
    exact fun heq => hne (some.inj heq)

theorem rowAfterMerge_ne_none (h : c ∈ full) : rowAfterMerge row full ≠ none := by
  unfold rowAfterMerge
  rw [if_neg (ne_nil_of_mem h)]
  exact some_ne_none full

theorem rowAfterMerge_eq_none (h : rowAfterMerge row full = none) : row = none := by
  unfold rowAfterMerge at h
  split at h
  · exact h
  · cases h

end

theorem existing_of_merge_nil (data : List ChunkId) (h : ∀ c ∈ existing, c ≠ "")
    (hnil : mergeSourceIds existing (truthy data) = []) : existing = [] := by
  rw [eq_nil_iff_forall_not_mem]
  intro c hc
  have hin := (mem_merge_truthy data c h).mpr (.inl hc)
  rw [hnil] at hin
  cases hin

theorem EntityTracked.existingIds (he : EntityTracked (s.entityRow e) (s.getNode e) chunks) :
    existingEntityIds s e = (s.entityRow e).getD [] := by
  unfold existingEntityIds
  cases hrow : s.entityRow e with
  | some row =>
    rw [hrow] at he
    exact truthy_eq_self he.row_ids
  | none =>
    cases hnode : s.getNode e with
    | none => rfl
    | some node => exact he.rowless node hnode hrow

theorem EntityTracked.mergeEndpoint {full : List ChunkId} (hnodup : full.Nodup)
    (hsources : sourceIds ⊆ full) (he : EntityTracked (s.entityRow e) (s.getNode e) chunks) :
    EntityTracked ((mergeEndpoint cfg full sourceIds s e).entityRow e)
      ((mergeEndpoint cfg full sourceIds s e).getNode e)
      (chunks ∪ chunksOf (if s.getNode e = none then full else sourceIds)) := by
  have hexisting := he.existingIds
  unfold LightRAG.Knowledge.mergeEndpoint
  cases hnode : s.getNode e with
  | none =>
    have hrow : s.entityRow e = none := by
      by_contra hsome
      exact he.present hsome hnode
    rw [hrow] at he
    have hgetD := getD_rowAfterMerge none (truthy full) fun _ => rfl
    simp only [if_true,getNode_trackEntityIds,Store.getNode_upsertNode,entityRow_trackEntityIds,
      Store.entityRow_upsertNode,hrow]
    apply he.extend
    · rw [hgetD]
      exact hnodup.filter _
    · intro c
      rw [hgetD,mem_truthy]
      simp [chunksOf]
    · exact rowAfterMerge_ne_nil (truthy full) he.nonempty
    · rfl
    · intro c hc
      have hc' := mem_truthy.mp hc
      exact rowAfterMerge_ne_none (mem_truthy.mpr ⟨hsources hc'.1,hc'.2⟩)
  | some node =>
    dsimp only
    rw [hexisting]
    have hmem := fun c => mem_merge_truthy sourceIds c he.row_ids
    have hnil := existing_of_merge_nil sourceIds he.row_ids
    generalize hmerged : mergeSourceIds ((s.entityRow e).getD []) (truthy sourceIds) = merged
    rw [hmerged] at hmem hnil
    have hmergedNodup : merged.Nodup := hmerged ▸ nodup_mergeSourceIds
    have key : ∀ t : Store, (t = s ∧ merged = (s.entityRow e).getD [] ∨
          t = s.upsertEntityRow e merged ∧ merged ≠ (s.entityRow e).getD []) →
        t.getNode e = some node ∧ (t.entityRow e).getD [] = merged ∧ t.entityRow e ≠ some [] ∧
          ∀ n : Node, (n = node ∨ n.sourceId ⊆ merged) → ∀ c ∈ truthy n.sourceId,
            t.entityRow e ≠ none := by
      rintro t (⟨rfl,hsame⟩ | ⟨rfl,hdiff⟩)
      · refine ⟨hnode,hsame.symm,he.nonempty,?_⟩
        rintro n (rfl | hsub) c hc hnone
        · rw [he.rowless n hnode hnone] at hc
          cases hc
        · have hin := hsub (mem_truthy.mp hc).1
          rw [hsame,hnone] at hin
          cases hin
      · rw [Store.entityRow_upsertEntityRow,if_pos rfl]
        refine ⟨hnode,rfl,?_,fun _ _ _ _ => some_ne_none merged⟩
        intro hempty
        apply hdiff
        have hmergedNil := some.inj hempty
        rw [hmergedNil,hnil hmergedNil]
    generalize ht : (if merged = (s.entityRow e).getD [] then s
      else s.upsertEntityRow e merged) = t
    obtain ⟨hnode',hgetD,hnonempty,hsourced⟩ := key t (by
      rw [← ht]
      split
      · exact .inl ⟨rfl,by assumption⟩
      · exact .inr ⟨rfl,by assumption⟩)
    split
    · rw [hnode']
      apply he.extend
      · rw [hgetD]
        exact hmergedNodup
      · intro c
        rw [hgetD]
        exact hmem c
      · exact hnonempty
      · exact he.label node hnode
      · exact hsourced node (.inl rfl)
    · rw [Store.getNode_upsertNode,if_pos rfl,Store.entityRow_upsertNode]
      apply he.extend
      · rw [hgetD]
        exact hmergedNodup
      · intro c
        rw [hgetD]
        exact hmem c
      · exact hnonempty
      · exact he.label node hnode
      · exact hsourced _ (.inr applySourceIdsLimit_sublist.subset)

section

variable (he : EntityTracked (s.entityRow e) (s.getNode e) chunks)

include he

theorem EntityTracked.mergeEndpointOf {t : Store} {full : List ChunkId} (cfg : KgConfig) (hnodup : full.Nodup)
    (hsources : sourceIds ⊆ full)
    (hsame : t.getNode e = s.getNode e ∧ t.entityRow e = s.entityRow e) :
    EntityTracked ((LightRAG.Knowledge.mergeEndpoint cfg full sourceIds t e).entityRow e)
      ((LightRAG.Knowledge.mergeEndpoint cfg full sourceIds t e).getNode e)
      (chunks ∪ chunksOf (if s.getNode e = none then full else sourceIds)) := by
  rw [← hsame.1,← hsame.2] at he
  rw [← hsame.1]
  exact he.mergeEndpoint hnodup hsources

theorem EntityTracked.mergeNodes_effect
    (hmerge : mergeNodesThenUpsert cfg e data s = some s') :
    s'.entityRow e = rowAfterMerge (s.entityRow e)
        (mergeSourceIds ((s.entityRow e).getD []) (truthy data)) ∧
      (∃ n, s'.getNode e = some n ∧ n.hasEntityId = true ∧
        ∀ c ∈ truthy n.sourceId, s'.entityRow e ≠ none) ∧
      (∀ e', e' ≠ e → s'.entityRow e' = s.entityRow e' ∧ s'.getNode e' = s.getNode e') ∧
      ∀ p, s'.relationRow p = s.relationRow p ∧ s'.getEdge p = s.getEdge p := by
  unfold mergeNodesThenUpsert at hmerge
  rw [he.existingIds] at hmerge
  dsimp only at hmerge
  split at hmerge
  · cases hnode : s.getNode e with
    | none =>
      rw [hnode] at hmerge
      cases hmerge
    | some n =>
      rw [hnode] at hmerge
      obtain rfl := some.inj hmerge
      have hrow' : (trackEntityIds e (mergeSourceIds ((s.entityRow e).getD []) (truthy data))
          s).entityRow e = rowAfterMerge (s.entityRow e)
            (mergeSourceIds ((s.entityRow e).getD []) (truthy data)) := by
        rw [entityRow_trackEntityIds,if_pos rfl]
      refine ⟨hrow',⟨n,?_,he.label n hnode,?_⟩,?_,?_⟩
      · rw [getNode_trackEntityIds,hnode]
      · intro c hc hnone
        rw [hrow'] at hnone
        have hnil := he.rowless n hnode (rowAfterMerge_eq_none hnone)
        rw [hnil] at hc
        cases hc
      · intro e' hne
        rw [entityRow_trackEntityIds,if_neg hne,getNode_trackEntityIds]
        exact ⟨rfl,rfl⟩
      · intro p
        exact ⟨relationRow_trackEntityIds,getEdge_trackEntityIds⟩
  · obtain rfl := some.inj hmerge
    simp only [Store.entityRow_upsertNode,Store.getNode_upsertNode,Store.relationRow_upsertNode,
      Store.getEdge_upsertNode,entityRow_trackEntityIds,relationRow_trackEntityIds,
      getEdge_trackEntityIds,if_true]
    refine ⟨trivial,⟨_,rfl,rfl,?_⟩,?_,fun _ => ⟨trivial,trivial⟩⟩
    · intro c hc
      exact rowAfterMerge_ne_none (mem_of_mem_limit (mem_truthy.mp hc).1)
    · intro e' hne
      simp [hne]

theorem EntityTracked.mergeNodes
    (hmerge : mergeNodesThenUpsert cfg e data s = some s') :
    EntityTracked (s'.entityRow e) (s'.getNode e) (chunks ∪ chunksOf data) := by
  have hrow := getD_rowAfterMerge _ _ (existing_of_merge_nil data he.row_ids)
  have hnonempty := rowAfterMerge_ne_nil (mergeSourceIds ((s.entityRow e).getD [])
    (truthy data)) he.nonempty
  obtain ⟨hrow',⟨n,hnode,hlabel,hsources⟩,-,-⟩ := he.mergeNodes_effect hmerge
  rw [hnode]
  apply he.extend
  · rw [hrow',hrow]
    exact nodup_mergeSourceIds
  · intro c
    rw [hrow',hrow]
    exact mem_merge_truthy data c he.row_ids
  · rw [hrow']
    exact hnonempty
  · exact hlabel
  · exact hsources

end

namespace RelationTracked

variable (hp : RelationTracked (s.relationRow p) (s.getEdge p) chunks)

include hp

theorem row_ids : ∀ c ∈ (s.relationRow p).getD [], c ≠ "" ∧ c ∉ relationNoEvidenceSourceIds :=
  fun c hc => hp.ids c ((hp.mem c).mp hc)

theorem existingIds : existingRelationIds s p = (s.relationRow p).getD [] := by
  unfold existingRelationIds
  cases hrow : s.relationRow p with
  | some row =>
    have hall : evidenceOnly row = row := by
      unfold evidenceOnly
      rw [filter_eq_self]
      intro c hc
      apply decide_eq_true
      apply hp.row_ids
      rw [hrow]
      exact hc
    exact hall
  | none =>
    cases hedge : s.getEdge p with
    | none => rfl
    | some edge =>
      obtain ⟨ids,hids,hempty⟩ := hp.rowless edge hedge
      simp only [bind_some,hids,getD_none]
      rw [eq_nil_iff_forall_not_mem]
      intro c hc
      have hin : c ∈ truthy ids := by
        rw [mem_truthy]
        exact ⟨(mem_evidenceOnly.mp hc).1,(mem_evidenceOnly.mp hc).2.1⟩
      rw [hempty hrow] at hin
      cases hin

theorem mem_fullRelationIds :
    c ∈ fullRelationIds s p data ↔ c ∈ (s.relationRow p).getD [] ∨ c ∈ chunksOf data := by
  rw [fullRelationIds,hp.existingIds,mem_merge_truthy data c fun c hc => (hp.row_ids c hc).1]

theorem row_of_full_nil (data : List ChunkId) (hnil : fullRelationIds s p data = []) :
    (s.relationRow p).getD [] = [] := by
  rw [fullRelationIds,hp.existingIds] at hnil
  exact existing_of_merge_nil data (fun c hc => (hp.row_ids c hc).1) hnil

theorem extend {edge : Edge} {ids : List ChunkId}
    (hplace : ∀ c ∈ chunksOf data, c ∉ relationNoEvidenceSourceIds)
    (hids : edge.sourceId = some ids)
    (hsources : rowAfterMerge (s.relationRow p) (fullRelationIds s p data) = none →
      truthy ids = []) :
    RelationTracked (rowAfterMerge (s.relationRow p) (fullRelationIds s p data)) (some edge)
      (chunks ∪ chunksOf data) := by
  have hgetD := getD_rowAfterMerge _ _ (hp.row_of_full_nil data)
  constructor
  · rw [hgetD]
    exact nodup_mergeSourceIds
  · intro c
    rw [hgetD,hp.mem_fullRelationIds,hp.mem]
    rfl
  · rintro c (hc | hc)
    · exact hp.ids c hc
    · exact ⟨hc.2,hplace c hc⟩
  · exact fun _ => some_ne_none edge
  · intro d hd
    obtain rfl := some.inj hd
    exact ⟨ids,hids,hsources⟩
  · exact rowAfterMerge_ne_nil _ hp.nonempty

end RelationTracked

theorem mergeEndpoints_effect {chunks : Name → Set ChunkId} (hp : p.inf ≠ p.sup)
    {full kept : List ChunkId} (hnodup : full.Nodup) (hsub : kept ⊆ full)
    (hentity : ∀ e, EntityTracked (s.entityRow e) (s.getNode e) (chunks e)) {t r : Store}
    (hsame : ∀ e, t.getNode e = s.getNode e ∧ t.entityRow e = s.entityRow e)
    (hr : r = [p.inf, p.sup].foldl (mergeEndpoint cfg full kept) t) :
    (∀ e ∈ p, r.getNode e ≠ none ∧ EntityTracked (r.entityRow e) (r.getNode e)
        (chunks e ∪ chunksOf (if s.getNode e = none then full else kept))) ∧
      (∀ e, e ∉ p → r.getNode e = s.getNode e ∧ r.entityRow e = s.entityRow e) ∧
      ∀ q, r.getEdge q = t.getEdge q ∧ r.relationRow q = t.relationRow q := by
  have hinf : p.inf ∈ p := mem_pair.mpr (.inl rfl)
  have hsup : p.sup ∈ p := mem_pair.mpr (.inr rfl)
  simp only [foldl_cons,foldl_nil] at hr
  obtain ⟨hthere₁,hother₁,hedges₁⟩ := mergeEndpoint_frame cfg full kept t p.inf
  obtain ⟨hthere₂,hother₂,hedges₂⟩ :=
    mergeEndpoint_frame cfg full kept (mergeEndpoint cfg full kept t p.inf) p.sup
  have hfirst := (hentity p.inf).mergeEndpointOf cfg hnodup hsub (hsame p.inf)
  have hbetween : (mergeEndpoint cfg full kept t p.inf).getNode p.sup = s.getNode p.sup ∧
      (mergeEndpoint cfg full kept t p.inf).entityRow p.sup = s.entityRow p.sup := by
    have hunchanged := hother₁ p.sup (Ne.symm hp)
    exact ⟨hunchanged.1.trans (hsame p.sup).1,hunchanged.2.trans (hsame p.sup).2⟩
  have hsecond := (hentity p.sup).mergeEndpointOf cfg hnodup hsub hbetween
  rw [← hr] at hthere₂ hother₂ hedges₂ hsecond
  refine ⟨fun e he => ?_,fun e he => ?_,fun q => ?_⟩
  · obtain rfl | rfl := mem_pair.mp he
    · rw [(hother₂ p.inf hp).1,(hother₂ p.inf hp).2]
      exact ⟨hthere₁,hfirst⟩
    · exact ⟨hthere₂,hsecond⟩
  · have hne₁ : e ≠ p.inf := fun heq => he (heq ▸ hinf)
    have hne₂ : e ≠ p.sup := fun heq => he (heq ▸ hsup)
    rw [(hother₂ e hne₂).1,(hother₂ e hne₂).2,(hother₁ e hne₁).1,(hother₁ e hne₁).2]
    exact hsame e
  · rw [(hedges₂ q).1,(hedges₂ q).2]
    exact hedges₁ q

namespace Tracked

variable (h : Tracked s a)

include h

theorem existingRelationIds_eq : existingRelationIds s p = (s.relationRow p).getD [] :=
  (h.relation p).existingIds

theorem mergeNodes (hmerge : mergeNodesThenUpsert cfg e data s = some s') :
    Tracked s' (a.addEntity e data) := by
  obtain ⟨-,-,hother,hrelations⟩ := (h.entity e).mergeNodes_effect hmerge
  constructor
  · intro e'
    by_cases hne : e' = e
    · subst hne
      have hset : (a.addEntity e' data).entities e' = a.entities e' ∪ chunksOf data := by
        simp [Attribution.addEntity]
      rw [hset]
      exact (h.entity e').mergeNodes hmerge
    · have hset : (a.addEntity e data).entities e' = a.entities e' := by
        simp [Attribution.addEntity,hne]
      rw [(hother e' hne).1,(hother e' hne).2,hset]
      exact h.entity e'
  · intro p
    rw [(hrelations p).1,(hrelations p).2]
    exact h.relation p
  · exact fun p e' he' c hc => .inl (h.ends p e' he' hc)

end Tracked

/-- Each new chunk of a relation gets to both its ends: the limit of the relation keeps it, or the
end is created, or the end has it already. -/
def KeepsChunks (cfg : KgConfig) (p : Pair) (data : List ChunkId) (s : Store) : Prop :=
  p.inf ≠ p.sup → ∀ c ∈ chunksOf data, c ∈ keptRelationIds cfg s p data ∨
    ∀ e ∈ p, s.getNode e = none ∨ c ∈ (s.entityRow e).getD []

namespace Tracked

variable (h : Tracked s a)

include h

theorem fullRelationIds_mem :
    c ∈ fullRelationIds s p data ↔ c ∈ a.relations p ∨ c ∈ chunksOf data := by
  rw [(h.relation p).mem_fullRelationIds,(h.relation p).mem]

theorem endpoint_chunks {e : Name} (he : e ∈ p) (hp : p.inf ≠ p.sup)
    (hkeeps : KeepsChunks cfg p data s) :
    a.entities e ∪ chunksOf (if s.getNode e = none then fullRelationIds s p data
      else keptRelationIds cfg s p data) = a.entities e ∪ chunksOf data := by
  have hentity := h.entity e
  ext c
  rw [Set.mem_union,Set.mem_union]
  by_cases hin : c ∈ a.entities e
  · simp [hin]
  · have hrel : c ∉ a.relations p := fun hc => hin (h.ends p e he hc)
    rw [or_iff_right hin,or_iff_right hin]
    have hfull : c ∈ fullRelationIds s p data ↔ c ∈ chunksOf data := by
      rw [h.fullRelationIds_mem,or_iff_right hrel]
    constructor
    · rintro ⟨hc,hne⟩
      apply hfull.mp
      split at hc
      · exact hc
      · exact mem_of_mem_limit hc
    · intro hc
      refine ⟨?_,hc.2⟩
      split
      · exact hfull.mpr hc
      · rename_i hthere
        obtain hkept | hends := hkeeps hp c hc
        · exact hkept
        · obtain hnone | hrow := hends e he
          · exact absurd hnone hthere
          · exact absurd ((hentity.mem c).mp hrow) hin

theorem skipped_chunks {e : Name} (he : e ∈ p) (hp : p.inf ≠ p.sup)
    (hkeeps : KeepsChunks cfg p data s) (hedge : s.getEdge p ≠ none)
    (hskip : skipsMerge cfg cfg.maxSourceIdsPerRelation (existingRelationIds s p)
      (keptRelationIds cfg s p data) data = true) :
    chunksOf data ⊆ a.entities e := by
  have hrelation := h.relation p
  intro c hc
  obtain hkept | hends := hkeeps hp c hc
  · have hskip' : cfg.sourceIdsLimitMethod = .keep ∧
        cfg.maxSourceIdsPerRelation ≤ (existingRelationIds s p).length := by
      have hall := of_decide_eq_true hskip
      exact ⟨hall.1,hall.2.1⟩
    rw [h.existingRelationIds_eq] at hskip'
    unfold keptRelationIds fullRelationIds at hkept
    rw [hskip'.1,h.existingRelationIds_eq] at hkept
    have hin := limit_subset_existing hrelation.nodup
      (fun c hc => (hrelation.ids c ((hrelation.mem c).mp hc)).1) hskip'.2 hkept
    exact h.ends p e he ((hrelation.mem c).mp hin)
  · obtain hnone | hrow := hends e he
    · exact absurd hnone (Store.getNode_of_edge hedge he)
    · exact ((h.entity e).mem c).mp hrow

theorem mergeEndpoints (hp : p.inf ≠ p.sup) (hkeeps : KeepsChunks cfg p data s) {t r : Store}
    (ht : t = trackRelationIds p (fullRelationIds s p data) s)
    (hr : r = [p.inf, p.sup].foldl
      (mergeEndpoint cfg (fullRelationIds s p data) (keptRelationIds cfg s p data)) t) :
    (∀ e ∈ p, r.getNode e ≠ none ∧
        EntityTracked (r.entityRow e) (r.getNode e) (a.entities e ∪ chunksOf data)) ∧
      (∀ e, e ∉ p → r.getNode e = s.getNode e ∧ r.entityRow e = s.entityRow e) ∧
      ∀ q, r.getEdge q = t.getEdge q ∧ r.relationRow q = t.relationRow q := by
  have hsame : ∀ e, t.getNode e = s.getNode e ∧ t.entityRow e = s.entityRow e := by
    intro e
    rw [ht]
    exact ⟨getNode_trackRelationIds,entityRow_trackRelationIds⟩
  obtain ⟨hends,hothers,hedges⟩ := mergeEndpoints_effect hp nodup_mergeSourceIds
    applySourceIdsLimit_sublist.subset h.entity hsame hr
  refine ⟨fun e he => ?_,hothers,hedges⟩
  rw [← h.endpoint_chunks he hp hkeeps]
  exact hends e he

theorem mergeEdges (hplace : ∀ c ∈ chunksOf data, c ∉ relationNoEvidenceSourceIds)
    (hkeeps : KeepsChunks cfg p data s) (hmerge : mergeEdgesThenUpsert cfg p data s = some s') :
    Tracked s' (a.addRelation p data) := by
  unfold mergeEdgesThenUpsert at hmerge
  split at hmerge
  · rename_i hloop
    obtain rfl := some.inj hmerge
    have hsame : a.addRelation p data = a := by
      simp [Attribution.addRelation,hloop]
    rw [hsame]
    exact h
  rename_i hp
  have key : (∀ e ∈ p, EntityTracked (s'.entityRow e) (s'.getNode e)
        (a.entities e ∪ chunksOf data)) ∧
      (∀ e, e ∉ p → s'.getNode e = s.getNode e ∧ s'.entityRow e = s.entityRow e) ∧
      RelationTracked (s'.relationRow p) (s'.getEdge p) (a.relations p ∪ chunksOf data) ∧
      ∀ q, q ≠ p → s'.getEdge q = s.getEdge q ∧ s'.relationRow q = s.relationRow q := by
    dsimp only at hmerge
    split at hmerge
    · rename_i hskip
      cases hedge : s.getEdge p with
      | none =>
        rw [hedge] at hmerge
        cases hmerge
      | some edge =>
        rw [hedge] at hmerge
        obtain rfl := some.inj hmerge
        have hthere : s.getEdge p ≠ none := hedge ▸ some_ne_none edge
        obtain ⟨ids,hids,hempty⟩ := (h.relation p).rowless edge hedge
        refine ⟨fun e he => ?_,fun e _ => ⟨by simp,by simp⟩,?_,fun q hne => ?_⟩
        · have hsub := h.skipped_chunks he hp hkeeps hthere hskip
          rw [Set.union_eq_self_of_subset_right hsub,entityRow_trackRelationIds,
            getNode_trackRelationIds]
          exact h.entity e
        · rw [relationRow_trackRelationIds,if_pos rfl,getEdge_trackRelationIds,hedge]
          exact (h.relation p).extend hplace hids fun hnone => hempty (rowAfterMerge_eq_none hnone)
        · rw [relationRow_trackRelationIds,if_neg hne,getEdge_trackRelationIds]
          exact ⟨rfl,rfl⟩
    · obtain rfl := some.inj hmerge
      obtain ⟨hends,hothers,hedges⟩ := h.mergeEndpoints hp hkeeps rfl rfl
      generalize [p.inf, p.sup].foldl (mergeEndpoint cfg (fullRelationIds s p data)
        (keptRelationIds cfg s p data)) (trackRelationIds p (fullRelationIds s p data) s) = r at *
      have hnodes : ∀ e, (r.upsertEdge p ⟨some (keptRelationIds cfg s p data)⟩).getNode e =
          r.getNode e :=
        fun e => Graph.getNode_upsertEdge fun e' he' => by
          exact isSome_iff_ne_none.mpr (hends e' he').1
      refine ⟨fun e he => ?_,fun e he => ?_,?_,fun q hne => ?_⟩
      · rw [hnodes]
        exact (hends e he).2
      · rw [hnodes]
        exact hothers e he
      · rw [Store.relationRow_upsertEdge,(hedges p).2,relationRow_trackRelationIds,if_pos rfl,
          Store.getEdge_upsertEdge,if_pos rfl]
        apply (h.relation p).extend hplace rfl
        intro hnone
        rw [eq_nil_iff_forall_not_mem]
        intro c hc
        exact rowAfterMerge_ne_none (mem_of_mem_limit (mem_truthy.mp hc).1) hnone
      · rw [Store.relationRow_upsertEdge,(hedges q).2,relationRow_trackRelationIds,if_neg hne,
          Store.getEdge_upsertEdge,if_neg hne,(hedges q).1,getEdge_trackRelationIds]
        exact ⟨rfl,rfl⟩
  obtain ⟨hends,hothers,hrelation,hrelations⟩ := key
  constructor
  · intro e
    by_cases he : e ∈ p
    · have hset : (a.addRelation p data).entities e = a.entities e ∪ chunksOf data := by
        simp [Attribution.addRelation,hp,he]
      rw [hset]
      exact hends e he
    · have hset : (a.addRelation p data).entities e = a.entities e := by
        simp [Attribution.addRelation,he]
      rw [hset,(hothers e he).1,(hothers e he).2]
      exact h.entity e
  · intro q
    by_cases hq : q = p
    · subst hq
      have hset : (a.addRelation q data).relations q = a.relations q ∪ chunksOf data := by
        simp [Attribution.addRelation,hp]
      rw [hset]
      exact hrelation
    · have hset : (a.addRelation p data).relations q = a.relations q := by
        simp [Attribution.addRelation,hq]
      rw [hset,(hrelations q hq).1,(hrelations q hq).2]
      exact h.relation q
  · intro q e he c hc
    obtain hc | ⟨hne,rfl,hc⟩ := hc
    · exact .inl (h.ends q e he hc)
    · exact .inr ⟨hne,he,hc⟩

end Tracked

end

end LightRAG.Knowledge
