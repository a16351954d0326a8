import LightRAG.Knowledge.Attribution
import LightRAG.Knowledge.Descriptions
import Mathlib.Data.Rat.Cast.Defs

/-!
# What merges leave behind, under any limits

The rows of a run of merges hold each chunk once, an edge names the chunks of its row that the limit
keeps, and the ends of an edge are tracked with those.
-/

namespace LightRAG.Knowledge
open List Option

def rowIds (row : Option (List ChunkId)) : Set ChunkId := {c | c ∈ row.getD []}

def limitRelation (cfg : KgConfig) (ids : List ChunkId) : List ChunkId :=
  applySourceIdsLimit ids cfg.maxSourceIdsPerRelation cfg.sourceIdsLimitMethod

structure Settled (cfg : KgConfig) (s : Store) : Prop where
  entity : ∀ e, EntityTracked (s.entityRow e) (s.getNode e) (rowIds (s.entityRow e))
  relation : ∀ p, RelationTracked (s.relationRow p) (s.getEdge p) (rowIds (s.relationRow p))
  kept : ∀ p d, s.getEdge p = some d →
    d.sourceId = some (limitRelation cfg ((s.relationRow p).getD []))
  ends : ∀ p, s.getEdge p ≠ none → ∀ e ∈ p,
    ∀ c ∈ limitRelation cfg ((s.relationRow p).getD []), c ∈ (s.entityRow e).getD []

structure Grows (s s' : Store) : Prop where
  entity : ∀ e, ∀ c ∈ (s.entityRow e).getD [], c ∈ (s'.entityRow e).getD []
  relation : ∀ p, ∀ c ∈ (s.relationRow p).getD [], c ∈ (s'.relationRow p).getD []
  edge : ∀ p, s.getEdge p ≠ none → s'.getEdge p ≠ none
  node : ∀ e, s.getNode e ≠ none → s'.getNode e ≠ none

section

variable {s s' s'' : Store} {cfg : KgConfig} {e : Name} {p : Pair} {data ids new : List ChunkId}
  {row : Option (List ChunkId)} {node : Option Node} {edge : Option Edge}
  {chunks : Set ChunkId} {c : ChunkId}

theorem Grows.refl (s : Store) : Grows s s :=
  ⟨fun _ _ hc => hc,fun _ _ hc => hc,fun _ hp => hp,fun _ he => he⟩

theorem Grows.trans (h : Grows s s') (h' : Grows s' s'') : Grows s s'' :=
  ⟨fun e c hc => h'.entity e c (h.entity e c hc),
    fun p c hc => h'.relation p c (h.relation p c hc),fun p hp => h'.edge p (h.edge p hp),
    fun e he => h'.node e (h.node e he)⟩

theorem EntityTracked.self (h : EntityTracked row node chunks) :
    EntityTracked row node (rowIds row) := by
  have hchunks : rowIds row = chunks := Set.ext h.mem
  rwa [hchunks]

theorem RelationTracked.self (h : RelationTracked row edge chunks) :
    RelationTracked row edge (rowIds row) := by
  have hchunks : rowIds row = chunks := Set.ext h.mem
  rwa [hchunks]

theorem Settled.mergeNodes (h : Settled cfg s)
    (hmerge : mergeNodesThenUpsert cfg e data s = some s') : Settled cfg s' ∧ Grows s s' := by
  have hentity := (h.entity e).mergeNodes hmerge
  obtain ⟨-,⟨n,hnode,-⟩,hother,hrelations⟩ := (h.entity e).mergeNodes_effect hmerge
  have hgrows : ∀ e', ∀ c ∈ (s.entityRow e').getD [], c ∈ (s'.entityRow e').getD [] := by
    intro e' c hc
    by_cases hne : e' = e
    · subst hne
      exact (hentity.mem c).mpr (.inl hc)
    · rwa [(hother e' hne).1]
  refine ⟨⟨?_,?_,?_,?_⟩,hgrows,?_,?_,?_⟩
  · intro e'
    by_cases hne : e' = e
    · subst hne
      exact hentity.self
    · rw [(hother e' hne).1,(hother e' hne).2]
      exact h.entity e'
  · intro p
    rw [(hrelations p).1,(hrelations p).2]
    exact h.relation p
  · intro p d hd
    rw [(hrelations p).2] at hd
    rw [(hrelations p).1]
    exact h.kept p d hd
  · intro p hp e' he' c hc
    rw [(hrelations p).2] at hp
    rw [(hrelations p).1] at hc
    exact hgrows e' c (h.ends p hp e' he' c hc)
  · intro p c hc
    rwa [(hrelations p).1]
  · intro p hp
    rwa [(hrelations p).2]
  · intro e' he'
    by_cases hne : e' = e
    · rw [hne,hnode]
      exact some_ne_none n
    · rwa [(hother e' hne).2]

theorem limit_merge_of_full (hnodup : ids.Nodup) (hne : ∀ c ∈ ids, c ≠ "") {limit : ℕ}
    (hfull : limit ≤ ids.length) (new : List ChunkId) :
    applySourceIdsLimit (mergeSourceIds ids new) limit .keep =
      applySourceIdsLimit ids limit .keep := by
  obtain ⟨rest,hrest⟩ := prefix_mergeSourceIds new hnodup hne
  unfold applySourceIdsLimit
  by_cases hzero : limit = 0
  · rw [if_pos hzero,if_pos hzero]
  rw [if_neg hzero,if_neg hzero,← hrest]
  by_cases hlong : (ids ++ rest).length ≤ limit
  · have hlength : ids.length ≤ limit := by
      rw [length_append] at hlong
      omega
    have hnil : rest = [] := by
      rw [length_append] at hlong
      exact eq_nil_of_length_eq_zero (by omega)
    rw [if_pos hlong,if_pos hlength,hnil,append_nil]
  · rw [if_neg hlong]
    dsimp only
    rw [take_append_of_le_length hfull]
    split
    · rw [take_of_length_le ‹_›]
    · rfl

theorem Settled.full_eq (h : Settled cfg s) (p : Pair) (data : List ChunkId) :
    fullRelationIds s p data = mergeSourceIds ((s.relationRow p).getD []) (truthy data) := by
  rw [fullRelationIds,(h.relation p).existingIds]

theorem Settled.getD_row (h : Settled cfg s) (p : Pair) (data : List ChunkId) :
    (rowAfterMerge (s.relationRow p) (fullRelationIds s p data)).getD [] =
      fullRelationIds s p data :=
  getD_rowAfterMerge _ _ ((h.relation p).row_of_full_nil data)

structure RelationEffect (cfg : KgConfig) (p : Pair) (data : List ChunkId) (s s' : Store) :
    Prop where
  row : s'.relationRow p = rowAfterMerge (s.relationRow p) (fullRelationIds s p data)
  edge : s'.getEdge p = some ⟨some (keptRelationIds cfg s p data)⟩
  others : ∀ q, q ≠ p → s'.getEdge q = s.getEdge q ∧ s'.relationRow q = s.relationRow q
  ends : ∀ e ∈ p, (∀ c ∈ (s.entityRow e).getD [], c ∈ (s'.entityRow e).getD []) ∧
    (∀ c ∈ keptRelationIds cfg s p data, c ∈ (s'.entityRow e).getD []) ∧
    (s.getNode e ≠ none → ∀ c ∈ (s'.entityRow e).getD [],
      c ∈ (s.entityRow e).getD [] ∨ c ∈ keptRelationIds cfg s p data) ∧
    EntityTracked (s'.entityRow e) (s'.getNode e) (rowIds (s'.entityRow e))
  outside : ∀ e, e ∉ p → s'.getNode e = s.getNode e ∧ s'.entityRow e = s.entityRow e
  there : ∀ e ∈ p, s'.getNode e ≠ none

theorem edge_eq {d : Edge} (h : d.sourceId = some ids) : d = ⟨some ids⟩ := by
  exact congrArg Edge.mk h

theorem Settled.skipped (h : Settled cfg s) {d : Edge} (hedge : s.getEdge p = some d)
    (hskip : skipsMerge cfg cfg.maxSourceIdsPerRelation (existingRelationIds s p)
      (keptRelationIds cfg s p data) data = true) :
    RelationEffect cfg p data s (trackRelationIds p (fullRelationIds s p data) s) := by
  have hall := of_decide_eq_true hskip
  have hkept : keptRelationIds cfg s p data = limitRelation cfg ((s.relationRow p).getD []) := by
    have hrow := (h.relation p).row_ids
    unfold keptRelationIds limitRelation
    rw [h.full_eq,hall.1]
    apply limit_merge_of_full (h.relation p).nodup (fun c hc => (hrow c hc).1)
    rw [← (h.relation p).existingIds]
    exact hall.2.1
  constructor
  · rw [relationRow_trackRelationIds,if_pos rfl]
  · rw [getEdge_trackRelationIds,hedge,hkept]
    exact congrArg some (edge_eq (h.kept p d hedge))
  · intro q hne
    rw [relationRow_trackRelationIds,if_neg hne,getEdge_trackRelationIds]
    exact ⟨rfl,rfl⟩
  · intro e he
    rw [entityRow_trackRelationIds,getNode_trackRelationIds,hkept]
    exact ⟨fun _ hc => hc,h.ends p (hedge ▸ some_ne_none d) e he,fun _ _ hc => .inl hc,h.entity e⟩
  · intro e _
    exact ⟨getNode_trackRelationIds,entityRow_trackRelationIds⟩
  · intro e he
    rw [getNode_trackRelationIds]
    exact Store.getNode_of_edge (hedge ▸ some_ne_none d) he

theorem Settled.merged (h : Settled cfg s) (hp : p.inf ≠ p.sup) {r : Store}
    (hr : r = [p.inf, p.sup].foldl
      (mergeEndpoint cfg (fullRelationIds s p data) (keptRelationIds cfg s p data))
      (trackRelationIds p (fullRelationIds s p data) s)) :
    RelationEffect cfg p data s (r.upsertEdge p ⟨some (keptRelationIds cfg s p data)⟩) := by
  have hsub : keptRelationIds cfg s p data ⊆ fullRelationIds s p data :=
    applySourceIdsLimit_sublist.subset
  have hne : ∀ c ∈ fullRelationIds s p data, c ≠ "" := by
    intro c hc
    exact (mem_mergeSourceIds.mp hc).2
  obtain ⟨hends,hothers,hedges⟩ := mergeEndpoints_effect hp nodup_mergeSourceIds hsub h.entity
    (fun e => ⟨getNode_trackRelationIds,entityRow_trackRelationIds⟩) hr
  have hnodes : ∀ e, (r.upsertEdge p ⟨some (keptRelationIds cfg s p data)⟩).getNode e =
      r.getNode e :=
    fun e => Graph.getNode_upsertEdge fun e' he' => by
      exact isSome_iff_ne_none.mpr (hends e' he').1
  constructor
  · rw [Store.relationRow_upsertEdge,(hedges p).2,relationRow_trackRelationIds,if_pos rfl]
  · rw [Store.getEdge_upsertEdge,if_pos rfl]
  · intro q hq
    rw [Store.relationRow_upsertEdge,(hedges q).2,relationRow_trackRelationIds,if_neg hq,
      Store.getEdge_upsertEdge,if_neg hq,(hedges q).1,getEdge_trackRelationIds]
    exact ⟨rfl,rfl⟩
  · intro e he
    obtain ⟨-,htracked⟩ := hends e he
    rw [hnodes]
    refine ⟨fun c hc => (htracked.mem c).mpr (.inl hc),?_,?_,htracked.self⟩
    · intro c hc
      refine (htracked.mem c).mpr (.inr ⟨?_,hne c (hsub hc)⟩)
      split
      · exact hsub hc
      · exact hc
    · intro hthere c hc
      have hin := (htracked.mem c).mp hc
      rw [if_neg hthere] at hin
      exact hin.imp id fun hkept => hkept.1
  · intro e he
    rw [hnodes]
    exact hothers e he
  · intro e he
    rw [hnodes]
    exact (hends e he).1

theorem Settled.mergeEdges_effect (h : Settled cfg s)
    (hmerge : mergeEdgesThenUpsert cfg p data s = some s') :
    (p.inf = p.sup ∧ s' = s) ∨ (p.inf ≠ p.sup ∧ RelationEffect cfg p data s s') := by
  unfold mergeEdgesThenUpsert at hmerge
  split at hmerge
  · rename_i hloop
    exact .inl ⟨hloop,(some.inj hmerge).symm⟩
  rename_i hp
  refine .inr ⟨hp,?_⟩
  dsimp only at hmerge
  split at hmerge
  · rename_i hskip
    cases hedge : s.getEdge p with
    | none =>
      rw [hedge] at hmerge
      cases hmerge
    | some d =>
      rw [hedge] at hmerge
      obtain rfl := some.inj hmerge
      exact h.skipped hedge hskip
  · obtain rfl := some.inj hmerge
    exact h.merged hp rfl

theorem Settled.effect (h : Settled cfg s) (heffect : RelationEffect cfg p data s s')
    (hplace : ∀ c ∈ chunksOf data, c ∉ relationNoEvidenceSourceIds) :
    Settled cfg s' ∧ Grows s s' := by
  have hgetD : (s'.relationRow p).getD [] = fullRelationIds s p data := by
    rw [heffect.row,h.getD_row]
  have hentity : ∀ e, ∀ c ∈ (s.entityRow e).getD [], c ∈ (s'.entityRow e).getD [] := by
    intro e c hc
    by_cases he : e ∈ p
    · exact (heffect.ends e he).1 c hc
    · rwa [(heffect.outside e he).2]
  have hrelation : RelationTracked (s'.relationRow p) (s'.getEdge p)
      (rowIds (s.relationRow p) ∪ chunksOf data) := by
    rw [heffect.row,heffect.edge]
    apply (h.relation p).extend hplace rfl
    intro hnone
    rw [eq_nil_iff_forall_not_mem]
    intro c hc
    exact rowAfterMerge_ne_none (mem_of_mem_limit (mem_truthy.mp hc).1) hnone
  refine ⟨⟨?_,?_,?_,?_⟩,hentity,?_,?_,?_⟩
  · intro e
    by_cases he : e ∈ p
    · exact (heffect.ends e he).2.2.2
    · rw [(heffect.outside e he).1,(heffect.outside e he).2]
      exact h.entity e
  · intro q
    by_cases hq : q = p
    · rw [hq]
      exact hrelation.self
    · rw [(heffect.others q hq).1,(heffect.others q hq).2]
      exact h.relation q
  · intro q d hd
    by_cases hq : q = p
    · rw [hq,heffect.edge] at hd
      rw [hq,hgetD,← some.inj hd]
      rfl
    · rw [(heffect.others q hq).1] at hd
      rw [(heffect.others q hq).2]
      exact h.kept q d hd
  · intro q hedge e he c hc
    by_cases hq : q = p
    · rw [hq,hgetD] at hc
      rw [hq] at he
      exact (heffect.ends e he).2.1 c hc
    · rw [(heffect.others q hq).1] at hedge
      rw [(heffect.others q hq).2] at hc
      exact hentity e c (h.ends q hedge e he c hc)
  · intro q c hc
    by_cases hq : q = p
    · rw [hq] at hc ⊢
      exact (hrelation.mem c).mpr (.inl hc)
    · rwa [(heffect.others q hq).2]
  · intro q hedge
    by_cases hq : q = p
    · rw [hq,heffect.edge]
      exact some_ne_none _
    · rwa [(heffect.others q hq).1]
  · intro e hthere
    by_cases he : e ∈ p
    · exact heffect.there e he
    · rwa [(heffect.outside e he).1]

theorem Settled.mergeEdges (h : Settled cfg s)
    (hplace : ∀ c ∈ chunksOf data, c ∉ relationNoEvidenceSourceIds)
    (hmerge : mergeEdgesThenUpsert cfg p data s = some s') : Settled cfg s' ∧ Grows s s' := by
  rcases h.mergeEdges_effect hmerge with ⟨-,rfl⟩ | ⟨-,heffect⟩
  · exact ⟨h,Grows.refl s'⟩
  · exact h.effect heffect hplace

theorem foldl_appendNew_of_mem {merged : List ChunkId} (h : ∀ c ∈ new, c ∈ merged) :
    new.foldl appendNew merged = merged := by
  induction new with
  | nil => rfl
  | cons c new ih =>
    rw [foldl_cons,appendNew,if_pos (.inr (h c mem_cons_self))]
    exact ih fun d hd => h d (mem_cons_of_mem _ hd)

theorem mergeSourceIds_of_mem (hnodup : ids.Nodup) (hne : ∀ c ∈ ids, c ≠ "")
    (h : ∀ c ∈ new, c ∈ ids) : mergeSourceIds ids new = ids := by
  rw [mergeSourceIds,foldl_append,foldl_appendNew_of_nodup (by simpa using hnodup) hne]
  exact foldl_appendNew_of_mem h

structure SameRows (s s' : Store) : Prop where
  entity : ∀ e c, c ∈ (s'.entityRow e).getD [] ↔ c ∈ (s.entityRow e).getD []
  relation : ∀ p c, c ∈ (s'.relationRow p).getD [] ↔ c ∈ (s.relationRow p).getD []
  edge : ∀ p, s'.getEdge p = s.getEdge p

theorem SameRows.refl (s : Store) : SameRows s s :=
  ⟨fun _ _ => Iff.rfl,fun _ _ => Iff.rfl,fun _ => rfl⟩

theorem SameRows.trans (h : SameRows s s') (h' : SameRows s' s'') : SameRows s s'' :=
  ⟨fun e c => (h'.entity e c).trans (h.entity e c),
    fun p c => (h'.relation p c).trans (h.relation p c),
    fun p => (h'.edge p).trans (h.edge p)⟩

theorem Settled.mergeNodes_known (h : Settled cfg s)
    (hknown : ∀ c ∈ chunksOf data, c ∈ (s.entityRow e).getD [])
    (hmerge : mergeNodesThenUpsert cfg e data s = some s') : SameRows s s' := by
  have hentity := (h.entity e).mergeNodes hmerge
  obtain ⟨-,-,hother,hrelations⟩ := (h.entity e).mergeNodes_effect hmerge
  refine ⟨?_,?_,fun p => (hrelations p).2⟩
  · intro e' c
    by_cases hne : e' = e
    · rw [hne,hentity.mem]
      exact ⟨fun hc => hc.elim id (hknown c),.inl⟩
    · rw [(hother e' hne).1]
  · intro p c
    rw [(hrelations p).1]

theorem Settled.full_known (h : Settled cfg s)
    (hknown : ∀ c ∈ chunksOf data, c ∈ (s.relationRow p).getD []) :
    fullRelationIds s p data = (s.relationRow p).getD [] := by
  rw [h.full_eq]
  exact mergeSourceIds_of_mem (h.relation p).nodup
    (fun c hc => ((h.relation p).row_ids c hc).1) fun c hc => hknown c (mem_truthy.mp hc)

theorem RelationEffect.known (heffect : RelationEffect cfg p data s s') (h : Settled cfg s)
    (hedge : s.getEdge p ≠ none)
    (hknown : ∀ c ∈ chunksOf data, c ∈ (s.relationRow p).getD []) : SameRows s s' := by
  have hfull := h.full_known hknown
  have hkept : keptRelationIds cfg s p data = limitRelation cfg ((s.relationRow p).getD []) := by
    rw [keptRelationIds,hfull]
    rfl
  constructor
  · intro e c
    by_cases he : e ∈ p
    · obtain ⟨hgrows,-,hnew,-⟩ := heffect.ends e he
      refine ⟨fun hc => ?_,hgrows c⟩
      cases hnew (Store.getNode_of_edge hedge he) c hc with
      | inl hold => exact hold
      | inr hin =>
        rw [hkept] at hin
        exact h.ends p hedge e he c hin
    · rw [(heffect.outside e he).2]
  · intro q c
    by_cases hq : q = p
    · rw [hq,heffect.row,h.getD_row,hfull]
    · rw [(heffect.others q hq).2]
  · intro q
    by_cases hq : q = p
    · obtain ⟨d,hd⟩ := ne_none_iff_exists'.mp hedge
      rw [hq,heffect.edge,hd,hkept]
      exact congrArg some (edge_eq (h.kept p d hd)).symm
    · exact (heffect.others q hq).1

end

end LightRAG.Knowledge

/-!
## Merging descriptions and weights

`_merge_nodes_then_upsert` and `_merge_edges_then_upsert` with the descriptions of both kinds of
objects and the weights of relations, over the merge of their source ids.
-/

namespace LightRAG.Knowledge
open Option Function

structure ExtractedRelation extends Extracted where
  weight : ℚ
deriving DecidableEq

structure MergeConfig where
  kg : KgConfig
  descriptions : DescriptionConfig

structure DescribedStore where
  store : Store
  nodeDescription : Name → String
  edgeDescription : Pair → String
  edgeWeight : Pair → ℚ

def nodeFragments (description : String) : List String :=
  if Text.strip description = "" then [] else splitFragments (Text.strip description)

/-- The records that are taken into account; `keptRecords` is about their ids. -/
def keptData {α : Type} (cfg : KgConfig) (sourceId : α → ChunkId)
    (existingFull sourceIds : List ChunkId) (data : List α) : List α :=
  match cfg.sourceIdsLimitMethod with
  | .keep => data.filter fun dp =>
    ¬ (sourceId dp ≠ "" ∧ sourceId dp ∉ sourceIds ∧ sourceId dp ∉ existingFull)
  | .fifo => data

def evidenceCount (sourceIds : List ChunkId) : ℕ := (evidenceOnly sourceIds).dedup.length

namespace DescribedStore

variable (cfg : MergeConfig)
variable (s : DescribedStore)

def knownFragments (name : Name) : List String :=
  match s.store.getNode name with
  | some _ => nodeFragments (s.nodeDescription name)
  | none => []

def keptEntityIds (name : Name) (ids : List ChunkId) : List ChunkId :=
  applySourceIdsLimit (mergeSourceIds (existingEntityIds s.store name) (truthy ids))
    cfg.kg.maxSourceIdsPerEntity cfg.kg.sourceIdsLimitMethod

def nodeDescriptions (name : Name) (data : List Extracted) : List String :=
  let kept := keptData cfg.kg Extracted.sourceId (existingEntityIds s.store name)
    (s.keptEntityIds cfg name (data.map Extracted.sourceId)) data
  let combined := combineDescriptionsDedup cfg.descriptions (s.knownFragments name)
    (sortedDescriptions kept)
  if combined = [] then ["Entity " ++ name] else combined

/-- `_merge_nodes_then_upsert`; nothing when it raises or asks for a summary. -/
def mergeNode (name : Name) (data : List Extracted) (s : DescribedStore) : Option DescribedStore :=
  let ids := data.map Extracted.sourceId
  (mergeNodesThenUpsert cfg.kg name ids s.store).bind fun store =>
    if skipsMerge cfg.kg cfg.kg.maxSourceIdsPerEntity (existingEntityIds s.store name)
        (s.keptEntityIds cfg name ids) ids then
      some { s with store := store }
    else
      (handleEntityRelationSummary cfg.descriptions (s.nodeDescriptions cfg name data)).map
        fun description =>
          { s with
            store := store
            nodeDescription := Function.update s.nodeDescription name description }

def alreadySourceIds (p : Pair) : List ChunkId :=
  ((s.store.getEdge p).bind Edge.sourceId).getD []

def alreadyWeights (p : Pair) : List ℚ :=
  match s.store.getEdge p with
  | some _ => [s.edgeWeight p]
  | none => []

def alreadyDescription (p : Pair) : List String :=
  match s.store.getEdge p with
  | some _ => splitFragments (s.edgeDescription p)
  | none => []

def keptEdges (p : Pair) (data : List ExtractedRelation) :
    List ExtractedRelation :=
  keptData cfg.kg (fun dp => dp.sourceId) (existingRelationIds s.store p)
    (keptRelationIds cfg.kg s.store p (data.map fun dp => dp.sourceId)) data

/-- Only the records of chunks that the edge does not name count. -/
def mergedWeight (p : Pair) (data : List ExtractedRelation) : ℚ :=
  let new := (s.keptEdges cfg p data).filter fun dp =>
    dp.sourceId ≠ "" ∧ dp.sourceId ∉ s.alreadySourceIds p
  let sourceIds := keptRelationIds cfg.kg s.store p (data.map fun dp => dp.sourceId)
  max ((new.map ExtractedRelation.weight) ++ s.alreadyWeights p).sum (evidenceCount sourceIds)

def edgeDescriptions (p : Pair) (data : List ExtractedRelation) :
    List String :=
  combineDescriptionsDedup cfg.descriptions (s.alreadyDescription p)
    (sortedDescriptions ((s.keptEdges cfg p data).map ExtractedRelation.toExtracted))

/-- `_merge_edges_then_upsert`; nothing when it raises or asks for a summary. An end that is not
there takes over the description. -/
def mergeEdge (p : Pair) (data : List ExtractedRelation) (s : DescribedStore) :
    Option DescribedStore :=
  if p.inf = p.sup then some s
  else
    let ids := data.map fun dp => dp.sourceId
    (mergeEdgesThenUpsert cfg.kg p ids s.store).bind fun store =>
      if skipsMerge cfg.kg cfg.kg.maxSourceIdsPerRelation (existingRelationIds s.store p)
          (keptRelationIds cfg.kg s.store p ids) ids then
        some { s with store := store }
      else if s.edgeDescriptions cfg p data = [] then none
      else
        (handleEntityRelationSummary cfg.descriptions (s.edgeDescriptions cfg p data)).map
          fun description =>
            { store := store
              nodeDescription := fun e =>
                if e ∈ p ∧ s.store.getNode e = none then description else s.nodeDescription e
              edgeDescription := Function.update s.edgeDescription p description
              edgeWeight := Function.update s.edgeWeight p (s.mergedWeight cfg p data) }

def empty (store : Store) : DescribedStore := ⟨store, fun _ => "", fun _ => "", fun _ => 0⟩

end DescribedStore

/-- What `extract_entities` found in one chunk. -/
structure Findings where
  maybeNodes : List (Name × List Extracted)
  maybeEdges : List ((Name × Name) × List ExtractedRelation)

/-- The chunk results of a document; its objects are merged in any order. -/
structure Batch where
  chunkResults : List Findings
  nodes : List (Name × List Extracted)
  nodes_perm : nodes.Perm (Dict.collect (chunkResults.flatMap Findings.maybeNodes)).entries
  edges : List (Pair × List ExtractedRelation)
  edges_perm : edges.Perm (Dict.collect ((chunkResults.flatMap Findings.maybeEdges).map
    fun e => (s(e.1.1, e.1.2), e.2))).entries

section

variable (cfg : MergeConfig)

def mergeAllNodes (nodes : List (Name × List Extracted)) (s : DescribedStore) :
    Option DescribedStore :=
  nodes.foldlM (fun s e => s.mergeNode cfg e.1 e.2) s

def mergeAllEdges (edges : List (Pair × List ExtractedRelation)) (s : DescribedStore) :
    Option DescribedStore :=
  edges.foldlM (fun s e => s.mergeEdge cfg e.1 e.2) s

/-- The two phases of `merge_nodes_and_edges`. -/
def mergeBatch (b : Batch) (s : DescribedStore) : Option DescribedStore :=
  (mergeAllNodes cfg b.nodes s).bind (mergeAllEdges cfg b.edges)

def mergeBatches (bs : List Batch) (s : DescribedStore) : Option DescribedStore :=
  bs.foldlM (fun s b => mergeBatch cfg b s) s

end

namespace DescribedStore

variable {cfg : MergeConfig} {name : Name} {p : Pair} {s s' : DescribedStore}
  {data : List Extracted} {relations : List ExtractedRelation}

theorem mergeNode_cases (h : s.mergeNode cfg name data = some s') :
    mergeNodesThenUpsert cfg.kg name (data.map Extracted.sourceId) s.store = some s'.store ∧
      s'.edgeDescription = s.edgeDescription ∧ s'.edgeWeight = s.edgeWeight ∧
      (s'.nodeDescription = s.nodeDescription ∨
        ∃ description,
          handleEntityRelationSummary cfg.descriptions (s.nodeDescriptions cfg name data) =
            some description ∧
          s'.nodeDescription = Function.update s.nodeDescription name description) := by
  obtain ⟨store,hstore,h⟩ := bind_eq_some_iff.mp h
  split at h
  · obtain rfl := some.inj h
    exact ⟨hstore,rfl,rfl,.inl rfl⟩
  · obtain ⟨description,hdescription,rfl⟩ := map_eq_some_iff.mp h
    exact ⟨hstore,rfl,rfl,.inr ⟨description,hdescription,rfl⟩⟩

structure EdgeMerged (cfg : MergeConfig) (p : Pair) (relations : List ExtractedRelation)
    (s s' : DescribedStore) : Prop where
  fragments : s.edgeDescriptions cfg p relations ≠ []
  summary : handleEntityRelationSummary cfg.descriptions (s.edgeDescriptions cfg p relations) =
    some (s'.edgeDescription p)
  node : ∀ e, (e ∉ p ∨ s.store.getNode e ≠ none) → s'.nodeDescription e = s.nodeDescription e
  edge : ∀ q, q ≠ p → s'.edgeDescription q = s.edgeDescription q
  weight : s'.edgeWeight p = s.mergedWeight cfg p relations
  weights : ∀ q, q ≠ p → s'.edgeWeight q = s.edgeWeight q

structure SameTexts (s s' : DescribedStore) : Prop where
  node : s'.nodeDescription = s.nodeDescription
  edge : s'.edgeDescription = s.edgeDescription
  weight : s'.edgeWeight = s.edgeWeight
  edges : ∀ q, s'.store.getEdge q = s.store.getEdge q

theorem getEdge_of_skip {store : Store} {ids : List ChunkId} {t : Store} (hp : p.inf ≠ p.sup)
    (hskip : skipsMerge cfg.kg cfg.kg.maxSourceIdsPerRelation (existingRelationIds t p)
      (keptRelationIds cfg.kg t p ids) ids = true)
    (h : mergeEdgesThenUpsert cfg.kg p ids t = some store) (q : Pair) :
    store.getEdge q = t.getEdge q := by
  unfold mergeEdgesThenUpsert at h
  rw [if_neg hp] at h
  rw [if_pos hskip] at h
  split at h
  · obtain rfl := some.inj h
    exact getEdge_trackRelationIds
  · cases h

theorem mergeEdge_cases (h : s.mergeEdge cfg p relations = some s') :
    (p.inf = p.sup ∧ s' = s) ∨
      (p.inf ≠ p.sup ∧
        mergeEdgesThenUpsert cfg.kg p (relations.map fun dp => dp.sourceId) s.store =
          some s'.store ∧
        (SameTexts s s' ∨ EdgeMerged cfg p relations s s')) := by
  unfold mergeEdge at h
  split at h
  · rename_i hloop
    exact .inl ⟨hloop,(some.inj h).symm⟩
  rename_i hp
  obtain ⟨store,hstore,h⟩ := bind_eq_some_iff.mp h
  right
  split at h
  · rename_i hskip
    obtain rfl := some.inj h
    exact ⟨hp,hstore,.inl ⟨rfl,rfl,rfl,getEdge_of_skip hp hskip hstore⟩⟩
  split at h
  · cases h
  rename_i hfragments
  obtain ⟨description,hdescription,rfl⟩ := map_eq_some_iff.mp h
  refine ⟨hp,hstore,.inr ⟨hfragments,?_,?_,?_,?_,?_⟩⟩
  · dsimp only
    rw [hdescription,update_self]
  · intro e he
    apply if_neg
    rintro ⟨hin,hnone⟩
    exact he.elim (fun hout => hout hin) fun hthere => hthere hnone
  · exact fun q hq => update_of_ne hq _ _
  · exact update_self p _ _
  · exact fun q hq => update_of_ne hq _ _

end DescribedStore
end LightRAG.Knowledge
