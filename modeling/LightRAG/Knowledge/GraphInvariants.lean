import LightRAG.Knowledge.GraphWriters

/-!
# What every writer keeps

No relation is a loop, the ends of a relation are in the graph, and no relation weighs less than
its evidence: each writer either leaves a relation as it is or writes one that is like that.
-/

namespace LightRAG.Knowledge
open List Option Function

/-- A relation has both attributes, and its weight is not below its evidence. -/
def EdgeData.Floored (d : EdgeData) : Prop :=
  ∃ ids w, d = ⟨some ids, some w⟩ ∧ (evidenceCount ids : ℚ) ≤ w

def WellFormed (p : Pair) (d : EdgeData) : Prop := p.inf ≠ p.sup ∧ d.Floored

namespace EdgeData

variable {d d' : EdgeData} {ids : List ChunkId}

theorem floored_floored (h : d.sourceId = some ids) : d.floored.Floored := by
  refine ⟨ids,max (d.weight.getD 1) (evidenceCount ids),?_,le_max_right _ _⟩
  unfold floored
  rw [h]
  rfl

theorem Floored.onTop (h : d.Floored) : WeightedStores.onTop d d' = d := by
  obtain ⟨ids,w,rfl,-⟩ := h
  rfl

end EdgeData

namespace WeightedStores

variable {s : WeightedStores} {p : Pair} {d : EdgeData} {edges : List (Pair × EdgeData)}

theorem getEdge_of_upsertEdges (hfloored : ∀ x ∈ edges, x.2.Floored)
    (h : (s.upsertEdges edges).getEdge p = some d) : s.getEdge p = some d ∨ (p, d) ∈ edges := by
  induction edges generalizing s with
  | nil => exact .inl h
  | cons x edges ih =>
    rw [forall_mem_cons] at hfloored
    rcases ih hfloored.2 h with hstep | hlater
    · rw [getEdge_upsertEdge] at hstep
      split at hstep
      · rename_i hp
        rw [hfloored.1.onTop] at hstep
        obtain rfl := some.inj hstep
        rw [hp]
        exact .inr mem_cons_self
      · exact .inl hstep
    · exact .inr (mem_cons_of_mem _ hlater)

end WeightedStores

namespace WeightedGraph

structure Sound (g : WeightedGraph) : Prop where
  noLoop : ∀ p d, g.getEdge p = some d → p.inf ≠ p.sup
  endpoints : ∀ p d, g.getEdge p = some d → ∀ e ∈ p, g.graph.hasNode e = true
  floor : ∀ p d, g.getEdge p = some d →
    ∃ ids w, d = ⟨some ids, some w⟩ ∧ (evidenceCount ids : ℚ) ≤ w

section

variable {g g' : WeightedGraph} {p q : Pair} {d : EdgeData} {e : Name} {s : WeightedStores}
  {rows : Dict String (List ChunkId)}

theorem getEdge_ne_none (h : g.getEdge p = some d) : g.graph.getEdge p ≠ none := by
  intro hnone
  rw [getEdge,hnone] at h
  cases h

theorem sound_iff : g.Sound ↔ ∀ p d, g.getEdge p = some d → WellFormed p d := by
  constructor
  · exact fun h p d hd => ⟨h.noLoop p d hd,h.floor p d hd⟩
  · intro h
    exact ⟨fun p d hd => (h p d hd).1,
      fun p d hd e he => Graph.hasNode_of_edge (getEdge_ne_none hd) he,
      fun p d hd => (h p d hd).2⟩

theorem Sound.of_edges (h : g.Sound)
    (hedges : ∀ p d, g'.getEdge p = some d → g.getEdge p = some d ∨ WellFormed p d) : g'.Sound := by
  rw [sound_iff] at h ⊢
  intro p d hd
  rcases hedges p d hd with hold | hnew
  · exact h p d hold
  · exact hnew

theorem Sound.of_graph {graph : Graph} (h : g.Sound)
    (hedges : ∀ p edge, graph.getEdge p = some edge → g.graph.getEdge p = some edge) :
    Sound { g with graph := graph } := by
  apply h.of_edges
  intro p d hd
  obtain ⟨edge,hedge,rfl⟩ := map_eq_some_iff.mp hd
  exact .inl (by rw [getEdge,hedges p edge hedge,map_some])

variable {ids : List ChunkId}

theorem Sound.of_written {graph : Graph} {w : ℚ} (h : g.Sound)
    (hp : p.inf ≠ p.sup) (hw : (evidenceCount ids : ℚ) ≤ w)
    (hedges : ∀ q, graph.getEdge q = if q = p then some ⟨some ids⟩ else g.graph.getEdge q) :
    Sound ⟨graph, Function.update g.weight p (some w)⟩ := by
  apply h.of_edges
  intro q d hd
  rw [getEdge] at hd
  dsimp only at hd
  rw [hedges] at hd
  by_cases hq : q = p
  · subst hq
    rw [if_pos rfl,update_self] at hd
    exact .inr ⟨hp,ids,w,(some.inj hd).symm,hw⟩
  · rw [if_neg hq,update_of_ne hq] at hd
    exact .inl hd

theorem sound_empty : empty.Sound := by
  rw [sound_iff]
  intro p d hd
  cases hd

theorem evidenceCount_le_mergedWeight {cfg : MergeConfig} {s : DescribedStore}
    {data : List ExtractedRelation} :
    (evidenceCount (keptRelationIds cfg.kg s.store p (data.map fun dp => dp.sourceId)) : ℚ) ≤
      s.mergedWeight cfg p data := le_max_right _ _

variable {cfg : KgConfig}

theorem Sound.mergeNode (h : g.Sound) (m : NodeMerge) :
    (g.mergeNode cfg m).Sound := by
  unfold WeightedGraph.mergeNode
  split
  · rename_i s hs
    apply h.of_graph
    intro p edge hedge
    have hsame : s.getEdge p = (g.among m.others).getEdge p := by
      unfold mergeNodesThenUpsert at hs
      dsimp only at hs
      split at hs
      · split at hs
        · obtain rfl := some.inj hs
          exact getEdge_trackEntityIds
        · cases hs
      · obtain rfl := some.inj hs
        exact getEdge_trackEntityIds
    exact hsame.symm.trans hedge
  · exact h

theorem getEdge_mergeEdges {store s : Store}
    (hp : ¬ p.inf = p.sup) (hskip : ¬ skipsMerge cfg cfg.maxSourceIdsPerRelation
      (existingRelationIds s p) (keptRelationIds cfg s p ids) ids = true)
    (h : mergeEdgesThenUpsert cfg p ids s = some store) (q : Pair) :
    store.getEdge q = if q = p then some ⟨some (keptRelationIds cfg s p ids)⟩ else s.getEdge q := by
  unfold mergeEdgesThenUpsert at h
  rw [if_neg hp] at h
  rw [if_neg hskip] at h
  obtain rfl := some.inj h
  rw [Store.getEdge_upsertEdge]
  split
  · rfl
  · have hends : ∀ (t : Store) (es : List Name),
        (es.foldl (mergeEndpoint cfg (fullRelationIds s p ids) (keptRelationIds cfg s p ids))
          t).getEdge q = t.getEdge q := by
      intro t es
      induction es generalizing t with
      | nil => rfl
      | cons e es ih => rw [foldl_cons,ih,((mergeEndpoint_frame cfg _ _ t e).2.2 q).1]
    rw [hends,getEdge_trackRelationIds]

theorem Sound.mergeEdge {cfg : MergeConfig} (h : g.Sound) (m : EdgeMerge) :
    (g.mergeEdge cfg m).Sound := by
  unfold WeightedGraph.mergeEdge
  dsimp only
  split
  · exact h
  rename_i hp
  split
  · exact h
  rename_i store hstore
  split
  · exact h
  rename_i hskip
  split
  · exact h
  apply h.of_written hp evidenceCount_le_mergedWeight
  intro q
  exact getEdge_mergeEdges hp hskip hstore q

theorem Sound.foldl {α : Type} {step : WeightedGraph → α → WeightedGraph} {xs : List α}
    (hstep : ∀ g x, Sound g → Sound (step g x)) (h : g.Sound) : (xs.foldl step g).Sound := by
  induction xs generalizing g with
  | nil => exact h
  | cons x xs ih => exact ih (hstep g x h)

theorem Sound.mergeNodesAndEdges {cfg : MergeConfig} {nodes : List NodeMerge}
    {edges : List EdgeMerge} (h : g.Sound) : (g.mergeNodesAndEdges cfg nodes edges).Sound := by
  apply Sound.foldl fun g m hg => hg.mergeEdge m
  exact Sound.foldl (fun g m hg => hg.mergeNode m) h

theorem evidenceCount_le_dedup (ids : List ChunkId) : evidenceCount ids ≤ ids.dedup.length := by
  have hsub : (evidenceOnly ids).dedup ⊆ ids.dedup := by
    intro c hc
    rw [List.mem_dedup] at hc ⊢
    exact (mem_evidenceOnly.mp hc).1
  exact (subperm_of_subset (List.nodup_dedup _) hsub).length_le

variable {r : Rebuilding}

theorem Rebuilding.evidenceCount_le_weight :
    (evidenceCount (limitedRelationIds r.cfg ids) : ℚ) ≤ r.weight g p ids := by
  have hcount := evidenceCount_le_dedup (limitedRelationIds r.cfg ids)
  exact le_trans (by exact_mod_cast hcount) (le_max_right _ _)

theorem getEdge_rebuildSingleEntity {env : RebuildEnv} {fallback : Bool}
    {s : Store} :
    (rebuildSingleEntity cfg env fallback e ids s).1.getEdge p = s.getEdge p := by
  cases hnode : s.getNode e with
  | none => rw [rebuildSingleEntity_absent hnode]
  | some current =>
    rw [rebuildSingleEntity_present hnode]
    split
    · rw [Store.getEdge_upsertNode,getEdge_trackEntity]
    · rw [getEdge_trackEntity]

theorem getEdge_rebuildSingleRelationship {env : RebuildEnv} {fallback : Bool}
    {s : Store} :
    (rebuildSingleRelationship cfg env fallback p ids s).1.getEdge q =
      if q = p ∧ s.getEdge p ≠ none ∧ relationWritten cfg env fallback p ids then
        some ⟨some (limitedRelationIds cfg ids)⟩
      else s.getEdge q := by
  by_cases hedge : s.getEdge p = none
  · rw [rebuildSingleRelationship_absent hedge,if_neg (by simp [hedge])]
  · rw [rebuildSingleRelationship_present hedge]
    by_cases hwritten : relationWritten cfg env fallback p ids
    · simp [hedge,hwritten]
    · rw [if_neg hwritten,getEdge_trackRelation,if_neg (by simp [hwritten])]

section

variable (h : g.Sound)

include h

theorem Sound.task (t : Task) : (r.task g t).1.Sound := by
  cases t with
  | entity e ids =>
    apply h.of_graph
    intro p edge hedge
    exact getEdge_rebuildSingleEntity.symm.trans hedge
  | relation p ids =>
    have hsound : ∀ graph : Graph, (∀ q, graph.getEdge q =
        if q = p ∧ (g.among r.others).getEdge p ≠ none ∧
            relationWritten r.cfg r.env r.structuralFallback p ids then
          some ⟨some (limitedRelationIds r.cfg ids)⟩
        else g.graph.getEdge q) →
        Sound ⟨graph,if (g.getEdge p).isSome ∧
            relationWritten r.cfg r.env r.structuralFallback p ids then
          Function.update g.weight p (some (r.weight g p ids)) else g.weight⟩ := by
      intro graph hgraph
      by_cases hwritten : (g.getEdge p).isSome ∧
          relationWritten r.cfg r.env r.structuralFallback p ids
      · obtain ⟨d,hd⟩ := isSome_iff_exists.mp hwritten.1
        have hedge : (g.among r.others).getEdge p ≠ none := getEdge_ne_none hd
        rw [if_pos hwritten]
        apply h.of_written (h.noLoop p d hd) Rebuilding.evidenceCount_le_weight
        intro q
        rw [hgraph]
        simp only [hedge,ne_eq,not_false_eq_true,hwritten.2,and_true]
      · rw [if_neg hwritten]
        apply h.of_graph
        intro q edge hq
        rw [hgraph] at hq
        split at hq
        · rename_i hnew
          refine absurd ⟨?_,hnew.2.2⟩ hwritten
          obtain ⟨edge,hedge⟩ := ne_none_iff_exists'.mp hnew.2.1
          have hthere : g.graph.getEdge p = some edge := hedge
          rw [getEdge,hthere]
          rfl
        · exact hq
    exact hsound _ fun q => getEdge_rebuildSingleRelationship

theorem Sound.run {tasks : List Task} : (r.run tasks g).Sound := by
  induction tasks generalizing g with
  | nil => exact h
  | cons t ts ih =>
    rw [Rebuilding.run]
    split
    · exact h.task t
    · exact ih (h.task t)

theorem Sound.rebuildKnowledge {tasks : List Task} :
    (g.rebuildKnowledge tasks r).Sound := by
  unfold WeightedGraph.rebuildKnowledge
  split
  · exact h
  · exact h.run

theorem Sound.purge {plan : PurgePlan} : (g.purge plan r).Sound := by
  apply Sound.rebuildKnowledge
  apply h.of_graph
  intro p edge hedge
  have hremoved : (applyPlan plan (g.among r.others)).graph =
      (g.graph.removeEdges plan.relationshipsToDelete).removeNodes plan.entitiesToDelete := rfl
  rw [hremoved,Graph.getEdge_removeNodes] at hedge
  split at hedge
  · cases hedge
  · rw [Graph.getEdge_removeEdges] at hedge
    split at hedge
    · cases hedge
    · exact hedge

theorem Sound.acreateEntity : (g.acreateEntity e ids).Sound := by
  unfold WeightedGraph.acreateEntity
  split
  · exact h
  · exact h.of_graph fun p edge hedge => hedge

theorem Sound.upsertEdge (hd : WellFormed p d) : (g.upsertEdge p d).Sound := by
  apply h.of_edges
  intro q d' hd'
  have hedge : ((g.withRows Dict.empty).upsertEdges [(p, d)]).getEdge q = some d' := hd'
  rcases WeightedStores.getEdge_of_upsertEdges (by simpa using hd.2) hedge with hold | hnew
  · exact .inl hold
  · rw [mem_singleton] at hnew
    obtain ⟨rfl,rfl⟩ := Prod.mk.inj hnew
    exact .inr hd

theorem Sound.acreateRelation {source target : Name} {w : ℚ} :
    (g.acreateRelation source target ids w).Sound := by
  unfold WeightedGraph.acreateRelation
  split
  · exact h
  · rename_i hnot
    simp only [not_or,not_lt] at hnot
    apply h.upsertEdge
    refine ⟨?_,ids,w,rfl,hnot.2.2.2⟩
    rw [Sym2.inf_mk,Sym2.sup_mk,ne_eq,inf_eq_sup]
    exact hnot.1

theorem Sound.editEntity {ids : Option (List ChunkId)} :
    (g.editEntity e ids).Sound := by
  unfold WeightedGraph.editEntity
  split
  · exact h
  · exact h.of_graph fun p edge hedge => hedge

theorem Sound.aeditRelation {ids : Option (List ChunkId)} {w : Option ℚ} :
    (g.aeditRelation p ids w).Sound := by
  unfold WeightedGraph.aeditRelation
  split
  · exact h
  · rename_i d hd
    have hp := h.noLoop p d hd
    dsimp only
    split
    · split
      · exact h
      · rename_i hnot
        exact h.upsertEdge ⟨hp,_,_,rfl,not_lt.mp hnot⟩
    · exact h.upsertEdge ⟨hp,EdgeData.floored_floored rfl⟩

theorem Sound.adeleteByEntity : (g.adeleteByEntity e).Sound := by
  apply h.of_graph
  intro p edge hedge
  rw [Graph.getEdge_removeNodes] at hedge
  split at hedge
  · cases hedge
  · exact hedge

theorem Sound.adeleteByRelation : (g.adeleteByRelation p).Sound := by
  apply h.of_graph
  intro q edge hedge
  rw [Graph.getEdge_removeEdges] at hedge
  split at hedge
  · cases hedge
  · exact hedge

theorem Sound.redirect {edges : List (Pair × EdgeData)}
    (hedges : ∀ x ∈ edges, WellFormed x.1 x.2)
    (hs : ∀ q d, s.getEdge q = some d → g.getEdge q = some d) {es : List Name} :
    Sound ⟨(s.upsertEdges edges).graph.removeNodes es, (s.upsertEdges edges).weight⟩ := by
  apply h.of_edges
  intro q d hd
  rw [getEdge] at hd
  rw [Graph.getEdge_removeNodes] at hd
  split at hd
  · cases hd
  · rcases WeightedStores.getEdge_of_upsertEdges (fun x hx => (hedges x hx).2) hd with hold | hnew
    · exact .inl (hs q d hold)
    · exact .inr (hedges _ hnew)

end

theorem redirect_nonloop {newName : Name} (hp : p.inf ≠ p.sup) (hnew : newName ∉ p) :
    (p.map (redirect [e] newName)).inf ≠ (p.map (redirect [e] newName)).sup := by
  induction p using Sym2.ind with
  | _ a b =>
    rw [Sym2.inf_mk,Sym2.sup_mk,ne_eq,inf_eq_sup] at hp
    rw [Sym2.map_mk,Sym2.inf_mk,Sym2.sup_mk,ne_eq,inf_eq_sup]
    rw [Sym2.mem_iff,not_or] at hnew
    simp only [Knowledge.redirect,mem_singleton]
    by_cases ha : a = e
    · have hb : b ≠ e := fun hb => hp (ha.trans hb.symm)
      rw [if_pos ha,if_neg hb]
      exact hnew.2
    · rw [if_neg ha]
      split
      · exact Ne.symm hnew.1
      · exact hp

theorem Sound.renameEntity {newName : Name} {ids : Option (List ChunkId)} (h : g.Sound)
    (hnew : g.graph.hasNode newName = false) : (g.renameEntity e newName ids).Sound := by
  unfold WeightedGraph.renameEntity
  split
  · exact h
  · apply h.redirect
    · intro x hx
      obtain ⟨p,hp,rfl⟩ := mem_map.mp hx
      have hedge := (Graph.mem_nodeEdges.mp hp).1
      obtain ⟨edge,hpresent⟩ := ne_none_iff_exists'.mp hedge
      have hd : g.getEdge p = some ⟨edge.sourceId,g.weight p⟩ := by
        rw [getEdge,hpresent,map_some]
      refine ⟨redirect_nonloop (h.noLoop p _ hd) fun hmem => ?_,EdgeData.floored_floored rfl⟩
      rw [h.endpoints p _ hd newName hmem] at hnew
      cases hnew
    · intro q d hd
      exact hd

theorem Sound.weightedUpdates {m : EntityMerge} {u : Pair × EdgeData} (h : g.Sound)
    (hu : u ∈ (m.weightedUpdates (g.withRows rows)).entries.map Prod.snd) : WellFormed u.1 u.2 := by
  obtain ⟨entry,hentry,rfl⟩ := mem_map.mp hu
  obtain ⟨p,rest,hgroup,hvalue⟩ := get_groupBy_eq_some (Dict.get_eq_some.mpr hentry)
  have hp : p ∈ m.visited (g.withRows rows) := by
    have hmem : p ∈ p :: rest := mem_cons_self
    rw [← hgroup] at hmem
    exact (mem_filter.mp hmem).1
  have hkept := mem_filter.mp hp
  have hloop : (m.redirected p).inf ≠ (m.redirected p).sup := of_decide_eq_true hkept.2
  have hedge := (EntityMerge.mem_allRelations (s := g.withRows rows).mp hkept.1).1
  obtain ⟨d,hd⟩ := ne_none_iff_exists'.mp hedge
  have hstart : WellFormed (m.startUpdate (g.withRows rows) p).1
      (m.startUpdate (g.withRows rows) p).2 := by
    obtain ⟨ids,w,rfl,-⟩ := h.floor p d hd
    have hsource : ((g.withRows rows).edgeData p).sourceId = some ids := by
      rw [WeightedStores.edgeData,hd]
      rfl
    exact ⟨hloop,EdgeData.floored_floored hsource⟩
  have hkeeps : ∀ v q, WellFormed v.1 v.2 →
      WellFormed (EntityMerge.mergeUpdate (g.withRows rows) v q).1
        (EntityMerge.mergeUpdate (g.withRows rows) v q).2 := by
    rintro ⟨pair,data⟩ q ⟨hpair,ids,w,rfl,-⟩
    have hsource : ∃ merged, (EdgeData.merge ⟨some ids,some w⟩
        ((g.withRows rows).edgeData q)).sourceId = some merged := by
      simp only [EdgeData.merge]
      cases ((g.withRows rows).edgeData q).sourceId with
      | none => exact ⟨ids,rfl⟩
      | some more => exact ⟨joinUnique [ids, more],rfl⟩
    obtain ⟨merged,hmerged⟩ := hsource
    exact ⟨hpair,EdgeData.floored_floored hmerged⟩
  rw [hvalue]
  exact foldl_keeps (fun v : Pair × EdgeData => WellFormed v.1 v.2) hkeeps hstart

theorem Sound.amergeEntities {m : EntityMerge} (h : g.Sound) : (g.amergeEntities m rows).Sound := by
  unfold WeightedGraph.amergeEntities
  split
  · rename_i s hs
    unfold EntityMerge.mergeEntitiesImpl at hs
    split at hs
    · obtain rfl := some.inj hs
      apply h.redirect
      · exact fun x hx => h.weightedUpdates hx
      · intro q d hd
        exact hd
    · cases hs
  · exact h

theorem Sound.aeditEntity {edit : EntityEdit} (h : g.Sound) :
    (g.aeditEntity e edit rows).Sound := by
  unfold WeightedGraph.aeditEntity
  dsimp only
  split
  · exact h.editEntity
  · split
    · exact h
    · split
      · split
        · exact h.editEntity.amergeEntities
        · exact h
      · rename_i hnew
        exact h.renameEntity (Bool.eq_false_of_not_eq_true hnew)

theorem Sound.perform (h : g.Sound) (op : Operation) : (g.perform op).Sound := by
  cases op with
  | mergeNodesAndEdges cfg nodes edges => exact h.mergeNodesAndEdges
  | purge plan r => exact h.purge
  | acreateEntity e ids => exact h.acreateEntity
  | acreateRelation source target ids w => exact h.acreateRelation
  | aeditEntity e edit rows => exact h.aeditEntity
  | aeditRelation p ids w => exact h.aeditRelation
  | amergeEntities m rows => exact h.amergeEntities
  | adeleteByEntity e => exact h.adeleteByEntity
  | adeleteByRelation p => exact h.adeleteByRelation

end

/-- After any sequence of operations on an empty graph no relation is a loop, the ends of every
relation are in the graph, and no relation weighs less than the chunks that it cites. -/
theorem writers_sound (ops : List Operation) : (ops.foldl perform empty).Sound :=
  Sound.foldl (fun _ op hg => hg.perform op) sound_empty

end WeightedGraph

end LightRAG.Knowledge
