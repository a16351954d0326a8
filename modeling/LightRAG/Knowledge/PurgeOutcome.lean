import LightRAG.Knowledge.Purge

/-!
# The outcome of the derived part

What becomes of each object is settled by the state in which the purge finds the stores: an object
whose evidence is purged goes, one that keeps some is reworked, and any other is left alone.
-/

namespace LightRAG.Knowledge
open List

section

variable (chunkIds : List ChunkId) (s : Store)

def entityNames (e : Name) : Prop :=
  (∃ node, s.getNode e = some node ∧ namesPurged node.sourceId chunkIds) ∨
    namesPurged ((s.entityRow e).getD []) chunkIds

def relationSources (p : Pair) : Option (List ChunkId) := (s.getEdge p).bind Edge.sourceId

def relationNames (p : Pair) : Prop :=
  (∃ ids, relationSources s p = some ids ∧ namesPurged ids chunkIds) ∨
    namesPurged ((s.relationRow p).getD []) chunkIds

def entityEvidencePurged (e : Name) : Prop :=
  ∃ node, s.getNode e = some node ∧ node.hasEntityId = true ∧
    evidencePurged chunkIds (s.entityRow e) node.sourceId

def relationEvidencePurged (p : Pair) : Prop :=
  ∃ ids, relationSources s p = some ids ∧ evidencePurged chunkIds (s.relationRow p) ids

def entitySurvivors (e : Name) : List ChunkId :=
  match s.getNode e with
  | none => []
  | some node => survivors chunkIds (s.entityRow e) node.sourceId

def relationSurvivors (p : Pair) : List ChunkId :=
  match relationSources s p with
  | none => []
  | some ids => survivors chunkIds (s.relationRow p) ids

end

structure Inspection where
  chunkIds : List ChunkId
  policy : RebuildPolicy
  entities : List Name
  relations : List Pair

namespace Inspection

variable (cfg : KgConfig) (env : RebuildEnv) (i : Inspection) (s : Store)

def plan : PurgePlan := purgePlan i.chunkIds i.policy i.entities i.relations s

def removesEntity (e : Name) : Prop := e ∈ i.entities ∧ entityEvidencePurged i.chunkIds s e

def removesRelation (p : Pair) : Prop :=
  (p ∈ i.relations ∧ relationEvidencePurged i.chunkIds s p) ∨ ∃ e ∈ p, i.removesEntity s e

def reworksEntity (e : Name) : Prop :=
  e ∈ i.entities ∧ (∃ node, s.getNode e = some node ∧ node.hasEntityId = true) ∧
    ¬ entityEvidencePurged i.chunkIds s e ∧ (entityNames i.chunkIds s e ∨ i.policy = .rollback)

def reworksRelation (p : Pair) : Prop :=
  p ∈ i.relations ∧ relationSources s p ≠ none ∧ ¬ relationEvidencePurged i.chunkIds s p ∧
    (relationNames i.chunkIds s p ∨ i.policy = .rollback)

def cacheHit : Prop :=
  i.policy = .rollback ∨
    (∃ e, i.reworksEntity s e ∧ ∃ c ∈ entitySurvivors i.chunkIds s e, env.cachedResults c ≠ []) ∨
    ∃ p, i.reworksRelation s p ∧ ∃ c ∈ relationSurvivors i.chunkIds s p, env.cachedResults c ≠ []

def rewritesEntity (e : Name) : Prop :=
  i.cacheHit env s ∧ env.reachesGraph (.entity e) ∧
    (hasEntityData cfg env e (entitySurvivors i.chunkIds s e) ∨ i.policy = .rollback ∨
      ∃ p, e ∈ p ∧ s.getEdge p ≠ none ∧ ¬ i.removesRelation s p)

def rewritesRelation (p : Pair) : Prop :=
  i.cacheHit env s ∧ env.reachesGraph (.relation p) ∧
    (hasRelationData cfg env p (relationSurvivors i.chunkIds s p) ∨ i.policy = .rollback)

end Inspection

section

variable {cfg : KgConfig} {env : RebuildEnv} {i : Inspection} {s s' : Store} {e : Name} {p : Pair}
  {chunkIds ids : List ChunkId} {policy : RebuildPolicy} {node : Node}

theorem entityVerdict_of_node (hnode : s.getNode e = some node) (hid : node.hasEntityId = true) :
    entityVerdict chunkIds policy s e =
      classify chunkIds policy (s.entityRow e) (truthy node.sourceId) := by
  unfold entityVerdict
  rw [hnode]
  exact if_pos hid

theorem entityVerdict_delete (policy : RebuildPolicy) :
    entityVerdict chunkIds policy s e = .delete ↔ entityEvidencePurged chunkIds s e := by
  unfold entityEvidencePurged
  cases hnode : s.getNode e with
  | none => simp [entityVerdict,hnode]
  | some node =>
    by_cases hid : node.hasEntityId = true
    · rw [entityVerdict_of_node hnode hid,classify_delete]
      constructor
      · exact fun h => ⟨node,rfl,hid,h⟩
      · rintro ⟨node',heq,-,h⟩
        rw [Option.some.inj heq]
        exact h
    · simp [entityVerdict,hnode,hid]

theorem relationVerdict_of_sources (h : relationSources s p = some ids) :
    relationVerdict chunkIds policy s p =
      classify chunkIds policy (s.relationRow p) (truthy ids) := by
  unfold relationVerdict
  rw [relationSources] at h
  rw [h]

theorem relationVerdict_delete (policy : RebuildPolicy) :
    relationVerdict chunkIds policy s p = .delete ↔ relationEvidencePurged chunkIds s p := by
  unfold relationEvidencePurged
  cases hids : relationSources s p with
  | none =>
    unfold relationVerdict
    rw [relationSources] at hids
    simp [hids]
  | some ids =>
    rw [relationVerdict_of_sources hids,classify_delete]
    constructor
    · exact fun h => ⟨ids,rfl,h⟩
    · rintro ⟨ids',heq,h⟩
      rw [Option.some.inj heq]
      exact h

theorem edge_of_sources (h : relationSources s p = some ids) : s.getEdge p ≠ none := by
  intro hnone
  rw [relationSources,hnone] at h
  cases h

theorem entityDeleted_iff :
    entityDeleted i.chunkIds i.policy i.entities s e ↔ i.removesEntity s e := by
  rw [entityDeleted,Inspection.removesEntity,entityVerdict_delete]

theorem relationDeleted_iff :
    relationDeleted i.chunkIds i.policy i.entities i.relations s p ↔ i.removesRelation s p := by
  unfold relationDeleted Inspection.removesRelation
  simp only [entityDeleted_iff,relationVerdict_delete]

theorem classify_rebuild_iff {tracked : Option (List ChunkId)} :
    classify chunkIds policy tracked (truthy ids) = .rebuild (survivors chunkIds tracked ids) ↔
      ¬ evidencePurged chunkIds tracked ids ∧
        (namesPurged ids chunkIds ∨ namesPurged (tracked.getD []) chunkIds ∨
          policy = .rollback) := by
  constructor
  · intro h
    refine ⟨(classify_rebuild h).2,?_⟩
    unfold classify at h
    dsimp only at h
    split at h
    · cases h
    · split at h
      · cases h
      · split at h
        · rename_i hwhy
          obtain hne | hgraph | hpolicy := hwhy
          · have hsome : ∃ c ∈ existingSources tracked (truthy ids), c ∈ chunkIds := by
              by_contra hnone
              apply hne
              apply survivors_eq_existing.mpr
              intro c hc hin
              exact hnone ⟨c,hc,hin⟩
            obtain ⟨c,hc,hin⟩ := hsome
            unfold existingSources at hc
            dsimp only at hc
            split at hc
            · exact .inl ⟨c,hc,hin⟩
            · exact .inr (.inl ⟨c,hc,hin⟩)
          · exact .inl hgraph
          · exact .inr (.inr hpolicy)
        · cases h
  · rintro ⟨hkept,hwhy⟩
    cases hverdict : classify chunkIds policy tracked (truthy ids) with
    | delete => exact absurd (classify_delete.mp hverdict) hkept
    | rebuild remaining => rw [(classify_rebuild hverdict).1]
    | keep =>
      obtain ⟨hgraph,htracked,hpolicy⟩ := classify_keep hverdict
      obtain h | h | h := hwhy
      · exact absurd h hgraph
      · exact absurd h htracked
      · exact absurd h hpolicy

theorem entityVerdict_rebuild :
    e ∈ i.entities ∧ entityVerdict i.chunkIds i.policy s e = .rebuild ids ↔
      i.reworksEntity s e ∧ ids = entitySurvivors i.chunkIds s e := by
  unfold Inspection.reworksEntity entitySurvivors
  cases hnode : s.getNode e with
  | none => simp [entityVerdict,hnode]
  | some node =>
    by_cases hid : node.hasEntityId = true
    · have hpurged : entityEvidencePurged i.chunkIds s e ↔
          evidencePurged i.chunkIds (s.entityRow e) node.sourceId := by
        rw [← entityVerdict_delete i.policy,entityVerdict_of_node hnode hid,classify_delete]
      have hnames : entityNames i.chunkIds s e ↔ namesPurged node.sourceId i.chunkIds ∨
          namesPurged ((s.entityRow e).getD []) i.chunkIds := by
        simp [entityNames,hnode]
      rw [entityVerdict_of_node hnode hid,hpurged]
      constructor
      · rintro ⟨he,hverdict⟩
        have hids := (classify_rebuild hverdict).1
        rw [hids] at hverdict
        have h := classify_rebuild_iff.mp hverdict
        exact ⟨⟨he,⟨node,rfl,hid⟩,h.1,by tauto⟩,hids⟩
      · rintro ⟨⟨he,-,hkept,hwhy⟩,rfl⟩
        exact ⟨he,classify_rebuild_iff.mpr ⟨hkept,by tauto⟩⟩
    · simp [entityVerdict,hnode,hid]

theorem relationVerdict_rebuild :
    p ∈ i.relations ∧ relationVerdict i.chunkIds i.policy s p = .rebuild ids ↔
      i.reworksRelation s p ∧ ids = relationSurvivors i.chunkIds s p := by
  unfold Inspection.reworksRelation relationSurvivors
  cases hids : relationSources s p with
  | none =>
    unfold relationVerdict
    rw [relationSources] at hids
    simp [hids]
  | some sources =>
    have hpurged : relationEvidencePurged i.chunkIds s p ↔
        evidencePurged i.chunkIds (s.relationRow p) sources := by
      rw [← relationVerdict_delete i.policy,relationVerdict_of_sources hids,classify_delete]
    have hnames : relationNames i.chunkIds s p ↔ namesPurged sources i.chunkIds ∨
        namesPurged ((s.relationRow p).getD []) i.chunkIds := by
      simp [relationNames,hids]
    rw [relationVerdict_of_sources hids,hpurged]
    constructor
    · rintro ⟨hp,hverdict⟩
      have heq := (classify_rebuild hverdict).1
      rw [heq] at hverdict
      have h := classify_rebuild_iff.mp hverdict
      exact ⟨⟨hp,Option.some_ne_none sources,h.1,by tauto⟩,heq⟩
    · rintro ⟨⟨hp,-,hkept,hwhy⟩,rfl⟩
      exact ⟨hp,classify_rebuild_iff.mpr ⟨hkept,by tauto⟩⟩

theorem entity_mem_tasks :
    .entity e ids ∈ (i.plan s).tasks ↔
      i.reworksEntity s e ∧ ids = entitySurvivors i.chunkIds s e :=
  mem_tasks_entity.trans entityVerdict_rebuild

theorem relation_mem_tasks :
    .relation p ids ∈ (i.plan s).tasks ↔
      i.reworksRelation s p ∧ ids = relationSurvivors i.chunkIds s p :=
  mem_tasks_relation.trans relationVerdict_rebuild

theorem entity_mem_objects :
    .entity e ∈ (i.plan s).tasks.map Task.object ↔ i.reworksEntity s e := by
  rw [mem_map]
  constructor
  · rintro ⟨t,ht,hobject⟩
    cases t with
    | relation p ids => cases hobject
    | entity name ids =>
      obtain rfl := Object.entity.inj hobject
      exact (entity_mem_tasks.mp ht).1
  · exact fun h => ⟨_,entity_mem_tasks.mpr ⟨h,rfl⟩,rfl⟩

theorem relation_mem_objects :
    .relation p ∈ (i.plan s).tasks.map Task.object ↔ i.reworksRelation s p := by
  rw [mem_map]
  constructor
  · rintro ⟨t,ht,hobject⟩
    cases t with
    | entity name ids => cases hobject
    | relation q ids =>
      obtain rfl := Object.relation.inj hobject
      exact (relation_mem_tasks.mp ht).1
  · exact fun h => ⟨_,relation_mem_tasks.mpr ⟨h,rfl⟩,rfl⟩

theorem nothingCached_iff :
    nothingCached env i.policy (i.plan s).tasks ↔ ¬ i.cacheHit env s := by
  have hpolicy : i.policy = .bestEffort ↔ i.policy ≠ .rollback := by
    cases i.policy <;> simp
  unfold nothingCached Inspection.cacheHit
  rw [hpolicy,not_or,not_or]
  apply and_congr_right
  intro _
  constructor
  · intro hnone
    constructor
    · rintro ⟨e,he,c,hc,hcached⟩
      have htask := entity_mem_tasks.mpr ⟨he,rfl⟩
      exact hcached (hnone c (mem_flatMap.mpr ⟨_,htask,hc⟩))
    · rintro ⟨p,hp,c,hc,hcached⟩
      have htask := relation_mem_tasks.mpr ⟨hp,rfl⟩
      exact hcached (hnone c (mem_flatMap.mpr ⟨_,htask,hc⟩))
  · rintro ⟨hentities,hrelations⟩ c hc
    obtain ⟨t,ht,hct⟩ := mem_flatMap.mp hc
    by_contra hcached
    cases t with
    | entity e ids =>
      obtain ⟨he,rfl⟩ := entity_mem_tasks.mp ht
      exact hentities ⟨e,he,c,hct,hcached⟩
    | relation p ids =>
      obtain ⟨hp,rfl⟩ := relation_mem_tasks.mp ht
      exact hrelations ⟨p,hp,c,hct,hcached⟩

theorem not_removes_of_reworks (h : i.reworksEntity s e) :
    ¬ entityDeleted i.chunkIds i.policy i.entities s e := by
  rw [entityDeleted_iff]
  exact fun hgone => h.2.2.1 hgone.2

/-- What the derived part of a purge leaves of the inspected objects. -/
structure Inspection.Outcome (cfg : KgConfig) (env : RebuildEnv) (i : Inspection) (s s' : Store) :
    Prop where
  entity_removed : ∀ e, i.removesEntity s e → s'.getNode e = none ∧ s'.entityRow e = none
  entity_row : ∀ e, i.reworksEntity s e → s'.entityRow e = some (entitySurvivors i.chunkIds s e)
  entity_rewritten : ∀ e node, i.reworksEntity s e → s.getNode e = some node →
    i.rewritesEntity cfg env s e →
    s'.getNode e = some { node with
      sourceId := limitedEntityIds cfg (entitySurvivors i.chunkIds s e) }
  entity_stale : ∀ e, i.reworksEntity s e → ¬ i.rewritesEntity cfg env s e →
    s'.getNode e = s.getNode e
  entity_other : ∀ e, ¬ i.removesEntity s e → ¬ i.reworksEntity s e →
    s'.getNode e = s.getNode e ∧ s'.entityRow e = s.entityRow e
  relation_removed : ∀ p, s.getEdge p ≠ none → i.removesRelation s p →
    s'.getEdge p = none ∧ s'.relationRow p = none
  relation_row : ∀ p, i.reworksRelation s p → ¬ i.removesRelation s p →
    s'.relationRow p = some (evidenceOnly (relationSurvivors i.chunkIds s p))
  relation_rewritten : ∀ p, i.reworksRelation s p → ¬ i.removesRelation s p →
    i.rewritesRelation cfg env s p →
    s'.getEdge p = some ⟨some (limitedRelationIds cfg (relationSurvivors i.chunkIds s p))⟩
  relation_stale : ∀ p, i.reworksRelation s p → ¬ i.removesRelation s p →
    ¬ i.rewritesRelation cfg env s p → s'.getEdge p = s.getEdge p
  relation_other : ∀ p, ¬ (s.getEdge p ≠ none ∧ i.removesRelation s p) →
    ¬ i.reworksRelation s p → s'.getEdge p = s.getEdge p ∧ s'.relationRow p = s.relationRow p
  documents : s.SameDocuments s'

theorem evidenceOnly_of_truthy (h : ∀ c ∈ ids, c ≠ "") :
    ids.filter (fun c => c ∉ relationNoEvidenceSourceIds) = evidenceOnly ids := by
  apply filter_congr
  intro c hc
  simp [h c hc]

theorem relationSurvivors_truthy (c : ChunkId) (h : c ∈ relationSurvivors chunkIds s p) :
    c ≠ "" := by
  unfold relationSurvivors at h
  cases hids : relationSources s p with
  | none =>
    rw [hids] at h
    cases h
  | some sources =>
    rw [hids] at h
    exact ne_empty_of_mem_existing (mem_survivors.mp h).1

theorem entityRow_reworked (h : i.reworksEntity s e) :
    (applyPlan (i.plan s) s).entityRow e = some (entitySurvivors i.chunkIds s e) := by
  obtain ⟨he,hverdict⟩ := entityVerdict_rebuild.mpr ⟨h,rfl⟩
  unfold Inspection.plan
  rw [entityRow_applyPlan (not_removes_of_reworks h),if_pos he,hverdict]
  rfl

theorem relationRow_reworked (h : i.reworksRelation s p) (hkept : ¬ i.removesRelation s p) :
    (applyPlan (i.plan s) s).relationRow p =
      some (evidenceOnly (relationSurvivors i.chunkIds s p)) := by
  obtain ⟨hp,hverdict⟩ := relationVerdict_rebuild.mpr ⟨h,rfl⟩
  have hnot : ¬ relationDeleted i.chunkIds i.policy i.entities i.relations s p := by
    rw [relationDeleted_iff]
    exact hkept
  unfold Inspection.plan
  rw [relationRow_applyPlan (.inr hnot),if_pos hp,hverdict]
  unfold Verdict.remaining
  rw [Option.map_some,Option.some_or,evidenceOnly_of_truthy relationSurvivors_truthy]

theorem attached_iff :
    (applyPlan (i.plan s) s).graph.nodeEdges e ≠ [] ↔
      ∃ p, e ∈ p ∧ s.getEdge p ≠ none ∧ ¬ i.removesRelation s p := by
  rw [ne_eq,Rebuilt.nodeEdges_eq_nil]
  simp only [not_forall,exists_prop]
  apply exists_congr
  intro p
  apply and_congr_right
  by_cases hgone : i.removesRelation s p
  · have hdel := relationDeleted_iff.mpr hgone
    unfold Inspection.plan
    rw [getEdge_applyPlan_of_deleted hdel]
    simp [hgone]
  · have hdel := (not_congr relationDeleted_iff).mpr hgone
    unfold Inspection.plan
    rw [getEdge_applyPlan hdel]
    simp [hgone]

theorem getNode_kept (h : ¬ i.removesEntity s e) :
    (applyPlan (i.plan s) s).getNode e = s.getNode e :=
  getNode_applyPlan ((not_congr entityDeleted_iff).mpr h)

theorem getEdge_kept (h : ¬ i.removesRelation s p) :
    (applyPlan (i.plan s) s).getEdge p = s.getEdge p :=
  getEdge_applyPlan ((not_congr relationDeleted_iff).mpr h)

theorem not_removesEntity_of_reworks (h : i.reworksEntity s e) : ¬ i.removesEntity s e :=
  fun hgone => h.2.2.1 hgone.2

theorem entityRow_untouched (hkept : ¬ i.removesEntity s e) (h : ¬ i.reworksEntity s e) :
    (applyPlan (i.plan s) s).entityRow e = s.entityRow e := by
  unfold Inspection.plan
  rw [entityRow_applyPlan ((not_congr entityDeleted_iff).mpr hkept)]
  split
  · rename_i he
    cases hremaining : (entityVerdict i.chunkIds i.policy s e).remaining with
    | none => rfl
    | some ids =>
      have hverdict := remaining_eq_some.mp hremaining
      exact absurd (entityVerdict_rebuild.mp ⟨he,hverdict⟩).1 h
  · rfl

theorem relationRow_untouched (hkept : ¬ (s.getEdge p ≠ none ∧ i.removesRelation s p))
    (h : ¬ i.reworksRelation s p) :
    (applyPlan (i.plan s) s).relationRow p = s.relationRow p := by
  have hnot : s.getEdge p = none ∨
      ¬ relationDeleted i.chunkIds i.policy i.entities i.relations s p := by
    rw [relationDeleted_iff]
    tauto
  unfold Inspection.plan
  rw [relationRow_applyPlan hnot]
  split
  · rename_i hp
    cases hremaining : (relationVerdict i.chunkIds i.policy s p).remaining with
    | none => rfl
    | some ids =>
      have hverdict := remaining_eq_some.mp hremaining
      exact absurd (relationVerdict_rebuild.mp ⟨hp,hverdict⟩).1 h
  · rfl

theorem getEdge_untouched (hkept : ¬ (s.getEdge p ≠ none ∧ i.removesRelation s p)) :
    (applyPlan (i.plan s) s).getEdge p = s.getEdge p := by
  by_cases hgone : i.removesRelation s p
  · have hnone : s.getEdge p = none := by
      by_contra hedge
      exact hkept ⟨hedge,hgone⟩
    rw [hnone]
    exact getEdge_applyPlan_of_deleted (relationDeleted_iff.mpr hgone)
  · exact getEdge_kept hgone

theorem outcome_of_skipped (h : ¬ i.cacheHit env s ∨ (i.plan s).tasks = []) :
    i.Outcome cfg env s (applyPlan (i.plan s) s) := by
  have hentity : ∀ e, i.reworksEntity s e → ¬ i.rewritesEntity cfg env s e := by
    intro e hreworks hrewrites
    obtain hcache | htasks := h
    · exact hcache hrewrites.1
    · have htask := entity_mem_tasks.mpr ⟨hreworks,rfl⟩
      rw [htasks] at htask
      exact absurd htask not_mem_nil
  have hrelation : ∀ p, i.reworksRelation s p → ¬ i.rewritesRelation cfg env s p := by
    intro p hreworks hrewrites
    obtain hcache | htasks := h
    · exact hcache hrewrites.1
    · have htask := relation_mem_tasks.mpr ⟨hreworks,rfl⟩
      rw [htasks] at htask
      exact absurd htask not_mem_nil
  constructor
  · intro e hgone
    have hdel := entityDeleted_iff.mpr hgone
    exact ⟨getNode_applyPlan_of_deleted hdel,entityRow_applyPlan_of_deleted hdel⟩
  · exact fun e hreworks => entityRow_reworked hreworks
  · exact fun e node hreworks _ hrewrites => absurd hrewrites (hentity e hreworks)
  · exact fun e hreworks _ => getNode_kept (not_removesEntity_of_reworks hreworks)
  · exact fun e hkept hnot => ⟨getNode_kept hkept,entityRow_untouched hkept hnot⟩
  · intro p hedge hgone
    have hdel := relationDeleted_iff.mpr hgone
    exact ⟨getEdge_applyPlan_of_deleted hdel,relationRow_applyPlan_of_deleted hedge hdel⟩
  · exact fun p hreworks hkept => relationRow_reworked hreworks hkept
  · exact fun p hreworks _ hrewrites => absurd hrewrites (hrelation p hreworks)
  · exact fun p _ hkept _ => getEdge_kept hkept
  · exact fun p hkept hnot => ⟨getEdge_untouched hkept,relationRow_untouched hkept hnot⟩
  · exact sameDocuments_applyPlan

theorem entityWritten_iff_rewrites (hcache : i.cacheHit env s) :
    entityWritten cfg env (decide (i.policy = .rollback)) (applyPlan (i.plan s) s) e
        (entitySurvivors i.chunkIds s e) ↔ i.rewritesEntity cfg env s e := by
  unfold entityWritten Inspection.rewritesEntity
  rw [attached_iff]
  simp [hcache]

theorem relationWritten_iff_rewrites (hcache : i.cacheHit env s) :
    relationWritten cfg env (decide (i.policy = .rollback)) p
        (relationSurvivors i.chunkIds s p) ↔ i.rewritesRelation cfg env s p := by
  unfold relationWritten Inspection.rewritesRelation
  simp [hcache]

theorem outcome_of_rebuilt (hcache : i.cacheHit env s)
    (h : Rebuilt cfg env (decide (i.policy = .rollback)) (applyPlan (i.plan s) s) (i.plan s).tasks
      s') :
    i.Outcome cfg env s s' := by
  constructor
  · intro e hgone
    have hdel := entityDeleted_iff.mpr hgone
    have hnot : .entity e ∉ (i.plan s).tasks.map Task.object := by
      rw [entity_mem_objects]
      exact fun hreworks => not_removesEntity_of_reworks hreworks hgone
    rw [h.node_none,h.entityRow_other e hnot]
    exact ⟨getNode_applyPlan_of_deleted hdel,entityRow_applyPlan_of_deleted hdel⟩
  · intro e hreworks
    rw [h.entityRow_task e _ (entity_mem_tasks.mpr ⟨hreworks,rfl⟩),entityRowAfter,
      entityRow_reworked hreworks]
    split <;> rfl
  · intro e node hreworks hnode hrewrites
    rw [h.node_task e _ (entity_mem_tasks.mpr ⟨hreworks,rfl⟩),nodeAfter,
      if_pos ((entityWritten_iff_rewrites hcache).mpr hrewrites),
      getNode_kept (not_removesEntity_of_reworks hreworks),hnode]
    rfl
  · intro e hreworks hstale
    rw [h.node_task e _ (entity_mem_tasks.mpr ⟨hreworks,rfl⟩),nodeAfter,
      if_neg ((not_congr (entityWritten_iff_rewrites hcache)).mpr hstale),
      getNode_kept (not_removesEntity_of_reworks hreworks)]
  · intro e hkept hnot
    have hobject := (not_congr entity_mem_objects).mpr hnot
    rw [h.node_other e hobject,h.entityRow_other e hobject]
    exact ⟨getNode_kept hkept,entityRow_untouched hkept hnot⟩
  · intro p hedge hgone
    have hdel := relationDeleted_iff.mpr hgone
    have hnone : (applyPlan (i.plan s) s).getEdge p = none := getEdge_applyPlan_of_deleted hdel
    have hrow : (applyPlan (i.plan s) s).relationRow p = none :=
      relationRow_applyPlan_of_deleted hedge hdel
    refine ⟨h.edge_none.mpr hnone,?_⟩
    by_cases hreworks : i.reworksRelation s p
    · rw [h.relationRow_task p _ (relation_mem_tasks.mpr ⟨hreworks,rfl⟩),relationRowAfter,
        if_pos (.inl hnone),hrow]
    · rw [h.relationRow_other p ((not_congr relation_mem_objects).mpr hreworks),hrow]
  · intro p hreworks hkept
    rw [h.relationRow_task p _ (relation_mem_tasks.mpr ⟨hreworks,rfl⟩),relationRowAfter,
      relationRow_reworked hreworks hkept]
    split <;> rfl
  · intro p hreworks hkept hrewrites
    obtain ⟨edge,hedge⟩ : ∃ edge, s.getEdge p = some edge := by
      apply Option.ne_none_iff_exists'.mp
      intro hnone
      apply hreworks.2.1
      rw [relationSources,hnone]
      rfl
    rw [h.edge_task p _ (relation_mem_tasks.mpr ⟨hreworks,rfl⟩),edgeAfter,
      if_pos ((relationWritten_iff_rewrites hcache).mpr hrewrites),getEdge_kept hkept,hedge]
    rfl
  · intro p hreworks hkept hstale
    rw [h.edge_task p _ (relation_mem_tasks.mpr ⟨hreworks,rfl⟩),edgeAfter,
      if_neg ((not_congr (relationWritten_iff_rewrites hcache)).mpr hstale),getEdge_kept hkept]
  · intro p hkept hnot
    have hobject := (not_congr relation_mem_objects).mpr hnot
    rw [h.edge_other p hobject,h.relationRow_other p hobject]
    exact ⟨getEdge_untouched hkept,relationRow_untouched hkept hnot⟩
  · exact h.documents

theorem outcome (h : rebuildKnowledgeFromChunks cfg env i.policy (i.plan s).tasks
      (applyPlan (i.plan s) s) = some s') :
    i.Outcome cfg env s s' := by
  obtain ⟨hskipped,rfl⟩ | ⟨hcached,hrebuilt⟩ :=
    rebuildKnowledgeFromChunks_cases (nodup_tasks _) h
  · rw [nothingCached_iff] at hskipped
    exact outcome_of_skipped hskipped
  · rw [nothingCached_iff,not_not] at hcached
    exact outcome_of_rebuilt hcached hrebuilt

end

end LightRAG.Knowledge
