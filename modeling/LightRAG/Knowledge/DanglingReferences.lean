import LightRAG.Knowledge.PurgeRun

/-!
# References to deleted chunks

The purge deletes the chunks whatever became of the objects that name them.
-/

namespace LightRAG.Knowledge
open Option

namespace Inspection

variable (cfg : KgConfig) (env : RebuildEnv) (i : Inspection) (s : Store)

/-- An entity that names a purged chunk is removed, or its tracking row is reduced and its node is
written anew where it names one. -/
def repairsEntity (e : Name) : Prop :=
  entityNames i.chunkIds s e →
    e ∈ i.entities ∧ ∃ node, s.getNode e = some node ∧ node.hasEntityId = true ∧
      (evidencePurged i.chunkIds (s.entityRow e) node.sourceId ∨
        (namesPurged node.sourceId i.chunkIds → i.rewritesEntity cfg env s e))

def repairsRelation (p : Pair) : Prop :=
  relationNames i.chunkIds s p →
    (s.getEdge p ≠ none ∧ ∃ e ∈ p, i.removesEntity s e) ∨
      p ∈ i.relations ∧ ∃ ids, relationSources s p = some ids ∧
        (evidencePurged i.chunkIds (s.relationRow p) ids ∨
          (namesPurged ids i.chunkIds → i.rewritesRelation cfg env s p))

end Inspection

section

variable {cfg : KgConfig} {env : RebuildEnv} {i : Inspection} {s s' : Store} {e : Name} {p : Pair}
  {chunkIds ids : List ChunkId} {node : Node}

theorem not_namesPurged_limited :
    ¬ namesPurged (limitedEntityIds cfg (entitySurvivors chunkIds s e)) chunkIds := by
  apply not_namesPurged_of_subset _ applySourceIdsLimit_sublist.subset
  unfold entitySurvivors
  cases s.getNode e with
  | none => simp [namesPurged,truthy]
  | some node => exact not_namesPurged_survivors

theorem not_namesPurged_relationSurvivors :
    ¬ namesPurged (relationSurvivors chunkIds s p) chunkIds := by
  unfold relationSurvivors
  cases relationSources s p with
  | none => simp [namesPurged,truthy]
  | some ids => exact not_namesPurged_survivors

theorem not_namesPurged_evidence :
    ¬ namesPurged (evidenceOnly (relationSurvivors chunkIds s p)) chunkIds :=
  not_namesPurged_of_subset not_namesPurged_relationSurvivors (List.filter_sublist).subset

theorem entityNames_of_node (hnode : s.getNode e = some node) :
    entityNames chunkIds s e ↔
      namesPurged node.sourceId chunkIds ∨ namesPurged ((s.entityRow e).getD []) chunkIds := by
  simp [entityNames,hnode]

theorem relationNames_of_sources (h : relationSources s p = some ids) :
    relationNames chunkIds s p ↔
      namesPurged ids chunkIds ∨ namesPurged ((s.relationRow p).getD []) chunkIds := by
  simp [relationNames,h]

theorem entityNames_iff (h : i.Outcome cfg env s s') :
    entityNames i.chunkIds s' e ↔ ¬ i.repairsEntity cfg env s e := by
  by_cases hgone : i.removesEntity s e
  · obtain ⟨hnode,hrow⟩ := h.entity_removed e hgone
    have hclean : ¬ entityNames i.chunkIds s' e := by
      simp [entityNames,hnode,hrow,namesPurged,truthy]
    obtain ⟨he,node,hbefore,hid,hpurged⟩ := hgone
    have hrepairs : i.repairsEntity cfg env s e := fun _ => ⟨he,node,hbefore,hid,.inl hpurged⟩
    simp [hclean,hrepairs]
  by_cases hreworks : i.reworksEntity s e
  · obtain ⟨he,⟨node,hnode,hid⟩,hkept,-⟩ := id hreworks
    have hnotPurged : ¬ evidencePurged i.chunkIds (s.entityRow e) node.sourceId :=
      fun hpurged => hkept ⟨node,hnode,hid,hpurged⟩
    have hrow : ¬ namesPurged ((s'.entityRow e).getD []) i.chunkIds := by
      rw [h.entity_row e hreworks,entitySurvivors,hnode]
      exact not_namesPurged_survivors
    by_cases hrewrites : i.rewritesEntity cfg env s e
    · have hclean : ¬ entityNames i.chunkIds s' e := by
        rw [entityNames_of_node (h.entity_rewritten e node hreworks hnode hrewrites)]
        rintro (hgraph | htracked)
        · exact not_namesPurged_limited hgraph
        · exact hrow htracked
      have hrepairs : i.repairsEntity cfg env s e :=
        fun _ => ⟨he,node,hnode,hid,.inr fun _ => hrewrites⟩
      simp [hclean,hrepairs]
    · have hnode' : s'.getNode e = some node := (h.entity_stale e hreworks hrewrites).trans hnode
      rw [entityNames_of_node hnode',or_iff_left hrow]
      constructor
      · intro hgraph hrepairs
        obtain ⟨-,node',hnode'',-,hwhy⟩ :=
          hrepairs ((entityNames_of_node hnode).mpr (.inl hgraph))
        obtain rfl := some.inj (hnode.symm.trans hnode'')
        obtain hpurged | hwritten := hwhy
        · exact hnotPurged hpurged
        · exact hrewrites (hwritten hgraph)
      · intro hnot
        by_contra hgraph
        exact hnot fun _ => ⟨he,node,hnode,hid,.inr fun hg => absurd hg hgraph⟩
  · obtain ⟨hnode,hrow⟩ := h.entity_other e hgone hreworks
    have hsame : entityNames i.chunkIds s' e ↔ entityNames i.chunkIds s e := by
      unfold entityNames
      rw [hnode,hrow]
    rw [hsame]
    constructor
    · intro hnames hrepairs
      obtain ⟨he,node,hbefore,hid,hwhy⟩ := hrepairs hnames
      by_cases hpurged : evidencePurged i.chunkIds (s.entityRow e) node.sourceId
      · exact hgone ⟨he,node,hbefore,hid,hpurged⟩
      · refine hreworks ⟨he,⟨node,hbefore,hid⟩,?_,.inl hnames⟩
        rintro ⟨node',hnode',-,hpurged'⟩
        obtain rfl := some.inj (hbefore.symm.trans hnode')
        exact hpurged hpurged'
    · intro hnot
      by_contra hnames
      exact hnot fun h => absurd h hnames

theorem relationNames_iff (h : i.Outcome cfg env s s') :
    relationNames i.chunkIds s' p ↔ ¬ i.repairsRelation cfg env s p := by
  by_cases hgone : s.getEdge p ≠ none ∧ i.removesRelation s p
  · obtain ⟨hedge,hrow⟩ := h.relation_removed p hgone.1 hgone.2
    have hclean : ¬ relationNames i.chunkIds s' p := by
      simp [relationNames,relationSources,hedge,hrow,namesPurged,truthy]
    have hrepairs : i.repairsRelation cfg env s p := by
      intro _
      obtain ⟨hp,ids,hids,hpurged⟩ | hends := hgone.2
      · exact .inr ⟨hp,ids,hids,.inl hpurged⟩
      · exact .inl ⟨hgone.1,hends⟩
    simp [hclean,hrepairs]
  by_cases hreworks : i.reworksRelation s p
  · obtain ⟨hp,hsources,hkept,-⟩ := id hreworks
    obtain ⟨ids,hids⟩ := ne_none_iff_exists'.mp hsources
    have hstays : ¬ i.removesRelation s p := fun hremoved => hgone ⟨edge_of_sources hids,hremoved⟩
    have hnotPurged : ¬ evidencePurged i.chunkIds (s.relationRow p) ids :=
      fun hpurged => hkept ⟨ids,hids,hpurged⟩
    have hrow : ¬ namesPurged ((s'.relationRow p).getD []) i.chunkIds := by
      rw [h.relation_row p hreworks hstays]
      exact not_namesPurged_evidence
    by_cases hrewrites : i.rewritesRelation cfg env s p
    · have hids' : relationSources s' p =
          some (limitedRelationIds cfg (relationSurvivors i.chunkIds s p)) := by
        rw [relationSources,h.relation_rewritten p hreworks hstays hrewrites]
        rfl
      have hclean : ¬ relationNames i.chunkIds s' p := by
        rw [relationNames_of_sources hids']
        rintro (hgraph | htracked)
        · exact not_namesPurged_of_subset not_namesPurged_evidence
            applySourceIdsLimit_sublist.subset hgraph
        · exact hrow htracked
      have hrepairs : i.repairsRelation cfg env s p :=
        fun _ => .inr ⟨hp,ids,hids,.inr fun _ => hrewrites⟩
      simp [hclean,hrepairs]
    · have hids' : relationSources s' p = some ids := by
        rw [relationSources,h.relation_stale p hreworks hstays hrewrites]
        exact hids
      rw [relationNames_of_sources hids',or_iff_left hrow]
      constructor
      · intro hgraph hrepairs
        obtain ⟨-,hends⟩ | ⟨-,ids',hids'',hwhy⟩ :=
          hrepairs ((relationNames_of_sources hids).mpr (.inl hgraph))
        · exact hstays (.inr hends)
        · obtain rfl := some.inj (hids.symm.trans hids'')
          obtain hpurged | hwritten := hwhy
          · exact hnotPurged hpurged
          · exact hrewrites (hwritten hgraph)
      · intro hnot
        by_contra hgraph
        exact hnot fun _ => .inr ⟨hp,ids,hids,.inr fun hg => absurd hg hgraph⟩
  · obtain ⟨hedge,hrow⟩ := h.relation_other p hgone hreworks
    have hsame : relationNames i.chunkIds s' p ↔ relationNames i.chunkIds s p := by
      unfold relationNames relationSources
      rw [hedge,hrow]
    rw [hsame]
    constructor
    · intro hnames hrepairs
      obtain ⟨hthere,hends⟩ | ⟨hp,ids,hids,hwhy⟩ := hrepairs hnames
      · exact hgone ⟨hthere,.inr hends⟩
      · by_cases hpurged : evidencePurged i.chunkIds (s.relationRow p) ids
        · exact hgone ⟨edge_of_sources hids,.inl ⟨hp,ids,hids,hpurged⟩⟩
        · refine hreworks ⟨hp,?_,?_,.inl hnames⟩
          · rw [hids]
            exact some_ne_none ids
          · rintro ⟨ids',hids',hpurged'⟩
            obtain rfl := some.inj (hids.symm.trans hids')
            exact hpurged hpurged'
    · intro hnot
      by_contra hnames
      exact hnot fun h => absurd h hnames

end

section

variable {cfg : KgConfig} {env : RebuildEnv} {call : PurgeCall} {s s' : Store}
  {chunkIds : List ChunkId}

theorem entityNames_same {e : Name} (h : s.SameKnowledge s') :
    entityNames chunkIds s' e ↔ entityNames chunkIds s e := by
  unfold entityNames Store.getNode Store.entityRow
  rw [h.1,h.2.1]

theorem relationNames_same {p : Pair} (h : s.SameKnowledge s') :
    relationNames chunkIds s' p ↔ relationNames chunkIds s p := by
  unfold relationNames relationSources Store.getEdge Store.relationRow
  rw [h.1,h.2.2]

theorem not_namesPurged_nil {ids : List ChunkId} : ¬ namesPurged ids [] := by
  rintro ⟨c,-,hin⟩
  cases hin

theorem inspection_of_committed (h : call.committed s = true) :
    call.inspection s = ⟨call.chunkIds, call.rebuildPolicy, [], []⟩ := by
  unfold PurgeCall.inspection
  simp only [h,if_true]

theorem repairsEntity_of_committed {e : Name} (h : call.committed s = true) :
    (call.inspection s).repairsEntity cfg env s e ↔ ¬ entityNames call.chunkIds s e := by
  rw [inspection_of_committed h]
  unfold Inspection.repairsEntity
  simp

theorem repairsRelation_of_committed {p : Pair} (h : call.committed s = true) :
    (call.inspection s).repairsRelation cfg env s p ↔ ¬ relationNames call.chunkIds s p := by
  rw [inspection_of_committed h]
  unfold Inspection.repairsRelation Inspection.removesEntity
  simp

theorem names_after_purge (h : purgeKgContributions cfg env call s = .ok s') :
    (∀ e, entityNames call.chunkIds s' e ↔ ¬ (call.inspection s).repairsEntity cfg env s e) ∧
      ∀ p, relationNames call.chunkIds s' p ↔
        ¬ (call.inspection s).repairsRelation cfg env s p := by
  obtain ⟨hwhy,hsame⟩ | ⟨hnot,rows,s₂,hrebuild,hsame⟩ := purge_ok h
  · constructor
    · intro e
      rw [entityNames_same hsame]
      obtain hcommitted | hempty := hwhy
      · rw [repairsEntity_of_committed hcommitted,not_not]
      · have hclean : ¬ entityNames call.chunkIds s e := by
          rw [hempty]
          rintro (⟨node,-,hnames⟩ | hnames)
          · exact not_namesPurged_nil hnames
          · exact not_namesPurged_nil hnames
        have hrepairs : (call.inspection s).repairsEntity cfg env s e :=
          fun hnames => absurd hnames hclean
        simp [hclean,hrepairs]
    · intro p
      rw [relationNames_same hsame]
      obtain hcommitted | hempty := hwhy
      · rw [repairsRelation_of_committed hcommitted,not_not]
      · have hclean : ¬ relationNames call.chunkIds s p := by
          rw [hempty]
          rintro (⟨ids,-,hnames⟩ | hnames)
          · exact not_namesPurged_nil hnames
          · exact not_namesPurged_nil hnames
        have hrepairs : (call.inspection s).repairsRelation cfg env s p :=
          fun hnames => absurd hnames hclean
        simp [hclean,hrepairs]
  · have houtcome := outcome hrebuild
    constructor
    · intro e
      rw [entityNames_same hsame]
      exact entityNames_iff houtcome
    · intro p
      rw [relationNames_same hsame]
      exact relationNames_iff houtcome

end

namespace PurgeCall

variable (call : PurgeCall) (s s' : Store)

/-- Each object of the graph that names a chunk of the call is among its candidates. -/
def Anchored : Prop :=
  (∀ e node, s.getNode e = some node → namesPurged node.sourceId call.chunkIds →
      e ∈ call.entities s) ∧
    ∀ p ids, relationSources s p = some ids → namesPurged ids call.chunkIds →
      p ∈ call.relations s

def LeavesNoReference : Prop :=
  (∀ e ∈ call.entities s, ¬ entityNames call.chunkIds s' e) ∧
    ∀ p ∈ call.relations s, ¬ relationNames call.chunkIds s' p

def GraphClean : Prop :=
  (∀ e node, s'.getNode e = some node → ¬ namesPurged node.sourceId call.chunkIds) ∧
    ∀ p ids, relationSources s' p = some ids → ¬ namesPurged ids call.chunkIds

/-- Every candidate that names a chunk of the call is repaired. -/
def Repairs (cfg : KgConfig) (env : RebuildEnv) : Prop :=
  (∀ e ∈ call.entities s, (call.inspection s).repairsEntity cfg env s e) ∧
    ∀ p ∈ call.relations s, (call.inspection s).repairsRelation cfg env s p

end PurgeCall

/-- A purge that returns leaves no reference to its chunks exactly when each candidate that names
one is removed or rewritten, and then the whole graph is free of them. -/
theorem purge_leaves_no_reference {cfg : KgConfig} {env : RebuildEnv} {call : PurgeCall}
    {s s' : Store} (h : purgeKgContributions cfg env call s = .ok s')
    (hanchored : call.Anchored s) :
    (call.LeavesNoReference s s' ↔ call.Repairs s cfg env) ∧
      (call.LeavesNoReference s s' → call.GraphClean s') := by
  obtain ⟨hentities,hrelations⟩ := names_after_purge h
  constructor
  · unfold PurgeCall.LeavesNoReference PurgeCall.Repairs
    simp only [hentities,hrelations,not_not]
  · rintro ⟨hcleanEntities,hcleanRelations⟩
    obtain ⟨hnodes,hedges⟩ := graph_outside_candidates h
    constructor
    · intro e node hnode hnames
      by_cases he : e ∈ call.entities s
      · exact hcleanEntities e he (.inl ⟨node,hnode,hnames⟩)
      · exact he (hanchored.1 e node ((hnodes e he).symm.trans hnode) hnames)
    · intro p ids hids hnames
      by_cases hp : p ∈ call.relations s
      · exact hcleanRelations p hp (.inl ⟨ids,hids,hnames⟩)
      · apply hp
        obtain hnone | hsame := hedges p hp
        · rw [relationSources,hnone] at hids
          cases hids
        · apply hanchored.2 p ids _ hnames
          rw [relationSources,← hsame]
          exact hids

/-- An entity with a chunk of `doc-1` and one of `doc-2`. -/
def sharedEntity : Store where
  graph := Graph.empty.upsertNode "Ada" ⟨true, ["c1", "c2"]⟩
  entityChunks := Dict.empty.set "Ada" ["c1", "c2"]
  relationChunks := Dict.empty
  fullEntities := (Dict.empty.set "doc-1" ["Ada"]).set "doc-2" ["Ada"]
  fullRelations := (Dict.empty.set "doc-1" []).set "doc-2" []
  docStatus := Dict.empty.set "doc-1" ⟨none, some .graphMutationStarted, none⟩
  chunksVdb := ["c1", "c2"]
  textChunks := ["c1", "c2"]

def purgeFirst : PurgeCall := ⟨"doc-1", ["c1"], none, none, false, .bestEffort⟩

def smallConfig : KgConfig := ⟨100, 100, .keep⟩

/-- The tasks run in their order, none fails, and `cached` names the entities of a chunk. -/
def cachedEntities (cached : ChunkId → List (List Name)) : RebuildEnv where
  cachedResults c := (cached c).map fun names => some ⟨names, []⟩
  fault _ := .none
  schedule := id
  schedule_perm tasks := List.Perm.refl tasks

theorem ok_of_toOption {r : Except PurgeError Store} (h : r.toOption.isSome = true) :
    r = .ok (r.toOption.get h) := by
  cases r with
  | error err => cases h
  | ok s => rfl

theorem sharedEntity_anchored : purgeFirst.Anchored sharedEntity := by
  constructor
  · intro e node hnode _
    have he : e = "Ada" := by
      by_contra hne
      have hnone : sharedEntity.getNode e = none := by
        unfold Store.getNode sharedEntity
        rw [Graph.getNode_upsertNode,if_neg hne]
        rfl
      rw [hnone] at hnode
      cases hnode
    rw [he]
    decide
  · intro p ids hids _
    cases hids

theorem purge_leaves_no_reference_cached :
    ∃ s', purgeKgContributions smallConfig
        (cachedEntities fun c => if c = "c2" then [["Ada"]] else []) purgeFirst sharedEntity =
          .ok s' ∧
      (purgeFirst.LeavesNoReference sharedEntity s' ↔ purgeFirst.Repairs sharedEntity smallConfig
        (cachedEntities fun c => if c = "c2" then [["Ada"]] else [])) ∧
      (purgeFirst.LeavesNoReference sharedEntity s' → purgeFirst.GraphClean s') :=
  have hok := ok_of_toOption (r := purgeKgContributions smallConfig
    (cachedEntities fun c => if c = "c2" then [["Ada"]] else []) purgeFirst sharedEntity)
    (by decide)
  ⟨_,hok,purge_leaves_no_reference hok sharedEntity_anchored⟩

/-- Without a cached result of the chunk that stays, the entity keeps the deleted one. -/
theorem not_clean_without_cache :
    purgeFirst.Anchored sharedEntity ∧
      ∃ s', purgeKgContributions smallConfig (cachedEntities fun _ => []) purgeFirst
          sharedEntity = .ok s' ∧
        "c1" ∉ s'.textChunks ∧ ¬ purgeFirst.LeavesNoReference sharedEntity s' := by
  have hok := ok_of_toOption (r := purgeKgContributions smallConfig (cachedEntities fun _ => [])
    purgeFirst sharedEntity) (by decide)
  refine ⟨sharedEntity_anchored,_,hok,by decide,fun hclean => ?_⟩
  have hada : "Ada" ∈ purgeFirst.entities sharedEntity := by decide
  apply hclean.1 "Ada" hada
  exact .inl ⟨⟨true,["c1", "c2"]⟩,by decide,"c1",by decide,by decide⟩

end LightRAG.Knowledge
