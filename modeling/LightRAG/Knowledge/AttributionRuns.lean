import LightRAG.Framework.Run
import LightRAG.Knowledge.AttributionMerge
import LightRAG.Knowledge.PurgeRun

/-!
# Attribution through a purge

Where the tracking rows are exact, the evidence of an object is its row.
-/

namespace LightRAG.Knowledge
open Option

section

variable {cfg : KgConfig} {env : RebuildEnv} {i : Inspection} {s s' : Store} {a : Attribution}
  {e : Name} {p : Pair} {c : ChunkId} {row : Option (List ChunkId)} {node : Node}
  {chunks : Set ChunkId} {ids chunkIds : List ChunkId}

theorem existingSources_of_row (hids : ∀ c ∈ row.getD [], c ≠ "") (hnonempty : row ≠ some [])
    (hrowless : row = none → truthy ids = []) :
    existingSources row (truthy ids) = row.getD [] := by
  unfold existingSources
  rw [truthy_eq_self hids]
  cases row with
  | none =>
    exact hrowless rfl
  | some r =>
    rw [if_neg]
    exact fun hnil => hnonempty (congrArg some hnil)

theorem EntityTracked.evidence (h : EntityTracked row (some node) chunks) :
    existingSources row (truthy node.sourceId) = row.getD [] :=
  existingSources_of_row h.row_ids h.nonempty (h.rowless node rfl)

theorem RelationTracked.evidence {edge : Edge} (h : RelationTracked row (some edge) chunks)
    (hids : edge.sourceId = some ids) :
    existingSources row (truthy ids) = row.getD [] := by
  obtain ⟨ids',hids',hrowless⟩ := h.rowless edge rfl
  rw [hids] at hids'
  obtain rfl := some.inj hids'
  exact existingSources_of_row (fun c hc => (h.ids c ((h.mem c).mp hc)).1) h.nonempty hrowless

theorem EntityTracked.gone : EntityTracked none none ∅ where
  nodup := List.nodup_nil
  mem c := by simp
  ids c hc := absurd hc (Set.notMem_empty c)
  present h := absurd rfl h
  rowless n h := by cases h
  label n h := by cases h
  nonempty h := by cases h

theorem RelationTracked.gone : RelationTracked none none ∅ where
  nodup := List.nodup_nil
  mem c := by simp
  ids c hc := absurd hc (Set.notMem_empty c)
  present h := absurd rfl h
  rowless d h := by cases h
  nonempty h := by cases h

/-- Each object of a purged chunk is looked at. -/
structure Inspection.Covers (i : Inspection) (a : Attribution) : Prop where
  entity : ∀ e c, c ∈ a.entities e → c ∈ i.chunkIds → e ∈ i.entities
  relation : ∀ p c, c ∈ a.relations p → c ∈ i.chunkIds → p ∈ i.relations

namespace Tracked

variable (h : Tracked s a)

include h

theorem evidencePurged_entity (hnode : s.getNode e = some node) :
    evidencePurged chunkIds (s.entityRow e) node.sourceId ↔ ∀ c ∈ a.entities e, c ∈ chunkIds := by
  have he := h.entity e
  rw [hnode] at he
  unfold evidencePurged
  rw [he.evidence]
  simp only [he.mem]

theorem removed_chunks (hgone : i.removesEntity s e) : ∀ c ∈ a.entities e, c ∈ i.chunkIds := by
  obtain ⟨-,node,hnode,-,hpurged⟩ := hgone
  exact (h.evidencePurged_entity hnode).mp hpurged

theorem evidencePurged_relation (hids : relationSources s p = some ids) :
    evidencePurged chunkIds (s.relationRow p) ids ↔ ∀ c ∈ a.relations p, c ∈ chunkIds := by
  have hp := h.relation p
  obtain ⟨edge,hedge⟩ := ne_none_iff_exists'.mp (edge_of_sources hids)
  have hsource : edge.sourceId = some ids := by
    rw [relationSources,hedge] at hids
    exact hids
  rw [hedge] at hp
  unfold evidencePurged
  rw [hp.evidence hsource]
  simp only [hp.mem]

theorem sources_of_edge {edge : Edge} (hedge : s.getEdge p = some edge) :
    ∃ ids, relationSources s p = some ids := by
  obtain ⟨ids,hids,-⟩ := (h.relation p).rowless edge hedge
  refine ⟨ids,?_⟩
  rw [relationSources,hedge]
  exact hids

theorem mem_entitySurvivors (chunkIds : List ChunkId) (c : ChunkId)
    (hnode : s.getNode e = some node) :
    c ∈ entitySurvivors chunkIds s e ↔ c ∈ a.entities e ∧ c ∉ chunkIds := by
  have he := h.entity e
  rw [hnode] at he
  unfold entitySurvivors
  rw [hnode]
  rw [mem_survivors,he.evidence,he.mem]

theorem mem_relationSurvivors (hids : relationSources s p = some ids) :
    c ∈ relationSurvivors chunkIds s p ↔ c ∈ a.relations p ∧ c ∉ chunkIds := by
  have hp := h.relation p
  obtain ⟨edge,hedge⟩ := ne_none_iff_exists'.mp (edge_of_sources hids)
  have hsource : edge.sourceId = some ids := by
    rw [relationSources,hedge] at hids
    exact hids
  rw [hedge] at hp
  unfold relationSurvivors
  rw [hids]
  rw [mem_survivors,hp.evidence hsource,hp.mem]

theorem entity_inspected (hcovers : i.Covers a) (hc : c ∈ a.entities e) (hin : c ∈ i.chunkIds) :
    i.removesEntity s e ∨ i.reworksEntity s e := by
  have he := h.entity e
  have hlisted := hcovers.entity e c hc hin
  have hrow : s.entityRow e ≠ none := by
    intro hnone
    rw [← he.mem,hnone] at hc
    cases hc
  obtain ⟨node,hnode⟩ := ne_none_iff_exists'.mp (he.present hrow)
  have hlabel := he.label node hnode
  by_cases hpurged : evidencePurged i.chunkIds (s.entityRow e) node.sourceId
  · exact .inl ⟨hlisted,node,hnode,hlabel,hpurged⟩
  · refine .inr ⟨hlisted,⟨node,hnode,hlabel⟩,?_,.inl ?_⟩
    · rintro ⟨node',hnode',-,hpurged'⟩
      rw [hnode] at hnode'
      obtain rfl := some.inj hnode'
      exact hpurged hpurged'
    · refine .inr ⟨c,?_,hin⟩
      rw [mem_truthy,he.mem]
      exact ⟨hc,he.ids c hc⟩

theorem relation_inspected (hcovers : i.Covers a) (hc : c ∈ a.relations p)
    (hin : c ∈ i.chunkIds) :
    s.getEdge p ≠ none ∧ (i.removesRelation s p ∨ i.reworksRelation s p) := by
  have hp := h.relation p
  have hlisted := hcovers.relation p c hc hin
  have hrow : s.relationRow p ≠ none := by
    intro hnone
    rw [← hp.mem,hnone] at hc
    cases hc
  obtain ⟨edge,hedge⟩ := ne_none_iff_exists'.mp (hp.present hrow)
  obtain ⟨ids,hids⟩ := h.sources_of_edge hedge
  refine ⟨edge_of_sources hids,?_⟩
  by_cases hpurged : evidencePurged i.chunkIds (s.relationRow p) ids
  · exact .inl (.inl ⟨hlisted,ids,hids,hpurged⟩)
  · refine .inr ⟨hlisted,?_,?_,.inl ?_⟩
    · rw [hids]
      exact some_ne_none ids
    · rintro ⟨ids',hids',hpurged'⟩
      rw [hids] at hids'
      obtain rfl := some.inj hids'
      exact hpurged hpurged'
    · refine .inr ⟨c,?_,hin⟩
      rw [mem_truthy,hp.mem]
      exact ⟨hc,(hp.ids c hc).1⟩

theorem purge_entity (hcovers : i.Covers a) (ho : i.Outcome cfg env s s') :
    EntityTracked (s'.entityRow e) (s'.getNode e) ((a.purge i.chunkIds).entities e) := by
  have he := h.entity e
  by_cases hgone : i.removesEntity s e
  · have hnone : (a.purge i.chunkIds).entities e = ∅ := by
      rw [Set.eq_empty_iff_forall_notMem]
      exact fun c hc => hc.2 (h.removed_chunks hgone c hc.1)
    rw [(ho.entity_removed e hgone).1,(ho.entity_removed e hgone).2,hnone]
    exact EntityTracked.gone
  by_cases hreworks : i.reworksEntity s e
  · obtain ⟨-,⟨node,hnode,hlabel⟩,hkept,-⟩ := id hreworks
    have hnode' : ∃ n, s'.getNode e = some n ∧ n.hasEntityId = true := by
      by_cases hrewrites : i.rewritesEntity cfg env s e
      · exact ⟨_,ho.entity_rewritten e node hreworks hnode hrewrites,hlabel⟩
      · exact ⟨node,(ho.entity_stale e hreworks hrewrites).trans hnode,hlabel⟩
    obtain ⟨n,hn,hlabel'⟩ := hnode'
    rw [ho.entity_row e hreworks,hn]
    constructor
    · rw [entitySurvivors,hnode]
      have hsource := he.nodup
      rw [hnode] at he
      rw [← he.evidence] at hsource
      exact hsource.filter _
    · intro c
      rw [getD_some,h.mem_entitySurvivors i.chunkIds c hnode]
      rfl
    · exact fun c hc => he.ids c hc.1
    · exact fun _ => some_ne_none n
    · exact fun _ _ hnone => absurd hnone (some_ne_none _)
    · intro n' hn'
      obtain rfl := some.inj hn'
      exact hlabel'
    · intro hempty
      apply hkept
      refine ⟨node,hnode,hlabel,(h.evidencePurged_entity hnode).mpr fun c hc => ?_⟩
      by_contra hin
      have hmem := (h.mem_entitySurvivors i.chunkIds c hnode).mpr ⟨hc,hin⟩
      rw [some.inj hempty] at hmem
      cases hmem
  · have hsame : (a.purge i.chunkIds).entities e = a.entities e := by
      ext c
      constructor
      · exact fun hc => hc.1
      · intro hc
        refine ⟨hc,fun hin => ?_⟩
        obtain hr | hr := h.entity_inspected hcovers hc hin
        · exact hgone hr
        · exact hreworks hr
    rw [(ho.entity_other e hgone hreworks).1,(ho.entity_other e hgone hreworks).2,hsame]
    exact he

theorem purge_relation (hcovers : i.Covers a) (ho : i.Outcome cfg env s s') :
    RelationTracked (s'.relationRow p) (s'.getEdge p) ((a.purge i.chunkIds).relations p) := by
  have hp := h.relation p
  by_cases hgone : s.getEdge p ≠ none ∧ i.removesRelation s p
  · have hnone : (a.purge i.chunkIds).relations p = ∅ := by
      rw [Set.eq_empty_iff_forall_notMem]
      intro c hc
      apply hc.2
      obtain ⟨-,ids,hids,hpurged⟩ | ⟨e,he,hends⟩ := hgone.2
      · exact (h.evidencePurged_relation hids).mp hpurged c hc.1
      · exact h.removed_chunks hends c (h.ends p e he hc.1)
    rw [(ho.relation_removed p hgone.1 hgone.2).1,(ho.relation_removed p hgone.1 hgone.2).2,hnone]
    exact RelationTracked.gone
  by_cases hreworks : i.reworksRelation s p
  · obtain ⟨-,hsources,hkept,-⟩ := id hreworks
    obtain ⟨ids,hids⟩ := ne_none_iff_exists'.mp hsources
    have hstays : ¬ i.removesRelation s p := fun hr => hgone ⟨edge_of_sources hids,hr⟩
    have hmem : ∀ c, c ∈ evidenceOnly (relationSurvivors i.chunkIds s p) ↔
        c ∈ a.relations p ∧ c ∉ i.chunkIds := by
      intro c
      rw [mem_evidenceOnly,h.mem_relationSurvivors hids]
      constructor
      · exact fun hc => hc.1
      · exact fun hc => ⟨hc,hp.ids c hc.1⟩
    have hedge' : ∃ d, s'.getEdge p = some d ∧ ∃ ids', d.sourceId = some ids' := by
      by_cases hrewrites : i.rewritesRelation cfg env s p
      · exact ⟨_,ho.relation_rewritten p hreworks hstays hrewrites,_,rfl⟩
      · obtain ⟨edge,hedge⟩ := ne_none_iff_exists'.mp (edge_of_sources hids)
        obtain ⟨ids',hids',-⟩ := hp.rowless edge hedge
        exact ⟨edge,(ho.relation_stale p hreworks hstays hrewrites).trans hedge,ids',hids'⟩
    obtain ⟨d,hd,ids',hids'⟩ := hedge'
    rw [ho.relation_row p hreworks hstays,hd]
    constructor
    · rw [relationSurvivors,hids]
      obtain ⟨edge,hedge⟩ := ne_none_iff_exists'.mp (edge_of_sources hids)
      have hsource : edge.sourceId = some ids := by
        rw [relationSources,hedge] at hids
        exact hids
      have hnodup := hp.nodup
      rw [hedge] at hp
      rw [← hp.evidence hsource] at hnodup
      exact (hnodup.filter _).filter _
    · intro c
      rw [getD_some,hmem]
      rfl
    · exact fun c hc => hp.ids c hc.1
    · exact fun _ => some_ne_none d
    · intro d' hd'
      obtain rfl := some.inj hd'
      exact ⟨ids',hids',fun hnone => absurd hnone (some_ne_none _)⟩
    · intro hempty
      apply hkept
      refine ⟨ids,hids,(h.evidencePurged_relation hids).mpr fun c hc => ?_⟩
      by_contra hin
      have hleft := (hmem c).mpr ⟨hc,hin⟩
      rw [some.inj hempty] at hleft
      cases hleft
  · have hsame : (a.purge i.chunkIds).relations p = a.relations p := by
      ext c
      constructor
      · exact fun hc => hc.1
      · intro hc
        refine ⟨hc,fun hin => ?_⟩
        obtain ⟨hedge,hr | hr⟩ := h.relation_inspected hcovers hc hin
        · exact hgone ⟨hedge,hr⟩
        · exact hreworks hr
    rw [(ho.relation_other p hgone hreworks).1,(ho.relation_other p hgone hreworks).2,hsame]
    exact hp

theorem purge (hcovers : i.Covers a) (ho : i.Outcome cfg env s s') :
    Tracked s' (a.purge i.chunkIds) where
  entity _ := h.purge_entity hcovers ho
  relation _ := h.purge_relation hcovers ho
  ends p e he _ hc := ⟨h.ends p e he hc.1,hc.2⟩

theorem present : (∀ e c, c ∈ a.entities e → s.getNode e ≠ none) ∧
    ∀ p c, c ∈ a.relations p → s.getEdge p ≠ none := by
  constructor
  · intro e c hc
    apply (h.entity e).present
    intro hnone
    rw [← (h.entity e).mem,hnone] at hc
    cases hc
  · intro p c hc
    apply (h.relation p).present
    intro hnone
    rw [← (h.relation p).mem,hnone] at hc
    cases hc

end Tracked

end

end LightRAG.Knowledge

/-!
## Attribution over runs

Merge calls and purges of whole documents follow each other, with the bookkeeping of the pipeline
between them.
-/

namespace LightRAG.Knowledge
open Option

def wholeDocument (docId : DocId) (chunkIds : List ChunkId) (policy : RebuildPolicy) : PurgeCall :=
  ⟨docId, chunkIds, none, none, false, policy⟩

inductive KgAction
  | bookkeeping
  | merge (call : MergeCall)
  | purge (docId : DocId) (chunkIds : List ChunkId) (policy : RebuildPolicy) (env : RebuildEnv)

inductive KgStep (cfg : KgConfig) : Store × Attribution → KgAction → Store × Attribution → Prop
  | bookkeeping {s : Store} {a : Attribution} (rows : Dict DocId StatusRow)
      (vdb texts : List ChunkId) :
      KgStep cfg (s, a) .bookkeeping
        ({ s with docStatus := rows, chunksVdb := vdb, textChunks := texts }, a)
  | merge {s s' : Store} {a : Attribution} {call : MergeCall}
      (h : mergeNodesAndEdges cfg call s = some s') :
      KgStep cfg (s, a) (.merge call) (s', a.merge call.chunkResults)
  | purge {s s' : Store} {a : Attribution} {docId : DocId} {chunkIds : List ChunkId}
      {policy : RebuildPolicy} {env : RebuildEnv}
      (h : purgeKgContributions cfg env (wholeDocument docId chunkIds policy) s = .ok s') :
      KgStep cfg (s, a) (.purge docId chunkIds policy env) (s', a.purge chunkIds)

/-- Each relation merge of the call brings its chunks to both ends when it comes to run, and no
chunk id is a placeholder. -/
def MergeCall.Attributes (cfg : KgConfig) (call : MergeCall) (s : Store) : Prop :=
  (∀ e ∈ call.edges, ∀ c ∈ chunksOf e.2, c ∉ relationNoEvidenceSourceIds) ∧
    ∀ s₁ s₂, prewriteAnchors call s = some s₁ → mergeNodes cfg call.nodes s₁ = some s₂ →
      KeepsAll cfg call.edges s₂

def PurgeCall.LooksAtRows (call : PurgeCall) (s : Store) : Prop :=
  (∀ e, ∀ c ∈ (s.entityRow e).getD [], c ∈ call.chunkIds → e ∈ (call.inspection s).entities) ∧
    ∀ p, ∀ c ∈ (s.relationRow p).getD [], c ∈ call.chunkIds → p ∈ (call.inspection s).relations

def KgAction.Keeps (cfg : KgConfig) (s : Store) : KgAction → Prop
  | .bookkeeping => True
  | .merge call => call.Attributes cfg s
  | .purge docId chunkIds policy _ => (wholeDocument docId chunkIds policy).LooksAtRows s

def KeepingStep (cfg : KgConfig) (x : Store × Attribution) (act : KgAction)
    (y : Store × Attribution) : Prop :=
  KgStep cfg x act y ∧ act.Keeps cfg x.1

def Store.empty : Store where
  graph := Graph.empty
  entityChunks := Dict.empty
  relationChunks := Dict.empty
  fullEntities := Dict.empty
  fullRelations := Dict.empty
  docStatus := Dict.empty
  chunksVdb := []
  textChunks := []

/-- An object with a chunk left is in the graph. -/
def Store.Holds (s : Store) (a : Attribution) : Prop :=
  (∀ e c, c ∈ a.entities e → s.getNode e ≠ none) ∧
    ∀ p c, c ∈ a.relations p → s.getEdge p ≠ none

section

variable {cfg : KgConfig} {env : RebuildEnv} {s s' : Store} {a : Attribution} {call : MergeCall}
  {purge : PurgeCall} {act : KgAction} {x y : Store × Attribution}

theorem Tracked.empty : Tracked Store.empty Attribution.none where
  entity _ := EntityTracked.gone
  relation _ := RelationTracked.gone
  ends _ _ _ c hc := absurd hc (Set.notMem_empty c)

theorem Tracked.same (h : Tracked s a) (hsame : s.SameKnowledge s') : Tracked s' a := by
  obtain ⟨hgraph,hentities,hrelations⟩ := hsame
  constructor
  · intro e
    unfold Store.entityRow Store.getNode
    rw [hgraph,hentities]
    exact h.entity e
  · intro p
    unfold Store.relationRow Store.getEdge
    rw [hgraph,hrelations]
    exact h.relation p
  · exact h.ends

theorem prewriteAnchors_same (h : prewriteAnchors call s = some s') : s.SameKnowledge s' := by
  unfold prewriteAnchors at h
  split at h
  · unfold markGraphMutationStarted at h
    split at h
    · cases h
    · obtain rfl := some.inj h
      exact ⟨rfl,rfl,rfl⟩
  · obtain rfl := some.inj h
    exact ⟨rfl,rfl,rfl⟩

theorem Tracked.mergeCall (h : Tracked s a) (hcall : call.Attributes cfg s)
    (hmerge : mergeNodesAndEdges cfg call s = some s') :
    Tracked s' (a.merge call.chunkResults) := by
  obtain ⟨s₁,hanchors,hrest⟩ := bind_eq_some_iff.mp hmerge
  obtain ⟨s₂,hnodes,hedges⟩ := bind_eq_some_iff.mp hrest
  have hprepared := h.same (prewriteAnchors_same hanchors)
  have hentities := (hprepared.mergeNodesAll hnodes).1
  have hkeeps := hcall.2 s₁ s₂ hanchors hnodes
  have hall := (hentities.mergeEdgesAll hkeeps hcall.1 hedges).1
  rw [foldl_eq_merge call.nodes_perm call.edges_perm] at hall
  exact hall

theorem Attribution.purge_of_unnamed {chunkIds : List ChunkId}
    (hentities : ∀ e, ∀ c ∈ a.entities e, c ∉ chunkIds)
    (hrelations : ∀ p, ∀ c ∈ a.relations p, c ∉ chunkIds) : a.purge chunkIds = a := by
  rw [Attribution.mk.injEq]
  constructor
  · funext e
    ext c
    exact ⟨fun hc => hc.1,fun hc => ⟨hc,hentities e c hc⟩⟩
  · funext p
    ext c
    exact ⟨fun hc => hc.1,fun hc => ⟨hc,hrelations p c hc⟩⟩

theorem Tracked.purgeCall (h : Tracked s a) (hlooks : purge.LooksAtRows s)
    (hpurge : purgeKgContributions cfg env purge s = .ok s') :
    Tracked s' (a.purge purge.chunkIds) := by
  have hentity : ∀ e, ∀ c ∈ a.entities e, c ∈ purge.chunkIds →
      e ∈ (purge.inspection s).entities :=
    fun e c hc => hlooks.1 e c (((h.entity e).mem c).mpr hc)
  have hrelation : ∀ p, ∀ c ∈ a.relations p, c ∈ purge.chunkIds →
      p ∈ (purge.inspection s).relations :=
    fun p c hc => hlooks.2 p c (((h.relation p).mem c).mpr hc)
  obtain ⟨hdone,hsame⟩ | ⟨-,rows,s₂,hrebuild,hsame⟩ := purge_ok hpurge
  · have hunnamed : a.purge purge.chunkIds = a := by
      apply Attribution.purge_of_unnamed
      · intro e c hc hin
        obtain hcommitted | hnil := hdone
        · have hlisted := hentity e c hc hin
          unfold PurgeCall.inspection at hlisted
          simp [hcommitted] at hlisted
        · rw [hnil] at hin
          cases hin
      · intro p c hc hin
        obtain hcommitted | hnil := hdone
        · have hlisted := hrelation p c hc hin
          unfold PurgeCall.inspection at hlisted
          simp [hcommitted] at hlisted
        · rw [hnil] at hin
          cases hin
    rw [hunnamed]
    exact h.same hsame
  · have hrows : Tracked { s with docStatus := rows } a := h.same ⟨rfl,rfl,rfl⟩
    have hcovers : (purge.inspection s).Covers a := ⟨hentity,hrelation⟩
    exact (hrows.purge hcovers (outcome hrebuild)).same hsame

theorem Tracked.step (h : Tracked x.1 x.2) (hstep : KeepingStep cfg x act y) :
    Tracked y.1 y.2 := by
  obtain ⟨hstep,hkeeps⟩ := hstep
  cases hstep with
  | bookkeeping rows vdb texts => exact h.same ⟨rfl,rfl,rfl⟩
  | merge hmerge => exact h.mergeCall hkeeps hmerge
  | purge hpurge => exact h.purgeCall hkeeps hpurge

/-- In a run from empty stores whose actions all keep the tracking exact, the rows name just the
chunks that were merged and not purged, and no object that has one is missing. -/
theorem attribution_exact {acts : List KgAction}
    (h : Run (KeepingStep cfg) (Store.empty, Attribution.none) acts (s, a)) :
    Exact s a ∧ s.Holds a := by
  have hsteps : ∀ (x : Store × Attribution) (act : KgAction) (y : Store × Attribution),
      KeepingStep cfg x act y → Tracked x.1 x.2 → Tracked y.1 y.2 :=
    fun x act y hstep hx => hx.step hstep
  have htracked : Tracked s a :=
    h.preserves (I := fun x => Tracked x.1 x.2) hsteps Tracked.empty
  exact ⟨htracked.exact,htracked.present⟩

end

def introducesRelation (c : ChunkId) : ChunkResult :=
  ⟨[("Ada", [c]), ("Bob", [c])], [(("Ada", "Bob"), [c])]⟩

def mentionsRelation (c : ChunkId) : ChunkResult := ⟨[], [(("Ada", "Bob"), [c])]⟩

def mergeInOrder (docId : DocId) (result : ChunkResult) : MergeCall where
  docId := docId
  anchored := true
  chunkResults := [result]
  nodes := (allNodes [result]).entries
  nodes_perm := List.Perm.refl _
  edges := (allEdges [result]).entries
  edges_perm := List.Perm.refl _

def admitted : Dict DocId StatusRow :=
  (Dict.empty.set "doc-1" ⟨none, none, none⟩).set "doc-2" ⟨none, none, none⟩

def admittedStore : Store := { Store.empty with docStatus := admitted }

/-- Nothing is cached, and no task fails. -/
def uncached : RebuildEnv where
  cachedResults _ := []
  fault _ := .none
  schedule := id
  schedule_perm tasks := List.Perm.refl tasks

theorem ok_of_isSome {r : Except PurgeError Store} (h : r.toOption.isSome = true) :
    r = .ok (r.toOption.get h) := by
  cases r with
  | error err => cases h
  | ok s => rfl

theorem mem_keys_of_mem {α : Type} [DecidableEq α] {d : Dict α (List ChunkId)} {k : α} {c : ChunkId}
    (h : c ∈ (d.get k).getD []) : k ∈ d.keys := by
  rw [Dict.mem_keys]
  intro hnone
  rw [hnone] at h
  cases h

def onlyMerge : MergeCall := mergeInOrder "doc-1" (introducesRelation "c1")

def roomyConfig : KgConfig := ⟨10, 10, .keep⟩

theorem onlyMerge_attributes : onlyMerge.Attributes roomyConfig admittedStore := by
  have hchunk : ∀ c ∈ chunksOf ["c1"], c = "c1" := fun c hc => List.mem_singleton.mp hc.1
  constructor
  · intro e he c hc
    obtain rfl := List.mem_singleton.mp he
    rw [hchunk c hc]
    decide
  · intro s₁ s₂ hanchors hnodes
    obtain rfl := some.inj hanchors
    obtain rfl := some.inj hnodes
    refine ⟨fun _ c hc => .inl ?_,fun _ _ => trivial⟩
    rw [hchunk c hc]
    decide

def roomyMerged : Store :=
  (mergeNodesAndEdges roomyConfig onlyMerge admittedStore).get (by decide)

theorem attribution_exact_after_purge : ∃ s a,
    Run (KeepingStep roomyConfig) (Store.empty, Attribution.none)
      [.bookkeeping, .merge onlyMerge, .purge "doc-1" ["c1"] .bestEffort uncached] (s, a) ∧
      Exact s a ∧ s.Holds a := by
  have hmerge : mergeNodesAndEdges roomyConfig onlyMerge admittedStore = some roomyMerged :=
    Option.eq_some_of_isSome (by decide)
  have hpurge := ok_of_isSome (r := purgeKgContributions roomyConfig uncached
    (wholeDocument "doc-1" ["c1"] .bestEffort) roomyMerged) (by decide)
  have hlooks : (wholeDocument "doc-1" ["c1"] .bestEffort).LooksAtRows roomyMerged := by
    have hkeys : (∀ e ∈ roomyMerged.entityChunks.keys,
          e ∈ ((wholeDocument "doc-1" ["c1"] .bestEffort).inspection roomyMerged).entities) ∧
        ∀ p ∈ roomyMerged.relationChunks.keys,
          p ∈ ((wholeDocument "doc-1" ["c1"] .bestEffort).inspection roomyMerged).relations := by
      decide
    exact ⟨fun e c hc _ => hkeys.1 e (mem_keys_of_mem hc),
      fun p c hc _ => hkeys.2 p (mem_keys_of_mem hc)⟩
  have hgranted : KeepingStep roomyConfig (Store.empty, Attribution.none) .bookkeeping
      (admittedStore, Attribution.none) := ⟨.bookkeeping admitted [] [],trivial⟩
  have hrun : Run (KeepingStep roomyConfig) (Store.empty, Attribution.none)
      [.bookkeeping, .merge onlyMerge, .purge "doc-1" ["c1"] .bestEffort uncached] _ :=
    .cons hgranted (.cons ⟨.merge hmerge,onlyMerge_attributes⟩
      (.cons ⟨.purge hpurge,hlooks⟩ (.nil _)))
  exact ⟨_,_,hrun,attribution_exact hrun⟩

def oneChunkConfig : KgConfig := ⟨10, 1, .keep⟩

def laterMerge : MergeCall := mergeInOrder "doc-2" (mentionsRelation "c2")

def firstMerged : Store :=
  (mergeNodesAndEdges oneChunkConfig onlyMerge admittedStore).get (by decide)

def laterMerged : Store :=
  (mergeNodesAndEdges oneChunkConfig laterMerge firstMerged).get (by decide)

def firstPurged : Store :=
  (purgeKgContributions oneChunkConfig uncached (wholeDocument "doc-1" ["c1"] .bestEffort)
    laterMerged).toOption.get (by decide)

/-- The relation of a full row takes on a chunk of a second document, its ends do not: the purge of
the first document then removes what the second was merged into. -/
theorem not_exact_over_limit : ∃ s s' a a',
    Run (KgStep oneChunkConfig) (Store.empty, Attribution.none)
      [.bookkeeping, .merge onlyMerge, .merge laterMerge] (s, a) ∧
    ¬ Exact s a ∧
    KgStep oneChunkConfig (s, a) (.purge "doc-1" ["c1"] .bestEffort uncached) (s', a') ∧
    "c2" ∈ a'.relations s("Ada", "Bob") ∧ s'.getEdge s("Ada", "Bob") = none ∧
    "c2" ∈ a'.entities "Ada" ∧ s'.getNode "Ada" = none := by
  have hfirst : mergeNodesAndEdges oneChunkConfig onlyMerge admittedStore = some firstMerged :=
    Option.eq_some_of_isSome (by decide)
  have hlater : mergeNodesAndEdges oneChunkConfig laterMerge firstMerged = some laterMerged :=
    Option.eq_some_of_isSome (by decide)
  have hpurge : purgeKgContributions oneChunkConfig uncached
      (wholeDocument "doc-1" ["c1"] .bestEffort) laterMerged = .ok firstPurged :=
    ok_of_isSome (by decide)
  have hrun : Run (KgStep oneChunkConfig) (Store.empty, Attribution.none)
      [.bookkeeping, .merge onlyMerge, .merge laterMerge] _ :=
    .cons (t := (admittedStore, Attribution.none)) (.bookkeeping admitted [] [])
      (.cons (.merge hfirst) (.cons (.merge hlater) (.nil _)))
  have hrelation : "c2" ∈ ((Attribution.none.merge onlyMerge.chunkResults).merge
      laterMerge.chunkResults).relations s("Ada", "Bob") :=
    .inr ⟨by decide,by decide,by decide⟩
  have hentity : "c2" ∈ ((Attribution.none.merge onlyMerge.chunkResults).merge
      laterMerge.chunkResults).entities "Ada" :=
    .inr ⟨by decide,.inr ⟨s("Ada", "Bob"),by decide,by decide,by decide⟩⟩
  refine ⟨_,_,_,_,hrun,fun hexact => ?_,.purge hpurge,⟨hrelation,by decide⟩,by decide,
    ⟨hentity,by decide⟩,by decide⟩
  have hin := (hexact.entity_mem "Ada" "c2").mpr hentity
  exact absurd hin (by decide)

end LightRAG.Knowledge
