import LightRAG.Knowledge.AttributionRuns
import LightRAG.Knowledge.WeightedMerge

/-!
# Merging a batch again

A batch that has been merged is tracked.
-/

namespace LightRAG.Knowledge
open List Option Function

namespace DescribedStore

structure Invariant (cfg : MergeConfig) (s : DescribedStore) : Prop where
  settled : Settled cfg.kg s.store
  weighed : ∀ p d, s.store.getEdge p = some d →
    (evidenceCount (d.sourceId.getD []) : ℚ) ≤ s.edgeWeight p

section

variable {cfg : MergeConfig} {name : Name} {p : Pair} {s s' s'' : DescribedStore}
  {data : List Extracted} {relations : List ExtractedRelation}
  {nodes : List (Name × List Extracted)} {edges : List (Pair × List ExtractedRelation)}

def Evident (edges : List (Pair × List ExtractedRelation)) : Prop :=
  ∀ e ∈ edges, ∀ dp ∈ e.2, dp.sourceId ∉ relationNoEvidenceSourceIds

theorem not_placeholder (h : ∀ dp ∈ relations, dp.sourceId ∉ relationNoEvidenceSourceIds) :
    ∀ c ∈ chunksOf (relations.map fun dp => dp.sourceId), c ∉ relationNoEvidenceSourceIds := by
  intro c hc
  obtain ⟨dp,hdp,rfl⟩ := mem_map.mp hc.1
  exact h dp hdp

theorem Invariant.mergeNode (h : Invariant cfg s) (hmerge : s.mergeNode cfg name data = some s') :
    Invariant cfg s' ∧ Grows s.store s'.store := by
  obtain ⟨hstore,-,hweight,-⟩ := mergeNode_cases hmerge
  obtain ⟨hsettled,hgrows⟩ := h.settled.mergeNodes hstore
  obtain ⟨-,-,-,hrelations⟩ := (h.settled.entity name).mergeNodes_effect hstore
  refine ⟨⟨hsettled,?_⟩,hgrows⟩
  intro p d hd
  rw [(hrelations p).2] at hd
  rw [hweight]
  exact h.weighed p d hd

theorem Invariant.mergeEdge (h : Invariant cfg s)
    (hplace : ∀ dp ∈ relations, dp.sourceId ∉ relationNoEvidenceSourceIds)
    (hmerge : s.mergeEdge cfg p relations = some s') :
    Invariant cfg s' ∧ Grows s.store s'.store := by
  rcases mergeEdge_cases hmerge with ⟨-,rfl⟩ | ⟨hp,hstore,heffect⟩
  · exact ⟨h,Grows.refl s'.store⟩
  obtain ⟨hsettled,hgrows⟩ := h.settled.mergeEdges (not_placeholder hplace) hstore
  refine ⟨⟨hsettled,?_⟩,hgrows⟩
  intro q d hd
  rcases heffect with hsame | hmerged
  · rw [hsame.edges] at hd
    rw [hsame.weight]
    exact h.weighed q d hd
  · rcases h.settled.mergeEdges_effect hstore with ⟨hloop,-⟩ | ⟨-,hrelation⟩
    · exact absurd hloop hp
    by_cases hq : q = p
    · rw [hq,hrelation.edge] at hd
      rw [hq,hmerged.weight,← some.inj hd]
      exact le_max_right _ _
    · rw [(hrelation.others q hq).1] at hd
      rw [hmerged.weights q hq]
      exact h.weighed q d hd

/-- Every chunk of some records is tracked, and their relations are in the graph. -/
structure Absorbed (nodes : List (Name × List Extracted))
    (edges : List (Pair × List ExtractedRelation)) (t : Store) : Prop where
  node : ∀ e ∈ nodes, t.getNode e.1 ≠ none ∧
    ∀ c ∈ chunksOf (e.2.map Extracted.sourceId), c ∈ (t.entityRow e.1).getD []
  edge : ∀ e ∈ edges, e.1.inf ≠ e.1.sup → t.getEdge e.1 ≠ none ∧
    ∀ c ∈ chunksOf (e.2.map fun dp => dp.sourceId), c ∈ (t.relationRow e.1).getD []

theorem Absorbed.grow {t t' : Store} (h : Absorbed nodes edges t) (hgrows : Grows t t') :
    Absorbed nodes edges t' :=
  ⟨fun e he => ⟨hgrows.node e.1 (h.node e he).1,
      fun c hc => hgrows.entity e.1 c ((h.node e he).2 c hc)⟩,fun e he hp =>
    ⟨hgrows.edge e.1 (h.edge e he hp).1,
      fun c hc => hgrows.relation e.1 c ((h.edge e he hp).2 c hc)⟩⟩

theorem Invariant.mergeAllNodes (h : Invariant cfg s)
    (hmerge : mergeAllNodes cfg nodes s = some s') :
    Invariant cfg s' ∧ Grows s.store s'.store ∧ Absorbed nodes [] s'.store := by
  induction nodes generalizing s with
  | nil =>
    obtain rfl := some.inj hmerge
    exact ⟨h,Grows.refl _,⟨fun e he => absurd he not_mem_nil,fun e he => absurd he not_mem_nil⟩⟩
  | cons e nodes ih =>
    obtain ⟨t,ht,hrest⟩ := bind_eq_some_iff.mp hmerge
    obtain ⟨hinv,hgrows⟩ := h.mergeNode ht
    obtain ⟨hinv',hgrows',habsorbed⟩ := ih hinv hrest
    refine ⟨hinv',hgrows.trans hgrows',?_,fun e he => absurd he not_mem_nil⟩
    intro e' he'
    cases mem_cons.mp he' with
    | inl hsame =>
      rw [hsame]
      have hstore := (mergeNode_cases ht).1
      have htracked := (h.settled.entity e.1).mergeNodes hstore
      obtain ⟨-,⟨n,hnode,-⟩,-⟩ := (h.settled.entity e.1).mergeNodes_effect hstore
      refine ⟨hgrows'.node e.1 (hnode ▸ some_ne_none n),?_⟩
      exact fun c hc => hgrows'.entity e.1 c ((htracked.mem c).mpr (.inr hc))
    | inr hlater => exact habsorbed.node e' hlater

theorem Invariant.absorbed_edge (h : Invariant cfg s) (hp : p.inf ≠ p.sup)
    (hmerge : s.mergeEdge cfg p relations = some s') : s'.store.getEdge p ≠ none ∧
    ∀ c ∈ chunksOf (relations.map fun dp => dp.sourceId),
      c ∈ (s'.store.relationRow p).getD [] := by
  rcases mergeEdge_cases hmerge with ⟨hloop,-⟩ | ⟨-,hstore,-⟩
  · exact absurd hloop hp
  rcases h.settled.mergeEdges_effect hstore with ⟨hloop,-⟩ | ⟨-,heffect⟩
  · exact absurd hloop hp
  rw [heffect.edge,heffect.row,h.settled.getD_row]
  refine ⟨some_ne_none _,?_⟩
  intro c hc
  exact (h.settled.relation p).mem_fullRelationIds.mpr (.inr hc)

theorem Invariant.mergeAllEdges (h : Invariant cfg s) (hplace : Evident edges)
    (hmerge : mergeAllEdges cfg edges s = some s') :
    Invariant cfg s' ∧ Grows s.store s'.store ∧ Absorbed [] edges s'.store := by
  induction edges generalizing s with
  | nil =>
    obtain rfl := some.inj hmerge
    exact ⟨h,Grows.refl _,⟨fun e he => absurd he not_mem_nil,fun e he => absurd he not_mem_nil⟩⟩
  | cons e edges ih =>
    obtain ⟨t,ht,hrest⟩ := bind_eq_some_iff.mp hmerge
    obtain ⟨hinv,hgrows⟩ := h.mergeEdge (hplace e mem_cons_self) ht
    obtain ⟨hinv',hgrows',habsorbed⟩ :=
      ih hinv (fun e' he' => hplace e' (mem_cons_of_mem _ he')) hrest
    refine ⟨hinv',hgrows.trans hgrows',fun e he => absurd he not_mem_nil,?_⟩
    intro e' he' hp
    cases mem_cons.mp he' with
    | inl hsame =>
      rw [hsame] at hp ⊢
      obtain ⟨hedge,hrow⟩ := h.absorbed_edge hp ht
      exact ⟨hgrows'.edge e.1 hedge,fun c hc => hgrows'.relation e.1 c (hrow c hc)⟩
    | inr hlater => exact habsorbed.edge e' hlater hp

theorem Invariant.mergeBatch {b : Batch} (h : Invariant cfg s) (hplace : Evident b.edges)
    (hmerge : mergeBatch cfg b s = some s') :
    Invariant cfg s' ∧ Grows s.store s'.store ∧ Absorbed b.nodes b.edges s'.store := by
  obtain ⟨t,hnodes,hedges⟩ := bind_eq_some_iff.mp hmerge
  obtain ⟨hinv,hgrows,habsorbed⟩ := h.mergeAllNodes hnodes
  obtain ⟨hinv',hgrows',habsorbed'⟩ := hinv.mergeAllEdges hplace hedges
  exact ⟨hinv',hgrows.trans hgrows',⟨(habsorbed.grow hgrows').node,habsorbed'.edge⟩⟩

theorem Invariant.mergeBatches {bs : List Batch} (h : Invariant cfg s)
    (hplace : ∀ b ∈ bs, Evident b.edges) (hmerge : mergeBatches cfg bs s = some s') :
    Invariant cfg s' ∧ Grows s.store s'.store := by
  induction bs generalizing s with
  | nil =>
    obtain rfl := some.inj hmerge
    exact ⟨h,Grows.refl _⟩
  | cons b bs ih =>
    obtain ⟨t,ht,hrest⟩ := bind_eq_some_iff.mp hmerge
    obtain ⟨hinv,hgrows,-⟩ := h.mergeBatch (hplace b mem_cons_self) ht
    obtain ⟨hinv',hgrows'⟩ := ih hinv (fun b' hb' => hplace b' (mem_cons_of_mem _ hb')) hrest
    exact ⟨hinv',hgrows.trans hgrows'⟩

structure Unchanged (s s' : DescribedStore) : Prop where
  rows : SameRows s.store s'.store
  weights : ∀ p, s'.edgeWeight p = s.edgeWeight p
  nodes : ∀ e, NoNewDuplicates (nodeFragments (s.nodeDescription e))
    (nodeFragments (s'.nodeDescription e))
  edges : ∀ p, NoNewDuplicates (splitFragments (s.edgeDescription p))
    (splitFragments (s'.edgeDescription p))

theorem Unchanged.refl (s : DescribedStore) : Unchanged s s :=
  ⟨SameRows.refl _,fun _ => rfl,fun _ => NoNewDuplicates.refl _,fun _ => NoNewDuplicates.refl _⟩

theorem Unchanged.trans (h : Unchanged s s') (h' : Unchanged s' s'') : Unchanged s s'' :=
  ⟨h.rows.trans h'.rows,fun p => (h'.weights p).trans (h.weights p),
    fun e => (h.nodes e).trans (h'.nodes e),fun p => (h.edges p).trans (h'.edges p)⟩

/-- When a batch can be merged again: its descriptions are plain, the fragments stored of its
objects are clean, and an edge still names the chunks of each of its records that has a weight. -/
structure Refeedable (cfg : DescriptionConfig) (nodes : List (Name × List Extracted))
    (edges : List (Pair × List ExtractedRelation)) (s : DescribedStore) : Prop where
  plainNode : ∀ e ∈ nodes, ∀ dp ∈ e.2, PlainDescription cfg dp.description
  plainEdge : ∀ e ∈ edges, ∀ dp ∈ e.2, PlainDescription cfg dp.description
  node : ∀ e ∈ nodes, nodeFragments (s.nodeDescription e.1) ≠ [] ∧
    ∀ f ∈ nodeFragments (s.nodeDescription e.1), CleanFragment cfg f
  edge : ∀ e ∈ edges, e.1.inf ≠ e.1.sup →
    ∀ f ∈ splitFragments (s.edgeDescription e.1), CleanFragment cfg f
  named : ∀ e ∈ edges, e.1.inf ≠ e.1.sup → ∀ dp ∈ e.2, dp.sourceId ≠ "" → dp.weight ≠ 0 →
    dp.sourceId ∈ s.alreadySourceIds e.1

theorem mem_of_mem_keptData {α : Type} {kg : KgConfig} {sourceId : α → ChunkId}
    {existingFull sourceIds : List ChunkId} {xs : List α} {x : α}
    (h : x ∈ keptData kg sourceId existingFull sourceIds xs) : x ∈ xs := by
  unfold keptData at h
  split at h
  · exact (mem_filter.mp h).1
  · exact h

theorem plain_sorted {texts : DescriptionConfig} {xs : List Extracted}
    (h : ∀ dp ∈ xs, PlainDescription texts dp.description) :
    ∀ d ∈ sortedDescriptions xs, PlainDescription texts d := by
  intro d hd
  obtain ⟨dp,hdp,rfl⟩ := mem_sortedDescriptions hd
  exact h dp hdp

theorem fragments_of_join {texts : DescriptionConfig} {fragments : List String}
    (hne : fragments ≠ []) (hclean : ∀ f ∈ fragments, CleanFragment texts f) :
    nodeFragments (joinFragments fragments) = fragments := by
  have htext := cleanText_joinFragments hne hclean
  have hnonempty : Text.strip (joinFragments fragments) ≠ "" := by
    rw [htext.strip_eq]
    intro hempty
    exact htext.nonempty (by rw [hempty]; rfl)
  rw [nodeFragments,if_neg hnonempty,htext.strip_eq,splitFragments_joinFragments hne hclean]

theorem Invariant.again_node (h : Invariant cfg s) (hthere : s.store.getNode name ≠ none)
    (hknown : ∀ c ∈ chunksOf (data.map Extracted.sourceId), c ∈ (s.store.entityRow name).getD [])
    (hplain : ∀ dp ∈ data, PlainDescription cfg.descriptions dp.description)
    (hne : nodeFragments (s.nodeDescription name) ≠ [])
    (hclean : ∀ f ∈ nodeFragments (s.nodeDescription name), CleanFragment cfg.descriptions f)
    (hmerge : s.mergeNode cfg name data = some s') :
    Unchanged s s' ∧ nodeFragments (s'.nodeDescription name) ≠ [] ∧
      ∀ f ∈ nodeFragments (s'.nodeDescription name), CleanFragment cfg.descriptions f := by
  obtain ⟨hstore,hedge,hweight,hnode⟩ := mergeNode_cases hmerge
  have hrows := h.settled.mergeNodes_known hknown hstore
  have hsame : ∀ p, NoNewDuplicates (splitFragments (s.edgeDescription p))
      (splitFragments (s'.edgeDescription p)) := by
    intro p
    rw [hedge]
    exact NoNewDuplicates.refl _
  rcases hnode with hnode | ⟨description,hsummary,hnode⟩
  · rw [hnode]
    refine ⟨⟨hrows,fun p => by rw [hweight],?_,hsame⟩,hne,hclean⟩
    intro e
    rw [hnode]
    exact NoNewDuplicates.refl _
  obtain ⟨n,hn⟩ := ne_none_iff_exists'.mp hthere
  have hfragments : s.knownFragments name = nodeFragments (s.nodeDescription name) := by
    rw [knownFragments,hn]
  generalize hkept : keptData cfg.kg Extracted.sourceId (existingEntityIds s.store name)
    (s.keptEntityIds cfg name (data.map Extracted.sourceId)) data = kept at *
  have hnew : ∀ d ∈ sortedDescriptions kept, PlainDescription cfg.descriptions d := by
    apply plain_sorted
    intro dp hdp
    rw [← hkept] at hdp
    exact hplain dp (mem_of_mem_keptData hdp)
  have hcombined : combineDescriptionsDedup cfg.descriptions
      (nodeFragments (s.nodeDescription name)) (sortedDescriptions kept) ≠ [] :=
    combined_ne_nil hclean hne
  have hall := clean_combined hclean hnew
  have hlist : s.nodeDescriptions cfg name data = combineDescriptionsDedup cfg.descriptions
      (nodeFragments (s.nodeDescription name)) (sortedDescriptions kept) := by
    rw [nodeDescriptions,hkept,hfragments]
    exact if_neg hcombined
  rw [hlist] at hsummary
  have hdescription := handleEntityRelationSummary_clean hcombined hall hsummary
  have hafter := fragments_of_join hcombined hall
  rw [← hdescription] at hafter
  refine ⟨⟨hrows,fun p => by rw [hweight],?_,hsame⟩,?_⟩
  · intro e
    rw [hnode]
    by_cases he : e = name
    · rw [he,update_self,hafter]
      exact noNewDuplicates_of_nodup _ nodup_combineDescriptionsDedup
    · rw [update_of_ne he]
      exact NoNewDuplicates.refl _
  · rw [hnode,update_self,hafter]
    exact ⟨hcombined,hall⟩

theorem Invariant.weight_again (h : Invariant cfg s) {d : Edge}
    (hedge : s.store.getEdge p = some d)
    (hknown : ∀ c ∈ chunksOf (relations.map fun dp => dp.sourceId),
      c ∈ (s.store.relationRow p).getD [])
    (hnamed : ∀ dp ∈ relations, dp.sourceId ≠ "" → dp.weight ≠ 0 →
      dp.sourceId ∈ s.alreadySourceIds p) :
    s.mergedWeight cfg p relations = s.edgeWeight p := by
  have hnone : ∀ w ∈ ((s.keptEdges cfg p relations).filter fun dp =>
      dp.sourceId ≠ "" ∧ dp.sourceId ∉ s.alreadySourceIds p).map ExtractedRelation.weight,
      w = 0 := by
    intro w hw
    obtain ⟨dp,hdp,rfl⟩ := mem_map.mp hw
    obtain ⟨hin,hnew⟩ := mem_filter.mp hdp
    rw [decide_eq_true_eq] at hnew
    by_contra hweight
    exact hnew.2 (hnamed dp (mem_of_mem_keptData hin) hnew.1 hweight)
  have hids : keptRelationIds cfg.kg s.store p (relations.map fun dp => dp.sourceId) =
      d.sourceId.getD [] := by
    rw [h.settled.kept p d hedge,keptRelationIds,h.settled.full_known hknown]
    rfl
  rw [mergedWeight,hids,sum_append,sum_eq_zero hnone,alreadyWeights,hedge]
  simp only [sum_cons,sum_nil,add_zero,zero_add]
  exact max_eq_left (h.weighed p d hedge)

theorem Invariant.again_edge (h : Invariant cfg s) (hthere : s.store.getEdge p ≠ none)
    (hknown : ∀ c ∈ chunksOf (relations.map fun dp => dp.sourceId),
      c ∈ (s.store.relationRow p).getD [])
    (hplain : ∀ dp ∈ relations, PlainDescription cfg.descriptions dp.description)
    (hclean : ∀ f ∈ splitFragments (s.edgeDescription p), CleanFragment cfg.descriptions f)
    (hnamed : ∀ dp ∈ relations, dp.sourceId ≠ "" → dp.weight ≠ 0 →
      dp.sourceId ∈ s.alreadySourceIds p)
    (hmerge : s.mergeEdge cfg p relations = some s') :
    Unchanged s s' ∧
      ∀ f ∈ splitFragments (s'.edgeDescription p), CleanFragment cfg.descriptions f := by
  rcases mergeEdge_cases hmerge with ⟨-,rfl⟩ | ⟨hp,hstore,heffect⟩
  · exact ⟨Unchanged.refl s',hclean⟩
  rcases h.settled.mergeEdges_effect hstore with ⟨hloop,-⟩ | ⟨-,hrelation⟩
  · exact absurd hloop hp
  have hrows := hrelation.known h.settled hthere hknown
  rcases heffect with hsame | hmerged
  · refine ⟨⟨hrows,fun q => by rw [hsame.weight],fun e => ?_,fun q => ?_⟩,?_⟩
    · rw [hsame.node]
      exact NoNewDuplicates.refl _
    · rw [hsame.edge]
      exact NoNewDuplicates.refl _
    · rwa [hsame.edge]
  obtain ⟨d,hd⟩ := ne_none_iff_exists'.mp hthere
  have halready : s.alreadyDescription p = splitFragments (s.edgeDescription p) := by
    rw [alreadyDescription,hd]
  have hnew : ∀ t ∈ sortedDescriptions
      ((s.keptEdges cfg p relations).map ExtractedRelation.toExtracted),
      PlainDescription cfg.descriptions t := by
    apply plain_sorted
    intro dp hdp
    obtain ⟨r,hr,rfl⟩ := mem_map.mp hdp
    exact hplain r (mem_of_mem_keptData hr)
  have hall : ∀ f ∈ s.edgeDescriptions cfg p relations, CleanFragment cfg.descriptions f := by
    rw [edgeDescriptions,halready]
    exact clean_combined hclean hnew
  have hdescription := handleEntityRelationSummary_clean hmerged.fragments hall hmerged.summary
  have hafter := splitFragments_joinFragments hmerged.fragments hall
  rw [← hdescription] at hafter
  refine ⟨⟨hrows,fun q => ?_,fun e => ?_,fun q => ?_⟩,?_⟩
  · by_cases hq : q = p
    · rw [hq,hmerged.weight]
      exact h.weight_again hd hknown hnamed
    · exact hmerged.weights q hq
  · have hends : e ∉ p ∨ s.store.getNode e ≠ none := by
      by_cases he : e ∈ p
      · exact .inr (Store.getNode_of_edge hthere he)
      · exact .inl he
    rw [hmerged.node e hends]
    exact NoNewDuplicates.refl _
  · by_cases hq : q = p
    · rw [hq,hafter]
      exact noNewDuplicates_of_nodup _ nodup_combineDescriptionsDedup
    · rw [hmerged.edge q hq]
      exact NoNewDuplicates.refl _
  · rw [hafter]
    exact hall

theorem Refeedable.next {texts : DescriptionConfig} (h : Refeedable texts nodes edges s)
    (hsame : ∀ p, s'.store.getEdge p = s.store.getEdge p)
    (hnode : ∀ e ∈ nodes, s'.nodeDescription e.1 = s.nodeDescription e.1 ∨
      (nodeFragments (s'.nodeDescription e.1) ≠ [] ∧
        ∀ f ∈ nodeFragments (s'.nodeDescription e.1), CleanFragment texts f))
    (hedge : ∀ e ∈ edges, e.1.inf ≠ e.1.sup → s'.edgeDescription e.1 = s.edgeDescription e.1 ∨
      ∀ f ∈ splitFragments (s'.edgeDescription e.1), CleanFragment texts f) :
    Refeedable texts nodes edges s' := by
  constructor
  case plainNode => exact h.plainNode
  case plainEdge => exact h.plainEdge
  case node =>
    intro e he
    cases hnode e he with
    | inl hold =>
      rw [hold]
      exact h.node e he
    | inr hnew => exact hnew
  case edge =>
    intro e he hp
    cases hedge e he hp with
    | inl hold =>
      rw [hold]
      exact h.edge e he hp
    | inr hnew => exact hnew
  case named =>
    intro e he hp dp hdp hid hweight
    rw [alreadySourceIds,hsame]
    exact h.named e he hp dp hdp hid hweight

/-- Everything that the merges of a tracked batch go on with. -/
structure Again (cfg : MergeConfig) (nodes : List (Name × List Extracted))
    (edges : List (Pair × List ExtractedRelation)) (s : DescribedStore) : Prop where
  invariant : Invariant cfg s
  absorbed : Absorbed nodes edges s.store
  evident : Evident edges
  refeedable : Refeedable cfg.descriptions nodes edges s

theorem Again.mergeNode (h : Again cfg nodes edges s) {e : Name × List Extracted} (he : e ∈ nodes)
    (hmerge : s.mergeNode cfg e.1 e.2 = some s') :
    Again cfg nodes edges s' ∧ Unchanged s s' := by
  obtain ⟨hinv,hgrows⟩ := h.invariant.mergeNode hmerge
  obtain ⟨hthere,hknown⟩ := h.absorbed.node e he
  obtain ⟨hne,hclean⟩ := h.refeedable.node e he
  obtain ⟨hunchanged,hfragments⟩ := h.invariant.again_node hthere hknown
    (h.refeedable.plainNode e he) hne hclean hmerge
  obtain ⟨-,hedge,-,hnode⟩ := mergeNode_cases hmerge
  refine ⟨⟨hinv,h.absorbed.grow hgrows,h.evident,?_⟩,hunchanged⟩
  apply h.refeedable.next hunchanged.rows.edge
  · intro e' _
    by_cases hsame : e'.1 = e.1
    · rw [hsame]
      exact .inr hfragments
    · left
      rcases hnode with hnode | ⟨description,-,hnode⟩
      · rw [hnode]
      · rw [hnode,update_of_ne hsame]
  · intro e' _ _
    rw [hedge]
    exact .inl rfl

theorem Again.mergeEdge (h : Again cfg nodes edges s) {e : Pair × List ExtractedRelation}
    (he : e ∈ edges) (hmerge : s.mergeEdge cfg e.1 e.2 = some s') :
    Again cfg nodes edges s' ∧ Unchanged s s' := by
  by_cases hp : e.1.inf = e.1.sup
  · rcases mergeEdge_cases hmerge with ⟨-,rfl⟩ | ⟨hne,-⟩
    · exact ⟨h,Unchanged.refl s'⟩
    · exact absurd hp hne
  obtain ⟨hinv,hgrows⟩ := h.invariant.mergeEdge (h.evident e he) hmerge
  obtain ⟨hthere,hknown⟩ := h.absorbed.edge e he hp
  obtain ⟨hunchanged,hfragments⟩ := h.invariant.again_edge hthere hknown
    (h.refeedable.plainEdge e he) (h.refeedable.edge e he hp) (h.refeedable.named e he hp) hmerge
  refine ⟨⟨hinv,h.absorbed.grow hgrows,h.evident,?_⟩,hunchanged⟩
  apply h.refeedable.next hunchanged.rows.edge
  · intro e' he'
    left
    rcases mergeEdge_cases hmerge with ⟨hloop,-⟩ | ⟨-,-,hsame | hmerged⟩
    · exact absurd hloop hp
    · rw [hsame.node]
    · exact hmerged.node e'.1 (.inr (h.absorbed.node e' he').1)
  · intro e' _ _
    by_cases hsame : e'.1 = e.1
    · rw [hsame]
      exact .inr hfragments
    · left
      rcases mergeEdge_cases hmerge with ⟨hloop,-⟩ | ⟨-,-,htexts | hmerged⟩
      · exact absurd hloop hp
      · rw [htexts.edge]
      · exact hmerged.edge e'.1 hsame

theorem Again.mergeAllNodes (h : Again cfg nodes edges s) {some' : List (Name × List Extracted)}
    (hsub : ∀ e ∈ some', e ∈ nodes) (hmerge : Knowledge.mergeAllNodes cfg some' s = some s') :
    Again cfg nodes edges s' ∧ Unchanged s s' := by
  induction some' generalizing s with
  | nil =>
    obtain rfl := some.inj hmerge
    exact ⟨h,Unchanged.refl s⟩
  | cons e rest ih =>
    rw [Knowledge.mergeAllNodes,foldlM_cons] at hmerge
    obtain ⟨t,ht,hrest⟩ := bind_eq_some_iff.mp hmerge
    obtain ⟨hagain,hfirst⟩ := h.mergeNode (hsub e mem_cons_self) ht
    obtain ⟨hagain',hsecond⟩ :=
      ih hagain (fun e' he' => hsub e' (mem_cons_of_mem _ he')) hrest
    exact ⟨hagain',hfirst.trans hsecond⟩

theorem Again.mergeAllEdges (h : Again cfg nodes edges s)
    {some' : List (Pair × List ExtractedRelation)} (hsub : ∀ e ∈ some', e ∈ edges)
    (hmerge : Knowledge.mergeAllEdges cfg some' s = some s') :
    Again cfg nodes edges s' ∧ Unchanged s s' := by
  induction some' generalizing s with
  | nil =>
    obtain rfl := some.inj hmerge
    exact ⟨h,Unchanged.refl s⟩
  | cons e rest ih =>
    rw [Knowledge.mergeAllEdges,foldlM_cons] at hmerge
    obtain ⟨t,ht,hrest⟩ := bind_eq_some_iff.mp hmerge
    obtain ⟨hagain,hfirst⟩ := h.mergeEdge (hsub e mem_cons_self) ht
    obtain ⟨hagain',hsecond⟩ :=
      ih hagain (fun e' he' => hsub e' (mem_cons_of_mem _ he')) hrest
    exact ⟨hagain',hfirst.trans hsecond⟩

end

def nothing : DescribedStore := empty Store.empty

theorem invariant_nothing (cfg : MergeConfig) : Invariant cfg nothing where
  settled :=
    { entity := fun _ => EntityTracked.gone.self
      relation := fun _ => RelationTracked.gone.self
      kept := fun _ _ hd => nomatch hd
      ends := fun _ hp => absurd rfl hp }
  weighed := fun _ _ hd => nomatch hd

/-- A batch is merged, other batches are merged, and the batch is merged again, in any order of its
objects. -/
theorem merge_again (cfg : MergeConfig) {before between : List Batch} {first again : Batch}
    (hsame : again.chunkResults = first.chunkResults)
    (hplace : ∀ b ∈ before ++ first :: between, Evident b.edges) {s s' : DescribedStore}
    (hrun : mergeBatches cfg (before ++ first :: between) nothing = some s)
    (hfeed : Refeedable cfg.descriptions again.nodes again.edges s)
    (hagain : mergeBatch cfg again s = some s') : Unchanged s s' := by
  have hfirst : first ∈ before ++ first :: between := by simp
  rw [mergeBatches,foldlM_append] at hrun
  obtain ⟨s₁,hbefore,hrun⟩ := bind_eq_some_iff.mp hrun
  rw [foldlM_cons] at hrun
  obtain ⟨s₂,hmerge,hbetween⟩ := bind_eq_some_iff.mp hrun
  obtain ⟨hinv₁,-⟩ := (invariant_nothing cfg).mergeBatches
    (fun b hb => hplace b (mem_append_left _ hb)) hbefore
  obtain ⟨hinv₂,-,habsorbed⟩ := hinv₁.mergeBatch (hplace first hfirst) hmerge
  obtain ⟨hinv,hgrows⟩ := hinv₂.mergeBatches
    (fun b hb => hplace b (mem_append_right _ (mem_cons_of_mem _ hb))) hbetween
  have hnodes : ∀ e, e ∈ again.nodes ↔ e ∈ first.nodes := by
    intro e
    rw [again.nodes_perm.mem_iff,first.nodes_perm.mem_iff,hsame]
  have hedges : ∀ e, e ∈ again.edges ↔ e ∈ first.edges := by
    intro e
    rw [again.edges_perm.mem_iff,first.edges_perm.mem_iff,hsame]
  have hagain₁ : Again cfg again.nodes again.edges s := by
    refine ⟨hinv,⟨?_,?_⟩,?_,hfeed⟩
    · exact fun e he => (habsorbed.grow hgrows).node e ((hnodes e).mp he)
    · exact fun e he => (habsorbed.grow hgrows).edge e ((hedges e).mp he)
    · exact fun e he => hplace first hfirst e ((hedges e).mp he)
  obtain ⟨t,hphase,hrest⟩ := bind_eq_some_iff.mp hagain
  obtain ⟨hagain₂,hunchanged⟩ := hagain₁.mergeAllNodes (fun _ he => he) hphase
  obtain ⟨-,hunchanged'⟩ := hagain₂.mergeAllEdges (fun _ he => he) hrest
  exact hunchanged.trans hunchanged'

def sampleBatch (chunk : ChunkId) (description : String) : Batch where
  chunkResults := [⟨[("A", [⟨chunk, description, 0⟩])],
    [(("A", "B"), [⟨⟨chunk, description, 0⟩, 1⟩])]⟩]
  nodes := _
  nodes_perm := .refl _
  edges := _
  edges_perm := .refl _

def sampleConfig : MergeConfig where
  kg := ⟨10, 1, .keep⟩
  descriptions := ⟨fun ref => '&' :: ref, String.length, 100, 100, 8⟩

def samplePair : Pair := s("A", "B")

theorem clean_x : CleanFragment sampleConfig.descriptions "x" := by
  have hx : ("x" : String).toList = ['x'] := by simp
  have hstrip : Text.strip "x" = String.ofList ['x'] := by
    rw [Text.strip,hx]
    rfl
  have hunescape : Sanitize.unescape sampleConfig.descriptions.replaceCharref "x" =
      String.ofList ['x'] := by
    rw [Sanitize.unescape,hx]
    rfl
  constructor
  case nonempty => simp
  case stripped => rw [hstrip,← hx,String.ofList_toList]
  case unescaped => rw [hunescape,← hx,String.ofList_toList]
  case kept =>
    rw [hx]
    intro c hc
    obtain rfl := mem_singleton.mp hc
    rfl
  case whole =>
    rw [hx]
    decide

theorem plain_x : PlainDescription sampleConfig.descriptions "x" := by
  rw [PlainDescription,clean_x.sanitize_eq]
  exact .inr clean_x

def sampleRun : Option DescribedStore := mergeBatches sampleConfig [sampleBatch "c1" "x"] nothing

theorem refeedable_sample {s : DescribedStore} (hrun : sampleRun = some s) :
    Refeedable sampleConfig.descriptions (sampleBatch "c1" "x").nodes
      (sampleBatch "c1" "x").edges s := by
  have hnodes : (sampleBatch "c1" "x").nodes = [("A", [⟨"c1","x",0⟩])] := by decide +kernel
  have hedges : (sampleBatch "c1" "x").edges = [(samplePair, [⟨⟨"c1","x",0⟩,1⟩])] := by
    decide +kernel
  have hnode : nodeFragments (s.nodeDescription "A") = ["x"] := by
    have heq : sampleRun.map (fun s => nodeFragments (s.nodeDescription "A")) = some ["x"] := by
      decide +kernel
    rw [hrun] at heq
    exact some.inj heq
  have hedge : splitFragments (s.edgeDescription samplePair) = ["x"] := by
    have heq : sampleRun.map (fun s => splitFragments (s.edgeDescription samplePair)) =
        some ["x"] := by
      decide +kernel
    rw [hrun] at heq
    exact some.inj heq
  have hids : s.alreadySourceIds samplePair = ["c1"] := by
    have heq : sampleRun.map (fun s => s.alreadySourceIds samplePair) = some ["c1"] := by
      decide +kernel
    rw [hrun] at heq
    exact some.inj heq
  rw [hnodes,hedges]
  constructor
  case plainNode => simpa using plain_x
  case plainEdge => simpa using plain_x
  case node => simpa [hnode] using clean_x
  case edge => simpa [hedge] using fun _ => clean_x
  case named => simp [hids]

theorem merge_again_sample : ∃ s s', mergeBatches sampleConfig [sampleBatch "c1" "x"] nothing =
    some s ∧ mergeBatch sampleConfig (sampleBatch "c1" "x") s = some s' ∧ Unchanged s s' := by
  have hagain : (sampleRun.bind (mergeBatch sampleConfig (sampleBatch "c1" "x"))).isSome := by
    decide +kernel
  obtain ⟨s',hs'⟩ := isSome_iff_exists.mp hagain
  obtain ⟨s,hrun,hmerge⟩ := bind_eq_some_iff.mp hs'
  have hplace : ∀ b ∈ [] ++ sampleBatch "c1" "x" :: [], Evident b.edges := by
    have hedges : (sampleBatch "c1" "x").edges = [(samplePair, [⟨⟨"c1","x",0⟩,1⟩])] := by
      decide +kernel
    simp [Evident,hedges,relationNoEvidenceSourceIds]
  exact ⟨s,s',hrun,hmerge,merge_again sampleConfig rfl hplace hrun (refeedable_sample hrun) hmerge⟩

/-- The second chunk is not merged into the relation, until it is merged again. -/
theorem merge_again_weight :
    (mergeBatches sampleConfig [sampleBatch "c1" "x", sampleBatch "c2" "y"] nothing).map
        (fun s => s.edgeWeight samplePair) = some 1 ∧
      (mergeBatches sampleConfig [sampleBatch "c1" "x", sampleBatch "c2" "y",
        sampleBatch "c2" "y"] nothing).map (fun s => s.edgeWeight samplePair) = some 2 := by
  decide +kernel

end DescribedStore
end LightRAG.Knowledge
