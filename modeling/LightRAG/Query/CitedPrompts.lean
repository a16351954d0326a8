import LightRAG.Query.Citations

/-!
# Prompts that cite their chunks

When the prompts of `kg_query` and of `naive_query` show every chunk once, cite it by its own path
and return what they show.
-/

namespace LightRAG.QueryPrompt
open List Function Bool

theorem Retrieved.mono_rows {s : Stores} {sources : List (Option String)}
    {rows rows' : List VectorRow} {c : Chunk} (h : Retrieved s sources rows c)
    (hsub : ∀ x ∈ rows, x ∈ rows') : Retrieved s sources rows' c := by
  rcases h with ⟨row,hrow,hrest⟩ | hnamed
  · exact .inl ⟨row,hsub row hrow,hrest⟩
  · exact .inr hnamed

namespace KgQuery

variable (q : KgQuery)

def Found (c : Chunk) : Prop :=
  Retrieved q.stores (q.finalEntities.map Entity.sourceId ++ q.finalRelations.map Relation.sourceId)
    q.vectorRows c

/-- The properties of a shown relation do not rename its ends in the raw data. -/
def KeepsEnds : Prop := ∀ r ∈ q.relationsContext, r.ownPair = r.pair

/-- Within every prefix that fits the budget, the reranker names no index twice; where it returns
documents of its own, they are found ones and no id is twice among them. -/
structure NamesOnce : Prop where
  picked : ∀ results, applyRerankIfEnabled q.reranking q.mergedChunks = .picked results →
    ∀ cs, candidates q.reranking q.mergedChunks = some cs →
      ∀ k, Fits q.tokenizer q.availableChunkTokens cs k →
        (((q.reranking.picks results).take k).map Prod.fst).Nodup
  legacy : ∀ documents, applyRerankIfEnabled q.reranking q.mergedChunks = .legacy documents →
    ∀ cs, candidates q.reranking q.mergedChunks = some cs →
      ∀ k, Fits q.tokenizer q.availableChunkTokens cs k → DeliveredOnce q.Found (cs.take k)

variable {q}

theorem found_of_merged {c : Chunk} (hmem : c ∈ q.mergedChunks) :
    c.content ≠ none ∧ q.Found c := by
  have hrows : ∃ rows, q.vectorChunks = getVectorContext rows ∧ ∀ x ∈ rows, x ∈ q.vectorRows := by
    unfold vectorChunks
    split
    · exact ⟨q.vectorRows,rfl,fun _ hx => hx⟩
    · exact ⟨[],rfl,fun _ hx => absurd hx not_mem_nil⟩
  obtain ⟨rows,hvector,hsub⟩ := hrows
  rw [mergedChunks,hvector] at hmem
  obtain ⟨hcontent,hretrieved⟩ := of_mem_mergeAllChunks hmem
  refine ⟨hcontent,(hretrieved.mono ?_).mono_rows hsub⟩
  intro x hx
  rw [entityOriginals_eq,relationOriginals_eq] at hx
  rw [mem_append] at hx ⊢
  exact hx.imp (fun h => ((sublist_entitiesContext q).map _).subset h)
    fun h => ((sublist_relationsContext q).map _).subset h

theorem nodup_mergedChunks (q : KgQuery) : (q.mergedChunks.map Chunk.chunkId).Nodup :=
  nodup_mergeAllChunks _ _ _ _

theorem chunkId_of_merged {c : Chunk} (hmem : c ∈ q.mergedChunks) : ∃ id, c.chunkId = some id := by
  obtain ⟨m,hm,rfl⟩ := mem_map.mp hmem
  obtain ⟨_,_,id,_,_,hid,_⟩ := of_mem_mergeSeen hm
  exact ⟨id,by rw [chunkId_attachContentHeadings,hid]⟩

theorem filterMap_chunkId {cs : List Chunk} (h : ∀ c ∈ cs, ∃ id, c.chunkId = some id) :
    (cs.filterMap Chunk.chunkId).map some = cs.map Chunk.chunkId := by
  induction cs with
  | nil => rfl
  | cons c cs ih =>
    obtain ⟨id,hid⟩ := h c mem_cons_self
    rw [filterMap_cons,hid,map_cons,map_cons,ih fun c' hc' => h c' (mem_cons_of_mem c hc'),hid]

theorem nodup_filterMap_chunkId {cs : List Chunk} (h : ∀ c ∈ cs, ∃ id, c.chunkId = some id) :
    (cs.filterMap Chunk.chunkId).Nodup ↔ (cs.map Chunk.chunkId).Nodup := by
  rw [← filterMap_chunkId h,nodup_map_iff (Option.some_injective String)]

theorem deliveredOnce_picked {results : List (ℕ × ℚ)}
    (hrange : ∀ result ∈ results, result.1 < q.mergedChunks.length) :
    DeliveredOnce q.Found (results.map (pickAt q.mergedChunks)) ↔
      (results.map Prod.fst).Nodup := by
  have hchunk : ∀ result ∈ results, ∃ h : result.1 < q.mergedChunks.length,
      (pickAt q.mergedChunks result).chunkId = (q.mergedChunks[result.1]).chunkId ∧
        (q.Found (pickAt q.mergedChunks result) ↔ q.Found q.mergedChunks[result.1]) := by
    intro result hresult
    have hlt := hrange result hresult
    refine ⟨hlt,?_,?_⟩ <;> simp only [pickAt,List.getElem?_eq_getElem hlt,Option.getD_some]
    exact Iff.rfl
  have hids : ∀ c ∈ results.map (pickAt q.mergedChunks), ∃ id, c.chunkId = some id := by
    intro c hc
    obtain ⟨result,hresult,rfl⟩ := mem_map.mp hc
    obtain ⟨hlt,hid,_⟩ := hchunk result hresult
    rw [hid]
    exact chunkId_of_merged (getElem_mem hlt)
  unfold DeliveredOnce
  rw [nodup_filterMap_chunkId hids,map_map]
  have hfound : ∀ c ∈ results.map (pickAt q.mergedChunks), q.Found c := by
    intro c hc
    obtain ⟨result,hresult,rfl⟩ := mem_map.mp hc
    obtain ⟨hlt,_,hfound⟩ := hchunk result hresult
    exact hfound.mpr (found_of_merged (getElem_mem hlt)).2
  rw [and_iff_left hfound]
  constructor
  · intro hnd
    apply List.Nodup.of_map (fun i => (q.mergedChunks[i]?).bind Chunk.chunkId)
    rw [map_map]
    convert hnd using 1
    apply map_congr_left
    intro result hresult
    obtain ⟨hlt,hid,_⟩ := hchunk result hresult
    simp only [comp_apply,List.getElem?_eq_getElem hlt,Option.bind_some,hid]
  · intro hnd
    rw [nodup_map_iff_inj_on (List.Nodup.of_map _ hnd)]
    intro a ha b hb heq
    obtain ⟨hlta,hida,_⟩ := hchunk a ha
    obtain ⟨hltb,hidb,_⟩ := hchunk b hb
    simp only [comp_apply,hida,hidb] at heq
    have hindex : a.1 = b.1 := by
      have hget : (q.mergedChunks.map Chunk.chunkId)[a.1]? =
          (q.mergedChunks.map Chunk.chunkId)[b.1]? := by
        rw [List.getElem?_map,List.getElem?_map,List.getElem?_eq_getElem hlta,
          List.getElem?_eq_getElem hltb,Option.map_some,Option.map_some,heq]
      exact (List.getElem?_inj (by rw [length_map]; exact hlta) (nodup_mergedChunks q)).mp hget
    exact inj_on_of_nodup_map hnd ha hb hindex

theorem namesOnce_iff : q.NamesOnce ↔
    ∀ cs, candidates q.reranking q.mergedChunks = some cs →
      ∀ k, Fits q.tokenizer q.availableChunkTokens cs k → DeliveredOnce q.Found (cs.take k) := by
  have hpicked : ∀ {results}, applyRerankIfEnabled q.reranking q.mergedChunks = .picked results →
      ∀ {cs}, candidates q.reranking q.mergedChunks = some cs → ∀ k,
        DeliveredOnce q.Found (cs.take k) ↔
          (((q.reranking.picks results).take k).map Prod.fst).Nodup := by
    intro results hresults cs hcs k
    rw [candidates_of_picked hresults] at hcs
    cases hcs
    rw [← map_take]
    apply deliveredOnce_picked
    intro result hmem
    exact lt_of_picked hresults result (mem_of_mem_picks (mem_of_mem_take hmem))
  constructor
  · intro h cs hcs k hfits
    cases hranking : applyRerankIfEnabled q.reranking q.mergedChunks with
    | unranked =>
      rw [candidates_of_unranked hranking] at hcs
      cases hcs
      apply DeliveredOnce.take
      have hsub := sublist_unrankedChunks q.reranking q.mergedChunks
      refine ⟨?_,fun c hc => (found_of_merged (hsub.subset hc)).2⟩
      rw [nodup_filterMap_chunkId fun c hc => chunkId_of_merged (hsub.subset hc)]
      exact (nodup_mergedChunks q).sublist (hsub.map _)
    | picked results => exact (hpicked hranking hcs k).mpr (h.picked results hranking cs hcs k hfits)
    | legacy documents => exact h.legacy documents hranking cs hcs k hfits
  · intro h
    constructor
    · intro results hresults cs hcs k hfits
      exact (hpicked hresults hcs k).mp (h cs hcs k hfits)
    · exact fun _ _ cs hcs k hfits => h cs hcs k hfits

theorem delivered_empty {layout : String → String → String → String → String}
    {retrieved : Chunk → Prop} :
    Delivered layout retrieved ⟨"", [], [], [], [], convertToUserFormat [] [] [] [] [] []⟩ where
  rendered := .inl ⟨rfl,rfl,rfl,rfl⟩
  once := nodup_nil
  retrieved := fun _ hc => absurd hc not_mem_nil
  cited := cited_generateReferenceList []
  references := rfl
  chunks := rfl
  entities := rfl
  relations := rfl

theorem formatRelation_keeps {rs : List Relation} :
    rs.map formatRelation =
        rs.map (fun r => { formatRelation r with srcId := r.pair.1, tgtId := r.pair.2 }) ↔
      ∀ r ∈ rs, r.ownPair = r.pair := by
  rw [map_inj_left]
  apply forall₂_congr
  simp [formatRelation,Prod.ext_iff]

theorem delivered_contextOf {kept : List Chunk} {c : Context} (h : q.contextOf kept = some c) :
    Delivered kgQueryContext q.Found c ↔ DeliveredOnce q.Found kept ∧ q.KeepsEnds := by
  obtain ⟨textUnits,htext,rfl⟩ := Option.map_eq_some_iff.mp h
  by_cases hempty : q.entitiesContext = [] ∧ q.relationsContext = [] ∧
      (generateReferenceListFromChunks kept).2 = []
  · rw [if_pos hempty]
    have hkept : kept = [] := map_eq_nil_iff.mp hempty.2.2
    subst hkept
    constructor
    · intro _
      refine ⟨deliveredOnce_nil,?_⟩
      intro r hr
      rw [hempty.2.1] at hr
      exact absurd hr not_mem_nil
    · exact fun _ => delivered_empty
  · rw [if_neg hempty]
    have hcited : DeliveredOnce q.Found (generateReferenceListFromChunks kept).2 ↔
        DeliveredOnce q.Found kept := deliveredOnce_cited fun _ _ => rfl
    have hrelations : (convertToUserFormat q.entitiesContext q.relationsContext
        (generateReferenceListFromChunks kept).2 (generateReferenceListFromChunks kept).1
        q.entityOriginals q.relationOriginals).relationships =
          q.relationsContext.map formatRelation := by
      rw [relationOriginals_eq]
      exact convert_relations (nodup_relationsContext q)
    constructor
    · intro hd
      refine ⟨hcited.mp ⟨hd.once,hd.retrieved⟩,?_⟩
      exact formatRelation_keeps.mp (hrelations.symm.trans hd.relations)
    · intro ⟨honce,hends⟩
      obtain ⟨hnd,hfound⟩ := hcited.mpr honce
      exact {
        rendered := .inr ⟨textUnits,htext,rfl⟩
        once := hnd
        retrieved := hfound
        cited := cited_generateReferenceList kept
        references := rfl
        chunks := rfl
        entities := by
          rw [entityOriginals_eq]
          exact convert_entities (nodup_entitiesContext q)
        relations := hrelations.trans (formatRelation_keeps.mpr hends) }

theorem nothing_of_noContext (h : q.noContext = true) :
    q.mergedChunks = [] ∧ q.relationsContext = [] := by
  simp only [noContext,or_eq_true,and_eq_true,decide_eq_true_eq] at h
  rcases h with ⟨⟨hentities,hrelations⟩,htracked⟩ | ⟨⟨hmerged,_⟩,hrelations⟩
  · have hcontext : q.relationsContext = [] := by
      rw [← sublist_nil,← hrelations]
      exact sublist_relationsContext q
    refine ⟨?_,hcontext⟩
    have hentityContext : q.entitiesContext = [] := by
      rw [← sublist_nil,← hentities]
      exact sublist_entitiesContext q
    rw [eq_nil_iff_forall_not_mem]
    intro c hc
    obtain ⟨m,hm,_⟩ := mem_map.mp hc
    obtain ⟨o,ho,id,_,hid,_⟩ := of_mem_mergeSeen hm
    rw [entityOriginals_eq,relationOriginals_eq,hcontext,hentityContext] at ho
    rcases mem_roundRobin ho with hvector | hstored | hstored
    · rw [not_eq_true'] at htracked
      rcases htracked with hmix | hall
      · unfold vectorChunks at hvector
        rw [if_neg (by simp [hmix])] at hvector
        exact absurd hvector not_mem_nil
      · have hnone := all_eq_true.mp hall o hvector
        simp only [decide_eq_true_eq] at hnone
        rw [hnone] at hid
        cases hid
    · obtain ⟨source,hsource,_⟩ := of_mem_findRelatedTextUnits hstored
      exact absurd hsource not_mem_nil
    · obtain ⟨source,hsource,_⟩ := of_mem_findRelatedTextUnits hstored
      exact absurd hsource not_mem_nil
  · exact ⟨hmerged,hrelations⟩

theorem unranked_nil (r : Reranking) : applyRerankIfEnabled r [] = .unranked := by
  exact if_pos (.inr rfl)

/-- A query of the knowledge graph delivers exactly if no prefix that fits names an index twice and,
where a prompt is rendered, the shown relations keep their ends. -/
theorem delivered_prompt (q : KgQuery) :
    (∀ p, q.prompt = some p → Delivered kgQueryContext q.Found p.context) ↔
      q.NamesOnce ∧ ((∃ kept, processChunksUnified q.reranking q.tokenizer q.availableChunkTokens
        q.mergedChunks = some kept) → q.KeepsEnds) := by
  unfold prompt
  cases hno : q.noContext with
  | true =>
    obtain ⟨hmerged,hrelations⟩ := nothing_of_noContext hno
    constructor
    · intro _
      refine ⟨⟨?_,?_⟩,?_⟩
      · intro results hresults
        rw [hmerged,unranked_nil] at hresults
        cases hresults
      · intro documents hdocuments
        rw [hmerged,unranked_nil] at hdocuments
        cases hdocuments
      · intro _ r hr
        rw [hrelations] at hr
        exact absurd hr not_mem_nil
    · intro _ p hp
      cases hp
  | false =>
    have hcontext : ∀ {kept}, processChunksUnified q.reranking q.tokenizer q.availableChunkTokens
        q.mergedChunks = some kept → ∃ c, q.contextOf kept = some c := by
      intro kept hkept
      obtain ⟨textUnits,htext⟩ := render_of_processed hkept
      exact ⟨_,by rw [contextOf,htext]; rfl⟩
    rw [namesOnce_iff,← forall_deliveredOnce fun _ _ => rfl]
    constructor
    · intro h
      have hboth : ∀ kept, processChunksUnified q.reranking q.tokenizer q.availableChunkTokens
          q.mergedChunks = some kept → DeliveredOnce q.Found kept ∧ q.KeepsEnds := by
        intro kept hkept
        obtain ⟨c,hc⟩ := hcontext hkept
        apply (delivered_contextOf hc).mp
        apply h (q.promptOf c)
        rw [buildContextStr,hkept,Option.bind_some,hc]
        rfl
      exact ⟨fun kept hkept => (hboth kept hkept).1,fun ⟨kept,hkept⟩ => (hboth kept hkept).2⟩
    · intro ⟨honce,hends⟩ p hp
      obtain ⟨c,hbuilt,rfl⟩ := Option.map_eq_some_iff.mp hp
      obtain ⟨kept,hkept,hc⟩ := Option.bind_eq_some_iff.mp hbuilt
      exact (delivered_contextOf hc).mpr ⟨honce kept hkept,hends ⟨kept,hkept⟩⟩

end KgQuery

namespace NaiveQuery

variable (q : NaiveQuery)

def Found (c : Chunk) : Prop := Retrieved q.stores [] q.vectorRows c

/-- Within every prefix that fits the budget no id is repeated: neither by the rows of the vector
search, nor by the indexes of the reranker, nor by the documents it returns, which are found. -/
structure NamesOnce : Prop where
  unranked : applyRerankIfEnabled q.reranking q.chunks = .unranked →
    ∀ k, Fits q.tokenizer q.availableChunkTokens (q.reranking.unrankedChunks q.chunks) k →
      (((q.reranking.unrankedChunks q.chunks).take k).filterMap Chunk.chunkId).Nodup
  picked : ∀ results, applyRerankIfEnabled q.reranking q.chunks = .picked results →
    ∀ cs, candidates q.reranking q.chunks = some cs →
      ∀ k, Fits q.tokenizer q.availableChunkTokens cs k →
        (((q.reranking.picks results).take k).filterMap fun result =>
          q.chunks[result.1]?.bind Chunk.chunkId).Nodup
  legacy : ∀ documents, applyRerankIfEnabled q.reranking q.chunks = .legacy documents →
    ∀ cs, candidates q.reranking q.chunks = some cs →
      ∀ k, Fits q.tokenizer q.availableChunkTokens cs k → DeliveredOnce q.Found (cs.take k)

variable {q}

theorem found_of_chunk {c : Chunk} (hmem : c ∈ q.chunks) : q.Found c := by
  obtain ⟨v,hv,rfl⟩ := mem_map.mp hmem
  obtain ⟨_,row,hrow,hid,hcontent,hpath⟩ := of_mem_getVectorContext hv
  refine .inl ⟨row,hrow,?_,?_,?_⟩
  · rw [chunkId_attachContentHeadings,hid]
  · rw [content_attachContentHeadings,hcontent]
  · rw [filePath_attachContentHeadings,hpath]

theorem deliveredOnce_picked {results : List (ℕ × ℚ)}
    (hrange : ∀ result ∈ results, result.1 < q.chunks.length) :
    DeliveredOnce q.Found (results.map (pickAt q.chunks)) ↔
      (results.filterMap fun result => q.chunks[result.1]?.bind Chunk.chunkId).Nodup := by
  have hids : ((results.map (pickAt q.chunks)).filterMap Chunk.chunkId) =
      results.filterMap fun result => q.chunks[result.1]?.bind Chunk.chunkId := by
    rw [filterMap_map]
    apply filterMap_congr
    intro result hresult
    have hlt := hrange result hresult
    simp only [comp_apply,pickAt,List.getElem?_eq_getElem hlt,Option.getD_some,Option.bind_some]
  have hfound : ∀ c ∈ results.map (pickAt q.chunks), q.Found c := by
    intro c hc
    obtain ⟨result,hresult,rfl⟩ := mem_map.mp hc
    have hlt := hrange result hresult
    have hchunk : q.Found q.chunks[result.1] := found_of_chunk (getElem_mem hlt)
    simp only [pickAt,List.getElem?_eq_getElem hlt]
    exact hchunk
  unfold DeliveredOnce
  rw [hids,and_iff_left hfound]

theorem namesOnce_iff : q.NamesOnce ↔
    ∀ cs, candidates q.reranking q.chunks = some cs →
      ∀ k, Fits q.tokenizer q.availableChunkTokens cs k → DeliveredOnce q.Found (cs.take k) := by
  have hpicked : ∀ {results}, applyRerankIfEnabled q.reranking q.chunks = .picked results →
      ∀ {cs}, candidates q.reranking q.chunks = some cs → ∀ k,
        DeliveredOnce q.Found (cs.take k) ↔
          (((q.reranking.picks results).take k).filterMap fun result =>
            q.chunks[result.1]?.bind Chunk.chunkId).Nodup := by
    intro results hresults cs hcs k
    rw [candidates_of_picked hresults] at hcs
    cases hcs
    rw [← map_take]
    apply deliveredOnce_picked
    intro result hmem
    exact lt_of_picked hresults result (mem_of_mem_picks (mem_of_mem_take hmem))
  constructor
  · intro h cs hcs k hfits
    cases hranking : applyRerankIfEnabled q.reranking q.chunks with
    | unranked =>
      rw [candidates_of_unranked hranking] at hcs
      cases hcs
      refine ⟨h.unranked hranking k hfits,?_⟩
      intro c hc
      have hsub := sublist_unrankedChunks q.reranking q.chunks
      exact found_of_chunk (hsub.subset (mem_of_mem_take hc))
    | picked results => exact (hpicked hranking hcs k).mpr (h.picked results hranking cs hcs k hfits)
    | legacy documents => exact h.legacy documents hranking cs hcs k hfits
  · intro h
    constructor
    · intro hranking k hfits
      exact (h _ (candidates_of_unranked hranking) k hfits).1
    · intro results hresults cs hcs k hfits
      exact (hpicked hresults hcs k).mp (h cs hcs k hfits)
    · exact fun _ _ cs hcs k hfits => h cs hcs k hfits

theorem delivered_contextOf {kept : List Chunk} {c : Context} (h : contextOf kept = some c) :
    Delivered (fun _ _ => naiveQueryContext) q.Found c ↔ DeliveredOnce q.Found kept := by
  obtain ⟨textUnits,htext,rfl⟩ := Option.map_eq_some_iff.mp h
  have hcited : DeliveredOnce q.Found (generateReferenceListFromChunks kept).2 ↔
      DeliveredOnce q.Found kept := deliveredOnce_cited fun _ _ => rfl
  rw [← hcited]
  constructor
  · exact fun hd => ⟨hd.once,hd.retrieved⟩
  · intro ⟨hnd,hfound⟩
    exact {
      rendered := .inr ⟨textUnits,htext,rfl⟩
      once := hnd
      retrieved := hfound
      cited := cited_generateReferenceList kept
      references := rfl
      chunks := rfl
      entities := rfl
      relations := rfl }

theorem delivered_prompt (q : NaiveQuery) :
    (∀ p, q.prompt = some p → Delivered (fun _ _ => naiveQueryContext) q.Found p.context) ↔
      q.NamesOnce := by
  unfold prompt
  by_cases hempty : q.chunks = []
  · rw [if_pos hempty]
    constructor
    · intro _
      rw [namesOnce_iff]
      intro cs hcs k _
      rw [candidates_of_unranked (by rw [hempty]; exact KgQuery.unranked_nil _)] at hcs
      cases hcs
      have hsub := sublist_unrankedChunks q.reranking q.chunks
      rw [hempty,sublist_nil] at hsub
      rw [hempty,hsub,take_nil]
      exact deliveredOnce_nil
    · intro _ p hp
      cases hp
  · rw [if_neg hempty,namesOnce_iff,← forall_deliveredOnce fun _ _ => rfl]
    constructor
    · intro h kept hkept
      obtain ⟨textUnits,htext⟩ := render_of_processed hkept
      obtain ⟨c,hc⟩ : ∃ c, contextOf kept = some c := ⟨_,by rw [contextOf,htext]; rfl⟩
      apply (delivered_contextOf hc).mp
      apply h (q.promptOf c)
      rw [hkept,Option.bind_some,hc]
      rfl
    · intro honce p hp
      obtain ⟨c,hbuilt,rfl⟩ := Option.map_eq_some_iff.mp hp
      obtain ⟨kept,hkept,hc⟩ := Option.bind_eq_some_iff.mp hbuilt
      exact (delivered_contextOf hc).mpr (honce kept hkept)

end NaiveQuery

theorem who_ne_empty : "who" ≠ "" := by decide

/-- One stored chunk, and a reranker that names its index twice. -/
def repeatedIndex : NaiveQuery where
  query := "who"
  nonempty := who_ne_empty
  param := ⟨100, 100, 1000, none, none, false⟩
  templates := ⟨none, none, [.contextData], none⟩
  tokenizer := ⟨fun _ => 1, fun s _ => some s.length⟩
  reranking :=
    ⟨true, some fun _ _ => some [some ⟨some (.int 0), some (9 / 10), ⟨none, none, none, none, none,
      "", none⟩⟩, some ⟨some (.int 0), some (4 / 5), ⟨none, none, none, none, none, "", none⟩⟩],
      1 / 2, some 20⟩
  stores := ⟨fun _ => none, .vector, 5, true, true, none, false⟩
  vectorRows := [⟨some "c1", some "text", some "a.md"⟩]

end LightRAG.QueryPrompt
