import LightRAG.Framework.Table
import LightRAG.Query.Context

/-!
# What a prompt delivers

The chunks, citations and raw records of the prompts of `kg_query` and `naive_query`, and exactly
which answers of a reranker make a chunk appear twice.
-/

namespace LightRAG.QueryPrompt
open List Bool

variable (r : Reranking)

def Reranking.accepts (score : ℚ) : Bool :=
  !(r.enableRerank && 0 < r.minRerankScore) || r.minRerankScore ≤ score

/-- The usable results with a sufficient score, within `chunk_top_k`. -/
def Reranking.picks (results : List (ℕ × ℚ)) : List (ℕ × ℚ) :=
  limitTopK r (results.filter fun result => r.accepts result.2)

/-- The chunks that pass the minimum score without being ranked, within `chunk_top_k`. -/
def Reranking.unrankedChunks (chunks : List Chunk) : List Chunk :=
  limitTopK r (chunks.filter fun c => r.accepts (c.rerankScore.getD 1))

def pickAt (chunks : List Chunk) (result : ℕ × ℚ) : Chunk :=
  { (chunks[result.1]?.getD ⟨none, none, none, none, none, "", none⟩) with
    rerankScore := some result.2 }

theorem mapM_id_some {α : Type} (xs : List α) : (xs.map some).mapM id = some xs := by
  induction xs with
  | nil => rfl
  | cons x xs ih =>
    rw [map_cons,mapM_cons,ih]
    rfl

theorem limitTopK_map {α β : Type} (f : α → β) (xs : List α) :
    limitTopK r (xs.map f) = (limitTopK r xs).map f := by
  unfold limitTopK
  split
  · rfl
  · split
    · exact map_take.symm
    · rfl

theorem filterByScore_map_some (chunks : List Chunk) :
    filterByScore r (chunks.map some) =
      some ((chunks.filter fun c => r.accepts (c.rerankScore.getD 1)).map some) := by
  unfold filterByScore
  split
  case isTrue h =>
    rw [mapM_id_some,Option.map_some]
    congr 3
    funext c
    simp [Chunk.passes,Reranking.accepts,h.1,h.2]
  case isFalse h =>
    congr 2
    symm
    rw [filter_eq_self]
    intro c _
    simp only [Reranking.accepts,or_eq_true,not_eq_true',and_eq_false_iff,decide_eq_false_iff_not]
    left
    rw [not_and_or] at h
    exact h.imp_left (by simp)

theorem candidates_of_documents {r : Reranking} {chunks documents : List Chunk}
    (h : (applyRerankIfEnabled r chunks).documents chunks = documents.map some) :
    candidates r chunks = some (r.unrankedChunks documents) := by
  unfold candidates
  rw [h,filterByScore_map_some]
  simp only [Option.bind_eq_bind,Option.bind_some]
  rw [limitTopK_map,mapM_id_some]
  rfl

theorem candidates_of_unranked {r : Reranking} {chunks : List Chunk}
    (h : applyRerankIfEnabled r chunks = .unranked) :
    candidates r chunks = some (r.unrankedChunks chunks) := by
  apply candidates_of_documents
  rw [h]
  rfl

theorem lt_of_picked {r : Reranking} {chunks : List Chunk} {results : List (ℕ × ℚ)}
    (h : applyRerankIfEnabled r chunks = .picked results) :
    ∀ result ∈ results, result.1 < chunks.length := by
  unfold applyRerankIfEnabled at h
  split at h
  · cases h
  · split at h
    · cases h
    · split at h
      · cases h
      · split at h
        · cases h
        · split at h
          · simp only at h
            split at h
            · cases h
            · cases h
              intro result hmem
              obtain ⟨o,_,ho⟩ := mem_filterMap.mp hmem
              exact lt_of_normalizeRerankResult ho
          · cases h

theorem candidates_of_picked {r : Reranking} {chunks : List Chunk} {results : List (ℕ × ℚ)}
    (h : applyRerankIfEnabled r chunks = .picked results) :
    candidates r chunks = some ((r.picks results).map (pickAt chunks)) := by
  have hdocuments : (applyRerankIfEnabled r chunks).documents chunks =
      (results.map (pickAt chunks)).map some := by
    rw [h,map_map]
    apply map_congr_left
    intro result hmem
    have hlt := lt_of_picked h result hmem
    simp only [pickDocument,pickAt,Function.comp_apply,List.getElem?_eq_getElem hlt,
      Option.map_some,Option.getD_some]
  rw [candidates_of_documents hdocuments]
  unfold Reranking.unrankedChunks Reranking.picks
  rw [filter_map,limitTopK_map]
  rfl

theorem mem_limitTopK {α : Type} {r : Reranking} {xs : List α} {x : α}
    (h : x ∈ limitTopK r xs) : x ∈ xs := by
  unfold limitTopK at h
  split at h
  · exact h
  · split at h
    · exact mem_of_mem_take h
    · exact h

theorem sublist_limitTopK {α : Type} (xs : List α) : (limitTopK r xs).Sublist xs := by
  unfold limitTopK
  split
  · exact List.Sublist.refl xs
  · split
    · exact take_sublist _ xs
    · exact List.Sublist.refl xs

theorem sublist_unrankedChunks (chunks : List Chunk) :
    (r.unrankedChunks chunks).Sublist chunks :=
  (sublist_limitTopK r _).trans filter_sublist

theorem mem_of_mem_picks {r : Reranking} {results : List (ℕ × ℚ)} {result : ℕ × ℚ}
    (h : result ∈ r.picks results) : result ∈ results :=
  (mem_filter.mp (mem_limitTopK h)).1

/-- The context's text shows the context's records, each chunk is shown once and was retrieved, the
references cite the chunks, and the raw data is what is shown. -/
structure Delivered (layout : String → String → String → String → String)
    (retrieved : Chunk → Prop) (c : Context) : Prop where
  rendered : (c.text = "" ∧ c.entities = [] ∧ c.relations = [] ∧ c.chunks = []) ∨
    ∃ textUnits, renderChunksContextText c.chunks = some textUnits ∧
      c.text = layout (renderEntities c.entities) (renderRelations c.relations) textUnits
        (renderReferences c.references)
  once : (c.chunks.filterMap Chunk.chunkId).Nodup
  retrieved : ∀ chunk ∈ c.chunks, retrieved chunk
  cited : Cited c.references c.chunks
  references : c.raw.references = c.references
  chunks : c.raw.chunks = c.chunks.map formatChunk
  entities : c.raw.entities = c.entities.map formatEntity
  relations : c.raw.relationships =
    c.relations.map fun r => { formatRelation r with srcId := r.pair.1, tgtId := r.pair.2 }

/-- What is to be shown about the list of the chunks that are kept. -/
def DeliveredOnce (retrieved : Chunk → Prop) (chunks : List Chunk) : Prop :=
  (chunks.filterMap Chunk.chunkId).Nodup ∧ ∀ c ∈ chunks, retrieved c

section DeliveredOnce

variable {retrieved : Chunk → Prop} {chunks : List Chunk}

theorem deliveredOnce_nil : DeliveredOnce retrieved [] :=
  ⟨nodup_nil,fun _ hc => absurd hc not_mem_nil⟩

theorem DeliveredOnce.take (h : DeliveredOnce retrieved chunks) (k : ℕ) :
    DeliveredOnce retrieved (chunks.take k) :=
  ⟨h.1.sublist ((take_sublist k chunks).filterMap _),fun c hc => h.2 c (mem_of_mem_take hc)⟩

theorem deliveredOnce_congr {cs ds : List Chunk} (hids : cs.map Chunk.chunkId = ds.map Chunk.chunkId)
    (hretrieved : cs.map retrieved = ds.map retrieved) :
    DeliveredOnce retrieved cs ↔ DeliveredOnce retrieved ds := by
  have hfilter : ∀ xs : List Chunk,
      xs.filterMap Chunk.chunkId = (xs.map Chunk.chunkId).filterMap id := by
    intro xs
    rw [filterMap_map]
    rfl
  have hforall : ∀ xs : List Chunk,
      (∀ c ∈ xs, retrieved c) ↔ ∀ p ∈ xs.map retrieved, p := by
    intro xs
    rw [forall_mem_map]
  unfold DeliveredOnce
  rw [hfilter cs,hfilter ds,hids,hforall cs,hforall ds,hretrieved]

theorem map_addIds {β : Type} {f : Chunk → β}
    (hf : ∀ c : Chunk, ∀ id, f { c with id := id } = f c) (cs : List Chunk) :
    (addIds cs).map f = cs.map f := by
  apply ext_getElem
  · simp [addIds]
  · simp [addIds,hf]

end DeliveredOnce

section Kept

variable {t : Tokenizer} {limit : ℤ} {r : Reranking} {chunks kept : List Chunk}

theorem render_of_processed (h : processChunksUnified r t limit chunks = some kept) :
    ∃ textUnits, renderChunksContextText (generateReferenceListFromChunks kept).2 =
      some textUnits := by
  apply renderCited_isSome
  have hcontents : ∀ cs : List Chunk,
      (∀ c ∈ cs, c.content ≠ none) ↔ ∀ o ∈ cs.map Chunk.content, o ≠ none := by
    intro cs
    rw [forall_mem_map]
  refine (forall_processChunksUnified (P := fun cs => ∀ c ∈ cs, c.content ≠ none) ?_ ?_ ?_).mpr
    ?_ kept h
  · exact fun c hc => absurd hc not_mem_nil
  · exact fun cs k hcs c hc => hcs c (mem_of_mem_take hc)
  · intro cs
    rw [hcontents,hcontents,map_addIds fun _ _ => rfl]
  · intro cs _ k hfits
    obtain ⟨text,htext,_⟩ := hfits.rendered
    exact content_of_renderCited htext

theorem forall_deliveredOnce {retrieved : Chunk → Prop}
    (hid : ∀ c : Chunk, ∀ id, retrieved { c with id := id } = retrieved c) :
    (∀ kept, processChunksUnified r t limit chunks = some kept → DeliveredOnce retrieved kept) ↔
      ∀ cs, candidates r chunks = some cs → ∀ k, Fits t limit cs k →
        DeliveredOnce retrieved (cs.take k) := by
  apply forall_processChunksUnified
  · exact deliveredOnce_nil
  · exact fun cs k h => h.take k
  · intro cs
    exact deliveredOnce_congr (map_addIds (fun _ _ => rfl) cs) (map_addIds hid cs)

theorem deliveredOnce_cited {retrieved : Chunk → Prop}
    (hid : ∀ c : Chunk, ∀ id, retrieved { c with referenceId := id } = retrieved c) :
    DeliveredOnce retrieved (generateReferenceListFromChunks chunks).2 ↔
      DeliveredOnce retrieved chunks := by
  apply deliveredOnce_congr
  · rw [generateReferenceListFromChunks,map_map]
    rfl
  · rw [generateReferenceListFromChunks,map_map]
    exact map_congr_left fun c _ => hid c _

end Kept

section Records

theorem nodup_distinctEntities (seen : List String) (es : List Entity) :
    ((distinctEntities seen es).map Entity.entityName).Nodup ∧
      ∀ e ∈ distinctEntities seen es, e.entityName ∉ seen := by
  induction es generalizing seen with
  | nil => exact ⟨nodup_nil,fun _ he => absurd he not_mem_nil⟩
  | cons e es ih =>
    rw [distinctEntities]
    split
    · exact ih seen
    case isFalse hnew =>
      obtain ⟨hnd,hfresh⟩ := ih (e.entityName :: seen)
      rw [map_cons,nodup_cons]
      refine ⟨⟨?_,hnd⟩,?_⟩
      · intro hmem
        obtain ⟨e',he',heq⟩ := mem_map.mp hmem
        apply hfresh e' he'
        rw [heq]
        exact mem_cons_self
      · intro e' he'
        cases he' with
        | head => exact fun hold => hnew (.inr hold)
        | tail _ hin => exact fun hold => hfresh e' hin (mem_cons_of_mem _ hold)

theorem nodup_distinctRelations (seen : List (String × String)) (rs : List Relation) :
    ((distinctRelations seen rs).map fun r => sortedPair r.pair).Nodup ∧
      ∀ r ∈ distinctRelations seen rs, sortedPair r.pair ∉ seen := by
  induction rs generalizing seen with
  | nil => exact ⟨nodup_nil,fun _ hr => absurd hr not_mem_nil⟩
  | cons r rs ih =>
    rw [distinctRelations]
    split
    · exact ih seen
    case isFalse hnew =>
      obtain ⟨hnd,hfresh⟩ := ih (sortedPair r.pair :: seen)
      rw [map_cons,nodup_cons]
      refine ⟨⟨?_,hnd⟩,?_⟩
      · intro hmem
        obtain ⟨r',hr',heq⟩ := mem_map.mp hmem
        apply hfresh r' hr'
        rw [heq]
        exact mem_cons_self
      · intro r' hr'
        cases hr' with
        | head => exact hnew
        | tail _ hin => exact fun hold => hfresh r' hin (mem_cons_of_mem _ hold)

theorem filteredEntities_of_subset {originals : List Entity}
    (hnd : (originals.map Entity.entityName).Nodup) {seen : List String} {es : List Entity}
    (hsub : ∀ e ∈ es, e ∈ originals) (hes : (es.map Entity.entityName).Nodup)
    (hseen : ∀ e ∈ es, e.entityName ∉ seen) : filteredEntities originals seen es = es := by
  induction es generalizing seen with
  | nil => rfl
  | cons e es ih =>
    rw [map_cons,nodup_cons] at hes
    have hfound : originals.find? (fun o => o.entityName = e.entityName) = some e :=
      (Table.lookup_eq_some hnd).mpr ⟨hsub e mem_cons_self,rfl⟩
    rw [filteredEntities,if_neg (hseen e mem_cons_self),hfound]
    simp only
    rw [ih (fun e' he' => hsub e' (mem_cons_of_mem e he')) hes.2]
    intro e' he' hmem
    rcases mem_cons.mp hmem with heq | hin
    · exact hes.1 (mem_map.mpr ⟨e',he',heq⟩)
    · exact hseen e' (mem_cons_of_mem e he') hin

theorem filteredRelations_of_subset {originals : List Relation}
    (hnd : (originals.map Relation.pair).Nodup) {seen : List (String × String)}
    {rs : List Relation} (hsub : ∀ r ∈ rs, r ∈ originals) (hrs : (rs.map Relation.pair).Nodup)
    (hseen : ∀ r ∈ rs, r.pair ∉ seen) : filteredRelations originals seen rs = rs := by
  induction rs generalizing seen with
  | nil => rfl
  | cons r rs ih =>
    rw [map_cons,nodup_cons] at hrs
    have hfound : originals.find? (fun o => o.pair = r.pair) = some r :=
      (Table.lookup_eq_some hnd).mpr ⟨hsub r mem_cons_self,rfl⟩
    rw [filteredRelations,if_neg (hseen r mem_cons_self),hfound]
    simp only
    rw [ih (fun r' hr' => hsub r' (mem_cons_of_mem r hr')) hrs.2]
    intro r' hr' hmem
    rcases mem_cons.mp hmem with heq | hin
    · exact hrs.1 (mem_map.mpr ⟨r',hr',heq⟩)
    · exact hseen r' (mem_cons_of_mem r hr') hin

variable (q : KgQuery)

theorem sublist_entitiesContext : q.entitiesContext.Sublist q.finalEntities := by
  rw [KgQuery.entitiesContext,truncateListByTokenSize_eq_take]
  exact take_sublist _ _

theorem sublist_relationsContext : q.relationsContext.Sublist q.finalRelations := by
  rw [KgQuery.relationsContext,truncateListByTokenSize_eq_take]
  exact take_sublist _ _

theorem nodup_entitiesContext : (q.entitiesContext.map Entity.entityName).Nodup :=
  (nodup_distinctEntities [] _).1.sublist ((sublist_entitiesContext q).map _)

theorem nodup_finalRelations : (q.finalRelations.map Relation.pair).Nodup := by
  apply List.Nodup.of_map sortedPair
  rw [map_map]
  exact (nodup_distinctRelations [] _).1

theorem nodup_relationsContext : (q.relationsContext.map Relation.pair).Nodup :=
  (nodup_finalRelations q).sublist ((sublist_relationsContext q).map _)

@[simp] theorem entityOriginals_eq : q.entityOriginals = q.entitiesContext :=
  filteredEntities_of_subset (nodup_distinctEntities [] _).1
    (fun _ he => (sublist_entitiesContext q).subset he) (nodup_entitiesContext q)
    fun _ _ => not_mem_nil

@[simp] theorem relationOriginals_eq : q.relationOriginals = q.relationsContext :=
  filteredRelations_of_subset (nodup_finalRelations q)
    (fun _ hr => (sublist_relationsContext q).subset hr) (nodup_relationsContext q)
    fun _ _ => not_mem_nil

theorem convert_entities {es : List Entity} (hnd : (es.map Entity.entityName).Nodup) :
    (es.map fun e => formatEntity ((es.find? fun o => o.entityName = e.entityName).getD e)) =
      es.map formatEntity := by
  apply map_congr_left
  intro e he
  have hfound : es.find? (fun o => o.entityName = e.entityName) = some e :=
    (Table.lookup_eq_some hnd).mpr ⟨he,rfl⟩
  rw [hfound,Option.getD_some]

theorem convert_relations {rs : List Relation} (hnd : (rs.map Relation.pair).Nodup) :
    (rs.map fun r => formatRelation ((rs.find? fun o => o.pair = r.pair).getD r)) =
      rs.map formatRelation := by
  apply map_congr_left
  intro r hr
  have hfound : rs.find? (fun o => o.pair = r.pair) = some r :=
    (Table.lookup_eq_some hnd).mpr ⟨hr,rfl⟩
  rw [hfound,Option.getD_some]

end Records

end LightRAG.QueryPrompt
