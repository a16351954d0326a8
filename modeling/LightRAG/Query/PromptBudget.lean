import LightRAG.Query.CitedPrompts
import Mathlib.Tactic.Linarith

/-!
# The token budget of a prompt

What a prompt costs with an additive tokenizer, which chunks its budget keeps, and when the reserve
for the reference list is enough.
-/

namespace LightRAG.QueryPrompt
open List

variable {count : String → ℕ} {guess : String → ℕ → ℕ}

def Template.placeholders (t : Template) : ℕ := t.count .contextData

theorem count_join_empty (hadd : Additive count) (part : String) (parts : List String) :
    count (join "" (part :: parts)) = count part + count (join "" parts) := by
  cases parts with
  | nil => rw [join,join,hadd.empty,Nat.add_zero]
  | cons p ps => rw [join_cons "" part _ (cons_ne_nil p ps),hadd,hadd,hadd.empty,Nat.zero_add]

theorem count_format (hadd : Additive count) (t : Template) (context responseType prompt : String) :
    count (t.format context responseType prompt) =
      count (t.format "" responseType prompt) + t.placeholders * count context := by
  unfold Template.format Template.placeholders
  induction t with
  | nil => simp
  | cons piece t ih =>
    rw [map_cons,map_cons,count_join_empty hadd,count_join_empty hadd,ih]
    cases piece with
    | contextData =>
      simp only [Piece.format,count_cons_self,hadd.empty]
      rw [Nat.add_mul]
      omega
    | text s => simp [Piece.format,Nat.add_assoc]
    | responseType => simp [Piece.format,Nat.add_assoc]
    | userPrompt => simp [Piece.format,Nat.add_assoc]

theorem count_kgQueryContext (hadd : Additive count) (entities relations chunks references : String) :
    count (kgQueryContext entities relations chunks references) =
      count (kgQueryContext entities relations "" "") + count chunks + count references := by
  simp only [kgQueryContext,hadd _ _,hadd.empty]
  omega

theorem count_naiveQueryContext (hadd : Additive count) (chunks references : String) :
    count (naiveQueryContext chunks references) =
      count (naiveQueryContext "" "") + count chunks + count references := by
  simp only [naiveQueryContext,hadd _ _,hadd.empty]
  omega

theorem pathEntries_congr {cs ds : List Chunk} (h : cs.map Chunk.knownPath = ds.map Chunk.knownPath)
    (pathCount : String → ℕ) (i : ℕ) (seen : List String) :
    pathEntries pathCount i seen cs = pathEntries pathCount i seen ds := by
  induction cs generalizing i seen ds with
  | nil =>
    rw [map_eq_nil_iff.mp h.symm]
  | cons c cs ih =>
    cases ds with
    | nil => cases h
    | cons d ds =>
      rw [map_cons,map_cons,List.cons.injEq] at h
      simp only [pathEntries,h.1]
      cases d.knownPath with
      | none => exact ih h.2 _ _
      | some path =>
        simp only
        split
        · exact ih h.2 _ _
        · rw [ih h.2]

theorem uniqueFilePaths_congr {cs ds : List Chunk}
    (h : cs.map Chunk.knownPath = ds.map Chunk.knownPath) :
    uniqueFilePaths cs = uniqueFilePaths ds := by
  have hcount : pathCount cs = pathCount ds := by
    have hfilter : ∀ xs : List Chunk,
        xs.filterMap Chunk.knownPath = (xs.map Chunk.knownPath).filterMap id := by
      intro xs
      rw [filterMap_map]
      rfl
    funext path
    rw [pathCount,pathCount,hfilter,hfilter,h]
  unfold uniqueFilePaths
  rw [hcount,pathEntries_congr h]

theorem uniqueFilePaths_addIds (cs : List Chunk) : uniqueFilePaths (addIds cs) = uniqueFilePaths cs :=
  uniqueFilePaths_congr (map_addIds (fun _ _ => rfl) cs)

theorem references_addIds (cs : List Chunk) :
    (generateReferenceListFromChunks (addIds cs)).1 = (generateReferenceListFromChunks cs).1 := by
  rw [generateReferenceListFromChunks,generateReferenceListFromChunks,uniqueFilePaths_addIds]

theorem renderCited_addIds (cs : List Chunk) : renderCited (addIds cs) = renderCited cs := by
  have hlines : ∀ xs : List Chunk, xs.mapM Chunk.render = (xs.map Chunk.render).mapM id := by
    intro xs
    rw [mapM_map]
    rfl
  unfold renderCited renderChunksContextText
  congr 1
  rw [hlines,hlines,generateReferenceListFromChunks,generateReferenceListFromChunks,
    uniqueFilePaths_addIds,map_map,map_map]
  congr 1
  exact map_addIds (fun _ _ => rfl) cs

theorem count_approxKey_le (hadd : Additive count) {c : Chunk} {line id : String}
    (h : ({ c with referenceId := id } : Chunk).render = some line) :
    count c.approxKey ≤ count line := by
  obtain ⟨content,hcontent,hline⟩ := Option.map_eq_some_iff.mp h
  have hcontent' : c.content = some content := hcontent
  have hline' : dumps ([("reference_id", id), ("content", content)] ++ c.headingFields) = line :=
    hline
  rw [← hline',Chunk.approxKey,hcontent',dumps,map_append,map_cons,map_cons,
    map_nil,cons_append,cons_append,nil_append,
    join_cons _ _ _ (cons_ne_nil _ _)]
  simp only [dumpsOption,dumpsField,hadd _ _]
  omega

theorem forall₂_of_mapM {α β : Type} {f : α → Option β} {xs : List α} {ys : List β}
    (h : xs.mapM f = some ys) : List.Forall₂ (fun x y => f x = some y) xs ys := by
  induction xs generalizing ys with
  | nil =>
    cases h
    exact .nil
  | cons x xs ih =>
    rw [mapM_cons] at h
    cases hx : f x with
    | none =>
      rw [hx] at h
      cases h
    | some y =>
      cases hxs : xs.mapM f with
      | none =>
        rw [hx,hxs] at h
        cases h
      | some ys' =>
        rw [hx,hxs] at h
        cases h
        exact .cons hx (ih hxs)

theorem count_approx_le (hadd : Additive count) {cs : List Chunk} {text : String}
    (h : renderCited cs = some text) :
    count (join "\n" (cs.map Chunk.approxKey)) ≤ count text := by
  obtain ⟨lines,hlines,rfl⟩ := Option.map_eq_some_iff.mp h
  apply count_join_le hadd
  have hall := forall₂_of_mapM hlines
  rw [generateReferenceListFromChunks,List.forall₂_map_left_iff] at hall
  rw [List.forall₂_map_left_iff]
  exact hall.imp fun _ _ hline => count_approxKey_le hadd hline

theorem approxKey_ne_empty (c : Chunk) : c.approxKey ≠ "" := by
  intro h
  have hlength := congrArg String.length h
  rw [Chunk.approxKey] at hlength
  exact absurd hlength (by simp)

theorem join_ne_empty {separator part : String} {parts : List String} (hne : part ≠ "") :
    join separator (part :: parts) ≠ "" := by
  intro h
  obtain ⟨rest,hrest⟩ := join_take separator (part :: parts) 1
  rw [h,take_succ_cons,take_zero,join] at hrest
  have hlength := congrArg String.length hrest
  rw [String.length_append,String.length_empty] at hlength
  apply hne
  rw [← String.length_eq_zero_iff]
  omega

structure IsLongestFit (count : String → ℕ) (limit : ℤ) (cs : List Chunk) (k : ℕ) : Prop where
  le : k ≤ cs.length
  fits : k = 0 ∨ ∃ text, renderCited (cs.take k) = some text ∧ (count text : ℤ) ≤ limit
  longest : ∀ j, j ≤ cs.length → ∀ text, renderCited (cs.take j) = some text →
    (count text : ℤ) ≤ limit → j ≤ k

theorem fits_of_rendered (hadd : Additive count) {limit : ℤ} {cs : List Chunk} {j : ℕ}
    {text : String} (hpos : 0 < limit) (hj : j ≤ cs.length)
    (htext : renderCited (cs.take j) = some text) (hle : (count text : ℤ) ≤ limit)
    (hlegible : ∀ c ∈ truncateListByTokenSize (.generic count guess) Chunk.approxKey "\n" limit cs,
      c.content ≠ none) : Fits (.generic count guess) limit cs j where
  positive := hpos
  estimated := by
    rcases Nat.eq_zero_or_pos j with hzero | hjpos
    · omega
    · apply le_length_truncateListByTokenSize hadd guess hpos hj
      · cases cs with
        | nil =>
          rw [length_nil] at hj
          omega
        | cons c cs =>
          cases j with
          | zero => omega
          | succ j =>
            exact join_ne_empty (approxKey_ne_empty c)
      · rw [← map_take]
        have := count_approx_le hadd htext
        omega
  legible := hlegible
  rendered := ⟨text,htext,hle⟩

end LightRAG.QueryPrompt

/-!
## Prompts within their budget

Exactly when the prompts of `kg_query` and `naive_query` stay within `max_total_tokens`: when what
the estimate leaves out is covered by the reserve and by what the kept chunks leave unspent.
-/

namespace LightRAG.QueryPrompt
open List Option

variable {count : String → ℕ} {guess : String → ℕ → ℕ}

def chunkTokens (count : String → ℕ) (chunks : List Chunk) : ℕ :=
  match renderCited chunks with
  | some text => count text
  | none => 0

def referenceTokens (count : String → ℕ) (chunks : List Chunk) : ℕ :=
  count (renderReferences (generateReferenceListFromChunks chunks).1)

/-- No chunk that can be rendered is free. -/
def Charged (count : String → ℕ) (cs : List Chunk) : Prop :=
  ∀ j, 0 < j → j ≤ cs.length → ∀ text, renderCited (cs.take j) = some text → 0 < count text

section Processing

variable {r : Reranking} {limit : ℤ} {chunks kept cs : List Chunk}
variable {t : Tokenizer}

theorem legible_of_truncateChunks {documents : List (Option Chunk)}
    (h : truncateChunks t limit documents = some kept) (hcs : documents.mapM id = some cs)
    (hpos : 0 < limit) :
    ∀ c ∈ truncateListByTokenSize t Chunk.approxKey "\n" limit cs, c.content ≠ none := by
  by_cases hempty : documents = []
  · subst hempty
    cases hcs
    rw [truncateListByTokenSize,if_pos (.inr rfl)]
    exact fun _ hc => absurd hc not_mem_nil
  · rw [truncateChunks,if_neg (by rw [not_or]; exact ⟨by omega,hempty⟩),hcs] at h
    obtain ⟨k,hk,_⟩ := map_eq_some_iff.mp h
    generalize truncateListByTokenSize t Chunk.approxKey "\n" limit cs = approx at hk
    rcases Nat.eq_zero_or_pos approx.length with hzero | hlength
    · rw [length_eq_zero_iff] at hzero
      rw [hzero]
      exact fun _ hc => absurd hc not_mem_nil
    · obtain ⟨text,htext⟩ := legible_of_shrinkRendered hk hlength
      rw [take_length] at htext
      exact content_of_renderCited htext

theorem processed_cases (h : processChunksUnified r t limit chunks = some kept)
    (hcs : candidates r chunks = some cs) :
    ∃ k, kept = addIds (cs.take k) ∧ (k = 0 ∨ Fits t limit cs k) ∧
      (∀ j, Fits t limit cs j → j ≤ k) ∧ (0 < limit →
        ∀ c ∈ truncateListByTokenSize t Chunk.approxKey "\n" limit cs, c.content ≠ none) := by
  rw [processChunksUnified_eq] at h
  unfold candidates at hcs
  obtain ⟨filtered,hfiltered,htruncated⟩ := bind_eq_some_iff.mp h
  rw [hfiltered] at hcs
  have hmapM : (limitTopK r filtered).mapM id = some cs := hcs
  obtain ⟨short,hshort,rfl⟩ := map_eq_some_iff.mp htruncated
  rcases @truncateChunks_cases t limit _ _ hmapM with ⟨k,hk,hor,hmax⟩ | ⟨hnone,_⟩
  · rw [hk] at hshort
    cases hshort
    exact ⟨k,rfl,hor,hmax,legible_of_truncateChunks hk hmapM⟩
  · rw [hnone] at hshort
    cases hshort

theorem processed_of_fits {k : ℕ} (hcs : candidates r chunks = some cs)
    (hfits : Fits t limit cs k) (hmax : ∀ j, Fits t limit cs j → j ≤ k) :
    processChunksUnified r t limit chunks = some (addIds (cs.take k)) := by
  rw [processChunksUnified_eq]
  obtain ⟨filtered,hfiltered,hmapM⟩ := bind_eq_some_iff.mp hcs
  rw [hfiltered,bind_some]
  rcases @truncateChunks_cases t limit _ _ hmapM with ⟨k',hk',hor,hmax'⟩ | ⟨_,hno⟩
  · have hle : k ≤ k' := hmax' k hfits
    have hge : k' ≤ k := by
      rcases hor with hzero | hfits'
      · omega
      · exact hmax k' hfits'
    rw [hk',Nat.le_antisymm hle hge]
    rfl
  · exact absurd hfits (hno k)

theorem length_of_fits {k : ℕ} (h : Fits t limit cs k) : k ≤ cs.length := by
  apply Nat.le_trans h.estimated
  rw [truncateListByTokenSize_eq_take,length_take]
  exact Nat.min_le_right _ _

theorem isLongestFit_iff (hadd : Additive count) {k : ℕ}
    (hor : k = 0 ∨ Fits (.generic count guess) limit cs k)
    (hmax : ∀ j, Fits (.generic count guess) limit cs j → j ≤ k)
    (hlegible : 0 < limit → ∀ c ∈ truncateListByTokenSize (.generic count guess) Chunk.approxKey
      "\n" limit cs, c.content ≠ none) :
    IsLongestFit count limit cs k ↔ (limit = 0 → Charged count cs) := by
  constructor
  · intro h hzero j hj hlen text htext
    rcases hor with hk | hfits
    · by_contra hfree
      have := h.longest j hlen text htext (by omega)
      omega
    · have := hfits.positive
      omega
  · intro hcharged
    refine ⟨?_,?_,?_⟩
    · rcases hor with hk | hfits
      · omega
      · exact length_of_fits hfits
    · rcases hor with hk | hfits
      · exact .inl hk
      · exact .inr hfits.rendered
    · intro j hlen text htext hle
      by_cases hpos : 0 < limit
      · exact hmax j (fits_of_rendered hadd hpos hlen htext hle (hlegible hpos))
      · rcases Nat.eq_zero_or_pos j with hzero | hj
        · omega
        · have hlimit : limit = 0 := by omega
          have := hcharged hlimit j hj hlen text htext
          omega

theorem referenceTokens_addIds (cs : List Chunk) :
    referenceTokens count (addIds cs) = referenceTokens count cs := by
  rw [referenceTokens,references_addIds,referenceTokens]

theorem chunkTokens_addIds (cs : List Chunk) :
    chunkTokens count (addIds cs) = chunkTokens count cs := by
  rw [chunkTokens,renderCited_addIds,chunkTokens]

theorem candidates_of_processed
    (h : processChunksUnified r t limit chunks = some kept) (hne : kept ≠ []) :
    ∃ cs, candidates r chunks = some cs := by
  rw [processChunksUnified_eq] at h
  obtain ⟨filtered,hfiltered,htruncated⟩ := bind_eq_some_iff.mp h
  obtain ⟨short,hshort,rfl⟩ := map_eq_some_iff.mp htruncated
  cases hmapM : (limitTopK r filtered).mapM id with
  | some cs => exact ⟨cs,by unfold candidates; rw [hfiltered]; exact hmapM⟩
  | none =>
    rw [truncateChunks] at hshort
    split at hshort
    · cases hshort
      exact absurd rfl hne
    · rw [hmapM] at hshort
      cases hshort

theorem processed_of_zero (hcs : candidates r chunks = some cs) :
    processChunksUnified r t 0 chunks = some [] := by
  rw [processChunksUnified_eq]
  obtain ⟨filtered,hfiltered,_⟩ := bind_eq_some_iff.mp hcs
  rw [hfiltered,bind_some]
  rfl

theorem addIds_eq_nil : addIds cs = [] ↔ cs = [] := by
  rw [addIds,mapIdx_eq_nil_iff]

theorem chunkTokens_of_rendered {text : String} (h : renderCited kept = some text) :
    chunkTokens count kept = count text := by
  rw [chunkTokens,h]

theorem kept_cases (h : processChunksUnified r t limit chunks = some kept)
    (hne : kept ≠ []) : ∃ cs k, candidates r chunks = some cs ∧ kept = addIds (cs.take k) ∧ 0 < k ∧
      Fits t limit cs k ∧ ∀ j, Fits t limit cs j → j ≤ k := by
  obtain ⟨cs,hcs⟩ := candidates_of_processed h hne
  obtain ⟨k,rfl,hor,hmax,-⟩ := processed_cases h hcs
  have hpos : k ≠ 0 := by
    rintro rfl
    exact hne rfl
  exact ⟨cs,k,hcs,rfl,Nat.pos_of_ne_zero hpos,hor.resolve_left hpos,hmax⟩

theorem charged_of_none {k : ℕ} (hlongest : IsLongestFit count limit cs k) (hzero : limit = 0)
    (hnone : (generateReferenceListFromChunks (addIds (cs.take k))).2 = []) : Charged count cs := by
  have htake : cs.take k = [] := addIds_eq_nil.mp (map_eq_nil_iff.mp hnone)
  intro j hj hlen text htext
  by_contra hfree
  have hle := hlongest.longest j hlen text htext (by omega)
  rcases take_eq_nil_iff.mp htake with hk | hnil
  · omega
  · rw [hnil,length_nil] at hlen
    omega

end Processing

def Request.tokens (r : Request) (p : Prompt) : ℕ :=
  r.tokenizer.count p.systemPrompt + r.tokenizer.count r.query

namespace KgQuery

variable (q : KgQuery)

def FitsEmpty : Prop :=
  ∀ c, q.contextOf [] = some c → q.tokens (q.promptOf c) ≤ q.param.maxTotalTokens

structure WithinBudget : Prop where
  total : q.FitsEmpty → ∀ p, q.prompt = some p → q.tokens p ≤ q.param.maxTotalTokens
  entities : ∀ p, q.prompt = some p →
    q.tokenizer.count (renderEntities p.context.entities) ≤ q.param.maxEntityTokens
  relations : ∀ p, q.prompt = some p →
    q.tokenizer.count (renderRelations p.context.relations) ≤ q.param.maxRelationTokens
  longest : ∀ p, q.prompt = some p → ∀ cs, candidates q.reranking q.mergedChunks = some cs →
    ∃ k, IsLongestFit q.tokenizer.count q.availableChunkTokens cs k ∧
      p.context.chunks = (generateReferenceListFromChunks (addIds (cs.take k))).2

/-- What the estimate leaves out: the difference of the two templates and user prompts, what further
placeholders repeat, and the reference list. -/
def unestimated (kept : List Chunk) : ℤ :=
  (q.tokenizer.count (q.renderedTemplate.format "" q.param.effectiveResponseType
      q.effectiveUserPrompt.slot) -
    q.tokenizer.count (q.estimatedTemplate.format "" q.param.effectiveResponseType
      q.effectiveUserPrompt.text)) +
  (q.renderedTemplate.placeholders - 1) *
    (q.tokenizer.count (kgQueryContext (renderEntities q.entitiesContext)
        (renderRelations q.relationsContext) "" "") + chunkTokens q.tokenizer.count kept) +
  q.renderedTemplate.placeholders * referenceTokens q.tokenizer.count kept

/-- The reserve and the tokens that the longest fitting prefix leaves unspent cover what the estimate
leaves out, and with a budget of zero no chunk is free. -/
structure ReserveCovers : Prop where
  references : q.FitsEmpty → ∀ cs, candidates q.reranking q.mergedChunks = some cs → ∀ k, 0 < k →
    Fits q.tokenizer q.availableChunkTokens cs k →
    (∀ j, Fits q.tokenizer q.availableChunkTokens cs j → j ≤ k) →
      q.unestimated (cs.take k) ≤
        200 + (q.availableChunkTokens - chunkTokens q.tokenizer.count (cs.take k))
  charged : q.availableChunkTokens = 0 → ∀ cs, candidates q.reranking q.mergedChunks = some cs →
    Charged q.tokenizer.count cs

variable {q}
variable {kept : List Chunk} {c : Context}

theorem tokens_promptOf (hadd : Additive q.tokenizer.count)
    (h : q.contextOf kept = some c) (hne : kept ≠ []) :
    q.tokens (q.promptOf c) =
      q.tokenizer.count (q.renderedTemplate.format "" q.param.effectiveResponseType
          q.effectiveUserPrompt.slot) +
        q.renderedTemplate.placeholders *
          (q.tokenizer.count (kgQueryContext (renderEntities q.entitiesContext)
              (renderRelations q.relationsContext) "" "") +
            chunkTokens q.tokenizer.count kept + referenceTokens q.tokenizer.count kept) +
        q.tokenizer.count q.query := by
  obtain ⟨textUnits,htext,rfl⟩ := map_eq_some_iff.mp h
  have hcited : (generateReferenceListFromChunks kept).2 ≠ [] := fun h => hne (map_eq_nil_iff.mp h)
  rw [if_neg fun h => hcited h.2.2,Request.tokens,promptOf,count_format hadd,
    count_kgQueryContext hadd,chunkTokens_of_rendered htext,referenceTokens]

theorem tokens_le_iff (hadd : Additive q.tokenizer.count)
    (h : q.contextOf kept = some c) (hne : kept ≠ []) :
    q.tokens (q.promptOf c) ≤ q.param.maxTotalTokens ↔
      q.unestimated kept ≤
        200 + (q.availableChunkTokens - chunkTokens q.tokenizer.count kept) := by
  rw [tokens_promptOf hadd h hne,unestimated,availableChunkTokens]
  push_cast
  constructor <;> intro hle <;> linarith

theorem prompt_cases {p : Prompt} (h : q.prompt = some p) :
    q.noContext = false ∧ ∃ kept, processChunksUnified q.reranking q.tokenizer
      q.availableChunkTokens q.mergedChunks = some kept ∧ ∃ c, q.contextOf kept = some c ∧
        p = q.promptOf c := by
  unfold prompt at h
  split at h
  · cases h
  case isFalse hno =>
    obtain ⟨c,hbuilt,rfl⟩ := map_eq_some_iff.mp h
    obtain ⟨kept,hkept,hc⟩ := bind_eq_some_iff.mp hbuilt
    exact ⟨by simpa using hno,kept,hkept,c,hc,rfl⟩

theorem prompt_of_kept (hno : q.noContext = false)
    (hkept : processChunksUnified q.reranking q.tokenizer q.availableChunkTokens q.mergedChunks =
      some kept) (hc : q.contextOf kept = some c) : q.prompt = some (q.promptOf c) := by
  unfold prompt
  rw [if_neg (by simp [hno]),buildContextStr,hkept,bind_some,hc]
  rfl

theorem records_contextOf (h : q.contextOf kept = some c) :
    (c.entities = [] ∨ c.entities = q.entitiesContext) ∧
      (c.relations = [] ∨ c.relations = q.relationsContext) ∧
      c.chunks = (generateReferenceListFromChunks kept).2 := by
  obtain ⟨textUnits,_,rfl⟩ := map_eq_some_iff.mp h
  split
  case isTrue hempty => exact ⟨.inl rfl,.inl rfl,hempty.2.2.symm⟩
  · exact ⟨.inr rfl,.inr rfl,rfl⟩

theorem candidates_of_noContext (hno : q.noContext = true) {cs : List Chunk}
    (hcs : candidates q.reranking q.mergedChunks = some cs) : cs = [] := by
  have hmerged := (nothing_of_noContext hno).1
  have hsub := sublist_unrankedChunks q.reranking q.mergedChunks
  rw [candidates_of_unranked (by rw [hmerged]; exact unranked_nil _)] at hcs
  cases hcs
  rw [hmerged,sublist_nil] at hsub
  rw [hmerged]
  exact hsub

theorem unestimated_addIds (kept : List Chunk) : q.unestimated (addIds kept) = q.unestimated kept := by
  simp only [unestimated,chunkTokens_addIds,referenceTokens_addIds]

theorem withinBudget_iff (hq : q.tokenizer = .generic count guess) (hadd : Additive count) :
    q.WithinBudget ↔ q.ReserveCovers := by
  have hcount : q.tokenizer.count = count := by rw [hq]; rfl
  have hadd' : Additive q.tokenizer.count := hcount ▸ hadd
  have hcontext : ∀ {kept}, processChunksUnified q.reranking q.tokenizer q.availableChunkTokens
      q.mergedChunks = some kept → ∃ c, q.contextOf kept = some c := by
    intro kept hkept
    obtain ⟨textUnits,htext⟩ := render_of_processed hkept
    exact ⟨_,by rw [contextOf,htext]; rfl⟩
  constructor
  · intro h
    constructor
    · intro hempty cs hcs k hk hfits hmax
      have hlength := length_of_fits hfits
      have hno : q.noContext = false := by
        cases hno : q.noContext with
        | false => rfl
        | true =>
          rw [candidates_of_noContext hno hcs,length_nil] at hlength
          omega
      have hkept := processed_of_fits hcs hfits hmax
      have hne : addIds (cs.take k) ≠ [] := by
        rw [ne_eq,addIds_eq_nil,take_eq_nil_iff,not_or]
        refine ⟨by omega,?_⟩
        rintro rfl
        rw [length_nil] at hlength
        omega
      obtain ⟨c,hc⟩ := hcontext hkept
      have htotal := h.total hempty _ (prompt_of_kept hno hkept hc)
      rwa [tokens_le_iff hadd' hc hne,unestimated_addIds,chunkTokens_addIds] at htotal
    · intro hzero cs hcs
      cases hno : q.noContext with
      | true =>
        rw [candidates_of_noContext hno hcs]
        intro j hj hlen
        rw [length_nil] at hlen
        omega
      | false =>
        have hkept : processChunksUnified q.reranking q.tokenizer q.availableChunkTokens
            q.mergedChunks = some [] := hzero ▸ processed_of_zero hcs
        obtain ⟨c,hc⟩ := hcontext hkept
        obtain ⟨k,hlongest,hchunks⟩ := h.longest _ (prompt_of_kept hno hkept hc) cs hcs
        have hshown : c.chunks = [] := (records_contextOf hc).2.2
        rw [promptOf,hshown] at hchunks
        exact charged_of_none hlongest hzero hchunks.symm
  · intro h
    constructor
    · intro hempty p hp
      obtain ⟨_,kept,hkept,c,hc,rfl⟩ := prompt_cases hp
      by_cases hne : kept = []
      · subst hne
        exact hempty c hc
      · obtain ⟨cs,k,hcs,rfl,hpos,hfits,hmax⟩ := kept_cases hkept hne
        rw [tokens_le_iff hadd' hc hne,unestimated_addIds,chunkTokens_addIds]
        exact h.references hempty cs hcs k hpos hfits hmax
    · intro p hp
      obtain ⟨_,kept,_,c,hc,rfl⟩ := prompt_cases hp
      rw [promptOf]
      rcases (records_contextOf hc).1 with hnil | hall
      · rw [hnil,hcount,renderEntities,map_nil,join,hadd.empty]
        exact Nat.zero_le _
      · rw [hall,entitiesContext,hq]
        exact Int.ofNat_le.mp (count_truncateListByTokenSize hadd guess (Int.natCast_nonneg _))
    · intro p hp
      obtain ⟨_,kept,_,c,hc,rfl⟩ := prompt_cases hp
      rw [promptOf]
      rcases (records_contextOf hc).2.1 with hnil | hall
      · rw [hnil,hcount,renderRelations,map_nil,join,hadd.empty]
        exact Nat.zero_le _
      · rw [hall,relationsContext,hq]
        exact Int.ofNat_le.mp (count_truncateListByTokenSize hadd guess (Int.natCast_nonneg _))
    · intro p hp cs hcs
      obtain ⟨_,kept,hkept,c,hc,rfl⟩ := prompt_cases hp
      obtain ⟨k,rfl,hor,hmax,hlegible⟩ := processed_cases hkept hcs
      refine ⟨k,?_,(records_contextOf hc).2.2⟩
      rw [hcount]
      rw [hq] at hor hmax hlegible
      apply (isLongestFit_iff hadd hor hmax hlegible).mpr
      intro hzero
      rw [← hcount]
      exact h.charged hzero cs hcs

end KgQuery

namespace NaiveQuery

variable (q : NaiveQuery)

def FitsEmpty : Prop :=
  ∀ c, contextOf [] = some c → q.tokens (q.promptOf c) ≤ q.param.maxTotalTokens

structure WithinBudget : Prop where
  total : q.FitsEmpty → ∀ p, q.prompt = some p → q.tokens p ≤ q.param.maxTotalTokens
  longest : ∀ p, q.prompt = some p → ∀ cs, candidates q.reranking q.chunks = some cs →
    ∃ k, IsLongestFit q.tokenizer.count q.availableChunkTokens cs k ∧
      p.context.chunks = (generateReferenceListFromChunks (addIds (cs.take k))).2

/-- What the estimate leaves out: the difference of the two response types, the text of the context
itself, what further placeholders repeat, and the reference list. -/
def unestimated (kept : List Chunk) : ℤ :=
  (q.tokenizer.count (q.template.format "" (q.param.responseType.getD "None")
      q.effectiveUserPrompt.slot) -
    q.tokenizer.count (q.template.format "" q.param.effectiveResponseType
      q.effectiveUserPrompt.slot)) +
  q.template.placeholders * q.tokenizer.count (naiveQueryContext "" "") +
  (q.template.placeholders - 1) * chunkTokens q.tokenizer.count kept +
  q.template.placeholders * referenceTokens q.tokenizer.count kept

structure ReserveCovers : Prop where
  references : q.FitsEmpty → ∀ cs, candidates q.reranking q.chunks = some cs → ∀ k, 0 < k →
    Fits q.tokenizer q.availableChunkTokens cs k →
    (∀ j, Fits q.tokenizer q.availableChunkTokens cs j → j ≤ k) →
      q.unestimated (cs.take k) ≤
        200 + (q.availableChunkTokens - chunkTokens q.tokenizer.count (cs.take k))
  charged : q.availableChunkTokens = 0 → ∀ cs, candidates q.reranking q.chunks = some cs →
    Charged q.tokenizer.count cs

variable {q}
variable {kept : List Chunk} {c : Context}

theorem tokens_promptOf (hadd : Additive q.tokenizer.count) (h : contextOf kept = some c) :
    q.tokens (q.promptOf c) =
      q.tokenizer.count (q.template.format "" (q.param.responseType.getD "None")
          q.effectiveUserPrompt.slot) +
        q.template.placeholders *
          (q.tokenizer.count (naiveQueryContext "" "") + chunkTokens q.tokenizer.count kept +
            referenceTokens q.tokenizer.count kept) +
        q.tokenizer.count q.query := by
  obtain ⟨textUnits,htext,rfl⟩ := map_eq_some_iff.mp h
  rw [Request.tokens,promptOf,count_format hadd,count_naiveQueryContext hadd,
    chunkTokens_of_rendered htext,referenceTokens]

theorem tokens_le_iff (hadd : Additive q.tokenizer.count) (h : contextOf kept = some c) :
    q.tokens (q.promptOf c) ≤ q.param.maxTotalTokens ↔
      q.unestimated kept ≤
        200 + (q.availableChunkTokens - chunkTokens q.tokenizer.count kept) := by
  rw [tokens_promptOf hadd h,unestimated,availableChunkTokens]
  push_cast
  constructor <;> intro hle <;> linarith

theorem prompt_cases {p : Prompt} (h : q.prompt = some p) :
    q.chunks ≠ [] ∧ ∃ kept, processChunksUnified q.reranking q.tokenizer q.availableChunkTokens
      q.chunks = some kept ∧ ∃ c, contextOf kept = some c ∧ p = q.promptOf c := by
  unfold prompt at h
  split at h
  · cases h
  case isFalse hne =>
    obtain ⟨c,hbuilt,rfl⟩ := map_eq_some_iff.mp h
    obtain ⟨kept,hkept,hc⟩ := bind_eq_some_iff.mp hbuilt
    exact ⟨hne,kept,hkept,c,hc,rfl⟩

theorem prompt_of_kept (hne : q.chunks ≠ [])
    (hkept : processChunksUnified q.reranking q.tokenizer q.availableChunkTokens q.chunks =
      some kept) (hc : contextOf kept = some c) : q.prompt = some (q.promptOf c) := by
  unfold prompt
  rw [if_neg hne,hkept,bind_some,hc]
  rfl

theorem chunks_contextOf (h : contextOf kept = some c) :
    c.chunks = (generateReferenceListFromChunks kept).2 := by
  obtain ⟨textUnits,_,rfl⟩ := map_eq_some_iff.mp h
  rfl

theorem candidates_nil (hnil : q.chunks = []) {cs : List Chunk}
    (hcs : candidates q.reranking q.chunks = some cs) : cs = [] := by
  have hsub := sublist_unrankedChunks q.reranking q.chunks
  rw [candidates_of_unranked (by rw [hnil]; exact KgQuery.unranked_nil _)] at hcs
  cases hcs
  rw [hnil,sublist_nil] at hsub
  rw [hnil]
  exact hsub

theorem unestimated_addIds (kept : List Chunk) : q.unestimated (addIds kept) = q.unestimated kept := by
  simp only [unestimated,chunkTokens_addIds,referenceTokens_addIds]

theorem withinBudget_iff (hq : q.tokenizer = .generic count guess) (hadd : Additive count) :
    q.WithinBudget ↔ q.ReserveCovers := by
  have hcount : q.tokenizer.count = count := by rw [hq]; rfl
  have hadd' : Additive q.tokenizer.count := hcount ▸ hadd
  have hcontext : ∀ {kept}, processChunksUnified q.reranking q.tokenizer q.availableChunkTokens
      q.chunks = some kept → ∃ c, contextOf kept = some c := by
    intro kept hkept
    obtain ⟨textUnits,htext⟩ := render_of_processed hkept
    exact ⟨_,by rw [contextOf,htext]; rfl⟩
  constructor
  · intro h
    constructor
    · intro hempty cs hcs k hk hfits hmax
      have hlength := length_of_fits hfits
      have hne : q.chunks ≠ [] := by
        intro hnil
        rw [candidates_nil hnil hcs,length_nil] at hlength
        omega
      have hkept := processed_of_fits hcs hfits hmax
      obtain ⟨c,hc⟩ := hcontext hkept
      have htotal := h.total hempty _ (prompt_of_kept hne hkept hc)
      rwa [tokens_le_iff hadd' hc,unestimated_addIds,chunkTokens_addIds] at htotal
    · intro hzero cs hcs
      by_cases hnil : q.chunks = []
      · rw [candidates_nil hnil hcs]
        intro j hj hlen
        rw [length_nil] at hlen
        omega
      · have hkept : processChunksUnified q.reranking q.tokenizer q.availableChunkTokens
            q.chunks = some [] := hzero ▸ processed_of_zero hcs
        obtain ⟨c,hc⟩ := hcontext hkept
        obtain ⟨k,hlongest,hchunks⟩ := h.longest _ (prompt_of_kept hnil hkept hc) cs hcs
        have hshown : c.chunks = [] := chunks_contextOf hc
        rw [promptOf,hshown] at hchunks
        exact charged_of_none hlongest hzero hchunks.symm
  · intro h
    constructor
    · intro hempty p hp
      obtain ⟨_,kept,hkept,c,hc,rfl⟩ := prompt_cases hp
      by_cases hne : kept = []
      · subst hne
        exact hempty c hc
      · obtain ⟨cs,k,hcs,rfl,hpos,hfits,hmax⟩ := kept_cases hkept hne
        rw [tokens_le_iff hadd' hc,unestimated_addIds,chunkTokens_addIds]
        exact h.references hempty cs hcs k hpos hfits hmax
    · intro p hp cs hcs
      obtain ⟨_,kept,hkept,c,hc,rfl⟩ := prompt_cases hp
      obtain ⟨k,rfl,hor,hmax,hlegible⟩ := processed_cases hkept hcs
      refine ⟨k,?_,chunks_contextOf hc⟩
      rw [hcount]
      rw [hq] at hor hmax hlegible
      apply (isLongestFit_iff hadd hor hmax hlegible).mpr
      intro hzero
      rw [← hcount]
      exact h.charged hzero cs hcs

end NaiveQuery

theorem additive_length : Additive String.length := String.length_append

/-- A tokenizer with a token for each character, and a chunk whose file path is longer than the
reserve. -/
def longPath : KgQuery where
  query := "who"
  nonempty := who_ne_empty
  param := ⟨100, 100, 710, some "Multiple Paragraphs", none, false⟩
  templates := ⟨none, none, [.contextData], none⟩
  tokenizer := .generic String.length fun s _ => s.length
  reranking := ⟨false, none, 0, none⟩
  stores := ⟨fun _ => none, .vector, 5, true, true, none, false⟩
  mix := true
  localEntities := []
  localRelations := []
  globalEntities := []
  globalRelations := []
  vectorRows := [⟨some "c1", some "text", some (String.ofList (List.replicate 210 'a'))⟩]

theorem length_kgQueryContext : (kgQueryContext "" "" "" "").length = 463 := by
  have hentity : entityHeading.length = 41 := by
    unfold entityHeading
    simp only [← String.length_toList,String.reduceToList,length_cons,length_nil,Nat.reduceAdd]
  have hrelation : relationHeading.length = 52 := by
    unfold relationHeading
    simp only [← String.length_toList,String.reduceToList,length_cons,length_nil,Nat.reduceAdd]
  have hchunk : chunkHeading.length = 229 := by
    unfold chunkHeading
    simp only [← String.length_toList,String.toList_append,String.reduceToList,
      length_append,length_cons,length_nil,Nat.reduceAdd]
  have hreference : referenceHeading.length = 129 := by
    unfold referenceHeading
    simp only [← String.length_toList,String.toList_append,String.reduceToList,
      length_append,length_cons,length_nil,Nat.reduceAdd]
  have hend : contextEnd.length = 6 := by
    unfold contextEnd
    simp only [← String.length_toList,String.reduceToList,length_cons,length_nil,Nat.reduceAdd]
  simp only [kgQueryContext,String.length_append,String.length_empty,hentity,hrelation,hchunk,
    hreference,hend]

theorem longPath_entities : longPath.entitiesContext = [] := rfl

theorem longPath_relations : longPath.relationsContext = [] := rfl

theorem longPath_count : longPath.tokenizer.count = String.length := rfl

theorem longPath_context : longPath.tokenizer.count (kgQueryContext
    (renderEntities longPath.entitiesContext) (renderRelations longPath.relationsContext) "" "") =
      463 := by
  rw [longPath_count,longPath_entities,longPath_relations]
  exact length_kgQueryContext

theorem longPath_available : longPath.availableChunkTokens = 44 := by
  rw [KgQuery.availableChunkTokens,longPath_context]
  decide +kernel

def longPathChunk : Chunk :=
  ⟨some "text", some (String.ofList (List.replicate 210 'a')), some "c1", none, none, "", none⟩

theorem longPath_kept : processChunksUnified longPath.reranking longPath.tokenizer 44
    longPath.mergedChunks = some (addIds [longPathChunk]) := by
  decide +kernel

theorem longPath_unestimated : 200 + (44 - chunkTokens String.length (addIds [longPathChunk]) : ℤ) <
    longPath.unestimated (addIds [longPathChunk]) := by
  rw [KgQuery.unestimated,longPath_context,longPath_count]
  decide +kernel

end LightRAG.QueryPrompt
