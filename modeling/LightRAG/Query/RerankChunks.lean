import LightRAG.Chunking.Tokens
import LightRAG.Query.Rerank
import Mathlib.Data.Set.Card
import Mathlib.Tactic.Linarith

/-!
# Reranking documents in chunks

A document that is too long for the reranker is sent as windows that overlap.
-/

namespace LightRAG.Rerank
open List

open Chunking (Str Tokenizer)
open QueryPrompt (RerankAnswer RerankResult normalizeRerankResult lt_of_normalizeRerankResult)

structure Window where
  size : ℕ
  overlap : ℕ
  advances : overlap < size

namespace Window

/-- The bounds of the windows from `start` on. -/
def spans (w : Window) (length start : ℕ) : List (ℕ × ℕ) :=
  if start < length then
    let stop := min (start + w.size) length
    if length ≤ stop then [(start, stop)]
    else (start, stop) :: w.spans length (stop - w.overlap)
  else []
termination_by length - start
decreasing_by
  have := w.advances
  omega

/-- `units[start:end]`. -/
def slice {α : Type} (units : List α) (span : ℕ × ℕ) : List α :=
  (units.drop span.1).take (span.2 - span.1)

def chunks {α : Type} (w : Window) (decode : List α → Str) (doc : Str) (units : List α) :
    List Str :=
  if units.length ≤ w.size then [doc]
  else (w.spans units.length 0).map fun span => decode (slice units span)

/-- One token is taken for four characters. -/
def inChars (w : Window) : Window where
  size := w.size * 4
  overlap := w.overlap * 4
  advances := by
    have := w.advances
    omega

end Window

/-- `overlap_tokens` clamped. -/
def window (maxTokens overlapTokens : ℤ) : Except String Window :=
  if hmax : maxTokens < 1 then .error s!"max_tokens must be >= 1, got {maxTokens}"
  else if hoverlap : overlapTokens < 0 then
    .error s!"overlap_tokens must be non-negative, got {overlapTokens}"
  else if hclamp : maxTokens ≤ overlapTokens then
    .ok ⟨maxTokens.toNat, (maxTokens / 2).toNat, by omega⟩
  else .ok ⟨maxTokens.toNat, overlapTokens.toNat, by omega⟩

section

variable {τ : Type} (tokenizer : Option (Tokenizer τ))

/-- What the body of the loop over the documents appends. -/
def chunkDocument (w : Window) (doc : Str) : List Str :=
  match tokenizer with
  | none => w.inChars.chunks id doc doc
  | some t => w.chunks t.decode doc (t.encode doc)

def tagged (chunk : Str → List Str) (documents : List Str) (idx : ℕ) : List (Str × ℕ) :=
  (documents.zipIdx idx).flatMap fun d => (chunk d.1).map fun c => (c, d.2)

/-- There is no tokenizer if `TiktokenTokenizer` cannot be built. -/
def chunkDocumentsForRerank (documents : List Str) (maxTokens overlapTokens : ℤ) :
    Except String (List Str × List ℕ) :=
  (window maxTokens overlapTokens).map fun w =>
    (tagged (chunkDocument tokenizer w) documents 0).unzip

inductive Aggregation
  | max
  | mean
  | first
  /-- An unknown strategy, which is taken for `max`. -/
  | other
deriving DecidableEq

def Aggregation.score : Aggregation → List ℚ → Option ℚ
  | _, [] => none
  | .mean, scores => some (scores.sum / scores.length)
  | .first, score :: _ => some score
  | .max, score :: rest => some (rest.foldl Max.max score)
  | .other, score :: rest => some (rest.foldl Max.max score)

/-- `doc_scores[doc_idx]`. -/
def docScores (docIndices : List ℕ) (chunkResults : RerankAnswer) (docIdx : ℕ) : List ℚ :=
  (chunkResults.filterMap (normalizeRerankResult docIndices.length)).filterMap fun r =>
    if docIndices[r.1]? = some docIdx then some r.2 else none

def aggregateChunkScores (chunkResults : RerankAnswer) (docIndices : List ℕ)
    (numOriginalDocs : ℕ) (aggregation : Aggregation) : List (ℕ × ℚ) :=
  if chunkResults = [] ∨ docIndices = [] then []
  else
    ((List.range numOriginalDocs).filterMap fun docIdx =>
      (aggregation.score (docScores docIndices chunkResults docIdx)).map fun score =>
        (docIdx, score)).insertionSort fun a b => b.2 ≤ a.2

inductive Response
  | failed
  /-- What stands under `results`, and nothing if it is not a list. -/
  | results (found : Option RerankAnswer)

/-- The object `{"index": …, "relevance_score": …}`. -/
def publicShape (result : ℕ × ℚ) : Option RerankResult :=
  some ⟨some (.int result.1), some result.2, { content := none }⟩

def limitTopN (topN : Option ℕ) (results : List (ℕ × ℚ)) : List (ℕ × ℚ) :=
  match topN with
  | none => results
  | some n => if n < results.length then results.take n else results

/-- The provider is asked with the documents, or their chunks, and a `top_n`. -/
def genericRerankApi (provider : List Str → Option ℕ → Response) (documents : List Str)
    (topN : Option ℕ) (enableChunking : Bool) (maxTokensPerDoc : ℤ) :
    Except String (List (ℕ × ℚ)) := do
  let (sent, docIndices) ←
    if enableChunking then chunkDocumentsForRerank tokenizer documents maxTokensPerDoc 32
    else pure (documents, [])
  match provider sent (if enableChunking then none else topN) with
  | .failed => .error "Rerank API error"
  | .results found =>
    let standardized := (found.getD []).filterMap (normalizeRerankResult sent.length)
    if standardized = [] then return []
    else if enableChunking ∧ docIndices ≠ [] then
      return limitTopN topN (aggregateChunkScores (standardized.map publicShape) docIndices
        documents.length .max)
    else return standardized

end

/-- Windows of at most `limit` units, each of which starts inside the one before it or at its end,
that leave out no unit. -/
structure Covers (limit length : ℕ) (spans : List (ℕ × ℕ)) : Prop where
  nonempty : spans ≠ []
  within : ∀ s ∈ spans, s.1 ≤ s.2 ∧ s.2 ≤ length ∧ s.2 - s.1 ≤ limit
  linked : spans.IsChain fun s t => s.1 < t.1 ∧ t.1 ≤ s.2
  covering : ∀ i < length, ∃ s ∈ spans, s.1 ≤ i ∧ i < s.2

/-- The document itself if it is short enough, and windows of its units otherwise. -/
def Windowed {α : Type} (limit : ℕ) (decode : List α → Str) (doc : Str) (units : List α)
    (chunks : List Str) : Prop :=
  if units.length ≤ limit then chunks = [doc]
  else ∃ spans, Covers limit units.length spans ∧
    chunks = spans.map fun span => decode (Window.slice units span)

def WindowedBy {τ : Type} (tokenizer : Option (Tokenizer τ)) (maxTokens : ℕ) (doc : Str)
    (chunks : List Str) : Prop :=
  match tokenizer with
  | none => Windowed (maxTokens * 4) id doc doc chunks
  | some t => Windowed maxTokens t.decode doc (t.encode doc) chunks

def owned (chunks : List Str) (docIndices : List ℕ) (docIdx : ℕ) : List Str :=
  ((chunks.zip docIndices).filter fun c => c.2 = docIdx).map Prod.fst

/-- Every chunk has an owner, the owners go up, and each document owns windows of its own. -/
structure Chunked {τ : Type} (tokenizer : Option (Tokenizer τ)) (maxTokens : ℕ)
    (documents chunks : List Str) (docIndices : List ℕ) : Prop where
  lengths : chunks.length = docIndices.length
  ascending : docIndices.Pairwise (· ≤ ·)
  owners : ∀ i, i ∈ docIndices ↔ i < documents.length
  windows : ∀ i doc, documents[i]? = some doc →
    WindowedBy tokenizer maxTokens doc (owned chunks docIndices i)

def IsChunkScore (answer : RerankAnswer) (docIndices : List ℕ) (docIdx : ℕ) (score : ℚ) : Prop :=
  ∃ result ∈ answer, ∃ chunk,
    normalizeRerankResult docIndices.length result = some (chunk, score) ∧
      docIndices[chunk]? = some docIdx

/-- The `topN` best documents, each with its best score. -/
structure BestDocuments (scored : ℕ → ℚ → Prop) (topN : ℕ) (entries : List (ℕ × ℚ)) : Prop where
  count : entries.length = min topN {i | ∃ score, scored i score}.ncard
  distinct : (entries.map Prod.fst).Nodup
  descending : entries.Pairwise fun a b => b.2 ≤ a.2
  best : ∀ e ∈ entries, IsGreatest {score | scored e.1 score} e.2
  leftOut : ∀ i score, scored i score → i ∉ entries.map Prod.fst → ∀ e ∈ entries, score ≤ e.2

section

variable {w : Window} {length start i : ℕ} {s t : ℕ × ℕ} {maxTokens overlapTokens : ℤ}

theorem Window.head_spans (h : t ∈ (w.spans length start).head?) : t.1 = start := by
  rw [spans] at h
  split at h
  · dsimp only at h
    split at h
    · cases h
      rfl
    · cases h
      rfl
  · cases h

theorem Window.spans_within (h : s ∈ w.spans length start) :
    s.1 ≤ s.2 ∧ s.2 ≤ length ∧ s.2 - s.1 ≤ w.size := by
  fun_induction spans w length start with
  | case1 start hlt stop hlast =>
    obtain rfl := mem_singleton.mp h
    omega
  | case2 start hlt stop hlast ih =>
    cases h with
    | head =>
      omega
    | tail _ h => exact ih h
  | case3 => cases h

theorem Window.spans_linked :
    (w.spans length start).IsChain fun s t => s.1 < t.1 ∧ t.1 ≤ s.2 := by
  fun_induction spans w length start with
  | case1 => exact isChain_singleton _
  | case2 start hlt stop hlast ih =>
    refine isChain_cons.mpr ⟨fun t ht => ?_,ih⟩
    have hstart := head_spans ht
    have := w.advances
    omega
  | case3 => exact isChain_nil

theorem Window.spans_covering (hstart : start ≤ i) (hi : i < length) :
    ∃ s ∈ w.spans length start, s.1 ≤ i ∧ i < s.2 := by
  fun_induction spans w length start with
  | case1 start hlt stop hlast => exact ⟨_,mem_singleton_self _,hstart,by omega⟩
  | case2 start hlt stop hlast ih =>
    by_cases hstop : i < stop
    · exact ⟨_,mem_cons_self,hstart,hstop⟩
    · obtain ⟨s,hs,hcover⟩ := ih (by omega)
      exact ⟨s,mem_cons_of_mem _ hs,hcover⟩
  | case3 start hlt => omega

theorem Window.covers (hlong : w.size < length) : Covers w.size length (w.spans length 0) where
  nonempty hnil := by
    obtain ⟨s,hs,-⟩ := spans_covering (w := w) (Nat.le_refl 0) (by omega : 0 < length)
    rw [hnil] at hs
    cases hs
  within _ := spans_within
  linked := spans_linked
  covering _ hi := spans_covering (Nat.zero_le _) hi

theorem Window.windowed {α : Type} (w : Window) (decode : List α → Str) (doc : Str)
    (units : List α) : Windowed w.size decode doc units (w.chunks decode doc units) := by
  rw [Windowed,chunks]
  split
  · rfl
  · exact ⟨_,covers (by omega),rfl⟩

theorem window_size (hmax : 1 ≤ maxTokens) (hoverlap : 0 ≤ overlapTokens) :
    ∃ w, window maxTokens overlapTokens = .ok w ∧ w.size = maxTokens.toNat := by
  rw [window,dif_neg (by omega),dif_neg (by omega)]
  split
  · exact ⟨_,rfl,rfl⟩
  · exact ⟨_,rfl,rfl⟩

end

section

variable {τ : Type} {tokenizer : Option (Tokenizer τ)} {chunk : Str → List Str}
  {documents : List Str} {doc : Str} {p : Str × ℕ} {idx i : ℕ} {maxTokens overlapTokens : ℤ}

theorem windowedBy_chunkDocument (w : Window) :
    WindowedBy tokenizer w.size doc (chunkDocument tokenizer w doc) := by
  cases tokenizer with
  | none => exact w.inChars.windowed id doc doc
  | some t => exact w.windowed t.decode doc (t.encode doc)

theorem Windowed.nonempty {α : Type} {limit : ℕ} {decode : List α → Str} {units : List α}
    {chunks : List Str} (h : Windowed limit decode doc units chunks) : chunks ≠ [] := by
  rw [Windowed] at h
  split at h
  · simp [h]
  · obtain ⟨spans,hcovers,rfl⟩ := h
    simpa using hcovers.nonempty

theorem chunkDocument_nonempty (w : Window) : chunkDocument tokenizer w doc ≠ [] := by
  cases tokenizer with
  | none => exact (w.inChars.windowed id doc doc).nonempty
  | some t => exact (w.windowed t.decode doc (t.encode doc)).nonempty

@[simp] theorem tagged_cons : tagged chunk (doc :: documents) idx =
    ((chunk doc).map fun c => (c, idx)) ++ tagged chunk documents (idx + 1) := by
  simp [tagged]

theorem le_of_mem_tagged (h : p ∈ tagged chunk documents idx) : idx ≤ p.2 := by
  induction documents generalizing idx with
  | nil => cases h
  | cons doc rest ih =>
    rw [tagged_cons,mem_append,mem_map] at h
    obtain ⟨c,-,rfl⟩ | h := h
    · exact Nat.le_refl idx
    · exact Nat.le_of_succ_le (ih h)

theorem pairwise_tagged :
    (tagged chunk documents idx).Pairwise fun p q => p.2 ≤ q.2 := by
  induction documents generalizing idx with
  | nil => exact .nil
  | cons doc rest ih =>
    rw [tagged_cons,pairwise_append]
    refine ⟨?_,ih,fun p hp q hq => ?_⟩
    · exact pairwise_map.mpr (pairwise_of_forall fun _ _ => Nat.le_refl idx)
    · obtain ⟨c,-,rfl⟩ := mem_map.mp hp
      exact Nat.le_of_succ_le (le_of_mem_tagged hq)

theorem filter_tagged (chunk : Str → List Str) (idx : ℕ) (hdoc : documents[i]? = some doc) :
    ((tagged chunk documents idx).filter fun p => p.2 = idx + i).map Prod.fst = chunk doc := by
  induction documents generalizing idx i with
  | nil => cases hdoc
  | cons first rest ih =>
    rw [tagged_cons,filter_append]
    cases i with
    | zero =>
      obtain rfl := Option.some.inj hdoc
      have hrest : ((tagged chunk rest (idx + 1)).filter fun p => p.2 = idx + 0) = [] := by
        apply filter_eq_nil_iff.mpr
        intro p hp
        have := le_of_mem_tagged hp
        simp only [decide_eq_true_eq]
        omega
      rw [hrest]
      simp [filter_map,Function.comp_def]
    | succ i =>
      have hfirst : (((chunk first).map fun c => (c, idx)).filter fun p => p.2 = idx + (i + 1)) =
          [] := by
        simp [filter_map]
      rw [← ih (idx + 1) hdoc]
      simp [Nat.add_assoc,Nat.add_comm 1 i]

theorem mem_owners (hchunk : ∀ doc, chunk doc ≠ []) :
    i ∈ (tagged chunk documents 0).map Prod.snd ↔ i < documents.length := by
  constructor
  · intro h
    obtain ⟨p,hp,rfl⟩ := mem_map.mp h
    obtain ⟨d,hd,hc⟩ := mem_flatMap.mp hp
    obtain ⟨c,-,rfl⟩ := mem_map.mp hc
    have := snd_lt_of_mem_zipIdx hd
    omega
  · intro h
    obtain ⟨c,hc⟩ := exists_mem_of_ne_nil _ (hchunk documents[i])
    rw [← filter_tagged chunk 0 (List.getElem?_eq_getElem h),mem_map] at hc
    obtain ⟨p,hp,-⟩ := hc
    obtain ⟨hmem,hi⟩ := mem_filter.mp hp
    exact mem_map.mpr ⟨p,hmem,by simpa using hi⟩

theorem chunked (hmax : 1 ≤ maxTokens) (hoverlap : 0 ≤ overlapTokens) :
    ∃ chunks docIndices,
      chunkDocumentsForRerank tokenizer documents maxTokens overlapTokens =
        .ok (chunks, docIndices) ∧
      Chunked tokenizer maxTokens.toNat documents chunks docIndices := by
  obtain ⟨w,hw,hsize⟩ := window_size hmax hoverlap
  rw [chunkDocumentsForRerank,hw,← hsize]
  refine ⟨_,_,rfl,?_⟩
  rw [unzip_eq_map]
  constructor
  case lengths => simp
  case ascending => exact pairwise_map.mpr pairwise_tagged
  case owners => exact fun i => mem_owners fun _ => chunkDocument_nonempty w
  case windows =>
    intro i doc hdoc
    have howned := filter_tagged (chunkDocument tokenizer w) 0 hdoc
    rw [Nat.zero_add] at howned
    have hzip (ps : List (Str × ℕ)) : (ps.map Prod.fst).zip (ps.map Prod.snd) = ps := by
      have hunzip := zip_unzip ps
      rwa [unzip_eq_map] at hunzip
    rw [owned,hzip,howned]
    exact windowedBy_chunkDocument w

end

section

variable {scores : List ℚ} {best score : ℚ} {docIndices : List ℕ} {answer : RerankAnswer}
  {chunk n docIdx : ℕ} {result : Option RerankResult}

theorem isGreatest_foldl (scores : List ℚ) (score : ℚ) :
    IsGreatest {x | x ∈ score :: scores} (scores.foldl Max.max score) := by
  induction scores generalizing score with
  | nil => exact ⟨mem_singleton_self _,fun x hx => (mem_singleton.mp hx).le⟩
  | cons next rest ih =>
    obtain ⟨hmem,hbound⟩ := ih (max score next)
    rw [foldl_cons]
    constructor
    · rcases mem_cons.mp hmem with heq | hrest
      · rw [heq]
        rcases max_choice score next with hmax | hmax
        · simp [hmax]
        · simp [hmax]
      · simp [hrest]
    · intro x hx
      have hfirst := hbound (mem_cons_self : max score next ∈ max score next :: rest)
      rcases mem_cons.mp hx with rfl | hx
      · exact (le_max_left _ _).trans hfirst
      · rcases mem_cons.mp hx with rfl | hx
        · exact (le_max_right _ _).trans hfirst
        · exact hbound (mem_cons_of_mem _ hx)

theorem Aggregation.score_max (h : Aggregation.max.score scores = some best) :
    IsGreatest {x | x ∈ scores} best := by
  cases scores with
  | nil => cases h
  | cons score rest =>
    obtain rfl := Option.some.inj h
    exact isGreatest_foldl rest score

theorem Aggregation.exists_score_max (h : score ∈ scores) :
    ∃ best, Aggregation.max.score scores = some best := by
  cases scores with
  | nil => cases h
  | cons first rest => exact ⟨_,rfl⟩

theorem normalizeRerankResult_publicShape (score : ℚ) (h : chunk < n) :
    normalizeRerankResult n (publicShape (chunk, score)) = some (chunk, score) := by
  simp [normalizeRerankResult,publicShape,h]

theorem mem_docScores : score ∈ docScores docIndices
      ((answer.filterMap (normalizeRerankResult docIndices.length)).map publicShape) docIdx ↔
    IsChunkScore answer docIndices docIdx score := by
  constructor
  · intro h
    obtain ⟨⟨chunk,s⟩,hused,hscore⟩ := mem_filterMap.mp h
    obtain ⟨shape,hshape,hnorm⟩ := mem_filterMap.mp hused
    obtain ⟨⟨c,x⟩,hx,rfl⟩ := mem_map.mp hshape
    obtain ⟨result,hresult,hvalid⟩ := mem_filterMap.mp hx
    rw [normalizeRerankResult_publicShape _ (lt_of_normalizeRerankResult hvalid)] at hnorm
    cases hnorm
    split at hscore
    · cases hscore
      exact ⟨result,hresult,c,hvalid,‹_›⟩
    · cases hscore
  · rintro ⟨result,hresult,chunk,hvalid,howner⟩
    have hagain := normalizeRerankResult_publicShape score
      (lt_of_normalizeRerankResult hvalid)
    refine mem_filterMap.mpr ⟨(chunk, score),?_,if_pos howner⟩
    exact mem_filterMap.mpr ⟨_,mem_map_of_mem
      (mem_filterMap.mpr ⟨result,hresult,hvalid⟩),hagain⟩

end

section

variable {scores : ℕ → List ℚ} {n k i : ℕ} {best : ℚ} {rows : List (ℕ × ℚ)}

def scoredRows (scores : ℕ → List ℚ) (n : ℕ) : List (ℕ × ℚ) :=
  (List.range n).filterMap fun i => (Aggregation.max.score (scores i)).map fun score => (i, score)

theorem mem_scoredRows :
    (i, best) ∈ scoredRows scores n ↔ i < n ∧ Aggregation.max.score (scores i) = some best := by
  simp [scoredRows]

theorem nodup_scoredRows : ((scoredRows scores n).map Prod.fst).Nodup := by
  apply pairwise_map.mpr
  refine List.Pairwise.filterMap _ (fun i j hne a ha b hb => ?_) nodup_range
  obtain ⟨x,-,rfl⟩ := Option.map_eq_some_iff.mp ha
  obtain ⟨y,-,rfl⟩ := Option.map_eq_some_iff.mp hb
  exact hne

theorem mem_fst_scoredRows (hscored : ∀ i, scores i ≠ [] → i < n) :
    i ∈ (scoredRows scores n).map Prod.fst ↔ ∃ score, score ∈ scores i := by
  constructor
  · intro h
    obtain ⟨⟨i,best⟩,hrow,rfl⟩ := mem_map.mp h
    exact ⟨best,(Aggregation.score_max (mem_scoredRows.mp hrow).2).1⟩
  · rintro ⟨score,hscore⟩
    obtain ⟨best,hbest⟩ := Aggregation.exists_score_max hscore
    have hrow := mem_scoredRows.mpr ⟨hscored i (ne_nil_of_mem hscore),hbest⟩
    exact mem_map.mpr ⟨_,hrow,rfl⟩

theorem bestDocuments (k : ℕ) (hscored : ∀ i, scores i ≠ [] → i < n) :
    BestDocuments (fun i score => score ∈ scores i) k
      (limitTopN (some k) ((scoredRows scores n).insertionSort fun a b => b.2 ≤ a.2)) := by
  have hperm := perm_insertionSort (fun a b : ℕ × ℚ => b.2 ≤ a.2) (scoredRows scores n)
  have hsorted := pairwise_insertionSort (fun a b : ℕ × ℚ => b.2 ≤ a.2) (scoredRows scores n)
  generalize (scoredRows scores n).insertionSort (fun a b => b.2 ≤ a.2) = sorted at hperm hsorted ⊢
  have htake : limitTopN (some k) sorted = sorted.take k := by
    rw [limitTopN]
    split
    · rfl
    · exact (take_of_length_le (by omega)).symm
  have hnodup : (sorted.map Prod.fst).Nodup := (hperm.map _).nodup_iff.mpr nodup_scoredRows
  have hmem : ∀ e ∈ sorted, Aggregation.max.score (scores e.1) = some e.2 :=
    fun e he => (mem_scoredRows.mp (hperm.mem_iff.mp he)).2
  have hkeys : {i | ∃ score, score ∈ scores i} = ↑(sorted.map Prod.fst).toFinset := by
    ext i
    rw [coe_toFinset,Set.mem_ofPred_eq,Set.mem_ofPred_eq,(hperm.map _).mem_iff,
      mem_fst_scoredRows hscored]
  rw [htake]
  constructor
  case count =>
    rw [hkeys,Set.ncard_coe_finset,toFinset_card_of_nodup hnodup,length_map,length_take]
  case distinct => exact hnodup.sublist ((take_sublist k sorted).map _)
  case descending => exact hsorted.sublist (take_sublist k sorted)
  case best => exact fun e he => Aggregation.score_max (hmem e (mem_of_mem_take he))
  case leftOut =>
    intro i score hscore hout e he
    have hi : i ∈ sorted.map Prod.fst :=
      (hperm.map _).mem_iff.mpr ((mem_fst_scoredRows hscored).mpr ⟨score,hscore⟩)
    obtain ⟨⟨i,best⟩,hrow,rfl⟩ := mem_map.mp hi
    have hdrop : (i, best) ∈ sorted.drop k := by
      rw [← take_append_drop k sorted,mem_append] at hrow
      exact hrow.resolve_left fun h => hout (mem_map_of_mem h)
    rw [← take_append_drop k sorted,pairwise_append] at hsorted
    exact ((Aggregation.score_max (hmem _ hrow)).2 hscore).trans (hsorted.2.2 e he _ hdrop)

end

section

variable {τ : Type} {tokenizer : Option (Tokenizer τ)} {documents chunks : List Str}
  {docIndices : List ℕ} {maxTokens : ℤ} {provider : List Str → Option ℕ → Response}
  {found : Option RerankAnswer} {topN : Option ℕ}

theorem genericRerankApi_eq
    (hchunks : chunkDocumentsForRerank tokenizer documents maxTokens 32 = .ok (chunks, docIndices))
    (hlength : chunks.length = docIndices.length)
    (hprovider : provider chunks none = .results found) :
    genericRerankApi tokenizer provider documents topN true maxTokens =
      .ok (limitTopN topN ((scoredRows (docScores docIndices
        (((found.getD []).filterMap (normalizeRerankResult docIndices.length)).map publicShape))
        documents.length).insertionSort fun a b => b.2 ≤ a.2)) := by
  have hrun : genericRerankApi tokenizer provider documents topN true maxTokens =
      if (found.getD []).filterMap (normalizeRerankResult docIndices.length) = [] then .ok []
      else if True ∧ docIndices ≠ [] then
        .ok (limitTopN topN (aggregateChunkScores (((found.getD []).filterMap
          (normalizeRerankResult docIndices.length)).map publicShape) docIndices
          documents.length .max))
      else .ok ((found.getD []).filterMap (normalizeRerankResult docIndices.length)) := by
    simp only [genericRerankApi,if_true,hchunks,bind,Except.bind,hprovider,hlength]
    rfl
  rw [hrun]
  generalize hused : (found.getD []).filterMap (normalizeRerankResult docIndices.length) = used
  by_cases hempty : used = []
  · have hlimit : limitTopN topN [] = [] := by cases topN <;> rfl
    have hrows (k : ℕ) : scoredRows (docScores docIndices ([].map publicShape)) k = [] := by
      simp [scoredRows,docScores,Aggregation.score]
    rw [if_pos hempty,hempty,hrows,insertionSort_nil,hlimit]
  · have howners : docIndices ≠ [] := by
      rintro rfl
      obtain ⟨r,hr⟩ := exists_mem_of_ne_nil used hempty
      obtain ⟨result,-,hresult⟩ := mem_filterMap.mp (hused ▸ hr)
      exact absurd (lt_of_normalizeRerankResult hresult) (Nat.not_lt_zero _)
    have hshapes : ¬(used.map publicShape = [] ∨ docIndices = []) := by simp [hempty,howners]
    rw [if_neg hempty,if_pos ⟨trivial,howners⟩,aggregateChunkScores,if_neg hshapes]
    rfl

/-- Chunking ends for every overlap, and what the reranker says of the chunks gives the best
documents. -/
theorem chunked_and_best (hmax : 1 ≤ maxTokens) :
    (∀ overlapTokens ≥ 0, ∃ chunks docIndices,
      chunkDocumentsForRerank tokenizer documents maxTokens overlapTokens =
        .ok (chunks, docIndices) ∧
      Chunked tokenizer maxTokens.toNat documents chunks docIndices) ∧
    ∃ chunks docIndices,
      chunkDocumentsForRerank tokenizer documents maxTokens 32 = .ok (chunks, docIndices) ∧
      ∀ provider found topN, provider chunks none = .results found →
        ∃ entries,
          genericRerankApi tokenizer provider documents (some topN) true maxTokens = .ok entries ∧
          BestDocuments (IsChunkScore (found.getD []) docIndices) topN entries := by
  have hends : ∀ overlapTokens ≥ 0, ∃ chunks docIndices,
      chunkDocumentsForRerank tokenizer documents maxTokens overlapTokens =
        .ok (chunks, docIndices) ∧
      Chunked tokenizer maxTokens.toNat documents chunks docIndices :=
    fun overlapTokens hoverlap => chunked hmax hoverlap
  obtain ⟨chunks,docIndices,hchunks,hchunked⟩ := hends 32 (by decide)
  refine ⟨hends,chunks,docIndices,hchunks,fun provider found topN hprovider => ?_⟩
  refine ⟨_,genericRerankApi_eq hchunks hchunked.lengths hprovider,?_⟩
  have hscored : IsChunkScore (found.getD []) docIndices =
      fun i score => score ∈ docScores docIndices (((found.getD []).filterMap
        (normalizeRerankResult docIndices.length)).map publicShape) i :=
    funext fun i => funext fun score => propext mem_docScores.symm
  rw [hscored]
  apply bestDocuments topN
  intro i hi
  obtain ⟨score,hscore⟩ := exists_mem_of_ne_nil _ hi
  obtain ⟨result,-,chunk,-,howner⟩ := mem_docScores.mp hscore
  exact (hchunked.owners i).mp (mem_of_getElem? howner)

/-- A text of three windows of four characters, and one that is short. -/
theorem chunked_and_best_letters :
    (∀ overlapTokens ≥ 0, ∃ chunks docIndices,
      chunkDocumentsForRerank (τ := Char) none ["abcdefghij".toList, ['k']] 1 overlapTokens =
        .ok (chunks, docIndices) ∧
      Chunked (τ := Char) none (1 : ℤ).toNat ["abcdefghij".toList, ['k']] chunks docIndices) ∧
    ∃ chunks docIndices,
      chunkDocumentsForRerank (τ := Char) none ["abcdefghij".toList, ['k']] 1 32 =
        .ok (chunks, docIndices) ∧
      ∀ provider found topN, provider chunks none = .results found →
        ∃ entries,
          genericRerankApi (τ := Char) none provider ["abcdefghij".toList, ['k']] (some topN)
            true 1 = .ok entries ∧
          BestDocuments (IsChunkScore (found.getD []) docIndices) topN entries :=
  chunked_and_best (by decide)

end

end LightRAG.Rerank
