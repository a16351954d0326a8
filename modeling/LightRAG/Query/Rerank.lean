import LightRAG.Query.Retrieved

/-!
# Reranking and truncation of chunks

What a reranker's answer makes of a list of chunks, and which prefix of it the token budget keeps.
-/

namespace LightRAG.QueryPrompt
open List Option

/-- The value under `index`: an integer that is not a boolean, or another value. -/
inductive IndexValue
  | int (i : ℤ)
  | other
deriving DecidableEq

structure RerankResult where
  index : Option IndexValue
  /-- The finite number that `float` makes of `relevance_score`. -/
  relevanceScore : Option ℚ
  document : Chunk
deriving DecidableEq

/-- The list that a reranker returns; what is not an object in it is nothing. -/
abbrev RerankAnswer := List (Option RerankResult)

structure Reranking where
  enableRerank : Bool
  /-- Takes the documents and `top_n`, and gives nothing when it raises. -/
  rerankModelFunc : Option (List Chunk → ℕ → Option RerankAnswer)
  minRerankScore : ℚ
  chunkTopK : Option ℕ

def normalizeRerankResult (maxIndex : ℕ) (result : Option RerankResult) : Option (ℕ × ℚ) :=
  match result with
  | none => none
  | some r =>
    match r.index with
    | some (.int i) =>
      if 0 ≤ i ∧ i < maxIndex then r.relevanceScore.map fun score => (i.toNat, score) else none
    | _ => none

theorem lt_of_normalizeRerankResult {n : ℕ} {o : Option RerankResult} {result : ℕ × ℚ}
    (h : normalizeRerankResult n o = some result) : result.1 < n := by
  unfold normalizeRerankResult at h
  split at h
  · cases h
  · split at h
    · split at h
      case isTrue hrange =>
        obtain ⟨score,_,rfl⟩ := map_eq_some_iff.mp h
        omega
      · cases h
    · cases h

/-- What `apply_rerank_if_enabled` returns: its argument, documents by index, or the documents of
the legacy format. -/
inductive Ranking
  | unranked
  | picked (results : List (ℕ × ℚ))
  | legacy (documents : List (Option Chunk))
deriving DecidableEq

variable (r : Reranking)

/-- `chunk_top_k or len(unique_chunks)`. -/
def Reranking.topN (chunks : List Chunk) : ℕ :=
  match r.chunkTopK with
  | none => chunks.length
  | some k => if k = 0 then chunks.length else k

/-- The first object of an answer has the key `index`. -/
def hasIndexFormat (answer : RerankAnswer) : Bool :=
  match answer.findSome? id with
  | some r => r.index.isSome
  | none => false

def applyRerankIfEnabled (chunks : List Chunk) : Ranking :=
  if ¬r.enableRerank ∨ chunks = [] then .unranked
  else
    match r.rerankModelFunc with
    | none => .unranked
    | some rerank =>
      match rerank chunks (r.topN chunks) with
      | none => .unranked
      | some answer =>
        if answer = [] then .unranked
        else if hasIndexFormat answer then
          let usable := answer.filterMap (normalizeRerankResult chunks.length)
          if usable = [] then .unranked else .picked usable
        else
          .legacy ((if r.topN chunks ≠ 0 then answer.take (r.topN chunks) else answer).map
            (Option.map RerankResult.document))

/-- `retrieved_docs[index].copy()` with its score. -/
def pickDocument (chunks : List Chunk) (result : ℕ × ℚ) : Option Chunk :=
  chunks[result.1]?.map fun c => { c with rerankScore := some result.2 }

def Ranking.documents (chunks : List Chunk) : Ranking → List (Option Chunk)
  | .unranked => chunks.map some
  | .picked results => results.map (pickDocument chunks)
  | .legacy documents => documents

/-- `rerank_score >= min_rerank_score`. -/
def Chunk.passes (minScore : ℚ) (c : Chunk) : Bool := minScore ≤ c.rerankScore.getD 1

/-- Step 2 of `process_chunks_unified`; nothing for an entry that is not an object. -/
def filterByScore (documents : List (Option Chunk)) :
    Option (List (Option Chunk)) :=
  if r.enableRerank ∧ 0 < r.minRerankScore then
    (documents.mapM id).map fun cs => (cs.filter (Chunk.passes r.minRerankScore)).map some
  else some documents

def limitTopK {α : Type} (xs : List α) : List α :=
  match r.chunkTopK with
  | none => xs
  | some k => if 0 < k then xs.take k else xs

/-- Stage 2 of the truncation; nothing for a `KeyError`. -/
def shrinkRendered (t : Tokenizer) (limit : ℕ) (render : ℕ → Option String) : ℕ → Option ℕ
  | 0 => some 0
  | k + 1 =>
    match render (k + 1) with
    | none => none
    | some text => if t.count text ≤ limit then some (k + 1) else shrinkRendered t limit render k

def renderCited (chunks : List Chunk) : Option String :=
  renderChunksContextText (generateReferenceListFromChunks chunks).2

/-- `_truncate_chunks_for_unified_context`. -/
def truncateChunks (t : Tokenizer) (maxTokenSize : ℤ) (documents : List (Option Chunk)) :
    Option (List Chunk) :=
  if maxTokenSize ≤ 0 ∨ documents = [] then some []
  else
    match documents.mapM id with
    | none => none
    | some chunks =>
      let approx := truncateListByTokenSize t Chunk.approxKey "\n" maxTokenSize chunks
      (shrinkRendered t maxTokenSize.toNat (fun k => renderCited (approx.take k))
        approx.length).map approx.take

def addIds (chunks : List Chunk) : List Chunk :=
  chunks.mapIdx fun i c => { c with id := some ("DC" ++ toString (i + 1)) }

def processChunksUnified (t : Tokenizer) (chunkTokenLimit : ℤ)
    (chunks : List Chunk) : Option (List Chunk) := do
  let filtered ← filterByScore r ((applyRerankIfEnabled r chunks).documents chunks)
  let kept ← truncateChunks t chunkTokenLimit (limitTopK r filtered)
  return addIds kept

/-- The chunks among which the truncation chooses a prefix. -/
def candidates (chunks : List Chunk) : Option (List Chunk) := do
  let filtered ← filterByScore r ((applyRerankIfEnabled r chunks).documents chunks)
  (limitTopK r filtered).mapM id

/-- The first `k` chunks are within the estimate of stage 1, all of which can be rendered, and
their text is within the limit. -/
structure Fits (t : Tokenizer) (limit : ℤ) (chunks : List Chunk) (k : ℕ) : Prop where
  positive : 0 < limit
  estimated : k ≤ (truncateListByTokenSize t Chunk.approxKey "\n" limit chunks).length
  legible : ∀ c ∈ truncateListByTokenSize t Chunk.approxKey "\n" limit chunks, c.content ≠ none
  rendered : ∃ text, renderCited (chunks.take k) = some text ∧ (t.count text : ℤ) ≤ limit

theorem truncateListByTokenSize_eq_take {α : Type} (t : Tokenizer) (key : α → String)
    (separator : String) (maxTokenSize : ℤ) (xs : List α) :
    truncateListByTokenSize t key separator maxTokenSize xs =
      xs.take (truncateListByTokenSize t key separator maxTokenSize xs).length := by
  have hprefix : ∃ n, truncateListByTokenSize t key separator maxTokenSize xs = xs.take n := by
    unfold truncateListByTokenSize
    split
    · exact ⟨0,rfl⟩
    · split
      · exact ⟨0,rfl⟩
      · exact ⟨_,rfl⟩
  obtain ⟨n,hn⟩ := hprefix
  rw [hn,length_take]
  rcases Nat.le_total n xs.length with hle | hle
  · rw [Nat.min_eq_left hle]
  · rw [Nat.min_eq_right hle,take_of_length_le hle,take_length]

theorem render_isSome {c : Chunk} (h : c.content ≠ none) : ∃ line, c.render = some line := by
  cases hc : c.content with
  | none => exact absurd hc h
  | some content => exact ⟨_,by rw [Chunk.render,hc]; rfl⟩

theorem mapM_isSome {α β : Type} {f : α → Option β} {xs : List α}
    (h : ∀ x ∈ xs, ∃ y, f x = some y) : ∃ ys, xs.mapM f = some ys := by
  induction xs with
  | nil => exact ⟨[],rfl⟩
  | cons x xs ih =>
    obtain ⟨y,hy⟩ := h x mem_cons_self
    obtain ⟨ys,hys⟩ := ih fun x' hx' => h x' (mem_cons_of_mem x hx')
    exact ⟨y :: ys,by rw [mapM_cons,hy,hys]; rfl⟩

theorem isSome_of_mapM {α β : Type} {f : α → Option β} {xs : List α} {ys : List β}
    (h : xs.mapM f = some ys) : ∀ x ∈ xs, ∃ y, f x = some y := by
  induction xs generalizing ys with
  | nil => exact fun x hx => absurd hx not_mem_nil
  | cons a as ih =>
    rw [mapM_cons] at h
    cases ha : f a with
    | none =>
      rw [ha] at h
      cases h
    | some b =>
      cases has : as.mapM f with
      | none =>
        rw [ha,has] at h
        cases h
      | some bs =>
        intro x hx
        cases hx with
        | head => exact ⟨b,ha⟩
        | tail _ hin => exact ih has x hin

theorem renderCited_isSome {chunks : List Chunk} (h : ∀ c ∈ chunks, c.content ≠ none) :
    ∃ text, renderCited chunks = some text := by
  have hlines : ∃ lines, (generateReferenceListFromChunks chunks).2.mapM Chunk.render =
      some lines := by
    apply mapM_isSome
    intro c hc
    obtain ⟨c',hc',rfl⟩ := mem_map.mp hc
    exact render_isSome (h c' hc')
  obtain ⟨lines,hlines⟩ := hlines
  exact ⟨join "\n" lines,by rw [renderCited,renderChunksContextText,hlines]; rfl⟩

theorem content_of_renderCited {chunks : List Chunk} {text : String}
    (h : renderCited chunks = some text) : ∀ c ∈ chunks, c.content ≠ none := by
  intro c hc hnone
  obtain ⟨lines,hlines,_⟩ := map_eq_some_iff.mp h
  obtain ⟨line,hline⟩ := isSome_of_mapM hlines
    { c with referenceId := referenceId (uniqueFilePaths chunks) c } (mem_map_of_mem hc)
  simp only [hnone] at hline
  cases hline

section Shrinking

variable {t : Tokenizer} {limit : ℕ} {render : ℕ → Option String} {n k : ℕ}

section

variable (h : shrinkRendered t limit render n = some k)

include h

theorem shrinkRendered_le : k ≤ n := by
  induction n with
  | zero =>
    cases h
    exact Nat.le_refl 0
  | succ n ih =>
    rw [shrinkRendered] at h
    split at h
    · cases h
    · split at h
      · cases h
        exact Nat.le_refl (n + 1)
      · exact Nat.le_succ_of_le (ih h)

theorem rendered_of_shrinkRendered (hpos : 0 < k) :
    ∃ text, render k = some text ∧ t.count text ≤ limit := by
  induction n with
  | zero =>
    cases h
    exact absurd hpos (Nat.lt_irrefl 0)
  | succ n ih =>
    rw [shrinkRendered] at h
    split at h
    · cases h
    case h_2 text htext =>
      split at h
      case isTrue hle =>
        cases h
        exact ⟨text,htext,hle⟩
      · exact ih h

theorem le_shrinkRendered {j : ℕ} {text : String}
    (hj : j ≤ n) (htext : render j = some text) (hle : t.count text ≤ limit) : j ≤ k := by
  induction n with
  | zero =>
    cases h
    exact hj
  | succ n ih =>
    rw [shrinkRendered] at h
    by_cases heq : j = n + 1
    · rw [← heq,htext] at h
      simp only at h
      rw [if_pos hle] at h
      cases h
      exact Nat.le_refl _
    · have hjn : j ≤ n := by omega
      split at h
      · cases h
      · split at h
        · cases h
          omega
        · exact ih h hjn

end

theorem shrinkRendered_isSome (h : ∀ j, j ≤ n → 0 < j → ∃ text, render j = some text) :
    ∃ k, shrinkRendered t limit render n = some k := by
  induction n with
  | zero => exact ⟨0,rfl⟩
  | succ n ih =>
    obtain ⟨text,htext⟩ := h (n + 1) (Nat.le_refl _) (Nat.succ_pos n)
    obtain ⟨k,hk⟩ := ih fun j hj hpos => h j (Nat.le_succ_of_le hj) hpos
    rw [shrinkRendered,htext]
    by_cases hle : t.count text ≤ limit
    · exact ⟨n + 1,if_pos hle⟩
    · exact ⟨k,by simp only; rw [if_neg hle]; exact hk⟩

theorem legible_of_shrinkRendered (h : shrinkRendered t limit render n = some k) (hpos : 0 < n) :
    ∃ text, render n = some text := by
  cases n with
  | zero => exact absurd hpos (Nat.lt_irrefl 0)
  | succ n =>
    rw [shrinkRendered] at h
    split at h
    · cases h
    case h_2 text htext => exact ⟨text,htext⟩

end Shrinking

section Truncation

variable {t : Tokenizer} {limit : ℤ} {documents : List (Option Chunk)} {chunks : List Chunk}

theorem fits_take (hpos : 0 < limit) {n k : ℕ} {approx : List Chunk}
    (happrox : truncateListByTokenSize t Chunk.approxKey "\n" limit chunks = approx)
    (hlegible : ∀ c ∈ approx, c.content ≠ none)
    (h : shrinkRendered t limit.toNat (fun j => renderCited (approx.take j)) n = some k)
    (hn : n = approx.length) (hk : 0 < k) : Fits t limit chunks k := by
  obtain ⟨text,htext,hle⟩ := rendered_of_shrinkRendered h hk
  have hkn : k ≤ approx.length := hn ▸ shrinkRendered_le h
  refine ⟨hpos,happrox ▸ hkn,happrox ▸ hlegible,text,?_,by omega⟩
  rw [← htext]
  rw [← happrox,truncateListByTokenSize_eq_take,take_take,happrox,Nat.min_eq_left hkn]

theorem truncateChunks_cases (hchunks : documents.mapM id = some chunks) :
    (∃ k, truncateChunks t limit documents = some (chunks.take k) ∧
        (k = 0 ∨ Fits t limit chunks k) ∧ ∀ j, Fits t limit chunks j → j ≤ k) ∨
      truncateChunks t limit documents = none ∧ ∀ j, ¬Fits t limit chunks j := by
  by_cases hnone : limit ≤ 0 ∨ documents = []
  · left
    refine ⟨0,?_,.inl rfl,?_⟩
    · rw [truncateChunks,if_pos hnone]
      rfl
    · intro j hfits
      rcases hnone with hlimit | hempty
      · exact absurd hfits.positive (by omega)
      · subst hempty
        cases hchunks
        have hest := hfits.estimated
        rw [truncateListByTokenSize,if_pos (.inr rfl)] at hest
        exact hest
  · have hpos : 0 < limit := by
      omega
    obtain ⟨approx,happrox⟩ :
        ∃ approx, truncateListByTokenSize t Chunk.approxKey "\n" limit chunks = approx := ⟨_,rfl⟩
    have heq : truncateChunks t limit documents =
        (shrinkRendered t limit.toNat (fun j => renderCited (approx.take j)) approx.length).map
          approx.take := by
      rw [truncateChunks,if_neg hnone,hchunks,← happrox]
    by_cases hlegible : ∀ c ∈ approx, c.content ≠ none
    · left
      obtain ⟨k,hk⟩ : ∃ k, shrinkRendered t limit.toNat (fun j => renderCited (approx.take j))
          approx.length = some k :=
        shrinkRendered_isSome fun j _ _ =>
          renderCited_isSome fun c hc => hlegible c (mem_of_mem_take hc)
      have htake : ∀ j, j ≤ approx.length → approx.take j = chunks.take j := by
        intro j hj
        rw [← happrox,truncateListByTokenSize_eq_take,take_take,happrox,Nat.min_eq_left hj]
      refine ⟨k,?_,?_,?_⟩
      · rw [heq,hk,← htake k (shrinkRendered_le hk)]
        rfl
      · rcases Nat.eq_zero_or_pos k with hzero | hkpos
        · exact .inl hzero
        · exact .inr (fits_take hpos happrox hlegible hk rfl hkpos)
      · intro j hfits
        have hj : j ≤ approx.length := happrox ▸ hfits.estimated
        obtain ⟨text,htext,hle⟩ := hfits.rendered
        rw [← htake j hj] at htext
        exact le_shrinkRendered hk hj htext (by omega)
    · right
      constructor
      · rw [heq]
        cases hs : shrinkRendered t limit.toNat (fun j => renderCited (approx.take j))
            approx.length with
        | none => rfl
        | some k =>
          have hne : 0 < approx.length := by
            rw [length_pos_iff]
            rintro rfl
            exact hlegible fun c hc => absurd hc not_mem_nil
          obtain ⟨text,htext⟩ := legible_of_shrinkRendered hs hne
          rw [take_length] at htext
          exact absurd (content_of_renderCited htext) hlegible
      · exact fun j hfits => hlegible (happrox ▸ hfits.legible)

theorem forall_truncateChunks {P : List Chunk → Prop} (hnil : P [])
    (hdown : ∀ cs k, P cs → P (cs.take k)) :
    (∀ kept, truncateChunks t limit documents = some kept → P kept) ↔
      ∀ chunks, documents.mapM id = some chunks → ∀ k, Fits t limit chunks k → P (chunks.take k) := by
  constructor
  · intro h chunks hchunks j hfits
    rcases @truncateChunks_cases t limit _ _ hchunks with ⟨k,hkept,_,hmax⟩ | hno
    · have hjk := hdown _ j (h _ hkept)
      rwa [take_take,Nat.min_eq_left (hmax j hfits)] at hjk
    · exact absurd hfits (hno.2 j)
  · intro h kept hkept
    cases hchunks : documents.mapM id with
    | none =>
      rw [truncateChunks] at hkept
      split at hkept
      · cases hkept
        exact hnil
      · rw [hchunks] at hkept
        cases hkept
    | some chunks =>
      rcases @truncateChunks_cases t limit _ _ hchunks with ⟨k,hk,hor,_⟩ | hno
      · rw [hk] at hkept
        cases hkept
        rcases hor with rfl | hfits
        · exact hnil
        · exact h chunks hchunks k hfits
      · rw [hno.1] at hkept
        cases hkept

theorem processChunksUnified_eq (r : Reranking) (chunks : List Chunk) :
    processChunksUnified r t limit chunks =
      (filterByScore r ((applyRerankIfEnabled r chunks).documents chunks)).bind fun filtered =>
        (truncateChunks t limit (limitTopK r filtered)).map addIds := by
  unfold processChunksUnified
  cases filterByScore r ((applyRerankIfEnabled r chunks).documents chunks) with
  | none => rfl
  | some filtered =>
    cases htrunc : truncateChunks t limit (limitTopK r filtered) with
    | none => simp [htrunc]
    | some kept => simp [htrunc]

theorem forall_processChunksUnified {r : Reranking} {P : List Chunk → Prop} (hnil : P [])
    (hdown : ∀ cs k, P cs → P (cs.take k)) (hids : ∀ cs, P (addIds cs) ↔ P cs) :
    (∀ kept, processChunksUnified r t limit chunks = some kept → P kept) ↔
      ∀ cs, candidates r chunks = some cs → ∀ k, Fits t limit cs k → P (cs.take k) := by
  rw [processChunksUnified_eq]
  unfold candidates
  cases filterByScore r ((applyRerankIfEnabled r chunks).documents chunks) with
  | none =>
    constructor
    · intro _ cs hcs
      cases hcs
    · intro _ kept hkept
      cases hkept
  | some filtered =>
    apply Iff.trans ?_ (@forall_truncateChunks t limit (limitTopK r filtered) P hnil hdown)
    rw [bind_some]
    constructor
    · intro h kept hkept
      apply (hids kept).mp
      apply h
      rw [hkept]
      rfl
    · intro h kept hkept
      obtain ⟨cs,hcs,rfl⟩ := map_eq_some_iff.mp hkept
      exact (hids cs).mpr (h cs hcs)

end Truncation

end LightRAG.QueryPrompt
