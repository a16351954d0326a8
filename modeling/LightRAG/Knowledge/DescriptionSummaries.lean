import LightRAG.Framework.Loop
import LightRAG.Framework.Results
import LightRAG.Knowledge.Descriptions
import LightRAG.Query.Prompt

/-!
# Summaries of descriptions

`_handle_entity_relation_summary` with its map-reduce loop, for any tokenizer and any model that
answers from what it was asked before.
-/

namespace LightRAG.Knowledge
open List

open QueryPrompt (Tokenizer truncateListByTokenSize dumps join)

structure SummaryConfig extends DescriptionConfig where
  /-- The end of a prefix of a text that does not fit; nothing for a `TokenBudgetError`. -/
  boundedPrefix : String → ℕ → Option ℕ
  /-- The template `summarize_entity_descriptions` around a list of descriptions. -/
  prompt : String → String

/-- The groups of a round while they are formed. -/
structure MapChunks where
  chunks : List (List String)
  currentChunk : List String
  currentTokens : ℕ

/-- The variables of the loop, and what the model remembers. -/
structure Summarizing (σ : Type) where
  currentList : List String
  llmWasUsed : Bool
  llm : σ

/-- `json.dumps({"Description": description}, ensure_ascii=False)`. -/
def jsonLine (description : String) : String := dumps [("Description", description)]

def jsonLines (descriptions : List String) : String := join "\n" (descriptions.map jsonLine)

namespace SummaryConfig

variable (cfg : SummaryConfig)

/-- A text that fits is its own prefix. -/
def tokenizer : Tokenizer where
  count := cfg.tokens
  truncateByTokenLimit content maxTokens :=
    if content = "" then some 0
    else if cfg.tokens content ≤ maxTokens then some content.length
    else cfg.boundedPrefix content maxTokens

def listed (descriptions : List String) : List String :=
  truncateListByTokenSize cfg.tokenizer jsonLine "\n" cfg.summaryContextSize descriptions

def totalTokens (descriptions : List String) : ℕ := (descriptions.map cfg.tokens).sum

def addDescription (c : MapChunks) (description : String) : MapChunks :=
  let tokens := cfg.tokens description
  if cfg.summaryContextSize < c.currentTokens + tokens ∧ c.currentChunk ≠ [] then
    if c.currentChunk.length = 1 then ⟨c.chunks ++ [c.currentChunk ++ [description]], [], 0⟩
    else ⟨c.chunks ++ [c.currentChunk], [description], tokens⟩
  else ⟨c.chunks, c.currentChunk ++ [description], c.currentTokens + tokens⟩

def mapChunks (descriptions : List String) : List (List String) :=
  let c := descriptions.foldl cfg.addDescription ⟨[], [], 0⟩
  if c.currentChunk ≠ [] then c.chunks ++ [c.currentChunk] else c.chunks

def isFinal (descriptions : List String) : Bool :=
  cfg.totalTokens descriptions ≤ cfg.summaryContextSize ∨ descriptions.length ≤ 2

def isJoined (descriptions : List String) : Bool :=
  descriptions.length < cfg.forceLlmSummaryOnMerge ∧
    cfg.totalTokens descriptions < cfg.summaryMaxTokens

variable {σ ε : Type} (ask : String → σ → Except ε (String × σ))

def summarizeDescriptions (descriptions : List String) (s : σ) : Except ε (String × σ) :=
  (ask (cfg.prompt (jsonLines (cfg.listed descriptions))) s).map fun answer =>
    (sanitize cfg.toDescriptionConfig answer.1, answer.2)

/-- One group of the reduce phase; a single description is passed on. -/
def reduceChunk (chunk : List String) (s : σ) : Except ε (String × σ) :=
  match chunk with
  | [description] => .ok (description, s)
  | _ => cfg.summarizeDescriptions ask chunk s

def reduceChunks : List (List String) → σ → Except ε (List String × σ)
  | [], s => .ok ([], s)
  | chunk :: chunks, s =>
    match cfg.reduceChunk ask chunk s with
    | .error e => .error e
    | .ok (summary, t) => (reduceChunks chunks t).map fun rest => (summary :: rest.1, rest.2)

def round (t : Summarizing σ) : Except ε (Summarizing σ) :=
  let chunks := cfg.mapChunks t.currentList
  (cfg.reduceChunks ask chunks t.llm).map fun reduced =>
    ⟨reduced.1, t.llmWasUsed || chunks.any fun chunk => chunk.length ≠ 1, reduced.2⟩

def mapReduce : Loop (Summarizing σ) ε (Summarizing σ) where
  done t := cfg.isFinal t.currentList
  step t := (cfg.round ask t).map fun u => (u, u)

def finish (t : Summarizing σ) : Except ε (String × Bool) :=
  if cfg.isJoined t.currentList then
    .ok (sanitize cfg.toDescriptionConfig (joinFragments t.currentList), t.llmWasUsed)
  else (cfg.summarizeDescriptions ask t.currentList t.llm).map fun answer => (answer.1, true)

/-- `_handle_entity_relation_summary`; nothing when the fuel is out. -/
def handleEntityRelationSummary (fuel : ℕ) (descriptions : List String) (s : σ) :
    Option (Except ε (String × Bool)) :=
  match descriptions with
  | [] => some (.ok ("", false))
  | [description] => some (.ok (sanitize cfg.toDescriptionConfig description, false))
  | _ =>
    ((cfg.mapReduce ask).run fuel ⟨descriptions, false, s⟩).map fun rounds =>
      rounds.bind fun rounds => cfg.finish ask (rounds.getLastD ⟨descriptions, false, s⟩)

/-- The groups for which the reduce phase asks the model, up to one for which it raises. -/
def reduceCalls : List (List String) → σ → List (List String)
  | [], _ => []
  | chunk :: chunks, s =>
    let rest := match cfg.reduceChunk ask chunk s with
      | .error _ => []
      | .ok (_, t) => reduceCalls chunks t
    if chunk.length = 1 then rest else chunk :: rest

def roundCalls (t : Summarizing σ) : List (List String) :=
  if cfg.isFinal t.currentList then [] else cfg.reduceCalls ask (cfg.mapChunks t.currentList) t.llm

def finalCalls (t : Summarizing σ) : List (List String) :=
  if cfg.isFinal t.currentList && ! cfg.isJoined t.currentList then [t.currentList] else []

/-- The model is asked for a summary of `group`. -/
def Handed (descriptions : List String) (s : σ) (group : List String) : Prop :=
  2 ≤ descriptions.length ∧ ∃ t, (cfg.mapReduce ask).Reached ⟨descriptions, false, s⟩ t ∧
    group ∈ cfg.roundCalls ask t ++ cfg.finalCalls t

def Separately (group : List String) : Prop :=
  ∀ description ∈ group, cfg.tokens (jsonLine description) ≤ cfg.summaryContextSize

/-- Nothing is cut off, if nothing is too long by itself. -/
def Complete (group : List String) : Prop := cfg.Separately group → cfg.listed group = group

/-- The lines of a group are within the limit together, if each of them is. -/
def Fits (group : List String) : Prop :=
  cfg.Separately group →
    0 < cfg.summaryContextSize ∧ cfg.tokens (jsonLines group) ≤ cfg.summaryContextSize

end SummaryConfig

namespace SummaryConfig

variable {cfg : SummaryConfig} {descriptions group : List String} {c : MapChunks} {d : String}

/-- What the map phase keeps while it forms groups of `seen`. -/
structure Formed (cfg : SummaryConfig) (seen : List String) (c : MapChunks) : Prop where
  flatten : c.chunks.flatten ++ c.currentChunk = seen
  two : ∀ chunk ∈ c.chunks, 2 ≤ chunk.length
  tokens : c.currentTokens = cfg.totalTokens c.currentChunk
  within : ∀ chunk ∈ c.chunks, cfg.totalTokens chunk ≤ cfg.summaryContextSize ∨ chunk.length = 2
  current : c.currentTokens ≤ cfg.summaryContextSize ∨ c.currentChunk.length ≤ 1

theorem Formed.add {seen : List String} (h : Formed cfg seen c) :
    Formed cfg (seen ++ [d]) (cfg.addDescription c d) := by
  have hseen : c.chunks.flatten ++ (c.currentChunk ++ [d]) = seen ++ [d] := by
    rw [← append_assoc,h.flatten]
  unfold addDescription
  dsimp only
  split
  · rename_i hover
    split
    · rename_i hone
      refine ⟨by simpa using hseen,?_,by simp [totalTokens],?_,.inl (Nat.zero_le _)⟩
      · rw [forall_mem_append]
        exact ⟨h.two,by simp [hone]⟩
      · rw [forall_mem_append,forall_mem_singleton]
        exact ⟨h.within,.inr (by simp [hone])⟩
    · have hlength : 2 ≤ c.currentChunk.length := by
        have := length_pos_iff.mpr hover.2
        omega
      refine ⟨by simpa using hseen,?_,by simp [totalTokens],?_,.inr (by simp)⟩
      · rw [forall_mem_append,forall_mem_singleton]
        exact ⟨h.two,hlength⟩
      · rw [forall_mem_append,forall_mem_singleton]
        have hcurrent := h.current
        rw [h.tokens] at hcurrent
        exact ⟨h.within,.inl (hcurrent.resolve_right (by omega))⟩
  · rename_i hfits
    refine ⟨hseen,h.two,?_,h.within,?_⟩
    · simp only [h.tokens,totalTokens,map_append,sum_append,map_singleton,sum_singleton]
    · by_cases hempty : c.currentChunk = []
      · exact .inr (by simp [hempty])
      · exact .inl (by rw [not_and_or,
          not_lt] at hfits; exact hfits.resolve_right (by simpa using hempty))

theorem formed (cfg : SummaryConfig) (descriptions : List String) :
    Formed cfg descriptions (descriptions.foldl cfg.addDescription ⟨[], [], 0⟩) := by
  induction descriptions using List.reverseRecOn with
  | nil => exact ⟨rfl,by simp,rfl,by simp,.inl (Nat.zero_le _)⟩
  | append_singleton seen d ih =>
    rw [foldl_append]
    exact ih.add

theorem mapChunks_flatten (cfg : SummaryConfig) (descriptions : List String) :
    (cfg.mapChunks descriptions).flatten = descriptions := by
  have h := (formed cfg descriptions).flatten
  unfold mapChunks
  dsimp only
  split
  · simpa using h
  · rename_i hempty
    rw [not_not] at hempty
    rw [hempty,append_nil] at h
    exact h

theorem mapChunks_ne_nil : ∀ chunk ∈ cfg.mapChunks descriptions, chunk ≠ [] := by
  have h := (formed cfg descriptions).two
  have hne : ∀ chunk : List String, 2 ≤ chunk.length → chunk ≠ [] := by
    rintro chunk hlength rfl
    simp at hlength
  unfold mapChunks
  dsimp only
  split
  · rename_i hcurrent
    rw [forall_mem_append,forall_mem_singleton]
    exact ⟨fun chunk hchunk => hne chunk (h chunk hchunk),hcurrent⟩
  · exact fun chunk hchunk => hne chunk (h chunk hchunk)

theorem two_mul_length_le {chunks : List (List String)} (h : ∀ chunk ∈ chunks, 2 ≤ chunk.length) :
    2 * chunks.length ≤ chunks.flatten.length := by
  induction chunks with
  | nil => simp
  | cons chunk chunks ih =>
    rw [forall_mem_cons] at h
    have hrest := ih h.2
    rw [flatten_cons,length_append,length_cons]
    omega

theorem length_mapChunks (cfg : SummaryConfig) (descriptions : List String) :
    2 * (cfg.mapChunks descriptions).length ≤ descriptions.length + 1 := by
  have h := formed cfg descriptions
  have hlength := congrArg List.length h.flatten
  have htwo := two_mul_length_le h.two
  rw [length_append] at hlength
  unfold mapChunks
  dsimp only
  split
  · rename_i hcurrent
    have hpos := length_pos_iff.mpr hcurrent
    rw [length_append,length_singleton]
    omega
  · omega

theorem listed_eq_iff (hne : group ≠ []) : cfg.listed group = group ↔
    0 < cfg.summaryContextSize ∧ cfg.tokens (jsonLines group) ≤ cfg.summaryContextSize := by
  constructor
  · intro h
    unfold listed truncateListByTokenSize at h
    split at h
    · exact absurd h.symm hne
    · split at h
      · exact absurd h.symm hne
      · rw [take_eq_self_iff] at h
        have hpos := length_pos_iff.mpr hne
        have hfits := QueryPrompt.fits_shrink (Nat.lt_of_lt_of_le hpos h)
        rw [decide_eq_true_eq,take_of_length_le (by rwa [length_map])] at hfits
        exact ⟨by omega,hfits⟩
  · rintro ⟨hpos,hfits⟩
    have hsafe : cfg.tokenizer.truncateByTokenLimit (jsonLines group) cfg.summaryContextSize =
        some (jsonLines group).length := by
      unfold tokenizer
      dsimp only
      split
      · rename_i hempty
        rw [hempty,String.length_empty]
      · rfl
    unfold listed truncateListByTokenSize
    rw [if_neg (by rw [not_or]; exact ⟨by omega,hne⟩)]
    rw [jsonLines] at hsafe
    rw [Int.toNat_natCast,hsafe]
    apply take_of_length_le
    apply QueryPrompt.le_shrink
    · apply QueryPrompt.le_prefixItemCount
      · rw [length_map]
      · rw [take_of_length_le (by rw [length_map])]
    · rw [decide_eq_true_eq,take_of_length_le (by rw [length_map])]
      exact hfits

theorem complete_iff (hne : group ≠ []) : cfg.Complete group ↔ cfg.Fits group := by
  rw [Complete,Fits,listed_eq_iff hne]

variable {σ ε : Type} {ask : String → σ → Except ε (String × σ)} {chunks : List (List String)}
  {summaries : List String} {s s' : σ} {t u : Summarizing σ} {item : Summarizing σ}

theorem length_reduceChunks (h : cfg.reduceChunks ask chunks s = .ok (summaries, s')) :
    summaries.length = chunks.length := by
  induction chunks generalizing s summaries s' with
  | nil =>
    cases h
    rfl
  | cons chunk chunks ih =>
    rw [reduceChunks] at h
    split at h
    · cases h
    · obtain ⟨rest,hrest,heq⟩ := Results.map_ok h
      cases heq
      rw [length_cons,length_cons,ih hrest]

theorem step_ok (h : (cfg.mapReduce ask).step t = .ok (item, u)) :
    u.currentList.length = (cfg.mapChunks t.currentList).length := by
  obtain ⟨v,hv,heq⟩ := Results.map_ok h
  cases heq
  obtain ⟨reduced,hreduced,heq⟩ := Results.map_ok hv
  cases heq
  exact length_reduceChunks hreduced

theorem step_shrinks (hdone : (cfg.mapReduce ask).done t = false)
    (h : (cfg.mapReduce ask).step t = .ok (item, u)) :
    u.currentList ≠ [] ∧ u.currentList.length < t.currentList.length := by
  have hfew := length_mapChunks cfg t.currentList
  have hmany : 2 < t.currentList.length := by
    have hnot := of_decide_eq_false hdone
    omega
  have hlength := step_ok h
  refine ⟨?_,by omega⟩
  rw [← length_pos_iff,hlength,length_pos_iff]
  intro hnil
  have hflatten := mapChunks_flatten cfg t.currentList
  rw [hnil] at hflatten
  rw [← hflatten] at hmany
  cases hmany

theorem mem_reduceCalls (h : group ∈ cfg.reduceCalls ask chunks s) :
    group ∈ chunks ∧ group.length ≠ 1 := by
  induction chunks generalizing s with
  | nil => cases h
  | cons chunk chunks ih =>
    have hrest : ∀ t, group ∈ cfg.reduceCalls ask chunks t →
        group ∈ chunk :: chunks ∧ group.length ≠ 1 :=
      fun t ht => ⟨mem_cons_of_mem _ (ih ht).1,(ih ht).2⟩
    rw [reduceCalls] at h
    split at h
    · split at h
      · cases h
      · exact hrest _ h
    · rename_i hlength
      rcases mem_cons.mp h with rfl | hmem
      · exact ⟨mem_cons_self,hlength⟩
      · split at hmem
        · cases hmem
        · exact hrest _ hmem

theorem two_le_of_roundCalls (h : group ∈ cfg.roundCalls ask t) : 2 ≤ group.length := by
  unfold roundCalls at h
  split at h
  · cases h
  · obtain ⟨hmem,hone⟩ := mem_reduceCalls h
    have hpos := length_pos_iff.mpr (mapChunks_ne_nil group hmem)
    omega

theorem reached_ne_nil (hne : descriptions ≠ [])
    (h : (cfg.mapReduce ask).Reached ⟨descriptions, false, s⟩ t) : t.currentList ≠ [] :=
  h.preserves (fun t => t.currentList ≠ []) hne fun _ _ _ _ hdone hstep =>
    (step_shrinks hdone hstep).1

theorem Handed.ne_nil (h : cfg.Handed ask descriptions s group) : group ≠ [] := by
  obtain ⟨htwo,t,hreached,hmem⟩ := h
  rcases mem_append.mp hmem with hround | hfinal
  · have hlength := two_le_of_roundCalls hround
    rintro rfl
    cases hlength
  · unfold finalCalls at hfinal
    split at hfinal
    · rw [mem_singleton] at hfinal
      rw [hfinal]
      apply reached_ne_nil _ hreached
      rintro rfl
      cases htwo
    · cases hfinal

theorem ends (cfg : SummaryConfig) (ask : String → σ → Except ε (String × σ))
    (descriptions : List String) (s : σ) : ∃ result, ∀ fuel > descriptions.length,
      cfg.handleEntityRelationSummary ask fuel descriptions s = some result := by
  obtain ⟨rounds,hrounds⟩ := (cfg.mapReduce ask).run_ends (fun _ => True)
    (fun t => t.currentList.length)
    (fun t _ u _ hdone hstep => ⟨trivial,(step_shrinks hdone hstep).2⟩)
    (s := ⟨descriptions,false,s⟩) trivial
  match descriptions with
  | [] => exact ⟨_,fun _ _ => rfl⟩
  | [_] => exact ⟨_,fun _ _ => rfl⟩
  | a :: b :: rest =>
    refine ⟨rounds.bind fun rounds => cfg.finish ask (rounds.getLastD ⟨a :: b :: rest,false,s⟩),
      fun fuel hfuel => ?_⟩
    rw [handleEntityRelationSummary,hrounds fuel hfuel,Option.map_some]
    · exact fun h => nomatch h
    · exact fun _ h => nomatch h

/-- One character is one token, and two descriptions are always summarized. -/
def twentyTokens : SummaryConfig where
  replaceCharref := id
  tokens := String.length
  summaryContextSize := 20
  summaryMaxTokens := 10
  forceLlmSummaryOnMerge := 2
  boundedPrefix _ maxTokens := some maxTokens
  prompt := id

end SummaryConfig

end LightRAG.Knowledge
