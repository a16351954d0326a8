import Mathlib.Data.List.Basic
import Mathlib.Data.Rat.Defs

/-!
# The text of a query prompt

The records of a query context, the strings they are rendered to, and the truncation of a list
of records by the tokens of its rendered text.
-/

namespace LightRAG.QueryPrompt

/-- `count` is `len(encode(content))`. -/
structure Tokenizer where
  count : String → ℕ
  /-- The end of `truncate_by_token_limit`, and nothing for a `TokenBudgetError`. -/
  truncateByTokenLimit : String → ℕ → Option ℕ

def hexDigit (n : ℕ) : Char := if n < 10 then Char.ofNat (48 + n) else Char.ofNat (87 + n)

def escapeChar (c : Char) : List Char :=
  if c = '"' then ['\\', '"']
  else if c = '\\' then ['\\', '\\']
  else if c.toNat = 10 then ['\\', 'n']
  else if c.toNat = 13 then ['\\', 'r']
  else if c.toNat = 9 then ['\\', 't']
  else if c.toNat = 8 then ['\\', 'b']
  else if c.toNat = 12 then ['\\', 'f']
  else if c.toNat < 32 then ['\\', 'u', '0', '0', hexDigit (c.toNat / 16), hexDigit (c.toNat % 16)]
  else [c]

/-- `json.dumps` of a string, with `ensure_ascii=False`. -/
def dumpsText (s : String) : String := "\"" ++ String.ofList (s.toList.flatMap escapeChar) ++ "\""

def dumpsField (field : String × String) : String := dumpsText field.1 ++ ": " ++ dumpsText field.2

/-- `separator.join(parts)`. -/
def join (separator : String) : List String → String
  | [] => ""
  | [part] => part
  | part :: parts => part ++ (separator ++ join separator parts)

/-- `json.dumps` of a dictionary of strings. -/
def dumps (fields : List (String × String)) : String :=
  "\x7b" ++ (join ", " (fields.map dumpsField) ++ "\x7d")

structure Entity where
  entityName : String
  entityType : Option String := none
  description : Option String := none
  sourceId : Option String := none
  filePath : Option String := none
deriving DecidableEq

/-- Where a relation record names its ends: the record of a neighbour carries `src_tgt`, and
properties of the edge that may be called `src_id` and `tgt_id`. -/
inductive Ends
  | srcTgt (src tgt : String) (srcId tgtId : Option String)
  | ids (srcId tgtId : String)
deriving DecidableEq

structure Relation where
  ends : Ends
  description : Option String := none
  sourceId : Option String := none
  filePath : Option String := none
deriving DecidableEq

/-- `entity1` and `entity2` of a relation. -/
def Relation.pair (r : Relation) : String × String :=
  match r.ends with
  | .srcTgt src tgt _ _ => (src, tgt)
  | .ids src tgt => (src, tgt)

/-- `relation.get("src_id", entity1)` and `relation.get("tgt_id", entity2)`. -/
def Relation.ownPair (r : Relation) : String × String :=
  match r.ends with
  | .srcTgt src tgt srcId tgtId => (srcId.getD src, tgtId.getD tgt)
  | .ids src tgt => (src, tgt)

structure Chunk where
  content : Option String
  filePath : Option String := none
  chunkId : Option String := none
  contentHeadings : Option String := none
  rerankScore : Option ℚ := none
  referenceId : String := ""
  id : Option String := none
deriving DecidableEq

structure Reference where
  referenceId : String
  filePath : String
deriving DecidableEq

/-- A value that a Python condition takes for true. -/
def truthy : Option String → Option String
  | some s => if s = "" then none else some s
  | none => none

def Chunk.knownPath (c : Chunk) : Option String :=
  match truthy c.filePath with
  | some path => if path = "unknown_source" then none else some path
  | none => none

/-- An entry of `entities_context` without `created_at` and `file_path`. -/
def Entity.render (e : Entity) : String :=
  dumps [("entity", e.entityName), ("type", e.entityType.getD "UNKNOWN"),
    ("description", e.description.getD "UNKNOWN")]

def Relation.render (r : Relation) : String :=
  dumps [("entity1", r.pair.1), ("entity2", r.pair.2), ("description", r.description.getD "UNKNOWN")]

def Chunk.headingFields (c : Chunk) : List (String × String) :=
  match truthy c.contentHeadings with
  | some headings => [("content_headings", headings)]
  | none => []

/-- One line of `render_chunks_context_text`, and nothing for a `KeyError`. -/
def Chunk.render (c : Chunk) : Option String :=
  c.content.map fun content =>
    dumps ([("reference_id", c.referenceId), ("content", content)] ++ c.headingFields)

/-- A string or `null`. -/
def dumpsOption : Option String → String
  | some s => dumpsText s
  | none => "null"

def Chunk.approxKey (c : Chunk) : String :=
  "\x7b" ++ (join ", " ((dumpsText "content" ++ ": " ++ dumpsOption c.content) ::
    c.headingFields.map dumpsField) ++ "\x7d")

def renderChunksContextText (chunks : List Chunk) : Option String :=
  (chunks.mapM Chunk.render).map (join "\n")

/-- `[id] path` for each reference with an id. -/
def renderReferences (references : List Reference) : String :=
  join "\n" ((references.filter fun r => r.referenceId ≠ "").map fun r =>
    "[" ++ (r.referenceId ++ ("] " ++ r.filePath)))

/-- A part of a template that `str.format` fills. -/
inductive Piece
  | text (s : String)
  | contextData
  | responseType
  | userPrompt
deriving DecidableEq

abbrev Template := List Piece

def Piece.format (contextData responseType userPrompt : String) : Piece → String
  | .text s => s
  | .contextData => contextData
  | .responseType => responseType
  | .userPrompt => userPrompt

def Template.format (t : Template) (contextData responseType userPrompt : String) : String :=
  join "" (t.map (Piece.format contextData responseType userPrompt))

def entityHeading : String := "\nKnowledge Graph Data (Entity):\n\n```json\n"

def relationHeading : String := "\n```\n\nKnowledge Graph Data (Relationship):\n\n```json\n"

def chunkHeading : String :=
  "Document Chunks (Each entry has a reference_id refer to the `Reference Document List`; the " ++
    ("optional `content_headings` field gives the chunk's heading path within its source " ++
      "document, e.g. `Section 1 → Subsection 1.2`):\n\n```json\n")

def referenceHeading : String :=
  "\n```\n\nReference Document List (Each entry starts with a [reference_id] that corresponds " ++
    "to entries in the Document Chunks):\n\n```\n"

def contextEnd : String := "\n```\n\n"

/-- `PROMPTS["kg_query_context"]`. -/
def kgQueryContext (entities relations chunks references : String) : String :=
  entityHeading ++ (entities ++ (relationHeading ++ (relations ++ (contextEnd ++ (chunkHeading ++
    (chunks ++ (referenceHeading ++ (references ++ contextEnd))))))))

/-- `PROMPTS["naive_query_context"]`. -/
def naiveQueryContext (chunks references : String) : String :=
  "\n" ++ (chunkHeading ++ (chunks ++ (referenceHeading ++ (references ++ contextEnd))))

structure EffectiveUserPrompt where
  text : String
  slot : String

def resolveUserPrompt (userPrompt userPromptPrefix : Option String) (disablePrefix : Bool) :
    EffectiveUserPrompt :=
  let resolved := if disablePrefix then "" else userPromptPrefix.getD ""
  let text := resolved ++ userPrompt.getD ""
  ⟨text, if text = "" then "n/a" else "\n\n" ++ text⟩

/-- `while k > 0: if fits(k): break; k -= 1`. -/
def shrink (fits : ℕ → Bool) : ℕ → ℕ
  | 0 => 0
  | k + 1 => if fits (k + 1) then k + 1 else shrink fits k

/-- `_rendered_prefix_item_count` from the `i`th item on, with `cumulative` characters before it. -/
def prefixItemCount (separator : String) (safeEnd : ℕ) : ℕ → ℕ → List String → ℕ
  | i, _, [] => i
  | i, cumulative, text :: texts =>
    let total := cumulative + (if 0 < i then separator.length else 0) + text.length
    if safeEnd < total then i else prefixItemCount separator safeEnd (i + 1) total texts

variable {α : Type}

def truncateListByTokenSize (t : Tokenizer) (key : α → String) (separator : String)
    (maxTokenSize : ℤ) (xs : List α) : List α :=
  if maxTokenSize ≤ 0 ∨ xs = [] then []
  else
    match t.truncateByTokenLimit (join separator (xs.map key)) maxTokenSize.toNat with
    | none => []
    | some safeEnd =>
      xs.take (shrink (fun k => t.count (join separator ((xs.map key).take k)) ≤ maxTokenSize.toNat)
        (prefixItemCount separator safeEnd 0 0 (xs.map key)))

theorem fits_shrink {fits : ℕ → Bool} {k : ℕ} (hpos : 0 < shrink fits k) :
    fits (shrink fits k) = true := by
  induction k with
  | zero => simp [shrink] at hpos
  | succ k ih =>
    simp only [shrink] at hpos ⊢
    split at hpos
    case isTrue h => rw [if_pos h]; exact h
    case isFalse h => rw [if_neg h]; exact ih hpos

theorem le_shrink {fits : ℕ → Bool} {j k : ℕ} (hle : j ≤ k) (hfits : fits j = true) :
    j ≤ shrink fits k := by
  induction k with
  | zero => omega
  | succ k ih =>
    simp only [shrink]
    split
    · exact hle
    case isFalse h =>
      apply ih
      rcases Nat.lt_or_ge k j with hlt | hge
      · have hj : j = k + 1 := by omega
        rw [hj] at hfits
        exact absurd hfits h
      · exact hge

end LightRAG.QueryPrompt

/-!
## Truncation by an additive tokenizer

The search of `Tokenizer.truncate_by_token_limit` for a prefix within a token limit, and what it
finds when the number of tokens of a text is the sum over its parts.
-/

namespace LightRAG.QueryPrompt
open List

section Search

variable (fits : ℕ → Bool) (length : ℕ)

/-- Doubles until a candidate overflows: the lengths of the bracket. -/
def grow (candidate : ℕ) : ℕ × ℕ :=
  if h : 0 < candidate ∧ candidate < length then
    if fits (min length (candidate * 2)) then grow (min length (candidate * 2))
    else (candidate, min length (candidate * 2))
  else (candidate, length + 1)
termination_by length - candidate
decreasing_by omega

def halve (candidate : ℕ) : ℕ × ℕ :=
  if h : 1 < candidate then
    if fits (candidate / 2) then (candidate / 2, candidate) else halve (candidate / 2)
  else (0, candidate)
termination_by candidate
decreasing_by omega

def bisect (good bad : ℕ) : ℕ :=
  if h : 1 < bad - good then
    if fits ((good + bad) / 2) then bisect ((good + bad) / 2) bad else bisect good ((good + bad) / 2)
  else good
termination_by bad - good
decreasing_by all_goals omega

/-- `_bounded_prefix_span` from the start of a text; nothing when not even its first character
fits. -/
def boundedPrefix (seed : ℕ) : Option ℕ :=
  let bracket := if fits seed then grow fits length seed else halve fits seed
  let good := bisect fits bracket.1 bracket.2
  if 0 < good then some good else if fits 1 then some 1 else none

/-- What the search keeps of its bracket. -/
structure Bracket (good bad : ℕ) : Prop where
  lt : good < bad
  good : good = 0 ∨ fits good
  bad : bad = length + 1 ∨ fits bad = false

variable {fits length} {good bad : ℕ}

theorem bracket_grow {candidate : ℕ} (hpos : 0 < candidate) (hle : candidate ≤ length)
    (hfits : fits candidate = true) :
    Bracket fits length (grow fits length candidate).1 (grow fits length candidate).2 := by
  fun_induction grow fits length candidate with
  | case1 candidate h hnext ih => exact ih (by omega) (by omega) hnext
  | case2 candidate h hnext => exact ⟨by simp only; omega,.inr hfits,.inr (by simpa using hnext)⟩
  | case3 candidate h => exact ⟨Nat.lt_succ_of_le hle,.inr hfits,.inl rfl⟩

theorem bracket_halve {candidate : ℕ} (hpos : 0 < candidate) (hfits : fits candidate = false) :
    Bracket fits length (halve fits candidate).1 (halve fits candidate).2 := by
  fun_induction halve fits candidate with
  | case1 candidate h hnext => exact ⟨by simp only; omega,.inr hnext,.inr hfits⟩
  | case2 candidate h hnext ih => exact ih (by omega) (by simpa using hnext)
  | case3 candidate h => exact ⟨hpos,.inl rfl,.inr hfits⟩

theorem bracket_bisect (h : Bracket fits length good bad) :
    Bracket fits length (bisect fits good bad) (bisect fits good bad + 1) := by
  fun_induction bisect fits good bad with
  | case1 good bad hgap hmid ih => exact ih ⟨by omega,.inr hmid,h.bad⟩
  | case2 good bad hgap hmid ih => exact ih ⟨by omega,h.good,.inr (by simpa using hmid)⟩
  | case3 good bad hgap =>
    have hnext : bad = good + 1 := by
      have := h.lt
      omega
    subst hnext
    exact h

theorem boundedPrefix_longest {seed n : ℕ}
    (hmono : ∀ m n, m ≤ n → fits n = true → fits m = true) (hseed : 0 < seed)
    (hle : seed ≤ length) (hpos : 0 < n) (hn : n ≤ length) (hfits : fits n = true) :
    ∃ e, boundedPrefix fits length seed = some e ∧ n ≤ e := by
  have hbracket : ∃ good bad, (if fits seed then grow fits length seed else halve fits seed) =
      (good, bad) ∧ Bracket fits length good bad := by
    by_cases hfit : fits seed = true
    · rw [if_pos hfit]
      exact ⟨_,_,rfl,bracket_grow hseed hle hfit⟩
    · rw [if_neg hfit]
      exact ⟨_,_,rfl,bracket_halve hseed (by simpa using hfit)⟩
  obtain ⟨good,bad,hstart,hb⟩ := hbracket
  have hend := bracket_bisect hb
  have hlongest : n ≤ bisect fits good bad := by
    rcases hend.bad with hall | hbad
    · omega
    · by_contra hlt
      have := hmono (bisect fits good bad + 1) n (by omega) hfits
      rw [hbad] at this
      cases this
  refine ⟨bisect fits good bad,?_,hlongest⟩
  rw [boundedPrefix,hstart]
  exact if_pos (Nat.lt_of_lt_of_le hpos hlongest)

end Search

/-- The `Tokenizer` over an encoder: `count` is the number of tokens of a text, and `guess` the
length `int(max_tokens * chars_per_token)` that the search starts with. -/
def Tokenizer.generic (count : String → ℕ) (guess : String → ℕ → ℕ) : Tokenizer where
  count := count
  truncateByTokenLimit := fun content maxTokens =>
    if content = "" then some 0
    else if count content ≤ maxTokens then some content.length
    else
      boundedPrefix (fun n => count (String.ofList (content.toList.take n)) ≤ maxTokens)
        content.length (min content.length (max 1 (guess content maxTokens)))

/-- The tokens of a text are those of its parts. -/
def Additive (count : String → ℕ) : Prop := ∀ a b, count (a ++ b) = count a + count b

section Additive

variable {count : String → ℕ}

theorem Additive.empty (hadd : Additive count) : count "" = 0 := by
  have htwice := hadd "" ""
  rw [String.append_empty] at htwice
  omega

theorem Additive.le_append (hadd : Additive count) (a b : String) : count a ≤ count (a ++ b) := by
  rw [hadd]
  exact Nat.le_add_right _ _

theorem Additive.le_of_take (hadd : Additive count) (s : String) {m n : ℕ} (hle : m ≤ n) :
    count (String.ofList (s.toList.take m)) ≤ count (String.ofList (s.toList.take n)) := by
  have hsplit : s.toList.take m ++ (s.toList.take n).drop m = s.toList.take n := by
    have htake : (s.toList.take n).take m = s.toList.take m := by
      rw [take_take,Nat.min_eq_left hle]
    rw [← htake]
    exact take_append_drop m (s.toList.take n)
  rw [← hsplit,String.ofList_append]
  exact hadd.le_append _ _

theorem le_truncateByTokenLimit (hadd : Additive count) (guess : String → ℕ → ℕ)
    {s pre rest : String} {maxTokens : ℕ} (hsplit : s = pre ++ rest) (hne : pre ≠ "")
    (hle : count pre ≤ maxTokens) :
    ∃ e, (Tokenizer.generic count guess).truncateByTokenLimit s maxTokens = some e ∧
      pre.length ≤ e := by
  have hlength : s.length = pre.length + rest.length := by
    rw [hsplit,String.length_append]
  have hpos : 0 < pre.length := by
    rw [Nat.pos_iff_ne_zero]
    exact fun hzero => hne (String.length_eq_zero_iff.mp hzero)
  have hs : s ≠ "" := by
    rintro rfl
    rw [String.length_empty] at hlength
    omega
  simp only [Tokenizer.generic]
  rw [if_neg hs]
  by_cases hall : count s ≤ maxTokens
  · rw [if_pos hall]
    exact ⟨s.length,rfl,by omega⟩
  · rw [if_neg hall]
    apply boundedPrefix_longest
    · intro m n hmn hfits
      rw [decide_eq_true_eq] at hfits ⊢
      exact Nat.le_trans (hadd.le_of_take s hmn) hfits
    · omega
    · exact Nat.min_le_left _ _
    · exact hpos
    · omega
    · have htake : s.toList.take pre.length = pre.toList := by
        rw [hsplit,String.toList_append,← String.length_toList,take_left]
      rw [decide_eq_true_eq,htake,String.ofList_toList]
      exact hle

theorem join_cons (separator part : String) (parts : List String) (hne : parts ≠ []) :
    join separator (part :: parts) = part ++ (separator ++ join separator parts) := by
  cases parts with
  | nil => exact absurd rfl hne
  | cons p ps => rfl

theorem join_take (separator : String) (parts : List String) (k : ℕ) :
    ∃ rest, join separator parts = join separator (parts.take k) ++ rest := by
  induction parts generalizing k with
  | nil => exact ⟨"",by rw [take_nil,String.append_empty]⟩
  | cons p ps ih =>
    cases k with
    | zero => exact ⟨join separator (p :: ps),by rw [take_zero,join,String.empty_append]⟩
    | succ k =>
      by_cases hps : ps = []
      · subst hps
        exact ⟨"",by rw [take_succ_cons,take_nil,String.append_empty]⟩
      · obtain ⟨rest,hrest⟩ := ih k
        rw [take_succ_cons,join_cons separator p ps hps,hrest]
        by_cases htake : ps.take k = []
        · rw [htake]
          exact ⟨separator ++ ("" ++ rest),rfl⟩
        · rw [join_cons separator p _ htake]
          exact ⟨rest,by simp only [String.append_assoc]⟩

theorem count_join_le (hadd : Additive count) (separator : String) {xs ys : List String}
    (h : List.Forall₂ (fun x y => count x ≤ count y) xs ys) :
    count (join separator xs) ≤ count (join separator ys) := by
  induction h with
  | nil => exact Nat.le_refl _
  | cons hxy hrest ih =>
    rename_i x y xs ys
    cases hrest with
    | nil => exact hxy
    | cons hxy' hrest' =>
      rw [join_cons separator x _ (cons_ne_nil _ _),
        join_cons separator y _ (cons_ne_nil _ _),hadd,hadd,hadd,hadd]
      omega

theorem le_prefixItemCount_start (separator : String) (safeEnd : ℕ) (texts : List String) :
    ∀ i cumulative, i ≤ prefixItemCount separator safeEnd i cumulative texts := by
  induction texts with
  | nil => exact fun i _ => Nat.le_refl i
  | cons text texts ih =>
    intro i cumulative
    rw [prefixItemCount]
    generalize cumulative + (if 0 < i then separator.length else 0) + text.length = total
    have hnext := ih (i + 1) total
    by_cases hend : safeEnd < total
    · rw [if_pos hend]
    · rw [if_neg hend]
      omega

theorem le_prefixItemCount (separator : String) (safeEnd : ℕ) {texts : List String} {j : ℕ}
    (hj : j ≤ texts.length) (hle : (join separator (texts.take j)).length ≤ safeEnd) :
    j ≤ prefixItemCount separator safeEnd 0 0 texts := by
  have hgeneral : ∀ (texts : List String) (i cumulative j : ℕ), j ≤ texts.length →
      cumulative + (if 0 < i ∧ 0 < j then separator.length else 0) +
        (join separator (texts.take j)).length ≤ safeEnd →
      i + j ≤ prefixItemCount separator safeEnd i cumulative texts := by
    intro texts
    induction texts with
    | nil =>
      intro i cumulative j hj _
      rw [prefixItemCount]
      simp only [length_nil] at hj
      omega
    | cons text texts ih =>
      intro i cumulative j hj hle
      cases j with
      | zero =>
        rw [prefixItemCount]
        generalize cumulative + (if 0 < i then separator.length else 0) + text.length = total
        by_cases hend : safeEnd < total
        · rw [if_pos hend]
          omega
        · rw [if_neg hend]
          have := le_prefixItemCount_start separator safeEnd texts (i + 1) total
          omega
      | succ j =>
        rw [prefixItemCount]
        simp only [Nat.succ_pos,and_true,take_succ_cons,length_cons,
          Nat.add_le_add_iff_right] at hj hle
        generalize htotal : cumulative + (if 0 < i then separator.length else 0) + text.length =
          total
        have hlong : text.length ≤ (join separator (text :: texts.take j)).length := by
          obtain ⟨rest,hrest⟩ := join_take separator (text :: texts.take j) 1
          rw [hrest,take_succ_cons,take_zero,String.length_append]
          exact Nat.le_add_right _ _
        rw [if_neg (by omega)]
        by_cases hzero : j = 0
        · have := le_prefixItemCount_start separator safeEnd texts (i + 1) total
          omega
        · have htake : texts.take j ≠ [] := by
            rw [ne_eq,take_eq_nil_iff,not_or]
            refine ⟨hzero,?_⟩
            rintro rfl
            rw [length_nil] at hj
            omega
          rw [join_cons separator text _ htake,String.length_append,String.length_append] at hle
          have hnext := ih (i + 1) total j hj (by
            rw [if_pos ⟨Nat.succ_pos i,Nat.pos_of_ne_zero hzero⟩]
            omega)
          omega
  have := hgeneral texts 0 0 j hj (by simpa using hle)
  omega

variable {α : Type} {key : α → String} {separator : String} {maxTokenSize : ℤ} {xs : List α}

theorem count_truncateListByTokenSize (hadd : Additive count) (guess : String → ℕ → ℕ)
    (hpos : 0 ≤ maxTokenSize) :
    (count (join separator ((truncateListByTokenSize (.generic count guess) key separator
      maxTokenSize xs).map key)) : ℤ) ≤ maxTokenSize := by
  have hnil : (count (join separator ([] : List String)) : ℤ) ≤ maxTokenSize := by
    rw [join,hadd.empty]
    exact hpos
  unfold truncateListByTokenSize
  split
  · exact hnil
  · split
    · exact hnil
    case h_2 safeEnd _ =>
      generalize hk : shrink (fun k => (Tokenizer.generic count guess).count
        (join separator ((xs.map key).take k)) ≤ maxTokenSize.toNat)
        (prefixItemCount separator safeEnd 0 0 (xs.map key)) = k
      rcases Nat.eq_zero_or_pos k with hzero | hkpos
      · rw [hzero]
        exact hnil
      · have hfits := fits_shrink (hk ▸ hkpos)
        rw [hk,decide_eq_true_eq] at hfits
        rw [map_take]
        have hfits' : count (join separator ((xs.map key).take k)) ≤ maxTokenSize.toNat := hfits
        omega

theorem le_length_truncateListByTokenSize (hadd : Additive count) (guess : String → ℕ → ℕ)
    {j : ℕ} (hpos : 0 < maxTokenSize) (hj : j ≤ xs.length)
    (hne : join separator ((xs.map key).take j) ≠ "")
    (hle : (count (join separator ((xs.map key).take j)) : ℤ) ≤ maxTokenSize) :
    j ≤ (truncateListByTokenSize (.generic count guess) key separator maxTokenSize xs).length := by
  have hxs : xs ≠ [] := by
    rintro rfl
    rw [map_nil,take_nil] at hne
    exact hne rfl
  obtain ⟨rest,hrest⟩ := join_take separator (xs.map key) j
  obtain ⟨e,he,hlength⟩ := le_truncateByTokenLimit hadd guess hrest hne
    (show count (join separator ((xs.map key).take j)) ≤ maxTokenSize.toNat by omega)
  unfold truncateListByTokenSize
  rw [if_neg (by rw [not_or]; exact ⟨by omega,hxs⟩),he]
  rw [length_take]
  apply Nat.le_min.mpr ⟨?_,hj⟩
  apply le_shrink
  · exact le_prefixItemCount separator e (by rw [length_map]; exact hj) hlength
  · rw [decide_eq_true_eq]
    change count (join separator ((xs.map key).take j)) ≤ maxTokenSize.toNat
    omega

end Additive

end LightRAG.QueryPrompt
