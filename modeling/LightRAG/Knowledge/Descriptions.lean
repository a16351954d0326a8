import LightRAG.Framework.Sanitize
import LightRAG.Framework.Separated
import LightRAG.Framework.Smallest
import LightRAG.Knowledge.Sources
import Mathlib.Algebra.GroupWithZero.Nat
import Mathlib.Data.Prod.Lex
import Mathlib.Data.String.Basic

/-!
# Descriptions and their fragments

A description is stored as its fragments with a separator between them.
-/

namespace LightRAG.Knowledge
open List

open Smallest (sorted)

def graphFieldSep : List Char := ['<', 'S', 'E', 'P', '>']

/-- `text.split(GRAPH_FIELD_SEP)`. -/
def splitFragments (text : String) : List String :=
  (Separated.split graphFieldSep 0 text.toList).map String.ofList

/-- `GRAPH_FIELD_SEP.join(fragments)`. -/
def joinFragments (fragments : List String) : String :=
  String.ofList (Separated.join graphFieldSep (fragments.map String.toList))

/-- What an extracted record says about its object. -/
structure Extracted where
  sourceId : ChunkId
  description : String
  timestamp : ℤ
deriving DecidableEq

structure DescriptionConfig where
  /-- `_replace_charref` of `html.unescape`. -/
  replaceCharref : List Char → List Char
  /-- `len(tokenizer.encode(text))`. -/
  tokens : String → ℕ
  summaryContextSize : ℕ
  summaryMaxTokens : ℕ
  forceLlmSummaryOnMerge : ℕ

/-- The first record of each description. -/
def uniqueByDescription : List String → List Extracted → List Extracted
  | _, [] => []
  | seen, dp :: data =>
    if dp.description = "" ∨ dp.description ∈ seen then uniqueByDescription seen data
    else dp :: uniqueByDescription (dp.description :: seen) data

def sortedDescriptions (data : List Extracted) : List String :=
  (sorted (fun dp => toLex (dp.timestamp, -(dp.description.length : ℤ)))
    (uniqueByDescription [] data)).map Extracted.description

section

variable (cfg : DescriptionConfig)

def sanitize (text : String) : String := Sanitize.sanitizeTextForEncoding cfg.replaceCharref text

/-- `_add_sanitized` of one description. -/
def addSanitized (combined : List String) (description : String) : List String :=
  if sanitize cfg description = "" ∨ sanitize cfg description ∈ combined then combined
  else combined ++ [sanitize cfg description]

def combineDescriptionsDedup (already new : List String) : List String :=
  new.foldl (addSanitized cfg) (already.foldl (addSanitized cfg) [])

/-- `_handle_entity_relation_summary`; nothing when it asks the model for a summary. -/
def handleEntityRelationSummary : List String → Option String
  | [] => some ""
  | [description] => some (sanitize cfg description)
  | descriptions =>
    let totalTokens := (descriptions.map cfg.tokens).sum
    if (totalTokens ≤ cfg.summaryContextSize ∨ descriptions.length ≤ 2) ∧
        descriptions.length < cfg.forceLlmSummaryOnMerge ∧ totalTokens < cfg.summaryMaxTokens then
      some (sanitize cfg (joinFragments descriptions))
    else none

/-- A fragment that is stored as it is and read back whole. -/
structure CleanFragment (fragment : String) : Prop where
  nonempty : fragment ≠ ""
  stripped : Text.strip fragment = fragment
  unescaped : Sanitize.unescape cfg.replaceCharref fragment = fragment
  kept : ∀ c ∈ fragment.toList, Sanitize.isRemoved c = false
  whole : ¬ graphFieldSep <:+: fragment.toList

def PlainDescription (description : String) : Prop :=
  sanitize cfg description = "" ∨ CleanFragment cfg (sanitize cfg description)

end

/-- No fragment comes more often than before, or than once. -/
def NoNewDuplicates (before after : List String) : Prop :=
  ∀ fragment, after.count fragment ≤ max 1 (before.count fragment)

section

variable {cfg : DescriptionConfig} {combined already new fragments : List String}
  {fragment description : String} {data : List Extracted} {dp : Extracted} {seen : List String}

theorem NoNewDuplicates.refl (fragments : List String) : NoNewDuplicates fragments fragments :=
  fun _ => le_max_right _ _

theorem NoNewDuplicates.trans (h : NoNewDuplicates already combined)
    (h' : NoNewDuplicates combined new) : NoNewDuplicates already new := by
  intro fragment
  have hfirst := h fragment
  have hsecond := h' fragment
  omega

theorem noNewDuplicates_of_nodup (before : List String) (h : fragments.Nodup) :
    NoNewDuplicates before fragments :=
  fun fragment => (nodup_iff_count_le_one.mp h fragment).trans (le_max_left _ _)

theorem mem_of_mem_unique (h : dp ∈ uniqueByDescription seen data) : dp ∈ data := by
  induction data generalizing seen with
  | nil => cases h
  | cons dp' data ih =>
    rw [uniqueByDescription] at h
    split at h
    · exact mem_cons_of_mem _ (ih h)
    · cases mem_cons.mp h with
      | inl hhead =>
        rw [hhead]
        exact mem_cons_self
      | inr hrest => exact mem_cons_of_mem _ (ih hrest)

theorem mem_sortedDescriptions (h : description ∈ sortedDescriptions data) :
    ∃ dp ∈ data, dp.description = description := by
  obtain ⟨dp,hdp,hdescription⟩ := mem_map.mp h
  exact ⟨dp,mem_of_mem_unique (Smallest.mem_sorted.mp hdp),hdescription⟩

theorem nodup_addSanitized (h : combined.Nodup) : (addSanitized cfg combined description).Nodup := by
  unfold addSanitized
  split
  · exact h
  · rename_i hnew
    rw [not_or] at hnew
    rw [nodup_append]
    refine ⟨h,nodup_singleton _,?_⟩
    intro a ha b hb heq
    rw [mem_singleton] at hb
    rw [heq,hb] at ha
    exact hnew.2 ha

theorem nodup_foldl_addSanitized (h : combined.Nodup) :
    (new.foldl (addSanitized cfg) combined).Nodup := by
  induction new generalizing combined with
  | nil => exact h
  | cons description new ih =>
    rw [foldl_cons]
    exact ih (nodup_addSanitized h)

theorem nodup_combineDescriptionsDedup : (combineDescriptionsDedup cfg already new).Nodup :=
  nodup_foldl_addSanitized (nodup_foldl_addSanitized nodup_nil)

theorem mem_addSanitized : fragment ∈ addSanitized cfg combined description ↔
    fragment ∈ combined ∨ (fragment = sanitize cfg description ∧ fragment ≠ "") := by
  unfold addSanitized
  split
  · rename_i hold
    constructor
    · exact .inl
    · rintro (hin | ⟨rfl,hne⟩)
      · exact hin
      · exact hold.resolve_left hne
  · rename_i hnew
    rw [not_or] at hnew
    rw [mem_append,mem_singleton]
    constructor
    · rintro (hin | rfl)
      · exact .inl hin
      · exact .inr ⟨rfl,hnew.1⟩
    · rintro (hin | ⟨rfl,-⟩)
      · exact .inl hin
      · exact .inr rfl

theorem mem_foldl_addSanitized : fragment ∈ new.foldl (addSanitized cfg) combined ↔
    fragment ∈ combined ∨ ∃ d ∈ new, fragment = sanitize cfg d ∧ fragment ≠ "" := by
  induction new generalizing combined with
  | nil => simp
  | cons d new ih =>
    rw [foldl_cons,ih,mem_addSanitized,exists_mem_cons_iff,or_assoc]

theorem mem_combineDescriptionsDedup : fragment ∈ combineDescriptionsDedup cfg already new ↔
    ∃ d, (d ∈ already ∨ d ∈ new) ∧ fragment = sanitize cfg d ∧ fragment ≠ "" := by
  rw [combineDescriptionsDedup,mem_foldl_addSanitized,mem_foldl_addSanitized]
  simp only [not_mem_nil,false_or]
  constructor
  · rintro (⟨d,hd,hfragment⟩ | ⟨d,hd,hfragment⟩)
    · exact ⟨d,.inl hd,hfragment⟩
    · exact ⟨d,.inr hd,hfragment⟩
  · rintro ⟨d,hd | hd,hfragment⟩
    · exact .inl ⟨d,hd,hfragment⟩
    · exact .inr ⟨d,hd,hfragment⟩

theorem filter_kept {cs : List Char} (h : ∀ c ∈ cs, Sanitize.isRemoved c = false) :
    (cs.filter fun c => ! Sanitize.isRemoved c) = cs := by
  rw [filter_eq_self]
  intro c hc
  rw [h c hc]
  rfl

section

variable (h : CleanFragment cfg fragment)

include h

theorem CleanFragment.sanitize_eq :
    sanitize cfg fragment = fragment := by
  rw [sanitize,Sanitize.sanitizeTextForEncoding,h.stripped,h.unescaped,filter_kept h.kept,
    String.ofList_toList,h.stripped]

theorem CleanFragment.toList_ne_nil : fragment.toList ≠ [] := by
  intro hnil
  apply h.nonempty
  rw [← String.ofList_toList (s := fragment),hnil]

theorem CleanFragment.head {c : Char}
    (hc : fragment.toList.head? = some c) : Text.isSpace c = false := by
  rw [← h.stripped] at hc
  exact Text.head_strip hc

theorem CleanFragment.last {c : Char}
    (hc : fragment.toList.getLast? = some c) : Text.isSpace c = false := by
  rw [← h.stripped] at hc
  exact Text.last_strip hc

theorem CleanFragment.unescapeFrom_eq :
    Sanitize.unescapeFrom cfg.replaceCharref 0 fragment.toList = fragment.toList := by
  have heq := congrArg String.toList h.unescaped
  rwa [Sanitize.unescape,String.toList_ofList] at heq

end

theorem toList_joinFragments_cons (hmore : fragments ≠ []) :
    (joinFragments (fragment :: fragments)).toList =
      fragment.toList ++ ('<' :: ('S' :: 'E' :: 'P' :: '>' :: (joinFragments fragments).toList)) := by
  unfold joinFragments
  rw [map_cons,Separated.join,if_neg (by simpa using hmore),String.toList_ofList,
    String.toList_ofList]
  rfl

theorem joinFragments_singleton : joinFragments [fragment] = fragment := by
  unfold joinFragments
  simp [Separated.join]

/-- A join of clean fragments is left alone by each part of sanitizing. -/
structure CleanText (cfg : DescriptionConfig) (text : String) : Prop where
  nonempty : text.toList ≠ []
  head : ∀ c, text.toList.head? = some c → Text.isSpace c = false
  last : ∀ c, text.toList.getLast? = some c → Text.isSpace c = false
  unescaped : Sanitize.unescapeFrom cfg.replaceCharref 0 text.toList = text.toList
  kept : ∀ c ∈ text.toList, Sanitize.isRemoved c = false

theorem CleanFragment.cleanText (h : CleanFragment cfg fragment) : CleanText cfg fragment :=
  ⟨h.toList_ne_nil,fun _ hc => h.head hc,fun _ hc => h.last hc,h.unescapeFrom_eq,h.kept⟩

theorem cleanText_joinFragments (hne : fragments ≠ [])
    (hclean : ∀ f ∈ fragments, CleanFragment cfg f) : CleanText cfg (joinFragments fragments) := by
  induction fragments with
  | nil => exact absurd rfl hne
  | cons f fragments ih =>
    have hf := (hclean f mem_cons_self).cleanText
    by_cases hmore : fragments = []
    · rw [hmore,joinFragments_singleton]
      exact hf
    have hrest := ih hmore fun g hg => hclean g (mem_cons_of_mem _ hg)
    have htext : (joinFragments (f :: fragments)).toList = f.toList ++
        ('<' :: ('S' :: 'E' :: 'P' :: '>' :: (joinFragments fragments).toList)) :=
      toList_joinFragments_cons hmore
    constructor
    case nonempty => simp [htext]
    case head =>
      intro c hc
      rw [htext,List.head?_append_of_ne_nil _ hf.nonempty] at hc
      exact hf.head c hc
    case last =>
      intro c hc
      cases hend : (joinFragments fragments).toList.getLast? with
      | none => exact absurd (List.getLast?_eq_none_iff.mp hend) hrest.nonempty
      | some d =>
        apply hrest.last
        simpa [htext,List.getLast?_append,List.getLast?_cons,hend] using hc
    case unescaped =>
      rw [htext,Sanitize.unescapeFrom_stop (Nat.zero_le _),hf.unescaped]
      have htag : Sanitize.unescapeFrom cfg.replaceCharref 0
          ('S' :: 'E' :: 'P' :: '>' :: (joinFragments fragments).toList) =
          'S' :: 'E' :: 'P' :: '>' :: Sanitize.unescapeFrom cfg.replaceCharref 0
            (joinFragments fragments).toList := rfl
      rw [htag,hrest.unescaped]
    case kept =>
      intro c hc
      rw [htext] at hc
      simp only [mem_append,mem_cons] at hc
      rcases hc with hc | rfl | rfl | rfl | rfl | rfl | hc
      · exact hf.kept c hc
      · decide
      · decide
      · decide
      · decide
      · decide
      · exact hrest.kept c hc

theorem CleanText.strip_eq {text : String} (h : CleanText cfg text) : Text.strip text = text :=
  Text.strip_eq_self h.head h.last

theorem CleanText.sanitize_eq {text : String} (h : CleanText cfg text) :
    sanitize cfg text = text := by
  have hunescape : Sanitize.unescape cfg.replaceCharref text = text := by
    rw [Sanitize.unescape,h.unescaped,String.ofList_toList]
  rw [sanitize,Sanitize.sanitizeTextForEncoding,h.strip_eq,hunescape,filter_kept h.kept,
    String.ofList_toList,h.strip_eq]

theorem splitFragments_joinFragments (hne : fragments ≠ [])
    (hclean : ∀ f ∈ fragments, CleanFragment cfg f) :
    splitFragments (joinFragments fragments) = fragments := by
  have hsplit : Separated.split graphFieldSep 0
      (Separated.join graphFieldSep (fragments.map String.toList)) =
        fragments.map String.toList := by
    apply Separated.split_join (by decide) (by decide)
    · simpa using hne
    · intro part hpart
      obtain ⟨f,hf,rfl⟩ := mem_map.mp hpart
      exact (hclean f hf).whole
  rw [splitFragments,joinFragments,String.toList_ofList,hsplit]
  simp [Function.comp_def]

theorem handleEntityRelationSummary_clean (hne : fragments ≠ [])
    (hclean : ∀ f ∈ fragments, CleanFragment cfg f)
    (h : handleEntityRelationSummary cfg fragments = some description) :
    description = joinFragments fragments := by
  have hsanitize := (cleanText_joinFragments hne hclean).sanitize_eq
  cases fragments with
  | nil => exact absurd rfl hne
  | cons f rest =>
    cases rest with
    | nil =>
      rw [joinFragments_singleton] at hsanitize ⊢
      rw [← Option.some.inj h,hsanitize]
    | cons g fs =>
      rw [handleEntityRelationSummary] at h
      · split at h
        · rw [← Option.some.inj h,hsanitize]
        · cases h
      · exact fun heq => nomatch heq
      · exact fun d heq => nomatch heq

theorem clean_combined (halready : ∀ f ∈ already, CleanFragment cfg f)
    (hnew : ∀ d ∈ new, PlainDescription cfg d) :
    ∀ f ∈ combineDescriptionsDedup cfg already new, CleanFragment cfg f := by
  intro f hf
  obtain ⟨d,hd,rfl,hne⟩ := mem_combineDescriptionsDedup.mp hf
  cases hd with
  | inl hold =>
    rw [(halready d hold).sanitize_eq]
    exact halready d hold
  | inr hfresh => exact (hnew d hfresh).resolve_left hne

theorem combined_ne_nil (halready : ∀ f ∈ already, CleanFragment cfg f) (hne : already ≠ []) :
    combineDescriptionsDedup cfg already new ≠ [] := by
  obtain ⟨f,hf⟩ := exists_mem_of_ne_nil already hne
  have hmem : f ∈ combineDescriptionsDedup cfg already new := by
    rw [mem_combineDescriptionsDedup]
    exact ⟨f,.inl hf,(halready f hf).sanitize_eq.symm,(halready f hf).nonempty⟩
  exact ne_nil_of_mem hmem

end

end LightRAG.Knowledge
