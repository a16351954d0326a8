import LightRAG.Pipeline.Enqueue
import LightRAG.Pipeline.FilenameHints

/-!
# Source names

`normalize_document_file_path` takes one hint off a base name.
-/

namespace LightRAG.FilenameHints
open List Option

open Text (isSpace)
open Trim (rtrim dropWhile_append_cons rtrim_append_cons trim_append_cons)

variable {host : HintHost} {s p v h e ext before stem : Str}

def OpenHint (p : Str) : Prop := ∃ u v, p = u ++ '.' :: '[' :: v ∧ ']' ∉ v

theorem takeWhile_content (hclosed : ']' ∉ h) :
    (h ++ ']' :: e).takeWhile (· ≠ ']') = h ∧ (h ++ ']' :: e).dropWhile (· ≠ ']') = ']' :: e := by
  have hall : ∀ c ∈ h, decide (c ≠ ']') = true := by
    intro c hc
    rw [decide_eq_true_eq]
    rintro rfl
    exact hclosed hc
  rw [takeWhile_append_of_pos hall, dropWhile_append_of_pos hall]
  simp

theorem hintAt_eq_some : hintAt s = some (h, e) ↔
    s = '.' :: '[' :: (h ++ ']' :: '.' :: e) ∧ ']' ∉ h ∧ e ≠ [] ∧ '.' ∉ e := by
  constructor
  · intro hat
    unfold hintAt at hat
    split at hat
    · rename_i rest
      split at hat
      · rename_i ext hdrop
        split at hat
        · rename_i hext
          obtain ⟨rfl, rfl⟩ := Prod.mk.inj (some.inj hat)
          have hsplit := takeWhile_append_dropWhile (p := (· ≠ ']')) (l := rest)
          rw [hdrop] at hsplit
          refine ⟨by rw [hsplit],?_,hext⟩
          intro hmem
          simpa using all_eq_true.mp all_takeWhile _ hmem
        · cases hat
      · cases hat
    · cases hat
  · rintro ⟨rfl,hclosed,hext⟩
    obtain ⟨htake,hdrop⟩ := takeWhile_content (e := '.' :: e) hclosed
    unfold hintAt
    simp only [hdrop,htake]
    exact if_pos hext

theorem openHint_of_match {h' e' : Str} (hclosed' : ']' ∉ h') (hext' : '.' ∉ e') {c : Char}
    (heq : c :: p ++ '.' :: '[' :: (h ++ ']' :: '.' :: e) =
      '.' :: '[' :: (h' ++ ']' :: '.' :: e')) : OpenHint (c :: p) := by
  obtain ⟨rfl, hrest⟩ := List.cons.inj heq
  cases p with
  | nil => simp at hrest
  | cons d p =>
    obtain ⟨rfl, htail⟩ := List.cons.inj hrest
    refine ⟨[], p, rfl, fun hmem => ?_⟩
    rcases append_eq_append_iff.mp htail with ⟨v, rfl, -⟩ | ⟨v, -, hlater⟩
    · exact hclosed' (mem_append_left _ hmem)
    · -- the whole hint would stand in the extension
      apply hext'
      rcases v with _ | ⟨c, _ | ⟨d, v⟩⟩
      · simp at hlater
      · rw [cons_append, List.cons.injEq, nil_append, List.cons.injEq] at hlater
        rw [hlater.2.2]
        simp
      · rw [cons_append, List.cons.injEq, cons_append, List.cons.injEq] at hlater
        rw [hlater.2.2]
        simp

theorem openHint_cons {c : Char} (hp : OpenHint p) : OpenHint (c :: p) := by
  obtain ⟨u,v,rfl,hv⟩ := hp
  exact ⟨c :: u,v,rfl,hv⟩

theorem openHint_cons_cases {c : Char} (hp : OpenHint (c :: p)) :
    OpenHint p ∨ ∃ v, c = '.' ∧ p = '[' :: v ∧ ']' ∉ v := by
  obtain ⟨u,v,heq,hv⟩ := hp
  cases u with
  | nil =>
    obtain ⟨rfl,rfl⟩ := List.cons.inj heq
    exact .inr ⟨v,rfl,rfl,hv⟩
  | cons d u =>
    obtain ⟨rfl,rfl⟩ := List.cons.inj heq
    exact .inl ⟨u,v,rfl,hv⟩

theorem hintSearch_eq_some : hintSearch s = some (p, h, e) ↔
    s = p ++ '.' :: '[' :: (h ++ ']' :: '.' :: e) ∧ ']' ∉ h ∧ e ≠ [] ∧ '.' ∉ e ∧ ¬ OpenHint p := by
  induction s generalizing p with
  | nil => simp [hintSearch]
  | cons c s ih =>
    rw [hintSearch]
    cases hat : hintAt (c :: s) with
    | some m =>
      obtain ⟨hhere, hclosed', hne', hext'⟩ := hintAt_eq_some.mp hat
      constructor
      · intro heq
        obtain ⟨rfl, rfl, rfl⟩ := heq
        refine ⟨hhere, hclosed', hne', hext', ?_⟩
        rintro ⟨u, v, hnil, -⟩
        simp at hnil
      · rintro ⟨heq, hclosed, hne, hext, hopen⟩
        cases p with
        | nil =>
          rw [heq, nil_append] at hat
          have hsame := hintAt_eq_some.mpr ⟨rfl, hclosed, hne, hext⟩
          rw [hsame] at hat
          rw [← some.inj hat]
        | cons d p =>
          rw [heq] at hhere
          exact absurd (openHint_of_match hclosed' hext' hhere) hopen
    | none =>
      rw [map_eq_some_iff]
      constructor
      · rintro ⟨⟨p', h', e'⟩, hlater, heq⟩
        simp only [Prod.mk.injEq] at heq
        obtain ⟨rfl, rfl, rfl⟩ := heq
        obtain ⟨rfl, hclosed, hne, hext, hopen⟩ := ih.mp hlater
        refine ⟨rfl, hclosed, hne, hext, fun hcons => ?_⟩
        rcases openHint_cons_cases hcons with hp | ⟨v, rfl, rfl, hv⟩
        · exact hopen hp
        · have hhere := hintAt_eq_some.mpr ⟨rfl, (?_ : ']' ∉ v ++ '.' :: '[' :: h'), hne, hext⟩
          · simp only [append_assoc, cons_append] at hhere hat
            rw [hat] at hhere
            cases hhere
          · simp [hv, hclosed]
      · rintro ⟨heq, hclosed, hne, hext, hopen⟩
        cases p with
        | nil =>
          rw [heq, nil_append, hintAt_eq_some.mpr ⟨rfl, hclosed, hne, hext⟩] at hat
          cases hat
        | cons d p =>
          obtain ⟨rfl, hs⟩ := List.cons.inj heq
          exact ⟨(p, h, e), ih.mpr ⟨hs, hclosed, hne, hext, fun hp => hopen (openHint_cons hp)⟩, rfl⟩

theorem dot_inj {a b : Str} (h : a ++ '.' :: e = b ++ '.' :: ext) (he : '.' ∉ e) (hext : '.' ∉ ext) :
    a = b ∧ e = ext := by
  rcases append_eq_append_iff.mp h with ⟨v,rfl,hv⟩ | ⟨v,rfl,hv⟩
  · cases v with
    | nil => simpa using hv
    | cons c v =>
      rw [cons_append,List.cons.injEq] at hv
      rw [hv.2] at he
      simp at he
  · cases v with
    | nil => simpa using hv.symm
    | cons c v =>
      rw [cons_append,List.cons.injEq] at hv
      rw [hv.2] at hext
      simp at hext

theorem hint_eq_append (p h e : Str) : p ++ '.' :: '[' :: (h ++ ']' :: '.' :: e) =
    (p ++ '.' :: '[' :: (h ++ [']'])) ++ '.' :: e := by simp

theorem hintSearch_of_last_dot (p : Str) : hintSearch (p ++ ['.']) = none := by
  by_contra hsome
  obtain ⟨⟨before,h,e⟩,hm⟩ := ne_none_iff_exists'.mp hsome
  obtain ⟨heq,-,hne,hext,-⟩ := hintSearch_eq_some.mp hm
  rw [hint_eq_append] at heq
  exact hne (dot_inj heq not_mem_nil hext).2.symm

theorem openHint_append (w : Str) (hp : OpenHint p) : OpenHint (w ++ p) := by
  obtain ⟨u,v,rfl,hv⟩ := hp
  exact ⟨w ++ u,v,(append_assoc _ _ _).symm,hv⟩

theorem openHint_of_blank {w : Str} (hw : w.all isSpace = true) (hp : OpenHint (w ++ p)) :
    OpenHint p := by
  obtain ⟨u,v,heq,hv⟩ := hp
  rcases append_eq_append_iff.mp heq with ⟨u,rfl,rfl⟩ | ⟨u',rfl,hu⟩
  · exact ⟨u,v,rfl,hv⟩
  · cases u' with
    | nil => exact ⟨[],v,hu.symm,hv⟩
    | cons c u' =>
      rw [cons_append,List.cons.injEq] at hu
      rw [← hu.1] at hw
      simp [isSpace] at hw

theorem openHint_dropWhile : OpenHint (p.dropWhile isSpace) ↔ OpenHint p := by
  have hsplit := takeWhile_append_dropWhile (p := isSpace) (l := p)
  constructor
  · intro h
    rw [← hsplit]
    exact openHint_append _ h
  · intro h
    rw [← hsplit] at h
    exact openHint_of_blank all_takeWhile h

theorem strip_dot (p e : Str) : strip (p ++ '.' :: e) = p.dropWhile isSpace ++ '.' :: rtrim isSpace e :=
  trim_append_cons rfl

theorem rtrim_not_dot (he : '.' ∉ e) : '.' ∉ rtrim isSpace e :=
  fun h => he ((Trim.rtrim_sublist e).subset h)

theorem rtrim_ne_nil (he : e.all isSpace = false) : rtrim isSpace e ≠ [] := by
  rw [Ne,Trim.rtrim_eq_nil,he]
  exact Bool.false_ne_true

theorem strip_hint (p h e : Str) : strip (p ++ '.' :: '[' :: (h ++ ']' :: '.' :: e)) =
    p.dropWhile isSpace ++ '.' :: '[' :: (h ++ ']' :: '.' :: rtrim isSpace e) := by
  rw [strip,trim_append_cons rfl]
  have hrest : '[' :: (h ++ ']' :: '.' :: e) = ('[' :: (h ++ [']'])) ++ '.' :: e := by simp
  rw [hrest,rtrim_append_cons rfl]
  simp

theorem hintSearch_strip (hs : hintSearch s = some (p, h, e)) (he : e.all isSpace = false) :
    hintSearch (strip s) = some (p.dropWhile isSpace, h, rtrim isSpace e) := by
  obtain ⟨rfl,hclosed,-,hext,hopen⟩ := hintSearch_eq_some.mp hs
  rw [strip_hint,hintSearch_eq_some,openHint_dropWhile]
  exact ⟨rfl,hclosed,rtrim_ne_nil he,rtrim_not_dot hext,hopen⟩

theorem hintSearch_of_strip (hs : hintSearch (strip s) = some (p, h, e)) :
    ∃ p' e', hintSearch s = some (p', h, e') := by
  obtain ⟨w,w',hsplit,hw,hw'⟩ := Trim.exists_trim (p := isSpace) s
  obtain ⟨heq,hclosed,hne,hext,hopen⟩ := hintSearch_eq_some.mp hs
  change Trim.trim isSpace s = _ at heq
  rw [heq] at hsplit
  refine ⟨w ++ p,e ++ w',hintSearch_eq_some.mpr ⟨?_,hclosed,?_,?_,?_⟩⟩
  · rw [hsplit]
    simp
  · simp [hne]
  · rw [mem_append,not_or]
    refine ⟨hext,fun hdot => ?_⟩
    exact absurd (all_eq_true.mp hw' _ hdot) (by decide)
  · exact fun h => hopen (openHint_of_blank hw h)

theorem filenameHintMatch_eq_some : filenameHintMatch host s = some (p, h, e) ↔
    hintSearch s = some (p, h, e) ∧ recognises host h = true := by
  rw [filenameHintMatch,filter_eq_some_iff]

theorem filenameHintMatch_of_search (hs : hintSearch s = none) : filenameHintMatch host s = none := by
  rw [filenameHintMatch,hs,filter_none]

theorem filenameHintMatch_of_strip (h : filenameHintMatch host s = none) :
    filenameHintMatch host (strip s) = none := by
  by_contra hsome
  obtain ⟨⟨p,inner,e⟩,hm⟩ := ne_none_iff_exists'.mp hsome
  obtain ⟨hs,hknown⟩ := filenameHintMatch_eq_some.mp hm
  obtain ⟨p',e',hs'⟩ := hintSearch_of_strip hs
  rw [filenameHintMatch_eq_some.mpr ⟨hs',hknown⟩] at h
  cases h

theorem filenameHintMatch_strip (hdot : '.' ∉ ext) (hblank : ext.all isSpace = false) :
    filenameHintMatch host (strip (before ++ '.' :: ext)) = none ↔
      filenameHintMatch host (before ++ '.' :: ext) = none := by
  refine ⟨fun h => ?_,filenameHintMatch_of_strip⟩
  by_contra hsome
  obtain ⟨⟨p,inner,e⟩,hm⟩ := ne_none_iff_exists'.mp hsome
  obtain ⟨hs,hknown⟩ := filenameHintMatch_eq_some.mp hm
  obtain ⟨heq,-,-,he,-⟩ := hintSearch_eq_some.mp hs
  rw [hint_eq_append] at heq
  obtain ⟨-,rfl⟩ := dot_inj heq hdot he
  rw [filenameHintMatch_eq_some.mpr ⟨hintSearch_strip hs hblank,hknown⟩] at h
  cases h

theorem pathName_self (hslash : '/' ∉ s) (hne : s ≠ []) (hdot : s ≠ ['.']) : pathName s = s := by
  rw [pathName,Text.split_of_not_mem hslash]
  simp [hne,hdot]

theorem slash_not_mem_pathName (s : Str) : '/' ∉ pathName s := by
  intro hmem
  rw [pathName] at hmem
  cases hlast : ((Text.split '/' s).filter fun part => part ≠ [] ∧ part ≠ ['.']).getLast? with
  | none =>
    rw [hlast] at hmem
    cases hmem
  | some part =>
    rw [hlast] at hmem
    have hpart := (mem_filter.mp (mem_of_getLast? hlast)).1
    exact Text.not_mem_split hpart hmem

/-- `PLACEHOLDER_DOCUMENT_SOURCES` -/
def placeholders : List Str := [[], "no-file-path".toList, "unknown_source".toList]

def unknownSource : Str := "unknown_source".toList

/-- `normalize_document_file_path` on the characters of a text. -/
def normalize (host : HintHost) (filePath : Str) : Str :=
  let source := strip filePath
  if source ∈ placeholders then unknownSource
  else
    let canonical := strip (canonicalizeParserHintedBasename host source)
    if canonical ∈ placeholders then unknownSource else canonical

/-- At most one recognised hint ends the base name, and what is left is not a single dot. -/
def Settled (host : HintHost) (basename : Str) : Prop :=
  match filenameHintMatch host basename with
  | none => strip basename ≠ ['.']
  | some (before, _, ext) =>
    if ext.all isSpace then before.all isSpace = false
    else filenameHintMatch host (before ++ '.' :: ext) = none

theorem placeholder_of_dot (h : '.' ∈ s) : s ∉ placeholders := by
  intro hmem
  simp only [placeholders,mem_cons,not_mem_nil,or_false] at hmem
  rcases hmem with rfl | rfl | rfl
  · cases h
  · exact absurd h (by decide)
  · exact absurd h (by decide)

theorem strip_strip (s : Str) : strip (strip s) = strip s := Trim.trim_trim s

theorem length_strip_le (s : Str) : (strip s).length ≤ s.length := (Trim.trim_sublist s).length_le

theorem normalize_name (hstrip : strip s = s) (hslash : '/' ∉ s) (hname : s ∉ placeholders) :
    normalize host s = s ↔ s ≠ ['.'] ∧ filenameHintMatch host s = none := by
  have hne : s ≠ [] := by
    rintro rfl
    exact hname (by decide)
  have hnormalize : normalize host s =
      if strip (canonicalizeParserHintedBasename host s) ∈ placeholders then unknownSource
      else strip (canonicalizeParserHintedBasename host s) := by
    rw [normalize,hstrip]
    exact if_neg hname
  have hunknown : unknownSource ≠ s := by
    rintro rfl
    exact hname (by decide)
  rw [hnormalize]
  by_cases hdot : s = ['.']
  · subst hdot
    have hempty : strip (canonicalizeParserHintedBasename host ['.']) = [] := rfl
    rw [hempty,if_pos (by decide)]
    simp [hunknown]
  · rw [canonicalizeParserHintedBasename,pathName_self hslash hne hdot]
    cases hm : filenameHintMatch host s with
    | none => simp [hstrip,hname,hdot]
    | some m =>
      obtain ⟨p,h,e⟩ := m
      simp only
      obtain ⟨heq,-⟩ := hintSearch_eq_some.mp (filenameHintMatch_eq_some.mp hm).1
      have hshort := length_strip_le (p ++ '.' :: e)
      have hlonger : (strip (p ++ '.' :: e)).length < s.length := by
        rw [heq]
        simp only [length_append,length_cons] at hshort ⊢
        omega
      constructor
      · intro hsame
        split at hsame
        · exact absurd hsame hunknown
        · rw [hsame] at hlonger
          exact absurd hlonger (Nat.lt_irrefl _)
      · rintro ⟨-,hnone⟩
        cases hnone

theorem settled_iff (x : Str) : Settled host (pathName x) ↔
    strip (canonicalizeParserHintedBasename host x) ∈ placeholders ∨
      strip (canonicalizeParserHintedBasename host x) ≠ ['.'] ∧
        filenameHintMatch host (strip (canonicalizeParserHintedBasename host x)) = none := by
  rw [Settled,canonicalizeParserHintedBasename]
  cases hm : filenameHintMatch host (pathName x) with
  | none =>
    constructor
    · exact fun hdot => .inr ⟨hdot,filenameHintMatch_of_strip hm⟩
    · rintro (hplace | ⟨hdot,-⟩)
      · intro hdot
        rw [hdot] at hplace
        exact placeholder_of_dot mem_cons_self hplace
      · exact hdot
  | some m =>
    obtain ⟨p,h,e⟩ := m
    obtain ⟨-,-,-,hext,-⟩ := hintSearch_eq_some.mp (filenameHintMatch_eq_some.mp hm).1
    have hname : strip (p ++ '.' :: e) ∉ placeholders := by
      apply placeholder_of_dot
      rw [strip_dot]
      simp
    simp only [hname,false_or]
    cases hblank : e.all isSpace with
    | true =>
      have hrtrim : rtrim isSpace e = [] := Trim.rtrim_eq_nil.mpr hblank
      rw [strip_dot,hrtrim,filenameHintMatch_of_search (hintSearch_of_last_dot _)]
      rw [← Bool.not_eq_true,← Trim.dropWhile_eq_nil]
      cases p.dropWhile isSpace <;> simp
    | false =>
      have hdot : strip (p ++ '.' :: e) ≠ ['.'] := by
        rw [strip_dot]
        have hne := rtrim_ne_nil hblank
        cases p.dropWhile isSpace <;> simp [hne]
      rw [filenameHintMatch_strip hext hblank]
      exact ⟨fun hnone => ⟨hdot,hnone⟩,fun hnone => hnone.2⟩

theorem slash_not_mem_canonical (x : Str) :
    '/' ∉ strip (canonicalizeParserHintedBasename host x) := by
  intro hmem
  have hslash := slash_not_mem_pathName x
  have hmem := (Trim.trim_sublist _).subset hmem
  rw [canonicalizeParserHintedBasename] at hmem
  cases hm : filenameHintMatch host (pathName x) with
  | none =>
    simp only [hm] at hmem
    exact hslash hmem
  | some m =>
    simp only [hm] at hmem
    obtain ⟨heq,-⟩ := hintSearch_eq_some.mp (filenameHintMatch_eq_some.mp hm).1
    rw [heq] at hslash
    simp only [mem_append,mem_cons] at hslash hmem
    tauto

theorem settled_of_none (h : filenameHintMatch host s = none) :
    Settled host s ↔ strip s ≠ ['.'] := by
  rw [Settled,h]

theorem settled_placeholder (h : s ∈ placeholders) : Settled host (pathName s) := by
  simp only [placeholders,mem_cons,not_mem_nil,or_false] at h
  rcases h with rfl | rfl | rfl
  · exact (settled_of_none rfl).mpr (by decide)
  · exact (settled_of_none (filenameHintMatch_of_search (by decide))).mpr (by decide)
  · exact (settled_of_none (filenameHintMatch_of_search (by decide))).mpr (by decide)

theorem normalize_normalize_iff (s : Str) :
    normalize host (normalize host s) = normalize host s ↔ Settled host (pathName (strip s)) := by
  by_cases hsource : strip s ∈ placeholders
  · have hnormal : normalize host s = unknownSource := by
      exact if_pos hsource
    rw [hnormal]
    exact ⟨fun _ => settled_placeholder hsource,fun _ => rfl⟩
  · rw [settled_iff]
    generalize hkept : strip (canonicalizeParserHintedBasename host (strip s)) = kept
    have hnormal : normalize host s = if kept ∈ placeholders then unknownSource else kept := by
      rw [← hkept]
      exact if_neg hsource
    rw [hnormal]
    by_cases hplace : kept ∈ placeholders
    · rw [if_pos hplace]
      exact ⟨fun _ => .inl hplace,fun _ => rfl⟩
    · have hstrip : strip kept = kept := by rw [← hkept,strip_strip]
      have hslash : '/' ∉ kept := hkept ▸ slash_not_mem_canonical (strip s)
      rw [if_neg hplace,normalize_name hstrip hslash hplace]
      exact ⟨.inr,fun h => h.resolve_left hplace⟩

theorem normalize_dotted (hslash : '/' ∉ s) (hdot : '.' ∈ strip s) (hne : strip s ≠ ['.']) :
    normalize host s = match filenameHintMatch host (strip s) with
      | none => strip s
      | some (p, _, e) => strip (p ++ '.' :: e) := by
  have hsource := placeholder_of_dot hdot
  have hnil : strip s ≠ [] := ne_nil_of_mem hdot
  have hslash' : '/' ∉ strip s := fun h => hslash ((Trim.trim_sublist s).subset h)
  have hnormal : normalize host s =
      if strip (canonicalizeParserHintedBasename host (strip s)) ∈ placeholders then unknownSource
      else strip (canonicalizeParserHintedBasename host (strip s)) := by
    exact if_neg hsource
  rw [hnormal,canonicalizeParserHintedBasename,pathName_self hslash' hnil hne]
  cases filenameHintMatch host (strip s) with
  | none =>
    simp only [strip_strip]
    exact if_neg hsource
  | some m =>
    apply if_neg
    apply placeholder_of_dot
    rw [strip_dot]
    simp

theorem slash_not_mem_dotted (hstem : '/' ∉ stem) (hext : '/' ∉ ext) : '/' ∉ stem ++ '.' :: ext := by
  simp [hstem,hext]

theorem hintSearch_of_openHint (hopen : OpenHint stem) (hext : '.' ∉ ext) :
    hintSearch (stem ++ '.' :: ext) = none := by
  by_contra hsome
  obtain ⟨⟨p,h,e⟩,hm⟩ := ne_none_iff_exists'.mp hsome
  obtain ⟨heq,-,-,he,-⟩ := hintSearch_eq_some.mp hm
  rw [hint_eq_append] at heq
  obtain ⟨hstem,-⟩ := dot_inj heq hext he
  obtain ⟨u,v,rfl,hv⟩ := hopen
  have hassoc : p ++ '.' :: '[' :: (h ++ [']']) = (p ++ '.' :: '[' :: h) ++ [']'] := by simp
  have hlast : (u ++ '.' :: '[' :: v).getLast? = some ']' := by
    rw [hstem,hassoc,List.getLast?_concat]
  have hend : ('.' :: '[' :: v).getLast? = some (('.' :: '[' :: v).getLast (cons_ne_nil _ _)) :=
    List.getLast?_eq_some_getLast (cons_ne_nil _ _)
  rw [List.getLast?_append,hend] at hlast
  have hmem := getLast_mem (cons_ne_nil '.' ('[' :: v))
  rw [some.inj hlast] at hmem
  simp [hv] at hmem

theorem normalize_hint_iff (hstem : '/' ∉ stem) (hinner : '/' ∉ h) (hclosed : ']' ∉ h)
    (hknown : recognises host h = true) (hext : '/' ∉ ext) (hdot : '.' ∉ ext) (hne : ext ≠ []) :
    normalize host (stem ++ '.' :: '[' :: (h ++ ']' :: '.' :: ext)) =
        normalize host (stem ++ '.' :: ext) ↔
      ¬ OpenHint stem ∧ filenameHintMatch host (stem ++ '.' :: ext) = none ∧
        ext.all isSpace = false := by
  have hslash : '/' ∉ stem ++ '.' :: '[' :: (h ++ ']' :: '.' :: ext) := by
    simp [hstem, hinner, hext]
  have hslash' := slash_not_mem_dotted hstem hext
  have hhinted : normalize host (stem ++ '.' :: '[' :: (h ++ ']' :: '.' :: ext)) =
      match filenameHintMatch host (strip (stem ++ '.' :: '[' :: (h ++ ']' :: '.' :: ext))) with
      | none => strip (stem ++ '.' :: '[' :: (h ++ ']' :: '.' :: ext))
      | some (p, _, e) => strip (p ++ '.' :: e) := by
    apply normalize_dotted hslash
    · rw [strip_hint]
      simp
    · rw [strip_hint]
      cases stem.dropWhile isSpace <;> simp
  have hlonger : strip (stem ++ '.' :: '[' :: (h ++ ']' :: '.' :: ext)) ≠
      strip (stem ++ '.' :: ext) := by
    intro hsame
    rw [strip_hint, strip_dot] at hsame
    have hlength := congrArg List.length hsame
    simp only [length_append, length_cons] at hlength
    omega
  cases hblank : ext.all isSpace with
  | true =>
    have hrtrim : rtrim isSpace ext = [] := Trim.rtrim_eq_nil.mpr hblank
    have hsearch : hintSearch (strip (stem ++ '.' :: '[' :: (h ++ ']' :: '.' :: ext))) = none := by
      rw [strip_hint, hrtrim, hint_eq_append]
      exact hintSearch_of_last_dot _
    rw [hhinted, filenameHintMatch_of_search hsearch]
    simp only [Bool.true_eq_false, and_false, iff_false]
    by_cases hdotted : strip (stem ++ '.' :: ext) = ['.']
    · have hunknown : normalize host (stem ++ '.' :: ext) = unknownSource := by
        rw [normalize, hdotted]
        rfl
      rw [hunknown]
      intro hsame
      have hmem : '.' ∈ strip (stem ++ '.' :: '[' :: (h ++ ']' :: '.' :: ext)) := by
        rw [strip_hint]
        simp
      rw [hsame] at hmem
      exact placeholder_of_dot hmem (by decide)
    · rw [normalize_dotted hslash' (by rw [strip_dot]; simp) hdotted]
      have hsearch' : hintSearch (strip (stem ++ '.' :: ext)) = none := by
        rw [strip_dot, hrtrim]
        exact hintSearch_of_last_dot _
      rw [filenameHintMatch_of_search hsearch']
      exact hlonger
  | false =>
    have hdotted : strip (stem ++ '.' :: ext) ≠ ['.'] := by
      rw [strip_dot]
      have := rtrim_ne_nil hblank
      cases stem.dropWhile isSpace <;> simp [this]
    have hplain : normalize host (stem ++ '.' :: ext) = strip (stem ++ '.' :: ext) ↔
        filenameHintMatch host (stem ++ '.' :: ext) = none := by
      rw [normalize_dotted hslash' (by rw [strip_dot]; simp) hdotted,
        ← filenameHintMatch_strip hdot hblank]
      cases hm : filenameHintMatch host (strip (stem ++ '.' :: ext)) with
      | none => simp
      | some m =>
        obtain ⟨p, inner, e⟩ := m
        simp only [reduceCtorEq, iff_false]
        intro hsame
        obtain ⟨heq, -⟩ := hintSearch_eq_some.mp (filenameHintMatch_eq_some.mp hm).1
        have hshort := length_strip_le (p ++ '.' :: e)
        rw [hsame, heq] at hshort
        simp only [length_append, length_cons] at hshort
        omega
    rw [hhinted]
    by_cases hopen : OpenHint stem
    · -- the match begins too early, or there is none
      have hnone : filenameHintMatch host (stem ++ '.' :: ext) = none :=
        filenameHintMatch_of_search (hintSearch_of_openHint hopen hdot)
      rw [hplain.mpr hnone]
      simp only [hopen, not_true, false_and, iff_false]
      cases hm : filenameHintMatch host
        (strip (stem ++ '.' :: '[' :: (h ++ ']' :: '.' :: ext))) with
      | none => exact hlonger
      | some m =>
        simp only
        intro hsame
        obtain ⟨-, -, -, he, hclear⟩ := hintSearch_eq_some.mp (filenameHintMatch_eq_some.mp hm).1
        rw [strip_dot, strip_dot] at hsame
        obtain ⟨hstems, -⟩ := dot_inj hsame (rtrim_not_dot he) (rtrim_not_dot hdot)
        rw [← openHint_dropWhile, hstems, openHint_dropWhile] at hclear
        exact hclear hopen
    · have hsearch : hintSearch (strip (stem ++ '.' :: '[' :: (h ++ ']' :: '.' :: ext))) =
          some (stem.dropWhile isSpace, h, rtrim isSpace ext) :=
        hintSearch_strip (hintSearch_eq_some.mpr ⟨rfl, hclosed, hne, hdot, hopen⟩) hblank
      rw [filenameHintMatch_eq_some.mpr ⟨hsearch, hknown⟩]
      simp only [hopen, not_false_eq_true, true_and, and_true]
      rw [← strip_dot, strip_strip, eq_comm, hplain]

section

open Enqueue (normalizeDocumentFilePath resolveExistingDocSource placeholderDocumentSources)

def withHints (call : Enqueue.Host) (host : HintHost) : Enqueue.Host :=
  { call with
    canonicalizeParserHintedBasename := fun source =>
      String.ofList (canonicalizeParserHintedBasename host source.toList) }

/-- The key of `source_candidate_set_lock`, if it takes a lock. -/
def sourceCandidateSetKey (call : Enqueue.Host) (canonicalSourceKey : String) : Option String :=
  let canonical := normalizeDocumentFilePath call canonicalSourceKey
  if canonical ∈ placeholderDocumentSources then none else some canonical

variable (call : Enqueue.Host) (host : HintHost)

theorem mem_placeholders {name : String} :
    name.toList ∈ placeholders ↔ name ∈ placeholderDocumentSources := by
  have hmap : placeholders = placeholderDocumentSources.map String.toList := rfl
  rw [hmap,List.mem_map]
  constructor
  · rintro ⟨other,hother,heq⟩
    rwa [← String.toList_inj.mp heq]
  · exact fun hname => ⟨name,hname,rfl⟩

theorem toList_normalizeDocumentFilePath (name : String) :
    (normalizeDocumentFilePath (withHints call host) name).toList =
      normalize host name.toList := by
  have hstrip : ∀ t : String, (Text.strip t).toList = strip t.toList := by
    intro t
    rw [Text.strip,String.toList_ofList]
    rfl
  rw [normalizeDocumentFilePath,normalize]
  simp only [← mem_placeholders,hstrip,withHints,String.toList_ofList]
  split
  · rfl
  · split
    · rfl
    · rw [hstrip,String.toList_ofList]

theorem normalizeDocumentFilePath_inj {name other : String} :
    normalizeDocumentFilePath (withHints call host) name =
        normalizeDocumentFilePath (withHints call host) other ↔
      normalize host name.toList = normalize host other.toList := by
  rw [← String.toList_inj,toList_normalizeDocumentFilePath,toList_normalizeDocumentFilePath]

theorem sourceCandidateSetKey_inj {name other : String} :
    sourceCandidateSetKey call name = sourceCandidateSetKey call other ↔
      normalizeDocumentFilePath call name = normalizeDocumentFilePath call other := by
  have hunknown : ∀ x : String,
      normalizeDocumentFilePath call x ∈ placeholderDocumentSources →
        normalizeDocumentFilePath call x = "unknown_source" := by
    intro x hx
    rw [normalizeDocumentFilePath] at hx ⊢
    dsimp only at hx ⊢
    split
    · rfl
    · rename_i hsource
      rw [if_neg hsource] at hx
      split
      · rfl
      · rename_i hplain
        rw [if_neg hplain] at hx
        exact absurd hx hplain
  rw [sourceCandidateSetKey,sourceCandidateSetKey]
  constructor
  · intro h
    split at h
    · rename_i hname
      split at h
      · rename_i hother
        rw [hunknown name hname,hunknown other hother]
      · cases h
    · split at h
      · cases h
      · exact some.inj h
  · intro h
    rw [h]

/-- The condition under which a name and its normalisation are one source. -/
def Stable (host : HintHost) (name : String) : Prop := Settled host (pathName (strip name.toList))

/-- Normalising is idempotent, and a stored name finds and locks what the uploaded one does,
exactly for names that are stable; a hint does not count exactly if the stem leaves no opening,
the name has no other hint and its extension is not blank. -/
theorem sourceIdentity_iff :
    (∀ name : String,
      (normalizeDocumentFilePath (withHints call host)
          (normalizeDocumentFilePath (withHints call host) name) =
        normalizeDocumentFilePath (withHints call host) name ↔ Stable host name) ∧
      (sourceCandidateSetKey (withHints call host)
          (normalizeDocumentFilePath (withHints call host) name) =
        sourceCandidateSetKey (withHints call host) name ↔ Stable host name) ∧
      (Stable host name → ∀ docStatus,
        resolveExistingDocSource (withHints call host) docStatus
            (normalizeDocumentFilePath (withHints call host) name) =
          resolveExistingDocSource (withHints call host) docStatus name)) ∧
    ∀ stem h ext : String, '/' ∉ stem.toList → '/' ∉ h.toList → ']' ∉ h.toList →
      recognises host h.toList = true → '/' ∉ ext.toList → '.' ∉ ext.toList → ext ≠ "" →
        (normalizeDocumentFilePath (withHints call host) (stem ++ ".[" ++ h ++ "]." ++ ext) =
            normalizeDocumentFilePath (withHints call host) (stem ++ "." ++ ext) ↔
          ¬ OpenHint stem.toList ∧
            filenameHintMatch host (stem.toList ++ '.' :: ext.toList) = none ∧
              Text.isBlank ext = false) := by
  constructor
  · intro name
    have hidempotent : normalizeDocumentFilePath (withHints call host)
          (normalizeDocumentFilePath (withHints call host) name) =
        normalizeDocumentFilePath (withHints call host) name ↔ Stable host name := by
      rw [normalizeDocumentFilePath_inj, toList_normalizeDocumentFilePath,
        normalize_normalize_iff, Stable]
    refine ⟨hidempotent, (sourceCandidateSetKey_inj _).trans hidempotent, fun hstable docStatus => ?_⟩
    rw [resolveExistingDocSource, resolveExistingDocSource, hidempotent.mpr hstable]
  · intro stem h ext hstem hinner hclosed hknown hext hdot hne
    have hne' : ext.toList ≠ [] := by
      intro hnil
      apply hne
      rw [← String.toList_inj, hnil]
      rfl
    have hhinted : (stem ++ ".[" ++ h ++ "]." ++ ext).toList =
        stem.toList ++ '.' :: '[' :: (h.toList ++ ']' :: '.' :: ext.toList) := by
      simp [String.toList_append]
    have hplain : (stem ++ "." ++ ext).toList = stem.toList ++ '.' :: ext.toList := by
      simp [String.toList_append]
    rw [normalizeDocumentFilePath_inj, hhinted, hplain]
    exact normalize_hint_iff hstem hinner hclosed hknown hext hdot hne'

end

def nativeOnly : HintHost where
  supportedParserEngines engine := engine = ['n', 'a', 't', 'i', 'v', 'e']
  lower := List.map Char.toLower
  parseChunkParams _ _ := none
  parseEngineParams _ text := text.all isSpace

def plainCall : Enqueue.Host := ⟨id, id, id, id, id, id, fun _ => true, fun _ => ""⟩

theorem sourceIdentity_native :
    Enqueue.normalizeDocumentFilePath (withHints plainCall nativeOnly)
        ("a" ++ ".[" ++ "native" ++ "]." ++ "pdf") =
      Enqueue.normalizeDocumentFilePath (withHints plainCall nativeOnly) ("a" ++ "." ++ "pdf") := by
  refine ((sourceIdentity_iff plainCall nativeOnly).2 "a" "native" "pdf" ?_ ?_ ?_ ?_ ?_ ?_ ?_).mpr
    ⟨?_,?_,?_⟩
  · decide
  · decide
  · decide
  · decide +kernel
  · decide
  · decide
  · decide
  · rintro ⟨u,v,heq,-⟩
    have hlength := congrArg List.length heq
    rw [length_append,length_cons,length_cons] at hlength
    have hone : "a".toList.length = 1 := by decide
    omega
  · decide +kernel
  · decide

theorem not_idempotent_two_hints :
    Enqueue.normalizeDocumentFilePath (withHints plainCall nativeOnly)
        (Enqueue.normalizeDocumentFilePath (withHints plainCall nativeOnly)
          "a.[native].[native].pdf") ≠
      Enqueue.normalizeDocumentFilePath (withHints plainCall nativeOnly)
        "a.[native].[native].pdf" := by
  decide +kernel

end LightRAG.FilenameHints
