import LightRAG.Pipeline.EngineParamTexts

/-!
# Checked values of engine parameters

A value that the check lets through is a fixed point of it, and what is written for it is read back
as the same value.
-/

namespace LightRAG.EngineParams
open List Except

open FilenameHints (Str strip takeParenBlock)
open Text (forall_mem isSpace)

variable {mode : Mode} {py : Python} {spec : EngineParamSpec} {specs : List EngineParamSpec}
  {t : Str} {v : Coerced}

def Free (s : Str) : Prop := ∀ c ∈ s, c ∉ valueForbidden

instance (s : Str) : Decidable (Free s) := List.decidableBAll (· ∉ valueForbidden) s

theorem parseBool_lower (low : Str) (hstrip : strip t = t) (hascii : ∀ c ∈ t, c.toNat < 128)
    (hlow : t.map Char.toLower = low) : parseBool py t =
      if low ∈ ["1", "true", "yes", "on", "t", "y"].map String.toList then some true
      else if low ∈ ["0", "false", "no", "off", "f", "n"].map String.toList then some false
      else none := by
  rw [parseBool,hstrip,py.lower_ascii t hascii,hlow]

theorem parseBool_str (b : Bool) : parseBool py (Coerced.bool b).str = some b := by
  cases b with
  | true =>
    rw [parseBool_lower "true".toList (by decide) (forall_mem (by decide)) (by decide)]
    decide
  | false =>
    rw [parseBool_lower "false".toList (by decide) (forall_mem (by decide)) (by decide)]
    decide

theorem parseBool_rendered (b : Bool) :
    parseBool py (if b then "true".toList else "false".toList) = some b := by
  cases b with
  | true =>
    rw [parseBool_lower "true".toList (by decide) (forall_mem (by decide)) (by decide)]
    decide
  | false =>
    rw [parseBool_lower "false".toList (by decide) (forall_mem (by decide)) (by decide)]
    decide

theorem chars_of_digits (h : isDigits py t = true) : t ≠ [] ∧ ∀ c ∈ t, (py.digit c).isSome := by
  rw [isDigits,Text.isRun,Bool.and_eq_true,all_eq_true] at h
  refine ⟨?_,h.2⟩
  rintro rfl
  simp at h

def PageChar (py : Python) (c : Char) : Prop := c = '-' ∨ (py.digit c).isSome

theorem chars_of_segment (h : isPageSegment py t = true) : t ≠ [] ∧ ∀ c ∈ t, PageChar py c := by
  rw [isPageSegment,Bool.and_eq_true] at h
  obtain ⟨hne,hleft⟩ := chars_of_digits h.1
  have hsplit := takeWhile_append_dropWhile (p := fun c : Char => decide (c ≠ '-')) (l := t)
  constructor
  · rintro rfl
    exact hne rfl
  · intro c hc
    rw [← hsplit,mem_append] at hc
    rcases hc with hc | hc
    · exact .inr (hleft c hc)
    · cases hrest : t.dropWhile (fun c : Char => decide (c ≠ '-')) with
      | nil =>
        rw [hrest] at hc
        cases hc
      | cons d rest =>
        have hd : d = '-' := by
          have hhead := Trim.not_head_dropWhile (p := fun c : Char => decide (c ≠ '-')) (s := t)
            (d := d) (by rw [hrest]; rfl)
          simpa using hhead
        have hdash : '-' ∈ t := by
          rw [← hsplit,hrest,hd]
          simp
        rw [hrest] at hc
        rcases mem_cons.mp hc with rfl | hc
        · exact .inl hd
        · have hright : isDigits py rest = true := by
            have hor := h.2
            rw [hrest] at hor
            simpa [hdash] using hor
          exact .inr ((chars_of_digits hright).2 c hc)

theorem pageChar_plain {c : Char} (h : PageChar py c) :
    c ∉ [',', '(', ')', ']', '='] ∧ isSpace c = false := by
  rcases h with rfl | h
  · decide
  · constructor
    · intro hc
      rw [py.digit_plain c (.inl hc)] at h
      cases h
    · by_contra hspace
      rw [py.digit_plain c (.inr (by simpa using hspace))] at h
      cases h

theorem segment_of_error (h : segmentError py t = none) : isPageSegment py t = true := by
  unfold segmentError at h
  by_contra hnot
  rw [if_pos hnot] at h
  cases h

variable {parts : List Str}

theorem segments_of_valid (h : validatePageRangeSegments mode parts = []) :
    ∀ part ∈ parts, part ≠ [] ∧ ∀ c ∈ part, PageChar mode.toPython c := by
  intro part hpart
  have herrors : parts.filterMap (segmentError mode.toPython) = [] := by
    unfold validatePageRangeSegments at h
    dsimp only at h
    split at h
    · rename_i hsingle
      exact hsingle.1
    · exact h
  exact chars_of_segment (segment_of_error (filterMap_eq_nil_iff.mp herrors part hpart))

theorem strip_segments
    (h : ∀ part ∈ parts, part ≠ [] ∧ ∀ c ∈ part, PageChar py c) : parts.map strip = parts := by
  have hall : ∀ part ∈ parts, strip part = part := by
    intro part hpart
    exact strip_unblank fun c hc => (pageChar_plain ((h part hpart).2 c hc)).2
  exact (map_congr_left hall).trans (map_id parts)

theorem split_segments (hne : parts ≠ [])
    (h : ∀ part ∈ parts, part ≠ [] ∧ ∀ c ∈ part, PageChar py c) :
    Text.split ',' (Separated.join [','] parts) = parts := by
  apply split_join hne
  intro part hpart hc
  exact (pageChar_plain ((h part hpart).2 ',' hc)).1 (by decide)

inductive Accepts (mode : Mode) (spec : EngineParamSpec) : Str → Coerced → Prop
  | bool {t : Str} {b : Bool} : spec.kind = .bool → parseBool mode.toPython t = some b →
      Accepts mode spec t (.bool b)
  | enum {t : Str} {values : List Str} : spec.kind = .enum values → t ∈ values →
      Accepts mode spec t (.text t)
  | text {t : Str} : spec.kind = .str → t ≠ [] →
      ¬ (spec.isList ∧ spec.canonical = pageRange.canonical) → Accepts mode spec t (.text t)
  | pages {t : Str} : spec.kind = .str → t ≠ [] →
      spec.isList ∧ spec.canonical = pageRange.canonical →
      validatePageRangeSegments mode ((Text.split ',' t).map strip) = [] →
      Accepts mode spec t (.text (Separated.join [','] ((Text.split ',' t).map strip)))

def InMode (mode : Mode) (spec : EngineParamSpec) : Prop :=
  ¬ (spec.canonical = localParseMethod.canonical ∧ ¬ mode.mineruApiModeIsLocal)

theorem coerceEngineValue_eq_ok :
    coerceEngineValue mode spec t = .ok v ↔ InMode mode spec ∧ Accepts mode spec t v := by
  unfold coerceEngineValue InMode
  by_cases hlocal : spec.canonical = localParseMethod.canonical ∧ ¬ mode.mineruApiModeIsLocal
  · simp [hlocal]
  · rw [if_neg hlocal]
    simp only [hlocal,not_false_eq_true,true_and]
    constructor
    · intro h
      split at h
      · rename_i hkind
        split at h
        · cases h
        · rename_i b hb
          obtain rfl := ok.inj h
          exact .bool hkind hb
      · rename_i values hkind
        split at h
        · rename_i ht
          obtain rfl := ok.inj h
          exact .enum hkind ht
        · cases h
      · rename_i hkind
        split at h
        · cases h
        · rename_i hne
          split at h
          · rename_i hlist
            split at h
            · rename_i hvalid
              obtain rfl := ok.inj h
              exact .pages hkind hne hlist hvalid
            · cases h
          · rename_i hlist
            obtain rfl := ok.inj h
            exact .text hkind hne hlist
    · intro h
      cases h with
      | bool hkind hb => simp [hkind,hb]
      | enum hkind ht => simp [hkind,ht]
      | text hkind hne hlist => simp [hkind,hne,hlist]
      | pages hkind hne hlist hvalid => simp [hkind,hne,hlist,hvalid]

structure Fixed (mode : Mode) (spec : EngineParamSpec) (v : Coerced) : Prop where
  stripped : strip v.str = v.str
  coerced : coerceEngineValue mode spec v.str = .ok v

theorem strip_join_segments (h : ∀ part ∈ parts, part ≠ [] ∧ ∀ c ∈ part, PageChar py c) :
    strip (Separated.join [','] parts) = Separated.join [','] parts := by
  apply strip_unblank
  intro c hc
  rcases mem_join hc with hc | ⟨part,hpart,hc⟩
  · obtain rfl := mem_singleton.mp hc
    decide
  · exact (pageChar_plain ((h part hpart).2 c hc)).2

theorem fixed_of_coerced (h : coerceEngineValue mode spec t = .ok v)
    (ht : spec.isList = true ∨ strip t = t)
    (hlist : spec.isList = true → spec.canonical = pageRange.canonical ∧ spec.kind = .str) :
    Fixed mode spec v := by
  rw [coerceEngineValue_eq_ok] at h
  obtain ⟨hmode,haccepts⟩ := h
  have hstrip : ∀ {t : Str}, (spec.isList = true ∨ strip t = t) →
      ¬ (spec.isList ∧ spec.canonical = pageRange.canonical) → strip t = t := by
    intro t ht hnot
    rcases ht with ht | ht
    · exact absurd ⟨ht,(hlist ht).1⟩ hnot
    · exact ht
  cases haccepts with
  | @bool b hkind hb =>
    constructor
    · cases b <;> decide
    · exact coerceEngineValue_eq_ok.mpr ⟨hmode,.bool hkind (parseBool_str b)⟩
  | enum hkind hin =>
    constructor
    · apply hstrip ht
      intro hl
      rw [(hlist hl.1).2] at hkind
      cases hkind
    · exact coerceEngineValue_eq_ok.mpr ⟨hmode,.enum hkind hin⟩
  | text hkind hne hl =>
    exact ⟨hstrip ht hl,coerceEngineValue_eq_ok.mpr ⟨hmode,.text hkind hne hl⟩⟩
  | pages hkind hne hl hvalid =>
    have hchars := segments_of_valid hvalid
    have hparts : (Text.split ',' t).map strip ≠ [] := by
      simp [Text.split_ne_nil]
    have hjoin : Separated.join [','] ((Text.split ',' t).map strip) ≠ [] :=
      join_ne_nil hparts fun p hp => (hchars p hp).1
    have hagain : (Text.split ',' (Separated.join [','] ((Text.split ',' t).map strip))).map strip =
        (Text.split ',' t).map strip := by
      rw [split_segments hparts hchars,strip_segments hchars]
    constructor
    · exact strip_join_segments hchars
    · have hvalid' : validatePageRangeSegments mode ((Text.split ','
          (Separated.join [','] ((Text.split ',' t).map strip))).map strip) = [] := by
        rw [hagain]
        exact hvalid
      have hfixed := Accepts.pages hkind hjoin hl hvalid'
      rw [hagain] at hfixed
      exact coerceEngineValue_eq_ok.mpr ⟨hmode,hfixed⟩

theorem rendered_plain (h : Fixed mode spec v) (hwf : WellFormed specs spec)
    (hlist : spec.isList = false) (hfree : spec.kind = .str → Free v.str) :
    ∃ w, renderedValues spec v = [w] ∧ strip w = w ∧ Free w ∧
      coerceEngineValue mode spec w = .ok v := by
  have hcoerced := h.coerced
  have hstripped := h.stripped
  rw [coerceEngineValue_eq_ok] at hcoerced
  obtain ⟨hmode,haccepts⟩ := hcoerced
  generalize hs : v.str = s at haccepts
  cases haccepts with
  | @bool b hkind hb =>
    refine ⟨if b then "true".toList else "false".toList,?_,?_,?_,?_⟩
    · rw [renderedValues,if_neg (by simp [hlist]),hkind]
      rfl
    · cases b <;> decide
    · cases b <;> exact forall_mem (by decide)
    · exact coerceEngineValue_eq_ok.mpr ⟨hmode,.bool hkind (parseBool_rendered b)⟩
  | enum hkind hin =>
    refine ⟨s,?_,(hwf.values _ hkind s hin).1,(hwf.values _ hkind s hin).2,
      coerceEngineValue_eq_ok.mpr ⟨hmode,.enum hkind hin⟩⟩
    simp [renderedValues,hlist,hkind,Coerced.str]
  | text hkind hne hl =>
    refine ⟨s,?_,?_,hfree hkind,coerceEngineValue_eq_ok.mpr ⟨hmode,.text hkind hne hl⟩⟩
    · simp [renderedValues,hlist,hkind,Coerced.str]
    · exact hstripped
  | pages hkind hne hl hvalid =>
    rw [hlist] at hl
    exact absurd hl.1 (by decide)

theorem rendered_list (h : Fixed mode spec v) (hwf : WellFormed specs spec)
    (hlist : spec.isList = true) :
    renderedValues spec v = Text.split ',' v.str ∧
      Separated.join [','] (Text.split ',' v.str) = v.str ∧
      ∀ w ∈ Text.split ',' v.str, strip w = w ∧ Free w := by
  refine ⟨by simp [renderedValues,hlist],?_⟩
  have hcoerced := h.coerced
  rw [coerceEngineValue_eq_ok] at hcoerced
  obtain ⟨-,haccepts⟩ := hcoerced
  obtain ⟨hpage,hstr⟩ := hwf.list hlist
  generalize hs : v.str = s at haccepts
  cases haccepts with
  | bool hkind hb => exact absurd (hstr.symm.trans hkind) (by simp)
  | enum hkind hin => exact absurd (hstr.symm.trans hkind) (by simp)
  | text hkind hne hl => exact absurd ⟨hlist,hpage⟩ hl
  | pages hkind hne hl hvalid =>
    have hchars := segments_of_valid hvalid
    have hparts : (Text.split ',' s).map strip ≠ [] := by
      simp [Text.split_ne_nil]
    have hsplit : Text.split ',' s = (Text.split ',' s).map strip := by
      have hjoined := split_segments hparts hchars
      rwa [show Separated.join [','] ((Text.split ',' s).map strip) = s from hs] at hjoined
    rw [hsplit]
    refine ⟨hs,?_⟩
    intro w hw
    constructor
    · exact strip_unblank fun c hc => (pageChar_plain ((hchars w hw).2 c hc)).2
    · intro c hc hforbidden
      apply (pageChar_plain ((hchars w hw).2 c hc)).1
      simp only [valueForbidden,mem_cons] at hforbidden ⊢
      tauto

end LightRAG.EngineParams
