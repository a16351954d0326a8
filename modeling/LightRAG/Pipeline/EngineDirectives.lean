import LightRAG.Pipeline.EngineParamRoundTrip

/-!
# Encoding and decoding a directive

A directive that can be encoded decodes to what was encoded, unless its language is a text that the
grammar of the parameters cannot hold; and what a text decodes to can be encoded again.
-/

namespace LightRAG.EngineParams
open List Option

open FilenameHints (Str strip takeParenBlock)
open Text (forall_mem isSpace)

variable {mode : Mode} {py : Python} {engine : Str} {spec : EngineParamSpec}
  {specs : List EngineParamSpec} {params : List (Str × Value)}

theorem mem_strip {c : Char} {s : Str} (h : c ∈ strip s) : c ∈ s :=
  (Trim.trim_sublist s).subset h

theorem normalizeParserEngine_plain (py : Python) (x : Str) :
    '(' ∉ normalizeParserEngine py x ∧ '-' ∉ normalizeParserEngine py x ∧
      strip (normalizeParserEngine py x) = normalizeParserEngine py x := by
  apply py.lower_plain
  · intro hc
    have hin := takeWhile_subset _ (mem_strip hc)
    exact not_mem_takeWhile '(' _ hin
  · intro hc
    exact not_mem_takeWhile '-' _ (mem_strip hc)
  · exact strip_strip _

theorem normalizeParserEngine_of_plain {x : Str} (hparen : '(' ∉ x) (hdash : '-' ∉ x)
    (hstrip : strip x = x) : normalizeParserEngine py x = py.lower x := by
  rw [normalizeParserEngine, hstrip, takeWhile_none hparen, takeWhile_none hdash, hstrip]

theorem normalizeParserEngine_idem (x : Str) :
    normalizeParserEngine py (normalizeParserEngine py x) = normalizeParserEngine py x := by
  obtain ⟨hparen,hdash,hstrip⟩ := normalizeParserEngine_plain py x
  rw [normalizeParserEngine_of_plain hparen hdash hstrip,normalizeParserEngine,py.lower_lower]

theorem normalizeParserEngine_nil : normalizeParserEngine py [] = [] :=
  py.lower_ascii [] fun _ hc => nomatch hc

theorem engine_of_specs (h : engineParamSpecs engine = some specs) :
    engine ∈ ["mineru".toList, "docling".toList, "native".toList] := by
  unfold engineParamSpecs at h
  split at h
  · simp [*]
  · split at h
    · simp [*]
    · split at h
      · simp [*]
      · cases h

theorem normalizeParserEngine_registered (h : engineParamSpecs engine = some specs) :
    normalizeParserEngine py engine = engine := by
  have hin := engine_of_specs h
  have hplain : ∀ e ∈ ["mineru".toList, "docling".toList, "native".toList],
      ('(' ∉ e ∧ '-' ∉ e ∧ strip e = e) ∧ (e.all fun c => c.toNat < 128) = true ∧
        e.map Char.toLower = e := by
    decide
  obtain ⟨⟨hparen,hdash,hstrip⟩,hascii,hlower⟩ := hplain engine hin
  rw [normalizeParserEngine_of_plain hparen hdash hstrip,py.lower_ascii engine (forall_mem hascii),
    hlower]

def Accepted (mode : Mode) (engine : Str) (p : Str × Value) : Prop :=
  ∃ specs spec c, engineParamSpecs engine = some specs ∧ specByName specs p.1 = some spec ∧
    coerceEngineValue mode spec (resolvedText spec p.2) = .ok c

def errorOf {ε α : Type} : Except ε α → Option ε
  | .error e => some e
  | .ok _ => none

theorem normalizeLoop_eq (acc : Params × List ParamError) :
    normalizeLoop mode engine specs acc params =
      (acc.1.update (params.filterMap fun p => (normalizeParam mode engine specs p.1 p.2).toOption),
        acc.2 ++ params.filterMap fun p => errorOf (normalizeParam mode engine specs p.1 p.2)) := by
  induction params generalizing acc with
  | nil => simp [normalizeLoop,Dict.update_nil]
  | cons p ps ih =>
    rw [normalizeLoop]
    cases hp : normalizeParam mode engine specs p.1 p.2 with
    | error e => simp [ih,hp,Except.toOption,errorOf]
    | ok r => simp [ih,hp,Except.toOption,errorOf,Dict.update_cons]

theorem normalizeParam_eq_ok {key : Str} {v : Value} {r : Str × Coerced} :
    normalizeParam mode engine specs key v = .ok r ↔ ∃ spec, specByName specs key = some spec ∧
      coerceEngineValue mode spec (resolvedText spec v) = .ok r.2 ∧ r.1 = spec.canonical := by
  unfold normalizeParam
  cases specByName specs key with
  | none => simp
  | some spec =>
    cases hc : coerceEngineValue mode spec (resolvedText spec v) with
    | error e => simp [Except.map,hc]
    | ok c =>
      simp only [Except.map,Except.ok.injEq,some.injEq,exists_eq_left',hc]
      constructor
      · rintro rfl
        exact ⟨rfl,rfl⟩
      · rintro ⟨rfl,hr⟩
        rw [← hr]

def checked (mode : Mode) (engine : Str) (specs : List EngineParamSpec)
    (params : List (Str × Value)) : List (Str × Coerced) :=
  params.filterMap fun p => (normalizeParam mode engine specs p.1 p.2).toOption

theorem normalizeEngineParams_eq (hspecs : engineParamSpecs engine = some specs)
    (hne : params ≠ []) : normalizeEngineParams mode engine params =
      (Dict.empty.update (checked mode engine specs params),
        params.filterMap fun p => errorOf (normalizeParam mode engine specs p.1 p.2)) := by
  rw [normalizeEngineParams,if_neg hne,hspecs]
  dsimp only
  rw [normalizeLoop_eq]
  rfl

theorem normalize_errors_nil : (normalizeEngineParams mode engine params).2 = [] ↔
    ∀ p ∈ params, Accepted mode engine p := by
  cases params with
  | nil => simp [normalizeEngineParams]
  | cons q qs =>
    cases hspecs : engineParamSpecs engine with
    | none =>
      rw [normalizeEngineParams,if_neg (by simp),hspecs]
      simp only [cons_ne_self,false_iff]
      intro hall
      obtain ⟨specs,spec,c,hsome,-⟩ := hall q mem_cons_self
      rw [hspecs] at hsome
      cases hsome
    | some specs =>
      rw [normalizeEngineParams_eq hspecs (by simp),filterMap_eq_nil_iff]
      constructor
      · intro h p hp
        cases hresult : normalizeParam mode engine specs p.1 p.2 with
        | error e =>
          have hnone := h p hp
          rw [hresult] at hnone
          cases hnone
        | ok r =>
          obtain ⟨spec,hfound,hcoerced,-⟩ := normalizeParam_eq_ok.mp hresult
          exact ⟨specs,spec,r.2,hspecs,hfound,hcoerced⟩
      · intro h p hp
        obtain ⟨specs',spec,c,hsome,hfound,hcoerced⟩ := h p hp
        obtain rfl := some.inj (hspecs.symm.trans hsome)
        have hok : normalizeParam mode engine specs p.1 p.2 = .ok (spec.canonical, c) :=
          normalizeParam_eq_ok.mpr ⟨spec,hfound,hcoerced,rfl⟩
        rw [hok]
        rfl

theorem strip_resolvedText (v : Value) :
    spec.isList = true ∨ strip (resolvedText spec v) = resolvedText spec v := by
  cases hlist : spec.isList with
  | true => exact .inl rfl
  | false =>
    right
    rw [resolvedText,hlist]
    exact strip_strip v.text

theorem fixed_of_checked (hspecs : engineParamSpecs engine = some specs) {e : Str × Coerced}
    (he : e ∈ checked mode engine specs params) :
    ∃ p ∈ params, ∃ spec, specByName specs p.1 = some spec ∧ spec.canonical = e.1 ∧
      WellFormed specs spec ∧ Fixed mode spec e.2 ∧
      coerceEngineValue mode spec (resolvedText spec p.2) = .ok e.2 := by
  obtain ⟨p,hp,hresult⟩ := mem_filterMap.mp he
  cases hok : normalizeParam mode engine specs p.1 p.2 with
  | error err =>
    rw [hok] at hresult
    cases hresult
  | ok r =>
    rw [hok] at hresult
    obtain rfl := some.inj hresult
    obtain ⟨spec,hfound,hcoerced,hkey⟩ := normalizeParam_eq_ok.mp hok
    have hwf := wellFormed hspecs (mem_of_specByName hfound)
    exact ⟨p,hp,spec,hfound,hkey.symm,hwf,
      fixed_of_coerced hcoerced (strip_resolvedText p.2) hwf.list,hcoerced⟩

def languageText (params : List (Str × Value)) : Option Str :=
  ((params.filter fun p => p.1 = language.canonical).getLast?).map fun p => strip p.2.text

section

variable (h : engineParamSpecs engine = some specs)

include h

theorem mem_registry (hspec : spec ∈ specs) :
    spec ∈ [pageRange, language, localParseMethod, forceOcr, smartHeading] := by
  unfold engineParamSpecs at h
  split at h
  · obtain rfl := some.inj h
    simp only [mem_cons] at hspec ⊢
    tauto
  · split at h
    · obtain rfl := some.inj h
      obtain rfl := mem_singleton.mp hspec
      decide
    · split at h
      · obtain rfl := some.inj h
        obtain rfl := mem_singleton.mp hspec
        decide
      · cases h

theorem eq_language (hspec : spec ∈ specs)
    (hkind : spec.kind = .str) (hlist : spec.isList = false) : spec = language := by
  have hall : ∀ s ∈ [pageRange, language, localParseMethod, forceOcr, smartHeading],
      s.kind = .str → s.isList = false → s = language := by decide
  exact hall spec (mem_registry h hspec) hkind hlist

theorem eq_language_of_canonical (hspec : spec ∈ specs)
    (hkey : spec.canonical = language.canonical) : spec = language := by
  have hall : ∀ s ∈ [pageRange, language, localParseMethod, forceOcr, smartHeading],
      s.canonical = language.canonical → s = language := by decide
  exact hall spec (mem_registry h hspec) hkey

theorem found_language_iff {key : Str}
    (hfound : specByName specs key = some spec) : spec = language ↔ key = language.canonical := by
  have hname : key = spec.canonical ∨ key ∈ spec.aliases := by
    have hfind := List.find?_some hfound
    exact of_decide_eq_true hfind
  constructor
  · intro hspec
    have haliases : spec.aliases = [] := by
      rw [hspec]
      rfl
    rw [haliases] at hname
    rw [← hspec]
    exact hname.resolve_right not_mem_nil
  · intro hkey
    rw [hkey] at hname
    have hall : ∀ s ∈ [pageRange, language, localParseMethod, forceOcr, smartHeading],
        (language.canonical = s.canonical ∨ language.canonical ∈ s.aliases) → s = language := by
      decide
    exact hall spec (mem_registry h (mem_of_specByName hfound)) hname

end

theorem accepted_text {t : Str} {c : Coerced} (hkind : spec.kind = .str)
    (hlist : spec.isList = false) (h : coerceEngineValue mode spec t = .ok c) : c = .text t := by
  rw [coerceEngineValue_eq_ok] at h
  cases h.2 with
  | bool hbool hb => exact absurd (hkind.symm.trans hbool) (by simp)
  | enum henum hin => exact absurd (hkind.symm.trans henum) (by simp)
  | text _ hne hl => rfl
  | pages _ hne hl hvalid =>
    rw [hlist] at hl
    exact absurd hl.1 (by decide)

theorem accepted_language {t : Str} {c : Coerced}
    (h : coerceEngineValue mode language t = .ok c) : c = .text t := accepted_text rfl rfl h

theorem checked_language (hspecs : engineParamSpecs engine = some specs)
    (hall : ∀ p ∈ params, Accepted mode engine p) :
    (checked mode engine specs params).filter (fun e => e.1 = language.canonical) =
      (params.filter fun p => p.1 = language.canonical).map fun p =>
        (language.canonical, .text (strip p.2.text)) := by
  induction params with
  | nil => rfl
  | cons p ps ih =>
    obtain ⟨specs',spec,c,hsome,hfound,hcoerced⟩ := hall p mem_cons_self
    obtain rfl := some.inj (hspecs.symm.trans hsome)
    have hok : normalizeParam mode engine specs p.1 p.2 = .ok (spec.canonical, c) :=
      normalizeParam_eq_ok.mpr ⟨spec,hfound,hcoerced,rfl⟩
    have hchecked : checked mode engine specs (p :: ps) =
        (spec.canonical, c) :: checked mode engine specs ps := by
      rw [checked,filterMap_cons,hok]
      rfl
    have hrest := ih fun q hq => hall q (mem_cons_of_mem _ hq)
    rw [hchecked]
    by_cases hkey : p.1 = language.canonical
    · obtain rfl := (found_language_iff hspecs hfound).mpr hkey
      rw [filter_cons_of_pos (by simp),filter_cons_of_pos (by simpa using hkey),hrest,
        accepted_language hcoerced]
      rfl
    · have hnot : spec.canonical ≠ language.canonical := by
        intro hcanonical
        have hspec := eq_language_of_canonical hspecs (mem_of_specByName hfound) hcanonical
        exact hkey ((found_language_iff hspecs hfound).mp hspec)
      rw [filter_cons_of_neg (by simpa using hnot),filter_cons_of_neg (by simpa using hkey),hrest]

theorem get_language (hspecs : engineParamSpecs engine = some specs) (hne : params ≠ [])
    (hall : ∀ p ∈ params, Accepted mode engine p) :
    (normalizeEngineParams mode engine params).1.get language.canonical =
      (languageText params).map Coerced.text := by
  rw [normalizeEngineParams_eq hspecs hne,Dict.get_update_eq,checked_language hspecs hall,
    List.getLast?_map,languageText]
  cases (params.filter fun p => p.1 = language.canonical).getLast? <;> rfl

def Written (mode : Mode) (specs : List EngineParamSpec) (e : Str × Coerced) : Prop :=
  ∃ spec ∈ specs, spec.canonical = e.1 ∧ Fixed mode spec e.2 ∧
    (spec.kind = .str → spec.isList = false → Free e.2.str)

structure Sound (mode : Mode) (specs : List EngineParamSpec) (st : ParseState) : Prop where
  result : ∀ k v, st.result.get k = some v → Written mode specs (k, v)
  lists : ∀ k ∈ st.listValues.keys, ∃ spec ∈ specs, spec.canonical = k ∧ spec.isList = true

variable {st : ParseState}

theorem Sound.init : Sound mode specs .init := by
  constructor
  · intro k v hget
    cases hget
  · intro k hk
    cases hk

theorem Sound.fail (h : Sound mode specs st) (e : ParamError) : Sound mode specs (st.fail e) :=
  ⟨h.result,h.lists⟩

theorem Sound.put (h : Sound mode specs st) {key : Str} {c : Except ParamError Coerced}
    (hc : ∀ v, c = .ok v → Written mode specs (key, v)) : Sound mode specs (st.put key c) := by
  cases c with
  | error e => exact h.fail e
  | ok v =>
    refine ⟨?_,h.lists⟩
    intro k u hget
    rw [ParseState.put,Dict.get_set] at hget
    split at hget
    · rename_i hk
      rw [hk,← some.inj hget]
      exact hc v rfl
    · exact h.result k u hget

section

variable (hspecs : engineParamSpecs engine = some specs)

include hspecs

theorem Sound.take (hspec : spec ∈ specs)
    (h : Sound mode specs st) {value : Str} (hvalue : strip value = value) :
    Sound mode specs (st.take mode spec value) := by
  unfold ParseState.take
  split
  · exact h.fail _
  · rename_i hforbidden
    split
    · rename_i hlist
      refine ⟨h.result,?_⟩
      intro k hk
      rw [Dict.keys_set] at hk
      split at hk
      · exact h.lists k hk
      · rcases mem_append.mp hk with hk | hk
        · exact h.lists k hk
        · obtain rfl := mem_singleton.mp hk
          exact ⟨spec,hspec,rfl,hlist⟩
    · split
      · exact h.fail _
      · have hseen : Sound mode specs { st with seen := st.seen ++ [spec.canonical] } :=
          ⟨h.result,h.lists⟩
        apply hseen.put
        intro v hv
        refine ⟨spec,hspec,rfl,fixed_of_coerced hv (.inr hvalue) (wellFormed hspecs hspec).list,?_⟩
        intro hkind hplain
        obtain rfl := eq_language hspecs hspec hkind hplain
        rw [accepted_language hv]
        simpa [Free,Coerced.str] using hforbidden

theorem Sound.parseSegment
    (h : Sound mode specs st) (raw : Str) :
    Sound mode specs (parseSegment mode engine specs st raw) := by
  unfold EngineParams.parseSegment
  dsimp only
  split
  · exact h.fail _
  · split
    · split
      · exact h.fail _
      · rename_i spec hfound
        exact h.take hspecs (mem_of_specByName hfound) (strip_strip _)
    · split
      · split
        · exact h.fail _
        · exact h.fail _
      · rename_i spec hfound
        split
        · exact h.fail _
        · exact h.take hspecs (mem_of_specByName hfound) (by decide)

theorem Sound.joinListValues
    (h : Sound mode specs st) {e : Str × List Str} (he : ∃ spec ∈ specs, spec.canonical = e.1 ∧
      spec.isList = true) : Sound mode specs (joinListValues mode specs st e) := by
  obtain ⟨spec,hspec,hkey,hlist⟩ := he
  have hwf := wellFormed hspecs hspec
  rw [EngineParams.joinListValues,← hkey,hwf.found]
  apply h.put
  intro v hv
  refine ⟨spec,hspec,rfl,fixed_of_coerced hv (.inl hlist) hwf.list,?_⟩
  intro _ hplain
  rw [hlist] at hplain
  cases hplain

theorem parse_written (text : Str) {k : Str}
    {v : Coerced} (h : (parseEngineParams mode text engine).1.get k = some v) :
    Written mode specs (k, v) := by
  have hsegments : ∀ (raws : List Str) (st : ParseState), Sound mode specs st →
      Sound mode specs (raws.foldl (EngineParams.parseSegment mode engine specs) st) := by
    intro raws
    induction raws with
    | nil => exact fun st hst => hst
    | cons raw raws ih => exact fun st hst => ih _ (hst.parseSegment hspecs raw)
  have hjoins : ∀ (es : List (Str × List Str)) (st : ParseState),
      (∀ e ∈ es, ∃ spec ∈ specs, spec.canonical = e.1 ∧ spec.isList = true) →
      Sound mode specs st → Sound mode specs (es.foldl (EngineParams.joinListValues mode specs) st) := by
    intro es
    induction es with
    | nil => exact fun st _ hst => hst
    | cons e es ih =>
      intro st hes hst
      exact ih _ (fun e' he' => hes e' (mem_cons_of_mem _ he'))
        (hst.joinListValues hspecs (hes e mem_cons_self))
  unfold parseEngineParams at h
  rw [hspecs] at h
  have hread := hsegments (splitTopLevel [','] 0 text) .init .init
  refine (hjoins _ _ ?_ hread).result k v h
  intro e he
  exact hread.lists e.1 (mem_map.mpr ⟨e,he,rfl⟩)

end

end LightRAG.EngineParams
