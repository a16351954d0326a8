import LightRAG.Framework.Letters
import LightRAG.Pipeline.EngineDirectives

/-!
# The round trip of a stored directive
-/

namespace LightRAG.EngineParams
open List

open FilenameHints (Str strip takeParenBlock)
open Text (forall_mem isSpace)

variable {mode : Mode} {engine text : Str} {specs : List EngineParamSpec} {p q : Params}
  {params : List (Str × Value)}

structure Decodes (mode : Mode) (text engine : Str) (params : Params) : Prop where
  engine : (decodeParseEngine mode text).engine = engine
  params : ∀ k, (decodeParseEngine mode text).params.get k = params.get k
  errors : (decodeParseEngine mode text).errors = []

theorem Decodes.congr (h : Decodes mode text engine p) (hsame : ∀ k, p.get k = q.get k) :
    Decodes mode text engine q :=
  ⟨h.engine,fun k => (h.params k).trans (hsame k),h.errors⟩

theorem decodes_bare (h : normalizeParserEngine mode.toPython engine = engine) :
    Decodes mode engine engine Dict.empty := by
  obtain ⟨hparen,-,hstrip⟩ := normalizeParserEngine_plain mode.toPython engine
  rw [h] at hparen hstrip
  have hdecode : decodeParseEngine mode engine = ⟨engine,Dict.empty,[]⟩ := by
    unfold decodeParseEngine
    rw [hstrip]
    dsimp only
    split
    · rename_i hnil
      rw [hnil]
    · rw [h]
  constructor <;> simp [hdecode]

theorem decodes_block (hspecs : engineParamSpecs engine = some specs)
    (hparams : ∀ e ∈ p.entries, ∃ spec, Renderable mode specs spec e) (hne : p.entries ≠ []) :
    Decodes mode (engine ++ '(' :: (block specs p ++ [')'])) engine p := by
  obtain ⟨hparen,-,hstrip⟩ := normalizeParserEngine_plain mode.toPython engine
  rw [normalizeParserEngine_registered hspecs] at hparen hstrip
  have hraw : strip (engine ++ '(' :: (block specs p ++ [')'])) =
      engine ++ '(' :: (block specs p ++ [')']) := by
    rw [strip,Trim.trim_append_cons (by decide),dropWhile_of_strip hstrip,
      Trim.rtrim_append_cons (by decide)]
    rfl
  have hblock : takeParenBlock 0 (block specs p ++ [')']) = some (block specs p, []) :=
    takeParenBlock_flat (block_flat hparams)
  obtain ⟨hget,herrors⟩ := parse_block hspecs hparams hne
  have hdecode : decodeParseEngine mode (engine ++ '(' :: (block specs p ++ [')'])) =
      ⟨engine,(parseEngineParams mode (block specs p) engine).1,
        (parseEngineParams mode (block specs p) engine).2⟩ := by
    unfold decodeParseEngine
    rw [hraw]
    rw [if_neg (by simp),if_neg (by simp),takeWhile_append_cons hparen,
      dropWhile_append_cons hparen,drop_one,tail_cons,hblock,
      normalizeParserEngine_registered hspecs]
    rfl
  exact ⟨by rw [hdecode],fun k => by rw [hdecode]; exact hget k,by rw [hdecode]; exact herrors⟩

theorem normalized_ne_nil (hspecs : engineParamSpecs engine = some specs) (hne : params ≠ [])
    (hall : ∀ p ∈ params, Accepted mode engine p) :
    (normalizeEngineParams mode engine params).1.entries ≠ [] := by
  rw [normalizeEngineParams_eq hspecs hne]
  obtain ⟨p,ps,rfl⟩ := exists_cons_of_ne_nil hne
  obtain ⟨specs',spec,c,hsome,hfound,hcoerced⟩ := hall p mem_cons_self
  obtain rfl := Option.some.inj (hspecs.symm.trans hsome)
  have hok : normalizeParam mode engine specs p.1 p.2 = .ok (spec.canonical, c) :=
    normalizeParam_eq_ok.mpr ⟨spec,hfound,hcoerced,rfl⟩
  have hin : (spec.canonical, c) ∈ checked mode engine specs (p :: ps) := by
    apply mem_filterMap.mpr
    exact ⟨p,mem_cons_self,by rw [hok]; rfl⟩
  have hkey : spec.canonical ∈
      ((Dict.empty : Params).update (checked mode engine specs (p :: ps))).keys :=
    Dict.mem_keys_update.mpr (.inr (mem_map.mpr ⟨_,hin,rfl⟩))
  intro hnil
  rw [Dict.keys,hnil] at hkey
  cases hkey

theorem part_ne_nil {e : Str × Coerced} {part : Str} (h : part ∈ renderParam specs e) :
    part ≠ [] := by
  unfold renderParam at h
  split at h
  · cases h
  · obtain ⟨w,-,rfl⟩ := mem_map.mp h
    simp

theorem entry_of_checked (hspecs : engineParamSpecs engine = some specs) (hne : params ≠ [])
    {e : Str × Coerced} (he : e ∈ (normalizeEngineParams mode engine params).1.entries) :
    e ∈ checked mode engine specs params := by
  rw [normalizeEngineParams_eq hspecs hne] at he
  have hkey : e.1 ∈ (checked mode engine specs params).map Prod.fst := by
    have hin := Dict.mem_keys_update.mp (mem_map.mpr ⟨e,he,rfl⟩)
    exact hin.resolve_left not_mem_nil
  obtain ⟨v,hv,hget⟩ := Dict.get_update_mem (d := (Dict.empty : Params)) hkey
  have hsame := (Dict.get_eq_some.mpr he).symm.trans hget
  rwa [← Option.some.inj hsame] at hv

theorem encode_accepted (hspecs : engineParamSpecs engine = some specs) (hne : params ≠ [])
    (hall : ∀ p ∈ params, Accepted mode engine p) :
    encodeParseEngine mode engine params = .ok (engine ++ '(' ::
      (block specs (normalizeEngineParams mode engine params).1 ++ [')'])) := by
  have herrors := normalize_errors_nil.mpr hall
  have hparts : (sortedParams (normalizeEngineParams mode engine params).1).flatMap
      (renderParam specs) ≠ [] := by
    obtain ⟨e,he⟩ := exists_mem_of_ne_nil _ (normalized_ne_nil hspecs hne hall)
    obtain ⟨p,hp,spec,hfound,hkey,hwf,-⟩ :=
      fixed_of_checked hspecs (entry_of_checked hspecs hne he)
    have hrendered := renderParam_ne_nil (e := e) (hkey ▸ hwf.found)
    obtain ⟨part,hpart⟩ := exists_mem_of_ne_nil _ hrendered
    exact ne_nil_of_mem
      (mem_flatMap.mpr ⟨e,perm_sortedParams.mem_iff.mpr he,hpart⟩)
  have hblock : block specs (normalizeEngineParams mode engine params).1 ≠ [] := by
    apply join_ne_nil hparts
    intro part hpart
    obtain ⟨e,-,hin⟩ := mem_flatMap.mp hpart
    exact part_ne_nil hin
  have hrender : renderEngineParams mode engine params =
      .ok (block specs (normalizeEngineParams mode engine params).1) := by
    unfold renderEngineParams
    rw [hspecs]
    generalize normalizeEngineParams mode engine params = made at herrors
    obtain ⟨made,errors⟩ := made
    obtain rfl : errors = [] := herrors
    rfl
  rw [encodeParseEngine,if_neg hne,hrender]
  dsimp only
  rw [if_neg hblock]

/-- What `decode_parse_engine` gives back of a stored directive. -/
def RoundTrips (mode : Mode) (engine : Str) (params : List (Str × Value)) : Prop :=
  ∀ text, encodeParseEngine mode engine params = .ok text →
    Decodes mode text engine (normalizeEngineParams mode engine params).1

theorem renderable_of_free (hspecs : engineParamSpecs engine = some specs) (hne : params ≠ [])
    (hall : ∀ p ∈ params, Accepted mode engine p)
    (hfree : ∀ t, languageText params = some t → Free t) :
    ∀ e ∈ (normalizeEngineParams mode engine params).1.entries,
      ∃ spec, Renderable mode specs spec e := by
  intro e he
  obtain ⟨p,hp,spec,hfound,hkey,hwf,hfixed,hcoerced⟩ :=
    fixed_of_checked hspecs (entry_of_checked hspecs hne he)
  refine ⟨spec,hwf,hkey,hfixed,?_⟩
  intro hkind hlist
  have hlanguage := eq_language hspecs (mem_of_specByName hfound) hkind hlist
  have hget := Dict.get_eq_some.mpr he
  rw [← hkey,hlanguage,get_language hspecs hne hall] at hget
  obtain ⟨t,ht,hvalue⟩ := Option.map_eq_some_iff.mp hget
  rw [← hvalue]
  exact hfree t ht

theorem decode_cases (mode : Mode) (text : Str) :
    (∃ x, (decodeParseEngine mode text).engine = normalizeParserEngine mode.toPython x) ∧
      ((decodeParseEngine mode text).params = Dict.empty ∨
        ∃ block, (decodeParseEngine mode text).params =
          (parseEngineParams mode block (decodeParseEngine mode text).engine).1) := by
  unfold decodeParseEngine
  dsimp only
  split
  · exact ⟨⟨[],normalizeParserEngine_nil.symm⟩,.inl rfl⟩
  · split
    · exact ⟨⟨_,rfl⟩,.inl rfl⟩
    · split
      · exact ⟨⟨_,rfl⟩,.inl rfl⟩
      · rename_i block after hblock
        split
        · exact ⟨⟨_,rfl⟩,.inl rfl⟩
        · exact ⟨⟨_,rfl⟩,.inr ⟨block,rfl⟩⟩

theorem decode_engine (mode : Mode) (text : Str) :
    normalizeParserEngine mode.toPython (decodeParseEngine mode text).engine =
      (decodeParseEngine mode text).engine := by
  obtain ⟨x,hx⟩ := (decode_cases mode text).1
  rw [hx,normalizeParserEngine_idem]

theorem decode_written {k : Str} {v : Coerced}
    (h : (decodeParseEngine mode text).params.get k = some v) :
    ∃ specs, engineParamSpecs (decodeParseEngine mode text).engine = some specs ∧
      Written mode specs (k, v) := by
  rcases (decode_cases mode text).2 with hempty | ⟨block,hblock⟩
  · rw [hempty] at h
    cases h
  · rw [hblock] at h
    cases hspecs : engineParamSpecs (decodeParseEngine mode text).engine with
    | none =>
      rw [parseEngineParams,hspecs] at h
      cases h
    | some specs => exact ⟨specs,rfl,parse_written hspecs block h⟩

theorem encode_refused (hne : params ≠ []) (h : ¬ ∀ p ∈ params, Accepted mode engine p) :
    ∃ errors, encodeParseEngine mode engine params = .error errors := by
  have herrors : (normalizeEngineParams mode engine params).2 ≠ [] :=
    fun hnil => h (normalize_errors_nil.mp hnil)
  unfold encodeParseEngine
  rw [if_neg hne]
  unfold renderEngineParams
  generalize normalizeEngineParams mode engine params = made at herrors
  obtain ⟨made,errors⟩ := made
  cases errors with
  | nil => exact absurd rfl herrors
  | cons e errors => exact ⟨e :: errors,rfl⟩

/-- The directive round-trips if and only if a parameter is refused, or the engine's name is in
normal form and the language has no character of the grammar. -/
theorem roundTrips_iff (mode : Mode) (engine : Str) (params : List (Str × Value)) :
    RoundTrips mode engine params ↔ (∃ p ∈ params, ¬ Accepted mode engine p) ∨
      (normalizeParserEngine mode.toPython engine = engine ∧
        ∀ t, languageText params = some t → Free t) := by
  by_cases hall : ∀ p ∈ params, Accepted mode engine p
  · have hnone : ¬ ∃ p ∈ params, ¬ Accepted mode engine p :=
      fun ⟨p,hp,hrefused⟩ => hrefused (hall p hp)
    rw [or_iff_right hnone]
    cases params with
    | nil =>
      constructor
      · intro h
        have hdecodes := h engine rfl
        have hnormal := decode_engine mode engine
        rw [hdecodes.engine] at hnormal
        exact ⟨hnormal,fun _ ht => nomatch ht⟩
      · intro h text htext
        obtain rfl := Except.ok.inj htext
        exact decodes_bare h.1
    | cons p ps =>
      obtain ⟨specs,-,-,hspecs,-⟩ := hall p mem_cons_self
      have hne : p :: ps ≠ [] := cons_ne_nil p ps
      have hencode := encode_accepted hspecs hne hall
      constructor
      · intro h
        have hdecodes := h _ hencode
        refine ⟨normalizeParserEngine_registered hspecs,fun t ht => ?_⟩
        have hget := get_language hspecs hne hall
        rw [ht,← hdecodes.params] at hget
        obtain ⟨specs',hspecs',spec,hspec,hkey,-,hfree⟩ := decode_written hget
        have hlanguage := eq_language_of_canonical hspecs' hspec hkey
        rw [hlanguage] at hfree
        exact hfree rfl rfl
      · intro h text htext
        obtain rfl := Except.ok.inj (hencode.symm.trans htext)
        exact decodes_block hspecs (renderable_of_free hspecs hne hall h.2)
          (normalized_ne_nil hspecs hne hall)
  · have hsome : ∃ p ∈ params, ¬ Accepted mode engine p := by
      simpa using hall
    refine iff_of_true ?_ (.inl hsome)
    intro text htext
    have hne : params ≠ [] := by
      rintro rfl
      exact hall fun _ hp => nomatch hp
    obtain ⟨errors,herror⟩ := encode_refused hne hall
    rw [herror] at htext
    cases htext

def valuesOf (p : Params) : List (Str × Value) := p.entries.map fun e => (e.1, e.2.value)

theorem resolvedText_value {v : Coerced} {spec : EngineParamSpec} (h : Fixed mode spec v) :
    resolvedText spec v.value = v.str := by
  have hstrip := h.stripped
  unfold resolvedText Coerced.value
  cases spec.isList <;> exact hstrip

theorem renderable_of_written (hspecs : engineParamSpecs engine = some specs)
    {e : Str × Coerced} (h : Written mode specs e) : ∃ spec, Renderable mode specs spec e := by
  obtain ⟨spec,hspec,hkey,hfixed,hfree⟩ := h
  exact ⟨spec,wellFormed hspecs hspec,hkey,hfixed,hfree⟩

theorem checked_values (es : List (Str × Coerced))
    (hes : ∀ e ∈ es, ∃ spec, Renderable mode specs spec e) :
    checked mode engine specs (es.map fun e => (e.1, e.2.value)) = es := by
  induction es with
  | nil => rfl
  | cons e es ih =>
    obtain ⟨spec,hspec⟩ := hes e mem_cons_self
    have hok : normalizeParam mode engine specs e.1 e.2.value = .ok e := by
      apply normalizeParam_eq_ok.mpr
      refine ⟨spec,hspec.found,?_,hspec.key.symm⟩
      rw [resolvedText_value hspec.fixed]
      exact hspec.fixed.coerced
    have hrest := ih fun e' he' => hes e' (mem_cons_of_mem _ he')
    rw [checked] at hrest ⊢
    rw [map_cons,filterMap_cons,hok,hrest]
    rfl

theorem normalize_values (hspecs : engineParamSpecs engine = some specs) (hne : p.entries ≠ [])
    (hes : ∀ e ∈ p.entries, ∃ spec, Renderable mode specs spec e) (k : Str) :
    (normalizeEngineParams mode engine (valuesOf p)).1.get k = p.get k := by
  have hvalues : valuesOf p ≠ [] := by
    simpa [valuesOf] using hne
  rw [normalizeEngineParams_eq hspecs hvalues,valuesOf,checked_values p.entries hes]
  cases hget : p.get k with
  | none =>
    rw [Dict.get_update_of_not_mem (Dict.get_eq_none.mp hget)]
    rfl
  | some v => exact Dict.get_update_of_mem p.nodup (Dict.get_eq_some.mp hget)

theorem reencodes (mode : Mode) (text : Str) :
    ∃ again, encodeParseEngine mode (decodeParseEngine mode text).engine
        (valuesOf (decodeParseEngine mode text).params) = .ok again ∧
      Decodes mode again (decodeParseEngine mode text).engine
        (decodeParseEngine mode text).params := by
  have hengine := decode_engine mode text
  have hwritten : ∀ k v, (decodeParseEngine mode text).params.get k = some v →
      ∃ specs, engineParamSpecs (decodeParseEngine mode text).engine = some specs ∧
        Written mode specs (k, v) := fun k v h => decode_written h
  generalize (decodeParseEngine mode text).engine = engine at *
  generalize (decodeParseEngine mode text).params = p at *
  by_cases hne : p.entries = []
  · refine ⟨engine,?_,(decodes_bare hengine).congr fun k => ?_⟩
    · rw [encodeParseEngine,if_pos (by rw [valuesOf,hne]; rfl)]
    · have hnone : p.get k = none := by
        rw [Dict.get_eq_none,Dict.keys,hne]
        exact not_mem_nil
      rw [hnone]
      rfl
  · obtain ⟨e,he⟩ := exists_mem_of_ne_nil _ hne
    obtain ⟨specs,hspecs,-⟩ := hwritten e.1 e.2 (Dict.get_eq_some.mpr he)
    have hes : ∀ e ∈ p.entries, ∃ spec, Renderable mode specs spec e := by
      intro e he
      obtain ⟨specs',hspecs',hentry⟩ := hwritten e.1 e.2 (Dict.get_eq_some.mpr he)
      obtain rfl := Option.some.inj (hspecs.symm.trans hspecs')
      exact renderable_of_written hspecs hentry
    have hsame := normalize_values hspecs hne hes
    have hvalues : valuesOf p ≠ [] := by
      simpa [valuesOf] using hne
    have hall : ∀ q ∈ valuesOf p, Accepted mode engine q := by
      intro q hq
      obtain ⟨e,he,rfl⟩ := mem_map.mp hq
      obtain ⟨spec,hspec⟩ := hes e he
      refine ⟨specs,spec,e.2,hspecs,hspec.found,?_⟩
      rw [resolvedText_value hspec.fixed]
      exact hspec.fixed.coerced
    refine ⟨_,encode_accepted hspecs hvalues hall,?_⟩
    refine (decodes_block hspecs ?_ (normalized_ne_nil hspecs hvalues hall)).congr hsame
    intro e he
    have hget := Dict.get_eq_some.mpr he
    rw [hsame] at hget
    exact hes e (Dict.get_eq_some.mp hget)

/-- Encoding and decoding are inverse on what is checked: a directive round-trips exactly if a
parameter is refused, or the engine's name is in normal form and the language is free of the
characters of the grammar; and whatever a text decodes to round-trips. -/
theorem parseEngine_round_trip (mode : Mode) :
    (∀ engine params, RoundTrips mode engine params ↔ (∃ p ∈ params, ¬ Accepted mode engine p) ∨
      (normalizeParserEngine mode.toPython engine = engine ∧
        ∀ t, languageText params = some t → Free t)) ∧
    ∀ text, ∃ again, encodeParseEngine mode (decodeParseEngine mode text).engine
        (valuesOf (decodeParseEngine mode text).params) = .ok again ∧
      Decodes mode again (decodeParseEngine mode text).engine
        (decodeParseEngine mode text).params :=
  ⟨roundTrips_iff mode,reencodes mode⟩

theorem toLower_plain (c : Char) : c.toLower.toLower = c.toLower ∧ isSpace c.toLower = isSpace c ∧
    (c.toLower = '(' → c = '(') ∧ (c.toLower = '-' → c = '-') := by
  rcases Text.toLower_cases c with hsame | hupper
  · simp [hsame]
  · have hall : ∀ c ∈ Text.upperLetters, c.toLower.toLower = c.toLower ∧
        isSpace c.toLower = isSpace c ∧ (c.toLower = '(' → c = '(') ∧
        (c.toLower = '-' → c = '-') := forall_mem (by decide)
    exact hall c hupper

theorem strip_map {f : Char → Char} (hf : ∀ c, isSpace (f c) = isSpace c) (s : Str) :
    strip (s.map f) = (strip s).map f := by
  have hdrop : ∀ s : Str, (s.map f).dropWhile isSpace = (s.dropWhile isSpace).map f := by
    intro s
    rw [dropWhile_map]
    congr 2
    funext c
    exact hf c
  rw [strip,strip,Trim.trim,Trim.trim,Trim.rtrim,Trim.rtrim,hdrop,← map_reverse,hdrop,map_reverse]

/-- `lower` and the digits on ASCII texts. -/
def asciiPython : Python where
  lower s := s.map Char.toLower
  digit c := if Text.isDigit c then some (c.toNat - '0'.toNat) else none
  intMaxStrDigits := 4300
  lower_ascii s _ := rfl
  lower_lower s := by
    rw [map_map]
    apply map_congr_left
    intro c _
    exact (toLower_plain c).1
  lower_plain s hparen hdash hstrip := by
    refine ⟨?_, ?_, ?_⟩
    · intro hin
      obtain ⟨c, hc, heq⟩ := mem_map.mp hin
      exact hparen ((toLower_plain c).2.2.1 heq ▸ hc)
    · intro hin
      obtain ⟨c, hc, heq⟩ := mem_map.mp hin
      exact hdash ((toLower_plain c).2.2.2 heq ▸ hc)
    · rw [strip_map fun c => (toLower_plain c).2.1, hstrip]
  digit_plain c h := by
    rw [if_neg]
    intro hdigit
    have hplain : ∀ d ∈ "0123456789".toList,
        ¬ (d ∈ [',', '(', ')', ']', '='] ∨ isSpace d = true) := forall_mem (by decide)
    exact hplain c (Text.mem_digits hdigit) h

def localMode : Mode := { asciiPython with mineruApiModeIsLocal := true }

theorem language_accepted {t : Str} (hne : strip t ≠ []) :
    Accepted localMode "mineru".toList (language.canonical, ⟨t, none⟩) := by
  refine ⟨_,language,.text (strip t),rfl,rfl,?_⟩
  rw [coerceEngineValue_eq_ok]
  exact ⟨fun h => absurd h.1 (by decide),.text rfl hne (by decide)⟩

/-- The language `a,b` is taken and stored, but not read back. -/
theorem not_roundTrips_comma :
    ¬ ∀ (mode : Mode) (engine : Str) (params : List (Str × Value)),
      RoundTrips mode engine params := by
  intro hall
  rcases (roundTrips_iff localMode "mineru".toList [(language.canonical, ⟨"a,b".toList,none⟩)]).mp
    (hall _ _ _) with ⟨p,hp,hrefused⟩ | ⟨-,hfree⟩
  · obtain rfl := mem_singleton.mp hp
    exact hrefused (language_accepted (by decide))
  · exact absurd (hfree "a,b".toList (by decide)) fun h => h ',' (by decide) (by decide)

end LightRAG.EngineParams
