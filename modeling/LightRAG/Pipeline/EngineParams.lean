import LightRAG.Framework.Dict
import LightRAG.Framework.Separated
import LightRAG.Pipeline.FilenameHints
import Mathlib.Data.List.Sort
import Mathlib.Data.String.Basic

/-!
# Parameters of an engine in the stored directive

`parser/param_schema.py` checks the parameters of an engine in two ways, from a text and from
resolved values, and `parser/routing.py` writes the resolved ones into the `parse_engine` field.
-/

namespace LightRAG.EngineParams

open FilenameHints (Str strip takeParenBlock)
open Text (isSpace)

structure Python where
  lower : Str → Str
  /-- The value of a character that `\d` matches. -/
  digit : Char → Option ℕ
  /-- The digits that `int` takes at most; 0 for any number. -/
  intMaxStrDigits : ℕ
  lower_ascii : ∀ s, (∀ c ∈ s, c.toNat < 128) → lower s = s.map Char.toLower
  lower_lower : ∀ s, lower (lower s) = lower s
  lower_plain : ∀ s, '(' ∉ s → '-' ∉ s → strip s = s →
    '(' ∉ lower s ∧ '-' ∉ lower s ∧ strip (lower s) = lower s
  digit_plain : ∀ c, c ∈ [',', '(', ')', ']', '='] ∨ isSpace c = true → digit c = none

def valueForbidden : List Char := [',', '(', ')', ']']

/-- `split_top_level`, with `depth` open parentheses. -/
def splitTopLevel (separators : List Char) : ℕ → Str → List Str
  | _, [] => [[]]
  | depth, c :: cs =>
    if c ∉ ['(', ')'] ∧ depth = 0 ∧ c ∈ separators then [] :: splitTopLevel separators depth cs
    else
      let depth := if c = '(' then depth + 1 else if c = ')' then depth - 1 else depth
      match splitTopLevel separators depth cs with
      | [] => [[c]]
      | part :: parts => (c :: part) :: parts

inductive Kind
  | str
  | enum (values : List Str)
  | bool
deriving DecidableEq

structure EngineParamSpec where
  canonical : Str
  aliases : List Str
  kind : Kind
  isList : Bool
deriving DecidableEq

def pageRange : EngineParamSpec := ⟨"page_range".toList, ["pr".toList], .str, true⟩

def language : EngineParamSpec := ⟨"language".toList, [], .str, false⟩

def localParseMethod : EngineParamSpec :=
  ⟨"local_parse_method".toList, ["local_pm".toList],
    .enum ["auto".toList, "txt".toList, "ocr".toList], false⟩

def forceOcr : EngineParamSpec := ⟨"force_ocr".toList, ["ocr".toList], .bool, false⟩

def smartHeading : EngineParamSpec := ⟨"smart_heading".toList, [], .bool, false⟩

def engineParamSpecs (engine : Str) : Option (List EngineParamSpec) :=
  if engine = "mineru".toList then some [pageRange, language, localParseMethod]
  else if engine = "docling".toList then some [forceOcr]
  else if engine = "native".toList then some [smartHeading]
  else none

/-- `_ENGINE_PARAM_BY_NAME` of one engine. -/
def specByName (specs : List EngineParamSpec) (key : Str) : Option EngineParamSpec :=
  specs.find? fun spec => key = spec.canonical ∨ key ∈ spec.aliases

/-- A value as it comes in: its `str`, and those of its items if it is a list or a tuple. -/
structure Value where
  text : Str
  items : Option (List Str)
deriving DecidableEq

inductive Coerced
  | bool (b : Bool)
  | text (t : Str)
deriving DecidableEq

namespace Coerced

def str : Coerced → Str
  | bool true => "True".toList
  | bool false => "False".toList
  | text t => t

def truthy : Coerced → Bool
  | bool b => b
  | text t => t ≠ []

def value (v : Coerced) : Value := ⟨v.str, none⟩

end Coerced

inductive SegmentError
  | shape (segment : Str)
  | positivePages (segment : Str)
  | endBeforeStart (segment : Str)
  | tooManyDigits (segment : Str)
  | singleOnly
deriving DecidableEq

inductive ParamError
  | noParameters (engine : Str)
  | emptyParameter
  | repeatTheKey
  | unknownParameter (key engine : Str)
  | notAFlag (canonical : Str)
  | forbiddenCharacter (canonical : Str)
  | repeated (canonical : Str)
  | localOnly
  | notBoolean (canonical value : Str)
  | notAmong (canonical : Str) (values : List Str) (value : Str)
  | blank (canonical : Str)
  | pageRange (errors : List SegmentError)
  | unbalanced
  | unexpectedText
deriving DecidableEq

variable (py : Python)

def parseBool (value : Str) : Option Bool :=
  let low := py.lower (strip value)
  if low ∈ ["1", "true", "yes", "on", "t", "y"].map String.toList then some true
  else if low ∈ ["0", "false", "no", "off", "f", "n"].map String.toList then some false
  else none

def isDigits (s : Str) : Bool := Text.isRun (fun c => (py.digit c).isSome) s

/-- `_PAGE_SEGMENT_RE.match` of a text without outer blanks. -/
def isPageSegment (segment : Str) : Bool :=
  isDigits py (segment.takeWhile (· ≠ '-')) &&
    ('-' ∉ segment || isDigits py ((segment.dropWhile (· ≠ '-')).drop 1))

/-- `int` of digits: nothing if there are too many. -/
def int (digits : Str) : Option ℕ :=
  if py.intMaxStrDigits ≠ 0 ∧ py.intMaxStrDigits < digits.length then none
  else some (digits.foldl (fun n c => 10 * n + (py.digit c).getD 0) 0)

/-- One round of `_validate_page_range_segments`; an `int` that raises is an error, too. -/
def segmentError (segment : Str) : Option SegmentError :=
  if ¬ isPageSegment py segment then some (.shape segment)
  else if '-' ∈ segment then
    match int py (segment.takeWhile (· ≠ '-')) with
    | none => some (.tooManyDigits segment)
    | some left =>
      if left < 1 then some (.positivePages segment)
      else
        match int py ((segment.dropWhile (· ≠ '-')).drop 1) with
        | none => some (.tooManyDigits segment)
        | some right =>
          if right < 1 then some (.positivePages segment)
          else if right < left then some (.endBeforeStart segment)
          else none
  else
    match int py segment with
    | none => some (.tooManyDigits segment)
    | some page => if page < 1 then some (.positivePages segment) else none

/-- `_mineru_api_mode_is_local`, and the language. -/
structure Mode extends Python where
  mineruApiModeIsLocal : Bool

variable (mode : Mode)

def validatePageRangeSegments (parts : List Str) : List SegmentError :=
  let errors := parts.filterMap (segmentError mode.toPython)
  if errors = [] ∧ 1 < parts.length ∧ mode.mineruApiModeIsLocal then [.singleOnly] else errors

def coerceEngineValue (spec : EngineParamSpec) (value : Str) : Except ParamError Coerced :=
  if spec.canonical = localParseMethod.canonical ∧ ¬ mode.mineruApiModeIsLocal then
    .error .localOnly
  else
    match spec.kind with
    | .bool =>
      match parseBool mode.toPython value with
      | none => .error (.notBoolean spec.canonical value)
      | some b => .ok (.bool b)
    | .enum values =>
      if value ∈ values then .ok (.text value)
      else .error (.notAmong spec.canonical values value)
    | .str =>
      if value = [] then .error (.blank spec.canonical)
      else if spec.isList ∧ spec.canonical = pageRange.canonical then
        let segments := (Text.split ',' value).map strip
        match validatePageRangeSegments mode segments with
        | [] => .ok (.text (Separated.join [','] segments))
        | errors => .error (.pageRange errors)
      else .ok (.text value)

abbrev Params := Dict Str Coerced

/-- The text that is checked in `normalize_engine_params`. -/
def resolvedText (spec : EngineParamSpec) (v : Value) : Str :=
  match spec.isList, v.items with
  | true, some items => Separated.join [','] (items.map strip)
  | _, _ => strip v.text

/-- One parameter of `normalize_engine_params`: its canonical name and value. -/
def normalizeParam (engine : Str) (specs : List EngineParamSpec) (key : Str) (v : Value) :
    Except ParamError (Str × Coerced) :=
  match specByName specs key with
  | none => .error (.unknownParameter key engine)
  | some spec => (coerceEngineValue mode spec (resolvedText spec v)).map fun c => (spec.canonical, c)

/-- The loop of `normalize_engine_params`. -/
def normalizeLoop (engine : Str) (specs : List EngineParamSpec) :
    Params × List ParamError → List (Str × Value) → Params × List ParamError
  | acc, [] => acc
  | acc, p :: ps =>
    match normalizeParam mode engine specs p.1 p.2 with
    | .error e => normalizeLoop engine specs (acc.1, acc.2 ++ [e]) ps
    | .ok r => normalizeLoop engine specs (acc.1.set r.1 r.2, acc.2) ps

/-- `normalize_engine_params`; the keys are those of the mapping as texts. -/
def normalizeEngineParams (engine : Str) (params : List (Str × Value)) :
    Params × List ParamError :=
  if params = [] then (Dict.empty, [])
  else
    match engineParamSpecs engine with
    | none => (Dict.empty, [.noParameters engine])
    | some specs => normalizeLoop mode engine specs (Dict.empty, []) params

/-- The texts that stand for one value in `render_engine_params`. -/
def renderedValues (spec : EngineParamSpec) (v : Coerced) : List Str :=
  if spec.isList then Text.split ',' v.str
  else
    match spec.kind with
    | .bool => [if v.truthy then "true".toList else "false".toList]
    | _ => [v.str]

def renderParam (specs : List EngineParamSpec) (p : Str × Coerced) : List Str :=
  match specByName specs p.1 with
  | none => []
  | some spec => (renderedValues spec p.2).map fun value => p.1 ++ '=' :: value

/-- `sorted(normalized)` -/
def sortedParams (params : Params) : List (Str × Coerced) :=
  params.entries.insertionSort fun p q => p.1 ≤ q.1

def renderEngineParams (engine : Str) (params : List (Str × Value)) :
    Except (List ParamError) Str :=
  match normalizeEngineParams mode engine params with
  | (normalized, []) =>
    .ok (Separated.join [',']
      ((sortedParams normalized).flatMap (renderParam ((engineParamSpecs engine).getD []))))
  | (_, errors) => .error errors

/-- `encode_parse_engine`; errors are those of its `ValueError`. -/
def encodeParseEngine (engine : Str) (params : List (Str × Value)) : Except (List ParamError) Str :=
  if params = [] then .ok engine
  else
    match renderEngineParams mode engine params with
    | .error errors => .error errors
    | .ok inner => .ok (if inner = [] then engine else engine ++ '(' :: (inner ++ [')']))

structure ParseState where
  result : Params
  listValues : Dict Str (List Str)
  errors : List ParamError
  seen : List Str

namespace ParseState

def init : ParseState := ⟨Dict.empty, Dict.empty, [], []⟩

def fail (st : ParseState) (e : ParamError) : ParseState := { st with errors := st.errors ++ [e] }

/-- `result[canonical] = coerced`, unless there is an error. -/
def put (st : ParseState) (canonical : Str) : Except ParamError Coerced → ParseState
  | .error e => st.fail e
  | .ok c => { st with result := st.result.set canonical c }

def take (st : ParseState) (spec : EngineParamSpec) (value : Str) : ParseState :=
  if value.any (· ∈ valueForbidden) then st.fail (.forbiddenCharacter spec.canonical)
  else if spec.isList then
    { st with
      listValues := st.listValues.set spec.canonical
        ((st.listValues.get spec.canonical).getD [] ++ [value]) }
  else if spec.canonical ∈ st.seen then st.fail (.repeated spec.canonical)
  else
    { st with seen := st.seen ++ [spec.canonical] }.put spec.canonical
      (coerceEngineValue mode spec value)

end ParseState

/-- One segment of `parse_engine_params`. -/
def parseSegment (engine : Str) (specs : List EngineParamSpec) (st : ParseState) (raw : Str) :
    ParseState :=
  let segment := strip raw
  if segment = [] then st.fail .emptyParameter
  else if '=' ∈ segment then
    let key := strip (segment.takeWhile (· ≠ '='))
    let value := strip ((segment.dropWhile (· ≠ '=')).drop 1)
    match specByName specs key with
    | none => st.fail (.unknownParameter key engine)
    | some spec => st.take mode spec value
  else
    -- the bare flag form
    match specByName specs segment with
    | none =>
      if isPageSegment mode.toPython segment ∧
          ((specByName specs "page_range".toList).isSome ∨
            (specByName specs "pr".toList).isSome) then
        st.fail .repeatTheKey
      else st.fail (.unknownParameter segment engine)
    | some spec =>
      if spec.kind ≠ .bool then st.fail (.notAFlag spec.canonical)
      else st.take mode spec "true".toList

def joinListValues (specs : List EngineParamSpec) (st : ParseState) (e : Str × List Str) :
    ParseState :=
  match specByName specs e.1 with
  | none => st
  | some spec => st.put e.1 (coerceEngineValue mode spec (Separated.join [','] e.2))

def parseEngineParams (text engine : Str) : Params × List ParamError :=
  match engineParamSpecs engine with
  | none => (Dict.empty, if strip text = [] then [] else [.noParameters engine])
  | some specs =>
    let st := (splitTopLevel [','] 0 text).foldl (parseSegment mode engine specs) .init
    let st := st.listValues.entries.foldl (joinListValues mode specs) st
    (st.result, st.errors)

def normalizeParserEngine (engine : Str) : Str :=
  py.lower (strip (((strip engine).takeWhile (· ≠ '(')).takeWhile (· ≠ '-')))

structure Decoded where
  engine : Str
  params : Params
  errors : List ParamError

def decodeParseEngine (value : Str) : Decoded :=
  let raw := strip value
  if raw = [] then ⟨[], Dict.empty, []⟩
  else if '(' ∉ raw then ⟨normalizeParserEngine mode.toPython raw, Dict.empty, []⟩
  else
    let engine := normalizeParserEngine mode.toPython (raw.takeWhile (· ≠ '('))
    match takeParenBlock 0 ((raw.dropWhile (· ≠ '(')).drop 1) with
    | none => ⟨engine, Dict.empty, [.unbalanced]⟩
    | some (inner, after) =>
      if strip after ≠ [] then ⟨engine, Dict.empty, [.unexpectedText]⟩
      else
        let parsed := parseEngineParams mode inner engine
        ⟨engine, parsed.1, parsed.2⟩

end LightRAG.EngineParams
