import LightRAG.Framework.Memo
import LightRAG.Query.Context

/-!
# The LLM cache

The calls that look for an answer of a model in the cache: `use_llm_func_with_cache`, the keyword
extraction, and the answer stages of `kg_query` and `naive_query`.
-/

namespace LightRAG.LlmCache

open QueryPrompt

def openTag : List Char := ['<', 't', 'h', 'i', 'n', 'k', '>']

def closeTag : List Char := ['<', '/', 't', 'h', 'i', 'n', 'k', '>']

/-- What follows the first closing tag, if no opening tag stands before it. -/
def afterOrphan : List Char → Option (List Char)
  | [] => none
  | c :: cs =>
    if closeTag.isPrefixOf (c :: cs) then some ((c :: cs).drop closeTag.length)
    else if openTag.isPrefixOf (c :: cs) then none
    else afterOrphan cs

def afterClose : List Char → Option (List Char)
  | [] => none
  | c :: cs =>
    if closeTag.isPrefixOf (c :: cs) then some ((c :: cs).drop closeTag.length) else afterClose cs

/-- `re.sub(r"<think>.*?</think>", "", text)`; the number bounds the length of the text. -/
def removeBlocks : ℕ → List Char → List Char
  | 0, cs => cs
  | _ + 1, [] => []
  | n + 1, c :: cs =>
    if openTag.isPrefixOf (c :: cs) then
      match afterClose ((c :: cs).drop openTag.length) with
      | some rest => removeBlocks n rest
      | none => c :: removeBlocks n cs
    else c :: removeBlocks n cs

def removeThinkTags (text : String) : String :=
  let cs := (afterOrphan text.toList).getD text.toList
  Text.strip (String.ofList (removeBlocks cs.length cs))

def fence : List Char := ['`', '`', '`']

def dropStart (start cs : List Char) : Option (List Char) :=
  if start.isPrefixOf cs then some (cs.drop start.length) else none

def stripMarkdownCodeFence (text : String) : String :=
  let inner := (dropStart fence (Text.strip text).toList).bind fun cs =>
    (dropStart fence cs.reverse).map List.reverse
  match inner with
  | none => text
  | some cs =>
    let tagged := (dropStart "json".toList cs).orElse fun _ => dropStart "JSON".toList cs
    Text.strip (String.ofList (tagged.getD cs))

/-- `text.replace(old, "")` for an `old` that is not empty; the number bounds the length. -/
def removeAll (old : List Char) : ℕ → List Char → List Char
  | 0, cs => cs
  | _ + 1, [] => []
  | n + 1, c :: cs =>
    if old ≠ [] ∧ old.isPrefixOf (c :: cs) then removeAll old n ((c :: cs).drop old.length)
    else c :: removeAll old n cs

def replaced (old text : String) : String :=
  String.ofList (removeAll old.toList text.length text.toList)

/-- `",".join` and the like over the parts that are not empty. -/
def joinNonempty (separator : String) (parts : List String) : String :=
  join separator (parts.filter (· ≠ ""))

inductive Json
  | null
  | bool (b : Bool)
  | number (text : String)
  | string (s : String)
  | array (values : List Json)
  | object (fields : List (String × Json))

def Json.get (name : String) : Json → Option Json
  | .object fields => (fields.find? fun f => f.1 = name).map Prod.snd
  | _ => none

/-- A dictionary of strings, with its fields in order. -/
abbrev Message := List (String × String)

/-- What a model is asked. `V` are the values of `response_format` and of the identities. -/
structure LlmRequest (V : Type) where
  prompt : String
  systemPrompt : Option String
  history : List Message
  responseFormat : Option V

inductive Mode
  | «local»
  | «global»
  | hybrid
  | mix
  | naive
deriving DecidableEq

def Mode.text : Mode → String
  | .local => "local"
  | .global => "global"
  | .hybrid => "hybrid"
  | .mix => "mix"
  | .naive => "naive"

/-- What the search of the stores finds for a query. -/
structure Search where
  localEntities : List Entity
  localRelations : List Relation
  globalEntities : List Entity
  globalRelations : List Relation
  vectorRows : List VectorRow

/-- The models, the stores and the settings, and the parts of the standard library. -/
structure Host (V : Type) where
  llm : Option V → LlmRequest V → String
  queryIdentity : V
  keywordIdentity : V
  language : String
  jsonObject : V
  isJsonObject : V → Bool
  /-- `json.dumps` with sorted keys. -/
  serialize : V → String
  md5 : String → String
  unescape : String → String
  isRemoved : Char → Bool
  loads : String → Option Json
  /-- `json_repair.loads`, and nothing when it raises. -/
  repair : String → Option Json
  /-- `json.dumps` of the two lists of keywords. -/
  dumpsKeywords : List String × List String → String
  /-- `PROMPTS["keywords_extraction"]` with the query and the language. -/
  keywordsExtraction : String → String → String
  failResponse : String
  tokenizer : Tokenizer
  /-- The template that `str.format` reads in a text. -/
  readTemplate : String → Template
  ragResponse : Template
  naiveRagResponse : Template
  systemPromptTemplate : Option Template
  userPromptPrefix : Option String
  rerankModelFunc : Option (List Chunk → ℕ → Option RerankAnswer)
  minRerankScore : ℚ
  stores : String → Stores
  /-- By mode, query, low-level keywords, high-level keywords, `top_k` and `chunk_top_k`. -/
  search : Mode → String → String → String → ℕ → Option ℕ → Search

structure Caches where
  llmCache : Bool
  entityExtract : Bool
  queryAnswer : Bool

def Caches.off : Caches := ⟨false, false, false⟩

/-- What a cached computation gives. -/
inductive Value
  | text (s : String)
  | keywords (high low : List String)
deriving DecidableEq

inductive Delivered
  | text (s : String)
  | keywords (high low : List String)
  | nothing
  | valueError
deriving DecidableEq

abbrev Program := Memo.Program String String Value Delivered

variable {V : Type} (host : Host V) (caches : Caches)

namespace Host

def sanitizeTextForEncoding (text : String) : String :=
  if text = "" then text
  else if Text.strip text = "" then ""
  else
    Text.strip (String.ofList ((host.unescape (Text.strip text)).toList.filter fun c =>
      ! host.isRemoved c))

def serializeCacheVariant (value : Option V) : String :=
  match value with
  | none => ""
  | some v => host.serialize v

/-- `compute_args_hash` of two or more arguments. -/
def computeArgsHash (args : List String) : String := host.md5 (Framing.frames args)

end Host

def generateCacheKey (mode cacheType hash : String) : String :=
  mode ++ (":" ++ (cacheType ++ (":" ++ hash)))

/-- A text in the cache is the value itself; an empty one is not saved. -/
def textMemo (key text : String) : Memo String String Value where
  key := key
  compute := .text text
  read stored := some (.text stored)
  write
    | .text s => if s = "" then none else some s
    | .keywords _ _ => none

structure LlmCall (V : Type) where
  userPrompt : String
  systemPrompt : Option String
  historyMessages : List Message
  cacheType : String
  responseFormat : Option V
  identity : Option V
  recorded : Bool

namespace LlmCall

variable (c : LlmCall V)

def safeMessage (message : Message) : Message :=
  message.map fun field =>
    (field.1, if field.1 = "content" then host.sanitizeTextForEncoding field.2 else field.2)

def safeSystemPrompt : Option String :=
  (truthy c.systemPrompt).map host.sanitizeTextForEncoding

def safeHistory : List Message := c.historyMessages.map (safeMessage host)

/-- `json.dumps(safe_history_messages, ensure_ascii=False)`. -/
def historyText : String :=
  if c.historyMessages = [] then ""
  else "[" ++ (join ", " ((c.safeHistory host).map dumps) ++ "]")

/-- `_prompt`. -/
def promptText : String :=
  joinNonempty "\n" [host.sanitizeTextForEncoding c.userPrompt,
    (c.safeSystemPrompt host).getD "", c.historyText host]

def args : List String :=
  [c.promptText host, "\n<response_format>\n", host.serializeCacheVariant c.responseFormat,
    "\n<llm_identity>\n", host.serializeCacheVariant c.identity]

def request : LlmRequest V :=
  ⟨host.sanitizeTextForEncoding c.userPrompt, c.safeSystemPrompt host, c.safeHistory host,
    c.responseFormat⟩

def answer : String := removeThinkTags (host.llm c.identity (c.request host))

def memo : Memo String String Value :=
  let plain := textMemo
    (generateCacheKey "default" c.cacheType (host.computeArgsHash (c.args host))) (c.answer host)
  { plain with write := fun value => if c.recorded then plain.write value else none }

end LlmCall

def asText : Value → Delivered
  | .text s => .text s
  | .keywords high low => .keywords high low

def useLlmFuncWithCache (c : LlmCall V) : Program :=
  if (c.responseFormat.map host.isJsonObject).getD true then
    if caches.entityExtract then .ask (c.memo host) fun value => .done (asText value)
    else .done (.text (c.answer host))
  else .done .valueError

/-- The parts of a text between newlines, commas and semicolons. -/
def splitList : List Char → List (List Char)
  | [] => [[]]
  | c :: cs =>
    match splitList cs with
    | [] => [[c]]
    | part :: parts =>
      if c = '\n' ∨ c = ',' ∨ c = ';' then [] :: part :: parts else (c :: part) :: parts

/-- The strings in a list, stripped, without the empty ones. -/
def cleanKeywords (values : List Json) : List String :=
  (values.filterMap fun value =>
    match value with
    | .string s => some (Text.strip s)
    | _ => none).filter (· ≠ "")

def normalizeKeywordList (rawValues : Option Json) : List String :=
  match rawValues with
  | some (.string s) => cleanKeywords ((splitList s.toList).map fun part =>
      .string (String.ofList part))
  | some (.array values) => cleanKeywords values
  | _ => []

/-- `_parse_keywords_payload` of a text, and nothing for a payload that is not valid. -/
def parseKeywordsPayload (result : String) : Option (List String × List String) :=
  let cleaned := stripMarkdownCodeFence (removeThinkTags result)
  match (host.loads cleaned).orElse fun _ => host.repair cleaned with
  | some (.object fields) =>
    some (normalizeKeywordList ((Json.object fields).get "high_level_keywords"),
      normalizeKeywordList ((Json.object fields).get "low_level_keywords"))
  | _ => none

def keywordRequest (text : String) : LlmRequest V :=
  ⟨host.keywordsExtraction text host.language, none, [], some host.jsonObject⟩

def extractedKeywords (text : String) : List String × List String :=
  (parseKeywordsPayload host
    (host.llm (some host.keywordIdentity) (keywordRequest host text))).getD ([], [])

def keywordArgs (mode : Mode) (text : String) : List String :=
  [mode.text, text, host.language, "\n<llm_identity>\n",
    host.serializeCacheVariant (some host.keywordIdentity)]

def keywordsMemo (mode : Mode) (text : String) : Memo String String Value where
  key := generateCacheKey mode.text "keywords" (host.computeArgsHash (keywordArgs host mode text))
  compute := .keywords (extractedKeywords host text).1 (extractedKeywords host text).2
  read stored := (parseKeywordsPayload host stored).map fun found => .keywords found.1 found.2
  write
    | .keywords high low =>
      if high = [] ∧ low = [] then none else some (host.dumpsKeywords (high, low))
    | .text _ => none

/-- `extract_keywords_only`, before something that goes on with the keywords. -/
def withKeywords (mode : Mode) (text : String)
    (next : List String → List String → Program) : Program :=
  if caches.llmCache then
    .ask (keywordsMemo host mode text) fun value =>
      match value with
      | .keywords high low => next high low
      | .text s => .done (.text s)
  else next (extractedKeywords host text).1 (extractedKeywords host text).2

def extractKeywordsOnly (mode : Mode) (text : String) : Program :=
  withKeywords host caches mode text fun high low => .done (.keywords high low)

structure AnswerParam extends QueryParam where
  mode : Mode
  onlyNeedContext : Bool
  onlyNeedPrompt : Bool
  topK : ℕ
  chunkTopK : Option ℕ
  hlKeywords : List String
  llKeywords : List String
  conversationHistory : List Message
  enableRerank : Bool

/-- A query of `kg_query` or of `naive_query`. -/
structure Question where
  query : String
  nonempty : query ≠ ""
  param : AnswerParam
  systemPrompt : Option String

def textOfBool : Bool → String
  | true => "True"
  | false => "False"

namespace Question

variable (q : Question)

def effectiveUserPrompt : EffectiveUserPrompt :=
  resolveUserPrompt q.param.userPrompt host.userPromptPrefix q.param.disableUserPromptPrefix

def request (ragResponse : Template) : Request where
  query := q.query
  nonempty := q.nonempty
  param := q.param.toQueryParam
  templates :=
    { systemPrompt := (truthy q.systemPrompt).map host.readTemplate
      systemPromptTemplate := host.systemPromptTemplate
      ragResponse := ragResponse
      userPromptPrefix := host.userPromptPrefix }
  tokenizer := host.tokenizer
  reranking :=
    { enableRerank := q.param.enableRerank
      rerankModelFunc := host.rerankModelFunc
      minRerankScore := host.minRerankScore
      chunkTopK := q.param.chunkTopK }
  stores := host.stores q.query

def kgQuery (lowKeywords highKeywords : String) : KgQuery :=
  let found := host.search q.param.mode q.query lowKeywords highKeywords q.param.topK
    q.param.chunkTopK
  { q.request host host.ragResponse with
    mix := decide (q.param.mode = .mix)
    localEntities := found.localEntities
    localRelations := found.localRelations
    globalEntities := found.globalEntities
    globalRelations := found.globalRelations
    vectorRows := found.vectorRows }

def naiveQuery : NaiveQuery :=
  { q.request host host.naiveRagResponse with
    vectorRows :=
      (host.search q.param.mode q.query "" "" q.param.topK q.param.chunkTopK).vectorRows }

/-- The arguments that the keys of both kinds of answers begin with. -/
def leadingArgs : List String :=
  ["query-answer-cache-v2", q.param.mode.text, q.query, q.param.responseType.getD "None",
    Nat.repr q.param.topK, (q.param.chunkTopK.map Nat.repr).getD "None",
    Nat.repr q.param.maxEntityTokens, Nat.repr q.param.maxRelationTokens,
    Nat.repr q.param.maxTotalTokens]

/-- Those that they end with. -/
def trailingArgs : List String :=
  (match truthy q.systemPrompt with
    | some systemPrompt => ["\n<system_prompt>\n", systemPrompt]
    | none => []) ++
    ["\n<llm_identity>\n", host.serializeCacheVariant (some host.queryIdentity)]

def kgArgs (lowKeywords highKeywords : String) : List String :=
  q.leadingArgs ++ [highKeywords, lowKeywords, (q.effectiveUserPrompt host).text,
    textOfBool q.param.enableRerank, textOfBool (host.stores q.query).enableContentHeadings,
    "\n<kg_chunk_selection>\n", Nat.repr (host.stores q.query).relatedChunkNumber,
    (match (host.stores q.query).pickMethod with
      | .vector => "VECTOR"
      | .weight => "WEIGHT"
      | .other => "")] ++ q.trailingArgs host

def naiveArgs : List String :=
  q.leadingArgs ++ [(q.effectiveUserPrompt host).text, textOfBool q.param.enableRerank,
    textOfBool (host.stores q.query).enableContentHeadings] ++ q.trailingArgs host

def answerRequest (systemPrompt : String) : LlmRequest V :=
  ⟨q.query, some systemPrompt, q.param.conversationHistory, none⟩

def answer (systemPrompt : String) : String :=
  host.llm (some host.queryIdentity) (q.answerRequest systemPrompt)

def answerMemo (args : List String) (systemPrompt : String) : Memo String String Value :=
  textMemo (generateCacheKey q.param.mode.text "query" (host.computeArgsHash args))
    (q.answer host systemPrompt)

/-- `_answer_cache_kv` and the switch that `handle_cache` asks. -/
def usesCache : Bool :=
  caches.llmCache && caches.queryAnswer && decide (q.param.conversationHistory = [])

/-- The end of `kg_query`: an answer that repeats its prompt is cut down. -/
def kgResponse (systemPrompt response : String) : String :=
  if systemPrompt.length < response.length then
    Text.strip (replaced "</system>" (replaced "<system>" (replaced q.query
      (replaced "model" (replaced "user" (replaced systemPrompt response))))))
  else response

/-- The end of `naive_query`. -/
def naiveResponse (systemPrompt response : String) : String :=
  if systemPrompt.length < response.length then
    Text.strip (replaced "</system>" (replaced "<system>" (replaced q.query
      (replaced "model" (replaced "user" (replaced systemPrompt
        (String.ofList (response.toList.drop systemPrompt.length))))))))
  else response

/-- The answer stage, from the arguments of the key, the prompt and what is made of a response. -/
def answerStage (args : List String) (respond : String → String → String)
    (prompt : Option Prompt) : Program :=
  match prompt with
  | none => .done .nothing
  | some prompt =>
    if q.param.onlyNeedContext && ! q.param.onlyNeedPrompt then .done (.text prompt.context.text)
    else if q.param.onlyNeedPrompt then
      .done (.text (join "\n\n" [prompt.systemPrompt, "---User Query---", q.query]))
    else if q.usesCache caches then
      .ask (q.answerMemo host args prompt.systemPrompt) fun value =>
        match value with
        | .text response => .done (.text (respond prompt.systemPrompt response))
        | .keywords _ _ => .done .nothing
    else .done (.text (respond prompt.systemPrompt (q.answer host prompt.systemPrompt)))

/-- `kg_query` from the keywords on. -/
def kgAnswer (high low : List String) : Program :=
  if high = [] ∧ low = [] ∧ 50 ≤ q.query.length then .done (.text host.failResponse)
  else
    let lowKeywords := join ", " (if high = [] ∧ low = [] then [q.query] else low)
    let highKeywords := join ", " high
    q.answerStage host caches (q.kgArgs host lowKeywords highKeywords) q.kgResponse
      (q.kgQuery host lowKeywords highKeywords).prompt

end Question

def kgQuery (q : Question) : Program :=
  if q.param.hlKeywords ≠ [] ∨ q.param.llKeywords ≠ [] then
    q.kgAnswer host caches q.param.hlKeywords q.param.llKeywords
  else withKeywords host caches q.param.mode q.query (q.kgAnswer host caches)

def naiveQuery (q : Question) : Program :=
  q.answerStage host caches (q.naiveArgs host) q.naiveResponse (q.naiveQuery host).prompt

inductive Call (V : Type)
  | useLlmFuncWithCache (c : LlmCall V)
  | extractKeywordsOnly (mode : Mode) (text : String)
  | kgQuery (q : Question)
  | naiveQuery (q : Question)

def program : Call V → Program
  | .useLlmFuncWithCache c => useLlmFuncWithCache host caches c
  | .extractKeywordsOnly mode text => extractKeywordsOnly host caches mode text
  | .kgQuery q => kgQuery host caches q
  | .naiveQuery q => naiveQuery host caches q

def delivered (calls : List (Call V)) : List Delivered :=
  Memo.Program.runAll (calls.map (program host caches)) .empty

end LightRAG.LlmCache
