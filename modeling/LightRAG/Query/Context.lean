import LightRAG.Query.Rerank

/-!
# The prompts of `kg_query` and `naive_query`

The search results are merged and truncated, the chunks are selected, processed and cited, and the
context is rendered into the system prompt, beside the data that the query returns.
-/

namespace LightRAG.QueryPrompt

structure QueryParam where
  maxEntityTokens : ℕ
  maxRelationTokens : ℕ
  maxTotalTokens : ℕ
  responseType : Option String
  userPrompt : Option String
  disableUserPromptPrefix : Bool

structure Templates where
  systemPrompt : Option Template
  /-- `global_config["system_prompt_template"]`. -/
  systemPromptTemplate : Option Template
  /-- `PROMPTS["rag_response"]` or `PROMPTS["naive_rag_response"]`. -/
  ragResponse : Template
  userPromptPrefix : Option String

/-- What both kinds of query are asked with. -/
structure Request where
  query : String
  nonempty : query ≠ ""
  param : QueryParam
  templates : Templates
  tokenizer : Tokenizer
  reranking : Reranking
  stores : Stores

structure RawEntity where
  entityName : String
  entityType : String
  description : String
  sourceId : String
  filePath : String
deriving DecidableEq

structure RawRelation where
  srcId : String
  tgtId : String
  description : String
  sourceId : String
  filePath : String
deriving DecidableEq

structure RawChunk where
  referenceId : String
  content : String
  filePath : String
  chunkId : String
deriving DecidableEq

/-- The `data` of `convert_to_user_format`. -/
structure RawData where
  entities : List RawEntity
  relationships : List RawRelation
  chunks : List RawChunk
  references : List Reference
deriving DecidableEq

/-- The context of a query: its text, the records that are rendered into it, and the raw data. -/
structure Context where
  text : String
  entities : List Entity
  relations : List Relation
  chunks : List Chunk
  references : List Reference
  raw : RawData
deriving DecidableEq

structure Prompt where
  systemPrompt : String
  context : Context
deriving DecidableEq

def formatEntity (e : Entity) : RawEntity :=
  ⟨e.entityName, e.entityType.getD "UNKNOWN", e.description.getD "", e.sourceId.getD "",
    e.filePath.getD "unknown_source"⟩

def formatRelation (r : Relation) : RawRelation :=
  ⟨r.ownPair.1, r.ownPair.2, r.description.getD "", r.sourceId.getD "",
    r.filePath.getD "unknown_source"⟩

def formatChunk (c : Chunk) : RawChunk :=
  ⟨c.referenceId, c.content.getD "", c.filePath.getD "unknown_source", c.chunkId.getD ""⟩

/-- `convert_to_user_format`: each record of the context is looked up among the originals. -/
def convertToUserFormat (entities : List Entity) (relations : List Relation) (chunks : List Chunk)
    (references : List Reference) (entityOriginals : List Entity)
    (relationOriginals : List Relation) : RawData where
  entities := entities.map fun e =>
    formatEntity ((entityOriginals.find? fun o => o.entityName = e.entityName).getD e)
  relationships := relations.map fun r =>
    formatRelation ((relationOriginals.find? fun o => o.pair = r.pair).getD r)
  chunks := chunks.map formatChunk
  references := references

def alternate {α : Type} : List α → List α → List α
  | [], ys => ys
  | x :: xs, [] => x :: xs
  | x :: xs, y :: ys => x :: y :: alternate xs ys

def distinctEntities : List String → List Entity → List Entity
  | _, [] => []
  | seen, e :: es =>
    if e.entityName = "" ∨ e.entityName ∈ seen then distinctEntities seen es
    else e :: distinctEntities (e.entityName :: seen) es

/-- `tuple(sorted(...))`. -/
def sortedPair (p : String × String) : String × String := if p.2 < p.1 then (p.2, p.1) else p

def distinctRelations : List (String × String) → List Relation → List Relation
  | _, [] => []
  | seen, r :: rs =>
    if sortedPair r.pair ∈ seen then distinctRelations seen rs
    else r :: distinctRelations (sortedPair r.pair :: seen) rs

/-- The records of `filtered_entities`: the originals of the context, each once. -/
def filteredEntities (originals : List Entity) : List String → List Entity → List Entity
  | _, [] => []
  | seen, e :: es =>
    if e.entityName ∈ seen then filteredEntities originals seen es
    else
      match originals.find? fun o => o.entityName = e.entityName with
      | none => filteredEntities originals seen es
      | some o => o :: filteredEntities originals (e.entityName :: seen) es

def filteredRelations (originals : List Relation) :
    List (String × String) → List Relation → List Relation
  | _, [] => []
  | seen, r :: rs =>
    if r.pair ∈ seen then filteredRelations originals seen rs
    else
      match originals.find? fun o => o.pair = r.pair with
      | none => filteredRelations originals seen rs
      | some o => o :: filteredRelations originals (r.pair :: seen) rs

/-- A query of the modes that use the knowledge graph, with what the search of the stores found. -/
structure KgQuery extends Request where
  mix : Bool
  localEntities : List Entity
  localRelations : List Relation
  globalEntities : List Entity
  globalRelations : List Relation
  vectorRows : List VectorRow

namespace KgQuery

variable (q : KgQuery)

def finalEntities : List Entity := distinctEntities [] (alternate q.localEntities q.globalEntities)

def finalRelations : List Relation :=
  distinctRelations [] (alternate q.localRelations q.globalRelations)

def vectorChunks : List Chunk :=
  if q.mix ∧ q.stores.hasChunksVdb then getVectorContext q.vectorRows else []

/-- `entities_context` of `_apply_token_truncation`. -/
def entitiesContext : List Entity :=
  truncateListByTokenSize q.tokenizer Entity.render "\n" q.param.maxEntityTokens q.finalEntities

def relationsContext : List Relation :=
  truncateListByTokenSize q.tokenizer Relation.render "\n" q.param.maxRelationTokens
    q.finalRelations

def entityOriginals : List Entity := filteredEntities q.finalEntities [] q.entitiesContext

def relationOriginals : List Relation := filteredRelations q.finalRelations [] q.relationsContext

def mergedChunks : List Chunk :=
  mergeAllChunks q.stores (q.entityOriginals.map Entity.sourceId)
    (q.relationOriginals.map Relation.sourceId) q.vectorChunks

end KgQuery

/-- `query_param.response_type or "Multiple Paragraphs"`. -/
def QueryParam.effectiveResponseType (p : QueryParam) : String :=
  (truthy p.responseType).getD "Multiple Paragraphs"

def Request.effectiveUserPrompt (r : Request) : EffectiveUserPrompt :=
  resolveUserPrompt r.param.userPrompt r.templates.userPromptPrefix r.param.disableUserPromptPrefix

def renderEntities (entities : List Entity) : String := join "\n" (entities.map Entity.render)

def renderRelations (relations : List Relation) : String :=
  join "\n" (relations.map Relation.render)

namespace KgQuery

variable (q : KgQuery)

/-- The template that the budget is computed with. -/
def estimatedTemplate : Template :=
  (q.templates.systemPrompt.orElse fun _ => q.templates.systemPromptTemplate).getD
    q.templates.ragResponse

def renderedTemplate : Template := q.templates.systemPrompt.getD q.templates.ragResponse

/-- `available_chunk_tokens` of `_build_context_str`. -/
def availableChunkTokens : ℤ :=
  q.param.maxTotalTokens -
    (q.tokenizer.count (q.estimatedTemplate.format "" q.param.effectiveResponseType
        q.effectiveUserPrompt.text) +
      q.tokenizer.count (kgQueryContext (renderEntities q.entitiesContext)
        (renderRelations q.relationsContext) "" "") +
      q.tokenizer.count q.query + 200)

def contextOf (kept : List Chunk) : Option Context :=
  let cited := generateReferenceListFromChunks kept
  (renderChunksContextText cited.2).map fun textUnits =>
    if q.entitiesContext = [] ∧ q.relationsContext = [] ∧ cited.2 = [] then
      ⟨"", [], [], [], [], convertToUserFormat [] [] [] [] [] []⟩
    else
      ⟨kgQueryContext (renderEntities q.entitiesContext) (renderRelations q.relationsContext)
          textUnits (renderReferences cited.1),
        q.entitiesContext, q.relationsContext, cited.2, cited.1,
        convertToUserFormat q.entitiesContext q.relationsContext cited.2 cited.1
          q.entityOriginals q.relationOriginals⟩

/-- `_build_context_str`; nothing when it raises. -/
def buildContextStr : Option Context :=
  (processChunksUnified q.reranking q.tokenizer q.availableChunkTokens q.mergedChunks).bind
    q.contextOf

/-- The `sys_prompt` of `kg_query` around a context. -/
def promptOf (context : Context) : Prompt :=
  ⟨q.renderedTemplate.format context.text q.param.effectiveResponseType q.effectiveUserPrompt.slot,
    context⟩

/-- `_build_query_context` returns `None`. -/
def noContext : Bool :=
  (q.finalEntities = [] && q.finalRelations = [] &&
      (!q.mix || q.vectorChunks.all fun c => c.mergeId = none)) ||
    (q.mergedChunks = [] && q.entitiesContext = [] && q.relationsContext = [])

/-- `kg_query`, up to the prompt that it renders. -/
def prompt : Option Prompt := if q.noContext then none else q.buildContextStr.map q.promptOf

end KgQuery

/-- A query of the mode `naive`, with what the vector search found. -/
structure NaiveQuery extends Request where
  vectorRows : List VectorRow

namespace NaiveQuery

variable (q : NaiveQuery)

def chunks : List Chunk := (getVectorContext q.vectorRows).map (attachContentHeadings q.stores)

def template : Template := q.templates.systemPrompt.getD q.templates.ragResponse

def availableChunkTokens : ℤ :=
  q.param.maxTotalTokens -
    (q.tokenizer.count (q.template.format "" q.param.effectiveResponseType
        q.effectiveUserPrompt.slot) +
      q.tokenizer.count q.query + 200)

def contextOf (kept : List Chunk) : Option Context :=
  let cited := generateReferenceListFromChunks kept
  (renderChunksContextText cited.2).map fun textUnits =>
    ⟨naiveQueryContext textUnits (renderReferences cited.1), [], [], cited.2, cited.1,
      convertToUserFormat [] [] cited.2 cited.1 [] []⟩

/-- The `sys_prompt` of `naive_query` around a context; a `response_type` of `None` is rendered. -/
def promptOf (context : Context) : Prompt :=
  ⟨q.template.format context.text (q.param.responseType.getD "None") q.effectiveUserPrompt.slot,
    context⟩

/-- `naive_query`, up to the prompt that it renders. -/
def prompt : Option Prompt :=
  if q.chunks = [] then none
  else
    ((processChunksUnified q.reranking q.tokenizer q.availableChunkTokens q.chunks).bind
      contextOf).map q.promptOf

end NaiveQuery

end LightRAG.QueryPrompt
