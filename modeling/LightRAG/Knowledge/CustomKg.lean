import LightRAG.Framework.Json
import LightRAG.Framework.Results
import LightRAG.Knowledge.RelationKeys
import LightRAG.Knowledge.WeightedMerge

/-!
# Custom knowledge graphs

`ainsert_custom_kg` from the payload to the flush at its end, over storages that do not fail.
-/

namespace LightRAG.Knowledge.CustomKg

open RelationKeys (sortedEnds makeRelationVdbIds relationId)

abbrev Fields := List (String × Json)

def get (data : Fields) (name : String) : Option Json := Json.field name (.object data)

/-- `data.get(name, text)`. -/
def getOr (data : Fields) (name text : String) : Json := (get data name).getD (.string text)

structure Payload where
  chunks : List Fields
  entities : List Fields
  relationships : List Fields

inductive PayloadError
  | missingKey (name : String)
  | notString (field : String)
  | emptyName (field : String)
  | selfLoop (context : String)
  | invalidWeight (context : String)
  | belowEvidence (context : String)
  | unhashable
  | tokenBudget
deriving DecidableEq

structure Env where
  normalizeEntityName : String → String
  sanitizeTextForEncoding : String → String
  /-- `len(tokenizer.encode(text))`. -/
  tokens : String → ℕ
  /-- `compute_args_hash`. -/
  hash : String → String
  normalizeDocumentFilePath : Json → String
  storable : ℚ → Bool
  /-- `float(text)`, where it is a storable number. -/
  parseNumber : String → Option ℚ
  /-- `_truncate_vdb_content`; nothing for a `TokenBudgetError`. -/
  truncateVdbContent : String → Option String
  /-- `str(value)`. -/
  str : Json → String
  /-- `int(time.time())`. -/
  now : ℤ
  fullDocId : Option String

/-- Equal keys of a dictionary; nothing for a value that cannot be one. -/
def hashKey : Json → Option Json
  | .bool b => some (.number (if b then 1 else 0))
  | .array _ => none
  | .object _ => none
  | value => some value

structure ChunkEntry where
  content : String
  sourceId : Json
  tokens : ℕ
  chunkOrderIndex : Json
  fullDocId : Json
  filePath : String
deriving DecidableEq

structure EntityData where
  name : Name
  data : Fields

structure RelationshipData where
  srcId : Name
  tgtId : Name
  sourceId : String
  weight : ℚ
  data : Fields

def relationEvidenceCount (sourceId : String) : ℕ := evidenceCount (splitFragments sourceId)

section

variable (env : Env)

/-- `_normalize_custom_kg_entity_name`. -/
def normalizeName (field : String) : Option Json → Except PayloadError Name
  | none => .error (.missingKey field)
  | some (.string text) =>
    if env.normalizeEntityName text = "" then .error (.emptyName field)
    else .ok (env.normalizeEntityName text)
  | some _ => .error (.notString field)

/-- The number that `_sanitize_graph_fields` makes of a weight. -/
def weightOf : Json → Option ℚ
  | .number q => if env.storable q then some q else none
  | .string text => env.parseNumber text
  | _ => none

def validateRelationWeight (context : String) (weight : Option ℚ) (sourceId : String) :
    Except PayloadError ℚ :=
  match weight with
  | none => .error (.invalidWeight context)
  | some q => if q < relationEvidenceCount sourceId then .error (.belowEvidence context) else .ok q

def normalizeEntity (entry : Fields × ℕ) : Except PayloadError EntityData := do
  let name ← normalizeName env s!"entities[{entry.2}].entity_name" (get entry.1 "entity_name")
  return ⟨name, entry.1⟩

def normalizeRelationship (entry : Fields × ℕ) : Except PayloadError RelationshipData := do
  let context := s!"relationships[{entry.2}]"
  let srcId ← normalizeName env (context ++ ".src_id") (get entry.1 "src_id")
  let tgtId ← normalizeName env (context ++ ".tgt_id") (get entry.1 "tgt_id")
  if srcId = tgtId then .error (.selfLoop context)
  else match getOr entry.1 "source_id" "" with
    | .string sourceId => do
      let weight ← validateRelationWeight context
        (weightOf env ((get entry.1 "weight").getD (.number 1))) ""
      return ⟨srcId, tgtId, sourceId, weight, entry.1⟩
    | _ => .error (.notString "source_id")

/-- `all_chunks_data` and `chunk_to_source_map`. -/
structure Chunks where
  allChunksData : Dict String ChunkEntry
  chunkToSourceMap : Dict Json String

def chunkId (content : String) : String := "chunk-" ++ env.hash content

/-- One chunk of `_build_custom_kg_chunks`. -/
def buildChunk (c : Chunks) (data : Fields) : Except PayloadError Chunks :=
  match get data "content", get data "source_id" with
  | none, _ => .error (.missingKey "content")
  | some (.string text), some sourceId =>
    match hashKey sourceId with
    | none => .error .unhashable
    | some key =>
      let content := env.sanitizeTextForEncoding text
      .ok {
        allChunksData := c.allChunksData.set (chunkId env content) {
          content := content
          sourceId := sourceId
          tokens := env.tokens content
          chunkOrderIndex := (get data "chunk_order_index").getD (.number 0)
          fullDocId := (env.fullDocId.map Json.string).getD sourceId
          filePath := env.normalizeDocumentFilePath (getOr data "file_path" "custom_kg") }
        chunkToSourceMap := c.chunkToSourceMap.set key (chunkId env content) }
  | some (.string _), none => .error (.missingKey "source_id")
  | some _, _ => .error (.notString "content")

def resolve (c : Chunks) (key : Json) : String := (c.chunkToSourceMap.get key).getD "UNKNOWN"

/-- The second validation of a relationship, with the chunk of its alias. -/
def resolveRelationship (c : Chunks) (entry : RelationshipData × ℕ) :
    Except PayloadError RelationshipData := do
  let sourceId := if entry.1.sourceId = "" then "" else resolve c (.string entry.1.sourceId)
  let weight ← validateRelationWeight s!"relationships[{entry.2}]" (some entry.1.weight) sourceId
  return { entry.1 with sourceId := sourceId, weight := weight }

def lastOf {κ α : Type} [DecidableEq κ] (key : α → κ) (xs : List α) : Dict κ α :=
  xs.foldl (fun d x => (d.drop fun k => k = key x).set (key x) x) Dict.empty

structure Plan where
  entities : Dict Name EntityData
  relationships : Dict (Name × Name) RelationshipData
  chunks : Chunks

def validate (kg : Payload) : Except PayloadError Plan := do
  let entities ← kg.entities.zipIdx.mapM (normalizeEntity env)
  let relationships ← kg.relationships.zipIdx.mapM (normalizeRelationship env)
  let chunks ← kg.chunks.foldlM (buildChunk env) ⟨Dict.empty, Dict.empty⟩
  let resolved ← relationships.zipIdx.mapM (resolveRelationship chunks)
  return ⟨lastOf EntityData.name entities,
    lastOf (fun r => sortedEnds r.srcId r.tgtId) resolved, chunks⟩

end

structure NodeData where
  entityType : Json
  description : Json
  sourceId : String
  filePath : String
  createdAt : ℤ
deriving DecidableEq

structure EdgeRow where
  weight : ℚ
  description : Json
  keywords : Json
  sourceId : String
  filePath : String
  createdAt : ℤ
deriving DecidableEq

structure EntityRecord where
  content : String
  entityName : Name
  sourceId : String
  description : Json
  entityType : Json
  filePath : String
deriving DecidableEq

structure RelationRecord where
  srcId : Name
  tgtId : Name
  sourceId : String
  content : String
  keywords : Json
  description : Json
  weight : ℚ
  filePath : String
deriving DecidableEq

structure Contents where
  textChunks : Dict String ChunkEntry
  chunksVdb : Dict String ChunkEntry
  entitiesVdb : Dict String EntityRecord
  relationshipsVdb : Dict String RelationRecord
  nodes : Dict Name NodeData
  edges : Dict Pair EdgeRow

/-- What the storages hold in memory and what they have flushed. -/
structure Storages where
  buffered : Contents
  durable : Contents

section

variable (env : Env) (plan : Plan)

def Plan.declared : List EntityData := plan.entities.entries.map Prod.snd

def Plan.related : List RelationshipData := plan.relationships.entries.map Prod.snd

def buildNode (e : EntityData) : Except PayloadError (Name × NodeData) :=
  match hashKey (getOr e.data "source_id" "UNKNOWN") with
  | none => .error .unhashable
  | some key => .ok (e.name, {
      entityType := getOr e.data "entity_type" "UNKNOWN"
      description := getOr e.data "description" "No description provided"
      sourceId := resolve plan.chunks key
      filePath := env.normalizeDocumentFilePath (getOr e.data "file_path" "custom_kg")
      createdAt := env.now })

/-- The nodes of all entities, and `update_storage` after the loop. -/
def buildNodes : List EntityData → Bool → Except PayloadError (List (Name × NodeData)) × Bool
  | [], update => (.ok [], update)
  | e :: es, update =>
    match buildNode env plan e with
    | .error err => (.error err, update)
    | .ok node =>
      let rest := buildNodes es true
      (rest.1.map fun nodes => node :: nodes, rest.2)

def entityRecord (node : Name × NodeData) : Except PayloadError (String × EntityRecord) :=
  match node.2.description with
  | .string description =>
    match env.truncateVdbContent (node.1 ++ "\n" ++ description) with
    | none => .error .tokenBudget
    | some content => .ok ("ent-" ++ env.hash node.1, {
        content := content
        entityName := node.1
        sourceId := node.2.sourceId
        description := node.2.description
        entityType := node.2.entityType
        filePath := node.2.filePath })
  | _ => .error (.notString "description")

def edgeRow (r : RelationshipData) : Except PayloadError EdgeRow :=
  match get r.data "description", get r.data "keywords" with
  | none, _ => .error (.missingKey "description")
  | some _, none => .error (.missingKey "keywords")
  | some description, some keywords => .ok {
      weight := r.weight
      description := description
      keywords := keywords
      sourceId := r.sourceId
      filePath := env.normalizeDocumentFilePath (getOr r.data "file_path" "custom_kg")
      createdAt := env.now }

def related (r : RelationshipData) : Except PayloadError (RelationshipData × EdgeRow) :=
  (edgeRow env r).map fun row => (r, row)

def relationRecord (row : RelationshipData × EdgeRow) :
    Except PayloadError (String × RelationRecord) :=
  let ends := sortedEnds row.1.srcId row.1.tgtId
  match env.truncateVdbContent (env.str row.2.keywords ++ "\t" ++ ends.1 ++ "\n" ++ ends.2 ++ "\n" ++
      env.str row.2.description) with
  | none => .error .tokenBudget
  | some content => .ok (relationId env.hash (ends.1 ++ ends.2), {
      srcId := ends.1
      tgtId := ends.2
      sourceId := row.2.sourceId
      content := content
      keywords := row.2.keywords
      description := row.2.description
      weight := row.2.weight
      filePath := row.2.filePath })

def missingNode (row : EdgeRow) : NodeData where
  entityType := .string "UNKNOWN"
  description := .string "UNKNOWN"
  sourceId := row.sourceId
  filePath := row.filePath
  createdAt := env.now

/-- `missing_nodes`, over the names that exist. -/
def missingNodes (nodes : Dict Name NodeData) (rows : List (RelationshipData × EdgeRow)) :
    Dict Name NodeData :=
  rows.foldl (fun d row =>
    [row.1.srcId, row.1.tgtId].foldl (fun d name =>
      if (nodes.get name).isSome ∨ (d.get name).isSome then d
      else d.set name (missingNode env row.2)) d) Dict.empty

def Contents.upsertChunks (c : Contents) (chunks : Dict String ChunkEntry) : Contents :=
  { c with
    chunksVdb := c.chunksVdb.overwrite chunks
    textChunks := c.textChunks.overwrite chunks }

/-- `upsert_nodes_batch`. -/
def Contents.upsertNodes (c : Contents) (nodes : List (Name × NodeData)) : Contents :=
  { c with nodes := c.nodes.update nodes }

/-- The writes after the last check. -/
def Contents.upsertRelationships (c : Contents) (rows : List (RelationshipData × EdgeRow))
    (entities : List (String × EntityRecord)) (relations : List (String × RelationRecord)) :
    Contents :=
  let legacy := rows.flatMap fun row =>
    (makeRelationVdbIds env.hash row.1.srcId row.1.tgtId).tail
  { c with
    nodes := c.nodes.overwrite (missingNodes env c.nodes rows)
    edges := c.edges.update (rows.map fun row => (s(row.1.srcId, row.1.tgtId), row.2))
    entitiesVdb := c.entitiesVdb.update entities
    relationshipsVdb := (c.relationshipsVdb.update relations).drop fun id => id ∈ legacy }

/-- The `finally` of the operation. -/
def conclude (s : Storages) (buffered : Contents) (update : Bool) : Storages :=
  ⟨buffered, if update then buffered else s.durable⟩

def write (s : Storages) : Except PayloadError Unit × Storages :=
  let chunked := s.buffered.upsertChunks plan.chunks.allChunksData
  let built := buildNodes env plan plan.declared (! plan.chunks.allChunksData.entries.isEmpty)
  match built.1 with
  | .error e => (.error e, conclude s chunked built.2)
  | .ok nodes =>
    let update := built.2 || ! nodes.isEmpty || ! plan.related.isEmpty
    match nodes.mapM (entityRecord env) with
    | .error e => (.error e, conclude s chunked update)
    | .ok entities =>
      let noded := chunked.upsertNodes nodes
      match plan.related.mapM (related env) with
      | .error e => (.error e, conclude s noded update)
      | .ok rows =>
        match rows.mapM (relationRecord env) with
        | .error e => (.error e, conclude s noded update)
        | .ok relations =>
          (.ok (), conclude s (noded.upsertRelationships env rows entities relations) update)

def ainsertCustomKg (kg : Payload) (s : Storages) : Except PayloadError Unit × Storages :=
  match validate env kg with
  | .error e => (.error e, s)
  | .ok plan => write env plan s

end

end LightRAG.Knowledge.CustomKg
