import LightRAG.Framework.Separated
import LightRAG.Framework.Text
import LightRAG.Query.Prompt
import Mathlib.Data.List.Sort

/-!
# Reference lists

The numbering of the file paths of a list of chunks, and what a reader of the numbers may rely on.
-/

namespace LightRAG.QueryPrompt
open List

structure PathEntry where
  path : String
  count : ℕ
  firstIndex : ℕ
deriving DecidableEq

variable (chunks : List Chunk)

def pathCount (path : String) : ℕ :=
  (chunks.filterMap Chunk.knownPath).count path

/-- `file_path_with_indices` from the `i`th chunk on. -/
def pathEntries (count : String → ℕ) : ℕ → List String → List Chunk → List PathEntry
  | _, _, [] => []
  | i, seen, c :: cs =>
    match c.knownPath with
    | some path =>
      if path ∈ seen then pathEntries count (i + 1) seen cs
      else ⟨path, count path, i⟩ :: pathEntries count (i + 1) (path :: seen) cs
    | none => pathEntries count (i + 1) seen cs

/-- The order of the keys `(-count, first_index)`. -/
def PathEntry.le (a b : PathEntry) : Bool :=
  b.count < a.count || (a.count = b.count && a.firstIndex ≤ b.firstIndex)

def uniqueFilePaths : List String :=
  ((pathEntries (pathCount chunks) 0 [] chunks).insertionSort fun a b => a.le b).map PathEntry.path

def referenceId (uniquePaths : List String) (c : Chunk) : String :=
  match c.knownPath with
  | some path => toString (uniquePaths.idxOf path + 1)
  | none => ""

def referenceList (uniquePaths : List String) : List Reference :=
  uniquePaths.mapIdx fun i path => ⟨toString (i + 1), path⟩

def generateReferenceListFromChunks : List Reference × List Chunk :=
  (referenceList (uniqueFilePaths chunks),
    chunks.map fun c => { c with referenceId := referenceId (uniqueFilePaths chunks) c })

/-- The path that the reference list gives for an id is the chunk's own, the ids are `1..n`, the
paths are distinct and each belongs to a chunk. -/
structure Cited (references : List Reference) (chunks : List Chunk) : Prop where
  numbered : references.map Reference.referenceId =
    (List.range references.length).map fun i => toString (i + 1)
  distinct : (references.map Reference.filePath).Nodup
  entry : ∀ c ∈ chunks, ∀ path, c.knownPath = some path → ⟨c.referenceId, path⟩ ∈ references
  unique : ∀ r ∈ references, ∀ r' ∈ references, r.referenceId = r'.referenceId → r = r'
  used : ∀ r ∈ references, ∃ c ∈ chunks,
    c.knownPath = some r.filePath ∧ c.referenceId = r.referenceId

theorem path_of_pathEntries {count : String → ℕ} {e : PathEntry} :
    ∀ {i seen} {chunks : List Chunk}, e ∈ pathEntries count i seen chunks →
      e.path ∉ seen ∧ ∃ c ∈ chunks, c.knownPath = some e.path := by
  intro i seen chunks hmem
  induction chunks generalizing i seen with
  | nil => simp [pathEntries] at hmem
  | cons c cs ih =>
    have hlater : ∀ {i' seen'}, e ∈ pathEntries count i' seen' cs →
        e.path ∉ seen' ∧ ∃ c' ∈ c :: cs, c'.knownPath = some e.path := by
      intro i' seen' hin
      obtain ⟨hnew,c',hc',hpath⟩ := ih hin
      exact ⟨hnew,c',mem_cons_of_mem c hc',hpath⟩
    cases hknown : c.knownPath with
    | none =>
      simp only [pathEntries,hknown] at hmem
      exact hlater hmem
    | some path =>
      simp only [pathEntries,hknown] at hmem
      by_cases hseen : path ∈ seen
      · rw [if_pos hseen] at hmem
        exact hlater hmem
      · rw [if_neg hseen] at hmem
        cases hmem with
        | head => exact ⟨hseen,c,mem_cons_self,hknown⟩
        | tail _ hin =>
          obtain ⟨hnew,hchunk⟩ := hlater hin
          exact ⟨fun hold => hnew (mem_cons_of_mem path hold),hchunk⟩

theorem nodup_pathEntries (count : String → ℕ) (chunks : List Chunk) :
    ∀ i seen, ((pathEntries count i seen chunks).map PathEntry.path).Nodup := by
  induction chunks with
  | nil => exact fun i seen => nodup_nil
  | cons c cs ih =>
    intro i seen
    cases hknown : c.knownPath with
    | none =>
      simp only [pathEntries,hknown]
      exact ih (i + 1) seen
    | some path =>
      simp only [pathEntries,hknown]
      by_cases hseen : path ∈ seen
      · rw [if_pos hseen]
        exact ih (i + 1) seen
      · rw [if_neg hseen,map_cons,nodup_cons]
        constructor
        · intro hmem
          obtain ⟨e,he,hpath⟩ := mem_map.mp hmem
          apply (path_of_pathEntries he).1
          rw [hpath]
          exact mem_cons_self
        · exact ih (i + 1) (path :: seen)

theorem mem_pathEntries {count : String → ℕ} {c : Chunk} {path : String}
    (hknown : c.knownPath = some path) :
    ∀ {i seen} {chunks : List Chunk}, c ∈ chunks → path ∉ seen →
      path ∈ (pathEntries count i seen chunks).map PathEntry.path := by
  intro i seen chunks hmem hnew
  induction chunks generalizing i seen with
  | nil => exact absurd hmem not_mem_nil
  | cons d ds ih =>
    cases hmem with
    | head =>
      simp only [pathEntries,hknown]
      rw [if_neg hnew]
      exact mem_cons_self
    | tail _ hin =>
      cases hd : d.knownPath with
      | none =>
        simp only [pathEntries,hd]
        exact ih hin hnew
      | some path' =>
        simp only [pathEntries,hd]
        by_cases hseen : path' ∈ seen
        · rw [if_pos hseen]
          exact ih hin hnew
        · rw [if_neg hseen]
          by_cases heq : path = path'
          · rw [heq]
            exact mem_cons_self
          · apply mem_cons_of_mem
            apply ih hin
            rw [mem_cons,not_or]
            exact ⟨heq,hnew⟩

theorem perm_uniqueFilePaths :
    (uniqueFilePaths chunks).Perm
      ((pathEntries (pathCount chunks) 0 [] chunks).map PathEntry.path) :=
  (perm_insertionSort _ _).map _

theorem nodup_uniqueFilePaths : (uniqueFilePaths chunks).Nodup :=
  (perm_uniqueFilePaths chunks).nodup_iff.mpr (nodup_pathEntries _ chunks 0 [])

theorem mem_uniqueFilePaths {chunks : List Chunk} {path : String} :
    path ∈ uniqueFilePaths chunks ↔ ∃ c ∈ chunks, c.knownPath = some path := by
  rw [(perm_uniqueFilePaths chunks).mem_iff]
  constructor
  · intro hmem
    obtain ⟨e,he,rfl⟩ := mem_map.mp hmem
    exact (path_of_pathEntries he).2
  · intro hchunk
    obtain ⟨c,hc,hknown⟩ := hchunk
    exact mem_pathEntries hknown hc not_mem_nil

theorem mem_referenceList {paths : List String} {r : Reference} :
    r ∈ referenceList paths ↔ ∃ i, ∃ h : i < paths.length, ⟨toString (i + 1), paths[i]⟩ = r := by
  exact mem_mapIdx

theorem map_filePath_referenceList (paths : List String) :
    (referenceList paths).map Reference.filePath = paths := by
  apply ext_getElem
  · simp [referenceList]
  · simp [referenceList]

theorem map_referenceId_referenceList (paths : List String) :
    (referenceList paths).map Reference.referenceId =
      (List.range (referenceList paths).length).map fun i => toString (i + 1) := by
  apply ext_getElem
  · simp [referenceList]
  · simp [referenceList]

theorem mem_referenceList_of_path {paths : List String} {path : String} (hmem : path ∈ paths) :
    ⟨toString (paths.idxOf path + 1), path⟩ ∈ referenceList paths := by
  have hlt : paths.idxOf path < paths.length := idxOf_lt_length_iff.mpr hmem
  refine mem_referenceList.mpr ⟨paths.idxOf path,hlt,?_⟩
  rw [getElem_idxOf hlt]

theorem referenceList_unique {paths : List String} {r r' : Reference}
    (hr : r ∈ referenceList paths) (hr' : r' ∈ referenceList paths)
    (heq : r.referenceId = r'.referenceId) : r = r' := by
  obtain ⟨i,hi,rfl⟩ := mem_referenceList.mp hr
  obtain ⟨j,hj,rfl⟩ := mem_referenceList.mp hr'
  have hij : i = j := by
    have hsucc : i + 1 = j + 1 := Framing.repr_injective heq
    omega
  subst hij
  rfl

@[simp] theorem knownPath_withReferenceId (c : Chunk) (id : String) :
    ({ c with referenceId := id } : Chunk).knownPath = c.knownPath := rfl

theorem cited_generateReferenceList :
    Cited (generateReferenceListFromChunks chunks).1 (generateReferenceListFromChunks chunks).2 where
  numbered := map_referenceId_referenceList (uniqueFilePaths chunks)
  distinct := by
    rw [generateReferenceListFromChunks,map_filePath_referenceList]
    exact nodup_uniqueFilePaths chunks
  entry := by
    intro c hc path hknown
    obtain ⟨c',hc',rfl⟩ := mem_map.mp hc
    rw [knownPath_withReferenceId] at hknown
    have hmem : path ∈ uniqueFilePaths chunks := mem_uniqueFilePaths.mpr ⟨c',hc',hknown⟩
    have hid : referenceId (uniqueFilePaths chunks) c' =
        toString ((uniqueFilePaths chunks).idxOf path + 1) := by
      simp only [referenceId,hknown]
    rw [hid]
    exact mem_referenceList_of_path hmem
  unique := fun r hr r' hr' heq => referenceList_unique hr hr' heq
  used := by
    intro r hr
    obtain ⟨i,hi,rfl⟩ := mem_referenceList.mp hr
    obtain ⟨c,hc,hknown⟩ := mem_uniqueFilePaths.mp (getElem_mem hi)
    refine ⟨_,mem_map.mpr ⟨c,hc,rfl⟩,hknown,?_⟩
    simp only [referenceId,hknown,(nodup_uniqueFilePaths chunks).idxOf_getElem i hi]

end LightRAG.QueryPrompt

/-!
## The chunks of a knowledge graph query

How the chunks that entities and relations come from are selected, and how they are merged with
the chunks of the vector search.
-/

namespace LightRAG.QueryPrompt

/-- A row of `text_chunks`. `headings` is its truncated path of parent headings. -/
structure ChunkRow where
  content : Option String
  filePath : Option String := none
  headings : String := ""
deriving DecidableEq

/-- A row that `chunks_vdb.query` returns. -/
structure VectorRow where
  id : Option String
  content : Option String
  filePath : Option String := none
deriving DecidableEq

inductive PickMethod
  | vector
  | weight
  | other
deriving DecidableEq

/-- What the comparison of a chunk's vector with the query's gives. -/
inductive Similarity
  | missing
  | failed
  | value (q : ℚ)
deriving DecidableEq

structure Stores where
  textChunks : String → Option ChunkRow
  pickMethod : PickMethod
  relatedChunkNumber : ℕ
  hasChunksVdb : Bool
  hasEmbeddingFunc : Bool
  similarities : Option (String → Similarity)
  enableContentHeadings : Bool

def graphFieldSep : List Char := ['<', 'S', 'E', 'P', '>']

/-- `re.split` at the separator, with the characters of a separator that are still to be skipped. -/
def splitAtSep : ℕ → List Char → List (List Char)
  | _, [] => [[]]
  | skip + 1, _ :: cs => splitAtSep skip cs
  | 0, c :: cs =>
    if graphFieldSep.isPrefixOf (c :: cs) then [] :: splitAtSep (graphFieldSep.length - 1) cs
    else
      match splitAtSep 0 cs with
      | [] => [[c]]
      | part :: parts => (c :: part) :: parts

/-- `split_string_by_multi_markers(source_id, [GRAPH_FIELD_SEP])` of a source id that is set. -/
def sourceChunks (sourceId : Option String) : List String :=
  match truthy sourceId with
  | none => []
  | some source =>
    ((splitAtSep 0 source.toList).map fun part => Text.strip (String.ofList part)).filter (· ≠ "")

def firstOccurrences : List String → List String → List String
  | _, [] => []
  | seen, id :: ids =>
    if id ∈ seen then firstOccurrences seen ids else id :: firstOccurrences (id :: seen) ids

/-- Each id stays with the first of the groups that has it. -/
def dedupGroups : List String → List (List String) → List (List String)
  | _, [] => []
  | seen, group :: groups =>
    firstOccurrences seen group :: dedupGroups (group ++ seen) groups

/-- `chunk_occurrence_count`, without the chunks that were already delivered. -/
def occurrences (delivered : List String) (groups : List (List String)) (id : String) : ℕ :=
  (groups.flatten.filter (· ∉ delivered)).count id

/-- The groups in `sorted_chunks`, after the removal of repeated and of delivered chunks. -/
def sortedGroups (delivered : List String) (groups : List (List String)) : List (List String) :=
  let nonempty := groups.filter (· ≠ [])
  ((dedupGroups delivered nonempty).filter (· ≠ [])).map fun group =>
    group.insertionSort fun a b =>
      occurrences delivered nonempty b ≤ occurrences delivered nonempty a

/-- The nearest integer to `a / d`, the even one when two are as near. -/
def roundHalfEven (a d : ℕ) : ℕ :=
  if 2 * (a % d) < d then a / d
  else if d < 2 * (a % d) then a / d + 1
  else if a / d % 2 = 0 then a / d else a / d + 1

/-- `expected_counts[i]` of `n` groups with `min_related_chunks = 1`. -/
def expectedCount (maxRelated n i : ℕ) : ℕ :=
  roundHalfEven (maxRelated * (n - 1) - i * (maxRelated - 1)) (n - 1)

/-- The chunk that the scan of the groups finds unused, and what it leaves. -/
def allocate : List (List String) → Option (String × List (List String))
  | [] => none
  | [] :: groups => (allocate groups).map fun found => (found.1, [] :: found.2)
  | (id :: ids) :: groups => some (id, ids :: groups)

def allocateRounds : ℕ → List (List String) → List String
  | 0, _ => []
  | n + 1, groups =>
    match allocate groups with
    | none => []
    | some found => found.1 :: allocateRounds n found.2

/-- The first round of the `i`th group and the later ones: the chunks taken, the chunks left and
the quota that was not used. -/
def firstRound (maxRelated n : ℕ) : ℕ → List (List String) → List String × List (List String) × ℕ
  | _, [] => ([], [], 0)
  | i, group :: groups =>
    let expected := expectedCount maxRelated n i
    let rest := firstRound maxRelated n (i + 1) groups
    (group.take expected ++ rest.1, group.drop expected :: rest.2.1,
      (expected - group.length) + rest.2.2)

def pickByWeightedPolling (groups : List (List String)) (maxRelated : ℕ) : List String :=
  match groups with
  | [] => []
  | [group] => group.take maxRelated
  | groups =>
    if maxRelated = 0 then []
    else
      let first := firstRound maxRelated groups.length 0 groups
      first.1 ++ allocateRounds first.2.2 first.2.1

def vectorChunkQuota (maxRelated groupCount : ℕ) : ℕ :=
  if maxRelated = 0 ∨ groupCount = 0 then 0 else max 1 (maxRelated * groupCount / 2)

def scored (similarity : String → Similarity) : List String → List (String × ℚ)
  | [] => []
  | id :: ids =>
    match similarity id with
    | .value q => (id, q) :: scored similarity ids
    | _ => scored similarity ids

def pickByVectorSimilarity (similarities : Option (String → Similarity)) (num : ℕ)
    (groups : List (List String)) : List String :=
  let all := firstOccurrences [] groups.flatten
  if num = 0 then []
  else
    match similarities with
    | none => all.take num
    | some similarity =>
      if all.any fun id => similarity id = .missing then []
      else (((scored similarity all).insertionSort fun a b => b.2 ≤ a.2).take num).map Prod.fst

variable (s : Stores)

/-- Step 4: the selection by vector similarity with the fallback to the weights. -/
def selectedChunkIds (groups : List (List String)) : List String :=
  let weighted := pickByWeightedPolling groups s.relatedChunkNumber
  match s.pickMethod with
  | .other => []
  | .weight => weighted
  | .vector =>
    if ¬s.hasChunksVdb then []
    else if ¬s.hasEmbeddingFunc then weighted
    else
      let picked := pickByVectorSimilarity s.similarities
        (vectorChunkQuota s.relatedChunkNumber groups.length) groups
      if picked = [] then weighted else picked

def storedChunks (ids : List String) : List Chunk :=
  (firstOccurrences [] ids).filterMap fun id =>
    match s.textChunks id with
    | some row =>
      row.content.map fun content => ⟨some content, row.filePath, some id, none, none, "", none⟩
    | none => none

/-- `_find_related_text_unit_from_entities` and `_find_related_text_unit_from_relations`, on the
source ids of the records and without the chunks that were already delivered. -/
def findRelatedTextUnits (delivered : List String) (sources : List (Option String)) :
    List Chunk :=
  storedChunks s (selectedChunkIds s (sortedGroups delivered (sources.map sourceChunks)))

def getVectorContext (rows : List VectorRow) : List Chunk :=
  rows.filterMap fun row => row.content.map fun content =>
    ⟨some content, some (row.filePath.getD "unknown_source"), row.id, none, none, "", none⟩

/-- `chunk.get("chunk_id") or chunk.get("id")`. -/
def Chunk.mergeId (c : Chunk) : Option String :=
  match truthy c.chunkId with
  | some id => some id
  | none => truthy c.id

def roundRobin (vectorChunks entityChunks relationChunks : List Chunk) : List Chunk :=
  (List.range (max vectorChunks.length (max entityChunks.length relationChunks.length))).flatMap
    fun i => vectorChunks[i]?.toList ++ entityChunks[i]?.toList ++ relationChunks[i]?.toList

def mergeSeen : List String → List Chunk → List Chunk
  | _, [] => []
  | seen, c :: cs =>
    match c.mergeId with
    | none => mergeSeen seen cs
    | some id =>
      if id ∈ seen then mergeSeen seen cs
      else
        ⟨c.content, some (c.filePath.getD "unknown_source"), some id, none, none, "", none⟩ ::
          mergeSeen (id :: seen) cs

def attachContentHeadings (c : Chunk) : Chunk :=
  if s.enableContentHeadings then
    match c.chunkId.bind s.textChunks with
    | some row => if row.headings = "" then c else { c with contentHeadings := some row.headings }
    | none => c
  else c

def mergeAllChunks (entitySources relationSources : List (Option String))
    (vectorChunks : List Chunk) : List Chunk :=
  let entityChunks := findRelatedTextUnits s [] entitySources
  let relationChunks :=
    findRelatedTextUnits s (entityChunks.filterMap fun c => truthy c.chunkId) relationSources
  (mergeSeen [] (roundRobin vectorChunks entityChunks relationChunks)).map (attachContentHeadings s)

end LightRAG.QueryPrompt
