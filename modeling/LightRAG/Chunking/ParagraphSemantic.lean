import LightRAG.Chunking.AnchorSplit
import LightRAG.Framework.Loop

/-!
# HeadingGlue

A heading without a body travels with the deeper block after it.
-/

namespace LightRAG.Chunking

variable {τ α : Type}

/-- `_merged_pair` with `keep="left"`. -/
def mergedPair (t : Tokenizer τ) (left right : Block) : Block :=
  let content := left.content ++ '\n' :: '\n' :: right.content
  { left with
    paragraphs := left.paragraphs ++ right.paragraphs
    content := content
    tokens := t.countTokens content
    tableChunkRole := .none
    blockids := dedupPreservingOrder (left.blockids ++ right.blockids)
    parts := left.parts ++ right.parts }

def isHeadingOnly (b : Block) : Bool :=
  let lines := (Text.split '\n' b.content).filter fun line => !isBlank line
  b.heading ≠ [] && !lines.isEmpty && lines.all isHeadingLine

def headingPrefix (paragraphs : List Paragraph) : List Paragraph :=
  paragraphs.takeWhile fun p => !p.isTable && isHeadingLine p.text

def bodyOf (paragraphs : List Paragraph) : List Paragraph :=
  paragraphs.dropWhile fun p => !p.isTable && isHeadingLine p.text

section

variable (e : Env τ α)

def prefixTokens (paragraphs : List Paragraph) : ℕ :=
  e.tokenizer.countTokens (joinParagraphs (headingPrefix paragraphs)) +
    e.tokenizer.countTokens ['\n']

variable (c : Caps)

def keepsPrefix (paragraphs : List Paragraph) : Bool :=
  headingPrefix paragraphs ≠ [] && bodyOf paragraphs ≠ [] &&
    prefixTokens e paragraphs < c.targetMax

def orElse (blockids fallback : List Str) : List Str :=
  if blockids = [] then fallback else blockids

theorem orElse_self (ids : List Str) : orElse ids ids = ids := by
  rw [orElse]
  split <;> rfl

def reducedMax (paragraphs : List Paragraph) : ℕ :=
  max (c.targetMax - prefixTokens e paragraphs) 1

def reducedCaps (paragraphs : List Paragraph) : Caps where
  targetMax := reducedMax e c paragraphs
  targetIdeal := min c.targetIdeal (reducedMax e c paragraphs)
  overlap := c.overlap

/-- `_split_full(first["paragraphs"], block, target_max=reduced_max, …)` -/
def refit (block first : Block) : Except CrossFormat (List Block) :=
  splitLongBlock e (reducedCaps e c block.paragraphs)
    { block.frame with blockids := orElse first.blockids block.blockids } first.paragraphs
    block.tableChunkRole false

def rebuilt (block first : Block) : Block :=
  newBlock e.tokenizer { block.frame with blockids := orElse first.blockids block.blockids }
    (headingPrefix block.paragraphs ++ first.paragraphs) block.tableChunkRole false

def splitToCap (block : Block) : Except CrossFormat (List Block) :=
  if keepsPrefix e c block.paragraphs then do
    let pieces ← splitLongBlock e c block.frame (bodyOf block.paragraphs) block.tableChunkRole false
    match pieces with
    | [] => return []
    | first :: rest =>
      if c.targetMax < prefixTokens e block.paragraphs + first.tokens then
        match ← refit e c block first with
        | [] => return []
        | first :: more => return rebuilt e block first :: (more ++ rest)
      else return rebuilt e block first :: rest
  else splitLongBlock e c block.frame block.paragraphs block.tableChunkRole false

def emit (glued : Bool) (block : Block) : Except CrossFormat (List Block) :=
  if glued ∧ c.targetMax < block.tokens then splitToCap e c block else .ok [block]

def glues (cur next : Block) : Bool :=
  isHeadingOnly cur && !cur.isTitleBlock && !next.isTitleBlock && cur.level < next.level &&
    (next.tableChunkRole = .none || next.tableChunkRole = .first)

def gluedPair (cur next : Block) : Block :=
  { mergedPair e.tokenizer cur next with tableChunkRole := next.tableChunkRole }

/-- The loop of `_glue_heading_only_blocks`: the groups it emits, with whether they were glued. -/
def glueGroups : (cur : Block) → (glued : Bool) → List Block → List (Block × Bool)
  | cur, glued, [] => [(cur, glued)]
  | cur, glued, next :: blocks =>
    if glues cur next then glueGroups (gluedPair e cur next) true blocks
    else (cur, glued) :: glueGroups next false blocks

def glueHeadingOnlyBlocks : List Block → Except CrossFormat (List Block)
  | [] => .ok []
  | [b] => .ok [b]
  | b :: blocks => do
    let parts ← (glueGroups e b false blocks).mapM fun group => emit e c group.2 group.1
    return parts.flatten

end

end LightRAG.Chunking

/-!
## LevelMerge

Small blocks are merged with their neighbours, level by level from the deepest: with blocks of their
level, by an absorption of the short tail after a large block, and into shallower blocks.
-/

namespace LightRAG.Chunking

variable {τ α : Type}

/-- `_can_merge_forward` and `_can_merge_backward`. -/
def canMerge (role : Role) : Bool := role = .none

def sameParentPath (a b : Block) : Bool := a.parentHeadings = b.parentHeadings

def isDescendant (isDigit : Char → Bool) (shallow deep : Block) : Bool :=
  let head := stripGeneratedHeadingSuffixes isDigit shallow.heading
  let full := shallow.parentHeadings ++ if head = [] then [] else [head]
  deep.parentHeadings.take full.length = full

section

variable (e : Env τ α) (z : Targets) (level : ℤ)

def belowIdeal (b : Block) : Bool := 0 < b.tokens && b.tokens < z.targetIdeal

def fitting (b : Block) : Option Block := if b.tokens ≤ z.targetMax then some b else none

def mergeForward (joins : Block → Block → Bool) (cur : Block) : List Block → Option Block
  | [] => none
  | next :: _ => if joins cur next then fitting z (mergedPair e.tokenizer cur next) else none

/-- The merge of a block with the last one of `new_result`. -/
def mergeBackward (joins : Block → Block → Bool) (cur : Block) : List Block → Option Block
  | [] => none
  | prev :: _ => if joins prev cur then fitting z (mergedPair e.tokenizer prev cur) else none

def joinsForward (cur next : Block) : Bool :=
  canMerge cur.tableChunkRole && next.level = level && !next.isTitleBlock &&
    canMerge next.tableChunkRole && sameParentPath cur next

def joinsBackward (prev cur : Block) : Bool :=
  canMerge cur.tableChunkRole && prev.level = level && !prev.isTitleBlock &&
    canMerge prev.tableChunkRole && prev.tokens < z.targetIdeal && sameParentPath prev cur

def tailRun (cur : Block) (rest : List Block) : List Block :=
  rest.takeWhile fun next =>
    next.level = level && next.tableChunkRole = .none && !next.isTitleBlock &&
      sameParentPath cur next

def absorbed (cur : Block) (run : List Block) : Block :=
  let content := run.foldl (fun text b => text ++ '\n' :: '\n' :: b.content) cur.content
  { heading := cur.heading
    parentHeadings := cur.parentHeadings
    level := cur.level
    paragraphs := cur.paragraphs ++ run.flatMap Block.paragraphs
    content := content
    tokens := e.tokenizer.countTokens content
    tableChunkRole := .none
    isTitleBlock := false
    blockids := []
    parts := (cur :: run).flatMap fun b => b.parts.map fun p => { p with swallowed := true } }

def absorbTail (cur : Block) (rest : List Block) : Option Block :=
  let run := tailRun level cur rest
  let tailTotal := (run.map Block.tokens).sum
  if cur.level = level ∧ z.targetIdeal ≤ cur.tokens ∧ cur.tableChunkRole = .none ∧
      cur.isTitleBlock = false ∧ 0 < tailTotal ∧ tailTotal < z.smallTailThreshold ∧
      cur.tokens + tailTotal ≤ z.targetMax then
    fitting z (absorbed e cur run)
  else none

/-- One round of Phase A: `done` is `new_result`, its last block first, and `skip` blocks are
already merged. -/
def phaseA : (skip : ℕ) → (done : List Block) → List Block → List Block × Bool
  | _, done, [] => (done.reverse, false)
  | skip + 1, done, _ :: rest => phaseA skip done rest
  | 0, done, cur :: rest =>
    if belowIdeal z cur ∧ cur.level = level ∧ cur.isTitleBlock = false then
      match mergeForward e z (joinsForward level) cur rest with
      | some b => ((phaseA 1 (b :: done) rest).1, true)
      | none =>
        match mergeBackward e z (joinsBackward z level) cur done with
        | some b => ((phaseA 0 (b :: done.tail) rest).1, true)
        | none => phaseA 0 (cur :: done) rest
    else
      match absorbTail e z level cur rest with
      | some b => ((phaseA (tailRun level cur rest).length (b :: done) rest).1, true)
      | none => phaseA 0 (cur :: done) rest

def absorbsForward (cur next : Block) : Bool :=
  canMerge cur.tableChunkRole && level < next.level && !next.isTitleBlock &&
    canMerge next.tableChunkRole && isDescendant e.isDigit cur next

def absorbsBackward (prev cur : Block) : Bool :=
  canMerge cur.tableChunkRole && prev.level < level && canMerge prev.tableChunkRole &&
    prev.tokens < z.targetIdeal && isDescendant e.isDigit prev cur

def phaseB : (skip : ℕ) → (done : List Block) → List Block → List Block × Bool
  | _, done, [] => (done.reverse, false)
  | skip + 1, done, _ :: rest => phaseB skip done rest
  | 0, done, cur :: rest =>
    if belowIdeal z cur ∧ cur.level = level then
      match mergeForward e z (absorbsForward e level) cur rest with
      | some b => ((phaseB 1 (b :: done) rest).1, true)
      | none =>
        match mergeBackward e z (absorbsBackward e z level) cur done with
        | some b => ((phaseB 0 (b :: done.tail) rest).1, true)
        | none => phaseB 0 (cur :: done) rest
    else phaseB 0 (cur :: done) rest

end

def levelsOf (blocks : List Block) : List ℤ :=
  (blocks.map Block.level).dedup.insertionSort fun a b => b ≤ a

/-- Both phases at one level. Every change merges blocks, so there are fewer rounds than blocks. -/
def mergeLevel (e : Env τ α) (z : Targets) (blocks : List Block) (level : ℤ) : List Block :=
  let blocks := Stable.untilStable (phaseA e z level 0 []) blocks.length blocks
  Stable.untilStable (phaseB e z level 0 []) blocks.length blocks

def mergeSmallBlocks (e : Env τ α) (z : Targets) (blocks : List Block) : List Block :=
  if blocks.length ≤ 1 then blocks
  else (levelsOf blocks).foldl (mergeLevel e z) blocks

end LightRAG.Chunking

/-!
## Paragraph-semantic chunking

The chunks of a document from the content rows of its `blocks.jsonl`.
-/

namespace LightRAG.Chunking

open Text (isSpace)

variable {τ α : Type}

structure ContentRow where
  content : Str
  heading : Str
  parentHeadings : List Str
  level : ℤ
  blockid : Str
  isTitleBlock : Bool
deriving DecidableEq

/-- `str(row.get("blockid") or "").strip()` -/
def ContentRow.id (row : ContentRow) : Str := strip row.blockid

/-- What the reference check takes from `str`. -/
structure Folding where
  casefold : Str → Str
  isAlnum : Char → Bool

def isReferenceHeading (f : Folding) (heading : Str) (prefixes : List Str) : Bool :=
  let low := f.casefold (strip heading)
  low ≠ [] && prefixes.any fun text =>
    let folded := f.casefold (strip text)
    strip text ≠ [] && folded.isPrefixOf low &&
      !((strip text).all (fun c => c.toNat < 128) &&
        ((low.drop folded.length).head?.any f.isAlnum))

structure References where
  folding : Folding
  prefixes : List Str
  tailN : ℕ

/-- The rows without the reference blocks, unless nothing would be left. -/
def dropReferences (r : References) (rows : List ContentRow) : List ContentRow :=
  let start := if r.tailN = 0 then 0 else rows.length - r.tailN
  let dropped (i : ℕ) (row : ContentRow) : Bool :=
    start ≤ i && isReferenceHeading r.folding row.heading r.prefixes
  let kept := ((rows.mapIdx fun i row => (dropped i row, row)).filter fun p => !p.1).map Prod.snd
  if kept.length < rows.length ∧ kept.any fun row => !isBlank row.content then kept else rows

structure Options where
  chunkTokenSize : ℤ
  chunkOverlapTokenSize : ℤ
  references : Option References

/-- The sizes derived from `chunk_token_size`. -/
def Options.targets (o : Options) : Targets :=
  let targetMax := max o.chunkTokenSize.toNat 1
  let tableMax := max (targetMax * 5 / 8) 1
  { targetMax := targetMax
    targetIdeal := max (targetMax * 3 / 4) 1
    tableMax := tableMax
    tableIdeal := max (targetMax * 3 / 8) 1
    tableMinLast := max (tableMax * 8 / 25) 1
    smallTailThreshold := max (targetMax / 8) 1
    overlap := boundedOverlap targetMax o.chunkOverlapTokenSize.toNat }

def Targets.caps (z : Targets) : Caps := ⟨z.targetMax, z.targetIdeal, z.overlap⟩

def initialBlock (t : Tokenizer τ) (row : ContentRow) : Option Block :=
  if isBlank row.content then none
  else
    let paragraphs := blockToParagraphs row.id row.content
    if paragraphs = [] then none
    else some (newBlock t
      { heading := row.heading
        parentHeadings := row.parentHeadings
        level := if row.isTitleBlock then 0 else if row.level = 0 then 1 else row.level
        blockids := if row.id = [] then [] else [row.id] }
      paragraphs .none row.isTitleBlock)

def splitRow (e : Env τ α) (z : Targets) (tableHeaders : Str → Option Str) (block : Block) :
    Except CrossFormat (List Block) := do
  let expanded ← expandBlockWithTableSplits e z block tableHeaders
  let parts ← expanded.mapM fun b =>
    splitLongBlock e z.caps { b.frame with blockids := orElse b.blockids block.blockids }
      b.paragraphs b.tableChunkRole b.isTitleBlock
  return applyPartSuffixes e.isDigit parts.flatten

def splitRows (e : Env τ α) (z : Targets) (tableHeaders : Str → Option Str)
    (rows : List ContentRow) : Except CrossFormat (List Block) := do
  let parts ← (rows.filterMap (initialBlock e.tokenizer)).mapM (splitRow e z tableHeaders)
  return parts.flatten

def finalBlocks (e : Env τ α) (z : Targets) (tableHeaders : Str → Option Str)
    (rows : List ContentRow) : Except CrossFormat (List Block) := do
  let blocks ← splitRows e z tableHeaders rows
  let glued ← glueHeadingOnlyBlocks e z.caps blocks
  return mergeSmallBlocks e z glued

structure ChunkHeading where
  level : ℤ
  heading : Str
  parentHeadings : List Str
deriving DecidableEq

/-- `chunk["sidecar"]`: the ids of the blocks, of which `id` is the first. -/
structure Sidecar where
  id : Str
  refs : List Str
deriving DecidableEq

structure Chunk where
  tokens : ℕ
  content : Str
  chunkOrderIndex : ℕ
  heading : Option ChunkHeading
  sidecar : Option Sidecar
deriving DecidableEq

def chunkOf (index : ℕ) (b : Block) : Option Chunk :=
  if strip b.content = [] then none
  else some
    { tokens := b.tokens
      content := strip b.content
      chunkOrderIndex := index
      heading := some ⟨b.level, b.heading, b.parentHeadings⟩
      sidecar := b.blockids.head?.map fun id => ⟨id, b.blockids⟩ }

def chunksOf (blocks : List Block) : List Chunk := (blocks.mapIdx chunkOf).filterMap fun c => c

def TextChunk.toChunk (c : TextChunk) : Chunk where
  tokens := c.tokens
  content := c.content
  chunkOrderIndex := c.chunkOrderIndex
  heading := none
  sidecar := none

/-- `chunking_by_paragraph_semantic`, with the content rows and the table headers read from the
files. Without content rows the text of the document is chunked instead. -/
def chunkingByParagraphSemantic (e : Env τ α) (o : Options) (tableHeaders : Str → Option Str)
    (content : Str) (rows : List ContentRow) : Except CrossFormat (List Chunk) :=
  let z := o.targets
  if rows = [] then
    .ok ((chunkingByRecursiveCharacter e.tokenizer content z.targetMax z.overlap
      defaultSeparators).map TextChunk.toChunk)
  else do
    let rows := match o.references with
      | some r => dropReferences r rows
      | none => rows
    return chunksOf (← finalBlocks e z tableHeaders rows)

end LightRAG.Chunking
