import LightRAG.Chunking.Tokens

/-!
# Recursive character chunking

The split of a text along a cascade of separators, each piece with its place in the text, and the
greedy merge of the pieces.
-/

namespace LightRAG.Chunking

open Text (isSpace)

structure SpanPiece where
  text : Str
  start : ℕ
  stop : ℕ
deriving DecidableEq

/-- `RecursiveCharacterTextSplitter`'s own cascade. -/
def defaultSeparators : List Str := [['\n', '\n'], ['\n'], [' '], []]

/-- The starts of the matches of `re.finditer(re.escape(separator), text)`, from position `i` on;
`skip` characters are still covered by the last match. -/
def matchStarts (separator : Str) : (skip i : ℕ) → Str → List ℕ
  | _, _, [] => []
  | skip + 1, i, _ :: cs => matchStarts separator skip (i + 1) cs
  | 0, i, c :: cs =>
    if separator.isPrefixOf (c :: cs) then
      i :: matchStarts separator (separator.length - 1) (i + 1) cs
    else matchStarts separator 0 (i + 1) cs

/-- `text[a:b]` with its place in the source. -/
def spanPiece (text : Str) (base a b : ℕ) : SpanPiece where
  text := (text.drop a).take (b - a)
  start := base + a
  stop := base + b

/-- The pieces from `a` to each of the cuts and to the end of the text. -/
def piecesFrom (text : Str) (base : ℕ) : (a : ℕ) → List ℕ → List SpanPiece
  | a, [] => [spanPiece text base a text.length]
  | a, b :: cuts => spanPiece text base a b :: piecesFrom text base b cuts

def splitTextWithSpans (text separator : Str) (base : ℕ) : List SpanPiece :=
  if separator = [] then (List.range text.length).map fun i => spanPiece text base i (i + 1)
  else
    match matchStarts separator 0 0 text with
    | [] => if text = [] then [] else [⟨text, base, base + text.length⟩]
    | first :: starts =>
      let pieces := piecesFrom text base first starts
      let pieces := if 0 < first then spanPiece text base 0 first :: pieces else pieces
      pieces.filter fun p => p.text ≠ []

/-- `_join_span_pieces`: the stripped text of the pieces and its place, if it is not blank. -/
def joinSpanPieces (pieces : List SpanPiece) : Option SpanPiece :=
  let text := pieces.flatMap SpanPiece.text
  let offsets := pieces.flatMap fun p => List.range' p.start (p.stop - p.start)
  let left := (text.takeWhile isSpace).length
  let trimmed := strip text
  if trimmed = [] then none
  else some
    { text := trimmed
      start := offsets.getD left 0
      stop := offsets.getD (left + trimmed.length - 1) 0 + 1 }

/-- What a merge measures with: `length_function`, `chunk_size` and `chunk_overlap`. -/
structure Sizes where
  length : Str → ℕ
  chunkSize : ℕ
  chunkOverlap : ℕ

/-- The loop variables of `_merge_splits_with_spans`. -/
structure Merge where
  docs : List SpanPiece
  currentDoc : List SpanPiece
  total : ℕ

def mergeSeparator : Str := []

namespace Sizes

variable (z : Sizes)

/-- `separator_len if len(current_doc) > n else 0`. -/
def separatorLen (doc : List SpanPiece) (n : ℕ) : ℕ :=
  if n < doc.length then z.length mergeSeparator else 0

/-- The `while` that takes pieces off the front of the current document: what stays is within the
overlap and leaves room for the next piece. -/
def dropFront (splitLen : ℕ) : List SpanPiece → ℕ → List SpanPiece × ℕ
  | [], total => ([], total)
  | p :: doc, total =>
    if z.chunkOverlap < total ∨
        (z.chunkSize < total + splitLen + z.separatorLen (p :: doc) 0 ∧ 0 < total) then
      dropFront splitLen doc (total - (z.length p.text + z.separatorLen (p :: doc) 1))
    else (p :: doc, total)

def flush (splitLen : ℕ) (m : Merge) : Merge :=
  if m.currentDoc = [] then m
  else
    let kept := z.dropFront splitLen m.currentDoc m.total
    { docs := m.docs ++ (joinSpanPieces m.currentDoc).toList, currentDoc := kept.1, total := kept.2 }

def mergeStep (m : Merge) (split : SpanPiece) : Merge :=
  let splitLen := z.length split.text
  let m := if z.chunkSize < m.total + splitLen + z.separatorLen m.currentDoc 0 then
      z.flush splitLen m
    else m
  let doc := m.currentDoc ++ [split]
  { m with currentDoc := doc, total := m.total + splitLen + z.separatorLen doc 1 }

def mergeSplits (splits : List SpanPiece) : List SpanPiece :=
  let m := splits.foldl z.mergeStep ⟨[], [], 0⟩
  m.docs ++ (joinSpanPieces m.currentDoc).toList

/-- `if good_splits: final_chunks.extend(_merge_splits_with_spans(good_splits, …))`. -/
def mergeGood (good : List SpanPiece) : List SpanPiece :=
  if good = [] then [] else z.mergeSplits good

/-- The loop over the splits of one separator: small ones are gathered and merged, a large one is
split further by `deeper`. -/
def collect (deeper : SpanPiece → List SpanPiece) :
    (good splits : List SpanPiece) → List SpanPiece
  | good, [] => z.mergeGood good
  | good, split :: splits =>
    if z.length split.text < z.chunkSize then collect deeper (good ++ [split]) splits
    else z.mergeGood good ++ deeper split ++ collect deeper [] splits

/-- Whether `re.search(re.escape(separator), text)` finds the separator. -/
def occurs (separator text : Str) : Bool := !(matchStarts separator 0 0 text).isEmpty

/-- `_split_text_with_spans`. The recursion goes down the cascade: the empty separator splits into
characters, the last separator is used even if it does not occur, and a separator that opens the
text and does not occur again is passed over. -/
def splitText : (separators : List Str) → (text : Str) → (base : ℕ) → List SpanPiece
  | [], _, _ => []
  | candidate :: rest, text, base =>
    let splits := splitTextWithSpans text candidate base
    if candidate = [] then z.collect (fun p => [p]) [] splits
    else if occurs candidate text then
      if rest ≠ [] ∧ splits = [⟨text, base, base + text.length⟩] then splitText rest text base
      else z.collect (fun p => if rest = [] then [p] else splitText rest p.text p.start) [] splits
    else if rest = [] then z.collect (fun p => [p]) [] splits
    else splitText rest text base

end Sizes

/-- One row of the result of `chunking_by_recursive_character`. -/
structure TextChunk where
  tokens : ℕ
  content : Str
  chunkOrderIndex : ℕ
  span : ℕ × ℕ
deriving DecidableEq

variable {τ : Type}

/-- One piece as a row: its stripped text, unless that is empty. -/
def SpanPiece.trimmed (p : SpanPiece) : Option SpanPiece :=
  if strip p.text = [] then none
  else
    let left := (p.text.takeWhile isSpace).length
    some
      { text := strip p.text
        start := p.start + left
        stop := p.stop - (p.text.length - (left + (strip p.text).length)) }

def TextChunk.ofPiece (t : Tokenizer τ) (p : SpanPiece) (index : ℕ) : TextChunk where
  tokens := t.length p.text
  content := p.text
  chunkOrderIndex := index
  span := (p.start, p.stop)

def chunkingByRecursiveCharacter (t : Tokenizer τ) (content : Str) (chunkTokenSize : ℕ)
    (chunkOverlapTokenSize : ℕ) (separators : List Str) : List TextChunk :=
  if isBlank content then []
  else
    let sizes : Sizes := ⟨t.length, max chunkTokenSize 1, chunkOverlapTokenSize⟩
    let pieces := sizes.splitText separators content 0
    let results := (pieces.filterMap SpanPiece.trimmed).mapIdx fun i p => TextChunk.ofPiece t p i
    if results = [] then
      let left := (content.takeWhile isSpace).length
      [TextChunk.ofPiece t ⟨strip content, left, left + (strip content).length⟩ 0]
    else results

def boundedOverlap (targetMax chunkOverlapTokenSize : ℕ) : ℕ :=
  if targetMax ≤ 1 then 0 else min chunkOverlapTokenSize (targetMax - 1)

def characterSplitText (t : Tokenizer τ) (text : Str) (targetMax chunkOverlapTokenSize : ℕ) :
    List Str :=
  (chunkingByRecursiveCharacter t text targetMax (boundedOverlap targetMax chunkOverlapTokenSize)
    defaultSeparators).map TextChunk.content

end LightRAG.Chunking
