import LightRAG.Chunking.TableRowSplit
import Mathlib.Data.List.MinMax
import Mathlib.Data.List.Sort

/-!
# AnchorSplit

The split of a block over the cap at its short paragraphs and, where it has none, at its tables'
rows, at its paragraphs and at last at its characters.
-/

namespace LightRAG.Chunking

variable {τ α : Type}

def maxAnchorCandidateLength : ℕ := 100

structure Anchor where
  index : ℕ
  text : Str
  position : ℕ
deriving DecidableEq

structure Caps where
  targetMax : ℕ
  targetIdeal : ℕ
  overlap : ℕ

section

variable (e : Env τ α)

/-- The anchor candidates: short paragraphs that are no tables, the first paragraph excepted. -/
def candidatesFrom : (index cumulative : ℕ) → List Paragraph → List Anchor
  | _, _, [] => []
  | index, cumulative, p :: ps =>
    let rest := candidatesFrom (index + 1) (cumulative + e.tokenizer.countTokens p.text) ps
    if 0 < index ∧ p.isTable = false ∧ 0 < p.text.length ∧
        p.text.length ≤ maxAnchorCandidateLength then
      ⟨index, p.text, cumulative⟩ :: rest
    else rest

/-- The candidates closest to the evenly spaced positions, `left` of them from the `i`-th on. -/
def pickAnchors (total targetBlocks : ℕ) : (left i : ℕ) → (pool : List Anchor) → List Anchor
  | 0, _, _ => []
  | left + 1, i, pool =>
    match pool.argmin fun c => e.floats.distance c.position i total targetBlocks with
    | none => []
    | some best => best :: pickAnchors total targetBlocks left (i + 1) (pool.erase best)

def selectAnchors (total targetBlocks : ℕ) (candidates : List Anchor) : List Anchor :=
  (pickAnchors e total targetBlocks (targetBlocks - 1) 1 candidates).insertionSort
    fun a b => a.index ≤ b.index

structure Piece where
  text : Str
  rows : List Str

def textsOf (c : Caps) (p : Paragraph) : Except CrossFormat (List Str) :=
  if p.isTable ∧ c.targetMax < e.tokenizer.countTokens p.text then
    splitTableText e p.text c.targetMax c.targetIdeal (max (c.targetMax * 8 / 25) 1) none
  else .ok [p.text]

/-- Step 1: the pieces a block without anchors is packed from. -/
def piecesOf (c : Caps) : List Paragraph → Except CrossFormat (List Piece)
  | [] => .ok []
  | p :: ps => do
    let texts ← textsOf e c p
    let rest ← piecesOf c ps
    return texts.map (⟨·, p.rows⟩) ++ rest

def joinPieces (buf : List Piece) : Piece :=
  ⟨joinLines (buf.map Piece.text), buf.flatMap Piece.rows⟩

def cutPiece (c : Caps) (p : Piece) : List Piece :=
  (characterSplitText e.tokenizer p.text c.targetMax c.overlap).map (⟨·, p.rows⟩)

/-- Step 2: greedy packing. `bufTokens` counts the buffer with its separators. -/
def packPieces (c : Caps) : (buf : List Piece) → (bufTokens : ℕ) → List Piece → List Piece
  | buf, _, [] => if buf = [] then [] else [joinPieces buf]
  | buf, bufTokens, p :: ps =>
    let t := e.tokenizer
    let tokens := t.countTokens p.text
    if c.targetMax < tokens then
      (if buf = [] then [] else [joinPieces buf]) ++ cutPiece e c p ++ packPieces c [] 0 ps
    else
      let addition := tokens + if buf = [] then 0 else t.countTokens ['\n']
      if buf ≠ [] ∧ c.targetMax < bufTokens + addition then
        joinPieces buf :: packPieces c [p] tokens ps
      else packPieces c (buf ++ [p]) (bufTokens + addition) ps

def pieceBlocks (frame : Frame) (role : Role) (isTitleBlock : Bool) (pieces : List Piece) :
    List Block :=
  pieces.mapIdx fun i p =>
    newBlock e.tokenizer frame [⟨p.text, isTableParagraph p.text, p.rows⟩]
      (if i = 0 then role else .none) (isTitleBlock && i = 0)

/-- The branch of `_split_long_block` without anchors. -/
def splitWithoutAnchors (c : Caps) (frame : Frame) (paragraphs : List Paragraph) (role : Role)
    (isTitleBlock : Bool) : Except CrossFormat (List Block) := do
  let pieces ← piecesOf e c paragraphs
  let packed := packPieces e c [] 0 pieces
  if packed = [] then return [newBlock e.tokenizer frame paragraphs role isTitleBlock]
  else return pieceBlocks e frame role isTitleBlock packed

/-- The blocks between the anchors, from paragraph `prev` on; `current` is the frame of the block
that is open. -/
def anchorBlocks (frame : Frame) (paragraphs : List Paragraph) (isTitleBlock : Bool) :
    (current : Frame) → (role : Role) → (prev : ℕ) → (firstFrag : Bool) → List Anchor → List Block
  | current, role, prev, firstFrag, [] =>
    let tail := paragraphs.drop prev
    if tail = [] then []
    else [newBlock e.tokenizer current tail role (isTitleBlock && firstFrag)]
  | current, role, prev, firstFrag, anchor :: anchors =>
    let slice := (paragraphs.drop prev).take (anchor.index - prev)
    let parents :=
      if frame.heading ≠ [] ∧ current.heading = frame.heading then
        frame.parentHeadings ++ [frame.heading]
      else current.parentHeadings
    let next := { frame with heading := anchor.text, parentHeadings := parents }
    if slice = [] then
      anchorBlocks frame paragraphs isTitleBlock next .none anchor.index firstFrag anchors
    else
      newBlock e.tokenizer current slice role (isTitleBlock && firstFrag) ::
        anchorBlocks frame paragraphs isTitleBlock next .none anchor.index false anchors

/-- `_split_long_block`, with as much recursion as `fuel` gives. -/
def splitLongBlockFuel (c : Caps) : (fuel : ℕ) → (frame : Frame) → (paragraphs : List Paragraph) →
    (role : Role) → (isTitleBlock : Bool) → Except CrossFormat (List Block)
  | 0, frame, paragraphs, role, isTitleBlock =>
    .ok [newBlock e.tokenizer frame paragraphs role isTitleBlock]
  | fuel + 1, frame, paragraphs, role, isTitleBlock =>
    let total := e.tokenizer.countTokens (joinParagraphs paragraphs)
    if total ≤ c.targetMax then
      .ok [newBlock e.tokenizer frame paragraphs role isTitleBlock]
    else
      let targetBlocks := max (ceilDiv total c.targetIdeal) (ceilDiv total c.targetMax)
      let candidates := candidatesFrom e 0 0 paragraphs
      if candidates = [] then splitWithoutAnchors e c frame paragraphs role isTitleBlock
      else do
        let subs := anchorBlocks e frame paragraphs isTitleBlock frame role 0 true
          (selectAnchors e total targetBlocks candidates)
        let parts ← subs.mapM fun sub =>
          if c.targetMax < sub.tokens then
            splitLongBlockFuel c fuel
              { sub.frame with
                blockids := if sub.blockids = [] then frame.blockids else sub.blockids }
              sub.paragraphs sub.tableChunkRole sub.isTitleBlock
          else .ok [sub]
        return parts.flatten

/-- `_split_long_block`. Every block between two anchors has fewer paragraphs than the block. -/
def splitLongBlock (c : Caps) (frame : Frame) (paragraphs : List Paragraph) (role : Role)
    (isTitleBlock : Bool) : Except CrossFormat (List Block) :=
  splitLongBlockFuel e c paragraphs.length frame paragraphs role isTitleBlock

end

end LightRAG.Chunking
