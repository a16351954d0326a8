import LightRAG.Chunking.RecursiveCharacter
import Mathlib.Algebra.Order.Field.Rat

/-!
# Blocks

The blocks the paragraph-semantic chunker works on, their headings, and what the chunker takes from
outside: the tokenizer, `json`, the character classes of `re` and `str`, and the arithmetic of
`float`.
-/

namespace LightRAG.Chunking

open Text (isSpace)

/-- `json` on the values a table is made of. `loads` gives the list a text stands for, and nothing
for a text that does not parse or is not a list. -/
structure Json (α : Type) where
  loads : Str → Option (List α)
  dumps : List α → Str
  same : List α → List α → Bool

/-- The places where the chunker computes in `float`. -/
structure Floats where
  /-- `abs(position - i * (total / target_blocks))` -/
  distance : (position i total targetBlocks : ℕ) → ℚ
  /-- `int((i + 1) * (rows / target_chunks))` -/
  rowEnd : (i rows targetChunks : ℕ) → ℕ
  /-- `remaining < rows / target_chunks * 0.3` -/
  shortRest : (remaining rows targetChunks : ℕ) → Bool

def Floats.exact : Floats where
  distance position i total targetBlocks := |(position : ℚ) - i * (total / targetBlocks)|
  rowEnd i rows targetChunks := (i + 1) * rows / targetChunks
  shortRest remaining rows targetChunks := remaining * targetChunks * 10 < rows * 3

structure Env (τ α : Type) where
  tokenizer : Tokenizer τ
  json : Json α
  floats : Floats
  isWord : Char → Bool
  isDigit : Char → Bool

inductive Role
  | none
  | first
  | middle
  | last
deriving DecidableEq

/-- A paragraph. `rows` are the content rows it was made from; the chunker has no such field and
nothing reads it. -/
structure Paragraph where
  text : Str
  isTable : Bool
  rows : List Str
deriving DecidableEq

/-- One of the blocks a block was merged from: its ids, the rows of its paragraphs, and whether a
tail absorption took it. -/
structure Part where
  ids : List Str
  rows : List Str
  swallowed : Bool
deriving DecidableEq

/-- A block. `parts` is the history of its merges; the chunker has no such field and nothing reads
it. -/
structure Block where
  heading : Str
  parentHeadings : List Str
  level : ℤ
  paragraphs : List Paragraph
  content : Str
  tokens : ℕ
  tableChunkRole : Role
  isTitleBlock : Bool
  blockids : List Str
  parts : List Part
deriving DecidableEq

/-- The values seen already are left out; so are empty ones. -/
def dedupAfter : (seen values : List Str) → List Str
  | _, [] => []
  | seen, v :: values =>
    if v ≠ [] ∧ v ∉ seen then v :: dedupAfter (v :: seen) values else dedupAfter seen values

def dedupPreservingOrder (values : List Str) : List Str := dedupAfter [] values

def joinParagraphs (paragraphs : List Paragraph) : Str := joinLines (paragraphs.map Paragraph.text)

/-- What a block takes over from the block it is cut from. -/
structure Frame where
  heading : Str
  parentHeadings : List Str
  level : ℤ
  blockids : List Str

def Block.frame (b : Block) : Frame := ⟨b.heading, b.parentHeadings, b.level, b.blockids⟩

variable {τ α : Type}

def newBlock (t : Tokenizer τ) (frame : Frame) (paragraphs : List Paragraph) (role : Role)
    (isTitleBlock : Bool) : Block where
  heading := frame.heading
  parentHeadings := frame.parentHeadings
  level := frame.level
  paragraphs := paragraphs
  content := joinParagraphs paragraphs
  tokens := t.countTokens (joinParagraphs paragraphs)
  tableChunkRole := role
  isTitleBlock := isTitleBlock
  blockids := dedupPreservingOrder frame.blockids
  parts := [⟨dedupPreservingOrder frame.blockids, paragraphs.flatMap Paragraph.rows, false⟩]

/-- Whether a stripped text starts with `<table ` and ends with `</table>`. -/
def isTableParagraph (text : Str) : Bool :=
  ['<', 't', 'a', 'b', 'l', 'e', ' '].isPrefixOf (strip text) &&
    ['<', '/', 't', 'a', 'b', 'l', 'e', '>'].isSuffixOf (strip text)

def blockToParagraphs (blockid : Str) (content : Str) : List Paragraph :=
  ((Text.split '\n' content).filter fun line => !isBlank line).map fun line =>
    ⟨line, isTableParagraph line, [blockid]⟩

/-- `^#{1,6} +` at the start of a stripped text. -/
def isHeadingLine (text : Str) : Bool :=
  let stripped := strip text
  let marks := (stripped.takeWhile (· = '#')).length
  1 ≤ marks && marks ≤ 6 && (stripped.drop marks).head? = some ' '

def beforeLiteral (literal : Str) (reversed : Str) : Option Str :=
  if literal.reverse.isPrefixOf (reversed.map Char.toLower) then
    some (reversed.drop literal.length)
  else none

variable (isDigit : Char → Bool)

/-- `re.sub(r"\s*\[part\s+\d+\]\s*$", "", heading).rstrip()`, read from the end of the heading. -/
def stripPartSuffix (heading : Str) : Str :=
  let reversed := heading.reverse.dropWhile isSpace
  let cut := (beforeLiteral [']'] reversed).bind fun rest =>
    let digits := rest.takeWhile isDigit
    let rest := rest.dropWhile isDigit
    if digits = [] ∨ rest.takeWhile isSpace = [] then none
    else beforeLiteral ['[', 'p', 'a', 'r', 't'] (rest.dropWhile isSpace)
  rstrip (cut.getD reversed).reverse

/-- `re.sub(r"\s*\[表格片段\d+\]\s*$", "", heading).rstrip()`, read from the end of the heading. -/
def stripTableSuffix (heading : Str) : Str :=
  let reversed := heading.reverse.dropWhile isSpace
  let cut := (beforeLiteral [']'] reversed).bind fun rest =>
    let digits := rest.takeWhile isDigit
    if digits = [] then none
    else beforeLiteral ['[', '表', '格', '片', '段'] (rest.dropWhile isDigit)
  rstrip (cut.getD reversed).reverse

def stripSuffixes (heading : Str) : Str :=
  stripTableSuffix isDigit (stripPartSuffix isDigit heading)

/-- `_strip_generated_heading_suffixes`: every round but the last takes characters off. -/
def stripGeneratedHeadingSuffixes (heading : Str) : Str :=
  (stripSuffixes isDigit)^[heading.length] (rstrip heading)

def appendPartSuffix (heading : Str) (partNumber : ℕ) : Str :=
  let base := stripGeneratedHeadingSuffixes isDigit heading
  let suffix := ['[', 'p', 'a', 'r', 't', ' '] ++ Nat.toDigits 10 partNumber ++ [']']
  if base = [] then suffix else base ++ ' ' :: suffix

def applyPartSuffixes (blocks : List Block) : List Block :=
  if blocks.length ≤ 1 then blocks
  else blocks.mapIdx fun i b =>
    { b with heading := appendPartSuffix isDigit b.heading (i + 1) }

end LightRAG.Chunking
