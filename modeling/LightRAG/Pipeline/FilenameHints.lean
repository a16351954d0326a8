import LightRAG.Framework.Text

/-!
# Parser hints in file names

`parser/routing.py` finds a `.[hint].ext` at the end of a base name and recognises its content: an
engine, options, or both, each with blocks of parameters.
-/

namespace LightRAG.FilenameHints

open Text (isSpace)

abbrev Str := List Char

instance : LawfulBEq Str := inferInstance

structure HintHost where
  supportedParserEngines : Str → Bool
  lower : Str → Str
  /-- `parse_chunk_params` of a selector and its block: nothing if it has errors, else whether
  there is a parameter. -/
  parseChunkParams : Char → Str → Option Bool
  /-- Whether `parse_engine_params` of an engine and its block is free of errors. -/
  parseEngineParams : Str → Str → Bool

def strip (s : Str) : Str := Trim.trim isSpace s

/-- A match of `\.\[([^\]]*)\](\.[^.]+)$` that begins here: its content, and the second group
without its dot. -/
def hintAt : Str → Option (Str × Str)
  | '.' :: '[' :: rest =>
    match rest.dropWhile (· ≠ ']') with
    | ']' :: '.' :: ext =>
      if ext ≠ [] ∧ '.' ∉ ext then some (rest.takeWhile (· ≠ ']'), ext) else none
    | _ => none
  | _ => none

/-- `_PARSER_HINT_RE.search`: what is before the match, its content and the extension. -/
def hintSearch : Str → Option (Str × Str × Str)
  | [] => none
  | c :: cs =>
    match hintAt (c :: cs) with
    | some (inner, ext) => some ([], inner, ext)
    | none => (hintSearch cs).map fun m => (c :: m.1, m.2)

/-- `take_paren_block` behind its opening parenthesis, with `depth` more of them open. -/
def takeParenBlock (depth : ℕ) : Str → Option (Str × Str)
  | [] => none
  | c :: cs =>
    if c = '(' then (takeParenBlock (depth + 1) cs).map fun b => (c :: b.1, b.2)
    else if c = ')' then
      if depth = 0 then some ([], cs)
      else (takeParenBlock (depth - 1) cs).map fun b => (c :: b.1, b.2)
    else (takeParenBlock depth cs).map fun b => (c :: b.1, b.2)

def processOptionChunkChars : List Char := ['F', 'R', 'V', 'P', 'C']

def supportedProcessOptions : List Char := ['i', 't', 'e', '!'] ++ processOptionChunkChars

structure ParamBlocks where
  stripped : Str
  engineParam : Option Str
  chunkParams : List (Char × Str)
  malformed : Bool
deriving DecidableEq

/-- A block behind the character `prev`. -/
def ParamBlocks.add (b : ParamBlocks) (seenDash : Bool) (prev : Option Char) (block : Str) :
    ParamBlocks :=
  match prev with
  | none => { b with malformed := true }
  | some c =>
    if seenDash then
      if c ∈ processOptionChunkChars then
        if c ∈ b.chunkParams.map Prod.fst then { b with malformed := true }
        else { b with chunkParams := b.chunkParams ++ [(c, block)] }
      else { b with malformed := true }
    else
      match b.engineParam with
      | some _ => { b with malformed := true }
      | none => { b with engineParam := some block }

/-- The loop of `_extract_param_blocks`; each round takes a character or a block. -/
def extractLoop : ℕ → Str → Bool → Option Char → ParamBlocks → ParamBlocks
  | 0, _, _, _, b => b
  | _ + 1, [], _, _, b => b
  | fuel + 1, c :: cs, seenDash, prev, b =>
    if c = '(' then
      match takeParenBlock 0 cs with
      | none => { b with stripped := b.stripped ++ c :: cs, malformed := true }
      | some (block, rest) => extractLoop fuel rest seenDash none (b.add seenDash prev block)
    else
      extractLoop fuel cs (seenDash || c = '-') (if c = ' ' then prev else some c)
        { b with stripped := b.stripped ++ [c] }

def extractParamBlocks (inner : Str) : ParamBlocks :=
  extractLoop inner.length inner false none ⟨[], none, [], false⟩

/-- `validate_process_options` without errors. -/
def validProcessOptions (options : Str) : Bool :=
  (options.all fun c => c = ' ' || c = '-' || c ∈ supportedProcessOptions) &&
    ((options.filter fun c => c ∈ processOptionChunkChars).eraseDups.length ≤ 1)

variable (host : HintHost)

def normalizeParserEngine (engine : Str) : Str :=
  host.lower (strip (((strip engine).takeWhile (· ≠ '(')).takeWhile (· ≠ '-')))

def splitEngineAndOptions (bracketInner : Str) : Option Str × Str :=
  let inner := strip bracketInner
  match inner with
  | [] => (none, [])
  | '-' :: options => (none, strip options)
  | _ =>
    let engineCandidate := normalizeParserEngine host (inner.takeWhile (· ≠ '-'))
    if host.supportedParserEngines engineCandidate then
      (some engineCandidate, strip ((inner.dropWhile (· ≠ '-')).drop 1))
    else (none, [])

/-- Whether `_filename_hint_match` takes the content of a match for a hint. -/
def recognises (group : Str) : Bool :=
  let rawInner := strip group
  if rawInner.head? = some '-' ∧ rawInner.tail.all isSpace then false
  else
    let blocks := extractParamBlocks rawInner
    let inner := strip blocks.stripped
    if blocks.malformed then false
    else if '-' ∈ inner ∧ inner.head? ≠ some '-' ∧
        ((inner.dropWhile (· ≠ '-')).drop 1).all isSpace then false
    else
      let split := splitEngineAndOptions host inner
      let chunkParams := blocks.chunkParams.map fun p => host.parseChunkParams p.1 p.2
      if ¬ validProcessOptions split.2 then false
      else if chunkParams.any Option.isNone ||
          (blocks.engineParam.any fun text => !host.parseEngineParams (split.1.getD []) text) then
        false
      else
        match split.1 with
        | some engine => host.supportedParserEngines engine
        | none => split.2 ≠ [] || chunkParams.any fun p => p = some true

/-- The match of `_filename_hint_match` in a base name. -/
def filenameHintMatch (basename : Str) : Option (Str × Str × Str) :=
  (hintSearch basename).filter fun m => recognises host m.2.1

/-- `Path(file_path).name` -/
def pathName (filePath : Str) : Str :=
  ((Text.split '/' filePath).filter fun part => part ≠ [] ∧ part ≠ ['.']).getLast?.getD []

def canonicalizeParserHintedBasename (filePath : Str) : Str :=
  let basename := pathName filePath
  match filenameHintMatch host basename with
  | none => basename
  | some (before, _, ext) => before ++ '.' :: ext

end LightRAG.FilenameHints
