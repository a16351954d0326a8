import LightRAG.Chunking.Blocks

/-!
# Table markup

Reading and writing `<table …>…</table>`: its attributes, the format of its body, and the rows of an
HTML body.
-/

namespace LightRAG.Chunking

open Text (isSpace)

def afterLiteral (literal : Str) (s : Str) : Option Str :=
  if literal.isPrefixOf s then some (s.drop literal.length) else none

variable (name : Str)

def afterName (s : Str) : Option Str :=
  if name.isPrefixOf (s.map Char.toLower) then some (s.drop name.length) else none

/-- The text before the first occurrence of a literal, if it occurs. -/
def upTo (literal : Str) : Str → Option Str
  | [] => if literal = [] then some [] else none
  | c :: cs =>
    if literal.isPrefixOf (c :: cs) then some [] else (upTo literal cs).map (c :: ·)

def openTable : Str := ['<', 't', 'a', 'b', 'l', 'e']

def closeTable : Str := ['<', '/', 't', 'a', 'b', 'l', 'e', '>']

/-- `<table {attrs}>{body}</table>`. -/
def wrapTable (attrs body : Str) : Str := openTable ++ ' ' :: attrs ++ '>' :: body ++ closeTable

/-- `TABLE_TAG_RE.match(text)`: the attributes and the body. -/
def tableTag (text : Str) : Option (Str × Str) :=
  (afterLiteral openTable text).bind fun rest =>
    if (rest.takeWhile isSpace) = [] then none
    else
      let rest := rest.dropWhile isSpace
      let attrs := rest.takeWhile (· ≠ '>')
      match rest.dropWhile (· ≠ '>') with
      | [] => none
      | _ :: body => (upTo closeTable body).map fun body => (attrs, body)

def isQuote (c : Char) : Bool := c = '"' || c = '\''

/-- `name\s*=\s*["']([^"']+)["']` at the start of a text. -/
def attributeValue (s : Str) : Option Str :=
  (afterLiteral name s).bind fun rest =>
    (afterLiteral ['='] (rest.dropWhile isSpace)).bind fun rest =>
      match rest.dropWhile isSpace with
      | [] => none
      | quote :: rest =>
        let value := rest.takeWhile fun c => !isQuote c
        if isQuote quote ∧ value ≠ [] ∧ rest.dropWhile (fun c => !isQuote c) ≠ [] then some value
        else none

/-- The leftmost value of an attribute whose name no character of a class stands before. -/
def searchAttribute (name : Str) (joined : Char → Bool) : (before : Option Char) → Str → Option Str
  | _, [] => none
  | before, c :: cs =>
    match (if before.any joined then none else attributeValue name (c :: cs)) with
    | some value => some value
    | none => searchAttribute name joined (some c) cs

inductive Format
  | json
  | html
deriving DecidableEq

def Format.ofName : Option Format :=
  if name = ['j', 's', 'o', 'n'] then some .json
  else if name = ['h', 't', 'm', 'l'] then some .html
  else none

def mentions (literal : Str) (s : Str) : Bool := (upTo literal (s.map Char.toLower)).isSome

def detectTableFormat (attrs body : Str) : Option Format :=
  match searchAttribute ['f', 'o', 'r', 'm', 'a', 't'] (fun _ => false) none attrs with
  | some value => Format.ofName ((strip value).map Char.toLower)
  | none =>
    let stripped := body.dropWhile isSpace
    if stripped.head? = some '[' ∨ stripped.head? = some '{' then some .json
    else if mentions ['<', 't', 'r'] stripped then some .html
    else none

def extractTableId (isWord : Char → Bool) (attrs : Str) : Option Str :=
  (searchAttribute ['i', 'd'] (fun c => isWord c || c = '-') none attrs).bind fun value =>
    if strip value = [] then none else some (strip value)

/-- A row with the grouping element around it: `""`, `thead`, `tbody` or `tfoot`. -/
structure HtmlRow where
  wrapper : Str
  tr : Str
deriving DecidableEq

/-- What `HTML_ROW_PARTS_RE` finds: a wrapper tag, or a row. -/
inductive RowPart
  | wrap (closing : Bool) (name : Str)
  | tr (text : Str)

def wrapperNames : List Str :=
  [['t', 'h', 'e', 'a', 'd'], ['t', 'b', 'o', 'd', 'y'], ['t', 'f', 'o', 'o', 't']]

section

variable (isWord : Char → Bool)

/-- `\b[^>]*>` after a name: the text up to and after the `>`. -/
def tagEnd (s : Str) : Option (Str × Str) :=
  if s.head?.any isWord then none
  else
    match s.dropWhile (· ≠ '>') with
    | [] => none
    | _ :: rest => some (s.takeWhile (· ≠ '>') ++ ['>'], rest)

/-- `</?(?:thead|tbody|tfoot)\b[^>]*>` at the start of a text, with the length of the match. -/
def wrapAt (s : Str) : Option (RowPart × ℕ) :=
  (afterLiteral ['<'] s).bind fun rest =>
    let closing := rest.head? = some '/'
    let inner := if closing then rest.drop 1 else rest
    wrapperNames.findSome? fun name =>
      (afterName name inner).bind fun rest =>
        (tagEnd isWord rest).map fun tail => (.wrap closing name, s.length - tail.2.length)

/-- `<tr\b[^>]*>.*?</tr>` at the start of a text, with the length of the match. -/
def trAt (s : Str) : Option (RowPart × ℕ) :=
  (afterName ['<', 't', 'r'] s).bind fun rest =>
    (tagEnd isWord rest).bind fun tail =>
      (upTo ['<', '/', 't', 'r', '>'] (tail.2.map Char.toLower)).map fun inner =>
        let n := s.length - tail.2.length + inner.length + 5
        (.tr (s.take n), n)

/-- `HTML_ROW_PARTS_RE.finditer(body)`; `skip` characters are still covered by the last match. -/
def rowParts : (skip : ℕ) → Str → List RowPart
  | _, [] => []
  | skip + 1, _ :: cs => rowParts skip cs
  | 0, c :: cs =>
    match (wrapAt isWord (c :: cs)).or (trAt isWord (c :: cs)) with
    | some (part, n) => part :: rowParts (n - 1) cs
    | none => rowParts 0 cs

def attributeRows : (current : Str) → List RowPart → List HtmlRow
  | _, [] => []
  | current, .wrap true name :: parts =>
    attributeRows (if current = name then [] else current) parts
  | _, .wrap false name :: parts => attributeRows name parts
  | current, .tr text :: parts => ⟨current, text⟩ :: attributeRows current parts

/-- `split_html_rows`, without the distinction between no rows and `None`. -/
def splitHtmlRows (body : Str) : List HtmlRow := attributeRows [] (rowParts isWord 0 body)

end

def closeWrapper : Str := if name = [] then [] else ['<', '/'] ++ name ++ ['>']

def openWrapper : Str := if name = [] then [] else '<' :: name ++ ['>']

/-- `serialize_html_rows`, with the wrapper that is open before the rows. -/
def serializeFrom : (current : Str) → List HtmlRow → Str
  | current, [] => closeWrapper current
  | current, row :: rows =>
    (if row.wrapper = current then [] else closeWrapper current ++ openWrapper row.wrapper) ++
      row.tr ++ serializeFrom row.wrapper rows

def serializeHtmlRows (rows : List HtmlRow) : Str := serializeFrom [] rows

end LightRAG.Chunking

/-!
## TableRowSplit

The split of an oversized table at its rows, with its repeating header put back into the slices, and
the blocks a block becomes when its oversized tables are split.
-/

namespace LightRAG.Chunking

open Text (isSpace)

variable {τ α ρ : Type}

def ceilDiv (a b : ℕ) : ℕ := (a + b - 1) / b

/-- The end of the `i`-th slice of `n` rows, which begins at `start`; `left` slices come after it. -/
def sliceEnd (f : Floats) (n targetChunks left i start : ℕ) : ℕ :=
  let stop := max (start + 1) (min (f.rowEnd i n targetChunks) n)
  if left = 0 ∨ (0 < n - stop ∧ f.shortRest (n - stop) n targetChunks) then n else stop

/-- The slices of the rows from `start` on, `left` of them still to cut, the next one the `i`-th. -/
def cutRows (f : Floats) (rows : List ρ) (targetChunks : ℕ) : (left i start : ℕ) → List (List ρ)
  | 0, _, _ => []
  | left + 1, i, start =>
    let stop := sliceEnd f rows.length targetChunks left i start
    let slice := (rows.drop start).take (stop - start)
    if rows.length ≤ stop then [slice]
    else slice :: cutRows f rows targetChunks left (i + 1) stop

/-- A tiny last slice goes back into the one before it, if both fit. -/
def mergeTinyLast (measure : List ρ → ℕ) (targetMax lastMin : ℕ) (chunks : List (List ρ)) :
    List (List ρ) :=
  match chunks.reverse with
  | last :: prev :: earlier =>
    if measure last < lastMin ∧ measure (prev ++ last) ≤ targetMax then
      ((prev ++ last) :: earlier).reverse
    else chunks
  | _ => chunks

/-- The split that `_split_rows_by_tokens` and `_split_html_rows_by_tokens` share. -/
def splitRowsBy (f : Floats) (measure : List ρ → ℕ) (rows : List ρ)
    (targetMax targetIdeal lastMin : ℕ) : List (List ρ) :=
  let total := measure rows
  if total ≤ targetMax ∨ rows.length ≤ 1 then [rows]
  else
    let targetChunks := min (max (ceilDiv total targetIdeal) (ceilDiv total targetMax)) rows.length
    mergeTinyLast measure targetMax lastMin (cutRows f rows targetChunks targetChunks 0 0)

def parseHeaderRows (json : Json α) (header : Str) : Option (List α) :=
  (json.loads header).filter fun rows => !rows.isEmpty

def classifyHeaderFormat (json : Json α) (header : Str) : Option Format :=
  if isBlank header then none
  else if (parseHeaderRows json header).isSome then some .json
  else if mentions ['<', 't', 'h', 'e', 'a', 'd'] header ∨ mentions ['<', 't', 'r'] header ∨
      mentions ['<', 't', 'h'] header then some .html
  else none

/-- The `ValueError` of a header whose format is not that of its table. -/
structure CrossFormat where
  header : Format
  table : Format
  id : Option Str
deriving DecidableEq

def checkFormat (isWord : Char → Bool) (header table : Option Format) (attrs : Str) :
    Except CrossFormat Unit :=
  match header, table with
  | some h, some f => if f = h then .ok () else .error ⟨h, f, extractTableId isWord attrs⟩
  | _, _ => .ok ()

variable (e : Env τ α)

def injectHeaderIntoTableSlice (text header : Str) :
    Except CrossFormat (Option Str) :=
  match tableTag (strip text), classifyHeaderFormat e.json header with
  | some (attrs, body), some headerFmt => do
    let sliceFmt := detectTableFormat attrs body
    checkFormat e.isWord (some headerFmt) sliceFmt attrs
    match sliceFmt with
    | some .json =>
      return (parseHeaderRows e.json header).bind fun headerRows =>
        (e.json.loads body).map fun rows => wrapTable attrs (e.json.dumps (headerRows ++ rows))
    | some .html =>
      return if mentions ['<', 't', 'h', 'e', 'a', 'd'] body then none
        else some (wrapTable attrs (header ++ body))
    | none => return none
  | _, _ => .ok none

structure RowFormat (ρ : Type) where
  measure : List ρ → ℕ
  serialize : List ρ → Str

def Env.jsonRows (attrs : Str) : RowFormat α where
  measure rows := e.tokenizer.countTokens (e.json.dumps rows)
  serialize rows := wrapTable attrs (e.json.dumps rows)

def Env.htmlRows (attrs : Str) : RowFormat HtmlRow where
  measure rows := e.tokenizer.countTokens (rows.flatMap HtmlRow.tr)
  serialize rows := wrapTable attrs (serializeHtmlRows rows)

/-- The budgets of one table. `pinned`: every slice gets the header back; `nonFirst`: every slice
but the first does. -/
structure Budget where
  targetMax : ℕ
  bodyMax : ℕ
  bodyIdeal : ℕ
  bodyLastMin : ℕ
  effectiveMax : ℕ
  pinned : Bool
  nonFirst : Bool

/-- `header_target`: whether the next slice is to carry the header. -/
def Budget.headerTarget (b : Budget) (pieces : List Str) : Bool :=
  b.pinned || (b.nonFirst && !pieces.isEmpty)

/-- The loop over the pending slices: `none` if the table is to be split as text instead. The
outer `none` is the end of the fuel. -/
def takePending (e : Env τ α) (format : RowFormat ρ) (b : Budget) :
    (fuel : ℕ) → (pieces : List Str) → (pending : List (List ρ)) → Option (Option (List Str))
  | _, pieces, [] => some (some pieces)
  | 0, _, _ :: _ => none
  | fuel + 1, pieces, rows :: pending =>
    let wrapped := format.serialize rows
    let tokens := e.tokenizer.countTokens wrapped
    let cap := if b.headerTarget pieces then b.effectiveMax else b.targetMax
    if tokens ≤ cap then takePending e format b fuel (pieces ++ [wrapped]) pending
    else
      let keepWhole :=
        if !b.headerTarget pieces && tokens ≤ b.targetMax then
          takePending e format b fuel (pieces ++ [wrapped]) pending
        else some none
      if rows.length ≤ 1 then keepWhole
      else
        let subMax := max (min b.bodyMax (max (tokens / 2) 1)) 1
        let finer := splitRowsBy e.floats format.measure rows subMax (max (subMax / 2) 1)
          (max (min b.bodyLastMin (subMax / 2)) 1)
        if finer.length ≤ 1 then keepWhole
        else takePending e format b fuel pieces (finer ++ pending)

/-- The header goes into the slices it is due in; a slice that cannot take it stays as it is. -/
def injectHeaders (e : Env τ α) (targetMax : ℕ) (header : Str) :
    List Str → Except CrossFormat (List Str)
  | [] => .ok []
  | piece :: pieces => do
    let rebuilt ← injectHeaderIntoTableSlice e piece header
    let rest ← injectHeaders e targetMax header pieces
    match rebuilt with
    | some text => return (if e.tokenizer.countTokens text ≤ targetMax then text else piece) :: rest
    | none => return piece :: rest

/-- The row path of `_split_table_text`: the slices, or the split of the whole text. -/
def splitAtRows (format : RowFormat ρ) (b : Budget) (header : Option Str)
    (tableText : Str) (rows : List ρ) : Except CrossFormat (List Str) :=
  let chunks := splitRowsBy e.floats format.measure rows b.bodyMax b.bodyIdeal b.bodyLastMin
  match takePending e format b (2 * rows.length) [] chunks with
  | some (some pieces) =>
    if b.pinned then injectHeaders e b.targetMax (header.getD []) pieces
    else if b.nonFirst then
      return pieces.take 1 ++ (← injectHeaders e b.targetMax (header.getD []) (pieces.drop 1))
    else return pieces
  | _ => return characterSplitText e.tokenizer tableText b.targetMax 0

def jsonHeaderRows (header : Option Str) : Option (List α) :=
  if header.bind (classifyHeaderFormat e.json) = some .json then
    header.bind (parseHeaderRows e.json)
  else none

def headerOverhead (header : Option Str) : ℕ :=
  match header.bind (classifyHeaderFormat e.json) with
  | some .json => e.tokenizer.countTokens (e.json.dumps ((jsonHeaderRows e header).getD []))
  | some .html => e.tokenizer.countTokens (header.getD [])
  | none => 0

def tableBudget (attrs : Str) (targetMax targetIdeal lastMin : ℕ)
    (header : Option Str) (pinned nonFirst : Bool) : Budget :=
  let wrapper := e.tokenizer.countTokens (wrapTable attrs [])
  let overhead := headerOverhead e header
  { targetMax := targetMax
    bodyMax := max (targetMax - wrapper - overhead) 1
    bodyIdeal := max (min targetIdeal targetMax - wrapper - overhead) 1
    bodyLastMin := max (lastMin - wrapper - overhead) 1
    effectiveMax := max (targetMax - overhead) 1
    pinned := pinned
    nonFirst := nonFirst }

/-- The rows of a JSON table to split, and whether its header is pinned out of them. -/
def pinHeader (header : Option Str) (rows : List α) : List α × Bool :=
  match jsonHeaderRows e header with
  | some hs =>
    if e.json.same (rows.take hs.length) hs ∧ rows.drop hs.length ≠ [] then
      (rows.drop hs.length, true)
    else (rows, false)
  | none => (rows, false)

def splitTableText (tableText : Str) (targetMax targetIdeal lastMin : ℕ)
    (header : Option Str) : Except CrossFormat (List Str) :=
  let asText := characterSplitText e.tokenizer tableText targetMax 0
  match tableTag (strip tableText) with
  | none => return asText
  | some (attrs, body) => do
    let fmt := detectTableFormat attrs body
    let headerFmt := header.bind (classifyHeaderFormat e.json)
    checkFormat e.isWord headerFmt fmt attrs
    let budget := tableBudget e attrs targetMax targetIdeal lastMin header
    match fmt with
    | some .json =>
      let rows := (e.json.loads body).getD []
      if rows.length ≤ 1 then return asText
      else
        let split := pinHeader e header rows
        splitAtRows e (e.jsonRows attrs) (budget split.2 false) header tableText split.1
    | some .html =>
      let rows := splitHtmlRows e.isWord body
      if rows.length ≤ 1 then return asText
      else
        splitAtRows e (e.htmlRows attrs) (budget false (headerFmt = some .html)) header tableText rows
    | none => return asText

/-- The sizes of one run: `target_max`, the table sizes and the overlap. -/
structure Targets where
  targetMax : ℕ
  targetIdeal : ℕ
  tableMax : ℕ
  tableIdeal : ℕ
  tableMinLast : ℕ
  smallTailThreshold : ℕ
  overlap : ℕ

/-- The loop variables of `_expand_block_with_table_splits`. -/
structure Expansion where
  out : List Block
  curParas : List Paragraph
  curRole : Role

def textParagraph (rows : List Str) (text : Str) : Option Paragraph :=
  if isBlank text then none else some ⟨text, false, rows⟩

section

variable (e : Env τ α) (z : Targets) (block : Block)

/-- `append_block`: the first block to come out keeps the title pin. -/
def appendBlock (out : List Block) (paragraphs : List Paragraph) (role : Role) : List Block :=
  out ++ [newBlock e.tokenizer block.frame paragraphs role (block.isTitleBlock && out.isEmpty)]

def flushCur (x : Expansion) : Expansion :=
  if x.curParas = [] then { x with curRole := .none }
  else ⟨appendBlock e block x.out x.curParas x.curRole, [], .none⟩

def contextCapacity (paragraphs : List Paragraph) : ℕ :=
  let contextOverlap := boundedOverlap z.targetMax z.overlap
  let baseTokens := e.tokenizer.countTokens (joinParagraphs paragraphs)
  if contextOverlap = 0 ∨ z.targetMax ≤ baseTokens then 0
  else min (min contextOverlap (z.targetMax - baseTokens - e.tokenizer.countTokens ['\n']))
    (z.targetMax / 2)

/-- The texts a bridge between two tables is cut into: for the table before it, for a block of its
own, and for the table after it. -/
def bridgeTexts (bridgeText : Str) (prevBudget nextBudget : ℕ) : Str × Str × Str :=
  let t := e.tokenizer
  let bridge := t.encode bridgeText
  let n := bridge.length
  let contextOverlap := boundedOverlap z.targetMax z.overlap
  if n ≤ prevBudget ∧ n ≤ nextBudget then (bridgeText, [], bridgeText)
  else
    let prefixLen := min prevBudget n
    let suffixLen := min nextBudget n
    let middleEnd := max prefixLen (n - suffixLen)
    let lo := prefixLen - contextOverlap
    let hi := min n (middleEnd + contextOverlap)
    ( if prefixLen = 0 then [] else t.decode (bridge.take prefixLen),
      if lo < hi ∧ prefixLen < middleEnd then t.decode ((bridge.take hi).drop lo) else [],
      if suffixLen = 0 then [] else t.decode (bridge.drop (n - suffixLen)) )

/-- `_flush_last_bridge_before_next_first`, with the paragraphs for the next table. -/
def flushLastBridge (next : Paragraph) (x : Expansion) : Expansion × List Paragraph :=
  match x.curParas with
  | [] => ({ x with curRole := .none }, [])
  | seed :: bridge =>
    let bridgeText := joinParagraphs bridge
    if boundedOverlap z.targetMax z.overlap = 0 ∨ bridge = [] ∨ bridge.any Paragraph.isTable ∨
        e.tokenizer.encode bridgeText = [] then
      (flushCur e block x, [])
    else
      let rows := bridge.flatMap Paragraph.rows
      let texts := bridgeTexts e z bridgeText (contextCapacity e z [seed])
        (contextCapacity e z [next])
      let out := appendBlock e block x.out
        (seed :: (textParagraph rows texts.1).toList) .last
      let out := match textParagraph rows texts.2.1 with
        | some middle => appendBlock e block out [middle] .none
        | none => out
      (⟨out, [], .none⟩, (textParagraph rows texts.2.2).toList)

def takeFirst (p : Paragraph) (x : Expansion) : Expansion :=
  if x.curRole = .last then
    let y := flushLastBridge e z block p x
    { y.1 with curParas := y.1.curParas ++ y.2 ++ [p], curRole := .first }
  else { x with curParas := x.curParas ++ [p], curRole := .first }

def takeMiddle (p : Paragraph) (x : Expansion) : Expansion :=
  let x := flushCur e block x
  { x with out := appendBlock e block x.out [p] .middle }

def takeLast (p : Paragraph) (x : Expansion) : Expansion :=
  let x := flushCur e block x
  { x with curParas := x.curParas ++ [p], curRole := .last }

def takeSlices (x : Expansion) : List Paragraph → Expansion
  | [] => x
  | [p] => takeLast e block p x
  | p :: ps => takeSlices (takeMiddle e block p x) ps

/-- Whether `_expand_block_with_table_splits` splits a paragraph. -/
def isOversizedTable (p : Paragraph) : Bool :=
  p.isTable && z.tableMax < e.tokenizer.countTokens p.text

def headerOf (tableHeaders : Str → Option Str) (p : Paragraph) : Option Str :=
  (tableTag (strip p.text)).bind fun tag => (extractTableId e.isWord tag.1).bind tableHeaders

def expandStep (tableHeaders : Str → Option Str) (x : Expansion) (p : Paragraph) :
    Except CrossFormat Expansion :=
  if isOversizedTable e z p then do
    let pieces ← splitTableText e p.text z.tableMax z.tableIdeal z.tableMinLast
      (headerOf e tableHeaders p)
    match pieces.map fun text => (⟨text, isTableParagraph text, p.rows⟩ : Paragraph) with
    | first :: second :: slices =>
      return takeSlices e block (takeFirst e z block first x) (second :: slices)
    | _ => return { x with curParas := x.curParas ++ [p] }
  else return { x with curParas := x.curParas ++ [p] }

def expandBlockWithTableSplits (tableHeaders : Str → Option Str) :
    Except CrossFormat (List Block) :=
  if block.paragraphs.any (isOversizedTable e z) then do
    let x ← block.paragraphs.foldlM (expandStep e z block tableHeaders) ⟨[], [], .none⟩
    return (flushCur e block x).out
  else return [block]

end

end LightRAG.Chunking
