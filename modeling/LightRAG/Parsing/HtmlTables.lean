import LightRAG.Framework.Occurrences
import LightRAG.Framework.Text

/-!
# Slices of an HTML table

`parser/_html_table.py` finds tags in a lower-cased copy of a payload and slices the payload itself
at their positions.
-/

namespace LightRAG.HtmlTables

open Occurrences (find rfind)

abbrev Str := List Char

variable (s : Str)

def strip : Str := Trim.trim Text.isSpace s

/-- What `str.lower` makes of a character other than `İ`: no other one that is not ASCII, except the
Kelvin sign, has an ASCII character as its lower case. -/
def LowersTo (a b : Char) : Prop :=
  if a.toNat < 128 then b = a.toLower else 128 ≤ b.toNat ∨ (a.toNat = 0x212A ∧ b = 'k')

/-- `str.lower`, which has one character for each, except for `İ`. -/
structure Lowering where
  lower : Str → Str
  pointwise : ∀ s, 'İ' ∉ s → List.Forall₂ LowersTo s (lower s)

/-- `s[i:j]` -/
def slice (i j : ℕ) : Str := (s.drop i).take (j - i)

def startsWith (needle s : Str) : Bool := needle <+: s

def boundary : Str → Bool
  | [] => true
  | c :: _ => c ∈ [' ', '\t', '\r', '\n', '>', '/']

def startsWithHtmlTag (tag s : Str) : Bool :=
  startsWith ('<' :: tag) s && boundary (s.drop (tag.length + 1))

/-- The loop of `find_html_tag`; the first number is what is left of a needle that was no tag. -/
def findHtmlTagLoop (needle : Str) : ℕ → ℕ → Str → Option ℕ
  | _, _, [] => none
  | k + 1, idx, _ :: cs => findHtmlTagLoop needle k (idx + 1) cs
  | 0, idx, c :: cs =>
    if startsWith needle (c :: cs) then
      if boundary ((c :: cs).drop needle.length) then some idx
      else findHtmlTagLoop needle (needle.length - 1) (idx + 1) cs
    else findHtmlTagLoop needle 0 (idx + 1) cs

def findHtmlTag (tag s : Str) : Option ℕ := findHtmlTagLoop ('<' :: tag) 0 0 s

def table : Str := "table".toList

def thead : Str := "thead".toList

def tableEnd : Str := "</table>".toList

def theadEnd : Str := "</thead>".toList

/-- `re.sub(r"<[^>]+>", "", s)`; the number is what is left of a match. -/
def stripTags : ℕ → Str → Str
  | _, [] => []
  | k + 1, _ :: cs => stripTags k cs
  | 0, c :: cs =>
    let body := cs.takeWhile (· ≠ '>')
    if c = '<' ∧ body ≠ [] ∧ body.length < cs.length then stripTags (body.length + 1) cs
    else c :: stripTags 0 cs

def isQuote (c : Char) : Bool := c.toNat = 34 || c.toNat = 39

/-- `_open_tag_end`, with the quote that is open. -/
def openTagEnd : Option Char → ℕ → Str → Option ℕ
  | _, _, [] => none
  | some q, idx, c :: cs => openTagEnd (if c = q then none else some q) (idx + 1) cs
  | none, idx, c :: cs =>
    if isQuote c then openTagEnd (some c) (idx + 1) cs
    else if c = '>' then some idx
    else openTagEnd none (idx + 1) cs

variable (l : Lowering)

def extractTheadHtml (html : Str) : Option Str :=
  let stripped := strip html
  let lower := l.lower stripped
  match findHtmlTag thead lower with
  | none => none
  | some start =>
    match find (startsWith theadEnd) lower start with
    | none => none
    | some close =>
      let head := slice stripped start (close + theadEnd.length)
      if strip (stripTags 0 head) = [] then none else some head

def unwrapHtmlTable (payload : Str) : Str :=
  let stripped := strip payload
  let lower := l.lower stripped
  match findHtmlTag table lower, rfind (startsWith tableEnd) lower with
  | some start, some close =>
    if close < start then stripped else slice stripped start (close + tableEnd.length)
  | _, _ => stripped

def htmlTableInnerBody (html : Str) : Str :=
  let stripped := strip html
  let lower := l.lower stripped
  if startsWithHtmlTag table lower then
    match openTagEnd none 0 stripped, rfind (startsWith tableEnd) lower with
    | some openEnd, some closeStart =>
      if closeStart ≤ openEnd then stripped else strip (slice stripped (openEnd + 1) closeStart)
    | _, _ => stripped
  else stripped

def TextAt (needle s : Str) (i : ℕ) : Prop :=
  ((s.drop i).take needle.length).map Char.toLower = needle

def TagAt (tag s : Str) (i : ℕ) : Prop :=
  TextAt ('<' :: tag) s i ∧ boundary (s.drop (i + (tag.length + 1))) = true

def quoteStep (quote : Option Char) (c : Char) : Option Char :=
  match quote with
  | some q => if c = q then none else some q
  | none => if isQuote c then some c else none

def quoteAfter (quote : Option Char) (s : Str) : Option Char := s.foldl quoteStep quote

/-- The first `>` outside of quotes. -/
def EndsAt (quote : Option Char) (s : Str) (p : ℕ) : Prop :=
  s[p]? = some '>' ∧ quoteAfter quote (s.take p) = none ∧
    ∀ k < p, s[k]? = some '>' → quoteAfter quote (s.take k) ≠ none

def TagEnd (p : ℕ) : Prop := EndsAt none s p

def First (P : ℕ → Prop) (i : ℕ) : Prop := P i ∧ ∀ j < i, ¬ P j

def FirstFrom (n : ℕ) (P : ℕ → Prop) (i : ℕ) : Prop := n ≤ i ∧ P i ∧ ∀ j, n ≤ j → j < i → ¬ P j

def Last (P : ℕ → Prop) (i : ℕ) : Prop := P i ∧ ∀ j, i < j → ¬ P j

def HeadSpan (i j : ℕ) : Prop :=
  First (TagAt thead s) i ∧ FirstFrom i (TextAt theadEnd s) j

def TableSpan (i j : ℕ) : Prop :=
  First (TagAt table s) i ∧ Last (TextAt tableEnd s) j ∧ i ≤ j

def BodySpan (p q : ℕ) : Prop :=
  TagAt table s 0 ∧ TagEnd s p ∧ Last (TextAt tableEnd s) q ∧ p < q

/-- What the three functions give, in terms of the text itself. -/
structure Sliced (l : Lowering) (payload : Str) : Prop where
  head : ∀ t, extractTheadHtml l payload = some t ↔ ∃ i j, HeadSpan (strip payload) i j ∧
    t = slice (strip payload) i (j + theadEnd.length) ∧ strip (stripTags 0 t) ≠ []
  head_shape : ∀ t, extractTheadHtml l payload = some t →
    TagAt thead t 0 ∧ TextAt theadEnd t (t.length - theadEnd.length)
  table : ∀ i j, TableSpan (strip payload) i j →
    unwrapHtmlTable l payload = slice (strip payload) i (j + tableEnd.length)
  no_table : (∀ i j, ¬ TableSpan (strip payload) i j) → unwrapHtmlTable l payload = strip payload
  body : ∀ p q, BodySpan (strip payload) p q →
    htmlTableInnerBody l payload = strip (slice (strip payload) (p + 1) q)
  no_body : (∀ p q, ¬ BodySpan (strip payload) p q) → htmlTableInnerBody l payload = strip payload
  rewrap : ∀ p q, BodySpan (strip payload) p q → ∃ before after,
    before.all Text.isSpace = true ∧ after.all Text.isSpace = true ∧
      strip payload = (strip payload).take (p + 1) ++
        (before ++ htmlTableInnerBody l payload ++ after) ++ (strip payload).drop q

end LightRAG.HtmlTables
