import LightRAG.Chunking.RecursiveCharacter

/-!
# Separators that divide nothing

`_split_text_with_spans` passes over a separator that leaves the text in one piece without
measuring the text; the splitter it mirrors measures it first.
-/

namespace LightRAG.Chunking.Skips
open List

open Text (isSpace)

/-- `keep_separator`: false, true or `"start"`, and `"end"`. -/
inductive Keep
  | drop
  | start
  | stop
deriving DecidableEq

/-- The other arguments of the split. `finditer` gives the ends of the matches of a separator, as a
pattern or escaped. -/
structure Splitter where
  finditer : Str → Str → List (ℕ × ℕ)
  keepSeparator : Keep
  stripWhitespace : Bool
  length : Str → ℕ
  chunkSize : ℕ
  chunkOverlap : ℕ

/-- Where a piece ends at a match, and where the next one starts. -/
def Keep.cut (keep : Keep) (m : ℕ × ℕ) : ℕ × ℕ :=
  match keep with
  | .drop => m
  | .start => (m.1, m.1)
  | .stop => (m.2, m.2)

/-- The pieces from `cursor` on, without the empty ones. -/
def pieces (text : Str) (base : ℕ) : (cursor : ℕ) → List (ℕ × ℕ) → List SpanPiece
  | cursor, [] => if cursor < text.length then [spanPiece text base cursor text.length] else []
  | cursor, m :: cuts =>
    (if cursor < m.1 then [spanPiece text base cursor m.1] else []) ++ pieces text base m.2 cuts

/-- The characters of the pieces and of the separators between them, with their offsets. -/
def joinChars (separator : Str) : List SpanPiece → List (Char × ℕ)
  | [] => []
  | [p] => p.text.zip (range' p.start (p.stop - p.start))
  | p :: q :: rest => p.text.zip (range' p.start (p.stop - p.start)) ++
      separator.zip (range' p.stop separator.length) ++ joinChars separator (q :: rest)

namespace Splitter

variable (z : Splitter)

/-- `_split_text_with_regex_spans`. -/
def splitOnce (text separator : Str) (base : ℕ) : List SpanPiece :=
  if separator = [] then (range text.length).map fun i => spanPiece text base i (i + 1)
  else
    match z.finditer separator text with
    | [] => if text = [] then [] else [⟨text, base, base + text.length⟩]
    | found =>
      (pieces text base 0 (found.map z.keepSeparator.cut)).filter fun p => p.text ≠ []

def join (separator : Str) (doc : List SpanPiece) : Option SpanPiece :=
  let chars := joinChars separator doc
  let kept := if z.stripWhitespace then Trim.trim (fun c => isSpace c.1) chars else chars
  match kept.head?, kept.getLast? with
  | some first, some last => some ⟨kept.map Prod.fst, first.2, last.2 + 1⟩
  | _, _ => none

/-- `separator_len if len(current_doc) > n else 0`. -/
def separatorLen (separator : Str) (doc : List SpanPiece) (n : ℕ) : ℕ :=
  if n < doc.length then z.length separator else 0

def dropFront (separator : Str) (splitLen : ℕ) : List SpanPiece → ℕ → List SpanPiece × ℕ
  | [], total => ([], total)
  | p :: doc, total =>
    if z.chunkOverlap < total ∨ (z.chunkSize < total + splitLen +
        z.separatorLen separator (p :: doc) 0 ∧ 0 < total) then
      dropFront separator splitLen doc
        (total - (z.length p.text + z.separatorLen separator (p :: doc) 1))
    else (p :: doc, total)

def mergeStep (separator : Str) (m : Merge) (split : SpanPiece) : Merge :=
  let splitLen := z.length split.text
  let m := if z.chunkSize < m.total + splitLen + z.separatorLen separator m.currentDoc 0 ∧
        m.currentDoc ≠ [] then
      let kept := z.dropFront separator splitLen m.currentDoc m.total
      ⟨m.docs ++ (z.join separator m.currentDoc).toList, kept.1, kept.2⟩
    else m
  let doc := m.currentDoc ++ [split]
  { m with currentDoc := doc, total := m.total + splitLen + z.separatorLen separator doc 1 }

/-- `if good_splits: final_chunks.extend(_merge_splits_with_spans(good_splits, …))`. -/
def mergeGood (separator : Str) (good : List SpanPiece) : List SpanPiece :=
  if good = [] then []
  else
    let m := good.foldl (z.mergeStep separator) ⟨[], [], 0⟩
    m.docs ++ (z.join separator m.currentDoc).toList

/-- The loop over the splits: small ones are gathered and merged, a large one goes deeper. -/
def collect (separator : Str) (deeper : SpanPiece → List SpanPiece) :
    (good splits : List SpanPiece) → List SpanPiece
  | good, [] => z.mergeGood separator good
  | good, split :: splits =>
    if z.length split.text < z.chunkSize then collect separator deeper (good ++ [split]) splits
    else z.mergeGood separator good ++ deeper split ++ collect separator deeper [] splits

def mergeSeparator (separator : Str) : Str :=
  if z.keepSeparator = .drop then separator else []

/-- The separator is the one that is used: it is empty, or it occurs, or no other is left. -/
def isChosen (candidate : Str) (rest : List Str) (text : Str) : Bool :=
  candidate = [] || !(z.finditer candidate text).isEmpty || rest.isEmpty

def newSeparators (candidate : Str) (rest : List Str) : List Str :=
  if candidate = [] then [] else rest

def isNoOp (candidate : Str) (rest : List Str) (text : Str) (base : ℕ) : Bool :=
  newSeparators candidate rest ≠ [] && match z.splitOnce text candidate base with
    | [p] => p.text = text && p.start = base
    | _ => false

def plain : (separators : List Str) → (text : Str) → (base : ℕ) → List SpanPiece
  | [], _, _ => []
  | candidate :: rest, text, base =>
    if z.isChosen candidate rest text then
      z.collect (z.mergeSeparator candidate)
        (fun p => if newSeparators candidate rest = [] then [p] else plain rest p.text p.start) []
        (z.splitOnce text candidate base)
    else plain rest text base

def splitTextWithSpans : (separators : List Str) → (text : Str) → (base : ℕ) → List SpanPiece
  | [], _, _ => []
  | candidate :: rest, text, base =>
    if z.isChosen candidate rest text then
      if z.isNoOp candidate rest text base then splitTextWithSpans rest text base
      else
        z.collect (z.mergeSeparator candidate)
          (fun p => if newSeparators candidate rest = [] then [p]
            else splitTextWithSpans rest p.text p.start) []
          (z.splitOnce text candidate base)
    else splitTextWithSpans rest text base

def skips : (separators : List Str) → (text : Str) → (base : ℕ) → Bool
  | [], _, _ => false
  | candidate :: rest, text, base =>
    if z.isChosen candidate rest text then z.isNoOp candidate rest text base
    else skips rest text base

section

variable {z : Splitter} {separator candidate text : Str} {rest : List Str} {base : ℕ}

theorem collect_congr {deeper deeper' : SpanPiece → List SpanPiece} (good splits : List SpanPiece)
    (h : ∀ p ∈ splits, z.chunkSize ≤ z.length p.text → deeper p = deeper' p) :
    z.collect separator deeper good splits = z.collect separator deeper' good splits := by
  induction splits generalizing good with
  | nil => rfl
  | cons split splits ih =>
    obtain ⟨hfirst,hrest⟩ := forall_mem_cons.mp h
    rw [collect,collect,ih _ hrest,ih _ hrest]
    split
    · rfl
    · next hlarge => rw [hfirst (by omega)]

theorem isNoOp_iff : z.isNoOp candidate rest text base = true ↔
    newSeparators candidate rest ≠ [] ∧ ∃ stop,
      z.splitOnce text candidate base = [⟨text, base, stop⟩] := by
  rw [isNoOp,Bool.and_eq_true,decide_eq_true_eq]
  apply and_congr_right
  intro _
  split
  · next p heq =>
    simp only [Bool.and_eq_true,decide_eq_true_eq,heq,cons.injEq,and_true]
    constructor
    · rintro ⟨rfl,rfl⟩
      exact ⟨p.stop,rfl⟩
    · rintro ⟨stop,rfl⟩
      exact ⟨rfl,rfl⟩
  · next hother =>
    constructor
    · exact fun hfalse => absurd hfalse Bool.false_ne_true
    · rintro ⟨stop,heq⟩
      exact absurd heq (hother _)

theorem collect_noOp {deeper : SpanPiece → List SpanPiece} {p : SpanPiece}
    (h : z.chunkSize ≤ z.length p.text) : z.collect separator deeper [] [p] = deeper p := by
  rw [collect,if_neg (by omega),collect,mergeGood,if_pos rfl,nil_append,append_nil]

theorem split_eq_plain_of_large {separators : List Str} (h : z.chunkSize ≤ z.length text) :
    z.splitTextWithSpans separators text base = z.plain separators text base := by
  induction separators generalizing text base with
  | nil => rfl
  | cons candidate rest ih =>
    rw [splitTextWithSpans,plain]
    split
    · split
      · next hnoOp =>
        obtain ⟨hrest,stop,hsplits⟩ := isNoOp_iff.mp hnoOp
        rw [hsplits,collect_noOp h,if_neg hrest]
        exact ih h
      · apply collect_congr
        intro p _ hlarge
        rw [ih hlarge]
    · exact ih h

end

end Splitter

theorem splitTextWithSpans_eq_plain (z : Splitter) (separators : List Str) (text : Str) (base : ℕ)
    (h : z.chunkSize ≤ z.length text ∨ z.skips separators text base = false) :
    z.splitTextWithSpans separators text base = z.plain separators text base := by
  rcases h with hlarge | hdivides
  · exact Splitter.split_eq_plain_of_large hlarge
  · induction separators with
    | nil => rfl
    | cons candidate rest ih =>
      rw [Splitter.skips] at hdivides
      rw [Splitter.splitTextWithSpans,Splitter.plain]
      split
      · next hchosen =>
        rw [if_pos hchosen] at hdivides
        rw [if_neg (by rw [hdivides]; exact Bool.false_ne_true)]
        apply Splitter.collect_congr
        intro p _ hlarge
        rw [Splitter.split_eq_plain_of_large hlarge]
      · next hother =>
        rw [if_neg hother] at hdivides
        exact ih hdivides

/-- Literal separators that are kept at the start, and texts that take a token for each character,
but for one text that is a single token. -/
def oneToken (text : Str) (chunkSize : ℕ) : Splitter where
  finditer separator text :=
    (matchStarts separator 0 0 text).map fun s => (s, s + separator.length)
  keepSeparator := .start
  stripWhitespace := true
  length s := if s = text then 1 else s.length
  chunkSize := chunkSize
  chunkOverlap := 0

theorem splitTextWithSpans_eq_plain_large :
    (oneToken ['\n', 'a', ' ', 'b'] 1).splitTextWithSpans [['\n'], [' ']] ['\n', 'a', ' ', 'b'] 0 =
      (oneToken ['\n', 'a', ' ', 'b'] 1).plain [['\n'], [' ']] ['\n', 'a', ' ', 'b'] 0 :=
  splitTextWithSpans_eq_plain _ _ _ _ (.inl (by decide))

/-- A text that is small as a whole and has pieces that are not. -/
theorem skip_changes_small :
    (oneToken ['\n', 'a', ' ', 'b'] 2).splitTextWithSpans [['\n'], [' ']] ['\n', 'a', ' ', 'b'] 0 =
      [⟨['\n', 'a'], 0, 2⟩, ⟨[' ', 'b'], 2, 4⟩] ∧
    (oneToken ['\n', 'a', ' ', 'b'] 2).plain [['\n'], [' ']] ['\n', 'a', ' ', 'b'] 0 =
      [⟨['a', ' ', 'b'], 1, 4⟩] := by
  decide +kernel

end LightRAG.Chunking.Skips
