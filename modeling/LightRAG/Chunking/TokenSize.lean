import LightRAG.Chunking.RecursiveCharacterFacts
import LightRAG.Framework.Occurrences
import LightRAG.Framework.Separated

/-!
# Fixed-size token windows

The windows over the tokens of a text, or of its segments at a delimiter, each with the place of
its text in the source.
-/

namespace LightRAG.Chunking.TokenSize
open List Option Except

open Text (isSpace)

/-- A half-open range of positions, `start` and `end`. -/
abbrev Span := ℕ × ℕ

def slice {α : Type} (s : List α) (a b : ℕ) : List α := (s.drop a).take (b - a)

inductive ChunkingError
  | negativeOverlap (chunkOverlapTokenSize : ℤ)
  | overlapTooLarge (chunkOverlapTokenSize chunkTokenSize : ℤ)
  | tokenLimitExceeded (chunkTokens : ℕ) (chunkTokenLimit : ℤ) (chunkPreview : Str)
deriving DecidableEq

structure Chunk where
  tokens : ℕ
  content : Str
  chunkOrderIndex : ℕ
  sourceSpan : Option Span
deriving DecidableEq

/-- An entry of `new_chunks`. -/
structure NewChunk where
  tokens : ℕ
  content : Str
  span : Option Span

def trimmedSpan (content : Str) (start stop : ℕ) : Span :=
  let start := min start content.length
  let stop := max start (min stop content.length)
  let start' := start + ((slice content start stop).takeWhile isSpace).length
  (start', stop - ((slice content start' stop).reverse.takeWhile isSpace).length)

def sourceSpan (content : Str) (start stop : ℕ) : Option Span :=
  let span := trimmedSpan content start stop
  if span.2 ≤ span.1 then none else some span

def makeChunk (emit : Bool) (order : ℕ) (c : NewChunk) : Chunk where
  tokens := c.tokens
  content := strip c.content
  chunkOrderIndex := order
  sourceSpan := if emit then c.span else none

def windowStarts (n step : ℕ) : List ℕ := range' 0 ((n + step - 1) / step) step

def windowStep (size overlap : ℤ) : Except ChunkingError ℕ :=
  if size ≤ overlap then .error (.overlapTooLarge overlap size) else .ok (size - overlap).toNat

section

variable {τ : Type} (t : Tokenizer τ)

/-- Where the token would stand, from the text between it and the anchor. -/
def predictedStart (tokens : List τ) (startToken : ℕ) (anchor : ℕ × ℕ) : ℕ :=
  if anchor.1 ≤ startToken then anchor.2 + (t.decode (slice tokens anchor.1 startToken)).length
  else (t.decode (tokens.take startToken)).length

/-- `_token_window_source_span`: where the window stands in the text, and the next anchor. -/
def tokenWindowSourceSpan (content : Str) (tokens : List τ) (startToken endToken : ℕ)
    (anchor : ℕ × ℕ) : Option Span × (ℕ × ℕ) :=
  let window := t.decode (slice tokens startToken endToken)
  let start := predictedStart t tokens startToken anchor
  let stop := start + window.length
  if slice content start stop = window then
    (sourceSpan content start stop, (startToken, start))
  else
    -- `content.find(window, max(0, start - 32), min(len(content), end + 32 + len(window)))`
    let searched := content.take (min content.length (stop + 32 + window.length))
    match Occurrences.find window.isPrefixOf searched (start - 32) with
    | none => (none, anchor)
    | some found => (sourceSpan content found (found + window.length), (startToken, found))

/-- The loop over the windows of a text that begins at `base` of the content. -/
def windowChunks (text : Str) (tokens : List τ) (size base : ℕ) (emit : Bool) :
    (starts : List ℕ) → (anchor : ℕ × ℕ) → List NewChunk
  | [], _ => []
  | start :: starts, anchor =>
    let endToken := min (start + size) tokens.length
    let located := if emit then tokenWindowSourceSpan t text tokens start endToken anchor
      else (none, anchor)
    { tokens := min size (tokens.length - start)
      content := t.decode (slice tokens start endToken)
      span := located.1.map fun s => (base + s.1, base + s.2) } ::
      windowChunks text tokens size base emit starts located.2

def textWindows (text : Str) (size overlap : ℤ) (base : ℕ) (emit : Bool) :
    Except ChunkingError (List NewChunk) :=
  let tokens := t.encode text
  (windowStep size overlap).map fun step =>
    windowChunks t text tokens size.toNat base emit (windowStarts tokens.length step) (0, 0)

/-- One segment, which begins at `chunkStart`. -/
def segmentChunks (content : Str) (only : Bool) (size overlap : ℤ) (emit : Bool) (chunk : Str)
    (chunkStart : ℕ) : Except ChunkingError (List NewChunk) :=
  let tokens := t.encode chunk
  if size < tokens.length then
    if only then .error (.tokenLimitExceeded tokens.length size (chunk.take 120))
    else textWindows t chunk size overlap chunkStart emit
  else
    let span := if emit then sourceSpan content chunkStart (chunkStart + chunk.length) else none
    .ok [⟨tokens.length, chunk, span⟩]

/-- The loop over the segments; `separatorLen` characters stand between two of them. -/
def segmentsChunks (content : Str) (only : Bool) (size overlap : ℤ) (emit : Bool)
    (separatorLen : ℕ) : (chunks : List Str) → (cursor : ℕ) → Except ChunkingError (List NewChunk)
  | [], _ => .ok []
  | chunk :: chunks, cursor => do
    let here ← segmentChunks t content only size overlap emit chunk cursor
    let later ← segmentsChunks content only size overlap emit separatorLen chunks
      (cursor + chunk.length + separatorLen)
    return here ++ later

def chunkingByTokenSize (content : Str) (splitByCharacter : Option Str)
    (splitByCharacterOnly : Bool) (chunkOverlapTokenSize chunkTokenSize : ℤ)
    (emitSourceSpan : Bool) : Except ChunkingError (List Chunk) :=
  if chunkOverlapTokenSize < 0 then .error (.negativeOverlap chunkOverlapTokenSize)
  else
    let separator := splitByCharacter.getD []
    let newChunks :=
      if separator = [] then
        textWindows t content chunkTokenSize chunkOverlapTokenSize 0 emitSourceSpan
      else
        segmentsChunks t content splitByCharacterOnly chunkTokenSize chunkOverlapTokenSize
          emitSourceSpan separator.length (Separated.split separator 0 content) 0
    newChunks.map fun chunks => chunks.mapIdx (makeChunk emitSourceSpan)

def chunkingByFixedToken (content : Str) (chunkTokenSize chunkOverlapTokenSize : ℤ)
    (splitByCharacter : Option Str) (splitByCharacterOnly emitSourceSpan : Bool) :
    Except ChunkingError (List Chunk) :=
  chunkingByTokenSize t content splitByCharacter splitByCharacterOnly chunkOverlapTokenSize
    chunkTokenSize emitSourceSpan

end

/-- The windows of `size` tokens at the multiples of `step`, up to the end of the tokens. -/
structure Windows {τ : Type} (size step : ℕ) (tokens : List τ) (ws : List (List τ)) : Prop where
  window : ∀ k w, ws[k]? = some w → w = slice tokens (k * step) (k * step + size) ∧ w ≠ []
  covered : ∀ i < tokens.length, ∃ k w, ws[k]? = some w ∧ k * step ≤ i ∧ i < k * step + w.length

/-- Token counts and stripped texts of the windows of a text. -/
def WindowTexts {τ : Type} (t : Tokenizer τ) (size overlap : ℕ) (text : Str)
    (pieces : List (ℕ × Str)) : Prop :=
  ∃ ws, Windows size (size - overlap) (t.encode text) ws ∧
    pieces = ws.map fun w => (w.length, strip (t.decode w))

def Located (content text : Str) (span : Option Span) : Prop :=
  ∀ s, span = some s → s.1 < s.2 ∧ s.2 ≤ content.length ∧ slice content s.1 s.2 = strip text

/-! ## Slices -/

section

variable {content raw window : Str} {start stop a b base : ℕ} {s : Span}

theorem slice_slice (hraw : slice content base (base + raw.length) = raw) (hb : b ≤ raw.length) :
    slice content (base + a) (base + b) = slice raw a b := by
  rw [slice,Nat.add_sub_cancel_left] at hraw
  rw [slice,slice,← hraw,drop_take,drop_drop,take_take,Nat.add_sub_add_left]
  congr 1
  omega

theorem slice_clamped : slice content (min start content.length)
    (max (min start content.length) (min stop content.length)) = slice content start stop := by
  rcases Nat.le_total start content.length with hle | hge
  · rw [Nat.min_eq_left hle,slice,slice,take_eq_take_iff,length_drop]
    omega
  · rw [Nat.min_eq_right hge,slice,slice,drop_eq_nil_of_le hge,drop_length,take_nil,take_nil]

theorem trimmed_slice (content : Str) (hle : start ≤ stop) (hstop : stop ≤ content.length) :
    let start' := start + ((slice content start stop).takeWhile isSpace).length
    slice content start' (stop - ((slice content start' stop).reverse.takeWhile isSpace).length) =
      strip (slice content start stop) := by
  dsimp only
  generalize hw : slice content start stop = w
  have hlength : start + w.length = stop := by
    rw [← hw,slice,length_take,length_drop]
    omega
  have hwhole : slice content start (start + w.length) = w := by rw [hlength,hw]
  have hlength' := congrArg List.length (append_strip_append w)
  rw [length_append,length_append,length_reverse] at hlength'
  have hparts := congrArg (List.drop (w.takeWhile isSpace).length) (append_strip_append w)
  have hlead := congrArg (List.drop (w.takeWhile isSpace).length)
    (takeWhile_append_dropWhile (p := isSpace) (l := w))
  rw [drop_left] at hparts hlead
  have hrest : slice content (start + (w.takeWhile isSpace).length) stop = w.dropWhile isSpace := by
    rw [← hlength,slice_slice hwhole (Nat.le_refl _),slice,← hlead,
      take_of_length_le (by rw [hlead,length_drop])]
  rw [hrest,← hlength,hlength',← Nat.add_assoc,← Nat.add_assoc,Nat.add_sub_cancel,
    Nat.add_assoc,slice_slice hwhole (by omega),slice,Nat.add_sub_cancel_left,hparts,take_left]

theorem located_sourceSpan (hwindow : slice content start stop = window) :
    Located content window (sourceSpan content start stop) := by
  intro s hs
  rw [sourceSpan] at hs
  split at hs
  · cases hs
  next hlt =>
  obtain rfl := some.inj hs
  refine ⟨Nat.lt_of_not_le hlt,?_,?_⟩
  · dsimp only [trimmedSpan]
    omega
  · have htrimmed := trimmed_slice content
      (Nat.le_max_left (min start content.length) (min stop content.length))
      (Nat.max_le.mpr ⟨Nat.min_le_right _ _,Nat.min_le_right _ _⟩)
    exact htrimmed.trans (congrArg strip (slice_clamped.trans hwindow))

theorem slice_of_find {n : ℕ} (h : Occurrences.find window.isPrefixOf (content.take n) a = some b) :
    slice content b (b + window.length) = window := by
  obtain ⟨hle,hat,-⟩ := Occurrences.firstSuffix_spec h
  rw [Occurrences.drop_drop_sub hle, isPrefixOf_iff_prefix,drop_take] at hat
  rw [slice,Nat.add_sub_cancel_left]
  exact (prefix_iff_eq_take.mp (hat.trans (List.take_prefix _ _))).symm

end

/-! ## Windows -/

section

variable {τ : Type} {t : Tokenizer τ} {content text : Str} {tokens : List τ} {emit only : Bool}
  {base size step overlap : ℕ}

theorem tokenWindowSourceSpan_located (t : Tokenizer τ) (content : Str) (tokens : List τ)
    (start stop : ℕ) (anchor : ℕ × ℕ) : Located content (t.decode (slice tokens start stop))
      (tokenWindowSourceSpan t content tokens start stop anchor).1 := by
  rw [tokenWindowSourceSpan]
  split
  · next heq =>
    dsimp only at heq ⊢
    exact located_sourceSpan heq
  · dsimp only
    split
    · intro s hs
      cases hs
    · next hfound =>
      exact located_sourceSpan (slice_of_find hfound)

theorem Located.shift {raw window : Str} {span : Option Span} (h : Located raw window span)
    (hraw : slice content base (base + raw.length) = raw) :
    Located content window (span.map fun s => (base + s.1, base + s.2)) := by
  intro s hs
  obtain ⟨inner,hinner,rfl⟩ := map_eq_some_iff.mp hs
  obtain ⟨hlt,hle,htext⟩ := h inner hinner
  have hwithin : base + raw.length ≤ content.length := by
    have hlength := congrArg List.length hraw
    rw [slice,length_take,length_drop] at hlength
    omega
  refine ⟨by dsimp only; omega,by dsimp only; omega,?_⟩
  rw [slice_slice hraw hle,htext]

theorem windowChunks_located {starts : List ℕ} {anchor : ℕ × ℕ} {c : NewChunk}
    (hraw : slice content base (base + text.length) = text)
    (hc : c ∈ windowChunks t text tokens size base emit starts anchor) :
    Located content c.content c.span := by
  induction starts generalizing anchor with
  | nil => cases hc
  | cons start starts ih =>
    rcases mem_cons.mp hc with rfl | hrest
    · split
      · exact (tokenWindowSourceSpan_located t text tokens _ _ _).shift hraw
      · intro s hs
        cases hs
    · exact ih hrest

theorem slice_min (s : List τ) (a b : ℕ) : slice s a (min b s.length) = slice s a b := by
  rw [slice,slice,take_eq_take_iff,length_drop]
  omega

theorem windowChunks_texts (starts : List ℕ) (anchor : ℕ × ℕ) :
    (windowChunks t text tokens size base emit starts anchor).map
        (fun c => (c.tokens, strip c.content)) =
      (starts.map fun k => slice tokens k (k + size)).map
        fun w => (w.length, strip (t.decode w)) := by
  induction starts generalizing anchor with
  | nil => rfl
  | cons start starts ih =>
    rw [windowChunks,map_cons,map_cons,map_cons,ih]
    rw [slice_min,slice,length_take,length_drop,Nat.add_sub_cancel_left]

theorem windows_starts (hstep : 0 < step) (hle : step ≤ size) (tokens : List τ) :
    Windows size step tokens
      ((windowStarts tokens.length step).map fun k => slice tokens k (k + size)) := by
  have hstart : ∀ k, k < (tokens.length + step - 1) / step ↔ k * step < tokens.length := by
    intro k
    rw [Nat.lt_iff_add_one_le,Nat.le_div_iff_mul_le hstep,Nat.succ_mul]
    omega
  have hwindow : ∀ k, k * step < tokens.length →
      ((windowStarts tokens.length step).map fun k => slice tokens k (k + size))[k]? =
        some (slice tokens (k * step) (k * step + size)) := by
    intro k hk
    rw [getElem?_map,windowStarts,getElem?_range' ((hstart k).mpr hk),Nat.zero_add,Nat.mul_comm]
    rfl
  have hlength : ∀ k, (slice tokens k (k + size)).length = min size (tokens.length - k) := by
    intro k
    rw [slice,length_take,length_drop,Nat.add_sub_cancel_left]
  constructor
  · intro k w hw
    obtain ⟨hk,-⟩ := List.getElem?_eq_some_iff.mp hw
    rw [length_map,windowStarts,length_range',hstart] at hk
    rw [hwindow k hk,some_inj] at hw
    refine ⟨hw.symm,?_⟩
    rw [← hw,← length_pos_iff,hlength]
    omega
  · intro i hi
    have hdiv := Nat.div_mul_le_self i step
    have hmod := Nat.lt_div_mul_add hstep (a := i)
    refine ⟨i / step,_,hwindow _ (by omega),hdiv,?_⟩
    rw [hlength]
    omega

theorem textWindows_ok (h : overlap < size) (t : Tokenizer τ) (text : Str) (base : ℕ)
    (emit : Bool) : ∃ chunks, textWindows t text size overlap base emit = .ok chunks ∧
      WindowTexts t size overlap text (chunks.map fun c => (c.tokens, strip c.content)) := by
  have hstep : windowStep size overlap = .ok (size - overlap) := by
    rw [windowStep,if_neg (by omega)]
    congr 1
    omega
  rw [textWindows,hstep]
  refine ⟨_,rfl,_,windows_starts (by omega) (Nat.sub_le _ _) _,?_⟩
  rw [windowChunks_texts]
  rfl

theorem textWindows_located {size overlap : ℤ} {chunks : List NewChunk}
    (hraw : slice content base (base + text.length) = text)
    (h : textWindows t text size overlap base emit = .ok chunks) :
    ∀ c ∈ chunks, Located content c.content c.span := by
  rw [textWindows] at h
  cases hstep : windowStep size overlap with
  | error e =>
    rw [hstep] at h
    cases h
  | ok step =>
    rw [hstep] at h
    obtain rfl := ok.inj h
    exact fun c hc => windowChunks_located hraw hc

/-! ## Segments -/

/-- The whole segment if it fits, or else its windows. -/
def SegmentTexts (t : Tokenizer τ) (size overlap : ℕ) (segment : Str) (pieces : List (ℕ × Str)) :
    Prop :=
  (t.length segment ≤ size ∧ pieces = [(t.length segment, strip segment)]) ∨
    (size < t.length segment ∧ WindowTexts t size overlap segment pieces)

theorem segmentChunks_ok (h : overlap < size) (t : Tokenizer τ) (content : Str) (emit : Bool)
    (segment : Str) (start : ℕ) :
    ∃ chunks, segmentChunks t content false size overlap emit segment start = .ok chunks ∧
      SegmentTexts t size overlap segment (chunks.map fun c => (c.tokens, strip c.content)) := by
  rw [segmentChunks]
  split
  · next hlarge =>
    obtain ⟨chunks,hchunks,htexts⟩ := textWindows_ok h t segment start emit
    exact ⟨chunks,hchunks,.inr ⟨Int.ofNat_lt.mp hlarge,htexts⟩⟩
  · next hfits => exact ⟨_,rfl,.inl ⟨Int.ofNat_le.mp (Int.not_lt.mp hfits),rfl⟩⟩

theorem segmentChunks_located {size overlap : ℤ} {chunks : List NewChunk} {start : ℕ}
    (htext : slice content start (start + text.length) = text)
    (h : segmentChunks t content only size overlap emit text start = .ok chunks) :
    ∀ c ∈ chunks, Located content c.content c.span := by
  rw [segmentChunks] at h
  split at h
  · split at h
    · cases h
    · exact textWindows_located htext h
  · obtain rfl := ok.inj h
    refine forall_mem_singleton.mpr ?_
    split
    · exact located_sourceSpan htext
    · intro s hs
      cases hs

theorem segmentsChunks_ok (h : overlap < size) (t : Tokenizer τ) (content : Str) (emit : Bool)
    (separatorLen : ℕ) (segments : List Str) (cursor : ℕ) :
    ∃ chunks parts, segmentsChunks t content false size overlap emit separatorLen segments cursor =
        .ok chunks ∧ chunks.map (fun c => (c.tokens, strip c.content)) = parts.flatten ∧
      Forall₂ (SegmentTexts t size overlap) segments parts := by
  induction segments generalizing cursor with
  | nil => exact ⟨[],[],rfl,rfl,.nil⟩
  | cons segment segments ih =>
    obtain ⟨here,hhere,hpart⟩ := segmentChunks_ok h t content emit segment cursor
    obtain ⟨later,parts,hlater,hparts,hall⟩ := ih (cursor + segment.length + separatorLen)
    refine ⟨here ++ later,_ :: parts,?_,?_,.cons hpart hall⟩
    · rw [segmentsChunks,hhere,hlater]
      rfl
    · rw [map_append,hparts,flatten_cons]

theorem segmentsChunks_located {size overlap : ℤ} {separator : Str} {segments : List Str}
    {cursor : ℕ} {chunks : List NewChunk}
    (hjoin : segments ≠ [] → content.drop cursor = Separated.join separator segments)
    (h : segmentsChunks t content only size overlap emit separator.length segments cursor =
      .ok chunks) : ∀ c ∈ chunks, Located content c.content c.span := by
  induction segments generalizing cursor chunks with
  | nil =>
    obtain rfl := ok.inj h
    exact forall_mem_nil _
  | cons segment segments ih =>
    rw [segmentsChunks] at h
    cases hhere : segmentChunks t content only size overlap emit segment cursor with
    | error e =>
      rw [hhere] at h
      cases h
    | ok here =>
      cases hlater : segmentsChunks t content only size overlap emit separator.length segments
          (cursor + segment.length + separator.length) with
      | error e =>
        rw [hhere,hlater] at h
        cases h
      | ok later =>
        rw [hhere,hlater] at h
        obtain rfl := ok.inj h
        have hdrop := hjoin (cons_ne_nil _ _)
        rw [Separated.join] at hdrop
        have hsegment : slice content cursor (cursor + segment.length) = segment := by
          rw [slice,Nat.add_sub_cancel_left,hdrop]
          split
          · exact take_length
          · exact take_left
        refine forall_mem_append.mpr ⟨segmentChunks_located hsegment hhere,ih ?_ hlater⟩
        intro hmore
        rw [if_neg hmore] at hdrop
        rw [← drop_drop,← drop_drop,hdrop,drop_left,drop_left]

end

theorem token_size_chunks {τ : Type} (t : Tokenizer τ) (content : Str)
    (splitByCharacter : Option Str) (only emit : Bool) {overlap size : ℕ} (h : overlap < size) :
    let result := chunkingByTokenSize t content splitByCharacter only overlap size emit
    (splitByCharacter.getD [] = [] → ∃ chunks, result = .ok chunks ∧
      WindowTexts t size overlap content (chunks.map fun c => (c.tokens, c.content))) ∧
    (∀ separator, splitByCharacter = some separator → separator ≠ [] → only = false →
      ∃ chunks parts, result = .ok chunks ∧
        chunks.map (fun c => (c.tokens, c.content)) = parts.flatten ∧
        Forall₂ (SegmentTexts t size overlap) (Separated.split separator 0 content) parts) ∧
    ∀ chunks, result = .ok chunks → ∀ c ∈ chunks, ∀ s, c.sourceSpan = some s →
      s.1 < s.2 ∧ s.2 ≤ content.length ∧ slice content s.1 s.2 = c.content := by
  have htexts : ∀ chunks : List NewChunk, (chunks.mapIdx (makeChunk emit)).map
      (fun c => (c.tokens, c.content)) = chunks.map fun c => (c.tokens, strip c.content) := by
    intro chunks
    exact map_mapIdx (f := makeChunk emit) (g := fun c => (c.tokens, c.content))
      (h := fun c => (c.tokens, strip c.content)) (fun _ _ => rfl) chunks
  rw [chunkingByTokenSize,if_neg (by omega)]
  dsimp only
  refine ⟨fun hnone => ?_,fun separator hseparator hne honly => ?_,fun chunks hchunks => ?_⟩
  · obtain ⟨chunks,hchunks,hwindows⟩ := textWindows_ok h t content 0 emit
    rw [if_pos hnone,hchunks]
    exact ⟨_,rfl,by rwa [htexts]⟩
  · obtain ⟨chunks,parts,hchunks,hparts,hall⟩ := segmentsChunks_ok h t content emit
      separator.length (Separated.split separator 0 content) 0
    rw [hseparator,honly,getD_some,if_neg hne,hchunks]
    exact ⟨_,parts,rfl,by rwa [htexts],hall⟩
  · cases hnew : (if splitByCharacter.getD [] = [] then textWindows t content size overlap 0 emit
        else segmentsChunks t content only size overlap emit (splitByCharacter.getD []).length
          (Separated.split (splitByCharacter.getD []) 0 content) 0) with
    | error e =>
      rw [hnew] at hchunks
      cases hchunks
    | ok new =>
      have hlocated : ∀ c ∈ new, Located content c.content c.span := by
        split at hnew
        · exact textWindows_located (by simp [slice]) hnew
        · next hne =>
          exact segmentsChunks_located (fun _ => (Separated.join_split hne 0 _).symm) hnew
      rw [hnew] at hchunks
      obtain rfl := ok.inj hchunks
      intro c hc s hs
      obtain ⟨i,hi,rfl⟩ := mem_mapIdx.mp hc
      rw [makeChunk] at hs
      split at hs
      · exact hlocated _ (getElem_mem hi) s hs
      · cases hs

theorem token_size_chunks_overlapping :
    let t : Tokenizer Char := ⟨id,id⟩
    chunkingByTokenSize t ['a', 'b', ' ', 'c'] none false (1 : ℕ) (3 : ℕ) true =
        .ok [⟨3,['a', 'b'],0,some (0, 2)⟩, ⟨2,['c'],1,some (3, 4)⟩] ∧
      WindowTexts t 3 1 ['a', 'b', ' ', 'c'] [(3, ['a', 'b']), (2, ['c'])] := by
  have hresult : chunkingByTokenSize (⟨id,id⟩ : Tokenizer Char) ['a', 'b', ' ', 'c'] none false
      (1 : ℕ) (3 : ℕ) true =
        .ok [⟨3,['a', 'b'],0,some (0, 2)⟩, ⟨2,['c'],1,some (3, 4)⟩] := by decide +kernel
  obtain ⟨chunks,hchunks,htexts⟩ := (token_size_chunks (⟨id,id⟩ : Tokenizer Char)
    ['a', 'b', ' ', 'c'] none false true (by decide : 1 < 3)).1 rfl
  obtain rfl := ok.inj (hresult.symm.trans hchunks)
  exact ⟨hresult,htexts⟩

end LightRAG.Chunking.TokenSize
