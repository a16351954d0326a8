import LightRAG.Chunking.Tokens
import LightRAG.Framework.Loop
import LightRAG.Framework.Results
import LightRAG.Framework.Utf8
import LightRAG.Query.Prompt
import Mathlib.Data.List.Chain

/-!
# Splitting a text within a token limit

`Tokenizer.split_by_token_limit` searches each window by the number of its characters,
`TiktokenTokenizer.split_by_token_limit` by the offsets at which the tokens of the text begin.
-/

namespace LightRAG.Chunking.SafeSplit

structure TokenSpan where
  start : ℕ
  stop : ℕ
  tokenCount : ℕ
deriving DecidableEq

structure TokenBudgetError where
  maxTokens : ℕ
  codePointTokenCount : ℕ
  preview : Str
deriving DecidableEq

def slice (content : Str) (start stop : ℕ) : Str := (content.take stop).drop start

section

/-! The number of tokens of a text, the text and the limit. -/

variable (count : Str → ℕ) (content : Str) (maxTokens overlapTokens : ℕ)

def firstCodePoint (start : ℕ) : Except TokenBudgetError TokenSpan :=
  let tokens := count (slice content start (start + 1))
  if maxTokens < tokens then
    .error ⟨maxTokens, tokens, slice content start (start + 80)⟩
  else .ok ⟨start, start + 1, tokens⟩

/-- What a float makes of the characters for a number of tokens. -/
structure CharsPerToken where
  /-- `int(tokens * chars_per_token)` -/
  truncated : ℕ → ℕ
  /-- `int(round(tokens * chars_per_token))` -/
  rounded : ℕ → ℕ

/-- `min(overlap_tokens, max(0, spans[-1].token_count - 1))` -/
def targetOverlap (lastCount : ℕ) : ℕ := min overlapTokens (lastCount - 1)

def boundedPrefixSpan (ratio : CharsPerToken) (start : ℕ) : Except TokenBudgetError TokenSpan :=
  let remaining := content.length - start
  let tokens (n : ℕ) := count (slice content start (start + n))
  let seed := min remaining (max 1 (ratio.truncated maxTokens))
  match QueryPrompt.boundedPrefix (fun n => tokens n ≤ maxTokens) remaining seed with
  | some good => .ok ⟨start, start + good, tokens good⟩
  | none => firstCodePoint count content maxTokens start

structure Covered where
  stop : ℕ
  lastCount : ℕ

/-- One round: the overlap retreats until the window goes beyond what is covered. -/
def nextWindow (ratio : CharsPerToken) (s : Covered) :
    Except TokenBudgetError (TokenSpan × Covered) :=
  let attempt (overlap : ℕ) := boundedPrefixSpan count content maxTokens ratio
    (s.stop - if 0 < overlap then ratio.rounded overlap else 0)
  let target := if 0 < s.stop then targetOverlap overlapTokens s.lastCount else 0
  (Retreat.search attempt (fun span => s.stop < span.stop) target 0).map fun w =>
    (w.2, ⟨w.2.stop, w.2.tokenCount⟩)

def windows (ratio : CharsPerToken) : Loop Covered TokenBudgetError TokenSpan where
  done s := content.length ≤ s.stop
  step := nextWindow count content maxTokens overlapTokens ratio

/-- `Tokenizer.split_by_token_limit`, nothing where the fuel is out. -/
def splitByTokenLimit (ratio : CharsPerToken) (fuel : ℕ) :
    Option (Except TokenBudgetError (List TokenSpan)) :=
  if content = [] then some (.ok [])
  else if count content ≤ maxTokens then some (.ok [⟨0, content.length, count content⟩])
  else (windows count content maxTokens overlapTokens ratio).run fuel ⟨0, 0⟩

variable (offsets : List ℕ) (totalTokens : ℕ)

def boundary (k : ℕ) : ℕ := if k < totalTokens then offsets.getD k 0 else content.length

/-- The windows of fewer and fewer tokens: `k`, then `k - step` with a step that doubles. -/
def retreatTokens (startChar startToken k j : ℕ) (lastEnd : Option ℕ) : Option (TokenSpan × ℕ) :=
  let stop := boundary content offsets totalTokens (startToken + k)
  let tokens := count (slice content startChar stop)
  if some stop ≠ lastEnd ∧ startChar < stop ∧ tokens ≤ maxTokens then
    some (⟨startChar, stop, tokens⟩, startToken + k)
  else if _h : k ≤ 1 then none
  else retreatTokens startChar startToken (max 1 (k - 2 ^ j)) (j + 1) (some stop)
termination_by k
decreasing_by
  have := Nat.two_pow_pos j
  omega

/-- `while end_token < total_tokens and boundary(end_token) < end_char: end_token += 1` -/
def advance (endChar endToken : ℕ) : ℕ :=
  if endToken < totalTokens ∧ boundary content offsets totalTokens endToken < endChar then
    advance endChar (endToken + 1)
  else endToken
termination_by totalTokens - endToken

def prefixSpanViaBoundary (startChar startToken : ℕ) : Except TokenBudgetError (TokenSpan × ℕ) :=
  let k := min (totalTokens - startToken) maxTokens
  match retreatTokens count content maxTokens offsets totalTokens startChar startToken k 0 none with
  | some window => .ok window
  | none =>
    (firstCodePoint count content maxTokens startChar).map fun span =>
      (span, advance content offsets totalTokens span.stop startToken)

structure CoveredTokens where
  stop : ℕ
  token : ℕ
  lastCount : ℕ

def acceptedWindow (s : CoveredTokens) : Except TokenBudgetError (ℕ × (TokenSpan × ℕ)) :=
  let attempt (overlap : ℕ) := prefixSpanViaBoundary count content maxTokens offsets totalTokens
    (boundary content offsets totalTokens (s.token - overlap)) (s.token - overlap)
  let target := if 0 < s.token then targetOverlap overlapTokens s.lastCount else 0
  Retreat.search attempt (fun w => s.stop < w.1.stop) target 0

def tokenWindows : Loop CoveredTokens TokenBudgetError TokenSpan where
  done s := content.length ≤ s.stop
  step s := (acceptedWindow count content maxTokens overlapTokens offsets totalTokens s).map
    fun w => (w.2.1, ⟨w.2.1.stop, w.2.2, w.2.1.tokenCount⟩)

end

/-- A `TiktokenTokenizer` by what it calls: `decode_with_offsets` gives nothing where it raises. -/
structure Tiktoken (τ : Type) where
  encode : Str → List τ
  decodeWithOffsets : List τ → Option (Str × List ℕ)

namespace Tiktoken

variable {τ : Type} (t : Tiktoken τ)

def count (text : Str) : ℕ := (t.encode text).length

/-- `TiktokenTokenizer.split_by_token_limit`, nothing where the fuel is out. -/
def splitByTokenLimit (content : Str) (maxTokens overlapTokens : ℕ) (ratio : CharsPerToken)
    (fuel : ℕ) : Option (Except TokenBudgetError (List TokenSpan)) :=
  if content = [] then some (.ok [])
  else
    let tokens := t.encode content
    if tokens.length ≤ maxTokens then some (.ok [⟨0, content.length, tokens.length⟩])
    else
      match t.decodeWithOffsets tokens with
      | none => SafeSplit.splitByTokenLimit t.count content maxTokens overlapTokens ratio fuel
      | some (decodedText, offsets) =>
        if decodedText = content then
          (tokenWindows t.count content maxTokens overlapTokens offsets tokens.length).run fuel
            ⟨0, 0, 0⟩
        else SafeSplit.splitByTokenLimit t.count content maxTokens overlapTokens ratio fuel

end Tiktoken

end LightRAG.Chunking.SafeSplit

/-!
## What the windows of a split cover
-/

namespace LightRAG.QueryPrompt

variable {fits : ℕ → Bool} {length candidate seed good bad n : ℕ}

theorem grow_le (hpos : 0 < candidate) (hle : candidate ≤ length) :
    (grow fits length candidate).2 ≤ length + 1 := by
  fun_induction grow fits length candidate with
  | case1 candidate h hnext ih => exact ih (by omega) (by omega)
  | case2 candidate h hnext =>
    omega
  | case3 candidate h => exact Nat.le_refl _

theorem halve_le : (halve fits candidate).2 ≤ candidate := by
  fun_induction halve fits candidate with
  | case1 candidate h hnext => exact Nat.le_refl _
  | case2 candidate h hnext ih => omega
  | case3 candidate h => exact Nat.le_refl _

theorem bisect_lt (h : good < bad) : bisect fits good bad < bad := by
  fun_induction bisect fits good bad with
  | case1 good bad hgap hmid ih => exact ih (by omega)
  | case2 good bad hgap hmid ih =>
    omega
  | case3 good bad hgap => exact h

theorem boundedPrefix_some (hseed : 0 < seed) (hle : seed ≤ length)
    (h : boundedPrefix fits length seed = some n) : 0 < n ∧ n ≤ length ∧ fits n = true := by
  obtain ⟨good,bad,hstart,hbracket,hbad⟩ : ∃ good bad,
      (if fits seed then grow fits length seed else halve fits seed) = (good, bad) ∧
        Bracket fits length good bad ∧ bad ≤ length + 1 := by
    by_cases hfit : fits seed = true
    · rw [if_pos hfit]
      exact ⟨_,_,rfl,bracket_grow hseed hle hfit,grow_le hseed hle⟩
    · rw [if_neg hfit]
      have hhalved : (halve fits seed).2 ≤ seed := halve_le
      exact ⟨_,_,rfl,bracket_halve hseed (by simpa using hfit),by omega⟩
  rw [boundedPrefix,hstart] at h
  dsimp only at h
  split at h
  · rename_i hpos
    cases h
    have hlt : bisect fits good bad < bad := bisect_lt hbracket.lt
    have hgood := (bracket_bisect hbracket).good
    exact ⟨hpos,by omega,hgood.resolve_left (by omega)⟩
  · split at h
    · rename_i hone
      cases h
      exact ⟨Nat.one_pos,by omega,hone⟩
    · cases h

end LightRAG.QueryPrompt

namespace LightRAG.Chunking.SafeSplit
open List

variable {count : Str → ℕ} {content : Str} {maxTokens overlapTokens start : ℕ}
  {ratio : CharsPerToken} {span : TokenSpan} {spans : List TokenSpan} {e : TokenBudgetError}

/-- A span carries the number of its tokens, and these are within the limit. -/
def Counted (count : Str → ℕ) (content : Str) (maxTokens : ℕ) (span : TokenSpan) : Prop :=
  span.tokenCount = count (slice content span.start span.stop) ∧ span.tokenCount ≤ maxTokens

structure Covers (count : Str → ℕ) (content : Str) (maxTokens : ℕ) (spans : List TokenSpan) :
    Prop where
  bounds : ∀ span ∈ spans, span.start < span.stop ∧ span.stop ≤ content.length
  first : ∀ span ∈ spans.head?, span.start = 0
  last : (spans.getLast?.map TokenSpan.stop).getD 0 = content.length
  increasing : spans.IsChain fun a b => a.stop < b.stop
  gapless : spans.IsChain fun a b => b.start ≤ a.stop
  counted : ∀ span ∈ spans, Counted count content maxTokens span

def Oversized (count : Str → ℕ) (content : Str) (maxTokens : ℕ) : Prop :=
  ∃ c ∈ content, maxTokens < count [c]

/-- The call ends, with spans that cover the text or over a character that exceeds the limit. -/
def SplitsSafely (count : Str → ℕ) (content : Str) (maxTokens : ℕ)
    (call : ℕ → Option (Except TokenBudgetError (List TokenSpan))) : Prop :=
  ∃ result, (∃ n, ∀ fuel ≥ n, call fuel = some result) ∧
    match result with
    | .ok spans => Covers count content maxTokens spans
    | .error _ => Oversized count content maxTokens

/-- The spans cover the text from `covered` on. -/
def CoversFrom (count : Str → ℕ) (content : Str) (maxTokens : ℕ) : ℕ → List TokenSpan → Prop
  | covered, [] => covered = content.length
  | covered, span :: rest =>
    span.start ≤ covered ∧ covered < span.stop ∧ span.start < span.stop ∧
      span.stop ≤ content.length ∧ Counted count content maxTokens span ∧
        CoversFrom count content maxTokens span.stop rest

theorem CoversFrom.covers_rest {covered : ℕ}
    (h : CoversFrom count content maxTokens covered spans) :
    (∀ span ∈ spans, span.start < span.stop ∧ span.stop ≤ content.length) ∧
      (spans.getLast?.map TokenSpan.stop).getD covered = content.length ∧
      (spans.IsChain fun a b => a.stop < b.stop) ∧ (spans.IsChain fun a b => b.start ≤ a.stop) ∧
      ∀ span ∈ spans, Counted count content maxTokens span := by
  induction spans generalizing covered with
  | nil => exact ⟨forall_mem_nil _,h,.nil,.nil,forall_mem_nil _⟩
  | cons span rest ih =>
    obtain ⟨hstart,hcovered,hlt,hle,hcounted,hrest⟩ := h
    obtain ⟨hbounds,hlast,hincreasing,hgapless,hall⟩ := ih hrest
    refine ⟨forall_mem_cons.mpr ⟨⟨hlt,hle⟩,hbounds⟩,?_,?_,?_,forall_mem_cons.mpr ⟨hcounted,hall⟩⟩
    · cases rest with
      | nil => exact hlast
      | cons next rest => rwa [List.getLast?_cons_cons]
    · cases rest with
      | nil => exact .singleton _
      | cons next rest => exact .cons_cons hrest.2.1 hincreasing
    · cases rest with
      | nil => exact .singleton _
      | cons next rest => exact .cons_cons hrest.1 hgapless

theorem CoversFrom.covers (h : CoversFrom count content maxTokens 0 spans) :
    Covers count content maxTokens spans := by
  obtain ⟨hbounds,hlast,hincreasing,hgapless,hall⟩ := h.covers_rest
  refine ⟨hbounds,?_,hlast,hincreasing,hgapless,hall⟩
  cases spans with
  | nil => exact fun _ hspan => nomatch hspan
  | cons span rest =>
    intro first hfirst
    cases hfirst
    exact Nat.le_zero.mp h.1

theorem Covers.coversFrom (h : Covers count content maxTokens spans) :
    CoversFrom count content maxTokens 0 spans := by
  have hrest : ∀ (spans : List TokenSpan) (covered : ℕ),
      (∀ span ∈ spans, span.start < span.stop ∧ span.stop ≤ content.length) →
      (∀ span ∈ spans.head?, span.start ≤ covered ∧ covered < span.stop) →
      (spans.getLast?.map TokenSpan.stop).getD covered = content.length →
      (spans.IsChain fun a b => a.stop < b.stop) → (spans.IsChain fun a b => b.start ≤ a.stop) →
      (∀ span ∈ spans, Counted count content maxTokens span) →
      CoversFrom count content maxTokens covered spans := by
    intro spans
    induction spans with
    | nil => exact fun _ _ _ hlast _ _ _ => hlast
    | cons span rest ih =>
      intro covered hbounds hhead hlast hincreasing hgapless hcounted
      rw [forall_mem_cons] at hbounds hcounted
      obtain ⟨hstart,hcovered⟩ := hhead span rfl
      refine ⟨hstart,hcovered,hbounds.1.1,hbounds.1.2,hcounted.1,
        ih span.stop hbounds.2 ?_ ?_ hincreasing.tail hgapless.tail hcounted.2⟩
      · intro next hnext
        cases rest with
        | nil => cases hnext
        | cons head rest =>
          cases hnext
          exact ⟨(isChain_cons_cons.mp hgapless).1,(isChain_cons_cons.mp hincreasing).1⟩
      · cases rest with
        | nil => exact hlast
        | cons head rest => rwa [List.getLast?_cons_cons] at hlast
  apply hrest spans 0 h.bounds _ h.last h.increasing h.gapless h.counted
  intro span hspan
  have hzero := h.first span hspan
  have hmem := h.bounds span (mem_of_mem_head? hspan)
  omega

theorem slice_one (h : start < content.length) : slice content start (start + 1) = [content[start]] := by
  rw [slice,drop_take,Nat.add_sub_cancel_left]
  exact take_one_drop_eq_of_lt_length h

theorem slice_of_le {stop : ℕ} (h : content.length ≤ start) : slice content start stop = [] := by
  rw [slice,drop_eq_nil_iff,length_take]
  omega

theorem oversized_of_firstCodePoint (hempty : count [] = 0)
    (h : firstCodePoint count content maxTokens start = .error e) :
    Oversized count content maxTokens := by
  rw [firstCodePoint] at h
  split at h
  · rename_i hexceeds
    rcases Nat.lt_or_ge start content.length with hlt | hge
    · rw [slice_one hlt] at hexceeds
      exact ⟨_,getElem_mem hlt,hexceeds⟩
    · rw [slice_of_le hge] at hexceeds
      omega
  · cases h

theorem firstCodePoint_ok (h : firstCodePoint count content maxTokens start = .ok span) :
    span.start = start ∧ span.stop = start + 1 ∧ Counted count content maxTokens span := by
  rw [firstCodePoint] at h
  split at h
  · cases h
  · cases h
    exact ⟨rfl,rfl,rfl,by dsimp only; omega⟩

theorem boundedPrefixSpan_ok (hstart : start < content.length)
    (h : boundedPrefixSpan count content maxTokens ratio start = .ok span) :
    span.start = start ∧ start < span.stop ∧ span.stop ≤ content.length ∧
      Counted count content maxTokens span := by
  rw [boundedPrefixSpan] at h
  split at h
  · rename_i good hgood
    cases h
    obtain ⟨hpos,hle,hfits⟩ := QueryPrompt.boundedPrefix_some (by omega) (by omega) hgood
    rw [decide_eq_true_eq] at hfits
    refine ⟨rfl,?_,?_,rfl,hfits⟩
    · dsimp only
      omega
    · dsimp only
      omega
  · obtain ⟨hspan,hstop,hcounted⟩ := firstCodePoint_ok h
    exact ⟨hspan,by omega,by omega,hcounted⟩

theorem oversized_of_boundedPrefixSpan (hempty : count [] = 0)
    (h : boundedPrefixSpan count content maxTokens ratio start = .error e) :
    Oversized count content maxTokens := by
  rw [boundedPrefixSpan] at h
  split at h
  · cases h
  · exact oversized_of_firstCodePoint hempty h

theorem nextWindow_ok {s t : Covered} (hs : s.stop < content.length)
    (h : nextWindow count content maxTokens overlapTokens ratio s = .ok (span, t)) :
    span.start ≤ s.stop ∧ s.stop < span.stop ∧ span.start < span.stop ∧
      span.stop ≤ content.length ∧ Counted count content maxTokens span ∧ t.stop = span.stop := by
  obtain ⟨⟨overlap,window⟩,hsearch,hmap⟩ := Results.map_ok h
  obtain ⟨rfl,rfl⟩ := Prod.mk.inj hmap
  obtain ⟨hattempt,-,haccepts⟩ := Retreat.search_ok hsearch
  dsimp only at hattempt haccepts ⊢
  obtain ⟨hstart,hlt,hle,hcounted⟩ := boundedPrefixSpan_ok (by omega) hattempt
  refine ⟨by omega,?_,by omega,hle,hcounted,rfl⟩
  by_cases hzero : overlap = 0
  · subst hzero
    exact hlt
  · exact of_decide_eq_true (haccepts hzero)

theorem oversized_of_nextWindow (hempty : count [] = 0) {s : Covered}
    (h : nextWindow count content maxTokens overlapTokens ratio s = .error e) :
    Oversized count content maxTokens := by
  have hattempt := Retreat.search_error (Results.map_error h)
  exact oversized_of_boundedPrefixSpan hempty hattempt

theorem windows_coversFrom {s : Covered} {fuel : ℕ} (hs : s.stop ≤ content.length)
    (h : (windows count content maxTokens overlapTokens ratio).run fuel s = some (.ok spans)) :
    CoversFrom count content maxTokens s.stop spans := by
  induction spans generalizing s fuel with
  | nil =>
    rcases Loop.run_ok_cases h with ⟨hdone,-⟩ | ⟨_,_,_,_,_,_,_,hnil⟩
    · exact Nat.le_antisymm hs (of_decide_eq_true hdone)
    · cases hnil
  | cons span rest ih =>
    rcases Loop.run_ok_cases h with ⟨-,hnil⟩ | ⟨item,t,rest',fuel',hdone,hstep,hrest,hcons⟩
    · cases hnil
    · obtain ⟨rfl,rfl⟩ := List.cons.inj hcons
      have hlt : s.stop < content.length := by simpa [windows] using hdone
      obtain ⟨hstart,hcovered,hspan,hle,hcounted,hnext⟩ := nextWindow_ok hlt hstep
      have htail := ih (by omega) hrest
      rw [hnext] at htail
      exact ⟨hstart,hcovered,hspan,hle,hcounted,htail⟩

theorem covers_whole (hne : content ≠ []) (hfits : count content ≤ maxTokens) :
    Covers count content maxTokens [⟨0, content.length, count content⟩] := by
  apply CoversFrom.covers
  have hpos : 0 < content.length := length_pos_iff.mpr hne
  refine ⟨Nat.le_refl 0,hpos,hpos,Nat.le_refl _,⟨?_,hfits⟩,rfl⟩
  rw [slice,take_length,drop_zero]

theorem covers_nil : Covers count [] maxTokens [] := by
  apply CoversFrom.covers
  exact rfl

theorem SplitsSafely.of_run {result : Except TokenBudgetError (List TokenSpan)} {n : ℕ}
    {call : ℕ → Option (Except TokenBudgetError (List TokenSpan))}
    (hruns : ∀ fuel > n, call fuel = some result)
    (hok : ∀ spans, result = .ok spans → Covers count content maxTokens spans)
    (herror : ∀ e, result = .error e → Oversized count content maxTokens) :
    SplitsSafely count content maxTokens call := by
  refine ⟨result,⟨n + 1,hruns⟩,?_⟩
  cases result with
  | ok spans => exact hok spans rfl
  | error e => exact herror e rfl

theorem windows_end (s : Covered) :
    ∃ result, ∀ fuel > content.length - s.stop,
      (windows count content maxTokens overlapTokens ratio).run fuel s = some result := by
  refine Loop.run_ends (fun _ => True) (fun t : Covered => content.length - t.stop) ?_ trivial
  intro t item u _ hdone hstep
  have hlt : t.stop < content.length := by simpa [windows] using hdone
  obtain ⟨-,hcovered,-,hle,-,hnext⟩ := nextWindow_ok hlt hstep
  exact ⟨trivial,by omega⟩

theorem splitByTokenLimit_ends (content : Str) (maxTokens overlapTokens : ℕ)
    (ratio : CharsPerToken) (hempty : count [] = 0) :
    ∃ result, (∀ fuel > content.length,
        splitByTokenLimit count content maxTokens overlapTokens ratio fuel = some result) ∧
      (∀ spans, result = .ok spans → Covers count content maxTokens spans) ∧
      ∀ e, result = .error e → Oversized count content maxTokens := by
  by_cases hnil : content = []
  · subst hnil
    refine ⟨.ok [],fun fuel _ => if_pos rfl,?_,fun _ herror => nomatch herror⟩
    rintro spans hok
    cases hok
    exact covers_nil
  · by_cases hfits : count content ≤ maxTokens
    · refine ⟨.ok [⟨0,content.length,count content⟩],
        fun fuel _ => (if_neg hnil).trans (if_pos hfits),?_,fun _ herror => nomatch herror⟩
      rintro spans hok
      cases hok
      exact covers_whole hnil hfits
    · have hends : ∃ result, ∀ fuel > content.length,
          (windows count content maxTokens overlapTokens ratio).run fuel ⟨0,0⟩ = some result :=
        windows_end ⟨0,0⟩
      obtain ⟨result,hruns⟩ := hends
      refine ⟨result,fun fuel hfuel =>
        (if_neg hnil).trans ((if_neg hfits).trans (hruns fuel hfuel)),?_,?_⟩
      · rintro spans rfl
        exact (windows_coversFrom (Nat.zero_le _) (hruns _ (Nat.lt_succ_self _))).covers
      · rintro e rfl
        obtain ⟨t,-,-,hstep⟩ := Loop.raises_at (hruns _ (Nat.lt_succ_self _))
        exact oversized_of_nextWindow hempty hstep

theorem splitByTokenLimit_safe (hempty : count [] = 0) :
    SplitsSafely count content maxTokens
      (splitByTokenLimit count content maxTokens overlapTokens ratio) := by
  obtain ⟨result,hruns,hok,herror⟩ :=
    splitByTokenLimit_ends content maxTokens overlapTokens ratio hempty
  exact .of_run hruns hok herror

end LightRAG.Chunking.SafeSplit
