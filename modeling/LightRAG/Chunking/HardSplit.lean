import LightRAG.Chunking.SafeSplit

/-!
# The hard split before embedding

`enforce_chunk_token_limit_before_embedding` splits what is still over the limit and carries the
place of a chunk in the document over to its pieces: by adding offsets where the place is as long as
the content, and over a map of positions where it is not.
-/

namespace LightRAG.Chunking.HardSplit

open Text (isSpace)
open SafeSplit (TokenSpan TokenBudgetError slice)

structure SourceSpan where
  start : ℤ
  stop : ℤ
deriving DecidableEq

structure Chunk where
  content : Str
  tokens : ℕ
  chunkId : Option Str
  chunkOrderIndex : ℤ
  /-- `none` also for a span that is not one. -/
  sourceSpan : Option SourceSpan
  /-- `split_part` and `split_total` of a `hard_fallback` piece. -/
  split : Option (ℕ × ℕ)
deriving DecidableEq

inductive EnforceError
  | budget (e : TokenBudgetError)
  /-- `ChunkBlockMatchError` -/
  | blockMatch (chunkOrderIndex : ℤ) (chunkPreview : Str)
deriving DecidableEq

/-- The positions of the characters other than white space. -/
def nonWsPositions : Str → List ℕ
  | [] => []
  | c :: cs =>
    let rest := (nonWsPositions cs).map (· + 1)
    if isSpace c then rest else 0 :: rest

/-- `proj[p_idx] = offset` for the positions and the offsets side by side; one entry more than the
content has characters. -/
def assign : Str → List ℕ → List (Option ℕ)
  | [], _ => [none]
  | c :: cs, offsets =>
    if isSpace c then none :: assign cs offsets else offsets.head? :: assign cs offsets.tail

def inherit (nextVal : ℕ) (proj : List (Option ℕ)) : List ℕ × ℕ :=
  proj.foldr (fun o rest => (o.getD rest.2 :: rest.1, o.getD rest.2)) ([], nextVal)

def parentToSourceProjection (source : Str) (parentStart parentEnd : ℕ) (parentContent : Str) :
    Option (List ℕ) :=
  let sourceSlice := slice source parentStart parentEnd
  if sourceSlice = parentContent then
    some (List.range' parentStart (parentEnd + 1 - parentStart))
  else if solid sourceSlice = solid parentContent then
    let offsets := (nonWsPositions sourceSlice).map (parentStart + ·)
    some (inherit parentEnd (assign parentContent offsets)).1
  else none

def mapChildSpan (localStart localEnd parentStart parentEnd : ℕ) (projection : Option (List ℕ)) :
    Option SourceSpan :=
  let absStart := match projection with
    | none => parentStart + localStart
    | some proj => proj.getD localStart 0
  let absEnd := match projection with
    | none => parentStart + localEnd
    | some proj => proj.getD localEnd 0
  if absStart < parentStart ∨ parentEnd < absEnd ∨ absEnd ≤ absStart then none
  else some ⟨absStart, absEnd⟩

/-- What is known of the place of a parent: nothing, or its ends and the map of its positions. -/
abbrev Placement := Option ((ℕ × ℕ) × Option (List ℕ))

def placement (source : Option Str) (dp : Chunk) : Except EnforceError Placement :=
  match dp.sourceSpan with
  | none => .ok none
  | some ⟨start, stop⟩ =>
    if start < 0 ∨ stop < start then .ok none
    else if stop - start = dp.content.length then .ok (some ((start.toNat, stop.toNat), none))
    else
      match source.getD [] with
      | [] => .ok none
      | c :: cs =>
        match parentToSourceProjection (c :: cs) start.toNat stop.toNat dp.content with
        | none => .error (.blockMatch dp.chunkOrderIndex dp.content)
        | some proj => .ok (some ((start.toNat, stop.toNat), some proj))

/-- `f"{base_chunk_id}-s{i:02d}"` -/
def partId (base : Str) (i : ℕ) : Str :=
  base ++ ['-', 's'] ++ (if i < 10 then ['0'] else []) ++ (Nat.repr i).toList

/-- The piece of a parent at a span, the `i`-th of `total`. -/
def piece (dp : Chunk) (place : Placement) (total : ℕ) (span : TokenSpan) (i : ℕ) : Chunk where
  content := slice dp.content span.start span.stop
  tokens := span.tokenCount
  chunkId := dp.chunkId.map fun base => if isBlank base then base else partId base i
  chunkOrderIndex := dp.chunkOrderIndex
  sourceSpan := place.bind fun p => mapChildSpan span.start span.stop p.1.1 p.1.2 p.2
  split := some (i, total)

section

variable (split : Str → Except TokenBudgetError (List TokenSpan)) (source : Option Str)

def enforceOne (dp : Chunk) : Except EnforceError (List Chunk) :=
  if isBlank dp.content then .ok []
  else
    match split dp.content with
    | .error e => .error (.budget e)
    | .ok [span] => .ok [{ dp with tokens := span.tokenCount }]
    | .ok spans =>
      (placement source dp).map fun place =>
        spans.mapIdx fun i span => piece dp place spans.length span (i + 1)

def renumber (chunks : List Chunk) : List Chunk :=
  chunks.mapIdx fun i dp => { dp with chunkOrderIndex := i }

/-- `enforce_chunk_token_limit_before_embedding`, where `split` is the `split_by_token_limit` of the
tokenizer at a positive limit. -/
def enforceChunkTokenLimit (chunkingResult : List Chunk) : Except EnforceError (List Chunk) :=
  (chunkingResult.mapM (enforceOne split source)).map fun parts => renumber parts.flatten

end

/-- `Tokenizer.split_by_token_limit` with the fuel that it needs. -/
def splitOf (count : Str → ℕ) (maxTokens overlapTokens : ℕ) (ratio : Str → SafeSplit.CharsPerToken)
    (content : Str) : Except TokenBudgetError (List TokenSpan) :=
  (SafeSplit.splitByTokenLimit count content maxTokens overlapTokens (ratio content)
    (content.length + 1)).getD (.ok [])

end LightRAG.Chunking.HardSplit

/-!
## Where the pieces of a chunk come from

Two texts with the same characters other than white space are cut at corresponding positions when
as many of these characters stand before the one cut as before the other.
-/

namespace LightRAG.Chunking.HardSplit
open List

open Text (isSpace)
open SafeSplit (TokenSpan slice)

variable {s content source sourceSlice : Str} {offsets : List ℕ} {i j k m n nextVal : ℕ}

def rank (s : Str) (i : ℕ) : ℕ := (solid (s.take i)).length

theorem solid_take (s : Str) (i : ℕ) : solid (s.take i) = (solid s).take (rank s i) := by
  have hsplit : solid (s.take i) ++ solid (s.drop i) = solid s := by
    rw [← solid_append,take_append_drop]
  rw [rank,← hsplit,take_left]

theorem take_append_slice (s : Str) (h : i ≤ j) : s.take i ++ slice s i j = s.take j := by
  have htake : s.take i = (s.take j).take i := by rw [take_take,Nat.min_eq_left h]
  rw [htake,slice,take_append_drop]

theorem solid_slice (s : Str) (h : i ≤ j) :
    solid (slice s i j) = ((solid s).take (rank s j)).drop (rank s i) := by
  have hsplit := congrArg solid (take_append_slice s h)
  rw [solid_append] at hsplit
  rw [← solid_take,← hsplit,rank,drop_left]

theorem rank_le (s : Str) (i : ℕ) : rank s i ≤ (solid s).length := by
  have hsplit : solid (s.take i) ++ solid (s.drop i) = solid s := by
    rw [← solid_append,take_append_drop]
  rw [← hsplit,length_append]
  exact Nat.le_add_right _ _

theorem rank_mono (s : Str) (h : i ≤ j) : rank s i ≤ rank s j := by
  rw [rank,rank,← take_append_slice s h,solid_append,length_append]
  exact Nat.le_add_right _ _

def place (s : Str) (m : ℕ) : ℕ := ((nonWsPositions s).drop m).headD s.length

theorem length_nonWsPositions (s : Str) : (nonWsPositions s).length = (solid s).length := by
  induction s with
  | nil => rfl
  | cons c s ih =>
    rw [nonWsPositions,solid_cons,length_append,← ih]
    cases hc : isSpace c
    · simp [hc,solid]
      omega
    · simp [hc,solid]

variable {c : Char}

theorem place_cons_space (h : isSpace c = true) : place (c :: s) m = place s m + 1 := by
  rw [place,place,nonWsPositions,if_pos h,← map_drop]
  cases (nonWsPositions s).drop m <;> rfl

theorem place_cons_zero (h : isSpace c = false) : place (c :: s) 0 = 0 := by
  rw [place,nonWsPositions,h]
  rfl

theorem place_cons_succ (h : isSpace c = false) :
    place (c :: s) (m + 1) = place s m + 1 := by
  rw [place,place,nonWsPositions,h,if_neg Bool.false_ne_true,drop_succ_cons,← map_drop]
  cases (nonWsPositions s).drop m <;> rfl

theorem rank_place (s : Str) (m : ℕ) (h : m ≤ (solid s).length) : rank s (place s m) = m := by
  induction s generalizing m with
  | nil =>
    obtain rfl := Nat.le_zero.mp h
    rfl
  | cons c s ih =>
    cases hc : isSpace c with
    | true =>
      have hsolid : solid (c :: s) = solid s := by
        rw [solid,filter_cons_of_neg (by simp [hc])]
        rfl
      rw [hsolid] at h
      rw [place_cons_space hc,rank,take_succ_cons,solid,filter_cons_of_neg (by simp [hc])]
      exact ih m h
    | false =>
      cases m with
      | zero =>
        rw [place_cons_zero hc]
        rfl
      | succ m =>
        have hsolid : (solid (c :: s)).length = (solid s).length + 1 := by
          rw [solid,filter_cons_of_pos (by simp [hc])]
          rfl
        rw [place_cons_succ hc,rank,take_succ_cons,solid,filter_cons_of_pos (by simp [hc])]
        exact congrArg (· + 1) (ih m (by omega))

theorem place_le (s : Str) (m : ℕ) : place s m ≤ s.length := by
  induction s generalizing m with
  | nil =>
    rw [place,nonWsPositions,drop_nil]
    exact Nat.le_refl _
  | cons c s ih =>
    cases hc : isSpace c with
    | true =>
      rw [place_cons_space hc]
      exact Nat.succ_le_succ (ih m)
    | false =>
      cases m with
      | zero =>
        rw [place_cons_zero hc]
        exact Nat.zero_le _
      | succ m =>
        rw [place_cons_succ hc]
        exact Nat.succ_le_succ (ih m)

theorem place_mono (h : m ≤ n) (hn : n ≤ (solid s).length) : place s m ≤ place s n := by
  by_contra hlt
  have hrank := rank_mono s (Nat.le_of_lt (Nat.not_le.mp hlt))
  rw [rank_place s m (by omega),rank_place s n hn] at hrank
  obtain rfl : m = n := by omega
  exact hlt (Nat.le_refl _)

theorem place_lt (h : m < n) (hn : n ≤ (solid s).length) : place s m < place s n := by
  refine Nat.lt_of_le_of_ne (place_mono h.le hn) fun heq => ?_
  have hrank := rank_place s n hn
  rw [← heq,rank_place s m (by omega)] at hrank
  omega

theorem rank_cons_space (h : isSpace c = true) (s : Str) (i : ℕ) :
    rank (c :: s) (i + 1) = rank s i := by
  rw [rank,take_succ_cons,solid,filter_cons_of_neg (by simp [h])]
  rfl

theorem rank_cons_solid (h : isSpace c = false) (s : Str) (i : ℕ) :
    rank (c :: s) (i + 1) = rank s i + 1 := by
  rw [rank,take_succ_cons,solid,filter_cons_of_pos (by simp [h])]
  rfl

theorem inherit_assign_snd (content : Str) (offsets : List ℕ)
    (h : offsets.length = (solid content).length) :
    (inherit nextVal (assign content offsets)).2 = offsets.headD nextVal := by
  induction content with
  | nil =>
    obtain rfl := length_eq_zero_iff.mp h
    rfl
  | cons c content ih =>
    cases hc : isSpace c with
    | true =>
      rw [solid,filter_cons_of_neg (by simp [hc])] at h
      rw [assign,if_pos hc]
      exact ih h
    | false =>
      rw [solid,filter_cons_of_pos (by simp [hc])] at h
      cases offsets with
      | nil => cases h
      | cons o offsets =>
        rw [assign,hc]
        rfl

theorem inherit_head {proj : List (Option ℕ)} (h : proj ≠ []) :
    (inherit nextVal proj).1.getD 0 0 = (inherit nextVal proj).2 := by
  cases proj with
  | nil => exact absurd rfl h
  | cons o proj => rfl

theorem assign_ne_nil (content : Str) (offsets : List ℕ) : assign content offsets ≠ [] := by
  cases content with
  | nil => exact cons_ne_nil _ _
  | cons c content =>
    rw [assign]
    split
    · exact cons_ne_nil _ _
    · exact cons_ne_nil _ _

theorem inherit_assign (content : Str) (offsets : List ℕ)
    (h : offsets.length = (solid content).length) (hi : i ≤ content.length) :
    (inherit nextVal (assign content offsets)).1.getD i 0 =
      (offsets.drop (rank content i)).headD nextVal := by
  induction content generalizing offsets i with
  | nil =>
    obtain rfl := Nat.le_zero.mp hi
    obtain rfl := length_eq_zero_iff.mp h
    rfl
  | cons c content ih =>
    cases i with
    | zero =>
      rw [inherit_head (assign_ne_nil _ _),inherit_assign_snd _ _ h]
      rfl
    | succ i =>
      have hi' : i ≤ content.length := Nat.le_of_succ_le_succ hi
      cases hc : isSpace c with
      | true =>
        rw [solid,filter_cons_of_neg (by simp [hc])] at h
        rw [assign,if_pos hc,rank_cons_space hc]
        exact ih offsets h hi'
      | false =>
        rw [solid,filter_cons_of_pos (by simp [hc])] at h
        cases offsets with
        | nil => cases h
        | cons o offsets =>
          rw [assign,hc,if_neg Bool.false_ne_true,rank_cons_solid hc]
          exact ih offsets (Nat.succ.inj h) hi'

variable {parentStart parentEnd : ℕ}

theorem parentToSourceProjection_some (hle : parentStart ≤ parentEnd)
    (hstop : parentEnd ≤ source.length)
    (hsolid : solid (slice source parentStart parentEnd) = solid content)
    (hlength : parentEnd - parentStart ≠ content.length) :
    ∃ proj, parentToSourceProjection source parentStart parentEnd content = some proj ∧
      ∀ i ≤ content.length, proj.getD i 0 =
        parentStart + place (slice source parentStart parentEnd) (rank content i) := by
  have hslice : (slice source parentStart parentEnd).length = parentEnd - parentStart := by
    rw [slice,length_drop,length_take]
    omega
  have hne : slice source parentStart parentEnd ≠ content := by
    rintro rfl
    exact hlength hslice.symm
  refine ⟨_,(if_neg hne).trans (if_pos hsolid),fun i hi => ?_⟩
  rw [inherit_assign _ _ _ hi]
  · rw [← map_drop,place]
    cases hdrop : (nonWsPositions (slice source parentStart parentEnd)).drop (rank content i) with
    | nil =>
      simp only [map_nil,headD_nil]
      omega
    | cons p rest => rfl
  · rw [length_map,length_nonWsPositions,hsolid]

theorem parentToSourceProjection_none
    (hsolid : solid (slice source parentStart parentEnd) ≠ solid content) :
    parentToSourceProjection source parentStart parentEnd content = none := by
  have hne : slice source parentStart parentEnd ≠ content := by
    rintro heq
    exact hsolid (by rw [heq])
  exact (if_neg hne).trans (if_neg hsolid)

theorem slice_slice (hj : parentStart + j ≤ parentEnd) :
    slice source (parentStart + i) (parentStart + j) =
      slice (slice source parentStart parentEnd) i j := by
  rw [slice,slice,slice,take_drop,take_take,drop_drop,Nat.min_eq_left hj]

end LightRAG.Chunking.HardSplit
