import LightRAG.Chunking.HardSplit

/-!
# Provenance of the hard split

The place of a piece is exact whenever its parent was projected.
-/

namespace LightRAG.Chunking.HardSplit
open List

open Text (isSpace)
open SafeSplit (TokenSpan TokenBudgetError CharsPerToken Oversized slice)

variable {count : Str → ℕ} {maxTokens overlapTokens : ℕ} {ratio : Str → CharsPerToken}
  {source : Str} {dp child : Chunk} {chunks out part : List Chunk} {span : SourceSpan}
  {spans : List TokenSpan} {window : TokenSpan}
  {split : Str → Except TokenBudgetError (List TokenSpan)}

def InDocument (source : Str) (span : SourceSpan) : Prop :=
  0 ≤ span.start ∧ span.start ≤ span.stop ∧ span.stop ≤ source.length

/-- `source_content[start:end]` -/
def sliceAt (source : Str) (span : SourceSpan) : Str :=
  slice source span.start.toNat span.stop.toNat

def Denotes (source : Str) (span : SourceSpan) (content : Str) : Prop :=
  InDocument source span ∧ solid (sliceAt source span) = solid content

def Spanned (source : Str) (dp : Chunk) : Prop :=
  ∃ span, dp.sourceSpan = some span ∧ InDocument source span

def Agrees (source : Str) (dp : Chunk) : Prop :=
  ∀ span, dp.sourceSpan = some span → Denotes source span dp.content

/-- What a chunk becomes covers it in order, and every piece has its place. -/
structure Faithful (count : Str → ℕ) (maxTokens : ℕ) (source : Str) (dp : Chunk)
    (part : List Chunk) : Prop where
  blank : isBlank dp.content = true → part = []
  covers : isBlank dp.content = false → ∃ spans,
    SafeSplit.Covers count dp.content maxTokens spans ∧
      part.map Chunk.content = spans.map fun span => slice dp.content span.start span.stop
  denotes : ∀ child ∈ part, ∀ span, child.sourceSpan = some span →
    Denotes source span child.content
  keeps : ∀ child ∈ part, isBlank child.content = false → child.sourceSpan ≠ none

structure KeepsProvenance (count : Str → ℕ) (maxTokens : ℕ)
    (split : Str → Except TokenBudgetError (List TokenSpan)) (source : Str) (chunks : List Chunk) :
    Prop where
  keeps : ∀ out, enforceChunkTokenLimit split (some source) chunks = .ok out →
    ∃ parts, List.Forall₂ (fun dp part => Agrees source dp →
      Faithful count maxTokens source dp part) chunks parts ∧ out = renumber parts.flatten
  raises : ∀ dp ∈ chunks, isBlank dp.content = false → ¬ Agrees source dp →
    ∀ spans, split dp.content = .ok spans → spans.length ≠ 1 →
      ∀ out, enforceChunkTokenLimit split (some source) chunks ≠ .ok out

def SameSpaces (a b : Str) : Prop :=
  List.Forall₂ (fun c d => c = d ∨ (isSpace c = true ∧ isSpace d = true)) a b

instance (a b : Str) : Decidable (SameSpaces a b) :=
  inferInstanceAs (Decidable (List.Forall₂ _ a b))

theorem SameSpaces.solid {a b : Str} (h : SameSpaces a b) : solid a = solid b := by
  induction h with
  | nil => rfl
  | @cons c d a b hcd _ ih =>
    rw [solid_cons,solid_cons d,ih]
    rcases hcd with rfl | ⟨hc,hd⟩
    · rfl
    · have hnone : ∀ e, isSpace e = true → Chunking.solid [e] = [] := by
        intro e he
        simp [Chunking.solid,he]
      rw [hnone c hc,hnone d hd]

theorem SameSpaces.slice {a b : Str} (h : SameSpaces a b) (i j : ℕ) :
    SameSpaces (slice a i j) (slice b i j) :=
  List.forall₂_drop i (List.forall₂_take j h)

theorem sameSpaces_of_take {a b : Str} (hlength : a.length = b.length)
    (h : ∀ k ≤ a.length, solid (a.take k) = solid (b.take k)) : SameSpaces a b := by
  induction a generalizing b with
  | nil =>
    obtain rfl := length_eq_zero_iff.mp hlength.symm
    exact .nil
  | cons c a ih =>
    cases b with
    | nil => cases hlength
    | cons d b =>
      have hfirst : solid [c] = solid [d] := h 1 (by simp)
      refine .cons ?_ (ih (Nat.succ.inj hlength) fun k hk => ?_)
      · cases hc : isSpace c
        · cases hd : isSpace d
          · simpa [solid,hc,hd] using hfirst
          · simp [solid,hc,hd] at hfirst
        · cases hd : isSpace d
          · simp [solid,hc,hd] at hfirst
          · exact .inr ⟨rfl,rfl⟩
      · have hmore := h (k + 1) (Nat.succ_le_succ hk)
        rw [take_succ_cons,take_succ_cons,solid_cons,solid_cons d,hfirst] at hmore
        exact append_cancel_left hmore

/-- A chunk that is split: its place is exact, so that a piece has a place with its characters. -/
structure Exact (source : Str) (content : Str) (place : Placement) : Prop where
  denotes : ∀ i j, i < j → j ≤ content.length → ∀ p, place = some p →
    ∀ span, mapChildSpan i j p.1.1 p.1.2 p.2 = some span →
      Denotes source span (slice content i j)
  keeps : ∀ i j, i < j → j ≤ content.length → isBlank (slice content i j) = false →
    ∃ p, place = some p ∧ mapChildSpan i j p.1.1 p.1.2 p.2 ≠ none

theorem length_sliceAt (h : InDocument source span) :
    (sliceAt source span).length = span.stop.toNat - span.start.toNat := by
  obtain ⟨hstart,hle,hstop⟩ := h
  rw [sliceAt,slice,length_drop,length_take]
  omega

theorem denotes_of_offsets (h : InDocument source span) {i j : ℕ} {text : Str} (hij : i ≤ j)
    (hj : j ≤ span.stop.toNat - span.start.toNat)
    (hsolid : solid (slice (sliceAt source span) i j) = solid text) :
    Denotes source ⟨(span.start.toNat + i : ℕ), (span.start.toNat + j : ℕ)⟩ text := by
  obtain ⟨hstart,hle,hstop⟩ := h
  refine ⟨⟨Int.natCast_nonneg _,by simp only; omega,by simp only; omega⟩,?_⟩
  have hslice : slice source (span.start.toNat + i) (span.start.toNat + j) =
      slice (sliceAt source span) i j := slice_slice (by omega)
  rw [sliceAt]
  simp only [Int.toNat_natCast]
  rw [hslice]
  exact hsolid

theorem exact_direct (h : InDocument source span)
    (hlength : span.stop - span.start = dp.content.length)
    (hspaces : SameSpaces dp.content (sliceAt source span)) :
    Exact source dp.content (some ((span.start.toNat, span.stop.toNat), none)) := by
  have hin := h
  obtain ⟨hstart,hle,hstop⟩ := hin
  have hmapped : ∀ i j, i < j → j ≤ dp.content.length →
      mapChildSpan i j span.start.toNat span.stop.toNat none =
        some ⟨(span.start.toNat + i : ℕ),(span.start.toNat + j : ℕ)⟩ := by
    intro i j hij hj
    rw [mapChildSpan]
    exact if_neg (by omega)
  constructor
  case denotes =>
    intro i j hij hj p hp child hchild
    obtain rfl := Option.some.inj hp
    rw [hmapped i j hij hj] at hchild
    obtain rfl := Option.some.inj hchild
    apply denotes_of_offsets h hij.le (by omega)
    exact ((hspaces.slice i j).solid).symm
  case keeps =>
    intro i j hij hj _
    refine ⟨_,rfl,?_⟩
    rw [hmapped i j hij hj]
    exact Option.some_ne_none _

theorem exact_projected (h : InDocument source span)
    (hlength : span.stop - span.start ≠ dp.content.length)
    (hsolid : solid (sliceAt source span) = solid dp.content) :
    ∃ proj, parentToSourceProjection source span.start.toNat span.stop.toNat dp.content = some proj ∧
      Exact source dp.content (some ((span.start.toNat, span.stop.toNat), some proj)) := by
  have hin := h
  obtain ⟨hstart,hle,hstop⟩ := hin
  obtain ⟨proj,hproj,hplace⟩ :=
    parentToSourceProjection_some (by omega) (by omega) hsolid (by omega)
  refine ⟨proj,hproj,?_⟩
  change ∀ i ≤ dp.content.length, proj.getD i 0 =
    span.start.toNat + place (sliceAt source span) (rank dp.content i) at hplace
  have hrank : ∀ i, rank dp.content i ≤ (solid (sliceAt source span)).length := by
    intro i
    rw [hsolid]
    exact rank_le _ i
  have hend : ∀ i, place (sliceAt source span) (rank dp.content i) ≤
      span.stop.toNat - span.start.toNat := by
    intro i
    rw [← length_sliceAt h]
    exact place_le _ _
  constructor
  case denotes =>
    intro i j hij hj p hp child hchild
    obtain rfl := Option.some.inj hp
    rw [mapChildSpan] at hchild
    rw [hplace i (by omega),hplace j hj] at hchild
    split at hchild
    · cases hchild
    · obtain rfl := Option.some.inj hchild
      have hmono := place_mono (rank_mono dp.content hij.le) (hrank j)
      apply denotes_of_offsets h hmono (hend j)
      rw [solid_slice _ hmono,rank_place _ _ (hrank i),rank_place _ _ (hrank j),hsolid,
        solid_slice _ hij.le]
  case keeps =>
    intro i j hij hj hblank
    have hrise : rank dp.content i < rank dp.content j := by
      by_contra hflat
      rw [isBlank_eq_false,solid_slice _ hij.le] at hblank
      apply hblank
      rw [drop_eq_nil_iff,length_take]
      omega
    have hlt := place_lt hrise (hrank j)
    have hj' := hend j
    refine ⟨_,rfl,?_⟩
    rw [mapChildSpan]
    dsimp only
    rw [hplace i (by omega),hplace j hj,if_neg (by omega)]
    exact Option.some_ne_none _

/-- A chunk that may have to be split has its white space where its place has it, if both are of
one length, and there is a document to look at. -/
def Placeable (source : Str) (dp : Chunk) : Prop :=
  ∀ span, dp.sourceSpan = some span → isBlank dp.content = false → 2 ≤ dp.content.length →
    source ≠ [] ∧
      (span.stop - span.start = dp.content.length → SameSpaces dp.content (sliceAt source span))

theorem placement_direct (hspan : dp.sourceSpan = some span) (h : InDocument source span)
    (hlength : span.stop - span.start = dp.content.length) :
    placement (some source) dp = .ok (some ((span.start.toNat, span.stop.toNat), none)) := by
  obtain ⟨hstart,hle,hstop⟩ := h
  rw [placement,hspan]
  exact (if_neg (by omega)).trans (if_pos hlength)

theorem placement_projected (hspan : dp.sourceSpan = some span) (h : InDocument source span)
    (hlength : span.stop - span.start ≠ dp.content.length) (hsource : source ≠ []) :
    placement (some source) dp =
      match parentToSourceProjection source span.start.toNat span.stop.toNat dp.content with
      | none => .error (.blockMatch dp.chunkOrderIndex dp.content)
      | some proj => .ok (some ((span.start.toNat, span.stop.toNat), some proj)) := by
  obtain ⟨hstart,hle,hstop⟩ := h
  rw [placement,hspan]
  refine (if_neg (by omega)).trans ((if_neg hlength).trans ?_)
  cases source with
  | nil => exact absurd rfl hsource
  | cons c cs => rfl

theorem placement_cases (hspanned : Spanned source dp) (hplaceable : Placeable source dp)
    (hblank : isBlank dp.content = false) (hlong : 2 ≤ dp.content.length) :
    (Agrees source dp → ∃ place, placement (some source) dp = .ok place ∧
      Exact source dp.content place) ∧
    (¬ Agrees source dp → ∃ e, placement (some source) dp = .error e) := by
  obtain ⟨span,hspan,hin⟩ := hspanned
  obtain ⟨hsource,hspaces⟩ := hplaceable span hspan hblank hlong
  have hagrees : Agrees source dp ↔ solid (sliceAt source span) = solid dp.content := by
    constructor
    · exact fun h => (h span hspan).2
    · intro h span' hspan'
      rw [hspan] at hspan'
      obtain rfl := Option.some.inj hspan'
      exact ⟨hin,h⟩
  rw [hagrees]
  by_cases hlength : span.stop - span.start = dp.content.length
  · have hsame := hspaces hlength
    refine ⟨fun _ => ⟨_,placement_direct hspan hin hlength,exact_direct hin hlength hsame⟩,?_⟩
    exact fun hdiverged => absurd hsame.solid.symm hdiverged
  · rw [placement_projected hspan hin hlength hsource]
    constructor
    · intro hsolid
      obtain ⟨proj,hproj,hexact⟩ := exact_projected hin hlength hsolid
      rw [hproj]
      exact ⟨_,rfl,hexact⟩
    · intro hdiverged
      rw [parentToSourceProjection_none hdiverged]
      exact ⟨_,rfl⟩

variable {content : Str}

theorem two_le_of_covers {a b : TokenSpan} {rest : List TokenSpan}
    (h : SafeSplit.Covers count content maxTokens (a :: b :: rest)) : 2 ≤ content.length := by
  have ha := h.bounds a mem_cons_self
  have hb := h.bounds b (mem_cons_of_mem a mem_cons_self)
  have hrise := (isChain_cons_cons.mp h.increasing).1
  omega

theorem slice_of_covers_one (h : SafeSplit.Covers count content maxTokens [window]) :
    slice content window.start window.stop = content := by
  have hfirst : window.start = 0 := h.first window rfl
  have hlast : window.stop = content.length := h.last
  rw [hfirst,hlast,slice,take_length,drop_zero]

theorem faithful_pieces {place : Placement}
    (hcovers : SafeSplit.Covers count dp.content maxTokens spans)
    (hblank : isBlank dp.content = false) (hexact : Exact source dp.content place) :
    Faithful count maxTokens source dp
      (spans.mapIdx fun i window => piece dp place spans.length window (i + 1)) := by
  have hpiece : ∀ child ∈ spans.mapIdx fun i window => piece dp place spans.length window (i + 1),
      ∃ window ∈ spans, child.content = slice dp.content window.start window.stop ∧
        child.sourceSpan =
          place.bind fun p => mapChildSpan window.start window.stop p.1.1 p.1.2 p.2 := by
    intro child hchild
    obtain ⟨i,hi,rfl⟩ := mem_mapIdx.mp hchild
    exact ⟨_,getElem_mem hi,rfl,rfl⟩
  constructor
  case blank => exact fun h => absurd h (by rw [hblank]; exact Bool.false_ne_true)
  case covers =>
    refine fun _ => ⟨spans,hcovers,?_⟩
    apply ext_getElem?
    intro i
    rw [List.getElem?_map,List.getElem?_mapIdx,List.getElem?_map,Option.map_map]
    rfl
  case denotes =>
    intro child hchild span hspan
    obtain ⟨window,hwindow,hcontent,hplace⟩ := hpiece child hchild
    obtain ⟨hlt,hle⟩ := hcovers.bounds window hwindow
    rw [hplace,Option.bind_eq_some_iff] at hspan
    obtain ⟨p,hp,hmapped⟩ := hspan
    rw [hcontent]
    exact hexact.denotes _ _ hlt hle p hp span hmapped
  case keeps =>
    intro child hchild hsolid
    obtain ⟨window,hwindow,hcontent,hplace⟩ := hpiece child hchild
    obtain ⟨hlt,hle⟩ := hcovers.bounds window hwindow
    rw [hcontent] at hsolid
    obtain ⟨p,hp,hmapped⟩ := hexact.keeps _ _ hlt hle hsolid
    rw [hplace,hp]
    exact hmapped

theorem enforceOne_many (source : Str) (hblank : isBlank dp.content = false) {a b : TokenSpan}
    {rest : List TokenSpan} (hsplit : split dp.content = .ok (a :: b :: rest)) :
    enforceOne split (some source) dp = (placement (some source) dp).map fun place =>
      (a :: b :: rest).mapIdx fun i window =>
        piece dp place (a :: b :: rest).length window (i + 1) := by
  rw [enforceOne,hblank,if_neg Bool.false_ne_true,hsplit]

theorem windows_cases (hblank : isBlank content = false)
    (h : SafeSplit.Covers count content maxTokens spans) :
    (∃ a, spans = [a]) ∨ ∃ a b rest, spans = a :: b :: rest := by
  rcases spans with _ | ⟨a,_ | ⟨b,rest⟩⟩
  · have hnil : content = [] := length_eq_zero_iff.mp h.last.symm
    subst hnil
    cases hblank
  · exact .inl ⟨a,rfl⟩
  · exact .inr ⟨a,b,rest,rfl⟩

theorem enforceOne_faithful (hspanned : Spanned source dp) (hplaceable : Placeable source dp)
    (hsafe : ∀ spans, split dp.content = .ok spans →
      SafeSplit.Covers count dp.content maxTokens spans)
    (hagrees : Agrees source dp) (h : enforceOne split (some source) dp = .ok part) :
    Faithful count maxTokens source dp part := by
  cases hblank : isBlank dp.content with
  | true =>
    rw [enforceOne,if_pos hblank] at h
    cases h
    refine ⟨fun _ => rfl,fun hnot => ?_,forall_mem_nil _,forall_mem_nil _⟩
    rw [hblank] at hnot
    cases hnot
  | false =>
    cases hsplit : split dp.content with
    | error e =>
      rw [enforceOne,hblank,hsplit] at h
      cases h
    | ok spans =>
      have hcovers := hsafe spans hsplit
      rcases windows_cases hblank hcovers with ⟨a,rfl⟩ | ⟨a,b,rest,rfl⟩
      · rw [enforceOne,hblank,hsplit] at h
        cases h
        obtain ⟨span,hspan,hin⟩ := hspanned
        constructor
        case blank => exact fun hnot => absurd hnot (by rw [hblank]; exact Bool.false_ne_true)
        case covers =>
          refine fun _ => ⟨[a],hcovers,?_⟩
          rw [map_singleton,map_singleton,slice_of_covers_one hcovers]
        case denotes =>
          intro child hchild
          rw [mem_singleton.mp hchild]
          exact hagrees
        case keeps =>
          intro child hchild _
          rw [mem_singleton.mp hchild,hspan]
          exact Option.some_ne_none span
      · obtain ⟨place,hplace,hexact⟩ :=
          (placement_cases hspanned hplaceable hblank (two_le_of_covers hcovers)).1 hagrees
        rw [enforceOne_many _ hblank hsplit,hplace] at h
        cases h
        exact faithful_pieces hcovers hblank hexact

theorem enforceOne_raises (hspanned : Spanned source dp) (hplaceable : Placeable source dp)
    (hsafe : ∀ spans, split dp.content = .ok spans →
      SafeSplit.Covers count dp.content maxTokens spans)
    (hblank : isBlank dp.content = false) (hdiverged : ¬ Agrees source dp)
    (hsplit : split dp.content = .ok spans) (hmany : spans.length ≠ 1) :
    ∃ e, enforceOne split (some source) dp = .error e := by
  have hcovers := hsafe spans hsplit
  rcases windows_cases hblank hcovers with ⟨a,rfl⟩ | ⟨a,b,rest,rfl⟩
  · exact absurd rfl hmany
  · obtain ⟨e,he⟩ :=
      (placement_cases hspanned hplaceable hblank (two_le_of_covers hcovers)).2 hdiverged
    rw [enforceOne_many _ hblank hsplit,he]
    exact ⟨e,rfl⟩

theorem keepsProvenance_of_placeable (hspanned : ∀ dp ∈ chunks, Spanned source dp)
    (hplaceable : ∀ dp ∈ chunks, Placeable source dp)
    (hsafe : ∀ content spans, split content = .ok spans →
      SafeSplit.Covers count content maxTokens spans) :
    KeepsProvenance count maxTokens split source chunks := by
  constructor
  case keeps =>
    intro out hout
    obtain ⟨parts,hparts,rfl⟩ := Results.map_ok hout
    refine ⟨parts,?_,rfl⟩
    refine (Results.forall₂_mem (Results.mapM_ok hparts)).imp fun dp part h hagrees => ?_
    exact enforceOne_faithful (hspanned dp h.1) (hplaceable dp h.1) (hsafe dp.content) hagrees h.2
  case raises =>
    intro dp hdp hblank hdiverged spans hsplit hmany out hout
    obtain ⟨e,he⟩ := enforceOne_raises (hspanned dp hdp) (hplaceable dp hdp) (hsafe dp.content)
      hblank hdiverged hsplit hmany
    obtain ⟨parts,hparts,-⟩ := Results.map_ok hout
    obtain ⟨part,hpart⟩ := Results.exists_of_mem (Results.mapM_ok hparts) hdp
    rw [he] at hpart
    cases hpart

theorem splitOf_cases (count : Str → ℕ) (hempty : count [] = 0) (content : Str) :
    (∃ spans, splitOf count maxTokens overlapTokens ratio content = .ok spans ∧
      SafeSplit.Covers count content maxTokens spans) ∨
    (∃ e, splitOf count maxTokens overlapTokens ratio content = .error e) ∧
      Oversized count content maxTokens := by
  obtain ⟨result,hruns,hok,herror⟩ :=
    SafeSplit.splitByTokenLimit_ends content maxTokens overlapTokens (ratio content) hempty
  have hsplit : splitOf count maxTokens overlapTokens ratio content = result := by
    rw [splitOf,hruns _ (Nat.lt_succ_self _),Option.getD_some]
  rw [hsplit]
  cases result with
  | ok spans => exact .inl ⟨spans,rfl,hok spans rfl⟩
  | error e => exact .inr ⟨⟨e,rfl⟩,herror e rfl⟩

theorem splitOf_covers (hempty : count [] = 0) (content : Str) (spans : List TokenSpan)
    (h : splitOf count maxTokens overlapTokens ratio content = .ok spans) :
    SafeSplit.Covers count content maxTokens spans := by
  rcases splitOf_cases count hempty content with ⟨spans',hok,hcovers⟩ | ⟨⟨e,he⟩,-⟩
  · rw [h] at hok
    cases hok
    exact hcovers
  · rw [h] at he
    cases he

/-- Texts of up to `k` characters are one token, longer ones two. -/
def cutAt (k : ℕ) (text : Str) : List Unit :=
  if text = [] then [] else if text.length ≤ k then [()] else [(), ()]

theorem length_cutAt_le {k : ℕ} {text : Str} : (cutAt k text).length ≤ 1 ↔ text.length ≤ k := by
  rw [cutAt]
  split
  · rename_i hnil
    rw [hnil]
    simp
  · split
    · rename_i hle
      simpa using hle
    · rename_i hlt
      simpa using hlt

theorem boundedPrefixSpan_cutAt {k : ℕ} {ratio : CharsPerToken} (hpos : 0 < k)
    (hk : k < content.length) :
    SafeSplit.boundedPrefixSpan (fun text => (cutAt k text).length) content 1 ratio 0 =
      .ok ⟨0, k, 1⟩ := by
  have hlength : ∀ n, (slice content 0 (0 + n)).length ≤ k ↔ n ≤ k := by
    intro n
    rw [slice,length_drop,length_take]
    omega
  have hfits : ∀ n, decide ((cutAt k (slice content 0 (0 + n))).length ≤ 1) = true ↔ n ≤ k := by
    intro n
    rw [decide_eq_true_eq,length_cutAt_le,hlength]
  have hsearch : ∃ good, QueryPrompt.boundedPrefix
      (fun n => decide ((cutAt k (slice content 0 (0 + n))).length ≤ 1)) (content.length - 0)
      (min (content.length - 0) (max 1 (ratio.truncated 1))) = some good ∧ k ≤ good :=
    QueryPrompt.boundedPrefix_longest (fun m n hmn h => (hfits m).mpr (hmn.trans ((hfits n).mp h)))
      (by omega) (by omega) hpos (by omega) ((hfits k).mpr (Nat.le_refl k))
  obtain ⟨good,hgood,hle⟩ := hsearch
  obtain ⟨-,-,hgoodfits⟩ := QueryPrompt.boundedPrefix_some (by omega) (by omega) hgood
  obtain rfl : good = k := Nat.le_antisymm ((hfits good).mp hgoodfits) hle
  have hone : (cutAt good (slice content 0 (0 + good))).length = 1 := by
    have hne : slice content 0 (0 + good) ≠ [] := by
      rw [Ne,← length_eq_zero_iff,slice,length_drop,length_take]
      omega
    rw [cutAt,if_neg hne,if_pos ((hlength good).mpr (Nat.le_refl _))]
    rfl
  rw [SafeSplit.boundedPrefixSpan]
  rw [hgood]
  dsimp only
  rw [hone,Nat.zero_add]

theorem splitOf_cutAt (ratio : Str → CharsPerToken) {k : ℕ} (hpos : 0 < k)
    (hk : k < content.length) :
    ∃ rest, splitOf (fun text => (cutAt k text).length) 1 0 ratio content =
      .ok (⟨0, k, 1⟩ :: rest) ∧ rest ≠ [] := by
  have hempty : (cutAt k []).length = 0 := rfl
  have hnil : content ≠ [] := by
    rintro rfl
    exact Nat.not_lt_zero _ hk
  have hover : ¬ (cutAt k content).length ≤ 1 := by
    rw [length_cutAt_le]
    omega
  obtain ⟨spans,hspans,hcovers⟩ : ∃ spans,
      splitOf (fun text => (cutAt k text).length) 1 0 ratio content = .ok spans ∧
        SafeSplit.Covers (fun text => (cutAt k text).length) content 1 spans := by
    rcases splitOf_cases (fun text => (cutAt k text).length) hempty content with
      hok | ⟨-,c,-,hc⟩
    · exact hok
    · have hone : (cutAt k [c]).length ≤ 1 := length_cutAt_le.mpr hpos
      exact absurd hone (Nat.not_le.mpr hc)
  have hrun : (SafeSplit.windows (fun text => (cutAt k text).length) content 1 0 (ratio content)).run
      (content.length + 1) ⟨0,0⟩ = some (.ok spans) := by
    have hends : ∃ result, ∀ fuel > content.length,
        (SafeSplit.windows (fun text => (cutAt k text).length) content 1 0 (ratio content)).run fuel
          ⟨0,0⟩ = some result := SafeSplit.windows_end ⟨0,0⟩
    obtain ⟨result,hruns⟩ := hends
    have hcall : SafeSplit.splitByTokenLimit (fun text => (cutAt k text).length) content 1 0
        (ratio content) (content.length + 1) = some result :=
      (if_neg hnil).trans ((if_neg hover).trans (hruns _ (Nat.lt_succ_self _)))
    rw [splitOf,hcall,Option.getD_some] at hspans
    rw [hruns _ (Nat.lt_succ_self _),hspans]
  rcases Loop.run_ok_cases hrun with ⟨hdone,-⟩ | ⟨item,t,rest,fuel,-,hstep,hrest,rfl⟩
  · have hle : content.length ≤ 0 := of_decide_eq_true hdone
    omega
  · have hfirst : (SafeSplit.windows (fun text => (cutAt k text).length) content 1 0
        (ratio content)).step ⟨0,0⟩ = .ok (⟨0,k,1⟩, ⟨k,1⟩) := by
      change Except.map _ (Retreat.search _ _ 0 0) = _
      rw [Retreat.search_zero]
      exact congrArg (Except.map _) (congrArg (Except.map _) (boundedPrefixSpan_cutAt hpos hk))
    rw [hfirst] at hstep
    cases hstep
    refine ⟨rest,hspans,?_⟩
    rintro rfl
    have hlast : k = content.length := hcovers.last
    omega

theorem mem_of_renumber_eq {part part' : List Chunk} (h : renumber part = renumber part')
    (hchild : child ∈ part) :
    ∃ child' ∈ part', child'.content = child.content ∧ child'.sourceSpan = child.sourceSpan := by
  obtain ⟨i,hi,rfl⟩ := getElem_of_mem hchild
  have hget : (renumber part)[i]? = (renumber part')[i]? := by rw [h]
  rw [renumber,renumber,List.getElem?_mapIdx,List.getElem?_mapIdx,
    List.getElem?_eq_getElem hi] at hget
  obtain ⟨child',hchild',heq⟩ := Option.map_eq_some_iff.mp hget.symm
  have hcontent := congrArg Chunk.content heq
  have hspan := congrArg Chunk.sourceSpan heq
  exact ⟨child',mem_of_getElem? hchild',hcontent,hspan⟩

theorem enforce_single (h : enforceOne split (some source) dp = .ok part) :
    enforceChunkTokenLimit split (some source) [dp] = .ok (renumber part) := by
  rw [enforceChunkTokenLimit,mapM_cons,h]
  change Except.ok (renumber [part].flatten) = _
  rw [flatten_singleton]

theorem KeepsProvenance.single {split : Str → Except TokenBudgetError (List TokenSpan)}
    (h : KeepsProvenance count maxTokens split source [dp]) (hblank : isBlank dp.content = false)
    (hsplit : split dp.content = .ok spans) (hmany : spans.length ≠ 1)
    (hpart : enforceOne split (some source) dp = .ok part) :
    Agrees source dp ∧ ∀ child ∈ part, ∀ span, child.sourceSpan = some span →
      Denotes source span child.content := by
  have hout := enforce_single hpart
  have hagrees : Agrees source dp := by
    by_contra hdiverged
    exact h.raises dp mem_cons_self hblank hdiverged spans hsplit hmany _ hout
  refine ⟨hagrees,fun child hchild span hspan => ?_⟩
  obtain ⟨parts,hparts,heq⟩ := h.keeps _ hout
  cases hparts with
  | cons hfaithful hnil =>
    cases hnil
    rw [flatten_singleton] at heq
    obtain ⟨child',hchild',hcontent,hspan'⟩ := mem_of_renumber_eq heq hchild
    rw [← hcontent]
    exact (hfaithful hagrees).denotes child' hchild' span (hspan'.trans hspan)

theorem placeable_of_keepsProvenance (ratio : Str → CharsPerToken) (hspanned : Spanned source dp)
    (h : ∀ k, KeepsProvenance (fun text => (cutAt k text).length) 1
      (splitOf (fun text => (cutAt k text).length) 1 0 ratio) source [dp]) :
    Placeable source dp := by
  intro span hspan hblank hlong
  have hin : InDocument source span := by
    obtain ⟨span',hspan',hin⟩ := hspanned
    rw [hspan] at hspan'
    obtain rfl := Option.some.inj hspan'
    exact hin
  -- what a split after the first `k` characters gives
  have hcut : ∀ place, placement (some source) dp = .ok place → ∀ k, 0 < k →
      k < dp.content.length → Agrees source dp ∧ ∀ p, place = some p → ∀ child,
        mapChildSpan 0 k p.1.1 p.1.2 p.2 = some child →
          Denotes source child (slice dp.content 0 k) := by
    intro place hplace k hpos hk
    obtain ⟨rest,hsplit,hrest⟩ := splitOf_cutAt ratio hpos hk
    obtain ⟨b,rest,rfl⟩ := exists_cons_of_ne_nil hrest
    have hpart := enforceOne_many source hblank hsplit
    rw [hplace] at hpart
    obtain ⟨hagrees,hchildren⟩ := (h k).single hblank hsplit (by simp) hpart
    refine ⟨hagrees,fun p hp child hchild => ?_⟩
    have hmem : piece dp place (rest.length + 2) ⟨0,k,1⟩ 1 ∈
        (⟨0,k,1⟩ :: b :: rest).mapIdx fun i window =>
          piece dp place (rest.length + 2) window (i + 1) := by
      rw [mapIdx_cons]
      exact mem_cons_self
    have hfirst := hchildren _ hmem child
    rw [hp] at hfirst
    exact hfirst hchild
  constructor
  · rintro rfl
    obtain ⟨hstart,hle,hstop⟩ := hin
    have hzero : span.stop - span.start ≠ dp.content.length := by
      rw [length_nil] at hstop
      omega
    have hplace : placement (some []) dp = .ok none := by
      rw [placement,hspan]
      exact (if_neg (by omega)).trans (if_neg hzero)
    obtain ⟨hagrees,-⟩ := hcut none hplace 1 Nat.one_pos (by omega)
    have hsolid := (hagrees span hspan).2
    rw [sliceAt,slice,take_nil,drop_nil] at hsolid
    rw [isBlank_eq_false] at hblank
    exact hblank hsolid.symm
  · intro hlength
    have hplace := placement_direct hspan hin hlength
    have hslice : (sliceAt source span).length = dp.content.length := by
      have := length_sliceAt hin
      have := hin.1
      omega
    refine sameSpaces_of_take hslice.symm fun k hk => ?_
    rcases Nat.eq_or_lt_of_le hk with rfl | hlt
    · obtain ⟨hagrees,-⟩ := hcut _ hplace 1 Nat.one_pos (by omega)
      rw [take_length,← hslice,take_length]
      exact (hagrees span hspan).2.symm
    · rcases Nat.eq_zero_or_pos k with rfl | hpos
      · rfl
      · obtain ⟨-,hchildren⟩ := hcut _ hplace k hpos hlt
        have hmapped : mapChildSpan 0 k span.start.toNat span.stop.toNat none =
            some ⟨(span.start.toNat + 0 : ℕ),(span.start.toNat + k : ℕ)⟩ := by
          have := hin.1
          rw [mapChildSpan]
          exact if_neg (by omega)
        have hsolid := (hchildren _ rfl _ hmapped).2
        have hsource : slice source (span.start.toNat + 0) (span.start.toNat + k) =
            slice (sliceAt source span) 0 k := slice_slice (by have := hin.1; have := hin.2.1; omega)
        rw [sliceAt] at hsolid
        simp only [Int.toNat_natCast] at hsolid
        rw [hsource] at hsolid
        exact hsolid.symm

def shifted : Chunk := ⟨['a', 'b', ' ', ' ', 'c', 'd'], 0, none, 0, some ⟨0, 6⟩, none⟩

theorem spanned_shifted (source : Str) (h : 6 ≤ source.length) : Spanned source shifted :=
  ⟨⟨0,6⟩,rfl,by decide,by decide,Int.ofNat_le.mpr h⟩

end LightRAG.Chunking.HardSplit
