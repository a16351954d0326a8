import LightRAG.Chunking.RecursiveCharacter

/-!
# What recursive character chunking keeps

The splits of a text at a separator partition it.
-/

namespace LightRAG.Chunking
open List

open Text (isSpace)

theorem map_mapIdx {α β γ : Type} {f : ℕ → α → β} {g : β → γ} {h : α → γ}
    (hfg : ∀ i a, g (f i a) = h a) (l : List α) : (l.mapIdx f).map g = l.map h := by
  apply ext_getElem?
  intro i
  rw [List.getElem?_map,List.getElem?_mapIdx,List.getElem?_map,Option.map_map]
  congr 1
  funext a
  exact hfg i a

theorem append_strip_append (s : Str) : s = s.takeWhile isSpace ++
    (strip s ++ ((s.dropWhile isSpace).reverse.takeWhile isSpace).reverse) := by
  rw [strip,rstrip,← reverse_append,takeWhile_append_dropWhile,reverse_reverse,
    takeWhile_append_dropWhile]

/-- The text stands in the content at its place. -/
structure SpanPiece.Exact (content : Str) (p : SpanPiece) : Prop where
  le : p.start ≤ p.stop
  within : p.stop ≤ content.length
  text : p.text = (content.drop p.start).take (p.stop - p.start)

/-- Pieces one after the other, from `a` up to `b`. -/
def Tiles (content : Str) : (a : ℕ) → List SpanPiece → (b : ℕ) → Prop
  | a, [], b => a = b
  | a, p :: ps, b => p.Exact content ∧ p.start = a ∧ Tiles content p.stop ps b

section

variable {content separator text : Str} {skip i a b base : ℕ} {cuts : List ℕ} {p : SpanPiece}
  {ps : List SpanPiece}

theorem matchStarts_mem {s : ℕ} (h : s ∈ matchStarts separator skip i text) :
    i ≤ s ∧ s < i + text.length := by
  induction text generalizing skip i with
  | nil => cases skip <;> simp [matchStarts] at h
  | cons c cs ih =>
    rw [length_cons]
    cases skip with
    | succ skip =>
      have := ih (by simpa [matchStarts] using h)
      omega
    | zero =>
      rw [matchStarts] at h
      split at h
      · rcases mem_cons.mp h with rfl | h
        · omega
        · have := ih h
          omega
      · have := ih h
        omega

theorem matchStarts_ascending : (matchStarts separator skip i text).Pairwise (· ≤ ·) := by
  induction text generalizing skip i with
  | nil => cases skip <;> simp [matchStarts]
  | cons c cs ih =>
    cases skip with
    | succ skip => simpa [matchStarts] using ih
    | zero =>
      rw [matchStarts]
      split
      · refine pairwise_cons.mpr ⟨?_,ih⟩
        intro s hs
        have := matchStarts_mem hs
        omega
      · exact ih

theorem spanPiece_text : (spanPiece text base a i).text = (text.drop a).take (i - a) := rfl

namespace SpanPiece.Exact

theorem length_eq (h : p.Exact content) : p.text.length = p.stop - p.start := by
  have hwithin := h.within
  rw [h.text,length_take,length_drop]
  omega

theorem stop_eq (h : p.Exact content) : p.stop = p.start + p.text.length := by
  have hle := h.le
  rw [h.length_eq]
  omega

theorem getElem? (h : p.Exact content) {i : ℕ} (hi : i < p.text.length) :
    p.text[i]? = content[p.start + i]? := by
  rw [h.length_eq] at hi
  rw [h.text,getElem?_take_of_lt hi,getElem?_drop]

theorem slice (h : p.Exact content) (hab : a ≤ b) (hb : b ≤ p.text.length) :
    (spanPiece p.text p.start a b).Exact content := by
  have hlength := h.length_eq
  have hle := h.le
  have hwithin := h.within
  refine ⟨by simp [spanPiece,hab],by simp [spanPiece]; omega,?_⟩
  simp only [spanPiece]
  rw [h.text,drop_take,drop_drop,take_take]
  congr 1
  omega

end SpanPiece.Exact

namespace Tiles

theorem le (h : Tiles content a ps b) : a ≤ b := by
  induction ps generalizing a with
  | nil => exact h.le
  | cons p ps ih =>
    obtain ⟨hp,rfl,hrest⟩ := h
    exact hp.le.trans (ih hrest)

theorem append {k : ℕ} {qs : List SpanPiece} (h : Tiles content a ps b)
    (h' : Tiles content b qs k) : Tiles content a (ps ++ qs) k := by
  induction ps generalizing a with
  | nil =>
    obtain rfl : a = b := h
    exact h'
  | cons p ps ih =>
    obtain ⟨hp,hstart,hrest⟩ := h
    exact ⟨hp,hstart,ih hrest⟩

theorem of_append {qs : List SpanPiece} (h : Tiles content a (ps ++ qs) b) :
    ∃ k, Tiles content a ps k ∧ Tiles content k qs b := by
  induction ps generalizing a with
  | nil => exact ⟨a,rfl,h⟩
  | cons p ps ih =>
    obtain ⟨hp,hstart,hrest⟩ := h
    obtain ⟨k,hps,hqs⟩ := ih hrest
    exact ⟨k,⟨hp,hstart,hps⟩,hqs⟩

theorem single (h : p.Exact content) : Tiles content p.start [p] p.stop := ⟨h,rfl,rfl⟩

theorem filter (h : Tiles content a ps b) :
    Tiles content a (ps.filter fun p => p.text ≠ []) b := by
  induction ps generalizing a with
  | nil => exact h
  | cons p ps ih =>
    obtain ⟨hp,rfl,hrest⟩ := h
    by_cases hnil : p.text = []
    · have hstop := hp.stop_eq
      rw [hnil,length_nil,Nat.add_zero] at hstop
      rw [filter_cons_of_neg (by simpa using hnil),← hstop]
      exact ih hrest
    · rw [filter_cons_of_pos (by simpa using hnil)]
      exact ⟨hp,rfl,ih hrest⟩

theorem joined (h : Tiles content a ps b) (hb : b ≤ content.length) :
    (⟨ps.flatMap SpanPiece.text, a, b⟩ : SpanPiece).Exact content ∧
      ps.flatMap (fun p => range' p.start (p.stop - p.start)) = range' a (b - a) := by
  induction ps generalizing a with
  | nil =>
    obtain rfl : a = b := h
    exact ⟨⟨Nat.le_refl _,hb,by simp⟩,by simp⟩
  | cons p ps ih =>
    have hle := le h
    obtain ⟨hp,rfl,hrest⟩ := h
    have hstop := le hrest
    obtain ⟨hexact,hoffsets⟩ := ih hrest
    have hstart := hp.le
    constructor
    · refine ⟨hle,hb,?_⟩
      have htext := hexact.text
      dsimp only at htext ⊢
      rw [flatMap_cons,htext,hp.text,← Nat.sub_add_sub_cancel hstop hstart,Nat.add_comm,
        take_add,drop_drop,Nat.add_sub_of_le hstart]
    · rw [flatMap_cons,hoffsets,← Nat.sub_add_sub_cancel hstop hstart,
        Nat.add_comm (b - p.stop),← range'_append_1,Nat.add_sub_of_le hstart]

end Tiles

theorem tiles_characters (h : p.Exact content) {i n : ℕ} (hn : i + n = p.text.length) :
    Tiles content (p.start + i)
      ((range' i n).map fun i => spanPiece p.text p.start i (i + 1)) p.stop := by
  induction n generalizing i with
  | zero =>
    rw [h.stop_eq,← hn]
    rfl
  | succ n ih =>
    exact ⟨h.slice (by omega) (by omega),rfl,ih (by omega)⟩

theorem tiles_piecesFrom (h : p.Exact content) {cuts : List ℕ}
    (hsorted : (a :: cuts).Pairwise (· ≤ ·)) (hcuts : ∀ i ∈ a :: cuts, i ≤ p.text.length) :
    Tiles content (p.start + a) (piecesFrom p.text p.start a cuts) p.stop := by
  induction cuts generalizing a with
  | nil => exact ⟨h.slice (hcuts a mem_cons_self) (Nat.le_refl _),rfl,h.stop_eq.symm⟩
  | cons b cuts ih =>
    obtain ⟨hfirst,hrest⟩ := pairwise_cons.mp hsorted
    obtain ⟨-,htail⟩ := forall_mem_cons.mp hcuts
    exact ⟨h.slice (hfirst b mem_cons_self) (htail b mem_cons_self),rfl,ih hrest htail⟩

theorem tiles_splits (h : p.Exact content) (separator : Str) :
    Tiles content p.start (splitTextWithSpans p.text separator p.start) p.stop := by
  rw [splitTextWithSpans]
  split
  · rw [range_eq_range']
    exact tiles_characters (i := 0) h (Nat.zero_add _)
  split
  · split
    · next hnil =>
      have hstop := h.stop_eq
      rw [hnil] at hstop
      exact hstop.symm
    · rw [← h.stop_eq]
      exact .single h
  · next first starts hstarts =>
    have hsorted : (first :: starts).Pairwise (· ≤ ·) := hstarts ▸ matchStarts_ascending
    have hwithin : ∀ i ∈ first :: starts, i ≤ p.text.length := by
      intro i hi
      have hmem := matchStarts_mem (hstarts ▸ hi)
      omega
    have hpieces := tiles_piecesFrom h hsorted hwithin
    apply Tiles.filter
    split
    · exact ⟨h.slice (Nat.zero_le _) (hwithin first mem_cons_self),rfl,hpieces⟩
    · next hzero =>
      obtain rfl := Nat.eq_zero_of_not_pos hzero
      exact hpieces

theorem splitTextWithSpans_text (text separator : Str) (base : ℕ) :
    (splitTextWithSpans text separator base).flatMap SpanPiece.text = text := by
  have hwhole : (⟨text,base,base + text.length⟩ : SpanPiece).Exact
      (replicate base ' ' ++ text) := ⟨Nat.le_add_right _ _,by simp,by simp⟩
  obtain ⟨hexact,-⟩ := (tiles_splits hwhole separator).joined hwhole.within
  exact hexact.text.trans hwhole.text.symm

theorem splitTextWithSpans_character {p : SpanPiece} (h : p ∈ splitTextWithSpans text [] base) :
    ∃ c, p.text = [c] := by
  simp only [splitTextWithSpans,if_pos,mem_map,mem_range] at h
  obtain ⟨i,hi,rfl⟩ := h
  refine ⟨text[i],?_⟩
  rw [spanPiece_text,Nat.add_sub_cancel_left,drop_eq_getElem_cons hi]
  rfl

end

/-- A relation of texts that goes along concatenation. -/
structure Compatible (r : Str → Str → Prop) : Prop where
  refl : ∀ a, r a a
  append : ∀ {a b c d}, r a b → r c d → r (a ++ c) (b ++ d)
  trans : ∀ {a b c}, r a b → r b c → r a c

/-- Both texts begin alike, or are empty alike. -/
def SameHead (a b : Str) : Prop := a.head? = b.head?

theorem compatible_eq : Compatible Eq :=
  ⟨fun _ => rfl,fun hab hcd => hab ▸ hcd ▸ rfl,Eq.trans⟩

theorem compatible_sameHead : Compatible SameHead := by
  refine ⟨fun _ => rfl,?_,fun hab hbc => Eq.trans hab hbc⟩
  intro a b c d hab hcd
  unfold SameHead at *
  rw [List.head?_append,List.head?_append,hab,hcd]

theorem sameHead_repeat {a b c : Str} (h : b.IsSuffix a) : SameHead (a ++ (b ++ c)) (a ++ c) := by
  unfold SameHead
  cases a with
  | nil => rw [suffix_nil.mp h,nil_append]
  | cons x a => rfl

def solidOf (pieces : List SpanPiece) : Str := pieces.flatMap fun p => solid p.text

section

variable {pieces good splits : List SpanPiece}

@[simp] theorem solidOf_nil : solidOf [] = [] := rfl

@[simp] theorem solidOf_append (ps qs : List SpanPiece) :
    solidOf (ps ++ qs) = solidOf ps ++ solidOf qs := flatMap_append

@[simp] theorem solidOf_cons (p : SpanPiece) (ps : List SpanPiece) :
    solidOf (p :: ps) = solid p.text ++ solidOf ps := flatMap_cons

theorem solidOf_eq (ps : List SpanPiece) : solidOf ps = solid (ps.flatMap SpanPiece.text) := by
  induction ps with
  | nil => rfl
  | cons p ps ih => rw [solidOf_cons,ih,flatMap_cons,solid_append]

theorem solidOf_splits (text separator : Str) (base : ℕ) :
    solidOf (splitTextWithSpans text separator base) = solid text := by
  rw [solidOf_eq,splitTextWithSpans_text]

theorem solidOf_join (ps : List SpanPiece) : solidOf (joinSpanPieces ps).toList = solidOf ps := by
  rw [joinSpanPieces]
  split
  · next hnil =>
    rw [solidOf_eq ps,strip_eq_nil.mp hnil]
    rfl
  · rw [Option.toList_some,solidOf_cons,solidOf_nil,append_nil,solid_strip,solidOf_eq]

theorem solidOf_suffix {ps qs : List SpanPiece} (h : ps.IsSuffix qs) :
    (solidOf ps).IsSuffix (solidOf qs) := by
  obtain ⟨front,rfl⟩ := h
  exact ⟨solidOf front,(solidOf_append front ps).symm⟩

theorem solidOf_trimmed (ps : List SpanPiece) :
    solidOf (ps.filterMap SpanPiece.trimmed) = solidOf ps := by
  induction ps with
  | nil => rfl
  | cons p ps ih =>
    rw [filterMap_cons,SpanPiece.trimmed,solidOf_cons]
    split
    · next hnone =>
      split at hnone
      · next hnil => rw [strip_eq_nil.mp hnil,nil_append,ih]
      · exact nomatch hnone
    · next q hsome =>
      split at hsome
      · exact nomatch hsome
      · obtain rfl := Option.some.inj hsome
        rw [solidOf_cons,solid_strip,ih]

end

def lengthOf (length : Str → ℕ) (pieces : List SpanPiece) : ℕ :=
  (pieces.map fun p => length p.text).sum

theorem lengthOf_append (length : Str → ℕ) (ps qs : List SpanPiece) :
    lengthOf length (ps ++ qs) = lengthOf length ps + lengthOf length qs := by
  rw [lengthOf,map_append,sum_append]
  rfl

theorem lengthOf_cons (length : Str → ℕ) (p : SpanPiece) (ps : List SpanPiece) :
    lengthOf length (p :: ps) = length p.text + lengthOf length ps := by
  rfl

theorem lengthOf_eq {τ : Type} {t : Tokenizer τ} (ht : t.Additive) (pieces : List SpanPiece) :
    lengthOf t.length pieces = t.length (pieces.flatMap SpanPiece.text) := by
  induction pieces with
  | nil => exact ht.nil.symm
  | cons p ps ih => rw [lengthOf_cons,flatMap_cons,ht.append,ih]

theorem lengthOf_join_le {τ : Type} {t : Tokenizer τ} (ht : t.Additive) {pieces : List SpanPiece}
    {p : SpanPiece} (h : p ∈ joinSpanPieces pieces) : t.length p.text ≤ lengthOf t.length pieces := by
  rw [joinSpanPieces] at h
  split at h
  · exact nomatch h
  · obtain rfl := Option.some.inj h
    rw [lengthOf_eq ht]
    exact ht.sublist (strip_sublist _)

namespace Sizes

variable {τ : Type} {t : Tokenizer τ} (ht : t.Additive) {z : Sizes} (hz : z.length = t.length)
  {splitLen total : ℕ} {doc good splits : List SpanPiece} {m : Merge} {split : SpanPiece}

include ht hz

theorem separatorLen_eq (doc : List SpanPiece) (n : ℕ) : z.separatorLen doc n = 0 := by
  rw [separatorLen,hz,mergeSeparator,ht.nil,ite_self]

theorem dropFront_spec (splitLen : ℕ) (htotal : total = lengthOf t.length doc) :
    (z.dropFront splitLen doc total).1.IsSuffix doc ∧
    (z.dropFront splitLen doc total).2 = lengthOf t.length (z.dropFront splitLen doc total).1 ∧
    (z.dropFront splitLen doc total).2 ≤ z.chunkOverlap ∧
    ((z.dropFront splitLen doc total).2 = 0 ∨
      (z.dropFront splitLen doc total).2 + splitLen ≤ z.chunkSize) := by
  induction doc generalizing total with
  | nil => exact ⟨suffix_rfl,htotal,by simp [dropFront,htotal,lengthOf],
      .inl (by simp [dropFront,htotal,lengthOf])⟩
  | cons p doc ih =>
    rw [lengthOf_cons] at htotal
    rw [dropFront,separatorLen_eq ht hz,separatorLen_eq ht hz]
    split
    · obtain ⟨hsuffix,hsum,hoverlap,hroom⟩ :=
        ih (show total - (z.length p.text + 0) = _ by rw [hz]; omega)
      exact ⟨hsuffix.trans (suffix_cons p doc),hsum,hoverlap,hroom⟩
    · refine ⟨suffix_rfl,?_,?_,?_⟩
      · rw [lengthOf_cons,htotal]
      · omega
      · omega

/-- The state of a merge after the pieces `good`. -/
structure Merged (t : Tokenizer τ) (z : Sizes) (good : List SpanPiece) (m : Merge) : Prop where
  total : m.total = lengthOf t.length m.currentDoc
  fits : m.total ≤ z.chunkSize
  docs : ∀ p ∈ m.docs, t.length p.text ≤ z.chunkSize
  head : SameHead (solidOf m.docs ++ solidOf m.currentDoc) (solidOf good)
  whole : z.chunkOverlap = 0 → solidOf m.docs ++ solidOf m.currentDoc = solidOf good

theorem merged_flush (h : Merged t z good m) (hroom : t.length split.text < z.chunkSize) :
    let m' := if z.chunkSize < m.total + t.length split.text + z.separatorLen m.currentDoc 0 then
      z.flush (t.length split.text) m else m
    Merged t z good m' ∧ m'.total + t.length split.text ≤ z.chunkSize := by
  intro m'
  simp only [m',separatorLen_eq ht hz]
  split
  · rw [flush]
    split
    · next hempty =>
      have hzero := h.total
      rw [hempty] at hzero
      simp only [lengthOf,map_nil,sum_nil] at hzero
      omega
    · obtain ⟨hsuffix,hsum,hoverlap,hleft⟩ := dropFront_spec ht hz (t.length split.text) h.total
      have hdocs : ∀ p ∈ m.docs ++ (joinSpanPieces m.currentDoc).toList,
          t.length p.text ≤ z.chunkSize := by
        intro p hp
        rcases mem_append.mp hp with hp | hp
        · exact h.docs p hp
        · have hle := lengthOf_join_le ht (Option.mem_toList.mp hp)
          have := h.fits
          have := h.total
          omega
      have hsolid : solidOf (m.docs ++ (joinSpanPieces m.currentDoc).toList) =
          solidOf m.docs ++ solidOf m.currentDoc := by
        rw [solidOf_append,solidOf_join]
      have htail := (solidOf_suffix hsuffix).trans (suffix_append (solidOf m.docs) _)
      refine ⟨⟨hsum,?_,hdocs,?_,?_⟩,?_⟩
      · simp only
        omega
      · have hrepeat := sameHead_repeat (c := []) htail
        rw [append_nil,append_nil] at hrepeat
        simp only [hsolid]
        exact hrepeat.trans h.head
      · intro hzero
        have hnone : solidOf (z.dropFront (t.length split.text) m.currentDoc m.total).1 = [] := by
          rw [solidOf_eq]
          by_contra hne
          have hlong := ht.pos _ hne
          have hle := ht.sublist (filter_sublist (l := (z.dropFront (t.length split.text)
            m.currentDoc m.total).1.flatMap SpanPiece.text) (p := fun c => !isSpace c))
          rw [← lengthOf_eq ht] at hle
          rw [solid] at hlong
          omega
        simp only [hsolid,hnone,append_nil]
        exact h.whole hzero
      · simp only
        omega
  · next hfits => exact ⟨h,by omega⟩

theorem merged_step (h : Merged t z good m) (hroom : t.length split.text < z.chunkSize) :
    Merged t z (good ++ [split]) (z.mergeStep m split) := by
  obtain ⟨hm,hfits⟩ := merged_flush ht hz h hroom
  rw [mergeStep,hz]
  simp only [separatorLen_eq ht hz] at hm hfits ⊢
  refine ⟨?_,hfits,hm.docs,?_,?_⟩
  · rw [lengthOf_append,hm.total]
    rfl
  · rw [solidOf_append,solidOf_append,← append_assoc]
    exact compatible_sameHead.append hm.head rfl
  · intro hzero
    rw [solidOf_append,solidOf_append,← append_assoc,hm.whole hzero]

section

variable (hgood : ∀ p ∈ good, t.length p.text < z.chunkSize)

include hgood

theorem merged_foldl {before : List SpanPiece}
    (h : Merged t z before m) : Merged t z (before ++ good) (good.foldl z.mergeStep m) := by
  induction good generalizing before m with
  | nil => simpa using h
  | cons p good ih =>
    have hstep := merged_step ht hz h (hgood p mem_cons_self)
    have hrest := ih (fun q hq => hgood q (mem_cons_of_mem p hq)) hstep
    rwa [append_assoc] at hrest

theorem mergeSplits_merged :
    Merged t z good (good.foldl z.mergeStep ⟨[], [], 0⟩) := by
  have hempty : Merged t z [] ⟨[],[],0⟩ := ⟨rfl,Nat.zero_le _,by simp,rfl,fun _ => rfl⟩
  have h := merged_foldl ht hz hgood hempty
  rwa [nil_append] at h

theorem mergeGood_head :
    SameHead (solidOf (z.mergeGood good)) (solidOf good) := by
  rw [mergeGood]
  split
  · next hnil =>
    rw [hnil]
    rfl
  · rw [mergeSplits,solidOf_append,solidOf_join]
    exact (mergeSplits_merged ht hz hgood).head

end

theorem mergeGood_whole (hzero : z.chunkOverlap = 0)
    (hgood : ∀ p ∈ good, t.length p.text < z.chunkSize) :
    solidOf (z.mergeGood good) = solidOf good := by
  rw [mergeGood]
  split
  · next hnil => rw [hnil]
  · rw [mergeSplits,solidOf_append,solidOf_join]
    exact (mergeSplits_merged ht hz hgood).whole hzero

theorem mergeGood_le (hgood : ∀ p ∈ good, t.length p.text < z.chunkSize) {p : SpanPiece}
    (hp : p ∈ z.mergeGood good) : t.length p.text ≤ z.chunkSize := by
  rw [mergeGood] at hp
  split at hp
  · exact nomatch hp
  · have hmerged := mergeSplits_merged ht hz hgood
    rcases mem_append.mp hp with hp | hp
    · exact hmerged.docs p hp
    · have hle := lengthOf_join_le ht (Option.mem_toList.mp hp)
      have := hmerged.fits
      have := hmerged.total
      omega

omit ht

theorem collect_related {r : Str → Str → Prop} (hr : Compatible r)
    (hmerge : ∀ good : List SpanPiece, (∀ p ∈ good, t.length p.text < z.chunkSize) →
      r (solidOf (z.mergeGood good)) (solidOf good))
    {deeper : SpanPiece → List SpanPiece} (hdeeper : ∀ p, r (solidOf (deeper p)) (solid p.text))
    (splits : List SpanPiece) (hgood : ∀ p ∈ good, t.length p.text < z.chunkSize) :
    r (solidOf (z.collect deeper good splits)) (solidOf good ++ solidOf splits) := by
  induction splits generalizing good with
  | nil =>
    rw [solidOf_nil,append_nil]
    exact hmerge good hgood
  | cons split splits ih =>
    rw [collect,solidOf_cons,← append_assoc]
    split
    · next hsmall =>
      have hone : solidOf [split] = solid split.text := by simp
      rw [← hone,← solidOf_append]
      apply ih
      intro p hp
      rcases mem_append.mp hp with hp | hp
      · exact hgood p hp
      · rw [mem_singleton.mp hp,← hz]
        exact hsmall
    · rw [solidOf_append,solidOf_append]
      have hrest := @ih [] (by simp)
      exact hr.append (hr.append (hmerge good hgood) (hdeeper split)) hrest

theorem splitText_related {r : Str → Str → Prop} (hr : Compatible r)
    (hmerge : ∀ good : List SpanPiece, (∀ p ∈ good, t.length p.text < z.chunkSize) →
      r (solidOf (z.mergeGood good)) (solidOf good))
    {separators : List Str} (hne : separators ≠ []) (text : Str) (base : ℕ) :
    r (solidOf (z.splitText separators text base)) (solid text) := by
  have hwhole : ∀ {text candidate base} {deeper : SpanPiece → List SpanPiece},
      (∀ p, r (solidOf (deeper p)) (solid p.text)) →
      r (solidOf (z.collect deeper [] (splitTextWithSpans text candidate base))) (solid text) := by
    intro text candidate base deeper hdeeper
    have hnone : ∀ p ∈ ([] : List SpanPiece), t.length p.text < z.chunkSize := by simp
    have h := collect_related hz hr hmerge hdeeper (splitTextWithSpans text candidate base) hnone
    rwa [solidOf_nil,solidOf_splits] at h
  have hself : ∀ p : SpanPiece, r (solidOf [p]) (solid p.text) := by
    intro p
    have hone : solidOf [p] = solid p.text := by simp
    rw [hone]
    exact hr.refl _
  induction separators generalizing text base with
  | nil => exact absurd rfl hne
  | cons candidate rest ih =>
    rw [splitText]
    split
    · exact hwhole hself
    · split
      · split
        · next hagain => exact ih hagain.1 text base
        · apply hwhole
          intro p
          split
          · exact hself p
          · next hrest => exact ih hrest p.text p.start
      · split
        · exact hwhole hself
        · next hrest => exact ih hrest text base

include ht

theorem collect_le {deeper : SpanPiece → List SpanPiece}
    (hgood : ∀ p ∈ good, t.length p.text < z.chunkSize)
    (hdeeper : ∀ s ∈ splits, ∀ p ∈ deeper s, t.length p.text ≤ z.chunkSize ∨ ∃ c, p.text = [c])
    {p : SpanPiece} (hp : p ∈ z.collect deeper good splits) :
    t.length p.text ≤ z.chunkSize ∨ ∃ c, p.text = [c] := by
  induction splits generalizing good with
  | nil => exact .inl (mergeGood_le ht hz hgood hp)
  | cons split splits ih =>
    have hlater := fun s hs => hdeeper s (mem_cons_of_mem split hs)
    rw [collect] at hp
    split at hp
    · next hsmall =>
      apply ih ?_ hlater hp
      intro q hq
      rcases mem_append.mp hq with hq | hq
      · exact hgood q hq
      · rw [mem_singleton.mp hq,← hz]
        exact hsmall
    · rcases mem_append.mp hp with hp | hp
      · rcases mem_append.mp hp with hp | hp
        · exact .inl (mergeGood_le ht hz hgood hp)
        · exact hdeeper split mem_cons_self p hp
      · exact ih (by simp) hlater hp

theorem splitText_le {separators : List Str} (hchars : [] ∈ separators) {text : Str} {base : ℕ}
    {p : SpanPiece} (hp : p ∈ z.splitText separators text base) :
    t.length p.text ≤ z.chunkSize ∨ ∃ c, p.text = [c] := by
  induction separators generalizing text base p with
  | nil => exact nomatch hchars
  | cons candidate rest ih =>
    rw [splitText] at hp
    split at hp
    · next hempty =>
      rw [hempty] at hp
      apply collect_le ht hz (by simp) ?_ hp
      intro s hs q hq
      rw [mem_singleton.mp hq]
      exact .inr (splitTextWithSpans_character hs)
    · next hempty =>
      have hrest : [] ∈ rest := (mem_cons.mp hchars).resolve_left (Ne.symm hempty)
      have hsome : rest ≠ [] := ne_nil_of_mem hrest
      split at hp
      · split at hp
        · exact ih hrest hp
        · apply collect_le ht hz (by simp) ?_ hp
          intro s _ q hq
          exact ih hrest hq
      · exact ih hrest hp

end Sizes

section

variable {τ : Type} {t : Tokenizer τ} {content text : Str} {size overlap : ℕ}
  {separators : List Str}

def solidTexts (texts : List Str) : Str := texts.flatMap solid

theorem trimmed_text {p q : SpanPiece} (h : p.trimmed = some q) :
    q.text = strip p.text ∧ strip p.text ≠ [] := by
  rw [SpanPiece.trimmed] at h
  split at h
  · exact nomatch h
  · next hne =>
    obtain rfl := Option.some.inj h
    exact ⟨rfl,hne⟩

theorem chunking_contents (t : Tokenizer τ) (size overlap : ℕ) (separators : List Str)
    (hcontent : isBlank content = false) :
    let texts := (chunkingByRecursiveCharacter t content size overlap separators).map
      TextChunk.content
    let pieces := ((Sizes.mk t.length (max size 1) overlap).splitText separators content
      0).filterMap SpanPiece.trimmed
    (pieces ≠ [] ∧ texts = pieces.map SpanPiece.text) ∨ (pieces = [] ∧ texts = [strip content]) := by
  intro texts pieces
  simp only [texts,chunkingByRecursiveCharacter,hcontent,Bool.false_eq_true,if_false]
  split
  · next hnil => exact .inr ⟨mapIdx_eq_nil_iff.mp hnil,rfl⟩
  · next hne =>
    refine .inl ⟨fun hnil => hne (mapIdx_eq_nil_iff.mpr hnil),?_⟩
    exact map_mapIdx (f := fun i p => TextChunk.ofPiece t p i) (g := TextChunk.content)
      (h := SpanPiece.text) (fun _ _ => rfl) pieces

theorem solidTexts_map (pieces : List SpanPiece) :
    solidTexts (pieces.map SpanPiece.text) = solidOf pieces := by
  rw [solidTexts,flatMap_map,solidOf]

theorem solid_chunks_cases (t : Tokenizer τ) (size overlap : ℕ) (separators : List Str)
    (hcontent : isBlank content = false) :
    let texts := (chunkingByRecursiveCharacter t content size overlap separators).map
      TextChunk.content
    solidTexts texts = solid content ∨
      solidTexts texts = solidOf ((Sizes.mk t.length (max size 1) overlap).splitText separators
        content 0) := by
  intro texts
  rcases chunking_contents t size overlap separators hcontent with ⟨_,htexts⟩ | ⟨_,htexts⟩
  · right
    rw [← solidOf_trimmed,← solidTexts_map]
    exact congrArg solidTexts htexts
  · left
    rw [show texts = [strip content] from htexts,solidTexts,flatMap_cons,flatMap_nil,
      append_nil,solid_strip]

theorem chunking_head (ht : t.Additive) (hcontent : isBlank content = false)
    (hne : separators ≠ []) :
    SameHead (solidTexts ((chunkingByRecursiveCharacter t content size overlap separators).map
      TextChunk.content)) (solid content) := by
  rcases solid_chunks_cases t size overlap separators hcontent with htexts | htexts
  · rw [htexts]
    rfl
  · rw [htexts]
    exact Sizes.splitText_related rfl compatible_sameHead
      (fun _ hgood => Sizes.mergeGood_head ht rfl hgood) hne content 0

theorem chunking_whole (ht : t.Additive) (size : ℕ) (hcontent : isBlank content = false)
    (hne : separators ≠ []) :
    solidTexts ((chunkingByRecursiveCharacter t content size 0 separators).map
      TextChunk.content) = solid content := by
  rcases solid_chunks_cases t size 0 separators hcontent with htexts | htexts
  · exact htexts
  · rw [htexts]
    exact Sizes.splitText_related rfl compatible_eq
      (fun _ hgood => Sizes.mergeGood_whole ht rfl rfl hgood) hne content 0

theorem chunking_le (ht : t.Additive) (hchars : [] ∈ separators)
    (htext : text ∈ (chunkingByRecursiveCharacter t content size overlap separators).map
      TextChunk.content) :
    t.length text ≤ max size 1 ∨ ∃ c, text = [c] := by
  have hcontent : isBlank content = false := by
    by_contra hblank
    rw [chunkingByRecursiveCharacter,if_pos (by simpa using hblank)] at htext
    exact nomatch htext
  rcases chunking_contents t size overlap separators hcontent with ⟨_,htexts⟩ | ⟨hnone,_⟩
  · rw [htexts] at htext
    obtain ⟨q,hq,rfl⟩ := mem_map.mp htext
    obtain ⟨p,hp,hpq⟩ := mem_filterMap.mp hq
    obtain ⟨hstrip,hne⟩ := trimmed_text hpq
    rw [hstrip]
    rcases Sizes.splitText_le ht rfl hchars hp with hle | ⟨c,hc⟩
    · exact .inl ((ht.sublist (strip_sublist p.text)).trans hle)
    · refine .inr ⟨c,?_⟩
      have hsub := strip_sublist p.text
      rw [hc] at hsub ⊢
      rcases sublist_singleton.mp hsub with hnil | hone
      · exact absurd (hc ▸ hnil) hne
      · exact hone
  · -- some piece of a text that is not blank is not blank
    have hread := Sizes.splitText_related (t := t) (z := ⟨t.length,max size 1,overlap⟩) rfl
      compatible_sameHead (fun _ hgood => Sizes.mergeGood_head ht rfl hgood)
      (ne_nil_of_mem hchars) content 0
    rw [← solidOf_trimmed,hnone,solidOf_nil,SameHead,List.head?_nil,eq_comm,
      List.head?_eq_none_iff] at hread
    exact absurd hread (isBlank_eq_false.mp hcontent)

theorem chunking_tokens {c : TextChunk}
    (hc : c ∈ chunkingByRecursiveCharacter t content size overlap separators) :
    c.tokens = t.length c.content := by
  rw [chunkingByRecursiveCharacter] at hc
  split at hc
  · exact nomatch hc
  · dsimp only at hc
    split at hc
    · rw [mem_singleton.mp hc]
      rfl
    · obtain ⟨i,hi,rfl⟩ := mem_mapIdx.mp hc
      rfl

theorem chunking_ne_nil (t : Tokenizer τ) (size overlap : ℕ) (separators : List Str)
    (hcontent : isBlank content = false) :
    (chunkingByRecursiveCharacter t content size overlap separators).map TextChunk.content ≠ [] := by
  rcases chunking_contents t size overlap separators hcontent with ⟨hne,htexts⟩ | ⟨_,htexts⟩
  · rw [htexts]
    simpa using hne
  · rw [htexts]
    exact cons_ne_nil _ _

theorem characterSplitText_ne_nil (htext : isBlank text = false) :
    characterSplitText t text size overlap ≠ [] := chunking_ne_nil t _ _ _ htext

theorem characterSplitText_solid {piece : Str} (htext : isBlank text = false)
    (h : piece ∈ characterSplitText t text size overlap) : isBlank piece = false := by
  rw [isBlank_eq_false]
  rcases chunking_contents t size (boundedOverlap size overlap) defaultSeparators htext with
    ⟨_,htexts⟩ | ⟨_,htexts⟩
  · rw [characterSplitText,htexts] at h
    obtain ⟨q,hq,rfl⟩ := mem_map.mp h
    obtain ⟨p,_,hpq⟩ := mem_filterMap.mp hq
    obtain ⟨hstrip,hne⟩ := trimmed_text hpq
    rw [hstrip,solid_strip]
    exact fun hnil => hne (strip_eq_nil.mpr hnil)
  · rw [characterSplitText,htexts] at h
    rw [mem_singleton.mp h,solid_strip]
    exact isBlank_eq_false.mp htext

theorem characterSplitText_le (ht : t.Additive) (hsize : 0 < size) {piece : Str}
    (h : piece ∈ characterSplitText t text size overlap) :
    t.length piece ≤ size ∨ ∃ c, piece = [c] := by
  have hle := chunking_le ht (show [] ∈ defaultSeparators by decide) h
  rwa [Nat.max_eq_left hsize] at hle

theorem characterSplitText_head (ht : t.Additive) (htext : isBlank text = false) :
    SameHead (solidTexts (characterSplitText t text size overlap)) (solid text) :=
  chunking_head ht htext (by decide)

theorem characterSplitText_whole (ht : t.Additive) (htext : isBlank text = false) :
    solidTexts (characterSplitText t text size 0) = solid text := by
  have hzero : boundedOverlap size 0 = 0 := by
    rw [boundedOverlap]
    split <;> simp
  rw [characterSplitText,hzero]
  exact chunking_whole ht size htext (by decide)

end

end LightRAG.Chunking
