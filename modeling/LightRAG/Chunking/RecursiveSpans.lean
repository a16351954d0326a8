import LightRAG.Chunking.RecursiveCharacterFacts
import Mathlib.Data.List.Chain

/-!
# The spans of recursive character chunking

Pieces are slices of the content. The chunks cover it from one to the next, up to white space.
-/

namespace LightRAG.Chunking
open List

open Text (isSpace)

/-- White space only, from `a` up to `b`. -/
def Blank (content : Str) (a b : ℕ) : Prop :=
  ∀ i c, content[i]? = some c → a ≤ i → i < b → isSpace c = true

/-- Pieces in the order of their starts that leave out white space only, from `a` up to `m`; no
later one starts before `lo`. -/
inductive Spans (content : Str) (a : ℕ) : List SpanPiece → (lo m : ℕ) → Prop
  | nil : Spans content a [] a a
  | snoc {docs : List SpanPiece} {lo m : ℕ} {p : SpanPiece} : Spans content a docs lo m →
    p.Exact content → lo ≤ p.start → Blank content m p.start →
    Spans content a (docs ++ [p]) p.start p.stop
  | blank {docs : List SpanPiece} {lo m m' : ℕ} : Spans content a docs lo m → m ≤ m' →
    Blank content m m' → Spans content a docs lo m'

section

variable {content text separator : Str} {a b m base : ℕ} {p q : SpanPiece}
  {ps good docs : List SpanPiece}

theorem Blank.trans {k : ℕ} (h : Blank content a b) (h' : Blank content b k) :
    Blank content a k := by
  intro i c hc hi hk
  rcases Nat.lt_or_ge i b with hlt | hge
  · exact h i c hc hi hlt
  · exact h' i c hc hge hk

theorem Blank.mono {a' b' : ℕ} (h : Blank content a b) (ha : a ≤ a') (hb : b' ≤ b) :
    Blank content a' b' := fun i c hc hi hlt => h i c hc (ha.trans hi) (hlt.trans_le hb)

theorem strip_parts (s : Str) : ∃ w v, w.length = (s.takeWhile isSpace).length ∧
    s = w ++ (strip s ++ v) ∧ w.all isSpace = true ∧ v.all isSpace = true :=
  ⟨_,_,rfl,append_strip_append s,by simp,by simp⟩

theorem blank_of_le (h : b ≤ a) : Blank content a b := fun _ _ _ hi hlt => by omega

namespace SpanPiece.Exact

theorem blank (h : p.Exact content) (hb : b ≤ p.text.length)
    (hspace : ((p.text.take b).drop a).all isSpace = true) :
    Blank content (p.start + a) (p.start + b) := by
  intro i c hc hi hlt
  obtain ⟨k,rfl⟩ := Nat.exists_eq_add_of_le (Nat.le_of_add_right_le hi)
  rw [← h.getElem? (by omega)] at hc
  have hmem : ((p.text.take b).drop a)[k - a]? = some c := by
    rw [getElem?_drop,Nat.add_sub_of_le (by omega),getElem?_take_of_lt (by omega),hc]
  exact all_eq_true.mp hspace c (mem_of_getElem? hmem)

theorem trimmed_eq (h : p.Exact content) : p.trimmed = if strip p.text = [] then none else
    some (spanPiece p.text p.start (p.text.takeWhile isSpace).length
      ((p.text.takeWhile isSpace).length + (strip p.text).length)) := by
  obtain ⟨w,v,hw,hparts,-,-⟩ := strip_parts p.text
  have hlength := congrArg List.length hparts
  have hdrop := congrArg (List.drop w.length) hparts
  have hstop := h.stop_eq
  rw [length_append,length_append] at hlength
  rw [drop_left] at hdrop
  rw [SpanPiece.trimmed,← hw]
  split
  · rfl
  · dsimp only [spanPiece]
    rw [Nat.add_sub_cancel_left,hdrop,take_left,Option.some_inj,SpanPiece.mk.injEq]
    exact ⟨rfl,rfl,by omega⟩

theorem trimmed (h : p.Exact content) (hq : p.trimmed = some q) :
    q.Exact content ∧ Blank content p.start q.start ∧ Blank content q.stop p.stop ∧
      q.stop ≤ p.stop ∧ p.start ≤ q.start ∧
      ∃ c, content[q.start]? = some c ∧ isSpace c = false := by
  obtain ⟨w,v,hw,hparts,hspace,hv⟩ := strip_parts p.text
  have hlength := congrArg List.length hparts
  have hstop := h.stop_eq
  rw [length_append,length_append] at hlength
  rw [h.trimmed_eq,← hw] at hq
  split at hq
  · cases hq
  next hne =>
  obtain rfl := Option.some.inj hq
  obtain ⟨c,cs,hcs⟩ := exists_cons_of_ne_nil hne
  have hpos := length_pos_of_ne_nil hne
  refine ⟨h.slice (by omega) (by omega),?_,?_,by simp [spanPiece]; omega,by simp [spanPiece],
    c,?_,?_⟩
  · have htake := congrArg (List.take w.length) hparts
    rw [take_left] at htake
    exact h.blank (a := 0) (b := w.length) (by omega) (by rwa [htake])
  · have hdrop := congrArg (List.drop (w ++ strip p.text).length) hparts
    rw [← append_assoc,drop_left,length_append] at hdrop
    rw [hstop]
    exact h.blank (Nat.le_refl _) (by rwa [take_length,hdrop])
  · have hget := congrArg (fun l : Str => l[w.length]?) hparts
    rw [hcs] at hget
    dsimp only [spanPiece]
    rw [← h.getElem? (by omega)]
    simpa using hget
  · refine Trim.not_head_dropWhile (Trim.head_rtrim (?_ : (strip p.text).head? = some c))
    rw [hcs]
    rfl

theorem blank_of_trimmed (h : p.Exact content) (hnone : p.trimmed = none) :
    Blank content p.start p.stop := by
  rw [h.trimmed_eq] at hnone
  split at hnone
  · next hnil =>
    obtain ⟨w,v,-,hparts,hw,hv⟩ := strip_parts p.text
    rw [hnil,nil_append] at hparts
    rw [h.stop_eq]
    refine h.blank (a := 0) (Nat.le_refl _) ?_
    rw [take_length,drop_zero,hparts,all_append,hw,hv]
    rfl
  · cases hnone

end SpanPiece.Exact

theorem joinSpanPieces_eq (h : Tiles content a ps b) (hb : b ≤ content.length) :
    joinSpanPieces ps = SpanPiece.trimmed ⟨ps.flatMap SpanPiece.text, a, b⟩ := by
  obtain ⟨hexact,hoffsets⟩ := h.joined hb
  obtain ⟨w,v,hw,hparts,-,-⟩ := strip_parts (ps.flatMap SpanPiece.text)
  have hlength := congrArg List.length hparts
  have hdrop := congrArg (List.drop w.length) hparts
  have htext := hexact.length_eq
  rw [length_append,length_append] at hlength
  rw [drop_left] at hdrop
  dsimp only at htext
  rw [joinSpanPieces,hoffsets,hexact.trimmed_eq,← hw]
  split
  · rfl
  · next hne =>
    have hpos := length_pos_of_ne_nil hne
    have hget : ∀ i, i < b - a → (range' a (b - a)).getD i 0 = a + i := by
      intro i hi
      simp [hi]
    rw [hget _ (by omega),hget _ (by omega)]
    dsimp only [spanPiece]
    rw [Nat.add_sub_cancel_left,hdrop,take_left,Option.some_inj,SpanPiece.mk.injEq]
    exact ⟨rfl,rfl,by omega⟩

/-! ## Merges -/

namespace Spans

variable {lo : ℕ}

theorem le (h : Spans content a docs lo m) : a ≤ lo ∧ lo ≤ m := by
  induction h with
  | nil => exact ⟨Nat.le_refl _,Nat.le_refl _⟩
  | snoc _ hp hlo _ ih => exact ⟨ih.1.trans hlo,hp.le⟩
  | blank _ hle _ ih => exact ⟨ih.1,ih.2.trans hle⟩

theorem append {docs' : List SpanPiece} {lo' m' : ℕ} (h : Spans content a docs lo m)
    (h' : Spans content m docs' lo' m') :
    ∃ lo'' ≤ lo', Spans content a (docs ++ docs') lo'' m' := by
  induction h' with
  | nil => exact ⟨lo,h.le.2,by rwa [append_nil]⟩
  | snoc _ hp hlo hblank ih =>
    obtain ⟨lo'',hle,hcovers⟩ := ih
    rw [← append_assoc]
    exact ⟨_,Nat.le_refl _,hcovers.snoc hp (hle.trans hlo) hblank⟩
  | blank _ hm hblank ih =>
    obtain ⟨lo'',hle,hcovers⟩ := ih
    exact ⟨lo'',hle,hcovers.blank hm hblank⟩

theorem single (h : p.Exact content) : Spans content p.start [p] p.start p.stop :=
  nil.snoc h (Nat.le_refl _) (blank_of_le (Nat.le_refl _))

theorem trimmed (h : Spans content a docs lo m) (hp : p.Exact content)
    (hlo : Blank content p.start lo) (hm : Blank content m p.start) :
    ∃ lo' m', p.stop ≤ m' ∧ m' ≤ max m p.stop ∧
      Spans content a (docs ++ p.trimmed.toList) lo' m' ∧ Blank content p.start lo' := by
  cases hq : p.trimmed with
  | none =>
    have hblank := hm.trans (hp.blank_of_trimmed hq)
    rw [Option.toList_none,append_nil]
    rcases Nat.le_total m p.stop with hle | hle
    · exact ⟨lo,p.stop,Nat.le_refl _,by omega,h.blank hle hblank,hlo⟩
    · exact ⟨lo,m,hle,by omega,h,hlo⟩
  | some q =>
    obtain ⟨hexact,hstart,hstop,hle,hge,c,hc,hsolid⟩ := hp.trimmed hq
    have hafter : lo ≤ q.start := by
      rw [← Nat.not_lt]
      intro hlt
      have hspace := hlo q.start c hc hge hlt
      rw [hsolid] at hspace
      cases hspace
    exact ⟨q.start,p.stop,Nat.le_refl _,by omega,
      (h.snoc hexact hafter (hm.trans hstart)).blank hle hstop,hstart⟩

theorem trims (h : Spans content a docs lo m) : ∃ lo' m', m ≤ m' ∧
    Spans content a (docs.filterMap SpanPiece.trimmed) lo' m' ∧ Blank content lo lo' := by
  induction h with
  | nil => exact ⟨a,a,Nat.le_refl _,nil,blank_of_le (Nat.le_refl _)⟩
  | snoc _ hp hlo hblank ih =>
    obtain ⟨lo',m',hm,hcovers,hlower⟩ := ih
    obtain ⟨lo'',m'',hstop,-,hnext,hlower'⟩ := hcovers.trimmed hp
      (hlower.mono hlo (Nat.le_refl _)) (hblank.mono hm (Nat.le_refl _))
    rw [filterMap_append,filterMap_cons]
    refine ⟨lo'',m'',hstop,?_,hlower'⟩
    split
    · next hnone => rwa [hnone] at hnext
    · next hsome => rwa [hsome] at hnext
  | blank hc hm hblank ih =>
    obtain ⟨lo',k,hle,hcovers,hlower⟩ := ih
    rcases Nat.le_total k _ with hk | hk
    · exact ⟨lo',_,Nat.le_refl _,hcovers.blank hk (hblank.mono hle (Nat.le_refl _)),hlower⟩
    · exact ⟨lo',k,hk,hcovers,hlower⟩

end Spans

/-- What has been merged, and the document under way. -/
structure Merged (content : Str) (a : ℕ) (m : Merge) (e : ℕ) : Prop where
  within : e ≤ content.length
  state : ∃ lo c s, Spans content a m.docs lo c ∧ c ≤ e ∧ Tiles content s m.currentDoc e ∧
    Blank content s lo ∧ Blank content c s

namespace Merged

variable {z : Sizes} {mg : Merge} {e splitLen : ℕ}

theorem flushed {lo c s : ℕ} (hdocs : Spans content a docs lo c) (hce : c ≤ e)
    (hdoc : Tiles content s ps e) (hlo : Blank content s lo) (hc : Blank content c s)
    (he : e ≤ content.length) : ∃ lo',
      Spans content a (docs ++ (joinSpanPieces ps).toList) lo' e ∧ Blank content s lo' := by
  obtain ⟨hexact,-⟩ := hdoc.joined he
  obtain ⟨lo',m',hle,hge,hcovers,hlower⟩ := hdocs.trimmed hexact hlo hc
  rw [joinSpanPieces_eq hdoc he]
  obtain rfl : m' = e := by
    dsimp only at hle hge
    omega
  exact ⟨lo',hcovers,hlower⟩

theorem finished (h : Merged content a mg e) :
    ∃ lo, Spans content a (mg.docs ++ (joinSpanPieces mg.currentDoc).toList) lo e := by
  obtain ⟨lo,c,s,hdocs,hce,hdoc,hlo,hc⟩ := h.state
  obtain ⟨lo',hcovers,-⟩ := flushed hdocs hce hdoc hlo hc h.within
  exact ⟨lo',hcovers⟩

theorem dropFront_suffix (z : Sizes) (splitLen : ℕ) (doc : List SpanPiece) (total : ℕ) :
    (z.dropFront splitLen doc total).1 <:+ doc := by
  induction doc generalizing total with
  | nil => exact suffix_refl _
  | cons p doc ih =>
    rw [Sizes.dropFront]
    split
    · exact (ih _).trans (suffix_cons p doc)
    · exact suffix_refl _

theorem flush (h : Merged content a mg e) : Merged content a (z.flush splitLen mg) e := by
  obtain ⟨lo,c,s,hdocs,hce,hdoc,hlo,hc⟩ := h.state
  rw [Sizes.flush]
  split
  · exact h
  · obtain ⟨lo',hcovers,hlower⟩ := flushed hdocs hce hdoc hlo hc h.within
    obtain ⟨front,hfront⟩ := dropFront_suffix z splitLen mg.currentDoc
      mg.total
    rw [← hfront] at hdoc
    obtain ⟨k,hdropped,hkept⟩ := hdoc.of_append
    exact ⟨h.within,lo',e,k,hcovers,Nat.le_refl _,hkept,
      hlower.mono hdropped.le (Nat.le_refl _),blank_of_le hkept.le⟩

theorem step (h : Merged content a mg p.start) (hp : p.Exact content) :
    Merged content a (z.mergeStep mg p) p.stop := by
  have hnext : ∀ {mg' : Merge} {total : ℕ}, Merged content a mg' p.start →
      Merged content a { mg' with currentDoc := mg'.currentDoc ++ [p], total := total } p.stop := by
    intro mg' total h'
    obtain ⟨lo,c,s,hdocs,hce,hdoc,hlo,hc⟩ := h'.state
    exact ⟨hp.within,lo,c,s,hdocs,hce.trans hp.le,hdoc.append (.single hp),hlo,hc⟩
  rw [Sizes.mergeStep]
  split
  · exact hnext h.flush
  · exact hnext h

theorem foldl (h : Merged content a mg b) (hps : Tiles content b ps e) :
    Merged content a (ps.foldl z.mergeStep mg) e := by
  induction ps generalizing mg b with
  | nil =>
    obtain rfl : b = e := hps
    exact h
  | cons p ps ih =>
    obtain ⟨hp,rfl,hrest⟩ := hps
    exact ih (h.step hp) hrest

end Merged

theorem covers_mergeGood (z : Sizes) (h : Tiles content a ps b) (hb : b ≤ content.length) :
    ∃ lo, Spans content a (z.mergeGood ps) lo b := by
  rw [Sizes.mergeGood]
  split
  · next hnil =>
    rw [hnil] at h
    obtain rfl : a = b := h
    exact ⟨a,.nil⟩
  · have hstart : Merged content a ⟨[],[],0⟩ a := ⟨h.le.trans hb,a,a,a,.nil,Nat.le_refl _,
      rfl,blank_of_le (Nat.le_refl _),blank_of_le (Nat.le_refl _)⟩
    exact (hstart.foldl h).finished

theorem covers_collect (z : Sizes) {deeper : SpanPiece → List SpanPiece}
    (hgood : Tiles content a good m) (hps : Tiles content m ps b) (hb : b ≤ content.length)
    (hdeeper : ∀ p : SpanPiece, p.Exact content →
      ∃ lo, Spans content p.start (deeper p) lo p.stop) :
    ∃ lo, Spans content a (z.collect deeper good ps) lo b := by
  induction ps generalizing a m good with
  | nil =>
    obtain rfl : m = b := hps
    exact covers_mergeGood z hgood hb
  | cons p ps ih =>
    obtain ⟨hp,rfl,hrest⟩ := hps
    rw [Sizes.collect]
    split
    · exact ih (hgood.append (.single hp)) hrest
    · obtain ⟨_,hmerged⟩ := covers_mergeGood z hgood (hp.le.trans hp.within)
      obtain ⟨_,hlarge⟩ := hdeeper p hp
      obtain ⟨_,hafter⟩ := @ih p.stop p.stop [] rfl hrest
      obtain ⟨_,-,hboth⟩ := hmerged.append hlarge
      obtain ⟨lo,-,hall⟩ := hboth.append hafter
      exact ⟨lo,hall⟩

theorem covers_splitText (z : Sizes) {separators : List Str} (hne : separators ≠ [])
    (hp : p.Exact content) :
    ∃ lo, Spans content p.start (z.splitText separators p.text p.start) lo p.stop := by
  induction separators generalizing p with
  | nil => exact absurd rfl hne
  | cons candidate rest ih =>
    have hsplits := tiles_splits hp candidate
    have hwhole : ∀ q : SpanPiece, q.Exact content → ∃ lo, Spans content q.start [q] lo q.stop :=
      fun q hq => ⟨q.start,.single hq⟩
    have hstart : Tiles content p.start [] p.start := rfl
    rw [Sizes.splitText]
    split
    · exact covers_collect z hstart hsplits hp.within hwhole
    split
    · split
      · next hskip => exact ih hskip.1 hp
      · apply covers_collect z hstart hsplits hp.within
        intro q hq
        split
        · exact hwhole q hq
        · next hrest => exact ih hrest hq
    split
    · exact covers_collect z hstart hsplits hp.within hwhole
    · next hrest => exact ih hrest hp

theorem covers_facts {lo : ℕ} (h : Spans content a docs lo m) :
    (∀ p ∈ docs, p.Exact content ∧ p.start ≤ lo) ∧ (docs.map SpanPiece.start).Pairwise (· ≤ ·) ∧
      docs.IsChain (fun p q => Blank content p.stop q.start) ∧
      (∀ p ∈ docs.getLast?, Blank content p.stop m) ∧
      ∀ i c, content[i]? = some c → isSpace c = false → a ≤ i → i < m →
        ∃ p ∈ docs, p.start ≤ i ∧ i < p.stop := by
  induction h with
  | nil => simp +contextual
  | @snoc docs lo m p _ hp hlo hblank ih =>
    obtain ⟨hexact,hsorted,hchain,hlast,hcovered⟩ := ih
    refine ⟨?_,?_,?_,?_,?_⟩
    · exact forall_mem_append.mpr ⟨fun q hq => ⟨(hexact q hq).1,(hexact q hq).2.trans hlo⟩,
        forall_mem_singleton.mpr ⟨hp,Nat.le_refl _⟩⟩
    · rw [map_append,pairwise_append]
      refine ⟨hsorted,pairwise_singleton _ _,forall_mem_map.mpr fun q hq => ?_⟩
      exact forall_mem_singleton.mpr ((hexact q hq).2.trans hlo)
    · rw [isChain_append]
      refine ⟨hchain,.singleton _,fun q hq r hr => ?_⟩
      obtain rfl := Option.some.inj hr
      exact (hlast q hq).trans hblank
    · rw [getLast?_concat]
      intro q hq
      obtain rfl := Option.some.inj hq
      exact blank_of_le (Nat.le_refl _)
    · intro i c hc hsolid ha hi
      rcases Nat.lt_or_ge i m with hlt | hge
      · obtain ⟨q,hq,hin⟩ := hcovered i c hc hsolid ha hlt
        exact ⟨q,mem_append_left _ hq,hin⟩
      · refine ⟨p,mem_append_right _ mem_cons_self,?_,hi⟩
        rw [← Nat.not_lt]
        intro hlt
        have hspace := hblank i c hc hge hlt
        rw [hsolid] at hspace
        cases hspace
  | blank _ hm hblank ih =>
    obtain ⟨hexact,hsorted,hchain,hlast,hcovered⟩ := ih
    refine ⟨hexact,hsorted,hchain,fun p hp => (hlast p hp).trans hblank,?_⟩
    intro i c hc hsolid ha hi
    refine hcovered i c hc hsolid ha ?_
    rw [← Nat.not_le]
    intro hge
    have hspace := hblank i c hc hge hi
    rw [hsolid] at hspace
    cases hspace

end

def TextChunk.piece (c : TextChunk) : SpanPiece := ⟨c.content, c.span.1, c.span.2⟩

theorem covers_chunks {τ : Type} (t : Tokenizer τ) {content : Str} (size overlap : ℕ)
    (separators : List Str) (hsolid : isBlank content = false) :
    ∃ lo m, content.length ≤ m ∧ Spans content 0
      ((chunkingByRecursiveCharacter t content size overlap separators).map TextChunk.piece)
      lo m := by
  have hwhole : (⟨content,0,content.length⟩ : SpanPiece).Exact content :=
    ⟨Nat.zero_le _,Nat.le_refl _,by simp⟩
  rw [chunkingByRecursiveCharacter,if_neg (by simp [hsolid])]
  dsimp only
  split
  · have hne : strip content ≠ [] := mt strip_eq_nil.mp (isBlank_eq_false.mp hsolid)
    obtain ⟨w,v,hw,hparts,-⟩ := strip_parts content
    have hlength := congrArg List.length hparts
    rw [length_append,length_append] at hlength
    have htrimmed : SpanPiece.trimmed ⟨content,0,content.length⟩ =
        some ⟨strip content,w.length,w.length + (strip content).length⟩ := by
      rw [SpanPiece.trimmed,if_neg hne]
      simp
      omega
    obtain ⟨lo,m,hle,-,hcovers,-⟩ := Spans.nil.trimmed hwhole (blank_of_le (Nat.le_refl _))
      (blank_of_le (Nat.le_refl _))
    rw [htrimmed] at hcovers
    rw [← hw]
    exact ⟨lo,m,hle,hcovers⟩
  · next hresults =>
    have hne : separators ≠ [] := by
      rintro rfl
      exact hresults rfl
    obtain ⟨_,hsplit⟩ := covers_splitText ⟨t.length,max size 1,overlap⟩ hne hwhole
    obtain ⟨lo,m,hle,hcovers,-⟩ := hsplit.trims
    have hpieces := @map_mapIdx _ _ _ (fun i p => TextChunk.ofPiece t p i) TextChunk.piece id
      fun _ _ => rfl
    rw [hpieces,map_id]
    exact ⟨lo,m,hle,hcovers⟩

theorem recursive_spans {τ : Type} (t : Tokenizer τ) (content : Str) (size overlap : ℕ)
    (separators : List Str) :
    let pieces := (chunkingByRecursiveCharacter t content size overlap separators).map
      TextChunk.piece
    (∀ p ∈ pieces, p.Exact content) ∧ (pieces.map SpanPiece.start).Pairwise (· ≤ ·) ∧
      pieces.IsChain (fun p q => Blank content p.stop q.start) ∧
      ∀ i c, content[i]? = some c → isSpace c = false →
        ∃ p ∈ pieces, p.start ≤ i ∧ i < p.stop := by
  cases hblank : isBlank content with
  | true =>
    rw [chunkingByRecursiveCharacter,if_pos hblank]
    refine ⟨by simp,by simp,by simp,fun i c hc hsolid => ?_⟩
    rw [all_eq_true.mp hblank c (mem_of_getElem? hc)] at hsolid
    cases hsolid
  | false =>
    obtain ⟨lo,m,hle,hcovers⟩ := covers_chunks t size overlap separators hblank
    obtain ⟨hexact,hsorted,hchain,-,hcovered⟩ := covers_facts hcovers
    refine ⟨fun p hp => (hexact p hp).1,hsorted,hchain,fun i c hc hsolid => ?_⟩
    obtain ⟨hi,-⟩ := List.getElem?_eq_some_iff.mp hc
    exact hcovered i c hc hsolid (Nat.zero_le i) (hi.trans_le hle)

end LightRAG.Chunking
