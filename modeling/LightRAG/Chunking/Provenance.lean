import LightRAG.Chunking.HeadingGlueFacts

/-!
# The blocks of one row

TableRowSplit and AnchorSplit turn the block of a row into blocks of that row.
-/

namespace LightRAG.Chunking
open List Except

variable {τ α : Type}

section

variable {e : Env τ α} {z : Targets} {block : Block} {ids cited : List Str} {out : List Block}
  {paragraphs : List Paragraph} {role : Role} {x : Expansion} {p : Paragraph}

/-- The state of an expansion: blocks of the row, and paragraphs that wait for one. -/
structure Expansion.Ok (t : Tokenizer τ) (ids cited : List Str) (x : Expansion) : Prop where
  out : ∀ b ∈ x.out, b.Fresh t ids cited
  paras : ∀ p ∈ x.curParas, p.Ok ids

def Expansion.Some (x : Expansion) : Prop := x.out ≠ [] ∨ x.curParas ≠ []

theorem appendBlock_fresh (hids : dedupPreservingOrder block.blockids = cited)
    (hout : ∀ b ∈ out, b.Fresh e.tokenizer ids cited) (hne : paragraphs ≠ [])
    (hok : ∀ p ∈ paragraphs, p.Ok ids) :
    ∀ b ∈ appendBlock e block out paragraphs role, b.Fresh e.tokenizer ids cited := by
  intro b hb
  rcases mem_append.mp hb with hb | hb
  · exact hout b hb
  · rw [mem_singleton.mp hb]
    exact newBlock_fresh hids hne hok

theorem flushCur_ok (hids : dedupPreservingOrder block.blockids = cited)
    (h : x.Ok e.tokenizer ids cited) : (flushCur e block x).Ok e.tokenizer ids cited := by
  rw [flushCur]
  split
  · exact ⟨h.out,h.paras⟩
  · next hne => exact ⟨appendBlock_fresh hids h.out hne h.paras,by simp⟩

theorem flushCur_out (h : x.Some) : (flushCur e block x).out ≠ [] := by
  rw [flushCur]
  split
  · next hnil => exact h.resolve_right (not_not.mpr hnil)
  · simp [appendBlock]

theorem textParagraph_ok {rows : List Str} {text : Str} (hrows : rows ≠ [])
    (hwithin : ∀ row ∈ rows, row ∈ ids) : ∀ p ∈ (textParagraph rows text).toList, p.Ok ids := by
  intro p hp
  rw [textParagraph] at hp
  split at hp
  · exact nomatch hp
  · next hblank =>
    rw [Option.toList_some,mem_singleton] at hp
    subst hp
    exact ⟨by simpa using hblank,hrows,hwithin⟩

section

variable (hids : dedupPreservingOrder block.blockids = cited)

include hids

theorem flushLastBridge_ok
    (h : x.Ok e.tokenizer ids cited) :
    (flushLastBridge e z block p x).1.Ok e.tokenizer ids cited ∧
    ∀ q ∈ (flushLastBridge e z block p x).2, q.Ok ids := by
  rw [flushLastBridge]
  split
  · exact ⟨⟨h.out,h.paras⟩,by simp⟩
  · next seed bridge hparas =>
    dsimp only
    split
    · exact ⟨flushCur_ok hids h,by simp⟩
    · next hbridge =>
      have hpar : ∀ q ∈ seed :: bridge, q.Ok ids := hparas ▸ h.paras
      have hsome : bridge ≠ [] := fun hnil => hbridge (.inr (.inl hnil))
      have hrows : bridge.flatMap Paragraph.rows ≠ [] := by
        obtain ⟨q,hq⟩ := exists_mem_of_ne_nil _ hsome
        obtain ⟨row,hrow⟩ := exists_mem_of_ne_nil _
          (hpar q (mem_cons_of_mem seed hq)).traced
        exact ne_nil_of_mem (mem_flatMap.mpr ⟨q,hq,hrow⟩)
      have hwithin : ∀ row ∈ bridge.flatMap Paragraph.rows, row ∈ ids := by
        intro row hrow
        obtain ⟨q,hq,hrow⟩ := mem_flatMap.mp hrow
        exact (hpar q (mem_cons_of_mem seed hq)).within row hrow
      generalize bridgeTexts e z (joinParagraphs bridge) _ _ = texts
      have hprev : ∀ b ∈ appendBlock e block x.out
          (seed :: (textParagraph (bridge.flatMap Paragraph.rows) texts.1).toList) .last,
          b.Fresh e.tokenizer ids cited := by
        apply appendBlock_fresh hids h.out (cons_ne_nil _ _)
        intro q hq
        rcases mem_cons.mp hq with rfl | hq
        · exact hpar q mem_cons_self
        · exact textParagraph_ok hrows hwithin q hq
      refine ⟨⟨?_,by simp⟩,textParagraph_ok hrows hwithin⟩
      split
      · next middle hmiddle =>
        apply appendBlock_fresh hids hprev (cons_ne_nil _ _)
        intro q hq
        rw [mem_singleton.mp hq]
        exact textParagraph_ok hrows hwithin middle (by rw [hmiddle]; simp)
      · exact hprev

theorem takeFirst_ok
    (h : x.Ok e.tokenizer ids cited) (hp : p.Ok ids) :
    (takeFirst e z block p x).Ok e.tokenizer ids cited := by
  rw [takeFirst]
  split
  · obtain ⟨hflush,hcontext⟩ := flushLastBridge_ok (z := z) (p := p) hids h
    refine ⟨hflush.out,?_⟩
    intro q hq
    simp only [mem_append,mem_singleton] at hq
    rcases hq with (hq | hq) | rfl
    · exact hflush.paras q hq
    · exact hcontext q hq
    · exact hp
  · refine ⟨h.out,?_⟩
    intro q hq
    rcases mem_append.mp hq with hq | hq
    · exact h.paras q hq
    · exact mem_singleton.mp hq ▸ hp

theorem takeSlices_ok
    (h : x.Ok e.tokenizer ids cited) {slices : List Paragraph} (hslices : ∀ p ∈ slices, p.Ok ids) :
    (takeSlices e block x slices).Ok e.tokenizer ids cited := by
  induction slices generalizing x with
  | nil => exact h
  | cons p slices ih =>
    have hp := hslices p mem_cons_self
    have hflush := flushCur_ok hids h
    cases slices with
    | nil =>
      refine ⟨hflush.out,?_⟩
      intro q hq
      rcases mem_append.mp hq with hq | hq
      · exact hflush.paras q hq
      · exact mem_singleton.mp hq ▸ hp
    | cons p' slices =>
      rw [takeSlices]
      apply ih ?_ (fun q hq => hslices q (mem_cons_of_mem p hq))
      refine ⟨appendBlock_fresh hids hflush.out (cons_ne_nil _ _) ?_,hflush.paras⟩
      intro q hq
      exact mem_singleton.mp hq ▸ hp
      simp

end

theorem takeSlices_some {slices : List Paragraph} (hslices : slices ≠ []) :
    (takeSlices e block x slices).Some := by
  induction slices generalizing x with
  | nil => exact absurd rfl hslices
  | cons p slices ih =>
    cases slices with
    | nil => exact .inr (by simp [takeSlices,takeLast])
    | cons p' slices => exact ih (cons_ne_nil _ _)

theorem expandStep_ok {headers : Str → Option Str} {y : Expansion}
    (hids : dedupPreservingOrder block.blockids = cited) (h : x.Ok e.tokenizer ids cited)
    (hp : p.Ok ids)
    (hstep : expandStep e z block headers x p = .ok y) : y.Ok e.tokenizer ids cited ∧ y.Some := by
  have hwait : ∀ q : Paragraph, q.Ok ids →
      Expansion.Ok e.tokenizer ids cited { x with curParas := x.curParas ++ [q] } ∧
      Expansion.Some { x with curParas := x.curParas ++ [q] } := by
    intro q hq
    refine ⟨⟨h.out,?_⟩,.inr (by simp)⟩
    intro q' hq'
    rcases mem_append.mp hq' with hq' | hq'
    · exact h.paras q' hq'
    · exact mem_singleton.mp hq' ▸ hq
  rw [expandStep] at hstep
  split at hstep
  · obtain ⟨pieces,hpieces,hstep⟩ := Results.bind_ok hstep
    have hnot := (splitTableText_outcome hpieces).notBlank hp.notBlank
    have hslices : ∀ q ∈ pieces.map fun text => (⟨text,isTableParagraph text,p.rows⟩ : Paragraph),
        q.Ok ids := by
      intro q hq
      obtain ⟨text,htext,rfl⟩ := mem_map.mp hq
      exact ⟨hnot text htext,hp.traced,hp.within⟩
    split at hstep
    · next first second slices hmap =>
      obtain rfl := ok.inj hstep
      rw [hmap] at hslices
      exact ⟨takeSlices_ok hids (takeFirst_ok hids h (hslices first mem_cons_self))
        fun q hq => hslices q (mem_cons_of_mem first hq),takeSlices_some (cons_ne_nil _ _)⟩
    · obtain rfl := ok.inj hstep
      exact hwait p hp
  · obtain rfl := ok.inj hstep
    exact hwait p hp

theorem expandBlock_fresh {headers : Str → Option Str} {blocks : List Block}
    (hblock : block.Fresh e.tokenizer ids cited) (hids : dedupPreservingOrder cited = cited)
    (h : expandBlockWithTableSplits e z block headers = .ok blocks) :
    blocks ≠ [] ∧ ∀ b ∈ blocks, b.Fresh e.tokenizer ids cited := by
  have hblockids : dedupPreservingOrder block.blockids = cited := by rw [hblock.blockids,hids]
  rw [expandBlockWithTableSplits] at h
  split at h
  · obtain ⟨x,hx,h⟩ := Results.bind_ok h
    obtain rfl := ok.inj h
    obtain ⟨p,ps,hps⟩ := exists_cons_of_ne_nil hblock.ne_nil
    have hok := hblock.paragraphs
    rw [hps] at hx hok
    obtain ⟨y,hy,hx⟩ := Results.bind_ok hx
    have hfirst := expandStep_ok hblockids ⟨by simp,by simp⟩ (hok p mem_cons_self) hy
    have hlast : x.Ok e.tokenizer ids cited ∧ x.Some :=
      Results.foldlM_ok (fun x : Expansion => x.Ok e.tokenizer ids cited ∧ x.Some)
        (fun _ q _ hq hs hstep => expandStep_ok hblockids hs.1 (hok q (mem_cons_of_mem p hq))
          hstep) hfirst hx
    exact ⟨flushCur_out hlast.2,(flushCur_ok hblockids hlast.1).out⟩
  · obtain rfl := ok.inj h
    exact ⟨cons_ne_nil _ _,by simpa using hblock⟩

end

section

variable {e : Env τ α} {z : Targets} {block : Block} {ids cited : List Str} {blocks : List Block}

theorem Block.Fresh.with_heading {t : Tokenizer τ} (h : block.Fresh t ids cited) (heading : Str) :
    Block.Fresh t ids cited { block with heading := heading } :=
  ⟨h.ne_nil,h.paragraphs,h.content,h.tokens,h.blockids,h.parts⟩

theorem applyPartSuffixes_fresh {t : Tokenizer τ} (isDigit : Char → Bool)
    (h : ∀ b ∈ blocks, b.Fresh t ids cited) :
    ∀ b ∈ applyPartSuffixes isDigit blocks, b.Fresh t ids cited := by
  intro b hb
  rw [applyPartSuffixes] at hb
  split at hb
  · exact h b hb
  · obtain ⟨i,hi,rfl⟩ := mem_mapIdx.mp hb
    exact (h _ (getElem_mem hi)).with_heading _

theorem applyPartSuffixes_ne_nil (isDigit : Char → Bool) (h : blocks ≠ []) :
    applyPartSuffixes isDigit blocks ≠ [] := by
  rw [applyPartSuffixes]
  split
  · exact h
  · simpa using h

theorem splitRow_fresh {headers : Str → Option Str} (hcap : 0 < z.targetMax)
    (hblock : block.Fresh e.tokenizer ids cited) (hids : dedupPreservingOrder cited = cited)
    (h : splitRow e z headers block = .ok blocks) :
    blocks ≠ [] ∧ ∀ b ∈ blocks, b.Fresh e.tokenizer ids cited := by
  obtain ⟨expanded,hexpanded,h⟩ := Results.bind_ok h
  obtain ⟨parts,hparts,h⟩ := Results.bind_ok h
  obtain rfl := ok.inj h
  obtain ⟨hne,hfresh⟩ := expandBlock_fresh hblock hids hexpanded
  have hsplit : ∀ b ∈ expanded, ∀ part, splitLongBlock e z.caps
      { b.frame with blockids := orElse b.blockids block.blockids } b.paragraphs b.tableChunkRole
      b.isTitleBlock = .ok part → part ≠ [] ∧ ∀ b ∈ part, b.Fresh e.tokenizer ids cited := by
    intro b hb part hpart
    have hb := hfresh b hb
    have hframe : dedupPreservingOrder (orElse b.blockids block.blockids) = cited := by
      rw [hb.blockids,hblock.blockids,orElse_self,hids]
    have hall := splitLongBlock_fresh hcap hframe hb.ne_nil hb.paragraphs hpart
    exact ⟨hall.1,hall.2.1⟩
  have hforall := Results.mapM_ok hparts
  refine ⟨applyPartSuffixes_ne_nil _ ?_,applyPartSuffixes_fresh _ ?_⟩
  · obtain ⟨b,hb⟩ := exists_mem_of_ne_nil _ hne
    obtain ⟨part,hpart,hin⟩ := exists_part_of_mem hforall hb
    obtain ⟨b',hb'⟩ := exists_mem_of_ne_nil _ (hsplit b hb part hpart).1
    exact ne_nil_of_mem (hin b' hb')
  · intro b hb
    obtain ⟨b',hb',part,hpart,hin⟩ := exists_of_mem_flatten hforall hb
    exact (hsplit b' hb' part hpart).2 b hin

end

section

variable {e : Env τ α} {z : Targets} {headers : Str → Option Str} {rows : List ContentRow}
  {row : ContentRow} {blocks : List Block} {block : Block}

theorem solid_split (content : Str) :
    ((Text.split '\n' content).map solid).flatten = solid content := by
  induction content with
  | nil => rfl
  | cons c cs ih =>
    rw [Text.split]
    split
    · next hnil =>
      rw [hnil] at ih
      rw [solid_cons,← ih]
      simp
    · next field fields hsplit =>
      rw [hsplit,map_cons,flatten_cons] at ih
      rw [solid_cons,← ih]
      split
      · next hc =>
        rw [hc,solid_newline]
        simp
      · rw [map_cons,flatten_cons,solid_cons c field,append_assoc]

theorem solid_paragraphs (id content : Str) :
    ((blockToParagraphs id content).flatMap fun p => solid p.text) = solid content := by
  rw [← solid_split content,blockToParagraphs,flatMap_map]
  generalize Text.split '\n' content = lines
  induction lines with
  | nil => rfl
  | cons line lines ih =>
    by_cases hblank : isBlank line = true
    · rw [filter_cons_of_neg (by simp [hblank]),ih,map_cons,flatten_cons,
        isBlank_iff.mp hblank,nil_append]
    · rw [filter_cons_of_pos (by simpa using hblank),flatMap_cons,ih,map_cons,flatten_cons]

theorem blockToParagraphs_ok (id content : Str) :
    ∀ p ∈ blockToParagraphs id content, p.Ok [id] := by
  intro p hp
  obtain ⟨line,hline,rfl⟩ := mem_map.mp hp
  exact ⟨by simpa using (mem_filter.mp hline).2,cons_ne_nil _ _,fun _ hrow => hrow⟩

def ContentRow.cited (row : ContentRow) : List Str := if row.id = [] then [] else [row.id]

theorem ContentRow.dedup_cited (row : ContentRow) : dedupPreservingOrder row.cited = row.cited := by
  rw [cited]
  split
  · rfl
  · next hid => exact dedup_of_nodup (nodup_singleton _) (by simpa using hid)

theorem ContentRow.cited_of_ne_nil (h : row.id ≠ []) : row.cited = [row.id] := if_neg h

theorem initialBlock_fresh {t : Tokenizer τ} (h : initialBlock t row = some block) :
    block.Fresh t [row.id] row.cited := by
  rw [initialBlock] at h
  split at h
  · exact nomatch h
  · dsimp only at h
    split at h
    · exact nomatch h
    · next hne =>
      obtain rfl := Option.some.inj h
      exact newBlock_fresh row.dedup_cited hne (blockToParagraphs_ok _ _)

theorem initialBlock_isSome {t : Tokenizer τ} (hrow : isBlank row.content = false) :
    ∃ b, initialBlock t row = some b := by
  have hne : blockToParagraphs row.id row.content ≠ [] := by
    intro hnil
    have hsolid := solid_paragraphs row.id row.content
    rw [hnil] at hsolid
    exact isBlank_eq_false.mp hrow hsolid.symm
  rw [initialBlock,if_neg (by simp [hrow])]
  rw [if_neg hne]
  exact ⟨_,rfl⟩

theorem splitRows_parts (hcap : 0 < z.targetMax) (h : splitRows e z headers rows = .ok blocks) :
    ∃ parts, List.Forall₂ (fun b part => ∃ row ∈ rows, initialBlock e.tokenizer row = some b ∧
        splitRow e z headers b = .ok part ∧ part ≠ [] ∧
        ∀ b' ∈ part, b'.Fresh e.tokenizer [row.id] row.cited)
      (rows.filterMap (initialBlock e.tokenizer)) parts ∧ blocks = parts.flatten := by
  obtain ⟨parts,hparts,h⟩ := Results.bind_ok h
  refine ⟨parts,?_,(ok.inj h).symm⟩
  have hsource : ∀ b ∈ rows.filterMap (initialBlock e.tokenizer),
      ∃ row ∈ rows, initialBlock e.tokenizer row = some b := fun b hb => mem_filterMap.mp hb
  apply ((List.forall₂_and_left _ _).mpr ⟨hsource,Results.mapM_ok hparts⟩).imp
  rintro b part ⟨⟨row,hrow,hsome⟩,hpart⟩
  exact ⟨row,hrow,hsome,hpart,splitRow_fresh hcap (initialBlock_fresh hsome) row.dedup_cited hpart⟩

end

end LightRAG.Chunking

/-!
## The rows a chunk cites

The sidecar of a chunk cites every row whose paragraphs were merged into it, except for the rows a
tail absorption took.
-/

namespace LightRAG.Chunking
open List Except

open Relation (ReflTransGen)

variable {τ α : Type}

section

variable {e : Env τ α} {z : Targets} {headers : Str → Option Str} {rows : List ContentRow}
  {row : ContentRow} {blocks : List Block} {block : Block} {content : Str}

def placeOf (rows : List ContentRow) (id : Str) : ℕ := (rows.map ContentRow.id).idxOf id

theorem rows_ascending (hids : (rows.map ContentRow.id).Nodup) :
    rows.Pairwise fun a b => placeOf rows a.id < placeOf rows b.id := by
  rw [pairwise_iff_getElem]
  intro i j hi hj hij
  have hplace : ∀ k (hk : k < rows.length), placeOf rows rows[k].id = k := by
    intro k hk
    have hk' : k < (rows.map ContentRow.id).length := by simpa using hk
    have hidx := hids.idxOf_getElem k hk'
    rwa [getElem_map] at hidx
  rw [hplace i hi,hplace j hj]
  exact hij

theorem splitRows_spec (hcap : 0 < z.targetMax) (hids : (rows.map ContentRow.id).Nodup)
    (hne : ∀ row ∈ rows, row.id ≠ []) (h : splitRows e z headers rows = .ok blocks) :
    (∀ b ∈ blocks, b.Whole e.tokenizer) ∧ InOrder (placeOf rows) blocks ∧
    ∀ row ∈ rows, isBlank row.content = false →
      ∃ p ∈ blocks.flatMap Block.paragraphs, row.id ∈ p.rows := by
  obtain ⟨parts,hparts,rfl⟩ := splitRows_parts hcap h
  have hcited : ∀ row ∈ rows, row.cited = [row.id] :=
    fun row hrow => ContentRow.cited_of_ne_nil (hne row hrow)
  have hinitial : InOrder (placeOf rows) (rows.filterMap (initialBlock e.tokenizer)) := by
    refine ⟨?_,?_,?_⟩
    · intro b hb
      obtain ⟨row,hrow,hsome⟩ := mem_filterMap.mp hb
      rw [(initialBlock_fresh hsome).blockids,hcited row hrow]
      exact ⟨nodup_singleton _,by simpa using hne row hrow⟩
    · intro b hb
      obtain ⟨row,hrow,hsome⟩ := mem_filterMap.mp hb
      rw [(initialBlock_fresh hsome).blockids,hcited row hrow]
      exact pairwise_singleton _ _
    · rw [pairwise_filterMap]
      refine (rows_ascending hids).imp_of_mem ?_
      intro a b ha hb hlt c hc d hd
      rw [(initialBlock_fresh hc).blockids,(initialBlock_fresh hd).blockids,hcited a ha,hcited b hb]
      intro y hy _ x hx
      rwa [mem_singleton.mp hy,mem_singleton.mp hx]
  refine ⟨?_,?_,?_⟩
  · intro b hb
    obtain ⟨_,_,part,hpart,hin⟩ := exists_of_mem_flatten hparts hb
    obtain ⟨row,hrow,_,_,_,hfresh⟩ := hpart
    have hb := hfresh b hin
    have hid := hcited row hrow
    rw [hid] at hb
    exact hb.whole (hid ▸ row.dedup_cited) (cons_ne_nil _ _)
  · apply hinitial.split
    apply hparts.imp
    rintro b part ⟨row,_,hsome,_,_,hfresh⟩ b' hb'
    rw [(hfresh b' hb').blockids,(initialBlock_fresh hsome).blockids]
  · intro row hrow hcontent
    obtain ⟨b,hb⟩ := initialBlock_isSome (t := e.tokenizer) hcontent
    obtain ⟨part,hpart,hin⟩ := exists_part_of_mem hparts (mem_filterMap.mpr ⟨row,hrow,hb⟩)
    obtain ⟨row',hrow',hrowb,_,hsome,hfresh⟩ := hpart
    obtain ⟨b',hb'⟩ := exists_mem_of_ne_nil _ hsome
    obtain ⟨p,hp⟩ := exists_mem_of_ne_nil _ (hfresh b' hb').ne_nil
    have hok := (hfresh b' hb').paragraphs p hp
    obtain ⟨id,hid⟩ := exists_mem_of_ne_nil _ hok.traced
    -- both rows have the block's id
    have hsame : [row.id] = [row'.id] := by
      rw [← hcited row hrow,← hcited row' hrow',← (initialBlock_fresh hb).blockids,
        ← (initialBlock_fresh hrowb).blockids]
    refine ⟨p,mem_flatMap.mpr ⟨b',hin b' hb',hp⟩,?_⟩
    rwa [singleton_inj.mp hsame,← mem_singleton.mp (hok.within id hid)]

theorem finalBlocks_spec (hcap : 0 < z.targetMax) (hids : (rows.map ContentRow.id).Nodup)
    (hne : ∀ row ∈ rows, row.id ≠ []) (h : finalBlocks e z headers rows = .ok blocks) :
    (∀ b ∈ blocks, b.Sound e.tokenizer ∧ b.Traced) ∧ InOrder (placeOf rows) blocks ∧
    ∀ row ∈ rows, isBlank row.content = false →
      ∃ b ∈ blocks, ∃ p ∈ b.paragraphs, row.id ∈ p.rows := by
  obtain ⟨split,hsplit,h⟩ := Results.bind_ok h
  obtain ⟨glued,hglue,h⟩ := Results.bind_ok h
  obtain rfl := ok.inj h
  obtain ⟨hsplitWhole,hsplitOrder,hparagraphs⟩ := splitRows_spec hcap hids hne hsplit
  obtain ⟨hwhole,horder,hcovers⟩ := glue_whole (c := z.caps) hcap hsplitWhole hsplitOrder hglue
  have hsteps := mergeSmallBlocks_steps e z glued
  refine ⟨?_,mergeSteps_inOrder hsteps horder,?_⟩
  · intro b hb
    exact ⟨mergeSteps_keep mergeable_sound hsteps (fun b hb => (hwhole b hb).sound) b hb,
      mergeSteps_keep mergeable_traced hsteps (fun b hb => (hwhole b hb).traced) b hb⟩
  · intro row hrow hcontent
    obtain ⟨p,hp,hid⟩ := hparagraphs row hrow hcontent
    obtain ⟨b,hb,q,hq,hid⟩ := hcovers p hp row.id hid
    have hin : q ∈ (mergeSmallBlocks e z glued).flatMap Block.paragraphs := by
      rw [mergeSteps_paragraphs hsteps]
      exact mem_flatMap.mpr ⟨b,hb,hq⟩
    obtain ⟨b',hb',hq⟩ := mem_flatMap.mp hin
    exact ⟨b',hb',q,hq,hid⟩

end

def Chunk.refs (c : Chunk) : List Str := (c.sidecar.map Sidecar.refs).getD []

/-- Every row with content is cited by a chunk, every chunk has a sidecar with distinct ids in
document order, and it cites every row a paragraph of its block comes from. -/
structure KeepsProvenance (rows : List ContentRow) (blocks : List Block) (chunks : List Chunk) :
    Prop where
  contributes : ∀ row ∈ rows, isBlank row.content = false → ∃ c ∈ chunks, row.id ∈ c.refs
  carried : ∀ c ∈ chunks, ∃ s, c.sidecar = some s ∧ s.refs.Nodup ∧ Ascending (placeOf rows) s.refs
  merged : ∀ c ∈ chunks, ∀ b, blocks[c.chunkOrderIndex]? = some b →
    ∀ p ∈ b.paragraphs, ∀ row ∈ p.rows, row ∈ c.refs

/-- Every row a tail absorption took also reached the block by a part that none took. -/
def Block.Recovered (b : Block) : Prop :=
  ∀ q ∈ b.parts, q.swallowed = true → ∀ row ∈ q.rows,
    ∃ q' ∈ b.parts, q'.swallowed = false ∧ row ∈ q'.ids

section

variable {e : Env τ α} {t : Tokenizer τ} {b : Block} {blocks : List Block} {c : Chunk}
  {rows : List ContentRow} {i : ℕ}

theorem Block.Traced.recovered_iff (h : b.Traced) :
    b.Recovered ↔ ∀ p ∈ b.paragraphs, ∀ row ∈ p.rows, row ∈ b.blockids := by
  constructor
  · intro hrec p hp row hrow
    have hin : row ∈ b.paragraphs.flatMap Paragraph.rows := mem_flatMap.mpr ⟨p,hp,hrow⟩
    rw [h.rows] at hin
    obtain ⟨q,hq,hrow⟩ := mem_flatMap.mp hin
    rw [h.ids]
    cases hswallowed : q.swallowed with
    | false => exact ⟨q,hq,hswallowed,h.within q hq row hrow⟩
    | true => exact hrec q hq hswallowed row hrow
  · intro hall q hq _ row hrow
    have hin : row ∈ b.parts.flatMap Part.rows := mem_flatMap.mpr ⟨q,hq,hrow⟩
    rw [← h.rows] at hin
    obtain ⟨p,hp,hrow⟩ := mem_flatMap.mp hin
    exact (h.ids row).mp (hall p hp row hrow)

theorem chunkOf_eq (h : b.Sound t) (i : ℕ) :
    chunkOf i b = some
      { tokens := b.tokens
        content := strip b.content
        chunkOrderIndex := i
        heading := some ⟨b.level, b.heading, b.parentHeadings⟩
        sidecar := b.blockids.head?.map fun id => ⟨id, b.blockids⟩ } := by
  have hsolid : strip b.content ≠ [] := by
    rw [Ne,strip_eq_nil,h.reads]
    intro hnil
    obtain ⟨p,hp⟩ := exists_mem_of_ne_nil _ h.ne_nil
    exact isBlank_eq_false.mp (h.notBlank p hp) (flatMap_eq_nil_iff.mp hnil p hp)
  rw [chunkOf,if_neg hsolid]

theorem chunkOf_sound (h : b.Sound t) (i : ℕ) :
    ∃ c, chunkOf i b = some c ∧ c.refs = b.blockids ∧ c.chunkOrderIndex = i ∧
      c.tokens = b.tokens ∧ c.content = strip b.content := by
  refine ⟨_,chunkOf_eq h i,?_,rfl,rfl,rfl⟩
  cases hids : b.blockids with
  | nil => simp [Chunk.refs]
  | cons id ids => simp [Chunk.refs]

theorem mem_chunksOf : c ∈ chunksOf blocks ↔ ∃ i b, blocks[i]? = some b ∧ chunkOf i b = some c := by
  rw [chunksOf,mem_filterMap]
  constructor
  · rintro ⟨_,hmem,rfl⟩
    obtain ⟨i,hi,hchunk⟩ := mem_mapIdx.mp hmem
    exact ⟨i,blocks[i],List.getElem?_eq_getElem hi,hchunk⟩
  · rintro ⟨i,b,hb,hchunk⟩
    obtain ⟨hi,rfl⟩ := List.getElem?_eq_some_iff.mp hb
    exact ⟨_,mem_mapIdx.mpr ⟨i,hi,hchunk⟩,rfl⟩

theorem sidecar_of_refs (h : c.refs ≠ []) : ∃ s, c.sidecar = some s ∧ s.refs = c.refs := by
  cases hsidecar : c.sidecar with
  | none =>
    rw [Chunk.refs,hsidecar] at h
    exact absurd rfl h
  | some s => exact ⟨s,rfl,by simp [Chunk.refs,hsidecar]⟩

theorem chunksOf_keepsProvenance (hok : ∀ b ∈ blocks, b.Sound t ∧ b.Traced)
    (horder : InOrder (placeOf rows) blocks)
    (hrows : ∀ row ∈ rows, isBlank row.content = false →
      ∃ b ∈ blocks, ∃ p ∈ b.paragraphs, row.id ∈ p.rows) :
    KeepsProvenance rows blocks (chunksOf blocks) ↔ ∀ b ∈ blocks, b.Recovered := by
  have hchunk : ∀ {i b}, blocks[i]? = some b →
      ∃ c ∈ chunksOf blocks, c.refs = b.blockids ∧ c.chunkOrderIndex = i := by
    intro i b hb
    obtain ⟨c,hc,hrefs,hindex,_⟩ := chunkOf_sound (hok b (mem_of_getElem? hb)).1 i
    exact ⟨c,mem_chunksOf.mpr ⟨i,b,hb,hc⟩,hrefs,hindex⟩
  have hblock : ∀ c ∈ chunksOf blocks, ∃ b, blocks[c.chunkOrderIndex]? = some b ∧
      c.refs = b.blockids := by
    intro c hc
    obtain ⟨i,b,hb,hsome⟩ := mem_chunksOf.mp hc
    obtain ⟨c',hc',hrefs,hindex,_⟩ := chunkOf_sound (hok b (mem_of_getElem? hb)).1 i
    obtain rfl := Option.some.inj (hsome.symm.trans hc')
    exact ⟨b,hindex ▸ hb,hrefs⟩
  constructor
  · intro hkeeps b hb
    rw [(hok b hb).2.recovered_iff]
    obtain ⟨i,hi⟩ := List.getElem?_of_mem hb
    obtain ⟨c,hc,hrefs,rfl⟩ := hchunk hi
    rw [← hrefs]
    exact hkeeps.merged c hc b hi
  · intro hrec
    have hcites : ∀ b ∈ blocks, ∀ p ∈ b.paragraphs, ∀ row ∈ p.rows, row ∈ b.blockids :=
      fun b hb => (hok b hb).2.recovered_iff.mp (hrec b hb)
    refine ⟨?_,?_,?_⟩
    · intro row hrow hcontent
      obtain ⟨b,hb,p,hp,hid⟩ := hrows row hrow hcontent
      obtain ⟨i,hi⟩ := List.getElem?_of_mem hb
      obtain ⟨c,hc,hrefs,_⟩ := hchunk hi
      exact ⟨c,hc,hrefs ▸ hcites b hb p hp row.id hid⟩
    · intro c hc
      obtain ⟨b,hi,hrefs⟩ := hblock c hc
      have hb := mem_of_getElem? hi
      obtain ⟨p,hp⟩ := exists_mem_of_ne_nil _ (hok b hb).1.ne_nil
      obtain ⟨row,hrow⟩ := exists_mem_of_ne_nil _ ((hok b hb).1.traced p hp)
      have hsome : c.refs ≠ [] := by
        rw [hrefs]
        exact ne_nil_of_mem (hcites b hb p hp row hrow)
      obtain ⟨s,hs,hsame⟩ := sidecar_of_refs hsome
      refine ⟨s,hs,?_,?_⟩
      · rw [hsame,hrefs]
        exact (horder.nodup b hb).1
      · rw [hsame,hrefs]
        exact horder.ascending b hb
    · intro c hc b hi
      obtain ⟨b',hi',hrefs⟩ := hblock c hc
      obtain rfl := Option.some.inj (hi.symm.trans hi')
      rw [hrefs]
      exact hcites b (mem_of_getElem? hi)

end

theorem Options.targetMax_pos (o : Options) : 0 < o.targets.targetMax :=
  Nat.lt_of_lt_of_le Nat.one_pos (Nat.le_max_right _ 1)

/-- A token for every character, and no table that `json` could read. -/
def plainEnv : Env Char Unit where
  tokenizer := ⟨fun s => s, fun s => s⟩
  json := ⟨fun _ => none, fun _ => [], fun _ _ => false⟩
  floats := Floats.exact
  isWord c := c.isAlphanum || c = '_'
  isDigit := Char.isDigit

def contentRow (id content heading : String) (level : ℤ) : ContentRow where
  content := content.toList
  heading := heading.toList
  parentHeadings := []
  level := level
  blockid := id.toList
  isTitleBlock := false

def longAndShort : List ContentRow :=
  [contentRow "a" "0123456789012345678901234567890" "" 1, contentRow "b" "xy" "" 1]

def shortRows : List ContentRow := [contentRow "a" "one" "" 1, contentRow "b" "two" "" 1]

end LightRAG.Chunking
