import LightRAG.Chunking.TokenCap

/-!
# What the chunks read

Without overlap, and as long as no table is cut behind a heading, the chunks read like the rows.
-/

namespace LightRAG.Chunking
open List Except

open Relation (ReflTransGen)

variable {τ α : Type}

theorem reading_eq {e : Env τ α} (ht : e.tokenizer.Additive) {c : Caps} (hzero : c.overlap = 0) :
    Reading e c (fun _ => False) Eq where
  compatible := compatible_eq
  characters hsolid := by
    rw [hzero]
    exact characterSplitText_whole ht hsolid
  tables hcut := hcut.elim

section

variable {e : Env τ α} {z : Targets} {headers : Str → Option Str} {block : Block}
  {blocks part : List Block} {rows : List ContentRow} {row : ContentRow} {ids cited : List Str}

theorem solid_sound {t : Tokenizer τ} (h : ∀ b ∈ blocks, b.Sound t) :
    solidBlocks blocks = solidParagraphs (blocks.flatMap Block.paragraphs) := by
  rw [solidParagraphs,flatMap_assoc]
  exact flatMap_congr fun b hb => (h b hb).reads

theorem solid_applyPartSuffixes (isDigit : Char → Bool) (blocks : List Block) :
    solidBlocks (applyPartSuffixes isDigit blocks) = solidBlocks blocks := by
  have hflat : ∀ bs : List Block, solidBlocks bs = (bs.map fun b => solid b.content).flatten :=
    fun bs => flatMap_def
  rw [applyPartSuffixes]
  split
  · rfl
  · rw [hflat]
    congr 1
    apply map_mapIdx (h := fun b : Block => solid b.content)
    intro i b
    rfl

theorem solidBlocks_flatten {β : Type} {f : β → Str} {xs : List β} {parts : List (List Block)}
    (h : List.Forall₂ (fun x part => solidBlocks part = f x) xs parts) :
    solidBlocks parts.flatten = xs.flatMap f := by
  induction h with
  | nil => rfl
  | cons hpart _ ih => rw [flatten_cons,solidBlocks_append,flatMap_cons,hpart,ih]

theorem initialBlock_paragraphs {t : Tokenizer τ} (h : initialBlock t row = some block) :
    block.paragraphs = blockToParagraphs row.id row.content := by
  rw [initialBlock] at h
  split at h
  · cases h
  · dsimp only at h
    split at h
    · cases h
    · rw [← Option.some.inj h]
      rfl

theorem initialBlocks_reads (t : Tokenizer τ) (rows : List ContentRow) :
    ((rows.filterMap (initialBlock t)).flatMap fun b => solidParagraphs b.paragraphs) =
      rows.flatMap fun row => solid row.content := by
  induction rows with
  | nil => rfl
  | cons row rows ih =>
    rw [filterMap_cons,flatMap_cons]
    split
    · next hnone =>
      have hblank : isBlank row.content = true := by
        by_contra hsolid
        obtain ⟨b,hb⟩ := initialBlock_isSome (t := t) (by simpa using hsolid)
        exact nomatch hnone.symm.trans hb
      rw [ih,isBlank_iff.mp hblank,nil_append]
    · next b hsome =>
      rw [flatMap_cons,initialBlock_paragraphs hsome]
      congr 1
      exact solid_paragraphs row.id row.content

/-- No paragraph of the row is a table over `table_max`. -/
def SmallTables (e : Env τ α) (z : Targets) (row : ContentRow) : Prop :=
  ∀ p ∈ blockToParagraphs row.id row.content, isOversizedTable e z p = false

instance (e : Env τ α) (z : Targets) (row : ContentRow) : Decidable (SmallTables e z row) :=
  inferInstanceAs (Decidable (∀ p ∈ blockToParagraphs row.id row.content,
    isOversizedTable e z p = false))

theorem expandBlock_keeps (h : ∀ p ∈ block.paragraphs, isOversizedTable e z p = false)
    (hexpand : expandBlockWithTableSplits e z block headers = .ok blocks) : blocks = [block] := by
  rw [expandBlockWithTableSplits,if_neg (by simpa using h)] at hexpand
  exact (ok.inj hexpand).symm

theorem not_isCutTable {p : Paragraph} (hmax : z.tableMax ≤ z.targetMax)
    (h : isOversizedTable e z p = false) : ¬IsCutTable e z.caps p := by
  rintro ⟨htable,hover⟩
  simp only [isOversizedTable,htable,Bool.true_and,decide_eq_false_iff_not] at h
  simp only [Targets.caps] at hover
  omega

variable (ht : e.tokenizer.Additive) (hcap : 0 < z.targetMax) (hmax : z.tableMax ≤ z.targetMax)
  (hzero : z.overlap = 0)

include ht hcap hmax hzero

theorem splitRow_reads (hblock : block.Fresh e.tokenizer ids cited)
    (hsmall : ∀ p ∈ block.paragraphs, isOversizedTable e z p = false)
    (h : splitRow e z headers block = .ok blocks) :
    solidBlocks blocks = solidParagraphs block.paragraphs := by
  obtain ⟨expanded,hexpanded,h⟩ := Results.bind_ok h
  obtain rfl := expandBlock_keeps hsmall hexpanded
  obtain ⟨parts,hparts,h⟩ := Results.bind_ok h
  obtain rfl := ok.inj h
  rw [solid_applyPartSuffixes]
  cases Results.mapM_ok hparts with
  | cons hpart hnil =>
    cases hnil
    rw [flatten_singleton]
    exact splitLongBlock_reads (c := z.caps) (reading_eq ht hzero) hcap hblock.ne_nil
      hblock.paragraphs (fun p hp => not_isCutTable hmax (hsmall p hp)) hpart

theorem splitRows_reads (hsmall : ∀ row ∈ rows, SmallTables e z row)
    (h : splitRows e z headers rows = .ok blocks) :
    solidBlocks blocks = rows.flatMap fun row => solid row.content := by
  obtain ⟨parts,hparts,h⟩ := Results.bind_ok h
  obtain rfl := ok.inj h
  rw [← initialBlocks_reads e.tokenizer rows]
  apply solidBlocks_flatten
  have hsource : ∀ b ∈ rows.filterMap (initialBlock e.tokenizer),
      ∃ row ∈ rows, initialBlock e.tokenizer row = some b := fun b hb => mem_filterMap.mp hb
  apply ((List.forall₂_and_left _ _).mpr ⟨hsource,Results.mapM_ok hparts⟩).imp
  rintro b part ⟨⟨row,hrow,hsome⟩,hpart⟩
  refine splitRow_reads ht hcap hmax hzero (initialBlock_fresh hsome) ?_ hpart
  rw [initialBlock_paragraphs hsome]
  exact hsmall row hrow

end

def KeepsTables (e : Env τ α) (c : Caps) (block : Block) : Prop :=
  keepsPrefix e c block.paragraphs = true → ∀ first rest,
    splitLongBlock e c block.frame (bodyOf block.paragraphs) block.tableChunkRole false =
      .ok (first :: rest) →
    c.targetMax < prefixTokens e block.paragraphs + first.tokens →
    ∀ p ∈ first.paragraphs, ¬IsCutTable e (reducedCaps e c block.paragraphs) p

section

variable {e : Env τ α} (ht : e.tokenizer.Additive) {c : Caps} (hcap : 0 < c.targetMax)
  (hzero : c.overlap = 0) {block first : Block} {blocks part glued : List Block}
  {ids cited : List Str}

theorem solid_rebuilt :
    solid (rebuilt e block first).content =
      solidParagraphs (headingPrefix block.paragraphs) ++ solidParagraphs first.paragraphs := by
  rw [rebuilt,solid_newBlock,solidParagraphs_append]

include ht hcap hzero

theorem splitToCap_reads (hne : block.paragraphs ≠ []) (hok : ∀ p ∈ block.paragraphs, p.Ok ids)
    (hfits : ∀ p ∈ block.paragraphs, ¬IsCutTable e c p) (hkeeps : KeepsTables e c block)
    (h : splitToCap e c block = .ok part) :
    solidBlocks part = solidParagraphs block.paragraphs := by
  rw [splitToCap] at h
  split at h
  · next hlines =>
    have hbody := (prefixTokens_lt hlines).2.1
    have hokBody : ∀ p ∈ bodyOf block.paragraphs, p.Ok ids := fun p hp => hok p (mem_of_mem_body hp)
    obtain ⟨pieces,hpieces,h⟩ := Results.bind_ok h
    obtain ⟨hsome,hfresh,_⟩ := splitLongBlock_fresh hcap rfl hbody hokBody hpieces
    have hread := splitLongBlock_reads (reading_eq ht hzero) hcap hbody hokBody
      (fun p hp => hfits p (mem_of_mem_body hp)) hpieces
    cases pieces with
    | nil => exact absurd rfl hsome
    | cons first rest =>
      have hfirst := hfresh first mem_cons_self
      have hall : solidParagraphs block.paragraphs =
          solidParagraphs (headingPrefix block.paragraphs) ++ (solidParagraphs first.paragraphs ++ solidBlocks rest) := by
        rw [solidBlocks_cons,hfirst.sound.reads] at hread
        conv_lhs => rw [← heading_append_body block.paragraphs]
        rw [solidParagraphs_append,← hread]
        rfl
      rw [hall]
      dsimp only at h
      split at h
      · next hover =>
        obtain ⟨again,hagain,h⟩ := Results.bind_ok h
        have hread' := splitLongBlock_reads (reading_eq ht (c := reducedCaps e c block.paragraphs)
          hzero) reducedMax_pos hfirst.ne_nil hfirst.paragraphs
          (hkeeps hlines first rest hpieces hover) hagain
        cases again with
        | nil => exact absurd rfl (splitLongBlock_fresh reducedMax_pos rfl hfirst.ne_nil
            hfirst.paragraphs hagain).1
        | cons first' more =>
          obtain rfl := ok.inj h
          have hfirst' := (splitLongBlock_fresh reducedMax_pos rfl hfirst.ne_nil
            hfirst.paragraphs hagain).2.1 first' mem_cons_self
          rw [solidBlocks_cons,hfirst'.sound.reads] at hread'
          rw [solidBlocks_cons,solidBlocks_append,solid_rebuilt,← hread',append_assoc,append_assoc]
          rfl
      · obtain rfl := ok.inj h
        rw [solidBlocks_cons,solid_rebuilt,append_assoc]
  · exact splitLongBlock_reads (reading_eq ht hzero) hcap hne hok hfits h

theorem emit_reads {glued : Bool} (hsound : block.Sound e.tokenizer)
    (hfits : ∀ p ∈ block.paragraphs, ¬IsCutTable e c p) (hkeeps : KeepsTables e c block)
    (h : emit e c glued block = .ok part) :
    solidBlocks part = solidParagraphs block.paragraphs := by
  rw [emit] at h
  split at h
  · exact splitToCap_reads ht hcap hzero hsound.ne_nil hsound.paragraphs_ok hfits hkeeps h
  · obtain rfl := ok.inj h
    rw [solidBlocks_cons,hsound.reads]
    exact append_nil _

omit hcap hzero in
theorem paragraph_le (hsound : block.Sound e.tokenizer) (hjoined : block.Joined)
    (hle : block.tokens ≤ c.targetMax) : ∀ p ∈ block.paragraphs, ¬IsCutTable e c p := by
  intro p hp hcut
  have hsub : p.text.Sublist (joinParagraphs block.paragraphs) :=
    sublist_joinLines (mem_map_of_mem hp)
  have hlen := ht.sublist (hsub.trans hjoined)
  have hover := hcut.2
  rw [hsound.tokens,ht.countTokens_eq] at hle
  rw [ht.countTokens_eq] at hover
  omega

theorem glue_reads (hblocks : ∀ b ∈ blocks, b.Sound e.tokenizer ∧ b.Joined ∧ b.tokens ≤ c.targetMax)
    (hkeeps : ∀ g ∈ groupsOf e blocks, KeepsTables e c g.1)
    (h : glueHeadingOnlyBlocks e c blocks = .ok glued) :
    solidBlocks glued = solidBlocks blocks := by
  obtain ⟨parts,hparts,rfl⟩ := glue_emits h
  have hsound := groupsOf_sound fun b hb => (hblocks b hb).1
  have hparagraphs := mergeSteps_paragraphs (groupsOf_steps (e := e) blocks)
  rw [flatMap_map] at hparagraphs
  have hfits : ∀ g ∈ groupsOf e blocks, ∀ p ∈ g.1.paragraphs, ¬IsCutTable e c p := by
    intro g hg p hp
    have hin : p ∈ blocks.flatMap Block.paragraphs := by
      rw [← hparagraphs]
      exact mem_flatMap.mpr ⟨g,hg,hp⟩
    obtain ⟨b,hb,hp⟩ := mem_flatMap.mp hin
    obtain ⟨hs,hj,hle⟩ := hblocks b hb
    exact paragraph_le ht hs hj hle p hp
  have hreads : List.Forall₂ (fun g part => solidBlocks part = solidParagraphs g.1.paragraphs)
      (groupsOf e blocks) parts := by
    have hall : ∀ g ∈ groupsOf e blocks, g.1.Sound e.tokenizer ∧
        (∀ p ∈ g.1.paragraphs, ¬IsCutTable e c p) ∧ KeepsTables e c g.1 :=
      fun g hg => ⟨hsound g hg,hfits g hg,hkeeps g hg⟩
    apply ((List.forall₂_and_left _ _).mpr ⟨hall,hparts⟩).imp
    rintro g part ⟨⟨hs,hf,hk⟩,hemit⟩
    exact emit_reads ht hcap hzero hs hf hk hemit
  rw [solidBlocks_flatten hreads,solid_sound fun b hb => (hblocks b hb).1,← hparagraphs,
    solidParagraphs,flatMap_assoc]
  rfl

end

section

variable {t : Tokenizer τ} {blocks : List Block}

def solidChunks (chunks : List Chunk) : Str := chunks.flatMap fun c => solid c.content

theorem mapIdx_order {β γ : Type} {f : ℕ → β → γ} {index : γ → ℕ} (h : ∀ i x, index (f i x) = i)
    (xs : List β) : (xs.mapIdx f).map index = List.range (xs.mapIdx f).length := by
  apply ext_getElem
  · simp
  · simp [h]

theorem chunksOf_eq (h : ∀ b ∈ blocks, b.Sound t) :
    solidChunks (chunksOf blocks) = solidBlocks blocks ∧
    (chunksOf blocks).map Chunk.chunkOrderIndex = List.range (chunksOf blocks).length := by
  let chunk (i : ℕ) (b : Block) : Chunk :=
    { tokens := b.tokens
      content := strip b.content
      chunkOrderIndex := i
      heading := some ⟨b.level,b.heading,b.parentHeadings⟩
      sidecar := b.blockids.head?.map fun id => ⟨id,b.blockids⟩ }
  have hsome : blocks.mapIdx chunkOf = (blocks.mapIdx chunk).map some := by
    apply ext_getElem
    · simp
    · intro i hi _
      have hi : i < blocks.length := by simpa using hi
      simp only [getElem_mapIdx,getElem_map]
      exact chunkOf_eq (h _ (getElem_mem hi)) i
  have heq : chunksOf blocks = blocks.mapIdx chunk := by
    rw [chunksOf,hsome,filterMap_map]
    exact filterMap_some
  rw [heq]
  refine ⟨?_,mapIdx_order (fun _ _ => rfl) blocks⟩
  rw [solidChunks,solidBlocks,flatMap_def]
  congr 1
  exact map_mapIdx (fun _ b => solid_strip b.content) blocks

theorem textChunks_order {content : Str} {size overlap : ℕ} {separators : List Str} :
    ((chunkingByRecursiveCharacter t content size overlap separators).map
      TextChunk.chunkOrderIndex) = List.range
        (chunkingByRecursiveCharacter t content size overlap separators).length := by
  rw [chunkingByRecursiveCharacter]
  split
  · rfl
  · dsimp only
    split
    · rfl
    · exact mapIdx_order (fun _ _ => rfl) _

end

/-- The chunks read like the rows, or without rows like the text, and are numbered without gaps, as
long as no table behind a heading is over the cap left for it. -/
theorem chunks_read (e : Env τ α) (o : Options) (headers : Str → Option Str) (content : Str)
    (rows : List ContentRow) (ht : e.tokenizer.Additive)
    (hchar : ∀ ch, e.tokenizer.length [ch] ≤ o.targets.targetMax)
    (hoverlap : o.chunkOverlapTokenSize = 0) (hrefs : o.references = none)
    (hsmall : ∀ row ∈ rows, SmallTables e o.targets row)
    (hkeeps : ∀ blocks, splitRows e o.targets headers rows = .ok blocks →
      ∀ g ∈ groupsOf e blocks, KeepsTables e o.targets.caps g.1) {chunks : List Chunk}
    (h : chunkingByParagraphSemantic e o headers content rows = .ok chunks) :
    solidChunks chunks =
      (if rows = [] then solid content else rows.flatMap fun row => solid row.content) ∧
    chunks.map Chunk.chunkOrderIndex = List.range chunks.length := by
  have hzero : o.targets.overlap = 0 := by
    simp [Options.targets,boundedOverlap,hoverlap]
  have hmax : o.targets.tableMax ≤ o.targets.targetMax := by
    simp only [Options.targets]
    omega
  rw [chunkingByParagraphSemantic] at h
  split at h
  · next hrows =>
    obtain rfl := ok.inj h
    rw [if_pos hrows,hzero]
    refine ⟨?_,?_⟩
    · rw [solidChunks,flatMap_map]
      by_cases hblank : isBlank content = true
      · rw [chunkingByRecursiveCharacter,if_pos hblank,isBlank_iff.mp hblank]
        rfl
      · have hread := chunking_whole ht o.targets.targetMax (by simpa using hblank)
          (show defaultSeparators ≠ [] by decide)
        rw [solidTexts,flatMap_map] at hread
        exact hread
    · rw [map_map,length_map]
      exact textChunks_order
  · next hrows =>
    rw [hrefs] at h
    obtain ⟨final,hfinal,h⟩ := Results.bind_ok h
    obtain rfl := ok.inj h
    obtain ⟨blocks,hblocks,hfinal⟩ := Results.bind_ok hfinal
    obtain ⟨glued,hglue,hfinal⟩ := Results.bind_ok hfinal
    obtain rfl := ok.inj hfinal
    have hsplit := splitRows_le ht o.targetMax_pos hchar hblocks
    have hsteps := mergeSmallBlocks_steps e o.targets glued
    have hsound := glue_sound (c := o.targets.caps) o.targetMax_pos (fun b hb => (hsplit b hb).1)
      hglue
    have hfinal := mergeSteps_keep mergeable_sound hsteps hsound
    obtain ⟨hread,horder⟩ := chunksOf_eq hfinal
    refine ⟨?_,horder⟩
    rw [if_neg hrows]
    calc solidChunks (chunksOf (mergeSmallBlocks e o.targets glued))
        = solidBlocks (mergeSmallBlocks e o.targets glued) := hread
      _ = solidBlocks glued := by
          rw [solid_sound hfinal,solid_sound hsound,mergeSteps_paragraphs hsteps]
      _ = solidBlocks blocks := glue_reads ht (c := o.targets.caps) o.targetMax_pos hzero hsplit
          (hkeeps blocks hblocks) hglue
      _ = rows.flatMap fun row => solid row.content :=
          splitRows_reads ht o.targetMax_pos hmax hzero hsmall hblocks

theorem plainEnv_additive : plainEnv.tokenizer.Additive where
  append _ _ := length_append
  pos _ hs := length_pos_of_ne_nil hs

theorem plainEnv_char (o : Options) (ch : Char) :
    plainEnv.tokenizer.length [ch] ≤ o.targets.targetMax := o.targetMax_pos

theorem chunks_read_shortRows :
    ∃ chunks, chunkingByParagraphSemantic plainEnv ⟨40, 0, none⟩ (fun _ => none) [] shortRows =
        .ok chunks ∧
      solidChunks chunks = (if shortRows = [] then solid [] else
        shortRows.flatMap fun row => solid row.content) ∧
      chunks.map Chunk.chunkOrderIndex = List.range chunks.length := by
  refine ⟨_,rfl,chunks_read plainEnv ⟨40,0,none⟩ (fun _ => none) [] shortRows plainEnv_additive
    (plainEnv_char _) rfl rfl (by decide) ?_ rfl⟩
  intro blocks hblocks g hg hlines
  have hnone : ∀ g ∈ groupsOf plainEnv ((splitRows plainEnv (Options.targets ⟨40,0,none⟩)
      (fun _ => none) shortRows).toOption.getD []),
      keepsPrefix plainEnv (Options.targets ⟨40,0,none⟩).caps g.1.paragraphs = false := by
    decide
  rw [hblocks] at hnone
  rw [hnone g hg] at hlines
  exact nomatch hlines

def headingAndTable : List ContentRow :=
  [contentRow "a" "# AAAAAAAAAAAAAAAAAAAAAAAAAA" "A" 1,
    contentRow "b" "<table a><tr>x</tr><tr>y</tr></table>" "" 2]

theorem table_behind_heading_is_cut :
    plainEnv.tokenizer.Additive ∧
      (∀ ch, plainEnv.tokenizer.length [ch] ≤ (Options.targets ⟨64, 0, none⟩).targetMax) ∧
      (∀ row ∈ headingAndTable, SmallTables plainEnv (Options.targets ⟨64, 0, none⟩) row) ∧
      ∃ chunks,
        chunkingByParagraphSemantic plainEnv ⟨64, 0, none⟩ (fun _ => none) [] headingAndTable =
          .ok chunks ∧
        solidChunks chunks ≠ headingAndTable.flatMap fun row => solid row.content :=
  ⟨plainEnv_additive,plainEnv_char _,by decide,_,rfl,by decide +kernel⟩

end LightRAG.Chunking
