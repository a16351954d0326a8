import LightRAG.Chunking.HeadingGlueFacts

/-!
# What a split keeps of the text

The blocks of a split are within the cap or are one character long, and they read like the
paragraphs they are made of.
-/

namespace LightRAG.Chunking
open List

variable {τ α : Type}

def solidParagraphs (paragraphs : List Paragraph) : Str := paragraphs.flatMap fun p => solid p.text

def solidBlocks (blocks : List Block) : Str := blocks.flatMap fun b => solid b.content

section

variable {e : Env τ α} {c : Caps} {ids : List Str} {paragraphs : List Paragraph} {p : Paragraph}
  {pieces group out : List Piece} {blocks : List Block} {frame : Frame} {role : Role} {title : Bool}

theorem solidBlocks_append (xs ys : List Block) :
    solidBlocks (xs ++ ys) = solidBlocks xs ++ solidBlocks ys := flatMap_append

theorem solidBlocks_cons (b : Block) (blocks : List Block) :
    solidBlocks (b :: blocks) = solid b.content ++ solidBlocks blocks := flatMap_cons

theorem solidParagraphs_append (ps qs : List Paragraph) :
    solidParagraphs (ps ++ qs) = solidParagraphs ps ++ solidParagraphs qs := flatMap_append

theorem solid_newBlock (t : Tokenizer τ) (frame : Frame) (paragraphs : List Paragraph) (role : Role)
    (title : Bool) :
    solid (newBlock t frame paragraphs role title).content = solidParagraphs paragraphs :=
  solid_joinParagraphs paragraphs

theorem pieceBlocks_content {b : Block} (h : b ∈ pieceBlocks e frame role title pieces) :
    ∃ q ∈ pieces, b.content = q.text := by
  obtain ⟨q,hq,_,_,rfl⟩ := mem_pieceBlocks h
  exact ⟨q,hq,joinLines_singleton q.text⟩

theorem splitLongBlock_le (ht : e.tokenizer.Additive) (hcap : 0 < c.targetMax)
    (hne : paragraphs ≠ []) (hok : ∀ p ∈ paragraphs, p.Ok ids)
    (h : splitLongBlock e c frame paragraphs role title = .ok blocks) :
    ∀ b ∈ blocks, e.tokenizer.length b.content ≤ c.targetMax ∨ ∃ ch, b.content = [ch] := by
  revert hne hok
  refine splitLongBlock_induction (motive := fun paragraphs blocks => paragraphs ≠ [] →
    (∀ p ∈ paragraphs, p.Ok ids) → ∀ b ∈ blocks,
      e.tokenizer.length b.content ≤ c.targetMax ∨ ∃ ch, b.content = [ch]) hcap ?_ ?_ ?_ rfl h
  · intro frame paragraphs role title _ hfits _ _ b hb
    rw [ht.countTokens_eq] at hfits
    rw [mem_singleton.mp hb]
    exact .inl hfits
  · intro frame paragraphs role title blocks _ _ h hne hok b hb
    obtain ⟨pieces,_,rfl⟩ := splitWithoutAnchors_blocks hne hok h
    obtain ⟨q,hq,hcontent⟩ := pieceBlocks_content hb
    rw [hcontent]
    exact packPieces_le ht hcap ht.nil.symm (Nat.zero_le _) hq
  · intro pss parts hpss hparts _ hok b hb
    obtain ⟨ps,hps,part,hpart,hin⟩ := exists_of_mem_flatten hparts hb
    exact hpart (hpss ps hps) (fun p hp => hok p (mem_flatten_of_mem hps hp)) b hin

theorem solid_pieceBlocks (frame : Frame) (role : Role) (title : Bool) (pieces : List Piece) :
    solidBlocks (pieceBlocks e frame role title pieces) = solidTexts (pieces.map Piece.text) := by
  have hcontent : (pieceBlocks e frame role title pieces).map Block.content =
      pieces.map Piece.text := map_mapIdx (fun _ q => joinLines_singleton q.text) pieces
  rw [solidTexts,← hcontent,flatMap_map]
  rfl

/-- How the text of a split relates to the text before: by `r` where characters are cut, and where
one of the tables `cut` allows for is. -/
structure Reading (e : Env τ α) (c : Caps) (cut : Paragraph → Prop) (r : Str → Str → Prop) :
    Prop where
  compatible : Compatible r
  characters : ∀ {text}, isBlank text = false →
    r (solidTexts (characterSplitText e.tokenizer text c.targetMax c.overlap)) (solid text)
  tables : ∀ {p texts}, cut p → isBlank p.text = false → TableOutcome e p.text c.targetMax texts →
    r (solidTexts texts) (solid p.text)

variable {cut : Paragraph → Prop} {r : Str → Str → Prop} (hr : Reading e c cut r)

include hr

theorem PackGroup.reads (h : PackGroup e c group out)
    (hgroup : ∀ q ∈ group, isBlank q.text = false) :
    r (solidTexts (out.map Piece.text)) (solidTexts (group.map Piece.text)) := by
  cases h with
  | joined _ _ =>
    have hjoin : solidTexts [(joinPieces group).text] = solidTexts (group.map Piece.text) := by
      rw [solidTexts,flatMap_singleton,joinPieces,solid_joinLines]
      rfl
    exact hjoin ▸ hr.compatible.refl _
  | cut p =>
    have hcut := hr.characters (hgroup p mem_cons_self)
    have htexts : (cutPiece e c p).map Piece.text =
        characterSplitText e.tokenizer p.text c.targetMax c.overlap := by
      rw [cutPiece,map_map]
      exact map_id _
    have hone : solidTexts [p.text] = solid p.text := flatMap_singleton ..
    rw [htexts,map_singleton,hone]
    exact hcut

theorem PieceOutcome.reads {part : List Piece} (h : PieceOutcome e c p part)
    (hp : isBlank p.text = false) (hcut : IsCutTable e c p → cut p) :
    r (solidTexts (part.map Piece.text)) (solid p.text) := by
  rcases h with ⟨_,rfl⟩ | ⟨hover,texts,htexts,rfl⟩
  · rw [map_singleton,solidTexts,flatMap_singleton]
    exact hr.compatible.refl _
  · rw [map_map]
    have hread := hr.tables (hcut hover) hp htexts
    rwa [show (Piece.text ∘ fun text => (⟨text,p.rows⟩ : Piece)) = id from rfl,map_id]

theorem packed_reads (hok : ∀ p ∈ paragraphs, p.Ok ids)
    (hcut : ∀ p ∈ paragraphs, IsCutTable e c p → cut p)
    (h : piecesOf e c paragraphs = .ok pieces) :
    r (solidTexts ((packPieces e c [] 0 pieces).map Piece.text)) (solidParagraphs paragraphs) := by
  obtain ⟨parts,hparts,rfl⟩ := piecesOf_outcome h
  obtain ⟨groups,outs,hflat,hgroups,hout⟩ := packPieces_groups e c [] 0 parts.flatten
  rw [nil_append] at hflat
  have hnot : ∀ q ∈ parts.flatten, isBlank q.text = false := by
    intro q hq
    obtain ⟨p,hp,part,hpart,hin⟩ := exists_of_mem_flatten hparts hq
    exact ((hpart.spec (hok p hp).notBlank).2 q hin).1
  have hpieces : r (solidTexts (parts.flatten.map Piece.text)) (solidParagraphs paragraphs) := by
    clear hflat hgroups hout hnot h
    induction hparts with
    | nil => exact hr.compatible.refl _
    | @cons p part paragraphs parts hpart _ ih =>
      rw [flatten_cons,map_append,solidTexts,flatMap_append]
      apply hr.compatible.append
      · exact hpart.reads hr (hok p mem_cons_self).notBlank (hcut p mem_cons_self)
      · exact ih (fun q hq => hok q (mem_cons_of_mem p hq))
          fun q hq => hcut q (mem_cons_of_mem p hq)
  have hpacked : r (solidTexts (outs.flatten.map Piece.text))
      (solidTexts (groups.flatten.map Piece.text)) := by
    rw [← hflat] at hnot
    clear hflat hout hpieces
    induction hgroups with
    | nil => exact hr.compatible.refl _
    | @cons group out groups outs hgroup _ ih =>
      rw [flatten_cons,flatten_cons,map_append,map_append,solidTexts,
        solidTexts,flatMap_append,flatMap_append]
      apply hr.compatible.append
      · exact hgroup.reads hr fun q hq => hnot q (by simp [hq])
      · exact ih fun q hq => hnot q (by rw [flatten_cons]; exact mem_append_right _ hq)
  rw [hout]
  rw [hflat] at hpacked
  exact hr.compatible.trans hpacked hpieces

theorem splitLongBlock_reads (hcap : 0 < c.targetMax) (hne : paragraphs ≠ [])
    (hok : ∀ p ∈ paragraphs, p.Ok ids) (hcut : ∀ p ∈ paragraphs, IsCutTable e c p → cut p)
    (h : splitLongBlock e c frame paragraphs role title = .ok blocks) :
    r (solidBlocks blocks) (solidParagraphs paragraphs) := by
  revert hne hok hcut
  refine splitLongBlock_induction (motive := fun paragraphs blocks => paragraphs ≠ [] →
    (∀ p ∈ paragraphs, p.Ok ids) → (∀ p ∈ paragraphs, IsCutTable e c p → cut p) →
      r (solidBlocks blocks) (solidParagraphs paragraphs)) hcap ?_ ?_ ?_ rfl h
  · intro frame paragraphs role title _ _ _ _ _
    rw [solidBlocks,flatMap_singleton,solid_newBlock]
    exact hr.compatible.refl _
  · intro frame paragraphs role title blocks _ _ h hne hok hcut
    obtain ⟨pieces,hpieces,rfl⟩ := splitWithoutAnchors_blocks hne hok h
    rw [solid_pieceBlocks]
    exact packed_reads hr hok hcut hpieces
  · intro pss parts hpss hparts hne hok hcut
    clear h hne
    induction hparts with
    | nil => exact hr.compatible.refl _
    | @cons ps part pss parts hpart _ ih =>
      rw [flatten_cons,flatten_cons,solidBlocks_append,solidParagraphs_append]
      apply hr.compatible.append
      · exact hpart (hpss ps mem_cons_self) (fun p hp => hok p (mem_append_left _ hp))
          fun p hp => hcut p (mem_append_left _ hp)
      · exact ih (fun qs hqs => hpss qs (mem_cons_of_mem ps hqs))
          (fun p hp => hok p (mem_append_right _ hp))
          fun p hp => hcut p (mem_append_right _ hp)

end

end LightRAG.Chunking

/-!
## The room a heading leaves

The heading lines of a glued group stay whole in front of the first piece of its body.
-/

namespace LightRAG.Chunking
open List Except

open Relation (ReflTransGen)

variable {τ α : Type}

/-- The heading lines in front of a body leave room for its first character. -/
def HasRoom (e : Env τ α) (c : Caps) (paragraphs : List Paragraph) : Prop :=
  keepsPrefix e c paragraphs = true →
    ∀ ch, (solidParagraphs (bodyOf paragraphs)).head? = some ch →
      prefixTokens e paragraphs + e.tokenizer.length [ch] ≤ c.targetMax

theorem reading_sameHead {e : Env τ α} (ht : e.tokenizer.Additive) (c : Caps) :
    Reading e c (fun _ => True) SameHead where
  compatible := compatible_sameHead
  characters hsolid := characterSplitText_head ht hsolid
  tables _ hsolid htexts := htexts.head hsolid ht

theorem prefixTokens_lt {e : Env τ α} {c : Caps} {paragraphs : List Paragraph}
    (h : keepsPrefix e c paragraphs = true) :
    headingPrefix paragraphs ≠ [] ∧ bodyOf paragraphs ≠ [] ∧
      prefixTokens e paragraphs < c.targetMax := by
  simpa [keepsPrefix,and_assoc] using h

/-- The content of a block holds its paragraphs, with a line break at least between them. -/
def Block.Joined (b : Block) : Prop := (joinParagraphs b.paragraphs).Sublist b.content

section

variable {e : Env τ α} {b left right cur : Block} {run : List Block}

theorem joined_append {ps qs : List Paragraph} {a b : Str} (ha : (joinParagraphs ps).Sublist a)
    (hb : (joinParagraphs qs).Sublist b) :
    (joinParagraphs (ps ++ qs)).Sublist (a ++ '\n' :: '\n' :: b) := by
  by_cases hps : ps = []
  · rw [hps]
    exact ((hb.cons '\n').cons '\n').trans (sublist_append_right _ _)
  · by_cases hqs : qs = []
    · rw [hqs,append_nil]
      exact ha.trans (sublist_append_left _ _)
    · rw [joinParagraphs,map_append,joinLines_append (by simpa using hps) (by simpa using hqs)]
      exact ha.append ((hb.cons '\n').cons_cons '\n')

theorem mergeable_joined : Mergeable e Block.Joined where
  pair hl hr := joined_append hl hr
  tail := by
    intro cur run hcur hrun
    have hfold : ∀ (ps : List Paragraph) (text : Str), (joinParagraphs ps).Sublist text →
        (joinParagraphs (ps ++ run.flatMap Block.paragraphs)).Sublist
          (run.foldl (fun text b => text ++ '\n' :: '\n' :: b.content) text) := by
      induction run with
      | nil =>
        simpa using htext
      | cons b run ih =>
        intro ps text htext
        rw [flatMap_cons,← append_assoc]
        exact ih (fun b' hb' => hrun b' (mem_cons_of_mem b hb')) _ _
          (joined_append htext (hrun b mem_cons_self))
    exact hfold _ _ hcur

theorem Block.Fresh.joined {t : Tokenizer τ} {ids cited : List Str} (h : b.Fresh t ids cited) :
    b.Joined := by
  rw [Block.Joined,h.content]

end

section

variable {e : Env τ α} (ht : e.tokenizer.Additive) {c : Caps} (hcap : 0 < c.targetMax)
  (hchar : ∀ ch, e.tokenizer.length [ch] ≤ c.targetMax) {block first b : Block}
  {blocks part : List Block} {ids cited : List Str} {paragraphs : List Paragraph} {s : Str}

include ht

theorem first_character (hb : b.Sound e.tokenizer) (h : SameHead (solidBlocks (b :: blocks)) s) :
    ∃ ch, s.head? = some ch ∧ (solid b.content).head? = some ch ∧
      e.tokenizer.length [ch] ≤ e.tokenizer.length b.content := by
  have hsolid : solid b.content ≠ [] := by
    rw [hb.reads]
    intro hnil
    obtain ⟨p,hp⟩ := exists_mem_of_ne_nil _ hb.ne_nil
    exact isBlank_eq_false.mp (hb.notBlank p hp) (flatMap_eq_nil_iff.mp hnil p hp)
  obtain ⟨ch,rest,hcons⟩ := exists_cons_of_ne_nil hsolid
  have hin : ch ∈ b.content := mem_of_mem_filter (hcons ▸ mem_cons_self : ch ∈ solid _)
  refine ⟨ch,?_,by rw [hcons]; rfl,ht.char_le hin⟩
  rw [← h,solidBlocks_cons,hcons]
  rfl

theorem rebuilt_tokens (hlines : headingPrefix block.paragraphs ≠ [])
    (hfirst : first.Fresh e.tokenizer ids cited) :
    (rebuilt e block first).tokens =
      prefixTokens e block.paragraphs + e.tokenizer.length first.content := by
  rw [rebuilt,newBlock]
  rw [joinParagraphs,map_append,
    joinLines_append (by simpa using hlines) (by simpa using hfirst.ne_nil),ht.countTokens_eq,
    ← singleton_append,ht.append,ht.append,prefixTokens,ht.countTokens_eq,
    ht.countTokens_eq,hfirst.content,joinParagraphs,joinParagraphs,Nat.add_assoc]

include hchar in
theorem fresh_le (hfresh : ∀ b ∈ blocks, b.Fresh e.tokenizer ids cited)
    (h : ∀ b ∈ blocks, e.tokenizer.length b.content ≤ c.targetMax ∨ ∃ ch, b.content = [ch]) :
    ∀ b ∈ blocks, b.tokens ≤ c.targetMax := by
  intro b hb
  rw [(hfresh b hb).tokens,ht.countTokens_eq]
  rcases h b hb with hle | ⟨ch,hone⟩
  · exact hle
  · rw [hone]
    exact hchar ch

theorem hasRoom_of_le (hjoined : block.Joined) (htokens : block.tokens =
    e.tokenizer.countTokens block.content) (hle : block.tokens ≤ c.targetMax) :
    HasRoom e c block.paragraphs := by
  intro hkeeps ch hch
  obtain ⟨hlines,hbody,_⟩ := prefixTokens_lt hkeeps
  have hsub := ht.sublist hjoined
  rw [← heading_append_body block.paragraphs,joinParagraphs,map_append,
    joinLines_append (by simpa using hlines) (by simpa using hbody),← singleton_append,
    ht.append,ht.append] at hsub
  have hin : ch ∈ joinLines ((bodyOf block.paragraphs).map Paragraph.text) := by
    apply mem_of_mem_filter (p := fun ch => !Text.isSpace ch)
    have hread := solid_joinParagraphs (bodyOf block.paragraphs)
    rw [joinParagraphs,solid] at hread
    rw [hread]
    exact mem_of_mem_head? hch
  have hone := ht.char_le hin
  rw [htokens,ht.countTokens_eq] at hle
  rw [prefixTokens,ht.countTokens_eq,ht.countTokens_eq,joinParagraphs]
  omega

include hchar in
/-- A body split again behind its headings is within the cap if and only if its first character
is; the blocks after it are within the cap anyway. -/
theorem refit_le_iff {more : List Block} {ch : Char}
    (hkeeps : keepsPrefix e c block.paragraphs = true) (hfirst : b.Fresh e.tokenizer ids cited)
    (hch : (solid b.content).head? = some ch) (h : refit e c block b = .ok (first :: more)) :
    ((rebuilt e block first).tokens ≤ c.targetMax ↔
      prefixTokens e block.paragraphs + e.tokenizer.length [ch] ≤ c.targetMax) ∧
    ∀ b ∈ more, b.tokens ≤ c.targetMax := by
  obtain ⟨hlines,_,hlt⟩ := prefixTokens_lt hkeeps
  obtain ⟨_,hfresh,_⟩ := splitLongBlock_fresh reducedMax_pos rfl hfirst.ne_nil hfirst.paragraphs h
  have hread := splitLongBlock_reads (reading_sameHead ht _) reducedMax_pos hfirst.ne_nil
    hfirst.paragraphs (fun _ _ _ => trivial) h
  have hsmall := splitLongBlock_le ht reducedMax_pos hfirst.ne_nil hfirst.paragraphs h
  have hreduced : prefixTokens e block.paragraphs +
      (reducedCaps e c block.paragraphs).targetMax = c.targetMax := by
    simp only [reducedCaps,reducedMax]
    omega
  have hsame : solidParagraphs b.paragraphs = solid b.content := by
    rw [hfirst.content]
    exact (solid_joinParagraphs _).symm
  rw [hsame] at hread
  have hnew := hfresh first mem_cons_self
  have htokens := rebuilt_tokens ht hlines hnew
  obtain ⟨ch',hch',hfirstch,hle⟩ := first_character ht hnew.sound hread
  obtain rfl : ch = ch' := Option.some.inj (hch.symm.trans hch')
  refine ⟨⟨fun hall => by omega,fun hfits => ?_⟩,?_⟩
  · rcases hsmall first mem_cons_self with hfit | ⟨ch',hone⟩
    · omega
    · -- the only character is the first one of the body
      have hin : ch ∈ first.content := mem_of_mem_filter (mem_of_mem_head? hfirstch)
      rw [hone,mem_singleton] at hin
      rw [htokens,hone,← hin]
      exact hfits
  · intro b hb
    have hb := mem_cons_of_mem first hb
    rw [(hfresh b hb).tokens,ht.countTokens_eq]
    rcases hsmall b hb with hfit | ⟨ch',hone⟩
    · omega
    · rw [hone]
      exact hchar ch'

include hcap hchar

theorem splitToCap_le_iff (hne : block.paragraphs ≠ []) (hok : ∀ p ∈ block.paragraphs, p.Ok ids)
    (h : splitToCap e c block = .ok part) :
    (∀ b ∈ part, b.tokens ≤ c.targetMax) ↔ HasRoom e c block.paragraphs := by
  rw [splitToCap] at h
  split at h
  · next hkeeps =>
    obtain ⟨hlines,hbody,_⟩ := prefixTokens_lt hkeeps
    have hokBody : ∀ p ∈ bodyOf block.paragraphs, p.Ok ids := fun p hp => hok p (mem_of_mem_body hp)
    obtain ⟨pieces,hpieces,h⟩ := Results.bind_ok h
    obtain ⟨hsome,hfresh,_⟩ := splitLongBlock_fresh hcap rfl hbody hokBody hpieces
    have hread := splitLongBlock_reads (reading_sameHead ht c) hcap hbody hokBody
      (fun _ _ _ => trivial) hpieces
    have hle := fresh_le ht hchar hfresh (splitLongBlock_le ht hcap hbody hokBody hpieces)
    cases pieces with
    | nil => exact absurd rfl hsome
    | cons first rest =>
      have hfirst := hfresh first mem_cons_self
      have hrest : ∀ b ∈ rest, b.tokens ≤ c.targetMax :=
        fun b hb => hle b (mem_cons_of_mem first hb)
      obtain ⟨ch,hch,hfirstch,hlech⟩ := first_character ht hfirst.sound hread
      have hroom : HasRoom e c block.paragraphs ↔
          prefixTokens e block.paragraphs + e.tokenizer.length [ch] ≤ c.targetMax := by
        constructor
        · intro hroom
          exact hroom hkeeps ch hch
        · intro hfits _ ch' hch'
          rw [hch] at hch'
          rwa [← Option.some.inj hch']
      rw [hroom]
      dsimp only at h
      split at h
      · obtain ⟨again,hagain,h⟩ := Results.bind_ok h
        cases again with
        | nil => exact absurd rfl (splitLongBlock_fresh reducedMax_pos rfl hfirst.ne_nil
            hfirst.paragraphs hagain).1
        | cons first' more =>
          obtain rfl := ok.inj h
          obtain ⟨hiff,hmore⟩ := refit_le_iff ht hchar hkeeps hfirst hfirstch hagain
          rw [← hiff]
          constructor
          · intro hall
            exact hall _ mem_cons_self
          · intro hfits b hb
            rcases mem_cons.mp hb with rfl | hb
            · exact hfits
            · exact (mem_append.mp hb).elim (hmore b) (hrest b)
      · obtain rfl := ok.inj h
        have hfirstTokens : first.tokens = e.tokenizer.length first.content := by
          rw [hfirst.tokens,ht.countTokens_eq]
        refine ⟨fun _ => by omega,fun _ b hb => ?_⟩
        rcases mem_cons.mp hb with rfl | hb
        · rw [rebuilt_tokens ht hlines hfirst]
          omega
        · exact hrest b hb
  · next hkeeps =>
    obtain ⟨_,hfresh,_⟩ := splitLongBlock_fresh hcap rfl hne hok h
    exact ⟨fun _ hyes => absurd hyes hkeeps,
      fun _ => fresh_le ht hchar hfresh (splitLongBlock_le ht hcap hne hok h)⟩

theorem emit_le_iff {glued : Bool} (hsound : block.Sound e.tokenizer) (hjoined : block.Joined)
    (hsmall : glued = false → block.tokens ≤ c.targetMax) (h : emit e c glued block = .ok part) :
    (∀ b ∈ part, b.tokens ≤ c.targetMax) ↔ HasRoom e c block.paragraphs := by
  rw [emit] at h
  split at h
  · exact splitToCap_le_iff ht hcap hchar hsound.ne_nil hsound.paragraphs_ok h
  · next hkeep =>
    obtain rfl := ok.inj h
    have hle : block.tokens ≤ c.targetMax := by
      cases glued with
      | false => exact hsmall rfl
      | true => simpa using hkeep
    exact ⟨fun _ => hasRoom_of_le ht hjoined hsound.tokens hle,fun _ => by simpa using hle⟩

end

section

variable {e : Env τ α} {c : Caps} {blocks glued : List Block} {cur : Block}

theorem glueGroups_unglued {mark : Bool} (hcur : mark = false → cur.tokens ≤ c.targetMax)
    (hblocks : ∀ b ∈ blocks, b.tokens ≤ c.targetMax) :
    ∀ g ∈ glueGroups e cur mark blocks, g.2 = false → g.1.tokens ≤ c.targetMax := by
  induction blocks generalizing cur mark with
  | nil => simpa [glueGroups] using hcur
  | cons next blocks ih =>
    have hnext := hblocks next mem_cons_self
    have hrest := fun b hb => hblocks b (mem_cons_of_mem next hb)
    rw [glueGroups]
    split
    · exact ih (fun hno => absurd hno.symm Bool.false_ne_true) hrest
    · intro g hg
      rcases mem_cons.mp hg with rfl | hg
      · exact hcur
      · exact ih (fun _ => hnext) hrest g hg

theorem glue_le_iff (ht : e.tokenizer.Additive) (hcap : 0 < c.targetMax)
    (hchar : ∀ ch, e.tokenizer.length [ch] ≤ c.targetMax)
    (hblocks : ∀ b ∈ blocks, b.Sound e.tokenizer ∧ b.Joined ∧ b.tokens ≤ c.targetMax)
    (h : glueHeadingOnlyBlocks e c blocks = .ok glued) :
    (∀ b ∈ glued, b.tokens ≤ c.targetMax) ↔
      ∀ g ∈ groupsOf e blocks, HasRoom e c g.1.paragraphs := by
  obtain ⟨parts,hparts,rfl⟩ := glue_emits h
  have hsteps := groupsOf_steps (e := e) blocks
  have hgroups : ∀ g ∈ groupsOf e blocks, (g.1.Sound e.tokenizer ∧ g.1.Joined) ∧
      (g.2 = false → g.1.tokens ≤ c.targetMax) := by
    intro g hg
    have hin : g.1 ∈ (groupsOf e blocks).map Prod.fst := mem_map_of_mem hg
    refine ⟨⟨mergeSteps_keep mergeable_sound hsteps (fun b hb => (hblocks b hb).1) _ hin,
      mergeSteps_keep mergeable_joined hsteps (fun b hb => (hblocks b hb).2.1) _ hin⟩,?_⟩
    cases blocks with
    | nil => exact nomatch hg
    | cons b blocks =>
      exact glueGroups_unglued (fun _ => (hblocks b mem_cons_self).2.2)
        (fun b' hb' => (hblocks b' (mem_cons_of_mem b hb')).2.2) g hg
  have hall := (List.forall₂_and_left _ _).mpr ⟨hgroups,hparts⟩
  have hiff : ∀ {g : Block × Bool} {part : List Block}, ((g.1.Sound e.tokenizer ∧ g.1.Joined) ∧
      (g.2 = false → g.1.tokens ≤ c.targetMax)) ∧ emit e c g.2 g.1 = .ok part →
      ((∀ b ∈ part, b.tokens ≤ c.targetMax) ↔ HasRoom e c g.1.paragraphs) :=
    fun hg => emit_le_iff ht hcap hchar hg.1.1.1 hg.1.1.2 hg.1.2 hg.2
  constructor
  · intro hle g hg
    obtain ⟨part,hpart,hin⟩ := exists_part_of_mem hall hg
    exact (hiff hpart).mp fun b hb => hle b (hin b hb)
  · intro hroom b hb
    obtain ⟨g,hg,part,hpart,hin⟩ := exists_of_mem_flatten hall hb
    exact (hiff hpart).mpr (hroom g hg) b hin

end

end LightRAG.Chunking
