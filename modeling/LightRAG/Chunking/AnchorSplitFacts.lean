import LightRAG.Chunking.AnchorSplit
import LightRAG.Chunking.TableRowSplitFacts

/-!
# What the split of a long block keeps

The anchors cut the paragraphs of a block into slices that are all shorter than the block, so the
recursion reaches blocks within the cap or without anchors.
-/

namespace LightRAG.Chunking
open List Except

variable {τ α : Type}

section

variable {seen values : List Str} {v : Str}

theorem mem_dedupAfter : v ∈ dedupAfter seen values ↔ v ≠ [] ∧ v ∉ seen ∧ v ∈ values := by
  induction values generalizing seen with
  | nil => simp [dedupAfter]
  | cons w values ih =>
    rw [dedupAfter]
    split
    · rw [mem_cons]
      grind
    · rw [ih]
      grind

theorem nodup_dedupAfter : (dedupAfter seen values).Nodup := by
  induction values generalizing seen with
  | nil => exact nodup_nil
  | cons w values ih =>
    rw [dedupAfter]
    split
    · refine nodup_cons.mpr ⟨?_,ih⟩
      rw [mem_dedupAfter]
      simp
    · exact ih

theorem mem_dedup : v ∈ dedupPreservingOrder values ↔ v ≠ [] ∧ v ∈ values := by
  rw [dedupPreservingOrder,mem_dedupAfter]
  simp

theorem nodup_dedup (values : List Str) : (dedupPreservingOrder values).Nodup := nodup_dedupAfter

theorem dedupAfter_of_nodup (hnd : values.Nodup) (hne : ∀ v ∈ values, v ≠ [])
    (hnew : ∀ v ∈ values, v ∉ seen) : dedupAfter seen values = values := by
  induction values generalizing seen with
  | nil => rfl
  | cons w values ih =>
    obtain ⟨hw,hnd⟩ := nodup_cons.mp hnd
    rw [dedupAfter,if_pos ⟨hne w mem_cons_self,hnew w mem_cons_self⟩,ih hnd]
    · exact fun v hv => hne v (mem_cons_of_mem w hv)
    · intro v hv hseen
      rcases mem_cons.mp hseen with rfl | hseen
      · exact hw hv
      · exact hnew v (mem_cons_of_mem w hv) hseen

theorem dedup_of_nodup (hnd : values.Nodup) (hne : ∀ v ∈ values, v ≠ []) :
    dedupPreservingOrder values = values := dedupAfter_of_nodup hnd hne (by simp)

theorem dedup_dedup (values : List Str) :
    dedupPreservingOrder (dedupPreservingOrder values) = dedupPreservingOrder values :=
  dedup_of_nodup (nodup_dedup values) fun _ hv => (mem_dedup.mp hv).1

end

section

variable {e : Env τ α} {c : Caps} {frame current : Frame} {paragraphs : List Paragraph}
  {role : Role}
  {isTitleBlock firstFrag : Bool} {total targetBlocks left i prev : ℕ} {pool anchors : List Anchor}

theorem candidatesFrom_index {index cumulative : ℕ} {a : Anchor}
    (h : a ∈ candidatesFrom e index cumulative paragraphs) :
    0 < a.index ∧ index ≤ a.index ∧ a.index < index + paragraphs.length := by
  induction paragraphs generalizing index cumulative with
  | nil => exact nomatch h
  | cons p ps ih =>
    rw [candidatesFrom] at h
    rw [length_cons]
    split at h
    · next hcand =>
      rcases mem_cons.mp h with rfl | h
      · exact ⟨hcand.1,le_refl _,by dsimp only; omega⟩
      · have := ih h
        omega
    · have := ih h
      omega

theorem candidatesFrom_nodup (e : Env τ α) (index cumulative : ℕ) (paragraphs : List Paragraph) :
    ((candidatesFrom e index cumulative paragraphs).map Anchor.index).Nodup := by
  induction paragraphs generalizing index cumulative with
  | nil => exact nodup_nil
  | cons p ps ih =>
    rw [candidatesFrom]
    split
    · refine nodup_cons.mpr ⟨?_,ih _ _⟩
      intro hmem
      obtain ⟨a,ha,hindex⟩ := mem_map.mp hmem
      have := candidatesFrom_index ha
      dsimp only at hindex
      omega
    · exact ih _ _

theorem pickAnchors_spec (e : Env τ α) (total targetBlocks left i : ℕ)
    (hpool : (pool.map Anchor.index).Nodup) :
    (∀ a ∈ pickAnchors e total targetBlocks left i pool, a ∈ pool) ∧
    ((pickAnchors e total targetBlocks left i pool).map Anchor.index).Nodup := by
  induction left generalizing i pool with
  | zero => exact ⟨by simp [pickAnchors],nodup_nil⟩
  | succ left ih =>
    rw [pickAnchors]
    split
    · exact ⟨by simp,nodup_nil⟩
    · next best hbest =>
      have hmem := argmin_mem hbest
      have hsub := erase_sublist (a := best) (l := pool)
      obtain ⟨hin,hnd⟩ := ih (i + 1) (hpool.sublist (hsub.map _))
      refine ⟨?_,?_⟩
      · intro a ha
        rcases mem_cons.mp ha with rfl | ha
        · exact hmem
        · exact hsub.subset (hin a ha)
      · refine nodup_cons.mpr ⟨?_,hnd⟩
        intro hsame
        obtain ⟨a,ha,hindex⟩ := mem_map.mp hsame
        have herased := hin a ha
        have heq := inj_on_of_nodup_map hpool (hsub.subset herased) hmem hindex
        rw [heq] at herased
        exact ((List.Nodup.of_map _ hpool).mem_erase_iff.mp herased).1 rfl

theorem pickAnchors_ne_nil (hpool : pool ≠ []) :
    pickAnchors e total targetBlocks (left + 1) i pool ≠ [] := by
  rw [pickAnchors]
  split
  · next hnone => exact absurd (argmin_eq_none.mp hnone) hpool
  · exact cons_ne_nil _ _

theorem selectAnchors_spec (e : Env τ α) (total targetBlocks : ℕ) (paragraphs : List Paragraph) :
    ((selectAnchors e total targetBlocks (candidatesFrom e 0 0 paragraphs)).Pairwise
      fun a b => a.index < b.index) ∧
    ∀ a ∈ selectAnchors e total targetBlocks (candidatesFrom e 0 0 paragraphs),
      0 < a.index ∧ a.index < paragraphs.length := by
  obtain ⟨hin,hnd⟩ := pickAnchors_spec e total targetBlocks (targetBlocks - 1) 1
    (candidatesFrom_nodup e 0 0 paragraphs)
  have hperm := perm_insertionSort (fun a b : Anchor => a.index ≤ b.index)
    (pickAnchors e total targetBlocks (targetBlocks - 1) 1 (candidatesFrom e 0 0 paragraphs))
  refine ⟨?_,?_⟩
  · have hle := pairwise_insertionSort (fun a b : Anchor => a.index ≤ b.index)
      (pickAnchors e total targetBlocks (targetBlocks - 1) 1 (candidatesFrom e 0 0 paragraphs))
    have hne := (hperm.map Anchor.index).nodup_iff.mpr hnd
    rw [List.Nodup,pairwise_map] at hne
    exact (hle.and hne).imp fun h => lt_of_le_of_ne h.1 h.2
  · intro a ha
    have := candidatesFrom_index (hin a (hperm.mem_iff.mp ha))
    omega

theorem selectAnchors_ne_nil (hblocks : 2 ≤ targetBlocks)
    (hcands : candidatesFrom e 0 0 paragraphs ≠ []) :
    selectAnchors e total targetBlocks (candidatesFrom e 0 0 paragraphs) ≠ [] := by
  intro hnil
  have hperm := perm_insertionSort (fun a b : Anchor => a.index ≤ b.index)
    (pickAnchors e total targetBlocks (targetBlocks - 1) 1 (candidatesFrom e 0 0 paragraphs))
  rw [selectAnchors] at hnil
  rw [hnil] at hperm
  obtain ⟨n,hn⟩ := Nat.exists_eq_add_of_le hblocks
  rw [show targetBlocks - 1 = n + 1 by omega] at hperm
  exact pickAnchors_ne_nil hcands hperm.nil_eq.symm

/-- A block of `_split_long_block` before the recursion: some of the paragraphs, in the frame of the
block up to its heading. -/
structure Slice (e : Env τ α) (blockids : List Str) (b : Block) : Prop where
  ne_nil : b.paragraphs ≠ []
  made : ∃ frame role title, b = newBlock e.tokenizer frame b.paragraphs role title ∧
    frame.blockids = blockids

theorem anchorBlocks_spec (role : Role) (isTitleBlock firstFrag : Bool)
    (hprev : prev < paragraphs.length)
    (hsorted : anchors.Pairwise fun a b => a.index < b.index)
    (hrange : ∀ a ∈ anchors, prev < a.index ∧ a.index < paragraphs.length)
    (hcut : prev = 0 → anchors ≠ []) (hframe : current.blockids = frame.blockids) :
    let blocks := anchorBlocks e frame paragraphs isTitleBlock current role prev firstFrag anchors
    (blocks.map Block.paragraphs).flatten = paragraphs.drop prev ∧
    ∀ b ∈ blocks, Slice e frame.blockids b ∧ b.paragraphs.length < paragraphs.length := by
  induction anchors generalizing current role prev firstFrag with
  | nil =>
    have hpos : 0 < prev := Nat.pos_of_ne_zero fun hzero => hcut hzero rfl
    have htail : paragraphs.drop prev ≠ [] := by
      intro hnil
      have hlen := congrArg List.length hnil
      simp only [length_drop,length_nil] at hlen
      omega
    intro blocks
    simp only [blocks,anchorBlocks,if_neg htail]
    refine ⟨by simp [newBlock],?_⟩
    intro b hb
    rw [mem_singleton.mp hb]
    refine ⟨⟨htail,_,_,_,rfl,hframe⟩,?_⟩
    simp only [newBlock,length_drop]
    omega
  | cons anchor anchors ih =>
    obtain ⟨hfirst,hlater⟩ := pairwise_cons.mp hsorted
    obtain ⟨hlow,hhigh⟩ := hrange anchor mem_cons_self
    have hslice : (paragraphs.drop prev).take (anchor.index - prev) ≠ [] :=
      take_drop_ne_nil hprev hlow
    have hrest : ∀ a ∈ anchors, anchor.index < a.index ∧ a.index < paragraphs.length :=
      fun a ha => ⟨hfirst a ha,(hrange a (mem_cons_of_mem anchor ha)).2⟩
    intro blocks
    simp only [blocks,anchorBlocks,if_neg hslice]
    generalize hnext : ({ frame with heading := anchor.text, parentHeadings := _ } : Frame) = next
    have hnextids : next.blockids = frame.blockids := by rw [← hnext]
    obtain ⟨hflat,hblocks⟩ := ih .none false hhigh hlater hrest (by omega) hnextids
    refine ⟨?_,?_⟩
    · rw [map_cons,flatten_cons,hflat]
      have hdrop : paragraphs.drop anchor.index =
          (paragraphs.drop prev).drop (anchor.index - prev) := by
        rw [drop_drop]
        congr 1
        omega
      rw [hdrop]
      exact take_append_drop _ _
    · intro b hb
      rcases mem_cons.mp hb with rfl | hb
      · refine ⟨⟨hslice,_,_,_,rfl,hframe⟩,?_⟩
        simp only [newBlock,length_take]
        omega
      · exact hblocks b hb

end

section

variable {e : Env τ α} {c : Caps}

/-- What holds of a block within the cap and of a split without anchors, and of a list of paragraphs
if it holds of its slices, holds of every split. `ids` are the ids of all blocks involved. -/
theorem splitLongBlock_induction {ids : List Str} {motive : List Paragraph → List Block → Prop}
    (hcap : 0 < c.targetMax)
    (whole : ∀ frame paragraphs role title, dedupPreservingOrder frame.blockids = ids →
      e.tokenizer.countTokens (joinParagraphs paragraphs) ≤ c.targetMax →
      motive paragraphs [newBlock e.tokenizer frame paragraphs role title])
    (plain : ∀ frame paragraphs role title blocks, dedupPreservingOrder frame.blockids = ids →
      c.targetMax < e.tokenizer.countTokens (joinParagraphs paragraphs) →
      splitWithoutAnchors e c frame paragraphs role title = .ok blocks → motive paragraphs blocks)
    (slices : ∀ pss parts, (∀ ps ∈ pss, ps ≠ []) → List.Forall₂ motive pss parts →
      motive pss.flatten parts.flatten)
    {frame : Frame} {paragraphs : List Paragraph} {role : Role} {title : Bool}
    {blocks : List Block} (hids : dedupPreservingOrder frame.blockids = ids)
    (h : splitLongBlock e c frame paragraphs role title = .ok blocks) :
    motive paragraphs blocks := by
  have hall : ∀ fuel, paragraphs.length ≤ fuel →
      splitLongBlockFuel e c fuel frame paragraphs role title = .ok blocks →
      motive paragraphs blocks := by
    clear h
    intro fuel hfuel h
    induction fuel generalizing frame paragraphs role title blocks with
    | zero =>
      obtain rfl := ok.inj h
      have hnil : paragraphs = [] := eq_nil_of_length_eq_zero (by omega)
      apply whole _ _ _ _ hids
      rw [hnil]
      exact Nat.zero_le _
    | succ fuel ih =>
      rw [splitLongBlockFuel] at h
      dsimp only at h
      split at h
      · next hfits =>
        obtain rfl := ok.inj h
        exact whole _ _ _ _ hids hfits
      · split at h
        · exact plain _ _ _ _ _ hids (by omega) h
        · next hcands =>
          obtain ⟨parts,hparts,h⟩ := Results.bind_ok h
          obtain rfl := ok.inj h
          have htwo := two_le_ceilDiv hcap (show c.targetMax <
            e.tokenizer.countTokens (joinParagraphs paragraphs) by omega)
          have hlength : 0 < paragraphs.length := by
            apply length_pos_of_ne_nil
            rintro rfl
            exact hcands rfl
          obtain ⟨hsorted,hrange⟩ := selectAnchors_spec e
            (e.tokenizer.countTokens (joinParagraphs paragraphs))
            (max (ceilDiv (e.tokenizer.countTokens (joinParagraphs paragraphs)) c.targetIdeal)
              (ceilDiv (e.tokenizer.countTokens (joinParagraphs paragraphs)) c.targetMax))
            paragraphs
          obtain ⟨hflat,hblocks⟩ := anchorBlocks_spec (e := e) role title true hlength hsorted
            hrange (fun _ => selectAnchors_ne_nil (by omega) hcands) (rfl : frame.blockids = _)
          rw [drop_zero] at hflat
          rw [← hflat]
          apply slices
          · intro ps hps
            obtain ⟨b,hb,rfl⟩ := mem_map.mp hps
            exact (hblocks b hb).1.ne_nil
          · rw [List.forall₂_map_left_iff]
            apply ((List.forall₂_and_left _ _).mpr ⟨hblocks,Results.mapM_ok hparts⟩).imp
            rintro sub part ⟨⟨hslice,hshort⟩,hpart⟩
            obtain ⟨subFrame,subRole,subTitle,hmade,hsame⟩ := hslice.made
            have hsub : dedupPreservingOrder sub.blockids = ids := by
              rw [hmade]
              exact (dedup_dedup _).trans (hsame ▸ hids)
            split at hpart
            · apply ih ?_ (by omega) hpart
              split
              · exact hids
              · exact hsub
            · next hfits =>
              obtain rfl := ok.inj hpart
              have hwhole := whole subFrame sub.paragraphs subRole subTitle (hsame ▸ hids)
              rw [← hmade] at hwhole
              apply hwhole
              rw [hmade] at hfits
              exact not_lt.mp hfits

  exact hall _ (le_refl _) h

end

end LightRAG.Chunking

/-!
## The split without anchors

What the pieces of a block without anchors are packed into, and the blocks this gives.
-/

namespace LightRAG.Chunking
open List Except

variable {τ α : Type}

structure Paragraph.Ok (ids : List Str) (p : Paragraph) : Prop where
  notBlank : isBlank p.text = false
  traced : p.rows ≠ []
  within : ∀ row ∈ p.rows, row ∈ ids

/-- A block as `_new_block` makes it of such paragraphs, with the ids `cited`; its heading may have
been marked since. -/
structure Block.Fresh (t : Tokenizer τ) (ids cited : List Str) (b : Block) : Prop where
  ne_nil : b.paragraphs ≠ []
  paragraphs : ∀ p ∈ b.paragraphs, p.Ok ids
  content : b.content = joinParagraphs b.paragraphs
  tokens : b.tokens = t.countTokens b.content
  blockids : b.blockids = cited
  parts : b.parts = [⟨cited, b.paragraphs.flatMap Paragraph.rows, false⟩]

theorem newBlock_fresh {t : Tokenizer τ} {frame : Frame} {ids cited : List Str}
    {paragraphs : List Paragraph} {role : Role} {title : Bool}
    (hids : dedupPreservingOrder frame.blockids = cited) (hne : paragraphs ≠ [])
    (hok : ∀ p ∈ paragraphs, p.Ok ids) :
    (newBlock t frame paragraphs role title).Fresh t ids cited where
  ne_nil := hne
  paragraphs := hok
  content := rfl
  tokens := rfl
  blockids := hids
  parts := by
    subst hids
    rfl

def Covers (paragraphs : List Paragraph) (blocks : List Block) : Prop :=
  ∀ p ∈ paragraphs, ∀ row ∈ p.rows, ∃ b ∈ blocks, ∃ q ∈ b.paragraphs, row ∈ q.rows

section

variable {e : Env τ α} {c : Caps} {pieces buf : List Piece} {bufTokens : ℕ}

inductive PackGroup (e : Env τ α) (c : Caps) : List Piece → List Piece → Prop
  | joined (group : List Piece) : group ≠ [] → PackGroup e c group [joinPieces group]
  | cut (p : Piece) : PackGroup e c [p] (cutPiece e c p)

theorem packPieces_groups (e : Env τ α) (c : Caps) (buf : List Piece) (bufTokens : ℕ)
    (pieces : List Piece) : ∃ groups outs, groups.flatten = buf ++ pieces ∧
    List.Forall₂ (PackGroup e c) groups outs ∧
    packPieces e c buf bufTokens pieces = outs.flatten := by
  have hflush : ∀ buf : List Piece, ∃ groups outs, groups.flatten = buf ∧
      List.Forall₂ (PackGroup e c) groups outs ∧
      (if buf = [] then [] else [joinPieces buf]) = outs.flatten := by
    intro buf
    split
    · next hnil => exact ⟨[],[],by rw [hnil]; rfl,.nil,rfl⟩
    · next hne => exact ⟨[buf],[[joinPieces buf]],by simp,.cons (.joined buf hne) .nil,rfl⟩
  induction pieces generalizing buf bufTokens with
  | nil =>
    rw [append_nil]
    exact hflush buf
  | cons p pieces ih =>
    rw [packPieces]
    dsimp only
    split
    · obtain ⟨before,bouts,hbefore,hbgroups,hbout⟩ := hflush buf
      obtain ⟨groups,outs,hflat,hgroups,hout⟩ := ih [] 0
      refine ⟨before ++ [p] :: groups,bouts ++ cutPiece e c p :: outs,?_,?_,?_⟩
      · rw [flatten_append,flatten_cons,hbefore,hflat]
        rfl
      · exact rel_append hbgroups (.cons (.cut p) hgroups)
      · rw [hbout,hout,flatten_append,flatten_cons,append_assoc]
    · generalize e.tokenizer.countTokens p.text +
        (if buf = [] then 0 else e.tokenizer.countTokens ['\n']) = addition
      split
      · next hfull =>
        obtain ⟨groups,outs,hflat,hgroups,hout⟩ := ih [p] (e.tokenizer.countTokens p.text)
        refine ⟨buf :: groups,[joinPieces buf] :: outs,?_,?_,?_⟩
        · rw [flatten_cons,hflat,singleton_append]
        · exact .cons (.joined buf hfull.1) hgroups
        · rw [hout,flatten_cons,singleton_append]
      · obtain ⟨groups,outs,hflat,hgroups,hout⟩ := ih (buf ++ [p]) (bufTokens + addition)
        exact ⟨groups,outs,by rw [hflat,append_assoc,singleton_append],hgroups,hout⟩

theorem PackGroup.ne_nil {group out : List Piece} (h : PackGroup e c group out) : group ≠ [] := by
  cases h with
  | joined _ hne => exact hne
  | cut p => exact cons_ne_nil _ _

theorem isBlank_joinLines {lines : List Str} (hne : lines ≠ [])
    (hlines : ∀ line ∈ lines, isBlank line = false) : isBlank (joinLines lines) = false := by
  obtain ⟨line,lines,rfl⟩ := exists_cons_of_ne_nil hne
  have hline := isBlank_eq_false.mp (hlines line mem_cons_self)
  rw [isBlank_eq_false,solid_joinLines]
  simp [hline]

theorem PackGroup.spec {group out : List Piece} (h : PackGroup e c group out)
    (hgroup : ∀ p ∈ group, isBlank p.text = false) :
    out ≠ [] ∧ ∀ q ∈ out, isBlank q.text = false ∧ q.rows = group.flatMap Piece.rows := by
  cases h with
  | joined _ hne =>
    refine ⟨cons_ne_nil _ _,?_⟩
    intro q hq
    rw [mem_singleton.mp hq]
    refine ⟨isBlank_joinLines (by simpa using hne) ?_,rfl⟩
    intro line hline
    obtain ⟨p,hp,rfl⟩ := mem_map.mp hline
    exact hgroup p hp
  | cut p =>
    have hp := hgroup p mem_cons_self
    refine ⟨by simpa [cutPiece] using characterSplitText_ne_nil hp,?_⟩
    intro q hq
    obtain ⟨text,htext,rfl⟩ := mem_map.mp hq
    exact ⟨characterSplitText_solid hp htext,by simp⟩

theorem packPieces_le (ht : e.tokenizer.Additive) (hcap : 0 < c.targetMax)
    (hbuf : bufTokens = e.tokenizer.length (joinPieces buf).text) (hfits : bufTokens ≤ c.targetMax)
    {q : Piece} (hq : q ∈ packPieces e c buf bufTokens pieces) :
    e.tokenizer.length q.text ≤ c.targetMax ∨ ∃ ch, q.text = [ch] := by
  have hflush : ∀ buf : List Piece, e.tokenizer.length (joinPieces buf).text ≤ c.targetMax →
      ∀ q ∈ (if buf = [] then [] else [joinPieces buf]),
        e.tokenizer.length q.text ≤ c.targetMax := by
    intro buf hle q hq
    split at hq
    · exact nomatch hq
    · rw [mem_singleton.mp hq]
      exact hle
  induction pieces generalizing buf bufTokens with
  | nil => exact .inl (hflush buf (by omega) q hq)
  | cons p pieces ih =>
    have hone : e.tokenizer.countTokens p.text = e.tokenizer.length (joinPieces [p]).text := by
      rw [ht.countTokens_eq]
      simp [joinPieces]
    rw [packPieces] at hq
    dsimp only at hq
    split at hq
    · rcases mem_append.mp hq with hq | hq
      · rcases mem_append.mp hq with hq | hq
        · exact .inl (hflush buf (by omega) q hq)
        · obtain ⟨text,htext,rfl⟩ := mem_map.mp hq
          exact characterSplitText_le ht hcap htext
      · exact ih (by rw [joinPieces]; exact ht.nil.symm) (Nat.zero_le _) hq
    · generalize hadd : e.tokenizer.countTokens p.text +
        (if buf = [] then 0 else e.tokenizer.countTokens ['\n']) = addition at hq
      split at hq
      · rcases mem_cons.mp hq with rfl | hq
        · exact .inl (hbuf ▸ hfits)
        · exact ih hone (by omega) hq
      · next hroom =>
        refine ih ?_ ?_ hq
        · by_cases hnil : buf = []
          · rw [hnil,nil_append,← hadd,hbuf,hnil,← hone]
            simp [joinPieces,ht.nil]
          · have hjoin : (joinPieces (buf ++ [p])).text =
                (joinPieces buf).text ++ '\n' :: p.text := by
              rw [joinPieces,map_append,joinLines_append (by simpa using hnil) (by simp)]
              simp [joinPieces]
            rw [if_neg hnil,ht.countTokens_eq,ht.countTokens_eq] at hadd
            rw [hjoin,ht.append,← singleton_append,ht.append]
            omega
        · by_cases hnil : buf = []
          · have hzero : bufTokens = 0 := by
              rw [hbuf,hnil]
              exact ht.nil
            rw [if_pos hnil] at hadd
            omega
          · have := not_and.mp hroom hnil
            omega

end

section

variable {e : Env τ α} {c : Caps} {ids cited : List Str} {paragraphs : List Paragraph}
  {pieces : List Piece} {blocks : List Block} {frame : Frame} {role : Role} {title : Bool}

def IsCutTable (e : Env τ α) (c : Caps) (p : Paragraph) : Prop :=
  p.isTable = true ∧ c.targetMax < e.tokenizer.countTokens p.text

def PieceOutcome (e : Env τ α) (c : Caps) (p : Paragraph) (part : List Piece) : Prop :=
  (¬IsCutTable e c p ∧ part = [⟨p.text, p.rows⟩]) ∨
    (IsCutTable e c p ∧ ∃ texts, TableOutcome e p.text c.targetMax texts ∧
      part = texts.map (⟨·, p.rows⟩))

theorem piecesOf_outcome (h : piecesOf e c paragraphs = .ok pieces) :
    ∃ parts, List.Forall₂ (PieceOutcome e c) paragraphs parts ∧ pieces = parts.flatten := by
  induction paragraphs generalizing pieces with
  | nil => exact ⟨[],.nil,(ok.inj h).symm⟩
  | cons p paragraphs ih =>
    obtain ⟨texts,htexts,h⟩ := Results.bind_ok h
    obtain ⟨rest,hrest,h⟩ := Results.bind_ok h
    obtain ⟨parts,hparts,rfl⟩ := ih hrest
    refine ⟨texts.map (⟨·,p.rows⟩) :: parts,.cons ?_ hparts,(ok.inj h).symm⟩
    rw [textsOf] at htexts
    split at htexts
    · next hcut => exact .inr ⟨hcut,texts,splitTableText_outcome htexts,rfl⟩
    · next hkeep =>
      obtain rfl := ok.inj htexts
      exact .inl ⟨hkeep,rfl⟩

theorem PieceOutcome.spec {p : Paragraph} {part : List Piece} (h : PieceOutcome e c p part)
    (hp : isBlank p.text = false) :
    part ≠ [] ∧ ∀ q ∈ part, isBlank q.text = false ∧ q.rows = p.rows := by
  rcases h with ⟨_,rfl⟩ | ⟨_,texts,htexts,rfl⟩
  · simpa using hp
  · refine ⟨by simpa using htexts.ne_nil hp,?_⟩
    intro q hq
    obtain ⟨text,htext,rfl⟩ := mem_map.mp hq
    exact ⟨htexts.notBlank hp text htext,rfl⟩

theorem exists_of_mem_flatten {β γ : Type} {r : β → List γ → Prop} {xs : List β}
    {parts : List (List γ)} (h : List.Forall₂ r xs parts) {y : γ} (hy : y ∈ parts.flatten) :
    ∃ x ∈ xs, ∃ part, r x part ∧ y ∈ part := by
  induction h with
  | nil => exact nomatch hy
  | @cons x part xs parts hx _ ih =>
    rcases mem_append.mp (flatten_cons ▸ hy) with hy | hy
    · exact ⟨x,mem_cons_self,part,hx,hy⟩
    · obtain ⟨x',hx',part',hpart'⟩ := ih hy
      exact ⟨x',mem_cons_of_mem x hx',part',hpart'⟩

theorem exists_part_of_mem {β γ : Type} {r : β → List γ → Prop} {xs : List β}
    {parts : List (List γ)} (h : List.Forall₂ r xs parts) {x : β} (hx : x ∈ xs) :
    ∃ part, r x part ∧ ∀ y ∈ part, y ∈ parts.flatten := by
  induction h with
  | nil => exact nomatch hx
  | @cons x' part xs parts hpart _ ih =>
    rcases mem_cons.mp hx with rfl | hx
    · exact ⟨part,hpart,fun y hy => mem_append_left _ hy⟩
    · obtain ⟨part',hpart',hmem⟩ := ih hx
      exact ⟨part',hpart',fun y hy => mem_append_right _ (hmem y hy)⟩

theorem packed_spec (hne : paragraphs ≠ []) (hok : ∀ p ∈ paragraphs, p.Ok ids)
    (h : piecesOf e c paragraphs = .ok pieces) :
    packPieces e c [] 0 pieces ≠ [] ∧
    (∀ q ∈ packPieces e c [] 0 pieces, (Paragraph.mk q.text (isTableParagraph q.text) q.rows).Ok
      ids) ∧
    ∀ p ∈ paragraphs, ∀ row ∈ p.rows, ∃ q ∈ packPieces e c [] 0 pieces, row ∈ q.rows := by
  obtain ⟨parts,hparts,rfl⟩ := piecesOf_outcome h
  obtain ⟨groups,outs,hflat,hgroups,hout⟩ := packPieces_groups e c [] 0 parts.flatten
  rw [hout]
  rw [nil_append] at hflat
  -- where a piece comes from
  have hpiece : ∀ q ∈ parts.flatten, ∃ p ∈ paragraphs, isBlank q.text = false ∧
      q.rows = p.rows := by
    intro q hq
    obtain ⟨p,hp,part,hpart,hin⟩ := exists_of_mem_flatten hparts hq
    exact ⟨p,hp,(hpart.spec (hok p hp).notBlank).2 q hin⟩
  have hgroup : ∀ group, group ∈ groups → ∀ q ∈ group, q ∈ parts.flatten := by
    intro group hin q hq
    rw [← hflat]
    exact mem_flatten_of_mem hin hq
  have hcovers : ∀ p ∈ paragraphs, ∀ row ∈ p.rows, ∃ q ∈ outs.flatten, row ∈ q.rows := by
    intro p hp row hrow
    obtain ⟨part,hpart,hin⟩ := exists_part_of_mem hparts hp
    obtain ⟨hsome,hrows⟩ := hpart.spec (hok p hp).notBlank
    obtain ⟨q,hq⟩ := exists_mem_of_ne_nil part hsome
    obtain ⟨group,hgin,hqin⟩ := mem_flatten.mp (hflat ▸ hin q hq)
    obtain ⟨out,hpack,hmem⟩ := exists_part_of_mem hgroups hgin
    obtain ⟨hsomeout,houtrows⟩ := hpack.spec fun q' hq' =>
      (hpiece q' (hgroup group hgin q' hq')).choose_spec.2.1
    obtain ⟨q',hq'⟩ := exists_mem_of_ne_nil out hsomeout
    refine ⟨q',hmem q' hq',?_⟩
    rw [(houtrows q' hq').2]
    exact mem_flatMap.mpr ⟨q,hqin,by rw [(hrows q hq).2]; exact hrow⟩
  refine ⟨?_,?_,hcovers⟩
  · obtain ⟨p,hp⟩ := exists_mem_of_ne_nil _ hne
    obtain ⟨row,hrow⟩ := exists_mem_of_ne_nil _ (hok p hp).traced
    obtain ⟨q,hq,_⟩ := hcovers p hp row hrow
    exact ne_nil_of_mem hq
  · intro q hq
    obtain ⟨group,hgin,out,hpack,hin⟩ := exists_of_mem_flatten hgroups hq
    obtain ⟨hsolid,hrows⟩ := (hpack.spec fun q' hq' =>
      (hpiece q' (hgroup group hgin q' hq')).choose_spec.2.1).2 q hin
    refine ⟨hsolid,?_,?_⟩
    · obtain ⟨q',hq'⟩ := exists_mem_of_ne_nil group hpack.ne_nil
      obtain ⟨p,hp,_,hsame⟩ := hpiece q' (hgroup group hgin q' hq')
      obtain ⟨row,hrow⟩ := exists_mem_of_ne_nil _ (hok p hp).traced
      rw [hrows]
      exact ne_nil_of_mem (mem_flatMap.mpr ⟨q',hq',hsame ▸ hrow⟩)
    · intro row hrow
      rw [hrows] at hrow
      obtain ⟨q',hq',hrow⟩ := mem_flatMap.mp hrow
      obtain ⟨p,hp,_,hsame⟩ := hpiece q' (hgroup group hgin q' hq')
      exact (hok p hp).within row (hsame ▸ hrow)

theorem mem_pieceBlocks {b : Block} (h : b ∈ pieceBlocks e frame role title pieces) :
    ∃ q ∈ pieces, ∃ role title, b = newBlock e.tokenizer frame
      [⟨q.text, isTableParagraph q.text, q.rows⟩] role title := by
  obtain ⟨i,hi,rfl⟩ := mem_mapIdx.mp h
  exact ⟨_,getElem_mem hi,_,_,rfl⟩

theorem splitWithoutAnchors_blocks (hne : paragraphs ≠ []) (hok : ∀ p ∈ paragraphs, p.Ok ids)
    (h : splitWithoutAnchors e c frame paragraphs role title = .ok blocks) :
    ∃ pieces, piecesOf e c paragraphs = .ok pieces ∧
      blocks = pieceBlocks e frame role title (packPieces e c [] 0 pieces) := by
  obtain ⟨pieces,hpieces,h⟩ := Results.bind_ok h
  rw [if_neg (packed_spec hne hok hpieces).1] at h
  exact ⟨pieces,hpieces,(ok.inj h).symm⟩

theorem splitLongBlock_fresh (hcap : 0 < c.targetMax)
    (hids : dedupPreservingOrder frame.blockids = cited) (hne : paragraphs ≠ [])
    (hok : ∀ p ∈ paragraphs, p.Ok ids)
    (h : splitLongBlock e c frame paragraphs role title = .ok blocks) :
    blocks ≠ [] ∧ (∀ b ∈ blocks, b.Fresh e.tokenizer ids cited) ∧ Covers paragraphs blocks := by
  revert hne hok
  refine splitLongBlock_induction (motive := fun paragraphs blocks => paragraphs ≠ [] →
    (∀ p ∈ paragraphs, p.Ok ids) → blocks ≠ [] ∧ (∀ b ∈ blocks, b.Fresh e.tokenizer ids cited) ∧
      Covers paragraphs blocks) hcap ?_ ?_ ?_ hids h
  · intro frame paragraphs role title hids _ hne hok
    refine ⟨cons_ne_nil _ _,?_,?_⟩
    · intro b hb
      rw [mem_singleton.mp hb]
      exact newBlock_fresh hids hne hok
    · intro p hp row hrow
      exact ⟨_,mem_singleton_self _,p,hp,hrow⟩
  · intro frame paragraphs role title blocks hids _ h hne hok
    obtain ⟨pieces,hpieces,rfl⟩ := splitWithoutAnchors_blocks hne hok h
    obtain ⟨hsome,hpacked,hcovers⟩ := packed_spec hne hok hpieces
    refine ⟨by simpa [pieceBlocks] using hsome,?_,?_⟩
    · intro b hb
      obtain ⟨q,hq,role,title,rfl⟩ := mem_pieceBlocks hb
      exact newBlock_fresh hids (cons_ne_nil _ _) (by simpa using hpacked q hq)
    · intro p hp row hrow
      obtain ⟨q,hq,hin⟩ := hcovers p hp row hrow
      obtain ⟨i,hi,rfl⟩ := mem_iff_getElem.mp hq
      exact ⟨_,mem_mapIdx.mpr ⟨i,hi,rfl⟩,_,mem_singleton_self _,hin⟩
  · intro pss parts hpss hparts hne hok
    have hslice : ∀ ps ∈ pss, ∀ p ∈ ps, p.Ok ids :=
      fun ps hps p hp => hok p (mem_flatten_of_mem hps hp)
    refine ⟨?_,?_,?_⟩
    · obtain ⟨p,hp⟩ := exists_mem_of_ne_nil _ hne
      obtain ⟨ps,hps,_⟩ := mem_flatten.mp hp
      obtain ⟨part,hpart,hin⟩ := exists_part_of_mem hparts hps
      obtain ⟨b,hb⟩ := exists_mem_of_ne_nil _ (hpart (hpss ps hps) (hslice ps hps)).1
      exact ne_nil_of_mem (hin b hb)
    · intro b hb
      obtain ⟨ps,hps,part,hpart,hin⟩ := exists_of_mem_flatten hparts hb
      exact (hpart (hpss ps hps) (hslice ps hps)).2.1 b hin
    · intro p hp row hrow
      obtain ⟨ps,hps,hp⟩ := mem_flatten.mp hp
      obtain ⟨part,hpart,hin⟩ := exists_part_of_mem hparts hps
      obtain ⟨b,hb,q,hq,hrow⟩ := (hpart (hpss ps hps) (hslice ps hps)).2.2 p hp row hrow
      exact ⟨b,hin b hb,q,hq,hrow⟩

end

end LightRAG.Chunking
