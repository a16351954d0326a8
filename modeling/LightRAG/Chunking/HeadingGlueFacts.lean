import LightRAG.Chunking.MergeSteps

/-!
# The order of the ids

The ids of neighbours follow each other in the document: what the later one adds comes after all the
earlier one has.
-/

namespace LightRAG.Chunking
open List

open Relation (ReflTransGen)

variable {τ α : Type}

section

variable {place : Str → ℕ} {u v w values seen : List Str}

def Ascending (place : Str → ℕ) (ids : List Str) : Prop :=
  ids.Pairwise fun a b => place a < place b

/-- The new ids of `v` come after the ids of `u`. -/
def Follows (place : Str → ℕ) (u v : List Str) : Prop :=
  ∀ y ∈ v, y ∉ u → ∀ x ∈ u, place x < place y

theorem follows_self : Follows place u u := fun _ hy hnew => absurd hy hnew

theorem Follows.append_left (hw : ∀ id ∈ w, id ≠ []) (hu : Follows place u w)
    (hv : Follows place v w) : Follows place (dedupPreservingOrder (u ++ v)) w := by
  intro y hy hnew x hx
  rw [mem_dedup,not_and,mem_append,not_or] at hnew
  obtain ⟨hnu,hnv⟩ := hnew (hw y hy)
  rcases mem_append.mp (mem_dedup.mp hx).2 with hx | hx
  · exact hu y hy hnu x hx
  · exact hv y hy hnv x hx

theorem Follows.append_right (hu : Follows place w u) (hv : Follows place w v) :
    Follows place w (dedupPreservingOrder (u ++ v)) := by
  intro y hy
  rcases mem_append.mp (mem_dedup.mp hy).2 with hy | hy
  · exact hu y hy
  · exact hv y hy

theorem dedupAfter_append (hnd : u.Nodup) (hne : ∀ id ∈ u, id ≠ []) (hnew : ∀ id ∈ u, id ∉ seen)
    (v : List Str) : dedupAfter seen (u ++ v) = u ++ dedupAfter (u.reverse ++ seen) v := by
  induction u generalizing seen with
  | nil => rfl
  | cons a u ih =>
    obtain ⟨ha,hnd⟩ := nodup_cons.mp hnd
    rw [cons_append,dedupAfter,if_pos ⟨hne a mem_cons_self,hnew a mem_cons_self⟩,
      ih hnd (fun id hid => hne id (mem_cons_of_mem a hid))]
    · rw [cons_append,reverse_cons,append_assoc,singleton_append]
    · intro id hid hin
      rcases mem_cons.mp hin with rfl | hin
      · exact ha hid
      · exact hnew id (mem_cons_of_mem a hid) hin

theorem dedupAfter_sublist : (dedupAfter seen values).Sublist values := by
  induction values generalizing seen with
  | nil => exact List.Sublist.slnil
  | cons v values ih =>
    rw [dedupAfter]
    split
    · exact ih.cons_cons v
    · exact ih.cons v

theorem Ascending.append (hu : Ascending place u) (hv : Ascending place v) (hnd : u.Nodup)
    (hne : ∀ id ∈ u, id ≠ []) (h : Follows place u v) :
    Ascending place (dedupPreservingOrder (u ++ v)) := by
  rw [dedupPreservingOrder,dedupAfter_append hnd hne (by simp)]
  refine pairwise_append.mpr ⟨hu,hv.sublist dedupAfter_sublist,?_⟩
  intro x hx y hy
  obtain ⟨_,hnew,hy⟩ := mem_dedupAfter.mp hy
  exact h y hy (by simpa using hnew) x hx

end

/-- The blocks carry distinct ids in document order and follow each other. -/
structure InOrder (place : Str → ℕ) (blocks : List Block) : Prop where
  nodup : ∀ b ∈ blocks, b.blockids.Nodup ∧ ∀ id ∈ b.blockids, id ≠ []
  ascending : ∀ b ∈ blocks, Ascending place b.blockids
  follows : blocks.Pairwise fun a b => Follows place a.blockids b.blockids

section

variable {e : Env τ α} {ok : List Block → Block → Prop} {place : Str → ℕ}
  {xs ys before after blocks : List Block}
  {b left right : Block}

theorem InOrder.replace (part : List Block) (h : InOrder place (before ++ (part ++ after)))
    (hnodup : b.blockids.Nodup ∧ ∀ id ∈ b.blockids, id ≠ []) (hasc : Ascending place b.blockids)
    (hbefore : ∀ a ∈ before, (∀ c ∈ part, Follows place a.blockids c.blockids) →
      Follows place a.blockids b.blockids)
    (hafter : ∀ a ∈ after, (∀ c ∈ part, Follows place c.blockids a.blockids) →
      Follows place b.blockids a.blockids) :
    InOrder place (before ++ b :: after) := by
  obtain ⟨hleft,hrest,hcross⟩ := pairwise_append.mp h.follows
  obtain ⟨_,hright,hinner⟩ := pairwise_append.mp hrest
  have hmem : ∀ {p : Block → Prop}, (∀ a ∈ before ++ (part ++ after), p a) → p b →
      ∀ a ∈ before ++ b :: after, p a := by
    intro p hp hb a ha
    rcases mem_append.mp ha with ha | ha
    · exact hp a (mem_append_left _ ha)
    · rcases mem_cons.mp ha with rfl | ha
      · exact hb
      · exact hp a (by simp [ha])
  refine ⟨hmem h.nodup hnodup,hmem h.ascending hasc,?_⟩
  refine pairwise_append.mpr ⟨hleft,pairwise_cons.mpr ⟨?_,hright⟩,?_⟩
  · intro a ha
    exact hafter a ha fun c hc => hinner c hc a ha
  · intro a ha c hc
    rcases mem_cons.mp hc with rfl | hc
    · exact hbefore a ha fun c hc => hcross a ha c (mem_append_left _ hc)
    · exact hcross a ha c (mem_append_right _ hc)

theorem MergeStep.inOrder (h : MergeStep e ok xs ys) (hxs : InOrder place xs) :
    InOrder place ys := by
  cases h with
  | pair before left right after role hok =>
    have hl := hxs.nodup left (by simp)
    have hfollow : Follows place left.blockids right.blockids := by
      have hrest := (pairwise_append.mp hxs.follows).2.1
      exact (pairwise_cons.mp hrest).1 right mem_cons_self
    refine InOrder.replace [left, right] hxs ?_ ?_ ?_ ?_
    · exact ⟨nodup_dedup _,fun id hid => (mem_dedup.mp hid).1⟩
    · exact (hxs.ascending left (by simp)).append (hxs.ascending right (by simp)) hl.1 hl.2 hfollow
    · intro a _ hpart
      exact (hpart left (by simp)).append_right (hpart right (by simp))
    · intro a ha hpart
      exact Follows.append_left (hxs.nodup a (by simp [ha])).2 (hpart left (by simp))
        (hpart right (by simp))
  | tail before cur run after hok =>
    refine InOrder.replace (cur :: run) hxs ?_ List.Pairwise.nil ?_ ?_
    · exact ⟨nodup_nil,fun id hid => nomatch hid⟩
    · exact fun _ _ _ y hy => nomatch hy
    · exact fun _ _ _ y _ _ x hx => nomatch hx

theorem mergeSteps_inOrder (h : ReflTransGen (MergeStep e ok) xs ys) (hxs : InOrder place xs) :
    InOrder place ys := by
  induction h with
  | refl => exact hxs
  | tail _ hstep ih => exact hstep.inOrder ih

theorem InOrder.split {parts : List (List Block)} (hxs : InOrder place xs)
    (h : List.Forall₂ (fun b part => ∀ b' ∈ part, b'.blockids = b.blockids) xs parts) :
    InOrder place parts.flatten := by
  have hsource : ∀ b' ∈ parts.flatten, ∃ b ∈ xs, b'.blockids = b.blockids := by
    intro b' hb'
    obtain ⟨b,hb,part,hpart,hin⟩ := exists_of_mem_flatten h hb'
    exact ⟨b,hb,hpart b' hin⟩
  refine ⟨?_,?_,?_⟩
  · intro b' hb'
    obtain ⟨b,hb,hsame⟩ := hsource b' hb'
    rw [hsame]
    exact hxs.nodup b hb
  · intro b' hb'
    obtain ⟨b,hb,hsame⟩ := hsource b' hb'
    rw [hsame]
    exact hxs.ascending b hb
  · have hfollows := hxs.follows
    clear hsource hxs
    induction h with
    | nil => exact List.Pairwise.nil
    | @cons b part xs parts hpart hrest ih =>
      obtain ⟨hfirst,hlater⟩ := pairwise_cons.mp hfollows
      refine pairwise_append.mpr ⟨?_,ih hlater,?_⟩
      · apply pairwise_of_forall_mem_list
        intro a ha c hc
        rw [hpart a ha,hpart c hc]
        exact follows_self
      · intro a ha c hc
        obtain ⟨b',hb',part',hpart',hin⟩ := exists_of_mem_flatten hrest hc
        rw [hpart a ha,hpart' c hin]
        exact hfirst b' hb'

end

end LightRAG.Chunking

/-!
## What gluing headings keeps

A glued group over the cap is split again; its blocks carry the ids of the whole group.
-/

namespace LightRAG.Chunking
open List Except

open Relation (ReflTransGen)

variable {τ α : Type}

section

variable {e : Env τ α} {c : Caps} {block first cur next b : Block} {blocks part : List Block}
  {paragraphs : List Paragraph} {ids cited : List Str}

theorem heading_append_body (paragraphs : List Paragraph) :
    headingPrefix paragraphs ++ bodyOf paragraphs = paragraphs := takeWhile_append_dropWhile

theorem mem_of_mem_heading {p : Paragraph} (h : p ∈ headingPrefix paragraphs) : p ∈ paragraphs :=
  (takeWhile_sublist _).subset h

theorem mem_of_mem_body {p : Paragraph} (h : p ∈ bodyOf paragraphs) : p ∈ paragraphs :=
  (dropWhile_sublist _).subset h

theorem reducedMax_pos : 0 < reducedMax e c paragraphs :=
  Nat.lt_of_lt_of_le Nat.one_pos (Nat.le_max_right _ 1)

theorem dedup_orElse (ids : List Str) :
    dedupPreservingOrder (orElse (dedupPreservingOrder ids) ids) = dedupPreservingOrder ids := by
  rw [orElse]
  split
  · rfl
  · exact dedup_dedup ids

theorem rebuilt_fresh (hok : ∀ p ∈ block.paragraphs, p.Ok ids)
    (hfirst : first.Fresh e.tokenizer ids (dedupPreservingOrder block.blockids)) :
    (rebuilt e block first).Fresh e.tokenizer ids (dedupPreservingOrder block.blockids) := by
  refine newBlock_fresh ?_ ?_ ?_
  · rw [hfirst.blockids,dedup_orElse]
  · simp [hfirst.ne_nil]
  · intro p hp
    rcases mem_append.mp hp with hp | hp
    · exact hok p (mem_of_mem_heading hp)
    · exact hfirst.paragraphs p hp

theorem splitToCap_fresh (hcap : 0 < c.targetMax) (hne : block.paragraphs ≠ [])
    (hok : ∀ p ∈ block.paragraphs, p.Ok ids) (h : splitToCap e c block = .ok part) :
    part ≠ [] ∧ (∀ b ∈ part, b.Fresh e.tokenizer ids (dedupPreservingOrder block.blockids)) ∧
    Covers block.paragraphs part := by
  rw [splitToCap] at h
  generalize hcited : dedupPreservingOrder block.blockids = cited
  split at h
  · next hkeeps =>
    have hbody : bodyOf block.paragraphs ≠ [] := by
      simp only [keepsPrefix,Bool.and_eq_true,decide_eq_true_eq] at hkeeps
      exact hkeeps.1.2
    obtain ⟨pieces,hpieces,h⟩ := Results.bind_ok h
    obtain ⟨hsome,hfresh,hcovers⟩ := splitLongBlock_fresh hcap hcited hbody
      (fun p hp => hok p (mem_of_mem_body hp)) hpieces
    -- the rows of the headings are in the rebuilt block, those of the body in the pieces
    have hassemble : ∀ {first : Block} {rest : List Block}, first.Fresh e.tokenizer ids cited →
        (∀ b ∈ rest, b.Fresh e.tokenizer ids cited) →
        Covers (bodyOf block.paragraphs) (first :: rest) →
        rebuilt e block first :: rest ≠ [] ∧
        (∀ b ∈ rebuilt e block first :: rest, b.Fresh e.tokenizer ids cited) ∧
        Covers block.paragraphs (rebuilt e block first :: rest) := by
      intro first rest hfirst hrest hcov
      refine ⟨cons_ne_nil _ _,?_,?_⟩
      · intro b hb
        rcases mem_cons.mp hb with rfl | hb
        · exact hcited ▸ rebuilt_fresh hok (hcited ▸ hfirst)
        · exact hrest b hb
      · intro p hp row hrow
        rw [← heading_append_body block.paragraphs] at hp
        rcases mem_append.mp hp with hp | hp
        · exact ⟨_,mem_cons_self,p,mem_append_left _ hp,hrow⟩
        · obtain ⟨b,hb,q,hq,hrow⟩ := hcov p hp row hrow
          rcases mem_cons.mp hb with rfl | hb
          · exact ⟨_,mem_cons_self,q,mem_append_right _ hq,hrow⟩
          · exact ⟨b,mem_cons_of_mem _ hb,q,hq,hrow⟩
    cases pieces with
    | nil => exact absurd rfl hsome
    | cons first rest =>
      have hfirst := hfresh first mem_cons_self
      have hrest : ∀ b ∈ rest, b.Fresh e.tokenizer ids cited :=
        fun b hb => hfresh b (mem_cons_of_mem first hb)
      dsimp only at h
      split at h
      · obtain ⟨again,hagain,h⟩ := Results.bind_ok h
        have hagainIds : dedupPreservingOrder (orElse first.blockids block.blockids) = cited := by
          rw [hfirst.blockids,← hcited,dedup_orElse]
        obtain ⟨hsome',hfresh',hcovers'⟩ := splitLongBlock_fresh reducedMax_pos hagainIds
          hfirst.ne_nil hfirst.paragraphs hagain
        cases again with
        | nil => exact absurd rfl hsome'
        | cons first' more =>
          obtain rfl := ok.inj h
          apply hassemble (hfresh' first' mem_cons_self)
          · intro b hb
            rcases mem_append.mp hb with hb | hb
            · exact hfresh' b (mem_cons_of_mem first' hb)
            · exact hrest b hb
          · intro p hp row hrow
            obtain ⟨b,hb,q,hq,hrow⟩ := hcovers p hp row hrow
            rcases mem_cons.mp hb with rfl | hb
            · obtain ⟨b',hb',q',hq',hrow'⟩ := hcovers' q hq row hrow
              have hin : b' ∈ (first' :: more) ++ rest := mem_append_left _ hb'
              exact ⟨b',hin,q',hq',hrow'⟩
            · exact ⟨b,by simp [hb],q,hq,hrow⟩
      · obtain rfl := ok.inj h
        exact hassemble hfirst hrest hcovers
  · exact splitLongBlock_fresh hcap hcited hne hok h

structure Block.Whole (t : Tokenizer τ) (b : Block) : Prop where
  sound : b.Sound t
  traced : b.Traced
  unswallowed : ∀ q ∈ b.parts, q.swallowed = false
  ids_ne_nil : b.blockids ≠ []

theorem Block.Whole.dedup {t : Tokenizer τ} (h : b.Whole t) :
    dedupPreservingOrder b.blockids = b.blockids := by
  apply dedup_of_nodup h.traced.nodup
  rintro id hid rfl
  obtain ⟨q,hq,_,hnil⟩ := (h.traced.ids []).mp hid
  exact h.traced.nonempty q hq hnil

theorem Block.Whole.paragraphs_ok {t : Tokenizer τ} (h : b.Whole t) :
    ∀ p ∈ b.paragraphs, p.Ok b.blockids := by
  intro p hp
  refine ⟨h.sound.notBlank p hp,h.sound.traced p hp,?_⟩
  intro row hrow
  have hin : row ∈ b.paragraphs.flatMap Paragraph.rows := mem_flatMap.mpr ⟨p,hp,hrow⟩
  rw [h.traced.rows] at hin
  obtain ⟨q,hq,hrow⟩ := mem_flatMap.mp hin
  exact (h.traced.ids row).mpr ⟨q,hq,h.unswallowed q hq,h.traced.within q hq row hrow⟩

theorem Block.Fresh.whole {t : Tokenizer τ} (h : b.Fresh t ids ids)
    (hids : dedupPreservingOrder ids = ids) (hne : ids ≠ []) : b.Whole t where
  sound := h.sound
  traced := h.traced hids
  unswallowed := by
    rw [h.parts]
    intro q hq
    rw [mem_singleton.mp hq]
  ids_ne_nil := by rwa [h.blockids]

theorem gluedPair_whole (hcur : cur.Whole e.tokenizer) (hnext : next.Whole e.tokenizer) :
    (gluedPair e cur next).Whole e.tokenizer where
  sound := pair_sound hcur.sound hnext.sound
  traced := pair_traced hcur.traced hnext.traced
  unswallowed q hq := (mem_append.mp hq).elim (hcur.unswallowed q) (hnext.unswallowed q)
  ids_ne_nil := by
    obtain ⟨id,hid⟩ := exists_mem_of_ne_nil _ hcur.ids_ne_nil
    have hne : id ≠ [] := by
      rw [← hcur.dedup] at hid
      exact (mem_dedup.mp hid).1
    exact ne_nil_of_mem (mem_dedup.mpr ⟨hne,mem_append_left _ hid⟩)

theorem glueGroups_whole {glued : Bool} (hcur : cur.Whole e.tokenizer)
    (hblocks : ∀ b ∈ blocks, b.Whole e.tokenizer) :
    ∀ g ∈ glueGroups e cur glued blocks, g.1.Whole e.tokenizer := by
  induction blocks generalizing cur glued with
  | nil => simpa [glueGroups] using hcur
  | cons next blocks ih =>
    have hnext := hblocks next mem_cons_self
    have hrest := fun b hb => hblocks b (mem_cons_of_mem next hb)
    rw [glueGroups]
    split
    · exact ih (gluedPair_whole hcur hnext) hrest
    · intro g hg
      rcases mem_cons.mp hg with rfl | hg
      · exact hcur
      · exact ih hnext hrest g hg

theorem emit_whole {glued : Bool} (hcap : 0 < c.targetMax) (hblock : block.Whole e.tokenizer)
    (h : emit e c glued block = .ok part) :
    (∀ b ∈ part, b.Whole e.tokenizer ∧ b.blockids = block.blockids) ∧
    Covers block.paragraphs part := by
  rw [emit] at h
  split at h
  · obtain ⟨_,hfresh,hcovers⟩ := splitToCap_fresh hcap hblock.sound.ne_nil hblock.paragraphs_ok h
    rw [hblock.dedup] at hfresh
    refine ⟨?_,hcovers⟩
    intro b hb
    exact ⟨(hfresh b hb).whole hblock.dedup hblock.ids_ne_nil,(hfresh b hb).blockids⟩
  · obtain rfl := ok.inj h
    refine ⟨by simpa using hblock,?_⟩
    intro p hp row hrow
    exact ⟨block,mem_singleton_self block,p,hp,hrow⟩

def groupsOf (e : Env τ α) : List Block → List (Block × Bool)
  | [] => []
  | b :: blocks => glueGroups e b false blocks

theorem groupsOf_steps (blocks : List Block) :
    ReflTransGen (MergeStep e fun _ _ => True) blocks ((groupsOf e blocks).map Prod.fst) := by
  cases blocks with
  | nil => exact .refl
  | cons b blocks => exact glueGroups_steps b false blocks

theorem glue_emits (h : glueHeadingOnlyBlocks e c blocks = .ok part) :
    ∃ parts, List.Forall₂ (fun g part => emit e c g.2 g.1 = .ok part) (groupsOf e blocks) parts ∧
      part = parts.flatten := by
  rw [glueHeadingOnlyBlocks.eq_def] at h
  split at h
  · exact ⟨[],.nil,(ok.inj h).symm⟩
  · next b =>
    exact ⟨[[b]],.cons (by simp [emit]) .nil,(ok.inj h).symm⟩
  · obtain ⟨parts,hparts,h⟩ := Results.bind_ok h
    exact ⟨parts,Results.mapM_ok hparts,(ok.inj h).symm⟩

theorem groupsOf_sound (hblocks : ∀ b ∈ blocks, b.Sound e.tokenizer) :
    ∀ g ∈ groupsOf e blocks, g.1.Sound e.tokenizer := fun _ hg =>
  mergeSteps_keep mergeable_sound (groupsOf_steps blocks) hblocks _ (mem_map_of_mem hg)

theorem emit_sound {glued : Bool} (hcap : 0 < c.targetMax) (hblock : block.Sound e.tokenizer)
    (h : emit e c glued block = .ok part) : ∀ b ∈ part, b.Sound e.tokenizer := by
  rw [emit] at h
  split at h
  · intro b hb
    exact ((splitToCap_fresh hcap hblock.ne_nil hblock.paragraphs_ok h).2.1 b hb).sound
  · obtain rfl := ok.inj h
    simpa using hblock

theorem glue_sound (hcap : 0 < c.targetMax) (hblocks : ∀ b ∈ blocks, b.Sound e.tokenizer)
    (h : glueHeadingOnlyBlocks e c blocks = .ok part) : ∀ b ∈ part, b.Sound e.tokenizer := by
  obtain ⟨parts,hparts,rfl⟩ := glue_emits h
  intro b hb
  obtain ⟨g,hg,part,hemit,hin⟩ := exists_of_mem_flatten hparts hb
  exact emit_sound hcap (groupsOf_sound hblocks g hg) hemit b hin

theorem glue_whole {place : Str → ℕ} (hcap : 0 < c.targetMax)
    (hblocks : ∀ b ∈ blocks, b.Whole e.tokenizer) (horder : InOrder place blocks)
    (h : glueHeadingOnlyBlocks e c blocks = .ok part) :
    (∀ b ∈ part, b.Whole e.tokenizer) ∧ InOrder place part ∧
    Covers (blocks.flatMap Block.paragraphs) part := by
  obtain ⟨parts,hparts,rfl⟩ := glue_emits h
  have hgroups : ∀ g ∈ groupsOf e blocks, g.1.Whole e.tokenizer := by
    cases blocks with
    | nil => simp [groupsOf]
    | cons b blocks =>
      exact glueGroups_whole (hblocks b mem_cons_self)
        fun b' hb' => hblocks b' (mem_cons_of_mem b hb')
  have hsteps := groupsOf_steps (e := e) blocks
  have hemits := (List.forall₂_and_left _ _).mpr ⟨hgroups,hparts⟩
  refine ⟨?_,?_,?_⟩
  · intro b' hb'
    obtain ⟨g,_,part,⟨hwhole,hemit⟩,hin⟩ := exists_of_mem_flatten hemits hb'
    exact ((emit_whole hcap hwhole hemit).1 b' hin).1
  · apply (mergeSteps_inOrder hsteps horder).split
    rw [List.forall₂_map_left_iff]
    apply hemits.imp
    intro g part hpart b' hb'
    exact ((emit_whole hcap hpart.1 hpart.2).1 b' hb').2
  · intro p hp row hrow
    rw [← mergeSteps_paragraphs hsteps,flatMap_map] at hp
    obtain ⟨g,hg,hp⟩ := mem_flatMap.mp hp
    obtain ⟨part,hpart,hin⟩ := exists_part_of_mem hemits hg
    obtain ⟨b',hb',q,hq,hrow⟩ := (emit_whole hcap hpart.1 hpart.2).2 p hp row hrow
    exact ⟨b',hin b' hb',q,hq,hrow⟩

end

end LightRAG.Chunking
