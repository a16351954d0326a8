import LightRAG.Chunking.AnchorSplitFacts
import LightRAG.Chunking.ParagraphSemantic

/-!
# Merge steps

HeadingGlue and LevelMerge change a list of blocks by merging two neighbours or a run of neighbours
into one block.
-/

namespace LightRAG.Chunking
open List Option

open Relation (ReflTransGen)

variable {τ α : Type}

/-- One merge; `ok` holds of the blocks that are merged and of what is made. -/
inductive MergeStep (e : Env τ α) (ok : List Block → Block → Prop) : List Block → List Block → Prop
  | pair (before : List Block) (left right : Block) (after : List Block) (role : Role) :
    ok [left, right] { mergedPair e.tokenizer left right with tableChunkRole := role } →
    MergeStep e ok (before ++ left :: right :: after)
      (before ++ { mergedPair e.tokenizer left right with tableChunkRole := role } :: after)
  | tail (before : List Block) (cur : Block) (run after : List Block) :
    ok (cur :: run) (absorbed e cur run) →
    MergeStep e ok (before ++ cur :: (run ++ after)) (before ++ absorbed e cur run :: after)

section

variable {e : Env τ α} {z : Targets} {level : ℤ} {ok : List Block → Block → Prop}
  {xs ys : List Block}

theorem MergeStep.cons (b : Block) (h : MergeStep e ok xs ys) :
    MergeStep e ok (b :: xs) (b :: ys) := by
  cases h with
  | pair before left right after role hok => exact .pair (b :: before) left right after role hok
  | tail before cur run after hok => exact .tail (b :: before) cur run after hok

theorem mergeSteps_cons (b : Block) (h : ReflTransGen (MergeStep e ok) xs ys) :
    ReflTransGen (MergeStep e ok) (b :: xs) (b :: ys) := by
  induction h with
  | refl => exact .refl
  | tail _ hstep ih => exact ih.tail (hstep.cons b)

theorem glueGroups_steps (cur : Block) (glued : Bool) (blocks : List Block) :
    ReflTransGen (MergeStep e fun _ _ => True) (cur :: blocks)
      ((glueGroups e cur glued blocks).map Prod.fst) := by
  induction blocks generalizing cur glued with
  | nil => exact .refl
  | cons next blocks ih =>
    rw [glueGroups]
    split
    · exact (ReflTransGen.single (.pair [] cur next blocks next.tableChunkRole trivial)).trans
        (ih _ _)
    · exact mergeSteps_cons cur (ih next false)

/-- Siblings under the same parents, or a block and one below it. -/
def Joins (e : Env τ α) (left right : Block) : Prop :=
  left.level = right.level ∧ sameParentPath left right = true ∧ right.isTitleBlock = false ∨
    left.level < right.level ∧ isDescendant e.isDigit left right = true

/-- What a merge of LevelMerge is accepted for: the first block takes in the others. -/
structure Fits (e : Env τ α) (z : Targets) (parts : List Block) (b : Block) : Prop where
  le : b.tokens ≤ z.targetMax
  several : 1 < parts.length
  plain : ∀ part ∈ parts, part.tableChunkRole = .none
  joins : ∀ cur ∈ parts.head?, ∀ next ∈ parts.tail, Joins e cur next
  title : ∀ cur ∈ parts.head?, b.isTitleBlock = cur.isTitleBlock
  role : b.tableChunkRole = .none

theorem fitting_some {b b' : Block} (h : fitting z b = some b') :
    b' = b ∧ b.tokens ≤ z.targetMax := by
  rw [fitting] at h
  split at h
  · next hle => exact ⟨(some.inj h).symm,hle⟩
  · exact nomatch h

theorem fitting_ite {p : Prop} [Decidable p] {b b' : Block}
    (h : (if p then fitting z b else none) = some b') : p ∧ b' = b ∧ b.tokens ≤ z.targetMax := by
  split at h
  · next hp => exact ⟨hp,fitting_some h⟩
  · exact nomatch h

theorem step_pair (done rest : List Block) {left right : Block}
    (hfits : Fits e z [left, right] (mergedPair e.tokenizer left right)) :
    MergeStep e (Fits e z) (done ++ left :: right :: rest)
      (done ++ mergedPair e.tokenizer left right :: rest) :=
  .pair done left right rest .none hfits

theorem tailRun_drop (level : ℤ) (cur : Block) (rest : List Block) :
    rest = tailRun level cur rest ++ rest.drop (tailRun level cur rest).length :=
  (prefix_iff_eq_append.mp (List.takeWhile_prefix _)).symm

theorem fits_pair {left right : Block} (hleft : left.tableChunkRole = .none)
    (hright : right.tableChunkRole = .none) (hjoins : Joins e left right)
    (hle : (mergedPair e.tokenizer left right).tokens ≤ z.targetMax) :
    Fits e z [left, right] (mergedPair e.tokenizer left right) where
  le := hle
  several := by simp
  plain := by simp [hleft,hright]
  joins := by simpa using hjoins
  title := by simp [mergedPair]
  role := rfl

theorem mergeForward_some {joins : Block → Block → Bool} {cur b : Block} {rest : List Block}
    (h : mergeForward e z joins cur rest = some b) :
    ∃ next after, rest = next :: after ∧ joins cur next = true ∧
      b = mergedPair e.tokenizer cur next ∧
      (mergedPair e.tokenizer cur next).tokens ≤ z.targetMax := by
  cases rest with
  | nil => exact nomatch h
  | cons next after =>
    obtain ⟨hjoins,hb,hle⟩ := fitting_ite h
    exact ⟨next,after,rfl,hjoins,hb,hle⟩

theorem mergeBackward_some {joins : Block → Block → Bool} {cur b : Block} {done : List Block}
    (h : mergeBackward e z joins cur done = some b) :
    ∃ prev, done = prev :: done.tail ∧ joins prev cur = true ∧
      b = mergedPair e.tokenizer prev cur ∧
      (mergedPair e.tokenizer prev cur).tokens ≤ z.targetMax := by
  cases done with
  | nil => exact nomatch h
  | cons prev earlier =>
    obtain ⟨hjoins,hb,hle⟩ := fitting_ite h
    exact ⟨prev,rfl,hjoins,hb,hle⟩

theorem absorbTail_some {cur b : Block} {rest : List Block}
    (h : absorbTail e z level cur rest = some b) :
    b = absorbed e cur (tailRun level cur rest) ∧
      Fits e z (cur :: tailRun level cur rest) (absorbed e cur (tailRun level cur rest)) := by
  rw [absorbTail] at h
  obtain ⟨hcond,hb,hle⟩ := fitting_ite h
  obtain ⟨hlevel,-,hrole,htitle,hpos,-⟩ := hcond
  have hrun : ∀ next ∈ tailRun level cur rest, next.level = level ∧
      next.tableChunkRole = .none ∧ next.isTitleBlock = false ∧ sameParentPath cur next = true := by
    intro next hnext
    simpa [and_assoc] using mem_takeWhile_imp hnext
  refine ⟨hb,hle,?_,?_,?_,?_,rfl⟩
  · rw [length_cons,Nat.lt_add_left_iff_pos,length_pos_iff]
    intro hnil
    rw [hnil] at hpos
    exact absurd hpos (by simp)
  · exact forall_mem_cons.mpr ⟨hrole,fun next hnext => (hrun next hnext).2.1⟩
  · intro first hfirst next hnext
    obtain rfl := some.inj hfirst
    obtain ⟨hsame,-,hplain,hpath⟩ := hrun next hnext
    exact .inl ⟨hlevel.trans hsame.symm,hpath,hplain⟩
  · intro first hfirst
    obtain rfl := some.inj hfirst
    exact htitle.symm

/-- What a round does at one block: it passes it over, merges it with a neighbour, or merges it with
the run after it. -/
inductive RoundStep (e : Env τ α) (z : Targets)
    (round : ℕ → List Block → List Block → List Block × Bool) (done : List Block) (cur : Block)
    (rest : List Block) : Prop
  | pass : round 0 done (cur :: rest) = round 0 (cur :: done) rest →
    RoundStep e z round done cur rest
  | forward (next : Block) (after : List Block) : rest = next :: after →
    Fits e z [cur, next] (mergedPair e.tokenizer cur next) →
    round 0 done (cur :: rest) =
      ((round 1 (mergedPair e.tokenizer cur next :: done) rest).1, true) →
    RoundStep e z round done cur rest
  | backward (prev : Block) : done = prev :: done.tail →
    Fits e z [prev, cur] (mergedPair e.tokenizer prev cur) →
    round 0 done (cur :: rest) =
      ((round 0 (mergedPair e.tokenizer prev cur :: done.tail) rest).1, true) →
    RoundStep e z round done cur rest
  | tail (run after : List Block) : rest = run ++ after →
    Fits e z (cur :: run) (absorbed e cur run) →
    round 0 done (cur :: rest) = ((round run.length (absorbed e cur run :: done) rest).1, true) →
    RoundStep e z round done cur rest

theorem phaseA_roundStep (done : List Block) (cur : Block) (rest : List Block) :
    RoundStep e z (phaseA e z level) done cur rest := by
  have hround := phaseA.eq_3 e z level done cur rest
  split at hround
  · next hcur =>
    split at hround
    · next b hforward =>
      obtain ⟨next,after,hrest,hjoins,rfl,hle⟩ := mergeForward_some hforward
      simp [joinsForward,canMerge] at hjoins
      obtain ⟨⟨⟨⟨hrole,hlevel⟩,htitle⟩,hrole'⟩,hpath⟩ := hjoins
      exact .forward next after hrest
        (fits_pair hrole hrole' (.inl ⟨hcur.2.1.trans hlevel.symm,hpath,htitle⟩) hle) hround
    · split at hround
      · next b hback =>
        obtain ⟨prev,hdone,hjoins,rfl,hle⟩ := mergeBackward_some hback
        simp [joinsBackward,canMerge] at hjoins
        obtain ⟨⟨⟨⟨⟨hrole,hlevel⟩,-⟩,hrole'⟩,-⟩,hpath⟩ := hjoins
        exact .backward prev hdone (fits_pair hrole' hrole
          (.inl ⟨hlevel.trans hcur.2.1.symm,hpath,hcur.2.2⟩) hle) hround
      · exact .pass hround
  · split at hround
    · next b htail =>
      obtain ⟨rfl,hfits⟩ := absorbTail_some htail
      exact .tail _ _ (tailRun_drop level cur rest) hfits hround
    · exact .pass hround

theorem phaseB_roundStep (done : List Block) (cur : Block) (rest : List Block) :
    RoundStep e z (phaseB e z level) done cur rest := by
  have hround := phaseB.eq_3 e z level done cur rest
  split at hround
  · next hcur =>
    split at hround
    · next b hforward =>
      obtain ⟨next,after,hrest,hjoins,rfl,hle⟩ := mergeForward_some hforward
      simp [absorbsForward,canMerge] at hjoins
      obtain ⟨⟨⟨⟨hrole,hlevel⟩,-⟩,hrole'⟩,hbelow⟩ := hjoins
      exact .forward next after hrest
        (fits_pair hrole hrole' (.inr ⟨hcur.2.trans_lt hlevel,hbelow⟩) hle) hround
    · split at hround
      · next b hback =>
        obtain ⟨prev,hdone,hjoins,rfl,hle⟩ := mergeBackward_some hback
        simp [absorbsBackward,canMerge] at hjoins
        obtain ⟨⟨⟨⟨hrole,hlevel⟩,hrole'⟩,-⟩,hbelow⟩ := hjoins
        exact .backward prev hdone (fits_pair hrole' hrole
          (.inr ⟨hlevel.trans_eq hcur.2.symm,hbelow⟩) hle) hround
      · exact .pass hround
  · exact .pass hround

/-- What makes a round of a phase: the end, the blocks already merged, and one block. -/
structure IsRound (e : Env τ α) (z : Targets)
    (round : ℕ → List Block → List Block → List Block × Bool) : Prop where
  nil : ∀ skip done, round skip done [] = (done.reverse, false)
  skip : ∀ skip done b rest, round (skip + 1) done (b :: rest) = round skip done rest
  step : ∀ done cur rest, RoundStep e z round done cur rest

theorem phaseA_isRound : IsRound e z (phaseA e z level) where
  nil skip done := by cases skip <;> rw [phaseA]
  skip _ _ _ _ := by rw [phaseA]
  step := phaseA_roundStep

theorem phaseB_isRound : IsRound e z (phaseB e z level) where
  nil skip done := by cases skip <;> rw [phaseB]
  skip _ _ _ _ := by rw [phaseB]
  step := phaseB_roundStep

section

variable {round : ℕ → List Block → List Block → List Block × Bool} (h : IsRound e z round)

include h

theorem round_steps (skip : ℕ) (done blocks : List Block) :
    ReflTransGen (MergeStep e (Fits e z)) (done.reverse ++ blocks.drop skip)
      (round skip done blocks).1 := by
  induction blocks generalizing skip done with
  | nil =>
    rw [h.nil,drop_nil,append_nil]
  | cons cur rest ih =>
    cases skip with
    | succ skip =>
      rw [h.skip,drop_succ_cons]
      exact ih skip done
    | zero =>
      rw [drop_zero]
      cases h.step done cur rest with
      | pass hpass =>
        rw [hpass]
        have hlater := ih 0 (cur :: done)
        rwa [reverse_cons,append_assoc,singleton_append,drop_zero] at hlater
      | forward next after hrest hfits hmerge =>
        rw [hmerge]
        have hlater := ih 1 (mergedPair e.tokenizer cur next :: done)
        rw [hrest,reverse_cons,append_assoc,singleton_append] at hlater
        rw [hrest]
        exact (ReflTransGen.single (step_pair done.reverse after hfits)).trans hlater
      | backward prev hdone hfits hmerge =>
        rw [hmerge]
        have hlater := ih 0 (mergedPair e.tokenizer prev cur :: done.tail)
        rw [reverse_cons,append_assoc,singleton_append,drop_zero] at hlater
        rw [hdone,reverse_cons,append_assoc,singleton_append,tail_cons]
        exact (ReflTransGen.single (step_pair done.tail.reverse rest hfits)).trans hlater
      | tail run after hrest hfits hmerge =>
        rw [hmerge]
        have hlater := ih run.length (absorbed e cur run :: done)
        rw [hrest,reverse_cons,append_assoc,singleton_append,drop_left] at hlater
        rw [hrest]
        exact (ReflTransGen.single (.tail done.reverse cur run after hfits)).trans hlater

theorem round_length (skip : ℕ) (done blocks : List Block) :
    (round skip done blocks).1.length + (round skip done blocks).2.toNat ≤
      done.length + (blocks.drop skip).length := by
  induction blocks generalizing skip done with
  | nil => simp [h.nil]
  | cons cur rest ih =>
    cases skip with
    | succ skip =>
      rw [h.skip,drop_succ_cons]
      exact ih skip done
    | zero =>
      rw [drop_zero,length_cons]
      cases h.step done cur rest with
      | pass hpass =>
        have hlater := ih 0 (cur :: done)
        rw [length_cons,drop_zero] at hlater
        rw [hpass]
        omega
      | forward next after hrest hfits hmerge =>
        have hlater := ih 1 (mergedPair e.tokenizer cur next :: done)
        rw [length_cons,length_drop] at hlater
        rw [hmerge]
        dsimp only [Bool.toNat_true]
        have hpos : 0 < rest.length := by simp [hrest]
        omega
      | backward prev hdone hfits hmerge =>
        have hlater := ih 0 (mergedPair e.tokenizer prev cur :: done.tail)
        rw [length_cons,length_tail,drop_zero] at hlater
        rw [hmerge]
        dsimp only [Bool.toNat_true]
        have hpos : 0 < done.length := by
          rw [hdone]
          exact Nat.zero_lt_succ _
        omega
      | tail run after hrest hfits hmerge =>
        have hlater := ih run.length (absorbed e cur run :: done)
        rw [length_cons,length_drop] at hlater
        rw [hmerge]
        dsimp only [Bool.toNat_true]
        have hrun := hfits.several
        have hlength : rest.length = run.length + after.length := by simp [hrest]
        rw [length_cons] at hrun
        omega

theorem phase_settles (blocks : List Block) :
    ∃ y, (round 0 [] y).2 = false ∧
      Stable.untilStable (round 0 []) blocks.length blocks = (round 0 [] y).1 := by
  apply @Stable.untilStable_settles _ _ List.length _ _ _ (Nat.le_refl _)
  intro xs hchanged
  have hlength := round_length h 0 [] xs
  rw [hchanged] at hlength
  simp at hlength
  omega

theorem phase_steps (fuel : ℕ) (blocks : List Block) :
    ReflTransGen (MergeStep e (Fits e z)) blocks
      (Stable.untilStable (round 0 []) fuel blocks) := by
  apply Stable.untilStable_related
  intro xs
  have hround := round_steps h 0 [] xs
  rwa [reverse_nil,nil_append,drop_zero] at hround

end

theorem mergeSmallBlocks_steps (e : Env τ α) (z : Targets) (blocks : List Block) :
    ReflTransGen (MergeStep e (Fits e z)) blocks (mergeSmallBlocks e z blocks) := by
  have hlevels : ∀ levels : List ℤ,
      ReflTransGen (MergeStep e (Fits e z)) blocks (levels.foldl (mergeLevel e z) blocks) := by
    intro levels
    induction levels generalizing blocks with
    | nil => exact .refl
    | cons level levels ih =>
      exact ((phase_steps phaseA_isRound _ _).trans (phase_steps phaseB_isRound _ _)).trans
        (ih (mergeLevel e z blocks level))
  rw [mergeSmallBlocks]
  split
  · exact .refl
  · exact hlevels _

end

end LightRAG.Chunking

/-!
## What merges keep

A merge keeps the paragraphs of a list of blocks and what their contents hold, the history of the
merges, and the order of the ids.
-/

namespace LightRAG.Chunking
open List

open Relation (ReflTransGen)

variable {τ α : Type}

/-- A block holds paragraphs that are not blank and name their rows; its content reads like them. -/
structure Block.Sound (t : Tokenizer τ) (b : Block) : Prop where
  ne_nil : b.paragraphs ≠ []
  notBlank : ∀ p ∈ b.paragraphs, isBlank p.text = false
  traced : ∀ p ∈ b.paragraphs, p.rows ≠ []
  reads : solid b.content = b.paragraphs.flatMap fun p => solid p.text
  tokens : b.tokens = t.countTokens b.content

/-- The ids of a block are the ids of the parts no tail absorption took, and a part has the ids of
its rows. -/
structure Block.Traced (b : Block) : Prop where
  rows : b.paragraphs.flatMap Paragraph.rows = b.parts.flatMap Part.rows
  within : ∀ q ∈ b.parts, ∀ row ∈ q.rows, row ∈ q.ids
  ids : ∀ id, id ∈ b.blockids ↔ ∃ q ∈ b.parts, q.swallowed = false ∧ id ∈ q.ids
  nonempty : ∀ q ∈ b.parts, [] ∉ q.ids
  nodup : b.blockids.Nodup

section

variable {e : Env τ α} {t : Tokenizer τ} {ids cited : List Str} {b left right cur : Block}
  {run : List Block} {role : Role}

theorem solid_joinParagraphs (paragraphs : List Paragraph) :
    solid (joinParagraphs paragraphs) = paragraphs.flatMap fun p => solid p.text := by
  rw [joinParagraphs,solid_joinLines,map_map,flatMap_def]
  rfl

theorem Block.Fresh.sound (h : b.Fresh t ids cited) : b.Sound t where
  ne_nil := h.ne_nil
  notBlank p hp := (h.paragraphs p hp).notBlank
  traced p hp := (h.paragraphs p hp).traced
  reads := by rw [h.content,solid_joinParagraphs]
  tokens := h.tokens

theorem Block.Sound.paragraphs_ok (h : b.Sound t) :
    ∀ p ∈ b.paragraphs, p.Ok (b.paragraphs.flatMap Paragraph.rows) := fun p hp =>
  ⟨h.notBlank p hp,h.traced p hp,fun _ hrow => mem_flatMap.mpr ⟨p,hp,hrow⟩⟩

theorem Block.Fresh.traced (h : b.Fresh t ids ids) (hids : dedupPreservingOrder ids = ids) :
    b.Traced where
  rows := by rw [h.parts,flatMap_cons,flatMap_nil,append_nil]
  within := by
    rw [h.parts]
    intro q hq row hrow
    rw [mem_singleton.mp hq] at hrow ⊢
    obtain ⟨p,hp,hin⟩ := mem_flatMap.mp hrow
    exact (h.paragraphs p hp).within row hin
  ids id := by simp [h.parts,h.blockids]
  nonempty := by
    rw [h.parts]
    intro q hq hnil
    rw [mem_singleton.mp hq,← hids] at hnil
    exact (mem_dedup.mp hnil).1 rfl
  nodup := by
    rw [h.blockids,← hids]
    exact nodup_dedup ids

theorem solid_twoNewlines : solid ['\n', '\n'] = [] := by decide

theorem solid_join (a b : Str) : solid (a ++ '\n' :: '\n' :: b) = solid a ++ solid b := by
  rw [show a ++ '\n' :: '\n' :: b = a ++ (['\n', '\n'] ++ b) from rfl,solid_append,solid_append,
    solid_twoNewlines,nil_append]

theorem pair_sound (hl : left.Sound e.tokenizer) (hr : right.Sound e.tokenizer) :
    Block.Sound e.tokenizer { mergedPair e.tokenizer left right with tableChunkRole := role } where
  ne_nil := by simp [mergedPair,hl.ne_nil]
  notBlank p hp := (mem_append.mp hp).elim (hl.notBlank p) (hr.notBlank p)
  traced p hp := (mem_append.mp hp).elim (hl.traced p) (hr.traced p)
  reads := by
    simp only [mergedPair]
    rw [solid_join,hl.reads,hr.reads,flatMap_append]
  tokens := rfl

theorem pair_traced (hl : left.Traced) (hr : right.Traced) :
    Block.Traced { mergedPair e.tokenizer left right with tableChunkRole := role } where
  rows := by
    simp only [mergedPair]
    rw [flatMap_append,flatMap_append,hl.rows,hr.rows]
  within q hq := (mem_append.mp hq).elim (hl.within q) (hr.within q)
  ids id := by
    simp only [mergedPair]
    rw [mem_dedup,mem_append,hl.ids,hr.ids]
    constructor
    · rintro ⟨_,⟨q,hq,hid⟩ | ⟨q,hq,hid⟩⟩
      · exact ⟨q,mem_append_left _ hq,hid⟩
      · exact ⟨q,mem_append_right _ hq,hid⟩
    · rintro ⟨q,hq,hid⟩
      rcases mem_append.mp hq with hq | hq
      · exact ⟨fun hnil => hl.nonempty q hq (hnil ▸ hid.2),.inl ⟨q,hq,hid⟩⟩
      · exact ⟨fun hnil => hr.nonempty q hq (hnil ▸ hid.2),.inr ⟨q,hq,hid⟩⟩
  nonempty q hq := (mem_append.mp hq).elim (hl.nonempty q) (hr.nonempty q)
  nodup := nodup_dedup _

theorem absorbed_content (cur : Block) (run : List Block) :
    solid (absorbed e cur run).content =
      solid cur.content ++ run.flatMap fun b => solid b.content := by
  have hfold : ∀ text : Str, solid (run.foldl (fun text b => text ++ '\n' :: '\n' :: b.content)
      text) = solid text ++ run.flatMap fun b => solid b.content := by
    induction run with
    | nil =>
      intro text
      simp
    | cons b run ih =>
      intro text
      rw [foldl_cons,ih,solid_join,flatMap_cons,append_assoc]
  exact hfold cur.content

theorem absorbed_sound (hcur : cur.Sound e.tokenizer) (hrun : ∀ b ∈ run, b.Sound e.tokenizer) :
    (absorbed e cur run).Sound e.tokenizer where
  ne_nil := by simp [absorbed,hcur.ne_nil]
  notBlank p hp := by
    rcases mem_append.mp hp with hp | hp
    · exact hcur.notBlank p hp
    · obtain ⟨b,hb,hp⟩ := mem_flatMap.mp hp
      exact (hrun b hb).notBlank p hp
  traced p hp := by
    rcases mem_append.mp hp with hp | hp
    · exact hcur.traced p hp
    · obtain ⟨b,hb,hp⟩ := mem_flatMap.mp hp
      exact (hrun b hb).traced p hp
  reads := by
    rw [absorbed_content,hcur.reads]
    simp only [absorbed,flatMap_append,flatMap_assoc]
    congr 1
    exact flatMap_congr fun b hb => (hrun b hb).reads
  tokens := rfl

theorem mem_absorbed_parts {q : Part} (hq : q ∈ (absorbed e cur run).parts) :
    ∃ b ∈ cur :: run, ∃ p ∈ b.parts, q = { p with swallowed := true } := by
  obtain ⟨b,hb,hq⟩ := mem_flatMap.mp hq
  obtain ⟨p,hp,rfl⟩ := mem_map.mp hq
  exact ⟨b,hb,p,hp,rfl⟩

theorem absorbed_traced (hcur : cur.Traced) (hrun : ∀ b ∈ run, b.Traced) :
    (absorbed e cur run).Traced := by
  have hall : ∀ b ∈ cur :: run, b.Traced := by
    intro b hb
    rcases mem_cons.mp hb with rfl | hb
    · exact hcur
    · exact hrun b hb
  refine ⟨?_,?_,?_,?_,nodup_nil⟩
  · have hrows : (absorbed e cur run).parts.flatMap Part.rows =
        (cur :: run).flatMap fun b => b.parts.flatMap Part.rows := by
      simp only [absorbed,flatMap_assoc,flatMap_map]
    have hparas : (absorbed e cur run).paragraphs.flatMap Paragraph.rows =
        (cur :: run).flatMap fun b => b.paragraphs.flatMap Paragraph.rows := by
      simp only [absorbed,flatMap_append,flatMap_assoc,flatMap_cons]
    rw [hrows,hparas]
    exact flatMap_congr fun b hb => (hall b hb).rows
  · intro q hq row hrow
    obtain ⟨b,hb,p,hp,rfl⟩ := mem_absorbed_parts hq
    exact (hall b hb).within p hp row hrow
  · intro id
    constructor
    · exact fun h => nomatch h
    · rintro ⟨q,hq,hfresh,_⟩
      obtain ⟨b,hb,p,hp,rfl⟩ := mem_absorbed_parts hq
      exact nomatch hfresh
  · intro q hq
    obtain ⟨b,hb,p,hp,rfl⟩ := mem_absorbed_parts hq
    exact (hall b hb).nonempty p hp

end

section

variable {e : Env τ α} {ok : List Block → Block → Prop} {xs ys : List Block}

structure Mergeable (e : Env τ α) (good : Block → Prop) : Prop where
  pair : ∀ {left right role}, good left → good right →
    good { mergedPair e.tokenizer left right with tableChunkRole := role }
  tail : ∀ {cur run}, good cur → (∀ b ∈ run, good b) → good (absorbed e cur run)

theorem mergeable_sound : Mergeable e (Block.Sound e.tokenizer) := ⟨pair_sound,absorbed_sound⟩

theorem mergeable_traced : Mergeable e Block.Traced := ⟨pair_traced,absorbed_traced⟩

theorem MergeStep.keeps {good : Block → Prop} (hgood : Mergeable e good)
    (h : MergeStep e ok xs ys) (hxs : ∀ b ∈ xs, good b) : ∀ b ∈ ys, good b := by
  cases h with
  | pair before left right after role hok =>
    intro b hb
    rcases mem_append.mp hb with hb | hb
    · exact hxs b (mem_append_left _ hb)
    · rcases mem_cons.mp hb with rfl | hb
      · exact hgood.pair (hxs left (by simp)) (hxs right (by simp))
      · exact hxs b (by simp [hb])
  | tail before cur run after hok =>
    intro b hb
    rcases mem_append.mp hb with hb | hb
    · exact hxs b (mem_append_left _ hb)
    · rcases mem_cons.mp hb with rfl | hb
      · exact hgood.tail (hxs cur (by simp)) fun b hb => hxs b (by simp [hb])
      · exact hxs b (by simp [hb])

theorem mergeSteps_keep {good : Block → Prop} (hgood : Mergeable e good)
    (h : ReflTransGen (MergeStep e ok) xs ys) (hxs : ∀ b ∈ xs, good b) : ∀ b ∈ ys, good b := by
  induction h with
  | refl => exact hxs
  | tail _ hstep ih => exact hstep.keeps hgood ih

theorem MergeStep.paragraphs (h : MergeStep e ok xs ys) :
    ys.flatMap Block.paragraphs = xs.flatMap Block.paragraphs := by
  cases h with
  | pair before left right after role hok =>
    simp only [flatMap_append,flatMap_cons,mergedPair,append_assoc]
  | tail before cur run after hok =>
    simp only [flatMap_append,flatMap_cons,absorbed,append_assoc]

theorem mergeSteps_paragraphs (h : ReflTransGen (MergeStep e ok) xs ys) :
    ys.flatMap Block.paragraphs = xs.flatMap Block.paragraphs := by
  induction h with
  | refl => rfl
  | tail _ hstep ih => rw [hstep.paragraphs,ih]

end

end LightRAG.Chunking
