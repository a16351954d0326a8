import LightRAG.Chunking.TokenCap

/-!
# Runs of LevelMerge

Each block that LevelMerge leaves is made of consecutive blocks of its input, by merges of a block
with its siblings or with blocks below it.
-/

namespace LightRAG.Chunking
open List

open Relation (ReflTransGen)

variable {τ α : Type}

/-- The merges that make one block of a run of blocks. -/
inductive Fusion (e : Env τ α) (z : Targets) : List Block → Block → Prop
  | single (b : Block) : Fusion e z [b] b
  | pair {xs ys : List Block} {left right : Block} : Fusion e z xs left → Fusion e z ys right →
    Fits e z [left, right] (mergedPair e.tokenizer left right) →
    Fusion e z (xs ++ ys) (mergedPair e.tokenizer left right)
  | tail {xs : List Block} {cur : Block} (later : List (List Block × Block)) : Fusion e z xs cur →
    (∀ p ∈ later, Fusion e z p.1 p.2) →
    Fits e z (cur :: later.map Prod.snd) (absorbed e cur (later.map Prod.snd)) →
    Fusion e z (xs ++ later.flatMap Prod.fst) (absorbed e cur (later.map Prod.snd))

def joinedContent (blocks : List Block) : Str := ['\n', '\n'].intercalate (blocks.map Block.content)

/-- What a run has become; only its first block may be a title block. -/
structure Fused (run : List Block) (b : Block) : Prop where
  content : b.content = joinedContent run
  first : ∃ cur rest, run = cur :: rest ∧ b.heading = cur.heading ∧ b.level = cur.level ∧
    b.parentHeadings = cur.parentHeadings ∧ b.isTitleBlock = cur.isTitleBlock
  pins : ∀ next ∈ run.tail, next.isTitleBlock = false
  plain : 1 < run.length → ∀ part ∈ run, part.tableChunkRole = .none
  alone : run.length = 1 → run = [b]

def Block.Levelled (b : Block) : Prop := 0 ≤ b.level ∧ (b.isTitleBlock = true → b.level = 0)

section

variable {e : Env τ α} {z : Targets} {xs ys run : List Block} {left right cur b : Block}

theorem joinedContent_append (hxs : xs ≠ []) (hys : ys ≠ []) :
    joinedContent (xs ++ ys) = joinedContent xs ++ '\n' :: '\n' :: joinedContent ys := by
  induction xs with
  | nil => exact absurd rfl hxs
  | cons x xs ih =>
    cases xs with
    | nil =>
      obtain ⟨y,ys,rfl⟩ := exists_cons_of_ne_nil hys
      simp [joinedContent]
    | cons x' xs =>
      have hrest := ih (cons_ne_nil _ _)
      simp only [joinedContent,cons_append,map_cons,intercalate_cons_cons] at hrest ⊢
      rw [hrest]
      simp

theorem Fused.ne_nil (h : Fused run b) : run ≠ [] := by
  obtain ⟨cur,rest,rfl,-⟩ := h.first
  exact cons_ne_nil _ _

theorem Fused.levelled (h : Fused run b) (hrun : ∀ x ∈ run, x.Levelled) : b.Levelled := by
  obtain ⟨cur,rest,rfl,-,hlevel,-,htitle⟩ := h.first
  rw [Block.Levelled,hlevel,htitle]
  exact hrun cur mem_cons_self

theorem Fused.unpinned (h : Fused run right) (hrun : ∀ x ∈ run, x.Levelled)
    (hleft : left.Levelled) (hjoins : Joins e left right) : ∀ x ∈ run, x.isTitleBlock = false := by
  have hright := h.levelled hrun
  obtain ⟨cur,rest,rfl,-,-,-,htitle⟩ := h.first
  have hplain : right.isTitleBlock = false := by
    rcases hjoins with ⟨-,-,hplain⟩ | ⟨hdeeper,-⟩
    · exact hplain
    · rw [← Bool.not_eq_true]
      intro hpinned
      have hzero := hright.2 hpinned
      have hlevel := hleft.1
      omega
  exact forall_mem_cons.mpr ⟨htitle ▸ hplain,h.pins⟩

theorem Fused.plain_of_role (h : Fused run b) (hrole : b.tableChunkRole = .none) :
    ∀ part ∈ run, part.tableChunkRole = .none := by
  by_cases hlong : 1 < run.length
  · exact h.plain hlong
  · have hpos := length_pos_of_ne_nil h.ne_nil
    rw [h.alone (by omega)]
    exact forall_mem_singleton.mpr hrole

theorem Fused.congr {b' : Block} (h : Fused run b) (hlong : 1 < run.length)
    (hcontent : b'.content = b.content) (hheading : b'.heading = b.heading)
    (hlevel : b'.level = b.level) (hparents : b'.parentHeadings = b.parentHeadings)
    (htitle : b'.isTitleBlock = b.isTitleBlock) : Fused run b' := by
  refine ⟨hcontent.trans h.content,?_,h.pins,h.plain,fun hone => by omega⟩
  rw [hheading,hlevel,hparents,htitle]
  exact h.first

theorem Fused.append (hxs : Fused xs left) (hys : Fused ys right)
    (hlevels : ∀ x ∈ xs ++ ys, x.Levelled) (hleft : left.tableChunkRole = .none)
    (hright : right.tableChunkRole = .none) (hjoins : Joins e left right) :
    Fused (xs ++ ys) { left with content := left.content ++ '\n' :: '\n' :: right.content } := by
  obtain ⟨hl,hr⟩ := forall_mem_append.mp hlevels
  refine ⟨?_,?_,?_,?_,?_⟩
  · rw [joinedContent_append hxs.ne_nil hys.ne_nil,← hxs.content,← hys.content]
  · obtain ⟨cur,rest,rfl,hfirst⟩ := hxs.first
    exact ⟨cur,rest ++ ys,rfl,hfirst⟩
  · rw [tail_append_of_ne_nil hxs.ne_nil]
    exact forall_mem_append.mpr ⟨hxs.pins,hys.unpinned hr (hxs.levelled hl) hjoins⟩
  · intro _
    exact forall_mem_append.mpr ⟨hxs.plain_of_role hleft,hys.plain_of_role hright⟩
  · intro hone
    have hx := length_pos_of_ne_nil hxs.ne_nil
    have hy := length_pos_of_ne_nil hys.ne_nil
    rw [length_append] at hone
    omega

theorem Fused.takeIn {later : List (List Block × Block)} (hcur : Fused xs cur)
    (hlater : ∀ p ∈ later, Fused p.1 p.2)
    (hlevels : ∀ x ∈ xs ++ later.flatMap Prod.fst, x.Levelled)
    (hrole : cur.tableChunkRole = .none) (hroles : ∀ p ∈ later, p.2.tableChunkRole = .none)
    (hjoins : ∀ p ∈ later, Joins e cur p.2) :
    Fused (xs ++ later.flatMap Prod.fst) { cur with
      content := (later.map Prod.snd).foldl (fun text b => text ++ '\n' :: '\n' :: b.content)
        cur.content } := by
  induction later generalizing xs cur with
  | nil => simpa using hcur
  | cons p later ih =>
    rw [flatMap_cons,← append_assoc] at hlevels ⊢
    have hfirst := hcur.append (hlater p mem_cons_self) (forall_mem_append.mp hlevels).1 hrole
      (hroles p mem_cons_self) (hjoins p mem_cons_self)
    exact ih hfirst (fun q hq => hlater q (mem_cons_of_mem _ hq)) hlevels hrole
      (fun q hq => hroles q (mem_cons_of_mem _ hq)) fun q hq => hjoins q (mem_cons_of_mem _ hq)

theorem Fusion.fused (h : Fusion e z run b) (hrun : ∀ x ∈ run, x.Levelled) : Fused run b := by
  induction h with
  | single b =>
    refine ⟨by simp [joinedContent],⟨b,[],rfl,rfl,rfl,rfl,rfl⟩,?_,?_,fun _ => rfl⟩
    · exact fun _ hnext => nomatch hnext
    · exact fun hlong => absurd hlong (by simp)
  | pair hxs hys hfits ihx ihy =>
    obtain ⟨hl,hr⟩ := forall_mem_append.mp hrun
    obtain ⟨hleft,hright⟩ := forall_mem_cons.mp hfits.plain
    have hx := length_pos_of_ne_nil (ihx hl).ne_nil
    have hy := length_pos_of_ne_nil (ihy hr).ne_nil
    have hboth := (ihx hl).append (ihy hr) hrun hleft (hright _ mem_cons_self)
      (hfits.joins _ rfl _ mem_cons_self)
    exact hboth.congr (by rw [length_append]; omega) rfl rfl rfl rfl rfl
  | @tail xs cur later hcur hlater hfits ihc ihl =>
    obtain ⟨hx,hrest⟩ := forall_mem_append.mp hrun
    obtain ⟨hrole,hroles⟩ := forall_mem_cons.mp hfits.plain
    have hfused : ∀ p ∈ later, Fused p.1 p.2 := fun p hp =>
      ihl p hp fun x hin => hrest x (mem_flatMap.mpr ⟨p,hp,hin⟩)
    have hall := (ihc hx).takeIn hfused hrun hrole
      (fun p hp => hroles _ (mem_map_of_mem hp)) fun p hp =>
        hfits.joins _ rfl _ (mem_map_of_mem hp)
    refine hall.congr ?_ rfl rfl rfl rfl (hfits.title cur rfl)
    obtain ⟨p,later,rfl⟩ : ∃ p rest, later = p :: rest := by
      apply exists_cons_of_ne_nil
      rintro rfl
      exact absurd hfits.several (by simp)
    have hpos := length_pos_of_ne_nil (ihc hx).ne_nil
    have hnext := length_pos_of_ne_nil (hfused p mem_cons_self).ne_nil
    rw [length_append,flatMap_cons,length_append]
    omega

theorem Fusion.le (h : Fusion e z run b) (hlong : 1 < run.length) :
    b.tokens = e.tokenizer.countTokens b.content ∧ b.tokens ≤ z.targetMax := by
  cases h with
  | single b => exact absurd hlong (by simp)
  | pair _ _ hfits => exact ⟨rfl,hfits.le⟩
  | tail _ _ _ hfits => exact ⟨rfl,hfits.le⟩

structure Runs (e : Env τ α) (z : Targets) (blocks out : List Block)
    (runs : List (List Block × Block)) : Prop where
  blocks : runs.flatMap Prod.fst = blocks
  out : runs.map Prod.snd = out
  fusion : ∀ p ∈ runs, Fusion e z p.1 p.2

theorem Runs.step {blocks out out' : List Block} {runs : List (List Block × Block)}
    (h : Runs e z blocks out runs) (hstep : MergeStep e (Fits e z) out out') :
    ∃ runs', Runs e z blocks out' runs' := by
  obtain ⟨rfl,hout,hfusion⟩ := h
  cases hstep with
  | pair before left right after role hfits =>
    obtain rfl : role = .none := hfits.role
    obtain ⟨first,rest,rfl,rfl,hrest⟩ := map_eq_append_iff.mp hout
    obtain ⟨l,rest,rfl,rfl,hafter⟩ := map_eq_cons_iff.mp hrest
    obtain ⟨r,last,rfl,rfl,rfl⟩ := map_eq_cons_iff.mp hafter
    simp only [forall_mem_append,forall_mem_cons] at hfusion
    obtain ⟨hfirst,hl,hr,hlast⟩ := hfusion
    refine ⟨first ++ (l.1 ++ r.1, mergedPair e.tokenizer l.2 r.2) :: last,by simp,by simp; rfl,?_⟩
    exact forall_mem_append.mpr ⟨hfirst,forall_mem_cons.mpr ⟨.pair hl hr hfits,hlast⟩⟩
  | tail before cur run after hfits =>
    obtain ⟨first,rest,rfl,rfl,hrest⟩ := map_eq_append_iff.mp hout
    obtain ⟨c,rest,rfl,rfl,hafter⟩ := map_eq_cons_iff.mp hrest
    obtain ⟨later,last,rfl,rfl,rfl⟩ := map_eq_append_iff.mp hafter
    simp only [forall_mem_append,forall_mem_cons] at hfusion
    obtain ⟨hfirst,hc,hlater,hlast⟩ := hfusion
    refine ⟨first ++ (c.1 ++ later.flatMap Prod.fst, absorbed e c.2 (later.map Prod.snd)) :: last,
      by simp,by simp,?_⟩
    exact forall_mem_append.mpr
      ⟨hfirst,forall_mem_cons.mpr ⟨.tail later hc hlater hfits,hlast⟩⟩

theorem runs_of_steps {blocks out : List Block}
    (h : ReflTransGen (MergeStep e (Fits e z)) blocks out) : ∃ runs, Runs e z blocks out runs := by
  induction h with
  | refl =>
    refine ⟨blocks.map fun b => ([b], b),by simp [flatMap_map],by simp [Function.comp_def],?_⟩
    exact forall_mem_map.mpr fun b _ => .single b
  | tail _ hstep ih =>
    obtain ⟨runs,hruns⟩ := ih
    exact hruns.step hstep

end

def Settles (round : ℕ → List Block → List Block → List Block × Bool) (blocks : List Block) :
    Prop :=
  ∃ last, (round 0 [] last).2 = false ∧
    Stable.untilStable (round 0 []) blocks.length blocks = (round 0 [] last).1

theorem mergeSmallBlocks_runs (e : Env τ α) (z : Targets) (blocks : List Block)
    (hlevels : ∀ b ∈ blocks, b.Levelled) :
    (∀ level bs, Settles (phaseA e z level) bs ∧ Settles (phaseB e z level) bs) ∧
    ∃ runs, Runs e z blocks (mergeSmallBlocks e z blocks) runs ∧
      ∀ p ∈ runs, Fused p.1 p.2 ∧ (1 < p.1.length →
        p.2.tokens = e.tokenizer.countTokens p.2.content ∧ p.2.tokens ≤ z.targetMax) := by
  refine ⟨fun level bs => ⟨phase_settles phaseA_isRound _,phase_settles phaseB_isRound _⟩,?_⟩
  obtain ⟨runs,hruns⟩ := runs_of_steps (mergeSmallBlocks_steps e z blocks)
  refine ⟨runs,hruns,fun p hp => ⟨(hruns.fusion p hp).fused ?_,(hruns.fusion p hp).le⟩⟩
  intro x hx
  exact hlevels x (hruns.blocks ▸ mem_flatMap.mpr ⟨p,hp,hx⟩)

def sectionOf (c : Char) : Block where
  heading := [c]
  parentHeadings := []
  level := 1
  paragraphs := []
  content := [c]
  tokens := 1
  tableChunkRole := .none
  isTitleBlock := false
  blockids := []
  parts := []

theorem mergeSmallBlocks_runs_sections :
    ∃ runs, Runs byteEnv (Options.targets ⟨5, 0, none⟩) [sectionOf 'a', sectionOf 'b']
        (mergeSmallBlocks byteEnv (Options.targets ⟨5, 0, none⟩) [sectionOf 'a', sectionOf 'b'])
        runs ∧
      ∀ p ∈ runs, Fused p.1 p.2 ∧ (1 < p.1.length →
        p.2.tokens = byteEnv.tokenizer.countTokens p.2.content ∧ p.2.tokens ≤ 5) :=
  (mergeSmallBlocks_runs byteEnv (Options.targets ⟨5,0,none⟩) [sectionOf 'a', sectionOf 'b']
    (by simp [Block.Levelled,sectionOf])).2

end LightRAG.Chunking
