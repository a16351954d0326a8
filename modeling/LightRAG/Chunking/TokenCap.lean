import LightRAG.Chunking.HeadingRoom
import LightRAG.Chunking.Provenance

/-!
# The cap of a chunk

Every pass keeps the cap except for the headings HeadingGlue puts in front of a body.
-/

namespace LightRAG.Chunking
open List Except

open Relation (ReflTransGen)

variable {τ α : Type}

section

variable {e : Env τ α} (ht : e.tokenizer.Additive) {z : Targets} (hcap : 0 < z.targetMax)
  (hchar : ∀ ch, e.tokenizer.length [ch] ≤ z.targetMax) {headers : Str → Option Str} {block : Block}
  {blocks : List Block} {rows : List ContentRow} {ids cited : List Str}

theorem applyPartSuffixes_tokens {b : Block} (isDigit : Char → Bool)
    (h : b ∈ applyPartSuffixes isDigit blocks) : ∃ b' ∈ blocks, b.tokens = b'.tokens := by
  rw [applyPartSuffixes] at h
  split at h
  · exact ⟨b,h,rfl⟩
  · obtain ⟨i,hi,rfl⟩ := mem_mapIdx.mp h
    exact ⟨_,getElem_mem hi,rfl⟩

include ht hcap hchar

theorem splitRow_le (hblock : block.Fresh e.tokenizer ids cited)
    (hcited : dedupPreservingOrder cited = cited) (h : splitRow e z headers block = .ok blocks) :
    ∀ b ∈ blocks, b.tokens ≤ z.targetMax := by
  obtain ⟨expanded,hexpanded,h⟩ := Results.bind_ok h
  obtain ⟨parts,hparts,h⟩ := Results.bind_ok h
  obtain rfl := ok.inj h
  have hfresh := (expandBlock_fresh hblock hcited hexpanded).2
  intro b hb
  obtain ⟨b',hb',hsame⟩ := applyPartSuffixes_tokens e.isDigit hb
  obtain ⟨x,hx,part,hpart,hin⟩ := exists_of_mem_flatten (Results.mapM_ok hparts) hb'
  have hx := hfresh x hx
  rw [hsame]
  exact fresh_le ht (c := z.caps) hchar
    (splitLongBlock_fresh hcap rfl hx.ne_nil hx.paragraphs hpart).2.1
    (splitLongBlock_le ht hcap hx.ne_nil hx.paragraphs hpart) b' hin

theorem splitRows_le (h : splitRows e z headers rows = .ok blocks) :
    ∀ b ∈ blocks, b.Sound e.tokenizer ∧ b.Joined ∧ b.tokens ≤ z.targetMax := by
  intro b hb
  obtain ⟨parts,hparts,rfl⟩ := splitRows_parts hcap h
  obtain ⟨_,_,part,⟨row,_,hsome,hpart,_,hfresh⟩,hin⟩ := exists_of_mem_flatten hparts hb
  have hb := hfresh b hin
  exact ⟨hb.sound,hb.joined,
    splitRow_le ht hcap hchar (initialBlock_fresh hsome) row.dedup_cited hpart b hin⟩

end

section

variable {e : Env τ α} (ht : e.tokenizer.Additive) {z : Targets} {xs ys run : List Block}
  {b cur : Block}

theorem absorbed_sublist (e : Env τ α) (hb : b ∈ cur :: run) :
    b.content.Sublist (absorbed e cur run).content := by
  have hfold : ∀ text : Str,
      text.Sublist (run.foldl (fun text b => text ++ '\n' :: '\n' :: b.content) text) ∧
      ∀ b ∈ run, b.content.Sublist
        (run.foldl (fun text b => text ++ '\n' :: '\n' :: b.content) text) := by
    clear hb
    induction run with
    | nil => simp
    | cons next run ih =>
      intro text
      obtain ⟨hstart,hrun⟩ := ih (text ++ '\n' :: '\n' :: next.content)
      refine ⟨(sublist_append_left _ _).trans hstart,?_⟩
      intro b hb
      rcases mem_cons.mp hb with rfl | hb
      · exact (((List.Sublist.refl _).cons '\n').cons '\n').trans
          ((sublist_append_right _ _).trans hstart)
      · exact hrun b hb
  rcases mem_cons.mp hb with rfl | hb
  · exact (hfold b.content).1
  · exact (hfold cur.content).2 b hb

include ht

theorem MergeStep.le_iff (h : MergeStep e (Fits e z) xs ys) (hxs : ∀ b ∈ xs, b.Sound e.tokenizer) :
    (∀ b ∈ ys, b.tokens ≤ z.targetMax) ↔ ∀ b ∈ xs, b.tokens ≤ z.targetMax := by
  have hle : ∀ {b : Block} {text : Str}, b ∈ xs → b.content.Sublist text →
      e.tokenizer.countTokens text ≤ z.targetMax → b.tokens ≤ z.targetMax := by
    intro b text hb hsub hfits
    have hmono := ht.sublist hsub
    rw [ht.countTokens_eq] at hfits
    rw [(hxs b hb).tokens,ht.countTokens_eq]
    omega
  cases h with
  | pair before left right after role hok =>
    have hl := hle (b := left) (by simp) (sublist_append_left _ _) hok.le
    have hr := hle (b := right) (by simp) (((List.Sublist.refl _).cons '\n').cons '\n' |>.trans
      (sublist_append_right _ _)) hok.le
    simp only [mem_append,mem_cons]
    constructor
    · rintro hys b (hb | rfl | rfl | hb)
      · exact hys b (.inl hb)
      · exact hl
      · exact hr
      · exact hys b (.inr (.inr hb))
    · rintro hall b (hb | rfl | hb)
      · exact hall b (.inl hb)
      · exact hok.le
      · exact hall b (.inr (.inr (.inr hb)))
  | tail before cur run after hok =>
    have hrun : ∀ b ∈ cur :: run, b.tokens ≤ z.targetMax := by
      intro b hb
      refine hle ?_ (absorbed_sublist e hb) hok.le
      simp only [mem_append,mem_cons] at hb ⊢
      exact .inr (hb.imp_right .inl)
    simp only [mem_append,mem_cons] at hrun ⊢
    constructor
    · rintro hys b (hb | hb | hb | hb)
      · exact hys b (.inl hb)
      · exact hrun b (.inl hb)
      · exact hrun b (.inr hb)
      · exact hys b (.inr (.inr hb))
    · rintro hall b (hb | rfl | hb)
      · exact hall b (.inl hb)
      · exact hok.le
      · exact hall b (.inr (.inr (.inr hb)))

theorem mergeSteps_le_iff (h : ReflTransGen (MergeStep e (Fits e z)) xs ys)
    (hxs : ∀ b ∈ xs, b.Sound e.tokenizer) :
    (∀ b ∈ ys, b.tokens ≤ z.targetMax) ↔ ∀ b ∈ xs, b.tokens ≤ z.targetMax := by
  induction h with
  | refl => exact Iff.rfl
  | tail hsteps hstep ih =>
    rw [hstep.le_iff ht (mergeSteps_keep mergeable_sound hsteps hxs),ih]

end

section

variable {t : Tokenizer τ} {blocks : List Block} {m : ℕ}

theorem textChunks_le (ht : t.Additive) (hm : 0 < m) (hchar : ∀ ch, t.length [ch] ≤ m)
    {content : Str} {overlap : ℕ} {c : TextChunk}
    (hc : c ∈ chunkingByRecursiveCharacter t content m overlap defaultSeparators) :
    c.tokens ≤ m := by
  rw [chunking_tokens hc]
  rcases chunking_le ht (by decide) (mem_map_of_mem hc) with hle | ⟨ch,hone⟩
  · rwa [Nat.max_eq_left hm] at hle
  · rw [hone]
    exact hchar ch

theorem length_le_tokens (ht : t.Additive) (hblocks : ∀ b ∈ blocks, b.Sound t) {c : Chunk}
    (hc : c ∈ chunksOf blocks) : t.length c.content ≤ c.tokens := by
  obtain ⟨i,b,hi,hsome⟩ := mem_chunksOf.mp hc
  have hb := hblocks b (mem_of_getElem? hi)
  obtain ⟨c',hc',_,_,htokens,hcontent⟩ := chunkOf_sound hb i
  obtain rfl := Option.some.inj (hsome.symm.trans hc')
  rw [htokens,hcontent,hb.tokens,ht.countTokens_eq]
  exact ht.sublist (strip_sublist b.content)

theorem chunksOf_le_iff (hblocks : ∀ b ∈ blocks, b.Sound t) :
    (∀ c ∈ chunksOf blocks, c.tokens ≤ m) ↔ ∀ b ∈ blocks, b.tokens ≤ m := by
  constructor
  · intro hchunks b hb
    obtain ⟨i,hi⟩ := List.getElem?_of_mem hb
    obtain ⟨c,hc,_,_,htokens,_⟩ := chunkOf_sound (hblocks b hb) i
    rw [← htokens]
    exact hchunks c (mem_chunksOf.mpr ⟨i,b,hi,hc⟩)
  · intro hall c hc
    obtain ⟨i,b,hi,hsome⟩ := mem_chunksOf.mp hc
    have hb := mem_of_getElem? hi
    obtain ⟨c',hc',_,_,htokens,_⟩ := chunkOf_sound (hblocks b hb) i
    obtain rfl := Option.some.inj (hsome.symm.trans hc')
    rw [htokens]
    exact hall b hb

end

def Options.kept (o : Options) (rows : List ContentRow) : List ContentRow :=
  match o.references with
  | some r => dropReferences r rows
  | none => rows

theorem Options.kept_nil (o : Options) : o.kept [] = [] := by
  rw [kept]
  split
  · simp [dropReferences]
  · rfl

def byteEnv : Env Char Unit where
  tokenizer := ⟨fun s => s.flatMap fun c => List.replicate c.utf8Size c, fun s => s⟩
  json := ⟨fun _ => none, fun _ => [], fun _ _ => false⟩
  floats := Floats.exact
  isWord c := c.isAlphanum || c = '_'
  isDigit := Char.isDigit

theorem byteEnv_char (ch : Char) : byteEnv.tokenizer.length [ch] = ch.utf8Size := by
  simp [byteEnv,Tokenizer.length]

theorem byteEnv_additive : byteEnv.tokenizer.Additive where
  append a b := by simp [byteEnv,Tokenizer.length]
  pos s hs := by
    obtain ⟨c,cs,rfl⟩ := exists_cons_of_ne_nil hs
    have hpos := c.utf8Size_pos
    simp only [byteEnv,Tokenizer.length,flatMap_cons,length_append,length_replicate]
    omega

def headingAndBody : List ContentRow :=
  [contentRow "a" "# A" "A" 1, contentRow "b" "éé" "" 2]

end LightRAG.Chunking
