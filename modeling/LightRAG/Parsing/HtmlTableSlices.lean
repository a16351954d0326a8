import LightRAG.Framework.Letters
import LightRAG.Parsing.HtmlTables
import Mathlib.Data.List.Forall2

/-!
# The slices of a table are exact

Lower-casing keeps the positions of a text without `İ`, so what is found in the copy stands in the
text at the same place.
-/

namespace LightRAG.HtmlTables
open List Option

open Occurrences (find rfind At)

variable {l : Lowering} {s t needle tag : Str} {i j p q : ℕ}

def Plain (c : Char) : Prop := c.toNat < 128 ∧ c ≠ 'k'

instance (c : Char) : Decidable (Plain c) := inferInstanceAs (Decidable (c.toNat < 128 ∧ c ≠ 'k'))

theorem toLower_of_high {a : Char} (h : 128 ≤ a.toNat) : a.toLower = a := by
  rcases Text.toLower_cases a with hsame | hupper
  · exact hsame
  · have hascii : ∀ a ∈ Text.upperLetters, a.toNat < 128 := Text.forall_mem (by decide)
    exact absurd (hascii a hupper) (by omega)

theorem lowersTo_iff {a b c : Char} (h : LowersTo a b) (hc : Plain c) : b = c ↔ a.toLower = c := by
  unfold LowersTo at h
  split at h
  · rw [h]
  · rename_i hhigh
    rw [toLower_of_high (by omega)]
    constructor
    · rintro rfl
      rcases h with h | h
      · exact absurd hc.1 (by omega)
      · exact absurd h.2 hc.2
    · rintro rfl
      exact absurd hc.1 hhigh

section

variable (h : List.Forall₂ LowersTo s t)

include h

theorem startsWith_lower (hneedle : ∀ c ∈ needle, Plain c) :
    startsWith needle t = true ↔ (s.take needle.length).map Char.toLower = needle := by
  rw [startsWith,decide_eq_true_eq]
  induction needle generalizing s t with
  | nil => simp
  | cons c needle ih =>
    cases h with
    | nil => simp
    | @cons a b s t hab hst =>
      have hc := lowersTo_iff hab (hneedle c mem_cons_self)
      have hrest := ih hst fun d hd => hneedle d (mem_cons_of_mem _ hd)
      rw [cons_prefix_cons,length_cons,take_succ_cons,map_cons,List.cons.injEq,← hrest,← hc,eq_comm]

theorem boundary_lower : boundary t = boundary s := by
  cases h with
  | nil => rfl
  | @cons a b s t hab hst =>
    have hmem : ∀ c ∈ [' ', '\t', '\r', '\n', '>', '/'], b = c ↔ a = c := by
      intro c hc
      have hplain : ∀ c ∈ [' ', '\t', '\r', '\n', '>', '/'],
          Plain c ∧ c ∉ "abcdefghijklmnopqrstuvwxyz".toList ∧ c ∉ Text.upperLetters :=
        Text.forall_mem (by decide)
      obtain ⟨hascii,hsmall,hupper⟩ := hplain c hc
      rw [lowersTo_iff hab hascii,Text.toLower_eq_iff hsmall hupper]
    rw [boundary,boundary,Bool.eq_iff_iff,decide_eq_true_eq,decide_eq_true_eq]
    constructor
    · intro hb
      exact (hmem b hb).mp rfl ▸ hb
    · intro ha
      exact (hmem a ha).mpr rfl ▸ ha

theorem drop_lower (i : ℕ) :
    List.Forall₂ LowersTo (s.drop i) (t.drop i) := List.forall₂_drop i h

theorem at_startsWith_iff (hneedle : ∀ c ∈ needle, Plain c) :
    At (startsWith needle) t i ↔ TextAt needle s i :=
  startsWith_lower (drop_lower h i) hneedle

theorem at_tag_iff (htag : ∀ c ∈ '<' :: tag, Plain c) :
    At (startsWithHtmlTag tag) t i ↔ TagAt tag s i := by
  unfold At startsWithHtmlTag TagAt
  rw [Bool.and_eq_true,startsWith_lower (drop_lower h i) htag,drop_drop,
    boundary_lower (drop_lower h _)]
  rfl

end

theorem startsWithHtmlTag_nil : startsWithHtmlTag tag [] = false := by
  simp [startsWithHtmlTag,startsWith]

theorem startsWith_nil (h : needle ≠ []) : startsWith needle [] = false := by
  simpa [startsWith] using h

theorem no_tag_in_tag (htag : '<' ∉ tag) (h : tag <+: s) :
    ∀ k < tag.length, startsWithHtmlTag tag (s.drop k) = false := by
  intro k hk
  obtain ⟨rest,rfl⟩ := h
  rw [startsWithHtmlTag,Bool.and_eq_false_iff]
  left
  rw [startsWith,decide_eq_false_iff_not,drop_append_of_le_length (by omega),
    drop_eq_getElem_cons hk,cons_append]
  intro hstarts
  rw [cons_prefix_cons] at hstarts
  apply htag
  rw [hstarts.1]
  exact getElem_mem hk

theorem findHtmlTagLoop_eq (htag : '<' ∉ tag) (k i : ℕ) (s : Str)
    (hskip : ∀ n < k, startsWithHtmlTag tag (s.drop n) = false) :
    findHtmlTagLoop ('<' :: tag) k i s =
      Occurrences.firstSuffix (startsWithHtmlTag tag) i s := by
  induction s generalizing k i with
  | nil =>
    cases k <;> rfl
  | cons c s ih =>
    rw [Occurrences.firstSuffix]
    cases k with
    | succ k =>
      have hnow := hskip 0 (by omega)
      rw [drop_zero] at hnow
      rw [findHtmlTagLoop,hnow,ih k (i + 1) fun n hn => hskip (n + 1) (by omega)]
      rfl
    | zero =>
      rw [findHtmlTagLoop]
      split
      · rename_i hneedle
        split
        · rename_i hboundary
          have hnow : startsWithHtmlTag tag (c :: s) = true := by
            rw [startsWithHtmlTag,hneedle]
            exact hboundary
          rw [hnow,if_pos rfl]
        · rename_i hboundary
          have hnow : startsWithHtmlTag tag (c :: s) = false := by
            rw [startsWithHtmlTag,hneedle]
            simpa using hboundary
          have hstarts : tag <+: s := by
            rw [startsWith,decide_eq_true_eq,cons_prefix_cons] at hneedle
            exact hneedle.2
          rw [hnow,length_cons,Nat.add_sub_cancel,
            ih tag.length (i + 1) (no_tag_in_tag htag hstarts)]
          rfl
      · rename_i hneedle
        have hnow : startsWithHtmlTag tag (c :: s) = false := by
          rw [startsWithHtmlTag,Bool.and_eq_false_iff]
          left
          simpa using hneedle
        rw [hnow,ih 0 (i + 1) fun n hn => absurd hn (by omega)]
        rfl

theorem findHtmlTag_eq (htag : '<' ∉ tag) : findHtmlTag tag s = find (startsWithHtmlTag tag) s 0 :=
  findHtmlTagLoop_eq htag 0 0 s fun n hn => absurd hn (by omega)

theorem findHtmlTag_eq_some (h : List.Forall₂ LowersTo s t) (hangle : '<' ∉ tag)
    (htag : ∀ c ∈ '<' :: tag, Plain c) :
    findHtmlTag tag t = some i ↔ First (TagAt tag s) i := by
  rw [findHtmlTag_eq hangle,Occurrences.find_eq_some startsWithHtmlTag_nil,First]
  simp only [at_tag_iff h htag,Nat.zero_le,true_and,forall_const]

theorem find_text_eq_some (h : List.Forall₂ LowersTo s t) (hne : needle ≠ [])
    (hneedle : ∀ c ∈ needle, Plain c) :
    find (startsWith needle) t i = some j ↔ FirstFrom i (TextAt needle s) j := by
  rw [Occurrences.find_eq_some (startsWith_nil hne),FirstFrom]
  simp only [at_startsWith_iff h hneedle]

theorem rfind_text_eq_some (h : List.Forall₂ LowersTo s t) (hne : needle ≠ [])
    (hneedle : ∀ c ∈ needle, Plain c) :
    rfind (startsWith needle) t = some j ↔ Last (TextAt needle s) j := by
  rw [Occurrences.rfind_eq_some (startsWith_nil hne),Last]
  simp only [at_startsWith_iff h hneedle]

theorem openTagEnd_cons (quote : Option Char) (i : ℕ) (c : Char) (cs : Str) :
    openTagEnd quote i (c :: cs) =
      if quote = none ∧ c = '>' then some i else openTagEnd (quoteStep quote c) (i + 1) cs := by
  cases quote with
  | some q => rfl
  | none =>
    rw [openTagEnd]
    split
    · rename_i hquote
      have hne : c ≠ '>' := by
        rintro rfl
        exact absurd hquote (by decide)
      rw [if_neg fun h => hne h.2,quoteStep,if_pos hquote]
    · rename_i hquote
      split
      · rename_i hend
        rw [if_pos ⟨rfl,hend⟩]
      · rename_i hend
        rw [if_neg fun h => hend h.2,quoteStep,if_neg hquote]

theorem endsAt_cons {quote : Option Char} {c : Char} {cs : Str}
    (h : ¬ (quote = none ∧ c = '>')) (p : ℕ) :
    EndsAt quote (c :: cs) p ↔ ∃ n, p = n + 1 ∧ EndsAt (quoteStep quote c) cs n := by
  cases p with
  | zero =>
    constructor
    · intro hends
      exact absurd ⟨hends.2.1,some.inj hends.1⟩ h
    · rintro ⟨n,hn,-⟩
      exact absurd hn (by omega)
  | succ p =>
    constructor
    · rintro ⟨hchar,hquote,hbefore⟩
      exact ⟨p,rfl,hchar,hquote,fun k hk => hbefore (k + 1) (by omega)⟩
    · rintro ⟨n,hn,hchar,hquote,hbefore⟩
      obtain rfl : p = n := by omega
      refine ⟨hchar,hquote,fun k hk hck hnone => ?_⟩
      cases k with
      | zero => exact h ⟨hnone,some.inj hck⟩
      | succ k => exact hbefore k (by omega) hck hnone

theorem openTagEnd_eq_some {quote : Option Char} :
    openTagEnd quote i s = some p ↔ ∃ n, p = i + n ∧ EndsAt quote s n := by
  induction s generalizing quote i with
  | nil =>
    constructor
    · intro h
      cases quote <;> cases h
    · rintro ⟨n,-,hchar,-⟩
      cases hchar
  | cons c cs ih =>
    rw [openTagEnd_cons]
    split
    · rename_i hend
      constructor
      · intro h
        obtain rfl := some.inj h
        exact ⟨0,rfl,by rw [hend.2]; rfl,hend.1,fun k hk => absurd hk (by omega)⟩
      · rintro ⟨n,rfl,hchar,hquote,hbefore⟩
        cases n with
        | zero => rfl
        | succ n => exact absurd hend.1 (hbefore 0 (by omega) (by rw [hend.2]; rfl))
    · rename_i hend
      rw [ih]
      constructor
      · rintro ⟨n,rfl,hends⟩
        exact ⟨n + 1,by omega,(endsAt_cons hend _).mpr ⟨n,rfl,hends⟩⟩
      · rintro ⟨n,rfl,hends⟩
        obtain ⟨m,rfl,hm⟩ := (endsAt_cons hend _).mp hends
        exact ⟨m,by omega,hm⟩

theorem tagEnd_iff : openTagEnd none 0 s = some p ↔ TagEnd s p := by
  rw [openTagEnd_eq_some]
  simp [TagEnd]

theorem take_append_slice (h : i ≤ j) : s = s.take i ++ slice s i j ++ s.drop j := by
  have hdrop : s.drop i = slice s i j ++ s.drop j := by
    rw [slice,show s.drop j = (s.drop i).drop (j - i) by rw [drop_drop,Nat.add_sub_cancel' h],
      take_append_drop]
  rw [append_assoc,← hdrop,take_append_drop]

theorem textAt_length (hne : needle ≠ []) (h : TextAt needle s i) :
    i + needle.length ≤ s.length := by
  have hlength := congrArg List.length h
  have hpos := length_pos_iff.mpr hne
  rw [length_map,length_take,length_drop] at hlength
  omega

theorem textAt_slice {k : ℕ} (h : TextAt needle s (i + k)) (hle : i + k + needle.length ≤ j) :
    TextAt needle (slice s i j) k := by
  unfold TextAt slice at *
  rw [drop_take,take_take,drop_drop,Nat.min_eq_left (by omega)]
  exact h

theorem head_shape (h : HeadSpan s i j) :
    TagAt thead (slice s i (j + theadEnd.length)) 0 ∧
      TextAt theadEnd (slice s i (j + theadEnd.length))
        ((slice s i (j + theadEnd.length)).length - theadEnd.length) := by
  obtain ⟨⟨htag,-⟩,hle,hend,-⟩ := h
  have htext : TextAt ('<' :: thead) s i := htag.1
  have hinside := textAt_length (by decide) hend
  have hend8 : theadEnd.length = 8 := by decide
  have htag6 : thead.length + 1 = 6 := by decide
  have hopen : ('<' :: thead).length = 6 := by decide
  have hslice : (slice s i (j + theadEnd.length)).length = j + theadEnd.length - i := by
    rw [slice,length_take,length_drop]
    omega
  refine ⟨⟨textAt_slice (k := 0) htext (by omega),?_⟩,?_⟩
  · have hboundary := htag.2
    have hdrop : (slice s i (j + theadEnd.length)).drop (0 + (thead.length + 1)) =
        (s.drop (i + (thead.length + 1))).take (j + theadEnd.length - i - (thead.length + 1)) := by
      rw [slice,drop_take,drop_drop,Nat.zero_add]
    rw [hdrop]
    cases hrest : s.drop (i + (thead.length + 1)) with
    | nil =>
      rw [drop_eq_nil_iff] at hrest
      omega
    | cons c cs =>
      rw [hrest] at hboundary
      obtain ⟨n,hn⟩ : ∃ n, j + theadEnd.length - i - (thead.length + 1) = n + 1 :=
        ⟨j + theadEnd.length - i - (thead.length + 1) - 1,by omega⟩
      rw [hn]
      exact hboundary
  · rw [hslice]
    apply textAt_slice
    · rwa [show i + (j + theadEnd.length - i - theadEnd.length) = j by omega]
    · omega

section Payload

variable {payload : Str}

theorem not_mem_strip {c : Char} (h : c ∉ payload) : c ∉ strip payload :=
  fun hin => h ((Trim.trim_sublist payload).subset hin)

theorem head_iff (h : List.Forall₂ LowersTo (strip payload) (l.lower (strip payload))) (t : Str) :
    extractTheadHtml l payload = some t ↔ ∃ i j, HeadSpan (strip payload) i j ∧
      t = slice (strip payload) i (j + theadEnd.length) ∧ strip (stripTags 0 t) ≠ [] := by
  have hfirst : ∀ i, findHtmlTag thead (l.lower (strip payload)) = some i ↔
      First (TagAt thead (strip payload)) i :=
    fun i => findHtmlTag_eq_some h (by decide) (Text.forall_mem (by decide))
  have hend : ∀ i j, find (startsWith theadEnd) (l.lower (strip payload)) i = some j ↔
      FirstFrom i (TextAt theadEnd (strip payload)) j :=
    fun i j => find_text_eq_some h (by decide) (Text.forall_mem (by decide))
  unfold extractTheadHtml HeadSpan
  simp only [← hfirst,← hend]
  constructor
  · intro hsome
    split at hsome
    · cases hsome
    · rename_i i hi
      split at hsome
      · cases hsome
      · rename_i j hj
        split at hsome
        · cases hsome
        · rename_i hblank
          rw [← some.inj hsome]
          exact ⟨i,j,⟨hi,hj⟩,rfl,hblank⟩
  · rintro ⟨i,j,⟨hi,hj⟩,rfl,hblank⟩
    rw [hi]
    simp only [hj,if_neg hblank]

/-- The functions on a payload without `İ` give exact slices of it. -/
theorem slices_exact (l : Lowering) (payload : Str) (h : 'İ' ∉ payload) : Sliced l payload := by
  have hlower := l.pointwise (strip payload) (not_mem_strip h)
  have hfirst : ∀ i, findHtmlTag table (l.lower (strip payload)) = some i ↔
      First (TagAt table (strip payload)) i :=
    fun i => findHtmlTag_eq_some hlower (by decide) (Text.forall_mem (by decide))
  have hlast : ∀ j, rfind (startsWith tableEnd) (l.lower (strip payload)) = some j ↔
      Last (TextAt tableEnd (strip payload)) j :=
    fun j => rfind_text_eq_some hlower (by decide) (Text.forall_mem (by decide))
  have htag : startsWithHtmlTag table (l.lower (strip payload)) = true ↔
      TagAt table (strip payload) 0 := at_tag_iff (i := 0) hlower (Text.forall_mem (by decide))
  have hbody : ∀ p q, BodySpan (strip payload) p q →
      htmlTableInnerBody l payload = strip (slice (strip payload) (p + 1) q) := by
    rintro p q ⟨hopen,hend,hclose,hlt⟩
    unfold htmlTableInnerBody
    rw [if_pos (htag.mpr hopen),tagEnd_iff.mpr hend,(hlast q).mpr hclose]
    exact if_neg (by omega)
  refine ⟨head_iff hlower,?_,?_,?_,hbody,?_,?_⟩
  · intro t ht
    obtain ⟨i,j,hspan,rfl,-⟩ := (head_iff hlower t).mp ht
    exact head_shape hspan
  · rintro i j ⟨hopen,hclose,hle⟩
    unfold unwrapHtmlTable
    dsimp only
    rw [(hfirst i).mpr hopen,(hlast j).mpr hclose]
    exact if_neg (by omega)
  · intro hnone
    unfold unwrapHtmlTable
    dsimp only
    split
    · rename_i i j hi hj
      split
      · rfl
      · exact absurd ⟨(hfirst i).mp hi,(hlast j).mp hj,by omega⟩ (hnone i j)
    · rfl
  · intro hnone
    unfold htmlTableInnerBody
    dsimp only
    split
    · rename_i hopen
      split
      · rename_i p q hp hq
        split
        · rfl
        · exact absurd ⟨htag.mp hopen,tagEnd_iff.mp hp,(hlast q).mp hq,by omega⟩ (hnone p q)
      · rfl
    · rfl
  · intro p q hspan
    obtain ⟨before,after,hslice,hbefore,hafter⟩ :=
      Trim.exists_trim (p := Text.isSpace) (slice (strip payload) (p + 1) q)
    refine ⟨before,after,hbefore,hafter,?_⟩
    have hlt : p + 1 ≤ q := hspan.2.2.2
    rw [hbody p q hspan]
    have hwhole := take_append_slice (s := strip payload) hlt
    rw [hslice] at hwhole
    exact hwhole

end Payload

def asciiLowering : Lowering where
  lower s := s.map Char.toLower
  pointwise s _ := by
    rw [List.forall₂_map_right_iff, List.forall₂_same]
    intro a _
    unfold LowersTo
    split
    · rfl
    · rename_i hhigh
      rw [toLower_of_high (by omega)]
      left
      omega

def spacedTable : Str := "<TABLE> <tr></tr> </Table>".toList

theorem slices_exact_spacedTable : Sliced asciiLowering spacedTable :=
  slices_exact asciiLowering spacedTable (by decide)

theorem not_all_between :
    ¬ ∀ (l : Lowering) (payload : Str) (p q : ℕ), BodySpan (strip payload) p q →
      htmlTableInnerBody l payload = slice (strip payload) (p + 1) q := by
  intro hall
  have hlower := asciiLowering.pointwise (strip spacedTable) (by decide)
  have hopen : TagAt table (strip spacedTable) 0 :=
    (at_tag_iff (i := 0) hlower (Text.forall_mem (by decide))).mp (by decide)
  have hend : TagEnd (strip spacedTable) 6 := tagEnd_iff.mp (by decide)
  have hclose : Last (TextAt tableEnd (strip spacedTable)) 18 :=
    (rfind_text_eq_some hlower (by decide) (Text.forall_mem (by decide))).mp (by decide)
  have hbody := hall asciiLowering spacedTable 6 18 ⟨hopen,hend,hclose,by decide⟩
  exact absurd hbody (by decide)

end LightRAG.HtmlTables
