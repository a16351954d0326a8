import LightRAG.Chunking.RecursiveCharacterFacts
import LightRAG.Chunking.TableRowSplit
import LightRAG.Framework.Results

/-!
# What the split of a table keeps

The row slices partition the rows, the loop over the pending slices ends, and the pieces of a table
begin like the table, none of them blank.
-/

namespace LightRAG.Chunking
open List Option Except

open Text (isSpace)

variable {τ α ρ : Type}

section

variable {f : Floats} {rows : List ρ} {targetChunks left i start : ℕ} {measure : List ρ → ℕ}
  {targetMax targetIdeal lastMin : ℕ} {chunks : List (List ρ)}

theorem lt_sliceEnd (f : Floats) (targetChunks left i : ℕ) {n : ℕ} (hstart : start < n) :
    start < sliceEnd f n targetChunks left i start := by
  rw [sliceEnd]
  split <;> omega

theorem sliceEnd_last (n : ℕ) : sliceEnd f n targetChunks 0 i start = n := by
  rw [sliceEnd,if_pos (.inl rfl)]

theorem take_drop_ne_nil {stop : ℕ} (hstart : start < rows.length) (hstop : start < stop) :
    (rows.drop start).take (stop - start) ≠ [] := by
  intro hnil
  have hlen := congrArg List.length hnil
  simp only [length_take,length_drop,length_nil] at hlen
  omega

theorem cutRows_spec (f : Floats) (targetChunks left i : ℕ) (hstart : start < rows.length) :
    (cutRows f rows targetChunks (left + 1) i start).flatten = rows.drop start ∧
    ∀ chunk ∈ cutRows f rows targetChunks (left + 1) i start, chunk ≠ [] := by
  have hlast : ∀ {start stop}, start < rows.length → start < stop → rows.length ≤ stop →
      [(rows.drop start).take (stop - start)].flatten = rows.drop start ∧
      ∀ chunk ∈ [(rows.drop start).take (stop - start)], chunk ≠ [] := by
    intro start stop hstart hstop hend
    refine ⟨?_,?_⟩
    · rw [flatten_cons,flatten_nil,append_nil]
      exact take_of_length_le (by simp only [length_drop]; omega)
    · intro chunk hchunk
      rw [mem_singleton.mp hchunk]
      exact take_drop_ne_nil hstart hstop
  induction left generalizing i start with
  | zero =>
    rw [cutRows,sliceEnd_last,if_pos (le_refl _)]
    exact hlast hstart hstart (le_refl _)
  | succ left ih =>
    have hstop := lt_sliceEnd f targetChunks (left + 1) i hstart
    rw [cutRows]
    split
    · next hend => exact hlast hstart hstop hend
    · have hnext : sliceEnd f rows.length targetChunks (left + 1) i start < rows.length := by omega
      obtain ⟨hflat,hne⟩ := ih (i + 1) hnext
      refine ⟨?_,?_⟩
      · rw [flatten_cons,hflat]
        have hdrop : rows.drop (sliceEnd f rows.length targetChunks (left + 1) i start) =
            (rows.drop start).drop
              (sliceEnd f rows.length targetChunks (left + 1) i start - start) := by
          rw [drop_drop]
          congr 1
          omega
        rw [hdrop,take_append_drop]
      · intro chunk hchunk
        rcases mem_cons.mp hchunk with rfl | hchunk
        · exact take_drop_ne_nil hstart hstop
        · exact hne chunk hchunk

theorem mergeTinyLast_flatten :
    (mergeTinyLast measure targetMax lastMin chunks).flatten = chunks.flatten := by
  rw [mergeTinyLast]
  split
  · next last prev earlier hrev =>
    split
    · have hchunks : chunks = earlier.reverse ++ [prev] ++ [last] := by
        rw [← reverse_reverse chunks,hrev]
        simp
      rw [hchunks]
      simp
    · rfl
  · rfl

theorem mergeTinyLast_ne_nil (hne : ∀ chunk ∈ chunks, chunk ≠ []) :
    ∀ chunk ∈ mergeTinyLast measure targetMax lastMin chunks, chunk ≠ [] := by
  rw [mergeTinyLast]
  split
  · next last prev earlier hrev =>
    have hmem : ∀ chunk ∈ last :: prev :: earlier, chunk ≠ [] := by
      intro chunk hchunk
      exact hne chunk (mem_reverse.mp (hrev ▸ hchunk))
    split
    · intro chunk hchunk
      rw [mem_reverse] at hchunk
      rcases mem_cons.mp hchunk with rfl | hchunk
      · simp [hmem last (by simp)]
      · exact hmem chunk (by simp [hchunk])
    · exact hne
  · exact hne

theorem two_le_ceilDiv {a b : ℕ} (hb : 0 < b) (h : b < a) : 2 ≤ ceilDiv a b := by
  rw [ceilDiv,Nat.le_div_iff_mul_le hb]
  omega

theorem splitRowsBy_spec (f : Floats) (measure : List ρ → ℕ) (targetIdeal lastMin : ℕ)
    (hrows : rows ≠ []) (hmax : 0 < targetMax) :
    (splitRowsBy f measure rows targetMax targetIdeal lastMin).flatten = rows ∧
    ∀ chunk ∈ splitRowsBy f measure rows targetMax targetIdeal lastMin, chunk ≠ [] := by
  rw [splitRowsBy]
  split
  · refine ⟨by simp,?_⟩
    intro chunk hchunk
    rw [mem_singleton.mp hchunk]
    exact hrows
  · have hchunks : 0 < min (max (ceilDiv (measure rows) targetIdeal)
        (ceilDiv (measure rows) targetMax)) rows.length := by
      have htwo := two_le_ceilDiv hmax (show targetMax < measure rows by omega)
      omega
    obtain ⟨n,hn⟩ := Nat.exists_eq_succ_of_ne_zero hchunks.ne'
    rw [hn]
    have hstart : 0 < rows.length := by omega
    obtain ⟨hflat,hne⟩ := cutRows_spec f n.succ n 0 hstart
    exact ⟨mergeTinyLast_flatten.trans hflat,mergeTinyLast_ne_nil hne⟩

theorem splitRowsBy_ne_nil (hrows : rows ≠ []) (hmax : 0 < targetMax) :
    splitRowsBy f measure rows targetMax targetIdeal lastMin ≠ [] := by
  intro hnil
  have hflat := (splitRowsBy_spec f measure targetIdeal lastMin hrows hmax).1
  rw [hnil] at hflat
  exact hrows hflat.symm

end

section

variable {e : Env τ α} {format : RowFormat ρ} {b : Budget} {pieces : List Str}
  {pending : List (List ρ)}

theorem takePending_cons (e : Env τ α) (format : RowFormat ρ) (b : Budget) (fuel : ℕ)
    (pieces : List Str) (rows : List ρ) (pending : List (List ρ)) :
    takePending e format b (fuel + 1) pieces (rows :: pending) =
        takePending e format b fuel (pieces ++ [format.serialize rows]) pending ∨
      takePending e format b (fuel + 1) pieces (rows :: pending) = some none ∨
      ∃ subMax ideal lastMin, 0 < subMax ∧
        1 < (splitRowsBy e.floats format.measure rows subMax ideal lastMin).length ∧
        takePending e format b (fuel + 1) pieces (rows :: pending) =
          takePending e format b fuel pieces
            (splitRowsBy e.floats format.measure rows subMax ideal lastMin ++ pending) := by
  have hkeep : ∀ {c : Bool} {x y : Option (Option (List Str))},
      (if c = true then x else y) = x ∨ (if c = true then x else y) = y := by
    intro c x y
    cases c <;> simp
  rw [takePending]
  generalize (if b.headerTarget pieces = true then b.effectiveMax else b.targetMax) = cap
  dsimp only
  by_cases hfits : e.tokenizer.countTokens (format.serialize rows) ≤ cap
  · rw [if_pos hfits]
    exact .inl rfl
  · rw [if_neg hfits]
    by_cases hone : rows.length ≤ 1
    · rw [if_pos hone]
      exact hkeep.imp_right .inl
    · rw [if_neg hone]
      split
      · exact hkeep.imp_right .inl
      · next hfiner => exact .inr (.inr ⟨_,_,_,by omega,by omega,rfl⟩)

theorem takePending_pieces {fuel : ℕ} {out : List Str}
    (hpieces : ∀ piece ∈ pieces, ∃ rows, piece = format.serialize rows)
    (hsome : pieces ≠ [] ∨ pending ≠ [])
    (h : takePending e format b fuel pieces pending = some (some out)) :
    out ≠ [] ∧ ∀ piece ∈ out, ∃ rows, piece = format.serialize rows := by
  induction fuel generalizing pieces pending with
  | zero =>
    cases pending with
    | nil =>
      obtain rfl : pieces = out := by simpa [takePending] using h
      exact ⟨by simpa using hsome,hpieces⟩
    | cons rows pending => exact nomatch h
  | succ fuel ih =>
    cases pending with
    | nil =>
      obtain rfl : pieces = out := by simpa [takePending] using h
      exact ⟨by simpa using hsome,hpieces⟩
    | cons rows pending =>
      rcases takePending_cons e format b fuel pieces rows pending with
        htake | hgive | ⟨_,_,_,_,hmany,hcut⟩
      · rw [htake] at h
        refine ih ?_ (.inl (by simp)) h
        intro piece hpiece
        rcases mem_append.mp hpiece with hpiece | hpiece
        · exact hpieces piece hpiece
        · exact ⟨rows,mem_singleton.mp hpiece⟩
      · rw [hgive] at h
        exact nomatch some.inj h
      · rw [hcut] at h
        refine ih hpieces (.inr ?_) h
        intro hnil
        rw [(append_eq_nil_iff.mp hnil).1] at hmany
        exact absurd hmany (by simp)

end

section

variable {e : Env τ α} {header : Option Str} {tableText : Str} {texts : List Str}
  {targetMax targetIdeal lastMin : ℕ}

def Wrapped (texts : List Str) : Prop := ∀ text ∈ texts, ∃ attrs body, text = wrapTable attrs body

theorem solid_wrapTable (attrs body : Str) :
    ∃ rest, solid (wrapTable attrs body) = '<' :: rest := ⟨_,rfl⟩

theorem tableTag_head {tag : Str × Str} (h : tableTag (strip tableText) = some tag) :
    (solid tableText).head? = some '<' := by
  obtain ⟨rest,hrest,_⟩ := bind_eq_some_iff.mp h
  rw [afterLiteral] at hrest
  split at hrest
  · next hopen =>
    obtain ⟨tail,htail⟩ := isPrefixOf_iff_prefix.mp hopen
    rw [← solid_strip,← htail]
    rfl
  · exact nomatch hrest

theorem injectHeader_wrapped {text header rebuilt : Str}
    (h : injectHeaderIntoTableSlice e text header = .ok (some rebuilt)) :
    ∃ attrs body, rebuilt = wrapTable attrs body := by
  rw [injectHeaderIntoTableSlice] at h
  split at h
  · next attrs body headerFmt _ _ =>
    obtain ⟨_,_,h⟩ := Results.bind_ok h
    split at h
    · obtain ⟨headerRows,_,h⟩ := bind_eq_some_iff.mp (ok.inj h)
      obtain ⟨rows,_,h⟩ := map_eq_some_iff.mp h
      exact ⟨attrs,_,h.symm⟩
    · have h := ok.inj h
      split at h
      · exact nomatch h
      · exact ⟨attrs,_,(some.inj h).symm⟩
    · exact nomatch ok.inj h
  · exact nomatch ok.inj h

theorem injectHeaders_wrapped {pieces : List Str} {header : Str} (hpieces : Wrapped pieces)
    (h : injectHeaders e targetMax header pieces = .ok texts) :
    Wrapped texts ∧ texts.length = pieces.length := by
  induction pieces generalizing texts with
  | nil =>
    obtain rfl := ok.inj h
    exact ⟨hpieces,rfl⟩
  | cons piece pieces ih =>
    obtain ⟨rebuilt,hrebuilt,h⟩ := Results.bind_ok h
    obtain ⟨rest,hrest,h⟩ := Results.bind_ok h
    obtain ⟨hwrapped,hlength⟩ := ih (fun text htext => hpieces text (mem_cons_of_mem _ htext))
      hrest
    have hpiece := hpieces piece mem_cons_self
    have hcons : ∀ text, (∃ attrs body, text = wrapTable attrs body) →
        Wrapped (text :: rest) ∧ (text :: rest).length = (piece :: pieces).length := by
      intro text htext
      refine ⟨?_,by simp [hlength]⟩
      intro other hother
      rcases mem_cons.mp hother with rfl | hother
      · exact htext
      · exact hwrapped other hother
    split at h
    · obtain rfl := ok.inj h
      apply hcons
      split
      · exact injectHeader_wrapped hrebuilt
      · exact hpiece
    · obtain rfl := ok.inj h
      exact hcons piece hpiece

def TableOutcome (e : Env τ α) (tableText : Str) (targetMax : ℕ) (texts : List Str) : Prop :=
  (texts ≠ [] ∧ Wrapped texts ∧ (solid tableText).head? = some '<') ∨
    texts = characterSplitText e.tokenizer tableText targetMax 0

theorem splitAtRows_outcome {format : RowFormat ρ} {b : Budget} {rows : List ρ}
    (hformat : ∀ rows, ∃ attrs body, format.serialize rows = wrapTable attrs body)
    (hrows : rows ≠ []) (hmax : 0 < b.bodyMax) (htable : (solid tableText).head? = some '<')
    (h : splitAtRows e format b header tableText rows = .ok texts) :
    TableOutcome e tableText b.targetMax texts := by
  rw [splitAtRows] at h
  split at h
  · next pieces hpieces =>
    obtain ⟨hne,hserialized⟩ := takePending_pieces (by simp) (.inr (splitRowsBy_ne_nil hrows hmax))
      hpieces
    have hwrapped : Wrapped pieces := by
      intro text htext
      obtain ⟨rows',rfl⟩ := hserialized text htext
      exact hformat rows'
    have hlength : 0 < pieces.length := length_pos_of_ne_nil hne
    split at h
    · obtain ⟨hout,hlen⟩ := injectHeaders_wrapped hwrapped h
      exact .inl ⟨ne_nil_of_length_pos (by omega),hout,htable⟩
    · split at h
      · obtain ⟨rest,hrest,h⟩ := Results.bind_ok h
        obtain rfl := ok.inj h
        obtain ⟨hout,_⟩ := injectHeaders_wrapped
          (fun text htext => hwrapped text (mem_of_mem_drop htext)) hrest
        refine .inl ⟨?_,?_,htable⟩
        · simp [hne]
        · intro text htext
          rcases mem_append.mp htext with htext | htext
          · exact hwrapped text (mem_of_mem_take htext)
          · exact hout text htext
      · obtain rfl := ok.inj h
        exact .inl ⟨hne,hwrapped,htable⟩
  · exact .inr (ok.inj h).symm

theorem tableBudget_bodyMax_pos (attrs : Str) (pinned nonFirst : Bool) :
    0 < (tableBudget e attrs targetMax targetIdeal lastMin header pinned nonFirst).bodyMax :=
  Nat.lt_of_lt_of_le Nat.one_pos (Nat.le_max_right _ 1)

theorem pinHeader_ne_nil {rows : List α} (hrows : rows ≠ []) : (pinHeader e header rows).1 ≠ [] := by
  rw [pinHeader]
  split
  · split
    · next hpinned => exact hpinned.2
    · exact hrows
  · exact hrows

theorem splitTableText_outcome
    (h : splitTableText e tableText targetMax targetIdeal lastMin header = .ok texts) :
    TableOutcome e tableText targetMax texts := by
  have hjson : ∀ attrs rows, ∃ a body, (e.jsonRows attrs).serialize rows = wrapTable a body :=
    fun attrs _ => ⟨attrs,_,rfl⟩
  have hhtml : ∀ attrs rows, ∃ a body, (e.htmlRows attrs).serialize rows = wrapTable a body :=
    fun attrs _ => ⟨attrs,_,rfl⟩
  have htext : ∀ {x : List Str}, Except.ok (ε := CrossFormat)
      (characterSplitText e.tokenizer tableText targetMax 0) = .ok x →
      TableOutcome e tableText targetMax x := fun hx => .inr (ok.inj hx).symm
  rw [splitTableText] at h
  split at h
  · exact htext h
  · next attrs body htag =>
    have htable := tableTag_head htag
    obtain ⟨_,_,h⟩ := Results.bind_ok h
    split at h
    · dsimp only at h
      split at h
      · exact htext h
      · next hmany =>
        exact splitAtRows_outcome (hjson attrs)
          (pinHeader_ne_nil (ne_nil_of_length_pos (by omega)))
          (tableBudget_bodyMax_pos attrs _ _) htable h
    · dsimp only at h
      split at h
      · exact htext h
      · next hmany =>
        have hrows : splitHtmlRows e.isWord body ≠ [] := ne_nil_of_length_pos (by omega)
        have hout := splitAtRows_outcome (hhtml attrs) hrows (tableBudget_bodyMax_pos attrs _ _)
          htable h
        exact hout
    · exact htext h

section

variable (h : TableOutcome e tableText targetMax texts) (hsolid : isBlank tableText = false)

include h hsolid

theorem TableOutcome.ne_nil : texts ≠ [] := by
  rcases h with ⟨hne,_⟩ | rfl
  · exact hne
  · exact characterSplitText_ne_nil hsolid

theorem TableOutcome.notBlank : ∀ text ∈ texts, isBlank text = false := by
  intro text htext
  rcases h with ⟨_,hwrapped,_⟩ | rfl
  · obtain ⟨attrs,body,rfl⟩ := hwrapped text htext
    obtain ⟨rest,hrest⟩ := solid_wrapTable attrs body
    rw [isBlank_eq_false]
    exact cons_ne_nil _ _
  · exact characterSplitText_solid hsolid htext

theorem TableOutcome.head (ht : e.tokenizer.Additive) :
    SameHead (solidTexts texts) (solid tableText) := by
  rcases h with ⟨hne,hwrapped,htable⟩ | rfl
  · obtain ⟨text,texts,rfl⟩ := exists_cons_of_ne_nil hne
    obtain ⟨attrs,body,rfl⟩ := hwrapped text mem_cons_self
    obtain ⟨rest,hrest⟩ := solid_wrapTable attrs body
    rw [SameHead,htable,solidTexts,flatMap_cons]
    rfl
  · exact characterSplitText_head ht hsolid

end

end

end LightRAG.Chunking
