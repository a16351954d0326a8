import LightRAG.Chunking.Tokens
import LightRAG.Framework.Dict

/-!
# The content-preservation check

`verify_content_preservation` compares the lines of a document with the lines of its output: whole
lines first, and what is left of the output with joins of the lines that are left.
-/

namespace LightRAG.SmartHeading
open List Function

open Chunking (Str strip)
open Text (isSpace)

inductive Kind
  | para
  | other
deriving DecidableEq

structure Record where
  kind : Kind
  text : Option Str
  demotedBodyText : Option Str := none

/-- `_HEADING_PREFIX_RE.sub("", text)`. -/
def dropHeadingPrefix (text : Str) : Str :=
  let hashes := (text.takeWhile (· = '#')).length
  if hashes = 0 then text else (text.drop (min hashes 6)).dropWhile isSpace

def canonicalizeParagraphText (text : Str) : Str :=
  (dropHeadingPrefix (strip text)).filter fun c => !isSpace c

def canonLines (text : Option Str) : List Str :=
  ((Text.split '\n' (text.getD [])).map canonicalizeParagraphText).filter (· ≠ [])

/-- `source`, the lines of all paragraphs that are not in the table of contents. -/
def sourceLines (records : List Record) (tocIndices : List ℕ) : List Str :=
  records.zipIdx.flatMap fun r =>
    if r.1.kind ≠ .para ∨ r.2 ∈ tocIndices then []
    else canonLines r.1.text ++ canonLines r.1.demotedBodyText

/-- `out_lines.get(canon, 0)`. -/
def times (outLines : Dict Str ℕ) (canon : Str) : ℕ := (outLines.get canon).getD 0

def countLine (outLines : Dict Str ℕ) (canon : Str) : Dict Str ℕ :=
  outLines.set canon (times outLines canon + 1)

def discountLine (outLines : Dict Str ℕ) (canon : Str) : Dict Str ℕ :=
  if 0 < times outLines canon then outLines.set canon (times outLines canon - 1) else outLines

/-- The first phase: what is left of the output, and the source lines that it does not have. -/
def matchWhole : List Str → Dict Str ℕ → Dict Str ℕ × List Str
  | [], outLines => (outLines, [])
  | canon :: source, outLines =>
    if 0 < times outLines canon then
      matchWhole source (outLines.set canon (times outLines canon - 1))
    else
      let rest := matchWhole source outLines
      (rest.1, canon :: rest.2)

def leftoverOut (outLines : Dict Str ℕ) : List Str :=
  outLines.entries.flatMap fun e => List.replicate e.2 e.1

/-- The source lines that are left, and whether each is used. -/
abbrev Leftovers := List (Str × Bool)

/-- The lines from the first one on are used up to the end of `line`. -/
def pick (line : Str) : Leftovers → Option Leftovers
  | [] => if line = [] then some [] else none
  | (piece, used) :: rest =>
    if line = [] then some ((piece, used) :: rest)
    else if used then none
    else if piece.isPrefixOf line then
      (pick (line.drop piece.length) rest).map ((piece, true) :: ·)
    else none

/-- The first place where `pick` finds the line. -/
def place (line : Str) : Leftovers → Option Leftovers
  | [] => none
  | l :: rest =>
    match pick line (l :: rest) with
    | some picked => some picked
    | none => (place line rest).map (l :: ·)

def matchJoined (lines : List Str) (leftovers : Leftovers) : Leftovers :=
  lines.foldl (fun left line => (place line left).getD left) leftovers

/-- `out_lines`, with the injected lines taken away; a block is given by its content. -/
def outputLines (blocks ignoredOutputTexts : List (Option Str)) : Dict Str ℕ :=
  (ignoredOutputTexts.flatMap canonLines).foldl discountLine
    ((blocks.flatMap canonLines).foldl countLine .empty)

def unused (ls : Leftovers) : List Str := (ls.filter fun l => !l.2).map Prod.fst

def verifyContentPreservation (records : List Record) (blocks : List (Option Str))
    (tocIndices : List ℕ) (ignoredOutputTexts : List (Option Str)) : List Str :=
  let whole := matchWhole (sourceLines records tocIndices) (outputLines blocks ignoredOutputTexts)
  unused (matchJoined (leftoverOut whole.1) (whole.2.map fun canon => (canon, false)))

/-! ## What the check sees -/

/-- Consecutive source lines, which the output has in one line, or has lost. -/
structure Part where
  lines : List Str
  kept : Bool
deriving DecidableEq

def Part.joined (p : Part) : Str := p.lines.flatten

def joins (parts : List Part) : List Part := parts.filter fun p => 1 < p.lines.length

/-- The output consists of the parts that were kept, beside the injected lines. -/
structure Divided (records : List Record) (blocks : List (Option Str)) (tocIndices : List ℕ)
    (ignoredOutputTexts : List (Option Str)) (parts : List Part) : Prop where
  source : sourceLines records tocIndices = parts.flatMap Part.lines
  nonempty : ∀ p ∈ parts, p.lines ≠ []
  output : (blocks.flatMap canonLines).Perm
    (ignoredOutputTexts.flatMap canonLines ++ (parts.filter Part.kept).map Part.joined)

/-- No line of a joined part is a line of the output, and among the lines of the joined parts only
the parts themselves spell one of them. -/
structure Unambiguous (parts : List Part) : Prop where
  whole : ∀ p ∈ joins parts, ∀ l ∈ p.lines, ∀ q ∈ parts, l ≠ q.joined
  joined : ∀ before middle after, (joins parts).flatMap Part.lines = before ++ middle ++ after →
    (∃ p ∈ joins parts, middle.flatten = p.joined) →
    ∃ first p last, joins parts = first ++ p :: last ∧ first.flatMap Part.lines = before ∧
      p.lines = middle

/-! ## The first phase -/

section

variable {d : Dict Str ℕ} {canon x : Str} {source lines : List Str} {n : ℕ}

@[simp] theorem times_set : times (d.set canon n) x = if x = canon then n else times d x := by
  rw [times,Dict.get_set]
  split
  · rfl
  · rfl

@[simp] theorem times_empty : times .empty x = 0 := rfl

theorem times_countLine : times (lines.foldl countLine d) x = times d x + lines.count x := by
  induction lines generalizing d with
  | nil => rfl
  | cons canon rest ih =>
    rw [foldl_cons,ih,countLine]
    by_cases hx : x = canon
    · simp [hx]
      omega
    · simp [hx,Ne.symm hx]

theorem times_discountLine : times (lines.foldl discountLine d) x = times d x - lines.count x := by
  induction lines generalizing d with
  | nil => rfl
  | cons canon rest ih =>
    rw [foldl_cons,ih,discountLine]
    by_cases hx : x = canon
    · subst hx
      split
      · simp
        omega
      · omega
    · split <;> simp [hx,Ne.symm hx]

theorem counts_matchWhole : times (matchWhole source d).1 x = times d x - source.count x ∧
    (matchWhole source d).2.count x = source.count x - times d x := by
  induction source generalizing d with
  | nil => exact ⟨rfl,(Nat.zero_sub _).symm⟩
  | cons canon rest ih =>
    rw [matchWhole,count_cons]
    split
    · obtain ⟨hleft,hrest⟩ := @ih (d.set canon (times d canon - 1))
      rw [hleft,hrest]
      by_cases hx : x = canon
      · subst hx
        simp
        omega
      · simp [hx,Ne.symm hx]
    · obtain ⟨hleft,hrest⟩ := @ih d
      rw [hleft,count_cons,hrest]
      by_cases hx : x = canon
      · subst hx
        omega
      · simp [Ne.symm hx]

theorem matchWhole_of_enough (h : ∀ x ∈ source, times d x = 0 ∨ source.count x ≤ times d x) :
    (matchWhole source d).2 = source.filter fun x => times d x = 0 := by
  induction source generalizing d with
  | nil => rfl
  | cons canon rest ih =>
    have hrest : ∀ x ∈ rest, times d x = 0 ∨
        rest.count x + (if canon = x then 1 else 0) ≤ times d x := by
      intro x hx
      have hboth := h x (mem_cons_of_mem _ hx)
      rw [count_cons] at hboth
      simpa using hboth
    rw [matchWhole]
    by_cases hpos : 0 < times d canon
    · rw [if_pos hpos,ih,filter_cons_of_neg (by simp; omega)]
      · apply filter_congr
        intro x hx
        have hcount : 0 < rest.count x := count_pos_iff.mpr hx
        have hboth := hrest x hx
        by_cases heq : x = canon
        · subst heq
          simp at hboth ⊢
          omega
        · simp [heq]
      · intro x hx
        have hboth := hrest x hx
        by_cases heq : x = canon
        · subst heq
          simp at hboth ⊢
          omega
        · simpa [heq,Ne.symm heq] using hboth
    · have hzero : times d canon = 0 := by omega
      rw [if_neg hpos,filter_cons_of_pos (by simpa using hzero)]
      apply congrArg (canon :: ·) (ih ?_)
      intro x hx
      have hboth := hrest x hx
      omega

theorem count_leftoverOut : (leftoverOut d).count x = times d x := by
  obtain ⟨es,hnodup⟩ := d
  rw [leftoverOut,times,Dict.get]
  induction es with
  | nil => rfl
  | cons e rest ih =>
    rw [map_cons,nodup_cons] at hnodup
    rw [flatMap_cons,count_append,count_replicate,ih hnodup.2]
    by_cases he : e.1 = x
    · have hnone : Table.lookup Prod.fst rest x = none := by
        apply Table.lookup_eq_none.mpr
        intro f hf heq
        exact hnodup.1 (mem_map.mpr ⟨f,hf,heq.trans he.symm⟩)
      rw [hnone,Table.lookup]
      simp [he]
    · rw [Table.lookup,Table.lookup]
      simp [he]

end

/-! ## The second phase -/

section

variable {line : Str} {ls ls' rest : Leftovers} {seg lines : List Str}

theorem pick_eq_some (h : pick line ls = some ls') : ∃ (seg : List Str) (post : Leftovers),
    ls = seg.map (fun l => (l, false)) ++ post ∧ seg.flatten = line ∧
      ls' = seg.map (fun l => (l, true)) ++ post := by
  induction ls generalizing line ls' with
  | nil =>
    rw [pick] at h
    split at h
    · rename_i hline
      cases h
      exact ⟨[],[],rfl,hline.symm,rfl⟩
    · cases h
  | cons l rest ih =>
    obtain ⟨piece,used⟩ := l
    rw [pick] at h
    split at h
    · rename_i hline
      cases h
      exact ⟨[],_,rfl,hline.symm,rfl⟩
    split at h
    · cases h
    rename_i hused
    split at h
    · rename_i hpiece
      obtain ⟨picked,hpicked,rfl⟩ := Option.map_eq_some_iff.mp h
      obtain ⟨seg,post,rfl,hseg,rfl⟩ := ih hpicked
      refine ⟨piece :: seg,post,by simpa using hused,?_,rfl⟩
      rw [flatten_cons,hseg]
      obtain ⟨suffix,rfl⟩ := isPrefixOf_iff_prefix.mp hpiece
      rw [drop_left]
    · cases h

theorem pick_append (hseg : ∀ l ∈ seg, l ≠ []) : pick seg.flatten
    (seg.map (fun l => (l, false)) ++ rest) = some (seg.map (fun l => (l, true)) ++ rest) := by
  induction seg with
  | nil => cases rest <;> rfl
  | cons l seg ih =>
    have hl : l ≠ [] := hseg l mem_cons_self
    have hne : (l :: seg).flatten ≠ [] := by simp [hl]
    rw [map_cons,cons_append,pick,if_neg hne,flatten_cons,
      if_pos (List.isPrefixOf_iff_prefix.mpr (prefix_append _ _)),drop_left,
      ih fun l' hl' => hseg l' (mem_cons_of_mem _ hl')]
    rfl

theorem place_eq_some (h : place line ls = some ls') :
    ∃ (before : Leftovers) (seg : List Str) (after : Leftovers),
    ls = before ++ seg.map (fun l => (l, false)) ++ after ∧ seg.flatten = line ∧
      ls' = before ++ seg.map (fun l => (l, true)) ++ after := by
  induction ls generalizing ls' with
  | nil => cases h
  | cons l rest ih =>
    rw [place] at h
    split at h
    · rename_i picked hpicked
      cases h
      obtain ⟨seg,after,hls,hseg,hpick⟩ := pick_eq_some hpicked
      exact ⟨[],seg,after,hls,hseg,hpick⟩
    · obtain ⟨placed,hplaced,rfl⟩ := Option.map_eq_some_iff.mp h
      obtain ⟨before,seg,after,rfl,hseg,rfl⟩ := ih hplaced
      exact ⟨l :: before,seg,after,rfl,hseg,rfl⟩

theorem place_isSome (before : Leftovers) (hne : rest ≠ []) (h : (pick line rest).isSome) :
    (place line (before ++ rest)).isSome := by
  induction before with
  | nil =>
    obtain ⟨l,rest,rfl⟩ := exists_cons_of_ne_nil hne
    obtain ⟨picked,hpicked⟩ := Option.isSome_iff_exists.mp h
    rw [nil_append,place,hpicked]
    rfl
  | cons l before ih =>
    rw [cons_append,place]
    split
    · rfl
    · rw [Option.isSome_map]
      exact ih

theorem length_unused_place (h : place line ls = some ls') :
    (unused ls).flatten.length = (unused ls').flatten.length + line.length := by
  obtain ⟨before,seg,after,rfl,rfl,rfl⟩ := place_eq_some h
  simp [unused,filter_map,comp_def]
  omega

theorem length_unused_matchJoined : (unused ls).flatten.length ≤
    (unused (matchJoined lines ls)).flatten.length + lines.flatten.length := by
  induction lines generalizing ls with
  | nil => exact Nat.le_refl _
  | cons line rest ih =>
    have hrest := @ih ((place line ls).getD ls)
    rw [matchJoined,foldl_cons,← matchJoined,flatten_cons,length_append]
    cases hplace : place line ls with
    | none =>
      rw [hplace] at hrest
      exact hrest.trans (by omega)
    | some ls' =>
      rw [hplace] at hrest
      have hline := length_unused_place hplace
      simp only [Option.getD_some] at hrest ⊢
      omega

end

/-! ## What the answer says -/

section

variable {records : List Record} {blocks ignoredOutputTexts : List (Option Str)}
  {tocIndices : List ℕ} {parts : List Part} {x : Str}

theorem ne_nil_of_mem_sourceLines (h : x ∈ sourceLines records tocIndices) : x ≠ [] := by
  have hcanon : ∀ text, x ∈ canonLines text → x ≠ [] := by
    intro text hx
    simpa using (mem_filter.mp hx).2
  obtain ⟨r,-,hr⟩ := mem_flatMap.mp h
  split at hr
  · cases hr
  · exact (mem_append.mp hr).elim (hcanon _) (hcanon _)

theorem length_kept_le : ((parts.filter Part.kept).map Part.joined).flatten.length ≤
    (parts.flatMap Part.lines).flatten.length := by
  induction parts with
  | nil => exact Nat.le_refl _
  | cons p rest ih =>
    rw [flatMap_cons,flatten_append,length_append]
    by_cases hkept : p.kept = true
    · rw [filter_cons_of_pos hkept,map_cons,flatten_cons,length_append,Part.joined]
      omega
    · rw [filter_cons_of_neg hkept]
      omega

theorem kept_of_length (hpos : ∀ p ∈ parts, 0 < p.joined.length)
    (hlength : (parts.flatMap Part.lines).flatten.length ≤
      ((parts.filter Part.kept).map Part.joined).flatten.length) :
    ∀ p ∈ parts, p.kept = true := by
  induction parts with
  | nil => exact fun _ hp => nomatch hp
  | cons p rest ih =>
    have hshort := @length_kept_le rest
    have hp : 0 < p.lines.flatten.length := hpos p mem_cons_self
    rw [flatMap_cons,flatten_append,length_append] at hlength
    cases hkept : p.kept with
    | true =>
      rw [filter_cons_of_pos hkept,map_cons,flatten_cons,length_append,Part.joined] at hlength
      have hrest := ih (fun q hq => hpos q (mem_cons_of_mem _ hq)) (by omega)
      exact forall_mem_cons.mpr ⟨hkept,hrest⟩
    | false =>
      rw [filter_cons_of_neg (by simp [hkept])] at hlength
      omega

namespace Divided

variable (h : Divided records blocks tocIndices ignoredOutputTexts parts)

include h

theorem times_outputLines : times (outputLines blocks ignoredOutputTexts) x =
    ((parts.filter Part.kept).map Part.joined).count x := by
  rw [outputLines,times_discountLine,times_countLine,h.output.count_eq]
  simp

theorem perm_whole :
    let whole := matchWhole (sourceLines records tocIndices)
      (outputLines blocks ignoredOutputTexts)
    (leftoverOut whole.1 ++ sourceLines records tocIndices).Perm
      ((parts.filter Part.kept).map Part.joined ++ whole.2) := by
  apply perm_iff_count.mpr
  intro x
  rw [count_append,count_append,count_leftoverOut,counts_matchWhole.1,
    counts_matchWhole.2,h.times_outputLines]
  omega

theorem joined_ne_nil {p : Part} (hp : p ∈ parts) : p.joined ≠ [] := by
  obtain ⟨l,hl⟩ := exists_mem_of_ne_nil _ (h.nonempty p hp)
  have hsource : l ∈ sourceLines records tocIndices := by
    rw [h.source]
    exact mem_flatMap.mpr ⟨p,hp,hl⟩
  intro hnil
  exact ne_nil_of_mem_sourceLines hsource (flatten_eq_nil_iff.mp hnil l hl)

theorem kept_of_verify
    (hnil : verifyContentPreservation records blocks tocIndices ignoredOutputTexts = []) :
    ∀ p ∈ parts, p.kept = true := by
  have hperm := h.perm_whole
  apply kept_of_length fun p hp => length_pos_iff.mpr (h.joined_ne_nil hp)
  unfold verifyContentPreservation at hnil
  generalize matchWhole (sourceLines records tocIndices)
    (outputLines blocks ignoredOutputTexts) = whole at hperm hnil
  have hjoined := @length_unused_matchJoined (whole.2.map fun canon => (canon, false))
    (leftoverOut whole.1)
  have hstart : unused (whole.2.map fun canon => (canon, false)) = whole.2 := by
    simp [unused,filter_map,comp_def]
  have hlength := hperm.flatten.length_eq
  rw [hnil,hstart] at hjoined
  rw [h.source] at hlength
  simp only [flatten_append,length_append,flatten_nil,length_nil] at *
  omega

end Divided

/-! ## Lossless output -/

/-- The joined parts, and whether each is used. -/
abbrev Marks := List (Part × Bool)

def tagged (ps : Marks) : Leftovers := ps.flatMap fun p => p.1.lines.map fun l => (l, p.2)

def texts (ps : Marks) : List Str := (ps.filter fun p => !p.2).map fun p => p.1.joined

theorem tagged_append {ps qs : Marks} : tagged (ps ++ qs) = tagged ps ++ tagged qs :=
  flatMap_append

theorem fst_tagged {ps : Marks} :
    (tagged ps).map Prod.fst = (ps.map Prod.fst).flatMap Part.lines := by
  induction ps with
  | nil => rfl
  | cons p rest ih =>
    rw [tagged,flatMap_cons,map_append,← tagged,ih]
    simp [comp_def]

theorem place_tagged {ps : Marks} {line : Str} (hlines : ∀ p ∈ joins parts, ∀ l ∈ p.lines, l ≠ [])
    (hunambiguous : Unambiguous parts) (hps : ps.map Prod.fst = joins parts)
    (hline : line ∈ texts ps) : ∃ ps', place line (tagged ps) = some (tagged ps') ∧
      ps'.map Prod.fst = joins parts ∧ (texts ps).Perm (line :: texts ps') := by
  obtain ⟨⟨p,used⟩,hp,rfl⟩ := mem_map.mp hline
  obtain ⟨hmem,hused⟩ := mem_filter.mp hp
  obtain rfl : used = false := by simpa using hused
  have hjoin : p ∈ joins parts := hps ▸ mem_map_of_mem hmem
  obtain ⟨pre,post,hsplit⟩ := append_of_mem hmem
  have hlong : 1 < p.lines.length := by simpa using (mem_filter.mp hjoin).2
  have hplace : (place p.joined (tagged ps)).isSome := by
    rw [hsplit,tagged_append]
    apply place_isSome
    · intro hnil
      simp [tagged] at hnil
      simp [hnil.1] at hlong
    · rw [tagged,flatMap_cons,Part.joined,pick_append (hlines p hjoin)]
      rfl
  obtain ⟨ls',hls'⟩ := Option.isSome_iff_exists.mp hplace
  obtain ⟨before,seg,after,htagged,hseg,rfl⟩ := place_eq_some hls'
  have hfst := congrArg (List.map Prod.fst) htagged
  rw [fst_tagged,hps] at hfst
  simp only [map_append,map_map,comp_def,map_id'] at hfst
  obtain ⟨first,q,last,hjoins,hfirst,hq⟩ := hunambiguous.joined _ _ _ hfst ⟨p,hjoin,hseg⟩
  subst hq
  obtain ⟨qs,rest,rfl,hqs,hrest⟩ := map_eq_append_iff.mp (hps.trans hjoins)
  obtain ⟨⟨r,b⟩,rs,rfl,rfl,hrs⟩ := map_eq_cons_iff.mp hrest
  have hlength : (tagged qs).length = before.length := by
    have hboth := congrArg List.length (hfirst.symm.trans (hqs ▸ fst_tagged.symm))
    simpa using hboth.symm
  rw [tagged_append,tagged,tagged,flatMap_cons,append_assoc]
    at htagged
  obtain ⟨rfl,hrow⟩ := append_inj htagged hlength
  obtain ⟨hr,rfl⟩ := append_inj hrow (by simp)
  have hb : b = false := by
    have hmember : r ∈ joins parts := hjoins ▸ mem_append_right first mem_cons_self
    have hlong : 1 < r.lines.length := by simpa using (mem_filter.mp hmember).2
    obtain ⟨l,rest,hcons⟩ := exists_cons_of_length_pos (Nat.zero_lt_of_lt hlong)
    simp only [hcons,map_cons] at hr
    exact congrArg Prod.snd (List.cons.inj hr).1
  subst hb
  refine ⟨qs ++ (r, true) :: rs,?_,?_,?_⟩
  · rw [hls']
    simp [tagged]
  · rw [hjoins,← hqs,← hrs]
    simp
  · simp only [texts,filter_append,map_append]
    rw [filter_cons_of_pos rfl,map_cons,show r.joined = p.joined from hseg]
    exact perm_middle

theorem unused_matchJoined {ps : Marks} {lines : List Str}
    (hlines : ∀ p ∈ joins parts, ∀ l ∈ p.lines, l ≠ []) (hunambiguous : Unambiguous parts)
    (hps : ps.map Prod.fst = joins parts) (hperm : lines.Perm (texts ps)) :
    unused (matchJoined lines (tagged ps)) = [] := by
  induction lines generalizing ps with
  | nil =>
    have hused := filter_eq_nil_iff.mp (map_eq_nil_iff.mp hperm.nil_eq.symm)
    apply map_eq_nil_iff.mpr (filter_eq_nil_iff.mpr _)
    intro l hl
    obtain ⟨p,hp,hl⟩ := mem_flatMap.mp hl
    obtain ⟨_,-,rfl⟩ := mem_map.mp hl
    exact hused p hp
  | cons line rest ih =>
    obtain ⟨ps',hplace,hps',htexts⟩ := place_tagged hlines hunambiguous hps
      (hperm.mem_iff.mp mem_cons_self)
    have hrest := ih hps' (hperm.trans htexts).cons_inv
    rwa [matchJoined,foldl_cons,hplace]

theorem lines_eq_of_not_long {p : Part} (hp : p.lines ≠ []) (hlong : ¬ 1 < p.lines.length) :
    p.lines = [p.joined] := by
  obtain ⟨l,rest,hcons⟩ := exists_cons_of_ne_nil hp
  rw [hcons,length_cons] at hlong
  obtain rfl : rest = [] := length_eq_zero_iff.mp (by omega)
  simp [Part.joined,hcons]

theorem perm_joins (hne : ∀ p ∈ parts, p.lines ≠ []) :
    (parts.map Part.joined ++ (joins parts).flatMap Part.lines).Perm
      ((joins parts).map Part.joined ++ parts.flatMap Part.lines) := by
  apply perm_iff_count.mpr
  intro x
  induction parts with
  | nil => rfl
  | cons p rest ih =>
    have hrest := ih fun q hq => hne q (mem_cons_of_mem _ hq)
    by_cases hlong : 1 < p.lines.length
    · rw [joins,filter_cons_of_pos (by simpa using hlong),← joins]
      simp only [map_cons,flatMap_cons,count_append,count_cons] at hrest ⊢
      omega
    · rw [joins,filter_cons_of_neg (by simpa using hlong),← joins,flatMap_cons,
        lines_eq_of_not_long (hne p mem_cons_self) hlong]
      simp only [map_cons,count_append,count_cons,count_nil] at hrest ⊢
      omega

theorem filter_lines {left : Str → Bool} (hne : ∀ p ∈ parts, p.lines ≠ [])
    (hjoin : ∀ p ∈ joins parts, ∀ l ∈ p.lines, left l)
    (hwhole : ∀ p ∈ parts, left p.joined = false) :
    (parts.flatMap Part.lines).filter left = (joins parts).flatMap Part.lines := by
  induction parts with
  | nil => rfl
  | cons p rest ih =>
    have hrest := ih (fun q hq => hne q (mem_cons_of_mem _ hq))
      (fun q hq => hjoin q ((sublist_cons_self p rest).filter _ |>.subset hq))
      fun q hq => hwhole q (mem_cons_of_mem _ hq)
    rw [flatMap_cons,filter_append,hrest]
    by_cases hlong : 1 < p.lines.length
    · have hall : ∀ l ∈ p.lines, left l := hjoin p
        (mem_filter.mpr ⟨mem_cons_self,by simpa using hlong⟩)
      rw [joins,joins,filter_cons_of_pos (by simpa using hlong),flatMap_cons,
        filter_eq_self.mpr hall]
    · rw [joins,joins,filter_cons_of_neg (by simpa using hlong),
        lines_eq_of_not_long (hne p mem_cons_self) hlong,
        filter_cons_of_neg (by simp [hwhole p mem_cons_self])]
      rfl

theorem Divided.verify_of_kept
    (h : Divided records blocks tocIndices ignoredOutputTexts parts)
    (hkept : ∀ p ∈ parts, p.kept = true) (hunambiguous : Unambiguous parts) :
    verifyContentPreservation records blocks tocIndices ignoredOutputTexts = [] := by
  have hall : parts.filter Part.kept = parts := filter_eq_self.mpr hkept
  have htimes : ∀ x, times (outputLines blocks ignoredOutputTexts) x =
      (parts.map Part.joined).count x := by
    intro x
    rw [h.times_outputLines,hall]
  have habsent : ∀ x ∈ (joins parts).flatMap Part.lines, x ∉ parts.map Part.joined := by
    intro x hx hmem
    obtain ⟨p,hp,hl⟩ := mem_flatMap.mp hx
    obtain ⟨q,hq,rfl⟩ := mem_map.mp hmem
    exact hunambiguous.whole p hp _ hl q hq rfl
  have hperm := perm_joins h.nonempty
  have hleft : (matchWhole (sourceLines records tocIndices)
      (outputLines blocks ignoredOutputTexts)).2 = (joins parts).flatMap Part.lines := by
    rw [matchWhole_of_enough,h.source]
    · apply filter_lines h.nonempty
      · intro p hp l hl
        simpa [htimes] using count_eq_zero.mpr (habsent l (mem_flatMap.mpr ⟨p,hp,hl⟩))
      · intro p hp
        simp [htimes,count_eq_zero]
        exact ⟨p,hp,rfl⟩
    · intro x _
      have hcount := hperm.count_eq x
      rw [count_append,count_append] at hcount
      rw [htimes,h.source]
      by_cases hx : x ∈ (joins parts).flatMap Part.lines
      · exact .inl (count_eq_zero.mpr (habsent x hx))
      · rw [count_eq_zero.mpr hx] at hcount
        omega
  have hout := h.perm_whole
  dsimp only at hout
  rw [hleft,hall,h.source] at hout
  have hlines := (perm_append_right_iff _).mp (hout.trans hperm)
  have hne : ∀ p ∈ joins parts, ∀ l ∈ p.lines, l ≠ [] := by
    intro p hp l hl
    have hmem : l ∈ sourceLines records tocIndices := by
      rw [h.source]
      exact mem_flatMap.mpr ⟨p,mem_of_mem_filter hp,hl⟩
    exact ne_nil_of_mem_sourceLines hmem
  have hrun := @unused_matchJoined parts ((joins parts).map fun p => (p, false)) _ hne hunambiguous
    (by simp [comp_def])
    (by simpa [texts,filter_map,comp_def] using hlines)
  rw [verifyContentPreservation,hleft]
  simpa [h.source,tagged,flatMap_map,map_flatMap] using hrun

end

/-- Nothing that was lost is overlooked, and where every join is unambiguous nothing else is
reported. -/
theorem content_preservation {records : List Record} {blocks ignoredOutputTexts : List (Option Str)}
    {tocIndices : List ℕ} {parts : List Part}
    (h : Divided records blocks tocIndices ignoredOutputTexts parts) :
    (verifyContentPreservation records blocks tocIndices ignoredOutputTexts = [] →
      ∀ p ∈ parts, p.kept = true) ∧
    (Unambiguous parts → (∀ p ∈ parts, p.kept = true) →
      verifyContentPreservation records blocks tocIndices ignoredOutputTexts = []) :=
  ⟨h.kept_of_verify,fun hunambiguous hkept => h.verify_of_kept hkept hunambiguous⟩

def paragraphs (texts : List String) : List Record :=
  texts.map fun t => { kind := .para, text := some t.toList }

def oneJoin : List Part := [⟨["ab".toList, "c".toList], true⟩, ⟨["d".toList], true⟩]

theorem oneJoin_divided : Divided (paragraphs ["ab", "c", "d"]) [some "# ab c\nd\n...".toList] []
    [some "...".toList] oneJoin where
  source := by decide +kernel
  nonempty := by decide
  output := by decide +kernel

theorem oneJoin_unambiguous : Unambiguous oneJoin where
  whole := by decide
  joined before middle after hsplit hmiddle := by
    have hjoins : (joins oneJoin).flatMap Part.lines = ["ab".toList, "c".toList] := by decide
    rw [hjoins] at hsplit
    have hlines : ∀ l ∈ before ++ middle ++ after, l ≠ [] := by
      rw [← hsplit]
      decide
    have hlength : middle.flatten.length = 3 := by
      obtain ⟨p,hp,hmiddle⟩ := hmiddle
      obtain rfl := mem_singleton.mp (show p ∈ [oneJoin[0]] from hp)
      rw [hmiddle]
      rfl
    have htotal := congrArg (fun ls => ls.flatten.length) hsplit
    simp only [flatten_append,length_append] at htotal
    have hnil : ∀ ls : List Str, (∀ l ∈ ls, l ≠ []) → ls.flatten = [] → ls = [] := by
      intro ls hne hls
      apply eq_nil_iff_forall_not_mem.mpr
      exact fun l hl => hne l hl (flatten_eq_nil_iff.mp hls l hl)
    have hsum : (["ab".toList, "c".toList] : List Str).flatten.length = 3 := rfl
    obtain rfl := hnil before (fun l hl => hlines l (by simp [hl]))
      (length_eq_zero_iff.mp (by omega))
    obtain rfl := hnil after (fun l hl => hlines l (by simp [hl]))
      (length_eq_zero_iff.mp (by omega))
    exact ⟨[],oneJoin[0],[],rfl,rfl,hsplit.trans (append_nil _)⟩

/-- Two lines that the output has in one are found. -/
theorem content_preservation_one_join :
    verifyContentPreservation (paragraphs ["ab", "c", "d"]) [some "# ab c\nd\n...".toList] []
      [some "...".toList] = [] ∧ ∀ p ∈ oneJoin, p.kept = true :=
  have h := content_preservation oneJoin_divided
  have hnil := h.2 oneJoin_unambiguous (by decide)
  ⟨hnil,h.1 hnil⟩

def repeatedLine : List Part := [⟨["a".toList, "b".toList], true⟩, ⟨["a".toList], true⟩]

/-- The whole line takes the first of two equal paragraphs away from the join. -/
theorem content_preservation_repeated_line :
    Divided (paragraphs ["a", "b", "a"]) [some "# ab\na".toList] [] [] repeatedLine ∧
      (∀ p ∈ repeatedLine, p.kept = true) ∧
      verifyContentPreservation (paragraphs ["a", "b", "a"]) [some "# ab\na".toList] [] [] =
        ["b".toList, "a".toList] :=
  ⟨⟨by decide +kernel,by decide,by decide +kernel⟩,by decide,by decide +kernel⟩

end LightRAG.SmartHeading
