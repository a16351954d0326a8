import LightRAG.Parsing.DocxTables
import Mathlib.Data.List.Induction

/-!
# The grid of a docx table

In each column the merges are a state that only the cells starting there change, so the rows above
determine what a cell shows.
-/

namespace LightRAG.DocxTables
open List Option

variable {numCols col j : ℕ} {c : Cell} {cells : List Cell} {rows : List Row} {row : Row}
  {merged : Merged} {m : Content}

/-- The cell that starts in a column, for cells from `col` on. -/
def cellAt : List Cell → ℕ → ℕ → Option Cell
  | [], _, _ => none
  | c :: cs, col, j => if col = j then some c else cellAt cs (col + c.gridSpan) j

theorem cellAt_of_lt (h : j < col) : cellAt cells col j = none := by
  induction cells generalizing col with
  | nil => rfl
  | cons c cells ih =>
    rw [cellAt,if_neg (by omega)]
    exact ih (by omega)

theorem cellAt_eq_some : cellAt cells col j = some c ↔
    ∃ before after, cells = before ++ c :: after ∧ col + (before.map Cell.gridSpan).sum = j := by
  induction cells generalizing col with
  | nil => simp [cellAt]
  | cons d cells ih =>
    rw [cellAt]
    split
    · rename_i hcol
      constructor
      · intro h
        exact ⟨[],cells,by rw [some.inj h]; rfl,by simpa using hcol⟩
      · rintro ⟨before,after,heq,hsum⟩
        cases before with
        | nil => rw [(List.cons.inj heq).1]
        | cons e before =>
          obtain rfl := (List.cons.inj heq).1
          have hpos := d.gridSpan_pos
          simp only [map_cons,sum_cons] at hsum
          omega
    · rw [ih]
      constructor
      · rintro ⟨before,after,rfl,hsum⟩
        refine ⟨d :: before,after,rfl,?_⟩
        simp only [map_cons,sum_cons]
        omega
      · rintro ⟨before,after,heq,hsum⟩
        cases before with
        | nil =>
          simp only [map_nil,sum_nil] at hsum
          omega
        | cons e before =>
          obtain ⟨rfl,rfl⟩ := List.cons.inj heq
          refine ⟨before,after,rfl,?_⟩
          simp only [map_cons,sum_cons] at hsum
          omega

theorem cellAt_eq_some_iff : cellAt cells 0 j = some c ↔ Starts cells j c := by
  simp only [cellAt_eq_some,Starts,Nat.zero_add]

theorem cellAt_eq_none_iff : cellAt cells 0 j = none ↔ ∀ c, ¬ Starts cells j c := by
  simp only [← cellAt_eq_some_iff,eq_none_iff_forall_ne_some]

/-- What a cell shows when `m` is carried in its column. -/
def shown (m : Option Content) (c : Cell) : Content :=
  match c.vMerge, m with
  | some .restart, _ => c.own
  | none, some start => if c.own.text = "" then start else c.own
  | none, none => c.own
  | some .continued, some start => ⟨start.text, start.paraId, c.own.paraIdEnd⟩
  | some .continued, none => .blank
  | some (.other _), _ => .blank

def carry (m : Option Content) (c : Cell) : Option Content :=
  match c.vMerge with
  | some .restart => some c.own
  | none => if c.own.text = "" then m else none
  | _ => m

theorem cellContent_shown : (cellContent merged col c).1 = shown (merged.get col) c := by
  unfold cellContent shown
  cases c.vMerge with
  | none =>
    by_cases htext : c.own.text = ""
    · simp only [htext]
      cases merged.get col <;> rfl
    · simp only [htext]
      cases merged.get col <;> rfl
  | some v =>
    cases v with
    | restart => rfl
    | continued => cases merged.get col <;> rfl
    | other val => rfl

theorem cellContent_carry : (cellContent merged col c).2.get j =
    if j = col then carry (merged.get col) c else merged.get j := by
  unfold cellContent carry
  cases c.vMerge with
  | none =>
    by_cases htext : c.own.text = ""
    · cases hget : merged.get col <;> simp only <;> split <;> simp_all
    · simp only [htext,if_false]
      rw [Dict.get_drop]
  | some v =>
    cases v with
    | restart =>
      rw [Dict.get_set]
    | continued =>
      cases hget : merged.get col <;> simp only <;> split <;> simp_all
    | other val =>
      split <;> simp_all

/-- The column after the cell that starts in it, if one does. -/
def carryAt (m : Option Content) : Option Cell → Option Content
  | none => m
  | some c => carry m c

theorem rowLoop_length (rowData : List Content) :
    (rowLoop numCols cells col rowData merged).1.length = rowData.length := by
  induction cells generalizing col rowData merged with
  | nil => rfl
  | cons c cells ih =>
    rw [rowLoop,ih]
    split <;> simp

theorem rowLoop_carry (rowData : List Content) :
    (rowLoop numCols cells col rowData merged).2.get j =
      carryAt (merged.get j) (cellAt cells col j) := by
  induction cells generalizing col rowData merged with
  | nil => rfl
  | cons c cells ih =>
    rw [rowLoop,ih,cellContent_carry,cellAt]
    by_cases hj : j = col
    · subst hj
      have hpos := c.gridSpan_pos
      rw [if_pos rfl,if_pos rfl,cellAt_of_lt (by omega)]
      rfl
    · rw [if_neg hj,if_neg (Ne.symm hj)]

theorem rowLoop_value (rowData : List Content) (hwidth : rowData.length = numCols)
    (hj : j < numCols) : (rowLoop numCols cells col rowData merged).1[j]? =
      match cellAt cells col j with
      | none => rowData[j]?
      | some c => some (shown (merged.get j) c) := by
  induction cells generalizing col rowData merged with
  | nil => rfl
  | cons c cells ih =>
    have hset : (if col < numCols then rowData.set col (cellContent merged col c).1
        else rowData).length = numCols := by
      split <;> simp [hwidth]
    rw [rowLoop,ih _ hset,cellAt]
    by_cases hcol : col = j
    · subst hcol
      have hpos := c.gridSpan_pos
      rw [cellAt_of_lt (by omega),if_pos rfl,if_pos hj]
      rw [List.getElem?_set_self (by omega),cellContent_shown]
    · rw [if_neg hcol,cellContent_carry,if_neg (Ne.symm hcol)]
      cases cellAt cells (col + c.gridSpan) j with
      | some d => rfl
      | none =>
        simp only
        split
        · rw [List.getElem?_set_ne hcol]
        · rfl

def carriedBelow (col : ℕ) (rows : List Row) : Option Content :=
  rows.foldl (fun m row => carryAt m (cellAt row.cells 0 col)) none

theorem carriedBelow_snoc : carriedBelow col (rows ++ [row]) =
    carryAt (carriedBelow col rows) (cellAt row.cells 0 col) := by
  rw [carriedBelow,foldl_append]
  rfl

theorem carry_of_bounds (h : ¬ c.Bounds) (m : Option Content) : carry m c = m := by
  unfold Cell.Bounds at h
  rw [not_or] at h
  unfold carry
  split
  · rename_i hrestart
    exact absurd hrestart h.1
  · rename_i hnone
    rw [if_pos (by simpa [hnone] using h.2)]
  · rfl

theorem not_carried_nil (col : ℕ) (m : Content) : ¬ Carried [] col m := by
  rintro ⟨above,row,below,c,heq,-⟩
  simp at heq

theorem carried_snoc_of_not_bounds (h : ∀ c, Starts row.cells col c → ¬ c.Bounds) :
    Carried (rows ++ [row]) col m ↔ Carried rows col m := by
  constructor
  · rintro ⟨above,r,below,c,heq,hstarts,hrestart,hown,hbelow⟩
    rcases eq_nil_or_concat below with rfl | ⟨below,last,rfl⟩
    · obtain ⟨rfl,hlast⟩ := append_inj' heq rfl
      obtain rfl := (List.cons.inj hlast).1
      exact absurd (Or.inl hrestart) (h c hstarts)
    · rw [concat_eq_append] at heq hbelow
      have hsplit : rows ++ [row] = (above ++ r :: below) ++ [last] := by
        rw [heq,append_assoc,cons_append]
      obtain ⟨rfl,-⟩ := append_inj' hsplit rfl
      exact ⟨above,r,below,c,rfl,hstarts,hrestart,hown,
        fun r' hr' => hbelow r' (mem_append_left _ hr')⟩
  · rintro ⟨above,r,below,c,rfl,hstarts,hrestart,hown,hbelow⟩
    refine ⟨above,r,below ++ [row],c,by simp,hstarts,hrestart,hown,?_⟩
    intro r' hr' c' hc'
    rcases mem_append.mp hr' with hr' | hr'
    · exact hbelow r' hr' c' hc'
    · obtain rfl := mem_singleton.mp hr'
      exact h c' hc'

theorem carried_snoc_of_bounds (hstarts : Starts row.cells col c) (hbounds : c.Bounds) :
    Carried (rows ++ [row]) col m ↔ c.vMerge = some .restart ∧ c.own = m := by
  constructor
  · rintro ⟨above,r,below,d,heq,hd,hrestart,hown,hbelow⟩
    rcases eq_nil_or_concat below with rfl | ⟨below,last,rfl⟩
    · obtain ⟨-,hlast⟩ := append_inj' heq rfl
      obtain rfl := (List.cons.inj hlast).1
      have hsame : c = d := by
        rw [← cellAt_eq_some_iff] at hstarts hd
        exact some.inj (hstarts.symm.trans hd)
      rw [hsame]
      exact ⟨hrestart,hown⟩
    · rw [concat_eq_append] at heq hbelow
      have hsplit : rows ++ [row] = (above ++ r :: below) ++ [last] := by
        rw [heq,append_assoc,cons_append]
      obtain ⟨-,hlast⟩ := append_inj' hsplit rfl
      obtain rfl := (List.cons.inj hlast).1
      exact absurd hbounds (hbelow row (by simp) c hstarts)
  · rintro ⟨hrestart,hown⟩
    exact ⟨rows,row,[],c,rfl,hstarts,hrestart,hown,fun r hr => nomatch hr⟩

theorem carriedBelow_eq_some : carriedBelow col rows = some m ↔ Carried rows col m := by
  induction rows using List.reverseRecOn with
  | nil =>
    constructor
    · intro h
      cases h
    · intro h
      exact absurd h (not_carried_nil col m)
  | append_singleton rows row ih =>
    rw [carriedBelow_snoc]
    cases hcell : cellAt row.cells 0 col with
    | none =>
      rw [cellAt_eq_none_iff] at hcell
      rw [carried_snoc_of_not_bounds fun c hc => absurd hc (hcell c)]
      exact ih
    | some c =>
      rw [cellAt_eq_some_iff] at hcell
      rw [carryAt]
      by_cases hbounds : c.Bounds
      · rw [carried_snoc_of_bounds hcell hbounds]
        rcases hbounds with hrestart | ⟨hnone,htext⟩
        · simp [carry,hrestart]
        · simp [carry,hnone,htext]
      · have hunique : ∀ d, Starts row.cells col d → ¬ d.Bounds := by
          intro d hd
          rw [← cellAt_eq_some_iff] at hcell hd
          obtain rfl := some.inj (hcell.symm.trans hd)
          exact hbounds
        rw [carry_of_bounds hbounds,carried_snoc_of_not_bounds hunique]
        exact ih

theorem carriedBelow_eq_none : carriedBelow col rows = none ↔ ∀ m, ¬ Carried rows col m := by
  simp only [← carriedBelow_eq_some,eq_none_iff_forall_ne_some]

theorem valueOf_shown (above : List Row) (col : ℕ) (c : Cell) :
    ValueOf above col c (shown (carriedBelow col above) c) := by
  cases hcarried : carriedBelow col above with
  | none =>
    rw [carriedBelow_eq_none] at hcarried
    cases hv : c.vMerge with
    | none =>
      rw [show shown none c = c.own by simp [shown,hv]]
      by_cases htext : c.own.text = ""
      · exact .empty hv htext hcarried
      · exact .text hv htext
    | some v =>
      cases v with
      | restart =>
        rw [show shown none c = c.own by simp [shown,hv]]
        exact .restart hv
      | continued =>
        rw [show shown none c = .blank by simp [shown,hv]]
        exact .orphan hv hcarried
      | other val =>
        rw [show shown none c = .blank by simp [shown,hv]]
        exact .other hv
  | some m =>
    rw [carriedBelow_eq_some] at hcarried
    cases hv : c.vMerge with
    | none =>
      by_cases htext : c.own.text = ""
      · rw [show shown (some m) c = m by simp [shown,hv,htext]]
        exact .region hv htext hcarried
      · rw [show shown (some m) c = c.own by simp [shown,hv,htext]]
        exact .text hv htext
    | some v =>
      cases v with
      | restart =>
        rw [show shown (some m) c = c.own by simp [shown,hv]]
        exact .restart hv
      | continued =>
        rw [show shown (some m) c = ⟨m.text,m.paraId,c.own.paraIdEnd⟩ by simp [shown,hv]]
        exact .continued hv hcarried
      | other val =>
        rw [show shown (some m) c = .blank by simp [shown,hv]]
        exact .other hv

theorem showsRow (above : List Row) (hmerged : ∀ j, merged.get j = carriedBelow j above) :
    ShowsRow numCols above row
      (rowLoop numCols row.cells 0 (List.replicate numCols .blank) merged).1 := by
  have hlength : (rowLoop numCols row.cells 0 (List.replicate numCols .blank) merged).1.length =
      numCols := by
    rw [rowLoop_length,length_replicate]
  have hvalue : ∀ j v,
      (rowLoop numCols row.cells 0 (List.replicate numCols .blank) merged).1[j]? = some v →
      match cellAt row.cells 0 j with
      | none => v = .blank
      | some c => v = shown (carriedBelow j above) c := by
    intro j v hv
    have hj : j < numCols := by
      rw [← hlength]
      exact (List.getElem?_eq_some_iff.mp hv).1
    rw [rowLoop_value _ length_replicate hj,hmerged] at hv
    cases hcell : cellAt row.cells 0 j with
    | none =>
      rw [hcell] at hv
      simp only [List.getElem?_replicate,hj] at hv
      exact (some.inj hv).symm
    | some c =>
      rw [hcell] at hv
      exact (some.inj hv).symm
  constructor
  · exact hlength
  · intro j v c hv hstarts
    have hshown := hvalue j v hv
    rw [cellAt_eq_some_iff.mpr hstarts] at hshown
    rw [hshown]
    exact valueOf_shown above j c
  · intro j v hv hnone
    have hblank := hvalue j v hv
    rwa [cellAt_eq_none_iff.mpr hnone] at hblank

theorem gridLoop_shows (above : List Row) (hmerged : ∀ j, merged.get j = carriedBelow j above) :
    (gridLoop numCols rows merged).length = rows.length ∧
      ∀ i row values, rows[i]? = some row → (gridLoop numCols rows merged)[i]? = some values →
        ShowsRow numCols (above ++ rows.take i) row values := by
  induction rows generalizing above merged with
  | nil => exact ⟨rfl,fun i row values hrow _ => nomatch hrow⟩
  | cons row rows ih =>
    have hnext : ∀ j, (rowLoop numCols row.cells 0 (List.replicate numCols .blank) merged).2.get j =
        carriedBelow j (above ++ [row]) := by
      intro j
      rw [rowLoop_carry,hmerged,carriedBelow_snoc]
    obtain ⟨hlength,hrows⟩ := ih (above ++ [row]) hnext
    rw [gridLoop]
    refine ⟨by simp [hlength],?_⟩
    intro i r values hr hvalues
    cases i with
    | zero =>
      obtain rfl := some.inj hr
      obtain rfl := some.inj hvalues
      rw [take_zero,append_nil]
      exact showsRow above hmerged
    | succ i =>
      have hshows := hrows i r values hr hvalues
      rwa [append_assoc] at hshows

/-- Every row of the table is shown on the grid: as many values as the grid has columns, each cell
in the column in which it starts, with what is carried there where it has none of its own. -/
theorem extract_shows (numCols : ℕ) (rows : List Row) :
    (extract numCols rows).length = (if numCols = 0 then 0 else rows.length) ∧
      ∀ i row values, rows[i]? = some row → (extract numCols rows)[i]? = some values →
        ShowsRow numCols (rows.take i) row values := by
  unfold extract
  split
  · exact ⟨rfl,fun i row values _ hvalues => nomatch hvalues⟩
  · exact gridLoop_shows [] fun j => rfl

/-- A cell over two columns is shown in the first one only. -/
theorem not_fills_span :
    ¬ ∀ (numCols : ℕ) (rows : List Row) (i : ℕ) (row : Row) (values : List Content) (col k : ℕ)
      (c : Cell), rows[i]? = some row → (extract numCols rows)[i]? = some values →
      Starts row.cells col c → c.vMerge = none → k < c.gridSpan → col + k < numCols →
      (values[col + k]?).map Content.text = some c.own.text := by
  intro hall
  have hfilled := hall 2 [⟨[⟨2,by decide,none,⟨"total",none,none⟩⟩],0,0⟩] 0 _ _ 0 1 _ rfl rfl
    ⟨[],[],rfl,rfl⟩ rfl (by decide) (by decide)
  exact absurd hfilled (by decide)

end LightRAG.DocxTables
