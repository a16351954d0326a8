import LightRAG.Framework.Dict
import Mathlib.Algebra.GroupWithZero.Nat

/-!
# Tables of a docx file

`parser/docx/table_extractor.py` places the cells of each row on the columns of the table's grid and
carries the content of vertically merged cells from row to row.
-/

namespace LightRAG.DocxTables

/-- What is placed for a cell: its text with the ids of its first and its last paragraph. -/
structure Content where
  text : String
  paraId : Option String
  paraIdEnd : Option String
deriving DecidableEq

def Content.blank : Content := ⟨"", none, none⟩

/-- The value of a `w:vMerge`. -/
inductive VMerge
  | restart
  | continued
  | other (val : String)
deriving DecidableEq

/-- A `w:tc` with its own content. -/
structure Cell where
  gridSpan : ℕ
  gridSpan_pos : 0 < gridSpan
  vMerge : Option VMerge
  own : Content
deriving DecidableEq

/-- A `w:tr`. The extraction does not read the columns that it leaves out at its ends. -/
structure Row where
  cells : List Cell
  gridBefore : ℕ
  gridAfter : ℕ
deriving DecidableEq

/-- `vmerge_content`, by column. -/
abbrev Merged := Dict ℕ Content

/-- One cell of the loop: what is placed, and the merges after it. -/
def cellContent (merged : Merged) (gridCol : ℕ) (c : Cell) : Content × Merged :=
  match c.vMerge with
  | some .restart => (c.own, merged.set gridCol c.own)
  | none =>
    if c.own.text = "" then
      match merged.get gridCol with
      | some start => (start, merged)
      | none => (c.own, merged)
    else (c.own, merged.drop (· = gridCol))
  | some .continued =>
    match merged.get gridCol with
    | some start => (⟨start.text, start.paraId, c.own.paraIdEnd⟩, merged)
    | none => (.blank, merged)
  | some (.other _) => (.blank, merged)

variable (numCols : ℕ)

def rowLoop : List Cell → ℕ → List Content → Merged → List Content × Merged
  | [], _, rowData, merged => (rowData, merged)
  | c :: cs, gridCol, rowData, merged =>
    let placed := cellContent merged gridCol c
    rowLoop cs (gridCol + c.gridSpan)
      (if gridCol < numCols then rowData.set gridCol placed.1 else rowData) placed.2

def gridLoop : List Row → Merged → List (List Content)
  | [], _ => []
  | row :: rows, merged =>
    let done := rowLoop numCols row.cells 0 (List.replicate numCols .blank) merged
    done.1 :: gridLoop rows done.2

/-- `TableExtractor.extract_with_metadata` of a table whose grid has `numCols` columns. -/
def extract (rows : List Row) : List (List Content) :=
  if numCols = 0 then [] else gridLoop numCols rows Dict.empty

def Starts (cells : List Cell) (col : ℕ) (c : Cell) : Prop :=
  ∃ before after, cells = before ++ c :: after ∧ (before.map Cell.gridSpan).sum = col

def Cell.Bounds (c : Cell) : Prop :=
  c.vMerge = some .restart ∨ c.vMerge = none ∧ c.own.text ≠ ""

/-- The last merge that begins in the column has not ended. -/
def Carried (rows : List Row) (col : ℕ) (m : Content) : Prop :=
  ∃ above row below c, rows = above ++ row :: below ∧ Starts row.cells col c ∧
    c.vMerge = some .restart ∧ c.own = m ∧ ∀ r ∈ below, ∀ c', Starts r.cells col c' → ¬ c'.Bounds

/-- What the cell that starts in the column shows below the rows. -/
inductive ValueOf (above : List Row) (col : ℕ) (c : Cell) : Content → Prop
  | restart : c.vMerge = some .restart → ValueOf above col c c.own
  | text : c.vMerge = none → c.own.text ≠ "" → ValueOf above col c c.own
  | region {m : Content} : c.vMerge = none → c.own.text = "" → Carried above col m →
      ValueOf above col c m
  | empty : c.vMerge = none → c.own.text = "" → (∀ m, ¬ Carried above col m) →
      ValueOf above col c c.own
  | continued {m : Content} : c.vMerge = some .continued → Carried above col m →
      ValueOf above col c ⟨m.text, m.paraId, c.own.paraIdEnd⟩
  | orphan : c.vMerge = some .continued → (∀ m, ¬ Carried above col m) →
      ValueOf above col c .blank
  | other {val : String} : c.vMerge = some (.other val) → ValueOf above col c .blank

/-- A row of the grid below the rows: one value for each column, that of the cell that starts there,
and nothing where none starts. -/
structure ShowsRow (above : List Row) (row : Row) (values : List Content) : Prop where
  width : values.length = numCols
  cell : ∀ col v c, values[col]? = some v → Starts row.cells col c → ValueOf above col c v
  gap : ∀ col v, values[col]? = some v → (∀ c, ¬ Starts row.cells col c) → v = .blank

end LightRAG.DocxTables
