/-
# Matrices

A matrix is a list of rows of equal length.  The number of columns is not stored beside the rows.  It is
derived from them, as the length of the first row, so a matrix without rows has no columns, while rows may
well be empty.

Every operation that fills a matrix row by row goes through `Matrix.ofRows`, which is given the number of
columns, or through `Matrix.collect`, which runs a row operation that may fail.  The number that is given
must be the length of every row, and then it is the number of columns of the matrix, unless there are no
rows.

Main statement: `columnCount_ofRows`: the number of columns that is derived is the one that is given, or
zero without rows.
-/
import Abacus.Binary64.Arithmetic
import Abacus.Binary64.Decimal
import Abacus.Error
import Abacus.Sequencing

namespace Abacus

/-! ## 1. Rows of one length -/

/-- The length of the first row. -/
def columnCountOf (rows : List (List Binary64)) : Nat := (rows.head?.map List.length).getD 0

/-- Rows of equal length. -/
structure Matrix where
  /-- The rows from top to bottom. -/
  rows : List (List Binary64)
  /-- Every row is as long as the first. -/
  rectangular : ∀ row ∈ rows, row.length = columnCountOf rows

namespace Matrix

/-- A matrix is its rows. -/
theorem ext_rows {a b : Matrix} (h : a.rows = b.rows) : a = b := by
  cases a; cases b; cases h; rfl

instance : DecidableEq Matrix := fun a b =>
  if h : a.rows = b.rows then isTrue (ext_rows h)
  else isFalse (fun e => h (congrArg Matrix.rows e))

/-- The number of rows. -/
def rowCount (m : Matrix) : Nat := m.rows.length

/-- The number of columns. -/
def columnCount (m : Matrix) : Nat := columnCountOf m.rows

/-- Both counts. -/
def dimensions (m : Matrix) : Dimensions := ⟨m.rowCount, m.columnCount⟩

/-- Rows of a common length. -/
def ofRows (rows : List (List Binary64)) (columns : Nat)
    (h : ∀ row ∈ rows, row.length = columns) : Matrix where
  rows := rows
  rectangular := by
    intro row hrow
    cases rows with
    | nil => simp at hrow
    | cons first rest =>
      rw [h row hrow]
      exact (h first (by simp)).symm

@[simp] theorem rows_ofRows {rows : List (List Binary64)} {columns : Nat}
    (h : ∀ row ∈ rows, row.length = columns) : (ofRows rows columns h).rows = rows := rfl

/-- **The number of columns** is the one that is given, and zero if there are no rows. -/
theorem columnCount_ofRows {rows : List (List Binary64)} {columns : Nat}
    (h : ∀ row ∈ rows, row.length = columns) :
    (ofRows rows columns h).columnCount = if rows.isEmpty then 0 else columns := by
  cases rows with
  | nil => rfl
  | cons first rest => exact h first List.mem_cons_self

/-- What is wrong with rows of different lengths: the first one that differs from the first. -/
def raggedness (rows : List (List Binary64)) : Mismatch :=
  let columns := columnCountOf rows
  let index := rows.findIdx (fun row => row.length != columns)
  .raggedRow (index + 1) (rows.getD index []).length columns

/-- The matrix with given rows, if they have one length. -/
def make (rows : List (List Binary64)) (position : Position) : Except Error Matrix :=
  if h : ∀ row ∈ rows, row.length = columnCountOf rows then .ok ⟨rows, h⟩
  else .error ⟨.shapeMismatch (raggedness rows), position⟩

/-! ## 2. Rows computed one by one -/

/-- The matrix of the rows that an operation computes from inputs, each of a common length. -/
def collect {α : Type} (inputs : List α) (f : α → Except Error (List Binary64)) (columns : Nat)
    (h : ∀ x ∈ inputs, ∀ row, f x = .ok row → row.length = columns) : Except Error Matrix :=
  match hrun : inputs.mapM f with
  | .error e => .error e
  | .ok rows => .ok (ofRows rows columns (by
      intro row hrow
      obtain ⟨x, hx, hfx⟩ := mem_of_mapM hrun row hrow
      exact h x hx row hfx))

/-- A function on every element. -/
def map (f : Binary64 → Binary64) (m : Matrix) : Matrix :=
  ofRows (m.rows.map (List.map f)) m.columnCount (by
    intro row hrow
    obtain ⟨source, hsource, rfl⟩ := List.mem_map.mp hrow
    rw [List.length_map]
    exact m.rectangular source hsource)

/-! ## 3. Columns and products -/

/-- The elements of one column from top to bottom. -/
def column (m : Matrix) (j : Nat) : List Binary64 := m.rows.map (fun row => row.getD j .zero)

/-- The columns from left to right. -/
def columns (m : Matrix) : List (List Binary64) := (List.range m.columnCount).map m.column

theorem length_column (m : Matrix) (j : Nat) : (m.column j).length = m.rowCount := by
  simp [column, rowCount]

/-- Rows and columns swapped. -/
def transpose (m : Matrix) : Matrix :=
  ofRows m.columns m.rowCount (by
    intro row hrow
    obtain ⟨j, -, rfl⟩ := List.mem_map.mp hrow
    exact m.length_column j)

/-- The sum of products of a row and a column, accumulated from the left with one rounding for each
product and addition. -/
def dot (row column : List Binary64) : Binary64 :=
  (row.zip column).foldl (fun sum pair => Binary64.fusedMulAdd pair.1 pair.2 sum) .zero

/-- The matrix product. -/
def product (left right : Matrix) (position : Position) : Except Error Matrix :=
  if left.columnCount = right.rowCount then
    .ok (ofRows (left.rows.map (fun row => right.columns.map (dot row))) right.columnCount (by
      intro row hrow
      obtain ⟨source, -, rfl⟩ := List.mem_map.mp hrow
      simp [columns]))
  else .error ⟨.shapeMismatch (.product left.dimensions right.dimensions), position⟩

end Matrix

/-! ## 4. Written form -/

/-- Numbers in square brackets. -/
def renderRow (row : List Binary64) : Text := Text.bracketed (row.map Binary64.render)

/-- The rows of a matrix in square brackets. -/
def Matrix.render (m : Matrix) : Text := Text.bracketed (m.rows.map renderRow)

end Abacus
