/-
# Transposed matrices

A matrix is transposed by pushing the elements of one row after the other onto a list for each column.
What the lists are in the end can be said without the loop: after some rows, the list for a column has
the elements that these rows have there (`foldl_pushRow`).  So a column of the transposed matrix is a row
again, and with that transposing twice and the product of transposed matrices are equations between lists
of rows and columns.

A product reads its left factor by rows and its right factor by columns, so the transposed factors in the
other order add the same products in the same order.  What is left is that the two factors of each of
these products are swapped, which makes no difference although the product and the addition are rounded
together (`Binary64.fusedMulAdd_comm`).

Main statements:

* `foldl_pushRow_rows`: the loop over the rows ends with the rows of the transposed matrix;
* `columns_transpose`: the columns of the transposed matrix are the rows;
* `transpose_dual`: transposing swaps rows and columns, is undone by transposing again, and turns a
  product into the product of the transposed factors in the other order.
-/
import Mathlib.Data.List.GetD
import Mathlib.Data.List.Zip
import Abacus.Proofs.Binary64.Nearest
import Abacus.Proofs.Value.Pointwise

namespace Abacus
namespace Matrix

open Value (eq_map_range length_getD_rows rows_eq_map_range)

variable {m a b : Matrix} {n : Nat}

/-! ## 1. The loop over the rows -/

/-- Each element of a row is pushed onto the list of its column; lists without an element stay. -/
def pushRow : List (List Binary64) → List Binary64 → List (List Binary64)
  | column :: columns, x :: row => (column ++ [x]) :: pushRow columns row
  | columns, _ => columns

theorem pushRow_map_range (f : Nat → List Binary64) {row : List Binary64} (h : row.length = n) :
    pushRow ((List.range n).map f) row
      = (List.range n).map fun j => f j ++ [row.getD j .zero] := by
  induction row generalizing n f with
  | nil =>
    obtain rfl : n = 0 := h.symm
    rfl
  | cons x row ih =>
    obtain rfl : n = row.length + 1 := h.symm
    rw [List.range_succ_eq_map, List.map_cons, List.map_cons, List.map_map, List.map_map, pushRow,
      ih (f ∘ Nat.succ) rfl]
    rfl

/-- **After some rows**, the list of each column has grown by the elements of these rows. -/
theorem foldl_pushRow {rows : List (List Binary64)} (h : ∀ row ∈ rows, row.length = n)
    (f : Nat → List Binary64) : rows.foldl pushRow ((List.range n).map f)
      = (List.range n).map fun j => f j ++ rows.map (fun row => row.getD j .zero) := by
  induction rows generalizing f with
  | nil => simp
  | cons row rows ih =>
    obtain ⟨hrow, hrows⟩ := List.forall_mem_cons.mp h
    rw [List.foldl_cons, pushRow_map_range f hrow, ih hrows]
    simp

/-- **The loop over the rows** starts with an empty list for each column and ends with the rows of the
transposed matrix. -/
theorem foldl_pushRow_rows (m : Matrix) :
    m.rows.foldl pushRow (List.replicate m.columnCount []) = m.transpose.rows := by
  have hstart : List.replicate m.columnCount ([] : List Binary64)
      = (List.range m.columnCount).map (fun _ => []) := by simp
  rw [hstart, foldl_pushRow (n := m.columnCount) m.rectangular]
  rfl

/-! ## 2. Dimensions and elements -/

/-- The element at a row and a column. -/
def element? (m : Matrix) (i j : Nat) : Option Binary64 := m.rows[i]?.bind fun row => row[j]?

/-- A matrix with columns has rows. -/
theorem rowCount_pos (h : 0 < m.columnCount) : 0 < m.rowCount := by
  rw [Nat.pos_iff_ne_zero] at h ⊢
  exact fun hrows => h ((Value.wellFormed (.matrix m)).2 hrows)

theorem rowCount_transpose (m : Matrix) : m.transpose.rowCount = m.columnCount := by
  rw [rowCount, transpose, rows_ofRows, columns, List.length_map, List.length_range]

theorem columnCount_transpose (h : 0 < m.columnCount) : m.transpose.columnCount = m.rowCount := by
  have hne : ¬ m.columns.isEmpty = true := by
    rw [List.isEmpty_iff, columns, List.map_eq_nil_iff, List.range_eq_nil]
    exact h.ne'
  rw [transpose, columnCount_ofRows, if_neg hne]

theorem dimensions_transpose (h : 0 < m.columnCount) :
    m.transpose.dimensions = ⟨m.columnCount, m.rowCount⟩ := by
  rw [dimensions, rowCount_transpose, columnCount_transpose h]

/-- Rows and columns of an element are swapped; where one matrix has no element, the other has none. -/
theorem element?_transpose (m : Matrix) (i j : Nat) : m.transpose.element? j i = m.element? i j := by
  have hlength : ∀ row, m.rows[i]? = some row → row.length = m.columnCount :=
    fun row hrow => m.rectangular row (List.mem_of_getElem? hrow)
  rw [element?, element?, transpose, rows_ofRows, columns, List.getElem?_map]
  by_cases hj : j < m.columnCount
  · rw [List.getElem?_range hj, Option.map_some, Option.bind_some, column, List.getElem?_map]
    cases hrow : m.rows[i]? with
    | none => rfl
    | some row =>
      have hj' : j < row.length := by rwa [hlength row hrow]
      rw [Option.map_some, Option.bind_some, List.getD_eq_getElem?_getD, List.getElem?_eq_getElem hj',
        Option.getD_some]
  · rw [List.getElem?_eq_none (by simpa using hj), Option.map_none, Option.bind_none, eq_comm,
      Option.bind_eq_none_iff]
    intro row hrow
    exact List.getElem?_eq_none (by rw [hlength row hrow]; exact Nat.le_of_not_lt hj)

/-! ## 3. Columns of the transposed matrix -/

theorem column_transpose {i : Nat} (hi : i < m.rowCount) :
    m.transpose.column i = m.rows.getD i [] := by
  rw [eq_map_range (length_getD_rows m hi) .zero, column, transpose, rows_ofRows, columns, List.map_map]
  exact List.map_congr_left fun j _ => List.getD_map m.rows [] fun row => row.getD j .zero

/-- **The columns of the transposed matrix are the rows**, from the first one to the last. -/
theorem columns_transpose (h : 0 < m.columnCount) : m.transpose.columns = m.rows := by
  rw [columns, columnCount_transpose h]
  conv_rhs => rw [rows_eq_map_range m]
  exact List.map_congr_left fun i hi => column_transpose (List.mem_range.mp hi)

theorem transpose_transpose (h : 0 < m.columnCount) : m.transpose.transpose = m :=
  ext_rows (columns_transpose h)

/-! ## 4. Products -/

theorem dot_comm (row column : List Binary64) : dot row column = dot column row := by
  rw [dot, dot, ← List.zip_swap row column, List.foldl_map]
  simp only [Prod.fst_swap, Prod.snd_swap, Binary64.fusedMulAdd_comm]

/-- Matrices that fit have a product: each row of the left one with every column of the right one. -/
theorem exists_product (h : a.columnCount = b.rowCount) (p : Position) :
    ∃ c, a.product b p = .ok c ∧ c.rows = a.rows.map fun row => b.columns.map (dot row) :=
  ⟨_, if_pos h, rfl⟩

/-- The columns of a product: each column of the right matrix with every row of the left one. -/
theorem columns_of_rows {c : Matrix} (ha : 0 < a.rowCount)
    (h : c.rows = a.rows.map fun row => b.columns.map (dot row)) :
    c.columns = b.columns.map fun column => a.rows.map fun row => dot row column := by
  have hcount : c.columnCount = b.columnCount := by
    obtain ⟨first, rest, hrows⟩ := List.exists_cons_of_ne_nil (List.ne_nil_of_length_pos ha)
    rw [columnCount, columnCountOf, h, hrows, List.map_cons, List.head?_cons, Option.map_some,
      Option.getD_some, List.length_map, columns, List.length_map, List.length_range]
  rw [columns, hcount, columns, List.map_map]
  refine List.map_congr_left fun j hj => ?_
  have hj' : j < b.columnCount := List.mem_range.mp hj
  rw [column, h, List.map_map]
  refine List.map_congr_left fun row _ => ?_
  simp [columns, hj']

/-- **The transposed product** is the product of the transposed factors in the other order. -/
theorem product_transpose (ha : 0 < a.columnCount) (hb : 0 < b.columnCount)
    (h : a.columnCount = b.rowCount) (p q : Position) :
    ∃ c, a.product b p = .ok c ∧ b.transpose.product a.transpose q = .ok c.transpose := by
  have hfits : b.transpose.columnCount = a.transpose.rowCount := by
    rw [columnCount_transpose hb, rowCount_transpose, h]
  obtain ⟨c, hc, hcrows⟩ := exists_product h p
  obtain ⟨d, hd, hdrows⟩ := exists_product hfits q
  refine ⟨c, hc, hd.trans (congrArg Except.ok (ext_rows ?_))⟩
  calc d.rows
      = b.columns.map fun column => a.rows.map (dot column) := by
        rw [hdrows, columns_transpose ha, transpose, rows_ofRows]
    _ = b.columns.map fun column => a.rows.map fun row => dot row column := by
        simp only [dot_comm]
    _ = c.columns := (columns_of_rows (rowCount_pos ha) hcrows).symm

/-! ## 5. Duality -/

/-- **Products and transposed matrices are dual.**  A matrix with columns has, transposed, its dimensions
and its elements with rows and columns swapped, and transposing again gives the matrix back.  Matrices
that fit have a product, and transposed it is the product of the transposed matrices in the other
order. -/
theorem transpose_dual :
    (∀ m : Matrix, 0 < m.columnCount →
      m.transpose.dimensions = ⟨m.columnCount, m.rowCount⟩ ∧
      (∀ i j, m.transpose.element? j i = m.element? i j) ∧
      m.transpose.transpose = m) ∧
    ∀ (a b : Matrix) (p q : Position), 0 < a.rowCount → 0 < a.columnCount → 0 < b.columnCount →
      a.columnCount = b.rowCount →
      ∃ c, a.product b p = .ok c ∧ b.transpose.product a.transpose q = .ok c.transpose := by
  constructor
  · intro m hm
    exact ⟨dimensions_transpose hm, element?_transpose m, transpose_transpose hm⟩
  · intro a b p q _ ha hb h
    exact product_transpose ha hb h p q

namespace Example

/-- A row of three numbers. -/
def rowOfThree : Matrix := ⟨[[.ofInt 1, .ofInt 2, .ofInt 3]], by decide⟩

/-- Three rows of one number. -/
def threeRows : Matrix := ⟨[[.ofInt 4], [.ofInt 5], [.ofInt 6]], by decide⟩

/-- A row and a column. -/
theorem transpose_dual_row : rowOfThree.transpose.transpose = rowOfThree ∧
    ∃ c, rowOfThree.product threeRows ⟨1, 1⟩ = .ok c ∧
      threeRows.transpose.product rowOfThree.transpose ⟨1, 1⟩ = .ok c.transpose :=
  ⟨(transpose_dual.1 rowOfThree (by decide)).2.2,
    transpose_dual.2 rowOfThree threeRows ⟨1, 1⟩ ⟨1, 1⟩ (by decide) (by decide) (by decide) (by decide)⟩

end Example

end Matrix
end Abacus
