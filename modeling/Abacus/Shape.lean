/-
# Kinds of values and shapes that do not fit

The four kinds of values have names that appear in messages.  `Mismatch` lists the ways in which the
shapes of operands, or of the rows of one matrix, can fail to fit together.
-/
import Abacus.Operator

namespace Abacus

/-- The kind of a value. -/
inductive ValueKind where
  | scalar
  | vector
  | matrix
  | rational
  deriving DecidableEq, Repr

/-- The name of a kind in messages. -/
def ValueKind.name : ValueKind → String
  | scalar => "scalar"
  | vector => "vector"
  | matrix => "matrix"
  | rational => "rational"

/-- The row and column counts of a matrix. -/
structure Dimensions where
  /-- How many rows. -/
  rows : Nat
  /-- How many columns. -/
  columns : Nat
  deriving DecidableEq

/-- Dimensions in the form `2x3`. -/
def Dimensions.render (d : Dimensions) : String := s!"{d.rows}x{d.columns}"

/-- How shapes fail to fit. -/
inductive Mismatch where
  /-- Two vectors of different lengths meet. -/
  | lengths (op : Operator) (left right : Nat)
  /-- The left matrix has not as many columns as the right one has rows. -/
  | product (left right : Dimensions)
  /-- Two matrices of different dimensions meet elementwise. -/
  | dimensions (op : Operator) (left right : Dimensions)
  /-- A vector is not as long as the rows of a matrix. -/
  | rowLength (length columns : Nat)
  /-- A row of a matrix, counted from one, is not as long as the first. -/
  | raggedRow (row length expected : Nat)
  deriving DecidableEq

/-- What a message says about shapes that do not fit. -/
def Mismatch.message : Mismatch → String
  | lengths op left right =>
    s!"cannot apply '{op.symbol}' to vectors of length {left} and {right}"
  | product left right =>
    s!"cannot multiply a {left.render} matrix by a {right.render} matrix"
  | dimensions op left right =>
    s!"cannot apply '{op.symbol}' to a {left.render} matrix and a {right.render} matrix"
  | rowLength length columns =>
    s!"vector of length {length} does not match a matrix with {columns} column(s)"
  | raggedRow row length expected =>
    s!"row {row} has {length} element(s), expected {expected}"

end Abacus
