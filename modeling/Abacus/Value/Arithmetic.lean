/-
# Operators between values

Scalars, vectors and matrices combine number by number:

* two vectors of one length, and two matrices of the same dimensions, index by index;
* a scalar with every element of a vector or a matrix;
* a vector with every row of a matrix, if it is as long as the rows;

with one exception: `*` between matrices is the matrix product.  Fractions combine with fractions
and scalars, a scalar `s` standing for `s/1`, and with nothing else.

A zero divisor of a division or a remainder is an error at the first place it is used.

Main statement: `length_pairwise`: elementwise results are as long as their operands.
-/
import Abacus.Value

namespace Abacus
namespace Value

/-! ## 1. Numbers and sequences -/

/-- The error of an operator whose divisor is zero. -/
def zeroDivisor? : Operator → Option Cause
  | .div => some .divisionByZero
  | .mod => some .moduloByZero
  | _ => none

/-- An operator on two numbers, with the zero checks. -/
def applyNumbers (op : Operator) (x y : Binary64) (position : Position) : Except Error Binary64 :=
  match zeroDivisor? op with
  | some cause => if y.isZero then .error ⟨cause, position⟩ else .ok (op.apply x y)
  | none => .ok (op.apply x y)

/-- An operator on two sequences of one length. -/
def pairwise (op : Operator) (xs ys : List Binary64) (position : Position) :
    Except Error (List Binary64) :=
  if xs.length = ys.length then
    (xs.zip ys).mapM (fun pair => applyNumbers op pair.1 pair.2 position)
  else .error ⟨.shapeMismatch (.lengths op xs.length ys.length), position⟩

/-- An operator between every element and a number. -/
def withScalarRight (op : Operator) (xs : List Binary64) (y : Binary64) (position : Position) :
    Except Error (List Binary64) :=
  xs.mapM (fun x => applyNumbers op x y position)

/-- An operator between a number and every element. -/
def withScalarLeft (op : Operator) (x : Binary64) (ys : List Binary64) (position : Position) :
    Except Error (List Binary64) :=
  ys.mapM (fun y => applyNumbers op x y position)

theorem length_pairwise {op : Operator} {xs ys zs : List Binary64} {position : Position}
    (h : pairwise op xs ys position = .ok zs) : zs.length = xs.length ∧ zs.length = ys.length := by
  unfold pairwise at h
  split at h
  · next heq =>
    have hlen := length_of_mapM h
    rw [List.length_zip] at hlen
    omega
  · cases h

theorem length_withScalarRight {op : Operator} {xs zs : List Binary64} {y : Binary64}
    {position : Position} (h : withScalarRight op xs y position = .ok zs) :
    zs.length = xs.length :=
  length_of_mapM h

theorem length_withScalarLeft {op : Operator} {x : Binary64} {ys zs : List Binary64}
    {position : Position} (h : withScalarLeft op x ys position = .ok zs) :
    zs.length = ys.length :=
  length_of_mapM h

/-! ## 2. Matrices -/

/-- An operator on two matrices of the same dimensions, element by element. -/
def pairwiseRows (op : Operator) (left right : Matrix) (position : Position) :
    Except Error Matrix :=
  if left.dimensions = right.dimensions then
    Matrix.collect (left.rows.zip right.rows) (fun rows => pairwise op rows.1 rows.2 position)
      left.columnCount (by
        intro rows hrows row hrow
        rw [(length_pairwise hrow).1]
        exact left.rectangular rows.1 (List.of_mem_zip hrows).1)
  else .error ⟨.shapeMismatch (.dimensions op left.dimensions right.dimensions), position⟩

/-- A vector fits a matrix that has no rows, or rows of its length. -/
def fitsRows (m : Matrix) (xs : List Binary64) : Bool :=
  m.rowCount == 0 || xs.length == m.columnCount

/-- The error of a vector that does not fit. -/
def rowMisfit (m : Matrix) (xs : List Binary64) (position : Position) : Error :=
  ⟨.shapeMismatch (.rowLength xs.length m.columnCount), position⟩

/-- An operator between every row of a matrix and a vector. -/
def rowsWithVector (op : Operator) (m : Matrix) (xs : List Binary64) (position : Position) :
    Except Error Matrix :=
  if fitsRows m xs then
    Matrix.collect m.rows (fun row => pairwise op row xs position) m.columnCount (by
      intro source hsource row hrow
      rw [(length_pairwise hrow).1]
      exact m.rectangular source hsource)
  else .error (rowMisfit m xs position)

/-- An operator between a vector and every row of a matrix. -/
def vectorWithRows (op : Operator) (xs : List Binary64) (m : Matrix) (position : Position) :
    Except Error Matrix :=
  if fitsRows m xs then
    Matrix.collect m.rows (fun row => pairwise op xs row position) m.columnCount (by
      intro source hsource row hrow
      rw [(length_pairwise hrow).2]
      exact m.rectangular source hsource)
  else .error (rowMisfit m xs position)

/-- An operator between every element of a matrix and a number. -/
def rowsWithScalar (op : Operator) (m : Matrix) (y : Binary64) (position : Position) :
    Except Error Matrix :=
  Matrix.collect m.rows (fun row => withScalarRight op row y position) m.columnCount (by
    intro source hsource row hrow
    rw [length_withScalarRight hrow]
    exact m.rectangular source hsource)

/-- An operator between a number and every element of a matrix. -/
def scalarWithRows (op : Operator) (x : Binary64) (m : Matrix) (position : Position) :
    Except Error Matrix :=
  Matrix.collect m.rows (fun row => withScalarLeft op x row position) m.columnCount (by
    intro source hsource row hrow
    rw [length_withScalarLeft hrow]
    exact m.rectangular source hsource)

/-! ## 3. Fractions -/

/-- An operator on `a/b` and `c/d`:

    a/b + c/d = (ad + cb)/bd        a/b * c/d = ac/bd        a/b % c/d = (ad % cb)/bd
    a/b - c/d = (ad - cb)/bd        a/b / c/d = ad/bc

A sum or difference is rounded once after the product `cb`. -/
def applyFractions (op : Operator) (left right : Fraction) (position : Position) :
    Except Error Fraction :=
  let a := left.numerator
  let b := left.denominator
  let c := right.numerator
  let d := right.denominator
  match op with
  | .add => Fraction.make (Binary64.fusedMulAdd a d (c * b)) (b * d) position
  | .sub => Fraction.make (Binary64.fusedMulAdd a d (-(c * b))) (b * d) position
  | .mul => Fraction.make (a * c) (b * d) position
  | .div =>
    if c.isZero then .error ⟨.divisionByZero, position⟩
    else Fraction.make (a * d) (b * c) position
  | .mod =>
    if c.isZero then .error ⟨.moduloByZero, position⟩
    else Fraction.make ((a * d) % (c * b)) (b * d) position

/-! ## 4. All kinds -/

/-- An operator between two values. -/
def combine (op : Operator) (left right : Value) (position : Position) : Except Error Value :=
  match left, right with
  | scalar x, scalar y => (applyNumbers op x y position).map scalar
  | vector xs, vector ys => (pairwise op xs ys position).map vector
  | vector xs, scalar y => (withScalarRight op xs y position).map vector
  | scalar x, vector ys => (withScalarLeft op x ys position).map vector
  | matrix m, matrix n =>
    if op = .mul then (m.product n position).map matrix
    else (pairwiseRows op m n position).map matrix
  | matrix m, vector ys => (rowsWithVector op m ys position).map matrix
  | vector xs, matrix n => (vectorWithRows op xs n position).map matrix
  | matrix m, scalar y => (rowsWithScalar op m y position).map matrix
  | scalar x, matrix n => (scalarWithRows op x n position).map matrix
  | rational q, rational r => (applyFractions op q r position).map rational
  | rational q, scalar y => (applyFractions op q (.ofNumber y) position).map rational
  | scalar x, rational r => (applyFractions op (.ofNumber x) r position).map rational
  | left, right => .error ⟨.incompatibleTypes op left.kind right.kind, position⟩

end Value
end Abacus
