/-
# Expression trees

A tree is built from numbers, names and bracket literals by negation, the five operators and calls.
Every node carries the position of the token that introduced it: an operator node that of its
operator, a literal that of its opening bracket.  The rows of a matrix literal need not be equally
long; that is checked when the value is built.
-/
import Abacus.Operator
import Abacus.Position

namespace Abacus

/-- An expression tree. -/
inductive Expr where
  /-- A number. -/
  | number (value : Binary64) (position : Position)
  /-- A name that stands for its value. -/
  | name (text : Text) (position : Position)
  /-- A vector written in brackets. -/
  | vector (elements : List Binary64) (position : Position)
  /-- A matrix written in brackets, row by row. -/
  | matrix (rows : List (List Binary64)) (position : Position)
  /-- A negation. -/
  | negate (operand : Expr) (position : Position)
  /-- An operator between two operands. -/
  | binary (op : Operator) (left right : Expr) (position : Position)
  /-- A function applied to arguments. -/
  | call (function : Text) (arguments : List Expr) (position : Position)

namespace Expr

/-- The position of the token that introduced the tree. -/
def position : Expr → Position
  | number _ p => p
  | name _ p => p
  | vector _ p => p
  | matrix _ p => p
  | negate _ p => p
  | binary _ _ _ p => p
  | call _ _ p => p

/-- Only numbers, names, negations and operators. -/
def isNumeric : Expr → Bool
  | number _ _ => true
  | name _ _ => true
  | negate e _ => e.isNumeric
  | binary _ l r _ => l.isNumeric && r.isNumeric
  | _ => false

mutual

/-- The number of nodes on the longest path down to a leaf. -/
def height : Expr → Nat
  | number _ _ => 1
  | name _ _ => 1
  | vector _ _ => 1
  | matrix _ _ => 1
  | negate e _ => e.height + 1
  | binary _ l r _ => max l.height r.height + 1
  | call _ es _ => heights es + 1

/-- The height of the tallest tree, and zero for none. -/
def heights : List Expr → Nat
  | [] => 0
  | e :: es => max e.height (heights es)

end

mutual

/-- The names of the variables in source order, with repetitions. -/
def variableNames : Expr → List Text
  | name text _ => [text]
  | negate e _ => e.variableNames
  | binary _ l r _ => l.variableNames ++ r.variableNames
  | call _ es _ => variableNamesOf es
  | _ => []

/-- The names of the variables of several trees, one after the other. -/
def variableNamesOf : List Expr → List Text
  | [] => []
  | e :: es => e.variableNames ++ variableNamesOf es

end

end Expr
end Abacus
