/-
# Binary operators

The five operators, their symbols, how tightly they bind, and what they compute on two numbers.  The
zero checks of division and remainder belong to the evaluation of values and are not made here.
-/
import Abacus.Binary64.Arithmetic
import Abacus.Text

namespace Abacus

/-- A binary arithmetic operator. -/
inductive Operator where
  | add
  | sub
  | mul
  | div
  | mod
  deriving DecidableEq, Repr

namespace Operator

/-- Every operator, in the order of the constructors. -/
def all : List Operator := [add, sub, mul, div, mod]

/-- The character that writes the operator. -/
def symbol : Operator → Char
  | add => '+'
  | sub => '-'
  | mul => '*'
  | div => '/'
  | mod => '%'

/-- The operator that a character writes. -/
def ofSymbol? (c : Char) : Option Operator := all.find? (fun op => op.symbol == c)

/-- Binding strength: sums bind weaker than products. -/
def precedence : Operator → Nat
  | add => 1
  | sub => 1
  | mul => 2
  | div => 2
  | mod => 2

/-- The operator on two plain numbers, without zero checks. -/
def apply : Operator → Binary64 → Binary64 → Binary64
  | add, x, y => x + y
  | sub, x, y => x - y
  | mul, x, y => x * y
  | div, x, y => x / y
  | mod, x, y => x % y

/-- A symbol determines its operator. -/
theorem ofSymbol?_symbol (op : Operator) : ofSymbol? op.symbol = some op := by
  cases op <;> rfl

end Operator
end Abacus
