/-
# Builtin functions

There are five functions, and each takes one argument.  Sine and cosine work on every number of
their argument; the other three accept only some kinds of values.
-/
import Abacus.Binary64.Circular
import Abacus.Value

namespace Abacus

/-- A builtin function. -/
inductive Builtin where
  | sin
  | cos
  | transpose
  | createRat
  | reduce
  deriving DecidableEq, Repr

namespace Builtin

/-- Every function, in the order in which they are listed. -/
def all : List Builtin := [sin, cos, transpose, createRat, reduce]

/-- The name that calls the function. -/
def name : Builtin → Text
  | sin => "sin".toList
  | cos => "cos".toList
  | transpose => "transpose".toList
  | createRat => "create_rat".toList
  | reduce => "reduce".toList

/-- The function with a name. -/
def ofName? (name : Text) : Option Builtin := all.find? (fun f => f.name == name)

/-- How many arguments the function takes. -/
def arity : Builtin → Nat
  | sin => 1
  | cos => 1
  | transpose => 1
  | createRat => 1
  | reduce => 1

/-- The function on a single argument. -/
def applyTo (f : Builtin) (argument : Value) (position : Position) : Except Error Value :=
  match f, argument with
  | sin, v => .ok (v.mapNumbers Binary64.sin)
  | cos, v => .ok (v.mapNumbers Binary64.cos)
  | transpose, .matrix m => .ok (.matrix m.transpose)
  | createRat, .scalar x => .ok (.rational (.ofNumber x))
  | reduce, .rational q => .ok (.rational q.reduced)
  | reduce, .scalar x => .ok (.scalar x)
  | f, v => .error ⟨.unsupportedOperand f.name v.kind, position⟩

/-- The function on a list of arguments, called at a position. -/
def apply (f : Builtin) (arguments : List Value) (position : Position) : Except Error Value :=
  match arguments with
  | [argument] => f.applyTo argument position
  | _ => .error ⟨.arityMismatch f.name f.arity arguments.length, position⟩

/-- A name determines its function. -/
theorem ofName?_name (f : Builtin) : ofName? f.name = some f := by
  cases f <;> decide

end Builtin
end Abacus
