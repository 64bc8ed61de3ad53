/-
# Evaluating trees

A tree is evaluated from the leaves up, operands from left to right, and the first error ends the
evaluation.  The name of a function is resolved before its arguments are evaluated, so an unknown
function is reported even when an argument would fail.
-/
import Abacus.Builtin
import Abacus.Environment
import Abacus.Expr
import Abacus.Value.Arithmetic

namespace Abacus
namespace Environment

mutual

/-- The value of a tree. -/
def eval (env : Environment) : Expr → Except Error Value
  | .number x _ => .ok (.scalar x)
  | .name name position => env.lookup name position
  | .vector elements _ => .ok (.vector elements)
  | .matrix rows position => (Matrix.make rows position).map .matrix
  | .negate operand _ => do
    let v ← env.eval operand
    .ok v.negated
  | .binary op left right position => do
    let l ← env.eval left
    let r ← env.eval right
    Value.combine op l r position
  | .call name arguments position =>
    match Builtin.ofName? name with
    | none => .error ⟨.unknownFunction name, position⟩
    | some f => do
      let values ← env.evalAll arguments
      f.apply values position

/-- The values of several trees from left to right. -/
def evalAll (env : Environment) : List Expr → Except Error (List Value)
  | [] => .ok []
  | e :: es => do
    let v ← env.eval e
    let vs ← env.evalAll es
    .ok (v :: vs)

end

end Environment
end Abacus
