/-
# Evaluating expression texts

A text is classified first.  Literals are read by their own scanners.  Everything else is parsed
into a tree, and one of two routes evaluates it:

* a numeric tree whose names are all bound to finite scalars has the values put in place of the
  names, and the resulting text runs on the stack machine;
* any other tree is evaluated as it is.

When the machine fails, the positions in its error belong to the substituted text, so the tree is
evaluated for the error that points into the text as it was typed.
-/
import Abacus.Environment.Substitution
import Abacus.Evaluation.Tree
import Abacus.Expr.Parser
import Abacus.Literal.Kind
import Abacus.Postfix

namespace Abacus
namespace Environment

/-- The name is bound to a scalar that is finite. -/
def bindsFiniteScalar (env : Environment) (name : Text) : Bool :=
  match (env.get? name).bind Value.scalar? with
  | some x => x.isFinite
  | none => false

/-- The value of a numeric text on the stack machine; `e` is the tree of the text. -/
def evaluateNumeric (env : Environment) (e : Expr) (text : Text) (origin : Position) :
    Except Error Value :=
  match Postfix.evaluate (env.substitute text) origin with
  | .ok x => .ok (.scalar x)
  | .error numeric =>
    match env.eval e with
    | .ok _ => .error numeric
    | .error error => .error error

/-- The value of a text that is no literal. -/
def evaluateArithmetic (env : Environment) (text : Text) (origin : Position) :
    Except Error Value := do
  let e ← Expr.parse text origin
  if e.isNumeric && e.variableNames.all env.bindsFiniteScalar then env.evaluateNumeric e text origin
  else env.eval e

/-- The value of an expression text whose first byte is at `origin`. -/
def evaluate (env : Environment) (text : Text) (origin : Position) : Except Error Value :=
  let first := (Cursor.start text).skipBlanks
  match Literal.classify text with
  | .matrix => (Literal.matrixValue origin first).map Prod.fst
  | .vector => (Literal.vectorValue origin first).map Prod.fst
  | .rational => (Literal.rationalValue origin first).map Prod.fst
  | .number => (Literal.numberValue origin first).map Prod.fst
  | .functionCall => env.evaluateArithmetic text origin
  | .arithmetic => env.evaluateArithmetic text origin

end Environment
end Abacus
