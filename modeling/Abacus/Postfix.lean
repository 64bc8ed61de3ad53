/-
# Postfix programs

A numeric expression without names can be evaluated by a stack machine.  `ofLexemes` turns the
lexemes into postfix order with a stack of waiting operators: an operator waits until one that does
not bind tighter arrives, a closing parenthesis arrives, or the text ends.  A minus sign is a
negation where an operand is expected.  `run` executes the program on a stack of numbers.

The conversion does not check where operands stand; a program with an operand too few or too many is
refused by the machine.
-/
import Abacus.Token.Lexer
import Abacus.Value.Arithmetic

namespace Abacus
namespace Postfix

/-! ## 1. Programs -/

/-- One step of a program. -/
inductive Item where
  /-- Push a number. -/
  | push (x : Binary64)
  /-- Negate the top of the stack. -/
  | negate
  /-- Replace the two topmost numbers by the result of an operator. -/
  | apply (op : Operator)
  deriving DecidableEq

/-- A step and the position of the token it comes from. -/
abbrev Instruction := Located Item

/-! ## 2. From lexemes to postfix order -/

/-- What waits on the stack of operators. -/
inductive Waiting where
  /-- A negation. -/
  | negate
  /-- An operator. -/
  | operator (op : Operator)
  /-- An open parenthesis. -/
  | paren
  deriving DecidableEq

/-- How tightly a waiting operator binds: negation tighter than every operator, and a parenthesis
not at all. -/
def Waiting.precedence : Waiting → Nat
  | negate => 3
  | operator op => op.precedence
  | paren => 0

/-- The step that a waiting operator becomes. -/
def Waiting.item? : Waiting → Option Item
  | negate => some .negate
  | operator op => some (.apply op)
  | paren => none

/-- The waiting operators that an operator of some precedence releases, and those that go on
waiting. -/
def release (precedence : Nat) : List (Located Waiting) → List Instruction × List (Located Waiting)
  | [] => ([], [])
  | top :: waiting =>
    match top.item.item? with
    | none => ([], top :: waiting)
    | some item =>
      if precedence ≤ top.item.precedence then
        let (released, left) := release precedence waiting
        (⟨item, top.position⟩ :: released, left)
      else ([], top :: waiting)

/-- The waiting operators above the innermost open parenthesis, and those below it; nothing if no
parenthesis is open. -/
def closeParen? : List (Located Waiting) → Option (List Instruction × List (Located Waiting))
  | [] => none
  | top :: waiting =>
    match top.item.item? with
    | none => some ([], waiting)
    | some item => (closeParen? waiting).map (fun (released, left) =>
        (⟨item, top.position⟩ :: released, left))

/-- All waiting operators; an error if a parenthesis is still open. -/
def releaseAll : List (Located Waiting) → Except Error (List Instruction)
  | [] => .ok []
  | top :: waiting =>
    match top.item.item? with
    | none => .error ⟨.expectedClosingParen, top.position⟩
    | some item => do
      let released ← releaseAll waiting
      .ok (⟨item, top.position⟩ :: released)

/-- The program of the lexemes that are left, behind the given waiting operators.  `expectOperand`
says that an operand has to come next. -/
def convert (expectOperand : Bool) (waiting : List (Located Waiting)) :
    List Lexeme → Except Error (List Instruction)
  | [] => releaseAll waiting
  | ⟨token, position⟩ :: lexemes =>
    match token with
    | .number x => do
      let program ← convert false waiting lexemes
      .ok (⟨.push x, position⟩ :: program)
    | .openParen => convert true (⟨.paren, position⟩ :: waiting) lexemes
    | .closeParen =>
      match closeParen? waiting with
      | none => .error ⟨.unexpectedToken token.text, position⟩
      | some (released, left) => do
        let program ← convert false left lexemes
        .ok (released ++ program)
    | .name name => .error ⟨.unknownVariable name, position⟩
    | .endOfInput => releaseAll waiting
    | .operator op =>
      if op = .sub ∧ expectOperand = true then
        convert true (⟨.negate, position⟩ :: waiting) lexemes
      else do
        let (released, left) := release op.precedence waiting
        let program ← convert true (⟨.operator op, position⟩ :: left) lexemes
        .ok (released ++ program)
    | other => .error ⟨.unexpectedToken other.text, position⟩

/-- The program of a list of lexemes. -/
def ofLexemes (lexemes : List Lexeme) : Except Error (List Instruction) := convert true [] lexemes

/-! ## 3. The stack machine -/

/-- One step on the stack, whose top comes first.  A missing right or only operand is reported at
the end of the program, a missing left operand at the operator. -/
def step (finish : Position) (instruction : Instruction) (stack : List Binary64) :
    Except Error (List Binary64) :=
  match instruction.item, stack with
  | .push x, stack => .ok (x :: stack)
  | .negate, [] => .error ⟨.unexpectedEndOfInput, finish⟩
  | .negate, x :: stack => .ok (-x :: stack)
  | .apply _, [] => .error ⟨.unexpectedEndOfInput, finish⟩
  | .apply _, [_] => .error ⟨.unexpectedEndOfInput, instruction.position⟩
  | .apply op, y :: x :: stack => do
    let z ← Value.applyNumbers op x y instruction.position
    .ok (z :: stack)

/-- The rest of a program on a stack.  In the end the stack holds one number, the result. -/
def runOn (finish : Position) : List Instruction → List Binary64 → Except Error Binary64
  | [], [x] => .ok x
  | [], [] => .error ⟨.unexpectedEndOfInput, finish⟩
  | [], top :: _ => .error ⟨.unexpectedTrailingInput top.render, finish⟩
  | instruction :: program, stack => do
    let stack ← step finish instruction stack
    runOn finish program stack

/-- The result of a program whose text ends at `finish`. -/
def run (program : List Instruction) (finish : Position) : Except Error Binary64 :=
  runOn finish program []

/-- The number that a numeric text stands for, by way of its postfix program. -/
def evaluate (text : Text) (origin : Position) : Except Error Binary64 := do
  let lexemes ← Token.lex origin text
  let program ← ofLexemes lexemes
  run program (origin.advance (Text.byteLength text))

end Postfix
end Abacus
