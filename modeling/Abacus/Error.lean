/-
# Errors

An error is a cause and the position it refers to.  The causes fall into the phases of a statement:
reading a literal, cutting the text into tokens, building the tree, and evaluating it.  `ErrorKind`
is the cause without its particulars; the wording of a cause is in `Cause.message` and nowhere else.
-/
import Abacus.Position
import Abacus.Shape

namespace Abacus

/-! ## 1. Causes -/

/-- Why a statement failed. -/
inductive Cause where
  /-- A number was expected but no digit was found. -/
  | malformedNumber
  /-- A fraction literal lacks its slash or its denominator. -/
  | malformedRational
  /-- A square bracket is never closed. -/
  | unterminatedBracket
  /-- No token starts with the character. -/
  | unexpectedCharacter (character : Char)
  /-- A token stands where the grammar has no place for it. -/
  | unexpectedToken (description : Text)
  /-- The text ends too early. -/
  | unexpectedEndOfInput
  /-- A parenthesis is never closed. -/
  | expectedClosingParen
  /-- Something follows a complete expression. -/
  | unexpectedTrailingInput (token : Text)
  /-- What stands before the equals sign is no name. -/
  | invalidAssignmentTarget (target : Text)
  /-- A numeral is beyond the largest number. -/
  | literalTooLarge
  /-- The expression nests too deeply or is too tall. -/
  | nestingTooDeep
  /-- The shapes of operands do not fit. -/
  | shapeMismatch (mismatch : Mismatch)
  /-- The operator has no rule for the two kinds. -/
  | incompatibleTypes (op : Operator) (left right : ValueKind)
  /-- A division has a zero divisor. -/
  | divisionByZero
  /-- A remainder has a zero divisor. -/
  | moduloByZero
  /-- A name is not bound. -/
  | unknownVariable (name : Text)
  /-- A name in front of arguments is no function. -/
  | unknownFunction (name : Text)
  /-- A function got the wrong number of arguments. -/
  | arityMismatch (name : Text) (expected found : Nat)
  /-- A function does not take an argument of that kind. -/
  | unsupportedOperand (name : Text) (operand : ValueKind)
  /-- A strict session has the name already. -/
  | redeclaration (name : Text)
  deriving DecidableEq

/-- A cause and the position it refers to. -/
structure Error where
  /-- What went wrong. -/
  cause : Cause
  /-- Where it went wrong. -/
  position : Position
  deriving DecidableEq

/-! ## 2. Kinds -/

/-- The cause of an error without its particulars. -/
inductive ErrorKind where
  | malformedNumber
  | malformedRational
  | unterminatedBracket
  | unexpectedCharacter
  | unexpectedToken
  | unexpectedEndOfInput
  | expectedClosingParen
  | unexpectedTrailingInput
  | invalidAssignmentTarget
  | shapeMismatch
  | incompatibleTypes
  | divisionByZero
  | moduloByZero
  | unknownVariable
  | unknownFunction
  | arityMismatch
  | unsupportedOperand
  | redeclaration
  | literalTooLarge
  | nestingTooDeep
  deriving DecidableEq, Repr

namespace ErrorKind

/-- Every kind. -/
def all : List ErrorKind :=
  [malformedNumber, malformedRational, unterminatedBracket, unexpectedCharacter, unexpectedToken,
    unexpectedEndOfInput, expectedClosingParen, unexpectedTrailingInput, invalidAssignmentTarget,
    shapeMismatch, incompatibleTypes, divisionByZero, moduloByZero, unknownVariable,
    unknownFunction, arityMismatch, unsupportedOperand, redeclaration, literalTooLarge,
    nestingTooDeep]

/-- The name by which a kind is asked for. -/
def name : ErrorKind → String
  | malformedNumber => "MalformedNumber"
  | malformedRational => "MalformedRational"
  | unterminatedBracket => "UnterminatedBracket"
  | unexpectedCharacter => "UnexpectedCharacter"
  | unexpectedToken => "UnexpectedToken"
  | unexpectedEndOfInput => "UnexpectedEndOfInput"
  | expectedClosingParen => "ExpectedClosingParen"
  | unexpectedTrailingInput => "UnexpectedTrailingInput"
  | invalidAssignmentTarget => "InvalidAssignmentTarget"
  | shapeMismatch => "ShapeMismatch"
  | incompatibleTypes => "IncompatibleTypes"
  | divisionByZero => "DivisionByZero"
  | moduloByZero => "ModuloByZero"
  | unknownVariable => "UnknownVariable"
  | unknownFunction => "UnknownFunction"
  | arityMismatch => "ArityMismatch"
  | unsupportedOperand => "UnsupportedOperand"
  | redeclaration => "Redeclaration"
  | literalTooLarge => "LiteralTooLarge"
  | nestingTooDeep => "NestingTooDeep"

/-- The kind with a name. -/
def ofName? (name : String) : Option ErrorKind := all.find? (fun kind => kind.name == name)

/-- What is said about a name that no kind has. -/
def unknownNameMessage (name : String) : String := s!"unknown error kind '{name}'"

/-- Names tell kinds apart. -/
theorem ofName?_name (kind : ErrorKind) : ofName? kind.name = some kind := by
  cases kind <;> decide

end ErrorKind

namespace Cause

/-- The kind of a cause. -/
def kind : Cause → ErrorKind
  | malformedNumber => .malformedNumber
  | malformedRational => .malformedRational
  | unterminatedBracket => .unterminatedBracket
  | unexpectedCharacter _ => .unexpectedCharacter
  | unexpectedToken _ => .unexpectedToken
  | unexpectedEndOfInput => .unexpectedEndOfInput
  | expectedClosingParen => .expectedClosingParen
  | unexpectedTrailingInput _ => .unexpectedTrailingInput
  | invalidAssignmentTarget _ => .invalidAssignmentTarget
  | literalTooLarge => .literalTooLarge
  | nestingTooDeep => .nestingTooDeep
  | shapeMismatch _ => .shapeMismatch
  | incompatibleTypes _ _ _ => .incompatibleTypes
  | divisionByZero => .divisionByZero
  | moduloByZero => .moduloByZero
  | unknownVariable _ => .unknownVariable
  | unknownFunction _ => .unknownFunction
  | arityMismatch _ _ _ => .arityMismatch
  | unsupportedOperand _ _ => .unsupportedOperand
  | redeclaration _ => .redeclaration

/-! ## 3. Wording -/

/-- What a message says about a cause. -/
def message : Cause → String
  | malformedNumber => "Malformed number."
  | malformedRational => "Malformed rational, expected '<number> / <number>'."
  | unterminatedBracket => "Unterminated bracket, expected ']'."
  | unexpectedCharacter c => s!"Unexpected character '{c}'."
  | unexpectedToken description => s!"Unexpected token: {String.ofList description}."
  | unexpectedEndOfInput => "Unexpected end of input."
  | expectedClosingParen => "Expected closing parenthesis ')' but none found."
  | unexpectedTrailingInput token => s!"Extra input after expression: {String.ofList token}."
  | invalidAssignmentTarget target => s!"Cannot assign to '{String.ofList target}'."
  | literalTooLarge => "Literal is too large."
  | nestingTooDeep => "Expression is nested too deeply."
  | shapeMismatch mismatch => s!"Shape mismatch: {mismatch.message}."
  | incompatibleTypes op left right =>
    s!"Cannot apply '{op.symbol}' to {left.name} and {right.name}."
  | divisionByZero => "Division by zero."
  | moduloByZero => "Modulo by zero."
  | unknownVariable name => s!"Unknown variable '{String.ofList name}'."
  | unknownFunction name => s!"Unknown function '{String.ofList name}'."
  | arityMismatch name expected found =>
    s!"'{String.ofList name}' expects {expected} argument(s), found {found}."
  | unsupportedOperand name operand =>
    s!"'{String.ofList name}' does not accept a {operand.name}."
  | redeclaration name => s!"'{String.ofList name}' is already defined."

end Cause

namespace Error

/-- The kind of an error. -/
def kind (e : Error) : ErrorKind := e.cause.kind

/-- The message that is shown for an error. -/
def message (e : Error) : String := s!"Error on {e.position.render}: {e.cause.message}"

end Error
end Abacus
