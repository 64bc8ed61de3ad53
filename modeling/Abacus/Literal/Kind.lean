/-
# What kind of expression a text is

A text is classified before it is parsed.  It is a matrix, a vector, a fraction or a call if a
scanner of that construct takes all of it but the blanks around it, tried in this order.  A text
without operators, brackets and letters that is a single number is a number; everything else is left
to the parser of expressions as arithmetic, so that it can say what is wrong.
-/
import Abacus.Literal.Scan

namespace Abacus

/-- The kind of an expression text. -/
inductive LiteralKind where
  | matrix
  | vector
  | rational
  | functionCall
  | arithmetic
  | number
  deriving DecidableEq, Repr

namespace Literal

/-- A scan from the first character that is no blank takes everything but blanks at the end. -/
def coversText {α : Type} (scan : Cursor → Scan α) (text : Text) : Bool :=
  match scan (Cursor.start text).skipBlanks with
  | .found _ after => after.skipBlanks.atEnd
  | .failed _ _ => false

/-- The text is a matrix literal. -/
def isMatrix (text : Text) : Bool :=
  opensMatrix (Cursor.start text).skipBlanks && coversText (matrix .unknown) text

/-- The text is a vector literal. -/
def isVector (text : Text) : Bool :=
  opensVector (Cursor.start text).skipBlanks && coversText (vector .unknown) text

/-- The text is a fraction literal. -/
def isRational (text : Text) : Bool := coversText (rational .unknown) text

/-- The text is one number. -/
def isNumber (text : Text) : Bool := coversText (number .unknown) text

/-- The text is a name with one pair of parentheses behind it; what is inside is not looked at. -/
def isCall (text : Text) : Bool :=
  match name? (Cursor.start text).skipBlanks with
  | none => false
  | some (_, after) =>
    let opener := after.skipBlanks
    match opener.take? '(', closer? opener with
    | some _, some closing =>
      match closing.take? ')' with
      | some behind => behind.skipBlanks.atEnd
      | none => false
    | _, _ => false

/-- A character that only arithmetic has: an operator, a bracket, a letter or an underscore. -/
def isArithmeticChar (c : Char) : Bool := c.isAlpha || "+-*/%()[]_".toList.contains c

/-- The kind of an expression text. -/
def classify (text : Text) : LiteralKind :=
  if isMatrix text then .matrix
  else if isVector text then .vector
  else if isRational text then .rational
  else if isCall text then .functionCall
  else if !text.any isArithmeticChar && isNumber text then .number
  else .arithmetic

end Literal
end Abacus
