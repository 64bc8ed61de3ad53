/-
# Scanning literals

A scanner reads a construct at a cursor.  It answers with what it found and the cursor behind it, or
with an error and the cursor where it stopped.

    number    := digits with at most one point in them, at least one digit
    signed    := number | "-" blanks number
    vector    := "[" "]" | "[" signed ("," signed)* "]"
    matrix    := "[" vector ("," vector)* "]"
    rational  := number "/" number
    name      := letter (letter | digit | "_")*

Blanks may stand around every part of a vector, a matrix or a fraction.  An error inside a list that
is never closed points at its opening bracket.

As in the grammar of expressions, the rule for lists takes the scanner of its items as an argument
and counts down a bound that starts at the number of characters ahead.
-/
import Abacus.Error
import Abacus.Numeral
import Abacus.Text.Cursor
import Abacus.Value

namespace Abacus

/-- What a scanner answers. -/
inductive Scan (α : Type) where
  /-- A construct was found; the cursor is behind it. -/
  | found (value : α) (after : Cursor)
  /-- No construct was found; the cursor is where the scanner stopped. -/
  | failed (error : Error) (stop : Cursor)

namespace Scan

/-- A function on what was found. -/
def map {α β : Type} (f : α → β) : Scan α → Scan β
  | found value after => found (f value) after
  | failed error stop => failed error stop

/-- What was found and the cursor behind it, or the error alone. -/
def toExcept {α : Type} : Scan α → Except Error (α × Cursor)
  | found value after => .ok (value, after)
  | failed error _ => .error error

end Scan

namespace Literal

/-! ## 1. Numbers and names -/

/-- A number without a sign.  A failure leaves the cursor where it was. -/
def number (origin : Position) (c : Cursor) : Scan Binary64 :=
  let (numeral, rest) := Numeral.ofText c.rest
  if !numeral.hasDigit then .failed ⟨.malformedNumber, c.position origin⟩ c
  else if !numeral.value.isFinite then .failed ⟨.literalTooLarge, c.position origin⟩ c
  else .found numeral.value ⟨c.offset + Text.byteLength numeral.text, rest⟩

/-- A number with an optional minus sign.  A failure leaves the cursor where it was. -/
def signedNumber (origin : Position) (c : Cursor) : Scan Binary64 :=
  match c.take? '-' with
  | none => number origin c
  | some behind =>
    match number origin behind.skipBlanks with
    | .found x after => .found (-x) after
    | .failed error _ => .failed error c

/-- A name, and the cursor behind it. -/
def name? (c : Cursor) : Option (Text × Cursor) :=
  match c.peek? with
  | some first =>
    if first.isAlpha then some (c.rest.takeWhile Text.isWordChar, c.skipWhile Text.isWordChar)
    else none
  | none => none

/-! ## 2. Lists -/

/-- The opening bracket of a list. -/
def openBracket (origin : Position) (c : Cursor) : Scan Unit :=
  match c.take? '[', c.peek? with
  | some inside, _ => .found () inside
  | none, none => .failed ⟨.unexpectedEndOfInput, c.position origin⟩ c
  | none, some other => .failed ⟨.unexpectedCharacter other, c.position origin⟩ c

/-- What follows an item: `true` for a comma, `false` for the closing bracket. -/
def separator (origin opener : Position) (c : Cursor) : Scan Bool :=
  match c.take? ',', c.take? ']', c.peek? with
  | some next, _, _ => .found true next
  | none, some after, _ => .found false after
  | none, none, none => .failed ⟨.unterminatedBracket, opener⟩ c
  | none, none, some other => .failed ⟨.unexpectedCharacter other, c.position origin⟩ c

/-- One or more items up to the closing bracket. -/
def items {α : Type} (item : Cursor → Scan α) (origin opener : Position) :
    Nat → Cursor → Scan (List α)
  | 0, c => .failed ⟨.unterminatedBracket, opener⟩ c.skipBlanks
  | bound + 1, c =>
    let first := c.skipBlanks
    if first.atEnd then .failed ⟨.unterminatedBracket, opener⟩ first
    else
      match item first with
      | .failed error stop => .failed error stop
      | .found x after =>
        match separator origin opener after.skipBlanks with
        | .failed error stop => .failed error stop
        | .found false behind => .found [x] behind
        | .found true next => (items item origin opener bound next).map (fun xs => x :: xs)

/-- A vector literal. -/
def vector (origin : Position) (c : Cursor) : Scan (List Binary64) :=
  match openBracket origin c with
  | .failed error stop => .failed error stop
  | .found _ inside =>
    let first := inside.skipBlanks
    match first.take? ']' with
    | some behind => .found [] behind
    | none => items (signedNumber origin) origin (c.position origin) first.rest.length first

/-- A matrix literal; its rows are vector literals of any lengths. -/
def matrix (origin : Position) (c : Cursor) : Scan (List (List Binary64)) :=
  match openBracket origin c with
  | .failed error stop => .failed error stop
  | .found _ inside =>
    items (vector origin) origin (c.position origin) inside.rest.length inside

/-! ## 3. Fractions -/

/-- A fraction literal: two unsigned numbers with a slash between them. -/
def rational (origin : Position) (c : Cursor) : Scan (Binary64 × Binary64) :=
  let first := c.skipBlanks
  let malformed : Error := ⟨.malformedRational, first.position origin⟩
  match number origin first with
  | .failed error stop => .failed error stop
  | .found numerator after =>
    let slash := after.skipBlanks
    match slash.take? '/' with
    | none => .failed malformed slash
    | some behind =>
      match number origin behind.skipBlanks with
      | .failed _ stop => .failed malformed stop
      | .found denominator after => .found (numerator, denominator) after

/-! ## 4. Values of literals -/

/-- The value of a vector literal, and the cursor behind it. -/
def vectorValue (origin : Position) (c : Cursor) : Except Error (Value × Cursor) := do
  let (elements, after) ← (vector origin c).toExcept
  .ok (.vector elements, after)

/-- The value of a matrix literal, and the cursor behind it. -/
def matrixValue (origin : Position) (c : Cursor) : Except Error (Value × Cursor) := do
  let (rows, after) ← (matrix origin c).toExcept
  let m ← Matrix.make rows (c.position origin)
  .ok (.matrix m, after)

/-- The value of a fraction literal, and the cursor behind it. -/
def rationalValue (origin : Position) (c : Cursor) : Except Error (Value × Cursor) := do
  let ((numerator, denominator), after) ← (rational origin c).toExcept
  let q ← Fraction.make numerator denominator (c.position origin)
  .ok (.rational q, after)

/-- The value of a number, and the cursor behind it. -/
def numberValue (origin : Position) (c : Cursor) : Except Error (Value × Cursor) := do
  let (x, after) ← (number origin c).toExcept
  .ok (.scalar x, after)

/-! ## 5. Brackets -/

/-- A bracket at the cursor whose next character other than a blank is another bracket. -/
def opensMatrix (c : Cursor) : Bool :=
  match c.take? '[' with
  | some inside => inside.skipBlanks.peek? == some '['
  | none => false

/-- A bracket at the cursor with anything else, or nothing, behind it. -/
def opensVector (c : Cursor) : Bool :=
  match c.take? '[' with
  | some inside => inside.skipBlanks.peek? != some '['
  | none => false

/-- The bracket that closes the list in which the cursor stands, `depth` brackets deep. -/
def closerFrom (opener closer : Char) : Nat → Nat → Text → Option Cursor
  | _, _, [] => none
  | depth, offset, c :: rest =>
    if c = opener then closerFrom opener closer (depth + 1) (offset + c.utf8Size) rest
    else if c = closer then
      if depth ≤ 1 then some ⟨offset, c :: rest⟩
      else closerFrom opener closer (depth - 1) (offset + c.utf8Size) rest
    else closerFrom opener closer depth (offset + c.utf8Size) rest

/-- The bracket that closes the one at the cursor.  Brackets of the other kind do not count. -/
def closer? (c : Cursor) : Option Cursor :=
  match c.peek? with
  | some '(' => closerFrom '(' ')' 0 c.offset c.rest
  | some '[' => closerFrom '[' ']' 0 c.offset c.rest
  | _ => none

end Literal
end Abacus
