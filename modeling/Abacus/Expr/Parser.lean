/-
# Parsing expressions

    expression := term (("+" | "-") term)*
    term       := factor (("*" | "/" | "%") factor)*
    factor     := "-" factor | primary
    primary    := number | name | name "(" arguments ")" | "(" expression ")" | literal
    literal    := "[" numbers "]" | "[" row ("," row)* "]"
    row        := "[" numbers "]"

Each construct is a `Rule`: it takes lexemes off the front of a list and leaves the rest.  The rules
for lists, operator chains and primaries take the rule of their parts as an argument, so that the
recursion of the grammar is tied in one place, `factor`.

The recursive rules count down a bound that starts at the number of lexemes.  Every round takes a
lexeme, so a bound of zero is only met when no lexeme is left, and there the rule answers what it
answers at the end of the list.

Two limits keep trees small: how many factors may lie inside one another, and how tall a tree may
grow.  They are arguments of the grammar, and `Limits.unlimited` switches both off.
-/
import Abacus.Expr
import Abacus.Token.Lexer

namespace Abacus

/-! ## 1. Limits -/

/-- How deep the grammar may nest and how tall its trees may grow; `none` is no limit. -/
structure Limits where
  /-- The number of factors that may lie inside one another. -/
  depth : Option Nat
  /-- The height that no tree may exceed. -/
  height : Option Nat

namespace Limits

/-- The limits of the language. -/
def standard : Limits := ⟨some 128, some 256⟩

/-- The grammar without limits. -/
def unlimited : Limits := ⟨none, none⟩

/-- A factor may begin inside this many others. -/
def allowsDepth (limits : Limits) (depth : Nat) : Bool := limits.depth.all (fun most => depth < most)

/-- A tree may be this tall. -/
def allowsHeight (limits : Limits) (height : Nat) : Bool :=
  limits.height.all (fun most => height ≤ most)

end Limits

namespace Expr

/-! ## 2. Rules and lists -/

/-- A rule takes a construct off the front of the lexemes and leaves the rest. -/
abbrev Rule (α : Type) : Type := List Lexeme → Except Error (α × List Lexeme)

/-- The position of the next lexeme. -/
def here : List Lexeme → Position
  | [] => .unknown
  | lexeme :: _ => lexeme.position

/-- The error for a list whose closing token never comes. -/
def unclosed (closing : Token) (opener : Position) : Error :=
  if closing = .closeBracket then ⟨.unterminatedBracket, opener⟩ else ⟨.expectedClosingParen, opener⟩

/-- What is said about a token that neither continues nor closes a list. -/
def expectedInList (closing found : Token) : Text :=
  "expected ',' or '".toList ++ closing.text ++ "', found '".toList ++ found.text ++ ['\'']

/-- What is said about a token where a row should start. -/
def expectedRow (found : Token) : Text :=
  "expected '[', found '".toList ++ found.text ++ ['\'']

/-- One or more items up to the closing token. -/
def items {α : Type} (item : Rule α) (closing : Token) (opener : Position) : Nat → Rule (List α)
  | 0, _ => .error (unclosed closing opener)
  | bound + 1, lexemes =>
    match lexemes with
    | [] => .error (unclosed closing opener)
    | ⟨.endOfInput, _⟩ :: _ => .error (unclosed closing opener)
    | _ => do
      let (x, rest) ← item lexemes
      match rest with
      | [] => .error (unclosed closing opener)
      | ⟨token, position⟩ :: rest =>
        if token = .comma then do
          let (xs, rest) ← items item closing opener bound rest
          .ok (x :: xs, rest)
        else if token = closing then .ok ([x], rest)
        else if token = .endOfInput then .error (unclosed closing opener)
        else .error ⟨.unexpectedToken (expectedInList closing token), position⟩

/-- Items separated by commas up to the closing token, or the closing token at once. -/
def commaSeparated {α : Type} (item : Rule α) (closing : Token) (opener : Position) :
    Rule (List α) := fun lexemes =>
  match lexemes with
  | [] => items item closing opener lexemes.length lexemes
  | ⟨token, _⟩ :: rest =>
    if token = closing then .ok ([], rest)
    else items item closing opener lexemes.length lexemes

/-! ## 3. Bracket literals -/

/-- A number without a sign. -/
def unsignedNumber : Rule Binary64
  | ⟨.number value, _⟩ :: rest => .ok (value, rest)
  | [] => .error ⟨.unexpectedEndOfInput, .unknown⟩
  | lexeme :: _ => .error ⟨.malformedNumber, lexeme.position⟩

/-- A number with an optional minus sign. -/
def signedNumber : Rule Binary64
  | ⟨.operator .sub, _⟩ :: rest => do
    let (value, rest) ← unsignedNumber rest
    .ok (-value, rest)
  | lexemes => unsignedNumber lexemes

/-- One row of a matrix literal. -/
def row : Rule (List Binary64)
  | [] => .error ⟨.unexpectedEndOfInput, .unknown⟩
  | ⟨token, position⟩ :: rest =>
    if token = .openBracket then commaSeparated signedNumber .closeBracket position rest
    else .error ⟨.unexpectedToken (expectedRow token), position⟩

/-- A literal behind its opening bracket: a second bracket makes it a matrix. -/
def bracketLiteral (opener : Position) : Rule Expr := fun lexemes =>
  match lexemes with
  | ⟨.openBracket, _⟩ :: _ => do
    let (rows, rest) ← commaSeparated row .closeBracket opener lexemes
    .ok (.matrix rows opener, rest)
  | _ => do
    let (elements, rest) ← commaSeparated signedNumber .closeBracket opener lexemes
    .ok (.vector elements opener, rest)

/-! ## 4. Operators, primaries and factors -/

/-- The operators of one level and their right operands, folded onto what stands to the left. -/
def chainTail (limits : Limits) (level : Nat) (operand : Rule Expr) : Nat → Expr → Rule Expr
  | 0, left, lexemes => .ok (left, lexemes)
  | bound + 1, left, lexemes =>
    match lexemes with
    | ⟨.operator op, position⟩ :: rest =>
      if op.precedence = level then do
        let (right, rest) ← operand rest
        let node := Expr.binary op left right position
        if limits.allowsHeight node.height then chainTail limits level operand bound node rest
        else .error ⟨.nestingTooDeep, position⟩
      else .ok (left, lexemes)
    | _ => .ok (left, lexemes)

/-- Operands joined by the operators of one level, grouped to the left. -/
def chain (limits : Limits) (level : Nat) (operand : Rule Expr) : Rule Expr := fun lexemes => do
  let (left, rest) ← operand lexemes
  if limits.allowsHeight left.height then chainTail limits level operand rest.length left rest
  else .error ⟨.nestingTooDeep, left.position⟩

/-- The two levels of operators over factors. -/
def expressionOf (limits : Limits) (factor : Rule Expr) : Rule Expr :=
  chain limits 1 (chain limits 2 factor)

/-- A name, or a call if a parenthesis follows it. -/
def nameOrCall (expression : Rule Expr) (text : Text) (position : Position) : Rule Expr
  | ⟨.openParen, opener⟩ :: rest => do
    let (arguments, rest) ← commaSeparated expression .closeParen opener rest
    .ok (.call text arguments position, rest)
  | lexemes => .ok (.name text position, lexemes)

/-- An expression in parentheses, behind the opening one. -/
def group (expression : Rule Expr) (opener : Position) : Rule Expr := fun lexemes => do
  let (e, rest) ← expression lexemes
  match rest with
  | ⟨.closeParen, _⟩ :: rest => .ok (e, rest)
  | _ => .error ⟨.expectedClosingParen, opener⟩

/-- A factor without a minus sign. -/
def primary (expression : Rule Expr) : Rule Expr
  | [] => .error ⟨.unexpectedEndOfInput, .unknown⟩
  | ⟨token, position⟩ :: rest =>
    match token with
    | .number value => .ok (.number value position, rest)
    | .name text => nameOrCall expression text position rest
    | .openParen => group expression position rest
    | .openBracket => bracketLiteral position rest
    | .endOfInput => .error ⟨.unexpectedEndOfInput, position⟩
    | other => .error ⟨.unexpectedToken other.text, position⟩

/-- A factor that lies inside `depth` others. -/
def factor (limits : Limits) : Nat → Nat → Rule Expr
  | 0, _, lexemes => .error ⟨.unexpectedEndOfInput, here lexemes⟩
  | bound + 1, depth, lexemes =>
    if limits.allowsDepth depth then
      match lexemes with
      | ⟨.operator .sub, position⟩ :: rest => do
        let (e, rest) ← factor limits bound (depth + 1) rest
        .ok (.negate e position, rest)
      | _ => primary (expressionOf limits (factor limits bound (depth + 1))) lexemes
    else .error ⟨.nestingTooDeep, here lexemes⟩

/-! ## 5. Whole texts -/

/-- The tree of a list of lexemes; nothing but the end of input may follow it. -/
def ofLexemes (limits : Limits) (lexemes : List Lexeme) : Except Error Expr := do
  let (e, rest) ← expressionOf limits (factor limits lexemes.length 0) lexemes
  match rest with
  | [] => .ok e
  | ⟨.endOfInput, _⟩ :: _ => .ok e
  | ⟨token, position⟩ :: _ => .error ⟨.unexpectedTrailingInput token.text, position⟩

/-- The tree of a text whose first byte is at `origin`, under given limits. -/
def parseWithin (limits : Limits) (text : Text) (origin : Position) : Except Error Expr := do
  let lexemes ← Token.lex origin text
  ofLexemes limits lexemes

/-- The tree of a text whose first byte is at `origin`. -/
def parse (text : Text) (origin : Position) : Except Error Expr :=
  parseWithin .standard text origin

end Expr
end Abacus
