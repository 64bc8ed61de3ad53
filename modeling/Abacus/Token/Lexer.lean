/-
# Cutting a text into tokens

The lexer walks down the text.  A space, a tab or a form feed separates tokens and is passed over;
anything else has to start a token, and the longest one is taken.  The list ends with the marker for
the end of input, at the position just past the last byte.
-/
import Abacus.Error
import Abacus.Token

namespace Abacus
namespace Token

/-- A character that separates tokens: a space, a tab or a form feed. -/
def isGap (c : Char) : Bool := c == ' ' || c == '\t' || c == '\x0c'

/-- The token is a number that is not finite: a numeral too large to be a number. -/
def isTooLarge : Token → Bool
  | number value => !value.isFinite
  | _ => false

/-- The tokens of a text whose first byte is at `position`. -/
def lex (position : Position) (cs : Text) : Except Error (List Lexeme) :=
  match cs with
  | [] => .ok [⟨endOfInput, position⟩]
  | c :: rest =>
    if isGap c then lex (position.advance c.utf8Size) rest
    else
      match _ : scan? (c :: rest) with
      | none => .error ⟨.unexpectedCharacter c, position⟩
      | some (token, slice, after) =>
        if token.isTooLarge then .error ⟨.literalTooLarge, position⟩
        else do
          let lexemes ← lex (position.advance (Text.byteLength slice)) after
          .ok (⟨token, position⟩ :: lexemes)
termination_by cs.length
decreasing_by
  · simp
  · exact length_after_lt ‹_›

end Token
end Abacus
