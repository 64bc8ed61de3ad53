/-
# Tokens

A token is the smallest meaningful piece of an expression.  `Token.scan?` takes the longest token at
the front of a text:

* a name is a letter followed by letters, digits and underscores;
* a number is a numeral with a digit in it;
* `++`, `--` and an operator with `=` behind it are one token each;
* an operator, a bracket, a comma or `=` stands for itself.

The first character decides between the three, so the longest token of its class is the longest
token at all.

Main statement: `Token.scan?_split`: a token is taken off the front, and it is not empty.
-/
import Abacus.Numeral
import Abacus.Operator
import Abacus.Position

namespace Abacus

/-- A token of an expression. -/
inductive Token where
  /-- A number. -/
  | number (value : Binary64)
  /-- The name of a variable or a function. -/
  | name (text : Text)
  /-- An operator. -/
  | operator (op : Operator)
  /-- An operator with `=` behind it. -/
  | assignOperator (op : Operator)
  /-- Two plus signs. -/
  | increment
  /-- Two minus signs. -/
  | decrement
  | openParen
  | closeParen
  | openBracket
  | closeBracket
  | comma
  | equals
  /-- The end of the text; it stands behind the last token. -/
  | endOfInput
  deriving DecidableEq

/-- A token and the position of its first byte. -/
abbrev Lexeme := Located Token

namespace Token

/-! ## 1. Written form -/

/-- How messages write a token. -/
def text : Token → Text
  | number value => value.render
  | name text => text
  | operator op => [op.symbol]
  | assignOperator op => [op.symbol, '=']
  | increment => ['+', '+']
  | decrement => ['-', '-']
  | openParen => ['(']
  | closeParen => [')']
  | openBracket => ['[']
  | closeBracket => [']']
  | comma => [',']
  | equals => ['=']
  | endOfInput => "end of input".toList

/-- The arithmetic operator that a token stands for. -/
def operator? : Token → Option Operator
  | operator op => some op
  | _ => none

/-! ## 2. The longest token at the front -/

/-- The token of a bracket, a comma or an equals sign. -/
def punctuation? : Char → Option Token
  | '(' => some openParen
  | ')' => some closeParen
  | '[' => some openBracket
  | ']' => some closeBracket
  | ',' => some comma
  | '=' => some equals
  | _ => none

/-- The token that a character and the text behind it start, when it is neither a name nor a
number; with the characters it takes and the rest. -/
def symbol? (c : Char) (rest : Text) : Option (Token × Text × Text) :=
  match Operator.ofSymbol? c, rest with
  | some op, '=' :: after => some (assignOperator op, [c, '='], after)
  | some .add, '+' :: after => some (increment, [c, '+'], after)
  | some .sub, '-' :: after => some (decrement, [c, '-'], after)
  | some op, after => some (operator op, [c], after)
  | none, after => (punctuation? c).map (fun token => (token, [c], after))

/-- The longest token at the front of a text, with the characters it takes and the rest. -/
def scan? : Text → Option (Token × Text × Text)
  | [] => none
  | c :: rest =>
    if c.isAlpha then
      let name := (c :: rest).takeWhile Text.isWordChar
      some (Token.name name, name, (c :: rest).dropWhile Text.isWordChar)
    else
      let (numeral, after) := Numeral.ofText (c :: rest)
      if numeral.hasDigit then some (number numeral.value, numeral.text, after)
      else symbol? c rest

theorem isWordChar_of_isAlpha {c : Char} (h : c.isAlpha = true) : Text.isWordChar c = true := by
  simp [Text.isWordChar, Char.isAlphanum, h]

theorem symbol?_split {c : Char} {rest slice after : Text} {token : Token}
    (h : symbol? c rest = some (token, slice, after)) :
    slice ++ after = c :: rest ∧ slice ≠ [] := by
  unfold symbol? at h
  split at h
  · cases h; exact ⟨rfl, by simp⟩
  · cases h; exact ⟨rfl, by simp⟩
  · cases h; exact ⟨rfl, by simp⟩
  · cases h; exact ⟨rfl, by simp⟩
  · cases hp : punctuation? c with
    | none => simp [hp] at h
    | some t =>
      simp only [hp, Option.map_some, Option.some.injEq, Prod.mk.injEq] at h
      obtain ⟨-, rfl, rfl⟩ := h
      exact ⟨rfl, by simp⟩

/-- A token is taken off the front of the text, and it is not empty. -/
theorem scan?_split {cs slice after : Text} {token : Token}
    (h : scan? cs = some (token, slice, after)) : slice ++ after = cs ∧ slice ≠ [] := by
  cases cs with
  | nil => simp [scan?] at h
  | cons c rest =>
    unfold scan? at h
    dsimp only at h
    split at h
    · next halpha =>
      cases h
      refine ⟨List.takeWhile_append_dropWhile, ?_⟩
      rw [List.takeWhile_cons_of_pos (isWordChar_of_isAlpha halpha)]
      simp
    · split at h
      · next hdigit =>
        cases h
        refine ⟨Numeral.ofText_text _, ?_⟩
        intro hnil
        simp only [Numeral.text, List.append_eq_nil_iff] at hnil
        obtain ⟨hw, hf⟩ := hnil
        cases hfrac : (Numeral.ofText (c :: rest)).1.fraction with
        | none => simp [Numeral.hasDigit, hw, hfrac] at hdigit
        | some digits => simp [hfrac] at hf
      · exact symbol?_split h

/-- What is left behind a token is shorter. -/
theorem length_after_lt {cs slice after : Text} {token : Token}
    (h : scan? cs = some (token, slice, after)) : after.length < cs.length := by
  obtain ⟨hsplit, hne⟩ := scan?_split h
  have hpos : 0 < slice.length := List.length_pos_iff.mpr hne
  rw [← hsplit, List.length_append]
  omega

end Token
end Abacus
