/-
# Substituting values for names in a text

Every bound name in a text is replaced by the written form of its value.  A name counts only as a
whole word: a run of digits, points, underscores and letters that starts with a digit, a point or an
underscore is copied as it is, and so is a name with an opening parenthesis behind it, which is a
call.  Negative scalars and fractions are put in parentheses, so that the operators around them
still apply to them as a whole.
-/
import Abacus.Environment
import Abacus.Literal.Scan

namespace Abacus

/-- How a value is written in place of a name. -/
def Value.inPlace (v : Value) : Text :=
  match v with
  | .scalar x => if x.isNegative then '(' :: x.render ++ [')'] else x.render
  | .rational q => '(' :: q.render ++ [')']
  | other => other.render

namespace Environment

/-- A character that starts a run which is copied: a digit, a point or an underscore. -/
def startsRun (c : Char) : Bool := c.isDigit || c == '.' || c == '_'

/-- A character inside such a run. -/
def isRunChar (c : Char) : Bool := c.isAlphanum || c == '.' || c == '_'

/-- What is written for a name: its value, unless it is unbound or called. -/
def replacement (env : Environment) (name rest : Text) : Text :=
  match env.get? name, (rest.dropWhile Text.isBlank).head? with
  | some _, some '(' => name
  | some value, _ => value.inPlace
  | none, _ => name

theorem length_dropWhile_lt {p : Char → Bool} {c : Char} {rest : Text} (h : p c = true) :
    ((c :: rest).dropWhile p).length < (c :: rest).length := by
  rw [List.dropWhile_cons_of_pos h, List.length_cons]
  have := (List.dropWhile_sublist p (l := rest)).length_le
  omega

/-- The text with the values of the bound names in their place. -/
def substitute (env : Environment) (text : Text) : Text :=
  match text with
  | [] => []
  | c :: rest =>
    if _ : startsRun c then
      (c :: rest).takeWhile isRunChar ++ env.substitute ((c :: rest).dropWhile isRunChar)
    else if _ : c.isAlpha then
      let after := (c :: rest).dropWhile Text.isWordChar
      env.replacement ((c :: rest).takeWhile Text.isWordChar) after ++ env.substitute after
    else c :: env.substitute rest
termination_by text.length
decreasing_by
  · refine length_dropWhile_lt ?_
    rename_i h
    simp only [startsRun, Bool.or_eq_true] at h
    rcases h with (h | h) | h <;> simp [isRunChar, Char.isAlphanum, h]
  · refine length_dropWhile_lt ?_
    rename_i h
    simp [Text.isWordChar, Char.isAlphanum, h]
  · simp

end Environment
end Abacus
