/-
# What stands between the tokens

The lexer passes over spaces, tabs and form feeds, and the evaluator is meant not to see them.  Two
texts with the same tokens are compared here as two runs: where the tokens of the one stand is not
related to where those of the other stand, so only values and causes of errors can be compared
(`AnyPositions`).

There is one way to see what stands between the tokens.  A fraction literal is recognised before the
text is cut into tokens, by a scanner to which a form feed is no blank.  With a form feed beside the
slash, two numbers with a slash between them are a quotient and no fraction.  Everywhere else the
value depends on the tokens alone.

Main statements:

* `evaluate_of_tokens`: texts with the same tokens have the same outcome, unless they are two numbers
  with a slash between them and one of them has a form feed in it;
* `evaluate_formFeed`: where they are, they have not.
-/
import Abacus.Proofs.Evaluation.Positions
import Abacus.Proofs.Expr.Printing

namespace Abacus

open Abacus.Expr (Aligned AnyPositions)

/-! ## 1. Lexemes with the same tokens -/

namespace Expr

/-- Lexemes with the same tokens are aligned, up to the marker for the end of input. -/
theorem aligned_of_tokens {ls ls' : List Lexeme} (h : tokens ls = tokens ls') (p q : Position) :
    Aligned AnyPositions (ls ++ [⟨.endOfInput, p⟩]) (ls' ++ [⟨.endOfInput, q⟩]) := by
  induction ls generalizing ls' with
  | nil =>
    obtain rfl := eq_nil_of_tokens h.symm
    exact .last trivial
  | cons l ls ih =>
    obtain ⟨p', more, rfl, hmore⟩ := exists_of_tokens_cons h.symm
    exact .cons trivial (ih hmore.symm)

/-- What the lexer makes of two texts with the same tokens is aligned. -/
theorem aligned_of_lex {p q : Position} {text text' : Text} {ls ls' : List Lexeme}
    (hlex : Token.lex p text = .ok ls) (hlex' : Token.lex q text' = .ok ls')
    (htokens : tokens ls = tokens ls') : Aligned AnyPositions ls ls' := by
  obtain ⟨body, r, rfl, -⟩ := Token.cuts_of_lex hlex
  obtain ⟨body', r', rfl, -⟩ := Token.cuts_of_lex hlex'
  rw [tokens_append, tokens_append] at htokens
  exact aligned_of_tokens (List.append_cancel_right htokens) r r'

end Expr

/-! ## 2. Outcomes -/

namespace Environment

/-- The tokens are two numbers with a slash between them. -/
def AreFraction (ts : List Token) : Prop :=
  ∃ x y, ts = [.number x, .operator .div, .number y, .endOfInput]

/-- **Evaluation depends on tokens.**  Two texts with the same tokens have the same value, of the same
kind, or errors of the same cause, wherever they stand and whatever names are bound.  Fraction
literals have to agree on whether there are form feeds in them. -/
theorem evaluate_of_tokens (env : Environment) {p q : Position} {text text' : Text}
    {ls ls' : List Lexeme} (hlex : Token.lex p text = .ok ls) (hlex' : Token.lex q text' = .ok ls')
    (htokens : tokens ls = tokens ls')
    (hfeed : AreFraction (tokens ls) → ('\x0c' ∈ text ↔ '\x0c' ∈ text')) :
    SameOutcome (env.evaluate text p) (env.evaluate text' q) := by
  have haligned : Corresponds AnyPositions (Aligned AnyPositions) (Token.lex p text)
      (Token.lex q text') := by
    rw [hlex, hlex']
    exact Expr.aligned_of_lex hlex hlex' htokens
  have hcongr : Literal.isRational text = Literal.isRational text' := by
    rw [Bool.eq_iff_iff, Literal.isRational_iff hlex, Literal.isRational_iff hlex', ← htokens]
    exact and_congr_left (fun hfraction => not_congr (hfeed hfraction))
  exact (env.corresponds_evaluate_of_lex haligned hcongr).sameOutcome

/-- Results of two kinds are not the same. -/
theorem not_sameOutcome_of_kind {x y : Except Error Value} {k k' : ValueKind}
    (hx : x.map Value.kind = .ok k) (hy : y.map Value.kind = .ok k') (hne : k ≠ k') :
    ¬ SameOutcome x y := by
  intro hsame
  have hkind := hsame.map Value.kind
  rw [hx, hy] at hkind
  exact hne hkind

namespace Example

/-- A name and a numeral, with and without blanks and a form feed between the tokens. -/
theorem evaluate_of_tokens_spaced :
    ∃ ls ls', Token.lex ⟨1, 1⟩ "pi*2.50".toList = .ok ls ∧
      Token.lex ⟨1, 1⟩ "pi \x0c*\t2.5 ".toList = .ok ls' ∧ tokens ls = tokens ls' ∧
      (AreFraction (tokens ls) → ('\x0c' ∈ "pi*2.50".toList ↔ '\x0c' ∈ "pi \x0c*\t2.5 ".toList)) ∧
      SameOutcome ((fresh false).evaluate "pi*2.50".toList ⟨1, 1⟩)
        ((fresh false).evaluate "pi \x0c*\t2.5 ".toList ⟨1, 1⟩) := by
  have hlex : Token.lex ⟨1, 1⟩ "pi*2.50".toList
      = .ok [⟨.name ['p', 'i'], ⟨1, 1⟩⟩, ⟨.operator .mul, ⟨1, 3⟩⟩,
          ⟨.number (Binary64.ofDecimal 25 1), ⟨1, 4⟩⟩, ⟨.endOfInput, ⟨1, 8⟩⟩] := by decide +kernel
  have hlex' : Token.lex ⟨1, 1⟩ "pi \x0c*\t2.5 ".toList
      = .ok [⟨.name ['p', 'i'], ⟨1, 1⟩⟩, ⟨.operator .mul, ⟨1, 5⟩⟩,
          ⟨.number (Binary64.ofDecimal 25 1), ⟨1, 7⟩⟩, ⟨.endOfInput, ⟨1, 11⟩⟩] := by decide +kernel
  have hfraction : ¬ AreFraction (tokens [⟨.name ['p', 'i'], ⟨1, 1⟩⟩, ⟨.operator .mul, ⟨1, 3⟩⟩,
      ⟨.number (Binary64.ofDecimal 25 1), ⟨1, 4⟩⟩, ⟨.endOfInput, ⟨1, 8⟩⟩]) := by
    rintro ⟨x, y, h⟩
    simp at h
  exact ⟨_, _, hlex, hlex', rfl, fun h => absurd h hfraction,
    (fresh false).evaluate_of_tokens hlex hlex' rfl (fun h => absurd h hfraction)⟩

/-- **A form feed shows** beside the slash of a fraction: the tokens are the same, and one text is the
fraction of one and two, the other their quotient. -/
theorem evaluate_formFeed :
    ∃ ls ls', Token.lex ⟨1, 1⟩ "1/2".toList = .ok ls ∧ Token.lex ⟨1, 1⟩ "1\x0c/2".toList = .ok ls' ∧
      tokens ls = tokens ls' ∧
      ¬ SameOutcome ((fresh false).evaluate "1/2".toList ⟨1, 1⟩)
        ((fresh false).evaluate "1\x0c/2".toList ⟨1, 1⟩) := by
  have hlex : Token.lex ⟨1, 1⟩ "1/2".toList
      = .ok [⟨.number (Binary64.ofDecimal 1 0), ⟨1, 1⟩⟩, ⟨.operator .div, ⟨1, 2⟩⟩,
          ⟨.number (Binary64.ofDecimal 2 0), ⟨1, 3⟩⟩, ⟨.endOfInput, ⟨1, 4⟩⟩] := by decide +kernel
  have hlex' : Token.lex ⟨1, 1⟩ "1\x0c/2".toList
      = .ok [⟨.number (Binary64.ofDecimal 1 0), ⟨1, 1⟩⟩, ⟨.operator .div, ⟨1, 3⟩⟩,
          ⟨.number (Binary64.ofDecimal 2 0), ⟨1, 4⟩⟩, ⟨.endOfInput, ⟨1, 5⟩⟩] := by decide +kernel
  have hfraction : ((fresh false).evaluate "1/2".toList ⟨1, 1⟩).map Value.kind = .ok .rational := by
    decide +kernel
  have hquotient : ((fresh false).evaluate "1\x0c/2".toList ⟨1, 1⟩).map Value.kind
      = .ok .scalar := by decide +kernel
  exact ⟨_, _, hlex, hlex', rfl, not_sameOutcome_of_kind hfraction hquotient (by decide)⟩

end Example
end Environment
end Abacus
