/-
# Evaluation depends on lexemes

The value of a text does not depend on the place where the text stands, nor on what stands between its
tokens, and if there is an error, its cause does not.  The position of an error goes with the lexemes:
if the lexemes of two texts stand at related positions, so do the errors of the texts.

For trees this is an induction over trees of one shape.  A text that is no fraction literal has the
value of its tree, and the tree is made from the lexemes.  Fraction literals are recognised by their
characters, but form feeds apart they are recognised by their tokens as well; what can still fail is
the check of the denominator, and its position is that of the first lexeme.

Main statements:

* `corresponds_eval`: trees of one shape have corresponding values;
* `corresponds_evaluate_of_lex`: so do texts with the same tokens;
* `corresponds_evaluate`: so does one text at two places.
-/
import Abacus.Proofs.Evaluation.Routes
import Abacus.Proofs.Expr.Positions
import Abacus.Proofs.Literal.Passing
import Abacus.Proofs.Value.Positions

namespace Abacus

variable {R : Position → Position → Prop}

open Abacus.Expr (Aligned Moves SameShape SameShapes)

/-! ## 1. Trees -/

namespace Environment

variable (env : Environment)

theorem corresponds_lookup {p q : Position} (hR : R p q) (name : Text) :
    Corresponds R Eq (env.lookup name p) (env.lookup name q) := by
  unfold lookup
  split
  · exact rfl
  · exact corresponds_error hR _ _

mutual

/-- **Trees of one shape** have one value, or errors with one cause at related positions. -/
theorem corresponds_eval {e e' : Expr} :
    SameShape R e e' → Corresponds R Eq (env.eval e) (env.eval e')
  | .number _ => by
    rw [eval, eval]
    exact rfl
  | .name hR => by
    rw [eval, eval]
    exact env.corresponds_lookup hR _
  | .vector _ => by
    rw [eval, eval]
    exact rfl
  | .matrix hR => by
    rw [eval, eval]
    exact (Matrix.corresponds_make hR _).map (fun _ _ h => congrArg Value.matrix h)
  | .negate _ h => by
    rw [eval, eval]
    refine (corresponds_eval h).bind ?_
    rintro v _ rfl
    exact rfl
  | .binary hR hl hr => by
    rw [eval, eval]
    refine (corresponds_eval hl).bind ?_
    rintro l _ rfl
    refine (corresponds_eval hr).bind ?_
    rintro r _ rfl
    exact Value.corresponds_combine hR _ l r
  | .call hR hs => by
    rw [eval, eval]
    split
    · exact corresponds_error hR _ _
    · next f _ =>
      refine (corresponds_evalAll hs).bind ?_
      rintro vs _ rfl
      exact Builtin.corresponds_apply hR f vs

theorem corresponds_evalAll {es es' : List Expr} :
    SameShapes R es es' → Corresponds R Eq (env.evalAll es) (env.evalAll es')
  | .nil => by
    rw [evalAll]
    exact rfl
  | .cons h hs => by
    rw [evalAll, evalAll]
    refine (corresponds_eval h).bind ?_
    rintro v _ rfl
    refine (corresponds_evalAll hs).bind ?_
    rintro vs _ rfl
    exact rfl

end

end Environment

/-! ## 2. Fraction literals -/

namespace Literal

/-- Texts with the same tokens are both fraction literals or neither is, unless they differ in form
feeds. -/
theorem isRational_congr {p q : Position} {text text' : Text}
    (hlex : Corresponds R (Aligned R) (Token.lex p text) (Token.lex q text'))
    (hfeed : '\x0c' ∈ text ↔ '\x0c' ∈ text') : isRational text = isRational text' := by
  rw [Bool.eq_iff_iff]
  rcases hlex.cases with ⟨ls, ls', hls, hls', haligned⟩ | ⟨cause, _, _, herror, herror', -⟩
  · rw [isRational_iff hls, isRational_iff hls', haligned.tokens_eq, hfeed]
  · constructor
    · intro h
      obtain ⟨_, _, _, _, _, hls, -⟩ := lex_of_isRational h p
      rw [hls] at herror
      cases herror
    · intro h
      obtain ⟨_, _, _, _, _, hls, -⟩ := lex_of_isRational h q
      rw [hls] at herror'
      cases herror'

end Literal

/-! ## 3. Texts -/

namespace Environment

variable (env : Environment)

/-- The value of a fraction literal is the fraction of its numbers, if that is one. -/
theorem evaluate_of_isRational {text : Text} (h : Literal.isRational text = true)
    (origin : Position) :
    ∃ x y p q r s, Token.lex origin text
        = .ok [⟨.number x, p⟩, ⟨.operator .div, q⟩, ⟨.number y, r⟩, ⟨.endOfInput, s⟩] ∧
      env.evaluate text origin = (Fraction.make x y p).map .rational := by
  obtain ⟨x, y, q, r, s, hlex, after, hfound⟩ := Literal.lex_of_isRational h origin
  refine ⟨x, y, _, q, r, s, hlex, ?_⟩
  unfold evaluate Literal.rationalValue
  dsimp only
  rw [Literal.classify_eq_rational.mpr h, hfound]
  dsimp only [Scan.toExcept, ok_bind]
  cases Fraction.make x y ((Cursor.start text).skipBlanks.position origin) <;> rfl

/-- **Evaluation depends on lexemes.**  Two texts that the lexer treats alike have one value, or
errors with one cause at related positions, if both are fraction literals or neither is. -/
theorem corresponds_evaluate_of_lex {p q : Position} {text text' : Text}
    (hlex : Corresponds R (Aligned R) (Token.lex p text) (Token.lex q text'))
    (hcongr : Literal.isRational text = Literal.isRational text') :
    Corresponds R Eq (env.evaluate text p) (env.evaluate text' q) := by
  cases hrational : Literal.isRational text with
  | true =>
    rw [hrational] at hcongr
    obtain ⟨x, y, _, _, _, _, hls, hvalue⟩ := env.evaluate_of_isRational hrational p
    obtain ⟨x', y', _, _, _, _, hls', hvalue'⟩ := env.evaluate_of_isRational hcongr.symm q
    rw [hls, hls'] at hlex
    cases hlex with
    | cons hR hmore =>
      cases hmore with
      | cons _ hmore =>
        cases hmore with
        | cons _ _ =>
          rw [hvalue, hvalue']
          exact (Fraction.corresponds_make hR x y).map (fun _ _ h => congrArg Value.rational h)
  | false =>
    rw [hrational] at hcongr
    rw [env.evaluate_eq_evaluateArithmetic text p hrational,
      env.evaluate_eq_evaluateArithmetic text' q hcongr.symm, evaluateArithmetic_eq_eval,
      evaluateArithmetic_eq_eval]
    have hparse : Corresponds R (SameShape R) (Expr.parse text p) (Expr.parse text' q) :=
      hlex.bind (fun _ _ h => Expr.corresponds_ofLexemes _ h)
    exact hparse.bind (fun _ _ h => env.corresponds_eval h)

/-- **A text at two places** has one value, or errors with one cause at related positions. -/
theorem corresponds_evaluate (hmoves : Moves R) {p q : Position} (hR : R p q) (text : Text) :
    Corresponds R Eq (env.evaluate text p) (env.evaluate text q) :=
  env.corresponds_evaluate_of_lex (Expr.corresponds_lex hmoves hR text) rfl

end Environment
end Abacus
