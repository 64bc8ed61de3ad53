/-
# Values are read back

The written form of a value is an expression, and the value of that expression is the value again: of
the same kind and shape, with the same numbers, down to the signs of zeros.  No name occurs in it, so
it does not matter what names are bound.

Each kind takes its own way back.  A number with a sign is a negation, and negating twice changes
nothing.  Vectors and matrices are literals, told apart by the second bracket, so a matrix has to have
a row; it may be a row without numbers.  A fraction is recognised by its tokens, two numbers with a
slash between them, so its parts must not have a sign: `-1/2` is the quotient of `-1` and `2`.

Main statements:

* `evaluate_of_spells`: a text that spells tokens other than those of a fraction has the value of their
  tree;
* `evaluate_render`: what is written for a value is evaluated to that value.
-/
import Abacus.Proofs.Evaluation.Positions

namespace Abacus

open Abacus.Expr (Signed)

/-! ## 1. Trees of written forms -/

namespace Expr

variable {ls : List Lexeme}

/-- A number with an optional minus sign is a tree with the value of the number. -/
theorem ofLexemes_signed {x : Binary64} (h : Signed x ls) (q : Position) :
    ∃ e, ofLexemes .standard (ls ++ [⟨.endOfInput, q⟩]) = .ok e ∧
      ∀ env : Environment, env.eval e = .ok (.scalar x) := by
  cases h with
  | @plain _ p =>
    refine ⟨.number x p, rfl, fun env => ?_⟩
    rw [Environment.eval]
  | @minus y p p' =>
    refine ⟨.negate (.number y p') p, rfl, fun env => ?_⟩
    rw [Environment.eval, Environment.eval]
    rfl

/-- A list of numbers in brackets is a tree with the value of the vector. -/
theorem ofLexemes_vectorTokens {xs : List Binary64}
    (h : tokens ls = bracketTokens (xs.map Binary64.tokens)) (q : Position) :
    ∃ e, ofLexemes .standard (ls ++ [⟨.endOfInput, q⟩]) = .ok e ∧
      ∀ env : Environment, env.eval e = .ok (.vector xs) := by
  obtain ⟨p, ls', rfl, hlist⟩ := listed_of_tokens (fun _ _ => signed_of_tokens) h
  refine ⟨.vector xs p, ofLexemes_literal (bracketLiteral_vector hlist _ _) rfl, fun env => ?_⟩
  rw [Environment.eval]

/-- A list of rows in brackets is a tree with the value of the matrix, if there is a row. -/
theorem ofLexemes_matrixTokens {m : Matrix} (hrows : m.rows ≠ [])
    (h : tokens ls = bracketTokens (m.rows.map (fun row => bracketTokens (row.map Binary64.tokens))))
    (q : Position) :
    ∃ e, ofLexemes .standard (ls ++ [⟨.endOfInput, q⟩]) = .ok e ∧
      ∀ env : Environment, env.eval e = .ok (.matrix m) := by
  obtain ⟨p, ls', rfl, hlist⟩ := listed_of_tokens (fun _ _ => row_of_tokens) h
  obtain ⟨inner, p', rfl, hsep⟩ := hlist.exists_separated hrows
  have hread : bracketLiteral p (inner ++ [⟨.closeBracket, p'⟩] ++ [⟨.endOfInput, q⟩])
      = .ok (.matrix m.rows p, [⟨.endOfInput, q⟩]) := by
    rw [List.append_assoc]
    exact bracketLiteral_matrix hsep _ p' _
  refine ⟨.matrix m.rows p, ofLexemes_literal hread rfl, fun env => ?_⟩
  rw [Environment.eval, Matrix.make, dif_pos m.rectangular]
  rfl

end Expr

/-! ## 2. Reading back -/

namespace Environment

variable (env : Environment) {text : Text} {origin : Position}

/-- A text that spells tokens other than those of a fraction has the value of their tree. -/
theorem evaluate_of_spells {ts : List Token} {v : Value} (hspells : Spells text ts)
    (hfraction : ∀ x y, ts ++ [.endOfInput] ≠ [.number x, .operator .div, .number y, .endOfInput])
    (htree : ∀ ls q, tokens ls = ts → ∃ e,
      Expr.ofLexemes .standard (ls ++ [⟨.endOfInput, q⟩]) = .ok e ∧
        ∀ env : Environment, env.eval e = .ok v)
    (origin : Position) : env.evaluate text origin = .ok v := by
  obtain ⟨ls, q, hcuts, rfl⟩ := hspells.cuts origin
  obtain ⟨e, he, heval⟩ := htree ls q rfl
  have hrational : Literal.isRational text = false := by
    rw [Bool.eq_false_iff, Ne, Literal.isRational_iff hcuts.lex_eq_ok]
    rintro ⟨-, x, y, htokens⟩
    rw [tokens_append] at htokens
    exact hfraction x y htokens
  rw [env.evaluate_eq_evaluateArithmetic text origin hrational, evaluateArithmetic_eq_eval]
  unfold Expr.parse Expr.parseWithin
  rw [hcuts.lex_eq_ok, ok_bind, he, ok_bind, heval]

/-- A text that spells the tokens of a fraction, without form feeds, has the fraction as its value. -/
theorem evaluate_of_spells_fraction {q : Fraction}
    (hspells : Spells text [.number q.numerator, .operator .div, .number q.denominator])
    (hfeed : '\x0c' ∉ text) (origin : Position) : env.evaluate text origin = .ok (.rational q) := by
  obtain ⟨ls, r, hcuts, htokens⟩ := hspells.cuts origin
  have hrational : Literal.isRational text = true := by
    rw [Literal.isRational_iff hcuts.lex_eq_ok, tokens_append, htokens]
    exact ⟨hfeed, _, _, rfl⟩
  obtain ⟨x, y, p, _, _, _, hlex, hvalue⟩ := env.evaluate_of_isRational hrational origin
  have hparts := congrArg tokens (Except.ok.inj (hcuts.lex_eq_ok.symm.trans hlex))
  rw [tokens_append, htokens] at hparts
  cases hparts
  rw [hvalue, Fraction.make, dif_pos q.nonzero]
  rfl

/-- A number without sign is written with digits and points. -/
theorem formFeed_notMem_render {x : Binary64} (hfinite : x.isFinite = true)
    (hsign : x.isNegative = false) : '\x0c' ∉ x.render := by
  obtain ⟨s, m, rfl⟩ := Binary64.exists_finite hfinite
  obtain rfl : s = false := hsign
  intro hmem
  rcases Magnitude.mem_render hmem with hdigit | hpoint
  · cases hdigit
  · exact absurd hpoint (by decide)

/-- **Values are read back.**  A value of finite numbers, written out and evaluated, is the value
again, whatever names are bound and wherever the text stands.  A matrix has to have a row, and the
parts of a fraction must not have a sign. -/
theorem evaluate_render (origin : Position) {v : Value} (hfinite : v.isFinite = true)
    (hrows : ∀ m, v = .matrix m → m.rows ≠ [])
    (hsign : ∀ q, v = .rational q →
      q.numerator.isNegative = false ∧ q.denominator.isNegative = false) :
    env.evaluate v.render origin = .ok v := by
  cases v with
  | scalar x =>
    refine env.evaluate_of_spells (Binary64.spells_render hfinite) ?_
      (fun ls q h => Expr.ofLexemes_signed (Expr.signed_of_tokens h) q) origin
    intro y z
    unfold Binary64.tokens
    split <;> simp
  | vector xs =>
    refine env.evaluate_of_spells (Value.spells_renderRow hfinite) ?_
      (fun ls q h => Expr.ofLexemes_vectorTokens h q) origin
    rintro y z ⟨⟩
  | matrix m =>
    refine env.evaluate_of_spells (Value.spells_renderMatrix hfinite) ?_
      (fun ls q h => Expr.ofLexemes_matrixTokens (hrows m rfl) h q) origin
    rintro y z ⟨⟩
  | rational q =>
    obtain ⟨hnum, hden⟩ := Bool.and_eq_true_iff.mp hfinite
    obtain ⟨hnumSign, hdenSign⟩ := hsign q rfl
    have hspells := q.spells_render hnum hden
    rw [Binary64.tokens, Binary64.tokens, if_neg (by simp [hnumSign]),
      if_neg (by simp [hdenSign])] at hspells
    refine env.evaluate_of_spells_fraction hspells ?_ origin
    intro hmem
    rcases List.mem_append.mp hmem with hmem | hmem
    · exact formFeed_notMem_render hnum hnumSign hmem
    · rcases List.mem_cons.mp hmem with hslash | hmem
      · exact absurd hslash (by decide)
      · exact formFeed_notMem_render hden hdenSign hmem

namespace Example

/-- One half. -/
def half : Fraction := ⟨.one, .ofInt 2, by decide +kernel⟩

/-- A fraction, in an environment that binds names. -/
theorem evaluate_render_half :
    (Value.rational half).isFinite = true ∧ (∀ m, Value.rational half = .matrix m → m.rows ≠ []) ∧
      (∀ q, Value.rational half = .rational q →
        q.numerator.isNegative = false ∧ q.denominator.isNegative = false) ∧
      (fresh false).evaluate (Value.rational half).render ⟨1, 1⟩ = .ok (.rational half) := by
  have hfinite : (Value.rational half).isFinite = true := by decide +kernel
  have hrows : ∀ m, Value.rational half = .matrix m → m.rows ≠ [] := by
    rintro m ⟨⟩
  have hsign : ∀ q, Value.rational half = .rational q →
      q.numerator.isNegative = false ∧ q.denominator.isNegative = false := by
    rintro q ⟨⟩
    decide +kernel
  exact ⟨hfinite, hrows, hsign, (fresh false).evaluate_render ⟨1, 1⟩ hfinite hrows hsign⟩

end Example
end Environment
end Abacus
