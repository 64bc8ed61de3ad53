/-
# All routes of evaluation lead to the tree

A text is evaluated by one of several routes: literals by their scanners, numeric texts by putting
values in place of names and running the postfix program, everything else by its tree.  Which one is
taken cannot be seen: the outcome is always that of the tree, with its payload and its position.  The
one exception are fraction literals, which are fractions and not quotients.

For literals, what the scanner found is the tree of the text, with the bracket of the literal at the
position where the scan began.  For numeric texts, the substituted text is cut into a written form of
the tree with its scalars inlined, and the program of that tree is the tree in postfix order.  No
parsing of the substituted text takes place, so no limit can interfere.  The error of a numeric route
that fails is replaced by that of the tree; this is why a cause is all that has to agree.

Main statement: `evaluate_eq_eval`.
-/
import Abacus.Proofs.Environment.Inlining
import Abacus.Proofs.Literal.Agreement
import Abacus.Proofs.Postfix.Postorder

namespace Abacus

/-! ## 1. Numeric trees -/

namespace Expr

/-- Every name in the written form of a numeric tree is a variable of the tree. -/
theorem mem_variableNames {k : Nat} {e : Expr} {ls : List Lexeme} (h : Reads k e ls)
    (hnumeric : e.isNumeric = true) {name : Text} (hname : .name name ∈ tokens ls) :
    name ∈ e.variableNames := by
  induction h using Reads.induction with
  | number k x p => simp at hname
  | name k text p =>
    rw [tokens_cons, tokens_nil, List.mem_singleton] at hname
    cases hname
    exact List.mem_cons_self
  | vector k xs ls p h => cases hnumeric
  | matrix k rows ls p q h => cases hnumeric
  | call k text es ls p q _ h => cases hnumeric
  | group k e ls p q h ih =>
    rw [tokens_cons, tokens_append, List.mem_cons, List.mem_append] at hname
    rcases hname with hname | hname | hname
    · cases hname
    · exact ih hnumeric hname
    · simp at hname
  | negate k e ls p h ih =>
    rw [tokens_cons, List.mem_cons] at hname
    rcases hname with hname | hname
    · cases hname
    · exact ih hnumeric hname
  | binary k op l r ls rs p hk hl hr ihl ihr =>
    obtain ⟨hnl, hnr⟩ := Bool.and_eq_true_iff.mp hnumeric
    rw [tokens_append, tokens_cons, List.mem_append, List.mem_cons] at hname
    rcases hname with hname | hname | hname
    · exact List.mem_append_left _ (ihl hnl hname)
    · cases hname
    · exact List.mem_append_right _ (ihr hnr hname)

end Expr

namespace Environment

variable {env : Environment}

/-- A name that is bound to a finite scalar. -/
theorem exists_of_bindsFiniteScalar {name : Text} (h : env.bindsFiniteScalar name = true) :
    ∃ x, env.get? name = some (.scalar x) ∧ x.isFinite = true := by
  unfold bindsFiniteScalar at h
  cases hget : env.get? name with
  | none =>
    rw [hget] at h
    cases h
  | some value =>
    rw [hget] at h
    cases value with
    | scalar x => exact ⟨x, rfl, h⟩
    | _ => cases h

/-- Collapsing the environment makes no difference to a numeric tree of scalars. -/
theorem eval_collapse : ∀ {e : Expr}, e.isNumeric = true →
    (∀ name ∈ e.variableNames, env.bindsFiniteScalar name = true) →
      env.collapse.eval e = env.eval e
  | .number x p, _, _ => by
    rw [eval, eval]
  | .name text p, _, hscalar => by
    obtain ⟨x, hget, -⟩ := exists_of_bindsFiniteScalar (hscalar text List.mem_cons_self)
    rw [eval, eval, lookup, lookup, get?_collapse, hget]
    rfl
  | .negate e p, hnumeric, hscalar => by
    rw [eval, eval, eval_collapse (e := e) hnumeric hscalar]
  | .binary op l r p, hnumeric, hscalar => by
    obtain ⟨hnl, hnr⟩ := Bool.and_eq_true_iff.mp hnumeric
    obtain ⟨hsl, hsr⟩ := List.forall_mem_append.mp hscalar
    rw [eval, eval, eval_collapse hnl hsl, eval_collapse hnr hsr]

/-! ## 2. The numeric route -/

/-- The machine has the outcome of the tree on the substituted text. -/
theorem sameOutcome_evaluate {text : Text} {origin : Position} {e : Expr}
    (hparse : Expr.parse text origin = .ok e) (hnumeric : e.isNumeric = true)
    (hscalar : ∀ name ∈ e.variableNames, env.bindsFiniteScalar name = true) :
    SameOutcome ((Postfix.evaluate (env.substitute text) origin).map .scalar) (env.eval e) := by
  obtain ⟨body, q, hcuts, hreads⟩ := Expr.cuts_of_parse hparse
  have hfinite : env.BindsFinite (tokens body) := by
    intro name value hname hget
    obtain ⟨x, hx, hfinite⟩ :=
      exists_of_bindsFiniteScalar (hscalar name (Expr.mem_variableNames hreads hnumeric hname))
    rw [hx] at hget
    cases hget
    exact hfinite
  obtain ⟨body', q', e', hcuts', hreads', hin⟩ :=
    Expr.cuts_inlined hcuts hreads (Or.inr (hreads.callFree hnumeric)) hfinite origin
  obtain ⟨-, heval⟩ := Postfix.evaluate_of_reads hcuts'.lex_eq_ok hreads'
    (hin.ground hnumeric hscalar) (Or.inr ⟨q', [], rfl⟩)
  have houtcome := hin.outcome
  rw [heval, eval_collapse hnumeric hscalar] at houtcome
  exact houtcome

/-- **The numeric route is the tree**: a result is that of the tree, and the error of the machine is
replaced by that of the tree. -/
theorem evaluateNumeric_eq_eval {text : Text} {origin : Position} {e : Expr}
    (hparse : Expr.parse text origin = .ok e) (hnumeric : e.isNumeric = true)
    (hscalar : ∀ name ∈ e.variableNames, env.bindsFiniteScalar name = true) :
    env.evaluateNumeric e text origin = env.eval e := by
  have hsame := sameOutcome_evaluate hparse hnumeric hscalar
  unfold evaluateNumeric
  cases hnumeric : Postfix.evaluate (env.substitute text) origin with
  | ok x =>
    rw [hnumeric] at hsame
    rcases hsame.cases with ⟨v, hv, heval⟩ | ⟨_, _, herror, -⟩
    · cases hv
      exact heval.symm
    · cases herror
  | error numeric =>
    rw [hnumeric] at hsame
    rcases hsame.cases with ⟨v, hv, -⟩ | ⟨_, error, -, heval, -⟩
    · cases hv
    · rw [heval]

/-- Arithmetic is the tree, whichever route it takes. -/
theorem evaluateArithmetic_eq_eval (env : Environment) (text : Text) (origin : Position) :
    env.evaluateArithmetic text origin = Expr.parse text origin >>= env.eval := by
  unfold evaluateArithmetic
  cases hparse : Expr.parse text origin with
  | error error => rfl
  | ok e =>
    rw [ok_bind, ok_bind]
    split
    · next hroute =>
      obtain ⟨hnumeric, hscalar⟩ := Bool.and_eq_true_iff.mp hroute
      exact evaluateNumeric_eq_eval hparse hnumeric (List.all_eq_true.mp hscalar)
    · rfl

/-! ## 3. All texts -/

/-- Literals other than fractions have the value that they have as arithmetic. -/
theorem evaluate_eq_evaluateArithmetic (env : Environment) (text : Text) (origin : Position)
    (hrational : Literal.isRational text = false) :
    env.evaluate text origin = env.evaluateArithmetic text origin := by
  unfold evaluate
  dsimp only
  cases hkind : Literal.classify text with
  | matrix =>
    obtain ⟨-, hcovers⟩ := Bool.and_eq_true_iff.mp (Literal.classify_eq_matrix.mp hkind)
    obtain ⟨rows, after, hfound, hend⟩ := Literal.coversText_iff.mp hcovers
    have hfound' := (Literal.alike_matrix _ origin _).of_found hfound
    rw [evaluateArithmetic_eq_eval, Literal.parse_of_matrix hfound hend, ok_bind, eval]
    dsimp only
    unfold Literal.matrixValue
    rw [hfound', Scan.toExcept, ok_bind]
    dsimp only
    cases Matrix.make rows ((Cursor.start text).skipBlanks.position origin) <;> rfl
  | vector =>
    obtain ⟨-, hcovers⟩ := Bool.and_eq_true_iff.mp (Literal.classify_eq_vector.mp hkind)
    obtain ⟨xs, after, hfound, hend⟩ := Literal.coversText_iff.mp hcovers
    have hfound' := (Literal.alike_vector _ origin _).of_found hfound
    rw [evaluateArithmetic_eq_eval, Literal.parse_of_vector hfound hend, ok_bind, eval]
    dsimp only
    unfold Literal.vectorValue
    rw [hfound']
    rfl
  | rational =>
    rw [Literal.classify_eq_rational.mp hkind] at hrational
    cases hrational
  | number =>
    obtain ⟨x, after, hfound, hend⟩ := Literal.coversText_iff.mp (Literal.classify_eq_number.mp hkind)
    have hfound' := (Literal.alike_number _ origin _).of_found hfound
    rw [evaluateArithmetic_eq_eval, Literal.parse_of_number hfound hend, ok_bind, eval]
    dsimp only
    unfold Literal.numberValue
    rw [hfound']
    rfl
  | functionCall => rfl
  | arithmetic => rfl

/-- **The routes cannot be told apart.**  Unless the text is a fraction literal, its value is the
value of its tree, and its error is the error of the parser or of the tree. -/
theorem evaluate_eq_eval (env : Environment) (text : Text) (origin : Position)
    (hrational : Literal.isRational text = false) :
    env.evaluate text origin = Expr.parse text origin >>= env.eval := by
  rw [env.evaluate_eq_evaluateArithmetic text origin hrational, evaluateArithmetic_eq_eval]

/-- A numeric text with a name in it, which takes the route over the substituted text. -/
theorem evaluate_minusPi :
    Literal.isRational "2*-pi".toList = false ∧
      (fresh false).evaluate "2*-pi".toList ⟨1, 1⟩
        = Expr.parse "2*-pi".toList ⟨1, 1⟩ >>= (fresh false).eval := by
  have hrational : Literal.isRational "2*-pi".toList = false := by decide +kernel
  exact ⟨hrational, evaluate_eq_eval (fresh false) "2*-pi".toList ⟨1, 1⟩ hrational⟩

end Environment
end Abacus
