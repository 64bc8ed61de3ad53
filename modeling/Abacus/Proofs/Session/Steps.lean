/-
# Increment and decrement are compound assignment by one

The statement `x++` takes the value of `x` one step up, and `x += 1` combines it with the value of the
text `1`.  Both look `x` up at the same position, so they fail alike where it is not bound.  Where it is,
the text `1` has the scalar one as its value in every environment, and the combination with it is the
step (`Value.combine_add_one`).  Nothing else can fail.  The same holds of `x--` and `x -= 1`.

Main statement: `step_eq_compound`.
-/
import Abacus.Proofs.Evaluation.Rendering
import Abacus.Proofs.Session.Expansion
import Abacus.Proofs.Value.Steps

namespace Abacus

open Abacus.Expr (AnyPositions)

/-! ## 1. The text of a step -/

/-- The text `name op op`. -/
def stepText (name : Text) (op : Operator) (a b : Blanks) : Text :=
  name ++ (a.val ++ op.symbol :: op.symbol :: b.val)

namespace Statement

/-- What is behind the target of a step is trimmed to the two signs. -/
theorem trimEnd_step (op : Operator) (b : Blanks) :
    Text.trimEnd (op.symbol :: op.symbol :: b.val) = [op.symbol, op.symbol] := by
  have htrim : Text.trimEnd ([op.symbol, op.symbol] ++ b.val) = Text.trimEnd [op.symbol, op.symbol] :=
    Text.trimEnd_append b.property _
  refine htrim.trans ?_
  cases op <;> rfl

variable (name : Text) (origin position : Position) (offset : Nat) (b : Blanks)

theorem ofTarget?_increment : ofTarget? name origin position
    ⟨offset, Operator.add.symbol :: Operator.add.symbol :: b.val⟩ = some (.increment name position) := by
  have hshape : Text.trimEnd (Operator.add.symbol :: Operator.add.symbol :: b.val) = ['+', '+'] :=
    trimEnd_step .add b
  simp only [ofTarget?, if_pos hshape]

theorem ofTarget?_decrement : ofTarget? name origin position
    ⟨offset, Operator.sub.symbol :: Operator.sub.symbol :: b.val⟩ = some (.decrement name position) := by
  have hshape : Text.trimEnd (Operator.sub.symbol :: Operator.sub.symbol :: b.val) = ['-', '-'] :=
    trimEnd_step .sub b
  have hplus : ¬ Text.trimEnd (Operator.sub.symbol :: Operator.sub.symbol :: b.val) = ['+', '+'] := by
    rw [hshape]
    decide
  simp only [ofTarget?, if_neg hplus, if_pos hshape]

end Statement

section Statements

variable {name : Text} (hname : name.isIdentifier = true) (line : Nat) (a b : Blanks)

include hname

theorem named?_stepText (op : Operator) :
    Statement.named? (stepText name op a b) line = Statement.ofTarget? name (.inLine line 0)
      (.inLine line 0)
      ⟨Text.byteLength name + Text.byteLength a.val, op.symbol :: op.symbol :: b.val⟩ := by
  refine Statement.named?_target hname a ?_ ?_ line
  · rintro c ⟨⟩
    cases op <;> rfl
  · rintro c ⟨⟩
    cases op <;> rfl

theorem parse_stepText_add :
    Statement.parse (stepText name .add a b) line = .ok (.increment name (.inLine line 0)) := by
  rw [Statement.parse_eq, named?_stepText hname, Statement.ofTarget?_increment]
  rfl

theorem parse_stepText_sub :
    Statement.parse (stepText name .sub a b) line = .ok (.decrement name (.inLine line 0)) := by
  rw [Statement.parse_eq, named?_stepText hname, Statement.ofTarget?_decrement]
  rfl

end Statements

/-! ## 2. The text of the number one -/

theorem spells_one : Spells ['1'] [.number .one] := by
  have hrender : Magnitude.one.render = ['1'] := by decide +kernel
  have hspells := Magnitude.one.spells_render
  rwa [hrender] at hspells

namespace Environment

variable (env : Environment)

/-- The text `1` has the same value in every environment. -/
theorem evaluate_one (p : Position) : env.evaluate ['1'] p = .ok (.scalar .one) := by
  refine env.evaluate_of_spells spells_one (by simp) ?_ p
  intro ls q h
  exact Expr.ofLexemes_signed (Expr.signed_of_tokens h) q

theorem evaluate_blanks_one (b : Blanks) (p : Position) :
    env.evaluate (b.val ++ ['1']) p = .ok (.scalar .one) := by
  have hblanks : Corresponds AnyPositions Eq (env.evaluate (b.val ++ ['1']) p) (env.evaluate ['1'] p) :=
    env.corresponds_evaluate_blanks_append b.property (fun _ _ _ _ => trivial) trivial ['1']
  rw [evaluate_one] at hblanks
  rcases hblanks.cases with ⟨v, _, hv, hone, rfl⟩ | ⟨_, _, _, -, herror, -⟩
  · rw [hv, hone]
  · cases herror

/-! ## 3. Statements -/

section Statements

variable {name : Text} (hname : name.isIdentifier = true) (line : Nat)

include hname

/-- Compound assignment of one answers with what the operator makes of the target's value and one. -/
theorem executeLine_compound_one {op : Operator} {f : Value → Value}
    (hf : ∀ p old, Value.combine op old (.scalar .one) p = .ok (f old)) (c d : Blanks) :
    env.executeLine (compoundText name op ['1'] c d) line
      = (env.settle (some name) (env.lookup name (.inLine line 0) >>= fun old => .ok (f old)),
        env.lookup name (.inLine line 0) >>= fun old => .ok (f old)) := by
  have hanswer : ∀ p, env.answer (.compound name op (d.val ++ ['1']) p (.inLine line 0))
      = env.lookup name (.inLine line 0) >>= fun old => .ok (f old) := by
    intro p
    rw [answer]
    refine congrArg (env.lookup name (.inLine line 0) >>= ·) (funext fun old => ?_)
    rw [evaluate_blanks_one, ok_bind, hf]
  rw [executeLine_of_parse (parse_compoundText_eq hname op ['1'] line c d), hanswer, Statement.target?]

/-- **A step is compound assignment of one**, with one outcome: value, environment or error. -/
theorem step_eq_compound (a b c d : Blanks) :
    env.executeLine (stepText name .add a b) line = env.executeLine (compoundText name .add ['1'] c d) line ∧
      env.executeLine (stepText name .sub a b) line
        = env.executeLine (compoundText name .sub ['1'] c d) line := by
  constructor
  · rw [env.executeLine_compound_one hname line Value.combine_add_one,
      executeLine_of_parse (parse_stepText_add hname line a b)]
    rfl
  · rw [env.executeLine_compound_one hname line Value.combine_sub_one,
      executeLine_of_parse (parse_stepText_sub hname line a b)]
    rfl

end Statements

namespace Example

/-- Nothing at all. -/
def nothing : Blanks := ⟨[], by simp [Text.AreBlank]⟩

/-- A name that is bound in the beginning, in an environment that does not bind a name twice. -/
theorem step_eq_compound_strict : Text.isIdentifier ['e'] = true ∧
    (fresh true).executeLine "e++".toList 3 = (fresh true).executeLine "e += 1".toList 3 ∧
    (fresh true).executeLine "e--".toList 3 = (fresh true).executeLine "e -= 1".toList 3 := by
  have hname : Text.isIdentifier ['e'] = true := rfl
  exact ⟨hname, (fresh true).step_eq_compound hname 3 nothing nothing space space⟩

end Example

end Environment
end Abacus
