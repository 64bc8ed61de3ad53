/-
# Positions

A position is a line and a column, both counted from one.  Statements are read one line at a time,
so a column is a byte offset into the statement plus one.
-/
namespace Abacus

/-- A place in the source: line and column, counted from one. -/
structure Position where
  /-- The line of the source. -/
  line : Nat
  /-- The byte column in the line. -/
  column : Nat
  deriving DecidableEq, Inhabited

namespace Position

/-- The position that stands for no place in the source. -/
def unknown : Position := ⟨0, 0⟩

/-- The position of the byte at `offset` in a line. -/
def inLine (line offset : Nat) : Position := ⟨line, offset + 1⟩

/-- The position some bytes further to the right. -/
def advance (p : Position) (bytes : Nat) : Position := ⟨p.line, p.column + bytes⟩

@[simp] theorem line_advance (p : Position) (bytes : Nat) : (p.advance bytes).line = p.line := rfl

@[simp] theorem column_advance (p : Position) (bytes : Nat) :
    (p.advance bytes).column = p.column + bytes := rfl

@[simp] theorem advance_zero (p : Position) : p.advance 0 = p := rfl

theorem advance_advance (p : Position) (a b : Nat) :
    (p.advance a).advance b = p.advance (a + b) := by
  simp [advance, Nat.add_assoc]

theorem inLine_zero_advance (line offset : Nat) :
    (inLine line 0).advance offset = inLine line offset := by
  simp [inLine, advance, Nat.add_comm]

/-- The position in words. -/
def render (p : Position) : String := s!"line {p.line}, column {p.column}"

end Position

/-- Something read from the source, with the place it was read at. -/
structure Located (α : Type) where
  /-- What was read. -/
  item : α
  /-- Where it starts. -/
  position : Position
  deriving DecidableEq

end Abacus
