/-
# Statements

A statement is one line. Five shapes are told apart, and only the target, the operator and the text
behind it are taken apart here:

    name ++        name --        name op= value        name = value        expression

The shapes with a name need nothing but blanks before the name and between it and the operator.  An
equals sign anywhere else is an error: what stands before it is no name.
-/
import Abacus.Literal.Scan

namespace Abacus

/-- One statement. -/
inductive Statement where
  /-- An expression, evaluated for its value. -/
  | expression (text : Text) (position : Position)
  /-- A name is bound to the value of a text. -/
  | assignment (name value : Text) (valuePosition position : Position)
  /-- A bound name is combined with the value of a text. -/
  | compound (name : Text) (op : Operator) (value : Text) (valuePosition position : Position)
  /-- A bound name grows by one. -/
  | increment (name : Text) (position : Position)
  /-- A bound name shrinks by one. -/
  | decrement (name : Text) (position : Position)
  deriving DecidableEq

namespace Statement

/-- The operator at the front of a text that has an equals sign right behind it. -/
def compoundOperator? : Text → Option Operator
  | c :: '=' :: _ => Operator.ofSymbol? c
  | _ => none

/-- The statement of a target and the text behind it, if that text makes it a target.  `after` is
the cursor at that text. -/
def ofTarget? (name : Text) (origin position : Position) (after : Cursor) : Option Statement :=
  let shape := Text.trimEnd after.rest
  if shape = ['+', '+'] then some (.increment name position)
  else if shape = ['-', '-'] then some (.decrement name position)
  else
    match compoundOperator? after.rest with
    | some op =>
      some (.compound name op (after.rest.drop 2) (origin.advance (after.offset + 2)) position)
    | none =>
      match after.take? '=' with
      | some behind => some (.assignment name behind.rest (behind.position origin) position)
      | none => none

/-- The text before the first equals sign, without an operator or blanks around it. -/
def invalidTarget (text : Text) : Text :=
  let before := text.takeWhile (fun c => c != '=')
  Text.trim (Text.trimEndWhile (fun c => (Operator.ofSymbol? c).isSome) before)

/-- The statement on a line of the source. -/
def parse (text : Text) (line : Nat) : Except Error Statement :=
  let origin := Position.inLine line 0
  let first := (Cursor.start text).skipBlanks
  let named :=
    match Literal.name? first with
    | none => none
    | some (name, after) => ofTarget? name origin (first.position origin) after.skipBlanks
  match named with
  | some statement => .ok statement
  | none =>
    if text.contains '=' then
      .error ⟨.invalidAssignmentTarget (invalidTarget text), first.position origin⟩
    else .ok (.expression text origin)

end Statement
end Abacus
