/-
# Values

A value is a scalar, a vector, a matrix or a fraction.  This module holds what concerns one value or
compares two of them; operators between values are in `Value/Arithmetic`.

Two comparisons stand beside the equality of terms.  `equals` compares as the arithmetic does (a NaN
equals nothing, both zeros are equal, fractions are multiplied crosswise), and `isClose` allows for
tolerances.  Values of different kinds are never equal and never close.
-/
import Abacus.Fraction
import Abacus.Matrix

namespace Abacus

/-- A value of the calculator. -/
inductive Value where
  /-- A single number. -/
  | scalar (x : Binary64)
  /-- A sequence of numbers. -/
  | vector (xs : List Binary64)
  /-- A rectangle of numbers. -/
  | matrix (m : Matrix)
  /-- A fraction, not reduced. -/
  | rational (q : Fraction)
  deriving DecidableEq

namespace Value

/-! ## 1. Kind and written form -/

/-- The kind of a value. -/
def kind : Value → ValueKind
  | scalar _ => .scalar
  | vector _ => .vector
  | matrix _ => .matrix
  | rational _ => .rational

/-- The number of a scalar. -/
def scalar? : Value → Option Binary64
  | scalar x => some x
  | _ => none

/-- The written form of a value. -/
def render : Value → Text
  | scalar x => x.render
  | vector xs => renderRow xs
  | matrix m => m.render
  | rational q => q.render

/-! ## 2. Functions of one value -/

/-- A function on every number.  A fraction is replaced by its quotient first. -/
def mapNumbers (f : Binary64 → Binary64) : Value → Value
  | scalar x => scalar (f x)
  | vector xs => vector (xs.map f)
  | matrix m => matrix (m.map f)
  | rational q => scalar (f q.quotient)

/-- The value with its sign changed; a fraction keeps its denominator. -/
def negated : Value → Value
  | rational q => rational q.negated
  | other => other.mapNumbers Binary64.neg

/-- The value plus a number; a fraction keeps its denominator. -/
def shifted (delta : Binary64) : Value → Value
  | rational q => rational (q.shifted delta)
  | other => other.mapNumbers (fun x => x + delta)

/-- The value plus one. -/
def incremented (v : Value) : Value := v.shifted .one

/-- The value minus one. -/
def decremented (v : Value) : Value := v.shifted (-.one)

/-! ## 3. Comparisons -/

/-- A comparison of numbers on two sequences of one length. -/
def allPairs (p : Binary64 → Binary64 → Bool) (xs ys : List Binary64) : Bool :=
  xs.length == ys.length && (xs.zip ys).all (fun pair => p pair.1 pair.2)

/-- A comparison of numbers on two lists of rows. -/
def allRows (p : Binary64 → Binary64 → Bool) (rows others : List (List Binary64)) : Bool :=
  rows.length == others.length && (rows.zip others).all (fun pair => allPairs p pair.1 pair.2)

/-- Equality as the arithmetic sees it. -/
def equals : Value → Value → Bool
  | scalar x, scalar y => x.equals y
  | vector xs, vector ys => allPairs Binary64.equals xs ys
  | matrix m, matrix n => allRows Binary64.equals m.rows n.rows
  | rational q, rational r => q.equals r
  | _, _ => false

/-- Equality within an absolute and a relative tolerance; fractions compare their quotients. -/
def isClose (absolute relative : Binary64) : Value → Value → Bool
  | scalar x, scalar y => x.isClose y absolute relative
  | vector xs, vector ys => allPairs (fun x y => x.isClose y absolute relative) xs ys
  | matrix m, matrix n =>
    m.columnCount == n.columnCount &&
      allRows (fun x y => x.isClose y absolute relative) m.rows n.rows
  | rational q, rational r => q.quotient.isClose r.quotient absolute relative
  | _, _ => false

end Value
end Abacus
