/-
# Environments

An environment binds names to values.  A fresh one binds `pi` and `e`.  A strict environment refuses
to bind a name a second time by plain assignment; operators that update a binding are free to.

Main statements: `get?_bind_same` and `get?_bind_other`: binding a name changes what that name
stands for, and nothing else.
-/
import Abacus.Value
import Abacus.Numeral

namespace Abacus

/-- Names and the values they are bound to. -/
structure Environment where
  /-- The bindings, in the order in which the names were first bound. -/
  bindings : List (Text × Value)
  /-- Plain assignment to a bound name is an error. -/
  strict : Bool
  deriving DecidableEq

namespace Environment

/-! ## 1. The constants -/

/-- The number nearest to pi. -/
def pi : Binary64 := Binary64.ofDecimal 3141592653589793 15

/-- The number nearest to the base of the natural logarithm. -/
def euler : Binary64 := Binary64.ofDecimal 2718281828459045 15

/-- A fresh environment. -/
def fresh (strict : Bool) : Environment :=
  ⟨[(['p', 'i'], .scalar pi), (['e'], .scalar euler)], strict⟩

/-! ## 2. Looking up and binding -/

/-- The value of a name in a list of bindings. -/
def find? (name : Text) : List (Text × Value) → Option Value
  | [] => none
  | (key, value) :: bindings => if key = name then some value else find? name bindings

/-- The bindings with one name bound to a value. -/
def insert (name : Text) (value : Value) : List (Text × Value) → List (Text × Value)
  | [] => [(name, value)]
  | (key, old) :: bindings =>
    if key = name then (key, value) :: bindings else (key, old) :: insert name value bindings

/-- The value that a name is bound to. -/
def get? (env : Environment) (name : Text) : Option Value := find? name env.bindings

/-- The environment with a name bound to a value. -/
def bind (env : Environment) (name : Text) (value : Value) : Environment :=
  { env with bindings := insert name value env.bindings }

/-- The value of a name, or an error at the place where the name stands. -/
def lookup (env : Environment) (name : Text) (position : Position) : Except Error Value :=
  match env.get? name with
  | some value => .ok value
  | none => .error ⟨.unknownVariable name, position⟩

/-- A strict environment refuses a name that is bound. -/
def checkFree (env : Environment) (name : Text) (position : Position) : Except Error Unit :=
  if env.strict && (env.get? name).isSome then .error ⟨.redeclaration name, position⟩ else .ok ()

/-! ## 3. What binding changes -/

theorem find?_insert_same (name : Text) (value : Value) (bindings : List (Text × Value)) :
    find? name (insert name value bindings) = some value := by
  induction bindings with
  | nil => simp [insert, find?]
  | cons binding bindings ih =>
    obtain ⟨key, old⟩ := binding
    unfold insert
    by_cases h : key = name
    · simp [h, find?]
    · simp [h, find?, ih]

theorem find?_insert_other {name other : Text} (h : other ≠ name) (value : Value)
    (bindings : List (Text × Value)) :
    find? other (insert name value bindings) = find? other bindings := by
  induction bindings with
  | nil => simp [insert, find?, Ne.symm h]
  | cons binding bindings ih =>
    obtain ⟨key, old⟩ := binding
    unfold insert
    by_cases hk : key = name
    · subst hk
      simp [find?, Ne.symm h]
    · rw [if_neg hk]
      simp only [find?, ih]

@[simp] theorem get?_bind_same (env : Environment) (name : Text) (value : Value) :
    (env.bind name value).get? name = some value :=
  find?_insert_same name value env.bindings

theorem get?_bind_other (env : Environment) {name other : Text} (h : other ≠ name)
    (value : Value) : (env.bind name value).get? other = env.get? other :=
  find?_insert_other h value env.bindings

@[simp] theorem strict_bind (env : Environment) (name : Text) (value : Value) :
    (env.bind name value).strict = env.strict := rfl

end Environment
end Abacus
