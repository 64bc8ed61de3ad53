/-
# Binary64 numbers, counted in units

The numbers of the calculator are the binary64 numbers of IEEE 754.  Every finite one is a whole
number of *units* of `2^-1074`, the smallest positive magnitude, so a finite number is a sign and a
count of units:

    value  =  (-1)^negative * units / 2^1074

Not every count is a number.  Around a count with `k` binary digits the numbers lie
`2^(k - 53)` units apart (one unit apart while `k <= 53`), and the largest lies below `2^2098`
units.  `Magnitude` carries both facts, so that two numbers are equal as terms exactly when they are
the same number; the signed zeros are two numbers, and there is a single NaN.

Main statements:

* `gridStep_dvd_mul_two_pow`: a count of at most `2^53` steps of any power of two is on the grid,
  which is all that rounding needs;
* `Magnitude.ext_units`: a magnitude is its count.

Counting in one unit makes every operation exact integer arithmetic followed by one rounding
(`Binary64/Rounding`, `Binary64/Arithmetic`).
-/
namespace Abacus

-- Powers of natural numbers are those of the core library, also beside a theory with its own.
attribute [local instance (high)] instPowNat

/-! ## 1. The grid of magnitudes -/

/-- The unit is `2^-1074`. -/
def unitExponent : Nat := 1074

/-- The magnitudes stop below `2^2098` units, which would be `2^1024`. -/
def boundExponent : Nat := 2098

/-- The number one holds this many units. -/
def unitsPerOne : Nat := 2 ^ unitExponent

/-- The distance between neighbouring magnitudes at a count of units: one while the count has at
most 53 binary digits, and doubled with every further digit. -/
def gridStep (units : Nat) : Nat := 2 ^ (units.log2 - 52)

/-- Magnitudes lie below this count of units. -/
def magnitudeBound : Nat := 2 ^ boundExponent

theorem gridStep_pos (units : Nat) : 0 < gridStep units := Nat.two_pow_pos _

theorem unitsPerOne_pos : 0 < unitsPerOne := Nat.two_pow_pos unitExponent

theorem magnitudeBound_pos : 0 < magnitudeBound := Nat.two_pow_pos boundExponent

theorem unitsPerOne_lt_magnitudeBound : unitsPerOne < magnitudeBound := by
  exact (Nat.pow_lt_pow_iff_right (by decide)).mpr (by decide : unitExponent < boundExponent)

/-- A power of two that divides the count bounds the step from above, unless the quotient has more
than 53 binary digits. -/
theorem gridStep_dvd_of_lt {n k : Nat} (h : n < 2 ^ (53 : Nat)) : gridStep (n * 2 ^ k) ∣ 2 ^ k := by
  unfold gridStep
  apply Nat.pow_dvd_pow
  by_cases hz : n * 2 ^ k = 0
  · simp [hz]
  · have hlt : n * 2 ^ k < 2 ^ (53 + k) := by
      rw [Nat.pow_add]
      exact Nat.mul_lt_mul_of_pos_right h (Nat.two_pow_pos k)
    have := (Nat.log2_lt hz).mpr hlt
    omega

/-- At most `2^53` steps of a power of two always land on the grid. -/
theorem gridStep_dvd_mul_two_pow {n k : Nat} (h : n ≤ 2 ^ (53 : Nat)) :
    gridStep (n * 2 ^ k) ∣ n * 2 ^ k := by
  rcases Nat.lt_or_eq_of_le h with hlt | heq
  · exact Nat.dvd_trans (gridStep_dvd_of_lt hlt) (Nat.dvd_mul_left _ _)
  · subst heq
    rw [← Nat.pow_add]
    unfold gridStep
    rw [Nat.log2_two_pow]
    exact Nat.pow_dvd_pow 2 (by omega)

/-- A quotient has fewer than 53 binary digits once its own step is divided out. -/
theorem div_gridStep_lt (q : Nat) : q / gridStep q < 2 ^ (53 : Nat) := by
  unfold gridStep
  rw [Nat.div_lt_iff_lt_mul (Nat.two_pow_pos _), ← Nat.pow_add]
  exact Nat.lt_of_lt_of_le Nat.lt_log2_self (Nat.pow_le_pow_right (by decide) (by omega))

/-- The step of the grid never exceeds a count other than zero. -/
theorem gridStep_le {u : Nat} (h : 0 < u) : gridStep u ≤ u := by
  unfold gridStep
  refine Nat.le_trans ?_ (Nat.log2_self_le (Nat.pos_iff_ne_zero.mp h))
  exact Nat.pow_le_pow_right (by decide) (Nat.sub_le _ _)

/-! ## 2. Magnitudes and numbers -/

/-- The size of a finite number: a count of units on the grid and below the bound. -/
structure Magnitude where
  /-- How many units of `2^-1074`. -/
  units : Nat
  /-- The count is a whole number of grid steps. -/
  onGrid : gridStep units ∣ units
  /-- The count is below `2^1024`. -/
  bounded : units < magnitudeBound

/-- A magnitude is its count of units. -/
theorem Magnitude.ext_units {a b : Magnitude} (h : a.units = b.units) : a = b := by
  cases a; cases b; cases h; rfl

instance : DecidableEq Magnitude := fun a b =>
  if h : a.units = b.units then isTrue (Magnitude.ext_units h)
  else isFalse (fun e => h (congrArg Magnitude.units e))

/-- The magnitude of the two zeros. -/
def Magnitude.zero : Magnitude where
  units := 0
  onGrid := Nat.dvd_zero _
  bounded := magnitudeBound_pos

/-- The magnitude of the number one. -/
def Magnitude.one : Magnitude where
  units := unitsPerOne
  onGrid := by
    have h := gridStep_dvd_mul_two_pow (n := 1) (k := unitExponent) (by decide)
    rwa [Nat.one_mul] at h
  bounded := unitsPerOne_lt_magnitudeBound

/-- A binary64 number.  The sign and payload of a NaN are not kept. -/
inductive Binary64 where
  | nan
  | infinite (negative : Bool)
  | finite (negative : Bool) (magnitude : Magnitude)
  deriving DecidableEq

namespace Binary64

/-- Positive zero. -/
def zero : Binary64 := finite false Magnitude.zero

/-- The number one. -/
def one : Binary64 := finite false Magnitude.one

instance : Inhabited Binary64 := ⟨zero⟩

/-! ## 3. Sign, kind and magnitude -/

/-- Neither NaN nor infinite. -/
def isFinite : Binary64 → Bool
  | finite _ _ => true
  | _ => false

/-- The sign bit is set; so it is for negative zero. -/
def isNegative : Binary64 → Bool
  | nan => false
  | infinite s => s
  | finite s _ => s

/-- One of the two zeros. -/
def isZero : Binary64 → Bool
  | finite _ m => m.units == 0
  | _ => false

/-- The number with the other sign. -/
def neg : Binary64 → Binary64
  | nan => nan
  | infinite s => infinite (!s)
  | finite s m => finite (!s) m

instance : Neg Binary64 := ⟨neg⟩

/-- The number without its sign. -/
def abs : Binary64 → Binary64
  | nan => nan
  | infinite _ => infinite false
  | finite _ m => finite false m

/-- A signed count of units. -/
def signedUnits (negative : Bool) (m : Magnitude) : Int :=
  if negative then -(m.units : Int) else m.units

@[simp] theorem neg_finite (s : Bool) (m : Magnitude) : neg (finite s m) = finite (!s) m := rfl

@[simp] theorem neg_neg (x : Binary64) : neg (neg x) = x := by
  cases x <;> simp [neg]

/-- A finite number is a magnitude with a sign. -/
theorem exists_finite {x : Binary64} (h : x.isFinite = true) : ∃ s m, x = finite s m := by
  cases x with
  | nan => cases h
  | infinite s => cases h
  | finite s m => exact ⟨s, m, rfl⟩

@[simp] theorem isFinite_neg (x : Binary64) : (neg x).isFinite = x.isFinite := by
  cases x <;> rfl

@[simp] theorem isZero_neg (x : Binary64) : (neg x).isZero = x.isZero := by
  cases x <;> rfl

/-! ## 4. Comparison

These are the comparisons of the arithmetic: a NaN is neither equal to anything nor in order with
anything, and the two zeros are equal. -/

/-- Numeric equality. -/
def equals : Binary64 → Binary64 → Bool
  | infinite s, infinite t => s == t
  | finite s m, finite t n => signedUnits s m == signedUnits t n
  | _, _ => false

/-- At most. -/
def atMost : Binary64 → Binary64 → Bool
  | nan, _ => false
  | _, nan => false
  | infinite true, _ => true
  | _, infinite false => true
  | infinite false, _ => false
  | _, infinite true => false
  | finite s m, finite t n => decide (signedUnits s m ≤ signedUnits t n)

/-- Strictly less. -/
def lessThan (x y : Binary64) : Bool := atMost x y && !equals x y

/-- The larger of two numbers; a NaN gives way to the other number. -/
def max (x y : Binary64) : Binary64 :=
  match x, y with
  | nan, y => y
  | x, nan => x
  | x, y => if atMost x y then y else x

end Binary64
end Abacus
