/-
# Rounding to the nearest number, ties to even

An exact result is a quotient `num / den` of units.  Rounding finds the step of the grid at its
integer part and takes the nearest multiple of that step, the even one of two equally near:

    quotient  q = num / den          integer part, decides the binade
    step        = gridStep q
    result      = (nearest even integer to num / (den * step)) * step

The result is on the grid even when the rounding carries into the next binade, because it is at
most `2^53` steps of a power of two (`gridStep_dvd_nearestUnits`).  A result that reaches
`2^1024` becomes an infinity.

Main statement: `round_units`: a number rounds to itself, whatever its sign.
-/
import Abacus.Binary64.Basic

namespace Abacus

/-! ## 1. Nearest integers and nearest counts -/

/-- The integer nearest to `num / den`; of two equally near ones the even one. -/
def nearestEven (num den : Nat) : Nat :=
  let quotient := num / den
  let twice := 2 * (num % den)
  if twice < den then quotient
  else if den < twice then quotient + 1
  else quotient + quotient % 2

/-- The count of units on the grid that is nearest to `num / den` units. -/
def nearestUnits (num den : Nat) : Nat :=
  let step := gridStep (num / den)
  nearestEven num (den * step) * step

theorem nearestEven_le (num den : Nat) : nearestEven num den ≤ num / den + 1 := by
  unfold nearestEven
  dsimp only
  split
  · omega
  · split <;> omega

theorem le_nearestEven (num den : Nat) : num / den ≤ nearestEven num den := by
  unfold nearestEven
  dsimp only
  split
  · omega
  · split <;> omega

theorem nearestEven_mul_left {den : Nat} (h : 0 < den) (n : Nat) :
    nearestEven (den * n) den = n := by
  unfold nearestEven
  simp [Nat.mul_div_cancel_left n h, h]

/-- A quotient of at least one unit does not round to zero. -/
theorem nearestUnits_pos {num den : Nat} (h : 0 < num / den) : 0 < nearestUnits num den := by
  unfold nearestUnits
  dsimp only
  refine Nat.mul_pos (Nat.lt_of_lt_of_le ?_ (le_nearestEven _ _)) (gridStep_pos _)
  rw [← Nat.div_div_eq_div_mul]
  exact Nat.div_pos (gridStep_le h) (gridStep_pos _)

/-- Rounding lands on the grid. -/
theorem gridStep_dvd_nearestUnits (num den : Nat) :
    gridStep (nearestUnits num den) ∣ nearestUnits num den := by
  refine gridStep_dvd_mul_two_pow (Nat.le_trans (nearestEven_le _ _) ?_)
  rw [← Nat.div_div_eq_div_mul]
  exact div_gridStep_lt _

/-- A count that is on the grid is its own nearest count. -/
theorem nearestUnits_of_dvd {den u : Nat} (hd : 0 < den) (h : gridStep u ∣ u) :
    nearestUnits (den * u) den = u := by
  unfold nearestUnits
  dsimp only
  rw [Nat.mul_div_cancel_left u hd]
  obtain ⟨n, hn⟩ := h
  have hpos : 0 < den * gridStep u := Nat.mul_pos hd (gridStep_pos u)
  have hsplit : den * u = den * gridStep u * n := by rw [Nat.mul_assoc, ← hn]
  rw [hsplit, nearestEven_mul_left hpos, Nat.mul_comm, ← hn]

/-! ## 2. Rounding quotients to numbers -/

namespace Binary64

/-- The number nearest to the quotient `num / den` of units, with the given sign. -/
def round (negative : Bool) (num den : Nat) : Binary64 :=
  if h : nearestUnits num den < magnitudeBound then
    finite negative ⟨nearestUnits num den, gridStep_dvd_nearestUnits num den, h⟩
  else
    infinite negative

/-- The number nearest to a signed quotient of units.  An exact zero takes the sign that the
operation gives it. -/
def roundSigned (zeroNegative : Bool) (num : Int) (den : Nat) : Binary64 :=
  if num = 0 then finite zeroNegative Magnitude.zero
  else round (decide (num < 0)) num.natAbs den

/-- The number nearest to an integer. -/
def ofInt (n : Int) : Binary64 := roundSigned false (n * unitsPerOne) 1

/-- A number rounds to itself. -/
theorem round_units (s : Bool) (m : Magnitude) {den : Nat} (h : 0 < den) :
    round s (den * m.units) den = finite s m := by
  have hu : nearestUnits (den * m.units) den = m.units := nearestUnits_of_dvd h m.onGrid
  unfold round
  rw [dif_pos (by rw [hu]; exact m.bounded)]
  exact congrArg (finite s) (Magnitude.ext_units hu)

/-- Rounding a signed count of units that is a number gives that number. -/
theorem roundSigned_units (s : Bool) (m : Magnitude) :
    roundSigned s (signedUnits s m) 1 = finite s m := by
  have hround := round_units s m Nat.one_pos
  rw [Nat.one_mul] at hround
  unfold roundSigned signedUnits
  by_cases hz : m.units = 0
  · have hm : m = Magnitude.zero := Magnitude.ext_units hz
    subst hm
    cases s <;> rfl
  · have hpos : 0 < m.units := Nat.pos_of_ne_zero hz
    cases s
    · rw [if_neg Bool.false_ne_true, if_neg (by omega)]
      rw [show decide ((m.units : Int) < 0) = false by simp]
      simpa using hround
    · rw [if_pos rfl, if_neg (by omega)]
      rw [show decide (-(m.units : Int) < 0) = true by simpa using hpos]
      simpa using hround

/-- A quotient of at least one unit rounds to a number other than zero. -/
theorem isZero_round {s : Bool} {num den : Nat} (h : 0 < num / den) :
    (round s num den).isZero = false := by
  unfold round
  split
  · have hpos := nearestUnits_pos h
    simp only [isZero, beq_eq_false_iff_ne]
    omega
  · rfl

/-- Integers other than zero round to numbers other than zero. -/
theorem isZero_ofInt {n : Int} (h : n ≠ 0) : (ofInt n).isZero = false := by
  have hpos : 0 < n.natAbs * unitsPerOne := Nat.mul_pos (Int.natAbs_pos.mpr h) unitsPerOne_pos
  have hne : n * (unitsPerOne : Int) ≠ 0 := by
    intro hz
    have habs := congrArg Int.natAbs hz
    rw [Int.natAbs_mul, Int.natAbs_natCast, Int.natAbs_zero] at habs
    omega
  unfold ofInt roundSigned
  rw [if_neg hne, Int.natAbs_mul, Int.natAbs_natCast]
  exact isZero_round (by rwa [Nat.div_one])

end Binary64
end Abacus
