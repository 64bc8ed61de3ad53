/-
# Steps that cannot fail

Two computations on values have steps that are not defined for all numbers.  The product of matrices
reads an element of every row of the right factor at an index, and the fraction in lowest terms
divides two integers by a common divisor.  Here both are written with a check at every such step, so
that a failing step would make the whole computation fail.  They never do, and they compute what the
unchecked ones compute: the index is below the common length of the rows, and the divisor divides an
integer other than zero.

Both facts are carried by the types of matrices and fractions.  `Value.WellFormed` spells them out as
facts about values.

Main statements:

* `Matrix.indexedProduct_eq`: no index is out of bounds;
* `Fraction.dividedReduced_eq`: no divisor is zero;
* `Value.wellFormed`: every value is well formed.
-/
import Abacus.Value

namespace Abacus

/-! ## 1. Products -/

namespace Matrix

/-- The sum of products of a row and the elements at index `j` of other rows, if all of them have
one. -/
def indexedDot (row : List Binary64) (others : List (List Binary64)) (j : Nat) : Option Binary64 :=
  (row.zip others).foldlM
    (fun sum pair => pair.2[j]?.map (fun y => Binary64.fusedMulAdd pair.1 y sum)) .zero

/-- The rows of the matrix product, if every element that is read is there. -/
def indexedProduct (left right : Matrix) : Option (List (List Binary64)) :=
  left.rows.mapM (fun row => (List.range right.columnCount).mapM (indexedDot row right.rows))

theorem indexedDot_eq (row : List Binary64) (m : Matrix) {j : Nat} (h : j < m.columnCount) :
    indexedDot row m.rows j = some (dot row (m.column j)) := by
  have hread : ∀ pair ∈ row.zip m.rows, ∀ sum : Binary64,
      pair.2[j]?.map (fun y => Binary64.fusedMulAdd pair.1 y sum)
        = some (Binary64.fusedMulAdd pair.1 (pair.2.getD j .zero) sum) := by
    intro pair hpair sum
    have hlength : pair.2.length = m.columnCount :=
      m.rectangular pair.2 (List.of_mem_zip hpair).2
    have hbound : j < pair.2.length := by rwa [hlength]
    rw [List.getD_eq_getElem?_getD, List.getElem?_eq_getElem hbound]
    rfl
  unfold indexedDot dot column
  rw [foldlM_congr hread, List.zip_map_right, List.foldl_map]
  exact List.foldlM_pure

/-- **No index is out of bounds** in the product of two matrices. -/
theorem indexedProduct_eq {left right m : Matrix} {position : Position}
    (h : left.product right position = .ok m) : left.indexedProduct right = some m.rows := by
  have hrow : ∀ row ∈ left.rows, (List.range right.columnCount).mapM (indexedDot row right.rows)
      = some (right.columns.map (dot row)) := by
    intro row _
    unfold columns
    rw [List.map_map]
    exact (mapM_congr fun j hj => indexedDot_eq row right (List.mem_range.mp hj)).trans List.mapM_pure
  unfold product at h
  split at h
  · cases h
    exact (mapM_congr hrow).trans List.mapM_pure
  · cases h

end Matrix

/-! ## 2. Lowest terms -/

namespace Fraction

/-- The quotient of two integers without the remainder, if the divisor is not zero. -/
def quotient? (n divisor : Int) : Option Int := if divisor = 0 then none else some (n.tdiv divisor)

/-- Both parts of the fraction in lowest terms, if no divisor is zero. -/
def dividedReduced (q : Fraction) : Option (Binary64 × Binary64) :=
  let normal := q.signNormalized
  match normal.numerator.exactInteger?, normal.denominator.exactInteger? with
  | some n, some d => do
    let divisor : Nat := commonDivisor n.natAbs d.natAbs
    let numerator ← quotient? n divisor
    let denominator ← quotient? d divisor
    some (.ofInt numerator, .ofInt denominator)
  | _, _ => some (normal.numerator, normal.denominator)

/-- The integer of a number other than zero is not zero. -/
theorem exactInteger?_ne_zero {x : Binary64} (hx : x.isZero = false) {d : Int}
    (h : x.exactInteger? = some d) : d ≠ 0 := by
  cases x with
  | nan => cases h
  | infinite s => cases h
  | finite s m =>
    have hunits : m.units ≠ 0 := by simpa [Binary64.isZero] using hx
    unfold Binary64.exactInteger? at h
    dsimp only at h
    split at h
    · next hwhole =>
      have hquotient : m.units / unitsPerOne ≠ 0 := by
        intro hzero
        have hsplit := Nat.div_add_mod m.units unitsPerOne
        rw [hzero, hwhole.1, Nat.mul_zero, Nat.zero_add] at hsplit
        exact hunits hsplit.symm
      generalize m.units / unitsPerOne = whole at h hquotient
      cases h
      split <;> omega
    · cases h

/-- **No divisor is zero** when a fraction is brought to lowest terms. -/
theorem dividedReduced_eq (q : Fraction) :
    q.dividedReduced = some (q.reduced.numerator, q.reduced.denominator) := by
  unfold dividedReduced reduced
  dsimp only
  cases hn : q.signNormalized.numerator.exactInteger? with
  | none => rfl
  | some n =>
    cases hd : q.signNormalized.denominator.exactInteger? with
    | none => rfl
    | some d =>
      have hne : d ≠ 0 := exactInteger?_ne_zero q.signNormalized.nonzero hd
      have hdivisor : ((commonDivisor n.natAbs d.natAbs : Nat) : Int) ≠ 0 := by
        have hpos := Nat.gcd_pos_of_pos_right n.natAbs (Int.natAbs_pos.mpr hne)
        rw [commonDivisor_eq_gcd]
        omega
      dsimp only
      rw [dif_pos hne, quotient?, quotient?, if_neg hdivisor, if_neg hdivisor]
      rfl

end Fraction

/-! ## 3. Well-formed values -/

/-- Only the two zeros compare equal to zero. -/
theorem Binary64.equals_zero (x : Binary64) : x.equals .zero = x.isZero := by
  cases x with
  | nan => rfl
  | infinite s => rfl
  | finite s m =>
    cases s <;> simp [equals, zero, isZero, signedUnits, Magnitude.zero, Bool.beq_eq_decide_eq]

namespace Value

/-- What is assumed of a value: the rows of a matrix are as long as it has columns, and it has none
if it has no rows; the denominator of a fraction does not compare equal to zero. -/
def WellFormed : Value → Prop
  | matrix m =>
    (∀ row ∈ m.rows, row.length = m.columnCount) ∧ (m.rowCount = 0 → m.columnCount = 0)
  | rational q => q.denominator.equals .zero = false
  | _ => True

/-- **Every value is well formed.** -/
theorem wellFormed (v : Value) : v.WellFormed := by
  cases v with
  | scalar x => trivial
  | vector xs => trivial
  | matrix m =>
    refine ⟨m.rectangular, ?_⟩
    intro hrows
    have hnil : m.rows = [] := List.length_eq_zero_iff.mp hrows
    unfold Matrix.columnCount
    rw [hnil]
    rfl
  | rational q =>
    exact q.denominator.equals_zero.trans q.nonzero

end Value
end Abacus
