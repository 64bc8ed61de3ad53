/-
# Products of matrices of integers

An element of a product is a sum that is accumulated from zero, with one rounding for each product and
addition.  On integers nothing is rounded as long as all partial sums stay within `2^53`, and they do if
the bounds on the elements say so for the whole sum: a bound for the products times the number of
products (`dot_of_isInteger`).  The accumulated sum is then the number for the exact sum, down to the
sign of zero, so two products with the same exact sums are the same matrix.

The product of integer matrices is a matrix of integers again, with a bound that has grown by the other
factor and by the inner dimension.  That makes the product of three matrices two uses of one lemma
(`product_of_hasIntegers`), in either order, and what is left is to exchange two sums.

Main statements:

* `dot_of_isInteger`: rows and columns of integers have exact sums of products;
* `product_of_hasIntegers`: so do matrices of integers;
* `product_assoc`: products of three matrices of integers do not depend on the order.
-/
import Mathlib.Algebra.BigOperators.Group.Finset.Sigma
import Mathlib.Algebra.BigOperators.Ring.Finset
import Mathlib.Tactic.Ring
import Abacus.Proofs.Binary64.Integers
import Abacus.Proofs.Matrix.Transpose

namespace Abacus

namespace Matrix

open Finset (sum_range_succ sum_range_zero)
open Value (eq_map_range length_getD_rows rows_eq_map_range)

/-! ## 1. Sums of products -/

section Sums

variable {n a b : Nat} {f g : Nat → Int}

theorem natAbs_mul_le {x y : Int} (hx : x.natAbs ≤ a) (hy : y.natAbs ≤ b) : (x * y).natAbs ≤ a * b := by
  rw [Int.natAbs_mul]
  exact Nat.mul_le_mul hx hy

/-- A sum is at most as large as a bound for its terms times their number. -/
theorem natAbs_sum_le (h : ∀ k, k < n → (f k).natAbs ≤ a) :
    (∑ k ∈ Finset.range n, f k).natAbs ≤ a * n := by
  induction n with
  | zero => simp
  | succ n ih =>
    have hfirst := ih (fun k hk => h k (Nat.lt_succ_of_lt hk))
    have hlast := h n (Nat.lt_succ_self n)
    have hadd := Int.natAbs_add_le (∑ k ∈ Finset.range n, f k) (f n)
    rw [sum_range_succ, Nat.mul_succ]
    omega

theorem natAbs_sum_mul_le (hf : ∀ k, k < n → (f k).natAbs ≤ a) (hg : ∀ k, k < n → (g k).natAbs ≤ b) :
    (∑ k ∈ Finset.range n, f k * g k).natAbs ≤ a * b * n :=
  natAbs_sum_le (fun k hk => natAbs_mul_le (hf k hk) (hg k hk))

/-- **Sums of products of integers are exact** up to `2^53`.  The induction is on the number of products;
the sum so far is within the bound because it has fewer of them. -/
theorem dot_of_isInteger {x y : Nat → Binary64} (hx : ∀ k, k < n → (x k).IsInteger (f k))
    (hy : ∀ k, k < n → (y k).IsInteger (g k)) (hf : ∀ k, k < n → (f k).natAbs ≤ a)
    (hg : ∀ k, k < n → (g k).natAbs ≤ b) (h : a * b * n ≤ 2 ^ (53 : Nat)) :
    dot ((List.range n).map x) ((List.range n).map y)
      = .ofInt (∑ k ∈ Finset.range n, f k * g k) := by
  rw [dot, List.zip_map', List.foldl_map]
  induction n with
  | zero =>
    rw [sum_range_zero, Binary64.ofInt_eq_nearest, Int.cast_zero, Binary64.nearest_zero]
    rfl
  | succ n ih =>
    have hlt : ∀ {k}, k < n → k < n + 1 := Nat.lt_succ_of_lt
    have hbound : a * b * n ≤ 2 ^ (53 : Nat) := (Nat.mul_le_mul_left _ (Nat.le_succ n)).trans h
    have hfirst := natAbs_sum_mul_le (fun k hk => hf k (hlt hk)) (fun k hk => hg k (hlt hk))
    rw [List.range_succ, List.foldl_append, ih (fun k hk => hx k (hlt hk)) (fun k hk => hy k (hlt hk))
      (fun k hk => hf k (hlt hk)) (fun k hk => hg k (hlt hk)) hbound, sum_range_succ, add_comm]
    exact (hx n (Nat.lt_succ_self n)).fusedMulAdd_ofInt (hy n (Nat.lt_succ_self n)) (hfirst.trans hbound)

end Sums

/-! ## 2. Matrices of integers -/

/-- The elements of a matrix stand for given integers of a given size. -/
structure HasIntegers (m : Matrix) (rows columns bound : Nat) (f : Nat → Nat → Int) : Prop where
  dimensions : m.dimensions = ⟨rows, columns⟩
  element : ∀ i j, i < rows → j < columns → ∃ x, m.element? i j = some x ∧ x.IsInteger (f i j)
  bounded : ∀ i j, i < rows → j < columns → (f i j).natAbs ≤ bound

section Integers

variable {A B : Matrix} {n m p a b : Nat} {f g : Nat → Nat → Int}

/-- The element that the loops over rows and columns read. -/
theorem HasIntegers.isInteger (h : A.HasIntegers n m a f) {i j : Nat} (hi : i < n) (hj : j < m) :
    ((A.rows.getD i []).getD j .zero).IsInteger (f i j) := by
  obtain ⟨x, hx, hinteger⟩ := h.element i j hi hj
  have helement : (Value.matrix A).element? i j = some x := hx
  rwa [← Value.element_matrix, Value.element, helement, Option.getD_some]

theorem HasIntegers.rowCount (h : A.HasIntegers n m a f) : A.rowCount = n :=
  congrArg Dimensions.rows h.dimensions

theorem HasIntegers.columnCount (h : A.HasIntegers n m a f) : A.columnCount = m :=
  congrArg Dimensions.columns h.dimensions

/-- A table of integers is a matrix of them. -/
theorem hasIntegers_tabulate (hn : 0 < n) (hf : ∀ i j, i < n → j < m → (f i j).natAbs ≤ a)
    (ha : a ≤ 2 ^ (53 : Nat)) :
    (tabulate ⟨n, m⟩ fun i j => .ofInt (f i j)).HasIntegers n m a f where
  dimensions := by
    have hproper : (Shape.matrix ⟨n, m⟩).Proper := fun hzero => absurd hzero hn.ne'
    have hshape := Value.shape?_fill hproper fun i j => Binary64.ofInt (f i j)
    exact Shape.matrix.inj (Option.some.inj hshape)
  element := by
    intro i j hi hj
    refine ⟨_, ?_, Binary64.isInteger_ofInt ((hf i j hi hj).trans ha)⟩
    exact Value.element?_fill (s := .matrix ⟨n, m⟩) _ hi hj
  bounded := hf

/-- An element of the product. -/
theorem dot_of_hasIntegers (hA : A.HasIntegers n m a f) (hB : B.HasIntegers m p b g)
    (h : a * b * m ≤ 2 ^ (53 : Nat)) {i j : Nat} (hi : i < n) (hj : j < p) :
    dot (A.rows.getD i []) (B.column j) = .ofInt (∑ k ∈ Finset.range m, f i k * g k j) := by
  have hi' : i < A.rowCount := by rwa [hA.rowCount]
  have hrow : A.rows.getD i [] = (List.range m).map fun k => (A.rows.getD i []).getD k .zero :=
    eq_map_range ((length_getD_rows A hi').trans hA.columnCount) .zero
  have hcolumn : B.column j = (List.range m).map fun k => (B.rows.getD k []).getD j .zero := by
    have hrows := rows_eq_map_range B
    rw [hB.dimensions] at hrows
    conv_lhs => rw [column, hrows, List.map_map]
    rfl
  rw [hrow, hcolumn]
  exact dot_of_isInteger (fun k hk => hA.isInteger hi hk) (fun k hk => hB.isInteger hk hj)
    (fun k hk => hA.bounded i k hi hk) (fun k hk => hB.bounded k j hk hj) h

/-- **The product of matrices of integers** is the matrix of the exact sums of products. -/
theorem product_of_hasIntegers (hA : A.HasIntegers n m a f) (hB : B.HasIntegers m p b g)
    (h : a * b * m ≤ 2 ^ (53 : Nat)) (q : Position) :
    A.product B q
      = .ok (tabulate ⟨n, p⟩ fun i j => .ofInt (∑ k ∈ Finset.range m, f i k * g k j)) := by
  obtain ⟨c, hc, hrows⟩ := exists_product (hA.columnCount.trans hB.rowCount.symm) q
  refine hc.trans (congrArg Except.ok (ext_rows ?_))
  rw [hrows, rows_eq_map_range A, hA.dimensions, List.map_map, tabulate, rows_ofRows]
  refine List.map_congr_left fun i hi => ?_
  rw [Function.comp_apply, columns, hB.columnCount, List.map_map]
  exact List.map_congr_left fun j hj =>
    dot_of_hasIntegers hA hB h (List.mem_range.mp hi) (List.mem_range.mp hj)

end Integers

/-! ## 3. Three factors -/

section Three

variable {A B C : Matrix} {n m p q a b c : Nat} {f g h : Nat → Nat → Int}

theorem sum_mul_sum_left (i j : Nat) :
    ∑ l ∈ Finset.range p, (∑ k ∈ Finset.range m, f i k * g k l) * h l j
      = ∑ k ∈ Finset.range m, ∑ l ∈ Finset.range p, f i k * g k l * h l j := by
  simp only [Finset.sum_mul]
  exact Finset.sum_comm

theorem sum_mul_sum_right (i j : Nat) :
    ∑ k ∈ Finset.range m, f i k * ∑ l ∈ Finset.range p, g k l * h l j
      = ∑ k ∈ Finset.range m, ∑ l ∈ Finset.range p, f i k * g k l * h l j := by
  simp only [Finset.mul_sum, mul_assoc]

/-- **The product of matrices of integers is associative**, as long as the bounds on the elements allow
the sums that are computed on the way.  Both orders give the same matrix, and its elements stand for the
exact sums over both inner dimensions. -/
theorem product_assoc (hn : 0 < n) (hm : 0 < m) (hA : A.HasIntegers n m a f)
    (hB : B.HasIntegers m p b g) (hC : C.HasIntegers p q c h)
    (habc : a * b * c * m * p ≤ 2 ^ (53 : Nat)) (hab : a * b * m ≤ 2 ^ (53 : Nat))
    (hbc : b * c * p ≤ 2 ^ (53 : Nat)) (t u v w : Position) :
    ∃ AB BC M, A.product B t = .ok AB ∧ AB.product C u = .ok M ∧
      B.product C v = .ok BC ∧ A.product BC w = .ok M ∧
      M.HasIntegers n q (a * b * c * m * p)
        fun i j => ∑ k ∈ Finset.range m, ∑ l ∈ Finset.range p, f i k * g k l * h l j := by
  have hAB := hasIntegers_tabulate hn (fun i j hi hj => natAbs_sum_mul_le
    (fun k hk => hA.bounded i k hi hk) (fun k hk => hB.bounded k j hk hj)) hab
  have hBC := hasIntegers_tabulate hm (fun i j hi hj => natAbs_sum_mul_le
    (fun k hk => hB.bounded i k hi hk) (fun k hk => hC.bounded k j hk hj)) hbc
  have hleft : a * b * m * c * p = a * b * c * m * p := by ring
  have hright : a * (b * c * p) * m = a * b * c * m * p := by ring
  have hbounded : ∀ i j, i < n → j < q →
      (∑ k ∈ Finset.range m, ∑ l ∈ Finset.range p, f i k * g k l * h l j).natAbs
        ≤ a * b * c * m * p := by
    intro i j hi hj
    rw [← sum_mul_sum_left, ← hleft]
    exact natAbs_sum_mul_le (fun l hl => hAB.bounded i l hi hl) (fun l hl => hC.bounded l j hl hj)
  have hfirst := product_of_hasIntegers hAB hC (hleft.trans_le habc) u
  have hsecond := product_of_hasIntegers hA hBC (hright.trans_le habc) w
  simp only [sum_mul_sum_left] at hfirst
  simp only [sum_mul_sum_right] at hsecond
  exact ⟨_, _, _, product_of_hasIntegers hA hB hab t, hfirst, product_of_hasIntegers hB hC hbc v, hsecond,
    hasIntegers_tabulate hn hbounded habc⟩

end Three

namespace Example

/-- The integers of two rows: one and two, two and three. -/
def twoByTwo (i j : Nat) : Int := i + j + 1

theorem hasIntegers_twoByTwo :
    (tabulate ⟨2, 2⟩ fun i j => .ofInt (twoByTwo i j)).HasIntegers 2 2 3 twoByTwo :=
  hasIntegers_tabulate (by decide) (fun i j hi hj => by unfold twoByTwo; omega) (by decide)

/-- The third power of a matrix, with the elements 21 and 34 in its first row. -/
theorem product_assoc_cube :
    ∃ square cube, (tabulate ⟨2, 2⟩ fun i j => .ofInt (twoByTwo i j)).product
        (tabulate ⟨2, 2⟩ fun i j => .ofInt (twoByTwo i j)) ⟨1, 1⟩ = .ok square ∧
      square.product (tabulate ⟨2, 2⟩ fun i j => .ofInt (twoByTwo i j)) ⟨1, 1⟩ = .ok cube ∧
      ∃ x y, cube.element? 0 0 = some x ∧ x.IsInteger 21 ∧ cube.element? 0 1 = some y ∧ y.IsInteger 34 := by
  obtain ⟨square, -, cube, hsquare, hcube, -, -, hintegers⟩ :=
    product_assoc (by decide) (by decide) hasIntegers_twoByTwo hasIntegers_twoByTwo hasIntegers_twoByTwo
      (by decide) (by decide) (by decide) ⟨1, 1⟩ ⟨1, 1⟩ ⟨1, 1⟩ ⟨1, 1⟩
  obtain ⟨x, hx, hx21⟩ := hintegers.element 0 0 (by decide) (by decide)
  obtain ⟨y, hy, hy34⟩ := hintegers.element 0 1 (by decide) (by decide)
  exact ⟨square, cube, hsquare, hcube, x, y, hx, hx21, hy, hy34⟩

end Example

end Matrix
end Abacus
