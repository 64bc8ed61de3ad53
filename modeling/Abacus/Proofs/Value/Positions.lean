/-
# Operators do not depend on their position

Operators and functions take the position of their token, for the errors they may report.  At another
position the outcome corresponds: the same value, or an error with the same cause at that other
position.  This is what makes evaluation a matter of trees up to positions, and what lets the
position of an error be read off the tree.

Main statements: `corresponds_combine` and `corresponds_apply`; `sameOutcome_combine` and
`sameOutcome_apply` leave the positions out.
-/
import Abacus.Builtin
import Abacus.Proofs.Outcome
import Abacus.Value.Arithmetic

namespace Abacus

variable {R : Position → Position → Prop} {p q : Position}

/-! ## 1. Matrices -/

namespace Matrix

theorem corresponds_make (hR : R p q) (rows : List (List Binary64)) :
    Corresponds R Eq (make rows p) (make rows q) := by
  unfold make
  split
  · exact rfl
  · exact corresponds_error hR _ _

/-- Matrices collected by steps with corresponding outcomes. -/
theorem corresponds_collect {α : Type} {inputs : List α} {f g : α → Except Error (List Binary64)}
    {columns : Nat} (hfg : ∀ a, Corresponds R Eq (f a) (g a))
    (hf : ∀ x ∈ inputs, ∀ row, f x = .ok row → row.length = columns)
    (hg : ∀ x ∈ inputs, ∀ row, g x = .ok row → row.length = columns) :
    Corresponds R Eq (collect inputs f columns hf) (collect inputs g columns hg) := by
  have hrun := corresponds_mapM hfg inputs
  unfold collect
  split
  · next e he =>
    split
    · next e' he' =>
      rw [he, he'] at hrun
      exact hrun
    · next rows hrows =>
      rw [he, hrows] at hrun
      exact hrun.elim
  · next rows hrows =>
    split
    · next e he =>
      rw [hrows, he] at hrun
      exact hrun.elim
    · next rows' hrows' =>
      rw [hrows, hrows'] at hrun
      exact ext_rows hrun

theorem corresponds_product (hR : R p q) (left right : Matrix) :
    Corresponds R Eq (left.product right p) (left.product right q) := by
  unfold product
  split
  · exact rfl
  · exact corresponds_error hR _ _

theorem sameOutcome_make (rows : List (List Binary64)) (p q : Position) :
    SameOutcome (make rows p) (make rows q) :=
  (corresponds_make (R := fun _ _ => True) trivial rows).sameOutcome

end Matrix

/-! ## 2. Operators -/

theorem Fraction.corresponds_make (hR : R p q) (x y : Binary64) :
    Corresponds R Eq (Fraction.make x y p) (Fraction.make x y q) := by
  unfold Fraction.make
  split
  · exact rfl
  · exact corresponds_error hR _ _

namespace Value

section Operators

variable (hR : R p q) (op : Operator)

include hR

theorem corresponds_applyNumbers (x y : Binary64) :
    Corresponds R Eq (applyNumbers op x y p) (applyNumbers op x y q) := by
  unfold applyNumbers
  split
  · split
    · exact corresponds_error hR _ _
    · exact rfl
  · exact rfl

theorem corresponds_pairwise (xs ys : List Binary64) :
    Corresponds R Eq (pairwise op xs ys p) (pairwise op xs ys q) := by
  unfold pairwise
  split
  · exact corresponds_mapM (fun _ => corresponds_applyNumbers hR op _ _) _
  · exact corresponds_error hR _ _

theorem corresponds_withScalarRight (xs : List Binary64) (y : Binary64) :
    Corresponds R Eq (withScalarRight op xs y p) (withScalarRight op xs y q) :=
  corresponds_mapM (fun _ => corresponds_applyNumbers hR op _ _) _

theorem corresponds_withScalarLeft (x : Binary64) (ys : List Binary64) :
    Corresponds R Eq (withScalarLeft op x ys p) (withScalarLeft op x ys q) :=
  corresponds_mapM (fun _ => corresponds_applyNumbers hR op _ _) _

theorem corresponds_pairwiseRows (m n : Matrix) :
    Corresponds R Eq (pairwiseRows op m n p) (pairwiseRows op m n q) := by
  unfold pairwiseRows
  split
  · exact Matrix.corresponds_collect (fun _ => corresponds_pairwise hR op _ _) _ _
  · exact corresponds_error hR _ _

theorem corresponds_rowsWithVector (m : Matrix) (xs : List Binary64) :
    Corresponds R Eq (rowsWithVector op m xs p) (rowsWithVector op m xs q) := by
  unfold rowsWithVector
  split
  · exact Matrix.corresponds_collect (fun _ => corresponds_pairwise hR op _ _) _ _
  · exact corresponds_error hR _ _

theorem corresponds_vectorWithRows (xs : List Binary64) (m : Matrix) :
    Corresponds R Eq (vectorWithRows op xs m p) (vectorWithRows op xs m q) := by
  unfold vectorWithRows
  split
  · exact Matrix.corresponds_collect (fun _ => corresponds_pairwise hR op _ _) _ _
  · exact corresponds_error hR _ _

theorem corresponds_rowsWithScalar (m : Matrix) (y : Binary64) :
    Corresponds R Eq (rowsWithScalar op m y p) (rowsWithScalar op m y q) :=
  Matrix.corresponds_collect (fun _ => corresponds_withScalarRight hR op _ _) _ _

theorem corresponds_scalarWithRows (x : Binary64) (m : Matrix) :
    Corresponds R Eq (scalarWithRows op x m p) (scalarWithRows op x m q) :=
  Matrix.corresponds_collect (fun _ => corresponds_withScalarLeft hR op _ _) _ _

theorem corresponds_applyFractions (a b : Fraction) :
    Corresponds R Eq (applyFractions op a b p) (applyFractions op a b q) := by
  cases op with
  | add => exact Fraction.corresponds_make hR _ _
  | sub => exact Fraction.corresponds_make hR _ _
  | mul => exact Fraction.corresponds_make hR _ _
  | div =>
    unfold applyFractions
    dsimp only
    split
    · exact corresponds_error hR _ _
    · exact Fraction.corresponds_make hR _ _
  | mod =>
    unfold applyFractions
    dsimp only
    split
    · exact corresponds_error hR _ _
    · exact Fraction.corresponds_make hR _ _

/-- **An operator at two positions** has corresponding outcomes. -/
theorem corresponds_combine (l r : Value) :
    Corresponds R Eq (combine op l r p) (combine op l r q) := by
  unfold combine
  split
  · exact (corresponds_applyNumbers hR op _ _).map (fun _ _ => congrArg _)
  · exact (corresponds_pairwise hR op _ _).map (fun _ _ => congrArg _)
  · exact (corresponds_withScalarRight hR op _ _).map (fun _ _ => congrArg _)
  · exact (corresponds_withScalarLeft hR op _ _).map (fun _ _ => congrArg _)
  · split
    · exact (Matrix.corresponds_product hR _ _).map (fun _ _ => congrArg _)
    · exact (corresponds_pairwiseRows hR op _ _).map (fun _ _ => congrArg _)
  · exact (corresponds_rowsWithVector hR op _ _).map (fun _ _ => congrArg _)
  · exact (corresponds_vectorWithRows hR op _ _).map (fun _ _ => congrArg _)
  · exact (corresponds_rowsWithScalar hR op _ _).map (fun _ _ => congrArg _)
  · exact (corresponds_scalarWithRows hR op _ _).map (fun _ _ => congrArg _)
  · exact (corresponds_applyFractions hR op _ _).map (fun _ _ => congrArg _)
  · exact (corresponds_applyFractions hR op _ _).map (fun _ _ => congrArg _)
  · exact (corresponds_applyFractions hR op _ _).map (fun _ _ => congrArg _)
  · exact corresponds_error hR _ _

end Operators

/-- An operator at two positions has the same outcome. -/
theorem sameOutcome_combine (op : Operator) (l r : Value) (p q : Position) :
    SameOutcome (combine op l r p) (combine op l r q) :=
  (corresponds_combine (R := fun _ _ => True) trivial op l r).sameOutcome

end Value

/-! ## 3. Functions -/

namespace Builtin

/-- **A function at two positions** has corresponding outcomes. -/
theorem corresponds_apply (hR : R p q) (f : Builtin) (arguments : List Value) :
    Corresponds R Eq (f.apply arguments p) (f.apply arguments q) := by
  unfold apply
  split
  · unfold applyTo
    split
    · exact rfl
    · exact rfl
    · exact rfl
    · exact rfl
    · exact rfl
    · exact rfl
    · exact corresponds_error hR _ _
  · exact corresponds_error hR _ _

/-- A function at two positions has the same outcome. -/
theorem sameOutcome_apply (f : Builtin) (arguments : List Value) (p q : Position) :
    SameOutcome (f.apply arguments p) (f.apply arguments q) :=
  (corresponds_apply (R := fun _ _ => True) trivial f arguments).sameOutcome

end Builtin
end Abacus
