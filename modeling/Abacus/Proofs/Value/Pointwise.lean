/-
# Operators work place by place

Scalars, vectors and matrices have a shape and elements at places, which are a row and a column.  A scalar
has its one number at every place, and a vector has its elements in every row, so that two operands have
elements at the places of the larger shape whenever their shapes fit.  The operators are then all the
same: at every place they combine the two elements that are there, left before right, and the first zero
divisor in reading order ends the run.  Only the product of two matrices is something else.

The loops of the operators run over elements, over rows of elements, or over rows of two matrices at once.
Each is a run of *guarded* steps, which fail for a zero divisor and otherwise compute a number, and a run
of guarded steps is guarded itself (`mapM_eq_guarded`).  So the loops over a row and the loops over the rows
come out of one lemma, and what is left is to find the elements of a list by their index.

Main statements: `combine_of_fits`, `combine_of_not_fits`, and `combine_pointwise` that says at which
places the elements of the operands and of the result are.
-/
import Mathlib.Data.List.Basic
import Abacus.Proofs.Outcome
import Abacus.Proofs.Value.Checked
import Abacus.Value.Arithmetic

namespace Abacus

/-! ## 1. Shapes and places -/

/-- The matrix of given dimensions with given elements. -/
def Matrix.tabulate (d : Dimensions) (f : Nat → Nat → Binary64) : Matrix :=
  ofRows ((List.range d.rows).map fun i => (List.range d.columns).map (f i)) d.columns (by
    intro row hrow
    obtain ⟨i, -, rfl⟩ := List.mem_map.mp hrow
    rw [List.length_map, List.length_range])

/-- The shape of a scalar, a vector or a matrix. -/
inductive Shape where
  | scalar
  | vector (length : Nat)
  | matrix (dimensions : Dimensions)
  deriving DecidableEq

namespace Shape

/-- How many rows of places there are. -/
def rows : Shape → Nat
  | scalar => 1
  | vector _ => 1
  | matrix d => d.rows

/-- How many places there are in a row. -/
def columns : Shape → Nat
  | scalar => 1
  | vector n => n
  | matrix d => d.columns

/-- The shapes of operands that can be combined. -/
def Fits : Shape → Shape → Prop
  | scalar, _ => True
  | _, scalar => True
  | vector n, vector k => n = k
  | matrix d, matrix e => d = e
  | matrix d, vector n => d.rows = 0 ∨ d.columns = n
  | vector n, matrix d => d.rows = 0 ∨ d.columns = n

/-- The shape of the result: that of a matrix before that of a vector before that of a scalar. -/
def larger : Shape → Shape → Shape
  | matrix d, _ => matrix d
  | _, matrix d => matrix d
  | vector n, _ => vector n
  | _, vector n => vector n
  | scalar, scalar => scalar

/-- An operand of the shape has an element for the place: it need not have the row itself. -/
def Covers (i j : Nat) : Shape → Prop
  | scalar => True
  | vector n => j < n
  | matrix d => i < d.rows ∧ j < d.columns

/-- A matrix without rows has no columns. -/
def Proper : Shape → Prop
  | matrix d => d.rows = 0 → d.columns = 0
  | _ => True

/-- Some place of the shape has the property. -/
def any (s : Shape) (z : Nat → Nat → Bool) : Bool :=
  (List.range s.rows).any fun i => (List.range s.columns).any (z i)

/-- The value of the shape with given elements. -/
def fill (f : Nat → Nat → Binary64) : Shape → Value
  | scalar => .scalar (f 0 0)
  | vector n => .vector ((List.range n).map (f 0))
  | matrix d => .matrix (.tabulate d f)

/-- Operands that fit have elements for all places of the larger one. -/
theorem Fits.covers {s t : Shape} (h : s.Fits t) {i j : Nat} (hi : i < (s.larger t).rows)
    (hj : j < (s.larger t).columns) : s.Covers i j ∧ t.Covers i j := by
  cases s <;> cases t <;> simp only [Fits, larger, rows, columns, Covers] at * <;> grind

theorem Proper.larger {s t : Shape} (hs : s.Proper) (ht : t.Proper) : (s.larger t).Proper := by
  cases s <;> cases t <;> assumption

theorem any_scalar (z : Nat → Nat → Bool) : scalar.any z = z 0 0 := by
  simp [any, rows, columns]

theorem any_vector (n : Nat) (z : Nat → Nat → Bool) : (vector n).any z = (List.range n).any (z 0) := by
  simp [any, rows, columns]

theorem any_eq_true_iff {s : Shape} {z : Nat → Nat → Bool} :
    s.any z = true ↔ ∃ i j, i < s.rows ∧ j < s.columns ∧ z i j = true := by
  simp only [any, List.any_eq_true, List.mem_range]
  constructor
  · rintro ⟨i, hi, j, hj, hz⟩
    exact ⟨i, j, hi, hj, hz⟩
  · rintro ⟨i, j, hi, hj, hz⟩
    exact ⟨i, hi, j, hj, hz⟩

end Shape

namespace Value

/-- The shape of a scalar, a vector or a matrix; a fraction has none. -/
def shape? : Value → Option Shape
  | scalar _ => some .scalar
  | vector xs => some (.vector xs.length)
  | matrix m => some (.matrix m.dimensions)
  | rational _ => none

/-- The element at a place.  A scalar is repeated everywhere and a vector in each row. -/
def element? (i j : Nat) : Value → Option Binary64
  | scalar x => some x
  | vector xs => xs[j]?
  | matrix m => m.rows[i]?.bind fun row => row[j]?
  | rational _ => none

/-- The element at a place, and zero where there is none. -/
def element (v : Value) (i j : Nat) : Binary64 := (v.element? i j).getD .zero

section Elements

variable {v : Value} {s : Shape}

theorem proper_of_shape? (h : v.shape? = some s) : s.Proper := by
  cases v with
  | scalar x =>
    cases h
    trivial
  | vector xs =>
    cases h
    trivial
  | matrix m =>
    cases h
    exact (wellFormed (.matrix m)).2
  | rational q => cases h

/-- An operand has the elements that its shape covers. -/
theorem element?_of_covers (h : v.shape? = some s) {i j : Nat} (hcovers : s.Covers i j) :
    v.element? i j = some (v.element i j) := by
  have hsome : (v.element? i j).isSome = true := by
    cases v with
    | scalar x => rfl
    | vector xs =>
      cases h
      have hj : j < xs.length := hcovers
      rw [element?, List.getElem?_eq_getElem hj]
      rfl
    | matrix m =>
      cases h
      obtain ⟨hi, hj⟩ := hcovers
      have hi' : i < m.rows.length := hi
      have hj' : j < m.rows[i].length := by
        rw [m.rectangular _ (List.getElem_mem hi')]
        exact hj
      rw [element?, List.getElem?_eq_getElem hi', Option.bind_some, List.getElem?_eq_getElem hj']
      rfl
    | rational q => cases h
  obtain ⟨x, hx⟩ := Option.isSome_iff_exists.mp hsome
  rw [element, hx, Option.getD_some]

theorem shape?_fill (hs : s.Proper) (f : Nat → Nat → Binary64) : (s.fill f).shape? = some s := by
  cases s with
  | scalar => rfl
  | vector n => rw [Shape.fill, shape?, List.length_map, List.length_range]
  | matrix d =>
    obtain ⟨r, c⟩ := d
    cases r with
    | zero =>
      obtain rfl : c = 0 := hs rfl
      rfl
    | succ r =>
      have hne : ¬ ((List.range (r + 1)).map (fun i => (List.range c).map (f i))).isEmpty = true := by simp
      rw [Shape.fill, shape?, Matrix.tabulate, Matrix.dimensions, Matrix.columnCount_ofRows, if_neg hne,
        Matrix.rowCount, Matrix.rows_ofRows, List.length_map, List.length_range]

theorem element?_fill (f : Nat → Nat → Binary64) {i j : Nat} (hi : i < s.rows) (hj : j < s.columns) :
    (s.fill f).element? i j = some (f i j) := by
  cases s with
  | scalar =>
    obtain rfl : i = 0 := Nat.lt_one_iff.mp hi
    obtain rfl : j = 0 := Nat.lt_one_iff.mp hj
    rfl
  | vector n =>
    obtain rfl : i = 0 := Nat.lt_one_iff.mp hi
    have hj' : j < n := hj
    simp [Shape.fill, element?, hj']
  | matrix d =>
    have hi' : i < d.rows := hi
    have hj' : j < d.columns := hj
    simp [Shape.fill, Matrix.tabulate, element?, hi', hj']

/-- A value is its shape and its elements. -/
theorem eq_of_elements {w : Value} (hv : v.shape? = some s) (hw : w.shape? = some s)
    (h : ∀ i j, i < s.rows → j < s.columns → v.element? i j = w.element? i j) : v = w := by
  cases v with
  | rational q => cases hv
  | scalar x =>
    cases hv
    cases w with
    | scalar y =>
      have hxy : some x = some y := h 0 0 Nat.one_pos Nat.one_pos
      rw [Option.some.inj hxy]
    | vector ys => cases hw
    | matrix n => cases hw
    | rational q => cases hw
  | vector xs =>
    cases hv
    cases w with
    | scalar y => cases hw
    | vector ys =>
      have hlength : ys.length = xs.length := Shape.vector.inj (Option.some.inj hw)
      refine congrArg vector (List.ext_getElem hlength.symm ?_)
      intro j hj hj'
      have hxy : xs[j]? = ys[j]? := h 0 j Nat.one_pos hj
      rwa [List.getElem?_eq_getElem hj, List.getElem?_eq_getElem hj', Option.some_inj] at hxy
    | matrix n => cases hw
    | rational q => cases hw
  | matrix m =>
    cases hv
    cases w with
    | scalar y => cases hw
    | vector ys => cases hw
    | matrix n =>
      have hdimensions : n.dimensions = m.dimensions := Shape.matrix.inj (Option.some.inj hw)
      have hrows : n.rows.length = m.rows.length := congrArg Dimensions.rows hdimensions
      have hcolumns : n.columnCount = m.columnCount := congrArg Dimensions.columns hdimensions
      refine congrArg matrix (Matrix.ext_rows (List.ext_getElem hrows.symm ?_))
      intro i hi hi'
      have hleft : m.rows[i].length = m.columnCount := m.rectangular _ (List.getElem_mem hi)
      have hright : n.rows[i].length = n.columnCount := n.rectangular _ (List.getElem_mem hi')
      refine List.ext_getElem (by omega) ?_
      intro j hj hj'
      have hcolumn : j < m.columnCount := by rwa [← hleft]
      have hxy : (m.rows[i]?.bind fun row => row[j]?) = n.rows[i]?.bind fun row => row[j]? :=
        h i j hi hcolumn
      rwa [List.getElem?_eq_getElem hi, List.getElem?_eq_getElem hi', Option.bind_some, Option.bind_some,
        List.getElem?_eq_getElem hj, List.getElem?_eq_getElem hj', Option.some_inj] at hxy
    | rational q => cases hw

end Elements

/-! ## 2. Guarded steps -/

/-- What an operator computes, unless a zero divisor is in the way. -/
def guarded {α : Type} (op : Operator) (zero : Bool) (a : α) (p : Position) : Except Error α :=
  match zeroDivisor? op with
  | some cause => if zero then .error ⟨cause, p⟩ else .ok a
  | none => .ok a

section Guarded

variable {α β : Type} {op : Operator} {p : Position}

theorem applyNumbers_eq (x y : Binary64) : applyNumbers op x y p = guarded op y.isZero (op.apply x y) p :=
  rfl

theorem guarded_map (f : α → β) (zero : Bool) (a : α) :
    (guarded op zero a p).map f = guarded op zero (f a) p := by
  unfold guarded
  split
  · split <;> rfl
  · rfl

/-- A guarded step followed by guarded steps. -/
theorem guarded_cons (zero zeros : Bool) (b : β) (bs : List β) :
    (guarded op zero b p >>= fun x => guarded op zeros bs p >>= fun xs => pure (x :: xs))
      = guarded op (zero || zeros) (b :: bs) p := by
  unfold guarded
  cases zeroDivisor? op with
  | none => rfl
  | some cause => cases zero <;> cases zeros <;> rfl

/-- **A run of guarded steps** is guarded by all of their divisors. -/
theorem mapM_eq_guarded {f : α → Except Error β} {z : α → Bool} {g : α → β} {as : List α}
    (h : ∀ a ∈ as, f a = guarded op (z a) (g a) p) :
    as.mapM f = guarded op (as.any z) (as.map g) p := by
  induction as with
  | nil =>
    unfold guarded
    split <;> rfl
  | cons a as ih =>
    obtain ⟨ha, has⟩ := List.forall_mem_cons.mp h
    rw [List.mapM_cons, ha, ih has, guarded_cons, List.any_cons, List.map_cons]

end Guarded

/-! ## 3. Loops over the elements of a list -/

section Loops

variable {α β : Type} {op : Operator} {p : Position} {n : Nat}

/-- A list is the list of its elements by index. -/
theorem eq_map_range {as : List α} (h : as.length = n) (a : α) :
    as = (List.range n).map fun i => as.getD i a := by
  subst h
  apply List.ext_getElem (by simp)
  intro i hi hi'
  simp [hi]

theorem zip_eq_map_range {as : List α} {bs : List β} (has : as.length = n) (hbs : bs.length = n) (a : α)
    (b : β) : as.zip bs = (List.range n).map fun i => (as.getD i a, bs.getD i b) := by
  conv_lhs => rw [eq_map_range has a, eq_map_range hbs b]
  exact List.zip_map'

/-- A run over the elements of a list by index. -/
theorem mapM_map_range {f : α → Except Error β} {a : Nat → α} {z : Nat → Bool} {g : Nat → β}
    (h : ∀ i, i < n → f (a i) = guarded op (z i) (g i) p) :
    ((List.range n).map a).mapM f = guarded op ((List.range n).any z) ((List.range n).map g) p := by
  rw [List.mapM_map]
  exact mapM_eq_guarded (fun i hi => h i (List.mem_range.mp hi))

theorem pairwise_eq_guarded {xs ys : List Binary64} (hxs : xs.length = n) (hys : ys.length = n) :
    pairwise op xs ys p = guarded op ((List.range n).any fun j => (ys.getD j .zero).isZero)
      ((List.range n).map fun j => op.apply (xs.getD j .zero) (ys.getD j .zero)) p := by
  rw [pairwise, if_pos (hxs.trans hys.symm), zip_eq_map_range hxs hys .zero .zero]
  exact mapM_map_range (fun _ _ => rfl)

theorem withScalarRight_eq_guarded {xs : List Binary64} (hxs : xs.length = n) (y : Binary64) :
    withScalarRight op xs y p = guarded op ((List.range n).any fun _ => y.isZero)
      ((List.range n).map fun j => op.apply (xs.getD j .zero) y) p := by
  rw [withScalarRight]
  conv_lhs => rw [eq_map_range hxs .zero]
  exact mapM_map_range (fun _ _ => rfl)

theorem withScalarLeft_eq_guarded {ys : List Binary64} (hys : ys.length = n) (x : Binary64) :
    withScalarLeft op x ys p = guarded op ((List.range n).any fun j => (ys.getD j .zero).isZero)
      ((List.range n).map fun j => op.apply x (ys.getD j .zero)) p := by
  rw [withScalarLeft]
  conv_lhs => rw [eq_map_range hys .zero]
  exact mapM_map_range (fun _ _ => rfl)

/-- Outcomes with the same rows or the same error are the same. -/
theorem eq_of_map_rows : ∀ {x y : Except Error Matrix}, x.map Matrix.rows = y.map Matrix.rows → x = y
  | .error _, .error _, h => congrArg Except.error (Except.error.inj h)
  | .ok _, .ok _, h => congrArg Except.ok (Matrix.ext_rows (Except.ok.inj h))

/-- Collecting rows into a matrix neither adds an error nor hides one. -/
theorem map_rows_collect {inputs : List α} {f : α → Except Error (List Binary64)} {columns : Nat}
    (h : ∀ x ∈ inputs, ∀ row, f x = .ok row → row.length = columns) :
    (Matrix.collect inputs f columns h).map Matrix.rows = inputs.mapM f := by
  unfold Matrix.collect
  split
  · next e he => exact he.symm
  · next rows hrows => exact hrows.symm

end Loops

/-! ## 4. Operators on containers -/

/-- What an operator computes at the places of a shape. -/
def atPlaces (op : Operator) (l r : Value) (s : Shape) (p : Position) : Except Error Value :=
  guarded op (s.any fun i j => (r.element i j).isZero)
    (s.fill fun i j => op.apply (l.element i j) (r.element i j)) p

section Containers

variable {l r : Value} {s t : Shape} {op : Operator} {p : Position}

theorem atPlaces_scalar (l r : Value) : atPlaces op l r .scalar p = guarded op (r.element 0 0).isZero
    (scalar (op.apply (l.element 0 0) (r.element 0 0))) p := by
  rw [atPlaces, Shape.any_scalar]
  rfl

theorem atPlaces_vector (l r : Value) (n : Nat) : atPlaces op l r (.vector n) p = guarded op
    ((List.range n).any fun j => (r.element 0 j).isZero)
    (vector ((List.range n).map fun j => op.apply (l.element 0 j) (r.element 0 j))) p := by
  rw [atPlaces, Shape.any_vector]
  rfl

theorem element_scalar (x : Binary64) (i j : Nat) : (scalar x).element i j = x := rfl

theorem element_vector (xs : List Binary64) (i j : Nat) : (vector xs).element i j = xs.getD j .zero :=
  List.getD_eq_getElem?_getD.symm

theorem element_matrix (m : Matrix) (i j : Nat) :
    (matrix m).element i j = (m.rows.getD i []).getD j .zero := by
  rw [element, element?, List.getD_eq_getElem?_getD, List.getD_eq_getElem?_getD]
  cases m.rows[i]? <;> rfl

theorem length_getD_rows (m : Matrix) {i : Nat} (hi : i < m.rowCount) :
    (m.rows.getD i []).length = m.columnCount := by
  have hi' : i < m.rows.length := hi
  rw [List.getD_eq_getElem?_getD, List.getElem?_eq_getElem hi', Option.getD_some]
  exact m.rectangular _ (List.getElem_mem hi')

theorem fitsRows_iff {m : Matrix} {xs : List Binary64} :
    fitsRows m xs = true ↔ m.rowCount = 0 ∨ m.columnCount = xs.length := by
  rw [fitsRows, Bool.or_eq_true, beq_iff_eq, beq_iff_eq, eq_comm (a := m.columnCount)]

/-- A matrix is collected place by place if every row of it is computed so. -/
theorem collect_eq_atPlaces {α : Type} {inputs : List α} {a : Nat → α} {d : Dimensions}
    (hinputs : inputs = (List.range d.rows).map a) {f : α → Except Error (List Binary64)} {columns : Nat}
    {h : ∀ x ∈ inputs, ∀ row, f x = .ok row → row.length = columns}
    (hrow : ∀ i, i < d.rows → f (a i) = guarded op
      ((List.range d.columns).any fun j => (r.element i j).isZero)
      ((List.range d.columns).map fun j => op.apply (l.element i j) (r.element i j)) p) :
    (Matrix.collect inputs f columns h).map matrix = atPlaces op l r (.matrix d) p := by
  have hrun : inputs.mapM f = _ := hinputs ▸ mapM_map_range hrow
  have hcollect : Matrix.collect inputs f columns h = guarded op
      ((Shape.matrix d).any fun i j => (r.element i j).isZero)
      (.tabulate d fun i j => op.apply (l.element i j) (r.element i j)) p := by
    refine eq_of_map_rows ?_
    rw [map_rows_collect, guarded_map, hrun]
    rfl
  rw [hcollect, guarded_map]
  rfl

theorem rows_eq_map_range (m : Matrix) :
    m.rows = (List.range m.dimensions.rows).map fun i => m.rows.getD i [] :=
  eq_map_range rfl []

/-- **Operands that fit are combined place by place.** -/
theorem combine_of_fits (hl : l.shape? = some s) (hr : r.shape? = some t)
    (hop : ¬ (op = .mul ∧ l.kind = .matrix ∧ r.kind = .matrix)) (h : s.Fits t) :
    combine op l r p = atPlaces op l r (s.larger t) p := by
  cases l with
  | rational q => cases hl
  | scalar x =>
    cases hl
    cases r with
    | rational q => cases hr
    | scalar y =>
      cases hr
      rw [combine, applyNumbers_eq, guarded_map]
      exact (atPlaces_scalar (scalar x) (scalar y)).symm
    | vector ys =>
      cases hr
      rw [combine, withScalarLeft_eq_guarded rfl, guarded_map]
      exact (atPlaces_vector (scalar x) (vector ys) ys.length).symm
    | matrix n =>
      cases hr
      rw [combine, scalarWithRows]
      refine collect_eq_atPlaces (rows_eq_map_range n) ?_
      intro i hi
      rw [withScalarLeft_eq_guarded (length_getD_rows n hi)]
      simp only [element_scalar, element_matrix]
      rfl
  | vector xs =>
    cases hl
    cases r with
    | rational q => cases hr
    | scalar y =>
      cases hr
      rw [combine, withScalarRight_eq_guarded rfl, guarded_map]
      exact (atPlaces_vector (vector xs) (scalar y) xs.length).symm
    | vector ys =>
      cases hr
      have hlength : xs.length = ys.length := h
      rw [combine, pairwise_eq_guarded rfl hlength.symm, guarded_map]
      exact (atPlaces_vector (vector xs) (vector ys) xs.length).symm
    | matrix n =>
      cases hr
      have hfits : n.rowCount = 0 ∨ n.columnCount = xs.length := h
      rw [combine, vectorWithRows, if_pos (fitsRows_iff.mpr hfits)]
      refine collect_eq_atPlaces (rows_eq_map_range n) ?_
      intro i hi
      have hlength := hfits.resolve_left (Nat.ne_of_gt (Nat.zero_lt_of_lt hi))
      rw [pairwise_eq_guarded hlength.symm (length_getD_rows n hi)]
      simp only [element_vector, element_matrix]
      rfl
  | matrix m =>
    cases hl
    cases r with
    | rational q => cases hr
    | scalar y =>
      cases hr
      rw [combine, rowsWithScalar]
      refine collect_eq_atPlaces (rows_eq_map_range m) ?_
      intro i hi
      rw [withScalarRight_eq_guarded (length_getD_rows m hi)]
      simp only [element_scalar, element_matrix]
      rfl
    | vector ys =>
      cases hr
      have hfits : m.rowCount = 0 ∨ m.columnCount = ys.length := h
      rw [combine, rowsWithVector, if_pos (fitsRows_iff.mpr hfits)]
      refine collect_eq_atPlaces (rows_eq_map_range m) ?_
      intro i hi
      have hlength := hfits.resolve_left (Nat.ne_of_gt (Nat.zero_lt_of_lt hi))
      rw [pairwise_eq_guarded (length_getD_rows m hi) hlength.symm]
      simp only [element_vector, element_matrix]
      rfl
    | matrix n =>
      cases hr
      have hdimensions : m.dimensions = n.dimensions := h
      have hmul : op ≠ .mul := fun hmul => hop ⟨hmul, rfl, rfl⟩
      have hrows : n.rows.length = m.dimensions.rows := by
        rw [hdimensions]
        rfl
      rw [combine, if_neg hmul, pairwiseRows, if_pos hdimensions]
      refine collect_eq_atPlaces (zip_eq_map_range rfl hrows [] []) ?_
      intro i hi
      have hi' : i < n.rowCount := by
        rwa [hdimensions] at hi
      have hlength : (n.rows.getD i []).length = m.columnCount := by
        rw [length_getD_rows n hi']
        exact congrArg Dimensions.columns hdimensions.symm
      rw [pairwise_eq_guarded (length_getD_rows m hi) hlength]
      simp only [element_matrix]
      rfl

/-- Operands that do not fit are not combined. -/
theorem combine_of_not_fits (hl : l.shape? = some s) (hr : r.shape? = some t)
    (hop : ¬ (op = .mul ∧ l.kind = .matrix ∧ r.kind = .matrix)) (h : ¬ s.Fits t) :
    ∃ m, combine op l r p = .error ⟨.shapeMismatch m, p⟩ := by
  cases l with
  | rational q => cases hl
  | scalar x =>
    cases hl
    exact absurd trivial h
  | vector xs =>
    cases hl
    cases r with
    | rational q => cases hr
    | scalar y =>
      cases hr
      exact absurd trivial h
    | vector ys =>
      cases hr
      have hlength : ¬ xs.length = ys.length := h
      rw [combine, pairwise, if_neg hlength]
      exact ⟨_, rfl⟩
    | matrix n =>
      cases hr
      have hfits : ¬ (n.rowCount = 0 ∨ n.columnCount = xs.length) := h
      rw [combine, vectorWithRows, if_neg (fun hrows => hfits (fitsRows_iff.mp hrows))]
      exact ⟨_, rfl⟩
  | matrix m =>
    cases hl
    cases r with
    | rational q => cases hr
    | scalar y =>
      cases hr
      exact absurd trivial h
    | vector ys =>
      cases hr
      have hfits : ¬ (m.rowCount = 0 ∨ m.columnCount = ys.length) := h
      rw [combine, rowsWithVector, if_neg (fun hrows => hfits (fitsRows_iff.mp hrows))]
      exact ⟨_, rfl⟩
    | matrix n =>
      cases hr
      have hdimensions : ¬ m.dimensions = n.dimensions := h
      have hmul : op ≠ .mul := fun hmul => hop ⟨hmul, rfl, rfl⟩
      rw [combine, if_neg hmul, pairwiseRows, if_neg hdimensions]
      exact ⟨_, rfl⟩

/-! ## 5. Place by place -/

/-- A zero stands on the right at some place of the result. -/
def HasZeroDivisor (r : Value) (s : Shape) : Prop :=
  ∃ i j y, i < s.rows ∧ j < s.columns ∧ r.element? i j = some y ∧ y.isZero = true

/-- The value has the shape, and at every place the operator on the elements of the operands. -/
structure IsPointwise (op : Operator) (l r : Value) (s : Shape) (v : Value) : Prop where
  shape : v.shape? = some s
  element : ∀ i j, i < s.rows → j < s.columns →
    ∃ x y, l.element? i j = some x ∧ r.element? i j = some y ∧ v.element? i j = some (op.apply x y)

/-- How operands of two shapes are combined. -/
structure CombinesPointwise (op : Operator) (l r : Value) (s t : Shape) (p : Position) : Prop where
  /-- Shapes that do not fit are an error before anything else. -/
  misfit : ¬ s.Fits t → ∃ m, combine op l r p = .error ⟨.shapeMismatch m, p⟩
  /-- A division by zero at any place is an error. -/
  division : s.Fits t → op = .div → HasZeroDivisor r (s.larger t) →
    combine op l r p = .error ⟨.divisionByZero, p⟩
  /-- So is a remainder by zero. -/
  remainder : s.Fits t → op = .mod → HasZeroDivisor r (s.larger t) →
    combine op l r p = .error ⟨.moduloByZero, p⟩
  /-- Otherwise there is a result, and it is the only value with these elements. -/
  result : s.Fits t → ¬ ((op = .div ∨ op = .mod) ∧ HasZeroDivisor r (s.larger t)) →
    ∃ v, combine op l r p = .ok v ∧ ∀ w, IsPointwise op l r (s.larger t) w ↔ w = v

theorem IsPointwise.unique {v w : Value} (hv : IsPointwise op l r s v) (hw : IsPointwise op l r s w) :
    v = w := by
  refine eq_of_elements hv.shape hw.shape ?_
  intro i j hi hj
  obtain ⟨x, y, hx, hy, hxy⟩ := hv.element i j hi hj
  obtain ⟨x', y', hx', hy', hxy'⟩ := hw.element i j hi hj
  rw [hx] at hx'
  rw [hy] at hy'
  cases hx'
  cases hy'
  rw [hxy, hxy']

theorem isPointwise_fill (op : Operator) (hl : l.shape? = some s) (hr : r.shape? = some t) (h : s.Fits t) :
    IsPointwise op l r (s.larger t)
      ((s.larger t).fill fun i j => op.apply (l.element i j) (r.element i j)) where
  shape := shape?_fill ((proper_of_shape? hl).larger (proper_of_shape? hr)) _
  element := by
    intro i j hi hj
    obtain ⟨hs, ht⟩ := h.covers hi hj
    exact ⟨_, _, element?_of_covers hl hs, element?_of_covers hr ht, element?_fill _ hi hj⟩

/-- The zeros that the run looks for are those of the right operand. -/
theorem any_isZero_iff (hr : r.shape? = some t) (h : s.Fits t) :
    ((s.larger t).any fun i j => (r.element i j).isZero) = true ↔ HasZeroDivisor r (s.larger t) := by
  rw [Shape.any_eq_true_iff]
  constructor
  · rintro ⟨i, j, hi, hj, hzero⟩
    exact ⟨i, j, _, hi, hj, element?_of_covers hr (h.covers hi hj).2, hzero⟩
  · rintro ⟨i, j, y, hi, hj, hy, hzero⟩
    refine ⟨i, j, hi, hj, ?_⟩
    rwa [element, hy, Option.getD_some]

/-- A zero divisor at any place ends the run. -/
theorem combine_of_zeroDivisor (hl : l.shape? = some s) (hr : r.shape? = some t)
    (hop : ¬ (op = .mul ∧ l.kind = .matrix ∧ r.kind = .matrix)) (h : s.Fits t) {cause : Cause}
    (hcause : zeroDivisor? op = some cause) (hzero : HasZeroDivisor r (s.larger t)) :
    combine op l r p = .error ⟨cause, p⟩ := by
  rw [combine_of_fits hl hr hop h, atPlaces, (any_isZero_iff hr h).mpr hzero, guarded, hcause]
  rfl

/-- **Containers are combined place by place**, unless their shapes do not fit or a divisor is zero. -/
theorem combine_pointwise (hl : l.shape? = some s) (hr : r.shape? = some t)
    (hop : ¬ (op = .mul ∧ l.kind = .matrix ∧ r.kind = .matrix)) (p : Position) :
    CombinesPointwise op l r s t p where
  misfit h := combine_of_not_fits hl hr hop h
  division := by
    rintro h rfl hzero
    exact combine_of_zeroDivisor hl hr hop h rfl hzero
  remainder := by
    rintro h rfl hzero
    exact combine_of_zeroDivisor hl hr hop h rfl hzero
  result := by
    intro h hnone
    have hpointwise := isPointwise_fill op hl hr h
    refine ⟨_, ?_, fun w => ⟨fun hw => hw.unique hpointwise, fun hw => hw ▸ hpointwise⟩⟩
    rw [combine_of_fits hl hr hop h, atPlaces, guarded]
    split
    · next cause hcause =>
      have hdivides : op = .div ∨ op = .mod := by
        cases op with
        | add | sub | mul => cases hcause
        | div => exact Or.inl rfl
        | mod => exact Or.inr rfl
      rw [if_neg]
      rw [any_isZero_iff hr h]
      exact fun hzero => hnone ⟨hdivides, hzero⟩
    · rfl

end Containers

namespace Example

/-- Two rows of two numbers. -/
def twoRows : Matrix := ⟨[[.ofInt 1, .ofInt 2], [.ofInt 3, .ofInt 4]], by decide⟩

/-- A vector minus each row of a matrix: eight minus three in the first place of the second row. -/
theorem combine_pointwise_rows :
    CombinesPointwise .sub (vector [.ofInt 8, .ofInt 9]) (matrix twoRows) (.vector 2) (.matrix ⟨2, 2⟩)
        ⟨1, 1⟩ ∧
      ∃ v, combine .sub (vector [.ofInt 8, .ofInt 9]) (matrix twoRows) ⟨1, 1⟩ = .ok v ∧
        v.shape? = some (.matrix ⟨2, 2⟩) ∧ v.element? 1 0 = some (.ofInt 8 - .ofInt 3) := by
  have hpointwise : CombinesPointwise .sub (vector [.ofInt 8, .ofInt 9]) (matrix twoRows) (.vector 2)
      (.matrix ⟨2, 2⟩) ⟨1, 1⟩ :=
    combine_pointwise rfl rfl (by decide) ⟨1, 1⟩
  have hfits : (Shape.vector 2).Fits (.matrix ⟨2, 2⟩) := Or.inr rfl
  obtain ⟨v, hv, hunique⟩ := hpointwise.result hfits (by simp)
  have hresult := (hunique v).mpr rfl
  obtain ⟨x, y, hx, hy, hxy⟩ := hresult.element 1 0 (by decide) (by decide)
  have hx' : some (Binary64.ofInt 8) = some x := hx
  have hy' : some (Binary64.ofInt 3) = some y := hy
  rw [← Option.some.inj hx', ← Option.some.inj hy'] at hxy
  exact ⟨hpointwise, v, hv, hresult.shape, hxy⟩

end Example

end Value
end Abacus
