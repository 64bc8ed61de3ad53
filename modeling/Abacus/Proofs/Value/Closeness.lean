/-
# What closeness tells

Two numbers are close if they are equal or if their distance is at most the larger of two tolerances, an
absolute one and a relative one that is scaled by the larger magnitude.  Between finite numbers nothing
goes wrong: a relative tolerance below one scales no number beyond the largest one, because rounding never
passes a number (`nearestUnits_le`), so a distance that overflows is too large for every tolerance.

Beside an infinity the scaled tolerance is infinite too, and so is the distance.  It is not larger than the
tolerance, and an infinity is close to every number but NaN as soon as the relative tolerance is positive.
`Near` has this as its third case, and it says all that closeness tells.

Main statements:

* `Binary64.isClose_iff_near`: closeness of two numbers;
* `Value.isClose_iff`: closeness of two values.
-/
import Abacus.Proofs.Binary64.Nearest
import Abacus.Proofs.Value.Pointwise

namespace Abacus

/-! ## 1. Rounding does not pass a number -/

theorem nearestEven_le_of_le {num den c : Nat} (hden : 0 < den) (h : num ≤ den * c) :
    nearestEven num den ≤ c := by
  by_cases hquotient : num / den < c
  · exact (nearestEven_le num den).trans hquotient
  · have hsplit := Nat.div_add_mod num den
    have hle : den * c ≤ den * (num / den) := Nat.mul_le_mul_left den (Nat.le_of_not_lt hquotient)
    have hnum : num = den * c := by omega
    rw [hnum, nearestEven_mul_left hden]

/-- A quotient that is at most a count on the grid is rounded to at most that count. -/
theorem nearestUnits_le {num den u : Nat} (hden : 0 < den) (hgrid : gridStep u ∣ u)
    (h : num ≤ den * u) : nearestUnits num den ≤ u := by
  have hquotient : num / den ≤ u := Nat.div_le_of_le_mul h
  obtain ⟨c, hc⟩ := (gridStep_dvd_gridStep hquotient).trans hgrid
  have hcells : num ≤ den * gridStep (num / den) * c := by rwa [Nat.mul_assoc, ← hc]
  have hnearest := nearestEven_le_of_le (Nat.mul_pos hden (gridStep_pos _)) hcells
  calc nearestUnits num den
      = nearestEven num (den * gridStep (num / den)) * gridStep (num / den) := rfl
    _ ≤ c * gridStep (num / den) := Nat.mul_le_mul_right _ hnearest
    _ = u := by rw [Nat.mul_comm, ← hc]

namespace Binary64

/-- A number scaled by at most one is finite. -/
theorem isFinite_mul_of_le_one (s t : Bool) {m : Magnitude} (n : Magnitude)
    (hm : m.units ≤ unitsPerOne) : (finite s m * finite t n).isFinite = true := by
  have hle := nearestUnits_le unitsPerOne_pos n.onGrid (Nat.mul_le_mul_right n.units hm)
  rw [mul_finite, round, dif_pos (hle.trans_lt n.bounded)]
  rfl

/-! ## 2. Two numbers -/

section Near

variable {absolute relative x y : Binary64}

/-- The larger of the absolute tolerance and the scaled relative tolerance. -/
def tolerance (absolute relative x y : Binary64) : Binary64 :=
  max absolute (relative * max (abs x) (abs y))

/-- What closeness of two numbers tells about them. -/
inductive Near (absolute relative x y : Binary64) : Prop
  /-- They are equal. -/
  | equal : x.equals y = true → Near absolute relative x y
  /-- They are finite, and so is their distance, which is within the tolerance. -/
  | within : x.isFinite = true → y.isFinite = true → (x - y).isFinite = true →
      (abs (x - y)).atMost (tolerance absolute relative x y) = true → Near absolute relative x y
  /-- One of them is infinite and neither is NaN, and there is a relative tolerance. -/
  | blurred : zero.lessThan relative = true → x ≠ nan → y ≠ nan →
      x.isFinite = false ∨ y.isFinite = false → Near absolute relative x y

/-- A relative tolerance below one is a magnitude below one, or negative zero. -/
theorem exists_of_relative (hnonneg : zero.atMost relative = true)
    (hlt : relative.lessThan one = true) :
    ∃ s m, relative = finite s m ∧ m.units ≤ unitsPerOne ∧ (s = true → m.units = 0) := by
  obtain _ | s | ⟨s, m⟩ := relative
  · cases hlt
  · cases s
    · cases hlt
    · cases hnonneg
  · have hzero : signedUnits false Magnitude.zero = 0 := rfl
    have hone : signedUnits false Magnitude.one = (unitsPerOne : Int) := rfl
    simp only [lessThan, zero, one, atMost, hzero, hone, Bool.and_eq_true,
      decide_eq_true_eq] at hnonneg hlt
    obtain ⟨hle, -⟩ := hlt
    refine ⟨s, m, rfl, ?_, ?_⟩
    · cases s
      · exact Int.ofNat_le.mp hle
      · simp only [signedUnits, if_pos] at hnonneg
        omega
    · rintro rfl
      simp only [signedUnits, if_pos] at hnonneg
      omega

/-- Beside an infinity the scaled tolerance is infinite, unless the relative tolerance is zero. -/
theorem max_mul_infinite (habs : absolute.isFinite = true) (hnonneg : zero.atMost relative = true)
    (hlt : relative.lessThan one = true) :
    max absolute (relative * infinite false)
      = if zero.lessThan relative then infinite false else absolute := by
  obtain ⟨u, k, rfl⟩ := exists_finite habs
  obtain ⟨s, m, rfl, -, hsign⟩ := exists_of_relative hnonneg hlt
  have hzero : signedUnits false Magnitude.zero = 0 := rfl
  have hproduct : finite s m * infinite false = if m.units = 0 then nan else infinite (s != false) := rfl
  have hpositive : zero.lessThan (finite s m) = true ↔ m.units ≠ 0 := by
    simp only [lessThan, zero, atMost, equals, hzero, Bool.and_eq_true, decide_eq_true_eq,
      Bool.not_eq_true', beq_eq_false_iff_ne]
    cases s
    · simp only [signedUnits, Bool.false_eq_true, if_false]
      omega
    · simp [signedUnits, hsign]
  rw [hproduct]
  by_cases hm : m.units = 0
  · rw [if_pos hm, if_neg (by simpa [hpositive] using hm)]
    rfl
  · have hs : s = false := by
      cases s
      · rfl
      · exact absurd (hsign rfl) hm
    rw [if_neg hm, if_pos (hpositive.mpr hm), hs]
    rfl

theorem isFinite_max (hx : x.isFinite = true) (hy : y.isFinite = true) :
    (max x y).isFinite = true := by
  obtain ⟨s, m, rfl⟩ := exists_finite hx
  obtain ⟨t, n, rfl⟩ := exists_finite hy
  change (if atMost (finite s m) (finite t n) then finite t n else finite s m).isFinite = true
  split <;> rfl

theorem isFinite_abs (hx : x.isFinite = true) : (abs x).isFinite = true := by
  obtain ⟨s, m, rfl⟩ := exists_finite hx
  rfl

/-- A distance that is at most a finite number is finite. -/
theorem isFinite_of_atMost (hy : y.isFinite = true) (h : (abs x).atMost y = true) :
    x.isFinite = true := by
  obtain ⟨t, n, rfl⟩ := exists_finite hy
  obtain _ | s | ⟨s, m⟩ := x
  · cases h
  · cases h
  · rfl

theorem isFinite_tolerance (habs : absolute.isFinite = true) (hnonneg : zero.atMost relative = true)
    (hlt : relative.lessThan one = true) (hx : x.isFinite = true) (hy : y.isFinite = true) :
    (tolerance absolute relative x y).isFinite = true := by
  obtain ⟨s, m, rfl, hm, -⟩ := exists_of_relative hnonneg hlt
  obtain ⟨t, n, hlarger⟩ := exists_finite (isFinite_max (isFinite_abs hx) (isFinite_abs hy))
  unfold tolerance
  rw [hlarger]
  exact isFinite_max habs (isFinite_mul_of_le_one s t n hm)

/-- The larger magnitude beside an infinity. -/
theorem max_abs_of_infinite (hx : x ≠ nan) (hy : y ≠ nan) (h : x.isFinite = false ∨ y.isFinite = false) :
    max (abs x) (abs y) = infinite false := by
  obtain _ | s | ⟨s, m⟩ := x
  · exact absurd rfl hx
  · obtain _ | t | ⟨t, n⟩ := y
    · exact absurd rfl hy
    · rfl
    · rfl
  · obtain _ | t | ⟨t, n⟩ := y
    · exact absurd rfl hy
    · rfl
    · rcases h with h | h <;> cases h

/-- The distance from an infinity is infinite, unless the numbers are equal. -/
theorem abs_sub_of_infinite (hx : x ≠ nan) (hy : y ≠ nan) (h : x.isFinite = false ∨ y.isFinite = false)
    (hne : x.equals y = false) : abs (x - y) = infinite false := by
  obtain _ | s | ⟨s, m⟩ := x
  · exact absurd rfl hx
  · obtain _ | t | ⟨t, n⟩ := y
    · exact absurd rfl hy
    · cases s <;> cases t <;> first | rfl | cases hne
    · rfl
  · obtain _ | t | ⟨t, n⟩ := y
    · exact absurd rfl hy
    · rfl
    · rcases h with h | h <;> cases h

/-- NaN is close to nothing. -/
theorem ne_nan_of_isClose (h : x.isClose y absolute relative = true) : x ≠ nan ∧ y ≠ nan := by
  constructor
  · rintro rfl
    cases y <;> cases h
  · rintro rfl
    cases x <;> cases h

/-- **What closeness of two numbers tells.** -/
theorem isClose_iff_near (habs : absolute.isFinite = true) (hnonneg : zero.atMost relative = true)
    (hlt : relative.lessThan one = true) :
    x.isClose y absolute relative = true ↔ Near absolute relative x y := by
  have hclose : x.isClose y absolute relative = true ↔
      x.equals y = true ∨ (abs (x - y)).atMost (tolerance absolute relative x y) = true :=
    Bool.or_eq_true_iff
  -- Beside an infinity neither the distance nor the tolerance depends on the other number.
  have hbeside : x ≠ nan → y ≠ nan → x.isFinite = false ∨ y.isFinite = false →
      (x.isClose y absolute relative = true ↔
        x.equals y = true ∨ zero.lessThan relative = true) := by
    intro hx hy hinfinite
    rw [hclose]
    cases hequal : x.equals y with
    | true => simp
    | false =>
      obtain ⟨u, k, rfl⟩ := exists_finite habs
      rw [abs_sub_of_infinite hx hy hinfinite hequal, tolerance,
        max_abs_of_infinite hx hy hinfinite, max_mul_infinite rfl hnonneg hlt]
      split <;> simp_all [atMost]
  constructor
  · intro h
    obtain ⟨hx, hy⟩ := ne_nan_of_isClose h
    by_cases hfinite : x.isFinite = true ∧ y.isFinite = true
    · rcases hclose.mp h with hequal | hatMost
      · exact .equal hequal
      · have htolerance := isFinite_tolerance habs hnonneg hlt hfinite.1 hfinite.2
        exact .within hfinite.1 hfinite.2 (isFinite_of_atMost htolerance hatMost) hatMost
    · have hinfinite : x.isFinite = false ∨ y.isFinite = false := by
        rwa [not_and_or, Bool.not_eq_true, Bool.not_eq_true] at hfinite
      rcases (hbeside hx hy hinfinite).mp h with hequal | hpositive
      · exact .equal hequal
      · exact .blurred hpositive hx hy hinfinite
  · rintro (hequal | ⟨-, -, -, hatMost⟩ | ⟨hpositive, hx, hy, hinfinite⟩)
    · exact hclose.mpr (Or.inl hequal)
    · exact hclose.mpr (Or.inr hatMost)
    · exact (hbeside hx hy hinfinite).mpr (Or.inr hpositive)

end Near

end Binary64

namespace Value

/-! ## 3. Two values -/

/-- The number that is compared at a place: an element, or the quotient of a fraction. -/
def numberAt? (i j : Nat) : Value → Option Binary64
  | rational q => some q.quotient
  | v => v.element? i j

section Pairs

theorem all_zip_iff {α : Type} (p : α → α → Bool) (xs ys : List α) :
    (xs.zip ys).all (fun pair => p pair.1 pair.2) = true
      ↔ ∀ (k : Nat) x y, xs[k]? = some x → ys[k]? = some y → p x y = true := by
  simp only [List.all_eq_true, List.mem_iff_getElem?, List.getElem?_zip_eq_some]
  constructor
  · intro h k x y hx hy
    exact h (x, y) ⟨k, hx, hy⟩
  · rintro h pair ⟨k, hx, hy⟩
    exact h k pair.1 pair.2 hx hy

variable (p : Binary64 → Binary64 → Bool)

theorem allPairs_iff (xs ys : List Binary64) :
    allPairs p xs ys = true ↔ xs.length = ys.length ∧
      ∀ (j : Nat) x y, xs[j]? = some x → ys[j]? = some y → p x y = true := by
  rw [allPairs, Bool.and_eq_true, beq_iff_eq, all_zip_iff]

/-- Rows of two matrices with as many columns are compared place by place. -/
theorem allRows_iff {m n : Matrix} (hcolumns : m.columnCount = n.columnCount) :
    allRows p m.rows n.rows = true ↔ m.rowCount = n.rowCount ∧
      ∀ i j x y, element? i j (.matrix m) = some x → element? i j (.matrix n) = some y →
        p x y = true := by
  have hlength : ∀ (i : Nat) row other, m.rows[i]? = some row → n.rows[i]? = some other →
      row.length = other.length := by
    intro i row other hrow hother
    rw [m.rectangular row (List.mem_of_getElem? hrow), n.rectangular other (List.mem_of_getElem? hother)]
    exact hcolumns
  rw [allRows, Bool.and_eq_true, beq_iff_eq, all_zip_iff]
  refine and_congr_right fun _ => ?_
  simp only [element?, Option.bind_eq_some_iff]
  constructor
  · rintro h i j x y ⟨row, hrow, hx⟩ ⟨other, hother, hy⟩
    exact ((allPairs_iff p row other).mp (h i row other hrow hother)).2 j x y hx hy
  · intro h i row other hrow hother
    refine (allPairs_iff p row other).mpr ⟨hlength i row other hrow hother, ?_⟩
    intro j x y hx hy
    exact h i j x y ⟨row, hrow, hx⟩ ⟨other, hother, hy⟩

end Pairs

variable (absolute relative : Binary64)

/-- Values are close if they are of one kind and shape and the numbers at every place are close. -/
theorem isClose_iff_numbers (u v : Value) : u.isClose absolute relative v = true ↔
    u.kind = v.kind ∧ u.shape? = v.shape? ∧ ∀ i j x y, u.numberAt? i j = some x →
      v.numberAt? i j = some y → x.isClose y absolute relative = true := by
  cases u with
  | scalar x => cases v <;> simp [isClose, kind, shape?, numberAt?, element?]
  | vector xs => cases v <;> simp [isClose, kind, shape?, numberAt?, element?, allPairs_iff]
  | matrix m =>
    cases v with
    | matrix n =>
      have hshape : shape? (.matrix m) = shape? (.matrix n) ↔
          m.rowCount = n.rowCount ∧ m.columnCount = n.columnCount := by
        simp [shape?, Matrix.dimensions]
      rw [hshape, isClose, Bool.and_eq_true, beq_iff_eq]
      constructor
      · rintro ⟨hcolumns, hrows⟩
        obtain ⟨hcount, hnumbers⟩ := (allRows_iff _ hcolumns).mp hrows
        exact ⟨rfl, ⟨hcount, hcolumns⟩, hnumbers⟩
      · rintro ⟨-, ⟨hcount, hcolumns⟩, hnumbers⟩
        exact ⟨hcolumns, (allRows_iff _ hcolumns).mpr ⟨hcount, hnumbers⟩⟩
    | _ => simp [isClose, kind]
  | rational q => cases v <;> simp [isClose, kind, shape?, numberAt?]

/-- **What closeness of two values tells.**  They are of one kind and shape, and any two numbers that are
compared are equal, or finite and within the tolerance, or one of them is infinite. -/
theorem isClose_iff {absolute relative : Binary64} (habs : absolute.isFinite = true)
    (hnonneg : Binary64.zero.atMost relative = true) (hlt : relative.lessThan .one = true)
    (u v : Value) : u.isClose absolute relative v = true ↔
      u.kind = v.kind ∧ u.shape? = v.shape? ∧ ∀ i j x y, u.numberAt? i j = some x →
        v.numberAt? i j = some y → Binary64.Near absolute relative x y := by
  rw [isClose_iff_numbers]
  simp only [Binary64.isClose_iff_near habs hnonneg hlt]

namespace Example

/-- The relative tolerance `0.0000000001`. -/
def tenBillionth : Binary64 := .ofDecimal 1 10

theorem tolerable_tenBillionth : Binary64.zero.atMost tenBillionth = true ∧
    tenBillionth.lessThan .one = true := by
  decide +kernel

/-- A vector with an infinity at its front, and the same vector with another number behind it that is
within the tolerance. -/
theorem isClose_iff_vectors :
    Binary64.zero.isFinite = true ∧ Binary64.zero.atMost tenBillionth = true ∧
      tenBillionth.lessThan .one = true ∧
      isClose .zero tenBillionth (.vector [.infinite true, .one])
        (.vector [.infinite true, .one + .ofDecimal 1 11]) = true ∧
      Binary64.Near .zero tenBillionth .one (.one + .ofDecimal 1 11) := by
  obtain ⟨hnonneg, hlt⟩ := tolerable_tenBillionth
  have hclose : isClose .zero tenBillionth (.vector [.infinite true, .one])
      (.vector [.infinite true, .one + .ofDecimal 1 11]) = true := by decide +kernel
  exact ⟨rfl, hnonneg, hlt, hclose, ((isClose_iff rfl hnonneg hlt _ _).mp hclose).2.2 0 1 _ _ rfl rfl⟩

/-- An infinity is close to one: they are neither equal nor both finite. -/
theorem infinity_close_to_one :
    Binary64.zero.isFinite = true ∧ Binary64.zero.atMost .zero = true ∧
      Binary64.zero.atMost tenBillionth = true ∧ tenBillionth.lessThan .one = true ∧
      isClose .zero tenBillionth (.scalar (.infinite false)) (.scalar .one) = true ∧
      (Binary64.infinite false).equals .one = false ∧ (Binary64.infinite false).isFinite = false :=
  ⟨rfl, by decide +kernel, tolerable_tenBillionth.1, tolerable_tenBillionth.2, by decide +kernel, rfl,
    rfl⟩

end Example

end Value

end Abacus
