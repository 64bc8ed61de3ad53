/-
# The written form of a number reads back as that number

Writing a magnitude searches the decimals next to it, from coarse to fine, for one that reading
rounds to the magnitude.  Every decimal that the search can return has been read, so only one thing
can go wrong: that the search ends without a hit.  It cannot.  The finest decimals, those with 324
places, lie `2^1074 / 10^324` units apart, which is less than a quarter of a unit, so the decimal
below a magnitude is nearer to it than to any other number (`readsBack_below`).

What is written is not the count of decimal steps but its digits, without the zeros at the end.
Reading sees other integers with the same quotient, and rounding depends on the quotient alone
(`nearestUnits_mul_right`).

Main statements:

* `readsBack_shortestDecimal`: the search succeeds for every magnitude;
* `Magnitude.text_numeral` and `Magnitude.value_numeral`: the written form of a magnitude is a
  numeral, and its value is the magnitude;
* `Binary64.ofText?_render`: every number is read back from its written form, the sign of a zero
  included.
-/
import Mathlib.Algebra.Group.Nat.Defs
import Abacus.Proofs.Numeral

namespace Abacus

/-! ## 1. Rounding depends on the quotient alone -/

theorem nearestEven_mul_right (num den : Nat) {c : Nat} (hc : 0 < c) :
    nearestEven (num * c) (den * c) = nearestEven num den := by
  have hquot : num * c / (den * c) = num / den := Nat.mul_div_mul_right num den hc
  have hrem : 2 * (num * c % (den * c)) = 2 * (num % den) * c := by
    rw [Nat.mul_mod_mul_right, Nat.mul_assoc]
  unfold nearestEven
  simp only [hquot, hrem, Nat.mul_lt_mul_right hc]

theorem nearestUnits_mul_right (num den : Nat) {c : Nat} (hc : 0 < c) :
    nearestUnits (num * c) (den * c) = nearestUnits num den := by
  unfold nearestUnits
  dsimp only
  rw [Nat.mul_div_mul_right num den hc, Nat.mul_right_comm, nearestEven_mul_right _ _ hc]

/-! ## 2. The finest decimals are fine enough -/

theorem decimalScale_pos : 0 < decimalScale := Nat.pow_pos (by decide)

/-- A step of `10^-324` is less than a quarter of a unit. -/
theorem four_mul_unitsPerOne_lt : 4 * unitsPerOne < decimalScale := by
  decide +kernel

/-- The step of the grid does not shrink as the count grows. -/
theorem gridStep_dvd_gridStep {u v : Nat} (h : u ≤ v) : gridStep u ∣ gridStep v := by
  have hlog : u.log2 ≤ v.log2 := by
    by_cases hu : u = 0
    · simp [hu]
    · exact (Nat.le_log2 (by omega)).mpr (Nat.le_trans (Nat.log2_self_le hu) h)
  exact Nat.pow_dvd_pow 2 (by omega)

/-- A quotient less than a quarter of a unit below a count on the grid rounds to that count. -/
theorem nearestUnits_sub {den u r : Nat} (hgrid : gridStep u ∣ u) (hu : 0 < u) (hr : 0 < r)
    (hsmall : 4 * r < den) : nearestUnits (den * u - r) den = u := by
  have hdu : den ≤ den * u := Nat.le_mul_of_pos_right den hu
  have hquot : (den * u - r) / den = u - 1 := by
    have hsplit : den * u - r = den * (u - 1) + (den - r) := by
      rw [Nat.mul_sub, Nat.mul_one]
      omega
    rw [hsplit, Nat.mul_add_div (by omega), Nat.div_eq_of_lt (by omega), Nat.add_zero]
  have hstep : gridStep (u - 1) ∣ u := Nat.dvd_trans (gridStep_dvd_gridStep (by omega)) hgrid
  obtain ⟨k, hk⟩ := hstep
  have hpos : 0 < gridStep (u - 1) := gridStep_pos _
  have hkpos : 0 < k := by
    rcases Nat.eq_zero_or_pos k with hzero | hkpos
    · rw [hzero, Nat.mul_zero] at hk
      omega
    · exact hkpos
  -- in steps of the grid the quotient is `k` less a small part, and `k` is the nearest integer
  have hcell : den ≤ den * gridStep (u - 1) := Nat.le_mul_of_pos_right den hpos
  have hnum : den * u - r
      = den * gridStep (u - 1) * (k - 1) + (den * gridStep (u - 1) - r) := by
    have hfull : den * u = den * gridStep (u - 1) * k := by rw [Nat.mul_assoc, ← hk]
    have hle : den * gridStep (u - 1) ≤ den * gridStep (u - 1) * k :=
      Nat.le_mul_of_pos_right _ hkpos
    rw [Nat.mul_sub, Nat.mul_one]
    omega
  have hround : nearestEven (den * u - r) (den * gridStep (u - 1)) = k := by
    have hlt : den * gridStep (u - 1) - r < den * gridStep (u - 1) := by omega
    have hdiv : (den * u - r) / (den * gridStep (u - 1)) = k - 1 := by
      rw [hnum, Nat.mul_add_div (by omega), Nat.div_eq_of_lt hlt, Nat.add_zero]
    have hmod : (den * u - r) % (den * gridStep (u - 1)) = den * gridStep (u - 1) - r := by
      rw [hnum, Nat.mul_add_mod, Nat.mod_eq_of_lt hlt]
    unfold nearestEven
    simp only [hdiv, hmod]
    rw [if_neg (by omega), if_pos (by omega)]
    omega
  unfold nearestUnits
  dsimp only
  rw [hquot, hround, Nat.mul_comm, ← hk]

/-- **The finest decimal below a magnitude reads back.** -/
theorem readsBack_below (m : Magnitude) :
    readsBack m.units (m.units * decimalScale / unitsPerOne) = true := by
  have hdiv := Nat.div_add_mod (m.units * decimalScale) unitsPerOne
  have hmod := Nat.mod_lt (m.units * decimalScale) unitsPerOne_pos
  have hfine := four_mul_unitsPerOne_lt
  have hbelow : m.units * decimalScale / unitsPerOne * unitsPerOne
      = decimalScale * m.units - m.units * decimalScale % unitsPerOne := by
    rw [Nat.mul_comm _ unitsPerOne, Nat.mul_comm decimalScale]
    omega
  unfold readsBack
  rw [beq_iff_eq, hbelow]
  rcases Nat.eq_zero_or_pos (m.units * decimalScale % unitsPerOne) with hzero | hpos
  · rw [hzero, Nat.sub_zero]
    exact nearestUnits_of_dvd decimalScale_pos m.onGrid
  · refine nearestUnits_sub m.onGrid ?_ hpos (by omega)
    refine Nat.pos_of_ne_zero (fun hunits => ?_)
    rw [hunits, Nat.zero_mul, Nat.zero_mod] at hpos
    exact Nat.lt_irrefl 0 hpos

/-! ## 3. The search -/

/-- A decimal that one step of the search returns has been read. -/
theorem readsBack_of_decimalAt? {units p d : Nat} (h : decimalAt? units p = some d) :
    readsBack units d = true := by
  unfold decimalAt? at h
  dsimp only at h
  split at h
  · next hbelow =>
    split at h
    · next habove =>
      cases h
      exact (Bool.and_eq_true _ _ ▸ habove).1
    · cases h
      exact hbelow
  · split at h
    · next habove =>
      cases h
      exact habove
    · cases h

/-- The last step of the search has a hit. -/
theorem isSome_decimalAt?_zero (m : Magnitude) : (decimalAt? m.units 0).isSome = true := by
  have hbelow := readsBack_below m
  unfold decimalAt?
  simp only [Nat.pow_zero, Nat.div_one, Nat.mul_one, hbelow, if_true]
  split <;> rfl

theorem readsBack_decimalFrom (m : Magnitude) (p : Nat) :
    readsBack m.units (decimalFrom m.units p) = true := by
  induction p with
  | zero =>
    obtain ⟨d, hd⟩ := Option.isSome_iff_exists.mp (isSome_decimalAt?_zero m)
    simpa [decimalFrom, hd] using readsBack_of_decimalAt? hd
  | succ p ih =>
    unfold decimalFrom
    cases hd : decimalAt? m.units (p + 1) with
    | none => exact ih
    | some d => exact readsBack_of_decimalAt? hd

/-- **The shortest decimal of a magnitude reads back.** -/
theorem readsBack_shortestDecimal (m : Magnitude) :
    readsBack m.units (shortestDecimal m.units) = true :=
  readsBack_decimalFrom m _

/-! ## 4. Digits -/

/-- The digits after the point, less the zeros at the end, still stand for the same decimals. -/
theorem ofDigitChars_fractionDigits (places n before : Nat) (h : n < 10 ^ places) :
    Nat.ofDigitChars 10 (fractionDigits places n) before
        * 10 ^ (places - (fractionDigits places n).length)
      = before * 10 ^ places + n := by
  induction places generalizing n before with
  | zero =>
    have hn : n = 0 := by simpa using h
    simp [fractionDigits, hn]
  | succ places ih =>
    unfold fractionDigits
    by_cases hn : n = 0
    · simp [hn]
    · have hpow : 0 < 10 ^ places := Nat.pow_pos (by decide)
      have hdigit : n / 10 ^ places < 10 := by
        rw [Nat.div_lt_iff_lt_mul hpow, Nat.mul_comm, ← Nat.pow_succ]
        exact h
      have hrest := ih (n % 10 ^ places) (10 * before + n / 10 ^ places) (Nat.mod_lt _ hpow)
      rw [if_neg hn, Nat.ofDigitChars_cons_digitChar_of_lt_ten hdigit, List.length_cons,
        Nat.add_sub_add_right, hrest, Nat.add_mul, Nat.add_assoc, Nat.div_add_mod' n, Nat.pow_succ,
        Nat.mul_comm 10 before, Nat.mul_assoc, Nat.mul_comm 10]

theorem length_fractionDigits_le (places n : Nat) :
    (fractionDigits places n).length ≤ places := by
  induction places generalizing n with
  | zero => simp [fractionDigits]
  | succ places ih =>
    unfold fractionDigits
    split
    · simp
    · rw [List.length_cons]
      exact Nat.succ_le_succ (ih _)

theorem isDigit_of_mem_fractionDigits {places n : Nat} (h : n < 10 ^ places) {c : Char}
    (hc : c ∈ fractionDigits places n) : c.isDigit = true := by
  induction places generalizing n with
  | zero => simp [fractionDigits] at hc
  | succ places ih =>
    unfold fractionDigits at hc
    have hpow : 0 < 10 ^ places := Nat.pow_pos (by decide)
    split at hc
    · simp at hc
    · rcases List.mem_cons.mp hc with rfl | hmem
      · rw [Nat.isDigit_digitChar, decide_eq_true_eq, Nat.div_lt_iff_lt_mul hpow, Nat.mul_comm,
          ← Nat.pow_succ]
        exact h
      · exact ih (Nat.mod_lt _ hpow) hmem

/-! ## 5. The written form as a numeral -/

namespace Magnitude

/-- The digits of the shortest decimal after the point. -/
def fraction (m : Magnitude) : Text :=
  fractionDigits decimalPlaces (shortestDecimal m.units % decimalScale)

/-- The numeral that is written for a magnitude. -/
def numeral (m : Magnitude) : Numeral where
  whole := Nat.toDigits 10 (shortestDecimal m.units / decimalScale)
  fraction := if m.fraction.isEmpty then none else some m.fraction

theorem render_eq (m : Magnitude) : m.render
    = Nat.toDigits 10 (shortestDecimal m.units / decimalScale)
      ++ (if m.fraction.isEmpty then [] else '.' :: m.fraction) := by
  unfold render positional fraction
  rfl

/-- The written form of a magnitude is a numeral. -/
theorem text_numeral (m : Magnitude) : m.numeral.text = m.render := by
  rw [render_eq]
  unfold numeral
  by_cases h : m.fraction.isEmpty = true
  · rw [if_pos h, if_pos h]
    rfl
  · rw [if_neg h, if_neg h]
    rfl

theorem proper_numeral (m : Magnitude) : m.numeral.Proper where
  whole := fun c hc => Nat.isDigit_of_mem_toDigits (by decide) (by decide) hc
  fraction := by
    intro digits hdigits c hc
    by_cases hempty : m.fraction.isEmpty = true
    · simp [numeral, hempty] at hdigits
    · simp only [numeral, hempty, Bool.false_eq_true, if_false, Option.some.injEq] at hdigits
      subst hdigits
      exact isDigit_of_mem_fractionDigits (Nat.mod_lt _ decimalScale_pos) hc
  hasDigit := by simp [Numeral.hasDigit, numeral]

/-- A magnitude is written with digits and a point. -/
theorem mem_render {m : Magnitude} {c : Char} (h : c ∈ m.render) : c.isDigit = true ∨ c = '.' := by
  rw [← m.text_numeral] at h
  exact m.proper_numeral.mem_text h

/-- The digits after the point that reading sees. -/
theorem getD_fraction_numeral (m : Magnitude) : m.numeral.fraction.getD [] = m.fraction := by
  unfold numeral
  by_cases hempty : m.fraction.isEmpty = true
  · rw [if_pos hempty, Option.getD_none, List.isEmpty_iff.mp hempty]
  · rw [if_neg hempty, Option.getD_some]

/-- The digits without their zeros, scaled up again, count the steps of the shortest decimal. -/
theorem ofDigitChars_numeral (m : Magnitude) :
    Nat.ofDigitChars 10 (m.numeral.whole ++ m.fraction) 0
      * 10 ^ (decimalPlaces - m.fraction.length) = shortestDecimal m.units := by
  have hlt : shortestDecimal m.units % decimalScale < 10 ^ decimalPlaces :=
    Nat.mod_lt _ decimalScale_pos
  have hwhole : Nat.ofDigitChars 10 m.numeral.whole 0 = shortestDecimal m.units / decimalScale :=
    Nat.ofDigitChars_ten_toDigits
  rw [Nat.ofDigitChars_append, hwhole]
  exact (ofDigitChars_fractionDigits _ _ _ hlt).trans (Nat.div_add_mod' _ _)

/-- **The numeral of a magnitude stands for it.** -/
theorem value_numeral (m : Magnitude) : m.numeral.value = .finite false m := by
  have hlen : m.fraction.length ≤ decimalPlaces := length_fractionDigits_le _ _
  have hscale : 10 ^ m.fraction.length * 10 ^ (decimalPlaces - m.fraction.length)
      = decimalScale := by
    rw [← Nat.pow_add, Nat.add_sub_cancel' hlen, decimalScale]
  have hunits : nearestUnits
      (Nat.ofDigitChars 10 (m.numeral.whole ++ m.fraction) 0 * unitsPerOne)
      (10 ^ m.fraction.length) = m.units := by
    rw [← nearestUnits_mul_right _ _ (c := 10 ^ (decimalPlaces - m.fraction.length))
      (Nat.pow_pos (by decide)), hscale, Nat.mul_right_comm, ofDigitChars_numeral]
    exact beq_iff_eq.mp (readsBack_shortestDecimal m)
  unfold Numeral.value Binary64.ofDecimal Binary64.round
  dsimp only
  rw [getD_fraction_numeral, dif_pos (by rw [hunits]; exact m.bounded)]
  exact congrArg (Binary64.finite false) (Magnitude.ext_units hunits)

/-- A magnitude is written with a digit or a point first. -/
theorem render_eq_cons (m : Magnitude) :
    ∃ d ds, m.render = d :: ds ∧ (d.isDigit = true ∨ d = '.') := by
  obtain ⟨d, ds, hd⟩ := List.exists_cons_of_ne_nil m.proper_numeral.text_ne_nil
  refine ⟨d, ds, by rw [← m.text_numeral, hd], m.proper_numeral.mem_text ?_⟩
  rw [hd]
  exact List.mem_cons_self

/-- A magnitude is read back from its written form. -/
theorem unsigned?_render (m : Magnitude) :
    Binary64.ofText?.unsigned? m.render = some (.finite false m) := by
  rw [← m.text_numeral, m.proper_numeral.unsigned?_text, m.value_numeral]

end Magnitude

/-- **A number is read back from its written form**, the sign of a zero included. -/
theorem Binary64.ofText?_render (x : Binary64) : ofText? x.render = some x := by
  cases x with
  | nan => rfl
  | infinite s => cases s <;> rfl
  | finite s m =>
    obtain ⟨d, ds, hd, hnumeral⟩ := m.render_eq_cons
    have hread := m.unsigned?_render
    rw [hd] at hread
    have hne : d ≠ 'N' ∧ d ≠ 'i' ∧ d ≠ '-' := by
      rcases hnumeral with hdigit | rfl
      · refine ⟨?_, ?_, ?_⟩ <;> rintro rfl <;> cases hdigit
      · decide
    cases s with
    | false =>
      rw [render, if_neg (by decide), hd]
      unfold ofText?
      split
      · next heq => cases heq; exact absurd rfl hne.1
      · next heq => cases heq; exact absurd rfl hne.2.1
      · next heq => cases heq; exact absurd rfl hne.2.2
      · next heq => cases heq; exact absurd rfl hne.2.2
      · exact hread
    | true =>
      rw [render, if_pos rfl, hd]
      unfold ofText?
      split
      · next heq => cases heq
      · next heq => cases heq
      · next heq => cases heq; exact absurd rfl hne.2.1
      · next heq =>
        cases heq
        rw [hread]
        rfl
      · next hminus => exact absurd rfl (hminus _)

end Abacus
