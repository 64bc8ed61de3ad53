/-
# Reading numerals

A numeral ends where neither a digit nor a point follows.  In front of such a text it is read back as
it was written, and nothing is read where no numeral starts.

Main statements: `Numeral.ofText_append` and `Numeral.proper_ofText`: numerals are what is read from
their written form, and what is read with a digit in it is a numeral.
-/
import Mathlib.Data.List.TakeWhile
import Abacus.Numeral

namespace Abacus

/-! ## 1. Runs of characters -/

/-- A run of characters of a class ends where the next character is not of the class. -/
theorem span_append {p : Char → Bool} {run rest : Text} (hrun : ∀ c ∈ run, p c = true)
    (hrest : ∀ c ∈ rest.head?, p c = false) :
    (run ++ rest).takeWhile p = run ∧ (run ++ rest).dropWhile p = rest := by
  rw [List.takeWhile_append_of_pos hrun, List.dropWhile_append_of_pos hrun]
  cases rest with
  | nil => simp
  | cons c rest =>
    have hc : p c = false := hrest c rfl
    simp [hc]

/-- What is left behind a run does not continue it. -/
theorem head?_dropWhile_eq_false (p : Char → Bool) (cs : Text) :
    ∀ c ∈ (cs.dropWhile p).head?, p c = false := by
  intro c hc
  have := List.head?_dropWhile_not p cs
  rw [Option.mem_def.mp hc] at this
  simpa using this

/-! ## 2. Numerals and what follows them -/

namespace Numeral

/-- A numeral of digits only, with at least one of them. -/
structure Proper (n : Numeral) : Prop where
  whole : ∀ c ∈ n.whole, c.isDigit = true
  fraction : ∀ digits, n.fraction = some digits → ∀ c ∈ digits, c.isDigit = true
  hasDigit : n.hasDigit = true

/-- The text does not continue a numeral: it starts neither with a digit nor with a point. -/
def Ends (rest : Text) : Prop := ∀ c ∈ rest.head?, c.isDigit = false ∧ c ≠ '.'

/-- A numeral is read back in front of a text that does not continue it. -/
theorem ofText_append {n : Numeral} (hn : n.Proper) {rest : Text} (hrest : Ends rest) :
    ofText (n.text ++ rest) = (n, rest) := by
  obtain ⟨whole, fraction⟩ := n
  have hdigit : ∀ c ∈ rest.head?, c.isDigit = false := fun c hc => (hrest c hc).1
  cases fraction with
  | none =>
    obtain ⟨htake, hdrop⟩ := span_append hn.whole hdigit
    unfold ofText text
    simp only [List.append_nil, htake, hdrop]
    cases rest with
    | nil => rfl
    | cons c rest =>
      have hpoint : c ≠ '.' := (hrest c rfl).2
      split
      · next heq =>
        cases heq
        exact absurd rfl hpoint
      · rfl
  | some digits =>
    have hpoint : ∀ c ∈ ('.' :: (digits ++ rest)).head?, c.isDigit = false := by
      intro c hc
      cases hc
      rfl
    obtain ⟨htake, hdrop⟩ := span_append hn.whole hpoint
    obtain ⟨htake', hdrop'⟩ := span_append (hn.fraction digits rfl) hdigit
    unfold ofText text
    simp only [List.append_assoc, List.cons_append, htake, hdrop, htake', hdrop']

/-- Nothing is read in front of a text that does not continue a numeral. -/
theorem ofText_of_ends {cs : Text} (h : Ends cs) : ofText cs = (⟨[], none⟩, cs) := by
  cases cs with
  | nil => rfl
  | cons c cs =>
    obtain ⟨hdigit, hpoint⟩ := h c rfl
    have hdigit' : ¬ c.isDigit = true := by simp [hdigit]
    unfold ofText
    rw [List.takeWhile_cons_of_neg hdigit', List.dropWhile_cons_of_neg hdigit']
    split
    · next heq =>
      cases heq
      exact absurd rfl hpoint
    · rfl

/-- What is read with a digit in it is a numeral. -/
theorem proper_ofText {cs : Text} (h : (ofText cs).1.hasDigit = true) : (ofText cs).1.Proper := by
  refine ⟨?_, ?_, h⟩
  · intro c hc
    have hwhole : (ofText cs).1.whole = cs.takeWhile Char.isDigit := by
      unfold ofText
      dsimp only
      split <;> rfl
    rw [hwhole] at hc
    exact List.mem_takeWhile_imp hc
  · intro digits hdigits c hc
    unfold ofText at hdigits
    dsimp only at hdigits
    split at hdigits
    · cases hdigits
      exact List.mem_takeWhile_imp hc
    · cases hdigits

/-- A numeral consists of digits and points. -/
theorem Proper.mem_text {n : Numeral} (h : n.Proper) {c : Char} (hc : c ∈ n.text) :
    c.isDigit = true ∨ c = '.' := by
  obtain ⟨whole, fraction⟩ := n
  rw [text, List.mem_append] at hc
  rcases hc with hc | hc
  · exact Or.inl (h.whole c hc)
  · cases fraction with
    | none => cases hc
    | some digits =>
      rcases List.mem_cons.mp hc with rfl | hc
      · exact Or.inr rfl
      · exact Or.inl (h.fraction digits rfl c hc)

/-- A numeral is not empty. -/
theorem Proper.text_ne_nil {n : Numeral} (h : n.Proper) : n.text ≠ [] := by
  obtain ⟨whole, fraction⟩ := n
  have hdigit : Numeral.hasDigit ⟨whole, fraction⟩ = true := h.hasDigit
  intro hnil
  obtain ⟨rfl, hfraction⟩ := List.append_eq_nil_iff.mp hnil
  cases fraction with
  | none => cases hdigit
  | some digits => cases hfraction

/-- The number that a numeral writes is its value. -/
theorem Proper.unsigned?_text {n : Numeral} (h : n.Proper) :
    Binary64.ofText?.unsigned? n.text = some n.value := by
  have hends : Ends [] := fun c hc => by cases hc
  have hread := ofText_append h hends
  rw [List.append_nil] at hread
  unfold Binary64.ofText?.unsigned?
  rw [hread]
  exact if_pos h.hasDigit

/-- A numeral is none of the words that write a number, and it has no sign. -/
theorem Proper.ofText?_text {n : Numeral} (h : n.Proper) :
    Binary64.ofText? n.text = some n.value := by
  have hplain : ∀ c ∈ n.text, c ≠ 'N' ∧ c ≠ 'i' ∧ c ≠ '-' := by
    intro c hc
    rcases h.mem_text hc with hdigit | rfl
    · refine ⟨?_, ?_, ?_⟩ <;> (rintro rfl; cases hdigit)
    · decide
  have hread := h.unsigned?_text
  unfold Binary64.ofText?
  split
  · next htext =>
    rw [htext] at hplain
    exact absurd rfl (hplain 'N' (by simp)).1
  · next htext =>
    rw [htext] at hplain
    exact absurd rfl (hplain 'i' (by simp)).2.1
  · next htext =>
    rw [htext] at hplain
    exact absurd rfl (hplain '-' (by simp)).2.2
  · next htext =>
    rw [htext] at hplain
    exact absurd rfl (hplain '-' (by simp)).2.2
  · exact hread

end Numeral

end Abacus
