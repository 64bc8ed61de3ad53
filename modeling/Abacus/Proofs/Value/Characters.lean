/-
# The characters of a written value

A value is written with the characters of its numbers and a few marks of its own: brackets, commas,
blanks and slashes.  What holds of all of these holds of every character of the written form, so a
question about written values is a question about written numbers.

A magnitude is written with digits and a point.  So a finite value is written without a letter, in
place of a name as well, where parentheses are added.

Main statements:

* `Value.forall_mem_render`: a property of the marks and of the characters of the numbers;
* `Value.isAlpha_of_mem_inPlace`: no letter is written for a finite value.
-/
import Abacus.Proofs.Value.Spelling

namespace Abacus

/-! ## 1. Marks and numbers -/

/-- The characters that lists and fractions are written with, apart from their numbers. -/
def Text.marks : List Char := ['[', ']', ',', ' ', '/']

namespace Value

/-- The numbers that a value consists of. -/
def numbers : Value → List Binary64
  | scalar x => [x]
  | vector xs => xs
  | matrix m => m.rows.flatten
  | rational q => [q.numerator, q.denominator]

/-- A value is finite if its numbers are. -/
theorem isFinite_of_mem_numbers {v : Value} (h : v.isFinite = true) {x : Binary64}
    (hx : x ∈ v.numbers) : x.isFinite = true := by
  cases v with
  | scalar y =>
    obtain rfl := List.mem_singleton.mp hx
    exact h
  | vector xs => exact List.all_eq_true.mp h x hx
  | matrix m =>
    obtain ⟨row, hrow, hmem⟩ := List.mem_flatten.mp hx
    exact List.all_eq_true.mp (List.all_eq_true.mp h row hrow) x hmem
  | rational q =>
    obtain ⟨hnum, hden⟩ := Bool.and_eq_true_iff.mp h
    rcases List.mem_pair.mp hx with rfl | rfl
    · exact hnum
    · exact hden

end Value

/-! ## 2. Written lists and values -/

section Property

variable {P : Char → Prop} (hmark : ∀ c ∈ Text.marks, P c)

include hmark

theorem Text.forall_mem_commaJoin {items : List Text} (h : ∀ item ∈ items, ∀ c ∈ item, P c) :
    ∀ c ∈ Text.commaJoin items, P c := by
  induction items with
  | nil => simp [Text.commaJoin]
  | cons item items ih =>
    obtain ⟨hfirst, hmore⟩ := List.forall_mem_cons.mp h
    cases items with
    | nil => exact hfirst
    | cons next items =>
      refine List.forall_mem_append.mpr ⟨hfirst, List.forall_mem_cons.mpr ⟨hmark ',' (by decide), ?_⟩⟩
      exact List.forall_mem_cons.mpr ⟨hmark ' ' (by decide), ih hmore⟩

theorem Text.forall_mem_bracketed {items : List Text} (h : ∀ item ∈ items, ∀ c ∈ item, P c) :
    ∀ c ∈ Text.bracketed items, P c := by
  refine List.forall_mem_append.mpr ⟨List.forall_mem_cons.mpr ⟨hmark '[' (by decide), ?_⟩, ?_⟩
  · exact Text.forall_mem_commaJoin hmark h
  · exact List.forall_mem_singleton.mpr (hmark ']' (by decide))

theorem forall_mem_renderRow {xs : List Binary64} (h : ∀ x ∈ xs, ∀ c ∈ x.render, P c) :
    ∀ c ∈ renderRow xs, P c :=
  Text.forall_mem_bracketed hmark (List.forall_mem_map.mpr h)

/-- **What holds of the marks and of the characters of the numbers** holds of every character of a
written value. -/
theorem Value.forall_mem_render {v : Value} (h : ∀ x ∈ v.numbers, ∀ c ∈ x.render, P c) :
    ∀ c ∈ v.render, P c := by
  cases v with
  | scalar x => exact h x List.mem_cons_self
  | vector xs => exact forall_mem_renderRow hmark h
  | matrix m =>
    refine Text.forall_mem_bracketed hmark (List.forall_mem_map.mpr fun row hrow => ?_)
    exact forall_mem_renderRow hmark fun x hx => h x (List.mem_flatten.mpr ⟨row, hrow, hx⟩)
  | rational q =>
    refine List.forall_mem_append.mpr ⟨h _ List.mem_cons_self, ?_⟩
    exact List.forall_mem_cons.mpr
      ⟨hmark '/' (by decide), h _ (List.mem_cons_of_mem _ List.mem_cons_self)⟩

end Property

/-! ## 3. Letters -/

theorem Magnitude.isAlpha_of_mem_render {m : Magnitude} {c : Char} (h : c ∈ m.render) :
    c.isAlpha = false := by
  rcases Magnitude.mem_render h with hdigit | rfl
  · exact Token.isAlpha_of_isDigit hdigit
  · rfl

theorem Binary64.isAlpha_of_mem_render {x : Binary64} (hx : x.isFinite = true) :
    ∀ c ∈ x.render, c.isAlpha = false := by
  obtain ⟨s, m, rfl⟩ := Binary64.exists_finite hx
  cases s with
  | false => exact fun c => Magnitude.isAlpha_of_mem_render
  | true => exact List.forall_mem_cons.mpr ⟨rfl, fun c => Magnitude.isAlpha_of_mem_render⟩

theorem Text.isAlpha_of_mem_marks {c : Char} (h : c ∈ Text.marks) : c.isAlpha = false := by
  simp only [marks, List.mem_cons, List.not_mem_nil, or_false] at h
  rcases h with rfl | rfl | rfl | rfl | rfl <;> rfl

namespace Value

theorem isAlpha_of_mem_render {v : Value} (h : v.isFinite = true) :
    ∀ c ∈ v.render, c.isAlpha = false :=
  forall_mem_render (fun _ => Text.isAlpha_of_mem_marks) fun _ hx =>
    Binary64.isAlpha_of_mem_render (isFinite_of_mem_numbers h hx)

/-- **No letter is written for a finite value** in place of a name. -/
theorem isAlpha_of_mem_inPlace {v : Value} (h : v.isFinite = true) :
    ∀ c ∈ v.inPlace, c.isAlpha = false := by
  have hrender := isAlpha_of_mem_render h
  have hparens : ∀ c ∈ '(' :: v.render ++ [')'], c.isAlpha = false :=
    List.forall_mem_append.mpr
      ⟨List.forall_mem_cons.mpr ⟨rfl, hrender⟩, List.forall_mem_singleton.mpr rfl⟩
  cases v with
  | scalar x =>
    unfold inPlace
    dsimp only
    split
    · exact hparens
    · exact hrender
  | vector xs => exact hrender
  | matrix m => exact hrender
  | rational q => exact hparens

end Value

end Abacus
