/-
# Values are written on one line

A magnitude is written with digits and a point.  Signs, brackets, commas, blanks, slashes and the words
for what is not finite are all that is added, so no value is written with a line feed.

Main statement: `Value.newline_notMem_render`.
-/
import Abacus.Proofs.Value.Characters

namespace Abacus

theorem Magnitude.newline_notMem_render (m : Magnitude) : '\n' ∉ m.render := by
  intro h
  rcases Magnitude.mem_render h with hdigit | hpoint
  · cases hdigit
  · cases hpoint

theorem Binary64.newline_notMem_render (x : Binary64) : '\n' ∉ x.render := by
  cases x with
  | nan => decide
  | infinite s => cases s <;> decide
  | finite s m =>
    have hminus : '\n' ≠ '-' := by decide
    cases s with
    | false => exact m.newline_notMem_render
    | true => exact List.not_mem_cons_of_ne_of_not_mem hminus m.newline_notMem_render

/-- **Values are written on one line.** -/
theorem Value.newline_notMem_render (v : Value) : '\n' ∉ v.render := by
  have hmarks : '\n' ∉ Text.marks := by decide
  have hall : ∀ c ∈ v.render, c ≠ '\n' := by
    refine forall_mem_render (fun c hc => ?_) (fun x _ c hc => ?_)
    · rintro rfl
      exact hmarks hc
    · rintro rfl
      exact x.newline_notMem_render hc
  exact fun h => hall '\n' h rfl

end Abacus
