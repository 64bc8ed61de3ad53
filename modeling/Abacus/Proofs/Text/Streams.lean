/-
# Lines that are written and lines that are streamed

A program that writes lines ends each of them with a line feed.  If none has a line feed of its own, the
lines that were written are found again when the output is cut, one by one and in order.

A stream is cut before it is decoded, behind every byte of a line feed.  In UTF-8 that byte stands for a
line feed and is part of no other character, so the pieces of the bytes are the bytes of the lines, and
each of them is a text.

Main statements:

* `linesWithEnds_flatMap`: lines that are written are found again;
* `newline_notMem_of_mem_lines`: no line of a text has a line feed in it;
* `cutAfter_bytes`: the bytes of a text are cut into the bytes of its lines.
-/
import Abacus.Proofs.Text.Boundaries
import Abacus.Proofs.Text.Lines

namespace Abacus
namespace Text

/-! ## 1. Pieces without marks -/

section Pieces

variable {α : Type} [DecidableEq α] {mark : α} {xs : List α}

/-- Items in front of the first piece. -/
def allOnto (xs : List α) : List (List α) → List (List α)
  | [] => [xs]
  | piece :: pieces => (xs ++ piece) :: pieces

/-- A list without a mark belongs to the first piece of what follows it. -/
theorem cutAfter_append_unmarked (h : mark ∉ xs) (hne : xs ≠ []) (ys : List α) :
    cutAfter mark (xs ++ ys) = allOnto xs (cutAfter mark ys) := by
  induction xs with
  | nil => exact absurd rfl hne
  | cons x xs ih =>
    obtain ⟨hx, hmore⟩ := List.ne_and_not_mem_of_not_mem_cons h
    rw [List.cons_append, cutAfter_other mark (Ne.symm hx)]
    cases xs with
    | nil =>
      rw [List.nil_append]
      cases cutAfter mark ys <;> rfl
    | cons x' xs =>
      rw [ih hmore (by simp)]
      cases cutAfter mark ys <;> rfl

/-- A list without a mark and the mark behind it are one piece. -/
theorem cutAfter_unmarked_mark (h : mark ∉ xs) (ys : List α) :
    cutAfter mark (xs ++ mark :: ys) = (xs ++ [mark]) :: cutAfter mark ys := by
  by_cases hne : xs = []
  · subst hne
    exact cutAfter_mark mark ys
  · rw [cutAfter_append_unmarked h hne, cutAfter_mark]
    rfl

/-- A piece has a mark at its end or nowhere. -/
theorem unmarked_of_mem_cutAfter {piece : List α} (h : piece ∈ cutAfter mark xs) :
    mark ∉ piece ∨ ∃ body, mark ∉ body ∧ piece = body ++ [mark] := by
  induction xs generalizing piece with
  | nil => cases h
  | cons x xs ih =>
    by_cases hx : x = mark
    · subst hx
      rw [cutAfter_mark] at h
      rcases List.mem_cons.mp h with rfl | h
      · exact Or.inr ⟨[], by simp, rfl⟩
      · exact ih h
    · rw [cutAfter_other mark hx] at h
      have hxmark : mark ≠ x := Ne.symm hx
      cases hcut : cutAfter mark xs with
      | nil =>
        rw [hcut, onto, List.mem_singleton] at h
        subst h
        exact Or.inl (by simpa using hxmark)
      | cons first pieces =>
        rw [hcut, onto] at h
        rw [hcut] at ih
        rcases List.mem_cons.mp h with rfl | h
        · rcases ih List.mem_cons_self with hfirst | ⟨body, hbody, rfl⟩
          · exact Or.inl (List.not_mem_cons_of_ne_of_not_mem hxmark hfirst)
          · exact Or.inr ⟨x :: body, List.not_mem_cons_of_ne_of_not_mem hxmark hbody, rfl⟩
        · exact ih (List.mem_cons_of_mem _ h)

/-- If one mark is written as another one, and nothing else has the other one in it, then cutting
behind the one and behind the other comes to the same. -/
theorem cutAfter_flatMap {β : Type} [DecidableEq β] {mark' : β} {f : α → List β}
    (hmark : f mark = [mark']) (hother : ∀ x, x ≠ mark → f x ≠ [] ∧ mark' ∉ f x) (xs : List α) :
    cutAfter mark' (xs.flatMap f) = (cutAfter mark xs).map (fun piece => piece.flatMap f) := by
  induction xs with
  | nil => rfl
  | cons x xs ih =>
    rw [List.flatMap_cons]
    by_cases hx : x = mark
    · subst hx
      rw [hmark, cutAfter_mark, List.singleton_append, cutAfter_mark, ih, List.map_cons]
      simp [hmark]
    · obtain ⟨hne, hfree⟩ := hother x hx
      rw [cutAfter_append_unmarked hfree hne, ih, cutAfter_other mark hx]
      cases cutAfter mark xs with
      | nil => simp [allOnto, onto]
      | cons piece pieces => simp [allOnto, onto]

end Pieces

/-! ## 2. Written lines -/

/-- **Lines that are written** are found again. -/
theorem linesWithEnds_flatMap {texts : List Text} (h : ∀ text ∈ texts, '\n' ∉ text) :
    linesWithEnds (texts.flatMap (fun text => text ++ ['\n']))
      = texts.map (fun text => text ++ ['\n']) := by
  induction texts with
  | nil => rfl
  | cons text texts ih =>
    obtain ⟨hfirst, hmore⟩ := List.forall_mem_cons.mp h
    have hcut := cutAfter_unmarked_mark hfirst (texts.flatMap (fun text => text ++ ['\n']))
    rw [List.flatMap_cons, List.map_cons, ← ih hmore, List.append_assoc, List.singleton_append]
    exact hcut

/-- No line of a text has a line feed in it. -/
theorem newline_notMem_of_mem_lines {text line : Text} (h : line ∈ lines text) : '\n' ∉ line := by
  obtain ⟨piece, hpiece, rfl⟩ := List.mem_map.mp h
  have hends := unmarked_of_mem_cutAfter hpiece
  have hreverse : ∀ rest, piece.reverse = '\n' :: rest → '\n' ∉ rest := by
    intro rest hrest
    rcases hends with hfree | ⟨body, hbody, rfl⟩
    · refine absurd ?_ hfree
      rw [← List.mem_reverse, hrest]
      exact List.mem_cons_self
    · rw [List.reverse_append] at hrest
      cases hrest
      simpa using hbody
  unfold stripLineEnd
  split
  · next rest hrest =>
    have hmore := hreverse _ hrest
    simpa using fun hmem => hmore (List.mem_cons_of_mem _ hmem)
  · next rest _ hrest =>
    simpa using hreverse _ hrest
  · next hplain =>
    rcases hends with hfree | ⟨body, hbody, rfl⟩
    · exact hfree
    · exact absurd (by simp) (hplain body.reverse)

/-! ## 3. Bytes -/

/-- **The bytes of a text** are cut into the bytes of its lines. -/
theorem cutAfter_bytes (text : Text) :
    cutAfter 10 (bytes text) = (linesWithEnds text).map bytes := by
  refine cutAfter_flatMap (f := String.utf8EncodeChar) (by decide) (fun c hc => ⟨?_, ?_⟩) text
  · rw [← List.length_pos_iff, String.length_utf8EncodeChar]
    exact c.utf8Size_pos
  · exact fun h => hc (eq_of_mem_utf8EncodeChar (by decide) h)

end Text
end Abacus
