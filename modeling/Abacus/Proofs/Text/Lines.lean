/-
# Lines of texts that are put together

A text is cut behind every line feed.  Cutting and putting together are inverse to each other as long
as only whole lines are put together, so the first lines of a text are a text with these lines.  A
line feed behind a text closes its last line, or adds an empty line if there is none to close; a
second text behind that starts on a line of its own.

There is one exception.  A line feed takes a carriage return right before it along, so a text that
ends in a carriage return loses it when a line feed is put behind it.

Main statements:

* `lines_firstLines`: the lines of the first lines of a text;
* `lines_append_newline`: the lines of two texts with a line feed between them;
* `lines_newline`: what a line feed does to the lines in front of it.
-/
import Mathlib.Data.List.Basic
import Abacus.Text

namespace Abacus
namespace Text

/-! ## 1. Pieces -/

section Pieces

variable {α : Type} [DecidableEq α] (mark : α)

/-- An item in front of the first piece. -/
def onto (x : α) : List (List α) → List (List α)
  | [] => [[x]]
  | piece :: pieces => (x :: piece) :: pieces

theorem cutAfter_mark (xs : List α) : cutAfter mark (mark :: xs) = [mark] :: cutAfter mark xs := by
  rw [cutAfter, if_pos rfl]

theorem cutAfter_other {x : α} (h : x ≠ mark) (xs : List α) :
    cutAfter mark (x :: xs) = onto x (cutAfter mark xs) := by
  rw [cutAfter, if_neg h]
  cases cutAfter mark xs <;> rfl

/-- What stands behind a mark is cut on its own. -/
theorem cutAfter_append_mark (xs ys : List α) :
    cutAfter mark (xs ++ mark :: ys) = cutAfter mark (xs ++ [mark]) ++ cutAfter mark ys := by
  induction xs with
  | nil =>
    rw [List.nil_append, List.nil_append, cutAfter_mark, cutAfter_mark]
    rfl
  | cons x xs ih =>
    rw [List.cons_append, List.cons_append]
    by_cases h : x = mark
    · subst h
      rw [cutAfter_mark, cutAfter_mark, ih]
      rfl
    · rw [cutAfter_other mark h, cutAfter_other mark h, ih]
      cases hcut : cutAfter mark (xs ++ [mark]) with
      | nil =>
        have hflat := flatten_cutAfter mark (xs ++ [mark])
        rw [hcut] at hflat
        simp at hflat
      | cons piece pieces => rfl

/-- There is one piece for each mark, if the last item is one. -/
theorem length_cutAfter_mark (xs : List α) :
    (cutAfter mark (xs ++ [mark])).length = xs.count mark + 1 := by
  induction xs with
  | nil =>
    rw [List.nil_append, cutAfter_mark]
    rfl
  | cons x xs ih =>
    rw [List.cons_append]
    by_cases h : x = mark
    · subst h
      rw [cutAfter_mark, List.length_cons, ih, List.count_cons_self]
    · rw [cutAfter_other mark h, List.count_cons_of_ne h, ← ih]
      cases hcut : cutAfter mark (xs ++ [mark]) with
      | nil =>
        rw [hcut] at ih
        cases ih
      | cons piece pieces => rfl

/-- The first pieces, put together, are cut into themselves. -/
theorem cutAfter_flatten_take (xs : List α) (n : Nat) :
    cutAfter mark ((cutAfter mark xs).take n).flatten = (cutAfter mark xs).take n := by
  induction xs generalizing n with
  | nil =>
    rw [cutAfter, List.take_nil]
    rfl
  | cons x xs ih =>
    cases n with
    | zero => rfl
    | succ n =>
      by_cases h : x = mark
      · subst h
        rw [cutAfter_mark, List.take_succ_cons, List.flatten_cons, List.cons_append,
          List.nil_append, cutAfter_mark, ih n]
      · rw [cutAfter_other mark h]
        have hmore := ih (n + 1)
        cases hcut : cutAfter mark xs with
        | nil =>
          rw [onto, List.take_succ_cons, List.take_nil]
          exact cutAfter_other mark h []
        | cons piece pieces =>
          rw [hcut, List.take_succ_cons, List.flatten_cons] at hmore
          rw [onto, List.take_succ_cons, List.flatten_cons, List.cons_append,
            cutAfter_other mark h, hmore]
          rfl

/-- A mark at the end is a piece of its own, or it closes the last piece. -/
theorem cutAfter_closed (xs : List α) :
    cutAfter mark (xs ++ [mark]) = cutAfter mark xs ++ [[mark]] ∨
      ∃ before last, cutAfter mark xs = before ++ [last] ∧
        cutAfter mark (xs ++ [mark]) = before ++ [last ++ [mark]] ∧
          last ≠ [] ∧ last.getLast? = xs.getLast? ∧ last.getLast? ≠ some mark := by
  induction xs with
  | nil =>
    rw [List.nil_append, cutAfter_mark]
    exact Or.inl rfl
  | cons x xs ih =>
    have hlast : ∀ {last : List α}, last ≠ [] → last.getLast? = xs.getLast? →
        last.getLast? = (x :: xs).getLast? := by
      intro last hne heq
      cases xs with
      | nil => exact absurd (List.getLast?_eq_none_iff.mp heq) hne
      | cons y ys => rw [heq, List.getLast?_cons_cons]
    rw [List.cons_append]
    by_cases h : x = mark
    · subst h
      rw [cutAfter_mark, cutAfter_mark]
      rcases ih with hown | ⟨before, last, hcut, hclosed, hne, heq, hmark⟩
      · rw [hown]
        exact Or.inl rfl
      · rw [hcut, hclosed]
        exact Or.inr ⟨[x] :: before, last, rfl, rfl, hne, hlast hne heq, hmark⟩
    · rw [cutAfter_other mark h, cutAfter_other mark h]
      rcases ih with hown | ⟨before, last, hcut, hclosed, hne, heq, hmark⟩
      · rw [hown]
        cases hcut : cutAfter mark xs with
        | nil =>
          have hnil : xs = [] := by
            rw [← flatten_cutAfter mark xs, hcut]
            rfl
          subst hnil
          exact Or.inr ⟨[], [x], rfl, rfl, by simp, rfl, by simpa using h⟩
        | cons piece pieces => exact Or.inl rfl
      · rw [hcut, hclosed]
        cases before with
        | nil =>
          have hsame : (x :: last).getLast? = last.getLast? := by
            cases last with
            | nil => exact absurd rfl hne
            | cons y ys => rw [List.getLast?_cons_cons]
          refine Or.inr ⟨[], x :: last, rfl, rfl, by simp, ?_, ?_⟩
          · rw [hsame, hlast hne heq]
          · rwa [hsame]
        | cons piece before =>
          exact Or.inr ⟨(x :: piece) :: before, last, rfl, rfl, hne, hlast hne heq, hmark⟩

end Pieces

/-! ## 2. Lines -/

/-- The first lines of a text, with their ends. -/
def firstLines (n : Nat) (text : Text) : Text := ((linesWithEnds text).take n).flatten

/-- **The lines of the first lines** of a text are its first lines. -/
theorem lines_firstLines (n : Nat) (text : Text) :
    lines (firstLines n text) = (lines text).take n := by
  unfold lines firstLines linesWithEnds
  rw [cutAfter_flatten_take, List.map_take]

/-- **Two texts with a line feed between them** have the lines of the first with the line feed, and
then those of the second. -/
theorem lines_append_newline (s t : Text) :
    lines (s ++ '\n' :: t) = lines (s ++ ['\n']) ++ lines t := by
  unfold lines linesWithEnds
  rw [cutAfter_append_mark, List.map_append]

theorem length_lines_newline (s : Text) : (lines (s ++ ['\n'])).length = s.count '\n' + 1 := by
  unfold lines linesWithEnds
  rw [List.length_map, length_cutAfter_mark]

theorem stripLineEnd_newline {line : Text} (h : line.getLast? ≠ some '\r') :
    stripLineEnd (line ++ ['\n']) = line := by
  unfold stripLineEnd
  rw [List.reverse_append, List.reverse_singleton, List.singleton_append]
  split
  · next rest heq =>
    refine absurd ?_ h
    rw [List.getLast?_eq_head?_reverse, (List.cons.inj heq).2]
    rfl
  · next rest _ heq => rw [← (List.cons.inj heq).2, List.reverse_reverse]
  · next hnewline => exact absurd rfl (hnewline _)

theorem stripLineEnd_of_getLast? {line : Text} (h : line.getLast? ≠ some '\n') :
    stripLineEnd line = line := by
  have hreverse : ∀ rest, line.reverse ≠ '\n' :: rest := by
    intro rest heq
    refine absurd ?_ h
    rw [List.getLast?_eq_head?_reverse, heq]
    rfl
  unfold stripLineEnd
  split
  · next heq => exact absurd heq (hreverse _)
  · next heq => exact absurd heq (hreverse _)
  · rfl

/-- **A line feed behind a text** leaves its lines as they are, or adds an empty one. -/
theorem lines_newline {s : Text} (h : s.getLast? ≠ some '\r') :
    lines (s ++ ['\n']) = lines s ∨ lines (s ++ ['\n']) = lines s ++ [[]] := by
  unfold lines linesWithEnds
  rcases cutAfter_closed '\n' s with hown | ⟨before, last, hcut, hclosed, -, heq, hmark⟩
  · rw [hown, List.map_append]
    exact Or.inr rfl
  · rw [hcut, hclosed, List.map_append, List.map_append, List.map_singleton, List.map_singleton,
      stripLineEnd_newline (heq ▸ h), stripLineEnd_of_getLast? hmark]
    exact Or.inl rfl

end Text
end Abacus
