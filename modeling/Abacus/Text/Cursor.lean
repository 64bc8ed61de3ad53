/-
# Cursors

A cursor is a place in a text: the number of bytes before it and the characters ahead of it.  Moving
a cursor takes characters off the front of what lies ahead and counts their bytes.  A cursor may be
set past the end of the text, where nothing lies ahead.

Main statement: `Cursor.reaches_trans` and its companions: every move of this module leads from a
cursor to one that it `Reaches`, that is, to one with less text ahead and with the bytes of the
difference counted.  `Passes` says besides what was in the way.
-/
import Abacus.Position
import Abacus.Text

namespace Abacus

/-- A place in a text. -/
structure Cursor where
  /-- The bytes before the cursor. -/
  offset : Nat
  /-- What lies ahead. -/
  rest : Text
  deriving DecidableEq

namespace Cursor

/-! ## 1. Setting and moving a cursor -/

/-- The cursor before the first character. -/
def start (text : Text) : Cursor := ⟨0, text⟩

/-- The cursor at a byte offset. -/
def ofOffset (text : Text) (offset : Nat) : Cursor := ⟨offset, Text.dropBytes offset text⟩

/-- The cursor behind a run of characters. -/
def skipWhile (p : Char → Bool) (c : Cursor) : Cursor :=
  ⟨c.offset + Text.byteLength (c.rest.takeWhile p), c.rest.dropWhile p⟩

/-- The cursor behind spaces and tabs. -/
def skipBlanks (c : Cursor) : Cursor := c.skipWhile Text.isBlank

/-- The cursor behind an expected character, if that is the next one. -/
def take? (c : Cursor) (expected : Char) : Option Cursor :=
  match c.rest with
  | [] => none
  | next :: rest => if next = expected then some ⟨c.offset + next.utf8Size, rest⟩ else none

/-- The next character. -/
def peek? (c : Cursor) : Option Char := c.rest.head?

/-- Nothing lies ahead. -/
def atEnd (c : Cursor) : Bool := c.rest.isEmpty

/-- The position of the cursor in a text whose first byte is at `origin`. -/
def position (c : Cursor) (origin : Position) : Position := origin.advance c.offset

/-! ## 2. Moving forward -/

/-- The second cursor lies further on in the same text. -/
def Reaches (a b : Cursor) : Prop :=
  ∃ taken, a.rest = taken ++ b.rest ∧ b.offset = a.offset + Text.byteLength taken

/-- The second cursor lies further on, and what lies between the two is all of a class. -/
def Passes (P : Char → Prop) (a b : Cursor) : Prop :=
  ∃ taken, a.rest = taken ++ b.rest ∧ b.offset = a.offset + Text.byteLength taken ∧
    ∀ c ∈ taken, P c

theorem reaches_iff {a b : Cursor} : Reaches a b ↔ Passes (fun _ => True) a b := by
  simp only [Reaches, Passes, implies_true, and_true]

section Passes

variable {P : Char → Prop} {a b c : Cursor}

theorem Passes.trans (hab : Passes P a b) (hbc : Passes P b c) : Passes P a c := by
  obtain ⟨s, hs, hso, hsP⟩ := hab
  obtain ⟨t, ht, hto, htP⟩ := hbc
  refine ⟨s ++ t, ?_, ?_, List.forall_mem_append.mpr ⟨hsP, htP⟩⟩
  · rw [hs, ht, List.append_assoc]
  · rw [hto, hso, Text.byteLength_append, Nat.add_assoc]

theorem passes_skipWhile {p : Char → Bool} (hp : ∀ d, p d = true → P d) (c : Cursor) :
    Passes P c (c.skipWhile p) :=
  ⟨c.rest.takeWhile p, List.takeWhile_append_dropWhile.symm, rfl,
    fun d hd => hp d (List.all_eq_true.mp List.all_takeWhile d hd)⟩

theorem passes_skipBlanks (hblank : ∀ d, Text.isBlank d = true → P d) (c : Cursor) :
    Passes P c c.skipBlanks :=
  passes_skipWhile hblank c

theorem passes_take? {expected : Char} (hexpected : P expected) (h : a.take? expected = some b) :
    Passes P a b := by
  unfold take? at h
  split at h
  · cases h
  · next next rest hrest =>
    split at h
    · next heq =>
      subst heq
      cases h
      exact ⟨[next], hrest, by simp, List.forall_mem_singleton.mpr hexpected⟩
    · cases h

end Passes

theorem reaches_refl (a : Cursor) : Reaches a a := ⟨[], by simp, by simp⟩

theorem reaches_trans {a b c : Cursor} (hab : Reaches a b) (hbc : Reaches b c) : Reaches a c :=
  reaches_iff.mpr ((reaches_iff.mp hab).trans (reaches_iff.mp hbc))

theorem reaches_skipWhile (p : Char → Bool) (c : Cursor) : Reaches c (c.skipWhile p) :=
  reaches_iff.mpr (passes_skipWhile (fun _ _ => trivial) c)

theorem reaches_skipBlanks (c : Cursor) : Reaches c c.skipBlanks := c.reaches_skipWhile _

theorem reaches_take? {c d : Cursor} {expected : Char} (h : c.take? expected = some d) :
    Reaches c d :=
  reaches_iff.mpr (passes_take? trivial h)

end Cursor
end Abacus
