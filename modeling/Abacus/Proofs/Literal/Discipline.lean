/-
# The discipline of cursors

A scanner moves a cursor over the bytes of any text, and it starts anywhere past the end or on a character
boundary.  It terminates there with every check passed, and it leaves the cursor no further back than it
was, no further on than the end of the text, and on a character boundary again.  If it finds a literal, all
the bytes that it has passed over are ASCII bytes; if it is a scanner of numbers or names and finds none,
the cursor stays in its place.

All of this follows from what is known of the scanners over characters, because the scanners over bytes
track them.  There is one exception.  A single expected byte is looked for whatever it is, so one that is
the first of several bytes of a character can be passed by itself, and then the cursor is left inside that
character.  This takes a byte of 128 or above; every byte that the scanners expect is an ASCII byte.

Main statements:

* `ByteScanner.disciplined_of_tracks`: the discipline of a scanner that tracks one over characters;
* `ByteScanner.moves_of_consume`: a single expected byte;
* `ByteScanner.cursors_disciplined`: the scanners and the search for a closing bracket.
-/
import Abacus.Proofs.Literal.Brackets
import Abacus.Proofs.Literal.Tracking

namespace Abacus

open Text (byteLength byteAt? consumeByte? bytes IsBoundary IsAscii)

/-! ## 1. Moves of a cursor -/

/-- A cursor that has moved lies further on, and not behind the end of the text unless it was there. -/
structure MovesWithin (text : Text) (start stop : Nat) : Prop where
  forward : start ≤ stop
  bounded : stop ≤ max start (byteLength text)

/-- A cursor has moved and is on a character boundary if it is inside the text. -/
structure MovesToBoundary (text : Text) (start stop : Nat) : Prop extends MovesWithin text start stop where
  boundary : stop < byteLength text → IsBoundary text stop

/-- All bytes between two offsets are ASCII bytes of the text. -/
def AsciiBetween (text : Text) (start stop : Nat) : Prop :=
  ∀ k, start ≤ k → k < stop → ∃ byte, byteAt? text k = some byte ∧ byte < 128

namespace Cursor

variable {text : Text} {c d : Cursor}

theorem On.moves (hc : On text c) (h : Reaches c d) : MovesToBoundary text c.offset d.offset where
  forward := offset_le_of_reaches h
  bounded := by
    obtain ⟨taken, hrest, hoffset⟩ := h
    rcases hc with ⟨front, rfl, hfront⟩ | ⟨hnil, -⟩
    · refine Nat.le_trans ?_ (Nat.le_max_right _ _)
      rw [hoffset, ← hfront, hrest, Text.byteLength_append, Text.byteLength_append]
      omega
    · obtain ⟨rfl, -⟩ := List.append_eq_nil_iff.mp (hrest.symm.trans hnil)
      rw [hoffset]
      exact Nat.le_max_left _ _
  boundary := (hc.of_reaches h).isBoundary

theorem On.asciiBetween (hc : On text c) (h : Passes IsAscii c d) :
    AsciiBetween text c.offset d.offset := by
  obtain ⟨taken, hrest, hoffset, hascii⟩ := h
  intro k hle hlt
  obtain ⟨j, rfl⟩ := Nat.exists_eq_add_of_le hle
  have hj : j < (bytes taken).length := by
    rw [Text.length_bytes]
    omega
  have hbytes : bytes c.rest = bytes taken ++ bytes d.rest := by simp [hrest, bytes]
  refine ⟨(bytes taken)[j], ?_, Text.bytes_of_isAscii hascii _ (List.getElem_mem hj)⟩
  rw [byteAt?, ← List.getElem?_drop, hc.drop_bytes, hbytes, List.getElem?_append_left hj,
    List.getElem?_eq_getElem hj]

end Cursor

namespace ByteScanner

/-! ## 2. Scanners -/

variable {α : Type} {text : Text} {origin : Position} {start : Nat}

/-- From an offset, the scanner has the outcome of a scan: it terminates with every check passed, its
cursor moves to a boundary, and what it finds it finds by passing ASCII bytes only. -/
structure Disciplined (text : Text) (start : Nat) (scanner : ByteScanner α) (scan : Scan α) :
    Prop where
  outcome : scanner.runAt start = some (answer scan)
  moves : MovesToBoundary text start (answer scan).2
  ascii : ∀ x, (answer scan).1 = .ok x → AsciiBetween text start (answer scan).2

/-- A scan that fails leaves the cursor in its place. -/
def FailsInPlace (start : Nat) (scan : Scan α) : Prop :=
  ∀ e, (answer scan).1 = .error e → (answer scan).2 = start

theorem disciplined_of_tracks {scanner : ByteScanner α} {c : Cursor} {scan : Scan α}
    (hc : c.On text) (htracks : Tracks scanner c scan) (hwithin : scan.Within IsAscii c) :
    Disciplined text c.offset scanner scan := by
  refine ⟨htracks, ?_, ?_⟩
  · cases scan with
    | found x after => exact hc.moves (Cursor.Passes.reaches hwithin)
    | failed e stop => exact hc.moves hwithin
  · intro x hx
    cases scan with
    | found y after => exact hc.asciiBetween hwithin
    | failed e stop => cases hx

theorem failsInPlace_of_stop {c : Cursor} {scan : Scan α}
    (h : ∀ e stop, scan = .failed e stop → stop = c) : FailsInPlace c.offset scan := by
  intro e he
  cases scan with
  | found x after => cases he
  | failed e' stop => rw [h e' stop rfl, answer]

theorem within_passed {expected : Char} (hascii : IsAscii expected) (c : Cursor) :
    (passed c (c.take? expected)).Within IsAscii c := by
  cases h : c.take? expected with
  | none => exact ⟨[], rfl, rfl, by simp⟩
  | some after => exact Cursor.passes_take? hascii h

theorem within_named (c : Cursor) : (named c (Literal.name? c)).Within IsAscii c := by
  cases h : Literal.name? c with
  | none => exact ⟨[], rfl, rfl, by simp⟩
  | some found =>
    obtain ⟨name, after⟩ := found
    exact Literal.passes_name? (fun _ => Text.isAscii_of_isWordChar) h

/-- Behind an ASCII byte there is a boundary, and behind the first byte of any other character there is
none. -/
theorem moves_of_byteAt? {byte : UInt8} (hstart : byteLength text ≤ start ∨ IsBoundary text start)
    (hbyte : byteAt? text start = some byte) :
    MovesWithin text start (start + 1) ∧ (byte < 128 → MovesToBoundary text start (start + 1)) ∧
      (128 ≤ byte → ¬ IsBoundary text (start + 1)) := by
  rcases hstart with hpast | ⟨front, rest, rfl, rfl⟩
  · rw [Text.byteAt?_eq_none_iff.mpr hpast] at hbyte
    cases hbyte
  · rw [Text.byteAt?_append] at hbyte
    obtain ⟨x, hx, rfl⟩ := Option.map_eq_some_iff.mp hbyte
    obtain ⟨rest, rfl⟩ := List.head?_eq_some_iff.mp hx
    by_cases hascii : IsAscii x
    · have hhere : Cursor.On (front ++ x :: rest) ⟨byteLength front, x :: rest⟩ :=
        Or.inl ⟨front, rfl, rfl⟩
      have hmoves := hhere.moves (Cursor.passes_ascii hascii _ rest).reaches
      have hsmall : Text.leadByte x < 128 := Text.leadByte_lt_iff.mpr hascii
      exact ⟨hmoves.toMovesWithin, fun _ => hmoves, fun hlarge => absurd hlarge (UInt8.not_le.mpr hsmall)⟩
    · have hlarge : ¬ Text.leadByte x < 128 := mt Text.leadByte_lt_iff.mp hascii
      have hpos := x.utf8Size_pos
      refine ⟨⟨Nat.le_succ _, Nat.le_trans ?_ (Nat.le_max_right _ _)⟩,
        fun hsmall => absurd hsmall hlarge, fun _ => Text.not_isBoundary_succ hascii front rest⟩
      rw [Text.byteLength_append, Text.byteLength_cons]
      omega

/-- **A single expected byte** is passed by itself. -/
theorem moves_of_consume (hstart : byteLength text ≤ start ∨ IsBoundary text start)
    (expected : UInt8) :
    ∃ found stop, (consume text expected).runAt start = some (.ok found, stop) ∧
      MovesWithin text start stop ∧ (expected < 128 → MovesToBoundary text start stop) ∧
      (128 ≤ expected → found = true → ¬ IsBoundary text stop) := by
  have hc := Cursor.on_ofOffset hstart
  by_cases hbyte : byteAt? text start = some expected
  · obtain ⟨hmoves, hsmall, hlarge⟩ := moves_of_byteAt? hstart hbyte
    have hrun : (consume text expected).runAt start = _ :=
      tracks_consume_of_byteAt? (c := Cursor.ofOffset text start) hbyte []
    exact ⟨true, start + 1, hrun, hmoves, hsmall, fun h _ => hlarge h⟩
  · have hstay := hc.moves (Cursor.reaches_refl _)
    have hrun : (consume text expected).runAt start = _ :=
      tracks_consume_of_ne (c := Cursor.ofOffset text start) hbyte
    exact ⟨false, start, hrun, hstay.toMovesWithin, fun _ => hstay, fun _ h => by cases h⟩

/-! ## 3. All of them -/

/-- The discipline of cursors on a text, from an offset: every scanner is disciplined, scanners of numbers
and names fail in place, an expected byte of ASCII is an expected character, and the search for a closing
bracket never counts below zero and finds the first place where as many brackets are closed as opened. -/
structure CursorsDisciplined (text : Text) (origin : Position) (start : Nat) (c : Cursor) : Prop where
  skipBlanks : Disciplined text start (skipBlanks text) (.found () c.skipBlanks)
  consume : ∀ expected : UInt8, ∃ found stop,
    (consume text expected).runAt start = some (.ok found, stop) ∧ MovesWithin text start stop ∧
      (expected < 128 → MovesToBoundary text start stop) ∧
      (128 ≤ expected → found = true → ¬ IsBoundary text stop)
  take? : ∀ expected, IsAscii expected →
    Disciplined text start (ByteScanner.consume text expected.toUInt8) (passed c (c.take? expected))
  number : Disciplined text start (number text origin) (Literal.number origin c) ∧
    FailsInPlace start (Literal.number origin c)
  signedNumber : Disciplined text start (signedNumber text origin) (Literal.signedNumber origin c) ∧
    FailsInPlace start (Literal.signedNumber origin c)
  name? : Disciplined text start (name? text) (named c (Literal.name? c)) ∧
    ∀ stop, (name? text).runAt start = some (.ok none, stop) → stop = start
  vector : Disciplined text start (vector text origin) (Literal.vector origin c)
  matrix : Disciplined text start (matrix text origin) (Literal.matrix origin c)
  rational : Disciplined text start (rational text origin) (Literal.rational origin c)
  closer? : Literal.matchingIndex text start = some ((Literal.closer? c).map Cursor.offset)
  matching : ∀ opener, ∃ result, Literal.matchingIndex text opener = some result ∧
    ∀ stop, result = some stop ↔ IsLeast {stop | Literal.ClosesAt text opener stop} stop

/-- **Cursors are disciplined**, from every offset past the end of a text or on a boundary. -/
theorem cursors_disciplined (text : Text) (origin : Position) (start : Nat)
    (hstart : byteLength text ≤ start ∨ IsBoundary text start) :
    CursorsDisciplined text origin start (Cursor.ofOffset text start) := by
  have hc : (Cursor.ofOffset text start).On text := Cursor.on_ofOffset hstart
  generalize hcursor : Cursor.ofOffset text start = c at hc
  obtain rfl : c.offset = start := by rw [← hcursor]; rfl
  constructor
  case skipBlanks =>
    have hpasses := Cursor.passes_skipBlanks (fun _ => Text.isAscii_of_isBlank) c
    exact disciplined_of_tracks hc (tracks_skipBlanks hc) hpasses
  case consume => exact moves_of_consume hstart
  case take? =>
    intro expected hascii
    exact disciplined_of_tracks hc (tracks_consume hascii hc) (within_passed hascii c)
  case number =>
    have hwithin : (Literal.number origin c).Within IsAscii c :=
      Literal.within_number hasMarks_isAscii c
    exact ⟨disciplined_of_tracks hc (tracks_number hc) hwithin,
      failsInPlace_of_stop fun _ _ => Literal.stop_of_number⟩
  case signedNumber =>
    have hwithin : (Literal.signedNumber origin c).Within IsAscii c :=
      Literal.within_signedNumber hasMarks_isAscii c
    exact ⟨disciplined_of_tracks hc (tracks_signedNumber hc) hwithin,
      failsInPlace_of_stop fun _ _ => Literal.stop_of_signedNumber⟩
  case name? =>
    have htracks : (ByteScanner.name? text).runAt c.offset = _ := tracks_name? hc
    refine ⟨disciplined_of_tracks hc htracks (within_named c), fun stop hnone => ?_⟩
    rw [htracks] at hnone
    cases h : Literal.name? c with
    | none =>
      rw [h] at hnone
      cases hnone
      rfl
    | some found =>
      rw [h] at hnone
      cases hnone
  case vector =>
    exact disciplined_of_tracks hc (tracks_vector hc) (Literal.within_vector hasMarks_isAscii c)
  case matrix =>
    exact disciplined_of_tracks hc (tracks_matrix hc) (Literal.within_matrix hasMarks_isAscii c)
  case rational =>
    exact disciplined_of_tracks hc (tracks_rational hc) (Literal.within_rational hasMarks_isAscii c)
  case closer? => exact Literal.matchingIndex_eq hc
  case matching => exact Literal.matchingIndex_spec text

namespace Example

/-- A character of two bytes, a bracket, and the same character again. -/
def accents : Text := ['\u00e9', '[', '\u00e9']

/-- The row of a matrix starts on a boundary, so the character that stands there instead can be named. -/
theorem cursors_disciplined_accents :
    (matrix accents .unknown).runAt 2
        = some (.error ⟨.unexpectedCharacter '\u00e9', Position.unknown.advance 3⟩, 3) ∧
      IsBoundary accents 3 ∧ Literal.matchingIndex accents 2 = some none := by
  have hstart : IsBoundary accents 2 := by decide
  have h := cursors_disciplined accents .unknown 2 (Or.inr hstart)
  exact ⟨h.matrix.outcome, h.matrix.moves.boundary (by decide), h.closer?⟩

/-- The first of the two bytes is an expected byte like any other. -/
theorem consume_inside_character :
    IsBoundary accents 0 ∧ (consume accents 0xc3).runAt 0 = some (.ok true, 1) ∧
      1 < byteLength accents ∧ ¬ IsBoundary accents 1 := by
  refine ⟨by decide, rfl, by decide, by decide⟩

end Example

end ByteScanner
end Abacus
