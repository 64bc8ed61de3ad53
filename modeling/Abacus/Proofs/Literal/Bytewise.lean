/-
# Scanners over bytes

The scanners of literals walk over characters.  A program that holds its text as bytes walks over the
bytes instead: it moves an offset, looks at the byte there, and cuts a piece out of the text between two
offsets.  That can go wrong in ways that characters do not know.  A byte is asked for behind the end, or a
piece is cut in the middle of a character, and a loop over an offset need not come to an end.

`ByteScanner` is the type of such a program, with all of this in it: a scanner that fails a check has no
outcome.  A loop up to the end of the text counts towards that end.  How far a round of the loop over a
list gets is not known beforehand, so that it gets further is one more check.  To have an outcome is to
terminate with every check passed.

`Tracks` relates the two.  A scanner over bytes tracks what a scanner over characters answers at a cursor if
it has an outcome there, with the same value or the same error and its offset at the same place.  It holds
of every step and is kept by sequencing, so it can be proved along the definition of a scanner.

Main statements: `ByteScanner.Tracks.bind` and `ByteScanner.Tracks.bind_cases`: sequencing.
-/
import Abacus.Proofs.Literal.Passing
import Abacus.Proofs.Text.Boundaries

namespace Abacus

open Text (byteLength byteAt? consumeByte? slice? isBlank isWordChar isByteOf IsAscii)

/-! ## 1. The scanners -/

/-- A scanner over the bytes of a text.  It moves an offset and comes to a value or an error; if a check
fails, it has no outcome. -/
abbrev ByteScanner := ExceptT Error (StateT Nat Option)

namespace ByteScanner

variable {α β : Type}

/-- What a scanner comes to from an offset, and the offset where it stops. -/
def runAt (scanner : ByteScanner α) (offset : Nat) : Option (Except Error α × Nat) :=
  (ExceptT.run scanner).run offset

/-- The result of a check. -/
def checked (result : Option α) : ByteScanner α := ExceptT.lift (StateT.lift result)

/-- An error takes the scanner back to an offset. -/
def restoring (offset : Nat) (scanner : ByteScanner α) : ByteScanner α :=
  tryCatch scanner fun error => do
    set offset
    throw error

/-- Every error is reported as a given one. -/
def reportedAs (error : Error) (scanner : ByteScanner α) : ByteScanner α :=
  tryCatch scanner fun _ => throw error

section Scanners

variable (text : Text) (origin opener : Position)

/-- The first offset from a given one on at which no character of the class stands. -/
def runEnd (p : Char → Bool) (offset : Nat) : ByteScanner Nat := do
  if _h : offset < byteLength text then
    if isByteOf p (← checked (byteAt? text offset)) then runEnd p (offset + 1)
    else return offset
  else return offset
termination_by byteLength text - offset

/-- Passes spaces and tabs. -/
def skipBlanks : ByteScanner Unit := do
  set (← runEnd text isBlank (← get))

/-- Passes an expected byte, and says whether it was there. -/
def consume (expected : UInt8) : ByteScanner Bool := do
  match consumeByte? text (← get) expected with
  | some next =>
    set next
    return true
  | none => return false

/-- Where a number ends that goes on at an offset, and whether there is a digit in it. -/
def numberEnd (seenDigit seenPoint : Bool) (offset : Nat) : ByteScanner (Bool × Nat) := do
  if _h : offset < byteLength text then
    let byte ← checked (byteAt? text offset)
    if isByteOf Char.isDigit byte then numberEnd true seenPoint (offset + 1)
    else if byte = '.'.toUInt8 ∧ seenPoint = false then numberEnd seenDigit true (offset + 1)
    else return (seenDigit, offset)
  else return (seenDigit, offset)
termination_by byteLength text - offset

/-- A number without a sign. -/
def number : ByteScanner Binary64 := do
  let start ← get
  let (seenDigit, stop) ← numberEnd text false false start
  if seenDigit then
    match Binary64.ofText? (← checked (slice? text start stop)) with
    | none => throw ⟨.malformedNumber, origin.advance start⟩
    | some x =>
      if x.isFinite then
        set stop
        return x
      else throw ⟨.literalTooLarge, origin.advance start⟩
  else throw ⟨.malformedNumber, origin.advance start⟩

/-- A number with an optional minus sign. -/
def signedNumber : ByteScanner Binary64 := do
  let start ← get
  if ← consume text '-'.toUInt8 then
    skipBlanks text
    restoring start do return -(← number text origin)
  else number text origin

/-- A name, if one starts here. -/
def name? : ByteScanner (Option Text) := do
  let start ← get
  match byteAt? text start with
  | none => return none
  | some first =>
    if isByteOf Char.isAlpha first then
      let stop ← runEnd text isWordChar (start + 1)
      set stop
      return some (← checked (slice? text start stop))
    else return none

/-- The error for the character at the offset. -/
def unexpectedCharacter : ByteScanner Error := do
  let here ← get
  let ahead ← checked (slice? text here (byteLength text))
  return ⟨.unexpectedCharacter (ahead.headD '\x00'), origin.advance here⟩

/-- The opening bracket of a list. -/
def openBracket : ByteScanner Unit := do
  if ← consume text '['.toUInt8 then return
  match byteAt? text (← get) with
  | none => throw ⟨.unexpectedEndOfInput, origin.advance (← get)⟩
  | some _ => throw (← unexpectedCharacter text origin)

/-- What follows an item: `true` for a comma, `false` for the closing bracket. -/
def separator : ByteScanner Bool := do
  let here ← get
  match byteAt? text here with
  | none => throw ⟨.unterminatedBracket, opener⟩
  | some byte =>
    if byte = ','.toUInt8 then
      set (here + 1)
      return true
    else if byte = ']'.toUInt8 then
      set (here + 1)
      return false
    else throw (← unexpectedCharacter text origin)

/-- Items up to the closing bracket, behind those that were found before.  A round that does not get any
further in the text fails a check: the loop might never end. -/
def items (item : ByteScanner α) (start : Nat) (found : List α) : ByteScanner (List α) := do
  skipBlanks text
  let x ← item
  skipBlanks text
  if ← separator text origin opener then
    let here ← get
    if _h : start < here ∧ here ≤ byteLength text then items item here (found ++ [x])
    else checked none
  else return found ++ [x]
termination_by byteLength text - start

/-- An element of a vector. -/
def element : ByteScanner Binary64 := do
  if byteLength text ≤ (← get) then throw ⟨.unterminatedBracket, opener⟩
  else signedNumber text origin

/-- A vector literal. -/
def vector : ByteScanner (List Binary64) := do
  let start ← get
  openBracket text origin
  skipBlanks text
  if ← consume text ']'.toUInt8 then return []
  else
    items text origin (origin.advance start) (element text origin (origin.advance start)) (← get) []

/-- A row of a matrix. -/
def row : ByteScanner (List Binary64) := do
  match byteAt? text (← get) with
  | none => throw ⟨.unterminatedBracket, opener⟩
  | some byte =>
    if byte = '['.toUInt8 then vector text origin
    else throw (← unexpectedCharacter text origin)

/-- A matrix literal. -/
def matrix : ByteScanner (List (List Binary64)) := do
  let start ← get
  openBracket text origin
  items text origin (origin.advance start) (row text origin (origin.advance start)) (← get) []

/-- A fraction literal. -/
def rational : ByteScanner (Binary64 × Binary64) := do
  skipBlanks text
  let malformed : Error := ⟨.malformedRational, origin.advance (← get)⟩
  let numerator ← number text origin
  skipBlanks text
  if ← consume text '/'.toUInt8 then
    skipBlanks text
    let denominator ← reportedAs malformed (number text origin)
    return (numerator, denominator)
  else throw malformed

end Scanners

/-! ## 2. Tracking -/

open Cursor (On Passes Reaches)

/-- What a scan comes to, and the offset where it stops. -/
def answer : Scan α → Except Error α × Nat
  | .found x after => (.ok x, after.offset)
  | .failed e stop => (.error e, stop.offset)

/-- At the cursor, the scanner over bytes has an outcome, and it is what the scan comes to. -/
def Tracks (scanner : ByteScanner α) (c : Cursor) (scan : Scan α) : Prop :=
  scanner.runAt c.offset = some (answer scan)

theorem runAt_bind (x : ByteScanner α) (f : α → ByteScanner β) (offset : Nat) :
    (x >>= f).runAt offset = match x.runAt offset with
      | none => none
      | some (.ok a, stop) => (f a).runAt stop
      | some (.error e, stop) => some (.error e, stop) := by
  simp only [runAt, ExceptT.run_bind, StateT.run_bind]
  rcases (ExceptT.run x).run offset with _ | ⟨_ | _, _⟩ <;> rfl

theorem runAt_tryCatch (x : ByteScanner α) (f : Error → ByteScanner α) (offset : Nat) :
    (tryCatch x f).runAt offset = match x.runAt offset with
      | none => none
      | some (.ok a, stop) => some (.ok a, stop)
      | some (.error e, stop) => (f e).runAt stop := by
  change (ExceptT.run (ExceptT.tryCatch x f)).run offset = _
  unfold ExceptT.tryCatch runAt
  simp only [ExceptT.run, ExceptT.mk, StateT.run_bind]
  rcases StateT.run x offset with _ | ⟨_ | _, _⟩ <;> rfl

section Tracks

variable {c d stop : Cursor} {x : ByteScanner α} {f : α → ByteScanner β} {a : α} {e : Error}
  {s : Scan β}

theorem Tracks.pure (a : α) (c : Cursor) : Tracks (Pure.pure a) c (.found a c) := rfl

theorem Tracks.throw (e : Error) (c : Cursor) :
    Tracks (MonadExcept.throw e : ByteScanner α) c (.failed e c) := rfl

theorem Tracks.get (c : Cursor) : Tracks MonadState.get c (.found c.offset c) := rfl

theorem Tracks.set (c d : Cursor) : Tracks (MonadStateOf.set d.offset) c (.found PUnit.unit d) := rfl

theorem Tracks.checked {result : Option α} (h : result = some a) (c : Cursor) :
    Tracks (checked result) c (.found a c) := by
  subst h
  rfl

/-- **Sequencing**: what follows goes on where the first scanner stops. -/
theorem Tracks.bind (hx : Tracks x c (.found a d)) (hf : Tracks (f a) d s) :
    Tracks (x >>= f) c s := by
  unfold Tracks
  rw [runAt_bind, hx]
  exact hf

/-- An error ends the scan. -/
theorem Tracks.bind_failed (hx : Tracks x c (.failed e d)) : Tracks (x >>= f) c (.failed e d) := by
  unfold Tracks
  rw [runAt_bind, hx]
  rfl

/-- Sequencing by what the first scan comes to. -/
theorem Tracks.bind_cases {t : Scan α} (hx : Tracks x c t) (ht : t.Within IsAscii c)
    (hfailed : ∀ e stop, t = .failed e stop → s = .failed e stop)
    (hfound : ∀ a d, t = .found a d → Reaches c d → Tracks (f a) d s) : Tracks (x >>= f) c s := by
  cases t with
  | found a d => exact hx.bind (hfound a d rfl (Passes.reaches ht))
  | failed e stop =>
    rw [hfailed e stop rfl]
    exact hx.bind_failed

theorem Tracks.tryCatch {handler : Error → ByteScanner α} (hx : Tracks x c (.found a d)) :
    Tracks (tryCatch x handler) c (.found a d) := by
  unfold Tracks
  rw [runAt_tryCatch, hx]
  rfl

theorem Tracks.tryCatch_failed {handler : Error → ByteScanner α} {t : Scan α}
    (hx : Tracks x c (.failed e d)) (hhandler : Tracks (handler e) d t) :
    Tracks (MonadExcept.tryCatch x handler) c t := by
  unfold Tracks
  rw [runAt_tryCatch, hx]
  exact hhandler

end Tracks

end ByteScanner
end Abacus
