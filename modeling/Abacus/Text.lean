/-
# Text, its bytes and its blanks

A statement is a list of characters.  Columns and cursors count the bytes of its UTF-8 form, so a
text has a byte length beside its number of characters, and single bytes can be asked for.

Two notions of blank are in use.  Between the parts of a statement a blank is a space or a tab.
Around whole lines, blanks are the characters with the Unicode property `White_Space`.

Main statements:

* `ofBytes?_bytes`: the bytes of a text are read back as that text;
* `flatten_cutAfter`: cutting a text into lines loses nothing.
-/
namespace Abacus

/-- A text: a list of characters. -/
abbrev Text := List Char

namespace Text

-- Sums of natural numbers start at the core library's zero, also beside a theory with its own.
attribute [local instance (high)] Zero.ofOfNat0

/-! ## 1. Bytes -/

/-- The length in UTF-8 bytes. -/
def byteLength (text : Text) : Nat := (text.map Char.utf8Size).sum

@[simp] theorem byteLength_nil : byteLength [] = 0 := rfl

@[simp] theorem byteLength_cons (c : Char) (text : Text) :
    byteLength (c :: text) = c.utf8Size + byteLength text := by
  simp [byteLength]

@[simp] theorem byteLength_append (a b : Text) :
    byteLength (a ++ b) = byteLength a + byteLength b := by
  simp [byteLength]

/-- The UTF-8 bytes. -/
def bytes (text : Text) : List UInt8 := text.flatMap String.utf8EncodeChar

/-- The text with given UTF-8 bytes, if they are the bytes of one. -/
def ofBytes? (bytes : List UInt8) : Option Text :=
  (String.fromUTF8? bytes.toByteArray).map String.toList

/-- The byte at an offset, if the text reaches that far. -/
def byteAt? (text : Text) (offset : Nat) : Option UInt8 := (bytes text)[offset]?

/-- The cursor after `expected`, if that byte stands at the cursor. -/
def consumeByte? (text : Text) (offset : Nat) (expected : UInt8) : Option Nat :=
  if byteAt? text offset = some expected then some (offset + 1) else none

/-- What lies at and after a byte offset.  Inside a character that is the whole character: no part
of the language starts with one that takes several bytes. -/
def dropBytes : Nat → Text → Text
  | 0, text => text
  | _ + 1, [] => []
  | n + 1, c :: text => if c.utf8Size ≤ n + 1 then dropBytes (n + 1 - c.utf8Size) text else c :: text

theorem length_bytes (text : Text) : (bytes text).length = byteLength text := by
  simp [bytes, byteLength, List.length_flatMap]

/-- The bytes of a text are read back as that text. -/
theorem ofBytes?_bytes (text : Text) : ofBytes? (bytes text) = some text := by
  have hbytes : (bytes text).toByteArray = (String.ofList text).toByteArray := by
    rw [String.toByteArray_ofList]
    rfl
  have hvalid : (String.ofList text).toByteArray.IsValidUTF8 := String.isValidUTF8 _
  unfold ofBytes?
  rw [hbytes]
  unfold String.fromUTF8?
  rw [dif_pos hvalid]
  exact congrArg some String.toList_ofList

/-! ## 2. Classes of characters -/

/-- A space or a tab. -/
def isBlank (c : Char) : Bool := c == ' ' || c == '\t'

/-- A character inside a name: a letter of the English alphabet, a digit or an underscore. -/
def isWordChar (c : Char) : Bool := c.isAlphanum || c == '_'

/-- A character with the Unicode property `White_Space`. -/
def isSpace (c : Char) : Bool :=
  ('\t' ≤ c && c ≤ '\r') || c == ' ' || c == '\u0085' || c == '\u00a0' || c == '\u1680' ||
    ('\u2000' ≤ c && c ≤ '\u200a') || c == '\u2028' || c == '\u2029' || c == '\u202f' ||
    c == '\u205f' || c == '\u3000'

/-! ## 3. Trimming and lines -/

/-- The text without the characters of a class at its end. -/
def trimEndWhile (p : Char → Bool) (text : Text) : Text := (text.reverse.dropWhile p).reverse

/-- The text without white space at its end. -/
def trimEnd (text : Text) : Text := trimEndWhile isSpace text

/-- The text without white space around it. -/
def trim (text : Text) : Text := trimEnd (text.dropWhile isSpace)

/-- The text without one line feed at its end, nor a carriage return right before it. -/
def stripLineEnd (line : Text) : Text :=
  match line.reverse with
  | '\n' :: '\r' :: rest => rest.reverse
  | '\n' :: rest => rest.reverse
  | _ => line

/-- A list cut behind every occurrence of an end mark; the last piece may lack it. -/
def cutAfter {α : Type} [DecidableEq α] (mark : α) : List α → List (List α)
  | [] => []
  | x :: xs =>
    if x = mark then [x] :: cutAfter mark xs
    else
      match cutAfter mark xs with
      | [] => [[x]]
      | piece :: pieces => (x :: piece) :: pieces

/-- Nothing is lost by cutting. -/
theorem flatten_cutAfter {α : Type} [DecidableEq α] (mark : α) (xs : List α) :
    (cutAfter mark xs).flatten = xs := by
  induction xs with
  | nil => rfl
  | cons x xs ih =>
    unfold cutAfter
    split
    · simp [ih]
    · split
      · next h =>
        rw [h, List.flatten_nil] at ih
        simp [← ih]
      · next h =>
        rw [h] at ih
        simpa using ih

/-- The lines of a text, each with its line feed; the last one may lack it. -/
def linesWithEnds (text : Text) : List Text := cutAfter '\n' text

/-- The lines of a text without their ends. -/
def lines (text : Text) : List Text := (linesWithEnds text).map stripLineEnd

/-! ## 4. Written lists -/

/-- Texts with a comma and a space between them. -/
def commaJoin : List Text → Text
  | [] => []
  | [item] => item
  | item :: items => item ++ ',' :: ' ' :: commaJoin items

/-- Texts in square brackets, with a comma and a space between them. -/
def bracketed (items : List Text) : Text := '[' :: commaJoin items ++ [']']

end Text
end Abacus
