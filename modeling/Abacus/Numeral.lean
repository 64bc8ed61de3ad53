/-
# Numerals

A numeral is a run of digits with at most one point in it and at least one digit: `3`, `3.14`, `.5`,
`2.`.  A sign is no part of it.  `Numeral.ofText` takes the longest front of a text that has the
shape, digits or not, so that each reader can say in its own way that a number is missing.

Main statement: `Numeral.ofText_text`: the numeral and the rest are the whole text again.
-/
import Abacus.Binary64.Decimal

namespace Abacus

/-- The parts of a numeral. -/
structure Numeral where
  /-- The digits before the point. -/
  whole : Text
  /-- The digits after the point, if there is a point. -/
  fraction : Option Text
  deriving DecidableEq

namespace Numeral

/-- The numeral as it is written. -/
def text (n : Numeral) : Text :=
  n.whole ++ (match n.fraction with
    | none => []
    | some digits => '.' :: digits)

/-- There is a digit on some side of the point. -/
def hasDigit (n : Numeral) : Bool := !n.whole.isEmpty || !(n.fraction.getD []).isEmpty

/-- The number nearest to the numeral; an infinity if it is too large. -/
def value (n : Numeral) : Binary64 :=
  let digits := n.fraction.getD []
  Binary64.ofDecimal (Nat.ofDigitChars 10 (n.whole ++ digits) 0) digits.length

/-- The longest numeral at the front of a text, and the rest. -/
def ofText (text : Text) : Numeral × Text :=
  let whole := text.takeWhile Char.isDigit
  match text.dropWhile Char.isDigit with
  | '.' :: rest => (⟨whole, some (rest.takeWhile Char.isDigit)⟩, rest.dropWhile Char.isDigit)
  | rest => (⟨whole, none⟩, rest)

/-- Nothing is lost between the numeral and the rest. -/
theorem ofText_text (cs : Text) : (ofText cs).1.text ++ (ofText cs).2 = cs := by
  have hsplit := List.takeWhile_append_dropWhile (p := Char.isDigit) (l := cs)
  unfold ofText
  dsimp only
  split
  · next rest hrest =>
    have hfrac := List.takeWhile_append_dropWhile (p := Char.isDigit) (l := rest)
    simp only [text, List.append_assoc, List.cons_append, hfrac]
    rw [← hrest, hsplit]
  · simp only [text, List.append_nil]
    exact hsplit

end Numeral

/-! ## Reading the written form of a number -/

/-- The number that a text writes: a numeral with an optional minus sign, `inf`, `-inf` or `NaN`. -/
def Binary64.ofText? (text : Text) : Option Binary64 :=
  match text with
  | ['N', 'a', 'N'] => some .nan
  | ['i', 'n', 'f'] => some (.infinite false)
  | ['-', 'i', 'n', 'f'] => some (.infinite true)
  | '-' :: rest => unsigned? rest |>.map Binary64.neg
  | rest => unsigned? rest
where
  /-- The number that a text without a sign writes. -/
  unsigned? (text : Text) : Option Binary64 :=
    match Numeral.ofText text with
    | (n, []) => if n.hasDigit then some n.value else none
    | _ => none

end Abacus
