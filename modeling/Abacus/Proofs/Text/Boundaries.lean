/-
# Character boundaries

An offset counts bytes, and a character may take several of them, so an offset can lie inside a
character.  `IsBoundary` says that it does not.  Cutting a text at an offset is possible at a boundary
only: `splitAt?` and `slice?` answer nothing for an offset past the end of the text or inside one of its
characters.

The bytes of a character that takes more than one are all 128 and above.  A byte below 128 is therefore a
character by itself, wherever it stands: to look for it in the bytes and to look for it in the characters
comes to the same.

A cursor is `On` a text if what lies ahead of it is what lies behind its offset in that text; a cursor past
the end has nothing ahead.  Whatever a cursor on a text reaches is on that text.

Main statements:

* `Text.splitAt?_eq_some_iff` and `Text.slice?_eq_some_iff`: when a text can be cut;
* `Text.isAscii_of_mem_utf8EncodeChar` and `Text.eq_of_mem_utf8EncodeChar`: the bytes below 128;
* `Cursor.On.of_reaches`, `Cursor.On.byteAt?_eq` and `Cursor.On.isBoundary`: cursors on a text.
-/
import Abacus.Proofs.Token.Places

namespace Abacus
namespace Text

/-! ## 1. Cutting a text at an offset -/

/-- The offset lies in front of, between or behind characters of the text. -/
def IsBoundary (text : Text) (offset : Nat) : Prop :=
  ∃ front rest, text = front ++ rest ∧ byteLength front = offset

/-- The text in front of an offset and the text behind it, if the offset is a boundary. -/
def splitAt? : Nat → Text → Option (Text × Text)
  | 0, text => some ([], text)
  | _ + 1, [] => none
  | n + 1, c :: text =>
    if c.utf8Size ≤ n + 1 then
      (splitAt? (n + 1 - c.utf8Size) text).map (fun (front, rest) => (c :: front, rest))
    else none

/-- The text between two offsets, if they are boundaries in this order. -/
def slice? (text : Text) (start stop : Nat) : Option Text := do
  let (front, _) ← splitAt? stop text
  let (_, piece) ← splitAt? start front
  return piece

theorem splitAt?_append (front rest : Text) :
    splitAt? (byteLength front) (front ++ rest) = some (front, rest) := by
  induction front with
  | nil => cases rest <;> rfl
  | cons c front ih =>
    obtain ⟨n, hn⟩ := Nat.exists_eq_add_one.mpr c.utf8Size_pos
    have hlength : byteLength (c :: front) = n + byteLength front + 1 := by
      rw [byteLength_cons, hn, Nat.add_right_comm]
    have hfits : c.utf8Size ≤ n + byteLength front + 1 := by omega
    have hleft : n + byteLength front + 1 - c.utf8Size = byteLength front := by omega
    rw [hlength, List.cons_append, splitAt?, if_pos hfits, hleft, ih]
    rfl

/-- **A text is cut at a boundary** into what lies on its two sides. -/
theorem splitAt?_eq_some_iff {offset : Nat} {text front rest : Text} :
    splitAt? offset text = some (front, rest) ↔ text = front ++ rest ∧ byteLength front = offset := by
  constructor
  · intro h
    induction offset, text using splitAt?.induct generalizing front with
    | case1 text =>
      rw [splitAt?] at h
      cases h
      exact ⟨rfl, rfl⟩
    | case2 n => cases h
    | case3 n c text hfits ih =>
      rw [splitAt?, if_pos hfits] at h
      obtain ⟨⟨front', rest'⟩, hsplit, heq⟩ := Option.map_eq_some_iff.mp h
      cases heq
      obtain ⟨rfl, hlength⟩ := ih hsplit
      refine ⟨rfl, ?_⟩
      rw [byteLength_cons]
      omega
    | case4 n c text hfits =>
      rw [splitAt?, if_neg hfits] at h
      cases h
  · rintro ⟨rfl, rfl⟩
    exact splitAt?_append front rest

theorem isBoundary_iff {text : Text} {offset : Nat} :
    IsBoundary text offset ↔ (splitAt? offset text).isSome = true := by
  simp only [Option.isSome_iff_exists, Prod.exists, splitAt?_eq_some_iff, IsBoundary]

instance (text : Text) (offset : Nat) : Decidable (IsBoundary text offset) :=
  decidable_of_iff _ isBoundary_iff.symm

/-- **A piece of a text** is what lies between two boundaries. -/
theorem slice?_eq_some_iff {text piece : Text} {start stop : Nat} :
    slice? text start stop = some piece ↔ ∃ front rest, text = front ++ piece ++ rest ∧
      byteLength front = start ∧ byteLength (front ++ piece) = stop := by
  simp only [slice?, Option.bind_eq_bind, Option.bind_eq_some_iff, Prod.exists, splitAt?_eq_some_iff,
    Option.pure_def, Option.some.injEq]
  constructor
  · rintro ⟨_, rest, ⟨rfl, hstop⟩, front, _, ⟨rfl, hstart⟩, rfl⟩
    exact ⟨front, rest, rfl, hstart, hstop⟩
  · rintro ⟨front, rest, rfl, hstart, hstop⟩
    exact ⟨front ++ piece, rest, ⟨rfl, hstop⟩, front, piece, ⟨rfl, hstart⟩, rfl⟩

/-! ## 2. Bytes that are characters -/

/-- **A byte below 128** among the bytes of a character is that character. -/
theorem isAscii_of_mem_utf8EncodeChar {c : Char} {byte : UInt8} (hmem : byte ∈ String.utf8EncodeChar c)
    (hbyte : byte < 128) : IsAscii c ∧ byte = c.toUInt8 := by
  have hsmall : byte.toNat < 128 := UInt8.lt_iff_toNat_lt.mp hbyte
  have hcode : ∀ {n : Nat}, byte = UInt8.ofNat n → byte.toNat = n % 256 := by
    rintro n rfl
    exact UInt8.toNat_ofNat'
  unfold String.utf8EncodeChar at hmem
  dsimp only at hmem
  split at hmem
  · next hle => exact ⟨Nat.lt_succ_of_le hle, List.mem_singleton.mp hmem⟩
  · exfalso
    split at hmem
    · simp only [List.mem_cons, List.not_mem_nil, or_false] at hmem
      rcases hmem with h | h <;> have := hcode h <;> omega
    · split at hmem
      · simp only [List.mem_cons, List.not_mem_nil, or_false] at hmem
        rcases hmem with h | h | h <;> have := hcode h <;> omega
      · simp only [List.mem_cons, List.not_mem_nil, or_false] at hmem
        rcases hmem with h | h | h | h <;> have := hcode h <;> omega

/-- The first byte of a character. -/
def leadByte (c : Char) : UInt8 := (String.utf8EncodeChar c).headD 0

theorem leadByte_mem (c : Char) : leadByte c ∈ String.utf8EncodeChar c := by
  have hlength := String.length_utf8EncodeChar c
  have hpos := c.utf8Size_pos
  unfold leadByte
  cases hbytes : String.utf8EncodeChar c with
  | nil =>
    rw [hbytes, List.length_nil] at hlength
    omega
  | cons byte bytes => exact List.mem_cons_self

theorem leadByte_of_isAscii {c : Char} (h : IsAscii c) : leadByte c = c.toUInt8 := by
  rw [leadByte, String.utf8EncodeChar_eq_singleton h.utf8Size_eq]
  rfl

/-- The character of the byte of an ASCII character. -/
theorem ofNat_leadByte {c : Char} (h : IsAscii c) : Char.ofNat (leadByte c).toNat = c := by
  have hcode : c.toUInt8.toNat = c.toNat := by
    rw [Char.toUInt8, UInt32.toNat_toUInt8]
    exact Nat.mod_eq_of_lt (Nat.lt_trans h (by decide))
  rw [leadByte_of_isAscii h, hcode, Char.ofNat_toNat]

theorem leadByte_lt_iff {c : Char} : leadByte c < 128 ↔ IsAscii c := by
  constructor
  · exact fun h => (isAscii_of_mem_utf8EncodeChar (leadByte_mem c) h).1
  · intro h
    have hmem : leadByte c ∈ bytes [c] := by simpa [bytes] using leadByte_mem c
    exact bytes_of_isAscii (List.forall_mem_singleton.mpr h) _ hmem

/-- An ASCII character is told by its byte. -/
theorem leadByte_eq_iff {c expected : Char} (h : IsAscii expected) :
    leadByte c = expected.toUInt8 ↔ c = expected := by
  rw [← leadByte_of_isAscii h]
  constructor
  · intro heq
    have hc : IsAscii c := leadByte_lt_iff.mp (heq ▸ leadByte_lt_iff.mpr h)
    rw [← ofNat_leadByte hc, heq, ofNat_leadByte h]
  · rintro rfl
    rfl

/-- Behind the first byte of a character of several bytes there is no boundary. -/
theorem not_isBoundary_succ {c : Char} (hc : ¬ IsAscii c) (front rest : Text) :
    ¬ IsBoundary (front ++ c :: rest) (byteLength front + 1) := by
  have hpos := c.utf8Size_pos
  have hsize : c.utf8Size ≠ 1 := fun h =>
    hc (Nat.lt_succ_of_le (UInt32.le_iff_toNat_le.mp (Char.utf8Size_eq_one_iff.mp h)))
  rintro ⟨front', rest', htext, hlength⟩
  rcases List.append_eq_append_iff.mp htext with ⟨middle, rfl, hmiddle⟩ | ⟨middle, rfl, -⟩
  · rw [byteLength_append] at hlength
    rcases List.cons_eq_append_iff.mp hmiddle with ⟨rfl, -⟩ | ⟨middle', rfl, -⟩
    · rw [byteLength_nil] at hlength
      omega
    · rw [byteLength_cons] at hlength
      omega
  · rw [byteLength_append] at hlength
    omega

/-- The byte of an ASCII character is among the bytes of no other character. -/
theorem eq_of_mem_utf8EncodeChar {c expected : Char} (h : IsAscii expected)
    (hmem : expected.toUInt8 ∈ String.utf8EncodeChar c) : c = expected := by
  have hsmall : expected.toUInt8 < 128 := by
    rw [← leadByte_of_isAscii h]
    exact leadByte_lt_iff.mpr h
  obtain ⟨hc, hbyte⟩ := isAscii_of_mem_utf8EncodeChar hmem hsmall
  exact (leadByte_eq_iff h).mp ((leadByte_of_isAscii hc).trans hbyte.symm)

/-- The byte is by itself a character of the class. -/
def isByteOf (p : Char → Bool) (byte : UInt8) : Bool := byte < 128 && p (Char.ofNat byte.toNat)

/-- A class of ASCII characters is told by the first byte. -/
theorem isByteOf_leadByte {p : Char → Bool} (hp : ∀ c, p c = true → IsAscii c) (c : Char) :
    isByteOf p (leadByte c) = p c := by
  by_cases hc : IsAscii c
  · have hlt : leadByte c < 128 := leadByte_lt_iff.mpr hc
    simp only [isByteOf, hlt, ofNat_leadByte hc, decide_true, Bool.true_and]
  · have hlt : ¬ leadByte c < 128 := fun h => hc (leadByte_lt_iff.mp h)
    have hnot : p c = false := Bool.eq_false_iff.mpr fun h => hc (hp c h)
    simp only [isByteOf, hlt, hnot, decide_false, Bool.false_and]

theorem byteAt?_eq_none_iff {text : Text} {offset : Nat} :
    byteAt? text offset = none ↔ byteLength text ≤ offset := by
  rw [byteAt?, List.getElem?_eq_none_iff, length_bytes]

/-- The byte behind a front of a text is the first byte of the next character. -/
theorem byteAt?_append (front rest : Text) :
    byteAt? (front ++ rest) (byteLength front) = rest.head?.map leadByte := by
  have hbytes : bytes (front ++ rest) = bytes front ++ bytes rest := by simp [bytes]
  rw [byteAt?, hbytes, ← length_bytes, List.getElem?_append_right (Nat.le_refl _), Nat.sub_self,
    ← List.head?_eq_getElem?]
  cases rest with
  | nil => rfl
  | cons c rest =>
    have hmem := leadByte_mem c
    cases hc : String.utf8EncodeChar c with
    | nil =>
      rw [hc] at hmem
      cases hmem
    | cons byte more => simp [bytes, leadByte, hc]

/-- Nothing lies behind the end of a text. -/
theorem dropBytes_of_le {text : Text} {offset : Nat} (h : byteLength text ≤ offset) :
    dropBytes offset text = [] := by
  induction offset, text using dropBytes.induct with
  | case1 text =>
    cases text with
    | nil => rfl
    | cons c text =>
      have hpos := c.utf8Size_pos
      rw [byteLength_cons] at h
      omega
  | case2 n => rfl
  | case3 n c text hfits ih =>
    rw [byteLength_cons] at h
    rw [dropBytes, if_pos hfits, ih (by omega)]
  | case4 n c text hfits =>
    rw [byteLength_cons] at h
    omega

end Text

/-! ## 3. Cursors on a text -/

namespace Cursor

open Text (byteLength IsBoundary leadByte byteAt?)

variable {text : Text} {c d : Cursor} {offset : Nat}

/-- What lies ahead of the cursor is what lies behind its offset in the text; past the end of the text
that is nothing. -/
def On (text : Text) (c : Cursor) : Prop :=
  (∃ front, text = front ++ c.rest ∧ byteLength front = c.offset) ∨
    (c.rest = [] ∧ byteLength text ≤ c.offset)

theorem on_ofOffset (h : byteLength text ≤ offset ∨ IsBoundary text offset) :
    On text (ofOffset text offset) := by
  rcases h with hpast | ⟨front, rest, rfl, rfl⟩
  · exact Or.inr ⟨Text.dropBytes_of_le hpast, hpast⟩
  · refine Or.inl ⟨front, ?_, rfl⟩
    rw [ofOffset, Text.dropBytes_append]

/-- What a cursor on a text reaches is on that text. -/
theorem On.of_reaches (hc : On text c) (h : Reaches c d) : On text d := by
  obtain ⟨taken, hrest, hoffset⟩ := h
  rcases hc with ⟨front, rfl, hfront⟩ | ⟨hnil, hpast⟩
  · refine Or.inl ⟨front ++ taken, ?_, ?_⟩
    · rw [hrest, List.append_assoc]
    · rw [Text.byteLength_append, hfront, hoffset]
  · obtain ⟨rfl, hend⟩ := List.append_eq_nil_iff.mp (hrest.symm.trans hnil)
    exact Or.inr ⟨hend, Nat.le_trans hpast (Nat.le.intro hoffset.symm)⟩

theorem offset_le_of_reaches (h : Reaches c d) : c.offset ≤ d.offset := by
  obtain ⟨taken, -, hoffset⟩ := h
  exact Nat.le.intro hoffset.symm

theorem length_le_of_reaches (h : Reaches c d) : d.rest.length ≤ c.rest.length := by
  obtain ⟨taken, hrest, -⟩ := h
  rw [hrest, List.length_append]
  exact Nat.le_add_left _ _

/-- The byte at a cursor is the first byte of the next character. -/
theorem On.byteAt?_eq (hc : On text c) : byteAt? text c.offset = c.peek?.map leadByte := by
  rcases hc with ⟨front, rfl, hfront⟩ | ⟨hnil, hpast⟩
  · rw [← hfront, Text.byteAt?_append, peek?]
  · rw [peek?, hnil, Text.byteAt?_eq_none_iff.mpr hpast]
    rfl

theorem On.drop_bytes (hc : On text c) : (Text.bytes text).drop c.offset = Text.bytes c.rest := by
  rcases hc with ⟨front, rfl, hfront⟩ | ⟨hnil, hpast⟩
  · have hbytes : Text.bytes (front ++ c.rest) = Text.bytes front ++ Text.bytes c.rest := by
      simp [Text.bytes]
    rw [hbytes, ← hfront, ← Text.length_bytes, List.drop_left]
  · rw [hnil, List.drop_eq_nil_of_le (by rwa [Text.length_bytes])]
    rfl

theorem On.rest_eq_nil_iff (hc : On text c) : c.rest = [] ↔ byteLength text ≤ c.offset := by
  rw [← Text.byteAt?_eq_none_iff, hc.byteAt?_eq, Option.map_eq_none_iff, peek?,
    List.head?_eq_none_iff]

/-- In front of a character a cursor is inside the text, and on the first byte of that character. -/
theorem On.of_rest_eq (hc : On text c) {x : Char} {rest : Text} (h : c.rest = x :: rest) :
    c.offset < byteLength text ∧ byteAt? text c.offset = some (leadByte x) := by
  constructor
  · refine Nat.not_le.mp fun hpast => ?_
    rw [hc.rest_eq_nil_iff.mpr hpast] at h
    cases h
  · rw [hc.byteAt?_eq, peek?, h]
    rfl

/-- A piece of what lies ahead can be cut out of the text. -/
theorem On.slice?_eq (hc : On text c) {piece rest : Text} (h : c.rest = piece ++ rest)
    (hne : piece ≠ []) :
    Text.slice? text c.offset (c.offset + byteLength piece) = some piece := by
  rcases hc with ⟨front, rfl, hfront⟩ | ⟨hnil, -⟩
  · refine Text.slice?_eq_some_iff.mpr ⟨front, rest, ?_, hfront, ?_⟩
    · rw [h, List.append_assoc]
    · rw [Text.byteLength_append, hfront]
  · exact absurd (List.append_eq_nil_iff.mp (h.symm.trans hnil)).1 hne

/-- Everything that lies ahead can be cut out of the text. -/
theorem On.slice?_byteLength (hc : On text c) (hne : c.rest ≠ []) :
    Text.slice? text c.offset (byteLength text) = some c.rest := by
  have hpiece := hc.slice?_eq (List.append_nil c.rest).symm hne
  rcases hc with ⟨front, rfl, hfront⟩ | ⟨hnil, -⟩
  · rwa [Text.byteLength_append, hfront]
  · exact absurd hnil hne

theorem On.isBoundary (hc : On text c) (hinside : c.offset < byteLength text) :
    IsBoundary text c.offset := by
  rcases hc with ⟨front, rfl, hfront⟩ | ⟨-, hpast⟩
  · exact ⟨front, c.rest, rfl, hfront⟩
  · exact absurd hpast (Nat.not_le.mpr hinside)

/-- An ASCII character is one byte to pass. -/
theorem passes_ascii {x : Char} (hx : Text.IsAscii x) (offset : Nat) (rest : Text) :
    Passes Text.IsAscii ⟨offset, x :: rest⟩ ⟨offset + 1, rest⟩ := by
  refine ⟨[x], rfl, ?_, List.forall_mem_singleton.mpr hx⟩
  simp [hx.utf8Size_eq]

/-- **An expected ASCII character** is passed by passing its byte. -/
theorem On.consumeByte?_eq (hc : On text c) {expected : Char} (hascii : Text.IsAscii expected) :
    Text.consumeByte? text c.offset expected.toUInt8 = (c.take? expected).map Cursor.offset := by
  obtain ⟨start, rest⟩ := c
  cases rest with
  | nil =>
    have hbyte : byteAt? text start = none := hc.byteAt?_eq
    simp [Text.consumeByte?, hbyte, take?]
  | cons x rest =>
    have hbyte : byteAt? text start = some (leadByte x) := hc.byteAt?_eq
    by_cases hx : x = expected
    · subst hx
      simp [Text.consumeByte?, hbyte, take?, Text.leadByte_of_isAscii hascii, hascii.utf8Size_eq]
    · have hne : leadByte x ≠ expected.toUInt8 := mt (Text.leadByte_eq_iff hascii).mp hx
      simp [Text.consumeByte?, hbyte, take?, hx, hne]

theorem skipWhile_cons_of_pos {p : Char → Bool} {x : Char} (hx : p x = true) (offset : Nat)
    (rest : Text) : skipWhile p ⟨offset, x :: rest⟩ = skipWhile p ⟨offset + x.utf8Size, rest⟩ := by
  simp [skipWhile, hx, Nat.add_assoc]

theorem skipWhile_cons_of_neg {p : Char → Bool} {x : Char} (hx : p x = false) (offset : Nat)
    (rest : Text) : skipWhile p ⟨offset, x :: rest⟩ = ⟨offset, x :: rest⟩ := by
  simp [skipWhile, hx]

end Cursor
end Abacus
