/-
# Scanners over bytes track the scanners over characters

Every scanner of `Bytewise` has an outcome at every cursor on a text, and it is the answer of the scanner
of the same construct over characters.  This is where the checks are met: an index is asked for only behind
a comparison with the length of the text, and a piece is cut out only between two cursors on the text.

Single steps come first.  A loop over bytes is compared with a run of characters by induction on what lies
ahead, and this is also why it ends.  The loop over a list does not know how far its items reach; it ends
because each of its rounds passes a comma.

Main statements:

* `ByteScanner.tracks_number`, `ByteScanner.tracks_signedNumber`, `ByteScanner.tracks_name?`: numbers and
  names;
* `ByteScanner.tracks_items`: the loop over a list;
* `ByteScanner.tracks_vector`, `ByteScanner.tracks_matrix`, `ByteScanner.tracks_rational`: literals.
-/
import Abacus.Proofs.Literal.Bytewise

namespace Abacus

open Text (byteLength byteAt? slice? consumeByte? isBlank isWordChar isByteOf IsAscii)

namespace ByteScanner

open Cursor (On Passes Reaches)

variable {α : Type}

/-! ## 1. Steps -/

section Steps

variable {text : Text} {origin opener : Position} {c d after : Cursor} {expected : Char}

/-- The run of a class ends where the cursor stops that skips the class. -/
theorem tracks_runEnd {p : Char → Bool} (hp : ∀ x, p x = true → IsAscii x) (hd : On text d)
    (c : Cursor) : Tracks (runEnd text p d.offset) c (.found (d.skipWhile p).offset c) := by
  obtain ⟨offset, rest⟩ := d
  induction rest generalizing offset with
  | nil =>
    have hpast : byteLength text ≤ offset := hd.rest_eq_nil_iff.mp rfl
    rw [runEnd, dif_neg (Nat.not_lt.mpr hpast)]
    exact Tracks.pure offset c
  | cons x rest ih =>
    obtain ⟨hinside, hbyte⟩ := hd.of_rest_eq rfl
    rw [runEnd, dif_pos hinside]
    refine (Tracks.checked hbyte c).bind ?_
    rw [Text.isByteOf_leadByte hp]
    cases hx : p x with
    | true =>
      have hstep := Cursor.passes_ascii (hp x hx) offset rest
      rw [if_pos rfl, Cursor.skipWhile_cons_of_pos hx, (hp x hx).utf8Size_eq]
      exact ih (offset + 1) (hd.of_reaches hstep.reaches)
    | false =>
      rw [if_neg (by decide), Cursor.skipWhile_cons_of_neg hx]
      exact Tracks.pure offset c

theorem tracks_skipBlanks (hc : On text c) :
    Tracks (skipBlanks text) c (.found () c.skipBlanks) := by
  have hblank : ∀ x, isBlank x = true → IsAscii x := fun _ => Text.isAscii_of_isBlank
  exact (Tracks.get c).bind ((tracks_runEnd hblank hc c).bind (Tracks.set c c.skipBlanks))

/-- Whether an expected character was passed. -/
def passed (c : Cursor) : Option Cursor → Scan Bool
  | some after => .found true after
  | none => .found false c

theorem tracks_consume (hascii : IsAscii expected) (hc : On text c) :
    Tracks (consume text expected.toUInt8) c (passed c (c.take? expected)) := by
  refine (Tracks.get c).bind ?_
  rw [hc.consumeByte?_eq hascii]
  cases c.take? expected with
  | none => exact Tracks.pure false c
  | some after => exact (Tracks.set c after).bind (Tracks.pure true after)

/-- An expected byte of any kind is passed by itself, whatever lies behind it. -/
theorem tracks_consume_of_byteAt? {byte : UInt8} (hbyte : byteAt? text c.offset = some byte)
    (ahead : Text) : Tracks (consume text byte) c (.found true ⟨c.offset + 1, ahead⟩) := by
  refine (Tracks.get c).bind ?_
  rw [consumeByte?, if_pos hbyte]
  exact (Tracks.set c ⟨c.offset + 1, ahead⟩).bind (Tracks.pure true _)

theorem tracks_consume_of_ne {byte : UInt8} (hbyte : byteAt? text c.offset ≠ some byte) :
    Tracks (consume text byte) c (.found false c) := by
  refine (Tracks.get c).bind ?_
  rw [consumeByte?, if_neg hbyte]
  exact Tracks.pure false c

theorem tracks_skipBlanks_bind {f : Unit → ByteScanner α} {s : Scan α} (hc : On text c)
    (h : On text c.skipBlanks → Tracks (f ()) c.skipBlanks s) :
    Tracks (skipBlanks text >>= f) c s :=
  (tracks_skipBlanks hc).bind (h (hc.of_reaches (Cursor.reaches_skipBlanks c)))

theorem tracks_consume_bind {f : Bool → ByteScanner α} {s : Scan α} (hascii : IsAscii expected)
    (hc : On text c) (hnone : c.take? expected = none → Tracks (f false) c s)
    (hsome : ∀ after, c.take? expected = some after → On text after → Tracks (f true) after s) :
    Tracks (consume text expected.toUInt8 >>= f) c s := by
  have hconsume := tracks_consume hascii hc
  cases h : c.take? expected with
  | none =>
    rw [h] at hconsume
    exact hconsume.bind (hnone h)
  | some after =>
    rw [h] at hconsume
    exact hconsume.bind (hsome after h (hc.of_reaches (Cursor.reaches_take? h)))

/-! ## 2. Numbers and names -/

/-- The numeral ahead; once the point has been passed, only digits belong to it. -/
def numeralAhead (seenPoint : Bool) (rest : Text) : Numeral :=
  if seenPoint then ⟨rest.takeWhile Char.isDigit, none⟩ else (Numeral.ofText rest).1

theorem numeralAhead_digit {x : Char} (hx : x.isDigit = true) (seenPoint : Bool) (rest : Text) :
    numeralAhead seenPoint (x :: rest) =
      { numeralAhead seenPoint rest with whole := x :: (numeralAhead seenPoint rest).whole } := by
  cases seenPoint with
  | true => simp [numeralAhead, hx]
  | false =>
    simp only [numeralAhead, Numeral.ofText, List.takeWhile_cons_of_pos hx,
      List.dropWhile_cons_of_pos hx, Bool.false_eq_true, if_false]
    split <;> rfl

theorem numeralAhead_point (rest : Text) :
    numeralAhead false ('.' :: rest) = ⟨[], some (numeralAhead true rest).whole⟩ := by
  have hpoint : ¬ Char.isDigit '.' = true := by decide
  simp [numeralAhead, Numeral.ofText, hpoint]

theorem numeralAhead_stop {x : Char} {seenPoint : Bool} (hdigit : x.isDigit = false)
    (hpoint : x = '.' → seenPoint = true) (rest : Text) :
    numeralAhead seenPoint (x :: rest) = ⟨[], none⟩ := by
  cases seenPoint with
  | true => simp [numeralAhead, hdigit]
  | false =>
    have hends : Numeral.Ends (x :: rest) := by
      rintro _ ⟨⟩
      exact ⟨hdigit, fun h => by cases hpoint h⟩
    simp [numeralAhead, Numeral.ofText_of_ends hends]

/-- The loop over a number ends behind the numeral ahead. -/
theorem tracks_numberEnd (seenDigit seenPoint : Bool) (hd : On text d) (c : Cursor) :
    Tracks (numberEnd text seenDigit seenPoint d.offset) c
      (.found (seenDigit || (numeralAhead seenPoint d.rest).hasDigit,
        d.offset + byteLength (numeralAhead seenPoint d.rest).text) c) := by
  have hdigit : ∀ x, Char.isDigit x = true → IsAscii x := fun _ => Text.isAscii_of_isDigit
  obtain ⟨offset, rest⟩ := d
  induction rest generalizing offset seenDigit seenPoint with
  | nil =>
    have hpast : byteLength text ≤ offset := hd.rest_eq_nil_iff.mp rfl
    have hnil : numeralAhead seenPoint [] = ⟨[], none⟩ := by cases seenPoint <;> rfl
    rw [numberEnd, dif_neg (Nat.not_lt.mpr hpast)]
    dsimp only
    rw [hnil]
    simpa [Numeral.hasDigit, Numeral.text] using Tracks.pure (seenDigit, offset) c
  | cons x rest ih =>
    obtain ⟨hinside, hbyte⟩ := hd.of_rest_eq rfl
    rw [numberEnd, dif_pos hinside]
    refine (Tracks.checked hbyte c).bind ?_
    rw [Text.isByteOf_leadByte hdigit]
    dsimp only
    have hnext : IsAscii x → On text ⟨offset + 1, rest⟩ := fun hx =>
      hd.of_reaches (Cursor.passes_ascii hx offset rest).reaches
    cases hx : x.isDigit with
    | true =>
      have hmore := ih true seenPoint (offset + 1) (hnext (hdigit x hx))
      rw [if_pos rfl, numeralAhead_digit hx]
      simpa [Numeral.hasDigit, Numeral.text, (hdigit x hx).utf8Size_eq, Nat.add_assoc] using hmore
    | false =>
      rw [if_neg (by decide)]
      by_cases hpoint : Text.leadByte x = '.'.toUInt8 ∧ seenPoint = false
      · obtain ⟨hbyte, rfl⟩ := hpoint
        obtain rfl := (Text.leadByte_eq_iff (by decide)).mp hbyte
        have hmore := ih seenDigit true (offset + 1) (hnext (by decide))
        rw [if_pos ⟨hbyte, rfl⟩, numeralAhead_point]
        have hsize : Char.utf8Size '.' = 1 := rfl
        simpa [numeralAhead, Numeral.hasDigit, Numeral.text, hsize, Nat.add_assoc] using hmore
      · have hstop : x = '.' → seenPoint = true := by
          rintro rfl
          simpa [Text.leadByte_of_isAscii (show IsAscii '.' by decide)] using hpoint
        rw [if_neg hpoint, numeralAhead_stop hx hstop]
        simpa [Numeral.hasDigit, Numeral.text] using Tracks.pure (seenDigit, offset) c

theorem tracks_number (hc : On text c) :
    Tracks (number text origin) c (Literal.number origin c) := by
  refine (Tracks.get c).bind ((tracks_numberEnd false false hc c).bind ?_)
  have hsplit := Numeral.ofText_text c.rest
  have hproper := @Numeral.proper_ofText c.rest
  have hahead : numeralAhead false c.rest = (Numeral.ofText c.rest).1 := rfl
  unfold Literal.number
  rw [hahead, Bool.false_or]
  generalize Numeral.ofText c.rest = read at hsplit hproper
  obtain ⟨n, rest⟩ := read
  dsimp only at hsplit hproper ⊢
  cases hdigit : n.hasDigit with
  | false => exact Tracks.throw _ c
  | true =>
    have hpiece := hc.slice?_eq hsplit.symm (hproper hdigit).text_ne_nil
    refine (Tracks.checked hpiece c).bind ?_
    rw [(hproper hdigit).ofText?_text]
    dsimp only
    cases hfinite : n.value.isFinite with
    | false => exact Tracks.throw _ c
    | true =>
      exact (Tracks.set c ⟨c.offset + byteLength n.text, rest⟩).bind (Tracks.pure n.value _)

theorem tracks_signedNumber (hc : On text c) :
    Tracks (signedNumber text origin) c (Literal.signedNumber origin c) := by
  unfold Literal.signedNumber
  refine (Tracks.get c).bind (tracks_consume_bind (by decide) hc ?_ ?_)
  · intro hnone
    rw [hnone]
    exact tracks_number hc
  · intro behind hsome hbehind
    rw [hsome]
    refine tracks_skipBlanks_bind hbehind fun hfirst => ?_
    have hnumber : Tracks (number text origin) _ (Literal.number origin _) := tracks_number hfirst
    dsimp only
    cases h : Literal.number origin behind.skipBlanks with
    | found x after =>
      rw [h] at hnumber
      have hnegated : Tracks (do return -(← number text origin)) _ (.found (-x) after) :=
        hnumber.bind (Tracks.pure (-x) after)
      exact hnegated.tryCatch
    | failed e stop =>
      rw [h] at hnumber
      exact hnumber.bind_failed.tryCatch_failed ((Tracks.set stop c).bind (Tracks.throw e c))

/-- The name that was found, if any. -/
def named (c : Cursor) : Option (Text × Cursor) → Scan (Option Text)
  | some (name, after) => .found (some name) after
  | none => .found none c

theorem tracks_name? (hc : On text c) :
    Tracks (name? text) c (named c (Literal.name? c)) := by
  have hword : ∀ x, isWordChar x = true → IsAscii x := fun _ => Text.isAscii_of_isWordChar
  refine (Tracks.get c).bind ?_
  rw [hc.byteAt?_eq]
  unfold Literal.name?
  cases hx : c.peek? with
  | none => exact Tracks.pure none c
  | some x =>
    dsimp only [Option.map_some]
    rw [Text.isByteOf_leadByte fun _ => Text.isAscii_of_isAlpha]
    cases hletter : x.isAlpha with
    | false => exact Tracks.pure none c
    | true =>
      obtain ⟨rest, hrest⟩ := List.head?_eq_some_iff.mp hx
      have hfirst := Token.isWordChar_of_isAlpha hletter
      obtain ⟨start, ahead⟩ := c
      obtain rfl : ahead = x :: rest := hrest
      have hsame : Cursor.skipWhile isWordChar ⟨start, x :: rest⟩
          = Cursor.skipWhile isWordChar ⟨start + 1, rest⟩ := by
        rw [Cursor.skipWhile_cons_of_pos hfirst, (hword x hfirst).utf8Size_eq]
      have hnext := hc.of_reaches (Cursor.passes_ascii (hword x hfirst) start rest).reaches
      have hend := tracks_runEnd hword hnext ⟨start, x :: rest⟩
      have hname := hc.slice?_eq (List.takeWhile_append_dropWhile (p := isWordChar)).symm
        (by simp [hfirst])
      rw [← hsame] at hend
      refine hend.bind ((Tracks.set _ (Cursor.skipWhile isWordChar ⟨start, x :: rest⟩)).bind ?_)
      exact (Tracks.checked hname _).bind (Tracks.pure _ _)

/-! ## 3. Lists -/

theorem hasMarks_isAscii : Literal.HasMarks IsAscii where
  blank := fun _ => Text.isAscii_of_isBlank
  digit := fun _ => Text.isAscii_of_isDigit
  mark := Text.isAscii_of_all rfl

theorem tracks_unexpectedCharacter {x : Char} (hc : On text c) (hx : c.peek? = some x) :
    Tracks (unexpectedCharacter text origin) c
      (.found ⟨.unexpectedCharacter x, c.position origin⟩ c) := by
  obtain ⟨rest, hrest⟩ := List.head?_eq_some_iff.mp hx
  have hahead := hc.slice?_byteLength (by simp [hrest])
  refine (Tracks.get c).bind ((Tracks.checked hahead c).bind ?_)
  rw [hrest]
  exact Tracks.pure _ c

theorem tracks_openBracket (hc : On text c) :
    Tracks (openBracket text origin) c (Literal.openBracket origin c) := by
  unfold Literal.openBracket
  refine tracks_consume_bind (by decide) hc ?_ ?_
  · intro hnone
    rw [hnone]
    refine (Tracks.get c).bind ?_
    rw [hc.byteAt?_eq]
    cases hx : c.peek? with
    | none => exact (Tracks.get c).bind (Tracks.throw _ c)
    | some x => exact (tracks_unexpectedCharacter hc hx).bind (Tracks.throw _ c)
  · intro inside hsome _
    rw [hsome]
    exact Tracks.pure _ inside

theorem tracks_separator (hc : On text c) :
    Tracks (separator text origin opener) c (Literal.separator origin opener c) := by
  refine (Tracks.get c).bind ?_
  rw [hc.byteAt?_eq]
  unfold Literal.separator
  obtain ⟨offset, rest⟩ := c
  cases rest with
  | nil => exact Tracks.throw _ _
  | cons x rest =>
    have hcomma : Text.leadByte x = ','.toUInt8 ↔ x = ',' := Text.leadByte_eq_iff (by decide)
    have hclose : Text.leadByte x = ']'.toUInt8 ↔ x = ']' := Text.leadByte_eq_iff (by decide)
    dsimp only [Cursor.peek?, Cursor.take?, List.head?_cons, Option.map_some]
    by_cases hx : x = ','
    · subst hx
      rw [if_pos (hcomma.mpr rfl), if_pos rfl]
      exact (Tracks.set _ ⟨offset + 1, rest⟩).bind (Tracks.pure true _)
    · rw [if_neg (mt hcomma.mp hx), if_neg hx]
      by_cases hx' : x = ']'
      · subst hx'
        rw [if_pos (hclose.mpr rfl), if_pos rfl]
        exact (Tracks.set _ ⟨offset + 1, rest⟩).bind (Tracks.pure false _)
      · rw [if_neg (mt hclose.mp hx'), if_neg hx']
        exact (tracks_unexpectedCharacter hc rfl).bind (Tracks.throw _ _)

/-- A list goes on behind a comma. -/
theorem comma_of_separator {next : Cursor}
    (h : Literal.separator origin opener c = .found true next) :
    c.rest = ',' :: next.rest ∧ next.offset = c.offset + 1 := by
  unfold Literal.separator at h
  split at h
  · next behind _ _ htake =>
    cases h
    exact Cursor.of_take? htake
  · cases h
  · cases h
  · cases h

section Items

theorem map_nil_append (s : Scan (List α)) : s.map (fun xs => [] ++ xs) = s := by
  cases s <;> rfl

theorem map_cons_append (x : α) (found : List α) (s : Scan (List α)) :
    (s.map (fun xs => x :: xs)).map (fun xs => found ++ xs)
      = s.map (fun xs => found ++ [x] ++ xs) := by
  cases s <;> simp [Scan.map]

variable {item : ByteScanner α} {scan : Cursor → Scan α}

/-- A list that nothing lies ahead of is not closed. -/
theorem tracks_items_of_nil
    (hend : ∀ d, On text d → d.rest = [] → Tracks item d (.failed ⟨.unterminatedBracket, opener⟩ d))
    (hc : On text c) (hnil : c.skipBlanks.rest = []) (bound : Nat) (found : List α) :
    Tracks (items text origin opener item c.offset found) c
      ((Literal.items scan origin opener bound c).map (fun xs => found ++ xs)) := by
  have hfailed : Literal.items scan origin opener bound c
      = .failed ⟨.unterminatedBracket, opener⟩ c.skipBlanks := by
    cases bound with
    | zero => rfl
    | succ bound => simp [Literal.items, Cursor.atEnd, hnil]
  rw [items, hfailed]
  have hfirst := hc.of_reaches (Cursor.reaches_skipBlanks c)
  exact (tracks_skipBlanks hc).bind (hend _ hfirst hnil).bind_failed

/-- **The loop over a list** tracks the rule for lists if its items do; at the end of the text an item
reports that the list is not closed. -/
theorem tracks_items (hitem : ∀ d, On text d → d.rest ≠ [] → Tracks item d (scan d))
    (hend : ∀ d, On text d → d.rest = [] → Tracks item d (.failed ⟨.unterminatedBracket, opener⟩ d))
    (hwithin : ∀ d, (scan d).Within IsAscii d) {bound : Nat} (hbound : c.rest.length ≤ bound)
    (hc : On text c) (found : List α) :
    Tracks (items text origin opener item c.offset found) c
      ((Literal.items scan origin opener bound c).map (fun xs => found ++ xs)) := by
  -- Each round passes a comma, so there are no more rounds than characters ahead.
  induction bound generalizing c found with
  | zero =>
    have hnil : c.rest = [] := List.eq_nil_of_length_eq_zero (Nat.le_zero.mp hbound)
    refine tracks_items_of_nil hend hc ?_ 0 found
    simp [Cursor.skipBlanks, Cursor.skipWhile, hnil]
  | succ bound ih =>
    by_cases hnil : c.skipBlanks.rest = []
    · exact tracks_items_of_nil hend hc hnil _ found
    · have hnotEnd : c.skipBlanks.atEnd = false := by simpa [Cursor.atEnd] using hnil
      have hclosed : ∀ d, (Literal.separator origin opener d).Within IsAscii d :=
        Literal.within_separator hasMarks_isAscii
      unfold Literal.items
      dsimp only
      rw [items, hnotEnd, if_neg (by decide)]
      refine tracks_skipBlanks_bind hc fun hfirst =>
        (hitem _ hfirst hnil).bind_cases (hwithin _) ?_ ?_
      · intro e stop h
        rw [h]
        rfl
      · intro x after h hitemReach
        rw [h]
        refine tracks_skipBlanks_bind (hfirst.of_reaches hitemReach) fun hbehind =>
          (tracks_separator hbehind).bind_cases (hclosed _) ?_ ?_
        · intro e stop h'
          dsimp only
          rw [h']
          rfl
        · intro goesOn next h' hnextReach
          dsimp only
          rw [h']
          cases goesOn with
          | false => exact Tracks.pure _ next
          | true =>
            obtain ⟨hcomma, hnext⟩ := comma_of_separator h'
            have hround : Reaches c after.skipBlanks := Cursor.reaches_trans
              (Cursor.reaches_skipBlanks c)
              (Cursor.reaches_trans hitemReach (Cursor.reaches_skipBlanks after))
            have hless : next.rest.length < c.rest.length := by
              have hle := Cursor.length_le_of_reaches hround
              rw [hcomma, List.length_cons] at hle
              exact hle
            have hfurther : c.offset < next.offset ∧ next.offset ≤ byteLength text := by
              have hforward := Cursor.offset_le_of_reaches hround
              have hinside := (hbehind.of_rest_eq hcomma).1
              omega
            refine (Tracks.get next).bind ?_
            dsimp only
            rw [dif_pos hfurther, map_cons_append]
            exact ih (by omega) (hbehind.of_reaches hnextReach) (found ++ [x])

end Items

/-- In front of a character, an element is a signed number. -/
theorem tracks_element (hc : On text c) (hne : c.rest ≠ []) :
    Tracks (element text origin opener) c (Literal.signedNumber origin c) := by
  have hinside : ¬ byteLength text ≤ c.offset := mt hc.rest_eq_nil_iff.mpr hne
  refine (Tracks.get c).bind ?_
  rw [if_neg hinside]
  exact tracks_signedNumber hc

theorem tracks_element_of_nil (hc : On text c) (hnil : c.rest = []) :
    Tracks (element text origin opener) c (.failed ⟨.unterminatedBracket, opener⟩ c) := by
  refine (Tracks.get c).bind ?_
  rw [if_pos (hc.rest_eq_nil_iff.mp hnil)]
  exact Tracks.throw _ c

theorem tracks_vector (hc : On text c) :
    Tracks (vector text origin) c (Literal.vector origin c) := by
  have hopen : (Literal.openBracket origin c).Within IsAscii c :=
    Literal.within_openBracket hasMarks_isAscii c
  unfold Literal.vector
  refine (Tracks.get c).bind ((tracks_openBracket hc).bind_cases hopen ?_ ?_)
  · intro e stop h
    rw [h]
  · intro _ inside h hreach
    rw [h]
    refine tracks_skipBlanks_bind (hc.of_reaches hreach) fun hfirst =>
      tracks_consume_bind (by decide) hfirst ?_ ?_
    · intro hnone
      dsimp only
      rw [hnone, ← map_nil_append (Literal.items _ _ _ _ _)]
      exact (Tracks.get _).bind (tracks_items (fun _ => tracks_element)
        (fun _ => tracks_element_of_nil) (Literal.within_signedNumber hasMarks_isAscii)
        (Nat.le_refl _) hfirst [])
    · intro behind hsome _
      dsimp only
      rw [hsome]
      exact Tracks.pure [] behind

/-- In front of a character, a row is a vector. -/
theorem tracks_row (hc : On text c) (hne : c.rest ≠ []) :
    Tracks (row text origin opener) c (Literal.vector origin c) := by
  obtain ⟨offset, rest⟩ := c
  obtain ⟨x, rest, rfl⟩ := List.exists_cons_of_ne_nil hne
  refine (Tracks.get _).bind ?_
  rw [hc.byteAt?_eq]
  dsimp only [Cursor.peek?, List.head?_cons, Option.map_some]
  by_cases hx : x = '['
  · rw [if_pos ((Text.leadByte_eq_iff (by decide)).mpr hx)]
    exact tracks_vector hc
  · rw [if_neg (mt (Text.leadByte_eq_iff (by decide)).mp hx)]
    have hfailed : Literal.vector origin ⟨offset, x :: rest⟩
        = .failed ⟨.unexpectedCharacter x, origin.advance offset⟩ ⟨offset, x :: rest⟩ := by
      simp [Literal.vector, Literal.openBracket, Cursor.take?, Cursor.peek?, Cursor.position, hx]
    rw [hfailed]
    exact (tracks_unexpectedCharacter hc rfl).bind (Tracks.throw _ _)

theorem tracks_row_of_nil (hc : On text c) (hnil : c.rest = []) :
    Tracks (row text origin opener) c (.failed ⟨.unterminatedBracket, opener⟩ c) := by
  have hpeek : c.peek? = none := List.head?_eq_none_iff.mpr hnil
  refine (Tracks.get c).bind ?_
  rw [hc.byteAt?_eq, hpeek]
  exact Tracks.throw _ c

theorem tracks_matrix (hc : On text c) :
    Tracks (matrix text origin) c (Literal.matrix origin c) := by
  have hopen : (Literal.openBracket origin c).Within IsAscii c :=
    Literal.within_openBracket hasMarks_isAscii c
  unfold Literal.matrix
  refine (Tracks.get c).bind ((tracks_openBracket hc).bind_cases hopen ?_ ?_)
  · intro e stop h
    rw [h]
  · intro _ inside h hreach
    rw [h]
    dsimp only
    rw [← map_nil_append (Literal.items _ _ _ _ _)]
    exact (Tracks.get inside).bind (tracks_items (fun _ => tracks_row)
      (fun _ => tracks_row_of_nil) (Literal.within_vector hasMarks_isAscii)
      (Nat.le_refl _) (hc.of_reaches hreach) [])

theorem tracks_rational (hc : On text c) :
    Tracks (rational text origin) c (Literal.rational origin c) := by
  have hnumber : ∀ d, (Literal.number origin d).Within IsAscii d :=
    Literal.within_number hasMarks_isAscii
  unfold Literal.rational
  refine tracks_skipBlanks_bind hc fun hfirst => (Tracks.get _).bind
    ((tracks_number hfirst).bind_cases (hnumber _) ?_ ?_)
  · intro e stop h
    dsimp only
    rw [h]
  · intro numerator after h hreach
    dsimp only
    rw [h]
    refine tracks_skipBlanks_bind (hfirst.of_reaches hreach) fun hslash =>
      tracks_consume_bind (by decide) hslash ?_ ?_
    · intro hnone
      dsimp only
      rw [hnone]
      exact Tracks.throw _ _
    · intro behind hsome hbehind
      dsimp only
      rw [hsome]
      refine tracks_skipBlanks_bind hbehind fun hlast => ?_
      have hdenominator : Tracks (number text origin) _ (Literal.number origin _) :=
        tracks_number hlast
      dsimp only
      cases h' : Literal.number origin behind.skipBlanks with
      | found denominator last =>
        rw [h'] at hdenominator
        exact hdenominator.tryCatch.bind (Tracks.pure (numerator, denominator) last)
      | failed e stop =>
        rw [h'] at hdenominator
        have hmalformed : Tracks (reportedAs ⟨.malformedRational, c.skipBlanks.position origin⟩
            (number text origin)) _ (.failed ⟨.malformedRational, c.skipBlanks.position origin⟩ stop) :=
          hdenominator.tryCatch_failed (Tracks.throw _ stop)
        exact hmalformed.bind_failed

end Steps

end ByteScanner
end Abacus
