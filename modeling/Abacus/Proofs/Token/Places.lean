/-
# Places in a text

A column counts bytes.  It counts characters as well as long as every character in front of it is an
ASCII character, and this is how the lexer reports places: a character of any other kind starts no
token and separates none, so the lexer never gets past one.

`IsPlace p text q after` says that in a text that starts at `p`, the place `q` is right in front of
`after`, and that what is in front of it is ASCII.  `Error.StandsIn` says that an error is at such a
place, and that a character that it reports as unexpected is the one that stands there.

Main statements:

* `Token.raises_lex`: the errors of the lexer stand in the text;
* `Token.isPlace_of_lex`: so do its lexemes.
-/
import Abacus.Proofs.Outcome
import Abacus.Proofs.Token.Cuts

namespace Abacus

/-! ## 1. ASCII characters -/

namespace Text

/-- A character of one byte. -/
def IsAscii (c : Char) : Prop := c.toNat < 128

instance (c : Char) : Decidable (IsAscii c) := inferInstanceAs (Decidable (c.toNat < 128))

theorem IsAscii.utf8Size_eq {c : Char} (h : IsAscii c) : c.utf8Size = 1 :=
  Char.utf8Size_eq_one_iff.mpr (UInt32.le_iff_toNat_le.mpr (Nat.le_of_lt_succ h))

theorem isAscii_of_isDigit {c : Char} (h : c.isDigit = true) : IsAscii c :=
  Nat.lt_of_le_of_lt (Char.isDigit_iff_toNat.mp h).2 (by decide)

theorem isAscii_of_isAlpha {c : Char} (h : c.isAlpha = true) : IsAscii c := by
  have hletter : c.isAlpha = (decide ('A'.val ≤ c.val ∧ c.val ≤ 'Z'.val)
      || (decide ('a'.val ≤ c.val) && decide (c.val ≤ 'z'.val))) := rfl
  rw [hletter, Bool.or_eq_true, Bool.and_eq_true, decide_eq_true_iff, decide_eq_true_iff,
    decide_eq_true_iff] at h
  rcases h with ⟨-, hle⟩ | ⟨-, hle⟩
  · exact Nat.lt_of_le_of_lt (UInt32.le_iff_toNat_le.mp hle) (by decide)
  · exact Nat.lt_of_le_of_lt (UInt32.le_iff_toNat_le.mp hle) (by decide)

theorem isAscii_of_isWordChar {c : Char} (h : isWordChar c = true) : IsAscii c := by
  simp only [isWordChar, Char.isAlphanum, Bool.or_eq_true, beq_iff_eq] at h
  rcases h with (halpha | hdigit) | rfl
  · exact isAscii_of_isAlpha halpha
  · exact isAscii_of_isDigit hdigit
  · exact by decide

theorem isAscii_of_isBlank {c : Char} (h : isBlank c = true) : IsAscii c := by
  simp only [isBlank, Bool.or_eq_true, beq_iff_eq] at h
  rcases h with rfl | rfl <;> decide

/-- The check that runs over a text that is written out. -/
theorem isAscii_of_all {text : Text} (h : text.all (fun c => decide (IsAscii c)) = true) :
    ∀ c ∈ text, IsAscii c :=
  fun c hc => of_decide_eq_true (List.all_eq_true.mp h c hc)

/-- A text of ASCII characters has as many bytes as characters. -/
theorem byteLength_of_isAscii {text : Text} (h : ∀ c ∈ text, IsAscii c) :
    byteLength text = text.length := by
  induction text with
  | nil => rfl
  | cons c text ih =>
    obtain ⟨hc, hmore⟩ := List.forall_mem_cons.mp h
    rw [byteLength_cons, hc.utf8Size_eq, ih hmore, List.length_cons, Nat.add_comm]

/-- The bytes of ASCII characters are the ASCII bytes. -/
theorem bytes_of_isAscii {text : Text} (h : ∀ c ∈ text, IsAscii c) :
    ∀ byte ∈ bytes text, byte < 128 := by
  intro byte hbyte
  obtain ⟨c, hc, hmem⟩ := List.mem_flatMap.mp hbyte
  rw [String.utf8EncodeChar_eq_singleton (h c hc).utf8Size_eq, List.mem_singleton] at hmem
  subst hmem
  have hcode : c.val.toNat < 128 := h c hc
  rw [UInt8.lt_iff_toNat_lt, UInt32.toNat_toUInt8]
  exact Nat.lt_of_le_of_lt (Nat.mod_le _ _) hcode

/-- What lies behind the bytes of a front of a text. -/
theorem dropBytes_append (before after : Text) :
    dropBytes (byteLength before) (before ++ after) = after := by
  induction before with
  | nil =>
    rw [byteLength_nil, List.nil_append]
    cases after <;> rfl
  | cons c before ih =>
    obtain ⟨n, hn⟩ := Nat.exists_eq_add_one.mpr c.utf8Size_pos
    have hlength : byteLength (c :: before) = n + byteLength before + 1 := by
      rw [byteLength_cons, hn, Nat.add_right_comm]
    have hfits : c.utf8Size ≤ n + byteLength before + 1 := by omega
    have hleft : n + byteLength before + 1 - c.utf8Size = byteLength before := by omega
    rw [hlength, List.cons_append, dropBytes, if_pos hfits, hleft, ih]

end Text

/-! ## 2. Places -/

/-- The place right in front of `after` in a text that starts at `p`, with ASCII characters only in
front of it. -/
def IsPlace (p : Position) (text : Text) (q : Position) (after : Text) : Prop :=
  ∃ before, text = before ++ after ∧ (∀ c ∈ before, Text.IsAscii c) ∧
    q = p.advance (Text.byteLength before)

section IsPlace

variable {p q r : Position} {text mid after : Text}

theorem isPlace_start (p : Position) (text : Text) : IsPlace p text p text :=
  ⟨[], rfl, by simp, rfl⟩

theorem IsPlace.trans (h : IsPlace p text q mid) (h' : IsPlace q mid r after) :
    IsPlace p text r after := by
  obtain ⟨s, rfl, hs, rfl⟩ := h
  obtain ⟨t, rfl, ht, rfl⟩ := h'
  refine ⟨s ++ t, (List.append_assoc _ _ _).symm, List.forall_mem_append.mpr ⟨hs, ht⟩, ?_⟩
  rw [Position.advance_advance, Text.byteLength_append]

/-- Behind ASCII characters at the front. -/
theorem isPlace_append {before : Text} (h : ∀ c ∈ before, Text.IsAscii c) (p : Position)
    (after : Text) :
    IsPlace p (before ++ after) (p.advance (Text.byteLength before)) after :=
  ⟨before, rfl, h, rfl⟩

end IsPlace

/-- The error stands at a place in the text, in front of the character that it reports as
unexpected. -/
def Error.StandsIn (e : Error) (p : Position) (text : Text) : Prop :=
  ∃ after, IsPlace p text e.position after ∧
    ∀ c, e.cause = .unexpectedCharacter c → after.head? = some c

/-- An error further on in a text stands in the text. -/
theorem Error.StandsIn.of_place {e : Error} {p q : Position} {text mid : Text}
    (h : e.StandsIn q mid) (hplace : IsPlace p text q mid) : e.StandsIn p text := by
  obtain ⟨after, hafter, hcharacter⟩ := h
  exact ⟨after, hplace.trans hafter, hcharacter⟩

/-! ## 3. The lexer -/

namespace Token

theorem isAscii_of_isGap {c : Char} (h : isGap c = true) : Text.IsAscii c := by
  simp only [isGap, Bool.or_eq_true, beq_iff_eq] at h
  rcases h with (rfl | rfl) | rfl <;> decide

/-- A token that is neither a name nor a number is written in ASCII. -/
theorem isAscii_text {t : Token} (h : t.isOperand = false) : ∀ c ∈ t.text, Text.IsAscii c := by
  cases t with
  | number x => cases h
  | name text => cases h
  | operator op => cases op <;> exact Text.isAscii_of_all rfl
  | assignOperator op => cases op <;> exact Text.isAscii_of_all rfl
  | _ => exact Text.isAscii_of_all rfl

/-- A token takes ASCII characters only. -/
theorem isAscii_of_scan? {cs slice after : Text} {t : Token}
    (h : scan? cs = some (t, slice, after)) : ∀ c ∈ slice, Text.IsAscii c := by
  rcases scan?_cases h with ⟨-, -, -, -, -, rfl, -⟩ | ⟨n, hproper, -, -, rfl⟩ | ⟨_, _, -, -, -, hsymbol⟩
  · exact fun c hc => Text.isAscii_of_isWordChar (List.mem_takeWhile_imp hc)
  · intro c hc
    rcases hproper.mem_text hc with hdigit | rfl
    · exact Text.isAscii_of_isDigit hdigit
    · exact by decide
  · obtain ⟨rfl, hoperand, -⟩ := text_of_symbol? hsymbol
    exact isAscii_text hoperand

/-- The place behind a gap or a token. -/
theorem isPlace_of_scan? {cs slice after : Text} {t : Token}
    (h : scan? cs = some (t, slice, after)) (p : Position) :
    IsPlace p cs (p.advance (Text.byteLength slice)) after := by
  have hplace := isPlace_append (isAscii_of_scan? h) p after
  rwa [(scan?_split h).1] at hplace

theorem isPlace_of_isGap {c : Char} (h : isGap c = true) (p : Position) (cs : Text) :
    IsPlace p (c :: cs) (p.advance c.utf8Size) cs := by
  have hplace := isPlace_append (List.forall_mem_singleton.mpr (isAscii_of_isGap h)) p cs
  rwa [Text.byteLength_cons, Text.byteLength_nil, Nat.add_zero] at hplace

/-- **The errors of the lexer** stand in the text. -/
theorem raises_lex (p : Position) (cs : Text) : Raises (fun e => e.StandsIn p cs) (lex p cs) := by
  induction p, cs using lex.induct with
  | case1 p =>
    rw [lex]
    exact raises_ok _
  | case2 p c rest hgap ih =>
    rw [lex, if_pos hgap]
    exact ih.mono (fun _ h => h.of_place (isPlace_of_isGap hgap p rest))
  | case3 p c rest hgap hscan =>
    rw [lex_of_scan?_eq_none hgap hscan]
    refine raises_error ⟨c :: rest, isPlace_start _ _, ?_⟩
    rintro d ⟨⟩
    rfl
  | case4 p c rest hgap token slice after hscan hlarge =>
    rw [lex_of_scan? hscan, if_pos hlarge]
    refine raises_error ⟨c :: rest, isPlace_start _ _, ?_⟩
    rintro d ⟨⟩
  | case5 p c rest hgap token slice after hscan hsmall ih =>
    rw [lex_of_scan? hscan, if_neg hsmall]
    exact (ih.mono (fun _ h => h.of_place (isPlace_of_scan? hscan p))).map _

/-- Lexemes further on in a text stand in the text. -/
theorem stand_of_place {p q : Position} {text mid : Text} {ls : List Lexeme}
    (h : ∀ l ∈ ls, ∃ after, IsPlace q mid l.position after) (hplace : IsPlace p text q mid) :
    ∀ l ∈ ls, ∃ after, IsPlace p text l.position after := by
  intro l hl
  obtain ⟨after, hafter⟩ := h l hl
  exact ⟨after, hplace.trans hafter⟩

/-- **The lexemes** stand in the text. -/
theorem Cuts.isPlace {p q : Position} {cs rest : Text} {ls : List Lexeme} (h : Cuts p cs ls q rest) :
    (∀ l ∈ ls, ∃ after, IsPlace p cs l.position after) ∧ IsPlace p cs q rest := by
  induction h with
  | done => exact ⟨by simp, isPlace_start _ _⟩
  | @gap p q c cs rest ls hgap _ ih =>
    have hplace := isPlace_of_isGap hgap p cs
    exact ⟨stand_of_place ih.1 hplace, hplace.trans ih.2⟩
  | @token p q cs slice after rest t ls hscan _ _ ih =>
    have hplace := isPlace_of_scan? hscan p
    have hfirst : ∃ after, IsPlace p cs p after := ⟨cs, isPlace_start _ _⟩
    exact ⟨List.forall_mem_cons.mpr ⟨hfirst, stand_of_place ih.1 hplace⟩, hplace.trans ih.2⟩

theorem isPlace_of_lex {p : Position} {cs : Text} {ls : List Lexeme} (h : lex p cs = .ok ls) :
    ∀ l ∈ ls, ∃ after, IsPlace p cs l.position after := by
  obtain ⟨body, q, rfl, hcuts⟩ := cuts_of_lex h
  refine List.forall_mem_append.mpr ⟨hcuts.isPlace.1, ?_⟩
  exact List.forall_mem_singleton.mpr ⟨[], hcuts.isPlace.2⟩

end Token
end Abacus
