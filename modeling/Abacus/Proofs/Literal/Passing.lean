/-
# The characters that a scanner passes over

`Cursor.Passes P a b` says that the cursor `b` lies further on than `a` in the same text, and that all
the characters between the two are of the class `P`.  Names, numbers and fractions are gone through
once, each under the assumption that the characters it may take are of the class; the class itself
stays open, so that one lemma on a scanner serves every question about its characters.

Lists are gone through in the same way.  A scanner of a list can also fail in the middle, and then it
stops further on in the text; `Scan.Within` says both at once.

One such question is settled here.  A scanner of literals passes over blanks and over no other
separator, so a fraction literal has no form feed in it.  Nothing else has to be known of its
characters: a text without form feeds is a fraction literal exactly if its tokens are two numbers with
a slash between them.

Main statements:

* `Literal.within_vector`, `Literal.within_matrix`, `Literal.within_rational`: where scanners lead;
* `Literal.isRational_iff`: fraction literals by their tokens.
-/
import Abacus.Proofs.Literal.Agreement
import Abacus.Proofs.Value.Spelling

namespace Abacus

/-- A cursor takes the expected character off what lies ahead. -/
theorem Cursor.of_take? {c d : Cursor} {expected : Char} (h : c.take? expected = some d) :
    c.rest = expected :: d.rest ∧ d.offset = c.offset + expected.utf8Size := by
  unfold take? at h
  split at h
  · cases h
  · next next rest hrest =>
    split at h
    · next heq =>
      cases h
      subst heq
      exact ⟨hrest, rfl⟩
    · cases h

theorem Cursor.Passes.reaches {P : Char → Prop} {c d : Cursor} (h : Passes P c d) : Reaches c d := by
  obtain ⟨taken, hrest, hoffset, -⟩ := h
  exact ⟨taken, hrest, hoffset⟩

/-- The scan leads forward: over characters of a class if it finds something, and otherwise to the place
of the failure. -/
def Scan.Within {α : Type} (P : Char → Prop) (c : Cursor) : Scan α → Prop
  | .found _ after => Cursor.Passes P c after
  | .failed _ stop => Cursor.Reaches c stop

/-! ## 1. Names, numbers and fractions -/

namespace Literal

open Abacus.Cursor (Passes passes_skipWhile passes_skipBlanks passes_take?)

variable {P : Char → Prop} {origin : Position} {c after : Cursor}

theorem passes_name? (hword : ∀ d, Text.isWordChar d = true → P d) {name : Text}
    (h : name? c = some (name, after)) : Passes P c after := by
  unfold name? at h
  split at h
  · split at h
    · cases h
      exact passes_skipWhile hword c
    · cases h
  · cases h

theorem passes_number (hdigit : ∀ d, d.isDigit = true → P d) (hpoint : P '.') {x : Binary64}
    (h : number origin c = .found x after) : Passes P c after := by
  obtain ⟨n, hproper, hread, -, -, hoffset⟩ := of_number h
  have hsplit := Numeral.ofText_text c.rest
  rw [hread] at hsplit
  refine ⟨n.text, hsplit.symm, hoffset, ?_⟩
  intro d hd
  rcases hproper.mem_text hd with hd | rfl
  · exact hdigit d hd
  · exact hpoint

theorem passes_rational (hblank : ∀ d, Text.isBlank d = true → P d)
    (hdigit : ∀ d, d.isDigit = true → P d) (hpoint : P '.') (hslash : P '/')
    {q : Binary64 × Binary64} (h : rational origin c = .found q after) : Passes P c after := by
  have hskip := passes_skipBlanks hblank
  unfold rational at h
  dsimp only at h
  split at h
  · cases h
  · next x behind hx =>
    split at h
    · cases h
    · next next hnext =>
      split at h
      · cases h
      · next y after' hy =>
        cases h
        have hnumerator := (hskip c).trans (passes_number hdigit hpoint hx)
        have hdivision := (hskip behind).trans (passes_take? hslash hnext)
        exact (hnumerator.trans hdivision).trans
          ((hskip next).trans (passes_number hdigit hpoint hy))

theorem stop_of_number {e : Error} {stop : Cursor} (h : number origin c = .failed e stop) :
    stop = c := by
  unfold number at h
  dsimp only at h
  split at h
  · cases h
    rfl
  · split at h
    · cases h
      rfl
    · cases h

theorem stop_of_signedNumber {e : Error} {stop : Cursor}
    (h : signedNumber origin c = .failed e stop) : stop = c := by
  unfold signedNumber at h
  split at h
  · exact stop_of_number h
  · split at h
    · cases h
    · cases h
      rfl

/-! ## 2. Lists -/

/-- The class has all the characters in it that literals are written with. -/
structure HasMarks (P : Char → Prop) : Prop where
  blank : ∀ d, Text.isBlank d = true → P d
  digit : ∀ d, d.isDigit = true → P d
  mark : ∀ d ∈ ['.', '-', '/', '[', ',', ']'], P d

section Within

variable {α β : Type} {s : Scan α} {d : Cursor} {opener : Position}

theorem within_of_passes (h : Passes P c d) (hs : s.Within P d) : s.Within P c := by
  cases s with
  | found x after => exact h.trans hs
  | failed e stop => exact Cursor.reaches_trans h.reaches hs

theorem within_map {f : α → β} (hs : s.Within P c) : (s.map f).Within P c := by
  cases s with
  | found x after => exact hs
  | failed e stop => exact hs

theorem within_number (hP : HasMarks P) (c : Cursor) : (number origin c).Within P c := by
  cases h : number origin c with
  | found x after => exact passes_number hP.digit (hP.mark '.' (by simp)) h
  | failed e stop =>
    rw [stop_of_number h]
    exact Cursor.reaches_refl c

theorem within_signedNumber (hP : HasMarks P) (c : Cursor) :
    (signedNumber origin c).Within P c := by
  unfold signedNumber
  split
  · exact within_number hP c
  · next behind htake =>
    have hsign := passes_take? (hP.mark '-' (by simp)) htake
    split
    · next x after hnumber =>
      have hmagnitude := passes_number hP.digit (hP.mark '.' (by simp)) hnumber
      exact (hsign.trans (passes_skipBlanks hP.blank behind)).trans hmagnitude
    · exact Cursor.reaches_refl c

theorem within_openBracket (hP : HasMarks P) (c : Cursor) :
    (openBracket origin c).Within P c := by
  unfold openBracket
  split
  · next inside _ htake => exact passes_take? (hP.mark '[' (by simp)) htake
  · exact Cursor.reaches_refl c
  · exact Cursor.reaches_refl c

theorem within_separator (hP : HasMarks P) (c : Cursor) :
    (separator origin opener c).Within P c := by
  unfold separator
  split
  · next next _ _ htake => exact passes_take? (hP.mark ',' (by simp)) htake
  · next after _ _ htake => exact passes_take? (hP.mark ']' (by simp)) htake
  · exact Cursor.reaches_refl c
  · exact Cursor.reaches_refl c

/-- The loop over a list leads where its items lead. -/
theorem within_items (hP : HasMarks P) {item : Cursor → Scan α}
    (hitem : ∀ d, (item d).Within P d) (bound : Nat) (c : Cursor) :
    (items item origin opener bound c).Within P c := by
  induction bound generalizing c with
  | zero => exact Cursor.reaches_skipBlanks c
  | succ bound ih =>
    have hskip := passes_skipBlanks hP.blank
    have hfirst := hitem c.skipBlanks
    unfold items
    dsimp only
    split
    · exact Cursor.reaches_skipBlanks c
    · split
      · next e stop hx =>
        rw [hx] at hfirst
        exact Cursor.reaches_trans (Cursor.reaches_skipBlanks c) hfirst
      · next x after hx =>
        rw [hx] at hfirst
        have hitems := ((hskip c).trans hfirst).trans (hskip after)
        have hnext : (separator origin opener after.skipBlanks).Within P after.skipBlanks :=
          within_separator hP _
        split
        · next e stop hsep =>
          rw [hsep] at hnext
          exact Cursor.reaches_trans hitems.reaches hnext
        · next behind hsep =>
          rw [hsep] at hnext
          exact hitems.trans hnext
        · next next hsep =>
          rw [hsep] at hnext
          exact within_of_passes (hitems.trans hnext) (within_map (ih next))

theorem within_vector (hP : HasMarks P) (c : Cursor) : (vector origin c).Within P c := by
  have hopen : (openBracket origin c).Within P c := within_openBracket hP c
  unfold vector
  split
  · next e stop hbracket =>
    rw [hbracket] at hopen
    exact hopen
  · next inside hbracket =>
    rw [hbracket] at hopen
    have hfirst := hopen.trans (passes_skipBlanks hP.blank inside)
    dsimp only
    split
    · next behind htake => exact hfirst.trans (passes_take? (hP.mark ']' (by simp)) htake)
    · exact within_of_passes hfirst (within_items hP (within_signedNumber hP) _ _)

theorem within_matrix (hP : HasMarks P) (c : Cursor) : (matrix origin c).Within P c := by
  have hopen : (openBracket origin c).Within P c := within_openBracket hP c
  unfold matrix
  split
  · next e stop hbracket =>
    rw [hbracket] at hopen
    exact hopen
  · next inside hbracket =>
    rw [hbracket] at hopen
    exact within_of_passes hopen (within_items hP (within_vector hP) _ _)

theorem within_rational (hP : HasMarks P) (c : Cursor) : (rational origin c).Within P c := by
  have hskip := passes_skipBlanks hP.blank
  have hnumber : ∀ d, (number origin d).Within P d := within_number hP
  have hnumerator := hnumber c.skipBlanks
  unfold rational
  dsimp only
  refine within_of_passes (hskip c) ?_
  split
  · next e stop h =>
    rw [h] at hnumerator
    exact hnumerator
  · next x after h =>
    rw [h] at hnumerator
    refine within_of_passes (hnumerator.trans (hskip after)) ?_
    split
    · exact Cursor.reaches_refl _
    · next behind htake =>
      have hdenominator := hnumber behind.skipBlanks
      have hslash := passes_take? (hP.mark '/' (by simp)) htake
      refine within_of_passes (hslash.trans (hskip behind)) ?_
      split
      · next e stop h' =>
        rw [h'] at hdenominator
        exact hdenominator
      · next y after' h' =>
        rw [h'] at hdenominator
        exact hdenominator

end Within

/-! ## 3. Fraction literals -/

variable {text : Text}

/-- A fraction literal consists of blanks, digits, points and a slash. -/
theorem formFeed_notMem_of_isRational (h : isRational text = true) : '\x0c' ∉ text := by
  have hblank : ∀ d, Text.isBlank d = true → '\x0c' ≠ d := by
    rintro _ hd rfl
    cases hd
  have hdigit : ∀ d, d.isDigit = true → '\x0c' ≠ d := by
    rintro _ hd rfl
    cases hd
  have hskip := passes_skipBlanks hblank
  obtain ⟨q, after, hfound, hend⟩ := coversText_iff.mp h
  have hrational := passes_rational hblank hdigit (by decide) (by decide) hfound
  obtain ⟨taken, hrest, -, hall⟩ := ((hskip (Cursor.start text)).trans hrational).trans (hskip after)
  rw [List.isEmpty_iff.mp hend, List.append_nil] at hrest
  intro hmem
  have htext : text = taken := hrest
  exact hall _ (htext ▸ hmem) rfl

/-- The lexemes of a fraction literal, the first of them where the scanner starts. -/
theorem lex_of_isRational (h : isRational text = true) (origin : Position) :
    ∃ x y q r s, Token.lex origin text
        = .ok [⟨.number x, (Cursor.start text).skipBlanks.position origin⟩, ⟨.operator .div, q⟩,
            ⟨.number y, r⟩, ⟨.endOfInput, s⟩] ∧
      ∃ after, rational origin (Cursor.start text).skipBlanks = .found (x, y) after := by
  obtain ⟨⟨x, y⟩, after, hfound, hend⟩ := coversText_iff.mp h
  obtain ⟨q, r, hbetween⟩ := between_rational origin hfound
  obtain ⟨s, hlex⟩ := lex_of_between hbetween hend
  rw [skipBlanks_skipBlanks] at hlex
  exact ⟨x, y, q, r, s, hlex, after, (alike_rational _ _ _).of_found hfound⟩

/-- **Fraction literals by their tokens**: two numbers with a slash between them and no form feed. -/
theorem isRational_iff {origin : Position} {ls : List Lexeme} (hlex : Token.lex origin text = .ok ls) :
    isRational text = true ↔ '\x0c' ∉ text ∧ ∃ x y,
      tokens ls = [.number x, .operator .div, .number y, .endOfInput] := by
  constructor
  · intro h
    obtain ⟨x, y, q, r, s, hlex', -⟩ := lex_of_isRational h origin
    rw [hlex] at hlex'
    cases hlex'
    exact ⟨formFeed_notMem_of_isRational h, x, y, rfl⟩
  · rintro ⟨hfeed, x, y, htokens⟩
    obtain ⟨body, e, rfl, hcuts⟩ := Token.cuts_of_lex hlex
    rw [tokens_append] at htokens
    change tokens body ++ [.endOfInput] = [.number x, .operator .div, .number y] ++ [.endOfInput]
      at htokens
    have hbody := List.append_cancel_right htokens
    obtain ⟨p, _, rfl, hslash⟩ := Expr.exists_of_tokens_cons hbody
    obtain ⟨q, _, rfl, hdenominator⟩ := Expr.exists_of_tokens_cons hslash
    obtain ⟨r, _, rfl, hnil⟩ := Expr.exists_of_tokens_cons hdenominator
    obtain rfl := Expr.eq_nil_of_tokens hnil
    exact coversText_iff.mpr ⟨(x, y),
      found_of_ahead (complete_rational .unknown) ⟨p, q, r, rfl⟩ ⟨hfeed, origin, e, hcuts⟩⟩

end Literal
end Abacus
