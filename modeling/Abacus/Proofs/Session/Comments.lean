/-
# Comments have no value

A comment is a line whose first two characters, behind white space, are slashes.  The loops over scripts
and batches pass comments by before they look for a statement.  The prompt loop does not: it runs a
comment as any other line, and the line fails.

It fails because of the first slash.  There is no letter in front of it, so the line has no target: what
is in it is either an equals sign with no name before it or an expression.  For an expression, the lexer
stops in the white space, or the slash is the first token; and no expression starts with a slash, no
fraction literal either.

Main statements:

* `exists_comment`: a comment is white space, two slashes, and anything;
* `Token.exists_slash`: if the lexer gets through a comment at all, the slash is the first token;
* `exists_error_of_isComment`: a comment that is run as a statement is an error.
-/
import Abacus.Proofs.Evaluation.Routes
import Abacus.Proofs.Session.Relocation

namespace Abacus

/-! ## 1. White space -/

namespace Text

theorem toNat_of_isSpace {c : Char} (h : isSpace c = true) : c.toNat ≤ 32 ∨ 133 ≤ c.toNat := by
  unfold isSpace at h
  simp only [Bool.or_eq_true, Bool.and_eq_true, decide_eq_true_eq, beq_iff_eq, or_assoc,
    Char.le_def, UInt32.le_iff_toNat_le] at h
  rcases h with ⟨-, h⟩ | rfl | rfl | rfl | rfl | ⟨h, -⟩ | rfl | rfl | rfl | rfl | rfl
  · exact Or.inl (Nat.le_trans h (by decide))
  · exact Or.inl (by decide)
  · exact Or.inr (by decide)
  · exact Or.inr (by decide)
  · exact Or.inr (by decide)
  · exact Or.inr (Nat.le_trans (by decide) h)
  · exact Or.inr (by decide)
  · exact Or.inr (by decide)
  · exact Or.inr (by decide)
  · exact Or.inr (by decide)
  · exact Or.inr (by decide)

theorem toNat_of_isAlpha {c : Char} (h : c.isAlpha = true) : 65 ≤ c.toNat ∧ c.toNat ≤ 122 := by
  have hletter : c.isAlpha = (decide ('A'.val ≤ c.val ∧ c.val ≤ 'Z'.val)
      || (decide ('a'.val ≤ c.val) && decide (c.val ≤ 'z'.val))) := rfl
  simp only [hletter, Bool.or_eq_true, Bool.and_eq_true, decide_eq_true_eq,
    UInt32.le_iff_toNat_le] at h
  rcases h with ⟨hlow, hhigh⟩ | ⟨hlow, hhigh⟩
  · exact ⟨hlow, Nat.le_trans hhigh (by decide)⟩
  · exact ⟨Nat.le_trans (by decide) hlow, hhigh⟩

theorem isAlpha_of_isSpace {c : Char} (h : isSpace c = true) : c.isAlpha = false := by
  have hspace := toNat_of_isSpace h
  cases hletter : c.isAlpha with
  | false => rfl
  | true =>
    have hrange := toNat_of_isAlpha hletter
    omega

theorem isDigit_of_isSpace {c : Char} (h : isSpace c = true) : c.isDigit = false := by
  have hspace := toNat_of_isSpace h
  cases hdigit : c.isDigit with
  | false => rfl
  | true =>
    have hrange : 48 ≤ c.toNat ∧ c.toNat ≤ 57 := Char.isDigit_iff_toNat.mp hdigit
    omega

end Text

namespace Token

/-- White space starts no token. -/
theorem scan?_of_isSpace {c : Char} (h : Text.isSpace c = true) (cs : Text) :
    scan? (c :: cs) = none := by
  have hends : Numeral.Ends (c :: cs) := by
    intro d hd
    cases hd
    refine ⟨by simp [Text.isDigit_of_isSpace h], ?_⟩
    rintro rfl
    cases h
  have hoperator : Operator.ofSymbol? c = none := by
    cases hop : Operator.ofSymbol? c with
    | none => rfl
    | some op =>
      obtain rfl := symbol_of_ofSymbol? hop
      cases op <;> cases h
  have hpunctuation : punctuation? c = none := by
    unfold punctuation?
    split <;> first | rfl | cases h
  rw [scan?_of_ends (Text.isAlpha_of_isSpace h) hends]
  simp only [symbol?, hoperator, hpunctuation, Option.map_none]

end Token

/-! ## 2. Comments -/

namespace Environment

/-- The first characters of the line, behind white space, are two slashes. -/
def isComment (line : Text) : Bool := ['/', '/'].isPrefixOf (Text.trim line)

/-- Blank lines and comments hold no statement. -/
theorem isSkipped_eq (line : Text) :
    isSkipped line = ((Text.trim line).isEmpty || isComment line) := by
  unfold isSkipped isComment
  split
  · next h => simp [h]
  · next h => simp [h, List.isPrefixOf]
  · next hnil hslash =>
    symm
    rw [Bool.or_eq_false_iff, List.isEmpty_eq_false_iff, ← Bool.not_eq_true,
      List.isPrefixOf_iff_prefix]
    refine ⟨hnil, ?_⟩
    rintro ⟨back, hback⟩
    exact hslash back hback.symm

/-- A comment is no blank line. -/
theorem trim_ne_nil_of_isComment {line : Text} (h : isComment line = true) :
    Text.trim line ≠ [] := by
  intro hblank
  rw [isComment, hblank] at h
  cases h

/-- A comment is white space, two slashes, and anything. -/
theorem exists_comment {line : Text} (h : isComment line = true) :
    ∃ front back, line = front ++ '/' :: '/' :: back ∧ ∀ c ∈ front, Text.isSpace c = true := by
  have hslashes : ['/', '/'] <+: Text.trim line := List.isPrefixOf_iff_prefix.mp h
  obtain ⟨back, hback⟩ := hslashes.trans (Text.trimEndWhile_prefix Text.isSpace _)
  refine ⟨line.takeWhile Text.isSpace, back, ?_, fun c hc => ?_⟩
  · change '/' :: '/' :: back = line.dropWhile Text.isSpace at hback
    rw [hback, List.takeWhile_append_dropWhile]
  · exact List.all_eq_true.mp List.all_takeWhile c hc

end Environment

section Slashes

variable {front back : Text} (hfront : ∀ c ∈ front, Text.isSpace c = true)

include hfront

/-- If a comment is cut into tokens at all, the first slash is the first token. -/
theorem Token.Cuts.exists_slash {p q : Position} {ls : List Lexeme}
    (h : Token.Cuts p (front ++ '/' :: '/' :: back) ls q []) :
    ∃ r more, ls = ⟨.operator .div, r⟩ :: more := by
  induction front generalizing p with
  | nil =>
    cases h with
    | gap hgap _ => cases hgap
    | token hscan _ _ =>
      cases hscan
      exact ⟨p, _, rfl⟩
  | cons c front ih =>
    obtain ⟨hc, hmore⟩ := List.forall_mem_cons.mp hfront
    cases h with
    | gap _ hcuts => exact ih hmore hcuts
    | token hscan _ _ =>
      rw [List.cons_append, Token.scan?_of_isSpace hc] at hscan
      cases hscan

/-- A comment has no tree. -/
theorem Expr.parse_slashes (origin : Position) (e : Expr) :
    Expr.parse (front ++ '/' :: '/' :: back) origin ≠ .ok e := by
  intro h
  obtain ⟨body, q, hcuts, hreads⟩ := Expr.cuts_of_parse h
  obtain ⟨r, more, rfl⟩ := hcuts.exists_slash hfront
  obtain ⟨token, p, more', heq, hstart⟩ := hreads.exists_first
  cases heq
  rcases hstart with hstart | hstart <;> cases hstart

/-- A comment is no fraction literal. -/
theorem Literal.isRational_slashes :
    Literal.isRational (front ++ '/' :: '/' :: back) = false := by
  rw [← Bool.not_eq_true]
  intro h
  obtain ⟨x, y, p, q, r, hlex, -⟩ := Literal.lex_of_isRational h Position.unknown
  obtain ⟨body, s, heq, hcuts⟩ := Token.cuts_of_lex hlex
  obtain ⟨t, more, rfl⟩ := hcuts.exists_slash hfront
  cases heq

/-- Behind the blanks, a comment goes on with no letter. -/
theorem Text.isAlpha_head?_slashes :
    ∀ d ∈ ((front ++ '/' :: '/' :: back).dropWhile isBlank).head?, d.isAlpha = false := by
  induction front with
  | nil =>
    intro d hd
    cases hd
    rfl
  | cons c front ih =>
    obtain ⟨hc, hmore⟩ := List.forall_mem_cons.mp hfront
    rw [List.cons_append]
    by_cases hblank : isBlank c = true
    · rw [List.dropWhile_cons_of_pos hblank]
      exact ih hmore
    · rw [List.dropWhile_cons_of_neg hblank]
      intro d hd
      cases hd
      exact isAlpha_of_isSpace hc

/-- A comment has no target. -/
theorem Statement.named?_slashes (line : Nat) :
    Statement.named? (front ++ '/' :: '/' :: back) line = none := by
  have hname : Literal.name? (Cursor.start (front ++ '/' :: '/' :: back)).skipBlanks = none := by
    unfold Literal.name?
    split
    · next first hfirst => rw [if_neg (by simp [Text.isAlpha_head?_slashes hfront first hfirst])]
    · rfl
  rw [Statement.named?, hname]

end Slashes

namespace Environment

/-- **A comment has no value**: it is an error if it is run as a statement. -/
theorem exists_error_of_isComment (env : Environment) {text : Text} (h : isComment text = true)
    (line : Nat) : ∃ e, env.executeLine text line = (env, .error e) := by
  obtain ⟨front, back, rfl, hfront⟩ := exists_comment h
  have hanswer := env.snd_executeLine (front ++ '/' :: '/' :: back) line
  rcases hline : env.executeLine (front ++ '/' :: '/' :: back) line with ⟨after, result⟩
  cases result with
  | error e =>
    obtain rfl := executeLine_eq_error hline
    exact ⟨e, rfl⟩
  | ok v =>
    rw [hline] at hanswer
    obtain ⟨s, hparse, hvalue⟩ := bind_eq_ok hanswer.symm
    rw [Statement.parse_eq, Statement.named?_slashes hfront, Option.elim_none,
      Statement.plain] at hparse
    split at hparse
    · cases hparse
    · cases hparse
      rw [answer, env.evaluate_eq_evaluateArithmetic _ _ (Literal.isRational_slashes hfront),
        evaluateArithmetic_eq_eval] at hvalue
      obtain ⟨e, htree, -⟩ := bind_eq_ok hvalue
      exact absurd htree (Expr.parse_slashes hfront _ e)

end Environment
end Abacus
