/-
# Written tokens with blanks between them

A token that the lexer can produce is read back from its written form.  What may stand behind it is
the only difficulty: a letter would go on with a name, a digit with a number and an equals sign with
an operator.  A blank goes on with nothing, so tokens with blanks between them are read back one by
one.

Not every token is written in a way that can be read: a number with a sign or an infinity is no
single token, a name has to be an identifier, and the end of the text has no written form
(`Token.isWritable`).

Main statements:

* `Token.scan?_text`: a writable token is read back in front of a blank or the end of the text;
* `Token.cuts_spaced`: writable tokens with blanks between them are read back;
* `Token.Cuts.isWritable`: the lexer takes off writable tokens only.
-/
import Abacus.Proofs.Token.Cuts

namespace Abacus

/-- A letter followed by letters, digits and underscores. -/
def Text.isIdentifier : Text → Bool
  | [] => false
  | c :: cs => c.isAlpha && cs.all Text.isWordChar

theorem Text.isWordChar_of_isIdentifier {text : Text} (h : text.isIdentifier = true) :
    ∀ c ∈ text, Text.isWordChar c = true := by
  cases text with
  | nil => cases h
  | cons c cs =>
    obtain ⟨hfirst, hmore⟩ := Bool.and_eq_true_iff.mp h
    exact List.forall_mem_cons.mpr
      ⟨Token.isWordChar_of_isAlpha hfirst, fun d hd => List.all_eq_true.mp hmore d hd⟩

/-- A word that starts with a letter is an identifier. -/
theorem Text.isIdentifier_takeWhile {c : Char} (h : c.isAlpha = true) (cs : Text) :
    Text.isIdentifier ((c :: cs).takeWhile Text.isWordChar) = true := by
  rw [List.takeWhile_cons_of_pos (Token.isWordChar_of_isAlpha h)]
  exact Bool.and_eq_true_iff.mpr
    ⟨h, List.all_eq_true.mpr (fun _ hd => List.mem_takeWhile_imp hd)⟩

namespace Token

/-! ## 1. Single tokens -/

/-- The token has a written form that is one token. -/
def isWritable : Token → Bool
  | number x => x.isFinite && !x.isNegative
  | name text => text.isIdentifier
  | endOfInput => false
  | _ => true

/-- A symbol is writable. -/
theorem isWritable_of_isOperand {t : Token} (h : t.isOperand = false) (hend : t ≠ .endOfInput) :
    t.isWritable = true := by
  cases t with
  | number x => cases h
  | name text => cases h
  | endOfInput => exact absurd rfl hend
  | _ => rfl

/-- A text that is empty or starts with a blank. -/
def StartsBlank (rest : Text) : Prop := ∀ c ∈ rest.head?, c = ' '

theorem StartsBlank.ends {rest : Text} (h : StartsBlank rest) : Numeral.Ends rest := by
  intro c hc
  rw [h c hc]
  exact ⟨rfl, by decide⟩

/-- An identifier is one name in front of a text that does not go on with it. -/
theorem scan?_identifier {text rest : Text} (h : text.isIdentifier = true)
    (hrest : ∀ c ∈ rest.head?, Text.isWordChar c = false) :
    scan? (text ++ rest) = some (.name text, text, rest) := by
  obtain ⟨htake, hdrop⟩ := span_append (Text.isWordChar_of_isIdentifier h) hrest
  cases text with
  | nil => cases h
  | cons c cs =>
    have hscan := scan?_of_isAlpha (Bool.and_eq_true_iff.mp h).1 (cs ++ rest)
    rw [← List.cons_append, htake, hdrop] at hscan
    exact hscan

/-- A symbol of two characters is one token, whatever follows it. -/
theorem scan?_pair {c d : Char} {t : Token} (halpha : c.isAlpha = false) (hdigit : c.isDigit = false)
    (hpoint : c ≠ '.') {rest : Text} (h : symbol? c (d :: rest) = some (t, [c, d], rest)) :
    scan? (c :: d :: rest) = some (t, [c, d], rest) := by
  have hends : Numeral.Ends (c :: d :: rest) := by
    intro c' hc'
    cases hc'
    exact ⟨hdigit, hpoint⟩
  rw [scan?_of_ends halpha hends]
  exact h

/-- **A writable token is read back** in front of a blank or the end of the text. -/
theorem scan?_text {t : Token} (ht : t.isWritable = true) {rest : Text} (hrest : StartsBlank rest) :
    scan? (t.text ++ rest) = some (t, t.text, rest) := by
  cases t with
  | number x =>
    obtain ⟨hfinite, hsign⟩ := Bool.and_eq_true_iff.mp ht
    cases x with
    | nan => cases hfinite
    | infinite s => cases hfinite
    | finite s m =>
      obtain rfl : s = false := by simpa [Binary64.isNegative] using hsign
      have hscan := scan?_numeral m.proper_numeral hrest.ends
      rw [m.text_numeral, m.value_numeral] at hscan
      exact hscan
  | name text =>
    refine scan?_identifier ht ?_
    intro c hc
    rw [hrest c hc]
    rfl
  | operator op =>
    refine scan?_operator op ?_
    intro c hc
    rw [hrest c hc]
    exact joins_of_isFree rfl _
  | assignOperator op =>
    cases op <;> exact scan?_pair rfl rfl (by decide) rfl
  | increment => exact scan?_pair rfl rfl (by decide) rfl
  | decrement => exact scan?_pair rfl rfl (by decide) rfl
  | openParen => exact scan?_punctuation rfl rest
  | closeParen => exact scan?_punctuation rfl rest
  | openBracket => exact scan?_punctuation rfl rest
  | closeBracket => exact scan?_punctuation rfl rest
  | comma => exact scan?_punctuation rfl rest
  | equals => exact scan?_punctuation rfl rest
  | endOfInput => cases ht

theorem isTooLarge_of_isWritable {t : Token} (h : t.isWritable = true) : t.isTooLarge = false := by
  cases t with
  | number x =>
    have hfinite : x.isFinite = true := (Bool.and_eq_true_iff.mp h).1
    simp [isTooLarge, hfinite]
  | _ => rfl

/-! ## 2. Lists of tokens -/

/-- The written forms of tokens with a blank between neighbours. -/
def spaced : List Token → Text
  | [] => []
  | [t] => t.text
  | t :: ts => t.text ++ ' ' :: spaced ts

/-- **Writable tokens with blanks between them are read back.** -/
theorem cuts_spaced {ts : List Token} (h : ∀ t ∈ ts, t.isWritable = true) (p : Position) :
    ∃ ls q, Cuts p (spaced ts) ls q [] ∧ tokens ls = ts := by
  induction ts generalizing p with
  | nil => exact ⟨[], p, .done, rfl⟩
  | cons t ts ih =>
    obtain ⟨ht, hts⟩ := List.forall_mem_cons.mp h
    have hsmall := isTooLarge_of_isWritable ht
    cases ts with
    | nil =>
      have hscan := scan?_text ht (show StartsBlank [] by rintro c ⟨⟩)
      rw [List.append_nil] at hscan
      exact ⟨_, _, .single hscan hsmall, rfl⟩
    | cons u us =>
      have hblank : StartsBlank (' ' :: spaced (u :: us)) := by rintro c ⟨⟩; rfl
      have hscan := scan?_text ht hblank
      obtain ⟨ls, q, hcuts, hls⟩ := ih hts _
      refine ⟨_, q, .token hscan hsmall (.gap rfl hcuts), ?_⟩
      rw [tokens_cons, hls]

/-! ## 3. Tokens that are read -/

/-- A numeral that is a number is a magnitude without a sign. -/
theorem isNegative_value (n : Numeral) : n.value.isNegative = false := by
  unfold Numeral.value Binary64.ofDecimal Binary64.round
  dsimp only
  split <;> rfl

/-- A token that is read and is not too large is writable. -/
theorem isWritable_of_scan? {cs slice after : Text} {t : Token}
    (h : scan? cs = some (t, slice, after)) (hsmall : t.isTooLarge = false) :
    t.isWritable = true := by
  rcases scan?_cases h with ⟨c, rest, rfl, halpha, rfl, rfl, -⟩ | ⟨n, -, -, rfl, -⟩ |
      ⟨c, rest, rfl, -, -, hsymbol⟩
  · exact Text.isIdentifier_takeWhile halpha rest
  · have hfinite : n.value.isFinite = true := by simpa [isTooLarge] using hsmall
    simp [isWritable, hfinite, isNegative_value]
  · obtain ⟨-, hoperand, hend⟩ := text_of_symbol? hsymbol
    exact isWritable_of_isOperand hoperand hend

/-- **The lexer takes off writable tokens only.** -/
theorem Cuts.isWritable {p q : Position} {cs rest : Text} {ls : List Lexeme}
    (h : Cuts p cs ls q rest) : ∀ t ∈ tokens ls, t.isWritable = true := by
  induction h with
  | done => rintro t ⟨⟩
  | gap _ _ ih => exact ih
  | token hscan hsmall _ ih =>
    rw [tokens_cons, List.forall_mem_cons]
    exact ⟨isWritable_of_scan? hscan hsmall, ih⟩

end Token
end Abacus
