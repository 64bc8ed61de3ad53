/-
# Blanks around a text

Spaces and tabs in front of a text move its lexemes to the right and change nothing else.  Blanks
behind a text leave its lexemes where they are and move the marker for the end of input.  The first is
the walk of the lexer over separators.  The second is an induction on the lexer: the longest token at
the front of a text is the same in front of blanks, because a blank continues neither a name nor a
numeral nor a symbol.

Where the lexemes of two texts are related, so are their values (`corresponds_evaluate_of_lex`), and
blanks are no form feeds.

Main statements:

* `scan?_append`: the longest token does not see what does not go on with it, such as blanks;
* `corresponds_evaluate_blanks_append` and `corresponds_evaluate_append_blanks`: blanks in front of a
  text and behind it.
-/
import Abacus.Proofs.Evaluation.Positions

namespace Abacus

open Abacus.Expr (Aligned Moves)

/-- Spaces and tabs only. -/
def Text.AreBlank (b : Text) : Prop := ∀ c ∈ b, Text.isBlank c = true

/-! ## 1. What a blank does not continue -/

section Runs

variable {b : Text}

theorem Text.AreBlank.eq (h : Text.AreBlank b) : ∀ d ∈ b, d = ' ' ∨ d = '\t' := by
  intro d hd
  simpa [Text.isBlank] using h d hd

theorem Text.AreBlank.head? (h : Text.AreBlank b) : ∀ d ∈ b.head?, d = ' ' ∨ d = '\t' :=
  fun d hd => h.eq d (List.mem_of_mem_head? hd)

/-- What holds of a space and of a tab holds of every blank. -/
theorem Text.AreBlank.forall_mem {P : Char → Prop} (h : Text.AreBlank b) (hspace : P ' ')
    (htab : P '\t') : ∀ d ∈ b, P d := by
  intro d hd
  rcases h.eq d hd with rfl | rfl
  · exact hspace
  · exact htab

/-- What holds of a space and of a tab holds of a blank in front. -/
theorem Text.AreBlank.forall_head? {P : Char → Prop} (h : Text.AreBlank b) (hspace : P ' ')
    (htab : P '\t') : ∀ d ∈ b.head?, P d :=
  fun d hd => h.forall_mem hspace htab d (List.mem_of_mem_head? hd)

/-- What holds of a space, of a tab and of what follows the blanks holds of the first character. -/
theorem Text.AreBlank.forall_head?_append {P : Char → Prop} (h : Text.AreBlank b) (hspace : P ' ')
    (htab : P '\t') {rest : Text} (hrest : ∀ d ∈ rest.head?, P d) :
    ∀ d ∈ (b ++ rest).head?, P d := by
  cases b with
  | nil => exact hrest
  | cons c b => exact h.forall_head? hspace htab

theorem Text.AreBlank.formFeed_notMem (h : Text.AreBlank b) : '\x0c' ∉ b := by
  intro hmem
  cases h _ hmem

/-- A run of characters ends where it ended, if the text behind does not continue it. -/
theorem runs_append {p : Char → Bool} (h : ∀ d ∈ b.head?, p d = false) (cs : Text) :
    (cs ++ b).takeWhile p = cs.takeWhile p ∧ (cs ++ b).dropWhile p = cs.dropWhile p ++ b := by
  induction cs with
  | nil =>
    have hnone : ∀ c ∈ ([] : Text), p c = true := by simp
    simpa using span_append hnone h
  | cons c cs ih =>
    obtain ⟨htake, hdrop⟩ := ih
    cases hc : p c with
    | true => simp [hc, htake, hdrop]
    | false => simp [hc]

/-- A run of characters that ends inside a text ends there whatever follows. -/
theorem runs_append_of_ne_nil {p : Char → Bool} {cs : Text} (h : cs.dropWhile p ≠ []) (b : Text) :
    (cs ++ b).takeWhile p = cs.takeWhile p ∧ (cs ++ b).dropWhile p = cs.dropWhile p ++ b := by
  induction cs with
  | nil => exact absurd rfl h
  | cons c cs ih =>
    cases hc : p c with
    | true =>
      rw [List.dropWhile_cons_of_pos hc] at h
      obtain ⟨htake, hdrop⟩ := ih h
      simp [hc, htake, hdrop]
    | false => simp [hc]

/-- A numeral ends where it ended. -/
theorem Numeral.ofText_append_of_ends (h : Numeral.Ends b) (cs : Text) :
    Numeral.ofText (cs ++ b) = ((Numeral.ofText cs).1, (Numeral.ofText cs).2 ++ b) := by
  have hdigit : ∀ d ∈ b.head?, d.isDigit = false := fun d hd => (h d hd).1
  obtain ⟨htake, hdrop⟩ := runs_append hdigit cs
  unfold ofText
  rw [htake, hdrop]
  cases cs.dropWhile Char.isDigit with
  | nil =>
    cases b with
    | nil => rfl
    | cons d b =>
      have hpoint : d ≠ '.' := (h d rfl).2
      simp [hpoint]
  | cons c rest =>
    by_cases hpoint : c = '.'
    · subst hpoint
      obtain ⟨htake', hdrop'⟩ := runs_append hdigit rest
      simp [htake', hdrop']
    · simp [hpoint]

end Runs

/-! ## 2. The longest token -/

namespace Token

/-- A text that goes on with no token in front of it: neither with a word nor with a numeral nor with a
symbol. -/
structure Stops (b : Text) : Prop where
  word : ∀ d ∈ b.head?, Text.isWordChar d = false
  ends : Numeral.Ends b
  free : ∀ d ∈ b.head?, isFree d = true

theorem stops_of_areBlank {b : Text} (hb : Text.AreBlank b) : Stops b :=
  ⟨hb.forall_head? rfl rfl, hb.forall_head? ⟨rfl, by decide⟩ ⟨rfl, by decide⟩,
    hb.forall_head? rfl rfl⟩

section Stops

variable {b : Text} (hb : Stops b)

include hb

theorem symbol?_append (c : Char) (rest : Text) :
    symbol? c (rest ++ b)
      = (symbol? c rest).map (fun found => (found.1, found.2.1, found.2.2 ++ b)) := by
  unfold symbol?
  cases Operator.ofSymbol? c with
  | none => cases punctuation? c <;> rfl
  | some op =>
    cases rest with
    | nil =>
      cases b with
      | nil => cases op <;> rfl
      | cons d b =>
        have hfree := hb.free d rfl
        simp only [isFree, Bool.and_eq_true, bne_iff_ne, ne_eq] at hfree
        simp [hfree]
    | cons e rest =>
      rw [List.cons_append]
      by_cases hequals : e = '='
      · subst hequals
        rfl
      · by_cases hplus : e = '+'
        · subst hplus
          cases op <;> rfl
        · by_cases hminus : e = '-'
          · subst hminus
            cases op <;> rfl
          · simp [hequals, hplus, hminus]

/-- **The longest token** at the front of a text is the same in front of what does not go on with it. -/
theorem scan?_append (c : Char) (cs : Text) :
    scan? (c :: cs ++ b)
      = (scan? (c :: cs)).map (fun found => (found.1, found.2.1, found.2.2 ++ b)) := by
  obtain ⟨htake, hdrop⟩ := runs_append hb.word (c :: cs)
  have hnumeral := Numeral.ofText_append_of_ends hb.ends (c :: cs)
  have hsymbol := symbol?_append hb c cs
  rw [List.cons_append] at htake hdrop hnumeral ⊢
  unfold scan?
  dsimp only
  rw [htake, hdrop, hnumeral, hsymbol]
  split
  · rfl
  · dsimp only
    split
    · rfl
    · rfl

/-- Cuts are the same in front of what does not go on with a token. -/
theorem Cuts.append {p q : Position} {cs rest : Text} {ls : List Lexeme} (h : Cuts p cs ls q rest) :
    Cuts p (cs ++ b) ls q (rest ++ b) := by
  induction h with
  | done => exact .done
  | gap hgap _ ih => exact .gap hgap ih
  | @token p q cs slice after rest t ls hscan hsmall _ ih =>
    cases cs with
    | nil => cases hscan
    | cons c cs =>
      have hscan' := scan?_append hb c cs
      rw [hscan] at hscan'
      exact .token hscan' hsmall ih

end Stops

/-! ## 3. The lexer -/

variable {b : Text} (hb : Text.AreBlank b)

include hb

/-- Blanks in front of a text move its lexemes to the right. -/
theorem lex_blanks_append (p : Position) (cs : Text) :
    lex p (b ++ cs) = lex (p.advance (Text.byteLength b)) cs := by
  have hcuts := Cuts.gaps (fun c hc => isGap_of_isBlank (hb c hc)) p cs
  rw [hcuts.lex_eq]
  cases lex (p.advance (Text.byteLength b)) cs <;> rfl

/-- Blanks behind a text move the marker for the end of input. -/
theorem corresponds_lex_append {R : Position → Position → Prop} (hrefl : ∀ p, R p p)
    (hend : ∀ p, R (p.advance (Text.byteLength b)) p) (p : Position) (cs : Text) :
    Corresponds R (Aligned R) (lex p (cs ++ b)) (lex p cs) := by
  induction p, cs using lex.induct with
  | case1 p =>
    have hcuts := Cuts.gaps (fun c hc => isGap_of_isBlank (hb c hc)) p []
    rw [List.append_nil] at hcuts
    rw [List.nil_append, hcuts.lex_eq_ok, lex]
    exact .last (hend p)
  | case2 p c rest hgap ih =>
    rw [List.cons_append, lex, if_pos hgap, lex, if_pos hgap]
    exact ih
  | case3 p c rest hgap hscan =>
    have hscan' := scan?_append (stops_of_areBlank hb) c rest
    rw [hscan, List.cons_append] at hscan'
    rw [List.cons_append, lex_of_scan?_eq_none hgap hscan, lex_of_scan?_eq_none hgap hscan']
    exact corresponds_error (hrefl p) _ _
  | case4 p c rest hgap token slice after hscan hlarge =>
    have hscan' := scan?_append (stops_of_areBlank hb) c rest
    rw [hscan] at hscan'
    rw [lex_of_scan? hscan, lex_of_scan? hscan', if_pos hlarge, if_pos hlarge]
    exact corresponds_error (hrefl p) _ _
  | case5 p c rest hgap token slice after hscan hsmall ih =>
    have hscan' := scan?_append (stops_of_areBlank hb) c rest
    rw [hscan] at hscan'
    rw [lex_of_scan? hscan, lex_of_scan? hscan', if_neg hsmall, if_neg hsmall]
    exact ih.map (fun _ _ h => .cons (hrefl p) h)

end Token

/-! ## 4. Values -/

namespace Environment

variable {R : Position → Position → Prop} {b : Text} (hb : Text.AreBlank b) (env : Environment)

include hb

/-- **Blanks in front of a text** make no difference to its value, and move its errors to the right. -/
theorem corresponds_evaluate_blanks_append (hmoves : Moves R) {p q : Position}
    (hR : R (p.advance (Text.byteLength b)) q) (text : Text) :
    Corresponds R Eq (env.evaluate (b ++ text) p) (env.evaluate text q) := by
  have hlex : Corresponds R (Aligned R) (Token.lex p (b ++ text)) (Token.lex q text) := by
    rw [Token.lex_blanks_append hb]
    exact Expr.corresponds_lex hmoves hR text
  refine env.corresponds_evaluate_of_lex hlex (Literal.isRational_congr hlex ?_)
  rw [List.mem_append, or_iff_right hb.formFeed_notMem]

/-- **Blanks behind a text** make no difference to its value. -/
theorem corresponds_evaluate_append_blanks (hrefl : ∀ p, R p p)
    (hend : ∀ p, R (p.advance (Text.byteLength b)) p) (text : Text) (p : Position) :
    Corresponds R Eq (env.evaluate (text ++ b) p) (env.evaluate text p) := by
  have hlex := Token.corresponds_lex_append hb hrefl hend p text
  refine env.corresponds_evaluate_of_lex hlex (Literal.isRational_congr hlex ?_)
  rw [List.mem_append, or_iff_left hb.formFeed_notMem]

end Environment
end Abacus
