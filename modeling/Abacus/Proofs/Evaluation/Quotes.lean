/-
# What the error of an expression says

The error of an expression comes from the lexer, from the grammar or from evaluation, and from nowhere
else.  What it quotes is a character of the text, a description of a token, or a name.  Tokens and
names are written without line feeds, so the error quotes a line feed only if there is one in the text.

Main statements:

* `Expr.mem_tokens_of_mem_names`: the names in a tree are among its tokens;
* `Environment.raises_expressionCause`: what the error of an expression says.
-/
import Abacus.Proofs.Evaluation.Causes
import Abacus.Proofs.Evaluation.Positions
import Abacus.Proofs.Token.Spacing
import Abacus.Proofs.Value.OneLine

namespace Abacus

/-! ## 1. Tokens on one line -/

theorem Text.newline_notMem_of_isIdentifier {name : Text} (h : name.isIdentifier = true) :
    '\n' ∉ name := by
  intro hmem
  cases Text.isWordChar_of_isIdentifier h '\n' hmem

namespace Token

/-- A token that is read is written without a line feed. -/
theorem newline_notMem_text {t : Token} (h : t.isWritable = true ∨ t = .endOfInput) :
    '\n' ∉ t.text := by
  rcases h with h | rfl
  · cases t with
    | number x => exact x.newline_notMem_render
    | name text => exact Text.newline_notMem_of_isIdentifier h
    | operator op => cases op <;> decide
    | assignOperator op => cases op <;> decide
    | _ => decide
  · decide

/-- The tokens of a text are written without line feeds. -/
theorem newline_notMem_of_lex {p : Position} {cs : Text} {ls : List Lexeme} (h : lex p cs = .ok ls) :
    ∀ l ∈ ls, '\n' ∉ l.item.text := by
  obtain ⟨body, q, rfl, hcuts⟩ := cuts_of_lex h
  refine List.forall_mem_append.mpr ⟨?_, List.forall_mem_singleton.mpr ?_⟩
  · intro l hl
    exact newline_notMem_text (Or.inl (hcuts.isWritable _ (List.mem_map_of_mem hl)))
  · exact newline_notMem_text (Or.inr rfl)

theorem newline_notMem_expectedInList {t closing : Token} (ht : '\n' ∉ t.text)
    (hclosing : '\n' ∉ closing.text) : '\n' ∉ Expr.expectedInList closing t := by
  have hexpected : '\n' ∉ "expected ',' or '".toList := by simp
  have hfound : '\n' ∉ "', found '".toList := by simp
  have hquote : '\n' ∉ ['\''] := by simp
  have hbefore := List.not_mem_append (List.not_mem_append hexpected hclosing) hfound
  exact List.not_mem_append (List.not_mem_append hbefore ht) hquote

theorem newline_notMem_expectedRow {t : Token} (ht : '\n' ∉ t.text) :
    '\n' ∉ Expr.expectedRow t := by
  have hexpected : '\n' ∉ "expected '[', found '".toList := by simp
  have hquote : '\n' ∉ ['\''] := by simp
  exact List.not_mem_append (List.not_mem_append hexpected ht) hquote

/-- What is said about a token is on the line of the token. -/
theorem Describes.newline_notMem {t : Token} {description : Text} (h : t.Describes description)
    (ht : '\n' ∉ t.text) : '\n' ∉ description := by
  cases h with
  | plain => exact ht
  | inVector => exact newline_notMem_expectedInList ht (by decide)
  | inArguments => exact newline_notMem_expectedInList ht (by decide)
  | forRow => exact newline_notMem_expectedRow ht

end Token

/-! ## 2. Names in a tree -/

namespace Expr

/-- **The names in a tree** are among its tokens. -/
theorem mem_tokens_of_mem_names {k : Nat} {e : Expr} {ls : List Lexeme} (h : Reads k e ls) :
    ∀ name ∈ e.names, Token.name name ∈ tokens ls := by
  induction h using Reads.induction with
  | number => rintro name ⟨⟩
  | name k text p => simp [names]
  | vector => rintro name ⟨⟩
  | matrix => rintro name ⟨⟩
  | group k e ls p q h ih =>
    intro name hname
    simp [ih name hname]
  | negate k e ls p h ih =>
    intro name hname
    simp [ih name hname]
  | binary k op l r ls rs p hk hl hr ihl ihr =>
    intro name hname
    rcases List.mem_append.mp hname with hname | hname
    · simp [ihl name hname]
    · simp [ihr name hname]
  | call k text es ls p q h hes =>
    have hitems : ∀ {es ls}, Separated (fun e ls => ∃ _ : Reads 1 e ls,
        ∀ name ∈ e.names, Token.name name ∈ tokens ls) es ls →
          ∀ name ∈ namesOf es, Token.name name ∈ tokens ls := by
      intro es ls hes
      induction hes with
      | one he =>
        intro name hname
        rw [namesOf, namesOf, List.append_nil] at hname
        exact he.2 name hname
      | more he _ ih =>
        intro name hname
        rcases List.mem_append.mp hname with hname | hname
        · simp [he.2 name hname]
        · simp [ih name hname]
    intro name hname
    rcases List.mem_cons.mp hname with rfl | hname
    · simp
    · cases hes with
      | empty => cases hname
      | filled hes => simp [hitems hes name hname]

end Expr

/-! ## 3. Expressions -/

/-- The error comes from one of the phases of an expression, and it quotes no line feed that is not in
the text. -/
structure Error.OfExpression (text : Text) (e : Error) : Prop where
  phase : e.cause.isLexical = true ∨ e.cause.isGrammatical = true ∨ e.cause.isEvaluative = true
  oneLine : '\n' ∉ text → '\n' ∉ e.cause.quoted

/-- No phase of an expression refuses a second binding. -/
theorem Cause.kind_ne_redeclaration {cause : Cause}
    (h : cause.isLexical = true ∨ cause.isGrammatical = true ∨ cause.isEvaluative = true) :
    cause.kind ≠ .redeclaration := by
  intro hkind
  cases cause with
  | redeclaration name => rcases h with h | h | h <;> cases h
  | _ => cases hkind

/-- A text without a tree: its lexer fails, or its tokens have no tree. -/
theorem Expr.ofExpression_of_parse_error {text : Text} {origin : Position} {e : Error}
    (h : Expr.parse text origin = .error e) : e.OfExpression text := by
  unfold Expr.parse Expr.parseWithin at h
  cases hlex : Token.lex origin text with
  | error f =>
    rw [hlex] at h
    cases h
    rcases Token.error_of_lex hlex with ⟨c, hc, hcause⟩ | hcause
    · refine ⟨Or.inl (by rw [hcause]; rfl), fun hnewline => ?_⟩
      rw [hcause, Cause.quoted, List.mem_singleton]
      rintro rfl
      exact hnewline hc
    · exact ⟨Or.inl (by rw [hcause]; rfl), fun _ => by rw [hcause]; exact List.not_mem_nil⟩
  | ok ls =>
    rw [hlex, ok_bind] at h
    have hgrammar := Expr.raises_ofLexemes _ ls e h
    refine ⟨Or.inr (Or.inl hgrammar.phase), fun _ => ?_⟩
    rcases hgrammar.quoted with hnone | ⟨l, hl, hdescribes⟩
    · rw [hnone]
      exact List.not_mem_nil
    · exact hdescribes.newline_notMem (Token.newline_notMem_of_lex hlex l hl)

namespace Environment

variable (env : Environment)

/-- The errors of evaluation on one line: the names in them are on the line. -/
theorem ofExpression_of_isEvaluative {text : Text} {names : List Text} {e : Error}
    (h : e.IsEvaluative names) (hnames : ∀ name ∈ names, '\n' ∉ name) : e.OfExpression text := by
  refine ⟨Or.inr (Or.inr h.phase), fun _ => ?_⟩
  rcases h.quoted with hnone | hname
  · rw [hnone]
    exact List.not_mem_nil
  · exact hnames _ hname

/-- **The errors of an expression.** -/
theorem raises_expressionCause (text : Text) (origin : Position) :
    Raises (Error.OfExpression text) (env.evaluate text origin) := by
  cases hrational : Literal.isRational text with
  | true =>
    obtain ⟨x, y, p, q, r, s, -, hvalue⟩ := env.evaluate_of_isRational hrational origin
    rw [hvalue]
    refine Raises.map ?_ _
    exact (Fraction.raises_make x y p).mono
      (fun _ h => ofExpression_of_isEvaluative h (by simp))
  | false =>
    rw [env.evaluate_eq_evaluateArithmetic text origin hrational, evaluateArithmetic_eq_eval]
    cases hparse : Expr.parse text origin with
    | error e => exact raises_error (Expr.ofExpression_of_parse_error hparse)
    | ok e =>
      obtain ⟨body, q, hcuts, hreads⟩ := Expr.cuts_of_parse hparse
      refine (env.raises_eval e).mono (fun _ h => ofExpression_of_isEvaluative h ?_)
      intro name hname
      exact Text.newline_notMem_of_isIdentifier
        (hcuts.isWritable _ (Expr.mem_tokens_of_mem_names hreads name hname))

end Environment
end Abacus
