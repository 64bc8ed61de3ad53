/-
# What each phase can report

The lexer reports a character that starts no token and a numeral that is too large.  The grammar
reports what is missing or out of place among the tokens, and that a tree is too deep.  Evaluation
reports names, shapes, kinds and divisors.  No cause belongs to two phases, so the cause of an error
tells how far the text got.

Some causes quote the statement.  What the grammar quotes is a description of one of the lexemes it was
given, and what evaluation quotes is one of the names in the tree.

Every rule of the grammar and every operation on values is gone through once, with the lemmas on
sequences of steps (`Raises`).  Refusing a second binding is left to statements, and none of the
phases here reports it.

Main statements:

* `Token.error_of_lex`: the lexer raises causes of the lexer;
* `Expr.raises_ofLexemes`: the grammar raises causes of the grammar, about its lexemes;
* `Environment.raises_eval`: evaluation raises causes of evaluation, about the names in the tree.
-/
import Abacus.Evaluation.Tree
import Abacus.Expr.Parser
import Abacus.Proofs.Outcome
import Abacus.Proofs.Token.Cuts

namespace Abacus

/-! ## 1. Classes of causes -/

namespace Cause

/-- The lexer reports it. -/
def isLexical : Cause → Bool
  | unexpectedCharacter _ => true
  | literalTooLarge => true
  | _ => false

/-- The grammar reports it. -/
def isGrammatical : Cause → Bool
  | malformedNumber => true
  | unterminatedBracket => true
  | unexpectedToken _ => true
  | unexpectedEndOfInput => true
  | expectedClosingParen => true
  | unexpectedTrailingInput _ => true
  | nestingTooDeep => true
  | _ => false

/-- The evaluation of a tree reports it. -/
def isEvaluative : Cause → Bool
  | shapeMismatch _ => true
  | incompatibleTypes _ _ _ => true
  | divisionByZero => true
  | moduloByZero => true
  | unknownVariable _ => true
  | unknownFunction _ => true
  | arityMismatch _ _ _ => true
  | unsupportedOperand _ _ => true
  | _ => false

/-- What the cause quotes from the statement. -/
def quoted : Cause → Text
  | unexpectedCharacter c => [c]
  | unexpectedToken description => description
  | unexpectedTrailingInput token => token
  | invalidAssignmentTarget target => target
  | unknownVariable name => name
  | unknownFunction name => name
  | arityMismatch name _ _ => name
  | unsupportedOperand name _ => name
  | redeclaration name => name
  | _ => []

theorem isLexical_of_isGrammatical {cause : Cause} (h : cause.isGrammatical = true) :
    cause.isLexical = false := by
  cases cause <;> first | rfl | cases h

theorem isLexical_of_isEvaluative {cause : Cause} (h : cause.isEvaluative = true) :
    cause.isLexical = false := by
  cases cause <;> first | rfl | cases h

end Cause

/-- A token, or what is said about it where the grammar has no place for it. -/
inductive Token.Describes (t : Token) : Text → Prop
  | plain : Describes t t.text
  | inVector : Describes t (Expr.expectedInList .closeBracket t)
  | inArguments : Describes t (Expr.expectedInList .closeParen t)
  | forRow : Describes t (Expr.expectedRow t)

namespace Error

/-- The error has a cause that the grammar reports, about one of the lexemes if it quotes any. -/
structure IsGrammatical (ls : List Lexeme) (e : Error) : Prop where
  phase : e.cause.isGrammatical = true
  quoted : e.cause.quoted = [] ∨ ∃ l ∈ ls, l.item.Describes e.cause.quoted

/-- The error has a cause that evaluation reports, about one of the names if it quotes any. -/
structure IsEvaluative (names : List Text) (e : Error) : Prop where
  phase : e.cause.isEvaluative = true
  quoted : e.cause.quoted = [] ∨ e.cause.quoted ∈ names

theorem IsGrammatical.mono {ls more : List Lexeme} {e : Error} (h : e.IsGrammatical ls)
    (hmore : ls <:+ more) : e.IsGrammatical more := by
  refine ⟨h.phase, ?_⟩
  rcases h.quoted with hnone | ⟨l, hl, hdescribes⟩
  · exact Or.inl hnone
  · exact Or.inr ⟨l, hmore.subset hl, hdescribes⟩

theorem IsEvaluative.mono {names more : List Text} {e : Error} (h : e.IsEvaluative names)
    (hmore : names ⊆ more) : e.IsEvaluative more := by
  refine ⟨h.phase, ?_⟩
  rcases h.quoted with hnone | hname
  · exact Or.inl hnone
  · exact Or.inr (hmore hname)

end Error

/-! ## 2. The lexer -/

/-- **The lexer raises causes of the lexer**, about characters of the text. -/
theorem Token.error_of_lex {p : Position} {cs : Text} {e : Error} (h : lex p cs = .error e) :
    (∃ c ∈ cs, e.cause = .unexpectedCharacter c) ∨ e.cause = .literalTooLarge := by
  induction p, cs using lex.induct with
  | case1 p =>
    rw [lex] at h
    cases h
  | case2 p c rest hgap ih =>
    rw [lex, if_pos hgap] at h
    rcases ih h with ⟨d, hd, hcause⟩ | hcause
    · exact Or.inl ⟨d, List.mem_cons_of_mem c hd, hcause⟩
    · exact Or.inr hcause
  | case3 p c rest hgap hscan =>
    rw [lex_of_scan?_eq_none hgap hscan] at h
    cases h
    exact Or.inl ⟨c, List.mem_cons_self, rfl⟩
  | case4 p c rest hgap token slice after hscan hlarge =>
    rw [lex_of_scan? hscan, if_pos hlarge] at h
    cases h
    exact Or.inr rfl
  | case5 p c rest hgap token slice after hscan hsmall ih =>
    rw [lex_of_scan? hscan, if_neg hsmall] at h
    cases hmore : lex (p.advance (Text.byteLength slice)) after with
    | ok ls =>
      rw [hmore] at h
      cases h
    | error f =>
      rw [hmore] at h
      cases h
      rcases ih hmore with ⟨d, hd, hcause⟩ | hcause
      · refine Or.inl ⟨d, ?_, hcause⟩
        rw [← (scan?_split hscan).1]
        exact List.mem_append_right _ hd
      · exact Or.inr hcause

/-! ## 3. The grammar -/

namespace Expr

section Rules

variable {α β : Type} {ls rest : List Lexeme}

/-- The outcome of a rule leaves some of the last lexemes, or it is an error of the grammar about the
lexemes. -/
def Reports (ls : List Lexeme) (x : Except Error (α × List Lexeme)) : Prop :=
  Abacus.Raises (Error.IsGrammatical ls) x ∧ ∀ a rest, x = .ok (a, rest) → rest <:+ ls

/-- The rule fails with errors of the grammar only, and leaves some of the last lexemes. -/
def Rule.Reports (rule : Rule α) : Prop := ∀ ls, Expr.Reports ls (rule ls)

theorem reports_ok (a : α) (h : rest <:+ ls) : Reports ls (.ok (a, rest)) := by
  refine ⟨raises_ok _, ?_⟩
  rintro _ _ ⟨⟩
  exact h

theorem reports_error {e : Error} (h : e.IsGrammatical ls) :
    Reports ls (.error e : Except Error (α × List Lexeme)) := by
  refine ⟨raises_error h, ?_⟩
  rintro _ _ ⟨⟩

theorem Reports.mono {more : List Lexeme} {x : Except Error (α × List Lexeme)} (h : Reports ls x)
    (hmore : ls <:+ more) : Reports more x :=
  ⟨h.1.mono (fun _ he => he.mono hmore), fun a rest hx => (h.2 a rest hx).trans hmore⟩

theorem Reports.bind {x : Except Error (α × List Lexeme)}
    {f : α × List Lexeme → Except Error (β × List Lexeme)} (hx : Reports ls x)
    (hf : ∀ a rest, Reports rest (f (a, rest))) : Reports ls (x >>= f) := by
  cases x with
  | error e => exact reports_error (hx.1 e rfl)
  | ok found => exact (hf found.1 found.2).mono (hx.2 _ _ rfl)

end Rules

section Lists

variable {α : Type} {item : Rule α} (hitem : item.Reports) {closing : Token}
  (hclosing : closing = .closeBracket ∨ closing = .closeParen) {opener : Position}

theorem reports_unclosed {β : Type} (closing : Token) (opener : Position) (ls : List Lexeme) :
    Reports ls (.error (unclosed closing opener) : Except Error (β × List Lexeme)) := by
  unfold unclosed
  split
  · exact reports_error ⟨rfl, Or.inl rfl⟩
  · exact reports_error ⟨rfl, Or.inl rfl⟩

include hclosing in
theorem describes_expectedInList (t : Token) : t.Describes (expectedInList closing t) := by
  rcases hclosing with rfl | rfl
  · exact .inVector
  · exact .inArguments

include hitem hclosing

theorem reports_items (bound : Nat) : Rule.Reports (items item closing opener bound) := by
  induction bound with
  | zero => exact fun _ => reports_unclosed _ _ _
  | succ bound ih =>
    intro ls
    unfold items
    split
    · exact reports_unclosed _ _ _
    · exact reports_unclosed _ _ _
    · refine (hitem _).bind (fun x rest => ?_)
      dsimp only
      split
      · exact reports_unclosed _ _ _
      · next token position rest =>
        have hrest : rest <:+ ⟨token, position⟩ :: rest := List.suffix_cons _ _
        split
        · refine Reports.mono ?_ hrest
          exact (ih _).bind (fun _ _ => reports_ok _ List.suffix_rfl)
        · split
          · exact reports_ok _ hrest
          · split
            · exact reports_unclosed _ _ _
            · exact reports_error
                ⟨rfl, Or.inr ⟨_, List.mem_cons_self, describes_expectedInList hclosing token⟩⟩

theorem reports_commaSeparated : Rule.Reports (commaSeparated item closing opener) := by
  intro ls
  unfold commaSeparated
  split
  · exact reports_items hitem hclosing _ _
  · split
    · exact reports_ok _ (List.suffix_cons _ _)
    · exact reports_items hitem hclosing _ _

end Lists

theorem reports_unsignedNumber : Rule.Reports unsignedNumber := by
  intro ls
  unfold unsignedNumber
  split
  · exact reports_ok _ (List.suffix_cons _ _)
  · exact reports_error ⟨rfl, Or.inl rfl⟩
  · exact reports_error ⟨rfl, Or.inl rfl⟩

theorem reports_signedNumber : Rule.Reports signedNumber := by
  intro ls
  unfold signedNumber
  split
  · refine Reports.mono ?_ (List.suffix_cons _ _)
    exact (reports_unsignedNumber _).bind (fun _ _ => reports_ok _ List.suffix_rfl)
  · exact reports_unsignedNumber _

theorem reports_row : Rule.Reports row := by
  intro ls
  unfold row
  split
  · exact reports_error ⟨rfl, Or.inl rfl⟩
  · split
    · refine Reports.mono ?_ (List.suffix_cons _ _)
      exact reports_commaSeparated reports_signedNumber (Or.inl rfl) _
    · exact reports_error ⟨rfl, Or.inr ⟨_, List.mem_cons_self, .forRow⟩⟩

theorem reports_bracketLiteral (opener : Position) : Rule.Reports (bracketLiteral opener) := by
  intro ls
  unfold bracketLiteral
  split
  · exact (reports_commaSeparated reports_row (Or.inl rfl) _).bind
      (fun _ _ => reports_ok _ List.suffix_rfl)
  · exact (reports_commaSeparated reports_signedNumber (Or.inl rfl) _).bind
      (fun _ _ => reports_ok _ List.suffix_rfl)

section Operators

variable {limits : Limits} {operand : Rule Expr} (hoperand : operand.Reports)

include hoperand

theorem reports_chainTail (level bound : Nat) (left : Expr) :
    Rule.Reports (chainTail limits level operand bound left) := by
  induction bound generalizing left with
  | zero => exact fun _ => reports_ok _ List.suffix_rfl
  | succ bound ih =>
    intro ls
    unfold chainTail
    split
    · split
      · refine Reports.mono ?_ (List.suffix_cons _ _)
        refine (hoperand _).bind (fun right rest => ?_)
        dsimp only
        split
        · exact ih _ _
        · exact reports_error ⟨rfl, Or.inl rfl⟩
      · exact reports_ok _ List.suffix_rfl
    · exact reports_ok _ List.suffix_rfl

theorem reports_chain (level : Nat) : Rule.Reports (chain limits level operand) := by
  intro ls
  refine (hoperand ls).bind (fun left rest => ?_)
  dsimp only
  split
  · exact reports_chainTail hoperand _ _ _ _
  · exact reports_error ⟨rfl, Or.inl rfl⟩

theorem reports_expressionOf : Rule.Reports (expressionOf limits operand) :=
  reports_chain (reports_chain hoperand 2) 1

end Operators

theorem reports_primary {expression : Rule Expr} (hexpr : expression.Reports) :
    Rule.Reports (primary expression) := by
  intro ls
  unfold primary
  split
  · exact reports_error ⟨rfl, Or.inl rfl⟩
  · next token position rest =>
    have hrest : rest <:+ ⟨token, position⟩ :: rest := List.suffix_cons _ _
    split
    · exact reports_ok _ hrest
    · refine Reports.mono ?_ hrest
      unfold nameOrCall
      split
      · refine Reports.mono ?_ (List.suffix_cons _ _)
        exact (reports_commaSeparated hexpr (Or.inr rfl) _).bind
          (fun _ _ => reports_ok _ List.suffix_rfl)
      · exact reports_ok _ List.suffix_rfl
    · refine Reports.mono ?_ hrest
      refine (hexpr _).bind (fun e rest => ?_)
      dsimp only
      split
      · exact reports_ok _ (List.suffix_cons _ _)
      · exact reports_error ⟨rfl, Or.inl rfl⟩
    · exact (reports_bracketLiteral _ _).mono hrest
    · exact reports_error ⟨rfl, Or.inl rfl⟩
    · exact reports_error ⟨rfl, Or.inr ⟨_, List.mem_cons_self, .plain⟩⟩

theorem reports_factor (limits : Limits) (bound depth : Nat) :
    Rule.Reports (factor limits bound depth) := by
  induction bound generalizing depth with
  | zero => exact fun _ => reports_error ⟨rfl, Or.inl rfl⟩
  | succ bound ih =>
    intro ls
    unfold factor
    split
    · split
      · refine Reports.mono ?_ (List.suffix_cons _ _)
        exact (ih _ _).bind (fun _ _ => reports_ok _ List.suffix_rfl)
      · exact reports_primary (reports_expressionOf (ih _)) _
    · exact reports_error ⟨rfl, Or.inl rfl⟩

/-- **The grammar raises causes of the grammar**, about its lexemes. -/
theorem raises_ofLexemes (limits : Limits) (ls : List Lexeme) :
    Abacus.Raises (Error.IsGrammatical ls) (ofLexemes limits ls) := by
  have hreports : Reports ls (expressionOf limits (factor limits ls.length 0) ls) :=
    reports_expressionOf (reports_factor limits ls.length 0) ls
  unfold ofLexemes
  cases hfound : expressionOf limits (factor limits ls.length 0) ls with
  | error e => exact raises_error (hreports.1 e hfound)
  | ok found =>
    have hrest := hreports.2 found.1 found.2 hfound
    rw [ok_bind]
    dsimp only
    split
    · exact raises_ok _
    · exact raises_ok _
    · next heq =>
      rw [heq] at hrest
      exact raises_error ⟨rfl, Or.inr ⟨_, hrest.subset List.mem_cons_self, .plain⟩⟩

end Expr

/-! ## 4. Operations on values -/

namespace Matrix

theorem raises_make (rows : List (List Binary64)) (p : Position) :
    Raises (Error.IsEvaluative []) (make rows p) := by
  unfold make
  split
  · exact raises_ok _
  · exact raises_error ⟨rfl, Or.inl rfl⟩

theorem raises_collect {α : Type} {inputs : List α} {f : α → Except Error (List Binary64)}
    {columns : Nat} (hf : ∀ a, Raises (Error.IsEvaluative []) (f a))
    (h : ∀ x ∈ inputs, ∀ row, f x = .ok row → row.length = columns) :
    Raises (Error.IsEvaluative []) (collect inputs f columns h) := by
  have hrun := raises_mapM hf inputs
  unfold collect
  split
  · next e he =>
    rintro e' ⟨⟩
    exact hrun e he
  · exact raises_ok _

theorem raises_product (left right : Matrix) (p : Position) :
    Raises (Error.IsEvaluative []) (left.product right p) := by
  unfold product
  split
  · exact raises_ok _
  · exact raises_error ⟨rfl, Or.inl rfl⟩

end Matrix

theorem Fraction.raises_make (x y : Binary64) (p : Position) :
    Raises (Error.IsEvaluative []) (Fraction.make x y p) := by
  unfold Fraction.make
  split
  · exact raises_ok _
  · exact raises_error ⟨rfl, Or.inl rfl⟩

namespace Value

section Operators

variable (op : Operator) (p : Position)

theorem raises_applyNumbers (x y : Binary64) :
    Raises (Error.IsEvaluative []) (applyNumbers op x y p) := by
  unfold applyNumbers
  cases op with
  | div | mod =>
    dsimp only [zeroDivisor?]
    split
    · exact raises_error ⟨rfl, Or.inl rfl⟩
    · exact raises_ok _
  | add | sub | mul => exact raises_ok _

theorem raises_pairwise (xs ys : List Binary64) :
    Raises (Error.IsEvaluative []) (pairwise op xs ys p) := by
  unfold pairwise
  split
  · exact raises_mapM (fun _ => raises_applyNumbers op p _ _) _
  · exact raises_error ⟨rfl, Or.inl rfl⟩

theorem raises_pairwiseRows (m n : Matrix) :
    Raises (Error.IsEvaluative []) (pairwiseRows op m n p) := by
  unfold pairwiseRows
  split
  · exact Matrix.raises_collect (fun _ => raises_pairwise op p _ _) _
  · exact raises_error ⟨rfl, Or.inl rfl⟩

theorem raises_rowsWithVector (m : Matrix) (xs : List Binary64) :
    Raises (Error.IsEvaluative []) (rowsWithVector op m xs p) := by
  unfold rowsWithVector
  split
  · exact Matrix.raises_collect (fun _ => raises_pairwise op p _ _) _
  · exact raises_error ⟨rfl, Or.inl rfl⟩

theorem raises_vectorWithRows (xs : List Binary64) (m : Matrix) :
    Raises (Error.IsEvaluative []) (vectorWithRows op xs m p) := by
  unfold vectorWithRows
  split
  · exact Matrix.raises_collect (fun _ => raises_pairwise op p _ _) _
  · exact raises_error ⟨rfl, Or.inl rfl⟩

theorem raises_applyFractions (q r : Fraction) :
    Raises (Error.IsEvaluative []) (applyFractions op q r p) := by
  unfold applyFractions
  cases op with
  | add | sub | mul => exact Fraction.raises_make _ _ _
  | div | mod =>
    dsimp only
    split
    · exact raises_error ⟨rfl, Or.inl rfl⟩
    · exact Fraction.raises_make _ _ _

theorem raises_combine (l r : Value) : Raises (Error.IsEvaluative []) (combine op l r p) := by
  have hnumbers := raises_applyNumbers op p
  unfold combine
  split
  · exact (hnumbers _ _).map _
  · exact (raises_pairwise op p _ _).map _
  · exact (raises_mapM (fun _ => hnumbers _ _) _).map _
  · exact (raises_mapM (fun _ => hnumbers _ _) _).map _
  · split
    · exact (Matrix.raises_product _ _ _).map _
    · exact (raises_pairwiseRows op p _ _).map _
  · exact (raises_rowsWithVector op p _ _).map _
  · exact (raises_vectorWithRows op p _ _).map _
  · exact (Matrix.raises_collect (fun _ => raises_mapM (fun _ => hnumbers _ _) _) _).map _
  · exact (Matrix.raises_collect (fun _ => raises_mapM (fun _ => hnumbers _ _) _) _).map _
  · exact (raises_applyFractions op p _ _).map _
  · exact (raises_applyFractions op p _ _).map _
  · exact (raises_applyFractions op p _ _).map _
  · exact raises_error ⟨rfl, Or.inl rfl⟩

end Operators

end Value

theorem Builtin.raises_apply (f : Builtin) (arguments : List Value) (p : Position) :
    Raises (Error.IsEvaluative [f.name]) (f.apply arguments p) := by
  have hname : f.name ∈ [f.name] := List.mem_singleton_self _
  unfold apply
  split
  · unfold applyTo
    split <;> first | exact raises_ok _ | exact raises_error ⟨rfl, Or.inr hname⟩
  · exact raises_error ⟨rfl, Or.inr hname⟩

theorem Builtin.name_of_ofName? {name : Text} {f : Builtin} (h : ofName? name = some f) :
    f.name = name := by
  simpa using List.find?_some h

/-! ## 5. Trees -/

namespace Expr

mutual

/-- The names in a tree, of variables and of functions. -/
def names : Expr → List Text
  | name text _ => [text]
  | negate e _ => e.names
  | binary _ l r _ => l.names ++ r.names
  | call text es _ => text :: namesOf es
  | _ => []

/-- The names in several trees. -/
def namesOf : List Expr → List Text
  | [] => []
  | e :: es => e.names ++ namesOf es

end

end Expr

namespace Environment

theorem raises_lookup (env : Environment) (name : Text) (p : Position) :
    Raises (Error.IsEvaluative [name]) (env.lookup name p) := by
  unfold lookup
  split
  · exact raises_ok _
  · exact raises_error ⟨rfl, Or.inr (List.mem_singleton_self _)⟩

mutual

/-- **Evaluation raises causes of evaluation**, about the names in the tree. -/
theorem raises_eval (env : Environment) :
    ∀ e : Expr, Raises (Error.IsEvaluative e.names) (env.eval e)
  | .number _ _ => by
    rw [eval]
    exact raises_ok _
  | .name name p => by
    rw [eval]
    exact env.raises_lookup name p
  | .vector _ _ => by
    rw [eval]
    exact raises_ok _
  | .matrix rows p => by
    rw [eval]
    exact (Matrix.raises_make rows p).map _
  | .negate e _ => by
    rw [eval]
    exact (raises_eval env e).bind (fun _ => raises_ok _)
  | .binary op l r p => by
    have hl := (raises_eval env l).mono (fun _ h => h.mono (List.subset_append_left _ r.names))
    have hr := (raises_eval env r).mono (fun _ h => h.mono (List.subset_append_right l.names _))
    rw [eval]
    refine hl.bind (fun _ => hr.bind (fun _ => ?_))
    exact (Value.raises_combine op p _ _).mono (fun _ h => h.mono (List.nil_subset _))
  | .call name es p => by
    rw [eval]
    split
    · exact raises_error ⟨rfl, Or.inr List.mem_cons_self⟩
    · next f hf =>
      have hes := (raises_evalAll env es).mono (fun _ h => h.mono (List.subset_cons_self name _))
      refine hes.bind (fun values => (Builtin.raises_apply f values p).mono (fun _ h => h.mono ?_))
      rw [Builtin.name_of_ofName? hf]
      exact List.cons_subset_cons name (List.nil_subset _)

theorem raises_evalAll (env : Environment) :
    ∀ es : List Expr, Raises (Error.IsEvaluative (Expr.namesOf es)) (env.evalAll es)
  | [] => by
    rw [evalAll]
    exact raises_ok _
  | e :: es => by
    have he := (raises_eval env e).mono
      (fun _ h => h.mono (List.subset_append_left _ (Expr.namesOf es)))
    have hes := (raises_evalAll env es).mono
      (fun _ h => h.mono (List.subset_append_right e.names _))
    rw [evalAll]
    exact he.bind (fun _ => hes.bind (fun _ => raises_ok _))

end

end Environment
end Abacus
