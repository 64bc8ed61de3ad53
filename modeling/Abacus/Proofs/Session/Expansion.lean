/-
# Compound assignment is its expansion

The statement `x op= rhs` looks `x` up, evaluates `rhs` by itself and combines the two values.  The
statement `x = x op (rhs)` evaluates one expression, by whichever route its text is classified for.
Both come to the same.  The text of the right-hand side is cut into the same tokens in front of the
closing parenthesis, so the tree of the expanded text is the operator over the name and a copy of the
tree of `rhs`.  All routes lead to that tree, unless the two levels that the operator and the
parentheses add are too many, and the value of a text that is no fraction literal is that of its tree.

The expression in parentheses is never a fraction literal.  This is why `rhs` must not be one: `x += 1/2`
adds a fraction and `x = x + (1/2)` a quotient.

Main statements:

* `orTooDeep_operation`: the tree of the expanded text, up to the limit on nesting;
* `sameOutcome_answer`: the two statements answer alike;
* `compound_expansion`: they do the same.
-/
import Abacus.Proofs.Evaluation.Blanks
import Abacus.Proofs.Session.Commuting
import Abacus.Proofs.Session.Relocation

namespace Abacus

open Abacus.Expr (AnyPositions SameShape Reads)

/-! ## 1. The two texts -/

/-- Spaces and tabs. -/
abbrev Blanks : Type := { b : Text // Text.AreBlank b }

/-- The text `name op= rhs`. -/
def compoundText (name : Text) (op : Operator) (rhs : Text) (a b : Blanks) : Text :=
  name ++ (a.val ++ op.symbol :: '=' :: (b.val ++ rhs))

/-- The text `name op (rhs)`. -/
def operationText (name : Text) (op : Operator) (rhs : Text) (a b : Blanks) : Text :=
  name ++ (a.val ++ op.symbol :: (b.val ++ '(' :: (rhs ++ [')'])))

/-- The text `name = name op (rhs)`. -/
def expandedText (name : Text) (op : Operator) (rhs : Text) (a b c d : Blanks) : Text :=
  name ++ (a.val ++ '=' :: (b.val ++ operationText name op rhs c d))

/-! ## 2. The two statements -/

namespace Statement

/-- A target with blanks around it is taken off in front of a text that starts with neither. -/
theorem named?_blanks_target {front : Text} (hfront : Text.AreBlank front) {name : Text}
    (hname : name.isIdentifier = true) {b : Text} (hb : Text.AreBlank b) {rest : Text}
    (hword : ∀ c ∈ rest.head?, Text.isWordChar c = false)
    (hblank : ∀ c ∈ rest.head?, Text.isBlank c = false) (line : Nat) :
    named? (front ++ (name ++ (b ++ rest))) line
      = ofTarget? name (.inLine line 0) (.inLine line (Text.byteLength front))
        ⟨Text.byteLength front + (Text.byteLength name + Text.byteLength b), rest⟩ := by
  have hhead : ∀ c ∈ (b ++ rest).head?, Text.isWordChar c = false :=
    hb.forall_head?_append (P := fun c => Text.isWordChar c = false) rfl rfl hword
  have hskip : Cursor.skipBlanks ⟨Text.byteLength name, b ++ rest⟩
      = ⟨Text.byteLength name + Text.byteLength b, rest⟩ := by
    obtain ⟨htake, hdrop⟩ := span_append hb hblank
    simp only [Cursor.skipBlanks, Cursor.skipWhile, htake, hdrop]
  have hstart : ((Cursor.start (name ++ (b ++ rest))).shift (Text.byteLength front)).position
      (.inLine line 0) = .inLine line (Text.byteLength front) := Position.inLine_zero_advance _ _
  unfold named?
  rw [Cursor.skipBlanks_start_append hfront, Literal.skipBlanks_identifier hname,
    Literal.name?_shift, Literal.name?_append hname hhead]
  dsimp only [Option.map_some]
  rw [Cursor.skipBlanks_shift, hskip, hstart]
  rfl

/-- A target with blanks behind it is taken off in front of a text that starts with neither. -/
theorem named?_target {name : Text} (hname : name.isIdentifier = true) (b : Blanks) {rest : Text}
    (hword : ∀ c ∈ rest.head?, Text.isWordChar c = false)
    (hblank : ∀ c ∈ rest.head?, Text.isBlank c = false) (line : Nat) :
    named? (name ++ (b.val ++ rest)) line = ofTarget? name (.inLine line 0) (.inLine line 0)
      ⟨Text.byteLength name + Text.byteLength b.val, rest⟩ := by
  have hnone : Text.AreBlank [] := by rintro c ⟨⟩
  simpa using named?_blanks_target hnone hname b.property hword hblank line

/-- A text with an equals sign among its first two characters is not trimmed to two signs. -/
theorem trimEnd_ne {text : Text} {c : Char} (hc : c ≠ '=')
    (h : text.head? = some '=' ∨ text.tail.head? = some '=') : Text.trimEnd text ≠ [c, c] := by
  intro htrim
  obtain ⟨rest, hrest⟩ : Text.trimEnd text <+: text := Text.trimEndWhile_prefix _ text
  rw [htrim] at hrest
  subst hrest
  rcases h with h | h
  · exact hc (Option.some.inj h)
  · exact hc (Option.some.inj h)

variable (name : Text) (origin position : Position) (offset : Nat) (value : Text)

theorem ofTarget?_compound (op : Operator) :
    ofTarget? name origin position ⟨offset, op.symbol :: '=' :: value⟩
      = some (.compound name op value (origin.advance (offset + 2)) position) := by
  have hplus : Text.trimEnd (op.symbol :: '=' :: value) ≠ ['+', '+'] :=
    trimEnd_ne (by decide) (Or.inr rfl)
  have hminus : Text.trimEnd (op.symbol :: '=' :: value) ≠ ['-', '-'] :=
    trimEnd_ne (by decide) (Or.inr rfl)
  have hop : compoundOperator? (op.symbol :: '=' :: value) = some op := op.ofSymbol?_symbol
  simp only [ofTarget?, if_neg hplus, if_neg hminus, hop]
  rfl

theorem ofTarget?_assignment :
    ofTarget? name origin position ⟨offset, '=' :: value⟩
      = some (.assignment name value (origin.advance (offset + 1)) position) := by
  have hplus : Text.trimEnd ('=' :: value) ≠ ['+', '+'] := trimEnd_ne (by decide) (Or.inl rfl)
  have hminus : Text.trimEnd ('=' :: value) ≠ ['-', '-'] := trimEnd_ne (by decide) (Or.inl rfl)
  have hop : compoundOperator? ('=' :: value) = none := by
    rw [compoundOperator?_cons]
    split <;> rfl
  simp only [ofTarget?, if_neg hplus, if_neg hminus, hop]
  rfl

end Statement

section Statements

variable {name : Text} (hname : name.isIdentifier = true) (op : Operator) (rhs : Text) (line : Nat)

include hname

theorem parse_compoundText_eq (a b : Blanks) :
    Statement.parse (compoundText name op rhs a b) line
      = .ok (.compound name op (b.val ++ rhs)
          ((Position.inLine line 0).advance (Text.byteLength name + Text.byteLength a.val + 2))
          (.inLine line 0)) := by
  have hword : ∀ c ∈ (op.symbol :: '=' :: (b.val ++ rhs)).head?, Text.isWordChar c = false := by
    rintro c ⟨⟩
    cases op <;> rfl
  have hblank : ∀ c ∈ (op.symbol :: '=' :: (b.val ++ rhs)).head?, Text.isBlank c = false := by
    rintro c ⟨⟩
    cases op <;> rfl
  unfold compoundText
  rw [Statement.parse_eq, Statement.named?_target hname a hword hblank,
    Statement.ofTarget?_compound]
  rfl

theorem parse_compoundText (a b : Blanks) : ∃ p q,
    Statement.parse (compoundText name op rhs a b) line
      = .ok (.compound name op (b.val ++ rhs) p q) :=
  ⟨_, _, parse_compoundText_eq hname op rhs line a b⟩

theorem parse_expandedText (a b c d : Blanks) : ∃ p q,
    Statement.parse (expandedText name op rhs a b c d) line
      = .ok (.assignment name (b.val ++ operationText name op rhs c d) p q) := by
  unfold expandedText
  rw [Statement.parse_eq, Statement.named?_target hname a (by rintro c ⟨⟩; rfl)
    (by rintro c ⟨⟩; rfl), Statement.ofTarget?_assignment]
  exact ⟨_, _, rfl⟩

end Statements

/-! ## 3. The tree of the expanded text -/

section Trees

variable {name rhs : Text} (hname : name.isIdentifier = true) (op : Operator) {origin : Position}
  {e : Expr} (hparse : Expr.parse rhs origin = .ok e)

/-- A closing parenthesis goes on with nothing. -/
theorem stops_closeParen : Token.Stops [')'] := by
  refine ⟨?_, ?_, ?_⟩
  · rintro c ⟨⟩
    rfl
  · rintro c ⟨⟩
    exact ⟨rfl, by decide⟩
  · rintro c ⟨⟩
    rfl

include hparse in
/-- At any place, the text of a tree is cut into a written form of a copy of the tree. -/
theorem exists_copy (p : Position) : ∃ e' body q,
    Token.Cuts p rhs body q [] ∧ Reads 1 e' body ∧ SameShape AnyPositions e e' := by
  have hsame : Corresponds AnyPositions (SameShape AnyPositions) (Expr.parse rhs origin)
      (Expr.parse rhs p) := Expr.corresponds_parse (fun _ _ _ _ => trivial) trivial rhs
  rw [hparse] at hsame
  rcases hsame.cases with ⟨_, e', he, hparse', hshape⟩ | ⟨_, _, _, herror, -⟩
  · cases he
    obtain ⟨body, q, hcuts, hreads⟩ := Expr.cuts_of_parse hparse'
    exact ⟨e', body, q, hcuts, hreads, hshape⟩
  · cases herror

include hparse in
/-- The text in parentheses is cut into the tokens of `rhs` in parentheses. -/
theorem cuts_group (p : Position) : ∃ e' body p' q,
    Token.Cuts p ('(' :: (rhs ++ [')'])) (⟨.openParen, p⟩ :: (body ++ [⟨.closeParen, p'⟩])) q [] ∧
      Reads 1 e' body ∧ SameShape AnyPositions e e' := by
  have hopen : Token.scan? ('(' :: (rhs ++ [')'])) = some (.openParen, ['('], rhs ++ [')']) :=
    Token.scan?_punctuation rfl _
  have hclose : Token.scan? [')'] = some (.closeParen, [')'], []) := Token.scan?_punctuation rfl _
  obtain ⟨e', body, q, hcuts, hreads, hshape⟩ :=
    exists_copy hparse (p.advance (Text.byteLength ['(']))
  have hinside := (hcuts.append stops_closeParen).trans (.single hclose rfl)
  exact ⟨e', body, q, _, (Token.Cuts.single hopen rfl).trans hinside, hreads, hshape⟩

include hname hparse

/-- The operation is cut into the name, the operator, and the tokens of `rhs` in parentheses. -/
theorem cuts_operation (b c d : Blanks) (p : Position) : ∃ e' body p₁ p₂ p₃ p₄ q,
    Token.Cuts p (b.val ++ operationText name op rhs c d)
        (⟨.name name, p₁⟩ :: ⟨.operator op, p₂⟩ :: ⟨.openParen, p₃⟩ :: (body ++ [⟨.closeParen, p₄⟩]))
        q [] ∧
      Reads 1 e' body ∧ SameShape AnyPositions e e' := by
  have hgaps : ∀ (a : Blanks) (r : Position) (rest : Text),
      Token.Cuts r (a.val ++ rest) [] (r.advance (Text.byteLength a.val)) rest :=
    fun a r rest => .gaps (fun f hf => Token.isGap_of_isBlank (a.property f hf)) r rest
  have hscanName : Token.scan? (operationText name op rhs c d) = some (.name name, name,
      c.val ++ op.symbol :: (d.val ++ '(' :: (rhs ++ [')']))) := by
    refine Token.scan?_identifier hname ?_
    refine c.property.forall_head?_append (P := fun f => Text.isWordChar f = false) rfl rfl ?_
    rintro f ⟨⟩
    cases op <;> rfl
  have hscanOp : Token.scan? (op.symbol :: (d.val ++ '(' :: (rhs ++ [')'])))
      = some (.operator op, [op.symbol], d.val ++ '(' :: (rhs ++ [')'])) := by
    refine Token.scan?_operator op (fun f hf => Token.joins_of_isFree ?_ op.symbol)
    refine d.property.forall_head?_append (P := fun f => Token.isFree f = true) rfl rfl ?_ f hf
    rintro g ⟨⟩
    rfl
  obtain ⟨e', body, p₄, q, hgroup, hreads, hshape⟩ := cuts_group hparse
    ((((p.advance (Text.byteLength b.val)).advance (Text.byteLength name)).advance
      (Text.byteLength c.val)).advance (Text.byteLength [op.symbol]) |>.advance
        (Text.byteLength d.val))
  have hop := (Token.Cuts.single hscanOp rfl).trans ((hgaps d _ _).trans hgroup)
  have hall := (hgaps b p _).trans ((Token.Cuts.single hscanName rfl).trans ((hgaps c _ _).trans hop))
  exact ⟨e', body, _, _, _, p₄, q, hall, hreads, hshape⟩

/-- **The tree of the expanded text** is the operator over the name and a copy of the tree of `rhs`,
unless that is too deep. -/
theorem orTooDeep_operation (b c d : Blanks) (p : Position) : ∃ e' p₁ p₂,
    SameShape AnyPositions e e' ∧ OrTooDeep (Expr.parse (b.val ++ operationText name op rhs c d) p)
      (.ok (.binary op (.name name p₁) e' p₂)) := by
  obtain ⟨e', body, p₁, p₂, p₃, p₄, q, hcuts, hreads, hshape⟩ :=
    cuts_operation hname op hparse b c d p
  have hlevel : 1 ≤ op.precedence := by cases op <;> decide
  have hleft : Reads op.precedence (.name name p₁) [⟨.name name, p₁⟩] := .name
  have hright : Reads (op.precedence + 1) e'
      (⟨.openParen, p₃⟩ :: (body ++ [⟨.closeParen, p₄⟩])) := .group hreads
  have htree : Reads 1 (.binary op (.name name p₁) e' p₂) ([⟨.name name, p₁⟩] ++
      ⟨.operator op, p₂⟩ :: ⟨.openParen, p₃⟩ :: (body ++ [⟨.closeParen, p₄⟩])) :=
    .binary hlevel hleft hright
  exact ⟨e', p₁, p₂, hshape, Expr.orTooDeep_parse hcuts htree⟩

/-- The expanded text starts with a name, so it is no fraction literal. -/
theorem isRational_operation (b c d : Blanks) :
    Literal.isRational (b.val ++ operationText name op rhs c d) = false := by
  obtain ⟨-, body, p₁, p₂, p₃, p₄, q, hcuts, -⟩ :=
    cuts_operation hname op hparse b c d .unknown
  rw [← Bool.not_eq_true]
  intro hrational
  obtain ⟨-, x, y, htokens⟩ := (Literal.isRational_iff hcuts.lex_eq_ok).mp hrational
  cases htokens

end Trees

/-! ## 4. Values -/

namespace Environment

variable {env : Environment} {name rhs : Text} (hname : name.isIdentifier = true) (op : Operator)
  {origin : Position} {e : Expr} (hparse : Expr.parse rhs origin = .ok e)
  (hrational : Literal.isRational rhs = false)

include hparse hrational in
/-- The right-hand side has the value of its tree, and so has each copy of the tree. -/
theorem sameOutcome_copy (b : Blanks) (p : Position) {e' : Expr}
    (hshape : SameShape AnyPositions e e') :
    SameOutcome (env.evaluate (b.val ++ rhs) p) (env.eval e') := by
  have hblanks : Corresponds AnyPositions Eq (env.evaluate (b.val ++ rhs) p)
      (env.evaluate rhs origin) :=
    env.corresponds_evaluate_blanks_append b.property (fun _ _ _ _ => trivial) trivial rhs
  have hvalue : env.evaluate rhs origin = env.eval e := by
    rw [env.evaluate_eq_evaluateArithmetic rhs origin hrational, evaluateArithmetic_eq_eval, hparse,
      ok_bind]
  rw [hvalue] at hblanks
  exact hblanks.sameOutcome.trans (env.corresponds_eval hshape).sameOutcome

include hname hparse hrational in
/-- **The two statements answer alike**, unless the expanded one is too deep. -/
theorem sameOutcome_answer (hlenient : env.strict = false) (hbound : (env.get? name).isSome = true)
    (a b c d : Blanks) (p q p' q' : Position) :
    SameOutcome (env.answer (.compound name op (a.val ++ rhs) p q))
        (env.answer (.assignment name (b.val ++ operationText name op rhs c d) p' q')) ∨
      ∃ r, env.answer (.assignment name (b.val ++ operationText name op rhs c d) p' q')
        = .error ⟨.nestingTooDeep, r⟩ := by
  obtain ⟨old, hget⟩ := Option.isSome_iff_exists.mp hbound
  have hlookup : ∀ r, env.lookup name r = .ok old := by
    intro r
    rw [lookup, hget]
  have hcompound : env.answer (.compound name op (a.val ++ rhs) p q)
      = env.evaluate (a.val ++ rhs) p >>= fun operand => Value.combine op old operand q := by
    rw [answer, hlookup, ok_bind]
  have hassignment : env.answer (.assignment name (b.val ++ operationText name op rhs c d) p' q')
      = Expr.parse (b.val ++ operationText name op rhs c d) p' >>= env.eval := by
    have hfree : env.checkFree name q' = .ok () := by simp [checkFree, hlenient]
    rw [answer, hfree, ok_bind,
      env.evaluate_eq_evaluateArithmetic _ _ (isRational_operation hname op hparse b c d),
      evaluateArithmetic_eq_eval]
  rw [hcompound, hassignment]
  obtain ⟨e', p₁, p₂, hshape, htree⟩ := orTooDeep_operation hname op hparse b c d p'
  rcases htree with htree | ⟨r, hdeep⟩
  · left
    rw [htree, ok_bind, eval, eval, hlookup, ok_bind]
    refine (sameOutcome_copy hparse hrational a p hshape).bind (fun operand => ?_)
    exact Value.sameOutcome_combine op old operand q p₂
  · right
    exact ⟨r, by rw [hdeep, error_bind]⟩

/-! ## 5. Statements -/

/-- Two runs succeed with one value and leave one environment behind, or they fail with errors of one
kind and change nothing. -/
def SameEffect (env : Environment) (run run' : ScriptRun) : Prop :=
  (∃ v after, run = (after, .ok (some v)) ∧ run' = (after, .ok (some v))) ∨
    ∃ e f, run = (env, .error e) ∧ run' = (env, .error f) ∧ e.kind = f.kind

include hname hparse hrational in
/-- **Compound assignment is its expansion**, unless the expansion is too deep. -/
theorem compound_expansion (hlenient : env.strict = false) (hbound : (env.get? name).isSome = true)
    (a b a' b' c d : Blanks) (line line' : Nat) :
    SameEffect env (env.call (.line (compoundText name op rhs a b) line))
        (env.call (.line (expandedText name op rhs a' b' c d) line')) ∨
      ∃ r, (env.call (.line (expandedText name op rhs a' b' c d) line')).2
        = .error ⟨.nestingTooDeep, r⟩ := by
  obtain ⟨p, q, hcompound⟩ := parse_compoundText hname op rhs line a b
  obtain ⟨p', q', hassignment⟩ := parse_expandedText hname op rhs line' a' b' c d
  rw [call_of_executes (.line hcompound), call_of_executes (.line hassignment)]
  rcases sameOutcome_answer hname op hparse hrational hlenient hbound b b' c d p q p' q' with
    hsame | ⟨r, hdeep⟩
  · left
    rcases hsame.cases with ⟨v, hv, hv'⟩ | ⟨f, f', hf, hf', hkind⟩
    · left
      exact ⟨v, env.bind name v, by rw [hv]; rfl, by rw [hv']; rfl⟩
    · right
      exact ⟨f, f', by rw [hf]; rfl, by rw [hf']; rfl, hkind⟩
  · right
    exact ⟨r, by rw [hdeep]; rfl⟩

namespace Example

/-- One space. -/
def space : Blanks := ⟨[' '], by simp [Text.AreBlank, Text.isBlank]⟩

theorem compound_expansion_product :
    Text.isIdentifier ['e'] = true ∧ (∃ e, Expr.parse "1+pi".toList ⟨1, 1⟩ = .ok e) ∧
      Literal.isRational "1+pi".toList = false ∧ ((fresh false).get? ['e']).isSome = true ∧
      (SameEffect (fresh false) ((fresh false).call (.line "e *= 1+pi".toList 1))
          ((fresh false).call (.line "e = e * (1+pi)".toList 2)) ∨
        ∃ r, ((fresh false).call (.line "e = e * (1+pi)".toList 2)).2
          = .error ⟨.nestingTooDeep, r⟩) := by
  have hheight : (Expr.parse "1+pi".toList ⟨1, 1⟩).map Expr.height = .ok 2 := by decide +kernel
  have hrational : Literal.isRational "1+pi".toList = false := by decide +kernel
  have hbound : ((fresh false).get? ['e']).isSome = true := by decide
  obtain ⟨e, hparse, -⟩ := map_eq_ok hheight
  exact ⟨rfl, ⟨e, hparse⟩, hrational, hbound,
    compound_expansion rfl .mul hparse hrational rfl hbound space space space space space space 1 2⟩

end Example

end Environment
end Abacus
