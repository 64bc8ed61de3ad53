/-
# The parser does not look at positions

The parser copies positions from lexemes into trees and errors and does nothing else with them.  So
it treats lexemes with the same tokens alike, wherever they stand: if the positions of two lists of
lexemes are related one by one, it answers both with a tree of one shape or both with one cause, and
the positions in the answers are related again.  The relation is arbitrary, which gives three facts
at once: moving a text moves its tree and its errors, all positions in an answer are positions of
lexemes, and what is forgotten of the positions of lexemes can be forgotten of the answer.

There is one position that no lexeme has, the unknown one.  The rules report it when they run out of
lexemes.  They never do, because the marker for the end of input stands behind the last token and no
rule takes it off; this is why the relation on lists (`Aligned`) holds of lists with that marker
only.

Main statements:

* `agree_factor`: factors agree at every depth and bound;
* `corresponds_lex` and `corresponds_parse`: the lexer and the parser agree on a text at two places.
-/
import Mathlib.Data.List.Forall2
import Abacus.Expr.Parser
import Abacus.Proofs.Outcome
import Abacus.Proofs.Token.Cuts

namespace Abacus
namespace Expr

variable {R : Position → Position → Prop}

/-! ## 1. Trees and lexemes with related positions -/

mutual

/-- One tree at two places: the positions of its nodes are related. -/
inductive SameShape (R : Position → Position → Prop) : Expr → Expr → Prop
  | number {x : Binary64} {p q : Position} : R p q → SameShape R (.number x p) (.number x q)
  | name {text : Text} {p q : Position} : R p q → SameShape R (.name text p) (.name text q)
  | vector {xs : List Binary64} {p q : Position} :
      R p q → SameShape R (.vector xs p) (.vector xs q)
  | matrix {rows : List (List Binary64)} {p q : Position} :
      R p q → SameShape R (.matrix rows p) (.matrix rows q)
  | negate {e e' : Expr} {p q : Position} :
      R p q → SameShape R e e' → SameShape R (.negate e p) (.negate e' q)
  | binary {op : Operator} {l l' r r' : Expr} {p q : Position} :
      R p q → SameShape R l l' → SameShape R r r' →
        SameShape R (.binary op l r p) (.binary op l' r' q)
  | call {text : Text} {es es' : List Expr} {p q : Position} :
      R p q → SameShapes R es es' → SameShape R (.call text es p) (.call text es' q)

/-- Trees at two places, one by one. -/
inductive SameShapes (R : Position → Position → Prop) : List Expr → List Expr → Prop
  | nil : SameShapes R [] []
  | cons {e e' : Expr} {es es' : List Expr} :
      SameShape R e e' → SameShapes R es es' → SameShapes R (e :: es) (e' :: es')

end

mutual

theorem SameShape.height_eq {e e' : Expr} : SameShape R e e' → e.height = e'.height
  | .number _ => rfl
  | .name _ => rfl
  | .vector _ => rfl
  | .matrix _ => rfl
  | .negate _ h => by rw [height, height, h.height_eq]
  | .binary _ hl hr => by rw [height, height, hl.height_eq, hr.height_eq]
  | .call _ hs => by rw [height, height, hs.heights_eq]

theorem SameShapes.heights_eq {es es' : List Expr} : SameShapes R es es' → heights es = heights es'
  | .nil => rfl
  | .cons h hs => by rw [heights, heights, h.height_eq, hs.heights_eq]

end

theorem SameShape.position {e e' : Expr} (h : SameShape R e e') : R e.position e'.position := by
  cases h <;> assumption

/-- The same tokens up to the marker for the end of input, with related positions. -/
inductive Aligned (R : Position → Position → Prop) : List Lexeme → List Lexeme → Prop
  | last {p q : Position} : R p q → Aligned R [⟨.endOfInput, p⟩] [⟨.endOfInput, q⟩]
  | cons {token : Token} {p q : Position} {ls ls' : List Lexeme} :
      R p q → Aligned R ls ls' → Aligned R (⟨token, p⟩ :: ls) (⟨token, q⟩ :: ls')

theorem Aligned.length_eq {ls ls' : List Lexeme} (h : Aligned R ls ls') :
    ls.length = ls'.length := by
  induction h with
  | last _ => rfl
  | cons _ _ ih => rw [List.length_cons, List.length_cons, ih]

theorem Aligned.tokens_eq {ls ls' : List Lexeme} (h : Aligned R ls ls') : tokens ls = tokens ls' := by
  induction h with
  | last _ => rfl
  | cons _ _ ih => rw [tokens_cons, tokens_cons, ih]

theorem Aligned.here {ls ls' : List Lexeme} (h : Aligned R ls ls') : R (here ls) (here ls') := by
  cases h <;> assumption

/-- On lists with related positions, two rules have corresponding outcomes, and leave lists with
related positions. -/
def Rule.Agree {α β : Type} (R : Position → Position → Prop) (r : α → β → Prop) (rule : Rule α)
    (rule' : Rule β) : Prop :=
  ∀ ls ls', Aligned R ls ls' →
    Corresponds R (fun found found' => r found.1 found'.1 ∧ Aligned R found.2 found'.2) (rule ls)
      (rule' ls')

/-! ## 2. Lists and literals -/

section Lists

variable {α β : Type} {r : α → β → Prop} {item : Rule α} {item' : Rule β} {closing : Token}
  {p q : Position}

theorem corresponds_unclosed {γ δ : Type} (hR : R p q) (closing : Token) (s : γ → δ → Prop) :
    Corresponds R s (.error (unclosed closing p)) (.error (unclosed closing q)) := by
  unfold unclosed
  split
  · exact corresponds_error hR _ _
  · exact corresponds_error hR _ _

/-- Behind an item, the next token alone decides whether the list goes on, closes or is in error. -/
theorem agree_items (hR : R p q) (hitem : Rule.Agree R r item item')
    (hclosing : closing ≠ .endOfInput) (bound : Nat) :
    Rule.Agree R (List.Forall₂ r) (items item closing p bound) (items item' closing q bound) := by
  induction bound with
  | zero => exact fun _ _ _ => corresponds_unclosed hR _ _
  | succ bound ih =>
    intro ls ls' h
    cases h with
    | last _ => exact corresponds_unclosed hR _ _
    | cons hfirst hmore =>
      unfold items
      split
      · next heq => cases heq
      · next heq =>
        cases heq
        exact corresponds_unclosed hR _ _
      · next _ hnotEnd =>
        split
        · next heq => cases heq
        · next heq =>
          cases heq
          exact absurd rfl (hnotEnd _ _)
        · refine (hitem _ _ (.cons hfirst hmore)).bind ?_
          rintro ⟨x, rest⟩ ⟨y, rest'⟩ ⟨hxy, hrest⟩
          cases hrest with
          | last _ =>
            dsimp only
            rw [if_neg (by simp), if_neg (Ne.symm hclosing), if_pos rfl, if_neg (by simp),
              if_neg (Ne.symm hclosing), if_pos rfl]
            exact corresponds_unclosed hR _ _
          | cons hnext hmore =>
            dsimp only
            split
            · refine (ih _ _ hmore).bind ?_
              rintro ⟨xs, rest⟩ ⟨ys, rest'⟩ ⟨hxys, hrest⟩
              exact ⟨.cons hxy hxys, hrest⟩
            · split
              · exact ⟨.cons hxy .nil, hmore⟩
              · split
                · exact corresponds_unclosed hR _ _
                · exact corresponds_error hnext _ _

theorem agree_commaSeparated (hR : R p q) (hitem : Rule.Agree R r item item')
    (hclosing : closing ≠ .endOfInput) :
    Rule.Agree R (List.Forall₂ r) (commaSeparated item closing p)
      (commaSeparated item' closing q) := by
  intro ls ls' h
  have hitems := agree_items hR hitem hclosing ls.length ls ls' h
  have hlength := h.length_eq
  cases h with
  | last _ =>
    unfold commaSeparated
    dsimp only
    rw [if_neg (Ne.symm hclosing), if_neg (Ne.symm hclosing)]
    exact hitems
  | cons hfirst hmore =>
    unfold commaSeparated
    dsimp only
    split
    · exact ⟨.nil, hmore⟩
    · rw [← hlength]
      exact hitems

end Lists

theorem agree_unsignedNumber : Rule.Agree R Eq unsignedNumber unsignedNumber := by
  intro ls ls' h
  cases h with
  | last hR => exact corresponds_error hR _ _
  | @cons token p q ls ls' hR hmore =>
    cases token with
    | number x => exact ⟨rfl, hmore⟩
    | _ => exact corresponds_error hR _ _

theorem agree_signedNumber : Rule.Agree R Eq signedNumber signedNumber := by
  intro ls ls' h
  unfold signedNumber
  split
  · cases h with
    | cons hR hmore =>
      refine (agree_unsignedNumber _ _ hmore).bind ?_
      rintro ⟨x, rest⟩ ⟨y, rest'⟩ ⟨rfl, hrest⟩
      exact ⟨rfl, hrest⟩
  · next hminus =>
    split
    · cases h with
      | cons _ _ => exact absurd rfl (hminus _ _)
    · exact agree_unsignedNumber _ _ h

theorem closeBracket_ne_endOfInput : Token.closeBracket ≠ .endOfInput := by simp

theorem agree_row : Rule.Agree R Eq row row := by
  intro ls ls' h
  cases h with
  | last hR => exact corresponds_error hR _ _
  | cons hR hmore =>
    unfold row
    dsimp only
    split
    · have hlist :=
        agree_commaSeparated hR agree_signedNumber closeBracket_ne_endOfInput _ _ hmore
      rwa [List.forall₂_eq_eq_eq] at hlist
    · exact corresponds_error hR _ _

theorem agree_bracketLiteral {p q : Position} (hR : R p q) :
    Rule.Agree R (SameShape R) (bracketLiteral p) (bracketLiteral q) := by
  intro ls ls' h
  have hrows := agree_commaSeparated hR agree_row closeBracket_ne_endOfInput ls ls' h
  have hnumbers := agree_commaSeparated hR agree_signedNumber closeBracket_ne_endOfInput ls ls' h
  rw [List.forall₂_eq_eq_eq] at hrows hnumbers
  unfold bracketLiteral
  split
  · cases h with
    | cons _ _ =>
      refine hrows.bind ?_
      rintro ⟨rows, rest⟩ ⟨rows', rest'⟩ ⟨rfl, hrest⟩
      exact ⟨.matrix hR, hrest⟩
  · next hbracket =>
    split
    · cases h with
      | cons _ _ => exact absurd rfl (hbracket _ _)
    · refine hnumbers.bind ?_
      rintro ⟨xs, rest⟩ ⟨ys, rest'⟩ ⟨rfl, hrest⟩
      exact ⟨.vector hR, hrest⟩

/-! ## 3. Operators -/

section Operators

variable {limits : Limits} {operand : Rule Expr} {level : Nat}

/-- A height that is checked is the same on both sides. -/
theorem corresponds_height {α β : Type} {r : α → β → Prop} {e e' : Expr} {p q : Position}
    (he : SameShape R e e') (hR : R p q) {x : Except Error α} {y : Except Error β}
    (h : Corresponds R r x y) :
    Corresponds R r (if limits.allowsHeight e.height then x else .error ⟨.nestingTooDeep, p⟩)
      (if limits.allowsHeight e'.height then y else .error ⟨.nestingTooDeep, q⟩) := by
  rw [he.height_eq]
  split
  · exact h
  · exact corresponds_error hR _ _

theorem agree_chainTail (hoperand : Rule.Agree R (SameShape R) operand operand) (bound : Nat)
    {left left' : Expr} (hleft : SameShape R left left') :
    Rule.Agree R (SameShape R) (chainTail limits level operand bound left)
      (chainTail limits level operand bound left') := by
  induction bound generalizing left left' with
  | zero => exact fun _ _ h => ⟨hleft, h⟩
  | succ bound ih =>
    intro ls ls' h
    unfold chainTail
    cases h with
    | last hR => exact ⟨hleft, .last hR⟩
    | @cons token p q ls ls' hR hmore =>
      cases token with
      | operator op =>
        dsimp only
        split
        · refine (hoperand _ _ hmore).bind ?_
          rintro ⟨right, rest⟩ ⟨right', rest'⟩ ⟨hright, hrest⟩
          have hnode : SameShape R (.binary op left right p) (.binary op left' right' q) :=
            .binary hR hleft hright
          exact corresponds_height hnode hR (ih hnode _ _ hrest)
        · exact ⟨hleft, .cons hR hmore⟩
      | _ => exact ⟨hleft, .cons hR hmore⟩

theorem agree_chain (hoperand : Rule.Agree R (SameShape R) operand operand) :
    Rule.Agree R (SameShape R) (chain limits level operand) (chain limits level operand) := by
  intro ls ls' h
  refine (hoperand _ _ h).bind ?_
  rintro ⟨left, rest⟩ ⟨left', rest'⟩ ⟨hleft, hrest⟩
  dsimp only
  rw [hrest.length_eq]
  exact corresponds_height hleft hleft.position (agree_chainTail hoperand _ hleft _ _ hrest)

theorem agree_expressionOf {factor : Rule Expr} (hfactor : Rule.Agree R (SameShape R) factor factor) :
    Rule.Agree R (SameShape R) (expressionOf limits factor) (expressionOf limits factor) :=
  agree_chain (agree_chain hfactor)

end Operators

/-! ## 4. Primaries and factors -/

theorem sameShapes_of_forall₂ {es es' : List Expr} (h : List.Forall₂ (SameShape R) es es') :
    SameShapes R es es' := by
  induction h with
  | nil => exact .nil
  | cons he _ ih => exact .cons he ih

section Primaries

variable {expression : Rule Expr} (hexpr : Rule.Agree R (SameShape R) expression expression)
  {p q : Position}

include hexpr

theorem agree_nameOrCall (hR : R p q) (text : Text) :
    Rule.Agree R (SameShape R) (nameOrCall expression text p) (nameOrCall expression text q) := by
  intro ls ls' h
  cases h with
  | last hend => exact ⟨.name hR, .last hend⟩
  | @cons token p' q' ls ls' hopener hmore =>
    cases token with
    | openParen =>
      refine (agree_commaSeparated hopener hexpr (by simp) _ _ hmore).bind ?_
      rintro ⟨es, rest⟩ ⟨es', rest'⟩ ⟨hes, hrest⟩
      exact ⟨.call hR (sameShapes_of_forall₂ hes), hrest⟩
    | _ => exact ⟨.name hR, .cons hopener hmore⟩

theorem agree_group (hR : R p q) :
    Rule.Agree R (SameShape R) (group expression p) (group expression q) := by
  intro ls ls' h
  refine (hexpr _ _ h).bind ?_
  rintro ⟨e, rest⟩ ⟨e', rest'⟩ ⟨he, hrest⟩
  cases hrest with
  | last _ => exact corresponds_error hR _ _
  | @cons token p' q' ls ls' hnext hmore =>
    cases token with
    | closeParen => exact ⟨he, hmore⟩
    | _ => exact corresponds_error hR _ _

theorem agree_primary : Rule.Agree R (SameShape R) (primary expression) (primary expression) := by
  intro ls ls' h
  cases h with
  | last hR => exact corresponds_error hR _ _
  | @cons token p q ls ls' hR hmore =>
    cases token with
    | number x => exact ⟨.number hR, hmore⟩
    | name text => exact agree_nameOrCall hexpr hR text _ _ hmore
    | openParen => exact agree_group hexpr hR _ _ hmore
    | openBracket => exact agree_bracketLiteral hR _ _ hmore
    | _ => exact corresponds_error hR _ _

end Primaries

/-- **Factors agree** at every depth and bound. -/
theorem agree_factor (limits : Limits) (bound depth : Nat) :
    Rule.Agree R (SameShape R) (factor limits bound depth) (factor limits bound depth) := by
  induction bound generalizing depth with
  | zero => exact fun _ _ h => corresponds_error h.here _ _
  | succ bound ih =>
    intro ls ls' h
    unfold factor
    split
    · split
      · cases h with
        | cons hR hmore =>
          refine (ih _ _ _ hmore).bind ?_
          rintro ⟨e, rest⟩ ⟨e', rest'⟩ ⟨he, hrest⟩
          exact ⟨.negate hR he, hrest⟩
      · next hminus =>
        split
        · cases h with
          | cons _ _ => exact absurd rfl (hminus _ _)
        · exact agree_primary (agree_expressionOf (ih _)) _ _ h
    · exact corresponds_error h.here _ _

theorem corresponds_ofLexemes (limits : Limits) {ls ls' : List Lexeme} (h : Aligned R ls ls') :
    Corresponds R (SameShape R) (ofLexemes limits ls) (ofLexemes limits ls') := by
  unfold ofLexemes
  rw [h.length_eq]
  refine (agree_expressionOf (agree_factor limits _ 0) _ _ h).bind ?_
  rintro ⟨e, rest⟩ ⟨e', rest'⟩ ⟨he, hrest⟩
  cases hrest with
  | last _ => exact he
  | @cons token p q ls ls' hR hmore =>
    cases token with
    | endOfInput => exact he
    | _ => exact corresponds_error hR _ _

/-! ## 5. Whole texts -/

/-- The relation does not depend on how far into a text two places are. -/
def Moves (R : Position → Position → Prop) : Prop :=
  ∀ p q, R p q → ∀ bytes, R (p.advance bytes) (q.advance bytes)

/-- The lexer at two places. -/
theorem corresponds_lex (hmoves : Moves R) {p q : Position} (hR : R p q) (cs : Text) :
    Corresponds R (Aligned R) (Token.lex p cs) (Token.lex q cs) := by
  induction p, cs using Token.lex.induct generalizing q with
  | case1 p =>
    rw [Token.lex, Token.lex]
    exact .last hR
  | case2 p c rest hgap ih =>
    rw [Token.lex, Token.lex, if_pos hgap, if_pos hgap]
    exact ih (hmoves p q hR _)
  | case3 p c rest hgap hscan =>
    rw [Token.lex_of_scan?_eq_none hgap hscan, Token.lex_of_scan?_eq_none hgap hscan]
    exact corresponds_error hR _ _
  | case4 p c rest hgap token slice after hscan hlarge =>
    rw [Token.lex_of_scan? hscan, Token.lex_of_scan? hscan, if_pos hlarge, if_pos hlarge]
    exact corresponds_error hR _ _
  | case5 p c rest hgap token slice after hscan hsmall ih =>
    rw [Token.lex_of_scan? hscan, Token.lex_of_scan? hscan, if_neg hsmall, if_neg hsmall]
    exact (ih (hmoves p q hR _)).map (fun _ _ h => .cons hR h)

/-- **The parser at two places** gives trees of one shape, or errors with one cause. -/
theorem corresponds_parse (hmoves : Moves R) {p q : Position} (hR : R p q) (text : Text) :
    Corresponds R (SameShape R) (parse text p) (parse text q) :=
  (corresponds_lex hmoves hR text).bind (fun _ _ h => corresponds_ofLexemes _ h)

end Expr
end Abacus
