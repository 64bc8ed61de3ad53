/-
# The grammar of expressions as a relation

`Reads k e ls` says that the lexemes `ls` are a written form of the tree `e` at the level `k` of the
grammar: 1 for a whole expression, 2 for an operand of a sum, 3 for a factor.  A number, a name, a
literal, a call, a negation and a group stand at every level; an operator stands at its own level and
the weaker ones.  Its left operand may be of its own level and its right operand must be of a
stronger one, which is all there is to precedence and to grouping from the left.

The parser walks over the lexemes once, with bounds, limits and errors.  The relation has none of
these, so statements about what a tree and its written form have in common are inductions on it
(`Expr/Soundness` and `Expr/Completeness` connect the two).

Main statements:

* `Reads.mono`: what stands at a level stands at the weaker ones;
* `Reads.endOfInput_notMem`: the marker for the end of input is no part of a written form;
* `Reads.spaced`: between two operands of a written form there is always another token.
-/
import Mathlib.Data.List.Chain
import Abacus.Expr.Parser

namespace Abacus

/-- The tokens of lexemes, without their positions. -/
def tokens (lexemes : List Lexeme) : List Token := lexemes.map Located.item

@[simp] theorem tokens_nil : tokens [] = [] := rfl

@[simp] theorem tokens_cons (token : Token) (p : Position) (lexemes : List Lexeme) :
    tokens (⟨token, p⟩ :: lexemes) = token :: tokens lexemes := rfl

@[simp] theorem tokens_append (a b : List Lexeme) : tokens (a ++ b) = tokens a ++ tokens b :=
  List.map_append

namespace Expr

/-- Only numbers, negations and operators. -/
def isGround : Expr → Bool
  | number _ _ => true
  | negate e _ => e.isGround
  | binary _ l r _ => l.isGround && r.isGround
  | _ => false

/-! ## 1. Lists -/

section Lists

variable {α : Type}

/-- One or more items with a comma between neighbours. -/
inductive Separated (item : α → List Lexeme → Prop) : List α → List Lexeme → Prop
  | one {x : α} {ls : List Lexeme} : item x ls → Separated item [x] ls
  | more {x : α} {xs : List α} {ls rest : List Lexeme} {p : Position} :
      item x ls → Separated item xs rest → Separated item (x :: xs) (ls ++ ⟨.comma, p⟩ :: rest)

/-- Items with commas between them, or none, and the closing token. -/
inductive Listed (item : α → List Lexeme → Prop) (closing : Token) :
    List α → List Lexeme → Prop
  | empty {p : Position} : Listed item closing [] [⟨closing, p⟩]
  | filled {xs : List α} {ls : List Lexeme} {p : Position} :
      Separated item xs ls → Listed item closing xs (ls ++ [⟨closing, p⟩])

end Lists

/-! ## 2. Literals -/

/-- A number with an optional minus sign. -/
inductive Signed : Binary64 → List Lexeme → Prop
  | plain {x : Binary64} {p : Position} : Signed x [⟨.number x, p⟩]
  | minus {x : Binary64} {p q : Position} :
      Signed (-x) [⟨.operator .sub, p⟩, ⟨.number x, q⟩]

/-- A row of numbers in brackets. -/
inductive Row : List Binary64 → List Lexeme → Prop
  | row {xs : List Binary64} {ls : List Lexeme} {p : Position} :
      Listed Signed .closeBracket xs ls → Row xs (⟨.openBracket, p⟩ :: ls)

/-! ## 3. Expressions -/

/-- The lexemes are a written form of the tree at a level of the grammar. -/
inductive Reads : Nat → Expr → List Lexeme → Prop
  | number {k : Nat} {x : Binary64} {p : Position} : Reads k (.number x p) [⟨.number x, p⟩]
  | name {k : Nat} {text : Text} {p : Position} : Reads k (.name text p) [⟨.name text, p⟩]
  | vector {k : Nat} {xs : List Binary64} {ls : List Lexeme} {p : Position} :
      Listed Signed .closeBracket xs ls → Reads k (.vector xs p) (⟨.openBracket, p⟩ :: ls)
  | matrix {k : Nat} {rows : List (List Binary64)} {ls : List Lexeme} {p q : Position} :
      Separated Row rows ls →
        Reads k (.matrix rows p) (⟨.openBracket, p⟩ :: (ls ++ [⟨.closeBracket, q⟩]))
  | call {k : Nat} {text : Text} {es : List Expr} {ls : List Lexeme} {p q : Position} :
      Listed (Reads 1) .closeParen es ls →
        Reads k (.call text es p) (⟨.name text, p⟩ :: ⟨.openParen, q⟩ :: ls)
  | group {k : Nat} {e : Expr} {ls : List Lexeme} {p q : Position} :
      Reads 1 e ls → Reads k e (⟨.openParen, p⟩ :: (ls ++ [⟨.closeParen, q⟩]))
  | negate {k : Nat} {e : Expr} {ls : List Lexeme} {p : Position} :
      Reads 3 e ls → Reads k (.negate e p) (⟨.operator .sub, p⟩ :: ls)
  | binary {k : Nat} {op : Operator} {l r : Expr} {ls rs : List Lexeme} {p : Position} :
      k ≤ op.precedence → Reads op.precedence l ls → Reads (op.precedence + 1) r rs →
        Reads k (.binary op l r p) (ls ++ ⟨.operator op, p⟩ :: rs)

section Induction

set_option linter.unusedSectionVars false

variable {motive : ∀ (k : Nat) (e : Expr) (ls : List Lexeme), Reads k e ls → Prop}
  (number : ∀ (k : Nat) (x : Binary64) (p : Position), motive k (.number x p) _ .number)
  (name : ∀ (k : Nat) (text : Text) (p : Position), motive k (.name text p) _ .name)
  (vector : ∀ (k : Nat) (xs : List Binary64) (ls : List Lexeme) (p : Position)
    (h : Listed Signed .closeBracket xs ls), motive k (.vector xs p) _ (.vector h))
  (matrix : ∀ (k : Nat) (rows : List (List Binary64)) (ls : List Lexeme) (p q : Position)
    (h : Separated Row rows ls), motive k (.matrix rows p) _ (.matrix (q := q) h))
  (call : ∀ (k : Nat) (text : Text) (es : List Expr) (ls : List Lexeme) (p q : Position)
    (h : Listed (Reads 1) .closeParen es ls),
    Listed (fun e ls => ∃ h : Reads 1 e ls, motive 1 e ls h) .closeParen es ls →
      motive k (.call text es p) _ (.call (q := q) h))
  (group : ∀ (k : Nat) (e : Expr) (ls : List Lexeme) (p q : Position) (h : Reads 1 e ls),
    motive 1 e ls h → motive k e _ (.group (p := p) (q := q) h))
  (negate : ∀ (k : Nat) (e : Expr) (ls : List Lexeme) (p : Position) (h : Reads 3 e ls),
    motive 3 e ls h → motive k (.negate e p) _ (.negate h))
  (binary : ∀ (k : Nat) (op : Operator) (l r : Expr) (ls rs : List Lexeme) (p : Position)
    (hk : k ≤ op.precedence) (hl : Reads op.precedence l ls)
    (hr : Reads (op.precedence + 1) r rs), motive op.precedence l ls hl →
      motive (op.precedence + 1) r rs hr → motive k (.binary op l r p) _ (.binary hk hl hr))

include number name vector matrix call group negate binary

mutual

/-- Induction on a written form.  For a call, the property comes with every argument of the list,
so that no statement about expressions needs a companion about lists of arguments. -/
@[elab_as_elim]
theorem Reads.induction {k : Nat} {e : Expr} {ls : List Lexeme} :
    ∀ h : Reads k e ls, motive k e ls h
  | .number => number _ _ _
  | .name => name _ _ _
  | .vector h => vector _ _ _ _ h
  | .matrix h => matrix _ _ _ _ _ h
  | .call h => call _ _ _ _ _ _ h (Listed.withMotive h)
  | .group h => group _ _ _ _ _ h (Reads.induction h)
  | .negate h => negate _ _ _ _ h (Reads.induction h)
  | .binary hk hl hr =>
    binary _ _ _ _ _ _ _ hk hl hr (Reads.induction hl) (Reads.induction hr)

theorem Listed.withMotive {es : List Expr} {ls : List Lexeme} :
    Listed (Reads 1) .closeParen es ls →
      Listed (fun e ls => ∃ h : Reads 1 e ls, motive 1 e ls h) .closeParen es ls
  | .empty => .empty
  | .filled h => .filled (Separated.withMotive h)

theorem Separated.withMotive {es : List Expr} {ls : List Lexeme} :
    Separated (Reads 1) es ls →
      Separated (fun e ls => ∃ h : Reads 1 e ls, motive 1 e ls h) es ls
  | .one h => .one ⟨h, Reads.induction h⟩
  | .more h hs => .more ⟨h, Reads.induction h⟩ (Separated.withMotive hs)

end

end Induction

/-- What stands at a level stands at the weaker ones. -/
theorem Reads.mono {k j : Nat} {e : Expr} {ls : List Lexeme} (hle : j ≤ k) (h : Reads k e ls) :
    Reads j e ls := by
  cases h with
  | number => exact .number
  | name => exact .name
  | vector h => exact .vector h
  | matrix h => exact .matrix h
  | call h => exact .call h
  | group h => exact .group h
  | negate h => exact .negate h
  | binary hk hl hr => exact .binary (Nat.le_trans hle hk) hl hr

/-! ## 4. What a written form is made of -/

section Lists

variable {α : Type} {item : α → List Lexeme → Prop} {closing : Token} {xs : List α}
  {ls : List Lexeme}

/-- A list starts with an item. -/
theorem Separated.exists_first (h : Separated item xs ls) :
    ∃ x first rest, item x first ∧ ls = first ++ rest := by
  cases h with
  | one hx => exact ⟨_, ls, [], hx, (List.append_nil ls).symm⟩
  | more hx _ => exact ⟨_, _, _, hx, rfl⟩

/-- A list that is not empty consists of its items and the closing token. -/
theorem Listed.exists_separated (h : Listed item closing xs ls) (hne : xs ≠ []) :
    ∃ inner p, ls = inner ++ [⟨closing, p⟩] ∧ Separated item xs inner := by
  cases h with
  | empty => exact absurd rfl hne
  | filled h => exact ⟨_, _, rfl, h⟩

/-- A property of the tokens of every item is one of the tokens of a list, if commas have it. -/
theorem Separated.forall_token {P : Token → Prop} (h : Separated item xs ls) (hcomma : P .comma)
    (hitem : ∀ x ls, item x ls → ∀ t ∈ tokens ls, P t) : ∀ t ∈ tokens ls, P t := by
  induction h with
  | one hx => exact hitem _ _ hx
  | more hx hxs ih =>
    intro t ht
    rw [tokens_append, tokens_cons, List.mem_append, List.mem_cons] at ht
    rcases ht with ht | rfl | ht
    · exact hitem _ _ hx t ht
    · exact hcomma
    · exact ih t ht

theorem Listed.forall_token {P : Token → Prop} (h : Listed item closing xs ls)
    (hcomma : P .comma) (hclosing : P closing)
    (hitem : ∀ x ls, item x ls → ∀ t ∈ tokens ls, P t) : ∀ t ∈ tokens ls, P t := by
  cases h with
  | empty => simpa using hclosing
  | filled h =>
    intro t ht
    rw [tokens_append, List.mem_append] at ht
    rcases ht with ht | ht
    · exact h.forall_token hcomma hitem t ht
    · rw [tokens_cons, tokens_nil, List.mem_singleton] at ht
      exact ht ▸ hclosing

/-- Neighbours on the two sides of a cut are related if the token behind the cut may follow
anything. -/
theorem isChain_append_cons {R : Token → Token → Prop} {a b : List Token} {t : Token}
    (ht : ∀ s, R s t) (ha : a.IsChain R) (hb : (t :: b).IsChain R) : (a ++ t :: b).IsChain R := by
  refine List.isChain_append.mpr ⟨ha, hb, ?_⟩
  intro x _ y hy
  rw [List.head?_cons, Option.mem_some_iff] at hy
  exact hy ▸ ht x

theorem isChain_cons_of_free {R : Token → Token → Prop} {b : List Token} {t : Token}
    (ht : ∀ s, R t s) (hb : b.IsChain R) : (t :: b).IsChain R := by
  refine List.isChain_cons.mpr ⟨?_, hb⟩
  intro y _
  exact ht y

/-- Neighbours in a list are related if neighbours in its items are, and commas may stand next to
anything. -/
theorem Separated.isChain {R : Token → Token → Prop} (h : Separated item xs ls)
    (hbefore : ∀ s, R s .comma) (hafter : ∀ s, R .comma s)
    (hitem : ∀ x ls, item x ls → (tokens ls).IsChain R) : (tokens ls).IsChain R := by
  induction h with
  | one hx => exact hitem _ _ hx
  | more hx hxs ih =>
    rw [tokens_append, tokens_cons]
    exact isChain_append_cons hbefore (hitem _ _ hx) (isChain_cons_of_free hafter ih)

theorem Listed.isChain {R : Token → Token → Prop} (h : Listed item closing xs ls)
    (hbefore : ∀ s, R s .comma) (hafter : ∀ s, R .comma s) (hclosing : ∀ s, R s closing)
    (hitem : ∀ x ls, item x ls → (tokens ls).IsChain R) : (tokens ls).IsChain R := by
  cases h with
  | empty => exact List.isChain_singleton _
  | filled h =>
    rw [tokens_append, tokens_cons, tokens_nil]
    exact isChain_append_cons hclosing (h.isChain hbefore hafter hitem) (List.isChain_singleton _)

end Lists

end Expr

namespace Token

/-- A token of the grammar: neither an assignment nor the end of the text. -/
def isGrammatical : Token → Bool
  | assignOperator _ => false
  | increment => false
  | decrement => false
  | equals => false
  | endOfInput => false
  | _ => true

/-- A token that is an operand by itself. -/
def isOperand : Token → Bool
  | number _ => true
  | name _ => true
  | _ => false

/-- A token with which an operand can start. -/
def startsOperand : Token → Bool
  | number _ => true
  | name _ => true
  | openParen => true
  | openBracket => true
  | _ => false

end Token

namespace Expr

theorem Signed.isGrammatical {x : Binary64} {ls : List Lexeme} (h : Signed x ls) :
    ∀ t ∈ tokens ls, t.isGrammatical = true := by
  cases h <;> simp [Token.isGrammatical]

theorem Row.isGrammatical {xs : List Binary64} {ls : List Lexeme} (h : Row xs ls) :
    ∀ t ∈ tokens ls, t.isGrammatical = true := by
  cases h with
  | row h =>
    rw [tokens_cons, List.forall_mem_cons]
    exact ⟨rfl, h.forall_token (P := (Token.isGrammatical · = true)) rfl rfl
      (fun _ _ hx => hx.isGrammatical)⟩

/-- A written form consists of tokens of the grammar. -/
theorem Reads.isGrammatical {k : Nat} {e : Expr} {ls : List Lexeme} (h : Reads k e ls) :
    ∀ t ∈ tokens ls, t.isGrammatical = true := by
  induction h using Reads.induction with
  | number k x p => simp [Token.isGrammatical]
  | name k text p => simp [Token.isGrammatical]
  | vector k xs ls p h =>
    rw [tokens_cons, List.forall_mem_cons]
    exact ⟨rfl, h.forall_token (P := (Token.isGrammatical · = true)) rfl rfl
      (fun _ _ hx => hx.isGrammatical)⟩
  | matrix k rows ls p q h =>
    rw [tokens_cons, tokens_append, List.forall_mem_cons, List.forall_mem_append]
    exact ⟨rfl, h.forall_token (P := (Token.isGrammatical · = true)) rfl
      (fun _ _ hx => hx.isGrammatical), by simp [Token.isGrammatical]⟩
  | call k text es ls p q _ h =>
    rw [tokens_cons, tokens_cons, List.forall_mem_cons, List.forall_mem_cons]
    exact ⟨rfl, rfl, h.forall_token (P := (Token.isGrammatical · = true)) rfl rfl
      (fun _ _ hx => hx.2)⟩
  | group k e ls p q h ih =>
    rw [tokens_cons, tokens_append, List.forall_mem_cons, List.forall_mem_append]
    exact ⟨rfl, ih, by simp [Token.isGrammatical]⟩
  | negate k e ls p h ih =>
    rw [tokens_cons, List.forall_mem_cons]
    exact ⟨rfl, ih⟩
  | binary k op l r ls rs p hk hl hr ihl ihr =>
    rw [tokens_append, tokens_cons, List.forall_mem_append, List.forall_mem_cons]
    exact ⟨ihl, rfl, ihr⟩

/-- The marker for the end of input is no part of a written form. -/
theorem Reads.endOfInput_notMem {k : Nat} {e : Expr} {ls : List Lexeme} (h : Reads k e ls) :
    Token.endOfInput ∉ tokens ls := by
  intro hmem
  exact absurd (h.isGrammatical _ hmem) (by decide)

/-! ## 5. Neighbours in a written form -/

section Neighbours

variable {R : Token → Token → Prop} (hfree : ∀ a b, a.isOperand = false → R a b)
  (hstop : ∀ a b, b.startsOperand = false → R a b)

include hfree hstop

omit hstop in
theorem Signed.isChain {x : Binary64} {ls : List Lexeme} (h : Signed x ls) :
    (tokens ls).IsChain R := by
  cases h with
  | plain => exact List.isChain_singleton _
  | minus => exact isChain_cons_of_free (fun s => hfree _ s rfl) (List.isChain_singleton _)

theorem Row.isChain {xs : List Binary64} {ls : List Lexeme} (h : Row xs ls) :
    (tokens ls).IsChain R := by
  cases h with
  | row h =>
    exact isChain_cons_of_free (fun s => hfree _ s rfl)
      (h.isChain (fun s => hstop s _ rfl) (fun s => hfree _ s rfl) (fun s => hstop s _ rfl)
        (fun _ _ hx => hx.isChain hfree))

/-- **Neighbours.**  A relation holds between neighbouring tokens of a written form if it holds
behind every token that is no operand and in front of every token that starts none, and, unless the
tree is numeric, between a name and the parenthesis of its arguments. -/
theorem Reads.isChain {k : Nat} {e : Expr} {ls : List Lexeme} (h : Reads k e ls)
    (hcall : e.isNumeric = true ∨ ∀ text, R (.name text) .openParen) :
    (tokens ls).IsChain R := by
  have hclose : ∀ s, R s .closeParen := fun s => hstop s _ rfl
  have hbracket : ∀ s, R s .closeBracket := fun s => hstop s _ rfl
  have hcomma : ∀ s, R s .comma := fun s => hstop s _ rfl
  have hbehind : ∀ s, R .comma s := fun s => hfree _ s rfl
  induction h using Reads.induction with
  | number k x p => exact List.isChain_singleton _
  | name k text p => exact List.isChain_singleton _
  | vector k xs ls p h =>
    exact isChain_cons_of_free (fun s => hfree _ s rfl)
      (h.isChain hcomma hbehind hbracket (fun _ _ hx => hx.isChain hfree))
  | matrix k rows ls p q h =>
    rw [tokens_cons, tokens_append]
    exact isChain_cons_of_free (fun s => hfree _ s rfl)
      (isChain_append_cons hbracket
        (h.isChain hcomma hbehind (fun _ _ hx => hx.isChain hfree hstop))
        (List.isChain_singleton _))
  | call k text es ls p q _ h =>
    have hname : ∀ text, R (.name text) .openParen := by
      rcases hcall with hnumeric | hname
      · exact absurd hnumeric (by simp [isNumeric])
      · exact hname
    have hargs := h.isChain hcomma hbehind hclose (fun _ _ hx => hx.2 (Or.inr hname))
    rw [tokens_cons, tokens_cons, List.isChain_cons_cons]
    exact ⟨hname text, isChain_cons_of_free (fun s => hfree _ s rfl) hargs⟩
  | group k e ls p q h ih =>
    rw [tokens_cons, tokens_append]
    exact isChain_cons_of_free (fun s => hfree _ s rfl)
      (isChain_append_cons hclose (ih hcall) (List.isChain_singleton _))
  | negate k e ls p h ih =>
    exact isChain_cons_of_free (fun s => hfree _ s rfl) (ih hcall)
  | binary k op l r ls rs p hk hl hr ihl ihr =>
    have hsplit : (l.isNumeric = true ∨ ∀ text, R (.name text) .openParen) ∧
        (r.isNumeric = true ∨ ∀ text, R (.name text) .openParen) := by
      rcases hcall with hnumeric | hname
      · obtain ⟨hln, hrn⟩ := Bool.and_eq_true_iff.mp hnumeric
        exact ⟨Or.inl hln, Or.inl hrn⟩
      · exact ⟨Or.inr hname, Or.inr hname⟩
    rw [tokens_append, tokens_cons]
    exact isChain_append_cons (fun s => hstop s _ rfl) (ihl hsplit.1)
      (isChain_cons_of_free (fun s => hfree _ s rfl) (ihr hsplit.2))

end Neighbours

/-- No operand follows an operand. -/
def Spaced (ts : List Token) : Prop :=
  ts.IsChain (fun a b => ¬ (a.isOperand = true ∧ b.isOperand = true))

/-- No name has an opening parenthesis behind it. -/
def CallFree (ts : List Token) : Prop :=
  ts.IsChain (fun a b => ¬ (a.isOperand = true ∧ b = .openParen))

/-- Between two operands of a written form there is always another token. -/
theorem Reads.spaced {k : Nat} {e : Expr} {ls : List Lexeme} (h : Reads k e ls) :
    Spaced (tokens ls) := by
  refine h.isChain (fun a b ha => by simp [ha]) (fun a b hb => ?_) (Or.inr (fun text => ?_))
  · cases b <;> simp_all [Token.startsOperand, Token.isOperand]
  · simp [Token.isOperand]

/-- The written form of a numeric tree has no calls. -/
theorem Reads.callFree {k : Nat} {e : Expr} {ls : List Lexeme} (h : Reads k e ls)
    (hnumeric : e.isNumeric = true) : CallFree (tokens ls) := by
  refine h.isChain (fun a b ha => by simp [ha]) (fun a b hb => ?_) (Or.inl hnumeric)
  rintro ⟨-, rfl⟩
  exact absurd hb (by decide)

end Expr
end Abacus
