/-
# Operands and operators that take turns

The grammar of numeric expressions has three levels and is recursive in two places.  As a condition on
the lexemes it is much simpler.  Numbers, operators and parentheses make an expression if operands and
operators take turns and every parenthesis is closed (`Alternating`): a minus sign, an opening
parenthesis or a number where an operand has to come, an operator or a closing parenthesis behind one.
So a reader that knows nothing of precedence can say that a text is an expression.

The tree is found from the left.  A factor ends at the first place where no operand is expected and as
many parentheses are open as before it; a factor in parentheses has an expression inside that is
shorter.  An operator and a factor are taken into the expression in front of them
(`Reads.exists_snoc`), where a product goes to the last operand of a sum.

Main statements:

* `reads_of_alternating`: alternating lexemes are a written form of a tree of numbers;
* `Reads.operandsApart`: in such a written form, no operand stands right behind another one;
* `Reads.isGround`: without names and brackets there are only trees of numbers.
-/
import Abacus.Proofs.Expr.Grammar

namespace Abacus

/-! ## 1. Operands next to operands -/

/-- A token with which an operand can end. -/
def Token.endsOperand : Token → Bool
  | number _ => true
  | name _ => true
  | closeParen => true
  | closeBracket => true
  | _ => false

namespace Expr

/-- No operand stands right behind another one. -/
def OperandsApart (ts : List Token) : Prop :=
  ts.IsChain (fun a b => ¬ (a.endsOperand = true ∧ b.startsOperand = true))

/-- In a written form of a tree of numbers, no operand stands right behind another one. -/
theorem Reads.operandsApart {k : Nat} {e : Expr} {ls : List Lexeme} (h : Reads k e ls)
    (hground : e.isGround = true) : OperandsApart (tokens ls) := by
  induction h using Reads.induction with
  | number k x p => exact List.isChain_singleton _
  | name k text p => cases hground
  | vector k xs ls p h => cases hground
  | matrix k rows ls p q h => cases hground
  | call k text es ls p q _ h => cases hground
  | group k e ls p q h ih =>
    rw [tokens_cons, tokens_append]
    exact isChain_cons_of_free (fun s => by simp [Token.endsOperand])
      (isChain_append_cons (fun s => by simp [Token.startsOperand]) (ih hground)
        (List.isChain_singleton _))
  | negate k e ls p h ih =>
    exact isChain_cons_of_free (fun s => by simp [Token.endsOperand]) (ih hground)
  | binary k op l r ls rs p hk hl hr ihl ihr =>
    obtain ⟨hgl, hgr⟩ := Bool.and_eq_true_iff.mp hground
    rw [tokens_append, tokens_cons]
    exact isChain_append_cons (fun s => by simp [Token.startsOperand]) (ihl hgl)
      (isChain_cons_of_free (fun s => by simp [Token.endsOperand]) (ihr hgr))

/-- A token of numeric expressions: a number, an operator or a parenthesis. -/
def isArithmetic : Token → Bool
  | .number _ => true
  | .operator _ => true
  | .openParen => true
  | .closeParen => true
  | _ => false

/-- A written form without names and brackets is one of a tree of numbers. -/
theorem Reads.isGround {k : Nat} {e : Expr} {ls : List Lexeme} (h : Reads k e ls)
    (harith : ∀ t ∈ tokens ls, isArithmetic t = true) : e.isGround = true := by
  induction h using Reads.induction with
  | number k x p => rfl
  | name k text p => cases harith _ List.mem_cons_self
  | vector k xs ls p h => cases harith _ List.mem_cons_self
  | matrix k rows ls p q h => cases harith _ List.mem_cons_self
  | call k text es ls p q _ h => cases harith _ List.mem_cons_self
  | group k e ls p q h ih =>
    rw [tokens_cons, tokens_append, List.forall_mem_cons, List.forall_mem_append] at harith
    exact ih harith.2.1
  | negate k e ls p h ih =>
    rw [tokens_cons, List.forall_mem_cons] at harith
    exact ih harith.2
  | binary k op l r ls rs p hk hl hr ihl ihr =>
    rw [tokens_append, tokens_cons, List.forall_mem_append, List.forall_mem_cons] at harith
    exact Bool.and_eq_true_iff.mpr ⟨ihl harith.1, ihr harith.2.2⟩

/-! ## 2. Operands and operators that take turns -/

/-- Operands and operators take turns to the end of the lexemes, and as many parentheses are closed
as are open.  The flag says that an operand comes next, the number how many parentheses are open. -/
inductive Alternating : Bool → Nat → List Lexeme → Prop
  | number {d : Nat} {x : Binary64} {p : Position} {ls : List Lexeme} :
      Alternating false d ls → Alternating true d (⟨.number x, p⟩ :: ls)
  | minus {d : Nat} {p : Position} {ls : List Lexeme} :
      Alternating true d ls → Alternating true d (⟨.operator .sub, p⟩ :: ls)
  | openParen {d : Nat} {p : Position} {ls : List Lexeme} :
      Alternating true (d + 1) ls → Alternating true d (⟨.openParen, p⟩ :: ls)
  | closeParen {d : Nat} {p : Position} {ls : List Lexeme} :
      Alternating false d ls → Alternating false (d + 1) (⟨.closeParen, p⟩ :: ls)
  | operator {d : Nat} {op : Operator} {p : Position} {ls : List Lexeme} :
      Alternating true d ls → Alternating false d (⟨.operator op, p⟩ :: ls)
  | done : Alternating false 0 []

/-- An operator and a factor behind an expression make an expression: a product goes to the last
operand of a sum. -/
theorem Reads.exists_snoc {l f : Expr} {ls fs : List Lexeme} (hl : Reads 1 l ls)
    (hf : Reads 3 f fs) (hgl : l.isGround = true) (hgf : f.isGround = true) (op : Operator)
    (p : Position) :
    ∃ e, Reads 1 e (ls ++ ⟨.operator op, p⟩ :: fs) ∧ e.isGround = true := by
  have hplain : Reads op.precedence l ls →
      ∃ e, Reads 1 e (ls ++ ⟨.operator op, p⟩ :: fs) ∧ e.isGround = true := by
    intro hl
    refine ⟨.binary op l f p, .binary ?_ hl (hf.mono ?_), Bool.and_eq_true_iff.mpr ⟨hgl, hgf⟩⟩
    · cases op <;> decide
    · cases op <;> decide
  cases hl with
  | number => exact hplain .number
  | name => cases hgl
  | vector h => cases hgl
  | matrix h => cases hgl
  | call h => cases hgl
  | group h => exact hplain (.group h)
  | negate h => exact hplain (.negate h)
  | @binary _ op' l r ls rs p' hk hl hr =>
    by_cases hweaker : op.precedence ≤ op'.precedence
    · exact hplain (.binary hweaker hl hr)
    · obtain ⟨hgl', hgr⟩ := Bool.and_eq_true_iff.mp hgl
      have hlast : op'.precedence + 1 = op.precedence ∧ op.precedence + 1 = 3 := by
        cases op <;> cases op' <;> simp [Operator.precedence] at hweaker ⊢
      have hproduct : Reads (op'.precedence + 1) (.binary op r f p) (rs ++ ⟨.operator op, p⟩ :: fs) :=
        .binary (Nat.le_of_eq hlast.1) (hlast.1 ▸ hr) (hlast.2 ▸ hf)
      refine ⟨.binary op' l (.binary op r f p) p', ?_, ?_⟩
      · rw [List.append_assoc, List.cons_append]
        exact .binary hk hl hproduct
      · exact Bool.and_eq_true_iff.mpr ⟨hgl', Bool.and_eq_true_iff.mpr ⟨hgr, hgf⟩⟩

/-- Alternating lexemes, up to a length, start with a factor and alternate behind it. -/
def StartsWithFactor (n : Nat) : Prop :=
  ∀ d ls, ls.length ≤ n → Alternating true d ls → ∃ f taken rest, ls = taken ++ rest ∧
    Reads 3 f taken ∧ f.isGround = true ∧ Alternating false d rest

/-- Behind an expression, more operators and factors are taken into it, until a parenthesis closes or
the lexemes end. -/
theorem exists_longest {n : Nat} (hfactor : StartsWithFactor n) {d : Nat} {ls : List Lexeme}
    (hn : ls.length ≤ n) (h : Alternating false d ls) {l : Expr} {before : List Lexeme}
    (hl : Reads 1 l before) (hgl : l.isGround = true) :
    ∃ e taken rest, ls = taken ++ rest ∧ Reads 1 e (before ++ taken) ∧ e.isGround = true ∧
      Alternating false d rest ∧ (rest = [] ∨ ∃ p more, rest = ⟨.closeParen, p⟩ :: more) := by
  induction hlength : ls.length using Nat.strong_induction_on generalizing ls l before with
  | _ m ih =>
    subst hlength
    cases h with
    | done => exact ⟨l, [], [], rfl, by rwa [List.append_nil], hgl, .done, Or.inl rfl⟩
    | @closeParen d p ls h =>
      refine ⟨l, [], _, rfl, by rwa [List.append_nil], hgl, .closeParen h, Or.inr ⟨p, ls, rfl⟩⟩
    | @operator _ op p ls h =>
      rw [List.length_cons] at hn
      obtain ⟨f, taken, rest, rfl, hf, hgf, hrest⟩ := hfactor d ls (by omega) h
      obtain ⟨e, he, hge⟩ := hl.exists_snoc hf hgl hgf op p
      rw [List.length_append] at hn
      have hshorter : rest.length < (⟨.operator op, p⟩ :: (taken ++ rest) : List Lexeme).length := by
        rw [List.length_cons, List.length_append]
        omega
      obtain ⟨e', taken', rest', rfl, he', hge', hrest', hends⟩ :=
        ih rest.length hshorter (by omega) hrest he hge rfl
      refine ⟨e', ⟨.operator op, p⟩ :: (taken ++ taken'), rest', by simp, ?_, hge', hrest', hends⟩
      simpa using he'

/-- Factors are found at every length: what is inside parentheses is shorter. -/
theorem startsWithFactor (n : Nat) : StartsWithFactor n := by
  induction n with
  | zero =>
    intro d ls hn h
    obtain rfl := List.eq_nil_of_length_eq_zero (Nat.le_zero.mp hn)
    cases h
  | succ n ih =>
    intro d ls hn h
    cases h with
    | @number _ x p ls h => exact ⟨.number x p, [_], ls, rfl, .number, rfl, h⟩
    | @minus _ p ls h =>
      obtain ⟨f, taken, rest, rfl, hf, hgf, hrest⟩ := ih d ls (by simpa using hn) h
      exact ⟨.negate f p, _ :: taken, rest, rfl, .negate hf, hgf, hrest⟩
    | @openParen _ p ls h =>
      have hshorter : ls.length ≤ n := by simpa using hn
      obtain ⟨f, taken, rest, rfl, hf, hgf, hrest⟩ := ih (d + 1) ls hshorter h
      rw [List.length_append] at hshorter
      obtain ⟨e, taken', rest', rfl, he, hge, hrest', hends⟩ :=
        exists_longest ih (by omega) hrest (hf.mono (by decide)) hgf
      rcases hends with rfl | ⟨q, more, rfl⟩
      · cases hrest'
      · cases hrest' with
        | closeParen hmore =>
          refine ⟨e, ⟨.openParen, p⟩ :: ((taken ++ taken') ++ [⟨.closeParen, q⟩]), more, by simp,
            .group he, hge, hmore⟩

/-- **Alternating lexemes are a written form** of a tree of numbers. -/
theorem reads_of_alternating {ls : List Lexeme} (h : Alternating true 0 ls) :
    ∃ e, Reads 1 e ls ∧ e.isGround = true := by
  obtain ⟨f, taken, rest, rfl, hf, hgf, hrest⟩ := startsWithFactor ls.length 0 ls (Nat.le_refl _) h
  obtain ⟨e, taken', rest', rfl, he, hge, hrest', hends⟩ :=
    exists_longest (startsWithFactor _) (Nat.le_refl _) hrest (hf.mono (by decide)) hgf
  rcases hends with rfl | ⟨p, more, rfl⟩
  · rw [List.append_nil]
    exact ⟨e, he, hge⟩
  · cases hrest'

end Expr

end Abacus
