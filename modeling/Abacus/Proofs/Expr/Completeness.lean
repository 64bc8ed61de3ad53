/-
# The parser finds every written form

Without limits, the parser answers a written form with its tree, whatever stands behind it, as long
as that does not go on with it (`Ends`).  Reading back a chain of operators needs more than that: a
chain is read by a loop that holds the tree so far, and its written form splits at the last operator.
So the induction does not say what the rule of a level answers.  It says that the rule answers what
its loop answers when it holds the tree in front of the rest (`GoesOn`), which for the left operand
of an operator is again a longer chain.

With limits, the outcome is the same or the error of a limit.  No other error and no other tree can
come of a limit, whatever the lexemes are.

Main statements:

* `found_of_readsWithin`: the induction on how deeply a written form nests;
* `ofLexemes_unlimited`: the parser without limits answers a written form with its tree;
* `orTooDeep_ofLexemes`: under limits, the outcome is that one or the error of a limit;
* `cuts_of_parse` and `orTooDeep_parse`: a text has a tree exactly if it can be cut into a written
  form of it, up to the limits.
-/
import Abacus.Proofs.Expr.Nesting
import Abacus.Proofs.Expr.Soundness
import Abacus.Proofs.Token.Cuts

namespace Abacus
namespace Expr

/-! ## 1. Lists and literals -/

section Lists

variable {α : Type} {item : Rule α} {shape : α → List Lexeme → Prop} {closing : Token}
  (opener : Position)

/-- The rule answers a construct with what it stands for, in front of a comma or the closing
token. -/
def Rule.Complete (rule : Rule α) (shape : α → List Lexeme → Prop) (closing : Token) : Prop :=
  ∀ x ls, shape x ls → ∀ token p rest, token = .comma ∨ token = closing →
    rule (ls ++ ⟨token, p⟩ :: rest) = .ok (x, ⟨token, p⟩ :: rest)

/-- A construct starts with a token that neither closes a list nor ends the input. -/
def Opens (shape : α → List Lexeme → Prop) (closing : Token) : Prop :=
  ∀ x ls, shape x ls → ∃ token p more,
    ls = ⟨token, p⟩ :: more ∧ token ≠ closing ∧ token ≠ .endOfInput

/-- An item and what may follow it. -/
theorem items_cons (hitem : Rule.Complete item shape closing) (hopens : Opens shape closing)
    {x : α} {ls : List Lexeme} (hx : shape x ls) (bound : Nat) {token : Token}
    (htoken : token = .comma ∨ token = closing) (p : Position) (rest : List Lexeme) :
    items item closing opener (bound + 1) (ls ++ ⟨token, p⟩ :: rest)
      = if token = .comma then
          (items item closing opener bound rest).map (fun (xs, rest) => (x :: xs, rest))
        else .ok ([x], rest) := by
  have hread := hitem x ls hx token p rest htoken
  obtain ⟨first, q, more, rfl, -, hend⟩ := hopens x ls hx
  rw [List.cons_append] at hread ⊢
  conv_lhs => unfold items
  split
  · next heq => cases heq
  · next heq =>
    cases heq
    exact absurd rfl hend
  · rw [hread, ok_bind]
    dsimp only
    split
    · cases items item closing opener bound rest <;> rfl
    · next hne =>
      have hclosing : token = closing := htoken.resolve_left hne
      rw [if_pos hclosing]

theorem complete_items (hitem : Rule.Complete item shape closing) (hopens : Opens shape closing)
    (hclosing : closing ≠ .comma) {xs : List α} {ls : List Lexeme} (h : Separated shape xs ls)
    {bound : Nat} (hbound : ls.length ≤ bound) (p : Position) (rest : List Lexeme) :
    items item closing opener bound (ls ++ ⟨closing, p⟩ :: rest) = .ok (xs, rest) := by
  induction h generalizing bound with
  | @one x ls hx =>
    obtain ⟨_, _, _, rfl, -, -⟩ := hopens x ls hx
    obtain ⟨bound, rfl⟩ : ∃ b, bound = b + 1 := ⟨bound - 1, by simp at hbound; omega⟩
    rw [items_cons opener hitem hopens hx bound (Or.inr rfl), if_neg hclosing]
  | @more x xs ls ls' q hx hxs ih =>
    rw [List.length_append, List.length_cons] at hbound
    obtain ⟨bound, rfl⟩ : ∃ b, bound = b + 1 := ⟨bound - 1, by omega⟩
    rw [List.append_assoc, List.cons_append, items_cons opener hitem hopens hx bound (Or.inl rfl),
      if_pos rfl, ih (by omega), map_ok]

theorem complete_commaSeparated (hitem : Rule.Complete item shape closing)
    (hopens : Opens shape closing) (hclosing : closing ≠ .comma) {xs : List α} {ls : List Lexeme}
    (h : Listed shape closing xs ls) (rest : List Lexeme) :
    commaSeparated item closing opener (ls ++ rest) = .ok (xs, rest) := by
  cases h with
  | empty =>
    unfold commaSeparated
    simp
  | @filled xs ls p h =>
    have hfirst : ∃ token q more, ls = ⟨token, q⟩ :: more ∧ token ≠ closing := by
      obtain ⟨x, _, rest, hx, rfl⟩ := h.exists_first
      obtain ⟨token, q, more, rfl, hne, -⟩ := hopens _ _ hx
      exact ⟨token, q, _, rfl, hne⟩
    have hbound : ls.length ≤ (ls ++ ⟨closing, p⟩ :: rest).length := by simp
    have hread := complete_items opener hitem hopens hclosing h hbound p rest
    obtain ⟨token, q, more, rfl, hne⟩ := hfirst
    rw [List.append_assoc]
    unfold commaSeparated
    rw [List.cons_append] at hread ⊢
    dsimp only
    rw [if_neg hne]
    exact hread

end Lists

theorem opens_signed : Opens Signed .closeBracket := by
  intro x ls h
  cases h
  · exact ⟨_, _, _, rfl, by simp, by simp⟩
  · exact ⟨_, _, _, rfl, by simp, by simp⟩

theorem complete_signedNumber (closing : Token) :
    Rule.Complete signedNumber Signed closing := by
  intro x ls h token p rest _
  cases h <;> rfl

theorem opens_row : Opens Row .closeBracket := by
  intro xs ls h
  cases h
  exact ⟨_, _, _, rfl, by simp, by simp⟩

theorem complete_row (closing : Token) : Rule.Complete row Row closing := by
  intro xs ls h token p rest _
  cases h with
  | row h =>
    exact complete_commaSeparated _ (complete_signedNumber _) opens_signed (by simp) h _

/-- A vector behind its opening bracket. -/
theorem bracketLiteral_vector {xs : List Binary64} {ls : List Lexeme}
    (h : Listed Signed .closeBracket xs ls) (p : Position) (rest : List Lexeme) :
    bracketLiteral p (ls ++ rest) = .ok (.vector xs p, rest) := by
  have hread := complete_commaSeparated p (complete_signedNumber _) opens_signed (by simp) h rest
  have hfirst : ∀ q more, ls ++ rest ≠ ⟨.openBracket, q⟩ :: more := by
    intro q more heq
    cases h with
    | empty => cases heq
    | filled h =>
      obtain ⟨x, _, rest, hx, rfl⟩ := h.exists_first
      cases hx <;> cases heq
  unfold bracketLiteral
  split
  · next q more heq => exact absurd heq (hfirst q more)
  · rw [hread, ok_bind]

/-- A matrix behind its opening bracket. -/
theorem bracketLiteral_matrix {rows : List (List Binary64)} {ls : List Lexeme}
    (h : Separated Row rows ls) (p q : Position) (rest : List Lexeme) :
    bracketLiteral p (ls ++ ⟨.closeBracket, q⟩ :: rest) = .ok (.matrix rows p, rest) := by
  have hlist : Listed Row .closeBracket rows (ls ++ [⟨.closeBracket, q⟩]) := .filled h
  have hread := complete_commaSeparated p (complete_row _) opens_row (by simp) hlist rest
  have hfirst : ∃ r more, ls = ⟨.openBracket, r⟩ :: more := by
    obtain ⟨xs, _, rest, hx, rfl⟩ := h.exists_first
    cases hx
    exact ⟨_, _, rfl⟩
  obtain ⟨r, more, rfl⟩ := hfirst
  rw [List.append_assoc, List.cons_append, List.cons_append, List.nil_append] at hread
  rw [List.cons_append]
  unfold bracketLiteral
  dsimp only
  rw [hread, ok_bind]

/-! ## 2. Levels -/

/-- The lexemes do not go on with an expression of the level `k` in front of them: they start
neither with a stronger operator nor with the parenthesis of arguments. -/
def Ends (k : Nat) (rest : List Lexeme) : Prop :=
  ∀ l ∈ rest.head?, l.item ≠ .openParen ∧ ∀ op, l.item = .operator op → op.precedence ≤ k

theorem Ends.mono {j k : Nat} {rest : List Lexeme} (hle : j ≤ k) (h : Ends j rest) :
    Ends k rest :=
  fun l hl => ⟨(h l hl).1, fun op hop => Nat.le_trans ((h l hl).2 op hop) hle⟩

theorem ends_cons {k : Nat} {token : Token} (hparen : token ≠ .openParen)
    (hoperator : ∀ op, token ≠ .operator op) (p : Position) (rest : List Lexeme) :
    Ends k (⟨token, p⟩ :: rest) := by
  intro l hl
  cases hl
  exact ⟨hparen, fun op hop => absurd hop (hoperator op)⟩

/-- The rule of a level, without limits. -/
def ruleAt (factor : Rule Expr) : Nat → Rule Expr
  | 1 => expressionOf .unlimited factor
  | 2 => chain .unlimited 2 factor
  | _ => factor

/-- With the tree in hand and the rest ahead, the loop of the level answers `res`.  There is no loop
at the level of factors. -/
def GoesOn (factor : Rule Expr) (k : Nat) (e : Expr) (rest : List Lexeme)
    (res : Except Error (Expr × List Lexeme)) : Prop :=
  if k < 3 then
    ∀ bound, rest.length ≤ bound →
      chainTail .unlimited k (ruleAt factor (k + 1)) bound e rest = res
  else .ok (e, rest) = res

section Levels

variable {factor : Rule Expr} {k : Nat} {e : Expr} {ls rest : List Lexeme}
  {res : Except Error (Expr × List Lexeme)}

/-- The loop of a level stops where no operator of the level follows. -/
theorem chainTail_of_ends (h : Ends k rest) (bound : Nat) (operand : Rule Expr) (e : Expr) :
    chainTail .unlimited (k + 1) operand bound e rest = .ok (e, rest) := by
  cases bound with
  | zero => rfl
  | succ bound =>
    unfold chainTail
    dsimp only
    split
    · next op p more =>
      have hle := (h _ rfl).2 op rfl
      rw [if_neg (by omega)]
    · rfl

theorem goesOn_of_ends (h : Ends k rest) : GoesOn factor (k + 1) e rest (.ok (e, rest)) := by
  unfold GoesOn
  split
  · intro bound _
    exact chainTail_of_ends h bound _ e
  · rfl

theorem ruleAt_eq_bind (hk : k = 1 ∨ k = 2) (ls : List Lexeme) :
    ruleAt factor k ls = ruleAt factor (k + 1) ls >>= fun found =>
      chainTail .unlimited k (ruleAt factor (k + 1)) found.2.length found.1 found.2 := by
  rcases hk with rfl | rfl <;> rfl

/-- The rule of a level reads an operand and runs its loop. -/
theorem ruleAt_of_operand (hk : k = 1 ∨ k = 2)
    (hread : ruleAt factor (k + 1) (ls ++ rest) = .ok (e, rest))
    (hon : GoesOn factor k e rest res) : ruleAt factor k (ls ++ rest) = res := by
  unfold GoesOn at hon
  rw [if_pos (by omega)] at hon
  rw [ruleAt_eq_bind hk, hread, ok_bind]
  exact hon _ (Nat.le_refl _)

/-- What is read at a level is read at the weaker ones. -/
theorem ruleAt_of_stronger {j : Nat} (hk : 1 ≤ k) (hkj : k ≤ j) (hj : j ≤ 3)
    (hread : ∀ res, GoesOn factor j e rest res → ruleAt factor j (ls ++ rest) = res)
    (hends : Ends k rest) (hon : GoesOn factor k e rest res) :
    ruleAt factor k (ls ++ rest) = res := by
  induction hkj using Nat.decreasingInduction generalizing res with
  | self => exact hread res hon
  | of_succ k hlt ih =>
    have hstronger := ih (by omega) (hends.mono (Nat.le_succ k)) (goesOn_of_ends hends)
    exact ruleAt_of_operand (by omega) hstronger hon

/-- An operator and its operands: the loop that holds the left operand goes on with the whole. -/
theorem ruleAt_binary {op : Operator} {l r : Expr} {ls rs : List Lexeme} {p : Position}
    (hends : Ends op.precedence rest)
    (hleft : ∀ res, GoesOn factor op.precedence l (⟨.operator op, p⟩ :: (rs ++ rest)) res →
      ruleAt factor op.precedence (ls ++ ⟨.operator op, p⟩ :: (rs ++ rest)) = res)
    (hright : ∀ res, GoesOn factor (op.precedence + 1) r rest res →
      ruleAt factor (op.precedence + 1) (rs ++ rest) = res)
    (hon : GoesOn factor op.precedence (.binary op l r p) rest res) :
    ruleAt factor op.precedence ((ls ++ ⟨.operator op, p⟩ :: rs) ++ rest) = res := by
  have hlt : op.precedence < 3 := by cases op <;> decide
  have hoperand := hright _ (goesOn_of_ends hends)
  rw [List.append_assoc, List.cons_append]
  refine hleft res ?_
  unfold GoesOn at hon ⊢
  rw [if_pos hlt] at hon ⊢
  intro bound hbound
  rw [List.length_cons, List.length_append] at hbound
  obtain ⟨bound, rfl⟩ : ∃ b, bound = b + 1 := ⟨bound - 1, by omega⟩
  unfold chainTail
  dsimp only
  rw [if_pos rfl, hoperand, ok_bind]
  dsimp only
  rw [if_pos (by rfl)]
  exact hon bound (by omega)

end Levels

/-! ## 3. Factors -/

/-- An expression starts with an operand or a minus sign. -/
theorem Reads.exists_first {k : Nat} {e : Expr} {ls : List Lexeme} (h : Reads k e ls) :
    ∃ token p more, ls = ⟨token, p⟩ :: more ∧
      (token.startsOperand = true ∨ token = .operator .sub) := by
  induction h using Reads.induction with
  | number k x p => exact ⟨_, _, _, rfl, Or.inl rfl⟩
  | name k text p => exact ⟨_, _, _, rfl, Or.inl rfl⟩
  | vector k xs ls p h => exact ⟨_, _, _, rfl, Or.inl rfl⟩
  | matrix k rows ls p q h => exact ⟨_, _, _, rfl, Or.inl rfl⟩
  | call k text es ls p q _ h => exact ⟨_, _, _, rfl, Or.inl rfl⟩
  | group k e ls p q h ih => exact ⟨_, _, _, rfl, Or.inl rfl⟩
  | negate k e ls p h ih => exact ⟨_, _, _, rfl, Or.inr rfl⟩
  | binary k op l r ls rs p hk hl hr ihl ihr =>
    obtain ⟨token, q, more, rfl, hstart⟩ := ihl
    exact ⟨token, q, _, rfl, hstart⟩

/-- An item of a list is no longer than the list. -/
theorem Separated.bounded {α : Type} {item : α → List Lexeme → Prop} {xs : List α}
    {ls : List Lexeme} (h : Separated item xs ls) {n : Nat} (hn : ls.length ≤ n) :
    Separated (fun x ls => item x ls ∧ ls.length ≤ n) xs ls := by
  induction h with
  | one hx => exact .one ⟨hx, hn⟩
  | more hx _ ih =>
    rw [List.length_append, List.length_cons] at hn
    exact .more ⟨hx, by omega⟩ (ih (by omega))

theorem Listed.bounded {α : Type} {item : α → List Lexeme → Prop} {closing : Token}
    {xs : List α} {ls : List Lexeme} (h : Listed item closing xs ls) {n : Nat}
    (hn : ls.length ≤ n) : Listed (fun x ls => item x ls ∧ ls.length ≤ n) closing xs ls := by
  cases h with
  | empty => exact .empty
  | filled h =>
    rw [List.length_append] at hn
    exact .filled (h.bounded (by omega))

/-- Without a limit on the height, operators are read as without limits. -/
theorem chainTail_heightless (most : Option Nat) (level : Nat) (operand : Rule Expr) (bound : Nat) :
    chainTail ⟨most, none⟩ level operand bound = chainTail .unlimited level operand bound := by
  induction bound with
  | zero => rfl
  | succ bound ih =>
    funext left ls
    unfold chainTail
    rw [ih]
    rfl

theorem expressionOf_heightless (most : Option Nat) (factor : Rule Expr) :
    expressionOf ⟨most, none⟩ factor = expressionOf .unlimited factor := by
  have hchain : ∀ level operand, chain ⟨most, none⟩ level operand
      = chain .unlimited level operand := by
    intro level operand
    unfold chain
    simp only [chainTail_heightless]
    rfl
  unfold expressionOf
  rw [hchain, hchain]

/-- Inside `depth` constructs and without a limit on the height, the rule of the level finds the
written form, in front of whatever does not go on with it. -/
def Found (most : Option Nat) (depth k : Nat) (e : Expr) (ls : List Lexeme) : Prop :=
  ∀ bound rest res, ls.length ≤ bound → Ends k rest →
    GoesOn (factor ⟨most, none⟩ bound depth) k e rest res →
      ruleAt (factor ⟨most, none⟩ bound depth) k (ls ++ rest) = res

/-- A factor that starts with no minus sign is a primary. -/
theorem factor_primary {limits : Limits} {depth : Nat} (hdepth : limits.allowsDepth depth = true)
    {token : Token} (htoken : token ≠ .operator .sub) (bound : Nat) (p : Position)
    (rest : List Lexeme) :
    factor limits (bound + 1) depth (⟨token, p⟩ :: rest)
      = primary (expressionOf limits (factor limits bound (depth + 1))) (⟨token, p⟩ :: rest) := by
  conv_lhs => unfold factor
  rw [if_pos hdepth]
  split
  · next heq =>
    cases heq
    exact absurd rfl htoken
  · rfl

section Found

variable {most : Option Nat} {depth : Nat}

/-- What the rule for factors finds is found at every level. -/
theorem found_of_factor {k : Nat} (hk : 1 ≤ k) (hk' : k ≤ 3) {e : Expr} {l : Lexeme}
    {ls : List Lexeme}
    (h : ∀ bound rest, ls.length ≤ bound → Ends 3 rest →
      factor ⟨most, none⟩ (bound + 1) depth (l :: ls ++ rest) = .ok (e, rest)) :
    Found most depth k e (l :: ls) := by
  intro bound rest res hbound hends hon
  rw [List.length_cons] at hbound
  obtain ⟨bound, rfl⟩ : ∃ b, bound = b + 1 := ⟨bound - 1, by omega⟩
  refine ruleAt_of_stronger hk hk' (Nat.le_refl 3) ?_ hends hon
  intro res hres
  unfold GoesOn at hres
  rw [if_neg (by decide)] at hres
  rw [← hres]
  exact h bound rest (by omega) (hends.mono hk')

/-- What the rule for primaries finds is found at every level. -/
theorem found_of_primary {k : Nat} (hk : 1 ≤ k) (hk' : k ≤ 3)
    (hdepth : Limits.allowsDepth ⟨most, none⟩ depth = true) {e : Expr} {token : Token}
    (htoken : token ≠ .operator .sub) {p : Position} {ls : List Lexeme}
    (h : ∀ bound rest, ls.length ≤ bound → Ends 3 rest →
      primary (expressionOf .unlimited (factor ⟨most, none⟩ bound (depth + 1)))
        (⟨token, p⟩ :: (ls ++ rest)) = .ok (e, rest)) :
    Found most depth k e (⟨token, p⟩ :: ls) := by
  refine found_of_factor hk hk' ?_
  intro bound rest hbound hends
  rw [List.cons_append, factor_primary hdepth htoken, expressionOf_heightless]
  exact h bound rest hbound hends

/-- What is found at the weakest level is found in front of any token that ends it. -/
theorem Found.read {e : Expr} {ls : List Lexeme} (h : Found most depth 1 e ls) {bound : Nat}
    (hbound : ls.length ≤ bound) {rest : List Lexeme} (hends : Ends 0 rest) :
    expressionOf .unlimited (factor ⟨most, none⟩ bound depth) (ls ++ rest) = .ok (e, rest) :=
  h bound rest _ hbound (hends.mono (Nat.zero_le 1)) (goesOn_of_ends hends)

/-- Arguments that are found are read up to the closing parenthesis. -/
theorem complete_arguments {shape : Expr → List Lexeme → Prop}
    (hshape : ∀ e ls, shape e ls → Reads 1 e ls ∧ Found most depth 1 e ls) {es : List Expr}
    {ls : List Lexeme} (h : Listed shape .closeParen es ls) {bound : Nat}
    (hbound : ls.length ≤ bound) (opener : Position) (rest : List Lexeme) :
    commaSeparated (expressionOf .unlimited (factor ⟨most, none⟩ bound depth)) .closeParen opener
      (ls ++ rest) = .ok (es, rest) := by
  refine complete_commaSeparated opener ?_ ?_ (by simp) (h.bounded hbound) rest
  · rintro e ls ⟨he, hlength⟩ token p more htoken
    refine (hshape e ls he).2.read hlength (ends_cons ?_ ?_ _ _)
    · rcases htoken with rfl | rfl <;> simp
    · rcases htoken with rfl | rfl <;> simp
  · rintro e ls ⟨he, -⟩
    obtain ⟨token, p, more, rfl, hstart⟩ := (hshape e ls he).1.exists_first
    refine ⟨token, p, more, rfl, ?_, ?_⟩ <;> rintro rfl <;> simp [Token.startsOperand] at hstart

/-- **A written form is found** if what it has inside one level of nesting is found one level
deeper. -/
theorem found_of_readsOver {inner : Nat → Expr → List Lexeme → Prop}
    (hreads : ∀ e ls, inner 1 e ls → Reads 1 e ls)
    (hinner : ∀ k e ls, inner k e ls → 1 ≤ k → k ≤ 3 → Found most (depth + 1) k e ls)
    (hdepth : Limits.allowsDepth ⟨most, none⟩ depth = true) {k : Nat} {e : Expr}
    {ls : List Lexeme} (h : ReadsOver inner k e ls) (hk : 1 ≤ k) (hk' : k ≤ 3) :
    Found most depth k e ls := by
  induction h with
  | number => exact found_of_primary hk hk' hdepth (by simp) (fun _ _ _ _ => rfl)
  | name =>
    refine found_of_primary hk hk' hdepth (by simp) ?_
    intro bound rest _ hends
    unfold primary nameOrCall
    dsimp only
    split
    · next heq =>
      rw [List.nil_append] at heq
      subst heq
      exact absurd rfl (hends _ rfl).1
    · rfl
  | @vector k xs ls p h =>
    refine found_of_primary hk hk' hdepth (by simp) ?_
    intro bound rest _ _
    exact bracketLiteral_vector h p rest
  | @matrix k rows ls p q h =>
    refine found_of_primary hk hk' hdepth (by simp) ?_
    intro bound rest _ _
    rw [List.append_assoc]
    exact bracketLiteral_matrix h p q rest
  | @call k text es ls p q h =>
    refine found_of_primary hk hk' hdepth (by simp) ?_
    intro bound rest hbound _
    rw [List.length_cons] at hbound
    have hargs := complete_arguments
      (fun e ls he => ⟨hreads e ls he, hinner 1 e ls he (Nat.le_refl 1) (by decide)⟩) h
      (Nat.le_of_succ_le hbound) q rest
    rw [List.cons_append]
    unfold primary nameOrCall
    dsimp only
    rw [hargs, ok_bind]
  | @group k e ls p q h =>
    refine found_of_primary hk hk' hdepth (by simp) ?_
    intro bound rest hbound _
    rw [List.length_append] at hbound
    have hends : Ends 0 (⟨.closeParen, q⟩ :: rest) := ends_cons (by simp) (by simp) _ _
    have hlength : ls.length ≤ bound := by omega
    have hread := (hinner 1 e ls h (Nat.le_refl 1) (by decide)).read hlength hends
    rw [List.append_assoc]
    unfold primary group
    dsimp only
    rw [List.singleton_append, hread, ok_bind]
  | @negate k e ls p h =>
    refine found_of_factor hk hk' ?_
    intro bound rest hbound hends
    have hread := hinner 3 e ls h (by decide) (Nat.le_refl 3) bound rest (.ok (e, rest)) hbound
      hends rfl
    change factor ⟨most, none⟩ bound (depth + 1) (ls ++ rest) = _ at hread
    rw [List.cons_append]
    unfold factor
    rw [if_pos hdepth]
    dsimp only
    rw [hread, ok_bind]
  | @binary k op l r ls rs p hop hl hr ihl ihr =>
    intro bound rest res hbound hends hon
    have hlt : op.precedence < 3 := by cases op <;> decide
    rw [List.length_append, List.length_cons] at hbound
    refine ruleAt_of_stronger hk hop (by omega) ?_ hends hon
    intro res hon
    refine ruleAt_binary (hends.mono hop) ?_ ?_ hon
    · intro res hres
      refine ihl (by omega) (by omega) bound _ res (by omega) ?_ hres
      intro l hl
      cases hl
      exact ⟨by simp, fun op' hop' => by cases hop'; exact Nat.le_refl _⟩
    · intro res hres
      exact ihr (by omega) (by omega) bound rest res (by omega)
        ((hends.mono hop).mono (Nat.le_succ _)) hres

/-- **Every written form is found**, by induction on how deeply it nests, if the limit on the depth
allows for all of it. -/
theorem found_of_readsWithin {n k : Nat} {e : Expr} {ls : List Lexeme} (h : ReadsWithin n k e ls)
    (hk : 1 ≤ k) (hk' : k ≤ 3)
    (hdepth : ∀ j, j ≤ n → Limits.allowsDepth ⟨most, none⟩ (depth + j) = true) :
    Found most depth k e ls := by
  induction n generalizing depth k e ls with
  | zero =>
    exact found_of_readsOver (fun _ _ hfalse => hfalse.elim) (fun _ _ _ hfalse => hfalse.elim)
      (hdepth 0 (Nat.le_refl 0)) h hk hk'
  | succ n ih =>
    refine found_of_readsOver (fun _ _ hinner => hinner.reads) ?_ (hdepth 0 (Nat.zero_le _)) h hk hk'
    intro k e ls hinner hk hk'
    refine ih hinner hk hk' ?_
    intro j hj
    rw [Nat.add_assoc, Nat.add_comm 1 j]
    exact hdepth (j + 1) (by omega)

end Found

/-! ## 4. Limits -/

/-- On all lexemes, the first rule answers as the second does or with the error of a limit. -/
def Rule.Within {α : Type} (limited unlimited : Rule α) : Prop :=
  ∀ ls, OrTooDeep (limited ls) (unlimited ls)

section Limits

variable {α : Type} {closing : Token} {opener : Position} {limits : Limits}

theorem within_items {item item' : Rule α} (h : Rule.Within item item') (bound : Nat) :
    Rule.Within (items item closing opener bound) (items item' closing opener bound) := by
  induction bound with
  | zero => exact fun _ => .refl _
  | succ bound ih =>
    intro ls
    unfold items
    split
    · exact .refl _
    · exact .refl _
    · refine (h ls).bind ?_
      rintro ⟨x, rest⟩
      dsimp only
      split
      · exact .refl _
      · split
        · exact (ih _).bind (fun _ => .refl _)
        · exact .refl _

theorem within_commaSeparated {item item' : Rule α} (h : Rule.Within item item') :
    Rule.Within (commaSeparated item closing opener) (commaSeparated item' closing opener) := by
  intro ls
  unfold commaSeparated
  split
  · exact within_items h _ _
  · split
    · exact .refl _
    · exact within_items h _ _

/-- A check of the height is passed or answered with the error of a limit. -/
theorem within_height {left : Expr} {p : Position} {x y : Except Error α} (h : OrTooDeep x y) :
    OrTooDeep (if limits.allowsHeight left.height then x else .error ⟨.nestingTooDeep, p⟩) y := by
  split
  · exact h
  · exact .error _ _

theorem within_chainTail {operand operand' : Rule Expr} (h : Rule.Within operand operand')
    (level bound : Nat) (left : Expr) :
    Rule.Within (chainTail limits level operand bound left)
      (chainTail .unlimited level operand' bound left) := by
  induction bound generalizing left with
  | zero => exact fun _ => .refl _
  | succ bound ih =>
    intro ls
    unfold chainTail
    dsimp only
    split
    · split
      · refine (h _).bind ?_
        rintro ⟨right, rest⟩
        exact within_height (ih _ rest)
      · exact .refl _
    · exact .refl _

theorem within_chain {operand operand' : Rule Expr} (h : Rule.Within operand operand')
    (level : Nat) :
    Rule.Within (chain limits level operand) (chain .unlimited level operand') := by
  intro ls
  refine (h ls).bind ?_
  rintro ⟨left, rest⟩
  exact within_height (within_chainTail h level rest.length left rest)

theorem within_expressionOf {factor factor' : Rule Expr} (h : Rule.Within factor factor') :
    Rule.Within (expressionOf limits factor) (expressionOf .unlimited factor') :=
  within_chain (within_chain h 2) 1

theorem within_primary {expression expression' : Rule Expr}
    (h : Rule.Within expression expression') :
    Rule.Within (primary expression) (primary expression') := by
  intro ls
  unfold primary
  split
  · exact .refl _
  · split
    · exact .refl _
    · unfold nameOrCall
      split
      · exact (within_commaSeparated h _).bind (fun _ => .refl _)
      · exact .refl _
    · exact (h _).bind (fun _ => .refl _)
    · exact .refl _
    · exact .refl _
    · exact .refl _

/-- **Limits only cut off.**  Under limits, a factor has the outcome that it has without them, or
the error of a limit. -/
theorem within_factor (limits : Limits) (bound depth : Nat) :
    Rule.Within (factor limits bound depth) (factor .unlimited bound depth) := by
  induction bound generalizing depth with
  | zero => exact fun _ => .refl _
  | succ bound ih =>
    intro ls
    unfold factor
    split
    · rw [if_pos (by rfl)]
      split
      · exact (ih _ _).bind (fun _ => .refl _)
      · exact within_primary (within_expressionOf (ih _)) _
    · exact .error _ _

end Limits

/-! ## 5. Whole lists of lexemes -/

/-- Without limits, the parser answers a written form with its tree. -/
theorem ofLexemes_unlimited {e : Expr} {body : List Lexeme} (h : Reads 1 e body) (p : Position) :
    ofLexemes .unlimited (body ++ [⟨.endOfInput, p⟩]) = .ok e := by
  have hbound : body.length ≤ (body ++ [(⟨.endOfInput, p⟩ : Lexeme)]).length := by simp
  have hends : Ends 0 [(⟨.endOfInput, p⟩ : Lexeme)] := ends_cons (by simp) (by simp) p []
  obtain ⟨n, hn⟩ := h.exists_within
  have hfound : Found none 0 1 e body :=
    found_of_readsWithin hn (Nat.le_refl 1) (by decide) (fun _ _ => rfl)
  have hread := hfound.read hbound hends
  change expressionOf .unlimited (factor .unlimited _ 0) _ = _ at hread
  unfold ofLexemes
  rw [hread, ok_bind]

/-- Under limits, the parser has the outcome that it has without them, or the error of a limit. -/
theorem orTooDeep_ofLexemes (limits : Limits) (ls : List Lexeme) :
    OrTooDeep (ofLexemes limits ls) (ofLexemes .unlimited ls) :=
  (within_expressionOf (within_factor limits _ _) ls).bind (fun _ => .refl _)

/-- A literal that is all of the text is within the limits of the language. -/
theorem ofLexemes_literal {e : Expr} {p q : Position} {ls : List Lexeme}
    (hread : bracketLiteral p (ls ++ [⟨.endOfInput, q⟩]) = .ok (e, [⟨.endOfInput, q⟩]))
    (hheight : e.height = 1) :
    ofLexemes .standard (⟨.openBracket, p⟩ :: (ls ++ [⟨.endOfInput, q⟩])) = .ok e := by
  have hallows : Limits.allowsHeight .standard e.height = true := by rw [hheight]; rfl
  have hchain : ∀ (k : Nat) (operand : Rule Expr) (all : List Lexeme),
      operand all = .ok (e, [⟨.endOfInput, q⟩]) →
        chain .standard k operand all = .ok (e, [⟨.endOfInput, q⟩]) := by
    intro k operand all h
    unfold chain
    rw [h, ok_bind]
    dsimp only
    rw [if_pos hallows]
    rfl
  have hfactor : ∀ bound, factor .standard (bound + 1) 0
      (⟨.openBracket, p⟩ :: (ls ++ [⟨.endOfInput, q⟩])) = .ok (e, [⟨.endOfInput, q⟩]) := by
    intro bound
    rw [factor_primary (by decide) (by simp)]
    exact hread
  unfold ofLexemes expressionOf
  rw [List.length_cons, hchain 1 _ _ (hchain 2 _ _ (hfactor _)), ok_bind]

/-! ## 6. Whole texts -/

/-- What the parser accepts can be cut into a written form of the shape that its rule finds. -/
theorem exists_cuts_of_ofLexemes {limits : Limits} {text : Text} {origin : Position}
    {lexemes : List Lexeme} {e : Expr} {shape : Expr → List Lexeme → Prop}
    (hlex : Token.lex origin text = .ok lexemes)
    (hsound : Rule.Sound (expressionOf limits (factor limits lexemes.length 0)) shape)
    (hshape : ∀ e ls, shape e ls → Reads 1 e ls) (h : ofLexemes limits lexemes = .ok e) :
    ∃ body q, lexemes = body ++ [⟨.endOfInput, q⟩] ∧ Token.Cuts origin text body q [] ∧
      shape e body := by
  obtain ⟨cut, q, rfl, hcuts⟩ := Token.cuts_of_lex hlex
  obtain ⟨body, rest, hsplit, hbody, hrest⟩ := exists_body_of_ofLexemes hsound h
  have hreads := hshape e body hbody
  rcases hrest with rfl | ⟨p, more, rfl⟩
  · refine absurd ?_ hreads.endOfInput_notMem
    rw [← List.append_nil body, ← hsplit]
    simp
  · rcases List.eq_nil_or_concat more with rfl | ⟨more, l, rfl⟩
    · obtain ⟨rfl, -⟩ := List.append_inj' hsplit rfl
      exact ⟨cut, q, rfl, hcuts, hbody⟩
    · refine absurd ?_ hcuts.endOfInput_notMem
      rw [List.concat_eq_append, ← List.cons_append, ← List.append_assoc] at hsplit
      obtain ⟨rfl, -⟩ := List.append_inj' hsplit rfl
      simp

/-- A text that has a tree can be cut into a written form of it. -/
theorem cuts_of_parse {text : Text} {origin : Position} {e : Expr}
    (h : parse text origin = .ok e) :
    ∃ body q, Token.Cuts origin text body q [] ∧ Reads 1 e body := by
  obtain ⟨lexemes, hlex, htree⟩ := bind_eq_ok h
  have hsound : Rule.Sound (expressionOf .standard (factor .standard lexemes.length 0)) (Reads 1) :=
    sound_expressionOf_reads (sound_factor _ _ _)
  obtain ⟨body, q, -, hcuts, hreads⟩ :=
    exists_cuts_of_ofLexemes hlex hsound (fun _ _ hreads => hreads) htree
  exact ⟨body, q, hcuts, hreads⟩

/-- A text that can be cut into a written form has its tree, or is beyond a limit. -/
theorem orTooDeep_parse {text : Text} {origin q : Position} {e : Expr} {body : List Lexeme}
    (hcuts : Token.Cuts origin text body q []) (h : Reads 1 e body) :
    OrTooDeep (parse text origin) (.ok e) := by
  unfold parse parseWithin
  rw [hcuts.lex_eq_ok, ok_bind, ← ofLexemes_unlimited h q]
  exact orTooDeep_ofLexemes _ _

end Expr
end Abacus
