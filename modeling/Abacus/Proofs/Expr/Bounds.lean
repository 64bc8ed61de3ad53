/-
# The bounds of the recursive rules

The rules that recurse count down a bound that starts at the number of lexemes.  It is no third limit:
every round takes a lexeme, so as long as the bound is not below the number of lexemes, more of it makes
no difference, and where it is zero no lexeme is left.  Two rules agree up to a length if they answer
alike on lists of that length or less.  A rule that takes the rule of its parts as an argument agrees with
itself on parts that agree, and what the parts leave is not longer than what they got.  The recursion of
the grammar goes behind at least one lexeme, which is what the bound of `factor` counts.

Without a limit on the depth the grammar is therefore the recursion that it says, on every list of lexemes
(`nestedFactor`).

Main statements:

* `items_agree` and `chainTail_agree`: the loops over items and operators;
* `factor_agree`: factors;
* `nestedFactor_negate` and `nestedFactor_primary`: the recursion of the grammar without a bound;
* `expressionOf_eq_nested`: the parser without a limit on the depth reads by it.
-/
import Abacus.Proofs.Expr.Soundness

namespace Abacus

/-- A sequence depends on its second step only at what the first one answers. -/
theorem bind_congr_of_ok {ε α β : Type} {x : Except ε α} {f g : α → Except ε β}
    (h : ∀ a, x = .ok a → f a = g a) : (x >>= f) = (x >>= g) := by
  cases x with
  | error e => rfl
  | ok a => exact h a rfl

namespace Expr

/-- The rules answer alike on lists of at most `n` lexemes. -/
def Rule.AgreeUpTo {α : Type} (n : Nat) (rule rule' : Rule α) : Prop :=
  ∀ ls : List Lexeme, ls.length ≤ n → rule ls = rule' ls

/-- What the rule leaves is not longer than what it got. -/
def Rule.Shrinks {α : Type} (rule : Rule α) : Prop :=
  ∀ ls x rest, rule ls = .ok (x, rest) → rest.length ≤ ls.length

theorem Rule.Sound.shrinks {α : Type} {rule : Rule α} {shape : α → List Lexeme → Prop}
    (h : Rule.Sound rule shape) : Rule.Shrinks rule := by
  intro ls x rest hx
  obtain ⟨taken, rfl, -⟩ := h ls x rest hx
  rw [List.length_append]
  exact Nat.le_add_left _ _

variable {n : Nat}

/-! ## 1. Lists -/

section Lists

variable {α : Type} {item item' : Rule α} {closing : Token} {opener : Position}

/-- Items up to the closing token: the bound counts the items, and each has a comma behind it. -/
theorem items_agree (hitem : Rule.AgreeUpTo n item item') (hshrinks : Rule.Shrinks item)
    {bound bound' : Nat} {ls : List Lexeme} (hn : ls.length ≤ n) (hb : ls.length ≤ bound)
    (hb' : ls.length ≤ bound') :
    items item closing opener bound ls = items item' closing opener bound' ls := by
  induction bound generalizing bound' ls with
  | zero =>
    obtain rfl : ls = [] := List.length_eq_zero_iff.mp (Nat.le_zero.mp hb)
    cases bound' <;> rfl
  | succ bound ih =>
    cases bound' with
    | zero =>
      obtain rfl : ls = [] := List.length_eq_zero_iff.mp (Nat.le_zero.mp hb')
      rfl
    | succ bound' =>
      unfold items
      split
      · rfl
      · rfl
      · rw [← hitem ls hn]
        refine bind_congr_of_ok ?_
        rintro ⟨x, behind⟩ hx
        have hbehind := hshrinks _ _ _ hx
        dsimp only
        split
        · rfl
        · next token p rest =>
          rw [List.length_cons] at hbehind
          split
          · have hmore : items item closing opener bound rest = items item' closing opener bound' rest :=
              ih (by omega) (by omega) (by omega)
            rw [hmore]
          · rfl

theorem commaSeparated_agree (hitem : Rule.AgreeUpTo n item item') (hshrinks : Rule.Shrinks item) :
    Rule.AgreeUpTo n (commaSeparated item closing opener) (commaSeparated item' closing opener) := by
  intro ls hn
  unfold commaSeparated
  split
  · rfl
  · split
    · rfl
    · exact items_agree hitem hshrinks hn (Nat.le_refl _) (Nat.le_refl _)

end Lists

/-! ## 2. Operators -/

section Operators

variable {limits : Limits} {level : Nat} {operand operand' : Rule Expr}

/-- The loop over the operators of one level: the bound counts the operators. -/
theorem chainTail_agree (hoperand : Rule.AgreeUpTo n operand operand') (hshrinks : Rule.Shrinks operand)
    {bound bound' : Nat} {ls : List Lexeme} (hn : ls.length ≤ n) (hb : ls.length ≤ bound)
    (hb' : ls.length ≤ bound') (left : Expr) :
    chainTail limits level operand bound left ls = chainTail limits level operand' bound' left ls := by
  induction bound generalizing bound' ls left with
  | zero =>
    obtain rfl : ls = [] := List.length_eq_zero_iff.mp (Nat.le_zero.mp hb)
    cases bound' <;> rfl
  | succ bound ih =>
    cases bound' with
    | zero =>
      obtain rfl : ls = [] := List.length_eq_zero_iff.mp (Nat.le_zero.mp hb')
      rfl
    | succ bound' =>
      unfold chainTail
      dsimp only
      split
      · next op p rest =>
        rw [List.length_cons] at hn hb hb'
        split
        · rw [← hoperand rest (by omega)]
          refine bind_congr_of_ok ?_
          rintro ⟨right, behind⟩ hright
          have hbehind := hshrinks _ _ _ hright
          dsimp only
          have hmore : ∀ node, chainTail limits level operand bound node behind
              = chainTail limits level operand' bound' node behind :=
            ih (by omega) (by omega) (by omega)
          rw [hmore]
        · rfl
      · rfl

theorem chain_agree (hoperand : Rule.AgreeUpTo n operand operand') (hshrinks : Rule.Shrinks operand) :
    Rule.AgreeUpTo n (chain limits level operand) (chain limits level operand') := by
  intro ls hn
  unfold chain
  rw [← hoperand ls hn]
  refine bind_congr_of_ok ?_
  rintro ⟨left, rest⟩ hleft
  have hrest := hshrinks _ _ _ hleft
  dsimp only
  rw [chainTail_agree hoperand hshrinks (by omega) (Nat.le_refl _) (Nat.le_refl _)]

theorem expressionOf_agree {factor factor' : Rule Expr} (hfactor : Rule.AgreeUpTo n factor factor')
    (hsound : Rule.Sound factor (Reads 3)) :
    Rule.AgreeUpTo n (expressionOf limits factor) (expressionOf limits factor') := by
  have hover : Rule.Sound factor (ReadsOver Reads 3) := hsound.imp (fun _ _ h => h.over)
  have hterm : Rule.Sound (chain limits 2 factor) (ReadsOver Reads 2) := sound_chain hover
  exact chain_agree (chain_agree hfactor hsound.shrinks) hterm.shrinks

end Operators

/-! ## 3. Primaries and factors -/

/-- Behind the first lexeme of a primary, expressions are read. -/
theorem primary_agree {expression expression' : Rule Expr}
    (hexpr : Rule.AgreeUpTo n expression expression') (hshrinks : Rule.Shrinks expression) :
    Rule.AgreeUpTo (n + 1) (primary expression) (primary expression') := by
  intro ls hn
  unfold primary
  split
  · rfl
  · next token p rest =>
    rw [List.length_cons] at hn
    split
    · rfl
    · unfold nameOrCall
      split
      · next q rest =>
        rw [List.length_cons] at hn
        rw [commaSeparated_agree hexpr hshrinks rest (by omega)]
      · rfl
    · unfold group
      rw [hexpr rest (by omega)]
    · rfl
    · rfl
    · rfl

/-- **The bound of a factor makes no difference** as long as it is not below the number of lexemes, and
without a limit on the depth neither does the depth. -/
theorem factor_agree {limits : Limits} (hdepth : ∀ d, limits.allowsDepth d = true) {bound bound' : Nat}
    (depth depth' : Nat) {ls : List Lexeme} (hb : ls.length ≤ bound) (hb' : ls.length ≤ bound') :
    factor limits bound depth ls = factor limits bound' depth' ls := by
  have hnil : ∀ bound depth, factor limits bound depth [] = .error ⟨.unexpectedEndOfInput, .unknown⟩ := by
    intro bound depth
    cases bound with
    | zero => rfl
    | succ bound =>
      unfold factor
      rw [if_pos (hdepth depth)]
      rfl
  induction bound generalizing bound' depth depth' ls with
  | zero =>
    obtain rfl : ls = [] := List.length_eq_zero_iff.mp (Nat.le_zero.mp hb)
    rw [hnil, hnil]
  | succ bound ih =>
    cases bound' with
    | zero =>
      obtain rfl : ls = [] := List.length_eq_zero_iff.mp (Nat.le_zero.mp hb')
      rw [hnil, hnil]
    | succ bound' =>
      unfold factor
      rw [if_pos (hdepth depth), if_pos (hdepth depth')]
      split
      · next p rest =>
        rw [List.length_cons] at hb hb'
        have hinside : factor limits bound (depth + 1) rest = factor limits bound' (depth' + 1) rest :=
          ih _ _ (by omega) (by omega)
        rw [hinside]
      · have hinside : Rule.AgreeUpTo (ls.length - 1) (factor limits bound (depth + 1))
            (factor limits bound' (depth' + 1)) := by
          intro ls' hls'
          exact ih _ _ (by omega) (by omega)
        have hsound : Rule.Sound (factor limits bound (depth + 1)) (Reads 3) := sound_factor _ _ _
        have hexpr : Rule.AgreeUpTo (ls.length - 1) (expressionOf limits (factor limits bound (depth + 1)))
            (expressionOf limits (factor limits bound' (depth' + 1))) :=
          expressionOf_agree hinside hsound
        exact primary_agree hexpr (sound_expressionOf_reads hsound).shrinks ls (by omega)

/-! ## 4. The grammar without bounds -/

/-- A factor with as many rounds as there are lexemes. -/
def nestedFactor (limits : Limits) : Rule Expr := fun ls => factor limits ls.length 0 ls

section Nested

variable {limits : Limits} (hdepth : ∀ d, limits.allowsDepth d = true)

include hdepth

theorem factor_eq_nestedFactor {bound : Nat} (depth : Nat) {ls : List Lexeme} (hb : ls.length ≤ bound) :
    factor limits bound depth ls = nestedFactor limits ls :=
  factor_agree hdepth depth 0 hb (Nat.le_refl _)

/-- **Without a limit on the depth, the grammar is a recursion without a bound**: behind a minus sign there
is a factor again. -/
theorem nestedFactor_negate (p : Position) (rest : List Lexeme) :
    nestedFactor limits (⟨.operator .sub, p⟩ :: rest)
      = (nestedFactor limits rest).map fun found => (.negate found.1 p, found.2) := by
  have hbound : (⟨.operator .sub, p⟩ :: rest : List Lexeme).length ≤ rest.length + 1 := Nat.le_refl _
  rw [← factor_eq_nestedFactor hdepth 0 hbound]
  unfold factor
  rw [if_pos (hdepth 0)]
  dsimp only
  rw [factor_eq_nestedFactor hdepth _ (Nat.le_refl _)]
  cases nestedFactor limits rest <;> rfl

/-- Everything else is a primary, with expressions of such factors in it. -/
theorem nestedFactor_primary {ls : List Lexeme} (hls : ∀ p rest, ls ≠ ⟨.operator .sub, p⟩ :: rest) :
    nestedFactor limits ls = primary (expressionOf limits (nestedFactor limits)) ls := by
  have hsound : Rule.Sound (factor limits ls.length (0 + 1)) (Reads 3) := sound_factor _ _ _
  have hexpr : Rule.AgreeUpTo ls.length (expressionOf limits (factor limits ls.length (0 + 1)))
      (expressionOf limits (nestedFactor limits)) :=
    expressionOf_agree (fun _ hb => factor_eq_nestedFactor hdepth _ hb) hsound
  rw [← factor_eq_nestedFactor hdepth 0 (Nat.le_succ ls.length)]
  unfold factor
  rw [if_pos (hdepth 0)]
  split
  · next p rest => exact absurd rfl (hls p rest)
  · exact primary_agree hexpr (sound_expressionOf_reads hsound).shrinks ls (Nat.le_succ _)

/-- The parser reads its expression by this recursion. -/
theorem expressionOf_eq_nested (ls : List Lexeme) :
    expressionOf limits (factor limits ls.length 0) ls = expressionOf limits (nestedFactor limits) ls :=
  expressionOf_agree (fun _ hb => factor_eq_nestedFactor hdepth 0 hb) (sound_factor _ _ _) ls
    (Nat.le_refl _)

end Nested

end Expr
end Abacus
