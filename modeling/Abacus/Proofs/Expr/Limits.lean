/-
# When the limits do not cut a text off

The parser checks two limits: how many factors lie inside one another, and how tall a tree has grown.
Every tree that it builds on the way is a part of the tree that it answers, so the check of the
height can only fail if the answer itself is too tall (`Rule.Keeps`).  The depth is the one of the
written form (`ReadsWithin`).  Together they say when a written form is read in spite of the limits.

Main statements:

* `keeps_factor`: a factor that is not too tall is not lost to the limit on the height;
* `ofLexemes_of_within`: a written form that neither nests too deeply nor has too tall a tree is
  read.
-/
import Abacus.Proofs.Expr.Completeness

namespace Abacus

namespace Limits

/-- The same limit on the depth, and none on the height. -/
def heightless (limits : Limits) : Limits := ⟨limits.depth, none⟩

/-- What is not too tall is not too tall for a smaller height. -/
theorem allowsHeight_mono {limits : Limits} {low high : Nat} (hle : low ≤ high)
    (h : limits.allowsHeight high = true) : limits.allowsHeight low = true := by
  unfold allowsHeight at h ⊢
  cases hmost : limits.height with
  | none => rfl
  | some most =>
    rw [hmost, Option.all_some, decide_eq_true_eq] at h
    rw [Option.all_some, decide_eq_true_eq]
    exact Nat.le_trans hle h

end Limits

namespace Expr

variable {limits : Limits}

/-- Where `free` answers something that is not too tall, `checked` gives the same answer. -/
def Rule.Keeps {α : Type} (limits : Limits) (size : α → Nat) (checked free : Rule α) : Prop :=
  ∀ ls x rest, free ls = .ok (x, rest) → limits.allowsHeight (size x) = true →
    checked ls = .ok (x, rest)

/-! ## 1. Lists -/

section Lists

variable {item item' : Rule Expr} {closing : Token} {opener : Position}

theorem keeps_items (hitem : Rule.Keeps limits height item item') (bound : Nat) :
    Rule.Keeps limits heights (items item closing opener bound)
      (items item' closing opener bound) := by
  induction bound with
  | zero => intro ls xs rest h _; cases h
  | succ bound ih =>
    intro ls xs rest h hheights
    unfold items at h ⊢
    split at h
    · cases h
    · cases h
    · obtain ⟨⟨x, behind⟩, hx, hnext⟩ := bind_eq_ok h
      dsimp only at hnext ⊢
      split at hnext
      · cases hnext
      · next token p behind =>
        split at hnext
        · next hcomma =>
          obtain ⟨⟨ys, behind'⟩, hys, hdone⟩ := bind_eq_ok hnext
          cases hdone
          have hfirst := hitem _ _ _ hx (Limits.allowsHeight_mono (Nat.le_max_left _ _) hheights)
          have hmore := ih _ _ _ hys (Limits.allowsHeight_mono (Nat.le_max_right _ _) hheights)
          rw [hfirst, ok_bind]
          dsimp only
          rw [if_pos hcomma, hmore, ok_bind]
        · split at hnext
          · next hcomma hclosing =>
            cases hnext
            have hfirst := hitem _ _ _ hx (Limits.allowsHeight_mono (Nat.le_max_left _ _) hheights)
            rw [hfirst, ok_bind]
            dsimp only
            rw [if_neg hcomma, if_pos hclosing]
          · split at hnext <;> cases hnext

theorem keeps_commaSeparated (hitem : Rule.Keeps limits height item item') :
    Rule.Keeps limits heights (commaSeparated item closing opener)
      (commaSeparated item' closing opener) := by
  intro ls xs rest h hheights
  unfold commaSeparated at h ⊢
  split at h
  · exact keeps_items hitem _ _ _ _ h hheights
  · split at h
    · next hclosing =>
      cases h
      exact if_pos hclosing
    · next hclosing =>
      rw [if_neg hclosing]
      exact keeps_items hitem _ _ _ _ h hheights

end Lists

/-! ## 2. Operators -/

section Operators

variable {operand operand' : Rule Expr} {level : Nat}

/-- The loop over the operators of one level only builds on top of the tree that it holds. -/
theorem height_le_of_chainTail (bound : Nat) {left e : Expr} {ls rest : List Lexeme}
    (h : chainTail limits level operand bound left ls = .ok (e, rest)) :
    left.height ≤ e.height := by
  induction bound generalizing left ls with
  | zero =>
    cases h
    exact Nat.le_refl _
  | succ bound ih =>
    unfold chainTail at h
    dsimp only at h
    split at h
    · next op p behind =>
      split at h
      · obtain ⟨⟨right, behind'⟩, -, hnext⟩ := bind_eq_ok h
        dsimp only at hnext
        split at hnext
        · have hnode : left.height ≤ (Expr.binary op left right p).height := by
            rw [height]
            omega
          exact Nat.le_trans hnode (ih hnext)
        · cases hnext
      · cases h
        exact Nat.le_refl _
    · cases h
      exact Nat.le_refl _

theorem keeps_chainTail (hoperand : Rule.Keeps limits height operand operand') (bound : Nat)
    (left : Expr) : Rule.Keeps limits height (chainTail limits level operand bound left)
      (chainTail limits.heightless level operand' bound left) := by
  induction bound generalizing left with
  | zero => exact fun _ _ _ h _ => h
  | succ bound ih =>
    intro ls e rest h hheight
    unfold chainTail at h ⊢
    dsimp only at h ⊢
    split at h
    · next op p behind =>
      split at h
      · next hlevel =>
        obtain ⟨⟨right, behind'⟩, hright, hnext⟩ := bind_eq_ok h
        replace hnext : chainTail limits.heightless level operand' bound
          (.binary op left right p) behind' = .ok (e, rest) := hnext
        have hnode : limits.allowsHeight (Expr.binary op left right p).height = true :=
          Limits.allowsHeight_mono (height_le_of_chainTail bound hnext) hheight
        have hsmall : limits.allowsHeight right.height = true := by
          refine Limits.allowsHeight_mono ?_ hnode
          rw [height]
          omega
        rw [if_pos hlevel, hoperand _ _ _ hright hsmall, ok_bind]
        dsimp only
        rw [if_pos hnode]
        exact ih _ _ _ _ hnext hheight
      · next hlevel =>
        cases h
        exact if_neg hlevel
    · cases h
      rfl

theorem keeps_chain (hoperand : Rule.Keeps limits height operand operand') :
    Rule.Keeps limits height (chain limits level operand)
      (chain limits.heightless level operand') := by
  intro ls e rest h hheight
  obtain ⟨⟨left, behind⟩, hleft, hnext⟩ := bind_eq_ok h
  replace hnext : chainTail limits.heightless level operand' behind.length left behind
    = .ok (e, rest) := hnext
  have hsmall : limits.allowsHeight left.height = true :=
    Limits.allowsHeight_mono (height_le_of_chainTail _ hnext) hheight
  unfold chain
  rw [hoperand _ _ _ hleft hsmall, ok_bind]
  dsimp only
  rw [if_pos hsmall]
  exact keeps_chainTail hoperand _ _ _ _ _ hnext hheight

theorem keeps_expressionOf {factor factor' : Rule Expr}
    (hfactor : Rule.Keeps limits height factor factor') :
    Rule.Keeps limits height (expressionOf limits factor)
      (expressionOf limits.heightless factor') :=
  keeps_chain (keeps_chain hfactor)

end Operators

/-! ## 3. Primaries and factors -/

theorem keeps_primary {expression expression' : Rule Expr}
    (hexpr : Rule.Keeps limits height expression expression') :
    Rule.Keeps limits height (primary expression) (primary expression') := by
  intro ls e rest h hheight
  unfold primary at h ⊢
  split at h
  · cases h
  · split at h
    · exact h
    · unfold nameOrCall at h ⊢
      split at h
      · obtain ⟨⟨es, behind⟩, hes, hnext⟩ := bind_eq_ok h
        cases hnext
        have hsmall : limits.allowsHeight (heights es) = true := by
          refine Limits.allowsHeight_mono ?_ hheight
          rw [height]
          omega
        dsimp only
        rw [keeps_commaSeparated hexpr _ _ _ hes hsmall, ok_bind]
      · exact h
    · obtain ⟨⟨inner, behind⟩, hinner, hnext⟩ := bind_eq_ok h
      dsimp only at hnext
      split at hnext
      · cases hnext
        unfold group
        dsimp only
        rw [hexpr _ _ _ hinner hheight, ok_bind]
      · cases hnext
    · exact h
    · exact h
    · exact h

/-- **A factor that is not too tall** is not lost to the limit on the height. -/
theorem keeps_factor (limits : Limits) (bound depth : Nat) :
    Rule.Keeps limits height (factor limits bound depth)
      (factor limits.heightless bound depth) := by
  induction bound generalizing depth with
  | zero => exact fun _ _ _ h _ => h
  | succ bound ih =>
    intro ls e rest h hheight
    unfold factor at h ⊢
    split at h
    · next hdepth =>
      replace hdepth : limits.allowsDepth depth = true := hdepth
      rw [if_pos hdepth]
      split at h
      · obtain ⟨⟨inner, behind⟩, hinner, hnext⟩ := bind_eq_ok h
        cases hnext
        have hsmall : limits.allowsHeight inner.height = true := by
          refine Limits.allowsHeight_mono ?_ hheight
          rw [height]
          omega
        dsimp only
        rw [ih _ _ _ _ hinner hsmall, ok_bind]
      · exact keeps_primary (keeps_expressionOf (ih _)) _ _ _ h hheight
    · cases h

/-! ## 4. Whole lists of lexemes -/

/-- **A written form is read in spite of the limits** if it nests to an allowed depth and its tree
has an allowed height. -/
theorem ofLexemes_of_within {n : Nat} {e : Expr} {body : List Lexeme} (h : ReadsWithin n 1 e body)
    (hdepth : ∀ j, j ≤ n → limits.allowsDepth j = true)
    (hheight : limits.allowsHeight e.height = true) (p : Position) :
    ofLexemes limits (body ++ [⟨.endOfInput, p⟩]) = .ok e := by
  have hbound : body.length ≤ (body ++ [(⟨.endOfInput, p⟩ : Lexeme)]).length := by simp
  have hends : Ends 0 [(⟨.endOfInput, p⟩ : Lexeme)] := ends_cons (by simp) (by simp) p []
  have hfound : Found limits.depth 0 1 e body := by
    refine found_of_readsWithin h (Nat.le_refl 1) (by decide) ?_
    intro j hj
    rw [Nat.zero_add]
    exact hdepth j hj
  have hread := hfound.read hbound hends
  rw [← expressionOf_heightless limits.depth] at hread
  have hkept := keeps_expressionOf (keeps_factor limits _ 0) _ _ _ hread hheight
  unfold ofLexemes
  rw [hkept, ok_bind]

end Expr
end Abacus
