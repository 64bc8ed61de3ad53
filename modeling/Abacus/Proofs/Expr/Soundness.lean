/-
# What the parser takes off is a written form of its tree

Every rule of the parser takes lexemes off the front of a list.  `Rule.Sound rule shape` says that
what it takes off has the shape of what it answers, and nothing else is lost.  The rules for lists
and operator chains take the rule of their parts as an argument, so their soundness is a step from
parts to wholes, and the recursion of the grammar is tied by one induction on the bound of `factor`.

What stands inside a call, a group or a negation is read by a factor that is one level deeper.  So
the steps are stated for one level of nesting, `ReadsOver inner`, with any shape for what is inside.
All written forms come of them with `inner = Reads`, and those that nest to a given depth with the
written forms that nest one level less.

The statements hold for every choice of limits: a limit can only turn a tree into an error.

Main statements:

* `sound_factor_succ`: a factor is sound if what it has inside is;
* `sound_factor`: factors are sound at every depth and bound;
* `reads_of_ofLexemes`: a list of lexemes that has a tree starts with a written form of that tree,
  and nothing but the end of input follows it.
-/
import Abacus.Proofs.Expr.Nesting
import Abacus.Proofs.Outcome

namespace Abacus
namespace Expr

/-- Whatever the rule answers, the lexemes that it took off have the shape of the answer. -/
def Rule.Sound {α : Type} (rule : Rule α) (shape : α → List Lexeme → Prop) : Prop :=
  ∀ ls x rest, rule ls = .ok (x, rest) → ∃ taken, ls = taken ++ rest ∧ shape x taken

theorem Rule.Sound.imp {α : Type} {rule : Rule α} {shape shape' : α → List Lexeme → Prop}
    (h : Rule.Sound rule shape) (himp : ∀ x ls, shape x ls → shape' x ls) :
    Rule.Sound rule shape' := by
  intro ls x rest hx
  obtain ⟨taken, hls, hshape⟩ := h _ _ _ hx
  exact ⟨taken, hls, himp x taken hshape⟩

/-! ## 1. Lists and literals -/

section Lists

variable {α : Type} {item : Rule α} {shape : α → List Lexeme → Prop} {closing : Token}
  {opener : Position}

/-- Items up to the closing token, and that token. -/
theorem sound_items (hitem : Rule.Sound item shape) (bound : Nat) :
    Rule.Sound (items item closing opener bound)
      (fun xs taken => ∃ ls p, taken = ls ++ [⟨closing, p⟩] ∧ Separated shape xs ls) := by
  induction bound with
  | zero => intro ls xs rest h; cases h
  | succ bound ih =>
    intro ls xs rest h
    unfold items at h
    split at h
    · cases h
    · cases h
    · next hnotNil hnotEnd =>
      clear hnotNil hnotEnd
      obtain ⟨⟨x, behind⟩, hx, hnext⟩ := bind_eq_ok h
      obtain ⟨taken, rfl, hshape⟩ := hitem _ _ _ hx
      dsimp only at hnext
      split at hnext
      · cases hnext
      · next token p behind =>
        split at hnext
        · next hcomma =>
          obtain ⟨⟨ys, behind'⟩, hys, hdone⟩ := bind_eq_ok hnext
          cases hdone
          obtain ⟨_, rfl, ls, q, rfl, hsep⟩ := ih _ _ _ hys
          refine ⟨(taken ++ ⟨.comma, p⟩ :: ls) ++ [⟨closing, q⟩], by simp [hcomma], _, q, rfl, ?_⟩
          exact .more hshape hsep
        · split at hnext
          · next hclosing =>
            cases hnext
            exact ⟨taken ++ [⟨closing, p⟩], by simp [hclosing], taken, p, rfl, .one hshape⟩
          · split at hnext <;> cases hnext

theorem sound_commaSeparated (hitem : Rule.Sound item shape) :
    Rule.Sound (commaSeparated item closing opener) (Listed shape closing) := by
  intro ls xs rest h
  unfold commaSeparated at h
  split at h
  · cases h
  · next token p behind =>
    split at h
    · next hclosing =>
      cases h
      exact ⟨[⟨closing, p⟩], by simp [hclosing], .empty⟩
    · obtain ⟨_, hls, ls', q, rfl, hsep⟩ := sound_items hitem _ _ _ _ h
      exact ⟨_, hls, .filled hsep⟩

/-- A list that does not close at once has items in it. -/
theorem sound_commaSeparated_of_ne (hitem : Rule.Sound item shape) {token : Token}
    (hne : token ≠ closing) {p : Position} {ls rest : List Lexeme} {xs : List α}
    (h : commaSeparated item closing opener (⟨token, p⟩ :: ls) = .ok (xs, rest)) :
    ∃ taken q, ⟨token, p⟩ :: ls = (taken ++ [⟨closing, q⟩]) ++ rest ∧ Separated shape xs taken := by
  unfold commaSeparated at h
  simp only [hne, if_false] at h
  obtain ⟨_, hls, taken, q, rfl, hsep⟩ := sound_items hitem _ _ _ _ h
  exact ⟨taken, q, hls, hsep⟩

end Lists

theorem sound_unsignedNumber :
    Rule.Sound unsignedNumber (fun x taken => ∃ p, taken = [⟨.number x, p⟩]) := by
  intro ls x rest h
  unfold unsignedNumber at h
  split at h
  · cases h
    exact ⟨_, rfl, _, rfl⟩
  · cases h
  · cases h

theorem sound_signedNumber : Rule.Sound signedNumber Signed := by
  intro ls x rest h
  unfold signedNumber at h
  split at h
  · obtain ⟨⟨y, behind⟩, hy, hnext⟩ := bind_eq_ok h
    cases hnext
    obtain ⟨_, rfl, p, rfl⟩ := sound_unsignedNumber _ _ _ hy
    exact ⟨_, rfl, .minus⟩
  · obtain ⟨_, rfl, p, rfl⟩ := sound_unsignedNumber _ _ _ h
    exact ⟨_, rfl, .plain⟩

theorem sound_row : Rule.Sound row Row := by
  intro ls xs rest h
  unfold row at h
  split at h
  · cases h
  · split at h
    · next hbracket =>
      obtain ⟨taken, rfl, hlist⟩ := sound_commaSeparated sound_signedNumber _ _ _ h
      exact ⟨_, by rw [hbracket]; rfl, .row hlist⟩
    · cases h

section Levels

-- What stands inside a call, a group or a negation.
variable {inner : Nat → Expr → List Lexeme → Prop}

theorem sound_bracketLiteral (k : Nat) (p : Position) :
    Rule.Sound (bracketLiteral p)
      (fun e taken => ReadsOver inner k e (⟨.openBracket, p⟩ :: taken)) := by
  intro ls e rest h
  unfold bracketLiteral at h
  split at h
  · obtain ⟨⟨rows, behind⟩, hrows, hnext⟩ := bind_eq_ok h
    cases hnext
    obtain ⟨taken, q, hls, hsep⟩ := sound_commaSeparated_of_ne sound_row (by decide) hrows
    exact ⟨_, hls, .matrix hsep⟩
  · obtain ⟨⟨xs, behind⟩, hxs, hnext⟩ := bind_eq_ok h
    cases hnext
    obtain ⟨taken, hls, hlist⟩ := sound_commaSeparated sound_signedNumber _ _ _ hxs
    exact ⟨_, hls, .vector hlist⟩

/-! ## 2. Operators -/

section Operators

variable {limits : Limits} {operand : Rule Expr}

/-- The loop over the operators of one level: what stands to the left grows by what it takes. -/
theorem reads_of_chainTail {level : Nat} (hoperand : Rule.Sound operand (ReadsOver inner (level + 1)))
    (bound : Nat) {left e : Expr} {done ls rest : List Lexeme} (hleft : ReadsOver inner level left done)
    (h : chainTail limits level operand bound left ls = .ok (e, rest)) :
    ∃ taken, ls = taken ++ rest ∧ ReadsOver inner level e (done ++ taken) := by
  induction bound generalizing left done ls with
  | zero =>
    cases h
    exact ⟨[], rfl, by simpa using hleft⟩
  | succ bound ih =>
    unfold chainTail at h
    dsimp only at h
    split at h
    · next op p behind =>
      split at h
      · next hlevel =>
        obtain ⟨⟨right, behind'⟩, hright, hnext⟩ := bind_eq_ok h
        obtain ⟨taken, rfl, hr⟩ := hoperand _ _ _ hright
        dsimp only at hnext
        split at hnext
        · subst hlevel
          obtain ⟨taken', rfl, he⟩ := ih (.binary (p := p) (Nat.le_refl _) hleft hr) hnext
          exact ⟨⟨.operator op, p⟩ :: (taken ++ taken'), by simp, by simpa using he⟩
        · cases hnext
      · cases h
        exact ⟨[], rfl, by simpa using hleft⟩
    · cases h
      exact ⟨[], rfl, by simpa using hleft⟩

theorem sound_chain {level : Nat} (hoperand : Rule.Sound operand (ReadsOver inner (level + 1))) :
    Rule.Sound (chain limits level operand) (ReadsOver inner level) := by
  intro ls e rest h
  obtain ⟨⟨left, behind⟩, hleft, hnext⟩ := bind_eq_ok h
  obtain ⟨taken, rfl, hl⟩ := hoperand _ _ _ hleft
  dsimp only at hnext
  split at hnext
  · obtain ⟨taken', rfl, he⟩ :=
      reads_of_chainTail hoperand _ (hl.mono (Nat.le_succ _)) hnext
    exact ⟨taken ++ taken', by simp, he⟩
  · cases hnext

theorem sound_expressionOf {factor : Rule Expr} (hfactor : Rule.Sound factor (ReadsOver inner 3)) :
    Rule.Sound (expressionOf limits factor) (ReadsOver inner 1) :=
  sound_chain (sound_chain hfactor)

end Operators

/-! ## 3. Primaries and factors -/

section Primaries

variable {expression : Rule Expr}

theorem sound_nameOrCall (hexpr : Rule.Sound expression (inner 1)) (text : Text) (p : Position) :
    Rule.Sound (nameOrCall expression text p)
      (fun e taken => ReadsOver inner 3 e (⟨.name text, p⟩ :: taken)) := by
  intro ls e rest h
  unfold nameOrCall at h
  split at h
  · obtain ⟨⟨es, behind⟩, hes, hnext⟩ := bind_eq_ok h
    cases hnext
    obtain ⟨taken, rfl, hlist⟩ := sound_commaSeparated hexpr _ _ _ hes
    exact ⟨_, rfl, .call hlist⟩
  · cases h
    exact ⟨[], rfl, .name⟩

theorem sound_group (hexpr : Rule.Sound expression (inner 1)) (p : Position) :
    Rule.Sound (group expression p) (fun e taken => ReadsOver inner 3 e (⟨.openParen, p⟩ :: taken)) := by
  intro ls e rest h
  obtain ⟨⟨e', behind⟩, he, hnext⟩ := bind_eq_ok h
  obtain ⟨taken, rfl, hreads⟩ := hexpr _ _ _ he
  dsimp only at hnext
  split at hnext
  · next q behind =>
    cases hnext
    exact ⟨taken ++ [⟨.closeParen, q⟩], by simp, .group hreads⟩
  · cases hnext

theorem sound_primary (hexpr : Rule.Sound expression (inner 1)) :
    Rule.Sound (primary expression) (ReadsOver inner 3) := by
  intro ls e rest h
  unfold primary at h
  split at h
  · cases h
  · next token p behind =>
    split at h
    · cases h
      exact ⟨_, rfl, .number⟩
    · obtain ⟨taken, rfl, hreads⟩ := sound_nameOrCall hexpr _ _ _ _ _ h
      exact ⟨_, rfl, hreads⟩
    · obtain ⟨taken, rfl, hreads⟩ := sound_group hexpr _ _ _ _ h
      exact ⟨_, rfl, hreads⟩
    · obtain ⟨taken, rfl, hreads⟩ := sound_bracketLiteral 3 _ _ _ _ h
      exact ⟨_, rfl, hreads⟩
    · cases h
    · cases h

end Primaries

/-- **A factor is sound** if the factors and expressions inside it are. -/
theorem sound_factor_succ {limits : Limits} {bound depth : Nat}
    (hfactor : Rule.Sound (factor limits bound (depth + 1)) (inner 3))
    (hexpr : Rule.Sound (expressionOf limits (factor limits bound (depth + 1))) (inner 1)) :
    Rule.Sound (factor limits (bound + 1) depth) (ReadsOver inner 3) := by
  intro ls e rest h
  unfold factor at h
  split at h
  · split at h
    · obtain ⟨⟨e', behind⟩, he, hnext⟩ := bind_eq_ok h
      cases hnext
      obtain ⟨taken, rfl, hreads⟩ := hfactor _ _ _ he
      exact ⟨_, rfl, .negate hreads⟩
    · exact sound_primary hexpr _ _ _ h
  · cases h

end Levels

/-! ## 4. All written forms -/

theorem sound_expressionOf_reads {limits : Limits} {factor : Rule Expr}
    (h : Rule.Sound factor (Reads 3)) : Rule.Sound (expressionOf limits factor) (Reads 1) :=
  (sound_expressionOf (h.imp (fun _ _ hreads => hreads.over))).imp (fun _ _ hover => hover.reads_self)

/-- **Factors are sound** at every depth and bound. -/
theorem sound_factor (limits : Limits) (bound depth : Nat) :
    Rule.Sound (factor limits bound depth) (Reads 3) := by
  induction bound generalizing depth with
  | zero => intro ls e rest h; cases h
  | succ bound ih =>
    have hover : Rule.Sound (factor limits (bound + 1) depth) (ReadsOver Reads 3) :=
      sound_factor_succ (ih _) (sound_expressionOf_reads (ih _))
    exact hover.imp (fun _ _ h => h.reads_self)

/-- What the parser accepts has the shape that its rule finds, and nothing but the end of input
follows it. -/
theorem exists_body_of_ofLexemes {limits : Limits} {ls : List Lexeme} {e : Expr}
    {shape : Expr → List Lexeme → Prop}
    (hsound : Rule.Sound (expressionOf limits (factor limits ls.length 0)) shape)
    (h : ofLexemes limits ls = .ok e) :
    ∃ body rest, ls = body ++ rest ∧ shape e body ∧
      (rest = [] ∨ ∃ p more, rest = ⟨.endOfInput, p⟩ :: more) := by
  obtain ⟨⟨e', rest⟩, he, hnext⟩ := bind_eq_ok h
  obtain ⟨body, hsplit, hshape⟩ := hsound _ _ _ he
  dsimp only at hnext
  split at hnext
  · cases hnext
    exact ⟨body, [], hsplit, hshape, Or.inl rfl⟩
  · next p more =>
    cases hnext
    exact ⟨body, _, hsplit, hshape, Or.inr ⟨p, more, rfl⟩⟩
  · cases hnext

/-- What the parser accepts starts with a written form of the tree, and nothing but the end of input
follows it. -/
theorem reads_of_ofLexemes {limits : Limits} {ls : List Lexeme} {e : Expr}
    (h : ofLexemes limits ls = .ok e) :
    ∃ body rest, ls = body ++ rest ∧ Reads 1 e body ∧
      (rest = [] ∨ ∃ p more, rest = ⟨.endOfInput, p⟩ :: more) :=
  exists_body_of_ofLexemes (sound_expressionOf_reads (sound_factor _ _ _)) h

end Expr
end Abacus
