/-
# What the limits of the parser keep out

The depth is checked where a factor begins and the height where operators are joined, so a call, a
group or a negation can be taller than the limit for a moment.  No such tree is answered: every
expression is a chain, perhaps of one operand, and a chain checks what it answers.  And no tree is lost
that could have been answered, because all that is checked on the way is a part of the answer.

The depth of a factor is counted by the recursion, the number of constructs that it lies inside is a
matter of the text.  The two agree: a rule that starts `n` levels above the first refused depth answers
only what nests to `n` (`sound_factor_within`), and how a written form nests can be told from the depths
of its factors (`readsWithin_iff`).

What the limits are compared with is the parser without them.  The bounds that its recursion counts down
are no limit of their own, see `nestedFactor`.

Main statements:

* `allowsHeight_of_ofLexemes`: no tree that is answered is too tall;
* `parseWithin_eq_ok_iff`: which trees are answered under a limit;
* `limits_exact`: under the limits of the language, a text is answered as without them or it is too
  tall or nests too deeply, and then the error says so.
-/
import Abacus.Proofs.Expr.Enclosures
import Abacus.Proofs.Expr.Limits

namespace Abacus
namespace Expr

variable {limits : Limits}

/-! ## 1. The height -/

section Height

variable {level : Nat} {operand : Rule Expr} {ls rest : List Lexeme} {left e : Expr}

theorem allowsHeight_of_chainTail (bound : Nat) (hleft : limits.allowsHeight left.height = true)
    (h : chainTail limits level operand bound left ls = .ok (e, rest)) :
    limits.allowsHeight e.height = true := by
  induction bound generalizing left ls with
  | zero =>
    cases h
    exact hleft
  | succ bound ih =>
    unfold chainTail at h
    dsimp only at h
    split at h
    · split at h
      · obtain ⟨⟨right, behind⟩, -, hnext⟩ := bind_eq_ok h
        dsimp only at hnext
        split at hnext
        · next hnode => exact ih hnode hnext
        · cases hnext
      · cases h
        exact hleft
    · cases h
      exact hleft

/-- **A chain checks what it answers**, whatever its operands are. -/
theorem allowsHeight_of_chain (h : chain limits level operand ls = .ok (e, rest)) :
    limits.allowsHeight e.height = true := by
  obtain ⟨⟨left, behind⟩, -, hnext⟩ := bind_eq_ok h
  dsimp only at hnext
  split at hnext
  · next hleft => exact allowsHeight_of_chainTail _ hleft hnext
  · cases hnext

/-- No tree that is answered is too tall. -/
theorem allowsHeight_of_ofLexemes (h : ofLexemes limits ls = .ok e) :
    limits.allowsHeight e.height = true := by
  obtain ⟨⟨e', rest⟩, he, hnext⟩ := bind_eq_ok h
  have hheight : limits.allowsHeight e'.height = true := allowsHeight_of_chain he
  dsimp only at hnext
  split at hnext
  · cases hnext
    exact hheight
  · cases hnext
    exact hheight
  · cases hnext

end Height

/-! ## 2. The depth -/

section Depth

/-- The rule does not answer anything. -/
def Rule.Refuses {α : Type} (rule : Rule α) : Prop := Rule.Sound rule (fun _ _ => False)

theorem refuses_factor {depth : Nat} (hdepth : limits.allowsDepth depth = false) (bound : Nat) :
    Rule.Refuses (factor limits bound depth) := by
  intro ls e rest h
  cases bound with
  | zero => cases h
  | succ bound =>
    unfold factor at h
    rw [hdepth] at h
    cases h

theorem refuses_chain {operand : Rule Expr} (hoperand : Rule.Refuses operand) (level : Nat) :
    Rule.Refuses (chain limits level operand) := by
  intro ls e rest h
  obtain ⟨⟨left, behind⟩, hleft, -⟩ := bind_eq_ok h
  obtain ⟨-, -, hfalse⟩ := hoperand _ _ _ hleft
  exact hfalse.elim

theorem sound_expressionOf_within {factor : Rule Expr} {n : Nat}
    (h : Rule.Sound factor (ReadsWithin n 3)) :
    Rule.Sound (expressionOf limits factor) (ReadsWithin n 1) := by
  cases n with
  | zero => exact sound_expressionOf h
  | succ n => exact sound_expressionOf h

/-- **A factor nests to the depths that are left.**  The induction is on the bound of the parser; with
each level inside, one depth less is left, and behind the last one nothing is answered. -/
theorem sound_factor_within {n depth : Nat} (hdepth : limits.allowsDepth (depth + n + 1) = false)
    (bound : Nat) : Rule.Sound (factor limits bound depth) (ReadsWithin n 3) := by
  induction bound generalizing n depth with
  | zero => intro ls e rest h; cases h
  | succ bound ih =>
    cases n with
    | zero =>
      have hinside : Rule.Refuses (factor limits bound (depth + 1)) := refuses_factor hdepth bound
      have hover : Rule.Sound (factor limits (bound + 1) depth) (ReadsOver (fun _ _ _ => False) 3) :=
        sound_factor_succ hinside (refuses_chain (refuses_chain hinside 2) 1)
      exact hover
    | succ n =>
      have hinside : Rule.Sound (factor limits bound (depth + 1)) (ReadsWithin n 3) := by
        refine ih ?_
        rwa [Nat.add_right_comm depth 1 n]
      have hover : Rule.Sound (factor limits (bound + 1) depth) (ReadsOver (ReadsWithin n) 3) :=
        sound_factor_succ hinside (sound_expressionOf_within hinside)
      exact hover

end Depth

/-! ## 3. Whole texts -/

/-- **Which trees are answered under limits**: of those that there are without limits, the ones that are
not too tall and have no factor too deep. -/
theorem parseWithin_eq_ok_iff {n : Nat} (hdepth : ∀ d, limits.allowsDepth d = true ↔ d ≤ n)
    {text : Text} {origin : Position} {e : Expr} (h : parseWithin .unlimited text origin = .ok e) :
    ∃ lexemes, Token.lex origin text = .ok lexemes ∧
      (parseWithin limits text origin = .ok e ↔
        limits.allowsHeight e.height = true ∧ ∀ d ∈ factorDepths (tokens lexemes), d ≤ n) := by
  obtain ⟨lexemes, hlex, htree⟩ := bind_eq_ok h
  refine ⟨lexemes, hlex, ?_⟩
  have hunfold : parseWithin limits text origin = ofLexemes limits lexemes := by
    unfold parseWithin
    rw [hlex, ok_bind]
  rw [hunfold]
  constructor
  · intro haccepted
    have hbeyond : limits.allowsDepth (0 + n + 1) = false := by
      rw [← Bool.not_eq_true, hdepth]
      omega
    have hsound : Rule.Sound (expressionOf limits (factor limits lexemes.length 0)) (ReadsWithin n 1) :=
      sound_expressionOf_within (sound_factor_within hbeyond lexemes.length)
    obtain ⟨body, q, rfl, -, hwithin⟩ :=
      exists_cuts_of_ofLexemes hlex hsound (fun _ _ hwithin => hwithin.reads) haccepted
    exact ⟨allowsHeight_of_ofLexemes haccepted, (readsWithin_iff hwithin.reads n q).mp hwithin⟩
  · rintro ⟨hheight, hdepths⟩
    obtain ⟨body, q, rfl, -, hreads⟩ := exists_cuts_of_ofLexemes hlex
      (sound_expressionOf_reads (sound_factor _ _ _)) (fun _ _ hreads => hreads) htree
    have hwithin : ReadsWithin n 1 e body := (readsWithin_iff hreads n q).mpr hdepths
    exact ofLexemes_of_within hwithin (fun d hd => (hdepth d).mpr hd) hheight q

theorem orTooDeep_parseWithin (limits : Limits) (text : Text) (origin : Position) :
    OrTooDeep (parseWithin limits text origin) (parseWithin .unlimited text origin) :=
  (OrTooDeep.refl _).bind (orTooDeep_ofLexemes limits)

theorem allowsHeight_of_parseWithin {text : Text} {origin : Position} {e : Expr}
    (h : parseWithin limits text origin = .ok e) : limits.allowsHeight e.height = true := by
  obtain ⟨lexemes, -, htree⟩ := bind_eq_ok h
  exact allowsHeight_of_ofLexemes htree

/-- **The limits of the language keep out what they say and nothing else.**  A text has the outcome that
it has without limits or the error of a limit, and no tree is taller than 256.  A text that has a tree
without limits keeps it if the tree is no taller than that and no factor lies inside more than 127
constructs, which are the open parentheses of groups and calls and the minus signs in front of it;
otherwise it has the error of a limit. -/
theorem limits_exact (text : Text) (origin : Position) :
    OrTooDeep (parse text origin) (parseWithin .unlimited text origin) ∧
    (∀ e, parse text origin = .ok e → e.height ≤ 256) ∧
    ∀ e, parseWithin .unlimited text origin = .ok e →
      ∃ lexemes, Token.lex origin text = .ok lexemes ∧
        if e.height ≤ 256 ∧ ∀ d ∈ factorDepths (tokens lexemes), d ≤ 127
        then parse text origin = .ok e
        else ∃ p, parse text origin = .error ⟨.nestingTooDeep, p⟩ := by
  have hdepth : ∀ d, Limits.standard.allowsDepth d = true ↔ d ≤ 127 := by
    intro d
    rw [Nat.le_iff_lt_add_one]
    exact decide_eq_true_iff
  have hheight : ∀ h, Limits.standard.allowsHeight h = true ↔ h ≤ 256 := fun h => decide_eq_true_iff
  refine ⟨orTooDeep_parseWithin _ _ _, ?_, ?_⟩
  · intro e he
    exact (hheight _).mp (allowsHeight_of_parseWithin he)
  · intro e he
    obtain ⟨lexemes, hlex, hiff⟩ := parseWithin_eq_ok_iff hdepth he
    rw [hheight] at hiff
    refine ⟨lexemes, hlex, ?_⟩
    split
    · next hwithin => exact hiff.mpr hwithin
    · next hbeyond =>
      rcases orTooDeep_parseWithin .standard text origin with hsame | hdeep
      · exact absurd (hiff.mp (hsame.trans he)) hbeyond
      · exact hdeep

namespace Example

/-- In `-(2*x)` both operands of the product lie inside two constructs. -/
theorem limits_exact_product : ∃ e, parseWithin .unlimited "-(2*x)".toList ⟨1, 1⟩ = .ok e ∧
    e.height = 3 ∧ parse "-(2*x)".toList ⟨1, 1⟩ = .ok e := by
  have hfree : (parseWithin .unlimited "-(2*x)".toList ⟨1, 1⟩).map height = .ok 3 := by decide +kernel
  have hdepths : (Token.lex ⟨1, 1⟩ "-(2*x)".toList).map (fun ls => factorDepths (tokens ls))
      = .ok [0, 1, 2, 2] := by decide +kernel
  obtain ⟨e, he, hheight⟩ := map_eq_ok hfree
  obtain ⟨lexemes, hlex, hparse⟩ := (limits_exact "-(2*x)".toList ⟨1, 1⟩).2.2 e he
  obtain ⟨_, hlex', hfactors⟩ := map_eq_ok hdepths
  cases hlex.symm.trans hlex'
  rw [if_pos ⟨by omega, by rw [hfactors]; decide⟩] at hparse
  exact ⟨e, he, hheight, hparse⟩

end Example

end Expr
end Abacus
