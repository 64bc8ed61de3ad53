/-
# Which texts the stack machine accepts

The conversion to postfix order does not look at where operands stand, and the machine only counts
them.  So the numeric route accepts texts that the grammar rejects: in `1 2 +` the operator finds its
operands on the stack, and in `() 1` the empty parentheses leave no trace.  In both, one operand
stands right behind another, a number or something in parentheses.  This module shows that nothing
else goes wrong.  A text that the numeric route accepts and in which no operand follows an operand is
an expression of the grammar.

The argument is a count.  A number brings one operand to the stack, and an operator takes one away.
If no operand follows an operand, there is at least one operator between two numbers.  A result means
that there is one operator less than there are numbers, so there is exactly one in every gap and none
elsewhere: operands and operators take turns.  The converter itself has matched the parentheses.

Main statements:

* `Shunts.gain_le` and `alternating_of_convert`: the count for one lexeme and for all of them;
* `exists_tree_of_evaluate`: what a result of the numeric route says about the text;
* `Example.evaluate_operatorLast`: a text that it accepts although it is no expression.
-/
import Abacus.Proofs.Expr.Alternation
import Abacus.Proofs.Expr.Completeness
import Abacus.Proofs.Postfix.Readability

namespace Abacus
namespace Postfix

/-! ## 1. What a program leaves on the stack -/

/-- How many numbers a step leaves on the stack more than it takes from it. -/
def Item.gain : Item → Int
  | push _ => 1
  | negate => 0
  | apply _ => -1

/-- How many numbers a program leaves on the stack more than it takes from it. -/
def gain : List Instruction → Int
  | [] => 0
  | step :: program => step.item.gain + gain program

theorem gain_append (a b : List Instruction) : gain (a ++ b) = gain a + gain b := by
  induction a with
  | nil => simp [gain]
  | cons step a ih =>
    rw [List.cons_append, gain, gain, ih]
    omega

/-- A tree leaves one number. -/
theorem gain_postorder : ∀ {e : Expr}, e.isGround = true → gain e.postorder = 1
  | .number x p, _ => rfl
  | .negate e p, hground => by
    rw [Expr.postorder, gain_append, gain_postorder (e := e) hground]
    rfl
  | .binary op l r p, hground => by
    obtain ⟨hgl, hgr⟩ := Bool.and_eq_true_iff.mp hground
    rw [Expr.postorder, gain_append, gain_append, gain_postorder hgl, gain_postorder hgr]
    rfl

/-! ## 2. What waits -/

/-- How many parentheses are open. -/
def openParens (waiting : List (Located Waiting)) : Nat :=
  waiting.countP (fun w => w.item.item?.isNone)

theorem openParens_paren (p : Position) (waiting : List (Located Waiting)) :
    openParens (⟨.paren, p⟩ :: waiting) = openParens waiting + 1 := by
  simp [openParens, Waiting.item?]

/-- What becomes a step is no parenthesis. -/
theorem openParens_cons {top : Located Waiting} {item : Item} (h : top.item.item? = some item)
    (waiting : List (Located Waiting)) : openParens (top :: waiting) = openParens waiting := by
  simp [openParens, h]

theorem gain_stepsOf_cons {top : Located Waiting} {item : Item} (h : top.item.item? = some item)
    (waiting : List (Located Waiting)) :
    gain (stepsOf (top :: waiting)) = item.gain + gain (stepsOf waiting) := by
  rw [stepsOf_cons h, gain]

/-- An operator releases steps from the top of what waits, and no parenthesis. -/
theorem stepsOf_release (k : Nat) (waiting : List (Located Waiting)) :
    stepsOf waiting = (release k waiting).1 ++ stepsOf (release k waiting).2 ∧
      openParens (release k waiting).2 = openParens waiting := by
  induction waiting with
  | nil => exact ⟨rfl, rfl⟩
  | cons top waiting ih =>
    rw [release]
    cases hitem : top.item.item? with
    | none => exact ⟨rfl, rfl⟩
    | some item =>
      dsimp only
      split
      · refine ⟨by rw [stepsOf_cons hitem, ih.1]; rfl, ?_⟩
        rw [openParens_cons hitem]
        exact ih.2
      · exact ⟨rfl, rfl⟩

/-- A closing parenthesis releases the steps down to the innermost open one, and closes that. -/
theorem stepsOf_closeParen? {waiting left : List (Located Waiting)} {released : List Instruction}
    (h : closeParen? waiting = some (released, left)) :
    stepsOf waiting = released ++ stepsOf left ∧ openParens waiting = openParens left + 1 := by
  induction waiting generalizing released with
  | nil => cases h
  | cons top waiting ih =>
    rw [closeParen?] at h
    cases hitem : top.item.item? with
    | none =>
      rw [hitem] at h
      cases h
      exact ⟨by simp [stepsOf, hitem], by simp [openParens, hitem]⟩
    | some item =>
      rw [hitem] at h
      obtain ⟨⟨more, left'⟩, hmore, heq⟩ := Option.map_eq_some_iff.mp h
      cases heq
      obtain ⟨hsteps, hopen⟩ := ih hmore
      exact ⟨by rw [stepsOf_cons hitem, hsteps]; rfl, by rw [openParens_cons hitem, hopen]⟩

/-- The end of the text releases every step, and no parenthesis is open. -/
theorem stepsOf_releaseAll {waiting : List (Located Waiting)} {program : List Instruction}
    (h : releaseAll waiting = .ok program) : program = stepsOf waiting ∧ openParens waiting = 0 := by
  induction waiting generalizing program with
  | nil =>
    cases h
    exact ⟨rfl, rfl⟩
  | cons top waiting ih =>
    rw [releaseAll] at h
    cases hitem : top.item.item? with
    | none =>
      rw [hitem] at h
      cases h
    | some item =>
      rw [hitem] at h
      obtain ⟨more, hmore, heq⟩ := bind_eq_ok h
      cases heq
      obtain ⟨rfl, hopen⟩ := ih hmore
      exact ⟨(stepsOf_cons hitem).symm, by rw [openParens_cons hitem, hopen]⟩

/-! ## 3. The count -/

/-- The number that an expected operand brings. -/
def due (expect : Bool) : Int := if expect then 1 else 0

/-- The converter takes one lexeme: it writes some steps, and it goes from one state to another.  A
state is whether an operand is expected, and what waits. -/
inductive Shunts : Bool → List (Located Waiting) → Lexeme →
    List Instruction → Bool → List (Located Waiting) → Prop
  | number {expect : Bool} {waiting : List (Located Waiting)} {x : Binary64} {p : Position} :
      Shunts expect waiting ⟨.number x, p⟩ [⟨.push x, p⟩] false waiting
  | openParen {expect : Bool} {waiting : List (Located Waiting)} {p : Position} :
      Shunts expect waiting ⟨.openParen, p⟩ [] true (⟨.paren, p⟩ :: waiting)
  | closeParen {expect : Bool} {waiting left : List (Located Waiting)}
      {released : List Instruction} {p : Position} :
      closeParen? waiting = some (released, left) →
        Shunts expect waiting ⟨.closeParen, p⟩ released false left
  | negation {waiting : List (Located Waiting)} {p : Position} :
      Shunts true waiting ⟨.operator .sub, p⟩ [] true (⟨.negate, p⟩ :: waiting)
  | operator {expect : Bool} {waiting : List (Located Waiting)} {op : Operator} {p : Position} :
      Shunts expect waiting ⟨.operator op, p⟩ (release op.precedence waiting).1 true
        (⟨.operator op, p⟩ :: (release op.precedence waiting).2)

section Convert

variable {expect expect' : Bool} {waiting waiting' : List (Located Waiting)} {l : Lexeme}
  {ls rest : List Lexeme} {written program : List Instruction}

/-- A conversion that succeeds takes its lexemes one by one. -/
theorem exists_shunts (h : convert expect waiting (l :: ls) = .ok program)
    (hend : l.item ≠ .endOfInput) :
    ∃ written expect' waiting' more, Shunts expect waiting l written expect' waiting' ∧
      convert expect' waiting' ls = .ok more ∧ program = written ++ more := by
  obtain ⟨t, p⟩ := l
  cases t with
  | number x =>
    rw [convert] at h
    obtain ⟨more, hmore, heq⟩ := bind_eq_ok h
    cases heq
    exact ⟨_, _, _, more, .number, hmore, rfl⟩
  | openParen =>
    rw [convert] at h
    exact ⟨_, _, _, program, .openParen, h, rfl⟩
  | closeParen =>
    rw [convert] at h
    split at h
    · cases h
    · next released left hclose =>
      obtain ⟨more, hmore, heq⟩ := bind_eq_ok h
      cases heq
      exact ⟨_, _, _, more, .closeParen hclose, hmore, rfl⟩
  | operator op =>
    rw [convert] at h
    split at h
    · next hnegation =>
      obtain ⟨rfl, rfl⟩ := hnegation
      exact ⟨_, _, _, program, .negation, h, rfl⟩
    · obtain ⟨more, hmore, heq⟩ := bind_eq_ok h
      cases heq
      exact ⟨_, _, _, more, .operator, hmore, rfl⟩
  | endOfInput => exact absurd rfl hend
  | _ => cases h

theorem Shunts.isArithmetic (h : Shunts expect waiting l written expect' waiting') :
    Expr.isArithmetic l.item = true := by
  cases h <;> rfl

/-- Behind a lexeme with which an operand can end, none is expected. -/
theorem Shunts.endsOperand (h : Shunts expect waiting l written expect' waiting')
    (hexpect : expect' = false) : l.item.endsOperand = true := by
  cases h with
  | number => rfl
  | closeParen => rfl
  | _ => cases hexpect

/-- **One step of the count.**  Where an operand is taken only if it is expected, a lexeme brings no more
than was due and leaves what is due next.  If it brings that much, it is the turn of the lexeme. -/
theorem Shunts.gain_le (h : Shunts expect waiting l written expect' waiting')
    (hexpected : l.item.startsOperand = true → expect = true) :
    gain written + gain (stepsOf waiting') + due expect' ≤ gain (stepsOf waiting) + due expect ∧
      (gain written + gain (stepsOf waiting') + due expect' = gain (stepsOf waiting) + due expect →
        ∀ ls, Expr.Alternating expect' (openParens waiting') ls →
          Expr.Alternating expect (openParens waiting) (l :: ls)) := by
  cases h with
  | @number expect waiting x p =>
    obtain rfl := hexpected rfl
    have hgain : gain [(⟨.push x, p⟩ : Instruction)] = 1 := rfl
    simp only [hgain, due, if_true, Bool.false_eq_true, if_false]
    exact ⟨by omega, fun _ ls hls => .number hls⟩
  | @openParen expect waiting p =>
    obtain rfl := hexpected rfl
    have hsteps : stepsOf (⟨.paren, p⟩ :: waiting) = stepsOf waiting := rfl
    rw [hsteps, openParens_paren]
    exact ⟨by simp [gain], fun _ ls hls => .openParen hls⟩
  | @closeParen expect waiting left released p hclose =>
    obtain ⟨hsteps, hopen⟩ := stepsOf_closeParen? hclose
    rw [hsteps, gain_append, hopen]
    cases expect with
    | true =>
      simp only [due, if_true, Bool.false_eq_true, if_false]
      exact ⟨by omega, fun heq => by omega⟩
    | false => exact ⟨by omega, fun _ ls hls => .closeParen hls⟩
  | @negation waiting p =>
    rw [gain_stepsOf_cons rfl, openParens_cons rfl]
    exact ⟨by simp [gain, Item.gain], fun _ ls hls => .minus hls⟩
  | @operator expect waiting op p =>
    obtain ⟨hsteps, hopen⟩ := stepsOf_release op.precedence waiting
    have hgain : (Item.apply op).gain = -1 := rfl
    rw [gain_stepsOf_cons rfl, openParens_cons rfl, hopen, hsteps, gain_append, hgain]
    cases expect with
    | true =>
      simp only [due, if_true]
      exact ⟨by omega, fun heq => by omega⟩
    | false =>
      simp only [due, if_true, Bool.false_eq_true, if_false]
      exact ⟨by omega, fun _ ls hls => .operator hls⟩

/-- The converter takes numbers, operators and parentheses only. -/
theorem isArithmetic_of_convert (h : convert expect waiting (ls ++ rest) = .ok program)
    (hend : Token.endOfInput ∉ tokens ls) : ∀ t ∈ tokens ls, Expr.isArithmetic t = true := by
  induction ls generalizing expect waiting program with
  | nil => simp
  | cons l ls ih =>
    rw [tokens_cons, List.mem_cons, not_or] at hend
    obtain ⟨written, expect', waiting', more, hstep, hmore, -⟩ :=
      exists_shunts h (fun heq => hend.1 heq.symm)
    exact List.forall_mem_cons.mpr ⟨hstep.isArithmetic, ih hmore hend.2⟩

/-- **The count**, by induction on the lexemes.  Where no operand follows an operand, a program brings
no more than the operand that is due, less what the waiting operators take.  If it brings that much,
operands and operators take turns. -/
theorem alternating_of_convert {q : Position}
    (h : convert expect waiting (ls ++ [⟨.endOfInput, q⟩]) = .ok program)
    (hend : Token.endOfInput ∉ tokens ls) (hapart : Expr.OperandsApart (tokens ls))
    (hfirst : ∀ t ∈ (tokens ls).head?, t.startsOperand = true → expect = true) :
    gain program ≤ gain (stepsOf waiting) + due expect ∧
      (gain program = gain (stepsOf waiting) + due expect →
        Expr.Alternating expect (openParens waiting) ls) := by
  induction ls generalizing expect waiting program with
  | nil =>
    obtain ⟨rfl, hopen⟩ := stepsOf_releaseAll h
    cases expect with
    | true =>
      simp only [due, if_true]
      exact ⟨by omega, fun heq => by omega⟩
    | false =>
      refine ⟨by simp [due], fun _ => ?_⟩
      rw [hopen]
      exact .done
  | cons l ls ih =>
    rw [tokens_cons, List.mem_cons, not_or] at hend
    rw [tokens_cons, Expr.OperandsApart, List.isChain_cons] at hapart
    obtain ⟨hnext, hapart⟩ := hapart
    obtain ⟨written, expect', waiting', more, hstep, hmore, rfl⟩ :=
      exists_shunts h (fun heq => hend.1 heq.symm)
    have hsecond : ∀ t ∈ (tokens ls).head?, t.startsOperand = true → expect' = true := by
      intro t ht hstarts
      by_contra hexpect
      exact hnext t ht ⟨hstep.endsOperand (by simpa using hexpect), hstarts⟩
    obtain ⟨hle, halternate⟩ := ih hmore hend.2 hapart hsecond
    obtain ⟨hle', halternate'⟩ := hstep.gain_le (hfirst _ rfl)
    rw [gain_append]
    exact ⟨by omega, fun heq => halternate' (by omega) ls (halternate (by omega))⟩

end Convert

/-! ## 4. Whole texts -/

/-- The marker for the end of input does not matter to whether operands are apart. -/
theorem operandsApart_concat {body : List Lexeme} {q : Position} :
    Expr.OperandsApart (tokens (body ++ [⟨.endOfInput, q⟩])) ↔ Expr.OperandsApart (tokens body) := by
  rw [tokens_append]
  refine ⟨fun h => (List.isChain_append.mp h).1, fun h => ?_⟩
  exact Expr.isChain_append_cons (fun s => by simp [Token.startsOperand]) h (List.isChain_singleton _)

/-- A program of the size of a tree comes from a written form, if no operand follows an operand. -/
theorem exists_reads_of_ofLexemes {body : List Lexeme} {q : Position} {program : List Instruction}
    (h : ofLexemes (body ++ [⟨.endOfInput, q⟩]) = .ok program) (hend : Token.endOfInput ∉ tokens body)
    (hapart : Expr.OperandsApart (tokens body)) (hgain : gain program = 1) :
    ∃ e, Expr.Reads 1 e body ∧ e.isGround = true :=
  Expr.reads_of_alternating ((alternating_of_convert h hend hapart (fun _ _ _ => rfl)).2 hgain)

/-- **What the numeric route accepts.**  A result is the value of the tree whose postfix order is the
program of the text.  If no operand of the text stands right behind another one, this tree is the tree
of the text, unless it is beyond a limit; otherwise the text has no tree. -/
theorem exists_tree_of_evaluate {text : Text} {origin : Position} {x : Binary64}
    (h : evaluate text origin = .ok x) :
    ∃ lexemes e, Token.lex origin text = .ok lexemes ∧ ofLexemes lexemes = .ok e.postorder ∧
      HasValue e x ∧
      (Expr.OperandsApart (tokens lexemes) → OrTooDeep (Expr.parse text origin) (.ok e)) ∧
      (¬ Expr.OperandsApart (tokens lexemes) → ∃ err, Expr.parse text origin = .error err) := by
  obtain ⟨lexemes, hlex, hnext⟩ := bind_eq_ok h
  obtain ⟨program, hprogram, hrun⟩ := bind_eq_ok hnext
  obtain ⟨e, he, rfl⟩ := run_eq_ok_iff.mp hrun
  obtain ⟨body, q, rfl, hcuts⟩ := Token.cuts_of_lex hlex
  have hend := hcuts.endOfInput_notMem
  refine ⟨_, e, hlex, hprogram, he, fun hapart => ?_, fun hnot => ?_⟩
  · obtain ⟨e', hreads, hground⟩ := exists_reads_of_ofLexemes hprogram hend
      (operandsApart_concat.mp hapart) (gain_postorder he.isGround)
    have hprogram' := ofLexemes_of_reads hreads hground (Or.inr ⟨q, [], rfl⟩)
    rw [hprogram, Except.ok.injEq] at hprogram'
    rw [eq_of_postorder_eq he.isGround hground hprogram']
    exact Expr.orTooDeep_parse hcuts hreads
  · cases hparse : Expr.parse text origin with
    | error err => exact ⟨err, rfl⟩
    | ok e' =>
      obtain ⟨body', q', hcuts', hreads⟩ := Expr.cuts_of_parse hparse
      have hsame := hcuts'.lex_eq_ok.symm.trans hlex
      rw [Except.ok.injEq] at hsame
      obtain ⟨rfl, -⟩ := List.append_inj' hsame rfl
      have hground := hreads.isGround (isArithmetic_of_convert hprogram hend)
      exact absurd (operandsApart_concat.mpr (hreads.operandsApart hground)) hnot

namespace Example

/-- `2*(3)` has its tree. -/
theorem exists_tree_of_evaluate_product :
    evaluate "2*(3)".toList ⟨1, 1⟩ = .ok (digit '6') ∧
      ∃ e, HasValue e (digit '6') ∧ OrTooDeep (Expr.parse "2*(3)".toList ⟨1, 1⟩) (.ok e) := by
  have hvalue : evaluate "2*(3)".toList ⟨1, 1⟩ = .ok (digit '6') := by decide +kernel
  have hlex : (Token.lex ⟨1, 1⟩ "2*(3)".toList).map tokens
      = .ok [.number (digit '2'), .operator .mul, .openParen, .number (digit '3'), .closeParen,
          .endOfInput] := by decide +kernel
  obtain ⟨lexemes, e, hlexemes, -, he, hapart, -⟩ := exists_tree_of_evaluate hvalue
  rw [hlexemes, map_ok, Except.ok.injEq] at hlex
  refine ⟨hvalue, e, he, hapart ?_⟩
  rw [hlex]
  simp [Expr.OperandsApart, Token.endsOperand, Token.startsOperand]

/-- **Accepted, and rejected by the grammar.**  In `1 2 +` the second operand follows the first one, and
the operator finds both on the stack. -/
theorem evaluate_operatorLast :
    evaluate "1 2 +".toList ⟨1, 1⟩ = .ok (digit '3') ∧
      Expr.parse "1 2 +".toList ⟨1, 1⟩ = .error ⟨.unexpectedTrailingInput ['2'], ⟨1, 3⟩⟩ ∧
      ¬ ∀ text origin x, evaluate text origin = .ok x →
        (∃ e, Expr.parse text origin = .ok e ∧ e.isGround = true) ∨
          ∃ p, Expr.parse text origin = .error ⟨.nestingTooDeep, p⟩ := by
  have hvalue : evaluate "1 2 +".toList ⟨1, 1⟩ = .ok (digit '3') := by decide +kernel
  have hlex : Token.lex ⟨1, 1⟩ "1 2 +".toList
      = .ok [⟨.number (digit '1'), ⟨1, 1⟩⟩, ⟨.number (digit '2'), ⟨1, 3⟩⟩, ⟨.operator .add, ⟨1, 5⟩⟩,
          ⟨.endOfInput, ⟨1, 6⟩⟩] := by decide +kernel
  have htext : (digit '2').render = ['2'] := by decide +kernel
  have hparse : Expr.parse "1 2 +".toList ⟨1, 1⟩
      = .error ⟨.unexpectedTrailingInput ['2'], ⟨1, 3⟩⟩ := by
    unfold Expr.parse Expr.parseWithin
    rw [hlex, ← htext]
    rfl
  refine ⟨hvalue, hparse, fun hclaim => ?_⟩
  rcases hclaim _ _ _ hvalue with ⟨e, he, -⟩ | ⟨p, hp⟩
  · rw [hparse] at he
    cases he
  · rw [hparse] at hp
    cases hp

end Example

end Postfix
end Abacus
