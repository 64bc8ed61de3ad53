/-
# The postfix program of a text is its tree in postfix order

The stack of waiting operators and the recursion of the parser are two ways to hold what is not
finished yet.  What connects them is an invariant on the lexemes of one construct.  While the
converter passes over a written form of `e` at the level `k`, above whatever was waiting before

* it writes some steps, and leaves some operators waiting;
* those left waiting bind at least as tightly as `k`, and none is a parenthesis (`AllAtLeast`);
* the steps written and then those waiting, released from the top, are `e` in postfix order.

Nothing below is touched, because an operator that can occur at the level `k` outside parentheses
releases nothing of it (`Settled`).  A parenthesis settles everything below it.  A negation puts no
demand on what waits: no operator occurs inside a factor outside parentheses, so nothing is released
there.

Main statements:

* `convert_of_reads`: the invariant, by induction on the written form;
* `computes_of_isGround`: the machine computes what the evaluation of the tree computes;
* `postorder_of_parse`: a text with a tree of numbers has the program of that tree, and both routes
  have one outcome.
-/
import Abacus.Evaluation.Tree
import Abacus.Postfix
import Abacus.Proofs.Expr.Soundness

namespace Abacus

/-! ## 1. The program of a tree -/

namespace Expr

/-- The tree in postfix order: every operand before its operator, with the positions of the nodes.
Other nodes than numbers, negations and operators have no step of their own. -/
def postorder : Expr → List Postfix.Instruction
  | number x p => [⟨.push x, p⟩]
  | negate e p => e.postorder ++ [⟨.negate, p⟩]
  | binary op l r p => l.postorder ++ (r.postorder ++ [⟨.apply op, p⟩])
  | _ => []

end Expr

namespace Postfix

/-! ## 2. Waiting operators -/

/-- Operators that bind at least as tightly as `k`, and no parenthesis. -/
def AllAtLeast (k : Nat) (waiting : List (Located Waiting)) : Prop :=
  ∀ w ∈ waiting, w.item ≠ .paren ∧ k ≤ w.item.precedence

/-- The steps that waiting operators become, from the top of the stack. -/
def stepsOf (waiting : List (Located Waiting)) : List Instruction :=
  waiting.filterMap (fun w => w.item.item?.map (fun item => ⟨item, w.position⟩))

/-- No operator of the level `k` or a stronger one releases anything. -/
def Settled (k : Nat) (waiting : List (Located Waiting)) : Prop :=
  ∀ op : Operator, k ≤ op.precedence → release op.precedence waiting = ([], waiting)

theorem AllAtLeast.mono {j k : Nat} {waiting : List (Located Waiting)} (hle : j ≤ k)
    (h : AllAtLeast k waiting) : AllAtLeast j waiting :=
  fun w hw => ⟨(h w hw).1, Nat.le_trans hle (h w hw).2⟩

theorem AllAtLeast.append {k : Nat} {a b : List (Located Waiting)} (ha : AllAtLeast k a)
    (hb : AllAtLeast k b) : AllAtLeast k (a ++ b) := by
  intro w hw
  rcases List.mem_append.mp hw with hw | hw
  · exact ha w hw
  · exact hb w hw

theorem allAtLeast_nil (k : Nat) : AllAtLeast k [] := by
  intro w hw
  cases hw

theorem AllAtLeast.tail {k : Nat} {top : Located Waiting} {waiting : List (Located Waiting)}
    (h : AllAtLeast k (top :: waiting)) : AllAtLeast k waiting :=
  fun w hw => h w (List.mem_cons_of_mem _ hw)

/-- A waiting operator that is no parenthesis becomes a step. -/
theorem item?_of_ne_paren {w : Waiting} (h : w ≠ .paren) : ∃ item, w.item? = some item := by
  cases w with
  | negate => exact ⟨_, rfl⟩
  | operator op => exact ⟨_, rfl⟩
  | paren => exact absurd rfl h

theorem stepsOf_cons {top : Located Waiting} {waiting : List (Located Waiting)} {item : Item}
    (h : top.item.item? = some item) :
    stepsOf (top :: waiting) = ⟨item, top.position⟩ :: stepsOf waiting := by
  simp [stepsOf, h]

theorem stepsOf_append (a b : List (Located Waiting)) : stepsOf (a ++ b) = stepsOf a ++ stepsOf b :=
  List.filterMap_append

/-- An operator releases all that binds at least as tightly, and then what it releases below. -/
theorem release_append {k : Nat} {a : List (Located Waiting)} (h : AllAtLeast k a)
    (below : List (Located Waiting)) :
    release k (a ++ below) = (stepsOf a ++ (release k below).1, (release k below).2) := by
  induction a with
  | nil => rfl
  | cons top a ih =>
    obtain ⟨hne, hle⟩ := h top List.mem_cons_self
    obtain ⟨item, hitem⟩ := item?_of_ne_paren hne
    rw [List.cons_append, release, hitem]
    dsimp only
    rw [if_pos hle, ih h.tail, stepsOf_cons hitem]
    rfl

/-- A closing parenthesis releases all above the innermost open one. -/
theorem closeParen?_append {k : Nat} {a : List (Located Waiting)} (h : AllAtLeast k a)
    (p : Position) (below : List (Located Waiting)) :
    closeParen? (a ++ ⟨.paren, p⟩ :: below) = some (stepsOf a, below) := by
  induction a with
  | nil => rfl
  | cons top a ih =>
    obtain ⟨item, hitem⟩ := item?_of_ne_paren (h top List.mem_cons_self).1
    rw [List.cons_append, closeParen?, hitem]
    dsimp only
    rw [ih h.tail, stepsOf_cons hitem]
    rfl

/-- The end of the text releases everything, if no parenthesis is open. -/
theorem releaseAll_of_allAtLeast {k : Nat} {a : List (Located Waiting)} (h : AllAtLeast k a) :
    releaseAll a = .ok (stepsOf a) := by
  induction a with
  | nil => rfl
  | cons top a ih =>
    obtain ⟨item, hitem⟩ := item?_of_ne_paren (h top List.mem_cons_self).1
    rw [releaseAll, hitem]
    dsimp only
    rw [ih h.tail, stepsOf_cons hitem]
    rfl

theorem precedence_le (op : Operator) : op.precedence ≤ 2 := by
  cases op <;> decide

theorem Settled.mono {j k : Nat} {waiting : List (Located Waiting)} (hle : j ≤ k)
    (h : Settled j waiting) : Settled k waiting :=
  fun op hop => h op (Nat.le_trans hle hop)

theorem settled_nil (k : Nat) : Settled k [] := fun _ _ => rfl

/-- An open parenthesis keeps everything below it. -/
theorem settled_paren (k : Nat) (p : Position) (waiting : List (Located Waiting)) :
    Settled k (⟨.paren, p⟩ :: waiting) := fun _ _ => rfl

/-- No operator is as strong as a factor. -/
theorem settled_three (waiting : List (Located Waiting)) : Settled 3 waiting := by
  intro op hop
  have := precedence_le op
  omega

/-- An operator is not released by stronger ones. -/
theorem settled_operator (op : Operator) (p : Position) (waiting : List (Located Waiting)) :
    Settled (op.precedence + 1) (⟨.operator op, p⟩ :: waiting) := by
  intro stronger hstronger
  have hlt : ¬ stronger.precedence ≤ op.precedence := by omega
  simp [release, Waiting.item?, Waiting.precedence, hlt]

/-! ## 3. Converting a written form -/

/-- What the converter has done and what it has left waiting, behind a written form of `e`. -/
structure Converts (k : Nat) (e : Expr) (ls : List Lexeme) (written : List Instruction)
    (pending : List (Located Waiting)) : Prop where
  /-- What is left waiting binds at least as tightly as the level. -/
  atLeast : AllAtLeast k pending
  /-- Together they are the tree in postfix order. -/
  order : written ++ stepsOf pending = e.postorder
  /-- Above everything that is settled, this is what the converter does. -/
  run : ∀ waiting, Settled k waiting → ∀ rest,
    convert true waiting (ls ++ rest)
      = (convert false (pending ++ waiting) rest).map (fun program => written ++ program)

/-- A tree in parentheses leaves nothing waiting. -/
theorem Converts.group {k j : Nat} {e : Expr} {ls : List Lexeme} {written : List Instruction}
    {pending : List (Located Waiting)} (h : Converts k e ls written pending) (p q : Position) :
    Converts j e (⟨.openParen, p⟩ :: (ls ++ [⟨.closeParen, q⟩])) e.postorder [] where
  atLeast := allAtLeast_nil j
  order := by simp [stepsOf]
  run := by
    intro waiting _ rest
    have hinner := h.run (⟨.paren, p⟩ :: waiting) (settled_paren k p waiting)
      (⟨.closeParen, q⟩ :: rest)
    have hclose : convert false (pending ++ ⟨.paren, p⟩ :: waiting) (⟨.closeParen, q⟩ :: rest)
        = (convert false waiting rest).map (fun program => stepsOf pending ++ program) := by
      rw [convert]
      rw [closeParen?_append h.atLeast]
      dsimp only
      cases convert false waiting rest <;> rfl
    rw [List.cons_append, List.append_assoc, List.cons_append, List.nil_append, convert]
    rw [hinner, hclose, map_map]
    simp only [← List.append_assoc, h.order, List.nil_append]

/-- A negation waits below what its operand leaves waiting. -/
theorem Converts.negate {k : Nat} {e : Expr} {ls : List Lexeme} {written : List Instruction}
    {pending : List (Located Waiting)} (h : Converts 3 e ls written pending) (hk : k ≤ 3)
    (p : Position) :
    Converts k (.negate e p) (⟨.operator .sub, p⟩ :: ls) written (pending ++ [⟨.negate, p⟩]) where
  atLeast := by
    refine (h.atLeast.mono hk).append ?_
    intro w hw
    rw [List.mem_singleton] at hw
    subst hw
    exact ⟨by simp, hk⟩
  order := by
    rw [stepsOf_append, ← List.append_assoc, h.order]
    rfl
  run := by
    intro waiting _ rest
    rw [List.cons_append, convert]
    dsimp only
    rw [if_pos ⟨rfl, rfl⟩, h.run _ (settled_three _), List.append_assoc]
    rfl

/-- An operator releases what its left operand left waiting, and waits itself below what its right
operand leaves waiting. -/
theorem Converts.binary {k : Nat} {op : Operator} {l r : Expr} {ls rs : List Lexeme}
    {written written' : List Instruction} {pending pending' : List (Located Waiting)}
    (hl : Converts op.precedence l ls written pending)
    (hr : Converts (op.precedence + 1) r rs written' pending') (hk : k ≤ op.precedence)
    (p : Position) :
    Converts k (.binary op l r p) (ls ++ ⟨.operator op, p⟩ :: rs)
      (written ++ (stepsOf pending ++ written')) (pending' ++ [⟨.operator op, p⟩]) where
  atLeast := by
    refine (hr.atLeast.mono (by omega)).append ?_
    intro w hw
    rw [List.mem_singleton] at hw
    subst hw
    exact ⟨by simp, hk⟩
  order := by
    rw [stepsOf_append, Expr.postorder, ← hl.order, ← hr.order]
    simp only [List.append_assoc]
    rfl
  run := by
    intro waiting hsettled rest
    have hleft := hl.run waiting (hsettled.mono hk) (⟨.operator op, p⟩ :: (rs ++ rest))
    have hright := hr.run (⟨.operator op, p⟩ :: waiting) (settled_operator op p waiting) rest
    have hrelease : release op.precedence (pending ++ waiting) = (stepsOf pending, waiting) := by
      rw [release_append hl.atLeast, hsettled op hk, List.append_nil]
    have hop : convert false (pending ++ waiting) (⟨.operator op, p⟩ :: (rs ++ rest))
        = (convert true (⟨.operator op, p⟩ :: waiting) (rs ++ rest)).map
            (fun program => stepsOf pending ++ program) := by
      rw [convert]
      dsimp only
      rw [if_neg (by simp), hrelease]
      dsimp only
      cases convert true (⟨.operator op, p⟩ :: waiting) (rs ++ rest) <;> rfl
    rw [List.append_assoc, List.cons_append, hleft, hop, hright, map_map, map_map]
    simp only [List.append_assoc, List.cons_append, List.nil_append]

/-- **The invariant.**  The converter passes over a written form of a tree of numbers as the tree in
postfix order says. -/
theorem convert_of_reads {k : Nat} {e : Expr} {ls : List Lexeme} (h : Expr.Reads k e ls)
    (hk : k ≤ 3) (hground : e.isGround = true) :
    ∃ written pending, Converts k e ls written pending := by
  induction h using Expr.Reads.induction with
  | number k x p =>
    refine ⟨[⟨.push x, p⟩], [], allAtLeast_nil k, rfl, ?_⟩
    intro waiting _ rest
    rw [List.cons_append, List.nil_append, convert]
    cases hrest : convert false waiting rest <;> simp [hrest]
  | name k text p => cases hground
  | vector k xs ls p h => cases hground
  | matrix k rows ls p q h => cases hground
  | call k text es ls p q _ h => cases hground
  | group k e ls p q h ih =>
    obtain ⟨written, pending, hinner⟩ := ih (by decide) hground
    exact ⟨_, _, hinner.group p q⟩
  | negate k e ls p h ih =>
    obtain ⟨written, pending, hinner⟩ := ih (Nat.le_refl 3) hground
    exact ⟨_, _, hinner.negate hk p⟩
  | binary k op l r ls rs p hop hl hr ihl ihr =>
    have hprec := precedence_le op
    obtain ⟨hgl, hgr⟩ := Bool.and_eq_true_iff.mp hground
    obtain ⟨written, pending, hleft⟩ := ihl (by omega) hgl
    obtain ⟨written', pending', hright⟩ := ihr (by omega) hgr
    exact ⟨_, _, hleft.binary hright hop p⟩

/-- The program of the lexemes of a tree of numbers is the tree in postfix order. -/
theorem ofLexemes_of_reads {e : Expr} {body rest : List Lexeme} (h : Expr.Reads 1 e body)
    (hground : e.isGround = true)
    (hrest : rest = [] ∨ ∃ p more, rest = ⟨.endOfInput, p⟩ :: more) :
    ofLexemes (body ++ rest) = .ok e.postorder := by
  obtain ⟨written, pending, hconv⟩ := convert_of_reads h (by decide) hground
  have hend : convert false pending rest = .ok (stepsOf pending) := by
    rcases hrest with rfl | ⟨p, more, rfl⟩ <;> exact releaseAll_of_allAtLeast hconv.atLeast
  unfold ofLexemes
  rw [hconv.run [] (settled_nil 1), List.append_nil, hend, map_ok, hconv.order]

/-! ## 4. Running the program of a tree -/

/-- The outcome `r` is a number, or the error of a zero divisor. -/
def ZeroDivisorOnly (r : Except Error Binary64) : Prop :=
  ∀ error, r = .error error → error.cause = .divisionByZero ∨ error.cause = .moduloByZero

theorem zeroDivisorOnly_applyNumbers (op : Operator) (x y : Binary64) (p : Position) :
    ZeroDivisorOnly (Value.applyNumbers op x y p) := by
  intro error h
  unfold Value.applyNumbers at h
  split at h
  · next cause hcause =>
    split at h
    · cases h
      cases op <;> simp [Value.zeroDivisor?] at hcause <;> simp [← hcause]
    · cases h
  · cases h

theorem ZeroDivisorOnly.map {r : Except Error Binary64} (f : Binary64 → Binary64)
    (h : ZeroDivisorOnly r) : ZeroDivisorOnly (r.map f) := by
  intro error herror
  cases r with
  | error err => cases herror; exact h _ rfl
  | ok x => cases herror

theorem ZeroDivisorOnly.bind {r : Except Error Binary64} {f : Binary64 → Except Error Binary64}
    (h : ZeroDivisorOnly r) (hf : ∀ x, ZeroDivisorOnly (f x)) : ZeroDivisorOnly (r >>= f) := by
  intro error herror
  cases r with
  | error err => cases herror; exact h _ rfl
  | ok x => exact hf x error herror

/-- The tree has the outcome `r` in every environment, and its program leaves that outcome on
whatever stack it runs. -/
structure Computes (e : Expr) (r : Except Error Binary64) : Prop where
  zeroDivisorOnly : ZeroDivisorOnly r
  eval : ∀ env : Environment, env.eval e = r.map .scalar
  run : ∀ finish program stack, runOn finish (e.postorder ++ program) stack
    = r >>= fun x => runOn finish program (x :: stack)

theorem computes_number (x : Binary64) (p : Position) : Computes (.number x p) (.ok x) where
  zeroDivisorOnly := by
    intro error h
    cases h
  eval := by
    intro env
    rw [Environment.eval]
    rfl
  run := by
    intro finish program stack
    rfl

theorem Computes.negate {e : Expr} {r : Except Error Binary64} (h : Computes e r) (p : Position) :
    Computes (.negate e p) (r.map Binary64.neg) where
  zeroDivisorOnly := h.zeroDivisorOnly.map _
  eval := by
    intro env
    rw [Environment.eval, h.eval]
    cases r <;> rfl
  run := by
    intro finish program stack
    rw [Expr.postorder, List.append_assoc, h.run]
    cases r <;> rfl

/-- The machine has both operands on its stack, the right one above the left one. -/
theorem Computes.binary {l r : Expr} {x y : Except Error Binary64} (hl : Computes l x)
    (hr : Computes r y) (op : Operator) (p : Position) :
    Computes (.binary op l r p)
      (x >>= fun left => y >>= fun right => Value.applyNumbers op left right p) where
  zeroDivisorOnly := hl.zeroDivisorOnly.bind (fun left =>
    hr.zeroDivisorOnly.bind (fun right => zeroDivisorOnly_applyNumbers op left right p))
  eval := by
    intro env
    rw [Environment.eval, hl.eval, hr.eval]
    cases x with
    | error err => rfl
    | ok left => cases y <;> rfl
  run := by
    intro finish program stack
    rw [Expr.postorder, List.append_assoc, List.append_assoc, hl.run]
    cases x with
    | error err => rfl
    | ok left =>
      rw [ok_bind, hr.run]
      cases y with
      | error err => rfl
      | ok right =>
        have hstep : step finish ⟨.apply op, p⟩ (right :: left :: stack)
            = Value.applyNumbers op left right p >>= fun z => .ok (z :: stack) := rfl
        rw [ok_bind, ok_bind, ok_bind, List.cons_append, List.nil_append, runOn, hstep]
        cases Value.applyNumbers op left right p <;> rfl

/-- **The machine agrees with the tree**, by induction on a tree of numbers. -/
theorem computes_of_isGround : ∀ {e : Expr}, e.isGround = true → ∃ r, Computes e r
  | .number x p, _ => ⟨_, computes_number x p⟩
  | .negate e p, hground => by
    obtain ⟨r, he⟩ := computes_of_isGround (e := e) hground
    exact ⟨_, he.negate p⟩
  | .binary op l r p, hground => by
    obtain ⟨hgl, hgr⟩ := Bool.and_eq_true_iff.mp hground
    obtain ⟨x, hl⟩ := computes_of_isGround hgl
    obtain ⟨y, hr⟩ := computes_of_isGround hgr
    exact ⟨_, hl.binary hr op p⟩

/-- The machine and the tree have one outcome for the lexemes of a tree of numbers. -/
theorem evaluate_of_reads {text : Text} {origin : Position} {e : Expr} {body rest : List Lexeme}
    (hlex : Token.lex origin text = .ok (body ++ rest)) (h : Expr.Reads 1 e body)
    (hground : e.isGround = true)
    (hrest : rest = [] ∨ ∃ p more, rest = ⟨.endOfInput, p⟩ :: more) :
    ZeroDivisorOnly (evaluate text origin) ∧
      ∀ env : Environment, env.eval e = (evaluate text origin).map .scalar := by
  obtain ⟨r, hcomputes⟩ := computes_of_isGround hground
  have hr : evaluate text origin = r := by
    have hrun := hcomputes.run (origin.advance (Text.byteLength text)) [] []
    rw [List.append_nil] at hrun
    unfold evaluate run
    rw [hlex, ok_bind, ofLexemes_of_reads h hground hrest, ok_bind, hrun]
    cases r <;> rfl
  rw [hr]
  exact ⟨hcomputes.zeroDivisorOnly, hcomputes.eval⟩

/-! ## 5. Whole texts -/

/-- **The postfix route is the tree.**  If the tree of a text has only numbers, negations and
operators, the lexemes of the text convert to that tree in postfix order, position by position.
So the machine has the outcome of the tree in every environment, and it fails for no other reason
than a zero divisor. -/
theorem postorder_of_parse {text : Text} {origin : Position} {e : Expr}
    (hparse : Expr.parse text origin = .ok e) (hground : e.isGround = true) :
    (Token.lex origin text >>= ofLexemes) = .ok e.postorder ∧
      (∀ env : Environment, env.eval e = (evaluate text origin).map .scalar) ∧
      ZeroDivisorOnly (evaluate text origin) := by
  obtain ⟨lexemes, hlex, htree⟩ := bind_eq_ok hparse
  obtain ⟨body, rest, rfl, hreads, hrest⟩ := Expr.reads_of_ofLexemes htree
  obtain ⟨hzero, heval⟩ := evaluate_of_reads hlex hreads hground hrest
  refine ⟨?_, heval, hzero⟩
  rw [hlex, ok_bind]
  exact ofLexemes_of_reads hreads hground hrest

namespace Example

/-- The number that a digit writes. -/
def digit (c : Char) : Binary64 := Numeral.value ⟨[c], none⟩

/-- The tree of `1%-(2-2)`. -/
def remainder : Expr :=
  .binary .mod (.number (digit '1') ⟨1, 1⟩)
    (.negate (.binary .sub (.number (digit '2') ⟨1, 5⟩) (.number (digit '2') ⟨1, 7⟩) ⟨1, 6⟩) ⟨1, 3⟩)
    ⟨1, 2⟩

theorem lex_remainder : Token.lex ⟨1, 1⟩ "1%-(2-2)".toList = .ok
    [⟨.number (digit '1'), ⟨1, 1⟩⟩, ⟨.operator .mod, ⟨1, 2⟩⟩, ⟨.operator .sub, ⟨1, 3⟩⟩,
      ⟨.openParen, ⟨1, 4⟩⟩, ⟨.number (digit '2'), ⟨1, 5⟩⟩, ⟨.operator .sub, ⟨1, 6⟩⟩,
      ⟨.number (digit '2'), ⟨1, 7⟩⟩, ⟨.closeParen, ⟨1, 8⟩⟩, ⟨.endOfInput, ⟨1, 9⟩⟩] := by
  decide +kernel

theorem parse_remainder : Expr.parse "1%-(2-2)".toList ⟨1, 1⟩ = .ok remainder := by
  unfold Expr.parse Expr.parseWithin
  rw [lex_remainder]
  rfl

/-- The negation leaves the stack of waiting operators before the remainder, and behind the
difference that it applies to. -/
theorem postorder_remainder :
    Expr.parse "1%-(2-2)".toList ⟨1, 1⟩ = .ok remainder ∧ remainder.isGround = true ∧
      (Token.lex ⟨1, 1⟩ "1%-(2-2)".toList >>= ofLexemes) = .ok
        [⟨.push (digit '1'), ⟨1, 1⟩⟩, ⟨.push (digit '2'), ⟨1, 5⟩⟩, ⟨.push (digit '2'), ⟨1, 7⟩⟩,
          ⟨.apply .sub, ⟨1, 6⟩⟩, ⟨.negate, ⟨1, 3⟩⟩, ⟨.apply .mod, ⟨1, 2⟩⟩] :=
  ⟨parse_remainder, rfl, (postorder_of_parse parse_remainder rfl).1⟩

end Example
end Postfix
end Abacus
