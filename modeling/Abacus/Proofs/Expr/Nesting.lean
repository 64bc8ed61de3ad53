/-
# How deeply a written form nests

A factor lies inside a construct for every parenthesis that is open and every minus sign that waits
in front of it.  `ReadsWithin n` are the written forms in which no factor lies inside more than `n`
constructs.  The parser counts these constructs on the way down, so this is the measure by which its
limit on the depth has to be judged; the height of the tree is another one, because parentheses leave
no trace in it and operators of one level do not nest.

The level is passed through unchanged by operators.  So `ReadsOver inner` is the grammar of one level
of nesting: what stands in parentheses or behind a minus sign is left to `inner`, and the levels are
stacked on top of it.

Main statements:

* `ReadsWithin.reads`: such a form is a written form;
* `Reads.exists_within`: every written form nests to some depth.
-/
import Abacus.Proofs.Expr.Grammar

namespace Abacus
namespace Expr

/-! ## 1. One level of nesting -/

/-- The grammar of expressions, with `inner` for what stands inside a call, a group or a negation. -/
inductive ReadsOver (inner : Nat → Expr → List Lexeme → Prop) :
    Nat → Expr → List Lexeme → Prop
  | number {k : Nat} {x : Binary64} {p : Position} :
      ReadsOver inner k (.number x p) [⟨.number x, p⟩]
  | name {k : Nat} {text : Text} {p : Position} :
      ReadsOver inner k (.name text p) [⟨.name text, p⟩]
  | vector {k : Nat} {xs : List Binary64} {ls : List Lexeme} {p : Position} :
      Listed Signed .closeBracket xs ls →
        ReadsOver inner k (.vector xs p) (⟨.openBracket, p⟩ :: ls)
  | matrix {k : Nat} {rows : List (List Binary64)} {ls : List Lexeme} {p q : Position} :
      Separated Row rows ls →
        ReadsOver inner k (.matrix rows p) (⟨.openBracket, p⟩ :: (ls ++ [⟨.closeBracket, q⟩]))
  | call {k : Nat} {text : Text} {es : List Expr} {ls : List Lexeme} {p q : Position} :
      Listed (inner 1) .closeParen es ls →
        ReadsOver inner k (.call text es p) (⟨.name text, p⟩ :: ⟨.openParen, q⟩ :: ls)
  | group {k : Nat} {e : Expr} {ls : List Lexeme} {p q : Position} :
      inner 1 e ls → ReadsOver inner k e (⟨.openParen, p⟩ :: (ls ++ [⟨.closeParen, q⟩]))
  | negate {k : Nat} {e : Expr} {ls : List Lexeme} {p : Position} :
      inner 3 e ls → ReadsOver inner k (.negate e p) (⟨.operator .sub, p⟩ :: ls)
  | binary {k : Nat} {op : Operator} {l r : Expr} {ls rs : List Lexeme} {p : Position} :
      k ≤ op.precedence → ReadsOver inner op.precedence l ls →
        ReadsOver inner (op.precedence + 1) r rs →
          ReadsOver inner k (.binary op l r p) (ls ++ ⟨.operator op, p⟩ :: rs)

/-- The written forms in which no factor lies inside more than `n` constructs. -/
def ReadsWithin : Nat → Nat → Expr → List Lexeme → Prop
  | 0 => ReadsOver (fun _ _ _ => False)
  | n + 1 => ReadsOver (ReadsWithin n)

section Lists

variable {α : Type} {item item' : α → List Lexeme → Prop} {closing : Token} {xs : List α}
  {ls : List Lexeme}

theorem Separated.imp (himp : ∀ x ls, item x ls → item' x ls) (h : Separated item xs ls) :
    Separated item' xs ls := by
  induction h with
  | one hx => exact .one (himp _ _ hx)
  | more hx _ ih => exact .more (himp _ _ hx) ih

theorem Listed.imp (himp : ∀ x ls, item x ls → item' x ls) (h : Listed item closing xs ls) :
    Listed item' closing xs ls := by
  cases h with
  | empty => exact .empty
  | filled h => exact .filled (h.imp himp)

end Lists

section Over

variable {inner inner' : Nat → Expr → List Lexeme → Prop} {k : Nat} {e : Expr} {ls : List Lexeme}

theorem ReadsOver.imp (himp : ∀ k e ls, inner k e ls → inner' k e ls)
    (h : ReadsOver inner k e ls) : ReadsOver inner' k e ls := by
  induction h with
  | number => exact .number
  | name => exact .name
  | vector h => exact .vector h
  | matrix h => exact .matrix h
  | call h => exact .call (h.imp (himp 1))
  | group h => exact .group (himp _ _ _ h)
  | negate h => exact .negate (himp _ _ _ h)
  | binary hk _ _ ihl ihr => exact .binary hk ihl ihr

/-- What stands at a level stands at the weaker ones. -/
theorem ReadsOver.mono {j : Nat} (hle : j ≤ k) (h : ReadsOver inner k e ls) :
    ReadsOver inner j e ls := by
  cases h with
  | number => exact .number
  | name => exact .name
  | vector h => exact .vector h
  | matrix h => exact .matrix h
  | call h => exact .call h
  | group h => exact .group h
  | negate h => exact .negate h
  | binary hk hl hr => exact .binary (Nat.le_trans hle hk) hl hr

theorem ReadsOver.reads (hinner : ∀ k e ls, inner k e ls → Reads k e ls)
    (h : ReadsOver inner k e ls) : Reads k e ls := by
  induction h with
  | number => exact .number
  | name => exact .name
  | vector h => exact .vector h
  | matrix h => exact .matrix h
  | call h => exact .call (h.imp (hinner 1))
  | group h => exact .group (hinner _ _ _ h)
  | negate h => exact .negate (hinner _ _ _ h)
  | binary hk _ _ ihl ihr => exact .binary hk ihl ihr

end Over

/-- Written forms are one level of nesting over written forms. -/
theorem Reads.over {k : Nat} {e : Expr} {ls : List Lexeme} (h : Reads k e ls) :
    ReadsOver Reads k e ls := by
  induction h using Reads.induction with
  | number => exact .number
  | name => exact .name
  | vector k xs ls p h => exact .vector h
  | matrix k rows ls p q h => exact .matrix h
  | call k text es ls p q h => exact .call h
  | group k e ls p q h => exact .group h
  | negate k e ls p h => exact .negate h
  | binary k op l r ls rs p hk _ _ ihl ihr => exact .binary hk ihl ihr

theorem ReadsOver.reads_self {k : Nat} {e : Expr} {ls : List Lexeme} (h : ReadsOver Reads k e ls) :
    Reads k e ls :=
  h.reads (fun _ _ _ hreads => hreads)

/-! ## 2. All levels of nesting -/

variable {n m k : Nat} {e : Expr} {ls : List Lexeme}

theorem ReadsWithin.of_over (h : ReadsOver (ReadsWithin n) k e ls) :
    ReadsWithin (n + 1) k e ls := h

/-- What nests to some depth nests within the greater ones. -/
theorem ReadsWithin.deeper (hle : n ≤ m) (h : ReadsWithin n k e ls) : ReadsWithin m k e ls := by
  induction n generalizing m k e ls with
  | zero =>
    cases m with
    | zero => exact h
    | succ m => exact ReadsOver.imp (fun _ _ _ hfalse => hfalse.elim) h
  | succ n ih =>
    obtain ⟨m, rfl⟩ : ∃ j, m = j + 1 := ⟨m - 1, by omega⟩
    exact ReadsOver.imp (fun _ _ _ hinner => ih (by omega) hinner) h

/-- Such a form is a written form. -/
theorem ReadsWithin.reads (h : ReadsWithin n k e ls) : Reads k e ls := by
  induction n generalizing k e ls with
  | zero => exact ReadsOver.reads (fun _ _ _ hfalse => hfalse.elim) h
  | succ n ih => exact ReadsOver.reads (fun _ _ _ hinner => ih hinner) h

theorem ReadsWithin.mono {j : Nat} (hle : j ≤ k) (h : ReadsWithin n k e ls) :
    ReadsWithin n j e ls := by
  cases n with
  | zero => exact ReadsOver.mono hle h
  | succ n => exact ReadsOver.mono hle h

theorem ReadsWithin.number (n k : Nat) (x : Binary64) (p : Position) :
    ReadsWithin n k (.number x p) [⟨.number x, p⟩] := by
  cases n <;> exact ReadsOver.number

theorem ReadsWithin.name (n k : Nat) (text : Text) (p : Position) :
    ReadsWithin n k (.name text p) [⟨.name text, p⟩] := by
  cases n <;> exact ReadsOver.name

theorem ReadsWithin.vector (n k : Nat) {xs : List Binary64} {ls : List Lexeme} {p : Position}
    (h : Listed Signed .closeBracket xs ls) :
    ReadsWithin n k (.vector xs p) (⟨.openBracket, p⟩ :: ls) := by
  cases n <;> exact ReadsOver.vector h

theorem ReadsWithin.matrix (n k : Nat) {rows : List (List Binary64)} {ls : List Lexeme}
    {p q : Position} (h : Separated Row rows ls) :
    ReadsWithin n k (.matrix rows p) (⟨.openBracket, p⟩ :: (ls ++ [⟨.closeBracket, q⟩])) := by
  cases n <;> exact ReadsOver.matrix h

theorem ReadsWithin.emptyCall (n k : Nat) (text : Text) {p q r : Position} :
    ReadsWithin n k (.call text [] p)
      [⟨.name text, p⟩, ⟨.openParen, q⟩, ⟨.closeParen, r⟩] := by
  cases n <;> exact ReadsOver.call .empty

/-- Operators do not nest. -/
theorem ReadsWithin.binary {op : Operator} {l r : Expr} {ls rs : List Lexeme} {p : Position}
    (hk : k ≤ op.precedence) (hl : ReadsWithin n op.precedence l ls)
    (hr : ReadsWithin n (op.precedence + 1) r rs) :
    ReadsWithin n k (.binary op l r p) (ls ++ ⟨.operator op, p⟩ :: rs) := by
  cases n with
  | zero => exact ReadsOver.binary hk hl hr
  | succ n => exact ReadsOver.binary hk hl hr

/-- The items of a list nest to a common depth. -/
theorem Separated.exists_within {es : List Expr} {ls : List Lexeme}
    (h : Separated (fun e ls => ∃ n, ReadsWithin n 1 e ls) es ls) :
    ∃ n, Separated (ReadsWithin n 1) es ls := by
  induction h with
  | one hx =>
    obtain ⟨n, hn⟩ := hx
    exact ⟨n, .one hn⟩
  | more hx _ ih =>
    obtain ⟨n, hn⟩ := hx
    obtain ⟨m, hm⟩ := ih
    have hm' := hm.imp (fun _ _ h => h.deeper (Nat.le_max_right n m))
    exact ⟨max n m, .more (hn.deeper (Nat.le_max_left n m)) hm'⟩

theorem Listed.exists_within {es : List Expr} {ls : List Lexeme}
    (h : Listed (fun e ls => ∃ n, ReadsWithin n 1 e ls) .closeParen es ls) :
    ∃ n, Listed (ReadsWithin n 1) .closeParen es ls := by
  cases h with
  | empty => exact ⟨0, .empty⟩
  | filled h =>
    obtain ⟨n, hn⟩ := h.exists_within
    exact ⟨n, .filled hn⟩

/-- **Every written form nests to some depth.** -/
theorem Reads.exists_within (h : Reads k e ls) : ∃ n, ReadsWithin n k e ls := by
  induction h using Reads.induction with
  | number k x p => exact ⟨0, .number 0 k x p⟩
  | name k text p => exact ⟨0, .name 0 k text p⟩
  | vector k xs ls p h => exact ⟨0, .vector 0 k h⟩
  | matrix k rows ls p q h => exact ⟨0, .matrix 0 k h⟩
  | call k text es ls p q _ h =>
    obtain ⟨n, hn⟩ := (h.imp (fun _ _ he => he.2)).exists_within
    exact ⟨n + 1, .of_over (.call hn)⟩
  | group k e ls p q _ ih =>
    obtain ⟨n, hn⟩ := ih
    exact ⟨n + 1, .of_over (.group hn)⟩
  | negate k e ls p _ ih =>
    obtain ⟨n, hn⟩ := ih
    exact ⟨n + 1, .of_over (.negate hn)⟩
  | binary k op l r ls rs p hk _ _ ihl ihr =>
    obtain ⟨n, hn⟩ := ihl
    obtain ⟨m, hm⟩ := ihr
    exact ⟨max n m, .binary hk (hn.deeper (Nat.le_max_left n m)) (hm.deeper (Nat.le_max_right n m))⟩

end Expr
end Abacus
