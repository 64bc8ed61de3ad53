/-
# How deep the factors of a text lie, told from its tokens

A factor lies inside every open parenthesis, of a group or of a call, and inside every minus sign that
waits for it.  Both can be counted while the tokens are read from left to right, without a tree and
without a grammar: an open parenthesis counts until it is closed, and a minus sign in front of an
operand counts until that operand is complete, which an operator, a comma or a closing parenthesis
tells.  `factorDepths` lists for every factor how many constructs it lies inside.

The written forms that nest to a depth, `ReadsWithin n`, are defined by the grammar.  They are exactly
the written forms whose factors all lie inside at most `n` constructs.  For one direction the depths are
found by induction on how deeply a form nests, for the other one a written form is taken apart and the
depths say how deeply its parts nest.  Both read a form in the middle of a text: the factors in it lie
as deep as by themselves and the depth of the place more (`Encloses`).

Main statements:

* `Encloses.enclosed`, `Encloses.joined`: the depths in parentheses and in a chain;
* `readsWithin_iff`: a written form nests to the depth of its deepest factor.
-/
import Abacus.Proofs.Expr.Nesting

namespace Abacus
namespace Expr

/-! ## 1. Counting constructs -/

/-- What comes next in an expression. -/
inductive Awaited where
  /-- An operand inside so many constructs, or a minus sign in front of it. -/
  | operand (depth : Nat)
  /-- What stands behind an operand inside so many constructs: arguments, an operator, a comma or a
  closing parenthesis. -/
  | behind (depth : Nat)
  /-- The rest of a literal, which has so many brackets open inside its own. -/
  | literal (brackets : Nat)

/-- A place between two tokens. -/
structure Place where
  /-- For each open parenthesis, from the innermost one outwards, how many constructs an operand behind
  it lies inside. -/
  floors : List Nat
  /-- What comes next. -/
  awaited : Awaited

namespace Place

/-- How many constructs an operand behind an operator or a comma lies inside. -/
def floor (place : Place) : Nat := place.floors.headD 0

/-- Behind a parenthesis that opens: operands lie inside so many constructs. -/
def enter (place : Place) (depth : Nat) : Place := ⟨depth :: place.floors, .operand depth⟩

/-- Behind a parenthesis that closes. -/
def leave (place : Place) : Place :=
  ⟨place.floors.tail, .behind (place.floors.tail.headD 0)⟩

/-- The place behind the next token. -/
def next (place : Place) (t : Token) : Place :=
  match place.awaited, t with
  | .operand depth, .operator _ => ⟨place.floors, .operand (depth + 1)⟩
  | .operand depth, .openParen => place.enter (depth + 1)
  | .operand _, .openBracket => ⟨place.floors, .literal 0⟩
  | .operand _, .closeParen => place.leave
  | .operand depth, _ => ⟨place.floors, .behind depth⟩
  | .behind depth, .openParen => place.enter (depth + 1)
  | .behind _, .closeParen => place.leave
  | .behind _, _ => ⟨place.floors, .operand place.floor⟩
  | .literal brackets, .openBracket => ⟨place.floors, .literal (brackets + 1)⟩
  | .literal (brackets + 1), .closeBracket => ⟨place.floors, .literal brackets⟩
  | .literal 0, .closeBracket => ⟨place.floors, .behind place.floor⟩
  | .literal _, _ => place

/-- If a factor starts with the next token, how many constructs it lies inside.  A closing parenthesis
where an operand could be ends arguments that there are none of. -/
def factor? (place : Place) (t : Token) : Option Nat :=
  match place.awaited, t with
  | .operand _, .closeParen => none
  | .operand depth, _ => some depth
  | _, _ => none

/-- The depths of the factors that start behind a place. -/
def depths : Place → List Token → List Nat
  | _, [] => []
  | place, t :: ts => (place.factor? t).toList ++ depths (place.next t) ts

end Place

/-- For every factor among the tokens, in source order, how many constructs it lies inside. -/
def factorDepths (ts : List Token) : List Nat := Place.depths ⟨[], .operand 0⟩ ts

open Place (depths)

/-- In `-(1+f(2))` the negation is not inside anything, the group is inside the minus sign, the sum is
inside both, and so is the call, whose argument is inside a third construct. -/
example : factorDepths [.operator .sub, .openParen, .number .one, .operator .add, .name ['f'],
    .openParen, .number .one, .closeParen, .closeParen, .endOfInput] = [0, 1, 2, 2, 3] := rfl

/-! ## 2. Literals -/

/-- The tokens stand inside a literal and open and close their own brackets. -/
def Skipped (ls : List Lexeme) : Prop :=
  ∀ floors brackets rest, depths ⟨floors, .literal brackets⟩ (tokens ls ++ rest)
    = depths ⟨floors, .literal brackets⟩ rest

section Literals

variable {α : Type} {item : α → List Lexeme → Prop} {xs : List α} {ls ls' : List Lexeme}

theorem Skipped.append (h : Skipped ls) (h' : Skipped ls') : Skipped (ls ++ ls') := by
  intro floors brackets rest
  rw [tokens_append, List.append_assoc, h, h']

theorem Skipped.comma (h : Skipped ls) (p : Position) : Skipped (⟨.comma, p⟩ :: ls) := by
  intro floors brackets rest
  exact h floors brackets rest

/-- Tokens up to a closing bracket, which closes one bracket more than they open. -/
theorem Skipped.bracketed (h : Skipped ls) (p q : Position) :
    Skipped (⟨.openBracket, p⟩ :: (ls ++ [⟨.closeBracket, q⟩])) := by
  intro floors brackets rest
  rw [tokens_cons, tokens_append, List.cons_append, List.append_assoc]
  exact h floors (brackets + 1) _

theorem Separated.skipped (h : Separated item xs ls) (hitem : ∀ x ls, item x ls → Skipped ls) :
    Skipped ls := by
  induction h with
  | one hx => exact hitem _ _ hx
  | more hx _ ih => exact (hitem _ _ hx).append (ih.comma _)

/-- The tokens of a list up to its closing bracket. -/
theorem Listed.exists_skipped (h : Listed item .closeBracket xs ls)
    (hitem : ∀ x ls, item x ls → Skipped ls) :
    ∃ inner p, ls = inner ++ [⟨.closeBracket, p⟩] ∧ Skipped inner := by
  cases h with
  | empty => exact ⟨[], _, rfl, fun _ _ _ => rfl⟩
  | filled h => exact ⟨_, _, rfl, h.skipped hitem⟩

theorem Signed.skipped {x : Binary64} (h : Signed x ls) : Skipped ls := by
  cases h with
  | plain => exact fun _ _ _ => rfl
  | minus => exact fun _ _ _ => rfl

theorem Row.skipped {xs : List Binary64} (h : Row xs ls) : Skipped ls := by
  cases h with
  | row h =>
    obtain ⟨inner, p, rfl, hinner⟩ := h.exists_skipped (fun _ _ hx => hx.skipped)
    exact hinner.bracketed _ _

end Literals

/-! ## 3. Parts of a text -/

/-- Where an operand of the level `k` is awaited, the lexemes have factors at given depths, counted from
there, and are an operand.  Below the level of factors the operand is the first one behind a parenthesis
or an operator. -/
def Encloses (k : Nat) (ls : List Lexeme) (ds : List Nat) : Prop :=
  ∀ floors depth rest, (k < 3 → depth = floors.headD 0) → ∃ depth',
    depths ⟨floors, .operand depth⟩ (tokens ls ++ rest)
      = ds.map (depth + ·) ++ depths ⟨floors, .behind depth'⟩ rest

section Parts

variable {k j : Nat} {ls ls' : List Lexeme} {ds ds' : List Nat} {p q : Position}

theorem encloses_number (k : Nat) (x : Binary64) (p : Position) :
    Encloses k [⟨.number x, p⟩] [0] :=
  fun _ depth _ _ => ⟨depth, rfl⟩

theorem encloses_name (k : Nat) (text : Text) (p : Position) : Encloses k [⟨.name text, p⟩] [0] :=
  fun _ depth _ _ => ⟨depth, rfl⟩

/-- A literal is one factor. -/
theorem encloses_literal (k : Nat) (h : Skipped ls) (p q : Position) :
    Encloses k (⟨.openBracket, p⟩ :: (ls ++ [⟨.closeBracket, q⟩])) [0] := by
  intro floors depth rest _
  refine ⟨floors.headD 0, ?_⟩
  rw [tokens_cons, tokens_append, List.cons_append, List.append_assoc]
  exact congrArg (depth :: ·) (h floors 0 _)

/-- The number of constructs is counted from the outside. -/
theorem map_add_one_add (depth : Nat) (ds : List Nat) :
    ds.map (depth + 1 + ·) = (ds.map (1 + ·)).map (depth + ·) := by
  simp [Nat.add_assoc]

/-- A minus sign encloses its operand. -/
theorem Encloses.negate (h : Encloses 3 ls ds) :
    Encloses k (⟨.operator .sub, p⟩ :: ls) (0 :: ds.map (1 + ·)) := by
  intro floors depth rest _
  obtain ⟨depth', hls⟩ := h floors (depth + 1) rest (fun hlt => absurd hlt (by decide))
  refine ⟨depth', ?_⟩
  rw [map_add_one_add] at hls
  exact congrArg (depth :: ·) hls

/-- What is behind a parenthesis that opens lies inside one construct more. -/
theorem Encloses.behind_paren (h : Encloses 1 ls ds) (floors : List Nat) (depth : Nat)
    (rest : List Token) :
    depths ⟨(depth + 1) :: floors, .operand (depth + 1)⟩ (tokens ls ++ .closeParen :: rest)
      = (ds.map (1 + ·)).map (depth + ·) ++ depths ⟨floors, .behind (floors.headD 0)⟩ rest := by
  obtain ⟨depth', hls⟩ := h ((depth + 1) :: floors) (depth + 1) (.closeParen :: rest) (fun _ => rfl)
  rw [hls, map_add_one_add]
  rfl

/-- Parentheses enclose what is in them. -/
theorem Encloses.enclosed (h : Encloses 1 ls ds) :
    Encloses k (⟨.openParen, p⟩ :: (ls ++ [⟨.closeParen, q⟩])) (0 :: ds.map (1 + ·)) := by
  intro floors depth rest _
  refine ⟨floors.headD 0, ?_⟩
  rw [tokens_cons, tokens_append, List.cons_append, List.append_assoc]
  exact congrArg (depth :: ·) (h.behind_paren floors depth rest)

/-- So do the parentheses of a call. -/
theorem Encloses.call (h : Encloses 1 ls ds) (text : Text) {r : Position} :
    Encloses k (⟨.name text, p⟩ :: ⟨.openParen, q⟩ :: (ls ++ [⟨.closeParen, r⟩]))
      (0 :: ds.map (1 + ·)) := by
  intro floors depth rest _
  refine ⟨floors.headD 0, ?_⟩
  rw [tokens_cons, tokens_cons, tokens_append, List.cons_append, List.cons_append, List.append_assoc]
  exact congrArg (depth :: ·) (h.behind_paren floors depth rest)

theorem encloses_emptyCall (k : Nat) (text : Text) (p q r : Position) :
    Encloses k [⟨.name text, p⟩, ⟨.openParen, q⟩, ⟨.closeParen, r⟩] [0] :=
  fun floors _ _ _ => ⟨floors.headD 0, rfl⟩

/-- **Operators and commas do not enclose.**  The operand behind them is the first one again. -/
theorem Encloses.joined {t : Token} (ht : t = .comma ∨ ∃ op, t = .operator op) (hk : k < 3)
    (h : Encloses k ls ds) (h' : Encloses j ls' ds') :
    Encloses k (ls ++ ⟨t, p⟩ :: ls') (ds ++ ds') := by
  intro floors depth rest hdepth
  obtain ⟨behind, hls⟩ := h floors depth (t :: (tokens ls' ++ rest)) hdepth
  obtain ⟨behind', hls'⟩ := h' floors (floors.headD 0) rest (fun _ => rfl)
  have hnext : depths ⟨floors, .behind behind⟩ (t :: (tokens ls' ++ rest))
      = depths ⟨floors, .operand (floors.headD 0)⟩ (tokens ls' ++ rest) := by
    rcases ht with rfl | ⟨op, rfl⟩ <;> rfl
  refine ⟨behind', ?_⟩
  rw [tokens_append, tokens_cons, List.append_assoc, List.cons_append, hls, hnext, hls',
    List.map_append, List.append_assoc, hdepth hk]

/-- An operand of a level can stand where one of a weaker level is awaited. -/
theorem Encloses.weaken (hjk : j ≤ k) (h : Encloses k ls ds) : Encloses j ls ds :=
  fun floors depth rest hdepth => h floors depth rest (fun hk => hdepth (Nat.lt_of_le_of_lt hjk hk))

/-- The depths are those of the factors. -/
theorem Encloses.factorDepths_eq (h : Encloses 1 ls ds) (p : Position) :
    factorDepths (tokens (ls ++ [⟨.endOfInput, p⟩])) = ds := by
  obtain ⟨depth', hls⟩ := h [] 0 [.endOfInput] (fun _ => rfl)
  rw [factorDepths, tokens_append, tokens_cons, tokens_nil, hls]
  simp [depths, Place.factor?]

end Parts

/-! ## 4. Written forms that nest to a depth -/

section Within

variable {n k : Nat} {e : Expr} {es : List Expr} {ls : List Lexeme}

theorem forall_mem_enclosed {ds : List Nat} :
    (∀ d ∈ 0 :: ds.map (1 + ·), d ≤ n + 1) ↔ ∀ d ∈ ds, d ≤ n := by
  simp only [List.forall_mem_cons, List.forall_mem_map]
  constructor
  · rintro ⟨-, h⟩ d hd
    have hle := h d hd
    omega
  · intro h
    refine ⟨Nat.zero_le _, fun d hd => ?_⟩
    have hle := h d hd
    omega

/-- The lexemes have factors that all lie inside at most `n` constructs. -/
def EnclosesWithin (n k : Nat) (ls : List Lexeme) : Prop :=
  ∃ ds, Encloses k ls ds ∧ ∀ d ∈ ds, d ≤ n

theorem EnclosesWithin.of_zero (h : Encloses k ls [0]) : EnclosesWithin n k ls :=
  ⟨_, h, by simp⟩

theorem Separated.enclosesWithin (h : Separated (fun _ ls => EnclosesWithin n 1 ls) es ls) :
    EnclosesWithin n 1 ls := by
  induction h with
  | one hx => exact hx
  | more hx _ ih =>
    obtain ⟨ds, hds, hle⟩ := hx
    obtain ⟨ds', hds', hle'⟩ := ih
    exact ⟨ds ++ ds', hds.joined (Or.inl rfl) (by decide) hds', List.forall_mem_append.mpr ⟨hle, hle'⟩⟩

/-- One level of nesting: a factor inside a call, a group or a negation is inside one more construct. -/
theorem enclosesWithin_of_over {inner : Nat → Expr → List Lexeme → Prop}
    (hinner : ∀ k e ls, inner k e ls → ∃ m, n = m + 1 ∧ EnclosesWithin m k ls)
    (h : ReadsOver inner k e ls) : EnclosesWithin n k ls := by
  induction h with
  | @number k x p => exact .of_zero (encloses_number k x p)
  | @name k text p => exact .of_zero (encloses_name k text p)
  | @vector k xs ls p h =>
    obtain ⟨elements, q, rfl, helements⟩ := h.exists_skipped (fun _ _ hx => hx.skipped)
    exact .of_zero (encloses_literal k helements p q)
  | @matrix k rows ls p q h =>
    exact .of_zero (encloses_literal k (h.skipped (fun _ _ hx => hx.skipped)) p q)
  | @call k text es ls p q h =>
    cases h with
    | empty => exact .of_zero (encloses_emptyCall k text p q _)
    | filled h =>
      obtain ⟨_, _, _, hfirst, -⟩ := h.exists_first
      obtain ⟨m, rfl, -⟩ := hinner _ _ _ hfirst
      have hwithin : ∀ e ls, inner 1 e ls → EnclosesWithin m 1 ls := by
        intro e ls he
        obtain ⟨m', hm', hls⟩ := hinner _ _ _ he
        obtain rfl : m = m' := Nat.succ.inj hm'
        exact hls
      obtain ⟨ds, hds, hle⟩ := (h.imp hwithin).enclosesWithin
      exact ⟨_, hds.call text, forall_mem_enclosed.mpr hle⟩
  | @group k e ls p q h =>
    obtain ⟨m, rfl, ds, hds, hle⟩ := hinner _ _ _ h
    exact ⟨_, hds.enclosed, forall_mem_enclosed.mpr hle⟩
  | @negate k e ls p h =>
    obtain ⟨m, rfl, ds, hds, hle⟩ := hinner _ _ _ h
    exact ⟨_, hds.negate, forall_mem_enclosed.mpr hle⟩
  | @binary k op l r ls rs p hk hl hr ihl ihr =>
    have hop : op.precedence < 3 := by cases op <;> decide
    obtain ⟨ds, hds, hle⟩ := ihl
    obtain ⟨ds', hds', hle'⟩ := ihr
    refine ⟨ds ++ ds', ?_, List.forall_mem_append.mpr ⟨hle, hle'⟩⟩
    exact (hds.joined (Or.inr ⟨op, rfl⟩) hop hds').weaken hk

/-- What nests to a depth has its factors within that depth. -/
theorem ReadsWithin.enclosesWithin (h : ReadsWithin n k e ls) : EnclosesWithin n k ls := by
  induction n generalizing k e ls with
  | zero => exact enclosesWithin_of_over (fun _ _ _ hfalse => hfalse.elim) h
  | succ n ih => exact enclosesWithin_of_over (fun _ _ _ hinner => ⟨n, rfl, ih hinner⟩) h

end Within

/-! ## 5. Written forms by the depths of their factors -/

section Depths

variable {n k : Nat} {e : Expr} {es : List Expr} {ls : List Lexeme}

/-- The lexemes have factors at some depths, and they nest as deeply as these say. -/
def Measured (k : Nat) (ls : List Lexeme) (within : Nat → Prop) : Prop :=
  ∃ ds, ds ≠ [] ∧ Encloses k ls ds ∧ ∀ n, (∀ d ∈ ds, d ≤ n) → within n

theorem Measured.of_zero {within : Nat → Prop} (h : Encloses k ls [0]) (hwithin : ∀ n, within n) :
    Measured k ls within :=
  ⟨[0], by simp, h, fun n _ => hwithin n⟩

/-- A construct around lexemes that nests one level more than they do. -/
theorem Measured.enclosed {j : Nat} {whole : List Lexeme} {inside within : Nat → Prop}
    (h : Measured k ls inside)
    (hwhole : ∀ ds, Encloses k ls ds → Encloses j whole (0 :: ds.map (1 + ·)))
    (hwithin : ∀ n, inside n → within (n + 1)) : Measured j whole within := by
  obtain ⟨ds, hne, hds, hinside⟩ := h
  refine ⟨_, by simp, hwhole ds hds, ?_⟩
  intro n hle
  obtain ⟨d, hd⟩ := List.exists_mem_of_ne_nil ds hne
  have hpos : 1 + d ≤ n := hle _ (List.mem_cons_of_mem _ (List.mem_map_of_mem hd))
  obtain ⟨n, rfl⟩ : ∃ m, n = m + 1 := ⟨n - 1, by omega⟩
  exact hwithin n (hinside n (forall_mem_enclosed.mp hle))

/-- Lexemes on both sides of an operator or a comma. -/
theorem Measured.joined {j : Nat} {ls' : List Lexeme} {t : Token} {p : Position}
    {left right within : Nat → Prop} (ht : t = .comma ∨ ∃ op, t = .operator op) (hk : k < 3)
    (h : Measured k ls left) (h' : Measured j ls' right)
    (hwithin : ∀ n, left n → right n → within n) : Measured k (ls ++ ⟨t, p⟩ :: ls') within := by
  obtain ⟨ds, hne, hds, hleft⟩ := h
  obtain ⟨ds', -, hds', hright⟩ := h'
  refine ⟨ds ++ ds', by simp [hne], hds.joined ht hk hds', ?_⟩
  intro n hle
  obtain ⟨hle, hle'⟩ := List.forall_mem_append.mp hle
  exact hwithin n (hleft n hle) (hright n hle')

theorem Measured.weaken {j : Nat} {within : Nat → Prop} (hjk : j ≤ k) (h : Measured k ls within) :
    Measured j ls within := by
  obtain ⟨ds, hne, hds, hwithin⟩ := h
  exact ⟨ds, hne, hds.weaken hjk, hwithin⟩

theorem Separated.measured
    (h : Separated (fun e ls => Measured 1 ls (fun n => ReadsWithin n 1 e ls)) es ls) :
    Measured 1 ls (fun n => Separated (ReadsWithin n 1) es ls) := by
  induction h with
  | one hx =>
    obtain ⟨ds, hne, hds, hwithin⟩ := hx
    exact ⟨ds, hne, hds, fun n hle => .one (hwithin n hle)⟩
  | more hx _ ih => exact hx.joined (Or.inl rfl) (by decide) ih (fun _ => .more)

/-- **A written form nests as deeply as its factors lie.** -/
theorem Reads.measured (h : Reads k e ls) : Measured k ls (fun n => ReadsWithin n k e ls) := by
  induction h using Reads.induction with
  | number k x p => exact .of_zero (encloses_number k x p) (fun n => .number n k x p)
  | name k text p => exact .of_zero (encloses_name k text p) (fun n => .name n k text p)
  | vector k xs ls p h =>
    obtain ⟨elements, q, rfl, helements⟩ := h.exists_skipped (fun _ _ hx => hx.skipped)
    exact .of_zero (encloses_literal k helements p q) (fun n => .vector n k h)
  | matrix k rows ls p q h =>
    have hrows := h.skipped (fun _ _ hx => hx.skipped)
    exact .of_zero (encloses_literal k hrows p q) (fun n => .matrix n k h)
  | call k text es ls p q _ h =>
    cases h with
    | empty => exact .of_zero (encloses_emptyCall k text p q _) (fun n => .emptyCall n k text)
    | filled h =>
      have hargs := (h.imp (fun _ _ he => he.2)).measured
      exact hargs.enclosed (fun _ hds => hds.call text) (fun _ hn => .of_over (.call (.filled hn)))
  | group k e ls p q _ ih =>
    exact ih.enclosed (fun _ hds => hds.enclosed) (fun _ hn => .of_over (.group hn))
  | negate k e ls p _ ih =>
    exact ih.enclosed (fun _ hds => hds.negate) (fun _ hn => .of_over (.negate hn))
  | binary k op l r ls rs p hk _ _ ihl ihr =>
    have hop : op.precedence < 3 := by cases op <;> decide
    have hboth : Measured op.precedence (ls ++ ⟨.operator op, p⟩ :: rs)
        (fun n => ReadsWithin n k (.binary op l r p) (ls ++ ⟨.operator op, p⟩ :: rs)) :=
      ihl.joined (Or.inr ⟨op, rfl⟩) hop ihr (fun n hl hr => ReadsWithin.binary hk hl hr)
    exact hboth.weaken hk

/-- **A written form nests to a depth** exactly if none of its factors lies deeper. -/
theorem readsWithin_iff (h : Reads 1 e ls) (n : Nat) (p : Position) :
    ReadsWithin n 1 e ls ↔ ∀ d ∈ factorDepths (tokens (ls ++ [⟨.endOfInput, p⟩])), d ≤ n := by
  constructor
  · intro hwithin
    obtain ⟨ds, hds, hle⟩ := hwithin.enclosesWithin
    rwa [hds.factorDepths_eq p]
  · intro hle
    obtain ⟨ds, -, hds, hwithin⟩ := h.measured
    rw [hds.factorDepths_eq p] at hle
    exact hwithin n hle

end Depths

end Expr
end Abacus
