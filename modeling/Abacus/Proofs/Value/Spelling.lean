/-
# What is written for a value, token by token

`Spells cs ts` says that the text `cs` is cut into lexemes with the tokens `ts`, in front of any text
that does not continue a numeral.  The written form of a finite value in place of a name spells the
tokens of a literal, of a number, or of a sign or a quotient in parentheses (`Value.tokens`).  Only
finite values have one: an infinity is written with the letters of a name.

In the other direction, lexemes with these tokens are an operand wherever an operand may stand, and
the operand has the value, up to two collapses.  A fraction is written as a quotient of numbers,
which is a scalar, and a matrix without rows is written as a vector without elements.

Main statements:

* `spells_inPlace`: the written form of a finite value spells its tokens;
* `reads_of_tokens`: lexemes with these tokens are an operand with the collapsed value.
-/
import Abacus.Evaluation.Tree
import Abacus.Proofs.Expr.Grammar
import Abacus.Proofs.Token.Cuts

namespace Abacus

open Token (Cuts joins)

/-! ## 1. Spelling -/

/-- In front of any text that does not continue a numeral, the text is cut into the tokens. -/
def Spells (cs : Text) (ts : List Token) : Prop :=
  ∀ p rest, Numeral.Ends rest → ∃ ls q, Cuts p (cs ++ rest) ls q rest ∧ tokens ls = ts

section Spells

variable {cs ds : Text} {ts us : List Token}

theorem Spells.append (h : Spells cs ts) (h' : Spells ds us)
    (hends : ∀ rest, Numeral.Ends rest → Numeral.Ends (ds ++ rest)) :
    Spells (cs ++ ds) (ts ++ us) := by
  intro p rest hrest
  obtain ⟨ls, q, hcuts, rfl⟩ := h p (ds ++ rest) (hends rest hrest)
  obtain ⟨ls', r, hcuts', rfl⟩ := h' q rest hrest
  rw [List.append_assoc]
  exact ⟨ls ++ ls', r, hcuts.trans hcuts', tokens_append ls ls'⟩

/-- A token in front of a spelling. -/
theorem Spells.cons {c : Char} {t : Token} (h : Spells ds us) (hsmall : t.isTooLarge = false)
    (hscan : ∀ rest, Token.scan? (c :: (ds ++ rest)) = some (t, [c], ds ++ rest)) :
    Spells (c :: ds) (t :: us) := by
  intro p rest hrest
  obtain ⟨ls, q, hcuts, rfl⟩ := h (p.advance (Text.byteLength [c])) rest hrest
  exact ⟨_, q, .token (hscan rest) hsmall hcuts, tokens_cons t p ls⟩

theorem Spells.punctuation {c : Char} {t : Token} (h : Spells ds us)
    (hpunct : Token.punctuation? c = some t) : Spells (c :: ds) (t :: us) := by
  refine h.cons ?_ (fun rest => Token.scan?_punctuation hpunct _)
  unfold Token.punctuation? at hpunct
  split at hpunct <;> cases hpunct <;> rfl

theorem Spells.operator (op : Operator) {d : Char} (h : Spells (d :: ds) us)
    (hjoins : joins op.symbol d = false) :
    Spells (op.symbol :: d :: ds) (.operator op :: us) := by
  refine h.cons rfl (fun rest => Token.scan?_operator op ?_)
  intro d' hd'
  cases hd'
  exact hjoins

/-- A blank in front of a spelling. -/
theorem Spells.blank (h : Spells ds us) : Spells (' ' :: ds) us := by
  intro p rest hrest
  obtain ⟨ls, q, hcuts, hls⟩ := h (p.advance (Char.utf8Size ' ')) rest hrest
  exact ⟨ls, q, .gap rfl hcuts, hls⟩

/-- A text that spells tokens is cut into them. -/
theorem Spells.cuts (h : Spells cs ts) (p : Position) :
    ∃ ls q, Cuts p cs ls q [] ∧ tokens ls = ts := by
  have hcuts := h p [] (by rintro c ⟨⟩)
  rwa [List.append_nil] at hcuts

theorem spells_nil : Spells [] [] := fun p _ _ => ⟨[], p, .done, rfl⟩

end Spells

/-- A character that does not continue a numeral. -/
theorem ends_cons {c : Char} (hdigit : c.isDigit = false) (hpoint : c ≠ '.') (cs : Text) :
    Numeral.Ends (c :: cs) := by
  intro d hd
  cases hd
  exact ⟨hdigit, hpoint⟩

/-! ## 2. Numbers -/

namespace Binary64

/-- The tokens of a finite number: a minus sign for a negative one, and the number without sign. -/
def tokens (x : Binary64) : List Token :=
  if x.isNegative then [.operator .sub, .number (-x)] else [.number x]

end Binary64

namespace Magnitude

theorem spells_render (m : Magnitude) : Spells m.render [.number (.finite false m)] := by
  intro p rest hrest
  have hscan := Token.scan?_numeral m.proper_numeral hrest
  rw [m.text_numeral, m.value_numeral] at hscan
  exact ⟨_, _, .single hscan rfl, rfl⟩

end Magnitude

theorem isFree_of_numeral {d : Char} (h : d.isDigit = true ∨ d = '.') :
    Token.isFree d = true := by
  rcases h with hdigit | rfl
  · simp only [Token.isFree, Bool.and_eq_true, bne_iff_ne, ne_eq]
    refine ⟨⟨?_, ?_⟩, ?_⟩ <;> rintro rfl <;> cases hdigit
  · rfl

namespace Binary64

/-- The written form of a finite number spells its tokens. -/
theorem spells_render {x : Binary64} (h : x.isFinite = true) : Spells x.render x.tokens := by
  obtain ⟨s, m, rfl⟩ := exists_finite h
  cases s with
  | false => exact m.spells_render
  | true =>
    obtain ⟨d, ds, hd, hnumeral⟩ := m.render_eq_cons
    have hspells := m.spells_render
    rw [hd] at hspells
    have hminus := hspells.operator .sub (Token.joins_of_isFree (isFree_of_numeral hnumeral) _)
    rw [← hd] at hminus
    exact hminus

/-- The written form of a finite number joins no division in front of it. -/
theorem render_eq_cons {x : Binary64} (h : x.isFinite = true) :
    ∃ d ds, x.render = d :: ds ∧ joins Operator.div.symbol d = false := by
  obtain ⟨s, m, rfl⟩ := exists_finite h
  cases s with
  | false =>
    obtain ⟨d, ds, hd, hnumeral⟩ := m.render_eq_cons
    exact ⟨d, ds, hd, Token.joins_of_isFree (isFree_of_numeral hnumeral) _⟩
  | true => exact ⟨'-', m.render, rfl, rfl⟩

end Binary64

/-! ## 3. Lists -/

/-- The tokens of items with commas between them. -/
def commaTokens : List (List Token) → List Token
  | [] => []
  | [ts] => ts
  | ts :: tss => ts ++ .comma :: commaTokens tss

/-- The tokens of a list in brackets. -/
def bracketTokens (tss : List (List Token)) : List Token :=
  .openBracket :: (commaTokens tss ++ [.closeBracket])

section Lists

variable {α : Type} {text : α → Text} {toks : α → List Token}

/-- Items with a comma and a blank between them spell their tokens with commas between them. -/
theorem spells_commaJoin {xs : List α} (h : ∀ x ∈ xs, Spells (text x) (toks x)) :
    Spells (Text.commaJoin (xs.map text)) (commaTokens (xs.map toks)) := by
  induction xs with
  | nil => exact spells_nil
  | cons x xs ih =>
    obtain ⟨hx, hxs⟩ := List.forall_mem_cons.mp h
    cases xs with
    | nil => exact hx
    | cons y xs =>
      have hmore := ((ih hxs).blank).punctuation (c := ',') rfl
      exact hx.append hmore (fun rest _ => ends_cons rfl (by decide) _)

theorem spells_bracketed {xs : List α} (h : ∀ x ∈ xs, Spells (text x) (toks x)) :
    Spells (Text.bracketed (xs.map text)) (bracketTokens (xs.map toks)) := by
  have hclose : Spells [']'] [.closeBracket] := spells_nil.punctuation rfl
  have hbody := (spells_commaJoin h).append hclose (fun rest _ => ends_cons rfl (by decide) _)
  exact hbody.punctuation rfl

end Lists

/-! ## 4. Values -/

/-- The written form of a fraction of finite numbers spells its parts with a slash between them. -/
theorem Fraction.spells_render (q : Fraction) (hnum : q.numerator.isFinite = true)
    (hden : q.denominator.isFinite = true) :
    Spells q.render (q.numerator.tokens ++ .operator .div :: q.denominator.tokens) := by
  obtain ⟨d, ds, hd, hjoins⟩ := Binary64.render_eq_cons hden
  have hdenominator := Binary64.spells_render hden
  rw [hd] at hdenominator
  have hdiv := hdenominator.operator .div hjoins
  rw [← hd] at hdiv
  exact (Binary64.spells_render hnum).append hdiv (fun rest _ => ends_cons rfl (by decide) _)

namespace Value

/-- Every number of the value is finite. -/
def isFinite : Value → Bool
  | scalar x => x.isFinite
  | vector xs => xs.all Binary64.isFinite
  | matrix m => m.rows.all (fun row => row.all Binary64.isFinite)
  | rational q => q.numerator.isFinite && q.denominator.isFinite

/-- The tokens that are written for a finite value in place of a name. -/
def tokens : Value → List Token
  | scalar x =>
    if x.isNegative then .openParen :: (x.tokens ++ [.closeParen]) else x.tokens
  | vector xs => bracketTokens (xs.map Binary64.tokens)
  | matrix m => bracketTokens (m.rows.map (fun row => bracketTokens (row.map Binary64.tokens)))
  | rational q =>
    .openParen :: (q.numerator.tokens ++ .operator .div :: (q.denominator.tokens ++ [.closeParen]))

theorem spells_renderRow {xs : List Binary64} (h : xs.all Binary64.isFinite = true) :
    Spells (renderRow xs) (bracketTokens (xs.map Binary64.tokens)) :=
  spells_bracketed (fun x hx => Binary64.spells_render (List.all_eq_true.mp h x hx))

theorem spells_renderMatrix {m : Matrix}
    (h : m.rows.all (fun row => row.all Binary64.isFinite) = true) :
    Spells m.render
      (bracketTokens (m.rows.map (fun row => bracketTokens (row.map Binary64.tokens)))) :=
  spells_bracketed (fun row hrow => spells_renderRow (List.all_eq_true.mp h row hrow))

/-- **The written form of a finite value spells its tokens.** -/
theorem spells_inPlace {v : Value} (h : v.isFinite = true) : Spells v.inPlace v.tokens := by
  have hclose : Spells [')'] [.closeParen] := spells_nil.punctuation rfl
  cases v with
  | scalar x =>
    have hx := Binary64.spells_render (x := x) h
    unfold inPlace tokens
    dsimp only
    split
    · exact (hx.append hclose (fun rest _ => ends_cons rfl (by decide) _)).punctuation rfl
    · exact hx
  | vector xs => exact spells_renderRow h
  | matrix m => exact spells_renderMatrix h
  | rational q =>
    obtain ⟨hnum, hden⟩ := Bool.and_eq_true_iff.mp h
    have hall := ((q.spells_render hnum hden).append hclose
      (fun rest _ => ends_cons rfl (by decide) _)).punctuation (c := '(') rfl
    rw [List.append_assoc, List.cons_append] at hall
    exact hall

/-- The written form of a finite value joins no symbol in front of it. -/
theorem inPlace_eq_cons {v : Value} (h : v.isFinite = true) :
    ∃ d ds, v.inPlace = d :: ds ∧ Token.isFree d = true := by
  cases v with
  | scalar x =>
    obtain ⟨s, m, rfl⟩ := Binary64.exists_finite (x := x) h
    cases s with
    | true => exact ⟨'(', _, rfl, rfl⟩
    | false =>
      obtain ⟨d, ds, hd, hnumeral⟩ := m.render_eq_cons
      exact ⟨d, ds, hd, isFree_of_numeral hnumeral⟩
  | vector xs => exact ⟨'[', _, rfl, rfl⟩
  | matrix m => exact ⟨'[', _, rfl, rfl⟩
  | rational q => exact ⟨'(', _, rfl, rfl⟩

end Value

/-! ## 5. Operands -/

/-- What is left of a value when it is written in place of a name: a fraction is its quotient, and a
matrix without rows is a vector without elements. -/
def Value.collapse : Value → Value
  | scalar x => scalar x
  | vector xs => vector xs
  | matrix m => if m.rows = [] then vector [] else matrix m
  | rational q => scalar q.quotient

namespace Expr

section FromTokens

variable {α : Type} {item : α → List Lexeme → Prop} {toks : α → List Token} {closing : Token}
  {ls : List Lexeme}

theorem eq_nil_of_tokens (h : tokens ls = []) : ls = [] := List.map_eq_nil_iff.mp h

theorem exists_of_tokens_cons {t : Token} {ts : List Token} (h : tokens ls = t :: ts) :
    ∃ p ls', ls = ⟨t, p⟩ :: ls' ∧ tokens ls' = ts := by
  cases ls with
  | nil => cases h
  | cons l ls =>
    cases h
    exact ⟨l.position, ls, rfl, rfl⟩

theorem exists_of_tokens_append {ts us : List Token} (h : tokens ls = ts ++ us) :
    ∃ ls' ls'', ls = ls' ++ ls'' ∧ tokens ls' = ts ∧ tokens ls'' = us :=
  List.map_eq_append_iff.mp h

/-- Lexemes with the tokens of something between two tokens. -/
theorem exists_of_tokens_enclosed {opening : Token} {ts : List Token}
    (h : tokens ls = opening :: (ts ++ [closing])) :
    ∃ p inner q, ls = ⟨opening, p⟩ :: (inner ++ [⟨closing, q⟩]) ∧ tokens inner = ts := by
  obtain ⟨p, _, rfl, hrest⟩ := exists_of_tokens_cons h
  obtain ⟨inner, _, rfl, hinner, hclose⟩ := exists_of_tokens_append hrest
  obtain ⟨q, _, rfl, hnil⟩ := exists_of_tokens_cons hclose
  rw [eq_nil_of_tokens hnil]
  exact ⟨p, inner, q, rfl, hinner⟩

theorem separated_of_tokens (hitem : ∀ x ls, tokens ls = toks x → item x ls) {xs : List α}
    (hne : xs ≠ []) (h : tokens ls = commaTokens (xs.map toks)) : Separated item xs ls := by
  induction xs generalizing ls with
  | nil => exact absurd rfl hne
  | cons x xs ih =>
    cases xs with
    | nil => exact .one (hitem x ls h)
    | cons y xs =>
      obtain ⟨ls', _, rfl, hx, hmore⟩ := exists_of_tokens_append h
      obtain ⟨p, rest, rfl, hrest⟩ := exists_of_tokens_cons hmore
      exact .more (hitem x ls' hx) (ih (by simp) hrest)

/-- The lexemes of a list in brackets are a list of items. -/
theorem listed_of_tokens (hitem : ∀ x ls, tokens ls = toks x → item x ls) {xs : List α}
    (h : tokens ls = bracketTokens (xs.map toks)) :
    ∃ p ls', ls = ⟨.openBracket, p⟩ :: ls' ∧ Listed item .closeBracket xs ls' := by
  obtain ⟨p, inner, q, rfl, hinner⟩ := exists_of_tokens_enclosed h
  refine ⟨p, _, rfl, ?_⟩
  cases xs with
  | nil =>
    rw [eq_nil_of_tokens hinner]
    exact .empty
  | cons x xs => exact .filled (separated_of_tokens hitem (by simp) hinner)

end FromTokens

/-- The lexemes of a finite number are a number with an optional minus sign. -/
theorem signed_of_tokens {x : Binary64} {ls : List Lexeme} (h : tokens ls = x.tokens) :
    Signed x ls := by
  unfold Binary64.tokens at h
  split at h
  · obtain ⟨p, _, rfl, hnumber⟩ := exists_of_tokens_cons h
    obtain ⟨q, _, rfl, hnil⟩ := exists_of_tokens_cons hnumber
    rw [eq_nil_of_tokens hnil]
    have hminus := @Signed.minus (-x) p q
    rwa [show - -x = x from Binary64.neg_neg x] at hminus
  · obtain ⟨p, _, rfl, hnil⟩ := exists_of_tokens_cons h
    rw [eq_nil_of_tokens hnil]
    exact .plain

theorem row_of_tokens {xs : List Binary64} {ls : List Lexeme}
    (h : tokens ls = bracketTokens (xs.map Binary64.tokens)) : Row xs ls := by
  obtain ⟨p, ls', rfl, hlist⟩ := listed_of_tokens (fun _ _ => signed_of_tokens) h
  exact .row hlist

/-- A number with an optional minus sign is an operand that has the value of the number. -/
theorem Signed.reads {x : Binary64} {ls : List Lexeme} (h : Signed x ls) :
    ∃ e : Expr, (∀ k, Reads k e ls) ∧ e.isGround = true ∧
      ∀ env : Environment, env.eval e = .ok (.scalar x) := by
  cases h with
  | @plain _ p =>
    refine ⟨.number x p, fun k => .number, rfl, fun env => ?_⟩
    rw [Environment.eval]
  | @minus y p q =>
    refine ⟨.negate (.number y q) p, fun k => .negate .number, rfl, fun env => ?_⟩
    rw [Environment.eval, Environment.eval]
    rfl

/-- A matrix without rows has the tokens of a vector without elements. -/
theorem reads_of_matrixTokens {m : Matrix} {ls : List Lexeme}
    (h : tokens ls = (Value.matrix m).tokens) :
    ∃ e : Expr, (∀ k, Reads k e ls) ∧
      ∀ env : Environment, env.eval e = .ok (Value.matrix m).collapse := by
  obtain ⟨p, ls', rfl, hlist⟩ := listed_of_tokens (fun _ _ => row_of_tokens) h
  by_cases hrows : m.rows = []
  · rw [hrows] at hlist
    have hempty : Listed Signed .closeBracket [] ls' := by
      cases hlist with
      | empty => exact .empty
      | filled hsep => cases hsep
    refine ⟨.vector [] p, fun k => .vector hempty, fun env => ?_⟩
    rw [Environment.eval, Value.collapse, if_pos hrows]
  · obtain ⟨inner, q, rfl, hsep⟩ := hlist.exists_separated hrows
    refine ⟨.matrix m.rows p, fun k => .matrix hsep, fun env => ?_⟩
    rw [Environment.eval, Value.collapse, if_neg hrows, Matrix.make, dif_pos m.rectangular]
    rfl

/-- The parts of a fraction stand on the two sides of a division. -/
theorem reads_of_rationalTokens {q : Fraction} {ls : List Lexeme}
    (h : tokens ls = (Value.rational q).tokens) :
    ∃ e : Expr, (∀ k, Reads k e ls) ∧
      ∀ env : Environment, env.eval e = .ok (Value.rational q).collapse := by
  have hshape : Value.tokens (.rational q) = .openParen ::
      ((q.numerator.tokens ++ .operator .div :: q.denominator.tokens) ++ [.closeParen]) := by
    rw [Value.tokens, List.append_assoc, List.cons_append]
  rw [hshape] at h
  obtain ⟨p, inner, p', rfl, hinner⟩ := exists_of_tokens_enclosed h
  obtain ⟨ls', _, rfl, hnum, hdiv⟩ := exists_of_tokens_append hinner
  obtain ⟨p'', ls'', rfl, hden⟩ := exists_of_tokens_cons hdiv
  obtain ⟨l, hl, -, hevall⟩ := (signed_of_tokens hnum).reads
  obtain ⟨r, hr, -, hevalr⟩ := (signed_of_tokens hden).reads
  refine ⟨.binary .div l r p'', fun k => .group (.binary (by decide) (hl _) (hr _)), fun env => ?_⟩
  rw [Environment.eval, hevall, hevalr, ok_bind, ok_bind, Value.combine, Value.applyNumbers]
  dsimp only [Value.zeroDivisor?]
  rw [q.nonzero]
  rfl

/-- **Lexemes with the tokens of a value are an operand with the collapsed value.**  The tree of a
scalar consists of numbers and negations only. -/
theorem reads_of_tokens {v : Value} {ls : List Lexeme} (h : tokens ls = v.tokens) :
    ∃ e : Expr, (∀ k, Reads k e ls) ∧ ((∃ x, v = .scalar x) → e.isGround = true) ∧
      ∀ env : Environment, env.eval e = .ok v.collapse := by
  cases v with
  | scalar x =>
    unfold Value.tokens at h
    dsimp only at h
    split at h
    · obtain ⟨p, inner, q, rfl, hinner⟩ := exists_of_tokens_enclosed h
      obtain ⟨e, hreads, hground, heval⟩ := (signed_of_tokens hinner).reads
      exact ⟨e, fun k => .group (hreads 1), fun _ => hground, heval⟩
    · obtain ⟨e, hreads, hground, heval⟩ := (signed_of_tokens h).reads
      exact ⟨e, hreads, fun _ => hground, heval⟩
  | vector xs =>
    obtain ⟨p, ls', rfl, hlist⟩ := listed_of_tokens (fun _ _ => signed_of_tokens) h
    refine ⟨.vector xs p, fun k => .vector hlist, ?_, fun env => ?_⟩
    · rintro ⟨x, hx⟩
      cases hx
    · rw [Environment.eval]
      rfl
  | matrix m =>
    obtain ⟨e, hreads, heval⟩ := reads_of_matrixTokens h
    refine ⟨e, hreads, ?_, heval⟩
    rintro ⟨x, hx⟩
    cases hx
  | rational q =>
    obtain ⟨e, hreads, heval⟩ := reads_of_rationalTokens h
    refine ⟨e, hreads, ?_, heval⟩
    rintro ⟨x, hx⟩
    cases hx

end Expr
end Abacus
