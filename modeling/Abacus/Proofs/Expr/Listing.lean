/-
# A tree lists the tokens of its text

The listing of a tree goes through it in source order and writes down a token for every node: the
left operand, the operator and the right operand, a minus sign and what it negates, the name of a
call and its arguments, and the numbers of a literal with their signs.  What is not listed are
parentheses, brackets, commas and the end of the text, which shape the tree and leave nothing else
behind (`Token.isShaping`).

If a text has a tree, the listing of the tree is the list of the tokens of the text, one by one, and
every node has the position of its token.  So the parser loses, invents and reorders nothing.  The
numbers of a literal have no positions of their own in the tree, so for them only the token is
compared.

Main statements:

* `lists_of_reads`: a written form is listed by its tree;
* `freeNames_of_reads`: the variables of a tree are the names without a parenthesis behind them;
* `listing_of_parse`: both for the tree of a text.
-/
import Abacus.Proofs.Expr.Completeness
import Abacus.Proofs.Token.Spacing
import Abacus.Proofs.Value.Spelling

namespace Abacus

namespace Token

/-- The token shapes a tree and leaves nothing else in it. -/
def isShaping : Token → Bool
  | openParen => true
  | closeParen => true
  | openBracket => true
  | closeBracket => true
  | comma => true
  | endOfInput => true
  | _ => false

/-- The names that have no opening parenthesis right behind them. -/
def freeNames : List Token → List Text
  | [] => []
  | name text :: ts =>
    if ts.head? = some openParen then freeNames ts else text :: freeNames ts
  | _ :: ts => freeNames ts

end Token

namespace Expr

/-! ## 1. The listing of a tree -/

/-- A token of a tree, with its position if the tree has one for it. -/
structure Entry where
  /-- The token. -/
  token : Token
  /-- The position of the node that the token stands for. -/
  position : Option Position

/-- The entries of a literal's numbers, which have no positions. -/
def numberEntries (xs : List Binary64) : List Entry :=
  xs.flatMap (fun x => x.tokens.map (fun t => ⟨t, none⟩))

mutual

/-- The tokens of a tree in source order. -/
def listing : Expr → List Entry
  | number x p => [⟨.number x, some p⟩]
  | name text p => [⟨.name text, some p⟩]
  | vector xs _ => numberEntries xs
  | matrix rows _ => rows.flatMap numberEntries
  | negate e p => ⟨.operator .sub, some p⟩ :: e.listing
  | binary op l r p => l.listing ++ ⟨.operator op, some p⟩ :: r.listing
  | call text es p => ⟨.name text, some p⟩ :: listingOf es

/-- The tokens of several trees, one after the other. -/
def listingOf : List Expr → List Entry
  | [] => []
  | e :: es => e.listing ++ listingOf es

end

/-- The lexeme has the token of the entry, and its position if there is one. -/
def Entry.Fits (entry : Entry) (l : Lexeme) : Prop :=
  entry.token = l.item ∧ ∀ p ∈ entry.position, p = l.position

/-- The lexemes that leave something in a tree. -/
def content (ls : List Lexeme) : List Lexeme := ls.filter (fun l => !l.item.isShaping)

/-- The entries are the lexemes that leave something in a tree, one by one. -/
def Lists (entries : List Entry) (ls : List Lexeme) : Prop :=
  List.Forall₂ Entry.Fits entries (content ls)

section Lists

variable {entries more : List Entry} {ls rest : List Lexeme} {t : Token} {p : Position}

theorem Lists.append (h : Lists entries ls) (hmore : Lists more rest) :
    Lists (entries ++ more) (ls ++ rest) := by
  unfold Lists content
  rw [List.filter_append]
  exact List.rel_append h hmore

theorem lists_nil : Lists [] [] := .nil

/-- A token that only shapes the tree is not listed. -/
theorem Lists.shaping (ht : t.isShaping = true) (h : Lists entries ls) :
    Lists entries (⟨t, p⟩ :: ls) := by
  unfold Lists content
  rw [List.filter_cons_of_neg (by simp [ht])]
  exact h

theorem Lists.cons {position : Option Position} (ht : t.isShaping = false)
    (hp : ∀ q ∈ position, q = p) (h : Lists entries ls) :
    Lists (⟨t, position⟩ :: entries) (⟨t, p⟩ :: ls) := by
  unfold Lists content
  rw [List.filter_cons_of_pos (by simp [ht])]
  exact .cons ⟨rfl, hp⟩ h

/-- A node with the position of its token. -/
theorem Lists.node (ht : t.isShaping = false) (h : Lists entries ls) :
    Lists (⟨t, some p⟩ :: entries) (⟨t, p⟩ :: ls) :=
  h.cons ht (fun _ hq => (Option.mem_some_iff.mp hq).symm)

/-- A closing token is not listed. -/
theorem Lists.closed (ht : t.isShaping = true) (h : Lists entries ls) :
    Lists entries (ls ++ [⟨t, p⟩]) := by
  have hclosed := h.append (lists_nil.shaping (p := p) ht)
  rwa [List.append_nil] at hclosed

end Lists

/-! ## 2. Lists of items -/

section Items

variable {α : Type} {item : α → List Lexeme → Prop} {list : α → List Entry} {closing : Token}
  {xs : List α} {ls : List Lexeme}

/-- Writable lexemes of an item are listed by it. -/
def ListedBy (list : α → List Entry) (x : α) (ls : List Lexeme) : Prop :=
  (∀ t ∈ tokens ls, t.isWritable = true) → Lists (list x) ls

theorem Separated.lists (h : Separated item xs ls)
    (hitem : ∀ x ls, item x ls → ListedBy list x ls) : ListedBy (List.flatMap list) xs ls := by
  induction h with
  | one hx =>
    intro hw
    rw [List.flatMap_singleton]
    exact hitem _ _ hx hw
  | more hx _ ih =>
    intro hw
    rw [tokens_append, tokens_cons, List.forall_mem_append, List.forall_mem_cons] at hw
    obtain ⟨hfirst, -, hrest⟩ := hw
    exact (hitem _ _ hx hfirst).append ((ih hrest).shaping rfl)

theorem Listed.lists (h : Listed item closing xs ls) (hclosing : closing.isShaping = true)
    (hitem : ∀ x ls, item x ls → ListedBy list x ls) : ListedBy (List.flatMap list) xs ls := by
  cases h with
  | empty => exact fun _ => lists_nil.shaping hclosing
  | filled h =>
    intro hw
    rw [tokens_append, List.forall_mem_append] at hw
    exact (h.lists hitem hw.1).closed hclosing

end Items

/-- A number with an optional minus sign is listed as it stands, because the number behind the sign
has no sign of its own. -/
theorem Signed.lists {x : Binary64} {ls : List Lexeme} (h : Signed x ls) :
    ListedBy (fun x => x.tokens.map (fun t => ⟨t, none⟩)) x ls := by
  have hnone : ∀ p : Position, ∀ q ∈ (none : Option Position), q = p := by rintro p q ⟨⟩
  cases h with
  | @plain _ p =>
    intro hw
    obtain ⟨hx, -⟩ := List.forall_mem_cons.mp hw
    have hsign : x.isNegative = false := by simpa using (Bool.and_eq_true_iff.mp hx).2
    have htokens : x.tokens = [.number x] := by simp [Binary64.tokens, hsign]
    dsimp only
    rw [htokens]
    exact lists_nil.cons rfl (hnone p)
  | @minus y p q =>
    intro hw
    obtain ⟨-, hbehind⟩ := List.forall_mem_cons.mp hw
    obtain ⟨hy, -⟩ := List.forall_mem_cons.mp hbehind
    obtain ⟨hfinite, hsign⟩ := Bool.and_eq_true_iff.mp hy
    obtain ⟨s, m, rfl⟩ := Binary64.exists_finite hfinite
    obtain rfl : s = false := by simpa [Binary64.isNegative] using hsign
    exact (lists_nil.cons rfl (hnone q)).cons rfl (hnone p)

theorem Row.lists {xs : List Binary64} {ls : List Lexeme} (h : Row xs ls) :
    ListedBy numberEntries xs ls := by
  cases h with
  | row h =>
    intro hw
    rw [tokens_cons, List.forall_mem_cons] at hw
    exact (h.lists rfl (fun _ _ hx => hx.lists) hw.2).shaping rfl

/-! ## 3. Trees -/

theorem listingOf_eq (es : List Expr) : listingOf es = es.flatMap listing := by
  induction es with
  | nil => rfl
  | cons e es ih => rw [listingOf, ih, List.flatMap_cons]

/-- **A written form is listed by its tree**, token by token and with the positions of the nodes. -/
theorem lists_of_reads {k : Nat} {e : Expr} {ls : List Lexeme} (h : Reads k e ls) :
    ListedBy listing e ls := by
  induction h using Reads.induction with
  | number k x p => exact fun _ => lists_nil.node rfl
  | name k text p => exact fun _ => lists_nil.node rfl
  | vector k xs ls p h =>
    intro hw
    rw [tokens_cons, List.forall_mem_cons] at hw
    exact (h.lists rfl (fun _ _ hx => hx.lists) hw.2).shaping rfl
  | matrix k rows ls p q h =>
    intro hw
    rw [tokens_cons, tokens_append, List.forall_mem_cons, List.forall_mem_append] at hw
    exact ((h.lists (fun _ _ hx => hx.lists) hw.2.1).closed rfl).shaping rfl
  | call k text es ls p q _ h =>
    intro hw
    rw [tokens_cons, tokens_cons, List.forall_mem_cons, List.forall_mem_cons] at hw
    rw [listing, listingOf_eq]
    exact ((h.lists rfl (fun _ _ hx => hx.2) hw.2.2).shaping rfl).node rfl
  | group k e ls p q _ ih =>
    intro hw
    rw [tokens_cons, tokens_append, List.forall_mem_cons, List.forall_mem_append] at hw
    exact ((ih hw.2.1).closed rfl).shaping rfl
  | negate k e ls p _ ih =>
    intro hw
    rw [tokens_cons, List.forall_mem_cons] at hw
    exact (ih hw.2).node rfl
  | binary k op l r ls rs p _ _ _ ihl ihr =>
    intro hw
    rw [tokens_append, tokens_cons, List.forall_mem_append, List.forall_mem_cons] at hw
    exact (ihl hw.1).append ((ihr hw.2.2).node rfl)

/-! ## 4. Variables -/

/-- A token that starts no operand separates the names in front of it from those behind it. -/
theorem freeNames_append_cons {t : Token} (ht : t.startsOperand = false) (ts us : List Token) :
    Token.freeNames (ts ++ t :: us) = Token.freeNames ts ++ Token.freeNames us := by
  have hskip : Token.freeNames (t :: us) = Token.freeNames us := by
    cases t with
    | name text => cases ht
    | _ => rfl
  induction ts with
  | nil => exact hskip
  | cons s ts ih =>
    have hhead : (ts ++ t :: us).head? = some .openParen ↔ ts.head? = some .openParen := by
      cases ts with
      | nil =>
        have hparen : t ≠ .openParen := by rintro rfl; cases ht
        simp [hparen]
      | cons u ts => rfl
    rw [List.cons_append]
    cases s with
    | name text =>
      rw [Token.freeNames, Token.freeNames, ih]
      by_cases hparen : ts.head? = some .openParen
      · rw [if_pos hparen, if_pos (hhead.mpr hparen)]
      · rw [if_neg hparen, if_neg (mt hhead.mp hparen), List.cons_append]
    | _ => exact ih

/-- A closing token behind the tokens adds no name. -/
theorem freeNames_closed {t : Token} (ht : t.startsOperand = false) (ts : List Token) :
    Token.freeNames (ts ++ [t]) = Token.freeNames ts := by
  rw [freeNames_append_cons ht, Token.freeNames, List.append_nil]

section Items

variable {α : Type} {item : α → List Lexeme → Prop} {names : α → List Text} {closing : Token}
  {xs : List α} {ls : List Lexeme}

theorem Separated.freeNames (h : Separated item xs ls)
    (hitem : ∀ x ls, item x ls → Token.freeNames (tokens ls) = names x) :
    Token.freeNames (tokens ls) = xs.flatMap names := by
  induction h with
  | one hx => rw [hitem _ _ hx, List.flatMap_singleton]
  | more hx _ ih =>
    rw [tokens_append, tokens_cons, freeNames_append_cons rfl, hitem _ _ hx, ih,
      List.flatMap_cons]

theorem Listed.freeNames (h : Listed item closing xs ls) (hclosing : closing.startsOperand = false)
    (hitem : ∀ x ls, item x ls → Token.freeNames (tokens ls) = names x) :
    Token.freeNames (tokens ls) = xs.flatMap names := by
  cases h with
  | @empty p => exact freeNames_closed hclosing []
  | filled h =>
    rw [tokens_append, tokens_cons, tokens_nil, freeNames_closed hclosing]
    exact h.freeNames hitem

end Items

theorem Signed.freeNames {x : Binary64} {ls : List Lexeme} (h : Signed x ls) :
    Token.freeNames (tokens ls) = [] := by
  cases h <;> rfl

theorem Listed.freeNames_signed {xs : List Binary64} {ls : List Lexeme}
    (h : Listed Signed .closeBracket xs ls) : Token.freeNames (tokens ls) = [] := by
  rw [h.freeNames rfl (fun _ _ hx => hx.freeNames), List.flatMap_eq_nil_iff]
  exact fun _ _ => rfl

theorem Row.freeNames {xs : List Binary64} {ls : List Lexeme} (h : Row xs ls) :
    Token.freeNames (tokens ls) = [] := by
  cases h with
  | row h => exact h.freeNames_signed

theorem variableNamesOf_eq (es : List Expr) : variableNamesOf es = es.flatMap variableNames := by
  induction es with
  | nil => rfl
  | cons e es ih => rw [variableNamesOf, ih, List.flatMap_cons]

/-- **The variables of a tree** are the names of its written form that no parenthesis follows. -/
theorem freeNames_of_reads {k : Nat} {e : Expr} {ls : List Lexeme} (h : Reads k e ls) :
    Token.freeNames (tokens ls) = e.variableNames := by
  induction h using Reads.induction with
  | number k x p => rfl
  | name k text p => rfl
  | vector k xs ls p h => exact h.freeNames_signed
  | matrix k rows ls p q h =>
    have hrows : Token.freeNames (tokens ls) = [] := by
      rw [h.freeNames (fun _ _ hx => hx.freeNames), List.flatMap_eq_nil_iff]
      exact fun _ _ => rfl
    rw [tokens_cons, tokens_append, tokens_cons, tokens_nil]
    exact (freeNames_closed rfl _).trans hrows
  | call k text es ls p q _ h =>
    have hargs := h.freeNames rfl (fun _ _ hx => hx.2)
    rw [variableNames, variableNamesOf_eq, ← hargs]
    rfl
  | group k e ls p q _ ih =>
    rw [tokens_cons, tokens_append, tokens_cons, tokens_nil, ← ih]
    exact freeNames_closed rfl _
  | negate k e ls p _ ih => exact ih
  | binary k op l r ls rs p _ _ _ ihl ihr =>
    rw [tokens_append, tokens_cons, freeNames_append_cons rfl, ihl, ihr, variableNames]

/-! ## 5. Whole texts -/

/-- **A tree lists the tokens of its text.**  What is not listed are the tokens that only shape the
tree, every node has the position of its token, and the variables are the names that no opening
parenthesis follows, in order and with repetitions. -/
theorem listing_of_parse {text : Text} {origin : Position} {e : Expr}
    (h : parse text origin = .ok e) :
    ∃ ls, Token.lex origin text = .ok ls ∧ Lists e.listing ls ∧
      e.variableNames = Token.freeNames (tokens ls) := by
  obtain ⟨body, q, hcuts, hreads⟩ := cuts_of_parse h
  refine ⟨_, hcuts.lex_eq_ok, ?_, ?_⟩
  · exact (lists_of_reads hreads hcuts.isWritable).closed rfl
  · rw [tokens_append, tokens_cons, tokens_nil, freeNames_closed rfl, freeNames_of_reads hreads]

namespace Example

/-- The tree of `-f(x,[-1])*x`. -/
def calling : Expr :=
  .binary .mul
    (.negate (.call ['f'] [.name ['x'] ⟨1, 4⟩, .vector [-.one] ⟨1, 6⟩] ⟨1, 2⟩) ⟨1, 1⟩)
    (.name ['x'] ⟨1, 12⟩) ⟨1, 11⟩

theorem lex_calling : Token.lex ⟨1, 1⟩ "-f(x,[-1])*x".toList = .ok
    [⟨.operator .sub, ⟨1, 1⟩⟩, ⟨.name ['f'], ⟨1, 2⟩⟩, ⟨.openParen, ⟨1, 3⟩⟩,
      ⟨.name ['x'], ⟨1, 4⟩⟩, ⟨.comma, ⟨1, 5⟩⟩, ⟨.openBracket, ⟨1, 6⟩⟩,
      ⟨.operator .sub, ⟨1, 7⟩⟩, ⟨.number .one, ⟨1, 8⟩⟩, ⟨.closeBracket, ⟨1, 9⟩⟩,
      ⟨.closeParen, ⟨1, 10⟩⟩, ⟨.operator .mul, ⟨1, 11⟩⟩, ⟨.name ['x'], ⟨1, 12⟩⟩,
      ⟨.endOfInput, ⟨1, 13⟩⟩] := by
  decide +kernel

theorem parse_calling : parse "-f(x,[-1])*x".toList ⟨1, 1⟩ = .ok calling := by
  unfold parse parseWithin
  rw [lex_calling]
  rfl

theorem listing_calling :
    ∃ ls, Token.lex ⟨1, 1⟩ "-f(x,[-1])*x".toList = .ok ls ∧ Lists calling.listing ls ∧
      calling.variableNames = Token.freeNames (tokens ls) :=
  listing_of_parse parse_calling

end Example

end Expr
end Abacus
