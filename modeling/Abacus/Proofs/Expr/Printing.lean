/-
# Printing a tree and reading it back

A tree is printed with blanks between its tokens and with a pair of parentheses only where its shape
would be lost without them.  The left operand of an operator needs them if it is an operator that
binds weaker, the right operand if it is one that does not bind stronger, and the operand of a
negation if it is an operator at all.  In terms of the grammar an operand is put in parentheses
exactly if it is an operator that is too weak for the level at which the operand stands
(`isWeaker`).

Read back, the text has the printed tree, with other positions.  A tree of height `h` is printed
with at most two constructs around a factor for every step down the tree, one for a negation or a
call and one for the parentheses of an operator below it.  So a height of 64 stays within the 128
factors that may lie inside one another.

Main statements:

* `writable_printed`: all tokens of a printed tree have written forms;
* `readable`: lexemes with the tokens of a printed tree are a written form of it;
* `parse_print`: a printed tree is read back.
-/
import Abacus.Proofs.Expr.Limits
import Abacus.Proofs.Expr.Positions
import Abacus.Proofs.Token.Spacing
import Abacus.Proofs.Value.Spelling

namespace Abacus
namespace Expr

open Token (spaced)

/-! ## 1. The printed form -/

/-- The tree is an operator, and too weak for the level `k` of the grammar. -/
def isWeaker (k : Nat) : Expr → Bool
  | binary op _ _ _ => op.precedence < k
  | _ => false

/-- Tokens with parentheses around them, if there is a need for them. -/
def enclosedIf (needed : Bool) (ts : List Token) : List Token :=
  if needed then .openParen :: (ts ++ [.closeParen]) else ts

mutual

/-- The tokens that are printed for a tree. -/
def printed : Expr → List Token
  | number x _ => [.number x]
  | name text _ => [.name text]
  | vector xs _ => bracketTokens (xs.map Binary64.tokens)
  | matrix rows _ => bracketTokens (rows.map (fun row => bracketTokens (row.map Binary64.tokens)))
  | negate e _ => .operator .sub :: enclosedIf (e.isWeaker 3) e.printed
  | binary op l r _ =>
    enclosedIf (l.isWeaker op.precedence) l.printed
      ++ .operator op :: enclosedIf (r.isWeaker (op.precedence + 1)) r.printed
  | call text es _ => .name text :: .openParen :: (commaTokens (printedAll es) ++ [.closeParen])

/-- The tokens of several trees. -/
def printedAll : List Expr → List (List Token)
  | [] => []
  | e :: es => e.printed :: printedAll es

end

/-- The printed form of a tree: its tokens with blanks between them. -/
def print (e : Expr) : Text := spaced e.printed

mutual

/-- The tree can be printed: its numbers are finite and without a sign, its names are identifiers,
the elements of its literals are finite, and its matrix literals have a row. -/
def isWritable : Expr → Bool
  | number x _ => x.isFinite && !x.isNegative
  | name text _ => text.isIdentifier
  | vector xs _ => xs.all Binary64.isFinite
  | matrix rows _ => !rows.isEmpty && rows.all (fun row => row.all Binary64.isFinite)
  | negate e _ => e.isWritable
  | binary _ l r _ => l.isWritable && r.isWritable
  | call text es _ => text.isIdentifier && areWritable es

/-- Several trees can be printed. -/
def areWritable : List Expr → Bool
  | [] => true
  | e :: es => e.isWritable && areWritable es

end

/-! ## 2. The tokens have written forms -/

section Writable

variable {P : Token → Prop} {ts : List Token} {tss : List (List Token)}

theorem forall_mem_enclosedIf (hopen : P .openParen) (hclose : P .closeParen)
    (h : ∀ t ∈ ts, P t) (needed : Bool) : ∀ t ∈ enclosedIf needed ts, P t := by
  unfold enclosedIf
  split
  · rw [List.forall_mem_cons, List.forall_mem_append]
    exact ⟨hopen, h, by simpa using hclose⟩
  · exact h

theorem forall_mem_commaTokens (hcomma : P .comma) (h : ∀ ts ∈ tss, ∀ t ∈ ts, P t) :
    ∀ t ∈ commaTokens tss, P t := by
  induction tss with
  | nil => rintro t ⟨⟩
  | cons ts tss ih =>
    obtain ⟨hfirst, hmore⟩ := List.forall_mem_cons.mp h
    cases tss with
    | nil => exact hfirst
    | cons us tss =>
      unfold commaTokens
      rw [List.forall_mem_append, List.forall_mem_cons]
      exact ⟨hfirst, hcomma, ih hmore⟩

theorem forall_mem_bracketTokens (hopen : P .openBracket) (hclose : P .closeBracket)
    (hcomma : P .comma) (h : ∀ ts ∈ tss, ∀ t ∈ ts, P t) : ∀ t ∈ bracketTokens tss, P t := by
  unfold bracketTokens
  rw [List.forall_mem_cons, List.forall_mem_append]
  exact ⟨hopen, forall_mem_commaTokens hcomma h, by simpa using hclose⟩

end Writable

/-- The magnitude of a finite number is a token of its own. -/
theorem writable_numberTokens {x : Binary64} (h : x.isFinite = true) :
    ∀ t ∈ x.tokens, t.isWritable = true := by
  obtain ⟨s, m, rfl⟩ := Binary64.exists_finite h
  cases s with
  | false => exact List.forall_mem_cons.mpr ⟨rfl, by simp⟩
  | true => exact List.forall_mem_cons.mpr ⟨rfl, List.forall_mem_cons.mpr ⟨rfl, by simp⟩⟩

theorem writable_rowTokens {xs : List Binary64} (h : xs.all Binary64.isFinite = true) :
    ∀ t ∈ bracketTokens (xs.map Binary64.tokens), t.isWritable = true := by
  refine forall_mem_bracketTokens rfl rfl rfl ?_
  rw [List.forall_mem_map]
  exact fun x hx => writable_numberTokens (List.all_eq_true.mp h x hx)

mutual

/-- **All tokens of a printed tree have written forms.** -/
theorem writable_printed : ∀ e : Expr, e.isWritable = true → ∀ t ∈ e.printed, t.isWritable = true
  | number x p, h => List.forall_mem_singleton.mpr h
  | name text p, h => List.forall_mem_singleton.mpr h
  | vector xs p, h => writable_rowTokens h
  | matrix rows p, h => by
    have hrows : ∀ row ∈ rows, row.all Binary64.isFinite = true :=
      List.all_eq_true.mp (Bool.and_eq_true_iff.mp h).2
    refine forall_mem_bracketTokens rfl rfl rfl ?_
    rw [List.forall_mem_map]
    exact fun row hrow => writable_rowTokens (hrows row hrow)
  | negate e p, h => by
    rw [printed, List.forall_mem_cons]
    exact ⟨rfl, forall_mem_enclosedIf (P := (Token.isWritable · = true)) rfl rfl
      (writable_printed e h) _⟩
  | binary op l r p, h => by
    obtain ⟨hl, hr⟩ := Bool.and_eq_true_iff.mp h
    rw [printed, List.forall_mem_append, List.forall_mem_cons]
    exact ⟨forall_mem_enclosedIf (P := (Token.isWritable · = true)) rfl rfl
        (writable_printed l hl) _, rfl,
      forall_mem_enclosedIf (P := (Token.isWritable · = true)) rfl rfl (writable_printed r hr) _⟩
  | call text es p, h => by
    obtain ⟨htext, hes⟩ := Bool.and_eq_true_iff.mp h
    rw [printed, List.forall_mem_cons, List.forall_mem_cons, List.forall_mem_append]
    exact ⟨htext, rfl, forall_mem_commaTokens rfl (writable_printedAll es hes), by simp; rfl⟩

theorem writable_printedAll : ∀ es : List Expr, areWritable es = true →
    ∀ ts ∈ printedAll es, ∀ t ∈ ts, t.isWritable = true
  | [], _ => by rintro ts ⟨⟩
  | e :: es, h => by
    obtain ⟨he, hes⟩ := Bool.and_eq_true_iff.mp h
    exact List.forall_mem_cons.mpr ⟨writable_printed e he, writable_printedAll es hes⟩

end

/-! ## 3. The tokens are a written form -/

/-- Any two positions. -/
def AnyPositions (_ _ : Position) : Prop := True

/-- The lexemes are a written form of the tree, with positions of its own, that nests to the depth
`n` at most. -/
def Written (n k : Nat) (e : Expr) (ls : List Lexeme) : Prop :=
  ∃ e', SameShape AnyPositions e e' ∧ ReadsWithin n k e' ls

/-- Lexemes with the tokens of the printed tree are a written form of it, at every level that the
tree is not too weak for. -/
def Readable (m : Nat) (e : Expr) : Prop :=
  ∀ k ls, e.isWeaker k = false → tokens ls = e.printed → Written (2 * m) k e ls

theorem isWeaker_one (e : Expr) : e.isWeaker 1 = false := by
  cases e with
  | binary op l r p => cases op <;> rfl
  | _ => rfl

section Readable

variable {m : Nat} {ls : List Lexeme}

/-- With parentheses where they are needed, a tree stands at every level. -/
theorem written_enclosedIf {e : Expr} (he : Readable m e) {k : Nat}
    (h : tokens ls = enclosedIf (e.isWeaker k) e.printed) : Written (2 * m + 1) k e ls := by
  unfold enclosedIf at h
  split at h
  · obtain ⟨p, inner, q, rfl, hinner⟩ := exists_of_tokens_enclosed h
    obtain ⟨e', hsame, hreads⟩ := he 1 inner (isWeaker_one e) hinner
    exact ⟨e', hsame, .of_over (.group hreads)⟩
  · next hweak =>
    obtain ⟨e', hsame, hreads⟩ := he k ls (by simpa using hweak) h
    exact ⟨e', hsame, hreads.deeper (Nat.le_succ _)⟩

theorem readable_number (x : Binary64) (p : Position) : Readable m (.number x p) := by
  intro k ls _ h
  obtain ⟨q, _, rfl, hnil⟩ := exists_of_tokens_cons h
  rw [eq_nil_of_tokens hnil]
  exact ⟨_, .number trivial, .number _ k x q⟩

theorem readable_name (text : Text) (p : Position) : Readable m (.name text p) := by
  intro k ls _ h
  obtain ⟨q, _, rfl, hnil⟩ := exists_of_tokens_cons h
  rw [eq_nil_of_tokens hnil]
  exact ⟨_, .name trivial, .name _ k text q⟩

theorem readable_vector (xs : List Binary64) (p : Position) : Readable m (.vector xs p) := by
  intro k ls _ h
  obtain ⟨q, ls', rfl, hlist⟩ := listed_of_tokens (fun _ _ => signed_of_tokens) h
  exact ⟨_, .vector trivial, .vector _ k hlist⟩

theorem readable_matrix {rows : List (List Binary64)} (hne : rows ≠ []) (p : Position) :
    Readable m (.matrix rows p) := by
  intro k ls _ h
  obtain ⟨q, ls', rfl, hlist⟩ := listed_of_tokens (fun _ _ => row_of_tokens) h
  obtain ⟨inner, q', rfl, hrows⟩ := hlist.exists_separated hne
  exact ⟨_, .matrix trivial, .matrix _ k hrows⟩

theorem readable_negate {e : Expr} (he : Readable m e) (p : Position) :
    Readable (m + 1) (.negate e p) := by
  intro k ls _ h
  obtain ⟨q, ls', rfl, hoperand⟩ := exists_of_tokens_cons h
  obtain ⟨e', hsame, hreads⟩ := written_enclosedIf he hoperand
  exact ⟨_, .negate trivial hsame, .of_over (.negate hreads)⟩

theorem readable_binary (op : Operator) {l r : Expr} (hl : Readable m l) (hr : Readable m r)
    (p : Position) : Readable (m + 1) (.binary op l r p) := by
  intro k ls hweak h
  obtain ⟨ls', _, rfl, hleft, hmore⟩ := exists_of_tokens_append h
  obtain ⟨q, rs, rfl, hright⟩ := exists_of_tokens_cons hmore
  obtain ⟨l', hsamel, hreadsl⟩ := written_enclosedIf hl hleft
  obtain ⟨r', hsamer, hreadsr⟩ := written_enclosedIf hr hright
  have hk : k ≤ op.precedence := by simpa [isWeaker] using hweak
  exact ⟨_, .binary trivial hsamel hsamer,
    .binary hk (hreadsl.deeper (Nat.le_succ _)) (hreadsr.deeper (Nat.le_succ _))⟩

/-- Arguments, one by one. -/
theorem exists_separated_of_printedAll {es : List Expr} (hes : ∀ e ∈ es, Readable m e)
    (hne : es ≠ []) (h : tokens ls = commaTokens (printedAll es)) :
    ∃ es', SameShapes AnyPositions es es' ∧ Separated (ReadsWithin (2 * m) 1) es' ls := by
  induction es generalizing ls with
  | nil => exact absurd rfl hne
  | cons e es ih =>
    obtain ⟨he, hmore⟩ := List.forall_mem_cons.mp hes
    cases es with
    | nil =>
      obtain ⟨e', hsame, hreads⟩ := he 1 ls (isWeaker_one e) h
      exact ⟨[e'], .cons hsame .nil, .one hreads⟩
    | cons f es =>
      obtain ⟨first, _, rfl, hfirst, htail⟩ := exists_of_tokens_append h
      obtain ⟨p, rest, rfl, hrest⟩ := exists_of_tokens_cons htail
      obtain ⟨e', hsame, hreads⟩ := he 1 first (isWeaker_one e) hfirst
      obtain ⟨es', hsames, hsep⟩ := ih hmore (by simp) hrest
      exact ⟨e' :: es', .cons hsame hsames, .more hreads hsep⟩

theorem readable_call_nil (text : Text) (p : Position) : Readable m (.call text [] p) := by
  intro k ls _ h
  obtain ⟨q, _, rfl, hmore⟩ := exists_of_tokens_cons h
  obtain ⟨q', inner, r, rfl, hinner⟩ := exists_of_tokens_enclosed hmore
  rw [eq_nil_of_tokens hinner]
  exact ⟨_, .call trivial .nil, .emptyCall _ k text⟩

theorem readable_call (text : Text) {es : List Expr} (hes : ∀ e ∈ es, Readable m e)
    (hne : es ≠ []) (p : Position) : Readable (m + 1) (.call text es p) := by
  intro k ls _ h
  obtain ⟨q, _, rfl, hmore⟩ := exists_of_tokens_cons h
  obtain ⟨q', inner, r, rfl, hinner⟩ := exists_of_tokens_enclosed hmore
  obtain ⟨es', hsames, hsep⟩ := exists_separated_of_printedAll hes hne hinner
  have hdeeper := hsep.imp (fun _ _ hreads => hreads.deeper (Nat.le_succ (2 * m)))
  exact ⟨_, .call trivial hsames, .of_over (.call (.filled hdeeper))⟩

end Readable

theorem height_pos (e : Expr) : 0 < e.height := by
  cases e <;> simp [height]

mutual

/-- **A printed tree is a written form of itself.**  Every step down the tree adds at most two
constructs around a factor. -/
theorem readable : ∀ (e : Expr) (m : Nat), e.isWritable = true → e.height ≤ m + 1 → Readable m e
  | number x p, _, _, _ => readable_number x p
  | name text p, _, _, _ => readable_name text p
  | vector xs p, _, _, _ => readable_vector xs p
  | matrix rows p, _, hw, _ => by
    refine readable_matrix ?_ p
    simpa using (Bool.and_eq_true_iff.mp hw).1
  | negate e p, m, hw, h => by
    rw [height] at h
    obtain ⟨m, rfl⟩ : ∃ j, m = j + 1 := ⟨m - 1, by have := e.height_pos; omega⟩
    exact readable_negate (readable e m hw (by omega)) p
  | binary op l r p, m, hw, h => by
    rw [height] at h
    obtain ⟨hwl, hwr⟩ := Bool.and_eq_true_iff.mp hw
    obtain ⟨m, rfl⟩ : ∃ j, m = j + 1 := ⟨m - 1, by have := l.height_pos; omega⟩
    exact readable_binary op (readable l m hwl (by omega)) (readable r m hwr (by omega)) p
  | call text [] p, _, _, _ => readable_call_nil text p
  | call text (e :: es) p, m, hw, h => by
    rw [height, heights] at h
    obtain ⟨m, rfl⟩ : ∃ j, m = j + 1 := ⟨m - 1, by have := e.height_pos; omega⟩
    have hargs := readableAll (e :: es) m (Bool.and_eq_true_iff.mp hw).2 (by rw [heights]; omega)
    exact readable_call text hargs (by simp) p

theorem readableAll : ∀ (es : List Expr) (m : Nat), areWritable es = true →
    heights es ≤ m + 1 → ∀ e ∈ es, Readable m e
  | [], _, _, _ => by rintro e ⟨⟩
  | e :: es, m, hw, h => by
    rw [heights] at h
    obtain ⟨hwe, hwes⟩ := Bool.and_eq_true_iff.mp hw
    exact List.forall_mem_cons.mpr
      ⟨readable e m hwe (by omega), readableAll es m hwes (by omega)⟩

end

/-! ## 4. Reading a printed tree -/

/-- **A printed tree is read back**, with other positions, if it can be printed and is no taller
than 64. -/
theorem parse_print {e : Expr} (hw : e.isWritable = true) (hheight : e.height ≤ 64)
    (origin : Position) :
    ∃ e', parse e.print origin = .ok e' ∧ SameShape AnyPositions e e' := by
  obtain ⟨body, q, hcuts, hbody⟩ := Token.cuts_spaced (writable_printed e hw) origin
  obtain ⟨e', hsame, hreads⟩ := readable e 63 hw hheight 1 body (isWeaker_one e) hbody
  have hdepth : ∀ j, j ≤ 126 → Limits.standard.allowsDepth j = true := by
    intro j hj
    exact decide_eq_true (by omega : j < 128)
  have hallowed : Limits.standard.allowsHeight e'.height = true := by
    rw [← hsame.height_eq]
    exact decide_eq_true (by omega : e.height ≤ 256)
  refine ⟨e', ?_, hsame⟩
  unfold parse parseWithin print
  rw [hcuts.lex_eq_ok, ok_bind]
  exact ofLexemes_of_within hreads hdepth hallowed q

namespace Example

/-- A tree with operators on both sides of a difference, under a negation and in a call. -/
def nested : Expr :=
  .binary .mul
    (.negate (.binary .sub (.binary .sub (.name ['a'] .unknown) (.name ['b'] .unknown) .unknown)
      (.binary .add (.name ['c'] .unknown) (.name ['d'] .unknown) .unknown) .unknown) .unknown)
    (.call ['f'] [.vector [.zero, -.one] .unknown, .binary .add (.name ['a'] .unknown)
      (.number .one .unknown) .unknown] .unknown) .unknown

/-- Of the operators under the negation, the left one needs no parentheses and the right one does. -/
theorem parse_print_nested :
    String.ofList nested.print = "- ( a - b - ( c + d ) ) * f ( [ 0 , - 1 ] , a + 1 )" ∧
      ∃ e', parse nested.print (.inLine 1 0) = .ok e' ∧ SameShape AnyPositions nested e' :=
  ⟨by decide +kernel, parse_print (by rfl) (by decide) _⟩

end Example

end Expr
end Abacus
