/-
# Cutting a text piece by piece

`Cuts p cs ls q rest` says that the lexer, at the position `p` in front of the text `cs`, takes off
the lexemes `ls` and then stands at `q` in front of `rest`.  Every token is taken with the text that
really lies ahead of it, so a cut never splits a longest token, and cuts can be put one behind the
other.  The lexer itself answers for the whole text or not at all; the relation says what it does up
to some place, which is what two readers of one text have to agree on.

Main statements:

* `Cuts.lex_eq` and `cuts_of_lex`: the lexer succeeds exactly where a text can be cut to its end;
* `Cuts.next`: the next lexeme is the longest token behind the gaps;
* `Cuts.isOperand_of_isRunChar`: a letter, a digit or a point right ahead starts an operand.
-/
import Abacus.Environment.Substitution
import Abacus.Proofs.Binary64.ReadingBack
import Abacus.Proofs.Expr.Grammar
import Abacus.Proofs.Outcome

namespace Abacus

/-! ## 1. What can start a token -/

namespace Token

theorem isAlpha_of_isDigit {c : Char} (h : c.isDigit = true) : c.isAlpha = false := by
  have hdigit : c.toNat ≤ '9'.toNat := (Char.isDigit_iff_toNat.mp h).2
  have hupper : ¬ 'A'.val ≤ c.val := by
    intro hle
    exact absurd (Nat.le_trans (UInt32.le_iff_toNat_le.mp hle) hdigit) (by decide)
  have hlower : ¬ 'a'.val ≤ c.val := by
    intro hle
    exact absurd (Nat.le_trans (UInt32.le_iff_toNat_le.mp hle) hdigit) (by decide)
  calc c.isAlpha
      = (decide ('A'.val ≤ c.val ∧ c.val ≤ 'Z'.val)
          || (decide ('a'.val ≤ c.val) && decide (c.val ≤ 'z'.val))) := rfl
    _ = false := by
      rw [decide_eq_false (fun h => hupper h.1), decide_eq_false hlower, Bool.false_and,
        Bool.false_or]

/-- The scanner takes a name as long as it is. -/
theorem scan?_of_isAlpha {c : Char} (h : c.isAlpha = true) (cs : Text) :
    scan? (c :: cs) = some (.name ((c :: cs).takeWhile Text.isWordChar),
      (c :: cs).takeWhile Text.isWordChar, (c :: cs).dropWhile Text.isWordChar) := by
  rw [scan?, if_pos h]

/-- In front of a letter there is no numeral. -/
theorem ends_of_isAlpha {c : Char} (h : c.isAlpha = true) (cs : Text) :
    Numeral.Ends (c :: cs) := by
  intro d hd
  cases hd
  refine ⟨?_, ?_⟩
  · by_contra hdigit
    rw [isAlpha_of_isDigit (by simpa using hdigit)] at h
    cases h
  · rintro rfl
    cases h

/-- A numeral at the front is a number. -/
theorem scan?_of_hasDigit {cs : Text} (h : (Numeral.ofText cs).1.hasDigit = true) :
    scan? cs = some (.number (Numeral.ofText cs).1.value, (Numeral.ofText cs).1.text,
      (Numeral.ofText cs).2) := by
  cases cs with
  | nil => cases h
  | cons c cs =>
    have halpha : ¬ c.isAlpha = true := by
      intro halpha
      rw [Numeral.ofText_of_ends (ends_of_isAlpha halpha cs)] at h
      cases h
    rw [scan?, if_neg halpha]
    dsimp only
    rw [if_pos h]

/-- A written numeral is one number, if the text behind it does not continue it. -/
theorem scan?_numeral {n : Numeral} (hn : n.Proper) {rest : Text} (hrest : Numeral.Ends rest) :
    scan? (n.text ++ rest) = some (.number n.value, n.text, rest) := by
  have hread := Numeral.ofText_append hn hrest
  have hdigit : (Numeral.ofText (n.text ++ rest)).1.hasDigit = true := by
    rw [hread]
    exact hn.hasDigit
  have hscan := scan?_of_hasDigit hdigit
  rwa [hread] at hscan

/-- A character that starts neither a name nor a numeral stands for itself or for nothing. -/
theorem scan?_of_ends {c : Char} (halpha : c.isAlpha = false) {cs : Text}
    (h : Numeral.Ends (c :: cs)) : scan? (c :: cs) = symbol? c cs := by
  rw [scan?, if_neg (by simp [halpha])]
  dsimp only
  rw [Numeral.ofText_of_ends h]
  rfl

/-- The second character joins a symbol that starts with the first. -/
def joins (c d : Char) : Bool := d == '=' || (d == c && (d == '+' || d == '-'))

/-- A character that joins no symbol in front of it. -/
def isFree (d : Char) : Bool := d != '=' && d != '+' && d != '-'

theorem joins_of_isFree {d : Char} (h : isFree d = true) (c : Char) : joins c d = false := by
  simp only [isFree, Bool.and_eq_true, bne_iff_ne, ne_eq] at h
  simp [joins, h]

/-- The symbol of an operator determines the operator. -/
theorem symbol_of_ofSymbol? {c : Char} {op : Operator} (h : Operator.ofSymbol? c = some op) :
    op.symbol = c := by
  simpa using List.find?_some h

/-- A symbol of the grammar is one character, and it stays a symbol in front of any text that does
not start with a character that would join it. -/
theorem symbol?_congr (rest' : Text) {c : Char} {rest slice after : Text} {token : Token}
    (h : symbol? c rest = some (token, slice, after)) (hgrammar : token.isGrammatical = true)
    (hhead : ∀ d ∈ rest'.head?, d ∈ rest.head? ∨ joins c d = false) :
    slice = [c] ∧ after = rest ∧ symbol? c rest' = some (token, [c], rest') := by
  have hkeep : ∀ d more, joins c d = true → rest' = d :: more → ∃ more, rest = d :: more := by
    rintro d more hd rfl
    rcases hhead d rfl with hmem | hfree
    · cases rest with
      | nil => cases hmem
      | cons e rest =>
        cases hmem
        exact ⟨rest, rfl⟩
    · rw [hd] at hfree
      cases hfree
  unfold symbol? at h ⊢
  split at h
  · cases h; cases hgrammar
  · cases h; cases hgrammar
  · cases h; cases hgrammar
  · next op hop heq hadd hsub =>
    cases h
    refine ⟨rfl, rfl, ?_⟩
    have hsymbol := symbol_of_ofSymbol? hop
    rw [hop]
    split
    · next more _ =>
      obtain ⟨more', hrest⟩ := hkeep '=' more (by simp [joins]) rfl
      exact absurd hrest (heq _)
    · next more hop' =>
      cases hop'
      obtain ⟨more', hrest⟩ := hkeep '+' more (by rw [← hsymbol]; rfl) rfl
      exact (hadd _ hrest rfl).elim
    · next more hop' =>
      cases hop'
      obtain ⟨more', hrest⟩ := hkeep '-' more (by rw [← hsymbol]; rfl) rfl
      exact (hsub _ hrest rfl).elim
    · next hop' _ _ _ =>
      cases hop'
      rfl
    · next hnone => cases hnone
  · next hop =>
    obtain ⟨t, hpunct, heq⟩ := Option.map_eq_some_iff.mp h
    cases heq
    refine ⟨rfl, rfl, ?_⟩
    rw [hop]
    simp [hpunct]

/-- An operator in front of a text that does not join it. -/
theorem scan?_operator (op : Operator) {rest : Text}
    (h : ∀ d ∈ rest.head?, joins op.symbol d = false) :
    scan? (op.symbol :: rest) = some (.operator op, [op.symbol], rest) := by
  have hends : Numeral.Ends (op.symbol :: rest) := by
    intro d hd
    cases hd
    cases op <;> exact ⟨rfl, by decide⟩
  have hsymbol : symbol? op.symbol [] = some (.operator op, [op.symbol], []) := by
    cases op <;> rfl
  rw [scan?_of_ends (by cases op <;> rfl) hends]
  exact (symbol?_congr rest hsymbol rfl (fun d hd => Or.inr (h d hd))).2.2

/-- A bracket, a comma or an equals sign stands for itself. -/
theorem scan?_punctuation {c : Char} {t : Token} (h : punctuation? c = some t) (rest : Text) :
    scan? (c :: rest) = some (t, [c], rest) := by
  unfold punctuation? at h
  split at h <;> cases h <;>
    exact scan?_of_ends rfl (by rintro d hd; cases hd; exact ⟨rfl, by decide⟩)

/-- A symbol is written as it was read, and it is neither an operand nor the end of the
text. -/
theorem text_of_symbol? {c : Char} {rest slice after : Text} {token : Token}
    (h : symbol? c rest = some (token, slice, after)) :
    token.text = slice ∧ token.isOperand = false ∧ token ≠ .endOfInput := by
  unfold symbol? at h
  split at h
  · next hop =>
    cases h
    exact ⟨congrArg (fun d => [d, '=']) (symbol_of_ofSymbol? hop), rfl, by simp⟩
  · next hop =>
    cases h
    exact ⟨congrArg (fun d => [d, '+']) (symbol_of_ofSymbol? hop), rfl, by simp⟩
  · next hop =>
    cases h
    exact ⟨congrArg (fun d => [d, '-']) (symbol_of_ofSymbol? hop), rfl, by simp⟩
  · next hop _ _ _ =>
    cases h
    exact ⟨congrArg (fun d => [d]) (symbol_of_ofSymbol? hop), rfl, by simp⟩
  · obtain ⟨t, hpunct, heq⟩ := Option.map_eq_some_iff.mp h
    cases heq
    unfold punctuation? at hpunct
    split at hpunct <;> cases hpunct <;> exact ⟨rfl, rfl, by simp⟩

/-! ## 2. What a token was read from -/

/-- A token was read from a word, from a numeral or from a symbol. -/
theorem scan?_cases {cs slice after : Text} {token : Token}
    (h : scan? cs = some (token, slice, after)) :
    (∃ c rest, cs = c :: rest ∧ c.isAlpha = true ∧ token = .name slice ∧
        slice = cs.takeWhile Text.isWordChar ∧ after = cs.dropWhile Text.isWordChar) ∨
      (∃ n : Numeral, n.Proper ∧ Numeral.ofText cs = (n, after) ∧ token = .number n.value ∧
        slice = n.text) ∨
      (∃ c rest, cs = c :: rest ∧ c.isAlpha = false ∧ Numeral.Ends cs ∧
        symbol? c rest = some (token, slice, after)) := by
  cases cs with
  | nil => cases h
  | cons c rest =>
    by_cases halpha : c.isAlpha = true
    · rw [scan?_of_isAlpha halpha] at h
      cases h
      exact Or.inl ⟨c, rest, rfl, halpha, rfl, rfl, rfl⟩
    by_cases hdigit : (Numeral.ofText (c :: rest)).1.hasDigit = true
    · rw [scan?_of_hasDigit hdigit] at h
      cases h
      exact Or.inr (Or.inl ⟨_, Numeral.proper_ofText hdigit, rfl, rfl, rfl⟩)
    have hsymbol : symbol? c rest = some (token, slice, after) := by
      rw [scan?, if_neg halpha] at h
      dsimp only at h
      rwa [if_neg hdigit] at h
    refine Or.inr (Or.inr ⟨c, rest, rfl, by simpa using halpha, ?_, hsymbol⟩)
    intro d hd
    cases hd
    refine ⟨?_, ?_⟩
    · by_contra hc
      refine hdigit ?_
      unfold Numeral.ofText
      rw [List.takeWhile_cons_of_pos (by simpa using hc)]
      dsimp only
      split <;> rfl
    · rintro rfl
      cases hsymbol

/-- Every token but a number is written as it was read. -/
theorem text_of_scan? {cs slice after : Text} {token : Token}
    (h : scan? cs = some (token, slice, after)) (hnumber : ∀ x, token ≠ .number x) :
    token.text = slice := by
  rcases scan?_cases h with ⟨c, rest, -, -, rfl, -, -⟩ | ⟨n, -, -, rfl, -⟩ | ⟨c, rest, -, -, -, hs⟩
  · rfl
  · exact absurd rfl (hnumber _)
  · exact (text_of_symbol? hs).1

/-- A character that separates tokens starts none. -/
theorem isGap_of_scan? {c : Char} {cs slice after : Text} {token : Token}
    (h : scan? (c :: cs) = some (token, slice, after)) : isGap c = false := by
  by_contra hgap
  simp only [Bool.not_eq_false, isGap, Bool.or_eq_true, beq_iff_eq] at hgap
  have hnone : scan? (c :: cs) = none := by
    rcases hgap with (rfl | rfl) | rfl <;>
      exact scan?_of_ends rfl (by rintro d hd; cases hd; exact ⟨rfl, by decide⟩)
  rw [hnone] at h
  cases h

/-! ## 3. Cuts -/

/-- Where a token starts, the lexer takes it off and goes on behind it. -/
theorem lex_of_scan? {p : Position} {cs slice after : Text} {t : Token}
    (hscan : scan? cs = some (t, slice, after)) :
    lex p cs = if t.isTooLarge then .error ⟨.literalTooLarge, p⟩
      else (lex (p.advance (Text.byteLength slice)) after).map (fun more => ⟨t, p⟩ :: more) := by
  cases cs with
  | nil => cases hscan
  | cons c cs =>
    rw [lex, if_neg (by simp [isGap_of_scan? hscan])]
    split
    · next hnone =>
      rw [hscan] at hnone
      cases hnone
    · next t' slice' after' hsome =>
      rw [hscan] at hsome
      cases hsome
      split
      · rfl
      · cases lex (p.advance (Text.byteLength slice)) after <;> rfl

/-- Where no token starts, the lexer is in error. -/
theorem lex_of_scan?_eq_none {p : Position} {c : Char} {cs : Text} (hgap : ¬ isGap c = true)
    (hscan : scan? (c :: cs) = none) : lex p (c :: cs) = .error ⟨.unexpectedCharacter c, p⟩ := by
  rw [lex, if_neg hgap]
  split
  · rfl
  · next hsome =>
    rw [hscan] at hsome
    cases hsome

/-- The lexer goes from one place to another and takes off the lexemes in between. -/
inductive Cuts : Position → Text → List Lexeme → Position → Text → Prop
  | done {p : Position} {cs : Text} : Cuts p cs [] p cs
  | gap {p q : Position} {c : Char} {cs rest : Text} {ls : List Lexeme} :
      isGap c = true → Cuts (p.advance c.utf8Size) cs ls q rest → Cuts p (c :: cs) ls q rest
  | token {p q : Position} {cs slice after rest : Text} {t : Token} {ls : List Lexeme} :
      scan? cs = some (t, slice, after) → t.isTooLarge = false →
        Cuts (p.advance (Text.byteLength slice)) after ls q rest →
          Cuts p cs (⟨t, p⟩ :: ls) q rest

namespace Cuts

variable {p q r : Position} {cs mid rest : Text} {ls ls' : List Lexeme}

/-- A single token. -/
theorem single {slice after : Text} {t : Token} (h : scan? cs = some (t, slice, after))
    (hsmall : t.isTooLarge = false) :
    Cuts p cs [⟨t, p⟩] (p.advance (Text.byteLength slice)) after :=
  .token h hsmall .done

/-- Cuts can be put one behind the other. -/
theorem trans (h : Cuts p cs ls q mid) (h' : Cuts q mid ls' r rest) :
    Cuts p cs (ls ++ ls') r rest := by
  induction h with
  | done => exact h'
  | gap hgap _ ih => exact .gap hgap (ih h')
  | token hscan hsmall _ ih => exact .token hscan hsmall (ih h')

/-- What separates tokens is passed over. -/
theorem gaps {gaps : Text} (h : ∀ c ∈ gaps, isGap c = true) (p : Position) (rest : Text) :
    Cuts p (gaps ++ rest) [] (p.advance (Text.byteLength gaps)) rest := by
  induction gaps generalizing p with
  | nil => exact .done
  | cons c gaps ih =>
    have htail := ih (fun d hd => h d (List.mem_cons_of_mem _ hd)) (p.advance c.utf8Size)
    rw [Position.advance_advance, ← Text.byteLength_cons] at htail
    exact .gap (h c List.mem_cons_self) htail

/-- Where no lexeme is taken off, only separators are. -/
theorem isGap_of_nil (h : Cuts p cs [] q rest) : ∃ gaps, cs = gaps ++ rest ∧
    ∀ c ∈ gaps, isGap c = true := by
  generalize hnil : ([] : List Lexeme) = ls at h
  induction h with
  | done => exact ⟨[], rfl, by simp⟩
  | @gap p q c cs rest ls hgap _ ih =>
    obtain ⟨gaps, rfl, hall⟩ := ih hnil
    exact ⟨c :: gaps, rfl, List.forall_mem_cons.mpr ⟨hgap, hall⟩⟩
  | token => cases hnil

/-- **The next lexeme** is the longest token behind the separators. -/
theorem next {t : Token} {p' : Position} (h : Cuts p cs (⟨t, p'⟩ :: ls) q rest) :
    ∃ slice after r, scan? (cs.dropWhile isGap) = some (t, slice, after) ∧
      t.isTooLarge = false ∧ Cuts r after ls q rest := by
  generalize hall : (⟨t, p'⟩ :: ls : List Lexeme) = all at h
  induction h with
  | done => cases hall
  | gap hgap _ ih =>
    rw [List.dropWhile_cons_of_pos hgap]
    exact ih hall
  | @token p q cs slice after rest t ls hscan hsmall h _ =>
    cases hall
    refine ⟨slice, after, _, ?_, hsmall, h⟩
    cases cs with
    | nil => cases hscan
    | cons c cs =>
      rw [List.dropWhile_cons_of_neg (by simp [isGap_of_scan? hscan])]
      exact hscan

/-- Every lexeme takes a character at least. -/
theorem length_le (h : Cuts p cs ls q rest) : ls.length + rest.length ≤ cs.length := by
  induction h with
  | done => simp
  | gap _ _ ih =>
    rw [List.length_cons]
    omega
  | token hscan _ _ ih =>
    have := length_after_lt hscan
    rw [List.length_cons]
    omega

/-- The marker for the end of input is never taken off. -/
theorem endOfInput_notMem (h : Cuts p cs ls q rest) : Token.endOfInput ∉ tokens ls := by
  induction h with
  | done => simp
  | gap _ _ ih => exact ih
  | token hscan _ _ ih =>
    rw [tokens_cons, List.mem_cons, not_or]
    refine ⟨?_, ih⟩
    rintro rfl
    rcases scan?_cases hscan with ⟨_, _, -, -, hname, -⟩ | ⟨n, -, -, hnumber, -⟩ |
        ⟨_, _, -, -, -, hsymbol⟩
    · cases hname
    · cases hnumber
    · exact (text_of_symbol? hsymbol).2.2 rfl

/-- Every token but a number is found in the text as it is written. -/
theorem mem_of_mem_text (h : Cuts p cs ls q rest) {t : Token} (ht : t ∈ tokens ls)
    (hnumber : ∀ x, t ≠ .number x) : ∀ c ∈ t.text, c ∈ cs := by
  induction h with
  | done => cases ht
  | gap _ _ ih =>
    intro c hc
    exact List.mem_cons_of_mem _ (ih ht c hc)
  | token hscan _ _ ih =>
    intro c hc
    rw [← (scan?_split hscan).1, List.mem_append]
    rw [tokens_cons, List.mem_cons] at ht
    rcases ht with rfl | ht
    · rw [text_of_scan? hscan hnumber] at hc
      exact Or.inl hc
    · exact Or.inr (ih ht c hc)

/-- Where a text can be cut to some place, the lexer goes on from there. -/
theorem lex_eq (h : Cuts p cs ls q rest) :
    lex p cs = (lex q rest).map (fun more => ls ++ more) := by
  induction h with
  | done =>
    cases hrest : lex _ _ <;> rfl
  | @gap p q c cs rest ls hgap _ ih =>
    rw [lex, if_pos hgap, ih]
  | @token p q cs slice after rest t ls hscan hsmall _ ih =>
    rw [lex_of_scan? hscan, if_neg (by simp [hsmall]), ih]
    exact map_map _ _ _

/-- A text that can be cut to its end has the lexemes of the cut. -/
theorem lex_eq_ok (h : Cuts p cs ls q []) : lex p cs = .ok (ls ++ [⟨.endOfInput, q⟩]) := by
  rw [h.lex_eq, lex, map_ok]

end Cuts

/-- The lexer succeeds only where a text can be cut to its end. -/
theorem cuts_of_lex {p : Position} {cs : Text} {ls : List Lexeme} (h : lex p cs = .ok ls) :
    ∃ body q, ls = body ++ [⟨.endOfInput, q⟩] ∧ Cuts p cs body q [] := by
  induction p, cs using lex.induct generalizing ls with
  | case1 p =>
    rw [lex] at h
    cases h
    exact ⟨[], p, rfl, .done⟩
  | case2 p c rest hgap ih =>
    rw [lex, if_pos hgap] at h
    obtain ⟨body, q, rfl, hcuts⟩ := ih h
    exact ⟨body, q, rfl, .gap hgap hcuts⟩
  | case3 p c rest hgap hscan =>
    rw [lex_of_scan?_eq_none hgap hscan] at h
    cases h
  | case4 p c rest hgap token slice after hscan hlarge =>
    rw [lex_of_scan? hscan, if_pos hlarge] at h
    cases h
  | case5 p c rest hgap token slice after hscan hsmall ih =>
    rw [lex_of_scan? hscan, if_neg hsmall] at h
    obtain ⟨more, hmore, heq⟩ := map_eq_ok h
    obtain ⟨body, q, rfl, hcuts⟩ := ih hmore
    refine ⟨⟨token, p⟩ :: body, q, heq.symm, ?_⟩
    exact .token hscan (by simpa using hsmall) hcuts

/-! ## 4. What lies right ahead -/

theorem isGap_of_isBlank {c : Char} (h : Text.isBlank c = true) : isGap c = true := by
  simp only [isGap, Bool.or_eq_true]
  exact Or.inl (by simpa [Text.isBlank] using h)

/-- Without form feeds, what separates tokens are the blanks. -/
theorem dropWhile_isBlank {cs : Text} (h : '\x0c' ∉ cs) :
    cs.dropWhile Text.isBlank = cs.dropWhile isGap := by
  induction cs with
  | nil => rfl
  | cons c cs ih =>
    obtain ⟨hc, hcs⟩ := List.ne_and_not_mem_of_not_mem_cons h
    have hsame : isGap c = Text.isBlank c := by simp [isGap, Text.isBlank, Ne.symm hc]
    by_cases hblank : Text.isBlank c = true
    · rw [List.dropWhile_cons_of_pos hblank, List.dropWhile_cons_of_pos (hsame ▸ hblank), ih hcs]
    · rw [List.dropWhile_cons_of_neg hblank, List.dropWhile_cons_of_neg (hsame ▸ hblank)]

/-- Dropping blanks first makes no difference to what lies behind the separators. -/
theorem dropWhile_isGap_dropWhile_isBlank (cs : Text) :
    (cs.dropWhile Text.isBlank).dropWhile isGap = cs.dropWhile isGap := by
  induction cs with
  | nil => rfl
  | cons c cs ih =>
    by_cases hblank : Text.isBlank c = true
    · rw [List.dropWhile_cons_of_pos hblank, ih,
        List.dropWhile_cons_of_pos (isGap_of_isBlank hblank)]
    · rw [List.dropWhile_cons_of_neg hblank]

namespace Cuts

variable {p q : Position} {cs : Text} {ls : List Lexeme}

/-- The separators in front of a text make no difference to its lexemes. -/
theorem dropWhile_isGap (h : Cuts p cs ls q []) : ∃ r, Cuts r (cs.dropWhile isGap) ls q [] := by
  generalize hnil : ([] : Text) = rest at h
  induction h with
  | done =>
    subst hnil
    exact ⟨_, .done⟩
  | gap hgap _ ih =>
    rw [List.dropWhile_cons_of_pos hgap]
    exact ih hnil
  | @token p q cs slice after rest t ls hscan hsmall h _ =>
    cases cs with
    | nil => cases hscan
    | cons c cs =>
      rw [List.dropWhile_cons_of_neg (by simp [isGap_of_scan? hscan])]
      exact ⟨p, .token hscan hsmall h⟩

/-- Where something lies behind the separators, there is a next lexeme. -/
theorem exists_next (h : Cuts p cs ls q []) (hne : cs.dropWhile isGap ≠ []) :
    ∃ t p' ls', ls = ⟨t, p'⟩ :: ls' := by
  cases ls with
  | nil =>
    obtain ⟨gaps, rfl, hall⟩ := h.isGap_of_nil
    refine absurd ?_ hne
    rw [List.append_nil, List.dropWhile_eq_nil_iff]
    exact hall
  | cons l ls => exact ⟨l.item, l.position, ls, rfl⟩

/-- A letter, a digit or a point right ahead starts an operand. -/
theorem isOperand_of_isRunChar (h : Cuts p cs ls q []) {c : Char} (hc : c ∈ cs.head?)
    (hrun : Environment.isRunChar c = true) :
    ∃ t ts, tokens ls = t :: ts ∧ t.isOperand = true := by
  cases h with
  | done => cases hc
  | gap hgap _ =>
    cases hc
    simp only [isGap, Bool.or_eq_true, beq_iff_eq] at hgap
    rcases hgap with (rfl | rfl) | rfl <;> cases hrun
  | @token p q cs slice after rest t ls hscan hsmall h =>
    refine ⟨t, tokens ls, rfl, ?_⟩
    rcases scan?_cases hscan with ⟨d, rest, -, -, rfl, -, -⟩ | ⟨n, -, -, rfl, -⟩ |
        ⟨d, rest, rfl, halpha, hends, hsymbol⟩
    · rfl
    · rfl
    · cases hc
      obtain ⟨hdigit, hpoint⟩ := hends c rfl
      have hunder : c = '_' := by
        simpa [Environment.isRunChar, Char.isAlphanum, halpha, hdigit, hpoint] using hrun
      subst hunder
      cases hsymbol

/-- An opening parenthesis behind blanks is the next lexeme. -/
theorem openParen_of_head? (h : Cuts p cs ls q [])
    (hparen : (cs.dropWhile Text.isBlank).head? = some '(') :
    ∃ p' ls', ls = ⟨.openParen, p'⟩ :: ls' := by
  obtain ⟨more, hmore⟩ := List.head?_eq_some_iff.mp hparen
  have hdrop : cs.dropWhile isGap = '(' :: more := by
    rw [← dropWhile_isGap_dropWhile_isBlank, hmore]
    rfl
  obtain ⟨t, p', ls', rfl⟩ := h.exists_next (by simp [hdrop])
  obtain ⟨slice, after, r, hscan, -, -⟩ := h.next
  rw [hdrop] at hscan
  have hscan' : scan? ('(' :: more) = some (.openParen, ['('], more) :=
    scan?_punctuation rfl more
  rw [hscan'] at hscan
  cases hscan
  exact ⟨p', ls', rfl⟩

/-- Without form feeds, an opening parenthesis that is the next lexeme stands behind blanks. -/
theorem head?_of_openParen {p' : Position} (h : Cuts p cs (⟨.openParen, p'⟩ :: ls) q [])
    (hfeed : '\x0c' ∉ cs) : (cs.dropWhile Text.isBlank).head? = some '(' := by
  obtain ⟨slice, after, r, hscan, -, -⟩ := h.next
  have hslice : ['('] = slice := text_of_scan? hscan (by simp)
  rw [dropWhile_isBlank hfeed, ← (scan?_split hscan).1, ← hslice]
  rfl

end Cuts

end Token
end Abacus
