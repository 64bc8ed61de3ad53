/-
# What the scanners of literals find

A literal can be read by a scanner that walks over the characters, or by the lexer and the parser.
The two meet in the shapes of lexemes that the grammar gives to literals.

* What a scanner finds is a cut of the text into lexemes of the shape (`Sound`).  The scanner looks
  one character ahead, so each step needs that no longer token starts there: a minus sign is found
  only in front of a number, and a number never continues with a digit.
* Where lexemes of the shape lie ahead, the scanner finds what they stand for (`Complete`).  Here the
  lexer has passed over form feeds, which no scanner does, so the statement needs a text without
  them.

Both are proved construct by construct, in parallel.

Main statements:

* `between_vector`, `between_matrix`, `between_rational`: what is found is a cut;
* `complete_vector`, `complete_matrix`, `complete_rational`: what can be cut is found;
* `alike_vector`, `alike_matrix`, `alike_rational`: where the text starts matters to errors only.
-/
import Abacus.Literal.Scan
import Abacus.Proofs.Expr.Grammar
import Abacus.Proofs.Token.Cuts

namespace Abacus
namespace Literal

open Abacus.Expr (Separated Listed Signed Row Reads)
open Token (Cuts scan? isGap isFree)

/-! ## 1. Cuts between cursors -/

/-- The lexemes between two cursors, in a text whose first byte is at `origin`. -/
def Between (origin : Position) (c : Cursor) (ls : List Lexeme) (d : Cursor) : Prop :=
  Cuts (c.position origin) c.rest ls (d.position origin) d.rest

/-- What the scanner finds is a cut into lexemes of the shape, wherever the text starts. -/
def Sound {α : Type} (scan : Cursor → Scan α) (shape : α → List Lexeme → Prop) : Prop :=
  ∀ origin c x after, scan c = .found x after → ∃ ls, shape x ls ∧ Between origin c ls after

section Between

variable {origin : Position} {c d e : Cursor} {ls ls' : List Lexeme}

theorem Between.trans (h : Between origin c ls d) (h' : Between origin d ls' e) :
    Between origin c (ls ++ ls') e :=
  Cuts.trans h h'

theorem between_skipBlanks (origin : Position) (c : Cursor) :
    Between origin c [] c.skipBlanks := by
  have hgaps : ∀ d ∈ c.rest.takeWhile Text.isBlank, Token.isGap d = true :=
    fun d hd => Token.isGap_of_isBlank (List.mem_takeWhile_imp hd)
  have hcuts := Cuts.gaps hgaps (c.position origin) c.skipBlanks.rest
  have hrest : c.rest.takeWhile Text.isBlank ++ c.skipBlanks.rest = c.rest :=
    List.takeWhile_append_dropWhile
  rw [hrest, Cursor.position, Position.advance_advance] at hcuts
  exact hcuts

theorem Between.skipBlanks (h : Between origin c.skipBlanks ls d) : Between origin c ls d :=
  (between_skipBlanks origin c).trans h

/-- A character that is taken and that is a token is that lexeme. -/
theorem between_take? {expected : Char} {t : Token} (h : c.take? expected = some d)
    (hscan : scan? (expected :: d.rest) = some (t, [expected], d.rest))
    (hsmall : t.isTooLarge = false) :
    Between origin c [⟨t, c.position origin⟩] d := by
  unfold Cursor.take? at h
  split at h
  · cases h
  · next next rest hrest =>
    split at h
    · next heq =>
      cases h
      subst heq
      have hsingle := Cuts.single (p := c.position origin) hscan hsmall
      rw [← hrest, Cursor.position, Position.advance_advance] at hsingle
      simpa [Between, Cursor.position] using hsingle
    · cases h

/-- A bracket or a comma that is taken. -/
theorem between_punctuation {expected : Char} {t : Token} (h : c.take? expected = some d)
    (hpunct : Token.punctuation? expected = some t) :
    Between origin c [⟨t, c.position origin⟩] d := by
  refine between_take? h (Token.scan?_punctuation hpunct d.rest) ?_
  unfold Token.punctuation? at hpunct
  split at hpunct <;> cases hpunct <;> rfl

end Between

/-! ## 2. What is found is a cut -/

/-- What a successful scan of a number was read from. -/
theorem of_number {origin : Position} {c after : Cursor} {x : Binary64}
    (h : number origin c = .found x after) :
    ∃ n : Numeral, n.Proper ∧ Numeral.ofText c.rest = (n, after.rest) ∧ n.value = x ∧
      x.isFinite = true ∧ after.offset = c.offset + Text.byteLength n.text := by
  have hproper := @Numeral.proper_ofText c.rest
  unfold number at h
  generalize hread : Numeral.ofText c.rest = read at h hproper
  obtain ⟨n, rest⟩ := read
  dsimp only at h hproper
  generalize hvalue : n.value = y at h
  cases hdigit : n.hasDigit with
  | false =>
    rw [hdigit] at h
    cases h
  | true =>
    cases hfinite : y.isFinite with
    | false =>
      rw [hdigit, hfinite] at h
      cases h
    | true =>
      rw [hdigit, hfinite] at h
      cases h
      exact ⟨n, hproper hdigit, rfl, hvalue, hfinite, rfl⟩

theorem sound_number (scanOrigin : Position) :
    ∀ origin c x after, number scanOrigin c = .found x after →
      Between origin c [⟨.number x, c.position origin⟩] after := by
  intro origin c x after h
  obtain ⟨n, hproper, hread, rfl, hfinite, hoffset⟩ := of_number h
  have hdigit : (Numeral.ofText c.rest).1.hasDigit = true := by
    rw [hread]
    exact hproper.hasDigit
  have hscan := Token.scan?_of_hasDigit hdigit
  rw [hread] at hscan
  have hsingle := Cuts.single (p := c.position origin) hscan (by simp [Token.isTooLarge, hfinite])
  rw [Cursor.position, Position.advance_advance, ← hoffset] at hsingle
  exact hsingle

/-- A number starts with a digit or a point. -/
theorem head?_of_number {origin : Position} {c after : Cursor} {x : Binary64}
    (h : number origin c = .found x after) :
    ∃ d ∈ c.rest.head?, d.isDigit = true ∨ d = '.' := by
  obtain ⟨n, hproper, hread, -, -, -⟩ := of_number h
  have hsplit := Numeral.ofText_text c.rest
  rw [hread] at hsplit
  obtain ⟨d, digits, hd⟩ := List.exists_cons_of_ne_nil hproper.text_ne_nil
  refine ⟨d, ?_, hproper.mem_text (by rw [hd]; exact List.mem_cons_self)⟩
  rw [← hsplit, hd]
  rfl

/-- A number, and blanks in front of it, join no operator. -/
theorem joins_of_number {origin : Position} {c after : Cursor} {x : Binary64}
    (h : number origin c.skipBlanks = .found x after) (op : Operator) :
    ∀ d ∈ c.rest.head?, Token.joins op.symbol d = false := by
  intro d hd
  refine Token.joins_of_isFree ?_ _
  obtain ⟨first, hfirst, hnumeral⟩ := head?_of_number h
  have hrest : c.skipBlanks.rest = c.rest.dropWhile Text.isBlank := rfl
  rw [hrest] at hfirst
  cases hcs : c.rest with
  | nil =>
    rw [hcs] at hd
    cases hd
  | cons d' cs =>
    rw [hcs] at hd hfirst
    cases hd
    by_cases hblank : Text.isBlank d = true
    · simp only [Text.isBlank, Bool.or_eq_true, beq_iff_eq] at hblank
      rcases hblank with rfl | rfl <;> rfl
    · rw [List.dropWhile_cons_of_neg hblank] at hfirst
      cases hfirst
      rcases hnumeral with hdigit | rfl
      · simp only [isFree, Bool.and_eq_true, bne_iff_ne, ne_eq]
        refine ⟨⟨?_, ?_⟩, ?_⟩ <;> rintro rfl <;> cases hdigit
      · rfl

theorem sound_signedNumber (scanOrigin : Position) : Sound (signedNumber scanOrigin) Signed := by
  intro origin c x after h
  unfold signedNumber at h
  split at h
  · exact ⟨_, .plain, sound_number _ origin c x after h⟩
  · next behind hbehind =>
    split at h
    · next y after' hy =>
      cases h
      have hminus : Between origin c [⟨.operator .sub, c.position origin⟩] behind :=
        between_take? hbehind (Token.scan?_operator .sub (joins_of_number hy .sub)) rfl
      exact ⟨_, .minus, hminus.trans (sound_number _ origin _ y _ hy).skipBlanks⟩
    · cases h

/-- The two things that can follow an item. -/
theorem between_separator (origin : Position) {scanOrigin opener : Position} {c after : Cursor}
    {more : Bool} (h : separator scanOrigin opener c = .found more after) :
    Between origin c [⟨if more then .comma else .closeBracket, c.position origin⟩] after := by
  unfold separator at h
  split at h
  · next hcomma => cases h; exact between_punctuation hcomma rfl
  · next hclose => cases h; exact between_punctuation hclose rfl
  · cases h
  · cases h

theorem between_openBracket {origin scanOrigin : Position} {c inside : Cursor}
    (h : openBracket scanOrigin c = .found () inside) :
    Between origin c [⟨.openBracket, c.position origin⟩] inside := by
  unfold openBracket at h
  split at h
  · next hopen => cases h; exact between_punctuation hopen rfl
  · cases h
  · cases h

theorem map_eq_found {α β : Type} {f : α → β} {scan : Scan α} {y : β} {after : Cursor}
    (h : scan.map f = .found y after) : ∃ x, scan = .found x after ∧ f x = y := by
  cases scan with
  | found x after' => cases h; exact ⟨x, rfl, rfl⟩
  | failed error stop => cases h

/-- Items up to the closing bracket, and that bracket. -/
theorem sound_items {α : Type} {item : Cursor → Scan α} {shape : α → List Lexeme → Prop}
    (hitem : Sound item shape) (scanOrigin opener : Position) (bound : Nat) :
    Sound (items item scanOrigin opener bound)
      (fun xs ls => ∃ ls' p, ls = ls' ++ [⟨.closeBracket, p⟩] ∧ Separated shape xs ls') := by
  induction bound with
  | zero => intro origin c xs after h; cases h
  | succ bound ih =>
    intro origin c xs after h
    unfold items at h
    dsimp only at h
    split at h
    · cases h
    · split at h
      · cases h
      · next x behind hx =>
        obtain ⟨ls, hshape, hcut⟩ := hitem origin _ _ _ hx
        split at h
        · cases h
        · next after' hsep =>
          cases h
          have hclose := (between_separator origin hsep).skipBlanks
          exact ⟨_, ⟨ls, _, rfl, .one hshape⟩, hcut.skipBlanks.trans hclose⟩
        · next next hsep =>
          have hcomma := (between_separator origin hsep).skipBlanks
          obtain ⟨xs, hxs, rfl⟩ := map_eq_found h
          obtain ⟨_, ⟨ls', p, rfl, hsep'⟩, hmore⟩ := ih origin _ _ _ hxs
          refine ⟨_, ⟨ls ++ ⟨.comma, behind.skipBlanks.position origin⟩ :: ls', p, ?_,
            .more hshape hsep'⟩, (hcut.skipBlanks.trans hcomma).trans hmore⟩
          simp

/-- A vector, behind the bracket that stands at the cursor. -/
theorem between_vector (origin : Position) {scanOrigin : Position} {c after : Cursor}
    {xs : List Binary64} (h : vector scanOrigin c = .found xs after) :
    ∃ ls, Listed Signed .closeBracket xs ls ∧
      Between origin c (⟨.openBracket, c.position origin⟩ :: ls) after := by
  unfold vector at h
  split at h
  · cases h
  · next inside hinside =>
    have hopen : Between origin c [⟨.openBracket, c.position origin⟩] inside :=
      between_openBracket hinside
    dsimp only at h
    split at h
    · next behind hbehind =>
      cases h
      have hclose : Between origin inside _ after :=
        (between_punctuation hbehind rfl).skipBlanks
      exact ⟨_, .empty, hopen.trans hclose⟩
    · obtain ⟨_, ⟨ls, p, rfl, hsep⟩, hcut⟩ := sound_items (sound_signedNumber _) _ _ _ origin _ _ _ h
      exact ⟨_, .filled hsep, hopen.trans hcut.skipBlanks⟩

theorem sound_vector (scanOrigin : Position) : Sound (vector scanOrigin) Row := by
  intro origin c xs after h
  obtain ⟨ls, hlist, hcut⟩ := between_vector origin h
  exact ⟨_, .row hlist, hcut⟩

/-- A matrix, behind the bracket that stands at the cursor. -/
theorem between_matrix (origin : Position) {scanOrigin : Position} {c after : Cursor}
    {rows : List (List Binary64)} (h : matrix scanOrigin c = .found rows after) :
    ∃ ls p, Separated Row rows ls ∧
      Between origin c (⟨.openBracket, c.position origin⟩ :: (ls ++ [⟨.closeBracket, p⟩])) after := by
  unfold matrix at h
  split at h
  · cases h
  · next inside hinside =>
    have hopen : Between origin c [⟨.openBracket, c.position origin⟩] inside :=
      between_openBracket hinside
    obtain ⟨_, ⟨ls, p, rfl, hsep⟩, hcut⟩ := sound_items (sound_vector _) _ _ _ origin _ _ _ h
    exact ⟨ls, p, hsep, hopen.trans hcut⟩

/-- A fraction. -/
theorem between_rational (origin : Position) {scanOrigin : Position} {c after : Cursor}
    {x y : Binary64} (h : rational scanOrigin c = .found (x, y) after) :
    ∃ q r, Between origin c [⟨.number x, c.skipBlanks.position origin⟩, ⟨.operator .div, q⟩,
      ⟨.number y, r⟩] after := by
  unfold rational at h
  dsimp only at h
  split at h
  · cases h
  · next x' behind hx =>
    split at h
    · cases h
    · next next hslash =>
      split at h
      · cases h
      · next y' after' hy =>
        cases h
        have hnumerator := (sound_number _ origin _ _ _ hx).skipBlanks
        have hdiv : Between origin behind.skipBlanks _ next :=
          between_take? hslash (Token.scan?_operator .div (joins_of_number hy .div)) rfl
        have hdenominator := (sound_number _ origin _ _ _ hy).skipBlanks
        exact ⟨_, _, (hnumerator.trans hdiv.skipBlanks).trans hdenominator⟩

/-! ## 3. What can be cut is found -/

/-- A character other than the next one is not taken. -/
theorem take?_eq_none {c : Cursor} {d expected : Char} (hd : d ∈ c.rest.head?)
    (hne : d ≠ expected) : c.take? expected = none := by
  unfold Cursor.take?
  split
  · rfl
  · next next rest hrest =>
    rw [hrest] at hd
    cases hd
    rw [if_neg hne]

theorem take?_eq_none_of_take? {c d : Cursor} {expected other : Char}
    (h : c.take? expected = some d) (hne : expected ≠ other) : c.take? other = none := by
  unfold Cursor.take? at h
  split at h
  · cases h
  · next next rest hrest =>
    split at h
    · next heq => exact take?_eq_none (d := next) (by rw [hrest]; rfl) (heq ▸ hne)
    · cases h

theorem peek?_ne_of_take? {c : Cursor} {expected : Char} (h : c.take? expected = none) :
    c.peek? ≠ some expected := by
  intro hpeek
  obtain ⟨rest, hrest⟩ := List.head?_eq_some_iff.mp hpeek
  unfold Cursor.take? at h
  rw [hrest] at h
  simp at h

/-- The lexemes ahead of a cursor, up to the end of a text without form feeds. -/
def Ahead (c : Cursor) (ls : List Lexeme) : Prop :=
  '\x0c' ∉ c.rest ∧ ∃ p q, Cuts p c.rest ls q []

/-- Where lexemes of a shape lie ahead, the scanner finds what they stand for and leaves the
rest. -/
def Complete {α : Type} (scan : Cursor → Scan α) (shape : α → List Lexeme → Prop) : Prop :=
  ∀ c x ls more, shape x ls → Ahead c (ls ++ more) →
    ∃ after, scan c.skipBlanks = .found x after ∧ Ahead after more

section Ahead

variable {c : Cursor} {ls : List Lexeme} {t : Token} {p : Position}

/-- Blanks make no difference to the lexemes ahead. -/
theorem Ahead.skipBlanks (h : Ahead c ls) : Ahead c.skipBlanks ls := by
  obtain ⟨hfeed, p, q, hcuts⟩ := h
  obtain ⟨r, hcuts'⟩ := hcuts.dropWhile_isGap
  rw [← Token.dropWhile_isBlank hfeed] at hcuts'
  exact ⟨fun hmem => hfeed ((List.dropWhile_sublist _).mem hmem), r, q, hcuts'⟩

/-- The next lexeme ahead is the longest token behind the blanks. -/
theorem Ahead.next (h : Ahead c (⟨t, p⟩ :: ls)) :
    ∃ slice after, scan? c.skipBlanks.rest = some (t, slice, after) ∧ t.isTooLarge = false ∧
      ∀ offset, Ahead ⟨offset, after⟩ ls := by
  obtain ⟨hfeed, r, q, hcuts⟩ := h
  obtain ⟨slice, after, r', hscan, hsmall, hmore⟩ := hcuts.next
  rw [← Token.dropWhile_isBlank hfeed] at hscan
  refine ⟨slice, after, hscan, hsmall, fun offset => ⟨?_, r', q, hmore⟩⟩
  intro hmem
  refine hfeed ((List.dropWhile_sublist Text.isBlank).mem ?_)
  rw [← (Token.scan?_split hscan).1]
  exact List.mem_append_right _ hmem

/-- A bracket, a comma or an operator that is the next lexeme can be taken. -/
theorem Ahead.take? {expected : Char} (h : Ahead c (⟨t, p⟩ :: ls)) (htext : t.text = [expected])
    (hnumber : ∀ x, t ≠ .number x) :
    ∃ d, c.skipBlanks.take? expected = some d ∧ Ahead d ls := by
  obtain ⟨slice, after, hscan, -, hmore⟩ := h.next
  have hslice := Token.text_of_scan? hscan hnumber
  have hrest : c.skipBlanks.rest = expected :: after := by
    rw [← (Token.scan?_split hscan).1, ← hslice, htext]
    rfl
  refine ⟨_, ?_, hmore (c.skipBlanks.offset + expected.utf8Size)⟩
  unfold Cursor.take?
  rw [hrest]
  exact if_pos rfl

/-- A lexeme that is written in one character is the next character behind the blanks. -/
theorem Ahead.peek? {c : Cursor} {t : Token} {p : Position} {ls : List Lexeme} {expected : Char}
    (h : Ahead c (⟨t, p⟩ :: ls)) (htext : t.text = [expected]) (hnumber : ∀ x, t ≠ .number x) :
    c.skipBlanks.peek? = some expected := by
  obtain ⟨d, hd, -⟩ := h.take? htext hnumber
  unfold Cursor.take? at hd
  unfold Cursor.peek?
  split at hd
  · cases hd
  · next next rest hrest =>
    split at hd
    · next heq => rw [hrest, heq]; rfl
    · cases hd

/-- What stands behind the blanks in front of a number. -/
theorem Ahead.numeral {x : Binary64} (h : Ahead c (⟨.number x, p⟩ :: ls)) :
    ∃ n : Numeral, ∃ after, n.Proper ∧ Numeral.ofText c.skipBlanks.rest = (n, after) ∧
      n.value = x ∧ x.isFinite = true ∧ ∀ offset, Ahead ⟨offset, after⟩ ls := by
  obtain ⟨slice, after, hscan, hsmall, hmore⟩ := h.next
  rcases Token.scan?_cases hscan with ⟨d, rest, -, -, hname, -, -⟩ | ⟨n, hproper, hread, heq, -⟩ |
      ⟨d, rest, -, -, -, hsymbol⟩
  · cases hname
  · refine ⟨n, after, hproper, hread, ?_, by simpa [Token.isTooLarge] using hsmall, hmore⟩
    exact (Token.number.inj heq).symm
  · exact absurd (Token.text_of_symbol? hsymbol).2.1 (by simp [Token.isOperand])

/-- A number that is the next lexeme is found. -/
theorem Ahead.number {x : Binary64} (h : Ahead c (⟨.number x, p⟩ :: ls)) (origin : Position) :
    ∃ after, number origin c.skipBlanks = .found x after ∧ Ahead after ls := by
  obtain ⟨n, after, hproper, hread, hvalue, hfinite, hmore⟩ := h.numeral
  refine ⟨_, ?_, hmore (c.skipBlanks.offset + Text.byteLength n.text)⟩
  unfold Literal.number
  rw [hread]
  dsimp only
  rw [hvalue, hproper.hasDigit, hfinite]
  rfl

/-- In front of a number, nothing but a digit or a point can be taken. -/
theorem Ahead.take?_number {x : Binary64} (h : Ahead c (⟨.number x, p⟩ :: ls)) {expected : Char}
    (hdigit : expected.isDigit = false) (hpoint : expected ≠ '.') :
    c.skipBlanks.take? expected = none := by
  obtain ⟨after, hfound, -⟩ := h.number .unknown
  obtain ⟨d, hd, hnumeral⟩ := head?_of_number hfound
  exact take?_eq_none hd (by rintro rfl; simp_all)

/-- At the end of the lexemes only blanks are left. -/
theorem Ahead.atEnd (h : Ahead c []) : c.skipBlanks.atEnd = true := by
  obtain ⟨hfeed, p, q, hcuts⟩ := h
  obtain ⟨gaps, hrest, hall⟩ := hcuts.isGap_of_nil
  have hnil : c.skipBlanks.rest = [] := by
    change c.rest.dropWhile Text.isBlank = []
    rw [Token.dropWhile_isBlank hfeed, List.dropWhile_eq_nil_iff, hrest, List.append_nil]
    exact hall
  unfold Cursor.atEnd
  rw [hnil]
  rfl

/-- In front of a lexeme the text is not over. -/
theorem Ahead.not_atEnd (h : Ahead c (⟨t, p⟩ :: ls)) : c.skipBlanks.atEnd = false := by
  obtain ⟨slice, after, hscan, -⟩ := h.next
  unfold Cursor.atEnd
  cases hrest : c.skipBlanks.rest with
  | nil =>
    rw [hrest] at hscan
    cases hscan
  | cons d rest => rfl

end Ahead

/-- A number with an optional minus sign is found. -/
theorem complete_signedNumber (origin : Position) : Complete (signedNumber origin) Signed := by
  intro c x ls more h hahead
  cases h with
  | plain =>
    obtain ⟨after, hfound, hmore⟩ := hahead.number origin
    refine ⟨after, ?_, hmore⟩
    unfold signedNumber
    rw [hahead.take?_number (by decide) (by decide)]
    exact hfound
  | minus =>
    obtain ⟨behind, hminus, hbehind⟩ := hahead.take? rfl (by simp)
    obtain ⟨after, hfound, hmore⟩ := hbehind.number origin
    refine ⟨after, ?_, hmore⟩
    unfold signedNumber
    rw [show c.skipBlanks.take? '-' = some behind from hminus]
    dsimp only
    rw [hfound]

section Items

variable {α : Type} {item : Cursor → Scan α} {shape : α → List Lexeme → Prop} {c : Cursor}
  {more : List Lexeme} {p : Position}

/-- An item and what may follow it. -/
theorem items_cons (hitem : Complete item shape) (hne : ∀ x, ¬ shape x []) {x : α}
    {ls : List Lexeme} (hx : shape x ls) {token : Token}
    (htoken : token = .comma ∨ token = .closeBracket) (hahead : Ahead c (ls ++ ⟨token, p⟩ :: more))
    (origin opener : Position) (bound : Nat) :
    ∃ d, Ahead d more ∧ items item origin opener (bound + 1) c
      = if token = .comma then (items item origin opener bound d).map (fun xs => x :: xs)
        else .found [x] d := by
  have hnotEnd : c.skipBlanks.atEnd = false := by
    cases ls with
    | nil => exact absurd hx (hne x)
    | cons l ls => exact hahead.not_atEnd
  obtain ⟨after, hfound, hafter⟩ := hitem _ _ _ _ hx hahead
  rcases htoken with rfl | rfl
  · obtain ⟨d, hd, hmore⟩ := hafter.take? rfl (by simp)
    have hsep : separator origin opener after.skipBlanks = .found true d := by
      unfold separator
      rw [show after.skipBlanks.take? ',' = some d from hd]
    refine ⟨d, hmore, ?_⟩
    conv_lhs => unfold items
    dsimp only
    rw [hnotEnd, hfound]
    dsimp only
    rw [hsep]
    rfl
  · obtain ⟨d, hd, hmore⟩ := hafter.take? rfl (by simp)
    have hsep : separator origin opener after.skipBlanks = .found false d := by
      unfold separator
      rw [show after.skipBlanks.take? ']' = some d from hd,
        take?_eq_none_of_take? hd (by decide)]
    refine ⟨d, hmore, ?_⟩
    conv_lhs => unfold items
    dsimp only
    rw [hnotEnd, hfound]
    dsimp only
    rw [hsep]
    rfl

/-- Items up to the closing bracket are found. -/
theorem complete_items (hitem : Complete item shape) (hne : ∀ x, ¬ shape x []) {xs : List α}
    {ls : List Lexeme} (h : Separated shape xs ls) {bound : Nat} (hbound : ls.length ≤ bound)
    (hahead : Ahead c (ls ++ ⟨.closeBracket, p⟩ :: more)) (origin opener : Position) :
    ∃ after, items item origin opener bound c = .found xs after ∧ Ahead after more := by
  induction h generalizing bound c with
  | @one x ls hx =>
    have hpos : 0 < ls.length := List.length_pos_iff.mpr (fun hnil => hne x (hnil ▸ hx))
    obtain ⟨bound, rfl⟩ : ∃ b, bound = b + 1 := ⟨bound - 1, by omega⟩
    obtain ⟨d, hmore, heq⟩ := items_cons hitem hne hx (Or.inr rfl) hahead origin opener bound
    exact ⟨d, heq, hmore⟩
  | @more x xs ls ls' q hx hxs ih =>
    rw [List.length_append, List.length_cons] at hbound
    obtain ⟨bound, rfl⟩ : ∃ b, bound = b + 1 := ⟨bound - 1, by omega⟩
    rw [List.append_assoc, List.cons_append] at hahead
    obtain ⟨d, hd, heq⟩ := items_cons hitem hne hx (Or.inl rfl) hahead origin opener bound
    have hshorter : ls'.length ≤ bound := by omega
    obtain ⟨after, hfound, hmore⟩ := ih hshorter hd
    refine ⟨after, ?_, hmore⟩
    rw [heq, if_pos rfl, hfound]
    rfl

end Items

theorem signed_ne_nil (x : Binary64) : ¬ Signed x [] := by
  intro h
  cases h

theorem row_ne_nil (xs : List Binary64) : ¬ Row xs [] := by
  intro h
  cases h

/-- An opening bracket is found. -/
theorem Ahead.openBracket {c : Cursor} {p : Position} {ls : List Lexeme}
    (h : Ahead c (⟨.openBracket, p⟩ :: ls)) (origin : Position) :
    ∃ inside, c.skipBlanks.take? '[' = some inside ∧
      openBracket origin c.skipBlanks = .found () inside ∧ Ahead inside ls := by
  obtain ⟨inside, hinside, hmore⟩ := h.take? rfl (by simp)
  refine ⟨inside, hinside, ?_, hmore⟩
  unfold Literal.openBracket
  rw [show c.skipBlanks.take? '[' = some inside from hinside]

/-- A list of items is not longer than what lies ahead. -/
theorem Ahead.length_le {c : Cursor} {ls more : List Lexeme} (h : Ahead c (ls ++ more)) :
    ls.length ≤ c.rest.length := by
  obtain ⟨-, p, q, hcuts⟩ := h
  have := hcuts.length_le
  rw [List.length_append] at this
  omega

/-- In front of the elements of a vector, no bracket can be taken. -/
theorem Ahead.take?_signed {c : Cursor} {xs : List Binary64} {ls more : List Lexeme}
    (h : Ahead c (ls ++ more)) (hsep : Separated Signed xs ls) {expected : Char}
    (hdigit : expected.isDigit = false) (hpoint : expected ≠ '.') (hminus : '-' ≠ expected) :
    c.skipBlanks.take? expected = none := by
  obtain ⟨x, _, rest, hx, rfl⟩ := hsep.exists_first
  cases hx with
  | plain => exact h.take?_number hdigit hpoint
  | minus =>
    obtain ⟨behind, htake, -⟩ := h.take? rfl (by simp)
    exact take?_eq_none_of_take? htake hminus

/-- A vector is found. -/
theorem complete_vector (origin : Position) : Complete (vector origin) Row := by
  intro c xs ls more h hahead
  cases h with
  | row hlist =>
    rw [List.cons_append] at hahead
    obtain ⟨inside, -, hopen, hinside⟩ := hahead.openBracket origin
    unfold vector
    rw [hopen]
    dsimp only
    cases hlist with
    | empty =>
      obtain ⟨after, hclose, hmore⟩ := hinside.take? rfl (by simp)
      refine ⟨after, ?_, hmore⟩
      rw [show inside.skipBlanks.take? ']' = some after from hclose]
    | filled hsep =>
      rw [List.append_assoc] at hinside
      rw [hinside.take?_signed hsep (by decide) (by decide) (by decide)]
      exact complete_items (complete_signedNumber origin) signed_ne_nil hsep
        hinside.skipBlanks.length_le hinside.skipBlanks origin _

/-- A matrix is found. -/
theorem complete_matrix (origin : Position) :
    Complete (matrix origin) (fun rows ls => ∃ ls' p q, Separated Row rows ls' ∧
      ls = ⟨.openBracket, p⟩ :: (ls' ++ [⟨.closeBracket, q⟩])) := by
  rintro c rows _ more ⟨ls, p, q, hsep, rfl⟩ hahead
  rw [List.cons_append, List.append_assoc] at hahead
  obtain ⟨inside, -, hopen, hinside⟩ := hahead.openBracket origin
  unfold matrix
  rw [hopen]
  exact complete_items (complete_vector origin) row_ne_nil hsep hinside.length_le hinside origin _

/-- A fraction is found. -/
theorem complete_rational (origin : Position) :
    Complete (rational origin) (fun (x, y) ls => ∃ p q r,
      ls = [⟨.number x, p⟩, ⟨.operator .div, q⟩, ⟨.number y, r⟩]) := by
  rintro c ⟨x, y⟩ _ more ⟨p, q, r, rfl⟩ hahead
  obtain ⟨behind, hx, hbehind⟩ := hahead.skipBlanks.number origin
  obtain ⟨slash, hslash, hmore⟩ := hbehind.take? rfl (by simp)
  obtain ⟨after, hy, hafter⟩ := hmore.number origin
  refine ⟨after, ?_, hafter⟩
  unfold rational
  dsimp only
  rw [hx]
  dsimp only
  rw [show behind.skipBlanks.take? '/' = some slash from hslash]
  dsimp only
  rw [hy]

/-! ## 4. The start of the text matters to errors only -/

/-- Both scans find the same and stop at the same place, or both fail. -/
inductive Alike {α : Type} : Scan α → Scan α → Prop
  | found {x : α} {after : Cursor} : Alike (.found x after) (.found x after)
  | failed {error error' : Error} {stop stop' : Cursor} :
      Alike (.failed error stop) (.failed error' stop')

section Alike

variable {α : Type}

theorem Alike.map {β : Type} {a b : Scan α} (f : α → β) (h : Alike a b) :
    Alike (a.map f) (b.map f) := by
  cases h with
  | found => exact .found
  | failed => exact .failed

theorem Alike.of_found {a b : Scan α} (h : Alike a b) {x : α} {after : Cursor}
    (ha : a = .found x after) : b = .found x after := by
  cases h with
  | found => exact ha
  | failed => cases ha

theorem alike_number (origin origin' : Position) (c : Cursor) :
    Alike (number origin c) (number origin' c) := by
  unfold number
  obtain ⟨n, rest⟩ := Numeral.ofText c.rest
  dsimp only
  generalize n.value = x
  cases n.hasDigit with
  | false => exact .failed
  | true =>
    cases x.isFinite with
    | false => exact .failed
    | true => exact .found

theorem alike_signedNumber (origin origin' : Position) (c : Cursor) :
    Alike (signedNumber origin c) (signedNumber origin' c) := by
  unfold signedNumber
  split
  · exact alike_number origin origin' c
  · next behind _ =>
    have h := alike_number origin origin' behind.skipBlanks
    generalize number origin behind.skipBlanks = a at h
    generalize number origin' behind.skipBlanks = b at h
    cases h with
    | found => exact .found
    | failed => exact .failed

theorem alike_separator (origin origin' opener opener' : Position) (c : Cursor) :
    Alike (separator origin opener c) (separator origin' opener' c) := by
  unfold separator
  split
  · exact .found
  · exact .found
  · exact .failed
  · exact .failed

theorem alike_openBracket (origin origin' : Position) (c : Cursor) :
    Alike (openBracket origin c) (openBracket origin' c) := by
  unfold openBracket
  split
  · exact .found
  · exact .failed
  · exact .failed

theorem alike_items {item item' : Cursor → Scan α} (h : ∀ c, Alike (item c) (item' c))
    (origin origin' opener opener' : Position) (bound : Nat) (c : Cursor) :
    Alike (items item origin opener bound c) (items item' origin' opener' bound c) := by
  induction bound generalizing c with
  | zero => exact .failed
  | succ bound ih =>
    unfold items
    dsimp only
    split
    · exact .failed
    · have hitem := h c.skipBlanks
      generalize item c.skipBlanks = a at hitem
      generalize item' c.skipBlanks = b at hitem
      cases hitem with
      | failed => exact .failed
      | @found x after =>
        dsimp only
        have hsep := alike_separator origin origin' opener opener' after.skipBlanks
        generalize separator origin opener after.skipBlanks = a at hsep
        generalize separator origin' opener' after.skipBlanks = b at hsep
        cases hsep with
        | failed => exact .failed
        | @found more next =>
          cases more with
          | false => exact .found
          | true => exact (ih next).map _

theorem alike_vector (origin origin' : Position) (c : Cursor) :
    Alike (vector origin c) (vector origin' c) := by
  unfold vector
  have hopen := alike_openBracket origin origin' c
  generalize openBracket origin c = a at hopen
  generalize openBracket origin' c = b at hopen
  cases hopen with
  | failed => exact .failed
  | found =>
    dsimp only
    split
    · exact .found
    · exact alike_items (alike_signedNumber origin origin') _ _ _ _ _ _

theorem alike_matrix (origin origin' : Position) (c : Cursor) :
    Alike (matrix origin c) (matrix origin' c) := by
  unfold matrix
  have hopen := alike_openBracket origin origin' c
  generalize openBracket origin c = a at hopen
  generalize openBracket origin' c = b at hopen
  cases hopen with
  | failed => exact .failed
  | found => exact alike_items (alike_vector origin origin') _ _ _ _ _ _

theorem alike_rational (origin origin' : Position) (c : Cursor) :
    Alike (rational origin c) (rational origin' c) := by
  unfold rational
  dsimp only
  have hnumerator := alike_number origin origin' c.skipBlanks
  generalize number origin c.skipBlanks = a at hnumerator
  generalize number origin' c.skipBlanks = b at hnumerator
  cases hnumerator with
  | failed => exact .failed
  | @found x after =>
    dsimp only
    split
    · exact .failed
    · next behind _ =>
      have hdenominator := alike_number origin origin' behind.skipBlanks
      generalize number origin behind.skipBlanks = a at hdenominator
      generalize number origin' behind.skipBlanks = b at hdenominator
      cases hdenominator with
      | found => exact .found
      | failed => exact .failed

end Alike

end Literal
end Abacus
