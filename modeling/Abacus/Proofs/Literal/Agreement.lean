/-
# The kind of a text is the shape of its tree

A text is classified by scanners before it is parsed.  For matrices, vectors, fractions and numbers
the classification is no second opinion: a text has one of these kinds exactly if the parser gives it
a tree of the shape that belongs to the kind, and the scanner reads the numbers of that tree.

Forwards, what the scanner finds is cut by the lexer into a written form, so the parser accepts it.
Backwards, the tree has one written form only, because parentheses are excluded, and the scanner
finds what lies ahead.  The kinds are tried in a fixed order, so a kind also has to be shown to
exclude the earlier ones; the first character behind the blanks tells them apart.

Form feeds and parentheses are real exceptions.  The lexer passes over a form feed and the scanners
do not, and `(1)` has the tree of a number.

Main statements:

* `parse_of_matrix`, `parse_of_vector`, `parse_of_rational`, `parse_of_number`: a literal that covers
  a text is the tree of the text;
* `readsAlike`: without parentheses and form feeds, the converse holds as well.
-/
import Abacus.Literal.Kind
import Abacus.Proofs.Expr.Completeness
import Abacus.Proofs.Literal.Scanning

namespace Abacus
namespace Literal

open Abacus.Expr (Separated Listed Signed Row Reads)
open Token (Cuts)

/-! ## 1. A literal that covers a text is its tree -/

section Covers

variable {text : Text} {origin scanOrigin : Position} {after : Cursor}

/-- What a scanner that covers the text found. -/
theorem coversText_iff {α : Type} {scan : Cursor → Scan α} :
    coversText scan text = true ↔ ∃ x after, scan (Cursor.start text).skipBlanks = .found x after ∧
      after.skipBlanks.atEnd = true := by
  unfold coversText
  cases h : scan (Cursor.start text).skipBlanks with
  | found x after =>
    constructor
    · exact fun hend => ⟨x, after, rfl, hend⟩
    · rintro ⟨y, after', heq, hend⟩
      cases heq
      exact hend
  | failed error stop =>
    constructor
    · intro hfalse
      cases hfalse
    · rintro ⟨y, after', heq, -⟩
      cases heq

/-- The lexemes of a text that a literal covers. -/
theorem lex_of_between {ls : List Lexeme}
    (h : Between origin (Cursor.start text).skipBlanks ls after)
    (hend : after.skipBlanks.atEnd = true) :
    ∃ q, Token.lex origin text = .ok (ls ++ [⟨.endOfInput, q⟩]) := by
  have hall := h.skipBlanks.trans (between_skipBlanks origin after)
  have hrest : after.skipBlanks.rest = [] := List.isEmpty_iff.mp hend
  unfold Between at hall
  rw [List.append_nil, hrest] at hall
  exact ⟨_, hall.lex_eq_ok⟩

/-- The tree of a text that a literal covers is the tree of its lexemes. -/
theorem parse_of_between {ls : List Lexeme} {e : Expr}
    (h : Between origin (Cursor.start text).skipBlanks ls after)
    (hend : after.skipBlanks.atEnd = true)
    (htree : ∀ q, Expr.ofLexemes .standard (ls ++ [⟨.endOfInput, q⟩]) = .ok e) :
    Expr.parse text origin = .ok e := by
  obtain ⟨q, hlex⟩ := lex_of_between h hend
  unfold Expr.parse Expr.parseWithin
  rw [hlex, ok_bind]
  exact htree q

theorem parse_of_matrix {rows : List (List Binary64)}
    (h : matrix scanOrigin (Cursor.start text).skipBlanks = .found rows after)
    (hend : after.skipBlanks.atEnd = true) :
    Expr.parse text origin
      = .ok (.matrix rows ((Cursor.start text).skipBlanks.position origin)) := by
  obtain ⟨ls, p, hsep, hcut⟩ := between_matrix origin h
  refine parse_of_between hcut hend (fun q => ?_)
  rw [List.cons_append]
  refine Expr.ofLexemes_literal ?_ rfl
  rw [List.append_assoc]
  exact Expr.bracketLiteral_matrix hsep _ p _

theorem parse_of_vector {xs : List Binary64}
    (h : vector scanOrigin (Cursor.start text).skipBlanks = .found xs after)
    (hend : after.skipBlanks.atEnd = true) :
    Expr.parse text origin
      = .ok (.vector xs ((Cursor.start text).skipBlanks.position origin)) := by
  obtain ⟨ls, hlist, hcut⟩ := between_vector origin h
  refine parse_of_between hcut hend (fun q => ?_)
  exact Expr.ofLexemes_literal (Expr.bracketLiteral_vector hlist _ _) rfl

theorem parse_of_rational {x y : Binary64}
    (h : rational scanOrigin (Cursor.start text).skipBlanks = .found (x, y) after)
    (hend : after.skipBlanks.atEnd = true) :
    ∃ p q r, Expr.parse text origin = .ok (.binary .div (.number x p) (.number y q) r) := by
  obtain ⟨q, r, hcut⟩ := between_rational origin h
  exact ⟨_, r, q, parse_of_between hcut hend (fun _ => rfl)⟩

theorem parse_of_number {x : Binary64}
    (h : number scanOrigin (Cursor.start text).skipBlanks = .found x after)
    (hend : after.skipBlanks.atEnd = true) :
    Expr.parse text origin
      = .ok (.number x ((Cursor.start text).skipBlanks.position origin)) :=
  parse_of_between (sound_number scanOrigin origin _ x after h) hend (fun _ => rfl)

end Covers

/-! ## 2. The kinds exclude each other -/

theorem skipBlanks_skipBlanks (c : Cursor) : c.skipBlanks.skipBlanks = c.skipBlanks := by
  have hnone : ∀ d ∈ ([] : Text), Text.isBlank d = true := by simp
  obtain ⟨htake, hdrop⟩ := span_append hnone (head?_dropWhile_eq_false Text.isBlank c.rest)
  rw [List.nil_append] at htake hdrop
  unfold Cursor.skipBlanks Cursor.skipWhile
  dsimp only
  rw [htake, hdrop, Text.byteLength_nil, Nat.add_zero]

/-- A bracket that opens a matrix opens no vector. -/
theorem opensMatrix_eq_false {c : Cursor} (h : opensVector c = true) : opensMatrix c = false := by
  unfold opensVector at h
  unfold opensMatrix
  split at h
  · simpa using h
  · cases h

section Numeral

variable {c after : Cursor} {origin : Position} {x : Binary64}

/-- Where a number stands, there is no opening bracket. -/
theorem take?_of_number (h : number origin c = .found x after) : c.take? '[' = none := by
  obtain ⟨d, hd, hnumeral⟩ := head?_of_number h
  refine take?_eq_none hd ?_
  rintro rfl
  rcases hnumeral with hdigit | hpoint
  · cases hdigit
  · revert hpoint
    decide

theorem opensMatrix_of_number (h : number origin c = .found x after) : opensMatrix c = false := by
  unfold opensMatrix
  rw [take?_of_number h]

theorem opensVector_of_number (h : number origin c = .found x after) : opensVector c = false := by
  unfold opensVector
  rw [take?_of_number h]

/-- Where a number stands, there is no name. -/
theorem name?_of_number (h : number origin c = .found x after) : name? c = none := by
  obtain ⟨d, hd, hnumeral⟩ := head?_of_number h
  have halpha : ¬ d.isAlpha = true := by
    rcases hnumeral with hdigit | rfl
    · simp [Token.isAlpha_of_isDigit hdigit]
    · decide
  unfold name? Cursor.peek?
  rw [Option.mem_def.mp hd]
  exact if_neg halpha

end Numeral

/-- A fraction starts with a number. -/
theorem number_of_rational {c after : Cursor} {origin : Position} {q : Binary64 × Binary64}
    (h : rational origin c = .found q after) :
    ∃ x behind, number origin c.skipBlanks = .found x behind ∧
      ∃ d, behind.skipBlanks.take? '/' = some d := by
  unfold rational at h
  dsimp only at h
  split at h
  · cases h
  · next x behind hx =>
    refine ⟨x, behind, hx, ?_⟩
    split at h
    · cases h
    · next d hd => exact ⟨d, hd⟩

/-- Neither a digit, nor a point, nor a blank is a character of arithmetic. -/
theorem isArithmeticChar_eq_false {c : Char}
    (h : Text.isBlank c = true ∨ c.isDigit = true ∨ c = '.') : isArithmeticChar c = false := by
  have halpha : c.isAlpha = false := by
    rcases h with hblank | hdigit | rfl
    · simp only [Text.isBlank, Bool.or_eq_true, beq_iff_eq] at hblank
      rcases hblank with rfl | rfl <;> rfl
    · exact Token.isAlpha_of_isDigit hdigit
    · rfl
  unfold isArithmeticChar
  rw [halpha, Bool.false_or]
  by_contra hmem
  rw [Bool.not_eq_false, List.contains_iff_mem] at hmem
  have hlist : "+-*/%()[]_".toList.all
      (fun d => !(Text.isBlank d || d.isDigit || d == '.')) = true := by decide
  have hc := List.all_eq_true.mp hlist c hmem
  rcases h with h | h | h <;> simp [h] at hc

/-- A text that a number covers has no character of arithmetic. -/
theorem any_isArithmeticChar {text : Text} (h : isNumber text = true) :
    text.any isArithmeticChar = false := by
  obtain ⟨x, after, hx, hend⟩ := coversText_iff.mp h
  obtain ⟨n, hproper, hread, -, -, -⟩ := of_number hx
  have hsplit := Numeral.ofText_text (Cursor.start text).skipBlanks.rest
  rw [hread] at hsplit
  have htext : text.takeWhile Text.isBlank ++ (Cursor.start text).skipBlanks.rest = text :=
    List.takeWhile_append_dropWhile
  have hafter : ∀ c ∈ after.rest, Text.isBlank c = true :=
    List.dropWhile_eq_nil_iff.mp (List.isEmpty_iff.mp hend)
  rw [List.any_eq_false]
  intro c hc
  rw [isArithmeticChar_eq_false]
  · simp
  · rw [← htext, ← hsplit, List.mem_append, List.mem_append] at hc
    rcases hc with hc | hc | hc
    · exact Or.inl (List.mem_takeWhile_imp hc)
    · exact Or.inr (hproper.mem_text hc)
    · exact Or.inl (hafter c hc)

/-! ## 3. Each kind by its own scanner -/

section Classify

variable {text : Text}

theorem classify_eq_matrix : classify text = .matrix ↔ isMatrix text = true := by
  unfold classify
  constructor
  · intro h
    split_ifs at h with hmatrix
    exact hmatrix
  · intro h
    rw [if_pos h]

theorem classify_eq_vector : classify text = .vector ↔ isVector text = true := by
  unfold classify
  constructor
  · intro h
    split_ifs at h with hmatrix hvector
    exact hvector
  · intro h
    have hmatrix : isMatrix text = false := by
      obtain ⟨hopens, -⟩ := Bool.and_eq_true_iff.mp h
      unfold isMatrix
      rw [opensMatrix_eq_false hopens, Bool.false_and]
    rw [hmatrix, if_neg (by simp), if_pos h]

/-- A number at the start of a text excludes matrices and vectors. -/
theorem not_bracket_of_number {x : Binary64} {origin : Position} {after : Cursor}
    (h : number origin (Cursor.start text).skipBlanks = .found x after) :
    isMatrix text = false ∧ isVector text = false := by
  unfold isMatrix isVector
  rw [opensMatrix_of_number h, opensVector_of_number h]
  exact ⟨rfl, rfl⟩

theorem classify_eq_rational : classify text = .rational ↔ isRational text = true := by
  unfold classify
  constructor
  · intro h
    split_ifs at h with hmatrix hvector hrational
    exact hrational
  · intro h
    obtain ⟨q, after, hq, -⟩ := coversText_iff.mp h
    obtain ⟨x, behind, hx, -⟩ := number_of_rational hq
    rw [skipBlanks_skipBlanks] at hx
    obtain ⟨hmatrix, hvector⟩ := not_bracket_of_number hx
    rw [hmatrix, hvector, if_neg (by simp), if_neg (by simp), if_pos h]

theorem classify_eq_number : classify text = .number ↔ isNumber text = true := by
  constructor
  · intro h
    unfold classify at h
    split_ifs at h with hmatrix hvector hrational hcall hnumber
    exact (Bool.and_eq_true_iff.mp hnumber).2
  · intro h
    obtain ⟨x, after, hx, hend⟩ := coversText_iff.mp h
    obtain ⟨hmatrix, hvector⟩ := not_bracket_of_number hx
    have hrational : ¬ isRational text = true := by
      intro hrational
      obtain ⟨q, after', hq, -⟩ := coversText_iff.mp hrational
      obtain ⟨y, behind, hy, d, hslash⟩ := number_of_rational hq
      rw [skipBlanks_skipBlanks, hx] at hy
      cases hy
      unfold Cursor.take? at hslash
      rw [List.isEmpty_iff.mp hend] at hslash
      cases hslash
    have hcall : isCall text = false := by
      unfold isCall
      rw [name?_of_number hx]
    unfold classify
    rw [hmatrix, hvector, hcall, any_isArithmeticChar h, h, if_neg (by simp), if_neg (by simp),
      if_neg hrational, if_neg (by simp), if_pos (by simp)]

end Classify

/-! ## 4. The tree of a text is found by its scanner -/

section Finds

variable {text : Text} {origin scanOrigin : Position}

/-- What lies ahead of the start of a text is the written form of its tree, without groups. -/
theorem ahead_of_parse (hparen : '(' ∉ text) (hfeed : '\x0c' ∉ text) {e : Expr}
    (h : Expr.parse text origin = .ok e) :
    ∃ body, Reads 1 e body ∧ Ahead (Cursor.start text) body ∧ Token.openParen ∉ tokens body := by
  obtain ⟨body, q, hcuts, hreads⟩ := Expr.cuts_of_parse h
  refine ⟨body, hreads, ⟨hfeed, origin, q, hcuts⟩, fun hmem => hparen ?_⟩
  exact hcuts.mem_of_mem_text hmem (by simp) '(' List.mem_cons_self

/-- A scanner that finds what lies ahead covers the text. -/
theorem found_of_ahead {α : Type} {scan : Cursor → Scan α} {shape : α → List Lexeme → Prop}
    (hscan : Complete scan shape) {x : α} {ls : List Lexeme} (hshape : shape x ls)
    (h : Ahead (Cursor.start text) ls) :
    ∃ after, scan (Cursor.start text).skipBlanks = .found x after ∧
      after.skipBlanks.atEnd = true := by
  obtain ⟨after, hfound, hmore⟩ := hscan _ x ls [] hshape (by rwa [List.append_nil])
  exact ⟨after, hfound, hmore.atEnd⟩

/-- The scanner of matrices finds the tree of a matrix. -/
theorem matrix_of_parse (hparen : '(' ∉ text) (hfeed : '\x0c' ∉ text)
    {rows : List (List Binary64)} {p : Position}
    (h : Expr.parse text origin = .ok (.matrix rows p)) :
    opensMatrix (Cursor.start text).skipBlanks = true ∧
      ∃ after, matrix scanOrigin (Cursor.start text).skipBlanks = .found rows after ∧
        after.skipBlanks.atEnd = true := by
  obtain ⟨body, hreads, hahead, hgroup⟩ := ahead_of_parse hparen hfeed h
  cases hreads with
  | @matrix _ _ ls _ q hsep =>
    refine ⟨?_, found_of_ahead (complete_matrix scanOrigin) ⟨ls, p, q, hsep, rfl⟩ hahead⟩
    obtain ⟨inside, htake, -, hinside⟩ := hahead.openBracket .unknown
    obtain ⟨xs, _, rest, hrow, rfl⟩ := hsep.exists_first
    cases hrow
    unfold opensMatrix
    rw [htake]
    dsimp only
    rw [hinside.peek? rfl (by simp)]
    rfl
  | group h => simp at hgroup

/-- The scanner of vectors finds the tree of a vector. -/
theorem vector_of_parse (hparen : '(' ∉ text) (hfeed : '\x0c' ∉ text)
    {xs : List Binary64} {p : Position}
    (h : Expr.parse text origin = .ok (.vector xs p)) :
    opensVector (Cursor.start text).skipBlanks = true ∧
      ∃ after, vector scanOrigin (Cursor.start text).skipBlanks = .found xs after ∧
        after.skipBlanks.atEnd = true := by
  obtain ⟨body, hreads, hahead, hgroup⟩ := ahead_of_parse hparen hfeed h
  cases hreads with
  | vector hlist =>
    refine ⟨?_, found_of_ahead (complete_vector scanOrigin) (.row hlist) hahead⟩
    obtain ⟨inside, htake, -, hinside⟩ := hahead.openBracket .unknown
    unfold opensVector
    rw [htake]
    dsimp only
    have hnone : inside.skipBlanks.take? '[' = none := by
      cases hlist with
      | empty =>
        obtain ⟨d, hd, -⟩ := hinside.take? rfl (by simp)
        exact take?_eq_none_of_take? hd (by decide)
      | filled hsep => exact hinside.take?_signed hsep (by decide) (by decide) (by decide)
    simpa using peek?_ne_of_take? hnone
  | group h => simp at hgroup

/-- The scanner of fractions finds the tree of a division of numbers. -/
theorem rational_of_parse (hparen : '(' ∉ text) (hfeed : '\x0c' ∉ text)
    {x y : Binary64} {p q r : Position}
    (h : Expr.parse text origin = .ok (.binary .div (.number x p) (.number y q) r)) :
    ∃ after, rational scanOrigin (Cursor.start text).skipBlanks = .found (x, y) after ∧
      after.skipBlanks.atEnd = true := by
  obtain ⟨body, hreads, hahead, hgroup⟩ := ahead_of_parse hparen hfeed h
  cases hreads with
  | binary hk hl hr =>
    cases hl with
    | number =>
      cases hr with
      | number => exact found_of_ahead (complete_rational scanOrigin) ⟨p, r, q, rfl⟩ hahead
      | group h => simp at hgroup
    | group h => simp at hgroup
  | group h => simp at hgroup

/-- The scanner of numbers finds the tree of a number. -/
theorem number_of_parse (hparen : '(' ∉ text) (hfeed : '\x0c' ∉ text) {x : Binary64}
    {p : Position} (h : Expr.parse text origin = .ok (.number x p)) :
    ∃ after, number scanOrigin (Cursor.start text).skipBlanks = .found x after ∧
      after.skipBlanks.atEnd = true := by
  obtain ⟨body, hreads, hahead, hgroup⟩ := ahead_of_parse hparen hfeed h
  cases hreads with
  | number =>
    obtain ⟨after, hfound, hmore⟩ := hahead.number scanOrigin
    exact ⟨after, hfound, hmore.atEnd⟩
  | group h => simp at hgroup

end Finds

/-! ## 5. Kinds and trees -/

/-- The texts of a kind are those whose tree has a certain shape, and from such a text the scanner of
the kind reads what the tree holds. -/
structure ReadsAlike {α : Type} (text : Text) (origin : Position) (kind : LiteralKind)
    (scan : Cursor → Scan α) (shape : α → Expr → Prop) : Prop where
  kind_iff : classify text = kind ↔ ∃ x e, Expr.parse text origin = .ok e ∧ shape x e
  scan_tree : ∀ x e, Expr.parse text origin = .ok e → shape x e →
    ∃ after, scan (Cursor.start text).skipBlanks = .found x after

section Kinds

variable {text : Text}

theorem readsAlike_matrix (hparen : '(' ∉ text) (hfeed : '\x0c' ∉ text)
    (origin scanOrigin : Position) :
    ReadsAlike text origin .matrix (matrix scanOrigin) (fun rows e => ∃ p, e = .matrix rows p) where
  kind_iff := by
    rw [classify_eq_matrix]
    constructor
    · intro h
      obtain ⟨rows, after, hfound, hend⟩ := coversText_iff.mp (Bool.and_eq_true_iff.mp h).2
      exact ⟨rows, _, parse_of_matrix hfound hend, _, rfl⟩
    · rintro ⟨rows, _, hparse, p, rfl⟩
      obtain ⟨hopens, hcovers⟩ := matrix_of_parse hparen hfeed hparse
      exact Bool.and_eq_true_iff.mpr ⟨hopens, coversText_iff.mpr ⟨rows, hcovers⟩⟩
  scan_tree := by
    rintro rows _ hparse ⟨p, rfl⟩
    obtain ⟨-, after, hfound, -⟩ := matrix_of_parse hparen hfeed hparse
    exact ⟨after, hfound⟩

theorem readsAlike_vector (hparen : '(' ∉ text) (hfeed : '\x0c' ∉ text)
    (origin scanOrigin : Position) :
    ReadsAlike text origin .vector (vector scanOrigin) (fun xs e => ∃ p, e = .vector xs p) where
  kind_iff := by
    rw [classify_eq_vector]
    constructor
    · intro h
      obtain ⟨xs, after, hfound, hend⟩ := coversText_iff.mp (Bool.and_eq_true_iff.mp h).2
      exact ⟨xs, _, parse_of_vector hfound hend, _, rfl⟩
    · rintro ⟨xs, _, hparse, p, rfl⟩
      obtain ⟨hopens, hcovers⟩ := vector_of_parse hparen hfeed hparse
      exact Bool.and_eq_true_iff.mpr ⟨hopens, coversText_iff.mpr ⟨xs, hcovers⟩⟩
  scan_tree := by
    rintro xs _ hparse ⟨p, rfl⟩
    obtain ⟨-, after, hfound, -⟩ := vector_of_parse hparen hfeed hparse
    exact ⟨after, hfound⟩

theorem readsAlike_rational (hparen : '(' ∉ text) (hfeed : '\x0c' ∉ text)
    (origin scanOrigin : Position) :
    ReadsAlike text origin .rational (rational scanOrigin)
      (fun q e => ∃ p p' p'', e = .binary .div (.number q.1 p) (.number q.2 p') p'') where
  kind_iff := by
    rw [classify_eq_rational]
    constructor
    · intro h
      obtain ⟨⟨x, y⟩, after, hfound, hend⟩ := coversText_iff.mp h
      have htree : ∃ p q r,
          Expr.parse text origin = .ok (.binary .div (.number x p) (.number y q) r) :=
        parse_of_rational hfound hend
      obtain ⟨p, p', p'', hparse⟩ := htree
      exact ⟨(x, y), _, hparse, p, p', p'', rfl⟩
    · rintro ⟨⟨x, y⟩, _, hparse, p, p', p'', rfl⟩
      exact coversText_iff.mpr ⟨_, rational_of_parse hparen hfeed hparse⟩
  scan_tree := by
    rintro ⟨x, y⟩ _ hparse ⟨p, p', p'', rfl⟩
    obtain ⟨after, hfound, -⟩ := rational_of_parse hparen hfeed hparse
    exact ⟨after, hfound⟩

theorem readsAlike_number (hparen : '(' ∉ text) (hfeed : '\x0c' ∉ text)
    (origin scanOrigin : Position) :
    ReadsAlike text origin .number (number scanOrigin) (fun x e => ∃ p, e = .number x p) where
  kind_iff := by
    rw [classify_eq_number]
    constructor
    · intro h
      obtain ⟨x, after, hfound, hend⟩ := coversText_iff.mp h
      exact ⟨x, _, parse_of_number hfound hend, _, rfl⟩
    · rintro ⟨x, _, hparse, p, rfl⟩
      exact coversText_iff.mpr ⟨x, number_of_parse hparen hfeed hparse⟩
  scan_tree := by
    rintro x _ hparse ⟨p, rfl⟩
    obtain ⟨after, hfound, -⟩ := number_of_parse hparen hfeed hparse
    exact ⟨after, hfound⟩

end Kinds

/-- **Scanners and parser read alike.**  In a text without parentheses and form feeds, the kinds
matrix, vector, fraction and number are the shapes of its tree, and each scanner reads the numbers
of the tree in their order. -/
theorem readsAlike {text : Text} (hparen : '(' ∉ text) (hfeed : '\x0c' ∉ text)
    (origin scanOrigin : Position) :
    ReadsAlike text origin .matrix (matrix scanOrigin) (fun rows e => ∃ p, e = .matrix rows p) ∧
    ReadsAlike text origin .vector (vector scanOrigin) (fun xs e => ∃ p, e = .vector xs p) ∧
    ReadsAlike text origin .rational (rational scanOrigin)
      (fun q e => ∃ p p' p'', e = .binary .div (.number q.1 p) (.number q.2 p') p'') ∧
    ReadsAlike text origin .number (number scanOrigin) (fun x e => ∃ p, e = .number x p) :=
  ⟨readsAlike_matrix hparen hfeed origin scanOrigin,
    readsAlike_vector hparen hfeed origin scanOrigin,
    readsAlike_rational hparen hfeed origin scanOrigin,
    readsAlike_number hparen hfeed origin scanOrigin⟩

/-- A minus sign with a blank behind it and numerals that lack a side of the point. -/
theorem readsAlike_minusBlank :
    '(' ∉ "[- 1., .5]".toList ∧ '\x0c' ∉ "[- 1., .5]".toList ∧
      ∃ xs p, Expr.parse "[- 1., .5]".toList ⟨1, 1⟩ = .ok (.vector xs p) ∧
        ∃ after, vector ⟨1, 1⟩ (Cursor.start "[- 1., .5]".toList).skipBlanks = .found xs after := by
  have halike := (@readsAlike "[- 1., .5]".toList (by decide) (by decide) ⟨1, 1⟩ ⟨1, 1⟩).2.1
  have hkind : classify "[- 1., .5]".toList = .vector := by decide +kernel
  obtain ⟨xs, _, hparse, p, rfl⟩ := halike.kind_iff.mp hkind
  exact ⟨by decide, by decide, xs, p, hparse, halike.scan_tree xs _ hparse ⟨p, rfl⟩⟩

end Literal
end Abacus
