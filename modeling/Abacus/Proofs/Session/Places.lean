/-
# Errors point into the statement

An error is reported at a line and a column, and the column counts bytes.  It points into the statement
as it was typed, and it counts characters as well, because nothing but ASCII is ever in front of it.

The lexer reports its errors where it stands.  The grammar and the evaluator make no positions, they
copy those of lexemes; as they carry any relation between the positions that go in and those that come
out, they carry the property of being a place in the text.  A statement is taken apart by a cursor that
passes over blanks, a name, an operator and an equals sign, so the text of its value is evaluated at
the place where it stands, and its errors stand in the statement.  None of the positions that stand for
no place is ever reported.

Main statements:

* `raises_evaluate`: the errors of an expression stand in its text;
* `placed_of_parse`: the parts of a statement stand in its text;
* `pointsInto_of_executeLine`: the errors of a statement point into it.
-/
import Abacus.Proofs.Evaluation.Causes
import Abacus.Proofs.Session.Statements
import Abacus.Proofs.Token.Places

namespace Abacus

variable {origin : Position} {text : Text}

/-! ## 1. Errors of an expression -/

/-- The first position is a place in the text; the relation does not look at the second. -/
def InText (origin : Position) (text : Text) (p _q : Position) : Prop :=
  ∃ after, IsPlace origin text p after

/-- An error other than those of the lexer stands where its position is. -/
theorem Error.standsIn_of_place {cause : Cause} {p : Position} {after : Text}
    (hplace : IsPlace origin text p after) (hcause : cause.isLexical = false) :
    Error.StandsIn ⟨cause, p⟩ origin text := by
  refine ⟨after, hplace, ?_⟩
  rintro c rfl
  cases hcause

/-- An outcome that copies its positions from places in the text, with errors of later phases. -/
theorem raises_of_corresponds {α : Type} {r : α → α → Prop} {x : Except Error α}
    (hplace : Corresponds (InText origin text) r x x)
    (hcause : Raises (fun e => e.cause.isLexical = false) x) :
    Raises (fun e => e.StandsIn origin text) x := by
  intro e he
  rw [he] at hplace
  obtain ⟨-, after, hafter⟩ := hplace
  exact Error.standsIn_of_place hafter (hcause e he)

/-- Lexemes are aligned with themselves by what holds of their positions. -/
theorem Expr.aligned_self {R : Position → Position → Prop} {ls : List Lexeme}
    (hlex : Token.lex origin text = .ok ls) (h : ∀ l ∈ ls, R l.position l.position) :
    Aligned R ls ls := by
  obtain ⟨body, q, rfl, -⟩ := Token.cuts_of_lex hlex
  clear hlex
  induction body with
  | nil => exact .last (h _ List.mem_cons_self)
  | cons l body ih =>
    obtain ⟨hl, hmore⟩ := List.forall_mem_cons.mp h
    exact .cons hl (ih hmore)

namespace Environment

variable (env : Environment)

/-- **The errors of an expression** stand in its text. -/
theorem raises_evaluate (text : Text) (origin : Position) :
    Raises (fun e => e.StandsIn origin text) (env.evaluate text origin) := by
  cases hrational : Literal.isRational text with
  | true =>
    obtain ⟨x, y, p, q, r, s, hlex, hvalue⟩ := env.evaluate_of_isRational hrational origin
    have hplace : InText origin text p p := Token.isPlace_of_lex hlex _ List.mem_cons_self
    have hmake : Raises (fun e => e.StandsIn origin text) (Fraction.make x y p) :=
      raises_of_corresponds (Fraction.corresponds_make hplace x y)
        ((Fraction.raises_make x y p).mono (fun _ h => Cause.isLexical_of_isEvaluative h.phase))
    rw [hvalue]
    exact hmake.map _
  | false =>
    rw [env.evaluate_eq_evaluateArithmetic text origin hrational, evaluateArithmetic_eq_eval]
    unfold Expr.parse Expr.parseWithin
    cases hlex : Token.lex origin text with
    | error e => exact raises_error (Token.raises_lex origin text e hlex)
    | ok ls =>
      have haligned : Expr.Aligned (InText origin text) ls ls :=
        Expr.aligned_self hlex (Token.isPlace_of_lex hlex)
      have hplace : Corresponds (InText origin text) Eq
          (Expr.ofLexemes .standard ls >>= env.eval) (Expr.ofLexemes .standard ls >>= env.eval) :=
        (Expr.corresponds_ofLexemes _ haligned).bind (fun _ _ h => env.corresponds_eval h)
      refine raises_of_corresponds hplace (Raises.bind ?_ ?_)
      · exact (Expr.raises_ofLexemes _ ls).mono (fun _ h => Cause.isLexical_of_isGrammatical h.phase)
      · exact fun e => (env.raises_eval e).mono (fun _ h => Cause.isLexical_of_isEvaluative h.phase)

end Environment

/-! ## 2. The places of a statement's parts -/

/-- What a cursor that passed over ASCII stands in front of. -/
theorem isPlace_of_passes {c : Cursor} (h : Cursor.Passes Text.IsAscii (Cursor.start text) c)
    (origin : Position) : IsPlace origin text (c.position origin) c.rest := by
  obtain ⟨taken, hrest, hoffset, hall⟩ := h
  refine ⟨taken, hrest, hall, ?_⟩
  unfold Cursor.position
  rw [hoffset]
  exact congrArg origin.advance (Nat.zero_add _)

namespace Statement

/-- The target and the text of the value stand in the text. -/
inductive Placed (origin : Position) (text : Text) : Statement → Prop
  | expression {value : Text} {p : Position} :
      IsPlace origin text p value → Placed origin text (.expression value p)
  | assignment {name value after : Text} {p q : Position} :
      IsPlace origin text p value → IsPlace origin text q after →
        Placed origin text (.assignment name value p q)
  | compound {name value after : Text} {op : Operator} {p q : Position} :
      IsPlace origin text p value → IsPlace origin text q after →
        Placed origin text (.compound name op value p q)
  | increment {name after : Text} {p : Position} :
      IsPlace origin text p after → Placed origin text (.increment name p)
  | decrement {name after : Text} {p : Position} :
      IsPlace origin text p after → Placed origin text (.decrement name p)

/-- An operator and an equals sign are two ASCII characters. -/
theorem passes_compoundOperator? {c : Cursor} {op : Operator}
    (h : compoundOperator? c.rest = some op) :
    Cursor.Passes Text.IsAscii c ⟨c.offset + 2, c.rest.drop 2⟩ := by
  unfold compoundOperator? at h
  split at h
  · next d rest hrest =>
    have hd := Token.symbol_of_ofSymbol? h
    have hall : ∀ e ∈ [d, '='], Text.IsAscii e := by
      rw [← hd]
      cases op <;> exact Text.isAscii_of_all rfl
    refine ⟨[d, '='], ?_, ?_, hall⟩
    · rw [hrest]
      rfl
    · rw [Text.byteLength_of_isAscii hall]
      rfl
  · cases h

theorem placed_of_ofTarget? {name after : Text} {p : Position} {c : Cursor} {s : Statement}
    (hc : Cursor.Passes Text.IsAscii (Cursor.start text) c) (hp : IsPlace origin text p after)
    (h : ofTarget? name origin p c = some s) : s.Placed origin text := by
  unfold ofTarget? at h
  dsimp only at h
  split at h
  · cases h
    exact .increment hp
  · split at h
    · cases h
      exact .decrement hp
    · split at h
      · next op hop =>
        cases h
        exact .compound (isPlace_of_passes (hc.trans (passes_compoundOperator? hop)) origin) hp
      · split at h
        · next behind hbehind =>
          cases h
          have hequals := Cursor.passes_take? (show Text.IsAscii '=' by decide) hbehind
          exact .assignment (isPlace_of_passes (hc.trans hequals) origin) hp
        · cases h

/-- **The parts of a statement** stand in its text. -/
theorem placed_of_parse {line : Nat} {s : Statement} (h : parse text line = .ok s) :
    s.Placed (.inLine line 0) text := by
  have hskip := Cursor.passes_skipBlanks (P := Text.IsAscii) (fun _ => Text.isAscii_of_isBlank)
  have hfirst := hskip (Cursor.start text)
  rw [parse_eq] at h
  cases hnamed : named? text line with
  | some s' =>
    rw [hnamed] at h
    cases h
    unfold named? at hnamed
    split at hnamed
    · cases hnamed
    · next name after hname =>
      have hafter := Literal.passes_name? (fun _ => Text.isAscii_of_isWordChar) hname
      exact placed_of_ofTarget? ((hfirst.trans hafter).trans (hskip after))
        (isPlace_of_passes hfirst _) hnamed
  | none =>
    rw [hnamed, Option.elim_none, plain] at h
    split at h
    · cases h
    · cases h
      exact .expression (isPlace_start _ _)

theorem raises_parse (text : Text) (line : Nat) :
    Raises (fun e => e.StandsIn (.inLine line 0) text) (parse text line) := by
  have hfirst := Cursor.passes_skipBlanks (P := Text.IsAscii) (fun _ => Text.isAscii_of_isBlank)
    (Cursor.start text)
  intro e h
  rw [eq_of_parse_error h]
  exact Error.standsIn_of_place (isPlace_of_passes hfirst _) rfl

end Statement

/-! ## 3. Errors of a statement -/

namespace Environment

variable (env : Environment) {p : Position}

/-- The errors of a text that stands in another one. -/
theorem raises_evaluate_of_place {value : Text} (h : IsPlace origin text p value) :
    Raises (fun e => e.StandsIn origin text) (env.evaluate value p) :=
  (env.raises_evaluate value p).mono (fun _ he => he.of_place h)

theorem raises_lookup_of_place {after : Text} (h : IsPlace origin text p after) (name : Text) :
    Raises (fun e => e.StandsIn origin text) (env.lookup name p) :=
  raises_of_corresponds (env.corresponds_lookup ⟨after, h⟩ name)
    ((env.raises_lookup name p).mono (fun _ h => Cause.isLexical_of_isEvaluative h.phase))

/-- **The errors of a statement** whose parts stand in a text stand in that text. -/
theorem raises_answer {s : Statement} (hs : s.Placed origin text) :
    Raises (fun e => e.StandsIn origin text) (env.answer s) := by
  cases hs with
  | expression hvalue => exact env.raises_evaluate_of_place hvalue
  | assignment hvalue hplace =>
    refine Raises.bind ?_ (fun _ => env.raises_evaluate_of_place hvalue)
    unfold checkFree
    split
    · exact raises_error (Error.standsIn_of_place hplace rfl)
    · exact raises_ok _
  | @compound name value after op p q hvalue hplace =>
    refine (env.raises_lookup_of_place hplace name).bind (fun old => ?_)
    refine (env.raises_evaluate_of_place hvalue).bind (fun operand => ?_)
    exact raises_of_corresponds (Value.corresponds_combine ⟨after, hplace⟩ op old operand)
      ((Value.raises_combine op q old operand).mono (fun _ h => Cause.isLexical_of_isEvaluative h.phase))
  | increment hplace =>
    exact (env.raises_lookup_of_place hplace _).bind (fun _ => raises_ok _)
  | decrement hplace =>
    exact (env.raises_lookup_of_place hplace _).bind (fun _ => raises_ok _)

theorem raises_executeLine (text : Text) (line : Nat) :
    Raises (fun e => e.StandsIn (.inLine line 0) text) (env.executeLine text line).2 := by
  rw [snd_executeLine]
  cases hparse : Statement.parse text line with
  | error e => exact raises_error (Statement.raises_parse text line e hparse)
  | ok s => exact env.raises_answer (Statement.placed_of_parse hparse)

end Environment

/-! ## 4. Columns -/

/-- The error points into the text of a line. -/
structure Error.PointsInto (e : Error) (text : Text) (line : Nat) : Prop where
  /-- It names the line. -/
  line_eq : e.position.line = line
  /-- Columns are counted from one. -/
  column_pos : 0 < e.position.column
  /-- The column is that of a byte, or of the end. -/
  offset_le : e.position.column - 1 ≤ Text.byteLength text
  /-- The bytes in front of it are ASCII. -/
  ascii : ∀ byte ∈ (Text.bytes text).take (e.position.column - 1), byte < 128
  /-- As many characters are in front of it as bytes. -/
  byteLength_take : Text.byteLength (text.take (e.position.column - 1)) = e.position.column - 1
  /-- An unexpected character is the one that stands there. -/
  character : ∀ c, e.cause = .unexpectedCharacter c →
    (Text.dropBytes (e.position.column - 1) text).head? = some c

theorem Error.StandsIn.pointsInto {e : Error} {line : Nat} (h : e.StandsIn (.inLine line 0) text) :
    e.PointsInto text line := by
  obtain ⟨after, ⟨before, rfl, hascii, hposition⟩, hcharacter⟩ := h
  rw [Position.inLine_zero_advance] at hposition
  have hoffset : e.position.column - 1 = Text.byteLength before := by
    rw [hposition]
    rfl
  have hlength := Text.byteLength_of_isAscii hascii
  constructor
  · rw [hposition]
    rfl
  · rw [hposition]
    exact Nat.succ_pos _
  · rw [hoffset, Text.byteLength_append]
    exact Nat.le_add_right _ _
  · have htake : (Text.bytes (before ++ after)).take (Text.byteLength before) = Text.bytes before := by
      rw [Text.bytes, List.flatMap_append, ← Text.bytes, ← Text.bytes, ← Text.length_bytes,
        List.take_left]
    rw [hoffset, htake]
    exact Text.bytes_of_isAscii hascii
  · rw [hoffset, hlength, List.take_left, hlength]
  · rw [hoffset, Text.dropBytes_append]
    exact hcharacter

/-- **Errors point into the statement**: to the line of the statement, and to a column in it that
counts bytes and characters alike. -/
theorem Environment.pointsInto_of_executeLine (env : Environment) {text : Text} {line : Nat}
    {e : Error} (h : (env.executeLine text line).2 = .error e) : e.PointsInto text line :=
  (env.raises_executeLine text line e h).pointsInto

namespace Example

/-- A letter outside ASCII behind a name and an equals sign. -/
theorem pointsInto_accent :
    ((Environment.fresh false).executeLine "x = 2 * \u00e9".toList 7).2
        = .error ⟨.unexpectedCharacter '\u00e9', ⟨7, 9⟩⟩ ∧
      Error.PointsInto ⟨.unexpectedCharacter '\u00e9', ⟨7, 9⟩⟩ "x = 2 * \u00e9".toList 7 := by
  have h : ((Environment.fresh false).executeLine "x = 2 * \u00e9".toList 7).2
      = .error ⟨.unexpectedCharacter '\u00e9', ⟨7, 9⟩⟩ := by decide +kernel
  exact ⟨h, (Environment.fresh false).pointsInto_of_executeLine h⟩

end Example
end Abacus
