/-
# Statements can be moved

Spaces and tabs around a statement are no part of it.  In front of the statement they move every place
in it to the right, so an error is reported that much further to the right and nothing else changes.
Behind the statement they change nothing but where the text ends.

A statement is taken apart by a cursor, and both halves are facts about cursors.  In a text with more
bytes in front, every move leads to a cursor with that many more bytes before it (`Cursor.shift`).  In
a text with blanks behind, every move leads to a cursor with the blanks still ahead of it, unless it
has passed over all the text, and then nothing lies ahead on either side (`Cursor.Padded`).  What the
statement holds of the text behind its operator is evaluated alike with and without the blanks.

Main statements:

* `corresponds_parse_blanks_append` and `corresponds_parse_append_blanks`: the statement in a text with
  blanks in front or behind;
* `executeLine_blanks`: what it does.
-/
import Abacus.Proofs.Evaluation.Blanks
import Abacus.Proofs.Expr.Printing
import Abacus.Proofs.Session.Statements
import Abacus.Proofs.Token.Places

namespace Abacus

open Abacus.Expr (Moves AnyPositions)

variable {b : Text}

/-! ## 1. More bytes in front -/

namespace Cursor

/-- The cursor in a text with more bytes in front. -/
def shift (c : Cursor) (bytes : Nat) : Cursor := ⟨bytes + c.offset, c.rest⟩

theorem skipWhile_shift (p : Char → Bool) (c : Cursor) (bytes : Nat) :
    (c.shift bytes).skipWhile p = (c.skipWhile p).shift bytes := by
  unfold shift skipWhile
  rw [Nat.add_assoc]

theorem skipBlanks_shift (c : Cursor) (bytes : Nat) :
    (c.shift bytes).skipBlanks = c.skipBlanks.shift bytes :=
  skipWhile_shift _ c bytes

theorem take?_shift (c : Cursor) (bytes : Nat) (expected : Char) :
    (c.shift bytes).take? expected = (c.take? expected).map (fun d => d.shift bytes) := by
  unfold shift take?
  cases c.rest with
  | nil => rfl
  | cons d rest =>
    dsimp only
    split
    · rw [Nat.add_assoc]
      rfl
    · rfl

theorem position_shift (c : Cursor) (bytes : Nat) (origin : Position) :
    (c.shift bytes).position origin = c.position (origin.advance bytes) :=
  (Position.advance_advance _ _ _).symm

/-- Blanks in front are skipped. -/
theorem skipBlanks_start_append (hb : Text.AreBlank b) (text : Text) :
    (start (b ++ text)).skipBlanks = (start text).skipBlanks.shift (Text.byteLength b) := by
  unfold skipBlanks skipWhile start shift
  dsimp only
  rw [List.takeWhile_append_of_pos hb, List.dropWhile_append_of_pos hb, Text.byteLength_append]
  simp

end Cursor

theorem Literal.name?_shift (c : Cursor) (bytes : Nat) :
    name? (c.shift bytes) = (name? c).map (fun found => (found.1, found.2.shift bytes)) := by
  have hpeek : (c.shift bytes).peek? = c.peek? := rfl
  unfold name?
  rw [hpeek, Cursor.skipWhile_shift]
  cases c.peek? with
  | none => rfl
  | some first =>
    dsimp only
    split
    · rfl
    · rfl

/-- What is behind a target does not know how much is in front. -/
theorem Statement.ofTarget?_shift (name : Text) (origin position : Position) (c : Cursor)
    (bytes : Nat) :
    ofTarget? name origin position (c.shift bytes)
      = ofTarget? name (origin.advance bytes) position c := by
  have hrest : (c.shift bytes).rest = c.rest := rfl
  have hoffset : (c.shift bytes).offset = bytes + c.offset := rfl
  unfold ofTarget?
  rw [Cursor.take?_shift, hrest, hoffset, Position.advance_advance, Nat.add_assoc]
  cases c.take? '=' with
  | none => rfl
  | some behind =>
    dsimp only [Option.map_some]
    rw [Cursor.position_shift]
    rfl

/-! ## 2. Blanks behind -/

/-- Blanks are white space. -/
theorem Text.AreBlank.isSpace (hb : Text.AreBlank b) : ∀ c ∈ b, Text.isSpace c = true :=
  hb.forall_mem rfl rfl

/-- Blanks at the end are trimmed. -/
theorem Text.trimEnd_append (hb : Text.AreBlank b) (cs : Text) : trimEnd (cs ++ b) = trimEnd cs := by
  unfold trimEnd trimEndWhile
  rw [List.reverse_append,
    List.dropWhile_append_of_pos (fun c hc => hb.isSpace c (List.mem_reverse.mp hc))]

/-- A text is trimmed to a beginning of it. -/
theorem Text.trimEndWhile_prefix (p : Char → Bool) (text : Text) : trimEndWhile p text <+: text := by
  have hsuffix : text.reverse.dropWhile p <:+ text.reverse := List.dropWhile_suffix _
  have hprefix := List.reverse_prefix.mpr hsuffix
  rwa [List.reverse_reverse] at hprefix

namespace Cursor

/-- The first cursor has the blanks ahead that the second lacks, or nothing lies ahead of either. -/
inductive Padded (b : Text) : Cursor → Cursor → Prop
  | behind {offset : Nat} {cs : Text} : Padded b ⟨offset, cs ++ b⟩ ⟨offset, cs⟩
  | atEnd {offset offset' : Nat} : Padded b ⟨offset, []⟩ ⟨offset', []⟩

variable {c d : Cursor}

theorem Padded.skipBlanks (hb : Text.AreBlank b) (h : Padded b c d) :
    Padded b c.skipBlanks d.skipBlanks := by
  cases h with
  | @behind offset cs =>
    change Padded b ⟨offset + Text.byteLength ((cs ++ b).takeWhile Text.isBlank),
      (cs ++ b).dropWhile Text.isBlank⟩
      ⟨offset + Text.byteLength (cs.takeWhile Text.isBlank), cs.dropWhile Text.isBlank⟩
    by_cases hrest : cs.dropWhile Text.isBlank = []
    · -- Nothing but blanks was left, so the blanks behind are passed over as well.
      have hall : ∀ e ∈ cs ++ b, Text.isBlank e = true :=
        List.forall_mem_append.mpr ⟨List.dropWhile_eq_nil_iff.mp hrest, hb⟩
      rw [hrest, List.dropWhile_eq_nil_iff.mpr hall]
      exact .atEnd
    · obtain ⟨htake, hdrop⟩ := runs_append_of_ne_nil hrest b
      rw [htake, hdrop]
      exact .behind
  | atEnd => exact .atEnd

theorem Padded.take? (hb : Text.AreBlank b) (h : Padded b c d) {expected : Char}
    (hexpected : Text.isBlank expected = false) :
    Option.Rel (Padded b) (c.take? expected) (d.take? expected) := by
  cases h with
  | @behind offset cs =>
    cases cs with
    | nil =>
      cases b with
      | nil => exact .none
      | cons e b =>
        have hne : e ≠ expected := by
          rintro rfl
          rw [hb e List.mem_cons_self] at hexpected
          cases hexpected
        unfold Cursor.take?
        dsimp only [List.nil_append]
        rw [if_neg hne]
        exact .none
    | cons e cs =>
      unfold Cursor.take?
      dsimp only [List.cons_append]
      split
      · exact .some .behind
      · exact .none
  | atEnd => exact .none

end Cursor

theorem Literal.name?_padded (hb : Text.AreBlank b) {c d : Cursor} (h : c.Padded b d) :
    Option.Rel (fun found found' => found.1 = found'.1 ∧ found.2.Padded b found'.2) (name? c)
      (name? d) := by
  have hword : ∀ e ∈ b.head?, Text.isWordChar e = false := hb.forall_head? rfl rfl
  cases h with
  | @behind offset cs =>
    obtain ⟨htake, hdrop⟩ := runs_append hword cs
    unfold name? Cursor.skipWhile Cursor.peek?
    dsimp only
    rw [htake, hdrop]
    cases cs with
    | nil =>
      cases b with
      | nil => exact .none
      | cons e b => rcases hb.head? e rfl with rfl | rfl <;> exact .none
    | cons e cs =>
      dsimp only [List.cons_append, List.head?_cons]
      split
      · exact .some ⟨rfl, .behind⟩
      · exact .none
  | atEnd => exact .none

namespace Statement

theorem compoundOperator?_cons (c : Char) (cs : Text) :
    compoundOperator? (c :: cs)
      = if cs.head? = some '=' then Operator.ofSymbol? c else none := by
  cases cs with
  | nil => rfl
  | cons d cs =>
    by_cases hd : d = '='
    · subst hd
      rfl
    · simp [compoundOperator?, hd]

theorem compoundOperator?_append (hb : Text.AreBlank b) (cs : Text) :
    compoundOperator? (cs ++ b) = compoundOperator? cs := by
  have hequals : ∀ {more : Text}, Text.AreBlank more → more.head? ≠ some '=' := by
    intro more hmore hhead
    cases hmore '=' (List.mem_of_mem_head? hhead)
  cases cs with
  | nil =>
    cases b with
    | nil => rfl
    | cons e b =>
      have hmore : Text.AreBlank b := fun d hd => hb d (List.mem_cons_of_mem _ hd)
      rw [List.nil_append, compoundOperator?_cons, if_neg (hequals hmore)]
      rfl
  | cons e cs =>
    rw [List.cons_append, compoundOperator?_cons, compoundOperator?_cons]
    cases cs with
    | nil => rw [List.nil_append, if_neg (hequals hb), if_neg (by simp)]
    | cons e' cs => rfl

/-- What lies ahead is evaluated alike with and without blanks behind it. -/
theorem evaluatesAlike_of_padded (hb : Text.AreBlank b) {c d : Cursor} (h : c.Padded b d)
    (origin : Position) :
    EvaluatesAlike AnyPositions c.rest (c.position origin) d.rest (d.position origin) := by
  intro env
  cases h with
  | behind =>
    exact env.corresponds_evaluate_append_blanks hb (fun _ => trivial) (fun _ => trivial) _ _
  | atEnd => exact env.corresponds_evaluate (fun _ _ _ _ => trivial) trivial []

/-- What is behind a target is a statement with and without blanks behind it, and it is the same
one. -/
theorem rel_ofTarget?_padded (hb : Text.AreBlank b) {c d : Cursor} (h : c.Padded b d) (name : Text)
    (origin p q : Position) :
    Option.Rel (AlikeStatement AnyPositions) (ofTarget? name origin p c)
      (ofTarget? name origin q d) := by
  have htake := h.take? hb (show Text.isBlank '=' = false from rfl)
  unfold ofTarget?
  dsimp only
  cases h with
  | @behind offset cs =>
    dsimp only
    rw [Text.trimEnd_append hb, compoundOperator?_append hb]
    split
    · exact .some (.increment trivial)
    · split
      · exact .some (.decrement trivial)
      · split
        · next op hop =>
          have hdrop : (cs ++ b).drop 2 = cs.drop 2 ++ b := by
            match cs, hop with
            | _ :: _ :: cs, _ => rfl
          have hvalue : Cursor.Padded b ⟨offset + 2, (cs ++ b).drop 2⟩ ⟨offset + 2, cs.drop 2⟩ := by
            rw [hdrop]
            exact .behind
          exact .some (.compound (evaluatesAlike_of_padded hb hvalue origin) trivial)
        · generalize Cursor.take? ⟨offset, cs ++ b⟩ '=' = behind at htake
          generalize Cursor.take? ⟨offset, cs⟩ '=' = behind' at htake
          cases htake with
          | some hvalue =>
            exact .some (.assignment (evaluatesAlike_of_padded hb hvalue origin) trivial)
          | none => exact .none
  | atEnd => exact .none

/-! ## 3. Lines without a target -/

theorem contains_equals_append (hb : Text.AreBlank b) (text : Text) :
    (b ++ text).contains '=' = text.contains '=' ∧ (text ++ b).contains '=' = text.contains '=' := by
  have hequals : '=' ∉ b := by
    intro hmem
    cases hb _ hmem
  constructor <;> simp [hequals]

/-- The name that is missing in front of an equals sign is reported without the blanks around it. -/
theorem invalidTarget_blanks_append (hb : Text.AreBlank b) (text : Text) :
    invalidTarget (b ++ text) = invalidTarget text := by
  have htake : (b ++ text).takeWhile (fun c => c != '=')
      = b ++ text.takeWhile (fun c => c != '=') :=
    List.takeWhile_append_of_pos (hb.forall_mem rfl rfl)
  have hreverse : Text.AreBlank b.reverse := fun c hc => hb c (List.mem_reverse.mp hc)
  have hoperator : ∀ d ∈ b.reverse.head?, (Operator.ofSymbol? d).isSome = false :=
    hreverse.forall_head? rfl rfl
  unfold invalidTarget Text.trim Text.trimEndWhile
  dsimp only
  rw [htake, List.reverse_append, (runs_append hoperator _).2, List.reverse_append,
    List.reverse_reverse, List.dropWhile_append_of_pos hb.isSpace]

/-- Nothing behind the first equals sign counts. -/
theorem invalidTarget_append {text : Text} (h : text.contains '=' = true) (more : Text) :
    invalidTarget (text ++ more) = invalidTarget text := by
  have hstops : text.dropWhile (fun c => c != '=') ≠ [] := by
    intro hnil
    have hequals := List.dropWhile_eq_nil_iff.mp hnil '=' (List.contains_iff_mem.mp h)
    simp at hequals
  unfold invalidTarget
  rw [(runs_append_of_ne_nil hstops more).1]

/-! ## 4. Statements -/

/-- **Blanks in front of a statement** move the statement. -/
theorem corresponds_parse_blanks_append {R : Position → Position → Prop} (hb : Text.AreBlank b)
    (hmoves : Moves R) {line : Nat}
    (hR : R ((Position.inLine line 0).advance (Text.byteLength b)) (.inLine line 0)) (text : Text) :
    Corresponds R (AlikeStatement R) (parse (b ++ text) line) (parse text line) := by
  have hstart := Cursor.skipBlanks_start_append hb text
  have hfirst : R (((Cursor.start text).skipBlanks.shift (Text.byteLength b)).position
      (.inLine line 0)) ((Cursor.start text).skipBlanks.position (.inLine line 0)) := by
    rw [Cursor.position_shift]
    exact hmoves _ _ hR _
  refine corresponds_parse_of_named ?_ ?_
  · unfold named?
    rw [hstart, Literal.name?_shift]
    cases Literal.name? (Cursor.start text).skipBlanks with
    | none => exact .none
    | some found =>
      dsimp only [Option.map_some]
      rw [Cursor.skipBlanks_shift found.2, ofTarget?_shift]
      exact rel_alike hmoves (rel_ofTarget? hmoves hR hfirst found.1 found.2.skipBlanks)
  · unfold plain
    rw [hstart, (contains_equals_append hb text).1, invalidTarget_blanks_append hb]
    split
    · exact corresponds_error hfirst _ _
    · exact .expression (fun env => env.corresponds_evaluate_blanks_append hb hmoves hR text)

/-- **Blanks behind a statement** are no part of it. -/
theorem corresponds_parse_append_blanks (hb : Text.AreBlank b) (text : Text) (line : Nat) :
    Corresponds AnyPositions (AlikeStatement AnyPositions) (parse (text ++ b) line)
      (parse text line) := by
  have hstart : Cursor.Padded b (Cursor.start (text ++ b)).skipBlanks (Cursor.start text).skipBlanks :=
    Cursor.Padded.skipBlanks hb .behind
  refine corresponds_parse_of_named ?_ ?_
  · have hname := Literal.name?_padded hb hstart
    unfold named?
    generalize Literal.name? (Cursor.start (text ++ b)).skipBlanks = found at hname ⊢
    generalize Literal.name? (Cursor.start text).skipBlanks = found' at hname ⊢
    cases hname with
    | none => exact .none
    | @some found found' h =>
      obtain ⟨name, after⟩ := found
      obtain ⟨name', after'⟩ := found'
      obtain ⟨rfl, hafter⟩ := h
      exact rel_ofTarget?_padded hb (hafter.skipBlanks hb) _ _ _ _
  · unfold plain
    rw [(contains_equals_append hb text).2]
    split
    · next hequals =>
      rw [invalidTarget_append hequals]
      exact corresponds_error trivial _ _
    · exact .expression (fun env =>
        env.corresponds_evaluate_append_blanks hb (fun _ => trivial) (fun _ => trivial) text _)

end Statement

/-- The error some bytes further to the right. -/
def Error.advance (e : Error) (bytes : Nat) : Error := ⟨e.cause, e.position.advance bytes⟩

namespace Environment

/-- **Statements can be moved.**  With spaces and tabs in front, a statement has the same value and
leaves the same bindings, or it fails with the same error as many columns further to the right.  With
spaces and tabs behind, it has the same value and leaves the same bindings, or it fails for the same
cause. -/
theorem executeLine_blanks (env : Environment) (hb : Text.AreBlank b) (text : Text) (line : Nat) :
    env.executeLine (b ++ text) line
        = Run.mapError (fun e => e.advance b.length) (env.executeLine text line) ∧
      (env.executeLine (text ++ b) line).1 = (env.executeLine text line).1 ∧
        SameOutcome (env.executeLine (text ++ b) line).2 (env.executeLine text line).2 := by
  constructor
  · have hmoves : Moves (fun p q => p = q.advance (Text.byteLength b)) := by
      rintro _ q rfl bytes
      rw [Position.advance_advance, Position.advance_advance, Nat.add_comm]
    obtain ⟨hafter, hanswer⟩ := env.corresponds_executeLine_of_parse
      (Statement.corresponds_parse_blanks_append hb hmoves rfl text)
    rw [← Text.byteLength_of_isAscii (fun c hc => Text.isAscii_of_isBlank (hb c hc))]
    exact Prod.ext hafter hanswer.eq_mapError
  · obtain ⟨hafter, hanswer⟩ := env.corresponds_executeLine_of_parse
      (Statement.corresponds_parse_append_blanks hb text line)
    exact ⟨hafter, hanswer.sameOutcome⟩

namespace Example

/-- A division by zero with a blank and a tab around it. -/
theorem executeLine_blanks_division :
    Text.AreBlank [' ', '\t'] ∧
      (fresh false).executeLine ([' ', '\t'] ++ "e /= 0".toList) 3
        = Run.mapError (fun e => e.advance 2) ((fresh false).executeLine "e /= 0".toList 3) ∧
      ((fresh false).executeLine ("e /= 0".toList ++ [' ', '\t']) 3).1
        = ((fresh false).executeLine "e /= 0".toList 3).1 ∧
      SameOutcome ((fresh false).executeLine ("e /= 0".toList ++ [' ', '\t']) 3).2
        ((fresh false).executeLine "e /= 0".toList 3).2 := by
  have hb : Text.AreBlank [' ', '\t'] := List.all_eq_true.mp rfl
  exact ⟨hb, (fresh false).executeLine_blanks hb "e /= 0".toList 3⟩

end Example
end Environment
end Abacus
