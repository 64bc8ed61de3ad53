/-
# Messages take one line

The message about an error consists of fixed wording, of numbers, symbols and the names of kinds, and
of what the cause quotes.  What it quotes comes from the statement: a token, a name, an unexpected
character, or what stands in front of an equals sign.  So the message about a statement on one line
takes one line.

Main statements:

* `Error.onOneLine_message`: only what is quoted can bring a line feed into a message;
* `Environment.onOneLine_of_executeLine`: the message about a line takes one line.
-/
import Abacus.Proofs.Evaluation.Quotes
import Abacus.Proofs.Session.Places
import Abacus.Proofs.Session.Relocation

namespace Abacus

/-! ## 1. Strings without line feeds -/

/-- A string without line feeds. -/
def OnOneLine (s : String) : Prop := '\n' ∉ s.toList

namespace OnOneLine

@[simp] theorem append_iff {a b : String} : OnOneLine (a ++ b) ↔ OnOneLine a ∧ OnOneLine b := by
  simp [OnOneLine]

@[simp] theorem ofList_iff {text : Text} : OnOneLine (String.ofList text) ↔ '\n' ∉ text := by
  simp [OnOneLine]

@[simp] theorem char_iff {c : Char} : OnOneLine (toString c) ↔ '\n' ≠ c := by
  simp [OnOneLine, toString]

@[simp] theorem number (n : Nat) : OnOneLine (toString n) := by
  intro h
  have hdigits : '\n' ∈ Nat.toDigits 10 n := by simpa using h
  cases Nat.isDigit_of_mem_toDigits (by decide) (by decide) hdigits

@[simp] theorem symbol (op : Operator) : '\n' ≠ op.symbol := by
  cases op <;> decide

@[simp] theorem kind (k : ValueKind) : OnOneLine k.name := by
  cases k <;> simp [OnOneLine, ValueKind.name]

/-- A string in a message is put there as it is. -/
@[simp] theorem string_iff {s : String} : OnOneLine (toString s) ↔ OnOneLine s := Iff.rfl

end OnOneLine

/-! ## 2. Wording -/

theorem Dimensions.onOneLine_render (d : Dimensions) : OnOneLine d.render := by
  unfold render
  simp only [OnOneLine.append_iff, OnOneLine.string_iff, OnOneLine.number, true_and, and_true]
  simp [OnOneLine]

theorem Mismatch.onOneLine_message (m : Mismatch) : OnOneLine m.message := by
  -- The wording is opened before the cases are split, because no case has an equation of its own.
  unfold message
  cases m <;>
    simp only [OnOneLine.append_iff, OnOneLine.string_iff, OnOneLine.char_iff, OnOneLine.number,
      OnOneLine.symbol, Dimensions.onOneLine_render, ne_eq, not_false_eq_true, and_true] <;>
    simp [OnOneLine]

/-- **The wording of a cause** takes one line, if what it quotes does. -/
theorem Cause.onOneLine_message {cause : Cause} (h : '\n' ∉ cause.quoted) :
    OnOneLine cause.message := by
  unfold quoted at h
  unfold message
  cases cause <;>
    simp only [OnOneLine.append_iff, OnOneLine.string_iff, OnOneLine.char_iff, OnOneLine.ofList_iff,
      OnOneLine.number, OnOneLine.symbol, OnOneLine.kind, Mismatch.onOneLine_message, ne_eq,
      not_false_eq_true, and_true, List.mem_singleton] at h ⊢ <;>
    simp [OnOneLine, h]

theorem Position.onOneLine_render (p : Position) : OnOneLine p.render := by
  unfold render
  simp only [OnOneLine.append_iff, OnOneLine.string_iff, OnOneLine.number, and_true]
  simp [OnOneLine]

/-- **A message** takes one line, if what it quotes does. -/
theorem Error.onOneLine_message {e : Error} (h : '\n' ∉ e.cause.quoted) : OnOneLine e.message := by
  unfold message
  simp only [OnOneLine.append_iff, OnOneLine.string_iff, e.position.onOneLine_render,
    Cause.onOneLine_message h, and_true]
  simp [OnOneLine]

/-! ## 3. Statements -/

/-- A beginning of the end of a text has no line feed if the text has none. -/
theorem newline_notMem_of_isPlace {origin p : Position} {text value : Text}
    (h : IsPlace origin text p value) (htext : '\n' ∉ text) : '\n' ∉ value := by
  obtain ⟨before, rfl, -⟩ := h
  exact fun hmem => htext (List.mem_append_right before hmem)

namespace Statement

theorem newline_notMem_invalidTarget {text : Text} (h : '\n' ∉ text) :
    '\n' ∉ invalidTarget text := by
  unfold invalidTarget Text.trim Text.trimEnd
  dsimp only
  intro hmem
  have hdropped := (Text.trimEndWhile_prefix _ _).subset hmem
  have hend := (List.dropWhile_suffix _).subset hdropped
  have htaken := (Text.trimEndWhile_prefix _ _).subset hend
  exact h ((List.takeWhile_prefix _).subset htaken)

theorem newline_notMem_of_parse {text : Text} {line : Nat} {e : Error}
    (h : parse text line = .error e) (htext : '\n' ∉ text) : '\n' ∉ e.cause.quoted := by
  rw [eq_of_parse_error h]
  exact newline_notMem_invalidTarget htext

end Statement

namespace Environment

variable (env : Environment) {origin : Position} {text : Text}

/-- The errors of a text that stands in a text without line feeds. -/
theorem raises_evaluate_oneLine {value : Text} {p : Position} (h : IsPlace origin text p value)
    (htext : '\n' ∉ text) : Raises (fun e => '\n' ∉ e.cause.quoted) (env.evaluate value p) :=
  (env.raises_expressionCause value p).mono
    (fun _ he => he.oneLine (newline_notMem_of_isPlace h htext))

theorem raises_lookup_oneLine {name : Text} (hname : '\n' ∉ name) (p : Position) :
    Raises (fun e => '\n' ∉ e.cause.quoted) (env.lookup name p) := by
  unfold lookup
  split
  · exact raises_ok _
  · exact raises_error hname

theorem raises_answer_oneLine {s : Statement} (hs : s.Placed origin text) (htext : '\n' ∉ text)
    (htarget : ∀ name, s.target? = some name → '\n' ∉ name) :
    Raises (fun e => '\n' ∉ e.cause.quoted) (env.answer s) := by
  cases hs with
  | expression hvalue => exact env.raises_evaluate_oneLine hvalue htext
  | assignment hvalue _ =>
    refine Raises.bind ?_ (fun _ => env.raises_evaluate_oneLine hvalue htext)
    unfold checkFree
    split
    · exact raises_error (htarget _ rfl)
    · exact raises_ok _
  | @compound _ _ _ op _ q hvalue _ =>
    refine (env.raises_lookup_oneLine (htarget _ rfl) q).bind (fun old => ?_)
    refine (env.raises_evaluate_oneLine hvalue htext).bind (fun operand => ?_)
    refine (Value.raises_combine op q old operand).mono (fun e he => ?_)
    have hexpression : e.OfExpression text := ofExpression_of_isEvaluative he (by simp)
    exact hexpression.oneLine htext
  | increment _ => exact (env.raises_lookup_oneLine (htarget _ rfl) _).bind (fun _ => raises_ok _)
  | decrement _ => exact (env.raises_lookup_oneLine (htarget _ rfl) _).bind (fun _ => raises_ok _)

/-- **The message about a line** takes one line. -/
theorem onOneLine_of_executeLine {line : Nat} {e : Error} (htext : '\n' ∉ text)
    (h : (env.executeLine text line).2 = .error e) : OnOneLine e.message := by
  refine Error.onOneLine_message ?_
  rw [snd_executeLine] at h
  cases hparse : Statement.parse text line with
  | error f =>
    rw [hparse] at h
    cases h
    exact Statement.newline_notMem_of_parse hparse htext
  | ok s =>
    rw [hparse, ok_bind] at h
    have htarget : ∀ name, s.target? = some name → '\n' ∉ name := fun name hname =>
      Text.newline_notMem_of_isIdentifier (Statement.isIdentifier_target hparse hname)
    exact env.raises_answer_oneLine (Statement.placed_of_parse hparse) htext htarget e h

end Environment
end Abacus
