/-
# The longest token

The scanner looks at the first character and then takes off a word, a numeral or a symbol.  What a
token is can be said without any order of tests: a text denotes a token if it is an identifier, a
numeral with a digit in it, or a symbol as it is written (`Denotes`).  Separators are a pattern beside
these.  The scanner takes off the longest front of the text that any of the patterns matches, and
takes off nothing only where none of them matches.

The argument has one step for each kind of token: a text that denotes a token is scanned as far at
least in front of any other text (`exists_scan?_append`).  So no match is longer than what is taken.
What is taken matches, and a text denotes one token only, so the longest match is what is taken.

Main statements:

* `scan?_eq_some_iff`: what is taken off is the longest match;
* `scan?_eq_none_iff`: nothing is taken off where nothing matches;
* `scan?_cut`: a token is taken off in the same way where the text is cut further back.
-/
import Abacus.Proofs.Token.Spacing

namespace Abacus

/-! ## 1. Numerals in front of any text -/

namespace Numeral

variable {whole : Text}

/-- Digits at the front are digits before the point. -/
theorem whole_ofText_append (h : ∀ c ∈ whole, c.isDigit = true) (more : Text) :
    (ofText (whole ++ more)).1.whole = whole ++ more.takeWhile Char.isDigit := by
  have htake : (whole ++ more).takeWhile Char.isDigit = whole ++ more.takeWhile Char.isDigit :=
    List.takeWhile_append_of_pos h
  unfold ofText
  dsimp only
  split <;> exact htake

/-- Digits behind a point are digits after the point. -/
theorem ofText_append_point (h : ∀ c ∈ whole, c.isDigit = true) {digits : Text}
    (hdigits : ∀ c ∈ digits, c.isDigit = true) (more : Text) :
    (ofText (whole ++ '.' :: (digits ++ more))).1
      = ⟨whole, some (digits ++ more.takeWhile Char.isDigit)⟩ := by
  have hpoint : ∀ c ∈ ('.' :: (digits ++ more)).head?, c.isDigit = false := by
    rintro c ⟨⟩
    rfl
  obtain ⟨htake, hdrop⟩ := span_append h hpoint
  have hmore : (digits ++ more).takeWhile Char.isDigit = digits ++ more.takeWhile Char.isDigit :=
    List.takeWhile_append_of_pos hdigits
  unfold ofText
  simp only [htake, hdrop, hmore]

/-- A numeral is read as far as it goes at least, whatever follows it. -/
theorem length_le_ofText_append {n : Numeral} (hn : n.Proper) (more : Text) :
    (ofText (n.text ++ more)).1.hasDigit = true ∧
      n.text.length ≤ (ofText (n.text ++ more)).1.text.length := by
  obtain ⟨whole, fraction⟩ := n
  have hwhole : ∀ c ∈ whole, c.isDigit = true := hn.whole
  have hdigit := hn.hasDigit
  cases fraction with
  | none =>
    have hread := whole_ofText_append hwhole more
    simp only [text, List.append_nil]
    refine ⟨?_, ?_⟩
    · simp only [hasDigit, Option.getD_none, List.isEmpty_nil, Bool.not_true, Bool.or_false,
        Bool.not_eq_true', List.isEmpty_eq_false_iff] at hdigit
      simp [hasDigit, hread, hdigit]
    · rw [hread, List.length_append, List.length_append]
      omega
  | some digits =>
    have hread := ofText_append_point hwhole (hn.fraction digits rfl) more
    simp only [text, List.append_assoc, List.cons_append, hread]
    refine ⟨?_, ?_⟩
    · simp only [hasDigit, Option.getD_some, Bool.or_eq_true, Bool.not_eq_true',
        List.isEmpty_eq_false_iff] at hdigit ⊢
      exact hdigit.imp_right (List.append_ne_nil_of_left_ne_nil · _)
    · simp only [List.length_append, List.length_cons]
      omega

end Numeral

namespace Token

/-! ## 2. The patterns -/

/-- The text is what a token may look like. -/
inductive Denotes : Text → Token → Prop
  | number {n : Numeral} : n.Proper → Denotes n.text (.number n.value)
  | name {text : Text} : text.isIdentifier = true → Denotes text (.name text)
  | symbol {t : Token} : t.isOperand = false → t ≠ .endOfInput → Denotes t.text t

/-- Some pattern of the lexer matches the whole text: it is a token, or separators only. -/
def Matches (text : Text) : Prop :=
  (∃ t, Denotes text t) ∨ (text ≠ [] ∧ ∀ c ∈ text, isGap c = true)

/-- No pattern matches more of the text than the part in front of `after`. -/
def Longest (slice after : Text) : Prop :=
  ∀ front, front <+: slice ++ after → Matches front → front.length ≤ slice.length

variable {cs slice after : Text} {t u : Token}

/-- What is the longest match stays it where the text is cut further back. -/
theorem Longest.cut {mid : Text} (h : Longest slice (mid ++ after)) : Longest slice mid := by
  intro front hfront
  refine h front (hfront.trans ?_)
  rw [← List.append_assoc]
  exact List.prefix_append _ _

/-- What stands for a token is that token, if nothing follows. -/
theorem Denotes.scan?_self (h : Denotes slice t) : scan? slice = some (t, slice, []) := by
  have hnil : StartsBlank [] := by rintro c ⟨⟩
  have hscan : scan? (slice ++ []) = some (t, slice, []) := by
    cases h with
    | number hn => exact scan?_numeral hn hnil.ends
    | name hname => exact scan?_identifier hname (by rintro c ⟨⟩)
    | symbol hoperand hend => exact scan?_text (isWritable_of_isOperand hoperand hend) hnil
  rwa [List.append_nil] at hscan

/-- A text stands for one token only. -/
theorem Denotes.unique (h : Denotes slice t) (h' : Denotes slice u) : t = u := by
  have heq := h.scan?_self.symm.trans h'.scan?_self
  cases heq
  rfl

/-- What is taken off stands for the token. -/
theorem denotes_of_scan? (h : scan? cs = some (t, slice, after)) : Denotes slice t := by
  rcases scan?_cases h with ⟨c, rest, rfl, halpha, rfl, rfl, -⟩ | ⟨n, hproper, -, rfl, rfl⟩ |
      ⟨c, rest, -, -, -, hsymbol⟩
  · exact .name (Text.isIdentifier_takeWhile halpha rest)
  · exact .number hproper
  · obtain ⟨rfl, hoperand, hend⟩ := text_of_symbol? hsymbol
    exact .symbol hoperand hend

/-! ## 3. Longer matches -/

/-- An operator is scanned in front of any text. -/
theorem exists_scan?_operator (op : Operator) (more : Text) :
    ∃ t slice after, scan? (op.symbol :: more) = some (t, slice, after) := by
  have hends : Numeral.Ends (op.symbol :: more) := by
    rintro c ⟨⟩
    cases op <;> exact ⟨rfl, by decide⟩
  rw [scan?_of_ends (by cases op <;> rfl) hends]
  unfold symbol?
  rw [Operator.ofSymbol?_symbol]
  split
  · exact ⟨_, _, _, rfl⟩
  · exact ⟨_, _, _, rfl⟩
  · exact ⟨_, _, _, rfl⟩
  · exact ⟨_, _, _, rfl⟩
  · next hnone => cases hnone

/-- A single character is no longer than what is taken off. -/
theorem one_le_length_of_scan? (h : scan? cs = some (t, slice, after)) : 1 ≤ slice.length :=
  List.length_pos_iff.mpr (scan?_split h).2

/-- **What stands for a token is scanned as far at least**, whatever follows it. -/
theorem exists_scan?_append (h : Denotes slice t) (more : Text) :
    ∃ u taken after, scan? (slice ++ more) = some (u, taken, after) ∧
      slice.length ≤ taken.length := by
  cases h with
  | number hn =>
    obtain ⟨hdigit, hlength⟩ := Numeral.length_le_ofText_append hn more
    exact ⟨_, _, _, scan?_of_hasDigit hdigit, hlength⟩
  | name hname =>
    have htake : (slice ++ more).takeWhile Text.isWordChar
        = slice ++ more.takeWhile Text.isWordChar :=
      List.takeWhile_append_of_pos (Text.isWordChar_of_isIdentifier hname)
    cases slice with
    | nil => cases hname
    | cons c slice =>
      have halpha : c.isAlpha = true := (Bool.and_eq_true_iff.mp hname).1
      refine ⟨_, _, _, scan?_of_isAlpha halpha (slice ++ more), ?_⟩
      rw [← List.cons_append, htake, List.length_append]
      omega
  | symbol hoperand hend =>
    have hsingle : ∀ {c : Char}, (∃ u taken after, scan? (c :: more) = some (u, taken, after)) →
        ∃ u taken after, scan? ([c] ++ more) = some (u, taken, after) ∧
          [c].length ≤ taken.length := by
      rintro c ⟨u, taken, after, hscan⟩
      exact ⟨u, taken, after, hscan, one_le_length_of_scan? hscan⟩
    cases t with
    | number x => cases hoperand
    | name text => cases hoperand
    | endOfInput => exact absurd rfl hend
    | operator op => exact hsingle (exists_scan?_operator op more)
    | assignOperator op =>
      refine ⟨.assignOperator op, [op.symbol, '='], more, ?_, Nat.le_refl _⟩
      cases op <;> exact scan?_pair rfl rfl (by decide) rfl
    | increment =>
      exact ⟨_, _, _, scan?_pair rfl rfl (by decide) rfl, Nat.le_refl _⟩
    | decrement =>
      exact ⟨_, _, _, scan?_pair rfl rfl (by decide) rfl, Nat.le_refl _⟩
    | openParen => exact hsingle ⟨_, _, _, scan?_punctuation rfl more⟩
    | closeParen => exact hsingle ⟨_, _, _, scan?_punctuation rfl more⟩
    | openBracket => exact hsingle ⟨_, _, _, scan?_punctuation rfl more⟩
    | closeBracket => exact hsingle ⟨_, _, _, scan?_punctuation rfl more⟩
    | comma => exact hsingle ⟨_, _, _, scan?_punctuation rfl more⟩
    | equals => exact hsingle ⟨_, _, _, scan?_punctuation rfl more⟩

/-! ## 4. The scanner -/

/-- What is taken off is as long as any match. -/
theorem longest_of_scan? (h : scan? cs = some (t, slice, after)) : Longest slice after := by
  rintro front ⟨more, hmore⟩ hmatches
  rw [(scan?_split h).1] at hmore
  subst hmore
  rcases hmatches with ⟨u, hdenotes⟩ | ⟨hne, hgaps⟩
  · obtain ⟨u', taken, after', hscan, hlength⟩ := exists_scan?_append hdenotes more
    rw [h] at hscan
    cases hscan
    exact hlength
  · cases front with
    | nil => exact absurd rfl hne
    | cons c front =>
      have hgap := hgaps c List.mem_cons_self
      rw [isGap_of_scan? h] at hgap
      cases hgap

/-- **The scanner takes off the longest match.** -/
theorem scan?_eq_some_iff :
    scan? cs = some (t, slice, after) ↔
      cs = slice ++ after ∧ Denotes slice t ∧ Longest slice after := by
  constructor
  · intro h
    exact ⟨(scan?_split h).1.symm, denotes_of_scan? h, longest_of_scan? h⟩
  · rintro ⟨rfl, hdenotes, hlongest⟩
    obtain ⟨u, taken, after', hscan, hle⟩ := exists_scan?_append hdenotes after
    have hsplit := (scan?_split hscan).1
    have hge : taken.length ≤ slice.length :=
      hlongest taken ⟨after', hsplit⟩ (Or.inl ⟨u, denotes_of_scan? hscan⟩)
    obtain ⟨rfl, rfl⟩ := List.append_inj hsplit (Nat.le_antisymm hge hle)
    rw [hscan, (denotes_of_scan? hscan).unique hdenotes]

/-- **The scanner takes off nothing** only where nothing stands for a token. -/
theorem scan?_eq_none_iff : scan? cs = none ↔ ∀ front t, front <+: cs → ¬ Denotes front t := by
  constructor
  · rintro hnone front t ⟨more, rfl⟩ hdenotes
    obtain ⟨u, taken, after, hscan, -⟩ := exists_scan?_append hdenotes more
    rw [hnone] at hscan
    cases hscan
  · intro h
    cases hscan : scan? cs with
    | none => rfl
    | some result =>
      obtain ⟨t, slice, after⟩ := result
      have hsplit := (scan?_split hscan).1
      exact absurd (denotes_of_scan? hscan) (h slice t ⟨after, hsplit⟩)

/-- **A token is taken off in the same way** where the text is cut further back. -/
theorem scan?_cut {mid : Text} (h : scan? cs = some (t, slice, mid ++ after)) :
    scan? (slice ++ mid) = some (t, slice, mid) := by
  obtain ⟨-, hdenotes, hlongest⟩ := scan?_eq_some_iff.mp h
  exact scan?_eq_some_iff.mpr ⟨rfl, hdenotes, hlongest.cut⟩

end Token

end Abacus
