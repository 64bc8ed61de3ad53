/-
# Substitution, token by token

Substituting values for names rewrites a text without reading it: it copies runs that start like
numerals and everything that is no word, and it replaces bound words.  This module shows what that
does to the lexemes of the text.  The tokens of the substituted text are the tokens of the text with
every bound name replaced by the tokens of its value (`inline`), unless the name is called.

The text has to be one that the parser accepts, for two reasons.  Two operands never touch there, so
a copied run is one numeral, and nothing that follows a name can run on into the written form of its
value.  And no two symbols can join there that were apart, because the written form of a finite value
starts with none of the characters that join a symbol.

Whether a name is called is decided on the text, where only blanks are passed over, and on the
tokens, where form feeds are as well.  So the text must not have form feeds, or no name must be
called in it.

Main statement: `cuts_substitute`.
-/
import Abacus.Proofs.Value.Spelling

namespace Abacus
namespace Environment

open Abacus.Expr (Spaced CallFree)
open Token (Cuts scan? isGap isFree joins)

/-! ## 1. Replacing names among tokens -/

/-- What stands for a name in front of the tokens `rest`: the tokens of its value, unless it is
unbound or called. -/
def operandTokens (env : Environment) (name : Text) (rest : List Token) : List Token :=
  match env.get? name, rest.head? with
  | some _, some .openParen => [.name name]
  | some value, _ => value.tokens
  | none, _ => [.name name]

/-- The tokens with the tokens of values in place of bound names. -/
def inline (env : Environment) : List Token → List Token
  | [] => []
  | .name name :: rest => env.operandTokens name rest ++ env.inline rest
  | t :: rest => t :: env.inline rest

/-- The names among the tokens that are bound are bound to finite values. -/
def BindsFinite (env : Environment) (ts : List Token) : Prop :=
  ∀ name value, .name name ∈ ts → env.get? name = some value → value.isFinite = true

@[simp] theorem inline_nil (env : Environment) : env.inline [] = [] := rfl

theorem inline_cons (env : Environment) {t : Token} (ht : ∀ name, t ≠ .name name)
    (rest : List Token) : env.inline (t :: rest) = t :: env.inline rest := by
  cases t with
  | name text => exact absurd rfl (ht text)
  | _ => rfl

/-- A called name is kept. -/
theorem operandTokens_openParen (env : Environment) (name : Text) (rest : List Token) :
    env.operandTokens name (.openParen :: rest) = [.name name] := by
  unfold operandTokens
  cases env.get? name <;> rfl

/-- An unbound name is kept. -/
theorem operandTokens_of_none {env : Environment} {name : Text} (h : env.get? name = none)
    (rest : List Token) : env.operandTokens name rest = [.name name] := by
  unfold operandTokens
  rw [h]

/-- A bound name that is not called is replaced. -/
theorem operandTokens_of_some {env : Environment} {name : Text} {value : Value}
    (h : env.get? name = some value) {rest : List Token} (hrest : rest.head? ≠ some .openParen) :
    env.operandTokens name rest = value.tokens := by
  unfold operandTokens
  rw [h]
  split
  · next heq =>
    exact absurd heq hrest
  · next heq _ =>
    cases heq
    rfl
  · next heq => cases heq

/-- Tokens can be inlined in two parts, unless the cut parts a name from its arguments. -/
theorem inline_append (env : Environment) (ts : List Token) {us : List Token}
    (hus : us.head? ≠ some .openParen) :
    env.inline (ts ++ us) = env.inline ts ++ env.inline us := by
  induction ts with
  | nil => rfl
  | cons t ts ih =>
    by_cases hname : ∃ name, t = .name name
    · obtain ⟨name, rfl⟩ := hname
      have hsame : env.operandTokens name (ts ++ us) = env.operandTokens name ts := by
        cases ts with
        | cons t ts => rfl
        | nil =>
          cases hget : env.get? name with
          | none => rw [operandTokens_of_none hget, operandTokens_of_none hget]
          | some value =>
            rw [operandTokens_of_some hget (by simpa using hus),
              operandTokens_of_some hget (by simp)]
      rw [List.cons_append, inline, inline, hsame, ih, List.append_assoc]
    · have ht : ∀ name, t ≠ .name name := fun name heq => hname ⟨name, heq⟩
      rw [List.cons_append, inline_cons env ht, inline_cons env ht, ih, List.cons_append]

/-! ## 2. The steps of a substitution -/

theorem isRunChar_of_startsRun {c : Char} (h : startsRun c = true) : isRunChar c = true := by
  simp only [startsRun, Bool.or_eq_true] at h
  rcases h with (h | h) | h <;> simp [isRunChar, Char.isAlphanum, h]

theorem startsRun_of_isAlpha {c : Char} (h : c.isAlpha = true) : startsRun c = false := by
  by_contra hrun
  simp only [Bool.not_eq_false, startsRun, Bool.or_eq_true, beq_iff_eq] at hrun
  rcases hrun with (hdigit | rfl) | rfl
  · rw [Token.isAlpha_of_isDigit hdigit] at h
    cases h
  · cases h
  · cases h

theorem substitute_nil (env : Environment) : env.substitute [] = [] := by
  rw [substitute]

theorem substitute_run (env : Environment) {c : Char} (h : startsRun c = true) (cs : Text) :
    env.substitute (c :: cs)
      = (c :: cs).takeWhile isRunChar ++ env.substitute ((c :: cs).dropWhile isRunChar) := by
  rw [substitute, dif_pos h]

theorem substitute_name (env : Environment) {c : Char} (h : c.isAlpha = true) (cs : Text) :
    env.substitute (c :: cs)
      = env.replacement ((c :: cs).takeWhile Text.isWordChar) ((c :: cs).dropWhile Text.isWordChar)
        ++ env.substitute ((c :: cs).dropWhile Text.isWordChar) := by
  rw [substitute, dif_neg (by simp [startsRun_of_isAlpha h]), dif_pos h]

theorem substitute_other (env : Environment) {c : Char} (h : isRunChar c = false) (cs : Text) :
    env.substitute (c :: cs) = c :: env.substitute cs := by
  have halpha : ¬ c.isAlpha = true := by
    intro halpha
    simp [isRunChar, Char.isAlphanum, halpha] at h
  have hrun : ¬ startsRun c = true := fun hrun => by
    rw [isRunChar_of_startsRun hrun] at h
    cases h
  rw [substitute, dif_neg hrun, dif_neg halpha]

/-- What stands in front of a text that no run starts is not changed by the substitution. -/
theorem head?_substitute_of_stop (env : Environment) {cs : Text}
    (h : ∀ d ∈ cs.head?, isRunChar d = false) : (env.substitute cs).head? = cs.head? := by
  cases cs with
  | nil => rw [substitute_nil]
  | cons c cs => rw [substitute_other env (h c rfl)]; rfl

/-- A text that continues no run continues no numeral after the substitution. -/
theorem ends_substitute (env : Environment) {cs : Text}
    (h : ∀ d ∈ cs.head?, isRunChar d = false) : Numeral.Ends (env.substitute cs) := by
  intro d hd
  rw [head?_substitute_of_stop env h] at hd
  have hrun := h d hd
  simp only [isRunChar, Char.isAlphanum, Bool.or_eq_false_iff, beq_eq_false_iff_ne] at hrun
  exact ⟨hrun.1.1.2, hrun.1.2⟩

/-- An unbound word is copied. -/
theorem replacement_of_none {env : Environment} {name : Text} (h : env.get? name = none)
    (rest : Text) : env.replacement name rest = name := by
  unfold replacement
  rw [h]

/-- A called word is copied. -/
theorem replacement_of_openParen (env : Environment) (name : Text) {rest : Text}
    (h : (rest.dropWhile Text.isBlank).head? = some '(') : env.replacement name rest = name := by
  unfold replacement
  rw [h]
  cases env.get? name <;> rfl

/-- A bound word that is not called is replaced. -/
theorem replacement_of_some {env : Environment} {name : Text} {value : Value}
    (h : env.get? name = some value) {rest : Text}
    (hrest : (rest.dropWhile Text.isBlank).head? ≠ some '(') :
    env.replacement name rest = value.inPlace := by
  unfold replacement
  rw [h]
  split
  · next heq => exact absurd heq hrest
  · next heq _ =>
    cases heq
    rfl
  · next heq => cases heq

/-- A word is copied or replaced by a value that it is bound to. -/
theorem replacement_cases (env : Environment) (name rest : Text) :
    env.replacement name rest = name ∨
      ∃ value, env.get? name = some value ∧ env.replacement name rest = value.inPlace := by
  by_cases hparen : (rest.dropWhile Text.isBlank).head? = some '('
  · exact Or.inl (replacement_of_openParen env name hparen)
  · cases hget : env.get? name with
    | none => exact Or.inl (replacement_of_none hget rest)
    | some value => exact Or.inr ⟨value, rfl, replacement_of_some hget hparen⟩

/-! ## 3. Substitution and the lexer -/

section Cuts

variable {env : Environment} {p q : Position} {cs : Text} {ls : List Lexeme}

/-- A word ahead is the next token. -/
theorem exists_name_of_isAlpha {c : Char} (h : Cuts p (c :: cs) ls q [])
    (halpha : c.isAlpha = true) :
    Token.name ((c :: cs).takeWhile Text.isWordChar) ∈ tokens ls := by
  cases h with
  | gap hgap _ =>
    simp only [isGap, Bool.or_eq_true, beq_iff_eq] at hgap
    rcases hgap with (rfl | rfl) | rfl <;> cases halpha
  | token hscan _ _ =>
    rw [Token.scan?_of_isAlpha halpha] at hscan
    cases hscan
    exact List.mem_cons_self

/-- What the substitution writes first stood there before, or it joins no symbol. -/
theorem head?_substitute (h : Cuts p cs ls q []) (hfinite : env.BindsFinite (tokens ls)) :
    ∀ d ∈ (env.substitute cs).head?, d ∈ cs.head? ∨ isFree d = true := by
  intro d hd
  cases cs with
  | nil =>
    rw [substitute_nil] at hd
    cases hd
  | cons c cs =>
    by_cases halpha : c.isAlpha = true
    · rw [substitute_name env halpha] at hd
      have hname := exists_name_of_isAlpha h halpha
      rcases replacement_cases env ((c :: cs).takeWhile Text.isWordChar)
          ((c :: cs).dropWhile Text.isWordChar) with hkeep | ⟨value, hget, hreplace⟩
      · rw [hkeep, List.takeWhile_cons_of_pos (Token.isWordChar_of_isAlpha halpha)] at hd
        exact Or.inl hd
      · obtain ⟨e, es, hes, hfree⟩ := Value.inPlace_eq_cons (hfinite _ _ hname hget)
        rw [hreplace, hes] at hd
        cases hd
        exact Or.inr hfree
    · by_cases hrun : startsRun c = true
      · rw [substitute_run env hrun, List.takeWhile_cons_of_pos (isRunChar_of_startsRun hrun)] at hd
        exact Or.inl hd
      · rw [substitute, dif_neg hrun, dif_neg halpha] at hd
        exact Or.inl hd

/-- Behind an operand of an accepted text, no run starts. -/
theorem isRunChar_of_spaced (h : Cuts p cs ls q []) {t : Token} (ht : t.isOperand = true)
    (hspaced : Spaced (t :: tokens ls)) : ∀ d ∈ cs.head?, isRunChar d = false := by
  intro d hd
  by_contra hrun
  obtain ⟨t', ts, heq, ht'⟩ := h.isOperand_of_isRunChar hd (by simpa using hrun)
  rw [heq] at hspaced
  exact (List.isChain_cons_cons.mp hspaced).1 ⟨ht, ht'⟩

/-- A parenthesis behind a word is the next token, and the other way round. -/
theorem openParen_iff (h : Cuts p cs ls q []) {t : Token} (ht : t.isOperand = true)
    (hcall : '\x0c' ∉ cs ∨ CallFree (t :: tokens ls)) :
    (cs.dropWhile Text.isBlank).head? = some '(' ↔ (tokens ls).head? = some .openParen := by
  constructor
  · intro hparen
    obtain ⟨p', ls', rfl⟩ := h.openParen_of_head? hparen
    rfl
  · intro hparen
    obtain ⟨ts, hts⟩ := List.head?_eq_some_iff.mp hparen
    obtain ⟨p', ls', rfl, -⟩ := Expr.exists_of_tokens_cons hts
    rcases hcall with hfeed | hfree
    · exact h.head?_of_openParen hfeed
    · exact absurd ⟨ht, rfl⟩ (List.isChain_cons_cons.mp hfree).1

end Cuts

/-- Wherever it stands, the substituted text is cut into lexemes with the tokens inlined. -/
def Rewrites (env : Environment) (cs : Text) (ts : List Token) : Prop :=
  ∀ p, ∃ ls q, Cuts p (env.substitute cs) ls q [] ∧ tokens ls = env.inline ts

section Rewrites

variable {env : Environment} {cs : Text} {ts : List Token}

theorem rewrites_nil (env : Environment) : env.Rewrites [] [] := by
  intro p
  rw [substitute_nil]
  exact ⟨[], p, .done, rfl⟩

theorem Rewrites.gap (h : env.Rewrites cs ts) {c : Char} (hgap : isGap c = true) :
    env.Rewrites (c :: cs) ts := by
  have hrun : isRunChar c = false := by
    simp only [isGap, Bool.or_eq_true, beq_iff_eq] at hgap
    rcases hgap with (rfl | rfl) | rfl <;> rfl
  intro p
  obtain ⟨ls, q, hcuts, hls⟩ := h (p.advance c.utf8Size)
  rw [substitute_other env hrun]
  exact ⟨ls, q, .gap hgap hcuts, hls⟩

/-- A token that is copied. -/
theorem Rewrites.token (h : env.Rewrites cs ts) {all slice : Text} {t : Token}
    (hcopy : env.substitute all = slice ++ env.substitute cs)
    (hscan : scan? (slice ++ env.substitute cs) = some (t, slice, env.substitute cs))
    (hsmall : t.isTooLarge = false) (ht : ∀ name, t ≠ .name name) :
    env.Rewrites all (t :: ts) := by
  intro p
  obtain ⟨ls, q, hcuts, hls⟩ := h (p.advance (Text.byteLength slice))
  rw [hcopy, inline_cons env ht, ← hls]
  exact ⟨_, q, .token hscan hsmall hcuts, rfl⟩

theorem Rewrites.number (h : env.Rewrites cs ts) {n : Numeral} (hn : n.Proper)
    (hsmall : (Token.number n.value).isTooLarge = false)
    (hstop : ∀ d ∈ cs.head?, isRunChar d = false) :
    env.Rewrites (n.text ++ cs) (.number n.value :: ts) := by
  have hall : ∀ d ∈ n.text, isRunChar d = true := by
    intro d hd
    rcases hn.mem_text hd with hdigit | rfl
    · simp [isRunChar, Char.isAlphanum, hdigit]
    · rfl
  obtain ⟨htake, hdrop⟩ := span_append hall hstop
  refine h.token ?_ (Token.scan?_numeral hn (ends_substitute env hstop)) hsmall (by simp)
  obtain ⟨d, digits, hd⟩ := List.exists_cons_of_ne_nil hn.text_ne_nil
  have hstart : startsRun d = true := by
    rcases hn.mem_text (c := d) (by rw [hd]; exact List.mem_cons_self) with hdigit | rfl
    · simp [startsRun, hdigit]
    · rfl
  rw [hd, List.cons_append] at htake hdrop ⊢
  rw [substitute_run env hstart, htake, hdrop, List.cons_append]

theorem Rewrites.symbol (h : env.Rewrites cs ts) {c : Char} {t : Token} {slice after : Text}
    (halpha : c.isAlpha = false) (hends : Numeral.Ends (c :: cs))
    (hsymbol : Token.symbol? c cs = some (t, slice, after)) (hgrammar : t.isGrammatical = true)
    (hsmall : t.isTooLarge = false)
    (hhead : ∀ d ∈ (env.substitute cs).head?, d ∈ cs.head? ∨ isFree d = true) :
    env.Rewrites (c :: cs) (t :: ts) := by
  obtain ⟨hdigit, hpoint⟩ := hends c rfl
  have hrun : isRunChar c = false := by
    have hunder : c ≠ '_' := by
      rintro rfl
      cases hsymbol
    simp [isRunChar, Char.isAlphanum, halpha, hdigit, hpoint, hunder]
  obtain ⟨-, -, hscan⟩ := Token.symbol?_congr (env.substitute cs) hsymbol hgrammar
    (fun d hd => (hhead d hd).imp_right (fun hfree => Token.joins_of_isFree hfree c))
  have hcopy : env.substitute (c :: cs) = [c] ++ env.substitute cs := substitute_other env hrun cs
  refine h.token hcopy ?_ hsmall ?_
  · rw [List.singleton_append, Token.scan?_of_ends halpha, hscan]
    exact ends_cons hdigit hpoint _
  · rintro name rfl
    cases (Token.text_of_symbol? hsymbol).2.1

/-- A character that is in no run is in no word. -/
theorem isWordChar_of_isRunChar {c : Char} (h : isRunChar c = false) :
    Text.isWordChar c = false := by
  simp only [isRunChar, Bool.or_eq_false_iff] at h
  simp [Text.isWordChar, h]

/-- What does not continue a run does not continue a word. -/
theorem wordEnds {rest : Text} (h : ∀ d ∈ rest.head?, isRunChar d = false) :
    ∀ d ∈ rest.head?, Text.isWordChar d = false :=
  fun d hd => isWordChar_of_isRunChar (h d hd)

section Word

variable {c : Char} {more : Text}

theorem substitute_word (env : Environment) (halpha : c.isAlpha = true)
    (hword : ∀ d ∈ c :: more, Text.isWordChar d = true)
    (hstop : ∀ d ∈ cs.head?, Text.isWordChar d = false) :
    env.substitute (c :: more ++ cs) = env.replacement (c :: more) cs ++ env.substitute cs := by
  obtain ⟨htake, hdrop⟩ := span_append hword hstop
  rw [List.cons_append] at htake hdrop ⊢
  rw [substitute_name env halpha, htake, hdrop]

/-- A word that is copied, because it is called or unbound. -/
theorem Rewrites.keptName (h : env.Rewrites cs ts) (halpha : c.isAlpha = true)
    (hword : ∀ d ∈ c :: more, Text.isWordChar d = true)
    (hstop : ∀ d ∈ cs.head?, isRunChar d = false)
    (hcopy : env.replacement (c :: more) cs = c :: more)
    (hname : env.operandTokens (c :: more) ts = [.name (c :: more)]) :
    env.Rewrites (c :: more ++ cs) (.name (c :: more) :: ts) := by
  intro p
  obtain ⟨ls, q, hcuts, hls⟩ := h (p.advance (Text.byteLength (c :: more)))
  have hstop' : ∀ d ∈ (env.substitute cs).head?, isRunChar d = false := by
    rw [head?_substitute_of_stop env hstop]
    exact hstop
  obtain ⟨htake, hdrop⟩ := span_append hword (wordEnds hstop')
  have hscan := Token.scan?_of_isAlpha halpha (more ++ env.substitute cs)
  rw [← List.cons_append, htake, hdrop] at hscan
  rw [substitute_word env halpha hword (wordEnds hstop), hcopy, inline, hname, ← hls]
  exact ⟨_, q, .token hscan rfl hcuts, rfl⟩

/-- A word in front of a text that does not continue it. -/
theorem Rewrites.name (h : env.Rewrites cs ts) (halpha : c.isAlpha = true)
    (hword : ∀ d ∈ c :: more, Text.isWordChar d = true)
    (hstop : ∀ d ∈ cs.head?, isRunChar d = false)
    (hfinite : ∀ value, env.get? (c :: more) = some value → value.isFinite = true)
    (hcall : (cs.dropWhile Text.isBlank).head? = some '(' ↔ ts.head? = some .openParen) :
    env.Rewrites (c :: more ++ cs) (.name (c :: more) :: ts) := by
  by_cases hparen : (cs.dropWhile Text.isBlank).head? = some '('
  · obtain ⟨rest, rfl⟩ := List.head?_eq_some_iff.mp (hcall.mp hparen)
    exact h.keptName halpha hword hstop (replacement_of_openParen env _ hparen)
      (operandTokens_openParen env _ _)
  · cases hget : env.get? (c :: more) with
    | none =>
      exact h.keptName halpha hword hstop (replacement_of_none hget cs)
        (operandTokens_of_none hget ts)
    | some value =>
      intro p
      obtain ⟨ls, q, hcuts, hls⟩ := Value.spells_inPlace (hfinite value hget) p
        (env.substitute cs) (ends_substitute env hstop)
      obtain ⟨ls', r, hcuts', hls'⟩ := h q
      have htokens : env.inline (.name (c :: more) :: ts) = value.tokens ++ env.inline ts := by
        rw [inline, operandTokens_of_some hget (fun heq => hparen (hcall.mpr heq))]
      rw [substitute_word env halpha hword (wordEnds hstop), replacement_of_some hget hparen, htokens, ← hls,
        ← hls']
      exact ⟨ls ++ ls', r, hcuts.trans hcuts', tokens_append ls ls'⟩

end Word

end Rewrites

/-- **Substitution inlines values.**  If a text is cut into tokens of the grammar that no two operands
follow each other in, the substituted text is cut into the tokens with every bound name replaced by
the tokens of its value. -/
theorem cuts_substitute {env : Environment} {p q : Position} {cs : Text} {ls : List Lexeme}
    (h : Cuts p cs ls q []) (hgrammar : ∀ t ∈ tokens ls, t.isGrammatical = true)
    (hspaced : Spaced (tokens ls)) (hcall : '\x0c' ∉ cs ∨ CallFree (tokens ls))
    (hfinite : env.BindsFinite (tokens ls)) : env.Rewrites cs (tokens ls) := by
  generalize hnil : ([] : Text) = rest at h
  induction h with
  | done =>
    subst hnil
    exact rewrites_nil env
  | gap hgap _ ih =>
    refine (ih hgrammar hspaced ?_ hfinite hnil).gap hgap
    exact hcall.imp_left (fun hfeed hmem => hfeed (List.mem_cons_of_mem _ hmem))
  | @token p q cs slice after rest t ls hscan hsmall h ih =>
    subst hnil
    obtain ⟨hsplit, -⟩ := Token.scan?_split hscan
    rw [tokens_cons] at hgrammar hspaced hcall hfinite ⊢
    have hcall' : '\x0c' ∉ after ∨ CallFree (t :: tokens ls) := by
      refine hcall.imp_left (fun hfeed hmem => hfeed ?_)
      rw [← hsplit]
      exact List.mem_append_right _ hmem
    have hfinite' : env.BindsFinite (tokens ls) :=
      fun name value hmem => hfinite name value (List.mem_cons_of_mem _ hmem)
    have hmore : env.Rewrites after (tokens ls) :=
      ih (fun t ht => hgrammar t (List.mem_cons_of_mem _ ht)) hspaced.tail
        (hcall'.imp_right List.IsChain.tail) hfinite' rfl
    rcases Token.scan?_cases hscan with ⟨c, rest, rfl, halpha, rfl, hslice, hafter⟩ |
        ⟨n, hproper, hread, rfl, rfl⟩ | ⟨c, rest, rfl, halpha, hends, hsymbol⟩
    · rw [List.takeWhile_cons_of_pos (Token.isWordChar_of_isAlpha halpha)] at hslice
      subst hslice
      rw [← hsplit]
      refine hmore.name halpha ?_ (isRunChar_of_spaced h rfl hspaced)
        (fun value => hfinite _ value List.mem_cons_self) (openParen_iff h rfl hcall')
      rw [List.forall_mem_cons]
      exact ⟨Token.isWordChar_of_isAlpha halpha, fun d hd => List.mem_takeWhile_imp hd⟩
    · rw [← hsplit]
      exact hmore.number hproper hsmall (isRunChar_of_spaced h rfl hspaced)
    · obtain ⟨-, rfl, -⟩ := Token.symbol?_congr rest hsymbol
        (hgrammar t List.mem_cons_self) (fun d hd => Or.inl hd)
      exact hmore.symbol halpha hends hsymbol (hgrammar t List.mem_cons_self) hsmall
        (head?_substitute h hfinite')

end Environment
end Abacus
