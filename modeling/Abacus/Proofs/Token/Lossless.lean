/-
# Nothing is lost between a text and its tokens

The lexemes of a text lie in it like tiles with gaps between them: each is a piece of the text that
stands for the token, no pattern matches more of the text where it starts, and between the pieces
there are separators only (`Tiles`).  This says what the lexer does without saying how it does it,
and it determines the lexemes (`cuts_iff_tiles`).

A token is found by looking at all of the text behind it, but it would have been found in a shorter
text just as well.  So where the lexer is stopped, the text in front of that place has the lexemes
that were taken off until then (`Cuts.exists_front`).

Main statement: `lex_lossless`.
-/
import Abacus.Proofs.Token.Patterns
import Abacus.Proofs.Token.Places

namespace Abacus

theorem Text.byteLength_pos {text : Text} (h : text ≠ []) : 0 < Text.byteLength text := by
  obtain ⟨c, cs, rfl⟩ := List.exists_cons_of_ne_nil h
  rw [byteLength_cons]
  exact Nat.add_pos_left c.utf8Size_pos _

namespace Token

/-! ## 1. Tiles -/

/-- From the position `p` in front of a text to the position `q` in front of `rest`, the text
consists of separators and of longest matches, which are the lexemes with their positions. -/
inductive Tiles : Position → Text → List Lexeme → Position → Text → Prop
  | done {p : Position} {gaps rest : Text} : (∀ c ∈ gaps, isGap c = true) →
      Tiles p (gaps ++ rest) [] (p.advance (Text.byteLength gaps)) rest
  | token {p q r : Position} {gaps slice after rest : Text} {t : Token} {ls : List Lexeme} :
      (∀ c ∈ gaps, isGap c = true) → q = p.advance (Text.byteLength gaps) →
        Denotes slice t → Longest slice after → t.isTooLarge = false →
          Tiles (q.advance (Text.byteLength slice)) after ls r rest →
            Tiles p (gaps ++ (slice ++ after)) (⟨t, q⟩ :: ls) r rest

section Tiles

variable {p q : Position} {cs rest : Text} {ls : List Lexeme}

/-- A separator in front widens the first gap. -/
theorem Tiles.gap {c : Char} (hgap : isGap c = true)
    (h : Tiles (p.advance c.utf8Size) cs ls q rest) : Tiles p (c :: cs) ls q rest := by
  generalize hp : p.advance c.utf8Size = p' at h
  cases h with
  | @done _ gaps rest hgaps =>
    subst hp
    have hall : ∀ d ∈ c :: gaps, isGap d = true := List.forall_mem_cons.mpr ⟨hgap, hgaps⟩
    have hdone := @Tiles.done p (c :: gaps) rest hall
    rwa [Text.byteLength_cons, ← Position.advance_advance] at hdone
  | token hgaps hq hdenotes hlongest hsmall hmore =>
    subst hp
    rw [Position.advance_advance, ← Text.byteLength_cons] at hq
    exact .token (List.forall_mem_cons.mpr ⟨hgap, hgaps⟩) hq hdenotes hlongest hsmall hmore

/-- **What the lexer takes off lies in the text like tiles**, and only that does. -/
theorem cuts_iff_tiles : Cuts p cs ls q rest ↔ Tiles p cs ls q rest := by
  constructor
  · intro h
    induction h with
    | @done p cs =>
      have hnone : ∀ c ∈ ([] : Text), isGap c = true := by simp
      exact .done hnone
    | gap hgap _ ih => exact ih.gap hgap
    | @token p q cs slice after rest t ls hscan hsmall _ ih =>
      obtain ⟨rfl, hdenotes, hlongest⟩ := scan?_eq_some_iff.mp hscan
      have hnone : ∀ c ∈ ([] : Text), isGap c = true := by simp
      exact .token hnone rfl hdenotes hlongest hsmall ih
  · intro h
    induction h with
    | @done p gaps rest hgaps => exact .gaps hgaps p rest
    | @token p q r gaps slice after rest t ls hgaps hq hdenotes hlongest hsmall _ ih =>
      have hscan := scan?_eq_some_iff.mpr ⟨rfl, hdenotes, hlongest⟩
      subst hq
      exact (Cuts.gaps hgaps p (slice ++ after)).trans (.token hscan hsmall ih)

end Tiles

/-! ## 2. Places of lexemes -/

namespace Cuts

variable {p q : Position} {cs rest : Text} {ls : List Lexeme}

/-- **The text in front of a place** that the lexer gets to has the lexemes up to there. -/
theorem exists_front (h : Cuts p cs ls q rest) :
    ∃ front, cs = front ++ rest ∧ q = p.advance (Text.byteLength front) ∧ Cuts p front ls q [] := by
  induction h with
  | done => exact ⟨[], rfl, rfl, .done⟩
  | @gap p q c cs rest ls hgap _ ih =>
    obtain ⟨front, rfl, rfl, hcuts⟩ := ih
    refine ⟨c :: front, rfl, ?_, .gap hgap hcuts⟩
    rw [Position.advance_advance, Text.byteLength_cons]
  | @token p q cs slice after rest t ls hscan hsmall _ ih =>
    obtain ⟨front, rfl, rfl, hcuts⟩ := ih
    have hsplit := (scan?_split hscan).1
    refine ⟨slice ++ front, ?_, ?_, .token (scan?_cut hscan) hsmall hcuts⟩
    · rw [← hsplit, List.append_assoc]
    · rw [Position.advance_advance, Text.byteLength_append]

theorem column_le (h : Cuts p cs ls q rest) :
    p.column ≤ q.column ∧ ∀ l ∈ ls, p.column ≤ l.position.column := by
  induction h with
  | done => exact ⟨Nat.le_refl _, by simp⟩
  | gap _ _ ih =>
    rw [Position.column_advance] at ih
    exact ⟨by omega, fun l hl => by have := ih.2 l hl; omega⟩
  | token _ _ _ ih =>
    rw [Position.column_advance] at ih
    refine ⟨by omega, List.forall_mem_cons.mpr ⟨Nat.le_refl _, fun l hl => ?_⟩⟩
    have := ih.2 l hl
    omega

/-- **The columns increase**, up to the place behind the last lexeme. -/
theorem pairwise_column (h : Cuts p cs ls q rest) :
    (ls ++ [(⟨.endOfInput, q⟩ : Lexeme)]).Pairwise
      (fun l m => l.position.column < m.position.column) := by
  induction h with
  | done => exact List.pairwise_singleton _ _
  | gap _ _ ih => exact ih
  | @token p q cs slice after rest t ls hscan _ hmore ih =>
    have hpos := Text.byteLength_pos (scan?_split hscan).2
    obtain ⟨hend, hall⟩ := hmore.column_le
    rw [Position.column_advance] at hend hall
    refine List.pairwise_cons.mpr ⟨List.forall_mem_append.mpr ⟨fun l hl => ?_, ?_⟩, ih⟩
    · have := hall l hl
      show p.column < l.position.column
      omega
    · exact List.forall_mem_singleton.mpr (show p.column < q.column by omega)

end Cuts

/-! ## 3. Where the lexer is stopped -/

/-- What stands at the front of a text that the lexer cannot go on with: a character at which no
pattern matches anything, or a longest match that is too large a number. -/
inductive Blocks : Cause → Text → Prop
  | unexpected {c : Char} {cs : Text} : (∀ front, front <+: c :: cs → ¬ Matches front) →
      Blocks (.unexpectedCharacter c) (c :: cs)
  | tooLarge {slice after : Text} {x : Binary64} : Denotes slice (.number x) →
      Longest slice after → x.isFinite = false → Blocks .literalTooLarge (slice ++ after)

/-- Where neither a token nor a separator starts, no pattern matches. -/
theorem blocks_unexpected {c : Char} {cs : Text} (hgap : ¬ isGap c = true)
    (hscan : scan? (c :: cs) = none) : Blocks (.unexpectedCharacter c) (c :: cs) := by
  refine .unexpected fun front hfront hmatches => ?_
  rcases hmatches with ⟨t, hdenotes⟩ | ⟨hne, hgaps⟩
  · exact scan?_eq_none_iff.mp hscan front t hfront hdenotes
  · obtain ⟨d, front, rfl⟩ := List.exists_cons_of_ne_nil hne
    obtain ⟨rfl, -⟩ := List.cons_prefix_cons.mp hfront
    exact hgap (hgaps d List.mem_cons_self)

theorem blocks_tooLarge {cs slice after : Text} {t : Token}
    (hscan : scan? cs = some (t, slice, after)) (hlarge : t.isTooLarge = true) :
    Blocks .literalTooLarge cs := by
  obtain ⟨rfl, hdenotes, hlongest⟩ := scan?_eq_some_iff.mp hscan
  cases t with
  | number x => exact .tooLarge hdenotes hlongest (by simpa [isTooLarge] using hlarge)
  | _ => cases hlarge

/-- **An error of the lexer** stands where it could not go on, behind the lexemes found so far. -/
theorem exists_of_lex_error {p : Position} {cs : Text} {e : Error} (h : lex p cs = .error e) :
    ∃ found rest, Cuts p cs found e.position rest ∧ Blocks e.cause rest := by
  induction p, cs using lex.induct with
  | case1 p =>
    rw [lex] at h
    cases h
  | case2 p c rest hgap ih =>
    rw [lex, if_pos hgap] at h
    obtain ⟨found, after, hcuts, hblocks⟩ := ih h
    exact ⟨found, after, .gap hgap hcuts, hblocks⟩
  | case3 p c rest hgap hscan =>
    rw [lex_of_scan?_eq_none hgap hscan] at h
    cases h
    exact ⟨[], c :: rest, .done, blocks_unexpected hgap hscan⟩
  | case4 p c rest hgap token slice after hscan hlarge =>
    rw [lex_of_scan? hscan, if_pos hlarge] at h
    cases h
    exact ⟨[], c :: rest, .done, blocks_tooLarge hscan hlarge⟩
  | case5 p c rest hgap token slice after hscan hsmall ih =>
    rw [lex_of_scan? hscan, if_neg hsmall] at h
    have hmore := map_eq_error h
    obtain ⟨found, mid, hcuts, hblocks⟩ := ih hmore
    exact ⟨⟨token, p⟩ :: found, mid, .token hscan (by simpa using hsmall) hcuts, hblocks⟩

/-! ## 4. The lexer -/

/-- The lexemes in front of the end of input, for a text at the position `p`. -/
structure Lossless (p : Position) (text : Text) (body : List Lexeme) : Prop where
  /-- The text consists of them and of separators, to its end. -/
  tiles : Tiles p text body (p.advance (Text.byteLength text)) []
  /-- Only the last lexeme is the end of input. -/
  endOfInput_notMem : .endOfInput ∉ tokens body
  /-- The columns increase, up to the end of the text. -/
  increasing : (body ++ [(⟨.endOfInput, p.advance (Text.byteLength text)⟩ : Lexeme)]).Pairwise
    (fun l m => l.position.column < m.position.column)
  /-- The position of a lexeme counts the bytes of the text in front of it. -/
  offsets : ∀ l ∈ body, ∃ front after, text = front ++ after ∧
    l.position = p.advance (Text.byteLength front)
  /-- The written forms with blanks between them have the same tokens. -/
  readBack : ∀ q, ∃ ls, lex q (spaced (tokens body)) = .ok ls ∧
    tokens ls = tokens body ++ [.endOfInput]

/-- An error of the lexer for a text at the position `p`. -/
structure StopsAt (p : Position) (text : Text) (e : Error) (found : List Lexeme)
    (front rest : Text) : Prop where
  split : text = front ++ rest
  /-- The position counts the bytes in front of the place. -/
  position : e.position = p.advance (Text.byteLength front)
  /-- Up to there, the text consists of separators and the lexemes found so far. -/
  tiles : Tiles p text found e.position rest
  /-- The lexer cannot go on. -/
  blocks : Blocks e.cause rest
  /-- The text in front of the place has the lexemes found so far. -/
  lex_front : lex p front = .ok (found ++ [⟨.endOfInput, e.position⟩])

/-- **Nothing is lost between a text and its tokens.**  Either the lexemes cover the text up to its
end, or they cover the text up to a place where no lexeme can be taken off. -/
theorem lex_lossless (p : Position) (text : Text) :
    (∃ body, lex p text = .ok (body ++ [⟨.endOfInput, p.advance (Text.byteLength text)⟩]) ∧
        Lossless p text body) ∨
      ∃ e found front rest, lex p text = .error e ∧ StopsAt p text e found front rest := by
  cases hlex : lex p text with
  | ok ls =>
    obtain ⟨body, q, rfl, hcuts⟩ := cuts_of_lex hlex
    obtain ⟨front, hsplit, rfl, -⟩ := hcuts.exists_front
    rw [List.append_nil] at hsplit
    subst hsplit
    refine Or.inl ⟨body, rfl, cuts_iff_tiles.mp hcuts, hcuts.endOfInput_notMem,
      hcuts.pairwise_column, ?_, ?_⟩
    · intro l hl
      obtain ⟨after, front, hsplit, -, hposition⟩ := hcuts.isPlace.1 l hl
      exact ⟨front, after, hsplit, hposition⟩
    · intro q
      obtain ⟨ls, r, hspaced, hls⟩ := cuts_spaced hcuts.isWritable q
      refine ⟨_, hspaced.lex_eq_ok, ?_⟩
      rw [tokens_append, hls]
      rfl
  | error e =>
    obtain ⟨found, rest, hcuts, hblocks⟩ := exists_of_lex_error hlex
    obtain ⟨front, hsplit, hposition, hfront⟩ := hcuts.exists_front
    exact Or.inr ⟨e, found, front, rest, rfl, hsplit, hposition, cuts_iff_tiles.mp hcuts, hblocks,
      hfront.lex_eq_ok⟩

end Token

end Abacus
