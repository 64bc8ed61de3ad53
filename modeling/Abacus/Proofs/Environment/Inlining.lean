/-
# Substitution preserves the meaning of an expression

The substituted text has the tokens of the text with values inlined, so what is left is a statement
about trees.  By induction on the written form: where `ls` is a written form of `e`, lexemes with the
inlined tokens are a written form, at the same level, of a tree with the outcome that `e` has.  A
literal has no names and stays as it is, a name becomes an operand with its value, and everything
else is put together from parts, because no cut between parts separates a name from its arguments.

Not the environment itself gives `e` that outcome, but the environment with its values collapsed:
written in place of a name, a fraction becomes a quotient of numbers, and a matrix without rows a
vector without elements.  Positions move, so an error keeps its cause and not its place.

The written forms of values are taller than a name, so the limits of the language can refuse the
substituted text.

Main statements:

* `inlined_of_reads`: the statement about trees;
* `parse_substitute`: the statement about texts.
-/
import Abacus.Evaluation.Text
import Abacus.Proofs.Environment.Substitution
import Abacus.Proofs.Expr.Completeness
import Abacus.Proofs.Value.Positions

namespace Abacus

/-! ## 1. Collapsed environments -/

namespace Environment

/-- Every bound value is finite. -/
def isFinite (env : Environment) : Bool := env.bindings.all (fun binding => binding.2.isFinite)

/-- The environment with every value collapsed. -/
def collapse (env : Environment) : Environment :=
  { env with bindings := env.bindings.map (fun (name, value) => (name, value.collapse)) }

theorem mem_of_find? {name : Text} {value : Value} {bindings : List (Text × Value)}
    (h : find? name bindings = some value) : (name, value) ∈ bindings := by
  induction bindings with
  | nil => cases h
  | cons binding bindings ih =>
    obtain ⟨key, first⟩ := binding
    unfold find? at h
    split at h
    · next hkey =>
      cases h
      rw [hkey]
      exact List.mem_cons_self
    · exact List.mem_cons_of_mem _ (ih h)

/-- A finite environment binds names to finite values only. -/
theorem bindsFinite_of_isFinite {env : Environment} (h : env.isFinite = true) (ts : List Token) :
    env.BindsFinite ts :=
  fun _ _ _ hget => List.all_eq_true.mp h _ (mem_of_find? hget)

theorem get?_collapse (env : Environment) (name : Text) :
    env.collapse.get? name = (env.get? name).map Value.collapse := by
  unfold get? collapse
  dsimp only
  induction env.bindings with
  | nil => rfl
  | cons binding bindings ih =>
    obtain ⟨key, value⟩ := binding
    rw [List.map_cons, find?, find?]
    split
    · rfl
    · exact ih

end Environment

/-! ## 2. Lexemes that differ in their positions -/

namespace Expr

section Transfer

variable {α : Type} {item item' : α → List Lexeme → Prop} {closing : Token} {xs : List α}
  {ls ls' : List Lexeme}

/-- A list of items is a list wherever its tokens stand, if the items are. -/
theorem Separated.transfer
    (hitem : ∀ x ls ls', item x ls → tokens ls' = tokens ls → item' x ls')
    (h : Separated item xs ls) (hls : tokens ls' = tokens ls) : Separated item' xs ls' := by
  induction h generalizing ls' with
  | one hx => exact .one (hitem _ _ _ hx hls)
  | more hx _ ih =>
    rw [tokens_append, tokens_cons] at hls
    obtain ⟨first, _, rfl, hfirst, hmore⟩ := exists_of_tokens_append hls
    obtain ⟨p, rest, rfl, hrest⟩ := exists_of_tokens_cons hmore
    exact .more (hitem _ _ _ hx hfirst) (ih hrest)

theorem Listed.transfer
    (hitem : ∀ x ls ls', item x ls → tokens ls' = tokens ls → item' x ls')
    (h : Listed item closing xs ls) (hls : tokens ls' = tokens ls) :
    Listed item' closing xs ls' := by
  cases h with
  | empty =>
    obtain ⟨p, _, rfl, hnil⟩ := exists_of_tokens_cons hls
    rw [eq_nil_of_tokens hnil]
    exact .empty
  | filled hsep =>
    rw [tokens_append] at hls
    obtain ⟨inner, _, rfl, hinner, hclose⟩ := exists_of_tokens_append hls
    obtain ⟨p, _, rfl, hnil⟩ := exists_of_tokens_cons hclose
    rw [eq_nil_of_tokens hnil]
    exact .filled (hsep.transfer hitem hinner)

end Transfer

theorem Signed.transfer {x : Binary64} {ls ls' : List Lexeme} (h : Signed x ls)
    (hls : tokens ls' = tokens ls) : Signed x ls' := by
  cases h with
  | plain =>
    obtain ⟨p, _, rfl, hnil⟩ := exists_of_tokens_cons hls
    rw [eq_nil_of_tokens hnil]
    exact .plain
  | minus =>
    obtain ⟨p, _, rfl, hnumber⟩ := exists_of_tokens_cons hls
    obtain ⟨q, _, rfl, hnil⟩ := exists_of_tokens_cons hnumber
    rw [eq_nil_of_tokens hnil]
    exact .minus

theorem Row.transfer {xs : List Binary64} {ls ls' : List Lexeme} (h : Row xs ls)
    (hls : tokens ls' = tokens ls) : Row xs ls' := by
  cases h with
  | row hlist =>
    obtain ⟨p, _, rfl, hrest⟩ := exists_of_tokens_cons hls
    exact .row (hlist.transfer (fun _ _ _ => Signed.transfer) hrest)

/-! ## 3. Literals have no names -/

/-- Tokens without names. -/
def Nameless (ts : List Token) : Prop := ∀ t ∈ ts, ∀ name, t ≠ .name name

theorem inline_of_nameless (env : Environment) {ts : List Token} (h : Nameless ts) :
    env.inline ts = ts := by
  induction ts with
  | nil => rfl
  | cons t ts ih =>
    obtain ⟨ht, hts⟩ := List.forall_mem_cons.mp h
    rw [Environment.inline_cons env ht, ih hts]

theorem Signed.nameless {x : Binary64} {ls : List Lexeme} (h : Signed x ls) :
    Nameless (tokens ls) := by
  cases h <;> simp [Nameless]

theorem nameless_vector {xs : List Binary64} {ls : List Lexeme}
    (h : Listed Signed .closeBracket xs ls) (p : Position) :
    Nameless (tokens (⟨.openBracket, p⟩ :: ls)) := by
  rw [tokens_cons]
  refine List.forall_mem_cons.mpr ⟨by simp, ?_⟩
  exact h.forall_token (P := fun t => ∀ name, t ≠ .name name) (by simp) (by simp)
    (fun _ _ hx => hx.nameless)

theorem Row.nameless {xs : List Binary64} {ls : List Lexeme} (h : Row xs ls) :
    Nameless (tokens ls) := by
  cases h with
  | row hlist => exact nameless_vector hlist _

theorem nameless_matrix {rows : List (List Binary64)} {ls : List Lexeme}
    (h : Separated Row rows ls) (p q : Position) :
    Nameless (tokens (⟨.openBracket, p⟩ :: (ls ++ [⟨.closeBracket, q⟩]))) := by
  rw [tokens_cons, tokens_append]
  refine List.forall_mem_cons.mpr ⟨by simp, List.forall_mem_append.mpr ⟨?_, by simp⟩⟩
  exact h.forall_token (P := fun t => ∀ name, t ≠ .name name) (by simp)
    (fun _ _ hx => hx.nameless)

/-! ## 4. Inlined trees -/

/-- The tree `e'` is `e` with values in place of names. -/
structure Inlined (env : Environment) (e e' : Expr) : Prop where
  /-- It has the outcome of `e` in the collapsed environment. -/
  outcome : SameOutcome (env.eval e') (env.collapse.eval e)
  /-- Where scalars are put in place of names, the tree consists of numbers and operators. -/
  ground : e.isNumeric = true → (∀ name ∈ e.variableNames, env.bindsFiniteScalar name = true) →
    e'.isGround = true

/-- The trees `es'` are `es` with values in place of names. -/
def InlinedAll (env : Environment) (es es' : List Expr) : Prop :=
  SameOutcome (env.evalAll es') (env.collapse.evalAll es)

section Inlined

variable {env : Environment}

theorem inlinedAll_nil (env : Environment) : InlinedAll env [] [] := by
  unfold InlinedAll
  rw [Environment.evalAll, Environment.evalAll]
  exact .refl _

theorem InlinedAll.cons {e e' : Expr} {es es' : List Expr}
    (h : SameOutcome (env.eval e') (env.collapse.eval e)) (hs : InlinedAll env es es') :
    InlinedAll env (e :: es) (e' :: es') := by
  unfold InlinedAll
  rw [Environment.evalAll, Environment.evalAll]
  exact h.bind (fun v => SameOutcome.bind hs (fun vs => .refl _))

/-- A tree without names stands for itself. -/
theorem inlined_of_literal {e e' : Expr} (h : SameOutcome (env.eval e') (env.collapse.eval e))
    (hnumeric : e.isNumeric = false) : Inlined env e e' where
  outcome := h
  ground := by
    intro hyes
    rw [hnumeric] at hyes
    cases hyes

/-- A name becomes an operand with its value, or stays if it is unbound. -/
theorem inlined_name {text : Text} {p : Position} {ls : List Lexeme}
    (hls : tokens ls = env.inline [.name text]) :
    ∃ e, (∀ k, Reads k e ls) ∧ Inlined env (.name text p) e := by
  rw [Environment.inline, Environment.inline_nil, List.append_nil] at hls
  have hcollapsed := env.get?_collapse text
  cases hget : env.get? text with
  | none =>
    rw [Environment.operandTokens_of_none hget] at hls
    obtain ⟨q, _, rfl, hnil⟩ := exists_of_tokens_cons hls
    rw [eq_nil_of_tokens hnil]
    rw [hget] at hcollapsed
    refine ⟨.name text q, fun k => .name, ?_, ?_⟩
    · rw [Environment.eval, Environment.eval, Environment.lookup, Environment.lookup, hget,
        hcollapsed]
      rfl
    · intro _ hscalar
      have := hscalar text List.mem_cons_self
      unfold Environment.bindsFiniteScalar at this
      rw [hget] at this
      cases this
  | some value =>
    rw [Environment.operandTokens_of_some hget (by simp)] at hls
    rw [hget] at hcollapsed
    obtain ⟨e, hreads, hground, heval⟩ := reads_of_tokens hls
    refine ⟨e, hreads, ?_, ?_⟩
    · rw [heval, Environment.eval, Environment.lookup, hcollapsed]
      rfl
    · intro _ hscalar
      have hbinds := hscalar text List.mem_cons_self
      unfold Environment.bindsFiniteScalar at hbinds
      rw [hget] at hbinds
      refine hground ?_
      cases value with
      | scalar x => exact ⟨x, rfl⟩
      | _ => cases hbinds

theorem Inlined.negate {e e' : Expr} (h : Inlined env e e') (p q : Position) :
    Inlined env (.negate e p) (.negate e' q) where
  outcome := by
    rw [Environment.eval, Environment.eval]
    exact h.outcome.bind (fun v => .refl _)
  ground := h.ground

theorem Inlined.binary {op : Operator} {l l' r r' : Expr} (hl : Inlined env l l')
    (hr : Inlined env r r') (p q : Position) :
    Inlined env (.binary op l r p) (.binary op l' r' q) where
  outcome := by
    rw [Environment.eval, Environment.eval]
    exact hl.outcome.bind (fun v => hr.outcome.bind
      (fun w => Value.sameOutcome_combine op v w q p))
  ground := by
    intro hnumeric hscalar
    obtain ⟨hnl, hnr⟩ := Bool.and_eq_true_iff.mp hnumeric
    obtain ⟨hsl, hsr⟩ := List.forall_mem_append.mp hscalar
    exact Bool.and_eq_true_iff.mpr ⟨hl.ground hnl hsl, hr.ground hnr hsr⟩

theorem inlined_call {text : Text} {es es' : List Expr} (h : InlinedAll env es es')
    (p q : Position) : Inlined env (.call text es p) (.call text es' q) := by
  refine inlined_of_literal ?_ rfl
  rw [Environment.eval, Environment.eval]
  split
  · rfl
  · next f _ => exact SameOutcome.bind h (fun vs => f.sameOutcome_apply vs q p)

/-- Arguments with values inlined are arguments, each with the values inlined. -/
theorem separated_inlined {es : List Expr} {ls ls' : List Lexeme}
    (h : Separated (fun e ls => ∀ ls', tokens ls' = env.inline (tokens ls) →
      ∃ e', Reads 1 e' ls' ∧ Inlined env e e') es ls)
    (hls : tokens ls' = env.inline (tokens ls)) :
    ∃ es', Separated (Reads 1) es' ls' ∧ InlinedAll env es es' := by
  induction h generalizing ls' with
  | one hx =>
    obtain ⟨e', hreads, hin⟩ := hx _ hls
    exact ⟨[e'], .one hreads, .cons hin.outcome (inlinedAll_nil env)⟩
  | more hx _ ih =>
    rw [tokens_append, tokens_cons, env.inline_append _ (by simp),
      Environment.inline_cons env (by simp)] at hls
    obtain ⟨first, _, rfl, hfirst, hmore⟩ := exists_of_tokens_append hls
    obtain ⟨p, rest, rfl, hrest⟩ := exists_of_tokens_cons hmore
    obtain ⟨e', hreads, hin⟩ := hx _ hfirst
    obtain ⟨es', hsep, hall⟩ := ih hrest
    exact ⟨e' :: es', .more hreads hsep, .cons hin.outcome hall⟩

theorem listed_inlined {es : List Expr} {ls ls' : List Lexeme}
    (h : Listed (fun e ls => ∀ ls', tokens ls' = env.inline (tokens ls) →
      ∃ e', Reads 1 e' ls' ∧ Inlined env e e') .closeParen es ls)
    (hls : tokens ls' = env.inline (tokens ls)) :
    ∃ es', Listed (Reads 1) .closeParen es' ls' ∧ InlinedAll env es es' := by
  cases h with
  | empty =>
    obtain ⟨p, _, rfl, hnil⟩ := exists_of_tokens_cons hls
    rw [eq_nil_of_tokens hnil]
    exact ⟨[], .empty, inlinedAll_nil env⟩
  | filled hsep =>
    rw [tokens_append, env.inline_append _ (by simp)] at hls
    obtain ⟨inner, _, rfl, hinner, hclose⟩ := exists_of_tokens_append hls
    obtain ⟨p, _, rfl, hnil⟩ := exists_of_tokens_cons hclose
    rw [eq_nil_of_tokens hnil]
    obtain ⟨es', hsep', hall⟩ := separated_inlined hsep hinner
    exact ⟨es', .filled hsep', hall⟩

end Inlined

/-- **Inlining values in a written form** gives a written form of a tree with the values inlined, at
the same level. -/
theorem inlined_of_reads {env : Environment} {k : Nat} {e : Expr} {ls : List Lexeme}
    (h : Reads k e ls) :
    ∀ ls', tokens ls' = env.inline (tokens ls) → ∃ e', Reads k e' ls' ∧ Inlined env e e' := by
  induction h using Reads.induction with
  | number k x p =>
    intro ls' hls
    obtain ⟨q, _, rfl, hnil⟩ := exists_of_tokens_cons hls
    rw [eq_nil_of_tokens hnil]
    refine ⟨.number x q, .number, ?_, fun _ _ => rfl⟩
    rw [Environment.eval, Environment.eval]
    exact .refl _
  | name k text p =>
    intro ls' hls
    obtain ⟨e', hreads, hin⟩ := inlined_name (p := p) hls
    exact ⟨e', hreads k, hin⟩
  | vector k xs ls p hlist =>
    intro ls' hls
    rw [inline_of_nameless env (nameless_vector hlist p)] at hls
    obtain ⟨q, rest, rfl, hrest⟩ := exists_of_tokens_cons hls
    refine ⟨.vector xs q, .vector (hlist.transfer (fun _ _ _ => Signed.transfer) hrest),
      inlined_of_literal ?_ rfl⟩
    rw [Environment.eval, Environment.eval]
    exact .refl _
  | matrix k rows ls p q hsep =>
    intro ls' hls
    rw [inline_of_nameless env (nameless_matrix hsep p q), tokens_cons, tokens_append] at hls
    obtain ⟨p', inner, q', rfl, hinner⟩ := exists_of_tokens_enclosed hls
    refine ⟨.matrix rows p', .matrix (hsep.transfer (fun _ _ _ => Row.transfer) hinner),
      inlined_of_literal ?_ rfl⟩
    rw [Environment.eval, Environment.eval]
    exact (Matrix.sameOutcome_make rows p' p).map _
  | call k text es ls p q _ h =>
    intro ls' hls
    rw [tokens_cons, tokens_cons, Environment.inline, Environment.operandTokens_openParen,
      Environment.inline_cons env (by simp)] at hls
    obtain ⟨p', _, rfl, hparen⟩ := exists_of_tokens_cons hls
    obtain ⟨q', rest, rfl, hrest⟩ := exists_of_tokens_cons hparen
    have hargs : Listed (fun e ls => ∀ ls', tokens ls' = env.inline (tokens ls) →
        ∃ e', Reads 1 e' ls' ∧ Inlined env e e') .closeParen es ls := by
      refine h.transfer (fun e ls ls' he heq => ?_) rfl
      rw [heq]
      exact he.2
    obtain ⟨es', hlist, hall⟩ := listed_inlined hargs hrest
    exact ⟨.call text es' p', .call hlist, inlined_call hall p p'⟩
  | group k e ls p q _ ih =>
    intro ls' hls
    rw [tokens_cons, tokens_append, Environment.inline_cons env (by simp),
      env.inline_append _ (by simp)] at hls
    obtain ⟨p', inner, q', rfl, hinner⟩ := exists_of_tokens_enclosed hls
    obtain ⟨e', hreads, hin⟩ := ih inner hinner
    exact ⟨e', .group hreads, hin⟩
  | negate k e ls p _ ih =>
    intro ls' hls
    rw [tokens_cons, Environment.inline_cons env (by simp)] at hls
    obtain ⟨q, rest, rfl, hrest⟩ := exists_of_tokens_cons hls
    obtain ⟨e', hreads, hin⟩ := ih rest hrest
    exact ⟨.negate e' q, .negate hreads, hin.negate p q⟩
  | binary k op l r ls rs p hk _ _ ihl ihr =>
    intro ls' hls
    rw [tokens_append, tokens_cons, env.inline_append _ (by simp),
      Environment.inline_cons env (by simp)] at hls
    obtain ⟨left, _, rfl, hleft, hmore⟩ := exists_of_tokens_append hls
    obtain ⟨q, right, rfl, hright⟩ := exists_of_tokens_cons hmore
    obtain ⟨l', hl, hinl⟩ := ihl left hleft
    obtain ⟨r', hr, hinr⟩ := ihr right hright
    exact ⟨.binary op l' r' q, .binary hk hl hr, hinl.binary hinr p q⟩

/-- The substituted text is cut into a written form of the tree with values inlined. -/
theorem cuts_inlined {env : Environment} {text : Text} {origin q : Position} {e : Expr}
    {body : List Lexeme} (hcuts : Token.Cuts origin text body q []) (h : Reads 1 e body)
    (hcall : '\x0c' ∉ text ∨ CallFree (tokens body)) (hfinite : env.BindsFinite (tokens body))
    (origin' : Position) :
    ∃ body' q' e', Token.Cuts origin' (env.substitute text) body' q' [] ∧ Reads 1 e' body' ∧
      Inlined env e e' := by
  obtain ⟨body', q', hcuts', hbody'⟩ :=
    Environment.cuts_substitute hcuts h.isGrammatical h.spaced hcall hfinite origin'
  obtain ⟨e', hreads, hin⟩ := inlined_of_reads h body' hbody'
  exact ⟨body', q', e', hcuts', hreads, hin⟩

/-! ## 5. Texts -/

/-- **Substitution preserves meaning.**  In an environment of finite values, let a text without form
feeds have a tree.  Wherever the substituted text starts, it nests too deeply, or it has a tree whose
outcome is that of the original tree in the collapsed environment. -/
theorem parse_substitute {env : Environment} (hfinite : env.isFinite = true) {text : Text}
    (hfeed : '\x0c' ∉ text) {origin : Position} {e : Expr} (hparse : parse text origin = .ok e)
    (origin' : Position) :
    (∃ p, parse (env.substitute text) origin' = .error ⟨.nestingTooDeep, p⟩) ∨
      ∃ e', parse (env.substitute text) origin' = .ok e' ∧
        SameOutcome (env.eval e') (env.collapse.eval e) := by
  obtain ⟨body, q, hcuts, hreads⟩ := cuts_of_parse hparse
  obtain ⟨body', q', e', hcuts', hreads', hin⟩ := cuts_inlined hcuts hreads (Or.inl hfeed)
    (Environment.bindsFinite_of_isFinite hfinite _) origin'
  rcases orTooDeep_parse hcuts' hreads' with hok | ⟨p, herror⟩
  · exact Or.inr ⟨e', hok, hin.outcome⟩
  · exact Or.inl ⟨p, herror⟩

namespace Example

/-- An environment in which `x` is the fraction `1/1`. -/
def unit : Environment := ⟨[(['x'], .rational (.ofNumber .one))], false⟩

/-- The tree of `2*x`. -/
def double : Expr :=
  .binary .mul (.number (Numeral.value ⟨['2'], none⟩) ⟨1, 1⟩) (.name ['x'] ⟨1, 3⟩) ⟨1, 2⟩

theorem lex_double : Token.lex ⟨1, 1⟩ "2*x".toList = .ok
    [⟨.number (Numeral.value ⟨['2'], none⟩), ⟨1, 1⟩⟩, ⟨.operator .mul, ⟨1, 2⟩⟩,
      ⟨.name ['x'], ⟨1, 3⟩⟩, ⟨.endOfInput, ⟨1, 4⟩⟩] := by
  decide +kernel

theorem parse_double : parse "2*x".toList ⟨1, 1⟩ = .ok double := by
  unfold parse parseWithin
  rw [lex_double]
  rfl

/-- The fraction is written `(1/1)`, and the product becomes one of numbers. -/
theorem parse_substitute_double :
    unit.isFinite = true ∧ '\x0c' ∉ "2*x".toList ∧ parse "2*x".toList ⟨1, 1⟩ = .ok double ∧
      ((∃ p, parse (unit.substitute "2*x".toList) ⟨1, 1⟩ = .error ⟨.nestingTooDeep, p⟩) ∨
        ∃ e', parse (unit.substitute "2*x".toList) ⟨1, 1⟩ = .ok e' ∧
          SameOutcome (unit.eval e') (unit.collapse.eval double)) :=
  ⟨rfl, by decide, parse_double, parse_substitute rfl (by decide) parse_double ⟨1, 1⟩⟩

end Example
end Expr
end Abacus
