/-
# One substitution pass is enough

Substituting once more changes nothing, if all values are finite.  What stands in the way is that the
second pass reads another text than the first one.  A value that was written in front of a point
grows into a longer run, parentheses appear, and what stands behind a name decides whether the name
is called.

Two facts settle this for every place of the text.  A text without letters is copied whatever it runs
into, unless it runs into a letter (`substitute_append`); values are written without letters, and what
follows a name starts with none.  And behind a name that was called, the blanks and the parenthesis
are still there after the first pass (`head?_dropWhile_substitute`), so it is called again.

A word stands free in a text if no run goes on into it and it is not called (`StandsFree`).  A text is
left as it is exactly if no bound name stands free in it.  So no bound name does after the first pass,
and a text that bound names do not occur in at all is not changed.

Main statements:

* `substitute_substitute`: the second pass changes nothing;
* `substitute_eq_self_iff`: what is left as it is;
* `substitute_settles`: both for one text.
-/
import Abacus.Proofs.Environment.Inlining
import Abacus.Proofs.Token.Spacing
import Abacus.Proofs.Value.Characters

namespace Abacus

/-- The word occurs in the text: it starts with a letter, and neither in front of it nor behind it does
the text go on with a character of a word. -/
def Text.OccursIn (word text : Text) : Prop :=
  ∃ before after, text = before ++ (word ++ after) ∧ Text.isIdentifier word = true ∧
    (∀ c ∈ before.getLast?, Text.isWordChar c = false) ∧ ∀ c ∈ after.head?, Text.isWordChar c = false

namespace Environment

variable {env : Environment}

/-! ## 1. What is copied -/

/-- A character inside a run that is no letter starts a run. -/
theorem startsRun_of_isRunChar {c : Char} (h : isRunChar c = true) (halpha : c.isAlpha = false) :
    startsRun c = true := by
  simp only [isRunChar, Char.isAlphanum, halpha, Bool.false_or] at h
  exact h

/-- A character that starts neither a run nor a word is in no run. -/
theorem isRunChar_of_other {c : Char} (hrun : ¬ startsRun c = true) (halpha : ¬ c.isAlpha = true) :
    isRunChar c = false := by
  by_contra hyes
  exact hrun (startsRun_of_isRunChar (by simpa using hyes) (by simpa using halpha))

/-- A run in front of a text that no letter starts goes on into the text as it did. -/
theorem substitute_cons (env : Environment) {c : Char} (hc : c.isAlpha = false) {rest : Text}
    (hrest : ∀ d ∈ rest.head?, d.isAlpha = false) :
    env.substitute (c :: rest) = c :: env.substitute rest := by
  cases hrun : isRunChar c with
  | false => exact substitute_other env hrun rest
  | true =>
    rw [substitute_run env (startsRun_of_isRunChar hrun hc), List.takeWhile_cons_of_pos hrun,
      List.dropWhile_cons_of_pos hrun, List.cons_append]
    cases rest with
    | nil => rw [List.takeWhile_nil, List.dropWhile_nil, List.nil_append]
    | cons d rest =>
      cases hd : isRunChar d with
      | true => rw [substitute_run env (startsRun_of_isRunChar hd (hrest d rfl))]
      | false =>
        have hneg : ¬ isRunChar d = true := by simp [hd]
        rw [List.takeWhile_cons_of_neg hneg, List.dropWhile_cons_of_neg hneg, List.nil_append]

/-- **A text without letters is copied** in front of a text that no letter starts. -/
theorem substitute_append (env : Environment) {text rest : Text}
    (htext : ∀ c ∈ text, c.isAlpha = false) (hrest : ∀ d ∈ rest.head?, d.isAlpha = false) :
    env.substitute (text ++ rest) = text ++ env.substitute rest := by
  induction text with
  | nil => rfl
  | cons c text ih =>
    obtain ⟨hc, hmore⟩ := List.forall_mem_cons.mp htext
    have hhead : ∀ d ∈ (text ++ rest).head?, d.isAlpha = false := by
      cases text with
      | nil => exact hrest
      | cons d text => exact fun _ hd => hmore _ (List.mem_of_mem_head? hd)
    rw [List.cons_append, substitute_cons env hc hhead, ih hmore, List.cons_append]

/-- Where no letter starts, the first character stays. -/
theorem head?_substitute_of_isAlpha (env : Environment) {cs : Text} (h : ∀ c ∈ cs.head?, c.isAlpha = false) :
    (env.substitute cs).head? = cs.head? := by
  cases cs with
  | nil => rw [substitute_nil]
  | cons c cs =>
    cases hrun : isRunChar c with
    | false => rw [substitute_other env hrun, List.head?_cons, List.head?_cons]
    | true =>
      rw [substitute_run env (startsRun_of_isRunChar hrun (h c rfl)),
        List.takeWhile_cons_of_pos hrun, List.cons_append, List.head?_cons, List.head?_cons]

/-- A parenthesis behind blanks stays behind blanks. -/
theorem head?_dropWhile_substitute {cs : Text}
    (h : (cs.dropWhile Text.isBlank).head? = some '(') :
    ((env.substitute cs).dropWhile Text.isBlank).head? = some '(' := by
  induction cs with
  | nil => cases h
  | cons c cs ih =>
    cases hblank : Text.isBlank c with
    | true =>
      rw [List.dropWhile_cons_of_pos hblank] at h
      have hrun : isRunChar c = false := by
        simp only [Text.isBlank, Bool.or_eq_true, beq_iff_eq] at hblank
        rcases hblank with rfl | rfl <;> rfl
      rw [substitute_other env hrun, List.dropWhile_cons_of_pos hblank]
      exact ih h
    | false =>
      have hneg : ¬ Text.isBlank c = true := by simp [hblank]
      rw [List.dropWhile_cons_of_neg hneg] at h
      cases h
      rw [substitute_other env rfl, List.dropWhile_cons_of_neg (by decide), List.head?_cons]

/-! ## 2. The second pass -/

/-- What ends a word starts with no letter. -/
theorem isAlpha_of_isWordChar {rest : Text} (h : ∀ d ∈ rest.head?, Text.isWordChar d = false) :
    ∀ d ∈ rest.head?, d.isAlpha = false := by
  intro d hd
  have hword := h d hd
  simp only [Text.isWordChar, Char.isAlphanum, Bool.or_eq_false_iff] at hword
  exact hword.1.1

theorem isRunChar_of_isWordChar {c : Char} (h : Text.isWordChar c = true) : isRunChar c = true := by
  by_contra hrun
  rw [isWordChar_of_isRunChar (by simpa using hrun)] at h
  cases h

theorem isFinite_of_get? (h : env.isFinite = true) {name : Text} {value : Value}
    (hget : env.get? name = some value) : value.isFinite = true :=
  List.all_eq_true.mp h _ (mem_of_find? hget)

/-- What was written for a word is copied by the second pass. -/
theorem substitute_replacement (h : env.isFinite = true) {c : Char} {more rest : Text}
    (halpha : c.isAlpha = true) (hword : ∀ d ∈ c :: more, Text.isWordChar d = true)
    (hstop : ∀ d ∈ rest.head?, Text.isWordChar d = false) :
    env.substitute (env.replacement (c :: more) rest ++ env.substitute rest)
      = env.replacement (c :: more) rest ++ env.substitute (env.substitute rest) := by
  have hstop' : ∀ d ∈ (env.substitute rest).head?, Text.isWordChar d = false := by
    rw [head?_substitute_of_isAlpha env (isAlpha_of_isWordChar hstop)]
    exact hstop
  by_cases hparen : (rest.dropWhile Text.isBlank).head? = some '('
  · rw [replacement_of_openParen env _ hparen, substitute_word env halpha hword hstop',
      replacement_of_openParen env _ (head?_dropWhile_substitute hparen)]
  · cases hget : env.get? (c :: more) with
    | none =>
      rw [replacement_of_none hget, substitute_word env halpha hword hstop',
        replacement_of_none hget]
    | some value =>
      rw [replacement_of_some hget hparen]
      exact substitute_append env (Value.isAlpha_of_mem_inPlace (isFinite_of_get? h hget))
        (isAlpha_of_isWordChar hstop')

/-- **The second pass changes nothing**, if all values are finite. -/
theorem substitute_substitute (h : env.isFinite = true) (text : Text) :
    env.substitute (env.substitute text) = env.substitute text := by
  -- The first pass takes off a run, a word or another character, and goes on with the rest.
  induction text using substitute.induct with
  | case1 => rw [substitute_nil, substitute_nil]
  | case2 c rest hrun ih =>
    have hstop := head?_dropWhile_eq_false isRunChar (c :: rest)
    have hhead := head?_substitute_of_stop env hstop
    have hall : ∀ d ∈ (c :: rest).takeWhile isRunChar, isRunChar d = true :=
      fun d hd => List.mem_takeWhile_imp hd
    rw [substitute_run env hrun]
    obtain ⟨htake, hdrop⟩ := span_append hall (hhead ▸ hstop)
    rw [List.takeWhile_cons_of_pos (isRunChar_of_startsRun hrun), List.cons_append] at htake hdrop ⊢
    rw [substitute_run env hrun, htake, hdrop, ih, List.cons_append]
  | case3 c rest hrun halpha after ih =>
    have hcons := List.takeWhile_cons_of_pos (l := rest) (Token.isWordChar_of_isAlpha halpha)
    have hword : ∀ d ∈ (c :: rest).takeWhile Text.isWordChar, Text.isWordChar d = true :=
      fun d hd => List.mem_takeWhile_imp hd
    have hstop := head?_dropWhile_eq_false Text.isWordChar (c :: rest)
    rw [substitute_name env halpha]
    rw [hcons] at hword ⊢
    rw [substitute_replacement h halpha hword hstop, ih]
  | case4 c rest hrun halpha ih =>
    have hother := isRunChar_of_other hrun halpha
    rw [substitute_other env hother, substitute_other env hother, ih]

/-! ## 3. Words that stand free -/

/-- The word starts the text, it ends there, and it is not called. -/
def StartsFree (word text : Text) : Prop :=
  ∃ after, text = word ++ after ∧ Text.isIdentifier word = true ∧
    (∀ c ∈ after.head?, Text.isWordChar c = false) ∧
    (after.dropWhile Text.isBlank).head? ≠ some '('

/-- The word stands somewhere in the text where no run goes on into it, and it is not called there. -/
def StandsFree (word text : Text) : Prop :=
  ∃ before after, text = before ++ after ∧ (∀ c ∈ before.getLast?, isRunChar c = false) ∧
    StartsFree word after

section Free

variable {word text first : Text} {c : Char}

/-- What a word starts with is a letter. -/
theorem StartsFree.isAlpha (h : StartsFree word (c :: text)) : c.isAlpha = true := by
  obtain ⟨after, hsplit, hword, -, -⟩ := h
  cases word with
  | nil => cases hword
  | cons d word =>
    cases hsplit
    exact (Bool.and_eq_true_iff.mp hword).1

/-- The word that starts a text is the longest one. -/
theorem StartsFree.eq_takeWhile (h : StartsFree word text) :
    word = text.takeWhile Text.isWordChar ∧
      ((text.dropWhile Text.isWordChar).dropWhile Text.isBlank).head? ≠ some '(' := by
  obtain ⟨after, rfl, hword, hafter, hcall⟩ := h
  obtain ⟨htake, hdrop⟩ := span_append (Text.isWordChar_of_isIdentifier hword) hafter
  rw [htake, hdrop]
  exact ⟨rfl, hcall⟩

theorem startsFree_takeWhile (halpha : c.isAlpha = true)
    (hcall : (((c :: text).dropWhile Text.isWordChar).dropWhile Text.isBlank).head? ≠ some '(') :
    StartsFree ((c :: text).takeWhile Text.isWordChar) (c :: text) :=
  ⟨_, List.takeWhile_append_dropWhile.symm, Text.isIdentifier_takeWhile halpha text,
    head?_dropWhile_eq_false Text.isWordChar (c :: text), hcall⟩

theorem StartsFree.standsFree (h : StartsFree word text) : StandsFree word text :=
  ⟨[], text, rfl, by simp, h⟩

/-- A word that stands free occurs in the text. -/
theorem StandsFree.occursIn (h : StandsFree word text) : Text.OccursIn word text := by
  obtain ⟨before, _, rfl, hbefore, after, rfl, hword, hafter, -⟩ := h
  exact ⟨before, after, rfl, hword, fun c hc => isWordChar_of_isRunChar (hbefore c hc), hafter⟩

/-- A word that stands free behind a cut stands free in the whole text, unless a run is cut. -/
theorem StandsFree.append_left (h : StandsFree word text)
    (hcut : (∀ d ∈ first.getLast?, isRunChar d = false) ∨ ∀ d ∈ text.head?, d.isAlpha = false) :
    StandsFree word (first ++ text) := by
  obtain ⟨before, after, rfl, hbefore, hstarts⟩ := h
  refine ⟨first ++ before, after, (List.append_assoc ..).symm, ?_, hstarts⟩
  cases before with
  | cons d before =>
    intro d' hd'
    rw [List.getLast?_append_cons] at hd'
    exact hbefore d' hd'
  | nil =>
    rw [List.append_nil]
    refine hcut.resolve_right fun hhead => ?_
    cases after with
    | nil =>
      obtain ⟨_, hsplit, hword, -, -⟩ := hstarts
      obtain ⟨rfl, -⟩ := List.append_eq_nil_iff.mp hsplit.symm
      cases hword
    | cons d after =>
      have hd := hstarts.isAlpha
      rw [hhead d rfl] at hd
      cases hd

/-- Behind a piece that is one run or one character, the word stands free or it starts the text. -/
theorem StandsFree.behind (h : StandsFree word (first ++ text))
    (hinner : ∀ d ∈ first.dropLast, isRunChar d = true) :
    StandsFree word text ∨ StartsFree word (first ++ text) := by
  obtain ⟨before, after, hsplit, hbefore, hstarts⟩ := h
  rcases List.append_eq_append_iff.mp hsplit with ⟨tail, rfl, rfl⟩ | ⟨tail, rfl, rfl⟩
  · refine Or.inl ⟨tail, after, rfl, ?_, hstarts⟩
    cases tail with
    | nil => simp
    | cons d tail =>
      rw [List.getLast?_append_cons] at hbefore
      exact hbefore
  · cases tail with
    | nil => exact Or.inl hstarts.standsFree
    | cons d tail =>
      rcases List.eq_nil_or_concat before with rfl | ⟨before, last, rfl⟩
      · exact Or.inr hstarts
      · have hrun := hinner last (by simp)
        rw [hbefore last (by simp)] at hrun
        cases hrun

end Free

/-- No bound name stands free in the text. -/
def Settled (env : Environment) (text : Text) : Prop :=
  ∀ name value, env.get? name = some value → ¬ StandsFree name text

/-- A text that no bound name stands free in is left as it is. -/
theorem substitute_of_settled {text : Text} (h : env.Settled text) : env.substitute text = text := by
  induction text using substitute.induct with
  | case1 => exact substitute_nil env
  | case2 c rest hrun ih =>
    have hsplit := List.takeWhile_append_dropWhile (p := isRunChar) (l := c :: rest)
    have hstop := wordEnds (head?_dropWhile_eq_false isRunChar (c :: rest))
    rw [substitute_run env hrun, ih, hsplit]
    intro name value hget hfree
    refine h name value hget ?_
    rw [← hsplit]
    exact hfree.append_left (Or.inr (isAlpha_of_isWordChar hstop))
  | case3 c rest hrun halpha after ih =>
    have hsplit := List.takeWhile_append_dropWhile (p := Text.isWordChar) (l := c :: rest)
    have hstop := head?_dropWhile_eq_false Text.isWordChar (c :: rest)
    have hcopy : env.replacement ((c :: rest).takeWhile Text.isWordChar) after
        = (c :: rest).takeWhile Text.isWordChar := by
      by_cases hparen : (after.dropWhile Text.isBlank).head? = some '('
      · exact replacement_of_openParen env _ hparen
      · refine replacement_of_none (Option.eq_none_iff_forall_ne_some.mpr fun value hget => ?_) _
        exact h _ value hget (startsFree_takeWhile halpha hparen).standsFree
    rw [substitute_name env halpha, hcopy, ih, hsplit]
    intro name value hget hfree
    refine h name value hget ?_
    rw [← hsplit]
    exact hfree.append_left (Or.inr (isAlpha_of_isWordChar hstop))
  | case4 c rest hrun halpha ih =>
    have hother := isRunChar_of_other hrun halpha
    have hcut : ∀ d ∈ [c].getLast?, isRunChar d = false := by
      rintro d ⟨⟩
      exact hother
    rw [substitute_other env hother, ih]
    exact fun name value hget hfree => h name value hget (hfree.append_left (Or.inl hcut))

/-- The written form of a finite value starts with no letter. -/
theorem inPlace_append_ne {value : Value} (hfinite : value.isFinite = true) {c : Char}
    (halpha : c.isAlpha = true) (more rest : Text) : value.inPlace ++ more ≠ c :: rest := by
  obtain ⟨d, ds, hd, -⟩ := Value.inPlace_eq_cons hfinite
  intro heq
  have hletter := Value.isAlpha_of_mem_inPlace hfinite d (by simp [hd])
  rw [hd] at heq
  cases heq
  rw [halpha] at hletter
  cases hletter

/-- Where all values are finite, a text that is left as it is has no bound name free in it. -/
theorem settled_of_substitute (h : env.isFinite = true) {text : Text}
    (hself : env.substitute text = text) : env.Settled text := by
  induction text using substitute.induct with
  | case1 =>
    rintro name value - ⟨before, _, hnil, -, after, rfl, hword, -⟩
    obtain ⟨-, hnil⟩ := List.append_eq_nil_iff.mp hnil.symm
    obtain ⟨rfl, -⟩ := List.append_eq_nil_iff.mp hnil
    cases hword
  | case2 c rest hrun ih =>
    have hsplit := List.takeWhile_append_dropWhile (p := isRunChar) (l := c :: rest)
    rw [substitute_run env hrun] at hself
    have hrest := ih (List.append_cancel_left (hself.trans hsplit.symm))
    intro name value hget hfree
    rw [← hsplit] at hfree
    rcases hfree.behind (fun d hd => List.mem_takeWhile_imp (List.dropLast_subset _ hd)) with
      hfree | hstarts
    · exact hrest name value hget hfree
    · rw [hsplit] at hstarts
      rw [startsRun_of_isAlpha hstarts.isAlpha] at hrun
      cases hrun
  | case3 c rest hrun halpha after ih =>
    have hsplit := List.takeWhile_append_dropWhile (p := Text.isWordChar) (l := c :: rest)
    rw [substitute_name env halpha] at hself
    rcases replacement_cases env ((c :: rest).takeWhile Text.isWordChar) after with
      hcopy | ⟨value, hget, hvalue⟩
    · rw [hcopy] at hself
      have hrest := ih (List.append_cancel_left (hself.trans hsplit.symm))
      have hinner : ∀ d ∈ ((c :: rest).takeWhile Text.isWordChar).dropLast, isRunChar d = true :=
        fun d hd => isRunChar_of_isWordChar (List.mem_takeWhile_imp (List.dropLast_subset _ hd))
      intro name value hget hfree
      rw [← hsplit] at hfree
      rcases hfree.behind hinner with hfree | hstarts
      · exact hrest name value hget hfree
      · rw [hsplit] at hstarts
        obtain ⟨rfl, hcall⟩ := hstarts.eq_takeWhile
        rw [replacement_of_some hget hcall] at hcopy
        rw [← hcopy] at hsplit
        exact inPlace_append_ne (isFinite_of_get? h hget) halpha _ _ hsplit
    · rw [hvalue] at hself
      exact absurd hself (inPlace_append_ne (isFinite_of_get? h hget) halpha _ _)
  | case4 c rest hrun halpha ih =>
    rw [substitute_other env (isRunChar_of_other hrun halpha), List.cons.injEq] at hself
    have hrest := ih hself.2
    intro name value hget hfree
    rcases (show StandsFree name ([c] ++ rest) from hfree).behind (by simp) with hfree | hstarts
    · exact hrest name value hget hfree
    · exact halpha hstarts.isAlpha

/-- **What is left as it is** are the texts that no bound name stands free in, if all values are
finite. -/
theorem substitute_eq_self_iff (h : env.isFinite = true) {text : Text} :
    env.substitute text = text ↔ env.Settled text :=
  ⟨settled_of_substitute h, substitute_of_settled⟩

/-- **One substitution pass is enough.**  Where every binding is finite, substituting in what was
substituted changes nothing, since no bound name stands free in it.  And a text that no bound name
occurs in is not changed at all. -/
theorem substitute_settles (h : env.isFinite = true) (text : Text) :
    env.substitute (env.substitute text) = env.substitute text ∧ env.Settled (env.substitute text) ∧
      ((∀ name value, env.get? name = some value → ¬ Text.OccursIn name text) →
        env.substitute text = text) := by
  have hagain := substitute_substitute h text
  refine ⟨hagain, (substitute_eq_self_iff h).mp hagain, fun habsent => ?_⟩
  exact substitute_of_settled fun name value hget hfree => habsent name value hget hfree.occursIn

namespace Example

/-- An environment that binds one name, to a negative number. -/
def oneNegative : Environment := ⟨[(['x'], .scalar (-.one))], false⟩

theorem get?_oneNegative {name : Text} {value : Value} (h : oneNegative.get? name = some value) :
    name = ['x'] := by
  by_contra hname
  have hnone : oneNegative.get? name = none := if_neg (Ne.symm hname)
  rw [hnone] at h
  cases h

/-- The word `x` stands free in `f (x)-x.5`, twice, and it does not occur in `x2+y`. -/
theorem substitute_settles_oneNegative :
    oneNegative.isFinite = true ∧
      oneNegative.substitute (oneNegative.substitute "f (x)-x.5".toList)
        = oneNegative.substitute "f (x)-x.5".toList ∧
      oneNegative.Settled (oneNegative.substitute "f (x)-x.5".toList) ∧
      (∀ name value, oneNegative.get? name = some value → ¬ Text.OccursIn name "x2+y".toList) ∧
      oneNegative.substitute "x2+y".toList = "x2+y".toList := by
  have hfinite : oneNegative.isFinite = true := by decide
  have habsent : ∀ name value, oneNegative.get? name = some value →
      ¬ Text.OccursIn name "x2+y".toList := by
    rintro name value hget ⟨before, after, hsplit, -, -, hafter⟩
    obtain rfl := get?_oneNegative hget
    have hsplit' : ['x', '2', '+', 'y'] = before ++ (['x'] ++ after) := hsplit
    rcases List.cons_eq_append_iff.mp hsplit' with ⟨rfl, hword⟩ | ⟨before, -, hmore⟩
    · cases hword
      cases hafter '2' rfl
    · have hmem : 'x' ∈ before ++ (['x'] ++ after) := by simp
      rw [← hmore] at hmem
      exact absurd hmem (by decide)
  obtain ⟨hagain, hsettled, -⟩ := substitute_settles hfinite "f (x)-x.5".toList
  exact ⟨hfinite, hagain, hsettled, habsent, (substitute_settles hfinite _).2.2 habsent⟩

end Example

end Environment

end Abacus
