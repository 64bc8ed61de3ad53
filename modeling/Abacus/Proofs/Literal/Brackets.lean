/-
# Matching brackets

The bracket that closes another one is found by counting how deep the brackets between the two are nested.
Over bytes, the count is a machine number: it must never be taken below zero.  `matchingIndex` has that
check in it, and has no outcome where the check fails.

It never fails, because the count starts with the opening bracket itself and the search ends when it is
back at zero.  While the search goes on, the count is the number of opening brackets minus the number of
closing ones so far.  So the search ends at the first place where both numbers are the same, and that is
what it finds, if there is such a place.

Main statements:

* `matchingFrom_spec`: the loop, at any depth above zero;
* `matchingIndex_spec`: the first place where as many brackets are closed as opened;
* `matchingIndex_eq`: the bytes and the characters give the same place.
-/
import Mathlib.Order.Bounds.Basic
import Abacus.Proofs.Text.Boundaries

namespace Abacus
namespace Literal

open Text (byteAt? byteLength bytes IsAscii)

/-! ## 1. The search over bytes -/

/-- The opening and the closing byte of the kind of bracket that a byte opens. -/
def bracketKind? (byte : UInt8) : Option (UInt8 × UInt8) :=
  if byte = '('.toUInt8 then some ('('.toUInt8, ')'.toUInt8)
  else if byte = '['.toUInt8 then some ('['.toUInt8, ']'.toUInt8)
  else none

/-- The search from an index on, in brackets of a depth: the index of the bracket that closes them all, if
there is one.  There is no outcome if the depth would go below zero. -/
def matchingFrom (opener closer : UInt8) : Nat → Nat → List UInt8 → Option (Option Nat)
  | _, _, [] => some none
  | depth, index, byte :: bytes =>
    if byte = opener then matchingFrom opener closer (depth + 1) (index + 1) bytes
    else if byte = closer then
      match depth with
      | 0 => none
      | depth + 1 =>
        if depth = 0 then some (some index) else matchingFrom opener closer depth (index + 1) bytes
    else matchingFrom opener closer depth (index + 1) bytes

/-- The index of the bracket that closes the one at `start`, if a bracket opens there and is closed. -/
def matchingIndex (text : Text) (start : Nat) : Option (Option Nat) :=
  match (byteAt? text start).bind bracketKind? with
  | some (opener, closer) => matchingFrom opener closer 0 start ((bytes text).drop start)
  | none => some none

/-! ## 2. What is found -/

/-- Up to this byte, and with some brackets open before, as many brackets are closed as opened. -/
def Closes (opener closer : UInt8) (depth : Nat) (bytes : List UInt8) (n : Nat) : Prop :=
  n < bytes.length ∧ depth + (bytes.take (n + 1)).count opener = (bytes.take (n + 1)).count closer

section Closes

variable {opener closer byte : UInt8} {depth n : Nat} {bytes : List UInt8}

theorem closes_opener (hne : opener ≠ closer) :
    Closes opener closer depth (opener :: bytes) (n + 1)
      ↔ Closes opener closer (depth + 1) bytes n := by
  simp [Closes, hne, Nat.add_assoc, Nat.add_comm 1]

theorem closes_closer (hne : opener ≠ closer) :
    Closes opener closer (depth + 1) (closer :: bytes) (n + 1)
      ↔ Closes opener closer depth bytes n := by
  have hne' : closer ≠ opener := hne.symm
  simp [Closes, hne']
  omega

theorem closes_other (hopener : byte ≠ opener) (hcloser : byte ≠ closer) :
    Closes opener closer depth (byte :: bytes) (n + 1) ↔ Closes opener closer depth bytes n := by
  simp [Closes, hopener, hcloser]

/-- Only the closing bracket of a single open one closes at once. -/
theorem closes_zero (hne : opener ≠ closer) (hdepth : 0 < depth) :
    Closes opener closer depth (byte :: bytes) 0 ↔ byte = closer ∧ depth = 1 := by
  by_cases hcloser : byte = closer
  · subst hcloser
    simp [Closes, hne.symm]
  · by_cases hopener : byte = opener
    · simp [Closes, hopener, hne]
    · simp [Closes, hopener, hcloser]
      omega

/-- One step of the search that does not end it: the depth stays above zero. -/
theorem matchingFrom_step (hne : opener ≠ closer) (hdepth : 0 < depth)
    (hgoesOn : ¬ (byte = closer ∧ depth = 1)) :
    ∃ depth', 0 < depth' ∧
      (∀ index, matchingFrom opener closer depth index (byte :: bytes)
        = matchingFrom opener closer depth' (index + 1) bytes) ∧
      ∀ n, Closes opener closer depth (byte :: bytes) (n + 1) ↔ Closes opener closer depth' bytes n := by
  by_cases hopener : byte = opener
  · subst hopener
    exact ⟨depth + 1, Nat.succ_pos depth, fun index => if_pos rfl, fun n => closes_opener hne⟩
  · by_cases hcloser : byte = closer
    · subst hcloser
      obtain ⟨inner, rfl⟩ := Nat.exists_eq_add_one.mpr hdepth
      have hinner : inner ≠ 0 := by simpa using hgoesOn
      refine ⟨inner, Nat.pos_of_ne_zero hinner, fun index => ?_, fun n => closes_closer hne⟩
      simp [matchingFrom, hopener, hinner]
    · refine ⟨depth, hdepth, fun index => ?_, fun n => closes_other hopener hcloser⟩
      simp [matchingFrom, hopener, hcloser]

/-- **The search at a depth above zero** has an outcome, and it is the first place where all brackets are
closed. -/
theorem matchingFrom_spec (hne : opener ≠ closer) (hdepth : 0 < depth) (index : Nat)
    (bytes : List UInt8) :
    ∃ result, matchingFrom opener closer depth index bytes = some result ∧
      ∀ i, result = some i
        ↔ IsLeast {i | ∃ n, i = index + n ∧ Closes opener closer depth bytes n} i := by
  induction bytes generalizing depth index with
  | nil =>
    refine ⟨none, rfl, fun i => ⟨by simp, ?_⟩⟩
    rintro ⟨⟨n, -, hn⟩, -⟩
    exact absurd hn.1 (Nat.not_lt_zero n)
  | cons byte bytes ih =>
    by_cases hlast : byte = closer ∧ depth = 1
    · have hfirst : IsLeast {i | ∃ n, i = index + n ∧
          Closes opener closer depth (byte :: bytes) n} index := by
        refine ⟨⟨0, rfl, (closes_zero hne hdepth).mpr hlast⟩, ?_⟩
        rintro _ ⟨n, rfl, -⟩
        exact Nat.le_add_right index n
      obtain ⟨rfl, rfl⟩ := hlast
      refine ⟨some index, by simp [matchingFrom, hne.symm], fun i => ?_⟩
      constructor
      · rintro ⟨⟩
        exact hfirst
      · intro hi
        rw [hi.unique hfirst]
    · have hzero : ¬ Closes opener closer depth (byte :: bytes) 0 :=
        mt (closes_zero hne hdepth).mp hlast
      obtain ⟨depth', hdepth', hstep, hcloses⟩ := matchingFrom_step hne hdepth hlast
      obtain ⟨result, hresult, hspec⟩ := ih hdepth' (index + 1)
      have hsame : ∀ i, (∃ n, i = index + n ∧ Closes opener closer depth (byte :: bytes) n)
          ↔ ∃ n, i = index + 1 + n ∧ Closes opener closer depth' bytes n := by
        intro i
        constructor
        · rintro ⟨n, rfl, hn⟩
          cases n with
          | zero => exact absurd hn hzero
          | succ n => exact ⟨n, by omega, (hcloses n).mp hn⟩
        · rintro ⟨n, rfl, hn⟩
          exact ⟨n + 1, by omega, (hcloses n).mpr hn⟩
      refine ⟨result, by rw [hstep, hresult], fun i => ?_⟩
      rw [hspec]
      simp only [hsame]

end Closes

/-! ## 3. The whole search -/

/-- Behind a bracket at `start`, `stop` is a place up to which as many brackets of its kind are closed as
opened, counted from the bracket itself. -/
def ClosesAt (text : Text) (start stop : Nat) : Prop :=
  start < stop ∧ stop < byteLength text ∧
    ∃ opener closer, (byteAt? text start).bind bracketKind? = some (opener, closer) ∧
      (((bytes text).drop start).take (stop + 1 - start)).count opener
        = (((bytes text).drop start).take (stop + 1 - start)).count closer

theorem of_bracketKind? {byte opener closer : UInt8} (h : bracketKind? byte = some (opener, closer)) :
    byte = opener ∧ opener ≠ closer := by
  unfold bracketKind? at h
  split at h
  · next hbyte =>
    cases h
    exact ⟨hbyte, by decide⟩
  · split at h
    · next hbyte =>
      cases h
      exact ⟨hbyte, by decide⟩
    · cases h

/-- Behind a bracket, the brackets to be closed are that one and those in it. -/
theorem closesAt_iff {text : Text} {start : Nat} {opener closer : UInt8}
    (hkind : (byteAt? text start).bind bracketKind? = some (opener, closer)) {tail : List UInt8}
    (htail : (bytes text).drop start = opener :: tail) (hne : opener ≠ closer) (stop : Nat) :
    ClosesAt text start stop ↔ ∃ n, stop = start + 1 + n ∧ Closes opener closer 1 tail n := by
  have hlength := congrArg List.length htail
  rw [List.length_drop, Text.length_bytes, List.length_cons] at hlength
  have hpiece : ∀ n, start + 1 + n + 1 - start = n + 1 + 1 := fun n => by omega
  constructor
  · rintro ⟨hbehind, hinside, opener', closer', hkind', hcount⟩
    obtain ⟨rfl, rfl⟩ := Prod.mk.inj (Option.some.inj (hkind.symm.trans hkind'))
    obtain ⟨n, rfl⟩ := Nat.exists_eq_add_of_le hbehind
    refine ⟨n, rfl, (closes_opener hne).mp ⟨?_, ?_⟩⟩
    · rw [List.length_cons]
      omega
    · rw [hpiece, htail] at hcount
      rw [Nat.zero_add, hcount]
  · rintro ⟨n, rfl, hn⟩
    obtain ⟨hlt, hcount⟩ := (closes_opener hne).mpr hn
    rw [List.length_cons] at hlt
    refine ⟨by omega, by omega, opener, closer, hkind, ?_⟩
    rw [hpiece, htail, ← hcount, Nat.zero_add]

/-- **The bracket that closes another one**: the first place behind it up to which as many brackets of
its kind are closed as opened. -/
theorem matchingIndex_spec (text : Text) (start : Nat) :
    ∃ result, matchingIndex text start = some result ∧
      ∀ stop, result = some stop ↔ IsLeast {stop | ClosesAt text start stop} stop := by
  unfold matchingIndex
  cases hkind : (byteAt? text start).bind bracketKind? with
  | none =>
    refine ⟨none, rfl, fun stop => ⟨by simp, ?_⟩⟩
    rintro ⟨⟨-, -, opener, closer, h, -⟩, -⟩
    rw [hkind] at h
    cases h
  | some kind =>
    obtain ⟨opener, closer⟩ := kind
    obtain ⟨byte, hbyte, hopener⟩ := Option.bind_eq_some_iff.mp hkind
    obtain ⟨rfl, hne⟩ := of_bracketKind? hopener
    have htail : (bytes text).drop start = byte :: (bytes text).drop (start + 1) := by
      obtain ⟨hlt, hget⟩ := List.getElem?_eq_some_iff.mp hbyte
      rw [← hget, List.drop_eq_getElem_cons hlt]
    obtain ⟨result, hresult, hspec⟩ :=
      matchingFrom_spec hne Nat.one_pos (start + 1) ((bytes text).drop (start + 1))
    refine ⟨result, ?_, fun stop => ?_⟩
    · rw [htail]
      exact (if_pos rfl).trans hresult
    · rw [hspec]
      simp only [closesAt_iff hkind htail hne]

/-! ## 4. The search over characters -/

/-- Bytes of other kinds are passed over. -/
theorem matchingFrom_append {opener closer : UInt8} {front : List UInt8}
    (h : ∀ byte ∈ front, byte ≠ opener ∧ byte ≠ closer) (depth index : Nat) (bytes : List UInt8) :
    matchingFrom opener closer depth index (front ++ bytes)
      = matchingFrom opener closer depth (index + front.length) bytes := by
  induction front generalizing index with
  | nil => rfl
  | cons byte front ih =>
    obtain ⟨hbyte, hmore⟩ := List.forall_mem_cons.mp h
    simp only [List.cons_append, matchingFrom, if_neg hbyte.1, if_neg hbyte.2, ih hmore,
      List.length_cons]
    rw [Nat.add_assoc, Nat.add_comm 1]

theorem matchingFrom_bytes {opener closer : Char} (hopener : IsAscii opener) (hcloser : IsAscii closer)
    (hne : opener ≠ closer) {depth : Nat} (hdepth : 0 < depth) (offset : Nat) (rest : Text) :
    matchingFrom opener.toUInt8 closer.toUInt8 depth offset (bytes rest)
      = some ((closerFrom opener closer depth offset rest).map Cursor.offset) := by
  induction rest generalizing depth offset with
  | nil => rfl
  | cons c rest ih =>
    have hother : ∀ bracket : Char, IsAscii bracket → c ≠ bracket →
        ∀ byte ∈ String.utf8EncodeChar c, byte ≠ bracket.toUInt8 :=
      fun bracket hbracket hne byte hmem heq =>
        hne (Text.eq_of_mem_utf8EncodeChar hbracket (heq ▸ hmem))
    have hbytes : bytes (c :: rest) = String.utf8EncodeChar c ++ bytes rest := by simp [bytes]
    have hsingle : ∀ bracket : Char, IsAscii bracket →
        String.utf8EncodeChar bracket = [bracket.toUInt8] :=
      fun bracket h => String.utf8EncodeChar_eq_singleton h.utf8Size_eq
    rw [hbytes]
    by_cases hc : c = opener
    · subst hc
      simp [hsingle c hopener, closerFrom, matchingFrom, hopener.utf8Size_eq, ih (Nat.succ_pos depth)]
    · by_cases hc' : c = closer
      · subst hc'
        have hbyte : c.toUInt8 ≠ opener.toUInt8 := hother opener hopener hc _ (by simp [hsingle c hcloser])
        obtain ⟨inner, rfl⟩ := Nat.exists_eq_add_one.mpr hdepth
        cases inner with
        | zero => simp [hsingle c hcloser, closerFrom, matchingFrom, hc, hbyte]
        | succ inner =>
          simp [hsingle c hcloser, closerFrom, matchingFrom, hc, hbyte, hcloser.utf8Size_eq,
            ih (Nat.succ_pos inner)]
      · rw [matchingFrom_append fun byte hmem => ⟨hother opener hopener hc byte hmem,
          hother closer hcloser hc' byte hmem⟩]
        simp [closerFrom, hc, hc', ih hdepth]

/-- The search starts with the opening bracket itself. -/
theorem matchingFrom_opener {opener closer : Char} (hopener : IsAscii opener)
    (hcloser : IsAscii closer) (hne : opener ≠ closer) (offset : Nat) (rest : Text) :
    matchingFrom opener.toUInt8 closer.toUInt8 0 offset (bytes (opener :: rest))
      = some ((closerFrom opener closer 0 offset (opener :: rest)).map Cursor.offset) := by
  have hsingle := String.utf8EncodeChar_eq_singleton hopener.utf8Size_eq
  have hbytes : bytes (opener :: rest) = opener.toUInt8 :: bytes rest := by
    simp [bytes, hsingle]
  have hmore := matchingFrom_bytes hopener hcloser hne Nat.one_pos (offset + 1) rest
  rw [hbytes, matchingFrom, if_pos rfl, closerFrom, if_pos rfl, hopener.utf8Size_eq]
  exact hmore

/-- **Bytes and characters** have the same closing bracket. -/
theorem matchingIndex_eq {text : Text} {c : Cursor} (hc : c.On text) :
    matchingIndex text c.offset = some ((closer? c).map Cursor.offset) := by
  obtain ⟨offset, rest⟩ := c
  cases rest with
  | nil =>
    have hnone : byteAt? text offset = none := hc.byteAt?_eq
    rw [matchingIndex, hnone]
    rfl
  | cons x rest =>
    have hbyte : byteAt? text offset = some (Text.leadByte x) := hc.byteAt?_eq
    have hround : Text.leadByte x = '('.toUInt8 ↔ x = '(' := Text.leadByte_eq_iff (by decide)
    have hsquare : Text.leadByte x = '['.toUInt8 ↔ x = '[' := Text.leadByte_eq_iff (by decide)
    rw [matchingIndex, hbyte, Option.bind_some, bracketKind?, hc.drop_bytes, closer?]
    dsimp only [Cursor.peek?, List.head?_cons]
    by_cases hx : x = '('
    · subst hx
      rw [if_pos (hround.mpr rfl)]
      exact matchingFrom_opener (by decide) (by decide) (by decide) offset rest
    · rw [if_neg (mt hround.mp hx)]
      by_cases hx' : x = '['
      · subst hx'
        rw [if_pos (hsquare.mpr rfl)]
        exact matchingFrom_opener (by decide) (by decide) (by decide) offset rest
      · rw [if_neg (mt hsquare.mp hx')]
        dsimp only
        split
        · next heq => exact absurd (Option.some.inj heq) hx
        · next heq => exact absurd (Option.some.inj heq) hx'
        · rfl

end Literal
end Abacus
