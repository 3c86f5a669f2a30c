import ComponentCompiler.Token.Gap
import Mathlib.Data.List.TakeWhile

/-!
This module contains how far the reading of a construct depends on the text after it. A reader only
looks ahead for characters that would make its construct longer, so it reads the same construct
before any text that agrees with the old one up to its end or up to a character that is part of no
name, number or operator.
-/

namespace ComponentCompiler
namespace Token

def operatorChars : List Char :=
  ['>', '=', '.', '!', '*', '<', '&', '|', '?', '+', '-', '/', '%', '^']

theorem mem_operatorChars_of_mem_operators :
    ∀ op ∈ operators, ∀ c ∈ op.toList, c ∈ operatorChars := by
  have hall : operators.all (·.toList.all operatorChars.contains) = true := rfl
  simpa using hall

def isNeutral (c : Char) : Bool :=
  !(isNamePart c || isDigitPart c || operatorChars.contains c)

theorem isNamePart_of_isNeutral (h : isNeutral c = true) : isNamePart c = false := by
  simp only [isNeutral, Bool.not_eq_true', Bool.or_eq_false_iff] at h
  exact h.1.1

theorem isDigitPart_of_isNeutral (h : isNeutral c = true) : isDigitPart c = false := by
  simp only [isNeutral, Bool.not_eq_true', Bool.or_eq_false_iff] at h
  exact h.1.2

theorem isDigit_of_isNeutral (h : isNeutral c = true) : Text.isDigit c = false := by
  have := isDigitPart_of_isNeutral h
  simp only [isDigitPart, Bool.or_eq_false_iff] at this
  exact this.1

theorem not_mem_operatorChars_of_isNeutral (h : isNeutral c = true) : c ∉ operatorChars := by
  simp only [isNeutral, Bool.not_eq_true', Bool.or_eq_false_iff] at h
  simpa using h.2

theorem isAsciiLetter_of_isNeutral (h : isNeutral c = true) : Text.isAsciiLetter c = false := by
  have := isNamePart_of_isNeutral h
  cases hc : Text.isAsciiLetter c with
  | false => rfl
  | true => simp [isNamePart, Text.isWord, Text.isLetter, hc] at this

theorem isAsciiDigit_of_isNeutral (h : isNeutral c = true) : Text.isAsciiDigit c = false := by
  have := isDigit_of_isNeutral h
  simp only [Text.isDigit, Bool.or_eq_false_iff] at this
  exact this.1

theorem isNeutral_of_isAsciiLetter (h : Text.isAsciiLetter c = true) : isNeutral c = false := by
  cases hc : isNeutral c with
  | false => rfl
  | true => simp [isAsciiLetter_of_isNeutral hc] at h

theorem isNeutral_of_isAsciiDigit (h : Text.isAsciiDigit c = true) : isNeutral c = false := by
  cases hc : isNeutral c with
  | false => rfl
  | true => simp [isAsciiDigit_of_isNeutral hc] at h

theorem isNeutral_of_mem_operatorChars (h : c ∈ operatorChars) : isNeutral c = false := by
  cases hc : isNeutral c with
  | false => rfl
  | true => exact absurd h (not_mem_operatorChars_of_isNeutral hc)

theorem isHexPart_of_isNeutral (h : isNeutral c = true) : isHexPart c = false := by
  have hdigit := isAsciiDigit_of_isNeutral h
  have hletter := isAsciiLetter_of_isNeutral h
  have hpart := isDigitPart_of_isNeutral h
  simp only [isDigitPart, Bool.or_eq_false_iff] at hpart
  simp only [Text.isAsciiLetter, Bool.or_eq_false_iff, Bool.and_eq_false_iff,
    decide_eq_false_iff_not, Char.not_le] at hletter
  simp only [isHexPart, hdigit, hpart.2, Bool.false_or, Bool.or_false, Bool.or_eq_false_iff,
    Bool.and_eq_false_iff, decide_eq_false_iff_not, Char.not_le]
  have hf : 'f' < 'z' := by decide
  have hF : 'F' < 'Z' := by decide
  constructor
  . rcases hletter.2 with h | h
    . exact .inl h
    . exact .inr (Char.lt_trans hf h)
  . rcases hletter.1 with h | h
    . exact .inl h
    . exact .inr (Char.lt_trans hF h)

inductive Agrees : List Char → List Char → Prop
  | stop (h : ∀ c, next.head? = some c → isNeutral c = true) : Agrees rest next
  | cons (h : Agrees rest next) : Agrees (c :: rest) (c :: next)

namespace Agrees

theorem nil : Agrees rest [] := by
  apply stop
  simp

theorem of_isNeutral (h : isNeutral c = true) : Agrees rest (c :: next) := by
  apply stop
  intro d hd
  simp only [List.head?_cons, Option.some.injEq] at hd
  rwa [← hd]

theorem refl (rest : List Char) : Agrees rest rest := by
  induction rest with
  | nil => exact nil
  | cons c rest ih => exact cons ih

theorem append (used : List Char) (h : Agrees rest next) :
    Agrees (used ++ rest) (used ++ next) := by
  induction used with
  | nil => exact h
  | cons c used ih => exact cons ih

theorem of_mem {used : List Char} (hmem : c ∈ used) (hc : isNeutral c = true) (rest next) :
    Agrees (used ++ rest) (used ++ next) := by
  induction used with
  | nil => simp at hmem
  | cons d used ih =>
    rcases List.mem_cons.mp hmem with h | h
    . subst h
      exact of_isNeutral hc
    . exact cons (ih h)

theorem of_initial (h : next <+: rest) : Agrees rest next := by
  obtain ⟨more, rfl⟩ := h
  have : Agrees (next ++ more) (next ++ []) := append next nil
  simpa using this

theorem cons_inv (h : Agrees rest (c :: next)) :
    isNeutral c = true ∨ ∃ more, rest = c :: more ∧ Agrees more next := by
  cases h with
  | stop h => exact .inl (h c rfl)
  | cons h => exact .inr ⟨_, rfl, h⟩

theorem head?_any {p : Char → Bool} (hp : ∀ c, isNeutral c = true → p c = false)
    (h : Agrees rest next) (hnext : next.head?.any p = true) : rest.head?.any p = true := by
  cases h with
  | stop h =>
    cases next with
    | nil => simp at hnext
    | cons c next =>
      have := hp c (h c rfl)
      simp [this] at hnext
  | cons h => exact hnext

end Agrees

/-- A reader is local on a text if it takes characters off it that are not neutral, and takes the
same characters off every text that starts with them and goes on in a way that it can not tell
apart. -/
def LocalAt (read : List Char → List Char) (cs : List Char) : Prop :=
  ∃ used, cs = used ++ read cs ∧ (∀ c ∈ used, isNeutral c = false) ∧
    ∀ next, Agrees (read cs) next → read (used ++ next) = next

theorem isNeutral_eq_false {p : Char → Bool} (hp : ∀ c, isNeutral c = true → p c = false)
    (hc : p c = true) : isNeutral c = false := by
  cases hneutral : isNeutral c with
  | false => rfl
  | true => simp [hp c hneutral] at hc

theorem LocalAt.comp {f g : List Char → List Char} (hg : LocalAt g cs) (hf : LocalAt f (g cs)) :
    LocalAt (fun cs => f (g cs)) cs := by
  obtain ⟨first, hfirst, hsolid, hg⟩ := hg
  obtain ⟨second, hsecond, hsolid', hf⟩ := hf
  refine ⟨first ++ second, ?_, ?_, ?_⟩
  . rw [List.append_assoc]
    rw [← hsecond]
    exact hfirst
  . intro c hc
    rcases List.mem_append.mp hc with hc | hc
    . exact hsolid c hc
    . exact hsolid' c hc
  . intro next hnext
    dsimp only
    rw [List.append_assoc]
    rw [hg (second ++ next)]
    . exact hf next hnext
    . rw [hsecond]
      exact hnext.append second

theorem localAt_dropWhile {p : Char → Bool} (hp : ∀ c, isNeutral c = true → p c = false)
    (cs : List Char) : LocalAt (List.dropWhile p) cs := by
  refine ⟨cs.takeWhile p, (List.takeWhile_append_dropWhile).symm, ?_, ?_⟩
  . intro c hc
    exact isNeutral_eq_false hp (List.mem_takeWhile_imp hc)
  intro next hnext
  rw [List.dropWhile_append_of_pos]
  . cases next with
    | nil => rfl
    | cons c next =>
      have hc : p c = false := by
        cases h : p c with
        | false => rfl
        | true =>
          have := hnext.head?_any hp (by simpa using h)
          have hhead := List.head?_dropWhile_not p cs
          cases hd : (cs.dropWhile p).head? with
          | none => simp [hd] at this
          | some d => simp_all
      rw [List.dropWhile_cons_of_neg]
      simp [hc]
  . intro c hc
    exact List.mem_takeWhile_imp hc

theorem localAt_nameRest (cs : List Char) : LocalAt nameRest cs := by
  apply localAt_dropWhile
  intro c hc
  exact isNamePart_of_isNeutral hc

theorem localAt_dropFlag (hflag : isNeutral flag = false) (cs : List Char) :
    LocalAt (dropFlag flag) cs := by
  cases cs with
  | nil =>
    refine ⟨[], rfl, by simp, ?_⟩
    intro next hnext
    cases next with
    | nil => rfl
    | cons c next =>
      rcases hnext.cons_inv with h | ⟨_, h, _⟩
      . have : c ≠ flag := by
          rintro rfl
          simp [h] at hflag
        simp [dropFlag, this]
      . simp [dropFlag] at h
  | cons c cs =>
    by_cases hc : c = flag
    . refine ⟨[c], by simp [dropFlag, hc], by simpa [hc] using hflag, ?_⟩
      intro next _
      simp [dropFlag, hc]
    . have hrest : dropFlag flag (c :: cs) = c :: cs := by simp [dropFlag, hc]
      refine ⟨[], by simp [hrest], by simp, ?_⟩
      rw [hrest]
      intro next hnext
      cases next with
      | nil => rfl
      | cons d next =>
        have : d ≠ flag := by
          rintro rfl
          rcases hnext.cons_inv with h | ⟨_, h, _⟩
          . simp [h] at hflag
          . simp only [List.cons.injEq] at h
            exact hc h.1
        simp [dropFlag, this]

def isExponentMark (c : Char) : Bool :=
  c == 'e' || c == 'E'

def isSign (c : Char) : Bool :=
  c == '+' || c == '-'

theorem isSign_of_isNeutral (h : isNeutral c = true) : isSign c = false := by
  have := not_mem_operatorChars_of_isNeutral h
  simp only [operatorChars, List.mem_cons, List.not_mem_nil, or_false, not_or] at this
  simp [isSign, this]

theorem isExponentMark_of_isNeutral (h : isNeutral c = true) : isExponentMark c = false := by
  have := isAsciiLetter_of_isNeutral h
  cases hc : isExponentMark c with
  | false => rfl
  | true =>
    simp only [isExponentMark, Bool.or_eq_true, beq_iff_eq] at hc
    rcases hc with rfl | rfl <;> simp [Text.isAsciiLetter] at this

def startsExponent : List Char → Bool
  | e :: d :: cs =>
    isExponentMark e && (Text.isDigit d || (isSign d && cs.head?.any Text.isDigit))
  | _ => false

theorem startsExponent_of_agrees (h : Agrees rest next) (hnext : startsExponent next = true) :
    startsExponent rest = true := by
  match next with
  | e :: d :: next =>
    simp only [startsExponent, Bool.and_eq_true, Bool.or_eq_true] at hnext
    obtain ⟨he, hd⟩ := hnext
    rcases h.cons_inv with hneutral | ⟨rest, rfl, hmore⟩
    . simp [isExponentMark_of_isNeutral hneutral] at he
    rcases hmore.cons_inv with hneutral | ⟨rest, rfl, htail⟩
    . simp [isDigit_of_isNeutral hneutral, isSign_of_isNeutral hneutral] at hd
    simp only [startsExponent, he, Bool.true_and, Bool.or_eq_true, Bool.and_eq_true]
    rcases hd with hd | ⟨hsign, hd⟩
    . exact .inl hd
    . refine .inr ⟨hsign, htail.head?_any ?_ hd⟩
      intro c hc
      exact isDigit_of_isNeutral hc

theorem exponentRest_of_not_startsExponent (h : startsExponent cs = false) :
    exponentRest cs = cs := by
  match cs with
  | [] => rfl
  | [e] => simp [exponentRest]
  | e :: d :: more =>
    cases he : isExponentMark e with
    | false => simp_all [exponentRest, isExponentMark]
    | true =>
      have he' : e = 'e' ∨ e = 'E' := by simpa [isExponentMark] using he
      simp only [startsExponent, he, Bool.true_and, Bool.or_eq_false_iff] at h
      cases hd : isSign d with
      | false => simp_all [exponentRest, isSign]
      | true =>
        have hd' : d = '+' ∨ d = '-' := by simpa [isSign] using hd
        cases more with
        | nil => simp [exponentRest, hd']
        | cons d more => simp_all [exponentRest]

theorem exponentRest_cons_digit (he : isExponentMark e = true) (hd : Text.isDigit d = true) :
    exponentRest (e :: d :: cs) = cs.dropWhile Text.isDigit := by
  have hplus : Text.isDigit '+' = false := by decide
  have hminus : Text.isDigit '-' = false := by decide
  have he' : e = 'e' ∨ e = 'E' := by simpa [isExponentMark] using he
  have hd' : ¬(d = '+' ∨ d = '-') := by
    rintro (rfl | rfl) <;> simp_all
  simp [exponentRest, he', hd', hd]

theorem exponentRest_cons_sign (he : isExponentMark e = true) (hs : isSign s = true)
    (hd : Text.isDigit d = true) :
    exponentRest (e :: s :: d :: cs) = cs.dropWhile Text.isDigit := by
  have he' : e = 'e' ∨ e = 'E' := by simpa [isExponentMark] using he
  have hs' : s = '+' ∨ s = '-' := by simpa [isSign] using hs
  simp [exponentRest, he', hs', hd]

theorem localAt_exponentRest (cs : List Char) : LocalAt exponentRest cs := by
  cases h : startsExponent cs with
  | false =>
    refine ⟨[], by simp [exponentRest_of_not_startsExponent h], by simp, ?_⟩
    rw [exponentRest_of_not_startsExponent h]
    intro next hnext
    rw [List.nil_append]
    apply exponentRest_of_not_startsExponent
    cases hs : startsExponent next with
    | false => rfl
    | true => simp [startsExponent_of_agrees hnext hs] at h
  | true =>
    match cs with
    | e :: d :: cs =>
      simp only [startsExponent, Bool.and_eq_true, Bool.or_eq_true] at h
      obtain ⟨he, hd | ⟨hsign, hd⟩⟩ := h
      . obtain ⟨used, hcs, hsolid, hread⟩ := localAt_dropWhile (fun _ => isDigit_of_isNeutral) cs
        refine ⟨e :: d :: used, ?_, ?_, ?_⟩
        . rw [exponentRest_cons_digit he hd]
          simpa using hcs
        . simp only [List.mem_cons, forall_eq_or_imp]
          exact ⟨isNeutral_eq_false (fun _ => isExponentMark_of_isNeutral) he,
            isNeutral_eq_false (fun _ => isDigit_of_isNeutral) hd, hsolid⟩
        . intro next hnext
          rw [exponentRest_cons_digit he hd] at hnext
          rw [List.cons_append, List.cons_append]
          rw [exponentRest_cons_digit he hd]
          exact hread next hnext
      . match cs with
        | digit :: cs =>
          have hdigit : Text.isDigit digit = true := by simpa using hd
          obtain ⟨used, hcs, hsolid, hread⟩ := localAt_dropWhile (fun _ => isDigit_of_isNeutral) cs
          refine ⟨e :: d :: digit :: used, ?_, ?_, ?_⟩
          . rw [exponentRest_cons_sign he hsign hdigit]
            simpa using hcs
          . simp only [List.mem_cons, forall_eq_or_imp]
            exact ⟨isNeutral_eq_false (fun _ => isExponentMark_of_isNeutral) he,
              isNeutral_eq_false (fun _ => isSign_of_isNeutral) hsign,
              isNeutral_eq_false (fun _ => isDigit_of_isNeutral) hdigit, hsolid⟩
          . intro next hnext
            rw [exponentRest_cons_sign he hsign hdigit] at hnext
            rw [List.cons_append, List.cons_append, List.cons_append]
            rw [exponentRest_cons_sign he hsign hdigit]
            exact hread next hnext

theorem localAt_decimalRest (cs : List Char) : LocalAt decimalRest cs := by
  have hdigits (cs : List Char) : LocalAt (List.dropWhile isDigitPart) cs := by
    apply localAt_dropWhile
    intro c hc
    exact isDigitPart_of_isNeutral hc
  have hpoint : isNeutral '.' = false := isNeutral_of_mem_operatorChars (by decide)
  have hflag : isNeutral 'n' = false := isNeutral_of_isAsciiLetter rfl
  apply LocalAt.comp (g := fun cs =>
    exponentRest ((dropFlag '.' (cs.dropWhile isDigitPart)).dropWhile isDigitPart))
  . apply LocalAt.comp
      (g := fun cs => (dropFlag '.' (cs.dropWhile isDigitPart)).dropWhile isDigitPart)
    . apply LocalAt.comp (g := fun cs => dropFlag '.' (cs.dropWhile isDigitPart))
      . apply LocalAt.comp (g := List.dropWhile isDigitPart)
        . apply hdigits
        . exact localAt_dropFlag hpoint _
      . apply hdigits
    . apply localAt_exponentRest
  . exact localAt_dropFlag hflag _

def startsBased : List Char → Bool
  | zero :: base :: d :: _ =>
    zero == '0' && ['x', 'X', 'b', 'B', 'o', 'O'].contains base && isHexPart d
  | _ => false

theorem numberRest_of_startsBased (h : startsBased (zero :: base :: d :: more) = true)
    (cs : List Char) :
    numberRest (zero :: base :: d :: cs) = dropFlag 'n' (cs.dropWhile isHexPart) := by
  simp only [startsBased, Bool.and_eq_true, beq_iff_eq] at h
  obtain ⟨⟨rfl, hbase⟩, hd⟩ := h
  simp only [numberRest, hbase, hd, Bool.and_self, if_true]

theorem numberRest_of_not_startsBased (h : startsBased cs = false) :
    numberRest cs = decimalRest cs := by
  unfold numberRest
  split
  . next base d more =>
    have hbased : (['x', 'X', 'b', 'B', 'o', 'O'].contains base && isHexPart d) = false := by
      simpa [startsBased] using h
    rw [hbased]
    rfl
  . rfl

theorem isNeutral_zero : isNeutral '0' = false := by
  apply isNeutral_of_isAsciiDigit
  decide

theorem isNeutral_base : ∀ c ∈ ['x', 'X', 'b', 'B', 'o', 'O'], isNeutral c = false := by
  have hall : ['x', 'X', 'b', 'B', 'o', 'O'].all Text.isAsciiLetter = true := rfl
  intro c hc
  exact isNeutral_of_isAsciiLetter (List.all_eq_true.mp hall c hc)

theorem startsBased_of_agrees (h : Agrees rest next) (hnext : startsBased next = true) :
    startsBased rest = true := by
  match next with
  | zero :: base :: d :: next =>
    simp only [startsBased, Bool.and_eq_true, beq_iff_eq, List.contains_iff_mem] at hnext
    obtain ⟨⟨rfl, hbase⟩, hd⟩ := hnext
    rcases h.cons_inv with hneutral | ⟨rest, rfl, hmore⟩
    . simp [isNeutral_zero] at hneutral
    rcases hmore.cons_inv with hneutral | ⟨rest, rfl, htail⟩
    . simp [isNeutral_base base hbase] at hneutral
    rcases htail.cons_inv with hneutral | ⟨rest, rfl, _⟩
    . simp [isHexPart_of_isNeutral hneutral] at hd
    simp only [startsBased, hd, List.contains_iff_mem.mpr hbase, beq_self_eq_true, Bool.and_self]

theorem localAt_numberRest (cs : List Char) : LocalAt numberRest cs := by
  cases h : startsBased cs with
  | false =>
    obtain ⟨used, hcs, hsolid, hread⟩ := localAt_decimalRest cs
    rw [← numberRest_of_not_startsBased h] at hcs hread
    refine ⟨used, hcs, hsolid, ?_⟩
    intro next hnext
    rw [numberRest_of_not_startsBased]
    . exact hread next hnext
    . cases hs : startsBased (used ++ next) with
      | false => rfl
      | true =>
        have := startsBased_of_agrees (hnext.append used) hs
        rw [← hcs] at this
        simp [this] at h
  | true =>
    match cs with
    | zero :: base :: d :: cs =>
      have hflag : isNeutral 'n' = false := isNeutral_of_isAsciiLetter rfl
      have hlocal : LocalAt (fun cs => dropFlag 'n' (cs.dropWhile isHexPart)) cs := by
        apply LocalAt.comp (g := List.dropWhile isHexPart)
        . apply localAt_dropWhile
          intro c hc
          exact isHexPart_of_isNeutral hc
        . exact localAt_dropFlag hflag _
      obtain ⟨used, hcs, hsolid, hread⟩ := hlocal
      refine ⟨zero :: base :: d :: used, ?_, ?_, ?_⟩
      . rw [numberRest_of_startsBased h]
        simpa using hcs
      . have hfirst := h
        simp only [startsBased, Bool.and_eq_true, beq_iff_eq, List.contains_iff_mem] at hfirst
        simp only [List.mem_cons, forall_eq_or_imp]
        exact ⟨hfirst.1.1 ▸ isNeutral_zero, isNeutral_base base hfirst.1.2,
          isNeutral_eq_false (fun _ => isHexPart_of_isNeutral) hfirst.2, hsolid⟩
      . intro next hnext
        rw [numberRest_of_startsBased h] at hnext
        rw [List.cons_append, List.cons_append, List.cons_append]
        rw [numberRest_of_startsBased h]
        exact hread next hnext

theorem LocalAt.length_le {read : List Char → List Char} (h : LocalAt read cs) :
    (read cs).length ≤ cs.length := by
  obtain ⟨used, hcs, _⟩ := h
  have := congrArg List.length hcs
  simp only [List.length_append] at this
  omega

theorem decimalRest_cons_digit (hc : Text.isAsciiDigit c = true) :
    decimalRest (c :: cs) = decimalRest cs := by
  have : isDigitPart c = true := by simp [isDigitPart, Text.isDigit, hc]
  simp only [decimalRest, List.dropWhile_cons_of_pos this]

theorem length_decimalRest_point_le (hd : Text.isAsciiDigit d = true) :
    (decimalRest ('.' :: d :: cs)).length ≤ cs.length := by
  have hpoint : isDigitPart '.' = false := by decide
  have hflag : isNeutral 'n' = false := isNeutral_of_isAsciiLetter rfl
  have hpart : isDigitPart d = true := by simp [isDigitPart, Text.isDigit, hd]
  have hrest : decimalRest ('.' :: d :: cs) =
      dropFlag 'n' (exponentRest (cs.dropWhile isDigitPart)) := by
    simp [decimalRest, dropFlag, hpoint, hpart]
  rw [hrest]
  have := (localAt_dropFlag hflag (exponentRest (cs.dropWhile isDigitPart))).length_le
  have := (localAt_exponentRest (cs.dropWhile isDigitPart)).length_le
  have := (List.dropWhile_sublist (l := cs) isDigitPart).length_le
  omega

def startsNumber (c : Char) (cs : List Char) : Bool :=
  Text.isAsciiDigit c || (c == '.' && cs.head?.any Text.isAsciiDigit)

theorem startsNumber_cases (h : startsNumber c cs = true) :
    Text.isAsciiDigit c = true ∨ c = '.' ∧ ∃ d more, cs = d :: more ∧
      Text.isAsciiDigit d = true := by
  simp only [startsNumber, Bool.or_eq_true, Bool.and_eq_true, beq_iff_eq] at h
  rcases h with h | ⟨h, hd⟩
  . exact .inl h
  . cases cs with
    | nil => simp at hd
    | cons d more => exact .inr ⟨h, d, more, rfl, by simpa using hd⟩

theorem startsNumber_of_agrees (h : Agrees rest next) (hrest : startsNumber c rest = false) :
    startsNumber c next = false := by
  cases hnext : startsNumber c next with
  | false => rfl
  | true =>
    simp only [startsNumber, Bool.or_eq_true, Bool.or_eq_false_iff, Bool.and_eq_true,
      Bool.and_eq_false_iff] at hnext hrest
    rcases hnext with hdigit | ⟨hpoint, hdigit⟩
    . simp [hdigit] at hrest
    . have := h.head?_any (fun _ => isAsciiDigit_of_isNeutral) hdigit
      simp [hpoint, this] at hrest

theorem length_numberRest_lt (h : Text.isAsciiDigit c = true) :
    (numberRest (c :: cs)).length < (c :: cs).length := by
  cases hbased : startsBased (c :: cs) with
  | true =>
    match cs with
    | base :: d :: cs =>
      rw [numberRest_of_startsBased hbased]
      have hflag : isNeutral 'n' = false := isNeutral_of_isAsciiLetter rfl
      have := (localAt_dropFlag hflag (cs.dropWhile isHexPart)).length_le
      have := (List.dropWhile_sublist (l := cs) isHexPart).length_le
      simp only [List.length_cons]
      omega
  | false =>
    rw [numberRest_of_not_startsBased hbased]
    rw [decimalRest_cons_digit h]
    have := (localAt_decimalRest cs).length_le
    simp only [List.length_cons]
    omega

theorem numberRest_local (h : startsNumber c cs = true) :
    ∃ used, cs = used ++ numberRest (c :: cs) ∧ (∀ d ∈ c :: used, isNeutral d = false) ∧
      ∀ next, Agrees (numberRest (c :: cs)) next →
        startsNumber c (used ++ next) = true ∧ numberRest (c :: (used ++ next)) = next := by
  obtain ⟨used, hcs, hsolid, hread⟩ := localAt_numberRest (c :: cs)
  rcases startsNumber_cases h with hdigit | ⟨rfl, d, more, rfl, hdigit⟩
  . cases used with
    | nil =>
      have : (numberRest (c :: cs)).length < (c :: cs).length := length_numberRest_lt hdigit
      rw [List.nil_append] at hcs
      rw [← hcs] at this
      simp at this
    | cons e used =>
      rw [List.cons_append, List.cons.injEq] at hcs
      obtain ⟨rfl, hcs⟩ := hcs
      refine ⟨used, hcs, hsolid, ?_⟩
      intro next hnext
      exact ⟨by simp [startsNumber, hdigit], hread next hnext⟩
  . have hlength : (numberRest ('.' :: d :: more)).length ≤ more.length := by
      rw [numberRest_of_not_startsBased]
      . exact length_decimalRest_point_le hdigit
      . cases more <;> rfl
    match used with
    | [] =>
      rw [List.nil_append] at hcs
      rw [← hcs] at hlength
      simp only [List.length_cons] at hlength
      omega
    | [e] =>
      rw [List.singleton_append, List.cons.injEq] at hcs
      rw [← hcs.2] at hlength
      simp only [List.length_cons] at hlength
      omega
    | e :: e' :: used =>
      rw [List.cons_append, List.cons.injEq] at hcs
      obtain ⟨rfl, hcs⟩ := hcs
      refine ⟨e' :: used, hcs, hsolid, ?_⟩
      intro next hnext
      rw [List.cons_append, List.cons.injEq] at hcs
      obtain ⟨rfl, _⟩ := hcs
      exact ⟨by simp [startsNumber, hdigit], hread next hnext⟩

end Token
end ComponentCompiler
