import ComponentCompiler.Proofs.Success
import ComponentCompiler.Proofs.Token.Local
import ComponentCompiler.Token.Nested

/-!
This module contains what one step of each reader can do when it succeeds. Later modules argue by
cases on these steps and do not open the readers again.
-/

namespace ComponentCompiler
namespace Token

inductive LexemeStep (template : Nat → List Char → Except Fault (List Char))
    (markup : Nat → List Char → Except Fault (List Slot × List Char))
    (operand : Bool) (c : Char) (cs : List Char) : Kind → List Char → Prop where
  | string (hquote : c = '\'' ∨ c = '"') (hread : stringRest? c cs = some rest) :
    LexemeStep template markup operand c cs .string rest
  | template (htick : c = '\x60') (hread : template (cs.length + 1) cs = .ok rest) :
    LexemeStep template markup operand c cs .template rest
  | number (hnumber : startsNumber c cs = true) :
    LexemeStep template markup operand c cs .number (numberRest (c :: cs))
  | name (hname : isNameStart c = true) :
    LexemeStep template markup operand c cs .name (nameRest cs)
  | markup (hopen : c = '<') (hoperand : operand = true) (hlooks : looksLikeMarkup cs = true)
      (hread : markup (cs.length + 1) cs = .ok (slots, rest)) :
    LexemeStep template markup operand c cs .markup rest
  | regex (hslash : c = '/') (hoperand : operand = true) (hread : regexRest? false cs = some rest) :
    LexemeStep template markup operand c cs .regex rest
  | operator (hquote : c ≠ '\'' ∧ c ≠ '"' ∧ c ≠ '\x60') (hnumber : startsNumber c cs = false)
      (hname : isNameStart c = false)
      (hmarkup : c = '<' → operand = true → looksLikeMarkup cs = false)
      (hregex : c = '/' → operand = false) :
    LexemeStep template markup operand c cs .punct (operatorRest (c :: cs))

theorem startsNumber_of_isNameStart (h : isNameStart c = true) : startsNumber c cs = false := by
  cases hnumber : startsNumber c cs with
  | false => rfl
  | true =>
    rcases startsNumber_cases hnumber with hdigit | ⟨rfl, _⟩
    . simp only [isNameStart, Text.isAsciiLetter, Text.isAsciiDigit, Bool.or_eq_true,
        Bool.and_eq_true, decide_eq_true_eq, beq_iff_eq, Char.le_def,
        UInt32.le_iff_toNat_le] at h hdigit
      rcases h with (h | rfl) | rfl
      . simp at h hdigit
        omega
      . simp at hdigit
      . simp at hdigit
    . simp [isNameStart, Text.isAsciiLetter] at h

theorem ne_quote_of_startsNumber (h : startsNumber c cs = true) :
    c ≠ '\'' ∧ c ≠ '"' ∧ c ≠ '\x60' := by
  refine ⟨?_, ?_, ?_⟩
  all_goals
    rintro rfl
    simp [startsNumber, Text.isAsciiDigit] at h

theorem ne_quote_of_isNameStart (h : isNameStart c = true) : c ≠ '\'' ∧ c ≠ '"' ∧ c ≠ '\x60' := by
  refine ⟨?_, ?_, ?_⟩
  all_goals
    rintro rfl
    simp [isNameStart, Text.isAsciiLetter] at h

theorem lexeme_ok {kind : Kind} :
    lexeme template markup operand c cs = .ok (kind, rest)
      ↔
    LexemeStep template markup operand c cs kind rest := by
  unfold lexeme
  constructor
  . intro h
    dsimp only at h
    split at h
    . next hquote =>
      split at h
      . next hread =>
        cases h
        exact .string (by simpa using hquote) hread
      . simp at h
    next hquote =>
    split at h
    . next htick =>
      simp only [bind_eq_ok] at h
      obtain ⟨after, hread, h⟩ := h
      cases h
      exact .template htick hread
    next htick =>
    split at h
    . next hnumber =>
      cases h
      exact .number hnumber
    next hnumber =>
    split at h
    . next hname =>
      cases h
      exact .name hname
    next hname =>
    split at h
    . next hmarkup =>
      simp only [bind_eq_ok] at h
      obtain ⟨⟨slots, after⟩, hread, h⟩ := h
      cases h
      simp only [Bool.and_eq_true, decide_eq_true_eq] at hmarkup
      exact .markup hmarkup.1.1 hmarkup.1.2 hmarkup.2 hread
    next hmarkup =>
    split at h
    . next hregex =>
      simp only [Bool.and_eq_true, decide_eq_true_eq] at hregex
      split at h
      . next hread =>
        cases h
        exact .regex hregex.1 hregex.2 hread
      . simp at h
    next hregex =>
    cases h
    apply LexemeStep.operator
    . simp_all
    . simpa [startsNumber] using hnumber
    . simpa using hname
    . simpa using hmarkup
    . simpa using hregex
  . intro h
    cases h with
    | string hquote hread => simp [hquote, hread]
    | template htick hread => simp [htick, hread]
    | number hnumber =>
      have hquote := ne_quote_of_startsNumber hnumber
      rw [if_neg, if_neg, if_pos]
      . exact hnumber
      . exact hquote.2.2
      . simp [hquote]
    | name hname =>
      have hnumber : startsNumber c cs = false := startsNumber_of_isNameStart hname
      have hquote := ne_quote_of_isNameStart hname
      rw [if_neg, if_neg, if_neg, if_pos hname]
      . simpa [startsNumber] using hnumber
      . exact hquote.2.2
      . simp [hquote]
    | markup hopen hoperand hlooks hread =>
      subst hopen
      simp [hoperand, hlooks, hread, isNameStart, Text.isAsciiLetter, Text.isAsciiDigit]
    | regex hslash hoperand hread =>
      subst hslash
      simp [hoperand, hread, isNameStart, Text.isAsciiLetter, Text.isAsciiDigit]
    | operator hquote hnumber hname hmarkup hregex =>
      rw [if_neg, if_neg, if_neg, if_neg, if_neg, if_neg]
      . simpa using hregex
      . simpa using hmarkup
      . simpa using hname
      . simpa [startsNumber] using hnumber
      . exact hquote.2.2
      . simp [hquote]

inductive TemplateStep (n left : Nat) : List Char → List Char → Prop where
  | escape (hread : templateRest n left (more.drop 1) = .ok rest) :
    TemplateStep n left ('\\' :: more) rest
  | stop : TemplateStep n left ('\x60' :: rest) rest
  | slot (hslot : groupRest n .curly (content.length + 1) [] true content = .ok after)
      (hread : templateRest n left after = .ok rest) :
    TemplateStep n left ('$' :: '\x7b' :: content) rest
  | char (hescape : c ≠ '\\') (hstop : c ≠ '\x60') (hslot : c = '$' → more.head? ≠ some '\x7b')
      (hread : templateRest n left more = .ok rest) :
    TemplateStep n left (c :: more) rest

theorem templateRest_succ_ok :
    templateRest (n + 1) left cs = .ok rest ↔ TemplateStep n left cs rest := by
  rw [templateRest, templateStep.eq_def]
  constructor
  . intro h
    cases cs with
    | nil => simp at h
    | cons c cs =>
      dsimp only at h
      split at h
      . next hc =>
        subst hc
        exact .escape h
      split at h
      . next hc =>
        cases h
        subst hc
        exact .stop
      split at h
      . next hc =>
        subst hc
        split at h
        . next content =>
          rw [bind_eq_ok] at h
          obtain ⟨after, hslot, hread⟩ := h
          exact .slot hslot hread
        . next hescape hstop _ hslot =>
          refine .char hescape hstop ?_ h
          intro _ hhead
          obtain ⟨content, rfl⟩ := List.head?_eq_some_iff.mp hhead
          exact hslot content rfl
      . next hescape hstop hdollar =>
        exact .char hescape hstop (fun hc => absurd hc hdollar) h
  . intro h
    cases h with
    | escape hread => simpa using hread
    | stop => simp
    | slot hslot hread => simp [hslot, hread]
    | @char c more _ hescape hstop hslot hread =>
      simp only [hescape, hstop, if_false]
      split
      . next hc =>
        split
        . next content => simp [hc] at hslot
        . exact hread
      . exact hread

inductive Nests : List Bracket → Char → List Bracket → Prop where
  | opening (hopen : Bracket.ofOpening? c = some bracket) : Nests opened c (bracket :: opened)
  | closing (hopen : Bracket.ofOpening? c = none) (hclose : Bracket.ofClosing? c = some bracket) :
    Nests (bracket :: opened) c opened
  | other (hopen : Bracket.ofOpening? c = none) (hclose : Bracket.ofClosing? c = none) :
    Nests opened c opened

inductive GroupStep (n : Nat) (bracket : Bracket) (left : Nat) (opened : List Bracket)
    (operand : Bool) (cs rest : List Char) : Prop where
  | stop {kind : Kind} (hgap : afterGap false cs = .ok (newline, c :: more))
      (hread : lexeme (templateRest n) (markupRest n) operand c more = .ok (kind, rest))
      (hinner : opened = []) (hopen : Bracket.ofOpening? c = none)
      (hclose : Bracket.ofClosing? c = some bracket)
  | token {kind : Kind} (hgap : afterGap false cs = .ok (newline, c :: more))
      (hread : lexeme (templateRest n) (markupRest n) operand c more = .ok (kind, after))
      (hnests : Nests opened c opened')
      (hafter : groupRest n bracket left opened' (operandAfter kind (taken (c :: more) after)) after
        = .ok rest)

theorem groupRest_succ_ok :
    groupRest (n + 1) bracket left opened operand cs = .ok rest
      ↔
    GroupStep n bracket left opened operand cs rest := by
  rw [groupRest, groupStep, bind_eq_ok]
  constructor
  . rintro ⟨⟨newline, cs⟩, hgap, h⟩
    cases cs with
    | nil => simp at h
    | cons c more =>
      rw [bind_eq_ok] at h
      obtain ⟨⟨kind, after⟩, hread, h⟩ := h
      dsimp only at h
      split at h
      . next hopen => exact .token hgap hread (.opening hopen) h
      . next closed hopen hclose =>
        cases opened with
        | nil =>
          dsimp only at h
          split at h
          . next heq =>
            cases h
            subst heq
            exact .stop hgap hread rfl hopen hclose
          . simp at h
        | cons innermost outer =>
          dsimp only at h
          split at h
          . next heq =>
            subst heq
            exact .token hgap hread (.closing hopen hclose) h
          . simp at h
      . next hopen hclose => exact .token hgap hread (.other hopen hclose) h
  . intro h
    cases h with
    | stop hgap hread hinner hopen hclose =>
      refine ⟨_, hgap, ?_⟩
      simp [hread, hinner, hopen, hclose]
    | token hgap hread hnests hafter =>
      refine ⟨_, hgap, ?_⟩
      simp only [bind_eq_ok]
      refine ⟨_, hread, ?_⟩
      cases hnests with
      | opening hopen => simp only [hopen, hafter]
      | closing hopen hclose => simp only [hopen, hclose, hafter, if_true]
      | other hopen hclose => simp only [hopen, hclose, hafter]

theorem closingTag_ok :
    closingTag tag cs = .ok rest
      ↔
    ∃ after, tagName? (Text.dropBlank (cs.drop 2)) = some (tag, after) ∧
      Text.dropBlank after = '>' :: rest := by
  unfold closingTag
  constructor
  . intro h
    dsimp only at h
    split at h
    . simp at h
    . next found after hname =>
      split at h
      . next hfound =>
        subst hfound
        split at h
        . next hafter =>
          cases h
          exact ⟨after, hname, hafter⟩
        . simp at h
      . simp at h
  . rintro ⟨after, hname, hafter⟩
    simp [hname, hafter]

inductive MarkupStep (n left : Nat) : List Char → List Slot → List Char → Prop where
  | fragment (hread : childrenRest n left content = .ok (slots, '<' :: '/' :: '>' :: rest)) :
    MarkupStep n left ('>' :: content) slots rest
  | element (hname : tagName? cs = some (tag, after))
      (hread : attributesRest n left tag after = .ok (slots, rest)) :
    MarkupStep n left cs slots rest

theorem markupRest_succ_ok :
    markupRest (n + 1) left cs = .ok (slots, rest) ↔ MarkupStep n left cs slots rest := by
  have hletter : Text.isAsciiLetter '>' = false := by decide
  rw [markupRest, markupStep.eq_def]
  constructor
  . intro h
    dsimp only at h
    split at h
    . rw [bind_eq_ok] at h
      obtain ⟨⟨slots, rest⟩, hread, h⟩ := h
      dsimp only at h
      split at h
      . cases h
        exact .fragment hread
      . simp at h
    . split at h
      . simp at h
      . next hname => exact .element hname h
  . intro h
    cases h with
    | fragment hread => simp [hread]
    | element hname hread =>
      dsimp only
      split
      . simp [tagName?, hletter] at hname
      . simp [hname, hread]

inductive AttributeStep (n : Nat) (cs : List Char) : List Slot → List Char → Prop where
  | spread (hcs : Text.dropBlank cs = '\x7b' :: content)
      (hread : groupRest n .curly (content.length + 1) [] true content = .ok rest) :
    AttributeStep n cs [⟨content.length, rest.length + 1⟩] rest
  | slot (hname : attributeName? (Text.dropBlank cs) = some (name, after))
      (hequal : Text.dropBlank after = '=' :: more)
      (hvalue : Text.dropBlank more = '\x7b' :: content)
      (hread : groupRest n .curly (content.length + 1) [] true content = .ok rest) :
    AttributeStep n cs [⟨content.length, rest.length + 1⟩] rest
  | text (hname : attributeName? (Text.dropBlank cs) = some (name, after))
      (hequal : Text.dropBlank after = '=' :: more)
      (hvalue : Text.dropBlank more = quote :: content) (hquote : quote = '\'' ∨ quote = '"')
      (hread : attributeStringRest? quote content = some rest) :
    AttributeStep n cs [] rest
  | bare (hname : attributeName? (Text.dropBlank cs) = some (name, after))
      (hafter : Text.dropBlank after = rest) (hequal : rest.head? ≠ some '=') :
    AttributeStep n cs [] rest

theorem attributeName?_eq_some (h : attributeName? cs = some (name, rest)) :
    ∃ c more, cs = c :: more ∧ isNameStart c = true ∧ name = c :: more.takeWhile isAttributePart ∧
      rest = more.dropWhile isAttributePart := by
  cases cs with
  | nil => simp [attributeName?] at h
  | cons c more =>
    simp only [attributeName?] at h
    split at h
    . next hstart =>
      cases h
      exact ⟨c, more, rfl, hstart, rfl, rfl⟩
    . simp at h

theorem attributeName?_head_ne (h : attributeName? cs = some (name, rest)) :
    ∃ c more, cs = c :: more ∧ c ≠ '/' ∧ c ≠ '>' ∧ c ≠ '\x7b' := by
  obtain ⟨c, more, hcs, hstart, _⟩ := attributeName?_eq_some h
  refine ⟨c, more, hcs, ?_, ?_, ?_⟩
  all_goals
    rintro rfl
    simp [isNameStart, Text.isAsciiLetter] at hstart

inductive AttributesStep (n left : Nat) (tag cs : List Char) : List Slot → List Char → Prop where
  | single (hcs : Text.dropBlank cs = '/' :: '>' :: rest) : AttributesStep n left tag cs [] rest
  | children (hcs : Text.dropBlank cs = '>' :: content)
      (hread : childrenRest n left content = .ok (slots, after))
      (hclose : closingTag tag after = .ok rest) :
    AttributesStep n left tag cs slots rest
  | more (hfirst : AttributeStep n cs first after)
      (hread : attributesRest n left tag after = .ok (slots, rest)) :
    AttributesStep n left tag cs (first ++ slots) rest

theorem attributesRest_succ_ok :
    attributesRest (n + 1) left tag cs = .ok (slots, rest)
      ↔
    AttributesStep n left tag cs slots rest := by
  rw [attributesRest, attributesStep.eq_def]
  constructor
  . intro h
    dsimp only at h
    split at h
    . simp at h
    . next hcs =>
      cases h
      exact .single hcs
    . next hcs =>
      simp only [bind_eq_ok] at h
      obtain ⟨⟨slots, after⟩, hread, rest, hclose, h⟩ := h
      cases h
      exact .children hcs hread hclose
    . next hcs =>
      simp only [bind_eq_ok] at h
      obtain ⟨after, hslot, ⟨slots, rest⟩, hread, h⟩ := h
      cases h
      exact .more (.spread hcs hslot) hread
    . next c cs hcs =>
      rw [← hcs] at h
      split at h
      . simp at h
      . next name after hname =>
        split at h
        . next value hequal =>
          split at h
          . next content hvalue =>
            simp only [bind_eq_ok] at h
            obtain ⟨after, hslot, ⟨slots, rest⟩, hread, h⟩ := h
            cases h
            exact .more (.slot hname hequal hvalue hslot) hread
          . next content hvalue =>
            split at h
            . next hstring => exact .more (.text hname hequal hvalue (.inl rfl) hstring) h
            . simp at h
          . next content hvalue =>
            split at h
            . next hstring => exact .more (.text hname hequal hvalue (.inr rfl) hstring) h
            . simp at h
          . simp at h
        . next hequal =>
          refine .more (.bare hname rfl ?_) h
          intro hhead
          obtain ⟨value, hvalue⟩ := List.head?_eq_some_iff.mp hhead
          exact hequal value hvalue
  . intro h
    cases h with
    | single hcs => simp [hcs]
    | children hcs hread hclose => simp [hcs, hread, hclose]
    | @more _ mid _ _ hfirst hread =>
      cases hfirst with
      | spread hcs hslot => simp [hcs, hslot, hread]
      | slot hname hequal hvalue hslot =>
        obtain ⟨c, more, hcs, hother⟩ := attributeName?_head_ne hname
        rw [hcs] at hname
        simp [hcs, hother, hname, hequal, hvalue, hslot, hread]
      | text hname hequal hvalue hquote hstring =>
        obtain ⟨c, more, hcs, hother⟩ := attributeName?_head_ne hname
        rw [hcs] at hname
        rcases hquote with rfl | rfl
        . simp [hcs, hother, hname, hequal, hvalue, hstring, hread]
        . simp [hcs, hother, hname, hequal, hvalue, hstring, hread]
      | bare hname hafter hequal =>
        obtain ⟨c, more, hcs, hother⟩ := attributeName?_head_ne hname
        rw [hcs] at hname
        cases mid with
        | nil => simp [hcs, hother, hname, hafter, hread]
        | cons d rest =>
          have hd : d ≠ '=' := by simpa using hequal
          simp [hcs, hother, hname, hafter, hd, hread]

inductive ChildrenStep (n left : Nat) : List Char → List Slot → List Char → Prop where
  | stop : ChildrenStep n left ('<' :: '/' :: rest) [] ('<' :: '/' :: rest)
  | slot (hslot : groupRest n .curly (content.length + 1) [] true content = .ok after)
      (hread : childrenRest n left after = .ok (slots, rest)) :
    ChildrenStep n left ('\x7b' :: content) (⟨content.length, after.length + 1⟩ :: slots) rest
  | markup (hclose : content.head? ≠ some '/')
      (hmarkup : markupRest n (content.length + 1) content = .ok (first, after))
      (hread : childrenRest n left after = .ok (slots, rest)) :
    ChildrenStep n left ('<' :: content) (first ++ slots) rest
  | char (hslot : c ≠ '\x7b') (hmarkup : c ≠ '<')
      (hread : childrenRest n left more = .ok (slots, rest)) :
    ChildrenStep n left (c :: more) slots rest

theorem childrenRest_succ_ok :
    childrenRest (n + 1) left cs = .ok (slots, rest) ↔ ChildrenStep n left cs slots rest := by
  rw [childrenRest, childrenStep.eq_def]
  constructor
  . intro h
    dsimp only at h
    split at h
    . simp at h
    . cases h
      exact .stop
    . simp only [bind_eq_ok] at h
      obtain ⟨after, hslot, ⟨slots, rest⟩, hread, h⟩ := h
      cases h
      exact .slot hslot hread
    . next content hclose =>
      simp only [bind_eq_ok] at h
      obtain ⟨⟨first, after⟩, hmarkup, ⟨slots, rest⟩, hread, h⟩ := h
      cases h
      refine .markup ?_ hmarkup hread
      intro hhead
      obtain ⟨more, rfl⟩ := List.head?_eq_some_iff.mp hhead
      exact hclose more rfl
    . next c more hclose hslot hmarkup => exact .char hslot hmarkup h
  . intro h
    cases h with
    | stop => rfl
    | slot hslot hread => simp [hslot, hread]
    | @markup content _ _ _ _ hclose hmarkup hread =>
      have hstop : ∀ more, content ≠ '/' :: more := by
        rintro more rfl
        simp at hclose
      simp only [bind_eq_ok]
      exact ⟨_, hmarkup, _, hread, rfl⟩
    | char hslot hmarkup hread =>
      dsimp only
      split <;> simp_all

end Token
end ComponentCompiler
