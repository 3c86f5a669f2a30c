import ComponentCompiler.Proofs.Token.Literal
import ComponentCompiler.Proofs.Token.Step

/-!
This module contains the constructs that nest. Each of them ends by itself, so that it is read in
the same way whatever follows it, and no more fuel than it has characters is needed to read it.
-/

namespace ComponentCompiler
namespace Token

variable {cs rest next : List Char}

theorem taken_append (used rest : List Char) : taken (used ++ rest) rest = String.ofList used := by
  simp [taken]

theorem taken_cons_append (c : Char) (used rest : List Char) :
    taken (c :: (used ++ rest)) rest = String.ofList (c :: used) := by
  exact taken_append (c :: used) rest

def Slot.shift (n : Nat) (s : Slot) : Slot :=
  ⟨s.startLeft + n, s.stopLeft + n⟩

theorem Slot.map_shift_shift (slots : List Slot) (m n : Nat) :
    (slots.map (shift m)).map (shift n) = slots.map (shift (m + n)) := by
  simp [shift, Nat.add_assoc]

theorem Slot.shift_append (first rest : List Char) :
    (⟨(first ++ rest).length, rest.length + 1⟩ : Slot) = shift rest.length ⟨first.length, 1⟩ := by
  simp [shift, Nat.add_comm]

theorem Slot.map_shift_append (used rest : List Char) (slots : List Slot) :
    slots.map (shift (used ++ rest).length) =
      (slots.map (shift used.length)).map (shift rest.length) := by
  rw [map_shift_shift, List.length_append]

theorem head?_append_of_ne_nil (h : used ≠ []) : (used ++ next).head? = (used ++ rest).head? := by
  cases used with
  | nil => simp at h
  | cons c used => rfl

theorem dropWhile_of_head? {p : Char → Bool} (h : next.head? = (cs.dropWhile p).head?) :
    (cs.takeWhile p ++ next).dropWhile p = next := by
  rw [List.dropWhile_append_of_pos]
  . have hnot := List.head?_dropWhile_not p cs
    rw [← h] at hnot
    cases next with
    | nil => rfl
    | cons c next =>
      rw [List.dropWhile_cons_of_neg]
      simpa using hnot
  . intro c hc
    exact List.mem_takeWhile_imp hc

theorem takeWhile_of_head? {p : Char → Bool} (h : next.head? = (cs.dropWhile p).head?) :
    (cs.takeWhile p ++ next).takeWhile p = cs.takeWhile p := by
  have hdrop := dropWhile_of_head? h
  have happend := List.takeWhile_append_dropWhile (p := p) (l := cs.takeWhile p ++ next)
  rw [hdrop] at happend
  exact List.append_cancel_right happend

theorem dropBlank_eq_cons (h : Text.dropBlank cs = c :: rest) :
    ∃ blank, cs = blank ++ c :: rest ∧ ∀ next, Text.dropBlank (blank ++ c :: next) = c :: next := by
  refine ⟨cs.takeWhile Text.isBlank, ?_, ?_⟩
  . rw [← h]
    exact List.takeWhile_append_dropWhile.symm
  . intro next
    apply dropWhile_of_head?
    rw [Text.dropBlank] at h
    rw [h]
    rfl

theorem tagName?_eq_some (h : tagName? cs = some (tag, rest)) :
    ∃ c more, cs = c :: more ∧ Text.isAsciiLetter c = true ∧ tag = c :: more.takeWhile isTagPart ∧
      rest = more.dropWhile isTagPart := by
  cases cs with
  | nil => simp [tagName?] at h
  | cons c more =>
    simp only [tagName?] at h
    split at h
    . next hletter =>
      cases h
      exact ⟨c, more, rfl, hletter, rfl, rfl⟩
    . simp at h

theorem tagName?_append (h : tagName? cs = some (tag, rest)) :
    cs = tag ++ rest ∧ tag ≠ [] ∧
      ∀ next, next.head? = rest.head? → tagName? (tag ++ next) = some (tag, next) := by
  obtain ⟨c, more, rfl, hletter, rfl, rfl⟩ := tagName?_eq_some h
  refine ⟨by simp, by simp, ?_⟩
  intro next hnext
  simp only [List.cons_append, tagName?, hletter, if_true, takeWhile_of_head? hnext,
    dropWhile_of_head? hnext]

theorem attributeName?_append (h : attributeName? cs = some (name, rest)) :
    cs = name ++ rest ∧ name ≠ [] ∧
      ∀ next, next.head? = rest.head? → attributeName? (name ++ next) = some (name, next) := by
  obtain ⟨c, more, rfl, hstart, rfl, rfl⟩ := attributeName?_eq_some h
  refine ⟨by simp, by simp, ?_⟩
  intro next hnext
  simp only [List.cons_append, attributeName?, hstart, if_true, takeWhile_of_head? hnext,
    dropWhile_of_head? hnext]

theorem dropBlank_eq_append (h : Text.dropBlank cs = word ++ rest) (hword : word ≠ []) :
    ∃ blank, cs = blank ++ (word ++ rest) ∧
      ∀ next, Text.dropBlank (blank ++ (word ++ next)) = word ++ next := by
  obtain ⟨c, more, rfl⟩ := List.exists_cons_of_ne_nil hword
  obtain ⟨blank, hcs, hdrop⟩ := dropBlank_eq_cons h
  exact ⟨blank, hcs, fun next => hdrop (more ++ next)⟩

theorem attributeName?_local (hname : attributeName? (Text.dropBlank cs) = some (name, after))
    (hafter : Text.dropBlank after = d :: rest) :
    ∃ used, cs = used ++ d :: rest ∧ used ≠ [] ∧
      ∀ next, ∃ after, attributeName? (Text.dropBlank (used ++ d :: next)) = some (name, after) ∧
        Text.dropBlank after = d :: next := by
  obtain ⟨hcs, hne, hread⟩ := attributeName?_append hname
  obtain ⟨blank, rfl, hblank⟩ := dropBlank_eq_append hcs hne
  obtain ⟨blank', rfl, hblank'⟩ := dropBlank_eq_cons hafter
  refine ⟨blank ++ (name ++ blank'), by simp, by simp [hne], ?_⟩
  intro next
  refine ⟨blank' ++ d :: next, ?_, hblank' next⟩
  rw [List.append_assoc, List.append_assoc, hblank]
  apply hread
  cases blank' with
  | nil => rfl
  | cons => rfl

theorem closingTag_closed (h : closingTag tag (c :: d :: cs) = .ok rest) :
    ∃ used, cs = used ++ rest ∧ ∀ next, closingTag tag (c :: d :: (used ++ next)) = .ok next := by
  obtain ⟨after, hname, hafter⟩ := closingTag_ok.mp h
  rw [List.drop_succ_cons, List.drop_succ_cons, List.drop_zero] at hname
  obtain ⟨hcs, hne, hread⟩ := tagName?_append hname
  obtain ⟨blank, rfl, hblank⟩ := dropBlank_eq_append hcs hne
  obtain ⟨blank', rfl, hblank'⟩ := dropBlank_eq_cons hafter
  refine ⟨blank ++ (tag ++ (blank' ++ ['>'])), by simp, ?_⟩
  intro next
  rw [closingTag_ok]
  refine ⟨blank' ++ '>' :: next, ?_, hblank' next⟩
  have : (c :: d :: (blank ++ (tag ++ (blank' ++ ['>'])) ++ next)).drop 2
      = blank ++ (tag ++ (blank' ++ '>' :: next)) := by simp
  rw [this, hblank]
  apply hread
  cases blank' with
  | nil => rfl
  | cons => rfl

structure Closed (n : Nat) : Prop where
  template : ∀ {left cs rest}, templateRest n left cs = .ok rest →
    ∃ used, cs = used ++ rest ∧ used ≠ [] ∧
      ∀ m left next, used.length ≤ m → templateRest m left (used ++ next) = .ok next
  group : ∀ {bracket left opened operand cs rest},
    groupRest n bracket left opened operand cs = .ok rest →
    ∃ used, cs = used ++ rest ∧ bracket.closing ∈ used ∧
      ∀ m left next, used.length ≤ m →
      groupRest m bracket left opened operand (used ++ next) = .ok next
  markup : ∀ {left cs slots rest}, markupRest n left cs = .ok (slots, rest) →
    ∃ used base, cs = used ++ rest ∧ used ≠ [] ∧ slots = List.map (Slot.shift rest.length) base ∧
      ∀ m left next, used.length ≤ m →
        markupRest m left (used ++ next) = .ok (List.map (Slot.shift next.length) base, next)
  attributes : ∀ {left tag cs slots rest}, attributesRest n left tag cs = .ok (slots, rest) →
    ∃ used base, cs = used ++ rest ∧ used ≠ [] ∧ slots = List.map (Slot.shift rest.length) base ∧
      ∀ m left next, used.length ≤ m →
        attributesRest m left tag (used ++ next) =
          .ok (List.map (Slot.shift next.length) base, next)
  -- children end before the tag that closes them, so that reading them takes a step more
  children : ∀ {left cs slots rest}, childrenRest n left cs = .ok (slots, rest) →
    ∃ used base more, cs = used ++ rest ∧ rest = '<' :: '/' :: more ∧
      slots = List.map (Slot.shift rest.length) base ∧
      ∀ m left next, used.length < m →
        childrenRest m left (used ++ '<' :: '/' :: next)
          = .ok (List.map (Slot.shift ('<' :: '/' :: next).length) base, '<' :: '/' :: next)

theorem Closed.zero : Closed 0 := by
  constructor
  all_goals
    intros
    next h => simp [templateRest, groupRest, markupRest, attributesRest, childrenRest] at h

theorem looksLikeMarkup_eq (cs : List Char) :
    looksLikeMarkup cs = cs.head?.any fun c => c == '>' || Text.isLetter c := by
  cases cs with
  | nil => rfl
  | cons c cs => rfl

theorem isMarkupStart_of_isNeutral (h : isNeutral c = true) :
    (c == '>' || Text.isLetter c) = false := by
  have hop := not_mem_operatorChars_of_isNeutral h
  have hname := isNamePart_of_isNeutral h
  simp only [operatorChars, List.mem_cons, not_or] at hop
  simp only [isNamePart, Text.isWord, Bool.or_eq_false_iff] at hname
  simp [hop.1, hname]

theorem Agrees.head?_any_eq_false {p : Char → Bool} (hp : ∀ c, isNeutral c = true → p c = false)
    (h : Agrees rest next) (hrest : rest.head?.any p = false) : next.head?.any p = false := by
  cases hnext : next.head?.any p with
  | false => rfl
  | true =>
    rw [h.head?_any hp hnext] at hrest
    simp at hrest

theorem lexeme_local {kind : Kind} (hclosed : Closed n)
    (h : lexeme (templateRest n) (markupRest n) operand c cs = .ok (kind, rest)) :
    ∃ used, cs = used ++ rest ∧
      ∀ m next, used.length ≤ m → Agrees rest next →
        lexeme (templateRest m) (markupRest m) operand c (used ++ next) = .ok (kind, next) := by
  simp only [lexeme_ok] at h ⊢
  cases h with
  | string hquote hread =>
    obtain ⟨used, hcs, hclosed⟩ := stringRest?_closed hread
    refine ⟨used, hcs, ?_⟩
    intro m next _ _
    exact .string hquote (hclosed next)
  | template htick hread =>
    obtain ⟨used, hcs, _, hclosed⟩ := hclosed.template hread
    refine ⟨used, hcs, ?_⟩
    intro m next hm _
    exact .template htick (hclosed m _ next hm)
  | number hnumber =>
    obtain ⟨used, hcs, _, hlocal⟩ := numberRest_local hnumber
    refine ⟨used, hcs, ?_⟩
    intro m next _ hnext
    obtain ⟨hnumber, hrest⟩ := hlocal next hnext
    have : LexemeStep (templateRest m) (markupRest m) operand c (used ++ next) .number
        (numberRest (c :: (used ++ next))) := .number hnumber
    rwa [hrest] at this
  | name hname =>
    obtain ⟨used, hcs, _, hlocal⟩ := localAt_nameRest cs
    refine ⟨used, hcs, ?_⟩
    intro m next _ hnext
    have : LexemeStep (templateRest m) (markupRest m) operand c (used ++ next) .name
        (nameRest (used ++ next)) := .name hname
    rwa [hlocal next hnext] at this
  | markup hopen hoperand hlooks hread =>
    obtain ⟨used, base, hcs, hne, _, hclosed⟩ := hclosed.markup hread
    refine ⟨used, hcs, ?_⟩
    intro m next hm _
    refine .markup hopen hoperand ?_ (hclosed m _ next hm)
    cases used with
    | nil => simp at hne
    | cons d used =>
      rw [hcs] at hlooks
      exact hlooks
  | regex hslash hoperand hread =>
    obtain ⟨used, hcs, hlocal⟩ := regexRest?_local hread
    refine ⟨used, hcs, ?_⟩
    intro m next _ hnext
    exact .regex hslash hoperand (hlocal next hnext)
  | operator hquote hnumber hname hmarkup hregex =>
    obtain ⟨used, hcs, _, hlocal⟩ := operatorRest_local c cs
    refine ⟨used, hcs, ?_⟩
    intro m next _ hnext
    have hagrees : Agrees cs (used ++ next) := by
      rw [hcs]
      exact hnext.append used
    have : LexemeStep (templateRest m) (markupRest m) operand c (used ++ next) .punct
        (operatorRest (c :: (used ++ next))) := by
      apply LexemeStep.operator hquote (startsNumber_of_agrees hagrees hnumber) hname ?_ hregex
      intro hopen hoperand
      have hlooks := hmarkup hopen hoperand
      rw [looksLikeMarkup_eq] at hlooks ⊢
      exact hagrees.head?_any_eq_false (fun _ => isMarkupStart_of_isNeutral) hlooks
    rwa [hlocal next hnext] at this

theorem lexeme_of_isNeutral (hc : isNeutral c = true) (hquote : c ≠ '\'' ∧ c ≠ '"' ∧ c ≠ '\x60') :
    lexeme template markup operand c cs = .ok (.punct, cs) := by
  have hop := not_mem_operatorChars_of_isNeutral hc
  have hname := isNamePart_of_isNeutral hc
  have hletter := isAsciiLetter_of_isNeutral hc
  have hdigit := isAsciiDigit_of_isNeutral hc
  simp only [isNamePart, Text.isWord, Bool.or_eq_false_iff, decide_eq_false_iff_not] at hname
  have hstep : LexemeStep template markup operand c cs .punct (operatorRest (c :: cs)) := by
    apply LexemeStep.operator hquote
    . simp only [operatorChars, List.mem_cons, not_or] at hop
      simp [startsNumber, hdigit, hop]
    . simp [isNameStart, hletter, hname]
    . rintro rfl
      simp [operatorChars] at hop
    . rintro rfl
      simp [operatorChars] at hop
  rw [operatorRest_of_not_mem hop] at hstep
  exact lexeme_ok.mpr hstep

theorem isNeutral_of_mem (h : c ∈ ['(', '[', '\x7b', ')', ']', '\x7d', ',', ';', ':']) :
    isNeutral c = true := by
  have hall : ['(', '[', '\x7b', ')', ']', '\x7d', ',', ';', ':'].all isNeutral = true := by
    decide +kernel
  exact List.all_eq_true.mp hall c h

theorem isNeutral_closing (bracket : Bracket) : isNeutral bracket.closing = true := by
  apply isNeutral_of_mem
  cases bracket <;> simp [Bracket.closing]

theorem lexeme_closing (template markup operand) (bracket : Bracket) (cs : List Char) :
    lexeme template markup operand bracket.closing cs = .ok (.punct, cs) := by
  apply lexeme_of_isNeutral (isNeutral_closing bracket)
  cases bracket <;> decide

theorem opensComment_closing (bracket : Bracket) (cs : List Char) :
    opensComment bracket.closing cs = false := by
  cases bracket <;> rfl

theorem eq_closing_of_ofClosing? (h : Bracket.ofClosing? c = some bracket) :
    c = bracket.closing := by
  have := List.find?_some h
  simp only [beq_iff_eq] at this
  exact this.symm

theorem Closed.template_succ (hclosed : Closed n) (h : templateRest (n + 1) left cs = .ok rest) :
    ∃ used, cs = used ++ rest ∧ used ≠ [] ∧
      ∀ m left next, used.length ≤ m → templateRest m left (used ++ next) = .ok next := by
  rw [templateRest_succ_ok] at h
  cases h with
  | @escape _ more hread =>
    obtain ⟨used, hused, hne, hclosed⟩ := hclosed.template hread
    cases more with
    | nil => simp [hne] at hused
    | cons c more =>
      refine ⟨'\\' :: c :: used, by simpa using hused, by simp, ?_⟩
      intro m left next hm
      cases m with
      | zero => simp at hm
      | succ m =>
        simp only [List.length_cons] at hm
        exact templateRest_succ_ok.mpr (.escape (hclosed m left next (by omega)))
  | stop =>
    refine ⟨['\x60'], rfl, by simp, ?_⟩
    intro m left next hm
    cases m with
    | zero => simp at hm
    | succ m => exact templateRest_succ_ok.mpr .stop
  | slot hslot hread =>
    obtain ⟨first, rfl, _, hgroup⟩ := hclosed.group hslot
    obtain ⟨used, rfl, _, htemplate⟩ := hclosed.template hread
    refine ⟨'$' :: '\x7b' :: (first ++ used), by simp, by simp, ?_⟩
    intro m left next hm
    cases m with
    | zero => simp at hm
    | succ m =>
      simp only [List.length_cons, List.length_append] at hm
      rw [List.cons_append, List.cons_append, List.append_assoc]
      exact templateRest_succ_ok.mpr
        (.slot (hgroup m _ (used ++ next) (by omega)) (htemplate m left next (by omega)))
  | @char c more _ hescape hstop hslot hread =>
    obtain ⟨used, hused, hne, hread⟩ := hclosed.template hread
    refine ⟨c :: used, by simp [hused], by simp, ?_⟩
    intro m left next hm
    cases m with
    | zero => simp at hm
    | succ m =>
      simp only [List.length_cons] at hm
      refine templateRest_succ_ok.mpr (.char hescape hstop ?_ (hread m left next (by omega)))
      rw [hused] at hslot
      cases used with
      | nil => simp at hne
      | cons d used => exact hslot

theorem Closed.group_succ (hclosed : Closed n)
    (h : groupRest (n + 1) bracket left opened operand cs = .ok rest) :
    ∃ used, cs = used ++ rest ∧ bracket.closing ∈ used ∧
      ∀ m left next, used.length ≤ m →
        groupRest m bracket left opened operand (used ++ next) = .ok next := by
  rw [groupRest_succ_ok] at h
  cases h with
  | stop hgap hread hinner hopen hclose =>
    cases eq_closing_of_ofClosing? hclose
    rw [lexeme_closing] at hread
    cases hread
    obtain ⟨gap, rfl, hlocal⟩ := afterGap_local hgap
    refine ⟨gap ++ [bracket.closing], by simp, by simp, ?_⟩
    intro m left next hm
    cases m with
    | zero => simp at hm
    | succ m =>
      rw [List.append_assoc, List.singleton_append]
      exact groupRest_succ_ok.mpr (.stop (hlocal next (opensComment_closing bracket next))
        (lexeme_closing _ _ operand bracket next) hinner hopen hclose)
  | @token _ c _ _ _ _ hgap hread hnests hafter =>
    obtain ⟨word, rfl, hlexeme⟩ := lexeme_local hclosed hread
    rw [taken_cons_append] at hafter
    obtain ⟨used, rfl, hmem, hgroup⟩ := hclosed.group hafter
    have hcomment := (afterGap_token hgap).2
    obtain ⟨gap, rfl, hlocal⟩ := afterGap_local hgap
    refine ⟨gap ++ c :: (word ++ used), by simp, by simp [hmem], ?_⟩
    intro m left next hm
    cases m with
    | zero => simp at hm
    | succ m =>
      simp only [List.length_append, List.length_cons] at hm
      -- the bracket that closes the group keeps the token from reaching into what follows
      have hagrees : Agrees (used ++ rest) (used ++ next) :=
        Agrees.of_mem hmem (isNeutral_closing bracket) rest next
      have htext : gap ++ c :: (word ++ used) ++ next =
          gap ++ c :: (word ++ (used ++ next)) := by simp
      rw [htext]
      refine groupRest_succ_ok.mpr (.token (hlocal _ ?_) (hlexeme m _ (by omega) hagrees) hnests ?_)
      . exact opensComment_of_agrees (hagrees.append word) hcomment
      . rw [taken_cons_append]
        exact hgroup m left next (by omega)

theorem Closed.markup_succ (hclosed : Closed n)
    (h : markupRest (n + 1) left cs = .ok (slots, rest)) :
    ∃ used base, cs = used ++ rest ∧ used ≠ [] ∧ slots = List.map (Slot.shift rest.length) base ∧
      ∀ m left next, used.length ≤ m →
        markupRest m left (used ++ next) = .ok (List.map (Slot.shift next.length) base, next) := by
  rw [markupRest_succ_ok] at h
  cases h with
  | fragment hread =>
    obtain ⟨used, base, more, rfl, _, rfl, hchildren⟩ := hclosed.children hread
    have hlength (next : List Char) : ('<' :: '/' :: '>' :: next).length = 3 + next.length := by
      simp only [List.length_cons]
      omega
    refine ⟨'>' :: (used ++ ['<', '/', '>']), base.map (Slot.shift 3), by simp, by simp, ?_, ?_⟩
    . rw [Slot.map_shift_shift, hlength]
    . intro m left next hm
      cases m with
      | zero => simp at hm
      | succ m =>
        simp only [List.length_cons, List.length_append] at hm
        have hread := hchildren m left ('>' :: next) (by omega)
        rw [hlength, ← Slot.map_shift_shift] at hread
        have htext : '>' :: (used ++ ['<', '/', '>']) ++ next =
            '>' :: (used ++ '<' :: '/' :: '>' :: next) := by
          simp
        rw [htext]
        exact markupRest_succ_ok.mpr (.fragment hread)
  | element hname hread =>
    obtain ⟨rfl, hne, hlocal⟩ := tagName?_append hname
    obtain ⟨used, base, rfl, hused, rfl, hattributes⟩ := hclosed.attributes hread
    refine ⟨_ ++ used, base, (List.append_assoc _ _ _).symm, by simp [hused], rfl, ?_⟩
    intro m left next hm
    cases m with
    | zero => simp [hused] at hm
    | succ m =>
      have := List.length_pos_iff.mpr hne
      simp only [List.length_append] at hm
      rw [List.append_assoc]
      refine markupRest_succ_ok.mpr
        (.element (hlocal (used ++ next) ?_) (hattributes m left next (by omega)))
      exact head?_append_of_ne_nil hused

theorem AttributeStep.closed (hclosed : Closed n) (h : AttributeStep n cs slots (d :: rest)) :
    ∃ used base, cs = used ++ d :: rest ∧ used ≠ [] ∧
      slots = List.map (Slot.shift (d :: rest).length) base ∧
      ∀ m next, used.length ≤ m + 1 →
        AttributeStep m (used ++ d :: next) (List.map (Slot.shift (d :: next).length) base)
          (d :: next) := by
  cases h with
  | spread hcs hread =>
    obtain ⟨blank, rfl, hblank⟩ := dropBlank_eq_cons hcs
    obtain ⟨first, rfl, _, hgroup⟩ := hclosed.group hread
    refine ⟨blank ++ '\x7b' :: first, [⟨first.length, 1⟩], by simp, by simp, ?_, ?_⟩
    . rw [Slot.shift_append]
      rfl
    . intro m next hm
      simp only [List.length_append, List.length_cons] at hm
      rw [List.map_singleton, ← Slot.shift_append, List.append_assoc, List.cons_append]
      exact .spread (hblank _) (hgroup m _ _ (by omega))
  | slot hname hequal hvalue hread =>
    obtain ⟨before, rfl, hne, hattribute⟩ := attributeName?_local hname hequal
    obtain ⟨blank, rfl, hblank⟩ := dropBlank_eq_cons hvalue
    obtain ⟨first, rfl, _, hgroup⟩ := hclosed.group hread
    refine ⟨before ++ '=' :: (blank ++ '\x7b' :: first), [⟨first.length, 1⟩], by simp, by simp,
      ?_, ?_⟩
    . rw [Slot.shift_append]
      rfl
    . intro m next hm
      simp only [List.length_append, List.length_cons] at hm
      rw [List.map_singleton, ← Slot.shift_append, List.append_assoc, List.cons_append,
        List.append_assoc, List.cons_append]
      obtain ⟨after, hname, hafter⟩ := hattribute (blank ++ '\x7b' :: (first ++ d :: next))
      exact .slot hname hafter (hblank _) (hgroup m _ _ (by omega))
  | @text _ _ _ quote _ _ hname hequal hvalue hquote hread =>
    obtain ⟨before, rfl, hne, hattribute⟩ := attributeName?_local hname hequal
    obtain ⟨blank, rfl, hblank⟩ := dropBlank_eq_cons hvalue
    obtain ⟨word, rfl, hstring⟩ := attributeStringRest?_closed hread
    refine ⟨before ++ '=' :: (blank ++ quote :: word), [], by simp, by simp, rfl, ?_⟩
    intro m next hm
    rw [List.append_assoc, List.cons_append, List.append_assoc, List.cons_append]
    obtain ⟨after, hname, hafter⟩ := hattribute (blank ++ quote :: (word ++ d :: next))
    exact .text hname hafter (hblank _) hquote (hstring _)
  | bare hname hafter hequal =>
    obtain ⟨before, rfl, hne, hattribute⟩ := attributeName?_local hname hafter
    refine ⟨before, [], rfl, hne, rfl, ?_⟩
    intro m next hm
    obtain ⟨after, hname, hafter⟩ := hattribute next
    exact .bare hname hafter hequal

theorem Closed.attributes_succ (hclosed : Closed n)
    (h : attributesRest (n + 1) left tag cs = .ok (slots, rest)) :
    ∃ used base, cs = used ++ rest ∧ used ≠ [] ∧ slots = List.map (Slot.shift rest.length) base ∧
      ∀ m left next, used.length ≤ m →
        attributesRest m left tag (used ++ next) =
          .ok (List.map (Slot.shift next.length) base, next) := by
  rw [attributesRest_succ_ok] at h
  cases h with
  | single hcs =>
    obtain ⟨blank, rfl, hblank⟩ := dropBlank_eq_cons hcs
    refine ⟨blank ++ ['/', '>'], [], by simp, by simp, rfl, ?_⟩
    intro m left next hm
    cases m with
    | zero => simp at hm
    | succ m =>
      rw [List.append_assoc]
      exact attributesRest_succ_ok.mpr (.single (hblank ('>' :: next)))
  | children hcs hread hclose =>
    obtain ⟨blank, rfl, hblank⟩ := dropBlank_eq_cons hcs
    obtain ⟨used, base, more, rfl, rfl, rfl, hchildren⟩ := hclosed.children hread
    obtain ⟨closing, rfl, hclosing⟩ := closingTag_closed hclose
    refine ⟨blank ++ '>' :: (used ++ '<' :: '/' :: closing),
      base.map (Slot.shift ('<' :: '/' :: closing).length), by simp, by simp, ?_, ?_⟩
    . rw [← Slot.map_shift_append]
      rfl
    . intro m left next hm
      cases m with
      | zero => simp at hm
      | succ m =>
        simp only [List.length_append, List.length_cons] at hm
        have htext : blank ++ '>' :: (used ++ '<' :: '/' :: closing) ++ next
            = blank ++ '>' :: (used ++ '<' :: '/' :: (closing ++ next)) := by simp
        rw [htext, ← Slot.map_shift_append]
        exact attributesRest_succ_ok.mpr
          (.children (hblank _) (hchildren m left (closing ++ next) (by omega))
          (hclosing next))
  | more hfirst hread =>
    obtain ⟨used, base, rfl, hused, rfl, hattributes⟩ := hclosed.attributes hread
    obtain ⟨d, used, rfl⟩ := List.exists_cons_of_ne_nil hused
    obtain ⟨first, base', rfl, hne, rfl, hstep⟩ := hfirst.closed hclosed
    refine ⟨first ++ d :: used, base'.map (Slot.shift (d :: used).length) ++ base, by simp, by simp,
      ?_, ?_⟩
    . rw [List.map_append, ← Slot.map_shift_append]
      rfl
    . intro m left next hm
      cases m with
      | zero => simp at hm
      | succ m =>
        have := List.length_pos_iff.mpr hne
        simp only [List.length_append] at hm
        rw [List.append_assoc, List.map_append, ← Slot.map_shift_append]
        exact attributesRest_succ_ok.mpr
          (.more (hstep m (used ++ next) (by omega)) (hattributes m left next (by omega)))

theorem Closed.children_succ (hclosed : Closed n)
    (h : childrenRest (n + 1) left cs = .ok (slots, rest)) :
    ∃ used base more, cs = used ++ rest ∧ rest = '<' :: '/' :: more ∧
      slots = List.map (Slot.shift rest.length) base ∧
      ∀ m left next, used.length < m →
        childrenRest m left (used ++ '<' :: '/' :: next)
          = .ok (List.map (Slot.shift ('<' :: '/' :: next).length) base, '<' :: '/' :: next) := by
  rw [childrenRest_succ_ok] at h
  cases h with
  | stop =>
    refine ⟨[], [], _, rfl, rfl, rfl, ?_⟩
    intro m left next hm
    cases m with
    | zero => simp at hm
    | succ m => exact childrenRest_succ_ok.mpr .stop
  | slot hslot hread =>
    obtain ⟨first, rfl, _, hgroup⟩ := hclosed.group hslot
    obtain ⟨used, base, more, rfl, rfl, rfl, hchildren⟩ := hclosed.children hread
    refine ⟨'\x7b' :: (first ++ used), Slot.shift used.length ⟨first.length, 1⟩ :: base,
      more, by simp, rfl, ?_, ?_⟩
    . rw [Slot.shift_append]
      simp [Slot.shift, Nat.add_assoc]
    . intro m left next hm
      cases m with
      | zero => simp at hm
      | succ m =>
        simp only [List.length_append, List.length_cons] at hm
        have := childrenRest_succ_ok.mpr
          (.slot (hgroup m _ (used ++ '<' :: '/' :: next) (by omega))
            (hchildren m left next (by omega)))
        rw [Slot.shift_append] at this
        simpa [Slot.shift, Nat.add_assoc] using this
  | markup hclose hmarkup hread =>
    obtain ⟨first, base', rfl, hfirst, rfl, hmarkup'⟩ := hclosed.markup hmarkup
    obtain ⟨used, base, more, rfl, rfl, rfl, hchildren⟩ := hclosed.children hread
    refine ⟨'<' :: (first ++ used), base'.map (Slot.shift used.length) ++ base, more, by simp, rfl,
      ?_, ?_⟩
    . rw [List.map_append, ← Slot.map_shift_append]
    . intro m left next hm
      cases m with
      | zero => simp at hm
      | succ m =>
        simp only [List.length_append, List.length_cons] at hm
        have hhead : (first ++ (used ++ '<' :: '/' :: next)).head? ≠ some '/' := by
          rwa [head?_append_of_ne_nil hfirst] at hclose
        rw [List.map_append, ← Slot.map_shift_append, List.cons_append, List.append_assoc]
        exact childrenRest_succ_ok.mpr
          (.markup hhead (hmarkup' m _ (used ++ '<' :: '/' :: next) (by omega))
          (hchildren m left next (by omega)))
  | @char c _ _ _ hslot hmarkup hread =>
    obtain ⟨used, base, more, rfl, rfl, rfl, hchildren⟩ := hclosed.children hread
    refine ⟨c :: used, base, more, by simp, rfl, rfl, ?_⟩
    intro m left next hm
    cases m with
    | zero => simp at hm
    | succ m =>
      simp only [List.length_cons] at hm
      exact childrenRest_succ_ok.mpr (.char hslot hmarkup (hchildren m left next (by omega)))

theorem Closed.of_fuel (n : Nat) : Closed n := by
  induction n with
  | zero => exact Closed.zero
  | succ n ih =>
    exact ⟨ih.template_succ, ih.group_succ, ih.markup_succ, ih.attributes_succ, ih.children_succ⟩

/-! ### Fuel

A construct is read in the same way with any fuel that is not less than its length. -/

theorem groupRest_fuel (h : groupRest n bracket left opened operand cs = .ok rest)
    (hm : cs.length ≤ m + rest.length) (left' : Nat) :
    groupRest m bracket left' opened operand cs = .ok rest := by
  obtain ⟨used, rfl, _, hclosed⟩ := (Closed.of_fuel n).group h
  simp only [List.length_append] at hm
  exact hclosed m left' rest (by omega)

theorem markupRest_fuel (h : markupRest n left cs = .ok (slots, rest))
    (hm : cs.length ≤ m + rest.length) (left' : Nat) :
    markupRest m left' cs = .ok (slots, rest) := by
  obtain ⟨used, base, rfl, _, rfl, hclosed⟩ := (Closed.of_fuel n).markup h
  simp only [List.length_append] at hm
  exact hclosed m left' rest (by omega)

theorem attributesRest_fuel (h : attributesRest n left tag cs = .ok (slots, rest))
    (hm : cs.length ≤ m + rest.length) (left' : Nat) :
    attributesRest m left' tag cs = .ok (slots, rest) := by
  obtain ⟨used, base, rfl, _, rfl, hclosed⟩ := (Closed.of_fuel n).attributes h
  simp only [List.length_append] at hm
  exact hclosed m left' rest (by omega)

theorem childrenRest_fuel (h : childrenRest n left cs = .ok (slots, rest))
    (hm : cs.length < m + rest.length) (left' : Nat) :
    childrenRest m left' cs = .ok (slots, rest) := by
  obtain ⟨used, base, more, rfl, rfl, rfl, hclosed⟩ := (Closed.of_fuel n).children h
  simp only [List.length_append] at hm
  exact hclosed m left' more (by omega)

end Token
end ComponentCompiler
