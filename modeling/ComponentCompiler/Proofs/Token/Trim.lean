import ComponentCompiler.Proofs.Token.Slot

/-!
This module contains white space around a text. No token ends with white space, so a text that can
be read by itself still can when it is trimmed.
-/

namespace ComponentCompiler
namespace Token

variable {cs rest : List Char}

def blankCodes : List Nat :=
  List.range' 9 5 ++ List.range' 28 5 ++ List.range' 0x2000 11 ++
    [0x85, 0xa0, 0x1680, 0x2028, 0x2029, 0x202f, 0x205f, 0x3000]

theorem isNeutral_of_isBlank (h : Text.isBlank c = true) : isNeutral c = true := by
  have hcode : c.toNat ∈ blankCodes := by
    simp only [Text.isBlank, Bool.or_eq_true, Bool.and_eq_true, decide_eq_true_eq, beq_iff_eq] at h
    simp only [blankCodes, List.mem_append, List.mem_range'_1, List.mem_cons, List.not_mem_nil,
      or_false]
    omega
  have hall : ∀ n ∈ blankCodes, isNeutral (Char.ofNat n) = true := by decide +kernel
  have := hall _ hcode
  rwa [Char.ofNat_toNat] at this

theorem isBlank_of_not_isNeutral (h : isNeutral c = false) : Text.isBlank c = false := by
  cases hc : Text.isBlank c with
  | false => rfl
  | true => simp [isNeutral_of_isBlank hc] at h

def EndsSolid (cs rest : List Char) : Prop :=
  ∃ used last, cs = used ++ last :: rest ∧ Text.isBlank last = false

theorem EndsSolid.cons (c : Char) (h : EndsSolid cs rest) : EndsSolid (c :: cs) rest := by
  obtain ⟨used, last, rfl, hlast⟩ := h
  exact ⟨c :: used, last, rfl, hlast⟩

theorem EndsSolid.of_solid (hc : Text.isBlank c = false) (hused : ∀ d ∈ used, isNeutral d = false) :
    EndsSolid (c :: (used ++ rest)) rest := by
  rcases List.eq_nil_or_concat used with rfl | ⟨used, last, rfl⟩
  . exact ⟨[], c, rfl, hc⟩
  . exact ⟨c :: used, last, by simp, isBlank_of_not_isNeutral (hused last (by simp))⟩

theorem stringRest?_ends (h : stringRest? quote cs = some rest) :
    ∃ used, cs = used ++ quote :: rest := by
  fun_induction stringRest? quote cs with
  | case1 => simp at h
  | case2 => simp at h
  | case3 c cs ih =>
    obtain ⟨used, rfl⟩ := ih h
    exact ⟨'\\' :: c :: used, rfl⟩
  | case4 cs hescape =>
    cases h
    exact ⟨[], rfl⟩
  | case5 => simp at h
  | case6 c cs hescape hquote hnewline ih =>
    obtain ⟨used, rfl⟩ := ih h
    exact ⟨c :: used, rfl⟩

theorem regexRest?_ends (h : regexRest? inClass cs = some rest) : EndsSolid cs rest := by
  fun_induction regexRest? inClass cs with
  | case1 => simp at h
  | case2 => simp at h
  | case3 inClass c cs ih => exact ((ih h).cons c).cons '\\'
  | case4 => simp at h
  | case5 c cs hescape hnewline ih => exact (ih h).cons c
  | case6 inClass cs hclass hescape hnewline ih => exact (ih h).cons '['
  | case7 inClass cs hclass hescape hnewline hopen =>
    cases h
    obtain ⟨used, hcs, hsolid, _⟩ := localAt_dropWhile (fun _ => isFlag_of_isNeutral) cs
    have hends := @EndsSolid.of_solid (cs.dropWhile fun c => 'a' ≤ c && c ≤ 'z') '/' used
      (by decide) hsolid
    rwa [← hcs] at hends
  | case8 inClass c cs hescape hnewline hclass hopen hslash ih => exact (ih h).cons c

theorem templateRest_ends (h : templateRest n left cs = .ok rest) :
    ∃ used, cs = used ++ '\x60' :: rest := by
  induction n generalizing cs with
  | zero => simp [templateRest] at h
  | succ n ih =>
    rw [templateRest_succ_ok] at h
    cases h with
    | @escape _ more hread =>
      obtain ⟨used, hused⟩ := ih hread
      cases more with
      | nil => simp at hused
      | cons d more => exact ⟨'\\' :: d :: used, by simpa using hused⟩
    | stop => exact ⟨[], rfl⟩
    | slot hslot hread =>
      obtain ⟨content, rfl, _⟩ := balanced_of_groupRest hslot
      obtain ⟨used, rfl⟩ := ih hread
      exact ⟨'$' :: '\x7b' :: (content ++ Bracket.curly.closing :: used), by simp⟩
    | @char c more _ hescape hstop hslot hread =>
      obtain ⟨used, rfl⟩ := ih hread
      exact ⟨c :: used, rfl⟩

theorem closingTag_ends (h : closingTag tag cs = .ok rest) : ∃ used, cs = used ++ '>' :: rest := by
  obtain ⟨after, hname, hafter⟩ := closingTag_ok.mp h
  obtain ⟨blank, rfl, _⟩ := dropBlank_eq_cons hafter
  obtain ⟨more, hmore⟩ : blank ++ '>' :: rest <:+ cs := by
    have htag := (tagName?_append hname).1
    exact ((List.suffix_append tag _).trans (htag ▸ List.dropWhile_suffix _)).trans
      (List.drop_suffix 2 cs)
  exact ⟨more ++ blank, by simpa using hmore.symm⟩

theorem attributesRest_ends (h : attributesRest n left tag cs = .ok (slots, rest)) :
    ∃ used, cs = used ++ '>' :: rest := by
  induction n generalizing cs slots with
  | zero => simp [attributesRest] at h
  | succ n ih =>
    rw [attributesRest_succ_ok] at h
    cases h with
    | single hcs =>
      obtain ⟨blank, rfl, _⟩ := dropBlank_eq_cons hcs
      exact ⟨blank ++ ['/'], by simp⟩
    | @children content _ after _ hcs hread hclose =>
      obtain ⟨used, rfl⟩ := closingTag_ends hclose
      obtain ⟨mid, _, _, rfl, _⟩ := (Closed.of_fuel n).children hread
      obtain ⟨blank, rfl, _⟩ := dropBlank_eq_cons hcs
      exact ⟨blank ++ '>' :: (mid ++ used), by simp⟩
    | more hfirst hread =>
      obtain ⟨used, rfl⟩ := ih hread
      obtain ⟨pre, rfl⟩ := hfirst.within.1
      exact ⟨pre ++ used, by simp⟩

theorem markupRest_ends (h : markupRest n left cs = .ok (slots, rest)) :
    ∃ used, cs = used ++ '>' :: rest := by
  cases n with
  | zero => simp [markupRest] at h
  | succ n =>
    rw [markupRest_succ_ok] at h
    cases h with
    | fragment hread =>
      obtain ⟨mid, _, _, rfl, _⟩ := (Closed.of_fuel n).children hread
      exact ⟨'>' :: (mid ++ ['<', '/']), by simp⟩
    | @element _ tag after _ _ hname hread =>
      obtain ⟨used, rfl⟩ := attributesRest_ends hread
      rw [(tagName?_append hname).1]
      exact ⟨tag ++ used, by simp⟩

theorem lexeme_ends {kind : Kind} (hc : Text.isBlank c = false)
    (h : lexeme (templateRest n) (markupRest n) operand c cs = .ok (kind, rest)) :
    EndsSolid (c :: cs) rest := by
  rw [lexeme_ok] at h
  cases h with
  | string hquote hread =>
    obtain ⟨used, rfl⟩ := stringRest?_ends hread
    exact ⟨c :: used, c, rfl, hc⟩
  | template htick hread =>
    obtain ⟨used, rfl⟩ := templateRest_ends hread
    exact ⟨c :: used, '\x60', rfl, by decide⟩
  | number hnumber =>
    obtain ⟨used, hcs, hsolid, _⟩ := numberRest_local hnumber
    simp only [List.mem_cons, forall_eq_or_imp] at hsolid
    have hends := @EndsSolid.of_solid (numberRest (c :: cs)) c used hc hsolid.2
    rwa [← hcs] at hends
  | name hname =>
    obtain ⟨used, hcs, hsolid, _⟩ := localAt_nameRest cs
    have hends := @EndsSolid.of_solid (nameRest cs) c used hc hsolid
    rwa [← hcs] at hends
  | markup hopen hoperand hlooks hread =>
    obtain ⟨used, rfl⟩ := markupRest_ends hread
    exact ⟨c :: used, '>', rfl, by decide⟩
  | regex hslash hoperand hread => exact (regexRest?_ends hread).cons c
  | operator hquote hnumber hname hmarkup hregex =>
    obtain ⟨used, hcs, hsolid, _⟩ := operatorRest_local c cs
    have hends := @EndsSolid.of_solid (operatorRest (c :: cs)) c used hc hsolid
    rwa [← hcs] at hends

theorem Word.Starts.begins {w : Word} (h : w.Starts operand rest) :
    ∃ c more, w.text = c :: more ∧ Text.isBlank c = false := by
  obtain ⟨hgap, c, more, htext, _⟩ := h
  rw [htext] at hgap
  exact ⟨c, more, htext, (afterGap_token hgap).1⟩

theorem Word.Starts.ends {w : Word} (h : w.Starts operand rest) :
    ∃ used last, w.text = used ++ [last] ∧ Text.isBlank last = false := by
  obtain ⟨hgap, c, more, htext, hread⟩ := h
  rw [htext] at hgap
  obtain ⟨used, last, hused, hlast⟩ := lexeme_ends (afterGap_token hgap).1 (hread _ (Nat.le_refl _))
  refine ⟨used, last, ?_, hlast⟩
  rw [htext]
  exact List.append_cancel_right (by simpa using hused)

namespace afterGap

theorem go_newline (h : go gap newline cs = .ok (found, rest)) :
    ∃ seen, found = (newline || seen) ∧
      ∀ before, go gap before cs = .ok (before || seen, rest) := by
  fun_induction go gap newline cs with
  | case1 =>
    cases h
    exact ⟨false, by simp, by simp [go]⟩
  | case2 =>
    cases h
    exact ⟨false, by simp, by simp [go]⟩
  | case3 =>
    cases h
    exact ⟨false, by simp, by simp [go]⟩
  | case4 => simp at h
  | case5 newline c cs hblank ih =>
    obtain ⟨seen, rfl, hread⟩ := ih h
    refine ⟨c == '\n' || seen, Bool.or_assoc _ _ _, ?_⟩
    intro before
    rw [go, if_pos hblank, hread, Bool.or_assoc]
  | case6 newline cs hblank ih =>
    obtain ⟨seen, hfound, ih⟩ := ih h
    refine ⟨seen, hfound, ?_⟩
    intro before
    rw [go, if_neg hblank, if_pos rfl, ih]
  | case7 newline c cs hblank hslash =>
    cases h
    refine ⟨false, by simp, ?_⟩
    intro before
    rw [go, if_neg hblank, if_neg hslash, Bool.or_false]
  | case8 newline cs ih =>
    obtain ⟨seen, hfound, ih⟩ := ih h
    refine ⟨seen, hfound, ?_⟩
    intro before
    rw [go, if_pos rfl, ih]
  | case9 newline cs hslash ih =>
    obtain ⟨seen, hfound, ih⟩ := ih h
    refine ⟨seen, hfound, ?_⟩
    intro before
    rw [go, if_neg hslash, if_pos rfl, ih]
  | case10 newline c cs hslash hstar =>
    cases h
    refine ⟨false, by simp, ?_⟩
    intro before
    rw [go, if_neg hslash, if_neg hstar, Bool.or_false]
  | case11 newline cs ih =>
    obtain ⟨seen, rfl, hread⟩ := ih h
    refine ⟨true, by simp, ?_⟩
    intro before
    rw [go, if_pos rfl, hread, Bool.true_or, Bool.or_true]
  | case12 newline c cs hnewline ih =>
    obtain ⟨seen, hfound, ih⟩ := ih h
    refine ⟨seen, hfound, ?_⟩
    intro before
    rw [go, if_neg hnewline, ih]
  | case13 start star newline c cs hstop ih =>
    obtain ⟨seen, hfound, ih⟩ := ih h
    refine ⟨seen, hfound, ?_⟩
    intro before
    rw [go, if_pos hstop, ih]
  | case14 start star newline c cs hstop ih =>
    obtain ⟨seen, rfl, hread⟩ := ih h
    refine ⟨c == '\n' || seen, Bool.or_assoc _ _ _, ?_⟩
    intro before
    rw [go, if_neg hstop, hread, Bool.or_assoc]

theorem go_block_blank {star : Bool} (h : ∀ c ∈ cs, Text.isBlank c = true) :
    go (.block left star) newline cs ≠ .ok r := by
  induction cs generalizing star newline with
  | nil => simp [go]
  | cons c cs ih =>
    simp only [List.mem_cons, forall_eq_or_imp] at h
    have hc : (star && c == '/') = false := by
      simp only [Bool.and_eq_false_iff, beq_eq_false_iff_ne]
      right
      rintro rfl
      simp [isBlank_slash] at h
    simp only [go, hc, Bool.false_eq_true, if_false]
    exact ih h.2

theorem go_of_append_blank (hblank : ∀ c ∈ blank, Text.isBlank c = true)
    (h : go gap newline (cs ++ blank) = .ok (found, [])) (left : Nat) :
    ∃ found', go (withLeft left gap) newline cs = .ok (found', []) := by
  induction cs generalizing gap newline left with
  | nil =>
    cases gap with
    | blank => exact ⟨_, rfl⟩
    | line => exact ⟨_, rfl⟩
    | block left star => exact absurd h (go_block_blank hblank)
    | slash =>
      cases blank with
      | nil => simp [go] at h
      | cons c blank =>
        have hc : c ≠ '/' ∧ c ≠ '*' := by
          have := hblank c List.mem_cons_self
          constructor <;> (rintro rfl; simp [Text.isBlank] at this)
        simp [go, hc] at h
  | cons c cs ih =>
    rw [List.cons_append] at h
    cases gap with
    | blank =>
      simp only [go, withLeft] at h ⊢
      by_cases hc : Text.isBlank c = true
      . rw [if_pos hc] at h ⊢
        exact ih h left
      . rw [if_neg hc] at h ⊢
        by_cases hslash : c = '/'
        . rw [if_pos hslash] at h ⊢
          exact ih h left
        . simp [hslash] at h
    | line =>
      simp only [go, withLeft] at h ⊢
      by_cases hc : c = '\n'
      . rw [if_pos hc] at h ⊢
        exact ih h left
      . rw [if_neg hc] at h ⊢
        exact ih h left
    | block start star =>
      simp only [go, withLeft] at h ⊢
      by_cases hc : (star && c == '/') = true
      . rw [if_pos hc] at h ⊢
        exact ih h left
      . rw [if_neg hc] at h ⊢
        exact ih h left
    | slash =>
      simp only [go, withLeft] at h ⊢
      by_cases hslash : c = '/'
      . rw [if_pos hslash] at h ⊢
        exact ih h left
      . rw [if_neg hslash] at h ⊢
        by_cases hstar : c = '*'
        . rw [if_pos hstar] at h ⊢
          exact ih h _
        . simp [hstar] at h

theorem go_dropBlank (h : go .blank newline cs = .ok (found, rest)) :
    ∃ found', go .blank false (Text.dropBlank cs) = .ok (found', rest) := by
  induction cs generalizing newline with
  | nil =>
    obtain ⟨seen, _, hread⟩ := go_newline h
    exact ⟨seen, hread false⟩
  | cons c cs ih =>
    by_cases hc : Text.isBlank c = true
    . rw [go, if_pos hc] at h
      rw [Text.dropBlank, List.dropWhile_cons_of_pos hc]
      exact ih h
    . obtain ⟨seen, _, hread⟩ := go_newline h
      rw [Text.dropBlank, List.dropWhile_cons_of_neg hc]
      exact ⟨seen, hread false⟩

end afterGap

theorem dropBlankEnd_eq (cs : List Char) :
    ∃ blank, cs = Text.dropBlankEnd cs ++ blank ∧ ∀ c ∈ blank, Text.isBlank c = true := by
  refine ⟨(cs.reverse.takeWhile Text.isBlank).reverse, ?_, ?_⟩
  . rw [Text.dropBlankEnd, ← List.reverse_append, List.takeWhile_append_dropWhile,
      List.reverse_reverse]
  . intro c hc
    exact List.mem_takeWhile_imp (List.mem_reverse.mp hc)

theorem dropBlankEnd_append (cs : List Char) (hlast : Text.isBlank last = false) :
    Text.dropBlankEnd (used ++ last :: cs) = used ++ last :: Text.dropBlankEnd cs := by
  simp only [Text.dropBlankEnd, List.reverse_append, List.reverse_cons, List.append_assoc]
  rw [List.dropWhile_append]
  split
  next hnil =>
    rw [List.isEmpty_iff] at hnil
    simp [hnil, hlast]
  next => simp

theorem dropBlankEnd_cons (hc : Text.isBlank c = false) (cs : List Char) :
    Text.dropBlankEnd (c :: cs) = c :: Text.dropBlankEnd cs :=
  @dropBlankEnd_append c [] cs hc

theorem GapBefore.dropBlankEnd (h : GapBefore gap []) : GapBefore (Text.dropBlankEnd gap) [] := by
  rcases h with rfl | ⟨newline, h⟩
  . exact .inl rfl
  . obtain ⟨blank, hgap, hblank⟩ := dropBlankEnd_eq gap
    rw [List.append_nil, hgap] at h
    obtain ⟨found, h⟩ := afterGap.go_of_append_blank hblank h 0
    exact .inr ⟨found, by rw [List.append_nil]; exact h⟩

theorem GapBefore.dropBlank (h : GapBefore gap []) : GapBefore (Text.dropBlank gap) [] := by
  rcases h with rfl | ⟨newline, h⟩
  . exact .inl rfl
  . rw [List.append_nil] at h
    obtain ⟨found, h⟩ := afterGap.go_dropBlank h
    exact .inr ⟨found, by rw [List.append_nil]; exact h⟩

theorem Run.ends (h : Run operand ws rest) (hne : ws ≠ []) :
    ∃ used last, charsOf ws = used ++ [last] ∧ Text.isBlank last = false := by
  obtain ⟨pre, w, rfl⟩ := (List.eq_nil_or_concat ws).resolve_left hne
  rw [List.concat_eq_append] at h ⊢
  obtain ⟨used, last, htext, hlast⟩ := (run_append.mp h).2.1.ends
  exact ⟨charsOf pre ++ (w.gap ++ used), last, by simp [Word.chars, htext], hlast⟩

theorem Balanced.dropBlankEnd (h : Balanced cs) : Balanced (Text.dropBlankEnd cs) := by
  obtain ⟨ws, gap, rfl, hrun, hnesting, hgap⟩ := h
  have hrun' : Run true ws (Text.dropBlankEnd gap) := by
    obtain ⟨blank, hblank, _⟩ := dropBlankEnd_eq gap
    exact hrun.agrees (.of_initial ⟨blank, hblank.symm⟩)
  refine ⟨ws, Text.dropBlankEnd gap, ?_, hrun', hnesting, hgap.dropBlankEnd⟩
  by_cases hne : ws = []
  . simp [hne]
  . obtain ⟨used, last, hchars, hlast⟩ := hrun.ends hne
    rw [hchars, List.append_assoc, List.append_assoc]
    exact dropBlankEnd_append gap hlast

theorem dropBlank_append (cs : List Char) (hc : Text.isBlank c = false) :
    Text.dropBlank (used ++ c :: cs) = Text.dropBlank used ++ c :: cs := by
  rw [Text.dropBlank, List.dropWhile_append]
  split
  next hnil =>
    rw [List.isEmpty_iff] at hnil
    rw [List.dropWhile_cons_of_neg (by simp [hc]), Text.dropBlank, hnil, List.nil_append]
  next => rfl

theorem Balanced.dropBlank (h : Balanced cs) : Balanced (Text.dropBlank cs) := by
  obtain ⟨ws, gap, rfl, hrun, hnesting, hgap⟩ := h
  cases ws with
  | nil => exact ⟨[], Text.dropBlank gap, rfl, trivial, hnesting, hgap.dropBlank⟩
  | cons w ws =>
    obtain ⟨hstarts, hrun⟩ := hrun
    obtain ⟨c, more, htext, hread⟩ := hstarts.text
    have hskip := hstarts.gap
    rw [htext, List.cons_append] at hskip
    have hblank := (afterGap_token hskip).1
    obtain ⟨found, hskip⟩ := afterGap.go_dropBlank hskip
    rw [dropBlank_append _ hblank] at hskip
    refine ⟨⟨Text.dropBlank w.gap, w.kind, w.text, found⟩ :: ws, gap, ?_,
      ⟨⟨?_, hstarts.text⟩, hrun⟩,
      hnesting, hgap⟩
    . simp only [charsOf_cons, Word.chars, htext, List.append_assoc, List.cons_append]
      exact dropBlank_append _ hblank
    . simp only [htext, List.cons_append]
      exact hskip

theorem Balanced.trim {text : String} (h : Balanced text.toList) :
    Balanced (Text.trim text).toList := by
  rw [Text.trim, String.toList_ofList]
  exact h.dropBlank.dropBlankEnd

theorem lexeme_spread (template markup operand) (cs : List Char) :
    lexeme template markup operand '.' ('.' :: '.' :: cs) = .ok (.punct, cs) := by
  have hrest : operatorRest ('.' :: '.' :: '.' :: cs) = cs := by
    simp [operatorRest, operators]
    rfl
  simp [lexeme, hrest, isNameStart, Text.isAsciiDigit, Text.isAsciiLetter]

theorem Balanced.of_spread (h : Balanced ('.' :: '.' :: '.' :: cs)) : Balanced cs := by
  obtain ⟨ws, gap, hcs, hrun, hnesting, hgap⟩ := h
  have hskip : afterGap false ('.' :: '.' :: '.' :: cs) = .ok (false, '.' :: '.' :: '.' :: cs) :=
    afterGap_of_token (by decide) rfl
  cases ws with
  | nil =>
    rw [charsOf_nil, List.nil_append] at hcs
    rcases hgap with rfl | ⟨newline, hgap⟩
    . simp at hcs
    . rw [List.append_nil, ← hcs, hskip] at hgap
      simp at hgap
  | cons w ws =>
    obtain ⟨⟨hword, c, more, htext, hread⟩, hrun⟩ := hrun
    obtain ⟨d, opened, hhead, hnests, hnesting⟩ := hnesting
    simp only [charsOf_cons, Word.chars, List.append_assoc] at hcs
    rw [← hcs, hskip, htext, List.cons_append] at hword
    simp only [Except.ok.injEq, Prod.mk.injEq, List.cons.injEq] at hword
    obtain ⟨_, rfl, hmore⟩ := hword
    have hread := hread _ (Nat.le_refl _)
    rw [← hmore, lexeme_spread] at hread
    simp only [Except.ok.injEq, Prod.mk.injEq] at hread
    obtain ⟨hkind, hrest⟩ := hread
    have hdots : more = ['.', '.'] := by
      rw [← hrest] at hmore
      exact (@List.append_cancel_right _ ['.', '.'] _ _ hmore).symm
    have hoperand : w.operandAfter = true := by
      rw [Word.operandAfter, ← hkind, htext, hdots]
      decide
    obtain rfl : opened = [] := by
      rw [htext] at hhead
      cases hhead
      have hopen : Bracket.ofOpening? '.' = none := rfl
      have hclose : Bracket.ofClosing? '.' = none := rfl
      cases hnests with
      | opening h => simp [hopen] at h
      | other => rfl
    rw [hoperand] at hrun
    exact ⟨ws, gap, hrest, hrun, hnesting, hgap⟩

end Token
end ComponentCompiler
