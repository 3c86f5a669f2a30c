import ComponentCompiler.Proofs.Token.Local

/-!
This module contains the locality of operators, strings, regular expressions and gaps. A string ends
by itself, so that nothing after it matters; an operator and the flags of a regular expression end
where nothing continues them.
-/

namespace ComponentCompiler
namespace Token

theorem initial_of_agrees {word : List Char} (hword : ∀ c ∈ word, c ∈ operatorChars)
    (h : Agrees rest next) (hnext : word <+: next) : word <+: rest := by
  induction word generalizing rest next with
  | nil => exact List.nil_prefix
  | cons c word ih =>
    obtain ⟨more, rfl⟩ := hnext
    rcases h.cons_inv with hneutral | ⟨rest, rfl, hmore⟩
    . have := not_mem_operatorChars_of_isNeutral hneutral
      exact absurd (hword c List.mem_cons_self) this
    . rw [List.cons_prefix_cons]
      refine ⟨rfl, ih ?_ hmore (List.prefix_append word more)⟩
      intro d hd
      exact hword d (List.mem_cons_of_mem c hd)

theorem operators_ne_nil : ∀ op ∈ operators, op.toList ≠ [] := by
  have hall : operators.all (!·.toList.isEmpty) = true := rfl
  simpa using hall

theorem find?_operators_of_agrees (h : Agrees rest next)
    (hfind : operators.find? (fun op => op.toList.isPrefixOf rest) = found)
    (hkeep : ∀ op, found = some op → op.toList <+: next) :
    operators.find? (fun op => op.toList.isPrefixOf next) = found := by
  have himp (op : String) (hop : op ∈ operators) (hnext : op.toList <+: next) :
      op.toList <+: rest := by
    exact initial_of_agrees (mem_operatorChars_of_mem_operators op hop) h hnext
  cases found with
  | none =>
    rw [List.find?_eq_none] at hfind ⊢
    intro op hop hnext
    apply hfind op hop
    rw [List.isPrefixOf_iff_prefix] at hnext ⊢
    exact himp op hop hnext
  | some op =>
    rw [List.find?_eq_some_iff_append] at hfind ⊢
    obtain ⟨_, before, after, hsplit, hbefore⟩ := hfind
    refine ⟨?_, before, after, hsplit, ?_⟩
    . rw [List.isPrefixOf_iff_prefix]
      exact hkeep op rfl
    . intro other hother
      cases hp : other.toList.isPrefixOf next with
      | false => rfl
      | true =>
        have hmem : other ∈ operators := by
          rw [hsplit]
          exact List.mem_append_left _ hother
        have := hbefore other hother
        rw [List.isPrefixOf_iff_prefix] at hp
        rw [List.isPrefixOf_iff_prefix.mpr (himp other hmem hp)] at this
        simp at this

theorem operatorRest_local (c : Char) (cs : List Char) :
    ∃ used, cs = used ++ operatorRest (c :: cs) ∧ (∀ d ∈ used, isNeutral d = false) ∧
      ∀ next, Agrees (operatorRest (c :: cs)) next → operatorRest (c :: (used ++ next)) = next := by
  cases hfind : operators.find? (fun op => op.toList.isPrefixOf (c :: cs)) with
  | none =>
    have hrest : operatorRest (c :: cs) = cs := by simp [operatorRest, hfind]
    refine ⟨[], by simp [hrest], by simp, ?_⟩
    rw [hrest]
    intro next hnext
    have := find?_operators_of_agrees hnext.cons hfind (by simp)
    simp [operatorRest, this]
  | some op =>
    have hmem := List.mem_of_find?_eq_some hfind
    have hinitial := List.find?_some hfind
    rw [List.isPrefixOf_iff_prefix] at hinitial
    obtain ⟨rest, hrest⟩ := hinitial
    obtain ⟨d, used, hop⟩ := List.exists_cons_of_ne_nil (operators_ne_nil op hmem)
    rw [hop] at hrest
    simp only [List.cons_append, List.cons.injEq] at hrest
    obtain ⟨rfl, rfl⟩ := hrest
    have hlength : op.length = used.length + 1 := by
      rw [← String.length_toList]
      simp [hop]
    have hread : operatorRest (d :: (used ++ rest)) = rest := by
      simp [operatorRest, hfind, hlength]
    refine ⟨used, by rw [hread], ?_, ?_⟩
    . intro e he
      have := mem_operatorChars_of_mem_operators op hmem e (by simp [hop, he])
      simp [isNeutral, this]
    rw [hread]
    intro next hnext
    have := find?_operators_of_agrees (hnext.append used).cons hfind (by
      intro other hother
      cases hother
      rw [hop, ← List.cons_append]
      exact List.prefix_append _ _)
    simp [operatorRest, this, hlength]

theorem operatorRest_of_not_mem (h : c ∉ operatorChars) : operatorRest (c :: cs) = cs := by
  have hfind : operators.find? (fun op => op.toList.isPrefixOf (c :: cs)) = none := by
    rw [List.find?_eq_none]
    intro op hop hinitial
    rw [List.isPrefixOf_iff_prefix] at hinitial
    obtain ⟨d, word, hword⟩ := List.exists_cons_of_ne_nil (operators_ne_nil op hop)
    have hmem := mem_operatorChars_of_mem_operators op hop d (by simp [hword])
    rw [hword, List.cons_prefix_cons] at hinitial
    exact h (hinitial.1 ▸ hmem)
  simp [operatorRest, hfind]

theorem stringRest?_cons (hescape : c ≠ '\\') :
    stringRest? quote (c :: cs)
      =
    if c = quote then some cs else if c = '\n' then none else stringRest? quote cs := by
  conv => lhs; unfold stringRest?
  simp [hescape]

theorem stringRest?_closed (h : stringRest? quote cs = some rest) :
    ∃ used, cs = used ++ rest ∧ ∀ next, stringRest? quote (used ++ next) = some next := by
  fun_induction stringRest? quote cs with
  | case1 => simp at h
  | case2 => simp at h
  | case3 c cs ih =>
    obtain ⟨used, rfl, hread⟩ := ih h
    refine ⟨'\\' :: c :: used, rfl, ?_⟩
    intro next
    simp [stringRest?, hread]
  | case4 cs hescape =>
    cases h
    refine ⟨[quote], rfl, ?_⟩
    intro next
    simp [stringRest?_cons hescape]
  | case5 => simp at h
  | case6 c cs hescape hquote hnewline ih =>
    obtain ⟨used, rfl, hread⟩ := ih h
    refine ⟨c :: used, rfl, ?_⟩
    intro next
    simp [stringRest?_cons hescape, hquote, hnewline, hread]

theorem attributeStringRest?_closed (h : attributeStringRest? quote cs = some rest) :
    ∃ used, cs = used ++ rest ∧ ∀ next, attributeStringRest? quote (used ++ next) = some next := by
  fun_induction attributeStringRest? quote cs with
  | case1 => simp at h
  | case2 cs =>
    cases h
    refine ⟨[quote], rfl, ?_⟩
    intro next
    simp [attributeStringRest?]
  | case3 c cs hquote ih =>
    obtain ⟨used, rfl, hread⟩ := ih h
    refine ⟨c :: used, rfl, ?_⟩
    intro next
    simp [attributeStringRest?, hquote, hread]

theorem isFlag_of_isNeutral (h : isNeutral c = true) : ('a' ≤ c && c ≤ 'z') = false := by
  have := isAsciiLetter_of_isNeutral h
  simp only [Text.isAsciiLetter, Bool.or_eq_false_iff] at this
  exact this.2

theorem regexRest?_cons (hescape : c ≠ '\\') (hnewline : c ≠ '\n') :
    regexRest? inClass (c :: cs)
      =
    if inClass then regexRest? (c ≠ ']') cs
    else if c = '[' then regexRest? true cs
    else if c = '/' then some (cs.dropWhile fun c => 'a' ≤ c && c ≤ 'z')
    else regexRest? false cs := by
  conv => lhs; unfold regexRest?
  simp [hescape, hnewline]

theorem regexRest?_local (h : regexRest? inClass cs = some rest) :
    ∃ used, cs = used ++ rest ∧
      ∀ next, Agrees rest next → regexRest? inClass (used ++ next) = some next := by
  fun_induction regexRest? inClass cs with
  | case1 => simp at h
  | case2 => simp at h
  | case3 inClass c cs ih =>
    obtain ⟨used, rfl, hread⟩ := ih h
    refine ⟨'\\' :: c :: used, rfl, ?_⟩
    intro next hnext
    simp [regexRest?, hread next hnext]
  | case4 => simp at h
  | case5 c cs hescape hnewline ih =>
    obtain ⟨used, rfl, hread⟩ := ih h
    refine ⟨c :: used, rfl, ?_⟩
    intro next hnext
    rw [List.cons_append, regexRest?_cons hescape hnewline]
    exact hread next hnext
  | case6 inClass cs hclass hescape hnewline ih =>
    obtain ⟨used, rfl, hread⟩ := ih h
    refine ⟨'[' :: used, rfl, ?_⟩
    intro next hnext
    rw [List.cons_append, regexRest?_cons hescape hnewline]
    simp [hclass, hread next hnext]
  | case7 inClass cs hclass hescape hnewline hopen =>
    cases h
    obtain ⟨used, hcs, _, hread⟩ := localAt_dropWhile (fun _ => isFlag_of_isNeutral) cs
    refine ⟨'/' :: used, by rw [List.cons_append, ← hcs], ?_⟩
    intro next hnext
    rw [List.cons_append, regexRest?_cons hescape hnewline]
    simp [hclass, hread next hnext]
  | case8 inClass c cs hescape hnewline hclass hopen hslash ih =>
    obtain ⟨used, rfl, hread⟩ := ih h
    refine ⟨c :: used, rfl, ?_⟩
    intro next hnext
    rw [List.cons_append, regexRest?_cons hescape hnewline]
    simp [hclass, hopen, hslash, hread next hnext]

def opensComment (c : Char) (cs : List Char) : Bool :=
  c == '/' && cs.head?.any fun d => d == '/' || d == '*'

namespace afterGap

theorem isBlank_slash : Text.isBlank '/' = false := by
  decide

theorem go_blank_token (hblank : Text.isBlank c = false) (hcomment : opensComment c cs = false) :
    go .blank newline (c :: cs) = .ok (newline, c :: cs) := by
  by_cases hc : c = '/'
  . subst hc
    cases cs with
    | nil => simp [go, isBlank_slash]
    | cons d cs =>
      simp only [opensComment, List.head?_cons, Option.any_some, beq_self_eq_true, Bool.true_and,
        Bool.or_eq_false_iff, beq_eq_false_iff_ne] at hcomment
      simp [go, isBlank_slash, hcomment]
  . simp [go, hblank, hc]

def withLeft (left : Nat) : Gap → Gap
  | .blank => .blank
  | .slash => .slash
  | .line => .line
  | .block _ star => .block left star

/-- A slash that opens no comment is not part of the gap; otherwise the gap that is left is passed
over in the same way whatever follows it. -/
theorem go_append (h : go gap newline cs = .ok (newline', c :: more)) :
    (gap = .slash ∧ c :: more = '/' :: cs ∧ newline' = newline) ∨
    ∃ used, cs = used ++ c :: more ∧ ∀ left rest,
      go (withLeft left gap) newline (used ++ rest) = go .blank newline' rest := by
  fun_induction go gap newline cs with
  | case1 => simp at h
  | case2 => simp at h
  | case3 newline =>
    cases h
    exact .inl ⟨rfl, rfl, rfl⟩
  | case4 => simp at h
  | case5 newline d cs hblank ih =>
    rcases ih h with ⟨hgap, _⟩ | ⟨used, rfl, hread⟩
    . simp at hgap
    . refine .inr ⟨d :: used, rfl, ?_⟩
      intro left rest
      rw [List.cons_append, withLeft, go, if_pos hblank]
      exact hread left rest
  | case6 newline cs hblank ih =>
    rcases ih h with ⟨_, hmore, rfl⟩ | ⟨used, rfl, hread⟩
    . exact .inr ⟨[], hmore.symm, fun _ _ => rfl⟩
    . refine .inr ⟨'/' :: used, rfl, ?_⟩
      intro left rest
      rw [List.cons_append, withLeft, go, if_neg hblank, if_pos rfl]
      exact hread left rest
  | case7 newline d cs =>
    cases h
    exact .inr ⟨[], rfl, fun _ _ => rfl⟩
  | case8 newline cs ih =>
    rcases ih h with ⟨hgap, _⟩ | ⟨used, rfl, hread⟩
    . simp at hgap
    . refine .inr ⟨'/' :: used, rfl, ?_⟩
      intro left rest
      rw [List.cons_append, withLeft, go, if_pos rfl]
      exact hread left rest
  | case9 newline cs hslash ih =>
    rcases ih h with ⟨hgap, _⟩ | ⟨used, rfl, hread⟩
    . simp at hgap
    . refine .inr ⟨'*' :: used, rfl, ?_⟩
      intro left rest
      rw [List.cons_append, withLeft, go, if_neg hslash, if_pos rfl]
      exact hread _ rest
  | case10 newline d cs =>
    cases h
    exact .inl ⟨rfl, rfl, rfl⟩
  | case11 newline cs ih =>
    rcases ih h with ⟨hgap, _⟩ | ⟨used, rfl, hread⟩
    . simp at hgap
    . refine .inr ⟨'\n' :: used, rfl, ?_⟩
      intro left rest
      rw [List.cons_append, withLeft, go, if_pos rfl]
      exact hread left rest
  | case12 newline d cs hnewline ih =>
    rcases ih h with ⟨hgap, _⟩ | ⟨used, rfl, hread⟩
    . simp at hgap
    . refine .inr ⟨d :: used, rfl, ?_⟩
      intro left rest
      rw [List.cons_append, withLeft, go, if_neg hnewline]
      exact hread left rest
  | case13 start star newline d cs hstop ih =>
    rcases ih h with ⟨hgap, _⟩ | ⟨used, rfl, hread⟩
    . simp at hgap
    . refine .inr ⟨d :: used, rfl, ?_⟩
      intro left rest
      rw [List.cons_append, withLeft, go, if_pos hstop]
      exact hread left rest
  | case14 start star newline d cs hstop ih =>
    rcases ih h with ⟨hgap, _⟩ | ⟨used, rfl, hread⟩
    . simp at hgap
    . refine .inr ⟨d :: used, rfl, ?_⟩
      intro left rest
      rw [List.cons_append, withLeft, go, if_neg hstop]
      exact hread left rest

theorem go_token (h : go gap newline cs = .ok (newline', c :: more)) :
    Text.isBlank c = false ∧ opensComment c more = false := by
  fun_induction go gap newline cs with
  | case1 => simp at h
  | case2 => simp at h
  | case3 newline =>
    cases h
    exact ⟨isBlank_slash, rfl⟩
  | case4 => simp at h
  | case5 newline d cs hblank ih => exact ih h
  | case6 newline cs hblank ih => exact ih h
  | case7 newline d cs hblank hslash =>
    cases h
    exact ⟨by simpa using hblank, by simp [opensComment, hslash]⟩
  | case8 newline cs ih => exact ih h
  | case9 newline cs hslash ih => exact ih h
  | case10 newline d cs hslash hstar =>
    cases h
    exact ⟨isBlank_slash, by simp [opensComment, hslash, hstar]⟩
  | case11 newline cs ih => exact ih h
  | case12 newline d cs hnewline ih => exact ih h
  | case13 start star newline d cs hstop ih => exact ih h
  | case14 start star newline d cs hstop ih => exact ih h

end afterGap

theorem afterGap_append (h : afterGap newline cs = .ok (newline', c :: more)) :
    ∃ used, cs = used ++ c :: more ∧
      ∀ rest, afterGap newline (used ++ rest) = afterGap newline' rest := by
  rcases afterGap.go_append h with ⟨hgap, _⟩ | ⟨used, hcs, hread⟩
  . simp at hgap
  . exact ⟨used, hcs, fun rest => hread 0 rest⟩

theorem afterGap_token (h : afterGap newline cs = .ok (newline', c :: more)) :
    Text.isBlank c = false ∧ opensComment c more = false := by
  exact afterGap.go_token h

theorem afterGap_of_token (hblank : Text.isBlank c = false)
    (hcomment : opensComment c more = false) :
    afterGap newline (c :: more) = .ok (newline, c :: more) := by
  exact afterGap.go_blank_token hblank hcomment

/-- A gap before a token is passed over in the same way whatever follows the first character of the
token, as long as no comment starts with that character. -/
theorem afterGap_local (h : afterGap newline cs = .ok (newline', c :: more)) :
    ∃ gap, cs = gap ++ c :: more ∧
      ∀ next, opensComment c next = false →
        afterGap newline (gap ++ c :: next) = .ok (newline', c :: next) := by
  obtain ⟨gap, hcs, hgap⟩ := afterGap_append h
  refine ⟨gap, hcs, ?_⟩
  intro next hnext
  rw [hgap]
  exact afterGap_of_token (afterGap_token h).1 hnext

theorem opensComment_of_agrees (h : Agrees rest next) (hrest : opensComment c rest = false) :
    opensComment c next = false := by
  have hneutral (d : Char) (hd : isNeutral d = true) : (d == '/' || d == '*') = false := by
    have := not_mem_operatorChars_of_isNeutral hd
    simp only [operatorChars, List.mem_cons, List.not_mem_nil, or_false, not_or] at this
    simp [this]
  cases hc : opensComment c next with
  | false => rfl
  | true =>
    simp only [opensComment, Bool.and_eq_true] at hc
    have := h.head?_any hneutral hc.2
    simp [opensComment, this, hc.1] at hrest

end Token
end ComponentCompiler
