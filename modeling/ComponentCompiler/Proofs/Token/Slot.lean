import ComponentCompiler.Proofs.Token.Balanced

/-!
This module contains the slots that markup reports. Each of them stands in the markup, and what is
between its brackets can be read by itself.
-/

namespace ComponentCompiler
namespace Token

variable {cs cs' rest : List Char} {slots : List Slot}

def Slot.Within (cs : List Char) (s : Slot) : Prop :=
  ∃ content rest n left, '\x7b' :: content <:+ cs ∧
    groupRest n .curly left [] true content = .ok rest ∧
    s = ⟨content.length, rest.length + 1⟩

theorem Slot.Within.mono {s : Slot} (h : s.Within cs) (hcs : cs <:+ cs') : s.Within cs' := by
  obtain ⟨content, rest, n, left, hinner, hread, hs⟩ := h
  exact ⟨content, rest, n, left, hinner.trans hcs, hread, hs⟩

theorem groupRest_suffix (h : groupRest n bracket left opened operand cs = .ok rest) :
    rest <:+ cs := by
  obtain ⟨used, rfl, _⟩ := (Closed.of_fuel n).group h
  exact List.suffix_append used rest

theorem dropBlank_suffix (cs : List Char) : Text.dropBlank cs <:+ cs :=
  List.dropWhile_suffix Text.isBlank

theorem suffix_of_dropBlank (h : Text.dropBlank cs = c :: rest) : rest <:+ cs := by
  have := dropBlank_suffix cs
  rw [h] at this
  exact (List.suffix_cons c rest).trans this

theorem attributeName?_suffix (h : attributeName? (Text.dropBlank cs) = some (name, rest)) :
    rest <:+ cs := by
  have hcs := (attributeName?_append h).1
  have := dropBlank_suffix cs
  rw [hcs] at this
  exact (List.suffix_append name rest).trans this

theorem AttributeStep.within (h : AttributeStep n cs slots rest) :
    rest <:+ cs ∧ ∀ s ∈ slots, s.Within cs := by
  cases h with
  | spread hcs hread =>
    have hopen := dropBlank_suffix cs
    rw [hcs] at hopen
    refine ⟨(groupRest_suffix hread).trans (suffix_of_dropBlank hcs), ?_⟩
    simp only [List.mem_singleton, forall_eq]
    exact ⟨_, _, _, _, hopen, hread, rfl⟩
  | @slot _ after more content _ hname hequal hvalue hread =>
    have hmore := (suffix_of_dropBlank hequal).trans (attributeName?_suffix hname)
    have hopen := (dropBlank_suffix more).trans hmore
    rw [hvalue] at hopen
    refine ⟨(groupRest_suffix hread).trans ((suffix_of_dropBlank hvalue).trans hmore), ?_⟩
    simp only [List.mem_singleton, forall_eq]
    exact ⟨_, _, _, _, hopen, hread, rfl⟩
  | text hname hequal hvalue hquote hread =>
    have hmore := (suffix_of_dropBlank hequal).trans (attributeName?_suffix hname)
    obtain ⟨used, hused, _⟩ := attributeStringRest?_closed hread
    have hinner := suffix_of_dropBlank hvalue
    rw [hused] at hinner
    exact ⟨((List.suffix_append used _).trans hinner).trans hmore, by simp⟩
  | @bare _ after _ hname hafter hequal =>
    subst hafter
    exact ⟨(dropBlank_suffix after).trans (attributeName?_suffix hname), by simp⟩

structure SlotsWithin (n : Nat) : Prop where
  markup : ∀ {left cs slots rest}, markupRest n left cs = .ok (slots, rest) →
    ∀ s ∈ slots, s.Within cs
  attributes : ∀ {left tag cs slots rest}, attributesRest n left tag cs = .ok (slots, rest) →
    ∀ s ∈ slots, s.Within cs
  children : ∀ {left cs slots rest}, childrenRest n left cs = .ok (slots, rest) →
    ∀ s ∈ slots, s.Within cs

theorem SlotsWithin.markup_succ (ih : SlotsWithin n)
    (h : markupRest (n + 1) left cs = .ok (slots, rest)) : ∀ s ∈ slots, s.Within cs := by
  rw [markupRest_succ_ok] at h
  intro s hs
  cases h with
  | @fragment content _ _ hread => exact (ih.children hread s hs).mono (List.suffix_cons _ content)
  | @element _ tag after _ _ hname hread =>
    rw [(tagName?_append hname).1]
    exact (ih.attributes hread s hs).mono (List.suffix_append tag after)

theorem SlotsWithin.attributes_succ (ih : SlotsWithin n)
    (h : attributesRest (n + 1) left tag cs = .ok (slots, rest)) : ∀ s ∈ slots, s.Within cs := by
  rw [attributesRest_succ_ok] at h
  intro s hs
  cases h with
  | single => simp at hs
  | children hcs hread hclose => exact (ih.children hread s hs).mono (suffix_of_dropBlank hcs)
  | more hfirst hread =>
    rcases List.mem_append.mp hs with hs | hs
    . exact hfirst.within.2 s hs
    . exact (ih.attributes hread s hs).mono hfirst.within.1

theorem SlotsWithin.children_succ (ih : SlotsWithin n)
    (h : childrenRest (n + 1) left cs = .ok (slots, rest)) : ∀ s ∈ slots, s.Within cs := by
  rw [childrenRest_succ_ok] at h
  intro s hs
  cases h with
  | stop => simp at hs
  | @slot content after _ _ hslot hread =>
    rcases List.mem_cons.mp hs with rfl | hs
    . exact ⟨content, after, _, _, List.suffix_refl _, hslot, rfl⟩
    . exact (ih.children hread s hs).mono
        ((groupRest_suffix hslot).trans (List.suffix_cons _ content))
  | @markup content _ after _ _ _ hmarkup hread =>
    rcases List.mem_append.mp hs with hs | hs
    . exact (ih.markup hmarkup s hs).mono (List.suffix_cons _ content)
    . obtain ⟨used, _, rfl, _⟩ := (Closed.of_fuel n).markup hmarkup
      exact (ih.children hread s hs).mono
        ((List.suffix_append used after).trans (List.suffix_cons _ _))
  | @char c more _ _ _ _ hread => exact (ih.children hread s hs).mono (List.suffix_cons c more)

theorem SlotsWithin.of_fuel (n : Nat) : SlotsWithin n := by
  induction n with
  | zero =>
    constructor
    . intro left cs slots rest h
      simp [markupRest] at h
    . intro left tag cs slots rest h
      simp [attributesRest] at h
    . intro left cs slots rest h
      simp [childrenRest] at h
  | succ n ih => exact ⟨ih.markup_succ, ih.attributes_succ, ih.children_succ⟩

theorem Slot.Within.window {text : String} {s : Slot} (h : s.Within text.toList) :
    BalancedWindow text (text.length - s.startLeft) (text.length - s.stopLeft) := by
  obtain ⟨content, rest, n, left, ⟨pre, htext⟩, hread, rfl⟩ := h
  obtain ⟨ws, gap, rfl, hrun, hnesting, hgap⟩ := words_of_groupRest hread
  refine ⟨ws, gap, Bracket.curly.closing :: rest, ?_, hrun, hnesting, hgap, ?_⟩
  . rw [← String.length_toList, ← htext, List.append_cons]
    apply List.drop_left'
    simp only [List.length_append, List.length_cons, List.length_nil]
    omega
  . rw [← String.length_toList, ← htext]
    simp only [List.length_append, List.length_cons]
    omega

theorem markupSlots_of_starts {text : String} {w : Word} (h : w.Starts operand rest)
    (hkind : w.kind = .markup) (htext : w.text ++ rest <:+ text.toList) :
    ∃ slots, markupSlots text (text.length - (w.text ++ rest).length) = .ok slots ∧
      ∀ slot ∈ slots, BalancedWindow text slot.1 slot.2 := by
  obtain ⟨_, c, more, hmore, hread⟩ := h
  have hread := hread _ (Nat.le_refl more.length)
  rw [hmore] at htext ⊢
  have hinner : more ++ rest <:+ text.toList := (List.suffix_cons c _).trans htext
  have hdrop : text.toList.drop (text.length - (c :: more ++ rest).length + 1) = more ++ rest := by
    obtain ⟨pre, htext⟩ := htext
    rw [← String.length_toList, ← htext, List.cons_append, List.append_cons]
    apply List.drop_left'
    simp only [List.length_append, List.length_cons, List.length_nil]
    omega
  rw [lexeme_ok, hkind] at hread
  cases hread with
  | @markup slots _ hopen hoperand hlooks hread =>
    have hfuel := markupRest_fuel (m := (more ++ rest).length + 1) hread (by omega)
      ((more ++ rest).length + 1)
    refine ⟨slots.map fun s => (text.length - s.startLeft, text.length - s.stopLeft), ?_, ?_⟩
    . simp only [markupSlots, readMarkup, hdrop, hfuel]
      rfl
    . intro slot hslot
      obtain ⟨s, hs, rfl⟩ := List.mem_map.mp hslot
      exact (((SlotsWithin.of_fuel _).markup hread s hs).mono hinner).window

theorem BalancedWindow.markupSlots {text : String} {start stop : Nat} {tokens : List Token}
    {t : Token}
    (h : BalancedWindow text start stop) (hscan : scanWindow text start stop = .ok tokens)
    (ht : t ∈ tokens) (hkind : t.kind = .markup) :
    ∃ slots, Token.markupSlots text t.start = .ok slots ∧
      ∀ slot ∈ slots, BalancedWindow text slot.1 slot.2 := by
  obtain ⟨ws, gap, rest, htext, hrun, _, hgap, hstop⟩ := h
  rw [(rescans_of_run hrun hgap htext hstop).1] at hscan
  cases hscan
  obtain ⟨i, hi⟩ := List.mem_iff_getElem?.mp ht
  obtain ⟨pre, w, post, rfl, _, rfl⟩ := exists_of_getElem?_tokensAt hi
  have hw := (run_append.mp hrun).2.1
  have hsuffix : w.text ++ (charsOf post ++ (gap ++ rest)) <:+ text.toList.drop start := by
    rw [htext]
    exact ⟨charsOf pre ++ w.gap, by simp [Word.chars]⟩
  have hlength := congrArg List.length htext
  have hne := List.length_pos_iff.mpr hw.text_ne_nil
  simp only [charsOf_append, charsOf_cons, Word.chars, List.length_append, List.length_drop,
    String.length_toList] at hlength
  have hstart : (w.token (start + (charsOf pre).length)).start
      = text.length - (w.text ++ (charsOf post ++ (gap ++ rest))).length := by
    simp only [Word.token, List.length_append]
    omega
  rw [hstart]
  exact markupSlots_of_starts hw hkind (hsuffix.trans (List.drop_suffix start _))

end Token
end ComponentCompiler
