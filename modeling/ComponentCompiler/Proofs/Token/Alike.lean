import ComponentCompiler.Proofs.Token.Reflow

/-!
This module contains what is read of two texts that differ only in white space beside line breaks.
Constructs that nest are followed in both texts at once, and so are the words of a text.
-/

namespace ComponentCompiler
namespace Token

variable {cs ds rest rest' used : List Char} {fresh : Bool}

/-- Nested constructs that have, both texts taken together, at most so many characters are read
alike in both. -/
structure ReadsAlike (size : Nat) : Prop where
  template : ∀ {n left fresh cs ds rest}, cs.length + ds.length ≤ size → Reflow fresh cs ds →
    templateRest n left cs = .ok rest →
    ∃ rest', Reflow false rest rest' ∧ ∀ m, ds.length ≤ m →
    ∀ left, templateRest m left ds = .ok rest'
  group : ∀ {n bracket left opened operand fresh cs ds rest}, cs.length + ds.length ≤ size →
    Reflow fresh cs ds → groupRest n bracket left opened operand cs = .ok rest →
    ∃ rest', Reflow false rest rest' ∧
      ∀ m, ds.length ≤ m → ∀ left, groupRest m bracket left opened operand ds = .ok rest'
  markup : ∀ {n left cs ds slots rest}, cs.length + ds.length ≤ size → Reflow false cs ds →
    markupRest n left cs = .ok (slots, rest) →
    ∃ slots' rest', Reflow false rest rest' ∧
      ∀ m, ds.length ≤ m → ∀ left, markupRest m left ds = .ok (slots', rest')
  attributes : ∀ {n left tag fresh cs ds slots rest}, cs.length + ds.length ≤ size →
    Reflow fresh cs ds → attributesRest n left tag cs = .ok (slots, rest) →
    ∃ slots' rest', Reflow false rest rest' ∧
      ∀ m, ds.length ≤ m → ∀ left, attributesRest m left tag ds = .ok (slots', rest')
  children : ∀ {n left fresh cs ds slots rest}, cs.length + ds.length ≤ size → Reflow fresh cs ds →
    childrenRest n left cs = .ok (slots, rest) →
    ∃ slots' rest', Reflow false rest rest' ∧
      ∀ m, ds.length ≤ m → ∀ left, childrenRest m left ds = .ok (slots', rest')

theorem forall_bound {P : Nat → Prop} (hpos : 0 < k) (h : ∀ m, k ≤ m + 1 → P (m + 1)) :
    ∀ m, k ≤ m → P m
  | 0, hm => absurd hm (Nat.not_le.mpr hpos)
  | m + 1, hm => h m hm

theorem lexeme_solid {kind : Kind} (h : lexeme template markup operand c cs = .ok (kind, rest))
    (hkind : kind ∈ [.name, .number, .punct]) :
    ∃ used, cs = used ++ rest ∧ ∀ d ∈ used, isNeutral d = false := by
  rw [lexeme_ok] at h
  cases h with
  | string => simp at hkind
  | template => simp at hkind
  | number hnumber =>
    obtain ⟨used, hcs, hused, _⟩ := numberRest_local hnumber
    exact ⟨used, hcs, fun d hd => hused d (List.mem_cons_of_mem _ hd)⟩
  | name hname =>
    obtain ⟨used, hcs, hused, _⟩ := localAt_nameRest cs
    exact ⟨used, hcs, hused⟩
  | markup => simp at hkind
  | regex => simp at hkind
  | operator =>
    obtain ⟨used, hcs, hused, _⟩ := operatorRest_local c cs
    exact ⟨used, hcs, hused⟩

theorem operandAfter_eq {kind : Kind} {first second : String}
    (h : kind ∈ [.name, .number, .punct] → second = first) :
    operandAfter kind second = operandAfter kind first := by
  cases kind with
  | name => rw [h (by simp)]
  | punct => rw [h (by simp)]
  | _ => rfl

theorem ReadsAlike.lexeme {kind : Kind} (hnested : ReadsAlike size)
    (hsize : cs.length + ds.length ≤ size) (h : Reflow false cs ds)
    (hread : lexeme (templateRest n) (markupRest n) operand c cs = .ok (kind, rest)) :
    ∃ used used' rest', cs = used ++ rest ∧ ds = used' ++ rest' ∧ Reflow false rest rest' ∧
      (kind ∈ [.name, .number, .punct] → used' = used) ∧
      ∀ m, ds.length ≤ m →
        Token.lexeme (templateRest m) (markupRest m) operand c ds = .ok (kind, rest') := by
  obtain ⟨used, hused, hlocal⟩ := lexeme_local (Closed.of_fuel n) hread
  by_cases hkind : kind ∈ [.name, .number, .punct]
  . obtain ⟨solid, hcs, hsolid⟩ := lexeme_solid hread hkind
    obtain rfl : used = solid := List.append_cancel_right (hused.symm.trans hcs)
    rw [hused] at h
    have hblank : used.any Text.isBlank = false := by
      rw [List.any_eq_false]
      intro d hd
      simp [isBlank_of_not_isNeutral (hsolid d hd)]
    obtain ⟨rest', rfl, hrest⟩ := h.append_inv used hblank
    refine ⟨used, used, rest', hused, rfl, hrest, fun _ => rfl, ?_⟩
    intro m hm
    rw [List.length_append] at hm
    exact hlocal m rest' (by omega) hrest.agrees
  . suffices hsim : ∃ rest', Reflow false rest rest' ∧ ∀ m, ds.length ≤ m →
        Token.lexeme (templateRest m) (markupRest m) operand c ds = .ok (kind, rest') by
      obtain ⟨rest', hrest, hread'⟩ := hsim
      obtain ⟨used', hused', _⟩ := lexeme_local (Closed.of_fuel _) (hread' _ (Nat.le_refl _))
      exact ⟨used, used', rest', hused, hused', hrest, fun hmem => absurd hmem hkind, hread'⟩
    simp only [lexeme_ok] at hread ⊢
    cases hread with
    | string hquote hread =>
      obtain ⟨rest', hread', hrest⟩ := h.string (by rcases hquote with rfl | rfl <;> decide) hread
      exact ⟨rest', hrest, fun m hm => .string hquote hread'⟩
    | template htick hread =>
      obtain ⟨rest', hrest, hread'⟩ := hnested.template hsize h hread
      exact ⟨rest', hrest, fun m hm => .template htick (hread' m hm _)⟩
    | markup hopen hoperand hlooks hread =>
      obtain ⟨slots', rest', hrest, hread'⟩ := hnested.markup hsize h hread
      refine ⟨rest', hrest, fun m hm => .markup hopen hoperand ?_ (hread' m hm _)⟩
      cases cs with
      | nil => simp [looksLikeMarkup] at hlooks
      | cons d cs =>
        have hd : Text.isBlank d = false := by
          cases hblank : Text.isBlank d with
          | false => rfl
          | true =>
            rw [looksLikeMarkup, isMarkupStart_of_isNeutral (isNeutral_of_isBlank hblank)] at hlooks
            simp at hlooks
        obtain ⟨ds', rfl, _⟩ := h.cons_inv hd
        exact hlooks
    | regex hslash hoperand hread =>
      obtain ⟨rest', hread', hrest⟩ := h.regex hread
      exact ⟨rest', hrest, fun m hm => .regex hslash hoperand hread'⟩
    | number => simp at hkind
    | name => simp at hkind
    | operator => simp at hkind

namespace ReadsAlike

theorem templateRest_char (hescape : c ≠ '\\') (hstop : c ≠ '\x60') (hslot : c ≠ '$') :
    templateRest (n + 1) left (c :: cs) = templateRest n left cs := by
  rw [templateRest, templateStep.eq_def]
  simp [hescape, hstop, hslot]

theorem templateRest_blank (hc : Text.isBlank c = true) :
    templateRest (n + 1) left (c :: cs) = templateRest n left cs := by
  have hne : c ≠ '\\' ∧ c ≠ '\x60' ∧ c ≠ '$' := by
    refine ⟨?_, ?_, ?_⟩ <;> (rintro rfl; simp [Text.isBlank] at hc)
  exact templateRest_char hne.1 hne.2.1 hne.2.2

theorem slot (hnested : ReadsAlike size) (h : Reflow false ('\x7b' :: content) ds)
    (hsize : content.length + ds.length ≤ size)
    (hread : groupRest n .curly left [] true content = .ok rest) :
    ∃ content' rest', ds = '\x7b' :: content' ∧ Reflow false rest rest' ∧
      rest.length ≤ content.length ∧ rest'.length ≤ content'.length ∧
      ∀ m, content'.length ≤ m → ∀ left, groupRest m .curly left [] true content' = .ok rest' := by
  obtain ⟨content', rfl, hcontent⟩ := h.cons_inv (by decide)
  simp only [List.length_cons] at hsize
  obtain ⟨rest', hrest, hread'⟩ := hnested.group (by omega) hcontent hread
  obtain ⟨used, hused, _⟩ := (Closed.of_fuel n).group hread
  obtain ⟨used', hused', _⟩ := (Closed.of_fuel _).group (hread' _ (Nat.le_refl _) 0)
  refine ⟨content', rest', rfl, hrest, ?_, ?_, hread'⟩
  . simp [hused]
  . rw [hused']
    simp

theorem template_succ (hnested : ReadsAlike size) (hsize : cs.length + ds.length ≤ size + 1)
    (h : Reflow fresh cs ds) (hread : templateRest n left cs = .ok rest) :
    ∃ rest', Reflow false rest rest' ∧
      ∀ m, ds.length ≤ m → ∀ left, templateRest m left ds = .ok rest' := by
  cases n with
  | zero => simp [templateRest] at hread
  | succ n =>
  cases h with
  | nil => simp [templateRest, templateStep] at hread
  | @char cs ds _ c h =>
    simp only [List.length_cons] at hsize
    rw [templateRest_succ_ok] at hread
    cases hread with
    | escape hread =>
      cases cs with
      | nil => cases n <;> simp [templateRest, templateStep] at hread
      | cons d cs =>
        rw [List.drop_one, List.tail_cons] at hread
        simp only [List.length_cons] at hsize
        cases h with
        | char _ h =>
          obtain ⟨rest', hrest, hread'⟩ := hnested.template (by simp at hsize; omega) h hread
          refine ⟨rest', hrest, forall_bound (by simp) fun m hm left => ?_⟩
          simp only [List.length_cons] at hm
          exact templateRest_succ_ok.mpr (.escape (hread' m (by omega) left))
        | trailing _ _ h =>
          obtain ⟨rest', hrest, hread'⟩ := hnested.template (by simp at hsize ⊢; omega) h hread
          refine ⟨rest', hrest, forall_bound (by simp) fun m hm left => ?_⟩
          simp only [List.length_cons] at hm hread'
          have hread' := hread' (m + 1) (by omega) left
          rw [templateRest_blank Text.isBlank_newline] at hread'
          exact templateRest_succ_ok.mpr (.escape hread')
    | stop =>
      exact ⟨ds, h, forall_bound (by simp) fun _ _ _ => templateRest_succ_ok.mpr .stop⟩
    | slot hslot hread =>
      simp only [List.length_cons] at hsize
      obtain ⟨content', after', rfl, hafter, hlength, hlength', hslot'⟩ :=
        hnested.slot h (by omega) hslot
      simp only [List.length_cons] at hsize
      obtain ⟨rest', hrest, hread'⟩ := hnested.template (by omega) hafter hread
      refine ⟨rest', hrest, forall_bound (by simp) fun m hm left => ?_⟩
      simp only [List.length_cons] at hm
      exact templateRest_succ_ok.mpr
        (.slot (hslot' m (by omega) _) (hread' m (by omega) left))
    | char hescape hstop hslot hread =>
      obtain ⟨rest', hrest, hread'⟩ := hnested.template (by omega) h hread
      refine ⟨rest', hrest, forall_bound (by simp) fun m hm left => ?_⟩
      simp only [List.length_cons] at hm
      refine templateRest_succ_ok.mpr (.char hescape hstop ?_ (hread' m (by omega) left))
      rintro rfl
      rcases h.head?_eq with hhead | hhead
      . rw [hhead]
        exact hslot rfl
      . simp [hhead]
  | trailing hc hline h =>
    rw [templateRest_blank hc] at hread
    exact hnested.template (by simp at hsize ⊢; omega) h hread
  | outdent hc hline h =>
    rw [templateRest_blank hc] at hread
    exact hnested.template (by simp at hsize ⊢; omega) h hread
  | indent hc hline h =>
    obtain ⟨rest', hrest, hread'⟩ := hnested.template (by simp at hsize ⊢; omega) h hread
    refine ⟨rest', hrest, forall_bound (by simp) fun m hm left => ?_⟩
    rw [templateRest_blank hc]
    exact hread' m (Nat.le_of_succ_le_succ hm) left

theorem group_succ (hnested : ReadsAlike size) (hsize : cs.length + ds.length ≤ size + 1)
    (h : Reflow fresh cs ds) (hread : groupRest n bracket left opened operand cs = .ok rest) :
    ∃ rest', Reflow false rest rest' ∧
      ∀ m, ds.length ≤ m → ∀ left, groupRest m bracket left opened operand ds = .ok rest' := by
  cases n with
  | zero => simp [groupRest] at hread
  | succ n =>
  -- the first token takes at least one character of each text
  have hlength : ∀ {cs : List Char} {newline c more}, afterGap false cs = .ok (newline, c :: more) →
      more.length < cs.length := by
    intro cs newline c more hgap
    obtain ⟨gap, rfl, _⟩ := afterGap_local hgap
    simp
    omega
  rw [groupRest_succ_ok] at hread
  cases hread with
  | stop hgap hread hinner hopen hclose =>
    obtain ⟨more', hgap', hmore⟩ := h.afterGap hgap
    have := hlength hgap
    have := hlength hgap'
    obtain ⟨_, _, rest', _, _, hrest, _, hread'⟩ := hnested.lexeme (by omega) hmore hread
    refine ⟨rest', hrest, forall_bound (by omega) fun m hm left => ?_⟩
    exact groupRest_succ_ok.mpr (.stop hgap' (hread' m (by omega)) hinner hopen hclose)
  | token hgap hread hnests hafter =>
    obtain ⟨more', hgap', hmore⟩ := h.afterGap hgap
    have := hlength hgap
    have := hlength hgap'
    obtain ⟨used, used', after', rfl, rfl, hrest, htext, hread'⟩ :=
      hnested.lexeme (by omega) hmore hread
    simp only [List.length_append] at *
    rw [taken_cons_append] at hafter
    obtain ⟨rest', hrest, hafter'⟩ := hnested.group (by omega) hrest hafter
    refine ⟨rest', hrest, forall_bound (by omega) fun m hm left => ?_⟩
    refine groupRest_succ_ok.mpr (.token hgap' (hread' m (by omega)) hnests ?_)
    rw [taken_cons_append, operandAfter_eq fun hkind => by rw [htext hkind]]
    exact hafter' m (by omega) left

theorem markup_succ (hnested : ReadsAlike size) (hsize : cs.length + ds.length ≤ size + 1)
    (h : Reflow false cs ds) (hread : markupRest n left cs = .ok (slots, rest)) :
    ∃ slots' rest', Reflow false rest rest' ∧
      ∀ m, ds.length ≤ m → ∀ left, markupRest m left ds = .ok (slots', rest') := by
  cases n with
  | zero => simp [markupRest] at hread
  | succ n =>
  rw [markupRest_succ_ok] at hread
  cases hread with
  | fragment hread =>
    obtain ⟨content', rfl, hcontent⟩ := h.cons_inv (by decide)
    simp only [List.length_cons] at hsize
    obtain ⟨slots', after', hafter, hread'⟩ := hnested.children (by omega) hcontent hread
    obtain ⟨rest', rfl, hrest⟩ := Reflow.append_inv ['<', '/', '>'] (by decide) hafter
    refine ⟨slots', rest', hrest, forall_bound (by simp) fun m hm left => ?_⟩
    simp only [List.length_cons] at hm
    exact markupRest_succ_ok.mpr (.fragment (hread' m (by omega) left))
  | @element _ tag after _ _ hname hread =>
    obtain ⟨after', hname', hafter⟩ := h.tagName hname
    obtain ⟨rfl, hne, _⟩ := tagName?_append hname
    obtain ⟨rfl, _, _⟩ := tagName?_append hname'
    have := List.length_pos_iff.mpr hne
    simp only [List.length_append] at hsize
    obtain ⟨slots', rest', hrest, hread'⟩ := hnested.attributes (by omega) hafter hread
    refine ⟨slots', rest', hrest,
      forall_bound (List.length_pos_iff.mpr (by simp [hne])) fun m hm left => ?_⟩
    simp only [List.length_append] at hm
    exact markupRest_succ_ok.mpr (.element hname' (hread' m (by omega) left))

theorem oneAttribute (hnested : ReadsAlike size) (hsize : cs.length + ds.length ≤ size + 1)
    (h : Reflow fresh cs ds) (hstep : AttributeStep n cs slots rest) :
    ∃ slots' rest', Reflow false rest rest' ∧ rest.length < cs.length ∧ rest'.length < ds.length ∧
      ∀ m, ds.length ≤ m + 1 → AttributeStep m ds slots' rest' := by
  have hcs := Text.dropBlank_length_le cs
  have hds := Text.dropBlank_length_le ds
  have hblank := h.dropBlank
  cases hstep with
  | spread hspread hread =>
    rw [hspread] at hblank hcs
    simp only [List.length_cons] at hcs
    obtain ⟨content', rest', hspread', hrest, hlength, hlength', hread'⟩ :=
      hnested.slot hblank (by omega) hread
    rw [hspread', List.length_cons] at hds
    refine ⟨[⟨content'.length, rest'.length + 1⟩], rest', hrest, by omega, by omega, ?_⟩
    intro m hm
    exact .spread hspread' (hread' m (by omega) _)
  | slot hname hequal hvalue hread =>
    obtain ⟨after', more', hname', hequal', hmore, hcs, hds⟩ := h.equalSign hname hequal
    rw [hvalue] at hmore hcs
    simp only [List.length_cons] at hcs
    obtain ⟨content', rest', hvalue', hrest, hlength, hlength', hread'⟩ :=
      hnested.slot hmore (by omega) hread
    rw [hvalue', List.length_cons] at hds
    refine ⟨[⟨content'.length, rest'.length + 1⟩], rest', hrest, by omega, by omega, ?_⟩
    intro m hm
    exact .slot hname' hequal' hvalue' (hread' m (by omega) _)
  | @text _ _ _ quote _ _ hname hequal hvalue hquote hread =>
    obtain ⟨after', more', hname', hequal', hmore, hcs, hds⟩ := h.equalSign hname hequal
    rw [hvalue] at hmore hcs
    have hblank : Text.isBlank quote = false := by rcases hquote with rfl | rfl <;> decide
    obtain ⟨content', hvalue', hcontent⟩ := hmore.cons_inv hblank
    obtain ⟨rest', hread', hrest⟩ := hcontent.attributeString hblank hread
    obtain ⟨used, rfl, _⟩ := attributeStringRest?_closed hread
    obtain ⟨used', rfl, _⟩ := attributeStringRest?_closed hread'
    rw [hvalue'] at hds
    simp only [List.length_cons, List.length_append] at hcs hds
    refine ⟨[], rest', hrest, by omega, by omega, ?_⟩
    intro m _
    exact .text hname' hequal' hvalue' hquote hread'
  | bare hname hafter hequal =>
    subst hafter
    obtain ⟨after', hname', hafter⟩ := hblank.attributeName hname
    have hlength := Reflow.length_lt_of_attributeName hname
    have hlength' := Reflow.length_lt_of_attributeName hname'
    refine ⟨[], Text.dropBlank after', hafter.dropBlank, ?_, ?_, ?_⟩
    . exact Nat.lt_of_le_of_lt (Text.dropBlank_length_le _) hlength
    . exact Nat.lt_of_le_of_lt (Text.dropBlank_length_le _) hlength'
    . intro m _
      refine .bare hname' rfl ?_
      rcases hafter.dropBlank.head?_eq with hhead | hhead
      . rw [hhead]
        exact hequal
      . simp [hhead]

theorem attributes_succ (hnested : ReadsAlike size) (hsize : cs.length + ds.length ≤ size + 1)
    (h : Reflow fresh cs ds) (hread : attributesRest n left tag cs = .ok (slots, rest)) :
    ∃ slots' rest', Reflow false rest rest' ∧
      ∀ m, ds.length ≤ m → ∀ left, attributesRest m left tag ds = .ok (slots', rest') := by
  cases n with
  | zero => simp [attributesRest] at hread
  | succ n =>
  have hcs := Text.dropBlank_length_le cs
  have hds := Text.dropBlank_length_le ds
  have hblank := h.dropBlank
  rw [attributesRest_succ_ok] at hread
  cases hread with
  | single hsingle =>
    rw [hsingle] at hblank
    obtain ⟨rest', hsingle', hrest⟩ := Reflow.append_inv ['/', '>'] (by decide) hblank
    rw [hsingle'] at hds
    simp only [List.length_append, List.length_cons] at hds
    exact ⟨[], rest', hrest, forall_bound (by omega) fun _ _ _ =>
      attributesRest_succ_ok.mpr (.single hsingle')⟩
  | children hopen hread hclose =>
    rw [hopen] at hblank hcs
    obtain ⟨content', hopen', hcontent⟩ := hblank.cons_inv (by decide)
    rw [hopen'] at hds
    simp only [List.length_cons] at hcs hds
    obtain ⟨slots', after', hafter, hread'⟩ := hnested.children (by omega) hcontent hread
    obtain ⟨_, _, more, _, rfl, _⟩ := (Closed.of_fuel n).children hread
    obtain ⟨more', rfl, hmore⟩ := Reflow.append_inv ['<', '/'] (by decide) hafter
    obtain ⟨rest', hclose', hrest⟩ := hmore.closingTag hclose
    refine ⟨slots', rest', hrest, forall_bound (by omega) fun m hm left => ?_⟩
    exact attributesRest_succ_ok.mpr (.children hopen' (hread' m (by omega) left) hclose')
  | more hfirst hread =>
    obtain ⟨first', after', hafter, hlength, hlength', hfirst'⟩ :=
      hnested.oneAttribute hsize h hfirst
    obtain ⟨slots', rest', hrest, hread'⟩ := hnested.attributes (by omega) hafter hread
    refine ⟨first' ++ slots', rest', hrest, forall_bound (by omega) fun m hm left => ?_⟩
    exact attributesRest_succ_ok.mpr (.more (hfirst' m hm) (hread' m (by omega) left))

theorem childrenRest_blank (hc : Text.isBlank c = true) :
    childrenRest (n + 1) left (c :: cs) = childrenRest n left cs := by
  have hne : c ≠ '\x7b' ∧ c ≠ '<' := by
    refine ⟨?_, ?_⟩ <;> (rintro rfl; simp [Text.isBlank] at hc)
  rw [childrenRest, childrenStep.eq_def]
  dsimp only
  split <;> simp_all

theorem children_succ (hnested : ReadsAlike size) (hsize : cs.length + ds.length ≤ size + 1)
    (h : Reflow fresh cs ds) (hread : childrenRest n left cs = .ok (slots, rest)) :
    ∃ slots' rest', Reflow false rest rest' ∧
      ∀ m, ds.length ≤ m → ∀ left, childrenRest m left ds = .ok (slots', rest') := by
  cases n with
  | zero => simp [childrenRest] at hread
  | succ n =>
  cases h with
  | nil => simp [childrenRest, childrenStep] at hread
  | @char cs ds _ c h =>
    simp only [List.length_cons] at hsize
    rw [childrenRest_succ_ok] at hread
    cases hread with
    | stop =>
      obtain ⟨rest', rfl, hrest⟩ := Reflow.cons_inv (by decide) h
      exact ⟨[], _, .char '<' h, forall_bound (by simp) fun _ _ _ => childrenRest_succ_ok.mpr .stop⟩
    | slot hslot hread =>
      obtain ⟨content', after', hcontent, hafter, hlength, hlength', hslot'⟩ :=
        hnested.slot (.char '\x7b' h) (by simp; omega) hslot
      obtain rfl : ds = content' := List.cons_inj_right _ |>.mp hcontent
      obtain ⟨slots', rest', hrest, hread'⟩ := hnested.children (by omega) hafter hread
      refine ⟨⟨ds.length, after'.length + 1⟩ :: slots', rest', hrest,
        forall_bound (by simp) fun m hm left => ?_⟩
      simp only [List.length_cons] at hm
      exact childrenRest_succ_ok.mpr (.slot (hslot' m (by omega) _) (hread' m (by omega) left))
    | markup hclose hmarkup hread =>
      obtain ⟨first', after', hafter, hmarkup'⟩ := hnested.markup (by omega) h hmarkup
      obtain ⟨used, _, rfl, _⟩ := (Closed.of_fuel n).markup hmarkup
      obtain ⟨used', _, rfl, _⟩ := (Closed.of_fuel _).markup (hmarkup' _ (Nat.le_refl _) 0)
      simp only [List.length_append] at hsize hmarkup'
      obtain ⟨slots', rest', hrest, hread'⟩ := hnested.children (by omega) hafter hread
      refine ⟨first' ++ slots', rest', hrest, forall_bound (by simp) fun m hm left => ?_⟩
      simp only [List.length_cons, List.length_append] at hm
      refine childrenRest_succ_ok.mpr
        (.markup ?_ (hmarkup' m (by omega) _) (hread' m (by omega) left))
      rcases h.head?_eq with hhead | hhead
      . rw [hhead]
        exact hclose
      . simp [hhead]
    | char hslot hmarkup hread =>
      obtain ⟨slots', rest', hrest, hread'⟩ := hnested.children (by omega) h hread
      refine ⟨slots', rest', hrest, forall_bound (by simp) fun m hm left => ?_⟩
      simp only [List.length_cons] at hm
      exact childrenRest_succ_ok.mpr (.char hslot hmarkup (hread' m (by omega) left))
  | trailing hc hline h =>
    rw [childrenRest_blank hc] at hread
    exact hnested.children (by simp at hsize ⊢; omega) h hread
  | outdent hc hline h =>
    rw [childrenRest_blank hc] at hread
    exact hnested.children (by simp at hsize ⊢; omega) h hread
  | indent hc hline h =>
    obtain ⟨slots', rest', hrest, hread'⟩ := hnested.children (by simp at hsize ⊢; omega) h hread
    refine ⟨slots', rest', hrest, forall_bound (by simp) fun m hm left => ?_⟩
    rw [childrenRest_blank hc]
    exact hread' m (Nat.le_of_succ_le_succ hm) left

theorem zero : ReadsAlike 0 := by
  have hnil : ∀ {cs ds : List Char}, cs.length + ds.length ≤ 0 → cs = [] := by
    intro cs ds h
    exact List.length_eq_zero_iff.mp (by omega)
  constructor
  . intro n left fresh cs ds rest hsize _ hread
    obtain rfl := hnil hsize
    cases n <;> simp [templateRest, templateStep] at hread
  . intro n bracket left opened operand fresh cs ds rest hsize _ hread
    obtain rfl := hnil hsize
    cases n <;> simp [groupRest, groupStep, afterGap, afterGap.go] at hread
  . intro n left cs ds slots rest hsize _ hread
    obtain rfl := hnil hsize
    cases n <;> simp [markupRest, markupStep, tagName?] at hread
  . intro n left tag fresh cs ds slots rest hsize _ hread
    obtain rfl := hnil hsize
    cases n <;> simp [attributesRest, attributesStep, Text.dropBlank] at hread
  . intro n left fresh cs ds slots rest hsize _ hread
    obtain rfl := hnil hsize
    cases n <;> simp [childrenRest, childrenStep] at hread

theorem of_size (size : Nat) : ReadsAlike size := by
  induction size with
  | zero => exact zero
  | succ size ih =>
    exact ⟨ih.template_succ, ih.group_succ, ih.markup_succ, ih.attributes_succ, ih.children_succ⟩

end ReadsAlike

structure Word.Alike (w v : Word) : Prop where
  kind : v.kind = w.kind
  newline : v.newline = w.newline
  head : v.text.head? = w.text.head?
  text : w.kind ∈ [.name, .number, .punct] → v.text = w.text

theorem Word.Alike.operandAfter {w v : Word} (h : w.Alike v) : v.operandAfter = w.operandAfter := by
  unfold Word.operandAfter
  rw [h.kind, operandAfter_eq]
  intro hkind
  rw [h.text hkind]

theorem Word.Starts.reflow {w : Word} (h : w.Starts operand rest)
    (hflow : Reflow fresh (w.gap ++ (w.text ++ rest)) ds) :
    ∃ (v : Word) (rest' : List Char), v.Starts operand rest' ∧ ds = v.gap ++ (v.text ++ rest') ∧
      w.Alike v ∧
      Reflow false (w.text ++ rest) (v.text ++ rest') ∧ Reflow false rest rest' := by
  obtain ⟨hgap, c, more, htext, hread⟩ := h
  rw [htext, List.cons_append] at hgap hflow
  obtain ⟨after, hgap', hafter⟩ := hflow.afterGap hgap
  obtain ⟨used, used', rest', hused, rfl, hrest, hsame, hread'⟩ :=
    (ReadsAlike.of_size _).lexeme (Nat.le_refl _) hafter (hread _ (Nat.le_refl _))
  obtain rfl : more = used := List.append_cancel_right hused
  obtain ⟨v, hstarts, hds, hv, hkind, hnewline⟩ :=
    Word.starts_of_lexeme hgap' (hread' _ (Nat.le_refl _))
  rw [← List.cons_append] at hv
  have hv := List.append_cancel_right hv
  have hline : (c == '\n') = false := by
    rw [beq_eq_false_iff_ne]
    exact Reflow.ne_newline (afterGap_token hgap).1
  refine ⟨v, rest', hstarts, hds, ⟨hkind, hnewline, ?_, ?_⟩, ?_, hrest⟩
  . rw [← hv, htext, List.head?_cons, List.head?_cons]
  . intro hmem
    rw [← hv, htext, hsame hmem]
  . rw [← hv, htext, List.cons_append, List.cons_append]
    apply Reflow.char
    rw [hline]
    exact hafter

end Token
end ComponentCompiler
