import ComponentCompiler.Proofs.Markup.Expressions

/-!
This module contains what the reader of markup trees does with a text that the grammar of slots
derives. It reads a tree that takes up the same text, or it refuses a slot between attributes that
is no spread.
-/

namespace ComponentCompiler
namespace Markup

variable {place : Nat → Nat → Span} {cs rest mid after : List Char}
variable {entries first more : List Entry} {P : α → Prop} {Q : β → Prop} {reading : Reading α}

def refusal (left : Nat) : Reading α :=
  malformed "Only spread expressions may appear between attributes." left

/-- The reading of a text with these slots has such a result and all slots are allowed where they
stand, or it stops at one that is not. -/
inductive Answers (entries : List Entry) (P : α → Prop) (reading : Reading α) : Prop where
  | ok (hread : reading = .ok a) (hresult : P a) (hentries : ∀ e ∈ entries, e.IsAllowed)
  | refusal {e : Entry} (hmem : e ∈ entries) (he : ¬ e.IsAllowed)
      (hread : reading = refusal (e.content.length + 1))

theorem Answers.bind {f : α → Reading β} (h : Answers first P reading)
    (hmore : ∀ a, P a → Answers more Q (f a)) : Answers (first ++ more) Q (reading >>= f) := by
  cases h with
  | ok hread hresult hentries =>
    rw [hread, ok_bind]
    cases hmore _ hresult with
    | ok hread hresult hlater =>
      exact .ok hread hresult (List.forall_mem_append.mpr ⟨hentries, hlater⟩)
    | refusal hmem he hread => exact .refusal (List.mem_append_right first hmem) he hread
  | refusal hmem he hread =>
    refine .refusal (List.mem_append_left more hmem) he ?_
    rw [hread]
    rfl

theorem Answers.map {f : α → β} (h : Answers entries P reading) (hf : ∀ a, P a → Q (f a)) :
    Answers entries Q (f <$> reading) := by
  rw [← List.append_nil entries]
  exact h.bind fun a ha => .ok rfl (hf a ha) (by simp)

theorem Answers.append_left (h : Answers more P reading) (hfirst : ∀ e ∈ first, e.IsAllowed) :
    Answers (first ++ more) P reading := by
  cases h with
  | ok hread hresult hlater =>
    exact .ok hread hresult (List.forall_mem_append.mpr ⟨hfirst, hlater⟩)
  | refusal hmem he hread => exact .refusal (List.mem_append_right first hmem) he hread

theorem Answers.isAllowed (h : Answers entries P reading) (hread : reading = .ok a) :
    ∀ e ∈ entries, e.IsAllowed := by
  cases h with
  | ok _ _ hentries => exact hentries
  | refusal _ _ hrefusal =>
    rw [hread] at hrefusal
    cases hrefusal

theorem isAllowed_of_role {e : Entry} (h : e.role ≠ .spread) : ∀ e' ∈ [e], e'.IsAllowed :=
  List.forall_mem_singleton.mpr fun hrole => absurd hrole h

theorem Answers.of_exists {reading : Reading (α × List Char)} (h : ∃ a, reading = .ok (a, rest))
    (hentries : ∀ e ∈ entries, e.IsAllowed) : Answers entries (fun r => r.2 = rest) reading := by
  obtain ⟨a, hread⟩ := h
  exact .ok hread rfl hentries

theorem AttributeForm.answers (h : AttributeForm cs entries after) :
    Answers entries (fun r => r.2 = after) (oneAttribute place tag (Text.dropBlank cs)) := by
  cases h with
  | @spread content _ hcs hslot =>
    cases hspread : isSpread content after with
    | true =>
      obtain ⟨source, hsource⟩ := isSpread_eq_true.mp hspread
      refine .of_exists ?_ (List.forall_mem_singleton.mpr fun _ => hspread)
      simp [hcs, oneAttribute, hslot, hsource, pure_eq_ok]
    | false =>
      have hdots : ¬ (⟨.spread, content, after⟩ : Entry).IsAllowed := by
        intro h
        exact Bool.false_ne_true (hspread.symm.trans (h rfl))
      refine .refusal (List.mem_singleton_self _) hdots ?_
      simp only [hcs, oneAttribute, hslot, ok_bind]
      split
      . next source hsource =>
        rw [isSpread_eq_true.mpr ⟨source, hsource⟩] at hspread
        cases hspread
      . rfl
  | value hname hequal hvalue hslot =>
    obtain ⟨c, more, hcs, hother⟩ := Token.attributeName?_head_ne hname
    rw [hcs] at hname ⊢
    refine .of_exists ?_ (isAllowed_of_role (by simp))
    simp [oneAttribute, hother, hname, hequal, attributeValue, hvalue, hslot, pure_eq_ok]
  | string hname hequal hvalue hquote hread =>
    obtain ⟨c, more, hcs, hother⟩ := Token.attributeName?_head_ne hname
    rw [hcs] at hname ⊢
    refine .of_exists ?_ (by simp)
    rcases hquote with rfl | rfl
    . simp [oneAttribute, hother, hname, hequal, attributeValue, hvalue, hread, pure_eq_ok]
    . simp [oneAttribute, hother, hname, hequal, attributeValue, hvalue, hread, pure_eq_ok]
  | bare hname hafter hequal =>
    obtain ⟨c, more, hcs, hother⟩ := Token.attributeName?_head_ne hname
    rw [hcs] at hname ⊢
    have hbare : ∀ value, after ≠ '=' :: value := by
      rintro value rfl
      simp at hequal
    refine .of_exists ?_ (by simp)
    simp [oneAttribute, hother, hname, hafter, pure_eq_ok]

/-- The attributes of a tag are read up to its end, where the part begins that is derived after
it. -/
theorem attributes_of_derives (place : Nat → Nat → Span) (tagText : String)
    (h : Derives (.tag name) cs entries rest) (hm : cs.length < m) :
    ∃ first later closed after, entries = first ++ later ∧ after <:+ cs ∧
      Remainder name closed after later rest ∧
      Answers first (fun r => r.2 = (closed, after)) (attributes place tagText m cs) := by
  induction m generalizing cs entries with
  | zero => omega
  | succ m ih =>
    cases h with
    | single hcs =>
      refine ⟨[], [], true, rest, rfl, ?_, .single, .ok (a := ([], true, rest)) ?_ rfl (by simp)⟩
      . exact (List.suffix_cons _ _).trans (Token.suffix_of_dropBlank hcs)
      . simp [attributes, ne_nil_of_dropBlank hcs, hcs]
    | content hcs hchildren hclose =>
      refine ⟨[], entries, false, _, rfl, Token.suffix_of_dropBlank hcs, .content hchildren hclose,
        .ok (a := ([], false, _)) ?_ rfl (by simp)⟩
      simp [attributes, ne_nil_of_dropBlank hcs, hcs]
    | @attr _ first mid _ entries _ hfirst hmore =>
      obtain ⟨c, tail, hcs, hslash, hstop⟩ := dropBlank_of_step (hfirst.step (Nat.le_refl _))
      obtain ⟨_, _, hpasses⟩ := hmore.passes
      obtain ⟨hsuffix, hlength⟩ := suffix_of_step (hfirst.step (Nat.le_refl _))
        (attributesRest_ne_nil hpasses)
      obtain ⟨second, later, closed, after, rfl, hafter, hremainder, hanswers⟩ :=
        ih hmore (by omega)
      refine ⟨first ++ second, later, closed, after, by simp, hafter.trans hsuffix, hremainder, ?_⟩
      rw [attributes_succ_of_other hcs hslash hstop]
      refine hfirst.answers.bind ?_
      rintro ⟨attr, _⟩ rfl
      exact hanswers.map fun _ hr => hr

structure Follows (m : Nat) : Prop where
  node : ∀ {place cs entries rest}, Derives .markup cs entries rest → cs.length < m →
    Answers entries (fun r => r.2 = rest) (node place m cs)
  children : ∀ {place cs entries mid rest enclosing}, Derives .children cs entries mid →
    Closes enclosing mid rest → cs.length < m →
    Answers entries (fun r => r.2 = rest) (children place m enclosing cs)

theorem Continues.answers (h : Continues place m enclosing cs after)
    (hclose : Closes enclosing mid rest) (hread : ∀ enclosing, Closes enclosing mid rest →
      Answers entries (fun r => r.2 = rest) (children place m enclosing after)) :
    Answers entries (fun r => r.2 = rest) (children place (m + 1) enclosing cs) := by
  obtain ⟨f, enclosing', hcloses, hf, hstep⟩ := h
  rw [hstep]
  exact (hread enclosing' ((hcloses mid rest).mpr hclose)).map fun r hr => (hf r).trans hr

theorem Follows.node_succ (ih : Follows m) (h : Derives .markup cs entries rest)
    (hm : cs.length < m + 1) :
    Answers entries (fun r => r.2 = rest) (Markup.node place (m + 1) cs) := by
  cases h with
  | fragment hchildren =>
    rw [List.length_cons] at hm
    rw [node_fragment]
    have hclose : Closes (.fragment false) ('<' :: '/' :: '>' :: rest) rest := rfl
    exact (ih.children hchildren hclose (by omega)).map fun _ hr => hr
  | @element _ name after _ _ hname htag =>
    obtain ⟨hcs, hne, _⟩ := Token.tagName?_append hname
    have hlength := congrArg List.length hcs
    have hpos := List.length_pos_iff.mpr hne
    rw [List.length_append] at hlength
    rw [node_element hname]
    obtain ⟨first, later, closed, content, rfl, hsuffix, hremainder, hanswers⟩ :=
      attributes_of_derives place (String.ofList name) htag (Nat.lt_succ_self after.length)
    have hcontent := hsuffix.length_le
    refine hanswers.bind ?_
    rintro ⟨attrs, _⟩ rfl
    cases hremainder with
    | single => exact .ok rfl rfl (by simp)
    | @content _ _ mid _ hchildren hclose =>
      have hclose : Closes (.element name) ('<' :: '/' :: mid) rest := hclose
      rw [if_neg (by simp)]
      exact (ih.children hchildren hclose (by omega)).map fun _ hr => hr

theorem Follows.children_succ (ih : Follows m) (h : Derives .children cs entries mid)
    (hclose : Closes enclosing mid rest) (hm : cs.length < m + 1) :
    Answers entries (fun r => r.2 = rest) (Markup.children place (m + 1) enclosing cs) := by
  cases h with
  | closing => exact .ok (children_closing_ok.mpr ⟨rfl, hclose⟩) rfl (by simp)
  | markup hslash hmarkup hmore =>
    have hlength := hmarkup.inOrder.suffix.length_le
    rw [List.length_cons] at hm
    rw [children_node hslash]
    refine (ih.node hmarkup (by omega)).bind ?_
    rintro ⟨child, _⟩ rfl
    have hclose := (closes_withContent enclosing).mpr hclose
    exact (ih.children hmore hclose (by omega)).map fun _ hr => hr
  | slot hslot hmore =>
    have hlength := (Token.groupRest_suffix (slotRest_ok.mp hslot)).length_le
    rw [List.length_cons] at hm
    refine Answers.append_left ?_ (isAllowed_of_role (by simp))
    apply (children_slot hslot).answers hclose
    intro enclosing hclose
    exact ih.children hmore hclose (by omega)
  | @char c cs _ _ hc hmore =>
    have hlength := (List.dropWhile_suffix isText (l := cs)).length_le
    rw [List.length_cons] at hm
    apply (children_text hc).answers hclose
    intro enclosing hclose
    exact ih.children hmore.dropWhile hclose (by omega)

theorem follows (m : Nat) : Follows m := by
  induction m with
  | zero =>
    constructor
    . intros
      omega
    . intros
      omega
  | succ m ih => exact ⟨ih.node_succ, ih.children_succ⟩

end Markup
end ComponentCompiler
