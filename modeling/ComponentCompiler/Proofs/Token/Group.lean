import ComponentCompiler.Proofs.Token.Join

/-!
This module contains which tokens nest into items. They do so just if their brackets match, and then
into the one forest of items that consists of them. Otherwise the error is at the first closing
bracket that has no partner, or else at the last opening bracket that has none.
-/

namespace ComponentCompiler
namespace Token

/-- The brackets among these tokens match. -/
inductive Nested : List Token → Prop where
  | nil : Nested []
  | other {t : Token} {rest : List Token} (hopen : t.opens? = none) (hclose : t.closes? = none)
      (hrest : Nested rest) :
    Nested (t :: rest)
  | group {bracket : Bracket} {opener closer : Token} {inner rest : List Token}
      (hopen : opener.opens? = some bracket)
      (hinner : Nested inner) (hclose : closer.closes? = some bracket) (hrest : Nested rest) :
    Nested (opener :: (inner ++ closer :: rest))

/-- The innermost of the brackets that are open after these tokens. -/
def LastOpen (tokens : List Token) (opener : Token) : Prop :=
  ∃ outer inner, tokens = outer ++ opener :: inner ∧ opener.opens?.isSome = true ∧ Nested inner

/-- The token closes the innermost of the brackets that are open before it. -/
def Matches (before : List Token) (t : Token) : Prop :=
  ∃ opener, LastOpen before opener ∧ t.closes? = opener.opens?

/-- Every closing bracket among these tokens closes the innermost of the brackets that are open
before it. -/
def Closes (tokens : List Token) : Prop :=
  ∀ before t after, tokens = before ++ t :: after → t.closes?.isSome = true → Matches before t

/-- The first closing bracket that does not close the innermost of the brackets that are open before
it. -/
def FirstUnmatched (tokens : List Token) (t : Token) : Prop :=
  ∃ before after, tokens = before ++ t :: after ∧ t.closes?.isSome = true ∧ ¬ Matches before t ∧
    Closes before

/-- The error for tokens whose brackets do not match: at the first closing bracket that is wrong, or
else at the innermost bracket that is left open. -/
inductive Misnested (tokens : List Token) : ScanError → Prop where
  | unmatched {t : Token} (h : FirstUnmatched tokens t) :
    Misnested tokens (.problem (.unmatchedBracket t.value) t.start)
  | unclosed {opener : Token} (hcloses : Closes tokens) (h : LastOpen tokens opener) :
    Misnested tokens (.problem (.unclosedBracket opener.value) opener.start)

variable {tokens before after outer inner rest : List Token} {t opener closer : Token}
    {items : List Item}
variable {bracket : Bracket} {stack : List Open}

theorem opens?_of_closes? (h : t.closes? = some bracket) : t.opens? = none := by
  have hnone : ∀ b : Bracket, Bracket.all.find? (·.opening.toString == b.closing.toString) =
      none := by
    intro b
    cases b <;> decide
  unfold closes? at h
  split at h
  . next hkind =>
    have hvalue := List.find?_some h
    simp only [beq_iff_eq] at hvalue
    rw [opens?, if_pos hkind, ← hvalue]
    exact hnone bracket
  . simp at h

theorem Nested.append (h : Nested tokens) (hrest : Nested rest) : Nested (tokens ++ rest) := by
  induction h with
  | nil => exact hrest
  | other hopen hclose _ ih => exact .other hopen hclose ih
  | group hopen hinner hclose _ _ ih =>
    rw [List.cons_append, List.append_assoc, List.cons_append]
    exact .group hopen hinner hclose ih

theorem nested_flattenAll (h : ∀ item ∈ items, Nested item.flatten) :
    Nested (Item.flattenAll items) := by
  induction items with
  | nil => exact .nil
  | cons item items ih =>
    rw [List.forall_mem_cons] at h
    exact h.1.append (ih h.2)

theorem nested_of_matched {item : Item} (h : item.Matched) : Nested item.flatten := by
  induction h with
  | token hopen hclose => exact .other hopen hclose .nil
  | group hopener _ hclose _ ih => exact .group hopener (nested_flattenAll ih) hclose .nil

theorem exists_items_of_nested (h : Nested tokens) :
    ∃ items, (∀ item ∈ items, item.Matched) ∧ Item.flattenAll items = tokens := by
  induction h with
  | nil => exact ⟨[], by simp, rfl⟩
  | @other t rest hopen hclose _ ih =>
    obtain ⟨items, hitems, rfl⟩ := ih
    exact ⟨.token t :: items, List.forall_mem_cons.mpr ⟨.token hopen hclose, hitems⟩, rfl⟩
  | @group bracket opener closer inner rest hopen _ hclose _ ihinner ihrest =>
    obtain ⟨content, hcontent, rfl⟩ := ihinner
    obtain ⟨items, hitems, rfl⟩ := ihrest
    refine ⟨.group bracket opener content closer :: items,
      List.forall_mem_cons.mpr ⟨?_, hitems⟩, ?_⟩
    . exact .group hopen (opens?_of_closes? hclose) hclose hcontent
    . simp [Item.flattenAll, Item.flatten]

theorem group_flattenAll (h : ∀ item ∈ items, item.Matched) :
    group (Item.flattenAll items) = .ok items := by
  have hgo := @go_flattenAll [] items (fun item hitem => go_flatten (h item hitem)) [] []
  rw [List.append_nil, List.append_nil] at hgo
  rw [group, hgo, group.go, List.reverse_reverse]

theorem group_eq_ok :
    group tokens = .ok items ↔ (∀ item ∈ items, item.Matched) ∧ Item.flattenAll items = tokens := by
  constructor
  . intro h
    exact ⟨matched_of_group h, flattenAll_group h⟩
  . rintro ⟨hitems, rfl⟩
    exact group_flattenAll hitems

theorem exists_group_eq_ok : (∃ items, group tokens = .ok items) ↔ Nested tokens := by
  simp only [group_eq_ok]
  constructor
  . rintro ⟨items, hitems, rfl⟩
    exact nested_flattenAll fun item hitem => nested_of_matched (hitems item hitem)
  . exact exists_items_of_nested

theorem go_append (stack : List Open) (items : List Item) (tokens : List Token) :
    (∃ e, ∀ more, group.go stack items (tokens ++ more) = .error e) ∨
    ∃ stack' items', ∀ more, group.go stack items (tokens ++ more) =
      group.go stack' items' more := by
  fun_induction group.go stack items tokens with
  | case1 items => exact .inr ⟨[], items, fun _ => rfl⟩
  | case2 o stack items => exact .inr ⟨o :: stack, items, fun _ => rfl⟩
  | case3 stack items t ts bracket hopen ih =>
    simpa only [List.cons_append, group.go_opening hopen] using ih
  | case4 items t ts bracket hclose hopen =>
    refine .inl ⟨.problem (.unmatchedBracket t.value) t.start, ?_⟩
    intro more
    rw [List.cons_append, group.go.eq_def]
    simp [hopen, hclose]
  | case5 items t ts hopen o stack hclose ih =>
    simpa only [List.cons_append, group.go_closing hopen hclose] using ih
  | case6 items t ts bracket hclose hopen o stack hbracket =>
    refine .inl ⟨.problem (.unmatchedBracket t.value) t.start, ?_⟩
    intro more
    rw [List.cons_append, group.go.eq_def]
    simp [hopen, hclose, hbracket]
  | case7 stack items t ts hclose hopen ih =>
    simpa only [List.cons_append, group.go_other hopen hclose] using ih

theorem not_nested_of_lastOpen (h : LastOpen tokens opener) : ¬ Nested tokens := by
  obtain ⟨outer, inner, rfl, hopen, hinner⟩ := h
  obtain ⟨bracket, hopen⟩ := Option.isSome_iff_exists.mp hopen
  obtain ⟨content, hcontent⟩ := exists_group_eq_ok.mpr hinner
  intro h
  obtain ⟨items, h⟩ := exists_group_eq_ok.mpr h
  rw [group] at h
  rcases go_append [] [] outer with ⟨e, hgo⟩ | ⟨stack, before, hgo⟩
  . simp [hgo] at h
  -- the bracket is still open at the end of the tokens
  . have hend := go_of_group hcontent (⟨bracket, opener, before⟩ :: stack) [] []
    rw [List.append_nil] at hend
    rw [hgo, group.go_opening hopen, hend, group.go] at h
    cases h

theorem eq_or_after (h : before ++ t :: after = before' ++ u :: after') :
    t = u ∨ (∃ mid, before' = before ++ t :: mid ∧ after = mid ++ u :: after') ∨
      ∃ mid, before = before' ++ u :: mid ∧ after' = mid ++ t :: after := by
  rcases List.append_eq_append_iff.mp h with ⟨mid, hbefore, hafter⟩ | ⟨mid, hbefore, hafter⟩
  . cases mid with
    | nil => exact .inl (List.cons.inj hafter).1
    | cons first mid =>
      obtain ⟨rfl, hmid⟩ := List.cons.inj hafter
      exact .inr (.inl ⟨mid, hbefore, hmid⟩)
  . cases mid with
    | nil => exact .inl (List.cons.inj hafter).1.symm
    | cons first mid =>
      obtain ⟨rfl, hmid⟩ := List.cons.inj hafter
      exact .inr (.inr ⟨mid, hbefore, hmid⟩)

theorem LastOpen.unique (h : LastOpen tokens opener) (h' : LastOpen tokens t) : opener = t := by
  obtain ⟨outer, inner, rfl, hopen, hinner⟩ := h
  obtain ⟨outer', inner', heq, hopen', hinner'⟩ := h'
  -- the later one of two would be open among the tokens that nest after the earlier one
  rcases eq_or_after heq with h | ⟨mid, _, rfl⟩ | ⟨mid, _, rfl⟩
  . exact h
  . exact absurd hinner (not_nested_of_lastOpen ⟨mid, inner', rfl, hopen', hinner'⟩)
  . exact absurd hinner' (not_nested_of_lastOpen ⟨mid, inner, rfl, hopen, hinner⟩)

theorem Closes.concat (h : Closes tokens) (ht : t.closes?.isSome = true → Matches tokens t) :
    Closes (tokens ++ [t]) := by
  intro before u after heq hu
  rcases List.eq_nil_or_concat after with rfl | ⟨after, last, rfl⟩
  . obtain ⟨rfl, hlast⟩ := List.append_inj' heq rfl
    obtain ⟨rfl, _⟩ := List.cons.inj hlast
    exact ht hu
  . rw [List.concat_eq_append, ← List.cons_append, ← List.append_assoc] at heq
    exact h before u after (List.append_inj' heq rfl).1 hu

structure Consumed (before : List Token) (stack : List Open) (items : List Item) : Prop where
  tokens : before = flattenOpen stack ++ Item.flattenAll items.reverse
  items : ∀ item ∈ items, item.Matched
  stack : ∀ o ∈ stack, o.opener.opens? = some o.bracket ∧ ∀ item ∈ o.before, item.Matched

namespace Consumed

theorem nested (h : Consumed before stack items) : Nested (Item.flattenAll items.reverse) := by
  apply nested_flattenAll
  intro item hitem
  exact nested_of_matched (h.items item (List.mem_reverse.mp hitem))

theorem opening (h : Consumed before stack items) (hopen : t.opens? = some bracket) :
    Consumed (before ++ [t]) (⟨bracket, t, items⟩ :: stack) [] where
  tokens := by
    rw [h.tokens, flattenOpen_cons]
    simp [Item.flattenAll]
  items := by simp
  stack := List.forall_mem_cons.mpr ⟨⟨hopen, h.items⟩, h.stack⟩

theorem closing (h : Consumed before (o :: stack) items) (hclose : t.closes? = some o.bracket) :
    Consumed (before ++ [t]) stack (.group o.bracket o.opener items.reverse t :: o.before) where
  tokens := by
    rw [h.tokens, flattenOpen_cons, flattenAll_reverse_cons]
    simp [Item.flatten]
  items := by
    obtain ⟨hopener, hbefore⟩ := h.stack o List.mem_cons_self
    refine List.forall_mem_cons.mpr ⟨.group hopener (opens?_of_closes? hclose) hclose ?_, hbefore⟩
    simpa using h.items
  stack := (List.forall_mem_cons.mp h.stack).2

theorem other (h : Consumed before stack items) (hopen : t.opens? = none)
    (hclose : t.closes? = none) :
    Consumed (before ++ [t]) stack (.token t :: items) where
  tokens := by
    rw [h.tokens, flattenAll_reverse_cons]
    simp [Item.flatten]
  items := List.forall_mem_cons.mpr ⟨.token hopen hclose, h.items⟩
  stack := h.stack

theorem lastOpen (h : Consumed before (o :: stack) items) : LastOpen before o.opener := by
  refine ⟨flattenOpen stack ++ Item.flattenAll o.before.reverse, Item.flattenAll items.reverse, ?_,
    ?_, h.nested⟩
  . rw [h.tokens, flattenOpen_cons]
    simp
  . rw [(h.stack o List.mem_cons_self).1]
    rfl

theorem matches_iff (h : Consumed before (o :: stack) items) :
    Matches before t ↔ t.closes? = some o.bracket := by
  have hopener := (h.stack o List.mem_cons_self).1
  constructor
  . rintro ⟨opener, hopen, hclose⟩
    rw [hclose, hopen.unique h.lastOpen, hopener]
  . intro hclose
    exact ⟨o.opener, h.lastOpen, by rw [hclose, hopener]⟩

theorem not_matches (h : Consumed before [] items) : ¬ Matches before t := by
  rintro ⟨opener, hopen, _⟩
  apply not_nested_of_lastOpen hopen
  rw [h.tokens]
  exact h.nested

end Consumed

theorem go_closes (hconsumed : Consumed before stack items) (hcloses : Closes before) :
    (∀ result, group.go stack items tokens = .ok result → Closes (before ++ tokens)) ∧
    ∀ e, group.go stack items tokens = .error e → Misnested (before ++ tokens) e := by
  fun_induction group.go stack items tokens generalizing before with
  | case1 items =>
    rw [List.append_nil]
    refine ⟨fun _ _ => hcloses, ?_⟩
    intro e h
    cases h
  | case2 o stack items =>
    rw [List.append_nil]
    refine ⟨by simp, ?_⟩
    intro e h
    cases h
    exact .unclosed hcloses hconsumed.lastOpen
  | case3 stack items t ts bracket hopen ih =>
    have hclose : t.closes? = none := by
      cases h : t.closes? with
      | none => rfl
      | some b => simp [opens?_of_closes? h] at hopen
    rw [List.append_cons]
    exact ih (hconsumed.opening hopen) (hcloses.concat (by simp [hclose]))
  | case4 items t ts bracket hclose hopen =>
    refine ⟨by simp, ?_⟩
    intro e h
    cases h
    exact .unmatched ⟨before, ts, rfl, by simp [hclose], hconsumed.not_matches, hcloses⟩
  | case5 items t ts hopen o stack hclose ih =>
    rw [List.append_cons]
    exact ih (hconsumed.closing hclose) (hcloses.concat fun _ => hconsumed.matches_iff.mpr hclose)
  | case6 items t ts bracket hclose hopen o stack hbracket =>
    refine ⟨by simp, ?_⟩
    intro e h
    cases h
    refine .unmatched ⟨before, ts, rfl, by simp [hclose], ?_, hcloses⟩
    rw [hconsumed.matches_iff, hclose]
    exact fun h => hbracket (Option.some.inj h).symm
  | case7 stack items t ts hclose hopen ih =>
    rw [List.append_cons]
    exact ih (hconsumed.other hopen hclose) (hcloses.concat (by simp [hclose]))

theorem closes_of_nested (h : Nested tokens) : Closes tokens := by
  obtain ⟨items, h⟩ := exists_group_eq_ok.mpr h
  have hstart : Consumed [] [] [] := ⟨rfl, by simp, by simp⟩
  exact (go_closes hstart (by simp [Closes])).1 items h

theorem misnested_of_group (h : group tokens = .error e) : Misnested tokens e := by
  have hstart : Consumed [] [] [] := ⟨rfl, by simp, by simp⟩
  exact (go_closes hstart (by simp [Closes])).2 e h

theorem FirstUnmatched.not_closes (h : FirstUnmatched tokens t) : ¬ Closes tokens := by
  obtain ⟨before, after, htokens, hclose, hunmatched, _⟩ := h
  exact fun hcloses => hunmatched (hcloses before t after htokens hclose)

theorem FirstUnmatched.unique (h : FirstUnmatched tokens t) (h' : FirstUnmatched tokens u) :
    t = u := by
  obtain ⟨before, after, rfl, hclose, hunmatched, hcloses⟩ := h
  obtain ⟨before', after', heq, hclose', hunmatched', hcloses'⟩ := h'
  rcases eq_or_after heq with h | ⟨mid, rfl, _⟩ | ⟨mid, rfl, _⟩
  . exact h
  . exact absurd (hcloses' before t mid rfl hclose) hunmatched
  . exact absurd (hcloses before' u mid rfl hclose') hunmatched'

theorem Misnested.unique (h : Misnested tokens e) (h' : Misnested tokens e') : e = e' := by
  cases h with
  | unmatched h =>
    cases h' with
    | unmatched h' => rw [h.unique h']
    | unclosed hcloses _ => exact absurd hcloses h.not_closes
  | unclosed hcloses h =>
    cases h' with
    | unmatched h' => exact absurd hcloses h'.not_closes
    | unclosed _ h' => rw [h.unique h']

theorem Misnested.not_nested (h : Misnested tokens e) : ¬ Nested tokens := by
  cases h with
  | unmatched h => exact fun hnested => h.not_closes (closes_of_nested hnested)
  | unclosed _ h => exact not_nested_of_lastOpen h

/-- Tokens nest just if their brackets match, into the one forest of items that consists of them,
and the error for any others is at the bracket that is wrong. -/
theorem group_decides (tokens : List Token) :
    ((∃ items, group tokens = .ok items) ↔ Nested tokens) ∧
    (∀ items, group tokens = .ok items ↔ (∀ item ∈ items, item.Matched) ∧
      Item.flattenAll items = tokens) ∧
    ∀ e, group tokens = .error e ↔ Misnested tokens e := by
  refine ⟨exists_group_eq_ok, fun items => group_eq_ok, ?_⟩
  intro e
  constructor
  . exact misnested_of_group
  . intro h
    cases hgroup : group tokens with
    | ok items => exact absurd (exists_group_eq_ok.mp ⟨items, hgroup⟩) h.not_nested
    | error e' => rw [(misnested_of_group hgroup).unique h]

end Token
end ComponentCompiler
