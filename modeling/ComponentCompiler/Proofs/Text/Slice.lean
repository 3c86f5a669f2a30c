import ComponentCompiler.Text.Basic

/-!
This module contains slices of a text in terms of the parts that the text is made of, and what a
list that is split at separators is made of.
-/

namespace ComponentCompiler
namespace Text

variable {text : String} {before used after cs : List Char}

theorem length_eq (h : text.toList = cs) : text.length = cs.length := by
  rw [← h, String.length_toList]

theorem toList_slice (h : text.toList = before ++ (used ++ after)) (hstart : start = before.length)
    (hstop : stop = start + used.length) : (slice text start stop).toList = used := by
  rw [slice, String.toList_ofList, h, hstart, List.drop_left]
  apply List.take_left'
  omega

theorem toList_eq_of_slice (text : String) {start stop : Nat} (h : start ≤ stop) :
    text.toList = text.toList.take start ++
      ((slice text start stop).toList ++ text.toList.drop stop) := by
  obtain ⟨n, rfl⟩ := Nat.exists_eq_add_of_le h
  rw [slice, String.toList_ofList, Nat.add_sub_cancel_left, ← List.drop_drop, List.take_append_drop,
    List.take_append_drop]

theorem toList_eq_of_getElem? {text : String} (h : text.toList[pos]? = some c) :
    text.toList = text.toList.take pos ++ c :: text.toList.drop (pos + 1) ∧
      (text.toList.take pos).length = pos := by
  obtain ⟨hpos, rfl⟩ := List.getElem?_eq_some_iff.mp h
  refine ⟨?_, ?_⟩
  . rw [List.getElem_cons_drop, List.take_append_drop]
  . rw [List.length_take]
    omega

theorem splitOnP_ne_nil (sep : α → Bool) (items : List α) : splitOnP sep items ≠ [] := by
  cases items with
  | nil => simp [splitOnP]
  | cons item items =>
    rw [splitOnP]
    split
    . simp
    . split <;> simp

theorem splitOnP_eq_cons {sep : α → Bool} {items first : List α} {parts : List (List α)}
    (h : splitOnP sep items = first :: parts) :
    (∃ after, items = first ++ after ∧ ∀ item ∈ after.head?, sep item = true) ∧
    ∀ part ∈ parts, ∃ before item after, items = before ++ item :: (part ++ after) ∧
      sep item = true := by
  induction items generalizing first parts with
  | nil =>
    cases h
    exact ⟨⟨[], rfl, by simp⟩, by simp⟩
  | cons item items ih =>
    rw [splitOnP] at h
    split at h
    . next hsep =>
      cases h
      refine ⟨⟨_, rfl, by simpa using hsep⟩, ?_⟩
      cases hrest : splitOnP sep items with
      | nil => simp
      | cons second parts =>
        obtain ⟨⟨after, hafter, _⟩, hparts⟩ := ih hrest
        intro part hpart
        rcases List.mem_cons.mp hpart with rfl | hpart
        . exact ⟨[], item, after, by rw [← hafter]; rfl, hsep⟩
        . obtain ⟨before, other, after, rfl, hother⟩ := hparts part hpart
          exact ⟨item :: before, other, after, rfl, hother⟩
    . split at h
      . cases h
        exact absurd ‹_› (splitOnP_ne_nil sep items)
      . next second parts hrest =>
        cases h
        obtain ⟨⟨after, rfl, hafter⟩, hparts⟩ := ih hrest
        refine ⟨⟨after, rfl, hafter⟩, ?_⟩
        intro part hpart
        obtain ⟨before, other, after, hitems, hother⟩ := hparts part hpart
        exact ⟨item :: before, other, after, by rw [hitems]; rfl, hother⟩

theorem exists_of_mem_splitOnP {sep : α → Bool} {items part : List α}
    (h : part ∈ splitOnP sep items) :
    ∃ before after, items = before ++ (part ++ after) ∧
      (before = [] ∨ ∃ more item, before = more ++ [item] ∧ sep item = true) := by
  cases hsplit : splitOnP sep items with
  | nil => simp [hsplit] at h
  | cons first parts =>
    obtain ⟨⟨after, hafter, _⟩, hparts⟩ := splitOnP_eq_cons hsplit
    rw [hsplit] at h
    rcases List.mem_cons.mp h with rfl | h
    . exact ⟨[], after, hafter, .inl rfl⟩
    . obtain ⟨before, item, after, rfl, hitem⟩ := hparts part h
      exact ⟨before ++ [item], after, by simp, .inr ⟨before, item, rfl, hitem⟩⟩

theorem splitOnP_eq_singleton {sep : α → Bool} {as : List α} (hfree : ∀ a ∈ as, sep a = false) :
    splitOnP sep as = [as] := by
  induction as with
  | nil => rfl
  | cons a as ih =>
    rw [List.forall_mem_cons] at hfree
    rw [splitOnP, if_neg (by simp [hfree.1]), ih hfree.2]

theorem splitOnP_append {sep : α → Bool} {as bs : List α} (hfree : ∀ a ∈ as, sep a = false)
    (hx : sep x = true) : splitOnP sep (as ++ x :: bs) = as :: splitOnP sep bs := by
  induction as with
  | nil => rw [List.nil_append, splitOnP, if_pos hx]
  | cons a as ih =>
    rw [List.forall_mem_cons] at hfree
    rw [List.cons_append, splitOnP, if_neg (by simp [hfree.1]), ih hfree.2]

theorem splitOnP_append_cons {sep : α → Bool} (as bs : List α) (hx : sep x = true) :
    splitOnP sep (as ++ x :: bs) = splitOnP sep as ++ splitOnP sep bs := by
  induction as with
  | nil =>
    simp [splitOnP, hx]
  | cons a as ih =>
    rw [List.cons_append, splitOnP, splitOnP, ih]
    split
    . rfl
    . cases hparts : splitOnP sep as with
      | nil => exact absurd hparts (splitOnP_ne_nil sep as)
      | cons part parts => rfl

theorem splitOnP_free_append {sep : α → Bool} {as : List α} (hfree : ∀ a ∈ as, sep a = false)
    (bs : List α) :
    ∃ part parts, splitOnP sep bs = part :: parts ∧
      splitOnP sep (as ++ bs) = (as ++ part) :: parts := by
  induction as with
  | nil =>
    cases hparts : splitOnP sep bs with
    | nil => exact absurd hparts (splitOnP_ne_nil sep bs)
    | cons part parts => exact ⟨part, parts, rfl, hparts⟩
  | cons a as ih =>
    rw [List.forall_mem_cons] at hfree
    obtain ⟨part, parts, hbs, hrest⟩ := ih hfree.2
    refine ⟨part, parts, hbs, ?_⟩
    rw [List.cons_append, splitOnP, if_neg (by simp [hfree.1]), hrest]
    rfl

theorem splitOnP_map (sep : β → Bool) (f : α → β) (items : List α) :
    splitOnP sep (items.map f) = (splitOnP (sep ∘ f) items).map (·.map f) := by
  induction items with
  | nil => rfl
  | cons item items ih =>
    rw [List.map_cons, splitOnP, splitOnP, ih, Function.comp_apply]
    split
    . rfl
    . cases splitOnP (sep ∘ f) items <;> rfl

theorem eq_false_of_mem_splitOnP {sep : α → Bool} {items part : List α}
    (h : part ∈ splitOnP sep items) : ∀ a ∈ part, sep a = false := by
  induction items generalizing part with
  | nil =>
    rw [splitOnP, List.mem_singleton] at h
    simp [h]
  | cons item items ih =>
    rw [splitOnP] at h
    split at h
    . rcases List.mem_cons.mp h with rfl | h
      . simp
      . exact ih h
    . next hitem =>
      rw [Bool.not_eq_true] at hitem
      split at h
      . rw [List.mem_singleton] at h
        simp [h, hitem]
      . next first parts hsplit =>
        rw [hsplit, List.forall_mem_cons] at ih
        rcases List.mem_cons.mp h with rfl | h
        . exact List.forall_mem_cons.mpr ⟨hitem, ih.1⟩
        . exact ih.2 part h

end Text
end ComponentCompiler
