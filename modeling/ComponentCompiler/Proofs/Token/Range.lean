import ComponentCompiler.Proofs.Token.Balanced
import ComponentCompiler.Proofs.Token.Problem
import Mathlib.Data.List.Forall2

/-!
This module contains the ranges of offsets at which tokens and items stand. Those of the tokens of a
text are not empty and follow one another, and so do those of its items, each of which reaches from
the first to the last of its tokens.
-/

namespace ComponentCompiler

/-- Ranges of offsets that are not empty, each after the ones before it. -/
structure Increasing (ranges : List (Nat × Nat)) : Prop where
  nonempty : ∀ r ∈ ranges, r.1 < r.2
  apart : ranges.Pairwise fun r s => r.2 ≤ s.1

def Within (r s : Nat × Nat) : Prop :=
  s.1 ≤ r.1 ∧ r.2 ≤ s.2

def IsHull (ranges : List (Nat × Nat)) (hull : Nat × Nat) : Prop :=
  ranges.head?.map Prod.fst = some hull.1 ∧ ranges.getLast?.map Prod.snd = some hull.2

variable {ranges more hulls : List (Nat × Nat)} {r s hull : Nat × Nat}

theorem increasing_nil : Increasing [] :=
  ⟨by simp, .nil⟩

theorem increasing_append :
    Increasing (ranges ++ more)
      ↔
    Increasing ranges ∧ Increasing more ∧ ∀ r ∈ ranges, ∀ s ∈ more, r.2 ≤ s.1 := by
  constructor
  . rintro ⟨hnonempty, hapart⟩
    obtain ⟨hranges, hmore, hbetween⟩ := List.pairwise_append.mp hapart
    exact ⟨⟨fun r hr => hnonempty r (List.mem_append_left _ hr), hranges⟩,
      ⟨fun r hr => hnonempty r (List.mem_append_right _ hr), hmore⟩, hbetween⟩
  . rintro ⟨hranges, hmore, hbetween⟩
    refine ⟨?_, List.pairwise_append.mpr ⟨hranges.apart, hmore.apart, hbetween⟩⟩
    intro r hr
    rcases List.mem_append.mp hr with hr | hr
    . exact hranges.nonempty r hr
    . exact hmore.nonempty r hr

theorem increasing_cons :
    Increasing (r :: ranges) ↔ r.1 < r.2 ∧ Increasing ranges ∧ ∀ s ∈ ranges, r.2 ≤ s.1 := by
  constructor
  . rintro ⟨hnonempty, hapart⟩
    rw [List.pairwise_cons] at hapart
    rw [List.forall_mem_cons] at hnonempty
    exact ⟨hnonempty.1, ⟨hnonempty.2, hapart.2⟩, hapart.1⟩
  . rintro ⟨hr, hranges, hafter⟩
    exact ⟨List.forall_mem_cons.mpr ⟨hr, hranges.nonempty⟩,
      List.pairwise_cons.mpr ⟨hafter, hranges.apart⟩⟩

theorem Increasing.sublist (h : Increasing more) (hsub : ranges.Sublist more) : Increasing ranges :=
  ⟨fun r hr => h.nonempty r (hsub.subset hr), h.apart.sublist hsub⟩

theorem IsHull.first (h : IsHull ranges hull) :
    ∃ first rest, ranges = first :: rest ∧ first.1 = hull.1 := by
  obtain ⟨first, hfirst, hstart⟩ := Option.map_eq_some_iff.mp h.1
  obtain ⟨rest, hrest⟩ := List.head?_eq_some_iff.mp hfirst
  exact ⟨first, rest, hrest, hstart⟩

theorem IsHull.last (h : IsHull ranges hull) :
    ∃ before last, ranges = before ++ [last] ∧ last.2 = hull.2 := by
  obtain ⟨last, hlast, hstop⟩ := Option.map_eq_some_iff.mp h.2
  obtain ⟨before, hbefore⟩ := List.getLast?_eq_some_iff.mp hlast
  exact ⟨before, last, hbefore, hstop⟩

theorem IsHull.unique (h : IsHull ranges r) (h' : IsHull ranges s) : r = s := by
  rw [IsHull, h.1, h.2] at h'
  exact Prod.ext (Option.some.inj h'.1) (Option.some.inj h'.2)

theorem IsHull.ne_nil (h : IsHull ranges hull) : ranges ≠ [] := by
  obtain ⟨first, rest, hranges, _⟩ := h.first
  simp [hranges]

theorem IsHull.flatten {groups : List (List (Nat × Nat))} (h : IsHull hulls hull)
    (hhulls : List.Forall₂ IsHull groups hulls) : IsHull groups.flatten hull := by
  constructor
  . obtain ⟨first, rest, rfl, hstart⟩ := h.first
    obtain ⟨group, more, hgroup, _, rfl⟩ := List.forall₂_cons_right_iff.mp hhulls
    rw [List.flatten_cons, List.head?_append_of_ne_nil _ hgroup.ne_nil, hgroup.1, hstart]
  . obtain ⟨before, last, rfl, hstop⟩ := h.last
    obtain ⟨groups, ends, rfl, _, hends⟩ := append_of_forall₂ hhulls
    obtain ⟨group, more, hgroup, hmore, rfl⟩ := List.forall₂_cons_right_iff.mp hends
    rw [List.forall₂_nil_right_iff] at hmore
    rw [hmore, List.flatten_append, List.flatten_singleton,
      List.getLast?_append_of_ne_nil _ hgroup.ne_nil, hgroup.2, hstop]

theorem Increasing.within (h : Increasing ranges) (hhull : IsHull ranges hull) (hr : r ∈ ranges) :
    Within r hull := by
  have hnonempty := h.nonempty r hr
  constructor
  . obtain ⟨first, rest, rfl, hstart⟩ := hhull.first
    obtain ⟨hfirst, _, hafter⟩ := increasing_cons.mp h
    rcases List.mem_cons.mp hr with rfl | hr
    . omega
    . have := hafter r hr
      omega
  . obtain ⟨before, last, rfl, hstop⟩ := hhull.last
    obtain ⟨_, hlast, hbefore⟩ := increasing_append.mp h
    rcases List.mem_append.mp hr with hr | hr
    . have := hbefore r hr last (List.mem_singleton_self _)
      have := hlast.nonempty last (List.mem_singleton_self _)
      omega
    . rw [List.mem_singleton] at hr
      rw [hr]
      omega

theorem Increasing.join {groups : List (List (Nat × Nat))} (h : Increasing groups.flatten)
    (hhulls : List.Forall₂ IsHull groups hulls) : Increasing hulls := by
  induction hhulls with
  | nil => exact increasing_nil
  | @cons group hull groups hulls hhull hhulls ih =>
    rw [List.flatten_cons, increasing_append] at h
    obtain ⟨hgroup, hgroups, hbetween⟩ := h
    obtain ⟨before, last, hbefore, hstop⟩ := hhull.last
    have hmem : last ∈ group := by simp [hbefore]
    refine increasing_cons.mpr ⟨?_, ih hgroups, ?_⟩
    . have := hgroup.nonempty last hmem
      have := (hgroup.within hhull hmem).1
      omega
    . intro other hother
      obtain ⟨ranges, hranges, hhull'⟩ := exists_left_of_forall₂ hhulls hother
      obtain ⟨first, rest, rfl, hstart⟩ := hhull'.first
      have := hbetween last hmem first (List.mem_flatten.mpr ⟨_, hranges, List.mem_cons_self⟩)
      omega

theorem Increasing.exists_hull {groups : List (List (Nat × Nat))} (h : Increasing groups.flatten)
    (hhulls : List.Forall₂ IsHull groups hulls) (hr : r ∈ groups.flatten) :
    ∃ hull ∈ hulls, Within r hull := by
  obtain ⟨group, hgroup, hr⟩ := List.mem_flatten.mp hr
  obtain ⟨hull, hmem, hhull⟩ := exists_left_of_forall₂ hhulls.flip hgroup
  exact ⟨hull, hmem, (h.sublist (List.sublist_flatten_of_mem hgroup)).within hhull hr⟩

theorem Within.trans (h : Within r s) (hs : Within s hull) : Within r hull :=
  ⟨Nat.le_trans hs.1 h.1, Nat.le_trans h.2 hs.2⟩

theorem Increasing.exists_unique (h : Increasing ranges) (hr : r.1 < r.2) (hs : s ∈ ranges)
    (hwithin : Within r s) : ∃! i : Nat, ∃ s, ranges[i]? = some s ∧ Within r s := by
  obtain ⟨i, hi, rfl⟩ := List.getElem_of_mem hs
  refine ⟨i, ⟨_, List.getElem?_eq_getElem hi, hwithin⟩, ?_⟩
  rintro j ⟨s, hs, hwithin'⟩
  obtain ⟨hj, rfl⟩ := List.getElem?_eq_some_iff.mp hs
  have hapart := List.pairwise_iff_getElem.mp h.apart
  simp only [Within] at hwithin hwithin'
  rcases Nat.lt_trichotomy j i with hlt | heq | hlt
  . have := hapart j i hj hi hlt
    omega
  . exact heq
  . have := hapart i j hi hj hlt
    omega

def Token.range (t : Token) : Nat × Nat :=
  (t.start, t.stop)

def Item.range (item : Item) : Nat × Nat :=
  (item.start, item.stop)

namespace Token

theorem Run.le_start (h : Run operand ws rest) (ht : t ∈ tokensAt pos ws) : pos ≤ t.start := by
  induction ws generalizing operand pos with
  | nil => simp [tokensAt] at ht
  | cons w ws ih =>
    rcases List.mem_cons.mp ht with rfl | ht
    . exact Nat.le_add_right _ _
    . exact Nat.le_trans (Nat.le_add_right _ _) (ih h.2 ht)

theorem increasing_of_run (h : Run operand ws rest) : Increasing ((tokensAt pos ws).map range) := by
  induction ws generalizing operand pos with
  | nil => exact increasing_nil
  | cons w ws ih =>
    refine increasing_cons.mpr ⟨?_, ih h.2, ?_⟩
    . have := List.length_pos_iff.mpr h.1.text_ne_nil
      simp only [Token.range, Word.token, Word.chars, List.length_append]
      omega
    . intro r hr
      obtain ⟨t, ht, rfl⟩ := List.mem_map.mp hr
      exact h.2.le_start ht

theorem increasing_of_scanWindow {start stop : Nat} (h : scanWindow text start stop = .ok tokens) :
    Increasing (tokens.map range) := by
  obtain ⟨ws, rest, hrun, _, rfl⟩ := scanFrom_ok h
  exact increasing_of_run hrun

theorem increasing_of_scan (h : scan text = .ok tokens) : Increasing (tokens.map range) :=
  increasing_of_scanWindow h

end Token

namespace Item

theorem isHull_flatten (item : Item) : IsHull (item.flatten.map Token.range) item.range := by
  cases item with
  | token t => exact ⟨rfl, rfl⟩
  | group bracket opener items closer =>
    refine ⟨rfl, ?_⟩
    rw [flatten, List.map_cons, List.map_append, List.map_singleton, ← List.cons_append,
      List.getLast?_concat]
    rfl

theorem flattenAll_eq (items : List Item) : flattenAll items = items.flatMap flatten := by
  induction items with
  | nil => rfl
  | cons item items ih => rw [flattenAll, ih, List.flatMap_cons]

theorem within_of_mem_flatten {items : List Item}
    (h : Increasing ((flattenAll items).map Token.range))
    (hitem : item ∈ items) (ht : t ∈ item.flatten) : Within t.range item.range := by
  have hsub : (item.flatten.map Token.range).Sublist ((flattenAll items).map Token.range) := by
    rw [flattenAll_eq]
    exact (List.sublist_flatten_of_mem (List.mem_map_of_mem hitem)).map _
  exact (h.sublist hsub).within (isHull_flatten item) (List.mem_map_of_mem ht)

theorem map_range_flattenAll (items : List Item) :
    (flattenAll items).map Token.range = (items.map (·.flatten.map Token.range)).flatten := by
  rw [flattenAll_eq, List.map_flatMap, List.flatMap]

theorem forall₂_isHull_flatten (items : List Item) :
    List.Forall₂ IsHull (items.map (·.flatten.map Token.range)) (items.map range) := by
  rw [List.forall₂_map_left_iff, List.forall₂_map_right_iff, List.forall₂_same]
  exact fun item _ => isHull_flatten item

theorem increasing_of_flattenAll {items : List Item}
    (h : Increasing ((flattenAll items).map Token.range)) : Increasing (items.map range) := by
  rw [map_range_flattenAll] at h
  exact h.join (forall₂_isHull_flatten items)

theorem isHull_flattenAll {items : List Item} (h : IsHull (items.map range) hull) :
    IsHull ((flattenAll items).map Token.range) hull := by
  rw [map_range_flattenAll]
  exact h.flatten (forall₂_isHull_flatten items)

theorem exists_mem_flatten (item : Item) : ∃ t ∈ item.flatten, t.stop = item.stop := by
  cases item with
  | token t => exact ⟨t, by simp [flatten], rfl⟩
  | group bracket opener items closer => exact ⟨closer, by simp [flatten], rfl⟩

theorem increasing_of_sublist {items : List Item} {tokens : List Token} {start stop : Nat}
    (h : Token.scanWindow text start stop = .ok tokens) (hsub : (flattenAll items).Sublist tokens) :
    Increasing (items.map range) ∧ ∀ item ∈ items, item.stop ≤ text.length := by
  constructor
  . exact increasing_of_flattenAll ((Token.increasing_of_scanWindow h).sublist (hsub.map _))
  . intro item hitem
    obtain ⟨t, ht, hstop⟩ := exists_mem_flatten item
    rw [← hstop]
    apply Token.stop_le_of_scanWindow h
    apply hsub.subset
    rw [flattenAll_eq, List.mem_flatMap]
    exact ⟨item, hitem, ht⟩

end Item
end ComponentCompiler
