import ComponentCompiler.Proofs.Snippet.Operand
import ComponentCompiler.Proofs.Text.Position

/-!
This module contains where snippets stand. What is cut out of a snippet stands in the same text,
with the line and the column that the text has there, however often it is cut.
-/

namespace ComponentCompiler
namespace Snippet

variable {P : Snippet → Prop} {s t : Snippet} {text source : String} {span : Span}
    {items part inner : List Item}

def SubClosed (P : Snippet → Prop) : Prop :=
  ∀ ⦃s start⦄ stop, P s → start ≤ s.text.length → P (s.sub start stop)

theorem SubClosed.strip (h : SubClosed P) (hs : P s) : P s.strip := by
  apply h _ hs
  omega

theorem Operand.stop_le (h : Operand items part) (hitems : s.items = .ok items) :
    ∀ item ∈ part, item.start < item.stop ∧ item.stop ≤ s.text.length := by
  obtain ⟨tokens, hscan, hgroup⟩ := bind_eq_ok.mp hitems
  have hflatten := Token.flattenAll_group hgroup
  suffices hsub :
      ∃ all : List Item, (Item.flattenAll all).Sublist tokens ∧ ∀ item ∈ part, item ∈ all by
    obtain ⟨all, hsub, hmem⟩ := hsub
    obtain ⟨hincreasing, hstop⟩ := Item.increasing_of_sublist hscan hsub
    intro item hitem
    exact ⟨hincreasing.nonempty item.range (List.mem_map_of_mem (hmem item hitem)),
      hstop item (hmem item hitem)⟩
  cases h with
  | among =>
    refine ⟨_, by rw [hflatten], ?_⟩
    intro item hitem
    simp [hitem]
  | @inside _ before _ after bracket opener closer hmem =>
    refine ⟨before ++ (part ++ after), ?_, ?_⟩
    . rw [← hflatten, Item.flattenAll_eq items]
      refine List.Sublist.trans ?_ (List.sublist_flatten_of_mem (List.mem_map_of_mem hmem))
      rw [Item.flatten]
      exact ((List.sublist_append_left _ _).cons opener)
    . intro item hitem
      simp [hitem]

theorem SubClosed.covering (h : SubClosed P) (hs : P s) (hitems : s.items = .ok items)
    (hpart : Operand items part) : P (s.covering part) := by
  unfold Snippet.covering
  split
  . next first last hfirst hlast =>
    obtain ⟨hstart, hstop⟩ := hpart.stop_le hitems first (List.mem_of_head? hfirst)
    apply h.strip
    apply h _ hs
    omega
  . exact h _ hs (Nat.zero_le _)

theorem SubClosed.unwrap {opener closer : Token} (h : SubClosed P) (hs : P s)
    (hitems : s.items = .ok [.group .paren opener inner closer]) :
    P (s.sub opener.stop closer.start).strip := by
  obtain ⟨tokens, hscan, hgroup⟩ := bind_eq_ok.mp hitems
  have hopener : (Item.flattenAll [.token opener]).Sublist tokens := by
    rw [← Token.flattenAll_group hgroup]
    simp [Item.flattenAll, Item.flatten]
  apply h.strip
  apply h _ hs
  exact (Item.increasing_of_sublist hscan hopener).2 (.token opener) List.mem_cons_self

theorem SubClosed.stripParens (h : SubClosed P) (hs : P s) (ht : s.stripParens = .ok t) : P t := by
  have hgo : ∀ fuel {s}, P s → stripParens.go fuel s = .ok t → P t := by
    intro fuel
    induction fuel with
    | zero =>
      intro s hs ht
      cases ht
      exact hs
    | succ fuel ih =>
      intro s hs ht
      obtain ⟨items, hitems, ht⟩ := bind_eq_ok.mp ht
      split at ht
      . exact ih (h.unwrap hs hitems) ht
      . cases ht
        exact hs
  exact hgo _ (h.strip hs) ht

theorem snippet_of_call? {call : Call} (h : s.call? = .ok (some call)) : call.snippet = s := by
  obtain ⟨items, _, h⟩ := bind_eq_ok.mp h
  split at h
  . split at h
    . rw [pure_eq_ok, Option.some.injEq] at h
      rw [← h]
    . exact absurd (pure_eq_ok.mp h) nofun
  . exact absurd (pure_eq_ok.mp h) nofun

theorem stripParens_of_chainCall? {call : Call} (h : s.chainCall? = .ok (some call)) :
    s.stripParens = .ok call.snippet := by
  obtain ⟨t, ht, h⟩ := bind_eq_ok.mp h
  obtain ⟨found, hcall, h⟩ := bind_eq_ok.mp h
  cases found with
  | none => exact absurd (pure_eq_ok.mp h) nofun
  | some found =>
    dsimp only at h
    split at h
    . rw [pure_eq_ok, Option.some.injEq] at h
      rw [← h, snippet_of_call? hcall, ht]
    . exact absurd (pure_eq_ok.mp h) nofun

structure Inside (s t : Snippet) : Prop where
  start : s.origin.offset ≤ t.origin.offset
  stop : t.origin.offset + t.text.length ≤ s.origin.offset + s.text.length

theorem subClosed_inside (s : Snippet) : SubClosed s.Inside := by
  intro t start stop h hstart
  have hlength : (t.sub start stop).text.length ≤ t.text.length - start := by
    rw [text_sub, Text.slice, String.length_ofList, List.length_take, List.length_drop,
      String.length_toList]
    omega
  have hoffset : (t.sub start stop).origin.offset = t.origin.offset + start := rfl
  obtain ⟨hfirst, hlast⟩ := h
  constructor
  . omega
  . omega

/-- The snippet stands in the text, at its origin. -/
def StandsIn (text : String) (s : Snippet) : Prop :=
  s.origin.Holds text.toList s.text.toList

theorem subClosed_standsIn (text : String) : SubClosed (StandsIn text) := by
  intro s start stop h hstart
  rw [← String.length_toList] at hstart
  have hpart := Origin.Holds.part h hstart (stop - start)
  unfold StandsIn
  rw [text_sub, Text.slice, String.toList_ofList]
  exact hpart

theorem StandsIn.quotes (h : s.StandsIn text) : s.span.Quotes text s.text := by
  have hlength : s.text.length ≤ s.text.toList.length := by rw [String.length_toList]
  refine ⟨Origin.Holds.span h (Nat.zero_le _) hlength _, ?_⟩
  have hall : s.text = Text.slice s.text 0 s.text.length := by
    rw [Text.slice, List.drop_zero, List.take_of_length_le, String.ofList_toList]
    rw [String.length_toList, Nat.sub_zero]
  rw [hall]
  exact (Origin.Holds.slice h (Nat.le_refl _)).symm

theorem standsIn_ofSpan (h : span.Quotes text source) : (ofSpan source span).StandsIn text := by
  obtain ⟨hspan, hsource⟩ := h
  have hstart : span.start ≤ text.toList.length := by
    rw [String.length_toList]
    exact Nat.le_trans hspan.le hspan.stop_le
  have hholds := Origin.holds_lineCol text.toList hstart (span.stop - span.start)
  unfold StandsIn ofSpan
  dsimp only
  rw [← hspan.first] at hholds
  rw [hsource, Text.slice, String.toList_ofList]
  exact hholds

end Snippet
end ComponentCompiler
