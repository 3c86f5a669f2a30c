import ComponentCompiler.Proofs.Name.Parameter
import ComponentCompiler.Proofs.Snippet.Tokens

/-!
This module contains the parameters of arrow functions. Each is a text that can be read by itself
and binds what it binds in the function.
-/

namespace ComponentCompiler
namespace Token

variable {text : String} {start stop : Nat} {before part after : List Token}

theorem words_of_dueAfter (h : scan text = .ok (before ++ (part ++ after)))
    (hdue : dueAfter before = true) (hhull : IsHull (part.map range) (start, stop)) :
    ∃ w ws, (Text.slice text start stop).toList = charsOf (w :: ws) ∧ w.gap = [] ∧
      Run true (w :: ws) [] ∧
      List.Forall₂ SameText part (tokensAt 0 (w :: ws)) := by
  obtain ⟨ws, rest, hrun, htext, hws⟩ := scanFrom_ok h
  rw [List.drop_zero] at htext
  obtain ⟨pre, tail, rfl, rfl, htail⟩ := eq_append_of_tokensAt hws.symm
  obtain ⟨mine, post, rfl, rfl, _⟩ := eq_append_of_tokensAt htail
  cases mine with
  | nil => exact absurd rfl hhull.ne_nil
  | cons w mine =>
    rw [← operandAt_eq_dueAfter] at hdue
    rw [run_append, hdue, run_append] at hrun
    obtain ⟨_, ⟨hw, hmine⟩, _⟩ := hrun
    obtain ⟨rfl, rfl⟩ := Prod.mk.inj (hhull.unique (isHull_tokensAt _ w mine))
    have hbare : Run true (w.bare :: mine) (charsOf post ++ rest) := ⟨hw.bare, hmine⟩
    refine ⟨w.bare, mine, ?_, rfl, hbare.agrees .nil, ?_⟩
    . have hdrop : text.toList.drop (0 + (charsOf pre).length + w.gap.length) =
          charsOf (w.bare :: mine) ++ (charsOf post ++ rest) := by
        rw [htext]
        simp [Word.chars, Word.bare, List.drop_append]
      rw [Text.slice, String.toList_ofList, hdrop]
      apply List.take_left'
      simp [Word.chars, Word.bare]
      omega
    . exact .cons ⟨rfl, rfl⟩ (sameText_tokensAt _ _ mine)

end Token

namespace Snippet

open Token (Word charsOf tokensAt)

variable {s : Snippet} {items part : List Item}

theorem readsAs_covering (hitems : s.items = .ok items) (h : Operand items part) :
    ∃ own, Token.ReadsAs (s.covering part).text own ∧
      own.map Item.detached = part.map Item.detached := by
  have hne : part ≠ [] := by cases h <;> assumption
  obtain ⟨tokens, hscan, hgroup⟩ := bind_eq_ok.mp hitems
  obtain ⟨before, after, hflatten, hdue, hmatched⟩ := h.tokens (Token.matched_of_group hgroup)
  rw [Token.flattenAll_group hgroup] at hflatten
  rw [hflatten] at hscan
  obtain ⟨first, last, hfirst, hlast, hhull⟩ := isHull_items hne
  obtain ⟨w, ws, htext, hgap, hrun, hsame⟩ := Token.words_of_dueAfter hscan hdue hhull
  obtain ⟨own, hown, hdetached⟩ := Token.group_sameText (Token.group_flattenAll hmatched) hsame
  refine ⟨own, ⟨w, ws, ?_, hgap, hrun, hown⟩, hdetached⟩
  -- no white space stands around the operand
  have hstart : Text.dropBlank (charsOf (w :: ws)) = charsOf (w :: ws) := by
    obtain ⟨c, more, hmore, hc⟩ := hrun.1.begins
    rw [Token.charsOf_cons, Word.chars, hgap, hmore, List.nil_append, List.cons_append,
      Text.dropBlank, List.dropWhile_cons_of_neg (by simp [hc])]
  have hend : Text.dropBlankEnd (charsOf (w :: ws)) = charsOf (w :: ws) := by
    have hdrop := hrun.dropBlankEnd (List.cons_ne_nil w ws) []
    rwa [show Text.dropBlankEnd [] = [] from rfl, List.append_nil] at hdrop
  rw [covering, hfirst, hlast]
  dsimp only
  rw [between, text_strip, text_sub, Text.trim, String.toList_ofList, htext, hstart, hend]

theorem arrowHead?_of_arrow? {arrow : Arrow} (h : s.arrow? = .ok (some arrow)) :
    ∃ head sign rest, s.items = .ok (head :: sign :: rest) ∧
      s.arrowHead? head = some (arrow.parameters, arrow.names) := by
  obtain ⟨items, hitems, h⟩ := bind_eq_ok.mp h
  split at h
  . next head sign first more =>
    refine ⟨head, sign, first :: more, hitems, ?_⟩
    split at h
    . split at h
      . simp [pure_eq_ok] at h
      . next hhead =>
        rw [hhead]
        split at h
        . rw [pure_eq_ok, Option.map_eq_some_iff] at h
          obtain ⟨_, _, rfl⟩ := h
          rfl
        . rw [pure_eq_ok, Option.some.injEq] at h
          rw [← h]
    . simp [pure_eq_ok] at h
  . simp [pure_eq_ok] at h

theorem isParameter_covering (hitems : s.items = .ok items) (h : Operand items part)
    (hcomma : ∀ item ∈ part, item.isPunct "," = false) :
    Name.IsParameter (s.covering part).text ∧
      Name.boundBy (s.covering part).text = Item.listedNames part := by
  obtain ⟨own, hown, hdetached⟩ := readsAs_covering hitems h
  obtain ⟨tokens, _, hgroup⟩ := bind_eq_ok.mp hitems
  obtain ⟨_, _, _, _, hmatched⟩ := h.tokens (Token.matched_of_group hgroup)
  constructor
  . refine ⟨own, hown, ?_⟩
    intro item hitem
    have hmem : item.detached ∈ part.map Item.detached := by
      rw [← hdetached]
      exact List.mem_map_of_mem hitem
    obtain ⟨other, hother, heq⟩ := List.mem_map.mp hmem
    rw [← Item.isPunct_detached, ← heq, Item.isPunct_detached]
    exact hcomma other hother
  . rw [Name.boundBy_of_readsAs hown, ← Item.listedNames_detached hmatched, ← hdetached]
    obtain ⟨_, _, _, _, _, hgroup⟩ := hown
    rw [Item.listedNames_detached (Token.matched_of_group hgroup)]

theorem text_covering_token {t : Token} (hitems : s.items = .ok items)
    (h : Operand items [.token t]) : (s.covering [.token t]).text = t.value := by
  obtain ⟨own, ⟨w, ws, htext, hgap, _, hgroup⟩, hdetached⟩ := readsAs_covering hitems h
  obtain ⟨item, rfl, hitem⟩ := List.map_eq_singleton_iff.mp hdetached
  cases item with
  | group => cases hitem
  | token u =>
    obtain ⟨v, hv, hu⟩ := Token.exists_word_of_singleton (Token.flattenAll_group hgroup).symm
    obtain ⟨rfl, rfl⟩ := List.cons.inj hv
    rw [Item.detached, Item.detached, Item.token.injEq, Token.detached, Token.detached,
      Token.mk.injEq] at hitem
    have hvalue := hitem.2.1
    rw [← hvalue, ← hu, Word.token, ← String.toList_inj, String.toList_ofList, htext]
    simp [Word.chars, hgap]

theorem listedNames_name {t : Token} (hkind : t.kind = .name) : Item.listedNames [.token t] =
    [t.value] := by
  have hpunct : ∀ value, (Item.token t).isPunct value = false := by
    intro value
    simp [Item.isPunct, Token.isPunct, hkind]
  simp [Item.listedNames, Item.targets, Item.split, Text.splitOnP, Item.target?, Item.before,
    Item.withoutRestMark, hpunct, Item.boundNames, hkind]

theorem parameters_of_arrow? {arrow : Arrow} (h : s.arrow? = .ok (some arrow)) :
    (∀ p ∈ arrow.parameters, Name.IsParameter p) ∧
      arrow.names = arrow.parameters.flatMap Name.boundBy := by
  obtain ⟨head, sign, rest, hitems, hhead⟩ := arrowHead?_of_arrow? h
  unfold arrowHead? at hhead
  split at hhead
  . next t =>
    split at hhead
    . next hkind =>
      obtain ⟨hparameters, hnames⟩ := Prod.mk.inj (Option.some.inj hhead)
      have hoperand : Operand ([] ++ ([.token t] ++ sign :: rest)) [.token t] :=
        .among (by simp) rfl (by simp)
      have htext := text_covering_token hitems hoperand
      obtain ⟨hparameter, hbound⟩ :=
        isParameter_covering hitems hoperand (by simp [Item.isPunct, Token.isPunct, hkind])
      rw [htext] at hparameter hbound
      rw [← hparameters, ← hnames, List.flatMap_singleton, hbound, listedNames_name hkind]
      exact ⟨List.forall_mem_singleton.mpr hparameter, rfl⟩
    . cases hhead
  . next opener inner closer =>
    obtain ⟨hparameters, hnames⟩ := Prod.mk.inj (Option.some.inj hhead)
    have hpart : ∀ part ∈ Item.split "," inner,
        Name.IsParameter (s.covering part).text ∧
        Name.boundBy (s.covering part).text = Item.listedNames part := by
      intro part hpart
      apply isParameter_covering hitems (operand_of_split List.mem_cons_self hpart)
      exact Text.eq_false_of_mem_splitOnP (List.mem_filter.mp hpart).1
    rw [← hparameters, ← hnames]
    constructor
    . simpa using fun part h => (hpart part h).1
    . rw [Item.boundNames_group, ← Item.listedNames, Item.listedNames_eq_flatMap, List.flatMap_map]
      apply List.flatMap_congr
      intro part h
      exact (hpart part h).2.symm
  . cases hhead

end Snippet
end ComponentCompiler
