import ComponentCompiler.Proofs.Snippet.Operand
import ComponentCompiler.Proofs.Token.Trim

/-!
This module contains what is cut out of a snippet that can be read by itself: it can be read by
itself as well. An operand is the words of its items without the gap before the first of them.
-/

namespace ComponentCompiler
namespace Snippet

open Token (Balanced BalancedWindow Word Run Nesting charsOf tokensAt dueAfter)

variable {s : Snippet} {items part inner : List Item} {text : String} {start stop : Nat}

theorem file_sub (s : Snippet) (start stop : Nat) : (s.sub start stop).file = s.file := rfl

theorem file_strip (s : Snippet) : s.strip.file = s.file := by
  rw [strip, file_sub]

theorem file_covering (s : Snippet) (part : List Item) : (s.covering part).file = s.file := by
  unfold covering
  split
  . rw [between, file_strip, file_sub]
  . rw [file_sub]

theorem text_strip (s : Snippet) : s.strip.text = Text.trim s.text := by
  rw [strip, text_sub, Text.slice, Text.trim, Text.trimStart, Text.trimEnd, String.length_ofList,
    String.length_ofList, ← String.length_toList]
  generalize s.text.toList = cs
  congr 1
  have hcs : cs.takeWhile Text.isBlank ++ Text.dropBlank cs = cs := List.takeWhile_append_dropWhile
  generalize cs.takeWhile Text.isBlank = lead at hcs
  have hstart : cs.length - (Text.dropBlank cs).length = lead.length := by
    rw [← congrArg List.length hcs, List.length_append, Nat.add_sub_cancel]
  have hdrop : cs.drop lead.length = Text.dropBlank cs := by
    conv => lhs; rw [← hcs]
    exact List.drop_left
  rw [hstart, hdrop]
  cases hrest : Text.dropBlank cs with
  | nil =>
    rw [List.take_nil, Text.dropBlankEnd, List.reverse_nil, List.dropWhile_nil, List.reverse_nil]
  | cons c rest =>
    have hc := (split_of_dropWhile hrest).2
    have hends : Text.dropBlankEnd (c :: rest) = c :: Text.dropBlankEnd rest :=
      @Token.dropBlankEnd_append c [] rest hc
    obtain ⟨blank, hblank, _⟩ := Token.dropBlankEnd_eq rest
    rw [hrest] at hcs
    rw [← hcs, Token.dropBlankEnd_append rest hc, hends, List.length_append,
      Nat.max_eq_right (Nat.le_add_right _ _), Nat.add_sub_cancel_left]
    have hprefix : c :: Text.dropBlankEnd rest <+: c :: rest :=
      ⟨blank, by rw [List.cons_append, ← hblank]⟩
    exact (List.prefix_iff_eq_take.mp hprefix).symm

theorem balanced_strip (h : Balanced s.text.toList) : Balanced s.strip.text.toList := by
  rw [text_strip]
  exact h.trim

theorem trim_charsOf (h : Run operand (w :: ws) rest) (hgap : w.gap = []) :
    Text.trim (String.ofList (charsOf (w :: ws))) = String.ofList (charsOf (w :: ws)) := by
  obtain ⟨c, more, htext, _⟩ := h.1.text
  have hsolid : Text.isBlank c = false := by
    have hstart := h.1.gap
    rw [htext] at hstart
    exact (Token.afterGap_token hstart).1
  obtain ⟨used, last, hused, hlast⟩ := h.ends (List.cons_ne_nil w ws)
  have hfirst : Text.dropBlank (charsOf (w :: ws)) = charsOf (w :: ws) := by
    rw [Token.charsOf_cons, Word.chars, hgap, htext, List.nil_append, List.cons_append,
      Text.dropBlank]
    exact List.dropWhile_cons_of_neg (by simp [hsolid])
  rw [Text.trim, String.toList_ofList, hfirst, hused, Token.dropBlankEnd_append [] hlast]
  rfl

theorem text_covering (htext : s.text.toList = charsOf pre ++ (charsOf (w :: ws) ++ rest))
    (hrun : Run operand (w :: ws) rest)
    (hpart : Item.flattenAll part = tokensAt (charsOf pre).length (w :: ws)) :
    (s.covering part).text = String.ofList (charsOf (w.bare :: ws)) := by
  have hne : part ≠ [] := by
    rintro rfl
    simp [Item.flattenAll, tokensAt] at hpart
  have hfirst := List.head?_eq_some_head hne
  have hlast := List.getLast?_eq_some_getLast hne
  generalize part.head hne = first, part.getLast hne = last at hfirst hlast
  have hhull : IsHull (part.map Item.range) (first.start, last.stop) := by
    constructor
    . rw [List.head?_map, hfirst]
      rfl
    . rw [List.getLast?_map, hlast]
      rfl
  have hhull := Item.isHull_flattenAll hhull
  rw [hpart] at hhull
  obtain ⟨hstart, hstop⟩ := Prod.mk.inj (hhull.unique (Token.isHull_tokensAt _ w ws))
  have hslice : (Text.slice s.text first.start last.stop).toList = charsOf (w.bare :: ws) := by
    have hparts : s.text.toList = (charsOf pre ++ w.gap) ++ (charsOf (w.bare :: ws) ++ rest) := by
      rw [htext]
      simp [Word.chars, Word.bare]
    apply Text.toList_slice hparts
    . rw [hstart, List.length_append]
    . rw [hstop, hstart]
      simp [Word.chars, Word.bare]
      omega
  rw [covering, hfirst, hlast]
  dsimp only
  rw [between, text_strip, text_sub,
    ← String.ofList_toList (s := Text.slice s.text first.start last.stop), hslice]
  exact trim_charsOf (w := w.bare) ⟨hrun.1.bare, hrun.2⟩ rfl

theorem dueAfter_append_cons (before : List Token) (ht : Token.operandAfter t.kind t.value = true)
    (hdue : dueAfter tokens = true) : dueAfter (before ++ t :: tokens) = true := by
  rcases List.eq_nil_or_concat tokens with rfl | ⟨more, last, rfl⟩
  . rw [dueAfter, List.getLast?_concat]
    exact ht
  . rw [List.concat_eq_append] at hdue ⊢
    rw [dueAfter, List.getLast?_concat] at hdue
    rw [← List.cons_append, ← List.append_assoc, dueAfter, List.getLast?_concat]
    exact hdue

theorem Operand.tokens (h : Operand items part) (hitems : ∀ item ∈ items, item.Matched) :
    ∃ before after, Item.flattenAll items = before ++ (Item.flattenAll part ++ after) ∧
      dueAfter before = true ∧
      ∀ item ∈ part, item.Matched := by
  cases h with
  | @among before _ after _ hdue _ =>
    refine ⟨Item.flattenAll before, Item.flattenAll after, ?_, hdue, fun item hmem =>
      hitems item (by simp [hmem])⟩
    rw [Token.flattenAll_append, Token.flattenAll_append]
  | @inside _ before _ after bracket opener closer hmem _ hdue =>
    obtain ⟨outer, more, rfl⟩ := List.append_of_mem hmem
    cases hitems _ hmem with
    | group hopener _ _ hinner =>
      refine ⟨Item.flattenAll outer ++ opener :: Item.flattenAll before,
        Item.flattenAll after ++ closer :: Item.flattenAll more, ?_, ?_, fun item hmem =>
          hinner item (by simp [hmem])⟩
      . simp [Token.flattenAll_append, Item.flattenAll, Item.flatten]
      . exact dueAfter_append_cons _ (Token.operandAfter_of_opens? hopener) hdue

theorem words_of_operand (hitems : s.items = .ok items) (h : Operand items part) :
    ∃ w ws, (s.covering part).text = String.ofList (charsOf (w :: ws)) ∧ Run true (w :: ws) [] ∧
      Nesting [] (w :: ws) [] := by
  have hne : part ≠ [] := by cases h <;> assumption
  obtain ⟨tokens, hscan, hgroup⟩ := bind_eq_ok.mp hitems
  obtain ⟨before, after, hflatten, hdue, hmatched⟩ := h.tokens (Token.matched_of_group hgroup)
  obtain ⟨all, rest, hrun, htext, rfl⟩ := Token.scanFrom_ok hscan
  rw [Token.flattenAll_group hgroup] at hflatten
  obtain ⟨pre, tail, rfl, rfl, htail⟩ := Token.eq_append_of_tokensAt hflatten
  obtain ⟨mine, post, rfl, hmine, _⟩ := Token.eq_append_of_tokensAt htail
  obtain ⟨_, hrun⟩ := Token.run_append.mp hrun
  rw [Token.operandAt_eq_dueAfter _ 0, hdue] at hrun
  obtain ⟨hrun, _⟩ := Token.run_append.mp hrun
  rw [Nat.zero_add] at hmine
  rw [List.drop_zero] at htext
  cases mine with
  | nil =>
    obtain ⟨item, hitem⟩ := List.exists_mem_of_ne_nil part hne
    obtain ⟨t, ht, _⟩ := Item.exists_mem_flatten item
    have hmem : t ∈ Item.flattenAll part := by
      rw [Item.flattenAll_eq]
      exact List.mem_flatMap_of_mem hitem ht
    rw [← hmine] at hmem
    exact absurd hmem List.not_mem_nil
  | cons w ws =>
    refine ⟨w.bare, ws, text_covering ?_ hrun hmine.symm, ?_, ?_⟩
    . rw [htext, Token.charsOf_append, Token.charsOf_append, List.append_assoc, List.append_assoc]
    . have hbare : Run true (w.bare :: ws) _ := ⟨hrun.1.bare, hrun.2⟩
      exact hbare.agrees .nil
    . have hnesting : Nesting [] (w :: ws) [] := Token.nesting_of_items hmatched hmine hrun
      exact hnesting

theorem balanced_covering (hitems : s.items = .ok items) (h : Operand items part) :
    Balanced (s.covering part).text.toList := by
  obtain ⟨w, ws, htext, hrun, hnesting⟩ := words_of_operand hitems h
  rw [htext, String.toList_ofList]
  exact ⟨w :: ws, [], by rw [List.append_nil], hrun, hnesting, .inl rfl⟩

theorem balanced_unwrap {opener closer : Token}
    (hitems : s.items = .ok [.group .paren opener inner closer]) :
    Balanced (s.sub opener.stop closer.start).text.toList := by
  obtain ⟨tokens, hscan, hgroup⟩ := bind_eq_ok.mp hitems
  obtain ⟨all, rest, hrun, htext, rfl⟩ := Token.scanFrom_ok hscan
  have hflatten := (Token.flattenAll_group hgroup).symm
  rw [Item.flattenAll, Item.flatten, Item.flattenAll, List.append_nil,
    ← List.singleton_append] at hflatten
  obtain ⟨ws, tail, rfl, hws, htail⟩ := Token.eq_append_of_tokensAt hflatten
  obtain ⟨w, rfl, rfl⟩ := Token.exists_word_of_singleton hws
  obtain ⟨as, vs, rfl, has, hvs⟩ := Token.eq_append_of_tokensAt htail
  obtain ⟨v, rfl, rfl⟩ := Token.exists_word_of_singleton hvs
  obtain ⟨hinner, hlast, _⟩ := Token.run_append.mp (Token.run_append.mp hrun).2
  cases Token.matched_of_group hgroup _ List.mem_cons_self with
  | group hopener _ _ hmatched =>
    have hoperand : Token.operandAt true [w] = true := Token.operandAfter_of_opens? hopener
    have hslice :
        (s.sub (w.token 0).stop
          (v.token (0 + (charsOf [w]).length + (charsOf as).length)).start).text.toList
        = charsOf as ++ v.gap := by
      have hparts : s.text.toList = w.chars ++ ((charsOf as ++ v.gap) ++ (v.text ++ rest)) := by
        rw [List.drop_zero] at htext
        rw [htext]
        simp [Word.chars]
      rw [text_sub]
      apply Text.toList_slice hparts
      . exact Nat.zero_add _
      . simp [Word.token]
        omega
    rw [hslice]
    rw [hoperand] at hinner
    refine ⟨as, v.gap, rfl, ?_, ?_, ?_⟩
    . refine hinner.agrees (.of_initial ?_)
      simp [Word.chars]
    . exact Token.nesting_of_items hmatched has hinner
    . exact Token.GapBefore.nil (.inr ⟨_, hlast.gap⟩)

end Snippet
end ComponentCompiler
