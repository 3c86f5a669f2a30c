import ComponentCompiler.Proofs.Token.Group
import ComponentCompiler.Proofs.Token.Lossless

/-!
This module contains texts with white space before them. Their tokens and items are those of the
text, moved by as much as is put before it, and only the first of them may be after a line feed
where it was not before.
-/

namespace ComponentCompiler

namespace Token

variable {text : String} {tokens part more : List Token} {items : List Item} {ws : List Word}
    {gap blank : List Char}

theorem words_of_scan (h : scan text = .ok tokens) :
    ∃ ws gap newline, Run true ws gap ∧ text.toList = charsOf ws ++ gap ∧ tokens = tokensAt 0 ws ∧
      afterGap false gap = .ok (newline, []) := by
  have hend : scanFrom (0 + text.toList.length) (text.toList.length + 1) 0 true text.toList =
      .ok tokens := by
    rw [Nat.zero_add, String.length_toList]
    exact h
  exact scanFrom_end hend (Nat.lt_succ_self _)

theorem scan_of_words (hrun : Run true ws gap) (hgap : GapBefore gap [])
    (htext : text.toList = charsOf ws ++ gap) : scan text = .ok (tokensAt 0 ws) := by
  have hlength := Text.length_eq htext
  have hrun : Run true ws (gap ++ []) := by rwa [List.append_nil]
  have hrescans : Rescans text 0 text.length (tokensAt 0 ws) := by
    apply rescans_of_run hrun hgap
    . rw [List.drop_zero, List.append_nil, htext]
    . omega
  exact hrescans.1

theorem eq_append_of_startLine (h : startLine tokens = startLine (part ++ more))
    (hpart : part ≠ []) : ∃ first, tokens = first ++ more ∧ startLine first = startLine part := by
  cases part with
  | nil => exact absurd rfl hpart
  | cons t part =>
    cases tokens with
    | nil => cases h
    | cons u tokens =>
      obtain ⟨hfirst, rfl⟩ := List.cons.inj h
      exact ⟨u :: part, rfl, by rw [startLine, startLine, hfirst]⟩

theorem sameText_startLine (h : startLine tokens = startLine more) :
    List.Forall₂ SameText tokens more := by
  cases tokens with
  | nil =>
    cases more with
    | nil => exact .nil
    | cons u more => cases h
  | cons t tokens =>
    cases more with
    | nil => cases h
    | cons u more =>
      obtain ⟨hfirst, rfl⟩ := List.cons.inj h
      obtain ⟨hkind, hvalue, _⟩ := Token.mk.inj hfirst
      exact .cons ⟨hkind, hvalue⟩ (List.forall₂_same.mpr fun _ _ => ⟨rfl, rfl⟩)

theorem sameText_shift (n : Nat) (tokens : List Token) :
    List.Forall₂ SameText tokens (tokens.map (shift n)) := by
  rw [List.forall₂_map_right_iff]
  exact List.forall₂_same.mpr fun _ _ => ⟨rfl, rfl⟩

theorem Nested.congr (h : Nested tokens) (hsame : List.Forall₂ SameText tokens more) :
    Nested more := by
  obtain ⟨items, hgroup⟩ := exists_group_eq_ok.mpr h
  obtain ⟨items', hgroup', _⟩ := group_sameOperators hgroup hsame
  exact exists_group_eq_ok.mp ⟨items', hgroup'⟩

def startItem : Item → Item
  | .token t => .token { t with newlineBefore := false }
  | .group bracket opener inner closer =>
    .group bracket { opener with newlineBefore := false } inner closer

def startItems : List Item → List Item
  | [] => []
  | item :: items => startItem item :: items

theorem flattenAll_startItems (items : List Item) :
    Item.flattenAll (startItems items) = startLine (Item.flattenAll items) := by
  cases items with
  | nil => rfl
  | cons item items => cases item <;> rfl

theorem matched_startItem {item : Item} (h : item.Matched) : (startItem item).Matched := by
  cases h with
  | token hopen hclose => exact .token hopen hclose
  | group hopener hopen hclose hinner => exact .group hopener hopen hclose hinner

theorem group_startLine (h : group tokens = .ok items) :
    group (startLine tokens) = .ok (startItems items) := by
  rw [group_eq_ok] at h ⊢
  obtain ⟨hmatched, rfl⟩ := h
  refine ⟨?_, flattenAll_startItems items⟩
  cases items with
  | nil => exact hmatched
  | cons item items =>
    rw [List.forall_mem_cons] at hmatched
    rw [startItems, List.forall_mem_cons]
    exact ⟨matched_startItem hmatched.1, hmatched.2⟩

inductive Moved (n : Nat) : Item → Item → Prop where
  | token (t : Token) : Moved n (.token t) (.token (t.shift n))
  | group (bracket : Bracket) (opener closer : Token) (inner inner' : List Item) :
    Moved n (.group bracket opener inner closer)
      (.group bracket (opener.shift n) inner' (closer.shift n))

namespace Moved

variable {n : Nat} {item item' : Item}

theorem start_eq (h : Moved n item item') : item'.start = item.start + n := by
  cases h <;> rfl

theorem stop_eq (h : Moved n item item') : item'.stop = item.stop + n := by
  cases h <;> rfl

theorem newlineBefore_eq (h : Moved n item item') : item'.newlineBefore = item.newlineBefore := by
  cases h <;> rfl

theorem isPunct_eq (h : Moved n item item') (value : String) :
    item'.isPunct value = item.isPunct value := by
  cases h <;> rfl

end Moved

theorem group_shift (n : Nat) (h : group tokens = .ok items) :
    ∃ items', group (tokens.map (shift n)) = .ok items' ∧ List.Forall₂ (Moved n) items items' := by
  have htokens : List.Forall₂ (fun t t' => t' = shift n t) tokens (tokens.map (shift n)) := by
    rw [List.forall₂_map_right_iff]
    exact List.forall₂_same.mpr fun _ _ => rfl
  apply group_related ?_ ?_ ?_ h htokens
  . rintro t t' rfl
    exact ⟨rfl, rfl⟩
  . rintro t t' rfl
    exact .token t
  . rintro bracket opener opener' inner inner' closer closer' rfl rfl
    exact .group bracket opener closer inner inner'

theorem afterGap_blank_append (h : afterGap false cs = .ok (newline, rest))
    (hblank : ∀ c ∈ blank, Text.isBlank c = true) :
    ∃ newline, afterGap false (blank ++ cs) = .ok (newline, rest) := by
  obtain ⟨found, hskip⟩ := afterGap_blank hblank false
  obtain ⟨seen, _, hread⟩ := afterGap.go_newline h
  exact ⟨found || seen, (hskip cs).trans (hread found)⟩

theorem scan_blank_append (h : scan text = .ok tokens)
    (hblank : ∀ c ∈ blank, Text.isBlank c = true) :
    ∃ tokens', scan (String.ofList blank ++ text) = .ok tokens' ∧
      startLine tokens' = (startLine tokens).map (shift blank.length) := by
  obtain ⟨ws, gap, newline, hrun, htext, rfl, hgap⟩ := words_of_scan h
  have hlist : (String.ofList blank ++ text).toList = blank ++ (charsOf ws ++ gap) := by
    rw [String.toList_append, String.toList_ofList, htext]
  cases ws with
  | nil =>
    obtain ⟨found, hgap⟩ := afterGap_blank_append hgap hblank
    have hgap : GapBefore (blank ++ gap) [] := .inr ⟨found, by rwa [List.append_nil]⟩
    exact ⟨[], @scan_of_words _ [] _ trivial hgap hlist, rfl⟩
  | cons w ws =>
    -- the white space joins the gap before the first word
    obtain ⟨found, hword⟩ := afterGap_blank_append hrun.1.gap hblank
    have hrun' : Run true (w.respaced (blank ++ w.gap) found :: ws) gap := by
      refine ⟨⟨?_, hrun.1.text⟩, hrun.2⟩
      rw [Word.respaced, List.append_assoc]
      exact hword
    have hgap : GapBefore gap [] := .inr ⟨newline, by rwa [List.append_nil]⟩
    refine ⟨_, scan_of_words hrun' hgap ?_, ?_⟩
    . rw [hlist]
      simp [Word.chars, Word.respaced]
    . rw [startLine_tokensAt, startLine_tokensAt, ← tokensAt_add, Word.respaced, List.length_append]
      have hplace : 0 + (blank.length + w.gap.length) = 0 + w.gap.length + blank.length := by omega
      rw [hplace]
      rfl

theorem items_blank_append (h : (scan text >>= group) = .ok items)
    (hblank : ∀ c ∈ blank, Text.isBlank c = true) :
    ∃ items', (scan (String.ofList blank ++ text) >>= group) = .ok items' ∧
      List.Forall₂ (Moved blank.length) (startItems items) (startItems items') := by
  obtain ⟨tokens, hscan, hgroup⟩ := bind_eq_ok.mp h
  obtain ⟨tokens', hscan', htokens⟩ := scan_blank_append hscan hblank
  obtain ⟨moved, hmoved, hrelated⟩ := group_shift blank.length (group_startLine hgroup)
  rw [← htokens] at hmoved
  have hnested : Nested tokens' := by
    have hsame : List.Forall₂ SameText (startLine tokens') tokens' :=
      sameText_startLine (by cases tokens' <;> rfl)
    exact (exists_group_eq_ok.mp ⟨_, hmoved⟩).congr hsame
  obtain ⟨items', hgroup'⟩ := exists_group_eq_ok.mpr hnested
  obtain rfl := Except.ok.inj ((group_startLine hgroup').symm.trans hmoved)
  rw [hscan', ok_bind]
  exact ⟨items', hgroup', hrelated⟩

end Token
end ComponentCompiler
