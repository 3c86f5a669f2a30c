import ComponentCompiler.Proofs.Snippet.Location
import ComponentCompiler.Proofs.Snippet.Balanced
import ComponentCompiler.Proofs.Token.Shift

/-!
This module contains the tokens of what is cut out of a snippet. Read by itself, a part has the
tokens that the snippet has there, at the same places of the file.
-/

namespace ComponentCompiler
namespace Token

variable {text : String} {start stop : Nat} {before part after : List Token} {opener next : Token}

theorem rescans_of_dueAfter (h : scan text = .ok (before ++ (part ++ after)))
    (hdue : dueAfter before = true)
    (hhull : IsHull (part.map range) (start, stop)) : Rescans text start stop (startLine part) := by
  obtain ⟨ws, rest, hrun, htext, hws⟩ := scanFrom_ok h
  rw [List.drop_zero] at htext
  obtain ⟨pre, tail, rfl, rfl, htail⟩ := eq_append_of_tokensAt hws.symm
  obtain ⟨mine, post, rfl, rfl, _⟩ := eq_append_of_tokensAt htail
  cases mine with
  | nil => exact absurd rfl hhull.ne_nil
  | cons w mine =>
    rw [← operandAt_eq_dueAfter] at hdue
    obtain ⟨hstart, hstop⟩ := Prod.mk.inj (hhull.unique (isHull_tokensAt _ w mine))
    have hrescans := hrun.rescans_part htext hdue
    rwa [hstart, hstop, Nat.zero_add]

theorem rescans_of_operandAfter (h : scan text = .ok (before ++ opener :: (part ++ next :: after)))
    (hoperand : operandAfter opener.kind opener.value = true) :
    Rescans text opener.stop next.start part := by
  obtain ⟨ws, rest, hrun, htext, hws⟩ := scanFrom_ok h
  rw [List.drop_zero] at htext
  rw [List.append_cons] at hws
  obtain ⟨pre, tail, rfl, hpre, htail⟩ := eq_append_of_tokensAt hws.symm
  obtain ⟨mine, post, rfl, rfl, hpost⟩ := eq_append_of_tokensAt htail
  cases post with
  | nil => cases hpost
  | cons v post =>
    have hdue : operandAt true pre = true := by
      rw [operandAt_eq_dueAfter pre 0, hpre, dueAfter, List.getLast?_concat]
      exact hoperand
    have hrescans := hrun.rescans_between htext hdue
    have hstop : opener.stop = (charsOf pre).length := by
      have hreach := reach_tokensAt pre
      rw [hpre, reach, List.getLast?_concat] at hreach
      exact hreach
    have hstart : next.start = (charsOf pre).length + (charsOf mine ++ v.gap).length := by
      rw [← (List.cons.inj hpost).1]
      simp only [Word.token, List.length_append]
      omega
    rwa [hstop, hstart, Nat.zero_add]

end Token

namespace Item

variable {item : Item} {value : String}

theorem exists_token_of_isPunct (h : item.isPunct value = true) :
    ∃ t, item = .token t ∧ t.isPunct value = true := by
  cases item with
  | group => simp [isPunct] at h
  | token t => exact ⟨t, rfl, h⟩

theorem exists_token_of_isName (h : item.isName value = true) :
    ∃ t, item = .token t ∧ t.isName value = true := by
  cases item with
  | group => simp [isName] at h
  | token t => exact ⟨t, rfl, h⟩

theorem length_le_flattenAll (items : List Item) : items.length ≤ (flattenAll items).length := by
  induction items with
  | nil => exact Nat.zero_le _
  | cons item items ih =>
    obtain ⟨t, ht, _⟩ := exists_mem_flatten item
    have hpos := List.length_pos_of_mem ht
    rw [flattenAll, List.length_append, List.length_cons]
    omega

end Item

namespace Snippet

open Token (Rescans SameOperators SameText startLine charsOf tokensAt Word Run GapBefore)

variable {s t : Snippet} {items part inner : List Item} {own part' tokens more : List Token}
    {start stop : Nat}

/-- Tokens of a snippet at their places in the file. -/
def placed (s : Snippet) (tokens : List Token) : List Token :=
  tokens.map (Token.shift s.origin.offset)

/-- Read by itself, the snippet has these tokens of the file. It cannot know whether a line feed
stands before the first of them. -/
def Reads (s : Snippet) (tokens : List Token) : Prop :=
  ∃ own, Token.scan s.text = .ok own ∧ startLine (s.placed own) = startLine tokens

theorem Reads.congr (h : s.Reads tokens) (htokens : startLine tokens = startLine more) :
    s.Reads more := by
  obtain ⟨own, hscan, hown⟩ := h
  exact ⟨own, hscan, hown.trans htokens⟩

theorem reads_placed (h : Token.scan s.text = .ok own) : s.Reads (s.placed own) :=
  ⟨own, h, rfl⟩

theorem placed_sub (s : Snippet) (start stop : Nat) (tokens : List Token) :
    (s.sub start stop).placed tokens = s.placed (tokens.map (Token.shift start)) := by
  have hshift : Token.shift s.origin.offset ∘ Token.shift start =
      Token.shift (s.sub start stop).origin.offset := by
    funext t
    simp [Token.shift, sub, Nat.add_assoc, Nat.add_comm s.origin.offset]
  rw [placed, placed, List.map_map, hshift]

theorem reads_sub (h : Rescans s.text start stop tokens) :
    (s.sub start stop).Reads (s.placed tokens) := by
  obtain ⟨_, own, hscan, rfl⟩ := h
  rw [← placed_sub s start stop]
  exact reads_placed hscan

theorem Reads.strip (h : s.Reads tokens) : s.strip.Reads tokens := by
  obtain ⟨own, hscan, hown⟩ := h
  obtain ⟨ws, gap, newline, hrun, htext, rfl, hskip⟩ := Token.words_of_scan hscan
  have hgap : GapBefore gap [] := .inr ⟨newline, by rwa [List.append_nil]⟩
  have htrim : s.strip.text.toList = Text.dropBlankEnd (Text.dropBlank (charsOf ws ++ gap)) := by
    rw [text_strip, Text.trim, String.toList_ofList, htext]
  have hoffset : s.strip.origin.offset =
      s.origin.offset +
        ((charsOf ws ++ gap).length - (Text.dropBlank (charsOf ws ++ gap)).length) := by
    rw [← htext, Snippet.strip, Text.trimStart, String.length_ofList, String.length_toList]
    rfl
  cases ws with
  | nil =>
    refine ⟨[], @Token.scan_of_words _ [] _ trivial hgap.dropBlank.dropBlankEnd htrim, ?_⟩
    rw [← hown, placed, placed, tokensAt, List.map_nil, List.map_nil]
  | cons w ws =>
    obtain ⟨found, hdrop, hrun⟩ := hrun.dropBlank
    rw [hdrop] at hoffset htrim
    rw [hrun.dropBlankEnd (List.cons_ne_nil _ _)] at htrim
    obtain ⟨blank, hblank, _⟩ := Token.dropBlankEnd_eq gap
    refine ⟨_, Token.scan_of_words
      (hrun.agrees (.of_initial ⟨blank, hblank.symm⟩)) hgap.dropBlankEnd htrim, ?_⟩
    rw [← hown, placed, placed, ← Token.tokensAt_add, ← Token.tokensAt_add,
      Token.startLine_tokensAt, Token.startLine_tokensAt]
    -- what is taken off the gap before the first word is added to the place of the snippet
    have hplace : 0 + s.strip.origin.offset + (Text.dropBlank w.gap).length =
        0 + s.origin.offset + w.gap.length := by
      have hle : (Text.dropBlank w.gap).length ≤ w.gap.length := (List.dropWhile_suffix _).length_le
      rw [hoffset]
      simp only [Token.charsOf_cons, Word.chars, Word.respaced, List.length_append]
      omega
    exact congrArg (fun pos => tokensAt pos (w.bare :: ws)) hplace

theorem isHull_items (hne : part ≠ []) :
    ∃ first last, part.head? = some first ∧ part.getLast? = some last ∧
      IsHull ((Item.flattenAll part).map Token.range) (first.start, last.stop) := by
  have hfirst := List.head?_eq_some_head hne
  have hlast := List.getLast?_eq_some_getLast hne
  refine ⟨_, _, hfirst, hlast, Item.isHull_flattenAll ⟨?_, ?_⟩⟩
  . rw [List.head?_map, hfirst]
    rfl
  . rw [List.getLast?_map, hlast]
    rfl

theorem reads_covering (hitems : s.items = .ok items) (h : Operand items part) :
    (s.covering part).Reads (s.placed (Item.flattenAll part)) := by
  have hne : part ≠ [] := by cases h <;> assumption
  obtain ⟨tokens, hscan, hgroup⟩ := bind_eq_ok.mp hitems
  obtain ⟨before, after, hflatten, hdue, _⟩ := h.tokens (Token.matched_of_group hgroup)
  rw [Token.flattenAll_group hgroup] at hflatten
  rw [hflatten] at hscan
  obtain ⟨first, last, hfirst, hlast, hhull⟩ := isHull_items hne
  have hreads := reads_sub (Token.rescans_of_dueAfter hscan hdue hhull)
  rw [covering, hfirst, hlast]
  apply hreads.strip.congr
  cases Item.flattenAll part with
  | nil => rfl
  | cons t more => rfl

theorem items_covering (hitems : s.items = .ok items) (h : Operand items part) :
    ∃ own, (s.covering part).items = .ok own ∧ SameOperators part own := by
  obtain ⟨tokens, hscan, hgroup⟩ := bind_eq_ok.mp hitems
  obtain ⟨_, _, _, _, hmatched⟩ := h.tokens (Token.matched_of_group hgroup)
  obtain ⟨own, hown, hsame⟩ := reads_covering hitems h
  have htext : List.Forall₂ SameText (Item.flattenAll part) own := by
    have hplaced := Token.sameText_startLine hsame.symm
    rw [placed, placed, List.forall₂_map_left_iff, List.forall₂_map_right_iff] at hplaced
    exact hplaced
  obtain ⟨items', hgroup', hoperators⟩ :=
    Token.group_sameOperators (Token.group_flattenAll hmatched) htext
  refine ⟨items', ?_, hoperators⟩
  rw [Snippet.items, hown]
  exact hgroup'

/-- The first tokens are the second with any number of parentheses around all of them. -/
inductive Wraps : List Token → List Token → Prop where
  | refl (tokens : List Token) : Wraps tokens tokens
  | parens {opener closer : Token} {inner tokens : List Token}
      (hopener : opener.opens? = some .paren)
      (hcloser : closer.closes? = some .paren) (hinner : Token.Nested inner)
      (h : Wraps inner tokens) :
    Wraps (opener :: (inner ++ [closer])) tokens

theorem Reads.append {rest : List Item} (h : s.Reads tokens) (hitems : s.items = .ok (part ++ rest))
    (hpart : part ≠ []) :
    ∃ first, tokens = first ++ s.placed (Item.flattenAll rest) ∧
      startLine first = startLine (s.placed (Item.flattenAll part)) := by
  obtain ⟨own, hscan, hgroup⟩ := bind_eq_ok.mp hitems
  obtain ⟨own', hscan', hown⟩ := h
  obtain rfl := Except.ok.inj (hscan.symm.trans hscan')
  rw [← Token.flattenAll_group hgroup, Token.flattenAll_append, placed, List.map_append] at hown
  apply Token.eq_append_of_startLine hown.symm
  obtain ⟨_, _, _, _, hhull⟩ := isHull_items hpart
  intro hnil
  rw [List.map_eq_nil_iff] at hnil
  rw [hnil] at hhull
  exact hhull.ne_nil rfl

theorem Reads.unwrap {opener closer : Token} (h : s.Reads tokens)
    (hitems : s.items = .ok [.group .paren opener inner closer]) :
    ∃ opener' closer', tokens = opener' :: (s.placed (Item.flattenAll inner) ++ [closer']) ∧
      opener'.opens? = some .paren ∧ closer'.closes? = some .paren ∧
        Token.Nested (s.placed (Item.flattenAll inner)) ∧
      (s.sub opener.stop closer.start).strip.Reads (s.placed (Item.flattenAll inner)) := by
  obtain ⟨own, hscan, hgroup⟩ := bind_eq_ok.mp hitems
  obtain ⟨own', hscan', hown⟩ := h
  obtain rfl := Except.ok.inj (hscan.symm.trans hscan')
  have hflatten := Token.flattenAll_group hgroup
  rw [Item.flattenAll, Item.flatten, Item.flattenAll, List.append_nil] at hflatten
  subst hflatten
  cases Token.matched_of_group hgroup _ List.mem_cons_self with
  | group hopener _ hcloser hmatched =>
    have hplaced : s.placed (opener :: (Item.flattenAll inner ++ [closer]))
        = [Token.shift s.origin.offset opener] ++
          (s.placed (Item.flattenAll inner) ++ [Token.shift s.origin.offset closer]) := by
      simp [placed]
    rw [hplaced] at hown
    obtain ⟨first, rfl, hfirst⟩ := Token.eq_append_of_startLine hown.symm (List.cons_ne_nil _ _)
    cases Token.sameText_startLine hfirst with
    | cons hsame hnil =>
      cases hnil
      refine ⟨_, _, rfl, hsame.opens?.trans hopener, hcloser, ?_, ?_⟩
      . have hnested := Token.nested_flattenAll fun item hitem =>
          Token.nested_of_matched (hmatched item hitem)
        exact hnested.congr (Token.sameText_shift _ _)
      . have hrescans := @Token.rescans_of_operandAfter _ [] _ [] _ _ hscan
          (Token.operandAfter_of_opens? hopener)
        exact (reads_sub hrescans).strip

theorem length_stripParens_le (h : s.stripParens = .ok t) : t.text.length ≤ s.text.length := by
  have hclosed : SubClosed fun t => t.text.length ≤ s.text.length := by
    intro u start stop hu _
    exact Nat.le_trans (length_sub_le_length u start stop) hu
  exact hclosed.stripParens (Nat.le_refl _) h

theorem Reads.stripParens (h : s.Reads tokens) (ht : s.stripParens = .ok t) :
    ∃ inner, Wraps tokens inner ∧ t.Reads inner := by
  have hgo : ∀ fuel {s tokens}, s.Reads tokens → stripParens.go fuel s = .ok t →
      ∃ inner, Wraps tokens inner ∧ t.Reads inner := by
    intro fuel
    induction fuel with
    | zero =>
      intro s tokens h ht
      cases ht
      exact ⟨tokens, .refl tokens, h⟩
    | succ fuel ih =>
      intro s tokens h ht
      obtain ⟨items, hitems, ht⟩ := bind_eq_ok.mp ht
      split at ht
      . obtain ⟨opener, closer, rfl, hopener, hcloser, hnested, hinside⟩ := h.unwrap hitems
        obtain ⟨inner, hwraps, hreads⟩ := ih hinside ht
        exact ⟨inner, .parens hopener hcloser hnested hwraps, hreads⟩
      . cases ht
        exact ⟨tokens, .refl tokens, h⟩
  exact hgo _ h.strip ht

end Snippet
end ComponentCompiler
