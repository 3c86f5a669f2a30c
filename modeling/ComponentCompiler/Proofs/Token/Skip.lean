import ComponentCompiler.Proofs.Token.Join

/-!
This module contains the skipping of a single group. It starts to read at the bracket of the group,
with nothing known about the text before, and stops at the bracket that the group has among the
items of the whole text.
-/

namespace ComponentCompiler

/-- The item is one of these items or stands in one of their groups, at any depth. -/
inductive Item.Among (items : List Item) : Item → Prop where
  | here {item : Item} (h : item ∈ items) : Among items item
  | inside {bracket : Bracket} {opener closer : Token} {inner : List Item} {item : Item}
      (h : Among items (.group bracket opener inner closer)) (hitem : item ∈ inner) :
    Among items item

namespace Item

variable {items : List Item} {item : Item}

theorem exists_flattenAll_of_mem (h : item ∈ items) :
    ∃ before after, flattenAll items = before ++ (item.flatten ++ after) := by
  obtain ⟨first, last, rfl⟩ := List.append_of_mem h
  exact ⟨flattenAll first, flattenAll last, by rw [Token.flattenAll_append, flattenAll]⟩

theorem Among.exists_flattenAll (h : Among items item) :
    ∃ before after, flattenAll items = before ++ (item.flatten ++ after) := by
  induction h with
  | here h => exact exists_flattenAll_of_mem h
  | @inside bracket opener closer content item _ hitem ih =>
    obtain ⟨before, after, hitems⟩ := ih
    obtain ⟨first, last, hcontent⟩ := exists_flattenAll_of_mem hitem
    refine ⟨before ++ opener :: first, last ++ closer :: after, ?_⟩
    rw [hitems, flatten, hcontent]
    simp

theorem Among.matched (h : Among items item) (hitems : ∀ item ∈ items, item.Matched) :
    item.Matched := by
  induction h with
  | here h => exact hitems _ h
  | inside _ hitem ih =>
    cases ih with
    | group _ _ _ hinner => exact hinner _ hitem

end Item

namespace Token

variable {text : String} {start stop : Nat} {bracket : Bracket} {opened : List Bracket}
    {gap rest : List Char} {ws : List Word}

theorem groupRest_of_run (hrun : Run operand ws (gap ++ bracket.closing :: rest))
    (hnesting : Nesting opened ws []) (hgap : afterGap false (gap ++ bracket.closing :: rest) =
      .ok (newline, bracket.closing :: rest)) (left : Nat)
    (hn : (charsOf ws ++ gap).length < n) :
    groupRest n bracket left opened operand (charsOf ws ++ (gap ++ bracket.closing :: rest)) =
      .ok rest := by
  induction ws generalizing n operand opened with
  | nil =>
    -- nothing is open but the group itself, so the next bracket closes it
    obtain rfl := hnesting
    obtain ⟨n, rfl⟩ : ∃ k, n = k + 1 := ⟨n - 1, by omega⟩
    have hopening : Bracket.ofOpening? bracket.closing = none := by cases bracket <;> decide
    rw [groupRest_succ_ok]
    exact .stop hgap (lexeme_closing _ _ _ _ _) rfl hopening (Bracket.ofClosing?_closing bracket)
  | cons w ws ih =>
    obtain ⟨hstarts, hrun⟩ := hrun
    obtain ⟨c, more, htext, hread⟩ := hstarts.text
    obtain ⟨d, mid, hhead, hnests, hnesting⟩ := hnesting
    obtain rfl : c = d := by simpa [htext] using hhead
    have hword := hstarts.gap
    rw [htext, List.cons_append] at hword
    simp only [charsOf_cons, Word.chars, List.length_append, htext, List.length_cons] at hn
    obtain ⟨n, rfl⟩ : ∃ k, n = k + 1 := ⟨n - 1, by omega⟩
    rw [groupRest_succ_ok]
    apply GroupStep.token
    . simpa [Word.chars, htext] using hword
    . exact hread n (by omega)
    . exact hnests
    . rw [taken_cons_append, ← htext]
      refine ih hrun hnesting ?_
      simp only [List.length_append]
      omega

theorem fragment_of_among {items : List Item} {item : Item} (h : (scan text >>= group) = .ok items)
    (hitem : Item.Among items item) :
    ∃ operand w ws, Fragment text operand item.start item.stop w ws ∧
      tokensAt item.start (w :: ws) = startLine item.flatten := by
  obtain ⟨tokens, hscan, hgroup⟩ := bind_eq_ok.mp h
  obtain ⟨before, after, hflatten⟩ := hitem.exists_flattenAll
  rw [flattenAll_group hgroup] at hflatten
  obtain ⟨ws, rest, hrun, htext, rfl⟩ := scanFrom_ok hscan
  obtain ⟨pre, tail, rfl, _, htail⟩ := eq_append_of_tokensAt hflatten
  obtain ⟨part, post, rfl, hpart, _⟩ := eq_append_of_tokensAt htail
  have hrun := (run_append.mp (run_append.mp hrun).2).1
  have hhull := Item.isHull_flatten item
  rw [← hpart] at hhull ⊢
  cases part with
  | nil => exact absurd rfl hhull.ne_nil
  | cons w ws =>
    obtain ⟨hstart, hstop⟩ := Prod.mk.inj (hhull.unique (isHull_tokensAt _ w ws))
    have hnesting : Nesting [] (w :: ws) [] :=
      nesting_of_matched (hitem.matched (matched_of_group hgroup)) hpart hrun
    rw [hstart, hstop]
    refine ⟨_, w.bare, ws, ⟨charsOf post ++ rest, ?_, ⟨hrun.1.bare, hrun.2⟩, hnesting, rfl, ?_⟩,
      startLine_tokensAt.symm⟩
    . rw [List.drop_zero] at htext
      rw [htext]
      simp [Word.chars, Word.bare, List.drop_append]
    . simp only [Nat.zero_add, charsOf_cons, Word.chars, Word.bare, List.length_append,
        List.nil_append]
      omega

theorem Fragment.skipGroup {as : List Word} {w v : Word}
    (h : Fragment text operand start stop w (as ++ [v]))
    (hw : w.text = [bracket.opening]) (hv : v.text = [bracket.closing])
    (hnesting : Nesting [] as []) : skipGroup text start = .ok stop := by
  obtain ⟨rest, htext, ⟨hstarts, hrun⟩, _, hgap, rfl⟩ := h
  obtain ⟨hinner, hlast, _⟩ := run_append.mp hrun
  -- an operand can follow the bracket, whatever stands before it
  rw [hstarts.operandAfter_of_opening hw] at hinner
  have hdrop : text.toList.drop start =
      bracket.opening :: (charsOf as ++ (v.gap ++ bracket.closing :: rest)) := by
    rw [htext]
    simp [Word.chars, hw, hv, hgap]
  have hread : groupRest ((charsOf as ++ (v.gap ++ bracket.closing :: rest)).length + 1) bracket
      ((charsOf as ++ (v.gap ++ bracket.closing :: rest)).length + 1) [] true
      (charsOf as ++ (v.gap ++ bracket.closing :: rest)) = .ok rest := by
    have hclosing : afterGap false (v.gap ++ bracket.closing :: rest) =
        .ok (v.newline, bracket.closing :: rest) := by
      simpa [hv] using hlast.gap
    refine groupRest_of_run ?_ hnesting hclosing _ ?_
    . simpa [Word.chars, hv] using hinner
    . simp only [List.length_append, List.length_cons]
      omega
  have hoffset : offsetOf text rest = start + (charsOf (w :: (as ++ [v]))).length := by
    have hlength := congrArg List.length htext
    have hpos := List.length_pos_iff.mpr hstarts.text_ne_nil
    simp only [List.length_drop, String.length_toList, charsOf_cons, Word.chars,
      List.length_append] at hlength ⊢
    rw [offsetOf]
    omega
  simp only [Token.skipGroup, charAt, hdrop, ok_bind, Bracket.ofOpening?_opening, hread, hoffset]
  rfl

/-- A group of a text, at any depth, ends where skipping from its bracket on does. -/
theorem skipGroup_of_among {items inner : List Item} {opener closer : Token}
    (h : (scan text >>= group) = .ok items)
    (hgroup : Item.Among items (.group bracket opener inner closer)) :
    skipGroup text opener.start = .ok closer.stop := by
  obtain ⟨tokens, _, hitems⟩ := bind_eq_ok.mp h
  obtain ⟨operand, w, ws, hfragment, htokens⟩ := fragment_of_among h hgroup
  have hmatched := hgroup.matched (matched_of_group hitems)
  obtain ⟨hw, as, v, rfl, hv, hnesting⟩ :=
    hfragment.inside hmatched (by simpa [Item.flattenAll] using htokens)
  exact hfragment.skipGroup hw hv hnesting

/-- The inner one of two groups, with brackets in a regular expression, in markup and in a
template. -/
theorem skipGroup_of_among_call :
    (∃ items, (scan "f([/[)]/, <b>\x7bx\x7d</b>, \x60$\x7b(1)\x7d\x60]) / 2" >>= group) =
      .ok items) ∧
    skipGroup "f([/[)]/, <b>\x7bx\x7d</b>, \x60$\x7b(1)\x7d\x60]) / 2" 2 = .ok 31 := by
  have hscan : scan "f([/[)]/, <b>\x7bx\x7d</b>, \x60$\x7b(1)\x7d\x60]) / 2" = .ok
      [⟨.name, "f", 0, 1, false⟩, ⟨.punct, "(", 1, 2, false⟩, ⟨.punct, "[", 2, 3, false⟩,
        ⟨.regex, "/[)]/", 3, 8, false⟩, ⟨.punct, ",", 8, 9, false⟩,
        ⟨.markup, "<b>\x7bx\x7d</b>", 10, 20, false⟩,
        ⟨.punct, ",", 20, 21, false⟩, ⟨.template, "\x60$\x7b(1)\x7d\x60", 22, 30, false⟩,
        ⟨.punct, "]", 30, 31, false⟩,
        ⟨.punct, ")", 31, 32, false⟩, ⟨.punct, "/", 33, 34, false⟩,
        ⟨.number, "2", 35, 36, false⟩] := by
    decide +kernel
  have hitems : (scan "f([/[)]/, <b>\x7bx\x7d</b>, \x60$\x7b(1)\x7d\x60]) / 2" >>= group) = .ok
      [.token ⟨.name, "f", 0, 1, false⟩,
        .group .paren ⟨.punct, "(", 1, 2, false⟩
          [.group .square ⟨.punct, "[", 2, 3, false⟩
            [.token ⟨.regex, "/[)]/", 3, 8, false⟩, .token ⟨.punct, ",", 8, 9, false⟩,
              .token ⟨.markup, "<b>\x7bx\x7d</b>", 10, 20, false⟩,
              .token ⟨.punct, ",", 20, 21, false⟩,
              .token ⟨.template, "\x60$\x7b(1)\x7d\x60", 22, 30, false⟩]
            ⟨.punct, "]", 30, 31, false⟩]
          ⟨.punct, ")", 31, 32, false⟩,
        .token ⟨.punct, "/", 33, 34, false⟩, .token ⟨.number, "2", 35, 36, false⟩] := by
    rw [hscan]
    rfl
  have hskip := skipGroup_of_among hitems
    (.inside (.here (List.Mem.tail _ (List.Mem.head _))) (List.Mem.head _))
  exact ⟨⟨_, hitems⟩, hskip⟩

end Token
end ComponentCompiler
