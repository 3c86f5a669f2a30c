import ComponentCompiler.Proofs.Markup.Recognition
import ComponentCompiler.Proofs.Token.Trim

/-!
This module contains the code in a markup tree: the texts of its slots, attribute values and
spreads. Each of them can be read by itself. The reader that passes over the markup reports where
they stand.
-/

namespace ComponentCompiler
namespace Markup

open Token (Balanced)

variable {content after : List Char} {entries : List Entry} {tree : Node}

theorem slotText_balanced (h : slotRest content = .ok after) :
    Balanced (slotText content after).toList := by
  obtain ⟨used, rfl, hused⟩ := Token.balanced_of_groupRest (slotRest_ok.mp h)
  have htext : slotText (used ++ Bracket.curly.closing :: after) after = String.ofList used :=
    Token.taken_append used _
  rwa [htext, String.toList_ofList]

theorem Entry.IsWritten.balanced {e : Entry} (h : e.IsWritten) (hallowed : e.IsAllowed) :
    Balanced e.expression.2.toList := by
  have hsource : Balanced e.source.toList := slotText_balanced h
  cases hrole : e.role with
  | value => simpa [Entry.expression, hrole] using hsource
  | child => simpa [Entry.expression, hrole] using hsource
  | spread =>
    obtain ⟨source, hdots⟩ := isSpread_eq_true.mp (hallowed hrole)
    have htrim := hsource.trim
    rw [Entry.source, hdots] at htrim
    have hspread : Balanced (String.ofList source).toList := by
      rw [String.toList_ofList]
      exact htrim.of_spread
    simpa [Entry.expression, hrole, Entry.source, hdots] using hspread.trim

theorem sites_balanced (h : Node.parse snippet file origin = .ok tree) :
    ∀ site ∈ tree.sites, Balanced site.source.toList := by
  obtain ⟨content, rest, _, hnode, _⟩ := node_of_parse h
  obtain ⟨entries, hentries, hexprs⟩ := (readsDerived _).node hnode
  have hallowed := ((follows _).node hentries (Nat.lt_succ_self _)).isAllowed hnode
  intro site hsite
  have hmem : site.expression ∈ expressionsOf entries := by
    rw [hexprs]
    exact List.mem_map_of_mem hsite
  obtain ⟨e, he, hexpr⟩ := List.mem_map.mp hmem
  have he := List.mem_of_mem_filter he
  have hbalanced := (hentries.inOrder.written e he).balanced (hallowed e he)
  rwa [hexpr] at hbalanced

theorem eq_of_dropBlank (h : Text.dropBlank (c :: used) = '<' :: content)
    (hread : Token.markupRest n left used = .ok (slots, rest)) : c = '<' ∧ used = content := by
  cases hc : Text.isBlank c with
  | false =>
    rw [Text.dropBlank, List.dropWhile_cons_of_neg (by simp [hc])] at h
    cases h
    exact ⟨rfl, rfl⟩
  | true =>
    -- what follows a blank would be the name of a tag or a `>`, where no tree starts
    obtain ⟨d, more, rfl, hd⟩ := markupRest_head hread
    have hneutral : Token.isNeutral d = false := by
      rw [Bool.eq_false_iff]
      intro hneutral
      have hstart := Token.isMarkupStart_of_isNeutral hneutral
      rcases hd with rfl | hletter
      . simp at hstart
      . simp [Text.isLetter_of_isAsciiLetter hletter] at hstart
    have hsolid := Token.isBlank_of_not_isNeutral hneutral
    rw [Text.dropBlank, List.dropWhile_cons_of_pos hc,
      List.dropWhile_cons_of_neg (by simp [hsolid])] at h
    cases h
    simp [Text.isAsciiLetter] at hd

/-- The ranges that are reported for markup are those between the brackets of its slots, which are
apart and in order, and without the children that hold no token the slots are the expressions of the
tree. -/
theorem expressions_eq_of_skipMarkup (hskip : Token.skipMarkup text pos = .ok stop)
    (hparse : Node.parse (Text.slice text pos stop) file origin = .ok tree) :
    ∃ entries, SlotsOf (Text.slice text pos stop) entries ∧
      Token.markupSlots text pos = .ok (entries.map (Entry.range stop)) ∧
      Increasing (entries.map (Entry.group stop)) ∧
      (∀ e ∈ entries, e.StandsIn text stop ∧
        (e.role = .spread → Text.startsWith (Text.trim e.source) "..." = true)) ∧
      expressionsOf entries = tree.expressions := by
  obtain ⟨before, c, used, rest, slots, htext, rfl, rfl, hslots, hread⟩ := skipMarkup_ok hskip
  have hslice : (Text.slice text before.length (before.length + (c :: used).length)).toList =
      c :: used :=
    Text.toList_slice htext rfl rfl
  have hmarkup := hread used.length 0 (Nat.le_refl _)
  obtain ⟨content, blank, hcs, hnode, _⟩ := node_of_parse hparse
  rw [hslice] at hcs
  obtain ⟨rfl, rfl⟩ := eq_of_dropBlank hcs hmarkup
  obtain ⟨entries, hentries, hexprs⟩ := (readsDerived _).node hnode
  -- both readers pass over the same characters, so that nothing is left after the tree
  obtain ⟨n, left, hpasses⟩ := hentries.passes
  have hsame := Token.markupRest_fuel (m := used.length) hpasses (by omega) 0
  rw [hmarkup] at hsame
  cases hsame
  have horder := hentries.inOrder
  have hallowed := ((follows _).node hentries (Nat.lt_succ_self _)).isAllowed hnode
  refine ⟨entries, ⟨used, hslice, hentries⟩, ?_, ?_, ?_, hexprs⟩
  . rw [hslots, List.map_map]
    rfl
  . exact horder.increasing (by rw [List.length_cons]; omega)
  . intro e he
    have hwritten := horder.written e he
    refine ⟨?_, hallowed e he⟩
    obtain ⟨inside, hinside⟩ := horder.start e he
    have hopen : text.toList = (before ++ '<' :: inside) ++ '\x7b' :: (e.content ++ rest) := by
      rw [htext, ← hinside]
      simp
    apply hwritten.standsIn hopen
    simp only [← hinside, List.length_append, List.length_cons]
    omega

theorem expressions_eq_of_skipMarkup_nested :
    Token.skipMarkup "x = <a k=\x7bv\x7d \x7b ... p\x7d>\x7b/**/\x7d<b>\x7by\x7d</b></a>;" 4 =
      .ok 42 ∧
    ∃ tree entries, Node.parse
      (Text.slice "x = <a k=\x7bv\x7d \x7b ... p\x7d>\x7b/**/\x7d<b>\x7by\x7d</b></a>;" 4 42)
        "A.tsx" ⟨1, 1, 0⟩ = .ok tree ∧
      SlotsOf
        (Text.slice "x = <a k=\x7bv\x7d \x7b ... p\x7d>\x7b/**/\x7d<b>\x7by\x7d</b></a>;" 4 42)
          entries ∧
      Token.markupSlots "x = <a k=\x7bv\x7d \x7b ... p\x7d>\x7b/**/\x7d<b>\x7by\x7d</b></a>;" 4 =
        .ok (entries.map (Entry.range 42)) ∧
      Increasing (entries.map (Entry.group 42)) ∧
      (∀ e ∈ entries,
        e.StandsIn "x = <a k=\x7bv\x7d \x7b ... p\x7d>\x7b/**/\x7d<b>\x7by\x7d</b></a>;" 42 ∧
        (e.role = .spread → Text.startsWith (Text.trim e.source) "..." = true)) ∧
      expressionsOf entries = tree.expressions ∧
        tree.expressions = [(.value, "v"), (.spread, "p"), (.child, "y")] := by
  have hskip :
      Token.skipMarkup "x = <a k=\x7bv\x7d \x7b ... p\x7d>\x7b/**/\x7d<b>\x7by\x7d</b></a>;" 4 =
        .ok 42 := by
    decide +kernel
  have hexprs :
      (Node.parse (Text.slice "x = <a k=\x7bv\x7d \x7b ... p\x7d>\x7b/**/\x7d<b>\x7by\x7d</b></a>;"
        4 42) "A.tsx" ⟨1, 1, 0⟩).toOption.map Node.expressions
      = some [(.value, "v"), (.spread, "p"), (.child, "y")] := by
    decide +kernel
  refine ⟨hskip, ?_⟩
  cases hparse : Node.parse
    (Text.slice "x = <a k=\x7bv\x7d \x7b ... p\x7d>\x7b/**/\x7d<b>\x7by\x7d</b></a>;" 4 42) "A.tsx"
      ⟨1, 1, 0⟩ with
  | error failure =>
    rw [hparse] at hexprs
    cases hexprs
  | ok tree =>
    rw [hparse] at hexprs
    obtain ⟨entries, hentries⟩ := expressions_eq_of_skipMarkup hskip hparse
    exact ⟨tree, entries, rfl, hentries.1, hentries.2.1, hentries.2.2.1, hentries.2.2.2.1,
      hentries.2.2.2.2, Option.some.inj hexprs⟩

end Markup
end ComponentCompiler
