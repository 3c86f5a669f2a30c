import ComponentCompiler.Proofs.Document.Failure
import ComponentCompiler.Proofs.Statement.Shift
import ComponentCompiler.Proofs.Token.Skip

/-!
This module contains the reading of a function body in its place. A file of which only the body is
shown, with all else blanked out, has the statements of the body read by itself, or fails with the
same error, and the offsets are those of the file.
-/

namespace ComponentCompiler

namespace Token

variable {text : String} {start stop : Nat}

theorem BalancedWindow.slice (h : BalancedWindow text start stop) :
    ∃ items, (scan (Text.slice text start stop) >>= group) = .ok items := by
  obtain ⟨ws, gap, rest, htext, hrun, hnesting, hgap, hstop⟩ := h
  have hslice : (Text.slice text start stop).toList = charsOf ws ++ gap := by
    rw [Text.slice, String.toList_ofList, htext, ← List.append_assoc]
    apply List.take_left'
    omega
  obtain ⟨items, hgroup⟩ := group_of_nesting hrun hnesting 0
  refine ⟨items, ?_⟩
  rw [scan_of_words (hrun.agrees (.of_initial (List.prefix_append _ _))) hgap.nil hslice]
  exact hgroup

end Token

namespace Source

variable {s : Source} {items inner : List Item} {opener closer : Token}

theorem blankBefore_eq (hstart : start ≤ s.text.length) :
    ∃ blank, blank.length = start ∧ (∀ c ∈ blank, Text.isBlank c = true) ∧
      ∀ stop, s.blankBefore start stop = String.ofList blank ++ Text.slice s.text start stop := by
  refine ⟨(s.text.toList.take start).map fun c => if c = '\n' then c else ' ', ?_, ?_, ?_⟩
  . rw [List.length_map, List.length_take, String.length_toList]
    omega
  . intro c hc
    exact isBlank_blanked hc
  . intro stop
    rfl

/-- What stands in braces, anywhere in a file, is read in its place as by itself. The statements, or
the error, are the same, and every offset is further on by what stands before the body. -/
theorem parse_blankBefore (h : (Token.scan s.text >>= Token.group) = .ok items)
    (hgroup : Item.Among items (.group .curly opener inner closer)) (file : String) :
    Paired
      (Statement.FailsAt (opener.start + 1) (Text.slice s.text (opener.start + 1) (closer.stop - 1))
        (s.blankBefore (opener.start + 1) (closer.stop - 1)) file)
      (fun statements statements' => statements' =
        statements.map (Statement.shift (opener.start + 1)))
      (Statement.parse (Text.slice s.text (opener.start + 1) (closer.stop - 1)) file)
      (Statement.parse (s.blankBefore (opener.start + 1) (closer.stop - 1)) file) := by
  obtain ⟨tokens, _, hitems⟩ := bind_eq_ok.mp h
  obtain ⟨operand, w, ws, hfragment, htokens⟩ := Token.fragment_of_among h hgroup
  have hmatched := hgroup.matched (Token.matched_of_group hitems)
  obtain ⟨hw, as, v, rfl, hv, hnesting⟩ :=
    hfragment.inside hmatched (by simpa [Item.flattenAll] using htokens)
  have hwindow : Token.BalancedWindow s.text (opener.start + 1) (closer.stop - 1) :=
    (hfragment.between hw hv hnesting).1
  have hle : opener.start + 1 ≤ s.text.length := by
    obtain ⟨_, _, _, _, _, _, _, hstop⟩ := id hwindow
    have hend : closer.stop ≤ s.text.length := hfragment.stop_le
    omega
  obtain ⟨body, hbody⟩ := hwindow.slice
  obtain ⟨blank, hlength, hblank, hview⟩ := blankBefore_eq hle
  have hparse := Statement.parse_blank_append hbody hblank file
  rw [← hview, hlength] at hparse
  exact hparse

/-- A body inside of parentheses, whose first word is after a line feed only in its place. -/
theorem parse_blankBefore_callback :
    let s : Source := ⟨"on(\n() => \x7b let a = 1\n return a \x7d)", "A.tsx"⟩
    (∃ items, (Token.scan s.text >>= Token.group) = .ok items) ∧
    Paired (Statement.FailsAt 11 (Text.slice s.text 11 32) (s.blankBefore 11 32) s.file)
      (fun statements statements' => statements' = statements.map (Statement.shift 11))
      (Statement.parse (Text.slice s.text 11 32) s.file)
        (Statement.parse (s.blankBefore 11 32) s.file) := by
  intro s
  have hscan : Token.scan s.text = .ok
      [⟨.name, "on", 0, 2, false⟩, ⟨.punct, "(", 2, 3, false⟩, ⟨.punct, "(", 4, 5, true⟩,
        ⟨.punct, ")", 5, 6, false⟩,
        ⟨.punct, "=>", 7, 9, false⟩, ⟨.punct, "\x7b", 10, 11, false⟩, ⟨.name, "let", 12, 15, false⟩,
        ⟨.name, "a", 16, 17, false⟩,
        ⟨.punct, "=", 18, 19, false⟩, ⟨.number, "1", 20, 21, false⟩,
        ⟨.name, "return", 23, 29, true⟩, ⟨.name, "a", 30, 31, false⟩,
        ⟨.punct, "\x7d", 32, 33, false⟩, ⟨.punct, ")", 33, 34, false⟩] := by decide +kernel
  have hitems : (Token.scan s.text >>= Token.group) = .ok
      [.token ⟨.name, "on", 0, 2, false⟩,
        .group .paren ⟨.punct, "(", 2, 3, false⟩
          [.group .paren ⟨.punct, "(", 4, 5, true⟩ [] ⟨.punct, ")", 5, 6, false⟩,
            .token ⟨.punct, "=>", 7, 9, false⟩,
            .group .curly ⟨.punct, "\x7b", 10, 11, false⟩
              [.token ⟨.name, "let", 12, 15, false⟩, .token ⟨.name, "a", 16, 17, false⟩,
                .token ⟨.punct, "=", 18, 19, false⟩,
                .token ⟨.number, "1", 20, 21, false⟩, .token ⟨.name, "return", 23, 29, true⟩,
                .token ⟨.name, "a", 30, 31, false⟩]
              ⟨.punct, "\x7d", 32, 33, false⟩]
          ⟨.punct, ")", 33, 34, false⟩] := by
    rw [hscan]
    rfl
  have hparse := parse_blankBefore hitems
    (.inside (.here (List.Mem.tail _ (List.Mem.head _)))
      (List.Mem.tail _ (List.Mem.tail _ (List.Mem.head _)))) s.file
  exact ⟨⟨_, hitems⟩, hparse⟩

end Source
end ComponentCompiler
