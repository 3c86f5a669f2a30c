import ComponentCompiler.Proofs.Builder.Margin
import Mathlib.Data.List.DropRight

/-!
This module contains what becomes of the lines of a text that is written at a level: only white
space at the ends of lines changes, and the lines after the first keep their indentation relative to
each other.
-/

namespace ComponentCompiler
namespace Writer

variable {line blank blank' more : List Char} {n : Int}

/-- What a line of a text is written as differs from it in white space at its ends, and has none at
its own end. -/
structure Keeps (line written : String) : Prop where
  trim : Text.trim written = Text.trim line
  blank : Text.allBlank line = true → written = ""
  solid : Text.trimEnd written = written

theorem dropBlank_solid (h : ∀ d ∈ blank, Text.isBlank d = true) (hc : Text.isBlank c = false)
    (more : List Char) : Text.dropBlank (blank ++ c :: more) = c :: more := by
  rw [Token.dropBlank_append more hc, Text.dropBlank, List.dropWhile_eq_nil_iff.mpr h,
    List.nil_append]

theorem keeps_solid (h : ∀ d ∈ blank, Text.isBlank d = true)
    (h' : ∀ d ∈ blank', Text.isBlank d = true) (hc : Text.isBlank c = false) (more : List Char) :
    Keeps (String.ofList (blank ++ c :: more))
      (String.ofList (blank' ++ c :: Text.dropBlankEnd more)) := by
  have hend : ∀ cs, Text.dropBlankEnd (Text.dropBlankEnd cs) = Text.dropBlankEnd cs := by
    intro cs
    rw [Text.dropBlankEnd, Text.dropBlankEnd, List.reverse_reverse, List.dropWhile_idempotent]
  constructor
  . simp only [Text.trim, String.toList_ofList, dropBlank_solid h hc, dropBlank_solid h' hc]
    rw [Token.dropBlankEnd_cons hc, Token.dropBlankEnd_cons hc, hend]
  . simp [Text.allBlank, hc]
  . rw [Text.trimEnd, String.toList_ofList, Token.dropBlankEnd_append _ hc, hend]

theorem dropBlank_blank (h : line.all Text.isBlank = true) : Text.dropBlank line = [] :=
  List.dropWhile_eq_nil_iff.mpr (List.all_eq_true.mp h)

theorem keeps_blank (h : line.all Text.isBlank = true) : Keeps (String.ofList line) "" := by
  refine ⟨?_, fun _ => rfl, rfl⟩
  rw [Text.trim, Text.trim, @String.toList_ofList line, dropBlank_blank h]
  rfl

theorem isBlank_replicate (n : Nat) : ∀ d ∈ List.replicate n ' ', Text.isBlank d = true := by
  intro d hd
  rw [List.eq_of_mem_replicate hd]
  decide

theorem placedFirst_keeps (level : Nat) (line : List Char) :
    Keeps (String.ofList line) (String.ofList (placedFirst level line)) := by
  cases hall : line.all Text.isBlank with
  | true =>
    rw [placedFirst, dropBlank_blank hall]
    exact keeps_blank hall
  | false =>
    obtain ⟨blank, c, more, rfl, hblank, hc⟩ := exists_solid hall
    rw [placedFirst, dropBlank_solid hblank hc, Token.dropBlankEnd_cons hc,
      indentChars_of_ne_nil level (by simp)]
    exact keeps_solid hblank (isBlank_replicate _) hc more

theorem placed_keeps (level : Nat) (hn : 0 ≤ n) (h : Fits n line) :
    Keeps (String.ofList line) (String.ofList (placed level n line)) ∧
      (line.all Text.isBlank = false →
        (margin (placed level n line) : Int) = margin line + 2 * level - n) := by
  cases hall : line.all Text.isBlank with
  | true =>
    rw [placed, shifted, if_pos hall]
    exact ⟨keeps_blank hall, fun hsolid => absurd hsolid (by decide)⟩
  | false =>
    have hmargin := h hall
    obtain ⟨blank, c, more, rfl, hblank, hc⟩ := exists_solid hall
    have hblank' : ∀ d ∈ List.replicate (2 * level) ' ' ++ blank.drop n.toNat, Text.isBlank d =
        true := by
      rw [List.forall_mem_append]
      exact ⟨isBlank_replicate _, fun d hd => hblank d (List.mem_of_mem_drop hd)⟩
    rw [placed, shifted_append blank more hn hc h, indentChars_of_ne_nil level (by simp),
      ← List.append_assoc]
    refine ⟨keeps_solid hblank hblank' hc more, ?_⟩
    intro _
    simp only [margin, dropBlank_solid hblank hc, dropBlank_solid hblank' hc, List.length_append,
      List.length_replicate, List.length_drop] at hmargin ⊢
    omega

/-- A text of several lines is written line by line. Each line keeps what is on it, the lines with
nothing on them are empty, and the others after the first are moved by the same number of
columns. -/
theorem source_keeps (w : Writer) (text : String) {column : Int} (h : 1 ≤ column) :
    ∃ written, w.source text column = { w with lines := w.lines ++ written } ∧
      List.Forall₂ Keeps (Text.lines text) written ∧
      ∀ p ∈ ((Text.lines text).zip written).tail, ∀ q ∈ ((Text.lines text).zip written).tail,
        Text.allBlank p.1 = false → Text.allBlank q.1 = false →
        (margin p.2.toList : Int) - margin q.2.toList = margin p.1.toList - margin q.1.toList := by
  obtain ⟨first, rest, hlines⟩ :=
    List.exists_cons_of_ne_nil (Text.splitOnP_ne_nil (· == '\n') text.toList)
  have hplaced := fun line hline => placed_keeps w.level.toNat (commonMargin_nonneg h rest)
    (@fits_commonMargin line column rest hline)
  have hwritten : indentAll w.level.toNat (outdent text column)
      = String.ofList (placedFirst w.level.toNat first) ::
        rest.map fun line =>
          String.ofList (placed w.level.toNat (commonMargin column rest) line) := by
    simp [indentAll, outdent, hlines, placedFirst, placed, indentChars]
  refine ⟨_, congrArg (fun lines => { w with lines := w.lines ++ lines }) hwritten, ?_, ?_⟩
  . rw [Text.lines, hlines, List.map_cons]
    refine .cons (placedFirst_keeps _ first) ?_
    rw [List.forall₂_map_left_iff, List.forall₂_map_right_iff, List.forall₂_same]
    exact fun line hline => (hplaced line hline).1
  . rw [Text.lines, hlines, List.map_cons, List.zip_cons_cons, List.tail_cons, List.zip_map',
      List.forall_mem_map]
    intro line hline
    rw [List.forall_mem_map]
    intro line' hline' hsolid hsolid'
    rw [Text.allBlank, String.toList_ofList] at hsolid hsolid'
    simp only [String.toList_ofList]
    rw [(hplaced line hline).2 hsolid, (hplaced line' hline').2 hsolid']
    omega

theorem source_keeps_block :
    (1 : Int) ≤ 3 ∧ ∃ written, ({ level := 1 } : Writer).source "f(\n\n      g(), \n  h())" 3 =
      ⟨written, 1⟩ ∧
      List.Forall₂ Keeps ["f(", "", "      g(), ", "  h())"] written ∧
      ∀ p ∈ (["f(", "", "      g(), ", "  h())"].zip written).tail,
        ∀ q ∈ (["f(", "", "      g(), ", "  h())"].zip written).tail,
        Text.allBlank p.1 = false → Text.allBlank q.1 = false →
        (margin p.2.toList : Int) - margin q.2.toList = margin p.1.toList - margin q.1.toList := by
  have hlines : Text.lines "f(\n\n      g(), \n  h())" =
      ["f(", "", "      g(), ", "  h())"] := by decide
  have hkeeps := source_keeps { level := 1 } "f(\n\n      g(), \n  h())"
    (show (1 : Int) ≤ 3 by decide)
  rw [hlines] at hkeeps
  exact ⟨by decide, hkeeps⟩

end Writer
end ComponentCompiler
