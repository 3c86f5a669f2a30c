import ComponentCompiler.Proofs.Text.Slice
import ComponentCompiler.Span
import Mathlib.Data.List.TakeWhile

/-!
This module contains lines and columns. They can be found by counting line feeds, and in a piece of
a text just as well as in all of it, if one knows where the piece starts.
-/

namespace ComponentCompiler
namespace Text

/-- The number of characters after the last line feed. -/
def sinceBreak (cs : List Char) : Nat :=
  (cs.reverse.takeWhile (· ≠ '\n')).length

theorem sinceBreak_cons_of_mem (c : Char) (h : '\n' ∈ cs) :
    sinceBreak (c :: cs) = sinceBreak cs := by
  rw [sinceBreak, List.reverse_cons, List.takeWhile_append]
  split
  . next hall =>
    -- then no character of `cs` would be a line feed
    have hmem : '\n' ∈ cs.reverse.takeWhile (· ≠ '\n') := by
      rw [(List.takeWhile_prefix _).eq_of_length hall]
      exact List.mem_reverse.mpr h
    simpa using List.mem_takeWhile_imp hmem
  . rfl

theorem sinceBreak_cons_newline (h : '\n' ∉ cs) : sinceBreak ('\n' :: cs) = cs.length := by
  rw [sinceBreak, List.reverse_cons, List.takeWhile_append_of_pos]
  . simp
  . intro c hc
    rw [decide_eq_true_eq]
    rintro rfl
    exact h (List.mem_reverse.mp hc)

namespace lineCol

theorem go_eq_count (cs : List Char) (h : n ≤ cs.length) (line column : Nat) :
    go line column cs n
      =
    (line + (cs.take n).count '\n',
      if '\n' ∈ cs.take n then sinceBreak (cs.take n) + 1 else column + n) := by
  induction cs generalizing n line column with
  | nil =>
    obtain rfl := Nat.le_zero.mp h
    simp [go]
  | cons c cs ih =>
    cases n with
    | zero => simp [go]
    | succ n =>
      have hn : n ≤ cs.length := Nat.le_of_succ_le_succ h
      have hlength : (cs.take n).length = n := List.length_take_of_le hn
      rw [go, List.take_succ_cons]
      split
      . next hc =>
        subst hc
        rw [ih hn, List.count_cons_self, if_pos List.mem_cons_self]
        split
        . next hmem =>
          rw [sinceBreak_cons_of_mem _ hmem, Nat.add_right_comm, Nat.add_assoc line]
        . next hmem =>
          rw [sinceBreak_cons_newline hmem, hlength, Nat.add_comm 1 n, Nat.add_right_comm,
            Nat.add_assoc line]
      . next hc =>
        rw [ih hn, List.count_cons_of_ne hc]
        split
        . next hmem => rw [if_pos (List.mem_cons_of_mem _ hmem), sinceBreak_cons_of_mem _ hmem]
        . next hmem =>
          rw [if_neg, Nat.add_right_comm, Nat.add_assoc]
          rw [List.mem_cons, not_or]
          exact ⟨fun heq => hc heq.symm, hmem⟩

theorem go_append (before cs : List Char) (line column n : Nat) :
    go line column (before ++ cs) (before.length + n)
      =
    go (go line column before before.length).1 (go line column before before.length).2 cs n := by
  induction before generalizing line column with
  | nil =>
    rw [List.nil_append, List.length_nil, Nat.zero_add]
    rfl
  | cons c before ih =>
    rw [List.cons_append, List.length_cons, Nat.succ_add, go, go]
    split
    . apply ih
    . apply ih

end lineCol

theorem lineCol_append_right (cs after : List Char) (h : n ≤ cs.length) :
    lineCol (cs ++ after) n = lineCol cs n := by
  rw [lineCol, lineCol, lineCol.go_eq_count _ h, lineCol.go_eq_count]
  . rw [List.take_append_of_le_length h]
  . rw [List.length_append]
    omega

theorem lineCol_congr {cs cs' : List Char} (hlength : cs.length = cs'.length)
    (h : cs.map (· == '\n') = cs'.map (· == '\n')) : lineCol cs n = lineCol cs' n := by
  suffices hgo : ∀ line column, lineCol.go line column cs n =
    lineCol.go line column cs' n from hgo 1 1
  induction cs generalizing cs' n with
  | nil =>
    cases cs' with
    | nil => simp
    | cons => simp at hlength
  | cons c cs ih =>
    cases cs' with
    | nil => simp at hlength
    | cons c' cs' =>
      intro line column
      cases n with
      | zero => rfl
      | succ n =>
        rw [List.map_cons, List.map_cons, List.cons.injEq] at h
        have hc : c = '\n' ↔ c' = '\n' := by
          rw [← beq_iff_eq, h.1, beq_iff_eq]
        rw [lineCol.go, lineCol.go]
        simp only [hc]
        split
        . exact ih (Nat.succ.inj hlength) h.2 _ _
        . exact ih (Nat.succ.inj hlength) h.2 _ _

def SamePlaces (view text : String) : Prop :=
  ∀ pos ≤ view.length, lineCol view.toList pos = lineCol text.toList pos

end Text

/-- The span is a range of the text, with the lines and columns that the text has at its ends. -/
structure Span.IsIn (text : String) (span : Span) : Prop where
  le : span.start ≤ span.stop
  stop_le : span.stop ≤ text.length
  first : (span.startLine, span.startColumn) = Text.lineCol text.toList span.start
  last : (span.endLine, span.endColumn) = Text.lineCol text.toList span.stop

/-- The span is a range of the text, and `source` stands there. -/
def Span.Quotes (text : String) (span : Span) (source : String) : Prop :=
  span.IsIn text ∧ source = Text.slice text span.start span.stop

namespace Origin

/-- The piece stands in the text, and `origin` is where. -/
structure Holds (origin : Origin) (text piece : List Char) : Prop where
  split : ∃ before after, text = before ++ (piece ++ after) ∧ before.length = origin.offset
  place : (origin.line, origin.column) = Text.lineCol text origin.offset

theorem locate_lineCol (origin : Origin) (cs : List Char) (h : n ≤ cs.length) :
    origin.locate (Text.lineCol cs n).1 (Text.lineCol cs n).2
      =
    (origin.line + (cs.take n).count '\n',
      if '\n' ∈ cs.take n then Text.sinceBreak (cs.take n) + 1 else origin.column + n) := by
  have hmem : '\n' ∈ cs.take n ↔ 1 + (cs.take n).count '\n' ≠ 1 := by
    rw [← List.count_pos_iff]
    omega
  rw [locate, Text.lineCol, Text.lineCol.go_eq_count _ h]
  by_cases hcount : 1 + (cs.take n).count '\n' = 1
  . simp only [hmem, hcount, ne_eq, not_true_eq_false, if_false, if_true]
    rw [Prod.mk.injEq]
    omega
  . simp only [hmem, hcount, ne_eq, not_false_eq_true, if_true, if_false]
    rw [Prod.mk.injEq]
    omega

variable {origin : Origin} {text piece : List Char}

theorem Holds.locate (h : origin.Holds text piece) (hn : n ≤ piece.length) :
    origin.locate (Text.lineCol piece n).1 (Text.lineCol piece n).2
      =
    Text.lineCol text (origin.offset + n) := by
  obtain ⟨before, after, rfl, hbefore⟩ := h.split
  have hplace := h.place
  rw [← hbefore, ← Nat.add_zero before.length, Text.lineCol, Text.lineCol.go_append,
    Text.lineCol.go] at hplace
  obtain ⟨hline, hcolumn⟩ := Prod.mk.inj hplace
  rw [locate_lineCol _ _ hn, ← hbefore, Text.lineCol, Text.lineCol.go_append, ← hline, ← hcolumn,
    Text.lineCol.go_eq_count, List.take_append_of_le_length hn]
  rw [List.length_append]
  omega

theorem Holds.offset_le (h : origin.Holds text piece) :
    origin.offset + piece.length ≤ text.length := by
  obtain ⟨before, after, rfl, hbefore⟩ := h.split
  rw [List.length_append, List.length_append]
  omega

theorem Holds.span {text : String} (h : origin.Holds text.toList piece) (hle : start ≤ stop)
    (hstop : stop ≤ piece.length) (file : Option String) :
    (origin.span piece start stop file).IsIn text where
  le := Nat.add_le_add_left hle _
  stop_le := by
    have hoffset := h.offset_le
    rw [String.length_toList] at hoffset
    dsimp only [Origin.span]
    omega
  first := h.locate (Nat.le_trans hle hstop)
  last := h.locate hstop

theorem Holds.spanAt (h : origin.Holds text piece) (hpos : pos ≤ piece.length)
    (file : Option String) :
    ((origin.spanAt piece pos file).startLine, (origin.spanAt piece pos file).startColumn)
      =
    Text.lineCol text (origin.spanAt piece pos file).start :=
  h.locate hpos

theorem Holds.slice {text piece : String} (h : origin.Holds text.toList piece.toList)
    (hstop : stop ≤ piece.length) :
    Text.slice text (origin.offset + start) (origin.offset + stop) =
      Text.slice piece start stop := by
  obtain ⟨before, after, htext, hbefore⟩ := h.split
  rw [Text.slice, Text.slice, htext, ← hbefore, List.drop_length_add_append, Nat.add_sub_add_left]
  by_cases hle : start ≤ stop
  . rw [List.drop_append_of_le_length, List.take_append_of_le_length]
    . rw [List.length_drop, String.length_toList]
      omega
    . rw [String.length_toList]
      omega
  . rw [Nat.sub_eq_zero_of_le (by omega), List.take_zero, List.take_zero]

theorem Holds.part (h : origin.Holds text piece) (hstart : start ≤ piece.length) (n : Nat) :
    Holds
      ⟨(origin.locate (Text.lineCol piece start).1 (Text.lineCol piece start).2).1,
        (origin.locate (Text.lineCol piece start).1 (Text.lineCol piece start).2).2,
          origin.offset + start⟩
      text ((piece.drop start).take n) where
  split := by
    obtain ⟨before, after, rfl, hbefore⟩ := h.split
    refine ⟨before ++ piece.take start, (piece.drop start).drop n ++ after, ?_, ?_⟩
    . rw [List.append_assoc, ← List.append_assoc (List.take n _), List.take_append_drop,
        ← List.append_assoc (piece.take start), List.take_append_drop]
    . rw [List.length_append, List.length_take_of_le hstart, hbefore]
  place := h.locate hstart

theorem holds_lineCol (text : List Char) (hstart : start ≤ text.length) (n : Nat) :
    Holds ⟨(Text.lineCol text start).1, (Text.lineCol text start).2, start⟩ text
      ((text.drop start).take n) where
  split := by
    refine ⟨text.take start, (text.drop start).drop n, ?_, List.length_take_of_le hstart⟩
    rw [List.take_append_drop, List.take_append_drop]
  place := rfl

theorem holds_self (text : List Char) : Holds {} text text where
  split := ⟨[], [], by simp, rfl⟩
  place := by rw [Text.lineCol, Text.lineCol.go]

end Origin
end ComponentCompiler
