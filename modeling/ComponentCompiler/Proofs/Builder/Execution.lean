import ComponentCompiler.Builder.Code
import ComponentCompiler.Proofs.Text.Slice

/-!
This module contains what written lines of code execute. Lines are read as they stand, without the
code that they were written from: a block are the lines that are indented under a header, and of the
blocks of a conditional the one is executed that its tests decide for.
-/

namespace ComponentCompiler
namespace Builder

/-- The text that stands between two given texts and makes up the line with them. -/
def between? (before after line : String) : Option String :=
  let text := Text.slice line before.length (line.length - after.length)
  if line = before ++ text ++ after then some text else none

/-- What decides between blocks: the condition of a native `if`, or the value that a `When` is
given. -/
inductive Test where
  | native (condition : String)
  | reactive (value : String)
  deriving DecidableEq, Repr

namespace Test

def ofHeader? (line : String) : Option Test :=
  match between? "if (" ") \x7b" line with
  | some condition => some (.native condition)
  | none => (between? "ui.When(" ", (ui: LayoutBuilder) => \x7b" line).map .reactive

/-- Only a native conditional can go on with a further test. -/
def ofElseIf? (test : Test) (line : String) : Option Test :=
  match test with
  | .native _ => (between? "\x7d else if (" ") \x7b" line).map .native
  | .reactive _ => none

/-- The header of the block for the case that no test holds. -/
def elseLine : Test → String
  | .native _ => "\x7d else \x7b"
  | .reactive _ => "\x7d).Else((ui: LayoutBuilder) => \x7b"

/-- The line that ends the conditional. -/
def lastLine : Test → String
  | .native _ => "\x7d"
  | .reactive _ => "\x7d)"

end Test

def isInside (line : String) : Bool :=
  line == "" || Text.startsWith line "  "

/-- The lines of the block that these lines start with, moved to the margin. -/
def block (lines : List String) : List String :=
  (lines.takeWhile isInside).map fun line => String.ofList (line.toList.drop 2)

def afterBlock (lines : List String) : List String :=
  lines.dropWhile isInside

theorem length_block_le (lines : List String) : (block lines).length ≤ lines.length := by
  rw [block, List.length_map]
  exact (List.takeWhile_sublist isInside).length_le

theorem length_afterBlock_le (lines : List String) : (afterBlock lines).length ≤ lines.length :=
  (List.dropWhile_sublist isInside).length_le

theorem length_lt_of_afterBlock {line : String} {lines more : List String}
    (h : afterBlock lines = line :: more) : more.length < lines.length := by
  have hlength := length_afterBlock_le lines
  rwa [h, List.length_cons] at hlength

/-- Reads on after the header of a conditional with its first test. Returns the block that is
executed and the lines after the conditional. -/
def resolve (holds : Test → Bool) (test : Test) (lines : List String) :
    Option (List String × List String) :=
  match _h : afterBlock lines with
  | [] => none
  | line :: more =>
    if line = test.lastLine then
      some (if holds test then block lines else [], more)
    else if line = test.elseLine then
      match afterBlock more with
      | [] => none
      | last :: rest =>
        if last = test.lastLine then some (if holds test then block lines else block more, rest)
          else none
    else
      match test.ofElseIf? line with
      | none => none
      | some next =>
        match resolve holds next more with
        | none => none
        | some (chosen, rest) => some (if holds test then block lines else chosen, rest)
termination_by lines.length
decreasing_by exact length_lt_of_afterBlock _h

theorem resolve_length_le {holds : Test → Bool} {test : Test} {lines chosen rest : List String}
    (h : resolve holds test lines = some (chosen, rest)) :
    chosen.length ≤ lines.length ∧ rest.length ≤ lines.length := by
  fun_induction resolve holds test lines generalizing chosen rest with
  | case1 | case3 | case5 | case6 | case7 => cases h
  | case2 test lines more hafter =>
    have hmore := length_lt_of_afterBlock hafter
    have hblock := length_block_le lines
    cases h
    split
    . omega
    . simp only [List.length_nil]
      omega
  | case4 test lines more rest' hafter _ hrest =>
    have hmore := length_lt_of_afterBlock hafter
    have hrest' := length_lt_of_afterBlock hrest
    have hblock := length_block_le lines
    have hother := length_block_le more
    cases h
    split
    . omega
    . omega
  | case8 test lines line more hafter _ _ next _ chosen' rest' hresolve ih =>
    have hmore := length_lt_of_afterBlock hafter
    have hblock := length_block_le lines
    obtain ⟨hchosen, hrest⟩ := ih hresolve
    cases h
    split
    . omega
    . omega

/-- The lines that are executed. Of a conditional it is those of one block, at most; any other line
is executed, with the block that is indented under it. -/
def execute (holds : Test → Bool) (lines : List String) : List String :=
  match lines with
  | [] => []
  | line :: lines =>
    match _h : (Test.ofHeader? line).bind fun test => resolve holds test lines with
    | some (chosen, rest) => execute holds chosen ++ execute holds rest
    | none =>
      line :: (Writer.indentAll 1 (execute holds (block lines)) ++ execute holds (afterBlock lines))
termination_by lines.length
decreasing_by
  . obtain ⟨test, _, hresolve⟩ := Option.bind_eq_some_iff.mp _h
    exact Nat.lt_succ_of_le (resolve_length_le hresolve).1
  . obtain ⟨test, _, hresolve⟩ := Option.bind_eq_some_iff.mp _h
    exact Nat.lt_succ_of_le (resolve_length_le hresolve).2
  . exact Nat.lt_succ_of_le (length_block_le lines)
  . exact Nat.lt_succ_of_le (length_afterBlock_le lines)

variable {holds : Test → Bool} {test next : Test} {line : String}
    {lines more body chosen rest : List String}

theorem between?_eq_some {before after text : String} :
    between? before after line = some text ↔ line = before ++ text ++ after := by
  unfold between?
  dsimp only
  constructor
  . intro h
    split at h
    . next hline =>
      cases h
      exact hline
    . cases h
  . rintro rfl
    have hlist : (before ++ text ++ after).toList =
        before.toList ++ (text.toList ++ after.toList) := by
      simp only [String.toList_append, List.append_assoc]
    have hslice : Text.slice (before ++ text ++ after) before.length
        ((before ++ text ++ after).length - after.length) = text := by
      rw [← String.toList_inj, Text.toList_slice hlist (String.length_toList).symm]
      rw [String.length_append, String.length_append, String.length_toList]
      omega
    rw [hslice, if_pos rfl]

theorem toList_indent (h : line ≠ "") :
    (Writer.indent 1 line).toList = ' ' :: ' ' :: line.toList := by
  rw [Writer.indent, if_neg h, String.toList_append, String.toList_ofList]
  rfl

theorem isInside_indent (line : String) : isInside (Writer.indent 1 line) = true := by
  by_cases h : line = ""
  . simp [h, Writer.indent, isInside]
  . simp [isInside, Text.startsWith, toList_indent h]

theorem drop_indent (line : String) :
    String.ofList ((Writer.indent 1 line).toList.drop 2) = line := by
  by_cases h : line = ""
  . simp [h, Writer.indent]
  . simp [toList_indent h]

theorem block_indentAll (hline : isInside line = false) :
    block (Writer.indentAll 1 body ++ line :: more) = body ∧
    afterBlock (Writer.indentAll 1 body ++ line :: more) = line :: more := by
  have hinside : ∀ l ∈ Writer.indentAll 1 body, isInside l = true := by
    intro l hl
    obtain ⟨l, _, rfl⟩ := List.mem_map.mp hl
    exact isInside_indent l
  have hstop : (line :: more).takeWhile isInside = [] := by simp [hline]
  constructor
  . rw [block, List.takeWhile_append_of_pos hinside, hstop, List.append_nil, Writer.indentAll,
      List.map_map]
    exact (List.map_congr_left fun l _ => drop_indent l).trans (List.map_id _)
  . rw [afterBlock, List.dropWhile_append_of_pos hinside]
    simp [hline]

theorem isInside_of_brace (h : line.toList.head? = some '\x7d') : isInside line = false := by
  obtain ⟨cs, hcs⟩ := List.head?_eq_some_iff.mp h
  have hne : line ≠ "" := by
    rintro rfl
    cases hcs
  simp [isInside, Text.startsWith, hcs, hne, List.isPrefixOf]

namespace Test

theorem isInside_lastLine (test : Test) : isInside test.lastLine = false := by
  cases test <;> exact isInside_of_brace (by simp [lastLine])

theorem isInside_elseLine (test : Test) : isInside test.elseLine = false := by
  cases test <;> exact isInside_of_brace (by simp [elseLine])

theorem elseLine_ne_lastLine (test : Test) : test.elseLine ≠ test.lastLine := by
  cases test <;> simp [elseLine, lastLine]

end Test

theorem execute_nil : execute holds [] = [] := by
  rw [execute]

theorem execute_of_resolve (hheader : Test.ofHeader? line = some test)
    (h : resolve holds test lines = some (chosen, rest)) :
    execute holds (line :: lines) = execute holds chosen ++ execute holds rest := by
  have hbind : ((Test.ofHeader? line).bind fun test => resolve holds test lines) =
      some (chosen, rest) := by
    rw [hheader, Option.bind_some, h]
  rw [execute]
  split
  . next hsome =>
    rw [hbind] at hsome
    cases hsome
    rfl
  . next hnone =>
    rw [hbind] at hnone
    cases hnone

theorem resolve_last :
    resolve holds test (Writer.indentAll 1 body ++ test.lastLine :: more) =
      some (if holds test then body else [], more) := by
  obtain ⟨hblock, hafter⟩ := @block_indentAll test.lastLine more body test.isInside_lastLine
  rw [resolve, hblock]
  split
  . next h => simp [hafter] at h
  . next h =>
    rw [hafter] at h
    cases h
    rw [if_pos rfl]

theorem resolve_else {other : List String} :
    resolve holds test
      (Writer.indentAll 1 body ++ test.elseLine ::
        (Writer.indentAll 1 other ++ test.lastLine :: more))
      =
    some (if holds test then body else other, more) := by
  obtain ⟨hblock, hafter⟩ :=
    @block_indentAll test.elseLine
      (Writer.indentAll 1 other ++ test.lastLine :: more) body test.isInside_elseLine
  obtain ⟨hother, hlast⟩ := @block_indentAll test.lastLine more other test.isInside_lastLine
  rw [resolve, hblock]
  split
  . next h => simp [hafter] at h
  . next h =>
    rw [hafter] at h
    cases h
    rw [if_neg test.elseLine_ne_lastLine, if_pos rfl, hother]
    simp only [hlast, if_true]

theorem resolve_elseIf {before condition : String}
    (h : resolve holds (.native condition) more = some (chosen, rest)) :
    resolve holds (.native before)
      (Writer.indentAll 1 body ++ ("\x7d else if (" ++ condition ++ ") \x7b") :: more)
      =
    some (if holds (.native before) then body else chosen, rest) := by
  have hlist : ("\x7d else if (" ++ condition ++ ") \x7b").toList =
      "\x7d else if (".toList ++ (condition.toList ++ ") \x7b".toList) := by
    simp only [String.toList_append, List.append_assoc]
  have hnext : (Test.native before).ofElseIf?
      ("\x7d else if (" ++ condition ++ ") \x7b") = some (.native condition) := by
    rw [Test.ofElseIf?, between?_eq_some.mpr rfl, Option.map_some]
  have hinside : isInside ("\x7d else if (" ++ condition ++ ") \x7b") = false :=
    isInside_of_brace (by simp [hlist])
  obtain ⟨hblock, hafter⟩ := @block_indentAll _ more body hinside
  -- the line is none of those that are looked for first
  have hlast : "\x7d else if (" ++ condition ++ ") \x7b" ≠ "\x7d" := by
    rw [Ne, ← String.toList_inj, hlist]
    simp
  have helse : "\x7d else if (" ++ condition ++ ") \x7b" ≠ "\x7d else \x7b" := by
    rw [Ne, ← String.toList_inj, hlist]
    simp
  rw [resolve, hblock]
  split
  . next hnil => simp [hafter] at hnil
  . next hcons =>
    rw [hafter] at hcons
    cases hcons
    simp only [Test.lastLine, Test.elseLine, hlast, helse, hnext, h, if_false]

theorem ofHeader?_native (condition : String) :
    Test.ofHeader? ("if (" ++ condition ++ ") \x7b") = some (.native condition) := by
  rw [Test.ofHeader?, between?_eq_some.mpr rfl]

theorem ofHeader?_reactive (value : String) :
    Test.ofHeader? ("ui.When(" ++ value ++ ", (ui: LayoutBuilder) => \x7b") =
      some (.reactive value) := by
  -- the two kinds of headers differ in their first character
  have hnative : between? "if (" ") \x7b" ("ui.When(" ++ value ++ ", (ui: LayoutBuilder) => \x7b") =
      none := by
    rw [Option.eq_none_iff_forall_not_mem]
    intro condition h
    have hline := congrArg String.toList (between?_eq_some.mp h)
    simp [String.toList_append] at hline
  rw [Test.ofHeader?, hnative, between?_eq_some.mpr rfl, Option.map_some]

end Builder
end ComponentCompiler
