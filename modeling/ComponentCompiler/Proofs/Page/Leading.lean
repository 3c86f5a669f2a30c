import ComponentCompiler.Proofs.Page.Route
import ComponentCompiler.Proofs.Statement.Shift
import ComponentCompiler.Proofs.Token.Lossless
import Mathlib.Data.List.Induction

/-!
This module contains where the directives of a file stand. In a text whose header is made of
comments and imports that take up whole lines, all that stands before a directive is part of an
import.
-/

namespace ComponentCompiler
namespace Page

open Token (Word Run charsOf tokensAt afterGap startLine shift IsGap IsLastGap)

/-! ### Headers -/

def linesOf (cs : List Char) : List (List Char) :=
  (Text.splitOnP isLineBreak cs).map strip

/-- What each line says, with the offset that this starts at, where the first line starts at an
offset. -/
def locate (pos : Nat) : List (List Char) → List (Nat × List Char)
  | [] => []
  | line :: lines =>
    (pos + (line.takeWhile Text.isBlank).length, strip line) :: locate (pos + line.length + 1) lines

def linesAt (pos : Nat) (cs : List Char) : List (Nat × List Char) :=
  locate pos (Text.splitOnP isLineBreak cs)

/-- The characters that end a line before more of the text. -/
inductive EndsLine : List Char → List Char → Prop where
  | feed (cs : List Char) : EndsLine ['\n'] cs
  | carriage (cs : List Char) : EndsLine ['\r', '\n'] cs
  | last : EndsLine [] []

/-- Lines of an import and the line comments among them, where a block comment is open or not. Of
the lines of code the last, and no other, ends with a quoted text. -/
inductive Closes : Bool → List (Nat × List Char) → List (Nat × List Char) → Prop where
  | last (hends : endsImport line = true) (hline : ¬ ['/', '/'] <+: line)
      (hblock : ¬ ['/', '*'] <+: line) : Closes false [(pos, line)] []
  | code (hopen : endsImport line = false) (hline : ¬ ['/', '/'] <+: line)
      (hblock : ¬ ['/', '*'] <+: line)
      (h : Closes false lines comments) : Closes false ((pos, line) :: lines) comments
  | comment (hline : ['/', '/'] <+: line) (h : Closes false lines comments) :
    Closes false ((pos, line) :: lines) ((pos, line) :: comments)
  | opens (hblock : ['/', '*'] <+: line)
      (h : Closes (!hasCommentEnd (line.drop 2)) lines comments) :
    Closes false ((pos, line) :: lines) comments
  | inside (h : Closes (!hasCommentEnd line) lines comments) :
    Closes true ((pos, line) :: lines) comments

/-- A text that is one import by itself, up to the text that names its module. -/
def IsImport (text : String) : Prop :=
  ∃ statement tokens module, Statement.parse text "" = .ok [statement] ∧
    statement.body = .importing (tokens ++ [module]) ∧ module.terminal = .string

/-- A text from an offset on that starts with comments and imports, and the line comments there.
Only comments stand after a block comment on its last line. Each import is one by itself, takes up
whole lines and ends where a line of it first ends with a quoted text. -/
inductive Header : Nat → List Char → List (Nat × List Char) → Prop where
  | nil : Header pos [] []
  | code (hc : Text.isBlank c = false) (hline : ¬ ['/', '/'] <+: c :: cs)
      (hblock : ¬ ['/', '*'] <+: c :: cs)
      (himport : startsImport (c :: cs) = false) : Header pos (c :: cs) []
  | blank (hc : Text.isBlank c = true) (h : Header (pos + 1) cs comments) :
    Header pos (c :: cs) comments
  | line (hbody : ∀ c ∈ body, isLineBreak c = false) (heol : EndsLine eol cs)
      (h : Header (pos + ('/' :: '/' :: body ++ eol).length) cs comments) :
    Header pos ('/' :: '/' :: body ++ eol ++ cs)
      ((pos, '/' :: '/' :: Text.dropBlankEnd body) :: comments)
  | block (hbody : ¬ ['*', '/'] <:+: body ++ ['*']) (htail : IsLastGap tail)
      (hfree : ∀ c ∈ tail, isLineBreak c = false)
      (heol : EndsLine eol cs)
      (h : Header (pos + ('/' :: '*' :: (body ++ '*' :: '/' :: tail) ++ eol).length) cs comments) :
    Header pos ('/' :: '*' :: (body ++ '*' :: '/' :: tail) ++ eol ++ cs) comments
  | importing (hstarts : startsImport chunk = true)
      (hcloses : Closes false (linesAt pos chunk) inside)
      (himport : IsImport (String.ofList chunk)) (heol : EndsLine eol cs)
      (h : Header (pos + (chunk ++ eol).length) cs comments) :
    Header pos (chunk ++ eol ++ cs) (inside ++ comments)

variable {text : String} {cs pre body line chunk eol gap piece : List Char}
    {lines : List (List Char)} {c : Char}
  {located comments : List (Nat × List Char)} {tokens : List Token} {ws : List Word}
  {runs : List (List Token)}

/-! ### Lines -/

def commentsFrom (cs : List Char) : List (List Char) :=
  leadingComments.go false false (linesOf cs)

theorem isBlank_of_isLineBreak (h : isLineBreak c = true) : Text.isBlank c = true := by
  simp only [isLineBreak, Text.isBlank, Bool.or_eq_true, Bool.and_eq_true, decide_eq_true_eq,
    beq_iff_eq] at h ⊢
  omega

theorem eq_false_of_any {p : Char → Bool} (h : cs.any p = false) : ∀ c ∈ cs, p c = false := by
  simpa using h

theorem linesOf_append (cs more : List Char) (h : isLineBreak c = true) :
    linesOf (cs ++ c :: more) = linesOf cs ++ linesOf more := by
  rw [linesOf, Text.splitOnP_append_cons cs more h, List.map_append]
  rfl

theorem linesOf_break (cs : List Char) (h : isLineBreak c = true) : linesOf (c :: cs) =
    [] :: linesOf cs :=
  linesOf_append [] cs h

theorem linesOf_of_free (h : ∀ c ∈ cs, isLineBreak c = false) : linesOf cs = [strip cs] := by
  rw [linesOf, Text.splitOnP_eq_singleton h, List.map_singleton]

theorem linesOf_free_append (h : ∀ c ∈ pre, isLineBreak c = false) (cs : List Char) :
    ∃ line lines, linesOf cs = strip line :: lines ∧
      linesOf (pre ++ cs) = strip (pre ++ line) :: lines := by
  obtain ⟨line, lines, hcs, hpre⟩ := Text.splitOnP_free_append h cs
  exact ⟨line,
    lines.map strip, by rw [linesOf, hcs, List.map_cons], by rw [linesOf, hpre, List.map_cons]⟩

theorem strip_cons_of_isBlank (h : Text.isBlank c = true) : strip (c :: cs) = strip cs := by
  rw [strip, Text.dropBlank, List.dropWhile_cons_of_pos h]
  rfl

theorem commentsFrom_blank (h : Text.isBlank c = true) :
    commentsFrom (c :: cs) = commentsFrom cs := by
  unfold commentsFrom
  cases hbreak : isLineBreak c with
  | true =>
    rw [linesOf_break cs hbreak]
    rfl
  | false =>
    obtain ⟨line, lines, hcs, hcons⟩ := @linesOf_free_append [c] (by simpa using hbreak) cs
    rw [List.singleton_append] at hcons
    rw [hcons, hcs, List.singleton_append, strip_cons_of_isBlank h]

theorem go_endsLine {comments : List (List Char)} {inBlock after : Bool}
    (h : ∀ lines, leadingComments.go inBlock inImport (linesOf chunk ++ lines) =
      comments ++ leadingComments.go false after lines)
    (heol : EndsLine eol cs) :
    leadingComments.go inBlock inImport (linesOf (chunk ++ (eol ++ cs))) =
      comments ++ leadingComments.go false after (linesOf cs) := by
  cases heol with
  | feed => rw [List.singleton_append, linesOf_append chunk cs (by decide), h]
  | carriage =>
    rw [List.cons_append, linesOf_append chunk _ (by decide), h, List.singleton_append,
      linesOf_break cs (by decide)]
    rfl
  | last =>
    have hchunk := h []
    rw [List.append_nil] at hchunk
    rw [List.append_nil, List.append_nil]
    exact hchunk

/-! ### Comments -/

theorem strip_slash (cs : List Char) : strip ('/' :: cs) = '/' :: Text.dropBlankEnd cs := by
  rw [strip, Text.dropBlank, List.dropWhile_cons_of_neg (by decide),
    Token.dropBlankEnd_cons (by decide)]

theorem commentsFrom_line (hbody : ∀ c ∈ body, isLineBreak c = false) (heol : EndsLine eol cs) :
    commentsFrom ('/' :: '/' :: (body ++ (eol ++ cs))) =
      ('/' :: '/' :: Text.dropBlankEnd body) :: commentsFrom cs := by
  have hfree : ∀ c ∈ '/' :: '/' :: body, isLineBreak c = false := by
    rw [List.forall_mem_cons, List.forall_mem_cons]
    exact ⟨by decide, by decide, hbody⟩
  have hline : linesOf ('/' :: '/' :: body) = ['/' :: '/' :: Text.dropBlankEnd body] := by
    rw [linesOf_of_free hfree, strip_slash, Token.dropBlankEnd_cons (by decide)]
  refine @go_endsLine cs ('/' :: '/' :: body) eol false [_] false false ?_ heol
  intro lines
  rw [hline]
  rfl

theorem hasCommentEnd_iff : hasCommentEnd cs = true ↔ ['*', '/'] <:+: cs := by
  fun_induction hasCommentEnd cs with
  | case1 cs => exact ⟨fun _ => ⟨[], cs, rfl⟩, fun _ => rfl⟩
  | case2 c cs hne ih =>
    rw [ih, List.infix_cons_iff]
    constructor
    . exact .inr
    . rintro (⟨more, h⟩ | h)
      . obtain ⟨rfl, rfl⟩ : c = '*' ∧ cs = '/' :: more := by simpa using h.symm
        exact absurd rfl (hne more rfl)
      . exact h
  | case3 => simp

theorem hasCommentEnd_append_blank (h : ∀ c ∈ blank, Text.isBlank c = true) (cs : List Char) :
    hasCommentEnd (cs ++ blank) = hasCommentEnd cs := by
  induction blank using List.reverseRecOn with
  | nil => rw [List.append_nil]
  | append_singleton blank c ih =>
    rw [← ih fun d hd => h d (List.mem_append_left _ hd), Bool.eq_iff_iff, hasCommentEnd_iff,
      hasCommentEnd_iff, ← List.append_assoc, List.infix_concat_iff]
    constructor
    . rintro (⟨before, hsuffix⟩ | hinfix)
      . have hlast : before ++ ['*'] ++ ['/'] = cs ++ blank ++ [c] := by simpa using hsuffix
        obtain rfl := List.singleton_inj.mp (List.append_inj' hlast rfl).2
        exact absurd (h '/' (List.mem_append_right _ (List.mem_singleton_self _))) (by decide)
      . exact hinfix
    . exact .inr

theorem hasCommentEnd_dropBlankEnd (cs : List Char) :
    hasCommentEnd (Text.dropBlankEnd cs) = hasCommentEnd cs := by
  obtain ⟨blank, hcs, hblank⟩ := Token.dropBlankEnd_eq cs
  nth_rewrite 2 [hcs]
  rw [hasCommentEnd_append_blank hblank]

theorem hasCommentEnd_strip (cs : List Char) : hasCommentEnd (strip cs) = hasCommentEnd cs := by
  rw [strip, hasCommentEnd_dropBlankEnd, Text.dropBlank]
  induction cs with
  | nil => rfl
  | cons c cs ih =>
    by_cases hc : Text.isBlank c = true
    . rw [List.dropWhile_cons_of_pos hc, ih, hasCommentEnd]
      rintro _ rfl
      exact absurd hc (by decide)
    . rw [List.dropWhile_cons_of_neg hc]

theorem go_true_cons (inImport : Bool) (line : List Char) (lines : List (List Char)) :
    leadingComments.go true inImport (line :: lines) =
      leadingComments.go (!hasCommentEnd line) inImport lines := rfl

theorem go_inBlock (hpre : ∀ c ∈ pre, isLineBreak c = false)
    (hbody : ¬ ['*', '/'] <:+: pre ++ body ++ ['*'])
    (hfree : ∀ c ∈ tail, isLineBreak c = false) (heol : EndsLine eol cs) :
    leadingComments.go true inImport
      (linesOf (pre ++ (body ++ '*' :: '/' :: (tail ++ (eol ++ cs)))))
      =
    leadingComments.go false inImport (linesOf cs) := by
  -- `pre` is what of the current line was passed over
  induction body generalizing pre with
  | nil =>
    have hline : ∀ c ∈ pre ++ '*' :: '/' :: tail, isLineBreak c = false := by
      rw [List.forall_mem_append, List.forall_mem_cons, List.forall_mem_cons]
      exact ⟨hpre, by decide, by decide, hfree⟩
    have hend : hasCommentEnd (strip (pre ++ '*' :: '/' :: tail)) = true := by
      rw [hasCommentEnd_strip, hasCommentEnd_iff]
      exact ⟨pre, tail, by simp⟩
    have h := @go_endsLine cs (pre ++ '*' :: '/' :: tail) eol inImport [] true inImport (by
      intro lines
      rw [linesOf_of_free hline, List.singleton_append, go_true_cons, hend]
      rfl) heol
    simpa using h
  | cons c body ih =>
    cases hc : isLineBreak c with
    | true =>
      have hend : hasCommentEnd (strip pre) = false := by
        rw [hasCommentEnd_strip, Bool.eq_false_iff]
        intro h
        exact hbody ((hasCommentEnd_iff.mp h).trans ⟨[], c :: body ++ ['*'], by simp⟩)
      have hrest : ¬ ['*', '/'] <:+: [] ++ body ++ ['*'] := by
        intro h
        exact hbody (h.trans ⟨pre ++ [c], [], by simp⟩)
      rw [List.cons_append, linesOf_append pre _ hc, linesOf_of_free hpre, List.singleton_append,
        go_true_cons, hend]
      exact ih (List.forall_mem_nil _) hrest
    | false =>
      have hline : ∀ d ∈ pre ++ [c], isLineBreak d = false := by
        rw [List.forall_mem_append]
        exact ⟨hpre, by simpa using hc⟩
      have h := ih hline (by simpa using hbody)
      rwa [List.append_assoc, List.singleton_append] at h

theorem commentsFrom_block (hbody : ¬ ['*', '/'] <:+: body ++ ['*'])
    (hfree : ∀ c ∈ tail, isLineBreak c = false) (heol : EndsLine eol cs) :
    commentsFrom ('/' :: '*' :: (body ++ '*' :: '/' :: (tail ++ (eol ++ cs)))) =
      commentsFrom cs := by
  obtain ⟨line, lines, hlines, hopened⟩ :=
    @linesOf_free_append ['/', '*'] (eq_false_of_any rfl)
      (body ++ '*' :: '/' :: (tail ++ (eol ++ cs)))
  have hinside := @go_inBlock cs [] body eol tail false (List.forall_mem_nil _) hbody hfree heol
  rw [List.nil_append, hlines, go_true_cons, hasCommentEnd_strip] at hinside
  have hstrip : strip (['/', '*'] ++ line) = '/' :: '*' :: Text.dropBlankEnd line :=
    (strip_slash _).trans (congrArg _ (Token.dropBlankEnd_cons (by decide) line))
  rw [hstrip] at hopened
  refine (congrArg _ hopened).trans ?_
  rw [commentsFrom, ← hinside, ← hasCommentEnd_dropBlankEnd line]
  rfl

/-! ### Code -/

theorem linesOf_cons (hc : Text.isBlank c = false) (cs : List Char) :
    ∃ line lines after, linesOf (c :: cs) = (c :: line) :: lines ∧ cs = line ++ after ∧
      ∀ d ∈ after.head?, Text.isBlank d = true := by
  have hbreak : isLineBreak c = false := by
    rw [Bool.eq_false_iff]
    intro h
    simp [isBlank_of_isLineBreak h] at hc
  obtain ⟨line, lines, hcs, hcons⟩ :=
    @Text.splitOnP_free_append _ isLineBreak [c] (by simpa using hbreak) cs
  obtain ⟨⟨after, rfl, hafter⟩, _⟩ := Text.splitOnP_eq_cons hcs
  obtain ⟨blank, hline, hblank⟩ := Token.dropBlankEnd_eq line
  refine ⟨Text.dropBlankEnd line, lines.map strip, blank ++ after, ?_, ?_, ?_⟩
  . rw [List.singleton_append] at hcons
    rw [linesOf, hcons, List.map_cons, List.singleton_append, strip, Text.dropBlank,
      List.dropWhile_cons_of_neg (by simp [hc]), Token.dropBlankEnd_cons hc]
  . rw [← List.append_assoc, ← hline]
  . intro d hd
    rw [List.head?_append, Option.mem_def, Option.or_eq_some_iff] at hd
    rcases hd with hd | ⟨_, hd⟩
    . exact hblank d (List.mem_of_mem_head? hd)
    . exact isBlank_of_isLineBreak (hafter d hd)

theorem startsImport_iff :
    startsImport cs = true ↔ ∃ more, cs = ['i', 'm', 'p', 'o', 'r', 't'] ++ more ∧
      ∀ c ∈ more.head?, Text.isWord c = false := by
  unfold startsImport
  split
  . simp [Option.any_eq_false]
  next hne =>
    constructor
    . intro h
      cases h
    . rintro ⟨more, rfl, _⟩
      exact absurd rfl (hne more)

theorem startsImport_append (h : ∀ c ∈ after.head?, Text.isBlank c = true) (line : List Char) :
    startsImport (line ++ after) = startsImport line := by
  rw [Bool.eq_iff_iff, startsImport_iff, startsImport_iff]
  constructor
  . rintro ⟨more, hmore, hword⟩
    rcases List.append_eq_append_iff.mp hmore with ⟨letters, hletters, hafter⟩ | ⟨rest, rfl, rfl⟩
    . cases letters with
      | nil => exact ⟨[], by simpa using hletters.symm, by simp⟩
      | cons c letters =>
        have hc : c ∈ ['i', 'm', 'p', 'o', 'r', 't'] := by simp [hletters]
        have hblank := h c (by rw [hafter]; rfl)
        have hnone := @eq_false_of_any ['i', 'm', 'p', 'o', 'r', 't'] Text.isBlank rfl c hc
        simp [hnone] at hblank
    . refine ⟨rest, rfl, ?_⟩
      intro c hc
      apply hword
      rw [List.head?_append, Option.mem_def.mp hc]
      rfl
  . rintro ⟨more, rfl, hword⟩
    refine ⟨more ++ after, List.append_assoc _ _ _, ?_⟩
    intro c hc
    rw [List.head?_append, Option.mem_def, Option.or_eq_some_iff] at hc
    rcases hc with hc | ⟨_, hc⟩
    . exact hword c hc
    . have hname := Token.isNamePart_of_isNeutral (Token.isNeutral_of_isBlank (h c hc))
      rw [Token.isNamePart, Bool.or_eq_false_iff] at hname
      exact hname.1

theorem go_code (hne : line ≠ []) (hline : ¬ ['/', '/'] <+: line) (hblock : ¬ ['/', '*'] <+: line)
    (inImport : Bool) (lines : List (List Char)) :
    leadingComments.go false inImport (line :: lines)
      =
    if inImport || startsImport line then leadingComments.go false (!endsImport line) lines
      else [] := by
  rw [leadingComments.go]
  . rfl
  . exact hne
  . rintro inner rfl
    exact hblock ⟨inner, rfl⟩
  . rintro inner rfl
    exact hline ⟨inner, rfl⟩

theorem commentsFrom_code (hc : Text.isBlank c = false) (hline : ¬ ['/', '/'] <+: c :: cs)
    (hblock : ¬ ['/', '*'] <+: c :: cs)
    (himport : startsImport (c :: cs) = false) : commentsFrom (c :: cs) = [] := by
  obtain ⟨line, lines, after, hlines, rfl, hafter⟩ := linesOf_cons hc cs
  have hstart : c :: line <+: c :: (line ++ after) := ⟨after, rfl⟩
  rw [← List.cons_append, startsImport_append hafter] at himport
  rw [commentsFrom, hlines, go_code (List.cons_ne_nil _ _) (fun h => hline (h.trans hstart))
    (fun h => hblock (h.trans hstart)), himport]
  rfl

/-! ### Lines of an import -/

theorem map_snd_locate (pos : Nat) (lines : List (List Char)) :
    (locate pos lines).map Prod.snd = lines.map strip := by
  induction lines generalizing pos with
  | nil => rfl
  | cons line lines ih => rw [locate, List.map_cons, List.map_cons, ih]

theorem go_closes (h : Closes inBlock located comments) (more : List (List Char)) :
    leadingComments.go inBlock true (located.map Prod.snd ++ more)
      =
    comments.map Prod.snd ++ leadingComments.go false false more := by
  induction h with
  | @last line _ hends hline hblock =>
    have hne : line ≠ [] := by
      rintro rfl
      cases hends
    rw [List.map_singleton, List.singleton_append, go_code hne hline hblock, hends]
    rfl
  | @code line _ _ _ hopen hline hblock _ ih =>
    rw [List.map_cons, List.cons_append, ← ih]
    by_cases hne : line = []
    . rw [hne]
      rfl
    . rw [go_code hne hline hblock, hopen]
      rfl
  | comment hline _ ih =>
    obtain ⟨inner, rfl⟩ := hline
    exact congrArg _ ih
  | opens hblock _ ih =>
    obtain ⟨inner, rfl⟩ := hblock
    exact ih
  | inside _ ih => rw [List.map_cons, List.cons_append, go_true_cons, ih]

theorem Closes.mem (h : Closes inBlock located comments) :
    ∀ comment ∈ comments, comment ∈ located ∧ ['/', '/'] <+: comment.2 := by
  induction h with
  | last => exact List.forall_mem_nil _
  | code _ _ _ _ ih | opens _ _ ih | inside _ ih =>
    exact fun comment hmem => (ih comment hmem).imp_left (List.mem_cons_of_mem _)
  | comment hline _ ih =>
    rw [List.forall_mem_cons]
    exact ⟨⟨List.mem_cons_self, hline⟩, fun comment hmem =>
      (ih comment hmem).imp_left (List.mem_cons_of_mem _)⟩

theorem go_of_startsImport (h : startsImport line = true) (lines : List (List Char)) :
    leadingComments.go false false (line :: lines) =
      leadingComments.go false true (line :: lines) := by
  obtain ⟨more, rfl, _⟩ := startsImport_iff.mp h
  have hline : ¬ ['/', '/'] <+: ['i', 'm', 'p', 'o', 'r', 't'] ++ more := by simp
  have hblock : ¬ ['/', '*'] <+: ['i', 'm', 'p', 'o', 'r', 't'] ++ more := by simp
  rw [go_code (by simp) hline hblock, go_code (by simp) hline hblock, h]
  rfl

theorem commentsFrom_import (hstarts : startsImport chunk = true)
    (hcloses : Closes false (linesAt pos chunk) comments) (heol : EndsLine eol cs) :
    commentsFrom (chunk ++ (eol ++ cs)) = comments.map Prod.snd ++ commentsFrom cs := by
  apply go_endsLine ?_ heol
  intro lines
  obtain ⟨c, more, rfl, hc⟩ : ∃ c more, chunk = c :: more ∧ Text.isBlank c = false := by
    obtain ⟨more, rfl, _⟩ := startsImport_iff.mp hstarts
    exact ⟨'i', _, rfl, by decide⟩
  obtain ⟨line, rest, after, hlines, rfl, hafter⟩ := linesOf_cons hc more
  rw [← List.cons_append, startsImport_append hafter] at hstarts
  rw [← go_closes hcloses, linesAt, map_snd_locate, ← linesOf, hlines, List.cons_append,
    go_of_startsImport hstarts]

theorem exists_of_line (pos : Nat) (line after : List Char) :
    ∃ before rest, line ++ after = before ++ (strip line ++ rest) ∧
      pos + (line.takeWhile Text.isBlank).length = pos + before.length := by
  obtain ⟨rest, hrest⟩ := dropBlankEnd_isPrefix (Text.dropBlank line)
  refine ⟨line.takeWhile Text.isBlank, rest ++ after, ?_, rfl⟩
  rw [strip, ← List.append_assoc (Text.dropBlankEnd _), hrest, ← List.append_assoc, Text.dropBlank,
    List.takeWhile_append_dropWhile]

theorem exists_of_mem_linesAt (hpre : ∀ c ∈ pre, isLineBreak c = false)
    (h : entry ∈ linesAt pos (pre ++ cs)) :
    ∃ before after, pre ++ cs = before ++ (entry.2 ++ after) ∧ entry.1 = pos + before.length := by
  unfold linesAt at h
  induction cs generalizing pre pos with
  | nil =>
    rw [List.append_nil, Text.splitOnP_eq_singleton hpre, locate, locate, List.mem_singleton] at h
    rw [h]
    exact exists_of_line pos pre []
  | cons c cs ih =>
    cases hc : isLineBreak c with
    | true =>
      rw [Text.splitOnP_append hpre hc, locate, List.mem_cons] at h
      rcases h with rfl | h
      . exact exists_of_line pos pre (c :: cs)
      . obtain ⟨before, after, hcs, hpos⟩ := ih (List.forall_mem_nil _) h
        refine ⟨pre ++ c :: before, after, ?_, ?_⟩
        . rw [List.nil_append] at hcs
          rw [hcs, List.append_assoc, List.cons_append]
        . rw [hpos, List.length_append, List.length_cons]
          omega
    | false =>
      have hfree : ∀ d ∈ pre ++ [c], isLineBreak d = false := by
        rw [List.forall_mem_append]
        exact ⟨hpre, by simpa using hc⟩
      rw [← List.singleton_append, ← List.append_assoc] at h ⊢
      exact ih hfree h

/-! ### Imports -/

/-- These tokens are those of a part of the text that is an import by itself. -/
def IsImportRun (text : String) (run : List Token) : Prop :=
  ∃ start stop own, IsImport (Text.slice text start stop) ∧
    Token.scan (Text.slice text start stop) = .ok own ∧
    startLine run = (startLine own).map (shift start)

structure Leads (text : String) (ws : List Word) (gap cs : List Char) (runs : List (List Token)) :
    Prop where
  toList : text.toList = charsOf ws ++ (gap ++ cs)
  run : Run true ws (gap ++ cs)
  skips : ∃ newline, afterGap false (gap ++ cs) = afterGap newline cs
  tokens : tokensAt 0 ws = runs.flatten
  isImport : ∀ run ∈ runs, IsImportRun text run

theorem Leads.start (text : String) : Leads text [] [] text.toList [] where
  toList := rfl
  run := trivial
  skips := ⟨false, rfl⟩
  tokens := rfl
  isImport := List.forall_mem_nil _

theorem afterGap_endsLine (h : IsLastGap gap) (heol : EndsLine eol cs) (newline : Bool) :
    ∃ found, afterGap newline (gap ++ eol ++ cs) = afterGap found cs := by
  have hfeed : IsGap ['\n'] := .blank (by decide) .nil
  cases heol with
  | feed => exact ⟨_, (@IsLastGap.close [] gap h (by simp) hfeed).skip newline cs⟩
  | carriage =>
    exact ⟨_, (@IsLastGap.close ['\r'] gap h (by decide) (.blank (by decide) hfeed)).skip
      newline cs⟩
  | last =>
    obtain ⟨found, hskip⟩ := h.skip newline
    exact ⟨found, by rw [List.append_nil, List.append_nil, hskip]; rfl⟩

theorem Leads.pass (h : Leads text ws gap (piece ++ cs) runs)
    (hpiece : ∀ newline, ∃ found, afterGap newline (piece ++ cs) = afterGap found cs) :
    Leads text ws (gap ++ piece) cs runs := by
  obtain ⟨newline, hskips⟩ := h.skips
  obtain ⟨found, hpiece⟩ := hpiece newline
  have hassoc : gap ++ piece ++ cs = gap ++ (piece ++ cs) := List.append_assoc _ _ _
  have hskips' : ∃ newline, afterGap false (gap ++ piece ++ cs) = afterGap newline cs :=
    ⟨found, by rw [hassoc, hskips, hpiece]⟩
  exact { h with toList := hassoc ▸ h.toList, run := hassoc ▸ h.run, skips := hskips' }

theorem Leads.pass_gap (h : Leads text ws gap (piece ++ cs) runs) (hpiece : IsGap piece) :
    Leads text ws (gap ++ piece) cs runs :=
  h.pass fun newline => ⟨_, hpiece.skip newline cs⟩

theorem Leads.pass_line (h : Leads text ws gap (piece ++ eol ++ cs) runs) (hpiece : IsLastGap piece)
    (heol : EndsLine eol cs) : Leads text ws (gap ++ (piece ++ eol)) cs runs :=
  h.pass (afterGap_endsLine hpiece heol)

theorem words_of_import (hstarts : startsImport chunk = true)
    (hscan : Token.scan (String.ofList chunk) = .ok tokens) :
    ∃ (w : Word) (ws : List Word) (gap : List Char), tokens = tokensAt 0 (w :: ws) ∧
      chunk = charsOf (w :: ws) ++ gap ∧ w.gap = [] ∧
      w.text.head? = some 'i' ∧ Run true (w :: ws) gap ∧ IsLastGap gap := by
  obtain ⟨more, hchunk⟩ : ∃ more, chunk = 'i' :: more := by
    obtain ⟨_, hchunk, _⟩ := startsImport_iff.mp hstarts
    exact ⟨_, hchunk⟩
  have hhead : afterGap false chunk = .ok (false, chunk) := by
    rw [hchunk]
    exact Token.afterGap_of_token (by decide) rfl
  obtain ⟨ws, gap, newline, hrun, htext, htokens, hlast⟩ := Token.words_of_scan hscan
  rw [String.toList_ofList] at htext
  cases ws with
  | nil =>
    rw [Token.charsOf_nil, List.nil_append] at htext
    rw [htext, hlast, Except.ok.injEq, Prod.mk.injEq] at hhead
    rw [htext, ← hhead.2] at hchunk
    cases hchunk
  | cons w ws =>
    have htext' : chunk = w.gap ++ (w.text ++ (charsOf ws ++ gap)) := by
      rw [htext, Token.charsOf_cons, Word.chars, List.append_assoc, List.append_assoc]
    have hword := hrun.1.gap
    rw [← htext', hhead, Except.ok.injEq, Prod.mk.injEq] at hword
    have hnil : w.gap = [] := by
      rw [← hword.2] at htext'
      exact List.self_eq_append_left.mp htext'
    have hi : w.text.head? = some 'i' := by
      obtain ⟨d, rest, hd, _⟩ := hrun.1.text
      rw [hchunk, hd, List.cons_append, List.cons.injEq] at hword
      rw [hd, hword.2.1, List.head?_cons]
    have hgap := (Token.passed_of_afterGap ((congrArg _ (List.append_nil gap)).trans hlast)).1
    exact ⟨w, ws, gap, htokens, htext, hnil, hi, hrun, hgap⟩

theorem Leads.import (h : Leads text ws gap (chunk ++ (eol ++ cs)) runs)
    (hstarts : startsImport chunk = true)
    (himport : IsImport (String.ofList chunk)) (heol : EndsLine eol cs) :
    ∃ ws' gap' run, Leads text ws' gap' cs (runs ++ [run]) := by
  obtain ⟨statement, _, _, hparse, _⟩ := id himport
  obtain ⟨items, hitems⟩ := Statement.items_of_parse hparse
  obtain ⟨own, hscan, _⟩ := bind_eq_ok.mp hitems
  obtain ⟨w, vs, rest, rfl, hchunk, hnil, hi, hrun, hlast⟩ := words_of_import hstarts hscan
  obtain ⟨newline, hskips⟩ := h.skips
  have hagrees : Token.Agrees rest (rest ++ (eol ++ cs)) := by
    rw [← List.append_nil rest, List.append_assoc]
    apply Token.Agrees.append
    cases heol with
    | feed => exact .of_isNeutral (Token.isNeutral_of_isBlank (by decide))
    | carriage => exact .of_isNeutral (Token.isNeutral_of_isBlank (by decide))
    | last => exact .nil
  have hrun := hrun.agrees hagrees
  have hword : chunk ++ (eol ++ cs) = w.text ++ (charsOf vs ++ (rest ++ (eol ++ cs))) := by
    rw [hchunk, Token.charsOf_cons, Word.chars, hnil]
    simp
  -- a letter starts a name whether an operand is due there or not
  have hstarts : (w.respaced gap newline).Starts (Token.operandAt true ws)
      (charsOf vs ++ (rest ++ (eol ++ cs))) := by
    obtain ⟨c, more, htext, hread⟩ := hrun.1.text
    obtain rfl : c = 'i' := by simpa [htext] using hi
    constructor
    . change afterGap false (gap ++ (w.text ++ _)) = .ok (newline, w.text ++ _)
      rw [← hword, hskips, hword, htext, List.cons_append]
      exact Token.afterGap_of_token (by decide) rfl
    . exact ⟨'i', more, htext, hread⟩
  have htext : text.toList =
      charsOf (ws ++ w.respaced gap newline :: vs) ++ (rest ++ eol ++ cs) := by
    rw [h.toList, hword, Token.charsOf_append, Token.charsOf_cons, Word.chars, Word.respaced]
    simp only [List.append_assoc]
  refine ⟨ws ++ w.respaced gap newline :: vs, rest ++ eol,
    tokensAt (charsOf ws).length (w.respaced gap newline :: vs), htext, ?_,
    afterGap_endsLine hlast heol false, ?_, ?_⟩
  . rw [Token.run_append, List.append_assoc]
    refine ⟨?_, hstarts, hrun.2⟩
    have hrun := h.run
    rw [hword] at hrun
    rw [Token.charsOf_cons, Word.chars, Word.respaced]
    simpa only [List.append_assoc] using hrun
  . rw [Token.tokensAt_append, h.tokens, List.flatten_append, List.flatten_singleton, Nat.zero_add]
  . rw [List.forall_mem_append, List.forall_mem_singleton]
    refine ⟨h.isImport, (charsOf ws ++ gap).length, (charsOf ws ++ gap).length + chunk.length,
      tokensAt 0 (w :: vs), ?_⟩
    have hslice : Text.slice text (charsOf ws ++ gap).length
        ((charsOf ws ++ gap).length + chunk.length) = String.ofList chunk := by
      rw [← String.toList_inj, String.toList_ofList]
      exact Text.toList_slice (h.toList.trans (List.append_assoc _ _ _).symm) rfl rfl
    rw [hslice]
    refine ⟨himport, hscan, ?_⟩
    rw [Token.startLine_tokensAt, Token.startLine_tokensAt, ← Token.tokensAt_add, hnil,
      List.length_append]
    exact congrArg (tokensAt · _) (Nat.zero_add _).symm

theorem Leads.before (h : Leads text ws gap cs runs) (hscan : Token.scan text = .ok tokens) :
    ∃ rest, tokens = runs.flatten ++ rest ∧ ∀ t ∈ rest, text.length ≤ t.start + cs.length := by
  obtain ⟨newline, hskips⟩ := h.skips
  have hlength := Text.length_eq h.toList
  have hstop : ∀ t ∈ tokensAt 0 ws, t.start < text.length := by
    intro t ht
    have hlt := h.run.start_lt ht
    rw [hlength, List.length_append]
    omega
  obtain ⟨n, hn⟩ : ∃ n, text.toList.length + 1 = n + ws.length := by
    have hle := h.run.length_le
    refine ⟨text.toList.length + 1 - ws.length, ?_⟩
    rw [h.toList, List.length_append]
    omega
  rw [Token.scan, Token.scanWindow] at hscan
  rw [List.drop_zero, hn, h.toList, Token.scanFrom_of_run h.run hstop] at hscan
  obtain ⟨rest, hrest, rfl⟩ := map_eq_ok.mp hscan
  refine ⟨rest, by rw [h.tokens], ?_⟩
  obtain ⟨vs, after, hrun, hcs, rfl⟩ := Token.scanFrom_ok hrest
  intro t ht
  have hpos : (charsOf ws).length + gap.length + cs.length = text.length := by
    rw [hlength, List.length_append, List.length_append, Nat.add_assoc]
  cases vs with
  | nil => cases ht
  | cons w vs =>
    -- the gap before the first word reaches beyond the gap behind the imports
    have hgap := hrun.1.gap
    obtain ⟨c, more, htext, _⟩ := hrun.1.text
    have hchars : gap ++ cs = w.gap ++ (w.text ++ (charsOf vs ++ after)) := by
      rw [hcs, Token.charsOf_cons, Word.chars, List.append_assoc, List.append_assoc]
    rw [← hchars, hskips, htext, List.cons_append] at hgap
    obtain ⟨used, hused, _⟩ := Token.afterGap_append hgap
    have hle : gap.length ≤ w.gap.length := by
      have hsizes := congrArg List.length hchars
      rw [hused, htext] at hsizes
      simp only [List.cons_append, List.length_append, List.length_cons] at hsizes
      omega
    rw [tokensAt, List.mem_cons] at ht
    rcases ht with rfl | ht
    . dsimp only [Word.token]
      omega
    . have hstart := hrun.2.le_start ht
      rw [Word.chars, List.length_append] at hstart
      omega

theorem commentsFrom_header (h : Header pos cs comments) :
    commentsFrom cs = comments.map Prod.snd := by
  induction h with
  | nil => rfl
  | code hc hline hblock himport => exact commentsFrom_code hc hline hblock himport
  | blank hc _ ih => rw [commentsFrom_blank hc, ih]
  | line hbody heol _ ih =>
    rw [List.append_assoc, List.cons_append, List.cons_append, commentsFrom_line hbody heol, ih,
      List.map_cons]
  | block hbody _ hfree heol _ ih =>
    rw [← ih, ← commentsFrom_block hbody hfree heol]
    simp
  | importing hstarts hcloses _ heol _ ih =>
    rw [List.append_assoc, commentsFrom_import hstarts hcloses heol, ih, List.map_append]

/-- The token is one of an import. -/
def InImport (text : String) (tokens : List Token) (t : Token) : Prop :=
  ∃ before run after, tokens = before ++ (run ++ after) ∧ t ∈ run ∧ IsImportRun text run

theorem Leads.inImport (h : Leads text ws gap cs runs) (hscan : Token.scan text = .ok tokens)
    (hpos : pos + cs.length ≤ text.length) :
    ∀ t ∈ tokens, t.start < pos → InImport text tokens t := by
  obtain ⟨rest, rfl, hrest⟩ := h.before hscan
  intro t ht hlt
  rcases List.mem_append.mp ht with ht | ht
  . obtain ⟨run, hrun, hmem⟩ := List.mem_flatten.mp ht
    obtain ⟨before, after, rfl⟩ := List.append_of_mem hrun
    exact ⟨before.flatten, run, after.flatten ++ rest, by simp, hmem, h.isImport run hrun⟩
  . have hle := hrest t ht
    omega

/-- A comment that stands at an offset of the text, with only imports before it. -/
def IsLeading (text : String) (tokens : List Token) (comment : Nat × List Char) : Prop :=
  ['/', '/'] <+: comment.2 ∧ comment.2 <+: text.toList.drop comment.1 ∧
    ∀ t ∈ tokens, t.start < comment.1 → InImport text tokens t

theorem Leads.drop_eq (h : Leads text ws gap cs runs) (hpos : pos + cs.length = text.length) :
    text.toList.drop pos = cs := by
  have htext := h.toList
  rw [← List.append_assoc] at htext
  have hlength := Text.length_eq htext
  rw [List.length_append] at hlength
  rw [htext]
  apply List.drop_left'
  omega

theorem isLeading_of_header (h : Header pos cs comments) (hpos : pos + cs.length = text.length)
    (hleads : Leads text ws gap cs runs) (hscan : Token.scan text = .ok tokens) :
    ∀ comment ∈ comments, IsLeading text tokens comment := by
  induction h generalizing ws gap runs with
  | nil | code => exact List.forall_mem_nil _
  | @blank c pos cs comments hc _ ih =>
    have hpass : Leads text ws gap ([c] ++ cs) runs := hleads
    apply ih ?_ (hpass.pass_gap (.blank hc .nil))
    rw [← hpos, List.length_cons]
    omega
  | @line body eol cs pos comments hbody heol _ ih =>
    have hfree : '\n' ∉ body := fun h => absurd (hbody '\n' h) (by decide)
    have hlast : IsLastGap ('/' :: '/' :: body) := .line .nil hfree
    have hnext := hleads.pass_line hlast heol
    rw [List.forall_mem_cons]
    refine ⟨⟨⟨_, rfl⟩, ?_, hleads.inImport hscan (Nat.le_of_eq hpos)⟩, ih ?_ hnext⟩
    . rw [hleads.drop_eq hpos, List.append_assoc]
      obtain ⟨blank, hblank⟩ := dropBlankEnd_isPrefix body
      exact ⟨blank ++ (eol ++ cs), by nth_rewrite 2 [← hblank]; simp⟩
    . rwa [Nat.add_assoc, ← List.length_append]
  | @block body tail eol cs pos _ hbody htail _ heol _ ih =>
    have hlast : IsLastGap ('/' :: '*' :: (body ++ '*' :: '/' :: tail)) := by
      have happend := IsLastGap.append (.block hbody .nil) htail
      simpa using happend
    apply ih ?_ (hleads.pass_line hlast heol)
    rwa [Nat.add_assoc, ← List.length_append]
  | @importing chunk pos _ eol cs comments hstarts hcloses himport heol _ ih =>
    have hdrop := hleads.drop_eq hpos
    rw [List.append_assoc] at hleads hdrop
    obtain ⟨ws', gap', run, hnext⟩ := hleads.import hstarts himport heol
    rw [List.forall_mem_append]
    refine ⟨?_, ih ?_ hnext⟩
    . intro comment hcomment
      obtain ⟨hline, hslashes⟩ := hcloses.mem comment hcomment
      obtain ⟨before, after, rfl, hstart⟩ :=
        @exists_of_mem_linesAt chunk [] _ _ (List.forall_mem_nil _) hline
      refine ⟨hslashes, ?_, hnext.inImport hscan ?_⟩
      . rw [hstart, ← List.drop_drop, hdrop, List.append_assoc, List.drop_left, List.append_assoc]
        exact List.prefix_append _ _
      . rw [hstart, ← hpos]
        simp only [List.length_append]
        omega
    . rwa [Nat.add_assoc, ← List.length_append]

/-- What a file says of its page is what the line comments of its header say. Each of them stands
where the header has it, and all tokens before it are those of imports. -/
theorem ofText_of_header (hscan : Token.scan text = .ok tokens)
    (hheader : Header 0 text.toList comments) :
    Metadata.ofText text = (comments.map Prod.snd).foldl Metadata.read {} ∧
    ∀ comment ∈ comments, IsLeading text tokens comment := by
  constructor
  . rw [Metadata.ofText, ← commentsFrom_header hheader]
    rfl
  . have hpos : 0 + text.toList.length = text.length := by rw [Nat.zero_add, String.length_toList]
    exact isLeading_of_header hheader hpos (Leads.start text) hscan

/-- The directive inside the import is read, and the one after code is not. -/
theorem ofText_of_header_about :
    let text :=
      "/* c\n*/ // d\nimport \x7b a,\n/* e */\n// @title About\nb \x7d from './m'\n// @page /about\nlet x = 1\n// @page /late"
    ∃ tokens comments, Token.scan text = .ok tokens ∧ Header 0 text.toList comments ∧
      Metadata.ofText text = { isPage := true, routePath := some "/about", title := some "About" } ∧
      ∀ comment ∈ comments, ∀ t ∈ tokens, t.start < comment.1 → InImport text tokens t := by
  intro text
  obtain ⟨tokens, hscan, _⟩ : ∃ tokens, Token.scan text = .ok tokens ∧ true = true :=
    exists_ok_of_any (by decide +kernel)
  have himport : IsImport
      (String.ofList "import \x7b a,\n/* e */\n// @title About\nb \x7d from './m'".toList) :=
    ⟨⟨.importing [⟨.brace, "\x7b a,\n/* e */\n// @title About\nb \x7d", 7, 39⟩,
      ⟨.name, "from", 40, 44⟩, ⟨.string, "'./m'", 45, 50⟩],
      0, 50, 7, false, false⟩, [_, _], _, by decide +kernel, rfl, rfl⟩
  have hcloses : Closes false
      (linesAt 13 "import \x7b a,\n/* e */\n// @title About\nb \x7d from './m'".toList)
      [(33, "// @title About".toList)] :=
    .code (by decide) (by decide) (by decide)
      (.opens (by decide) (.comment (by decide) (.last (by decide) (by decide) (by decide))))
  have hcode : Header 80 "let x = 1\n// @page /late".toList [] :=
    .code (by decide) (by decide) (by decide) (by decide)
  have hpage : Header 64
      ('/' :: '/' :: " @page /about".toList ++ ['\n'] ++ "let x = 1\n// @page /late".toList)
      [(64, "// @page /about".toList)] :=
    .line (eq_false_of_any rfl) (.feed _) hcode
  have hnames := Header.importing (by decide +kernel) hcloses himport (.feed _) hpage
  have htail : IsLastGap " // d".toList :=
    @IsLastGap.line [' ', 'd'] [' '] (.blank (by decide) .nil) (by decide)
  have hheader := @Header.block " c\n".toList " // d".toList ['\n'] _ 0 _ (by decide) htail
    (eq_false_of_any rfl) (.feed _) hnames
  have htext : text.toList =
      '/' :: '*' :: (" c\n".toList ++ '*' :: '/' :: " // d".toList) ++ ['\n'] ++
      ("import \x7b a,\n/* e */\n// @title About\nb \x7d from './m'".toList ++ ['\n'] ++
        ('/' :: '/' :: " @page /about".toList ++ ['\n'] ++
          "let x = 1\n// @page /late".toList)) := by
    decide +kernel
  rw [← htext] at hheader
  obtain ⟨hread, hcomments⟩ := ofText_of_header hscan hheader
  exact ⟨tokens, _, hscan, hheader, hread.trans (by decide +kernel), fun comment hcomment =>
    (hcomments comment hcomment).2.2⟩

/-- A directive is read after code that stands behind a block comment. -/
theorem page_after_code :
    let text := "/* c */ const x = 1\n// @page /a"
    Metadata.ofText text = { isPage := true, routePath := some "/a" } ∧
      text.toList.drop 20 = "// @page /a".toList ∧
      ∃ tokens, Token.scan text = .ok tokens ∧ (∃ t ∈ tokens, t.start < 20) ∧
        ∃ statement, Statement.parse text "" = .ok [statement] ∧ statement.start < 20 ∧
        ∀ content, statement.body ≠ .importing content := by
  intro text
  obtain ⟨tokens, hscan, ht⟩ :
      ∃ tokens, Token.scan text = .ok tokens ∧ tokens.any (·.start < 20) = true :=
    exists_ok_of_any (by decide +kernel)
  have hparse : Statement.parse text "" =
      .ok
        [⟨.variable ⟨⟨.decl, "const", 8, 13⟩, ⟨.name, "x", 14, 15⟩, [],
          some [⟨.number, "1", 18, 19⟩]⟩,
      8, 19, 8, false, false⟩] := by
    decide +kernel
  refine ⟨by decide +kernel, by decide +kernel, tokens, hscan, by simpa using ht, _,
    hparse, by decide, ?_⟩
  intro content h
  cases h

end Page
end ComponentCompiler
