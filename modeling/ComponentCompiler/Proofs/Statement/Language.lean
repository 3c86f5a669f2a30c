import ComponentCompiler.Proofs.Statement.Grammar

/-!
This module contains what reading the statements of a text accepts and where it fails. It succeeds
if every segment between two ends has one of the shapes of a statement, and otherwise fails at the
first lexeme with which the text no longer starts like any sequence of statements.
-/

namespace ComponentCompiler

namespace Statement

variable {eos found : Lexeme} {tokens lexemes before rest : List Lexeme}
variable {segs : List (List Lexeme × Lexeme)}

open Stage (Dies)

theorem Stage.next_ne_start {stage : Stage} (h : t ≠ .eos) : stage.next t ≠ some .start := by
  intro hnext
  cases stage <;> cases t <;> first | exact h rfl | simp [Stage.next, isExpressionItem,
    isSignatureItem, isTypeItem, isBinding] at hnext

theorem Stage.run_ne_start {stage : Stage} (hne : Unended tokens) (htokens : tokens ≠ []) :
    stage.run tokens ≠ some .start := by
  induction tokens generalizing stage with
  | nil => simp at htokens
  | cons t tokens ih =>
    rw [unended_cons] at hne
    rw [Stage.run]
    cases hnext : stage.next t.terminal with
    | none => simp
    | some after =>
      cases tokens with
      | nil =>
        intro h
        cases h
        exact Stage.next_ne_start hne.1 hnext
      | cons t' tokens => exact ih hne.2 (by simp)

theorem unended_or_segment (lexemes : List Lexeme) :
    Unended lexemes ∨
      ∃ tokens eos rest, lexemes = tokens ++ eos :: rest ∧ Unended tokens ∧
        eos.terminal = .eos := by
  induction lexemes with
  | nil => exact .inl (by simp [Unended])
  | cons t lexemes ih =>
    by_cases ht : t.terminal = .eos
    . exact .inr ⟨[], t, lexemes, rfl, by simp [Unended], ht⟩
    . rcases ih with ih | ⟨tokens, eos, rest, rfl, hne, heos⟩
      . exact .inl (unended_cons.mpr ⟨ht, ih⟩)
      . exact .inr ⟨t :: tokens, eos, rest, rfl, unended_cons.mpr ⟨ht, hne⟩, heos⟩

theorem Program.run (h : Program lexemes) : Stage.run .start lexemes = some .start := by
  induction h with
  | nil => rfl
  | statement h heos _ ih =>
    obtain ⟨content, isExported, isDefault, hshape⟩ := h
    rw [List.append_cons, Stage.run_append, Stage.run_shape hshape heos]
    exact ih

theorem program_of_run {lexemes : List Lexeme} (h : Stage.run .start lexemes = some .start) :
    Program lexemes := by
  rcases unended_or_segment lexemes with hne | ⟨tokens, eos, rest, rfl, hne, heos⟩
  . by_cases hlexemes : lexemes = []
    . rw [hlexemes]
      exact .nil
    . exact absurd h (Stage.run_ne_start hne hlexemes)
  . rw [List.append_cons, Stage.run_append] at h
    cases hread : ofSegment (tokens, eos) with
    | error u =>
      rw [(ofSegment_error hne heos hread).run_eq_none] at h
      simp at h
    | ok statement =>
      have hshape := (isStatement_of_ofSegment heos hread).shape
      rw [Stage.run_shape hshape heos, Option.bind_some] at h
      exact .statement ⟨_, _, _, hshape⟩ heos (program_of_run h)
termination_by lexemes.length

theorem viable_of_run (h : Stage.run .start lexemes = some stage) : Viable lexemes := by
  refine ⟨stage.completion.map fun t => ⟨t, "", 0, 0⟩, program_of_run ?_⟩
  rw [Stage.run_append, h]
  exact Stage.run_completion stage

theorem not_viable_of_run (h : Stage.run .start lexemes = none) : ¬ Viable lexemes := by
  rintro ⟨rest, hprogram⟩
  have := hprogram.run
  rw [Stage.run_append, h] at this
  simp at this

/-- The lexemes of segments, each with its end. -/
def joined (segs : List (List Lexeme × Lexeme)) : List Lexeme :=
  segs.flatMap fun segment => segment.1 ++ [segment.2]

/-- Segments that hold no end but the one after them. -/
def Segmented (segs : List (List Lexeme × Lexeme)) : Prop :=
  ∀ segment ∈ segs, Unended segment.1 ∧ segment.2.terminal = .eos

theorem segments_append (hne : Unended tokens) (heos : eos.terminal = .eos) :
    segments (tokens ++ eos :: rest) = (tokens, eos) :: segments rest := by
  have hgo : ∀ taken, segments.go taken (tokens ++ eos :: rest) =
      (taken.reverse ++ tokens, eos) :: segments rest := by
    induction tokens with
    | nil =>
      intro taken
      rw [List.nil_append, segments.go, if_pos heos, List.append_nil]
      rfl
    | cons t tokens ih =>
      intro taken
      rw [unended_cons] at hne
      rw [List.cons_append, segments.go, if_neg hne.1, ih hne.2]
      simp
  exact hgo []

theorem segments_joined (h : Segmented segs) : segments (joined segs) = segs := by
  induction segs with
  | nil => rfl
  | cons segment segs ih =>
    simp only [Segmented, List.mem_cons, forall_eq_or_imp] at h
    have hjoined : joined (segment :: segs) = segment.1 ++ segment.2 :: joined segs := by
      simp [joined]
    rw [hjoined, segments_append h.1.1 h.1.2, ih h.2]

def ofPart (part : Lexeme.Part text) : List Lexeme × Lexeme :=
  (part.lexemes, Lexeme.endOf part.last)

theorem joined_ofPart (parts : List (Lexeme.Part text)) :
    joined (parts.map ofPart) = Lexeme.streams parts := by
  rw [joined, List.flatMap_map]
  rfl

theorem segmented_ofPart (parts : List (Lexeme.Part text)) : Segmented (parts.map ofPart) := by
  intro segment hmem
  obtain ⟨part, _, rfl⟩ := List.mem_map.mp hmem
  exact ⟨part.terminal_ne_eos, rfl⟩

theorem segments_streams (parts : List (Lexeme.Part text)) :
    segments (Lexeme.streams parts) = parts.map ofPart := by
  rw [← joined_ofPart, segments_joined (segmented_ofPart parts)]

theorem joined_segments (text : String) (items : List Item) :
    joined (segments (Lexeme.ofItems text items)) = Lexeme.ofItems text items ∧
      Segmented (segments (Lexeme.ofItems text items)) := by
  obtain ⟨parts, _, hparts⟩ := Lexeme.cut_ofItems text items
  rw [hparts, segments_streams]
  exact ⟨joined_ofPart parts, segmented_ofPart parts⟩

theorem parse_of_items {items : List Item} (h : (Token.scan text >>= Token.group) = .ok items)
    (file : String) :
    parse text file = (segments (Lexeme.ofItems text items)).mapM fun segment =>
      (ofSegment segment).mapError fun u =>
        .compile (.at u.problem text u.found.start {} file) := by
  rw [parse, h]
  rfl

theorem items_of_parse (h : parse text file = .ok statements) :
    ∃ items, (Token.scan text >>= Token.group) = .ok items := by
  rw [parse, bind_eq_ok] at h
  obtain ⟨items, hitems, _⟩ := h
  exact ⟨items, mapError_eq_ok.mp hitems⟩

theorem run_joined (hsegs : Segmented segs)
    (h : ∀ segment ∈ segs, ∃ statement, ofSegment segment = .ok statement) :
    Stage.run .start (joined segs) = some .start := by
  induction segs with
  | nil => rfl
  | cons segment segs ih =>
    simp only [Segmented, List.mem_cons, forall_eq_or_imp] at hsegs h
    obtain ⟨⟨statement, hread⟩, h⟩ := h
    have hshape := (isStatement_of_ofSegment hsegs.1.2 hread).shape
    have hjoined : joined (segment :: segs) = segment.1 ++ [segment.2] ++ joined segs := rfl
    rw [hjoined, Stage.run_append, Stage.run_shape hshape hsegs.1.2]
    exact ih hsegs.2 h

theorem viable_of_mapM_error {f : Unexpected → ε} (hsegs : Segmented segs)
    (h : (segs.mapM fun segment => (ofSegment segment).mapError f) = .error e) :
    ∃ u before after, joined segs = before ++ u.found :: after ∧ Viable before ∧
      ¬ Viable (before ++ [u.found]) ∧ e = f u := by
  obtain ⟨first, segment, last, rfl, hfirst, hfail⟩ := mapM_eq_error h
  obtain ⟨u, hread, rfl⟩ := mapError_eq_error hfail
  have hsegment := hsegs segment (by simp)
  have hrun : Stage.run .start (joined first) = some .start := by
    apply run_joined fun segment hmem => hsegs segment (List.mem_append_left _ hmem)
    intro segment hmem
    obtain ⟨statement, hok⟩ := hfirst segment hmem
    exact ⟨statement, mapError_eq_ok.mp hok⟩
  obtain ⟨before, after, hsplit, ⟨stage, hstage⟩, hnone⟩ :=
    (ofSegment_error hsegment.1 hsegment.2 hread).split
  refine ⟨u, joined first ++ before, after ++ joined last, ?_, ?_, ?_, rfl⟩
  . have hjoined : joined (first ++ segment :: last) =
        joined first ++ (segment.1 ++ [segment.2]) ++ joined last := by
      simp [joined]
    rw [hjoined, hsplit]
    simp
  . apply viable_of_run
    rw [Stage.run_append, hrun]
    exact hstage
  . apply not_viable_of_run
    rw [List.append_assoc, Stage.run_append, hrun]
    exact hnone

theorem isStatement_of_parse {items : List Item} (h : (Token.scan text >>= Token.group) = .ok items)
    (hparse : parse text file = .ok statements) :
    List.Forall₂ IsStatement (segments (Lexeme.ofItems text items)) statements := by
  rw [parse_of_items h, mapM_eq_ok, List.forall₂_iff_zip] at hparse
  rw [List.forall₂_iff_zip]
  refine ⟨hparse.1, ?_⟩
  intro segment statement hmem
  have heos := ((joined_segments text items).2 segment (List.of_mem_zip hmem).1).2
  exact isStatement_of_ofSegment heos (mapError_eq_ok.mp (hparse.2 hmem))

/-- The statements of a text are its segments, and they are read exactly if each of them has the
shape of a statement. Otherwise reading fails at the first lexeme, maybe an end, with which the text
no longer starts like any sequence of statements. -/
theorem parse_iff_wellShaped {text : String} {items : List Item}
    (h : (Token.scan text >>= Token.group) = .ok items) (file : String) :
    (joined (segments (Lexeme.ofItems text items)) = Lexeme.ofItems text items ∧
      Segmented (segments (Lexeme.ofItems text items))) ∧
    ((∃ statements, parse text file = .ok statements)
      ↔
    ∀ segment ∈ segments (Lexeme.ofItems text items), WellShaped segment.1) ∧
    (∀ statements, parse text file = .ok statements →
      List.Forall₂ IsStatement (segments (Lexeme.ofItems text items)) statements) ∧
    (∀ failure, parse text file = .error failure →
      ∃ before found after details, Lexeme.ofItems text items = before ++ found :: after ∧
        Viable before ∧ ¬ Viable (before ++ [found]) ∧
        failure = .compile (.at (.unexpectedToken details) text found.start {} file)) := by
  have hsegments := joined_segments text items
  refine ⟨hsegments, ⟨?_, ?_⟩, fun _ => isStatement_of_parse h, ?_⟩
  . rintro ⟨statements, hparse⟩ segment hmem
    obtain ⟨statement, _, hshape⟩ :=
      exists_left_of_forall₂ (isStatement_of_parse h hparse).flip hmem
    exact ⟨_, _, _, hshape.shape⟩
  . intro hshapes
    rw [parse_of_items h]
    apply mapM_total
    intro segment hmem
    obtain ⟨hne, heos⟩ := hsegments.2 segment hmem
    obtain ⟨statement, hread⟩ := ofSegment_total hne heos (hshapes segment hmem)
    exact ⟨statement, mapError_eq_ok.mpr hread⟩
  . intro failure hparse
    rw [parse_of_items h] at hparse
    obtain ⟨u, before, after, hsplit, hviable, hnot, rfl⟩ := viable_of_mapM_error hsegments.2 hparse
    rw [hsegments.1] at hsplit
    exact ⟨before, u.found, after, _, hsplit, hviable, hnot, rfl⟩

/-- A default export that is read, and a declaration without a name, which fails at its second
word. -/
theorem parse_iff_wellShaped_declaration :
    (let text := "export default async function f() \x7b\x7d x = 1"
    ∃ items statements, parse text "A.tsx" = .ok statements ∧
      List.Forall₂ IsStatement (segments (Lexeme.ofItems text items)) statements) ∧
    (let text := "f()\nconst = 1"
    ∃ items before found after details, Lexeme.ofItems text items = before ++ found :: after ∧
      Viable before ∧ ¬ Viable (before ++ [found]) ∧
      parse text "A.tsx" =
        .error (.compile (.at (.unexpectedToken details) text found.start {} "A.tsx"))) := by
  constructor
  . intro text
    have hparse : (parse text "A.tsx").isOk = true := by decide +kernel
    cases hstatements : parse text "A.tsx" with
    | error failure => simp [hstatements, Except.isOk, Except.toBool] at hparse
    | ok statements =>
      obtain ⟨items, hitems⟩ := items_of_parse hstatements
      exact ⟨items, statements, rfl,
        (parse_iff_wellShaped hitems "A.tsx").2.2.1 statements hstatements⟩
  . intro text
    have hitems : (Token.scan text >>= Token.group).isOk = true ∧
        (parse text "A.tsx").isOk = false := by
      decide +kernel
    cases hscan : Token.scan text >>= Token.group with
    | error e => simp [hscan, Except.isOk, Except.toBool] at hitems
    | ok items =>
      cases hparse : parse text "A.tsx" with
      | ok statements => simp [hparse, Except.isOk, Except.toBool] at hitems
      | error failure =>
        obtain ⟨before, found, after, details, hsplit, hviable, hnot, rfl⟩ :=
          (parse_iff_wellShaped hscan "A.tsx").2.2.2 failure hparse
        exact ⟨items, before, found, after, details, hsplit, hviable, hnot, rfl⟩

end Statement
end ComponentCompiler
