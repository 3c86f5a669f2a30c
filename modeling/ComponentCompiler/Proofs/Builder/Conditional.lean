import ComponentCompiler.Builder.Lowering
import ComponentCompiler.Proofs.Builder.Content
import ComponentCompiler.Proofs.Builder.Execution

/-!
This module contains what becomes of a conditional. Its lines nest native and reactive conditionals
in one another, with each branch in one place, and execute the first branch whose condition holds.
-/

namespace ComponentCompiler
namespace Builder

open View (Node Expression)

/-- The test that a condition is written as. -/
def test (condition : Expression) : Test :=
  if condition.isReactive then .reactive (guard condition).text else .native condition.raw

/-- The first branch whose condition holds, or else the last one if there is one. -/
def taken (holds : Test → Bool) (branches : List (Expression × List α))
    (otherwise : Option (List α)) : List α :=
  match branches.find? fun branch => holds (test branch.1) with
  | some branch => branch.2
  | none => otherwise.getD []

/-- The lines of a chain of branches, from the start of a conditional on or after the block of a
test. Each branch has its place once, in order: a condition without dependencies in a native `if`,
one with dependencies in a `When` with just these dependencies. -/
inductive Ladder :
    Option Test → List (Expression × List String) → Option (List String) → List String → Prop where
  | native {condition : Expression} {body tail : List String}
      {rest : List (Expression × List String)}
      {otherwise : Option (List String)} (hcondition : condition.dependencies = [])
      (htail : Ladder (some (.native condition.raw)) rest otherwise tail) :
    Ladder none ((condition, body) :: rest) otherwise
      (s!"if ({condition.raw}) \x7b" :: (Writer.indentAll 1 body ++ tail))
  | reactive {condition : Expression} {body tail : List String}
      {rest : List (Expression × List String)}
      {otherwise : Option (List String)} (hcondition : condition.dependencies ≠ [])
      (htail : Ladder (some (test condition)) rest otherwise tail) :
    Ladder none ((condition, body) :: rest) otherwise
      (s!"ui.When(watch([{commas condition.dependencies}], () => {condition.raw}) as Ref<boolean>, (ui: LayoutBuilder) => \x7b" ::
        (Writer.indentAll 1 body ++ tail))
  | elseIf {before : String} {condition : Expression} {body tail : List String}
      {rest : List (Expression × List String)}
      {otherwise : Option (List String)} (hcondition : condition.dependencies = [])
      (htail : Ladder (some (.native condition.raw)) rest otherwise tail) :
    Ladder (some (.native before)) ((condition, body) :: rest) otherwise
      (s!"\x7d else if ({condition.raw}) \x7b" :: (Writer.indentAll 1 body ++ tail))
  | nested {before : Test} {lines : List String} {branches : List (Expression × List String)}
      {otherwise : Option (List String)} (h : Ladder none branches otherwise lines) :
    Ladder (some before) branches otherwise
      (before.elseLine :: (Writer.indentAll 1 lines ++ [before.lastLine]))
  | last {before : Test} {body : List String} :
    Ladder (some before) [] (some body)
      (before.elseLine :: (Writer.indentAll 1 body ++ [before.lastLine]))
  | stop {before : Test} : Ladder (some before) [] none [before.lastLine]

variable {condition : Expression} {holds : Test → Bool}

theorem test_of_static (h : condition.dependencies = []) :
    test condition = .native condition.raw := by
  rw [test, Expression.isReactive, h]
  rfl

theorem test_of_reactive (h : condition.dependencies ≠ []) :
    test condition = .reactive (guard condition).text := by
  rw [test, Expression.isReactive, if_pos]
  simpa using h

theorem taken_cons (branch : Expression × List α) (branches : List (Expression × List α))
    (otherwise : Option (List α)) :
    taken holds (branch :: branches) otherwise
      =
    if holds (test branch.1) then branch.2 else taken holds branches otherwise := by
  unfold taken
  rw [List.find?_cons]
  cases holds (test branch.1) with
  | true => rfl
  | false => rfl

theorem taken_map (f : List α → List β) (hf : f [] = []) (branches : List (Expression × List α))
    (otherwise : Option (List α)) :
    taken holds (branches.map fun branch => (branch.1, f branch.2)) (otherwise.map f) =
      f (taken holds branches otherwise) := by
  induction branches with
  | nil =>
    cases otherwise with
    | none => exact hf.symm
    | some last => rfl
  | cons branch branches ih =>
    rw [List.map_cons, taken_cons, taken_cons, ih]
    split
    . rfl
    . rfl

theorem whenLine (condition : Expression) :
    s!"ui.When(watch([{commas condition.dependencies}], () => {condition.raw}) as Ref<boolean>, (ui: LayoutBuilder) => \x7b"
      =
    "ui.When(" ++ (guard condition).text ++ ", (ui: LayoutBuilder) => \x7b" := by
  change "ui.When(watch([" ++ commas condition.dependencies ++ "], () => " ++ condition.raw ++
      ") as Ref<boolean>, (ui: LayoutBuilder) => \x7b"
    = "ui.When(" ++ ("watch([" ++ commas condition.dependencies ++ "], () => " ++ condition.raw ++
      ") as Ref<" ++ "boolean" ++ ">") ++
      ", (ui: LayoutBuilder) => \x7b"
  rw [← String.toList_inj]
  simp

theorem callbackLine (value : String) :
    s!"ui.When({value}, {Code.callback} \x7b" =
      "ui.When(" ++ value ++ ", (ui: LayoutBuilder) => \x7b" := by
  change "ui.When(" ++ value ++ ", " ++ Code.callback ++ " \x7b" = _
  rw [String.append_assoc, String.append_assoc]
  rfl

/-- What the lines of a chain do. After the block of a test they resolve to a block that does so if
the test does not hold. -/
def Runs (holds : Test → Bool) (before : Option Test) (branches : List (Expression × List String))
    (otherwise : Option (List String)) (lines : List String) : Prop :=
  match before with
  | none => ∀ more, execute holds (lines ++ more) =
    execute holds (taken holds branches otherwise) ++ execute holds more
  | some test => ∃ chosen, execute holds chosen = execute holds (taken holds branches otherwise) ∧
    ∀ body more, resolve holds test (Writer.indentAll 1 body ++ (lines ++ more)) =
      some (if holds test then body else chosen, more)

theorem Runs.start {header : String} {body tail : List String}
    {rest : List (Expression × List String)} {otherwise : Option (List String)}
    (h : Runs holds (some (test condition)) rest otherwise tail)
    (hheader : Test.ofHeader? header = some (test condition)) :
    Runs holds none ((condition, body) :: rest) otherwise
      (header :: (Writer.indentAll 1 body ++ tail)) := by
  obtain ⟨chosen, hchosen, hresolve⟩ := h
  intro more
  rw [List.cons_append, List.append_assoc, execute_of_resolve hheader (hresolve body more),
    taken_cons]
  split
  . rfl
  . rw [hchosen]

theorem Ladder.runs (h : Ladder before branches otherwise lines) :
    Runs holds before branches otherwise lines := by
  induction h with
  | native hcondition _ ih =>
    rw [← test_of_static hcondition] at ih
    refine ih.start ?_
    rw [test_of_static hcondition]
    exact ofHeader?_native _
  | reactive hcondition _ ih =>
    refine ih.start ?_
    rw [test_of_reactive hcondition, whenLine]
    exact ofHeader?_reactive _
  | @elseIf before condition body tail rest otherwise hcondition _ ih =>
    obtain ⟨chosen, hchosen, hresolve⟩ := ih
    refine ⟨if holds (test condition) then body else chosen, ?_, ?_⟩
    . rw [taken_cons]
      split
      . rfl
      . exact hchosen
    . intro first more
      rw [test_of_static hcondition, List.cons_append, List.append_assoc]
      exact resolve_elseIf (hresolve body more)
  | @nested before lines _ _ _ ih =>
    -- the conditional in the else block is chosen as a whole and then executed
    refine ⟨lines, ?_, ?_⟩
    . have hlines := ih []
      rwa [List.append_nil, execute_nil, List.append_nil] at hlines
    . intro body more
      simpa using resolve_else
  | @last before other =>
    refine ⟨other, rfl, ?_⟩
    intro body more
    simpa using resolve_else
  | stop =>
    refine ⟨[], rfl, ?_⟩
    intro body more
    simpa using resolve_last

def branchLines (branch : Expression × List Code) : Expression × List String :=
  (branch.1, Code.linesAll branch.2)

theorem ladder_otherwise (before : Test) (otherwise : Option (List Code)) :
    Ladder (some before) [] (otherwise.map Code.linesAll)
      (Code.otherwiseLines before.elseLine otherwise ++ [before.lastLine]) := by
  cases otherwise with
  | none =>
    rw [Code.otherwiseLines]
    exact .stop
  | some body =>
    rw [Code.otherwiseLines]
    exact .last

theorem ladder_nested {code : Code} (before : Test)
    (h : Ladder none branches otherwise code.lines) :
    Ladder (some before) branches otherwise
      (Code.otherwiseLines before.elseLine (some [code]) ++ [before.lastLine]) := by
  rw [Code.otherwiseLines, Code.linesAll, Code.linesAll, List.append_nil]
  exact .nested h

theorem ladder_elseIfs {rest : List (Expression × List Code)}
    (h : rest.any (·.1.isReactive) = false) (before : String) (otherwise : Option (List Code)) :
    Ladder (some (.native before)) (rest.map branchLines) (otherwise.map Code.linesAll)
      (Code.elseIfLines (rest.map fun branch => (branch.1.raw, branch.2)) ++
        (Code.otherwiseLines "\x7d else \x7b" otherwise ++ ["\x7d"])) := by
  induction rest generalizing before with
  | nil =>
    simp only [List.map_nil]
    rw [Code.elseIfLines]
    exact ladder_otherwise (.native before) otherwise
  | cons branch rest ih =>
    rw [List.any_cons, Bool.or_eq_false_iff] at h
    simp only [List.map_cons]
    rw [Code.elseIfLines, List.cons_append, List.append_assoc]
    exact .elseIf (by simpa [Expression.isReactive] using h.1) (ih h.2 branch.1.raw)

theorem ladder_native {tail : List String} (h : condition.isReactive = false) (body : List Code)
    (htail : Ladder (some (.native condition.raw)) branches otherwise tail) :
    Ladder none (branchLines (condition, body) :: branches) otherwise
      (s!"if ({condition.raw}) \x7b" :: (Writer.indentAll 1 (Code.linesAll body) ++ tail)) :=
  .native (by simpa [Expression.isReactive] using h) htail

theorem ladder_reactive {other : Option (List Code)} (h : condition.isReactive = true)
    (body : List Code) (htail : ∀ before : Test,
      Ladder (some before) branches otherwise
        (Code.otherwiseLines before.elseLine other ++ [before.lastLine])) :
    Ladder none (branchLines (condition, body) :: branches) otherwise
      (Code.reactive (guard condition) body other).lines := by
  have hdependencies : condition.dependencies ≠ [] := by simpa [Expression.isReactive] using h
  have htail := htail (test condition)
  rw [test_of_reactive hdependencies] at htail
  rw [Code.lines, List.append_assoc, callbackLine, ← whenLine]
  refine .reactive hdependencies ?_
  rw [test_of_reactive hdependencies]
  exact htail

theorem ladder_branch (condition : Expression) (body : List Code)
    (rest : List (Expression × List Code)) (otherwise : Option (List Code)) :
    Ladder none (((condition, body) :: rest).map branchLines) (otherwise.map Code.linesAll)
      (branch condition body rest otherwise).lines := by
  induction rest generalizing condition body with
  | nil =>
    unfold branch
    split
    . next hreactive =>
      exact ladder_reactive hreactive body fun before => ladder_otherwise before otherwise
    . next hstatic =>
      rw [Code.lines, Code.elseIfLines, List.append_nil, List.append_assoc]
      exact ladder_native (by simpa using hstatic) body (ladder_otherwise _ otherwise)
  | cons next others ih =>
    unfold branch
    split
    . next hreactive =>
      exact ladder_reactive hreactive body fun before => ladder_nested before (ih next.1 next.2)
    . next hstatic =>
      have hcondition : condition.isReactive = false := by simpa using hstatic
      split
      -- a reactive condition further down takes the rest of the chain into a conditional of its own
      . rw [Code.lines, Code.elseIfLines, List.append_nil, List.append_assoc]
        exact ladder_native hcondition body (ladder_nested _ (ih next.1 next.2))
      . next hrest =>
        rw [Code.lines, List.append_assoc, List.append_assoc]
        exact ladder_native hcondition body (ladder_elseIfs (by simpa using hrest) _ otherwise)

variable (span : Option Span) (idiom : View.Conditional.Idiom) (isStatic : Bool)

theorem ladder_lower (condition : Expression) (body : List Node)
    (elseIfs : List (Expression × List Node)) (otherwise : Option (List Node)) :
    Ladder none
      (((condition, body) :: elseIfs).map fun branch =>
        (branch.1, Code.linesAll (lowerAll branch.2)))
      (otherwise.map fun nodes => Code.linesAll (lowerAll nodes))
      (lower (.conditional span idiom isStatic condition body elseIfs otherwise)).lines := by
  have hladder := ladder_branch condition (lowerAll body) (lowerBranches elseIfs)
    (lowerOtherwise otherwise)
  rw [lowerBranches_eq_map, lowerOtherwise_eq_map, List.map_cons, List.map_map,
    Option.map_map] at hladder
  rw [lower, lowerBranches_eq_map, lowerOtherwise_eq_map]
  exact hladder

/-- The lines of a conditional hold each branch once, in native and reactive conditionals that nest,
and they execute the first branch whose condition holds, or else the last one. -/
theorem lower_conditional (span : Option Span) (idiom : View.Conditional.Idiom) (isStatic : Bool)
    (condition : Expression)
    (body : List Node) (elseIfs : List (Expression × List Node)) (otherwise : Option (List Node)) :
    Ladder none
      (((condition, body) :: elseIfs).map fun branch =>
        (branch.1, Code.linesAll (lowerAll branch.2)))
      (otherwise.map fun nodes => Code.linesAll (lowerAll nodes))
      (lower (.conditional span idiom isStatic condition body elseIfs otherwise)).lines ∧
    ∀ (holds : Test → Bool) (more : List String),
      execute holds
        ((lower (.conditional span idiom isStatic condition body elseIfs otherwise)).lines ++ more)
        =
      execute holds
        (Code.linesAll (lowerAll (taken holds ((condition, body) :: elseIfs) otherwise))) ++
          execute holds more := by
  have hladder := ladder_lower span idiom isStatic condition body elseIfs otherwise
  refine ⟨hladder, ?_⟩
  intro holds more
  have hnil : Code.linesAll (lowerAll []) = [] := by rw [lowerAll, Code.linesAll]
  rw [hladder.runs more, taken_map (fun nodes => Code.linesAll (lowerAll nodes)) hnil]

end Builder
end ComponentCompiler
