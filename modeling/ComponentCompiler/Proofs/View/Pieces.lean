import ComponentCompiler.Proofs.View.Parametric
import ComponentCompiler.Proofs.View.Sibling

/-!
This module contains what the parts of a division of siblings become: a chain is one conditional, a
helper call in no chain is reported, and all other siblings are analysed in their places.
-/

namespace ComponentCompiler
namespace View

open Analysis (lift run_bind_eq_ok run_pure_eq_ok run_lift_eq_ok)

/-- The expression is the condition of a branch, with what it depends on. -/
def IsCondition (ctx : Context) (arm : Snippet × Snippet) (e : Expression) : Prop :=
  arm.1.dependencies ctx.reactive ctx.bound = .ok e.dependencies ∧ e.raw = arm.1.text ∧
    e.role = .condition

/-- What the alternative of a conditional becomes. There is none if it would show nothing. -/
inductive Alternative (slot : SlotAnalysis) (ctx : Context) :
    Option Snippet → List Diagnostic → Option (List Node) → List Diagnostic → Prop where
  | none {reports : List Diagnostic} : Alternative slot ctx none reports none reports
  | empty {s : Snippet} {reports : List Diagnostic} (h : s.isEmptyBranch = .ok true) :
      Alternative slot ctx (some s) reports none reports
  | branch {s : Snippet} {nodes : List Node} {reports reports' : List Diagnostic}
      (h : s.isEmptyBranch = .ok false)
      (hbranch : (branch slot ctx s).run reports = (.ok nodes, reports')) :
      Alternative slot ctx (some s) reports (some nodes) reports'

/-- What is wrong with a helper call that is in no chain. -/
def Sibling.problem? : Sibling → Option (Snippet × Problem)
  | .elseIf source .. => some (source, .orphanConditional "$elseif")
  | .otherwise source .. => some (source, .orphanConditional "$else")
  | .malformed source helper count =>
    some (source, .malformedHelper helper s!"unexpected number of arguments ({count})")
  | .start .. | .whole .. | .blank .. | .other .. => none

/-- What a part of the siblings becomes: a chain is one conditional with its branches in order, and
a helper call that is in no chain leaves a placeholder and is reported. -/
inductive Yields (slot : SlotAnalysis) (ctx : Context) :
    List Sibling → List Diagnostic → List Node → List Diagnostic → Prop where
  | chain {run : List Sibling} {arms : Arms} {condition : Expression} {conditions : List Expression}
      {body : List Node} {bodies : List (List Node)} {alternative : Option (List Node)}
      {reports between reports' : List Diagnostic} (hrun : Run run arms)
      (hconditions : List.Forall₂ (IsCondition ctx) (arms.first :: arms.more)
        (condition :: conditions))
      (hbodies : ((arms.first :: arms.more).mapM fun arm => branch slot ctx arm.2).run reports
        = (.ok (body :: bodies), between))
      (halternative : Alternative slot ctx arms.alternative between alternative reports') :
      Yields slot ctx run reports
        [.conditional arms.span .explicitChain
          (!(condition :: conditions).any (·.isReactive)) condition body
          (conditions.zip bodies) alternative] reports'
  | problem {s : Sibling} {source : Snippet} {problem : Problem} {reports : List Diagnostic}
      (h : s.problem? = some (source, problem)) :
      Yields slot ctx [s] reports [.placeholder source.span source.text problem.message]
        (reports ++ [.of problem source.span])
  | blank {span : Span} {value : String} {reports : List Diagnostic} :
      Yields slot ctx [.blank span value] reports [.text span value] reports
  | other {tree : Markup.Node} {nodes : List Node} {reports reports' : List Diagnostic}
      (h : (node slot ctx tree).run reports = (.ok nodes, reports')) :
      Yields slot ctx [.other tree] reports nodes reports'

/-- What the parts become, one after the other. -/
inductive Pieces (slot : SlotAnalysis) (ctx : Context) :
    List (List Sibling) → List Diagnostic → List Node → List Diagnostic → Prop where
  | nil {reports : List Diagnostic} : Pieces slot ctx [] reports [] reports
  | cons {part : List Sibling} {parts : List (List Sibling)} {nodes more : List Node}
      {reports between reports' : List Diagnostic}
      (hpart : Yields slot ctx part reports nodes between)
      (hparts : Pieces slot ctx parts between more reports') :
      Pieces slot ctx (part :: parts) reports (nodes ++ more) reports'

variable {slot : SlotAnalysis} {ctx : Context} {reports reports' : List Diagnostic} {node : Node}
    {nodes : List Node}

theorem run_expression_eq_ok {arm : Snippet × Snippet} {e : Expression} :
    (expression ctx arm.1 .condition).run reports = (.ok e, reports') ↔ IsCondition ctx arm e ∧
      reports = reports' := by
  unfold expression IsCondition
  rw [run_bind_eq_ok]
  simp only [run_lift_eq_ok, run_pure_eq_ok]
  constructor
  . rintro ⟨dependencies, between, ⟨hdependencies, rfl⟩, rfl, rfl⟩
    exact ⟨⟨hdependencies, rfl, rfl⟩, rfl⟩
  . rintro ⟨⟨hdependencies, hraw, hrole⟩, rfl⟩
    exact ⟨e.dependencies, reports, ⟨hdependencies, rfl⟩, by rw [← hraw, ← hrole], rfl⟩

theorem run_mapM_expression_eq_ok {arms : List (Snippet × Snippet)} {conditions : List Expression} :
    (arms.mapM fun arm => expression ctx arm.1 .condition).run reports = (.ok conditions, reports')
      ↔
    List.Forall₂ (IsCondition ctx) arms conditions ∧ reports = reports' := by
  induction arms generalizing conditions reports reports' with
  | nil =>
    rw [List.mapM_nil, run_pure_eq_ok, List.forall₂_nil_left_iff]
    exact and_congr_left' eq_comm
  | cons arm arms ih =>
    simp only [List.mapM_cons, run_bind_eq_ok, run_pure_eq_ok, run_expression_eq_ok, ih,
      List.forall₂_cons_left_iff]
    constructor
    . rintro ⟨e, between, ⟨he, rfl⟩, es, between, ⟨hes, rfl⟩, rfl, rfl⟩
      exact ⟨⟨e, es, he, hes, rfl⟩, rfl⟩
    . rintro ⟨⟨e, es, he, hes, rfl⟩, rfl⟩
      exact ⟨e, reports, ⟨he, rfl⟩, es, reports, ⟨hes, rfl⟩, rfl, rfl⟩

def alternativeOf (slot : SlotAnalysis) (ctx : Context) :
    Option Snippet → Analysis (Option (List Node))
  | none => return none
  | some s => do
    if ← lift s.isEmptyBranch then return none else return some (← branch slot ctx s)

theorem conditional_eq (slot : SlotAnalysis) (ctx : Context) (span : Span)
    (idiom : Conditional.Idiom)
    (first : Snippet × Snippet) (more : List (Snippet × Snippet)) (otherwise : Option Snippet) :
    conditional slot ctx span idiom first more otherwise
      =
    (do
      let condition ← expression ctx first.1 .condition
      let conditions ← more.mapM fun arm => expression ctx arm.1 .condition
      let body ← branch slot ctx first.2
      let bodies ← more.mapM fun arm => branch slot ctx arm.2
      let alternative ← alternativeOf slot ctx otherwise
      return .conditional span idiom (!(condition :: conditions).any (·.isReactive)) condition body
        (conditions.zip bodies) alternative) := by
  unfold conditional
  cases otherwise with
  | none => rfl
  | some s =>
    unfold alternativeOf
    apply bind_congr
    intro condition
    apply bind_congr
    intro conditions
    apply bind_congr
    intro body
    apply bind_congr
    intro bodies
    rw [bind_assoc]
    apply bind_congr
    intro isEmpty
    cases isEmpty with
    | true => rw [if_pos rfl, if_pos rfl]
    | false => rw [if_neg Bool.false_ne_true, if_neg Bool.false_ne_true, bind_assoc]

theorem run_alternativeOf_eq_ok {otherwise : Option Snippet} {alternative : Option (List Node)} :
    (alternativeOf slot ctx otherwise).run reports = (.ok alternative, reports')
      ↔
    Alternative slot ctx otherwise reports alternative reports' := by
  cases otherwise with
  | none =>
    rw [alternativeOf, run_pure_eq_ok]
    constructor
    . rintro ⟨rfl, rfl⟩
      exact .none
    . intro h
      cases h
      exact ⟨rfl, rfl⟩
  | some s =>
    rw [alternativeOf, run_bind_eq_ok]
    constructor
    . rintro ⟨isEmpty, between, hlift, hrun⟩
      obtain ⟨hempty, rfl⟩ := run_lift_eq_ok.mp hlift
      cases isEmpty with
      | true =>
        rw [if_pos rfl, run_pure_eq_ok] at hrun
        obtain ⟨rfl, rfl⟩ := hrun
        exact .empty hempty
      | false =>
        rw [if_neg Bool.false_ne_true, run_bind_eq_ok] at hrun
        obtain ⟨nodes, between, hbranch, hrun⟩ := hrun
        obtain ⟨rfl, rfl⟩ := run_pure_eq_ok.mp hrun
        exact .branch hempty hbranch
    . intro h
      cases h with
      | empty hempty =>
        refine ⟨true, reports, run_lift_eq_ok.mpr ⟨hempty, rfl⟩, ?_⟩
        rw [if_pos rfl, run_pure_eq_ok]
        exact ⟨rfl, rfl⟩
      | branch hempty hbranch =>
        refine ⟨false, reports, run_lift_eq_ok.mpr ⟨hempty, rfl⟩, ?_⟩
        rw [if_neg Bool.false_ne_true, run_bind_eq_ok]
        exact ⟨_, _, hbranch, run_pure_eq_ok.mpr ⟨rfl, rfl⟩⟩

theorem run_conditional_eq_ok {span : Span} {idiom : Conditional.Idiom} {first : Snippet × Snippet}
    {more : List (Snippet × Snippet)} {otherwise : Option Snippet} :
    (conditional slot ctx span idiom first more otherwise).run reports = (.ok node, reports')
      ↔
    ∃ condition conditions body bodies alternative between,
      List.Forall₂ (IsCondition ctx) (first :: more) (condition :: conditions) ∧
      ((first :: more).mapM fun arm => branch slot ctx arm.2).run reports =
      (.ok (body :: bodies), between) ∧
      Alternative slot ctx otherwise between alternative reports' ∧
      node = .conditional span idiom (!(condition :: conditions).any (·.isReactive)) condition body
        (conditions.zip bodies) alternative := by
  rw [conditional_eq]
  simp only [run_bind_eq_ok, run_expression_eq_ok, run_mapM_expression_eq_ok,
    run_alternativeOf_eq_ok, run_pure_eq_ok, List.mapM_cons, List.forall₂_cons]
  constructor
  . rintro ⟨condition, _, ⟨hcondition, rfl⟩, conditions, _, ⟨hconditions, rfl⟩, body, _, hbody,
      bodies, between, hbodies,
      alternative, _, halternative, rfl, rfl⟩
    exact ⟨condition, conditions, body, bodies, alternative, between, ⟨hcondition, hconditions⟩,
      ⟨body, _, hbody, bodies, between, hbodies, rfl, rfl⟩, halternative, rfl⟩
  . rintro ⟨condition, conditions, body, bodies, alternative, between, ⟨hcondition, hconditions⟩,
      ⟨_, _, hbody, _, _, hbodies, hcons, rfl⟩, halternative, rfl⟩
    obtain ⟨rfl, rfl⟩ := List.cons.inj hcons
    exact ⟨condition, _, ⟨hcondition, rfl⟩, conditions, _, ⟨hconditions, rfl⟩, _, _, hbody, _, _,
      hbodies, alternative, _,
      halternative, rfl, rfl⟩

variable {s : Sibling} {run : List Sibling} {parts parts' : List (List Sibling)} {arms : Arms}

theorem isIf_of_run (h : Run [s] arms) : s.isIf = true := by
  obtain ⟨first, rest, heq, hfirst, _⟩ := h.starts
  cases heq
  exact hfirst

theorem not_run_of_problem? {source : Snippet} {problem : Problem}
    (h : s.problem? = some (source, problem)) : ¬Run [s] arms := by
  intro hrun
  have hif := isIf_of_run hrun
  cases s with
  | start => cases h
  | whole => cases h
  | _ => cases hif

theorem yields_run_iff (h : Run run arms) :
    Yields slot ctx run reports nodes reports'
      ↔
    ∃ node,
      (conditional slot ctx arms.span .explicitChain arms.first arms.more arms.alternative).run
        reports
      = (.ok node, reports') ∧ nodes = [node] := by
  simp only [run_conditional_eq_ok]
  constructor
  . intro hyields
    cases hyields with
    | chain hrun hconditions hbodies halternative =>
      cases h.arms_unique hrun
      exact ⟨_, ⟨_, _, _, _, _, _, hconditions, hbodies, halternative, rfl⟩, rfl⟩
    | problem hproblem => exact absurd h (not_run_of_problem? hproblem)
    | _ => cases isIf_of_run h
  . rintro ⟨_, ⟨_, _, _, _, _, _, hconditions, hbodies, halternative, rfl⟩, rfl⟩
    exact .chain h hconditions hbodies halternative

theorem yields_problem_iff {source : Snippet} {problem : Problem}
    (h : s.problem? = some (source, problem)) :
    Yields slot ctx [s] reports nodes reports'
      ↔
    nodes = [.placeholder source.span source.text problem.message] ∧
      reports' = reports ++ [.of problem source.span] := by
  constructor
  . intro hyields
    cases hyields with
    | chain hrun => exact absurd hrun (not_run_of_problem? h)
    | problem h' =>
      cases h.symm.trans h'
      exact ⟨rfl, rfl⟩
    | _ => cases h
  . rintro ⟨rfl, rfl⟩
    exact .problem h

theorem yields_blank_iff {span : Span} {value : String} :
    Yields slot ctx [.blank span value] reports nodes reports' ↔ [.text span value] = nodes ∧
      reports = reports' := by
  constructor
  . intro h
    cases h with
    | chain hrun => cases isIf_of_run hrun
    | problem h => cases h
    | blank => exact ⟨rfl, rfl⟩
  . rintro ⟨rfl, rfl⟩
    exact .blank

theorem yields_other_iff {tree : Markup.Node} :
    Yields slot ctx [.other tree] reports nodes reports'
      ↔
    (View.node slot ctx tree).run reports = (.ok nodes, reports') := by
  constructor
  . intro h
    cases h with
    | chain hrun => cases isIf_of_run hrun
    | problem h => cases h
    | other h => exact h
  . exact .other

theorem pieces_nil_iff :
    Pieces slot ctx [] reports nodes reports' ↔ nodes = [] ∧ reports = reports' := by
  constructor
  . intro h
    cases h
    exact ⟨rfl, rfl⟩
  . rintro ⟨rfl, rfl⟩
    exact .nil

theorem pieces_cons_iff :
    Pieces slot ctx (run :: parts) reports nodes reports'
      ↔
    ∃ first between more, Yields slot ctx run reports first between ∧
      Pieces slot ctx parts between more reports' ∧
      nodes = first ++ more := by
  constructor
  . intro h
    cases h with
    | cons hpart hparts => exact ⟨_, _, _, hpart, hparts, rfl⟩
  . rintro ⟨_, _, _, hpart, hparts, rfl⟩
    exact .cons hpart hparts

theorem pieces_append_iff :
    Pieces slot ctx (parts ++ parts') reports nodes reports'
      ↔
    ∃ first between more, Pieces slot ctx parts reports first between ∧
      Pieces slot ctx parts' between more reports' ∧
      nodes = first ++ more := by
  induction parts generalizing reports nodes with
  | nil => simp [pieces_nil_iff]
  | cons part parts ih =>
    simp only [List.cons_append, pieces_cons_iff, ih]
    constructor
    . rintro ⟨first, _, _, hpart, ⟨_, between, more, hparts, hmore, rfl⟩, rfl⟩
      exact ⟨_, between, more, ⟨first, _, _, hpart, hparts, rfl⟩, hmore, by rw [List.append_assoc]⟩
    . rintro ⟨_, between, more, ⟨first, _, _, hpart, hparts, rfl⟩, hmore, rfl⟩
      exact ⟨first, _, _, hpart, ⟨_, between, more, hparts, hmore, rfl⟩, by rw [List.append_assoc]⟩

theorem pieces_blanks_iff {texts : List (Span × String)} :
    Pieces slot ctx (texts.map fun text => [.blank text.1 text.2]) reports nodes reports'
      ↔
    nodes = texts.map (fun text => .text text.1 text.2) ∧ reports = reports' := by
  induction texts generalizing reports nodes with
  | nil => exact pieces_nil_iff
  | cons text texts ih =>
    rw [List.map_cons, pieces_cons_iff]
    simp only [yields_blank_iff, ih]
    constructor
    . rintro ⟨_, _, _, ⟨rfl, rfl⟩, ⟨rfl, rfl⟩, rfl⟩
      exact ⟨rfl, rfl⟩
    . rintro ⟨rfl, rfl⟩
      exact ⟨_, _, _, ⟨rfl, rfl⟩, ⟨rfl, rfl⟩, rfl⟩

end View
end ComponentCompiler
