import ComponentCompiler.Proofs.Markup.Severity
import ComponentCompiler.Proofs.Markup.Shape
import ComponentCompiler.Proofs.Snippet.Location
import ComponentCompiler.Proofs.View.Parametric

/-!
This module contains what holds of everything that one analysis comes across: it is kept if it holds
of whatever is cut out of a snippet, of the parts of markup in it, and of each node that is made
from such parts. An analysis that fails does so with an error and not with a warning.
-/

namespace ComponentCompiler
namespace View

structure Invariant where
  snippet : Snippet → Prop
  place : Span → Prop
  /-- The second snippet can go on with what the first one starts. -/
  follows : Snippet → Snippet → Prop
  /-- Expressions with the reactive containers that they are found to read. -/
  expression : Context → String → List String → Prop
  node : Context → Node → Prop
  failure : Failure → Prop := Failure.IsSevere
  report : Diagnostic → Prop :=
    fun report => ∃ problem span, place span ∧ report = .of problem (some span) none

namespace Invariant

variable {I : Invariant} {s s' : Snippet} {ctx : Context}

def relation (I : Invariant) : Relation where
  snippet s s' := s = s' ∧ I.snippet s
  place span span' := span = span' ∧ I.place span
  failure f f' := f = f' ∧ I.failure f
  report r r' := r = r' ∧ I.report r
  follows := I.follows
  code _ := True
  expression := I.expression
  node ctx node node' := node = node' ∧ I.node ctx node

theorem nodes_iff {nodes nodes' : List Node} :
    I.relation.Nodes ctx nodes nodes' ↔ nodes = nodes' ∧ ∀ node ∈ nodes, I.node ctx node := by
  constructor
  . intro h
    induction h with
    | nil => exact ⟨rfl, by simp⟩
    | cons hnode _ ih =>
      obtain ⟨rfl, hnode⟩ := hnode
      obtain ⟨rfl, hnodes⟩ := ih
      exact ⟨rfl, List.forall_mem_cons.mpr ⟨hnode, hnodes⟩⟩
  . rintro ⟨rfl, h⟩
    exact List.forall₂_same.mpr fun node hnode => ⟨rfl, h node hnode⟩

theorem eq_of_branches {branches branches' : List (Expression × List Node)}
    (h : List.Forall₂ (fun b b' => I.relation.Reading ctx b.1 b'.1 ∧
      I.relation.Nodes ctx b.2 b'.2) branches branches') :
    branches = branches' ∧
      ∀ branch ∈ branches, I.expression ctx branch.1.raw branch.1.dependencies ∧
      ∀ node ∈ branch.2, I.node ctx node := by
  induction h with
  | nil => exact ⟨rfl, by simp⟩
  | @cons branch branch' _ _ hbranch _ ih =>
    obtain ⟨condition, body⟩ := branch
    obtain ⟨condition', body'⟩ := branch'
    obtain ⟨⟨rfl, hcondition⟩, hbody⟩ := hbranch
    obtain ⟨rfl, hnodes⟩ := nodes_iff.mp hbody
    obtain ⟨rfl, hrest⟩ := ih
    exact ⟨rfl, List.forall_mem_cons.mpr ⟨⟨hcondition, hnodes⟩, hrest⟩⟩

theorem eq_of_otherwise {otherwise otherwise' : Option (List Node)}
    (h : Option.Rel (I.relation.Nodes ctx) otherwise otherwise') :
    otherwise = otherwise' ∧ ∀ nodes, otherwise = some nodes → ∀ node ∈ nodes, I.node ctx node := by
  cases h with
  | none => exact ⟨rfl, nofun⟩
  | some h =>
    obtain ⟨rfl, hnodes⟩ := nodes_iff.mp h
    refine ⟨rfl, ?_⟩
    rintro _ ⟨⟩
    exact hnodes

structure Conditional (I : Invariant) (ctx : Context) (isStatic : Bool) (condition : Expression)
    (body : List Node)
    (elseIfs : List (Expression × List Node)) (otherwise : Option (List Node)) : Prop where
  conditions : ∀ e ∈ condition :: elseIfs.map (·.1), I.expression ctx e.raw e.dependencies
  isStatic : isStatic = !(condition :: elseIfs.map (·.1)).any (·.isReactive)
  body : ∀ node ∈ body, I.node ctx node
  elseIfs : ∀ branch ∈ elseIfs, ∀ node ∈ branch.2, I.node ctx node
  otherwise : ∀ nodes, otherwise = some nodes → ∀ node ∈ nodes, I.node ctx node

structure Lawful (I : Invariant) : Prop where
  failure : ∀ {f}, f.IsSevere → I.failure f := by exact id
  report : ∀ {problem span}, I.place span →
    I.report (.of problem (some span) none) := by exact fun h => ⟨_, _, h, rfl⟩
  place : ∀ {s}, I.snippet s → I.place s.span
  sub : Snippet.SubClosed I.snippet
  reading : ∀ {ctx deps} {s : Snippet}, s.dependencies ctx.reactive ctx.bound = .ok deps →
    I.expression ctx s.text deps
  markup : ∀ {s tree}, I.snippet s → Markup.Node.parse s.text s.file s.origin = .ok tree →
    I.relation.Tree tree tree
  follows_self : ∀ {s}, I.snippet s → I.follows s s
  chainSpan : ∀ {first last : Snippet.Call}, I.snippet first.snippet → I.snippet last.snippet →
    I.follows first.snippet last.snippet → I.place (View.chainSpan first last)
  textNode : ∀ {ctx span value}, I.place span → I.node ctx (.text span value)
  expressionNode : ∀ {ctx s e}, I.snippet s → e.raw = s.text →
    I.expression ctx e.raw e.dependencies →
    I.node ctx (.expression s.span e)
  placeholderNode : ∀ {ctx s reason}, I.snippet s → I.node ctx (.placeholder s.span s.text reason)
  elementNode : ∀ {ctx span tag nodes}, I.place span → I.relation.Attributed ctx tag →
    (∀ node ∈ nodes, I.node ctx node) → I.node ctx (.element span tag nodes)
  conditionalNode : ∀ {ctx span idiom isStatic condition body elseIfs otherwise}, I.place span →
    I.Conditional ctx isStatic condition body elseIfs otherwise →
    I.node ctx (.conditional span idiom isStatic condition body elseIfs otherwise)
  loopNode : ∀ {ctx s head callback nodes}, I.snippet s →
    I.relation.LoopHead ctx s head callback nodes →
    (∀ node ∈ nodes, I.node { ctx with bound := ctx.bound ++ callback.names } node) →
    I.node ctx (.loop s.span head nodes)

theorem Lawful.cuts (hI : I.Lawful) : I.relation.Cuts where
  text := fun h => congrArg Snippet.text h.1
  code := fun _ => trivial
  place := by
    rintro s _ ⟨rfl, h⟩
    exact ⟨rfl, hI.place h⟩
  strip := by
    rintro s _ ⟨rfl, h⟩
    exact ⟨rfl, hI.sub.strip h⟩
  unwrap := by
    rintro s _ opener inner closer ⟨rfl, h⟩ hitems
    exact ⟨rfl, hI.sub.unwrap h hitems⟩
  covering := by
    rintro s _ items part ⟨rfl, h⟩ hitems hpart
    exact ⟨rfl, hI.sub.covering h hitems hpart⟩
  scan := fun _ _ => ⟨rfl, hI.failure (Failure.isSevere_scan _)⟩
  free := fun _ _ => ⟨rfl, hI.failure (Failure.isSevere_scan _)⟩

theorem Lawful.conditional {idiom : View.Conditional.Idiom} {node node' : Node} (hI : I.Lawful)
    (h : I.relation.Conditional ctx idiom idiom node node') : I.relation.node ctx node node' := by
  cases h with
  | intro hplace hcondition hbody helseIfs hotherwise hstatic =>
    obtain ⟨rfl, hplace⟩ := hplace
    obtain ⟨rfl, hnodes⟩ := nodes_iff.mp hbody
    obtain ⟨rfl, hbranches⟩ := eq_of_branches helseIfs
    obtain ⟨rfl, halternative⟩ := eq_of_otherwise hotherwise
    refine ⟨rfl, hI.conditionalNode hplace
      ⟨?_, hstatic, hnodes, fun branch hbranch => (hbranches branch hbranch).2, halternative⟩⟩
    rw [List.forall_mem_cons, List.forall_mem_map]
    exact ⟨hcondition, fun branch hbranch => (hbranches branch hbranch).1⟩

theorem Lawful.relation (hI : I.Lawful) : I.relation.Lawful where
  toCuts := hI.cuts
  unreadable := by
    rintro f _ ⟨rfl, _⟩
    by_cases h : ∃ problem pos, f = .scan (.problem problem pos)
    . obtain ⟨problem, pos, h⟩ := h
      exact .inl ⟨problem, pos, problem, pos, h, h⟩
    . simp only [not_exists] at h
      exact .inr ⟨h, h⟩
  report := by
    rintro problem span _ ⟨rfl, h⟩
    exact ⟨rfl, hI.report h⟩
  reading := fun _ => hI.reading
  markup := by
    rintro s _ token ⟨rfl, h⟩ hscan hkind
    refine .self (fun tree htree => ?_) fun failure hfailure => ?_
    . exact ⟨hI.markup h htree, Markup.longestSlot_lt_of_parse htree⟩
    . exact ⟨rfl, hI.failure (Markup.Node.failsOnly_parse _ _ hscan hkind failure hfailure)⟩
  follows_self := fun h => hI.follows_self h.2
  chainSpan := by
    intro first first' last last' hfirst hlast hfollows
    refine ⟨?_, hI.chainSpan hfirst.2 hlast.2 hfollows⟩
    rw [View.chainSpan, View.chainSpan, hfirst.1, hlast.1]
  key := fun h => by rw [(nodes_iff.mp h).1]
  textNode := by
    rintro ctx span _ value ⟨rfl, h⟩
    exact ⟨rfl, hI.textNode h⟩
  expressionNode := by
    rintro ctx s _ e ⟨rfl, h⟩ hraw he
    exact ⟨rfl, hI.expressionNode h hraw he⟩
  placeholderNode := by
    rintro ctx s _ reason ⟨rfl, h⟩
    exact ⟨rfl, hI.placeholderNode h⟩
  elementNode := by
    rintro ctx span _ tag nodes nodes' ⟨rfl, h⟩ htag hnodes
    obtain ⟨rfl, hall⟩ := nodes_iff.mp hnodes
    exact ⟨rfl, hI.elementNode h htag hall⟩
  conditionalNode := hI.conditional
  loopNode := by
    rintro ctx s _ head callback nodes nodes' ⟨rfl, h⟩ hhead hnodes
    obtain ⟨rfl, hall⟩ := nodes_iff.mp hnodes
    exact ⟨rfl, hI.loopNode h hhead hall⟩

theorem Lawful.analyse (hI : I.Lawful) (htree : I.relation.Tree component.markup component.markup)
    (h : View.analyse component reactive = .ok view) :
    (∀ node ∈ view.root, I.node { reactive } node) ∧ ∀ report ∈ view.diagnostics,
      I.report report := by
  obtain ⟨hroot, hreports⟩ :=
    hI.relation.markupTree htree (Nat.lt_succ_self _) (Nat.lt_succ_self _) [] [] .nil
  unfold View.analyse at h
  dsimp only at h
  split at h
  . next root reports hrun =>
    cases h
    rw [hrun] at hroot hreports
    cases hroot with
    | ok hroot =>
      refine ⟨(nodes_iff.mp hroot).2, ?_⟩
      intro report hreport
      exact (List.forall₂_same.mp hreports report hreport).2
  . cases h

theorem Lawful.failure_of_analyse {failure : Failure} (hI : I.Lawful)
    (htree : I.relation.Tree component.markup component.markup)
    (h : View.analyse component reactive = .error failure) : I.failure failure := by
  obtain ⟨hroot, _⟩ :=
    hI.relation.markupTree htree (Nat.lt_succ_self _) (Nat.lt_succ_self _) [] [] .nil
  unfold View.analyse at h
  dsimp only at h
  split at h
  . cases h
  . next e reports hrun =>
    cases h
    rw [hrun] at hroot
    cases hroot with
    | error hfailure => exact hfailure.2

end Invariant
end View
end ComponentCompiler
