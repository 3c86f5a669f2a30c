import ComponentCompiler.Proofs.View.Reactivity

/-!
This module contains what stands in analysed markup at any depth, and that the elements there which
are components have properties but no events.
-/

namespace ComponentCompiler
namespace View
namespace Node

/-- The nodes that a node is made from. -/
def parts : Node → List Node
  | .element _ _ children => children
  | .conditional _ _ _ _ body elseIfs otherwise =>
    body ++ elseIfs.flatMap (·.2) ++ otherwise.getD []
  | .loop _ _ body => body
  | .text _ _ | .expression _ _ | .placeholder _ _ _ => []

/-- The node is one of these nodes, or stands in one of them at any depth. -/
inductive Among (nodes : List Node) : Node → Prop where
  | here {node : Node} (h : node ∈ nodes) : Among nodes node
  | part {node parent : Node} (h : Among nodes parent) (hmem : node ∈ parent.parts) :
    Among nodes node

variable {nodes : List Node} {node : Node}

theorem Among.exists_top (h : Among nodes node) :
    ∃ top ∈ nodes, node = top ∨ Among top.parts node := by
  induction h with
  | here h => exact ⟨_, h, .inl rfl⟩
  | part _ hmem ih =>
    obtain ⟨top, htop, rfl | hparent⟩ := ih
    . exact ⟨_, htop, .inr (.here hmem)⟩
    . exact ⟨top, htop, .inr (.part hparent hmem)⟩

def IsEventless (node : Node) : Prop :=
  ∀ span tag children, node = .element span tag children ∨
    Among node.parts (.element span tag children) →
    tag.isComponent = true → tag.events = []

theorem isEventless_of_parts
    (hself : ∀ span tag children, node = .element span tag children → tag.isComponent = true →
    tag.events = [])
    (hparts : ∀ part ∈ node.parts, part.IsEventless) : node.IsEventless := by
  rintro span tag children (heq | hamong)
  . exact hself span tag children heq
  . obtain ⟨part, hmem, hpart⟩ := hamong.exists_top
    exact hparts part hmem span tag children (hpart.imp_left Eq.symm)

end Node

theorem Invariant.Conditional.parts {I : Invariant} {isStatic : Bool} {body : List Node}
    {elseIfs : List (Expression × List Node)} {otherwise : Option (List Node)}
    (h : I.Conditional ctx isStatic condition body elseIfs otherwise) :
    ∀ part ∈ (Node.conditional span idiom isStatic condition body elseIfs otherwise).parts,
      I.node ctx part := by
  intro part hpart
  simp only [Node.parts, List.mem_append, List.mem_flatMap] at hpart
  rcases hpart with (hbody | ⟨branch, hbranch, hpart⟩) | hotherwise
  . exact h.body part hbody
  . exact h.elseIfs branch hbranch part hpart
  . cases otherwise with
    | none => simp at hotherwise
    | some alternative => exact h.otherwise alternative rfl part hotherwise

def eventless : Invariant where
  snippet _ := True
  place _ := True
  follows _ _ := True
  expression _ _ _ := True
  node _ node := node.IsEventless

theorem tree_eventless (tree : Markup.Node) : eventless.relation.Tree tree tree :=
  tree_of_sites (fun _ => trivial) (fun _ _ => trivial) tree fun _ _ _ => trivial

theorem lawful_eventless : eventless.Lawful where
  place _ := trivial
  sub _ _ _ _ _ := trivial
  reading _ := trivial
  markup _ _ := tree_eventless _
  follows_self _ := trivial
  chainSpan _ _ _ := trivial
  textNode _ := by
    apply Node.isEventless_of_parts
    . simp
    . simp [Node.parts]
  expressionNode _ _ _ := by
    apply Node.isEventless_of_parts
    . simp
    . simp [Node.parts]
  placeholderNode _ := by
    apply Node.isEventless_of_parts
    . simp
    . simp [Node.parts]
  elementNode _ htag hnodes := by
    apply Node.isEventless_of_parts
    . rintro _ _ _ ⟨⟩
      exact htag.events
    . exact hnodes
  conditionalNode _ h := by
    apply Node.isEventless_of_parts
    . simp
    . exact h.parts
  loopNode _ _ hnodes := by
    apply Node.isEventless_of_parts
    . simp
    . exact hnodes

theorem events_of_analyse {component : ComponentCompiler.Component} {view : Component}
    (h : analyse component reactive = .ok view)
    (hamong : Node.Among view.root (.element span tag body)) (hcomponent : tag.isComponent = true) :
    tag.events = [] := by
  obtain ⟨top, htop, hnode⟩ := hamong.exists_top
  -- the invariant is about the nodes at the top and says it of everything in them
  have hroot := (lawful_eventless.analyse (tree_eventless component.markup) h).1 top htop
  exact hroot span tag body (hnode.imp_left Eq.symm) hcomponent

end View
end ComponentCompiler
