import ComponentCompiler.Proofs.View.Depth

/-!
This module contains where the loops of analysed markup come from: each one, at any depth, is a
snippet of the component that repeats a function and may come with another one for its keys.
-/

namespace ComponentCompiler
namespace View

namespace Node

variable {nodes : List Node} {node : Node} {P : Node → Prop}

def Holds (P : Node → Prop) (node : Node) : Prop :=
  ∀ part, part = node ∨ Among node.parts part → P part

theorem holds_of_parts (hself : P node) (hparts : ∀ part ∈ node.parts, part.Holds P) :
    node.Holds P := by
  rintro part (rfl | hpart)
  . exact hself
  . obtain ⟨top, htop, hpart⟩ := hpart.exists_top
    exact hparts top htop part hpart

theorem Among.holds (h : Among nodes node) (hnodes : ∀ top ∈ nodes, top.Holds P) : P node := by
  obtain ⟨top, htop, hnode⟩ := h.exists_top
  exact hnodes top htop node hnode

def head? : Node → Option Loop
  | .loop _ head _ => some head
  | _ => none

theorem exists_loop_of_head? (h : node.head? = some head) :
    ∃ span body, node = .loop span head body := by
  cases node with
  | loop span other body =>
    cases h
    exact ⟨span, body, rfl⟩
  | text | expression | element | conditional | placeholder => cases h

end Node

/-- The head and the body of a loop that a snippet is, with the functions that it is made from. -/
structure LoopFrom (tree : Markup.Node) (s : Snippet) (head : Loop) (body : List Node)
    (callback : Snippet.Arrow)
    (keyed : Option Snippet.Arrow) : Prop extends LoopOf tree s head callback where
  given : ∀ arrow, keyed = some arrow → head.idiom = .eachHelper ∧ GivesKey s arrow
  key : head.key = keyed.elim (keyOf body) (fun arrow => some arrow.body.text)
  keyParameter : head.keyParameter = keyed.bind (·.parameters.head?)

theorem LoopFrom.keyed_eq_none (h : LoopFrom tree s head body callback keyed)
    (hidiom : head.idiom ≠ .eachHelper) : keyed = none := by
  cases keyed with
  | none => rfl
  | some arrow => exact absurd (h.given arrow rfl).1 hidiom

def HasSource (tree : Markup.Node) (node : Node) : Prop :=
  ∀ span head body, node = .loop span head body →
    ∃ s callback keyed, LoopFrom tree s head body callback keyed

def sources (tree : Markup.Node) : Invariant where
  snippet := CutFrom tree
  place _ := True
  follows _ _ := True
  expression _ _ _ := True
  node _ node := node.Holds (HasSource tree)

theorem tree_sources (tree : Markup.Node) (inside : Markup.Node)
    (h : ∀ site ∈ inside.sites, site.role = .child → CutFrom tree (.ofSpan site.source site.span)) :
    (sources tree).relation.Tree inside inside :=
  tree_of_sites (fun _ => trivial) (fun _ _ => trivial) inside h

theorem lawful_sources (tree : Markup.Node) : (sources tree).Lawful where
  place _ := trivial
  sub _ _ _ h hstart := .sub h hstart
  reading _ := trivial
  markup h hparse := tree_sources tree _ fun _ hsite hrole => .nested h hparse hsite hrole
  follows_self _ := trivial
  chainSpan _ _ _ := trivial
  textNode _ := by
    apply Node.holds_of_parts
    . simp [HasSource]
    . simp [Node.parts]
  expressionNode _ _ _ := by
    apply Node.holds_of_parts
    . simp [HasSource]
    . simp [Node.parts]
  placeholderNode _ := by
    apply Node.holds_of_parts
    . simp [HasSource]
    . simp [Node.parts]
  elementNode _ _ hnodes := by
    apply Node.holds_of_parts
    . simp [HasSource]
    . exact hnodes
  conditionalNode _ h := by
    apply Node.holds_of_parts
    . simp [HasSource]
    . exact h.parts
  loopNode hs hhead hnodes := by
    apply Node.holds_of_parts
    . rintro span head body ⟨⟩
      obtain ⟨keyed, hgiven, hkey, hparameter⟩ := hhead.key
      exact ⟨_, _, keyed, loopOf_of_head hs hhead, hgiven, hkey, hparameter⟩
    . exact hnodes

theorem loop_of_analyse {component : ComponentCompiler.Component} {view : Component}
    (h : analyse component reactive = .ok view)
    (hamong : Node.Among view.root (.loop span head body)) :
    ∃ s callback keyed, LoopFrom component.markup s head body callback keyed := by
  have htree := tree_sources component.markup component.markup fun _ hsite hrole =>
    .slot hsite hrole
  have hroot := ((lawful_sources component.markup).analyse htree h).1
  exact hamong.holds hroot span head body rfl

end View
end ComponentCompiler
