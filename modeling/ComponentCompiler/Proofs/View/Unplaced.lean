import ComponentCompiler.Proofs.Markup.Recognition
import ComponentCompiler.Proofs.Markup.Severity
import ComponentCompiler.Proofs.Markup.Shape
import ComponentCompiler.Proofs.Markup.Source
import ComponentCompiler.Proofs.Name.Free
import ComponentCompiler.Proofs.Snippet.Balanced
import ComponentCompiler.Proofs.View.Parametric

/-!
This module contains what the analysis makes of code whatever place it stands at. Snippets of the
same text are analysed to trees that differ at most in their places, with the same reports but for
their places, or both fail for the same problem. That can only be a problem with markup in them:
their code can be read.
-/

namespace ComponentCompiler

def Diagnostic.unplaced (report : Diagnostic) : Diagnostic :=
  { report with span := none }

namespace View

open Token (Balanced)
open Markup (Attribute)

mutual

def Node.unplaced : Node → Node
  | .text _ value => .text none value
  | .expression _ e => .expression none e
  | .element _ tag nodes => .element none tag (Node.unplacedAll nodes)
  | .conditional _ idiom isStatic condition body elseIfs otherwise =>
    .conditional none idiom isStatic condition (Node.unplacedAll body)
      (Node.unplacedBranches elseIfs)
      (Node.unplacedOtherwise otherwise)
  | .loop _ head body => .loop none head (Node.unplacedAll body)
  | .placeholder _ raw reason => .placeholder none raw reason

def Node.unplacedAll : List Node → List Node
  | [] => []
  | node :: nodes => Node.unplaced node :: Node.unplacedAll nodes

def Node.unplacedBranches : List (Expression × List Node) → List (Expression × List Node)
  | [] => []
  | (condition, body) :: branches =>
    (condition, Node.unplacedAll body) :: Node.unplacedBranches branches

def Node.unplacedOtherwise : Option (List Node) → Option (List Node)
  | none => none
  | some nodes => some (Node.unplacedAll nodes)

end

def unplaced : Relation where
  snippet s s' := s.text = s'.text ∧ s.file = s'.file ∧ Balanced s.text.toList
  place span span' := span.file = span'.file
  report r r' := r.unplaced = r'.unplaced
  failure f f' := ∃ e e', f = .compile e ∧ f' = .compile e' ∧ e.problem = e'.problem
  follows _ _ := True
  code text := Balanced text.toList
  expression _ _ _ := True
  node _ node node' := node.unplaced = node'.unplaced

variable {s s' : Snippet} {ctx : Context}

theorem unplacedAll_eq {nodes nodes' : List Node} (h : unplaced.Nodes ctx nodes nodes') :
    Node.unplacedAll nodes = Node.unplacedAll nodes' := by
  induction h with
  | nil => rfl
  | cons hnode _ ih => exact congrArg₂ List.cons hnode ih

theorem unplacedBranches_eq {branches branches' : List (Expression × List Node)}
    (h : List.Forall₂ (fun b b' => unplaced.Reading ctx b.1 b'.1 ∧
      unplaced.Nodes ctx b.2 b'.2) branches branches') :
    Node.unplacedBranches branches = Node.unplacedBranches branches' := by
  induction h with
  | nil => rfl
  | @cons branch branch' _ _ hbranch _ ih =>
    obtain ⟨condition, body⟩ := branch
    obtain ⟨condition', body'⟩ := branch'
    obtain ⟨⟨rfl, _⟩, hbody⟩ := hbranch
    rw [Node.unplacedBranches, Node.unplacedBranches, unplacedAll_eq hbody, ih]

theorem unplacedOtherwise_eq {otherwise otherwise' : Option (List Node)}
    (h : Option.Rel (unplaced.Nodes ctx) otherwise otherwise') :
    Node.unplacedOtherwise otherwise = Node.unplacedOtherwise otherwise' := by
  cases h with
  | none => rfl
  | some hnodes => exact congrArg some (unplacedAll_eq hnodes)

theorem unplaced_of_conditional {node node' : Node}
    (h : unplaced.Conditional ctx idiom idiom node node') : node.unplaced = node'.unplaced := by
  cases h with
  | intro _ _ hbody helseIfs hotherwise _ =>
    rw [Node.unplaced, Node.unplaced, unplacedAll_eq hbody, unplacedBranches_eq helseIfs,
      unplacedOtherwise_eq hotherwise]

theorem keyOf_unplacedAll (nodes : List Node) : keyOf (Node.unplacedAll nodes) = keyOf nodes := by
  induction nodes with
  | nil => rfl
  | cons node nodes ih => cases node <;> first | rfl | exact ih

theorem cuts_unplaced : unplaced.Cuts where
  text := fun h => h.1
  code := fun h => h.2.2
  place := fun h => congrArg some h.2.1
  strip := by
    intro s s' h
    refine ⟨Snippet.text_strip_congr h.1, ?_, Snippet.balanced_strip h.2.2⟩
    rw [Snippet.file_strip, Snippet.file_strip, h.2.1]
  unwrap := by
    intro s s' opener inner closer h hitems
    refine ⟨Snippet.text_strip_congr (Snippet.text_sub_congr h.1 _ _), ?_,
      Snippet.balanced_strip (Snippet.balanced_unwrap hitems)⟩
    rw [Snippet.file_strip, Snippet.file_strip, Snippet.file_sub, Snippet.file_sub, h.2.1]
  covering := by
    intro s s' items part h hitems hpart
    refine ⟨Snippet.text_covering_congr h.1 part, ?_, Snippet.balanced_covering hitems hpart⟩
    rw [Snippet.file_covering, Snippet.file_covering, h.2.1]
  scan := by
    intro text e h herror
    obtain ⟨tokens, items, hscan, hgroup⟩ := h.window.items
    rw [Token.scan, hscan, ok_bind, hgroup] at herror
    cases herror
  free := by
    intro text exclude e h herror
    obtain ⟨names, hfree⟩ := Name.free_total h exclude
    rw [hfree] at herror
    cases herror

theorem attribute_of_sameShape {attr attr' : Attribute} (h : attr.SameShape attr')
    (hsites : ∀ site ∈ attr.sites, Balanced site.source.toList) :
    unplaced.Attribute attr attr' := by
  cases h with
  | string => exact .string
  | boolean => exact .boolean
  | spread => exact .spread
  | @expression here _ value _ =>
    apply Relation.Attribute.expression
    exact Snippet.balanced_strip (s := .ofSpan value here)
      (hsites ⟨.value, here, value⟩ List.mem_cons_self)

theorem attributes_of_sameShape {attrs attrs' : List Attribute}
    (h : List.Forall₂ Attribute.SameShape attrs attrs')
    (hsites : ∀ site ∈ attrs.flatMap Attribute.sites, Balanced site.source.toList) :
    List.Forall₂ unplaced.Attribute attrs attrs' := by
  induction h with
  | nil => exact .nil
  | cons hattr _ ih =>
    rw [List.flatMap_cons, List.forall_mem_append] at hsites
    exact .cons (attribute_of_sameShape hattr hsites.1) (ih hsites.2)

theorem snippet_ofSpan {span span' : Span} {source : String} (hfile : span.file = span'.file)
    (h : Balanced source.toList) :
    unplaced.snippet (.ofSpan source span) (.ofSpan source span') := by
  refine ⟨rfl, ?_, h⟩
  unfold Snippet.ofSpan
  rw [hfile]

mutual

theorem tree_of_sameShape {tree tree' : Markup.Node} (h : tree.SameShape (·.file = ·.file) tree')
    (hsites : ∀ site ∈ tree.sites, Balanced site.source.toList) : unplaced.Tree tree tree' := by
  match h with
  | .element hfile hattrs hnodes =>
    rw [Markup.Node.sites, List.forall_mem_append] at hsites
    exact .element hfile (attributes_of_sameShape hattrs hsites.1)
      (trees_of_sameShapes hnodes hsites.2)
  | .fragment hnodes => exact .fragment (trees_of_sameShapes hnodes hsites)
  | .text hfile => exact .text hfile
  | .slot hfile => exact .slot (snippet_ofSpan hfile (hsites _ List.mem_cons_self))

theorem trees_of_sameShapes {trees trees' : List Markup.Node}
    (h : Markup.Node.SameShapes (·.file = ·.file) trees trees')
    (hsites : ∀ site ∈ Markup.Node.sitesAll trees, Balanced site.source.toList) :
    unplaced.Trees trees trees' := by
  match h with
  | .nil => exact .nil
  | .cons htree htrees =>
    rw [Markup.Node.sitesAll, List.forall_mem_append] at hsites
    exact .cons (tree_of_sameShape htree hsites.1)
      (trees_of_sameShapes htrees hsites.2) fun _ _ _ _ _ _ => trivial

end

theorem lawful_unplaced : unplaced.Lawful where
  toCuts := cuts_unplaced
  unreadable := by
    rintro _ _ ⟨e, e', rfl, rfl, _⟩
    exact .inr ⟨nofun, nofun⟩
  report := by
    intro problem span span' hfile
    change Diagnostic.mk problem none span.file = .mk problem none span'.file
    rw [hfile]
  reading := fun _ _ => trivial
  markup := by
    intro s s' token h hscan hkind
    have hsame : Paired (· = ·) (Markup.Node.SameShape (·.file = ·.file))
        (Markup.read (Markup.placeIn s.text.toList s.file s.origin) s.text.toList)
        (Markup.read (Markup.placeIn s.text.toList s'.file s'.origin) s.text.toList) :=
      Markup.read_sameShape (fun _ _ => congrArg some h.2.1) s.text.toList
    have hfault := Markup.failsOnly_read (Markup.placeIn s.text.toList s.file s.origin) hscan hkind
    rw [← h.1]
    unfold Markup.Node.parse
    dsimp only
    generalize hread : Markup.read (Markup.placeIn s.text.toList s.file s.origin) s.text.toList =
      result at hsame hfault
    generalize Markup.read (Markup.placeIn s.text.toList s'.file s'.origin) s.text.toList =
      result' at hsame
    cases hsame with
    | ok htree =>
      have hparse := Markup.parse_ok.mpr hread
      exact Paired.ok ⟨tree_of_sameShape htree (Markup.sites_balanced hparse),
        Markup.longestSlot_lt_of_parse hparse⟩
    | @error stop stop' hstop =>
      subst hstop
      cases stop with
      | pastEnd =>
        obtain ⟨fault, h, _⟩ := hfault .pastEnd rfl
        cases h
      | fault fault => exact Paired.error ⟨_, _, rfl, rfl, rfl⟩
  follows_self := fun _ => trivial
  chainSpan := fun h _ _ => congrArg some h.2.1
  key := by
    intro ctx nodes nodes' h
    rw [← keyOf_unplacedAll nodes, ← keyOf_unplacedAll nodes', unplacedAll_eq h]
  textNode := fun _ => rfl
  expressionNode := fun _ _ _ => rfl
  placeholderNode := by
    intro ctx s s' reason h
    change Node.placeholder none s.text reason = .placeholder none s'.text reason
    rw [h.1]
  elementNode := by
    intro ctx span span' tag nodes nodes' _ _ hnodes
    change Node.element none tag (Node.unplacedAll nodes) =
      .element none tag (Node.unplacedAll nodes')
    rw [unplacedAll_eq hnodes]
  conditionalNode := unplaced_of_conditional
  loopNode := by
    intro ctx s s' head callback nodes nodes' _ _ hnodes
    change Node.loop none head (Node.unplacedAll nodes) = .loop none head (Node.unplacedAll nodes')
    rw [unplacedAll_eq hnodes]

end View
end ComponentCompiler
