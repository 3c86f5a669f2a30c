import ComponentCompiler.Proofs.Document.Location
import ComponentCompiler.Proofs.View.Invariant

/-!
This module contains where analysed markup stands. At any depth of slots, branches and loops, nodes
and reports have ranges of the text that the component was read from, and an expression that is
shown or can not be compiled is the text of its range.
-/

namespace ComponentCompiler
namespace View

variable {text : String} {s t : Snippet}

inductive Node.IsIn (text : String) : Node → Prop where
  | text {span : Span} (hspan : span.IsIn text) : IsIn text (.text span value)
  | expression {span : Span} (hspan : span.Quotes text e.raw) : IsIn text (.expression span e)
  | element {span : Span} (hspan : span.IsIn text) (hbody : ∀ node ∈ body, IsIn text node) :
    IsIn text (.element span tag body)
  | conditional {span : Span} (hspan : span.IsIn text) (hbody : ∀ node ∈ body, IsIn text node)
      (helseIfs : ∀ branch ∈ elseIfs, ∀ node ∈ branch.2, IsIn text node)
      (hotherwise : ∀ nodes, otherwise = some nodes → ∀ node ∈ nodes, IsIn text node) :
    IsIn text (.conditional span idiom isStatic condition body elseIfs otherwise)
  | loop {span : Span} (hspan : span.IsIn text) (hbody : ∀ node ∈ body, IsIn text node) :
    IsIn text (.loop span head body)
  | placeholder {span : Span} (hspan : span.Quotes text raw) :
    IsIn text (.placeholder span raw reason)

structure Component.IsIn (text : String) (view : Component) : Prop where
  root : ∀ node ∈ view.root, node.IsIn text
  diagnostics : ∀ report ∈ view.diagnostics, ∃ span, report.span = some span ∧ span.IsIn text

def Reaches (s t : Snippet) : Prop :=
  s.origin.offset ≤ t.origin.offset + t.text.length

theorem isIn_chainSpan {first last : Snippet.Call} (hfirst : first.snippet.StandsIn text)
    (hlast : last.snippet.StandsIn text)
    (h : Reaches first.snippet last.snippet) : (chainSpan first last).IsIn text where
  le := h
  stop_le := hlast.quotes.1.stop_le
  first := hfirst.quotes.1.first
  last := hlast.quotes.1.last

theorem inside_of_helperCall? {node : Markup.Node} {call : Snippet.Call} (hnode : node.IsIn text)
    (h : helperCall? node = some call) :
    node.span.start ≤ call.snippet.origin.offset ∧
      call.snippet.origin.offset + call.snippet.text.length ≤ node.span.stop := by
  unfold helperCall? at h
  split at h
  . next span source =>
    split at h
    . next found hcall =>
      subst h
      have hinside : (Snippet.ofSpan source span).Inside call.snippet := by
        apply (Snippet.subClosed_inside _).stripParens _ (Snippet.stripParens_of_chainCall? hcall)
        exact ⟨Nat.le_refl _, Nat.le_refl _⟩
      cases hnode with
      | slot hquotes =>
        refine ⟨hinside.start, Nat.le_trans hinside.stop ?_⟩
        have hlength : source.length ≤ span.stop - span.start := by
          rw [hquotes.2, Text.slice, String.length_ofList]
          exact List.length_take_le _ _
        have hle := hquotes.1.le
        change span.start + source.length ≤ span.stop
        omega
    . cases h
  . cases h

def located (text : String) : Invariant where
  snippet := Snippet.StandsIn text
  place := Span.IsIn text
  follows := Reaches
  expression _ _ _ := True
  node _ node := node.IsIn text

theorem trees_of_isIn {nodes : List Markup.Node} (h : ∀ node ∈ nodes, node.IsIn text)
    (htrees : ∀ node ∈ nodes, (located text).relation.Tree node node)
    (hincreasing : Increasing (nodes.map Markup.Node.range)) :
    (located text).relation.Trees nodes nodes := by
  induction nodes with
  | nil => exact .nil
  | cons node nodes ih =>
    rw [List.forall_mem_cons] at h htrees
    rw [List.map_cons, increasing_cons] at hincreasing
    obtain ⟨_, hincreasing, hafter⟩ := hincreasing
    refine .cons htrees.1 (ih h.2 htrees.2 hincreasing) ?_
    intro call hcall sibling hmem other hother
    -- the one sibling stops before the other starts, and the calls stand inside of them
    have hbefore := inside_of_helperCall? h.1 hcall
    have hbehind := inside_of_helperCall? (h.2 sibling hmem) hother
    have hbetween : node.span.stop ≤ sibling.span.start := hafter _ (List.mem_map_of_mem hmem)
    change call.snippet.origin.offset ≤ other.snippet.origin.offset + other.snippet.text.length
    omega

theorem tree_of_isIn {tree : Markup.Node} (h : tree.IsIn text) :
    (located text).relation.Tree tree tree := by
  induction h with
  | element hspan hattributes hchildren hsiblings ih =>
    refine .element ⟨rfl, hspan⟩ (List.forall₂_same.mpr ?_)
      (trees_of_isIn hchildren ih hsiblings.increasing)
    intro attr _
    cases attr with
    | string => exact .string
    | expression => exact .expression trivial
    | boolean => exact .boolean
    | spread => exact .spread
  | fragment hspan hchildren hsiblings ih =>
    exact .fragment (trees_of_isIn hchildren ih hsiblings.increasing)
  | text hspan => exact .text ⟨rfl, hspan⟩
  | slot hquotes => exact .slot ⟨rfl, Snippet.standsIn_ofSpan hquotes⟩

theorem lawful_located (text : String) : (located text).Lawful where
  place := fun h => h.quotes.1
  sub := Snippet.subClosed_standsIn text
  reading := fun _ => trivial
  markup := fun h hparse => tree_of_isIn (Markup.Node.isIn_of_parse h hparse)
  follows_self := fun _ => Nat.le_add_right _ _
  chainSpan := isIn_chainSpan
  textNode := .text
  expressionNode := by
    intro ctx s e h hraw _
    apply Node.IsIn.expression
    rw [hraw]
    exact h.quotes
  placeholderNode := fun h => .placeholder h.quotes
  elementNode := fun hspan _ hnodes => .element hspan hnodes
  conditionalNode := fun hspan h => .conditional hspan h.body h.elseIfs h.otherwise
  loopNode := fun h _ hnodes => .loop h.quotes.1 hnodes

theorem isIn_of_analyse {component : ComponentCompiler.Component} {view : Component}
    (hmarkup : component.markup.IsIn text)
    (h : analyse component reactive = .ok view) : view.IsIn text := by
  obtain ⟨hroot, hreports⟩ := (lawful_located text).analyse (tree_of_isIn hmarkup) h
  refine ⟨hroot, ?_⟩
  intro report hreport
  obtain ⟨problem, span, hspan, rfl⟩ := hreports report hreport
  exact ⟨span, rfl, hspan⟩

theorem isSevere_of_analyse {component : ComponentCompiler.Component} {failure : Failure}
    (hmarkup : component.markup.IsIn text)
    (h : analyse component reactive = .error failure) : failure.IsSevere :=
  (lawful_located text).failure_of_analyse (tree_of_isIn hmarkup) h

/-- Whatever the analysis of a component of a file comes to knows where it stands in the file. The
spans of analysed markup, at any depth, and of reports are ranges of the text with the lines and
columns of their ends, and an expression that is shown or can not be compiled is the text of its
range. For this it is enough to count line breaks in the snippet that something is cut out of: what
is cut out of a snippet of the text is a snippet of the text, at the line and column that the text
has there. -/
theorem located_of_analyse (text file : String) :
    (∀ document, Document.parse text file = .ok document →
      ∀ component ∈ document.components, ∀ reactive view,
      analyse component reactive = .ok view → view.IsIn text) ∧
    ∀ s : Snippet, s.StandsIn text →
      (∀ start stop, start ≤ s.text.length → (s.sub start stop).StandsIn text ∧
        (s.sub start stop).origin =
          { line := s.origin.line + (s.text.toList.take start).count '\n'
            column :=
              if '\n' ∈ s.text.toList.take start then Text.sinceBreak (s.text.toList.take start) + 1
              else s.origin.column + start
            offset := s.origin.offset + start }) ∧
      s.strip.StandsIn text ∧
        (∀ first last, first.start ≤ s.text.length → (s.between first last).StandsIn text) ∧
      ∀ t, s.stripParens = .ok t → t.StandsIn text := by
  have hclosed := Snippet.subClosed_standsIn text
  constructor
  . intro document hparse component hmem reactive view h
    exact isIn_of_analyse ((Document.isIn_of_parse hparse).components component hmem).markup h
  . intro s hs
    refine ⟨?_, hclosed.strip hs, fun first last hstart => hclosed.strip (hclosed _ hs hstart),
      fun t => hclosed.stripParens hs⟩
    intro start stop hstart
    refine ⟨hclosed stop hs hstart, ?_⟩
    rw [← String.length_toList] at hstart
    have hplace := Origin.locate_lineCol s.origin s.text.toList hstart
    exact congrArg (fun place => Origin.mk place.1 place.2 (s.origin.offset + start)) hplace

/-- An expression over two lines in markup that a condition guards, and a name in parentheses after
a line break. -/
theorem located_of_analyse_lines :
    (let text := "export default () =>\n<p>\x7ba && <b>\x7bc\n+ 1\x7d</b>\x7d</p>"
    ∃ document component view, Document.parse text "A.tsx" = .ok document ∧
      component ∈ document.components ∧
      analyse component [] = .ok view ∧ view.root.length = 1 ∧ view.IsIn text) ∧
    (let text := "\x7b(\na)\x7d"
    let s : Snippet := ⟨"(\na)", ⟨1, 2, 1⟩, "A.tsx"⟩
    s.StandsIn text ∧ s.stripParens = .ok ⟨"a", ⟨2, 1, 3⟩, "A.tsx"⟩ ∧
      Snippet.StandsIn text ⟨"a", ⟨2, 1, 3⟩, "A.tsx"⟩) := by
  constructor
  . intro text
    have hview : ((Document.parse text "A.tsx").toOption.any fun document =>
        document.components.any fun component =>
        (analyse component []).toOption.any fun view => view.root.length == 1) = true := by
      decide +kernel
    obtain ⟨document, hdocument, hview⟩ := exists_ok_of_any hview
    obtain ⟨component, hmem, hview⟩ := List.any_eq_true.mp hview
    obtain ⟨view, hview, hlength⟩ := exists_ok_of_any hview
    have hin := (located_of_analyse text "A.tsx").1 document hdocument component hmem [] view hview
    exact ⟨document, component, view, hdocument, hmem, hview, beq_iff_eq.mp hlength, hin⟩
  . intro text s
    have hs : s.StandsIn text := ⟨⟨['\x7b'], ['\x7d'], by decide, rfl⟩, by decide⟩
    have hstrip : s.stripParens = .ok ⟨"a", ⟨2, 1, 3⟩, "A.tsx"⟩ := by decide +kernel
    exact ⟨hs, hstrip, ((located_of_analyse text "A.tsx").2 s hs).2.2.2 _ hstrip⟩

end View
end ComponentCompiler
