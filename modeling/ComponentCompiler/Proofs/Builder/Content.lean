import ComponentCompiler.Builder.Lowering
import ComponentCompiler.Document.Parse
import ComponentCompiler.Proofs.Builder.Lines
import ComponentCompiler.Proofs.View.Depth

/-!
This module contains what becomes of the content of markup. Every node, property and event is
written, unless it stands in the children of a component, which is reported, or belongs to a link. A
link is written with its target, its class names and its text, and nothing is said about the rest.
-/

namespace ComponentCompiler
namespace Builder

open View (Node Expression Property Tag)
open View.Node (Among)

/-! ### Nodes -/

variable {nodes children : List Node} {node parent : Node} {tag : Tag} {report : Diagnostic}

theorem partsAll_eq_flatMap (codes : List Code) :
    Code.partsAll codes = codes.flatMap Code.parts := by
  induction codes with
  | nil => rfl
  | cons code codes ih => rw [Code.partsAll, ih, List.flatMap_cons]

theorem lostAll_eq_flatMap (nodes : List Node) : lostAll nodes = nodes.flatMap lost := by
  induction nodes with
  | nil => rfl
  | cons node nodes ih => rw [lostAll, ih, List.flatMap_cons]

theorem lowerBranches_eq_map (branches : List (Expression × List Node)) :
    lowerBranches branches = branches.map fun branch => (branch.1, lowerAll branch.2) := by
  induction branches with
  | nil => rfl
  | cons branch rest ih => rw [lowerBranches, ih, List.map_cons]

theorem lostBranches_eq_flatMap (branches : List (Expression × List Node)) :
    lostBranches branches = branches.flatMap (lostAll ·.2) := by
  induction branches with
  | nil => rfl
  | cons branch rest ih => rw [lostBranches, ih, List.flatMap_cons]

theorem mem_lostAll (h : node ∈ nodes) (hreport : report ∈ lost node) : report ∈ lostAll nodes := by
  rw [lostAll_eq_flatMap, List.mem_flatMap]
  exact ⟨node, h, hreport⟩

theorem lowerOtherwise_eq_map (otherwise : Option (List Node)) :
    lowerOtherwise otherwise = otherwise.map lowerAll := by
  cases otherwise with
  | none => rw [lowerOtherwise, Option.map_none]
  | some body => rw [lowerOtherwise, Option.map_some]

/-- The lines that nodes are written as. -/
def written (nodes : List Node) : List String :=
  Code.linesAll (lowerAll nodes)

theorem written_eq_flatMap (nodes : List Node) :
    written nodes = nodes.flatMap fun node => (lower node).lines := by
  induction nodes with
  | nil => rfl
  | cons node nodes ih => rw [List.flatMap_cons, ← ih, written, written, lowerAll, Code.linesAll]

theorem stands_of_mem (h : node ∈ nodes) : Stands (written nodes) (lower node).lines := by
  rw [written_eq_flatMap]
  exact .of_part (List.infix_of_mem_flatten (List.mem_map_of_mem h))

/-- The nodes in a node, where those that follow one another are together. -/
def blocks : Node → List (List Node)
  | .element _ _ children => [children]
  | .conditional _ _ _ _ body elseIfs otherwise => body :: elseIfs.map (·.2) ++ otherwise.toList
  | .loop _ _ body => [body]
  | .text _ _ | .expression _ _ | .placeholder _ _ _ => []

theorem parts_eq_flatten (parent : Node) : parent.parts = (blocks parent).flatten := by
  cases parent with
  | conditional span idiom isStatic condition body elseIfs otherwise =>
    cases otherwise with
    | none => simp [blocks, View.Node.parts, List.flatMap]
    | some body => simp [blocks, View.Node.parts, List.flatMap]
  | _ => simp [blocks, View.Node.parts]

theorem stands_otherwise (opener : String) {codes : List Code} {otherwise : Option (List Code)}
    (h : codes ∈ otherwise.toList) :
    Stands (Code.otherwiseLines opener otherwise) (Code.linesAll codes) := by
  rw [Option.mem_toList.mp h, Code.otherwiseLines]
  exact (Stands.indent _).cons

theorem stands_elseIf {codes : List Code} (elseIfs : List (String × List Code))
    (h : codes ∈ elseIfs.map (·.2)) : Stands (Code.elseIfLines elseIfs) (Code.linesAll codes) := by
  induction elseIfs with
  | nil => cases h
  | cons branch rest ih =>
    rw [Code.elseIfLines]
    rcases List.mem_cons.mp h with rfl | h
    . exact (Stands.indent _).left.cons
    . exact (ih h).right.cons

theorem stands_native (condition : String) (body : List Code) (elseIfs : List (String × List Code))
    (otherwise : Option (List Code)) : ∀ codes ∈ body :: elseIfs.map (·.2) ++ otherwise.toList,
    Stands (Code.native condition body elseIfs otherwise).lines (Code.linesAll codes) := by
  intro codes h
  rw [Code.lines]
  rw [List.mem_append, List.mem_cons] at h
  rcases h with (rfl | h) | h
  . exact (Stands.indent _).left.left.left.cons
  . exact (stands_elseIf elseIfs h).right.left.left.cons
  . exact (stands_otherwise _ h).right.left.cons

theorem stands_reactive (guard : Derived) (body : List Code) (otherwise : Option (List Code)) :
    ∀ codes ∈ body :: otherwise.toList,
      Stands (Code.reactive guard body otherwise).lines (Code.linesAll codes) := by
  intro codes h
  rw [Code.lines]
  rcases List.mem_cons.mp h with rfl | h
  . exact (Stands.indent _).left.left.cons
  . exact (stands_otherwise _ h).right.left.cons

theorem stands_branch (condition : Expression) (body : List Code)
    (rest : List (Expression × List Code))
    (otherwise : Option (List Code)) : ∀ codes ∈ body :: rest.map (·.2) ++ otherwise.toList,
    Stands (branch condition body rest otherwise).lines (Code.linesAll codes) := by
  induction rest generalizing condition body with
  | nil =>
    unfold branch
    split
    . exact stands_reactive (guard condition) body otherwise
    . exact stands_native condition.raw body [] otherwise
  | cons next others ih =>
    obtain ⟨next, nextBody⟩ := next
    intro codes h
    -- what is not in the first branch is in the chain of the others
    have hchain (hcodes : codes ≠ body) :
        Stands (Code.linesAll [branch next nextBody others otherwise]) (Code.linesAll codes) := by
      have hmem := (List.mem_cons.mp h).resolve_left hcodes
      rw [Code.linesAll, Code.linesAll, List.append_nil]
      exact ih next nextBody codes hmem
    unfold branch
    split
    . by_cases hcodes : codes = body
      . exact stands_reactive (guard condition) body _ codes (by simp [hcodes])
      . exact (stands_reactive (guard condition) body _ _ (by simp)).trans (hchain hcodes)
    split
    . by_cases hcodes : codes = body
      . exact stands_native condition.raw body [] _ codes (by simp [hcodes])
      . exact (stands_native condition.raw body [] _ _ (by simp)).trans (hchain hcodes)
    . apply stands_native condition.raw body
        (((next, nextBody) :: others).map fun b => (b.1.raw, b.2))
      rwa [List.map_map]

theorem stands_loop (head : Iteration) (statements : Option String) (body : List Code) :
    Stands (Code.loop head statements body).lines (Code.linesAll body) := by
  have hbody : Stands (Writer.indentAll 1 (Code.statementLines statements ++ Code.linesAll body))
      (Code.linesAll body) :=
    (Stands.indent _).trans (.of_part (List.suffix_append _ _).isInfix)
  cases head with
  | native =>
    rw [Code.lines]
    exact hbody.left.cons
  | keyed =>
    rw [Code.lines]
    exact ((Stands.indent _).trans hbody.left.cons.cons.cons).left.cons

/-- The content of a node is written or reported with it, unless the node is a component, a link, or
an element with nothing but text. -/
def IsOpen : Node → Prop
  | .element _ tag children =>
    tag.isComponent = false ∧ isLink tag = false ∧ textValue? children = none
  | _ => True

theorem stands_block (hopen : IsOpen parent) :
    ∀ siblings ∈ blocks parent, Stands (lower parent).lines (written siblings) := by
  intro siblings hmem
  cases parent with
  | element span tag children =>
    obtain ⟨hcomponent, hlink, htext⟩ := hopen
    obtain rfl := List.mem_singleton.mp hmem
    cases hchildren : siblings.isEmpty with
    | true =>
      rw [List.isEmpty_iff.mp hchildren]
      exact .of_part List.nil_infix
    | false =>
      rw [lower]
      simp only [hcomponent, hlink, hchildren, htext, Bool.false_eq_true, if_false,
        Option.isSome_none, Bool.or_self]
      rw [Code.lines]
      exact (Stands.indent _).left.cons
  | conditional span idiom isStatic condition body elseIfs otherwise =>
    rw [lower]
    apply stands_branch
    have hlowered := List.mem_map_of_mem (f := lowerAll) hmem
    rw [lowerBranches_eq_map, lowerOtherwise_eq_map]
    cases otherwise <;> simpa [blocks] using hlowered
  | loop span head body =>
    obtain rfl := List.mem_singleton.mp hmem
    rw [lower]
    exact stands_loop (iteration head) head.prelude (lowerAll siblings)
  | text | expression | placeholder => cases hmem

theorem mem_lost (hopen : IsOpen parent) (hmem : node ∈ parent.parts)
    (hreport : report ∈ lost node) : report ∈ lost parent := by
  cases parent with
  | element span tag children =>
    obtain ⟨hcomponent, hlink, _⟩ := hopen
    rw [lost]
    simp only [hcomponent, hlink, Bool.false_eq_true, if_false]
    exact mem_lostAll hmem hreport
  | conditional span idiom isStatic condition body elseIfs otherwise =>
    rw [lost, lostBranches_eq_flatMap, List.mem_append, List.mem_append, List.mem_flatMap]
    rw [View.Node.parts, List.mem_append, List.mem_append, List.mem_flatMap] at hmem
    rcases hmem with (hmem | ⟨branch, hbranch, hmem⟩) | hmem
    . exact .inl (.inl (mem_lostAll hmem hreport))
    . exact .inl (.inr ⟨branch, hbranch, mem_lostAll hmem hreport⟩)
    . cases otherwise with
      | none => exact absurd hmem List.not_mem_nil
      | some alternative => exact .inr (mem_lostAll hmem hreport)
  | loop span head body =>
    rw [lost]
    exact mem_lostAll hmem hreport
  | text | expression | placeholder => exact absurd hmem List.not_mem_nil

inductive Shown (nodes : List Node) : Node → Prop where
  | top {node : Node} (h : node ∈ nodes) : Shown nodes node
  | part {node parent : Node} (h : Shown nodes parent) (hopen : IsOpen parent)
      (hmem : node ∈ parent.parts) : Shown nodes node

theorem Shown.mem_lostAll (h : Shown nodes node) (hreport : report ∈ lost node) :
    report ∈ lostAll nodes := by
  induction h with
  | top h => exact Builder.mem_lostAll h hreport
  | part _ hopen hmem ih => exact ih (mem_lost hopen hmem hreport)

theorem Shown.among (h : Shown nodes node) : Among nodes node := by
  induction h with
  | top h => exact .here h
  | part _ _ hmem ih => exact .part ih hmem

theorem Shown.stands (h : Shown nodes node) : Stands (written nodes) (lower node).lines := by
  induction h with
  | top h => exact stands_of_mem h
  | part _ hopen hmem ih =>
    rw [parts_eq_flatten] at hmem
    obtain ⟨siblings, hsiblings, hmem⟩ := List.mem_flatten.mp hmem
    exact (ih.trans (stands_block hopen siblings hsiblings)).trans (stands_of_mem hmem)

theorem shown_or_closed (h : Among nodes node) :
    Shown nodes node ∨
    ∃ span tag children, Shown nodes (.element span tag children) ∧
      ¬ IsOpen (.element span tag children) ∧ Among children node := by
  -- from the parent to one of its parts: once an element on the way is closed, it stays the first
  -- one
  induction h with
  | here h => exact .inl (.top h)
  | @part node parent _ hmem ih =>
    rcases ih with hparent | ⟨span, tag, children, hshown, hclosed, hparent⟩
    . by_cases hopen : IsOpen parent
      . exact .inl (.part hparent hopen hmem)
      . cases parent with
        | element span tag children => exact .inr ⟨span, tag, children, hparent, hopen, .here hmem⟩
        | _ => exact absurd trivial hopen
    . exact .inr ⟨span, tag, children, hshown, hclosed, .part hparent hmem⟩

/-! ### Text -/

/-- How text and expressions are written as a part of a text. -/
inductive Piece : Node → String → Prop where
  | literal : Piece (.text span content) (Json.literal content)
  | template : Piece (.text span content) (String.ofList (templateText content.toList))
  | expression : Piece (.expression span e) ("$\x7b" ++ e.raw ++ "\x7d")

theorem Piece.parts_eq_nil (h : Piece node piece) : node.parts = [] := by
  cases h <;> rfl

theorem piece_of_templatePart? {part : List Char × List String}
    (h : templatePart? node = some part) : Piece node (String.ofList part.1) := by
  cases node with
  | text span content =>
    cases h
    exact .template
  | expression span e =>
    cases h
    have htext : String.ofList (['$', '\x7b'] ++ e.raw.toList ++ ['\x7d']) =
        "$\x7b" ++ e.raw ++ "\x7d" := by
      rw [String.ofList_append, String.ofList_append, String.ofList_toList]
    rw [htext]
    exact .expression
  | _ => cases h

theorem pieces_of_mapM {parts : List (List Char × List String)}
    (h : children.mapM templatePart? = some parts) :
    List.Forall₂ Piece children (parts.map fun part => String.ofList part.1) := by
  induction children generalizing parts with
  | nil =>
    cases h
    exact .nil
  | cons child children ih =>
    rw [List.mapM_cons] at h
    obtain ⟨part, hpart, h⟩ := Option.bind_eq_some_iff.mp h
    obtain ⟨rest, hrest, h⟩ := Option.bind_eq_some_iff.mp h
    cases h
    exact .cons (piece_of_templatePart? hpart) (ih hrest)

theorem occurs_value (expression : String) (dependencies : List String) (role : View.Role) :
    Occurs expression (value expression dependencies role).text := by
  unfold value
  split
  . exact ⟨"", "", by simp [Value.text]⟩
  . refine ⟨s!"watch([{commas dependencies}], () => ", s!") as Ref<{valueType role}>", ?_⟩
    simp only [Value.text, Derived.text, String.append_assoc]
    rfl

/-- A text holds the pieces of all children, one after the other. -/
theorem exists_pieces (h : textValue? children = some text) :
    ∃ pieces, List.Forall₂ Piece children pieces ∧ Occurs (String.join pieces) text.text := by
  unfold textValue? at h
  split at h
  . cases h
  . cases h
    exact ⟨_, .cons .literal .nil, "", "", by simp [Value.text]⟩
  . obtain ⟨parts, hparts, h⟩ := Option.bind_eq_some_iff.mp h
    cases h
    refine ⟨_, pieces_of_mapM hparts, Occurs.trans ?_ (occurs_value _ _ _)⟩
    refine ⟨"\x60", "\x60", ?_⟩
    rw [← String.toList_inj]
    simp [List.flatMap_map]

theorem exists_piece (h : textValue? children = some text) (hmem : node ∈ children) :
    ∃ piece, Piece node piece ∧ Occurs piece text.text := by
  obtain ⟨pieces, hpieces, hoccurs⟩ := exists_pieces h
  obtain ⟨before, after, rfl⟩ := List.append_of_mem hmem
  obtain ⟨first, rest, rfl, _, hrest⟩ := append_of_forall₂ hpieces.flip
  obtain ⟨piece, later, hpiece, _, rfl⟩ := List.forall₂_cons_right_iff.mp hrest
  refine ⟨piece, hpiece, Occurs.trans ?_ hoccurs⟩
  exact ⟨String.join first, String.join later, by simp [String.append_assoc]⟩

theorem piece_of_among (h : textValue? children = some text) (hamong : Among children node) :
    node ∈ children ∧ ∃ piece, Piece node piece ∧ Occurs piece text.text := by
  induction hamong with
  | here hmem => exact ⟨hmem, exists_piece h hmem⟩
  | part _ hmem ih =>
    -- the parent is a piece, and pieces have no parts
    obtain ⟨_, piece, hpiece, _⟩ := ih
    rw [hpiece.parts_eq_nil] at hmem
    exact absurd hmem List.not_mem_nil

/-! ### Elements -/

def elementConfig (tag : Tag) (children : List Node) : List Entry :=
  if tag.isComponent then tag.props.map componentEntry
  else if isLink tag then linkConfig tag children
  else textEntries children ++ tag.props.map elementEntry ++ handlerEntries tag.events

theorem exists_line (span : Option Span) (tag : Tag) (children : List Node) :
    ∃ line, (lower (.element span tag children)).lines.head? = some line ∧
      Occurs (configText (elementConfig tag children)) line := by
  rw [lower, elementConfig]
  split
  . rw [Code.lines]
    exact ⟨_, rfl, _, _, rfl⟩
  split
  . rw [Code.lines]
    exact ⟨_, rfl, _, _, rfl⟩
  dsimp only
  generalize textEntries children ++ tag.props.map elementEntry ++ handlerEntries tag.events =
    config
  split
  . rw [Code.lines]
    exact ⟨_, rfl, _, _, rfl⟩
  . rw [Code.lines]
    refine ⟨_, rfl, s!"ui.{methodName tag.name}(", s!", {Code.callback} \x7b", ?_⟩
    simp only [String.append_assoc]
    rfl

theorem occurs_text {config : List Entry} {text : Value} (h : .field "text" text ∈ config) :
    Occurs text.text (configText config) := by
  refine Occurs.trans ?_ (occurs_entry h)
  exact ⟨"text" ++ ": ", "", by rw [String.append_empty]; rfl⟩

theorem mem_elementConfig (h : textValue? children = some text)
    (hcomponent : tag.isComponent = false) : .field "text" text ∈ elementConfig tag children := by
  have htext : textEntries children = [.field "text" text] := by simp [textEntries, h]
  rw [elementConfig, hcomponent, if_neg Bool.false_ne_true]
  split
  . rw [linkConfig, htext]
    simp
  . rw [htext]
    simp

theorem occurs_handlers (events : List View.Event) {config : List Entry}
    (h : handlerEntries events <:+: config) :
    Occurs (commas (events.map fun e => handlerText (e.name, e.handler))) (configText config) := by
  cases events with
  | nil => exact occurs_empty _
  | cons event events =>
    have hmem : Entry.handlers ((event :: events).map fun e => (e.name, e.handler)) ∈ config :=
      h.subset (by simp [handlerEntries])
    refine Occurs.trans ⟨"on: \x7b ", " \x7d", ?_⟩ (occurs_entry hmem)
    rw [Entry.text, List.map_map]
    rfl

theorem mem_linkConfig {entry : Entry} (h : entry ∈ (tag.props.filter (·.name == some "href")).map
      (fun p => Entry.field "to" (propertyValue p)) ∨
      entry ∈ (tag.props.filter (·.name == some "className")).map fun p =>
        Entry.field "className" (propertyValue p)) : entry ∈ linkConfig tag children := by
  rw [linkConfig]
  generalize (tag.props.filter (·.name == some "href")).map
    (fun p => Entry.field "to" (propertyValue p)) = targets at *
  generalize (tag.props.filter (·.name == some "className")).map
    (fun p => Entry.field "className" (propertyValue p)) = classes at *
  -- the text stands between the first entry and the others
  have hentries : entry ∈ (targets.reverse ++ classes).take 1 ++
      (targets.reverse ++ classes).drop 1 := by
    rw [List.take_append_drop, List.mem_append, List.mem_reverse]
    exact h
  rcases List.mem_append.mp hentries with h | h
  . exact List.mem_append_left _ (List.mem_append_left _ h)
  . exact List.mem_append_right _ h

/-- The properties and events of a tag occur in its line, in their order. A component has no events;
of a link only targets and class names occur. -/
inductive HasAttributes (tag : Tag) (line : String) : Prop where
  | component (hcomponent : tag.isComponent = true) (hevents : tag.events = [])
      (hprops : Occurs (commas (tag.props.map fun p => (componentEntry p).text)) line)
  | element (hcomponent : tag.isComponent = false) (hlink : isLink tag = false)
      (hprops : Occurs (commas (tag.props.map fun p => (elementEntry p).text)) line)
      (hevents : Occurs (commas (tag.events.map fun e => handlerText (e.name, e.handler))) line)
  | link (hcomponent : tag.isComponent = false) (hlink : isLink tag = true)
      (htargets : ∀ p ∈ tag.props, p.name = some "href" →
        Occurs (Entry.field "to" (propertyValue p)).text line)
      (hclasses : ∀ p ∈ tag.props, p.name = some "className" →
        Occurs (Entry.field "className" (propertyValue p)).text line)

theorem hasAttributes (hevents : tag.isComponent = true → tag.events = [])
    (hline : Occurs (configText (elementConfig tag children)) line) : HasAttributes tag line := by
  unfold elementConfig at hline
  cases hcomponent : tag.isComponent with
  | true =>
    rw [if_pos hcomponent] at hline
    refine .component hcomponent (hevents hcomponent) ?_
    have hprops := occurs_configText (List.infix_refl (tag.props.map componentEntry))
    rw [List.map_map] at hprops
    exact hprops.trans hline
  | false =>
    rw [hcomponent, if_neg Bool.false_ne_true] at hline
    cases hlink : isLink tag with
    | true =>
      rw [if_pos hlink] at hline
      refine .link hcomponent hlink ?_ ?_
      . intro p hp hname
        refine (occurs_entry (mem_linkConfig (.inl ?_))).trans hline
        exact List.mem_map_of_mem (List.mem_filter.mpr ⟨hp, by simp [hname]⟩)
      . intro p hp hname
        refine (occurs_entry (mem_linkConfig (.inr ?_))).trans hline
        exact List.mem_map_of_mem (List.mem_filter.mpr ⟨hp, by simp [hname]⟩)
    | false =>
      rw [hlink, if_neg Bool.false_ne_true] at hline
      have hprops : tag.props.map elementEntry <:+: textEntries children ++
          tag.props.map elementEntry ++ handlerEntries tag.events :=
        ⟨_, _, rfl⟩
      have hprops := occurs_configText hprops
      rw [List.map_map] at hprops
      refine .element hcomponent hlink (hprops.trans hline) ?_
      exact (occurs_handlers tag.events (List.suffix_append _ _).isInfix).trans hline

/-! ### Own texts -/

/-- What is written of a node itself, besides the nodes in it. -/
def ownTexts : Node → List String
  | .text _ content => [Json.literal content]
  | .expression _ e => [e.raw]
  | .element _ tag _ =>
    [if tag.isComponent then tag.name else if isLink tag then "Link" else methodName tag.name]
  | .conditional _ _ _ condition _ elseIfs _ => condition.raw :: elseIfs.map (·.1.raw)
  | .loop _ head _ => [if head.isReactive then (loopItems head).text else head.iterable]
  | .placeholder _ raw _ => [Json.literal raw]

theorem shows_textCall (v : Value) : Shows (textCall v).lines v.text := by
  have hvalue : Occurs v.text (configText [.field "value" v]) :=
    Occurs.trans ⟨"value: ", "", by rw [String.append_empty]; rfl⟩
      (occurs_entry (List.mem_singleton_self _))
  rw [textCall, Code.lines]
  exact ⟨_, List.mem_singleton_self _, hvalue.trans ⟨"ui.Text(", ")", rfl⟩⟩

theorem shows_element (span : Option Span) (tag : Tag) (children : List Node) :
    Shows (lower (.element span tag children)).lines
      (if tag.isComponent then tag.name else if isLink tag then "Link"
        else methodName tag.name) := by
  rw [lower]
  split
  . rw [Code.lines]
    refine ⟨_, List.mem_singleton_self _, "ui.append(",
      s!"({configText (tag.props.map componentEntry)}))", ?_⟩
    simp only [String.append_assoc]
    rfl
  split
  . rw [Code.lines]
    refine ⟨_, List.mem_singleton_self _, "ui.append(",
      s!"({configText (linkConfig tag children)}))", ?_⟩
    simp only [String.append_assoc]
    rfl
  dsimp only
  generalize textEntries children ++ tag.props.map elementEntry ++ handlerEntries tag.events =
    config
  split
  . rw [Code.lines]
    refine ⟨_, List.mem_singleton_self _, "ui.", s!"({configText config})", ?_⟩
    simp only [String.append_assoc]
    rfl
  . rw [Code.lines]
    refine ⟨_, List.mem_cons_self, "ui.", s!"({configText config}, {Code.callback} \x7b", ?_⟩
    simp only [String.append_assoc]
    rfl

theorem occurs_guard (e : Expression) : Occurs e.raw (guard e).text := by
  refine ⟨s!"watch([{commas e.dependencies}], () => ", s!") as Ref<{valueType .condition}>", ?_⟩
  simp only [guard, Derived.text, String.append_assoc]
  rfl

theorem shows_native (condition : String) (body : List Code) (elseIfs : List (String × List Code))
    (otherwise : Option (List Code)) :
    ∀ text ∈ condition :: elseIfs.map (·.1),
      Shows (Code.native condition body elseIfs otherwise).lines text := by
  have helseIfs : ∀ text ∈ elseIfs.map (·.1), Shows (Code.elseIfLines elseIfs) text := by
    induction elseIfs with
    | nil => simp
    | cons branch rest ih =>
      rw [List.map_cons, List.forall_mem_cons, Code.elseIfLines]
      constructor
      . exact ⟨_, List.mem_cons_self, "\x7d else if (", ") \x7b", rfl⟩
      . intro text htext
        exact (ih text htext).right.cons
  rw [List.forall_mem_cons, Code.lines]
  constructor
  . exact ⟨_, List.mem_cons_self, "if (", ") \x7b", rfl⟩
  . intro text htext
    exact (helseIfs text htext).right.left.left.cons

theorem shows_reactive (condition : Expression) (body : List Code)
    (otherwise : Option (List Code)) :
    Shows (Code.reactive (guard condition) body otherwise).lines condition.raw := by
  rw [Code.lines]
  refine ⟨_, List.mem_cons_self,
    (occurs_guard condition).trans ⟨"ui.When(", s!", {Code.callback} \x7b", ?_⟩⟩
  simp only [String.append_assoc]
  rfl

theorem Shows.otherwise {codes : List Code} {opener : String}
    (h : Shows (Code.linesAll codes) text) :
    Shows (Code.otherwiseLines opener (some codes)) text := by
  rw [Code.otherwiseLines]
  exact h.indent.cons

theorem shows_branch (condition : Expression) (body : List Code)
    (rest : List (Expression × List Code)) (otherwise : Option (List Code)) :
    ∀ text ∈ condition.raw :: rest.map (·.1.raw),
      Shows (branch condition body rest otherwise).lines text := by
  induction rest generalizing condition body with
  | nil =>
    rw [List.map_nil, List.forall_mem_singleton]
    unfold branch
    split
    . exact shows_reactive condition body otherwise
    . exact shows_native condition.raw body [] otherwise _ List.mem_cons_self
  | cons next others ih =>
    obtain ⟨next, nextBody⟩ := next
    have hchain : ∀ text ∈ next.raw :: others.map (·.1.raw), ∀ opener,
        Shows (Code.otherwiseLines opener (some [branch next nextBody others otherwise])) text := by
      intro text htext opener
      apply Shows.otherwise
      rw [Code.linesAll, Code.linesAll, List.append_nil]
      exact ih next nextBody text htext
    rw [List.forall_mem_cons]
    unfold branch
    split
    . refine ⟨shows_reactive condition body _, fun text htext => ?_⟩
      rw [Code.lines]
      exact (hchain text htext _).right.left.cons
    split
    . refine ⟨shows_native condition.raw body [] _ _ List.mem_cons_self, fun text htext => ?_⟩
      rw [Code.lines]
      exact (hchain text htext _).right.left.cons
    . -- without a reactive condition the whole chain is one `if`
      rw [← List.forall_mem_cons]
      have hnative := shows_native condition.raw body
        (((next, nextBody) :: others).map fun b => (b.1.raw, b.2)) otherwise
      rw [List.map_map] at hnative
      exact hnative

theorem shows_loop (head : View.Loop) (body : List Code) :
    Shows (Code.loop (iteration head) head.prelude body).lines
      (if head.isReactive then (loopItems head).text else head.iterable) := by
  unfold iteration
  split
  . rw [Code.lines]
    apply Shows.cons
    apply Shows.left
    apply Shows.indent
    exact ⟨_, List.mem_cons_self, "items: ", ",", rfl⟩
  . rw [Code.lines]
    have hseparated : Occurs head.iterable (Code.separated head.iterable) := by
      unfold Code.separated
      split
      . exact ⟨";", "", by rw [String.append_empty]⟩
      . exact ⟨"", "", by simp⟩
    refine ⟨_, List.mem_cons_self,
      hseparated.trans ⟨"", s!".forEach(({head.item}, {indexName head}) => \x7b", ?_⟩⟩
    rw [String.empty_append]
    simp only [String.append_assoc]
    rfl

theorem shows_ownTexts (node : Node) : ∀ text ∈ ownTexts node, Shows (lower node).lines text := by
  cases node with
  | text span content =>
    rw [ownTexts, List.forall_mem_singleton, lower]
    exact shows_textCall (.plain (Json.literal content))
  | placeholder span raw reason =>
    rw [ownTexts, List.forall_mem_singleton, lower]
    exact shows_textCall (.plain (Json.literal raw))
  | expression span e =>
    rw [ownTexts, List.forall_mem_singleton, lower]
    obtain ⟨line, hline, hvalue⟩ := shows_textCall (value s!"String({e.raw})" e.dependencies .text)
    have hraw : Occurs e.raw s!"String({e.raw})" := ⟨"String(", ")", rfl⟩
    exact ⟨line, hline, (hraw.trans (occurs_value _ _ _)).trans hvalue⟩
  | element span tag children =>
    rw [ownTexts, List.forall_mem_singleton]
    exact shows_element span tag children
  | conditional span idiom isStatic condition body elseIfs otherwise =>
    have hbranch := shows_branch condition (lowerAll body) (lowerBranches elseIfs)
      (lowerOtherwise otherwise)
    rw [lowerBranches_eq_map, List.map_map, ← lowerBranches_eq_map] at hbranch
    rw [ownTexts, lower]
    exact hbranch
  | loop span head body =>
    rw [ownTexts, List.forall_mem_singleton, lower]
    exact shows_loop head (lowerAll body)

/-! ### Links -/

/-- What a link keeps of its tag. -/
def linkedTag (tag : Tag) : Tag :=
  { tag with
    props := tag.props.filter fun p => p.name == some "href" || p.name == some "className"
    events := [] }

/-- What a link keeps of its children: all of them or nothing. -/
def linkedChildren (children : List Node) : List Node :=
  if (textValue? children).isSome then children else []

theorem isLink_linkedTag (tag : Tag) : isLink (linkedTag tag) = isLink tag := by
  rw [isLink, isLink, linkedTag, List.any_filter]
  congr 2
  funext p
  cases p.name == some "href" <;> simp

theorem textEntries_linkedChildren (children : List Node) :
    textEntries (linkedChildren children) = textEntries children := by
  unfold linkedChildren
  split
  . rfl
  . next h =>
    rw [Bool.not_eq_true, Option.isSome_eq_false_iff, Option.isNone_iff_eq_none] at h
    rw [textEntries, textEntries, h]
    rfl

theorem lower_link (span : Option Span) (children : List Node)
    (hcomponent : tag.isComponent = false) (hlink : isLink tag = true) :
    lower (.element span tag children) =
      lower (.element span (linkedTag tag) (linkedChildren children)) ∧
      lost (.element span tag children) = [] := by
  have hcomponent' : (linkedTag tag).isComponent = false := hcomponent
  have hlink' := (isLink_linkedTag tag).trans hlink
  have htargets : (linkedTag tag).props.filter (·.name == some "href") =
      tag.props.filter (·.name == some "href") := by
    rw [linkedTag, List.filter_filter]
    congr 1
    funext p
    cases p.name == some "href" <;> simp
  have hclasses : (linkedTag tag).props.filter (·.name == some "className") =
      tag.props.filter (·.name == some "className") := by
    rw [linkedTag, List.filter_filter]
    congr 1
    funext p
    cases p.name == some "className" <;> simp
  -- the entries are picked by name, so that nothing changes if there are no others to pick from
  have hconfig : linkConfig tag children =
      linkConfig (linkedTag tag) (linkedChildren children) := by
    rw [linkConfig, linkConfig, htargets, hclasses, textEntries_linkedChildren]
  rw [lower, lower, lost]
  simp only [hcomponent, hcomponent', hlink, hlink', hconfig, Bool.false_eq_true, if_false, if_true,
    and_self]

/-! ### Components -/

/-- The node has its own lines, with its own texts, or it is a piece of the text in the line of an
element. -/
inductive Represented (root : List Node) (node : Node) : Prop where
  | lines (h : Stands (written root) (lower node).lines)
      (htexts : ∀ text ∈ ownTexts node, Shows (lower node).lines text)
  | text {span : Option Span} {tag : Tag} {children : List Node}
      (helement : Stands (written root) (lower (.element span tag children)).lines)
      (hmem : node ∈ children)
      (hline : (lower (.element span tag children)).lines.head? = some line)
      (hpiece : Piece node piece) (hoccurs : Occurs piece line)

/-- Nodes that follow one another in a node are written one after the other, each with its own lines
or as a piece of one text. -/
inductive InSequence (root : List Node) (parent : Node) (siblings : List Node) : Prop where
  | lines (h : Stands (written root) (siblings.flatMap fun node => (lower node).lines))
  | text (hparent : Stands (written root) (lower parent).lines)
      (hline : (lower parent).lines.head? = some line)
      (hpieces : List.Forall₂ Piece siblings pieces)
      (hoccurs : Occurs (String.join pieces) line)

/-- The node stands in the children of a component, and these are reported to be lost. -/
def Reported (root : List Node) (node : Node) : Prop :=
  ∃ span tag children, Among root (.element span tag children) ∧ tag.isComponent = true ∧
    Diagnostic.of (.componentChildren tag.name) span ∈ lostAll root ∧ Among children node

/-- The node stands in the children of a link, which are more than text. -/
def InLink (root : List Node) (node : Node) : Prop :=
  ∃ span tag children, Among root (.element span tag children) ∧ tag.isComponent = false ∧
    isLink tag = true ∧ textValue? children = none ∧ Among children node

theorem reported_of_component (hshown : Shown nodes (.element span tag children))
    (hcomponent : tag.isComponent = true) (h : Among children node) : Reported nodes node := by
  refine ⟨span, tag, children, hshown.among, hcomponent, hshown.mem_lostAll ?_, h⟩
  have hchildren : children.isEmpty = false := by
    obtain ⟨top, hmem, _⟩ := h.exists_top
    simpa using List.ne_nil_of_mem hmem
  rw [lost]
  simp [hcomponent, hchildren]

theorem represented_of_text (hshown : Shown nodes (.element span tag children))
    (hcomponent : tag.isComponent = false)
    (htext : textValue? children = some text) (h : Among children node) :
    Represented nodes node := by
  obtain ⟨hmem, piece, hpiece, hoccurs⟩ := piece_of_among htext h
  obtain ⟨line, hline, hconfig⟩ := exists_line span tag children
  have htext := occurs_text (mem_elementConfig htext hcomponent)
  exact .text hshown.stands hmem hline hpiece ((hoccurs.trans htext).trans hconfig)

theorem shown_or_lost (h : Among nodes node) :
    Shown nodes node ∨ (∃ piece, Piece node piece ∧ Represented nodes node) ∨ Reported nodes node ∨
      InLink nodes node := by
  rcases shown_or_closed h with hshown | ⟨span, tag, children, hshown, hclosed, hamong⟩
  . exact .inl hshown
  right
  cases hcomponent : tag.isComponent with
  | true => exact .inr (.inl (reported_of_component hshown hcomponent hamong))
  | false =>
    cases htext : textValue? children with
    | some text =>
      obtain ⟨_, piece, hpiece, _⟩ := piece_of_among htext hamong
      exact .inl ⟨piece, hpiece, represented_of_text hshown hcomponent htext hamong⟩
    | none =>
      cases hlink : isLink tag with
      | true =>
        exact .inr (.inr ⟨span, tag, children, hshown.among, hcomponent, hlink, htext, hamong⟩)
      | false => exact absurd ⟨hcomponent, hlink, htext⟩ hclosed

theorem inSequence_of_shown {siblings : List Node} (hshown : Shown nodes parent)
    (hmem : siblings ∈ blocks parent) :
    InSequence nodes parent siblings ∨
      ∀ node ∈ siblings, Reported nodes node ∨ InLink nodes node := by
  by_cases hopen : IsOpen parent
  . have hblock := hshown.stands.trans (stands_block hopen siblings hmem)
    rw [written_eq_flatMap siblings] at hblock
    exact .inl (.lines hblock)
  cases parent with
  | element span tag children =>
    obtain rfl := List.mem_singleton.mp hmem
    cases hcomponent : tag.isComponent with
    | true =>
      exact .inr fun node hnode => .inl (reported_of_component hshown hcomponent (.here hnode))
    | false =>
      cases htext : textValue? siblings with
      | some text =>
        obtain ⟨pieces, hpieces, hoccurs⟩ := exists_pieces htext
        obtain ⟨line, hline, hconfig⟩ := exists_line span tag siblings
        have htext := occurs_text (mem_elementConfig htext hcomponent)
        exact .inl (.text hshown.stands hline hpieces ((hoccurs.trans htext).trans hconfig))
      | none =>
        cases hlink : isLink tag with
        | true =>
          exact .inr fun node hnode =>
            .inr ⟨span, tag, siblings, hshown.among, hcomponent, hlink, htext, .here hnode⟩
        | false => exact absurd ⟨hcomponent, hlink, htext⟩ hopen
  | _ => exact absurd trivial hopen

theorem inSequence_of_among {siblings : List Node} (h : Among nodes parent)
    (hmem : siblings ∈ blocks parent) :
    InSequence nodes parent siblings ∨
      ∀ node ∈ siblings, Reported nodes node ∨ InLink nodes node := by
  have hpart : ∀ node ∈ siblings, node ∈ parent.parts := by
    rw [parts_eq_flatten]
    exact fun node => List.mem_flatten_of_mem hmem
  rcases shown_or_lost h with hshown | ⟨piece, hpiece, _⟩ | hreported | hlink
  . exact inSequence_of_shown hshown hmem
  . cases hpiece <;> cases hmem
  . obtain ⟨span, tag, children, hroot, hcomponent, hreport, hamong⟩ := hreported
    exact .inr fun node hnode =>
      .inl ⟨span, tag, children, hroot, hcomponent, hreport, .part hamong (hpart node hnode)⟩
  . obtain ⟨span, tag, children, hroot, hcomponent, hlink, htext, hamong⟩ := hlink
    exact .inr fun node hnode =>
      .inr ⟨span, tag, children, hroot, hcomponent, hlink, htext, .part hamong (hpart node hnode)⟩

end Builder
end ComponentCompiler
