import ComponentCompiler.Builder.Lowering
import ComponentCompiler.Proofs.View.Reactivity

/-!
This module contains that every derived value in the code of analysed markup has something to be
derived from.
-/

namespace ComponentCompiler
namespace Builder

open View (Coherent Expression Property Loop)

def Value.derived? : Value → Option Derived
  | .plain _ => none
  | .derived d => some d

def Entry.derived? : Entry → Option Derived
  | .field _ value => value.derived?
  | .spread _ => none
  | .handlers _ => none

/-- The derived values that a piece of code itself creates. -/
def Code.derived : Code → List Derived
  | .call _ config _ | .component _ config | .link config => config.filterMap Entry.derived?
  | .native .. => []
  | .reactive guard _ _ => [guard]
  | .loop (.native ..) _ _ => []
  | .loop (.keyed items ..) _ _ => items.derived?.toList

def Grounded (parts : List Code) : Prop :=
  ∀ part ∈ parts, ∀ d ∈ part.derived, d.dependencies ≠ []

def Value.IsGrounded (value : Value) : Prop :=
  ∀ d ∈ value.derived?, d.dependencies ≠ []

def Entry.IsGrounded (entry : Entry) : Prop :=
  ∀ d ∈ entry.derived?, d.dependencies ≠ []

variable {nodes : List View.Node} {body : List Code} {otherwise : Option (List Code)}

theorem grounded_nil : Grounded [] := by
  simp [Grounded]

theorem grounded_append : Grounded (first ++ second) ↔ Grounded first ∧ Grounded second :=
  List.forall_mem_append

theorem grounded_cons :
    Grounded (part :: parts) ↔ (∀ d ∈ part.derived, d.dependencies ≠ []) ∧ Grounded parts :=
  List.forall_mem_cons

theorem isGrounded_plain (text : String) : (Value.plain text).IsGrounded := by
  simp [Value.IsGrounded, Value.derived?]

theorem isGrounded_value (expression : String) (dependencies : List String) (role : View.Role) :
    (value expression dependencies role).IsGrounded := by
  unfold value
  split
  . apply isGrounded_plain
  . next h => simpa [Value.IsGrounded, Value.derived?] using h

theorem isGrounded_propertyValue {p : Property} (h : p.isReactive = true ↔ p.dependencies ≠ []) :
    (propertyValue p).IsGrounded := by
  unfold propertyValue
  split
  . next hreactive => simpa [Value.IsGrounded, Value.derived?] using h.mp hreactive
  . apply isGrounded_plain

theorem isGrounded_textEntries (children : List View.Node) :
    ∀ entry ∈ textEntries children, entry.IsGrounded := by
  intro entry hentry
  simp only [textEntries, Option.mem_toList, Option.map_eq_some_iff] at hentry
  obtain ⟨text, htext, rfl⟩ := hentry
  change text.IsGrounded
  unfold textValue? at htext
  split at htext
  . cases htext
  . cases htext
    apply isGrounded_plain
  . obtain ⟨parts, _, h⟩ := Option.bind_eq_some_iff.mp htext
    cases h
    apply isGrounded_value

theorem grounded_config {config : List Entry} (h : ∀ entry ∈ config, entry.IsGrounded) :
    ∀ d ∈ config.filterMap Entry.derived?, d.dependencies ≠ [] := by
  intro d hd
  obtain ⟨entry, hentry, hd⟩ := List.mem_filterMap.mp hd
  exact h entry hentry d hd

theorem grounded_textCall {v : Value} (h : v.IsGrounded) : Grounded (textCall v).parts := by
  rw [textCall, Code.parts, Code.otherwiseParts, grounded_cons]
  refine ⟨grounded_config ?_, grounded_nil⟩
  intro entry hentry
  cases List.mem_singleton.mp hentry
  exact h

theorem isGrounded_propEntries {tag : View.Tag}
    (h : ∀ p ∈ tag.props, p.isReactive = true ↔ p.dependencies ≠ []) :
    (∀ entry ∈ tag.props.map elementEntry, entry.IsGrounded) ∧
      ∀ entry ∈ tag.props.map componentEntry, entry.IsGrounded := by
  rw [List.forall_mem_map, List.forall_mem_map]
  constructor
  . intro p hp
    unfold elementEntry
    split
    . simp [Entry.IsGrounded, Entry.derived?]
    . exact isGrounded_propertyValue (h p hp)
  . intro p hp
    unfold componentEntry
    split
    . simp [Entry.IsGrounded, Entry.derived?]
    . exact isGrounded_plain p.value

theorem isGrounded_linkConfig {tag : View.Tag}
    (h : ∀ p ∈ tag.props, p.isReactive = true ↔ p.dependencies ≠ [])
    (children : List View.Node) : ∀ entry ∈ linkConfig tag children, entry.IsGrounded := by
  have hfields : ∀ name (test : Property → Bool),
      ∀ entry ∈ (tag.props.filter test).map fun p => Entry.field name (propertyValue p),
      entry.IsGrounded := by
    intro name test
    rw [List.forall_mem_map]
    intro p hp
    exact isGrounded_propertyValue (h p (List.mem_filter.mp hp).1)
  have hentries := List.forall_mem_append.mpr
    ⟨fun entry hentry => hfields "to" (·.name == some "href") entry (List.mem_reverse.mp hentry),
      hfields "className" (·.name == some "className")⟩
  intro entry hentry
  unfold linkConfig at hentry
  simp only [List.append_assoc, List.mem_append (s := List.take _ _)] at hentry
  rcases hentry with hentry | hentry
  . exact hentries entry (List.mem_of_mem_take hentry)
  rcases List.mem_append.mp hentry with hentry | hentry
  . exact isGrounded_textEntries children entry hentry
  . exact hentries entry (List.mem_of_mem_drop hentry)

theorem grounded_elseIfParts {rest : List (String × List Code)}
    (h : ∀ branch ∈ rest, Grounded (Code.partsAll branch.2)) :
    Grounded (Code.elseIfParts rest) := by
  induction rest with
  | nil => exact grounded_nil
  | cons branch rest ih =>
    rw [List.forall_mem_cons] at h
    rw [Code.elseIfParts, grounded_append]
    exact ⟨h.1, ih h.2⟩

theorem grounded_guard {condition : Expression} (h : condition.isReactive = true) :
    ∀ d ∈ (Code.reactive (guard condition) body otherwise).derived, d.dependencies ≠ [] := by
  intro d hd
  rw [List.mem_singleton.mp hd]
  simpa [Expression.isReactive, guard] using h

theorem grounded_branch {rest : List (Expression × List Code)} (condition : Expression)
    (hbody : Grounded (Code.partsAll body))
    (hrest : ∀ branch ∈ rest, Grounded (Code.partsAll branch.2))
    (hotherwise : Grounded (Code.otherwiseParts otherwise)) :
    Grounded (branch condition body rest otherwise).parts := by
  induction rest generalizing condition body with
  | nil =>
    unfold branch
    split
    . next hreactive =>
      rw [Code.parts, grounded_cons, grounded_append]
      exact ⟨grounded_guard hreactive, hbody, hotherwise⟩
    . rw [Code.parts, grounded_cons, grounded_append, grounded_append]
      exact ⟨by simp [Code.derived], ⟨hbody, grounded_nil⟩, hotherwise⟩
  | cons next others ih =>
    obtain ⟨condition', body'⟩ := next
    have hchain := ih condition' (hrest _ List.mem_cons_self) fun b hb =>
      hrest b (List.mem_cons_of_mem _ hb)
    have helse : Grounded
        (Code.otherwiseParts (some [branch condition' body' others otherwise])) := by
      rw [Code.otherwiseParts, Code.partsAll, Code.partsAll, List.append_nil]
      exact hchain
    unfold branch
    split
    . next hreactive =>
      rw [Code.parts, grounded_cons, grounded_append]
      exact ⟨grounded_guard hreactive, hbody, helse⟩
    split
    . rw [Code.parts, grounded_cons, grounded_append, grounded_append]
      exact ⟨by simp [Code.derived], ⟨hbody, grounded_nil⟩, helse⟩
    . rw [Code.parts, grounded_cons, grounded_append, grounded_append]
      refine ⟨by simp [Code.derived], ⟨hbody, grounded_elseIfParts ?_⟩, hotherwise⟩
      rw [List.forall_mem_map]
      exact hrest

theorem grounded_iteration {head : Loop} (h : head.isReactive = true ↔ head.dependencies ≠ []) :
    ∀ d ∈ (Code.loop (iteration head) statements body).derived, d.dependencies ≠ [] := by
  unfold iteration
  split
  . next hreactive =>
    have hderived := h.mp hreactive
    unfold loopItems
    dsimp only [Code.derived]
    split
    . split
      . simp [Value.derived?]
      . simpa [Value.derived?] using hderived
    . simpa [Value.derived?] using hderived
  . simp [Code.derived]

theorem grounded_lowerAll (h : ∀ node ∈ nodes, Grounded (lower node).parts) :
    Grounded (Code.partsAll (lowerAll nodes)) := by
  induction nodes with
  | nil => exact grounded_nil
  | cons node nodes ih =>
    rw [List.forall_mem_cons] at h
    rw [lowerAll, Code.partsAll, grounded_append]
    exact ⟨h.1, ih h.2⟩

theorem grounded_lowerBranches {branches : List (Expression × List View.Node)}
    (h : ∀ branch ∈ branches, ∀ node ∈ branch.2, Grounded (lower node).parts) :
    ∀ branch ∈ lowerBranches branches, Grounded (Code.partsAll branch.2) := by
  induction branches with
  | nil => simp [lowerBranches]
  | cons branch branches ih =>
    rw [List.forall_mem_cons] at h
    obtain ⟨condition, body⟩ := branch
    rw [lowerBranches, List.forall_mem_cons]
    exact ⟨grounded_lowerAll h.1, ih h.2⟩

theorem grounded_lowerOtherwise {otherwise : Option (List View.Node)}
    (h : ∀ nodes, otherwise = some nodes → ∀ node ∈ nodes, Grounded (lower node).parts) :
    Grounded (Code.otherwiseParts (lowerOtherwise otherwise)) := by
  cases otherwise with
  | none => exact grounded_nil
  | some nodes => exact grounded_lowerAll (h nodes rfl)

theorem grounded_lower {node : View.Node} (h : Coherent tree ctx node) :
    Grounded (lower node).parts := by
  induction h with
  | text =>
    rw [lower]
    exact grounded_textCall (isGrounded_plain _)
  | placeholder =>
    rw [lower]
    exact grounded_textCall (isGrounded_plain _)
  | expression =>
    rw [lower]
    exact grounded_textCall (isGrounded_value _ _ _)
  | element hreactive _ _ ih =>
    have hentries := isGrounded_propEntries hreactive
    rw [lower]
    split
    . rw [Code.parts, grounded_cons]
      exact ⟨grounded_config hentries.2, grounded_nil⟩
    split
    . rw [Code.parts, grounded_cons]
      exact ⟨grounded_config (isGrounded_linkConfig hreactive _), grounded_nil⟩
    . rw [Code.parts, grounded_cons]
      constructor
      . apply grounded_config
        rw [List.forall_mem_append, List.forall_mem_append]
        refine ⟨⟨isGrounded_textEntries _, hentries.1⟩, ?_⟩
        intro entry hentry
        unfold handlerEntries at hentry
        split at hentry
        . simp at hentry
        . cases List.mem_singleton.mp hentry
          simp [Entry.IsGrounded, Entry.derived?]
      . split
        . exact grounded_nil
        . exact grounded_lowerAll ih
  | conditional _ _ _ _ _ hbody helseIfs hotherwise =>
    rw [lower]
    exact grounded_branch _ (grounded_lowerAll hbody) (grounded_lowerBranches helseIfs)
      (grounded_lowerOtherwise hotherwise)
  | loop _ hreactive _ _ ih =>
    rw [lower, Code.parts, grounded_cons]
    exact ⟨grounded_iteration hreactive, grounded_lowerAll ih⟩

end Builder

namespace View

/-- What is said about reactivity is right from the analysis of a component to its code. In the tree
at any depth, properties, loops and conditionals are reactive exactly if they have dependencies.
These are distinct containers that are known or that the expression reads by their values, and none
of them is a name that the callback of a loop around it binds. Whatever the code of the tree derives
is derived from at least one of them. -/
theorem reactivity_of_analyse (component : ComponentCompiler.Component) (reactive : List String)
    (view : Component) (h : analyse component reactive = .ok view) :
    (∀ node ∈ view.root, Coherent component.markup { reactive } node) ∧
    ∀ part ∈ Builder.Code.partsAll (Builder.lowerAll view.root), ∀ d ∈ part.derived,
      d.dependencies ≠ [] := by
  have hcoherent := coherent_of_analyse h
  exact ⟨hcoherent, Builder.grounded_lowerAll fun node hnode =>
    Builder.grounded_lower (hcoherent node hnode)⟩

/-- A condition that reads a container, the code of which derives it. -/
theorem reactivity_of_analyse_guard :
    let component : ComponentCompiler.Component :=
      ⟨default, "A", true, true, [], [], .slot default "n && <b/>"⟩
    ∃ view, analyse component ["n"] = .ok view ∧
      (∀ node ∈ view.root, Coherent component.markup ⟨["n"], []⟩ node) ∧
      (∃ part ∈ Builder.Code.partsAll (Builder.lowerAll view.root), part.derived ≠ []) ∧
      ∀ part ∈ Builder.Code.partsAll (Builder.lowerAll view.root), ∀ d ∈ part.derived,
      d.dependencies ≠ [] := by
  intro component
  have hview : ((analyse component ["n"]).toOption.any fun view =>
      (Builder.Code.partsAll (Builder.lowerAll view.root)).any fun part => !part.derived.isEmpty) =
        true := by
    decide +kernel
  obtain ⟨view, hview, hparts⟩ := exists_ok_of_any hview
  obtain ⟨part, hpart, hderived⟩ := List.any_eq_true.mp hparts
  obtain ⟨hcoherent, hgrounded⟩ := reactivity_of_analyse component ["n"] view hview
  exact ⟨view, hview, hcoherent, ⟨part, hpart, by simpa using hderived⟩, hgrounded⟩

end View
end ComponentCompiler
