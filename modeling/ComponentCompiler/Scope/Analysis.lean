import ComponentCompiler.Failure
import ComponentCompiler.Name.Free
import ComponentCompiler.Scope.Basic
import ComponentCompiler.Scope.Order

/-!
This module contains the placing of a document's blocks: which scope they go to, in which order, and
what they can not reach from there.
-/

namespace ComponentCompiler
namespace Scope

def firstPlaces (found : List (String × Span)) : List (String × Span) :=
  found.foldl (fun seen entry => if seen.any (·.1 == entry.1) then seen else seen ++ [entry]) []

def freeAt (source : String) (span : Span) : Except ScanError (List (String × Span)) := do
  return (← Name.free source []).map (·, span)

def attributeReferences : Markup.Attribute → Except ScanError (List (String × Span))
  | .expression span _ value | .spread span value => freeAt value span
  | _ => .ok []

mutual

/-- The names that the slots, attributes and spreads of a tree read, with their places. -/
def markupReferences : Markup.Node → Except ScanError (List (String × Span))
  | .slot span source => freeAt source span
  | .text _ _ => .ok []
  | .fragment _ children => markupListReferences children
  | .element _ _ attributes children => do
    let own ← attributes.mapM attributeReferences
    return own.flatten ++ (← markupListReferences children)

def markupListReferences : List Markup.Node → Except ScanError (List (String × Span))
  | [] => .ok []
  | node :: nodes => do return (← markupReferences node) ++ (← markupListReferences nodes)

end

/-- The names that a component reads from outside itself, each with its first place. -/
def Secondary.references (s : Secondary) : Except ScanError (List (String × Span)) := do
  let inner := s.component.parameters.flatMap (·.names) ++ s.uiBlocks.flatMap (·.declares)
  let inBlocks := s.uiBlocks.flatMap fun block => block.references.map (·, block.span)
  let found := firstPlaces (inBlocks ++ (← markupReferences s.component.markup))
  return found.filter (!inner.contains ·.1)

/-- The place of the main component: the default export, else the first export, else the first. -/
def mainIndex (components : List Component) : Nat :=
  match components.findIdx? (·.isDefault) with
  | some i => i
  | none => (components.findIdx? (·.isExported)).getD 0

def mainOf (document : Document) : Component :=
  document.components.getD (mainIndex document.components)
    (document.components.head document.components_ne_nil)

/-- The components but the main one, each with its blocks in order. -/
def others (document : Document) : List Secondary :=
  (document.components.eraseIdx (mainIndex document.components)).map fun c => ⟨c, (order c.body).1⟩

/-- The scope that a block goes to. Under either policy it is where the block comes from that
decides. -/
def Policy.target (_ : Policy) (block : Block) : Target :=
  match block.origin with
  | .topLevel => .componentScope
  | .componentBody => .uiScope

/-- The blocks outside components and those of the main one, as they go to the component scope and
to the UI scope. -/
def partition (document : Document) (policy : Policy) : List Block × List Block :=
  (document.blocks ++ (mainOf document).body).partition (policy.target · = .componentScope)

/-- A block of the component scope under a policy. A page function can not export. -/
def prepare (policy : Policy) (block : Block) : Block :=
  match policy with
  | .shared => block
  | .page => { block with isExported := false }

def relocated? (policy : Policy) (block : Block) : Option Diagnostic :=
  if policy = .page && block.isExported then
    let symbol :=
      match block.declares.head? with
      | none | some "" => block.source
      | some name => name
    some (.of (.exportRelocated symbol) block.span none)
  else
    none

/-- Reports what blocks of the component scope read from inside a component. -/
def uiReferences (componentBlocks : List Block) (scopes : List (Component × List Block)) :
    List Diagnostic :=
  let shared := componentBlocks.flatMap (·.declares)
  let owners := scopes.flatMap fun (component, blocks) =>
    blocks.flatMap fun block => block.declares.map (·, component.name)
  componentBlocks.flatMap fun block =>
    block.references.filterMap fun name =>
      if shared.contains name then
        none
      else
        (owners.lookup name).map fun component =>
          .of (.uiReference name component block.label) block.span none

/-- Reports what another component reads from inside the page function. -/
def unreachable (policy : Policy) (main : Component) (componentBlocks : List Block)
    (secondary : Secondary) : Except ScanError (List Diagnostic) := do
  match policy with
  | .shared => return []
  | .page =>
    let declared := componentBlocks.flatMap (·.declares)
    return (← secondary.references).filterMap fun (name, span) =>
      if declared.contains name then
        some (.of (.unreachablePageSymbol name main.name secondary.component.name) span none)
      else
        none

def analyse (document : Document) (policy : Policy) : Except Failure Scoped := do
  let main := mainOf document
  let (shared, inner) := partition document policy
  let relocated := shared.filterMap (relocated? policy)
  let (componentBlocks, cycles) := order (shared.map (prepare policy))
  let (uiBlocks, uiCycles) := order inner
  let secondary := others document
  let scopes := (main, uiBlocks) :: secondary.map fun s => (s.component, s.uiBlocks)
  let lost ← (secondary.mapM (unreachable policy main componentBlocks)).mapError .scan
  return {
    file := document.file
    policy
    placement := policy.placement
    metadata := document.metadata
    imports := document.imports
    moduleStatements := document.moduleStatements
    componentBlocks
    uiBlocks
    main
    secondary
    diagnostics := relocated ++ cycles ++ uiCycles ++
      secondary.flatMap (fun s => (order s.component.body).2) ++
      uiReferences componentBlocks scopes ++ lost.flatten }

end Scope
end ComponentCompiler
