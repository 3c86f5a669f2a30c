import ComponentCompiler.Diagnostic
import ComponentCompiler.Document.Basic
import ComponentCompiler.Name.Pattern
import ComponentCompiler.Scope.Group

/-!
This module contains the order in which the blocks of one scope are emitted. A block comes after
those that declare what it reads. Blocks that depend on each other stay together in their written
order, and are reported.
-/

namespace ComponentCompiler
namespace Scope

/-- For each block, the blocks that it depends on: the first that declares a name it reads, itself
apart. -/
def dependencies (blocks : List Block) : List (List Nat) :=
  blocks.mapIdx fun i block =>
    distinct ((block.references.filterMap owner?).filter (· ≠ i))
where
  owner? (name : String) : Option Nat :=
    blocks.findIdx? (·.declares.contains name)

/-- For each node the nodes of its group, in ascending order. -/
def mutualGroups (edges : List (List Nat)) : List (List Nat) :=
  let ids := groupIds edges
  let nodes := List.range edges.length
  nodes.map fun i => nodes.filter fun j => ids[j]? == ids[i]?

/-- Adds the group of a node to those that are emitted, after the groups that it depends on. The
first argument bounds how long a chain of groups can be. -/
def emit (edges groupOf : List (List Nat)) : Nat → List (List Nat) → Nat → List (List Nat)
  | 0, emitted, _ => emitted
  | n + 1, emitted, i =>
    if emitted.any (·.contains i) then
      emitted
    else
      let group := groupOf.getD i []
      let needed := (group.flatMap fun j => edges.getD j []).filter (!group.contains ·)
      needed.foldl (emit edges groupOf n) emitted ++ [group]

/-- The groups of nodes that reach each other. Each comes after those that it depends on, and no
earlier than the order of the nodes asks for. -/
def groups (edges : List (List Nat)) : List (List Nat) :=
  (List.range edges.length).foldl (emit edges (mutualGroups edges) (edges.length + 1)) []

/-- The places of the blocks in the order in which they are emitted. -/
def emission (blocks : List Block) : List Nat :=
  (groups (dependencies blocks)).flatten

/-- The report for blocks that depend on each other. -/
def cycle? (blocks : List Block) (group : List Nat) : Option Diagnostic :=
  match group.filterMap (blocks[·]?) with
  | first :: second :: more =>
    let names := (first :: second :: more).map fun block => "'" ++ block.label ++ "'"
    some (.of (.dependencyCycle (String.intercalate ", " names)) first.span none)
  | _ => none

/-- Orders blocks so that declarations come before their uses. Cycles are reported in the order of
their first blocks. -/
def order (blocks : List Block) : List Block × List Diagnostic :=
  let ordered := (emission blocks).filterMap (blocks[·]?)
  let cycles := (mutualGroups (dependencies blocks)).mapIdx fun i group =>
    if group.head? = some i then cycle? blocks group else none
  (ordered, cycles.filterMap id)

end Scope
end ComponentCompiler
