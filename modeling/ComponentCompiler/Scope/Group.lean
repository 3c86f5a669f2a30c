/-!
This module contains the groups of nodes of a graph that reach each other. One search in depth finds
them all: a group is complete once the search leaves the node of the group that it found first.
-/

namespace ComponentCompiler
namespace Scope

/-- How far a search is: the nodes in the order in which they were found, those whose group is still
open, the last one first, and the groups that are complete. -/
structure Search where
  found : List Nat := []
  opened : List Nat := []
  closed : List (List Nat) := []
  deriving DecidableEq, Repr

namespace Search

def index (s : Search) (node : Nat) : Nat :=
  s.found.idxOf node

def enter (s : Search) (node : Nat) : Search :=
  { s with found := s.found ++ [node], opened := node :: s.opened }

/-- Completes the group of a node: all that is open and was not found before it. -/
def close (s : Search) (node : Nat) : Search :=
  { s with
    opened := (s.opened.dropWhile (· ≠ node)).drop 1
    closed := s.closed ++ [s.opened.takeWhile (· ≠ node) ++ [node]] }

end Search

/-- Follows an edge. What is known is the search so far and the least index of an open node that was
seen, and `visit` does the same for a node that is new. -/
def follow (visit : Search → Nat → Nat × Search) (known : Nat × Search) (target : Nat) :
    Nat × Search :=
  if known.2.found.contains target then
    if known.2.opened.contains target then (min known.1 (known.2.index target), known.2) else known
  else
    let seen := visit known.2 target
    (min known.1 seen.1, seen.2)

/-- Searches on from a node that is new. The first argument bounds how many nodes the search can
enter one after the other. -/
def connect (edges : List (List Nat)) : Nat → Search → Nat → Nat × Search
  | 0, s, _ => (s.found.length, s)
  | n + 1, s, node =>
    let seen := (edges.getD node []).foldl (follow (connect edges n)) (s.found.length, s.enter node)
    if seen.1 = s.found.length then (seen.1, seen.2.close node) else seen

/-- The search that starts at every node which is not found yet. -/
def search (edges : List (List Nat)) : Search :=
  (List.range edges.length).foldl
    (fun s node => if s.found.contains node then s else (connect edges edges.length s node).2) {}

/-- For each node the number of its group. The groups are numbered as they get complete. -/
def groupIds (edges : List (List Nat)) : List (Option Nat) :=
  let closed := (search edges).closed
  (List.range edges.length).map fun node => closed.findIdx? (·.contains node)

end Scope
end ComponentCompiler
