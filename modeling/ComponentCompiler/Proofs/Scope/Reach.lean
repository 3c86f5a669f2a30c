import ComponentCompiler.Scope.Order
import Mathlib.Data.List.Induction
import Mathlib.Data.List.Nodup
import Mathlib.Data.List.Perm.Subperm
import Mathlib.Logic.Relation

/-!
This module contains what can be reached along edges, and lists of nodes that no edge leads out of.
-/

namespace ComponentCompiler

theorem distinct_concat [BEq α] (items : List α) (item : α) :
    distinct (items ++ [item])
      =
    if (distinct items).contains item then distinct items else distinct items ++ [item] := by
  unfold distinct
  rw [List.foldl_append]
  rfl

@[simp]
theorem mem_distinct [BEq α] [LawfulBEq α] {a : α} {items : List α} :
    a ∈ distinct items ↔ a ∈ items := by
  induction items using List.reverseRecOn with
  | nil => simp [distinct]
  | append_singleton items item ih =>
    rw [distinct_concat]
    split
    next h =>
      rw [List.contains_iff_mem] at h
      rw [List.mem_append, List.mem_singleton, ih]
      constructor
      . exact .inl
      . rintro (h' | rfl)
        . exact h'
        . exact ih.mp h
    next => simp [ih]

theorem nodup_distinct [BEq α] [LawfulBEq α] (items : List α) : (distinct items).Nodup := by
  induction items using List.reverseRecOn with
  | nil => simp [distinct]
  | append_singleton items item ih =>
    rw [distinct_concat]
    split
    . exact ih
    next h =>
      rw [List.contains_iff_mem] at h
      rw [List.nodup_append]
      refine ⟨ih, List.nodup_singleton item, ?_⟩
      rintro a ha b hb rfl
      rw [List.mem_singleton] at hb
      exact h (hb ▸ ha)

namespace Scope

variable {edges : List (List Nat)} {nodes : List Nat} {i j n : Nat}

def Edge (edges : List (List Nat)) (i j : Nat) : Prop :=
  j ∈ edges.getD i []

abbrev Reaches (edges : List (List Nat)) : Nat → Nat → Prop :=
  Relation.ReflTransGen (Edge edges)

/-- Every edge ends at a node. -/
def Bounded (edges : List (List Nat)) : Prop :=
  ∀ i j, Edge edges i j → j < edges.length

theorem bounded_iff : Bounded edges ↔ ∀ targets ∈ edges, ∀ j ∈ targets, j < edges.length := by
  constructor
  . intro h targets htargets j hj
    obtain ⟨i, hi, rfl⟩ := List.getElem_of_mem htargets
    apply h i j
    rwa [Edge, List.getD_eq_getElem?_getD, List.getElem?_eq_getElem hi, Option.getD_some]
  . intro h i j hedge
    rw [Edge, List.getD_eq_getElem?_getD] at hedge
    cases hi : edges[i]? with
    | none => simp [hi] at hedge
    | some targets =>
      rw [hi, Option.getD_some] at hedge
      exact h targets (List.mem_of_getElem? hi) j hedge

instance : Decidable (Bounded edges) :=
  decidable_of_iff _ bounded_iff.symm

theorem Bounded.of_reaches (hb : Bounded edges) (hi : i < edges.length) (h : Reaches edges i j) :
    j < edges.length := by
  cases h with
  | refl => exact hi
  | tail _ hedge => exact hb _ _ hedge

def Saturated (edges : List (List Nat)) (nodes : List Nat) : Prop :=
  ∀ i ∈ nodes, ∀ j, Edge edges i j → j ∈ nodes

theorem Saturated.reaches (h : Saturated edges nodes) (hi : i ∈ nodes) (hr : Reaches edges i j) :
    j ∈ nodes := by
  induction hr with
  | refl => exact hi
  | tail _ hedge ih => exact h _ ih _ hedge

theorem length_le_of_lt (hnodup : nodes.Nodup) (h : ∀ i ∈ nodes, i < n) : nodes.length ≤ n := by
  have hsub : nodes ⊆ List.range n := fun i hi => List.mem_range.mpr (h i hi)
  simpa using (List.subperm_of_subset hnodup hsub).length_le

end Scope
end ComponentCompiler
