import ComponentCompiler.Proofs.Scope.Order

/-!
This module contains that the order of the blocks of one scope is topological as far as it can be.
What a block needs comes before it, unless the two need each other; blocks that do stay together as
they were written.
-/

namespace ComponentCompiler
namespace Scope

variable {edges : List (List Nat)} {blocks : List Block} {i j : Nat} {name : String}

/-- The block at this place declares the name. -/
def DeclaresAt (blocks : List Block) (name : String) (j : Nat) : Prop :=
  ∃ block, blocks[j]? = some block ∧ name ∈ block.declares

/-- The block at place `i` reads a name which the block at place `j`, another one, is the first of
all to declare. -/
def Needs (blocks : List Block) (i j : Nat) : Prop :=
  i ≠ j ∧ ∃ block, blocks[i]? = some block ∧ ∃ name ∈ block.references,
    DeclaresAt blocks name j ∧ ∀ k < j, ¬ DeclaresAt blocks name k

/-- The block at place `i` reads a name which the block at place `j` is the first to declare, not
counting the block at place `i` itself. -/
def NeedsOther (blocks : List Block) (i j : Nat) : Prop :=
  i ≠ j ∧ ∃ block, blocks[i]? = some block ∧ ∃ name ∈ block.references,
    DeclaresAt blocks name j ∧ ∀ k < j, k ≠ i → ¬ DeclaresAt blocks name k

open dependencies (owner?) in
theorem owner?_eq_some :
    owner? blocks name = some j ↔ DeclaresAt blocks name j ∧
      ∀ k < j, ¬ DeclaresAt blocks name k := by
  have hdeclares (k : Nat) (hk : k < blocks.length) :
      DeclaresAt blocks name k ↔ blocks[k].declares.contains name = true := by
    simp [DeclaresAt, List.getElem?_eq_getElem hk]
  unfold owner?
  rw [List.findIdx?_eq_some_iff_getElem]
  constructor
  . rintro ⟨hj, hname, hfirst⟩
    refine ⟨(hdeclares j hj).mpr hname, fun k hk => ?_⟩
    rw [hdeclares k (Nat.lt_trans hk hj)]
    exact hfirst k hk
  . rintro ⟨⟨block, hblock, hname⟩, hfirst⟩
    obtain ⟨hj, rfl⟩ := List.getElem?_eq_some_iff.mp hblock
    refine ⟨hj, List.contains_iff_mem.mpr hname, fun k hk => ?_⟩
    rw [← hdeclares k (Nat.lt_trans hk hj)]
    exact hfirst k hk

theorem edge_iff_needs : Edge (dependencies blocks) i j ↔ Needs blocks i j := by
  rw [edge_dependencies]
  simp only [owner?_eq_some]
  rfl

theorem edge_dependencies_eq : Edge (dependencies blocks) = Needs blocks := by
  funext i j
  exact propext edge_iff_needs

theorem needsOther_eq (h : ∀ block ∈ blocks, ∀ name ∈ block.references, name ∉ block.declares) :
    NeedsOther blocks = Needs blocks := by
  funext i j
  apply propext
  constructor
  . rintro ⟨hne, block, hblock, name, hname, hdeclares, hfirst⟩
    refine ⟨hne, block, hblock, name, hname, hdeclares, fun k hk hk' => ?_⟩
    by_cases hki : k = i
    . obtain ⟨other, hother, hown⟩ := hk'
      rw [hki, hblock, Option.some.injEq] at hother
      subst hother
      exact h block (List.mem_of_getElem? hblock) name hname hown
    . exact hfirst k hk hki hk'
  . rintro ⟨hne, block, hblock, name, hname, hdeclares, hfirst⟩
    exact ⟨hne, block, hblock, name, hname, hdeclares, fun k hk _ => hfirst k hk⟩

/-- These places of blocks are in an order that respects what the blocks need. -/
structure Sorts (blocks : List Block) (needs : Nat → Nat → Prop) (places : List Nat) : Prop where
  perm : places.Perm (List.range blocks.length)
  /-- What is needed comes first, unless it needs what needs it. -/
  needed : ∀ i j, needs i j → ¬ Relation.ReflTransGen needs j i → places.idxOf j < places.idxOf i
  /-- Those that need each other follow one another as they were written. -/
  together : ∀ i < blocks.length, ∃ before group after, places = before ++ group ++ after ∧
    (∀ j, j ∈ group ↔ Relation.ReflTransGen needs i j ∧ Relation.ReflTransGen needs j i) ∧
    group.Pairwise (· < ·)

theorem pairwise_groupOf (hi : i < edges.length) : (groupOf edges i).Pairwise (· < ·) := by
  rw [groupOf_eq hi]
  apply List.Pairwise.filter
  apply List.pairwise_lt_range

theorem exists_split_groups (hb : Bounded edges) (hi : i < edges.length) :
    ∃ before after, groups edges = before ++ groupOf edges i :: after := by
  have h := emits_groups hb
  have hmem := h.covers i (List.mem_range.mpr hi)
  exact List.append_of_mem (h.ordered.group_of_mem hb hmem).2

theorem idxOf_lt_of_mem_left {before after : List Nat} (hj : j ∈ before) (hi : i ∉ before) :
    (before ++ after).idxOf j < (before ++ after).idxOf i := by
  have hlt := List.idxOf_lt_length_of_mem hj
  rw [List.idxOf_append_of_mem hj, List.idxOf_append_of_notMem hi]
  omega

theorem idxOf_groups_lt (hb : Bounded edges) (hedge : Edge edges i j)
    (hback : ¬ Reaches edges j i) :
    (groups edges).flatten.idxOf j < (groups edges).flatten.idxOf i := by
  have hi : i < edges.length := by
    apply Nat.lt_of_not_le
    intro hle
    simp [Edge, List.getD_eq_getElem?_getD, List.getElem?_eq_none hle] at hedge
  have hordered := (emits_groups hb).ordered
  have hself := self_mem_groupOf hb hi
  obtain ⟨before, after, hgroups⟩ := exists_split_groups hb hi
  have hnodup := hordered.nodup
  -- the edge does not stay in the group, so it leads to one before it
  have hj : j ∈ before.flatten := by
    rcases hordered.depends before _ after hgroups i hself j hedge with hj | hj
    . exact absurd ((mem_groupOf hb hi).mp hj).2 hback
    . exact hj
  rw [hgroups, List.flatten_append, List.flatten_cons] at hnodup ⊢
  apply idxOf_lt_of_mem_left hj
  intro hi'
  exact (List.nodup_append.mp hnodup).2.2 i hi' i (by simp [hself]) rfl

theorem sorts_emission : Sorts blocks (Needs blocks) (emission blocks) := by
  have hb := @bounded_dependencies blocks
  rw [← edge_dependencies_eq]
  constructor
  . exact emission_perm
  . intro i j hedge hback
    exact idxOf_groups_lt hb hedge hback
  . intro i hi
    rw [← @length_dependencies blocks] at hi
    obtain ⟨before, after, hgroups⟩ := exists_split_groups hb hi
    refine ⟨before.flatten, groupOf (dependencies blocks) i, after.flatten, ?_, ?_,
      pairwise_groupOf hi⟩
    . rw [emission, hgroups, List.flatten_append, List.flatten_cons, List.append_assoc]
    . intro j
      exact mem_groupOf hb hi

/-- The order of blocks is a permutation of them. The places that it takes them from are sorted by
what the blocks need: each needed block comes before the one that needs it, except among blocks that
need each other, and these follow one another as they were written. Where no block reads a name that
it declares, a block that needs another one needs the first of the others to declare the name. -/
theorem order_sorts (blocks : List Block) :
    (order blocks).1.Perm blocks ∧ ∃ places, (order blocks).1.map some = places.map (blocks[·]?) ∧
      Sorts blocks (Needs blocks) places ∧
      ((∀ block ∈ blocks, ∀ name ∈ block.references, name ∉ block.declares) →
        Sorts blocks (NeedsOther blocks) places) := by
  refine ⟨order_perm, emission blocks, map_some_order, sorts_emission, fun h => ?_⟩
  rw [needsOther_eq h]
  exact sorts_emission

end Scope
end ComponentCompiler
