import ComponentCompiler.Proofs.Scope.Topological
import Mathlib.Data.List.Sort

/-!
This module contains what ordering leaves in its place. A block is moved before an earlier one only
if that one, or one before it, needs it; blocks that no other block reads from stay in order.
-/

namespace ComponentCompiler
namespace Scope

variable {edges groupOf emitted : List (List Nat)} {nodes : List Nat} {blocks : List Block}
    {i j n m : Nat}

theorem prefix_foldl {step : List β → α → List β} (hstep : ∀ done a, done <+: step done a)
    (items : List α) (done : List β) : done <+: items.foldl step done := by
  induction items generalizing done with
  | nil => exact List.prefix_refl done
  | cons a items ih => exact (hstep done a).trans (ih (step done a))

theorem prefix_emit (emitted : List (List Nat)) (i : Nat) :
    emitted <+: emit edges groupOf n emitted i := by
  induction n generalizing emitted i with
  | zero => exact List.prefix_refl emitted
  | succ n ih =>
    unfold emit
    split
    . exact List.prefix_refl emitted
    . exact (prefix_foldl ih _ _).trans (List.prefix_append _ _)

theorem prefix_groups (h : n ≤ edges.length) :
    (List.range n).foldl (emit edges (mutualGroups edges) (edges.length + 1))
    [] <+: groups edges := by
  have hrange : List.range edges.length =
      List.range n ++ (List.range (edges.length - n)).map (n + ·) := by
    rw [← List.range_add, Nat.add_sub_cancel' h]
  unfold groups
  rw [hrange, List.foldl_append]
  apply prefix_foldl
  intro emitted i
  exact prefix_emit emitted i

theorem reaches_of_idxOf_lt (hb : Bounded edges) (hi : i < edges.length)
    (h : (groups edges).flatten.idxOf j < (groups edges).flatten.idxOf i) :
    ∃ k ≤ i, Reaches edges k j := by
  have hemits := emits_range hb (Nat.succ_le_of_lt hi)
  obtain ⟨after, hgroups⟩ := prefix_groups (Nat.succ_le_of_lt hi)
  rw [← hgroups, List.flatten_append] at h
  generalize (List.range (i + 1)).foldl (emit edges (mutualGroups edges) (edges.length + 1)) [] =
    before at hemits h
  have hi' : i ∈ before.flatten := hemits.covers i (List.mem_range.mpr (Nat.lt_succ_self i))
  -- the emission for `i` and those before it ends after `i`, so `j` is a part of it
  have hj : j ∈ before.flatten := by
    by_contra hout
    have hlt := List.idxOf_lt_length_of_mem hi'
    rw [List.idxOf_append_of_mem hi', List.idxOf_append_of_notMem hout] at h
    omega
  rcases hemits.reached j hj with hnone | ⟨k, hk, hreaches⟩
  . simp at hnone
  . rw [List.mem_range] at hk
    exact ⟨k, Nat.le_of_lt_succ hk, hreaches⟩

/-- No other block reads a name that the block at this place declares. -/
def Unread (blocks : List Block) (j : Nat) : Prop :=
  ∀ i ≠ j, ∀ block, blocks[i]? = some block → ∀ name ∈ block.references, ¬ DeclaresAt blocks name j

theorem Unread.of_declares_nil (h : ∀ block, blocks[j]? = some block → block.declares = []) :
    Unread blocks j := by
  rintro i _ _ _ name _ ⟨block, hblock, hname⟩
  rw [h block hblock] at hname
  exact List.not_mem_nil hname

theorem Unread.not_needs (h : Unread blocks j) : ¬ Needs blocks i j := by
  rintro ⟨hne, block, hblock, name, hname, hdeclares, _⟩
  exact h i hne block hblock name hname hdeclares

theorem mem_emission : i ∈ emission blocks ↔ i < blocks.length := by
  rw [emission_perm.mem_iff, List.mem_range]

theorem nodup_emission : (emission blocks).Nodup :=
  emission_perm.nodup_iff.mpr List.nodup_range

theorem needed_of_overtakes (hi : i < blocks.length)
    (h : (emission blocks).idxOf j < (emission blocks).idxOf i) :
    ∃ k ≤ i, Relation.ReflTransGen (Needs blocks) k j := by
  rw [← @length_dependencies blocks] at hi
  rw [← edge_dependencies_eq]
  exact reaches_of_idxOf_lt bounded_dependencies hi h

theorem idxOf_emission_lt (hij : i < j) (hj : j < blocks.length) (h : ∀ k, ¬ Needs blocks k j) :
    (emission blocks).idxOf i < (emission blocks).idxOf j := by
  have hi := Nat.lt_trans hij hj
  have hne : (emission blocks).idxOf i ≠ (emission blocks).idxOf j :=
    mt (List.idxOf_inj (mem_emission.mpr hi)).mp (Nat.ne_of_lt hij)
  by_contra hle
  obtain ⟨k, hk, hreaches⟩ := needed_of_overtakes hi (j := j) (by omega)
  rcases hreaches.cases_tail with heq | ⟨l, _, hneeds⟩
  . omega
  . exact h l hneeds

theorem pairwise_of_idxOf_lt {places : List Nat} {R : Nat → Nat → Prop} (hnodup : places.Nodup)
    (h : ∀ i ∈ places, ∀ j ∈ places, places.idxOf i < places.idxOf j → R i j) :
    places.Pairwise R := by
  rw [List.pairwise_iff_getElem]
  intro p q hp hq hlt
  apply h _ (List.getElem_mem hp) _ (List.getElem_mem hq)
  rwa [hnodup.idxOf_getElem, hnodup.idxOf_getElem]

theorem filter_order {keeps : Block → Bool}
    (h : ∀ j block, blocks[j]? = some block → keeps block = true → ∀ k, ¬ Needs blocks k j) :
    (order blocks).1.filter keeps = blocks.filter keeps := by
  have hfilter (places : List Nat) : (places.filterMap (blocks[·]?)).filter keeps
      = (places.filter fun i => (blocks[i]?).any keeps).filterMap (blocks[·]?) := by
    rw [List.filter_filterMap, List.filterMap_filter]
    apply List.filterMap_congr
    intro i _
    cases blocks[i]? with
    | none => rfl
    | some block => simp [Option.filter]
  have hsorted : (emission blocks).Pairwise fun i j => (blocks[i]?).any keeps = true → i < j := by
    apply pairwise_of_idxOf_lt nodup_emission
    intro i hi j hj hlt hkeeps
    rw [mem_emission] at hi
    rw [List.getElem?_eq_getElem hi, Option.any_some] at hkeeps
    have hneeds := h i _ (List.getElem?_eq_getElem hi) hkeeps
    by_contra hle
    rcases Nat.lt_or_eq_of_le (Nat.le_of_not_lt hle) with hji | rfl
    . exact Nat.lt_asymm hlt (idxOf_emission_lt hji hi hneeds)
    . exact Nat.lt_irrefl _ hlt
  have hplaces : ((emission blocks).filter fun i => (blocks[i]?).any keeps)
      = (List.range blocks.length).filter fun i => (blocks[i]?).any keeps := by
    apply List.Perm.eq_of_pairwise' _ (List.pairwise_lt_range.filter _) (emission_perm.filter _)
    rw [List.pairwise_filter]
    exact hsorted.imp fun h hkeeps _ => h hkeeps
  calc (order blocks).1.filter keeps
    _ = ((emission blocks).filterMap (blocks[·]?)).filter keeps := rfl
    _ = ((List.range blocks.length).filterMap (blocks[·]?)).filter
      keeps := by rw [hfilter, hplaces, ← hfilter]
    _ = blocks.filter keeps := by rw [filterMap_range]

/-- Blocks are moved only for those that need them: if a block is emitted before one that was
written before it, then that one or one before it reaches the block through what blocks need. So
blocks that no other block reads from never come before earlier ones, and those that declare nothing
stay as they were written. -/
theorem order_moves_needed (blocks : List Block) :
    (order blocks).1.map some = (emission blocks).map (blocks[·]?) ∧
      (emission blocks).Perm (List.range blocks.length) ∧
      (∀ i j, i < j → j < blocks.length → (emission blocks).idxOf j < (emission blocks).idxOf i →
        ∃ k ≤ i, Relation.ReflTransGen (Needs blocks) k j) ∧
      (∀ i j, i < j → j < blocks.length → Unread blocks j →
        (emission blocks).idxOf i < (emission blocks).idxOf j) ∧
      (order blocks).1.filter (·.declares.isEmpty) = blocks.filter (·.declares.isEmpty) := by
  refine ⟨map_some_order, emission_perm, ?_, ?_, ?_⟩
  . intro i j hij hj hbefore
    exact needed_of_overtakes (Nat.lt_trans hij hj) hbefore
  . intro i j hij hj hunread
    exact idxOf_emission_lt hij hj fun k => hunread.not_needs
  . apply filter_order
    intro j block hblock hnothing k
    apply Unread.not_needs
    apply Unread.of_declares_nil
    intro other hother
    rw [hblock, Option.some.injEq] at hother
    exact hother ▸ List.isEmpty_iff.mp hnothing

end Scope
end ComponentCompiler
