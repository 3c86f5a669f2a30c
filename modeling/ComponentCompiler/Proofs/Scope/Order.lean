import ComponentCompiler.Proofs.Scope.Group

/-!
This module contains the order in which the blocks of one scope are emitted. It is a permutation of
them, and without cycles each block comes after the ones that it depends on.
-/

namespace ComponentCompiler
namespace Scope

variable {edges : List (List Nat)} {emitted result : List (List Nat)} {i j k n : Nat}

def groupOf (edges : List (List Nat)) (i : Nat) : List Nat :=
  (mutualGroups edges).getD i []

theorem getElem?_mutualGroups (hi : i < edges.length) :
    (mutualGroups edges)[i]?
      =
    some ((List.range edges.length).filter fun j =>
      (groupIds edges)[j]? == (groupIds edges)[i]?) := by
  unfold mutualGroups
  rw [List.getElem?_map, List.getElem?_range hi, Option.map_some]

theorem groupOf_eq (hi : i < edges.length) :
    groupOf edges i
      =
    (List.range edges.length).filter fun j => (groupIds edges)[j]? == (groupIds edges)[i]? := by
  unfold groupOf
  rw [List.getD_eq_getElem?_getD, getElem?_mutualGroups hi, Option.getD_some]

theorem mem_groupOf (hb : Bounded edges) (hi : i < edges.length) :
    j ∈ groupOf edges i ↔ Reaches edges i j ∧ Reaches edges j i := by
  obtain ⟨k, hk⟩ := exists_groupId hb hi
  rw [groupOf_eq hi, List.mem_filter, List.mem_range, beq_iff_eq, hk]
  constructor
  . rintro ⟨_, hl⟩
    exact (groupId_eq_iff hb hk hl).mp rfl
  . rintro ⟨hij, hji⟩
    have hj := hb.of_reaches hi hij
    obtain ⟨l, hl⟩ := exists_groupId hb hj
    rw [hl, (groupId_eq_iff hb hk hl).mpr ⟨hij, hji⟩]
    exact ⟨hj, rfl⟩

theorem nodup_groupOf (hi : i < edges.length) : (groupOf edges i).Nodup := by
  rw [groupOf_eq hi]
  exact List.nodup_range.filter _

theorem self_mem_groupOf (hb : Bounded edges) (hi : i < edges.length) : i ∈ groupOf edges i :=
  (mem_groupOf hb hi).mpr ⟨.refl, .refl⟩

theorem groupOf_of_mem (hi : i < edges.length) (h : j ∈ groupOf edges i) :
    groupOf edges j = groupOf edges i := by
  rw [groupOf_eq hi, List.mem_filter, List.mem_range, beq_iff_eq] at h
  rw [groupOf_eq hi, groupOf_eq h.1, h.2]

structure Ordered (edges emitted : List (List Nat)) : Prop where
  nodup : emitted.flatten.Nodup
  isGroup : ∀ group ∈ emitted, ∃ i < edges.length, group = groupOf edges i
  depends : PointsBack edges emitted

theorem Ordered.group_of_mem (hb : Bounded edges) (h : Ordered edges emitted)
    (hi : i ∈ emitted.flatten) : i < edges.length ∧ groupOf edges i ∈ emitted := by
  obtain ⟨group, hgroup, hmem⟩ := List.mem_flatten.mp hi
  obtain ⟨k, hk, rfl⟩ := h.isGroup group hgroup
  have hlt := hb.of_reaches hk ((mem_groupOf hb hk).mp hmem).1
  exact ⟨hlt, (groupOf_of_mem hk hmem) ▸ hgroup⟩

theorem Ordered.concat (h : Ordered edges emitted) (hi : i < edges.length)
    (hnew : ∀ j ∈ groupOf edges i, j ∉ emitted.flatten)
    (hdepends : ∀ j ∈ groupOf edges i, ∀ k, Edge edges j k →
      k ∈ groupOf edges i ∨ k ∈ emitted.flatten) :
    Ordered edges (emitted ++ [groupOf edges i]) := by
  constructor
  . rw [List.flatten_append, List.flatten_singleton, List.nodup_append]
    refine ⟨h.nodup, nodup_groupOf hi, ?_⟩
    rintro a ha b hb rfl
    exact hnew a hb ha
  . intro group hgroup
    rw [List.mem_append, List.mem_singleton] at hgroup
    rcases hgroup with hgroup | rfl
    . exact h.isGroup group hgroup
    . exact ⟨i, hi, rfl⟩
  . exact h.depends.concat hdepends

structure Emits (edges : List (List Nat)) (nodes : List Nat) (emitted result : List (List Nat)) :
    Prop where
  ordered : Ordered edges result
  grows : emitted.flatten ⊆ result.flatten
  covers : ∀ i ∈ nodes, i ∈ result.flatten
  reached : ∀ j ∈ result.flatten, j ∈ emitted.flatten ∨ ∃ i ∈ nodes, Reaches edges i j

theorem Emits.foldl {step : List (List Nat) → Nat → List (List Nat)} {nodes : List Nat}
    (h : Ordered edges emitted) (hstep : ∀ i ∈ nodes, ∀ emitted, Ordered edges emitted →
      Emits edges [i] emitted (step emitted i)) :
    Emits edges nodes emitted (nodes.foldl step emitted) := by
  induction nodes generalizing emitted with
  | nil => exact ⟨h, fun _ h => h, by simp, fun _ h => .inl h⟩
  | cons i nodes ih =>
    simp only [List.mem_cons, forall_eq_or_imp] at hstep
    have hone := hstep.1 emitted h
    have hmore := ih hone.ordered hstep.2
    refine ⟨hmore.ordered, fun _ h => hmore.grows (hone.grows h), ?_, ?_⟩
    . intro j hj
      rcases List.mem_cons.mp hj with rfl | hj
      . exact hmore.grows (hone.covers j (List.mem_singleton_self j))
      . exact hmore.covers j hj
    . intro j hj
      rcases hmore.reached j hj with hj | ⟨k, hk, hr⟩
      . rcases hone.reached j hj with hj | ⟨k, hk, hr⟩
        . exact .inl hj
        . rw [List.mem_singleton] at hk
          exact .inr ⟨k, by simp [hk], hr⟩
      . exact .inr ⟨k, List.mem_cons_of_mem i hk, hr⟩

theorem any_contains_eq_true :
    emitted.any (·.contains i) = true ↔ i ∈ emitted.flatten := by
  simp [List.mem_flatten]

def neededBy (edges : List (List Nat)) (group : List Nat) : List Nat :=
  (group.flatMap fun j => edges.getD j []).filter (!group.contains ·)

theorem mem_neededBy {group : List Nat} :
    j ∈ neededBy edges group ↔ (∃ i ∈ group, Edge edges i j) ∧ j ∉ group := by
  simp [neededBy, Edge]

theorem emit_succ (h : i ∉ emitted.flatten) :
    emit edges (mutualGroups edges) (n + 1) emitted i
      =
    (neededBy edges (groupOf edges i)).foldl (emit edges (mutualGroups edges) n) emitted ++
      [groupOf edges i] := by
  rw [emit, if_neg (mt any_contains_eq_true.mp h)]
  rfl

theorem emits_emit (hb : Bounded edges) (h : Ordered edges emitted) (hi : i < edges.length)
    (hk : (groupIds edges)[i]? = some (some k)) (hn : k < n) :
    Emits edges [i] emitted (emit edges (mutualGroups edges) n emitted i) := by
  induction n generalizing emitted i k with
  | zero => omega
  | succ n ih =>
    by_cases hmem : i ∈ emitted.flatten
    . rw [emit, if_pos (any_contains_eq_true.mpr hmem)]
      exact ⟨h, fun _ h => h, by simpa using hmem, fun _ h => .inl h⟩
    rw [emit_succ hmem]
    have hbelow : ∀ j ∈ neededBy edges (groupOf edges i),
        Reaches edges i j ∧ ¬ Reaches edges j i := by
      intro j hj
      obtain ⟨⟨k, hk, hedge⟩, hout⟩ := mem_neededBy.mp hj
      have hij := ((mem_groupOf hb hi).mp hk).1.tail hedge
      exact ⟨hij, fun hji => hout ((mem_groupOf hb hi).mpr ⟨hij, hji⟩)⟩
    have hneeded : Emits edges (neededBy edges (groupOf edges i)) emitted
        ((neededBy edges (groupOf edges i)).foldl (emit edges (mutualGroups edges) n) emitted) := by
      apply Emits.foldl h
      intro j hj emitted hordered
      obtain ⟨hij, hji⟩ := hbelow j hj
      obtain ⟨l, hlt, hl⟩ := groupId_lt_of_reaches hb hk hij hji
      exact ih hordered (hb.of_reaches hi hij) hl (by omega)
    have hnew : ∀ j ∈ groupOf edges i, j ∉ List.flatten
        ((neededBy edges (groupOf edges i)).foldl (emit edges (mutualGroups edges) n) emitted) := by
      intro j hj hout
      obtain ⟨hij, hji⟩ := (mem_groupOf hb hi).mp hj
      rcases hneeded.reached j hout with hout | ⟨k, hk, hkj⟩
      . -- the group of `j`, which is that of `i`, would be there already
        have hgroup := (h.group_of_mem hb hout).2
        rw [groupOf_of_mem hi hj] at hgroup
        exact hmem (List.mem_flatten.mpr ⟨_, hgroup, self_mem_groupOf hb hi⟩)
      . exact (hbelow k hk).2 (hkj.trans hji)
    constructor
    . apply hneeded.ordered.concat hi hnew
      intro j hj k hedge
      by_cases hk : k ∈ groupOf edges i
      . exact .inl hk
      . exact .inr (hneeded.covers k (mem_neededBy.mpr ⟨⟨j, hj, hedge⟩, hk⟩))
    . intro j hj
      simp [List.flatten_append, hneeded.grows hj]
    . simp [List.flatten_append, self_mem_groupOf hb hi]
    . intro j hj
      rw [List.flatten_append, List.flatten_singleton, List.mem_append] at hj
      rcases hj with hj | hj
      . rcases hneeded.reached j hj with hj | ⟨k, hk, hkj⟩
        . exact .inl hj
        . exact .inr ⟨i, List.mem_singleton_self i, (hbelow k hk).1.trans hkj⟩
      . exact .inr ⟨i, List.mem_singleton_self i, ((mem_groupOf hb hi).mp hj).1⟩

theorem emits_range (hb : Bounded edges) (hn : n ≤ edges.length) :
    Emits edges (List.range n) []
      ((List.range n).foldl (emit edges (mutualGroups edges) (edges.length + 1)) []) := by
  apply Emits.foldl ⟨by simp, by simp, .nil⟩
  intro i hi emitted hordered
  rw [List.mem_range] at hi
  have hlt := Nat.lt_of_lt_of_le hi hn
  obtain ⟨k, hk⟩ := exists_groupId hb hlt
  exact emits_emit hb hordered hlt hk (Nat.lt_succ_of_lt (groupId_lt hb hk))

theorem emits_groups (hb : Bounded edges) :
    Emits edges (List.range edges.length) [] (groups edges) :=
  emits_range hb (Nat.le_refl _)

theorem groups_perm (hb : Bounded edges) :
    (groups edges).flatten.Perm (List.range edges.length) := by
  have h := emits_groups hb
  apply (List.perm_ext_iff_of_nodup h.ordered.nodup List.nodup_range).mpr
  intro i
  constructor
  . intro hi
    exact List.mem_range.mpr (h.ordered.group_of_mem hb hi).1
  . exact h.covers i

open dependencies (owner?)

variable {blocks : List Block} {p : Nat}

theorem length_dependencies : (dependencies blocks).length = blocks.length := by
  simp [dependencies]

theorem edge_dependencies :
    Edge (dependencies blocks) i j
      ↔
    i ≠ j ∧ ∃ block, blocks[i]? = some block ∧
      ∃ name ∈ block.references, owner? blocks name = some j := by
  unfold Edge dependencies
  rw [List.getD_eq_getElem?_getD, List.getElem?_mapIdx]
  cases blocks[i]? with
  | none => simp
  | some block =>
    simp only [Option.map_some, Option.getD_some, mem_distinct, List.mem_filter, List.mem_filterMap,
      decide_eq_true_eq, Option.some.injEq, exists_eq_left']
    rw [and_comm, ne_comm]

theorem bounded_dependencies : Bounded (dependencies blocks) := by
  intro i j hedge
  obtain ⟨_, _, _, name, _, howner⟩ := edge_dependencies.mp hedge
  rw [length_dependencies]
  exact (List.findIdx?_eq_some_iff_findIdx_eq.mp howner).1

theorem emission_perm : (emission blocks).Perm (List.range blocks.length) := by
  rw [← length_dependencies]
  exact groups_perm bounded_dependencies

theorem map_some_order :
    (order blocks).1.map some = (emission blocks).map (blocks[·]?) := by
  unfold order
  rw [List.map_filterMap_some_eq_filter_map_isSome, List.filter_eq_self]
  intro block hblock
  obtain ⟨i, hi, rfl⟩ := List.mem_map.mp hblock
  have hlt := List.mem_range.mp (emission_perm.mem_iff.mp hi)
  simp [hlt]

theorem filterMap_range (blocks : List Block) :
    (List.range blocks.length).filterMap (blocks[·]?) = blocks := by
  apply List.map_injective_iff.mpr (fun _ _ => Option.some.inj)
  rw [List.map_filterMap_some_eq_filter_map_isSome, List.filter_eq_self.mpr]
  . apply List.ext_getElem (by simp)
    intro k h₁ h₂
    simp
  . simp

theorem order_perm : (order blocks).1.Perm blocks := by
  have h := (@emission_perm blocks).filterMap (blocks[·]?)
  rwa [filterMap_range] at h

/-- Each name that a block reads and some block declares is declared by that block or by one before
it. -/
def DefinesBeforeUse (blocks : List Block) : Prop :=
  ∀ (p : Nat) (block : Block), blocks[p]? = some block → ∀ name ∈ block.references,
    (∃ other ∈ blocks, name ∈ other.declares) →
      ∃ q ≤ p, ∃ other : Block, blocks[q]? = some other ∧ name ∈ other.declares

theorem cycle?_eq_none {group : List Nat} (h : cycle? blocks group = none)
    (hgroup : ∀ i ∈ group, i < blocks.length) : group.length ≤ 1 := by
  have hlength : (group.filterMap (blocks[·]?)).length = group.length := by
    rw [List.length_filterMap_eq_countP, List.countP_eq_length]
    intro i hi
    simp [hgroup i hi]
  unfold cycle? at h
  split at h
  . simp at h
  next hshort =>
    rw [← hlength]
    match hgot : group.filterMap (blocks[·]?) with
    | [] => simp
    | [_] => simp
    | first :: second :: more => exact absurd hgot (hshort first second more)

theorem cycle?_groupOf (h : (order blocks).2 = []) (hi : i < blocks.length)
    (hhead : (groupOf (dependencies blocks) i).head? = some i) :
    cycle? blocks (groupOf (dependencies blocks) i) = none := by
  rw [← length_dependencies] at hi
  apply List.filterMap_eq_nil_iff.mp h
  apply List.mem_of_getElem? (i := i)
  rw [List.getElem?_mapIdx, getElem?_mutualGroups hi, ← groupOf_eq hi, Option.map_some,
    if_pos hhead]
  rfl

theorem groupOf_of_no_cycle (h : (order blocks).2 = []) (hi : i < blocks.length) :
    groupOf (dependencies blocks) i = [i] := by
  have hb := @bounded_dependencies blocks
  rw [← length_dependencies] at hi
  have hself := self_mem_groupOf hb hi
  have hlt : ∀ j ∈ groupOf (dependencies blocks) i, j < blocks.length := by
    intro j hj
    rw [← length_dependencies]
    exact hb.of_reaches hi ((mem_groupOf hb hi).mp hj).1
  match hgroup : groupOf (dependencies blocks) i with
  | [] => simp [hgroup] at hself
  | first :: more =>
    have hfirst : first ∈ groupOf (dependencies blocks) i := by simp [hgroup]
    have heq := groupOf_of_mem hi hfirst
    have hnone := cycle?_groupOf h (hlt first hfirst) (by simp [heq, hgroup])
    rw [heq] at hnone
    have hlength := cycle?_eq_none hnone hlt
    rw [hgroup] at hlength hself
    obtain rfl : more = [] := by simpa using hlength
    rw [List.mem_singleton] at hself
    rw [hself]

theorem eq_map_singleton {groups : List (List Nat)} (h : ∀ group ∈ groups, ∃ i, group = [i]) :
    groups = groups.flatten.map ([·]) := by
  induction groups with
  | nil => rfl
  | cons group groups ih =>
    simp only [List.mem_cons, forall_eq_or_imp] at h
    obtain ⟨⟨i, rfl⟩, h⟩ := h
    rw [List.flatten_cons, List.singleton_append, List.map_cons, ← ih h]

theorem getElem?_order {block : Block} :
    (order blocks).1[p]? = some block
      ↔
    ∃ i, (emission blocks)[p]? = some i ∧ blocks[i]? = some block := by
  have h : (order blocks).1[p]?.map some
      = (emission blocks)[p]?.map (blocks[·]?) := by
    rw [← List.getElem?_map, ← List.getElem?_map, map_some_order]
  constructor
  . intro hp
    rw [hp, Option.map_some, eq_comm, Option.map_eq_some_iff] at h
    exact h
  . rintro ⟨i, hp, hi⟩
    rw [hp, Option.map_some, hi, Option.map_eq_some_iff] at h
    obtain ⟨found, hfound, heq⟩ := h
    rw [hfound, heq]

theorem place_lt_of_edge (h : (order blocks).2 = [])
    (hp : (emission blocks)[p]? = some i) (hedge : Edge (dependencies blocks) i j) :
    ∃ q ≤ p, (emission blocks)[q]? = some j := by
  have hordered := (emits_groups (@bounded_dependencies blocks)).ordered
  have hsingle : ∀ group ∈ groups (dependencies blocks), ∃ i, group = [i] := by
    intro group hgroup
    obtain ⟨i, hi, rfl⟩ := hordered.isGroup group hgroup
    rw [length_dependencies] at hi
    exact ⟨i, groupOf_of_no_cycle h hi⟩
  have hgroups : groups (dependencies blocks) = (emission blocks).map ([·]) :=
    eq_map_singleton hsingle
  generalize emission blocks = places at hp hgroups ⊢
  obtain ⟨hlt, rfl⟩ := List.getElem?_eq_some_iff.mp hp
  have hsplit : groups (dependencies blocks)
      = (places.take p).map ([·]) ++ [places[p]] :: (places.drop (p + 1)).map ([·]) := by
    have hplaces : places = places.take p ++ places[p] :: places.drop (p + 1) := by
      rw [← List.drop_eq_getElem_cons hlt, List.take_append_drop]
    rw [hgroups]
    nth_rewrite 1 [hplaces]
    rw [List.map_append, List.map_cons]
  rcases hordered.depends _ _ _ hsplit _ (List.mem_singleton_self _) j hedge with hj | hj
  . rw [List.mem_singleton] at hj
    exact ⟨p, Nat.le_refl p, hj ▸ hp⟩
  . rw [← List.flatMap_def, List.flatMap_singleton'] at hj
    obtain ⟨q, hq⟩ := List.mem_iff_getElem?.mp hj
    rw [List.getElem?_take] at hq
    split at hq
    next hlt => exact ⟨q, Nat.le_of_lt hlt, hq⟩
    next => simp at hq

theorem definesBeforeUse_order (h : (order blocks).2 = []) : DefinesBeforeUse (order blocks).1 := by
  intro p block hp name hname hdeclared
  obtain ⟨i, hplace, hi⟩ := getElem?_order.mp hp
  obtain ⟨other, hother, hdeclares⟩ := hdeclared
  rw [order_perm.mem_iff] at hother
  obtain ⟨k, howner⟩ : ∃ k, owner? blocks name = some k := by
    rw [← Option.isSome_iff_exists, owner?, List.findIdx?_isSome, List.any_eq_true]
    exact ⟨other, hother, List.contains_iff_mem.mpr hdeclares⟩
  obtain ⟨hk, hdeclares, _⟩ := List.findIdx?_eq_some_iff_getElem.mp howner
  rw [List.contains_iff_mem] at hdeclares
  have hq : ∃ q ≤ p, (emission blocks)[q]? = some k := by
    by_cases hik : i = k
    . exact ⟨p, Nat.le_refl p, hik ▸ hplace⟩
    . exact place_lt_of_edge h hplace (edge_dependencies.mpr ⟨hik, block, hi, name, hname, howner⟩)
  obtain ⟨q, hle, hq⟩ := hq
  exact ⟨q, hle, blocks[k], getElem?_order.mpr ⟨k, hq, List.getElem?_eq_getElem hk⟩, hdeclares⟩

end Scope
end ComponentCompiler
