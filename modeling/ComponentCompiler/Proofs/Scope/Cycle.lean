import ComponentCompiler.Proofs.Scope.Topological
import Mathlib.Data.List.Sort

/-!
This module contains the reports of blocks that need each other. Each cycle has one, at its first
block, and nothing else has any.
-/

namespace ComponentCompiler
namespace Scope

variable {edges : List (List Nat)} {blocks found : List Block} {places : List Nat} {d : Diagnostic}
    {i j : Nat}

/-- The blocks at these two places need each other, maybe through other blocks. -/
def Mutual (blocks : List Block) (i j : Nat) : Prop :=
  Relation.ReflTransGen (Needs blocks) i j ∧ Relation.ReflTransGen (Needs blocks) j i

/-- These are the places of all the blocks of one cycle, as they were written. -/
structure IsCycle (blocks : List Block) (places : List Nat) : Prop where
  two_le : 2 ≤ places.length
  sorted : places.Pairwise (· < ·)
  mem_iff : ∀ i ∈ places, ∀ j, j ∈ places ↔ Mutual blocks i j

/-- Whatever the block at this place reads, no other block is the first to declare it. -/
def ReadsOnlyItself (blocks : List Block) (i : Nat) : Prop :=
  ∀ block, blocks[i]? = some block → ∀ name ∈ block.references, ∀ j,
    DeclaresAt blocks name j → (∀ k < j, ¬ DeclaresAt blocks name k) → j = i

theorem Needs.lt_length (h : Needs blocks i j) : i < blocks.length := by
  obtain ⟨_, block, hblock, _⟩ := h
  exact (List.getElem?_eq_some_iff.mp hblock).1

theorem Mutual.lt_length (h : Mutual blocks i j) (hne : i ≠ j) : i < blocks.length := by
  rcases h.1.cases_head with heq | ⟨k, hneeds, _⟩
  . exact absurd heq hne
  . exact hneeds.lt_length

theorem Mutual.symm (h : Mutual blocks i j) : Mutual blocks j i :=
  ⟨h.2, h.1⟩

theorem Mutual.trans {k : Nat} (h : Mutual blocks i j) (h' : Mutual blocks j k) :
    Mutual blocks i k :=
  ⟨h.1.trans h'.1, h'.2.trans h.2⟩

theorem ReadsOnlyItself.not_needs (h : ReadsOnlyItself blocks i) : ¬ Needs blocks i j := by
  rintro ⟨hne, block, hblock, name, hname, hdeclares, hfirst⟩
  exact hne (h block hblock name hname j hdeclares hfirst).symm

theorem ReadsOnlyItself.eq_of_mutual (h : ReadsOnlyItself blocks i) (hmutual : Mutual blocks i j) :
    i = j := by
  rcases hmutual.1.cases_head with heq | ⟨k, hneeds, _⟩
  . exact heq
  . exact absurd hneeds h.not_needs

abbrev cycleOf (blocks : List Block) (i : Nat) : List Nat :=
  groupOf (dependencies blocks) i

theorem mem_cycleOf (hi : i < blocks.length) : j ∈ cycleOf blocks i ↔ Mutual blocks i j := by
  rw [← @length_dependencies blocks] at hi
  rw [mem_groupOf bounded_dependencies hi, Mutual, ← edge_dependencies_eq]

theorem pairwise_cycleOf (hi : i < blocks.length) : (cycleOf blocks i).Pairwise (· < ·) := by
  rw [← @length_dependencies blocks] at hi
  exact pairwise_groupOf hi

theorem isCycle_cycleOf (hi : i < blocks.length) (htwo : 2 ≤ (cycleOf blocks i).length) :
    IsCycle blocks (cycleOf blocks i) := by
  refine ⟨htwo, pairwise_cycleOf hi, ?_⟩
  intro k hk j
  rw [mem_cycleOf hi] at hk ⊢
  exact ⟨hk.symm.trans, hk.trans⟩

theorem IsCycle.exists_ne (h : IsCycle blocks places) (i : Nat) : ∃ j ∈ places, i ≠ j := by
  by_contra hall
  push Not at hall
  have hsub : places ⊆ [i] := fun j hj => List.mem_singleton.mpr (hall j hj).symm
  have hle := (List.subperm_of_subset (h.sorted.imp Nat.ne_of_lt) hsub).length_le
  have htwo := h.two_le
  rw [List.length_singleton] at hle
  omega

theorem IsCycle.lt_length (h : IsCycle blocks places) (hi : i ∈ places) : i < blocks.length := by
  obtain ⟨j, hj, hne⟩ := h.exists_ne i
  exact ((h.mem_iff i hi j).mp hj).lt_length hne

theorem IsCycle.eq_cycleOf (h : IsCycle blocks places) (hi : i ∈ places) :
    places = cycleOf blocks i := by
  have hlt := h.lt_length hi
  apply h.sorted.eq_of_mem_iff (pairwise_cycleOf hlt)
  intro j
  rw [h.mem_iff i hi, mem_cycleOf hlt]

theorem two_le_cycleOf (h : Mutual blocks i j) (hne : i ≠ j) : 2 ≤ (cycleOf blocks i).length := by
  have hi := h.lt_length hne
  have hsub : [i, j] ⊆ cycleOf blocks i := by
    intro k hk
    rw [mem_cycleOf hi]
    simp only [List.mem_cons, List.not_mem_nil, or_false] at hk
    rcases hk with rfl | rfl
    . exact ⟨.refl, .refl⟩
    . exact h
  exact (List.subperm_of_subset (by simp [hne]) hsub).length_le

/-- The report stands at the first of the blocks at these places and names them all in that
order. -/
def Reports (blocks : List Block) (places : List Nat) (d : Diagnostic) : Prop :=
  ∃ first more, (first :: more).map some = places.map (blocks[·]?) ∧
    d.problem.code = "SCOPE_DEPENDENCY_CYCLE" ∧ d.span = some first.span ∧
    d.problem.message = "Declarations " ++
      String.intercalate ", " ((first :: more).map fun block => "'" ++ block.label ++ "'") ++
      " reference each other and are emitted in their original order."

theorem filterMap_places (h : found.map some = places.map (blocks[·]?)) :
    places.filterMap (blocks[·]?) = found := by
  calc places.filterMap (blocks[·]?)
    _ = (places.map (blocks[·]?)).filterMap id := by rw [List.filterMap_map]; rfl
    _ = (found.map some).filterMap id := by rw [h]
    _ = found := by simp

theorem exists_found (h : ∀ i ∈ places, i < blocks.length) :
    ∃ found : List Block, found.map some = places.map (blocks[·]?) := by
  refine ⟨places.filterMap (blocks[·]?), ?_⟩
  rw [List.map_filterMap_some_eq_filter_map_isSome, List.filter_eq_self]
  intro block hblock
  obtain ⟨i, hi, rfl⟩ := List.mem_map.mp hblock
  simp [h i hi]

theorem reports_cycle? (hplaces : ∀ i ∈ places, i < blocks.length) (htwo : 2 ≤ places.length) :
    ∃ d, cycle? blocks places = some d ∧ Reports blocks places d := by
  obtain ⟨found, hfound⟩ := exists_found hplaces
  have hlength : found.length = places.length := by simpa using congrArg List.length hfound
  rcases found with _ | ⟨first, _ | ⟨second, more⟩⟩
  . rw [List.length_nil] at hlength
    omega
  . rw [List.length_singleton] at hlength
    omega
  . have hcycle : cycle? blocks places = some (.of (.dependencyCycle (String.intercalate ", "
        ((first :: second :: more).map fun block => "'" ++ block.label ++ "'"))) first.span
          none) := by
      rw [cycle?, filterMap_places hfound]
    exact ⟨_, hcycle, first, second :: more, hfound, rfl, rfl, rfl⟩

theorem cycle?_of_length_lt (h : places.length < 2) : cycle? blocks places = none := by
  have hle := List.length_filterMap_le (blocks[·]?) places
  unfold cycle?
  split
  next hfound =>
    rw [hfound] at hle
    simp only [List.length_cons] at hle
    omega
  . rfl

theorem order_snd :
    (order blocks).2
      =
    (List.range blocks.length).filterMap fun i =>
      if (cycleOf blocks i).head? = some i then cycle? blocks (cycleOf blocks i) else none := by
  have hgroups : (mutualGroups (dependencies blocks)).mapIdx
        (fun i group => if group.head? = some i then cycle? blocks group else none)
      = (List.range blocks.length).map fun i =>
          if (cycleOf blocks i).head? = some i then cycle? blocks (cycleOf blocks i) else none := by
    apply List.ext_getElem?
    intro i
    rw [List.getElem?_mapIdx, List.getElem?_map]
    by_cases hi : i < blocks.length
    . have hi' := hi
      rw [← @length_dependencies blocks] at hi'
      rw [getElem?_mutualGroups hi', ← groupOf_eq hi', List.getElem?_range hi]
      rfl
    . have hlength : (mutualGroups (dependencies blocks)).length = blocks.length := by
        simp [mutualGroups, length_dependencies]
      rw [List.getElem?_eq_none (by omega), List.getElem?_eq_none (by simpa using hi)]
      rfl
  unfold order
  dsimp only
  rw [hgroups, List.filterMap_map]
  rfl

def cycles (blocks : List Block) : List (List Nat) :=
  ((List.range blocks.length).filter fun i =>
    (cycleOf blocks i).head? = some i && 2 ≤ (cycleOf blocks i).length).map (cycleOf blocks)

theorem mem_cycles : places ∈ cycles blocks ↔ IsCycle blocks places := by
  unfold cycles
  simp only [List.mem_map, List.mem_filter, List.mem_range, Bool.and_eq_true, decide_eq_true_eq]
  constructor
  . rintro ⟨i, ⟨hi, _, htwo⟩, rfl⟩
    exact isCycle_cycleOf hi htwo
  . intro h
    obtain ⟨first, hfirst⟩ : ∃ first, places.head? = some first := by
      rw [← Option.isSome_iff_exists, List.isSome_head?, ← List.length_pos_iff]
      have htwo := h.two_le
      omega
    have hmem := List.mem_of_head? hfirst
    have heq := h.eq_cycleOf hmem
    exact ⟨first, ⟨h.lt_length hmem, heq ▸ hfirst, heq ▸ h.two_le⟩, heq.symm⟩

theorem pairwise_cycles :
    (cycles blocks).Pairwise fun c c' => ∀ i ∈ c.head?, ∀ j ∈ c'.head?, i < j := by
  unfold cycles
  rw [List.pairwise_map]
  apply List.Pairwise.imp_of_mem _ (List.pairwise_lt_range.filter _)
  intro i j hi hj hlt i' hi' j' hj'
  rw [List.mem_filter, Bool.and_eq_true, decide_eq_true_eq] at hi hj
  rw [hi.2.1, Option.mem_some_iff] at hi'
  rw [hj.2.1, Option.mem_some_iff] at hj'
  omega

theorem forall₂_filter_filterMap {R : β → γ → Prop} {p : α → Bool} {g : α → β} {f : α → Option γ}
    {items : List α} (hsome : ∀ a ∈ items, p a = true → ∃ c, f a = some c ∧ R (g a) c)
    (hnone : ∀ a ∈ items, p a = false → f a = none) :
    List.Forall₂ R ((items.filter p).map g) (items.filterMap f) := by
  induction items with
  | nil => exact .nil
  | cons a items ih =>
    rw [List.forall_mem_cons] at hsome hnone
    have hmore := ih hsome.2 hnone.2
    cases ha : p a with
    | true =>
      obtain ⟨c, hc, hR⟩ := hsome.1 ha
      rw [List.filter_cons_of_pos ha, List.map_cons, List.filterMap_cons_some hc]
      exact .cons hR hmore
    | false =>
      rw [List.filter_cons_of_neg (by simp [ha]), List.filterMap_cons_none (hnone.1 ha)]
      exact hmore

theorem reports_cycles : List.Forall₂ (Reports blocks) (cycles blocks) (order blocks).2 := by
  rw [order_snd]
  apply forall₂_filter_filterMap
  . intro i hi hcycle
    rw [List.mem_range] at hi
    rw [Bool.and_eq_true, decide_eq_true_eq, decide_eq_true_eq] at hcycle
    have h := isCycle_cycleOf hi hcycle.2
    rw [if_pos hcycle.1]
    exact reports_cycle? (fun j hj => h.lt_length hj) hcycle.2
  . intro i hi hcycle
    split
    next hhead =>
      rw [hhead, decide_eq_true rfl, Bool.true_and, decide_eq_false_iff_not] at hcycle
      exact cycle?_of_length_lt (by omega)
    next => rfl

theorem cycles_eq_nil : cycles blocks = [] ↔ ∀ i j, Mutual blocks i j → i = j := by
  constructor
  . intro hnil i j hmutual
    by_contra hne
    have hcycle := isCycle_cycleOf (hmutual.lt_length hne) (two_le_cycleOf hmutual hne)
    rw [← mem_cycles, hnil] at hcycle
    exact List.not_mem_nil hcycle
  . intro h
    rw [List.eq_nil_iff_forall_not_mem]
    intro places hmem
    have hcycle := mem_cycles.mp hmem
    obtain ⟨i, hi, _⟩ := hcycle.exists_ne 0
    obtain ⟨j, hj, hne⟩ := hcycle.exists_ne i
    exact hne (h i j ((hcycle.mem_iff i hi j).mp hj))

/-- Ordering blocks reports each cycle once: the reports are those of all cycles, in the order of
their first blocks, and each stands at the first block and names the members as they were written.
So there is none exactly if no two different blocks need each other, and a block that reads nothing
from another one is in no cycle. -/
theorem order_reports (blocks : List Block) :
    ∃ cycles : List (List Nat),
      (∀ places, places ∈ cycles ↔ IsCycle blocks places) ∧
      cycles.Pairwise (fun c c' => ∀ i ∈ c.head?, ∀ j ∈ c'.head?, i < j) ∧
      List.Forall₂ (Reports blocks) cycles (order blocks).2 ∧
      ((order blocks).2 = [] ↔ ∀ i j, Mutual blocks i j → i = j) ∧
      ∀ i, ReadsOnlyItself blocks i → ∀ places ∈ cycles, i ∉ places := by
  refine ⟨cycles blocks, fun _ => mem_cycles, pairwise_cycles, reports_cycles, ?_, ?_⟩
  . rw [← cycles_eq_nil, ← List.length_eq_zero_iff, ← reports_cycles.length_eq,
      List.length_eq_zero_iff]
  . intro i honly places hmem hi
    have hcycle := mem_cycles.mp hmem
    obtain ⟨j, hj, hne⟩ := hcycle.exists_ne i
    exact hne (honly.eq_of_mutual ((hcycle.mem_iff i hi j).mp hj))

end Scope
end ComponentCompiler
