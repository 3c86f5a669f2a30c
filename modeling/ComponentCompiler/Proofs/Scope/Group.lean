import ComponentCompiler.Proofs.Scope.Reach
import Mathlib.Algebra.BigOperators.Group.List.Basic

/-!
This module contains what the search for groups finds: every node is in one group, together with
just the nodes that it reaches and is reached by, and an edge between two groups leads to the one
that was complete first.
-/

namespace ComponentCompiler
namespace Scope

variable {edges groups : List (List Nat)} {path group added targets : List Nat} {s s' s'' : Search}
variable {seen : Nat × Search} {i j node target n : Nat}

/-! ### Complete groups -/

def PointsBack (edges groups : List (List Nat)) : Prop :=
  ∀ before group after, groups = before ++ group :: after →
    ∀ i ∈ group, ∀ j, Edge edges i j → j ∈ group ∨ j ∈ before.flatten

theorem PointsBack.nil : PointsBack edges [] := by
  intro before group after heq
  simp at heq

theorem PointsBack.concat (h : PointsBack edges groups)
    (hgroup : ∀ i ∈ group, ∀ j, Edge edges i j → j ∈ group ∨ j ∈ groups.flatten) :
    PointsBack edges (groups ++ [group]) := by
  intro before other after heq
  rcases List.eq_nil_or_concat after with rfl | ⟨after, last, rfl⟩
  . obtain ⟨rfl, hother⟩ := List.append_inj' heq rfl
    obtain rfl := List.singleton_inj.mp hother
    exact hgroup
  . have heq : groups ++ [group] = (before ++ other :: after) ++ [last] := by
      simpa using heq
    exact h before other after (List.append_inj' heq rfl).1

theorem PointsBack.of_append {more : List (List Nat)} (h : PointsBack edges (groups ++ more)) :
    PointsBack edges groups := by
  intro before group after heq
  apply h before group (after ++ more)
  rw [heq, List.append_assoc, List.cons_append]

theorem PointsBack.saturated (h : PointsBack edges groups) : Saturated edges groups.flatten := by
  intro i hi j hedge
  obtain ⟨group, hgroup, hmem⟩ := List.mem_flatten.mp hi
  obtain ⟨before, after, rfl⟩ := List.append_of_mem hgroup
  rw [List.flatten_append, List.flatten_cons, List.mem_append, List.mem_append]
  rcases h before group after rfl i hmem j hedge with hj | hj
  . exact .inr (.inl hj)
  . exact .inl hj

def IsGroup (edges : List (List Nat)) (group : List Nat) : Prop :=
  ∃ i ∈ group, ∀ j, j ∈ group ↔ Reaches edges i j ∧ Reaches edges j i

theorem IsGroup.mem_iff (h : IsGroup edges group) (hi : i ∈ group) :
    j ∈ group ↔ Reaches edges i j ∧ Reaches edges j i := by
  obtain ⟨k, _, hgroup⟩ := h
  obtain ⟨hki, hik⟩ := (hgroup i).mp hi
  rw [hgroup]
  exact ⟨fun h => ⟨hik.trans h.1, h.2.trans hki⟩, fun h => ⟨hki.trans h.1, h.2.trans hik⟩⟩

theorem isGroup_of_saturated (hsat : Saturated edges nodes)
    (hback : Saturated edges (group ++ nodes)) (hi : i ∈ group)
    (hnew : i ∉ nodes) (hmutual : ∀ j ∈ group, Reaches edges i j ∧ Reaches edges j i) :
    IsGroup edges group := by
  refine ⟨i, hi, fun j => ⟨hmutual j, ?_⟩⟩
  rintro ⟨hij, hji⟩
  rcases List.mem_append.mp (hback.reaches (List.mem_append_left _ hi) hij) with hj | hj
  . exact hj
  . exact absurd (hsat.reaches hj hji) hnew

/-! ### Searches -/

structure Sound (edges : List (List Nat)) (path : List Nat) (s : Search) : Prop where
  perm : (s.closed.flatten ++ s.opened).Perm s.found
  nodup : s.found.Nodup
  bounded : ∀ i ∈ s.found, i < edges.length
  entered : ∀ i ∈ path, i ∈ s.found
  /-- An open node reaches those that were found after it. -/
  descends : s.opened.Pairwise fun later earlier => Reaches edges earlier later
  ascends : ∀ i ∈ s.opened, ∃ j ∈ path, Reaches edges i j
  left : ∀ i ∈ s.found, i ∉ path → ∀ j, Edge edges i j → j ∈ s.found
  isGroup : ∀ group ∈ s.closed, IsGroup edges group
  pointsBack : PointsBack edges s.closed

structure Extends (s s' : Search) : Prop where
  found : s.found <+: s'.found
  opened : ∃ added, s'.opened = added ++ s.opened ∧ ∀ i ∈ added, i ∉ s.found

theorem Extends.refl (s : Search) : Extends s s :=
  ⟨List.prefix_rfl, [], rfl, List.forall_mem_nil _⟩

theorem Extends.trans (h : Extends s s') (h' : Extends s' s'') : Extends s s'' := by
  obtain ⟨added, hadded, hnew⟩ := h.opened
  obtain ⟨added', hadded', hnew'⟩ := h'.opened
  refine ⟨h.found.trans h'.found, added' ++ added, ?_, ?_⟩
  . rw [hadded', hadded, List.append_assoc]
  . intro i hi
    rcases List.mem_append.mp hi with hi | hi
    . exact fun hfound => hnew' i hi (h.found.subset hfound)
    . exact hnew i hi

theorem extends_enter (s : Search) (h : node ∉ s.found) : Extends s (s.enter node) := by
  refine ⟨List.prefix_append _ _, [node], rfl, ?_⟩
  intro i hi
  rw [List.mem_singleton] at hi
  exact hi ▸ h

theorem Extends.mem_opened (h : Extends s s') (hi : i ∈ s.opened) : i ∈ s'.opened := by
  obtain ⟨added, hadded, _⟩ := h.opened
  rw [hadded]
  exact List.mem_append_right added hi

theorem Extends.index_eq (h : Extends s s') (hi : i ∈ s.found) : s'.index i = s.index i := by
  obtain ⟨more, hmore⟩ := h.found
  rw [Search.index, ← hmore, List.idxOf_append_of_mem hi, Search.index]

theorem Extends.le_index (h : Extends s s') (hi : i ∉ s.found) : s.found.length ≤ s'.index i := by
  obtain ⟨more, hmore⟩ := h.found
  rw [Search.index, ← hmore, List.idxOf_append_of_notMem hi]
  exact Nat.le_add_right _ _

theorem index_lt (hi : i ∈ s.found) : s.index i < s.found.length :=
  List.idxOf_lt_length_of_mem hi

namespace Sound

theorem mem_found (h : Sound edges path s) : i ∈ s.found ↔ i ∈ s.closed.flatten ∨ i ∈ s.opened := by
  rw [← h.perm.mem_iff, List.mem_append]

theorem found_of_opened (h : Sound edges path s) (hi : i ∈ s.opened) : i ∈ s.found :=
  h.mem_found.mpr (.inr hi)

theorem not_mem_closed (h : Sound edges path s) (hi : i ∈ s.opened) : i ∉ s.closed.flatten := by
  intro hclosed
  have hnodup := h.perm.nodup_iff.mpr h.nodup
  exact (List.nodup_append.mp hnodup).2.2 i hclosed i hi rfl

theorem length_found_lt (h : Sound edges path s) (hnode : node ∉ s.found)
    (hlt : node < edges.length) : s.found.length < edges.length := by
  have hnodup : (node :: s.found).Nodup := List.nodup_cons.mpr ⟨hnode, h.nodup⟩
  apply length_le_of_lt hnodup
  exact List.forall_mem_cons.mpr ⟨hlt, h.bounded⟩

theorem enter (h : Sound edges path s) (hnode : node ∉ s.found) (hlt : node < edges.length)
    (hpath : ∀ i ∈ path, Reaches edges i node) : Sound edges (node :: path) (s.enter node) where
  perm := by
    have hperm : (s.closed.flatten ++ node :: s.opened).Perm (node :: s.found) :=
      List.perm_middle.trans (h.perm.cons node)
    exact hperm.trans (List.perm_append_singleton node s.found).symm
  nodup := by
    rw [Search.enter, List.nodup_append']
    exact ⟨h.nodup, List.nodup_singleton node, by simpa using hnode⟩
  bounded := by
    intro i hi
    rcases List.mem_append.mp hi with hi | hi
    . exact h.bounded i hi
    . rw [List.mem_singleton] at hi
      exact hi ▸ hlt
  entered := by
    intro i hi
    rcases List.mem_cons.mp hi with rfl | hi
    . exact List.mem_append_right _ (List.mem_singleton_self i)
    . exact List.mem_append_left _ (h.entered i hi)
  descends := by
    refine List.pairwise_cons.mpr ⟨?_, h.descends⟩
    intro i hi
    obtain ⟨j, hj, hreach⟩ := h.ascends i hi
    exact hreach.trans (hpath j hj)
  ascends := by
    intro i hi
    rcases List.mem_cons.mp hi with rfl | hi
    . exact ⟨i, List.mem_cons_self, .refl⟩
    . obtain ⟨j, hj, hreach⟩ := h.ascends i hi
      exact ⟨j, List.mem_cons_of_mem node hj, hreach⟩
  left := by
    intro i hi hout j hedge
    rw [List.mem_cons, not_or] at hout
    rcases List.mem_append.mp hi with hi | hi
    . exact List.mem_append_left _ (h.left i hi hout.2 j hedge)
    . exact absurd (List.mem_singleton.mp hi) hout.1
  isGroup := h.isGroup
  pointsBack := h.pointsBack

end Sound

/-! ### Least indices -/

/-- The index that a search from a node comes back with. Below that of the node it belongs to an
open node that can be reached, and no edge that was followed from what the search left open leads
below it. -/
structure Lowest (edges : List (List Nat)) (s : Search) (node : Nat) (followed : Nat → Nat → Prop)
    (seen : Nat × Search) :
    Prop where
  le : seen.1 ≤ s.found.length
  reached : seen.1 < s.found.length → ∃ i ∈ s.opened, s.index i = seen.1 ∧ Reaches edges node i
  crosses : ∀ i ∈ seen.2.opened, i ∉ s.opened → ∀ j ∈ s.opened, followed i j → seen.1 ≤ s.index j

structure Connects (edges : List (List Nat)) (path : List Nat) (s : Search) (node : Nat)
    (seen : Nat × Search) : Prop where
  sound : Sound edges path seen.2
  grows : Extends s seen.2
  found : node ∈ seen.2.found
  lowest : Lowest edges s node (Edge edges) seen

structure Follows (edges : List (List Nat)) (path : List Nat) (s : Search) (node : Nat)
    (targets : List Nat) (seen : Nat × Search) : Prop where
  sound : Sound edges (node :: path) seen.2
  grows : Extends (s.enter node) seen.2
  found : ∀ i ∈ targets, i ∈ seen.2.found
  lowest : Lowest edges s node (fun i j => Edge edges i j ∧ (i = node → j ∈ targets)) seen

theorem Sound.follows_enter (h : Sound edges path s) (hnode : node ∉ s.found)
    (hlt : node < edges.length) (hpath : ∀ i ∈ path, Reaches edges i node) :
    Follows edges path s node [] (s.found.length, s.enter node) where
  sound := h.enter hnode hlt hpath
  grows := .refl _
  found := List.forall_mem_nil _
  lowest := by
    refine ⟨Nat.le_refl _, fun hlow => absurd hlow (Nat.lt_irrefl _), ?_⟩
    intro i hi hout j _ hfollowed
    rcases List.mem_cons.mp hi with rfl | hi
    . cases hfollowed.2 rfl
    . exact absurd hi hout

namespace Follows

theorem opened_of_lt (h : Follows edges path s node targets seen) (hnode : node ∉ s.found)
    (hi : i ∈ seen.2.opened) (hlt : seen.2.index i < s.found.length) : i ∈ s.opened := by
  have hextends := (extends_enter s hnode).trans h.grows
  obtain ⟨added, hadded, hnew⟩ := hextends.opened
  rw [hadded] at hi
  rcases List.mem_append.mp hi with hi | hi
  . have hle := hextends.le_index (hnew i hi)
    omega
  . exact hi

theorem follow_open (h : Follows edges path s node targets seen) (hs : Sound edges path s)
    (hnode : node ∉ s.found) (hedge : Edge edges node target) (htarget : target ∈ seen.2.opened) :
    Follows edges path s node (targets ++ [target]) (min seen.1 (seen.2.index target), seen.2) := by
  have hextends := (extends_enter s hnode).trans h.grows
  refine ⟨h.sound, h.grows, ?_, ?_, ?_, ?_⟩
  . intro i hi
    rcases List.mem_append.mp hi with hi | hi
    . exact h.found i hi
    . rw [List.mem_singleton.mp hi]
      exact h.sound.found_of_opened htarget
  . exact Nat.le_trans (Nat.min_le_left _ _) h.lowest.le
  . intro hlow
    rcases Nat.le_total seen.1 (seen.2.index target) with hle | hle
    . rw [Nat.min_eq_left hle] at hlow ⊢
      exact h.lowest.reached hlow
    . rw [Nat.min_eq_right hle] at hlow ⊢
      have hopened := h.opened_of_lt hnode htarget hlow
      exact ⟨target, hopened, (hextends.index_eq (hs.found_of_opened hopened)).symm, .single hedge⟩
  . rintro i hi hout j hj ⟨hfollowed, hnext⟩
    by_cases hlast : i = node ∧ j = target
    . obtain ⟨_, rfl⟩ := hlast
      rw [← hextends.index_eq (hs.found_of_opened hj)]
      exact Nat.min_le_right _ _
    . refine Nat.le_trans (Nat.min_le_left _ _) (h.lowest.crosses i hi hout j hj ⟨hfollowed, ?_⟩)
      intro heq
      rcases List.mem_append.mp (hnext heq) with hj | hj
      . exact hj
      . exact absurd ⟨heq, List.mem_singleton.mp hj⟩ hlast

theorem follow_closed (h : Follows edges path s node targets seen) (hnode : node ∉ s.found)
    (hfound : target ∈ seen.2.found)
    (htarget : target ∉ seen.2.opened) : Follows edges path s node (targets ++ [target]) seen := by
  have hextends := (extends_enter s hnode).trans h.grows
  refine ⟨h.sound, h.grows, ?_, h.lowest.le, h.lowest.reached, ?_⟩
  . intro i hi
    rcases List.mem_append.mp hi with hi | hi
    . exact h.found i hi
    . rw [List.mem_singleton] at hi
      exact hi ▸ hfound
  . rintro i hi hout j hj ⟨hfollowed, hnext⟩
    refine h.lowest.crosses i hi hout j hj ⟨hfollowed, fun heq => ?_⟩
    rcases List.mem_append.mp (hnext heq) with hmem | hmem
    . exact hmem
    . rw [List.mem_singleton] at hmem
      exact absurd (hextends.mem_opened (hmem ▸ hj)) htarget

theorem follow_new {found : Nat × Search} (h : Follows edges path s node targets seen)
    (hs : Sound edges path s)
    (hnode : node ∉ s.found) (hedge : Edge edges node target) (htarget : target ∉ seen.2.found)
    (hvisit : Connects edges (node :: path) seen.2 target found) :
    Follows edges path s node (targets ++ [target]) (min seen.1 found.1, found.2) := by
  have hextends := (extends_enter s hnode).trans h.grows
  refine ⟨hvisit.sound, h.grows.trans hvisit.grows, ?_, ?_, ?_, ?_⟩
  . intro i hi
    rcases List.mem_append.mp hi with hi | hi
    . exact hvisit.grows.found.subset (h.found i hi)
    . rw [List.mem_singleton] at hi
      exact hi ▸ hvisit.found
  . exact Nat.le_trans (Nat.min_le_left _ _) h.lowest.le
  . intro hlow
    rcases Nat.le_total seen.1 found.1 with hle | hle
    . rw [Nat.min_eq_left hle] at hlow ⊢
      exact h.lowest.reached hlow
    . rw [Nat.min_eq_right hle] at hlow ⊢
      have hbefore := Nat.lt_of_lt_of_le hlow hextends.found.length_le
      obtain ⟨i, hi, hindex, hreach⟩ := hvisit.lowest.reached hbefore
      have hopened := h.opened_of_lt hnode hi (hindex ▸ hlow)
      refine ⟨i, hopened, ?_, .head hedge hreach⟩
      rw [← hextends.index_eq (hs.found_of_opened hopened), hindex]
  . rintro i hi hout j hj ⟨hfollowed, hnext⟩
    by_cases hold : i ∈ seen.2.opened
    . refine Nat.le_trans (Nat.min_le_left _ _)
        (h.lowest.crosses i hold hout j hj ⟨hfollowed, fun heq => ?_⟩)
      rcases List.mem_append.mp (hnext heq) with hmem | hmem
      . exact hmem
      . -- the target is new, so it was not open before
        rw [List.mem_singleton] at hmem
        exact absurd (h.sound.found_of_opened (hextends.mem_opened (hmem ▸ hj))) htarget
    . have hcrosses := hvisit.lowest.crosses i hi hold j (hextends.mem_opened hj) hfollowed
      rw [hextends.index_eq (hs.found_of_opened hj)] at hcrosses
      exact Nat.le_trans (Nat.min_le_right _ _) hcrosses

theorem opened_eq (h : Follows edges path s node targets seen) :
    ∃ added, seen.2.opened = added ++ node :: s.opened ∧ node ∉ added ∧
      ∀ i ∈ added, i ∉ s.found := by
  obtain ⟨added, hadded, hnew⟩ := h.grows.opened
  have hnew (i : Nat) (hi : i ∈ added) : i ∉ s.found ∧ i ≠ node := by
    have hout := hnew i hi
    rw [Search.enter, List.mem_append, List.mem_singleton, not_or] at hout
    exact hout
  exact ⟨added, hadded, fun hi => (hnew node hi).2 rfl, fun i hi => (hnew i hi).1⟩

theorem found_of_edge (h : Follows edges path s node (edges.getD node []) seen)
    (hi : i ∈ seen.2.found) (hout : i ∉ path) (hedge : Edge edges i j) : j ∈ seen.2.found := by
  by_cases heq : i = node
  . subst heq
    exact h.found j hedge
  . refine h.sound.left i hi ?_ j hedge
    rw [List.mem_cons, not_or]
    exact ⟨heq, hout⟩

theorem leave_open (h : Follows edges path s node (edges.getD node []) seen)
    (hs : Sound edges path s) (hnode : node ∉ s.found)
    (hlow : seen.1 < s.found.length) : Connects edges path s node seen where
  sound := by
    refine { h.sound with
      entered := fun i hi => h.sound.entered i (List.mem_cons_of_mem node hi)
      ascends := ?_
      left := fun i hi hout j hedge => h.found_of_edge hi hout hedge }
    intro i hi
    obtain ⟨j, hj, hreach⟩ := h.sound.ascends i hi
    rcases List.mem_cons.mp hj with rfl | hj
    . obtain ⟨k, hk, _, hback⟩ := h.lowest.reached hlow
      obtain ⟨g, hg, hpath⟩ := hs.ascends k hk
      exact ⟨g, hg, (hreach.trans hback).trans hpath⟩
    . exact ⟨j, hj, hreach⟩
  grows := (extends_enter s hnode).trans h.grows
  found := h.grows.found.subset (List.mem_append_right _ (List.mem_singleton_self node))
  lowest := by
    refine ⟨h.lowest.le, h.lowest.reached, ?_⟩
    intro i hi hout j hj hedge
    refine h.lowest.crosses i hi hout j hj ⟨hedge, ?_⟩
    rintro rfl
    exact hedge

theorem close_eq (h : seen.2.opened = added ++ node :: s.opened) (hadded : node ∉ added) :
    seen.2.close node =
      { seen.2 with opened := s.opened, closed := seen.2.closed ++ [added ++ [node]] } := by
  have hpos : ∀ i ∈ added, decide (i ≠ node) = true := by
    intro i hi
    rw [decide_eq_true_eq]
    rintro rfl
    exact hadded hi
  unfold Search.close
  rw [h, List.dropWhile_append_of_pos hpos, List.takeWhile_append_of_pos hpos]
  simp

theorem isGroup_added (h : Follows edges path s node (edges.getD node []) seen)
    (hs : Sound edges path s)
    (hpath : ∀ i ∈ path, Reaches edges i node) (hlow : seen.1 = s.found.length)
    (hopened : seen.2.opened = (added ++ [node]) ++ s.opened)
    (hnew : ∀ i ∈ added ++ [node], i ∉ s.found) :
    IsGroup edges (added ++ [node]) ∧
      ∀ i ∈ added ++ [node], ∀ j, Edge edges i j → j ∈ added ++ [node] ∨
        j ∈ seen.2.closed.flatten := by
  have hmem : ∀ i ∈ added ++ [node], i ∈ seen.2.opened := by
    intro i hi
    rw [hopened]
    exact List.mem_append_left _ hi
  have hedges : ∀ i ∈ added ++ [node], ∀ j, Edge edges i j → j ∈ added ++ [node] ∨
      j ∈ seen.2.closed.flatten := by
    intro i hi j hedge
    have hj := h.found_of_edge (h.sound.found_of_opened (hmem i hi))
      (fun hin => hnew i hi (hs.entered i hin)) hedge
    rw [h.sound.mem_found, hopened, List.mem_append] at hj
    rcases hj with hj | hj | hj
    . exact .inr hj
    . exact .inl hj
    . -- such an edge would have lowered the index
      have hle := h.lowest.crosses i (hmem i hi)
        (fun hin => hnew i hi (hs.found_of_opened hin)) j hj ⟨hedge, fun heq => heq ▸ hedge⟩
      have hlt := index_lt (hs.found_of_opened hj)
      omega
  refine ⟨?_, hedges⟩
  have hto : ∀ i ∈ added ++ [node], Reaches edges i node := by
    intro i hi
    obtain ⟨j, hj, hreach⟩ := h.sound.ascends i (hmem i hi)
    rcases List.mem_cons.mp hj with rfl | hj
    . exact hreach
    . exact hreach.trans (hpath j hj)
  have hfrom : ∀ i ∈ added ++ [node], Reaches edges node i := by
    intro i hi
    rcases List.mem_append.mp hi with hi | hi
    . have hdescends := h.sound.descends
      rw [hopened, List.append_assoc, List.pairwise_append] at hdescends
      exact hdescends.2.2 i hi node (List.mem_append_left _ (List.mem_singleton_self node))
    . rw [List.mem_singleton.mp hi]
  have hself : node ∈ added ++ [node] := List.mem_append_right _ (List.mem_singleton_self node)
  apply isGroup_of_saturated h.sound.pointsBack.saturated ?_ hself
    (h.sound.not_mem_closed (hmem node hself))
  . intro j hj
    exact ⟨hfrom j hj, hto j hj⟩
  . intro i hi j hedge
    rcases List.mem_append.mp hi with hi | hi
    . exact List.mem_append.mpr (hedges i hi j hedge)
    . exact List.mem_append_right _ (h.sound.pointsBack.saturated i hi j hedge)

theorem leave_closed (h : Follows edges path s node (edges.getD node []) seen)
    (hs : Sound edges path s) (hnode : node ∉ s.found)
    (hpath : ∀ i ∈ path, Reaches edges i node) (hlow : seen.1 = s.found.length) :
    Connects edges path s node (seen.1, seen.2.close node) := by
  obtain ⟨added, hopened, hadded, hnew⟩ := h.opened_eq
  rw [close_eq hopened hadded]
  have hgroup : seen.2.opened = (added ++ [node]) ++ s.opened := by simpa using hopened
  have hnew : ∀ i ∈ added ++ [node], i ∉ s.found := by
    intro i hi
    rcases List.mem_append.mp hi with hi | hi
    . exact hnew i hi
    . rwa [List.mem_singleton.mp hi]
  obtain ⟨hisGroup, hedges⟩ := h.isGroup_added hs hpath hlow hgroup hnew
  have hgrows := (extends_enter s hnode).trans h.grows
  refine ⟨?_, ⟨hgrows.found, [], rfl, List.forall_mem_nil _⟩, ?_, h.lowest.le, h.lowest.reached, ?_⟩
  . refine { hs with
      perm := ?_
      nodup := h.sound.nodup
      bounded := h.sound.bounded
      entered := fun i hi => hgrows.found.subset (hs.entered i hi)
      left := fun i hi hout j hedge => h.found_of_edge hi hout hedge
      isGroup := ?_
      pointsBack := h.sound.pointsBack.concat hedges }
    . have hperm := h.sound.perm
      rw [hgroup, ← List.append_assoc] at hperm
      simpa using hperm
    . intro group hmem
      rcases List.mem_append.mp hmem with hmem | hmem
      . exact h.sound.isGroup group hmem
      . rw [List.mem_singleton.mp hmem]
        exact hisGroup
  . exact h.grows.found.subset (List.mem_append_right _ (List.mem_singleton_self node))
  . intro i hi hout
    exact absurd hi hout

end Follows

/-! ### Runs -/

theorem follows_follow {visit : Search → Nat → Nat × Search} (hs : Sound edges path s)
    (hnode : node ∉ s.found)
    (hpath : ∀ i ∈ path, Reaches edges i node) (hedge : Edge edges node target)
    (hvisit : ∀ s', Extends (s.enter node) s' → Sound edges (node :: path) s' → target ∉ s'.found →
      (∀ i ∈ node :: path, Reaches edges i target) →
        Connects edges (node :: path) s' target (visit s' target))
    (h : Follows edges path s node targets seen) :
    Follows edges path s node (targets ++ [target]) (follow visit seen target) := by
  unfold follow
  split
  next hfound =>
    rw [List.contains_iff_mem] at hfound
    split
    next hopened =>
      rw [List.contains_iff_mem] at hopened
      exact h.follow_open hs hnode hedge hopened
    next hopened =>
      rw [List.contains_iff_mem] at hopened
      exact h.follow_closed hnode hfound hopened
  next hfound =>
    rw [List.contains_iff_mem] at hfound
    apply h.follow_new hs hnode hedge hfound
    apply hvisit _ h.grows h.sound hfound
    refine List.forall_mem_cons.mpr ⟨.single hedge, ?_⟩
    intro i hi
    exact (hpath i hi).tail hedge

theorem follows_foldl {visit : Search → Nat → Nat × Search} (hs : Sound edges path s)
    (hnode : node ∉ s.found) (hpath : ∀ i ∈ path, Reaches edges i node)
    (hvisit : ∀ s' target, Extends (s.enter node) s' → Sound edges (node :: path) s' →
      target ∉ s'.found →
      Edge edges node target → (∀ i ∈ node :: path, Reaches edges i target) →
      Connects edges (node :: path) s' target (visit s' target))
    {more : List Nat} (hmore : ∀ i ∈ more, Edge edges node i)
    (h : Follows edges path s node targets seen) :
    Follows edges path s node (targets ++ more) (more.foldl (follow visit) seen) := by
  induction more generalizing targets seen with
  | nil => rwa [List.append_nil]
  | cons target more ih =>
    rw [List.forall_mem_cons] at hmore
    have hstep := follows_follow hs hnode hpath hmore.1
      (fun s' hgrows hsound hnew hreach => hvisit s' target hgrows hsound hnew hmore.1 hreach) h
    have hrest := ih hmore.2 hstep
    rwa [List.append_assoc] at hrest

/-- Each node that is entered is one more that is found, so the number of nodes bounds how many are
entered one after the other. -/
theorem connects_connect (hb : Bounded edges) (hs : Sound edges path s) (hnode : node ∉ s.found)
    (hlt : node < edges.length)
    (hpath : ∀ i ∈ path, Reaches edges i node) (hn : edges.length ≤ n + s.found.length) :
    Connects edges path s node (connect edges n s node) := by
  induction n generalizing path s node with
  | zero =>
    have hlength := hs.length_found_lt hnode hlt
    omega
  | succ n ih =>
    have hfollows : Follows edges path s node (edges.getD node [])
        ((edges.getD node []).foldl (follow (connect edges n)) (s.found.length, s.enter node)) := by
      rw [← List.nil_append (edges.getD node [])]
      apply follows_foldl hs hnode hpath _ (fun _ h => h) (hs.follows_enter hnode hlt hpath)
      intro s' target hgrows hsound hnew hedge hreach
      have hlength := hgrows.found.length_le
      rw [Search.enter, List.length_append, List.length_singleton] at hlength
      exact ih hsound hnew (hb node target hedge) hreach (by omega)
    rw [connect]
    split
    next hlow => exact hfollows.leave_closed hs hnode hpath hlow
    next hlow =>
      have hle := hfollows.lowest.le
      exact hfollows.leave_open hs hnode (by omega)

theorem sound_foldl (hb : Bounded edges) {nodes : List Nat} (hnodes : ∀ i ∈ nodes, i < edges.length)
    (hs : Sound edges [] s) :
    let result := nodes.foldl
      (fun s node => if s.found.contains node then s else (connect edges edges.length s node).2) s
    Sound edges [] result ∧ s.found ⊆ result.found ∧ ∀ i ∈ nodes, i ∈ result.found := by
  induction nodes generalizing s with
  | nil => exact ⟨hs, fun _ h => h, List.forall_mem_nil _⟩
  | cons node nodes ih =>
    rw [List.forall_mem_cons] at hnodes
    have hstep : ∃ s',
        (if s.found.contains node then s else (connect edges edges.length s node).2) = s' ∧
        Sound edges [] s' ∧ s.found ⊆ s'.found ∧ node ∈ s'.found := by
      refine ⟨_, rfl, ?_⟩
      split
      next hfound => exact ⟨hs, fun _ h => h, List.contains_iff_mem.mp hfound⟩
      next hfound =>
        rw [List.contains_iff_mem] at hfound
        have hconnects := connects_connect hb hs hfound hnodes.1 (List.forall_mem_nil _)
          (Nat.le_add_right _ _)
        exact ⟨hconnects.sound, hconnects.grows.found.subset, hconnects.found⟩
    obtain ⟨s', heq, hsound, hsub, hnode⟩ := hstep
    dsimp only
    rw [List.foldl_cons, heq]
    obtain ⟨hresult, hsub', hfound⟩ := ih hnodes.2 hsound
    refine ⟨hresult, fun _ h => hsub' (hsub h), ?_⟩
    exact List.forall_mem_cons.mpr ⟨hsub' hnode, hfound⟩

theorem sound_empty : Sound edges [] {} where
  perm := .refl _
  nodup := List.nodup_nil
  bounded := List.forall_mem_nil _
  entered := List.forall_mem_nil _
  descends := .nil
  ascends := List.forall_mem_nil _
  left := List.forall_mem_nil _
  isGroup := List.forall_mem_nil _
  pointsBack := .nil

structure Partitions (edges groups : List (List Nat)) : Prop where
  nodup : groups.flatten.Nodup
  mem : ∀ i, i ∈ groups.flatten ↔ i < edges.length
  isGroup : ∀ group ∈ groups, IsGroup edges group
  pointsBack : PointsBack edges groups

theorem partitions_search (hb : Bounded edges) : Partitions edges (search edges).closed := by
  obtain ⟨hsound, _, hfound⟩ :=
    sound_foldl hb (fun i hi => List.mem_range.mp hi) (@sound_empty edges)
  -- nothing is entered any more, so nothing is open
  have hopened : (search edges).opened = [] := by
    apply List.eq_nil_iff_forall_not_mem.mpr
    intro i hi
    obtain ⟨_, hj, _⟩ := hsound.ascends i hi
    cases hj
  have hperm : (search edges).closed.flatten.Perm (search edges).found := by
    have hperm := hsound.perm
    change ((search edges).closed.flatten ++ (search edges).opened).Perm _ at hperm
    rwa [hopened, List.append_nil] at hperm
  refine ⟨hperm.nodup_iff.mpr hsound.nodup, ?_, hsound.isGroup, hsound.pointsBack⟩
  intro i
  rw [hperm.mem_iff]
  exact ⟨hsound.bounded i, fun hi => hfound i (List.mem_range.mpr hi)⟩

/-! ### Numbers of groups -/

variable {k l : Nat}

theorem Partitions.findIdx?_eq_some_iff (h : Partitions edges groups) :
    groups.findIdx? (·.contains i) = some k ↔ ∃ group, groups[k]? = some group ∧ i ∈ group := by
  rw [List.findIdx?_eq_some_iff_getElem]
  constructor
  . rintro ⟨hk, hmem, _⟩
    exact ⟨groups[k], List.getElem?_eq_getElem hk, List.contains_iff_mem.mp hmem⟩
  . rintro ⟨group, hgroup, hmem⟩
    obtain ⟨hk, rfl⟩ := List.getElem?_eq_some_iff.mp hgroup
    refine ⟨hk, List.contains_iff_mem.mpr hmem, ?_⟩
    intro l hl hbefore
    have hdisjoint := (List.nodup_flatten.mp h.nodup).2
    exact List.pairwise_iff_getElem.mp hdisjoint l k (by omega) hk hl
      (List.contains_iff_mem.mp hbefore) hmem

theorem length_groupIds : (groupIds edges).length = edges.length := by
  simp [groupIds]

theorem getElem?_groupIds_eq_some (hb : Bounded edges) :
    (groupIds edges)[i]? = some (some k) ↔ ∃ group, (search edges).closed[k]? = some group ∧
      i ∈ group := by
  have h := partitions_search hb
  rw [← h.findIdx?_eq_some_iff, groupIds, List.getElem?_map]
  by_cases hi : i < edges.length
  . rw [List.getElem?_range hi, Option.map_some, Option.some.injEq]
  . rw [List.getElem?_eq_none (by simpa using hi), h.findIdx?_eq_some_iff]
    constructor
    . intro hnone
      cases hnone
    . rintro ⟨group, hgroup, hmem⟩
      exact absurd ((h.mem i).mp (List.mem_flatten_of_mem (List.mem_of_getElem? hgroup) hmem)) hi

theorem exists_groupId (hb : Bounded edges) (hi : i < edges.length) :
    ∃ k, (groupIds edges)[i]? = some (some k) := by
  obtain ⟨group, hgroup, hmem⟩ := List.mem_flatten.mp (((partitions_search hb).mem i).mpr hi)
  obtain ⟨k, hk⟩ := List.mem_iff_getElem?.mp hgroup
  exact ⟨k, (getElem?_groupIds_eq_some hb).mpr ⟨group, hk, hmem⟩⟩

theorem groupId_lt (hb : Bounded edges) (hk : (groupIds edges)[i]? = some (some k)) :
    k < edges.length := by
  have h := partitions_search hb
  obtain ⟨group, hgroup, _⟩ := (getElem?_groupIds_eq_some hb).mp hk
  have hlt := (List.getElem?_eq_some_iff.mp hgroup).1
  have hone : ∀ size ∈ (search edges).closed.map List.length, 1 ≤ size := by
    intro size hsize
    obtain ⟨group, hgroup, rfl⟩ := List.mem_map.mp hsize
    obtain ⟨i, hi, _⟩ := h.isGroup group hgroup
    exact List.length_pos_of_mem hi
  have hle := List.length_le_sum_of_one_le _ hone
  rw [← List.length_flatten, List.length_map] at hle
  have hnodes := length_le_of_lt h.nodup (fun i hi => (h.mem i).mp hi)
  omega

theorem groupId_eq_iff (hb : Bounded edges) (hk : (groupIds edges)[i]? = some (some k))
    (hl : (groupIds edges)[j]? = some (some l)) :
    k = l ↔ Reaches edges i j ∧ Reaches edges j i := by
  obtain ⟨group, hgroup, hi⟩ := (getElem?_groupIds_eq_some hb).mp hk
  rw [← ((partitions_search hb).isGroup group (List.mem_of_getElem? hgroup)).mem_iff hi]
  constructor
  . rintro rfl
    obtain ⟨other, hother, hj⟩ := (getElem?_groupIds_eq_some hb).mp hl
    rw [hgroup, Option.some.injEq] at hother
    rwa [hother]
  . intro hj
    have hk := (getElem?_groupIds_eq_some hb).mpr ⟨group, hgroup, hj⟩
    rw [hl, Option.some.injEq, Option.some.injEq] at hk
    exact hk.symm

theorem groupId_le_of_reaches (hb : Bounded edges) (hk : (groupIds edges)[i]? = some (some k))
    (hreach : Reaches edges i j) : ∃ l ≤ k, (groupIds edges)[j]? = some (some l) := by
  obtain ⟨group, hgroup, hi⟩ := (getElem?_groupIds_eq_some hb).mp hk
  obtain ⟨hlt, rfl⟩ := List.getElem?_eq_some_iff.mp hgroup
  have hback := (partitions_search hb).pointsBack
  rw [← List.take_append_drop (k + 1) (search edges).closed] at hback
  have hfirst : i ∈ ((search edges).closed.take (k + 1)).flatten :=
    List.mem_flatten_of_mem (List.mem_take_iff_getElem.mpr ⟨k, by omega, rfl⟩) hi
  obtain ⟨other, hother, hj⟩ :=
    List.mem_flatten.mp (hback.of_append.saturated.reaches hfirst hreach)
  obtain ⟨l, hl⟩ := List.mem_iff_getElem?.mp hother
  rw [List.getElem?_take] at hl
  split at hl
  next hle => exact ⟨l, Nat.le_of_lt_succ hle, (getElem?_groupIds_eq_some hb).mpr ⟨other, hl, hj⟩⟩
  next => cases hl

theorem groupId_lt_of_reaches (hb : Bounded edges) (hk : (groupIds edges)[i]? = some (some k))
    (hij : Reaches edges i j)
    (hji : ¬ Reaches edges j i) : ∃ l < k, (groupIds edges)[j]? = some (some l) := by
  obtain ⟨l, hle, hl⟩ := groupId_le_of_reaches hb hk hij
  refine ⟨l, Nat.lt_of_le_of_ne hle ?_, hl⟩
  rintro rfl
  exact hji ((groupId_eq_iff hb hk hl).mp rfl).2

/-- The numbers of two nodes agree if each of them reaches the other, and else an edge leads to the
smaller one. -/
theorem groupIds_stronglyConnected (hb : Bounded edges) :
    ∃ ids : List Nat, groupIds edges = ids.map some ∧ ids.length = edges.length ∧
      (∀ i < edges.length, ∀ j < edges.length, ids[i]? = ids[j]? ↔ Reaches edges i j ∧
        Reaches edges j i) ∧
      ∀ i j k l, Edge edges i j → ids[i]? = some k → ids[j]? = some l → k ≠ l → l < k := by
  have hids : groupIds edges = ((groupIds edges).filterMap id).map some := by
    rw [List.map_filterMap_some_eq_filter_map_isSome, List.map_id, eq_comm, List.filter_eq_self]
    intro id hid
    obtain ⟨i, hi⟩ := List.mem_iff_getElem?.mp hid
    have hlt := (List.getElem?_eq_some_iff.mp hi).1
    obtain ⟨k, hk⟩ := exists_groupId hb (length_groupIds ▸ hlt)
    rw [hi, Option.some.injEq] at hk
    rw [hk, Option.isSome_some]
  generalize (groupIds edges).filterMap id = ids at hids
  have hlength : ids.length = edges.length := by
    rw [← @length_groupIds edges, hids, List.length_map]
  have hget : ∀ i k : Nat, ids[i]? = some k → (groupIds edges)[i]? = some (some k) := by
    intro i k hk
    rw [hids, List.getElem?_map, hk, Option.map_some]
  refine ⟨ids, hids, hlength, ?_, ?_⟩
  . intro i hi j hj
    rw [← hlength] at hi hj
    have hk := List.getElem?_eq_getElem hi
    have hl := List.getElem?_eq_getElem hj
    rw [hk, hl, Option.some.injEq]
    exact groupId_eq_iff hb (hget i _ hk) (hget j _ hl)
  . intro i j k l hedge hk hl hne
    obtain ⟨m, hle, hm⟩ := groupId_le_of_reaches hb (hget i k hk) (.single hedge)
    rw [hget j l hl, Option.some.injEq, Option.some.injEq] at hm
    omega

/-- A ring of three nodes that leads to a ring of two, and one node before both. -/
def rings : List (List Nat) := [[1], [2], [0, 3], [4], [3], [0]]

theorem groupIds_stronglyConnected_rings :
    Bounded rings ∧ groupIds rings = [1, 1, 1, 0, 0, 2].map some ∧
      ∃ ids : List Nat, groupIds rings = ids.map some ∧ ids.length = rings.length ∧
        (∀ i < rings.length, ∀ j < rings.length, ids[i]? = ids[j]? ↔ Reaches rings i j ∧
          Reaches rings j i) ∧
        ∀ i j k l, Edge rings i j → ids[i]? = some k → ids[j]? = some l → k ≠ l → l < k :=
  ⟨by decide, by decide, groupIds_stronglyConnected (by decide)⟩

end Scope
end ComponentCompiler
