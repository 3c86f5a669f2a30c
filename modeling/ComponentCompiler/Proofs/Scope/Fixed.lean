import ComponentCompiler.Proofs.Scope.Cycle
import ComponentCompiler.Proofs.Scope.Stable

/-!
This module contains the lists of blocks that ordering leaves as they are. They are those that are
in order already, and where each name has one declaration, ordering leads to such a list.
-/

namespace ComponentCompiler
namespace Scope

open Relation (ReflTransGen)

variable {blocks : List Block} {places : List Nat} {name : String} {i j k p q r : Nat}

/-- Each block comes after those that it needs, unless they need it as well, and no other block
comes between blocks that need each other. -/
structure Settled (blocks : List Block) : Prop where
  needed : ∀ i j, Needs blocks i j → ¬ Mutual blocks i j → j < i
  together : ∀ i k j, i < k → k < j → Mutual blocks i j → Mutual blocks i k

theorem Needs.target_lt (h : Needs blocks i j) : j < blocks.length := by
  obtain ⟨_, _, _, _, _, ⟨block, hblock, _⟩, _⟩ := h
  exact (List.getElem?_eq_some_iff.mp hblock).1

theorem Settled.le_or_mutual (h : Settled blocks) (hreaches : ReflTransGen (Needs blocks) k j) :
    j ≤ k ∨ Mutual blocks k j := by
  induction hreaches with
  | refl => exact .inl (Nat.le_refl k)
  | @tail m j hkm hneeds ih =>
    by_cases hmutual : Mutual blocks m j
    . rcases ih with hle | hcycle
      . -- `k` lies between `m` and `j`, unless `j` is not after it
        rcases Nat.lt_or_ge k j with hkj | hjk
        . rcases Nat.lt_or_eq_of_le hle with hmk | rfl
          . exact .inr ((h.together m k j hmk hkj hmutual).symm.trans hmutual)
          . exact .inr hmutual
        . exact .inl hjk
      . exact .inr (hcycle.trans hmutual)
    . have hjm := h.needed m j hneeds hmutual
      rcases ih with hle | hcycle
      . left
        omega
      . rcases Nat.lt_or_ge k j with hkj | hjk
        . exact .inr (h.together k j m hkj hjm hcycle)
        . exact .inl hjk

theorem getElem?_idxOf_emission (hi : i < blocks.length) :
    (emission blocks)[(emission blocks).idxOf i]? = some i :=
  List.getElem?_idxOf (mem_emission.mpr hi)

theorem idxOf_eq_of_getElem? (h : (emission blocks)[p]? = some i) :
    (emission blocks).idxOf i = p := by
  obtain ⟨hp, rfl⟩ := List.getElem?_eq_some_iff.mp h
  exact nodup_emission.idxOf_getElem p hp

theorem exists_idxOf_eq (hp : p < blocks.length) :
    ∃ i < blocks.length, (emission blocks).idxOf i = p := by
  have hlength : (emission blocks).length = blocks.length := by
    rw [emission_perm.length_eq, List.length_range]
  rw [← hlength] at hp
  exact ⟨_, mem_emission.mp (List.getElem_mem hp), nodup_emission.idxOf_getElem p hp⟩

theorem exists_segment (hi : i < blocks.length) :
    ∃ (start : Nat) (group : List Nat), group.Pairwise (· < ·) ∧
      (∀ j, j ∈ group ↔ Mutual blocks i j) ∧
      (∀ j ∈ group, (emission blocks).idxOf j = start + group.idxOf j) ∧
      ∀ k < blocks.length, start ≤ (emission blocks).idxOf k →
        (emission blocks).idxOf k < start + group.length →
        k ∈ group := by
  obtain ⟨before, group, after, hplaces, hgroup, hsorted⟩ := sorts_emission.together i hi
  have hemission : emission blocks = before ++ (group ++ after) := by
    rw [← List.append_assoc]
    exact hplaces
  have hnodup := @nodup_emission blocks
  refine ⟨before.length, group, hsorted, hgroup, ?_, ?_⟩
  . intro j hj
    rw [hemission] at hnodup ⊢
    have hbefore : j ∉ before := fun hmem =>
      (List.nodup_append.mp hnodup).2.2 j hmem j (List.mem_append_left _ hj) rfl
    rw [List.idxOf_append_of_notMem hbefore, List.idxOf_append_of_mem hj]
  . intro k hk hstart hstop
    by_contra hout
    rw [hemission] at hstart hstop
    by_cases hbefore : k ∈ before
    . have hlt := List.idxOf_lt_length_of_mem hbefore
      rw [List.idxOf_append_of_mem hbefore] at hstart
      omega
    . rw [List.idxOf_append_of_notMem hbefore, List.idxOf_append_of_notMem hout] at hstop
      omega

theorem idxOf_lt_idxOf (hsorted : places.Pairwise (· < ·)) (hi : i ∈ places) (hj : j ∈ places)
    (hij : i < j) : places.idxOf i < places.idxOf j := by
  by_contra hle
  rcases Nat.lt_or_eq_of_le (Nat.le_of_not_lt hle) with hlt | heq
  . have hji := List.pairwise_iff_getElem.mp hsorted _ _ (List.idxOf_lt_length_of_mem hj)
      (List.idxOf_lt_length_of_mem hi) hlt
    rw [List.getElem_idxOf, List.getElem_idxOf] at hji
    omega
  . exact absurd ((List.idxOf_inj hj).mp heq) (Nat.ne_of_gt hij)

theorem idxOf_lt_of_mutual (h : Mutual blocks i j) (hij : i < j) :
    (emission blocks).idxOf i < (emission blocks).idxOf j := by
  obtain ⟨start, group, hsorted, hgroup, hplace, _⟩ :=
    exists_segment (h.lt_length (Nat.ne_of_lt hij))
  have hi : i ∈ group := (hgroup i).mpr ⟨.refl, .refl⟩
  have hj : j ∈ group := (hgroup j).mpr h
  have hlt := idxOf_lt_idxOf hsorted hi hj hij
  rw [hplace i hi, hplace j hj]
  omega

theorem mutual_of_between (h : Mutual blocks i j) (hi : i < blocks.length) (hk : k < blocks.length)
    (hik : (emission blocks).idxOf i < (emission blocks).idxOf k)
    (hkj : (emission blocks).idxOf k < (emission blocks).idxOf j) : Mutual blocks i k := by
  obtain ⟨start, group, _, hgroup, hplace, hinside⟩ := exists_segment hi
  have hi' : i ∈ group := (hgroup i).mpr ⟨.refl, .refl⟩
  have hj : j ∈ group := (hgroup j).mpr h
  have hlt := List.idxOf_lt_length_of_mem hj
  rw [hplace i hi'] at hik
  rw [hplace j hj] at hkj
  exact (hgroup k).mp (hinside k hk (by omega) (by omega))

theorem settled_of_emission (h : emission blocks = List.range blocks.length) : Settled blocks := by
  have hplace : ∀ i < blocks.length, (emission blocks).idxOf i = i := by
    intro i hi
    apply idxOf_eq_of_getElem?
    rw [h, List.getElem?_range hi]
  constructor
  . intro i j hneeds hmutual
    have hback : ¬ ReflTransGen (Needs blocks) j i := fun hback => hmutual ⟨.single hneeds, hback⟩
    have hlt : (emission blocks).idxOf j < (emission blocks).idxOf i :=
      sorts_emission.needed i j hneeds hback
    rwa [hplace i hneeds.lt_length, hplace j hneeds.target_lt] at hlt
  . intro i k j hik hkj hmutual
    have hi := hmutual.lt_length (by omega)
    have hj := hmutual.symm.lt_length (by omega)
    have hk := Nat.lt_trans hkj hj
    apply mutual_of_between hmutual hi hk
    . rwa [hplace i hi, hplace k hk]
    . rwa [hplace k hk, hplace j hj]

theorem emission_of_settled (h : Settled blocks) : emission blocks = List.range blocks.length := by
  apply List.Perm.eq_of_pairwise' _ List.pairwise_lt_range emission_perm
  apply pairwise_of_idxOf_lt nodup_emission
  intro j hj i hi hlt
  rw [mem_emission] at hi hj
  by_contra hle
  have hij : i < j := by
    rcases Nat.lt_or_eq_of_le (Nat.le_of_not_lt hle) with hij | rfl
    . exact hij
    . exact absurd hlt (Nat.lt_irrefl _)
  obtain ⟨k, hki, hreaches⟩ := needed_of_overtakes hi hlt
  -- what needs `j` and comes before it is in a cycle with it, and so is what is between them
  have hkj : Mutual blocks k j := by
    rcases h.le_or_mutual hreaches with hle | hmutual
    . omega
    . exact hmutual
  have hmutual : Mutual blocks i j := by
    rcases Nat.lt_or_eq_of_le hki with hlt | rfl
    . exact (h.together k i j hlt hij hkj).symm.trans hkj
    . exact hkj
  exact Nat.lt_asymm hlt (idxOf_lt_of_mutual hmutual hij)

theorem ne_of_overtakes (hij : i < j) (hi : i < blocks.length)
    (h : (emission blocks).idxOf j < (emission blocks).idxOf i) : blocks[i]? ≠ blocks[j]? := by
  intro heq
  obtain ⟨k, hk, hreaches⟩ := needed_of_overtakes hi h
  rcases hreaches.cases_tail with rfl | ⟨l, _, hneeds⟩
  . omega
  . obtain ⟨_, _, _, name, _, ⟨block, hblock, hname⟩, hfirst⟩ := hneeds
    exact hfirst i hij ⟨block, heq.trans hblock, hname⟩

theorem emission_of_order_eq (h : (order blocks).1 = blocks) :
    emission blocks = List.range blocks.length := by
  have hplace : ∀ p < blocks.length, (emission blocks)[p]? = some p := by
    intro p
    induction p using Nat.strong_induction_on with
    | _ p ih =>
      intro hp
      obtain ⟨m, hm, hsame⟩ :
          ∃ m, (emission blocks)[p]? = some m ∧ blocks[m]? = some blocks[p] := by
        apply getElem?_order.mp
        rw [h, List.getElem?_eq_getElem hp]
      have hidx := idxOf_eq_of_getElem? hm
      rcases Nat.lt_trichotomy m p with hlt | rfl | hlt
      . have hidx' := idxOf_eq_of_getElem? (ih m hlt (Nat.lt_trans hlt hp))
        omega
      . exact hm
      . -- the places before `p` are taken, so `p` comes later than `m`
        have hget := getElem?_idxOf_emission hp
        have hbefore : (emission blocks).idxOf m < (emission blocks).idxOf p := by
          rw [hidx]
          by_contra hle
          rcases Nat.lt_or_eq_of_le (Nat.le_of_not_lt hle) with hless | heq
          . rw [ih _ hless (Nat.lt_trans hless hp), Option.some.injEq] at hget
            omega
          . rw [heq, hm, Option.some.injEq] at hget
            omega
        exact absurd ((List.getElem?_eq_getElem hp).trans hsame.symm)
          (ne_of_overtakes hlt hp hbefore)
  apply List.ext_getElem?
  intro p
  by_cases hp : p < blocks.length
  . rw [hplace p hp, List.getElem?_range hp]
  . rw [List.getElem?_eq_none, List.getElem?_eq_none]
    . simpa using hp
    . rw [emission_perm.length_eq]
      simpa using hp

theorem order_eq_iff_settled : (order blocks).1 = blocks ↔ Settled blocks := by
  constructor
  . intro h
    exact settled_of_emission (emission_of_order_eq h)
  . intro h
    calc (order blocks).1
      _ = (emission blocks).filterMap (blocks[·]?) := rfl
      _ = (List.range blocks.length).filterMap (blocks[·]?) := by rw [emission_of_settled h]
      _ = blocks := filterMap_range blocks

/-- No name is declared by two blocks. -/
def DeclaredOnce (blocks : List Block) : Prop :=
  blocks.Pairwise fun block other => ∀ name ∈ block.declares, name ∉ other.declares

instance : Decidable (DeclaredOnce blocks) :=
  inferInstanceAs
    (Decidable (blocks.Pairwise fun block other => ∀ name ∈ block.declares, name ∉ other.declares))

theorem DeclaredOnce.eq (h : DeclaredOnce blocks) (hi : DeclaresAt blocks name i)
    (hj : DeclaresAt blocks name j) : i = j := by
  obtain ⟨block, hblock, hname⟩ := hi
  obtain ⟨other, hother, hname'⟩ := hj
  obtain ⟨hi, rfl⟩ := List.getElem?_eq_some_iff.mp hblock
  obtain ⟨hj, rfl⟩ := List.getElem?_eq_some_iff.mp hother
  rcases Nat.lt_trichotomy i j with hlt | heq | hlt
  . exact absurd hname' (List.pairwise_iff_getElem.mp h i j hi hj hlt name hname)
  . exact heq
  . exact absurd hname (List.pairwise_iff_getElem.mp h j i hj hi hlt name hname')

theorem getElem?_order_idxOf (hi : i < blocks.length) :
    (order blocks).1[(emission blocks).idxOf i]? = blocks[i]? := by
  rw [List.getElem?_eq_getElem hi]
  exact getElem?_order.mpr ⟨i, getElem?_idxOf_emission hi, List.getElem?_eq_getElem hi⟩

theorem length_order : (order blocks).1.length = blocks.length :=
  order_perm.length_eq

theorem declaresAt_order (hi : i < blocks.length) :
    DeclaresAt (order blocks).1 name ((emission blocks).idxOf i) ↔ DeclaresAt blocks name i := by
  unfold DeclaresAt
  rw [getElem?_order_idxOf hi]

theorem DeclaresAt.lt_length (h : DeclaresAt blocks name i) : i < blocks.length := by
  obtain ⟨block, hblock, _⟩ := h
  exact (List.getElem?_eq_some_iff.mp hblock).1

theorem needs_order (honce : DeclaredOnce blocks) (hi : i < blocks.length)
    (hj : j < blocks.length) :
    Needs (order blocks).1 ((emission blocks).idxOf i) ((emission blocks).idxOf j) ↔
      Needs blocks i j := by
  unfold Needs
  rw [getElem?_order_idxOf hi, ne_eq, List.idxOf_inj (mem_emission.mpr hi)]
  simp only [declaresAt_order hj]
  constructor
  . rintro ⟨hne, block, hblock, name, hname, hdeclares, _⟩
    refine ⟨hne, block, hblock, name, hname, hdeclares, fun k hk hdeclares' => ?_⟩
    exact Nat.ne_of_lt hk (honce.eq hdeclares' hdeclares)
  . rintro ⟨hne, block, hblock, name, hname, hdeclares, _⟩
    refine ⟨hne, block, hblock, name, hname, hdeclares, fun p hp hdeclares' => ?_⟩
    have hlt := hdeclares'.lt_length
    rw [length_order] at hlt
    obtain ⟨k, hk, rfl⟩ := exists_idxOf_eq hlt
    rw [declaresAt_order hk] at hdeclares'
    rw [honce.eq hdeclares' hdeclares] at hp
    exact Nat.lt_irrefl _ hp

theorem reaches_order (honce : DeclaredOnce blocks) (h : ReflTransGen (Needs blocks) i j) :
    ReflTransGen (Needs (order blocks).1) ((emission blocks).idxOf i)
      ((emission blocks).idxOf j) := by
  induction h with
  | refl => exact .refl
  | tail _ hneeds ih =>
    exact ih.tail ((needs_order honce hneeds.lt_length hneeds.target_lt).mpr hneeds)

theorem reaches_of_order (honce : DeclaredOnce blocks) (hi : i < blocks.length)
    (h : ReflTransGen (Needs (order blocks).1) ((emission blocks).idxOf i) q) :
    ∃ j < blocks.length, (emission blocks).idxOf j = q ∧ ReflTransGen (Needs blocks) i j := by
  induction h with
  | refl => exact ⟨i, hi, rfl, .refl⟩
  | @tail p q _ hneeds ih =>
    obtain ⟨k, hk, rfl, hreaches⟩ := ih
    have hlt := hneeds.target_lt
    rw [length_order] at hlt
    obtain ⟨j, hj, rfl⟩ := exists_idxOf_eq hlt
    exact ⟨j, hj, rfl, hreaches.tail ((needs_order honce hk hj).mp hneeds)⟩

theorem reaches_order_iff (honce : DeclaredOnce blocks) (hi : i < blocks.length) :
    ReflTransGen (Needs (order blocks).1) ((emission blocks).idxOf i) ((emission blocks).idxOf j)
      ↔
    ReflTransGen (Needs blocks) i j := by
  constructor
  . intro h
    obtain ⟨k, hk, heq, hreaches⟩ := reaches_of_order honce hi h
    rw [List.idxOf_inj (mem_emission.mpr hk)] at heq
    exact heq ▸ hreaches
  . exact reaches_order honce

theorem mutual_order_iff (honce : DeclaredOnce blocks) (hi : i < blocks.length)
    (hj : j < blocks.length) :
    Mutual (order blocks).1 ((emission blocks).idxOf i) ((emission blocks).idxOf j) ↔
      Mutual blocks i j := by
  unfold Mutual
  rw [reaches_order_iff honce hi, reaches_order_iff honce hj]

theorem settled_order (honce : DeclaredOnce blocks) : Settled (order blocks).1 := by
  constructor
  . intro p q hneeds hmutual
    have hp := hneeds.lt_length
    have hq := hneeds.target_lt
    rw [length_order] at hp hq
    obtain ⟨i, hi, rfl⟩ := exists_idxOf_eq hp
    obtain ⟨j, hj, rfl⟩ := exists_idxOf_eq hq
    rw [needs_order honce hi hj] at hneeds
    rw [mutual_order_iff honce hi hj] at hmutual
    exact sorts_emission.needed i j hneeds fun hback => hmutual ⟨.single hneeds, hback⟩
  . intro p r q hpr hrq hmutual
    have hq := hmutual.symm.lt_length (by omega)
    rw [length_order] at hq
    obtain ⟨i, hi, rfl⟩ := exists_idxOf_eq (Nat.lt_trans (Nat.lt_trans hpr hrq) hq)
    obtain ⟨k, hk, rfl⟩ := exists_idxOf_eq (Nat.lt_trans hrq hq)
    obtain ⟨j, hj, rfl⟩ := exists_idxOf_eq hq
    rw [mutual_order_iff honce hi hj] at hmutual
    rw [mutual_order_iff honce hi hk]
    exact mutual_of_between hmutual hi hk hpr hrq

/-- Ordering leaves exactly those blocks as they are that are in order: what a block needs comes
before it unless the two need each other, and blocks that need each other have no other block
between them. So where no name is declared by two blocks, blocks that have been ordered stay as they
are. -/
theorem order_fixes (blocks : List Block) :
    ((order blocks).1 = blocks ↔ Settled blocks) ∧
      (DeclaredOnce blocks → (order (order blocks).1).1 = (order blocks).1) := by
  refine ⟨order_eq_iff_settled, fun honce => ?_⟩
  rw [order_eq_iff_settled]
  exact settled_order honce

/-- Four blocks, of which the first reads from the third, and the second and the last read from each
other. -/
theorem order_fixes_four :
    let block (declares references : List String) : Block :=
      { span := default, kind := .variable, source := "", declares, references, origin := .topLevel
        isExported := false, isReactive := false, containsMarkup := false }
    let blocks := [block ["a"] ["c"], block ["b"] ["d"], block ["c"] [], block ["d"] ["b"]]
    let ordered := [block ["c"] [], block ["a"] ["c"], block ["b"] ["d"], block ["d"] ["b"]]
    DeclaredOnce blocks ∧ (order blocks).1 = ordered ∧ (order ordered).1 = ordered := by
  intro block blocks ordered
  have honce : DeclaredOnce blocks := by decide +kernel
  have hordered : (order blocks).1 = ordered := by decide +kernel
  have hagain := (order_fixes blocks).2 honce
  rw [hordered] at hagain
  exact ⟨honce, hordered, hagain⟩

end Scope
end ComponentCompiler
