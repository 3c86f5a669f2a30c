import ComponentCompiler.Name.Free
import ComponentCompiler.Proofs.Token.Problem
import ComponentCompiler.Proofs.Token.Slot

/-!
This module contains that the names which a piece of code reads can always be found, if the piece
can be read by itself, and that otherwise there is a problem with the text.
-/

namespace ComponentCompiler
namespace Name

open Token (BalancedWindow Balanced)

mutual

theorem usesOfItem_total {markup : Nat → Except ScanError Uses} (bracket before prev next)
    (item : Item) (h : ∀ t ∈ item.flatten, t.kind = .markup → ∃ uses, markup t.start = .ok uses) :
    ∃ uses, usesOfItem markup bracket before prev next item = .ok uses := by
  cases item with
  | token t =>
    simp only [usesOfItem]
    split
    next hkind => exact h t (by simp [Item.flatten]) hkind
    next => exact ⟨_, rfl⟩
    next => exact ⟨_, rfl⟩
  | group b opener items closer =>
    have hitems : ∀ t ∈ Item.flattenAll items, t.kind = .markup →
        ∃ uses, markup t.start = .ok uses := by
      intro t ht
      exact h t (by simp [Item.flatten, ht])
    obtain ⟨uses, huses⟩ := usesOfItems_total (some b) none none items hitems
    simp only [usesOfItem, huses, ok_bind]
    exact ⟨_, rfl⟩

theorem usesOfItems_total {markup : Nat → Except ScanError Uses} (bracket before prev)
    (items : List Item)
    (h : ∀ t ∈ Item.flattenAll items, t.kind = .markup → ∃ uses, markup t.start = .ok uses) :
    ∃ uses, usesOfItems markup bracket before prev items = .ok uses := by
  cases items with
  | nil => exact ⟨_, rfl⟩
  | cons item items =>
    simp only [Item.flattenAll, List.mem_append] at h
    obtain ⟨first, hfirst⟩ := usesOfItem_total bracket before prev items.head? item
      fun t ht => h t (.inl ht)
    obtain ⟨rest, hrest⟩ := usesOfItems_total bracket prev (some item) items
      fun t ht => h t (.inr ht)
    simp only [usesOfItems, hfirst, hrest, ok_bind]
    exact ⟨_, rfl⟩

end

theorem usesInWindow_total {text : String} {start stop : Nat} (h : BalancedWindow text start stop)
    (n : Nat) : ∃ uses, usesInWindow text n start stop = .ok uses := by
  induction n generalizing start stop with
  | zero => exact ⟨_, rfl⟩
  | succ n ih =>
    obtain ⟨tokens, items, hscan, hgroup⟩ := h.items
    simp only [usesInWindow, hscan, hgroup, ok_bind]
    apply usesOfItems_total
    intro t ht hkind
    rw [Token.flattenAll_group hgroup] at ht
    obtain ⟨slots, hslots, hwindows⟩ := h.markupSlots hscan ht hkind
    rw [hslots, ok_bind]
    apply foldlM_total
    intro slot hslot uses
    obtain ⟨content, hinner⟩ := ih (hwindows slot hslot)
    exact ⟨uses ++ content, by simp [hinner]⟩

theorem freeInWindow_total {text : String} {start stop : Nat} (h : BalancedWindow text start stop)
    (exclude : List String) : ∃ names, freeInWindow text start stop exclude = .ok names := by
  obtain ⟨uses, huses⟩ := usesInWindow_total h (text.length + 1)
  simp only [freeInWindow, huses, ok_bind]
  exact ⟨_, rfl⟩

theorem free_total {text : String} (h : Balanced text.toList) (exclude : List String) :
    ∃ names, free text exclude = .ok names :=
  freeInWindow_total h.window exclude

open ScanError (IsProblem)

variable {text : String}

mutual

theorem failsOnly_usesOfItem {markup : Nat → Except ScanError Uses} (bracket before prev next)
    (item : Item) (h : ∀ t ∈ item.flatten, FailsOnly (IsProblem text) (markup t.start)) :
    FailsOnly (IsProblem text) (usesOfItem markup bracket before prev next item) := by
  cases item with
  | token t =>
    simp only [usesOfItem]
    split
    . exact h t (by simp [Item.flatten])
    . exact .ok _
    . exact .ok _
  | group b opener items closer =>
    have hitems : ∀ t ∈ Item.flattenAll items, FailsOnly (IsProblem text) (markup t.start) := by
      intro t ht
      exact h t (by simp [Item.flatten, ht])
    simp only [usesOfItem]
    exact (failsOnly_usesOfItems (some b) none none items hitems).bind fun _ _ => .pure _

theorem failsOnly_usesOfItems {markup : Nat → Except ScanError Uses} (bracket before prev)
    (items : List Item)
    (h : ∀ t ∈ Item.flattenAll items, FailsOnly (IsProblem text) (markup t.start)) :
    FailsOnly (IsProblem text) (usesOfItems markup bracket before prev items) := by
  cases items with
  | nil => exact .ok _
  | cons item items =>
    simp only [Item.flattenAll, List.mem_append] at h
    simp only [usesOfItems]
    refine (failsOnly_usesOfItem bracket before prev items.head? item fun t ht =>
      h t (.inl ht)).bind fun _ _ => ?_
    exact (failsOnly_usesOfItems bracket prev (some item) items fun t ht =>
      h t (.inr ht)).bind fun _ _ => .pure _

end

theorem failsOnly_usesInWindow {text : String} (n start : Nat) {stop : Nat}
    (h : stop ≤ text.length) : FailsOnly (IsProblem text) (usesInWindow text n start stop) := by
  induction n generalizing start stop with
  | zero => exact .ok _
  | succ n ih =>
    rw [usesInWindow]
    refine (Token.failsOnly_scanWindow start h).bind fun tokens hscan => ?_
    have htokens : ∀ t ∈ tokens, t.start < text.length :=
      fun t => Token.start_lt_of_scanWindow hscan
    refine (Token.failsOnly_group fun t ht => Nat.le_of_lt (htokens t ht)).bind fun items hgroup =>
      ?_
    apply failsOnly_usesOfItems
    intro t ht
    rw [Token.flattenAll_group hgroup] at ht
    refine (Token.failsOnly_markupSlots (htokens t ht)).bind fun slots hslots => ?_
    apply FailsOnly.foldlM
    intro slot hslot uses
    exact (ih slot.1 (Token.markupSlots_le hslots slot hslot)).bind fun _ _ => .pure _

theorem failsOnly_freeInWindow {text : String} (start : Nat) {stop : Nat} (h : stop ≤ text.length)
    (exclude : List String) : FailsOnly (IsProblem text) (freeInWindow text start stop exclude) :=
  (failsOnly_usesInWindow (text.length + 1) start h).bind fun _ _ => .pure _

end Name
end ComponentCompiler
