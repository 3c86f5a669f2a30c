import ComponentCompiler.Token.Group

/-!
This module contains the names that a binding target introduces: a plain name, a destructuring
pattern or a parameter list.
-/

namespace ComponentCompiler

/-- The list with later repetitions left out. -/
def distinct [BEq α] (items : List α) : List α :=
  items.foldl (fun seen item => if seen.contains item then seen else seen ++ [item]) []

namespace Item

def before (punct : String) (items : List Item) : List Item :=
  items.takeWhile (!·.isPunct punct)

def after? (punct : String) : List Item → Option (List Item)
  | [] => none
  | item :: items => if item.isPunct punct then some items else after? punct items

theorem mem_of_mem_before {item : Item} (h : item ∈ before punct items) : item ∈ items :=
  (List.takeWhile_sublist _).subset h

theorem mem_of_mem_after? (items : List Item) (h : after? punct items = some rest)
    (hm : item ∈ rest) : item ∈ items := by
  induction items with
  | nil => simp [after?] at h
  | cons head tail ih =>
    unfold after? at h
    split at h
    . cases h
      exact List.mem_cons_of_mem _ hm
    . exact List.mem_cons_of_mem _ (ih h)

def withoutRestMark : List Item → List Item
  | [] => []
  | first :: more => if first.isPunct "..." then more else first :: more

theorem mem_of_mem_withoutRestMark (h : item ∈ withoutRestMark items) : item ∈ items := by
  cases items with
  | nil => exact h
  | cons first more =>
    simp only [withoutRestMark] at h
    split at h
    . exact List.mem_cons_of_mem _ h
    . exact h

/-- What one part of a pattern binds, with its default, rest mark, key and type left out. -/
def target? (bracket : Bracket) (part : List Item) : Option Item :=
  let part := withoutRestMark (before "=" part)
  match bracket with
  | .curly => ((after? ":" part).getD part).head?
  | .paren => (before ":" part).head?
  | .square => part.head?

theorem mem_of_target? (h : target? bracket part = some item) : item ∈ part := by
  suffices item ∈ withoutRestMark (before "=" part) from
    mem_of_mem_before (mem_of_mem_withoutRestMark this)
  unfold target? at h
  cases bracket with
  | curly =>
    dsimp only at h
    cases ha : after? ":" (withoutRestMark (before "=" part)) with
    | none =>
      rw [ha] at h
      exact List.mem_of_head? h
    | some rest =>
      rw [ha] at h
      exact mem_of_mem_after? _ ha (List.mem_of_head? h)
  | paren => exact mem_of_mem_before (List.mem_of_head? h)
  | square => exact List.mem_of_head? h

def targets (bracket : Bracket) (items : List Item) : List Item :=
  (split "," items).filterMap (target? bracket)

theorem mem_of_mem_targets (h : item ∈ targets bracket items) : item ∈ items := by
  obtain ⟨part, hpart, htarget⟩ := List.mem_filterMap.mp h
  have hsplit := (List.mem_filter.mp hpart).1
  exact Text.mem_of_mem_splitOnP _ hsplit (mem_of_target? htarget)

/-- The names that a binding target introduces, from left to right. -/
def boundNames : Item → List String
  | token t => if t.kind = .name then [t.value] else []
  | group bracket _ items _ =>
    (targets bracket items).attach.flatMap fun ⟨item, _⟩ => boundNames item
termination_by item => sizeOf item
decreasing_by
  rename_i h
  have := List.sizeOf_lt_of_mem (mem_of_mem_targets h)
  simp only [group.sizeOf_spec]
  omega

theorem boundNames_group :
    boundNames (group bracket opener items closer) =
      (targets bracket items).flatMap boundNames := by
  simp [boundNames]

def declaredNames (item : Item) : List String :=
  distinct item.boundNames

end Item
end ComponentCompiler
