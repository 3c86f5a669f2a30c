import ComponentCompiler.Proofs.Document.Placement

/-!
This module contains the default exports of a file. There is at most one, and so at most one
component is a default export. If one is, all that the file passes on are exports that name what
they export.
-/

namespace ComponentCompiler

namespace Statement

def Body.isPassthrough : Body → Bool
  | .passthrough _ => true
  | _ => false

end Statement

namespace Source

variable {s : Source} {statement : Statement} {statements : List Statement} {places : List Place}
    {place : Place}

theorem Placed.passthrough_iff (h : s.Placed statement place) (hshaped : statement.Shaped)
    (hcount : (if statement.isDefault then 1 else 0) ≤ place.defaultCount) :
    (statement.body.isPassthrough = true ∧ ∃ block, place = .moduleStatement block ∧
      s.block .topLevel statement = .ok block) ∨
      statement.body.isPassthrough = false ∧ place.moduleStatement? = none := by
  cases h with
  | importing hbody => exact .inr ⟨by rw [hbody]; rfl, rfl⟩
  | component h =>
    refine .inr ⟨?_, rfl⟩
    cases hbody : statement.body with
    | passthrough tokens => exact absurd h (not_isComponent_of_passthrough hbody _)
    | _ => rfl
  | block hcode =>
    refine .inr ⟨?_, rfl⟩
    generalize statement.body = content at hcode
    cases content <;> simp_all [isCode, Statement.Body.isPassthrough]
  | @moduleStatement block hexport _ _ h =>
    refine .inl ⟨?_, block, rfl, h⟩
    cases hbody : statement.body with
    | passthrough tokens => rfl
    | defaultExpression tokens => simp [hshaped.isDefault hbody, Place.defaultCount] at hcount
    | _ => simp [hbody, isExport] at hexport
  | defaultName hbody => exact .inr ⟨by rw [hbody]; rfl, rfl⟩

theorem passthroughs_of_defaultCount (hplaces : List.Forall₂ s.Placed statements places)
    (hshaped : ∀ statement ∈ statements, statement.Shaped)
    (hcount : statements.countP (·.isDefault) ≤ defaultCount places) :
    List.Forall₂ (s.block .topLevel · = .ok ·) (statements.filter (·.body.isPassthrough))
      (places.filterMap Place.moduleStatement?) := by
  induction hplaces with
  | nil => exact .nil
  | @cons statement place statements places hplaced hrest ih =>
    rw [List.forall_mem_cons] at hshaped
    rw [defaultCount_cons, List.countP_cons] at hcount
    have hfirst := hplaced.defaultCount_le hshaped.1
    have hmore := defaultCount_le hrest hshaped.2
    have hpassed := ih hshaped.2 (by omega)
    rcases hplaced.passthrough_iff hshaped.1 (by omega) with
      ⟨hbody, block, rfl, hblock⟩ | ⟨hbody, hplace⟩
    . rw [List.filter_cons, if_pos hbody]
      exact .cons hblock hpassed
    . rw [List.filter_cons, if_neg (by simp [hbody]), List.filterMap_cons_none hplace]
      exact hpassed

theorem Exports.defaultCount_le {components components' : List Component}
    {names : List (String × Statement)} (h : s.Exports names components blocks components' blocks')
    (hcount : components.countP (·.isDefault) + names.length ≤ 1) :
    components'.countP (·.isDefault) ≤ 1 := by
  cases h with
  | none => exact hcount
  | passedOn => exact Nat.le_trans (Nat.le_add_right _ _) hcount
  | promoted =>
    simp only [List.countP_append, List.countP_cons, List.length_singleton] at hcount ⊢
    simp only [if_true]
    omega

theorem Exports.isExported {components components' : List Component}
    {names : List (String × Statement)} (h : s.Exports names components blocks components' blocks')
    (hcomponents : ∀ component ∈ components, component.isDefault = true →
      component.isExported = true) :
    ∀ component ∈ components', component.isDefault = true → component.isExported = true := by
  cases h with
  | none => exact hcomponents
  | passedOn => exact hcomponents
  | promoted =>
    rw [List.forall_mem_append, List.forall_mem_cons] at hcomponents ⊢
    exact ⟨hcomponents.1, fun _ => rfl, hcomponents.2.2⟩

theorem passthroughs_of_default {document : Document}
    (hplaces : List.Forall₂ s.Placed statements places) (hholds : s.Holds document places)
    (hshaped : ∀ statement ∈ statements, statement.Shaped)
    (hcount : statements.countP (·.isDefault) ≤ 1)
    (hcomponent : ∃ component ∈ document.components, component.isDefault = true) :
    List.Forall₂ (s.block .topLevel · = .ok ·)
      (statements.filter (·.body.isPassthrough)) document.moduleStatements := by
  have hle := defaultCount_le hplaces hshaped
  have hcounts := passthroughs_of_defaultCount hplaces hshaped
  have hexports := hholds.exports
  have hpos : 0 < document.components.countP (·.isDefault) := List.countP_pos_iff.mpr hcomponent
  simp only [defaultCount] at hle hcounts
  generalize places.filterMap Place.defaultName? = names, places.filterMap Place.component? =
    components at hexports hle hcounts
  generalize places.filterMap Place.moduleStatement? = passed at hexports hcounts
  generalize document.components = components', document.moduleStatements =
    passed' at hexports hpos ⊢
  cases hexports with
  | none => exact hcounts (by simp only [List.length_nil]; omega)
  | promoted => exact hcounts (by simp only [List.length_singleton]; omega)
  | passedOn =>
    simp only [List.length_singleton] at hle
    omega

theorem finish_page {document : Document} (h : s.finish metadata draft = .ok document) :
    document.metadata = metadata ∧
      (metadata.isPage = true → ∃ component ∈ document.components, component.isDefault = true) := by
  unfold finish at h
  split at h
  . simp at h
  . next first more hcomponents =>
    split at h
    . simp at h
    . next hpage =>
      cases h
      refine ⟨rfl, fun hmetadata => ?_⟩
      rw [hmetadata, Bool.true_and, Bool.not_eq_true, Bool.not_eq_false', hcomponents,
        List.any_eq_true] at hpage
      exact hpage

end Source

namespace Document

variable {text file : String} {document : Document} {statements : List Statement}

structure OneDefault (document : Document) (statements : List Statement) : Prop where
  statements : statements.countP (·.isDefault) ≤ 1
  page : document.metadata.isPage = true →
    ∃ component ∈ document.components, component.isDefault = true

theorem exists_finish (h : Document.parse text file = .ok document)
    (hstatements : Statement.parse text file = .ok statements) :
    statements.countP (·.isDefault) ≤ 1 ∧
      ∃ draft, Source.finish ⟨text, file⟩ (Page.Metadata.ofText text) draft = .ok document := by
  rw [Document.parse, hstatements, ok_bind] at h
  simp only [Source.document, bind_eq_ok] at h
  obtain ⟨_, hcheck, draft, _, exported, _, h⟩ := h
  exact ⟨Source.countP_isDefault_le hcheck, exported, h⟩

theorem oneDefault_of_parse (h : Document.parse text file = .ok document)
    (hstatements : Statement.parse text file = .ok statements) :
    OneDefault document statements := by
  obtain ⟨hcount, draft, hfinish⟩ := exists_finish h hstatements
  obtain ⟨hmetadata, hpage⟩ := Source.finish_page hfinish
  refine ⟨hcount, ?_⟩
  rw [hmetadata]
  exact hpage

theorem countP_isDefault_components_le (h : Document.parse text file = .ok document) :
    document.components.countP (·.isDefault) ≤ 1 := by
  obtain ⟨statements, places, hstatements, hplaces, hholds⟩ := exists_places h
  have hle := Source.defaultCount_le hplaces (Statement.shaped_of_parse hstatements)
  exact hholds.exports.defaultCount_le
    (Nat.le_trans hle (oneDefault_of_parse h hstatements).statements)

theorem isExported_of_isDefault (h : Document.parse text file = .ok document) :
    ∀ component ∈ document.components, component.isDefault = true →
      component.isExported = true := by
  obtain ⟨statements, places, hstatements, hplaces, hholds⟩ := exists_places h
  apply hholds.exports.isExported
  intro component hcomponent hdefault
  obtain ⟨place, hplace, hcomponent⟩ := List.mem_filterMap.mp hcomponent
  obtain ⟨statement, hstatement, hplaced⟩ := exists_left_of_forall₂ hplaces hplace
  cases hplaced with
  | component h =>
    cases hcomponent
    rw [h.flags.2] at hdefault
    rw [h.flags.1]
    exact (Statement.shaped_of_parse hstatements statement hstatement).isExported hdefault
  | _ => cases hcomponent

end Document
end ComponentCompiler
