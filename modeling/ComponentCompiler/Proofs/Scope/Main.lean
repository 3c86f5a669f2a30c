import ComponentCompiler.Proofs.Scope.Relocation

/-!
This module contains the default component of a document and its part in the scopes: it is the main
component, and a page has exactly one.
-/

namespace ComponentCompiler

namespace Document

/-- What holds of the default exports among the components of a document. -/
structure DefaultComponent (document : Document) : Prop where
  nonempty : document.components ≠ []
  atMostOne : document.components.countP (·.isDefault) ≤ 1
  isExported : ∀ component ∈ document.components, component.isDefault = true →
    component.isExported = true
  page : document.metadata.isPage = true → document.components.countP (·.isDefault) = 1

theorem defaultComponent_of_parse {text file : String} {document : Document}
    (h : Document.parse text file = .ok document) : DefaultComponent document := by
  have hle := countP_isDefault_components_le h
  refine ⟨document.components_ne_nil, hle, isExported_of_isDefault h, ?_⟩
  intro hpage
  obtain ⟨statements, hstatements, _⟩ := bind_eq_ok.mp h
  apply Nat.le_antisymm hle
  exact List.countP_pos_iff.mpr ((oneDefault_of_parse h hstatements).page hpage)

end Document

namespace Scope

variable {document : Document} {policy : Policy} {result : Scoped}

theorem main_eq_of_isDefault (h : analyse document policy = .ok result)
    (hcount : document.components.countP (·.isDefault) ≤ 1) :
    ∀ component ∈ document.components, component.isDefault = true → result.main = component := by
  intro component hmem hdefault
  rw [← (components_perm h).mem_iff, List.mem_cons] at hmem
  rcases hmem with rfl | hmem
  . rfl
  . obtain ⟨s, hs, rfl⟩ := List.mem_map.mp hmem
    rw [isDefault_secondary h hcount s hs] at hdefault
    cases hdefault

/-- A document that was read has components, of which at most one is the default export, and only as
one that is exported; a page has exactly one. Its scopes under the policy of its metadata can be
told, and the default component is the main one: every page has it there. -/
theorem main_of_parse {text file : String} {document : Document}
    (h : Document.parse text file = .ok document) :
    document.DefaultComponent ∧ ∃ result, analyse document (.of document.metadata) = .ok result ∧
      (∀ component ∈ document.components, component.isDefault = true → result.main = component) ∧
      (document.metadata.isPage = true → result.main ∈ document.components ∧
        result.main.isDefault = true) := by
  have hdefault := Document.defaultComponent_of_parse h
  obtain ⟨result, hresult⟩ := analyse_of_parse h (.of document.metadata)
  have hmain := main_eq_of_isDefault hresult hdefault.atMostOne
  refine ⟨hdefault, result, hresult, hmain, fun hpage => ?_⟩
  have hpos : 0 < document.components.countP (·.isDefault) := by
    rw [hdefault.page hpage]
    exact Nat.one_pos
  obtain ⟨component, hmem, hcomponent⟩ := List.countP_pos_iff.mp hpos
  rw [hmain component hmem hcomponent]
  exact ⟨hmem, hcomponent⟩

/-- A page of two components of the same name. Its last statement makes the first of them the
default export. -/
theorem main_of_parse_named :
    let text :=
      "// @page\nconst A = () => <p/>\nfunction A() \x7b return <b/> \x7d\nexport default A"
    ∃ document, Document.parse text "a.tsx" = .ok document ∧ document.metadata.isPage = true ∧
      document.components.length = 2 ∧
      document.DefaultComponent ∧ ∃ result, analyse document (.of document.metadata) = .ok result ∧
        (∀ component ∈ document.components, component.isDefault = true → result.main = component) ∧
        (document.metadata.isPage = true → result.main ∈ document.components ∧
        result.main.isDefault = true) := by
  intro text
  have hcheck : ((Document.parse text "a.tsx").toOption.any fun document =>
      document.metadata.isPage && document.components.length == 2) = true := by
    decide +kernel
  obtain ⟨document, hdocument, hcheck⟩ := exists_ok_of_any hcheck
  rw [Bool.and_eq_true, beq_iff_eq] at hcheck
  exact ⟨document, hdocument, hcheck.1, hcheck.2, main_of_parse hdocument⟩

end Scope
end ComponentCompiler
