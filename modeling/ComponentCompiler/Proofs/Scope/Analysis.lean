import ComponentCompiler.Proofs.Document.Placement
import ComponentCompiler.Proofs.Markup.Source
import ComponentCompiler.Proofs.Name.Free
import ComponentCompiler.Proofs.Scope.Order
import ComponentCompiler.Scope.Analysis

/-!
This module contains what the placing of a document's blocks does to them. None is lost or changed,
the blocks of each scope define before they use unless a cycle is reported, and no document is
refused.
-/

namespace ComponentCompiler
namespace Scope

open Token (Balanced)

variable {document : Document} {policy : Policy} {result : Scoped}

theorem freeAt_total {source : String} (h : Balanced source.toList) (span : Span) :
    ∃ found, freeAt source span = .ok found := by
  obtain ⟨names, hnames⟩ := Name.free_total h []
  simp only [freeAt, hnames, ok_bind]
  exact ⟨_, rfl⟩

theorem attributeReferences_total {attr : Markup.Attribute}
    (h : ∀ site ∈ attr.sites, Balanced site.source.toList) :
    ∃ found, attributeReferences attr = .ok found := by
  cases attr with
  | string | boolean => exact ⟨[], rfl⟩
  | expression span name value =>
    exact freeAt_total (h ⟨.value, span, value⟩ (by simp [Markup.Attribute.sites])) span
  | spread span value =>
    exact freeAt_total (h ⟨.spread, span, value⟩ (by simp [Markup.Attribute.sites])) span

mutual

theorem markupReferences_total (tree : Markup.Node)
    (h : ∀ site ∈ tree.sites, Balanced site.source.toList) :
    ∃ found, markupReferences tree = .ok found := by
  cases tree with
  | slot span source =>
    simp only [markupReferences]
    exact freeAt_total (h ⟨.child, span, source⟩ (by simp [Markup.Node.sites])) span
  | text => exact ⟨[], by simp [markupReferences]⟩
  | fragment span children =>
    simp only [markupReferences]
    exact markupListReferences_total children h
  | element span tag attributes children =>
    simp only [Markup.Node.sites, List.mem_append, List.mem_flatMap] at h
    obtain ⟨own, hown⟩ : ∃ own, attributes.mapM attributeReferences = .ok own := by
      apply mapM_total
      intro attr hattr
      exact attributeReferences_total fun site hsite => h site (.inl ⟨attr, hattr, hsite⟩)
    obtain ⟨inner, hinner⟩ := markupListReferences_total children fun site hsite =>
      h site (.inr hsite)
    simp only [markupReferences, hown, hinner, ok_bind]
    exact ⟨_, rfl⟩

theorem markupListReferences_total (trees : List Markup.Node)
    (h : ∀ site ∈ Markup.Node.sitesAll trees, Balanced site.source.toList) :
    ∃ found, markupListReferences trees = .ok found := by
  cases trees with
  | nil => exact ⟨[], by simp [markupListReferences]⟩
  | cons tree trees =>
    simp only [Markup.Node.sitesAll, List.mem_append] at h
    obtain ⟨first, hfirst⟩ := markupReferences_total tree fun site hsite => h site (.inl hsite)
    obtain ⟨more, hmore⟩ := markupListReferences_total trees fun site hsite => h site (.inr hsite)
    simp only [markupListReferences, hfirst, hmore, ok_bind]
    exact ⟨_, rfl⟩

end

theorem unreachable_total {secondary : Secondary}
    (h : ∀ site ∈ secondary.component.markup.sites, Balanced site.source.toList)
    (policy : Policy) (main : Component) (blocks : List Block) :
    ∃ lost, unreachable policy main blocks secondary = .ok lost := by
  cases policy with
  | shared => exact ⟨[], rfl⟩
  | page =>
    obtain ⟨found, hfound⟩ := markupReferences_total _ h
    simp only [unreachable, Secondary.references, hfound, ok_bind]
    exact ⟨_, rfl⟩

/-- Whether a diagnostic reports blocks that depend on each other. -/
def reportsCycle (d : Diagnostic) : Prop :=
  d.problem.code = "SCOPE_DEPENDENCY_CYCLE"

/-- What placing the blocks of a document keeps, and the order that it brings them into. The
component scope of a page is inside a function, where nothing is exported. -/
structure Places (document : Document) (policy : Policy) (result : Scoped) : Prop where
  sharedBlocks : policy = .shared → result.componentBlocks.Perm document.blocks
  pageBlocks : policy = .page →
    result.componentBlocks.Perm
      (document.blocks.map fun block => { block with isExported := false })
  uiBlocks : result.uiBlocks.Perm result.main.body
  secondaryBlocks : ∀ s ∈ result.secondary, s.uiBlocks.Perm s.component.body
  components : ∃ before after, document.components = before ++ result.main :: after ∧
    result.secondary.map (·.component) = before ++ after
  definesBeforeUse : (∀ d ∈ result.diagnostics, ¬ reportsCycle d) →
    DefinesBeforeUse result.componentBlocks ∧ DefinesBeforeUse result.uiBlocks ∧
    ∀ s ∈ result.secondary, DefinesBeforeUse s.uiBlocks

theorem mainIndex_lt {components : List Component} (h : components ≠ []) :
    mainIndex components < components.length := by
  have hpos := List.length_pos_iff.mpr h
  unfold mainIndex
  split
  next i hi => exact (List.findIdx?_eq_some_iff_findIdx_eq.mp hi).1
  next =>
    cases hexported : components.findIdx? (·.isExported) with
    | none => exact hpos
    | some i => exact (List.findIdx?_eq_some_iff_findIdx_eq.mp hexported).1

theorem getElem?_mainIndex (document : Document) :
    document.components[mainIndex document.components]? = some (mainOf document) := by
  have hlt := mainIndex_lt document.components_ne_nil
  rw [mainOf, List.getD_eq_getElem?_getD, List.getElem?_eq_getElem hlt, Option.getD_some]

theorem isDefault_mainOf (h : ∃ component ∈ document.components, component.isDefault = true) :
    (mainOf document).isDefault = true := by
  have hmain := getElem?_mainIndex document
  unfold mainIndex at hmain
  split at hmain
  . next i hi =>
    obtain ⟨hlt, hdefault, _⟩ := List.findIdx?_eq_some_iff_getElem.mp hi
    rw [List.getElem?_eq_getElem hlt, Option.some.injEq] at hmain
    rw [← hmain]
    exact hdefault
  . next hnone =>
    obtain ⟨component, hmem, hdefault⟩ := h
    have hfalse := List.findIdx?_eq_none_iff.mp hnone component hmem
    simp [hdefault] at hfalse

theorem reportsCycle_of_cycle? (h : cycle? blocks group = some d) : reportsCycle d := by
  unfold cycle? at h
  split at h
  . cases h
    rfl
  . simp at h

theorem order_snd_eq_nil {blocks : List Block} (h : ∀ d ∈ (order blocks).2, ¬ reportsCycle d) :
    (order blocks).2 = [] := by
  rw [List.eq_nil_iff_forall_not_mem]
  intro d hd
  apply h d hd
  unfold order at hd
  simp only [List.mem_filterMap, id_eq, exists_eq_right, List.mem_mapIdx] at hd
  obtain ⟨i, _, hcycle⟩ := hd
  split at hcycle
  . exact reportsCycle_of_cycle? hcycle
  . simp at hcycle

theorem mainOf_and_others (document : Document) :
    ∃ before after, document.components = before ++ mainOf document :: after ∧
      (others document).map (·.component) = before ++ after := by
  have hlt := mainIndex_lt document.components_ne_nil
  refine ⟨document.components.take (mainIndex document.components),
    document.components.drop (mainIndex document.components + 1), ?_, ?_⟩
  . rw [mainOf, List.getD_eq_getElem?_getD, List.getElem?_eq_getElem hlt, Option.getD_some,
      ← List.drop_eq_getElem_cons hlt, List.take_append_drop]
  . rw [others, List.map_map, ← List.eraseIdx_eq_take_drop_succ]
    exact List.map_id _

theorem component_of_mem_others {secondary : Secondary} (h : secondary ∈ others document) :
    secondary.component ∈ document.components ∧
      secondary.uiBlocks = (order secondary.component.body).1 := by
  obtain ⟨component, hmem, rfl⟩ := List.mem_map.mp h
  exact ⟨List.mem_of_mem_eraseIdx hmem, rfl⟩

def assemble (document : Document) (policy : Policy) (lost : List (List Diagnostic)) : Scoped :=
  let main := mainOf document
  let shared := (partition document policy).1
  let inner := (partition document policy).2
  let componentBlocks := (order (shared.map (prepare policy))).1
  let uiBlocks := (order inner).1
  let secondary := others document
  { file := document.file
    policy
    placement := policy.placement
    metadata := document.metadata
    imports := document.imports
    moduleStatements := document.moduleStatements
    componentBlocks
    uiBlocks
    main
    secondary
    diagnostics := shared.filterMap
      (relocated? policy) ++ (order (shared.map (prepare policy))).2 ++
      (order inner).2 ++ secondary.flatMap (fun s => (order s.component.body).2) ++
      uiReferences componentBlocks
        ((main, uiBlocks) :: secondary.map fun s => (s.component, s.uiBlocks)) ++ lost.flatten }

theorem analyse_eq_ok :
    analyse document policy = .ok result
      ↔
    ∃ lost, List.Forall₂ (unreachable policy (mainOf document)
        (order ((partition document policy).1.map (prepare policy))).1 · = .ok ·)
        (others document) lost ∧ result = assemble document policy lost := by
  simp only [analyse, bind_eq_ok, mapError_eq_ok, mapM_eq_ok, pure_eq_ok, assemble,
    eq_comm (a := result)]

/-- The blocks of a document that was read know where they come from, so each of them goes to the
scope that it stands in. -/
theorem partition_eq (h : document.HasOrigins) (policy : Policy) :
    partition document policy = (document.blocks, (mainOf document).body) := by
  have hmain := List.mem_of_getElem? (getElem?_mainIndex document)
  have hblocks : ∀ block ∈ document.blocks, policy.target block = .componentScope := by
    intro block hblock
    rw [Policy.target, h.blocks block hblock]
  have hbody : ∀ block ∈ (mainOf document).body, policy.target block = .uiScope := by
    intro block hblock
    rw [Policy.target, h.bodies _ hmain block hblock]
  rw [partition, List.partition_eq_filter_filter, List.filter_append, List.filter_append]
  rw [List.filter_eq_self.mpr fun block hblock => decide_eq_true (hblocks block hblock)]
  rw [List.filter_eq_nil_iff.mpr fun block hblock => by simp [hbody block hblock]]
  rw [List.filter_eq_nil_iff.mpr fun block hblock => by simp [hblocks block hblock]]
  rw [List.filter_eq_self.mpr fun block hblock => by simp [hbody block hblock]]
  rw [List.append_nil, List.nil_append]

theorem components_perm (h : analyse document policy = .ok result) :
    (result.main :: result.secondary.map (·.component)).Perm document.components := by
  obtain ⟨_, _, rfl⟩ := analyse_eq_ok.mp h
  obtain ⟨before, after, hdocument, hothers⟩ := mainOf_and_others document
  change (mainOf document :: (others document).map (·.component)).Perm document.components
  rw [hdocument, hothers]
  exact List.perm_middle.symm

theorem isDefault_secondary (h : analyse document policy = .ok result)
    (hcount : document.components.countP (·.isDefault) ≤ 1) :
    ∀ s ∈ result.secondary, s.component.isDefault = false := by
  have hperm := components_perm h
  rw [← hperm.countP_eq, List.countP_cons] at hcount
  intro s hs
  rw [Bool.eq_false_iff]
  intro hdefault
  have hmem : s.component ∈ result.secondary.map (·.component) := List.mem_map_of_mem hs
  have hmain : result.main.isDefault = true := by
    obtain ⟨_, _, rfl⟩ := analyse_eq_ok.mp h
    exact isDefault_mainOf ⟨s.component, hperm.mem_iff.mp (List.mem_cons_of_mem _ hmem), hdefault⟩
  have hpos : 0 < (result.secondary.map (·.component)).countP (·.isDefault) :=
    List.countP_pos_iff.mpr ⟨_, hmem, hdefault⟩
  rw [hmain, if_pos rfl] at hcount
  omega

theorem imports_of_analyse (h : analyse document policy = .ok result) :
    result.imports = document.imports := by
  obtain ⟨_, _, rfl⟩ := analyse_eq_ok.mp h
  rfl

theorem fields_of_analyse (h : analyse document policy = .ok result) :
    result.main = mainOf document ∧ result.placement = policy.placement ∧
      result.moduleStatements = document.moduleStatements := by
  obtain ⟨_, _, rfl⟩ := analyse_eq_ok.mp h
  exact ⟨rfl, rfl, rfl⟩

theorem analyse_shared (h : analyse document .shared = .ok result)
    (horigins : document.HasOrigins) :
    result.placement = .module ∧ result.componentBlocks.Perm document.blocks ∧
      result.moduleStatements = document.moduleStatements := by
  obtain ⟨_, _, rfl⟩ := analyse_eq_ok.mp h
  refine ⟨rfl, ?_, rfl⟩
  have hid : document.blocks.map (prepare .shared) = document.blocks := List.map_id _
  simp only [assemble, partition_eq horigins, hid]
  exact order_perm

theorem analyse_total
    (h : ∀ component ∈ document.components, ∀ site ∈ component.markup.sites,
      Balanced site.source.toList) (policy : Policy) : ∃ result, analyse document policy =
        .ok result := by
  obtain ⟨lost, hlost⟩ : ∃ lost, (others document).mapM (unreachable policy (mainOf document)
      (order ((partition document policy).1.map (prepare policy))).1) = .ok lost := by
    apply mapM_total
    intro secondary hsecondary
    exact unreachable_total (h _ (component_of_mem_others hsecondary).1) _ _ _
  exact ⟨_, analyse_eq_ok.mpr ⟨lost, mapM_eq_ok.mp hlost, rfl⟩⟩

theorem places_of_analyse (h : analyse document policy = .ok result)
    (horigins : document.HasOrigins) : Places document policy result := by
  obtain ⟨lost, _, rfl⟩ := analyse_eq_ok.mp h
  have hpartition := partition_eq horigins policy
  constructor
  . rintro rfl
    exact (analyse_shared h horigins).2.1
  . rintro rfl
    simp only [assemble, hpartition]
    exact order_perm
  . simp only [assemble, hpartition]
    exact order_perm
  . intro s hs
    rw [(component_of_mem_others hs).2]
    exact order_perm
  . exact mainOf_and_others document
  . intro hcycles
    have hordered {blocks : List Block}
        (hsub : (order blocks).2 ⊆ (assemble document policy lost).diagnostics) :
        DefinesBeforeUse (order blocks).1 :=
      definesBeforeUse_order (order_snd_eq_nil fun d hd => hcycles d (hsub hd))
    refine ⟨?_, ?_, ?_⟩
    . apply hordered
      intro d hd
      simp [assemble, hd]
    . apply hordered
      intro d hd
      simp [assemble, hd]
    . intro s hs
      rw [(component_of_mem_others hs).2]
      apply hordered
      intro d hd
      simp only [assemble, List.mem_append, List.mem_flatMap]
      exact .inl (.inl (.inr ⟨s, hs, hd⟩))

theorem analyse_of_parse {text file : String} (h : Document.parse text file = .ok document)
    (policy : Policy) : ∃ result, analyse document policy = .ok result := by
  apply analyse_total
  intro component hcomponent
  obtain ⟨start, stop, hmarkup⟩ := Document.written_of_parse h component hcomponent
  exact Markup.sites_balanced hmarkup

/-- The blocks of a document that was read come from where they stand in it, and placing them always
succeeds, under either policy; it keeps the blocks and components, and brings the blocks of each
scope into an order in which names are declared before they are used, unless a cycle is reported. -/
theorem places_of_parse {text file : String} (h : Document.parse text file = .ok document)
    (policy : Policy) :
    document.HasOrigins ∧
      ∃ result, analyse document policy = .ok result ∧ Places document policy result := by
  have horigins := Document.hasOrigins_of_parse h
  obtain ⟨result, hresult⟩ := analyse_of_parse h policy
  exact ⟨horigins, result, hresult, places_of_analyse hresult horigins⟩

/-- A page whose first block reads what its second declares, with a block in its main component. -/
theorem places_of_parse_page :
    let text :=
      "const a = b\nconst b = 1\nexport default () => \x7b let c = a; return <p>\x7bc\x7d</p> \x7d"
    ∃ document, Document.parse text "page.tsx" = .ok document ∧ document.HasOrigins ∧
      ∃ result, analyse document .page = .ok result ∧ Places document .page result := by
  intro text
  have hparse : (Document.parse text "page.tsx").isOk = true := by decide +kernel
  cases h : Document.parse text "page.tsx" with
  | error => simp [h, Except.isOk, Except.toBool] at hparse
  | ok document => exact ⟨document, rfl, places_of_parse h .page⟩

end Scope
end ComponentCompiler
