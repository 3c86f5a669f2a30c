import ComponentCompiler.Proofs.Scope.Relocation

/-!
This module contains what the two policies have in common. They place the blocks of a document
differently and let them export or not, but neither which blocks there are nor their order depends
on that, and apart from the reports on moved blocks both report the same.
-/

namespace ComponentCompiler

/-- A block that exports nothing. -/
def Block.unexported (block : Block) : Block :=
  { block with isExported := false }

namespace Scope

variable {document : Document} {blocks : List Block} {f : Block → Block}

structure KeepsNames (f : Block → Block) : Prop where
  declares (block : Block) : (f block).declares = block.declares
  references (block : Block) : (f block).references = block.references
  label (block : Block) : (f block).label = block.label
  span (block : Block) : (f block).span = block.span

theorem keepsNames_prepare (policy : Policy) : KeepsNames (prepare policy) := by
  cases policy <;> exact ⟨fun _ => rfl, fun _ => rfl, fun _ => rfl, fun _ => rfl⟩

namespace KeepsNames

theorem owner?_map (hf : KeepsNames f) (blocks : List Block) (name : String) :
    dependencies.owner? (blocks.map f) name = dependencies.owner? blocks name := by
  rw [dependencies.owner?, dependencies.owner?, List.findIdx?_map]
  congr 1
  funext block
  exact congrArg (·.contains name) (hf.declares block)

theorem dependencies_map (hf : KeepsNames f) (blocks : List Block) :
    dependencies (blocks.map f) = dependencies blocks := by
  apply List.ext_getElem?
  intro i
  rw [dependencies, dependencies, List.getElem?_mapIdx, List.getElem?_mapIdx, List.getElem?_map,
    Option.map_map]
  congr 1
  funext block
  have howner : dependencies.owner? (blocks.map f) = dependencies.owner? blocks :=
    funext (hf.owner?_map blocks)
  rw [Function.comp_apply, hf.references, howner]

theorem filterMap_getElem? (f : Block → Block) (blocks : List Block) (places : List Nat) :
    places.filterMap ((blocks.map f)[·]?) = (places.filterMap (blocks[·]?)).map f := by
  rw [List.map_filterMap]
  congr 1
  funext i
  exact List.getElem?_map

theorem cycle?_map (hf : KeepsNames f) (blocks : List Block) (group : List Nat) :
    cycle? (blocks.map f) group = cycle? blocks group := by
  rw [cycle?, cycle?, filterMap_getElem?]
  cases group.filterMap (blocks[·]?) with
  | nil => rfl
  | cons first more =>
    cases more with
    | nil => rfl
    | cons second more =>
      simp only [List.map_cons, hf.label, hf.span, List.map_map, Function.comp_def]

theorem order_map (hf : KeepsNames f) (blocks : List Block) :
    order (blocks.map f) = ((order blocks).1.map f, (order blocks).2) := by
  simp only [order, emission, hf.dependencies_map, filterMap_getElem?, hf.cycle?_map]

theorem uiReferences_map (hf : KeepsNames f) (blocks : List Block)
    (scopes : List (Component × List Block)) :
    uiReferences (blocks.map f) scopes = uiReferences blocks scopes := by
  simp only [uiReferences, List.flatMap_map, hf.declares, hf.references, hf.label, hf.span]

end KeepsNames

/-- The report is on an export that is moved into the function of a page. -/
def reportsRelocation (d : Diagnostic) : Prop :=
  d.problem.code = "SCOPE_EXPORT_RELOCATED"

/-- The report is on a name that is declared in the function of a page and read in another
component. -/
def reportsUnreachable (d : Diagnostic) : Prop :=
  d.problem.code = "SCOPE_UNREACHABLE_PAGE_SYMBOL"

def reportsMove (d : Diagnostic) : Prop :=
  reportsRelocation d ∨ reportsUnreachable d

instance : DecidablePred reportsRelocation :=
  fun d => inferInstanceAs (Decidable (d.problem.code = _))

instance : DecidablePred reportsUnreachable :=
  fun d => inferInstanceAs (Decidable (d.problem.code = _))

instance : DecidablePred reportsMove :=
  fun d => inferInstanceAs (Decidable (reportsRelocation d ∨ reportsUnreachable d))

theorem reportsRelocation_of_relocated? {policy : Policy} {block : Block} {d : Diagnostic}
    (h : relocated? policy block = some d) : reportsRelocation d := by
  unfold relocated? at h
  split at h
  . cases h
    rfl
  . cases h

theorem reportsUnreachable_of_unreachable {policy : Policy} {main : Component} {s : Secondary}
    {reports : List Diagnostic}
    (h : unreachable policy main blocks s = .ok reports) : ∀ d ∈ reports, reportsUnreachable d := by
  cases policy with
  | shared =>
    cases h
    exact List.forall_mem_nil _
  | page =>
    obtain ⟨found, _, h⟩ := bind_eq_ok.mp h
    cases h
    intro d hd
    obtain ⟨⟨name, span⟩, _, hd⟩ := List.mem_filterMap.mp hd
    dsimp only at hd
    split at hd
    . cases hd
      rfl
    . cases hd

theorem not_reportsMove_of_code {d : Diagnostic}
    (h : d.problem.code ∈ ["SCOPE_DEPENDENCY_CYCLE", "SCOPE_UI_REFERENCE"]) : ¬ reportsMove d := by
  rw [reportsMove, reportsRelocation, reportsUnreachable]
  rcases List.mem_pair.mp h with h | h
  . rw [h]
    decide
  . rw [h]
    decide

theorem not_reportsMove_of_order {d : Diagnostic} (h : d ∈ (order blocks).2) : ¬ reportsMove d := by
  unfold order at h
  simp only [List.mem_filterMap, id_eq, exists_eq_right, List.mem_mapIdx] at h
  obtain ⟨i, _, hcycle⟩ := h
  split at hcycle
  . have hcode := reportsCycle_of_cycle? hcycle
    exact not_reportsMove_of_code (List.mem_pair.mpr (.inl hcode))
  . cases hcycle

theorem not_reportsMove_of_uiReferences {scopes : List (Component × List Block)} {d : Diagnostic}
    (h : d ∈ uiReferences blocks scopes) : ¬ reportsMove d := by
  simp only [uiReferences, List.mem_flatMap, List.mem_filterMap] at h
  obtain ⟨block, _, name, _, hd⟩ := h
  split at hd
  . cases hd
  . obtain ⟨component, _, rfl⟩ := Option.map_eq_some_iff.mp hd
    exact not_reportsMove_of_code (List.mem_pair.mpr (.inr rfl))

def placelessReports (document : Document) : List Diagnostic :=
  let main := mainOf document
  let shared := (partition document .shared).1
  let inner := (partition document .shared).2
  let scopes := (main, (order inner).1) :: (others document).map fun s => (s.component, s.uiBlocks)
  (order shared).2 ++ (order inner).2 ++
    (others document).flatMap (fun s => (order s.component.body).2) ++
    uiReferences (order shared).1 scopes

theorem partition_shared (document : Document) (policy : Policy) :
    partition document policy = partition document .shared := by
  cases policy <;> rfl

theorem not_reportsMove_of_placelessReports {d : Diagnostic} (h : d ∈ placelessReports document) :
    ¬ reportsMove d := by
  simp only [placelessReports, List.mem_append, List.mem_flatMap] at h
  rcases h with ((h | h) | ⟨s, _, h⟩) | h
  . exact not_reportsMove_of_order h
  . exact not_reportsMove_of_order h
  . exact not_reportsMove_of_order h
  . exact not_reportsMove_of_uiReferences h

theorem diagnostics_eq {policy : Policy} {result : Scoped}
    (h : analyse document policy = .ok result) :
    ∃ lost : List (List Diagnostic),
      List.Forall₂ (unreachable policy (mainOf document)
        (order ((partition document policy).1.map (prepare policy))).1 · = .ok ·)
        (others document) lost ∧
      result.diagnostics = (partition document policy).1.filterMap (relocated? policy) ++
        placelessReports document ++ lost.flatten := by
  obtain ⟨lost, hlost, rfl⟩ := analyse_eq_ok.mp h
  refine ⟨lost, hlost, ?_⟩
  have hkeeps := keepsNames_prepare policy
  simp only [assemble, placelessReports, partition_shared document policy, hkeeps.order_map,
    hkeeps.uiReferences_map, List.append_assoc]

theorem filter_diagnostics {policy : Policy} {result : Scoped}
    (h : analyse document policy = .ok result) :
    result.diagnostics.filter (¬ reportsMove ·) = placelessReports document := by
  obtain ⟨lost, hlost, hdiagnostics⟩ := diagnostics_eq h
  have hmoved : ((partition document policy).1.filterMap (relocated? policy)).filter
      (¬ reportsMove ·) = [] := by
    rw [List.filter_eq_nil_iff]
    intro d hd
    obtain ⟨block, _, hblock⟩ := List.mem_filterMap.mp hd
    have hmove : reportsMove d := .inl (reportsRelocation_of_relocated? hblock)
    simpa using hmove
  have hlost : lost.flatten.filter (¬ reportsMove ·) = [] := by
    rw [List.filter_eq_nil_iff]
    intro d hd
    obtain ⟨reports, hreports, hd⟩ := List.mem_flatten.mp hd
    obtain ⟨s, _, hs⟩ := exists_left_of_forall₂ hlost hreports
    have hmove : reportsMove d := .inr (reportsUnreachable_of_unreachable hs d hd)
    simpa using hmove
  have hothers : (placelessReports document).filter (¬ reportsMove ·) =
      placelessReports document := by
    rw [List.filter_eq_self]
    intro d hd
    simpa using not_reportsMove_of_placelessReports hd
  rw [hdiagnostics, List.filter_append, List.filter_append, hmoved, hlost, hothers, List.nil_append,
    List.append_nil]

theorem diagnostics_shared {result : Scoped} (h : analyse document .shared = .ok result) :
    result.diagnostics = placelessReports document := by
  obtain ⟨lost, hlost, hdiagnostics⟩ := diagnostics_eq h
  have hmoved : (partition document .shared).1.filterMap (relocated? .shared) = [] :=
    List.filterMap_eq_nil_iff.mpr fun _ _ => rfl
  have hlost : lost.flatten = [] := by
    rw [List.flatten_eq_nil_iff]
    intro reports hreports
    obtain ⟨s, _, hs⟩ := exists_left_of_forall₂ hlost hreports
    exact (Except.ok.inj hs).symm
  rw [hdiagnostics, hmoved, hlost, List.nil_append, List.append_nil]

/-- The two results place the same blocks in the same order. What the first exports from outside the
components the second does not, and only reports on that are left out of the first. -/
structure SameOrder (shared page : Scoped) : Prop where
  main : page.main = shared.main
  uiBlocks : page.uiBlocks = shared.uiBlocks
  secondary : page.secondary = shared.secondary
  componentBlocks : page.componentBlocks = shared.componentBlocks.map Block.unexported
  diagnostics : page.diagnostics.filter (¬ reportsMove ·) = shared.diagnostics

theorem sameOrder_of_analyse {shared page : Scoped}
    (hshared : analyse document .shared = .ok shared)
    (hpage : analyse document .page = .ok page) : SameOrder shared page := by
  have hdiagnostics : page.diagnostics.filter (¬ reportsMove ·) = shared.diagnostics := by
    rw [filter_diagnostics hpage, diagnostics_shared hshared]
  obtain ⟨_, _, rfl⟩ := analyse_eq_ok.mp hshared
  obtain ⟨_, _, rfl⟩ := analyse_eq_ok.mp hpage
  refine ⟨rfl, ?_, rfl, ?_, hdiagnostics⟩
  . simp only [assemble, partition_shared document .page]
  . simp only [assemble, partition_shared document .page, (keepsNames_prepare _).order_map,
      List.map_map]
    rfl

/-- A document that was read can be placed under either policy. Both give the same main component,
the same blocks in the same order and the same other components; a page exports nothing of what is
moved into its function, and all that it reports besides is what is moved and what that puts out of
reach. -/
theorem sameOrder_of_parse {text file : String} (h : Document.parse text file = .ok document) :
    ∃ shared page, analyse document .shared = .ok shared ∧ analyse document .page = .ok page ∧
      SameOrder shared page := by
  obtain ⟨shared, hshared⟩ := analyse_of_parse h .shared
  obtain ⟨page, hpage⟩ := analyse_of_parse h .page
  exact ⟨shared, page, hshared, hpage, sameOrder_of_analyse hshared hpage⟩

/-- Two blocks that need each other, one of them exported, and a component that reads the other: as
a page, the document has three reports of which one is left without a page. -/
theorem sameOrder_of_parse_cycle :
    let text :=
      "export const a = b\nconst b = a\nconst B = () => <i>\x7bb\x7d</i>\nexport default () => <p/>"
    ∃ document, Document.parse text "A.tsx" = .ok document ∧
      (∃ page, analyse document .page = .ok page ∧
        page.diagnostics.map (·.problem.code)
          = ["SCOPE_EXPORT_RELOCATED", "SCOPE_DEPENDENCY_CYCLE", "SCOPE_UNREACHABLE_PAGE_SYMBOL"]) ∧
      ∃ shared page, analyse document .shared = .ok shared ∧ analyse document .page = .ok page ∧
        SameOrder shared page := by
  intro text
  have hcheck : ((Document.parse text "A.tsx").toOption.any fun document =>
      (analyse document .page).toOption.any fun page => page.diagnostics.map (·.problem.code)
        == ["SCOPE_EXPORT_RELOCATED", "SCOPE_DEPENDENCY_CYCLE", "SCOPE_UNREACHABLE_PAGE_SYMBOL"]) =
          true := by
    decide +kernel
  obtain ⟨document, hdocument, hcheck⟩ := exists_ok_of_any hcheck
  obtain ⟨page, hpage, hcheck⟩ := exists_ok_of_any hcheck
  exact ⟨document, hdocument, ⟨page, hpage, beq_iff_eq.mp hcheck⟩, sameOrder_of_parse hdocument⟩

end Scope
end ComponentCompiler
