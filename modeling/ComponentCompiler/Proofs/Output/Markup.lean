import ComponentCompiler.Proofs.Compilation
import ComponentCompiler.Proofs.Output.Layout
import ComponentCompiler.Proofs.Scope.Analysis

/-!
This module contains which markup a component is written with. The analysed markup of a document is
kept by name, so it is that of the last component of the same name.
-/

namespace ComponentCompiler
namespace View

variable {document : Document} {views : List Component} {name : String}

theorem lookup_entry (name key : String) (value : α) (entries : List (String × α)) :
    ((name, value) :: entries).lookup key =
      if key = name then some value else entries.lookup key := by
  rw [List.lookup_cons]
  by_cases h : key = name
  . simp [h]
  . rw [beq_false_of_ne h, if_neg h]

theorem lookup_put (name key : String) (value : α) (entries : List (String × α)) :
    (put name value entries).lookup key =
      if key = name then some value else entries.lookup key := by
  induction entries with
  | nil => exact lookup_entry ..
  | cons entry entries ih =>
    obtain ⟨first, old⟩ := entry
    by_cases hfirst : first = name
    . rw [put, if_pos hfirst, lookup_entry, lookup_entry, hfirst]
      split <;> rfl
    . rw [put, if_neg hfirst, lookup_entry, lookup_entry, ih]
      by_cases h : key = first
      . rw [if_pos h, if_pos h, if_neg (h ▸ hfirst)]
      . rw [if_neg h, if_neg h]

theorem lookup_foldl_put {named : List (String × Component)}
    (h : ∀ view ∈ views, view.name ≠ name) :
    (views.foldl (fun named view => put view.name view named) named).lookup name =
      named.lookup name := by
  induction views generalizing named with
  | nil => rfl
  | cons view views ih =>
    rw [List.forall_mem_cons] at h
    rw [List.foldl_cons, ih h.2, lookup_put, if_neg h.1.symm]

theorem lookup_byName {before after : List Component} {view : Component}
    (h : ∀ other ∈ after, other.name ≠ view.name) :
    (byName (before ++ view :: after)).lookup view.name = some view := by
  rw [byName, List.foldl_append, List.foldl_cons, lookup_foldl_put h, lookup_put, if_pos rfl]

/-- No component after this one has its name. -/
def IsLast (components : List ComponentCompiler.Component) (name : String)
    (last : ComponentCompiler.Component) : Prop :=
  ∃ before after, components = before ++ last :: after ∧ last.name = name ∧
    ∀ other ∈ after, other.name ≠ name

theorem exists_isLast {components : List ComponentCompiler.Component}
    (h : ∃ component ∈ components, component.name = name) :
    ∃ last, IsLast components name last := by
  induction components with
  | nil => simp at h
  | cons first components ih =>
    by_cases hlater : ∃ component ∈ components, component.name = name
    . obtain ⟨last, before, after, rfl, hlast⟩ := ih hlater
      exact ⟨last, first :: before, after, rfl, hlast⟩
    . have hfirst : first.name = name := by simpa [hlater] using h
      exact ⟨first, [], components, rfl, hfirst, fun other hother heq =>
        hlater ⟨other, hother, heq⟩⟩

theorem IsLast.eq_of_nodup {components : List ComponentCompiler.Component}
    (h : IsLast components component.name last)
    (hcomponent : component ∈ components) (hnodup : (components.map (·.name)).Nodup) :
    last = component := by
  obtain ⟨before, after, rfl, hname, _⟩ := h
  exact List.inj_on_of_nodup_map hnodup (by simp) hcomponent hname

/-- The reactive containers that the markup of a component can read: those outside components and
its own. -/
def containers (document : Document) (component : ComponentCompiler.Component) : List String :=
  reactiveNames document.blocks ++ reactiveNames component.body

theorem forall₂_of_analyseEach {shared : List String}
    {components : List ComponentCompiler.Component}
    (h : analyseEach shared components = (views, none)) :
    List.Forall₂ (fun component view => analyse component (shared ++ reactiveNames component.body) =
      .ok view) components views := by
  induction components generalizing views with
  | nil =>
    cases h
    exact .nil
  | cons component components ih =>
    rw [analyseEach] at h
    split at h
    . cases h
    . next view hview =>
      obtain ⟨rfl, hnone⟩ := Prod.mk.inj h
      exact .cons hview (ih (Prod.ext rfl hnone))

theorem name_of_analyse {reactive : List String} (h : analyse component reactive = .ok view) :
    view.name = component.name := by
  unfold analyse at h
  dsimp only at h
  split at h
  . cases h
    rfl
  . cases h

theorem lookup_of_isLast (h : analyseAll document = (views, none))
    (hlast : IsLast document.components name last) :
    ∃ view, analyse last (containers document last) = .ok view ∧
      (byName views).lookup name = some view := by
  obtain ⟨before, after, hcomponents, rfl, hafter⟩ := hlast
  have hviews := forall₂_of_analyseEach h
  rw [hcomponents] at hviews
  obtain ⟨first, rest, rfl, _, hrest⟩ := append_of_forall₂ hviews.flip
  obtain ⟨view, later, hview, hlater, rfl⟩ := List.forall₂_cons_right_iff.mp hrest
  refine ⟨view, hview, ?_⟩
  rw [← name_of_analyse hview]
  apply lookup_byName
  intro other hother
  obtain ⟨component, hcomponent, hanalyse⟩ := exists_left_of_forall₂ hlater.flip hother
  rw [name_of_analyse hanalyse, name_of_analyse hview]
  exact hafter component hcomponent

end View

namespace Output

open Compilation (Request Compiled run)

variable {r : Request} {code : String} {document : Document} {doc : Scope.Scoped} {layout : Layout}
variable {views : Views}

/-- What the code of a compilation consists of, and where the builder calls of its functions come
from. Each function holds the blocks of its own component, and that of a page also those outside
components. -/
structure Emitted (r : Request) (code : String) (document : Document) (layout : Layout) : Prop where
  written : layout.WrittenAs document.imports code
  blocks : layout.blocks.Perm (if document.metadata.isPage then [] else document.blocks)
  statements : layout.statements = document.moduleStatements
  components : (layout.functions.map (·.component)).Perm document.components
  headers : ∀ f ∈ layout.functions,
    f.header ∈ ["function", "export function", "export default function"]
  innerBlocks : ∀ f ∈ layout.functions, f.innerBlocks.Perm f.component.body
  outerBlocks : ∀ f ∈ layout.functions, f.outerBlocks = [] ∨
    document.metadata.isPage = true ∧ f.component = Scope.mainOf document ∧
      f.outerBlocks.Perm (document.blocks.map fun block => { block with isExported := false })
  markup : ∀ f ∈ layout.functions, ∃ last view,
    View.IsLast document.components f.component.name last ∧
    ((document.components.map (·.name)).Nodup → last = f.component) ∧
    View.analyse last (View.containers document last) = .ok view ∧ f.view = view.root ∧
    view.diagnostics ⊆ (run r).diagnostics

theorem IsLayout.innerBlocks_perm {policy : Scope.Policy} (h : IsLayout doc views layout)
    (hplaces : Scope.Places document policy doc) :
    ∀ f ∈ layout.functions, f.innerBlocks.Perm f.component.body := by
  intro f hf
  rcases h.frame_cases hf with ⟨hmain, hinner, _⟩ | ⟨s, hs, hsecondary, hinner, _⟩
  . rw [hmain, hinner]
    exact hplaces.uiBlocks
  . rw [hsecondary, hinner]
    exact hplaces.secondaryBlocks s hs

theorem IsLayout.outerBlocks_perm {policy : Scope.Policy} (h : IsLayout doc views layout)
    (hplaces : Scope.Places document policy doc) (hplacement : doc.placement = policy.placement) :
    ∀ f ∈ layout.functions, f.outerBlocks = [] ∨ policy = .page ∧ f.component = doc.main ∧
      f.outerBlocks.Perm (document.blocks.map fun block => { block with isExported := false }) := by
  intro f hf
  rcases h.frame_cases hf with ⟨hmain, _, houter⟩ | ⟨_, _, _, _, houter⟩
  . rw [hplacement] at houter
    cases policy with
    | shared => exact .inl houter
    | page =>
      right
      rw [houter]
      exact ⟨rfl, hmain, hplaces.pageBlocks rfl⟩
  . exact .inl houter

theorem IsLayout.blocks_perm {policy : Scope.Policy} (h : IsLayout doc views layout)
    (hplaces : Scope.Places document policy doc) (hplacement : doc.placement = policy.placement) :
    layout.blocks.Perm (if policy = .page then [] else document.blocks) := by
  rw [h.blocks, hplacement]
  cases policy with
  | shared => exact hplaces.sharedBlocks rfl
  | page => exact .nil

/-- The code of a document has one function for each component, with the blocks of that component.
Its builder calls are those of the last component of the same name, with what the analysis of this
component reports: if no two components share a name, each has its own. -/
theorem emitted_of_run (h : (run r).code = some code) :
    ∃ document doc views m layout, Compiled r document doc views m ∧
      Layout.of doc (View.byName views) = .ok layout ∧ code = layout.text document.imports ∧
      Emitted r code document layout := by
  obtain ⟨document, doc, views, m, hcompiled, rfl, hdiagnostics⟩ := Compilation.exists_compiled h
  obtain ⟨layout, hlayout, hcode⟩ := exists_layout hcompiled.generate
  rw [Scope.imports_of_analyse hcompiled.analyse] at hcode
  refine ⟨document, doc, views, m, layout, hcompiled, hlayout, hcode, ?_⟩
  have hlayout := isLayout_of hlayout
  have hplaces := Scope.places_of_analyse hcompiled.analyse
    (Document.hasOrigins_of_parse hcompiled.parse)
  obtain ⟨hmain, hplacement, hstatements⟩ := Scope.fields_of_analyse hcompiled.analyse
  have hpage : Scope.Policy.of document.metadata = .page ↔ document.metadata.isPage = true := by
    rw [Scope.Policy.of]
    split <;> simp_all
  have hblocks := hlayout.blocks_perm hplaces hplacement
  have houter := hlayout.outerBlocks_perm hplaces hplacement
  simp only [hpage, hmain] at hblocks houter
  have hcomponents : (layout.functions.map (·.component)).Perm document.components := by
    rw [hlayout.components]
    exact Scope.components_perm hcompiled.analyse
  refine ⟨hcode ▸ layout.writtenAs_text _, hblocks, hlayout.statements.trans hstatements,
    hcomponents,
    hlayout.headers, hlayout.innerBlocks_perm hplaces, houter, ?_⟩
  intro f hf
  have hmem : f.component ∈ document.components := hcomponents.mem_iff.mp (List.mem_map_of_mem hf)
  obtain ⟨last, hlast⟩ := View.exists_isLast ⟨f.component, hmem, rfl⟩
  obtain ⟨view, hview, hlookup⟩ := View.lookup_of_isLast hcompiled.analyseAll hlast
  obtain ⟨found, hfound, hroot⟩ := viewOf_eq_ok.mp (hlayout.views f hf)
  obtain rfl : view = found := Option.some.inj (hlookup.symm.trans hfound)
  refine ⟨last, view, hlast, hlast.eq_of_nodup hmem, hview, hroot.symm, ?_⟩
  obtain ⟨before, after, hnamed, _⟩ := List.lookup_eq_some_iff.mp hlookup
  intro d hd
  rw [hdiagnostics, hnamed]
  simp [hd]

/-- A file with two components, one of which has its name from the file. -/
theorem emitted_of_run_named :
    let r : Request :=
      { source := "const A = () => <p/>\nexport default () => <b/>", file := "B.tsx" }
    ∃ code, (run r).code = some code ∧
      ∃ document doc views m layout, Compiled r document doc views m ∧
        Layout.of doc (View.byName views) = .ok layout ∧ code = layout.text document.imports ∧
        Emitted r code document layout := by
  intro r
  have hcode : (run r).code.isSome = true := by decide +kernel
  obtain ⟨code, hcode⟩ := Option.isSome_iff_exists.mp hcode
  exact ⟨code, hcode, emitted_of_run hcode⟩

/-- A file whose two components share a name: the markup of the first is not in the code. -/
theorem emitted_shared_name :
    let r : Request :=
      { source := "function A() \x7b return <p /> \x7d\nexport default () => <b />\n",
        file := "A.tsx" }
    ∃ code document component view, (run r).code = some code ∧
      Document.parse r.source r.file = .ok document ∧
      component ∈ document.components ∧
      View.analyse component (View.containers document component) = .ok view ∧
      Builder.Code.linesAll (Builder.lowerAll view.root) = ["ui.P(\x7b\x7d)"] ∧
      ¬ "ui.P(\x7b\x7d)".toList <:+: code.toList := by
  intro r
  have hcheck :
      ((run r).code.any fun code => (Document.parse r.source r.file).toOption.any fun document =>
      document.components.any fun component =>
        (View.analyse component (View.containers document component)).toOption.any fun view =>
          decide (Builder.Code.linesAll (Builder.lowerAll view.root) = ["ui.P(\x7b\x7d)"]) &&
            decide (¬ "ui.P(\x7b\x7d)".toList <:+: code.toList)) = true := by
    decide +kernel
  obtain ⟨code, hcode, hcheck⟩ := (Option.any_eq_true _ _).mp hcheck
  obtain ⟨document, hdocument, hcheck⟩ := exists_ok_of_any hcheck
  obtain ⟨component, hcomponent, hcheck⟩ := List.any_eq_true.mp hcheck
  obtain ⟨view, hview, hcheck⟩ := exists_ok_of_any hcheck
  rw [Bool.and_eq_true, decide_eq_true_eq, decide_eq_true_eq] at hcheck
  exact ⟨code, document, component, view, hcode, hdocument, hcomponent, hview, hcheck⟩

end Output
end ComponentCompiler
