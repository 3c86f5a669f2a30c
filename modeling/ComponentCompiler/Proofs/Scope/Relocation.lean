import ComponentCompiler.Proofs.Document.Default
import ComponentCompiler.Proofs.Scope.Analysis

/-!
This module contains what becomes of names when declarations are moved into the function of a page:
which of them the parameters of the page capture, and what is left outside that can not reach them
any more.
-/

namespace ComponentCompiler

/-- The names that a block declares and those that it reads from outside. -/
def Block.names (block : Block) : List String :=
  block.declares ++ block.references

def Component.parameterNames (component : Component) : List String :=
  component.parameters.flatMap (·.names)

namespace Scope

variable {document : Document} {policy : Policy} {result : Scoped} {name : String}

namespace Scoped

/-- A block outside components declares the name. -/
def Declares (result : Scoped) (name : String) : Prop :=
  ∃ block ∈ result.componentBlocks, name ∈ block.declares

/-- A block in the body of a component declares the name. -/
def DeclaresInside (result : Scoped) (name : String) : Prop :=
  (∃ block ∈ result.uiBlocks, name ∈ block.declares) ∨
    ∃ s ∈ result.secondary, ∃ block ∈ s.uiBlocks, name ∈ block.declares

/-- A block that is moved into the function of the main component declares or reads a name that a
parameter of this function binds. -/
def Captures (result : Scoped) (name : String) : Prop :=
  name ∈ result.main.parameterNames ∧ ∃ block ∈ result.componentBlocks, name ∈ block.names

/-- A statement that stays outside reads a name that only a moved block declares. -/
def Strands (result : Scoped) (name : String) : Prop :=
  (∃ block ∈ result.moduleStatements, name ∈ block.references) ∧ result.Declares name ∧
    (∀ declaration ∈ result.imports, ∀ specifier ∈ declaration.specifiers,
      specifier.localName ≠ name) ∧
    result.main.name ≠ name ∧ ∀ s ∈ result.secondary, s.component.name ≠ name

instance (result : Scoped) (name : String) : Decidable (result.Captures name) :=
  inferInstanceAs (Decidable (_ ∧ ∃ block ∈ _, _))

instance (result : Scoped) (name : String) : Decidable (result.Strands name) :=
  inferInstanceAs
    (Decidable ((∃ block ∈ _, _) ∧ (∃ block ∈ _, _) ∧ (∀ declaration ∈ _, ∀ specifier ∈ _, _) ∧ _ ∧
    ∀ s ∈ _, _))

end Scoped

theorem uiReferences_eq_nil {blocks : List Block} {scopes : List (Component × List Block)} :
    uiReferences blocks scopes = []
      ↔
    ∀ block ∈ blocks, ∀ name ∈ block.references,
      (∃ other ∈ blocks, name ∈ other.declares) ∨ ∀ scope ∈ scopes, ∀ inner ∈ scope.2,
        name ∉ inner.declares := by
  simp only [uiReferences, List.flatMap_eq_nil_iff, List.filterMap_eq_nil_iff]
  refine forall₄_congr fun block _ name _ => ?_
  split
  . next h =>
    rw [List.contains_iff_mem, List.mem_flatMap] at h
    simp [h]
  . next h =>
    rw [List.contains_iff_mem, List.mem_flatMap] at h
    rw [or_iff_right h, Option.map_eq_none_iff, List.lookup_eq_none_iff]
    simp only [List.forall_mem_flatMap, List.forall_mem_map, bne_iff_ne]
    refine forall₄_congr fun scope _ inner _ => ?_
    rw [List.forall_mem_ne]

theorem unreachable_page {main : Component} {blocks : List Block} {s : Secondary} :
    unreachable .page main blocks s = .ok []
      ↔
    ∃ found, s.references = .ok found ∧ ∀ entry ∈ found, ∀ block ∈ blocks,
      entry.1 ∉ block.declares := by
  simp only [unreachable, bind_eq_ok, pure_eq_ok, List.filterMap_eq_nil_iff, ite_eq_right_iff,
    reduceCtorEq, imp_false, List.contains_iff_mem, List.mem_flatMap, not_exists, not_and]

structure Silent (document : Document) (result : Scoped) : Prop where
  unexported : ∀ block ∈ document.blocks, block.isExported = false
  readsOutside : ∀ block ∈ result.componentBlocks, ∀ name ∈ block.references,
    result.Declares name ∨ ¬ result.DeclaresInside name
  reaches : ∀ s ∈ result.secondary, ∃ found, s.references = .ok found ∧
    ∀ entry ∈ found, ¬ result.Declares entry.1

theorem silent_of_diagnostics (h : analyse document .page = .ok result)
    (horigins : document.HasOrigins) (hnone : result.diagnostics = []) :
    Silent document result := by
  obtain ⟨lost, hlost, rfl⟩ := analyse_eq_ok.mp h
  simp only [assemble, List.append_eq_nil_iff] at hnone
  obtain ⟨⟨⟨⟨⟨hexported, _⟩, _⟩, _⟩, hreads⟩, hunreachable⟩ := hnone
  constructor
  . intro block hblock
    rw [partition_eq horigins] at hexported
    have hnone := List.filterMap_eq_nil_iff.mp hexported block hblock
    simpa [relocated?] using hnone
  . intro block hblock name hname
    rcases uiReferences_eq_nil.mp hreads block hblock name hname with hdeclares | hinside
    . exact .inl hdeclares
    . right
      rw [List.forall_mem_cons, List.forall_mem_map] at hinside
      rintro (⟨inner, hinner, hmem⟩ | ⟨s, hs, inner, hinner, hmem⟩)
      . exact hinside.1 inner hinner hmem
      . exact hinside.2 s hs inner hinner hmem
  . intro s hs
    obtain ⟨reports, hreports, hread⟩ := exists_left_of_forall₂ (List.Forall₂.flip hlost) hs
    change unreachable .page _ _ s = .ok reports at hread
    rw [List.flatten_eq_nil_iff.mp hunreachable reports hreports, unreachable_page] at hread
    obtain ⟨found, hfound, hnone⟩ := hread
    refine ⟨found, hfound, ?_⟩
    rintro entry hentry ⟨block, hblock, hmem⟩
    exact hnone entry hentry block hblock hmem

/-- The document with other parameters of its main component. -/
def withParameters (document : Document) (parameters : List Parameter) : Document :=
  { document with
    components := document.components.modify (mainIndex document.components) fun main =>
      { main with parameters }
    components_ne_nil := by simpa using document.components_ne_nil }

theorem components_withParameters (document : Document) (parameters : List Parameter) :
    (withParameters document parameters).components
      =
    document.components.modify (mainIndex document.components) fun main =>
      { main with parameters } := rfl

theorem mainIndex_withParameters (document : Document) (parameters : List Parameter) :
    mainIndex (withParameters document parameters).components = mainIndex document.components := by
  have hfind (p : Component → Bool)
      (hp : ∀ component : Component, p { component with parameters } = p component) :
      (withParameters document parameters).components.findIdx? p =
        document.components.findIdx? p := by
    obtain ⟨before, main, after, hcomponents, _, hmodified⟩ :=
      List.exists_of_modify (fun main => { main with parameters })
        (mainIndex_lt document.components_ne_nil)
    rw [components_withParameters, hmodified, hcomponents]
    simp only [List.findIdx?_append, List.findIdx?_cons, hp]
  rw [mainIndex, hfind _ fun _ => rfl, hfind _ fun _ => rfl, mainIndex]

theorem mainOf_withParameters (document : Document) (parameters : List Parameter) :
    mainOf (withParameters document parameters) = { mainOf document with parameters } := by
  apply Option.some.inj
  rw [← getElem?_mainIndex, mainIndex_withParameters, components_withParameters,
    List.getElem?_modify_eq, getElem?_mainIndex]
  rfl

theorem others_withParameters (document : Document) (parameters : List Parameter) :
    others (withParameters document parameters) = others document := by
  rw [others, mainIndex_withParameters, others, components_withParameters,
    List.eraseIdx_modify_of_eq]

theorem partition_withParameters (document : Document) (parameters : List Parameter)
    (policy : Policy) :
    partition (withParameters document parameters) policy = partition document policy := by
  rw [partition, mainOf_withParameters]
  rfl

theorem analyse_withParameters (h : analyse document policy = .ok result)
    (parameters : List Parameter) :
    analyse (withParameters document parameters) policy =
      .ok { result with main := { result.main with parameters } } := by
  obtain ⟨lost, hlost, rfl⟩ := analyse_eq_ok.mp h
  rw [analyse_eq_ok]
  refine ⟨lost, ?_, ?_⟩
  . rw [others_withParameters, mainOf_withParameters, partition_withParameters]
    exact hlost
  . simp only [assemble, mainOf_withParameters, others_withParameters, partition_withParameters]
    rfl

theorem exists_componentBlock {P : Block → Prop}
    (hprepare : ∀ block, P (prepare policy block) ↔ P block)
    (h : analyse document policy = .ok result) (horigins : document.HasOrigins) :
    (∃ block ∈ result.componentBlocks, P block) ↔ ∃ block ∈ document.blocks, P block := by
  obtain ⟨lost, _, rfl⟩ := analyse_eq_ok.mp h
  simp only [assemble, partition_eq horigins, order_perm.mem_iff, List.mem_map,
    exists_exists_and_eq_and, hprepare]

theorem captures_iff (h : analyse document .page = .ok result) (horigins : document.HasOrigins) :
    result.Captures name
      ↔
    name ∈ (mainOf document).parameterNames ∧ ∃ block ∈ document.blocks, name ∈ block.names := by
  rw [Scoped.Captures, exists_componentBlock (fun _ => Iff.rfl) h horigins]
  obtain ⟨lost, _, rfl⟩ := analyse_eq_ok.mp h
  rfl

/-- Moving the declarations of a page into the function of its main component captures exactly those
of their names that a parameter of the component binds. The analysis tells nothing of it: it reports
what is declared inside of components and read outside, and does not look at these parameters. -/
theorem captures_of_parse {text file : String} {document : Document}
    (h : Document.parse text file = .ok document) (hpage : document.metadata.isPage = true) :
    ∃ result, analyse document (.of document.metadata) = .ok result ∧
      (∀ name, result.Captures name
        ↔
        name ∈ (mainOf document).parameterNames ∧ ∃ block ∈ document.blocks, name ∈ block.names) ∧
      (result.diagnostics = [] → ∀ block ∈ result.componentBlocks, ∀ name ∈ block.references,
        result.Declares name ∨ ¬ result.DeclaresInside name) ∧
      ∀ parameters, analyse (withParameters document parameters) (.of document.metadata)
        =
        .ok { result with main := { result.main with parameters } } := by
  have hpolicy : Policy.of document.metadata = .page := if_pos hpage
  obtain ⟨result, hresult⟩ := analyse_of_parse h .page
  rw [hpolicy]
  have horigins := Document.hasOrigins_of_parse h
  refine ⟨result, hresult, fun name => captures_iff hresult horigins, ?_,
    analyse_withParameters hresult⟩
  intro hnone
  exact (silent_of_diagnostics hresult horigins hnone).readsOutside

/-- A page with a parameter that its declaration reads. It would be reported as little as any
other. -/
theorem captures_of_parse_read :
    let text := "// @page\nlet a = b\nexport default (b) => <p/>"
    ∃ document result, Document.parse text "A.tsx" = .ok document ∧
      document.metadata.isPage = true ∧
      analyse document (.of document.metadata) = .ok result ∧ result.Captures "b" ∧
      ∃ other, analyse (withParameters document []) (.of document.metadata) = .ok other ∧
        other.diagnostics = result.diagnostics := by
  intro text
  have hcheck :
      ((Document.parse text "A.tsx").toOption.any fun document => document.metadata.isPage &&
      decide ("b" ∈ (mainOf document).parameterNames ∧
      ∃ block ∈ document.blocks, "b" ∈ block.names)) = true := by
    decide +kernel
  obtain ⟨document, hdocument, hcheck⟩ := exists_ok_of_any hcheck
  rw [Bool.and_eq_true, decide_eq_true_eq] at hcheck
  obtain ⟨result, hresult, hcaptures, _, hparameters⟩ := captures_of_parse hdocument hcheck.1
  exact ⟨document, result, hdocument, hcheck.1, hresult, (hcaptures "b").mpr hcheck.2, _,
    hparameters [], rfl⟩

/-- A page whose parameter takes the name that its declaration reads, which is not reported. -/
theorem captures_greeting :
    let text :=
      "// @page\nconst greeting = 'Hi ' + name\nexport default function A(\x7b name \x7d) \x7b return <p>\x7bgreeting\x7d</p> \x7d\n"
    ∃ document result, Document.parse text "<stdin>" = .ok document ∧
      document.metadata.isPage = true ∧
      analyse document (.of document.metadata) = .ok result ∧ result.diagnostics = [] ∧
      result.Captures "name" := by
  intro text
  have hcheck :
      ((Document.parse text "<stdin>").toOption.any fun document => document.metadata.isPage &&
      (analyse document (.of document.metadata)).toOption.any fun result =>
        decide (result.diagnostics = []) && decide (result.Captures "name")) = true := by
    decide +kernel
  obtain ⟨document, hdocument, hcheck⟩ := exists_ok_of_any hcheck
  rw [Bool.and_eq_true] at hcheck
  obtain ⟨result, hresult, hdecided⟩ := exists_ok_of_any hcheck.2
  rw [Bool.and_eq_true, decide_eq_true_eq, decide_eq_true_eq] at hdecided
  exact ⟨document, result, hdocument, hcheck.1, hresult, hdecided⟩

theorem analyse_withStatements (h : analyse document policy = .ok result)
    (moduleStatements : List Block) :
    analyse { document with moduleStatements } policy = .ok { result with moduleStatements } := by
  obtain ⟨lost, hlost, rfl⟩ := analyse_eq_ok.mp h
  exact analyse_eq_ok.mpr ⟨lost, hlost, rfl⟩

theorem forall_components {P : Component → Prop} (h : analyse document policy = .ok result) :
    (P result.main ∧ ∀ s ∈ result.secondary, P s.component) ↔
      ∀ component ∈ document.components, P component := by
  obtain ⟨lost, _, rfl⟩ := analyse_eq_ok.mp h
  obtain ⟨before, after, hcomponents, hothers⟩ := mainOf_and_others document
  have hsecondary : (∀ s ∈ others document, P s.component) ↔
      ∀ component ∈ before ++ after, P component := by
    rw [← hothers, List.forall_mem_map]
  simp only [assemble, hsecondary, hcomponents, List.forall_mem_append, List.forall_mem_cons]
  tauto

theorem strands_iff (h : analyse document policy = .ok result) (horigins : document.HasOrigins) :
    result.Strands name
      ↔
    (∃ block ∈ document.moduleStatements, name ∈ block.references) ∧
    (∃ block ∈ document.blocks, name ∈ block.declares) ∧
      (∀ declaration ∈ document.imports, ∀ specifier ∈ declaration.specifiers,
        specifier.localName ≠ name) ∧
      ∀ component ∈ document.components, component.name ≠ name := by
  have hdeclares : result.Declares name ↔ ∃ block ∈ document.blocks, name ∈ block.declares :=
    exists_componentBlock (fun block => by cases policy <;> rfl) h horigins
  rw [Scoped.Strands, hdeclares, ← forall_components h]
  obtain ⟨lost, _, rfl⟩ := analyse_eq_ok.mp h
  rfl

theorem moduleStatements_of_parse {text file : String} {statements : List Statement}
    (h : Document.parse text file = .ok document) (hpage : document.metadata.isPage = true)
    (hstatements : Statement.parse text file = .ok statements) :
    List.Forall₂ (Source.block ⟨text, file⟩ .topLevel · = .ok ·)
      (statements.filter (·.body.isPassthrough))
      document.moduleStatements := by
  obtain ⟨statements', places, hstatements', hplaces, hholds⟩ := Document.exists_places h
  obtain rfl : statements' = statements := Except.ok.inj (hstatements'.symm.trans hstatements)
  have hdefaults := Document.oneDefault_of_parse h hstatements
  exact Source.passthroughs_of_default hplaces hholds
    (Statement.shaped_of_parse hstatements) hdefaults.statements
    (hdefaults.page hpage)

/-- What stays outside of the function of a page are its other components and its exports by name.
If nothing is reported, then no other component reads what is declared in the function, and nothing
that is declared there was exported where it stood. But an export by name strands whatever it reads,
and the analysis tells nothing of it, as it does not look at these statements. -/
theorem strands_of_parse {text file : String} {document : Document}
    (h : Document.parse text file = .ok document) (hpage : document.metadata.isPage = true) :
    ∃ statements result, Statement.parse text file = .ok statements ∧
      analyse document (.of document.metadata) = .ok result ∧
      (∀ name, result.Strands name
        ↔
        (∃ statement ∈ statements, statement.body.isPassthrough = true ∧
          ∃ block, Source.block ⟨text, file⟩ .topLevel statement = .ok block ∧
            name ∈ block.references) ∧
        (∃ block ∈ document.blocks, name ∈ block.declares) ∧
        (∀ declaration ∈ document.imports, ∀ specifier ∈ declaration.specifiers,
          specifier.localName ≠ name) ∧
        ∀ component ∈ document.components, component.name ≠ name) ∧
      (result.diagnostics = [] →
        (∀ block ∈ document.blocks, block.isExported = false) ∧
        ∀ s ∈ result.secondary, ∃ found, s.references = .ok found ∧
          ∀ entry ∈ found, ¬ result.Declares entry.1) ∧
      ∀ moduleStatements, analyse { document with moduleStatements } (.of document.metadata)
        =
        .ok { result with moduleStatements } := by
  have hpolicy : Policy.of document.metadata = .page := if_pos hpage
  obtain ⟨result, hresult⟩ := analyse_of_parse h .page
  obtain ⟨statements, hstatements, _⟩ := bind_eq_ok.mp h
  have hpassed := moduleStatements_of_parse h hpage hstatements
  have horigins := Document.hasOrigins_of_parse h
  rw [hpolicy]
  refine ⟨statements, result, hstatements, hresult, ?_, ?_, analyse_withStatements hresult⟩
  . intro name
    rw [strands_iff hresult horigins, exists_of_forall₂_ok hpassed]
    simp only [List.mem_filter, and_assoc]
  . intro hnone
    have hsilent := silent_of_diagnostics hresult horigins hnone
    exact ⟨hsilent.unexported, hsilent.reaches⟩

/-- A page whose export by name reads a declaration and an import. -/
theorem strands_of_parse_listed :
    let text := "// @page\nimport c from 'c'\nlet a\nexport \x7ba, c\x7d\nexport default () => <p/>"
    ∃ document result, Document.parse text "A.tsx" = .ok document ∧
      document.metadata.isPage = true ∧
      analyse document (.of document.metadata) = .ok result ∧ result.Strands "a" := by
  intro text
  have hcheck :
      ((Document.parse text "A.tsx").toOption.any fun document => document.metadata.isPage &&
      decide ((∃ block ∈ document.moduleStatements, "a" ∈ block.references) ∧
      (∃ block ∈ document.blocks, "a" ∈ block.declares) ∧
        (∀ declaration ∈ document.imports, ∀ specifier ∈ declaration.specifiers,
          specifier.localName ≠ "a") ∧
        ∀ component ∈ document.components, component.name ≠ "a")) = true := by
    decide +kernel
  obtain ⟨document, hdocument, hcheck⟩ := exists_ok_of_any hcheck
  rw [Bool.and_eq_true, decide_eq_true_eq] at hcheck
  obtain ⟨statements, result, hstatements, hresult, hstrands, _⟩ :=
    strands_of_parse hdocument hcheck.1
  refine ⟨document, result, hdocument, hcheck.1, hresult, (hstrands "a").mpr ?_⟩
  have hpassed := moduleStatements_of_parse hdocument hcheck.1 hstatements
  simpa only [exists_of_forall₂_ok hpassed, List.mem_filter, and_assoc] using hcheck.2

/-- A page that exports by name what is moved into its function, which is not reported. -/
theorem strands_count :
    let text :=
      "// @page\nconst count = 1\nexport \x7b count \x7d\nexport default function A() \x7b return <p>\x7bcount\x7d</p> \x7d\n"
    ∃ document result, Document.parse text "<stdin>" = .ok document ∧
      document.metadata.isPage = true ∧
      analyse document (.of document.metadata) = .ok result ∧ result.diagnostics = [] ∧
      result.Strands "count" := by
  intro text
  have hcheck :
      ((Document.parse text "<stdin>").toOption.any fun document => document.metadata.isPage &&
      (analyse document (.of document.metadata)).toOption.any fun result =>
        decide (result.diagnostics = []) && decide (result.Strands "count")) = true := by
    decide +kernel
  obtain ⟨document, hdocument, hcheck⟩ := exists_ok_of_any hcheck
  rw [Bool.and_eq_true] at hcheck
  obtain ⟨result, hresult, hdecided⟩ := exists_ok_of_any hcheck.2
  rw [Bool.and_eq_true, decide_eq_true_eq, decide_eq_true_eq] at hdecided
  exact ⟨document, result, hdocument, hcheck.1, hresult, hdecided⟩

end Scope
end ComponentCompiler
