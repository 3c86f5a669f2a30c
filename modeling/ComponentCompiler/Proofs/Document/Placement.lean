import ComponentCompiler.Proofs.Document.Component
import ComponentCompiler.Proofs.Statement.Language

/-!
This module contains what becomes of the statements of a file. Each of them has exactly one place in
the document, and each part of the document holds its statements in the order of the file. A default
export by name comes last: it marks the component of that name, or is passed on if there is none.
-/

namespace ComponentCompiler

/-- Each block knows if it stands outside components or in the body of one. -/
structure Document.HasOrigins (document : Document) : Prop where
  blocks : ∀ block ∈ document.blocks, block.origin = .topLevel
  bodies : ∀ component ∈ document.components, ∀ block ∈ component.body, block.origin =
    .componentBody

namespace Statement

def Shaped (statement : Statement) : Prop :=
  ∃ lexemes, Shape lexemes statement.body statement.isExported statement.isDefault

namespace Shaped

variable {statement : Statement}

theorem isExported (h : statement.Shaped) (hdefault : statement.isDefault = true) :
    statement.isExported = true := by
  obtain ⟨lexemes, h⟩ := h
  rw [hdefault] at h
  generalize statement.body = content, statement.isExported = isExported at h ⊢
  cases h <;> rfl

theorem isDefault (h : statement.Shaped) (hbody : statement.body = .defaultExpression tokens) :
    statement.isDefault = true := by
  obtain ⟨lexemes, h⟩ := h
  rw [hbody] at h
  generalize statement.isDefault = isDefault, statement.isExported = isExported at h ⊢
  cases h
  rfl

end Shaped

theorem shaped_of_parse (h : parse text file = .ok statements) :
    ∀ statement ∈ statements, statement.Shaped := by
  intro statement hmem
  obtain ⟨items, hitems⟩ := items_of_parse h
  obtain ⟨segment, _, hstatement⟩ := exists_left_of_forall₂ (isStatement_of_parse hitems h) hmem
  exact ⟨segment.1, hstatement.shape⟩

end Statement

namespace Source

/-- What a statement of a file becomes. -/
inductive Place where
  | declaration (declaration : Import)
  | component (component : Component)
  | block (block : Block)
  | moduleStatement (block : Block)
  | defaultName (name : String) (statement : Statement)

namespace Place

def declaration? : Place → Option Import
  | .declaration content => some content
  | _ => none

def component? : Place → Option Component
  | .component content => some content
  | _ => none

def block? : Place → Option Block
  | .block content => some content
  | _ => none

def moduleStatement? : Place → Option Block
  | .moduleStatement content => some content
  | _ => none

def defaultName? : Place → Option (String × Statement)
  | .defaultName name statement => some (name, statement)
  | _ => none

end Place

/-- Statements that can be components or blocks of the document. -/
def isCode : Statement.Body → Bool
  | .function _ | .variable _ | .expression _ => true
  | _ => false

/-- Statements that are passed on as they are, unless they export a component. -/
def isExport : Statement.Body → Bool
  | .passthrough _ | .defaultExpression _ => true
  | _ => false

/-- The place of a statement in the document. -/
inductive Placed (s : Source) (statement : Statement) : Place → Prop where
  | importing {tokens : List Lexeme} {declaration : Import}
      (hbody : statement.body = .importing tokens)
      (h : s.importOf statement tokens = .ok declaration) :
    Placed s statement (.declaration declaration)
  | component {component : Component} (h : s.IsComponent statement component) :
    Placed s statement (.component component)
  | block {block : Block} (hcode : isCode statement.body = true)
      (hnone : ∀ component, ¬ s.IsComponent statement component)
      (h : s.block .topLevel statement = .ok block) :
    Placed s statement (.block block)
  | moduleStatement {block : Block} (hexport : isExport statement.body = true)
      (hname : ∀ lexeme : Lexeme, lexeme.terminal = .name →
        statement.body ≠ .defaultExpression [lexeme])
      (hnone : ∀ component, ¬ s.IsComponent statement component)
      (h : s.block .topLevel statement = .ok block) :
    Placed s statement (.moduleStatement block)
  | defaultName {lexeme : Lexeme} (hbody : statement.body = .defaultExpression [lexeme])
      (hname : lexeme.terminal = .name) :
    Placed s statement (.defaultName lexeme.value statement)

/-- What the default export by name, if there is one, does to the components and to the statements
that are passed on. -/
inductive Exports (s : Source) :
    List (String × Statement) → List Component → List Block → List Component → List Block →
      Prop where
  | none {components : List Component} {blocks : List Block} :
    Exports s [] components blocks components blocks
  | promoted {statement : Statement} {before after : List Component} {component : Component}
      {blocks : List Block}
      (hbefore : ∀ other ∈ before, other.name ≠ component.name) :
    Exports s [(component.name, statement)] (before ++ component :: after) blocks
      (before ++ { component with isDefault := true, isExported := true } :: after) blocks
  | passedOn {name : String} {statement : Statement} {components : List Component}
      {blocks : List Block} {block : Block}
      (hnone : ∀ component ∈ components, component.name ≠ name)
      (h : s.block .topLevel statement = .ok block) :
    Exports s [(name, statement)] components blocks components (blocks ++ [block])

variable {s : Source} {statement : Statement} {draft draft' : Draft} {statements : List Statement}
variable {places : List Place}

def Draft.put (draft : Draft) : Place → Draft
  | .declaration declaration => { draft with imports := draft.imports ++ [declaration] }
  | .component component => { draft with components := draft.components ++ [component] }
  | .block block => { draft with blocks := draft.blocks ++ [block] }
  | .moduleStatement block => { draft with moduleStatements := draft.moduleStatements ++ [block] }
  | .defaultName name statement =>
    { draft with defaultNames := draft.defaultNames ++ [(name, statement)] }

theorem not_isFunctionExpression_singleton : ¬ IsFunctionExpression [lexeme] code := by
  intro h
  generalize htokens : [lexeme] = tokens at h
  cases h with
  | function => simp at htokens
  | arrow => simp at htokens

theorem not_isComponent_of_passthrough (hbody : statement.body = .passthrough tokens) :
    ∀ component, ¬ s.IsComponent statement component := by
  rintro _ ⟨_, hdefines, _⟩
  cases hdefines with
  | _ hbody' => simp [hbody] at hbody'

theorem not_isComponent_of_singleton (hbody : statement.body = .defaultExpression [lexeme]) :
    ∀ component, ¬ s.IsComponent statement component := by
  rintro _ ⟨_, hdefines, _⟩
  cases hdefines with
  | defaultExpression hbody' h =>
    rw [hbody] at hbody'
    cases hbody'
    exact not_isFunctionExpression_singleton h
  | _ hbody' => simp [hbody] at hbody'

theorem add_ok (h : s.add draft statement = .ok draft') :
    ∃ place, s.Placed statement place ∧ draft' = draft.put place := by
  have hmodule {draft'} (hexport : isExport statement.body = true)
      (hname : ∀ lexeme : Lexeme, lexeme.terminal = .name →
      statement.body ≠ .defaultExpression [lexeme])
      (hnone : ∀ component, ¬ s.IsComponent statement component)
      (h : add.asModuleStatement s draft statement = .ok draft') :
      ∃ place, s.Placed statement place ∧ draft' = draft.put place := by
    obtain ⟨block, hblock, h⟩ := bind_eq_ok.mp h
    cases h
    exact ⟨_, .moduleStatement hexport hname hnone hblock, rfl⟩
  unfold add at h
  split at h
  . next tokens hbody =>
    obtain ⟨declaration, hread, h⟩ := bind_eq_ok.mp h
    cases h
    exact ⟨_, .importing hbody hread, rfl⟩
  . simp at h
  . next tokens hbody =>
    exact hmodule (by rw [hbody]; rfl) (by simp [hbody]) (not_isComponent_of_passthrough hbody) h
  . next tokens hbody =>
    split at h
    . next lexeme =>
      split at h
      . next hname =>
        cases h
        exact ⟨_, .defaultName hbody hname, rfl⟩
      . next hname =>
        refine hmodule (by rw [hbody]; rfl) ?_ (not_isComponent_of_singleton hbody) h
        rintro other hother hbody'
        rw [hbody] at hbody'
        cases hbody'
        exact hname hother
    . next hsingle =>
      obtain ⟨found, hfound, h⟩ := bind_eq_ok.mp h
      have hrecognised := recognised_default hbody hfound
      cases found with
      | some component =>
        cases h
        exact ⟨_, .component hrecognised, rfl⟩
      | none =>
        refine hmodule (by rw [hbody]; rfl) ?_ hrecognised h
        rintro lexeme _ hbody'
        rw [hbody] at hbody'
        cases hbody'
        exact hsingle lexeme rfl
  . next himporting hreturning hpassthrough hdefault =>
    obtain ⟨found, hfound, h⟩ := bind_eq_ok.mp h
    have hrecognised := recognised_component? hdefault hfound
    cases found with
    | some component =>
      cases h
      exact ⟨_, .component hrecognised, rfl⟩
    | none =>
      obtain ⟨block, hblock, h⟩ := bind_eq_ok.mp h
      cases h
      refine ⟨_, .block ?_ hrecognised hblock, rfl⟩
      cases hbody : statement.body with
      | importing => exact absurd hbody (himporting _)
      | returning => exact absurd hbody (hreturning _ _)
      | passthrough => exact absurd hbody (hpassthrough _)
      | defaultExpression => exact absurd hbody (hdefault _)
      | _ => rfl

theorem foldlM_add_ok (h : statements.foldlM s.add draft = .ok draft') :
    ∃ places, List.Forall₂ s.Placed statements places ∧ draft' = places.foldl Draft.put draft := by
  induction statements generalizing draft with
  | nil =>
    cases h
    exact ⟨[], .nil, rfl⟩
  | cons statement statements ih =>
    rw [List.foldlM_cons, bind_eq_ok] at h
    obtain ⟨next, hadd, h⟩ := h
    obtain ⟨place, hplaced, rfl⟩ := add_ok hadd
    obtain ⟨places, hplaces, rfl⟩ := ih h
    exact ⟨place :: places, .cons hplaced hplaces, rfl⟩

theorem foldl_put (places : List Place) (draft : Draft) :
    places.foldl Draft.put draft
      =
    { imports := draft.imports ++ places.filterMap Place.declaration?
      blocks := draft.blocks ++ places.filterMap Place.block?
      components := draft.components ++ places.filterMap Place.component?
      moduleStatements := draft.moduleStatements ++ places.filterMap Place.moduleStatement?
      defaultNames := draft.defaultNames ++ places.filterMap Place.defaultName? } := by
  induction places generalizing draft with
  | nil => simp
  | cons place places ih =>
    rw [List.foldl_cons, ih]
    cases place <;> simp [Draft.put, List.filterMap_cons, Place.declaration?, Place.block?,
      Place.component?,
      Place.moduleStatement?, Place.defaultName?]

theorem promote_eq_none (h : promote name components = none) :
    ∀ component ∈ components, component.name ≠ name := by
  induction components with
  | nil => simp
  | cons first more ih =>
    rw [promote] at h
    split at h
    . simp at h
    . next hname =>
      exact List.forall_mem_cons.mpr ⟨hname, ih (Option.map_eq_none_iff.mp h)⟩

theorem promote_eq_some {components promoted : List Component}
    (h : promote name components = some promoted) :
    ∃ before component after, components = before ++ component :: after ∧ component.name = name ∧
      (∀ other ∈ before, other.name ≠ name) ∧
      promoted = before ++ { component with isDefault := true, isExported := true } :: after := by
  induction components generalizing promoted with
  | nil => simp [promote] at h
  | cons first more ih =>
    rw [promote] at h
    split at h
    . next hname =>
      cases h
      exact ⟨[], first, more, rfl, hname, by simp, rfl⟩
    . next hname =>
      obtain ⟨promoted, hpromote, rfl⟩ := Option.map_eq_some_iff.mp h
      obtain ⟨before, component, after, rfl, hcomponent, hbefore, rfl⟩ := ih hpromote
      exact ⟨first :: before, component, after, rfl, hcomponent,
        List.forall_mem_cons.mpr ⟨hname, hbefore⟩, rfl⟩

theorem exportDefault_ok (h : s.exportDefault draft name statement = .ok draft') :
    draft'.imports = draft.imports ∧ draft'.blocks = draft.blocks ∧
      s.Exports [(name, statement)] draft.components draft.moduleStatements draft'.components
        draft'.moduleStatements := by
  unfold exportDefault at h
  split at h
  . next promoted hpromote =>
    cases h
    obtain ⟨before, component, after, hcomponents, rfl, hbefore, rfl⟩ := promote_eq_some hpromote
    rw [hcomponents]
    exact ⟨rfl, rfl, .promoted hbefore⟩
  . next hpromote =>
    obtain ⟨block, hblock, h⟩ := bind_eq_ok.mp h
    cases h
    exact ⟨rfl, rfl, .passedOn (promote_eq_none hpromote) hblock⟩

theorem foldlM_exportDefault_ok {names : List (String × Statement)} (hlength : names.length ≤ 1)
    (h : names.foldlM (fun draft (name, statement) => s.exportDefault draft name statement) draft =
      .ok draft') :
    draft'.imports = draft.imports ∧ draft'.blocks = draft.blocks ∧
      s.Exports names draft.components draft.moduleStatements draft'.components
        draft'.moduleStatements := by
  match names with
  | [] =>
    cases h
    exact ⟨rfl, rfl, .none⟩
  | [(name, statement)] =>
    rw [List.foldlM_cons, bind_eq_ok] at h
    obtain ⟨exported, hexport, h⟩ := h
    cases h
    exact exportDefault_ok hexport
  | _ :: _ :: _ => simp at hlength

theorem IsComponent.flags {component : Component} (h : s.IsComponent statement component) :
    component.isExported = statement.isExported ∧ component.isDefault = statement.isDefault := by
  obtain ⟨_, _, _⟩ := h
  exact ⟨rfl, rfl⟩

def Place.defaultCount : Place → Nat
  | .component content => if content.isDefault then 1 else 0
  | .defaultName _ _ => 1
  | _ => 0

def defaultCount (places : List Place) : Nat :=
  (places.filterMap Place.component?).countP
    (·.isDefault) + (places.filterMap Place.defaultName?).length

theorem defaultCount_cons (place : Place) (places : List Place) :
    defaultCount (place :: places) = defaultCount places + place.defaultCount := by
  cases place <;>
    simp only [defaultCount, Place.defaultCount, List.filterMap_cons, Place.component?,
      Place.defaultName?, List.countP_cons, List.length_cons] <;>
    omega

theorem Placed.defaultCount_le (h : s.Placed statement place) (hshaped : statement.Shaped) :
    place.defaultCount ≤ if statement.isDefault then 1 else 0 := by
  cases h with
  | component h => simp [Place.defaultCount, h.flags.2]
  | defaultName hbody => simp [Place.defaultCount, hshaped.isDefault hbody]
  | _ => exact Nat.zero_le _

theorem defaultCount_le (hplaces : List.Forall₂ s.Placed statements places)
    (hshaped : ∀ statement ∈ statements, statement.Shaped) :
    defaultCount places ≤ statements.countP (·.isDefault) := by
  induction hplaces with
  | nil => exact Nat.le_refl _
  | @cons statement place statements places hplaced _ ih =>
    rw [List.forall_mem_cons] at hshaped
    rw [defaultCount_cons, List.countP_cons]
    exact Nat.add_le_add (ih hshaped.2) (hplaced.defaultCount_le hshaped.1)

theorem countP_isDefault_le (h : s.checkDefaultExports statements = .ok u) :
    statements.countP (·.isDefault) ≤ 1 := by
  rw [List.countP_eq_length_filter]
  unfold checkDefaultExports at h
  split at h
  . simp at h
  . next hfew =>
    generalize statements.filter (·.isDefault) = defaults at hfew
    match defaults with
    | [] => simp
    | [_] => simp
    | first :: second :: more => exact absurd rfl (hfew first second more)

theorem finish_ok {document : Document} (h : s.finish metadata draft = .ok document) :
    document.imports = draft.imports ∧ document.blocks = draft.blocks ∧
      document.components = draft.components ∧
        document.moduleStatements = draft.moduleStatements := by
  unfold finish at h
  split at h
  . simp at h
  . next first more hcomponents =>
    split at h
    . simp at h
    . cases h
      exact ⟨rfl, rfl, hcomponents.symm, rfl⟩

/-- The document has each statement in its place. -/
structure Holds (s : Source) (document : Document) (places : List Place) : Prop where
  imports : document.imports = places.filterMap Place.declaration?
  blocks : document.blocks = places.filterMap Place.block?
  exports : s.Exports (places.filterMap Place.defaultName?) (places.filterMap Place.component?)
    (places.filterMap Place.moduleStatement?) document.components document.moduleStatements

theorem document_ok {document : Document} (h : s.document metadata statements = .ok document)
    (hshaped : ∀ statement ∈ statements, statement.Shaped) :
    ∃ places, List.Forall₂ s.Placed statements places ∧ s.Holds document places := by
  unfold Source.document at h
  simp only [bind_eq_ok] at h
  obtain ⟨_, hcheck, draft, hadd, exported, hexport, h⟩ := h
  obtain ⟨places, hplaces, rfl⟩ := foldlM_add_ok hadd
  obtain ⟨himports, hblocks, hcomponents, hmodule⟩ := finish_ok h
  have hlength : (places.filterMap Place.defaultName?).length ≤ 1 :=
    calc
      _ ≤ defaultCount places := Nat.le_add_left _ _
      _ ≤ statements.countP (·.isDefault) := defaultCount_le hplaces hshaped
      _ ≤ 1 := countP_isDefault_le hcheck
  rw [foldl_put] at hexport
  obtain ⟨himports', hblocks', hexports⟩ := foldlM_exportDefault_ok hlength hexport
  refine ⟨places, hplaces, himports.trans himports', hblocks.trans hblocks', ?_⟩
  rw [hcomponents, hmodule]
  exact hexports

theorem Exports.exists_original {components components' : List Component} {component : Component}
    (h : s.Exports names components blocks components' blocks') (hmem : component ∈ components') :
    ∃ original ∈ components,
      component =
        { original with isDefault := component.isDefault, isExported := component.isExported } := by
  cases h with
  | none => exact ⟨component, hmem, rfl⟩
  | passedOn => exact ⟨component, hmem, rfl⟩
  | @promoted _ before after original =>
    rcases List.mem_append.mp hmem with hmem | hmem
    . exact ⟨component, List.mem_append_left _ hmem, rfl⟩
    . rcases List.mem_cons.mp hmem with rfl | hmem
      . exact ⟨original, by simp, rfl⟩
      . exact ⟨component, by simp [hmem], rfl⟩

theorem Yields.exists_markupAt (h : s.Yields code blocks tree) :
    ∃ start stop, s.markupAt start stop = .ok tree := by
  cases h with
  | body h =>
    obtain ⟨_, _, _, _, start, stop, _, hmarkup⟩ := h
    exact ⟨start, stop, hmarkup⟩
  | expression h =>
    obtain ⟨start, stop, _, hmarkup⟩ := h
    exact ⟨start, stop, hmarkup⟩

theorem origin_of_block {block : Block} (h : s.block origin statement = .ok block) :
    block.origin = origin := by
  simp only [Source.block, bind_eq_ok] at h
  obtain ⟨_, _, _, _, _, _, h⟩ := h
  cases h
  rfl

theorem Holds.yields {document : Document} {component : Component} (h : s.Holds document places)
    (hplaces : List.Forall₂ s.Placed statements places) (hmem : component ∈ document.components) :
    ∃ statement ∈ statements, ∃ code, s.Defines statement component.name code ∧
      s.Yields code component.body component.markup := by
  obtain ⟨original, horiginal, heq⟩ := h.exports.exists_original hmem
  rw [heq]
  obtain ⟨place, hplace, hcomponent⟩ := List.mem_filterMap.mp horiginal
  obtain ⟨statement, hstatement, hplaced⟩ := exists_left_of_forall₂ hplaces hplace
  cases hplaced with
  | component h =>
    cases hcomponent
    obtain ⟨_, hdefines, hyields⟩ := h
    exact ⟨statement, hstatement, _, hdefines, hyields⟩
  | _ => simp [Place.component?] at hcomponent

end Source

namespace Document

open Source (Placed Holds)

variable {text file : String} {document : Document} {statements : List Statement}

theorem exists_places (h : Document.parse text file = .ok document) :
    ∃ statements places, Statement.parse text file = .ok statements ∧
      List.Forall₂ (Placed ⟨text, file⟩) statements places ∧
        Holds ⟨text, file⟩ document places := by
  obtain ⟨statements, hstatements, hdocument⟩ := bind_eq_ok.mp h
  obtain ⟨places, hplaces, hholds⟩ :=
    Source.document_ok hdocument (Statement.shaped_of_parse hstatements)
  exact ⟨statements, places, hstatements, hplaces, hholds⟩

theorem written_of_parse (h : Document.parse text file = .ok document) :
    ∀ component ∈ document.components,
      ∃ start stop, Source.markupAt ⟨text, file⟩ start stop = .ok component.markup := by
  intro component hmem
  obtain ⟨statements, places, _, hplaces, hholds⟩ := exists_places h
  obtain ⟨statement, _, code, _, hyields⟩ := hholds.yields hplaces hmem
  exact hyields.exists_markupAt

theorem hasOrigins_of_parse (h : Document.parse text file = .ok document) :
    document.HasOrigins := by
  obtain ⟨statements, places, _, hplaces, hholds⟩ := exists_places h
  constructor
  . intro block hblock
    rw [hholds.blocks] at hblock
    obtain ⟨place, hplace, hblock⟩ := List.mem_filterMap.mp hblock
    obtain ⟨statement, _, hplaced⟩ := exists_left_of_forall₂ hplaces hplace
    cases hplaced with
    | block _ _ hread =>
      cases hblock
      exact Source.origin_of_block hread
    | _ => cases hblock
  . intro component hcomponent block hblock
    obtain ⟨statement, _, code, _, hyields⟩ := hholds.yields hplaces hcomponent
    generalize component.body = blocks, component.markup = tree at hyields hblock
    cases hyields with
    | body hreturns =>
      obtain ⟨_, _, hblocks, _, _⟩ := hreturns
      obtain ⟨_, _, hread⟩ := exists_left_of_forall₂ hblocks hblock
      exact Source.origin_of_block hread
    | expression => cases hblock

/-- Every statement of a file has exactly one place in its document, in the order of the file, and
what the default export by name adds to that is to mark the first component of the name, or to be
passed on. The components are those functions that result in markup, each with the statements of its
body before the first return. -/
theorem placed_of_parse {text file : String} {document : Document}
    (h : Document.parse text file = .ok document) :
    ∃ statements places, Statement.parse text file = .ok statements ∧
      List.Forall₂ (Placed ⟨text, file⟩) statements places ∧ Holds ⟨text, file⟩ document places ∧
      ∀ component ∈ document.components, ∃ statement ∈ statements, ∃ code,
        Source.Defines ⟨text, file⟩ statement component.name code ∧
        Source.Yields ⟨text, file⟩ code component.body component.markup := by
  obtain ⟨statements, places, hstatements, hplaces, hholds⟩ := exists_places h
  exact ⟨statements, places, hstatements, hplaces, hholds, fun _ => hholds.yields hplaces⟩

/-- A file whose default export names its component, which has a statement before its return. -/
theorem placed_of_parse_promoted :
    let text := "import 'a'\nlet b\nfunction A() \x7b b; return (<p/>) \x7d\nexport default A"
    ∃ document statements places, Document.parse text "A.tsx" = .ok document ∧
      document.components.map (fun c => (c.name, c.isDefault, c.body.length)) = [("A", true, 1)] ∧
      Statement.parse text "A.tsx" = .ok statements ∧
      List.Forall₂ (Placed ⟨text, "A.tsx"⟩) statements places ∧
      Holds ⟨text, "A.tsx"⟩ document places := by
  intro text
  have hparse : ((Document.parse text "A.tsx").map fun document =>
      document.components.map fun c => (c.name, c.isDefault, c.body.length)).toOption
        = some [("A", true, 1)] := by
    decide +kernel
  cases hdocument : Document.parse text "A.tsx" with
  | error failure => simp [hdocument, Except.map, Except.toOption] at hparse
  | ok document =>
    obtain ⟨statements, places, hstatements, hplaces, hholds, _⟩ := placed_of_parse hdocument
    refine ⟨document, statements, places, rfl, ?_, hstatements, hplaces, hholds⟩
    simpa [hdocument, Except.map, Except.toOption] using hparse

end Document
end ComponentCompiler
