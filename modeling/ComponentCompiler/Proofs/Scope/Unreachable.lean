import ComponentCompiler.Proofs.Scope.Policy

/-!
This module contains which names a component reads and can not reach once the declarations of the
file are moved into the function of a page. Each of them is reported once, at the first place where
it is read.
-/

namespace ComponentCompiler

/-- The item is the first of them with the property. -/
def IsFirst (P : α → Prop) (items : List α) (a : α) : Prop :=
  P a ∧ ∃ before after, items = before ++ a :: after ∧ ∀ b ∈ before, ¬ P b

namespace IsFirst

variable {P : α → Prop} {items more : List α}

theorem mem (h : IsFirst P items a) : a ∈ items := by
  obtain ⟨_, before, after, rfl, _⟩ := h
  simp

theorem not_nil : ¬ IsFirst P [] a := by
  rintro ⟨_, before, after, h, _⟩
  simp at h

theorem cons_iff : IsFirst P (b :: items) a ↔ (P b ∧ a = b) ∨ (¬ P b ∧ IsFirst P items a) := by
  constructor
  . rintro ⟨ha, before, after, hitems, hbefore⟩
    cases before with
    | nil =>
      obtain ⟨rfl, rfl⟩ := List.cons.inj hitems
      exact .inl ⟨ha, rfl⟩
    | cons c before =>
      obtain ⟨rfl, rfl⟩ := List.cons.inj hitems
      rw [List.forall_mem_cons] at hbefore
      exact .inr ⟨hbefore.1, ha, before, after, rfl, hbefore.2⟩
  . rintro (⟨hb, rfl⟩ | ⟨hb, ha, before, after, rfl, hbefore⟩)
    . exact ⟨hb, [], items, rfl, List.forall_mem_nil _⟩
    . exact ⟨ha, b :: before, after, rfl, List.forall_mem_cons.mpr ⟨hb, hbefore⟩⟩

theorem append_iff : IsFirst P (items ++ more) a ↔ IsFirst P items a ∨
    ((∀ b ∈ items, ¬ P b) ∧ IsFirst P more a) := by
  induction items with
  | nil => simp [not_nil]
  | cons b items ih =>
    rw [List.cons_append, cons_iff, cons_iff, ih, List.forall_mem_cons]
    tauto

end IsFirst

theorem exists_isFirst {P : α → Prop} {items : List α} :
    (∃ a, IsFirst P items a) ↔ ∃ a ∈ items, P a := by
  constructor
  . rintro ⟨a, ha⟩
    exact ⟨a, ha.mem, ha.1⟩
  . rintro ⟨a, ha, hP⟩
    induction items with
    | nil => cases ha
    | cons b items ih =>
      by_cases hb : P b
      . exact ⟨b, IsFirst.cons_iff.mpr (.inl ⟨hb, rfl⟩)⟩
      . rcases List.mem_cons.mp ha with rfl | ha
        . exact absurd hP hb
        . obtain ⟨c, hc⟩ := ih ha
          exact ⟨c, IsFirst.cons_iff.mpr (.inr ⟨hb, hc⟩)⟩

namespace Scope

variable {found : List (String × Span)} {name : String} {span : Span}

theorem firstPlaces_concat (found : List (String × Span)) (entry : String × Span) :
    firstPlaces (found ++ [entry])
      =
    if (firstPlaces found).any (·.1 == entry.1) then firstPlaces found
      else firstPlaces found ++ [entry] := by
  rw [firstPlaces, List.foldl_append]
  rfl

theorem mem_firstPlaces {entry : String × Span} :
    entry ∈ firstPlaces found ↔ IsFirst (·.1 = entry.1) found entry := by
  induction found using List.reverseRecOn generalizing entry with
  | nil => simp [firstPlaces, IsFirst.not_nil]
  | append_singleton found last ih =>
    -- the last entry is kept if no entry of its name was
    have hlast : (firstPlaces found).any (·.1 == last.1) = true ↔ ∃ b ∈ found, b.1 = last.1 := by
      rw [← exists_isFirst, List.any_eq_true]
      constructor
      . rintro ⟨b, hb, hname⟩
        rw [beq_iff_eq] at hname
        rw [ih, hname] at hb
        exact ⟨b, hb⟩
      . rintro ⟨b, hb⟩
        refine ⟨b, ih.mpr ?_, beq_iff_eq.mpr hb.1⟩
        rwa [hb.1]
    rw [firstPlaces_concat, IsFirst.append_iff, IsFirst.cons_iff, ← ih]
    simp only [IsFirst.not_nil, and_false, or_false]
    split
    . next hany =>
      obtain ⟨b, hb, hname⟩ := hlast.mp hany
      constructor
      . exact .inl
      . rintro (h | ⟨hnone, _, rfl⟩)
        . exact h
        . exact absurd hname (hnone b hb)
    . next hany =>
      rw [hlast, not_exists] at hany
      rw [List.mem_append, List.mem_singleton]
      refine or_congr_right ⟨?_, And.right ∘ And.right⟩
      rintro rfl
      exact ⟨fun b hb hname => hany b ⟨hb, hname⟩, rfl, rfl⟩

theorem nodup_firstPlaces (found : List (String × Span)) :
    ((firstPlaces found).map Prod.fst).Nodup := by
  induction found using List.reverseRecOn with
  | nil => exact List.nodup_nil
  | append_singleton found last ih =>
    rw [firstPlaces_concat]
    split
    . exact ih
    . next hany =>
      rw [List.map_append, List.nodup_append]
      refine ⟨ih, by simp, ?_⟩
      intro first hfirst second hsecond
      obtain ⟨entry, hentry, rfl⟩ := List.mem_map.mp hfirst
      rw [List.map_singleton, List.mem_singleton] at hsecond
      rintro rfl
      exact hany (List.any_eq_true.mpr ⟨entry, hentry, beq_iff_eq.mpr hsecond⟩)

end Scope

namespace Markup

namespace Site

/-- The code reads the name from outside. -/
def Reads (site : Site) (name : String) : Prop :=
  ∃ names, Name.free site.source [] = .ok names ∧ name ∈ names

def names (site : Site) : List String :=
  (Name.free site.source []).toOption.getD []

theorem mem_names {site : Site} : name ∈ site.names ↔ site.Reads name := by
  rw [names, Reads]
  cases Name.free site.source [] with
  | error e => simp [Except.toOption]
  | ok names => simp [Except.toOption]

theorem freeAt_eq_ok {site : Site} (h : Scope.freeAt site.source site.span = .ok found) :
    found = site.names.map (·, site.span) := by
  obtain ⟨names, hnames, h⟩ := bind_eq_ok.mp h
  cases h
  rw [Site.names, hnames]
  rfl

end Site

end Markup

namespace Scope

def readAt (sites : List Markup.Site) : List (String × Span) :=
  sites.flatMap fun site => site.names.map (·, site.span)

theorem readAt_append (sites more : List Markup.Site) :
    readAt (sites ++ more) = readAt sites ++ readAt more :=
  List.flatMap_append

theorem attributeReferences_eq_ok {attr : Markup.Attribute}
    (h : attributeReferences attr = .ok found) : found = readAt attr.sites := by
  have hsite {role span source} (h : freeAt source span = .ok found) :
      found = readAt [⟨role, span, source⟩] := by
    rw [readAt, List.flatMap_singleton]
    exact Markup.Site.freeAt_eq_ok h
  cases attr with
  | string => exact (Except.ok.inj h).symm
  | boolean => exact (Except.ok.inj h).symm
  | expression span attrName value => exact hsite h
  | spread span value => exact hsite h

theorem flatten_attributeReferences {attributes : List Markup.Attribute}
    {own : List (List (String × Span))}
    (h : List.Forall₂ (attributeReferences · = .ok ·) attributes own) :
    own.flatten = readAt (attributes.flatMap Markup.Attribute.sites) := by
  induction h with
  | nil => rfl
  | cons hattr _ ih =>
    rw [List.flatten_cons, List.flatMap_cons, readAt_append, ih, attributeReferences_eq_ok hattr]

mutual

theorem markupReferences_eq_ok (tree : Markup.Node) {found : List (String × Span)}
    (h : markupReferences tree = .ok found) : found = readAt tree.sites := by
  cases tree with
  | slot span source =>
    rw [markupReferences] at h
    rw [Markup.Node.sites, readAt, List.flatMap_singleton]
    exact Markup.Site.freeAt_eq_ok h
  | text =>
    rw [markupReferences] at h
    exact (Except.ok.inj h).symm
  | fragment span children =>
    rw [markupReferences] at h
    exact markupListReferences_eq_ok children h
  | element span tag attributes children =>
    rw [markupReferences] at h
    obtain ⟨own, hown, h⟩ := bind_eq_ok.mp h
    obtain ⟨inner, hinner, h⟩ := bind_eq_ok.mp h
    cases h
    rw [Markup.Node.sites, readAt_append, flatten_attributeReferences (mapM_eq_ok.mp hown),
      markupListReferences_eq_ok children hinner]

theorem markupListReferences_eq_ok (trees : List Markup.Node) {found : List (String × Span)}
    (h : markupListReferences trees = .ok found) : found = readAt (Markup.Node.sitesAll trees) := by
  cases trees with
  | nil =>
    rw [markupListReferences] at h
    exact (Except.ok.inj h).symm
  | cons tree trees =>
    rw [markupListReferences] at h
    obtain ⟨first, hfirst, h⟩ := bind_eq_ok.mp h
    obtain ⟨more, hmore, h⟩ := bind_eq_ok.mp h
    cases h
    rw [Markup.Node.sitesAll, readAt_append, markupReferences_eq_ok tree hfirst,
      markupListReferences_eq_ok trees hmore]

end

theorem isFirst_map {names : List String} {place : Span} :
    IsFirst (·.1 = name) (names.map (·, place)) (name, span) ↔ name ∈ names ∧ place = span := by
  induction names with
  | nil => simp [IsFirst.not_nil]
  | cons first names ih =>
    rw [List.map_cons, IsFirst.cons_iff, ih, List.mem_cons, Prod.mk.injEq]
    by_cases h : first = name
    . simp [h, eq_comm]
    . simp [h, Ne.symm h]

theorem isFirst_flatMap {items : List α} {names : α → List String} {place : α → Span} :
    IsFirst (·.1 = name) (items.flatMap fun a => (names a).map (·, place a)) (name, span)
      ↔
    ∃ a, IsFirst (name ∈ names ·) items a ∧ place a = span := by
  induction items with
  | nil => simp [IsFirst.not_nil]
  | cons a items ih =>
    rw [List.flatMap_cons, IsFirst.append_iff, isFirst_map, ih]
    simp only [IsFirst.cons_iff, List.forall_mem_map]
    grind

namespace Secondary

/-- The span is that of the first place where the component reads the name: a block in the order in
which they are emitted or, if none does, a piece of code in its markup. -/
def FirstRead (s : Secondary) (name : String) (span : Span) : Prop :=
  (∃ block, IsFirst (name ∈ ·.references) s.uiBlocks block ∧ block.span = span) ∨
    (∀ block ∈ s.uiBlocks, name ∉ block.references) ∧
      ∃ site, IsFirst (·.Reads name) s.component.markup.sites site ∧ site.span = span

/-- The component reads the name somewhere and binds it nowhere. -/
structure ReadsOutside (s : Secondary) (name : String) : Prop where
  notParameter : name ∉ s.component.parameterNames
  notDeclared : ∀ block ∈ s.component.body, name ∉ block.declares
  read : (∃ block ∈ s.component.body, name ∈ block.references) ∨ ∃ site ∈ s.component.markup.sites,
    site.Reads name

variable {s : Secondary} {found : List (String × Span)}

theorem exists_firstRead :
    (∃ span, s.FirstRead name span)
      ↔
    (∃ block ∈ s.uiBlocks, name ∈ block.references) ∨ ∃ site ∈ s.component.markup.sites,
      site.Reads name := by
  rw [← exists_isFirst, ← exists_isFirst]
  constructor
  . rintro ⟨span, ⟨block, hblock, _⟩ | ⟨_, site, hsite, _⟩⟩
    . exact .inl ⟨block, hblock⟩
    . exact .inr ⟨site, hsite⟩
  . intro h
    by_cases hblocks : ∃ block, IsFirst (name ∈ ·.references) s.uiBlocks block
    . obtain ⟨block, hblock⟩ := hblocks
      exact ⟨block.span, .inl ⟨block, hblock, rfl⟩⟩
    . obtain ⟨site, hsite⟩ := h.resolve_left hblocks
      rw [exists_isFirst] at hblocks
      exact ⟨site.span, .inr
        ⟨fun block hblock hname => hblocks ⟨block, hblock, hname⟩, site, hsite, rfl⟩⟩

theorem references_eq_ok (h : s.references = .ok found) :
    (found.map Prod.fst).Nodup ∧
      ∀ name span, (name, span) ∈ found
        ↔
        s.FirstRead name span ∧ name ∉ s.component.parameterNames ∧
          ∀ block ∈ s.uiBlocks, name ∉ block.declares := by
  obtain ⟨inMarkup, hmarkup, h⟩ := bind_eq_ok.mp h
  cases h
  obtain rfl := markupReferences_eq_ok _ hmarkup
  constructor
  . exact (List.filter_sublist.map Prod.fst).nodup (nodup_firstPlaces _)
  . intro name span
    have hblocks (blocks : List Block) :
        (∀ entry ∈ blocks.flatMap fun block => block.references.map (·, block.span),
          ¬ entry.1 = name)
        ↔ ∀ block ∈ blocks, name ∉ block.references := by
      simp only [List.forall_mem_flatMap, List.forall_mem_map, List.forall_mem_ne']
    have hinner :
        (!(s.component.parameters.flatMap (·.names) ++ s.uiBlocks.flatMap (·.declares)).contains
          name) = true
        ↔ name ∉ s.component.parameterNames ∧ ∀ block ∈ s.uiBlocks, name ∉ block.declares := by
      simp [Component.parameterNames]
    rw [List.mem_filter, mem_firstPlaces, IsFirst.append_iff, isFirst_flatMap, readAt,
      isFirst_flatMap, hblocks, hinner]
    simp only [Markup.Site.mem_names]
    rfl

end Secondary

variable {document : Document} {result : Scoped}

/-- A name that the component reads from outside itself, where a page has it declared in its
function. -/
def Unreachable (document : Document) (s : Secondary) (name : String) : Prop :=
  (∃ block ∈ document.blocks, name ∈ block.declares) ∧ s.ReadsOutside name

/-- There is one report for each name that the component can not reach, at the first place where it
is read. -/
def ReportsEach (document : Document) (result : Scoped) (s : Secondary)
    (reports : List Diagnostic) : Prop :=
  ∃ names : List String, names.Nodup ∧ (∀ name, name ∈ names ↔ Unreachable document s name) ∧
    List.Forall₂ (fun name d => ∃ span, s.FirstRead name span ∧
      d = .of (.unreachablePageSymbol name result.main.name s.component.name) span none) names
        reports

theorem unreachable_page_eq_ok {main : Component} {blocks : List Block} {s : Secondary}
    {reports : List Diagnostic} (h : unreachable .page main blocks s = .ok reports) :
    ∃ found, s.references = .ok found ∧
      let lost := found.filter fun entry => ∃ block ∈ blocks, entry.1 ∈ block.declares
      reports = lost.map fun entry =>
        .of (.unreachablePageSymbol entry.1 main.name s.component.name) entry.2 none := by
  obtain ⟨found, hfound, h⟩ := bind_eq_ok.mp h
  cases h
  refine ⟨found, hfound, ?_⟩
  simp only
  rw [← List.filterMap_eq_map, List.filterMap_filter]
  congr 1
  funext entry
  simp only [List.contains_iff_mem, List.mem_flatMap, decide_eq_true_eq]
  rfl

theorem reportsEach_of_unreachable {s : Secondary} {reports : List Diagnostic}
    (h : analyse document .page = .ok result) (horigins : document.HasOrigins)
    (hs : s ∈ result.secondary)
    (hreports : unreachable .page result.main result.componentBlocks s = .ok reports) :
    ReportsEach document result s reports := by
  obtain ⟨found, hfound, rfl⟩ := unreachable_page_eq_ok hreports
  obtain ⟨hnodup, hmem⟩ := s.references_eq_ok hfound
  have hbody : s.uiBlocks.Perm s.component.body := by
    obtain ⟨_, _, rfl⟩ := analyse_eq_ok.mp h
    rw [(component_of_mem_others hs).2]
    exact order_perm
  have hdeclared (name : String) : (∃ block ∈ result.componentBlocks, name ∈ block.declares) ↔
      ∃ block ∈ document.blocks, name ∈ block.declares :=
    exists_componentBlock (fun _ => Iff.rfl) h horigins
  refine ⟨(found.filter fun entry => ∃ block ∈ result.componentBlocks, entry.1 ∈ block.declares).map
    Prod.fst, ?_, ?_, ?_⟩
  . exact (List.filter_sublist.map Prod.fst).nodup hnodup
  . intro name
    rw [List.mem_map]
    constructor
    . rintro ⟨entry, hentry, rfl⟩
      obtain ⟨hentry, hlost⟩ := List.mem_filter.mp hentry
      rw [decide_eq_true_eq, hdeclared] at hlost
      obtain ⟨hread, hparameter, hlocal⟩ := (hmem entry.1 entry.2).mp hentry
      have hread := Secondary.exists_firstRead.mp ⟨_, hread⟩
      simp only [hbody.mem_iff] at hread hlocal
      exact ⟨hlost, hparameter, hlocal, hread⟩
    . rintro ⟨hlost, hparameter, hlocal, hread⟩
      simp only [← hbody.mem_iff] at hread hlocal
      obtain ⟨span, hspan⟩ := Secondary.exists_firstRead.mpr hread
      have hlost := decide_eq_true ((hdeclared name).mpr hlost)
      exact ⟨(name, span),
        List.mem_filter.mpr ⟨(hmem name span).mpr ⟨hspan, hparameter, hlocal⟩, hlost⟩, rfl⟩
  . rw [List.forall₂_map_left_iff, List.forall₂_map_right_iff, List.forall₂_same]
    intro entry hentry
    have hfirst := (hmem entry.1 entry.2).mp (List.mem_of_mem_filter hentry)
    exact ⟨entry.2, hfirst.1, rfl⟩

theorem filter_reportsUnreachable (h : analyse document .page = .ok result) :
    ∃ reports : List (List Diagnostic), result.diagnostics.filter reportsUnreachable =
      reports.flatten ∧
      List.Forall₂ (unreachable .page result.main result.componentBlocks · =
        .ok ·) result.secondary reports := by
  obtain ⟨reports, hreports, hdiagnostics⟩ := diagnostics_eq h
  have hmoved :
      ((partition document .page).1.filterMap (relocated? .page)).filter reportsUnreachable =
        [] := by
    rw [List.filter_eq_nil_iff]
    intro d hd
    obtain ⟨block, _, hblock⟩ := List.mem_filterMap.mp hd
    have hcode := reportsRelocation_of_relocated? hblock
    rw [reportsRelocation] at hcode
    rw [decide_eq_true_eq, reportsUnreachable, hcode]
    decide
  have hplaceless : (placelessReports document).filter reportsUnreachable = [] := by
    rw [List.filter_eq_nil_iff]
    intro d hd hunreachable
    exact not_reportsMove_of_placelessReports hd (.inr (of_decide_eq_true hunreachable))
  have hlost : reports.flatten.filter reportsUnreachable = reports.flatten := by
    rw [List.filter_eq_self]
    intro d hd
    obtain ⟨own, hown, hd⟩ := List.mem_flatten.mp hd
    obtain ⟨s, _, hs⟩ := exists_left_of_forall₂ hreports hown
    exact decide_eq_true (reportsUnreachable_of_unreachable hs d hd)
  refine ⟨reports, ?_, ?_⟩
  . rw [hdiagnostics, List.filter_append, List.filter_append, hmoved, hplaceless, hlost,
      List.nil_append, List.nil_append]
  . obtain ⟨_, _, rfl⟩ := analyse_eq_ok.mp h
    exact hreports

/-- In a document that was read and is placed as a page, what is reported as out of reach are, for
each component but the main one, the names that are declared outside of components and that the
component reads without binding them, each once and at its first place. -/
theorem unreachable_of_parse {text file : String} (h : Document.parse text file = .ok document) :
    ∃ result reports, analyse document .page = .ok result ∧
      result.diagnostics.filter reportsUnreachable = reports.flatten ∧
      List.Forall₂ (ReportsEach document result) result.secondary reports := by
  obtain ⟨result, hresult⟩ := analyse_of_parse h .page
  obtain ⟨reports, hfilter, hreports⟩ := filter_reportsUnreachable hresult
  refine ⟨result, reports, hresult, hfilter, ?_⟩
  apply List.Forall₂.imp _ ((List.forall₂_and_left _ _).mpr ⟨fun _ hs => hs, hreports⟩)
  intro s own hown
  exact reportsEach_of_unreachable hresult (Document.hasOrigins_of_parse h) hown.1 hown.2

/-- A page whose other component has a parameter with the one name and reads the other name
twice. -/
theorem unreachable_of_parse_shadowed :
    let text :=
      "let [n, m] = 1\nlet B = (m) => <i t=\x7bn+m\x7d>\x7bn\x7d</i>\nexport default () => <p/>"
    ∃ document, Document.parse text "A.tsx" = .ok document ∧
      (∃ result, analyse document .page = .ok result ∧
        result.diagnostics.map (fun d => (d.problem, d.span.map (·.start))) =
          [(.unreachablePageSymbol "n" "A" "B", some 33)]) ∧
      ∃ result reports, analyse document .page = .ok result ∧
        result.diagnostics.filter reportsUnreachable = reports.flatten ∧
        List.Forall₂ (ReportsEach document result) result.secondary reports := by
  intro text
  have hcheck : ((Document.parse text "A.tsx").toOption.any fun document =>
      (analyse document .page).toOption.any fun result =>
      decide (result.diagnostics.map (fun d => (d.problem, d.span.map (·.start)))
        = [(.unreachablePageSymbol "n" "A" "B", some 33)])) = true := by
    decide +kernel
  obtain ⟨document, hdocument, hcheck⟩ := exists_ok_of_any hcheck
  obtain ⟨result, hresult, hcheck⟩ := exists_ok_of_any hcheck
  exact ⟨document, hdocument, ⟨result, hresult, of_decide_eq_true hcheck⟩,
    unreachable_of_parse hdocument⟩

end Scope
end ComponentCompiler
