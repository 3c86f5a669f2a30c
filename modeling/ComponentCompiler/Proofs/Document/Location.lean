import ComponentCompiler.Proofs.Document.Failure
import ComponentCompiler.Proofs.Markup.Location

/-!
This module contains where the parts of a component file stand in its text. Each import, block,
component, parameter and piece of markup has the range of the text that it was read from, and an
error starts at the line and column of its offset.
-/

namespace ComponentCompiler

structure Component.IsIn (text : String) (component : Component) : Prop where
  span : component.span.IsIn text
  parameters : ∀ parameter ∈ component.parameters, parameter.span.Quotes text parameter.source
  body : ∀ block ∈ component.body, block.span.Quotes text block.source
  markup : component.markup.IsIn text

structure Document.IsIn (text : String) (document : Document) : Prop where
  imports : ∀ declaration ∈ document.imports, declaration.span.Quotes text declaration.source
  blocks : ∀ block ∈ document.blocks, block.span.Quotes text block.source
  components : ∀ component ∈ document.components, component.IsIn text
  moduleStatements : ∀ block ∈ document.moduleStatements, block.span.Quotes text block.source

/-! ### Statements -/

def Lexeme.Quotes (text : String) (lexeme : Lexeme) : Prop :=
  lexeme.start ≤ lexeme.stop ∧ lexeme.stop ≤ text.length ∧
    lexeme.value = Text.slice text lexeme.start lexeme.stop

namespace Statement

variable {text file : String} {statement : Statement} {statements : List Statement}
    {lexeme : Lexeme}

structure StandsIn (text : String) (statement : Statement) : Prop where
  le : statement.start ≤ statement.stop
  stop_le : statement.stop ≤ text.length
  code_le : (∀ word tokens, statement.body ≠ .returning word tokens) →
    statement.codeRange.1 ≤ statement.stop

theorem codeRange_snd (statement : Statement) : statement.codeRange.2 = statement.stop := by
  unfold codeRange
  split <;> rfl

theorem exists_part_of_parse (h : parse text file = .ok statements)
    (hmem : statement ∈ statements) :
    ∃ part : Lexeme.Part text, IsStatement (ofPart part) statement ∧
      Increasing (part.lexemes.map Lexeme.range) ∧
      ∀ lexeme ∈ part.lexemes, lexeme.stop ≤ text.length := by
  obtain ⟨items, hitems⟩ := items_of_parse h
  obtain ⟨parts, hcut, hstreams⟩ := Lexeme.cut_ofItems text items
  have hread := isStatement_of_parse hitems h
  rw [hstreams, segments_streams] at hread
  obtain ⟨segment, hsegment, hstatement⟩ := exists_left_of_forall₂ hread hmem
  obtain ⟨part, hpart, rfl⟩ := List.mem_map.mp hsegment
  exact ⟨part, hstatement, hcut.increasing hitems hpart⟩

theorem start_le_last {part : Lexeme.Part text} (h : Increasing (part.lexemes.map Lexeme.range))
    (hmem : lexeme ∈ part.lexemes) : lexeme.start ≤ part.last.stop := by
  obtain ⟨first, rest, hlexemes⟩ := List.exists_cons_of_ne_nil part.lexemes_ne_nil
  have hhull : IsHull (part.lexemes.map Lexeme.range) (first.start, part.last.stop) := by
    constructor
    . rw [hlexemes]
      rfl
    . rw [List.getLast?_map, List.getLast?_eq_some_getLast part.lexemes_ne_nil]
      rfl
  have hwithin := (h.within hhull (List.mem_map_of_mem hmem)).2
  exact Nat.le_trans (Nat.le_of_lt (h.nonempty lexeme.range (List.mem_map_of_mem hmem))) hwithin

theorem standsIn_of_parse (h : parse text file = .ok statements) :
    ∀ statement ∈ statements, statement.StandsIn text := by
  intro statement hmem
  obtain ⟨part, hpart, hincreasing, hstop⟩ := exists_part_of_parse h hmem
  have hlast : statement.stop = part.last.stop := hpart.stop
  obtain ⟨first, rest, hlexemes⟩ := List.exists_cons_of_ne_nil part.lexemes_ne_nil
  constructor
  . have hstart := hpart.start
    rw [ofPart, hlexemes] at hstart
    rw [← Option.some.inj hstart, hlast]
    apply start_le_last hincreasing
    simp [hlexemes]
  . rw [hlast]
    exact hstop part.last (List.getLast_mem _)
  . intro hcode
    obtain ⟨skipped, lexeme, more, hsplit, hrange, _⟩ := hpart.code hcode
    rw [hrange, hlast]
    apply start_le_last hincreasing
    simp [hsplit]

theorem lexeme_of_parse (h : parse text file = .ok statements) (hmem : statement ∈ statements)
    (hlexeme : lexeme ∈ statement.body.lexemes) : lexeme.Quotes text := by
  obtain ⟨part, hpart, hincreasing, hstop⟩ := exists_part_of_parse h hmem
  have hlexeme : lexeme ∈ part.lexemes := hpart.shape.mem hlexeme
  refine ⟨?_, hstop lexeme hlexeme, ?_⟩
  . exact Nat.le_of_lt (hincreasing.nonempty lexeme.range (List.mem_map_of_mem hlexeme))
  . obtain ⟨item, _, state, next, rfl⟩ := exists_left_of_forall₂ part.reads hlexeme
    rfl

end Statement

namespace Source

variable {s : Source} {statement : Statement} {statements : List Statement} {head brace : Lexeme}
variable {blocks : List Block} {tree : Markup.Node} {code : Code} {component : Component}

theorem quotes_span (hle : start ≤ stop) (hstop : stop ≤ s.text.length) :
    (s.span start stop).Quotes s.text (s.slice start stop) := by
  constructor
  . apply (Origin.holds_self s.text.toList).span hle
    rwa [String.length_toList]
  . simp [Source.span, Origin.span, slice]

theorem quotes_importOf (h : statement.StandsIn s.text)
    (hread : s.importOf statement tokens = .ok declaration) :
    declaration.span.Quotes s.text declaration.source := by
  obtain ⟨specifiers, _, hread⟩ := bind_eq_ok.mp hread
  cases hread
  exact quotes_span h.le h.stop_le

theorem block_ok {block : Block} (h : s.block origin statement = .ok block) :
    block.span = s.span statement.codeRange.1 statement.codeRange.2 ∧
      block.source = s.slice statement.codeRange.1 statement.codeRange.2 := by
  unfold Source.block at h
  simp only [bind_eq_ok] at h
  obtain ⟨⟨kind, declares, isReactive⟩, _, tokens, _, references, _, h⟩ := h
  cases h
  obtain ⟨content, start, stop, codeStart, isExported, isDefault⟩ := statement
  cases content <;> exact ⟨rfl, rfl⟩

theorem quotes_block {block : Block} (h : statement.StandsIn s.text)
    (hcode : ∀ word tokens, statement.body ≠ .returning word tokens)
    (hread : s.block origin statement = .ok block) : block.span.Quotes s.text block.source := by
  obtain ⟨hspan, hsource⟩ := block_ok hread
  rw [hspan, hsource, Statement.codeRange_snd]
  exact quotes_span (h.code_le hcode) h.stop_le

/-! ### Parameters -/

theorem quotes_part {items part : List Item} {first last : Item}
    (hincreasing : Increasing (items.map Item.range))
    (hstop : ∀ item ∈ items, item.stop ≤ s.text.length) (hpart : part.Sublist items)
    (hfirst : part.head? = some first) (hlast : part.getLast? = some last) :
    (s.span first.start last.stop).Quotes s.text (s.slice first.start last.stop) := by
  have hhull : IsHull (part.map Item.range) (first.start, last.stop) := by
    constructor
    . rw [List.head?_map, hfirst]
      rfl
    . rw [List.getLast?_map, hlast]
      rfl
  have hmem : first.range ∈ part.map Item.range :=
    List.mem_map_of_mem (List.mem_of_mem_head? hfirst)
  have hpartIncreasing := hincreasing.sublist (hpart.map _)
  apply quotes_span
  . have hwithin := (hpartIncreasing.within hhull hmem).2
    exact Nat.le_trans (Nat.le_of_lt (hpartIncreasing.nonempty _ hmem)) hwithin
  . exact hstop last (hpart.subset (List.mem_of_getLast? hlast))

theorem quotes_parameters {parameters : List Parameter} (h : head.Quotes s.text)
    (hread : s.parameters head = .ok parameters) :
    ∀ parameter ∈ parameters, parameter.span.Quotes s.text parameter.source := by
  unfold Source.parameters at hread
  split at hread
  . cases hread
    obtain ⟨hle, hstop, hvalue⟩ := h
    intro parameter hmem
    obtain rfl := List.mem_singleton.mp hmem
    rw [hvalue]
    exact quotes_span hle hstop
  . obtain ⟨item, hgroup, hread⟩ := bind_eq_ok.mp hread
    cases item with
    | token t =>
      cases hread
      simp
    | group bracket opener items closer =>
      cases hread
      obtain ⟨all, hall, hgroup⟩ := bind_eq_ok.mp hgroup
      obtain ⟨tokens, hscan, htokens⟩ := bind_eq_ok.mp (mapError_eq_ok.mp hall)
      cases all with
      | nil => simp at hgroup
      | cons first rest =>
        cases hgroup
        have hsub : (Item.flattenAll items).Sublist tokens := by
          rw [← Token.flattenAll_group htokens, Item.flattenAll, Item.flatten]
          refine List.Sublist.trans ?_ (List.sublist_append_left _ _)
          exact (List.sublist_append_left _ _).cons opener
        obtain ⟨hincreasing, hstop⟩ := Item.increasing_of_sublist hscan hsub
        intro parameter hmem
        obtain ⟨part, hpart, hparameter⟩ := List.mem_filterMap.mp hmem
        split at hparameter
        . next first last hfirst hlast =>
          cases hparameter
          obtain ⟨before, after, rfl, _⟩ :=
            Text.exists_of_mem_splitOnP (List.mem_of_mem_filter hpart)
          refine quotes_part hincreasing hstop ?_ hfirst hlast
          exact (List.sublist_append_left part after).trans (List.sublist_append_right before _)
        . simp at hparameter

/-! ### Markup -/

theorem isIn_markupAt (hstart : start ≤ s.text.length) (h : s.markupAt start stop = .ok tree) :
    tree.IsIn s.text :=
  Markup.Node.isIn_of_parse (s.holds_slice hstart stop) h

theorem isIn_of_shows (hlexemes : ∀ lexeme ∈ tokens, Lexeme.Legible s.text lexeme)
    (h : s.Shows tokens tree) : tree.IsIn s.text := by
  obtain ⟨start, stop, hmarkup, hread⟩ := h
  refine isIn_markupAt ?_ hread
  cases hmarkup with
  | @alone lexeme hterminal =>
    obtain ⟨used, slots, hslice, _⟩ :=
      (hlexemes lexeme (List.mem_singleton_self _)).markup hterminal
    exact start_le_of_slice hslice
  | parenthesised _ hinner =>
    exact Nat.le_of_lt (Token.start_lt_of_scanWindow hinner (by simp))

/-! ### Components -/

theorem length_blankBefore_le (s : Source) (start stop : Nat) :
    (s.blankBefore start stop).length ≤ s.text.length := by
  rw [blankBefore, String.length_append, String.length_ofList, List.length_map, slice, Text.slice,
    String.length_ofList,
    List.length_take, List.length_take, List.length_drop, String.length_toList]
  omega

theorem standsIn_of_body (h : Statement.parse (s.blankBefore start stop) s.file = .ok statements) :
    ∀ statement ∈ statements, statement.StandsIn s.text := by
  intro statement hmem
  have hstands := Statement.standsIn_of_parse h statement hmem
  exact ⟨hstands.le, Nat.le_trans hstands.stop_le (s.length_blankBefore_le start stop),
    hstands.code_le⟩

theorem isIn_of_returns (h : Lexeme.Legible s.text brace) (hbrace : brace.terminal = .brace)
    (hreturns : s.Returns brace blocks tree) :
    (∀ block ∈ blocks, block.span.Quotes s.text block.source) ∧ tree.IsIn s.text := by
  obtain @⟨before, after, statement, word, tokens, _, _, hparse, hbefore, hblocks, hreturn,
      htree⟩ := hreturns
  constructor
  . intro block hblock
    obtain ⟨other, hother, hread⟩ := exists_left_of_forall₂ hblocks hblock
    have hstands := standsIn_of_body hparse other (List.mem_append_left _ hother)
    exact quotes_block hstands (hbefore other hother) hread
  . refine isIn_of_shows ?_ htree
    have hreadable := Statement.readable_of_parse (views_blankBefore h hbrace) hparse statement
      (by simp)
    simpa [hreturn, Statement.Body.lexemes] using hreadable.legible

def Code.lexemes : Code → List Lexeme
  | .body brace => [brace]
  | .expression tokens => tokens

def Code.Legible (s : Source) (code : Code) : Prop :=
  (∀ lexeme ∈ code.lexemes, Lexeme.Legible s.text lexeme) ∧ ∀ brace, code = .body brace →
    brace.terminal = .brace

theorem isIn_of_yields (h : code.Legible s) (hyields : s.Yields code blocks tree) :
    (∀ block ∈ blocks, block.span.Quotes s.text block.source) ∧ tree.IsIn s.text := by
  cases hyields with
  | @body brace _ _ hreturns =>
    exact isIn_of_returns (h.1 brace (List.mem_singleton_self _)) (h.2 brace rfl) hreturns
  | expression hshows => exact ⟨by simp, isIn_of_shows h.1 hshows⟩

theorem IsFunctionExpression.legible (h : IsFunctionExpression tokens code)
    (htokens : ∀ lexeme ∈ tokens, Lexeme.Legible s.text lexeme) : code.Legible s := by
  cases h with
  | @function _ last _ _ _ hlast =>
    constructor
    . intro lexeme hmem
      rw [List.mem_singleton.mp hmem]
      exact htokens last (by simp)
    . intro brace hbrace
      cases hbrace
      exact hlast
  | @arrow _ _ between result =>
    have hresult : ∀ lexeme ∈ result, Lexeme.Legible s.text lexeme :=
      fun lexeme hmem => htokens lexeme (by simp [hmem])
    unfold Code.ofResult
    split
    . split
      . next hbrace =>
        refine ⟨hresult, ?_⟩
        intro brace heq
        cases heq
        exact hbrace
      . exact ⟨hresult, nofun⟩
    . exact ⟨hresult, nofun⟩

theorem Defines.legible (h : s.Defines statement name code)
    (hreadable : Statement.Readable s.text statements statement) : code.Legible s := by
  obtain ⟨_, _, _, hshape⟩ := hreadable.shape
  have hlegible := hreadable.legible
  have hfunction : ∀ f, statement.body = .function f → (Code.body f.body).Legible s := by
    intro f hbody
    rw [hbody] at hshape hlegible
    constructor
    . intro lexeme hmem
      rw [List.mem_singleton.mp hmem]
      exact hlegible f.body (by simp [Statement.Body.lexemes])
    . intro brace hbrace
      cases hbrace
      exact hshape.body_terminal
  have hexpression : ∀ tokens, tokens ⊆ statement.body.lexemes →
      IsFunctionExpression (withoutAsync tokens) code → code.Legible s := by
    intro tokens hsub h
    apply h.legible
    intro lexeme hmem
    exact hlegible lexeme (hsub (withoutAsync_subset tokens hmem))
  cases h with
  | function hbody => exact hfunction _ hbody
  | anonymous hbody => exact hfunction _ hbody
  | @binding v tokens _ hbody _ hvalue h =>
    apply hexpression tokens _ h
    rw [hbody, Statement.Body.lexemes, hvalue]
    exact List.subset_cons_self _ _
  | @defaultExpression tokens _ hbody h =>
    apply hexpression tokens _ h
    rw [hbody]
    exact List.Subset.refl _

def QuotesParameters (s : Source) (component : Component) : Prop :=
  ∀ parameter ∈ component.parameters, parameter.span.Quotes s.text parameter.source

theorem quotesParameters_function {f : FunctionDef}
    (h : ∀ lexeme ∈ f.signature, lexeme.Quotes s.text)
    (hread : s.componentOfFunction? statement f = .ok (some component)) :
    s.QuotesParameters component := by
  unfold componentOfFunction? at hread
  dsimp only at hread
  split at hread
  . simp [pure_eq_ok] at hread
  obtain ⟨⟨blocks, tree?⟩, _, hread⟩ := bind_eq_ok.mp hread
  cases tree? with
  | none => simp [pure_eq_ok] at hread
  | some tree =>
    dsimp only at hread
    split at hread
    . next paren hparen =>
      obtain ⟨parameters, hparameters, hread⟩ := bind_eq_ok.mp hread
      cases hread
      exact quotes_parameters (h paren (List.mem_of_find?_eq_some hparen)) hparameters
    . cases hread
      simp [QuotesParameters, Source.component]

theorem quotesParameters_expression (h : ∀ lexeme ∈ tokens, Lexeme.Quotes s.text lexeme)
    (hread : s.componentOfExpression? name statement tokens = .ok (some component)) :
    s.QuotesParameters component := by
  have h : ∀ lexeme ∈ withoutAsync tokens, lexeme.Quotes s.text :=
    fun lexeme hmem => h lexeme (withoutAsync_subset tokens hmem)
  unfold componentOfExpression? at hread
  dsimp only at hread
  generalize withoutAsync tokens = tokens at h hread
  split at hread
  . simp [pure_eq_ok] at hread
  next head more =>
  split at hread
  . split at hread
    . next paren last hparen _ =>
      split at hread
      . obtain ⟨⟨blocks, tree?⟩, _, hread⟩ := bind_eq_ok.mp hread
        cases tree? with
        | none => simp [pure_eq_ok] at hread
        | some tree =>
          obtain ⟨parameters, hparameters, hread⟩ := bind_eq_ok.mp hread
          cases hread
          exact quotes_parameters (h paren (List.mem_of_find?_eq_some hparen)) hparameters
      . simp [pure_eq_ok] at hread
    . simp [pure_eq_ok] at hread
  . split at hread
    . simp [pure_eq_ok] at hread
    . split at hread
      . obtain ⟨parameters, hparameters, hread⟩ := bind_eq_ok.mp hread
        obtain ⟨⟨blocks, tree?⟩, _, hread⟩ := bind_eq_ok.mp hread
        rw [pure_eq_ok] at hread
        obtain ⟨tree, _, rfl⟩ := Option.map_eq_some_iff.mp hread
        exact quotes_parameters (h head List.mem_cons_self) hparameters
      . simp [pure_eq_ok] at hread

theorem quotesParameters_component? (h : ∀ lexeme ∈ statement.body.lexemes, lexeme.Quotes s.text)
    (hread : s.component? statement = .ok (some component)) : s.QuotesParameters component := by
  unfold component? at hread
  split at hread
  . next f hbody =>
    rw [hbody] at h
    exact quotesParameters_function
      (fun lexeme hmem => h lexeme (List.mem_append_left _ hmem)) hread
  . next v hbody =>
    split at hread
    . next tokens _ hvalue =>
      rw [hbody, Statement.Body.lexemes, hvalue] at h
      exact quotesParameters_expression
        (fun lexeme hmem => h lexeme (List.mem_cons_of_mem _ hmem)) hread
    . simp at hread
  . simp at hread

theorem quotesParameters_add {draft draft' : Draft}
    (h : ∀ lexeme ∈ statement.body.lexemes, lexeme.Quotes s.text)
    (hdraft : ∀ component ∈ draft.components, s.QuotesParameters component)
    (hadd : s.add draft statement = .ok draft') :
    ∀ component ∈ draft'.components, s.QuotesParameters component := by
  have hput : ∀ {component}, s.QuotesParameters component →
      ∀ other ∈ draft.components ++ [component], s.QuotesParameters other := by
    intro component hcomponent
    rw [List.forall_mem_append, List.forall_mem_singleton]
    exact ⟨hdraft, hcomponent⟩
  have hmodule : add.asModuleStatement s draft statement = .ok draft' →
      ∀ component ∈ draft'.components, s.QuotesParameters component := by
    intro hadd
    obtain ⟨block, _, hadd⟩ := bind_eq_ok.mp hadd
    cases hadd
    exact hdraft
  unfold add at hadd
  split at hadd
  . obtain ⟨declaration, _, hadd⟩ := bind_eq_ok.mp hadd
    cases hadd
    exact hdraft
  . simp at hadd
  . exact hmodule hadd
  . next tokens hbody =>
    split at hadd
    . split at hadd
      . cases hadd
        exact hdraft
      . exact hmodule hadd
    . obtain ⟨found, hfound, hadd⟩ := bind_eq_ok.mp hadd
      cases found with
      | none => exact hmodule hadd
      | some component =>
        cases hadd
        rw [hbody] at h
        exact hput (quotesParameters_expression h hfound)
  . obtain ⟨found, hfound, hadd⟩ := bind_eq_ok.mp hadd
    cases found with
    | none =>
      obtain ⟨block, _, hadd⟩ := bind_eq_ok.mp hadd
      cases hadd
      exact hdraft
    | some component =>
      cases hadd
      exact hput (quotesParameters_component? h hfound)

/-! ### Documents -/

theorem quotesParameters_document {document : Document}
    (h : ∀ statement ∈ statements, ∀ lexeme ∈ statement.body.lexemes, lexeme.Quotes s.text)
    (hread : s.document metadata statements = .ok document) :
    ∀ component ∈ document.components, s.QuotesParameters component := by
  unfold Source.document at hread
  simp only [bind_eq_ok] at hread
  obtain ⟨_, _, draft, hadd, exported, hexport, hread⟩ := hread
  rw [(finish_ok hread).2.2.1]
  have hdraft : ∀ component ∈ draft.components, s.QuotesParameters component := by
    refine foldlM_invariant
      (P := fun draft : Draft => ∀ component ∈ draft.components, s.QuotesParameters component) ?_
        (by simp) hadd
    intro statement hmem draft draft' hdraft hadd
    exact quotesParameters_add (h statement hmem) hdraft hadd
  refine foldlM_invariant
    (P := fun draft : Draft => ∀ component ∈ draft.components, s.QuotesParameters component) ?_
      hdraft hexport
  rintro ⟨name, statement⟩ _ draft draft' hdraft hexport component hmem
  obtain ⟨original, horiginal, heq⟩ := (exportDefault_ok hexport).2.2.exists_original hmem
  rw [heq]
  exact hdraft original horiginal

structure Place.IsIn (text : String) (place : Place) : Prop where
  declaration : ∀ declaration, place.declaration? = some declaration →
    declaration.span.Quotes text declaration.source
  block : ∀ block, place.block? = some block → block.span.Quotes text block.source
  moduleStatement : ∀ block, place.moduleStatement? = some block →
    block.span.Quotes text block.source
  component : ∀ component, place.component? = some component → component.span.IsIn text

theorem Placed.isIn {place : Place} (h : s.Placed statement place)
    (hstands : statement.StandsIn s.text) : place.IsIn s.text := by
  cases h with
  | importing _ h =>
    refine ⟨?_, nofun, nofun, nofun⟩
    rintro _ ⟨⟩
    exact quotes_importOf hstands h
  | component h =>
    obtain ⟨_, _, _⟩ := h
    refine ⟨nofun, nofun, nofun, ?_⟩
    rintro _ ⟨⟩
    exact (quotes_span hstands.le hstands.stop_le).1
  | block hcode _ h =>
    refine ⟨nofun, ?_, nofun, nofun⟩
    rintro _ ⟨⟩
    refine quotes_block hstands ?_ h
    intro word tokens hbody
    simp [hbody, isCode] at hcode
  | moduleStatement hexport _ _ h =>
    refine ⟨nofun, nofun, ?_, nofun⟩
    rintro _ ⟨⟩
    refine quotes_block hstands ?_ h
    intro word tokens hbody
    simp [hbody, isExport] at hexport
  | defaultName => exact ⟨nofun, nofun, nofun, nofun⟩

theorem Exports.quotes {components components' : List Component} {blocks blocks' : List Block}
    (h : s.Exports names components blocks components' blocks')
    (hblocks : ∀ block ∈ blocks, block.span.Quotes s.text block.source)
    (hnames : ∀ named ∈ names, named.2.StandsIn s.text ∧
      ∃ tokens, named.2.body = .defaultExpression tokens) :
    ∀ block ∈ blocks', block.span.Quotes s.text block.source := by
  cases h with
  | none => exact hblocks
  | promoted => exact hblocks
  | @passedOn _ statement _ _ _ _ hread =>
    obtain ⟨hstands, tokens, hbody⟩ := hnames _ (List.mem_singleton_self _)
    have hbody : statement.body = .defaultExpression tokens := hbody
    rw [List.forall_mem_append, List.forall_mem_singleton]
    refine ⟨hblocks, quotes_block hstands ?_ hread⟩
    simp [hbody]

theorem Holds.isIn {document : Document} {places : List Place} (h : s.Holds document places)
    (hplaces : List.Forall₂ s.Placed statements places)
    (hstands : ∀ statement ∈ statements, statement.StandsIn s.text)
    (hreadable : ∀ statement ∈ statements, Statement.Readable s.text statements statement)
    (hparameters : ∀ component ∈ document.components, s.QuotesParameters component) :
    document.IsIn s.text := by
  have hplaced : ∀ place ∈ places, place.IsIn s.text := by
    intro place hmem
    obtain ⟨statement, hstatement, hplaced⟩ := exists_left_of_forall₂ hplaces hmem
    exact hplaced.isIn (hstands statement hstatement)
  constructor
  . rw [h.imports]
    intro declaration hmem
    obtain ⟨place, hplace, heq⟩ := List.mem_filterMap.mp hmem
    exact (hplaced place hplace).declaration declaration heq
  . rw [h.blocks]
    intro block hmem
    obtain ⟨place, hplace, heq⟩ := List.mem_filterMap.mp hmem
    exact (hplaced place hplace).block block heq
  . intro component hmem
    obtain ⟨statement, hstatement, code, hdefines, hyields⟩ := h.yields hplaces hmem
    obtain ⟨hbody, hmarkup⟩ :=
      isIn_of_yields (hdefines.legible (hreadable statement hstatement)) hyields
    obtain ⟨original, horiginal, heq⟩ := h.exports.exists_original hmem
    obtain ⟨place, hplace, hcomponent⟩ := List.mem_filterMap.mp horiginal
    refine ⟨?_, hparameters component hmem, hbody, hmarkup⟩
    rw [heq]
    exact (hplaced place hplace).component original hcomponent
  . apply h.exports.quotes
    . intro block hmem
      obtain ⟨place, hplace, heq⟩ := List.mem_filterMap.mp hmem
      exact (hplaced place hplace).moduleStatement block heq
    . intro named hmem
      obtain ⟨place, hplace, heq⟩ := List.mem_filterMap.mp hmem
      obtain ⟨statement, hstatement, hplaced⟩ := exists_left_of_forall₂ hplaces hplace
      cases hplaced with
      | defaultName hbody =>
        cases heq
        exact ⟨hstands statement hstatement, _, hbody⟩
      | _ => simp [Place.defaultName?] at heq

end Source

namespace Document

theorem isIn_of_parse {text file : String} {document : Document}
    (h : Document.parse text file = .ok document) : document.IsIn text := by
  obtain ⟨statements, places, hstatements, hplaces, hholds⟩ := exists_places h
  have hreadable := Statement.readable_of_parse (fun _ _ _ _ _ h => h) hstatements
  apply hholds.isIn hplaces (Statement.standsIn_of_parse hstatements) hreadable
  obtain ⟨statements', hstatements', hdocument⟩ := bind_eq_ok.mp h
  rw [hstatements] at hstatements'
  cases hstatements'
  apply Source.quotesParameters_document _ hdocument
  intro statement hmem lexeme hlexeme
  exact Statement.lexeme_of_parse hstatements hmem hlexeme

/-- Whatever is read from a file knows where it stands. The spans of imports, blocks, components,
parameters and of the markup at any depth are ranges of the text with the lines and columns of their
ends. What holds a text holds that of its range, and the children of a markup node follow one
another inside of it. Where the file has an error, the error starts at the line and column of its
offset. -/
theorem located_of_parse (text file : String) :
    (∀ document, Document.parse text file = .ok document → document.IsIn text) ∧
    ∀ error, Document.parse text file = .error (.compile error) → error.StartsIn text := by
  refine ⟨fun _ => isIn_of_parse, ?_⟩
  intro error h
  rcases failsOnly_parse text file _ h with ⟨_, heq, herror⟩ | ⟨⟨_, heq, _⟩, _⟩
  . cases heq
    exact herror
  . simp at heq

/-- A slot over two lines in markup of a function body, and a declaration there that lacks its
name. -/
theorem located_of_parse_lines :
    (let text := "export default (p) =>\n  <ul>\n    <li>\x7bp\n  .q\x7d</li>\n  </ul>"
    ∃ document, Document.parse text "A.tsx" = .ok document ∧ document.components.length = 1 ∧
      document.IsIn text) ∧
    (let text := "function A() \x7b\n  const = 1\n\x7d"
    ∃ error span, Document.parse text "A.tsx" = .error (.compile error) ∧ error.span = some span ∧
      (span.startLine, span.startColumn, span.start) = (2, 9, 23) ∧
      (span.startLine, span.startColumn) = Text.lineCol text.toList span.start) := by
  constructor
  . intro text
    have hparse : ((Document.parse text "A.tsx").toOption.any fun document =>
        document.components.length == 1) = true := by
      decide +kernel
    obtain ⟨document, hdocument, hlength⟩ := exists_ok_of_any hparse
    exact ⟨document, hdocument, beq_iff_eq.mp hlength,
      (located_of_parse text "A.tsx").1 document hdocument⟩
  . intro text
    have hparse : (match Document.parse text "A.tsx" with
        | .error (.compile error) =>
          error.span.map fun span => (span.startLine, span.startColumn, span.start)
        | _ => none) = some (2, 9, 23) := by
      decide +kernel
    split at hparse
    . next error herror =>
      obtain ⟨span, hspan, hplace⟩ := Option.map_eq_some_iff.mp hparse
      exact ⟨error, span, herror, hspan, hplace,
        (located_of_parse text "A.tsx").2 error herror span hspan⟩
    . simp at hparse

end Document
end ComponentCompiler
