import ComponentCompiler.Proofs.Document.Placement
import ComponentCompiler.Proofs.Markup.Recognition
import ComponentCompiler.Proofs.Name.Free
import ComponentCompiler.Proofs.Statement.Window
import ComponentCompiler.Proofs.Text.Position

/-!
This module contains how reading a component file can fail. Each failure is an error at a place of
the file, but for that of a statement which right after a function starts with an operator, and
which is not read as an operator when the code of the statement is read by itself.
-/

namespace ComponentCompiler

open Lexeme (Legible Views)
open Statement (Misread ImportsOperator Readable)
open Token (BalancedWindow IsMarkupSlice)

/-- If the error has a place, then it starts at the line and column that the text has there. -/
def CompileError.StartsIn (text : String) (error : CompileError) : Prop :=
  ∀ span, error.span = some span →
    (span.startLine, span.startColumn) = Text.lineCol text.toList span.start

def Failure.IsCompile (text : String) (failure : Failure) : Prop :=
  ∃ error : {e : CompileError // e.problem.severity = .error}, failure = .compile error ∧
    error.1.StartsIn text

def Failure.CompileUnless (text : String) (misread : Prop) (failure : Failure) : Prop :=
  failure.IsCompile text ∨ (∃ error : ScanError, failure = .scan error ∧ error.IsProblem text) ∧
    misread

open Failure (IsCompile CompileUnless)

theorem FailsOnly.weaken {misread other : Prop} {x : Except Failure α}
    (h : FailsOnly (CompileUnless text misread) x) (himp : misread → other) :
    FailsOnly (CompileUnless text other) x :=
  h.imp fun _ => Or.imp_right (And.imp_right himp)

theorem FailsOnly.compileUnless {misread : Prop} {x : Except Failure α}
    (h : FailsOnly (IsCompile text) x) : FailsOnly (CompileUnless text misread) x :=
  h.imp fun _ => .inl

theorem CompileError.startsIn_at {view : String} (h : Text.SamePlaces view text)
    (hpos : pos ≤ view.length) (problem : Problem)
    (file : String) : (CompileError.at problem view pos {} file).StartsIn text := by
  intro span hspan
  cases hspan
  have hplace := h pos hpos
  simp [Origin.spanAt, Origin.locate, hplace]

theorem Lexeme.start_le_of_mem {items : List Item} {lexeme : Lexeme}
    (h : (Token.scan text >>= Token.group) = .ok items)
    (hmem : lexeme ∈ Lexeme.ofItems text items) : lexeme.start ≤ text.length := by
  obtain ⟨parts, hcut, hstreams⟩ := Lexeme.cut_ofItems text items
  rw [hstreams] at hmem
  obtain ⟨part, hpart, hmem⟩ := List.mem_flatMap.mp hmem
  obtain ⟨hincreasing, hstop⟩ := hcut.increasing h hpart
  rcases List.mem_append.mp hmem with hmem | hmem
  . have := hincreasing.nonempty lexeme.range (List.mem_map_of_mem hmem)
    exact Nat.le_trans (Nat.le_of_lt this) (hstop lexeme hmem)
  . rw [List.mem_singleton.mp hmem]
    exact hstop part.last (List.getLast_mem _)

theorem Statement.failsOnly_parse {view : String} (h : Text.SamePlaces view text) (file : String) :
    FailsOnly (IsCompile text) (Statement.parse view file) := by
  apply FailsOnly.bind
  . refine (Token.failsOnly_scan view).mapError ?_
    rintro _ ⟨problem, pos, rfl, hpos, hsevere⟩
    exact ⟨⟨_, hsevere⟩, rfl, CompileError.startsIn_at h hpos problem file⟩
  . intro items hitems failure hfailure
    obtain ⟨hjoined, hsegmented⟩ := joined_segments view items
    obtain ⟨u, before, after, hsplit, _, _, rfl⟩ := viable_of_mapM_error hsegmented hfailure
    refine ⟨⟨_, rfl⟩, rfl, CompileError.startsIn_at h ?_ _ file⟩
    apply Lexeme.start_le_of_mem (mapError_eq_ok.mp hitems)
    rw [← hjoined, hsplit]
    simp

namespace Source

variable {s : Source} {P : Failure → Prop} {lexeme brace head : Lexeme} {tokens : List Lexeme}
variable {statements : List Statement} {statement : Statement} {start stop : Nat}

/-! ### Groups -/

theorem failsOnly_groupOf (bracket : Bracket) (h : Legible s.text lexeme)
    (hterminal : lexeme.terminal = bracket.terminal) : FailsOnly P (s.groupOf lexeme) := by
  obtain ⟨item, more, hitems⟩ := h.items bracket hterminal
  have hitems : s.items lexeme.start lexeme.stop = .ok (item :: more) := mapError_eq_ok.mpr hitems
  rw [groupOf, hitems, ok_bind]
  exact .pure _

theorem failsOnly_namedSpecifiers (typeOnly : Bool) (h : Legible s.text lexeme)
    (hterminal : lexeme.terminal = .brace) : FailsOnly P (s.namedSpecifiers typeOnly lexeme) := by
  refine (failsOnly_groupOf .curly h hterminal).bind fun item _ => ?_
  cases item <;> exact .pure _

theorem failsOnly_specifiers (typeOnly : Bool) (h : ∀ lexeme ∈ tokens, Legible s.text lexeme) :
    FailsOnly P (s.specifiers typeOnly tokens) := by
  fun_induction specifiers s typeOnly tokens with
  | case1 => exact .ok _
  | case2 => exact .ok _
  | case3 lexeme more _ _ ih =>
    rw [List.forall_mem_cons] at h
    exact (ih h.2).bind fun _ _ => .pure _
  | case4 lexeme _ _ second name rest ih =>
    simp only [List.forall_mem_cons] at h
    exact (ih h.2.2.2).bind fun _ _ => .pure _
  | case5 lexeme _ _ more _ ih =>
    rw [List.forall_mem_cons] at h
    exact ih h.2
  | case6 lexeme more _ _ ih =>
    rw [List.forall_mem_cons] at h
    exact ih h.2
  | case7 lexeme more hbrace ih =>
    rw [List.forall_mem_cons] at h
    exact (failsOnly_namedSpecifiers typeOnly h.1 hbrace).bind fun _ _ => (ih h.2).bind fun _ _ =>
      .pure _
  | case8 lexeme more _ _ _ ih =>
    rw [List.forall_mem_cons] at h
    exact ih h.2

theorem failsOnly_importOf (statement : Statement) (h : ∀ lexeme ∈ tokens, Legible s.text lexeme) :
    FailsOnly P (s.importOf statement tokens) := by
  refine (failsOnly_specifiers _ ?_).bind fun _ _ => .pure _
  intro lexeme hmem
  split at hmem
  . exact h lexeme (List.mem_of_mem_drop hmem)
  . exact h lexeme hmem

theorem failsOnly_bindingNames (h : Legible s.text lexeme)
    (hbinding : Statement.isBinding lexeme.terminal = true) :
    FailsOnly P (s.bindingNames lexeme) := by
  unfold bindingNames
  split
  . exact .pure _
  . next hname =>
    have hbracket : ∃ bracket : Bracket, lexeme.terminal = bracket.terminal := by
      generalize lexeme.terminal = terminal at *
      cases terminal with
      | brace => exact ⟨.curly, rfl⟩
      | bracket => exact ⟨.square, rfl⟩
      | name => exact absurd rfl hname
      | _ => simp [Statement.isBinding] at hbinding
    obtain ⟨bracket, hbracket⟩ := hbracket
    exact (failsOnly_groupOf bracket h hbracket).bind fun _ _ => .pure _

theorem failsOnly_parameters (h : Legible s.text head)
    (hhead : head.terminal = .paren ∨ head.terminal = .name) : FailsOnly P (s.parameters head) := by
  unfold parameters
  split
  . exact .pure _
  . next hname =>
    refine (failsOnly_groupOf .paren h (hhead.resolve_right hname)).bind fun item _ => ?_
    cases item <;> exact .pure _

/-! ### Code -/

theorem holds_slice (s : Source) (hstart : start ≤ s.text.length) (stop : Nat) :
    Origin.Holds ⟨(Text.lineCol s.text.toList start).1, (Text.lineCol s.text.toList start).2,
      start⟩ s.text.toList
      (s.slice start stop).toList := by
  rw [slice, Text.slice, String.toList_ofList]
  apply Origin.holds_lineCol
  rwa [String.length_toList]

theorem start_le_of_slice (h : (Text.slice s.text start stop).toList = c :: cs) :
    start ≤ s.text.length := by
  by_contra hlt
  rw [Text.slice, String.toList_ofList, List.drop_eq_nil_of_le, List.take_nil] at h
  . simp at h
  . rw [String.length_toList]
    omega

theorem failsOnly_markupAt (h : IsMarkupSlice s.text start stop) :
    FailsOnly (IsCompile s.text) (s.markupAt start stop) := by
  obtain ⟨used, slots, hslice, hread⟩ := h
  have hstart := start_le_of_slice hslice
  suffices hparse : FailsOnly (IsCompile s.text) (Markup.Node.parse (s.slice start stop) s.file
      ⟨(Text.lineCol s.text.toList start).1, (Text.lineCol s.text.toList start).2, start⟩)
        from hparse
  obtain ⟨entries, hentries⟩ := (Markup.derived _).markup (hread used.length 0 (Nat.le_refl _))
  rcases Markup.parse_of_slotsOf ⟨used, hslice, hentries⟩ with
    ⟨⟨tree, hparse⟩, _⟩ | ⟨e, _, hrefused⟩
  . rw [slice, hparse]
    exact .ok _
  . rw [slice, hrefused.parse]
    refine .error ⟨⟨_, rfl⟩, rfl, ?_⟩
    intro span hspan
    cases hspan
    obtain ⟨hpos, _⟩ := List.getElem?_eq_some_iff.mp hrefused.stands.opening
    exact (s.holds_slice hstart stop).spanAt (Nat.le_of_lt hpos) _

theorem failsOnly_markupOf? (h : ∀ lexeme ∈ tokens, Legible s.text lexeme) :
    FailsOnly (IsCompile s.text) (s.markupOf? tokens) := by
  unfold markupOf?
  split
  . next lexeme =>
    have hlexeme := h lexeme (List.mem_singleton_self _)
    split
    . next hmarkup => exact (failsOnly_markupAt (hlexeme.markup hmarkup)).bind fun _ _ => .pure _
    . next hparen =>
      have hwindow := (hlexeme.inside .paren hparen).1
      obtain ⟨inner, _, hscan, _⟩ := hwindow.items
      rw [mapError_eq_ok.mpr hscan, ok_bind]
      split
      . next token htoken =>
        have hmem : token ∈ inner := List.mem_of_mem_filter (htoken ▸ List.mem_singleton_self token)
        split
        . next hkind =>
          exact (failsOnly_markupAt (hwindow.isMarkupSlice hscan hmem hkind)).bind
            fun _ _ => .pure _
        . exact .pure _
      . exact .pure _
    . exact .pure _
  . exact .pure _

theorem failsOnly_reading {text : String} {misread : Prop} {read : Except ScanError α}
    (hproblem : FailsOnly (ScanError.IsProblem text) read) (h : (∃ a, read = .ok a) ∨ misread) :
    FailsOnly (CompileUnless text misread) (read.mapError .scan) := by
  rcases h with ⟨a, ha⟩ | hmisread
  . rw [mapError_eq_ok.mpr ha]
    exact .ok _
  . exact hproblem.mapError fun error herror => .inr ⟨⟨error, rfl, herror⟩, hmisread⟩

theorem failsOnly_block (origin : Block.Origin) (h : Readable s.text statements statement)
    (hcode : ∀ word tokens, statement.body ≠ .returning word tokens) :
    FailsOnly (CompileUnless s.text (Misread statements ∨ ImportsOperator statement))
      (s.block origin statement) := by
  obtain ⟨hstop, hwindow⟩ := h.code hcode
  have hscan : FailsOnly (CompileUnless s.text (Misread statements ∨ ImportsOperator statement))
      ((Token.scanWindow s.text statement.codeRange.1 statement.codeRange.2).mapError .scan) := by
    apply failsOnly_reading (Token.failsOnly_scanWindow _ hstop)
    apply hwindow.imp_left
    intro hwindow
    obtain ⟨inner, _, hscan, _⟩ := hwindow.items
    exact ⟨inner, hscan⟩
  have hfree : ∀ exclude,
      FailsOnly (CompileUnless s.text (Misread statements ∨ ImportsOperator statement))
      ((Name.freeInWindow s.text statement.codeRange.1 statement.codeRange.2 exclude).mapError
        .scan) := by
    intro exclude
    apply failsOnly_reading (Name.failsOnly_freeInWindow _ hstop exclude)
    exact hwindow.imp_left (Name.freeInWindow_total · exclude)
  unfold block
  cases hbody : statement.body with
  | «variable» v =>
    obtain ⟨_, _, _, hshape⟩ := h.shape
    rw [hbody] at hshape
    have hbinding := h.legible v.binding (by simp [hbody, Statement.Body.lexemes])
    simp only [Statement.codeRange, hbody] at hscan hfree ⊢
    refine FailsOnly.bind ?_ fun _ _ => hscan.bind fun _ _ => (hfree _).bind fun _ _ => .pure _
    exact (failsOnly_bindingNames hbinding hshape.binding_terminal).bind fun _ _ => .pure _
  | _ =>
    simp only [Statement.codeRange, hbody, Statement.range] at hscan hfree ⊢
    exact FailsOnly.bind (.pure _) fun _ _ => hscan.bind fun _ _ => (hfree _).bind fun _ _ =>
      .pure _

/-! ### Bodies -/

theorem isBlank_blanked {cs : List Char} {c : Char}
    (h : c ∈ cs.map fun c => if c = '\n' then c else ' ') : Text.isBlank c = true := by
  obtain ⟨d, _, rfl⟩ := List.mem_map.mp h
  split
  . next hd =>
    rw [hd]
    decide
  . decide

theorem views_blankBefore (h : Legible s.text brace) (hbrace : brace.terminal = .brace) :
    Views (s.blankBefore (brace.start + 1) (brace.stop - 1)) s.text := by
  obtain ⟨⟨ws, gap, rest, _, _, _, _, hstop⟩, after, hclosing⟩ := h.inside .curly hbrace
  have hview : ∀ start stop, (s.blankBefore start stop).toList
      = ((s.text.toList.take start).map fun c => if c = '\n' then c else ' ') ++
        (s.slice start stop).toList := by
    intro start stop
    rw [blankBefore, String.toList_append, String.toList_ofList]
  have hle : brace.start + 1 ≤ brace.stop - 1 := by omega
  have htext := Text.toList_eq_of_slice s.text hle
  rw [hclosing] at htext
  refine Lexeme.views_of_blank (hview _ _) htext (List.length_map _) ?_ ?_
  . intro c hc
    exact isBlank_blanked hc
  . intro c hc
    cases hc
    exact Token.isNeutral_closing .curly

theorem samePlaces_blankBefore (s : Source) (start stop : Nat) :
    Text.SamePlaces (s.blankBefore start stop) s.text := by
  intro pos hpos
  have hview : (s.blankBefore start stop).toList
      = ((s.text.toList.take start).map fun c => if c = '\n' then c else ' ') ++
        (s.text.toList.drop start).take (stop - start) := by
    rw [blankBefore, String.toList_append, String.toList_ofList, slice, Text.slice,
      String.toList_ofList]
  have htext : s.text.toList.take start ++ (s.text.toList.drop start).take (stop - start)
      ++ (s.text.toList.drop start).drop (stop - start) = s.text.toList := by
    rw [List.append_assoc, List.take_append_drop, List.take_append_drop]
  have hblank : ∀ c : Char, ((if c = '\n' then c else ' ') == '\n') = (c == '\n') := by
    intro c
    split
    . rfl
    . next hc => simp [hc]
  rw [← String.length_toList, hview, List.length_append, List.length_map] at hpos
  calc Text.lineCol (s.blankBefore start stop).toList pos
    _ = Text.lineCol (s.text.toList.take start ++ (s.text.toList.drop start).take (stop - start))
      pos := by
      rw [hview]
      apply Text.lineCol_congr
      . rw [List.length_append, List.length_append, List.length_map]
      . rw [List.map_append, List.map_append, List.map_map]
        congr 1
        apply List.map_congr_left
        exact fun c _ => hblank c
    _ = Text.lineCol s.text.toList pos := by
      conv => rhs; rw [← htext]
      rw [Text.lineCol_append_right (_ ++ _)]
      rwa [List.length_append]

/-- Some statement of a function body is misread. -/
def MisreadsBody (s : Source) (brace : Lexeme) : Prop :=
  ∃ inner, Statement.parse (s.blankBefore (brace.start + 1) (brace.stop - 1)) s.file = .ok inner ∧
    (Misread inner ∨ ∃ statement ∈ inner, ImportsOperator statement)

theorem failsOnly_go {rest : List Statement}
    (h : ∀ statement ∈ rest, Readable s.text statements statement)
    (hrest : rest ⊆ statements) (taken : List Block) :
    FailsOnly (CompileUnless s.text (Misread statements ∨
      ∃ statement ∈ statements, ImportsOperator statement)) (body.go s taken rest) := by
  induction rest generalizing taken with
  | nil => exact .ok _
  | cons statement rest ih =>
    rw [List.forall_mem_cons] at h
    rw [List.cons_subset] at hrest
    by_cases hreturn : ∃ word tokens, statement.body = .returning word tokens
    . obtain ⟨word, tokens, hreturn⟩ := hreturn
      rw [go_of_returning hreturn]
      have hlegible : ∀ lexeme ∈ tokens, Legible s.text lexeme := by
        simpa [hreturn, Statement.Body.lexemes] using h.1.legible
      exact (failsOnly_markupOf? hlegible).compileUnless.bind fun _ _ => .pure _
    . simp only [not_exists] at hreturn
      rw [go_of_block hreturn]
      refine FailsOnly.bind ?_ fun block _ => ih h.2 hrest.2 (block :: taken)
      exact (failsOnly_block .componentBody h.1 hreturn).weaken
        (Or.imp_right fun himport => ⟨statement, hrest.1, himport⟩)

theorem failsOnly_body (h : Legible s.text brace) (hbrace : brace.terminal = .brace) :
    FailsOnly (CompileUnless s.text (s.MisreadsBody brace)) (s.body brace) := by
  refine (Statement.failsOnly_parse (s.samePlaces_blankBefore _ _) _).compileUnless.bind
    fun inner hparse => ?_
  have hreadable := Statement.readable_of_parse (views_blankBefore h hbrace) hparse
  exact (failsOnly_go hreadable (List.Subset.refl _) []).weaken fun hmisread =>
    ⟨inner, hparse, hmisread⟩

/-! ### Components -/

/-- Some statement of a function body among the lexemes is misread. -/
def MisreadsIn (s : Source) (tokens : List Lexeme) : Prop :=
  ∃ brace ∈ tokens, brace.terminal = .brace ∧ s.MisreadsBody brace

theorem MisreadsIn.mono (h : s.MisreadsIn tokens) (hsub : tokens ⊆ more) : s.MisreadsIn more := by
  obtain ⟨brace, hmem, hbrace⟩ := h
  exact ⟨brace, hsub hmem, hbrace⟩

theorem failsOnly_bodyIn (h : ∀ lexeme ∈ tokens, Legible s.text lexeme) (hmem : brace ∈ tokens)
    (hbrace : brace.terminal = .brace) :
    FailsOnly (CompileUnless s.text (s.MisreadsIn tokens)) (s.body brace) :=
  (failsOnly_body (h brace hmem) hbrace).weaken fun hbody => ⟨brace, hmem, hbrace, hbody⟩

theorem failsOnly_parametersIn {paren : Lexeme} (h : ∀ lexeme ∈ tokens, Legible s.text lexeme)
    (hparen : tokens.find? (·.terminal == .paren) = some paren) :
    FailsOnly P (s.parameters paren) := by
  have hterminal : paren.terminal = .paren := by simpa using List.find?_some hparen
  exact failsOnly_parameters (h paren (List.mem_of_find?_eq_some hparen)) (.inl hterminal)

theorem failsOnly_componentOfFunction? {f : FunctionDef} (h : Readable s.text statements statement)
    (hbody : statement.body = .function f) :
    FailsOnly (CompileUnless s.text (s.MisreadsIn statement.body.lexemes))
      (s.componentOfFunction? statement f) := by
  obtain ⟨_, _, _, hshape⟩ := h.shape
  have hlegible := h.legible
  rw [hbody] at hshape hlegible ⊢
  unfold componentOfFunction?
  dsimp only
  split
  . exact .pure _
  . refine (failsOnly_bodyIn hlegible (by simp [Statement.Body.lexemes]) hshape.body_terminal).bind
      fun result _ => ?_
    split
    . exact .pure _
    . split
      . next hparen =>
        refine (failsOnly_parametersIn ?_ hparen).bind fun _ _ => .pure _
        exact fun lexeme hmem => hlegible lexeme (List.mem_append_left _ hmem)
      . exact .pure _

theorem withoutAsync_subset (tokens : List Lexeme) : withoutAsync tokens ⊆ tokens := by
  unfold withoutAsync
  split
  . split
    . exact List.subset_cons_self _ _
    . exact List.Subset.refl _
  . exact List.Subset.refl _

theorem failsOnly_arrowBody (h : ∀ lexeme ∈ tokens, Legible s.text lexeme) :
    FailsOnly (CompileUnless s.text (s.MisreadsIn tokens)) (s.arrowBody tokens) := by
  unfold arrowBody
  split
  . next brace =>
    split
    . next hbrace => exact failsOnly_bodyIn h (List.mem_singleton_self _) hbrace
    . exact (failsOnly_markupOf? h).compileUnless.bind fun _ _ => .pure _
  . exact (failsOnly_markupOf? h).compileUnless.bind fun _ _ => .pure _

theorem failsOnly_componentOfExpression? (name : String) (statement : Statement)
    (h : ∀ lexeme ∈ tokens, Legible s.text lexeme) :
    FailsOnly (CompileUnless s.text (s.MisreadsIn tokens))
      (s.componentOfExpression? name statement tokens) := by
  have hsub := withoutAsync_subset tokens
  have h : ∀ lexeme ∈ withoutAsync tokens, Legible s.text lexeme :=
    fun lexeme hmem => h lexeme (hsub hmem)
  suffices hread : FailsOnly (CompileUnless s.text (s.MisreadsIn (withoutAsync tokens)))
    (s.componentOfExpression? name statement tokens) from
    hread.weaken fun hmisread => hmisread.mono hsub
  unfold componentOfExpression?
  dsimp only
  generalize withoutAsync tokens = tokens at *
  split
  . exact .pure _
  . next head more =>
    split
    . split
      . next paren last hparen hlast =>
        split
        . next hbrace =>
          refine (failsOnly_bodyIn h (List.mem_of_getLast? hlast) hbrace).bind fun result _ => ?_
          split
          . exact .pure _
          . exact (failsOnly_parametersIn h hparen).bind fun _ _ => .pure _
        . exact .pure _
      . exact .pure _
    . split
      . exact .pure _
      . next arrow result hresult =>
        have hsuffix : arrow :: result <:+ more := hresult ▸ List.dropWhile_suffix _
        have hresult : result ⊆ head :: more := fun lexeme hmem =>
          List.mem_cons_of_mem _ (hsuffix.subset (List.mem_cons_of_mem _ hmem))
        split
        . next hhead =>
          refine (failsOnly_parameters (h head List.mem_cons_self) hhead).bind fun _ _ => ?_
          refine FailsOnly.bind ?_ fun _ _ => .pure _
          exact (failsOnly_arrowBody fun lexeme hmem => h lexeme (hresult hmem)).weaken
            fun hmisread => hmisread.mono hresult
        . exact .pure _

theorem failsOnly_component? (h : Readable s.text statements statement) :
    FailsOnly (CompileUnless s.text (s.MisreadsIn statement.body.lexemes))
      (s.component? statement) := by
  unfold component?
  split
  . next f hbody => exact failsOnly_componentOfFunction? h hbody
  . next v hbody =>
    split
    . next tokens _ hvalue =>
      have hsub : tokens ⊆ statement.body.lexemes := by
        rw [hbody, Statement.Body.lexemes, hvalue]
        exact List.subset_cons_self _ _
      refine (failsOnly_componentOfExpression? _ _ fun lexeme hmem =>
        h.legible lexeme (hsub hmem)).weaken ?_
      exact fun hmisread => hmisread.mono hsub
    . exact .ok _
  . exact .ok _

/-! ### Documents -/

theorem startsIn_span (problem : Problem) (start stop : Nat) :
    CompileError.StartsIn s.text { problem, span := some (s.span start stop) } := by
  intro span hspan
  cases hspan
  simp [Source.span, Origin.span, Origin.locate]

/-- Some of these statements of the file is misread, or one in a function body of them. -/
def MisreadsAny (s : Source) (statements : List Statement) : Prop :=
  Misread statements ∨ ∃ statement ∈ statements, s.MisreadsIn statement.body.lexemes

theorem failsOnly_topLevel (h : Readable s.text statements statement)
    (himport : ∀ tokens, statement.body ≠ .importing tokens)
    (hreturn : ∀ word tokens, statement.body ≠ .returning word tokens) :
    FailsOnly (CompileUnless s.text (s.MisreadsAny statements)) (s.block .topLevel statement) := by
  apply (failsOnly_block .topLevel h hreturn).weaken
  rintro (hmisread | ⟨operator, operands, hbody, _⟩)
  . exact .inl hmisread
  . exact absurd hbody (himport _)

theorem failsOnly_add (h : Readable s.text statements statement) (hmem : statement ∈ statements)
    (draft : Draft) :
    FailsOnly (CompileUnless s.text (s.MisreadsAny statements)) (s.add draft statement) := by
  have hin : s.MisreadsIn statement.body.lexemes → s.MisreadsAny statements :=
    fun hmisread => .inr ⟨statement, hmem, hmisread⟩
  have hmodule (himport : ∀ tokens, statement.body ≠ .importing tokens)
      (hreturn : ∀ word tokens, statement.body ≠ .returning word tokens) :
      FailsOnly (CompileUnless s.text (s.MisreadsAny statements))
        (add.asModuleStatement s draft statement) :=
    (failsOnly_topLevel h himport hreturn).bind fun _ _ => .pure _
  unfold add
  split
  . next tokens hbody =>
    refine (failsOnly_importOf statement ?_).bind fun _ _ => .pure _
    simpa [hbody, Statement.Body.lexemes] using h.legible
  . exact .error (.inl ⟨⟨_, rfl⟩, rfl, startsIn_span _ _ _⟩)
  . next hbody => exact hmodule (by simp [hbody]) (by simp [hbody])
  . next tokens hbody =>
    have hmodule := hmodule (by simp [hbody]) (by simp [hbody])
    split
    . split
      . exact .pure _
      . exact hmodule
    . rw [hbody] at hin
      have hlegible : ∀ lexeme ∈ tokens, Legible s.text lexeme := by
        simpa [hbody, Statement.Body.lexemes] using h.legible
      refine ((failsOnly_componentOfExpression? _ _ hlegible).weaken hin).bind fun found _ => ?_
      cases found with
      | some component => exact .pure _
      | none => exact hmodule
  . next himport hreturn _ _ =>
    refine ((failsOnly_component? h).weaken hin).bind fun found _ => ?_
    cases found with
    | some component => exact .pure _
    | none => exact (failsOnly_topLevel h himport hreturn).bind fun _ _ => .pure _

theorem defaultNames_of_foldlM (h : statements.foldlM s.add {} = .ok draft) :
    ∀ named ∈ draft.defaultNames, named.2 ∈ statements ∧
      ∃ tokens, named.2.body = .defaultExpression tokens := by
  refine foldlM_invariant (P := fun draft : Draft => ∀ named ∈ draft.defaultNames,
    named.2 ∈ statements ∧ ∃ tokens, named.2.body = .defaultExpression tokens) ?_ (by simp) h
  intro statement hmem draft draft' hdraft hadd
  obtain ⟨place, hplaced, rfl⟩ := add_ok hadd
  cases hplaced with
  | defaultName hbody _ =>
    intro named hnamed
    rcases List.mem_append.mp hnamed with hnamed | hnamed
    . exact hdraft named hnamed
    . obtain rfl := List.mem_singleton.mp hnamed
      exact ⟨hmem, _, hbody⟩
  | _ => exact hdraft

theorem failsOnly_exportDefault (h : Readable s.text statements statement)
    (hbody : statement.body = .defaultExpression tokens) (draft : Draft) (name : String) :
    FailsOnly (CompileUnless s.text (s.MisreadsAny statements))
      (s.exportDefault draft name statement) := by
  unfold exportDefault
  split
  . exact .pure _
  . exact (failsOnly_topLevel h (by simp [hbody]) (by simp [hbody])).bind fun _ _ => .pure _

theorem failsOnly_checkDefaultExports (statements : List Statement) :
    FailsOnly (IsCompile s.text) (s.checkDefaultExports statements) := by
  unfold checkDefaultExports
  split
  . exact .error ⟨⟨_, rfl⟩, rfl, startsIn_span _ _ _⟩
  . exact .ok _

def Draft.HasPlaces (s : Source) (draft : Draft) : Prop :=
  ∀ component ∈ draft.components, ∃ start stop, component.span = s.span start stop

theorem hasPlaces_of_foldlM (h : statements.foldlM s.add {} = .ok draft) : draft.HasPlaces s := by
  refine foldlM_invariant (P := Draft.HasPlaces s) ?_ (by simp [Draft.HasPlaces]) h
  intro statement hmem draft draft' hdraft hadd
  obtain ⟨place, hplaced, rfl⟩ := add_ok hadd
  cases hplaced with
  | component hcomponent =>
    intro component hmem
    rcases List.mem_append.mp hmem with hmem | hmem
    . exact hdraft component hmem
    . obtain rfl := List.mem_singleton.mp hmem
      obtain ⟨_, _, _⟩ := hcomponent
      exact ⟨_, _, rfl⟩
  | _ => exact hdraft

theorem Draft.HasPlaces.exportDefault (hdraft : draft.HasPlaces s)
    (h : s.exportDefault draft name statement = .ok draft') : draft'.HasPlaces s := by
  obtain ⟨_, _, hexports⟩ := exportDefault_ok h
  intro component hmem
  obtain ⟨original, horiginal, heq⟩ := hexports.exists_original hmem
  rw [heq]
  exact hdraft original horiginal

theorem failsOnly_finish (metadata : Page.Metadata) (h : draft.HasPlaces s) :
    FailsOnly (IsCompile s.text) (s.finish metadata draft) := by
  unfold finish
  split
  . exact .error ⟨⟨_, rfl⟩, rfl, by simp [CompileError.StartsIn]⟩
  . next first more hcomponents =>
    split
    . obtain ⟨start, stop, hspan⟩ := h first (by simp [hcomponents])
      refine .error ⟨⟨_, rfl⟩, rfl, ?_⟩
      dsimp only
      rw [hspan]
      exact startsIn_span _ _ _
    . exact .ok _

theorem failsOnly_document (metadata : Page.Metadata)
    (h : ∀ statement ∈ statements, Readable s.text statements statement) :
    FailsOnly (CompileUnless s.text (s.MisreadsAny statements))
      (s.document metadata statements) := by
  refine (failsOnly_checkDefaultExports statements).compileUnless.bind fun _ _ => ?_
  refine FailsOnly.bind
    (.foldlM (fun statement hmem draft => failsOnly_add (h statement hmem) hmem draft) {})
    fun draft hdraft => ?_
  refine FailsOnly.bind (.foldlM ?_ draft) fun exported hexport => ?_
  . rintro ⟨name, statement⟩ hnamed draft
    obtain ⟨hmem, tokens, hbody⟩ := defaultNames_of_foldlM hdraft _ hnamed
    exact failsOnly_exportDefault (h statement hmem) hbody draft name
  . apply FailsOnly.compileUnless
    apply failsOnly_finish
    refine foldlM_invariant ?_ (hasPlaces_of_foldlM hdraft) hexport
    rintro ⟨name, statement⟩ _ draft draft' hdraft hexport
    exact hdraft.exportDefault hexport

end Source

namespace Document

variable {text file : String}

/-- Some code of the file is misread. -/
def Misreads (text file : String) : Prop :=
  ∃ statements, Statement.parse text file = .ok statements ∧
    Source.MisreadsAny ⟨text, file⟩ statements

theorem failsOnly_parse (text file : String) :
    FailsOnly (CompileUnless text (Misreads text file)) (parse text file) := by
  have hplaces : Text.SamePlaces text text := fun _ _ => rfl
  refine (Statement.failsOnly_parse hplaces file).compileUnless.bind fun statements hstatements =>
    ?_
  have hreadable := Statement.readable_of_parse (fun _ _ _ _ _ h => h) hstatements
  refine (Source.failsOnly_document _ hreadable).weaken fun hmisreads => ?_
  exact ⟨statements, hstatements, hmisreads⟩

/-- Reading a component file yields a document or an error of the file. Any other failure is a
problem with code that is misread: a statement of the file or of a function body in it that right
after a function starts with an operator, or an import in such a body that starts with one. -/
theorem parse_ok_or_compile (text file : String) :
    (∃ document, parse text file = .ok document) ∨
    (∃ error, parse text file = .error (.compile error)) ∨
    (∃ problem pos, parse text file = .error (.scan (.problem problem pos))) ∧
      Misreads text file := by
  cases hparse : parse text file with
  | ok document => exact .inl ⟨document, rfl⟩
  | error failure =>
    right
    rcases failsOnly_parse text file failure hparse with
      ⟨error, rfl, _⟩ | ⟨⟨_, rfl, problem, pos, rfl, _⟩, hmisreads⟩
    . exact .inl ⟨error, rfl⟩
    . exact .inr ⟨⟨problem, pos, rfl⟩, hmisreads⟩

/-- The slash after a function would be an operator, but starts a regular expression where the
statement after the function, or what the body imports, is read by itself. -/
theorem parse_misread :
    parse "function f() \x7b\x7d / x" "<stdin>" = .error (.scan (.problem .unclosedRegex 16)) ∧
    parse "function f() \x7b import / x \x7d" "<stdin>" =
      .error (.scan (.problem .unclosedRegex 22)) := by
  have herror : ∀ {text : String} {failure : Failure},
      (match parse text "<stdin>" with
        | .error other => other == failure
        | .ok _ => false) = true → parse text "<stdin>" = .error failure := by
    intro text failure h
    split at h
    . next other hparse => rw [hparse, eq_of_beq h]
    . simp at h
  exact ⟨herror (by decide +kernel), herror (by decide +kernel)⟩

end Document
end ComponentCompiler
