import ComponentCompiler.Document.Parse
import ComponentCompiler.Proofs.Success

/-!
This module contains which statements are components. A statement is one exactly if it is a function
or an arrow function that results in markup: alone or in parentheses, after the arrow or at the
first return of the body.
-/

namespace ComponentCompiler
namespace Source

variable {s : Source} {tree : Markup.Node} {statement : Statement} {blocks : List Block}
variable {tokens : List Lexeme} {brace head : Lexeme} {component : Component}

/-- The lexemes are markup from `start` to `stop`, alone or in parentheses. -/
inductive IsMarkup (s : Source) : List Lexeme → Nat → Nat → Prop where
  | alone {lexeme : Lexeme} (h : lexeme.terminal = .markup) :
    IsMarkup s [lexeme] lexeme.start lexeme.stop
  | parenthesised {lexeme : Lexeme} {before after : List Token} {token : Token}
      (h : lexeme.terminal = .paren)
      (hinner : Token.scanWindow s.text (lexeme.start + 1) (lexeme.stop - 1) =
        .ok (before ++ token :: after))
      (hparens : ∀ t ∈ before ++ after, t.isPunct "(" = true ∨ t.isPunct ")" = true)
      (hmarkup : token.kind = .markup) : IsMarkup s [lexeme] token.start token.stop

/-- The lexemes are markup that is written as this tree. -/
def Shows (s : Source) (tokens : List Lexeme) (tree : Markup.Node) : Prop :=
  ∃ start stop, s.IsMarkup tokens start stop ∧ s.markupAt start stop = .ok tree

theorem filter_parens_eq_singleton {inner : List Token} {token : Token}
    (hmarkup : token.kind = .markup) :
    (inner.filter fun t => !(t.isPunct "(" || t.isPunct ")")) = [token]
      ↔
    ∃ before after, inner = before ++ token :: after ∧
      ∀ t ∈ before ++ after, t.isPunct "(" = true ∨ t.isPunct ")" = true := by
  have htoken : (!(token.isPunct "(" || token.isPunct ")")) = true := by
    simp [Token.isPunct, hmarkup]
  simp only [List.filter_eq_cons_iff, List.filter_eq_nil_iff, List.forall_mem_append, htoken,
    Bool.not_eq_true', Bool.not_eq_false, Bool.or_eq_true, true_and]

theorem shows_of_markupOf? (h : s.markupOf? tokens = .ok (some tree)) : s.Shows tokens tree := by
  unfold markupOf? at h
  split at h
  . next lexeme =>
    split at h
    . next hterminal =>
      simp only [bind_eq_ok] at h
      obtain ⟨tree, hread, h⟩ := h
      cases h
      exact ⟨_, _, .alone hterminal, hread⟩
    . next hterminal =>
      simp only [bind_eq_ok, mapError_eq_ok] at h
      obtain ⟨inner, hinner, h⟩ := h
      split at h
      . next token htoken =>
        split at h
        . next hmarkup =>
          simp only [bind_eq_ok] at h
          obtain ⟨tree, hread, h⟩ := h
          cases h
          obtain ⟨before, after, rfl, hparens⟩ := (filter_parens_eq_singleton hmarkup).mp htoken
          exact ⟨_, _, .parenthesised hterminal hinner hparens hmarkup, hread⟩
        . simp [pure_eq_ok] at h
      . simp [pure_eq_ok] at h
    . simp [pure_eq_ok] at h
  . simp [pure_eq_ok] at h

theorem markupOf?_of_shows (h : s.Shows tokens tree) : s.markupOf? tokens = .ok (some tree) := by
  obtain ⟨start, stop, hmarkup, hread⟩ := h
  cases hmarkup with
  | alone hterminal => simp [markupOf?, hterminal, hread, pure, Except.pure]
  | @parenthesised lexeme before after token hterminal hinner hparens hkind =>
    have hfilter := (filter_parens_eq_singleton hkind).mpr ⟨before, after, rfl, hparens⟩
    rw [markupOf?]
    simp only [hterminal, hinner]
    rw [mapError_eq_ok.mpr rfl, ok_bind, hfilter]
    simp [hkind, hread, pure, Except.pure]

/-- The first return of the body holds markup that is written as this tree, and the statements
before it become the blocks. -/
inductive Returns (s : Source) (brace : Lexeme) : List Block → Markup.Node → Prop where
  | intro {before after : List Statement} {statement : Statement} {word : Lexeme}
      {tokens : List Lexeme}
      {blocks : List Block} {tree : Markup.Node}
      (hstatements : Statement.parse (s.blankBefore (brace.start + 1) (brace.stop - 1)) s.file
        = .ok (before ++ statement :: after))
      (hbefore : ∀ other ∈ before, ∀ word tokens, other.body ≠ .returning word tokens)
      (hblocks : List.Forall₂ (s.block .componentBody · = .ok ·) before blocks)
      (hreturn : statement.body = .returning word tokens) (htree : s.Shows tokens tree) :
    Returns s brace blocks tree

theorem go_of_returning (hreturn : statement.body = .returning word tokens) (taken : List Block)
    (after : List Statement) :
    body.go s taken (statement :: after) = (do return (taken.reverse, ← s.markupOf? tokens)) := by
  rw [body.go]
  simp [hreturn]

theorem go_of_block (hbody : ∀ word tokens, statement.body ≠ .returning word tokens)
    (taken : List Block) (after : List Statement) :
    body.go s taken (statement :: after)
      =
    (do body.go s ((← s.block .componentBody statement) :: taken) after) := by
  rw [body.go]
  split
  . next word tokens hreturn => exact absurd hreturn (hbody word tokens)
  . rfl

theorem body_of_returns (h : s.Returns brace blocks tree) :
    s.body brace = .ok (blocks, some tree) := by
  obtain @⟨before, after, statement, word, tokens, _, _, hstatements, hbefore, hblocks, hreturn,
      htree⟩ := h
  rw [body, hstatements, ok_bind]
  suffices hgo : ∀ taken, body.go s taken (before ++ statement :: after) =
    .ok (taken.reverse ++ blocks, some tree) from
    hgo []
  clear hstatements
  induction hblocks with
  | nil =>
    intro taken
    rw [List.nil_append, go_of_returning hreturn, markupOf?_of_shows htree, List.append_nil]
    rfl
  | @cons other block before blocks hblock _ ih =>
    intro taken
    rw [List.forall_mem_cons] at hbefore
    rw [List.cons_append, go_of_block hbefore.1, hblock, ok_bind, ih hbefore.2]
    simp

theorem go_ok {statements : List Statement} {taken : List Block}
    (h : body.go s taken statements = .ok (blocks, some tree)) :
    ∃ before statement after word tokens new, statements = before ++ statement :: after ∧
      (∀ other ∈ before, ∀ word tokens, other.body ≠ .returning word tokens) ∧
      List.Forall₂ (s.block .componentBody · = .ok ·) before new ∧
      statement.body = .returning word tokens ∧ s.Shows tokens tree ∧
        blocks = taken.reverse ++ new := by
  induction statements generalizing taken with
  | nil => simp [body.go] at h
  | cons statement statements ih =>
    by_cases hreturn : ∃ word tokens, statement.body = .returning word tokens
    . obtain ⟨word, tokens, hreturn⟩ := hreturn
      rw [go_of_returning hreturn, bind_eq_ok] at h
      obtain ⟨tree?, hmarkup, h⟩ := h
      cases h
      exact ⟨[], statement, statements, word, tokens, [], rfl, by simp, .nil, hreturn,
        shows_of_markupOf? hmarkup, (List.append_nil _).symm⟩
    . simp only [not_exists] at hreturn
      rw [go_of_block hreturn, bind_eq_ok] at h
      obtain ⟨block, hblock, h⟩ := h
      obtain ⟨before, last, after, word, tokens, new, rfl, hbefore, hblocks, hlast, htree, rfl⟩ :=
        ih h
      refine ⟨statement :: before, last, after, word, tokens, block :: new, rfl,
        List.forall_mem_cons.mpr ⟨hreturn, hbefore⟩, .cons hblock hblocks, hlast, htree, by simp⟩

theorem returns_of_body (h : s.body brace = .ok (blocks, some tree)) :
    s.Returns brace blocks tree := by
  rw [body, bind_eq_ok] at h
  obtain ⟨statements, hstatements, h⟩ := h
  obtain ⟨before, statement, after, word, tokens, new, rfl, hbefore, hblocks, hreturn, htree,
      rfl⟩ := go_ok h
  exact ⟨hstatements, hbefore, hblocks, hreturn, htree⟩

/-- What a function runs: the statements of a body, or an expression after an arrow. -/
inductive Code where
  | body (brace : Lexeme)
  | expression (tokens : List Lexeme)

/-- The code after an arrow. -/
def Code.ofResult : List Lexeme → Code
  | [lexeme] => if lexeme.terminal = .brace then .body lexeme else .expression [lexeme]
  | tokens => .expression tokens

/-- The code results in markup. A body has blocks before that. -/
inductive Yields (s : Source) : Code → List Block → Markup.Node → Prop where
  | body {brace : Lexeme} {blocks : List Block} {tree : Markup.Node}
      (h : s.Returns brace blocks tree) :
    Yields s (.body brace) blocks tree
  | expression {tokens : List Lexeme} {tree : Markup.Node} (h : s.Shows tokens tree) :
    Yields s (.expression tokens) [] tree

def resultOf (s : Source) : Code → Except Failure (List Block × Option Markup.Node)
  | .body brace => s.body brace
  | .expression tokens => do return ([], ← s.markupOf? tokens)

theorem arrowBody_eq (result : List Lexeme) :
    s.arrowBody result = s.resultOf (.ofResult result) := by
  unfold arrowBody
  split
  . rw [Code.ofResult]
    split <;> rfl
  . next hresult =>
    rw [Code.ofResult]
    . rfl
    . exact hresult

theorem resultOf_eq_ok : s.resultOf code = .ok (blocks, some tree) ↔ s.Yields code blocks tree := by
  constructor
  . intro h
    cases code with
    | body brace => exact .body (returns_of_body h)
    | expression tokens =>
      obtain ⟨tree?, hmarkup, h⟩ := bind_eq_ok.mp h
      cases h
      exact .expression (shows_of_markupOf? hmarkup)
  . intro h
    cases h with
    | body h => exact body_of_returns h
    | expression h =>
      rw [resultOf, markupOf?_of_shows h]
      rfl

/-- The lexemes are a function expression or an arrow function with this code. -/
inductive IsFunctionExpression : List Lexeme → Code → Prop where
  | function {head last : Lexeme} {between : List Lexeme}
      (hhead : head.terminal = .name ∧ head.value = "function")
      (hparen : ∃ t ∈ between, t.terminal = .paren) (hlast : last.terminal = .brace) :
    IsFunctionExpression (head :: (between ++ [last])) (.body last)
  | arrow {head word : Lexeme} {between result : List Lexeme}
      (hhead : head.terminal = .paren ∨ head.terminal = .name ∧ head.value ≠ "function")
      (hbetween : ∀ t ∈ between, t.terminal ≠ .arrow) (hword : word.terminal = .arrow) :
    IsFunctionExpression (head :: (between ++ word :: result)) (.ofResult result)

/-- The statement is a function with this name and code. A default export that has no name is called
after the file. -/
inductive Defines (s : Source) (statement : Statement) : String → Code → Prop where
  | function {f : FunctionDef} {name : String} (hbody : statement.body = .function f)
      (hname : functionName? f.signature = some name) :
    Defines s statement name (.body f.body)
  | anonymous {f : FunctionDef} (hbody : statement.body = .function f)
      (hname : functionName? f.signature = none)
      (hdefault : statement.isDefault = true) :
    Defines s statement (componentName s.file) (.body f.body)
  | binding {v : VariableDef} {tokens : List Lexeme} {code : Code}
      (hbody : statement.body = .variable v)
      (hbinding : v.binding.terminal = .name)
      (hvalue : v.initializer = some tokens) (h : IsFunctionExpression (withoutAsync tokens) code) :
    Defines s statement v.binding.value code
  | defaultExpression {tokens : List Lexeme} {code : Code}
      (hbody : statement.body = .defaultExpression tokens)
      (h : IsFunctionExpression (withoutAsync tokens) code) :
    Defines s statement (componentName s.file) code

/-- The statement is a function that results in markup, and the component is made of it. -/
inductive IsComponent (s : Source) (statement : Statement) : Component → Prop where
  | intro {name : String} {code : Code} {blocks : List Block} {tree : Markup.Node}
      (parameters : List Parameter) (hdefines : s.Defines statement name code)
      (hyields : s.Yields code blocks tree) :
    IsComponent s statement (s.component name statement parameters blocks tree)

def Recognised (s : Source) (statement : Statement) : Option Component → Prop
  | some component => s.IsComponent statement component
  | none => ∀ component, ¬ s.IsComponent statement component

theorem recognised_none (h : ∀ name code, ¬ s.Defines statement name code) :
    s.Recognised statement none := by
  rintro _ ⟨_, hdefines, _⟩
  exact h _ _ hdefines

theorem recognised_resultOf (parameters : List Parameter) (hdefines : s.Defines statement name code)
    (hcode : ∀ name' code', s.Defines statement name' code' → code' = code)
    (h : s.resultOf code = .ok (blocks, tree?)) :
    s.Recognised statement (tree?.map (s.component name statement parameters blocks)) := by
  cases tree? with
  | some tree => exact .intro parameters hdefines (resultOf_eq_ok.mp h)
  | none =>
    rintro _ ⟨_, hdefines', hyields⟩
    rw [hcode _ _ hdefines', ← resultOf_eq_ok, h] at hyields
    simp at hyields

theorem code_of_defines (hbody : statement.body = .function f) (h : s.Defines statement name code) :
    code = .body f.body ∧ (functionName? f.signature = none → statement.isDefault = true) := by
  cases h with
  | function hbody' hname =>
    rw [hbody] at hbody'
    cases hbody'
    simp [hname]
  | anonymous hbody' hname hdefault =>
    rw [hbody] at hbody'
    cases hbody'
    exact ⟨rfl, fun _ => hdefault⟩
  | binding hbody' => simp [hbody] at hbody'
  | defaultExpression hbody' => simp [hbody] at hbody'

theorem recognised_function {found : Option Component} (hbody : statement.body = .function f)
    (h : s.componentOfFunction? statement f = .ok found) : s.Recognised statement found := by
  unfold componentOfFunction? at h
  dsimp only at h
  split at h
  . next hname =>
    cases h
    apply recognised_none
    intro name code hdefines
    have hdefault := (code_of_defines hbody hdefines).2
    split at hname
    . simp at hname
    . next hsignature => simp [hdefault hsignature] at hname
  . next name hname =>
    have hdefines : s.Defines statement name (.body f.body) := by
      split at hname
      . next hsignature => exact .function hbody (hsignature.trans hname)
      . next hsignature =>
        rw [Option.ite_none_right_eq_some] at hname
        rw [← Option.some.inj hname.2]
        exact .anonymous hbody hsignature hname.1
    obtain ⟨⟨blocks, tree?⟩, hread, h⟩ := bind_eq_ok.mp h
    have hrecognised (parameters : List Parameter) := recognised_resultOf parameters hdefines
      (fun _ _ hdefines => (code_of_defines hbody hdefines).1) hread
    cases tree? with
    | none =>
      cases h
      exact hrecognised []
    | some tree =>
      dsimp only at h
      split at h
      . obtain ⟨parameters, _, h⟩ := bind_eq_ok.mp h
        cases h
        exact hrecognised parameters
      . cases h
        exact hrecognised []

theorem isFunctionExpression_function (hhead : head.terminal = .name ∧ head.value = "function") :
    IsFunctionExpression (head :: more) code
      ↔
    (∃ t ∈ head :: more, t.terminal = .paren) ∧
    ∃ last, (head :: more).getLast? = some last ∧ last.terminal = .brace ∧ code = .body last := by
  constructor
  . intro h
    cases h with
    | @function _ last between _ hparen hlast =>
      obtain ⟨t, ht, hparen⟩ := hparen
      refine ⟨⟨t, by simp [ht], hparen⟩, last, ?_, hlast, rfl⟩
      rw [← List.cons_append, List.getLast?_concat]
    | arrow hhead' => simp [hhead] at hhead'
  . rintro ⟨⟨t, ht, hparen⟩, last, hlast, hbrace, rfl⟩
    obtain ⟨before, hbefore⟩ := List.getLast?_eq_some_iff.mp hlast
    cases before with
    | nil =>
      cases hbefore
      simp [hhead] at hbrace
    | cons first between =>
      rw [List.cons_append, List.cons.injEq] at hbefore
      obtain ⟨rfl, rfl⟩ := hbefore
      refine .function hhead ⟨t, ?_, hparen⟩ hbrace
      simp only [List.mem_cons, List.mem_append, List.not_mem_nil, or_false] at ht
      rcases ht with rfl | ht | rfl
      . simp [hhead] at hparen
      . exact ht
      . simp [hbrace] at hparen

theorem eq_append_of_dropWhile {more : List Lexeme}
    (h : more.dropWhile (·.terminal != .arrow) = word :: result) :
    ∃ between, more = between ++ word :: result ∧ (∀ t ∈ between, t.terminal ≠ .arrow) ∧
      word.terminal = .arrow := by
  induction more with
  | nil => simp at h
  | cons first more ih =>
    by_cases hfirst : first.terminal = .arrow
    . rw [List.dropWhile_cons_of_neg (by simp [hfirst])] at h
      cases h
      exact ⟨[], rfl, by simp, hfirst⟩
    . rw [List.dropWhile_cons_of_pos (by simp [hfirst])] at h
      obtain ⟨between, rfl, hbetween, hword⟩ := ih h
      exact ⟨first :: between, rfl, List.forall_mem_cons.mpr ⟨hfirst, hbetween⟩, hword⟩

theorem isFunctionExpression_arrow (hhead : ¬ (head.terminal = .name ∧ head.value = "function")) :
    IsFunctionExpression (head :: more) code
      ↔
    (head.terminal = .paren ∨ head.terminal = .name) ∧
    ∃ word result, more.dropWhile (·.terminal != .arrow) = word :: result ∧
      code = .ofResult result := by
  constructor
  . intro h
    cases h with
    | function hhead' => exact absurd hhead' hhead
    | @arrow _ word between result hhead' hbetween hword =>
      refine ⟨hhead'.imp_right And.left, word, result, ?_, rfl⟩
      rw [List.dropWhile_append_of_pos (by simpa using hbetween),
        List.dropWhile_cons_of_neg (by simp [hword])]
  . rintro ⟨hhead', word, result, hdrop, rfl⟩
    obtain ⟨between, rfl, hbetween, hword⟩ := eq_append_of_dropWhile hdrop
    refine .arrow (hhead'.imp_right ?_) hbetween hword
    exact fun hname => ⟨hname, fun hvalue => hhead ⟨hname, hvalue⟩⟩

theorem IsFunctionExpression.unique (h : IsFunctionExpression tokens code)
    (h' : IsFunctionExpression tokens code') : code' = code := by
  cases tokens with
  | nil => nomatch h
  | cons head more =>
    by_cases hhead : head.terminal = .name ∧ head.value = "function"
    . rw [isFunctionExpression_function hhead] at h h'
      obtain ⟨_, last, hlast, _, rfl⟩ := h
      obtain ⟨_, last', hlast', _, rfl⟩ := h'
      rw [hlast] at hlast'
      cases hlast'
      rfl
    . rw [isFunctionExpression_arrow hhead] at h h'
      obtain ⟨_, word, result, hdrop, rfl⟩ := h
      obtain ⟨_, word', result', hdrop', rfl⟩ := h'
      rw [hdrop] at hdrop'
      cases hdrop'
      rfl

theorem componentOfExpression?_ok {found : Option Component} {name : String}
    (h : s.componentOfExpression? name statement tokens = .ok found) :
    (found = none ∧ ∀ code, ¬ IsFunctionExpression (withoutAsync tokens) code) ∨
    ∃ code parameters blocks tree?, IsFunctionExpression (withoutAsync tokens) code ∧
      s.resultOf code = .ok (blocks, tree?) ∧
        found = tree?.map (s.component name statement parameters blocks) := by
  unfold componentOfExpression? at h
  dsimp only at h
  generalize withoutAsync tokens = tokens at h
  split at h
  . cases h
    exact .inl ⟨rfl, fun _ h => nomatch h⟩
  next head more =>
  split at h
  . next hhead =>
    simp only [isFunctionExpression_function hhead]
    split at h
    . next paren last hparen hlast =>
      split at h
      . next hbrace =>
        obtain ⟨⟨blocks, tree?⟩, hread, h⟩ := bind_eq_ok.mp h
        have hmem : ∃ t ∈ head :: more, t.terminal = .paren :=
          ⟨paren, List.mem_of_find?_eq_some hparen, by simpa using List.find?_some hparen⟩
        cases tree? with
        | none =>
          cases h
          exact .inr ⟨_, [], blocks, none, ⟨hmem, last, hlast, hbrace, rfl⟩, hread, rfl⟩
        | some tree =>
          obtain ⟨parameters, _, h⟩ := bind_eq_ok.mp h
          cases h
          exact .inr ⟨_, parameters, blocks, some tree, ⟨hmem, last, hlast, hbrace, rfl⟩,
            hread, rfl⟩
      . next hbrace =>
        cases h
        refine .inl ⟨rfl, ?_⟩
        rintro code ⟨_, last', hlast', hbrace', _⟩
        rw [hlast] at hlast'
        cases hlast'
        exact hbrace hbrace'
    . next hlast =>
      cases h
      refine .inl ⟨rfl, ?_⟩
      rintro code ⟨hmem, last, hlast', _⟩
      obtain ⟨paren, hparen⟩ :
          ∃ paren, (head :: more).find? (·.terminal == .paren) = some paren := by
        rw [← Option.isSome_iff_exists, List.find?_isSome]
        simpa using hmem
      exact hlast paren last hparen hlast'
  . next hhead =>
    simp only [isFunctionExpression_arrow hhead]
    split at h
    . next hdrop =>
      cases h
      simp [hdrop]
    . next word result hdrop =>
      split at h
      . next hhead' =>
        obtain ⟨parameters, _, h⟩ := bind_eq_ok.mp h
        obtain ⟨⟨blocks, tree?⟩, hread, h⟩ := bind_eq_ok.mp h
        cases h
        rw [arrowBody_eq] at hread
        exact .inr ⟨_, parameters, blocks, tree?, ⟨hhead', word, result, hdrop, rfl⟩, hread, rfl⟩
      . next hhead' =>
        cases h
        exact .inl ⟨rfl, fun code hcode => hhead' hcode.1⟩

theorem recognised_expression {found : Option Component} {name : String}
    (hdefines : ∀ name' code, s.Defines statement name' code ↔ name' = name ∧
      IsFunctionExpression (withoutAsync tokens) code)
    (h : s.componentOfExpression? name statement tokens = .ok found) :
    s.Recognised statement found := by
  rcases componentOfExpression?_ok h with
    ⟨rfl, hnone⟩ | ⟨code, parameters, blocks, tree?, hcode, hread, rfl⟩
  . apply recognised_none
    intro name' code h
    exact hnone code ((hdefines name' code).mp h).2
  . apply recognised_resultOf parameters ((hdefines name code).mpr ⟨rfl, hcode⟩) _ hread
    intro name' code' h
    exact hcode.unique ((hdefines name' code').mp h).2

theorem recognised_default {found : Option Component}
    (hbody : statement.body = .defaultExpression tokens)
    (h : s.componentOfExpression? (componentName s.file) statement tokens = .ok found) :
    s.Recognised statement found := by
  refine recognised_expression ?_ h
  intro name code
  constructor
  . intro h
    cases h with
    | defaultExpression hbody' h =>
      rw [hbody] at hbody'
      cases hbody'
      exact ⟨rfl, h⟩
    | _ hbody' => simp [hbody] at hbody'
  . rintro ⟨hname, h⟩
    rw [hname]
    exact .defaultExpression hbody h

theorem defines_binding (hbody : statement.body = .variable v) :
    s.Defines statement name code
      ↔
    name = v.binding.value ∧ v.binding.terminal = .name ∧
      ∃ tokens, v.initializer = some tokens ∧ IsFunctionExpression (withoutAsync tokens) code := by
  constructor
  . intro h
    cases h with
    | binding hbody' hbinding hvalue h =>
      rw [hbody] at hbody'
      cases hbody'
      exact ⟨rfl, hbinding, _, hvalue, h⟩
    | _ hbody' => simp [hbody] at hbody'
  . rintro ⟨rfl, hbinding, tokens, hvalue, h⟩
    exact .binding hbody hbinding hvalue h

theorem recognised_component? {found : Option Component}
    (hbody : ∀ tokens, statement.body ≠ .defaultExpression tokens)
    (h : s.component? statement = .ok found) : s.Recognised statement found := by
  unfold component? at h
  split at h
  . next f hfunction => exact recognised_function hfunction h
  . next v hvariable =>
    split at h
    . next tokens hbinding hvalue =>
      refine recognised_expression ?_ h
      intro name code
      simp [defines_binding hvariable, hbinding, hvalue]
    . next hbinding =>
      cases h
      apply recognised_none
      intro name code hdefines
      obtain ⟨_, hterminal, tokens, hvalue, _⟩ := (defines_binding hvariable).mp hdefines
      exact hbinding tokens hterminal hvalue
  . next hfunction hvariable =>
    cases h
    apply recognised_none
    intro name code hdefines
    cases hdefines with
    | function hbody' => exact hfunction _ hbody'
    | anonymous hbody' => exact hfunction _ hbody'
    | binding hbody' => exact hvariable _ hbody'
    | defaultExpression hbody' => exact hbody _ hbody'

end Source
end ComponentCompiler
