import ComponentCompiler.Proofs.Statement.Language
import ComponentCompiler.Proofs.Token.Shift

/-!
This module contains statements of a text that has white space before it. They are the statements of
the text, or the error is the same, and every offset is moved by as much as is put before the text.
-/

namespace ComponentCompiler

open Token (Moved startItem startItems)

variable {n : Nat} {text text' : String} {item item' : Item} {items items' : List Item}

namespace Lexeme

variable {state : State}

def shift (n : Nat) (lexeme : Lexeme) : Lexeme :=
  { lexeme with start := lexeme.start + n, stop := lexeme.stop + n }

def State.shift (n : Nat) (state : State) : State :=
  { state with last := state.last.map (Lexeme.shift n) }

@[simp]
theorem terminal_shift (n : Nat) (lexeme : Lexeme) :
    (lexeme.shift n).terminal = lexeme.terminal := rfl

theorem State.awaitingBody_shift (n : Nat) (state : State) :
    (state.shift n).awaitingBody = state.awaitingBody := rfl

theorem State.seenParameters_shift (n : Nat) (state : State) :
    (state.shift n).seenParameters = state.seenParameters := rfl

theorem endIfOpen_shift (n : Nat) (state : State) : endIfOpen (state.shift n) =
    (endIfOpen state).map (shift n) := by
  obtain ⟨last, _, _, _⟩ := state
  cases last <;> rfl

theorem continues_moved (h : Moved n item item') : continues item' = continues item := by
  cases h <;> rfl

theorem terminalOf_moved (state : State) (h : Moved n item item')
    (hitems : List.Forall₂ (Moved n) items items') :
    terminalOf (state.shift n) item' items'.head? = terminalOf state item items.head? := by
  have hword : ∀ word, wordTerminal (state.shift n) word items'.head? =
      wordTerminal state word items.head? := by
    intro word
    have hfirst : (state.shift n).last.isNone = state.last.isNone := Option.isNone_map
    have hprevious : (state.shift n).last.map (·.terminal) = state.last.map (·.terminal) := by
      rw [State.shift, Option.map_map]
      rfl
    unfold wordTerminal
    rw [hfirst, hprevious]
    cases hitems with
    | nil => rfl
    | cons hnext _ =>
      cases hnext with
      | token => rfl
      | group bracket => cases bracket <;> rfl
  cases h with
  | token t =>
    unfold terminalOf
    dsimp only [Token.shift]
    rw [hword]
  | group bracket => cases bracket <;> rfl

theorem step_moved
    (htext : ∀ start stop, Text.slice text' (start + n) (stop + n) = Text.slice text start stop)
    (state : State) (h : Moved n item item') (hitems : List.Forall₂ (Moved n) items items') :
    step text' (state.shift n) item' items'.head?
      =
    ((step text state item items.head?).1.map (shift n),
      (step text state item items.head?).2.shift n) := by
  unfold step
  dsimp only
  rw [terminalOf_moved state h hitems, h.start_eq, h.stop_eq, htext]
  generalize terminalOf state item items.head? = terminal
  rw [State.awaitingBody_shift, State.seenParameters_shift]
  by_cases hfunction : terminal = .functionWord
  . simp only [if_pos hfunction]
    rfl
  . simp only [if_neg hfunction]
    by_cases hparen : (state.awaitingBody && terminal == .paren) = true
    . simp only [if_pos hparen]
      rfl
    . simp only [if_neg hparen]
      by_cases hbrace : (state.awaitingBody && state.seenParameters && terminal == .brace) = true
      . simp only [if_pos hbrace]
        rfl
      . simp only [if_neg hbrace]
        rfl

theorem go_moved (htext : ∀ start stop, Text.slice text' (start + n) (stop + n) =
    Text.slice text start stop)
    (h : List.Forall₂ (Moved n) items items') (state : State) :
    ofItems.go text' (state.shift n) items' = (ofItems.go text state items).map (shift n) := by
  induction h generalizing state with
  | nil => exact endIfOpen_shift n state
  | @cons item item' items items' hitem hitems ih =>
    rw [ofItems.go, ofItems.go, hitem.isPunct_eq]
    split
    . rw [List.map_append, endIfOpen_shift, ← ih {}]
      rfl
    . have hlast : (state.shift n).last.any (!·.isOpen) = state.last.any (!·.isOpen) := by
        rw [State.shift, Option.any_map]
        rfl
      dsimp only
      rw [hitem.newlineBefore_eq, continues_moved hitem, hlast, State.awaitingBody_shift]
      generalize (item.newlineBefore && !state.awaitingBody && !continues item && state.last.any
        (!·.isOpen)) = breaks
      have hstate : (if breaks = true then {} else state.shift n) =
          (if breaks = true then ({} : State) else state).shift n := by
        cases breaks <;> rfl
      have hended : (if breaks = true then endIfOpen (state.shift n) else [])
          = (if breaks = true then endIfOpen state else []).map (shift n) := by
        rw [endIfOpen_shift]
        cases breaks <;> rfl
      rw [hstate, hended, step_moved htext _ hitem hitems, List.map_append, List.map_append, ← ih]

theorem ofItems_startItems (text : String) (items : List Item) :
    ofItems text (startItems items) = ofItems text items := by
  cases items with
  | nil => rfl
  | cons item items =>
    have hpunct : (startItem item).isPunct ";" = item.isPunct ";" := by cases item <;> rfl
    have hstep : ∀ next, step text {} (startItem item) next = step text {} item next := by
      intro next
      cases item with
      | token t => rfl
      | group bracket => cases bracket <;> rfl
    rw [startItems, ofItems, ofItems, ofItems.go, ofItems.go, hpunct]
    split
    . rfl
    . have hnone : ({} : State).last.any (!·.isOpen) = false := rfl
      dsimp only
      simp only [hnone, Bool.and_false, Bool.false_eq_true, if_false, hstep]

end Lexeme

def FunctionDef.shift (n : Nat) (f : FunctionDef) : FunctionDef :=
  ⟨f.keyword.shift n, f.signature.map (Lexeme.shift n), f.body.shift n⟩

def VariableDef.shift (n : Nat) (v : VariableDef) : VariableDef :=
  ⟨v.keyword.shift n, v.binding.shift n, v.typeItems.map (Lexeme.shift n),
    v.initializer.map (List.map (Lexeme.shift n))⟩

namespace Statement

def Body.shift (n : Nat) : Body → Body
  | .importing tokens => .importing (tokens.map (Lexeme.shift n))
  | .function f => .function (f.shift n)
  | .variable v => .variable (v.shift n)
  | .returning keyword tokens => .returning (keyword.shift n) (tokens.map (Lexeme.shift n))
  | .expression tokens => .expression (tokens.map (Lexeme.shift n))
  | .defaultExpression tokens => .defaultExpression (tokens.map (Lexeme.shift n))
  | .passthrough tokens => .passthrough (tokens.map (Lexeme.shift n))

/-- The statement with every offset moved by `n`. -/
def shift (n : Nat) (statement : Statement) : Statement :=
  { statement with
    body := statement.body.shift n
    start := statement.start + n
    stop := statement.stop + n
    codeStart := statement.codeStart + n }

def Unexpected.shift (n : Nat) (u : Unexpected) : Unexpected :=
  { u with found := u.found.shift n }

abbrev Moves (n : Nat) (move : α → α) : Except Unexpected α → Except Unexpected α → Prop :=
  Paired (fun u u' => u' = u.shift n) (fun a a' => a' = move a)

section

variable (n : Nat) (word eos : Lexeme) (tokens : List Lexeme)

theorem headD_shift :
    (tokens.map (Lexeme.shift n)).headD (eos.shift n) = (tokens.headD eos).shift n := by
  cases tokens <;> rfl

theorem unexpected_shift (accepts : Terminal → Bool) :
    unexpected (eos.shift n) (tokens.map (Lexeme.shift n)) accepts =
      (unexpected eos tokens accepts).shift n := by
  rw [unexpected, unexpected, headD_shift]
  rfl

theorem moves_error {move : α → α} (accepts : Terminal → Bool) :
    Moves n move (.error (unexpected eos tokens accepts))
      (.error (unexpected (eos.shift n) (tokens.map (Lexeme.shift n)) accepts)) :=
  .error (unexpected_shift n eos tokens accepts)

theorem dropWhile_shift (p : Terminal → Bool) :
    (tokens.map (Lexeme.shift n)).dropWhile (p ·.terminal) =
    (tokens.dropWhile (p ·.terminal)).map (Lexeme.shift n) := by
  rw [List.dropWhile_map]
  rfl

theorem takeWhile_shift (p : Terminal → Bool) :
    (tokens.map (Lexeme.shift n)).takeWhile (p ·.terminal) =
    (tokens.takeWhile (p ·.terminal)).map (Lexeme.shift n) := by
  rw [List.takeWhile_map]
  rfl

theorem expressionItems_shift :
    Moves n (List.map (Lexeme.shift n)) (expressionItems eos tokens)
      (expressionItems (eos.shift n) (tokens.map (Lexeme.shift n))) := by
  unfold expressionItems
  rw [dropWhile_shift]
  cases tokens.dropWhile (isExpressionItem ·.terminal) with
  | nil => exact .ok rfl
  | cons found rest => exact moves_error n eos (found :: rest) _

theorem expression_shift :
    Moves n (List.map (Lexeme.shift n)) (expression eos tokens)
      (expression (eos.shift n) (tokens.map (Lexeme.shift n))) := by
  unfold expression
  rw [headD_shift, Lexeme.terminal_shift]
  split
  . exact expressionItems_shift n eos tokens
  . exact moves_error n eos tokens _

theorem functionDef_shift :
    Moves n (FunctionDef.shift n) (functionDef eos word tokens)
      (functionDef (eos.shift n) (word.shift n) (tokens.map (Lexeme.shift n))) := by
  unfold functionDef
  dsimp only
  rw [dropWhile_shift, takeWhile_shift]
  cases tokens.dropWhile (isSignatureItem ·.terminal) with
  | nil => exact moves_error n eos [] _
  | cons body rest =>
    rw [List.map_cons]
    dsimp only
    rw [Lexeme.terminal_shift]
    split
    . cases rest with
      | nil => exact .ok rfl
      | cons found rest => exact moves_error n eos (found :: rest) _
    . exact moves_error n eos (body :: rest) _

theorem asyncDef_shift :
    Moves n (FunctionDef.shift n) (asyncDef eos word tokens)
      (asyncDef (eos.shift n) (word.shift n) (tokens.map (Lexeme.shift n))) := by
  unfold asyncDef
  cases tokens with
  | nil => exact moves_error n eos [] _
  | cons first rest =>
    rw [List.map_cons]
    dsimp only
    rw [Lexeme.terminal_shift]
    split
    . exact functionDef_shift n word eos rest
    . exact moves_error n eos (first :: rest) _

theorem variableDef_shift :
    Moves n (VariableDef.shift n) (variableDef eos word tokens)
      (variableDef (eos.shift n) (word.shift n) (tokens.map (Lexeme.shift n))) := by
  unfold variableDef
  cases tokens with
  | nil => exact moves_error n eos [] _
  | cons binding rest =>
    rw [List.map_cons]
    dsimp only
    rw [Lexeme.terminal_shift, dropWhile_shift, takeWhile_shift]
    split
    . cases rest.dropWhile (isTypeItem ·.terminal) with
      | nil => exact .ok rfl
      | cons eq value =>
        rw [List.map_cons]
        dsimp only
        rw [Lexeme.terminal_shift]
        split
        . refine (expression_shift n eos value).bind ?_
          rintro items items' rfl
          exact .pure rfl
        . exact moves_error n eos (eq :: value) _
    . exact moves_error n eos (binding :: rest) _

theorem moves_statement {move : α → α} {x y : Except Unexpected α} {f g : α → Statement}
    (h : Moves n move x y) (hfg : ∀ a, g (move a) = (f a).shift n) :
    Moves n (shift n) (do return f (← x)) (do return g (← y)) := by
  refine h.bind ?_
  rintro a a' rfl
  exact .pure (hfg a)

theorem exported_shift :
    Moves n (shift n) (ofLexemes.exported word tokens eos)
      (ofLexemes.exported (word.shift n) (tokens.map (Lexeme.shift n)) (eos.shift n)) := by
  unfold ofLexemes.exported
  cases tokens with
  | nil => exact moves_error n eos [] _
  | cons second more =>
    rw [List.map_cons]
    dsimp only
    rw [Lexeme.terminal_shift]
    cases hsecond : second.terminal with
    | defaultWord =>
      cases more with
      | nil => exact moves_error n eos [] _
      | cons third rest =>
        rw [List.map_cons]
        dsimp only
        rw [Lexeme.terminal_shift]
        cases hthird : third.terminal with
        | asyncWord => exact moves_statement n (asyncDef_shift n third eos rest) fun _ => rfl
        | functionWord => exact moves_statement n (functionDef_shift n third eos rest) fun _ => rfl
        | _ =>
          dsimp only
          split
          . exact moves_statement n (expression_shift n eos (third :: rest)) fun _ => rfl
          . exact moves_error n eos (third :: rest) _
    | asyncWord => exact moves_statement n (asyncDef_shift n second eos more) fun _ => rfl
    | functionWord => exact moves_statement n (functionDef_shift n second eos more) fun _ => rfl
    | decl => exact moves_statement n (variableDef_shift n second eos more) fun _ => rfl
    | _ =>
      dsimp only
      split
      . exact moves_statement n (expression_shift n eos (second :: more)) fun _ => rfl
      . exact moves_error n eos (second :: more) _

theorem ofLexemes_shift :
    Moves n (shift n) (ofLexemes word tokens eos)
      (ofLexemes (word.shift n) (tokens.map (Lexeme.shift n)) (eos.shift n)) := by
  unfold ofLexemes
  rw [Lexeme.terminal_shift]
  cases hword : word.terminal with
  | importWord =>
    refine moves_statement n (expression_shift n eos tokens) ?_
    intro items
    rw [headD_shift]
    rfl
  | exportWord => exact exported_shift n word eos tokens
  | asyncWord => exact moves_statement n (asyncDef_shift n word eos tokens) fun _ => rfl
  | functionWord => exact moves_statement n (functionDef_shift n word eos tokens) fun _ => rfl
  | decl => exact moves_statement n (variableDef_shift n word eos tokens) fun _ => rfl
  | returnWord =>
    refine moves_statement n (expressionItems_shift n eos tokens) ?_
    intro items
    rw [headD_shift]
    rfl
  | _ => exact moves_statement n (expression_shift n eos (word :: tokens)) fun _ => rfl

theorem ofSegment_shift : Moves n (shift n) (ofSegment (tokens, eos))
    (ofSegment (tokens.map (Lexeme.shift n), eos.shift n)) := by
  cases tokens with
  | nil => exact moves_error n eos [] _
  | cons word tokens => exact ofLexemes_shift n word eos tokens

end

theorem segments_shift (n : Nat) (lexemes : List Lexeme) :
    segments (lexemes.map (Lexeme.shift n)) =
      (segments lexemes).map (Prod.map (List.map (Lexeme.shift n)) (Lexeme.shift n)) := by
  have hgo : ∀ taken, segments.go (taken.map (Lexeme.shift n)) (lexemes.map (Lexeme.shift n))
      = (segments.go taken lexemes).map
        (Prod.map (List.map (Lexeme.shift n)) (Lexeme.shift n)) := by
    induction lexemes with
    | nil =>
      intro taken
      rfl
    | cons lexeme lexemes ih =>
      intro taken
      rw [List.map_cons, segments.go, segments.go, Lexeme.terminal_shift]
      split
      . rw [List.map_cons, ← ih []]
        simp
      . exact ih (lexeme :: taken)
  exact hgo []

/-- Errors at offsets of their texts, of which the second is moved by `n`. -/
def FailsAt (n : Nat) (text text' file : String) (failure failure' : Failure) : Prop :=
  ∃ problem pos, failure = .compile (.at problem text pos {} file) ∧
    failure' = .compile (.at problem text' (pos + n) {} file)

theorem slice_blank_append (blank : List Char) (text : String) (start stop : Nat) :
    Text.slice (String.ofList blank ++ text) (start + blank.length) (stop + blank.length) =
      Text.slice text start stop := by
  rw [Text.slice, Text.slice, String.toList_append, String.toList_ofList, Nat.add_comm start,
    List.drop_length_add_append, Nat.add_comm stop, Nat.add_sub_add_left]

theorem parse_blank_append {blank : List Char} (h : (Token.scan text >>= Token.group) = .ok items)
    (hblank : ∀ c ∈ blank, Text.isBlank c = true) (file : String) :
    Paired (FailsAt blank.length text (String.ofList blank ++ text) file)
      (fun statements statements' => statements' = statements.map (shift blank.length))
      (parse text file) (parse (String.ofList blank ++ text) file) := by
  obtain ⟨items', hitems', hmoved⟩ := Token.items_blank_append h hblank
  have hlexemes : Lexeme.ofItems (String.ofList blank ++ text) items' =
      (Lexeme.ofItems text items).map (Lexeme.shift blank.length) := by
    rw [← Lexeme.ofItems_startItems _ items', ← Lexeme.ofItems_startItems _ items]
    exact Lexeme.go_moved (slice_blank_append blank text) hmoved {}
  rw [parse_of_items h, parse_of_items hitems', hlexemes, segments_shift]
  have hsegments : ∀ statements statements',
      List.Forall₂ (fun s s' => s' = shift blank.length s) statements statements' →
      statements' = statements.map (shift blank.length) := by
    intro statements statements' hstatements
    induction hstatements with
    | nil => rfl
    | cons hfirst _ ih => rw [hfirst, ih, List.map_cons]
  refine (Paired.mapM ?_).imp hsegments
  rw [List.forall₂_map_right_iff, List.forall₂_same]
  rintro ⟨tokens, eos⟩ _
  apply (ofSegment_shift blank.length eos tokens).mapError
  rintro u u' rfl
  exact ⟨u.problem, u.found.start, rfl, rfl⟩

end Statement
end ComponentCompiler
