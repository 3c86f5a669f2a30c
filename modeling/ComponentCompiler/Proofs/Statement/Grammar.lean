import ComponentCompiler.Proofs.Statement.Part
import ComponentCompiler.Statement.Basic
import Mathlib.Data.List.TakeWhile

/-!
This module contains the language of statements: the shapes that a statement can have, and a machine
that reads statements one lexeme at a time and stops at the first one that continues none of them.
Reading statements succeeds on exactly the shapes, and fails at the lexeme where the machine stops.
-/

namespace ComponentCompiler
namespace Statement

/-! ### Shapes -/

def IsExpression (tokens : List Lexeme) : Prop :=
  tokens ≠ [] ∧ ∀ t ∈ tokens, isExpressionItem t.terminal = true

inductive IsFunction : List Lexeme → FunctionDef → Prop where
  | plain {keyword body : Lexeme} {signature : List Lexeme}
      (hword : keyword.terminal = .functionWord)
      (hsignature : ∀ t ∈ signature, isSignatureItem t.terminal = true)
      (hbody : body.terminal = .brace) :
    IsFunction (keyword :: (signature ++ [body])) ⟨keyword, signature, body⟩
  | async {keyword word body : Lexeme} {signature : List Lexeme}
      (hasync : keyword.terminal = .asyncWord)
      (hword : word.terminal = .functionWord)
      (hsignature : ∀ t ∈ signature, isSignatureItem t.terminal = true)
      (hbody : body.terminal = .brace) :
    IsFunction (keyword :: word :: (signature ++ [body])) ⟨keyword, signature, body⟩

inductive IsVariable : List Lexeme → VariableDef → Prop where
  | declared {keyword binding : Lexeme} {typeItems : List Lexeme} (hword : keyword.terminal = .decl)
      (hbinding : isBinding binding.terminal = true)
      (htype : ∀ t ∈ typeItems, isTypeItem t.terminal = true) :
    IsVariable (keyword :: binding :: typeItems) ⟨keyword, binding, typeItems, none⟩
  | assigned {keyword binding word : Lexeme} {typeItems value : List Lexeme}
      (hword : keyword.terminal = .decl)
      (hbinding : isBinding binding.terminal = true)
      (htype : ∀ t ∈ typeItems, isTypeItem t.terminal = true) (heq : word.terminal = .eq)
      (hvalue : IsExpression value) :
    IsVariable (keyword :: binding :: (typeItems ++ word :: value))
      ⟨keyword, binding, typeItems, some value⟩

/-- The lexemes are a statement with this content. The flags tell whether it is exported and whether
it is the default export. -/
inductive Shape : List Lexeme → Body → Bool → Bool → Prop where
  | importing {word : Lexeme} {tokens} (hword : word.terminal = .importWord)
      (h : IsExpression tokens) :
    Shape (word :: tokens) (.importing tokens) false false
  | defaultFunction {word keyword : Lexeme} {tokens f} (hword : word.terminal = .exportWord)
      (hdefault : keyword.terminal = .defaultWord) (h : IsFunction tokens f) :
    Shape (word :: keyword :: tokens) (.function f) true true
  | defaultExpression {word keyword : Lexeme} {tokens} (hword : word.terminal = .exportWord)
      (hdefault : keyword.terminal = .defaultWord) (h : IsExpression tokens) :
    Shape (word :: keyword :: tokens) (.defaultExpression tokens) true true
  | exportedFunction {word : Lexeme} {tokens f} (hword : word.terminal = .exportWord)
      (h : IsFunction tokens f) : Shape (word :: tokens) (.function f) true false
  | exportedVariable {word : Lexeme} {tokens v} (hword : word.terminal = .exportWord)
      (h : IsVariable tokens v) : Shape (word :: tokens) (.variable v) true false
  | passthrough {word : Lexeme} {tokens} (hword : word.terminal = .exportWord)
      (h : IsExpression tokens) :
    Shape (word :: tokens) (.passthrough tokens) true false
  | plainFunction {tokens f} (h : IsFunction tokens f) : Shape tokens (.function f) false false
  | plainVariable {tokens v} (h : IsVariable tokens v) : Shape tokens (.variable v) false false
  | returning {word : Lexeme} {tokens : List Lexeme} (hword : word.terminal = .returnWord)
      (h : ∀ t ∈ tokens, isExpressionItem t.terminal = true) :
    Shape (word :: tokens) (.returning word tokens) false false
  | expression {tokens} (h : IsExpression tokens) : Shape tokens (.expression tokens) false false

def WellShaped (lexemes : List Lexeme) : Prop :=
  ∃ content isExported isDefault, Shape lexemes content isExported isDefault

/-- The lexeme that the code of a statement starts with, in which the first lexeme of all is
`word`. -/
def Body.first (word : Lexeme) : Body → Lexeme
  | .importing tokens => tokens.headD word
  | .function f => f.keyword
  | .variable v => v.keyword
  | .returning _ tokens => tokens.headD word
  | .expression tokens => tokens.headD word
  | .defaultExpression tokens => tokens.headD word
  | .passthrough _ => word

/-- The statement that a segment is: it has its shape and reaches from its first lexeme to its end,
and its code starts with its content. -/
structure IsStatement (segment : List Lexeme × Lexeme) (statement : Statement) : Prop where
  shape : Shape segment.1 statement.body statement.isExported statement.isDefault
  start : segment.1.head?.map Lexeme.start = some statement.start
  stop : statement.stop = segment.2.start
  codeStart : segment.1.head?.map (statement.body.first · |>.start) = some statement.codeStart

/-- Statements one after the other, each with its end. -/
inductive Program : List Lexeme → Prop where
  | nil : Program []
  | statement {lexemes rest : List Lexeme} {eos : Lexeme} (h : WellShaped lexemes)
      (heos : eos.terminal = .eos) (hrest : Program rest) :
    Program (lexemes ++ eos :: rest)

/-- Statements can start with these lexemes. -/
def Viable (lexemes : List Lexeme) : Prop :=
  ∃ rest, Program (lexemes ++ rest)

/-! ### The machine -/

inductive Stage where
  | start
  | expression
  | items
  | exporting
  | exportingDefault
  | async
  | signature
  | ended
  | binding
  | typeItems
  deriving DecidableEq

variable {word eos found : Lexeme} {tokens lexemes before rest : List Lexeme} {stage : Stage}
variable {content : Body} {isExported isDefault : Bool}

namespace Stage

def next : Stage → Terminal → Option Stage
  | start, .importWord => some expression
  | start, .exportWord => some exporting
  | start, .asyncWord => some async
  | start, .functionWord => some signature
  | start, .decl => some binding
  | start, .returnWord => some items
  | start, t => if isExpressionItem t then some items else none
  | expression, t => if isExpressionItem t then some items else none
  | items, .eos => some start
  | items, t => if isExpressionItem t then some items else none
  | exporting, .defaultWord => some exportingDefault
  | exporting, .asyncWord => some async
  | exporting, .functionWord => some signature
  | exporting, .decl => some binding
  | exporting, t => if isExpressionItem t then some items else none
  | exportingDefault, .asyncWord => some async
  | exportingDefault, .functionWord => some signature
  | exportingDefault, t => if isExpressionItem t then some items else none
  | async, .functionWord => some signature
  | async, _ => none
  | signature, .brace => some ended
  | signature, t => if isSignatureItem t then some signature else none
  | ended, .eos => some start
  | ended, _ => none
  | binding, t => if isBinding t then some typeItems else none
  | typeItems, .eq => some expression
  | typeItems, .eos => some start
  | typeItems, t => if isTypeItem t then some typeItems else none

def run : Stage → List Lexeme → Option Stage
  | stage, [] => some stage
  | stage, t :: ts =>
    match stage.next t.terminal with
    | some after => run after ts
    | none => none

theorem run_cons (after : Stage) (h : stage.next word.terminal = some after) :
    run stage (word :: rest) = run after rest := by
  rw [run, h]

theorem run_append : run stage (before ++ rest) = (run stage before).bind (run · rest) := by
  induction before generalizing stage with
  | nil => rfl
  | cons t before ih =>
    rw [List.cons_append, run, run]
    cases stage.next t.terminal with
    | none => rfl
    | some after => exact ih

theorem run_loop (h : ∀ t ∈ tokens, stage.next t.terminal = some stage) :
    run stage (tokens ++ rest) = run stage rest := by
  induction tokens with
  | nil => rfl
  | cons t tokens ih =>
    simp only [List.mem_cons, forall_eq_or_imp] at h
    rw [List.cons_append, run_cons _ h.1, ih h.2]

def completion : Stage → List Terminal
  | start => []
  | expression => [.name, .eos]
  | items => [.eos]
  | exporting => [.name, .eos]
  | exportingDefault => [.name, .eos]
  | async => [.functionWord, .brace, .eos]
  | signature => [.brace, .eos]
  | ended => [.eos]
  | binding => [.name, .eos]
  | typeItems => [.eos]

theorem run_completion (stage : Stage) :
    run stage (stage.completion.map fun t => ⟨t, "", 0, 0⟩) = some .start := by
  cases stage <;> rfl

theorem next_items (h : isExpressionItem t = true) : items.next t = some items := by
  cases t <;> first | rfl | simp [isExpressionItem] at h

theorem next_expression (h : isExpressionItem t = true) : expression.next t = some items := by
  rw [next, if_pos h]

theorem next_start (h : isExpressionItem t = true) : start.next t = some items := by
  cases t <;> first | rfl | simp [isExpressionItem] at h

theorem next_exporting (h : isExpressionItem t = true) : exporting.next t = some items := by
  cases t <;> first | rfl | simp [isExpressionItem] at h

theorem next_exportingDefault (h : isExpressionItem t = true) :
    exportingDefault.next t = some items := by
  cases t <;> first | rfl | simp [isExpressionItem] at h

theorem next_signature (h : isSignatureItem t = true) : signature.next t = some signature := by
  cases t <;> first | rfl | simp [isSignatureItem] at h

theorem next_typeItems (h : isTypeItem t = true) : typeItems.next t = some typeItems := by
  cases t <;> first | rfl | simp [isTypeItem] at h

/-! ### Shapes are read to their end -/

theorem run_items (h : ∀ t ∈ tokens, isExpressionItem t.terminal = true)
    (heos : eos.terminal = .eos) : run items (tokens ++ [eos]) = some start := by
  rw [run_loop fun t ht => next_items (h t ht), run_cons .start (by rw [heos]; rfl)]
  rfl

theorem run_isExpression (hfirst : ∀ t, isExpressionItem t = true → stage.next t = some items)
    (h : IsExpression tokens) (heos : eos.terminal = .eos) :
    run stage (tokens ++ [eos]) = some start := by
  obtain ⟨hne, hitems⟩ := h
  cases tokens with
  | nil => simp at hne
  | cons t tokens =>
    simp only [List.mem_cons, forall_eq_or_imp] at hitems
    rw [List.cons_append, run_cons _ (hfirst _ hitems.1), run_items hitems.2 heos]

theorem run_isFunction (hasync : stage.next .asyncWord = some async)
    (hfunction : stage.next .functionWord = some signature) (h : IsFunction tokens f)
    (heos : eos.terminal = .eos) : run stage (tokens ++ [eos]) = some start := by
  have hrest : ∀ {items : List Lexeme} {body : Lexeme},
      (∀ t ∈ items, isSignatureItem t.terminal = true) → body.terminal = .brace →
      run signature (items ++ [body] ++ [eos]) = some start := by
    intro items body hitems hbody
    rw [List.append_assoc, run_loop fun t ht => next_signature (hitems t ht)]
    simp [run, next, hbody, heos]
  cases h with
  | plain hword hsignature hbody =>
    rw [List.cons_append, run_cons _ (by rw [hword]; exact hfunction), hrest hsignature hbody]
  | async hkeyword hword hsignature hbody =>
    rw [List.cons_append, run_cons _ (by rw [hkeyword]; exact hasync), List.cons_append,
      run_cons .signature (by rw [hword]; rfl), hrest hsignature hbody]

theorem run_isVariable (hdecl : stage.next .decl = some binding) (h : IsVariable tokens v)
    (heos : eos.terminal = .eos) : run stage (tokens ++ [eos]) = some start := by
  have hnext : ∀ {t}, isBinding t = true → binding.next t = some typeItems := by
    intro t ht
    rw [next, if_pos ht]
  cases h with
  | declared hword hbinding htype =>
    rw [List.cons_append, run_cons _ (by rw [hword]; exact hdecl), List.cons_append,
      run_cons _ (hnext hbinding), run_loop fun t ht => next_typeItems (htype t ht)]
    simp [run, next, heos]
  | assigned hword hbinding htype heq hvalue =>
    rw [List.cons_append, run_cons _ (by rw [hword]; exact hdecl), List.cons_append,
      run_cons _ (hnext hbinding), List.append_assoc, run_loop fun t ht =>
        next_typeItems (htype t ht),
      List.cons_append, run_cons .expression (by rw [heq]; rfl)]
    exact run_isExpression (fun _ => next_expression) hvalue heos

theorem run_shape (h : Shape lexemes content isExported isDefault) (heos : eos.terminal = .eos) :
    run start (lexemes ++ [eos]) = some start := by
  cases h with
  | importing hword h =>
    rw [List.cons_append, run_cons .expression (by rw [hword]; rfl)]
    exact run_isExpression (fun _ => next_expression) h heos
  | defaultFunction hword hdefault h =>
    rw [List.cons_append, run_cons .exporting (by rw [hword]; rfl), List.cons_append,
      run_cons .exportingDefault (by rw [hdefault]; rfl)]
    exact run_isFunction rfl rfl h heos
  | defaultExpression hword hdefault h =>
    rw [List.cons_append, run_cons .exporting (by rw [hword]; rfl), List.cons_append,
      run_cons .exportingDefault (by rw [hdefault]; rfl)]
    exact run_isExpression (fun _ => next_exportingDefault) h heos
  | exportedFunction hword h =>
    rw [List.cons_append, run_cons .exporting (by rw [hword]; rfl)]
    exact run_isFunction rfl rfl h heos
  | exportedVariable hword h =>
    rw [List.cons_append, run_cons .exporting (by rw [hword]; rfl)]
    exact run_isVariable rfl h heos
  | passthrough hword h =>
    rw [List.cons_append, run_cons .exporting (by rw [hword]; rfl)]
    exact run_isExpression (fun _ => next_exporting) h heos
  | plainFunction h => exact run_isFunction rfl rfl h heos
  | plainVariable h => exact run_isVariable rfl h heos
  | returning hword h =>
    rw [List.cons_append, run_cons .items (by rw [hword]; rfl)]
    exact run_items h heos
  | expression h => exact run_isExpression (fun _ => next_start) h heos

/-! ### Where reading stops -/

inductive Dies : Stage → List Lexeme → Lexeme → Prop where
  | here {stage : Stage} {found : Lexeme} {rest} (h : stage.next found.terminal = none) :
    Dies stage (found :: rest) found
  | later {stage after : Stage} {word found : Lexeme} {rest}
      (h : stage.next word.terminal = some after)
      (hrest : Dies after rest found) : Dies stage (word :: rest) found

theorem Dies.split (h : Dies stage lexemes found) :
    ∃ before after, lexemes = before ++ found :: after ∧ (∃ last, run stage before = some last) ∧
      run stage (before ++ [found]) = none := by
  induction h with
  | @here stage found rest h => exact ⟨[], rest, rfl, ⟨stage, rfl⟩, by simp [run, h]⟩
  | @later stage after word found rest h _ ih =>
    obtain ⟨before, rest, rfl, ⟨last, hlast⟩, hnone⟩ := ih
    refine ⟨word :: before, rest, rfl, ⟨last, ?_⟩, ?_⟩
    . rw [run_cons _ h, hlast]
    . rw [List.cons_append, run_cons _ h, hnone]

theorem Dies.run_eq_none (h : Dies stage lexemes found) : run stage lexemes = none := by
  obtain ⟨before, after, rfl, _, hnone⟩ := h.split
  rw [List.append_cons, run_append, hnone]
  rfl

theorem Dies.of_dropWhile {p : Terminal → Bool}
    (hloop : ∀ t, p t = true → stage.next t = some stage)
    (h : Dies stage (tokens.dropWhile (p ·.terminal) ++ rest) found) :
    Dies stage (tokens ++ rest) found := by
  induction tokens with
  | nil => exact h
  | cons t tokens ih =>
    by_cases ht : p t.terminal = true
    . rw [List.dropWhile_cons_of_pos (by exact ht)] at h
      exact .later (hloop _ ht) (ih h)
    . rwa [List.dropWhile_cons_of_neg (by exact ht)] at h

theorem dropWhile_eq_cons {p : Terminal → Bool}
    (h : tokens.dropWhile (p ·.terminal) = word :: rest) :
    p word.terminal = false ∧ word ∈ tokens := by
  have hnot := List.head?_dropWhile_not (p ·.terminal) tokens
  rw [h] at hnot
  have hmem : word ∈ tokens.dropWhile (p ·.terminal) := by simp [h]
  exact ⟨by simpa using hnot, (List.dropWhile_sublist _).subset hmem⟩

theorem next_items_eq_none (h : isExpressionItem t = false) (heos : t ≠ .eos) :
    items.next t = none := by
  cases t <;> first | rfl | exact absurd rfl heos | simp [isExpressionItem] at h

theorem next_signature_eq_none (h : isSignatureItem t = false) (hbrace : t ≠ .brace) :
    signature.next t = none := by
  cases t <;> first | rfl | exact absurd rfl hbrace | simp [isSignatureItem] at h

theorem next_typeItems_eq_none (h : isTypeItem t = false) (heq : t ≠ .eq) (heos : t ≠ .eos) :
    typeItems.next t = none := by
  cases t <;> first | rfl | exact absurd rfl heq | exact absurd rfl heos | simp [isTypeItem] at h

theorem next_ended_eq_none (h : t ≠ .eos) : ended.next t = none := by
  cases t <;> first | rfl | exact absurd rfl h

theorem next_async_eq_none (h : t ≠ .functionWord) : async.next t = none := by
  cases t <;> first | rfl | exact absurd rfl h

end Stage

/-! ### Parts of statements -/

open Stage (Dies)

variable {u : Unexpected} {f : FunctionDef} {v : VariableDef}

/-- No lexeme is the end of a statement. -/
def Unended (tokens : List Lexeme) : Prop :=
  ∀ t ∈ tokens, t.terminal ≠ .eos

theorem unended_cons : Unended (word :: tokens) ↔ word.terminal ≠ .eos ∧ Unended tokens := by
  simp [Unended]

theorem mem_takeWhile_terminal {p : Terminal → Bool} (h : word ∈ tokens.takeWhile (p ·.terminal)) :
    p word.terminal = true :=
  List.mem_takeWhile_imp (p := fun t : Lexeme => p t.terminal) h

theorem expressionItems_ok (h : expressionItems eos tokens = .ok items) :
    items = tokens ∧ ∀ t ∈ tokens, isExpressionItem t.terminal = true := by
  unfold expressionItems at h
  split at h
  . next hrest =>
    cases h
    exact ⟨rfl, by simpa using hrest⟩
  . simp at h

theorem expressionItems_cons (h : isExpressionItem word.terminal = true) :
    expressionItems eos (word :: tokens) = (word :: ·) <$> expressionItems eos tokens := by
  unfold expressionItems
  rw [List.dropWhile_cons_of_pos (by exact h)]
  split <;> rfl

theorem expressionItems_error (hne : Unended tokens) (h : expressionItems eos tokens = .error u) :
    Dies .items (tokens ++ [eos]) u.found := by
  unfold expressionItems at h
  split at h
  . simp at h
  next rest hrest =>
  cases h
  cases hdrop : tokens.dropWhile (isExpressionItem ·.terminal) with
  | nil => simp [hdrop] at hrest
  | cons t rest =>
    obtain ⟨ht, hmem⟩ := Stage.dropWhile_eq_cons hdrop
    apply Dies.of_dropWhile fun _ => Stage.next_items
    rw [hdrop]
    exact .here (Stage.next_items_eq_none ht (hne t hmem))

theorem expression_ok (h : expression eos tokens = .ok items) (heos : eos.terminal = .eos) :
    items = tokens ∧ IsExpression tokens := by
  unfold expression at h
  split at h
  . next hfirst =>
    obtain ⟨rfl, hitems⟩ := expressionItems_ok h
    refine ⟨rfl, ?_, hitems⟩
    rintro rfl
    simp [heos, isExpressionItem] at hfirst
  . simp at h

theorem expression_error (heos : eos.terminal = .eos)
    (hfirst : ∀ t, isExpressionItem t = true → stage.next t = some .items)
    (hother : isExpressionItem (tokens.headD eos).terminal = false →
      stage.next (tokens.headD eos).terminal = none)
    (hne : Unended tokens) (h : expression eos tokens = .error u) :
    Dies stage (tokens ++ [eos]) u.found := by
  unfold expression at h
  split at h
  . next hitem =>
    cases tokens with
    | nil => simp [heos, isExpressionItem] at hitem
    | cons t tokens =>
      rw [unended_cons] at hne
      rw [List.headD_cons] at hitem
      rw [expressionItems_cons hitem] at h
      cases hread : expressionItems eos tokens with
      | ok items => simp [hread] at h
      | error unexpected =>
        rw [hread] at h
        cases h
        exact .later (hfirst _ hitem) (expressionItems_error hne.2 hread)
  . next hitem =>
    cases h
    rw [Bool.not_eq_true] at hitem
    cases tokens with
    | nil => exact .here (hother hitem)
    | cons t tokens => exact .here (hother hitem)

theorem functionDef_ok (h : functionDef eos word tokens = .ok f) :
    ∃ signature body, tokens = signature ++ [body] ∧ f = ⟨word, signature, body⟩ ∧
      (∀ t ∈ signature, isSignatureItem t.terminal = true) ∧ body.terminal = .brace := by
  unfold functionDef at h
  dsimp only at h
  split at h
  . simp at h
  next body rest hrest =>
  split at h
  . next hbody =>
    split at h
    . cases h
      refine ⟨_, body, ?_, rfl, fun t ht => mem_takeWhile_terminal ht, hbody⟩
      rw [← hrest, List.takeWhile_append_dropWhile]
    . simp at h
  . simp at h

theorem functionDef_error (hne : Unended tokens) (heos : eos.terminal = .eos)
    (h : functionDef eos word tokens = .error u) : Dies .signature (tokens ++ [eos]) u.found := by
  unfold functionDef at h
  dsimp only at h
  apply Dies.of_dropWhile fun _ => Stage.next_signature
  split at h
  . next hrest =>
    cases h
    rw [hrest]
    exact .here (by rw [heos]; rfl)
  next body rest hrest =>
  rw [hrest]
  obtain ⟨hbody, hmem⟩ := Stage.dropWhile_eq_cons hrest
  split at h
  . next hbrace =>
    refine .later (by rw [hbrace]; rfl) ?_
    cases rest with
    | nil => simp at h
    | cons t rest =>
      cases h
      refine .here (Stage.next_ended_eq_none (hne t ?_))
      exact (List.dropWhile_sublist _).subset (by rw [hrest]; simp)
  . next hbrace =>
    cases h
    exact .here (Stage.next_signature_eq_none hbody hbrace)

theorem isFunction_of_functionDef (hword : word.terminal = .functionWord)
    (h : functionDef eos word tokens = .ok f) : IsFunction (word :: tokens) f := by
  obtain ⟨signature, body, rfl, rfl, hsignature, hbody⟩ := functionDef_ok h
  exact .plain hword hsignature hbody

theorem isFunction_of_asyncDef (hword : word.terminal = .asyncWord)
    (h : asyncDef eos word tokens = .ok f) : IsFunction (word :: tokens) f := by
  unfold asyncDef at h
  split at h
  . simp at h
  . split at h
    . next keyword rest hkeyword =>
      obtain ⟨signature, body, rfl, rfl, hsignature, hbody⟩ := functionDef_ok h
      exact .async hword hkeyword hsignature hbody
    . simp at h

theorem asyncDef_error (hne : Unended tokens) (heos : eos.terminal = .eos)
    (h : asyncDef eos word tokens = .error u) : Dies .async (tokens ++ [eos]) u.found := by
  unfold asyncDef at h
  split at h
  . cases h
    exact .here (by rw [heos]; rfl)
  next keyword rest =>
  rw [unended_cons] at hne
  split at h
  . next hkeyword => exact .later (by rw [hkeyword]; rfl) (functionDef_error hne.2 heos h)
  . next hkeyword =>
    cases h
    exact .here (Stage.next_async_eq_none hkeyword)

theorem isVariable_of_variableDef (hword : word.terminal = .decl) (heos : eos.terminal = .eos)
    (h : variableDef eos word tokens = .ok v) : IsVariable (word :: tokens) v := by
  unfold variableDef at h
  split at h
  . simp at h
  next binding rest =>
  split at h
  . next hbinding =>
    dsimp only at h
    have htype : ∀ t ∈ rest.takeWhile (isTypeItem ·.terminal), isTypeItem t.terminal = true :=
      fun t ht => mem_takeWhile_terminal ht
    have hrest := List.takeWhile_append_dropWhile (p := (isTypeItem ·.terminal)) (l := rest)
    split at h
    . next hdrop =>
      cases h
      have hvariable := IsVariable.declared hword hbinding htype
      rw [hdrop, List.append_nil] at hrest
      rwa [hrest] at hvariable ⊢
    . next eq value hdrop =>
      split at h
      . next heq =>
        simp only [bind_eq_ok] at h
        obtain ⟨items, hvalue, h⟩ := h
        cases h
        obtain ⟨rfl, hexpression⟩ := expression_ok hvalue heos
        have hvariable := IsVariable.assigned hword hbinding htype heq hexpression
        rw [hdrop] at hrest
        rwa [hrest] at hvariable
      . simp at h
  . simp at h

theorem variableDef_error (hne : Unended tokens) (heos : eos.terminal = .eos)
    (h : variableDef eos word tokens = .error u) : Dies .binding (tokens ++ [eos]) u.found := by
  unfold variableDef at h
  split at h
  . cases h
    exact .here (by rw [heos]; rfl)
  next binding rest =>
  rw [unended_cons] at hne
  split at h
  . next hbinding =>
    refine .later (by rw [Stage.next, if_pos hbinding]) ?_
    apply Dies.of_dropWhile fun _ => Stage.next_typeItems
    dsimp only at h
    split at h
    . simp at h
    next eq value hdrop =>
    rw [hdrop]
    obtain ⟨htype, hmem⟩ := Stage.dropWhile_eq_cons hdrop
    have hvalue : Unended value := by
      intro t ht
      exact hne.2 t
        ((List.dropWhile_sublist _).subset (by rw [hdrop]; exact List.mem_cons_of_mem _ ht))
    split at h
    . next heq =>
      refine .later (by rw [heq]; rfl) ?_
      cases hread : expression eos value with
      | ok items => simp [hread, pure, Except.pure] at h
      | error unexpected =>
        rw [hread, error_bind] at h
        cases h
        refine expression_error heos (fun _ => Stage.next_expression) ?_ hvalue hread
        intro hother
        rw [Stage.next, hother]
        rfl
    . next heq =>
      cases h
      exact .here (Stage.next_typeItems_eq_none htype heq (hne.2 _ hmem))
  . next hbinding =>
    cases h
    exact .here (by rw [Stage.next, if_neg hbinding])

/-! ### Statements -/

theorem isStatement_make (hshape : Shape (word :: rest) content isExported isDefault)
    (hcode : content.first word = code) :
    IsStatement (word :: rest, eos) (make word eos code content isExported isDefault) := by
  refine ⟨hshape, rfl, rfl, ?_⟩
  rw [← hcode]
  rfl

theorem IsFunction.keyword_eq (h : IsFunction (word :: tokens) f) : f.keyword = word := by
  cases h with
  | plain => rfl
  | async => rfl

theorem IsVariable.keyword_eq (h : IsVariable (word :: tokens) v) : v.keyword = word := by
  cases h with
  | declared => rfl
  | assigned => rfl

theorem IsExpression.headD_eq (h : IsExpression tokens) (word word' : Lexeme) :
    tokens.headD word = tokens.headD word' := by
  obtain ⟨t, more, rfl⟩ := List.exists_cons_of_ne_nil h.1
  rfl

theorem isStatement_of_exported (hword : word.terminal = .exportWord) (heos : eos.terminal = .eos)
    (h : ofLexemes.exported word rest eos = .ok statement) :
    IsStatement (word :: rest, eos) statement := by
  unfold ofLexemes.exported at h
  split at h
  . simp at h
  next second more =>
  split at h
  . next hsecond =>
    split at h
    . simp at h
    next third more =>
    split at h
    . next hthird =>
      simp only [bind_eq_ok] at h
      obtain ⟨f, hf, h⟩ := h
      cases h
      have hfunction := isFunction_of_asyncDef hthird hf
      exact isStatement_make (.defaultFunction hword hsecond hfunction) hfunction.keyword_eq
    . next hthird =>
      simp only [bind_eq_ok] at h
      obtain ⟨f, hf, h⟩ := h
      cases h
      have hfunction := isFunction_of_functionDef hthird hf
      exact isStatement_make (.defaultFunction hword hsecond hfunction) hfunction.keyword_eq
    . split at h
      . simp only [bind_eq_ok] at h
        obtain ⟨tokens, htokens, h⟩ := h
        cases h
        obtain ⟨rfl, hexpression⟩ := expression_ok htokens heos
        exact isStatement_make (.defaultExpression hword hsecond hexpression) rfl
      . simp at h
  . next hsecond =>
    simp only [bind_eq_ok] at h
    obtain ⟨f, hf, h⟩ := h
    cases h
    have hfunction := isFunction_of_asyncDef hsecond hf
    exact isStatement_make (.exportedFunction hword hfunction) hfunction.keyword_eq
  . next hsecond =>
    simp only [bind_eq_ok] at h
    obtain ⟨f, hf, h⟩ := h
    cases h
    have hfunction := isFunction_of_functionDef hsecond hf
    exact isStatement_make (.exportedFunction hword hfunction) hfunction.keyword_eq
  . next hsecond =>
    simp only [bind_eq_ok] at h
    obtain ⟨v, hv, h⟩ := h
    cases h
    have hvariable := isVariable_of_variableDef hsecond heos hv
    exact isStatement_make (.exportedVariable hword hvariable) hvariable.keyword_eq
  . split at h
    . simp only [bind_eq_ok] at h
      obtain ⟨tokens, htokens, h⟩ := h
      cases h
      obtain ⟨rfl, hexpression⟩ := expression_ok htokens heos
      exact isStatement_make (.passthrough hword hexpression) rfl
    . simp at h

theorem isStatement_of_ofLexemes (heos : eos.terminal = .eos)
    (h : ofLexemes word rest eos = .ok statement) : IsStatement (word :: rest, eos) statement := by
  unfold ofLexemes at h
  split at h
  . next hword =>
    simp only [bind_eq_ok] at h
    obtain ⟨tokens, htokens, h⟩ := h
    cases h
    obtain ⟨rfl, hexpression⟩ := expression_ok htokens heos
    exact isStatement_make (.importing hword hexpression) (hexpression.headD_eq _ _)
  . next hword => exact isStatement_of_exported hword heos h
  . next hword =>
    simp only [bind_eq_ok] at h
    obtain ⟨f, hf, h⟩ := h
    cases h
    have hfunction := isFunction_of_asyncDef hword hf
    exact isStatement_make (.plainFunction hfunction) hfunction.keyword_eq
  . next hword =>
    simp only [bind_eq_ok] at h
    obtain ⟨f, hf, h⟩ := h
    cases h
    have hfunction := isFunction_of_functionDef hword hf
    exact isStatement_make (.plainFunction hfunction) hfunction.keyword_eq
  . next hword =>
    simp only [bind_eq_ok] at h
    obtain ⟨v, hv, h⟩ := h
    cases h
    have hvariable := isVariable_of_variableDef hword heos hv
    exact isStatement_make (.plainVariable hvariable) hvariable.keyword_eq
  . next hword =>
    simp only [bind_eq_ok] at h
    obtain ⟨tokens, htokens, h⟩ := h
    cases h
    obtain ⟨rfl, hitems⟩ := expressionItems_ok htokens
    exact isStatement_make (.returning hword hitems) rfl
  . simp only [bind_eq_ok] at h
    obtain ⟨tokens, htokens, h⟩ := h
    cases h
    obtain ⟨rfl, hexpression⟩ := expression_ok htokens heos
    exact isStatement_make (.expression hexpression) rfl

theorem exported_error (hne : Unended rest) (heos : eos.terminal = .eos)
    (h : ofLexemes.exported word rest eos = .error u) :
    Dies .exporting (rest ++ [eos]) u.found := by
  unfold ofLexemes.exported at h
  split at h
  . cases h
    exact .here (by rw [heos]; rfl)
  next second more =>
  have hmore := (unended_cons.mp hne).2
  split at h
  . next hsecond =>
    refine .later (by rw [hsecond]; rfl) ?_
    split at h
    . cases h
      exact .here (by rw [heos]; rfl)
    next third more =>
    have hrest := (unended_cons.mp hmore).2
    split at h
    . next hthird =>
      exact .later (by rw [hthird]; rfl) (asyncDef_error hrest heos (error_of_bind_pure h))
    . next hthird =>
      exact .later (by rw [hthird]; rfl) (functionDef_error hrest heos (error_of_bind_pure h))
    . next hasync hfunction =>
      have hother : isExpressionItem third.terminal = false →
          Stage.exportingDefault.next third.terminal = none := by
        intro hitem
        rw [Stage.next.eq_def]
        simp_all
      split at h
      . exact expression_error heos (fun _ => Stage.next_exportingDefault) hother hmore
          (error_of_bind_pure h)
      . next hitem =>
        cases h
        exact .here (hother (by simpa using hitem))
  . next hsecond =>
    exact .later (by rw [hsecond]; rfl) (asyncDef_error hmore heos (error_of_bind_pure h))
  . next hsecond =>
    exact .later (by rw [hsecond]; rfl) (functionDef_error hmore heos (error_of_bind_pure h))
  . next hsecond =>
    exact .later (by rw [hsecond]; rfl) (variableDef_error hmore heos (error_of_bind_pure h))
  . next hdefault hasync hfunction hdecl =>
    have hother : isExpressionItem second.terminal = false →
        Stage.exporting.next second.terminal = none := by
      intro hitem
      rw [Stage.next.eq_def]
      simp_all
    split at h
    . exact expression_error heos (fun _ => Stage.next_exporting) hother hne (error_of_bind_pure h)
    . next hitem =>
      cases h
      exact .here (hother (by simpa using hitem))

theorem ofLexemes_error (hne : Unended (word :: rest)) (heos : eos.terminal = .eos)
    (h : ofLexemes word rest eos = .error u) : Dies .start (word :: rest ++ [eos]) u.found := by
  have hrest := (unended_cons.mp hne).2
  unfold ofLexemes at h
  split at h
  . next hword =>
    refine .later (by rw [hword]; rfl) ?_
    refine expression_error heos (fun _ => Stage.next_expression) ?_ hrest (error_of_bind_pure h)
    intro hother
    rw [Stage.next, hother]
    rfl
  . next hword => exact .later (by rw [hword]; rfl) (exported_error hrest heos h)
  . next hword =>
    exact .later (by rw [hword]; rfl) (asyncDef_error hrest heos (error_of_bind_pure h))
  . next hword =>
    exact .later (by rw [hword]; rfl) (functionDef_error hrest heos (error_of_bind_pure h))
  . next hword =>
    exact .later (by rw [hword]; rfl) (variableDef_error hrest heos (error_of_bind_pure h))
  . next hword =>
    exact .later (by rw [hword]; rfl) (expressionItems_error hrest (error_of_bind_pure h))
  . refine expression_error heos (fun _ => Stage.next_start) ?_ hne (error_of_bind_pure h)
    intro hother
    rw [Stage.next.eq_def]
    simp_all

theorem ofSegment_error (hne : Unended tokens) (heos : eos.terminal = .eos)
    (h : ofSegment (tokens, eos) = .error u) : Dies .start (tokens ++ [eos]) u.found := by
  cases tokens with
  | nil =>
    cases h
    exact .here (by rw [heos]; rfl)
  | cons word rest => exact ofLexemes_error hne heos h

theorem isStatement_of_ofSegment (heos : eos.terminal = .eos)
    (h : ofSegment (tokens, eos) = .ok statement) : IsStatement (tokens, eos) statement := by
  cases tokens with
  | nil => simp [ofSegment] at h
  | cons word rest => exact isStatement_of_ofLexemes heos h

theorem ofSegment_total (hne : Unended tokens) (heos : eos.terminal = .eos)
    (h : WellShaped tokens) : ∃ statement, ofSegment (tokens, eos) = .ok statement := by
  obtain ⟨content, isExported, isDefault, hshape⟩ := h
  cases hread : ofSegment (tokens, eos) with
  | ok statement => exact ⟨statement, rfl⟩
  | error u =>
    have := (ofSegment_error hne heos hread).run_eq_none
    simp [Stage.run_shape hshape heos] at this

end Statement
end ComponentCompiler
