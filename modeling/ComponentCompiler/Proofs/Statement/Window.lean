import ComponentCompiler.Proofs.Statement.Split
import ComponentCompiler.Proofs.Token.Fragment

/-!
This module contains statements and their lexemes as windows of the text. Each can be read by
itself, but for a statement that follows a function and starts with an operator that starts markup
or a regular expression where an operand is due.
-/

namespace ComponentCompiler

def Bracket.terminal : Bracket → Terminal
  | paren => .paren
  | square => .bracket
  | curly => .brace

namespace Lexeme

open Token (Word Fragment BalancedWindow IsMarkupSlice dueAfter ambiguous)

variable {text : String} {item : Item} {items : List Item} {lexeme : Lexeme}

theorem wordTerminal_not_mem (state : State) (word : String) (next : Option Item) :
    wordTerminal state word next ∉ [.paren, .bracket, .brace, .markup] := by
  unfold wordTerminal
  dsimp only
  repeat' split
  all_goals simp

theorem terminalOf_token {state : State} {t : Token} {next : Option Item} {terminal : Terminal}
    (h : terminalOf state (.token t) next = terminal)
    (hmem : terminal ∈ [.paren, .bracket, .brace, .markup]) :
    terminal = .markup ∧ t.kind = .markup := by
  unfold terminalOf at h
  dsimp only at h
  split at h
  . repeat' split at h
    all_goals simp [← h] at hmem
  . rw [← h] at hmem
    exact absurd hmem (wordTerminal_not_mem _ _ _)
  . simp [← h] at hmem
  . simp [← h] at hmem
  . simp [← h] at hmem
  . simp [← h] at hmem
  . next hkind => exact ⟨h.symm, hkind⟩

theorem Reads.group {bracket : Bracket} (h : Reads text item lexeme)
    (hterminal : lexeme.terminal = bracket.terminal) :
    ∃ opener inner closer, item = .group bracket opener inner closer := by
  obtain ⟨state, next, rfl⟩ := h
  change terminalOf state item next = bracket.terminal at hterminal
  cases item with
  | group b opener inner closer =>
    refine ⟨opener, inner, closer, ?_⟩
    cases b <;> cases bracket <;> first | rfl | simp [terminalOf, Bracket.terminal] at hterminal
  | token t =>
    have hmarkup := (terminalOf_token hterminal (by cases bracket <;> simp [Bracket.terminal])).1
    cases bracket <;> simp [Bracket.terminal] at hmarkup

theorem Reads.markup (h : Reads text item lexeme) (hterminal : lexeme.terminal = .markup) :
    ∃ t, item = .token t ∧ t.kind = .markup := by
  obtain ⟨state, next, rfl⟩ := h
  change terminalOf state item next = .markup at hterminal
  cases item with
  | group b opener inner closer => cases b <;> simp [terminalOf] at hterminal
  | token t => exact ⟨t, rfl, (terminalOf_token hterminal (by simp)).2⟩

theorem Reads.ambiguous {t : Token} (h : Reads text (.token t) lexeme) (hkind : t.kind = .punct)
    (hvalue : t.value ∈ ambiguous) : lexeme.terminal = .op := by
  obtain ⟨state, next, rfl⟩ := h
  change terminalOf state (.token t) next = .op
  simp only [Token.ambiguous, List.mem_cons, List.not_mem_nil, or_false] at hvalue
  rcases hvalue with hvalue | hvalue | hvalue <;> simp [terminalOf, hkind, hvalue]

theorem Cut.exists_before {prior : Option (Part text)} {first last : List (Part text)}
    {part : Part text} (h : Cut text prior items (first ++ part :: last)) :
    ∃ before after, items = before ++ (part.items ++ after) ∧
      ((∃ more item, before = more ++ [item] ∧ item.isPunct ";" = true) ∨
        (∃ earlier prev, first = earlier ++ [prev] ∧ Begins (some prev) part) ∨
        (first = [] ∧ before = [] ∧ Begins prior part)) := by
  generalize hparts : first ++ part :: last = parts at h
  induction h generalizing first with
  | nil => simp at hparts
  | @semicolon _ item items parts hitem _ ih =>
    obtain ⟨before, after, rfl, hbefore⟩ := ih hparts
    refine ⟨item :: before, after, rfl, ?_⟩
    rcases hbefore with ⟨more, last, rfl, hlast⟩ | hearlier | ⟨_, rfl, _⟩
    . exact .inl ⟨item :: more, last, rfl, hlast⟩
    . exact .inr (.inl hearlier)
    . exact .inl ⟨[], item, rfl, hitem⟩
  | @part prior other items parts hbegins _ ih =>
    cases first with
    | nil =>
      cases hparts
      exact ⟨[], items, rfl, .inr (.inr ⟨rfl, rfl, hbegins⟩)⟩
    | cons head first =>
      cases hparts
      obtain ⟨before, after, rfl, hbefore⟩ := ih rfl
      refine ⟨other.items ++ before, after, by simp, ?_⟩
      rcases hbefore with ⟨more, last, rfl, hlast⟩ | ⟨earlier, prev, rfl, hprev⟩ | ⟨rfl, rfl, hprev⟩
      . exact .inl ⟨other.items ++ more, last, by simp, hlast⟩
      . exact .inr (.inl ⟨other :: earlier, prev, rfl, hprev⟩)
      . exact .inr (.inl ⟨[], other, rfl, hprev⟩)

variable {start stop : Nat} {w : Word} {ws : List Word} {part : Part text}
    {before after : List Item}
variable {skipped more : List Lexeme}

/-- The lexeme is an operator that starts markup or a regular expression if an operand is due. -/
def IsAmbiguous (lexeme : Lexeme) : Prop :=
  lexeme.terminal = .op ∧ lexeme.value ∈ ambiguous

theorem ambiguous_of_word (hreads : Reads text item lexeme) (hmatched : item.Matched)
    (hfragment : Fragment text operand item.start stop w ws)
    (htokens : Token.tokensAt item.start (w :: ws) =
      Token.startLine (Item.flattenAll (item :: items)))
    (hkind : w.kind = .punct) (hvalue : String.ofList w.text ∈ ambiguous) :
    continues item = true ∧ lexeme.IsAmbiguous := by
  cases hmatched with
  | @token t _ _ =>
    have hhead : w.token t.start = { t with newlineBefore := false } := (List.cons.inj htokens).1
    obtain ⟨hkind', hvalue', _, hstop, _⟩ := Token.mk.inj hhead
    have hslice : Text.slice text t.start t.stop = t.value := by
      rw [← hvalue', ← hstop]
      exact hfragment.slice
    rw [hkind'] at hkind
    rw [hvalue'] at hvalue
    refine ⟨?_, hreads.ambiguous hkind hvalue, ?_⟩
    . have hopen : ∀ value ∈ ambiguous, openStarts.contains value = true := by decide
      simp only [continues, hkind]
      exact hopen t.value hvalue
    . obtain ⟨state, next, rfl⟩ := hreads
      change Text.slice text t.start t.stop ∈ ambiguous
      rwa [hslice]
  | @group bracket opener _ _ hopener =>
    have hhead : w.token opener.start = { opener with newlineBefore := false } :=
      (List.cons.inj htokens).1
    obtain ⟨_, hvalue', _⟩ := Token.mk.inj hhead
    rw [hvalue'] at hvalue
    rw [Token.opens?_of_ambiguous hvalue] at hopener
    simp at hopener

theorem Part.fragment
    (h : (Token.scan text >>= Token.group) = .ok (before ++ (part.items ++ after)))
    (hsplit : part.lexemes = skipped ++ lexeme :: more) :
    ∃ skippedItems first items w ws, part.items = skippedItems ++ first :: items ∧
      List.Forall₂ (Reads text) skippedItems skipped ∧
      Fragment text (dueAfter (Item.flattenAll (before ++ skippedItems))) lexeme.start
        part.last.stop w ws ∧
      (w.kind = .punct → String.ofList w.text ∈ ambiguous →
        continues first = true ∧ lexeme.IsAmbiguous) := by
  have hreads := part.reads
  rw [hsplit] at hreads
  obtain ⟨skippedItems, mine, hitems, hskipped, hmine⟩ := append_of_forall₂ hreads
  obtain ⟨first, items, hfirst, hmore, rfl⟩ := List.forall₂_cons_right_iff.mp hmine
  have hall : before ++ (part.items ++ after) =
      (before ++ skippedItems) ++ (first :: items ++ after) := by
    rw [hitems]
    simp
  have hhull : IsHull ((first :: items).map Item.range) (lexeme.start, part.last.stop) := by
    rw [ranges_of_reads hmine]
    refine ⟨rfl, ?_⟩
    have hlast : part.lexemes.getLast? = (lexeme :: more).getLast? := by
      rw [hsplit, List.getLast?_append_of_ne_nil _ (List.cons_ne_nil _ _)]
    rw [List.getLast?_map, ← hlast, List.getLast?_eq_some_getLast part.lexemes_ne_nil]
    rfl
  rw [hall] at h
  obtain ⟨tokens, _, hgroup⟩ := bind_eq_ok.mp h
  have hmatched := Token.matched_of_group hgroup first (by simp)
  obtain ⟨w, ws, hfragment, htokens⟩ := Token.fragment_of_items h hhull
  refine ⟨skippedItems, first, items, w, ws, hitems, hskipped, hfragment, ?_⟩
  rw [hfirst.start] at hfragment htokens
  exact ambiguous_of_word hfirst hmatched hfragment htokens

theorem dueAfter_of_semicolon (hitem : item.isPunct ";" = true) (items : List Item) :
    dueAfter (Item.flattenAll (items ++ [item])) = true := by
  cases item with
  | group => simp [Item.isPunct] at hitem
  | token t =>
    simp only [Item.isPunct, Token.isPunct, Bool.and_eq_true, beq_iff_eq] at hitem
    rw [Token.flattenAll_append, dueAfter, Item.flattenAll, Item.flatten, Item.flattenAll,
      List.append_nil, List.getLast?_concat]
    dsimp only
    rw [hitem.1, hitem.2]
    decide

/-- The lexemes of a part from one of them on can be read by themselves, unless they start with an
ambiguous operator. If the part starts with it, it stands right after a function. -/
theorem Cut.fragment {first last : List (Part text)}
    (h : (Token.scan text >>= Token.group) = .ok items)
    (hcut : Cut text none items (first ++ part :: last))
    (hsplit : part.lexemes = skipped ++ lexeme :: more) :
    ∃ operand w ws, Fragment text operand lexeme.start part.last.stop w ws ∧
      (operand = true ∨
        lexeme.IsAmbiguous ∧
          (skipped = [] → ∃ earlier prev, first = earlier ++ [prev] ∧ prev.hasFunction)) := by
  obtain ⟨before, after, rfl, hbefore⟩ := hcut.exists_before
  obtain ⟨skippedItems, head, tail, w, ws, hitems, hskipped, hfragment, hambiguous⟩ :=
    Part.fragment h hsplit
  by_cases hword : w.kind = .punct ∧ String.ofList w.text ∈ ambiguous
  . obtain ⟨hcontinues, hlexeme⟩ := hambiguous hword.1 hword.2
    by_cases hnil : skipped = []
    . rw [hnil, List.forall₂_nil_right_iff] at hskipped
      rw [hskipped, List.append_nil] at hfragment
      rw [hskipped, List.nil_append] at hitems
      refine ⟨_, w, ws, hfragment, ?_⟩
      rcases hbefore with ⟨more, item, rfl, hitem⟩ | ⟨earlier, prev, rfl, hbegins⟩ | ⟨_, rfl, _⟩
      . exact .inl (dueAfter_of_semicolon hitem more)
      . refine .inr ⟨hlexeme, fun _ => ⟨earlier, prev, rfl, ?_⟩⟩
        have hhead : part.first = head := Part.first_of_append (by rw [hitems, List.append_nil])
        apply (hbegins prev rfl).resolve_right
        simp [hhead, hcontinues]
      . exact .inl rfl
    . exact ⟨_, w, ws, hfragment, .inr ⟨hlexeme, fun h => absurd h hnil⟩⟩
  . exact ⟨true, w, ws, hfragment.due fun hkind hvalue => hword ⟨hkind, hvalue⟩, .inl rfl⟩

/-- What of a text that reading again starts at a lexeme can go through: the items and the inside of
a group, and markup. -/
structure Legible (text : String) (lexeme : Lexeme) : Prop where
  items : ∀ bracket : Bracket, lexeme.terminal = bracket.terminal →
    ∃ item more, (Token.scanWindow text lexeme.start lexeme.stop >>= Token.group) =
      .ok (item :: more)
  inside : ∀ bracket : Bracket, lexeme.terminal = bracket.terminal →
    BalancedWindow text (lexeme.start + 1) (lexeme.stop - 1) ∧
      ∃ rest, text.toList.drop (lexeme.stop - 1) = bracket.closing :: rest
  markup : lexeme.terminal = .markup → IsMarkupSlice text lexeme.start lexeme.stop

def Views (view text : String) : Prop :=
  ∀ ⦃operand : Bool⦄ ⦃start stop : Nat⦄ ⦃w : Word⦄ ⦃ws : List Word⦄,
    Fragment view operand start stop w ws → Fragment text operand start stop w ws

theorem views_of_blank {view : String} {hidden blank shown cut : List Char}
    (hview : view.toList = blank ++ shown)
    (htext : text.toList = hidden ++ (shown ++ cut)) (hlength : blank.length = hidden.length)
    (hblank : ∀ c ∈ blank, Text.isBlank c = true)
    (hcut : ∀ c, cut.head? = some c → Token.isNeutral c = true) : Views view text := by
  intro operand start stop w ws h
  refine h.extend ?_ hcut
  obtain ⟨c, cs, hdrop, hc⟩ := h.solid
  rw [hview] at hdrop
  have hstart : blank.length ≤ start := by
    by_contra hlt
    have hget := congrArg List.head? hdrop
    rw [List.head?_drop, List.getElem?_append_left (Nat.lt_of_not_le hlt)] at hget
    rw [hblank c (List.mem_of_getElem? hget)] at hc
    simp at hc
  obtain ⟨n, rfl⟩ := Nat.exists_eq_add_of_le hstart
  have hn : n ≤ shown.length := by
    rw [List.drop_length_add_append] at hdrop
    have hlength := congrArg List.length hdrop
    rw [List.length_drop, List.length_cons] at hlength
    omega
  rw [hview, htext, List.drop_length_add_append, hlength, List.drop_length_add_append,
    List.drop_append_of_le_length hn]

theorem legible_of_reads {view : String} (hviews : Views view text)
    (h : (Token.scan view >>= Token.group) = .ok (before ++ ([item] ++ after)))
    (hreads : Reads view item lexeme) : Legible text lexeme := by
  obtain ⟨tokens, _, hgroup⟩ := bind_eq_ok.mp h
  have hmatched := Token.matched_of_group hgroup item (by simp)
  obtain ⟨w, ws, hfragment, htokens⟩ := Token.fragment_of_items h ⟨rfl, rfl⟩
  have hview := hviews hfragment
  rw [← hreads.start, ← hreads.stop] at hview
  rw [← hreads.start] at htokens
  have hgroup : ∀ bracket : Bracket, lexeme.terminal = bracket.terminal →
      w.text = [bracket.opening] ∧ ∃ as v, ws = as ++ [v] ∧ v.text = [bracket.closing] ∧
      Token.Nesting [] as [] := by
    intro bracket hterminal
    obtain ⟨opener, inner, closer, rfl⟩ := hreads.group hterminal
    exact hview.inside hmatched htokens
  refine ⟨?_, ?_, ?_⟩
  . intro bracket hterminal
    obtain ⟨hopening, _⟩ := hgroup bracket hterminal
    refine (hview.due fun _ => ?_).items
    rw [hopening]
    cases bracket <;> decide
  . intro bracket hterminal
    obtain ⟨hopening, as, v, rfl, hclosing, hnesting⟩ := hgroup bracket hterminal
    exact hview.between hopening hclosing hnesting
  . intro hterminal
    obtain ⟨t, rfl, hkind⟩ := hreads.markup hterminal
    obtain ⟨rest, htext, hrun, _⟩ := hview
    have hhead : w.token lexeme.start = { t with newlineBefore := false } :=
      (List.cons.inj htokens).1
    have hslice := hrun.isMarkupSlice htext List.mem_cons_self (by rw [hhead]; exact hkind)
    rw [hhead] at hslice
    rwa [hreads.start, hreads.stop]

end Lexeme

namespace Statement

open Lexeme (Legible Views)
open Token (BalancedWindow)

variable {segment tokens : List Lexeme} {lexeme word : Lexeme} {content : Body}
    {isExported isDefault : Bool}

/-- The lexemes of the content of a statement that may be read again. -/
def Body.lexemes : Body → List Lexeme
  | .importing tokens => tokens
  | .function f => f.signature ++ [f.body]
  | .variable v => v.binding :: v.initializer.getD []
  | .returning _ tokens => tokens
  | .expression tokens => tokens
  | .defaultExpression tokens => tokens
  | .passthrough tokens => tokens

theorem IsFunction.mem (h : IsFunction tokens f) (hmem : lexeme ∈ (Body.function f).lexemes) :
    lexeme ∈ tokens := by
  cases h with
  | plain => exact List.mem_cons_of_mem _ hmem
  | async => exact List.mem_cons_of_mem _ (List.mem_cons_of_mem _ hmem)

theorem IsVariable.mem (h : IsVariable tokens v) (hmem : lexeme ∈ (Body.variable v).lexemes) :
    lexeme ∈ tokens := by
  cases h with
  | declared =>
    obtain rfl := List.mem_singleton.mp hmem
    simp
  | @assigned _ _ _ _ value =>
    rcases List.mem_cons.mp hmem with rfl | hmem
    . simp
    . have hvalue : lexeme ∈ value := hmem
      simp [hvalue]

theorem Shape.mem (h : Shape segment content isExported isDefault)
    (hmem : lexeme ∈ content.lexemes) : lexeme ∈ segment := by
  cases h with
  | importing => exact List.mem_cons_of_mem _ hmem
  | defaultFunction _ _ h => exact List.mem_cons_of_mem _ (List.mem_cons_of_mem _ (h.mem hmem))
  | defaultExpression => exact List.mem_cons_of_mem _ (List.mem_cons_of_mem _ hmem)
  | exportedFunction _ h => exact List.mem_cons_of_mem _ (h.mem hmem)
  | exportedVariable _ h => exact List.mem_cons_of_mem _ (h.mem hmem)
  | passthrough => exact List.mem_cons_of_mem _ hmem
  | plainFunction h => exact h.mem hmem
  | plainVariable h => exact h.mem hmem
  | returning => exact List.mem_cons_of_mem _ hmem
  | expression => exact hmem

theorem Shape.body_terminal (h : Shape segment (.function f) isExported isDefault) :
    f.body.terminal = .brace := by
  have hbody : ∀ {tokens}, IsFunction tokens f → f.body.terminal = .brace := by
    intro tokens h
    cases h <;> assumption
  cases h with
  | defaultFunction _ _ h => exact hbody h
  | exportedFunction _ h => exact hbody h
  | plainFunction h => exact hbody h

theorem Shape.binding_terminal (h : Shape segment (.variable v) isExported isDefault) :
    isBinding v.binding.terminal = true := by
  have hbinding : ∀ {tokens}, IsVariable tokens v → isBinding v.binding.terminal = true := by
    intro tokens h
    cases h <;> assumption
  cases h with
  | exportedVariable _ h => exact hbinding h
  | plainVariable h => exact hbinding h

theorem ne_functionWord (h : ∀ t ∈ tokens, isExpressionItem t.terminal = true)
    (hmem : lexeme ∈ tokens) : lexeme.terminal ≠ .functionWord := by
  intro hword
  have hitem := h lexeme hmem
  simp [hword, isExpressionItem] at hitem

theorem IsVariable.ne_functionWord (h : IsVariable tokens v) (hmem : lexeme ∈ tokens) :
    lexeme.terminal ≠ .functionWord := by
  intro hword
  cases h with
  | declared hdecl hbinding htype =>
    simp only [List.mem_cons] at hmem
    rcases hmem with rfl | rfl | hmem
    . simp [hdecl] at hword
    . simp [hword, isBinding] at hbinding
    . simpa [hword, isTypeItem] using htype lexeme hmem
  | assigned hdecl hbinding htype heq hvalue =>
    simp only [List.mem_cons, List.mem_append] at hmem
    rcases hmem with rfl | rfl | hmem | rfl | hmem
    . simp [hdecl] at hword
    . simp [hword, isBinding] at hbinding
    . simpa [hword, isTypeItem] using htype lexeme hmem
    . simp [heq] at hword
    . exact Statement.ne_functionWord hvalue.2 hmem hword

theorem Shape.exists_function (h : Shape segment content isExported isDefault)
    (hmem : lexeme ∈ segment)
    (hword : lexeme.terminal = .functionWord) : ∃ f, content = .function f := by
  have hhead : ∀ {word : Lexeme} {tokens : List Lexeme} {t : Terminal}, word.terminal = t →
      t ≠ .functionWord →
      lexeme ∈ word :: tokens → lexeme ∈ tokens := by
    intro word tokens t hterminal ht hmem
    rcases List.mem_cons.mp hmem with rfl | hmem
    . exact absurd (hterminal.symm.trans hword) ht
    . exact hmem
  cases h with
  | defaultFunction => exact ⟨_, rfl⟩
  | exportedFunction => exact ⟨_, rfl⟩
  | plainFunction => exact ⟨_, rfl⟩
  | importing hfirst h => exact absurd hword (ne_functionWord h.2 (hhead hfirst nofun hmem))
  | defaultExpression hfirst hdefault h =>
    exact absurd hword (ne_functionWord h.2 (hhead hdefault nofun (hhead hfirst nofun hmem)))
  | exportedVariable hfirst h => exact absurd hword (h.ne_functionWord (hhead hfirst nofun hmem))
  | passthrough hfirst h => exact absurd hword (ne_functionWord h.2 (hhead hfirst nofun hmem))
  | plainVariable h => exact absurd hword (h.ne_functionWord hmem)
  | returning hfirst h => exact absurd hword (ne_functionWord h (hhead hfirst nofun hmem))
  | expression h => exact absurd hword (ne_functionWord h.2 hmem)

def codeRange (statement : Statement) : Nat × Nat :=
  match statement.body with
  | .passthrough _ | .defaultExpression _ => statement.range
  | _ => (statement.codeStart, statement.stop)

def Body.codeFirst (word : Lexeme) : Body → Lexeme
  | .defaultExpression _ => word
  | content => content.first word

theorem IsFunction.exists_keyword (h : IsFunction tokens f) :
    ∃ more, tokens = f.keyword :: more ∧ f.keyword.terminal ≠ .op := by
  cases h with
  | plain hword => exact ⟨_, rfl, by simp [hword]⟩
  | async hasync => exact ⟨_, rfl, by simp [hasync]⟩

theorem IsVariable.exists_keyword (h : IsVariable tokens v) :
    ∃ more, tokens = v.keyword :: more ∧ v.keyword.terminal ≠ .op := by
  cases h with
  | declared hword => exact ⟨_, rfl, by simp [hword]⟩
  | assigned hword => exact ⟨_, rfl, by simp [hword]⟩

theorem Shape.code (h : Shape (word :: tokens) content isExported isDefault)
    (hcode : ∀ word tokens, content ≠ .returning word tokens) :
    ∃ skipped more, word :: tokens = skipped ++ content.codeFirst word :: more ∧
      ((content.codeFirst word).terminal = .op →
        skipped = [] ∧ content = .expression (content.codeFirst word :: more) ∨
          content = .importing (content.codeFirst word :: more)) := by
  generalize hsegment : word :: tokens = segment at h ⊢
  cases h with
  | returning => exact absurd rfl (hcode _ _)
  | @importing first _ _ h =>
    obtain ⟨t, more, rfl⟩ := List.exists_cons_of_ne_nil h.1
    exact ⟨[first], more, rfl, fun _ => .inr rfl⟩
  | @defaultFunction first second _ f hword hdefault h =>
    obtain ⟨more, rfl, hkeyword⟩ := h.exists_keyword
    exact ⟨[first, second], more, rfl, fun hop => absurd hop hkeyword⟩
  | defaultExpression hword =>
    cases hsegment
    exact ⟨[], _, rfl, fun hop => absurd (hop.symm.trans hword) nofun⟩
  | @exportedFunction first _ f hword h =>
    obtain ⟨more, rfl, hkeyword⟩ := h.exists_keyword
    exact ⟨[first], more, rfl, fun hop => absurd hop hkeyword⟩
  | @exportedVariable first _ v hword h =>
    obtain ⟨more, rfl, hkeyword⟩ := h.exists_keyword
    exact ⟨[first], more, rfl, fun hop => absurd hop hkeyword⟩
  | passthrough hword =>
    cases hsegment
    exact ⟨[], _, rfl, fun hop => absurd (hop.symm.trans hword) nofun⟩
  | plainFunction h =>
    obtain ⟨more, rfl, hkeyword⟩ := h.exists_keyword
    exact ⟨[], more, rfl, fun hop => absurd hop hkeyword⟩
  | plainVariable h =>
    obtain ⟨more, rfl, hkeyword⟩ := h.exists_keyword
    exact ⟨[], more, rfl, fun hop => absurd hop hkeyword⟩
  | expression =>
    cases hsegment
    exact ⟨[], tokens, rfl, fun _ => .inl ⟨rfl, rfl⟩⟩

theorem IsStatement.codeRange_eq (h : IsStatement (word :: tokens, eos) statement) :
    statement.codeRange = ((statement.body.codeFirst word).start, eos.start) := by
  have hstart : word.start = statement.start := Option.some.inj h.start
  have hcodeStart : (statement.body.first word).start = statement.codeStart :=
    Option.some.inj h.codeStart
  rw [← h.stop, codeRange, range]
  cases hbody : statement.body with
  | passthrough => simp [Body.codeFirst, Body.first, hstart]
  | defaultExpression => simp [Body.codeFirst, hstart]
  | _ =>
    rw [hbody] at hcodeStart
    simp [Body.codeFirst, hcodeStart]

theorem IsStatement.code {part : Lexeme.Part text} (h : IsStatement (ofPart part) statement)
    (hcode : ∀ word tokens, statement.body ≠ .returning word tokens) :
    ∃ skipped lexeme more, part.lexemes = skipped ++ lexeme :: more ∧
      statement.codeRange = (lexeme.start, part.last.stop) ∧
      (lexeme.terminal = .op →
        skipped = [] ∧ statement.body = .expression (lexeme :: more) ∨
          statement.body = .importing (lexeme :: more)) := by
  obtain ⟨word, tokens, hlexemes⟩ := List.exists_cons_of_ne_nil part.lexemes_ne_nil
  rw [ofPart, hlexemes] at h
  obtain ⟨skipped, more, hsplit, hop⟩ := h.shape.code hcode
  exact ⟨skipped, _, more, hlexemes.trans hsplit, h.codeRange_eq, hop⟩

/-- A statement right after a function starts with an operator. Read by itself it would start with
markup or a regular expression, since no operator can stand where an operand is due. -/
def Misread (statements : List Statement) : Prop :=
  ∃ before other statement after f operator operands, statements =
    before ++ other :: statement :: after ∧
    other.body = .function f ∧ statement.body = .expression (operator :: operands) ∧
    operator.IsAmbiguous

/-- An import that starts with such an operator. It is misread if its code becomes a block, without
the word that it starts with. -/
def ImportsOperator (statement : Statement) : Prop :=
  ∃ operator operands, statement.body = .importing (operator :: operands) ∧ operator.IsAmbiguous

structure Readable (text : String) (statements : List Statement) (statement : Statement) :
    Prop where
  shape : ∃ segment isExported isDefault, Shape segment statement.body isExported isDefault
  legible : ∀ lexeme ∈ statement.body.lexemes, Legible text lexeme
  code : (∀ word tokens, statement.body ≠ .returning word tokens) →
    statement.codeRange.2 ≤ text.length ∧
      (BalancedWindow text statement.codeRange.1 statement.codeRange.2 ∨
        Misread statements ∨ ImportsOperator statement)

theorem readable_of_parse {view : String} (hviews : Views view text)
    (hparse : parse view file = .ok statements) :
    ∀ statement ∈ statements, Readable text statements statement := by
  intro statement hmem
  obtain ⟨items, hitems⟩ := items_of_parse hparse
  obtain ⟨parts, hcut, hstreams⟩ := Lexeme.cut_ofItems view items
  have hread := isStatement_of_parse hitems hparse
  rw [hstreams, segments_streams, List.forall₂_map_left_iff] at hread
  obtain ⟨earlier, later, rfl⟩ := List.append_of_mem hmem
  obtain ⟨first, tail, rfl, hfirst, htail⟩ := append_of_forall₂ hread
  obtain ⟨part, last, hpart, hlast, rfl⟩ := List.forall₂_cons_right_iff.mp htail
  refine ⟨⟨_, _, _, hpart.shape⟩, ?_, ?_⟩
  . intro lexeme hlexeme
    obtain ⟨item, hitem, hreads⟩ := exists_left_of_forall₂ part.reads (hpart.shape.mem hlexeme)
    obtain ⟨before, after, rfl, _⟩ := hcut.exists_before
    obtain ⟨as, bs, hsplit⟩ := List.append_of_mem hitem
    have hall : before ++ (part.items ++ after) = (before ++ as) ++ ([item] ++ (bs ++ after)) := by
      simp [hsplit]
    rw [hall] at hitems
    exact Lexeme.legible_of_reads hviews hitems hreads
  . intro hcode
    obtain ⟨skipped, lexeme, more, hsplit, hrange, hop⟩ := hpart.code hcode
    obtain ⟨operand, w, ws, hfragment, hwindow⟩ := hcut.fragment hitems hsplit
    have hview := hviews hfragment
    rw [hrange]
    refine ⟨hview.stop_le, ?_⟩
    rcases hwindow with rfl | ⟨hlexeme, hfunction⟩
    . exact .inl hview.window
    . right
      rcases hop hlexeme.1 with ⟨rfl, hbody⟩ | hbody
      . left
        obtain ⟨_, prev, rfl, word, hlexemes, hword⟩ := hfunction rfl
        obtain ⟨before, ends, rfl, _, hends⟩ := append_of_forall₂ hfirst.flip
        obtain ⟨other, none, hother, hnone, rfl⟩ := List.forall₂_cons_right_iff.mp hends
        obtain rfl := List.forall₂_nil_right_iff.mp hnone
        obtain ⟨f, hf⟩ := hother.shape.exists_function hlexemes hword
        exact ⟨before, other, statement, later, f, lexeme, more, by simp, hf, hbody, hlexeme⟩
      . exact .inr ⟨lexeme, more, hbody, hlexeme⟩

end Statement
end ComponentCompiler
