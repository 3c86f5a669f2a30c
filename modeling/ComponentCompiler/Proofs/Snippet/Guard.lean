import ComponentCompiler.Proofs.Markup.Recognition
import ComponentCompiler.Proofs.Snippet.Balanced
import ComponentCompiler.Proofs.Token.Join
import ComponentCompiler.View.Node

/-!
This module contains the ways to write that a condition guards markup: with `&&`, with `?` and with
a call of `$if`. In each of them the condition and the markup are read as they are by themselves, so
that the same condition and the same markup are cut out.
-/

namespace ComponentCompiler

/-- The text of a slot in which a condition guards markup. -/
def View.Conditional.Idiom.guard (idiom : Conditional.Idiom) (condition markup : String) : String :=
  match idiom with
  | .logicalAnd => condition ++ " && " ++ markup
  | .ternary => condition ++ " ? " ++ markup ++ " : null"
  | .explicitChain => "$if(" ++ condition ++ ", " ++ markup ++ ")"

namespace Snippet

open Token (Word Run Nesting charsOf tokensAt isNeutral)

variable {c m : String}

def weaker : List String :=
  ["?", "||", "??", ","]

/-- The words of a condition without a weaker operator, the word that is the markup, and the white
space after it. -/
structure Guarded (c m : String) where
  first : Word
  more : List Word
  body : Word
  blank : List Char
  condition : c.toList = charsOf (first :: more)
  run : Run true (first :: more) []
  items : ∀ gap newline pos, ∃ items,
    Token.group (tokensAt pos (first.respaced gap newline :: more)) = .ok items ∧
    ∀ item ∈ items, ∀ value ∈ weaker, item.isPunct value = false
  markup : m.toList = body.text ++ blank
  gap : body.gap = [' ']
  kind : body.kind = .markup
  head : body.text.head? = some '<'
  starts : ∀ {next}, (∀ c, next.head? = some c → isNeutral c = true) → body.Starts true next
  isBlank : ∀ c ∈ blank, Text.isBlank c = true

/-! ### Conditions and markup -/

theorem words_of_condition {tokens : List Token} {last : Token} (hscan : Token.scan c = .ok tokens)
    (hlast : tokens.getLast? = some last) (hstop : last.stop = c.length) :
    ∃ w ws, c.toList = charsOf (w :: ws) ∧ Run true (w :: ws) [] ∧
      tokens = tokensAt 0 (w :: ws) := by
  obtain ⟨ws, rest, hrun, htext, rfl⟩ := Token.scanFrom_ok hscan
  cases ws with
  | nil => simp [tokensAt] at hlast
  | cons w ws =>
    have hhull := (Token.isHull_tokensAt 0 w ws).2
    rw [List.getLast?_map, hlast] at hhull
    have hstop' : last.stop = 0 + (charsOf (w :: ws)).length := by simpa [Token.range] using hhull
    rw [List.drop_zero] at htext
    have hlength := Text.length_eq htext
    rw [List.length_append] at hlength
    obtain rfl : rest = [] := List.length_eq_zero_iff.mp (by omega)
    exact ⟨w, ws, by rw [htext, List.append_nil], hrun, rfl⟩

theorem looksLikeMarkup_of_markupRest (h : Token.markupRest n left cs = .ok (slots, rest)) :
    Token.looksLikeMarkup cs = true := by
  obtain ⟨c, more, rfl, hc⟩ := Markup.markupRest_head h
  rcases hc with rfl | hletter
  . rfl
  . simp [Token.looksLikeMarkup, Text.isLetter_of_isAsciiLetter hletter]

theorem word_of_markup {file : String} {origin : Origin} {tree : Markup.Node}
    (hstart : m.toList.head? = some '<') (hparse : Markup.Node.parse m file origin = .ok tree) :
    ∃ (w : Word) (blank : List Char), m.toList = w.text ++ blank ∧ w.gap = [' '] ∧
      w.kind = .markup ∧
      w.Starts true blank ∧ ∀ c ∈ blank, Text.isBlank c = true := by
  obtain ⟨more, hm⟩ := List.head?_eq_some_iff.mp hstart
  have hsolid : Text.dropBlank ('<' :: more) = '<' :: more := rfl
  obtain ⟨content, rest, hcs, hnode, hblank⟩ := Markup.node_of_parse hparse
  rw [hm, hsolid] at hcs
  cases hcs
  rw [hm]
  obtain ⟨n, left, slots, hread⟩ := Markup.markupRest_of_node hnode
  have hlooks := looksLikeMarkup_of_markupRest hread
  obtain ⟨used, base, rfl, _, _, hclosed⟩ := (Token.Closed.of_fuel n).markup hread
  have hlexeme : Token.lexeme (Token.templateRest used.length)
      (Token.markupRest used.length) true '<' (used ++ rest)
      = .ok (.markup, rest) := by
    rw [Token.lexeme_ok]
    exact .markup rfl rfl hlooks (hclosed _ _ rest (Nat.le_refl _))
  have hskip : Token.afterGap false (' ' :: '<' :: (used ++ rest)) =
      .ok (false, '<' :: (used ++ rest)) := rfl
  obtain ⟨w, hstarts, hword, htext, hkind, _⟩ := Word.starts_of_lexeme hskip hlexeme
  refine ⟨w, rest, htext, ?_, hkind, hstarts, by simpa using hblank⟩
  rw [← htext] at hword
  exact (@List.append_cancel_right _ [' '] _ _ hword).symm

theorem exists_guarded {file : String} {origin : Origin} {tokens : List Token} {items : List Item}
    {last : Token} {tree : Markup.Node}
    (hscan : Token.scan c = .ok tokens) (hgroup : Token.group tokens = .ok items)
    (hlast : tokens.getLast? = some last) (hstop : last.stop = c.length)
    (hweaker : ∀ item ∈ items, ∀ value ∈ weaker, item.isPunct value = false)
    (hstart : m.toList.head? = some '<') (hparse : Markup.Node.parse m file origin = .ok tree) :
    ∃ g : Guarded c m, tokens = tokensAt 0 (g.first :: g.more) := by
  obtain ⟨w, ws, hcondition, hrun, rfl⟩ := words_of_condition hscan hlast hstop
  obtain ⟨body, blank, hmarkup, hgap, hkind, hstarts, hblank⟩ := word_of_markup hstart hparse
  have hhead : body.text.head? = some '<' := by
    obtain ⟨d, content, htext, _⟩ := hstarts.text
    rw [hmarkup, htext] at hstart
    rw [htext]
    exact hstart
  refine ⟨⟨w, ws, body, blank, hcondition, hrun, ?_, hmarkup, hgap, hkind, hhead, fun hnext =>
    hstarts.agrees (.stop hnext),
    hblank⟩, rfl⟩
  intro gap newline pos
  obtain ⟨items', hitems, hsame⟩ :=
    Token.group_sameOperators hgroup (Token.sameText_respaced 0 pos w gap newline ws)
  refine ⟨items', hitems, ?_⟩
  intro item' hmem value hvalue
  obtain ⟨item, hitem, hpunct⟩ := exists_left_of_forall₂ hsame hmem
  rw [← hpunct]
  exact hweaker item hitem value hvalue

/-! ### Forms -/

section

variable {s : Snippet} {items condition : List Item} {op body mark colon other comma : Item}

theorem splitAnd?_eq_some (hitems : s.items = .ok (condition ++ [op, body])) (hne : condition ≠ [])
    (hop : op.isPunct "&&" = true) (hbody : body.isPunct "&&" = false)
    (hweaker : ∀ item ∈ condition ++ [op, body], ∀ value ∈ weaker, item.isPunct value = false) :
    s.splitAnd? = .ok (some (s.covering condition, s.covering [body])) := by
  have hnone :
      ((condition ++ [op, body]).any fun i => i.isPunct "||" || i.isPunct "??" || i.isPunct "?") =
        false := by
    rw [List.any_eq_false]
    intro item hmem
    have hitem := hweaker item hmem
    rw [hitem "||" (by decide), hitem "??" (by decide), hitem "?" (by decide)]
    decide
  have hsplit : splitLast? (·.isPunct "&&") (condition ++ [op, body]) =
      some (condition, [body]) := by
    have hdrop : (condition ++ [op, body]).drop (condition.length + 1) = [body] := by
      rw [List.append_cons]
      exact List.drop_left' (by simp)
    have hreverse : (condition ++ [op, body]).reverse.dropWhile (!·.isPunct "&&") =
        op :: condition.reverse := by
      simp [hop, hbody]
    rw [splitLast?, hreverse]
    dsimp only
    rw [List.reverse_reverse, List.length_reverse, hdrop]
  unfold splitAnd?
  rw [hitems, ok_bind, hnone, hsplit]
  obtain ⟨first, more, rfl⟩ := List.exists_cons_of_ne_nil hne
  rfl

theorem splitTernary?_eq_none (hitems : s.items = .ok items)
    (hnone : ∀ item ∈ items, item.isPunct "?" = false) : s.splitTernary? = .ok none := by
  have hall : items.takeWhile (!·.isPunct "?") = items := by
    rw [List.takeWhile_eq_self_iff]
    intro item hmem
    rw [hnone item hmem]
    rfl
  unfold splitTernary?
  rw [hitems, ok_bind, hall]
  dsimp only
  rw [List.drop_eq_nil_of_le (Nat.le_succ _)]
  cases items with
  | nil => rfl
  | cons => rfl

theorem splitTernary?_eq_some (hitems : s.items = .ok (condition ++ [mark, body, colon, other]))
    (hne : condition ≠ [])
    (hnone : ∀ item ∈ condition, item.isPunct "?" = false) (hmark : mark.isPunct "?" = true)
    (hbody : body.isPunct "?" = false)
    (hbody' : body.isPunct ":" = false) (hcolon : colon.isPunct "?" = false)
    (hcolon' : colon.isPunct ":" = true) :
    s.splitTernary? = .ok (some (s.covering condition, s.covering [body], s.covering [other])) := by
  have htake : (condition ++ [mark, body, colon, other]).takeWhile (!·.isPunct "?") =
      condition := by
    rw [List.takeWhile_append_of_pos fun item hmem => by rw [hnone item hmem]; rfl,
      List.takeWhile_cons_of_neg (by simp [hmark]), List.append_nil]
  have hdrop : (condition ++ [mark, body, colon, other]).drop (condition.length + 1) =
      [body, colon, other] := by
    rw [List.append_cons]
    exact List.drop_left' (by simp)
  have hsplit : splitColon? 0 [] [body, colon, other] = some ([body], [other]) := by
    simp [splitColon?, hbody, hbody', hcolon, hcolon']
  unfold splitTernary?
  rw [hitems, ok_bind, htake]
  dsimp only
  rw [hdrop, hsplit]
  obtain ⟨first, more, rfl⟩ := List.exists_cons_of_ne_nil hne
  rfl

theorem call?_eq_none (hitems : s.items = .ok items)
    (hlast : ∃ token, items.getLast? = some (.token token)) : s.call? = .ok none := by
  obtain ⟨token, hlast⟩ := hlast
  obtain ⟨before, rfl⟩ := List.getLast?_eq_some_iff.mp hlast
  unfold call?
  rw [hitems, ok_bind, List.reverse_append]
  rfl

theorem call?_eq_some {name opener closer : Token}
    (hitems : s.items = .ok [.token name, .group .paren opener (condition ++ [comma, body]) closer])
    (hname : name.kind = .name)
    (hne : condition ≠ []) (hnone : ∀ item ∈ condition, item.isPunct "," = false)
    (hcomma : comma.isPunct "," = true) (hbody : body.isPunct "," = false) :
    s.call? =
      .ok
        (some ⟨Text.trim (Text.slice s.text 0 opener.start),
          [s.covering condition, s.covering [body]], s⟩) := by
  have hsplit : Item.split "," (condition ++ [comma, body]) = [condition, [body]] := by
    rw [Item.split, Text.splitOnP_append hnone hcomma]
    simp [Text.splitOnP, hbody, hne]
  unfold call?
  rw [hitems, ok_bind]
  simp [isDotted, Item.name?, hname, hsplit, pure, Except.pure]

theorem chainCall?_eq_some {call : Call} {stripped : Snippet}
    (hstrip : s.stripParens = .ok stripped) (hcall : stripped.call? = .ok (some call))
    (hcallee : ["$if", "$elseif", "$else"].contains call.callee = true) :
    s.chainCall? = .ok (some call) := by
  rw [chainCall?, hstrip, ok_bind, hcall, ok_bind]
  dsimp only
  rw [if_pos hcallee]
  rfl

theorem chainCall?_eq_none {stripped : Snippet} (hstrip : s.stripParens = .ok stripped)
    (hcall : stripped.call? = .ok none) : s.chainCall? = .ok none := by
  rw [chainCall?, hstrip, ok_bind, hcall]
  rfl

end

/-! ### Words -/

structure Spells (s : Snippet) (w : Word) (ws : List Word) : Prop where
  intro ::
  words : ∃ blank, s.text.toList = charsOf (w :: ws) ++ blank ∧ Run true (w :: ws) blank ∧
    ∀ c ∈ blank, Text.isBlank c = true

section

variable {s : Snippet} {w : Word} {ws : List Word}

theorem Spells.strip (h : s.Spells w ws) :
    ∃ newline, s.strip.text.toList = charsOf (w.respaced (Text.dropBlank w.gap) newline :: ws) ∧
      Run true (w.respaced (Text.dropBlank w.gap) newline :: ws) [] := by
  obtain ⟨blank, htext, hrun, hblank⟩ := h.words
  rw [text_strip]
  exact hrun.trim hblank htext

theorem items_of_run (htext : s.text.toList = charsOf ws) (hrun : Run true ws []) :
    s.items = Token.group (tokensAt 0 ws) := by
  rw [Snippet.items, Token.scan_of_run hrun htext, ok_bind]

def Unwrapped (w : Word) (ws : List Word) : Prop :=
  ∀ gap newline, ∃ items, Token.group (tokensAt 0 (w.respaced gap newline :: ws)) = .ok items ∧
    ∀ opener inner closer, items ≠ [.group .paren opener inner closer]

theorem stripParens_eq (h : s.Spells w ws) (hwords : Unwrapped w ws) :
    s.stripParens = .ok s.strip := by
  obtain ⟨newline, htext, hrun⟩ := h.strip
  obtain ⟨items, hitems, hunwrapped⟩ := hwords (Text.dropBlank w.gap) newline
  rw [← items_of_run htext hrun] at hitems
  rw [stripParens, stripParens.go, hitems, ok_bind]
  split
  . exact absurd rfl (hunwrapped _ _ _)
  . rfl

theorem markup?_eq_none (h : s.Spells w ws) (hwords : Unwrapped w ws) (hne : ws ≠ []) :
    s.markup? = .ok none := by
  obtain ⟨newline, htext, hrun⟩ := h.strip
  obtain ⟨v, ws, rfl⟩ := List.exists_cons_of_ne_nil hne
  rw [markup?, stripParens_eq h hwords, ok_mapError, ok_bind, Token.scan_of_run hrun htext,
    ok_mapError, ok_bind, tokensAt, tokensAt]
  rfl

theorem text_word {pre post : List Word} (htext : s.text.toList = charsOf (pre ++ w :: post))
    (hrun : Run operand (pre ++ w :: post) []) (hpos : pos = (charsOf pre).length) :
    (s.covering [.token (w.token pos)]).text = String.ofList w.text := by
  subst hpos
  have hparts : s.text.toList = charsOf pre ++ (charsOf [w] ++ charsOf post) := by
    rw [htext, Token.charsOf_append, ← List.singleton_append, Token.charsOf_append]
  have hword : Run _ ([w] ++ post) [] := (Token.run_append.mp hrun).2
  rw [Token.run_append, List.append_nil] at hword
  rw [text_covering hparts hword.1 rfl]
  simp [Word.chars, Word.bare]

theorem markup?_strip (h : s.Spells w ws) (hwords : Unwrapped w ws) (hne : ws ≠ []) :
    s.strip.markup? = .ok none := by
  obtain ⟨newline, htext, hrun⟩ := h.strip
  have hspells : s.strip.Spells (w.respaced (Text.dropBlank w.gap) newline) ws :=
    ⟨[], by rw [htext, List.append_nil], hrun, List.forall_mem_nil _⟩
  exact markup?_eq_none hspells hwords hne

theorem Spells.strip_ne (h : s.Spells w ws) : s.strip.text ≠ "" := by
  obtain ⟨newline, htext, hrun⟩ := h.strip
  obtain ⟨d, more, hword, _⟩ := hrun.1.text
  intro hempty
  rw [hempty, Token.charsOf_cons, Word.chars, hword] at htext
  simp at htext

theorem balanced_of_group {items : List Item} (hrun : Run true ws [])
    (h : Token.group (tokensAt pos ws) = .ok items) : Token.Balanced (charsOf ws) := by
  have hnesting : Nesting [] ws [] :=
    Token.nesting_of_items (Token.matched_of_group h) (Token.flattenAll_group h).symm hrun
  exact ⟨ws, [], by rw [List.append_nil], hrun, hnesting, .inl rfl⟩

/-! ### Single words -/

theorem group_word (w : Word) (hkind : w.kind ≠ .punct) (pos : Nat) :
    Token.group (tokensAt pos [w]) = .ok [.token (w.token pos)] := by
  have hkind : (w.token pos).kind ≠ .punct := hkind
  have hnil : Token.group [] = .ok [] := rfl
  apply Token.group_append hnil
  intro t ht
  rw [List.mem_singleton.mp ht, Token.opens?, Token.closes?, if_neg hkind, if_neg hkind]
  exact ⟨rfl, rfl⟩

theorem stripParens_word (h : s.Spells w []) (hkind : w.kind ≠ .punct) :
    s.stripParens = .ok s.strip :=
  stripParens_eq h fun gap newline => ⟨_, group_word (w.respaced gap newline) hkind 0, nofun⟩

theorem items_word (h : s.Spells w []) (hkind : w.kind ≠ .punct) :
    ∃ token, s.strip.items = .ok [.token token] ∧ token.kind = w.kind := by
  obtain ⟨newline, htext, hrun⟩ := h.strip
  have hgroup := group_word (w.respaced (Text.dropBlank w.gap) newline) hkind 0
  rw [← items_of_run htext hrun] at hgroup
  exact ⟨_, hgroup, rfl⟩

theorem isEmptyBranch_word (h : s.Spells w []) (hkind : w.kind ≠ .punct) :
    s.isEmptyBranch = .ok (["null", "undefined", "false", "''", "\"\""].contains s.strip.text) := by
  rw [isEmptyBranch, stripParens_word h hkind]
  rfl

end

namespace Guarded

variable {s : Snippet} (g : Guarded c m)

def conditionText : String :=
  String.ofList (charsOf (g.first.bare :: g.more))

def bodyText : String :=
  String.ofList g.body.text

def amp : Word := ⟨[' '], .punct, ['&', '&'], false⟩

def query : Word := ⟨[' '], .punct, ['?'], false⟩

def colon : Word := ⟨[], .punct, [':'], false⟩

def null : Word := ⟨[' '], .name, ['n', 'u', 'l', 'l'], false⟩

def ifName : Word := ⟨[], .name, ['$', 'i', 'f'], false⟩

def opening : Word := ⟨[], .punct, ['('], false⟩

def comma : Word := ⟨[], .punct, [','], false⟩

def closing : Word := ⟨[], .punct, [')'], false⟩

theorem isNeutral_blank : ∀ d, g.blank.head? = some d → isNeutral d = true := by
  intro d hd
  apply Token.isNeutral_of_isBlank
  exact g.isBlank d (List.mem_of_mem_head? hd)

theorem isNeutral_blank_append (h : ∀ d, next.head? = some d → isNeutral d = true) :
    ∀ d, (g.blank ++ next).head? = some d → isNeutral d = true := by
  intro d hd
  rw [List.head?_append] at hd
  rcases Option.or_eq_some_iff.mp hd with hd | ⟨_, hd⟩
  . exact g.isNeutral_blank d hd
  . exact h d hd

theorem isNeutral_cons {d : Char} (hd : d ∈ [' ', '(', ')', ',', ':']) :
    ∀ e, (d :: next).head? = some e → isNeutral e = true := by
  intro e he
  rw [List.head?_cons, Option.some.injEq] at he
  rw [← he]
  rcases List.mem_cons.mp hd with rfl | hd
  . exact Token.isNeutral_of_isBlank rfl
  . apply Token.isNeutral_of_mem
    have hall : ∀ d ∈ ['(', ')', ',', ':'],
        d ∈ ['(', '[', '\x7b', ')', ']', '\x7d', ',', ';', ':'] := by simp
    exact hall d hd

theorem chars_body : g.body.chars = ' ' :: g.body.text := by
  rw [Word.chars, g.gap]
  rfl

theorem run_condition (h : ∀ d, next.head? = some d → isNeutral d = true) :
    Run true (g.first :: g.more) next :=
  g.run.agrees (.stop h)

theorem starts_amp (operand : Bool) (h : ∀ d, next.head? = some d → isNeutral d = true) :
    amp.Starts operand next := by
  have hstarts : amp.Starts operand [] := ⟨rfl, '&', ['&'], rfl, fun _ _ => rfl⟩
  exact hstarts.agrees (.stop h)

theorem starts_query (operand : Bool) (h : ∀ d, next.head? = some d → isNeutral d = true) :
    query.Starts operand next := by
  have hstarts : query.Starts operand [] := ⟨rfl, '?', [], rfl, fun _ _ => rfl⟩
  exact hstarts.agrees (.stop h)

theorem starts_ifName (operand : Bool) (h : ∀ d, next.head? = some d → isNeutral d = true) :
    ifName.Starts operand next := by
  have hstarts : ifName.Starts operand [] := ⟨rfl, '$', ['i', 'f'], rfl, fun _ _ => rfl⟩
  exact hstarts.agrees (.stop h)

theorem starts_single {d : Char} (operand : Bool) (next : List Char)
    (hd : d ∈ ['(', ')', ',', ':']) : (⟨[], .punct, [d], false⟩ : Word).Starts operand next := by
  have hall : ∀ d ∈ ['(', ')', ',', ':'], d ∈ ['(', '[', '\x7b', ')', ']', '\x7d', ',', ';', ':'] ∧
      Text.isBlank d = false ∧
      d ≠ '/' ∧ d ≠ '\'' ∧ d ≠ '"' ∧ d ≠ '\x60' := by
    simp [Text.isBlank]
  obtain ⟨hmem, hsolid, hslash, hquote⟩ := hall d hd
  refine ⟨?_, d, [], rfl, ?_⟩
  . exact Token.afterGap_of_token hsolid (by simp [Token.opensComment, hslash])
  . intro m _
    exact Token.lexeme_of_isNeutral (Token.isNeutral_of_mem hmem) hquote

theorem spells_and (hs : s.text = c ++ " && " ++ m) :
    s.Spells g.first (g.more ++ [amp, g.body]) := by
  refine ⟨g.blank, ?_, ?_, g.isBlank⟩
  . rw [hs, String.toList_append, String.toList_append, g.condition, g.markup]
    simp [Word.chars, g.gap, amp]
  . rw [← List.cons_append, Token.run_append]
    refine ⟨g.run_condition (isNeutral_cons (by decide)), starts_amp _ ?_,
      g.starts g.isNeutral_blank, trivial⟩
    rw [Token.charsOf_cons, g.chars_body]
    exact isNeutral_cons (by decide)

theorem spells_ternary (hs : s.text = c ++ " ? " ++ m ++ " : null") :
    ∃ newline, s.Spells g.first
      (g.more ++ [query, g.body, colon.respaced (g.blank ++ [' ']) newline, null]) := by
  have hblank : ∀ d ∈ g.blank ++ [' '], Text.isBlank d = true := by
    rw [List.forall_mem_append]
    exact ⟨g.isBlank, List.forall_mem_singleton.mpr rfl⟩
  obtain ⟨newline, hcolon⟩ :=
    (starts_single (d := ':') g.body.operandAfter (charsOf [null] ++ []) (by decide)).respaced
      hblank
  refine ⟨newline, [], ?_, ?_, List.forall_mem_nil _⟩
  . rw [hs, String.toList_append, String.toList_append, String.toList_append, g.condition, g.markup]
    simp [Word.chars, Word.respaced, g.gap, query, colon, null]
  . rw [← List.cons_append, Token.run_append]
    refine ⟨g.run_condition (isNeutral_cons (by decide)), starts_query _ ?_, g.starts ?_, hcolon,
      ⟨rfl, 'n', ['u', 'l', 'l'], rfl, fun _ _ => rfl⟩, trivial⟩
    . rw [Token.charsOf_cons, g.chars_body]
      exact isNeutral_cons (by decide)
    . rw [Token.charsOf_cons, Word.chars, Word.respaced, List.append_assoc, List.append_assoc,
        List.append_assoc]
      exact g.isNeutral_blank_append (isNeutral_cons (by decide))

theorem spells_call (hs : s.text = "$if(" ++ c ++ ", " ++ m ++ ")") :
    ∃ newline, s.Spells ifName
      (opening :: (g.first :: (g.more ++ [comma, g.body, closing.respaced g.blank newline]))) := by
  obtain ⟨newline, hclosing⟩ :=
    (starts_single (d := ')') g.body.operandAfter [] (by decide)).respaced g.isBlank
  refine ⟨newline, [], ?_, ?_, List.forall_mem_nil _⟩
  . rw [hs, String.toList_append, String.toList_append, String.toList_append, String.toList_append,
      g.condition, g.markup]
    simp [Word.chars, Word.respaced, g.gap, ifName, opening, comma, closing]
  . refine ⟨starts_ifName _ (isNeutral_cons (by decide)), starts_single _ _ (by decide), ?_⟩
    rw [← List.cons_append, Token.run_append]
    refine ⟨g.run_condition (isNeutral_cons (by decide)), starts_single _ _ (by decide),
      g.starts ?_, hclosing, trivial⟩
    rw [Token.charsOf_cons, Word.chars, Word.respaced, List.append_assoc, List.append_assoc]
    exact g.isNeutral_blank_append (isNeutral_cons (by decide))

/-! ### Parts -/

structure Parts (slot condition body : Snippet) : Prop where
  condition : condition.text = g.conditionText
  markup : body.text = g.bodyText
  file : body.file = slot.file

theorem opens?_body (pos : Nat) :
    (g.body.token pos).opens? = none ∧ (g.body.token pos).closes? = none := by
  have hkind : (g.body.token pos).kind ≠ .punct := by
    rw [Word.token, g.kind]
    simp
  rw [Token.opens?, Token.closes?, if_neg hkind, if_neg hkind]
  exact ⟨rfl, rfl⟩

theorem isPunct_body (pos : Nat) (value : String) :
    (Item.token (g.body.token pos)).isPunct value = false := by
  rw [Item.isPunct, Token.isPunct, Word.token, g.kind]
  rfl

theorem items_condition (gap : List Char) (newline : Bool) (pos : Nat) :
    ∃ items, Token.group (tokensAt pos (g.first.respaced gap newline :: g.more)) = .ok items ∧
      Item.flattenAll items = tokensAt pos (g.first.respaced gap newline :: g.more) ∧ items ≠ [] ∧
      ∀ item ∈ items, ∀ value ∈ weaker, item.isPunct value = false := by
  obtain ⟨items, hitems, hweaker⟩ := g.items gap newline pos
  have hflatten := Token.flattenAll_group hitems
  refine ⟨items, hitems, hflatten, ?_, hweaker⟩
  rintro rfl
  simp [Item.flattenAll, tokensAt] at hflatten

theorem items_append (gap : List Char) (newline : Bool) {tail : List Word}
    (htail : ∀ pos, ∀ t ∈ tokensAt pos tail, t.opens? = none ∧ t.closes? = none) :
    ∃ items, Token.group (tokensAt 0 (g.first.respaced gap newline :: (g.more ++ tail)))
        =
          .ok
            (items ++ (tokensAt (charsOf (g.first.respaced gap newline :: g.more)).length tail).map
              .token) ∧
      Item.flattenAll items = tokensAt 0 (g.first.respaced gap newline :: g.more) ∧ items ≠ [] ∧
      ∀ item ∈ items, ∀ value ∈ weaker, item.isPunct value = false := by
  obtain ⟨items, hitems, hrest⟩ := g.items_condition gap newline 0
  refine ⟨items, ?_, hrest⟩
  rw [← List.cons_append, Token.tokensAt_append, Nat.zero_add]
  exact Token.group_append hitems (htail _)

theorem unwrapped_append {tail : List Word}
    (htail : ∀ pos, ∀ t ∈ tokensAt pos tail, t.opens? = none ∧ t.closes? = none)
    (hne : tail ≠ []) : Unwrapped g.first (g.more ++ tail) := by
  intro gap newline
  obtain ⟨items, hgroup, _, hitems, _⟩ := g.items_append gap newline htail
  refine ⟨_, hgroup, ?_⟩
  intro opener inner closer h
  have hlength := congrArg List.length h
  have hfirst := List.length_pos_iff.mpr hitems
  have hlast := List.length_pos_iff.mpr hne
  simp only [List.length_append, List.length_map, Token.length_tokensAt,
    List.length_singleton] at hlength
  omega

theorem items_of_spells {tail : List Word} (hspells : s.Spells g.first (g.more ++ tail))
    (htail : ∀ pos, ∀ t ∈ tokensAt pos tail, t.opens? = none ∧ t.closes? = none) :
    ∃ items pos, s.strip.items = .ok (items ++ (tokensAt pos tail).map .token) ∧ items ≠ [] ∧
      (∀ item ∈ items, ∀ value ∈ weaker, item.isPunct value = false) ∧
      (s.strip.covering items).text = g.conditionText ∧
      ∀ pre w post, tail = pre ++ w :: post →
        (s.strip.covering [.token (w.token (pos + (charsOf pre).length))]).text =
          String.ofList w.text := by
  obtain ⟨newline, htext, hrun⟩ := hspells.strip
  obtain ⟨items, hitems, hflatten, hne, hweaker⟩ :=
    g.items_append (Text.dropBlank g.first.gap) newline htail
  rw [← items_of_run htext hrun] at hitems
  generalize hfirst :
    g.first.respaced (Text.dropBlank g.first.gap) newline = first at htext hrun hflatten hitems
  rw [← List.cons_append] at htext hrun
  refine ⟨items, _, hitems, hne, hweaker, ?_, ?_⟩
  . have hparts : s.strip.text.toList =
        charsOf [] ++ (charsOf (first :: g.more) ++ charsOf tail) := by
      rw [htext, Token.charsOf_append]
      rfl
    have hcondition := (Token.run_append.mp hrun).1
    rw [List.append_nil] at hcondition
    rw [text_covering hparts hcondition hflatten, ← hfirst]
    rfl
  . rintro pre w post rfl
    rw [← List.append_assoc] at htext hrun
    apply text_word htext hrun
    rw [Token.charsOf_append, List.length_append]

theorem recognised_and (hs : s.text = c ++ " && " ++ m) :
    s.stripParens = .ok s.strip ∧ s.strip.text ≠ "" ∧ s.strip.call? = .ok none ∧
      s.strip.markup? = .ok none ∧
      s.strip.splitTernary? = .ok none ∧
      ∃ condition body, s.strip.splitAnd? = .ok (some (condition, body)) ∧
        g.Parts s condition body := by
  have hspells := g.spells_and hs
  have htail : ∀ pos, ∀ t ∈ tokensAt pos [amp, g.body], t.opens? = none ∧ t.closes? = none := by
    intro pos
    simp only [tokensAt, List.forall_mem_cons]
    exact ⟨⟨rfl, rfl⟩, g.opens?_body _, List.forall_mem_nil _⟩
  have hwords := g.unwrapped_append htail (List.cons_ne_nil _ _)
  obtain ⟨items, pos, hitems, hne, hweaker, hcondition, htexts⟩ := g.items_of_spells hspells htail
  have hamp : ∀ value ∈ weaker, (Item.token (amp.token pos)).isPunct value = false := by
    simp only [weaker, List.forall_mem_cons]
    exact ⟨rfl, rfl, rfl, rfl, List.forall_mem_nil _⟩
  have hall : ∀ item ∈ items ++ (tokensAt pos [amp, g.body]).map .token, ∀ value ∈ weaker,
      item.isPunct value = false := by
    simp only [tokensAt, List.map_cons, List.forall_mem_append, List.forall_mem_cons]
    exact ⟨hweaker, hamp, fun value _ => g.isPunct_body _ value, List.forall_mem_nil _⟩
  refine ⟨stripParens_eq hspells hwords, hspells.strip_ne, ?_,
    markup?_strip hspells hwords (by simp), ?_, _, _,
    splitAnd?_eq_some hitems hne rfl (g.isPunct_body _ _) hall, hcondition,
    htexts [amp] g.body [] rfl, ?_⟩
  . exact call?_eq_none hitems (by simp [tokensAt])
  . exact splitTernary?_eq_none hitems fun item hmem => hall item hmem "?" (by decide)
  . rw [file_covering, file_strip]

theorem recognised_ternary (hs : s.text = c ++ " ? " ++ m ++ " : null") :
    s.stripParens = .ok s.strip ∧ s.strip.text ≠ "" ∧ s.strip.call? = .ok none ∧
      s.strip.markup? = .ok none ∧
      ∃ condition body other, s.strip.splitTernary? = .ok (some (condition, body, other)) ∧
        g.Parts s condition body ∧
        other.text = "null" := by
  obtain ⟨newline, hspells⟩ := g.spells_ternary hs
  have htail : ∀ pos,
      ∀ t ∈ tokensAt pos [query, g.body, colon.respaced (g.blank ++ [' ']) newline, null],
      t.opens? = none ∧ t.closes? = none := by
    intro pos
    simp only [tokensAt, List.forall_mem_cons]
    exact ⟨⟨rfl, rfl⟩, g.opens?_body _, ⟨rfl, rfl⟩, ⟨rfl, rfl⟩, List.forall_mem_nil _⟩
  have hwords := g.unwrapped_append htail (List.cons_ne_nil _ _)
  obtain ⟨items, pos, hitems, hne, hweaker, hcondition, htexts⟩ := g.items_of_spells hspells htail
  refine ⟨stripParens_eq hspells hwords, hspells.strip_ne, ?_,
    markup?_strip hspells hwords (by simp), _, _, _,
    splitTernary?_eq_some hitems hne
      (fun item hmem => hweaker item hmem "?" (by decide)) rfl (g.isPunct_body _ _)
      (g.isPunct_body _ _) rfl rfl, ⟨hcondition, htexts [query] g.body _ rfl, ?_⟩, ?_⟩
  . exact call?_eq_none hitems (by simp [tokensAt])
  . rw [file_covering, file_strip]
  . have hnull := htexts [query, g.body, colon.respaced (g.blank ++ [' ']) newline] null [] rfl
    rw [Token.charsOf_cons, Token.charsOf_cons, Token.charsOf_cons, Token.charsOf_nil,
      List.append_nil, List.length_append,
      List.length_append, ← Nat.add_assoc, ← Nat.add_assoc] at hnull
    exact hnull

theorem items_arguments (pos pos' : Nat) :
    ∃ items, Token.group (tokensAt pos (g.first :: g.more) ++ tokensAt pos' [comma, g.body])
        = .ok (items ++ (tokensAt pos' [comma, g.body]).map .token) ∧
      Item.flattenAll items = tokensAt pos (g.first :: g.more) ∧ items ≠ [] ∧
      ∀ item ∈ items, ∀ value ∈ weaker, item.isPunct value = false := by
  obtain ⟨items, hitems, hrest⟩ := g.items_condition g.first.gap g.first.newline pos
  refine ⟨items, Token.group_append hitems ?_, hrest⟩
  simp only [tokensAt, List.forall_mem_cons]
  exact ⟨⟨rfl, rfl⟩, g.opens?_body _, List.forall_mem_nil _⟩

theorem tokens_call (name close : Word) :
    tokensAt 0 (name :: opening :: (g.first :: (g.more ++ [comma, g.body, close])))
      =
    name.token 0 :: opening.token name.chars.length ::
      ((tokensAt (charsOf [name, opening]).length (g.first :: g.more) ++
        tokensAt (charsOf (name :: opening :: (g.first :: g.more))).length [comma, g.body]) ++
        [close.token
          (charsOf (name :: opening :: (g.first :: (g.more ++ [comma, g.body])))).length]) := by
  have hwords : name :: opening :: (g.first :: (g.more ++ [comma, g.body, close]))
      = [name, opening] ++ ((g.first :: g.more) ++ ([comma, g.body] ++ [close])) := by simp
  rw [hwords, Token.tokensAt_append, Token.tokensAt_append, Token.tokensAt_append]
  simp [tokensAt, Nat.add_assoc]

theorem items_call (gap blank : List Char) (newline newline' : Bool) :
    ∃ items closer,
      Token.group (tokensAt 0 (ifName.respaced gap newline ::
          opening :: (g.first :: (g.more ++ [comma, g.body, closing.respaced blank newline']))))
        = .ok [.token ((ifName.respaced gap newline).token 0),
          .group .paren (opening.token (ifName.respaced gap newline).chars.length)
            (items ++ (tokensAt
              (charsOf (ifName.respaced gap newline :: opening :: (g.first :: g.more))).length
              [comma, g.body]).map .token) closer] ∧
      Item.flattenAll items = tokensAt (charsOf [ifName.respaced gap newline, opening]).length
        (g.first :: g.more) ∧ items ≠ [] ∧
      ∀ item ∈ items, ∀ value ∈ weaker, item.isPunct value = false := by
  obtain ⟨items, harguments, hrest⟩ :=
    g.items_arguments (charsOf [ifName.respaced gap newline, opening]).length
    (charsOf (ifName.respaced gap newline :: opening :: (g.first :: g.more))).length
  rw [g.tokens_call]
  exact ⟨items, _, Token.group_call harguments ⟨rfl, rfl⟩ rfl rfl rfl, hrest⟩

theorem recognised_call (hs : s.text = "$if(" ++ c ++ ", " ++ m ++ ")") :
    ∃ condition body, s.chainCall? = .ok (some ⟨"$if", [condition, body], s.strip⟩) ∧
      g.Parts s condition body := by
  obtain ⟨newline', hspells⟩ := g.spells_call hs
  have hwords : Unwrapped ifName
      (opening :: (g.first :: (g.more ++ [comma, g.body, closing.respaced g.blank newline']))) := by
    intro gap newline
    obtain ⟨items, closer, hitems, _⟩ := g.items_call gap g.blank newline newline'
    exact ⟨_, hitems, nofun⟩
  obtain ⟨newline, htext, hrun⟩ := hspells.strip
  obtain ⟨items, closer, hitems, hflatten, hne, hweaker⟩ :=
    g.items_call (Text.dropBlank ifName.gap) g.blank newline newline'
  rw [← items_of_run htext hrun] at hitems
  have hcall := call?_eq_some hitems rfl hne
    (fun item hmem => hweaker item hmem "," (by decide)) rfl (g.isPunct_body _ _)
  have hcallee : Text.slice s.strip.text 0 3 = "$if" := by
    have hparts : s.strip.text.toList = [] ++ (['$', 'i', 'f'] ++ charsOf (opening :: _)) := htext
    rw [← String.toList_inj]
    exact Text.toList_slice hparts rfl rfl
  have htrim : Text.trim "$if" = "$if" := by decide
  generalize hname :
    ifName.respaced (Text.dropBlank ifName.gap) newline = name at htext hrun hflatten hcall
  have hstart : (opening.token name.chars.length).start = 3 := by
    rw [← hname]
    rfl
  rw [hstart, hcallee, htrim] at hcall
  have hchain := chainCall?_eq_some (stripParens_eq hspells hwords) hcall rfl
  refine ⟨_, _, hchain, ?_, ?_, ?_⟩
  . have hcondition := hrun.2.2
    rw [← List.cons_append, Token.run_append, List.append_nil] at hcondition
    have hparts : s.strip.text.toList = charsOf [name, opening] ++ (charsOf (g.first :: g.more) ++
        charsOf [comma, g.body, closing.respaced g.blank newline']) := by
      rw [htext]
      simp
    exact text_covering hparts hcondition.1 hflatten
  . have hwords : name :: opening ::
        (g.first :: (g.more ++ [comma, g.body, closing.respaced g.blank newline']))
        = (name :: opening :: (g.first :: (g.more ++ [comma]))) ++ g.body ::
          [closing.respaced g.blank newline'] := by simp
    rw [hwords] at htext hrun
    refine text_word htext hrun ?_
    simp
    omega
  . rw [file_covering, file_strip]

/-! ### The parts by themselves -/

theorem slice_condition : Text.slice c (g.first.token 0).start c.length = g.conditionText := by
  have hparts : c.toList = g.first.gap ++ (charsOf (g.first.bare :: g.more) ++ []) := by
    rw [g.condition]
    simp [Word.chars, Word.bare]
  rw [← String.toList_inj, conditionText, String.toList_ofList]
  apply Text.toList_slice hparts
  . exact Nat.zero_add _
  . rw [← String.length_toList, g.condition]
    simp [Word.chars, Word.bare, Word.token]

theorem balanced_condition : Token.Balanced g.conditionText.toList := by
  obtain ⟨items, hitems, _⟩ := g.items [] false 0
  have hrun : Run true (g.first.bare :: g.more) [] := ⟨g.run.1.bare, g.run.2⟩
  rw [conditionText, String.toList_ofList]
  exact balanced_of_group hrun hitems

theorem run_body (h : ∀ d, next.head? = some d → isNeutral d = true) :
    Run true [g.body.bare] next :=
  ⟨(g.starts h).bare, trivial⟩

theorem charsOf_body : charsOf [g.body.bare] = g.body.text := by
  simp [Word.chars, Word.bare]

theorem trim_markup : Text.trim m = g.bodyText := by
  have htext : m.toList = charsOf [g.body.bare] ++ g.blank := by rw [charsOf_body, g.markup]
  obtain ⟨newline, htrim, _⟩ := (g.run_body g.isNeutral_blank).trim g.isBlank htext
  rw [← String.toList_inj, htrim, bodyText, String.toList_ofList]
  exact g.charsOf_body

theorem length_body : g.bodyText.length ≤ m.length := by
  rw [bodyText, String.length_ofList, ← String.length_toList, g.markup, List.length_append]
  exact Nat.le_add_right _ _

theorem spells_body (hs : s.text = g.bodyText) : s.Spells g.body.bare [] := by
  refine ⟨[], ?_, g.run_body (by simp), List.forall_mem_nil _⟩
  rw [hs, bodyText, String.toList_ofList, charsOf_body, List.append_nil]

theorem kind_body : g.body.bare.kind ≠ .punct := by
  change g.body.kind ≠ .punct
  rw [g.kind]
  decide

theorem balanced_body : Token.Balanced g.bodyText.toList := by
  have hbalanced := balanced_of_group (g.run_body (by simp)) (group_word _ g.kind_body 0)
  rw [bodyText, String.toList_ofList, ← charsOf_body]
  exact hbalanced

theorem containsMarkup_body (hs : s.text = g.bodyText) : s.containsMarkup = .ok true := by
  have htext : s.text.toList = charsOf [g.body.bare] := by
    rw [hs, bodyText, String.toList_ofList, charsOf_body]
  rw [containsMarkup, Token.scan_of_run (g.run_body (by simp)) htext, ok_bind]
  have hkind : (g.body.bare.token 0).kind = .markup := g.kind
  simp [tokensAt, hkind, pure, Except.pure]

theorem isEmptyBranch_body (hs : s.text = g.bodyText) : s.isEmptyBranch = .ok false := by
  have hspells := g.spells_body hs
  obtain ⟨newline, htext, _⟩ := hspells.strip
  have hhead : s.strip.text.toList.head? = some '<' := by
    have hgap : Text.dropBlank g.body.bare.gap = [] := rfl
    rw [htext, hgap, Token.charsOf_cons, Token.charsOf_nil, List.append_nil]
    exact g.head
  have hall : ∀ empty ∈ ["null", "undefined", "false", "''", "\"\""],
      empty.toList.head? ≠ some '<' := by decide
  have hnone : ["null", "undefined", "false", "''", "\"\""].contains s.strip.text = false := by
    rw [← Bool.not_eq_true, List.contains_iff_mem]
    intro hmem
    exact hall _ hmem hhead
  rw [isEmptyBranch_word hspells g.kind_body, hnone]

theorem arrow?_body (hs : s.text = g.bodyText) : s.strip.arrow? = .ok none := by
  obtain ⟨token, hitems, _⟩ := items_word (g.spells_body hs) g.kind_body
  rw [arrow?, hitems]
  rfl

theorem chainCall?_body (hs : s.text = g.bodyText) : s.chainCall? = .ok none := by
  have hspells := g.spells_body hs
  obtain ⟨token, hitems, _⟩ := items_word hspells g.kind_body
  exact chainCall?_eq_none (stripParens_word hspells g.kind_body)
    (call?_eq_none hitems ⟨token, rfl⟩)

end Guarded

theorem spells_null {s : Snippet} (hs : s.text = "null") : s.Spells Guarded.null.bare [] := by
  refine ⟨[], ?_, ⟨⟨rfl, 'n', ['u', 'l', 'l'], rfl, fun _ _ => rfl⟩, trivial⟩,
    List.forall_mem_nil _⟩
  rw [hs]
  rfl

theorem isEmptyBranch_null {s : Snippet} (hs : s.text = "null") : s.isEmptyBranch = .ok true := by
  rw [isEmptyBranch_word (spells_null hs) (by decide), text_strip, hs]
  decide

end Snippet
end ComponentCompiler
