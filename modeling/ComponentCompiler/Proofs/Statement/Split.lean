import ComponentCompiler.Proofs.Statement.Language
import ComponentCompiler.Proofs.Token.Range
import Mathlib.Data.List.Chain

/-!
This module contains what cutting a text into statements keeps. Every item but a semicolon is one
lexeme, an end stands after each statement and nowhere else, and every token of the text but a
semicolon between statements lies in exactly one statement.
-/

namespace ComponentCompiler

namespace Lexeme

variable {text : String} {items : List Item} {parts : List (Part text)}

def range (lexeme : Lexeme) : Nat × Nat :=
  (lexeme.start, lexeme.stop)

/-- What may follow a lexeme. An end stands right after a lexeme that is none. -/
def Follows (lexeme next : Lexeme) : Prop :=
  next.terminal = .eos → lexeme.terminal ≠ .eos ∧ next.range = (lexeme.stop, lexeme.stop)

/-- The lexemes are the items but for the semicolons, with an end after each statement. -/
structure Splits (items : List Item) (lexemes : List Lexeme) : Prop where
  ranges : (lexemes.filter (·.terminal != .eos)).map range =
    (items.filter (!·.isPunct ";")).map Item.range
  first : ∀ lexeme, lexemes.head? = some lexeme → lexeme.terminal ≠ .eos
  last : ∀ lexeme, lexemes.getLast? = some lexeme → lexeme.terminal = .eos
  follows : lexemes.IsChain Follows

theorem ranges_of_reads {lexemes : List Lexeme} (h : List.Forall₂ (Reads text) items lexemes) :
    items.map Item.range = lexemes.map range := by
  have hranges : List.Forall₂ (· = ·) (items.map Item.range) (lexemes.map range) := by
    rw [List.forall₂_map_left_iff, List.forall₂_map_right_iff]
    apply h.imp
    intro item lexeme h
    rw [Item.range, range, h.start, h.stop]
  rwa [List.forall₂_eq_eq_eq] at hranges

namespace Part

theorem head?_stream (part : Part text) : part.stream.head? = part.lexemes.head? := by
  rw [stream, List.head?_append_of_ne_nil _ part.lexemes_ne_nil]

theorem head?_terminal (part : Part text) (h : part.stream.head? = some lexeme) :
    lexeme.terminal ≠ .eos := by
  rw [head?_stream] at h
  exact part.terminal_ne_eos lexeme (List.mem_of_head? h)

theorem filter_stream (part : Part text) :
    part.stream.filter (·.terminal != .eos) = part.lexemes := by
  have hlexemes : part.lexemes.filter (·.terminal != .eos) = part.lexemes := by
    rw [List.filter_eq_self]
    intro lexeme hmem
    simpa using part.terminal_ne_eos lexeme hmem
  rw [stream, List.filter_append, hlexemes]
  simp [endOf]

theorem follows_stream (part : Part text) : part.stream.IsChain Follows := by
  refine List.IsChain.append ?_ (.singleton _) ?_
  . apply List.Pairwise.isChain
    apply List.pairwise_of_forall_mem_list
    intro lexeme _ next hnext heos
    exact absurd heos (part.terminal_ne_eos next hnext)
  . intro lexeme hlexeme next hnext _
    rw [List.getLast?_eq_some_getLast part.lexemes_ne_nil] at hlexeme
    cases hlexeme
    cases hnext
    exact ⟨part.terminal_ne_eos _ (List.getLast_mem _), rfl⟩

end Part

theorem streams_cons (part : Part text) (parts : List (Part text)) :
    streams (part :: parts) = part.stream ++ streams parts := rfl

theorem head?_streams (h : (streams parts).head? = some lexeme) : lexeme.terminal ≠ .eos := by
  cases parts with
  | nil => simp [streams] at h
  | cons part parts =>
    rw [streams_cons, List.head?_append_of_ne_nil _ (by simp [Part.stream])] at h
    exact part.head?_terminal h

theorem getLast?_streams (h : (streams parts).getLast? = some lexeme) : lexeme.terminal = .eos := by
  induction parts using List.reverseRecOn with
  | nil => simp [streams] at h
  | append_singleton parts part _ =>
    have hstreams : streams (parts ++ [part]) =
        streams parts ++ part.lexemes ++ [endOf part.last] := by
      simp [streams, Part.stream]
    rw [hstreams, List.getLast?_concat] at h
    cases h
    rfl

theorem filter_streams (parts : List (Part text)) :
    ((streams parts).filter (·.terminal != .eos)).map range =
    (parts.flatMap Part.items).map Item.range := by
  induction parts with
  | nil => rfl
  | cons part parts ih =>
    rw [streams_cons, List.filter_append, List.map_append, ih, part.filter_stream,
      List.flatMap_cons, List.map_append, ranges_of_reads part.reads]

theorem follows_streams (parts : List (Part text)) : (streams parts).IsChain Follows := by
  induction parts with
  | nil => exact .nil
  | cons part parts ih =>
    refine List.IsChain.append part.follows_stream ih ?_
    intro lexeme _ next hnext heos
    exact absurd heos (head?_streams hnext)

theorem Cut.splits {before : Option (Part text)} (h : Cut text before items parts) :
    Splits items (streams parts) where
  ranges := by rw [filter_streams, h.items_eq]
  first _ := head?_streams
  last _ := getLast?_streams
  follows := follows_streams parts

theorem Cut.flatten_ranges {before : Option (Part text)} (h : Cut text before items parts) :
    (parts.map fun part => part.items.map Item.range).flatten
      =
    (items.filter (!·.isPunct ";")).map Item.range := by
  rw [h.items_eq, List.map_flatMap, List.flatMap]

theorem Cut.sublist {part : Part text} {before : Option (Part text)}
    (h : Cut text before items parts) (hpart : part ∈ parts) : part.items.Sublist items := by
  have hparts : part.items.Sublist (parts.flatMap Part.items) :=
    List.sublist_flatten_of_mem (List.mem_map_of_mem hpart)
  rw [← h.items_eq] at hparts
  exact hparts.trans List.filter_sublist

theorem Cut.increasing {part : Part text} {before : Option (Part text)}
    (h : Cut text before items parts)
    (hitems : (Token.scan text >>= Token.group) = .ok items) (hpart : part ∈ parts) :
    Increasing (part.lexemes.map range) ∧ ∀ lexeme ∈ part.lexemes, lexeme.stop ≤ text.length := by
  obtain ⟨tokens, hscan, hgroup⟩ := bind_eq_ok.mp hitems
  have hflatten : (Item.flattenAll items).Sublist tokens := by
    rw [Token.flattenAll_group hgroup]
  obtain ⟨hincreasing, hstop⟩ := Item.increasing_of_sublist hscan hflatten
  constructor
  . rw [← ranges_of_reads part.reads]
    exact hincreasing.sublist ((h.sublist hpart).map _)
  . intro lexeme hlexeme
    obtain ⟨item, hitem, hreads⟩ := exists_left_of_forall₂ part.reads hlexeme
    rw [hreads.stop]
    exact hstop item ((h.sublist hpart).subset hitem)

theorem splits_at_semicolon (text : String) {items : List Item}
    (h : items = before ++ item :: after) (hitem : item.isPunct ";" = true) :
    ∃ first second, ofItems text items = first ++ second ∧ Splits before first ∧
      Splits after second := by
  obtain ⟨parts, hcut, hstreams⟩ := cut_ofItems text items
  rw [h] at hcut
  obtain ⟨first, second, rfl, hfirst, hsecond⟩ := hcut.at_semicolon hitem
  refine ⟨streams first, streams second, ?_, hfirst.splits, hsecond.splits⟩
  rw [hstreams]
  exact List.flatMap_append

end Lexeme

namespace Statement

open Lexeme (Part Cut Splits)

variable {text : String} {items : List Item} {statements : List Statement}

def range (statement : Statement) : Nat × Nat :=
  (statement.start, statement.stop)

/-- The last lexeme of a statement, found in its content. -/
def Body.last? : Body → Option Lexeme
  | .importing tokens => tokens.getLast?
  | .function f => some f.body
  | .variable v =>
    match v.initializer with
    | some value => value.getLast?
    | none => some (v.typeItems.getLastD v.binding)
  | .returning keyword tokens => some (tokens.getLastD keyword)
  | .expression tokens => tokens.getLast?
  | .defaultExpression tokens => tokens.getLast?
  | .passthrough tokens => tokens.getLast?

theorem getLast?_of_suffix (hne : tokens ≠ []) (h : tokens <:+ lexemes) :
    lexemes.getLast? = tokens.getLast? := by
  obtain ⟨before, rfl⟩ := h
  exact List.getLast?_append_of_ne_nil before hne

theorem IsFunction.suffix (h : IsFunction tokens f) : [f.body] <:+ tokens := by
  cases h with
  | @plain keyword body signature => exact ⟨keyword :: signature, rfl⟩
  | @async keyword word body signature => exact ⟨keyword :: word :: signature, rfl⟩

theorem IsVariable.last? (h : IsVariable tokens v) :
    tokens.getLast? = Body.last? (.variable v) := by
  cases h with
  | @declared keyword binding typeItems =>
    rw [Body.last?, List.getLastD_eq_getLast?, ← List.getLast?_cons]
    exact getLast?_of_suffix (by simp) (List.suffix_cons _ _)
  | @assigned keyword binding word typeItems value _ _ _ _ hvalue =>
    exact getLast?_of_suffix hvalue.1 ⟨keyword :: binding :: (typeItems ++ [word]), by simp⟩

theorem Shape.last? {isExported isDefault : Bool} (h : Shape lexemes content isExported isDefault) :
    lexemes.getLast? = content.last? := by
  cases h with
  | importing _ h => exact getLast?_of_suffix h.1 (List.suffix_cons _ _)
  | @defaultFunction word keyword tokens f _ _ h =>
    exact getLast?_of_suffix (by simp) (h.suffix.trans ⟨[word, keyword], rfl⟩)
  | @defaultExpression word keyword tokens _ _ h =>
    exact getLast?_of_suffix h.1 ⟨[word, keyword], rfl⟩
  | exportedFunction _ h =>
    exact getLast?_of_suffix (by simp) (h.suffix.trans (List.suffix_cons _ _))
  | @exportedVariable word tokens v _ h =>
    have hne : tokens ≠ [] := by cases h <;> simp
    rw [← h.last?]
    exact getLast?_of_suffix hne (List.suffix_cons _ _)
  | passthrough _ h => exact getLast?_of_suffix h.1 (List.suffix_cons _ _)
  | plainFunction h => exact getLast?_of_suffix (by simp) h.suffix
  | plainVariable h => exact h.last?
  | returning => rw [Body.last?, List.getLastD_eq_getLast?, ← List.getLast?_cons]
  | expression => rfl

theorem IsStatement.isHull {part : Part text} (h : IsStatement (ofPart part) statement) :
    IsHull (part.items.map Item.range) statement.range := by
  rw [Lexeme.ranges_of_reads part.reads]
  constructor
  . rw [List.head?_map, Option.map_map]
    exact h.start
  . rw [List.getLast?_map, List.getLast?_eq_some_getLast part.lexemes_ne_nil, range, h.stop]
    rfl

theorem IsStatement.last_stop {part : Part text} (h : IsStatement (ofPart part) statement) :
    statement.body.last?.map Lexeme.stop = some statement.stop := by
  have hlast : part.lexemes.getLast? = statement.body.last? := h.shape.last?
  rw [← hlast, List.getLast?_eq_some_getLast part.lexemes_ne_nil, h.stop]
  rfl

theorem forall₂_isHull {parts : List (Part text)}
    (h : List.Forall₂ IsStatement (parts.map ofPart) statements) :
    List.Forall₂ IsHull (parts.map fun part => part.items.map Item.range)
      (statements.map range) := by
  rw [List.forall₂_map_left_iff] at h ⊢
  rw [List.forall₂_map_right_iff]
  exact h.imp fun _ _ => IsStatement.isHull

theorem mem_item_of_mem {tokens : List Token} (hgroup : Token.group tokens = .ok items)
    (ht : t ∈ tokens) (hsemicolon : ¬ (Item.token t ∈ items ∧ t.isPunct ";" = true)) :
    ∃ item ∈ items, item.isPunct ";" = false ∧ t ∈ item.flatten := by
  rw [← Token.flattenAll_group hgroup, Item.flattenAll_eq, List.mem_flatMap] at ht
  obtain ⟨item, hitem, ht⟩ := ht
  refine ⟨item, hitem, ?_, ht⟩
  cases item with
  | group => rfl
  | token other =>
    rw [Item.flatten, List.mem_singleton] at ht
    rw [← ht] at hitem ⊢
    exact Bool.eq_false_iff.mpr fun h => hsemicolon ⟨hitem, h⟩

/-- Cutting a text into statements keeps all of it. Its lexemes are its items but for the
semicolons, with an end after each statement and at each semicolon, and its statements follow one
another so that each token, but for a semicolon outside every bracket, lies in exactly one of
them. -/
theorem parse_covers {text : String} {tokens : List Token} {items : List Item}
    (hscan : Token.scan text = .ok tokens) (hgroup : Token.group tokens = .ok items)
    (file : String) :
    Splits items (Lexeme.ofItems text items) ∧
    (∀ before item after, items = before ++ item :: after → item.isPunct ";" = true →
      ∃ first second, Lexeme.ofItems text items = first ++ second ∧ Splits before first ∧
        Splits after second) ∧
    ∀ statements, parse text file = .ok statements →
      Increasing (statements.map range) ∧
      (∀ statement ∈ statements, statement.body.last?.map Lexeme.stop = some statement.stop) ∧
      ∀ t ∈ tokens, ¬ (Item.token t ∈ items ∧ t.isPunct ";" = true) →
        ∃! i : Nat, ∃ r, (statements.map range)[i]? = some r ∧ Within t.range r := by
  obtain ⟨parts, hcut, hstreams⟩ := Lexeme.cut_ofItems text items
  refine ⟨?_, fun _ _ _ => Lexeme.splits_at_semicolon text, ?_⟩
  . rw [hstreams]
    exact hcut.splits
  intro statements hparse
  have hread := isStatement_of_parse (by rw [hscan, ok_bind, hgroup]) hparse
  rw [hstreams, segments_streams] at hread
  have htokens : Increasing ((Item.flattenAll items).map Token.range) := by
    rw [Token.flattenAll_group hgroup]
    exact Token.increasing_of_scan hscan
  have hparts : Increasing (parts.map fun part => part.items.map Item.range).flatten := by
    rw [hcut.flatten_ranges]
    exact (Item.increasing_of_flattenAll htokens).sublist (List.filter_sublist.map _)
  have hstatements := hparts.join (forall₂_isHull hread)
  refine ⟨hstatements, ?_, ?_⟩
  . intro statement hmem
    obtain ⟨segment, hsegment, hstatement⟩ := exists_left_of_forall₂ hread hmem
    obtain ⟨part, _, rfl⟩ := List.mem_map.mp hsegment
    exact hstatement.last_stop
  . intro t ht hsemicolon
    obtain ⟨item, hitem, hpunct, hflatten⟩ := mem_item_of_mem hgroup ht hsemicolon
    have hrange : item.range ∈ (parts.map fun part => part.items.map Item.range).flatten := by
      rw [hcut.flatten_ranges]
      exact List.mem_map_of_mem (List.mem_filter.mpr ⟨hitem, by simp [hpunct]⟩)
    obtain ⟨hull, hmem, hwithin⟩ := hparts.exists_hull (forall₂_isHull hread) hrange
    have hnonempty := (Token.increasing_of_scan hscan).nonempty t.range (List.mem_map_of_mem ht)
    exact hstatements.exists_unique hnonempty hmem
      ((Item.within_of_mem_flatten htokens hitem hflatten).trans hwithin)

/-- Semicolons inside and outside of brackets, a function that another statement follows on its
line, and a line break inside a statement. -/
theorem parse_covers_semicolons :
    let text := "let a = 1;; for (;;) \x7b f(); \x7d\nfunction g() \x7b\x7d return x\n  + y"
    ∃ tokens items statements, Token.scan text = .ok tokens ∧ Token.group tokens = .ok items ∧
      parse text "A.tsx" = .ok statements ∧ statements.length = 4 ∧
      Splits items (Lexeme.ofItems text items) ∧ Increasing (statements.map range) ∧
      ∀ t ∈ tokens, ¬ (Item.token t ∈ items ∧ t.isPunct ";" = true) →
        ∃! i : Nat, ∃ r, (statements.map range)[i]? = some r ∧ Within t.range r := by
  intro text
  have hlength : ((parse text "A.tsx").map List.length).toOption = some 4 := by decide +kernel
  cases hparse : parse text "A.tsx" with
  | error failure => simp [hparse, Except.map, Except.toOption] at hlength
  | ok statements =>
    obtain ⟨items, hitems⟩ := items_of_parse hparse
    obtain ⟨tokens, hscan, hgroup⟩ := bind_eq_ok.mp hitems
    obtain ⟨hsplits, _, hcovers⟩ := parse_covers hscan hgroup "A.tsx"
    obtain ⟨hincreasing, _, hunique⟩ := hcovers statements hparse
    refine ⟨tokens, items, statements, hscan, hgroup, rfl, ?_, hsplits, hincreasing, hunique⟩
    simpa [hparse, Except.map, Except.toOption] using hlength

end Statement
end ComponentCompiler
