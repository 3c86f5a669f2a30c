import ComponentCompiler.Proofs.Builder.Content
import ComponentCompiler.Proofs.Builder.Derived
import ComponentCompiler.Proofs.Builder.Source
import ComponentCompiler.Proofs.Compilation
import ComponentCompiler.Proofs.Output.Layout

/-!
This module contains that the imports of a generated module bind what its code needs: all names that
the document imports, and those of the runtime. A call in the document's own code counts if its name
stands apart and nothing but white space is between the name and the arguments.
-/

namespace ComponentCompiler

/-- A declaration that imports nothing but names of the runtime. -/
structure Import.IsNamed (d : Import) : Prop where
  module : d.module = Output.runtimeModule
  nonempty : d.specifiers ≠ []
  named : ∀ s ∈ d.specifiers, s.imported ≠ "default" ∧ s.imported ≠ "*"

/-- An entry of an import that binds what the specifier does. -/
def Import.Specifier.Names (s : Import.Specifier) (entry : String) : Prop :=
  (s.imported = s.localName ∧ entry = s.localName) ∨
    (s.imported ≠ s.localName ∧ entry = s.imported ++ " as " ++ s.localName)

namespace Output

/-! ### Calls -/

/-- A name that follows these characters is neither the rest of a word nor a member. -/
def StandsApart (before : List Char) : Prop :=
  ∀ c ∈ before.getLast?, Text.isWord c = false ∧ c ≠ '$' ∧ c ≠ '.'

/-- White space, and then arguments or type arguments. -/
def OpensArguments (cs : List Char) : Prop :=
  ∃ blank bracket after, cs = blank ++ bracket :: after ∧ (∀ c ∈ blank, Text.isBlank c = true) ∧
    (bracket = '(' ∨ bracket = '<')

def CalledIn (name text : List Char) : Prop :=
  ∃ before after, text = before ++ (name ++ after) ∧ StandsApart before ∧ OpensArguments after

variable {name cs before pre part : List Char}

theorem startsAfter_iff : startsAfter before.getLast? = true ↔ StandsApart before := by
  unfold StandsApart
  cases before.getLast? with
  | none => simp [startsAfter]
  | some c => simp [startsAfter, and_assoc]

theorem opensCall_iff : opensCall cs = true ↔ OpensArguments cs := by
  constructor
  . intro h
    have hcs : cs = cs.takeWhile Text.isBlank ++ Text.dropBlank cs :=
      List.takeWhile_append_dropWhile.symm
    have hblank : ∀ c ∈ cs.takeWhile Text.isBlank, Text.isBlank c = true :=
      fun c hc => List.mem_takeWhile_imp hc
    unfold opensCall at h
    split at h
    next after hopen => exact ⟨_, '<', after, hopen ▸ hcs, hblank, .inr rfl⟩
    next after hopen => exact ⟨_, '(', after, hopen ▸ hcs, hblank, .inl rfl⟩
    next => cases h
  . rintro ⟨blank, bracket, after, rfl, hblank, hbracket⟩
    rw [opensCall, Text.dropBlank, List.dropWhile_append_of_pos hblank]
    rcases hbracket with rfl | rfl
    . rfl
    . rfl

theorem callsAfter_iff (before : List Char) :
    callsAfter name before.getLast? cs = true
      ↔
    ∃ pre after, cs = pre ++ (name ++ after) ∧ StandsApart (before ++ pre) ∧
      OpensArguments after := by
  induction cs generalizing before with
  | nil =>
    constructor
    . intro h
      cases h
    . rintro ⟨pre, after, hcs, _, blank, bracket, rest, rfl, _⟩
      simp at hcs
  | cons c cs ih =>
    have hrest := ih (before ++ [c])
    rw [List.getLast?_concat] at hrest
    rw [callsAfter, Bool.or_eq_true, Bool.and_eq_true, Bool.and_eq_true, startsAfter_iff,
      opensCall_iff, hrest]
    constructor
    . rintro (⟨⟨hapart, hname⟩, hopens⟩ | ⟨pre, after, rfl, hapart, hopens⟩)
      . obtain ⟨after, hafter⟩ := List.isPrefixOf_iff_prefix.mp hname
        rw [← hafter, List.drop_left] at hopens
        exact ⟨[], after, hafter.symm, by rwa [List.append_nil], hopens⟩
      . exact ⟨c :: pre, after, rfl, by rwa [List.append_assoc] at hapart, hopens⟩
    . rintro ⟨pre, after, hcs, hapart, hopens⟩
      cases pre with
      | nil =>
        rw [List.nil_append] at hcs
        rw [hcs, List.drop_left]
        rw [List.append_nil] at hapart
        exact .inl ⟨⟨hapart, List.isPrefixOf_iff_prefix.mpr (List.prefix_append _ _)⟩, hopens⟩
      | cons d pre =>
        rw [List.cons_append, List.cons.injEq] at hcs
        obtain ⟨rfl, rfl⟩ := hcs
        refine .inr ⟨pre, after, rfl, ?_, hopens⟩
        rwa [List.append_assoc]

theorem calls_iff {name text : String} :
    calls name text = true ↔ CalledIn name.toList text.toList :=
  callsAfter_iff []

theorem standsApart_nil : StandsApart [] := by
  simp [StandsApart]

theorem StandsApart.append (hpre : StandsApart pre) (h : StandsApart before) :
    StandsApart (pre ++ before) := by
  intro c hc
  rw [List.getLast?_append] at hc
  cases hlast : before.getLast? with
  | none => exact hpre c (by rwa [hlast, Option.none_or] at hc)
  | some d => exact h c (by rwa [hlast, Option.some_or, ← hlast] at hc)

theorem CalledIn.within (h : CalledIn name part) (hpre : StandsApart pre) (post : List Char) :
    CalledIn name (pre ++ (part ++ post)) := by
  obtain ⟨before, after, rfl, hapart, blank, bracket, rest, rfl, hblank, hbracket⟩ := h
  refine ⟨pre ++ before, blank ++ bracket :: (rest ++ post), ?_, hpre.append hapart, ?_⟩
  . simp
  . exact ⟨blank, bracket, rest ++ post, rfl, hblank, hbracket⟩

theorem standsApart_concat (pre : List Char) (hc : Text.isBlank c = true) :
    StandsApart (pre ++ [c]) := by
  intro d hd
  rw [List.getLast?_concat, Option.mem_some_iff] at hd
  obtain ⟨hword, hdollar⟩ := Token.Reflow.isWord_of_isBlank hc
  rw [← hd]
  refine ⟨hword, hdollar, ?_⟩
  rintro rfl
  cases hc

theorem calledIn_intercalate {parts : List String} {text : String} (h : CalledIn name text.toList)
    (htext : text ∈ parts) :
    CalledIn name (String.intercalate "\n" parts).toList := by
  obtain ⟨first, more, rfl⟩ := List.append_of_mem htext
  cases first with
  | nil =>
    rw [List.nil_append, Writer.toList_intercalate_lines]
    exact h.within standsApart_nil _
  | cons line first =>
    rw [List.cons_append, Writer.toList_intercalate_lines, List.flatMap_append, List.flatMap_cons,
      List.cons_append]
    have hpre : StandsApart
        ((line.toList ++ first.flatMap fun line => '\n' :: line.toList) ++ ['\n']) :=
      standsApart_concat _ rfl
    have hwithin := h.within hpre (more.flatMap fun line => '\n' :: line.toList)
    simpa using hwithin

/-! ### Calls among tokens -/

/-- Among the tokens of a text, a function is called by its name: it is not the member of
anything. -/
structure IsCall (tokens : List Token) (name : String) (t opener : Token) : Prop where
  adjacent : ∃ first more, tokens = first ++ t :: opener :: more ∧
    ∀ u ∈ first.getLast?, u.value ≠ "." ∧ u.value ≠ "?."
  kind : t.kind = .name
  value : t.value = name
  opener : opener.value = "(" ∨ opener.value = "<"

/-- A call whose name does not follow a dot, as it does in `...f()`, and is not followed by a
comment. -/
structure IsPlain (text : String) (t opener : Token) : Prop where
  apart : StandsApart (text.toList.take t.start)
  blank : Text.allBlank (Text.slice text t.stop opener.start) = true

theorem IsCall.calledIn {text name : String} {tokens : List Token} {t opener : Token}
    (h : IsCall tokens name t opener)
    (hscan : Token.scan text = .ok tokens) (hplain : IsPlain text t opener) :
    CalledIn name.toList text.toList := by
  obtain ⟨ws, gap, _, _, htext, rfl, _⟩ := Token.words_of_scan hscan
  obtain ⟨first, more, htokens, _⟩ := h.adjacent
  obtain ⟨as, bs, rfl, _, hbs⟩ := Token.eq_append_of_tokensAt htokens
  obtain _ | ⟨w, _ | ⟨v, rest⟩⟩ := bs
  . simp [Token.tokensAt] at hbs
  . simp [Token.tokensAt] at hbs
  simp only [Token.tokensAt, List.cons.injEq] at hbs
  obtain ⟨rfl, rfl, _⟩ := hbs
  have hname : w.text = name.toList := by rw [← h.value, Token.Word.token, String.toList_ofList]
  obtain ⟨hapart, hblank⟩ := hplain
  -- The text is cut before the name, after it, and before what opens the arguments.
  have hbefore : text.toList =
      (Token.charsOf as ++ w.gap) ++ (w.text ++ (v.chars ++ (Token.charsOf rest ++ gap))) := by
    rw [htext]
    simp [Token.Word.chars]
  have hafter : text.toList =
      (Token.charsOf as ++ w.chars) ++ (v.gap ++ (v.text ++ (Token.charsOf rest ++ gap))) := by
    rw [htext]
    simp [Token.Word.chars]
  refine ⟨Token.charsOf as ++ w.gap, v.chars ++ (Token.charsOf rest ++ gap), hname ▸ hbefore,
    ?_, ?_⟩
  . have htake : text.toList.take (w.token (0 + (Token.charsOf as).length)).start =
        Token.charsOf as ++ w.gap := by
      rw [hbefore]
      apply List.take_left'
      simp [Token.Word.token]
    rwa [htake] at hapart
  . have hslice : (Text.slice text (w.token (0 + (Token.charsOf as).length)).stop
        (v.token (0 + (Token.charsOf as).length + w.chars.length)).start).toList = v.gap := by
      apply Text.toList_slice hafter
      . simp [Token.Word.token]
      . simp [Token.Word.token]
    rw [Text.allBlank, hslice, List.all_eq_true] at hblank
    have hopener : v.text = ['('] ∨ v.text = ['<'] := by
      rcases h.opener with hopener | hopener
      . exact .inl (by simpa [Token.Word.token] using congrArg String.toList hopener)
      . exact .inr (by simpa [Token.Word.token] using congrArg String.toList hopener)
    rcases hopener with hopener | hopener
    . exact ⟨v.gap, '(', _, by rw [Token.Word.chars, hopener, List.append_assoc]; rfl, hblank,
        .inl rfl⟩
    . exact ⟨v.gap, '<', _, by rw [Token.Word.chars, hopener, List.append_assoc]; rfl, hblank,
        .inr rfl⟩

/-! ### Entries -/

namespace Imports

variable {i : Imports} {d : Import} {entry : String} {isType : Bool}

/-- The merged names of values or those of types. -/
def merged (i : Imports) (isType : Bool) : List String :=
  if isType then i.types else i.values

theorem names_iff {s : Import.Specifier} : s.Names entry ↔ entry = specifierText s := by
  unfold Import.Specifier.Names specifierText
  split
  next h => simp [h]
  next h => simp [h, String.append_assoc, toString]

theorem mem_insertNew {name : String} {names : List String} :
    entry ∈ insertNew name names ↔ entry ∈ names ∨ entry = name := by
  unfold insertNew
  split
  next h =>
    rw [List.contains_iff_mem] at h
    constructor
    . exact .inl
    . rintro (hmem | rfl)
      . exact hmem
      . exact h
  next => simp

theorem nodup_insertNew {name : String} {names : List String} (h : names.Nodup) :
    (insertNew name names).Nodup := by
  unfold insertNew
  split
  next => exact h
  next hname =>
    rw [List.contains_iff_mem] at hname
    exact List.nodup_append'.mpr
      ⟨h, List.nodup_singleton name, by simpa [List.disjoint_singleton] using hname⟩

theorem merged_addSpecifier (s : Import.Specifier) :
    (i.addSpecifier s).merged isType
      =
    if s.isType = isType then insertNew (specifierText s) (i.merged isType)
      else i.merged isType := by
  unfold addSpecifier merged
  cases hs : s.isType with
  | true => cases isType <;> rfl
  | false => cases isType <;> rfl

theorem kept_addSpecifier (s : Import.Specifier) : (i.addSpecifier s).kept = i.kept := by
  unfold addSpecifier
  split
  . rfl
  . rfl

theorem foldl_addSpecifier (specifiers : List Import.Specifier) (isType : Bool) (entry : String) :
    (specifiers.foldl addSpecifier i).kept = i.kept ∧
      ((i.merged isType).Nodup → ((specifiers.foldl addSpecifier i).merged isType).Nodup) ∧
      (entry ∈ (specifiers.foldl addSpecifier i).merged isType
        ↔
      entry ∈ i.merged isType ∨ ∃ s ∈ specifiers, s.isType = isType ∧ s.Names entry) := by
  induction specifiers generalizing i with
  | nil => simp
  | cons s specifiers ih =>
    obtain ⟨hkept, hnodup, hmem⟩ := ih (i := i.addSpecifier s)
    rw [List.foldl_cons]
    rw [merged_addSpecifier] at hnodup hmem
    refine ⟨hkept.trans (kept_addSpecifier s), ?_, ?_⟩
    . intro h
      apply hnodup
      split
      . exact nodup_insertNew h
      . exact h
    . rw [hmem]
      by_cases hs : s.isType = isType
      . simp [hs, mem_insertNew, names_iff, or_assoc]
      . simp [hs]

theorem isMerged_iff : isMerged d = true ↔ d.IsNamed := by
  simp only [isMerged, Bool.and_eq_true, beq_iff_eq, Bool.not_eq_true', List.isEmpty_eq_false_iff,
    List.all_eq_true, bne_iff_ne, and_assoc]
  constructor
  . rintro ⟨hmodule, hne, hnamed⟩
    exact ⟨hmodule, hne, hnamed⟩
  . rintro ⟨hmodule, hne, hnamed⟩
    exact ⟨hmodule, hne, hnamed⟩

theorem not_isNamed_of_helper (h : d.module = helperModule) : ¬ d.IsNamed := by
  intro hnamed
  have hmodules := h.symm.trans hnamed.module
  revert hmodules
  decide

structure Adds (i i' : Imports) (d : Import) : Prop where
  merged : ∀ isType entry, entry ∈ i'.merged isType ↔
    entry ∈ i.merged isType ∨ d.IsNamed ∧ ∃ s ∈ d.specifiers, s.isType = isType ∧ s.Names entry
  kept : ∀ text, text ∈ i'.kept ↔ text ∈ i.kept ∨ d.module ≠ helperModule ∧ ¬ d.IsNamed ∧
    d.source = text
  nodup : ∀ isType, (i.merged isType).Nodup → (i'.merged isType).Nodup

theorem adds_add (i : Imports) (d : Import) : Adds i (i.add d) d := by
  unfold add
  split
  next hhelper =>
    have hnamed := not_isNamed_of_helper hhelper
    exact ⟨by simp [hnamed], by simp [hhelper], fun _ h => h⟩
  next hhelper =>
    split
    next hmerged =>
      have hnamed := isMerged_iff.mp hmerged
      refine ⟨?_, ?_, ?_⟩
      . intro isType entry
        rw [(foldl_addSpecifier d.specifiers isType entry).2.2]
        simp [hnamed]
      . intro text
        rw [(foldl_addSpecifier d.specifiers false text).1]
        simp [hnamed]
      . intro isType
        exact (foldl_addSpecifier d.specifiers isType "").2.1
    next hmerged =>
      have hnamed : ¬ d.IsNamed := fun h => hmerged (isMerged_iff.mpr h)
      refine ⟨?_, ?_, fun _ h => h⟩
      . intro isType entry
        simp [hnamed, merged]
      . intro text
        simp [hhelper, hnamed, eq_comm]

theorem addAll_spec (declarations : List Import) (i : Imports) :
    (∀ isType entry, entry ∈ (i.addAll declarations).merged isType ↔ entry ∈ i.merged isType ∨
      ∃ d ∈ declarations, d.IsNamed ∧ ∃ s ∈ d.specifiers, s.isType = isType ∧ s.Names entry) ∧
    (∀ text, text ∈ (i.addAll declarations).kept ↔ text ∈ i.kept ∨
      ∃ d ∈ declarations, d.module ≠ helperModule ∧ ¬ d.IsNamed ∧ d.source = text) ∧
    ∀ isType, (i.merged isType).Nodup → ((i.addAll declarations).merged isType).Nodup := by
  induction declarations generalizing i with
  | nil => simp [addAll]
  | cons d declarations ih =>
    obtain ⟨hmerged, hkept, hnodup⟩ := ih (i.add d)
    have hadds := adds_add i d
    refine ⟨?_, ?_, ?_⟩
    . intro isType entry
      refine (hmerged isType entry).trans ?_
      rw [hadds.merged, or_assoc, List.exists_mem_cons_iff]
    . intro text
      refine (hkept text).trans ?_
      rw [hadds.kept, or_assoc, List.exists_mem_cons_iff]
    . intro isType h
      exact hnodup isType (hadds.nodup isType h)

/-! ### Text -/

/-- The text of the imports: the merged names of values, those of types, and the declarations that
are kept. -/
def text (i : Imports) : String :=
  "import \x7b " ++ String.intercalate ", " i.values ++ " \x7d from 'auwla'\n" ++
    ("import type \x7b " ++ String.intercalate ", " i.types ++ " \x7d from 'auwla'\n" ++
      String.join (i.kept.map (· ++ "\n")))

end Imports

theorem intercalate_append (lines : List String) (h : more ≠ []) :
    String.intercalate "\n" (lines ++ more) =
      String.join (lines.map (· ++ "\n")) ++ String.intercalate "\n" more := by
  obtain ⟨next, more, rfl⟩ := List.exists_cons_of_ne_nil h
  induction lines with
  | nil => simp
  | cons line lines ih =>
    obtain ⟨second, rest, hsecond⟩ :=
      List.exists_cons_of_ne_nil (List.append_ne_nil_of_right_ne_nil lines h)
    rw [List.cons_append, hsecond, String.intercalate_cons_cons, ← hsecond, ih, List.map_cons,
      String.join_cons]
    simp [String.append_assoc]

theorem Imports.join_lines (i : Imports) : String.join (i.lines.map (· ++ "\n")) = i.text := by
  simp [Imports.lines, Imports.text, runtimeModule, Builder.commas, toString, String.append_assoc]

theorem exists_blank_lines (w : Writer) : ∃ more, w.blank.lines = w.lines ++ more := by
  unfold Writer.blank
  split
  . exact ⟨[], (List.append_nil _).symm⟩
  . exact ⟨[], (List.append_nil _).symm⟩
  . exact ⟨[""], rfl⟩

theorem mem_intercalate {line : String} {lines : List String} (h : line ∈ lines)
    (hc : c ∈ line.toList) : c ∈ (String.intercalate "\n" lines).toList := by
  obtain ⟨first, lines, rfl⟩ := List.exists_cons_of_ne_nil (List.ne_nil_of_mem h)
  rw [Writer.toList_intercalate_lines, List.mem_append, List.mem_flatMap]
  rcases List.mem_cons.mp h with rfl | h
  . exact .inl hc
  . exact .inr ⟨line, h, List.mem_cons_of_mem _ hc⟩

theorem trimEnd_append (first : String) {second : String} (hc : c ∈ second.toList)
    (hblank : Text.isBlank c = false) :
    Text.trimEnd (first ++ second) = first ++ Text.trimEnd second := by
  obtain ⟨before, after, hsecond⟩ := List.append_of_mem hc
  rw [Text.trimEnd, Text.trimEnd, String.toList_append, hsecond, ← List.append_assoc,
    Token.dropBlankEnd_append _ hblank, Token.dropBlankEnd_append _ hblank, List.append_assoc,
    String.ofList_append, String.ofList_toList]

theorem exists_text {l : Layout} (h : Layout.of doc views = .ok l) (declarations : List Import) :
    ∃ rest, l.text declarations = (l.imports declarations).text ++ rest := by
  obtain ⟨f, functions, hfunctions, _⟩ := List.map_eq_cons_iff.mp (isLayout_of h).components
  have hbrace : "\x7d" ∈ Writer.dense l.body.lines := by
    rw [l.writes_body.dense_eq]
    simp [Writer.dense, Layout.lines, Function.lines, hfunctions]
  obtain ⟨sep, hsep⟩ := exists_blank_lines (Writer.writeAll {} (l.imports declarations).lines)
  have hheader : (Writer.writeAll {} (l.imports declarations).lines).lines =
      (l.imports declarations).lines := by
    rw [Writer.writeAll]
    exact Writer.indentAll_zero _
  have hmem : "\x7d" ∈ sep ++ l.body.lines :=
    List.mem_append_right _ (List.mem_of_mem_filter hbrace)
  refine ⟨Text.trimEnd (String.intercalate "\n" (sep ++ l.body.lines)) ++ "\n", ?_⟩
  dsimp only [Layout.text, Writer.text]
  rw [hsep, hheader, List.append_assoc, intercalate_append _ (List.ne_nil_of_mem hmem),
    Imports.join_lines,
    trimEnd_append _ (mem_intercalate hmem (List.mem_singleton_self '\x7d')) rfl,
    String.append_assoc]

/-! ### Needs -/

open Builder (Code)

/-- The texts of the blocks that are part of the generated code, in the order in which they are
written. -/
def emitted (doc : Scope.Scoped) : List String :=
  doc.componentBlocks.map (if doc.placement = .pageFunction then Block.source else exportedText) ++
    (doc.uiBlocks ++ doc.secondary.flatMap (·.uiBlocks)).map (·.source)

/-- The markup of one of the components is lowered to code with this part. -/
def Lowers (doc : Scope.Scoped) (views : Views) (part : Code) : Prop :=
  ∃ component ∈ doc.main :: doc.secondary.map (·.component), ∃ view, viewOf views component =
    .ok view ∧
    part ∈ Code.partsAll (Builder.lowerAll view)

/-- A name of the runtime that the code relies on, as a type or as a value. -/
inductive Needed (doc : Scope.Scoped) (views : Views) : Bool → String → Prop where
  | component : Needed doc views false "Component"
  | builder : Needed doc views true "LayoutBuilder"
  | watch {part : Code} (h : Lowers doc views part) (hderived : part.derived ≠ []) :
    Needed doc views false "watch"
  | reference {part : Code} (h : Lowers doc views part) (hderived : part.derived ≠ []) :
    Needed doc views true "Ref"
  | link {config : List Builder.Entry} (h : Lowers doc views (.link config)) :
    Needed doc views false "Link"
  | called {name : String} (hname : name = "ref" ∨ name = "watch")
      (h : CalledIn name.toList (String.intercalate "\n" (emitted doc)).toList) :
    Needed doc views false name

variable {doc : Scope.Scoped} {views : Views} {layout : Layout}

theorem isDerived_eq_isSome (entry : Builder.Entry) : entry.isDerived = entry.derived?.isSome := by
  cases entry with
  | field _ value => cases value <;> rfl
  | spread _ => rfl
  | handlers _ => rfl

theorem any_isDerived_iff {config : List Builder.Entry} :
    config.any Builder.Entry.isDerived = true ↔ config.filterMap Builder.Entry.derived? ≠ [] := by
  simp [isDerived_eq_isSome, List.filterMap_eq_nil_iff, Option.isSome_iff_ne_none]

theorem isDerived_iff {part : Code} : part.isDerived = true ↔ part.derived ≠ [] := by
  cases part with
  | call _ config _ => exact any_isDerived_iff
  | component _ config => exact any_isDerived_iff
  | link config => exact any_isDerived_iff
  | native _ _ _ _ => simp [Code.isDerived, Code.derived]
  | reactive _ _ _ => simp [Code.isDerived, Code.derived]
  | loop head _ _ =>
    cases head with
    | native _ _ _ => simp [Code.isDerived, Code.derived]
    | keyed items _ _ _ =>
      cases items <;> simp [Code.isDerived, Code.derived, Builder.Value.isDerived,
        Builder.Value.derived?]

theorem flatMap_blocks_secondary {secondary : List Scope.Secondary} {others : List Function}
    (h : List.Forall₂ (fun s f => secondaryFunction views s = .ok f) secondary others) :
    others.flatMap Function.blocks = secondary.flatMap (·.uiBlocks) := by
  induction h with
  | nil => rfl
  | cons hf _ ih =>
    simp only [secondaryFunction, bind_eq_ok, pure_eq_ok] at hf
    obtain ⟨view, _, rfl⟩ := hf
    rw [List.flatMap_cons, List.flatMap_cons, ih]
    rfl

theorem sources_eq (h : Layout.of doc views = .ok layout) : layout.sources = emitted doc := by
  simp only [Layout.of, mainFunction, bind_eq_ok, pure_eq_ok, mapM_eq_ok] at h
  obtain ⟨_, ⟨view, _, rfl⟩, others, hothers, rfl⟩ := h
  rw [Layout.sources, List.flatMap_cons, flatMap_blocks_secondary hothers, emitted]
  by_cases hplacement : doc.placement = .pageFunction
  . simp [hplacement, Function.blocks]
  . simp [hplacement, Function.blocks]

theorem mem_parts_iff {part : Code} (h : IsLayout doc views layout) :
    part ∈ Code.partsAll (layout.functions.flatMap Function.code) ↔ Lowers doc views part := by
  rw [Builder.partsAll_eq_flatMap, List.flatMap_assoc, List.mem_flatMap, Lowers, ← h.components]
  constructor
  . rintro ⟨f, hf, hpart⟩
    refine ⟨f.component, List.mem_map_of_mem hf, f.view, h.views f hf, ?_⟩
    rwa [Builder.partsAll_eq_flatMap]
  . rintro ⟨component, hcomponent, view, hview, hpart⟩
    obtain ⟨f, hf, rfl⟩ := List.mem_map.mp hcomponent
    cases hview.symm.trans (h.views f hf)
    rw [Builder.partsAll_eq_flatMap] at hpart
    exact ⟨f, hf, hpart⟩

theorem mem_runtimeNames (h : IsLayout doc views layout) (name : String) :
    name ∈ layout.runtimeNames
      ↔
    (name = "Link" ∧ ∃ config, Lowers doc views (.link config)) ∨
      ((name = "Ref" ∨ name = "watch") ∧ ∃ part, Lowers doc views part ∧ part.derived ≠ []) := by
  have hlink : ((Code.partsAll (layout.functions.flatMap Function.code)).any Code.isLink = true)
      ↔ ∃ config, Lowers doc views (.link config) := by
    simp only [List.any_eq_true, mem_parts_iff h]
    constructor
    . rintro ⟨part, hpart, hisLink⟩
      cases part with
      | link config => exact ⟨config, hpart⟩
      | _ => cases hisLink
    . rintro ⟨config, hpart⟩
      exact ⟨_, hpart, rfl⟩
  have hderived :
      ((Code.partsAll (layout.functions.flatMap Function.code)).any Code.isDerived = true)
      ↔ ∃ part, Lowers doc views part ∧ part.derived ≠ [] := by
    simp only [List.any_eq_true, mem_parts_iff h, isDerived_iff]
  rw [Layout.runtimeNames, Code.runtimeNames, List.mem_append, ← hlink, ← hderived]
  simp only [List.mem_ite_nil_right, List.mem_cons, List.not_mem_nil, or_false, and_comm]

theorem mem_needed_values {entry source : String} {runtime : List String} :
    entry ∈ (Imports.needed runtime source).values
      ↔
    entry = "Component" ∨
      ((entry = "ref" ∨ entry = "watch") ∧ (entry ∈ runtime ∨ calls entry source = true)) ∨
      entry = "Link" ∧ entry ∈ runtime := by
  simp only [Imports.needed, List.cons_append, List.mem_cons, List.mem_append, List.mem_filter,
    List.not_mem_nil, or_false, Bool.or_eq_true, List.contains_iff_mem]

theorem mem_needed_types {entry source : String} {runtime : List String} :
    entry ∈ (Imports.needed runtime source).types ↔ entry = "LayoutBuilder" ∨ entry = "Ref" ∧
      entry ∈ runtime := by
  simp only [Imports.needed, List.mem_cons, List.mem_filter, List.not_mem_nil, or_false,
    List.contains_iff_mem]

theorem mem_needed {isType : Bool} {entry : String} (h : Layout.of doc views = .ok layout) :
    entry ∈ (Imports.needed layout.runtimeNames (String.intercalate "\n" layout.sources)).merged
      isType
      ↔
    Needed doc views isType entry := by
  have hruntime := mem_runtimeNames (isLayout_of h) entry
  rw [sources_eq h]
  cases isType with
  | false =>
    refine mem_needed_values.trans ?_
    rw [hruntime, calls_iff]
    constructor
    . rintro (rfl | ⟨hname, (⟨rfl, _⟩ | ⟨hderived, part, hpart, hne⟩) | hcalled⟩ | ⟨rfl, hlink⟩)
      . exact .component
      . simp at hname
      . obtain rfl : entry = "watch" := by
          rcases hname with rfl | rfl
          . simp at hderived
          . rfl
        exact .watch hpart hne
      . exact .called hname hcalled
      . rcases hlink with ⟨_, config, hlink⟩ | ⟨hname, _⟩
        . exact .link hlink
        . simp at hname
    . intro hneeded
      cases hneeded with
      | component => exact .inl rfl
      | watch hpart hne => exact .inr (.inl ⟨.inr rfl, .inl (.inr ⟨.inr rfl, _, hpart, hne⟩)⟩)
      | link hlink => exact .inr (.inr ⟨rfl, .inl ⟨rfl, _, hlink⟩⟩)
      | called hname hcalled => exact .inr (.inl ⟨hname, .inr hcalled⟩)
  | true =>
    refine mem_needed_types.trans ?_
    rw [hruntime]
    constructor
    . rintro (rfl | ⟨rfl, ⟨hname, _⟩ | ⟨_, part, hpart, hne⟩⟩)
      . exact .builder
      . simp at hname
      . exact .reference hpart hne
    . intro hneeded
      cases hneeded with
      | builder => exact .inl rfl
      | reference hpart hne => exact .inr ⟨rfl, .inr ⟨.inl rfl, _, hpart, hne⟩⟩

theorem nodup_needed (runtime : List String) (source : String) (isType : Bool) :
    ((Imports.needed runtime source).merged isType).Nodup := by
  cases isType with
  | false =>
    have hnames : ["Component", "ref", "watch", "Link"].Nodup := by decide
    refine hnames.sublist ?_
    exact (List.filter_sublist.append List.filter_sublist).cons_cons "Component"
  | true =>
    have hnames : ["LayoutBuilder", "Ref"].Nodup := by decide
    exact hnames.sublist (List.filter_sublist.cons_cons "LayoutBuilder")

theorem calledIn_emitted {name : List Char} {b : Block}
    (hb : b ∈ doc.componentBlocks ++ (doc.uiBlocks ++ doc.secondary.flatMap (·.uiBlocks)))
    (h : CalledIn name b.source.toList) :
    CalledIn name (String.intercalate "\n" (emitted doc)).toList := by
  have hexported : CalledIn name (exportedText b).toList := by
    unfold exportedText
    split
    . have hpre : StandsApart ("export".toList ++ [' ']) := standsApart_concat _ rfl
      have hwithin := h.within hpre []
      simpa using hwithin
    . exact h
  rcases List.mem_append.mp hb with hb | hb
  . by_cases hplacement : doc.placement = .pageFunction
    . exact calledIn_intercalate h (by simpa [emitted, hplacement] using .inl ⟨b, hb, rfl⟩)
    . exact calledIn_intercalate hexported (by simpa [emitted, hplacement] using .inl ⟨b, hb, rfl⟩)
  . exact calledIn_intercalate h (List.mem_append_right _ (List.mem_map_of_mem hb))

/-- The imports of a document's module: they bind every name that the document imports, and every
name of the runtime that is needed, once. -/
structure Binds (doc : Scope.Scoped) (views : Views) (i : Imports) : Prop where
  specifiers : ∀ d ∈ doc.imports, d.module ≠ helperModule → ∀ s ∈ d.specifiers,
    d.source ∈ i.kept ∨ d.module = runtimeModule ∧ ∃ entry ∈ i.merged s.isType, s.Names entry
  merged : ∀ isType entry, entry ∈ i.merged isType ↔ Needed doc views isType entry ∨
    ∃ d ∈ doc.imports, d.IsNamed ∧ ∃ s ∈ d.specifiers, s.isType = isType ∧ s.Names entry
  kept : ∀ text, text ∈ i.kept ↔ ∃ d ∈ doc.imports, d.module ≠ helperModule ∧ ¬ d.IsNamed ∧
    d.source = text
  nodup : ∀ isType, (i.merged isType).Nodup
  called : ∀ name, name = "ref" ∨ name = "watch" →
    ∀ b ∈ doc.componentBlocks ++ (doc.uiBlocks ++ doc.secondary.flatMap (·.uiBlocks)),
    ∀ tokens t opener,
      Token.scan b.source = .ok tokens → IsCall tokens name t opener → IsPlain b.source t opener →
      name ∈ i.values

theorem binds_imports (h : Layout.of doc views = .ok layout) :
    Binds doc views (layout.imports doc.imports) := by
  obtain ⟨hmerged, hkept, hnodup⟩ := Imports.addAll_spec doc.imports
    (Imports.needed layout.runtimeNames (String.intercalate "\n" layout.sources))
  replace hmerged (isType : Bool) (entry : String) :=
    (hmerged isType entry).trans (or_congr_left (mem_needed h))
  replace hkept (text : String) := (hkept text).trans (or_iff_right List.not_mem_nil)
  refine ⟨?_, hmerged, hkept, ?_, ?_⟩
  . intro d hd hhelper s hs
    by_cases hnamed : d.IsNamed
    . have hentry : s.Names (Imports.specifierText s) := Imports.names_iff.mpr rfl
      exact .inr ⟨hnamed.module, _,
        (hmerged s.isType _).mpr (.inr ⟨d, hd, hnamed, s, hs, rfl, hentry⟩), hentry⟩
    . exact .inl ((hkept d.source).mpr ⟨d, hd, hhelper, hnamed, rfl⟩)
  . intro isType
    exact hnodup isType (nodup_needed _ _ isType)
  . intro name hname b hb tokens t opener hscan hcall hplain
    have hcalled := calledIn_emitted hb (hcall.calledIn hscan hplain)
    exact (hmerged false name).mpr (.inl (.called hname hcalled))

theorem exists_layout_of
    (h : ∀ component ∈ doc.main :: doc.secondary.map (·.component),
      (views.lookup component.name).isSome = true) :
    ∃ layout, Layout.of doc views = .ok layout := by
  have hview : ∀ component ∈ doc.main :: doc.secondary.map (·.component), ∃ view,
      viewOf views component = .ok view := by
    intro component hcomponent
    obtain ⟨analysed, hlookup⟩ := Option.isSome_iff_exists.mp (h component hcomponent)
    exact ⟨analysed.root, viewOf_eq_ok.mpr ⟨analysed, hlookup, rfl⟩⟩
  rw [List.forall_mem_cons, List.forall_mem_map] at hview
  obtain ⟨⟨view, hmain⟩, hsecondary⟩ := hview
  have hfunctions : ∀ s ∈ doc.secondary, ∃ f, secondaryFunction views s = .ok f := by
    intro s hs
    obtain ⟨view, hview⟩ := hsecondary s hs
    exact ⟨_, by rw [secondaryFunction, hview]; rfl⟩
  obtain ⟨others, hothers⟩ := mapM_total hfunctions
  exact ⟨_, by rw [Layout.of, mainFunction, hmain, hothers]; rfl⟩

end Output
end ComponentCompiler
