import ComponentCompiler.Proofs.Document.Failure
import ComponentCompiler.Proofs.Output.Imports
import ComponentCompiler.Proofs.Scope.Analysis
import ComponentCompiler.Proofs.Token.Skip
import Mathlib.Data.List.Flatten
import Mathlib.Data.List.Pairwise

/-!
This module contains how often the imports of a generated module bind a name. A document that
imports no name twice gets imports that bind no name twice, unless it gives a name of the runtime
that the code relies on to something else.
-/

namespace ComponentCompiler

theorem Token.isBlank_of_name {text : String} {first last : Nat} {tokens : List Token} {t : Token}
    (h : scanWindow text first last = .ok tokens) (ht : t ∈ tokens) (hkind : t.kind = .name) :
    ∀ c ∈ t.value.toList, Text.isBlank c = false := by
  obtain ⟨ws, rest, hrun, _, rfl⟩ := scanFrom_ok h
  obtain ⟨before, after, hsplit⟩ := List.append_of_mem ht
  obtain ⟨as, bs, rfl, _, hbs⟩ := eq_append_of_tokensAt hsplit
  cases bs with
  | nil => cases hbs
  | cons w bs =>
    rw [tokensAt, List.cons.injEq] at hbs
    obtain ⟨rfl, _⟩ := hbs
    obtain ⟨c, more, htext, hread⟩ := (run_append.mp hrun).2.1.text
    have hread := lexeme_ok.mp (hread more.length (Nat.le_refl _))
    rw [show w.kind = .name from hkind] at hread
    have hname : isNameStart c = true ∧ ∀ d ∈ more, Text.isBlank d = false := by
      generalize charsOf bs ++ rest = next at hread
      generalize hcs : more ++ next = cs at hread
      cases hread with
      | name hstart =>
        obtain ⟨used, hused, hsolid, _⟩ := localAt_nameRest cs
        have hmore : more = used := List.append_cancel_right (hcs.trans hused)
        exact ⟨hstart, fun d hd => isBlank_of_not_isNeutral (hsolid d (hmore ▸ hd))⟩
    rw [Word.token, String.toList_ofList, htext, List.forall_mem_cons]
    exact ⟨Reflow.isBlank_of_isNameStart hname.1, hname.2⟩

namespace Source

variable {s : Source} {named : List Import.Specifier} {x : Import.Specifier}

theorem localName_mem {typeOnly : Bool} {part : List Item}
    (h : namedSpecifiers.specifier? typeOnly part = some x) :
    x.localName ∈ part.filterMap Item.name? := by
  have hlocal (isType : Bool) (name : String) (more : List String) :
      (namedSpecifiers.specifier isType name more).localName ∈ name :: more := by
    unfold namedSpecifiers.specifier
    split
    next last before hmore =>
      have hlast : last ∈ more.reverse := by simp [hmore]
      exact List.mem_cons_of_mem name (List.mem_reverse.mp hlast)
    next => exact List.mem_cons_self
  unfold namedSpecifiers.specifier? at h
  split at h
  . cases h
  next name more hnames =>
    cases h
    rw [hnames]
    exact List.mem_cons_of_mem _ (hlocal true name more)
  next name more _ hnames =>
    cases h
    rw [hnames]
    exact hlocal typeOnly name more

theorem isBlank_of_namedSpecifiers {typeOnly : Bool} {brace : Lexeme}
    (h : s.namedSpecifiers typeOnly brace = .ok named)
    (hx : x ∈ named) : ∀ c ∈ x.localName.toList, Text.isBlank c = false := by
  obtain ⟨item, hitem, h⟩ := bind_eq_ok.mp h
  cases item with
  | token t =>
    cases h
    cases hx
  | group bracket opener items closer =>
    cases h
    obtain ⟨part, hpart, hx⟩ := List.mem_filterMap.mp hx
    obtain ⟨own, hown, hname⟩ := List.mem_filterMap.mp (localName_mem hx)
    cases own with
    | group => cases hname
    | token t =>
      obtain ⟨all, hall, hfirst⟩ := bind_eq_ok.mp hitem
      obtain ⟨tokens, hscan, hgroup⟩ := bind_eq_ok.mp (mapError_eq_ok.mp hall)
      cases all with
      | nil => cases hfirst
      | cons first all =>
        cases hfirst
        simp only [Item.name?, Option.ite_none_right_eq_some, Option.some.injEq] at hname
        obtain ⟨hkind, hvalue⟩ := hname
        rw [← hvalue]
        apply Token.isBlank_of_name hscan _ hkind
        -- the token is one of those between the brackets
        have hmem : Item.token t ∈ items := by
          obtain ⟨before, after, hitems, _⟩ :=
            Text.exists_of_mem_splitOnP (List.mem_filter.mp hpart).1
          rw [hitems]
          simp [hown]
        obtain ⟨before, after, hflatten⟩ := Item.exists_flattenAll_of_mem hmem
        rw [← Token.flattenAll_group hgroup, Item.flattenAll, Item.flatten, hflatten]
        simp [Item.flatten]

theorem isBlank_of_specifiers {typeOnly : Bool} {lexemes : List Lexeme}
    {result : List Import.Specifier}
    (h : s.specifiers typeOnly lexemes = .ok result) (hx : x ∈ result)
    (hdefault : x.imported ≠ "default")
    (hall : x.imported ≠ "*") : ∀ c ∈ x.localName.toList, Text.isBlank c = false := by
  fun_induction specifiers s typeOnly lexemes generalizing result with
  | case1 | case2 =>
    cases h
    cases hx
  | case3 lexeme more _ _ ih =>
    obtain ⟨others, hothers, h⟩ := bind_eq_ok.mp h
    cases h
    rcases List.mem_cons.mp hx with rfl | hx
    . exact absurd rfl hdefault
    . exact ih hothers hx
  | case4 lexeme _ _ _ name rest ih =>
    obtain ⟨others, hothers, h⟩ := bind_eq_ok.mp h
    cases h
    rcases List.mem_cons.mp hx with rfl | hx
    . exact absurd rfl hall
    . exact ih hothers hx
  | case5 _ _ _ _ _ ih | case6 _ _ _ _ ih | case8 _ _ _ _ _ ih => exact ih h hx
  | case7 lexeme more _ ih =>
    obtain ⟨named, hnamed, h⟩ := bind_eq_ok.mp h
    obtain ⟨others, hothers, h⟩ := bind_eq_ok.mp h
    cases h
    rcases List.mem_append.mp hx with hx | hx
    . exact isBlank_of_namedSpecifiers hnamed hx
    . exact ih hothers hx

end Source

theorem Document.isBlank_of_isNamed {text file : String} {document : Document}
    (h : Document.parse text file = .ok document)
    {d : Import} (hd : d ∈ document.imports) (hnamed : d.IsNamed) {x : Import.Specifier}
    (hx : x ∈ d.specifiers) : ∀ c ∈ x.localName.toList, Text.isBlank c = false := by
  obtain ⟨statements, places, _, hplaces, hholds⟩ := exists_places h
  rw [hholds.imports] at hd
  obtain ⟨place, hplace, hdeclaration⟩ := List.mem_filterMap.mp hd
  obtain ⟨statement, _, hplaced⟩ := exists_left_of_forall₂ hplaces hplace
  cases hplaced with
  | importing _ himport =>
    cases hdeclaration
    obtain ⟨specifiers, hspecifiers, himport⟩ := bind_eq_ok.mp himport
    cases himport
    exact Source.isBlank_of_specifiers hspecifiers hx (hnamed.named x hx).1 (hnamed.named x hx).2
  | _ => simp [Source.Place.declaration?] at hdeclaration

def Import.localNames (d : Import) : List String :=
  d.specifiers.map (·.localName)

namespace Output

/-- The name that an entry binds is its last word: `b` for `a as b`. -/
def entryName (entry : String) : String :=
  String.ofList (entry.toList.reverse.takeWhile (· ≠ ' ')).reverse

/-- A declaration that is written to the module as it stands in the document. -/
def isKept (d : Import) : Bool :=
  d.module != helperModule && !Imports.isMerged d

/-- All names that imports bind, where the kept ones are from these declarations: the entries of the
line for values and of the one for types, and then the declarations that are kept. -/
def boundNames (i : Imports) (declarations : List Import) : List String :=
  (i.values ++ i.types).map entryName ++ (declarations.filter isKept).flatMap Import.localNames

variable {doc : Scope.Scoped} {views : Views} {i : Imports} {d d' : Import}
    {x x' : Import.Specifier} {entry entry' : String}
variable {isType isType' : Bool}

theorem isKept_iff : isKept d = true ↔ d.module ≠ helperModule ∧ ¬ d.IsNamed := by
  rw [← Imports.isMerged_iff]
  simp [isKept]

theorem takeWhile_name {name : List Char} (h : ' ' ∉ name) (after : List Char) :
    ((name.reverse ++ after).takeWhile (· ≠ ' ')) = name.reverse ++ after.takeWhile (· ≠ ' ') := by
  apply List.takeWhile_append_of_pos
  intro c hc
  rw [decide_eq_true_iff]
  rintro rfl
  exact h (List.mem_reverse.mp hc)

theorem entryName_eq_self {name : String} (h : ' ' ∉ name.toList) : entryName name = name := by
  have hname := takeWhile_name h []
  rw [List.append_nil] at hname
  rw [entryName, hname]
  simp

theorem entryName_of_names (h : x.Names entry)
    (hblank : ∀ c ∈ x.localName.toList, Text.isBlank c = false) :
    entryName entry = x.localName := by
  have hspace : ' ' ∉ x.localName.toList := fun hc => absurd (hblank ' ' hc) (by decide)
  rcases h with ⟨_, rfl⟩ | ⟨_, rfl⟩
  . exact entryName_eq_self hspace
  . have hwords : (x.imported ++ " as " ++ x.localName).toList.reverse
        = x.localName.toList.reverse ++ ' ' :: 's' :: 'a' :: ' ' :: x.imported.toList.reverse := by
      simp
    rw [entryName, hwords, takeWhile_name hspace]
    simp

theorem entryName_of_needed (h : Needed doc views isType entry) : entryName entry = entry := by
  apply entryName_eq_self
  cases h with
  | called hname _ => rcases hname with rfl | rfl <;> decide
  | _ => decide

theorem Needed.isType_eq (h : Needed doc views isType entry) (h' : Needed doc views isType' entry) :
    isType = isType' := by
  have hside {isType : Bool} {entry : String} (h : Needed doc views isType entry) :
      isType = decide (entry ∈ ["LayoutBuilder", "Ref"]) := by
    cases h with
    | called hname _ => rcases hname with rfl | rfl <;> decide
    | _ => decide
  rw [hside h, hside h']

/-- The declaration asks for a name of the runtime itself, as a value or as a type. -/
structure Asks (d : Import) (x : Import.Specifier) (isType : Bool) : Prop where
  named : d.IsNamed
  isType : x.isType = isType
  imported : x.imported = x.localName

/-- No name of the runtime that is needed is given to anything else by an import of the document. -/
def Spares (doc : Scope.Scoped) (views : Views) : Prop :=
  ∀ d ∈ doc.imports, d.module ≠ helperModule →
    ∀ x ∈ d.specifiers, ∀ isType, Needed doc views isType x.localName → Asks d x isType

/-- What is known of the imports of a document: each name is bound by one specifier, and names that
are imported one by one can be told from the entries. -/
structure Distinct (doc : Scope.Scoped) : Prop where
  nodup : (doc.imports.flatMap Import.localNames).Nodup
  isBlank : ∀ d ∈ doc.imports, d.IsNamed → ∀ x ∈ d.specifiers, ∀ c ∈ x.localName.toList,
    Text.isBlank c = false

theorem Distinct.eq (h : Distinct doc) (hd : d ∈ doc.imports) (hx : x ∈ d.specifiers)
    (hd' : d' ∈ doc.imports)
    (hx' : x' ∈ d'.specifiers) (hname : x.localName = x'.localName) : d = d' ∧ x = x' := by
  obtain ⟨heach, hapart⟩ := List.nodup_flatMap.mp h.nodup
  have hdeclaration : d = d' := by
    apply Decidable.byContradiction
    intro hne
    have : Std.Symm (Function.onFun List.Disjoint Import.localNames) :=
      ⟨fun _ _ h _ ha hb => h hb ha⟩
    have hdisjoint := hapart.forall hd hd' hne
    exact hdisjoint (List.mem_map_of_mem hx) (hname ▸ List.mem_map_of_mem hx')
  subst hdeclaration
  exact ⟨rfl, List.inj_on_of_nodup_map (heach d hd) hx hx' hname⟩

theorem Binds.entry_cases (h : Binds doc views i) (hdistinct : Distinct doc)
    (hentry : entry ∈ i.merged isType) :
    (Needed doc views isType entry ∧ entryName entry = entry) ∨
    ∃ d ∈ doc.imports, d.IsNamed ∧ ∃ x ∈ d.specifiers, x.isType = isType ∧ x.Names entry ∧
      entryName entry = x.localName := by
  rcases (h.merged isType entry).mp hentry with hneeded | ⟨d, hd, hnamed, x, hx, htype, hnames⟩
  . exact .inl ⟨hneeded, entryName_of_needed hneeded⟩
  . exact .inr ⟨d, hd, hnamed, x, hx, htype, hnames,
      entryName_of_names hnames (hdistinct.isBlank d hd hnamed x hx)⟩

theorem helperModule_ne (h : d.IsNamed) : d.module ≠ helperModule := by
  intro hhelper
  exact Imports.not_isNamed_of_helper hhelper h

theorem Spares.entry_eq (h : Spares doc views) (hneeded : Needed doc views isType entry)
    (hd : d ∈ doc.imports) (hnamed : d.IsNamed) (hx : x ∈ d.specifiers) (hnames : x.Names entry')
    (hname : entry = x.localName) : isType = x.isType ∧ entry = entry' := by
  rw [hname] at hneeded
  obtain ⟨_, htype, himported⟩ := h d hd (helperModule_ne hnamed) x hx isType hneeded
  refine ⟨htype.symm, ?_⟩
  rcases hnames with ⟨_, rfl⟩ | ⟨hne, _⟩
  . exact hname
  . exact absurd himported hne

theorem Spares.entries_eq (h : Spares doc views) (hbinds : Binds doc views i)
    (hdistinct : Distinct doc)
    (hentry : entry ∈ i.merged isType) (hentry' : entry' ∈ i.merged isType')
    (hname : entryName entry = entryName entry') : isType = isType' ∧ entry = entry' := by
  rcases hbinds.entry_cases hdistinct hentry with
    ⟨hneeded, hself⟩ | ⟨d, hd, hnamed, x, hx, rfl, hnames, hlocal⟩
  . rcases hbinds.entry_cases hdistinct hentry' with
      ⟨hneeded', hself'⟩ | ⟨d', hd', hnamed', x', hx', rfl, hnames', hlocal'⟩
    . have heq : entry = entry' := by rw [← hself, hname, hself']
      subst heq
      exact ⟨hneeded.isType_eq hneeded', rfl⟩
    . exact h.entry_eq hneeded hd' hnamed' hx' hnames' (by rw [← hself, hname, hlocal'])
  . rcases hbinds.entry_cases hdistinct hentry' with
      ⟨hneeded', hself'⟩ | ⟨d', hd', hnamed', x', hx', rfl, hnames', hlocal'⟩
    . obtain ⟨htype, heq⟩ :=
        h.entry_eq hneeded' hd hnamed hx hnames (by rw [← hself', ← hname, hlocal])
      exact ⟨htype.symm, heq.symm⟩
    . obtain ⟨_, rfl⟩ := hdistinct.eq hd hx hd' hx' (by rw [← hlocal, hname, hlocal'])
      exact ⟨rfl, (Imports.names_iff.mp hnames).trans (Imports.names_iff.mp hnames').symm⟩

theorem Spares.entryName_ne (h : Spares doc views) (hbinds : Binds doc views i)
    (hdistinct : Distinct doc)
    (hentry : entry ∈ i.merged isType) (hd : d ∈ doc.imports) (hkept : isKept d = true)
    (hx : x ∈ d.specifiers) : entryName entry ≠ x.localName := by
  intro hname
  obtain ⟨hhelper, hnamed⟩ := isKept_iff.mp hkept
  rcases hbinds.entry_cases hdistinct hentry with
    ⟨hneeded, hself⟩ | ⟨d', hd', hnamed', x', hx', _, _, hlocal'⟩
  . rw [← hself, hname] at hneeded
    exact hnamed (h d hd hhelper x hx isType hneeded).named
  . obtain ⟨rfl, _⟩ := hdistinct.eq hd' hx' hd hx (by rw [← hlocal', hname])
    exact hnamed hnamed'

theorem mem_keptNames {name : String} :
    name ∈ (doc.imports.filter isKept).flatMap Import.localNames
      ↔
    ∃ d ∈ doc.imports, isKept d = true ∧ ∃ x ∈ d.specifiers, x.localName = name := by
  simp only [List.mem_flatMap, List.mem_filter, Import.localNames, List.mem_map, and_assoc]

theorem Spares.nodup (h : Spares doc views) (hbinds : Binds doc views i)
    (hdistinct : Distinct doc) : (boundNames i doc.imports).Nodup := by
  have hline (isType : Bool) : ((i.merged isType).map entryName).Nodup := by
    apply List.Nodup.map_on _ (hbinds.nodup isType)
    intro entry hentry entry' hentry' hname
    exact (h.entries_eq hbinds hdistinct hentry hentry' hname).2
  rw [boundNames, List.nodup_append', List.map_append, List.nodup_append']
  refine ⟨⟨hline false, hline true, ?_⟩, ?_, ?_⟩
  . intro name hvalue htype
    obtain ⟨entry, hentry, rfl⟩ := List.mem_map.mp hvalue
    obtain ⟨entry', hentry', hname⟩ := List.mem_map.mp htype
    have hlines : false = true := (h.entries_eq hbinds hdistinct hentry hentry' hname.symm).1
    cases hlines
  . exact hdistinct.nodup.sublist (List.filter_sublist.flatMap _)
  . intro name hmerged hname
    obtain ⟨d, hd, hkept, x, hx, hname⟩ := mem_keptNames.mp hname
    rw [← List.map_append, List.mem_map] at hmerged
    obtain ⟨entry, hentry, rfl⟩ := hmerged
    rcases List.mem_append.mp hentry with hentry | hentry
    . have hentry : entry ∈ i.merged false := hentry
      exact h.entryName_ne hbinds hdistinct hentry hd hkept hx hname.symm
    . have hentry : entry ∈ i.merged true := hentry
      exact h.entryName_ne hbinds hdistinct hentry hd hkept hx hname.symm

theorem spares_of_nodup (hbinds : Binds doc views i) (hdistinct : Distinct doc)
    (h : (boundNames i doc.imports).Nodup) : Spares doc views := by
  intro d hd hhelper x hx isType hneeded
  rw [boundNames, List.nodup_append', List.map_append, List.nodup_append'] at h
  obtain ⟨⟨hvalues, htypes, hlines⟩, _, hkept⟩ := h
  have hline (isType : Bool) : ((i.merged isType).map entryName).Nodup := by
    cases isType with
    | false => exact hvalues
    | true => exact htypes
  have hapart {isType isType' : Bool} {name : String}
      (hname : name ∈ (i.merged isType).map entryName)
      (hname' : name ∈ (i.merged isType').map entryName) : isType = isType' := by
    cases isType with
    | false =>
      cases isType' with
      | false => rfl
      | true => exact absurd hname' (hlines hname)
    | true =>
      cases isType' with
      | false => exact absurd hname (hlines hname')
      | true => rfl
  have hentry : x.localName ∈ i.merged isType := (hbinds.merged isType _).mpr (.inl hneeded)
  have hbound : x.localName ∈ (i.merged isType).map entryName :=
    List.mem_map.mpr ⟨x.localName, hentry, entryName_of_needed hneeded⟩
  by_cases hnamed : d.IsNamed
  . have hnames : x.Names (Imports.specifierText x) := Imports.names_iff.mpr rfl
    have hother := entryName_of_names hnames (hdistinct.isBlank d hd hnamed x hx)
    have hentry' : Imports.specifierText x ∈ i.merged x.isType :=
      (hbinds.merged x.isType _).mpr (.inr ⟨d, hd, hnamed, x, hx, rfl, hnames⟩)
    obtain rfl : x.isType = isType := hapart (List.mem_map.mpr ⟨_, hentry', hother⟩) hbound
    have heq := List.inj_on_of_nodup_map (hline x.isType) hentry' hentry
      (hother.trans (entryName_of_needed hneeded).symm)
    refine ⟨hnamed, rfl, ?_⟩
    rcases hnames with ⟨himported, _⟩ | ⟨_, htext⟩
    . exact himported
    . -- an entry with two names is longer than the name that it binds
      have hlength := congrArg String.length (heq.symm.trans htext)
      simp only [String.length_append] at hlength
      have hthree : " as ".length = 4 := by decide
      omega
  . have hname : x.localName ∈ (doc.imports.filter isKept).flatMap Import.localNames :=
      mem_keptNames.mpr ⟨d, hd, isKept_iff.mpr ⟨hhelper, hnamed⟩, x, hx, rfl⟩
    refine absurd hname (hkept ?_)
    rw [List.mem_append]
    cases isType with
    | false => exact .inl hbound
    | true => exact .inr hbound

theorem Imports.kept_addAll (declarations : List Import) (i : Imports) :
    (i.addAll declarations).kept = i.kept ++ (declarations.filter isKept).map (·.source) := by
  induction declarations generalizing i with
  | nil => exact (List.append_nil _).symm
  | cons d declarations ih =>
    refine (ih (i.add d)).trans ?_
    unfold add
    split
    next hhelper =>
      rw [List.filter_cons_of_neg]
      simp [isKept, hhelper]
    next hhelper =>
      split
      next hmerged =>
        rw [(foldl_addSpecifier d.specifiers false "").1, List.filter_cons_of_neg]
        simp [isKept, hmerged]
      next hmerged =>
        rw [List.filter_cons_of_pos]
        . simp
        . simpa [isKept, hhelper] using hmerged

open Compilation (Compiled)

/-- The code of a document that imports no name twice starts with imports, and these bind no name
twice just if the document gives no name of the runtime that the code relies on to anything but what
it stands for. -/
theorem boundNames_of_run {r : Compilation.Request} {text : String} {document : Document}
    (h : (Compilation.run r).code = some text)
    (hparse : Document.parse r.source r.file = .ok document)
    (hown : (document.imports.flatMap Import.localNames).Nodup) :
    ∃ doc views m layout i rest, Compiled r document doc views m ∧
      Layout.of doc (View.byName views) = .ok layout ∧ i = layout.imports document.imports ∧
      text = layout.text document.imports ∧ text = i.text ++ rest ∧
      Binds doc (View.byName views) i ∧ i.kept = (document.imports.filter isKept).map (·.source) ∧
      ((boundNames i document.imports).Nodup ↔ Spares doc (View.byName views)) := by
  obtain ⟨_, doc, views, m, hcompiled, rfl, _⟩ := Compilation.exists_compiled h
  cases hparse.symm.trans hcompiled.parse
  have himports := Scope.imports_of_analyse hcompiled.analyse
  obtain ⟨layout, hlayout, hcode⟩ := exists_layout hcompiled.generate
  have hbinds : Binds doc (View.byName views) (layout.imports document.imports) :=
    himports ▸ binds_imports hlayout
  rw [himports] at hcode
  obtain ⟨rest, htext⟩ := exists_text hlayout document.imports
  have hdistinct : Distinct doc := by
    constructor
    . rwa [himports]
    . intro d hd hnamed x hx
      rw [himports] at hd
      exact Document.isBlank_of_isNamed hparse hd hnamed hx
  refine ⟨doc, views, m, layout, _, rest, hcompiled, hlayout, rfl, hcode, hcode.trans htext, hbinds,
    Imports.kept_addAll document.imports _, ?_⟩
  have hiff : (boundNames (layout.imports document.imports) doc.imports).Nodup
      ↔
      Spares doc (View.byName views) :=
    ⟨spares_of_nodup hbinds hdistinct, fun h => h.nodup hbinds hdistinct⟩
  rwa [himports] at hiff

theorem run_builder_value :
    ((Document.parse "import \x7b LayoutBuilder \x7d from 'auwla'\nexport default () => <p/>"
      "A.tsx").toOption.any fun document => decide
      (document.imports.map (fun d => (d.module, d.specifiers)) =
        [("auwla", [⟨"LayoutBuilder", "LayoutBuilder", false⟩])])) = true ∧
    (Compilation.run
      { source := "import \x7b LayoutBuilder \x7d from 'auwla'\nexport default () => <p/>",
        file := "A.tsx" }).code = some
      ("import \x7b Component, LayoutBuilder \x7d from 'auwla'\nimport type \x7b LayoutBuilder \x7d from 'auwla'\n\n" ++
        "export default function A() \x7b\n  return Component((ui: LayoutBuilder) => \x7b\n    ui.P(\x7b\x7d)\n  \x7d)\n\x7d\n") := by
  decide +kernel

/-- The builder's type is relied on as a type, so that importing it as a value binds it twice. -/
theorem boundNames_of_run_builder :
    let source := "import \x7b LayoutBuilder \x7d from 'auwla'\nexport default () => <p/>"
    ∃ text document, (Compilation.run { source, file := "A.tsx" }).code = some text ∧
      Document.parse source "A.tsx" = .ok document ∧
      (document.imports.flatMap Import.localNames).Nodup ∧
      ∃ doc views m layout i rest, Compiled { source, file := "A.tsx" } document doc views m ∧
        Layout.of doc (View.byName views) = .ok layout ∧ i = layout.imports document.imports ∧
        text = layout.text document.imports ∧ text = i.text ++ rest ∧
        Binds doc (View.byName views) i ∧ i.kept = (document.imports.filter isKept).map (·.source) ∧
        ¬ (boundNames i document.imports).Nodup := by
  intro source
  obtain ⟨hread, hcode⟩ := run_builder_value
  obtain ⟨document, hparse, himports⟩ := exists_ok_of_any hread
  rw [decide_eq_true_eq, List.map_eq_singleton_iff] at himports
  obtain ⟨d, himports, hd⟩ := himports
  rw [Prod.mk.injEq] at hd
  obtain ⟨hmodule, hspecifiers⟩ := hd
  have hown : (document.imports.flatMap Import.localNames).Nodup := by
    simp [himports, Import.localNames, hspecifiers]
  refine ⟨_, document, hcode, hparse, hown, ?_⟩
  obtain ⟨doc, views, m, layout, i, rest, hcompiled, hlayout, hi, hcode', htext, hbinds, hkept,
      honce⟩ :=
    boundNames_of_run hcode hparse hown
  refine ⟨doc, views, m, layout, i, rest, hcompiled, hlayout, hi, hcode', htext, hbinds, hkept, ?_⟩
  intro hnodup
  have hmem : d ∈ doc.imports := by
    rw [Scope.imports_of_analyse hcompiled.analyse, himports]
    exact List.mem_singleton_self d
  have hhelper : d.module ≠ helperModule := by
    rw [hmodule]
    decide
  have hasks := honce.mp hnodup d hmem hhelper ⟨"LayoutBuilder", "LayoutBuilder", false⟩
    (by simp [hspecifiers]) true .builder
  cases hasks.isType

/-- The import of a value and that of a type in the code of this file bind one name. -/
theorem builder_bound_twice :
    ∃ document i rest,
      Document.parse "import \x7b LayoutBuilder \x7d from 'auwla'\nexport default () => <p/>"
        "A.tsx" = .ok document ∧
      (document.imports.flatMap Import.localNames).Nodup ∧
      (Compilation.run
        { source := "import \x7b LayoutBuilder \x7d from 'auwla'\nexport default () => <p/>",
          file := "A.tsx" }).code
        = some (i.text ++ rest) ∧
      i = ⟨["Component", "LayoutBuilder"], ["LayoutBuilder"], []⟩ ∧
        ¬ (boundNames i document.imports).Nodup := by
  obtain ⟨hread, hcode⟩ := run_builder_value
  obtain ⟨document, hparse, himports⟩ := exists_ok_of_any hread
  rw [decide_eq_true_eq, List.map_eq_singleton_iff] at himports
  obtain ⟨d, himports, hd⟩ := himports
  rw [Prod.mk.injEq] at hd
  obtain ⟨hmodule, hspecifiers⟩ := hd
  refine ⟨document, _,
    "\nexport default function A() \x7b\n  return Component((ui: LayoutBuilder) => \x7b\n    ui.P(\x7b\x7d)\n  \x7d)\n\x7d\n",
    hparse, by simp [himports, Import.localNames, hspecifiers], ?_, rfl, ?_⟩
  . rw [hcode]
    decide +kernel
  . have hnames : entryName "LayoutBuilder" = "LayoutBuilder" := entryName_eq_self (by decide)
    simp [boundNames, hnames]

end Output
end ComponentCompiler
