import ComponentCompiler.Builder.Lowering
import ComponentCompiler.Document.Parse
import ComponentCompiler.Name.Free
import ComponentCompiler.Proofs.View.Loop

/-!
This module contains the functions that are written for a loop and the names that they bind. A name
is bound twice just if it is the one that is made up for a missing index, or that of the builder,
and the function for the keys binds only what the first parameter binds.
-/

namespace ComponentCompiler
namespace Builder

open View (Node Loop LoopFrom)
open Name (IsParameter boundBy parameterList parameterNames?)

variable {head : Loop}

/-! ### Parameters -/

def loopParameters (head : Loop) : List String :=
  [head.item, indexName head]

/-- The builder is the last parameter of a function that renders. -/
def builderParameter : String :=
  "ui: LayoutBuilder"

def keyParameters (head : Loop) : List String :=
  if head.key.isNone then loopParameters head
    else [(head.keyParameter.filter (· ≠ "")).getD head.item]

def keyExpression (head : Loop) : String :=
  head.key.getD (indexName head)

/-- The names that each function binds which is written for a loop. -/
def writtenNames (head : Loop) : List (List String) :=
  if head.isReactive then
    [(keyParameters head).flatMap boundBy,
      (loopParameters head ++ [builderParameter]).flatMap boundBy]
  else
    [(loopParameters head).flatMap boundBy]

theorem keyText_eq (head : Loop) :
    keyText head = parameterList (keyParameters head) ++ " => " ++ keyExpression head := by
  have hlist : ∀ parameter key : String,
      "(" ++ parameter ++ ") => " ++ key = parameterList [parameter] ++ " => " ++ key := by
    intro parameter key
    rw [← String.toList_inj]
    simp [parameterList]
  unfold keyText keyParameters keyExpression
  cases head.key with
  | none =>
    change "(" ++ head.item ++ ", " ++ indexName head ++ ") => " ++ indexName head = _
    rw [← String.toList_inj]
    simp [loopParameters, parameterList, String.intercalate_cons_cons]
  | some key =>
    cases head.keyParameter with
    | none => exact hlist head.item key
    | some name =>
      by_cases hname : name = ""
      . subst hname
        exact hlist head.item key
      . have hfilter : (some name).filter (· ≠ "") = some name := by
          rw [Option.filter_some, if_pos (by simp [hname])]
        rw [hfilter]
        dsimp only
        split
        . next h => cases h
        . next h => exact absurd (Option.some.inj h) hname
        . next h =>
          cases h
          exact hlist name key

/-- The line has a function that binds these names. -/
def Binds (line before after : String) (names : List String) : Prop :=
  ∃ list, line = before ++ list ++ after ∧ parameterNames? list = some names

/-- The lines of a loop and the names that the functions in them bind. -/
inductive Emits (head : Loop) : List String → List (List String) → Prop where
  | native (hreactive : head.isReactive = false)
      (hloop : Binds line (Code.separated head.iterable ++ ".forEach(") " => \x7b" names) :
    Emits head (line :: rest) [names]
  | keyed (hreactive : head.isReactive = true)
      (hkey : Binds key "  key: " (" => " ++ keyExpression head ++ ",") names)
      (hrender : Binds render "  render: " " => \x7b" names') :
    Emits head (first :: items :: key :: render :: rest) [names, names']

/-! ### Names that are made up -/

theorem isParameter_of_name {name : String}
    (hscan : Token.scan name = .ok [⟨.name, name, 0, name.length, false⟩]) :
    IsParameter name ∧ boundBy name = [name] := by
  have hreads : Token.ReadsAs name [.token ⟨.name, name, 0, name.length, false⟩] :=
    Token.readsAs_of_scan hscan ⟨rfl, rfl⟩ rfl
  constructor
  . exact ⟨_, hreads, List.forall_mem_singleton.mpr rfl⟩
  . rw [Name.boundBy_of_readsAs hreads, Snippet.listedNames_name rfl]

theorem isParameter_index : IsParameter "index" ∧ boundBy "index" = ["index"] :=
  isParameter_of_name (by decide +kernel)

theorem isParameter_item : IsParameter "item" ∧ boundBy "item" = ["item"] :=
  isParameter_of_name (by decide +kernel)

theorem isParameter_builder : IsParameter builderParameter ∧ boundBy builderParameter = ["ui"] := by
  have hscan : Token.scan builderParameter
      = .ok [⟨.name, "ui", 0, 2, false⟩, ⟨.punct, ":", 2, 3, false⟩,
        ⟨.name, "LayoutBuilder", 4, 17, false⟩] := by decide +kernel
  have hreads := Token.readsAs_of_scan hscan ⟨rfl, rfl⟩ rfl
  constructor
  . exact ⟨_, hreads, by decide⟩
  . rw [Name.boundBy_of_readsAs hreads]
    simp [Item.listedNames, Item.targets, Item.split, Text.splitOnP, Item.target?, Item.before,
      Item.withoutRestMark, Item.boundNames, Item.isPunct, Token.isPunct]

/-! ### The parameters of a loop -/

variable {tree : Markup.Node} {s : Snippet} {body : List Node} {callback : Snippet.Arrow}
    {keyed : Option Snippet.Arrow}

theorem ne_empty_of_isParameter (h : IsParameter p) : p ≠ "" := by
  obtain ⟨_, ⟨w, ws, htext, _, hrun, _⟩, _⟩ := h
  rintro rfl
  have hne := hrun.1.text_ne_nil
  simp [Token.Word.chars, hne] at htext

theorem parameters_of_givesKey {arrow : Snippet.Arrow} (h : View.GivesKey s arrow) :
    (∀ p ∈ arrow.parameters, IsParameter p) ∧ arrow.names = arrow.parameters.flatMap boundBy := by
  obtain ⟨_, _, _, _, _, _, _, hkey⟩ := h
  exact Snippet.parameters_of_arrow? hkey

theorem indexName_eq (h : LoopFrom tree s head body callback keyed) :
    indexName head = callback.parameters[1]?.getD "index" := by
  obtain ⟨iterable, hrepeats, _⟩ := h.repeats
  unfold indexName
  rw [h.index]
  cases hindex : callback.parameters[1]? with
  | none => rfl
  | some p =>
    have hne := ne_empty_of_isParameter
      ((View.parameters_of_repeats hrepeats).1 p (List.mem_of_getElem? hindex))
    split
    . next h => cases h
    . next h => exact absurd (Option.some.inj h) hne
    . next h => exact (Option.some.inj h).symm

theorem keyParameter_eq (h : LoopFrom tree s head body callback keyed) :
    (head.keyParameter.filter (· ≠ "")).getD head.item =
    (keyed.bind (·.parameters.head?)).getD head.item := by
  rw [h.keyParameter]
  cases hkeyed : keyed with
  | none => rfl
  | some arrow =>
    rw [Option.bind_some]
    cases hhead : arrow.parameters.head? with
    | none => rfl
    | some p =>
      have hne := ne_empty_of_isParameter
        ((parameters_of_givesKey (h.given arrow hkeyed).2).1 p (List.mem_of_head? hhead))
      rw [Option.filter_some, if_pos (by simp [hne])]

theorem loopParameters_eq (h : LoopFrom tree s head body callback keyed) :
    loopParameters head =
      [callback.parameters.headD "item", callback.parameters[1]?.getD "index"] := by
  rw [loopParameters, h.item, indexName_eq h]

theorem isParameter_of_loop (h : LoopFrom tree s head body callback keyed) :
    ∀ p ∈ loopParameters head, IsParameter p := by
  obtain ⟨iterable, hrepeats, _⟩ := h.repeats
  have hparameters := (View.parameters_of_repeats hrepeats).1
  rw [loopParameters_eq h, List.forall_mem_cons, List.forall_mem_singleton]
  constructor
  . cases hcallback : callback.parameters with
    | nil => exact isParameter_item.1
    | cons p rest => exact hparameters p (by simp [hcallback])
  . cases hindex : callback.parameters[1]? with
    | none => exact isParameter_index.1
    | some p => exact hparameters p (List.mem_of_getElem? hindex)

theorem isParameter_of_key (h : LoopFrom tree s head body callback keyed) :
    ∀ p ∈ keyParameters head, IsParameter p := by
  have hloop := isParameter_of_loop h
  unfold keyParameters
  split
  . exact hloop
  . rw [List.forall_mem_singleton, keyParameter_eq h]
    cases hfirst : keyed.bind (·.parameters.head?) with
    | none => exact hloop head.item List.mem_cons_self
    | some p =>
      obtain ⟨arrow, hkeyed, hfirst⟩ := Option.bind_eq_some_iff.mp hfirst
      exact (parameters_of_givesKey (h.given arrow hkeyed).2).1 p (List.mem_of_head? hfirst)

theorem keyParameters_ne_nil (head : Loop) : keyParameters head ≠ [] := by
  unfold keyParameters
  split <;> simp [loopParameters]

/-! ### Lines -/

theorem binds_of_parameters {parameters : List String} (h : ∀ p ∈ parameters, IsParameter p)
    (hne : parameters ≠ []) (hline : line = before ++ parameterList parameters ++ after) :
    Binds line before after (parameters.flatMap boundBy) :=
  ⟨_, hline, Name.parameterNames?_parameterList h hne⟩

theorem indent_label (label text : String) (h : label ≠ "") :
    Writer.indent 1 (label ++ text) = "  " ++ label ++ text := by
  have hne : label ++ text ≠ "" := by
    intro hempty
    rw [String.append_eq_empty_iff] at hempty
    exact h hempty.1
  rw [Writer.indent, if_neg hne, String.append_assoc]
  rfl

theorem emits_of_loop (h : LoopFrom tree s head body callback keyed) (span : Option Span) :
    Emits head (lower (.loop span head body)).lines (writtenNames head) := by
  have hloop := isParameter_of_loop h
  rw [lower, iteration, writtenNames]
  cases hreactive : head.isReactive with
  | false =>
    rw [if_neg (by simp), if_neg (by simp), Code.lines]
    apply Emits.native hreactive
    apply binds_of_parameters hloop (by simp [loopParameters])
    change Code.separated head.iterable ++ ".forEach((" ++ head.item ++ ", " ++ indexName head ++
      ") => \x7b" = _
    rw [← String.toList_inj]
    simp [parameterList, loopParameters, String.intercalate_cons_cons]
  | true =>
    rw [if_pos rfl, if_pos rfl, Code.lines, Writer.indentAll]
    apply Emits.keyed hreactive
    . apply binds_of_parameters (isParameter_of_key h) (keyParameters_ne_nil head)
      change Writer.indent 1 ("key: " ++ keyText head ++ ",") = _
      rw [String.append_assoc, indent_label _ _ (by decide), keyText_eq]
      simp only [String.append_assoc]
      rfl
    . have hrender : ∀ p ∈ loopParameters head ++ [builderParameter], IsParameter p := by
        rw [List.forall_mem_append, List.forall_mem_singleton]
        exact ⟨hloop, isParameter_builder.1⟩
      apply binds_of_parameters hrender (by simp)
      change Writer.indent 1
        ("render: (" ++ head.item ++ ", " ++ indexName head ++ ", ui: LayoutBuilder) => \x7b") = _
      rw [String.append_assoc, String.append_assoc, String.append_assoc,
        indent_label _ _ (by decide), ← String.toList_inj]
      simp [parameterList, loopParameters, builderParameter, String.intercalate_cons_cons]

/-! ### Names that are bound twice -/

def BindsOnce (head : Loop) : Prop :=
  ∀ names ∈ writtenNames head, names.Nodup

theorem nodup_boundBy_of_mem {parameters : List String} (h : (parameters.flatMap boundBy).Nodup)
    (hp : p ∈ parameters) : (boundBy p).Nodup := by
  rw [List.flatMap_def] at h
  exact h.sublist (List.sublist_flatten_of_mem (List.mem_map_of_mem hp))

theorem nodup_boundBy_headD {parameters : List String} (h : (parameters.flatMap boundBy).Nodup) :
    (boundBy (parameters.headD "item")).Nodup := by
  cases parameters with
  | nil => simp [isParameter_item.2]
  | cons p rest => exact nodup_boundBy_of_mem h List.mem_cons_self

theorem nodup_loop_iff (h : LoopFrom tree s head body callback keyed)
    (hnodup : callback.names.Nodup) :
    ((loopParameters head).flatMap boundBy).Nodup ↔
    (callback.parameters.length ≤ 1 → "index" ∉ callback.names) := by
  obtain ⟨iterable, hrepeats, _⟩ := h.repeats
  rw [(View.parameters_of_repeats hrepeats).2] at hnodup ⊢
  rw [loopParameters_eq h]
  generalize callback.parameters = parameters at hnodup
  rcases parameters with _ | ⟨p, _ | ⟨q, rest⟩⟩
  . simp [isParameter_item.2, isParameter_index.2]
  . rw [List.flatMap_singleton] at hnodup
    have hnames : [p].flatMap boundBy = boundBy p := List.flatMap_singleton ..
    have hlist : List.flatMap boundBy [[p].headD "item", [p][1]?.getD "index"] =
        boundBy p ++ ["index"] := by
      simp [isParameter_index.2]
    rw [hnames, hlist, List.nodup_append_comm, List.singleton_append, List.nodup_cons]
    simp [hnodup]
  . have hlist : List.flatMap boundBy
        [(p :: q :: rest).headD "item", (p :: q :: rest)[1]?.getD "index"] =
          boundBy p ++ boundBy q := by
      simp
    rw [List.flatMap_cons, List.flatMap_cons, ← List.append_assoc] at hnodup
    rw [hlist]
    simp [hnodup.of_append_left]

theorem mem_loop_iff (h : LoopFrom tree s head body callback keyed) :
    name ∈ (loopParameters head).flatMap boundBy
      ↔
    name ∈ (callback.parameters.take 2).flatMap boundBy ∨ callback.parameters.length = 0 ∧
      name = "item" ∨
      callback.parameters.length ≤ 1 ∧ name = "index" := by
  rw [loopParameters_eq h]
  rcases callback.parameters with _ | ⟨p, _ | ⟨q, rest⟩⟩
  . simp [isParameter_item.2, isParameter_index.2]
  . simp [isParameter_index.2]
  . simp

theorem nodup_key (h : LoopFrom tree s head body callback keyed) (hnodup : callback.names.Nodup)
    (hkeyed : ∀ arrow, keyed = some arrow → arrow.names.Nodup) (hkey : head.key ≠ none) :
    ((keyParameters head).flatMap boundBy).Nodup := by
  obtain ⟨iterable, hrepeats, _⟩ := h.repeats
  rw [(View.parameters_of_repeats hrepeats).2] at hnodup
  have hparameters : keyParameters head = [(keyed.bind (·.parameters.head?)).getD head.item] := by
    rw [keyParameters, if_neg (by simpa using hkey), keyParameter_eq h]
  rw [hparameters, List.flatMap_singleton]
  cases hfirst : keyed.bind (·.parameters.head?) with
  | none =>
    rw [Option.getD_none, h.item]
    exact nodup_boundBy_headD hnodup
  | some p =>
    obtain ⟨arrow, harrow, hfirst⟩ := Option.bind_eq_some_iff.mp hfirst
    have harrow' := hkeyed arrow harrow
    rw [(parameters_of_givesKey (h.given arrow harrow).2).2] at harrow'
    exact nodup_boundBy_of_mem harrow' (List.mem_of_head? hfirst)

theorem bindsOnce_iff (h : LoopFrom tree s head body callback keyed) (hnodup : callback.names.Nodup)
    (hkeyed : ∀ arrow, keyed = some arrow → arrow.names.Nodup) :
    BindsOnce head
      ↔
    (callback.parameters.length ≤ 1 → "index" ∉ callback.names) ∧
      (head.isReactive = true → "ui" ∉ (callback.parameters.take 2).flatMap boundBy) := by
  have hbuilder : "ui" ∈ (loopParameters head).flatMap boundBy ↔
      "ui" ∈ (callback.parameters.take 2).flatMap boundBy := by
    rw [mem_loop_iff h]
    simp
  rw [BindsOnce, writtenNames, ← nodup_loop_iff h hnodup, ← hbuilder]
  cases head.isReactive with
  | false => simp
  | true =>
    rw [if_pos rfl, List.forall_mem_cons, List.forall_mem_singleton, List.flatMap_append,
      List.flatMap_singleton, isParameter_builder.2,
      List.nodup_append_comm, List.singleton_append, List.nodup_cons]
    constructor
    . rintro ⟨_, hbuilder, hloop⟩
      exact ⟨hloop, fun _ => hbuilder⟩
    . rintro ⟨hloop, hbuilder⟩
      refine ⟨?_, hbuilder rfl, hloop⟩
      by_cases hkey : head.key = none
      . rw [keyParameters, if_pos (by simp [hkey])]
        exact hloop
      . exact nodup_key h hnodup hkeyed hkey

/-! ### Names in the key -/

def OccursFree (name text : String) : Prop :=
  ∃ names, Name.free text [] = .ok names ∧ name ∈ names

/-- The function for the keys binds each name that occurs free in the key and is an item or an index
in the function that the key comes from. -/
def BindsKey (head : Loop) (source : Snippet.Arrow) : Prop :=
  ∀ name ∈ (source.parameters.take 2).flatMap boundBy, OccursFree name (keyExpression head) →
    name ∈ (keyParameters head).flatMap boundBy

theorem keyParameters_of_source (h : LoopFrom tree s head body callback keyed)
    (hkey : head.key ≠ none)
    (hsource : (keyed.getD callback).parameters = p :: rest) : keyParameters head = [p] := by
  rw [keyParameters, if_neg (by simpa using hkey), keyParameter_eq h]
  cases hkeyed : keyed with
  | none =>
    rw [hkeyed, Option.getD_none] at hsource
    rw [Option.bind_none, Option.getD_none, h.item, hsource, List.headD_cons]
  | some arrow =>
    rw [hkeyed, Option.getD_some] at hsource
    rw [Option.bind_some, hsource, List.head?_cons, Option.getD_some]

theorem bindsKey_iff (h : LoopFrom tree s head body callback keyed) :
    BindsKey head (keyed.getD callback)
      ↔
    head.key = none ∨ ∀ name ∈ (((keyed.getD callback).parameters.take 2).drop 1).flatMap boundBy,
      OccursFree name (keyExpression head) →
        name ∈ ((keyed.getD callback).parameters.take 1).flatMap boundBy := by
  by_cases hkey : head.key = none
  . have hkeyed : keyed = none := by
      have hfrom := h.key
      cases keyed with
      | none => rfl
      | some arrow => simp [hkey] at hfrom
    subst hkeyed
    simp only [hkey, true_or, iff_true]
    intro name hname _
    rw [keyParameters, if_pos (by simp [hkey])]
    exact (mem_loop_iff h).mpr (.inl hname)
  . simp only [hkey, false_or]
    cases hsource : (keyed.getD callback).parameters with
    | nil => simp [BindsKey, hsource]
    | cons p rest =>
      rw [BindsKey, hsource, keyParameters_of_source h hkey hsource]
      simp only [List.take_succ_cons, List.take_zero, List.drop_succ_cons, List.drop_zero,
        List.flatMap_cons, List.flatMap_nil, List.append_nil, List.mem_append]
      constructor
      . intro hbinds name hname
        exact hbinds name (.inr hname)
      . rintro hbinds name (hname | hname) hfree
        . exact hname
        . exact hbinds name hname hfree

theorem exists_loop_of_any {text : String}
    (h : ((Document.parse text "A.tsx").toOption.any fun document =>
      document.components.any fun component =>
      (View.analyse component reactive).toOption.any fun view =>
      (view.root.flatMap Node.parts).any (·.head? == some head)) = true) :
    ∃ document component view span body, Document.parse text "A.tsx" = .ok document ∧
      component ∈ document.components ∧
      View.analyse component reactive = .ok view ∧ Node.Among view.root (.loop span head body) := by
  obtain ⟨document, hdocument, h⟩ := exists_ok_of_any h
  obtain ⟨component, hcomponent, h⟩ := List.any_eq_true.mp h
  obtain ⟨view, hview, h⟩ := exists_ok_of_any h
  obtain ⟨node, hnode, hhead⟩ := List.any_eq_true.mp h
  obtain ⟨span, body, rfl⟩ := Node.exists_loop_of_head? (beq_iff_eq.mp hhead)
  obtain ⟨top, htop, hpart⟩ := List.mem_flatMap.mp hnode
  exact ⟨document, component, view, span, body, hdocument, hcomponent, hview,
    .part (.here htop) hpart⟩

/-- The functions that are written for a loop at any depth of a component. -/
theorem functions_of_analyse {component : ComponentCompiler.Component} {view : View.Component}
    (h : View.analyse component reactive = .ok view)
    (hamong : Node.Among view.root (.loop span head body)) :
    ∃ s callback keyed, LoopFrom component.markup s head body callback keyed ∧
      callback.names = callback.parameters.flatMap boundBy ∧
      (∀ arrow, keyed = some arrow → arrow.names = arrow.parameters.flatMap boundBy) ∧
      Emits head (lower (.loop span head body)).lines (writtenNames head) ∧
      (callback.names.Nodup → (∀ arrow, keyed = some arrow → arrow.names.Nodup) →
        (BindsOnce head
          ↔
        (callback.parameters.length ≤ 1 → "index" ∉ callback.names) ∧
          (head.isReactive = true → "ui" ∉ (callback.parameters.take 2).flatMap boundBy))) ∧
      (BindsKey head (keyed.getD callback)
        ↔
      head.key = none ∨ ∀ name ∈ (((keyed.getD callback).parameters.take 2).drop 1).flatMap boundBy,
        OccursFree name (keyExpression head) →
          name ∈ ((keyed.getD callback).parameters.take 1).flatMap boundBy) := by
  obtain ⟨s, callback, keyed, hloop⟩ := View.loop_of_analyse h hamong
  obtain ⟨iterable, hrepeats, _⟩ := hloop.repeats
  refine ⟨s, callback, keyed, hloop, (View.parameters_of_repeats hrepeats).2, ?_,
    emits_of_loop hloop span, bindsOnce_iff hloop, bindsKey_iff hloop⟩
  intro arrow harrow
  exact (parameters_of_givesKey (hloop.given arrow harrow).2).2

/-- The item is destructured, and the keys have a function of their own. -/
theorem functions_of_analyse_each :
    let text := "export default () => <p>\x7b$each(xs, (\x7b a \x7d) => <i/>, y => y)\x7d</p>"
    let head : Loop :=
      ⟨.eachHelper, "xs", true, ["xs"], "\x7b a \x7d", none, some "y", some "y", none⟩
    ∃ document component view span body, Document.parse text "A.tsx" = .ok document ∧
      component ∈ document.components ∧
      View.analyse component ["xs"] = .ok view ∧ Node.Among view.root (.loop span head body) ∧
      writtenNames head = [["y"], ["a", "index", "ui"]] ∧ BindsOnce head ∧
      ∃ s callback keyed, LoopFrom component.markup s head body callback keyed ∧
      callback.names = ["a"] ∧
        Emits head (lower (.loop span head body)).lines (writtenNames head) := by
  intro text head
  obtain ⟨document, component, view, span, body, hdocument, hcomponent, hview, hamong⟩ :=
    @exists_loop_of_any head ["xs"] text (by decide +kernel)
  have hnames : writtenNames head = [["y"], ["a", "index", "ui"]] := by decide +kernel
  have honce : BindsOnce head := by
    rw [BindsOnce, hnames]
    decide
  obtain ⟨s, callback, keyed, hloop, hcallback, _, hemits, _, _⟩ :=
    functions_of_analyse hview hamong
  refine ⟨document, component, view, span, body, hdocument, hcomponent, hview, hamong, hnames,
    honce, s, callback, keyed, hloop, ?_, hemits⟩
  have hitem : "\x7b a \x7d" = callback.parameters.headD "item" := hloop.item
  have hindex : none = callback.parameters[1]? := hloop.index
  rw [hcallback]
  generalize callback.parameters = parameters at hitem hindex
  rcases parameters with _ | ⟨p, _ | ⟨q, rest⟩⟩
  . simp at hitem
  . obtain rfl : p = "\x7b a \x7d" := hitem.symm
    decide +kernel
  . simp at hindex

/-- A name that the builder has too is bound twice, and a key that is the index is not bound. -/
theorem functions_of_builder_name :
    let text := "export default () => <p>\x7bxs.map((ui, i) => <i key=\x7bi\x7d/>)\x7d</p>"
    let head : Loop := ⟨.reactiveMap, "xs", true, ["xs"], "ui", some "i", some "i", none, none⟩
    ∃ document component view span body s callback, Document.parse text "A.tsx" = .ok document ∧
      component ∈ document.components ∧
      View.analyse component ["xs"] = .ok view ∧ Node.Among view.root (.loop span head body) ∧
      LoopFrom component.markup s head body callback none ∧
      (lower (.loop span head body)).lines.take 4 =
        ["ui.List(\x7b", "  items: xs,", "  key: (ui) => i,",
          "  render: (ui, i, ui: LayoutBuilder) => \x7b"] ∧
      ¬ BindsOnce head ∧ ¬ BindsKey head callback := by
  intro text head
  obtain ⟨document, component, view, span, body, hdocument, hcomponent, hview, hamong⟩ :=
    @exists_loop_of_any head ["xs"] text (by decide +kernel)
  obtain ⟨s, callback, keyed, hloop⟩ := View.loop_of_analyse hview hamong
  obtain rfl := hloop.keyed_eq_none (by simp [head])
  have hnames : writtenNames head = [["ui"], ["ui", "i", "ui"]] := by decide +kernel
  refine ⟨document, component, view, span, body, s, callback, hdocument, hcomponent, hview, hamong,
    hloop, rfl, ?_, ?_⟩
  . rw [BindsOnce, hnames]
    decide
  . intro hbinds
    have hmem : "i" ∈ (callback.parameters.take 2).flatMap boundBy := by
      have hindex : callback.parameters[1]? = some "i" := hloop.index.symm
      apply List.mem_flatMap.mpr
      refine ⟨"i", ?_, by decide +kernel⟩
      apply List.mem_of_getElem? (i := 1)
      rw [List.getElem?_take_of_lt (by decide), hindex]
    have hfree : OccursFree "i" (keyExpression head) :=
      ⟨["i"], by decide +kernel, List.mem_singleton_self _⟩
    have hbound := hbinds "i" hmem hfree
    have hkey : (keyParameters head).flatMap boundBy = ["ui"] := by decide +kernel
    rw [hkey] at hbound
    exact absurd hbound (by decide)

end Builder
end ComponentCompiler
