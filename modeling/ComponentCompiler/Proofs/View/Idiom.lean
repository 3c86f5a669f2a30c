import ComponentCompiler.Proofs.Snippet.Guard
import ComponentCompiler.Proofs.View.Unplaced

/-!
This module contains that the ways to write a conditional have one meaning: whatever way says that a
condition guards markup, the markup is analysed as it is by itself.
-/

namespace ComponentCompiler
namespace View

open Analysis (Related lift)
open Snippet (Guarded)

variable {c m : String} {ctx : Context} {s condition body other : Snippet}
    {idiom : Conditional.Idiom}

theorem Analysis.Related.orUnreadable {E : Failure → Failure → Prop}
    {D : Diagnostic → Diagnostic → Prop} {R : α → β → Prop}
    {x : Analysis α} {y : Analysis β} (h : Related E D R x y)
    (hE : ∀ e e', E e e' → ∀ problem pos, e ≠ .scan (.problem problem pos))
    (handler : Analysis α) : Related E D R (Analysis.orUnreadable x handler) y := by
  intro reports reports' hreports
  obtain ⟨hresult, hreports⟩ := h reports reports' hreports
  rw [Analysis.orUnreadable, run_tryCatch, ← Prod.eta (x.run reports)]
  generalize (x.run reports).1 = result, (y.run reports').1 = result' at hresult
  cases hresult with
  | ok h => exact ⟨.ok h, hreports⟩
  | error h =>
    dsimp only
    split
    . exact absurd rfl (hE _ _ h _ _)
    . exact ⟨.error h, hreports⟩

theorem children_slot {slot : SlotAnalysis} {place : Span} {source : String}
    (hcall : (Snippet.ofSpan source place).chainCall? = .ok none) :
    children slot ctx {} [.slot place source] = slot ctx (.ofSpan source place) := by
  rw [children]
  dsimp only
  rw [hcall]
  simp [lift, children, flush]

theorem children_call {slot : SlotAnalysis} {place : Span} {source : String} {call : Snippet.Call}
    (hcall : (Snippet.ofSpan source place).chainCall? = .ok (some call))
    (hcallee : call.callee = "$if") (harguments : call.arguments = [condition, body]) :
    children slot ctx {} [.slot place source]
      =
    (do return [← conditional slot ctx (chainSpan call call) .explicitChain (condition, body)
      [] none]) := by
  have harity : call.hasArity = true := by simp [Snippet.Call.hasArity, hcallee, harguments]
  have hchain : ∀ span, chain slot ctx span [call]
      = (do return [← conditional slot ctx span .explicitChain (condition, body) [] none]) := by
    intro span
    have hguarded : guarded? call =
        some (condition, body) := by simp [guarded?_eq, hcallee, harguments]
    have halternative : alternative? call = none := by simp [alternative?_eq, hcallee, harguments]
    simp [chain, hguarded, halternative]
  rw [children]
  dsimp only
  rw [hcall]
  simp [lift, children, flush, chainStep, harity, hcallee, hchain]

theorem conditional_isEmptyBranch (slot : SlotAnalysis) (span : Span)
    (hother : other.isEmptyBranch = .ok true) :
    conditional slot ctx span idiom (condition, body) [] (some other) =
      conditional slot ctx span idiom (condition, body) [] none := by
  unfold conditional
  dsimp only
  rw [hother]
  simp [lift]

/-- The nodes are a conditional with the expression as its condition, and other nodes, but for their
places, as its only branch. -/
def Guards (idiom : Conditional.Idiom) (e : Expression) (nodes nodes' : List Node) : Prop :=
  ∃ (span : Span) (body : List Node), nodes =
    [.conditional span idiom (!e.isReactive) e body [] none] ∧
    Node.unplacedAll body = Node.unplacedAll nodes'

def GuardsIn (idiom : Conditional.Idiom) (e : Expression) (span span' : Span)
    (root root' : List Node) : Prop :=
  ∃ tag nodes nodes', root = [.element span tag nodes] ∧ root' = [.element span' tag nodes'] ∧
    Guards idiom e nodes nodes'

variable (g : Guarded c m)

theorem expression_condition (ctx : Context) :
    ∃ e, ∀ condition : Snippet, condition.text = g.conditionText →
      expression ctx condition .condition = pure e := by
  obtain ⟨s, hs⟩ : ∃ s : Snippet, s.text = g.conditionText := ⟨{ text := g.conditionText }, rfl⟩
  have hcode : Token.Balanced s.text.toList := by
    rw [hs]
    exact g.balanced_condition
  have htotal := cuts_unplaced.dependencies hcode (Eq.refl s.text) ctx.reactive ctx.bound
  generalize hresult : s.dependencies ctx.reactive ctx.bound = result at htotal
  cases htotal with
  | @ok deps _ _ =>
    refine ⟨⟨g.conditionText, deps, .condition⟩, ?_⟩
    intro condition htext
    rw [expression, Snippet.dependencies_congr (htext.trans hs.symm), hresult, htext]
    rfl
  | error hunread =>
    obtain ⟨_, _, hscan, _⟩ := hunread
    cases hscan

theorem branch_body {slot : SlotAnalysis} (hbody : body.text = g.bodyText) :
    branch slot ctx body = slot ctx body := by
  rw [branch, g.isEmptyBranch_body hbody,
    Snippet.stripParens_word (g.spells_body hbody) g.kind_body, ok_bind, g.arrow?_body hbody]
  rfl

theorem alike_conditional {alone : Snippet} {e : Expression} (span : Span)
    (idiom : Conditional.Idiom) (he : ∀ condition : Snippet, condition.text = g.conditionText →
      expression ctx condition .condition = pure e)
    (hparts : g.Parts s condition body) (halone : alone.text = g.bodyText)
    (hfile : alone.file = s.file) (hn : g.bodyText.length < n) (hn' : g.bodyText.length < n') :
    unplaced.Alike (fun node nodes => Guards idiom e [node] nodes)
      (conditional (slot n) ctx span idiom (condition, body) [] none)
      (slot n' ctx alone) := by
  have hbelow : unplaced.Below (g.bodyText.length + 1) body alone := by
    refine ⟨⟨?_, ?_, ?_⟩, ?_⟩
    . rw [hparts.markup, halone]
    . rw [hparts.file, hfile]
    . rw [hparts.markup]
      exact g.balanced_body
    . rw [hparts.markup]
      exact Nat.lt_succ_self _
  have hconditional : conditional (slot n) ctx span idiom (condition, body) [] none
      = (do return .conditional span idiom (!e.isReactive) e (← slot n ctx body) [] none) := by
    unfold conditional
    dsimp only
    rw [he _ hparts.condition, branch_body g hparts.markup]
    simp
  rw [hconditional, ← bind_pure (slot n' ctx alone)]
  refine (lawful_unplaced.slots hn hn' hbelow).bind fun nodes nodes' hnodes => ?_
  exact .pure ⟨span, nodes, rfl, unplacedAll_eq hnodes⟩

theorem logicalAnd?_guard (hsplit : s.splitAnd? = .ok (some (condition, body)))
    (hbody : body.text = g.bodyText) : logicalAnd? s = .ok (some (condition, body)) := by
  rw [logicalAnd?, hsplit, ok_bind]
  dsimp only
  rw [g.containsMarkup_body hbody]
  rfl

theorem ternary?_guard (hsplit : s.splitTernary? = .ok (some (condition, body, other)))
    (hbody : body.text = g.bodyText)
    (hother : other.text = "null") : ternary? s = .ok (some ((condition, body), [], other)) := by
  obtain ⟨token, hitems, hkind⟩ := Snippet.items_word (Snippet.spells_null hother) (by decide)
  have hnone : other.strip.splitTernary? = .ok none := by
    apply Snippet.splitTernary?_eq_none hitems
    rw [List.forall_mem_singleton, Item.isPunct, Token.isPunct, hkind]
    rfl
  have htail : ternaryTail other = .ok ([], other) := by
    rw [ternaryTail, ternaryTail.go,
      Snippet.stripParens_word (Snippet.spells_null hother) (by decide), ok_bind, hnone]
    rfl
  rw [ternary?, hsplit, ok_bind]
  dsimp only
  rw [htail, ok_bind]
  dsimp only
  rw [List.map_nil, List.cons_append, anyMarkup, g.containsMarkup_body hbody]
  rfl

theorem ternary?_eq_none (hsplit : s.splitTernary? = .ok none) : ternary? s = .ok none := by
  rw [ternary?, hsplit]
  rfl

theorem alike_slot {alone : Snippet} {e : Expression} {stripped : Snippet} {span : Span}
    (idiom : Conditional.Idiom) (he : ∀ condition : Snippet, condition.text = g.conditionText →
      expression ctx condition .condition = pure e)
    (hstrip : s.stripParens = .ok stripped) (hne : stripped.text ≠ "")
    (hform : slotForm? (slot n) ctx stripped =
      (do return some [← conditional (slot n) ctx span idiom (condition, body) [] none]))
    (hparts : g.Parts s condition body) (halone : alone.text = g.bodyText)
    (hfile : alone.file = s.file) (hn : g.bodyText.length < n) (hn' : g.bodyText.length < n') :
    unplaced.Alike (Guards idiom e) (slot (n + 1) ctx s) (slot n' ctx alone) := by
  rw [slot, slotPass, hstrip]
  dsimp only [lift]
  rw [pure_bind, if_neg hne, hform, ← bind_pure (slot n' ctx alone)]
  refine Related.bind
    (R := fun form? nodes' => ∃ nodes, form? = some nodes ∧ Guards idiom e nodes nodes') ?_ ?_
  . apply Related.orUnreadable
    . rw [← bind_pure (slot n' ctx alone)]
      refine (alike_conditional g span idiom he hparts halone hfile hn hn').bind
        fun node nodes' hnode => ?_
      exact .pure ⟨[node], rfl, hnode⟩
    . rintro _ _ ⟨_, _, rfl, _⟩
      simp
  . rintro _ nodes' ⟨nodes, rfl, hnodes⟩
    exact .pure hnodes

theorem slotForm?_and {slot : SlotAnalysis} (hmarkup : s.markup? = .ok none)
    (hternary : s.splitTernary? = .ok none)
    (hand : s.splitAnd? = .ok (some (condition, body))) (hbody : body.text = g.bodyText) :
    slotForm? slot ctx s =
      (do return some [← conditional slot ctx s.span .logicalAnd (condition, body) [] none]) := by
  rw [slotForm?, hmarkup, ternary?_eq_none hternary, logicalAnd?_guard g hand hbody]
  rfl

theorem slotForm?_ternary {slot : SlotAnalysis} (hmarkup : s.markup? = .ok none)
    (hternary : s.splitTernary? = .ok (some (condition, body, other)))
    (hbody : body.text = g.bodyText) (hother : other.text = "null") :
    slotForm? slot ctx s =
      (do return some [← conditional slot ctx s.span .ternary (condition, body) [] none]) := by
  rw [slotForm?, hmarkup, ternary?_guard g hternary hbody hother,
    ← conditional_isEmptyBranch slot s.span (Snippet.isEmptyBranch_null hother)]
  rfl

theorem length_lt_guard (c m : String) (idiom : Conditional.Idiom) :
    m.length < (idiom.guard c m).length := by
  have hand : " && ".length = 4 := rfl
  have hquery : " ? ".length = 3 := rfl
  have hcall : ")".length = 1 := rfl
  cases idiom <;> simp only [Conditional.Idiom.guard, String.length_append] <;> omega

theorem alike_guard {e : Expression} {place place' : Span} (idiom : Conditional.Idiom)
    (he : ∀ condition : Snippet, condition.text = g.conditionText →
      expression ctx condition .condition = pure e)
    (hfile : place'.file = place.file) (hn : (idiom.guard c m).length < n)
    (hn' : (Text.trim m).length < n') :
    unplaced.Alike (Guards idiom e) (children (slot n) ctx {} [.slot place (idiom.guard c m)])
      (children (slot n') ctx {} [.slot place' (Text.trim m)]) := by
  have hlength := length_lt_guard c m idiom
  have hbody := g.length_body
  have hn' : g.bodyText.length < n' := g.trim_markup ▸ hn'
  have halone : (Snippet.ofSpan (Text.trim m) place').text = g.bodyText := g.trim_markup
  have hfile : (Snippet.ofSpan (Text.trim m) place').file =
      (Snippet.ofSpan (idiom.guard c m) place).file := by
    unfold Snippet.ofSpan
    rw [hfile]
  rw [children_slot (g.chainCall?_body halone)]
  cases idiom with
  | explicitChain =>
    obtain ⟨condition, body, hcall, hparts⟩ :=
      g.recognised_call (s := .ofSpan (Conditional.Idiom.explicitChain.guard c m) place) rfl
    rw [children_call hcall rfl rfl, ← bind_pure (slot n' ctx _)]
    refine (alike_conditional g _ _ he hparts halone hfile (by omega) hn').bind
      fun node nodes' hnode => ?_
    exact .pure hnode
  | logicalAnd =>
    obtain ⟨n, rfl⟩ : ∃ k, n = k + 1 := Nat.exists_eq_add_one.mpr (by omega)
    obtain ⟨hstrip, hne, hcall, hmarkup, hternary, condition, body, hand, hparts⟩ :=
      g.recognised_and (s := .ofSpan (Conditional.Idiom.logicalAnd.guard c m) place) rfl
    rw [children_slot (Snippet.chainCall?_eq_none hstrip hcall)]
    exact alike_slot g _ he hstrip hne
      (slotForm?_and g hmarkup hternary hand hparts.markup) hparts halone hfile (by omega) hn'
  | ternary =>
    obtain ⟨n, rfl⟩ : ∃ k, n = k + 1 := Nat.exists_eq_add_one.mpr (by omega)
    obtain ⟨hstrip, hne, hcall, hmarkup, condition, body, other, hternary, hparts, hother⟩ :=
      g.recognised_ternary (s := .ofSpan (Conditional.Idiom.ternary.guard c m) place) rfl
    rw [children_slot (Snippet.chainCall?_eq_none hstrip hcall)]
    exact alike_slot g _ he hstrip hne
      (slotForm?_ternary g hmarkup hternary hparts.markup hother) hparts halone hfile (by omega)
      hn'

/-- The component with an element that has a slot as its only child as its markup. -/
def withSlot (component : ComponentCompiler.Component) (span : Span) (name : String)
    (attributes : List Markup.Attribute)
    (place : Span) (source : String) : ComponentCompiler.Component :=
  { component with markup := .element span name attributes [.slot place source] }

theorem paired_analyse {component component' : ComponentCompiler.Component}
    {R : List Node → List Node → Prop} (h : unplaced.Alike R
      (node (slot (longestSlot component.markup + 1)) { reactive } component.markup)
      (node (slot (longestSlot component'.markup + 1)) { reactive } component'.markup)) :
    Paired unplaced.failure
      (fun view view' => R view.root view'.root ∧
        view.diagnostics.map Diagnostic.unplaced = view'.diagnostics.map Diagnostic.unplaced)
      (analyse component reactive) (analyse component' reactive) := by
  obtain ⟨hresult, hreports⟩ := h [] [] .nil
  unfold analyse
  dsimp only
  generalize (node (slot (longestSlot component.markup + 1)) { reactive } component.markup).run [] =
    run at hresult hreports ⊢
  generalize (node (slot (longestSlot component'.markup + 1)) { reactive } component'.markup).run
    [] = run' at hresult hreports ⊢
  obtain ⟨result, reports⟩ := run
  obtain ⟨result', reports'⟩ := run'
  cases hresult with
  | error hfailure => exact .error hfailure
  | ok hroot =>
    refine .ok ⟨hroot, ?_⟩
    rwa [← List.forall₂_eq_eq_eq, List.forall₂_map_left_iff, List.forall₂_map_right_iff]

theorem alike_element {e : Expression} {attributes : List Markup.Attribute}
    {span span' place place' : Span} (idiom : Conditional.Idiom)
    (he : ∀ condition : Snippet, condition.text = g.conditionText →
      expression ctx condition .condition = pure e)
    (hattributes : List.Forall₂ unplaced.Attribute attributes attributes) (name : String)
    (hfile : place'.file = place.file) (hn : (idiom.guard c m).length < n)
    (hn' : (Text.trim m).length < n') :
    unplaced.Alike (GuardsIn idiom e span span')
      (node (slot n) ctx (.element span name attributes [.slot place (idiom.guard c m)]))
      (node (slot n') ctx (.element span' name attributes [.slot place' (Text.trim m)])) := by
  rw [node, node]
  refine (Related.foldlM hattributes
    (fun attr attr' hattr tag tag' htag => lawful_unplaced.addAttribute hattr htag) ?_).bind ?_
  . exact ⟨rfl, .start _ _⟩
  . rintro tag _ ⟨rfl, _⟩
    refine (alike_guard g idiom he hfile hn hn').bind fun nodes nodes' hnodes => ?_
    exact .pure ⟨tag, nodes, nodes', rfl, rfl, hnodes⟩

theorem attributes_of_element {children : List Markup.Node}
    (h : Markup.Node.parse text file origin = .ok (.element span name attributes children)) :
    List.Forall₂ unplaced.Attribute attributes attributes := by
  have hsites := Markup.sites_balanced h
  rw [Markup.Node.sites, List.forall_mem_append] at hsites
  refine attributes_of_sameShape (List.forall₂_same.mpr fun attr _ => ?_) hsites.1
  cases attr <;> constructor

theorem longestSlot_withSlot (component : ComponentCompiler.Component) (span : Span) (name : String)
    (attributes : List Markup.Attribute) (place : Span) (source : String) :
    longestSlot (withSlot component span name attributes place source).markup = source.length := by
  rw [withSlot, longestSlot, longestSlotOf, longestSlotOf, longestSlot, Nat.max_zero]

theorem paired_guard {attributes : List Markup.Attribute} {e : Expression} {place place' : Span}
    (idiom : Conditional.Idiom) (he : ∀ condition : Snippet, condition.text = g.conditionText →
      expression { reactive } condition .condition = pure e)
    (hattributes : List.Forall₂ unplaced.Attribute attributes attributes)
    (component : ComponentCompiler.Component) (name : String)
    (span span' : Span) (hfile : place'.file = place.file) :
    Paired unplaced.failure
      (fun view alone => GuardsIn idiom e span span' view.root alone.root ∧
        view.diagnostics.map Diagnostic.unplaced = alone.diagnostics.map Diagnostic.unplaced)
      (analyse (withSlot component span name attributes place (idiom.guard c m)) reactive)
      (analyse (withSlot component span' name attributes place' (Text.trim m)) reactive) := by
  apply paired_analyse
  rw [longestSlot_withSlot, longestSlot_withSlot]
  exact alike_element g idiom he hattributes name hfile (Nat.lt_succ_self _) (Nat.lt_succ_self _)

/-- The ways to write that a condition guards markup have one meaning. For a condition whose
brackets match, without operators weaker than `&&` and commas outside of them, and for markup that
can be read, let the only child of an element be a slot in which the condition guards the markup.
Either the markup has a problem, and each of them fails for that problem, or each is analysed to a
conditional with the condition and, but for places, with the branch and the reports that the markup
has as a slot by itself. -/
theorem analyse_guard {c m text file file' : String} {origin origin' : Origin} {tokens : List Token}
    {items : List Item} {first last : Token} {tree : Markup.Node} {span : Span} {name : String}
    {attributes : List Markup.Attribute}
    {children : List Markup.Node} (hscan : Token.scan c = .ok tokens)
    (hgroup : Token.group tokens = .ok items)
    (hfirst : tokens.head? = some first) (hlast : tokens.getLast? = some last)
    (hstop : last.stop = c.length)
    (hweaker : ∀ item ∈ items, ∀ value ∈ ["?", "||", "??", ","], item.isPunct value = false)
    (hstart : m.toList.head? = some '<') (hparse : Markup.Node.parse m file origin = .ok tree)
    (helement : Markup.Node.parse text file' origin' = .ok (.element span name attributes children))
    (component : ComponentCompiler.Component) (reactive : List String) (place : Span) :
    (∃ problem,
      (∃ e, analyse (withSlot component span name attributes place (Text.trim m)) reactive =
        .error (.compile e) ∧
        e.problem = problem) ∧
      ∀ (idiom : Conditional.Idiom) (span' place' : Span), place'.file = place.file → ∃ e,
        analyse (withSlot component span' name attributes place' (idiom.guard c m)) reactive =
          .error (.compile e) ∧
        e.problem = problem) ∨
    ∃ alone tag nodes condition,
      analyse (withSlot component span name attributes place (Text.trim m)) reactive = .ok alone ∧
      alone.root = [.element span tag nodes] ∧
      expression { reactive } { text := Text.slice c first.start c.length } .condition =
        pure condition ∧
      ∀ (idiom : Conditional.Idiom) (span' place' : Span), place'.file = place.file →
        ∃ (view : Component) (here : Span) (body : List Node),
        analyse (withSlot component span' name attributes place' (idiom.guard c m)) reactive =
          .ok view ∧
        view.root =
          [.element span' tag
            [.conditional here idiom (!condition.isReactive) condition body [] none]] ∧
        Node.unplacedAll body = Node.unplacedAll nodes ∧
        view.diagnostics.map Diagnostic.unplaced = alone.diagnostics.map Diagnostic.unplaced := by
  obtain ⟨g, rfl⟩ := Snippet.exists_guarded hscan hgroup hlast hstop hweaker hstart hparse
  obtain ⟨condition, hcondition⟩ := expression_condition g { reactive }
  cases hfirst
  have hattributes := attributes_of_element helement
  have hpaired : ∀ (idiom : Conditional.Idiom) (span' place' : Span),
      place'.file = place.file → _ :=
    fun idiom span' place' hfile =>
      paired_guard g idiom hcondition hattributes component name span' span hfile.symm
  generalize analyse (withSlot component span name attributes place (Text.trim m)) reactive =
    result at hpaired ⊢
  cases result with
  | error failure =>
    obtain ⟨_, _, _, e, _, rfl, _⟩ := (hpaired .logicalAnd span place rfl).exists_error
    refine .inl ⟨e.problem, ⟨e, rfl, rfl⟩, ?_⟩
    intro idiom span' place' hfile
    obtain ⟨_, hresult, e', _, rfl, hsame, hproblem⟩ :=
      (hpaired idiom span' place' hfile).exists_error
    cases hsame
    exact ⟨e', hresult, hproblem⟩
  | ok alone =>
    obtain ⟨_, _, ⟨tag, _, nodes, _, hroot, _⟩, _⟩ := (hpaired .logicalAnd span place rfl).exists_ok
    refine .inr ⟨alone, tag, nodes, condition, rfl, hroot, ?_, ?_⟩
    . apply hcondition
      exact g.slice_condition
    . intro idiom span' place' hfile
      obtain ⟨view, hview, ⟨_, _, _, hview', hroot', here, body, rfl, hbody⟩, hreports⟩ :=
        (hpaired idiom span' place' hfile).exists_ok
      cases hroot.symm.trans hroot'
      exact ⟨view, here, body, hview, hview', hbody, hreports⟩

/-- A condition that reads a container, and markup that shows it, in an element with an
attribute. -/
theorem analyse_guard_container :
    let component : ComponentCompiler.Component :=
      ⟨default, "A", true, true, [], [], .slot default ""⟩
    let m := "<b>\x7bn\x7d</b> "
    ∃ (span : Span) (attributes : List Markup.Attribute) (alone : Component) (tag : Tag)
      (nodes : List Node) (condition : Expression),
      attributes.length = 1 ∧
      analyse (withSlot component span "p" attributes default (Text.trim m)) ["n"] = .ok alone ∧
      alone.root = [.element span tag nodes] ∧
      expression { reactive := ["n"] } { text := "!n" } .condition = pure condition ∧
      ∀ (idiom : Conditional.Idiom) (span' place' : Span), place'.file = none →
      ∃ (view : Component) (here : Span) (body : List Node),
        analyse (withSlot component span' "p" attributes place' (idiom.guard "!n" m)) ["n"] =
          .ok view ∧
        view.root =
          [.element span' tag
            [.conditional here idiom (!condition.isReactive) condition body [] none]] ∧
        Node.unplacedAll body = Node.unplacedAll nodes ∧
        view.diagnostics.map Diagnostic.unplaced = alone.diagnostics.map Diagnostic.unplaced := by
  intro component m
  have helement : ((Markup.Node.parse "<p id=\x7bn\x7d/>" "" {}).toOption.any fun element =>
      @Markup.Node.casesOn (fun _ => Bool) element
        (fun span name attributes children =>
          decide (name = "p" ∧ attributes.length = 1 ∧ children.length = 0) &&
          (analyse (withSlot component span "p" attributes default (Text.trim m))
            ["n"]).toOption.isSome)
        (fun _ _ => false) (fun _ _ => false) (fun _ _ => false)) = true := by
    decide +kernel
  have hparse : ((Markup.Node.parse m "" {}).toOption.any fun _ => true) = true := by
    decide +kernel
  have hscan : Token.scan "!n" = .ok [⟨.punct, "!", 0, 1, false⟩, ⟨.name, "n", 1, 2, false⟩] := by
    decide +kernel
  obtain ⟨element, helement, hsome⟩ := exists_ok_of_any helement
  obtain ⟨tree, hparse, _⟩ := exists_ok_of_any hparse
  cases element with
  | element span name attributes children =>
    rw [Bool.and_eq_true, decide_eq_true_eq] at hsome
    obtain ⟨⟨rfl, hlength, hchildren⟩, hsome⟩ := hsome
    rw [List.length_eq_zero_iff] at hchildren
    subst hchildren
    have hresult := analyse_guard hscan rfl rfl rfl rfl (by decide)
      (by decide) hparse helement component ["n"] default
    rcases hresult with ⟨_, ⟨e, herror, _⟩, _⟩ | ⟨alone, tag, nodes, condition, hresult⟩
    . simp [herror, Except.toOption] at hsome
    . exact ⟨span, attributes, alone, tag, nodes, condition, hlength, hresult⟩
  | _ => cases hsome

end View
end ComponentCompiler
