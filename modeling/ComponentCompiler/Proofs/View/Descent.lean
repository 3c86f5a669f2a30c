import ComponentCompiler.Proofs.Descent
import ComponentCompiler.Proofs.View.Reactivity

/-!
This module contains that the analysis of markup comes to an end. From a snippet its recursion, and
the two loops in it, go on only with snippets of a shorter text. So each of them has one solution,
and with this solution a component is analysed.
-/

namespace ComponentCompiler
namespace View

open Analysis (Related)

/-! ### Loops -/

/-- One pass of the loop that takes parentheses off a snippet. -/
def stripPass (next : Snippet → Except ScanError Snippet) (s : Snippet) :
    Except ScanError Snippet := do
  match ← s.items with
  | [.group .paren opener _ closer] => next (s.sub opener.stop closer.start).strip
  | _ => return s

/-- One pass of the loop along the last parts of a ternary. -/
def ternaryPass (next : Snippet → Except ScanError (List (Snippet × Snippet) × Snippet))
    (s : Snippet) :
    Except ScanError (List (Snippet × Snippet) × Snippet) := do
  match ← (← s.stripParens).splitTernary? with
  | none => return ([], s)
  | some (condition, value, rest) =>
    let (more, last) ← next rest
    return ((condition, value) :: more, last)

theorem length_unwrap_lt {s : Snippet} {inner : List Item} {opener closer : Token}
    (hitems : s.items = .ok [.group .paren opener inner closer]) :
    (s.sub opener.stop closer.start).strip.text.length < s.text.length := by
  obtain ⟨tokens, hscan, hgroup⟩ := bind_eq_ok.mp hitems
  have hmem : closer ∈ tokens := by
    rw [← Token.flattenAll_group hgroup]
    simp [Item.flattenAll, Item.flatten]
  have hcloser := Token.start_lt_of_scanWindow hscan hmem
  have hstrip := Snippet.length_strip_le (s.sub opener.stop closer.start)
  have hsub := Snippet.length_sub_le s opener.stop closer.start
  omega

theorem descends_stripPass : Descends (·.text.length) stripPass := by
  intro next next' s h
  unfold stripPass
  cases hitems : s.items with
  | error e => rfl
  | ok items =>
    rw [ok_bind, ok_bind]
    split
    . apply h
      exact length_unwrap_lt hitems
    . rfl

/-! ### Slots -/

/-- Nothing is said of an analysis but that it is compared with itself. -/
def anything : Invariant where
  snippet _ := True
  place _ := True
  follows _ _ := True
  expression _ _ _ := True
  node _ _ := True
  failure _ := True
  report _ := True

theorem tree_anything (tree : Markup.Node) : anything.relation.Tree tree tree :=
  tree_of_sites (fun _ => trivial) (fun _ _ => trivial) tree fun _ _ _ => trivial

theorem lawful_anything : anything.relation.Lawful :=
  Invariant.Lawful.relation {
    failure _ := trivial
    report _ := trivial
    place _ := trivial
    sub _ _ _ _ _ := trivial
    reading _ := trivial
    markup _ _ := tree_anything _
    follows_self _ := trivial
    chainSpan _ _ _ := trivial
    textNode _ := trivial
    expressionNode _ _ _ := trivial
    placeholderNode _ := trivial
    elementNode _ _ _ := trivial
    conditionalNode _ _ := trivial
    loopNode _ _ _ := trivial }

theorem descends_ternaryPass : Descends (·.text.length) ternaryPass := by
  intro next next' s h
  have hstrip := lawful_anything.stripParens (s := s) ⟨⟨rfl, trivial⟩, Nat.lt_succ_self _⟩
  unfold ternaryPass
  generalize s.stripParens = result at hstrip
  cases hstrip with
  | error => rfl
  | @ok t _ ht =>
    have hsplit := lawful_anything.splitTernary? (s := t) ⟨⟨rfl, trivial⟩, ht.2⟩
    rw [ok_bind, ok_bind]
    generalize t.splitTernary? = result at hsplit
    cases hsplit with
    | error => rfl
    | ok hparts =>
      cases hparts with
      | none => rfl
      | @some parts _ hparts =>
        obtain ⟨condition, value, rest⟩ := parts
        rw [ok_bind, ok_bind]
        dsimp only
        rw [h rest hparts.2.2]

theorem alike_anything {x y : Analysis (List Node)} :
    anything.relation.Alike (anything.relation.Nodes ctx) x y ↔ x = y := by
  have hreflexive (reports : List Diagnostic) :
      List.Forall₂ anything.relation.report reports reports :=
    List.forall₂_same.mpr fun _ _ => ⟨rfl, trivial⟩
  have hequal {reports reports' : List Diagnostic}
      (h : List.Forall₂ anything.relation.report reports reports') : reports = reports' :=
    List.forall₂_eq_eq_eq ▸ h.imp fun _ _ h => h.1
  constructor
  . intro h
    funext reports
    obtain ⟨hresult, hreports⟩ := h reports reports (hreflexive reports)
    apply Prod.ext
    . change (x.run reports).1 = (y.run reports).1
      generalize (x.run reports).1 = result, (y.run reports).1 = result' at hresult
      cases hresult with
      | ok h => rw [(Invariant.nodes_iff.mp h).1]
      | error h => rw [h.1]
    . exact hequal hreports
  . rintro rfl reports reports' hreports
    obtain rfl := hequal hreports
    refine ⟨.self (fun nodes _ => ?_) fun _ _ => ⟨rfl, trivial⟩, hreflexive _⟩
    exact Invariant.nodes_iff.mpr ⟨rfl, fun _ _ => trivial⟩

/-- One pass of the recursion on slots. -/
def analysisPass (next : Snippet → Context → Analysis (List Node)) :
    Snippet → Context → Analysis (List Node) :=
  flip (slotPass (flip next))

theorem slots_anything {k : Nat} {next next' : Snippet → Context → Analysis (List Node)}
    (h : ∀ s : Snippet, s.text.length < k → next s = next' s) :
    anything.relation.Slots k (flip next) (flip next') := by
  rintro ctx s _ ⟨⟨rfl, _⟩, hs⟩
  exact alike_anything.mpr (congrFun (h s hs) ctx)

theorem descends_analysisPass : Descends (·.text.length) analysisPass := by
  intro next next' s h
  funext ctx
  apply alike_anything.mp
  exact lawful_anything.slotPass (slots_anything h) ⟨⟨rfl, trivial⟩, Nat.lt_succ_self _⟩

/-! ### Components -/

/-- Parentheses, ternaries and slots are each taken apart by a recursion that goes on with shorter
texts only, and what is computed is its one solution. So the analysis of a component ends, with a
tree or with a failure. -/
theorem analyse_ends :
    (Descends (·.text.length) stripPass ∧ ∃ strip, Solves stripPass strip ∧
      ∀ s : Snippet, s.stripParens = strip s.strip) ∧
    (Descends (·.text.length) ternaryPass ∧ ∃ tail, Solves ternaryPass tail ∧
      ∀ s, ternaryTail s = tail s) ∧
    Descends (·.text.length) analysisPass ∧ ∃ slot, Solves analysisPass slot ∧
      ∀ (component : ComponentCompiler.Component) (reactive : List String),
        (∃ root reports, (node (flip slot) { reactive } component.markup).run [] =
          (.ok root, reports) ∧
          analyse component reactive = .ok ⟨component.name, root, sorted reactive, reports⟩) ∨
        ∃ failure reports, (node (flip slot) { reactive } component.markup).run [] =
          (.error failure, reports) ∧
          analyse component reactive = .error failure := by
  refine ⟨⟨descends_stripPass, ?_⟩, ⟨descends_ternaryPass, ?_⟩, descends_analysisPass, ?_⟩
  . obtain ⟨strip, hsolves, hbounded⟩ :=
      descends_stripPass.exists_solution (f := Snippet.stripParens.go) fun _ => rfl
    refine ⟨strip, hsolves, ?_⟩
    intro s
    apply hbounded
    exact Nat.lt_succ_of_le (Snippet.length_strip_le s)
  . obtain ⟨tail, hsolves, hbounded⟩ :=
      descends_ternaryPass.exists_solution (f := ternaryTail.go) fun _ => rfl
    exact ⟨tail, hsolves, fun s => hbounded _ s (Nat.lt_succ_self _)⟩
  . obtain ⟨slot, hsolves, hbounded⟩ :=
      descends_analysisPass.exists_solution (f := fun n => flip (View.slot n)) fun _ => rfl
    refine ⟨slot, hsolves, ?_⟩
    intro component reactive
    have hslots := slots_anything (hbounded (longestSlot component.markup + 1))
    have hnode : node (View.slot (longestSlot component.markup + 1)) { reactive } component.markup
        = node (flip slot) { reactive } component.markup :=
      alike_anything.mp
        (lawful_anything.node hslots (tree_anything component.markup) (Nat.lt_succ_self _))
    unfold analyse
    dsimp only
    rw [← hnode]
    change (∃ root reports, (node (View.slot _) _ _).run [] = _ ∧ _) ∨
      ∃ failure reports, (node (View.slot _) _ _).run [] = _ ∧ _
    rcases (node (View.slot (longestSlot component.markup + 1)) { reactive } component.markup).run
      [] with ⟨_ | root, reports⟩
    . exact .inr ⟨_, _, rfl, rfl⟩
    . exact .inl ⟨_, _, rfl, rfl⟩

end View
end ComponentCompiler
