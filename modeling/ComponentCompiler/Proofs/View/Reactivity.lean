import ComponentCompiler.Proofs.Scope.Reach
import ComponentCompiler.Proofs.Snippet.Parameter
import ComponentCompiler.Proofs.View.Invariant

/-!
This module contains that what analysed markup says about reactivity is coherent: something is
reactive exactly if it reads containers, each of them for a reason, and none of them is a name that
a loop around it binds.
-/

namespace ComponentCompiler

/-- The tokens read `name.value`, where the name is no member of something else. -/
def Token.ReadValue (previous : Option Token) (tokens : List Token) (name : String) : Prop :=
  ∃ before root dot field after,
    tokens = before ++ root :: dot :: field :: after ∧ root.kind = .name ∧ root.value = name ∧
    (dot.value = "." ∨ dot.value = "?.") ∧ field.isName "value" = true ∧
    ∀ last ∈ before.getLast?.or previous, last.value ≠ "." ∧ last.value ≠ "?."

def ReadsValue (text name : String) : Prop :=
  ∃ tokens, Token.scan text = .ok tokens ∧ Token.ReadValue none tokens name

/-- Why the containers are those that an expression reads: each is known or read by its value, and
none of them is a bound name. -/
structure Justified (ctx : View.Context) (text : String) (dependencies : List String) : Prop where
  nodup : dependencies.Nodup
  known : ∀ name ∈ dependencies, name ∈ ctx.reactive ∨ ReadsValue text name
  unbound : ∀ name ∈ dependencies, name ∉ ctx.bound

namespace Snippet

variable {s : Snippet} {tokens : List Token} {previous : Option Token} {name : String}

theorem readValue_cons {token : Token} (h : Token.ReadValue (some token) tokens name) :
    Token.ReadValue previous (token :: tokens) name := by
  obtain ⟨before, root, dot, field, after, rfl, hkind, hvalue, hdot, hfield, hlast⟩ := h
  refine ⟨token :: before, root, dot, field, after, rfl, hkind, hvalue, hdot, hfield, ?_⟩
  cases before with
  | nil => simpa using hlast
  | cons first before =>
    rw [List.getLast?_cons_cons]
    rw [List.getLast?_eq_some_getLast (List.cons_ne_nil first before)] at hlast ⊢
    exact hlast

theorem readValue_of_mem_rootsOf (h : name ∈ rootsOf previous tokens) :
    Token.ReadValue previous tokens name := by
  induction tokens generalizing previous with
  | nil => simp [rootsOf] at h
  | cons token more ih =>
    unfold rootsOf at h
    dsimp only at h
    split at h
    . next dot field after =>
      split at h
      . next hroot =>
        simp only [Bool.and_eq_true, Bool.not_eq_true', beq_iff_eq, rootsOf.isDot,
          Bool.or_eq_true] at hroot
        obtain ⟨⟨⟨hkind, hprevious⟩, hdot⟩, hfield⟩ := hroot
        rcases List.mem_cons.mp h with rfl | h
        . refine ⟨[], token, dot, field, after, rfl, hkind, rfl, hdot, hfield, ?_⟩
          intro last hlast
          cases hlast
          simpa [rootsOf.isDot] using hprevious
        . exact readValue_cons (ih h)
      . exact readValue_cons (ih h)
    . rw [if_neg Bool.false_ne_true] at h
      exact readValue_cons (ih h)

theorem justified_of_dependencies {ctx : View.Context} {deps : List String}
    (h : s.dependencies ctx.reactive ctx.bound = .ok deps) : Justified ctx s.text deps := by
  obtain ⟨roots, hroots, h⟩ := bind_eq_ok.mp h
  obtain ⟨names, hnames, h⟩ := bind_eq_ok.mp h
  obtain ⟨tokens, hscan, hroots⟩ := bind_eq_ok.mp hroots
  obtain ⟨uses, huses, hnames⟩ := bind_eq_ok.mp hnames
  cases h
  cases hroots
  cases hnames
  constructor
  . exact (nodup_distinct _).filter _
  . intro name hname
    obtain ⟨_, hname⟩ := List.mem_filter.mp hname
    simp only [Bool.or_eq_true, List.contains_iff_mem, mem_distinct] at hname
    rcases hname with hname | hname
    . exact .inl hname
    . exact .inr ⟨tokens, hscan, readValue_of_mem_rootsOf hname⟩
  . intro name hname hbound
    obtain ⟨hname, _⟩ := List.mem_filter.mp hname
    rw [mem_distinct, List.mem_filter] at hname
    simp [hbound] at hname

end Snippet

namespace View

/-- Snippets that the analysis of markup comes across: its slots, what is cut out of them, and the
slots of the markup that they are. -/
inductive CutFrom (tree : Markup.Node) : Snippet → Prop where
  | slot {site : Markup.Site} (hsite : site ∈ tree.sites) (hrole : site.role = .child) :
    CutFrom tree (.ofSpan site.source site.span)
  | sub (h : CutFrom tree s) (hstart : start ≤ s.text.length) : CutFrom tree (s.sub start stop)
  | nested {site : Markup.Site} (h : CutFrom tree s)
      (hparse : Markup.Node.parse s.text s.file s.origin = .ok inside) (hsite : site ∈ inside.sites)
      (hrole : site.role = .child) : CutFrom tree (.ofSpan site.source site.span)

/-- A snippet of the component that repeats a function, and the head of the loop that it is. -/
structure LoopOf (tree : Markup.Node) (s : Snippet) (head : Loop) (callback : Snippet.Arrow) :
    Prop where
  cut : CutFrom tree s
  repeats : ∃ iterable, Repeats s iterable callback ∧ head.iterable = iterable.text
  item : head.item = callback.parameters.headD "item"
  index : head.index = callback.parameters[1]?
  names : callback.names = callback.parameters.flatMap Name.boundBy

theorem parameters_of_repeats {iterable : Snippet} (h : Repeats s iterable callback) :
    (∀ p ∈ callback.parameters, Name.IsParameter p) ∧
      callback.names = callback.parameters.flatMap Name.boundBy := by
  cases h with
  | each _ _ _ hrender => exact Snippet.parameters_of_arrow? hrender
  | map _ hrender => exact Snippet.parameters_of_arrow? hrender

theorem loopOf_of_head {ρ : Relation} (hs : CutFrom tree s)
    (hhead : ρ.LoopHead ctx s head callback nodes) : LoopOf tree s head callback := by
  obtain ⟨_, hrepeats, _⟩ := hhead.repeats
  exact ⟨hs, hhead.repeats, hhead.item, hhead.index, (parameters_of_repeats hrepeats).2⟩

/-- What a node says about reactivity is right where it stands. In the body of a loop, the names
that its callback takes are bound. -/
inductive Coherent (tree : Markup.Node) : Context → Node → Prop where
  | text : Coherent tree ctx (.text span value)
  | placeholder : Coherent tree ctx (.placeholder span raw reason)
  | expression (h : Justified ctx e.raw e.dependencies) : Coherent tree ctx (.expression span e)
  | element (hreactive : ∀ p ∈ tag.props, p.isReactive = true ↔ p.dependencies ≠ [])
      (hprops : ∀ p ∈ tag.props, Justified ctx p.value p.dependencies)
      (hbody : ∀ node ∈ body, Coherent tree ctx node) :
    Coherent tree ctx (.element span tag body)
  | conditional
      (hstatic : isStatic = true ↔ ∀ e ∈ condition :: elseIfs.map (·.1), e.dependencies = [])
      (hconditions : ∀ e ∈ condition :: elseIfs.map (·.1), Justified ctx e.raw e.dependencies)
      (hbody : ∀ node ∈ body, Coherent tree ctx node)
      (helseIfs : ∀ branch ∈ elseIfs, ∀ node ∈ branch.2, Coherent tree ctx node)
      (hotherwise : ∀ nodes, otherwise = some nodes → ∀ node ∈ nodes, Coherent tree ctx node) :
    Coherent tree ctx (.conditional span idiom isStatic condition body elseIfs otherwise)
  | loop (hloop : LoopOf tree s head callback)
      (hreactive : head.isReactive = true ↔ head.dependencies ≠ [])
      (hiterable : Justified ctx head.iterable head.dependencies)
      (hbody : ∀ node ∈ body,
        Coherent tree { ctx with bound := ctx.bound ++ callback.names } node) :
    Coherent tree ctx (.loop s.span head body)

def coherence (tree : Markup.Node) : Invariant where
  snippet := CutFrom tree
  place _ := True
  follows _ _ := True
  expression := Justified
  node := Coherent tree

mutual

theorem tree_of_sites {I : Invariant} (hplace : ∀ span, I.place span)
    (hfollows : ∀ s t, I.follows s t) (inside : Markup.Node)
    (h : ∀ site ∈ inside.sites, site.role = .child → I.snippet (.ofSpan site.source site.span)) :
    I.relation.Tree inside inside := by
  match inside with
  | .text _ _ => exact .text ⟨rfl, hplace _⟩
  | .slot span source => exact .slot ⟨rfl, h ⟨.child, span, source⟩ List.mem_cons_self rfl⟩
  | .fragment _ nodes => exact .fragment (trees_of_sites hplace hfollows nodes h)
  | .element _ _ attributes nodes =>
    rw [Markup.Node.sites, List.forall_mem_append] at h
    refine .element ⟨rfl, hplace _⟩ (List.forall₂_same.mpr ?_)
      (trees_of_sites hplace hfollows nodes h.2)
    intro attr _
    cases attr with
    | string => exact .string
    | expression => exact .expression trivial
    | boolean => exact .boolean
    | spread => exact .spread

theorem trees_of_sites {I : Invariant} (hplace : ∀ span, I.place span)
    (hfollows : ∀ s t, I.follows s t) (nodes : List Markup.Node)
    (h : ∀ site ∈ Markup.Node.sitesAll nodes, site.role = .child →
      I.snippet (.ofSpan site.source site.span)) : I.relation.Trees nodes nodes := by
  match nodes with
  | [] => exact .nil
  | node :: nodes =>
    rw [Markup.Node.sitesAll, List.forall_mem_append] at h
    refine .cons (tree_of_sites hplace hfollows node h.1)
      (trees_of_sites hplace hfollows nodes h.2) ?_
    exact fun _ _ _ _ _ _ => hfollows _ _

end

theorem lawful_coherence (tree : Markup.Node) : (coherence tree).Lawful where
  place := fun _ => trivial
  sub := fun _ _ _ h hstart => .sub h hstart
  reading := Snippet.justified_of_dependencies
  markup := by
    intro s inside h hparse
    exact tree_of_sites (fun _ => trivial) (fun _ _ => trivial) inside fun _ hsite hrole =>
      .nested h hparse hsite hrole
  follows_self := fun _ => trivial
  chainSpan := fun _ _ _ => trivial
  textNode := fun _ => .text
  expressionNode := fun _ _ h => .expression h
  placeholderNode := fun _ => .placeholder
  elementNode := by
    intro ctx span tag nodes _ htag hnodes
    refine .element ?_ ?_ hnodes
    . intro p hp
      rw [(htag.props p hp).1]
      simp
    . intro p hp
      by_cases hdeps : p.dependencies = []
      . rw [hdeps]
        exact ⟨List.nodup_nil, by simp, by simp⟩
      . exact (htag.props p hp).2 hdeps
  conditionalNode := by
    intro ctx span idiom isStatic condition body elseIfs otherwise _ h
    refine .conditional ?_ h.conditions h.body h.elseIfs h.otherwise
    rw [h.isStatic]
    simp [Expression.isReactive]
  loopNode := by
    intro ctx s head callback nodes hs hhead hnodes
    refine .loop (loopOf_of_head hs hhead) ?_ hhead.dependencies hnodes
    rw [hhead.isReactive]
    simp

theorem coherent_of_analyse {component : ComponentCompiler.Component} {view : Component}
    (h : analyse component reactive = .ok view) :
    ∀ node ∈ view.root, Coherent component.markup { reactive } node := by
  have htree : (coherence component.markup).relation.Tree component.markup component.markup :=
    tree_of_sites (fun _ => trivial) (fun _ _ => trivial) component.markup fun _ hsite hrole =>
      .slot hsite hrole
  exact ((lawful_coherence component.markup).analyse htree h).1

end View
end ComponentCompiler
