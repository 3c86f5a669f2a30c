import ComponentCompiler.Proofs.View.Relation

/-!
This module contains that the analysis keeps to a relation between its parts: related markup is
analysed to related trees with related reports, or fails in related ways. What has to be shown of a
relation is what its laws say, one for each form of node.
-/

namespace ComponentCompiler
namespace View

open Analysis (Related)

def helperCall? : Markup.Node → Option Snippet.Call
  | .slot span source =>
    match (Snippet.ofSpan source span).chainCall? with
    | .ok call => call
    | .error _ => none
  | _ => none

theorem helperCall?_slot {source : String} {span : Span} {call : Option Snippet.Call}
    (h : (Snippet.ofSpan source span).chainCall? = .ok call) :
    helperCall? (.slot span source) = call := by
  unfold helperCall?
  dsimp only
  rw [h]

/-- A snippet that repeats a function over an iterable: a helper call, or a call of `map`. -/
inductive Repeats (s iterable : Snippet) (callback : Snippet.Arrow) : Prop where
  | each (hcall : s.call? = .ok (some call)) (hcallee : call.callee = "$each")
      (harguments : call.arguments = iterable :: render :: more)
      (hrender : render.arrow? = .ok (some callback))
  | map (hmap : s.mapCall? = .ok (some (iterable, render)))
      (hrender : render.arrow? = .ok (some callback))

/-- A snippet that comes with a function for the keys: the last argument of a helper call. -/
def GivesKey (s : Snippet) (arrow : Snippet.Arrow) : Prop :=
  ∃ call iterable render key, s.call? = .ok (some call) ∧ call.callee = "$each" ∧
    call.arguments = [iterable, render, key] ∧
    key.arrow? = .ok (some arrow)

theorem givesKey_of_mapM {s iterable render : Snippet} {key : Option Snippet} {call : Snippet.Call}
    {arrow : Snippet.Arrow} (heach : s.call? = .ok (some call)) (hcallee : call.callee = "$each")
    (hall : call.arguments = iterable :: render :: key.toList)
    (h : key.mapM Snippet.arrow? = .ok (some (some arrow))) : GivesKey s arrow := by
  cases key with
  | none => cases h
  | some key =>
    obtain ⟨result, hkey, hresult⟩ := bind_eq_ok.mp h
    obtain rfl := Option.some.inj (Except.ok.inj hresult)
    exact ⟨call, iterable, render, key, heach, hcallee, hall, hkey⟩

theorem guarded?_eq (call : Snippet.Call) :
    guarded? call
      =
    if call.callee = "$else" then none
    else
      match call.arguments with
      | condition :: body :: _ => some (condition, body)
      | _ => none := by
  unfold guarded?
  split <;> simp_all

theorem alternative?_eq (call : Snippet.Call) :
    alternative? call
      =
    if call.callee = "$if" then call.arguments[2]?
    else if call.callee = "$else" then call.arguments.head?
    else none := by
  unfold alternative?
  split <;> simp_all

namespace Relation

variable {ρ : Relation} {s s' t t' : Snippet} {k : Nat} {ctx : Context} {slot slot' : SlotAnalysis}

/-! ### Related markup -/

inductive Attribute (ρ : Relation) : Markup.Attribute → Markup.Attribute → Prop where
  | string : Attribute ρ (.string span name value) (.string span' name value)
  | boolean : Attribute ρ (.boolean span name) (.boolean span' name)
  | spread : Attribute ρ (.spread span value) (.spread span' value)
  | expression (hcode : ρ.code (Snippet.ofSpan value span).strip.text) :
      Attribute ρ (.expression span name value) (.expression span' name value)

mutual

inductive Tree (ρ : Relation) : Markup.Node → Markup.Node → Prop where
  | element (hplace : ρ.place span span')
      (hattributes : List.Forall₂ ρ.Attribute attributes attributes')
      (hnodes : Trees ρ nodes nodes') :
    Tree ρ (.element span tag attributes nodes) (.element span' tag attributes' nodes')
  | fragment (hnodes : Trees ρ nodes nodes') :
    Tree ρ (.fragment span nodes) (.fragment span' nodes')
  | text (hplace : ρ.place span span') : Tree ρ (.text span value) (.text span' value)
  | slot (hslot : ρ.snippet (.ofSpan source span) (.ofSpan source span')) :
    Tree ρ (.slot span source) (.slot span' source)

inductive Trees (ρ : Relation) : List Markup.Node → List Markup.Node → Prop where
  | nil : Trees ρ [] []
  | cons (htree : Tree ρ tree tree') (htrees : Trees ρ trees trees')
      (hfollows : ∀ call, helperCall? tree = some call →
        ∀ sibling ∈ trees, ∀ other, helperCall? sibling = some other →
        ρ.follows call.snippet other.snippet) :
      Trees ρ (tree :: trees) (tree' :: trees')

end

/-! ### Related results -/

abbrev Nodes (ρ : Relation) (ctx : Context) : List Node → List Node → Prop :=
  List.Forall₂ (ρ.node ctx)

abbrev Alike (ρ : Relation) (R : α → β → Prop) (x : Analysis α) (y : Analysis β) : Prop :=
  Related ρ.failure ρ.report R x y

def Reading (ρ : Relation) (ctx : Context) (e e' : Expression) : Prop :=
  e = e' ∧ ρ.expression ctx e.raw e.dependencies

def Property (ρ : Relation) (ctx : Context) (p : View.Property) : Prop :=
  p.isReactive = !p.dependencies.isEmpty ∧
    (p.dependencies ≠ [] → ρ.expression ctx p.value p.dependencies)

/-- What attributes make of a tag. What is given to a component is a property, be it named like an
event. -/
structure Attributed (ρ : Relation) (ctx : Context) (tag : Tag) : Prop where
  props : ∀ p ∈ tag.props, ρ.Property ctx p
  events : tag.isComponent = true → tag.events = []

inductive Conditional (ρ : Relation) (ctx : Context) (idiom idiom' : Conditional.Idiom) :
    Node → Node → Prop where
  | intro (hplace : ρ.place span span')
      (hcondition : ρ.expression ctx condition.raw condition.dependencies)
      (hbody : ρ.Nodes ctx body body')
      (helseIfs : List.Forall₂
        (fun b b' => ρ.Reading ctx b.1 b'.1 ∧ ρ.Nodes ctx b.2 b'.2) elseIfs elseIfs')
      (hotherwise : Option.Rel (ρ.Nodes ctx) otherwise otherwise')
      (hstatic : isStatic = !(condition :: elseIfs.map (·.1)).any (·.isReactive)) :
      Conditional ρ ctx idiom idiom'
        (.conditional span idiom isStatic condition body elseIfs otherwise)
        (.conditional span' idiom' isStatic condition body' elseIfs' otherwise')

structure LoopHead (ρ : Relation) (ctx : Context) (s : Snippet) (head : Loop)
    (callback : Snippet.Arrow) (nodes : List Node) : Prop where
  repeats : ∃ iterable, Repeats s iterable callback ∧ head.iterable = iterable.text
  item : head.item = callback.parameters.headD "item"
  index : head.index = callback.parameters[1]?
  isReactive : head.isReactive = !head.dependencies.isEmpty
  dependencies : ρ.expression ctx head.iterable head.dependencies
  key : ∃ keyed : Option Snippet.Arrow,
    (∀ arrow, keyed = some arrow → head.idiom = .eachHelper ∧ GivesKey s arrow) ∧
    head.key = keyed.elim (keyOf nodes) (fun arrow => some arrow.body.text) ∧
    head.keyParameter = keyed.bind (·.parameters.head?)

structure Lawful (ρ : Relation) : Prop extends Cuts ρ where
  /-- Only texts that can not be read are worked around. -/
  unreadable : ∀ {f f'}, ρ.failure f f' →
    (∃ problem pos problem' pos', f = .scan (.problem problem pos) ∧
    f' = .scan (.problem problem' pos')) ∨
      (∀ problem pos, f ≠ .scan (.problem problem pos)) ∧
      ∀ problem pos, f' ≠ .scan (.problem problem pos)
  report : ∀ {problem span span'}, ρ.place span span' →
    ρ.report (.of problem (some span) none) (.of problem (some span') none)
  reading : ∀ {ctx deps} {s : Snippet}, ρ.code s.text →
    s.dependencies ctx.reactive ctx.bound = .ok deps → ρ.expression ctx s.text deps
  markup : ∀ {s s' token}, ρ.snippet s s' → Token.scan s.text = .ok [token] → token.kind = .markup →
    Paired ρ.failure (fun tree tree' => ρ.Tree tree tree' ∧ longestSlot tree < s.text.length)
      (Markup.Node.parse s.text s.file s.origin) (Markup.Node.parse s'.text s'.file s'.origin)
  follows_self : ∀ {s s'}, ρ.snippet s s' → ρ.follows s s
  chainSpan : ∀ {first first' last last' : Snippet.Call}, ρ.snippet first.snippet first'.snippet →
    ρ.snippet last.snippet last'.snippet → ρ.follows first.snippet last.snippet →
    ρ.place (View.chainSpan first last) (View.chainSpan first' last')
  key : ∀ {ctx nodes nodes'}, ρ.Nodes ctx nodes nodes' → keyOf nodes = keyOf nodes'
  textNode : ∀ {ctx span span' value}, ρ.place span span' →
    ρ.node ctx (.text span value) (.text span' value)
  expressionNode : ∀ {ctx s s' e}, ρ.snippet s s' → e.raw = s.text →
    ρ.expression ctx e.raw e.dependencies →
    ρ.node ctx (.expression s.span e) (.expression s'.span e)
  placeholderNode : ∀ {ctx s s' reason}, ρ.snippet s s' →
    ρ.node ctx (.placeholder s.span s.text reason) (.placeholder s'.span s'.text reason)
  elementNode : ∀ {ctx span span' tag nodes nodes'}, ρ.place span span' → ρ.Attributed ctx tag →
    ρ.Nodes ctx nodes nodes' →
    ρ.node ctx (.element span tag nodes) (.element span' tag nodes')
  conditionalNode : ∀ {ctx idiom node node'}, ρ.Conditional ctx idiom idiom node node' →
    ρ.node ctx node node'
  loopNode : ∀ {ctx s s' head callback nodes nodes'}, ρ.snippet s s' →
    ρ.LoopHead ctx s head callback nodes →
    ρ.Nodes { ctx with bound := ctx.bound ++ callback.names } nodes nodes' →
    ρ.node ctx (.loop s.span head nodes) (.loop s'.span head nodes')

def Slots (ρ : Relation) (k : Nat) (slot slot' : SlotAnalysis) : Prop :=
  ∀ ⦃ctx s s'⦄, ρ.Below k s s' → ρ.Alike (ρ.Nodes ctx) (slot ctx s) (slot' ctx s')

theorem Below.succ (h : ρ.Below k s s') : ρ.Below (k + 1) s s' :=
  ⟨h.1, Nat.lt_succ_of_lt h.2⟩

theorem Call.hasArity {call call' : Snippet.Call} (h : ρ.Call k call call') :
    call.hasArity = call'.hasArity := by
  rw [Snippet.Call.hasArity, Snippet.Call.hasArity, h.callee, h.arguments.length_eq]

theorem Attributed.start (name : String) (isComponent : Bool) :
    ρ.Attributed ctx { name, isComponent } where
  props _ hp := absurd hp List.not_mem_nil
  events _ := rfl

theorem Attributed.add (h : ρ.Attributed ctx tag) {p : View.Property} (hp : ρ.Property ctx p) :
    ρ.Attributed ctx { tag with props := tag.props ++ [p] } := by
  refine ⟨?_, h.events⟩
  rw [List.forall_mem_append, List.forall_mem_singleton]
  exact ⟨h.props, hp⟩

theorem forall₂_zip_zip {R : α → β → Prop} {S : γ → δ → Prop} {as : List α} {bs : List β}
    {cs : List γ} {ds : List δ} (h : List.Forall₂ R as bs) (h' : List.Forall₂ S cs ds) :
    List.Forall₂ (fun p p' => R p.1 p'.1 ∧ S p.2 p'.2) (as.zip cs) (bs.zip ds) := by
  induction h generalizing cs ds with
  | nil => exact .nil
  | cons hab _ ih =>
    cases h' with
    | nil => exact .nil
    | cons hcd hrest => exact .cons ⟨hab, hcd⟩ (ih hrest)

theorem rel_getLast? {R : α → β → Prop} {as : List α} {bs : List β} (h : List.Forall₂ R as bs) :
    Option.Rel R as.getLast? bs.getLast? := by
  have hreverse := List.rel_reverse h
  rw [List.getLast?_eq_head?_reverse, List.getLast?_eq_head?_reverse]
  generalize as.reverse = as, bs.reverse = bs at hreverse
  cases hreverse with
  | nil => exact .none
  | cons hab _ => exact .some hab

namespace Lawful

theorem placeholder (hρ : ρ.Lawful) (ctx : Context) (h : ρ.snippet s s') (problem : Problem) :
    ρ.Alike (ρ.node ctx) (View.placeholder problem s) (View.placeholder problem s') := by
  refine (Related.report problem (hρ.report (hρ.place h))).bind fun _ _ _ => ?_
  exact .pure (hρ.placeholderNode h)

theorem expression (hρ : ρ.Lawful) (hcode : ρ.code s.text) (htext : s.text = s'.text)
    (role : Role) :
    ρ.Alike (fun e e' => ρ.Reading ctx e e' ∧ e.raw = s.text) (View.expression ctx s role)
      (View.expression ctx s' role) := by
  refine (Related.lift (hρ.dependencies hcode htext _ _)).bind fun deps deps' hdeps => ?_
  obtain ⟨rfl, hdeps⟩ := hdeps
  rw [← htext]
  exact .pure ⟨⟨rfl, hρ.reading hcode hdeps⟩, rfl⟩

theorem branch (hρ : ρ.Lawful) (hslot : ρ.Slots k slot slot') (h : ρ.Below k s s') :
    ρ.Alike (ρ.Nodes ctx) (View.branch slot ctx s) (View.branch slot' ctx s') := by
  refine (Related.lift (hρ.isEmptyBranch h.1)).bind fun isEmpty isEmpty' hempty => ?_
  subst hempty
  cases isEmpty with
  | true => exact .pure .nil
  | false =>
    have harrow := (hρ.stripParens h).bind fun t t' ht => hρ.arrow? ht.succ
    refine (Related.lift harrow).bind fun arrow arrow' harrow => ?_
    cases harrow with
    | none => exact hslot h
    | some harrow =>
      dsimp only
      rw [← harrow.parameters]
      split
      . exact hslot harrow.body
      . exact hslot h

/-! ### Conditionals -/

theorem conditional (hρ : ρ.Lawful) (hslot : ρ.Slots k slot slot') (hplace : ρ.place span span')
    (hfirst : ρ.Branch k first first') (hmore : List.Forall₂ (ρ.Branch k) more more')
    (hotherwise : Option.Rel (ρ.Below k) otherwise otherwise') (idiom idiom' : Conditional.Idiom) :
    ρ.Alike (ρ.Conditional ctx idiom idiom')
      (View.conditional slot ctx span idiom first more otherwise)
      (View.conditional slot' ctx span' idiom' first' more' otherwise') := by
  refine (hρ.expression (hρ.code hfirst.1.1) (hρ.text hfirst.1.1) _).bind
    fun condition condition' hcondition => ?_
  refine Related.bind
    (R := fun es es' => List.Forall₂ (ρ.Reading ctx) es es' ∧ es.length = more.length) ?_ ?_
  . refine Related.mapM hmore fun part part' hpart => ?_
    exact (hρ.expression (hρ.code hpart.1.1) (hρ.text hpart.1.1) _).imp fun _ _ h => h.1
  intro conditions conditions' hconditions
  refine (hρ.branch hslot hfirst.2).bind fun body body' hbody => ?_
  refine (Related.mapM hmore fun part part' hpart => hρ.branch hslot hpart.2).bind
    fun bodies bodies' hbodies => ?_
  -- what is left once it is known what the alternative is
  have hrest : ∀ alternative alternative', Option.Rel (ρ.Nodes ctx) alternative alternative' →
      ρ.Alike (ρ.Conditional ctx idiom idiom')
        (pure
          (.conditional span idiom (!(condition :: conditions).any (·.isReactive)) condition body
          (conditions.zip bodies) alternative))
        (pure (.conditional span' idiom'
          (!(condition' :: conditions').any (·.isReactive)) condition' body'
          (conditions'.zip bodies') alternative')) := by
    intro alternative alternative' halternative
    obtain ⟨⟨rfl, hcondition⟩, -⟩ := hcondition
    obtain rfl : conditions = conditions' :=
      List.forall₂_eq_eq_eq ▸ hconditions.1.imp fun _ _ h => h.1
    have hlength : conditions.length ≤ bodies.length := by omega
    refine .pure (.intro hplace hcondition hbody ?_ halternative ?_)
    . exact forall₂_zip_zip hconditions.1 hbodies.1
    . rw [List.map_fst_zip hlength]
  cases hotherwise with
  | none => exact Related.bind (.pure .none) hrest
  | some h =>
    refine (Related.lift (hρ.isEmptyBranch h.1)).bind fun isEmpty isEmpty' hempty => ?_
    subst hempty
    cases isEmpty with
    | true => exact Related.bind (.pure .none) hrest
    | false =>
      refine (hρ.branch hslot h).bind fun nodes nodes' hnodes => ?_
      exact Related.bind (.pure (.some hnodes)) hrest

theorem guarded? {call call' : Snippet.Call} (h : ρ.Call k call call') :
    Option.Rel (ρ.Branch k) (View.guarded? call) (View.guarded? call') := by
  have harguments := h.arguments
  rw [guarded?_eq, guarded?_eq, ← h.callee]
  split
  . exact .none
  . generalize call.arguments = arguments, call'.arguments = arguments' at harguments
    match harguments with
    | .nil => exact .none
    | .cons _ .nil => exact .none
    | .cons hcondition (.cons hbody _) => exact .some ⟨hcondition, hbody⟩

theorem alternative? {call call' : Snippet.Call} (h : ρ.Call k call call') :
    Option.Rel (ρ.Below k) (View.alternative? call) (View.alternative? call') := by
  have harguments := h.arguments
  rw [alternative?_eq, alternative?_eq, ← h.callee]
  generalize call.arguments = arguments, call'.arguments = arguments' at harguments
  split
  . match harguments with
    | .nil => exact .none
    | .cons _ .nil => exact .none
    | .cons _ (.cons _ .nil) => exact .none
    | .cons _ (.cons _ (.cons hthird _)) => exact .some hthird
  . split
    . cases harguments with
      | nil => exact .none
      | cons hfirst _ => exact .some hfirst
    . exact .none

theorem chain (hρ : ρ.Lawful) (hslot : ρ.Slots k slot slot') (hplace : ρ.place span span')
    (h : List.Forall₂ (ρ.Call k) calls calls') :
    ρ.Alike (ρ.Nodes ctx) (View.chain slot ctx span calls) (View.chain slot' ctx span' calls') := by
  have hguarded := List.rel_filterMap (fun _ _ hcall => guarded? hcall) h
  have halternative := rel_getLast? (List.rel_filterMap (fun _ _ hcall => alternative? hcall) h)
  unfold View.chain
  generalize calls.filterMap View.guarded? = branches, calls'.filterMap View.guarded? =
    branches' at hguarded
  cases hguarded with
  | nil => exact .pure .nil
  | cons hfirst hmore =>
    refine (hρ.conditional hslot hplace hfirst hmore halternative _ _).bind fun node node' hnode =>
      ?_
    exact .pure (.cons (hρ.conditionalNode hnode) .nil)

/-! ### Loops -/

theorem loop (hρ : ρ.Lawful) (hslot : ρ.Slots k slot slot') (h : ρ.snippet s s')
    (htext : t.text = t'.text)
    (hcallback : ρ.Arrow k callback callback') (hkey : Option.Rel (ρ.Arrow k) keyed keyed')
    (hrepeats : Repeats s t callback)
    (hdependencies : ρ.expression ctx t.text deps) (idiom : Loop.Idiom)
    (hgiven : ∀ arrow, keyed = some arrow → idiom = .eachHelper ∧ GivesKey s arrow) :
    ρ.Alike (ρ.node ctx) (View.loop slot ctx s.span idiom t callback keyed deps)
      (View.loop slot' ctx s'.span idiom t' callback' keyed' deps) := by
  unfold View.loop
  rw [← hcallback.names, ← hcallback.parameters, ← hcallback.prelude, ← htext]
  refine (hslot hcallback.body).bind fun body body' hbody => ?_
  have hrest : ∀ key keyParameter, key =
      keyed.elim (keyOf body) (fun arrow => some arrow.body.text) →
      keyParameter = keyed.bind (·.parameters.head?) → ρ.Alike (ρ.node ctx)
      (do
        if !deps.isEmpty && key.isNone then Analysis.report (.missingKey t.text) s.span
        return .loop s.span
          ⟨idiom, t.text, !deps.isEmpty, deps, callback.parameters.headD "item",
            callback.parameters[1]?,
          key, keyParameter, (callback.prelude.map (·.text)).filter (· ≠ "")⟩ body)
      (do
        if !deps.isEmpty && key.isNone then Analysis.report (.missingKey t.text) s'.span
        return .loop s'.span
          ⟨idiom, t.text, !deps.isEmpty, deps, callback.parameters.headD "item",
            callback.parameters[1]?,
          key, keyParameter, (callback.prelude.map (·.text)).filter (· ≠ "")⟩ body') := by
    intro key keyParameter hfrom hparameter
    have hnode := fun head => @hρ.loopNode ctx s s' head callback body body' h
    split
    . refine (Related.report _ (hρ.report (hρ.place h))).bind fun _ _ _ => ?_
      exact .pure (hnode _
        ⟨⟨t, hrepeats, rfl⟩, rfl, rfl, rfl, hdependencies, keyed, hgiven, hfrom, hparameter⟩ hbody)
    . exact .pure (hnode _
      ⟨⟨t, hrepeats, rfl⟩, rfl, rfl, rfl, hdependencies, keyed, hgiven, hfrom, hparameter⟩ hbody)
  cases hkey with
  | none =>
    dsimp only
    rw [← hρ.key hbody]
    exact hrest _ none rfl rfl
  | some harrow =>
    dsimp only [Option.bind_some]
    rw [← hρ.text harrow.body.1, ← harrow.parameters]
    exact hrest _ _ rfl rfl

theorem finish (hρ : ρ.Lawful) (hslot : ρ.Slots k slot slot') (h : ρ.snippet s s')
    (ht : ρ.snippet t t')
    (hcallback : ρ.Arrow k callback callback') (hkey : Option.Rel (ρ.Arrow k) keyed keyed')
    (hrepeats : Repeats s t callback) (hgiven : ∀ arrow, keyed = some arrow → GivesKey s arrow) :
    ρ.Alike (ρ.node ctx) (View.each.finish slot ctx s.span t callback keyed)
      (View.each.finish slot' ctx s'.span t' callback' keyed') := by
  have hcode := hρ.code ht
  have htext := hρ.text ht
  refine (Related.lift (hρ.dependencies hcode htext _ _)).bind fun deps deps' hdeps => ?_
  obtain ⟨rfl, hdeps⟩ := hdeps
  have hloop := hρ.loop hslot h htext hcallback hkey hrepeats (hρ.reading hcode hdeps) .eachHelper
    fun arrow harrow => ⟨rfl, hgiven arrow harrow⟩
  dsimp only
  split
  . rw [← htext]
    refine (Related.report _ (hρ.report (hρ.place h))).bind fun _ _ _ => ?_
    exact hloop
  . exact hloop

theorem each (hρ : ρ.Lawful) (hslot : ρ.Slots k slot slot') (h : ρ.snippet s s')
    {call call' : Snippet.Call} (hcall : ρ.Call k call call') (heach : s.call? = .ok (some call))
    (hcallee : call.callee = "$each") :
    ρ.Alike (ρ.node ctx) (View.each slot ctx s.span call) (View.each slot' ctx s'.span call') := by
  have harguments := hcall.arguments
  unfold View.each
  extract_lets malformed run malformed' run'
  have hmalformed : ∀ details, ρ.Alike (ρ.node ctx) (malformed details) (malformed' details) :=
    fun details => hρ.placeholder ctx hcall.snippet _
  have hrun : ∀ {iterable iterable' render render'} {key key' : Option Snippet}, call.arguments =
      iterable :: render :: key.toList →
      ρ.Below k iterable iterable' → ρ.Below k render render' → Option.Rel (ρ.Below k) key key' →
      ρ.Alike (ρ.node ctx) (run iterable render key) (run' iterable' render' key') := by
    intro iterable iterable' render render' key key' hall hiterable hrender hkey
    refine (Related.lift (hρ.arrow? hrender.succ).and_eq).bind fun callback callback' hcallback =>
      ?_
    have hkeyed : Paired ρ.Unread (Option.Rel (Option.Rel (ρ.Arrow k))) (key.mapM Snippet.arrow?)
        (key'.mapM Snippet.arrow?) := by
      cases hkey with
      | none => exact .pure .none
      | some hkey =>
        exact (hρ.arrow? hkey.succ).bind fun arrow arrow' harrow => .pure (.some harrow)
    refine (Related.lift hkeyed.and_eq).bind fun keyed keyed' hkeyed => ?_
    obtain ⟨hcallback, hform⟩ := hcallback
    obtain ⟨hkeyed, hkeyform⟩ := hkeyed
    have hrepeats := fun callback =>
      @Repeats.each s iterable callback call render key.toList heach hcallee hall
    cases hcallback with
    | none => exact hmalformed _
    | some hcallback =>
      cases hkeyed with
      | none => exact hρ.finish hslot h hiterable.1 hcallback .none (hrepeats _ hform) (by simp)
      | some hkeyed =>
        cases hkeyed with
        | none => exact hmalformed _
        | @some arrow _ hkeyed =>
          refine hρ.finish hslot h hiterable.1 hcallback (.some hkeyed) (hrepeats _ hform) ?_
          rintro _ ⟨⟩
          exact givesKey_of_mapM heach hcallee hall hkeyform
  generalize hall : call.arguments = arguments, call'.arguments = arguments' at harguments
  match harguments with
  | .nil => exact hmalformed _
  | .cons _ .nil => exact hmalformed _
  | .cons hiterable (.cons hrender .nil) => exact hrun hall hiterable hrender .none
  | .cons hiterable (.cons hrender (.cons hkey .nil)) =>
    exact hrun hall hiterable hrender (.some hkey)
  | .cons _ (.cons _ (.cons _ (.cons _ hrest))) =>
    dsimp only [List.length_cons]
    rw [hrest.length_eq]
    exact hmalformed _

theorem loop? (hρ : ρ.Lawful) (hslot : ρ.Slots k slot slot') (h : ρ.Below (k + 1) s s') :
    ρ.Alike (Option.Rel (ρ.node ctx)) (View.loop? slot ctx s) (View.loop? slot' ctx s') := by
  refine (Related.lift (hρ.call? h).and_eq).bind fun call call' hcall => ?_
  obtain ⟨hcall, hform⟩ := hcall
  have hfilter : Option.Rel (fun c c' => ρ.Call k c c' ∧ call = some c ∧ c.callee = "$each")
      (call.filter (·.callee == "$each")) (call'.filter (·.callee == "$each")) := by
    cases hcall with
    | none => exact .none
    | @some call call' hcall =>
      simp only [Option.filter_some, ← hcall.callee, beq_iff_eq]
      split
      . next hcallee => exact .some ⟨hcall, rfl, hcallee⟩
      . exact .none
  generalize call.filter (·.callee == "$each") = each, call'.filter (·.callee == "$each") =
    each' at hfilter
  cases hfilter with
  | some hfilter =>
    obtain ⟨heach, rfl, hcallee⟩ := hfilter
    exact (hρ.each hslot h.1 heach hform hcallee).bind fun node node' hnode => .pure (.some hnode)
  | none =>
    refine (Related.lift (hρ.mapCall? h).and_eq).bind fun parts parts' hparts => ?_
    obtain ⟨hparts, hmap⟩ := hparts
    cases hparts with
    | none => exact .pure .none
    | @some parts parts' hparts =>
      obtain ⟨t, render⟩ := parts
      obtain ⟨t', render'⟩ := parts'
      obtain ⟨ht, hrender⟩ := hparts
      refine (Related.lift (hρ.arrow? hrender.succ).and_eq).bind fun callback callback' hcallback =>
        ?_
      obtain ⟨hcallback, hform⟩ := hcallback
      cases hcallback with
      | none => exact .pure .none
      | some hcallback =>
        refine (Related.lift (hρ.containsMarkup hcallback.body.1)).bind
          fun isMarkup isMarkup' hmarkup => ?_
        obtain ⟨rfl, -⟩ := hmarkup
        cases isMarkup with
        | false => exact .pure .none
        | true =>
          have hcode := hρ.code ht.1
          have htext := hρ.text ht.1
          refine (Related.lift (hρ.dependencies hcode htext _ _)).bind fun deps deps' hdeps => ?_
          obtain ⟨rfl, hdeps⟩ := hdeps
          have hloop := hρ.loop hslot h.1 htext hcallback .none (.map hmap hform)
            (hρ.reading hcode hdeps)
          exact (hloop _ (by simp)).bind fun node node' hnode => .pure (.some hnode)

/-! ### Elements -/

theorem addAttribute (hρ : ρ.Lawful) {attr attr' : Markup.Attribute} (h : ρ.Attribute attr attr')
    {tag tag' : Tag} (htag : tag = tag' ∧ ρ.Attributed ctx tag) :
    ρ.Alike (fun tag tag' => tag = tag' ∧ ρ.Attributed ctx tag) (View.addAttribute ctx tag attr)
      (View.addAttribute ctx tag' attr') := by
  obtain ⟨rfl, htag⟩ := htag
  cases h with
  | string =>
    unfold View.addAttribute
    dsimp only
    split
    . exact .pure ⟨rfl, htag.props, htag.events⟩
    . exact .pure ⟨rfl, htag.add ⟨rfl, fun h => absurd rfl h⟩⟩
  | boolean =>
    unfold View.addAttribute
    dsimp only
    split
    . exact .pure ⟨rfl, htag.props, htag.events⟩
    . exact .pure ⟨rfl, htag.add ⟨rfl, fun h => absurd rfl h⟩⟩
  | spread => exact .pure ⟨rfl, htag.add ⟨rfl, fun h => absurd rfl h⟩⟩
  | @expression value span name span' hcode =>
    unfold View.addAttribute
    dsimp only
    split
    . exact .pure ⟨rfl, htag.props, htag.events⟩
    . split
      . next hevent =>
        rw [Bool.and_eq_true, Bool.not_eq_true'] at hevent
        refine .pure ⟨rfl, htag.props, ?_⟩
        intro hcomponent
        exact absurd (hevent.1.symm.trans hcomponent) Bool.false_ne_true
      . have htext : (Snippet.ofSpan value span).strip.text =
            (Snippet.ofSpan value span').strip.text :=
          Snippet.text_strip_congr rfl
        refine (hρ.expression hcode htext .attribute).bind fun e e' he => ?_
        obtain ⟨⟨rfl, he⟩, -⟩ := he
        exact .pure ⟨rfl, htag.add ⟨rfl, fun _ => he⟩⟩

/-! ### Trees -/

/-- Chains of related calls, with related white space after them. Every helper call among the
siblings can go on with them. -/
structure Chained (ρ : Relation) (ctx : Context) (k : Nat) (siblings : List Markup.Node)
    (c c' : Chain) : Prop where
  calls : List.Forall₂ (ρ.Call k) c.calls c'.calls
  isClosed : c.isClosed = c'.isClosed
  pending : ρ.Nodes ctx c.pending c'.pending
  follows : ∀ first, c.calls.head? = some first →
    (∀ last, c.calls.getLast? = some last → ρ.follows first.snippet last.snippet) ∧
      ∀ sibling ∈ siblings, ∀ call, helperCall? sibling = some call →
      ρ.follows first.snippet call.snippet

theorem Chained.nil : Chained ρ ctx k siblings {} {} :=
  ⟨.nil, rfl, .nil, nofun⟩

theorem Chained.isEmpty (h : Chained ρ ctx k siblings c c') :
    c.calls.isEmpty = c'.calls.isEmpty := by
  have hcalls := h.calls
  generalize c.calls = calls, c'.calls = calls' at hcalls
  cases hcalls with
  | nil => rfl
  | cons => rfl

theorem Chained.pend (h : Chained ρ ctx k (sibling :: siblings) c c') {node node' : Node}
    (hnode : ρ.node ctx node node') :
    Chained ρ ctx k siblings { c with pending := c.pending ++ [node] }
      { c' with pending := c'.pending ++ [node'] } := by
  refine ⟨h.calls, h.isClosed, List.rel_append h.pending (.cons hnode .nil), ?_⟩
  intro first hfirst
  obtain ⟨hlast, hsiblings⟩ := h.follows first hfirst
  exact ⟨hlast, fun sibling hmem => hsiblings sibling (List.mem_cons_of_mem _ hmem)⟩

theorem flush (hρ : ρ.Lawful) (hslot : ρ.Slots k slot slot') (h : Chained ρ ctx k siblings c c') :
    ρ.Alike (ρ.Nodes ctx) (View.flush slot ctx c) (View.flush slot' ctx c') := by
  obtain ⟨hcalls, -, hpending, hfollows⟩ := h
  unfold View.flush
  obtain ⟨calls, _, pending⟩ := c
  obtain ⟨calls', _, pending'⟩ := c'
  have hlast := rel_getLast? hcalls
  have hchain := fun span span' hplace =>
    @chain ρ k ctx slot slot' span span' calls calls' hρ hslot hplace hcalls
  cases hcalls with
  | nil => exact .pure hpending
  | @cons first first' more more' hfirst hmore =>
    dsimp only [List.head?_cons] at *
    generalize hlastCall : (first :: more).getLast? = last, (first' :: more').getLast? =
      last' at hlast
    cases hlast with
    | none => exact .pure hpending
    | some hlast =>
      have hplace := hρ.chainSpan hfirst.snippet hlast.snippet ((hfollows first rfl).1 _ hlastCall)
      exact (hchain _ _ hplace).bind fun nodes nodes' hnodes =>
        .pure (List.rel_append hnodes hpending)

theorem chainStep (hρ : ρ.Lawful) (hslot : ρ.Slots k slot slot') (hs : ρ.snippet s s')
    {call call' : Snippet.Call}
    (hcall : ρ.Call k call call') (hsibling : helperCall? sibling = some call)
    (hfollows : ∀ sibling ∈ siblings, ∀ other, helperCall? sibling = some other →
      ρ.follows call.snippet other.snippet)
    (h : Chained ρ ctx k (sibling :: siblings) c c') :
    ρ.Alike (fun p p' => ρ.Nodes ctx p.1 p'.1 ∧ Chained ρ ctx k siblings p.2 p'.2)
      (View.chainStep slot ctx c s call) (View.chainStep slot' ctx c' s' call') := by
  have hlength := hcall.arguments.length_eq
  have hfirst : Chained ρ ctx k siblings ⟨[call], call.arguments.length == 3, []⟩
      ⟨[call'], call.arguments.length == 3, []⟩ := by
    refine ⟨.cons hcall .nil, rfl, .nil, ?_⟩
    rintro first ⟨⟩
    refine ⟨?_, hfollows⟩
    rintro last ⟨⟩
    exact hρ.follows_self hcall.snippet
  unfold View.chainStep
  rw [← hcall.hasArity, ← hcall.callee, ← hlength, ← h.isEmpty, ← h.isClosed]
  split
  . refine (hρ.flush hslot h).bind fun before before' hbefore => ?_
    refine (hρ.placeholder ctx hs _).bind fun node node' hnode => ?_
    exact .pure ⟨List.rel_append hbefore (.cons hnode .nil), .nil⟩
  split
  . exact (hρ.flush hslot h).bind fun before before' hbefore => .pure ⟨hbefore, hfirst⟩
  split
  . refine (hρ.flush hslot h).bind fun before before' hbefore => ?_
    refine (hρ.placeholder ctx hs _).bind fun node node' hnode => ?_
    exact .pure ⟨List.rel_append hbefore (.cons hnode .nil), .nil⟩
  . next hgoesOn =>
    have hne : c.calls ≠ [] := by
      rintro hnil
      simp [hnil] at hgoesOn
    refine .pure ⟨.nil, List.rel_append h.calls (.cons hcall .nil), rfl, .nil, ?_⟩
    intro first hfirst
    rw [List.head?_append_of_ne_nil _ hne] at hfirst
    have hleads := (h.follows first hfirst).2
    refine ⟨?_, fun sibling hmem => hleads sibling (List.mem_cons_of_mem _ hmem)⟩
    intro last hlast
    rw [List.getLast?_concat] at hlast
    cases hlast
    exact hleads _ List.mem_cons_self _ hsibling

mutual

theorem node (hρ : ρ.Lawful) (hslot : ρ.Slots k slot slot') (h : ρ.Tree tree tree')
    (hlength : longestSlot tree < k) :
    ρ.Alike (ρ.Nodes ctx) (View.node slot ctx tree) (View.node slot' ctx tree') := by
  match h with
  | .text hplace =>
    rw [View.node, View.node]
    exact .pure (.cons (hρ.textNode hplace) .nil)
  | .slot hs =>
    rw [View.node, View.node]
    exact hslot ⟨hs, hlength⟩
  | .fragment htrees =>
    rw [View.node, View.node]
    exact children hρ hslot htrees hlength .nil
  | .element hplace hattributes htrees =>
    rw [View.node, View.node]
    have hadd := fun attr attr' hattr tag tag' => @addAttribute ρ ctx hρ attr attr' hattr tag tag'
    refine (Related.foldlM hattributes hadd ⟨rfl, .start _ _⟩).bind fun tag tag' htag => ?_
    obtain ⟨rfl, htag⟩ := htag
    refine (children hρ hslot htrees hlength .nil).bind fun nodes nodes' hnodes => ?_
    exact .pure (.cons (hρ.elementNode hplace htag hnodes) .nil)

theorem children (hρ : ρ.Lawful) (hslot : ρ.Slots k slot slot') (h : ρ.Trees siblings siblings')
    (hlength : longestSlotOf siblings < k) (hchain : Chained ρ ctx k siblings c c') :
    ρ.Alike (ρ.Nodes ctx) (View.children slot ctx c siblings)
      (View.children slot' ctx c' siblings') := by
  match h with
  | .nil =>
    rw [View.children, View.children]
    exact hρ.flush hslot hchain
  | .cons (.text hplace) htrees hfollows =>
    rw [longestSlotOf, Nat.max_lt] at hlength
    rw [View.children, View.children]
    have hnode : ∀ value, ρ.node ctx (.text _ value) (.text _ value) :=
      fun value => hρ.textNode hplace
    rw [← hchain.isEmpty]
    split
    . exact children hρ hslot htrees hlength.2 (hchain.pend (hnode _))
    . refine (hρ.flush hslot hchain).bind fun before before' hbefore => ?_
      refine (children hρ hslot htrees hlength.2 .nil).bind fun rest rest' hrest => ?_
      exact .pure (List.rel_append hbefore (.cons (hnode _) hrest))
  | .cons (.slot hs) htrees hfollows =>
    rw [longestSlotOf, Nat.max_lt] at hlength
    rw [View.children, View.children]
    have hbelow : ρ.Below k _ _ := ⟨hs, hlength.1⟩
    refine (Related.lift (hρ.chainCall? hbelow.succ).and_eq).bind fun call call' hcall => ?_
    obtain ⟨hcall, hform⟩ := hcall
    cases hcall with
    | none =>
      refine (hρ.flush hslot hchain).bind fun before before' hbefore => ?_
      refine (hslot hbelow).bind fun nodes nodes' hnodes => ?_
      refine (children hρ hslot htrees hlength.2 .nil).bind fun rest rest' hrest => ?_
      exact .pure (List.rel_append (List.rel_append hbefore hnodes) hrest)
    | some hcall =>
      have hsibling := helperCall?_slot hform
      refine (hρ.chainStep hslot hs hcall hsibling (hfollows _ hsibling) hchain).bind
        fun step step' hstep => ?_
      obtain ⟨hbefore, hchain⟩ := hstep
      refine (children hρ hslot htrees hlength.2 hchain).bind fun rest rest' hrest => ?_
      exact .pure (List.rel_append hbefore hrest)
  | .cons (.element hplace hattributes hnodes) htrees hfollows =>
    rw [longestSlotOf, Nat.max_lt] at hlength
    rw [View.children, View.children]
    refine (hρ.flush hslot hchain).bind fun before before' hbefore => ?_
    refine (node hρ hslot (.element hplace hattributes hnodes) hlength.1).bind
      fun nodes nodes' hnodes => ?_
    refine (children hρ hslot htrees hlength.2 .nil).bind fun rest rest' hrest => ?_
    exact .pure (List.rel_append (List.rel_append hbefore hnodes) hrest)
  | .cons (.fragment hnodes) htrees hfollows =>
    rw [longestSlotOf, Nat.max_lt] at hlength
    rw [View.children, View.children]
    refine (hρ.flush hslot hchain).bind fun before before' hbefore => ?_
    refine (node hρ hslot (.fragment hnodes) hlength.1).bind fun nodes nodes' hnodes => ?_
    refine (children hρ hslot htrees hlength.2 .nil).bind fun rest rest' hrest => ?_
    exact .pure (List.rel_append (List.rel_append hbefore hnodes) hrest)

end

/-! ### Slots -/

theorem markup? (hρ : ρ.Lawful) (h : ρ.Below (k + 1) s s') :
    Paired ρ.failure (Option.Rel fun tree tree' => ρ.Tree tree tree' ∧
      longestSlot tree < k) s.markup? s'.markup? := by
  have hstrip : Paired ρ.failure (ρ.Below (k + 1)) (s.stripParens.mapError .scan)
      (s'.stripParens.mapError .scan) :=
    (hρ.stripParens h).mapError fun _ _ hunread => hunread
  unfold Snippet.markup?
  refine hstrip.bind fun t t' ht => ?_
  have hscan : Paired ρ.failure
      (fun tokens tokens' => tokens = tokens' ∧ Token.scan t.text = .ok tokens)
      ((Token.scan t.text).mapError .scan) ((Token.scan t'.text).mapError .scan) := by
    rw [← hρ.text ht.1]
    refine Paired.mapError
      (.self (fun tokens htokens => ⟨rfl, htokens⟩) fun e he => ?_) fun _ _ hunread => hunread
    exact hρ.scan (hρ.code ht.1) (by rw [he]; rfl)
  refine hscan.bind fun tokens tokens' htokens => ?_
  obtain ⟨rfl, htokens⟩ := htokens
  match tokens with
  | [] => exact .pure .none
  | _ :: _ :: _ => exact .pure .none
  | [token] =>
    dsimp only
    split
    . next hkind =>
      refine (hρ.markup ht.1 htokens hkind).bind fun tree tree' htree => ?_
      exact .pure (.some ⟨htree.1, Nat.lt_of_lt_of_le htree.2 (Nat.le_of_lt_succ ht.2)⟩)
    . exact .pure .none

theorem ternaryTail (hρ : ρ.Lawful) (h : ρ.Below k s s') :
    Paired ρ.Unread (fun p p' => List.Forall₂ (ρ.Branch k) p.1 p'.1 ∧ ρ.Below k p.2 p'.2)
      (View.ternaryTail s)
      (View.ternaryTail s') := by
  have hgo : ∀ fuel {s s'}, ρ.Below k s s' →
      Paired ρ.Unread (fun p p' => List.Forall₂ (ρ.Branch k) p.1 p'.1 ∧ ρ.Below k p.2 p'.2)
        (View.ternaryTail.go fuel s)
        (View.ternaryTail.go fuel s') := by
    intro fuel
    induction fuel with
    | zero =>
      intro s s' h
      exact .ok ⟨.nil, h⟩
    | succ fuel ih =>
      intro s s' h
      refine (hρ.stripParens h).bind fun t t' ht => ?_
      refine (hρ.splitTernary? ht.succ).bind fun parts parts' hparts => ?_
      cases hparts with
      | none => exact .pure ⟨.nil, h⟩
      | @some parts parts' hparts =>
        obtain ⟨condition, value, rest⟩ := parts
        obtain ⟨condition', value', rest'⟩ := parts'
        refine (ih hparts.2).bind fun tail tail' htail => ?_
        exact .pure ⟨.cons hparts.1 htail.1, htail.2⟩
  rw [View.ternaryTail, View.ternaryTail, ← hρ.text h.1]
  exact hgo _ h

theorem anyMarkup (hρ : ρ.Lawful) (h : List.Forall₂ (ρ.Below k) parts parts') :
    Paired ρ.Unread (· = ·) (View.anyMarkup parts) (View.anyMarkup parts') := by
  induction h with
  | nil => exact .ok rfl
  | cons hpart _ ih =>
    rw [View.anyMarkup, View.anyMarkup]
    refine (hρ.containsMarkup hpart.1).bind fun isMarkup isMarkup' hmarkup => ?_
    obtain ⟨rfl, -⟩ := hmarkup
    cases isMarkup with
    | true => exact .pure rfl
    | false => exact ih

theorem ternary? (hρ : ρ.Lawful) (h : ρ.Below (k + 1) s s') :
    Paired ρ.Unread
      (Option.Rel fun p p' => ρ.Branch k p.1 p'.1 ∧ List.Forall₂ (ρ.Branch k) p.2.1 p'.2.1 ∧
        ρ.Below k p.2.2 p'.2.2)
      (View.ternary? s) (View.ternary? s') := by
  refine (hρ.splitTernary? h).bind fun parts parts' hparts => ?_
  cases hparts with
  | none => exact .pure .none
  | @some parts parts' hparts =>
    obtain ⟨condition, value, rest⟩ := parts
    obtain ⟨condition', value', rest'⟩ := parts'
    refine (hρ.ternaryTail hparts.2).bind fun tail tail' htail => ?_
    obtain ⟨more, otherwise⟩ := tail
    obtain ⟨more', otherwise'⟩ := tail'
    have hvalues : List.Forall₂ (ρ.Below k) (value :: more.map (·.2) ++ [otherwise])
        (value' :: more'.map (·.2) ++ [otherwise']) := by
      refine .cons hparts.1.2 (List.rel_append ?_ (.cons htail.2 .nil))
      rw [List.forall₂_map_left_iff, List.forall₂_map_right_iff]
      exact htail.1.imp fun _ _ h => h.2
    refine (hρ.anyMarkup hvalues).bind fun isMarkup isMarkup' hmarkup => ?_
    subst hmarkup
    cases isMarkup with
    | true => exact .pure (.some ⟨hparts.1, htail.1, htail.2⟩)
    | false => exact .pure .none

theorem logicalAnd? (hρ : ρ.Lawful) (h : ρ.Below (k + 1) s s') :
    Paired ρ.Unread (Option.Rel (ρ.Branch k)) (View.logicalAnd? s) (View.logicalAnd? s') := by
  refine (hρ.splitAnd? h).bind fun parts parts' hparts => ?_
  cases hparts with
  | none => exact .pure .none
  | @some parts parts' hparts =>
    obtain ⟨condition, value⟩ := parts
    obtain ⟨condition', value'⟩ := parts'
    refine (hρ.containsMarkup hparts.2.1).bind fun isMarkup isMarkup' hmarkup => ?_
    obtain ⟨rfl, -⟩ := hmarkup
    cases isMarkup with
    | true => exact .pure (.some hparts)
    | false => exact .pure .none

theorem slotForm? (hρ : ρ.Lawful) (hslot : ρ.Slots k slot slot') (h : ρ.Below (k + 1) s s') :
    ρ.Alike (Option.Rel (ρ.Nodes ctx)) (View.slotForm? slot ctx s)
      (View.slotForm? slot' ctx s') := by
  unfold View.slotForm?
  refine (Related.liftM (hρ.markup? h)).bind fun tree tree' htree => ?_
  rcases htree with htree | _
  . exact (hρ.node hslot htree.1 htree.2).bind fun nodes nodes' hnodes => .pure (.some hnodes)
  refine (Related.lift (hρ.ternary? h)).bind fun parts parts' hparts => ?_
  rcases hparts with hparts | _
  . obtain ⟨hfirst, hmore, hotherwise⟩ := hparts
    refine (hρ.conditional hslot (hρ.place h.1) hfirst hmore (.some hotherwise) _ _).bind
      fun node node' hnode => ?_
    exact .pure (.some (.cons (hρ.conditionalNode hnode) .nil))
  refine (Related.lift (hρ.logicalAnd? h)).bind fun parts parts' hparts => ?_
  rcases hparts with hparts | _
  . refine (hρ.conditional hslot (hρ.place h.1) hparts .nil .none _ _).bind fun node node' hnode =>
      ?_
    exact .pure (.some (.cons (hρ.conditionalNode hnode) .nil))
  refine (hρ.loop? hslot h).bind fun loop loop' hloop => ?_
  rcases hloop with hloop | _
  . exact .pure (.some (.cons hloop .nil))
  refine (Related.lift (hρ.chainCall? h)).bind fun call call' hcall => ?_
  rcases hcall with hcall | _
  . dsimp only
    rw [← hcall.callee, ← hcall.hasArity]
    split
    . refine (hρ.chain hslot (hρ.place h.1) (.cons hcall .nil)).bind fun nodes nodes' hnodes => ?_
      exact .pure (.some hnodes)
    . exact (hρ.placeholder ctx h.1 _).bind fun node node' hnode => .pure (.some (.cons hnode .nil))
  refine (Related.lift (hρ.containsMarkup h.1)).bind fun isMarkup isMarkup' hmarkup => ?_
  obtain ⟨rfl, -⟩ := hmarkup
  cases isMarkup with
  | true =>
    rw [← hρ.text h.1]
    exact (hρ.placeholder ctx h.1 _).bind fun node node' hnode => .pure (.some (.cons hnode .nil))
  | false => exact .pure .none

theorem slotPass (hρ : ρ.Lawful) (hslot : ρ.Slots k slot slot') :
    ρ.Slots (k + 1) (View.slotPass slot) (View.slotPass slot') := by
  intro ctx s s' h
  unfold View.slotPass
  refine (Related.lift (hρ.stripParens h)).bind fun t t' ht => ?_
  have htext := hρ.text ht.1
  rw [← htext]
  split
  . exact .pure .nil
  have hunsupported : ρ.Alike (Option.Rel (ρ.Nodes ctx))
      (do return some [← View.placeholder (.unsupportedExpression t.text) t])
      (do return some [← View.placeholder (.unsupportedExpression t.text) t']) :=
    (hρ.placeholder ctx ht.1 _).bind fun node node' hnode => .pure (.some (.cons hnode .nil))
  refine Related.bind (R := Option.Rel (ρ.Nodes ctx)) ?_ ?_
  . refine Related.tryCatch (hρ.slotForm? hslot ht) fun f f' hf => ?_
    rcases hρ.unreadable hf with ⟨problem, pos, problem', pos', rfl, rfl⟩ | ⟨hread, hread'⟩
    . exact hunsupported
    . split
      . exact absurd rfl (hread _ _)
      . exact .throw hf
  . intro form form' hform
    rcases hform with hform | _
    . exact .pure hform
    . refine (hρ.expression (hρ.code ht.1) htext .text).bind fun e e' he => ?_
      obtain ⟨⟨rfl, he⟩, hraw⟩ := he
      exact .pure (.cons (hρ.expressionNode ht.1 hraw he) .nil)

theorem slots (hρ : ρ.Lawful) (hn : k ≤ n) (hm : k ≤ m) :
    ρ.Slots k (View.slot n) (View.slot m) := by
  induction k generalizing n m with
  | zero =>
    intro ctx s s' h
    exact absurd h.2 (Nat.not_lt_zero _)
  | succ k ih =>
    cases n with
    | zero => exact absurd hn (Nat.not_succ_le_zero k)
    | succ n =>
      cases m with
      | zero => exact absurd hm (Nat.not_succ_le_zero k)
      | succ m => exact hρ.slotPass (ih (Nat.le_of_succ_le_succ hn) (Nat.le_of_succ_le_succ hm))

theorem markupTree (hρ : ρ.Lawful) (h : ρ.Tree tree tree') (hn : longestSlot tree < n)
    (hm : longestSlot tree < m) :
    ρ.Alike (ρ.Nodes ctx) (View.node (View.slot n) ctx tree) (View.node (View.slot m) ctx tree') :=
  hρ.node (hρ.slots hn hm) h (Nat.lt_succ_self _)

end Lawful
end Relation
end View
end ComponentCompiler
