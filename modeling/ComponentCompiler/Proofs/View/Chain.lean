import ComponentCompiler.Proofs.View.Pieces

/-!
This module contains the analysis of siblings in terms of the chains that they make up. The chain
that the analysis holds stands for the last parts of a division; each sibling is taken up by it or
completes them.
-/

namespace ComponentCompiler
namespace View

open Analysis (lift run_bind_eq_ok run_pure_eq_ok run_lift_eq_ok)

variable {slot : SlotAnalysis} {ctx : Context} {reports reports' : List Diagnostic}
    {nodes : List Node}

inductive Reads : Markup.Node → Sibling → Prop where
  | start {span : Span} {text : String} {condition body snippet : Snippet}
      (h : (Snippet.ofSpan text span).chainCall? = .ok (some ⟨"$if", [condition, body], snippet⟩)) :
      Reads (.slot span text) (.start snippet.span condition body)
  | whole {span : Span} {text : String} {condition body alternative snippet : Snippet}
      (h : (Snippet.ofSpan text span).chainCall? =
        .ok (some ⟨"$if", [condition, body, alternative], snippet⟩)) :
      Reads (.slot span text) (.whole snippet.span condition body alternative)
  | elseIf {span : Span} {text : String} {condition body snippet : Snippet}
      (h : (Snippet.ofSpan text span).chainCall? =
        .ok (some ⟨"$elseif", [condition, body], snippet⟩)) :
      Reads (.slot span text) (.elseIf (.ofSpan text span) snippet.span condition body)
  | otherwise {span : Span} {text : String} {body snippet : Snippet}
      (h : (Snippet.ofSpan text span).chainCall? = .ok (some ⟨"$else", [body], snippet⟩)) :
      Reads (.slot span text) (.otherwise (.ofSpan text span) snippet.span body)
  | malformed {span : Span} {text : String} {call : Snippet.Call}
      (h : (Snippet.ofSpan text span).chainCall? = .ok (some call))
      (harity : call.hasArity = false) :
      Reads (.slot span text) (.malformed (.ofSpan text span) call.callee call.arguments.length)
  | blank {span : Span} {value : String} (h : Text.allBlank value = true) :
    Reads (.text span value) (.blank span value)
  | text {span : Span} {value : String} (h : Text.allBlank value = false) :
      Reads (.text span value) (.other (.text span value))
  | slot {span : Span} {text : String} (h : (Snippet.ofSpan text span).chainCall? = .ok none) :
      Reads (.slot span text) (.other (.slot span text))
  | element {span : Span} {name : String} {attributes : List Markup.Attribute}
      {trees : List Markup.Node} :
      Reads (.element span name attributes trees) (.other (.element span name attributes trees))
  | fragment {span : Span} {trees : List Markup.Node} :
    Reads (.fragment span trees) (.other (.fragment span trees))

theorem callee_of_chainCall? {s : Snippet} {call : Snippet.Call}
    (h : s.chainCall? = .ok (some call)) :
    call.callee = "$if" ∨ call.callee = "$elseif" ∨ call.callee = "$else" := by
  obtain ⟨stripped, _, h⟩ := bind_eq_ok.mp h
  obtain ⟨found, _, h⟩ := bind_eq_ok.mp h
  cases found with
  | none => cases h
  | some found =>
    rw [pure_eq_ok] at h
    split at h
    next hmem =>
      cases h
      simpa using hmem
    next => cases h

theorem reads_call {span : Span} {text : String} {call : Snippet.Call}
    (h : (Snippet.ofSpan text span).chainCall? = .ok (some call)) :
    Reads (.slot span text) (.ofCall (.ofSpan text span) call) := by
  have hcallee := callee_of_chainCall? h
  obtain ⟨callee, arguments, snippet⟩ := call
  dsimp only at hcallee
  rcases hcallee with rfl | rfl | rfl
  . rcases arguments with _ | ⟨a, _ | ⟨b, _ | ⟨c, _ | ⟨d, rest⟩⟩⟩⟩
    . exact .malformed h rfl
    . exact .malformed h rfl
    . exact .start h
    . exact .whole h
    . exact .malformed h rfl
  . rcases arguments with _ | ⟨a, _ | ⟨b, _ | ⟨c, rest⟩⟩⟩
    . exact .malformed h rfl
    . exact .malformed h rfl
    . exact .elseIf h
    . exact .malformed h rfl
  . rcases arguments with _ | ⟨a, _ | ⟨b, rest⟩⟩
    . exact .malformed h rfl
    . exact .otherwise h
    . exact .malformed h rfl

theorem reads_of {tree : Markup.Node} {s : Sibling} (h : Sibling.of tree = .ok s) :
    Reads tree s := by
  cases tree with
  | element => cases h; exact .element
  | fragment => cases h; exact .fragment
  | text span value =>
    cases h
    cases hblank : Text.allBlank value with
    | true => exact .blank hblank
    | false => exact .text hblank
  | slot span text =>
    obtain ⟨call, hcall, h⟩ := bind_eq_ok.mp h
    cases call with
    | none => cases h; exact .slot hcall
    | some call => cases h; exact reads_call hcall

structure CallsOf (calls : List Snippet.Call) (arms : Arms) : Prop where
  guarded : calls.filterMap guarded? = arms.first :: arms.more
  alternative : (calls.filterMap alternative?).getLast? = arms.alternative
  span : ∃ first last, calls.head? = some first ∧ calls.getLast? = some last ∧
    chainSpan first last = arms.span

variable {s : Sibling} {run : List Sibling} {parts parts' : List (List Sibling)} {arms : Arms}
variable {calls : List Snippet.Call} {condition body other snippet : Snippet}

theorem callsOf_start :
    CallsOf [⟨"$if", [condition, body], snippet⟩]
      { span := snippet.span, first := (condition, body) } :=
  ⟨rfl, rfl, _, _, rfl, rfl, rfl⟩

theorem callsOf_whole :
    CallsOf [⟨"$if", [condition, body, other], snippet⟩]
      { span := snippet.span, first := (condition, body), alternative := some other } :=
  ⟨rfl, rfl, _, _, rfl, rfl, rfl⟩

namespace CallsOf

theorem ne_nil (h : CallsOf calls arms) : calls ≠ [] := by
  rintro rfl
  cases h.guarded

theorem span_concat (h : CallsOf calls arms) (call : Snippet.Call) :
    ∃ first last, (calls ++ [call]).head? = some first ∧ (calls ++ [call]).getLast? = some last ∧
      chainSpan first last = through arms.span call.snippet.span := by
  obtain ⟨first, last, hfirst, _, hspan⟩ := h.span
  refine ⟨first, call, ?_, by simp, ?_⟩
  . rw [List.head?_append, hfirst, Option.some_or]
  . rw [← hspan]
    rfl

theorem elseIf (h : CallsOf calls arms) :
    CallsOf (calls ++ [⟨"$elseif", [condition, body], snippet⟩])
      { arms with
        span := through arms.span snippet.span, more := arms.more ++ [(condition, body)] } := by
  refine ⟨?_, ?_, h.span_concat _⟩
  . rw [List.filterMap_append, h.guarded]
    rfl
  . rw [List.filterMap_append, ← h.alternative]
    exact congrArg List.getLast? (List.append_nil _)

theorem otherwise (h : CallsOf calls arms) :
    CallsOf (calls ++ [⟨"$else", [body], snippet⟩])
      { arms with span := through arms.span snippet.span, alternative := some body } := by
  refine ⟨?_, ?_, h.span_concat _⟩
  . rw [List.filterMap_append, h.guarded]
    exact List.append_nil _
  . rw [List.filterMap_append]
    exact List.getLast?_concat

theorem flush_eq (h : CallsOf calls arms) (isClosed : Bool) (pending : List Node) :
    flush slot ctx ⟨calls, isClosed, pending⟩
      =
    (do
      let node ← conditional slot ctx arms.span .explicitChain arms.first arms.more arms.alternative
      return node :: pending) := by
  obtain ⟨first, last, hfirst, hlast, hspan⟩ := h.span
  simp [flush, chain, hfirst, hlast, hspan, h.guarded, h.alternative]

end CallsOf

/-- The parts that a chain so far stands for: its members with the white space between them, and
each text after them. -/
inductive Holding : Chain → List (List Sibling) → Prop where
  | none : Holding {} []
  | chain {run : List Sibling} {arms : Arms} {calls : List Snippet.Call} {isClosed : Bool}
      (hrun : Run run arms)
      (hcalls : CallsOf calls arms) (hopen : isClosed = false → Opens run arms)
      (hclosed : isClosed = true → ∀ rest, Maximal run rest) (texts : List (Span × String)) :
      Holding ⟨calls, isClosed, texts.map fun text => .text text.1 text.2⟩
        (run :: texts.map fun text => [.blank text.1 text.2])

def takes (c : Chain) (s : Sibling) : Bool :=
  !c.calls.isEmpty && (s.isBlank || !c.isClosed && s.joins)

variable {c : Chain}

theorem takes_iff_of_joins (h : s.joins = true) :
    takes c s = true ↔ c.calls ≠ [] ∧ c.isClosed = false := by
  cases s with
  | elseIf => simp [takes, Sibling.isBlank, Sibling.joins]
  | otherwise => simp [takes, Sibling.isBlank, Sibling.joins]
  | _ => cases h

theorem Holding.run_flush_eq_ok (h : Holding c parts) :
    (flush slot ctx c).run reports = (.ok nodes, reports') ↔
      Pieces slot ctx parts reports nodes reports' := by
  cases h with
  | none =>
    rw [pieces_nil_iff]
    exact run_pure_eq_ok.trans (and_congr_left' eq_comm)
  | chain hrun hcalls _ _ texts =>
    rw [hcalls.flush_eq, run_bind_eq_ok]
    simp only [run_pure_eq_ok, pieces_cons_iff, yields_run_iff hrun, pieces_blanks_iff]
    constructor
    . rintro ⟨node, between, hnode, rfl, rfl⟩
      exact ⟨_, _, _, ⟨node, hnode, rfl⟩, ⟨rfl, rfl⟩, rfl⟩
    . rintro ⟨_, between, _, ⟨node, hnode, rfl⟩, ⟨rfl, rfl⟩, rfl⟩
      exact ⟨node, between, hnode, rfl, rfl⟩

theorem Holding.opens (h : Opens run arms) (hcalls : CallsOf calls arms) :
    Holding { calls } [run] := by
  refine .chain (.opens h) hcalls (fun _ => h) ?_ []
  intro hclosed
  cases hclosed

theorem Holding.closed {last : Sibling} (h : Run (run ++ [last]) arms) (hlast : last.closes = true)
    (hcalls : CallsOf calls arms) : Holding { calls, isClosed := true } [run ++ [last]] := by
  refine .chain h hcalls ?_ (fun _ _ => maximal_of_closes hlast) []
  intro hopen
  cases hopen

theorem isBlank_of_mem_texts (texts : List (Span × String)) :
    ∀ s ∈ texts.map fun text => Sibling.blank text.1 text.2, s.isBlank = true := by
  intro s hs
  obtain ⟨text, _, rfl⟩ := List.mem_map.mp hs
  rfl

theorem flatten_texts (run : List Sibling) (texts : List (Span × String)) :
    (run :: texts.map fun text => [Sibling.blank text.1 text.2]).flatten
      =
    run ++ texts.map fun text => .blank text.1 text.2 := by
  rw [List.flatten_cons, ← List.flatMap_def, List.map_eq_flatMap]

theorem Holding.divides {rest : List Sibling} (h : Holding c parts)
    (hstop : ∀ s ∈ rest.head?, takes c s = false)
    (hrest : Divides rest parts') : Divides (parts.flatten ++ rest) (parts ++ parts') := by
  cases h with
  | none => exact hrest
  | @chain run arms calls isClosed hrun hcalls hopen hclosed texts =>
    have hmaximal : Maximal run ((texts.map fun text => .blank text.1 text.2) ++ rest) := by
      cases isClosed with
      | true => exact hclosed rfl _
      | false =>
        apply (hopen rfl).maximal (isBlank_of_mem_texts texts)
        intro s hs
        simpa [takes, hcalls.ne_nil] using hstop s hs
    have hblanks := Divides.blanks_append (isBlank_of_mem_texts texts) hrest
    rw [List.map_map] at hblanks
    rw [flatten_texts, List.append_assoc]
    exact .run hrun hmaximal hblanks

variable {tree : Markup.Node} {trees : List Markup.Node} {span : Span} {text : String}
    {call : Snippet.Call}

theorem children_cons_call (hcall : (Snippet.ofSpan text span).chainCall? = .ok (some call)) :
    children slot ctx c (.slot span text :: trees)
      =
    (do
      let (before, c) ← chainStep slot ctx c (.ofSpan text span) call
      let rest ← children slot ctx c trees
      return before ++ rest) := by
  rw [children]
  dsimp only
  rw [hcall]
  simp [lift]

theorem Holding.children_of_takes (h : Holding c parts) (slot : SlotAnalysis) (ctx : Context)
    (hreads : Reads tree s) (htakes : takes c s = true) :
    ∃ c' parts', Holding c' parts' ∧ parts'.flatten = parts.flatten ++ [s] ∧
      ∀ trees, children slot ctx c (tree :: trees) = children slot ctx c' trees := by
  cases h with
  | none => cases htakes
  | @chain run arms calls isClosed hrun hcalls hopen hclosed texts =>
    have hcons := hcalls.ne_nil
    have hblanks := isBlank_of_mem_texts texts
    rw [flatten_texts]
    cases hreads with
    | @blank span value hblank =>
      refine ⟨_, _, .chain hrun hcalls hopen hclosed (texts ++ [(span, value)]), ?_, ?_⟩
      . rw [flatten_texts, List.map_append, List.append_assoc]
        rfl
      . intro trees
        rw [children]
        simp [hcons, hblank]
    -- the texts that were kept back are now inside of the chain, so none of them is held any more
    | elseIf hcall =>
      obtain rfl : isClosed = false := ((takes_iff_of_joins rfl).mp htakes).2
      refine ⟨_, _, .opens (.elseIf (hopen rfl) hblanks) hcalls.elseIf, List.flatten_singleton, ?_⟩
      intro trees
      rw [children_cons_call hcall]
      simp [chainStep, Snippet.Call.hasArity, hcons]
    | otherwise hcall =>
      obtain rfl : isClosed = false := ((takes_iff_of_joins rfl).mp htakes).2
      refine ⟨_, _, .closed (.otherwise (hopen rfl) hblanks) rfl hcalls.otherwise,
        List.flatten_singleton, ?_⟩
      intro trees
      rw [children_cons_call hcall]
      simp [chainStep, Snippet.Call.hasArity, hcons]
    | _ => simp [takes, Sibling.isBlank, Sibling.joins] at htakes

theorem children_of_isIf (slot : SlotAnalysis) (ctx : Context) (hreads : Reads tree s)
    (hif : s.isIf = true) :
    ∃ c', Holding c' [[s]] ∧ ∀ c trees, children slot ctx c (tree :: trees)
      = (do
        let before ← flush slot ctx c
        let rest ← children slot ctx c' trees
        return before ++ rest) := by
  cases hreads with
  | start hcall =>
    refine ⟨_, .opens .start callsOf_start, ?_⟩
    intro c trees
    rw [children_cons_call hcall]
    simp [chainStep, Snippet.Call.hasArity]
  | @whole span text condition body alternative snippet hcall =>
    have hrun : Run ([] ++ [.whole snippet.span condition body alternative]) _ := .whole
    refine ⟨_, .closed hrun rfl callsOf_whole, ?_⟩
    intro c trees
    rw [children_cons_call hcall]
    simp [chainStep, Snippet.Call.hasArity]
  | _ => cases hif

theorem children_cons_problem {problem : Problem}
    (hcall : (Snippet.ofSpan text span).chainCall? = .ok (some call))
    (hstep : chainStep slot ctx c (.ofSpan text span) call = (do
      let before ← flush slot ctx c
      return (before ++ [← placeholder problem (.ofSpan text span)], {}))) :
    children slot ctx c (.slot span text :: trees)
      =
    (do
      let before ← flush slot ctx c
      let nodes ← (do return [← placeholder problem (.ofSpan text span)] : Analysis (List Node))
      let rest ← children slot ctx {} trees
      return before ++ (nodes ++ rest)) := by
  rw [children_cons_call hcall, hstep]
  simp only [bind_assoc, pure_bind, List.append_assoc]

theorem run_placeholder_eq_ok {problem : Problem} {source : Snippet} :
    (do return [← placeholder problem source] : Analysis (List Node)).run reports =
    (.ok nodes, reports')
      ↔
    nodes = [.placeholder source.span source.text problem.message] ∧
      reports' = reports ++ [.of problem source.span] := by
  change (Except.ok [_], _) = (Except.ok nodes, reports') ↔ _
  simp [eq_comm]

/-- A sibling that begins no chain, and that the chain before it does not take up, ends that chain
and is analysed on its own. -/
theorem children_of_not_isIf (slot : SlotAnalysis) (ctx : Context) (hreads : Reads tree s)
    (hif : s.isIf = false) :
    ∃ x : Analysis (List Node),
      (∀ reports nodes reports', x.run reports = (.ok nodes, reports') ↔
        Yields slot ctx [s] reports nodes reports') ∧
      ∀ c trees, takes c s = false → children slot ctx c (tree :: trees)
        = (do
          let before ← flush slot ctx c
          let nodes ← x
          let rest ← children slot ctx {} trees
          return before ++ (nodes ++ rest)) := by
  have hends : ∀ c, s.joins = true → takes c s = false → c.calls = [] ∨ c.isClosed = true := by
    intro c hjoins htakes
    rw [← Bool.not_eq_true, takes_iff_of_joins hjoins, not_and_or, not_not,
      Bool.not_eq_false] at htakes
    exact htakes
  cases hreads with
  | start => cases hif
  | whole => cases hif
  | blank hblank =>
    refine ⟨_, fun _ _ _ => run_pure_eq_ok.trans yields_blank_iff.symm, ?_⟩
    intro c trees htakes
    have hempty : c.calls = [] := by simpa [takes, Sibling.isBlank] using htakes
    rw [children]
    simp [hempty]
  | text hblank =>
    refine ⟨_, fun _ _ _ => yields_other_iff.symm, ?_⟩
    intro c trees _
    rw [children, View.node]
    simp [hblank]
  | slot hcall =>
    refine ⟨_, fun _ _ _ => yields_other_iff.symm, ?_⟩
    intro c trees _
    rw [children, View.node]
    dsimp only
    rw [hcall]
    simp [lift]
  | element =>
    refine ⟨_, fun _ _ _ => yields_other_iff.symm, ?_⟩
    intro c trees _
    rw [children]
    simp
  | fragment =>
    refine ⟨_, fun _ _ _ => yields_other_iff.symm, ?_⟩
    intro c trees _
    rw [children]
    simp
  | malformed hcall harity =>
    refine ⟨_, fun _ _ _ => run_placeholder_eq_ok.trans (yields_problem_iff rfl).symm, ?_⟩
    intro c trees _
    apply children_cons_problem hcall
    simp [chainStep, harity]
  | elseIf hcall =>
    refine ⟨_, fun _ _ _ => run_placeholder_eq_ok.trans (yields_problem_iff rfl).symm, ?_⟩
    intro c trees htakes
    apply children_cons_problem hcall
    simp [chainStep, Snippet.Call.hasArity, hends c rfl htakes]
  | otherwise hcall =>
    refine ⟨_, fun _ _ _ => run_placeholder_eq_ok.trans (yields_problem_iff rfl).symm, ?_⟩
    intro c trees htakes
    apply children_cons_problem hcall
    simp [chainStep, Snippet.Call.hasArity, hends c rfl htakes]

/-- The trees are read, and with the siblings before them come apart into parts that become these
nodes. -/
def Divided (slot : SlotAnalysis) (ctx : Context) (held : List Sibling) (trees : List Markup.Node)
    (reports : List Diagnostic) (nodes : List Node) (reports' : List Diagnostic) : Prop :=
  ∃ kinds parts, trees.mapM Sibling.of = .ok kinds ∧ Divides (held ++ kinds) parts ∧
    Pieces slot ctx parts reports nodes reports'

variable {held : List Sibling}

theorem divided_cons (h : Sibling.of tree = .ok s) :
    Divided slot ctx held (tree :: trees) reports nodes reports'
      ↔
    Divided slot ctx (held ++ [s]) trees reports nodes reports' := by
  unfold Divided
  simp only [List.mapM_cons, h, bind_eq_ok, pure_eq_ok, List.append_assoc]
  constructor
  . rintro ⟨_, parts, ⟨_, hs, kinds, hkinds, rfl⟩, hdivides, hpieces⟩
    cases hs
    exact ⟨kinds, parts, hkinds, hdivides, hpieces⟩
  . rintro ⟨kinds, parts, hkinds, hdivides, hpieces⟩
    exact ⟨_, parts, ⟨s, rfl, kinds, hkinds, rfl⟩, hdivides, hpieces⟩

theorem divided_append_iff (parts : List (List Sibling))
    (h : ∀ kinds restParts, trees.mapM Sibling.of = .ok kinds → Divides kinds restParts →
      Divides (held ++ kinds) (parts ++ restParts)) :
    Divided slot ctx held trees reports nodes reports'
      ↔
    ∃ before between rest, Pieces slot ctx parts reports before between ∧
      Divided slot ctx [] trees between rest reports' ∧ nodes = before ++ rest := by
  constructor
  . rintro ⟨kinds, _, hkinds, hdivides, hpieces⟩
    obtain ⟨restParts, rfl, hrest⟩ :=
      (divides_append_iff fun restParts => h kinds restParts hkinds).mp hdivides
    obtain ⟨before, between, rest, hbefore, hafter, rfl⟩ := pieces_append_iff.mp hpieces
    exact ⟨before, between, rest, hbefore, ⟨kinds, restParts, hkinds, hrest, hafter⟩, rfl⟩
  . rintro ⟨before, between, rest, hbefore, ⟨kinds, restParts, hkinds, hrest, hpieces⟩, rfl⟩
    exact ⟨kinds, _, hkinds, h kinds restParts hkinds hrest,
      pieces_append_iff.mpr ⟨before, between, rest, hbefore, hpieces, rfl⟩⟩

theorem Holding.divided_iff (h : Holding c parts) (hs : Sibling.of tree = .ok s)
    (htakes : takes c s = false) :
    Divided slot ctx parts.flatten (tree :: trees) reports nodes reports'
      ↔
    ∃ before between rest, Pieces slot ctx parts reports before between ∧
      Divided slot ctx [s] trees between rest reports' ∧ nodes = before ++ rest := by
  rw [divided_append_iff parts]
  . simp only [divided_cons hs, List.nil_append]
  . intro kinds restParts hkinds hrest
    apply h.divides ?_ hrest
    simp only [List.mapM_cons, hs, bind_eq_ok, pure_eq_ok] at hkinds
    obtain ⟨_, hs', more, _, rfl⟩ := hkinds
    cases hs'
    simpa using htakes

theorem divided_single (hif : s.isIf = false) :
    Divided slot ctx [s] trees reports nodes reports'
      ↔
    ∃ first between rest, Yields slot ctx [s] reports first between ∧
      Divided slot ctx [] trees between rest reports' ∧ nodes = first ++ rest := by
  rw [divided_append_iff [[s]]]
  . simp only [pieces_cons_iff, pieces_nil_iff]
    constructor
    . rintro ⟨_, between, rest, ⟨first, _, _, hfirst, ⟨rfl, rfl⟩, rfl⟩, hrest, rfl⟩
      exact ⟨first, _, rest, hfirst, hrest, by rw [List.append_nil]⟩
    . rintro ⟨first, between, rest, hfirst, hrest, rfl⟩
      exact ⟨_, between, rest, ⟨first, _, _, hfirst, ⟨rfl, rfl⟩, rfl⟩,
        hrest, by rw [List.append_nil]⟩
  . intro kinds restParts _ hrest
    exact .single hif hrest

theorem run_children_of_error {e : ScanError} (h : Sibling.of tree = .error e) :
    (children slot ctx c (tree :: trees)).run reports ≠ (.ok nodes, reports') := by
  cases tree with
  | element => cases h
  | fragment => cases h
  | text => cases h
  | slot span text =>
    intro hrun
    rw [children, run_bind_eq_ok] at hrun
    obtain ⟨call, _, hlift, _⟩ := hrun
    rw [Sibling.of, (run_lift_eq_ok.mp hlift).1] at h
    cases call with
    | none => cases h
    | some call => cases h

/-- The invariant of the analysis: with a chain that it holds, what is left comes apart as the
siblings that the chain stands for do together with it. -/
theorem Holding.run_children_eq_ok (h : Holding c parts) :
    (children slot ctx c trees).run reports = (.ok nodes, reports')
      ↔
    Divided slot ctx parts.flatten trees reports nodes reports' := by
  induction trees generalizing c parts reports nodes reports' with
  | nil =>
    rw [children, h.run_flush_eq_ok]
    have hdivides := h.divides (by simp) .nil
    rw [List.append_nil parts] at hdivides
    constructor
    . intro hpieces
      exact ⟨[], parts, rfl, hdivides, hpieces⟩
    . rintro ⟨_, parts', hkinds, hdivides', hpieces⟩
      cases hkinds
      rwa [hdivides.unique hdivides']
  | cons tree trees ih =>
    cases hs : Sibling.of tree with
    | error e =>
      constructor
      . intro hrun
        exact absurd hrun (run_children_of_error hs)
      . rintro ⟨kinds, _, hkinds, _⟩
        rw [List.mapM_cons, hs] at hkinds
        cases hkinds
    | ok s =>
      have hreads := reads_of hs
      -- a sibling only moves from the trees to the chain, or the chain is complete before it
      cases htakes : takes c s with
      | true =>
        obtain ⟨c', parts', h', hflatten, hchildren⟩ := h.children_of_takes slot ctx hreads htakes
        rw [hchildren, ih h', hflatten, divided_cons hs]
      | false =>
        rw [h.divided_iff hs htakes]
        cases hif : s.isIf with
        | true =>
          obtain ⟨c', h', hchildren⟩ := children_of_isIf slot ctx hreads hif
          simp only [hchildren, run_bind_eq_ok, run_pure_eq_ok, h.run_flush_eq_ok, ih h',
            List.flatten_singleton]
          constructor
          . rintro ⟨before, between, hbefore, rest, _, hrest, rfl, rfl⟩
            exact ⟨before, between, rest, hbefore, hrest, rfl⟩
          . rintro ⟨before, between, rest, hbefore, hrest, rfl⟩
            exact ⟨before, between, hbefore, rest, _, hrest, rfl, rfl⟩
        | false =>
          obtain ⟨x, hx, hchildren⟩ := children_of_not_isIf slot ctx hreads hif
          simp only [hchildren c trees htakes, run_bind_eq_ok, run_pure_eq_ok, h.run_flush_eq_ok,
            hx, ih .none, divided_single hif, List.flatten_nil]
          constructor
          . rintro ⟨before, _, hbefore, first, between, hfirst, rest, _, hrest, rfl, rfl⟩
            exact ⟨before, _, _, hbefore, ⟨first, between, rest, hfirst, hrest, rfl⟩, rfl⟩
          . rintro ⟨before, _, _, hbefore, ⟨first, between, rest, hfirst, hrest, rfl⟩, rfl⟩
            exact ⟨before, _, hbefore, first, between, hfirst, rest, _, hrest, rfl, rfl⟩

/-- Siblings come apart into maximal chains and single siblings in exactly one way. Their analysis
returns just if each sibling can be read and each part be analysed, and its result is what the parts
become, in their order. -/
theorem children_divides (slot : SlotAnalysis) (ctx : Context) (trees : List Markup.Node) :
    (∀ kinds, ∃! parts, Divides kinds parts) ∧
      ∀ reports nodes reports',
        (children slot ctx {} trees).run reports = (.ok nodes, reports')
          ↔
        ∃ kinds parts, trees.mapM Sibling.of = .ok kinds ∧ Divides kinds parts ∧
          Pieces slot ctx parts reports nodes reports' := by
  refine ⟨?_, fun _ _ _ => Holding.none.run_children_eq_ok⟩
  intro kinds
  obtain ⟨parts, hparts⟩ := exists_divides kinds
  exact ⟨parts, hparts, fun _ hparts' => hparts'.unique hparts⟩

end View
end ComponentCompiler
