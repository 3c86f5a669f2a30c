import ComponentCompiler.Proofs.Markup.Source
import ComponentCompiler.Proofs.Text.Position
import ComponentCompiler.Proofs.Token.Range

/-!
This module contains where the parts of a markup tree stand. Each part has the range of the text
that it was read from, a slot holds the text of its range, and the children of a node follow one
another inside of it.
-/

namespace ComponentCompiler
namespace Markup

def Attribute.span : Attribute → Span
  | .string span .. | .expression span .. | .boolean span .. | .spread span .. => span

def Node.range (node : Node) : Nat × Nat :=
  (node.span.start, node.span.stop)

/-- Nodes that follow one another between two offsets, none of them empty. -/
structure Siblings (start stop : Nat) (nodes : List Node) : Prop where
  increasing : Increasing (nodes.map Node.range)
  within : ∀ node ∈ nodes, Within node.range (start, stop)

inductive Node.IsIn (text : String) : Node → Prop where
  | element {span : Span} {tag : String} {attributes : List Attribute} {children : List Node}
      (hspan : span.IsIn text)
      (hattributes : ∀ attr ∈ attributes, attr.span.IsIn text)
      (hchildren : ∀ child ∈ children, IsIn text child)
      (hsiblings : Siblings span.start span.stop children) :
    IsIn text (.element span tag attributes children)
  | fragment {span : Span} {children : List Node} (hspan : span.IsIn text)
      (hchildren : ∀ child ∈ children, IsIn text child)
      (hsiblings : Siblings span.start span.stop children) :
    IsIn text (.fragment span children)
  | text {span : Span} {value : String} (hspan : span.IsIn text) : IsIn text (.text span value)
  | slot {span : Span} {source : String} (h : span.Quotes text source) :
    IsIn text (.slot span source)

theorem siblings_nil (start stop : Nat) : Siblings start stop [] := by
  constructor
  . exact increasing_nil
  . simp

theorem Siblings.mono {nodes : List Node} (h : Siblings start stop nodes) (hstart : start' ≤ start)
    (hstop : stop ≤ stop') : Siblings start' stop' nodes := by
  constructor
  . exact h.increasing
  . intro node hnode
    apply (h.within node hnode).trans
    exact ⟨hstart, hstop⟩

theorem Siblings.cons {node : Node} {nodes : List Node} (h : Siblings mid stop nodes)
    (hnode : node.span.start < node.span.stop)
    (hstart : start ≤ node.span.start) (hmid : node.span.stop ≤ mid) (hstop : mid ≤ stop) :
    Siblings start stop (node :: nodes) := by
  constructor
  . rw [List.map_cons, increasing_cons]
    refine ⟨hnode, h.increasing, ?_⟩
    intro r hr
    obtain ⟨other, hother, rfl⟩ := List.mem_map.mp hr
    apply Nat.le_trans hmid
    exact (h.within other hother).1
  . intro other hother
    cases hother with
    | head => exact ⟨hstart, Nat.le_trans hmid hstop⟩
    | tail _ hother =>
      have := h.within other hother
      exact ⟨by apply Nat.le_trans _ this.1; dsimp only; omega, this.2⟩

def offsetAt (snippet : List Char) (origin : Origin) (left : Nat) : Nat :=
  origin.offset + (snippet.length - left)

variable {text : String} {snippet cs rest content after : List Char} {file : String}
    {origin : Origin}

theorem offsetAt_le (h : right ≤ left) :
    offsetAt snippet origin left ≤ offsetAt snippet origin right := by
  unfold offsetAt
  omega

theorem offsetAt_lt (h : right < left) (hleft : left ≤ snippet.length) :
    offsetAt snippet origin left < offsetAt snippet origin right := by
  unfold offsetAt
  omega

theorem placeIn_isIn (h : origin.Holds text.toList snippet) (hle : right ≤ left) :
    (placeIn snippet file origin left right).IsIn text := by
  apply h.span
  . omega
  . omega

theorem length_lt_of_slotHasTokens (h : slotRest content = .ok after)
    (htokens : slotHasTokens content after = true) : after.length + 1 < content.length := by
  obtain ⟨used, rfl, _⟩ := eq_append_of_slotRest h
  cases used with
  | nil =>
    have hgap : Token.afterGap false ('\x7d' :: after) = .ok (false, '\x7d' :: after) := by
      apply Token.afterGap_of_token
      . decide
      . rfl
    simp [slotHasTokens, hgap] at htokens
  | cons c used =>
    rw [List.length_append, List.length_cons, List.length_cons]
    omega

theorem slotText_eq_slice (h : origin.Holds text.toList snippet) (hcs : content <:+ snippet)
    (hslot : slotRest content = .ok after) :
    slotText content after
      =
    Text.slice text (offsetAt snippet origin content.length)
      (offsetAt snippet origin (after.length + 1)) := by
  obtain ⟨used, rfl, htext⟩ := eq_append_of_slotRest hslot
  obtain ⟨before, rfl⟩ := hcs
  have hpiece : (before ++ (used ++ '\x7d' :: after)) =
      (String.ofList (before ++ (used ++ '\x7d' :: after))).toList := by
    rw [String.toList_ofList]
  rw [htext, offsetAt, offsetAt]
  rw [hpiece] at h
  rw [h.slice, ← String.toList_inj, String.toList_ofList]
  . symm
    apply Text.toList_slice String.toList_ofList
    . simp only [List.length_append, List.length_cons]
      omega
    . simp only [List.length_append, List.length_cons]
      omega
  . rw [String.length_ofList]
    omega

theorem AttributeRead.exists_suffix (h : AttributeRead place cs attr rest) :
    ∃ c more, cs = c :: more ∧ rest <:+ more := by
  have hname {name after : List Char} (hname : Token.attributeName? cs = some (name, after))
      (hrest : rest <:+ after) :
      ∃ c more, cs = c :: more ∧ rest <:+ more := by
    obtain ⟨hcs, hne, _⟩ := Token.attributeName?_append hname
    obtain ⟨c, name, rfl⟩ := List.exists_cons_of_ne_nil hne
    exact ⟨c, name ++ after, hcs, hrest.trans (List.suffix_append _ _)⟩
  cases h with
  | @spread content source _ hcs hslot hdots =>
    obtain ⟨used, rfl, _⟩ := eq_append_of_slotRest hslot
    exact ⟨_, _, hcs, used ++ ['\x7d'], by simp⟩
  | @expression name after value content _ hname' hequal hopen hslot =>
    obtain ⟨used, rfl, _⟩ := eq_append_of_slotRest hslot
    apply hname hname'
    have hcontent := (Token.suffix_of_dropBlank hopen).trans (Token.suffix_of_dropBlank hequal)
    exact ((List.suffix_cons _ _).trans (List.suffix_append used _)).trans hcontent
  | @string name after value quote content _ hname' hequal hopen hquote hread =>
    obtain ⟨used, rfl, _⟩ := Token.attributeStringRest?_closed hread
    apply hname hname'
    exact (List.suffix_append used _).trans
      ((Token.suffix_of_dropBlank hopen).trans (Token.suffix_of_dropBlank hequal))
  | @boolean name after _ hname' hrest hequal =>
    apply hname hname'
    rw [← hrest]
    exact Token.dropBlank_suffix after

theorem AttributeRead.suffix (h : AttributeRead place cs attr rest) : rest <:+ cs := by
  obtain ⟨c, more, rfl, hrest⟩ := h.exists_suffix
  exact hrest.trans (List.suffix_cons c more)

theorem AttributeRead.isIn (hholds : origin.Holds text.toList snippet)
    (h : AttributeRead (placeIn snippet file origin) cs attr rest) : attr.span.IsIn text := by
  have hsuffix := h.suffix
  cases h with
  | spread => exact placeIn_isIn hholds hsuffix.length_le
  | @expression name rest value content _ hname hequal hopen hslot =>
    apply placeIn_isIn hholds
    obtain ⟨used, rfl, _⟩ := eq_append_of_slotRest hslot
    obtain ⟨rfl, _⟩ := Token.attributeName?_append hname
    have hvalue := (Token.suffix_of_dropBlank hequal).trans (List.suffix_append name rest)
    have hlength := ((Token.suffix_of_dropBlank hopen).trans hvalue).length_le
    rw [List.length_append, List.length_cons] at hlength
    omega
  | string => exact placeIn_isIn hholds hsuffix.length_le
  | @boolean name after _ hname =>
    obtain ⟨rfl, _⟩ := Token.attributeName?_append hname
    apply placeIn_isIn hholds
    rw [List.length_append]
    omega

theorem AttributesRead.suffix (h : AttributesRead place cs attrs closed rest) : rest <:+ cs := by
  induction h with
  | single hcs => exact (List.suffix_cons _ _).trans (Token.suffix_of_dropBlank hcs)
  | content hcs => exact Token.suffix_of_dropBlank hcs
  | @attr _ _ _ _ cs _ hattr _ ih =>
    exact (ih.trans hattr.suffix).trans (Token.dropBlank_suffix cs)

theorem AttributesRead.isIn (hholds : origin.Holds text.toList snippet)
    (h : AttributesRead (placeIn snippet file origin) cs attrs closed rest) :
    ∀ attr ∈ attrs, attr.span.IsIn text := by
  induction h with
  | single => simp
  | content => simp
  | attr hattr _ ih =>
    rw [List.forall_mem_cons]
    exact ⟨hattr.isIn hholds, ih⟩

theorem Closes.suffix {enclosing : Enclosing} (h : Closes enclosing ('<' :: '/' :: mid) rest) :
    rest <:+ '<' :: '/' :: mid := by
  cases enclosing with
  | element tag =>
    obtain ⟨used, rfl, _⟩ := Token.closingTag_closed h
    exact ⟨'<' :: '/' :: used, rfl⟩
  | fragment hasContent =>
    rw [Closes] at h
    rw [h]
    exact ⟨['<', '/', '>'], rfl⟩

structure ReadsIn (text : String) (snippet : List Char) (file : String) (origin : Origin)
    (m : Nat) : Prop where
  node : ∀ {cs tree rest}, '<' :: cs <:+ snippet →
    node (placeIn snippet file origin) m cs = .ok (tree, rest) →
    rest <:+ cs ∧ tree.IsIn text ∧
    tree.range = (offsetAt snippet origin (cs.length + 1), offsetAt snippet origin rest.length)
  children : ∀ {enclosing cs nodes rest}, cs <:+ snippet →
    children (placeIn snippet file origin) m enclosing cs = .ok (nodes, rest) →
    rest <:+ cs ∧ (∀ node ∈ nodes, node.IsIn text) ∧
      Siblings (offsetAt snippet origin cs.length) (offsetAt snippet origin rest.length) nodes

theorem ReadsIn.children_succ {nodes : List Node} (hholds : origin.Holds text.toList snippet)
    (ih : ReadsIn text snippet file origin m) (hcs : cs <:+ snippet)
    (h : Markup.children (placeIn snippet file origin) (m + 1) enclosing cs = .ok (nodes, rest)) :
    rest <:+ cs ∧ (∀ node ∈ nodes, node.IsIn text) ∧
      Siblings (offsetAt snippet origin cs.length) (offsetAt snippet origin rest.length) nodes := by
  have hlength := hcs.length_le
  cases childrenRead_of_ok h with
  | closing hclose => exact ⟨hclose.suffix, by simp, siblings_nil _ _⟩
  | @node content tree after nodes _ hclose hnode hmore =>
    obtain ⟨hafter, htree, hrange⟩ := ih.node hcs hnode
    obtain ⟨hrest, hnodes, hsiblings⟩ :=
      ih.children ((hafter.trans (List.suffix_cons _ _)).trans hcs) hmore
    have hstart : tree.span.start = offsetAt snippet origin (content.length + 1) :=
      congrArg Prod.fst hrange
    have hstop : tree.span.stop = offsetAt snippet origin after.length := congrArg Prod.snd hrange
    refine ⟨(hrest.trans hafter).trans (List.suffix_cons _ _), ?_, ?_⟩
    . rw [List.forall_mem_cons]
      exact ⟨htree, hnodes⟩
    . apply hsiblings.cons
      . rw [hstart, hstop]
        apply offsetAt_lt
        . have := hafter.length_le
          omega
        . exact hlength
      . exact Nat.le_of_eq hstart.symm
      . exact Nat.le_of_eq hstop
      . exact offsetAt_le hrest.length_le
  | @slot content after nodes _ hslot htokens hmore =>
    obtain ⟨used, hcontent, _⟩ := eq_append_of_slotRest hslot
    have hafter : after <:+ content := ⟨used ++ ['\x7d'], by simp [hcontent]⟩
    have hinside := (List.suffix_cons _ _).trans hcs
    obtain ⟨hrest, hnodes, hsiblings⟩ := ih.children (hafter.trans hinside) hmore
    have hlt := length_lt_of_slotHasTokens hslot htokens
    refine ⟨(hrest.trans hafter).trans (List.suffix_cons _ _), ?_, ?_⟩
    . rw [List.forall_mem_cons]
      refine ⟨.slot ⟨placeIn_isIn hholds (by omega), ?_⟩, hnodes⟩
      exact slotText_eq_slice hholds hinside hslot
    . apply hsiblings.cons
      . apply offsetAt_lt hlt
        exact hinside.length_le
      . apply offsetAt_le
        rw [List.length_cons]
        omega
      . apply offsetAt_le
        omega
      . exact offsetAt_le hrest.length_le
  | @gap content after _ _ hslot _ hmore =>
    obtain ⟨used, hcontent, _⟩ := eq_append_of_slotRest hslot
    have hafter : after <:+ '\x7b' :: content := ⟨'\x7b' :: (used ++ ['\x7d']), by simp [hcontent]⟩
    obtain ⟨hrest, hnodes, hsiblings⟩ := ih.children (hafter.trans hcs) hmore
    refine ⟨hrest.trans hafter, hnodes, hsiblings.mono ?_ (Nat.le_refl _)⟩
    exact offsetAt_le hafter.length_le
  | @text c nodes cs _ hc hmore =>
    have hdrop : cs.dropWhile isText <:+ cs := List.dropWhile_suffix _
    have hafter := hdrop.trans (List.suffix_cons c cs)
    obtain ⟨hrest, hnodes, hsiblings⟩ := ih.children (hafter.trans hcs) hmore
    rcases @textNodes_cases (placeIn snippet file origin) cs c hc with htexts | ⟨value, htexts⟩
    . rw [htexts]
      refine ⟨hrest.trans hafter, hnodes, ?_⟩
      exact hsiblings.mono (offsetAt_le hafter.length_le) (Nat.le_refl _)
    . rw [htexts, List.singleton_append, List.forall_mem_cons]
      refine ⟨hrest.trans hafter, ⟨.text (placeIn_isIn hholds hafter.length_le), hnodes⟩, ?_⟩
      apply hsiblings.cons
      . apply offsetAt_lt
        . exact Nat.lt_succ_of_le hdrop.length_le
        . exact hlength
      . exact Nat.le_refl _
      . exact Nat.le_refl _
      . exact offsetAt_le hrest.length_le

theorem ReadsIn.node_succ {tree : Node} (hholds : origin.Holds text.toList snippet)
    (ih : ReadsIn text snippet file origin m) (hcs : '<' :: cs <:+ snippet)
    (h : Markup.node (placeIn snippet file origin) (m + 1) cs = .ok (tree, rest)) :
    rest <:+ cs ∧ tree.IsIn text ∧
      tree.range =
        (offsetAt snippet origin (cs.length + 1), offsetAt snippet origin rest.length) := by
  have hinside : cs <:+ snippet := (List.suffix_cons _ _).trans hcs
  cases nodeRead_of_ok h with
  | @fragment content nodes _ hopen hread =>
    subst hopen
    obtain ⟨hrest, hnodes, hsiblings⟩ := ih.children ((List.suffix_cons _ _).trans hinside) hread
    have hrest := hrest.trans (List.suffix_cons '>' content)
    refine ⟨hrest, ?_, rfl⟩
    apply Node.IsIn.fragment (placeIn_isIn hholds (Nat.le_succ_of_le hrest.length_le)) hnodes
    apply hsiblings.mono
    . apply offsetAt_le
      rw [List.length_cons]
      omega
    . exact Nat.le_refl _
  | @single tag after _ _ hname hattrs =>
    obtain ⟨rfl, _⟩ := Token.tagName?_append hname
    have hattributes := hattrs.isIn hholds
    have hrest := hattrs.suffix.trans (List.suffix_append tag after)
    refine ⟨hrest, ?_, rfl⟩
    exact .element (placeIn_isIn hholds (Nat.le_succ_of_le hrest.length_le)) hattributes (by simp)
      (siblings_nil _ _)
  | @element tag after _ _ _ _ hname hattrs hread =>
    obtain ⟨rfl, _⟩ := Token.tagName?_append hname
    have hattributes := hattrs.isIn hholds
    have hcontent := hattrs.suffix.trans (List.suffix_append tag after)
    obtain ⟨hrest, hnodes, hsiblings⟩ := ih.children (hcontent.trans hinside) hread
    have hrest := hrest.trans hcontent
    refine ⟨hrest, ?_, rfl⟩
    apply Node.IsIn.element
      (placeIn_isIn hholds (Nat.le_succ_of_le hrest.length_le)) hattributes hnodes
    apply hsiblings.mono
    . apply offsetAt_le
      exact Nat.le_succ_of_le hcontent.length_le
    . exact Nat.le_refl _

theorem readsIn (hholds : origin.Holds text.toList snippet) (m : Nat) :
    ReadsIn text snippet file origin m := by
  induction m with
  | zero =>
    constructor
    . exact fun _ h => absurd h node_zero_ne
    . exact fun _ h => absurd h children_zero_ne
  | succ m ih =>
    constructor
    . intro cs tree rest hcs h
      exact ih.node_succ hholds hcs h
    . intro enclosing cs nodes rest hcs h
      exact ih.children_succ hholds hcs h

theorem Node.isIn_of_parse {snippet : String} {tree : Node}
    (hholds : origin.Holds text.toList snippet.toList)
    (h : Node.parse snippet file origin = .ok tree) : tree.IsIn text := by
  obtain ⟨content, rest, hcs, hnode, _⟩ := node_of_parse h
  have hsuffix := Token.dropBlank_suffix snippet.toList
  rw [hcs] at hsuffix
  exact ((readsIn hholds _).node hsuffix hnode).2.1

end Markup
end ComponentCompiler
