import ComponentCompiler.Markup.Parse
import ComponentCompiler.Proofs.Token.Closed

/-!
This module contains what one step of the reader of markup trees does, in terms of what the reader
that passes over markup does there.
-/

namespace ComponentCompiler
namespace Markup

open Token (Slot groupRest attributesRest childrenRest AttributeStep)

variable {place : Nat → Nat → Span} {cs rest : List Char} {slots : List Slot}

theorem slotRest_ok : slotRest content = .ok rest
      ↔
    groupRest (content.length + 1) .curly (content.length + 1) [] true content = .ok rest := by
  rw [slotRest, mapError_eq_ok]

theorem slotRest_of_groupRest (h : groupRest n .curly left [] true content = .ok rest) :
    slotRest content = .ok rest := by
  rw [slotRest_ok]
  exact Token.groupRest_fuel h (by omega) _

theorem groupRest_of_slotRest (h : slotRest content = .ok rest) (hn : content.length ≤ n) :
    groupRest n .curly (content.length + 1) [] true content = .ok rest := by
  exact Token.groupRest_fuel (slotRest_ok.mp h) (by omega) _

/-- Whether the text of a slot starts with the dots of a spread. -/
def isSpread (content rest : List Char) : Bool :=
  Text.startsWith (Text.trim (slotText content rest)) "..."

theorem isSpread_eq_true : isSpread content rest = true ↔
    ∃ source, (Text.trim (slotText content rest)).toList = '.' :: '.' :: '.' :: source := by
  rw [isSpread, Text.startsWith, List.isPrefixOf_iff_prefix]
  constructor
  . rintro ⟨source, h⟩
    exact ⟨source, h.symm⟩
  . rintro ⟨source, h⟩
    exact ⟨source, h.symm⟩

inductive AttributeRead (place : Nat → Nat → Span) (cs : List Char) :
    Attribute → List Char → Prop where
  | spread {rest : List Char} (hcs : cs = '\x7b' :: content) (hslot : slotRest content = .ok rest)
      (hdots : (Text.trim (slotText content rest)).toList = '.' :: '.' :: '.' :: source) :
    AttributeRead place cs
      (.spread (place cs.length rest.length) (Text.trim (String.ofList source))) rest
  | expression {rest : List Char} (hname : Token.attributeName? cs = some (name, after))
      (hequal : Text.dropBlank after = '=' :: value)
      (hopen : Text.dropBlank value = '\x7b' :: content)
      (hslot : slotRest content = .ok rest) :
    AttributeRead place cs
      (.expression (place cs.length (rest.length + 1)) (String.ofList name)
        (slotText content rest)) rest
  | string {rest : List Char} (hname : Token.attributeName? cs = some (name, after))
      (hequal : Text.dropBlank after = '=' :: value)
      (hopen : Text.dropBlank value = quote :: content)
      (hquote : quote = '\'' ∨ quote = '"')
      (hread : Token.attributeStringRest? quote content = some rest) :
    AttributeRead place cs
      (.string (place cs.length rest.length) (String.ofList name)
        (Token.taken content (quote :: rest))) rest
  | boolean {rest : List Char} (hname : Token.attributeName? cs = some (name, after))
      (hrest : Text.dropBlank after = rest) (hequal : rest.head? ≠ some '=') :
    AttributeRead place cs (.boolean (place cs.length after.length) (String.ofList name)) rest

theorem attributeValue_ok (h : attributeValue name cs = .ok (text, isExpression, stop, rest)) :
    (∃ content, Text.dropBlank cs = '\x7b' :: content ∧ slotRest content = .ok rest ∧
      isExpression = true ∧
      text = slotText content rest ∧ stop = rest.length + 1) ∨
    ∃ quote content, Text.dropBlank cs = quote :: content ∧ (quote = '\'' ∨ quote = '"') ∧
      Token.attributeStringRest? quote content = some rest ∧ isExpression = false ∧
      text = Token.taken content (quote :: rest) ∧ stop = rest.length := by
  unfold attributeValue at h
  split at h
  . next content hcs =>
    rw [bind_eq_ok] at h
    obtain ⟨after, hread, h⟩ := h
    cases h
    exact .inl ⟨content, hcs, hread, rfl, rfl, rfl⟩
  . next quote content _ hcs =>
    split at h
    . next hquote =>
      split at h
      . next hread =>
        cases h
        exact .inr ⟨quote, content, hcs, by simpa using hquote, hread, rfl, rfl, rfl⟩
      . simp [fail] at h
    . simp [malformed, fail] at h
  . simp [malformed, fail] at h

theorem attributeRead_of_ok (h : oneAttribute place tag cs = .ok (attr, rest)) :
    AttributeRead place cs attr rest := by
  unfold oneAttribute at h
  split at h
  . simp at h
  . next content =>
    rw [bind_eq_ok] at h
    obtain ⟨after, hslot, h⟩ := h
    split at h
    . next source hdots =>
      cases h
      exact .spread rfl hslot hdots
    . simp [malformed, fail] at h
  . next c more hopen =>
    split at h
    . simp [malformed, fail] at h
    . next name after hname =>
      split at h
      . next value hequal =>
        simp only [bind_eq_ok] at h
        obtain ⟨⟨text, isExpression, stop, after⟩, hvalue, h⟩ := h
        rcases attributeValue_ok hvalue with
          ⟨content, hopen, hslot, rfl, rfl, rfl⟩ | ⟨quote, content, hopen, hquote, hread, rfl,
            rfl, rfl⟩
        . cases h
          exact .expression hname hequal hopen hslot
        . cases h
          exact .string hname hequal hopen hquote hread
      . next hequal =>
        cases h
        refine .boolean hname rfl ?_
        intro hhead
        obtain ⟨value, hvalue⟩ := List.head?_eq_some_iff.mp hhead
        exact hequal value hvalue

/-- The attributes that a tag is read with, whether it closes itself, and what follows it. -/
inductive AttributesRead (place : Nat → Nat → Span) :
    List Char → List Attribute → Bool → List Char → Prop where
  | single {cs rest : List Char} (hcs : Text.dropBlank cs = '/' :: '>' :: rest) :
    AttributesRead place cs [] true rest
  | content {cs rest : List Char} (hcs : Text.dropBlank cs = '>' :: rest) :
    AttributesRead place cs [] false rest
  | attr {cs rest : List Char} (hattr : AttributeRead place (Text.dropBlank cs) attr mid)
      (hmore : AttributesRead place mid attrs closed rest) :
    AttributesRead place cs (attr :: attrs) closed rest

theorem attributesRead_of_ok (h : attributes place tag m cs = .ok (attrs, closed, rest)) :
    AttributesRead place cs attrs closed rest := by
  induction m generalizing cs attrs with
  | zero => simp [attributes, neverClosed, malformed, fail] at h
  | succ m ih =>
    cases cs with
    | nil => simp [attributes, neverClosed, malformed, fail] at h
    | cons d ds =>
      simp only [attributes] at h
      split at h
      . next hcs =>
        cases h
        exact .single hcs
      . next hcs =>
        cases h
        exact .content hcs
      . simp only [bind_eq_ok] at h
        obtain ⟨⟨attr, mid⟩, hattr, ⟨more, closed, after⟩, hmore, h⟩ := h
        cases h
        exact .attr (attributeRead_of_ok hattr) (ih hmore)

theorem dropBlank_of_step (h : AttributeStep k cs slots after) :
    ∃ c more, Text.dropBlank cs = c :: more ∧ c ≠ '/' ∧ c ≠ '>' := by
  cases h with
  | spread hcs => exact ⟨_, _, hcs, by decide, by decide⟩
  | slot hname =>
    obtain ⟨c, more, hcs, hslash, hstop, _⟩ := Token.attributeName?_head_ne hname
    exact ⟨c, more, hcs, hslash, hstop⟩
  | text hname =>
    obtain ⟨c, more, hcs, hslash, hstop, _⟩ := Token.attributeName?_head_ne hname
    exact ⟨c, more, hcs, hslash, hstop⟩
  | bare hname =>
    obtain ⟨c, more, hcs, hslash, hstop, _⟩ := Token.attributeName?_head_ne hname
    exact ⟨c, more, hcs, hslash, hstop⟩

theorem ne_nil_of_dropBlank (h : Text.dropBlank cs = c :: more) : cs ≠ [] := by
  rintro rfl
  simp [Text.dropBlank] at h

theorem attributes_succ_of_other (hcs : Text.dropBlank cs = c :: more) (hslash : c ≠ '/')
    (hstop : c ≠ '>') :
    attributes place tag (n + 1) cs
      =
    oneAttribute place tag (Text.dropBlank cs) >>= fun r =>
      attributes place tag n r.2 >>= fun s => pure (r.1 :: s.1, s.2) := by
  have hne := ne_nil_of_dropBlank hcs
  simp [attributes, hcs, hslash, hstop]

theorem attributesRest_ne_nil (h : attributesRest n left tag cs = .ok (slots, rest)) : cs ≠ [] := by
  obtain ⟨used, _, rfl, hne, _⟩ := (Token.Closed.of_fuel n).attributes h
  simp [hne]

theorem suffix_of_step (h : AttributeStep k cs slots after) (hne : after ≠ []) :
    after <:+ cs ∧ after.length < cs.length := by
  obtain ⟨d, rest, rfl⟩ := List.exists_cons_of_ne_nil hne
  obtain ⟨used, _, rfl, hused, _⟩ := h.closed (Token.Closed.of_fuel k)
  refine ⟨List.suffix_append _ _, ?_⟩
  have := List.length_pos_iff.mpr hused
  simp only [List.length_append]
  omega

def Closes (enclosing : Enclosing) (mid rest : List Char) : Prop :=
  match enclosing with
  | .element tag => Token.closingTag tag mid = .ok rest
  | .fragment _ => mid = '<' :: '/' :: '>' :: rest

theorem closes_withContent (enclosing : Enclosing) :
    Closes enclosing.withContent mid rest ↔ Closes enclosing mid rest := by
  cases enclosing with
  | element tag => rfl
  | fragment hasContent => rfl

theorem closingTag_ok :
    closingTag tag cs = .ok rest ↔ Token.closingTag tag ('<' :: '/' :: cs) = .ok rest := by
  rw [Token.closingTag_ok, closingTag, List.drop_succ_cons, List.drop_succ_cons, List.drop_zero]
  split
  . next hcs => simp [hcs, Token.tagName?, neverClosed, malformed, fail]
  . split
    . next hname => simp [hname, fail]
    . next found after hname =>
      rw [hname]
      by_cases hfound : found = tag
      . subst hfound
        rw [if_pos rfl]
        split
        . next hafter => simp [hafter]
        . next hafter =>
          have : Text.dropBlank after ≠ '>' :: rest := fun h => hafter rest h
          simp [malformed, fail, this]
      . simp [hfound, fail]

theorem close_ok (left : Nat) (enclosing : Enclosing) :
    enclosing.close left mid = .ok rest ↔ Closes enclosing ('<' :: '/' :: mid) rest := by
  cases enclosing with
  | element tag =>
    rw [Closes, ← closingTag_ok]
    cases mid with
    | nil => rfl
    | cons c mid =>
      by_cases hc : c = '>'
      . subst hc
        have hblank : Text.dropBlank ('>' :: mid) = '>' :: mid := rfl
        have hname : Token.tagName? ('>' :: mid) = none := rfl
        simp [Enclosing.close, closingTag, hblank, hname, fail]
      . simp [Enclosing.close, hc]
  | fragment hasContent =>
    rw [Closes]
    cases mid with
    | nil => cases hasContent <;> simp [Enclosing.close, unexpectedClosing, fail]
    | cons c mid =>
      by_cases hc : c = '>'
      . simp [Enclosing.close, hc]
      . cases hasContent <;> simp [Enclosing.close, unexpectedClosing, fail, hc]

theorem children_closing_ok :
    children place (m + 1) enclosing ('<' :: '/' :: mid) = .ok (nodes, rest)
      ↔
    nodes = [] ∧ Closes enclosing ('<' :: '/' :: mid) rest := by
  rw [← close_ok ('<' :: '/' :: mid).length, children, bind_eq_ok]
  constructor
  . rintro ⟨after, hread, h⟩
    cases h
    exact ⟨rfl, hread⟩
  . rintro ⟨rfl, hread⟩
    exact ⟨rest, hread, rfl⟩

def Continues (place : Nat → Nat → Span) (m : Nat) (enclosing : Enclosing) (cs after : List Char) :
    Prop :=
  ∃ (f : List Node × List Char → List Node × List Char) (enclosing' : Enclosing),
    (∀ mid rest, Closes enclosing' mid rest ↔ Closes enclosing mid rest) ∧ (∀ r, (f r).2 = r.2) ∧
    children place (m + 1) enclosing cs = f <$> children place m enclosing' after

/-- The node of a text between other nodes, if anything is left of it. -/
def textNodes (place : Nat → Nat → Span) (cs : List Char) : List Node :=
  let value := normalizeText (String.ofList (cs.takeWhile isText))
  if value = "" then [] else [.text (place cs.length (cs.dropWhile isText).length) value]

theorem textNodes_cases (hc : isText c = true) : textNodes place (c :: cs) = [] ∨
    ∃ value, textNodes place (c :: cs) =
      [.text (place (c :: cs).length (cs.dropWhile isText).length) value] := by
  rw [textNodes, List.dropWhile_cons_of_pos hc]
  split
  . exact .inl rfl
  . exact .inr ⟨_, rfl⟩

theorem children_of_isText (hc : isText c = true) :
    children place (m + 1) enclosing (c :: cs)
      =
    (fun r => (textNodes place (c :: cs) ++ r.1, r.2)) <$>
      children place m enclosing.withContent (cs.dropWhile isText) := by
  have hother : c ≠ '<' ∧ c ≠ '\x7b' := by simpa [isText] using hc
  have hdrop : (c :: cs).dropWhile isText = cs.dropWhile isText := List.dropWhile_cons_of_pos hc
  by_cases hempty : normalizeText (String.ofList ((c :: cs).takeWhile isText)) = ""
  . simp [children, textNodes, hother, hdrop, hempty]
  . simp [children, textNodes, hother, hdrop, hempty]

theorem children_text (hc : isText c = true) :
    Continues place m enclosing (c :: cs) (cs.dropWhile isText) := by
  exact ⟨fun r => (textNodes place (c :: cs) ++ r.1, r.2), enclosing.withContent,
    fun _ _ => closes_withContent enclosing, fun _ => rfl, children_of_isText hc⟩

theorem children_node (hclose : content.head? ≠ some '/') :
    children place (m + 1) enclosing ('<' :: content)
      =
    node place m content >>= fun r =>
      (fun s => (r.1 :: s.1, s.2)) <$> children place m enclosing.withContent r.2 := by
  have hstop : ∀ more, content ≠ '/' :: more := by
    rintro more rfl
    simp at hclose
  simp [children]

theorem children_slot (hread : slotRest content = .ok after) :
    Continues place m enclosing ('\x7b' :: content) after := by
  cases htokens : slotHasTokens content after with
  | true =>
    refine ⟨fun r =>
      (.slot (place content.length (after.length + 1)) (slotText content after) :: r.1, r.2),
      enclosing.withContent, fun _ _ => closes_withContent enclosing, fun _ => rfl, ?_⟩
    simp [children, hread, htokens]
  | false =>
    refine ⟨id, enclosing, fun _ _ => Iff.rfl, fun _ => rfl, ?_⟩
    simp [children, hread, htokens]

theorem node_fragment :
    node place (m + 1) ('>' :: content)
      =
    (fun r => (.fragment (place (content.length + 2) r.2.length) r.1, r.2)) <$>
      children place m (.fragment false) content := by
  simp [node]

theorem node_element (hname : Token.tagName? cs = some (tag, after)) :
    node place (m + 1) cs
      =
    attributes place (String.ofList tag) (after.length + 1) after >>= fun r =>
      if r.2.1 then
        pure (.element (place (cs.length + 1) r.2.2.length) (String.ofList tag) r.1 [], r.2.2)
      else
        (fun s => (.element (place (cs.length + 1) s.2.length) (String.ofList tag) r.1 s.1, s.2))
          <$>
          children place m (.element tag) r.2.2 := by
  obtain ⟨c, more, rfl, hletter, _⟩ := Token.tagName?_eq_some hname
  have hc : c ≠ '>' := by
    rintro rfl
    simp [Text.isAsciiLetter] at hletter
  simp [node, hc, hname]

theorem node_zero_ne : node place 0 cs ≠ .ok r := by
  simp [node, neverClosed, malformed, fail]

theorem children_zero_ne : children place 0 enclosing cs ≠ .ok r := by
  simp [children, neverClosed, malformed, fail]

inductive ChildrenRead (place : Nat → Nat → Span) (m : Nat) (enclosing : Enclosing) :
    List Char → List Node → List Char → Prop where
  | closing {rest : List Char} (h : Closes enclosing ('<' :: '/' :: mid) rest) :
    ChildrenRead place m enclosing ('<' :: '/' :: mid) [] rest
  | node {rest : List Char} (hclose : content.head? ≠ some '/')
      (hnode : node place m content = .ok (tree, after))
      (hmore : children place m enclosing.withContent after = .ok (nodes, rest)) :
    ChildrenRead place m enclosing ('<' :: content) (tree :: nodes) rest
  | slot {rest : List Char} (hslot : slotRest content = .ok after)
      (htokens : slotHasTokens content after = true)
      (hmore : children place m enclosing.withContent after = .ok (nodes, rest)) :
    ChildrenRead place m enclosing ('\x7b' :: content)
      (.slot (place content.length (after.length + 1)) (slotText content after) :: nodes) rest
  | gap {rest : List Char} (hslot : slotRest content = .ok after)
      (htokens : slotHasTokens content after = false)
      (hmore : children place m enclosing after = .ok (nodes, rest)) :
    ChildrenRead place m enclosing ('\x7b' :: content) nodes rest
  | text {cs rest : List Char} (hc : isText c = true)
      (hmore : children place m enclosing.withContent (cs.dropWhile isText) = .ok (nodes, rest)) :
    ChildrenRead place m enclosing (c :: cs) (textNodes place (c :: cs) ++ nodes) rest

theorem childrenRead_of_ok {enclosing : Enclosing} {nodes : List Node}
    (h : children place (m + 1) enclosing cs = .ok (nodes, rest)) :
    ChildrenRead place m enclosing cs nodes rest := by
  match cs with
  | [] => simp [children, neverClosed, malformed, fail] at h
  | c :: tail =>
    by_cases hmarkup : c = '<'
    . subst hmarkup
      by_cases hstop : tail.head? = some '/'
      . obtain ⟨mid, rfl⟩ := List.head?_eq_some_iff.mp hstop
        obtain ⟨rfl, hclose⟩ := children_closing_ok.mp h
        exact .closing hclose
      . rw [children_node hstop, bind_eq_ok] at h
        obtain ⟨⟨child, after⟩, hnode, h⟩ := h
        obtain ⟨⟨more, rest⟩, hmore, h⟩ := map_eq_ok.mp h
        cases h
        exact .node hstop hnode hmore
    . by_cases hslot : c = '\x7b'
      . subst hslot
        simp only [children, bind_eq_ok] at h
        obtain ⟨after, hslot, h⟩ := h
        split at h
        . next htokens =>
          simp only [bind_eq_ok] at h
          obtain ⟨⟨more, rest⟩, hmore, h⟩ := h
          cases h
          exact .slot hslot htokens hmore
        . next htokens => exact .gap hslot (by simpa using htokens) h
      . have hc : isText c = true := by simp [isText, hmarkup, hslot]
        rw [children_of_isText hc, map_eq_ok] at h
        obtain ⟨⟨more, rest⟩, hmore, h⟩ := h
        cases h
        exact .text hc hmore

inductive NodeRead (place : Nat → Nat → Span) (m : Nat) (cs : List Char) :
    Node → List Char → Prop where
  | fragment {rest : List Char} (hcs : cs = '>' :: content)
      (hread : children place m (.fragment false) content = .ok (nodes, rest)) :
    NodeRead place m cs (.fragment (place (cs.length + 1) rest.length) nodes) rest
  | single {rest : List Char} (hname : Token.tagName? cs = some (tag, after))
      (hattrs : AttributesRead place after attrs true rest) :
    NodeRead place m cs
      (.element (place (cs.length + 1) rest.length) (String.ofList tag) attrs []) rest
  | element {rest : List Char} (hname : Token.tagName? cs = some (tag, after))
      (hattrs : AttributesRead place after attrs false content)
      (hread : children place m (.element tag) content = .ok (nodes, rest)) :
    NodeRead place m cs
      (.element (place (cs.length + 1) rest.length) (String.ofList tag) attrs nodes) rest

theorem nodeRead_of_ok {tree : Node} (h : node place (m + 1) cs = .ok (tree, rest)) :
    NodeRead place m cs tree rest := by
  by_cases hfragment : cs.head? = some '>'
  . obtain ⟨content, rfl⟩ := List.head?_eq_some_iff.mp hfragment
    rw [node_fragment, map_eq_ok] at h
    obtain ⟨⟨nodes, rest⟩, hread, h⟩ := h
    cases h
    exact .fragment rfl hread
  . cases hname : Token.tagName? cs with
    | none =>
      cases cs with
      | nil => simp [node, neverClosed, malformed, fail] at h
      | cons c cs =>
        have hc : c ≠ '>' := by simpa using hfragment
        simp [node, hc, hname, malformed, fail] at h
    | some found =>
      obtain ⟨tag, after⟩ := found
      rw [node_element hname, bind_eq_ok] at h
      obtain ⟨⟨attrs, closed, content⟩, hattrs, h⟩ := h
      cases closed with
      | true =>
        cases h
        exact .single hname (attributesRead_of_ok hattrs)
      | false =>
        obtain ⟨⟨nodes, rest⟩, hread, h⟩ := map_eq_ok.mp h
        cases h
        exact .element hname (attributesRead_of_ok hattrs) hread

end Markup
end ComponentCompiler
