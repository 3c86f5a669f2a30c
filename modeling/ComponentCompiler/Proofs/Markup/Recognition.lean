import ComponentCompiler.Proofs.Markup.Refusal
import ComponentCompiler.Proofs.Text.Slice
import ComponentCompiler.Token.Scan

/-!
This module contains the agreement of the two readers of markup: the one that passes over a tree as
one token and the one that builds the tree. Both accept the same texts, except that the second
refuses a slot between attributes that is no spread.
-/

namespace ComponentCompiler
namespace Markup

open Token (Slot markupRest markupRest_fuel)

variable {place : Nat → Nat → Span} {cs rest content after : List Char} {slots : List Slot}
variable {entries : List Entry}

theorem markupRest_of_node (h : node place m cs = .ok (tree, rest)) :
    ∃ n left slots, markupRest n left cs = .ok (slots, rest) := by
  obtain ⟨entries, hderives, _⟩ := (readsDerived m).node h
  obtain ⟨n, left, hread⟩ := hderives.passes
  exact ⟨n, left, _, hread⟩

/-- The slots of a text that is markup from its first character to its last. -/
def SlotsOf (snippet : String) (entries : List Entry) : Prop :=
  ∃ used, snippet.toList = '<' :: used ∧ Derives .markup used entries []

/-- The slot is the group in curly brackets at this place of the text, and its text is what stands
between the brackets. -/
structure Entry.StandsIn (text : String) (stop : Nat) (e : Entry) : Prop where
  opening : text.toList[(e.group stop).1]? = some '\x7b'
  left : (e.range stop).1 = (e.group stop).1 + 1
  source : Text.slice text (e.range stop).1 (e.range stop).2 = e.source
  closing : text.toList[(e.range stop).2]? = some '\x7d'
  right : (e.group stop).2 = (e.range stop).2 + 1
  skip : Token.skipGroup text (e.group stop).1 = .ok (e.group stop).2

/-- The slot stands between attributes and is no spread, and the reading of the snippet as a tree
stops at it. -/
structure SpreadExpected (snippet file : String) (origin : Origin) (e : Entry) : Prop where
  role : e.role = .spread
  dots : Text.startsWith (Text.trim e.source) "..." = false
  stands : e.StandsIn snippet snippet.length
  parse : Node.parse snippet file origin = .error (.compile (.at
    (.malformedMarkup "Only spread expressions may appear between attributes.")
    snippet (e.group snippet.length).1 origin file))

theorem markupRest_head (h : markupRest n left cs = .ok (slots, rest)) :
    ∃ c more, cs = c :: more ∧ (c = '>' ∨ Text.isAsciiLetter c = true) := by
  cases n with
  | zero => simp [markupRest] at h
  | succ n =>
    rw [Token.markupRest_succ_ok] at h
    cases h with
    | fragment => exact ⟨_, _, rfl, .inl rfl⟩
    | element hname =>
      obtain ⟨c, more, hcs, hletter, _⟩ := Token.tagName?_eq_some hname
      exact ⟨c, more, hcs, .inr hletter⟩

theorem markupRest_head?_ne (h : markupRest n left cs = .ok (slots, rest)) :
    cs.head? ≠ some '/' := by
  obtain ⟨c, more, rfl, hc⟩ := markupRest_head h
  rw [List.head?_cons, ne_eq, Option.some.injEq]
  rintro rfl
  simp [Text.isAsciiLetter] at hc

theorem read_of_node (h : content.head? ≠ some '/') :
    read place ('<' :: content)
      =
    node place (content.length + 1) content >>= fun r =>
      if r.2.all Text.isBlank then pure r.1
      else malformed "Unexpected content after the markup tree." r.2.length := by
  have hblank : Text.dropBlank ('<' :: content) = '<' :: content := rfl
  have hstop : ∀ more, content ≠ '/' :: more := by
    rintro more rfl
    simp at h
  have hstop' : ∀ more, content ≠ '/' :: '>' :: more := fun more => hstop _
  simp [read, hblank]

theorem skipMarkup_ok (h : Token.skipMarkup text pos = .ok stop) :
    ∃ before c used rest slots, text.toList = before ++ c :: (used ++ rest) ∧ before.length = pos ∧
      stop = pos + (c :: used).length ∧
      Token.markupSlots text pos =
        .ok (slots.map fun s => (stop - s.startLeft, stop - s.stopLeft)) ∧
      ∀ m left, used.length ≤ m → markupRest m left used = .ok (slots, []) := by
  rw [Token.skipMarkup, map_eq_ok] at h
  obtain ⟨⟨ranges, stop⟩, hmarkup, rfl⟩ := h
  have h := hmarkup
  simp only [Token.readMarkup] at h
  split at h
  . next slots rest hread =>
    cases h
    obtain ⟨used, base, hcs, hne, rfl, hclosed⟩ := (Token.Closed.of_fuel _).markup hread
    have hpos : pos < text.toList.length := by
      have := congrArg List.length hcs
      have := List.length_pos_iff.mpr hne
      rw [List.length_drop, List.length_append] at *
      omega
    obtain ⟨htext, hbefore⟩ := Text.toList_eq_of_getElem? (List.getElem?_eq_getElem hpos)
    rw [hcs] at htext
    have hlength := Text.length_eq htext
    rw [List.length_append, List.length_cons, List.length_append, hbefore] at hlength
    refine ⟨_, _, used, rest, base, htext, hbefore, ?_, ?_, ?_⟩
    . rw [Token.offsetOf, List.length_cons]
      omega
    . rw [Token.markupSlots, hmarkup, List.map_map]
      simp [Token.offsetOf, Slot.shift, Nat.sub_sub, Nat.add_comm]
    . intro m left hm
      have hshift : base.map (Slot.shift 0) = base := List.map_id base
      simpa [hshift] using hclosed m left [] hm
  . simp at h

theorem slotsOf_skipMarkup (hopen : text.toList[pos]? = some '<')
    (h : Token.skipMarkup text pos = .ok stop) :
    ∃ entries, SlotsOf (Text.slice text pos stop) entries := by
  obtain ⟨before, c, used, rest, slots, htext, rfl, rfl, _, hread⟩ := skipMarkup_ok h
  have hc : c = '<' := by simpa [htext] using hopen
  subst hc
  obtain ⟨entries, hentries⟩ := (derived _).markup (hread used.length 0 (Nat.le_refl _))
  exact ⟨entries, used, Text.toList_slice htext rfl rfl, hentries⟩

theorem parse_ok {tree : Node} :
    Node.parse snippet file origin = .ok tree
      ↔
    read (placeIn snippet.toList file origin) snippet.toList = .ok tree := by
  unfold Node.parse
  dsimp only
  split
  . next h => rw [h]; simp
  . next h => rw [h]; simp
  . next h => rw [h]; simp

theorem node_of_parse {tree : Node} (h : Node.parse snippet file origin = .ok tree) :
    ∃ content rest, Text.dropBlank snippet.toList = '<' :: content ∧
      node (placeIn snippet.toList file origin) (content.length + 1) content = .ok (tree, rest) ∧
      rest.all Text.isBlank = true := by
  rw [parse_ok] at h
  unfold read at h
  split at h
  . simp [neverClosed, malformed, fail] at h
  . simp [fail] at h
  . simp [unexpectedClosing, fail] at h
  . next content _ _ hcs =>
    rw [bind_eq_ok] at h
    obtain ⟨⟨child, rest⟩, hnode, h⟩ := h
    dsimp only at h
    split at h
    . next hblank =>
      cases h
      exact ⟨content, rest, hcs, hnode, hblank⟩
    . simp [malformed, fail] at h
  . simp [malformed, fail] at h

theorem parse_of_refusal
    (h : read (placeIn snippet.toList file origin) snippet.toList = refusal left) :
    Node.parse snippet file origin = .error (.compile (.at
      (.malformedMarkup "Only spread expressions may appear between attributes.")
      snippet (snippet.toList.length - left) origin file)) := by
  rw [Node.parse, h, refusal]
  simp [malformed, fail, Fault.toError, Failure.ofScan]

theorem skipGroup_of_slot (hsnippet : snippet.toList = before ++ '\x7b' :: content)
    (hslot : slotRest content = .ok after) :
    Token.skipGroup snippet before.length = .ok (snippet.toList.length - after.length) := by
  have hdrop : snippet.toList.drop before.length = '\x7b' :: content := by
    rw [hsnippet, List.drop_left]
  have hbracket : Bracket.ofOpening? '\x7b' = some .curly := rfl
  simp [Token.skipGroup, Token.charAt, hdrop, hbracket, slotRest_ok.mp hslot, Token.offsetOf]
  rfl

theorem slotRest_append (h : slotRest content = .ok after) (rest : List Char) :
    slotRest (content ++ rest) = .ok (after ++ rest) := by
  obtain ⟨used, rfl, _, hclosed⟩ := (Token.Closed.of_fuel _).group (slotRest_ok.mp h)
  rw [List.append_assoc]
  exact slotRest_of_groupRest (hclosed used.length 0 (after ++ rest) (Nat.le_refl _))

theorem Entry.IsWritten.standsIn {text : String} {e : Entry} (h : e.IsWritten)
    (htext : text.toList = before ++ '\x7b' :: (e.content ++ rest))
    (hstop : stop = before.length + (e.content.length + 1)) : e.StandsIn text stop := by
  obtain ⟨used, hcontent, hsource⟩ := eq_append_of_slotRest h
  have hlength := congrArg List.length hcontent
  rw [List.length_append, List.length_cons] at hlength
  have hstart : (e.group stop).1 = before.length := by
    simp only [Entry.group]
    omega
  have hend : (e.range stop).2 = before.length + (used.length + 1) := by
    simp only [Entry.range]
    omega
  have hinner : (e.range stop).1 = before.length + 1 := by
    simp only [Entry.range]
    omega
  have hclosing : text.toList = (before ++ ['\x7b']) ++ (used ++ '\x7d' :: (e.after ++ rest)) := by
    rw [htext, hcontent]
    simp
  constructor
  . rw [hstart, htext]
    simp
  . rw [hstart, hinner]
  . rw [← String.toList_inj, Entry.source, hsource, String.toList_ofList]
    apply Text.toList_slice hclosing
    . rw [hinner]
      simp
    . omega
  . rw [hend, htext, hcontent, List.getElem?_append_right (by omega)]
    simp
  . simp only [Entry.group, Entry.range]
    omega
  . rw [hstart, skipGroup_of_slot htext (slotRest_append h rest)]
    have htotal := congrArg List.length htext
    rw [List.length_append, List.length_cons, List.length_append] at htotal
    rw [List.length_append]
    simp only [Entry.group]
    congr 1
    omega

theorem spreadExpected_of_read {e : Entry}
    (hsnippet : snippet.toList = before ++ '\x7b' :: e.content)
    (hwritten : e.IsWritten) (he : ¬ e.IsAllowed)
    (hread : read (placeIn snippet.toList file origin) snippet.toList
      = refusal (e.content.length + 1)) : SpreadExpected snippet file origin e := by
  obtain ⟨hrole, hdots⟩ := Classical.not_imp.mp he
  have hlength : snippet.length = before.length + (e.content.length + 1) := by
    rw [← String.length_toList, hsnippet, List.length_append, List.length_cons]
  have hopen : snippet.toList = before ++ '\x7b' :: (e.content ++ []) := by
    rw [List.append_nil, hsnippet]
  exact ⟨hrole, Bool.eq_false_iff.mpr hdots, hwritten.standsIn hopen hlength,
    parse_of_refusal hread⟩

theorem parse_of_slotsOf (h : SlotsOf snippet entries) :
    (∃ tree, Node.parse snippet file origin = .ok tree) ∧ (∀ e ∈ entries, e.IsAllowed) ∨
      ∃ e ∈ entries, SpreadExpected snippet file origin e := by
  obtain ⟨used, hsnippet, hentries⟩ := h
  obtain ⟨n, left, hpasses⟩ := hentries.passes
  have hparse := @read_of_node (placeIn snippet.toList file origin) used
    (markupRest_head?_ne hpasses)
  rw [← hsnippet] at hparse
  cases (follows _).node hentries (Nat.lt_succ_self used.length) with
  | ok hnode hrest hallowed =>
    left
    rw [hnode, ok_bind, hrest] at hparse
    exact ⟨⟨_, parse_ok.mpr hparse⟩, hallowed⟩
  | @refusal e hmem he hnode =>
    right
    rw [hnode] at hparse
    obtain ⟨before, hbefore⟩ := hentries.inOrder.start e hmem
    have hopen : snippet.toList = ('<' :: before) ++ '\x7b' :: e.content := by
      rw [hsnippet, ← hbefore, List.cons_append]
    exact ⟨e, hmem, spreadExpected_of_read hopen (hentries.inOrder.written e hmem) he hparse⟩

theorem drop_skipBlank {text : String} (h : Text.dropBlank text.toList = c :: rest) :
    text.toList.drop (Token.skipBlank text 0 + 1) = rest := by
  have hdrop : text.toList.drop (text.toList.takeWhile Text.isBlank).length = c :: rest := by
    rw [← h, Text.dropBlank]
    have hleft : (text.toList.takeWhile Text.isBlank ++ text.toList.dropWhile Text.isBlank).drop
        (text.toList.takeWhile Text.isBlank).length = text.toList.dropWhile Text.isBlank :=
        List.drop_left
    rwa [List.takeWhile_append_dropWhile] at hleft
  rw [Token.skipBlank, List.drop_zero, Nat.zero_add, ← List.drop_drop, hdrop]
  rfl

theorem skipMarkup_of_parse {tree : Node} (h : Node.parse snippet file origin = .ok tree) :
    ∃ stop, Token.skipMarkup snippet (Token.skipBlank snippet 0) = .ok stop ∧
      (snippet.toList.drop stop).all Text.isBlank = true := by
  obtain ⟨content, rest, hcs, hnode, hblank⟩ := node_of_parse h
  obtain ⟨n, left, slots, hread⟩ := markupRest_of_node hnode
  obtain ⟨used, _, hinner, _⟩ := (Token.Closed.of_fuel n).markup hread
  have hread := markupRest_fuel (m := content.length + 1) hread (by omega) (content.length + 1)
  have hdrop := drop_skipBlank hcs
  refine ⟨Token.offsetOf snippet rest, ?_, ?_⟩
  . simp [Token.skipMarkup, Token.readMarkup, hdrop, hread]
  . have hsuffix : rest <:+ snippet.toList := by
      rw [← hdrop] at hinner
      exact (hinner ▸ List.suffix_append used rest).trans (List.drop_suffix _ _)
    rw [List.suffix_iff_eq_drop, String.length_toList] at hsuffix
    rw [Token.offsetOf, ← hsuffix]
    exact hblank

/-- Markup that is passed over is a tree if all its slots between attributes are spreads, and else
it is refused at one of them; a tree is passed over up to white space. -/
theorem parse_iff_skipMarkup (file : String) (origin : Origin) :
    (∀ text pos stop, text.toList[pos]? = some '<' → Token.skipMarkup text pos = .ok stop →
      ∃ entries, SlotsOf (Text.slice text pos stop) entries ∧
        ((∃ tree, Node.parse (Text.slice text pos stop) file origin = .ok tree) ∧
            (∀ e ∈ entries, e.IsAllowed) ∨
          ∃ e ∈ entries, SpreadExpected (Text.slice text pos stop) file origin e)) ∧
    (∀ snippet tree, Node.parse snippet file origin = .ok tree →
      ∃ stop, Token.skipMarkup snippet (Token.skipBlank snippet 0) = .ok stop ∧
        (snippet.toList.drop stop).all Text.isBlank = true) := by
  constructor
  . intro text pos stop hopen h
    obtain ⟨entries, hentries⟩ := slotsOf_skipMarkup hopen h
    exact ⟨entries, hentries, parse_of_slotsOf hentries⟩
  . intro snippet tree h
    exact skipMarkup_of_parse h

/-- A slot that is no spread is accepted as a child and refused between attributes. -/
theorem parse_iff_skipMarkup_assigned :
    (∃ entries, SlotsOf (Text.slice "x = <a \x7b...p\x7d b='1'>\x7by\x7d<>t</></a>;" 4 33) entries ∧
      (∃ tree, Node.parse (Text.slice "x = <a \x7b...p\x7d b='1'>\x7by\x7d<>t</></a>;" 4 33) "A.tsx"
        ⟨1, 1, 0⟩ = .ok tree) ∧ ∀ e ∈ entries, e.IsAllowed) ∧
    (∃ entries, SlotsOf (Text.slice "x = <a \x7by\x7d/>;" 4 12) entries ∧
      ∃ e ∈ entries, SpreadExpected (Text.slice "x = <a \x7by\x7d/>;" 4 12) "A.tsx" ⟨1, 1, 0⟩ e) ∧
    ∃ stop, Token.skipMarkup " <b/>\n" (Token.skipBlank " <b/>\n" 0) = .ok stop ∧
      (" <b/>\n".toList.drop stop).all Text.isBlank = true := by
  obtain ⟨hskipped, hparsed⟩ := parse_iff_skipMarkup "A.tsx" ⟨1, 1, 0⟩
  refine ⟨?_, ?_, ?_⟩
  . have hskip : Token.skipMarkup "x = <a \x7b...p\x7d b='1'>\x7by\x7d<>t</></a>;" 4 = .ok 33 := by
      decide +kernel
    have hparse : (Node.parse (Text.slice "x = <a \x7b...p\x7d b='1'>\x7by\x7d<>t</></a>;" 4 33)
        "A.tsx" ⟨1, 1, 0⟩).isOk = true := by
      decide +kernel
    obtain ⟨entries, hentries, htree | ⟨e, _, hrefused⟩⟩ :=
      hskipped _ 4 33 (by decide +kernel) hskip
    . exact ⟨entries, hentries, htree⟩
    . rw [hrefused.parse] at hparse
      cases hparse
  . have hskip : Token.skipMarkup "x = <a \x7by\x7d/>;" 4 = .ok 12 := by
      decide +kernel
    have hparse : (Node.parse (Text.slice "x = <a \x7by\x7d/>;" 4 12) "A.tsx" ⟨1, 1, 0⟩).isOk
        = false := by
      decide +kernel
    obtain ⟨entries, hentries, ⟨⟨tree, htree⟩, _⟩ | hrefused⟩ :=
      hskipped _ 4 12 (by decide +kernel) hskip
    . rw [htree] at hparse
      cases hparse
    . exact ⟨entries, hentries, hrefused⟩
  . have hparse : (Node.parse " <b/>\n" "A.tsx" ⟨1, 1, 0⟩).isOk = true := by
      decide +kernel
    cases h : Node.parse " <b/>\n" "A.tsx" ⟨1, 1, 0⟩ with
    | error failure =>
      rw [h] at hparse
      cases hparse
    | ok tree => exact hparsed _ tree h

end Markup
end ComponentCompiler
