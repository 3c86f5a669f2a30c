import ComponentCompiler.Markup.Listing
import ComponentCompiler.Proofs.Markup.Location

/-!
This module contains how the flat view of markup and the tree agree. What is read as a tree is
listed up to its end. The pieces spell the tree, and every part of it has the range from its first
piece to its last.
-/

namespace ComponentCompiler
namespace Markup

/-- The pieces that an attribute is written as. -/
inductive Attribute.Spells (place : Nat → Nat → Span) : Attribute → List Piece → Prop where
  | spread : Spells place (.spread (place start stop) value) [⟨.spread, value, start, stop⟩]
  | boolean : Spells place (.boolean (place start stop) name) [⟨.attr, name, start, stop⟩]
  | string : Spells place (.string (place start stop) name value)
      [⟨.attr, name, start, after⟩, ⟨.eq, "=", equal, equal'⟩, ⟨.string, value, begin, stop⟩]
  | expression : Spells place (.expression (place start stop) name value)
      [⟨.attr, name, start, after⟩, ⟨.eq, "=", equal, equal'⟩, ⟨.expr, value, begin, stop⟩]

mutual

/-- The pieces that a tree is written as. -/
inductive Node.Spells (place : Nat → Nat → Span) : Node → List Piece → Prop where
  | slot : Spells place (.slot (place start stop) source) [⟨.expr, source, start, stop⟩]
  | text : Spells place (.text (place start stop) (normalizeText raw)) [⟨.text, raw, start, stop⟩]
  | fragment {children : List Node} {pieces : List Piece}
      (hchildren : Node.SpellsAll place children pieces) :
    Spells place (.fragment (place start stop) children)
      (⟨.fragOpen, "<>", start, after⟩ :: (pieces ++ [⟨.fragClose, "</>", before, stop⟩]))
  | single {attributes : List Attribute} {groups : List (List Piece)}
      (hattributes : List.Forall₂ (Attribute.Spells place) attributes groups) :
    Spells place (.element (place start stop) tag attributes [])
      (⟨.lt, "<", start, name⟩ :: ⟨.tag, tag, name, after⟩ ::
        (groups.flatten ++ [⟨.slashGt, "/>", before, stop⟩]))
  | element {attributes : List Attribute} {groups : List (List Piece)} {children : List Node}
      {pieces : List Piece}
      (hattributes : List.Forall₂ (Attribute.Spells place) attributes groups)
      (hchildren : Node.SpellsAll place children pieces) :
    Spells place (.element (place start stop) tag attributes children)
      (⟨.lt, "<", start, name⟩ :: ⟨.tag, tag, name, after⟩ ::
        (groups.flatten ++ ⟨.gt, ">", before, content⟩ ::
        (pieces ++ [⟨.ltSlash, "</", closing, closing'⟩, ⟨.tag, tag, last, last'⟩,
          ⟨.gt, ">", before', stop⟩])))

/-- The pieces that nodes are written as, one after the other, with the texts of which nothing is
left between them. -/
inductive Node.SpellsAll (place : Nat → Nat → Span) : List Node → List Piece → Prop where
  | nil : SpellsAll place [] []
  | cons {node : Node} {nodes : List Node} {first more : List Piece}
      (hnode : Node.Spells place node first)
      (hnodes : SpellsAll place nodes more) : SpellsAll place (node :: nodes) (first ++ more)
  | blank {nodes : List Node} {pieces : List Piece} (hraw : normalizeText raw = "")
      (hnodes : SpellsAll place nodes pieces) :
    SpellsAll place nodes (⟨.text, raw, start, stop⟩ :: pieces)

end

variable {place : Nat → Nat → Span} {cs rest : List Char} {tags : List (List Char)}

theorem piece_append (kind : Piece.Kind) (used rest : List Char) :
    piece kind (used ++ rest) rest =
      ⟨kind, String.ofList used, (used ++ rest).length, rest.length⟩ := by
  rw [piece, Token.taken_append]

theorem listed_listed (first more : List Piece) (next : Listed) :
    listed first (listed more next) = listed (first ++ more) next := by
  simp [listed]

/-! ### Tags -/

theorem listFrom_value (hname : Token.attributeName? (Text.dropBlank cs) = some (name, after))
    (hequal : Text.dropBlank after = '=' :: value)
    (hvalue : attributeValue (String.ofList name) value = .ok (text, isExpression, stop, rest))
    (n : Nat) (tags : List (List Char)) :
    listFrom (n + 1) .attributes tags cs
      =
    listed
      [⟨.attr, String.ofList name, (Text.dropBlank cs).length, after.length⟩,
        ⟨.eq, "=", value.length + 1, value.length⟩,
        if isExpression then ⟨.expr, text, (Text.dropBlank value).length - 1, stop⟩
        else ⟨.string, text, (Text.dropBlank value).length, stop⟩]
      (listFrom n .attributes tags rest) := by
  obtain ⟨c, more, hcs, hslash, hstop, hslot⟩ := Token.attributeName?_head_ne hname
  obtain ⟨happend, _⟩ := Token.attributeName?_append hname
  obtain ⟨d, ds, rfl⟩ := List.exists_cons_of_ne_nil (ne_nil_of_dropBlank hcs)
  have hpiece := piece_append .attr name after
  have hequals : piece .eq ('=' :: value) value = ⟨.eq, "=", value.length + 1, value.length⟩ :=
    piece_append .eq ['='] value
  rw [← happend, hcs] at hpiece
  rw [hcs] at hname
  cases isExpression <;>
    simp [listFrom, hcs, hslash, hname, hequal, hvalue, hpiece, hequals, proceed, listed]

theorem AttributeRead.listed (h : AttributeRead place (Text.dropBlank cs) attr rest) (n : Nat)
    (tags : List (List Char)) : ∃ pieces, attr.Spells place pieces ∧
      listFrom (n + 1) .attributes tags cs = listed pieces (listFrom n .attributes tags rest) := by
  obtain ⟨c, more, hcs, _⟩ := h.exists_suffix
  obtain ⟨d, ds, rfl⟩ := List.exists_cons_of_ne_nil (ne_nil_of_dropBlank hcs)
  cases h with
  | @spread content source _ hcs hslot hdots =>
    refine ⟨_, .spread, ?_⟩
    simp [listFrom, hcs, hslot, proceed, hdots]
  | @expression name after value content _ hname hequal hopen hslot =>
    have hvalue : attributeValue (String.ofList name) value
        = .ok (slotText content rest, true, rest.length + 1, rest) := by
      simp [attributeValue, hopen, hslot]
    exact ⟨_, .expression, listFrom_value hname hequal hvalue n tags⟩
  | @string name after value quote content _ hname hequal hopen hquote hread =>
    have hvalue : attributeValue (String.ofList name) value
        = .ok (Token.taken content (quote :: rest), false, rest.length, rest) := by
      rcases hquote with rfl | rfl <;> simp [attributeValue, hopen, hread]
    exact ⟨_, .string, listFrom_value hname hequal hvalue n tags⟩
  | @boolean name after _ hname hrest hequal =>
    obtain ⟨c, more, hcs, hslash, hstop, hslot⟩ := Token.attributeName?_head_ne hname
    obtain ⟨happend, _⟩ := Token.attributeName?_append hname
    have hpiece := piece_append .attr name after
    rw [← happend] at hpiece
    refine ⟨_, .boolean, ?_⟩
    rw [hcs] at hname hpiece ⊢
    have hother : ∀ value, rest ≠ '=' :: value := by
      rintro value rfl
      exact hequal rfl
    simp [listFrom, hcs, hslash, hname, hrest, hpiece]

/-- The end of an opening tag. -/
def tagEnd (closed : Bool) (rest : List Char) : Piece :=
  if closed then ⟨.slashGt, "/>", rest.length + 2, rest.length⟩
    else ⟨.gt, ">", rest.length + 1, rest.length⟩

/-- The listing after the end of an opening tag. -/
def afterTag (closed : Bool) (n : Nat) (tags : List (List Char)) (rest : List Char) : Listed :=
  if closed then resume (listFrom n .children) tags.tail rest else listFrom n .children tags rest

theorem listFrom_tagEnd
    (hcs : Text.dropBlank cs = (if closed then '/' :: '>' :: rest else '>' :: rest)) (n : Nat)
    (tags : List (List Char)) :
    listFrom (n + 1) .attributes tags cs =
      listed [tagEnd closed rest] (afterTag closed n tags rest) := by
  have hsingle : piece .slashGt ('/' :: '>' :: rest) rest =
      ⟨.slashGt, "/>", rest.length + 2, rest.length⟩ :=
    piece_append .slashGt ['/', '>'] rest
  have hopen : piece .gt ('>' :: rest) rest = ⟨.gt, ">", rest.length + 1, rest.length⟩ :=
    piece_append .gt ['>'] rest
  cases closed with
  | true =>
    obtain ⟨d, ds, rfl⟩ := List.exists_cons_of_ne_nil (ne_nil_of_dropBlank hcs)
    simp [listFrom, hcs, hsingle, tagEnd, afterTag]
  | false =>
    obtain ⟨d, ds, rfl⟩ := List.exists_cons_of_ne_nil (ne_nil_of_dropBlank hcs)
    simp [listFrom, hcs, hopen, tagEnd, afterTag]

theorem AttributesRead.listed {attrs : List Attribute}
    (h : AttributesRead place cs attrs closed rest) (hn : cs.length < n) (tags : List (List Char)) :
    ∃ groups m, List.Forall₂ (Attribute.Spells place) attrs groups ∧ rest.length < m ∧
      listFrom n .attributes tags cs =
        listed (groups.flatten ++ [tagEnd closed rest]) (afterTag closed m tags rest) := by
  induction h generalizing n with
  | @single cs rest hcs =>
    obtain ⟨n, rfl⟩ := Nat.exists_eq_succ_of_ne_zero (Nat.ne_zero_of_lt hn)
    have hrest := (Token.suffix_of_dropBlank hcs).length_le
    rw [List.length_cons] at hrest
    exact ⟨[], n, .nil, by omega, listFrom_tagEnd hcs n tags⟩
  | @content cs rest hcs =>
    obtain ⟨n, rfl⟩ := Nat.exists_eq_succ_of_ne_zero (Nat.ne_zero_of_lt hn)
    have hblank := (Token.dropBlank_suffix cs).length_le
    rw [hcs, List.length_cons] at hblank
    exact ⟨[], n, .nil, by omega, listFrom_tagEnd hcs n tags⟩
  | @attr _ mid _ _ cs _ hattr _ ih =>
    obtain ⟨n, rfl⟩ := Nat.exists_eq_succ_of_ne_zero (Nat.ne_zero_of_lt hn)
    have hblank := (Token.dropBlank_suffix cs).length_le
    obtain ⟨c, inside, hcs, hsuffix⟩ := hattr.exists_suffix
    have hmid := hsuffix.length_le
    rw [hcs, List.length_cons] at hblank
    obtain ⟨pieces, hspells, hlist⟩ := hattr.listed n tags
    obtain ⟨groups, m, hgroups, hm, hrest⟩ := ih (n := n) (by omega)
    refine ⟨pieces :: groups, m, .cons hspells hgroups, hm, ?_⟩
    rw [hlist, hrest, listed_listed, List.flatten_cons, List.append_assoc]

/-! ### Trees -/

def Enclosing.name : Enclosing → List Char
  | .element tag => tag
  | .fragment _ => []

/-- The pieces of the closing tag that stops where so many characters are left. -/
inductive Enclosing.Ends (stop : Nat) : Enclosing → List Piece → Prop where
  | fragment : Ends stop (.fragment hasContent) [⟨.fragClose, "</>", before, stop⟩]
  | element : Ends stop (.element tag)
      [⟨.ltSlash, "</", closing, closing'⟩, ⟨.tag, String.ofList tag, last, last'⟩,
        ⟨.gt, ">", before, stop⟩]

theorem name_withContent (enclosing : Enclosing) : enclosing.withContent.name = enclosing.name := by
  cases enclosing with
  | element tag => rfl
  | fragment hasContent => rfl

theorem ends_of_withContent {enclosing : Enclosing} (h : enclosing.withContent.Ends stop pieces) :
    enclosing.Ends stop pieces := by
  cases enclosing with
  | element tag => exact h
  | fragment hasContent =>
    cases h
    exact .fragment

theorem listFrom_fragClose (n : Nat) (tags : List (List Char)) (rest : List Char) :
    listFrom (n + 1) .children ([] :: tags) ('<' :: '/' :: '>' :: rest)
      =
    listed [⟨.fragClose, "</>", rest.length + 3, rest.length⟩]
      (resume (listFrom n .children) tags rest) := by
  have hclose : piece .fragClose ('<' :: '/' :: '>' :: rest) rest =
      ⟨.fragClose, "</>", rest.length + 3, rest.length⟩ :=
    piece_append .fragClose ['<', '/', '>'] rest
  simp [listFrom, hclose]

theorem listFrom_closingTag (hname : Token.tagName? (Text.dropBlank cs) = some (tag, after))
    (hafter : Text.dropBlank after = '>' :: rest) (n : Nat) (tags : List (List Char)) :
    listFrom (n + 2) .children (tag :: tags) ('<' :: '/' :: cs)
      =
    listed
      [⟨.ltSlash, "</", cs.length + 2, cs.length⟩,
        ⟨.tag, String.ofList tag, (Text.dropBlank cs).length, after.length⟩,
        ⟨.gt, ">", rest.length + 1, rest.length⟩]
      (resume (listFrom n .children) tags rest) := by
  obtain ⟨c, more, hcs, hletter, _⟩ := Token.tagName?_eq_some hname
  have hother : ∀ more, cs ≠ '>' :: more := by
    rintro more rfl
    cases hcs
    simp [Text.isAsciiLetter] at hletter
  have hopen : piece .ltSlash ('<' :: '/' :: cs) cs = ⟨.ltSlash, "</", cs.length + 2, cs.length⟩ :=
    piece_append .ltSlash ['<', '/'] cs
  have htag := piece_append .tag tag after
  have hstop : piece .gt ('>' :: rest) rest = ⟨.gt, ">", rest.length + 1, rest.length⟩ :=
    piece_append .gt ['>'] rest
  rw [← (Token.tagName?_append hname).1, hcs] at htag
  rw [hcs] at hname
  simp [listFrom, hcs, hname, hafter, hopen, htag, hstop, listed]

/-- From `cs` on, inside the elements `opened`, these pieces are listed, and then what comes after
them inside `tags`, with a bound that is enough for it. -/
def Lists (n : Nat) (opened : List (List Char)) (cs : List Char) (pieces : List Piece)
    (tags : List (List Char)) (rest : List Char) : Prop :=
  ∃ m, rest.length < m ∧
    listFrom n .children opened cs = listed pieces (resume (listFrom m .children) tags rest)

theorem Lists.of_listed {first more : List Piece} (h : Lists m opened after more tags rest)
    (hfirst : listFrom n .children outer cs = listed first (listFrom m .children opened after)) :
    Lists n outer cs (first ++ more) tags rest := by
  obtain ⟨m', hm, hlist⟩ := h
  refine ⟨m', hm, ?_⟩
  rw [hfirst, hlist, listed_listed]

theorem lists_of_closes {enclosing : Enclosing} (h : Closes enclosing ('<' :: '/' :: cs) rest)
    (hn : cs.length + 2 < n) (tags : List (List Char)) :
    ∃ pieces, enclosing.Ends rest.length pieces ∧
      Lists n (enclosing.name :: tags) ('<' :: '/' :: cs) pieces tags rest := by
  obtain ⟨n, rfl⟩ : ∃ k, n = k + 2 := ⟨n - 2, by omega⟩
  cases enclosing with
  | fragment hasContent =>
    cases h
    rw [List.length_cons] at hn
    exact ⟨_, .fragment, n + 1, by omega, listFrom_fragClose (n + 1) tags rest⟩
  | element tag =>
    obtain ⟨after, hname, hafter⟩ := Token.closingTag_ok.mp h
    rw [List.drop_succ_cons, List.drop_succ_cons, List.drop_zero] at hname
    refine ⟨_, .element, n, ?_, listFrom_closingTag hname hafter n tags⟩
    have hlength := (Token.dropBlank_suffix cs).length_le
    have hrest := (Token.suffix_of_dropBlank hafter).length_le
    rw [(Token.tagName?_append hname).1, List.length_append] at hlength
    omega

/-- What is read with so many steps is listed, whatever encloses it. -/
structure ReadsListed (k : Nat) : Prop where
  node : ∀ {place cs tree rest n}, Markup.node place k cs = .ok (tree, rest) →
    cs.length + 1 < n → ∀ tags,
    ∃ pieces, tree.Spells place pieces ∧ Lists n tags ('<' :: cs) pieces tags rest
  children : ∀ {place enclosing cs nodes rest n},
    Markup.children place k enclosing cs = .ok (nodes, rest) → cs.length < n → ∀ tags,
    ∃ pieces last, Node.SpellsAll place nodes pieces ∧ enclosing.Ends rest.length last ∧
      Lists n (enclosing.name :: tags) cs (pieces ++ last) tags rest

theorem listFrom_slot (h : slotRest content = .ok after) (n : Nat) (tag : List Char)
    (tags : List (List Char)) :
    listFrom (n + 1) .children (tag :: tags) ('\x7b' :: content)
      =
    listed
      (if slotHasTokens content after then
        [⟨.expr, slotText content after, content.length, after.length + 1⟩] else [])
      (listFrom n .children (tag :: tags) after) := by
  simp [listFrom, h, proceed]

theorem listFrom_text (hc : isText c = true) (n : Nat) (tag : List Char) (tags : List (List Char))
    (cs : List Char) :
    listFrom (n + 1) .children (tag :: tags) (c :: cs)
      =
    listed
      [⟨.text, String.ofList ((c :: cs).takeWhile isText), (c :: cs).length,
        ((c :: cs).dropWhile isText).length⟩]
      (listFrom n .children (tag :: tags) (cs.dropWhile isText)) := by
  have hother : c ≠ '<' ∧ c ≠ '\x7b' := by simpa [isText] using hc
  have hdrop : (c :: cs).dropWhile isText = cs.dropWhile isText := List.dropWhile_cons_of_pos hc
  have htext := piece_append .text ((c :: cs).takeWhile isText) ((c :: cs).dropWhile isText)
  rw [List.takeWhile_append_dropWhile] at htext
  rw [← htext]
  simp [listFrom, hother, hdrop]

theorem spellsAll_textNodes (hnodes : Node.SpellsAll place nodes pieces) :
    Node.SpellsAll place (textNodes place cs ++ nodes)
      (⟨.text, String.ofList (cs.takeWhile isText), cs.length, (cs.dropWhile isText).length⟩ ::
        pieces) := by
  unfold textNodes
  dsimp only
  split
  . next hempty => exact .blank hempty hnodes
  . exact .cons .text hnodes

theorem ReadsListed.children_succ (ih : ReadsListed k) {nodes : List Node} {enclosing : Enclosing}
    (h : Markup.children place (k + 1) enclosing cs = .ok (nodes, rest)) (hn : cs.length < n)
    (tags : List (List Char)) :
    ∃ pieces last, Node.SpellsAll place nodes pieces ∧ enclosing.Ends rest.length last ∧
      Lists n (enclosing.name :: tags) cs (pieces ++ last) tags rest := by
  -- what comes after a first part is read with the same tag to close
  have hmore {first : List Piece} {after : List Char} {nodes : List Node} {m : Nat}
      (hread : Markup.children place k enclosing.withContent after = .ok (nodes, rest))
      (hm : after.length < m)
      (hfirst : listFrom n .children (enclosing.name :: tags) cs =
        listed first (listFrom m .children (enclosing.name :: tags) after)) :
      ∃ pieces last, Node.SpellsAll place nodes pieces ∧ enclosing.Ends rest.length last ∧
        Lists n (enclosing.name :: tags) cs (first ++ pieces ++ last) tags rest := by
    obtain ⟨pieces, last, hpieces, hlast, hlists⟩ := ih.children hread hm tags
    rw [name_withContent] at hlists
    refine ⟨pieces, last, hpieces, ends_of_withContent hlast, ?_⟩
    rw [List.append_assoc]
    exact hlists.of_listed hfirst
  cases childrenRead_of_ok h with
  | closing hclose =>
    obtain ⟨pieces, hends, hlists⟩ := lists_of_closes hclose hn tags
    exact ⟨[], pieces, .nil, hends, hlists⟩
  | node hslash hnode hread =>
    obtain ⟨first, hfirst, m, hm, hlist⟩ := ih.node hnode hn (enclosing.name :: tags)
    obtain ⟨pieces, last, hpieces, hends, hlists⟩ := hmore hread hm hlist
    exact ⟨_, last, .cons hfirst hpieces, hends, hlists⟩
  | @slot content after nodes _ hslot htokens hread =>
    obtain ⟨n, rfl⟩ := Nat.exists_eq_succ_of_ne_zero (Nat.ne_zero_of_lt hn)
    obtain ⟨used, rfl, _⟩ := eq_append_of_slotRest hslot
    simp only [List.length_cons, List.length_append] at hn
    have hlist := listFrom_slot hslot n enclosing.name tags
    rw [if_pos htokens] at hlist
    obtain ⟨pieces, last, hpieces, hends, hlists⟩ := hmore hread (by omega) hlist
    exact ⟨_, last, .cons .slot hpieces, hends, hlists⟩
  | @gap content after _ _ hslot htokens hread =>
    obtain ⟨n, rfl⟩ := Nat.exists_eq_succ_of_ne_zero (Nat.ne_zero_of_lt hn)
    obtain ⟨used, rfl, _⟩ := eq_append_of_slotRest hslot
    simp only [List.length_cons, List.length_append] at hn
    have hlist := listFrom_slot hslot n enclosing.name tags
    rw [if_neg (by simp [htokens])] at hlist
    obtain ⟨pieces, last, hpieces, hends, hlists⟩ := ih.children (n := n) hread (by omega) tags
    exact ⟨pieces, last, hpieces, hends, hlists.of_listed hlist⟩
  | @text c nodes cs _ hc hread =>
    obtain ⟨n, rfl⟩ := Nat.exists_eq_succ_of_ne_zero (Nat.ne_zero_of_lt hn)
    have hdrop := (List.dropWhile_suffix (l := cs) isText).length_le
    rw [List.length_cons] at hn
    have hlist := listFrom_text hc n enclosing.name tags cs
    obtain ⟨pieces, last, hpieces, hends, hlists⟩ := hmore hread (by omega) hlist
    exact ⟨_, last, spellsAll_textNodes hpieces, hends, hlists⟩

theorem length_lt_of_tagName? (h : Token.tagName? cs = some (tag, after)) :
    after.length < cs.length := by
  obtain ⟨rfl, hne, _⟩ := Token.tagName?_append h
  have := List.length_pos_iff.mpr hne
  rw [List.length_append]
  omega

theorem listFrom_tag (hname : Token.tagName? cs = some (tag, after)) (n : Nat)
    (tags : List (List Char)) :
    listFrom (n + 2) .children tags ('<' :: cs)
      =
    listed [⟨.lt, "<", cs.length + 1, cs.length⟩,
      ⟨.tag, String.ofList tag, cs.length, after.length⟩]
      (listFrom n .attributes (tag :: tags) after) := by
  obtain ⟨c, more, rfl, hletter, _⟩ := Token.tagName?_eq_some hname
  have hother : c ≠ '/' ∧ c ≠ '>' := by
    constructor <;> rintro rfl <;> simp [Text.isAsciiLetter] at hletter
  have hopen : piece .lt ('<' :: c :: more) (c :: more) =
      ⟨.lt, "<", (c :: more).length + 1, (c :: more).length⟩ :=
    piece_append .lt ['<'] (c :: more)
  have htag := piece_append .tag tag after
  rw [← (Token.tagName?_append hname).1] at htag
  simp [listFrom, hother, hname, hopen, htag, listed]

theorem listFrom_fragOpen (n : Nat) (tags : List (List Char)) (content : List Char) :
    listFrom (n + 1) .children tags ('<' :: '>' :: content)
      =
    listed [⟨.fragOpen, "<>", content.length + 2, content.length⟩]
      (listFrom n .children ([] :: tags) content) := by
  have hopen : piece .fragOpen ('<' :: '>' :: content) content =
      ⟨.fragOpen, "<>", content.length + 2, content.length⟩ :=
    piece_append .fragOpen ['<', '>'] content
  simp [listFrom, hopen]

theorem ReadsListed.node_succ (ih : ReadsListed k) {tree : Node}
    (h : Markup.node place (k + 1) cs = .ok (tree, rest)) (hn : cs.length + 1 < n)
    (tags : List (List Char)) :
    ∃ pieces, tree.Spells place pieces ∧ Lists n tags ('<' :: cs) pieces tags rest := by
  obtain ⟨n, rfl⟩ : ∃ k, n = k + 2 := ⟨n - 2, by omega⟩
  cases nodeRead_of_ok h with
  | @fragment content nodes _ hcs hread =>
    subst hcs
    rw [List.length_cons] at hn
    obtain ⟨pieces, last, hpieces, hends, hlists⟩ :=
      ih.children (n := n + 1) hread (by omega) tags
    cases hends
    exact ⟨_, .fragment hpieces, hlists.of_listed (listFrom_fragOpen (n + 1) tags content)⟩
  | @single tag after _ _ hname hattrs =>
    have hafter := length_lt_of_tagName? hname
    obtain ⟨groups, m, hgroups, hm, hlist⟩ := hattrs.listed (n := n) (by omega) (tag :: tags)
    have hopen := listFrom_tag hname n tags
    rw [hlist, listed_listed] at hopen
    exact ⟨_, .single hgroups, m, hm, hopen⟩
  | @element tag after _ content _ _ hname hattrs hread =>
    have hafter := length_lt_of_tagName? hname
    obtain ⟨groups, m, hgroups, hm, hlist⟩ := hattrs.listed (n := n) (by omega) (tag :: tags)
    obtain ⟨pieces, last, hpieces, hends, hlists⟩ := ih.children hread hm tags
    have hopen := listFrom_tag hname n tags
    rw [hlist, listed_listed, afterTag, if_neg Bool.false_ne_true] at hopen
    have hlists := hlists.of_listed hopen
    rw [List.append_assoc, List.append_assoc] at hlists
    cases hends
    exact ⟨_, .element hgroups hpieces, hlists⟩

theorem readsListed (k : Nat) : ReadsListed k := by
  induction k with
  | zero => exact ⟨fun h => absurd h node_zero_ne, fun h => absurd h children_zero_ne⟩
  | succ k ih => exact ⟨ih.node_succ, ih.children_succ⟩

/-- What is read as a tree is listed up to its end, and the pieces spell the tree. -/
theorem list_of_parse {tree : Node} (h : Node.parse snippet file origin = .ok tree) :
    ∃ pieces, list snippet = (pieces, none) ∧
      tree.Spells (placeIn snippet.toList file origin) pieces := by
  obtain ⟨content, rest, hcs, hnode, hblank⟩ := node_of_parse h
  obtain ⟨pieces, hpieces, m, _, hlist⟩ :=
    (readsListed _).node (n := content.length + 2) hnode (Nat.lt_succ_self _) []
  refine ⟨pieces, ?_, hpieces⟩
  rw [list, hcs, List.length_cons, hlist, resume, if_pos hblank, listed, List.append_nil]

end Markup
end ComponentCompiler
