import ComponentCompiler.Proofs.Markup.Slots
import ComponentCompiler.Proofs.Token.Shift

/-!
This module contains the expressions of a markup tree, in the order in which they are written. What
is read as a tree is derived by the grammar of slots, and its expressions are what those slots stand
for, except the children without a token.
-/

namespace ComponentCompiler
namespace Markup

/-- A piece of code in markup, with what it stands for and its place. -/
structure Site where
  role : Role
  span : Span
  source : String

def Site.expression (site : Site) : Role × String :=
  (site.role, site.source)

def Attribute.sites : Attribute → List Site
  | .expression span _ value => [⟨.value, span, value⟩]
  | .spread span value => [⟨.spread, span, value⟩]
  | .string _ _ _ | .boolean _ _ => []

mutual

/-- The slots, the attributes with an expression and the spreads of a tree, in the order of the
text. -/
def Node.sites : Node → List Site
  | .slot span source => [⟨.child, span, source⟩]
  | .text _ _ => []
  | .fragment _ children => Node.sitesAll children
  | .element _ _ attributes children => attributes.flatMap Attribute.sites ++ Node.sitesAll children

def Node.sitesAll : List Node → List Site
  | [] => []
  | node :: nodes => Node.sites node ++ Node.sitesAll nodes

end

/-- The code of a tree without its places. -/
def Node.expressions (tree : Node) : List (Role × String) :=
  tree.sites.map Site.expression

namespace Entry

/-- What a slot stands for: its text, which for a spread is what follows the dots. -/
def expression (e : Entry) : Role × String :=
  (e.role, match e.role with
    | .spread => Text.trim (String.ofList ((Text.trim e.source).toList.drop 3))
    | .value | .child => e.source)

/-- A child without a token, such as a comment. -/
def IsVacant (e : Entry) : Prop :=
  e.role = .child ∧ Token.scan e.source = .ok []

instance (e : Entry) : Decidable e.IsVacant :=
  inferInstanceAs (Decidable (_ ∧ _))

end Entry

def expressionsOf (entries : List Entry) : List (Role × String) :=
  (entries.filter fun e => ¬ e.IsVacant).map Entry.expression

inductive Remainder (name : List Char) : Bool → List Char → List Entry → List Char → Prop where
  | single : Remainder name true rest [] rest
  | content (hchildren : Derives .children content entries ('<' :: '/' :: mid))
      (hclose : Token.closingTag name ('<' :: '/' :: mid) = .ok rest) :
    Remainder name false content entries rest

variable {place : Nat → Nat → Span} {cs rest content after : List Char}
    {entries first more : List Entry}

theorem expressionsOf_append :
    expressionsOf (first ++ more) = expressionsOf first ++ expressionsOf more := by
  simp [expressionsOf]

theorem expressionsOf_singleton {e : Entry} (h : ¬ e.IsVacant) : expressionsOf [e] =
    [e.expression] := by
  simp [expressionsOf, h]

theorem scan_slotText (h : slotRest content = .ok after) :
    Token.scan (slotText content after) = .ok [] ↔ slotHasTokens content after = false := by
  obtain ⟨ws, gap, hcs, hrun, _, hgap⟩ := Token.words_of_groupRest (slotRest_ok.mp h)
  have hclosing : Bracket.curly.closing = '\x7d' := rfl
  rw [hclosing] at hcs hrun hgap
  have htext : (slotText content after).toList = Token.charsOf ws ++ gap := by
    rw [hcs, ← List.append_assoc, slotText]
    exact (congrArg String.toList (Token.taken_append _ _)).trans String.toList_ofList
  rw [Token.scan_of_words (hrun.agrees (.of_initial (List.prefix_append _ _))) hgap.nil htext]
  cases ws with
  | nil =>
    obtain ⟨newline, hskip⟩ : ∃ newline, Token.afterGap false (gap ++ '\x7d' :: after) =
        .ok (newline, '\x7d' :: after) := by
      rcases hgap with rfl | hskip
      . exact ⟨false, Token.afterGap_of_token (by decide) rfl⟩
      . exact hskip
    simp [slotHasTokens, hcs, hskip, Token.tokensAt]
  | cons w ws =>
    -- the first word stands before the bracket, so that more than the bracket follows the gap
    obtain ⟨c, text, hw, _⟩ := hrun.1.text
    have hskip := hrun.1.gap
    rw [Token.charsOf_cons, Token.Word.chars, List.append_assoc, List.append_assoc] at hcs
    have hlength : after.length + 1 <
        (w.text ++ (Token.charsOf ws ++ (gap ++ '\x7d' :: after))).length := by
      rw [hw]
      simp only [List.length_append, List.length_cons]
      omega
    have htokens : slotHasTokens content after = true := by
      rw [slotHasTokens, hcs, hskip]
      exact decide_eq_true hlength
    simp [htokens, Token.tokensAt]

theorem isVacant_child (h : slotRest content = .ok after) :
    (⟨.child, content, after⟩ : Entry).IsVacant ↔ slotHasTokens content after = false := by
  rw [← scan_slotText h]
  exact and_iff_right rfl

theorem AttributeRead.form (h : AttributeRead place (Text.dropBlank cs) attr rest) :
    ∃ entries, AttributeForm cs entries rest ∧
      expressionsOf entries = attr.sites.map Site.expression := by
  cases h with
  | @spread content source _ hcs hslot hdots =>
    refine ⟨_, .spread hcs hslot, ?_⟩
    rw [expressionsOf_singleton (by simp [Entry.IsVacant])]
    simp [Entry.expression, Entry.source, Attribute.sites, Site.expression, hdots]
  | expression hname hequal hopen hslot =>
    refine ⟨_, .value hname hequal hopen hslot, ?_⟩
    rw [expressionsOf_singleton (by simp [Entry.IsVacant])]
    rfl
  | string hname hequal hopen hquote hread =>
    exact ⟨[], .string hname hequal hopen hquote hread, rfl⟩
  | boolean hname hrest hequal => exact ⟨[], .bare hname hrest hequal, rfl⟩

theorem AttributesRead.derives (h : AttributesRead place cs attrs closed after)
    (hremainder : Remainder name closed after entries rest) :
    ∃ first, Derives (.tag name) cs (first ++ entries) rest ∧
      expressionsOf first = (attrs.flatMap Attribute.sites).map Site.expression := by
  induction h with
  | single hcs =>
    cases hremainder
    exact ⟨[], .single hcs, rfl⟩
  | content hcs =>
    cases hremainder with
    | content hchildren hclose => exact ⟨[], .content hcs hchildren hclose, rfl⟩
  | attr hattr _ ih =>
    obtain ⟨later, hderives, hlater⟩ := ih hremainder
    obtain ⟨first, hform, hfirst⟩ := hattr.form
    refine ⟨first ++ later, ?_, ?_⟩
    . rw [List.append_assoc]
      exact .attr hform hderives
    . rw [expressionsOf_append, hfirst, hlater, List.flatMap_cons, List.map_append]

theorem Derives.of_dropWhile (h : Derives .children (cs.dropWhile isText) entries rest) :
    Derives .children cs entries rest := by
  induction cs with
  | nil => exact h
  | cons c cs ih =>
    cases hc : isText c with
    | true =>
      rw [List.dropWhile_cons_of_pos hc] at h
      exact .char hc (ih h)
    | false => rwa [List.dropWhile_cons_of_neg (by simp [hc])] at h

theorem Derives.dropWhile (h : Derives .children cs entries rest) :
    Derives .children (cs.dropWhile isText) entries rest := by
  induction cs with
  | nil => exact h
  | cons c cs ih =>
    cases hc : isText c with
    | true =>
      rw [List.dropWhile_cons_of_pos hc]
      cases h with
      | closing => simp [isText] at hc
      | markup => simp [isText] at hc
      | slot => simp [isText] at hc
      | char _ hmore => exact ih hmore
    | false => rwa [List.dropWhile_cons_of_neg (by simp [hc])]

structure ReadsDerived (m : Nat) : Prop where
  node : ∀ {place cs tree rest}, Markup.node place m cs = .ok (tree, rest) →
    ∃ entries, Derives .markup cs entries rest ∧ expressionsOf entries = tree.expressions
  children : ∀ {place enclosing cs nodes rest}, Markup.children place m enclosing cs =
    .ok (nodes, rest) →
    ∃ entries mid, Derives .children cs entries ('<' :: '/' :: mid) ∧
    Closes enclosing ('<' :: '/' :: mid) rest ∧
      expressionsOf entries = (Node.sitesAll nodes).map Site.expression

theorem ReadsDerived.children_succ (ih : ReadsDerived m)
    (h : Markup.children place (m + 1) enclosing cs = .ok (nodes, rest)) :
    ∃ entries mid, Derives .children cs entries ('<' :: '/' :: mid) ∧
      Closes enclosing ('<' :: '/' :: mid) rest ∧
      expressionsOf entries = (Node.sitesAll nodes).map Site.expression := by
  cases childrenRead_of_ok h with
  | closing hclose => exact ⟨[], _, .closing, hclose, rfl⟩
  | node hslash hnode hmore =>
    obtain ⟨first, hfirst, hexpr⟩ := ih.node hnode
    obtain ⟨entries, mid, hentries, hclose, hexprs⟩ := ih.children hmore
    refine ⟨first ++ entries, mid, .markup hslash hfirst hentries,
      (closes_withContent _).mp hclose, ?_⟩
    rw [expressionsOf_append, hexpr, hexprs, Node.sitesAll, List.map_append, Node.expressions]
  | slot hslot htokens hmore =>
    obtain ⟨entries, mid, hentries, hclose, hexprs⟩ := ih.children hmore
    refine ⟨_, mid, .slot hslot hentries, (closes_withContent _).mp hclose, ?_⟩
    rw [expressionsOf_append, expressionsOf_singleton (by simp [isVacant_child hslot, htokens]),
      hexprs]
    rfl
  | gap hslot htokens hmore =>
    obtain ⟨entries, mid, hentries, hclose, hexprs⟩ := ih.children hmore
    refine ⟨_, mid, .slot hslot hentries, hclose, ?_⟩
    rw [expressionsOf_append, hexprs]
    simp [expressionsOf, isVacant_child hslot, htokens]
  | @text c nodes cs _ hc hmore =>
    obtain ⟨entries, mid, hentries, hclose, hexprs⟩ := ih.children hmore
    refine ⟨entries, mid, .char hc hentries.of_dropWhile, (closes_withContent _).mp hclose, ?_⟩
    rcases @textNodes_cases place cs c hc with htexts | ⟨value, htexts⟩
    . rwa [htexts]
    . rwa [htexts]

theorem ReadsDerived.node_succ {tree : Node} (ih : ReadsDerived m)
    (h : Markup.node place (m + 1) cs = .ok (tree, rest)) :
    ∃ entries, Derives .markup cs entries rest ∧ expressionsOf entries = tree.expressions := by
  cases nodeRead_of_ok h with
  | fragment hcs hread =>
    obtain ⟨entries, mid, hentries, hclose, hexprs⟩ := ih.children hread
    cases hclose
    exact ⟨entries, hcs ▸ .fragment hentries, hexprs⟩
  | single hname hattrs =>
    obtain ⟨entries, hentries, hexprs⟩ := hattrs.derives .single
    refine ⟨entries ++ [], .element hname hentries, ?_⟩
    rw [expressionsOf_append, hexprs, Node.expressions, Node.sites, List.map_append]
    rfl
  | element hname hattrs hread =>
    obtain ⟨later, mid, hlater, hclose, hexprs⟩ := ih.children hread
    obtain ⟨first, hfirst, hexpr⟩ := hattrs.derives (.content hlater hclose)
    refine ⟨first ++ later, .element hname hfirst, ?_⟩
    rw [expressionsOf_append, hexpr, hexprs, Node.expressions, Node.sites, List.map_append]

theorem readsDerived (m : Nat) : ReadsDerived m := by
  induction m with
  | zero => exact ⟨fun h => absurd h node_zero_ne, fun h => absurd h children_zero_ne⟩
  | succ m ih => exact ⟨ih.node_succ, ih.children_succ⟩

end Markup
end ComponentCompiler
