import ComponentCompiler.Proofs.Markup.Location
import ComponentCompiler.View.Analysis

/-!
This module contains what markup is read as whatever place it stands at: only the places of a tree
depend on it, and what they have in common at both places is kept. Each slot is shorter than the
markup it stands in.
-/

namespace ComponentCompiler
namespace Markup

open View (longestSlot longestSlotOf)

inductive Attribute.SameShape : Attribute → Attribute → Prop where
  | string : SameShape (.string here name value) (.string there name value)
  | expression : SameShape (.expression here name value) (.expression there name value)
  | boolean : SameShape (.boolean here name) (.boolean there name)
  | spread : SameShape (.spread here value) (.spread there value)

mutual

inductive Node.SameShape (R : Span → Span → Prop) : Node → Node → Prop where
  | element (hplace : R here there) (hattributes : List.Forall₂ Attribute.SameShape attrs attrs')
      (hnodes : Node.SameShapes R nodes nodes') :
    Node.SameShape R (.element here tag attrs nodes) (.element there tag attrs' nodes')
  | fragment (hnodes : Node.SameShapes R nodes nodes') :
    Node.SameShape R (.fragment here nodes) (.fragment there nodes')
  | text (hplace : R here there) : Node.SameShape R (.text here value) (.text there value)
  | slot (hplace : R here there) : Node.SameShape R (.slot here source) (.slot there source)

inductive Node.SameShapes (R : Span → Span → Prop) : List Node → List Node → Prop where
  | nil : Node.SameShapes R [] []
  | cons (hnode : Node.SameShape R tree tree') (hnodes : Node.SameShapes R nodes nodes') :
    Node.SameShapes R (tree :: nodes) (tree' :: nodes')

end

variable {R : Span → Span → Prop} {place place' : Nat → Nat → Span} {cs : List Char}

theorem oneAttribute_sameShape (place place' : Nat → Nat → Span) (tag : String) (cs : List Char) :
    Paired (· = ·) (fun r r' => r.1.SameShape r'.1 ∧ r.2 = r'.2) (oneAttribute place tag cs)
      (oneAttribute place' tag cs) := by
  unfold oneAttribute
  split
  . exact .error rfl
  . next content =>
    refine Paired.refl.bind fun rest rest' hrest => ?_
    subst hrest
    split
    . exact .pure ⟨.spread, rfl⟩
    . exact .error rfl
  . split
    . exact .error rfl
    . next name after _ =>
      dsimp only
      split
      . refine Paired.refl.bind fun read read' hread => ?_
        subst hread
        obtain ⟨value, isExpression, stop, rest⟩ := read
        cases isExpression with
        | true => exact .pure ⟨.expression, rfl⟩
        | false => exact .pure ⟨.string, rfl⟩
      . exact .pure ⟨.boolean, rfl⟩

theorem attributes_sameShape (place place' : Nat → Nat → Span) (tag : String) (m : Nat)
    (cs : List Char) :
    Paired (· = ·) (fun r r' => List.Forall₂ Attribute.SameShape r.1 r'.1 ∧ r.2 = r'.2)
      (attributes place tag m cs)
      (attributes place' tag m cs) := by
  induction m generalizing cs with
  | zero => exact .error rfl
  | succ m ih =>
    cases cs with
    | nil => exact .error rfl
    | cons c cs =>
      unfold attributes
      dsimp only
      split
      . exact .ok ⟨.nil, rfl⟩
      . exact .ok ⟨.nil, rfl⟩
      . refine (oneAttribute_sameShape place place' tag _).bind fun first first' hfirst => ?_
        obtain ⟨attr, rest⟩ := first
        obtain ⟨attr', rest'⟩ := first'
        obtain ⟨hattr, rfl⟩ := hfirst
        refine (ih rest).bind fun more more' hmore => ?_
        obtain ⟨attrs, closed, after⟩ := more
        obtain ⟨attrs', closed', after'⟩ := more'
        obtain ⟨hattrs, hrest⟩ := hmore
        cases hrest
        exact .pure ⟨.cons hattr hattrs, rfl⟩

structure ReadsSame (R : Span → Span → Prop) (place place' : Nat → Nat → Span) (m : Nat) :
    Prop where
  node : ∀ cs, Paired (· = ·) (fun r r' => r.1.SameShape R r'.1 ∧ r.2 = r'.2) (node place m cs)
    (node place' m cs)
  children : ∀ enclosing cs, Paired (· = ·) (fun r r' => Node.SameShapes R r.1 r'.1 ∧ r.2 = r'.2)
    (children place m enclosing cs) (children place' m enclosing cs)

theorem ReadsSame.children_succ (hR : ∀ start stop, R (place start stop) (place' start stop))
    (ih : ReadsSame R place place' m) (enclosing : Enclosing) (cs : List Char) :
    Paired (· = ·) (fun r r' => Node.SameShapes R r.1 r'.1 ∧ r.2 = r'.2)
      (Markup.children place (m + 1) enclosing cs)
      (Markup.children place' (m + 1) enclosing cs) := by
  unfold Markup.children
  dsimp only
  split
  . exact .error rfl
  . refine Paired.refl.bind fun rest rest' hrest => ?_
    exact .pure ⟨.nil, hrest⟩
  . refine (ih.node _).bind fun first first' hfirst => ?_
    obtain ⟨tree, rest⟩ := first
    obtain ⟨tree', rest'⟩ := first'
    obtain ⟨htree, rfl⟩ := hfirst
    refine (ih.children _ rest).bind fun more more' hmore => ?_
    exact .pure ⟨.cons htree hmore.1, hmore.2⟩
  . refine Paired.refl.bind fun rest rest' hrest => ?_
    subst hrest
    split
    . refine (ih.children _ rest).bind fun more more' hmore => ?_
      exact .pure ⟨.cons (.slot (hR _ _)) hmore.1, hmore.2⟩
    . exact ih.children _ rest
  . refine (ih.children _ _).bind fun more more' hmore => ?_
    split
    . exact .pure hmore
    . exact .pure ⟨.cons (.text (hR _ _)) hmore.1, hmore.2⟩

theorem ReadsSame.node_succ (hR : ∀ start stop, R (place start stop) (place' start stop))
    (ih : ReadsSame R place place' m) (cs : List Char) :
    Paired (· = ·) (fun r r' => r.1.SameShape R r'.1 ∧ r.2 = r'.2) (Markup.node place (m + 1) cs)
      (Markup.node place' (m + 1) cs) := by
  unfold Markup.node
  dsimp only
  split
  . exact .error rfl
  . refine (ih.children _ _).bind fun read read' hread => ?_
    exact .pure ⟨.fragment hread.1, hread.2⟩
  . split
    . exact .error rfl
    . refine (attributes_sameShape place place' _ _ _).bind fun opened opened' hopened => ?_
      obtain ⟨attrs, closed, rest⟩ := opened
      obtain ⟨attrs', closed', rest'⟩ := opened'
      obtain ⟨hattrs, hrest⟩ := hopened
      cases hrest
      dsimp only
      split
      . exact .pure ⟨.element (hR _ _) hattrs .nil, rfl⟩
      . refine (ih.children _ rest).bind fun read read' hread => ?_
        obtain ⟨nodes, after⟩ := read
        obtain ⟨nodes', after'⟩ := read'
        obtain ⟨hnodes, rfl⟩ := hread
        exact .pure ⟨.element (hR _ _) hattrs hnodes, rfl⟩

theorem readsSame (hR : ∀ start stop, R (place start stop) (place' start stop)) (m : Nat) :
    ReadsSame R place place' m := by
  induction m with
  | zero => exact ⟨fun _ => .error rfl, fun _ _ => .error rfl⟩
  | succ m ih => exact ⟨ih.node_succ hR, ih.children_succ hR⟩

theorem read_sameShape (hR : ∀ start stop, R (place start stop) (place' start stop))
    (cs : List Char) : Paired (· = ·) (Node.SameShape R) (read place cs) (read place' cs) := by
  unfold read
  split
  . exact .error rfl
  . exact .error rfl
  . exact .error rfl
  . refine ((readsSame hR _).node _).bind fun found found' hfound => ?_
    obtain ⟨tree, rest⟩ := found
    obtain ⟨tree', rest'⟩ := found'
    obtain ⟨htree, rfl⟩ := hfound
    dsimp only
    split
    . exact .pure htree
    . exact .error rfl
  . exact .error rfl

structure ReadsShort (m : Nat) : Prop where
  node : ∀ {place cs tree rest}, Markup.node place m cs = .ok (tree, rest) →
    rest.length ≤ cs.length ∧ longestSlot tree ≤ cs.length
  children : ∀ {place enclosing cs nodes rest}, Markup.children place m enclosing cs =
    .ok (nodes, rest) →
    rest.length ≤ cs.length ∧ longestSlotOf nodes ≤ cs.length

theorem ReadsShort.children_succ {nodes : List Node} (ih : ReadsShort m)
    (h : Markup.children place (m + 1) enclosing cs = .ok (nodes, rest)) :
    rest.length ≤ cs.length ∧ longestSlotOf nodes ≤ cs.length := by
  cases childrenRead_of_ok h with
  | closing hclose => exact ⟨hclose.suffix.length_le, Nat.zero_le _⟩
  | node hclose hnode hmore =>
    obtain ⟨hafter, htree⟩ := ih.node hnode
    obtain ⟨hrest, hnodes⟩ := ih.children hmore
    rw [longestSlotOf, List.length_cons]
    omega
  | @slot content after nodes _ hslot htokens hmore =>
    obtain ⟨hrest, hnodes⟩ := ih.children hmore
    obtain ⟨used, rfl, htext⟩ := eq_append_of_slotRest hslot
    rw [longestSlotOf, longestSlot, htext, String.length_ofList]
    simp only [List.length_cons, List.length_append]
    omega
  | @gap content after _ _ hslot _ hmore =>
    obtain ⟨hrest, hnodes⟩ := ih.children hmore
    obtain ⟨used, rfl, _⟩ := eq_append_of_slotRest hslot
    simp only [List.length_cons, List.length_append]
    omega
  | @text c nodes cs _ hc hmore =>
    obtain ⟨hrest, hnodes⟩ := ih.children hmore
    have hdrop := (List.dropWhile_suffix (l := cs) isText).length_le
    rw [List.length_cons]
    rcases @textNodes_cases place cs c hc with htexts | ⟨value, htexts⟩
    . rw [htexts, List.nil_append]
      omega
    . rw [htexts, List.singleton_append, longestSlotOf, longestSlot]
      omega

theorem ReadsShort.node_succ {tree : Node} (ih : ReadsShort m)
    (h : Markup.node place (m + 1) cs = .ok (tree, rest)) :
    rest.length ≤ cs.length ∧ longestSlot tree ≤ cs.length := by
  cases nodeRead_of_ok h with
  | @fragment content nodes _ hopen hread =>
    obtain ⟨hrest, hnodes⟩ := ih.children hread
    rw [hopen, List.length_cons, longestSlot]
    omega
  | @single tag after _ _ hname hattrs =>
    have hrest := hattrs.suffix.length_le
    obtain ⟨rfl, _⟩ := Token.tagName?_append hname
    rw [List.length_append, longestSlot, longestSlotOf]
    omega
  | @element tag after _ _ _ _ hname hattrs hread =>
    have hcontent := hattrs.suffix.length_le
    obtain ⟨hrest, hnodes⟩ := ih.children hread
    obtain ⟨rfl, _⟩ := Token.tagName?_append hname
    rw [List.length_append, longestSlot]
    omega

theorem readsShort (m : Nat) : ReadsShort m := by
  induction m with
  | zero => exact ⟨fun h => absurd h node_zero_ne, fun h => absurd h children_zero_ne⟩
  | succ m ih => exact ⟨ih.node_succ, ih.children_succ⟩

theorem longestSlot_lt_of_parse (h : Node.parse snippet file origin = .ok tree) :
    longestSlot tree < snippet.length := by
  obtain ⟨content, rest, hcs, hnode, _⟩ := node_of_parse h
  have hlength := (Token.dropBlank_suffix snippet.toList).length_le
  rw [hcs, List.length_cons, String.length_toList] at hlength
  exact Nat.lt_of_le_of_lt ((readsShort _).node hnode).2 hlength

end Markup
end ComponentCompiler
