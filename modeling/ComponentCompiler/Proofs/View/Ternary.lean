import ComponentCompiler.Proofs.Snippet.Tokens
import ComponentCompiler.View.Analysis

/-!
This module contains what the branches of a chain of ternaries have to do with the expression. Put
together again with the operators between them, and with the parentheses around the later parts,
they are the expression, and each of them belongs to the operators that it stands between.
-/

namespace ComponentCompiler
namespace Snippet

variable {s : Snippet} {items items' before after : List Item} {item : Item} {depth : Nat}

/-- After `depth` marks that have no colon yet, each colon of these items has its mark and each mark
its colon. -/
structure MarksMatch (depth : Nat) (items : List Item) : Prop where
  part : ∀ before after, items = before ++ after →
    before.countP (·.isPunct ":") ≤ depth + before.countP (·.isPunct "?")
  all : items.countP (·.isPunct ":") = depth + items.countP (·.isPunct "?")

/-- The tokens are those of a condition, `?`, those of the value for it, `:` and the rest. -/
structure Branch (tokens : List Token) (branch : Snippet × Snippet) (rest : List Token) : Prop where
  split : ∃ condition mark value colon, tokens = condition ++ mark :: (value ++ colon :: rest) ∧
    branch.1.Reads condition ∧ mark.isPunct "?" = true ∧ branch.2.Reads value ∧
    colon.isPunct ":" = true
  condition : ∃ items, branch.1.items = .ok items ∧ ∀ item ∈ items, item.isPunct "?" = false
  value : ∃ items, branch.2.items = .ok items ∧ MarksMatch 0 items

/-- The tokens after the first branch: further branches, each of them maybe in parentheses together
with all that follows, and the alternative. -/
inductive Branches : List Token → List (Snippet × Snippet) → Snippet → Prop where
  | otherwise {tokens : List Token} {otherwise : Snippet} (h : otherwise.Reads tokens) :
    Branches tokens [] otherwise
  | branch {tokens inner rest : List Token} {branch : Snippet × Snippet}
      {more : List (Snippet × Snippet)} {otherwise : Snippet}
      (hparens : Wraps tokens inner) (hbranch : Branch inner branch rest)
      (hrest : Branches rest more otherwise) :
    Branches tokens (branch :: more) otherwise

theorem MarksMatch.cons {depth' : Nat} (h : MarksMatch depth' items)
    (hitem : [item].countP (·.isPunct ":") + depth' = depth + [item].countP (·.isPunct "?")) :
    MarksMatch depth (item :: items) := by
  constructor
  . intro before after hsplit
    cases before with
    | nil => simp
    | cons first before =>
      rw [List.cons_append] at hsplit
      obtain ⟨rfl, htail⟩ := List.cons.inj hsplit
      have hpart := h.part before after htail
      rw [← List.singleton_append, List.countP_append, List.countP_append]
      omega
  . have hall := h.all
    rw [← List.singleton_append, List.countP_append, List.countP_append]
    omega

theorem MarksMatch.congr (h : MarksMatch depth items) (hsame : Token.SameOperators items items') :
    MarksMatch depth items' := by
  have hcount : ∀ {some some'} value, Token.SameOperators some some' →
      some.countP (·.isPunct value) = some'.countP (·.isPunct value) := by
    intro some some' value hsame
    induction hsame with
    | nil => rfl
    | cons hitem _ ih => rw [List.countP_cons, List.countP_cons, hitem value, ih]
  constructor
  . rintro before' after' rfl
    obtain ⟨before, after, hitems, hbefore, _⟩ := append_of_forall₂ hsame
    rw [← hcount ":" hbefore, ← hcount "?" hbefore]
    exact h.part before after hitems
  . rw [← hcount ":" hsame, ← hcount "?" hsame]
    exact h.all

theorem isPunct_ne {value value' : String} (h : item.isPunct value = true) (hne : value ≠ value') :
    item.isPunct value' = false := by
  cases item with
  | group => rfl
  | token t =>
    simp only [Item.isPunct, Token.isPunct, Bool.and_eq_true, beq_iff_eq] at h ⊢
    simp [h.2, hne]

theorem marksMatch_of_splitColon? {taken first second : List Item}
    (h : splitColon? depth taken items = some (first, second)) :
    ∃ middle, first = taken.reverse ++ middle ∧ MarksMatch depth middle := by
  fun_induction splitColon? depth taken items with
  | case1 => simp at h
  | case2 depth taken item items hmark ih =>
    obtain ⟨middle, rfl, hmiddle⟩ := ih h
    have hcolon : item.isPunct ":" = false := isPunct_ne hmark (by decide)
    refine ⟨item :: middle, by simp, hmiddle.cons ?_⟩
    simp [hmark, hcolon]
  | case3 taken item items hmark hcolon =>
    cases h
    refine ⟨[], by simp, ?_, rfl⟩
    intro before after hsplit
    obtain ⟨rfl, _⟩ := List.append_eq_nil_iff.mp hsplit.symm
    simp
  | case4 taken item items hmark hcolon depth ih =>
    obtain ⟨middle, rfl, hmiddle⟩ := ih h
    refine ⟨item :: middle, by simp, hmiddle.cons ?_⟩
    simp [hmark, hcolon, Nat.add_comm]
  | case5 depth taken item items hmark hcolon ih =>
    obtain ⟨middle, rfl, hmiddle⟩ := ih h
    refine ⟨item :: middle, by simp, hmiddle.cons ?_⟩
    simp [hmark, hcolon]

theorem items_of_splitTernary? {c v o : Snippet} (h : s.splitTernary? = .ok (some (c, v, o))) :
    ∃ condition mark value colon rest, s.items =
      .ok (condition ++ mark :: (value ++ colon :: rest)) ∧
      (condition ≠ [] ∧ value ≠ [] ∧ rest ≠ []) ∧
      (mark.isPunct "?" = true ∧ colon.isPunct ":" = true) ∧
      ((∀ item ∈ condition, item.isPunct "?" = false) ∧ MarksMatch 0 value) ∧
      c = s.covering condition ∧ v = s.covering value ∧ o = s.covering rest := by
  obtain ⟨items, hitems, h⟩ := bind_eq_ok.mp h
  dsimp only at h
  split at h
  . next first before value values rest rests hcondition hsplit =>
    obtain ⟨mark, colon, hall, hmark, hcolon⟩ := ternary_eq_some rfl hsplit
    obtain ⟨middle, hmiddle, hmatch⟩ := marksMatch_of_splitColon? hsplit
    rw [List.reverse_nil, List.nil_append] at hmiddle
    subst hmiddle
    rw [pure_eq_ok, Option.some.injEq, Prod.mk.injEq, Prod.mk.injEq] at h
    refine ⟨_, mark, _, colon, _, hall ▸ hitems, ⟨?_, by simp, by simp⟩, ⟨hmark, hcolon⟩,
      ⟨?_, hmatch⟩, h.1.symm, h.2.1.symm, h.2.2.symm⟩
    . rw [hcondition]
      simp
    . intro item hitem
      simpa using List.mem_takeWhile_imp hitem
  . exact absurd (pure_eq_ok.mp h) (by simp)

theorem Reads.branch {c v o : Snippet} (hreads : s.Reads tokens)
    (h : s.splitTernary? = .ok (some (c, v, o))) :
    ∃ rest, Branch tokens (c, v) rest ∧ o.Reads rest ∧ o.text.length < s.text.length := by
  obtain ⟨condition, mark, value, colon, rest, hitems, ⟨hc, hv, ho⟩, ⟨hmark, hcolon⟩,
      ⟨hbefore, hmatch⟩, rfl, rfl, rfl⟩ :=
    items_of_splitTernary? h
  have hcondition : Operand (condition ++ mark :: (value ++ colon :: rest)) condition :=
    operand_before hc
  have hvalue : Operand (condition ++ mark :: (value ++ colon :: rest)) value :=
    operand_between hmark (by decide) hv
  have hrest : Operand (condition ++ mark :: (value ++ colon :: rest)) rest := by
    rw [List.append_cons, ← List.append_assoc]
    exact operand_after hcolon (by decide) ho
  refine ⟨_, ⟨?_, ?_, ?_⟩, reads_covering hitems hrest, length_covering_lt hitems hrest⟩
  . obtain ⟨first, rfl, hfirst⟩ := hreads.append hitems hc
    obtain ⟨mark, rfl, hmark⟩ := Item.exists_token_of_isPunct hmark
    obtain ⟨colon, rfl, hcolon⟩ := Item.exists_token_of_isPunct hcolon
    refine ⟨first, mark.shift s.origin.offset, _, colon.shift s.origin.offset, ?_,
      (reads_covering hitems hcondition).congr hfirst.symm, hmark, reads_covering hitems hvalue,
      hcolon⟩
    simp [placed, Item.flattenAll, Item.flatten, Token.flattenAll_append]
  . obtain ⟨own, hown, hsame⟩ := items_covering hitems hcondition
    refine ⟨own, hown, ?_⟩
    intro item hitem
    obtain ⟨item', hmem, hitem'⟩ := exists_left_of_forall₂ hsame hitem
    rw [← hitem' "?"]
    exact hbefore item' hmem
  . obtain ⟨own, hown, hsame⟩ := items_covering hitems hvalue
    exact ⟨own, hown, hmatch.congr hsame⟩

end Snippet

namespace View

open Snippet (Branch Branches Wraps)

variable {s otherwise : Snippet} {first : Snippet × Snippet} {more : List (Snippet × Snippet)}
    {tokens : List Token}

theorem branches_of_ternaryTail (hreads : s.Reads tokens)
    (h : ternaryTail s = .ok (more, otherwise)) :
    Branches tokens more otherwise ∧ ∃ t, otherwise.stripParens = .ok t ∧
      t.splitTernary? = .ok none := by
  have hgo : ∀ fuel {s tokens more}, s.Reads tokens → s.text.length < fuel →
      ternaryTail.go fuel s = .ok (more, otherwise) →
      Branches tokens more otherwise ∧ ∃ t, otherwise.stripParens = .ok t ∧
      t.splitTernary? = .ok none := by
    intro fuel
    induction fuel with
    | zero =>
      intro s tokens more _ hfuel
      omega
    | succ fuel ih =>
      intro s tokens more hreads hfuel h
      obtain ⟨t, ht, h⟩ := bind_eq_ok.mp h
      obtain ⟨parts, hparts, h⟩ := bind_eq_ok.mp h
      cases parts with
      | none =>
        cases h
        exact ⟨.otherwise hreads, t, ht, hparts⟩
      | some parts =>
        obtain ⟨condition, value, rest⟩ := parts
        obtain ⟨⟨others, last⟩, hrest, h⟩ := bind_eq_ok.mp h
        cases h
        obtain ⟨inner, hwraps, hinner⟩ := hreads.stripParens ht
        obtain ⟨after, hbranch, hafter, hlt⟩ := hinner.branch hparts
        have hle : t.text.length ≤ s.text.length := Snippet.length_stripParens_le ht
        obtain ⟨hbranches, hlast⟩ := ih hafter (by omega) hrest
        exact ⟨.branch hwraps hbranch hbranches, hlast⟩
  exact hgo _ hreads (Nat.lt_succ_self _) h

/-- Taking a chain of ternaries apart loses nothing. Its tokens are those of the conditions, the
values and the alternative, with `?` and `:` between them and parentheses around whole alternatives.
No condition has a `?` outside of brackets, in a value each `?` has its `:`, and the alternative is
no ternary. -/
theorem branches_of_ternary? (h : ternary? s = .ok (some (first, more, otherwise))) :
    (∃ own rest, Token.scan s.text = .ok own ∧ Branch (s.placed own) first rest ∧
      Branches rest more otherwise) ∧
    ∃ t, otherwise.stripParens = .ok t ∧ t.splitTernary? = .ok none := by
  obtain ⟨parts, hparts, h⟩ := bind_eq_ok.mp h
  cases parts with
  | none => exact absurd (pure_eq_ok.mp h) (by simp)
  | some parts =>
    obtain ⟨condition, value, rest⟩ := parts
    obtain ⟨⟨others, last⟩, htail, h⟩ := bind_eq_ok.mp h
    obtain ⟨found, _, h⟩ := bind_eq_ok.mp h
    cases found with
    | false => exact absurd (pure_eq_ok.mp h) (by simp)
    | true =>
      cases h
      obtain ⟨items, hitems, _⟩ := bind_eq_ok.mp hparts
      obtain ⟨own, hscan, _⟩ := bind_eq_ok.mp hitems
      obtain ⟨after, hbranch, hafter, _⟩ := (Snippet.reads_placed hscan).branch hparts
      obtain ⟨hbranches, hlast⟩ := branches_of_ternaryTail hafter htail
      exact ⟨⟨own, after, hscan, hbranch, hbranches⟩, hlast⟩

/-- A ternary as the first value, and one in parentheses as the alternative. -/
theorem branches_of_ternary?_nested :
    let s : Snippet := ⟨"a ? b ? <p/> : 1 : (c /*?*/ ? <i/> : null)", ⟨1, 1, 0⟩, "<stdin>"⟩
    let first : Snippet × Snippet :=
      (⟨"a", ⟨1, 1, 0⟩, "<stdin>"⟩, ⟨"b ? <p/> : 1", ⟨1, 5, 4⟩, "<stdin>"⟩)
    let second : Snippet × Snippet :=
      (⟨"c", ⟨1, 21, 20⟩, "<stdin>"⟩, ⟨"<i/>", ⟨1, 31, 30⟩, "<stdin>"⟩)
    let otherwise : Snippet := ⟨"null", ⟨1, 38, 37⟩, "<stdin>"⟩
    ternary? s = .ok (some (first, [second], otherwise)) ∧
    (∃ own rest, Token.scan s.text = .ok own ∧ Branch (s.placed own) first rest ∧
      Branches rest [second] otherwise) ∧
    ∃ t, otherwise.stripParens = .ok t ∧ t.splitTernary? = .ok none := by
  intro s first second otherwise
  have h : ternary? s = .ok (some (first, [second], otherwise)) := by decide +kernel
  exact ⟨h, branches_of_ternary? h⟩

end View
end ComponentCompiler
