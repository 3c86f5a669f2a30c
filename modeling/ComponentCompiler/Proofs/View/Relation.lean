import ComponentCompiler.Proofs.Snippet.Operand
import ComponentCompiler.Proofs.View.Related

/-!
This module contains relations between the parts of two analyses, and that related snippets are
recognised as the same form, with related parts. For this it is enough that the operands of related
snippets are related.
-/

namespace ComponentCompiler
namespace View

open Snippet (Operand)

structure Relation where
  snippet : Snippet → Snippet → Prop
  place : Span → Span → Prop
  failure : Failure → Failure → Prop
  report : Diagnostic → Diagnostic → Prop
  /-- The second snippet can go on with what the first one starts. -/
  follows : Snippet → Snippet → Prop
  /-- Texts that are read as code. -/
  code : String → Prop
  /-- Expressions with the reactive containers that they are found to read. -/
  expression : Context → String → List String → Prop
  node : Context → Node → Node → Prop

namespace Relation

variable {ρ : Relation} {s s' : Snippet} {n : Nat}

def Unread (ρ : Relation) (e e' : ScanError) : Prop :=
  ρ.failure (.scan e) (.scan e')

def Below (ρ : Relation) (n : Nat) (s s' : Snippet) : Prop :=
  ρ.snippet s s' ∧ s.text.length < n

def Branch (ρ : Relation) (n : Nat) (branch branch' : Snippet × Snippet) : Prop :=
  ρ.Below n branch.1 branch'.1 ∧ ρ.Below n branch.2 branch'.2

structure Call (ρ : Relation) (n : Nat) (call call' : Snippet.Call) : Prop where
  callee : call.callee = call'.callee
  arguments : List.Forall₂ (ρ.Below n) call.arguments call'.arguments
  snippet : ρ.snippet call.snippet call'.snippet

structure Arrow (ρ : Relation) (n : Nat) (arrow arrow' : Snippet.Arrow) : Prop where
  parameters : arrow.parameters = arrow'.parameters
  names : arrow.names = arrow'.names
  body : ρ.Below n arrow.body arrow'.body
  prelude : arrow.prelude.map (·.text) = arrow'.prelude.map (·.text)

/-- Operands of related snippets are related, and so is what stands inside white space and
parentheses around all of them. -/
structure Cuts (ρ : Relation) : Prop where
  text : ∀ {s s'}, ρ.snippet s s' → s.text = s'.text
  code : ∀ {s s'}, ρ.snippet s s' → ρ.code s.text
  place : ∀ {s s'}, ρ.snippet s s' → ρ.place s.span s'.span
  strip : ∀ {s s'}, ρ.snippet s s' → ρ.snippet s.strip s'.strip
  unwrap : ∀ {s s' opener inner closer}, ρ.snippet s s' →
    s.items = .ok [.group .paren opener inner closer] →
    ρ.snippet (s.sub opener.stop closer.start).strip (s'.sub opener.stop closer.start).strip
  covering : ∀ {s s' items part}, ρ.snippet s s' → s.items = .ok items → Operand items part →
    ρ.snippet (s.covering part) (s'.covering part)
  /-- Code that can not be read is read in neither analysis. -/
  scan : ∀ {text e}, ρ.code text → (Token.scan text >>= Token.group) = .error e → ρ.Unread e e
  free : ∀ {text exclude e}, ρ.code text → Name.free text exclude = .error e → ρ.Unread e e

namespace Cuts

variable {R : α → β → Prop} {items part inner : List Item} {opener closer : Token}
    {bracket : Bracket}

theorem bindItems (hρ : ρ.Cuts) (h : ρ.snippet s s') {f : List Item → Except ScanError α}
    {g : List Item → Except ScanError β}
    (hf : ∀ items, s.items = .ok items → Paired ρ.Unread R (f items) (g items)) :
    Paired ρ.Unread R (s.items >>= f) (s'.items >>= g) := by
  rw [← Snippet.items_congr (hρ.text h)]
  cases hitems : s.items with
  | ok items => exact hf items hitems
  | error e => exact .error (hρ.scan (hρ.code h) hitems)

theorem below (hρ : ρ.Cuts) (h : ρ.Below (n + 1) s s') (hitems : s.items = .ok items)
    (hpart : Operand items part) : ρ.Below n (s.covering part) (s'.covering part) := by
  refine ⟨hρ.covering h.1 hitems hpart, ?_⟩
  exact Nat.lt_of_lt_of_le (Snippet.length_covering_lt hitems hpart) (Nat.le_of_lt_succ h.2)

theorem containsMarkup (hρ : ρ.Cuts) (h : ρ.snippet s s') :
    Paired ρ.Unread (fun a b => a = b ∧ s.containsMarkup = .ok a) s.containsMarkup
      s'.containsMarkup := by
  rw [← Snippet.containsMarkup_congr (hρ.text h)]
  refine .self (fun a ha => ⟨rfl, ha⟩) fun e he => ?_
  unfold Snippet.containsMarkup at he
  cases hscan : Token.scan s.text with
  | ok tokens => simp [hscan, Pure.pure, Except.pure] at he
  | error e' =>
    rw [hscan] at he
    cases he
    exact hρ.scan (hρ.code h) (by rw [hscan]; rfl)

theorem dependencies (hρ : ρ.Cuts) (hcode : ρ.code s.text) (htext : s.text = s'.text)
    (reactive bound : List String) :
    Paired ρ.Unread (fun a b => a = b ∧ s.dependencies reactive bound = .ok a)
      (s.dependencies reactive bound) (s'.dependencies reactive bound) := by
  rw [← Snippet.dependencies_congr htext]
  refine .self (fun a ha => ⟨rfl, ha⟩) fun e he => ?_
  unfold Snippet.dependencies Snippet.valueRoots at he
  cases hscan : Token.scan s.text with
  | error e' =>
    rw [hscan] at he
    cases he
    exact hρ.scan hcode (by rw [hscan]; rfl)
  | ok tokens =>
    rw [hscan] at he
    cases hfree : Name.free s.text bound with
    | error e' =>
      simp only [ok_bind, hfree] at he
      cases he
      exact hρ.free hcode hfree
    | ok names => simp [hfree, Pure.pure, Except.pure] at he

theorem stripParens (hρ : ρ.Cuts) (h : ρ.Below n s s') :
    Paired ρ.Unread (ρ.Below n) s.stripParens s'.stripParens := by
  have hgo : ∀ fuel {s s'}, ρ.Below n s s' →
      Paired ρ.Unread (ρ.Below n) (Snippet.stripParens.go fuel s)
        (Snippet.stripParens.go fuel s') := by
    intro fuel
    induction fuel with
    | zero =>
      intro s s' h
      exact .ok h
    | succ fuel ih =>
      intro s s' h
      refine hρ.bindItems h.1 fun items hitems => ?_
      split
      . refine ih ⟨hρ.unwrap h.1 hitems, ?_⟩
        exact Nat.lt_of_le_of_lt
          (Nat.le_trans (Snippet.length_strip_le _) (Snippet.length_sub_le_length s _ _)) h.2
      . exact .pure h
  rw [Snippet.stripParens, Snippet.stripParens, ← hρ.text h.1]
  exact hgo _ ⟨hρ.strip h.1, Nat.lt_of_le_of_lt (Snippet.length_strip_le s) h.2⟩

theorem isEmptyBranch (hρ : ρ.Cuts) (h : ρ.snippet s s') :
    Paired ρ.Unread (· = ·) s.isEmptyBranch s'.isEmptyBranch := by
  refine (hρ.stripParens ⟨h, Nat.lt_succ_self _⟩).bind fun t t' ht => ?_
  rw [hρ.text ht.1]
  exact .pure rfl

theorem splitAnd? (hρ : ρ.Cuts) (h : ρ.Below (n + 1) s s') :
    Paired ρ.Unread (Option.Rel (ρ.Branch n)) s.splitAnd? s'.splitAnd? := by
  refine hρ.bindItems h.1 fun items hitems => ?_
  split
  . exact .pure .none
  . cases hsplit : Snippet.splitLast? (·.isPunct "&&") items with
    | none => exact .pure .none
    | some parts =>
      match parts with
      | ([], _) => exact .pure .none
      | (_ :: _, []) => exact .pure .none
      | (first :: before, second :: after) =>
        obtain ⟨item, rfl, hitem⟩ := Snippet.splitLast?_eq_some hsplit
        have hbefore := hρ.below h hitems (Snippet.operand_before (List.cons_ne_nil first before))
        have hafter := hρ.below h hitems
          (Snippet.operand_after hitem (by decide) (List.cons_ne_nil second after))
        exact .pure (.some ⟨hbefore, hafter⟩)

theorem splitTernary? (hρ : ρ.Cuts) (h : ρ.Below (n + 1) s s') :
    Paired ρ.Unread (Option.Rel fun p p' => ρ.Branch n (p.1, p.2.1) (p'.1, p'.2.1) ∧
      ρ.Below n p.2.2 p'.2.2)
      s.splitTernary? s'.splitTernary? := by
  refine hρ.bindItems h.1 fun items hitems => ?_
  dsimp only
  generalize hcondition : items.takeWhile (!·.isPunct "?") = condition
  cases hsplit : Snippet.splitColon? 0 [] (items.drop (condition.length + 1)) with
  | none => cases condition <;> exact .pure .none
  | some parts =>
    match condition, parts with
    | [], _ => exact .pure .none
    | _ :: _, ([], _) => exact .pure .none
    | _ :: _, (_ :: _, []) => exact .pure .none
    | item :: more, (first :: firsts, second :: seconds) =>
      obtain ⟨mark, colon, hall, hmark, hcolon⟩ := Snippet.ternary_eq_some hcondition hsplit
      have hoperands : Operand items (item :: more) ∧ Operand items (first :: firsts) ∧
          Operand items (second :: seconds) := by
        rw [hall]
        refine ⟨Snippet.operand_before (by simp),
          Snippet.operand_between hmark (by decide) (by simp), ?_⟩
        rw [List.append_cons, ← List.append_assoc]
        exact Snippet.operand_after hcolon (by decide) (by simp)
      have hcondition := hρ.below h hitems hoperands.1
      have hfirst := hρ.below h hitems hoperands.2.1
      have hsecond := hρ.below h hitems hoperands.2.2
      exact .pure (.some ⟨⟨hcondition, hfirst⟩, hsecond⟩)

theorem split (hρ : ρ.Cuts) (h : ρ.Below (n + 1) s s') (hitems : s.items = .ok items)
    (hmem : .group bracket opener inner closer ∈ items) :
    ∀ part ∈ Item.split "," inner, ρ.Below n (s.covering part) (s'.covering part) := by
  intro part hpart
  exact hρ.below h hitems (Snippet.operand_of_split hmem hpart)

theorem call? (hρ : ρ.Cuts) (h : ρ.Below (n + 1) s s') :
    Paired ρ.Unread (Option.Rel (ρ.Call n)) s.call? s'.call? := by
  refine hρ.bindItems h.1 fun items hitems => ?_
  generalize hreverse : items.reverse = reversed
  match reversed with
  | [] => exact .pure .none
  | .token _ :: _ => exact .pure .none
  | .group .square _ _ _ :: _ => exact .pure .none
  | .group .curly _ _ _ :: _ => exact .pure .none
  | .group .paren opener inner closer :: callee =>
    dsimp only
    split
    . have hmem : .group .paren opener inner closer ∈ items := by
        rw [← List.mem_reverse, hreverse]
        exact List.mem_cons_self
      refine .pure (.some ⟨by rw [hρ.text h.1], ?_, h.1⟩)
      rw [List.forall₂_map_left_iff, List.forall₂_map_right_iff, List.forall₂_same]
      exact hρ.split h hitems hmem
    . exact .pure .none

theorem chainCall? (hρ : ρ.Cuts) (h : ρ.Below (n + 1) s s') :
    Paired ρ.Unread (Option.Rel (ρ.Call n)) s.chainCall? s'.chainCall? := by
  refine (hρ.stripParens h).bind fun t t' ht => ?_
  refine (hρ.call? ht).bind fun call call' hcall => ?_
  cases hcall with
  | none => exact .pure .none
  | some hcall =>
    dsimp only
    rw [← hcall.callee]
    split
    . exact .pure (.some hcall)
    . exact .pure .none

theorem mapCall? (hρ : ρ.Cuts) (h : ρ.Below (n + 1) s s') :
    Paired ρ.Unread (Option.Rel (ρ.Branch n)) s.mapCall? s'.mapCall? := by
  refine hρ.bindItems h.1 fun items hitems => ?_
  generalize hreverse : items.reverse = reversed
  match reversed with
  | [] => exact .pure .none
  | .token _ :: _ => exact .pure .none
  | .group .square _ _ _ :: _ => exact .pure .none
  | .group .curly _ _ _ :: _ => exact .pure .none
  | [.group .paren _ _ _] => exact .pure .none
  | [.group .paren _ _ _, _] => exact .pure .none
  | .group .paren opener inner closer :: name :: dot :: iterable =>
    dsimp only
    have hall : items = iterable.reverse ++ dot :: [name, .group .paren opener inner closer] := by
      rw [← List.reverse_inj, hreverse]
      simp
    generalize hparts : Item.split "," inner = parts
    match parts, iterable with
    | [], _ => exact .pure .none
    | _ :: _ :: _, _ => exact .pure .none
    | [_], [] => exact .pure .none
    | [callback], last :: more =>
      dsimp only
      split
      . have hiterable : Operand items (last :: more).reverse := by
          rw [hall]
          exact Snippet.operand_before (by simp)
        have hmem : .group .paren opener inner closer ∈ items := by simp [hall]
        have hfirst := hρ.below h hitems hiterable
        have hsecond := hρ.split h hitems hmem callback (by simp [hparts])
        exact .pure (.some ⟨hfirst, hsecond⟩)
      . exact .pure .none

theorem returned? (hρ : ρ.Cuts) (h : ρ.Below (n + 1) s s') (hitems : s.items = .ok items)
    (hmem : .group bracket opener inner closer ∈ items) :
    Option.Rel (fun p p' => ρ.Below n p.1 p'.1 ∧ p.2.map (·.text) = p'.2.map (·.text))
      (s.returned? opener inner) (s'.returned? opener inner) := by
  unfold Snippet.returned?
  dsimp only
  cases hdrop : inner.drop (inner.takeWhile (!·.isName "return")).length with
  | nil => exact .none
  | cons keyword rest =>
    dsimp only
    have hoperand := Snippet.operand_of_returned hmem hdrop
    generalize Item.before ";" rest = value at hoperand
    cases value with
    | nil => exact .none
    | cons first more =>
      have hvalue := hρ.below h hitems (hoperand (List.cons_ne_nil first more))
      have hprelude := Snippet.text_strip_congr
        (Snippet.text_sub_congr (hρ.text h.1) opener.stop keyword.start)
      refine .some ⟨hvalue, ?_⟩
      dsimp only
      split
      . rfl
      . rw [Option.map_some, Option.map_some, hprelude]

theorem arrow? (hρ : ρ.Cuts) (h : ρ.Below (n + 1) s s') :
    Paired ρ.Unread (Option.Rel (ρ.Arrow n)) s.arrow? s'.arrow? := by
  refine hρ.bindItems h.1 fun items hitems => ?_
  match items with
  | [] => exact .pure .none
  | [_] => exact .pure .none
  | [_, _] => exact .pure .none
  | head :: arrow :: first :: more =>
    dsimp only
    split
    . next harrow =>
      rw [← Snippet.arrowHead?_congr (hρ.text h.1)]
      cases s.arrowHead? head with
      | none => exact .pure .none
      | some parts =>
        obtain ⟨parameters, names⟩ := parts
        have hoperand : Operand (head :: arrow :: first :: more) (first :: more) :=
          @Snippet.operand_after [head] _ _ _ harrow (by decide) (List.cons_ne_nil first more)
        have hbelow := hρ.below h hitems hoperand
        have hbody : Paired ρ.Unread (Option.Rel (ρ.Arrow n))
            (.ok (some ⟨parameters, names, s.covering (first :: more), none⟩))
            (.ok (some ⟨parameters, names, s'.covering (first :: more), none⟩)) :=
          .ok (.some ⟨rfl, rfl, hbelow, rfl⟩)
        clear hbelow hoperand
        cases first with
        | token => exact hbody
        | group bracket opener inner closer =>
          cases bracket with
          | paren => exact hbody
          | square => exact hbody
          | curly =>
            cases more with
            | cons => exact hbody
            | nil =>
              have hreturned := hρ.returned? h hitems (List.mem_of_getElem? (i := 2) rfl)
              refine .pure ?_
              generalize s.returned? opener inner = result, s'.returned? opener inner =
                result' at hreturned
              cases hreturned with
              | none => exact .none
              | some hreturned => exact .some ⟨rfl, rfl, hreturned.1, hreturned.2⟩
    . exact .pure .none

end Cuts
end Relation
end View
end ComponentCompiler
