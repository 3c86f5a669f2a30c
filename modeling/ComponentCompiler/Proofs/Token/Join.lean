import ComponentCompiler.Proofs.Text.Slice
import ComponentCompiler.Proofs.Token.Fragment
import ComponentCompiler.Proofs.Token.Trim

/-!
This module contains words that are put together. They nest into the items that they nest into by
themselves, wherever they stand, and a word is read the same whatever white space is before it and
whatever ends it.
-/

namespace ComponentCompiler
namespace Token

variable {stack stack' : List Open} {before items items' result : List Item} {ts ts' : List Token}
    {rest next : List Char}
variable {w : Word} {ws : List Word} {operand : Bool}

theorem go_flattenAll (h : ∀ item ∈ items, ∀ stack before ts,
      group.go stack before (item.flatten ++ ts) = group.go stack (item :: before) ts)
        (before : List Item) (ts : List Token) :
    group.go stack before (Item.flattenAll items ++ ts) =
      group.go stack (items.reverse ++ before) ts := by
  induction items generalizing before with
  | nil => rfl
  | cons item items ih =>
    rw [List.forall_mem_cons] at h
    rw [Item.flattenAll, List.append_assoc, h.1, ih h.2, List.reverse_cons, List.append_assoc,
      List.singleton_append]

theorem go_flatten {item : Item} (h : item.Matched) (stack : List Open) (before : List Item)
    (ts : List Token) :
    group.go stack before (item.flatten ++ ts) = group.go stack (item :: before) ts := by
  induction h generalizing stack before ts with
  | token hopen hclose => exact group.go_other hopen hclose
  | @group bracket opener closer inner hopener hopen hclose _ ih =>
    rw [Item.flatten, List.cons_append, List.append_assoc, group.go_opening hopener,
      go_flattenAll ih, List.append_nil,
      List.singleton_append, group.go_closing hopen hclose, List.reverse_reverse]

theorem go_of_group (h : group ts = .ok items) (stack : List Open) (before : List Item)
    (more : List Token) :
    group.go stack before (ts ++ more) = group.go stack (items.reverse ++ before) more := by
  rw [← flattenAll_group h]
  exact go_flattenAll (fun item hmem => go_flatten (matched_of_group h item hmem)) before more

theorem group_append (h : group ts = .ok items)
    (hmore : ∀ t ∈ more, t.opens? = none ∧ t.closes? = none) :
    group (ts ++ more) = .ok (items ++ more.map .token) := by
  rw [group, go_of_group h, List.append_nil]
  clear h
  induction more generalizing items with
  | nil => rw [group.go, List.reverse_reverse, List.map_nil, List.append_nil]
  | cons t more ih =>
    rw [List.forall_mem_cons] at hmore
    rw [group.go_other hmore.1.1 hmore.1.2, ← List.singleton_append, ← List.reverse_singleton,
      ← List.reverse_append, ih hmore.2, List.map_cons, List.append_assoc, List.singleton_append]

theorem group_call {name opener closer : Token} {bracket : Bracket} (h : group ts = .ok items)
    (hname : name.opens? = none ∧ name.closes? = none) (hopener : opener.opens? = some bracket)
    (hopen : closer.opens? = none) (hclose : closer.closes? = some bracket) :
    group (name :: opener :: (ts ++ [closer])) =
      .ok [.token name, .group bracket opener items closer] := by
  rw [group, group.go_other hname.1 hname.2, group.go_opening hopener, go_of_group h,
    group.go_closing hopen hclose, group.go, List.append_nil, List.reverse_reverse]
  rfl

def SameText (t t' : Token) : Prop :=
  t.kind = t'.kind ∧ t.value = t'.value

namespace SameText

variable {t t' : Token}

theorem isPunct (h : SameText t t') (value : String) : t.isPunct value = t'.isPunct value := by
  rw [Token.isPunct, Token.isPunct, h.1, h.2]

theorem opens? (h : SameText t t') : t.opens? = t'.opens? := by
  rw [Token.opens?, Token.opens?, h.1, h.2]

theorem closes? (h : SameText t t') : t.closes? = t'.closes? := by
  rw [Token.closes?, Token.closes?, h.1, h.2]

end SameText

section

variable {R : Token → Token → Prop} {Q : Item → Item → Prop}

theorem go_related (hsame : ∀ t t', R t t' → SameText t t')
    (htoken : ∀ t t', R t t' → Q (.token t) (.token t'))
    (hgroup : ∀ bracket opener opener' inner inner' closer closer', R opener opener' →
      R closer closer' →
      Q (.group bracket opener inner closer) (.group bracket opener' inner' closer'))
    (h : group.go stack items ts = .ok result) (hts : List.Forall₂ R ts ts')
    (hstack : List.Forall₂ (fun o o' => o.bracket = o'.bracket ∧ R o.opener o'.opener ∧
      List.Forall₂ Q o.before o'.before) stack stack')
    (hitems : List.Forall₂ Q items items') :
    ∃ result', group.go stack' items' ts' = .ok result' ∧ List.Forall₂ Q result result' := by
  fun_induction group.go stack items ts generalizing stack' items' ts' with
  | case1 items =>
    cases h
    cases hts
    cases hstack
    exact ⟨items'.reverse, rfl, List.rel_reverse hitems⟩
  | case2 => simp at h
  | case3 stack items t ts bracket hopen ih =>
    cases hts with
    | cons ht hts =>
      rw [group.go_opening ((hsame _ _ ht).opens? ▸ hopen)]
      exact ih h hts (.cons ⟨rfl, ht, hitems⟩ hstack) .nil
  | case4 => simp at h
  | case5 items t ts hopen o stack hclose ih =>
    cases hts with
    | cons ht hts =>
      cases hstack with
      | @cons _ o' _ _ ho hstack =>
        have hsame := hsame _ _ ht
        rw [hsame.closes?, ho.1] at hclose
        rw [group.go_closing (hsame.opens? ▸ hopen) hclose]
        rw [ho.1] at h ih
        exact ih h hts hstack (.cons (hgroup _ _ _ _ _ _ _ ho.2.1 ht) ho.2.2)
  | case6 => simp at h
  | case7 stack items t ts hclose hopen ih =>
    cases hts with
    | cons ht hts =>
      have hsame := hsame _ _ ht
      rw [group.go_other (hsame.opens? ▸ hopen) (hsame.closes? ▸ hclose)]
      exact ih h hts hstack (.cons (htoken _ _ ht) hitems)

theorem group_related (hsame : ∀ t t', R t t' → SameText t t')
    (htoken : ∀ t t', R t t' → Q (.token t) (.token t'))
    (hgroup : ∀ bracket opener opener' inner inner' closer closer', R opener opener' →
      R closer closer' →
      Q (.group bracket opener inner closer) (.group bracket opener' inner' closer'))
    (h : group ts = .ok items) (hts : List.Forall₂ R ts ts') :
    ∃ items', group ts' = .ok items' ∧ List.Forall₂ Q items items' :=
  go_related hsame htoken hgroup h hts .nil .nil

end

abbrev SameOperators : List Item → List Item → Prop :=
  List.Forall₂ fun item item' => ∀ value, item.isPunct value = item'.isPunct value

theorem group_sameOperators (h : group ts = .ok items) (hts : List.Forall₂ SameText ts ts') :
    ∃ items', group ts' = .ok items' ∧ SameOperators items items' := by
  apply group_related (fun _ _ ht => ht) ?_ ?_ h hts
  . intro t t' ht value
    exact ht.isPunct value
  . intros
    rfl

def Word.respaced (w : Word) (gap : List Char) (newline : Bool) : Word :=
  { w with gap, newline }

theorem sameText_tokensAt (pos pos' : Nat) (ws : List Word) :
    List.Forall₂ SameText (tokensAt pos ws) (tokensAt pos' ws) := by
  induction ws generalizing pos pos' with
  | nil => exact .nil
  | cons w ws ih => exact .cons ⟨rfl, rfl⟩ (ih _ _)

theorem sameText_respaced (pos pos' : Nat) (w : Word) (gap : List Char) (newline : Bool)
    (ws : List Word) :
    List.Forall₂ SameText (tokensAt pos (w :: ws)) (tokensAt pos' (w.respaced gap newline :: ws)) :=
  .cons ⟨rfl, rfl⟩ (sameText_tokensAt _ _ ws)

theorem scan_of_run {text : String} (hrun : Run true ws []) (htext : text.toList = charsOf ws) :
    scan text = .ok (tokensAt 0 ws) := by
  have hlength := Text.length_eq htext
  refine scanWindow_of_run hrun ?_ (by omega) ?_
  . rw [List.drop_zero, htext, List.append_nil]
  . intro n operand
    exact scanFrom_of_le (by omega)

theorem Run.dropBlank (h : Run operand (w :: ws) rest) :
    ∃ newline, Text.dropBlank (charsOf (w :: ws) ++ rest) =
      charsOf (w.respaced (Text.dropBlank w.gap) newline :: ws) ++ rest ∧
      Run operand (w.respaced (Text.dropBlank w.gap) newline :: ws) rest := by
  obtain ⟨c, more, hmore, _⟩ := h.1.text
  have hgap := h.1.gap
  rw [hmore, List.cons_append] at hgap
  have hsolid := (afterGap_token hgap).1
  obtain ⟨newline, hskip⟩ := afterGap.go_dropBlank hgap
  rw [dropBlank_append _ hsolid] at hskip
  refine ⟨newline, ?_, ⟨⟨?_, h.1.text⟩, h.2⟩⟩
  . simp only [charsOf_cons, Word.chars, Word.respaced, hmore, List.append_assoc, List.cons_append]
    exact dropBlank_append _ hsolid
  . simp only [Word.respaced, hmore, List.cons_append]
    exact hskip

theorem Run.dropBlankEnd (h : Run operand ws rest) (hne : ws ≠ []) (gap : List Char) :
    Text.dropBlankEnd (charsOf ws ++ gap) = charsOf ws ++ Text.dropBlankEnd gap := by
  obtain ⟨used, last, hused, hlast⟩ := h.ends hne
  rw [hused, List.append_assoc, List.append_assoc, List.singleton_append, List.singleton_append,
    dropBlankEnd_append gap hlast]

theorem Run.trim {text : String} (h : Run true (w :: ws) blank)
    (hblank : ∀ c ∈ blank, Text.isBlank c = true)
    (htext : text.toList = charsOf (w :: ws) ++ blank) :
    ∃ newline, (Text.trim text).toList = charsOf (w.respaced (Text.dropBlank w.gap) newline :: ws) ∧
      Run true (w.respaced (Text.dropBlank w.gap) newline :: ws) [] := by
  obtain ⟨newline, hdrop, hrun⟩ := h.dropBlank
  refine ⟨newline, ?_, hrun.agrees .nil⟩
  have hend : Text.dropBlankEnd blank = [] := by
    rw [Text.dropBlankEnd, List.reverse_eq_nil_iff, List.dropWhile_eq_nil_iff]
    intro c hc
    exact hblank c (List.mem_reverse.mp hc)
  rw [Text.trim, String.toList_ofList, htext, hdrop, hrun.dropBlankEnd (List.cons_ne_nil _ _), hend,
    List.append_nil]

theorem afterGap_blank (hgap : ∀ c ∈ gap, Text.isBlank c = true) (newline : Bool) :
    ∃ found, ∀ cs, afterGap newline (gap ++ cs) = afterGap found cs := by
  induction gap generalizing newline with
  | nil => exact ⟨newline, fun _ => rfl⟩
  | cons c gap ih =>
    rw [List.forall_mem_cons] at hgap
    obtain ⟨found, hskip⟩ := ih hgap.2 (newline || c == '\n')
    refine ⟨found, fun cs => ?_⟩
    rw [← hskip, List.cons_append, afterGap, afterGap.go, if_pos hgap.1]
    rfl

theorem Word.Starts.respaced (h : w.Starts operand rest)
    (hblank : ∀ c ∈ blank, Text.isBlank c = true) :
    ∃ newline, (w.respaced blank newline).Starts operand rest := by
  obtain ⟨newline, hskip⟩ := afterGap_blank hblank false
  refine ⟨newline, ?_, h.text⟩
  obtain ⟨c, more, hmore, _⟩ := h.text
  have hstart := h.gap
  rw [hmore, List.cons_append] at hstart
  obtain ⟨hsolid, hcomment⟩ := afterGap_token hstart
  simp only [Word.respaced, hmore, List.cons_append, hskip]
  exact afterGap_of_token hsolid hcomment

end Token
end ComponentCompiler
