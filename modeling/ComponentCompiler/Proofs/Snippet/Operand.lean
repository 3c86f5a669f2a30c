import ComponentCompiler.Proofs.Text.Slice
import ComponentCompiler.Proofs.Token.Fragment
import ComponentCompiler.Snippet.Form

/-!
This module contains the parts that the forms of an expression cut out of it. Each of them stands
where an operand is due: at the start, after an operator, a separator or a bracket, or after the
word that returns it. It is shorter than the expression, and only the text matters for what it is.
-/

namespace ComponentCompiler
namespace Snippet

open Token (dueAfter)

variable {items part before after : List Item} {item : Item}

/-- Items of an expression that do not make up all of it and stand where an operand is due, maybe
inside brackets. -/
inductive Operand : List Item → List Item → Prop where
  | among {before part after : List Item} (hpart : part ≠ [])
      (hdue : dueAfter (Item.flattenAll before) = true)
      (hrest : before ++ after ≠ []) : Operand (before ++ (part ++ after)) part
  | inside {items before part after : List Item} {bracket : Bracket} {opener closer : Token}
      (hmem : .group bracket opener (before ++ (part ++ after)) closer ∈ items) (hpart : part ≠ [])
      (hdue : dueAfter (Item.flattenAll before) = true) : Operand items part

theorem dueAfter_concat (items : List Item) (t : Token) :
    dueAfter (Item.flattenAll (items ++ [.token t])) = Token.operandAfter t.kind t.value := by
  rw [Token.flattenAll_append, dueAfter, Item.flattenAll, Item.flatten, Item.flattenAll,
    List.append_nil, List.getLast?_concat]

theorem dueAfter_punct (items : List Item) (hitem : item.isPunct value = true)
    (hvalue : value ∉ [")", "]", "\x7d", "++", "--"]) :
    dueAfter (Item.flattenAll (items ++ [item])) = true := by
  cases item with
  | group => simp [Item.isPunct] at hitem
  | token t =>
    simp only [Item.isPunct, Token.isPunct, Bool.and_eq_true, beq_iff_eq] at hitem
    rw [dueAfter_concat, hitem.1, hitem.2, Token.operandAfter]
    simpa using hvalue

theorem dueAfter_return (items : List Item) (hitem : item.isName "return" = true) :
    dueAfter (Item.flattenAll (items ++ [item])) = true := by
  cases item with
  | group => simp [Item.isName] at hitem
  | token t =>
    simp only [Item.isName, Token.isName, Bool.and_eq_true, beq_iff_eq] at hitem
    rw [dueAfter_concat, hitem.1, hitem.2]
    decide

theorem split_of_dropWhile {p : α → Bool} {items rest : List α} {item : α}
    (h : items.dropWhile p = item :: rest) :
    items = items.takeWhile p ++ item :: rest ∧ p item = false := by
  constructor
  . rw [← h, List.takeWhile_append_dropWhile]
  . have hhead := List.head?_dropWhile_not p items
    rw [h] at hhead
    simpa using hhead

theorem drop_length_takeWhile (p : α → Bool) (items : List α) :
    items.drop (items.takeWhile p).length = items.dropWhile p := by
  have hsplit : items.takeWhile p ++ items.dropWhile p = items := List.takeWhile_append_dropWhile
  generalize items.takeWhile p = before at hsplit ⊢
  conv => lhs; rw [← hsplit]
  exact List.drop_left

theorem splitLast?_eq_some {p : Item → Bool} (h : splitLast? p items = some (before, after)) :
    ∃ item, items = before ++ item :: after ∧ p item = true := by
  unfold splitLast? at h
  split at h
  . simp at h
  . next item rest hdrop =>
    obtain ⟨hreverse, hitem⟩ := split_of_dropWhile hdrop
    generalize items.reverse.takeWhile (!p ·) = taken at hreverse
    have hitems : items = rest.reverse ++ item :: taken.reverse := by
      rw [← List.reverse_inj, hreverse]
      simp
    cases h
    refine ⟨item, ?_, by simpa using hitem⟩
    rw [hitems, List.append_cons, List.drop_left' (by simp), ← List.append_cons]

theorem splitColon?_eq_some {taken first second : List Item}
    (h : splitColon? depth taken items = some (first, second)) :
    ∃ middle colon, first = taken.reverse ++ middle ∧ items = middle ++ colon :: second ∧
      colon.isPunct ":" = true := by
  fun_induction splitColon? depth taken items with
  | case1 => simp at h
  | case2 _ _ item _ _ ih =>
    obtain ⟨middle, colon, rfl, rfl, hcolon⟩ := ih h
    exact ⟨item :: middle, colon, by simp, rfl, hcolon⟩
  | case3 _ item _ _ hcolon =>
    cases h
    exact ⟨[], item, by simp, rfl, hcolon⟩
  | case4 _ item _ _ _ _ ih =>
    obtain ⟨middle, colon, rfl, rfl, hcolon⟩ := ih h
    exact ⟨item :: middle, colon, by simp, rfl, hcolon⟩
  | case5 _ _ item _ _ _ ih =>
    obtain ⟨middle, colon, rfl, rfl, hcolon⟩ := ih h
    exact ⟨item :: middle, colon, by simp, rfl, hcolon⟩

theorem ternary_eq_some {condition first second : List Item}
    (hcondition : items.takeWhile (!·.isPunct "?") = condition)
    (h : splitColon? 0 [] (items.drop (condition.length + 1)) = some (first, second)) :
    ∃ mark colon, items = condition ++ mark :: (first ++ colon :: second) ∧
      mark.isPunct "?" = true ∧ colon.isPunct ":" = true := by
  obtain ⟨middle, colon, hfirst, hdrop, hcolon⟩ := splitColon?_eq_some h
  rw [List.reverse_nil, List.nil_append] at hfirst
  subst hfirst
  cases hrest : items.dropWhile (!·.isPunct "?") with
  | nil =>
    have hitems := List.takeWhile_append_dropWhile (p := fun i : Item => !i.isPunct "?")
      (l := items)
    rw [hrest, hcondition, List.append_nil] at hitems
    rw [hitems, List.drop_eq_nil_of_le (Nat.le_succ _)] at hdrop
    simp at hdrop
  | cons mark rest =>
    obtain ⟨hitems, hmark⟩ := split_of_dropWhile hrest
    rw [hcondition] at hitems
    rw [hitems, List.append_cons, List.drop_left' (by simp)] at hdrop
    rw [hdrop] at hitems
    exact ⟨mark, colon, hitems, by simpa using hmark, hcolon⟩

theorem operand_before (hitem : before ≠ []) : Operand (before ++ item :: after) before :=
  @Operand.among [] before (item :: after) hitem rfl (by simp)

theorem operand_after (hitem : item.isPunct value = true)
    (hvalue : value ∉ [")", "]", "\x7d", "++", "--"]) (hafter : after ≠ []) :
    Operand (before ++ item :: after) after := by
  have hitems : before ++ item :: after = (before ++ [item]) ++ (after ++ []) := by simp
  rw [hitems]
  exact .among hafter (dueAfter_punct before hitem hvalue) (by simp)

theorem operand_between {next : Item} {rest : List Item} (hitem : item.isPunct value = true)
    (hvalue : value ∉ [")", "]", "\x7d", "++", "--"]) (hpart : part ≠ []) :
    Operand (before ++ item :: (part ++ next :: rest)) part := by
  have hitems : before ++ item :: (part ++ next :: rest) =
      (before ++ [item]) ++ (part ++ next :: rest) := by simp
  rw [hitems]
  exact .among hpart (dueAfter_punct before hitem hvalue) (by simp)

theorem operand_of_split {bracket : Bracket} {opener closer : Token} {inner : List Item}
    (hmem : .group bracket opener inner closer ∈ items) (hpart : part ∈ Item.split "," inner) :
    Operand items part := by
  obtain ⟨hsplit, hne⟩ := List.mem_filter.mp hpart
  obtain ⟨before, after, rfl, hbefore⟩ := Text.exists_of_mem_splitOnP hsplit
  refine .inside hmem (by simpa using hne) ?_
  rcases hbefore with rfl | ⟨more, item, rfl, hitem⟩
  . rfl
  . exact dueAfter_punct more hitem (by decide)

theorem operand_of_returned {bracket : Bracket} {opener closer : Token} {inner rest : List Item}
    {word : Item} (hmem : .group bracket opener inner closer ∈ items)
    (hdrop : inner.drop (inner.takeWhile (!·.isName "return")).length = word :: rest)
    (hne : Item.before ";" rest ≠ []) : Operand items (Item.before ";" rest) := by
  rw [drop_length_takeWhile] at hdrop
  obtain ⟨hsplit, hword⟩ := split_of_dropWhile hdrop
  have hrest : rest = Item.before ";" rest ++ rest.dropWhile (!·.isPunct ";") :=
    List.takeWhile_append_dropWhile.symm
  rw [hrest, List.append_cons] at hsplit
  rw [hsplit] at hmem
  exact .inside hmem hne (dueAfter_return _ (by simpa using hword))

variable {s s' : Snippet}

theorem items_congr (h : s.text = s'.text) : s.items = s'.items := by
  rw [items, items, h]

theorem text_sub (s : Snippet) (start stop : Nat) :
    (s.sub start stop).text = Text.slice s.text start stop := rfl

theorem text_sub_congr (h : s.text = s'.text) (start stop : Nat) :
    (s.sub start stop).text = (s'.sub start stop).text := by
  rw [text_sub, text_sub, h]

theorem text_strip_congr (h : s.text = s'.text) : s.strip.text = s'.strip.text := by
  rw [strip, strip, text_sub, text_sub, h]

theorem text_covering_congr (h : s.text = s'.text) (part : List Item) :
    (s.covering part).text = (s'.covering part).text := by
  unfold covering
  split
  . exact text_strip_congr (text_sub_congr h _ _)
  . exact text_sub_congr h 0 0

theorem arrowHead?_congr (h : s.text = s'.text) (head : Item) :
    s.arrowHead? head = s'.arrowHead? head := by
  unfold arrowHead?
  split
  . rfl
  . simp only [text_covering_congr h]
  . rfl

theorem dependencies_congr (h : s.text = s'.text) (reactive bound : List String) :
    s.dependencies reactive bound = s'.dependencies reactive bound := by
  rw [dependencies, dependencies, valueRoots, valueRoots, h]

theorem containsMarkup_congr (h : s.text = s'.text) : s.containsMarkup = s'.containsMarkup := by
  rw [containsMarkup, containsMarkup, h]

theorem length_sub_le (s : Snippet) (start stop : Nat) :
    (s.sub start stop).text.length ≤ stop - start := by
  rw [text_sub, Text.slice, String.length_ofList]
  exact List.length_take_le _ _

theorem length_sub_le_length (s : Snippet) (start stop : Nat) :
    (s.sub start stop).text.length ≤ s.text.length := by
  rw [text_sub, Text.slice, String.length_ofList, List.length_take, List.length_drop,
    String.length_toList]
  omega

theorem length_strip_le (s : Snippet) : s.strip.text.length ≤ s.text.length :=
  length_sub_le_length s _ _

theorem length_covering_lt (hitems : s.items = .ok items) (h : Operand items part) :
    (s.covering part).text.length < s.text.length := by
  obtain ⟨tokens, hscan, hgroup⟩ := bind_eq_ok.mp hitems
  have hflatten := Token.flattenAll_group hgroup
  suffices hrange : ∃ first last, part.head? = some first ∧ part.getLast? = some last ∧
      last.stop - first.start < s.text.length by
    obtain ⟨first, last, hfirst, hlast, hlt⟩ := hrange
    rw [covering, hfirst, hlast]
    exact Nat.lt_of_le_of_lt (Nat.le_trans (length_strip_le _) (length_sub_le s _ _)) hlt
  have hends : part ≠ [] → ∃ first last, part.head? = some first ∧ part.getLast? = some last ∧
      first ∈ part ∧ last ∈ part := by
    intro hne
    refine ⟨part.head hne, part.getLast hne, List.head?_eq_some_head hne,
      List.getLast?_eq_some_getLast hne, ?_, ?_⟩
    . exact List.head_mem hne
    . exact List.getLast_mem hne
  cases h with
  | @among before _ after hpart _ hrest =>
    obtain ⟨first, last, hfirst, hlast, hmem, hmem'⟩ := hends hpart
    refine ⟨first, last, hfirst, hlast, ?_⟩
    obtain ⟨hincreasing, hstop⟩ := Item.increasing_of_sublist hscan (by rw [hflatten])
    have hlastStop := hstop last (by simp [hmem'])
    rw [List.map_append, List.map_append, increasing_append, increasing_append] at hincreasing
    obtain ⟨hbefore, ⟨hparts, hafter, happart⟩, hbetween⟩ := hincreasing
    rcases List.eq_nil_or_concat before with rfl | ⟨more, item, rfl⟩
    . -- then something follows, which takes up room after the operand
      obtain ⟨item, rest, rfl⟩ := List.exists_cons_of_ne_nil (by simpa using hrest)
      have hnonempty := hafter.nonempty item.range (by simp)
      have hitem := hstop item (by simp)
      have happart := happart last.range (List.mem_map_of_mem hmem') item.range (by simp)
      simp only [Item.range] at hnonempty happart
      omega
    . have hnonempty := hbefore.nonempty item.range (by simp)
      have hbetween := hbetween item.range (by simp) first.range
        (by simp [List.mem_map_of_mem hmem])
      have hfirstRange := hparts.nonempty first.range (List.mem_map_of_mem hmem)
      have hfirstStop := hstop first (by simp [hmem])
      simp only [Item.range] at hnonempty hbetween hfirstRange
      omega
  | @inside _ before _ after bracket opener closer hgroup' hpart _ =>
    obtain ⟨first, last, hfirst, hlast, hmem, hmem'⟩ := hends hpart
    refine ⟨first, last, hfirst, hlast, ?_⟩
    have hsub :
        (Item.flattenAll (.token opener :: (before ++ (part ++ after)))).Sublist tokens := by
      rw [← hflatten, Item.flattenAll_eq items]
      refine List.Sublist.trans ?_ (List.sublist_flatten_of_mem (List.mem_map_of_mem hgroup'))
      rw [Item.flatten, Item.flattenAll, Item.flatten, List.singleton_append]
      exact (List.sublist_append_left _ _).cons_cons opener
    obtain ⟨hincreasing, hstop⟩ := Item.increasing_of_sublist hscan hsub
    have hlastStop := hstop last (by simp [hmem'])
    have hopenerStop : opener.stop ≤ s.text.length := hstop (.token opener) (by simp)
    obtain ⟨hopener, _, hafter⟩ := increasing_cons.mp hincreasing
    have hopener : opener.start < opener.stop := hopener
    have hfirstAfter : opener.stop ≤ first.start :=
      hafter first.range (List.mem_map_of_mem (by simp [hmem]))
    omega

end Snippet
end ComponentCompiler
