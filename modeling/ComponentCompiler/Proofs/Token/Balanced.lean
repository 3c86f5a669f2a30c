import ComponentCompiler.Proofs.Token.Window
import ComponentCompiler.Token.Group

/-!
This module contains words whose brackets match. They nest into items without an error, and what
stands between the brackets of a group or of a slot consists of such words.
-/

namespace ComponentCompiler
namespace Token

variable {rest next gap : List Char} {ws vs : List Word} {opened opened' outer : List Bracket}

/-- The brackets that are open before these words, the last one first, and those that are open after
them. -/
def Nesting : List Bracket → List Word → List Bracket → Prop
  | opened, [], opened' => opened = opened'
  | opened, w :: ws, opened' =>
    ∃ c mid, w.text.head? = some c ∧ Nests opened c mid ∧ Nesting mid ws opened'

theorem nesting_append :
    Nesting opened (ws ++ vs) opened' ↔ ∃ mid, Nesting opened ws mid ∧ Nesting mid vs opened' := by
  induction ws generalizing opened with
  | nil => simp [Nesting]
  | cons w ws ih =>
    simp only [List.cons_append, Nesting, ih]
    constructor
    . rintro ⟨c, next, hc, hnests, mid, hws, hvs⟩
      exact ⟨mid, ⟨c, next, hc, hnests, hws⟩, hvs⟩
    . rintro ⟨mid, ⟨c, next, hc, hnests, hws⟩, hvs⟩
      exact ⟨c, next, hc, hnests, mid, hws, hvs⟩

theorem eq_opening_of_ofOpening? (h : Bracket.ofOpening? c = some bracket) :
    c = bracket.opening := by
  have := List.find?_some h
  simp only [beq_iff_eq] at this
  exact this.symm

theorem lexeme_bracket {kind : Kind} (hc : c ∈ ['(', '[', '\x7b', ')', ']', '\x7d'])
    (h : lexeme template markup operand c cs = .ok (kind, rest)) : kind = .punct ∧ rest = cs := by
  rw [lexeme_ok] at h
  cases h with
  | string hquote => rcases hquote with rfl | rfl <;> simp at hc
  | template htick => simp [htick] at hc
  | number hnumber =>
    simp only [List.mem_cons, List.not_mem_nil, or_false] at hc
    rcases hc with rfl | rfl | rfl | rfl | rfl | rfl <;>
      simp [startsNumber, Text.isAsciiDigit] at hnumber
  | name hname =>
    simp only [List.mem_cons, List.not_mem_nil, or_false] at hc
    rcases hc with rfl | rfl | rfl | rfl | rfl | rfl <;>
      simp [isNameStart, Text.isAsciiLetter] at hname
  | markup hopen => simp [hopen] at hc
  | regex hslash => simp [hslash] at hc
  | operator =>
    refine ⟨rfl, operatorRest_of_not_mem ?_⟩
    simp only [List.mem_cons, List.not_mem_nil, or_false] at hc
    rcases hc with rfl | rfl | rfl | rfl | rfl | rfl <;> decide

namespace Word

variable {w : Word}

theorem Starts.bracket (h : w.Starts operand rest) (hhead : w.text.head? = some c)
    (hc : c ∈ ['(', '[', '\x7b', ')', ']', '\x7d']) : w.kind = .punct ∧ w.text = [c] := by
  obtain ⟨_, d, more, htext, hread⟩ := h
  obtain rfl : d = c := by simpa [htext] using hhead
  obtain ⟨hkind, hrest⟩ := lexeme_bracket hc (hread more.length (Nat.le_refl _))
  rw [List.self_eq_append_left] at hrest
  exact ⟨hkind, by rw [htext, hrest]⟩

theorem find?_bracket {side : Bracket → Char} {text : List Char} (hhead : text.head? = some c)
    (hside : ∀ b, side b = c → text = [c]) :
    Bracket.all.find? (fun b => (side b).toString == String.ofList text)
      =
    Bracket.all.find? (side · == c) := by
  congr
  funext b
  rw [Bool.eq_iff_iff, beq_iff_eq, beq_iff_eq]
  constructor
  . intro h
    have : [side b] = text := by simpa using congrArg String.toList h
    simpa [← this] using hhead
  . intro h
    rw [hside b h, ← h]
    rfl

theorem Starts.opens? (h : w.Starts operand rest) (hhead : w.text.head? = some c) (pos : Nat) :
    (w.token pos).opens? = Bracket.ofOpening? c := by
  have hside : ∀ b, Bracket.opening b = c → w.kind = .punct ∧ w.text = [c] := by
    intro b hb
    exact h.bracket hhead (by cases b <;> simp [← hb, Bracket.opening])
  have hfind := find?_bracket hhead fun b hb => (hside b hb).2
  unfold Token.opens? Word.token
  dsimp only
  split
  . exact hfind
  next hkind =>
    symm
    rw [Bracket.ofOpening?, List.find?_eq_none]
    intro b _ hb
    exact hkind (hside b (by simpa using hb)).1

theorem Starts.closes? (h : w.Starts operand rest) (hhead : w.text.head? = some c) (pos : Nat) :
    (w.token pos).closes? = Bracket.ofClosing? c := by
  have hside : ∀ b, Bracket.closing b = c → w.kind = .punct ∧ w.text = [c] := by
    intro b hb
    exact h.bracket hhead (by cases b <;> simp [← hb, Bracket.closing])
  have hfind := find?_bracket hhead fun b hb => (hside b hb).2
  unfold Token.closes? Word.token
  dsimp only
  split
  . exact hfind
  next hkind =>
    symm
    rw [Bracket.ofClosing?, List.find?_eq_none]
    intro b _ hb
    exact hkind (hside b (by simpa using hb)).1

end Word

namespace group

variable {stack : List Open} {items : List Item}

theorem go_opening (h : t.opens? = some bracket) :
    go stack items (t :: ts) = go (⟨bracket, t, items⟩ :: stack) [] ts := by
  rw [go.eq_def]
  simp [h]

theorem go_closing (hopen : t.opens? = none) (hclose : t.closes? = some o.bracket) :
    go (o :: stack) items (t :: ts)
      =
    go stack (.group o.bracket o.opener items.reverse t :: o.before) ts := by
  rw [go.eq_def]
  simp [hopen, hclose]

theorem go_other (hopen : t.opens? = none) (hclose : t.closes? = none) :
    go stack items (t :: ts) = go stack (.token t :: items) ts := by
  rw [go.eq_def]
  simp [hopen, hclose]

theorem go_of_nesting (hrun : Run operand ws rest) (h : Nesting (stack.map Open.bracket) ws opened')
    (items : List Item) (pos : Nat) :
    ∃ stack' items', stack'.map Open.bracket = opened' ∧
      ∀ ts, go stack items (tokensAt pos ws ++ ts) = go stack' items' ts := by
  induction ws generalizing operand pos stack items with
  | nil => exact ⟨stack, items, h, fun _ => rfl⟩
  | cons w ws ih =>
    obtain ⟨c, mid, hc, hnests, hws⟩ := h
    have hopens := hrun.1.opens? hc pos
    have hcloses := hrun.1.closes? hc pos
    simp only [tokensAt, List.cons_append]
    generalize hinner : stack.map Open.bracket = opened at hnests
    cases hnests with
    | opening hopen =>
      rw [hopen] at hopens
      simp only [go_opening hopens]
      exact ih hrun.2 (by simpa [hinner] using hws) _ _
    | closing hopen hclose =>
      obtain ⟨o, stack, rfl, rfl, rfl⟩ := List.map_eq_cons_iff.mp hinner
      rw [hopen] at hopens
      rw [hclose] at hcloses
      simp only [go_closing hopens hcloses]
      exact ih hrun.2 hws _ _
    | other hopen hclose =>
      rw [hopen] at hopens
      rw [hclose] at hcloses
      simp only [go_other hopens hcloses]
      exact ih hrun.2 (by simpa [hinner] using hws) _ _

end group

theorem group_of_nesting (hrun : Run operand ws rest) (h : Nesting [] ws []) (pos : Nat) :
    ∃ items, group (tokensAt pos ws) = .ok items := by
  obtain ⟨stack, items, hstack, hgo⟩ := @group.go_of_nesting _ _ _ [] _ hrun h [] pos
  rw [List.map_eq_nil_iff] at hstack
  subst hstack
  have hgo := hgo []
  rw [List.append_nil] at hgo
  exact ⟨items.reverse, hgo⟩

theorem flattenAll_append (items more : List Item) :
    Item.flattenAll (items ++ more) = Item.flattenAll items ++ Item.flattenAll more := by
  induction items with
  | nil => rfl
  | cons item items ih => simp [Item.flattenAll, ih]

theorem flattenAll_reverse_cons (item : Item) (items : List Item) :
    Item.flattenAll (item :: items).reverse = Item.flattenAll items.reverse ++ item.flatten := by
  rw [List.reverse_cons, flattenAll_append]
  simp [Item.flattenAll]

def flattenOpen (stack : List Open) : List Token :=
  stack.reverse.flatMap fun o => Item.flattenAll o.before.reverse ++ [o.opener]

theorem flattenOpen_cons (o : Open) (stack : List Open) :
    flattenOpen (o :: stack) =
      flattenOpen stack ++ (Item.flattenAll o.before.reverse ++ [o.opener]) := by
  simp [flattenOpen]

theorem group.flatten_go {stack : List Open} {items result : List Item} {tokens : List Token}
    (h : group.go stack items tokens = .ok result) :
    Item.flattenAll result = flattenOpen stack ++ Item.flattenAll items.reverse ++ tokens := by
  fun_induction group.go stack items tokens with
  | case1 items =>
    cases h
    simp [flattenOpen]
  | case2 => simp at h
  | case3 stack items t ts bracket hopen ih =>
    rw [ih h, flattenOpen_cons]
    simp [Item.flattenAll]
  | case4 => simp at h
  | case5 items t ts hopen o stack hclose ih =>
    rw [ih h, flattenOpen_cons, flattenAll_reverse_cons]
    simp [Item.flatten]
  | case6 => simp at h
  | case7 stack items t ts hopen hclose ih =>
    rw [ih h, flattenAll_reverse_cons]
    simp [Item.flatten]

theorem flattenAll_group (h : group tokens = .ok items) : Item.flattenAll items = tokens := by
  simpa [flattenOpen, Item.flattenAll] using group.flatten_go h

theorem words_of_groupRest (h : groupRest n bracket left opened operand cs = .ok rest) :
    ∃ ws gap, cs = charsOf ws ++ (gap ++ bracket.closing :: rest) ∧
      Run operand ws (gap ++ bracket.closing :: rest) ∧ Nesting opened ws [] ∧
      GapBefore gap (bracket.closing :: rest) := by
  induction n generalizing opened operand cs with
  | zero => simp [groupRest] at h
  | succ n ih =>
    rw [groupRest_succ_ok] at h
    cases h with
    | @stop newline c more _ hgap hread hinner _ hclose =>
      obtain rfl := eq_closing_of_ofClosing? hclose
      rw [lexeme_closing] at hread
      cases hread
      obtain ⟨gap, rfl, _⟩ := afterGap_append hgap
      exact ⟨[], gap, rfl, trivial, hinner, .inr ⟨newline, hgap⟩⟩
    | @token newline c more after opened' kind hgap hread hnests hafter =>
      obtain ⟨w, hstarts, rfl, hmore, rfl, _⟩ := Word.starts_of_lexeme hgap hread
      obtain ⟨ws, gap, rfl, hrun, hnesting, hgap⟩ := ih hafter
      rw [hmore, taken_append] at hrun
      refine ⟨w :: ws, gap, ?_, ⟨hstarts, hrun⟩, ?_, hgap⟩
      . simp [Word.chars]
      . refine ⟨c, opened', ?_, hnests, hnesting⟩
        obtain ⟨d, text, htext, _⟩ := hstarts.text
        rw [htext] at hmore ⊢
        cases hmore
        rfl

def Balanced (cs : List Char) : Prop :=
  ∃ ws gap, cs = charsOf ws ++ gap ∧ Run true ws gap ∧ Nesting [] ws [] ∧ GapBefore gap []

def BalancedWindow (text : String) (start stop : Nat) : Prop :=
  ∃ ws gap rest, text.toList.drop start = charsOf ws ++ (gap ++ rest) ∧ Run true ws (gap ++ rest) ∧
    Nesting [] ws [] ∧ GapBefore gap rest ∧ stop = start + (charsOf ws ++ gap).length

theorem Balanced.window {text : String} (h : Balanced text.toList) :
    BalancedWindow text 0 text.length := by
  obtain ⟨ws, gap, htext, hrun, hnesting, hgap⟩ := h
  refine ⟨ws, gap, [], by simpa using htext, by simpa using hrun, hnesting, hgap, ?_⟩
  rw [← String.length_toList, htext, Nat.zero_add]

theorem balanced_of_groupRest (h : groupRest n bracket left [] true cs = .ok rest) :
    ∃ content, cs = content ++ bracket.closing :: rest ∧ Balanced content := by
  obtain ⟨ws, gap, hcs, hrun, hnesting, hgap⟩ := words_of_groupRest h
  refine ⟨charsOf ws ++ gap, by simpa using hcs, ws, gap, rfl, ?_, hnesting, hgap.nil⟩
  exact hrun.agrees (.of_initial (List.prefix_append _ _))

theorem BalancedWindow.items {text : String} {start stop : Nat}
    (h : BalancedWindow text start stop) :
    ∃ tokens items, scanWindow text start stop = .ok tokens ∧ group tokens = .ok items := by
  obtain ⟨ws, gap, rest, htext, hrun, hnesting, hgap, hstop⟩ := h
  obtain ⟨items, hitems⟩ := group_of_nesting hrun hnesting start
  exact ⟨tokensAt start ws, items, (rescans_of_run hrun hgap htext hstop).1, hitems⟩

end Token
end ComponentCompiler
