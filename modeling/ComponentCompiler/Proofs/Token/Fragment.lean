import ComponentCompiler.Proofs.Token.Range
import ComponentCompiler.Proofs.Token.Slot

/-!
This module contains the items of a text as windows of it. Neighbouring items are words whose
brackets match, and the window from the first of them to the last can be read by itself, unless its
first token is an operator that starts markup or a regular expression where an operand is due.
-/

namespace ComponentCompiler

/-- The brackets of the item match, and no token but them is a bracket. -/
inductive Item.Matched : Item → Prop where
  | token {t : Token} (hopen : t.opens? = none) (hclose : t.closes? = none) : Matched (.token t)
  | group {bracket : Bracket} {opener closer : Token} {items : List Item}
      (hopener : opener.opens? = some bracket)
      (hopen : closer.opens? = none) (hclose : closer.closes? = some bracket)
      (hitems : ∀ item ∈ items, Matched item) :
    Matched (.group bracket opener items closer)

namespace Token

variable {text : String} {start stop pos : Nat} {rest : List Char} {w : Word} {ws vs : List Word}

/-- Operators that start markup or a regular expression if an operand is due. -/
def ambiguous : List String :=
  ["/", "/=", "<"]

theorem operatorRest_slash (cs : List Char) :
    operatorRest ('/' :: cs) = cs ∨ ∃ more, cs = '=' :: more ∧ operatorRest ('/' :: cs) = more := by
  cases cs with
  | nil => exact .inl rfl
  | cons c cs =>
    by_cases hc : c = '='
    . rw [hc]
      exact .inr ⟨cs, rfl, rfl⟩
    . left
      simp [operatorRest, operators, List.isPrefixOf, Ne.symm hc]

theorem operatorRest_less (h : looksLikeMarkup cs = true) : operatorRest ('<' :: cs) = cs := by
  cases cs with
  | nil => rfl
  | cons c cs =>
    have h : (c == '>' || Text.isLetter c) = true := h
    have hequal : c ≠ '=' := by
      rintro rfl
      exact absurd h (by decide +kernel)
    have hless : c ≠ '<' := by
      rintro rfl
      exact absurd h (by decide +kernel)
    simp [operatorRest, operators, List.isPrefixOf, hequal.symm, hless.symm]

theorem Word.Starts.due (h : w.Starts operand rest)
    (hpunct : w.kind = .punct → String.ofList w.text ∉ ambiguous) : w.Starts true rest := by
  obtain ⟨hgap, c, more, htext, hread⟩ := h
  refine ⟨hgap, c, more, htext, ?_⟩
  intro m hm
  have hread := hread m hm
  rw [lexeme_ok] at hread ⊢
  generalize hkind : w.kind = kind at hread hpunct
  generalize hcs : more ++ rest = cs at hread ⊢
  cases hread with
  | string hquote hread => exact .string hquote hread
  | template htick hread => exact .template htick hread
  | number hnumber => exact .number hnumber
  | name hname => exact .name hname
  | markup hopen _ hlooks hread => exact .markup hopen rfl hlooks hread
  | regex hslash _ hread => exact .regex hslash rfl hread
  | operator hquote hnumber hname =>
    have htext' := hpunct rfl
    refine .operator hquote hnumber hname ?_ ?_
    . rintro rfl -
      by_contra hlooks
      rw [Bool.not_eq_false] at hlooks
      rw [operatorRest_less hlooks, eq_comm, List.self_eq_append_left] at hcs
      simp [htext, hcs, ambiguous] at htext'
    . rintro rfl
      exfalso
      rcases operatorRest_slash cs with hrest | ⟨after, hafter, hrest⟩
      . rw [hrest, eq_comm, List.self_eq_append_left] at hcs
        simp [htext, hcs, ambiguous] at htext'
      . rw [hrest, hafter, ← List.singleton_append, List.append_cancel_right_eq] at hcs
        simp [htext, hcs, ambiguous] at htext'

theorem opens?_of_ambiguous {t : Token} (h : t.value ∈ ambiguous) : t.opens? = none := by
  have hnone : ∀ value ∈ ambiguous, Bracket.all.find? (·.opening.toString == value) =
      none := by decide
  unfold opens?
  split
  . exact hnone t.value h
  . rfl

def dueAfter (tokens : List Token) : Bool :=
  match tokens.getLast? with
  | none => true
  | some t => operandAfter t.kind t.value

theorem operandAt_eq_dueAfter (ws : List Word) (pos : Nat) :
    operandAt true ws = dueAfter (tokensAt pos ws) := by
  rcases List.eq_nil_or_concat ws with rfl | ⟨ws, w, rfl⟩
  . rfl
  . rw [List.concat_eq_append, operandAt_concat, tokensAt_append, dueAfter]
    simp [tokensAt, Word.operandAfter, Word.token]

theorem group.matched_go {stack : List Open} {items result : List Item} {tokens : List Token}
    (h : group.go stack items tokens = .ok result) (hitems : ∀ item ∈ items, item.Matched)
    (hstack : ∀ o ∈ stack, o.opener.opens? = some o.bracket ∧ ∀ item ∈ o.before, item.Matched) :
    ∀ item ∈ result, item.Matched := by
  fun_induction group.go stack items tokens with
  | case1 items =>
    cases h
    simpa using hitems
  | case2 => simp at h
  | case3 stack items t ts bracket hopen ih =>
    exact ih h (by simp) (List.forall_mem_cons.mpr ⟨⟨hopen, hitems⟩, hstack⟩)
  | case4 => simp at h
  | case5 items t ts hopen o stack hclose ih =>
    rw [List.forall_mem_cons] at hstack
    refine ih h (List.forall_mem_cons.mpr ⟨?_, hstack.1.2⟩) hstack.2
    exact .group hstack.1.1 hopen hclose (by simpa using hitems)
  | case6 => simp at h
  | case7 stack items t ts hclose hopen ih =>
    exact ih h (List.forall_mem_cons.mpr ⟨.token hopen hclose, hitems⟩) hstack

theorem matched_of_group (h : group tokens = .ok items) : ∀ item ∈ items, item.Matched :=
  group.matched_go h (by simp) (by simp)

theorem eq_append_of_tokensAt {first second : List Token} (h : tokensAt pos ws = first ++ second) :
    ∃ as bs, ws = as ++ bs ∧ tokensAt pos as = first ∧
      tokensAt (pos + (charsOf as).length) bs = second := by
  induction first generalizing pos ws with
  | nil => exact ⟨[], ws, rfl, rfl, h⟩
  | cons t first ih =>
    cases ws with
    | nil => simp [tokensAt] at h
    | cons w ws =>
      rw [tokensAt, List.cons_append, List.cons.injEq] at h
      obtain ⟨as, bs, rfl, has, hbs⟩ := ih h.2
      refine ⟨w :: as, bs, rfl, by rw [tokensAt, h.1, has], ?_⟩
      rw [← hbs, charsOf_cons, List.length_append, Nat.add_assoc]

theorem exists_head_of_token {w : Word} (hstarts : w.Starts operand rest)
    (hopen : (w.token pos).opens? = opens) (hclose : (w.token pos).closes? = closes) :
    ∃ c, w.text.head? = some c ∧ Bracket.ofOpening? c = opens ∧ Bracket.ofClosing? c = closes := by
  obtain ⟨c, more, htext, _⟩ := hstarts.text
  have hhead : w.text.head? = some c := by simp [htext]
  exact ⟨c,
    hhead, by rw [← hstarts.opens? hhead pos, hopen], by rw [← hstarts.closes? hhead pos, hclose]⟩

theorem nesting_flattenAll {items : List Item}
    (hitems : ∀ item ∈ items, ∀ {pos rest ws operand opened}, tokensAt pos ws = item.flatten →
      Run operand ws rest → Nesting opened ws opened)
    (hflatten : tokensAt pos ws = Item.flattenAll items) (hrun : Run operand ws rest) :
    Nesting opened ws opened := by
  induction items generalizing pos operand ws with
  | nil =>
    cases ws with
    | nil => rfl
    | cons w ws => simp [tokensAt, Item.flattenAll] at hflatten
  | cons item items ih =>
    rw [List.forall_mem_cons] at hitems
    obtain ⟨as, bs, rfl, has, hbs⟩ := eq_append_of_tokensAt hflatten
    rw [run_append] at hrun
    exact nesting_append.mpr ⟨opened, hitems.1 has hrun.1, ih hitems.2 hbs hrun.2⟩

theorem exists_word_of_singleton (h : tokensAt pos ws = [t]) : ∃ w, ws = [w] ∧ w.token pos = t := by
  match ws with
  | [] => simp [tokensAt] at h
  | [w] => exact ⟨w, rfl, by simpa [tokensAt] using h⟩
  | _ :: _ :: _ => simp [tokensAt] at h

theorem nesting_of_matched {item : Item} (h : item.Matched)
    (hflatten : tokensAt pos ws = item.flatten)
    (hrun : Run operand ws rest) : Nesting opened ws opened := by
  induction h generalizing pos operand ws rest opened with
  | @token t hopen hclose =>
    obtain ⟨w, rfl, rfl⟩ := exists_word_of_singleton hflatten
    obtain ⟨c, hc, hopen, hclose⟩ := exists_head_of_token hrun.1 hopen hclose
    exact ⟨c, opened, hc, .other hopen hclose, rfl⟩
  | @group bracket opener closer items hopener hopen hclose _ ih =>
    cases ws with
    | nil => simp [tokensAt, Item.flatten] at hflatten
    | cons w ws =>
      rw [tokensAt, Item.flatten, List.cons.injEq] at hflatten
      obtain ⟨rfl, hflatten⟩ := hflatten
      obtain ⟨as, bs, rfl, has, hbs⟩ := eq_append_of_tokensAt hflatten
      obtain ⟨v, rfl, rfl⟩ := exists_word_of_singleton hbs
      have hinner := run_append.mp hrun.2
      obtain ⟨c, hc, hopens, _⟩ := exists_head_of_token hrun.1 hopener rfl
      obtain ⟨d, hd, hopen, hclose⟩ := exists_head_of_token hinner.2.1 hopen hclose
      refine ⟨c, bracket :: opened, hc, .opening hopens,
        nesting_append.mpr ⟨bracket :: opened, ?_, ?_⟩⟩
      . exact nesting_flattenAll ih has hinner.1
      . exact ⟨d, opened, hd, .closing hopen hclose, rfl⟩

theorem nesting_of_items {items : List Item} (h : ∀ item ∈ items, item.Matched)
    (hflatten : tokensAt pos ws = Item.flattenAll items)
    (hrun : Run operand ws rest) : Nesting opened ws opened := by
  refine nesting_flattenAll ?_ hflatten hrun
  intro item hmem _ _ _ _ _
  exact nesting_of_matched (h item hmem)

def Fragment (text : String) (operand : Bool) (start stop : Nat) (w : Word) (ws : List Word) :
    Prop :=
  ∃ rest, text.toList.drop start = charsOf (w :: ws) ++ rest ∧ Run operand (w :: ws) rest ∧
    Nesting [] (w :: ws) [] ∧ w.gap = [] ∧ stop = start + (charsOf (w :: ws)).length

theorem Fragment.window (h : Fragment text true start stop w ws) :
    BalancedWindow text start stop := by
  obtain ⟨rest, htext, hrun, hnesting, _, hstop⟩ := h
  exact ⟨w :: ws, [], rest, htext, hrun, hnesting, .inl rfl, by simpa using hstop⟩

theorem Fragment.items (h : Fragment text true start stop w ws) :
    ∃ item more, (scanWindow text start stop >>= group) = .ok (item :: more) := by
  obtain ⟨rest, htext, hrun, hnesting, _, hstop⟩ := h
  obtain ⟨items, hitems⟩ := group_of_nesting hrun hnesting start
  have hrun : Run true (w :: ws) ([] ++ rest) := hrun
  have hscan := (rescans_of_run hrun (.inl rfl) htext (by simpa using hstop)).1
  rw [hscan, ok_bind, hitems]
  cases items with
  | nil =>
    have hflatten := flattenAll_group hitems
    simp [Item.flattenAll, tokensAt] at hflatten
  | cons item more => exact ⟨item, more, rfl⟩

theorem Fragment.stop_le (h : Fragment text operand start stop w ws) : stop ≤ text.length := by
  obtain ⟨rest, htext, hrun, _, _, rfl⟩ := h
  have hlength := congrArg List.length htext
  have htext_pos := List.length_pos_iff.mpr hrun.1.text_ne_nil
  simp only [List.length_drop, String.length_toList, charsOf_cons, Word.chars,
    List.length_append] at hlength ⊢
  omega

theorem Fragment.solid (h : Fragment text operand start stop w ws) :
    ∃ c cs, text.toList.drop start = c :: cs ∧ Text.isBlank c = false := by
  obtain ⟨rest, htext, ⟨⟨hgap, c, more, hmore, _⟩, _⟩, _, hnil, _⟩ := h
  rw [hmore] at hgap
  refine ⟨c, more ++ (charsOf ws ++ rest), ?_, (afterGap_token hgap).1⟩
  rw [htext, charsOf_cons, Word.chars, hnil, hmore]
  simp

theorem Fragment.due (h : Fragment text operand start stop w ws)
    (hpunct : w.kind = .punct → String.ofList w.text ∉ ambiguous) :
    Fragment text true start stop w ws := by
  obtain ⟨rest, htext, hrun, hrest⟩ := h
  exact ⟨rest, htext, ⟨hrun.1.due hpunct, hrun.2⟩, hrest⟩

theorem Fragment.slice (h : Fragment text operand start stop w ws) :
    Text.slice text start (w.token start).stop = String.ofList w.text := by
  obtain ⟨rest, htext, _, _, hgap, _⟩ := h
  rw [Text.slice, htext, charsOf_cons, Word.chars, hgap, List.nil_append, List.append_assoc]
  congr 1
  apply List.take_left'
  simp [Word.token, Word.chars, hgap]

theorem Fragment.extend {longer : String} (h : Fragment text operand start stop w ws)
    (hlonger : longer.toList.drop start = text.toList.drop start ++ more)
    (hmore : ∀ c, more.head? = some c → isNeutral c = true) :
    Fragment longer operand start stop w ws := by
  obtain ⟨rest, htext, hrun, hrest⟩ := h
  refine ⟨rest ++ more, ?_, hrun.agrees ?_, hrest⟩
  . rw [hlonger, htext, List.append_assoc]
  . have hagrees : Agrees (rest ++ []) (rest ++ more) := .append rest (.stop hmore)
    rwa [List.append_nil] at hagrees

theorem isHull_tokensAt (pos : Nat) (w : Word) (ws : List Word) :
    IsHull ((tokensAt pos (w :: ws)).map range)
      (pos + w.gap.length, pos + (charsOf (w :: ws)).length) := by
  refine ⟨rfl, ?_⟩
  induction ws generalizing pos w with
  | nil => simp [tokensAt, range, Word.token]
  | cons v ws ih =>
    have hlast : ((tokensAt pos (w :: v :: ws)).map range).getLast? =
        ((tokensAt (pos + w.chars.length) (v :: ws)).map range).getLast? := by
      rfl
    rw [hlast, ih]
    simp [Nat.add_assoc]

theorem run_of_items {before mine after : List Item}
    (h : (scan text >>= group) = .ok (before ++ (mine ++ after))) :
    ∃ ws pos rest, text.toList.drop pos = charsOf ws ++ rest ∧
      Run (dueAfter (Item.flattenAll before)) ws rest ∧
      tokensAt pos ws = Item.flattenAll mine ∧ ∀ item ∈ mine, item.Matched := by
  obtain ⟨tokens, hscan, hgroup⟩ := bind_eq_ok.mp h
  have hmatched := matched_of_group hgroup
  have hflatten := flattenAll_group hgroup
  obtain ⟨ws, rest, hrun, htext, rfl⟩ := scanFrom_ok hscan
  rw [flattenAll_append, flattenAll_append, eq_comm] at hflatten
  obtain ⟨pre, tail, rfl, hpre, htail⟩ := eq_append_of_tokensAt hflatten
  obtain ⟨part, post, rfl, hpart, _⟩ := eq_append_of_tokensAt htail
  obtain ⟨_, hrun⟩ := run_append.mp hrun
  rw [operandAt_eq_dueAfter _ 0, hpre] at hrun
  refine ⟨part, _, charsOf post ++ rest, ?_, (run_append.mp hrun).1, hpart, ?_⟩
  . rw [List.drop_zero] at htext
    rw [htext]
    simp
  . intro item hmem
    exact hmatched item (List.mem_append_right _ (List.mem_append_left _ hmem))

theorem fragment_of_items {before more after : List Item} {item : Item}
    (h : (scan text >>= group) = .ok (before ++ (item :: more ++ after)))
    (hhull : IsHull ((item :: more).map Item.range) (start, stop)) :
    ∃ w ws, Fragment text (dueAfter (Item.flattenAll before)) start stop w ws ∧
      tokensAt start (w :: ws) = startLine (Item.flattenAll (item :: more)) := by
  obtain ⟨ws, pos, rest, htext, hrun, hflatten, hmatched⟩ := run_of_items h
  have hhull := Item.isHull_flattenAll hhull
  rw [← hflatten] at hhull ⊢
  cases ws with
  | nil => exact absurd rfl hhull.ne_nil
  | cons w ws =>
    obtain ⟨rfl, rfl⟩ := Prod.mk.inj (hhull.unique (isHull_tokensAt _ w ws))
    have hnesting : Nesting [] (w :: ws) [] := nesting_of_items hmatched hflatten hrun
    refine ⟨w.bare, ws, ⟨rest, ?_, ⟨hrun.1.bare, hrun.2⟩, hnesting, rfl, ?_⟩,
      startLine_tokensAt.symm⟩
    . rw [← List.drop_drop, htext]
      simp [Word.chars, Word.bare]
    . simp [Word.chars, Word.bare]
      omega

theorem Fragment.inside {bracket : Bracket} {opener closer : Token} {inner : List Item}
    (h : Fragment text operand start stop w ws)
    (hmatched : (Item.group bracket opener inner closer).Matched)
    (htokens : tokensAt start (w :: ws) =
      startLine (Item.flattenAll [.group bracket opener inner closer])) :
    w.text = [bracket.opening] ∧ ∃ as v, ws = as ++ [v] ∧ v.text = [bracket.closing] ∧
      Nesting [] as [] := by
  obtain ⟨rest, _, hrun, _⟩ := h
  rw [tokensAt, Item.flattenAll, Item.flatten, Item.flattenAll, List.append_nil, startLine,
    List.cons.injEq] at htokens
  obtain ⟨hopener, htokens⟩ := htokens
  obtain ⟨as, bs, rfl, has, hbs⟩ := eq_append_of_tokensAt htokens
  obtain ⟨v, rfl, rfl⟩ := exists_word_of_singleton hbs
  obtain ⟨hw, hrun⟩ := hrun
  obtain ⟨hinner, hv, _⟩ := run_append.mp hrun
  cases hmatched with
  | group hopens hopen hclose hitems =>
    have hopens : (w.token start).opens? = some bracket := by
      rw [hopener]
      exact hopens
    obtain ⟨c, hc, hopens, _⟩ := exists_head_of_token hw hopens rfl
    obtain ⟨d, hd, _, hcloses⟩ := exists_head_of_token hv hopen hclose
    obtain rfl := eq_opening_of_ofOpening? hopens
    obtain rfl := eq_closing_of_ofClosing? hcloses
    refine ⟨(hw.bracket hc (by cases bracket <;> simp [Bracket.opening])).2, as, v, rfl,
      (hv.bracket hd (by cases bracket <;> simp [Bracket.closing])).2, ?_⟩
    exact nesting_of_items hitems has hinner

theorem Word.Starts.operandAfter_of_opening {w : Word} {bracket : Bracket}
    (h : w.Starts operand rest) (htext : w.text = [bracket.opening]) : w.operandAfter = true := by
  have hhead : w.text.head? = some bracket.opening := by simp [htext]
  have hopens := h.opens? hhead 0
  rw [Bracket.ofOpening?_opening] at hopens
  exact operandAfter_of_opens? hopens

theorem Fragment.between {as : List Word} {v : Word} {bracket : Bracket}
    (h : Fragment text operand start stop w (as ++ [v])) (hw : w.text = [bracket.opening])
    (hv : v.text = [bracket.closing]) (hnesting : Nesting [] as []) :
    BalancedWindow text (start + 1) (stop - 1) ∧
      ∃ rest, text.toList.drop (stop - 1) = bracket.closing :: rest := by
  obtain ⟨rest, htext, ⟨hstarts, hrun⟩, _, hgap, rfl⟩ := h
  obtain ⟨hinner, hlast, _⟩ := run_append.mp hrun
  rw [hstarts.operandAfter_of_opening hw] at hinner
  have hinside : text.toList.drop (start + 1) =
      charsOf as ++ (v.gap ++ bracket.closing :: rest) := by
    rw [← List.drop_drop, htext]
    simp [Word.chars, hw, hv, hgap]
  have hstop : start + (charsOf (w :: (as ++ [v]))).length - 1 =
      start + 1 + (charsOf as ++ v.gap).length := by
    simp only [charsOf_cons, charsOf_append, charsOf_nil, Word.chars, hw, hv, hgap,
      List.length_append, List.length_singleton, List.length_nil]
    omega
  rw [hstop]
  constructor
  . refine ⟨as, v.gap, bracket.closing :: rest, hinside, ?_, hnesting, .inr ⟨v.newline, ?_⟩, rfl⟩
    . simpa [Word.chars, hv] using hinner
    . simpa [hv] using hlast.gap
  . refine ⟨rest, ?_⟩
    rw [← List.drop_drop, hinside, ← List.append_assoc, List.drop_left]

def IsMarkupSlice (text : String) (start stop : Nat) : Prop :=
  ∃ used slots, (Text.slice text start stop).toList = '<' :: used ∧
    ∀ m left, used.length ≤ m → markupRest m left used = .ok (slots, [])

theorem Run.isMarkupSlice {t : Token} (h : Run operand ws rest)
    (htext : text.toList.drop start = charsOf ws ++ rest)
    (ht : t ∈ tokensAt start ws) (hkind : t.kind = .markup) :
    IsMarkupSlice text t.start t.stop := by
  obtain ⟨i, hi⟩ := List.mem_iff_getElem?.mp ht
  obtain ⟨pre, w, post, rfl, _, rfl⟩ := exists_of_getElem?_tokensAt hi
  obtain ⟨_, c, more, hmore, hread⟩ := (run_append.mp h).2.1
  have hread := hread _ (Nat.le_refl more.length)
  have hkind : w.kind = .markup := hkind
  rw [lexeme_ok, hkind] at hread
  cases hread with
  | @markup slots _ hopen _ _ hread =>
    obtain ⟨used, base, hused, _, _, hclosed⟩ := (Closed.of_fuel _).markup hread
    obtain rfl := List.append_cancel_right hused
    refine ⟨more, base.map (Slot.shift 0), ?_, ?_⟩
    . have hdrop : text.toList.drop (w.token (start + (charsOf pre).length)).start
          = '<' :: more ++ (charsOf post ++ rest) := by
        simp only [Word.token]
        rw [Nat.add_assoc, ← List.drop_drop, htext]
        simp [Word.chars, hmore, hopen, ← List.drop_drop]
      rw [Text.slice, String.toList_ofList, hdrop]
      apply List.take_left'
      simp only [Word.token, Word.chars, hmore, List.length_append, List.length_cons]
      omega
    . intro m left hm
      simpa using hclosed m left [] hm

theorem BalancedWindow.isMarkupSlice {t : Token} (h : BalancedWindow text start stop)
    (hscan : scanWindow text start stop = .ok tokens) (ht : t ∈ tokens) (hkind : t.kind = .markup) :
    IsMarkupSlice text t.start t.stop := by
  obtain ⟨ws, gap, rest, htext, hrun, _, hgap, hstop⟩ := h
  rw [(rescans_of_run hrun hgap htext hstop).1] at hscan
  cases hscan
  exact hrun.isMarkupSlice htext ht hkind

end Token
end ComponentCompiler
