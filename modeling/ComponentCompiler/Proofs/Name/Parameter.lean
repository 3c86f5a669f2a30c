import ComponentCompiler.Name.Pattern
import ComponentCompiler.Proofs.Text.Slice
import ComponentCompiler.Proofs.Token.Group
import ComponentCompiler.Proofs.Token.Shift

/-!
This module contains the names that parameters bind when they are put together to a list. What a
parameter binds does not depend on where it stands, so the list binds what its parameters bind, one
after the other.
-/

namespace ComponentCompiler

def Token.detached (t : Token) : Token :=
  ⟨t.kind, t.value, 0, 0, false⟩

namespace Item

mutual

def detached : Item → Item
  | .token t => .token t.detached
  | .group bracket opener items closer =>
    .group bracket opener.detached (detachedAll items) closer.detached

def detachedAll : List Item → List Item
  | [] => []
  | item :: items => item.detached :: detachedAll items

end

theorem detachedAll_eq_map (items : List Item) : detachedAll items = items.map detached := by
  induction items with
  | nil => rfl
  | cons item items ih => rw [detachedAll, ih, List.map_cons]

theorem isPunct_detached (item : Item) (value : String) :
    item.detached.isPunct value = item.isPunct value := by
  cases item <;> rfl

variable {items part : List Item} {bracket : Bracket}

theorem before_detached (punct : String) (items : List Item) : before punct (items.map detached) =
    (before punct items).map detached := by
  rw [before, before, List.takeWhile_map]
  congr 2
  funext item
  exact congrArg not (isPunct_detached item punct)

theorem after?_detached (punct : String) (items : List Item) :
    after? punct (items.map detached) = (after? punct items).map (·.map detached) := by
  induction items with
  | nil => rfl
  | cons item items ih =>
    rw [List.map_cons, after?, after?, isPunct_detached, ih]
    split <;> rfl

theorem withoutRestMark_detached (items : List Item) :
    withoutRestMark (items.map detached) = (withoutRestMark items).map detached := by
  cases items with
  | nil => rfl
  | cons item items =>
    rw [List.map_cons, withoutRestMark, withoutRestMark, isPunct_detached]
    split <;> rfl

theorem target?_detached (bracket : Bracket) (part : List Item) :
    target? bracket (part.map detached) = (target? bracket part).map detached := by
  unfold target?
  rw [before_detached, withoutRestMark_detached]
  generalize withoutRestMark (before "=" part) = part
  cases bracket with
  | curly =>
    dsimp only
    rw [after?_detached]
    cases after? ":" part with
    | none => exact List.head?_map
    | some rest => exact List.head?_map
  | paren =>
    dsimp only
    rw [before_detached, List.head?_map]
  | square => exact List.head?_map

theorem split_detached (separator : String) (items : List Item) :
    split separator (items.map detached) = (split separator items).map (·.map detached) := by
  rw [split, split, Text.splitOnP_map, List.filter_map]
  have hpunct : (fun item => isPunct item separator) ∘ detached =
      fun item => isPunct item separator := by
    funext item
    exact isPunct_detached item separator
  rw [hpunct]
  congr 2
  funext part
  cases part <;> rfl

theorem targets_detached (bracket : Bracket) (items : List Item) :
    targets bracket (items.map detached) = (targets bracket items).map detached := by
  rw [targets, targets, split_detached, List.filterMap_map, List.map_filterMap]
  congr 1
  funext part
  exact target?_detached bracket part

theorem boundNames_detached {item : Item} (h : item.Matched) :
    item.detached.boundNames = item.boundNames := by
  induction h with
  | token => rw [detached, boundNames, boundNames]; rfl
  | @group bracket opener closer items _ _ _ _ ih =>
    rw [detached, detachedAll_eq_map, boundNames_group, boundNames_group, targets_detached,
      List.flatMap_map]
    apply List.flatMap_congr
    intro item hitem
    exact ih item (mem_of_mem_targets hitem)

def listedNames (items : List Item) : List String :=
  (targets .paren items).flatMap boundNames

theorem listedNames_detached (h : ∀ item ∈ items, item.Matched) :
    listedNames (items.map detached) = listedNames items := by
  rw [listedNames, listedNames, targets_detached, List.flatMap_map]
  apply List.flatMap_congr
  intro item hitem
  exact boundNames_detached (h item (mem_of_mem_targets hitem))

theorem listedNames_append {comma : Item} {more : List Item}
    (hpart : ∀ item ∈ part, item.isPunct "," = false) (hcomma : comma.isPunct "," = true) :
    listedNames (part ++ comma :: more) = listedNames part ++ listedNames more := by
  rw [listedNames, listedNames, listedNames, targets, targets, targets, split, split, split,
    Text.splitOnP_append hpart hcomma, Text.splitOnP_eq_singleton hpart, ← List.singleton_append,
    List.filter_append, List.filterMap_append, List.flatMap_append]

theorem listedNames_eq_flatMap (items : List Item) : listedNames items =
    (split "," items).flatMap listedNames := by
  have hpart : ∀ part ∈ split "," items, listedNames part =
      (target? .paren part).toList.flatMap boundNames := by
    intro part hpart
    obtain ⟨hsplit, hne⟩ := List.mem_filter.mp hpart
    have hsingle : split "," part = [part] := by
      rw [split, Text.splitOnP_eq_singleton (Text.eq_false_of_mem_splitOnP hsplit),
        List.filter_singleton, hne]
      rfl
    rw [listedNames, targets, hsingle, List.filterMap_cons, List.filterMap_nil]
    cases target? .paren part <;> rfl
  rw [listedNames, targets]
  generalize split "," items = parts at hpart
  induction parts with
  | nil => rfl
  | cons part parts ih =>
    rw [List.forall_mem_cons] at hpart
    rw [List.flatMap_cons, hpart.1, ← ih hpart.2, List.filterMap_cons]
    cases target? .paren part <;> simp

end Item

namespace Token

variable {tokens tokens' : List Token} {items : List Item}

theorem map_detached_of_sameText (h : List.Forall₂ SameText tokens tokens') :
    tokens.map detached = tokens'.map detached := by
  induction h with
  | nil => rfl
  | @cons t t' _ _ ht _ ih => rw [List.map_cons, List.map_cons, ih, detached, detached, ht.1, ht.2]

theorem flattenAll_detached
    (h : ∀ item ∈ items, item.detached.flatten = item.flatten.map detached) :
    Item.flattenAll (items.map Item.detached) = (Item.flattenAll items).map detached := by
  induction items with
  | nil => rfl
  | cons item items ih =>
    rw [List.forall_mem_cons] at h
    rw [List.map_cons, Item.flattenAll, Item.flattenAll, List.map_append, h.1, ih h.2]

theorem matched_detached {item : Item} (h : item.Matched) :
    item.detached.Matched ∧ item.detached.flatten = item.flatten.map detached := by
  induction h with
  | token hopen hclose => exact ⟨.token hopen hclose, rfl⟩
  | @group bracket opener closer items hopener hopen hclose _ ih =>
    rw [Item.detached, Item.detachedAll_eq_map]
    constructor
    . have hitems : ∀ item ∈ items.map Item.detached, item.Matched := by
        simpa using fun item hitem => (ih item hitem).1
      exact .group hopener hopen hclose hitems
    . rw [Item.flatten, Item.flatten, flattenAll_detached fun item hitem => (ih item hitem).2]
      simp

theorem group_detached (h : group tokens = .ok items) :
    group (tokens.map detached) = .ok (items.map Item.detached) := by
  rw [group_eq_ok] at h ⊢
  obtain ⟨hmatched, rfl⟩ := h
  constructor
  . simpa using fun item hitem => (matched_detached (hmatched item hitem)).1
  . exact flattenAll_detached fun item hitem => (matched_detached (hmatched item hitem)).2

theorem group_sameText (h : group tokens = .ok items)
    (hsame : List.Forall₂ SameText tokens tokens') :
    ∃ items', group tokens' = .ok items' ∧ items'.map Item.detached = items.map Item.detached := by
  obtain ⟨items', h', _⟩ := group_sameOperators h hsame
  refine ⟨items', h', ?_⟩
  have hdetached := group_detached h
  rw [map_detached_of_sameText hsame, group_detached h'] at hdetached
  exact Except.ok.inj hdetached

theorem listedNames_sameText (h : group tokens = .ok items)
    (hsame : List.Forall₂ SameText tokens tokens') :
    ∃ items', group tokens' = .ok items' ∧ Item.listedNames items' = Item.listedNames items := by
  obtain ⟨items', h', hdetached⟩ := group_sameText h hsame
  refine ⟨items', h', ?_⟩
  rw [← Item.listedNames_detached (matched_of_group h'), hdetached,
    Item.listedNames_detached (matched_of_group h)]

variable {text more : String}

def ReadsAs (text : String) (items : List Item) : Prop :=
  ∃ w ws, text.toList = charsOf (w :: ws) ∧ w.gap = [] ∧ Run true (w :: ws) [] ∧
    group (tokensAt 0 (w :: ws)) = .ok items

def punctWord (c : Char) : Word :=
  ⟨[], .punct, [c], false⟩

theorem punctWord_starts (hc : c ∈ ['(', ')', ',']) (operand : Bool) (rest : List Char) :
    (punctWord c).Starts operand rest := by
  have hfacts : isNeutral c = true ∧ Text.isBlank c = false ∧ c ≠ '/' ∧ c ≠ '\'' ∧ c ≠ '"' ∧
      c ≠ '\x60' := by
    simp only [List.mem_cons, List.not_mem_nil, or_false] at hc
    rcases hc with rfl | rfl | rfl <;> decide +kernel
  obtain ⟨hneutral, hblank, hslash, hquote⟩ := hfacts
  constructor
  . apply afterGap_of_token hblank
    simp [opensComment, hslash]
  . refine ⟨c, [], rfl, ?_⟩
    intro m _
    exact lexeme_of_isNeutral hneutral hquote

theorem group_separated {t : Token} {items' : List Item} (h : group tokens = .ok items)
    (hopen : t.opens? = none) (hclose : t.closes? = none) (h' : group tokens' = .ok items') :
    group (tokens ++ t :: tokens') = .ok (items ++ .token t :: items') := by
  rw [group_eq_ok] at h h' ⊢
  obtain ⟨hitems, rfl⟩ := h
  obtain ⟨hitems', rfl⟩ := h'
  constructor
  . rw [List.forall_mem_append, List.forall_mem_cons]
    exact ⟨hitems, .token hopen hclose, hitems'⟩
  . rw [flattenAll_append]
    rfl

theorem ReadsAs.join {items' : List Item} (h : ReadsAs text items)
    (hitems : ∀ item ∈ items, item.isPunct "," = false) (h' : ReadsAs more items') :
    ∃ all, ReadsAs (text ++ ", " ++ more) all ∧
      Item.listedNames all = Item.listedNames items ++ Item.listedNames items' := by
  obtain ⟨w, ws, htext, hgap, hrun, hgroup⟩ := h
  obtain ⟨v, vs, hmore, hgap', hrun', hgroup'⟩ := h'
  obtain ⟨newline, hstarts⟩ := @Word.Starts.respaced _ _ _ [' '] hrun'.1 (by simp [Text.isBlank])
  let comma := punctWord ','
  let first := v.respaced [' '] newline
  let pos := (charsOf (w :: ws)).length
  obtain ⟨items'', hgroup'', hnames⟩ :=
    listedNames_sameText hgroup' (sameText_respaced 0 (pos + comma.chars.length) v [' '] newline vs)
  refine ⟨items ++ .token (comma.token pos) :: items'',
    ⟨w, ws ++ comma :: first :: vs, ?_, hgap, ?_, ?_⟩, ?_⟩
  . simp [htext, hmore, Word.chars, hgap', comma, first, punctWord, Word.respaced]
  . rw [← List.cons_append, run_append]
    refine ⟨hrun.agrees (.of_isNeutral (isNeutral_of_mem (by simp))),
      punctWord_starts (by simp) _ _, ?_⟩
    have hdue : comma.operandAfter = true := by decide
    rw [hdue]
    exact ⟨hstarts, hrun'.2⟩
  . rw [← List.cons_append, tokensAt_append, Nat.zero_add, tokensAt]
    exact group_separated hgroup rfl rfl hgroup''
  . rw [Item.listedNames_append hitems rfl, hnames]

end Token

/-- The names that a text binds which lists parameters in parentheses. -/
def Name.parameterNames? (text : String) : Option (List String) :=
  match Token.scan text >>= Token.group with
  | .ok [.group .paren opener items closer] =>
    some (Item.group .paren opener items closer).boundNames
  | _ => none

namespace Token

variable {text : String} {items : List Item}

theorem ReadsAs.parameterNames? (h : ReadsAs text items) :
    Name.parameterNames? ("(" ++ text ++ ")") = some (Item.listedNames items) := by
  obtain ⟨w, ws, htext, hgap, hrun, hgroup⟩ := h
  let opener := punctWord '('
  let closer := punctWord ')'
  let pos := opener.chars.length + (charsOf (w :: ws)).length
  obtain ⟨items', hgroup', hnames⟩ :=
    listedNames_sameText hgroup (sameText_tokensAt 0 opener.chars.length (w :: ws))
  have hwords : ("(" ++ text ++ ")").toList = charsOf (opener :: (w :: ws ++ [closer])) := by
    simp [htext, Word.chars, opener, closer, punctWord]
  have hlist : Run true (opener :: (w :: ws ++ [closer])) [] := by
    refine ⟨punctWord_starts (by simp) _ _, ?_⟩
    have hdue : opener.operandAfter = true := by decide
    rw [hdue, run_append]
    exact ⟨hrun.agrees (.of_isNeutral (isNeutral_of_mem (by simp))), punctWord_starts (by simp) _ _,
      trivial⟩
  have hitems : group (tokensAt 0 (opener :: (w :: ws ++ [closer]))) =
      .ok [.group .paren (opener.token 0) items' (closer.token pos)] := by
    rw [tokensAt, tokensAt_append, Nat.zero_add]
    rw [group_eq_ok] at hgroup' ⊢
    obtain ⟨hmatched, hflatten⟩ := hgroup'
    constructor
    . rw [List.forall_mem_singleton]
      exact .group rfl rfl rfl hmatched
    . simp only [Item.flattenAll, Item.flatten, hflatten, List.append_nil]
      rfl
  rw [Name.parameterNames?, scan_of_run hlist hwords, ok_bind, hitems]
  dsimp only
  rw [Item.boundNames_group, ← hnames, Item.listedNames]

theorem readsAs_of_scan {tokens : List Token} (hscan : scan text = .ok tokens)
    (hhull : IsHull (tokens.map range) (0, text.length))
    (hgroup : group tokens = .ok items) : ReadsAs text items := by
  obtain ⟨ws, gap, _, hrun, htext, rfl, _⟩ := words_of_scan hscan
  cases ws with
  | nil => exact absurd rfl hhull.ne_nil
  | cons w ws =>
    obtain ⟨hstart, hstop⟩ := Prod.mk.inj (hhull.unique (isHull_tokensAt 0 w ws))
    have hgap : w.gap = [] := List.length_eq_zero_iff.mp (by omega)
    have hlength := Text.length_eq htext
    rw [List.length_append] at hlength
    have hend : gap = [] := List.length_eq_zero_iff.mp (by omega)
    subst hend
    rw [List.append_nil] at htext
    exact ⟨w, ws, htext, hgap, hrun, hgroup⟩

end Token

namespace Name

variable {parameters : List String}

def IsParameter (text : String) : Prop :=
  ∃ items, Token.ReadsAs text items ∧ ∀ item ∈ items, item.isPunct "," = false

/-- The names that a parameter binds. -/
def boundBy (parameter : String) : List String :=
  (parameterNames? ("(" ++ parameter ++ ")")).getD []

def parameterList (parameters : List String) : String :=
  "(" ++ String.intercalate ", " parameters ++ ")"

theorem boundBy_of_readsAs {text : String} {items : List Item} (h : Token.ReadsAs text items) :
    boundBy text = Item.listedNames items := by
  rw [boundBy, h.parameterNames?, Option.getD_some]

theorem exists_readsAs (h : ∀ p ∈ parameters, IsParameter p) (hne : parameters ≠ []) :
    ∃ items, Token.ReadsAs (String.intercalate ", " parameters) items ∧
      Item.listedNames items = parameters.flatMap boundBy := by
  induction parameters with
  | nil => exact absurd rfl hne
  | cons p rest ih =>
    rw [List.forall_mem_cons] at h
    obtain ⟨items, hitems, hcomma⟩ := h.1
    cases rest with
    | nil =>
      refine ⟨items, by rwa [String.intercalate_singleton], ?_⟩
      rw [List.flatMap_singleton, boundBy_of_readsAs hitems]
    | cons q rest =>
      obtain ⟨more, hmore, hnames⟩ := ih h.2 (by simp)
      obtain ⟨all, hall, hjoined⟩ := hitems.join hcomma hmore
      refine ⟨all, by rwa [String.intercalate_cons_cons], ?_⟩
      rw [hjoined, hnames, ← boundBy_of_readsAs hitems, ← List.flatMap_cons]

theorem parameterNames?_parameterList (h : ∀ p ∈ parameters, IsParameter p)
    (hne : parameters ≠ []) :
    parameterNames? (parameterList parameters) = some (parameters.flatMap boundBy) := by
  obtain ⟨items, hitems, hnames⟩ := exists_readsAs h hne
  rw [parameterList, hitems.parameterNames?, hnames]

end Name
end ComponentCompiler
