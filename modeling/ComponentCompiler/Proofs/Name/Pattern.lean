import ComponentCompiler.Name.Pattern
import ComponentCompiler.Proofs.Text.Slice
import ComponentCompiler.Proofs.Token.Group

/-!
This module contains the grammar of binding patterns and parameter lists, and the names that they
bind. A tree of the grammar has the tokens that it is written with; the names that are found in
these tokens are those that the tree binds, whatever its keys, defaults and types are made of.
-/

namespace ComponentCompiler
namespace Binding

/-! ### What patterns are written with -/

structure Punct (value : String) where
  token : Token
  isPunct : token.isPunct value = true

structure Identifier where
  token : Token
  isName : token.kind = .name

structure Brackets (bracket : Bracket) where
  opener : Token
  closer : Token
  opens : opener.opens? = some bracket
  closes : closer.closes? = some bracket

/-- Items whose brackets match, with none of some punctuators outside them. -/
structure Phrase (absent : List String) where
  items : List Item
  matched : ∀ item ∈ items, item.Matched
  isAbsent : ∀ value ∈ absent, ∀ item ∈ items, item.isPunct value = false

/-- What stands before the colon of a property: a name, a text, a number, or an expression in
brackets. -/
structure Key where
  item : Item
  matched : item.Matched
  isNoPunct : ∀ value, item.isPunct value = false

structure Default where
  mark : Punct "="
  value : Phrase [","]

structure Ascription where
  mark : Punct ":"
  type : Phrase [",", "="]

/-! ### Patterns -/

mutual

inductive Pattern where
  | name (x : Identifier)
  | object (brackets : Brackets .curly) (parts : Parts .curly)
  | array (brackets : Brackets .square) (parts : Parts .square)

/-- What stands between the commas of a pattern in the given brackets. -/
inductive Part : Bracket → Type where
  | shorthand (x : Identifier) (default : Option Default) : Part .curly
  | keyed (key : Key) (mark : Punct ":") (target : Pattern) (default : Option Default) : Part .curly
  | element (target : Pattern) (default : Option Default) : Part .square
  | others (mark : Punct "...") (target : Pattern) : Part bracket
  | parameter (target : Pattern) (question : Option (Punct "?")) (type : Option Ascription)
      (default : Option Default) :
    Part .paren
  | otherParameters (mark : Punct "...") (target : Pattern) (type : Ascription) : Part .paren

/-- Parts with commas between them. A comma may follow the last part, and an array may have
holes. -/
inductive Parts : Bracket → Type where
  | none : Parts bracket
  | last (part : Part bracket) : Parts bracket
  | hole (comma : Punct ",") (more : Parts .square) : Parts .square
  | more (part : Part bracket) (comma : Punct ",") (more : Parts bracket) : Parts bracket

end

structure ParameterList where
  brackets : Brackets .paren
  parts : Parts .paren

def Default.items (d : Default) : List Item :=
  .token d.mark.token :: d.value.items

def Ascription.items (a : Ascription) : List Item :=
  .token a.mark.token :: a.type.items

def defaultItems (d : Option Default) : List Item :=
  d.elim [] Default.items

def typeItems (a : Option Ascription) : List Item :=
  a.elim [] Ascription.items

def questionItems (q : Option (Punct "?")) : List Item :=
  (q.map fun mark => Item.token mark.token).toList

mutual

def Pattern.item : Pattern → Item
  | .name x => .token x.token
  | .object brackets parts => .group .curly brackets.opener parts.items brackets.closer
  | .array brackets parts => .group .square brackets.opener parts.items brackets.closer

def Part.items : Part bracket → List Item
  | .shorthand x d => .token x.token :: defaultItems d
  | .keyed key mark target d => key.item :: .token mark.token :: target.item :: defaultItems d
  | .element target d => target.item :: defaultItems d
  | .others mark target => [.token mark.token, target.item]
  | .parameter target question type d =>
    target.item :: (questionItems question ++ (typeItems type ++ defaultItems d))
  | .otherParameters mark target type => .token mark.token :: target.item :: type.items

def Parts.items : Parts bracket → List Item
  | .none => []
  | .last part => part.items
  | .hole comma more => .token comma.token :: more.items
  | .more part comma more => part.items ++ .token comma.token :: more.items

end

def ParameterList.item (list : ParameterList) : Item :=
  .group .paren list.brackets.opener list.parts.items list.brackets.closer

mutual

/-- The names that a pattern binds, from left to right. -/
def Pattern.names : Pattern → List String
  | .name x => [x.token.value]
  | .object _ parts => parts.names
  | .array _ parts => parts.names

def Part.names : Part bracket → List String
  | .shorthand x _ => [x.token.value]
  | .keyed _ _ target _ => target.names
  | .element target _ => target.names
  | .others _ target => target.names
  | .parameter target _ _ _ => target.names
  | .otherParameters _ target _ => target.names

def Parts.names : Parts bracket → List String
  | .none => []
  | .last part => part.names
  | .hole _ more => more.names
  | .more part _ more => part.names ++ more.names

end

def ParameterList.names (list : ParameterList) : List String :=
  list.parts.names

/-! ### Punctuators -/

variable {bracket : Bracket} {value : String} {items more : List Item}

theorem isPunct_inj {t : Token} {first second : String} (hfirst : t.isPunct first = true)
    (hne : first ≠ second) : t.isPunct second = false := by
  simp only [Token.isPunct, Bool.and_eq_true, beq_iff_eq] at hfirst
  simp [Token.isPunct, hfirst, hne]

theorem Identifier.isPunct_token (x : Identifier) (value : String) :
    x.token.isPunct value = false := by
  simp [Token.isPunct, x.isName]

theorem Pattern.isPunct_item (p : Pattern) (value : String) : p.item.isPunct value = false := by
  cases p with
  | name x =>
    rw [Pattern.item]
    apply x.isPunct_token
  | object => simp [Pattern.item, Item.isPunct]
  | array => simp [Pattern.item, Item.isPunct]

theorem Default.isPunct_of_mem (d : Default) : ∀ item ∈ d.items, item.isPunct "," = false := by
  rw [Default.items, List.forall_mem_cons]
  constructor
  . exact isPunct_inj d.mark.isPunct (by decide)
  . apply d.value.isAbsent
    simp

theorem defaultItems_comma (d : Option Default) :
    ∀ item ∈ defaultItems d, item.isPunct "," = false := by
  cases d with
  | none => simp [defaultItems]
  | some d => exact d.isPunct_of_mem

theorem Ascription.isPunct_of_mem (a : Ascription) (hvalue : value ∈ [",", "="]) :
    ∀ item ∈ a.items, item.isPunct value = false := by
  rw [Ascription.items, List.forall_mem_cons]
  constructor
  . apply isPunct_inj a.mark.isPunct
    rintro rfl
    simp at hvalue
  . exact a.type.isAbsent value hvalue

theorem typeItems_absent (a : Option Ascription) (hvalue : value ∈ [",", "="]) :
    ∀ item ∈ typeItems a, item.isPunct value = false := by
  cases a with
  | none => simp [typeItems]
  | some a => exact a.isPunct_of_mem hvalue

theorem questionItems_absent (q : Option (Punct "?")) (hvalue : value ≠ "?") :
    ∀ item ∈ questionItems q, item.isPunct value = false := by
  cases q with
  | none => simp [questionItems]
  | some q =>
    simp only [questionItems, Option.map_some, Option.toList_some, List.mem_singleton, forall_eq,
      Item.isPunct]
    exact isPunct_inj q.isPunct hvalue.symm

theorem Part.isPunct_of_mem (part : Part bracket) :
    ∀ item ∈ part.items, item.isPunct "," = false := by
  have hmark : ∀ {value} (mark : Punct value), value ≠ "," →
      (Item.token mark.token).isPunct "," = false :=
    fun mark hne => isPunct_inj mark.isPunct hne
  cases part with
  | shorthand x d =>
    rw [Part.items, List.forall_mem_cons]
    exact ⟨x.isPunct_token _, defaultItems_comma d⟩
  | keyed key mark target d =>
    simp only [Part.items, List.forall_mem_cons]
    exact ⟨key.isNoPunct _, hmark mark (by decide), target.isPunct_item _, defaultItems_comma d⟩
  | element target d =>
    rw [Part.items, List.forall_mem_cons]
    exact ⟨target.isPunct_item _, defaultItems_comma d⟩
  | others mark target =>
    simp only [Part.items, List.forall_mem_cons]
    exact ⟨hmark mark (by decide), target.isPunct_item _, by simp⟩
  | parameter target question type d =>
    simp only [Part.items, List.forall_mem_cons, List.forall_mem_append]
    exact ⟨target.isPunct_item _, questionItems_absent _ (by decide), typeItems_absent _ (by simp),
      defaultItems_comma d⟩
  | otherParameters mark target type =>
    simp only [Part.items, List.forall_mem_cons]
    exact ⟨hmark mark (by decide), target.isPunct_item _, type.isPunct_of_mem (by simp)⟩

/-! ### Targets -/

theorem before_default (items : List Item) (hitems : ∀ item ∈ items, item.isPunct "=" = false)
    (d : Option Default) : Item.before "=" (items ++ defaultItems d) = items := by
  have hall : ∀ item ∈ items, (!item.isPunct "=") = true := by
    intro item hitem
    rw [hitems item hitem]
    rfl
  rw [Item.before, List.takeWhile_append_of_pos hall]
  cases d with
  | none => simp [defaultItems]
  | some d =>
    have hmark : (Item.token d.mark.token).isPunct "=" = true := d.mark.isPunct
    simp [defaultItems, Default.items, hmark]

theorem before_equal (hitems : ∀ item ∈ items, item.isPunct "=" = false) :
    Item.before "=" items = items := by
  have h := before_default items hitems none
  rwa [defaultItems, Option.elim_none, List.append_nil] at h

theorem withoutRestMark_cons {item : Item} (h : item.isPunct "..." = false) :
    Item.withoutRestMark (item :: more) = item :: more := by
  rw [Item.withoutRestMark, h]
  rfl

theorem withoutRestMark_mark (mark : Punct "...") :
    Item.withoutRestMark (.token mark.token :: more) = more := by
  have h : (Item.token mark.token).isPunct "..." = true := mark.isPunct
  rw [Item.withoutRestMark, if_pos h]

theorem before_colon_head? {item : Item} (h : item.isPunct ":" = false) :
    (Item.before ":" (item :: more)).head? = some item := by
  rw [Item.before, List.takeWhile_cons_of_pos (by rw [h]; rfl)]
  rfl

theorem target?_eq_head {part : List Item} {target : Item}
    (hpart : Item.withoutRestMark (Item.before "=" part) = target :: more)
    (htarget : target.isPunct ":" = false)
    (hcolon : bracket = .curly → Item.after? ":" more = none) :
    Item.target? bracket part = some target := by
  unfold Item.target?
  rw [hpart]
  cases bracket with
  | curly =>
    simp only [Item.after?, htarget, hcolon rfl, Bool.false_eq_true, if_false]
    rfl
  | paren => exact before_colon_head? htarget
  | square => rfl

def Part.target : Part bracket → Item
  | .shorthand x _ => .token x.token
  | .keyed _ _ target _ => target.item
  | .element target _ => target.item
  | .others _ target => target.item
  | .parameter target _ _ _ => target.item
  | .otherParameters _ target _ => target.item

theorem Part.target?_items (part : Part bracket) :
    Item.target? bracket part.items = some part.target := by
  cases part with
  | shorthand x d =>
    have hname : ∀ value, (Item.token x.token).isPunct value = false := x.isPunct_token
    have hpart : Item.withoutRestMark (Item.before "=" (Part.shorthand x d).items) =
        [.token x.token] := by
      rw [Part.items, ← List.singleton_append,
        before_default [.token x.token] (by simpa using hname "=")]
      exact withoutRestMark_cons (hname _)
    apply target?_eq_head hpart (hname _)
    intro _
    rfl
  | keyed key mark target d =>
    have hmark : (Item.token mark.token).isPunct ":" = true := mark.isPunct
    have hmark' : (Item.token mark.token).isPunct "=" = false :=
      isPunct_inj mark.isPunct (by decide)
    have hbefore := before_default [key.item, .token mark.token, target.item]
      (by simp [key.isNoPunct, hmark', target.isPunct_item]) d
    -- the key is no colon, so that the first one is that of the property
    have hafter : Item.after? ":" [key.item, .token mark.token, target.item] =
        some [target.item] := by
      simp [Item.after?, key.isNoPunct, hmark]
    unfold Item.target?
    rw [Part.items]
    rw [List.cons_append, List.cons_append, List.singleton_append] at hbefore
    rw [hbefore, withoutRestMark_cons (key.isNoPunct _)]
    dsimp only
    rw [hafter]
    rfl
  | element target d =>
    have hpart : Item.withoutRestMark (Item.before "=" (Part.element target d).items) =
        [target.item] := by
      rw [Part.items, ← List.singleton_append,
        before_default [target.item] (by simp [target.isPunct_item])]
      exact withoutRestMark_cons (target.isPunct_item _)
    apply target?_eq_head hpart (target.isPunct_item _)
    intro h
    cases h
  | others mark target =>
    have hmark : (Item.token mark.token).isPunct "=" = false := isPunct_inj mark.isPunct (by decide)
    have hpart : Item.withoutRestMark (Item.before "=" [.token mark.token, target.item]) =
        [target.item] := by
      rw [before_equal (by simp [hmark, target.isPunct_item])]
      apply withoutRestMark_mark
    rw [Part.items]
    apply target?_eq_head hpart (target.isPunct_item _)
    intro _
    rfl
  | parameter target question type d =>
    have hhead : ∀ item ∈ target.item :: (questionItems question ++ typeItems type),
        item.isPunct "=" = false := by
      simp only [List.forall_mem_cons, List.forall_mem_append]
      exact ⟨target.isPunct_item _, questionItems_absent _ (by decide),
        typeItems_absent _ (by simp)⟩
    have hpart : Item.withoutRestMark
        (Item.before "=" (Part.parameter target question type d).items)
        = target.item :: (questionItems question ++ typeItems type) := by
      rw [Part.items, ← List.append_assoc, ← List.cons_append, before_default _ hhead]
      exact withoutRestMark_cons (target.isPunct_item _)
    apply target?_eq_head hpart (target.isPunct_item _)
    intro h
    cases h
  | otherParameters mark target type =>
    have hmark : (Item.token mark.token).isPunct "=" = false := isPunct_inj mark.isPunct (by decide)
    have hhead : ∀ item ∈ .token mark.token :: target.item :: type.items, item.isPunct "=" =
        false := by
      simp only [List.forall_mem_cons]
      exact ⟨hmark, target.isPunct_item _, type.isPunct_of_mem (by simp)⟩
    have hpart : Item.withoutRestMark
        (Item.before "=" (.token mark.token :: target.item :: type.items)) =
          target.item :: type.items := by
      rw [before_equal hhead]
      apply withoutRestMark_mark
    rw [Part.items]
    apply target?_eq_head hpart (target.isPunct_item _)
    intro h
    cases h

theorem Part.items_ne_nil (part : Part bracket) : part.items ≠ [] := by
  cases part <;> simp [Part.items]

theorem split_comma (part : Part bracket) (comma : Punct ",") (more : List Item) :
    Item.split "," (part.items ++ .token comma.token :: more) =
      part.items :: Item.split "," more := by
  have hcomma : (Item.token comma.token).isPunct "," = true := comma.isPunct
  rw [Item.split, Text.splitOnP_append part.isPunct_of_mem hcomma]
  apply List.filter_cons_of_pos
  simp [part.items_ne_nil]

theorem targets_last (part : Part bracket) : Item.targets bracket part.items = [part.target] := by
  have hne : part.items.isEmpty = false := by simp [part.items_ne_nil]
  rw [Item.targets, Item.split, Text.splitOnP_eq_singleton part.isPunct_of_mem]
  simp [hne, part.target?_items]

theorem targets_more (part : Part bracket) (comma : Punct ",") (more : List Item) :
    Item.targets bracket (part.items ++ .token comma.token :: more) =
      part.target :: Item.targets bracket more := by
  rw [Item.targets, split_comma, List.filterMap_cons_some part.target?_items]
  rfl

theorem targets_hole (comma : Punct ",") (more : List Item) :
    Item.targets bracket (.token comma.token :: more) = Item.targets bracket more := by
  have hcomma : (Item.token comma.token).isPunct "," = true := comma.isPunct
  have hsplit : Item.split "," (.token comma.token :: more) = Item.split "," more := by
    rw [Item.split, Text.splitOnP, if_pos hcomma]
    apply List.filter_cons_of_neg
    simp
  rw [Item.targets, hsplit]
  rfl

/-! ### Names -/

theorem boundNames_name (x : Identifier) : (Item.token x.token).boundNames = [x.token.value] := by
  rw [Item.boundNames, if_pos x.isName]

mutual

theorem Pattern.boundNames_item : (p : Pattern) → p.item.boundNames = p.names
  | .name x => by
    rw [Pattern.item, Pattern.names]
    apply boundNames_name
  | .object brackets parts => by
    rw [Pattern.item, Pattern.names, Item.boundNames_group]
    apply parts.boundNames_targets
  | .array brackets parts => by
    rw [Pattern.item, Pattern.names, Item.boundNames_group]
    apply parts.boundNames_targets

theorem Part.boundNames_target :
    {bracket : Bracket} → (part : Part bracket) → part.target.boundNames = part.names
  | _, .shorthand x _ => by
    rw [Part.target, Part.names]
    apply boundNames_name
  | _, .keyed _ _ target _ => by
    rw [Part.target, Part.names]
    apply target.boundNames_item
  | _, .element target _ => by
    rw [Part.target, Part.names]
    apply target.boundNames_item
  | _, .others _ target => by
    rw [Part.target, Part.names]
    apply target.boundNames_item
  | _, .parameter target _ _ _ => by
    rw [Part.target, Part.names]
    apply target.boundNames_item
  | _, .otherParameters _ target _ => by
    rw [Part.target, Part.names]
    apply target.boundNames_item

theorem Parts.boundNames_targets : {bracket : Bracket} → (parts : Parts bracket) →
    (Item.targets bracket parts.items).flatMap Item.boundNames = parts.names
  | _, .none => by
    rw [Parts.items, Parts.names]
    rfl
  | _, .last part => by
    rw [Parts.items, Parts.names, targets_last, List.flatMap_singleton]
    apply part.boundNames_target
  | _, .hole comma more => by
    rw [Parts.items, Parts.names, targets_hole]
    apply more.boundNames_targets
  | _, .more part comma more => by
    rw [Parts.items, Parts.names, targets_more, List.flatMap_cons, part.boundNames_target,
      more.boundNames_targets]

end

theorem ParameterList.boundNames_item (list : ParameterList) :
    list.item.boundNames = list.names := by
  rw [ParameterList.item, ParameterList.names, Item.boundNames_group]
  apply list.parts.boundNames_targets

/-! ### Brackets -/

theorem Punct.matched (mark : Punct value) (hvalue : value ∈ [",", "=", ":", "...", "?"]) :
    (Item.token mark.token).Matched := by
  have hmark := mark.isPunct
  simp only [Token.isPunct, Bool.and_eq_true, beq_iff_eq] at hmark
  have hnone : ∀ value ∈ [",", "=", ":", "...", "?"],
      Bracket.all.find? (·.opening.toString == value) = none ∧
      Bracket.all.find? (·.closing.toString == value) = none := by
    decide
  constructor
  . rw [Token.opens?, if_pos hmark.1, hmark.2]
    exact (hnone value hvalue).1
  . rw [Token.closes?, if_pos hmark.1, hmark.2]
    exact (hnone value hvalue).2

theorem Identifier.matched (x : Identifier) : (Item.token x.token).Matched := by
  constructor
  . simp [Token.opens?, x.isName]
  . simp [Token.closes?, x.isName]

theorem matched_group (brackets : Brackets bracket) (hitems : ∀ item ∈ items, item.Matched) :
    (Item.group bracket brackets.opener items brackets.closer).Matched := by
  apply Item.Matched.group brackets.opens
  . exact Token.opens?_of_closes? brackets.closes
  . exact brackets.closes
  . exact hitems

theorem matched_default (d : Option Default) : ∀ item ∈ defaultItems d, item.Matched := by
  cases d with
  | none => simp [defaultItems]
  | some d =>
    rw [defaultItems, Option.elim_some, Default.items, List.forall_mem_cons]
    exact ⟨d.mark.matched (by simp), d.value.matched⟩

theorem Ascription.matched (a : Ascription) : ∀ item ∈ a.items, item.Matched := by
  rw [Ascription.items, List.forall_mem_cons]
  exact ⟨a.mark.matched (by simp), a.type.matched⟩

theorem matched_type (a : Option Ascription) : ∀ item ∈ typeItems a, item.Matched := by
  cases a with
  | none => simp [typeItems]
  | some a => exact a.matched

theorem matched_question (q : Option (Punct "?")) : ∀ item ∈ questionItems q, item.Matched := by
  cases q with
  | none => simp [questionItems]
  | some q =>
    simp only [questionItems, Option.map_some, Option.toList_some, List.mem_singleton, forall_eq]
    exact q.matched (by simp)

mutual

theorem Pattern.matched : (p : Pattern) → p.item.Matched
  | .name x => by
    rw [Pattern.item]
    exact x.matched
  | .object brackets parts => by
    rw [Pattern.item]
    exact matched_group brackets parts.matched
  | .array brackets parts => by
    rw [Pattern.item]
    exact matched_group brackets parts.matched

theorem Part.matched :
    {bracket : Bracket} → (part : Part bracket) → ∀ item ∈ part.items, item.Matched
  | _, .shorthand x d => by
    rw [Part.items, List.forall_mem_cons]
    exact ⟨x.matched, matched_default d⟩
  | _, .keyed key mark target d => by
    simp only [Part.items, List.forall_mem_cons]
    exact ⟨key.matched, mark.matched (by simp), target.matched, matched_default d⟩
  | _, .element target d => by
    rw [Part.items, List.forall_mem_cons]
    exact ⟨target.matched, matched_default d⟩
  | _, .others mark target => by
    simp only [Part.items, List.forall_mem_cons]
    exact ⟨mark.matched (by simp), target.matched, by simp⟩
  | _, .parameter target question type d => by
    simp only [Part.items, List.forall_mem_cons, List.forall_mem_append]
    exact ⟨target.matched, matched_question question, matched_type type, matched_default d⟩
  | _, .otherParameters mark target type => by
    simp only [Part.items, List.forall_mem_cons]
    exact ⟨mark.matched (by simp), target.matched, type.matched⟩

theorem Parts.matched :
    {bracket : Bracket} → (parts : Parts bracket) → ∀ item ∈ parts.items, item.Matched
  | _, .none => by simp [Parts.items]
  | _, .last part => by
    rw [Parts.items]
    exact part.matched
  | _, .hole comma more => by
    rw [Parts.items, List.forall_mem_cons]
    exact ⟨comma.matched (by simp), more.matched⟩
  | _, .more part comma more => by
    simp only [Parts.items, List.forall_mem_append, List.forall_mem_cons]
    exact ⟨part.matched, comma.matched (by simp), more.matched⟩

end

theorem group_flatten {item : Item} (h : item.Matched) : Token.group item.flatten = .ok [item] := by
  have hgroup := @Token.group_flattenAll [item] (by simpa using h)
  rwa [Item.flattenAll, Item.flattenAll, List.append_nil] at hgroup

def Pattern.tokens (p : Pattern) : List Token :=
  p.item.flatten

def ParameterList.tokens (list : ParameterList) : List Token :=
  list.item.flatten

/-- The tokens of a pattern, and those of a parameter list, nest into one item, and the names that
are found in it are those that the pattern binds, from left to right. -/
theorem boundNames_of_grammar :
    (∀ p : Pattern, ∃ item, Token.group p.tokens = .ok [item] ∧ item.boundNames = p.names) ∧
    ∀ list : ParameterList, ∃ item, Token.group list.tokens = .ok [item] ∧
      item.boundNames = list.names := by
  constructor
  . intro p
    exact ⟨p.item, group_flatten p.matched, p.boundNames_item⟩
  . intro list
    have hmatched := matched_group list.brackets list.parts.matched
    exact ⟨list.item, group_flatten hmatched, list.boundNames_item⟩

end Binding
end ComponentCompiler
