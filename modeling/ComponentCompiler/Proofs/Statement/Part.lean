import ComponentCompiler.Proofs.Success
import ComponentCompiler.Statement.Terminal

/-!
This module contains how items are cut into statements. A part is the items of one statement with
the lexemes that they are read as. The lexemes of all items are those of the parts, each followed by
its end.
-/

namespace ComponentCompiler

namespace Lexeme

variable {text : String} {state : State} {item : Item} {items : List Item}

def ofItem (text : String) (state : State) (item : Item) (next : Option Item) : Lexeme :=
  ⟨terminalOf state item next, Text.slice text item.start item.stop, item.start, item.stop⟩

def Reads (text : String) (item : Item) (lexeme : Lexeme) : Prop :=
  ∃ state next, lexeme = ofItem text state item next

theorem reads_ofItem (text : String) (state : State) (item : Item) (next : Option Item) :
    Reads text item (ofItem text state item next) :=
  ⟨state, next, rfl⟩

theorem wordTerminal_ne_eos (state : State) (word : String) (next : Option Item) :
    wordTerminal state word next ≠ .eos := by
  unfold wordTerminal
  dsimp only
  repeat' split
  all_goals simp

theorem terminalOf_ne_eos (state : State) (item : Item) (next : Option Item) :
    terminalOf state item next ≠ .eos := by
  unfold terminalOf
  split
  . simp
  . simp
  . simp
  . split
    . split
      . simp
      . split <;> simp
    . exact wordTerminal_ne_eos _ _ _
    all_goals simp

theorem Reads.terminal_ne_eos (h : Reads text item lexeme) : lexeme.terminal ≠ .eos := by
  obtain ⟨state, next, rfl⟩ := h
  exact terminalOf_ne_eos state item next

theorem Reads.start (h : Reads text item lexeme) : lexeme.start = item.start := by
  obtain ⟨state, next, rfl⟩ := h
  rfl

theorem Reads.stop (h : Reads text item lexeme) : lexeme.stop = item.stop := by
  obtain ⟨state, next, rfl⟩ := h
  rfl

structure Part (text : String) where
  items : List Item
  lexemes : List Lexeme
  lexemes_ne_nil : lexemes ≠ []
  reads : List.Forall₂ (Reads text) items lexemes
  no_semicolon : ∀ item ∈ items, item.isPunct ";" = false

namespace Part

theorem items_ne_nil (part : Part text) : part.items ≠ [] := by
  intro h
  have := part.reads
  rw [h, List.forall₂_nil_left_iff] at this
  exact part.lexemes_ne_nil this

def first (part : Part text) : Item :=
  part.items.head part.items_ne_nil

def last (part : Part text) : Lexeme :=
  part.lexemes.getLast part.lexemes_ne_nil

def stream (part : Part text) : List Lexeme :=
  part.lexemes ++ [endOf part.last]

theorem terminal_ne_eos (part : Part text) : ∀ lexeme ∈ part.lexemes, lexeme.terminal ≠ .eos := by
  intro lexeme hmem
  obtain ⟨item, _, hreads⟩ := exists_left_of_forall₂ part.reads hmem
  exact hreads.terminal_ne_eos

def single (text : String) (state : State) (item : Item) (next : Option Item)
    (h : item.isPunct ";" = false) : Part text where
  items := [item]
  lexemes := [ofItem text state item next]
  lexemes_ne_nil := List.cons_ne_nil _ _
  reads := .cons (reads_ofItem text state item next) .nil
  no_semicolon := by simpa using h

def snoc (part : Part text) (state : State) (item : Item) (next : Option Item)
    (h : item.isPunct ";" = false) : Part text where
  items := part.items ++ [item]
  lexemes := part.lexemes ++ [ofItem text state item next]
  lexemes_ne_nil := by simp
  reads := List.rel_append part.reads (.cons (reads_ofItem text state item next) .nil)
  no_semicolon := by
    intro other hmem
    rcases List.mem_append.mp hmem with hmem | hmem
    . exact part.no_semicolon other hmem
    . rw [List.mem_singleton] at hmem
      rw [hmem]
      exact h

@[simp]
theorem last_snoc (part : Part text) (h : item.isPunct ";" = false) :
    (part.snoc state item next h).last = ofItem text state item next := by
  simp [last, snoc]

def hasFunction (part : Part text) : Prop :=
  ∃ lexeme ∈ part.lexemes, lexeme.terminal = .functionWord

theorem hasFunction_snoc {part : Part text} (h : part.hasFunction)
    (hitem : item.isPunct ";" = false) : (part.snoc state item next hitem).hasFunction := by
  obtain ⟨lexeme, hmem, hterminal⟩ := h
  exact ⟨lexeme, List.mem_append_left _ hmem, hterminal⟩

end Part

/-- A statement that starts right after another one, without a semicolon, follows a function or
starts with something that continues no statement. -/
def Begins (before : Option (Part text)) (part : Part text) : Prop :=
  ∀ other, before = some other → other.hasFunction ∨ continues part.first = false

/-- The items are cut into these parts, with nothing but semicolons between them. `before` is the
part right before the items, if no semicolon ends it. -/
inductive Cut (text : String) : Option (Part text) → List Item → List (Part text) → Prop where
  | nil {before} : Cut text before [] []
  | semicolon {before item items parts} (hitem : item.isPunct ";" = true)
      (h : Cut text none items parts) :
    Cut text before (item :: items) parts
  | part {before part items parts} (hbegins : Begins before part)
      (h : Cut text (some part) items parts) :
    Cut text before (part.items ++ items) (part :: parts)

theorem endIfOpen_of_last (h : state.last = some lexeme) : endIfOpen state = [endOf lexeme] := by
  simp [endIfOpen, h]

theorem step_cases (text : String) (state : State) (item : Item) (next : Option Item) :
    (∃ after, step text state item next = ([ofItem text state item next], after) ∧
      after.last = some (ofItem text state item next) ∧
      (after.awaitingBody = true →
        state.awaitingBody = true ∨ (ofItem text state item next).terminal = .functionWord)) ∨
    (state.awaitingBody = true ∧
      step text state item next
        =
      ([ofItem text state item next, endOf (ofItem text state item next)], {})) := by
  unfold step
  dsimp only
  split
  . next hfunction => exact .inl ⟨_, rfl, rfl, fun _ => .inr hfunction⟩
  . split
    . exact .inl ⟨_, rfl, rfl, fun hawaiting => .inl hawaiting⟩
    . split
      . next hbody =>
        simp only [Bool.and_eq_true] at hbody
        exact .inr ⟨hbody.1.1, rfl⟩
      . exact .inl ⟨_, rfl, rfl, fun hawaiting => .inl hawaiting⟩

structure Inside (state : State) (part : Part text) : Prop where
  last : state.last = some part.last
  awaiting : state.awaitingBody = true → part.hasFunction

theorem go_semicolon (hitem : item.isPunct ";" = true) :
    ofItems.go text state (item :: items) = endIfOpen state ++ ofItems.go text {} items := by
  rw [ofItems.go, if_pos hitem]

theorem go_first (items : List Item) (hitem : item.isPunct ";" = false) :
    ∃ after, Inside after (Part.single text {} item items.head? hitem) ∧
      ofItems.go text {} (item :: items)
        =
      ofItem text {} item items.head? :: ofItems.go text after items := by
  rcases step_cases text {} item items.head? with ⟨after, hstep, hlast, hawaiting⟩ | ⟨hbody, _⟩
  . refine ⟨after, ⟨hlast, ?_⟩, ?_⟩
    . intro h
      rcases hawaiting h with h | h
      . simp at h
      . exact ⟨_, List.mem_singleton_self _, h⟩
    . rw [ofItems.go, hitem]
      simp [hstep]
  . simp at hbody

theorem go_next {part : Part text} (items : List Item) (hinside : Inside state part)
    (hitem : item.isPunct ";" = false) :
    (∃ after, Inside after (part.snoc state item items.head? hitem) ∧
      ofItems.go text state (item :: items)
        =
      ofItem text state item items.head? :: ofItems.go text after items) ∨
    (part.hasFunction ∧
      ofItems.go text state (item :: items)
        =
      ofItem text state item items.head? :: endOf (ofItem text state item items.head?) ::
        ofItems.go text {} items) ∨
    (continues item = false ∧
      ofItems.go text state (item :: items)
        =
      endOf part.last :: ofItems.go text {} (item :: items)) := by
  by_cases hbreaks : (item.newlineBefore && !state.awaitingBody && !continues item &&
      state.last.any (!·.isOpen)) = true
  . right
    right
    have hcontinues : continues item = false := by
      simp only [Bool.and_eq_true, Bool.not_eq_true'] at hbreaks
      exact hbreaks.1.2
    refine ⟨hcontinues, ?_⟩
    conv => lhs; rw [ofItems.go, hitem]
    conv => rhs; rw [ofItems.go, hitem]
    simp [hbreaks, endIfOpen_of_last hinside.last]
  . have hgo : ofItems.go text state (item :: items)
        = (step text state item items.head?).1 ++ ofItems.go text
          (step text state item items.head?).2 items := by
      rw [ofItems.go, hitem]
      simp [hbreaks]
    rw [hgo]
    rcases step_cases text state item items.head? with
      ⟨after, hstep, hlast, hawaiting⟩ | ⟨hbody, hstep⟩
    . left
      rw [hstep]
      refine ⟨after, ⟨by simp [hlast], ?_⟩, rfl⟩
      intro h
      rcases hawaiting h with h | h
      . exact Part.hasFunction_snoc (hinside.awaiting h) hitem
      . exact ⟨_, List.mem_append_right _ (List.mem_singleton_self _), h⟩
    . right
      left
      rw [hstep]
      exact ⟨hinside.awaiting hbody, rfl⟩

def streams (parts : List (Part text)) : List Lexeme :=
  parts.flatMap Part.stream

structure CutBy (text : String) (items : List Item) : Prop where
  fresh : ∀ before : Option (Part text),
    (∀ other, before = some other →
      other.hasFunction ∨ ∀ item, items.head? = some item → continues item = false) →
    ∃ parts, Cut text before items parts ∧ ofItems.go text {} items = streams parts
  inside : ∀ {state : State} {part : Part text}, Inside state part →
    ∃ (whole : Part text) (more rest : List Item) (parts : List (Part text)),
      items = more ++ rest ∧ whole.items = part.items ++ more ∧ Cut text (some whole) rest parts ∧
      part.lexemes ++ ofItems.go text state items = whole.stream ++ streams parts

theorem cutBy_nil : CutBy text [] := by
  constructor
  . intro before _
    exact ⟨[], .nil, rfl⟩
  . intro state part hinside
    refine ⟨part, [], [], [], rfl, (List.append_nil _).symm, .nil, ?_⟩
    rw [ofItems.go, endIfOpen_of_last hinside.last]
    simp [streams, Part.stream]

theorem Part.first_of_append {whole : Part text} {items more : List Item}
    (h : whole.items = item :: items ++ more) : whole.first = item := by
  simp [first, h]

theorem CutBy.fresh_cons (ih : CutBy text items) (item : Item) (before : Option (Part text))
    (hbefore : ∀ other, before = some other → other.hasFunction ∨ continues item = false) :
    ∃ parts, Cut text before (item :: items) parts ∧
      ofItems.go text {} (item :: items) = streams parts := by
  cases hitem : item.isPunct ";" with
  | true =>
    obtain ⟨parts, hcut, hgo⟩ := ih.fresh none (by simp)
    refine ⟨parts, .semicolon hitem hcut, ?_⟩
    rw [go_semicolon hitem, hgo]
    rfl
  | false =>
    obtain ⟨after, hinside, hgo⟩ := go_first items hitem
    obtain ⟨whole, more, rest, parts, rfl, hwhole, hcut, hrun⟩ := ih.inside hinside
    have hfirst : whole.first = item := Part.first_of_append hwhole
    refine ⟨whole :: parts, ?_, ?_⟩
    . have hpart : Cut text before (whole.items ++ rest) (whole :: parts) := by
        apply Cut.part _ hcut
        intro other hother
        rw [hfirst]
        exact hbefore other hother
      rw [hwhole] at hpart
      exact hpart
    . rw [hgo]
      exact hrun

theorem CutBy.inside_cons (ih : CutBy text items) {part : Part text} (hinside : Inside state part) :
    ∃ (whole : Part text) (more rest : List Item) (parts : List (Part text)),
      item :: items = more ++ rest ∧ whole.items = part.items ++ more ∧
        Cut text (some whole) rest parts ∧
      part.lexemes ++ ofItems.go text state (item :: items) = whole.stream ++ streams parts := by
  cases hitem : item.isPunct ";" with
  | true =>
    obtain ⟨parts, hcut, hgo⟩ := ih.fresh none (by simp)
    refine ⟨part, [], item :: items, parts, rfl, (List.append_nil _).symm,
      .semicolon hitem hcut, ?_⟩
    rw [go_semicolon hitem, endIfOpen_of_last hinside.last, hgo]
    simp [Part.stream]
  | false =>
    rcases go_next items hinside hitem with
      ⟨after, hafter, hgo⟩ | ⟨hfunction, hgo⟩ | ⟨hcontinues, hgo⟩
    . obtain ⟨whole, more, rest, parts, rfl, hwhole, hcut, hrun⟩ := ih.inside hafter
      refine ⟨whole, item :: more, rest, parts, rfl, by simpa [Part.snoc] using hwhole, hcut, ?_⟩
      rw [hgo, ← hrun]
      simp [Part.snoc]
    . have hsnoc := @Part.hasFunction_snoc text state item items.head? part hfunction hitem
      obtain ⟨parts, hcut, hrun⟩ := ih.fresh (some (part.snoc state item items.head? hitem)) (by
        intro other hother
        cases hother
        exact .inl hsnoc)
      refine ⟨part.snoc state item items.head? hitem, [item], items, parts, rfl, rfl, hcut, ?_⟩
      rw [hgo, hrun]
      simp [Part.stream, Part.snoc, Part.last]
    . obtain ⟨parts, hcut, hrun⟩ := ih.fresh_cons item (some part) fun _ _ => .inr hcontinues
      refine ⟨part, [], item :: items, parts, rfl, (List.append_nil _).symm, hcut, ?_⟩
      rw [hgo, hrun]
      simp [Part.stream]

theorem cutBy (text : String) (items : List Item) : CutBy text items := by
  induction items with
  | nil => exact cutBy_nil
  | cons item items ih =>
    constructor
    . intro before hbefore
      exact ih.fresh_cons item before (by simpa using hbefore)
    . intro state part hinside
      exact ih.inside_cons hinside

theorem cut_ofItems (text : String) (items : List Item) :
    ∃ parts, Cut text none items parts ∧ ofItems text items = streams parts :=
  (cutBy text items).fresh none (by simp)

theorem Cut.at_semicolon {before : Option (Part text)} {parts : List (Part text)}
    (h : Cut text before (items ++ item :: more) parts) (hitem : item.isPunct ";" = true) :
    ∃ first second, parts = first ++ second ∧ Cut text before items first ∧
      Cut text none more second := by
  generalize hall : items ++ item :: more = all at h
  induction h generalizing items with
  | nil => simp at hall
  | @semicolon _ other rest parts hother hrest ih =>
    cases items with
    | nil =>
      cases hall
      exact ⟨[], parts, rfl, .nil, hrest⟩
    | cons head items =>
      cases hall
      obtain ⟨first, second, rfl, hfirst, hsecond⟩ := ih rfl
      exact ⟨first, second, rfl, .semicolon hother hfirst, hsecond⟩
  | @part before part rest parts hbegins hrest ih =>
    rcases List.append_eq_append_iff.mp hall with ⟨inner, hpart, htail⟩ | ⟨outer, rfl, htail⟩
    . cases inner with
      | nil =>
        obtain ⟨first, second, rfl, hfirst, hsecond⟩ := @ih [] htail
        have hcut := Cut.part hbegins hfirst
        rw [List.append_nil, hpart, List.append_nil] at hcut
        exact ⟨part :: first, second, rfl, hcut, hsecond⟩
      | cons head inner =>
        cases htail
        have := part.no_semicolon item (by simp [hpart])
        simp [hitem] at this
    . obtain ⟨first, second, rfl, hfirst, hsecond⟩ := ih htail.symm
      exact ⟨part :: first, second, rfl, .part hbegins hfirst, hsecond⟩

theorem Cut.items_eq {before : Option (Part text)} {parts : List (Part text)}
    (h : Cut text before items parts) :
    items.filter (!·.isPunct ";") = parts.flatMap Part.items := by
  induction h with
  | nil => rfl
  | semicolon hitem _ ih => simp [hitem, ih]
  | @part _ part _ _ _ _ ih =>
    rw [List.filter_append, List.flatMap_cons, ih, List.filter_eq_self.mpr]
    intro item hmem
    simp [part.no_semicolon item hmem]

end Lexeme
end ComponentCompiler
