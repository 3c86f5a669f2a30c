import ComponentCompiler.Proofs.Markup.Reading
import ComponentCompiler.Proofs.Token.Range
import ComponentCompiler.Proofs.Token.Slot

/-!
This module contains the slots that belong to markup, each with the part that it plays there, as a
grammar of its own beside the two readers. The reader that passes over markup reports the slots of
the grammar, in the order in which they are written, and none of them is in another.
-/

namespace ComponentCompiler
namespace Markup

open Token (Slot AttributeStep markupRest attributesRest childrenRest)

/-- What a slot stands for: the value of an attribute, a spread, which stands between attributes, or
a child. -/
inductive Role where
  | value
  | spread
  | child
  deriving DecidableEq, Repr

/-- A slot, given by the characters after its `{` and those after its `}`. -/
structure Entry where
  role : Role
  content : List Char
  after : List Char

namespace Entry

def slot (e : Entry) : Slot :=
  ⟨e.content.length, e.after.length + 1⟩

/-- The text between the brackets. -/
def source (e : Entry) : String :=
  slotText e.content e.after

/-- The range between the brackets in a text whose end is at `stop`. -/
def range (stop : Nat) (e : Entry) : Nat × Nat :=
  (stop - e.content.length, stop - (e.after.length + 1))

/-- The same range with the brackets. -/
def group (stop : Nat) (e : Entry) : Nat × Nat :=
  (stop - (e.content.length + 1), stop - e.after.length)

def IsWritten (e : Entry) : Prop :=
  slotRest e.content = .ok e.after

/-- If the slot stands between attributes, its text starts with the dots of a spread. -/
def IsAllowed (e : Entry) : Prop :=
  e.role = .spread → Text.startsWith (Text.trim e.source) "..." = true

end Entry

/-- The forms that one attribute of a tag can have, with its slot and what follows it. What stands
between attributes in the place of one is not yet asked to have the dots of a spread. -/
inductive AttributeForm (cs : List Char) : List Entry → List Char → Prop where
  | spread (hcs : Text.dropBlank cs = '\x7b' :: content) (hslot : slotRest content = .ok after) :
    AttributeForm cs [⟨.spread, content, after⟩] after
  | value (hname : Token.attributeName? (Text.dropBlank cs) = some (name, equal))
      (hequal : Text.dropBlank equal = '=' :: more)
      (hopen : Text.dropBlank more = '\x7b' :: content) (hslot : slotRest content = .ok after) :
    AttributeForm cs [⟨.value, content, after⟩] after
  | string (hname : Token.attributeName? (Text.dropBlank cs) = some (name, equal))
      (hequal : Text.dropBlank equal = '=' :: more)
      (hopen : Text.dropBlank more = quote :: content) (hquote : quote = '\'' ∨ quote = '"')
      (hread : Token.attributeStringRest? quote content = some after) :
    AttributeForm cs [] after
  | bare (hname : Token.attributeName? (Text.dropBlank cs) = some (name, equal))
      (hafter : Text.dropBlank equal = after) (hequal : after.head? ≠ some '=') :
    AttributeForm cs [] after

/-- Where in markup a part of it stands: after the `<`, among the attributes of a tag or among
children. -/
inductive Place where
  | markup
  | tag (name : List Char)
  | children

/-- The first characters of a text, up to the rest, are what may stand at a place, with these slots.
Children end before the closing tag. -/
inductive Derives : Place → List Char → List Entry → List Char → Prop where
  | fragment (hchildren : Derives .children content entries ('<' :: '/' :: '>' :: rest)) :
    Derives .markup ('>' :: content) entries rest
  | element (hname : Token.tagName? cs = some (name, after))
      (htag : Derives (.tag name) after entries rest) :
    Derives .markup cs entries rest
  | single (hcs : Text.dropBlank cs = '/' :: '>' :: rest) : Derives (.tag name) cs [] rest
  | content (hcs : Text.dropBlank cs = '>' :: content)
      (hchildren : Derives .children content entries ('<' :: '/' :: mid))
      (hclose : Token.closingTag name ('<' :: '/' :: mid) = .ok rest) :
    Derives (.tag name) cs entries rest
  | attr (hfirst : AttributeForm cs first after) (hmore : Derives (.tag name) after entries rest) :
    Derives (.tag name) cs (first ++ entries) rest
  | closing : Derives .children ('<' :: '/' :: rest) [] ('<' :: '/' :: rest)
  | markup (hclose : content.head? ≠ some '/') (hmarkup : Derives .markup content first after)
      (hmore : Derives .children after entries rest) :
    Derives .children ('<' :: content) (first ++ entries) rest
  | slot (hslot : slotRest content = .ok after) (hmore : Derives .children after entries rest) :
    Derives .children ('\x7b' :: content) ([⟨.child, content, after⟩] ++ entries) rest
  | char (hc : isText c = true) (hmore : Derives .children cs entries rest) :
    Derives .children (c :: cs) entries rest

variable {place : Place} {cs rest content after : List Char} {entries first more : List Entry}

theorem eq_append_of_slotRest (h : slotRest content = .ok after) :
    ∃ used, content = used ++ '\x7d' :: after ∧ slotText content after = String.ofList used := by
  obtain ⟨used, rfl, _⟩ := Token.balanced_of_groupRest (slotRest_ok.mp h)
  exact ⟨used, rfl, Token.taken_append used _⟩

structure InOrder (cs : List Char) (entries : List Entry) (rest : List Char) : Prop where
  suffix : rest <:+ cs
  start : ∀ e ∈ entries, '\x7b' :: e.content <:+ cs
  written : ∀ e ∈ entries, e.IsWritten
  stop : ∀ e ∈ entries, rest <:+ e.after
  apart : entries.Pairwise fun e e' => '\x7b' :: e'.content <:+ e.after

theorem InOrder.of_suffix (h : rest <:+ cs) : InOrder cs [] rest :=
  ⟨h, by simp, by simp, by simp, .nil⟩

theorem InOrder.of_slot {e : Entry} (hopen : '\x7b' :: e.content <:+ cs) (hslot : e.IsWritten) :
    InOrder cs [e] e.after := by
  have hafter : e.after <:+ e.content := Token.groupRest_suffix (slotRest_ok.mp hslot)
  refine ⟨hafter.trans ((List.suffix_cons _ _).trans hopen), ?_, ?_, ?_,
    List.pairwise_singleton _ _⟩
  . exact List.forall_mem_singleton.mpr hopen
  . exact List.forall_mem_singleton.mpr hslot
  . exact List.forall_mem_singleton.mpr (List.suffix_refl e.after)

theorem InOrder.append (hfirst : InOrder cs first after) (hmore : InOrder after more rest) :
    InOrder cs (first ++ more) rest := by
  refine ⟨hmore.suffix.trans hfirst.suffix, ?_, ?_, ?_, ?_⟩
  . rw [List.forall_mem_append]
    exact ⟨hfirst.start, fun e he => (hmore.start e he).trans hfirst.suffix⟩
  . rw [List.forall_mem_append]
    exact ⟨hfirst.written, hmore.written⟩
  . rw [List.forall_mem_append]
    exact ⟨fun e he => hmore.suffix.trans (hfirst.stop e he), hmore.stop⟩
  . refine List.pairwise_append.mpr ⟨hfirst.apart, hmore.apart, ?_⟩
    intro e he e' he'
    exact (hmore.start e' he').trans (hfirst.stop e he)

theorem InOrder.after_suffix (h : InOrder after entries rest) (hafter : after <:+ cs) :
    InOrder cs entries rest :=
  (InOrder.of_suffix hafter).append h

theorem InOrder.before_suffix (h : InOrder cs entries after) (hrest : rest <:+ after) :
    InOrder cs entries rest := by
  rw [← List.append_nil entries]
  exact h.append (.of_suffix hrest)

theorem InOrder.increasing {stop : Nat} (h : InOrder cs entries rest) (hstop : cs.length ≤ stop) :
    Increasing (entries.map (Entry.group stop)) := by
  constructor
  . rw [List.forall_mem_map]
    intro e he
    have hstart := (h.start e he).length_le
    have hafter := (Token.groupRest_suffix (slotRest_ok.mp (h.written e he))).length_le
    rw [List.length_cons] at hstart
    simp only [Entry.group]
    omega
  . rw [List.pairwise_map]
    refine h.apart.imp ?_
    intro e e' hnext
    have hlength := hnext.length_le
    rw [List.length_cons] at hlength
    simp only [Entry.group]
    omega

theorem AttributeForm.inOrder (h : AttributeForm cs entries rest) : InOrder cs entries rest := by
  cases h with
  | spread hcs hslot =>
    have hopen := Token.dropBlank_suffix cs
    rw [hcs] at hopen
    exact .of_slot hopen hslot
  | @value _ _ more _ _ hname hequal hopen hslot =>
    have hmore := (Token.suffix_of_dropBlank hequal).trans (Token.attributeName?_suffix hname)
    have hinner := (Token.dropBlank_suffix more).trans hmore
    rw [hopen] at hinner
    exact .of_slot hinner hslot
  | string hname hequal hopen hquote hread =>
    have hmore := (Token.suffix_of_dropBlank hequal).trans (Token.attributeName?_suffix hname)
    obtain ⟨used, rfl, _⟩ := Token.attributeStringRest?_closed hread
    exact .of_suffix
      (((List.suffix_append used _).trans (Token.suffix_of_dropBlank hopen)).trans hmore)
  | @bare _ equal _ hname hafter hequal =>
    subst hafter
    exact .of_suffix ((Token.dropBlank_suffix equal).trans (Token.attributeName?_suffix hname))

theorem Derives.inOrder (h : Derives place cs entries rest) : InOrder cs entries rest := by
  induction h with
  | @fragment content _ rest _ ih =>
    have hrest : rest <:+ '<' :: '/' :: '>' :: rest := List.suffix_append ['<', '/', '>'] rest
    exact (ih.before_suffix hrest).after_suffix (List.suffix_cons _ content)
  | @element _ name after _ _ hname _ ih =>
    rw [(Token.tagName?_append hname).1]
    exact ih.after_suffix (List.suffix_append name after)
  | single hcs => exact .of_suffix ((List.suffix_cons _ _).trans (Token.suffix_of_dropBlank hcs))
  | content hcs _ hclose ih =>
    obtain ⟨used, rfl, _⟩ := Token.closingTag_closed hclose
    exact (ih.before_suffix (List.suffix_append ('<' :: '/' :: used) _)).after_suffix
      (Token.suffix_of_dropBlank hcs)
  | attr hfirst _ ih => exact hfirst.inOrder.append ih
  | closing => exact .of_suffix (List.suffix_refl _)
  | @markup content _ _ _ _ _ _ _ ihmarkup ih =>
    exact (ihmarkup.after_suffix (List.suffix_cons _ content)).append ih
  | @slot content after _ _ hslot _ ih =>
    have hwritten : (⟨.child, content, after⟩ : Entry).IsWritten := hslot
    exact (InOrder.of_slot (List.suffix_refl _) hwritten).append ih
  | @char c cs _ _ _ _ ih => exact ih.after_suffix (List.suffix_cons c cs)

def Passes (cs : List Char) (slots : List Slot) (rest : List Char) : Place → Prop
  | .markup => ∃ n left, markupRest n left cs = .ok (slots, rest)
  | .tag name => ∃ n left, attributesRest n left name cs = .ok (slots, rest)
  | .children => ∃ n left, childrenRest n left cs = .ok (slots, rest)

theorem AttributeForm.step (h : AttributeForm cs entries after) (hn : cs.length ≤ n) :
    AttributeStep n cs (entries.map Entry.slot) after := by
  have hlength {e : Entry} (h : InOrder cs [e] after) : e.content.length ≤ n := by
    have := (h.start e (List.mem_singleton_self e)).length_le
    rw [List.length_cons] at this
    omega
  have horder := h.inOrder
  cases h with
  | spread hcs hslot => exact .spread hcs (groupRest_of_slotRest hslot (hlength horder))
  | value hname hequal hopen hslot =>
    exact .slot hname hequal hopen (groupRest_of_slotRest hslot (hlength horder))
  | string hname hequal hopen hquote hread => exact .text hname hequal hopen hquote hread
  | bare hname hafter hequal => exact .bare hname hafter hequal

theorem Derives.passes (h : Derives place cs entries rest) :
    Passes cs (entries.map Entry.slot) rest place := by
  induction h with
  | fragment _ ih =>
    obtain ⟨n, left, hread⟩ := ih
    exact ⟨n + 1, left, Token.markupRest_succ_ok.mpr (.fragment hread)⟩
  | element hname _ ih =>
    obtain ⟨n, left, hread⟩ := ih
    exact ⟨n + 1, left, Token.markupRest_succ_ok.mpr (.element hname hread)⟩
  | single hcs => exact ⟨1, 0, Token.attributesRest_succ_ok.mpr (.single hcs)⟩
  | content hcs _ hclose ih =>
    obtain ⟨n, left, hread⟩ := ih
    exact ⟨n + 1, left, Token.attributesRest_succ_ok.mpr (.children hcs hread hclose)⟩
  | @attr cs _ after _ _ rest hfirst _ ih =>
    obtain ⟨_, left, hread⟩ := ih
    have hafter := hfirst.inOrder.suffix.length_le
    have hread := Token.attributesRest_fuel (m := cs.length) hread (by omega) left
    rw [List.map_append]
    exact ⟨cs.length + 1, left,
      Token.attributesRest_succ_ok.mpr (.more (hfirst.step (Nat.le_refl _)) hread)⟩
  | closing => exact ⟨1, 0, Token.childrenRest_succ_ok.mpr .stop⟩
  | @markup content _ after _ rest hclose hmarkup _ ihmarkup ih =>
    obtain ⟨_, _, hfirst⟩ := ihmarkup
    obtain ⟨_, left, hread⟩ := ih
    have hafter := hmarkup.inOrder.suffix.length_le
    have hfirst := Token.markupRest_fuel (m := content.length + 1) hfirst (by omega)
      (content.length + 1)
    have hread := Token.childrenRest_fuel (m := content.length + 1) hread (by omega) left
    rw [List.map_append]
    exact ⟨content.length + 2, left, Token.childrenRest_succ_ok.mpr (.markup hclose hfirst hread)⟩
  | @slot content after _ rest hslot _ ih =>
    obtain ⟨_, left, hread⟩ := ih
    have hafter := (Token.groupRest_suffix (slotRest_ok.mp hslot)).length_le
    have hread := Token.childrenRest_fuel (m := content.length + 1) hread (by omega) left
    have hgroup := groupRest_of_slotRest (n := content.length + 1) hslot (by omega)
    exact ⟨content.length + 2, left, Token.childrenRest_succ_ok.mpr (.slot hgroup hread)⟩
  | @char c _ _ _ hc _ ih =>
    obtain ⟨n, left, hread⟩ := ih
    have hother : c ≠ '<' ∧ c ≠ '\x7b' := by simpa [isText] using hc
    exact ⟨n + 1, left, Token.childrenRest_succ_ok.mpr (.char hother.2 hother.1 hread)⟩

theorem AttributeForm.of_step (h : AttributeStep n cs slots after) :
    ∃ entries, AttributeForm cs entries after := by
  cases h with
  | spread hcs hread => exact ⟨_, .spread hcs (slotRest_of_groupRest hread)⟩
  | slot hname hequal hvalue hread =>
    exact ⟨_, .value hname hequal hvalue (slotRest_of_groupRest hread)⟩
  | text hname hequal hvalue hquote hread => exact ⟨_, .string hname hequal hvalue hquote hread⟩
  | bare hname hafter hequal => exact ⟨_, .bare hname hafter hequal⟩

/-- Whatever is passed over is derived by the grammar. -/
structure Derived (n : Nat) : Prop where
  markup : ∀ {left cs slots rest}, markupRest n left cs = .ok (slots, rest) →
    ∃ entries, Derives .markup cs entries rest
  tag : ∀ {left name cs slots rest}, attributesRest n left name cs = .ok (slots, rest) →
    ∃ entries, Derives (.tag name) cs entries rest
  children : ∀ {left cs slots rest}, childrenRest n left cs = .ok (slots, rest) →
    ∃ entries, Derives .children cs entries rest

theorem Derived.succ (ih : Derived n) : Derived (n + 1) := by
  constructor
  . intro left cs slots rest h
    cases Token.markupRest_succ_ok.mp h with
    | fragment hread =>
      obtain ⟨entries, hentries⟩ := ih.children hread
      exact ⟨entries, .fragment hentries⟩
    | element hname hread =>
      obtain ⟨entries, hentries⟩ := ih.tag hread
      exact ⟨entries, .element hname hentries⟩
  . intro left name cs slots rest h
    cases Token.attributesRest_succ_ok.mp h with
    | single hcs => exact ⟨[], .single hcs⟩
    | children hcs hread hclose =>
      obtain ⟨entries, hentries⟩ := ih.children hread
      obtain ⟨_, _, mid, _, rfl, _⟩ := (Token.Closed.of_fuel n).children hread
      exact ⟨entries, .content hcs hentries hclose⟩
    | more hfirst hread =>
      obtain ⟨first, hfirst⟩ := AttributeForm.of_step hfirst
      obtain ⟨entries, hentries⟩ := ih.tag hread
      exact ⟨first ++ entries, .attr hfirst hentries⟩
  . intro left cs slots rest h
    cases Token.childrenRest_succ_ok.mp h with
    | stop => exact ⟨[], .closing⟩
    | slot hslot hread =>
      obtain ⟨entries, hentries⟩ := ih.children hread
      exact ⟨_, .slot (slotRest_of_groupRest hslot) hentries⟩
    | markup hclose hmarkup hread =>
      obtain ⟨first, hfirst⟩ := ih.markup hmarkup
      obtain ⟨entries, hentries⟩ := ih.children hread
      exact ⟨first ++ entries, .markup hclose hfirst hentries⟩
    | char hslot hmarkup hread =>
      obtain ⟨entries, hentries⟩ := ih.children hread
      exact ⟨entries, .char (by simp [isText, hslot, hmarkup]) hentries⟩

theorem derived (n : Nat) : Derived n := by
  induction n with
  | zero =>
    constructor
    all_goals
      intros
      next h => simp [markupRest, attributesRest, childrenRest] at h
  | succ n ih => exact ih.succ

end Markup
end ComponentCompiler
