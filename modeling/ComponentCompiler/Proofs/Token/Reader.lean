import ComponentCompiler.Proofs.Descent
import ComponentCompiler.Proofs.Token.Closed

/-!
This module contains the recursion of the readers of nested constructs. It goes on with shorter
texts only, so that it has one solution, and the bounded readers agree with it on all texts that
their bound is enough for. A text that can not be read is an error and never just a warning.
-/

namespace ComponentCompiler

def Fault.IsSevere (fault : Fault) : Prop :=
  fault.problem.severity = .error

namespace Token

/-- What to read on inside of, with the characters that were left at its start. -/
inductive Inside where
  | template (left : Nat)
  | group (left : Nat) (bracket : Bracket) (inner : List Bracket) (operand : Bool)
  | markup (left : Nat)
  | attributes (left : Nat) (tag : List Char)
  | children (left : Nat)

namespace Inside

def left : Inside → Nat
  | template left | group left .. | markup left | attributes left _ | children left => left

@[reducible]
def Result : Inside → Type
  | template _ | group .. => List Char
  | markup _ | attributes .. | children _ => List Slot × List Char

def rest : (place : Inside) → place.Result → List Char
  | template _ | group .. => id
  | markup _ | attributes .. | children _ => Prod.snd

end Inside

def Reader : Type :=
  (place : Inside) → List Char → Except Fault place.Result

namespace Reader

def bounded (n : Nat) : Reader
  | .template left => templateRest n left
  | .group left bracket inner operand => groupRest n bracket left inner operand
  | .markup left => markupRest n left
  | .attributes left tag => attributesRest n left tag
  | .children left => childrenRest n left

def slot (r : Reader) (inner : List Char) : Except Fault (List Char) :=
  r (.group (inner.length + 1) .curly [] true) inner

def token (r : Reader) : Bool → Char → List Char → Except Fault (Kind × List Char) :=
  lexeme (fun left => r (.template left)) fun left => r (.markup left)

/-- One step of each reader, with the given ones for what is left. -/
def pass (r : Reader) : Reader
  | .template left => templateStep r.slot (r (.template left)) left
  | .group left bracket inner operand =>
    groupStep r.token (fun inner operand => r (.group left bracket inner operand)) bracket left
      inner operand
  | .markup left => markupStep (r (.children left)) fun tag => r (.attributes left tag)
  | .attributes left tag =>
    attributesStep r.slot (r (.attributes left tag)) (r (.children left)) left tag
  | .children left => childrenStep r.slot (r (.children left)) (fun left => r (.markup left)) left

theorem bounded_succ (n : Nat) : bounded (n + 1) = (bounded n).pass := by
  funext place cs
  cases place with
  | template left => exact templateRest.eq_2 _ _ _
  | group left bracket inner operand => exact groupRest.eq_2 _ _ _ _ _ _
  | markup left => exact markupRest.eq_2 _ _ _
  | attributes left tag => exact attributesRest.eq_2 _ _ _ _
  | children left => exact childrenRest.eq_2 _ _ _

/-- Two readings that come to the same, an error at one of the last `bound` characters or a rest of
no more than `size` characters. -/
def Agree (bound size : Nat) (rest : α → List Char) : Except Fault α → Except Fault α → Prop :=
  Paired (fun e e' => e = e' ∧ e.IsSevere ∧ e.left ≤ bound) fun a b => a = b ∧
    (rest a).length ≤ size

namespace Agree

variable {bound size : Nat} {rest : α → List Char} {x y : Except Fault α}

theorem ok {a : α} (h : (rest a).length ≤ size) : Agree bound size rest (.ok a) (.ok a) :=
  Paired.ok ⟨rfl, h⟩

theorem error {e : Fault} (hsevere : e.IsSevere) (h : e.left ≤ bound) :
    Agree bound size rest (.error e) (.error e) :=
  Paired.error ⟨rfl, hsevere, h⟩

theorem bind {rest' : β → List Char} {f g : α → Except Fault β} (h : Agree bound size rest x y)
    (hbound : bound ≤ bound')
    (hf : ∀ a, (rest a).length ≤ size → Agree bound' size' rest' (f a) (g a)) :
    Agree bound' size' rest' (x >>= f) (y >>= g) := by
  cases h with
  | ok h =>
    obtain ⟨rfl, h⟩ := h
    exact hf _ h
  | error h => exact Paired.error ⟨h.1, h.2.1, Nat.le_trans h.2.2 hbound⟩

theorem mono (h : Agree bound size rest x y) (hbound : bound ≤ bound') (hsize : size ≤ size') :
    Agree bound' size' rest x y := by
  cases h with
  | ok h => exact Paired.ok ⟨h.1, Nat.le_trans h.2 hsize⟩
  | error h => exact Paired.error ⟨h.1, h.2.1, Nat.le_trans h.2.2 hbound⟩

theorem failsOnly (h : Agree bound size rest x y) : FailsOnly Fault.IsSevere x := by
  cases h with
  | ok h => exact .ok _
  | error h => exact .error h.2.1

theorem length {a : α} (h : Agree bound size rest x (.ok a)) : (rest a).length ≤ size := by
  obtain ⟨_, _, rfl, hrest⟩ := h.exists_ok
  exact hrest

theorem eq (h : Agree bound size rest x y) : x = y := by
  cases h with
  | ok h => rw [h.1]
  | error h => rw [h.1]

end Agree

/-! ### What does not nest -/

theorem failsOnly_go (gap : Gap) (newline : Bool) (cs : List Char)
    (h : cs.length + (match gap with | .slash => 1 | _ => 0) ≤ bound)
    (hleft : ∀ left star, gap = .block left star → left ≤ bound) :
    FailsOnly (fun e => e.IsSevere ∧ e.left ≤ bound) (afterGap.go gap newline cs) := by
  fun_induction afterGap.go gap newline cs with
  | case4 => exact .error ⟨rfl, hleft _ _ rfl⟩
  | _ => first | exact .ok _ | grind

theorem length_afterGap (h : afterGap newline cs = .ok (newline', rest)) :
    rest.length ≤ cs.length := by
  cases rest with
  | nil => exact Nat.zero_le _
  | cons c more =>
    obtain ⟨used, rfl, _⟩ := afterGap_append h
    simp

theorem agree_afterGap (newline : Bool) (cs : List Char) :
    Agree cs.length cs.length Prod.snd (afterGap newline cs) (afterGap newline cs) :=
  .self (fun _ hread => ⟨rfl, length_afterGap hread⟩)
    fun e hread => ⟨rfl, failsOnly_go .blank newline cs (Nat.le_refl _) nofun e hread⟩

theorem agree_closingTag (tag cs : List Char) :
    Agree cs.length cs.length id (closingTag tag cs) (closingTag tag cs) := by
  unfold closingTag
  dsimp only
  split
  . exact .error rfl (Nat.le_refl _)
  . next found rest hname =>
    have hafter : (Text.dropBlank rest).length ≤ cs.length := by
      have hlength := congrArg List.length (tagName?_append hname).1
      have := Text.dropBlank_length_le rest
      have := Text.dropBlank_length_le (cs.drop 2)
      rw [List.length_append] at hlength
      rw [List.length_drop] at this
      omega
    split
    . split
      . next hrest =>
        rw [hrest, List.length_cons] at hafter
        exact .ok (Nat.le_of_succ_le hafter)
      . exact .error rfl hafter
    . exact .error rfl (Nat.le_refl _)

/-! ### What nests -/

/-- The readers agree on texts of less than `k` characters. -/
def AgreeBelow (k : Nat) (r r' : Reader) : Prop :=
  ∀ place cs, cs.length < k →
    Agree (max place.left cs.length) cs.length place.rest (r place cs) (r' place cs)

namespace AgreeBelow

variable {r r' : Reader} {left : Nat} {cs tag : List Char} {bracket : Bracket}
    {inner : List Bracket}

theorem zero (r r' : Reader) : AgreeBelow 0 r r' :=
  fun _ _ hcs => absurd hcs (Nat.not_lt_zero _)

variable (h : AgreeBelow k r r')
include h

/-- What a construct goes on with after some of its characters. -/
theorem next (place : Inside) (hcs : cs.length < k + 1) (ds : List Char)
    (hds : ds.length < cs.length) :
    Agree (max place.left cs.length) cs.length place.rest (r place ds) (r' place ds) :=
  (h place ds (by omega)).mono (by omega) (by omega)

theorem template (hcs : cs.length < k + 1) :
    Agree (max left cs.length) cs.length id (templateStep r.slot (r (.template left)) left cs)
      (templateStep r'.slot (r' (.template left)) left cs) := by
  have hnext := h.next (.template left) hcs
  unfold templateStep
  cases cs with
  | nil => exact .error rfl (Nat.le_max_left _ _)
  | cons c cs =>
    rw [List.length_cons] at hcs hnext ⊢
    dsimp only
    split
    . exact hnext _ (by rw [List.length_drop]; omega)
    split
    . exact .ok (Nat.le_succ _)
    split
    . split
      . next inner =>
        rw [List.length_cons] at hcs hnext ⊢
        refine (h (.group ..) inner (by omega)).bind
          (by simp only [Inside.left]; omega) fun rest hrest => ?_
        exact hnext rest (Nat.lt_succ_of_le (Nat.le_succ_of_le hrest))
      . exact hnext cs (Nat.lt_succ_self _)
    . exact hnext cs (Nat.lt_succ_self _)

theorem token (operand : Bool) (c : Char) {more : List Char} (hmore : more.length < k) :
    Agree (more.length + 1) more.length Prod.snd (r.token operand c more)
      (r'.token operand c more) := by
  unfold Reader.token Token.lexeme
  dsimp only
  split
  . split
    . next hread =>
      obtain ⟨used, rfl, _⟩ := stringRest?_closed hread
      exact .ok (by simp)
    . exact .error rfl (Nat.le_refl _)
  split
  . exact (h (.template _) more hmore).bind (by simp only [Inside.left]; omega) fun rest hrest =>
      .ok hrest
  split
  . next hnumber =>
    obtain ⟨used, hmore, _⟩ := numberRest_local hnumber
    exact .ok (List.IsSuffix.length_le ⟨used, hmore.symm⟩)
  split
  . exact .ok (List.length_dropWhile_le _ _)
  split
  . exact (h (.markup _) more hmore).bind (by simp only [Inside.left]; omega) fun found hfound =>
      .ok hfound
  split
  . split
    . next hread =>
      obtain ⟨used, rfl, _⟩ := regexRest?_local hread
      exact .ok (by simp)
    . exact .error rfl (Nat.le_refl _)
  . obtain ⟨used, hmore, _⟩ := operatorRest_local c more
    exact .ok (List.IsSuffix.length_le ⟨used, hmore.symm⟩)

theorem group (hcs : cs.length < k + 1) :
    Agree (max left cs.length) cs.length id (r.pass (.group left bracket inner operand) cs)
      (r'.pass (.group left bracket inner operand) cs) := by
  refine (agree_afterGap false cs).bind (Nat.le_max_right _ _) fun gap hgap => ?_
  obtain ⟨newline, ds⟩ := gap
  dsimp only at hgap
  cases ds with
  | nil => exact .error rfl (Nat.le_max_left _ _)
  | cons c more =>
    rw [List.length_cons] at hgap
    refine (h.token operand c (by omega)).bind (by omega) fun word hword => ?_
    obtain ⟨kind, rest⟩ := word
    dsimp only at hword ⊢
    have hnext := fun inner operand => h.next (.group left bracket inner operand) hcs rest
      (by omega)
    split
    . exact hnext _ _
    . cases inner with
      | nil =>
        dsimp only
        split
        . exact .ok (by simp; omega)
        . exact .error rfl (by simp; omega)
      | cons innermost outer =>
        dsimp only
        split
        . exact hnext _ _
        . exact .error rfl (by simp; omega)
    . exact hnext _ _

theorem markup (hcs : cs.length < k + 1) :
    Agree (max left cs.length) cs.length Prod.snd
      (markupStep (r (.children left)) (fun tag => r (.attributes left tag)) cs)
      (markupStep (r' (.children left)) (fun tag => r' (.attributes left tag)) cs) := by
  unfold markupStep
  dsimp only
  split
  . next cs =>
    rw [List.length_cons] at hcs ⊢
    refine (h (.children left) cs (by omega)).bind
      (by simp only [Inside.left]; omega) fun children hchildren => ?_
    obtain ⟨slots, rest⟩ := children
    dsimp only [Inside.rest] at hchildren ⊢
    split
    . exact .ok (by simp at hchildren ⊢; omega)
    . exact .error rfl (by simp; omega)
  . cases hname : tagName? cs with
    | none => exact .error rfl (Nat.le_max_right _ _)
    | some found =>
      obtain ⟨tag, rest⟩ := found
      obtain ⟨rfl, hne, _⟩ := tagName?_append hname
      exact h.next (.attributes left tag) hcs rest (by simp [List.length_pos_iff.mpr hne])

theorem slot {next next' : List Char → Except Fault (List Slot × List Char)} {inner : List Char}
    (hinner : inner.length < k) (hbound : inner.length < bound)
    (hnext : ∀ rest : List Char, rest.length ≤ inner.length →
      Agree bound size Prod.snd (next rest) (next' rest)) :
    Agree bound size Prod.snd
      (do let rest ← r.slot inner
          let more ← next rest
          return (Slot.mk inner.length (rest.length + 1) :: more.1, more.2))
      (do let rest ← r'.slot inner
          let more ← next' rest
          return (Slot.mk inner.length (rest.length + 1) :: more.1, more.2)) := by
  refine (h (.group ..) inner hinner).bind (by simp only [Inside.left]; omega) fun rest hrest => ?_
  exact (hnext rest hrest).bind (Nat.le_refl _) fun more hmore => .ok hmore

theorem attributes (hcs : cs.length < k + 1) :
    Agree (max left cs.length) cs.length Prod.snd
      (attributesStep r.slot (r (.attributes left tag)) (r (.children left)) left tag cs)
      (attributesStep r'.slot (r' (.attributes left tag)) (r' (.children left)) left tag cs) := by
  have hnext := h.next (.attributes left tag) hcs
  have hblank := Text.dropBlank_length_le cs
  unfold attributesStep
  dsimp only
  generalize Text.dropBlank cs = ds at hblank ⊢
  split
  . exact .error rfl (Nat.le_max_left _ _)
  . exact .ok (by simp at hblank ⊢; omega)
  . next ds =>
    rw [List.length_cons] at hblank
    refine (h (.children left) ds (by omega)).bind
      (by simp only [Inside.left]; omega) fun children hchildren => ?_
    dsimp only [Inside.rest] at hchildren
    refine (agree_closingTag _ _).bind (by omega) fun rest hrest => .ok ?_
    exact Nat.le_trans hrest (by omega)
  . rw [List.length_cons] at hblank
    exact h.slot (by omega) (by omega) fun rest hrest => hnext rest (by omega)
  . next c ds _ _ _ =>
    cases hname : attributeName? (c :: ds) with
    | none => exact .error rfl (by simp at hblank ⊢; omega)
    | some found =>
      obtain ⟨name, after⟩ := found
      obtain ⟨hds, hne, _⟩ := attributeName?_append hname
      have hafter : after.length < cs.length := by
        have := List.length_pos_iff.mpr hne
        rw [hds, List.length_append] at hblank
        omega
      have hvalue := Text.dropBlank_length_le after
      dsimp only
      generalize Text.dropBlank after = ds at hvalue ⊢
      split
      . next ds =>
        have hquote := Text.dropBlank_length_le ds
        rw [List.length_cons] at hvalue
        generalize Text.dropBlank ds = ds at hquote ⊢
        split
        . rw [List.length_cons] at hquote
          exact h.slot (by omega) (by omega) fun rest hrest => hnext rest (by omega)
        . split
          . next hread =>
            obtain ⟨used, rfl, _⟩ := attributeStringRest?_closed hread
            exact hnext _ (by simp at hquote; omega)
          . exact .error rfl (by simp at hquote ⊢; omega)
        . split
          . next hread =>
            obtain ⟨used, rfl, _⟩ := attributeStringRest?_closed hread
            exact hnext _ (by simp at hquote; omega)
          . exact .error rfl (by simp at hquote ⊢; omega)
        . exact .error rfl (by simp; omega)
      . exact hnext _ (by omega)

theorem children (hcs : cs.length < k + 1) :
    Agree (max left cs.length) cs.length Prod.snd
      (childrenStep r.slot (r (.children left)) (fun left => r (.markup left)) left cs)
      (childrenStep r'.slot (r' (.children left)) (fun left => r' (.markup left)) left cs) := by
  have hnext := h.next (.children left) hcs
  unfold childrenStep
  dsimp only
  split
  . exact .error rfl (Nat.le_max_left _ _)
  . exact .ok (Nat.le_refl _)
  . rw [List.length_cons] at hcs hnext ⊢
    exact h.slot (by omega) (by omega) fun rest hrest => hnext rest (by omega)
  . next inner _ =>
    rw [List.length_cons] at hcs hnext ⊢
    refine (h (.markup _) inner (by omega)).bind
      (by simp only [Inside.left]; omega) fun found hfound => ?_
    exact (hnext found.2 (Nat.lt_succ_of_le hfound)).bind (Nat.le_refl _) fun more hmore =>
      .ok hmore
  . exact hnext _ (Nat.lt_succ_self _)

theorem pass : AgreeBelow (k + 1) r.pass r'.pass := by
  intro place cs hcs
  cases place with
  | template left => exact h.template hcs
  | group left bracket inner operand => exact h.group hcs
  | markup left => exact h.markup hcs
  | attributes left tag => exact h.attributes hcs
  | children left => exact h.children hcs

end AgreeBelow

/-! ### Bounds -/

theorem bounded_agree (hn : k ≤ n) (hm : k ≤ m) : AgreeBelow k (bounded n) (bounded m) := by
  induction k generalizing n m with
  | zero => exact .zero _ _
  | succ k ih =>
    obtain ⟨n, rfl⟩ := Nat.exists_eq_add_of_lt hn
    obtain ⟨m, rfl⟩ := Nat.exists_eq_add_of_lt hm
    rw [bounded_succ, bounded_succ]
    exact (ih (by omega) (by omega)).pass

theorem eq_of_bounded (h : ∀ k, AgreeBelow k (bounded k) r)
    (h' : ∀ k, AgreeBelow k (bounded k) r') : r = r' := by
  funext place cs
  exact (h _ place cs (Nat.lt_succ_self _)).eq.symm.trans (h' _ place cs (Nat.lt_succ_self _)).eq

/-- What the readers give with a bound that is enough. -/
def unbounded : Reader :=
  fun place cs => bounded (cs.length + 1) place cs

theorem agree_unbounded (n : Nat) : AgreeBelow n (bounded n) unbounded :=
  fun place cs hcs => bounded_agree hcs (Nat.le_refl _) place cs (Nat.lt_succ_self _)

theorem agree_pass (h : ∀ k, AgreeBelow k (bounded k) r) (k : Nat) :
    AgreeBelow k (bounded k) r.pass := by
  cases k with
  | zero => exact .zero _ _
  | succ k =>
    rw [bounded_succ]
    exact (h k).pass

theorem agree_of_fixed (h : r.pass = r) (k : Nat) : AgreeBelow k (bounded k) r := by
  induction k with
  | zero => exact .zero _ _
  | succ k ih =>
    rw [bounded_succ, ← h]
    exact ih.pass

theorem solves_unbounded : Solves pass unbounded where
  fixed := eq_of_bounded (agree_pass agree_unbounded) agree_unbounded
  only _ h := eq_of_bounded (agree_of_fixed h) agree_unbounded

end Reader
end Token
end ComponentCompiler
