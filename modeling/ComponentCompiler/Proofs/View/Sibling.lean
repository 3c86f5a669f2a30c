import ComponentCompiler.View.Analysis
import Mathlib.Data.List.Induction

/-!
This module contains how siblings come apart into chains of helper calls and what is between them:
each chain goes on as long as it can, and there is exactly one way to do so.
-/

namespace ComponentCompiler
namespace View

/-- What a sibling is to the chains of helper calls around it, and what it brings to them. -/
inductive Sibling where
  /-- `$if` with two arguments. -/
  | start (place : Span) (condition body : Snippet)
  /-- `$if` with three arguments. -/
  | whole (place : Span) (condition body alternative : Snippet)
  /-- `$elseif` with two arguments. -/
  | elseIf (source : Snippet) (place : Span) (condition body : Snippet)
  /-- `$else` with one argument. -/
  | otherwise (source : Snippet) (place : Span) (body : Snippet)
  /-- One of these helpers with another number of arguments. -/
  | malformed (source : Snippet) (helper : String) (count : Nat)
  /-- A text that is white space only. -/
  | blank (span : Span) (value : String)
  | other (node : Markup.Node)

namespace Sibling

def ofCall (source : Snippet) (call : Snippet.Call) : Sibling :=
  match call.callee, call.arguments with
  | "$if", [condition, body] => .start call.snippet.span condition body
  | "$if", [condition, body, alternative] => .whole call.snippet.span condition body alternative
  | "$elseif", [condition, body] => .elseIf source call.snippet.span condition body
  | "$else", [body] => .otherwise source call.snippet.span body
  | helper, arguments => .malformed source helper arguments.length

def of : Markup.Node → Except ScanError Sibling
  | .text span value =>
    return if Text.allBlank value then .blank span value else .other (.text span value)
  | .slot span source => do
    match ← (Snippet.ofSpan source span).chainCall? with
    | some call => return ofCall (.ofSpan source span) call
    | none => return .other (.slot span source)
  | node => return .other node

/-- It is the first member of a chain. -/
def isIf : Sibling → Bool
  | .start .. | .whole .. => true
  | _ => false

def isBlank : Sibling → Bool
  | .blank .. => true
  | _ => false

def closes : Sibling → Bool
  | .whole .. | .otherwise .. => true
  | _ => false

def joins : Sibling → Bool
  | .elseIf .. | .otherwise .. => true
  | _ => false

variable {s : Sibling}

theorem closes_of_isBlank (h : s.isBlank = true) : s.closes = false := by
  cases s with
  | blank => rfl
  | _ => cases h

end Sibling

/-- The branches of a chain, each with its condition, and the alternative to them. -/
structure Arms where
  span : Span
  first : Snippet × Snippet
  more : List (Snippet × Snippet) := []
  alternative : Option Snippet := none

/-- From the start of one place to the end of another. -/
def through (first last : Span) : Span :=
  { first with endLine := last.endLine, endColumn := last.endColumn, stop := last.stop }

/-- A chain that can go on: a `$if` with two arguments, then `$elseif` slots, each after any white
space. -/
inductive Opens : List Sibling → Arms → Prop where
  | start {place : Span} {condition body : Snippet} :
      Opens [.start place condition body] { span := place, first := (condition, body) }
  | elseIf {run blanks : List Sibling} {arms : Arms} {place : Span}
      {source condition body : Snippet}
      (h : Opens run arms) (hblanks : ∀ s ∈ blanks, s.isBlank = true) :
      Opens (run ++ blanks ++ [.elseIf source place condition body])
        { arms with span := through arms.span place, more := arms.more ++ [(condition, body)] }

/-- A chain: the same, with or without a last `$else` after any white space, or a `$if` with three
arguments. -/
inductive Run : List Sibling → Arms → Prop where
  | whole {place : Span} {condition body alternative : Snippet} :
      Run [.whole place condition body alternative]
        { span := place, first := (condition, body), alternative := some alternative }
  | opens {run : List Sibling} {arms : Arms} (h : Opens run arms) : Run run arms
  | otherwise {run blanks : List Sibling} {arms : Arms} {place : Span} {source body : Snippet}
      (h : Opens run arms) (hblanks : ∀ s ∈ blanks, s.isBlank = true) :
      Run (run ++ blanks ++ [.otherwise source place body])
        { arms with span := through arms.span place, alternative := some body }

/-- No longer chain starts where this one does. -/
def Maximal (run rest : List Sibling) : Prop :=
  ∀ more arms, more <+: rest → Run (run ++ more) arms → more = []

/-- The siblings come apart into maximal chains and single siblings that begin none. -/
inductive Divides : List Sibling → List (List Sibling) → Prop where
  | nil : Divides [] []
  | run {run rest : List Sibling} {parts : List (List Sibling)} {arms : Arms}
      (hrun : Run run arms) (hmaximal : Maximal run rest) (hrest : Divides rest parts) :
      Divides (run ++ rest) (run :: parts)
  | single {s : Sibling} {rest : List Sibling} {parts : List (List Sibling)}
      (hif : s.isIf = false) (hrest : Divides rest parts) : Divides (s :: rest) ([s] :: parts)

variable {run rest blanks siblings : List Sibling} {parts parts' : List (List Sibling)}
    {arms : Arms} {s last : Sibling}
variable {place : Span} {source condition body : Snippet}

theorem Opens.closes (h : Opens run arms) : ∀ s ∈ run, s.closes = false := by
  induction h with
  | start => simp [Sibling.closes]
  | elseIf h hblanks ih =>
    intro s hs
    simp only [List.mem_append, List.mem_singleton] at hs
    rcases hs with (hs | hs) | rfl
    . exact ih s hs
    . exact Sibling.closes_of_isBlank (hblanks s hs)
    . rfl

def Starts (run : List Sibling) : Prop :=
  ∃ first rest, run = first :: rest ∧ first.isIf = true ∧ ∀ s ∈ rest, s.isBlank = true ∨
    s.joins = true

theorem Starts.concat (h : Starts run) (hblanks : ∀ s ∈ blanks, s.isBlank = true)
    (hlast : last.joins = true) : Starts (run ++ blanks ++ [last]) := by
  obtain ⟨first, rest, rfl, hfirst, hrest⟩ := h
  refine ⟨first, rest ++ blanks ++ [last], by simp, hfirst, ?_⟩
  intro s hs
  simp only [List.mem_append, List.mem_singleton] at hs
  rcases hs with (hs | hs) | rfl
  . exact hrest s hs
  . exact .inl (hblanks s hs)
  . exact .inr hlast

theorem Opens.starts (h : Opens run arms) : Starts run := by
  induction h with
  | start => exact ⟨_, [], rfl, rfl, by simp⟩
  | elseIf h hblanks ih => exact ih.concat hblanks rfl

theorem Run.starts (h : Run run arms) : Starts run := by
  cases h with
  | whole => exact ⟨_, [], rfl, rfl, by simp⟩
  | opens h => exact h.starts
  | otherwise h hblanks => exact h.starts.concat hblanks rfl

theorem Run.ne_nil (h : Run run arms) : run ≠ [] := by
  obtain ⟨first, rest, rfl, _⟩ := h.starts
  simp

theorem Run.exists_concat (h : Run run arms) :
    ∃ before last, run = before ++ [last] ∧ last.isBlank = false ∧
      ∀ s ∈ before, s.closes = false := by
  cases h with
  | whole => exact ⟨[], _, rfl, rfl, by simp⟩
  | opens h =>
    have hnot := h.closes
    cases h with
    | start => exact ⟨[], _, rfl, rfl, by simp⟩
    | elseIf => exact ⟨_, _, rfl, rfl, fun s hs => hnot s (List.mem_append_left _ hs)⟩
  | otherwise h hblanks =>
    refine ⟨_, _, rfl, rfl, ?_⟩
    intro s hs
    rcases List.mem_append.mp hs with hs | hs
    . exact h.closes s hs
    . exact Sibling.closes_of_isBlank (hblanks s hs)

theorem Run.added (h : Run (run ++ rest) arms) (hrun : run ≠ []) (hrest : rest ≠ []) :
    (∀ s ∈ rest, s.isBlank = true ∨ s.joins = true) ∧ (∀ s ∈ run, s.closes = false) ∧
      ∃ last ∈ rest.getLast?, last.isBlank = false := by
  obtain ⟨first, more, hcons, _, hmore⟩ := h.starts
  obtain ⟨before, last, hconcat, hlast, hbefore⟩ := h.exists_concat
  have hbefore' : run ++ rest.dropLast = before ∧ rest.getLast? = some last := by
    rw [← List.dropLast_concat_getLast hrest, ← List.append_assoc] at hconcat
    obtain ⟨hinit, heq⟩ := List.append_inj' hconcat rfl
    rw [List.getLast?_eq_some_getLast hrest, List.singleton_inj.mp heq]
    exact ⟨hinit, rfl⟩
  refine ⟨?_, ?_, last, hbefore'.2, hlast⟩
  . intro s hs
    obtain ⟨x, run, rfl⟩ := List.exists_cons_of_ne_nil hrun
    rw [List.cons_append, List.cons.injEq] at hcons
    apply hmore
    rw [← hcons.2]
    exact List.mem_append_right _ hs
  . intro s hs
    apply hbefore
    rw [← hbefore'.1]
    exact List.mem_append_left _ hs

def Arms.add (arms : Option Arms) : Sibling → Option Arms
  | .start place condition body => some { span := place, first := (condition, body) }
  | .whole place condition body alternative =>
    some { span := place, first := (condition, body), alternative := some alternative }
  | .elseIf _ place condition body =>
    arms.map fun arms =>
      { arms with span := through arms.span place, more := arms.more ++ [(condition, body)] }
  | .otherwise _ place body =>
    arms.map fun arms => { arms with span := through arms.span place, alternative := some body }
  | .malformed .. | .blank .. | .other .. => arms

theorem Arms.foldl_add_blanks (hblanks : ∀ s ∈ blanks, s.isBlank = true) (arms : Option Arms) :
    blanks.foldl Arms.add arms = arms := by
  induction blanks with
  | nil => rfl
  | cons s blanks ih =>
    rw [List.forall_mem_cons] at hblanks
    cases s with
    | blank => exact ih hblanks.2
    | _ => cases hblanks.1

theorem Opens.foldl_add (h : Opens run arms) : run.foldl Arms.add none = some arms := by
  induction h with
  | start => rfl
  | elseIf h hblanks ih =>
    rw [List.foldl_append, List.foldl_append, ih, Arms.foldl_add_blanks hblanks]
    rfl

theorem Run.foldl_add (h : Run run arms) : run.foldl Arms.add none = some arms := by
  cases h with
  | whole => rfl
  | opens h => exact h.foldl_add
  | otherwise h hblanks =>
    rw [List.foldl_append, List.foldl_append, h.foldl_add, Arms.foldl_add_blanks hblanks]
    rfl

theorem Run.arms_unique {arms' : Arms} (h : Run run arms) (h' : Run run arms') : arms = arms' :=
  Option.some.inj (h.foldl_add.symm.trans h'.foldl_add)

theorem Opens.maximal (h : Opens run arms) (hblanks : ∀ s ∈ blanks, s.isBlank = true)
    (hstop : ∀ s ∈ rest.head?, s.isBlank = false ∧ s.joins = false) :
    Maximal run (blanks ++ rest) := by
  intro more arms' hmore hrun
  by_contra hne
  obtain ⟨hinner, _, last, hlast, hmember⟩ := hrun.added (Run.opens h).ne_nil hne
  have hlast' := List.mem_of_getLast? hlast
  obtain ⟨after, hafter⟩ := hmore
  -- all of it is white space, or it goes on with what stands after that
  have hblank : last ∈ blanks := by
    rcases List.append_eq_append_iff.mp hafter with ⟨_, rfl, _⟩ | ⟨added, rfl, rfl⟩
    . exact List.mem_append_left _ hlast'
    . cases added with
      | nil => simpa using hlast'
      | cons s added =>
        obtain ⟨hnot, hjoins⟩ := hstop s (by simp)
        have hmember := hinner s (by simp)
        simp [hnot, hjoins] at hmember
  rw [hblanks last hblank] at hmember
  cases hmember

theorem maximal_of_closes (h : last.closes = true) : Maximal (run ++ [last]) rest := by
  intro more arms' _ hrun
  by_contra hne
  have hnot := (hrun.added (by simp) hne).2.1 last (by simp)
  rw [h] at hnot
  cases hnot

theorem Divides.unique (h : Divides siblings parts) (h' : Divides siblings parts') :
    parts = parts' := by
  induction h generalizing parts' with
  | nil =>
    generalize hnil : ([] : List Sibling) = siblings at h'
    cases h' with
    | nil => rfl
    | run hrun => exact absurd (List.append_eq_nil_iff.mp hnil.symm).1 hrun.ne_nil
    | single => cases hnil
  | @run run rest parts arms hrun hmaximal _ ih =>
    generalize heq : run ++ rest = siblings at h'
    cases h' with
    | nil => exact absurd (List.append_eq_nil_iff.mp heq).1 hrun.ne_nil
    | run hrun' hmaximal' hrest' =>
      rcases List.append_eq_append_iff.mp heq with ⟨added, rfl, rfl⟩ | ⟨added, rfl, rfl⟩
      . obtain rfl := hmaximal added _ (List.prefix_append _ _) hrun'
        rw [List.append_nil, ih hrest']
      . obtain rfl := hmaximal' added _ (List.prefix_append _ _) hrun
        rw [List.append_nil, ih hrest']
    | single hif =>
      obtain ⟨first, more, rfl, hfirst, _⟩ := hrun.starts
      rw [List.cons_append, List.cons.injEq] at heq
      rw [heq.1, hif] at hfirst
      cases hfirst
  | @single s rest parts hif _ ih =>
    generalize heq : s :: rest = siblings at h'
    cases h' with
    | nil => cases heq
    | run hrun =>
      obtain ⟨first, more, rfl, hfirst, _⟩ := hrun.starts
      rw [List.cons_append, List.cons.injEq] at heq
      rw [← heq.1, hif] at hfirst
      cases hfirst
    | single _ hrest =>
      cases heq
      rw [ih hrest]

theorem Run.exists_maximal (h : Run run arms) (rest : List Sibling) :
    ∃ added rest' arms', rest = added ++ rest' ∧ Run (run ++ added) arms' ∧
      Maximal (run ++ added) rest' := by
  induction hn : rest.length using Nat.strongRecOn generalizing run arms rest with
  | ind n ih =>
    by_cases hmaximal : Maximal run rest
    . exact ⟨[], rest, arms, rfl, by simpa using h, by simpa using hmaximal⟩
    . unfold Maximal at hmaximal
      push Not at hmaximal
      obtain ⟨more, arms', ⟨rest', rfl⟩, hlonger, hne⟩ := hmaximal
      have hlt : rest'.length < n := by
        have hpos := List.length_pos_iff.mpr hne
        rw [List.length_append] at hn
        omega
      obtain ⟨added, rest, arms', rfl, hrun, hmaximal⟩ := ih rest'.length hlt hlonger rest' rfl
      refine ⟨more ++ added, rest, arms', by simp, ?_, ?_⟩
      . rwa [← List.append_assoc]
      . rwa [← List.append_assoc]

theorem exists_divides (siblings : List Sibling) : ∃ parts, Divides siblings parts := by
  induction hn : siblings.length using Nat.strongRecOn generalizing siblings with
  | ind n ih =>
    cases siblings with
    | nil => exact ⟨[], .nil⟩
    | cons s rest =>
      rw [List.length_cons] at hn
      cases hif : s.isIf with
      | false =>
        obtain ⟨parts, hparts⟩ := ih rest.length (by omega) rest rfl
        exact ⟨[s] :: parts, .single hif hparts⟩
      | true =>
        obtain ⟨arms, hrun⟩ : ∃ arms, Run [s] arms := by
          cases s with
          | start => exact ⟨_, .opens .start⟩
          | whole => exact ⟨_, .whole⟩
          | _ => cases hif
        obtain ⟨added, rest', arms, rfl, hrun, hmaximal⟩ := hrun.exists_maximal rest
        rw [List.length_append] at hn
        obtain ⟨parts, hparts⟩ := ih rest'.length (by omega) rest' rfl
        exact ⟨_, .run hrun hmaximal hparts⟩

theorem divides_append_iff {held : List Sibling} {heldParts : List (List Sibling)}
    (h : ∀ parts, Divides rest parts → Divides (held ++ rest) (heldParts ++ parts)) :
    Divides (held ++ rest) parts ↔ ∃ restParts, parts = heldParts ++ restParts ∧
      Divides rest restParts := by
  constructor
  . intro hparts
    obtain ⟨restParts, hrest⟩ := exists_divides rest
    exact ⟨restParts, hparts.unique (h restParts hrest), hrest⟩
  . rintro ⟨restParts, rfl, hrest⟩
    exact h restParts hrest

theorem Divides.blanks_append (hblanks : ∀ s ∈ blanks, s.isBlank = true) (h : Divides rest parts) :
    Divides (blanks ++ rest) (blanks.map ([·]) ++ parts) := by
  induction blanks with
  | nil => exact h
  | cons s blanks ih =>
    rw [List.forall_mem_cons] at hblanks
    refine .single ?_ (ih hblanks.2)
    cases s with
    | blank => rfl
    | _ => cases hblanks.1

end View
end ComponentCompiler
