import ComponentCompiler.Proofs.Token.Range

/-!
This module contains that reading goes forward. A construct that is skipped ends past its first
character and inside of the text, or there is a problem at a place of the text, and tokens are read
one after the other until no text is left.
-/

namespace ComponentCompiler
namespace Token

variable {text : String} {pos : Nat} {cs rest : List Char}

/-! ### Skipping -/

/-- The constructs that can be skipped from their first character on. -/
inductive Construct where
  | string
  | attributeString
  | template
  | regex
  | blockComment
  | group
  | markup
  deriving DecidableEq, Repr

namespace Construct

def skip : Construct → String → Nat → Except ScanError Nat
  | string => skipString
  | attributeString => skipAttributeString
  | template => skipTemplate
  | regex => skipRegex
  | blockComment => skipBlockComment
  | group => skipGroup
  | markup => skipMarkup

/-- The text starts as the construct does. -/
def Opens : Construct → List Char → Prop
  | string, c :: _ | attributeString, c :: _ => c = '\'' ∨ c = '"'
  | template, c :: _ => c = '\x60'
  | regex, c :: _ => c = '/'
  | blockComment, c :: d :: _ => c = '/' ∧ d = '*'
  | group, c :: _ => (Bracket.ofOpening? c).isSome = true
  | markup, c :: _ => c = '<'
  | _, _ => False

end Construct

/-- Reading from an offset on ends past it, or there is a problem from there on. -/
def Advances (text : String) (pos : Nat) (result : Except ScanError Nat) : Prop :=
  (∃ stop, result = .ok stop ∧ pos < stop ∧ stop ≤ text.length) ∨
    ∃ problem place, result = .error (.problem problem place) ∧ pos ≤ place ∧ place ≤ text.length

theorem length_of_drop (h : text.toList.drop pos = c :: cs) :
    text.length = pos + cs.length + 1 := by
  have hlength := congrArg List.length h
  rw [List.length_drop, String.length_toList, List.length_cons] at hlength
  omega

theorem drop_succ_of_drop (h : text.toList.drop pos = c :: cs) :
    text.toList.drop (pos + 1) = cs := by
  rw [← List.drop_drop, h]
  rfl

theorem charAt_of_drop (h : text.toList.drop pos = c :: cs) :
    charAt text pos = .ok (c, cs, cs.length + 1) := by
  rw [charAt, h]

namespace Advances

theorem ok (h : text.toList.drop pos = c :: cs) (hrest : rest.length ≤ cs.length) :
    Advances text pos (.ok (offsetOf text rest)) := by
  have hlength := length_of_drop h
  refine .inl ⟨_, rfl, ?_, Nat.sub_le _ _⟩
  rw [offsetOf]
  omega

theorem unclosed (h : text.toList.drop pos = c :: cs) (problem : Problem) :
    Advances text pos (.error (.problem problem pos)) := by
  have hlength := length_of_drop h
  exact .inr ⟨problem, pos, rfl, Nat.le_refl _, by omega⟩

theorem fault (h : text.toList.drop pos = c :: cs) (fault : Fault) :
    Advances text pos (.error (fault.toError pos (cs.length + 1))) := by
  have hlength := length_of_drop h
  exact .inr ⟨fault.problem, _, rfl, Nat.le_add_right _ _, by omega⟩

end Advances

theorem Reader.length_bounded (place : Inside) {found : place.Result}
    (h : bounded (cs.length + 1) place cs = .ok found) : (place.rest found).length ≤ cs.length := by
  have hread := bounded_agree (Nat.le_refl _) (Nat.le_refl _) place cs (Nat.lt_succ_self _)
  rw [h] at hread
  exact hread.length

theorem length_blockCommentRest? (h : blockCommentRest? cs = some rest) :
    rest.length ≤ cs.length := by
  fun_induction blockCommentRest? cs with
  | case1 cs =>
    cases h
    exact Nat.le_add_right _ 2
  | case2 c cs _ ih => exact Nat.le_succ_of_le (ih h)
  | case3 => simp at h

theorem skipString_advances (h : text.toList.drop pos = c :: cs) :
    Advances text pos (skipString text pos) := by
  rw [skipString, charAt_of_drop h, ok_bind]
  dsimp only
  split
  . next hread =>
    obtain ⟨used, rfl, _⟩ := stringRest?_closed hread
    exact .ok h (by simp)
  . exact .unclosed h _

theorem skipAttributeString_advances (h : text.toList.drop pos = c :: cs) :
    Advances text pos (skipAttributeString text pos) := by
  rw [skipAttributeString, charAt_of_drop h, ok_bind]
  dsimp only
  split
  . next hread =>
    obtain ⟨used, rfl, _⟩ := attributeStringRest?_closed hread
    exact .ok h (by simp)
  . exact .unclosed h _

theorem skipTemplate_advances (h : text.toList.drop pos = c :: cs) :
    Advances text pos (skipTemplate text pos) := by
  rw [skipTemplate, drop_succ_of_drop h]
  split
  . next rest hread => exact .ok h (Reader.length_bounded (.template _) hread)
  . exact .fault h _

theorem skipRegex_advances (h : text.toList.drop pos = c :: cs) :
    Advances text pos (skipRegex text pos) := by
  rw [skipRegex, drop_succ_of_drop h]
  split
  . next hread =>
    obtain ⟨used, rfl, _⟩ := regexRest?_local hread
    exact .ok h (by simp)
  . exact .unclosed h _

theorem skipBlockComment_advances (h : text.toList.drop pos = c :: d :: cs) :
    Advances text pos (skipBlockComment text pos) := by
  rw [skipBlockComment, drop_succ_of_drop (drop_succ_of_drop h)]
  split
  . next hread => exact .ok h (Nat.le_succ_of_le (length_blockCommentRest? hread))
  . exact .unclosed h _

theorem skipGroup_advances (h : text.toList.drop pos = c :: cs)
    (hc : Bracket.ofOpening? c = some bracket) : Advances text pos (skipGroup text pos) := by
  rw [skipGroup, charAt_of_drop h, ok_bind]
  dsimp only
  rw [hc]
  dsimp only
  split
  . next rest hread => exact .ok h (Reader.length_bounded (.group _ bracket [] true) hread)
  . exact .fault h _

theorem skipMarkup_advances (h : text.toList.drop pos = c :: cs) :
    Advances text pos (skipMarkup text pos) := by
  rw [skipMarkup, readMarkup, drop_succ_of_drop h]
  dsimp only
  split
  . next slots rest hread => exact .ok h (Reader.length_bounded (.markup _) hread)
  . exact .fault h _

theorem Construct.advances {construct : Construct} (h : construct.Opens (text.toList.drop pos)) :
    Advances text pos (construct.skip text pos) := by
  cases hdrop : text.toList.drop pos with
  | nil =>
    rw [hdrop] at h
    cases construct <;> exact h.elim
  | cons c cs =>
    rw [hdrop] at h
    cases construct with
    | string => exact skipString_advances hdrop
    | attributeString => exact skipAttributeString_advances hdrop
    | template => exact skipTemplate_advances hdrop
    | regex => exact skipRegex_advances hdrop
    | blockComment =>
      cases cs with
      | nil => exact h.elim
      | cons d cs => exact skipBlockComment_advances hdrop
    | group =>
      obtain ⟨bracket, hc⟩ := Option.isSome_iff_exists.mp h
      exact skipGroup_advances hdrop hc
    | markup => exact skipMarkup_advances hdrop

/-! ### Tokens -/

/-- One step of reading the tokens that start before `stop`. -/
def tokensPass (r : Reader) (stop : Nat)
    (next : List Char → Nat → Bool → Except ScanError (List Token)) (cs : List Char)
    (pos : Nat) (operand : Bool) : Except ScanError (List Token) :=
  match afterGap false cs with
  | .error fault =>
    if stop ≤ pos + (cs.length - fault.left) then .ok []
    else .error (fault.toError pos cs.length)
  | .ok (newline, rest) =>
    let start := pos + (cs.length - rest.length)
    if stop ≤ start then
      .ok []
    else
      match rest with
      | [] => .error .pastEnd
      | c :: more =>
        match r.token operand c more with
        | .error fault => .error (fault.toError start rest.length)
        | .ok (kind, after) => do
          let value := taken rest after
          let token := ⟨kind, value, start, start + (rest.length - after.length), newline⟩
          let tokens ← next after token.stop (operandAfter kind value)
          return token :: tokens

theorem Reader.agree_token (operand : Bool) (c : Char) (more : List Char) :
    Agree (more.length + 1) more.length Prod.snd
      (lexeme (templateRest (more.length + 1)) (markupRest (more.length + 1)) operand c more)
      (unbounded.token operand c more) :=
  (agree_unbounded (more.length + 1)).token operand c (Nat.lt_succ_self _)

theorem descends_tokensPass (stop : Nat) : Descends List.length (tokensPass .unbounded stop) := by
  intro next next' cs h
  funext pos operand
  unfold tokensPass
  split
  . rfl
  . next newline rest hgap =>
    have hrest := Reader.length_afterGap hgap
    dsimp only
    split
    . rfl
    cases rest with
    | nil => rfl
    | cons c more =>
      dsimp only
      have hread := Reader.agree_token operand c more
      split
      . rfl
      . next kind after hlexeme =>
        rw [hlexeme] at hread
        rw [h after (Nat.lt_of_le_of_lt hread.length hrest)]

theorem scanFrom_succ (stop n : Nat) :
    (fun cs pos operand => scanFrom stop (n + 1) pos operand cs)
      =
    tokensPass .unbounded stop fun cs pos operand => scanFrom stop n pos operand cs := by
  funext cs pos operand
  rw [scanFrom, tokensPass]
  cases afterGap false cs with
  | error fault => rfl
  | ok gap =>
    obtain ⟨newline, rest⟩ := gap
    cases rest with
    | nil => rfl
    | cons c more =>
      have hread := (Reader.agree_token operand c more).eq
      dsimp only [List.length_cons]
      exact hread ▸ rfl

/-- A construct is skipped to an offset past its start, or there is a problem at an offset of the
text; so are tokens read up to any offset of the text. All this goes on with shorter and shorter
texts. The readers inside of constructs are the one solution of a recursion whose passes look at
shorter texts only, and so is the reading of tokens. -/
theorem skip_advances :
    (∀ (construct : Construct) (text : String) (pos : Nat), construct.Opens (text.toList.drop pos) →
      Advances text pos (construct.skip text pos)) ∧
    (∀ (text : String) (start stop : Nat), stop ≤ text.length →
      (∃ tokens, scanWindow text start stop = .ok tokens ∧
        ∀ t ∈ tokens, start ≤ t.start ∧ t.start < t.stop ∧ t.stop ≤ text.length) ∨
      ∃ problem place, scanWindow text start stop = .error (.problem problem place) ∧
        place ≤ text.length) ∧
    (∀ k r r', Reader.AgreeBelow k r r' → Reader.AgreeBelow (k + 1) r.pass r'.pass) ∧
    ∃ reader, Solves Reader.pass reader ∧ (∀ n, Reader.AgreeBelow n (.bounded n) reader) ∧
      ∀ stop, Descends List.length (tokensPass reader stop) ∧
        ∃ tokens, Solves (tokensPass reader stop) tokens ∧
          ∀ (text : String) (start : Nat), scanWindow text start stop =
            tokens (text.toList.drop start) start true := by
  refine ⟨fun _ _ _ => Construct.advances, ?_, fun _ _ _ h => h.pass, .unbounded,
    Reader.solves_unbounded, Reader.agree_unbounded, ?_⟩
  . intro text start stop hstop
    have hfails := failsOnly_scanWindow start hstop
    cases hscan : scanWindow text start stop with
    | error e =>
      obtain ⟨problem, place, rfl, hplace, _⟩ := hfails e hscan
      exact .inr ⟨problem, place, rfl, hplace⟩
    | ok tokens =>
      refine .inl ⟨tokens, rfl, ?_⟩
      intro t ht
      have hrange := (increasing_of_scanWindow hscan).nonempty t.range (List.mem_map_of_mem ht)
      refine ⟨?_, hrange, stop_le_of_scanWindow hscan ht⟩
      obtain ⟨ws, rest, hrun, _, rfl⟩ := scanFrom_ok hscan
      exact hrun.le_start ht
  . intro stop
    obtain ⟨tokens, hsolves, hbounded⟩ := (descends_tokensPass stop).exists_solution
      (f := fun n cs pos operand => scanFrom stop n pos operand cs) (scanFrom_succ stop)
    refine ⟨descends_tokensPass stop, tokens, hsolves, ?_⟩
    intro text start
    rw [← hbounded _ _ (Nat.lt_succ_self _)]
    rfl

theorem skip_advances_nested :
    Construct.group.Opens ("f(\x60${x}\x60) + 1".toList.drop 1) ∧
      skipGroup "f(\x60${x}\x60) + 1" 1 = .ok 9 ∧
      Advances "f(\x60${x}\x60) + 1" 1 (skipGroup "f(\x60${x}\x60) + 1" 1) :=
  ⟨rfl, by decide +kernel, skip_advances.1 .group _ 1 rfl⟩

end Token
end ComponentCompiler
