import ComponentCompiler.Proofs.Token.Run

/-!
This module contains what scanning a window of a text, or a slice of it, has to do with scanning all
of it. A window that starts where an operand is due holds the tokens that the whole text has there.
-/

namespace ComponentCompiler
namespace Token

variable {start stop i : Nat} {newline : Bool} {gap rest : List Char} {ws pre part post : List Word}

def shift (n : Nat) (t : Token) : Token :=
  { t with start := t.start + n, stop := t.stop + n }

/-- Tokens without what stands before the first of them. -/
def startLine : List Token → List Token
  | [] => []
  | t :: ts => { t with newlineBefore := false } :: ts

/-- The window from `start` to `stop` has the tokens `part`, and so has the slice for itself, up to
where the tokens stand. -/
def Rescans (text : String) (start stop : Nat) (part : List Token) : Prop :=
  scanWindow text start stop = .ok part ∧
  ∃ own, scan (Text.slice text start stop) = .ok own ∧ own.map (shift start) = part

theorem tokensAt_add : tokensAt (pos + n) ws = (tokensAt pos ws).map (shift n) := by
  induction ws generalizing pos with
  | nil => rfl
  | cons w ws ih =>
    have hnext : pos + n + w.chars.length = pos + w.chars.length + n := by omega
    rw [tokensAt, tokensAt, hnext, ih]
    simp only [List.map_cons, List.cons.injEq, and_true, Word.token, shift, Token.mk.injEq,
      true_and]
    omega

theorem exists_of_getElem?_tokensAt (h : (tokensAt pos ws)[i]? = some t) :
    ∃ pre w post, ws = pre ++ w :: post ∧ pre.length = i ∧
      t = w.token (pos + (charsOf pre).length) := by
  induction ws generalizing pos i with
  | nil => simp [tokensAt] at h
  | cons w ws ih =>
    cases i with
    | zero =>
      simp only [tokensAt, List.getElem?_cons_zero, Option.some.injEq] at h
      exact ⟨[], w, ws, rfl, rfl, h.symm⟩
    | succ i =>
      simp only [tokensAt, List.getElem?_cons_succ] at h
      obtain ⟨pre, v, post, rfl, rfl, rfl⟩ := ih h
      exact ⟨w :: pre, v, post, rfl, rfl, by simp [Nat.add_assoc]⟩

theorem getElem?_tokensAt_append (h : pre.length ≤ i) :
    (tokensAt pos (pre ++ ws))[i]? =
    (tokensAt (pos + (charsOf pre).length) ws)[i - pre.length]? := by
  rw [tokensAt_append, List.getElem?_append_right]
  . rw [length_tokensAt]
  . rwa [length_tokensAt]

theorem part_tokensAt :
    ((tokensAt pos (pre ++ (part ++ post))).drop pre.length).take part.length
      =
    tokensAt (pos + (charsOf pre).length) part := by
  rw [tokensAt_append, tokensAt_append]
  rw [List.drop_left' length_tokensAt]
  rw [List.take_left' length_tokensAt]

theorem startLine_tokensAt :
    startLine (tokensAt pos (w :: ws)) = tokensAt (pos + w.gap.length) (w.bare :: ws) := by
  simp [startLine, tokensAt, Word.token, Word.bare, Word.chars, Nat.add_assoc]

theorem Run.start_lt (h : Run operand ws rest) (ht : t ∈ tokensAt pos ws) :
    t.start < pos + (charsOf ws).length := by
  induction ws generalizing operand pos with
  | nil => simp [tokensAt] at ht
  | cons w ws ih =>
    simp only [tokensAt, List.mem_cons] at ht
    rcases ht with rfl | ht
    . have := List.length_pos_iff.mpr h.1.text_ne_nil
      simp only [Word.token, charsOf_cons, Word.chars, List.length_append]
      omega
    . have := ih h.2 ht
      simp only [charsOf_cons, List.length_append]
      omega

theorem operandAt_concat : operandAt operand (ws ++ [w]) = w.operandAfter := by
  induction ws generalizing operand with
  | nil => rfl
  | cons v ws ih => exact ih

theorem operandAfter_of_opens? (h : opens? t = some bracket) :
    operandAfter t.kind t.value = true := by
  unfold opens? at h
  split at h
  . next hkind =>
    have hvalue := List.find?_some h
    simp only [beq_iff_eq] at hvalue
    rw [hkind, ← hvalue]
    cases bracket <;> decide
  . simp at h

theorem scanFrom_of_le (h : stop ≤ pos) : scanFrom stop n pos operand cs = .ok [] := by
  cases n with
  | zero => rfl
  | succ n =>
    rw [scanFrom]
    split
    . rw [if_pos (by omega)]
    . simp only
      rw [if_pos (by omega)]

theorem scanFrom_of_gap (hgap : afterGap false cs = .ok (newline, rest))
    (h : stop ≤ pos + (cs.length - rest.length)) : scanFrom stop n pos operand cs = .ok [] := by
  cases n with
  | zero => rfl
  | succ n =>
    rw [scanFrom]
    simp only [hgap]
    rw [if_pos h]

theorem scanWindow_of_run (hrun : Run true ws rest)
    (htext : text.toList.drop start = charsOf ws ++ rest)
    (hstop : start + (charsOf ws).length ≤ stop)
    (hend : ∀ n operand, scanFrom stop n (start + (charsOf ws).length) operand rest = .ok []) :
    scanWindow text start stop = .ok (tokensAt start ws) := by
  have hlength := hrun.length_le
  have hfuel : (charsOf ws ++ rest).length + 1 =
      (charsOf ws ++ rest).length + 1 - ws.length + ws.length := by
    simp only [List.length_append]
    omega
  unfold scanWindow
  dsimp only
  rw [htext, hfuel, scanFrom_of_run hrun, hend]
  . simp
  . intro t ht
    have := hrun.start_lt ht
    omega

def GapBefore (gap rest : List Char) : Prop :=
  gap = [] ∨ ∃ newline, afterGap false (gap ++ rest) = .ok (newline, rest)

theorem GapBefore.nil (h : GapBefore gap rest) : GapBefore gap [] := by
  rcases h with h | ⟨newline, h⟩
  . exact .inl h
  . cases rest with
    | nil => exact .inr ⟨newline, h⟩
    | cons c more =>
      obtain ⟨gap', hcs, hskip⟩ := afterGap_append h
      obtain rfl := List.append_cancel_right hcs
      exact .inr ⟨newline, hskip []⟩

theorem rescans_of_run (hrun : Run true ws (gap ++ rest)) (hgap : GapBefore gap rest)
    (htext : text.toList.drop start = charsOf ws ++ (gap ++ rest))
    (hstop : stop = start + (charsOf ws ++ gap).length) :
    Rescans text start stop (tokensAt start ws) := by
  rw [List.length_append] at hstop
  constructor
  . apply scanWindow_of_run hrun htext (by omega)
    intro n operand
    rcases hgap with rfl | ⟨newline, hgap⟩
    . exact scanFrom_of_le (by simp at hstop; omega)
    . apply scanFrom_of_gap hgap
      simp only [List.length_append]
      omega
  . have hslice : (Text.slice text start stop).toList = charsOf ws ++ gap := by
      rw [Text.slice, String.toList_ofList, htext, ← List.append_assoc]
      apply List.take_left'
      simp only [List.length_append]
      omega
    have hlength : (Text.slice text start stop).length = (charsOf ws ++ gap).length := by
      rw [← hslice, String.length_toList]
    refine ⟨tokensAt 0 ws, ?_, ?_⟩
    . unfold scan
      rw [hlength]
      apply scanWindow_of_run (hrun.agrees (.of_initial (List.prefix_append _ _)))
      . rw [List.drop_zero, hslice]
      . simp
      . intro n operand
        rcases hgap.nil with rfl | ⟨newline, hgap⟩
        . exact scanFrom_of_le (by simp)
        . rw [List.append_nil] at hgap
          apply scanFrom_of_gap hgap
          simp
    . rw [← tokensAt_add, Nat.zero_add]

theorem Run.rescans_part (hrun : Run true (pre ++ (w :: part ++ post)) rest)
    (htext : text.toList = charsOf (pre ++ (w :: part ++ post)) ++ rest)
    (hoperand : operandAt true pre = true) :
    Rescans text ((charsOf pre).length + w.gap.length)
      ((charsOf pre).length + (charsOf (w :: part)).length)
      (startLine (tokensAt (charsOf pre).length (w :: part))) := by
  rw [run_append, hoperand, run_append] at hrun
  obtain ⟨_, ⟨hw, hpart⟩, _⟩ := hrun
  have hbare : Run true (w.bare :: part) ([] ++ (charsOf post ++ rest)) := ⟨hw.bare, hpart⟩
  rw [startLine_tokensAt]
  apply rescans_of_run hbare (.inl rfl)
  . rw [htext]
    simp [Word.chars, Word.bare, List.drop_append]
  . simp [Word.chars, Word.bare]
    omega

theorem Run.rescans_between (hrun : Run true (pre ++ (part ++ v :: post)) rest)
    (htext : text.toList = charsOf (pre ++ (part ++ v :: post)) ++ rest)
    (hoperand : operandAt true pre = true) :
    Rescans text (charsOf pre).length ((charsOf pre).length + (charsOf part ++ v.gap).length)
      (tokensAt (charsOf pre).length part) := by
  rw [run_append, hoperand, run_append] at hrun
  obtain ⟨_, hpart, hv, _⟩ := hrun
  have hrun : Run true part (v.gap ++ (v.text ++ (charsOf post ++ rest))) := by
    simpa [Word.chars] using hpart
  refine rescans_of_run hrun (.inr ⟨_, hv.gap⟩) ?_ rfl
  . rw [htext]
    simp [Word.chars]

theorem operandAt_of_getElem? (h : pre.length = 0 ∨ ∃ before,
      (tokensAt 0 (pre ++ ws))[pre.length - 1]? = some before ∧
      operandAfter before.kind before.value = true) :
    operandAt true pre = true := by
  rcases h with h | ⟨before, hbefore, h⟩
  . rw [List.length_eq_zero_iff] at h
    simp [h, operandAt]
  . rcases List.eq_nil_or_concat pre with rfl | ⟨pre, w, rfl⟩
    . rfl
    . rw [List.concat_eq_append, List.append_assoc, getElem?_tokensAt_append (by simp)] at hbefore
      simp only [List.length_append, List.length_singleton, Nat.add_sub_cancel, Nat.sub_self,
        List.singleton_append, tokensAt, List.getElem?_cons_zero, Option.some.injEq] at hbefore
      subst hbefore
      rw [List.concat_eq_append, operandAt_concat]
      exact h

/-- A window that starts with a token before which an operand is due, and ends with a token, has the
tokens of the whole text, and so has the window between an opening bracket and any later token, in
particular the bracket that closes it. -/
theorem rescans_of_scan (h : scan text = .ok tokens) :
    (∀ i j first last, i ≤ j → tokens[i]? = some first → tokens[j]? = some last →
      (i = 0 ∨ ∃ before, tokens[i - 1]? = some before ∧
        operandAfter before.kind before.value = true) →
      Rescans text first.start last.stop (startLine ((tokens.drop i).take (j + 1 - i)))) ∧
    (∀ i j opener closer, i < j → tokens[i]? = some opener → tokens[j]? = some closer →
      opener.opens?.isSome = true →
      Rescans text opener.stop closer.start ((tokens.drop (i + 1)).take (j - (i + 1)))) := by
  obtain ⟨ws, rest, hrun, htext, rfl⟩ := scanFrom_ok h
  rw [List.drop_zero] at htext
  constructor
  . intro i j first last hij hfirst hlast hoperand
    obtain ⟨pre, w, post, rfl, rfl, rfl⟩ := exists_of_getElem?_tokensAt hfirst
    rw [getElem?_tokensAt_append hij] at hlast
    obtain ⟨part, v, post', hpost, hlength, rfl⟩ := exists_of_getElem?_tokensAt hlast
    have hoperand := operandAt_of_getElem? hoperand
    obtain ⟨mid, hmid⟩ : ∃ mid, part ++ [v] = w :: mid := by
      cases part with
      | nil => exact ⟨[], by simp_all⟩
      | cons u part => exact ⟨part ++ [v], by simp_all⟩
    have hpost : w :: post = w :: mid ++ post' := by
      rw [hpost, ← hmid]
      simp
    rw [hpost] at hrun htext ⊢
    have hrescans := hrun.rescans_part htext hoperand
    have hcount : j + 1 - pre.length = (w :: mid).length := by
      rw [← hmid]
      simp
      omega
    have hstop : 0 + (charsOf pre).length + (charsOf part).length + v.chars.length
        = (charsOf pre).length + (charsOf (w :: mid)).length := by
      rw [← hmid]
      simp
      omega
    rw [hcount, part_tokensAt]
    simp only [Word.token, hstop]
    rw [Nat.zero_add]
    exact hrescans
  . intro i j opener closer hij hopener hcloser hopens
    obtain ⟨pre, w, post, rfl, rfl, rfl⟩ := exists_of_getElem?_tokensAt hopener
    have hpre : (pre ++ [w]).length = pre.length + 1 := by simp
    have hsplit : pre ++ w :: post = (pre ++ [w]) ++ post := by simp
    rw [hsplit] at hrun htext hcloser ⊢
    rw [getElem?_tokensAt_append (by omega)] at hcloser
    obtain ⟨part, v, post', rfl, hlength, rfl⟩ := exists_of_getElem?_tokensAt hcloser
    have hoperand : operandAt true (pre ++ [w]) = true := by
      obtain ⟨bracket, hbracket⟩ := Option.isSome_iff_exists.mp hopens
      rw [operandAt_concat]
      exact operandAfter_of_opens? hbracket
    have hrescans := hrun.rescans_between htext hoperand
    rw [← hpre, ← hlength, part_tokensAt]
    simpa [Word.token, Nat.add_assoc] using hrescans

/-- A regular expression that holds a bracket, and markup, in the brackets of a call. -/
theorem rescans_of_scan_call :
    Rescans "f(\n/[)]/g, <b>\x7bx\x7d</b>) / 2" 3 10
      [⟨.regex, "/[)]/g", 3, 9, false⟩, ⟨.punct, ",", 9, 10, false⟩] ∧
    Rescans "f(\n/[)]/g, <b>\x7bx\x7d</b>) / 2" 2 21
      [⟨.regex, "/[)]/g", 3, 9, true⟩, ⟨.punct, ",", 9, 10, false⟩,
        ⟨.markup, "<b>\x7bx\x7d</b>", 11, 21, false⟩] := by
  have h : scan "f(\n/[)]/g, <b>\x7bx\x7d</b>) / 2" = .ok
      [⟨.name, "f", 0, 1, false⟩, ⟨.punct, "(", 1, 2, false⟩, ⟨.regex, "/[)]/g", 3, 9, true⟩,
        ⟨.punct, ",", 9, 10, false⟩, ⟨.markup, "<b>\x7bx\x7d</b>", 11, 21, false⟩,
        ⟨.punct, ")", 21, 22, false⟩, ⟨.punct, "/", 23, 24, false⟩,
        ⟨.number, "2", 25, 26, false⟩] := by
    decide +kernel
  have hpart := (rescans_of_scan h).1 2 3 ⟨.regex, "/[)]/g", 3, 9, true⟩ ⟨.punct, ",", 9, 10, false⟩
    (by decide) rfl rfl (.inr ⟨_, rfl, by decide⟩)
  have hbetween := (rescans_of_scan h).2 1 5 ⟨.punct, "(", 1, 2, false⟩ ⟨.punct, ")", 21, 22, false⟩
    (by decide) rfl rfl (by decide)
  exact ⟨hpart, hbetween⟩

end Token
end ComponentCompiler
