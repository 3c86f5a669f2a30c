import ComponentCompiler.Proofs.Token.Reader
import ComponentCompiler.Proofs.Token.Window
import ComponentCompiler.Token.Group

/-!
This module contains how reading tokens can fail. Inside of a text there is always an error of the
text itself, at a place of it; reading never asks for a character past the end.
-/

namespace ComponentCompiler

def ScanError.IsProblem (text : String) (e : ScanError) : Prop :=
  ∃ problem pos, e = .problem problem pos ∧ pos ≤ text.length ∧ problem.severity = .error

namespace Token

open ScanError (IsProblem)

variable {text : String} {start stop : Nat} {cs : List Char} {tokens : List Token}

theorem stop_le_of_mem_tokensAt (ht : t ∈ tokensAt pos ws) :
    t.stop ≤ pos + (charsOf ws).length := by
  induction ws generalizing pos with
  | nil => simp [tokensAt] at ht
  | cons w ws ih =>
    rw [charsOf_cons, List.length_append]
    rcases List.mem_cons.mp ht with rfl | ht
    . dsimp only [Word.token]
      omega
    . have := ih ht
      omega

theorem Run.window_le (h : Run operand ws rest)
    (htext : text.toList.drop start = charsOf ws ++ rest)
    (ht : t ∈ tokensAt pos ws) : start + (charsOf ws).length ≤ text.length := by
  have hlength := congrArg List.length htext
  rw [List.length_drop, String.length_toList, List.length_append] at hlength
  cases ws with
  | nil => simp [tokensAt] at ht
  | cons w ws =>
    have := List.length_pos_iff.mpr h.1.text_ne_nil
    rw [charsOf_cons, List.length_append, Word.chars, List.length_append] at hlength ⊢
    omega

theorem stop_le_of_scanWindow (h : scanWindow text start stop = .ok tokens) (ht : t ∈ tokens) :
    t.stop ≤ text.length := by
  obtain ⟨ws, rest, hrun, htext, rfl⟩ := scanFrom_ok h
  exact Nat.le_trans (stop_le_of_mem_tokensAt ht) (hrun.window_le htext ht)

theorem start_lt_of_scanWindow (h : scanWindow text start stop = .ok tokens) (ht : t ∈ tokens) :
    t.start < text.length := by
  obtain ⟨ws, rest, hrun, htext, rfl⟩ := scanFrom_ok h
  exact Nat.lt_of_lt_of_le (hrun.start_lt ht) (hrun.window_le htext ht)

theorem isProblem_toError {fault : Fault} (hfault : fault.IsSevere)
    (h : pos + length ≤ text.length) : IsProblem text (fault.toError pos length) := by
  refine ⟨_, _, rfl, ?_, hfault⟩
  omega

theorem failsOnly_scanFrom (h : stop ≤ pos + cs.length) (htext : pos + cs.length ≤ text.length) :
    FailsOnly (IsProblem text) (scanFrom stop n pos operand cs) := by
  induction n generalizing pos operand cs with
  | zero => exact .ok _
  | succ n ih =>
    rw [scanFrom]
    split
    . next fault hgap =>
      split
      . exact .ok _
      . exact .error
          (isProblem_toError ((Reader.agree_afterGap false cs).failsOnly fault hgap) htext)
    . next newline rest hgap =>
      dsimp only
      split
      . exact .ok _
      . next hstop =>
        cases rest with
        | nil =>
          rw [List.length_nil] at hstop
          omega
        | cons c more =>
          obtain ⟨gap, hcs, _⟩ := afterGap_append hgap
          have hlength : cs.length = gap.length + (c :: more).length := by
            rw [hcs, List.length_append]
          dsimp only
          split
          . next fault hread =>
            apply FailsOnly.error
            apply isProblem_toError
            . have hnested := Reader.agree_unbounded (c :: more).length
              exact (hnested.token operand c (Nat.lt_succ_self _)).failsOnly fault hread
            . omega
          . next kind after hread =>
            obtain ⟨w, _, _, hmore, _, _⟩ := Word.starts_of_lexeme hgap hread
            have hafter : (c :: more).length = w.text.length + after.length := by
              rw [hmore, List.length_append]
            apply FailsOnly.map
            apply ih
            . omega
            . omega

theorem failsOnly_scanWindow (start : Nat) (h : stop ≤ text.length) :
    FailsOnly (IsProblem text) (scanWindow text start stop) := by
  by_cases hstart : start ≤ text.length
  . have hlength : (text.toList.drop start).length = text.length - start := by
      rw [List.length_drop, String.length_toList]
    apply failsOnly_scanFrom
    . omega
    . omega
  . rw [scanWindow, List.drop_eq_nil_of_le (by rw [String.length_toList]; omega)]
    dsimp only [scanFrom, afterGap, afterGap.go]
    rw [if_pos (by simp; omega)]
    exact .ok _

theorem failsOnly_group (h : ∀ t ∈ tokens, t.start ≤ text.length) :
    FailsOnly (IsProblem text) (group tokens) := by
  suffices hgo : ∀ stack items, (∀ o : Open, o ∈ stack → o.opener.start ≤ text.length) →
      FailsOnly (IsProblem text) (group.go stack items tokens) from hgo [] [] (by simp)
  intro stack items hstack
  fun_induction group.go stack items tokens with
  | case1 => exact .ok _
  | case2 => exact .error ⟨_, _, rfl, hstack _ List.mem_cons_self, rfl⟩
  | case3 stack items t ts bracket hopens ih =>
    rw [List.forall_mem_cons] at h
    apply ih h.2
    rw [List.forall_mem_cons]
    exact ⟨h.1, hstack⟩
  | case4 => exact .error ⟨_, _, rfl, h _ List.mem_cons_self, rfl⟩
  | case5 _ _ _ _ _ _ _ ih =>
    rw [List.forall_mem_cons] at h hstack
    exact ih h.2 hstack.2
  | case6 => exact .error ⟨_, _, rfl, h _ List.mem_cons_self, rfl⟩
  | case7 _ _ _ _ _ _ ih =>
    rw [List.forall_mem_cons] at h
    exact ih h.2 hstack

theorem failsOnly_items (start : Nat) (h : stop ≤ text.length) :
    FailsOnly (IsProblem text) (scanWindow text start stop >>= group) := by
  apply (failsOnly_scanWindow start h).bind
  intro tokens hscan
  apply failsOnly_group
  intro t ht
  exact Nat.le_of_lt (start_lt_of_scanWindow hscan ht)

theorem failsOnly_scan (text : String) : FailsOnly (IsProblem text) (scan text >>= group) :=
  failsOnly_items 0 (Nat.le_refl _)

theorem failsOnly_markupSlots (hpos : pos < text.length) :
    FailsOnly (IsProblem text) (markupSlots text pos) := by
  apply FailsOnly.map
  rw [readMarkup]
  dsimp only
  split
  . exact .ok _
  . next fault hread =>
    apply FailsOnly.error
    apply isProblem_toError
      ((Reader.agree_unbounded _ (.markup _) _ (Nat.lt_succ_self _)).failsOnly fault hread)
    rw [List.length_drop, String.length_toList]
    omega

theorem markupSlots_le (h : markupSlots text pos = .ok slots) :
    ∀ slot ∈ slots, slot.2 ≤ text.length := by
  obtain ⟨⟨slots, stop⟩, hread, rfl⟩ := map_eq_ok.mp h
  rw [readMarkup] at hread
  dsimp only at hread
  split at hread
  . cases hread
    intro slot hslot
    obtain ⟨s, _, rfl⟩ := List.mem_map.mp hslot
    exact Nat.sub_le _ _
  . simp at hread

end Token
end ComponentCompiler
