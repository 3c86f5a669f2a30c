import ComponentCompiler.Proofs.Text.Slice
import ComponentCompiler.Proofs.Token.Fragment

/-!
This module contains that nothing of a text is lost when it is read into tokens. Each token stands
for a range of the text, and what is left between the ranges is white space and comments.
-/

namespace ComponentCompiler
namespace Token

/-- White space and complete comments. The line feed that ends a line comment belongs to it. -/
inductive IsGap : List Char → Prop where
  | nil : IsGap []
  | blank {c : Char} {cs : List Char} (hc : Text.isBlank c = true) (hcs : IsGap cs) :
    IsGap (c :: cs)
  | line {body cs : List Char} (hbody : '\n' ∉ body) (hcs : IsGap cs) :
    IsGap ('/' :: '/' :: (body ++ '\n' :: cs))
  | block {body cs : List Char} (hbody : ¬ ['*', '/'] <:+: body ++ ['*']) (hcs : IsGap cs) :
    IsGap ('/' :: '*' :: (body ++ '*' :: '/' :: cs))

/-- White space and complete comments at the end of a text, which also ends a line comment. -/
inductive IsLastGap : List Char → Prop where
  | gap {cs : List Char} (h : IsGap cs) : IsLastGap cs
  | line {body cs : List Char} (hcs : IsGap cs) (hbody : '\n' ∉ body) :
    IsLastGap (cs ++ '/' :: '/' :: body)

variable {cs rest body gap first : List Char} {newline found : Bool}

theorem IsGap.append (h : IsGap cs) (hrest : IsGap rest) : IsGap (cs ++ rest) := by
  induction h with
  | nil => exact hrest
  | blank hc _ ih => exact .blank hc ih
  | line hbody _ ih =>
    rw [List.cons_append, List.cons_append, List.append_assoc, List.cons_append]
    exact .line hbody ih
  | block hbody _ ih =>
    rw [List.cons_append, List.cons_append, List.append_assoc, List.cons_append, List.cons_append]
    exact .block hbody ih

theorem IsLastGap.append (h : IsGap cs) (hrest : IsLastGap rest) : IsLastGap (cs ++ rest) := by
  cases hrest with
  | gap hrest => exact .gap (h.append hrest)
  | line hrest hbody =>
    rw [← List.append_assoc]
    exact .line (h.append hrest) hbody

inductive Reached : Gap → List Char → Prop where
  | blank : Reached .blank []
  | slash : Reached .slash ['/']
  | line {body : List Char} (hbody : '\n' ∉ body) : Reached .line ('/' :: '/' :: body)
  | block {left : Nat} {star : Bool} {body : List Char} (hbody : ¬ ['*', '/'] <:+: body)
      (hstar : star = true ↔ ['*'] <:+ body) :
    Reached (.block left star) ('/' :: '*' :: body)

/-- After `pre` of a comment, these characters were passed over before `rest`. The flag tells
whether there was a line feed among them. -/
structure Passed (pre : List Char) (newline : Bool) (used : List Char) (found : Bool)
    (rest : List Char) : Prop where
  last : IsLastGap (pre ++ used)
  gap : rest ≠ [] → IsGap (pre ++ used)
  newline : found = true ↔ newline = true ∨ '\n' ∈ used

namespace Passed

variable {pre used : List Char} {c : Char} {seen : Bool}

theorem nil (newline : Bool) (rest : List Char) : Passed [] newline [] newline rest where
  last := .gap .nil
  gap := fun _ => .nil
  newline := by simp

theorem part (h : Passed (pre ++ [c]) seen used found rest)
    (hseen : seen = true ↔ newline = true ∨ c = '\n') :
    Passed pre newline (c :: used) found rest where
  last := by simpa using h.last
  gap := by simpa using h.gap
  newline := by rw [h.newline, hseen, List.mem_cons, or_assoc, @eq_comm _ c]

theorem complete (h : Passed [] seen used found rest) (hgap : IsGap (pre ++ [c]))
    (hseen : seen = true ↔ newline = true ∨ c = '\n') :
    Passed pre newline (c :: used) found rest where
  last := by simpa using h.last.append hgap
  gap := by
    intro hrest
    simpa using hgap.append (h.gap hrest)
  newline := by rw [h.newline, hseen, List.mem_cons, or_assoc, @eq_comm _ c]

end Passed

theorem not_infix_concat {c : Char} (hbody : ¬ ['*', '/'] <:+: body)
    (hc : c = '/' → ¬ ['*'] <:+ body) : ¬ ['*', '/'] <:+: body ++ [c] := by
  rw [List.infix_concat_iff]
  rintro (⟨before, h⟩ | h)
  . have hlast : before ++ ['*'] ++ ['/'] = body ++ [c] := by simpa using h
    obtain ⟨rfl, hc'⟩ := List.append_inj' hlast rfl
    exact hc (List.cons.inj hc').1.symm (List.suffix_append _ _)
  . exact hbody h

theorem suffix_concat_star (body : List Char) (c : Char) : ['*'] <:+ body ++ [c] ↔ c = '*' := by
  constructor
  . rintro ⟨before, h⟩
    exact (List.cons.inj (List.append_inj' h rfl).2).1.symm
  . rintro rfl
    exact List.suffix_append _ _

namespace afterGap

/-- A slash that opens no comment is not part of the gap; otherwise the comment that was begun is
completed, or the text ends with it. -/
theorem go_passed {state : Gap} {pre : List Char} (hpre : Reached state pre)
    (h : go state newline cs = .ok (found, rest)) :
    (state = .slash ∧ rest = '/' :: cs ∧ found = newline) ∨
    ∃ used, cs = used ++ rest ∧ Passed pre newline used found rest := by
  fun_induction go state newline cs generalizing pre with
  | case1 newline =>
    cases h
    cases hpre
    exact .inr ⟨[], rfl, .nil _ _⟩
  | case2 newline =>
    cases h
    cases hpre with
    | @line body hbody =>
      refine .inr ⟨[], rfl, ?_, by simp, by simp⟩
      rw [List.append_nil]
      exact .line .nil hbody
  | case3 newline =>
    cases h
    exact .inl ⟨rfl, rfl, rfl⟩
  | case4 => cases h
  | case5 newline c cs hblank ih =>
    cases hpre
    obtain ⟨used, rfl, hpassed⟩ := (ih .blank h).resolve_left (by simp)
    exact .inr ⟨c :: used, rfl, hpassed.complete (.blank hblank .nil) (by simp)⟩
  | case6 newline cs hblank ih =>
    cases hpre
    rcases ih .slash h with ⟨_, rfl, rfl⟩ | ⟨used, rfl, hpassed⟩
    -- the slash belongs to the token after the gap
    . exact .inr ⟨[], rfl, .nil _ _⟩
    . exact .inr ⟨'/' :: used, rfl, hpassed.part (by simp)⟩
  | case7 newline c cs hblank hslash =>
    cases h
    cases hpre
    exact .inr ⟨[], rfl, .nil _ _⟩
  | case8 newline cs ih =>
    cases hpre
    obtain ⟨used, rfl, hpassed⟩ := (ih (.line List.not_mem_nil) h).resolve_left (by simp)
    exact .inr ⟨'/' :: used, rfl, hpassed.part (by simp)⟩
  | case9 newline cs hslash ih =>
    cases hpre
    have hreached : Reached (.block (cs.length + 2) false) ['/', '*'] := .block (by simp) (by simp)
    obtain ⟨used, rfl, hpassed⟩ := (ih hreached h).resolve_left (by simp)
    exact .inr ⟨'*' :: used, rfl, hpassed.part (by simp)⟩
  | case10 newline c cs hslash hstar =>
    cases h
    exact .inl ⟨rfl, rfl, rfl⟩
  | case11 newline cs ih =>
    cases hpre with
    | line hbody =>
      obtain ⟨used, rfl, hpassed⟩ := (ih .blank h).resolve_left (by simp)
      exact .inr ⟨'\n' :: used, rfl, hpassed.complete (.line hbody .nil) (by simp)⟩
  | case12 newline c cs hother ih =>
    cases hpre with
    | @line body hbody =>
      have hbody : '\n' ∉ body ++ [c] := by simpa [hbody] using Ne.symm hother
      obtain ⟨used, rfl, hpassed⟩ := (ih (.line hbody) h).resolve_left (by simp)
      exact .inr ⟨c :: used, rfl, hpassed.part (by simp [hother])⟩
  | case13 left star newline c cs hstop ih =>
    cases hpre with
    | block hbody hstar =>
      simp only [Bool.and_eq_true, beq_iff_eq] at hstop
      obtain ⟨hlast, rfl⟩ := hstop
      -- the flag says that the star before the slash was passed over
      obtain ⟨body, rfl⟩ := hstar.mp hlast
      have hgap :
          IsGap ('/' :: '*' :: (body ++ ['*']) ++ ['/']) := by simpa using IsGap.block hbody .nil
      obtain ⟨used, rfl, hpassed⟩ := (ih .blank h).resolve_left (by simp)
      exact .inr ⟨'/' :: used, rfl, hpassed.complete hgap (by simp)⟩
  | case14 left star newline c cs hstop ih =>
    cases hpre with
    | @block _ _ body hbody hstar =>
      have hbody : ¬ ['*', '/'] <:+: body ++ [c] := by
        apply not_infix_concat hbody
        rintro rfl
        simpa [← hstar] using hstop
      have hreached : Reached (.block left (c == '*')) ('/' :: '*' :: body ++ [c]) :=
        .block hbody (beq_iff_eq.trans (suffix_concat_star body c).symm)
      obtain ⟨used, rfl, hpassed⟩ := (ih hreached h).resolve_left (by simp)
      exact .inr ⟨c :: used, rfl, hpassed.part (by simp)⟩

theorem go_left_pos {state : Gap} {fault : Fault}
    (hstate : ∀ left star, state = .block left star → 0 < left)
    (h : go state newline cs = .error fault) : 0 < fault.left := by
  fun_induction go state newline cs with
  | case4 left star =>
    cases h
    exact hstate left star rfl
  | case9 newline cs _ ih =>
    refine ih ?_ h
    intro left star heq
    cases heq
    omega
  | case14 left star newline c cs _ ih =>
    refine ih ?_ h
    intro left' star' heq
    cases heq
    exact hstate left star rfl
  | case5 _ _ _ _ ih | case6 _ _ _ ih | case8 _ _ ih | case11 _ _ ih | case12 _ _ _ _ ih
  | case13 _ _ _ _ _ _ ih =>
    exact ih (by simp) h
  | _ => cases h

end afterGap

theorem passed_of_afterGap (h : afterGap false (gap ++ rest) = .ok (found, rest)) :
    IsLastGap gap ∧ (rest ≠ [] → IsGap gap) ∧ (found = true ↔ '\n' ∈ gap) := by
  obtain ⟨used, hcs, hpassed⟩ := (afterGap.go_passed .blank h).resolve_left (by simp)
  obtain rfl := List.append_cancel_right hcs
  exact ⟨hpassed.last, hpassed.gap, by simpa using hpassed.newline⟩

namespace afterGap

theorem go_line (hbody : '\n' ∉ body) (newline : Bool) (cs : List Char) :
    go .line newline (body ++ '\n' :: cs) = go .blank true cs := by
  induction body with
  | nil => rw [List.nil_append, go, if_pos rfl]
  | cons c body ih =>
    rw [List.mem_cons, not_or] at hbody
    rw [List.cons_append, go, if_neg (Ne.symm hbody.1), ih hbody.2]

theorem go_line_end (hbody : '\n' ∉ body) (newline : Bool) :
    go .line newline body = .ok (newline, []) := by
  induction body with
  | nil => rfl
  | cons c body ih =>
    rw [List.mem_cons, not_or] at hbody
    rw [go, if_neg (Ne.symm hbody.1), ih hbody.2]

theorem go_block {star : Bool} (hbody : ¬ ['*', '/'] <:+: body ++ ['*'])
    (hstar : star = true → body.head? ≠ some '/') (left : Nat) (newline : Bool)
    (cs : List Char) : go (.block left star) newline (body ++ '*' :: '/' :: cs) =
      go .blank (newline || body.contains '\n') cs := by
  induction body generalizing star newline with
  | nil =>
    rw [List.nil_append, go, if_neg (by simp), go, if_pos (by rfl)]
    simp
  | cons c body ih =>
    have hend : ¬ (star && c == '/') = true := by
      rw [Bool.and_eq_true, beq_iff_eq]
      rintro ⟨h, rfl⟩
      exact hstar h rfl
    have hnext : (c == '*') = true → body.head? ≠ some '/' := by
      rw [beq_iff_eq]
      rintro rfl hhead
      obtain ⟨more, rfl⟩ := List.head?_eq_some_iff.mp hhead
      exact hbody ⟨[], more ++ ['*'], rfl⟩
    rw [List.cons_append, go, if_neg hend,
      ih (fun h => hbody (h.trans (List.suffix_cons _ _).isInfix)) hnext, List.contains_cons,
      Bool.or_assoc, Bool.beq_comm]

end afterGap

theorem IsGap.skip (h : IsGap gap) (newline : Bool) (cs : List Char) :
    afterGap newline (gap ++ cs) = afterGap (newline || gap.contains '\n') cs := by
  unfold afterGap
  induction h generalizing newline with
  | nil => simp
  | @blank c gap hc _ ih =>
    rw [List.cons_append, afterGap.go, if_pos hc, ih, List.contains_cons, Bool.or_assoc,
      Bool.beq_comm]
  | @line body gap hbody _ ih =>
    rw [List.cons_append, List.cons_append, List.append_assoc, List.cons_append, afterGap.go,
      if_neg (by decide), if_pos rfl, afterGap.go, if_pos rfl, afterGap.go_line hbody, ih]
    simp
  | @block body gap hbody _ ih =>
    rw [List.cons_append, List.cons_append, List.append_assoc, List.cons_append, List.cons_append,
      afterGap.go, if_neg (by decide), if_pos rfl, afterGap.go, if_neg (by decide), if_pos rfl,
      afterGap.go_block hbody (by simp), ih]
    simp [Bool.or_assoc]

theorem IsLastGap.close (h : IsLastGap gap) (hbody : '\n' ∉ body)
    (hblank : IsGap (body ++ ['\n'])) : IsGap (gap ++ (body ++ ['\n'])) := by
  cases h with
  | gap h => exact h.append hblank
  | @line inner before h hinner =>
    have hline : '\n' ∉ inner ++ body := by
      rw [List.mem_append]
      exact fun h => h.elim hinner hbody
    have hgap := h.append (IsGap.line hline .nil)
    simpa using hgap

theorem IsLastGap.skip (h : IsLastGap gap) (newline : Bool) :
    ∃ found, afterGap newline gap = .ok (found, []) := by
  cases h with
  | gap h =>
    have hskip := h.skip newline []
    rw [List.append_nil] at hskip
    exact ⟨_, hskip⟩
  | line h hbody => exact ⟨_, (h.skip newline _).trans (afterGap.go_line_end hbody _)⟩

theorem afterGap_of_scanFrom_nil (h : scanFrom (pos + cs.length) (n + 1) pos operand cs = .ok []) :
    ∃ newline, afterGap false cs = .ok (newline, []) := by
  rw [scanFrom] at h
  split at h
  . next fault hgap =>
    -- a comment that is not closed starts before the end of the text, so it is reported
    have hleft : 0 < fault.left := afterGap.go_left_pos (by simp) hgap
    split at h
    . next hstop =>
      have hnil : cs = [] := List.eq_nil_of_length_eq_zero (by omega)
      rw [hnil] at hgap
      cases hgap
    . cases h
  . next newline rest hgap =>
    dsimp only at h
    split at h
    . next hstop =>
      cases rest with
      | nil => exact ⟨newline, hgap⟩
      | cons c more =>
        have hnil : cs = [] := by
          rw [List.length_cons] at hstop
          exact List.eq_nil_of_length_eq_zero (by omega)
        rw [hnil] at hgap
        cases hgap
    . split at h
      . cases h
      . split at h
        . cases h
        . obtain ⟨more, _, h⟩ := bind_eq_ok.mp h
          cases h

theorem scanFrom_end (h : scanFrom (pos + cs.length) n pos operand cs = .ok tokens)
    (hn : cs.length < n) :
    ∃ ws rest newline, Run operand ws rest ∧ cs = charsOf ws ++ rest ∧ tokens = tokensAt pos ws ∧
      afterGap false rest = .ok (newline, []) := by
  induction n generalizing pos operand cs tokens with
  | zero => omega
  | succ n ih =>
    rcases scanFrom_succ_ok h with rfl | ⟨w, rest, more, hstarts, rfl, rfl, hrest⟩
    . obtain ⟨newline, hgap⟩ := afterGap_of_scanFrom_nil h
      exact ⟨[], cs, newline, trivial, rfl, rfl, hgap⟩
    . have hword := List.length_pos_iff.mpr hstarts.text_ne_nil
      rw [List.length_append, Word.chars, List.length_append] at hn
      rw [List.length_append, ← Nat.add_assoc] at hrest
      obtain ⟨ws, last, newline, hrun, rfl, rfl, hgap⟩ := ih hrest (by omega)
      exact ⟨w :: ws, last, newline, ⟨hstarts, hrun⟩, by simp, rfl, hgap⟩

/-- The offset that these tokens of a text reach to. -/
def reach (tokens : List Token) : Nat :=
  (tokens.getLast?.map stop).getD 0

theorem reach_tokensAt (ws : List Word) : reach (tokensAt 0 ws) = (charsOf ws).length := by
  rcases List.eq_nil_or_concat ws with rfl | ⟨ws, w, rfl⟩
  . rfl
  . rw [List.concat_eq_append, tokensAt_append, reach]
    simp [tokensAt, Word.token]

theorem exists_word_of_split {text : String} (hrun : Run true ws rest)
    (htext : text.toList = charsOf ws ++ rest) (h : tokensAt 0 ws = before ++ t :: after) :
    ∃ (as : List Word) (w : Word) (operand : Bool) (next : List Char), w.Starts operand next ∧
      text.toList = charsOf as ++ (w.gap ++ (w.text ++ next)) ∧ reach before = (charsOf as).length ∧
      t = w.token (charsOf as).length := by
  obtain ⟨as, bs, rfl, rfl, hbs⟩ := eq_append_of_tokensAt h
  cases bs with
  | nil => cases hbs
  | cons w bs =>
    rw [tokensAt, Nat.zero_add, List.cons.injEq] at hbs
    refine ⟨as, w, _, _, (run_append.mp hrun).2.1, ?_, reach_tokensAt as, hbs.1.symm⟩
    rw [htext]
    simp [Word.chars]

/-- Nothing of a text is lost in its tokens but white space and comments. -/
theorem scan_lossless (h : scan text = .ok tokens) :
    (∀ t ∈ tokens, t.start < t.stop ∧ t.stop ≤ text.length ∧
      t.value = Text.slice text t.start t.stop) ∧
    tokens.Pairwise (fun t u => t.stop ≤ u.start) ∧
    (∀ before t after, tokens = before ++ t :: after →
      IsGap (Text.slice text (reach before) t.start).toList ∧
      (t.newlineBefore = true ↔ '\n' ∈ (Text.slice text (reach before) t.start).toList)) ∧
    IsLastGap (Text.slice text (reach tokens) text.length).toList := by
  have hranges := increasing_of_scan h
  have hscan : scanFrom (0 + text.toList.length) (text.toList.length + 1) 0 true text.toList =
      .ok tokens := by
    simpa [scan, scanWindow, String.length_toList] using h
  obtain ⟨ws, rest, newline, hrun, htext, rfl, hend⟩ := scanFrom_end hscan (Nat.lt_succ_self _)
  refine ⟨?_, List.pairwise_map.mp hranges.apart, ?_, ?_⟩
  . intro t ht
    refine ⟨hranges.nonempty t.range (List.mem_map_of_mem ht), stop_le_of_scanWindow h ht, ?_⟩
    obtain ⟨before, after, hsplit⟩ := List.append_of_mem ht
    obtain ⟨as, w, _, next, _, htext, _, rfl⟩ := exists_word_of_split hrun htext hsplit
    rw [← List.append_assoc] at htext
    have hstart : (w.token (charsOf as).length).start = (charsOf as ++ w.gap).length :=
      List.length_append.symm
    have hstop : (w.token (charsOf as).length).stop =
        (w.token (charsOf as).length).start + w.text.length := by
      simp [Word.token, Word.chars, Nat.add_assoc]
    rw [← String.toList_inj, Text.toList_slice htext hstart hstop]
    exact String.toList_ofList
  . intro before t after hsplit
    obtain ⟨as, w, _, next, hstarts, htext, hreach, rfl⟩ := exists_word_of_split hrun htext hsplit
    have hstart : (w.token (charsOf as).length).start =
        reach before + w.gap.length := by rw [hreach, Word.token]
    rw [Text.toList_slice htext hreach hstart]
    obtain ⟨_, hgap, hnewline⟩ := passed_of_afterGap hstarts.gap
    exact ⟨hgap (by simp [hstarts.text_ne_nil]), hnewline⟩
  . have hlength := Text.length_eq htext
    have hslice : text.toList = charsOf ws ++ (rest ++ []) := by rw [htext, List.append_nil]
    rw [Text.toList_slice hslice (reach_tokensAt ws)
      (by rw [hlength, reach_tokensAt, List.length_append])]
    rw [← List.append_nil rest] at hend
    exact (passed_of_afterGap hend).1

/-- Two comments and a line feed before an operator, and a comment at the end. -/
theorem scan_lossless_comments :
    scan "a // x\n/* y */+ b //" = .ok
      [⟨.name, "a", 0, 1, false⟩, ⟨.punct, "+", 14, 15, true⟩, ⟨.name, "b", 16, 17, false⟩] ∧
    IsGap (Text.slice "a // x\n/* y */+ b //" 1 14).toList ∧
      IsLastGap (Text.slice "a // x\n/* y */+ b //" 17 20).toList := by
  have h : scan "a // x\n/* y */+ b //" = .ok
      [⟨.name, "a", 0, 1, false⟩, ⟨.punct, "+", 14, 15, true⟩, ⟨.name, "b", 16, 17, false⟩] := by
    decide +kernel
  obtain ⟨_, _, hgaps, hlast⟩ := scan_lossless h
  exact ⟨h, (hgaps [⟨.name, "a", 0, 1, false⟩] _ _ rfl).1, hlast⟩

end Token
end ComponentCompiler
